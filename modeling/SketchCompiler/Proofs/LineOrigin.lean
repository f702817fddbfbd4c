/-
Where generated lines come from.  A sketch keeps, by line number, the
place in the source that a line was written for.  The main result
(`Program.lineMap_aligned`) says that these numbers are those of the
lines of the text, and that the line of a number was written for a part
of the program that starts at the place kept for it.

A `Part` is what has lines of its own.  These (`Part.ownLines`) are the
lines it is written as when everything inside it that has lines of its
own is taken out, so the line of a statement is never taken for one of
the block around it.  The statements of a value block are written on the
line of the statement around them, and are no parts.

The numbers count the lines that were put together; they number the lines
of the text only because no such line holds a line feed
(`Sketch.sketch_oneLine`).
-/
import SketchCompiler.Proofs.Image
import SketchCompiler.Proofs.OneLine

namespace SketchCompiler

open List

variable {l : Line} {name : String} {backend : Backend} {p : Program} {sk : Sketch}

-- ==== parts

/-- The block without its statements. -/
def Block.emptied : Block → Block
  | .mk span _ => .mk span []

/-- The statement without the parts inside it. -/
def Stmt.emptied : Stmt → Stmt
  | .structDecl span name _ => .structDecl span name []
  | .taskDecl span name decorators body =>
    .taskDecl span name decorators (body.map Block.emptied)
  | .functionDecl span name params returnType body =>
    .functionDecl span name params returnType body.emptied
  | .loopDecl span body => .loopDecl span body.emptied
  | .block body => .block body.emptied
  | .ifElse span condition thenBranch _ => .ifElse span condition thenBranch.emptied none
  | .whileLoop span condition body => .whileLoop span condition body.emptied
  | .forLoop span init condition update body => .forLoop span init condition update body.emptied
  | .matchValue span value _ => .matchValue span value []
  | s => s

/-- The arm without the statements of its body. -/
def MatchArm.emptied : MatchArm → MatchArm
  | .mk span pattern isWildcard body => .mk span pattern isWildcard body.emptied

/-- The span of an arm. -/
def MatchArm.span : MatchArm → Span
  | .mk span .. => span

/-- What has lines of its own. -/
inductive Part where
  | decl (d : Stmt)
  | stmt (s : Stmt)
  | field (f : StructField)
  | otherwise (body : Block)
  | arm (a : MatchArm)

/-- The span of a part. -/
def Part.span : Part → Span
  | decl s | stmt s => s.span
  | field f => f.span
  | otherwise body => body.span
  | arm a => a.span

/-- All lines that a declaration adds. -/
def Sketch.Sections.lines (s : Sections) : List Line :=
  s.globals ++ (s.functions.flatten ++ (s.setup ++ s.loop))

/-- The lines of a part itself. -/
def Part.ownLines (cx : EmitContext) : Part → Except EmitFault (List Line)
  | decl d => do
    let sections ← Sketch.ofDecl cx d.emptied
    return Sketch.structType d.emptied ++ (Sketch.taskPrototype d ++ sections.lines)
  | stmt s => Emit.stmt cx s.emptied
  | field f => return [⟨TypeName.toGenerated f.typeName ++ " " ++ f.name ++ ";", some f.span⟩]
  | otherwise body => return Emit.braced "else \x7b" body.span []
  | arm a => Emit.arms cx [a.emptied]

mutual

/-- A statement and the parts inside it. -/
def Stmt.parts : Stmt → List Part
  | s@(.block body) => .stmt s :: body.parts
  | s@(.ifElse _ _ thenBranch elseBranch) => .stmt s :: (thenBranch.parts ++ elseParts elseBranch)
  | s@(.whileLoop _ _ body) => .stmt s :: body.parts
  | s@(.forLoop _ _ _ _ body) => .stmt s :: body.parts
  | s@(.matchValue _ _ arms) => .stmt s :: armsParts arms
  | s => [.stmt s]

def Block.parts : Block → List Part
  | .mk _ statements => stmtsParts statements

def stmtsParts : List Stmt → List Part
  | [] => []
  | s :: rest => s.parts ++ stmtsParts rest

def elseParts : Option Block → List Part
  | none => []
  | some body => .otherwise body :: body.parts

def armsParts : List MatchArm → List Part
  | [] => []
  | .mk span pattern isWildcard body :: arms =>
    .arm (.mk span pattern isWildcard body) :: (body.parts ++ armsParts arms)

end

/-- A declaration of the top level and the parts inside it; a statement
there is written like any other. -/
def Stmt.declParts : Stmt → List Part
  | d@(.structDecl _ _ fields) => .decl d :: fields.map .field
  | d@(.taskDecl _ _ _ (some body)) => .decl d :: body.parts
  | d@(.functionDecl _ _ _ _ body) => .decl d :: body.parts
  | .loopDecl _ body => body.parts
  | d@(.taskDecl ..) | d@(.busDecl ..) | d@(.varDecl ..) => [.decl d]
  | s => s.parts

/-- The parts of a program. -/
def Program.parts (p : Program) : List Part :=
  p.declarations.flatMap Stmt.declParts

-- ==== origins

/-- Up to its indentation the text is that of a line of the part itself. -/
def Part.Writes (cx : EmitContext) (part : Part) (text : String) : Prop :=
  ∃ own, part.ownLines cx = .ok own ∧ ∃ l ∈ own, l.span = some part.span
    ∧ ∃ n, text = String.ofList (List.replicate n ' ') ++ l.text

/-- The line, if it stands for a span, is written by one of the parts, and
that is the span of the part. -/
def Line.StemsFrom (cx : EmitContext) (parts : List Part) (l : Line) : Prop :=
  ∀ span, l.span = some span → ∃ part ∈ parts, part.span = span ∧ part.Writes cx l.text

section Stems

variable {cx : EmitContext} {parts parts' : List Part}

theorem Line.StemsFrom.plain (text : String) : (⟨text, none⟩ : Line).StemsFrom cx parts := nofun

/-- A line of a part itself. -/
theorem Line.StemsFrom.own {part : Part} {own : List Line} (hpart : part ∈ parts)
    (hown : part.ownLines cx = .ok own) (hl : l ∈ own)
    (hspan : ∀ span, l.span = some span → part.span = span) : l.StemsFrom cx parts := by
  intro span hl'
  have hpspan := hspan span hl'
  refine ⟨part, hpart, hpspan, own, hown, l, hl, by rw [hl', hpspan], 0, ?_⟩
  rw [replicate_zero, String.ofList_nil, String.empty_append]

theorem Line.StemsFrom.mono (h : l.StemsFrom cx parts) (hsub : parts ⊆ parts') :
    l.StemsFrom cx parts' := by
  intro span hspan
  obtain ⟨part, hpart, hwrites⟩ := h span hspan
  exact ⟨part, hsub hpart, hwrites⟩

theorem Line.StemsFrom.indent (h : l.StemsFrom cx parts) : l.indent.StemsFrom cx parts := by
  intro span hspan
  obtain ⟨part, hpart, hpspan, own, hown, m, hm, hmspan, n, htext⟩ := h span hspan
  refine ⟨part, hpart, hpspan, own, hown, m, hm, hmspan, n + 2, ?_⟩
  have hspaces : String.ofList (List.replicate (n + 2) ' ')
      = "  " ++ String.ofList (List.replicate n ' ') := by
    rw [Nat.add_comm, replicate_add, String.ofList_append]
    rfl
  rw [Line.indent, htext, hspaces, String.append_assoc]

/-- Every line stems from one of the parts. -/
def AllStem (cx : EmitContext) (parts : List Part) (lines : List Line) : Prop :=
  ∀ l ∈ lines, l.StemsFrom cx parts

theorem AllStem.nil : AllStem cx parts [] := forall_mem_nil _

theorem AllStem.append (ha : AllStem cx parts as) (hb : AllStem cx parts bs) :
    AllStem cx parts (as ++ bs) :=
  forall_mem_append.mpr ⟨ha, hb⟩

theorem AllStem.mono {lines : List Line} (h : AllStem cx parts lines) (hsub : parts ⊆ parts') :
    AllStem cx parts' lines :=
  fun l hl => (h l hl).mono hsub

theorem AllStem.indent {lines : List Line} (h : AllStem cx parts lines) :
    AllStem cx parts (lines.map (·.indent)) := by
  intro l hl
  obtain ⟨m, hm, rfl⟩ := mem_map.mp hl
  exact (h m hm).indent

/-- Lines of a part itself. -/
theorem AllStem.own {part : Part} {own lines : List Line} (hpart : part ∈ parts)
    (hown : part.ownLines cx = .ok own) (hsub : lines ⊆ own)
    (hspan : ∀ l ∈ lines, ∀ span, l.span = some span → part.span = span) :
    AllStem cx parts lines :=
  fun l hl => .own hpart hown (hsub hl) (hspan l hl)

theorem AllStem.braced (part : Part) {own : List Line} {head : String} {body : List Line}
    (hpart : part ∈ parts) (hown : part.ownLines cx = .ok own)
    (hends : Emit.braced head part.span [] ⊆ own)
    (hbody : AllStem cx parts (body.map (·.indent))) :
    AllStem cx parts (Emit.braced head part.span body) := by
  obtain ⟨hhead, hclose⟩ := cons_subset.mp hends
  refine .append (forall_mem_cons.mpr ⟨.own hpart hown hhead fun _ h => Option.some.inj h,
    hbody⟩) (AllStem.own hpart hown hclose ?_)
  exact forall_mem_singleton.mpr fun _ h => Option.some.inj h

theorem braced_nil_subset (head : String) (span : Span) (body : List Line) :
    Emit.braced head span [] ⊆ Emit.braced head span body := by
  refine append_subset.mpr ⟨cons_subset.mpr ⟨mem_cons_self, nil_subset _⟩, ?_⟩
  exact subset_append_right _ _

-- ==== statements

/-- The statement has other statements in it that have lines of their
own. -/
def Stmt.nests : Stmt → Bool
  | .block .. | .ifElse .. | .whileLoop .. | .forLoop .. | .matchValue .. => true
  | _ => false

theorem stmt_emptied (hs : s.nests = false) : Emit.stmt cx s.emptied = Emit.stmt cx s := by
  cases s with
  | block | ifElse | whileLoop | forLoop | matchValue => cases hs
  | _ => rfl

theorem stmt_span (hs : s.nests = false) (h : Emit.stmt cx s = .ok lines) :
    ∀ l ∈ lines, ∀ span, l.span = some span → s.span = span := by
  have hone (text : String) : ∀ l ∈ [(⟨text, some s.span⟩ : Line)],
      ∀ span, l.span = some span → s.span = span :=
    forall_mem_singleton.mpr fun _ h => Option.some.inj h
  have hmap (texts : List String) : ∀ l ∈ texts.map (⟨·, some s.span⟩ : String → Line),
      ∀ span, l.span = some span → s.span = span := by
    intro l hl
    obtain ⟨t, -, rfl⟩ := mem_map.mp hl
    exact fun _ h => Option.some.inj h
  cases s with
  | block | ifElse | whileLoop | forLoop | matchValue => cases hs
  | structDecl | taskDecl | busDecl =>
    cases h
    exact forall_mem_nil _
  | importDecl | functionDecl | loopDecl =>
    cases h
    exact forall_mem_singleton.mpr nofun
  | spawn | varDecl | expr | gpioMode =>
    obtain ⟨t, -, rfl⟩ := bind_ok h
    exact hone _
  | returnValue _ value =>
    cases value with
    | none =>
      cases h
      exact hone _
    | some value =>
      obtain ⟨t, -, rfl⟩ := bind_ok h
      exact hone _
  | digitalWrite =>
    obtain ⟨p, -, v, -, rfl⟩ := bind₂_ok h
    exact hone _
  | pwmWrite =>
    rw [Emit.stmt_pwmCalls] at h
    obtain ⟨c, -, p, -, d, -, rfl⟩ := bind₃_ok h
    exact hmap _
  | rgbWrite =>
    simp only [Emit.stmt] at h
    split at h
    · obtain ⟨p, -, r, -, g, -, b, -, rfl⟩ := bind₄_ok h
      exact hone _
    · cases h
  | delay =>
    rw [Emit.stmt_delay] at h
    obtain ⟨t, -, rfl⟩ := bind_ok h
    exact hone _
  | wifiConnect =>
    obtain ⟨s, -, p, -, rfl⟩ := bind₂_ok h
    exact hmap _
  | raw span code =>
    cases h
    refine forall_mem_append.mpr ⟨forall_mem_cons.mpr ⟨fun _ h => Option.some.inj h, ?_⟩, hone _⟩
    intro l hl
    obtain ⟨m, hm, rfl⟩ := mem_map.mp hl
    obtain ⟨t, -, rfl⟩ := mem_map.mp hm
    exact fun _ h => Option.some.inj h

theorem leaf_stems (hs : s.nests = false) (h : Emit.stmt cx s = .ok lines) :
    AllStem cx s.parts lines := by
  have hparts : s.parts = [.stmt s] := by
    cases s with
    | block | ifElse | whileLoop | forLoop | matchValue => cases hs
    | _ => rfl
  rw [hparts]
  exact .own (mem_singleton_self _) ((stmt_emptied hs).trans h) (fun _ => id) (stmt_span hs h)

theorem block_emptied (body : Block) : Emit.block cx body.emptied = .ok [] := by
  cases body
  rfl

mutual

theorem stmt_stems : ∀ (s : Stmt) {lines : List Line}, Emit.stmt cx s = .ok lines →
    AllStem cx s.parts lines
  | .block body, _, h => by
    obtain ⟨lines, hlines, rfl⟩ := bind_ok h
    have hown : (Part.stmt (.block body)).ownLines cx = .ok (Emit.braced "\x7b" body.span []) := by
      cases body
      rfl
    exact .braced (.stmt (.block body)) mem_cons_self hown (fun _ => id)
      ((block_stems body hlines).mono fun _ => mem_cons_of_mem _).indent
  | .ifElse span condition thenBranch elseBranch, _, h => by
    have hhead {c : String} (hc : Emit.expr cx condition = .ok c) :
        (Part.stmt (.ifElse span condition thenBranch elseBranch)).ownLines cx
          = .ok (Emit.braced ("if (" ++ c ++ ") \x7b") span []) := by
      simp only [Part.ownLines, Stmt.emptied, Emit.stmt, hc, block_emptied]
      rfl
    cases elseBranch with
    | none =>
      obtain ⟨c, hc, lines, hlines, rfl⟩ := bind₂_ok h
      refine .braced (.stmt (.ifElse span condition thenBranch none)) mem_cons_self
        (hhead hc) (fun _ => id) ((block_stems thenBranch hlines).mono fun _ hm => ?_).indent
      exact mem_cons_of_mem _ (mem_append_left _ hm)
    | some body =>
      obtain ⟨c, hc, lines, hlines, lines', hlines', rfl⟩ := bind₃_ok h
      refine .append ?_ ?_
      · refine .braced (.stmt (.ifElse span condition thenBranch (some body)))
          mem_cons_self (hhead hc) (fun _ => id)
          ((block_stems thenBranch hlines).mono fun _ hm => ?_).indent
        exact mem_cons_of_mem _ (mem_append_left _ hm)
      · refine .mono ?_ fun _ hm => mem_cons_of_mem _ (mem_append_right _ hm)
        exact .braced (.otherwise body) mem_cons_self rfl (fun _ => id)
          ((block_stems body hlines').mono fun _ => mem_cons_of_mem _).indent
  | .whileLoop span condition body, _, h => by
    obtain ⟨c, hc, lines, hlines, rfl⟩ := bind₂_ok h
    have hown : (Part.stmt (.whileLoop span condition body)).ownLines cx
        = .ok (Emit.braced ("while (" ++ c ++ ") \x7b") span []) := by
      simp only [Part.ownLines, Stmt.emptied, Emit.stmt, hc, block_emptied]
      rfl
    exact .braced (.stmt (.whileLoop span condition body)) mem_cons_self hown
      (fun _ => id) ((block_stems body hlines).mono fun _ => mem_cons_of_mem _).indent
  | .forLoop span init condition update body, _, h => by
    rw [Emit.stmt_forLoop] at h
    obtain ⟨i, hi, c, hc, u, hu, lines, hlines, rfl⟩ := bind₄_ok h
    have hown : (Part.stmt (.forLoop span init condition update body)).ownLines cx
        = .ok (Emit.braced ("for (" ++ i ++ "; " ++ c ++ "; " ++ u ++ ") \x7b") span []) := by
      rw [Part.ownLines, Stmt.emptied, Emit.stmt_forLoop, hi, hc, hu, block_emptied]
      rfl
    exact .braced (.stmt (.forLoop span init condition update body)) mem_cons_self
      hown (fun _ => id) ((block_stems body hlines).mono fun _ => mem_cons_of_mem _).indent
  | .matchValue span value arms, _, h => by
    obtain ⟨v, hv, lines, hlines, rfl⟩ := bind₂_ok h
    have hown : (Part.stmt (.matchValue span value arms)).ownLines cx
        = .ok [⟨"switch (" ++ v ++ ") \x7b", some span⟩, ⟨"\x7d", some span⟩] := by
      simp only [Part.ownLines, Stmt.emptied, Emit.stmt, hv]
      rfl
    refine .append (forall_mem_cons.mpr ⟨?_, ?_⟩) (forall_mem_singleton.mpr ?_)
    · exact .own mem_cons_self hown mem_cons_self fun _ h => Option.some.inj h
    · exact (arms_stem arms hlines).mono fun _ => mem_cons_of_mem _
    · exact .own mem_cons_self hown (mem_cons_of_mem _ mem_cons_self)
        fun _ h => Option.some.inj h
  | .importDecl .., _, h | .structDecl .., _, h | .taskDecl .., _, h | .busDecl .., _, h
  | .functionDecl .., _, h | .loopDecl .., _, h | .varDecl .., _, h | .returnValue .., _, h
  | .expr .., _, h | .spawn .., _, h | .gpioMode .., _, h | .digitalWrite .., _, h
  | .pwmWrite .., _, h | .rgbWrite .., _, h | .delay .., _, h | .wifiConnect .., _, h
  | .raw .., _, h => leaf_stems rfl h

theorem block_stems : ∀ (body : Block) {lines : List Line}, Emit.block cx body = .ok lines →
    AllStem cx body.parts lines
  | .mk _ statements, _, h => stmts_stem statements h

theorem stmts_stem : ∀ (ss : List Stmt) {lines : List Line}, Emit.stmts cx ss = .ok lines →
    AllStem cx (stmtsParts ss) lines
  | [], _, h => by
    cases h
    exact .nil
  | s :: rest, _, h => by
    obtain ⟨first, hfirst, others, hothers, rfl⟩ := bind₂_ok h
    exact ((stmt_stems s hfirst).mono fun _ => mem_append_left _).append
      ((stmts_stem rest hothers).mono fun _ => mem_append_right _)

theorem arms_stem : ∀ (arms : List MatchArm) {lines : List Line}, Emit.arms cx arms = .ok lines →
    AllStem cx (armsParts arms) lines
  | [], _, h => by
    cases h
    exact .nil
  | .mk span pattern isWildcard body :: arms, _, h => by
    rw [Emit.arms_cons] at h
    obtain ⟨head, hhead, lines, hlines, others, hothers, rfl⟩ := bind₃_ok h
    have hown : (Part.arm (.mk span pattern isWildcard body)).ownLines cx
        = .ok (Emit.braced head span [⟨"break;", some span⟩]) := by
      rw [Part.ownLines, MatchArm.emptied, Emit.arms_cons, hhead, block_emptied]
      rfl
    have hlines := (block_stems body hlines).mono fun _ hm =>
      mem_cons_of_mem (.arm (.mk span pattern isWildcard body))
        (mem_append_left (armsParts arms) hm)
    refine .append (.braced (.arm (.mk span pattern isWildcard body)) mem_cons_self hown ?_ ?_)
      ((arms_stem arms hothers).mono fun _ hm => ?_)
    · exact braced_nil_subset _ _ _
    · -- the break behind the body is a line of the arm itself
      rw [map_append]
      refine hlines.indent.append (AllStem.own mem_cons_self hown ?_ ?_)
      · simp [Emit.braced]
      · exact forall_mem_singleton.mpr fun _ h => Option.some.inj h
    · exact mem_cons_of_mem _ (mem_append_right _ hm)

end

-- ==== declarations

theorem fields_stem (span : Span) (name : String) (fields : List StructField) :
    AllStem cx (Stmt.structDecl span name fields).declParts
      (Sketch.structType (.structDecl span name fields)) := by
  have hown : (Part.decl (.structDecl span name fields)).ownLines cx
      = .ok [⟨"struct " ++ name ++ " \x7b", some span⟩, ⟨"\x7d;", some span⟩, ⟨"", none⟩] := rfl
  refine .append (forall_mem_cons.mpr ⟨?_, ?_⟩) (AllStem.own mem_cons_self hown ?_ ?_)
  · exact .own mem_cons_self hown mem_cons_self fun _ h => Option.some.inj h
  · intro l hl
    obtain ⟨f, hf, rfl⟩ := mem_map.mp hl
    have hmem : Part.field f ∈ (Stmt.structDecl span name fields).declParts :=
      mem_cons_of_mem _ (mem_map_of_mem hf)
    have hfield : (⟨TypeName.toGenerated f.typeName ++ " " ++ f.name ++ ";", some f.span⟩
        : Line).StemsFrom cx (Stmt.structDecl span name fields).declParts :=
      .own hmem rfl (mem_singleton_self _) fun _ h => Option.some.inj h
    have hindent := hfield.indent
    simpa only [Line.indent, String.append_assoc] using hindent
  · exact subset_cons_self _ _
  · exact forall_mem_cons.mpr ⟨fun _ h => Option.some.inj h, forall_mem_singleton.mpr nofun⟩

theorem task_stems {span : Span} {decorators : List Decorator} {body : Option Block}
    {s : Sketch.Sections} (h : Sketch.ofDecl cx (.taskDecl span name decorators body) = .ok s) :
    AllStem cx (Stmt.taskDecl span name decorators body).declParts
      (Sketch.taskPrototype (.taskDecl span name decorators body) ++ s.lines) := by
  simp only [Sketch.ofDecl, Sketch.taskFunction_eq, bind_eq_ok, pure_eq_ok] at h
  obtain ⟨_, ⟨inner, hinner, rate, hrate, rfl⟩, start, hstart, rfl⟩ := h
  have hmem : Part.decl (.taskDecl span name decorators body)
      ∈ (Stmt.taskDecl span name decorators body).declParts := by
    cases body <;> exact mem_cons_self
  have hbody : AllStem cx (Stmt.taskDecl span name decorators body).declParts inner := by
    cases body with
    | none =>
      cases hinner
      exact .nil
    | some body => exact (block_stems body hinner).mono fun _ => mem_cons_of_mem _
  have hemptied : Sketch.taskBody cx (body.map Block.emptied) = .ok [] := by
    cases body with
    | none => rfl
    | some body => exact block_emptied body
  let own : List Line := ⟨"void __task_" ++ name ++ "(void* pvParameters);", some span⟩
    :: (Emit.braced ("void __task_" ++ name ++ "(void* pvParameters) \x7b") span
      (Emit.braced "for (;;) \x7b" span
        [⟨"vTaskDelay(pdMS_TO_TICKS(" ++ rate ++ "));", some span⟩])
      ++ [⟨start, some span⟩])
  have hown : (Part.decl (.taskDecl span name decorators body)).ownLines cx = .ok own := by
    simp only [Part.ownLines, Stmt.emptied, Sketch.ofDecl, Sketch.taskFunction_eq, hemptied, hrate,
      hstart]
    rfl
  have hline {l : Line} (hl : l ∈ own) (hspan : l.span = some span) :
      AllStem cx (Stmt.taskDecl span name decorators body).declParts [l] :=
    forall_mem_singleton.mpr
      (.own hmem hown hl fun _ h => Option.some.inj (hspan.symm.trans h))
  have hrounds : AllStem cx (Stmt.taskDecl span name decorators body).declParts
      ((Emit.braced "for (;;) \x7b" span
        (inner ++ [⟨"vTaskDelay(pdMS_TO_TICKS(" ++ rate ++ "));", some span⟩])).map
          (·.indent)) := by
    simp only [Emit.braced, map_append, map_cons, map_nil]
    refine .append (.append (hline ?_ rfl) (.append hbody.indent.indent (hline ?_ rfl)))
      (hline ?_ rfl)
    all_goals simp [own, Emit.braced]
  refine .append (hline (by simp [own]) rfl) ?_
  refine .append .nil (.append ?_ (.append (hline (by simp [own]) rfl) .nil))
  rw [flatten_singleton]
  exact .braced (.decl (.taskDecl span name decorators body)) hmem hown
    (fun _ hl => mem_cons_of_mem _ (mem_append_left _ (braced_nil_subset _ _ _ hl))) hrounds

theorem function_stems {span : Span} {params : List Param} {returnType : String} {body : Block}
    {lines : List Line} (h : Sketch.function cx span name params returnType body = .ok lines) :
    AllStem cx (Stmt.functionDecl span name params returnType body).declParts lines := by
  obtain ⟨inner, hinner, rfl⟩ := bind_ok h
  have hmem : Part.decl (.functionDecl span name params returnType body)
      ∈ (Stmt.functionDecl span name params returnType body).declParts := mem_cons_self
  have hinner := (block_stems body hinner).mono fun _ =>
    mem_cons_of_mem (Part.decl (.functionDecl span name params returnType body))
  let own := Emit.braced (TypeName.toGenerated returnType ++ " " ++ name ++ "("
    ++ ", ".intercalate (params.map fun q => TypeName.toGenerated q.typeName ++ " " ++ q.name)
    ++ ") \x7b") span (if returnType == "void" then [⟨"return;", some span⟩] else [])
  have hown : (Part.decl (.functionDecl span name params returnType body)).ownLines cx
      = .ok own := by
    simp only [Part.ownLines, Stmt.emptied, Sketch.ofDecl, Sketch.function, block_emptied]
    have hlines : (Sketch.Sections.lines { functions := [own] }) = own := by
      simp [Sketch.Sections.lines]
    exact congrArg Except.ok hlines
  refine .braced (.decl (.functionDecl span name params returnType body)) hmem hown
    (braced_nil_subset _ _ _) ?_
  split
  · rename_i hvoid
    have hvoid : (returnType == "void") = true := (Bool.and_eq_true_iff.mp hvoid).2
    refine AllStem.own hmem hown ?_ (forall_mem_singleton.mpr fun _ h => Option.some.inj h)
    simp [own, hvoid, Emit.braced]
  · exact hinner.indent

theorem decl_stems {d : Stmt} {s : Sketch.Sections} (h : Sketch.ofDecl cx d = .ok s) :
    AllStem cx d.declParts (Sketch.structType d ++ (Sketch.taskPrototype d ++ s.lines)) := by
  -- a declaration without parts inside it is written like itself
  have halone (hparts : Part.decl d ∈ d.declParts) (hemptied : d.emptied = d)
      (hspan : ∀ l ∈ Sketch.structType d ++ (Sketch.taskPrototype d ++ s.lines),
        ∀ span, l.span = some span → d.span = span) :
      AllStem cx d.declParts (Sketch.structType d ++ (Sketch.taskPrototype d ++ s.lines)) := by
    have hown : (Part.decl d).ownLines cx
        = .ok (Sketch.structType d ++ (Sketch.taskPrototype d ++ s.lines)) := by
      rw [Part.ownLines, hemptied, h]
      rfl
    exact AllStem.own hparts hown (fun _ => id) hspan
  have hother {lines : List Line} (hlines : Emit.stmt cx d = .ok lines) :
      AllStem cx d.parts (Sketch.Sections.lines { setup := lines }) := by
    have hsetup : Sketch.Sections.lines { setup := lines } = lines := by
      simp [Sketch.Sections.lines]
    rw [hsetup]
    exact stmt_stems d hlines
  cases d with
  | structDecl span name fields =>
    cases h
    exact (fields_stem span name fields).append .nil
  | taskDecl => exact task_stems h
  | busDecl span busType =>
    refine halone mem_cons_self rfl ?_
    simp only [Sketch.ofDecl] at h
    split at h
    · obtain ⟨a, -, b, -, c, -, rfl⟩ := bind₃_ok h
      exact forall_mem_singleton.mpr fun _ h => Option.some.inj h
    · cases h
      exact forall_mem_nil _
  | functionDecl span name params returnType body =>
    obtain ⟨lines, hlines, rfl⟩ := bind_ok h
    have hfunctions : Sketch.Sections.lines { functions := [lines] } = lines := by
      simp [Sketch.Sections.lines]
    rw [hfunctions]
    exact function_stems hlines
  | loopDecl span body =>
    obtain ⟨lines, hlines, rfl⟩ := bind_ok h
    exact block_stems body hlines
  | varDecl =>
    refine halone mem_cons_self rfl ?_
    obtain ⟨t, -, rfl⟩ := bind_ok h
    exact forall_mem_singleton.mpr fun _ h => Option.some.inj h
  | _ =>
    obtain ⟨lines, hlines, rfl⟩ := bind_ok h
    exact hother hlines

end Stems

theorem Sketch.Sections.All.of_lines {P : Line → Prop} {s : Sections} (h : ∀ l ∈ s.lines, P l) :
    s.All P := by
  simp only [Sections.lines, forall_mem_append, mem_flatten] at h
  obtain ⟨hglobals, hfunctions, hsetup, hloop⟩ := h
  exact ⟨hglobals, fun f hf l hl => hfunctions l ⟨f, hf, hl⟩, hsetup, hloop⟩

theorem Sketch.ofDecl_ok : ∀ {ds : List Stmt} {s : Sections},
    ofDecls cx ds = .ok s → ∀ d ∈ ds, ∃ s, ofDecl cx d = .ok s
  | [], _, _ => forall_mem_nil _
  | d :: ds, _, h => by
    obtain ⟨first, hfirst, rest, hrest, -⟩ := bind₂_ok h
    exact forall_mem_cons.mpr ⟨⟨first, hfirst⟩, ofDecl_ok hrest⟩

theorem Sketch.lines_stem (h : p.sketch backend = .ok sk) :
    AllStem (context backend p (p.declarations.length + 1)) p.parts sk.lines := by
  have hplain (texts : List String) :
      AllStem (context backend p (p.declarations.length + 1)) p.parts (texts.map (⟨·, none⟩)) := by
    intro l hl
    obtain ⟨t, -, rfl⟩ := mem_map.mp hl
    exact .plain t
  have hsub {d : Stmt} (hd : d ∈ p.declarations) : d.declParts ⊆ p.parts :=
    fun _ hpart => mem_flatMap.mpr ⟨d, hd, hpart⟩
  refine forall_mem_lines h (fun _ hl => hl.indent) (hplain _) (hplain _) ?_ ?_
  · intro d hd
    have hsections := h
    rw [sketch_eq, bind_eq_ok] at hsections
    obtain ⟨sections, hsections, -⟩ := hsections
    obtain ⟨s, hs⟩ := ofDecl_ok hsections d hd
    have hstems := (decl_stems hs).mono (hsub hd)
    intro l hl
    rw [← append_assoc] at hstems
    exact hstems l (mem_append_left _ hl)
  · intro d hd s hs
    have hstems := (decl_stems hs).mono (hsub hd)
    exact .of_lines fun l hl => hstems l (mem_append_right _ (mem_append_right _ hl))

theorem Sketch.lines_ne_nil (h : p.sketch backend = .ok sk) : sk.lines ≠ [] := by
  rw [sketch_eq, bind_eq_ok] at h
  obtain ⟨sections, -, hsk⟩ := h
  obtain ⟨rest, hrest⟩ := exists_compose_opening p.preamble sections
  rw [← pure_eq_ok.mp hsk]
  show compose _ ≠ []
  rw [hrest _ (opening_ne_nil _ _)]
  exact append_ne_nil_of_left_ne_nil (opening_ne_nil _ _) _

-- ==== line map

/-- The place where a span starts. -/
def Span.origin (span : Span) : Origin :=
  ⟨span.file, span.startLine, span.startCol⟩

namespace Sketch

theorem mem_lineMapFrom : ∀ {first : Nat} {lines : List Line},
    (k, o) ∈ lineMapFrom first lines ↔ ∃ i l span, lines[i]? = some l ∧ l.span = some span
      ∧ k = first + i ∧ o = span.origin
  | _, [] => by simp [lineMapFrom]
  | first, ⟨text, none⟩ :: lines => by
    rw [lineMapFrom, mem_lineMapFrom]
    constructor
    · rintro ⟨i, l, span, hl, hspan, rfl, rfl⟩
      exact ⟨i + 1, l, span, hl, hspan, by omega, rfl⟩
    · rintro ⟨_ | i, l, span, hl, hspan, rfl, rfl⟩
      · cases hl
        cases hspan
      · exact ⟨i, l, span, hl, hspan, by omega, rfl⟩
  | first, ⟨text, some span⟩ :: lines => by
    rw [lineMapFrom, mem_cons, mem_lineMapFrom]
    constructor
    · rintro (hhead | ⟨i, l, span, hl, hspan, rfl, rfl⟩)
      · obtain ⟨rfl, rfl⟩ := Prod.mk.inj hhead
        exact ⟨0, _, span, rfl, rfl, rfl, rfl⟩
      · exact ⟨i + 1, l, span, hl, hspan, by omega, rfl⟩
    · rintro ⟨_ | i, l, span', hl, hspan, rfl, rfl⟩
      · cases hl
        cases hspan
        exact .inl rfl
      · exact .inr ⟨i, l, span', hl, hspan, by omega, rfl⟩

theorem lineMapFrom_pairwise : ∀ (first : Nat) (lines : List Line),
    ((lineMapFrom first lines).map (·.1)).Pairwise (· < ·)
  | _, [] => List.Pairwise.nil
  | first, ⟨_, none⟩ :: lines => lineMapFrom_pairwise (first + 1) lines
  | first, ⟨_, some span⟩ :: lines => by
    rw [lineMapFrom, map_cons, pairwise_cons]
    refine ⟨fun k hk => ?_, lineMapFrom_pairwise (first + 1) lines⟩
    obtain ⟨⟨k, o⟩, hentry, rfl⟩ := mem_map.mp hk
    obtain ⟨i, l, span, -, -, hk, -⟩ := mem_lineMapFrom.mp hentry
    show first < k
    omega

end Sketch

-- ==== physical lines

/-- The lines of a text. -/
def physicalLines (text : String) : List String :=
  (text.toList.splitOn '\n').map String.ofList

theorem intercalate_concat_nil (a : α) : ∀ {xss : List (List α)}, xss ≠ [] →
    [a].intercalate xss ++ [a] = [a].intercalate (xss ++ [[]])
  | [], h => absurd rfl h
  | [xs], _ => by simp [List.intercalate]
  | xs :: ys :: xss, _ => by
    have ih := intercalate_concat_nil a (cons_ne_nil ys xss)
    simp only [cons_append] at ih ⊢
    rw [intercalate_cons_cons, intercalate_cons_cons, ← ih]
    simp only [append_assoc]

theorem Sketch.physicalLines_code (hne : sk.lines ≠ []) (h : AllOneLine sk.lines) :
    physicalLines sk.code = sk.lines.map (·.text) ++ [""] := by
  have htexts : sk.code.toList
      = ['\n'].intercalate (sk.lines.map (·.text.toList) ++ [[]]) := by
    rw [← intercalate_concat_nil '\n' (by simpa using hne), Sketch.code, String.toList_append,
      String.toList_intercalate, map_map]
    rfl
  have hlines : ∀ cs ∈ sk.lines.map (·.text.toList) ++ [[]], '\n' ∉ cs := by
    refine forall_mem_append.mpr ⟨fun cs hcs => ?_, forall_mem_singleton.mpr nofun⟩
    obtain ⟨l, hl, rfl⟩ := mem_map.mp hcs
    exact h l hl
  rw [physicalLines, htexts, splitOn_intercalate _ hlines (by simp), map_append, map_map]
  simp [Function.comp_def]

-- ==== whole programs

/-- The text of a string literal. -/
def Node.text? : Node → Option String
  | .expr _ (.literal _ (.text s) _) => some s
  | _ => none

/-- The line map of a sketch is aligned with the text of its code. -/
structure Sketch.Aligned (backend : Backend) (p : Program) (sk : Sketch) : Prop where
  /-- The text has the lines that were put together, and an empty one. -/
  lines : physicalLines sk.code = sk.lines.map (·.text) ++ [""]
  /-- A number has one entry. -/
  increasing : (sk.lineMap.map (·.1)).Pairwise (· < ·)
  /-- An entry numbers a line of the text, which a part of the program
  writes that starts at the place of the entry. -/
  written : ∀ k o, (k, o) ∈ sk.lineMap → 1 ≤ k ∧ k ≤ sk.lines.length
    ∧ ∃ part ∈ p.parts, part.span.origin = o ∧ ∃ text,
      (physicalLines sk.code)[k - 1]? = some text
        ∧ part.Writes (context backend p (p.declarations.length + 1)) text
  /-- A line with a span has its entry. -/
  mapped : ∀ i l span, sk.lines[i]? = some l → l.span = some span →
    (i + 1, span.origin) ∈ sk.lineMap

/-- A program that is read without errors, and in which no string has a
line feed, has an aligned line map for every target that it has code
for. -/
theorem Program.lineMap_aligned {file source : String} {src : Source}
    (h : Program.ofSource file source = .ok src) (hscan : src.scanErrors = [])
    (hparse : src.parseErrors = [])
    (htexts : ∀ node ∈ src.program.nodes, ∀ s ∈ node.text?, '\n' ∉ s.toList)
    {backend : Backend} {sk : Sketch} (hsk : src.program.sketch backend = .ok sk) :
    sk.Aligned backend src.program := by
  have hp : src.program.Proper True := Program.proper_of_clean h hscan hparse
  have honeLine : ∀ node ∈ src.program.nodes, node.OneLine := by
    intro node hnode
    refine (hp.nodes node hnode).oneLine ?_
    rintro view span s typeName rfl
    exact htexts _ hnode s rfl
  have hlines : physicalLines sk.code = sk.lines.map (·.text) ++ [""] :=
    Sketch.physicalLines_code (Sketch.lines_ne_nil hsk) (Sketch.sketch_oneLine honeLine hsk)
  refine ⟨hlines, Sketch.lineMapFrom_pairwise 1 sk.lines, ?_, ?_⟩
  · intro k o hentry
    obtain ⟨i, l, span, hl, hspan, rfl, rfl⟩ := Sketch.mem_lineMapFrom.mp hentry
    obtain ⟨hi, rfl⟩ := List.getElem?_eq_some_iff.mp hl
    obtain ⟨part, hpart, hpspan, hwrites⟩ :=
      Sketch.lines_stem hsk _ (List.getElem_mem hi) span hspan
    refine ⟨by omega, by omega, part, hpart, by rw [hpspan], _, ?_, hwrites⟩
    rw [hlines, Nat.add_sub_cancel_left, List.getElem?_append_left (by simpa using hi),
      List.getElem?_map, hl, Option.map_some]
  · intro i l span hl hspan
    exact Sketch.mem_lineMapFrom.mpr ⟨i, l, span, hl, hspan, Nat.add_comm i 1, rfl⟩

/-- A source that is read without errors and without a line feed in a
string, and the number of lines of its code that have a place in it. -/
def mapsLines (backend : Backend) (source : String) (number : Nat) : Bool :=
  match Program.ofSource "sketch" source with
  | .error _ => false
  | .ok src =>
    src.scanErrors.isEmpty && src.parseErrors.isEmpty
      && src.program.nodes.all (fun node => node.text?.all (!·.toList.contains '\n'))
      && match src.program.sketch backend with
        | .error _ => false
        | .ok sk => sk.lineMap.length == number

/-- A struct, a string, a task, and a match behind an `else`. -/
def branchingSource : String :=
  "struct P \x7b x: int; \x7d let s = \"a\"; @rate(5ms) task t() \x7b \x7d "
    ++ "fn f(n: int) -> void \x7b if (n > 0) \x7b f(n - 1); \x7d "
    ++ "else \x7b match (n) \x7b 0 => \x7b return; \x7d _ => \x7b \x7d \x7d \x7d \x7d "
    ++ "loop \x7b delay(5ms); \x7d"

/-- Twenty-eight lines of the code of such a source come from it, and its
line map is aligned. -/
theorem Program.lineMap_aligned_branches :
    ∃ src sk, Program.ofSource "sketch" branchingSource = .ok src
      ∧ src.program.sketch .esp32 = .ok sk ∧ sk.lineMap.length = 28
      ∧ sk.Aligned .esp32 src.program := by
  have hmaps : mapsLines .esp32 branchingSource 28 = true := by
    decide +kernel
  unfold mapsLines at hmaps
  split at hmaps
  · cases hmaps
  · rename_i src hsrc
    simp only [Bool.and_eq_true, List.isEmpty_iff, List.all_eq_true] at hmaps
    obtain ⟨⟨⟨hscan, hparse⟩, htexts⟩, hmaps⟩ := hmaps
    split at hmaps
    · cases hmaps
    · rename_i sk hsk
      refine ⟨src, sk, hsrc, hsk, beq_iff_eq.mp hmaps,
        Program.lineMap_aligned hsrc hscan hparse (fun node hnode s hs => ?_) hsk⟩
      have hall := htexts node hnode
      rw [hs, Option.all_some] at hall
      simpa using hall

end SketchCompiler
