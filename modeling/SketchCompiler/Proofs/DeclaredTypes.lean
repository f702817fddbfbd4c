/-
The type of a variable: for the analysis, and in generated code.

The analysis records a variable with the type of its annotation in the
type's own spelling, or, where there is none, with the type of its value.
Generated code takes the annotation as it is written, and the type of
integers where there is none.  The two agree if and only if the
annotation settles the type (`Program.declared_types`).  So a variable can
be a float for the analysis and an integer in the code, which nothing
reports (`Program.float_truncated`).

What a declaration records is said of every state in which the analysis
may visit it (`varDecl_recorded`), since the symbol of a local variable is
gone when its scope is closed.
-/
import SketchCompiler.Proofs.CompactText
import SketchCompiler.Proofs.Image
import SketchCompiler.Proofs.Lowering
import SketchCompiler.Proofs.Visited

namespace SketchCompiler

open List Check Text

-- ==== names

theorem IsName.trim_eq (h : IsName name) : trim name = name := by
  have hchars : ∀ c ∈ name.toList, isBlank c = false := fun c hc =>
    isBlank_of_isWordChar (all_eq_true.mp h.isWord.2 c hc)
  have hkept : ∀ cs : List Char, (∀ c ∈ cs, isBlank c = false) → cs.dropWhile isBlank = cs := by
    intro cs hcs
    cases cs with
    | nil => rfl
    | cons c cs => exact dropWhile_cons_of_neg (Bool.eq_false_iff.mp (hcs c mem_cons_self))
  unfold trim trimRight trimRightWhile trimLeft
  rw [hkept _ hchars, hkept, reverse_reverse, String.ofList_toList]
  exact fun c hc => hchars c (mem_reverse.mp hc)

theorem IsName.ne_empty (h : IsName name) : name ≠ "" := by
  rintro rfl
  exact absurd h.isWord.1 (by decide)

-- ==== types

theorem generated_primitive : ∀ entry ∈ TypeName.primitives,
    if entry.1 = "unknown" then entry.2 = "unknown" ∧ TypeName.generated.lookup entry.1 = none
    else entry.2 ≠ "unknown" ∧ (TypeName.generated.lookup entry.1).isSome = true
      ∧ TypeName.generated.lookup (lower entry.2) = TypeName.generated.lookup entry.1 := by
  decide +kernel

theorem generated_other (h : TypeName.primitives.lookup key = none) :
    TypeName.generated.lookup key = none := by
  have hkeys : ∀ entry ∈ TypeName.generated, entry.1 ∈ TypeName.primitives.map Prod.fst := by
    decide +kernel
  rw [lookup_eq_none_iff] at h ⊢
  intro entry hentry
  obtain ⟨primitive, hprimitive, heq⟩ := mem_map.mp (hkeys entry hentry)
  rw [← heq]
  exact h primitive hprimitive

theorem toGenerated_normalize (ht : trim t = t) :
    TypeName.toGenerated t = TypeName.toGenerated (TypeName.normalize t)
      ↔ (TypeName.normalize t = "unknown" → t = "unknown") := by
  unfold TypeName.normalize
  dsimp only
  rw [ht]
  cases hlookup : TypeName.primitives.lookup (lower t) with
  | none =>
    rw [Option.getD_none]
    exact ⟨fun _ h => h, fun _ => rfl⟩
  | some own =>
    rw [Option.getD_some]
    have hentry := generated_primitive _ (mem_of_lookup hlookup)
    dsimp only at hentry
    unfold TypeName.toGenerated
    split at hentry
    · obtain ⟨rfl, hnone⟩ := hentry
      have hown : TypeName.generated.lookup (lower "unknown") = none := by
        decide +kernel
      rw [hnone, hown]
      exact ⟨fun h _ => h, fun h => h rfl⟩
    · obtain ⟨hne, hsome, hsame⟩ := hentry
      obtain ⟨type, htype⟩ := Option.isSome_iff_exists.mp hsome
      rw [hsame, htype]
      exact ⟨fun _ h => absurd h hne, fun _ => rfl⟩

theorem toGenerated_eq_int32_t (t : String) :
    TypeName.toGenerated (TypeName.normalize t) = TypeName.toGenerated "int"
      ↔ TypeName.normalize t = "int" ∨ TypeName.normalize t = "int32_t" := by
  have hint : TypeName.toGenerated "int" = "int32_t" := by
    decide +kernel
  rw [hint]
  unfold TypeName.normalize
  dsimp only
  cases hlookup : TypeName.primitives.lookup (lower (trim t)) with
  | none =>
    rw [Option.getD_none]
    unfold TypeName.toGenerated
    rw [generated_other hlookup, Option.getD_none]
    refine ⟨.inr, fun h => h.resolve_left fun heq => ?_⟩
    rw [heq] at hlookup
    exact absurd hlookup (by decide +kernel)
  | some own =>
    rw [Option.getD_some]
    have hall : ∀ entry ∈ TypeName.primitives,
        TypeName.toGenerated entry.2 = "int32_t" ↔ entry.2 = "int" ∨ entry.2 = "int32_t" := by
      decide +kernel
    exact hall (lower (trim t), own) (mem_of_lookup hlookup)

-- ==== recorded types

/-- The type that the analysis infers for the value of a variable. -/
def initializerType (span : Span) (initializer : Option Expr) (a : Analysis) : String :=
  match initializer with
  | none => "unknown"
  | some value => ((inferType value).run ((enterFile span.file).run a).2).1

theorem filter_written {typeName : Option String} (h : ∀ t ∈ typeName, t ≠ "") :
    typeName.filter (· != "") = typeName := by
  cases typeName with
  | none => rfl
  | some t => exact Option.filter_some_pos (bne_iff_ne.mpr (h t rfl))

section Recorded

variable {span : Span} {name : String} {typeName : Option String}
  {initializer : Option Expr} {isMutable isConst isVolatile : Bool} {a : Analysis}

/-- The check, from this state and without a finding, leaves a state with
the property. -/
def Leaves {α : Type} (P : Analysis → Prop) (c : Check α) (a : Analysis) : Prop :=
  (c.run a).2.Quiet → P (c.run a).2

theorem Leaves.last (h : Leaves P (f (c.run a).1) (c.run a).2) : Leaves P (c >>= f) a := h

/-- A symbol that is defined without a finding is what its name stands
for. -/
theorem Leaves.defined (s : Symbol) (hfinding : finding.severity = .error) (span : Span)
    (a : Analysis) : Leaves (fun b => b.scopes.resolve s.name = some s)
      (define s >>= fun free => reportIf (!free) span finding) a := by
  intro hquiet
  have hrun : (define s >>= fun free => reportIf (!free) span finding).run a
      = (reportIf (!((define s).run a).1) span finding).run ((define s).run a).2 := rfl
  rw [hrun] at hquiet ⊢
  cases hscopes : a.scopes.define s with
  | none =>
    rw [run_define_none hscopes] at hquiet
    exact absurd hquiet (not_quiet_report hfinding)
  | some scopes =>
    rw [run_define_some hscopes]
    exact (ScopeChain.resolve_define hscopes s.name).trans (if_pos rfl)

theorem varDecl_recorded (hwritten : ∀ t ∈ typeName, t ≠ "") :
    Leaves (fun b => ∃ s, b.scopes.resolve name = some s ∧ s.kind = "var"
        ∧ s.typeName = TypeName.normalize (typeName.getD (initializerType span initializer a)))
      (visit (.varDecl span name typeName initializer isMutable isConst isVolatile)) a := by
  have hfilter := filter_written hwritten
  have hinferred : ((inferInitializer initializer).run ((enterFile span.file).run a).2).1
      = initializerType span initializer a := by
    cases initializer <;> rfl
  -- the definition comes last
  have hdefine (inferred : String) (b : Analysis) :
      Leaves (fun b => ∃ s, b.scopes.resolve name = some s ∧ s.kind = "var"
          ∧ s.typeName = TypeName.normalize (typeName.getD inferred))
        (define (variableSymbol name typeName isConst isVolatile (initialInt initializer) inferred)
          >>= fun free => reportIf (!free) span (.variableRedefined name)) b := fun hquiet =>
    ⟨_, Leaves.defined (variableSymbol name typeName isConst isVolatile (initialInt initializer)
      inferred) rfl span b hquiet, rfl, by unfold variableSymbol; rw [hfilter]⟩
  rw [visit_varDecl, ← hinferred]
  exact .last (.last (.last (hdefine _ _)))

end Recorded

-- ==== written types

/-- The type of a variable in generated code: that of its annotation, or
that of integers. -/
def writtenType (typeName : Option String) : String :=
  TypeName.toGenerated (typeName.getD "int")

/-- The text declares the variable with the type. -/
def DeclaresAs (type name : String) (isConst isVolatile : Bool) (text : String) : Prop :=
  ∃ rest, text = (if isConst then "const " else "") ++ (if isVolatile then "volatile " else "")
    ++ type ++ " " ++ name ++ rest

/-- The texts that a declaration becomes in a block, in the header of a
loop and at the top level are all of the kind. -/
structure WrittenAs (decl : Stmt) (kind : String → Prop) : Prop where
  inBlock : ∀ cx lines, Emit.stmt cx decl = .ok lines →
    ∃ text span, lines = [⟨text, span⟩] ∧ kind text
  inHeader : ∀ cx span condition update body lines,
    Emit.stmt cx (.forLoop span (some decl) condition update body) = .ok lines →
      ∃ text rest tail, lines = ⟨"for (" ++ text ++ rest, some span⟩ :: tail ∧ kind text
  atTop : ∀ cx sections, Sketch.ofDecl cx decl = .ok sections →
    ∃ text span, sections.globals = [⟨text, span⟩] ∧ kind text

/-- A name does not end in a semicolon. -/
theorem IsName.closed (h : IsName name) : Closed name := by
  have hne : name.toList ≠ [] := fun hnil => h.ne_empty (String.toList_eq_nil_iff.mp hnil)
  unfold Closed
  rw [getLast?_eq_some_getLast hne]
  have hword := all_eq_true.mp h.isWord.2 _ (getLast_mem hne)
  refine bne_iff_ne.mpr fun hsemicolon => ?_
  rw [hsemicolon] at hword
  exact absurd hword (by decide)

theorem Closed.trimRightWhile_append (h : Closed front) (rest : List Char) :
    Text.trimRightWhile (· == ';') (front.toList ++ rest)
      = front.toList ++ Text.trimRightWhile (· == ';') rest := by
  have hfront := h.trimRightWhile
  unfold Text.trimRightWhile at hfront ⊢
  rw [reverse_append, dropWhile_append]
  split
  · rename_i hempty
    rw [hfront, isEmpty_iff.mp hempty, reverse_nil, append_nil]
  · rw [reverse_append, reverse_reverse]

section Written

variable {span : Span} {name : String} {typeName : Option String} {initializer : Option Expr}
  {isMutable isConst isVolatile : Bool}

theorem varDecl_declaresAs (hwritten : ∀ t ∈ typeName, t ≠ "") (isGlobal : Bool) (init : String) :
    DeclaresAs (writtenType typeName) name isConst isVolatile
      (Emit.varDecl isGlobal name typeName isConst isVolatile init) := by
  refine ⟨(if isGlobal && isConst then " PROGMEM" else "") ++ init ++ ";", ?_⟩
  unfold Emit.varDecl writtenType
  rw [filter_written hwritten]
  simp only [String.append_assoc]

theorem DeclaresAs.trimRightWhile (hname : IsName name)
    (h : DeclaresAs type name isConst isVolatile text) :
    DeclaresAs type name isConst isVolatile
      (String.ofList (Text.trimRightWhile (· == ';') text.toList)) := by
  obtain ⟨rest, rfl⟩ := h
  refine ⟨String.ofList (Text.trimRightWhile (· == ';') rest.toList), ?_⟩
  rw [String.toList_append, (hname.closed.append_left _).trimRightWhile_append,
    String.ofList_append, String.ofList_toList]

theorem varDecl_written (hname : IsName name) (hwritten : ∀ t ∈ typeName, t ≠ "") :
    WrittenAs (.varDecl span name typeName initializer isMutable isConst isVolatile)
      (DeclaresAs (writtenType typeName) name isConst isVolatile) where
  inBlock cx lines h := by
    obtain ⟨init, -, rfl⟩ := bind_ok h
    exact ⟨_, _, rfl, varDecl_declaresAs hwritten false init⟩
  inHeader cx loopSpan condition update body lines h := by
    rw [Emit.stmt_forLoop] at h
    simp only [Emit.clause, bind_eq_ok, pure_eq_ok] at h
    obtain ⟨clause, ⟨init, -, rfl⟩, c, -, u, -, inside, -, rfl⟩ := h
    refine ⟨_, "; " ++ c ++ "; " ++ u ++ ") \x7b",
      inside.map (·.indent) ++ [⟨"\x7d", some loopSpan⟩], ?_,
      (varDecl_declaresAs hwritten false init).trimRightWhile hname⟩
    simp only [Emit.braced, String.append_assoc]
    rfl
  atTop cx sections h := by
    obtain ⟨init, -, rfl⟩ := bind_ok h
    exact ⟨_, _, rfl, varDecl_declaresAs hwritten true init⟩

end Written

-- ==== global symbols

theorem SymbolTable.get?_mono {t t' : SymbolTable} (h : t <+: t') {name : String} {s : Symbol}
    (hs : t.get? name = some s) : t'.get? name = some s := by
  obtain ⟨more, rfl⟩ := h
  unfold SymbolTable.get? at hs ⊢
  rw [find?_append, hs]
  rfl

theorem exists_visit_of_mem (hinner : a.scopes.inner = []) (hd : d ∈ ds)
    (hquiet : ((visitAll ds).run a).2.Quiet) :
    ∃ b : Analysis, b.returnType = a.returnType ∧ ((visit d).run b).2.Quiet
      ∧ ∀ name s, ((visit d).run b).2.scopes.resolve name = some s →
        ((visitAll ds).run a).2.scopes.globals.get? name = some s := by
  induction ds generalizing a with
  | nil => cases hd
  | cons first ds ih =>
    have hfirst : Steps (anywhere false) _ (visit first) := first.steps .anywhere
    have hrest : Steps (anywhere false) _ (visitAll ds) := stmtsSteps ds .anywhere
    have hrun : (visitAll (first :: ds)).run a
        = (visitAll ds).run ((visit first).run a).2 := rfl
    rw [hrun] at hquiet ⊢
    have hinner' : ((visit first).run a).2.scopes.inner = [] := by
      have houter := hfirst.outer a
      unfold ScopeChain.SameOuter at houter
      rw [hinner] at houter
      exact houter.1
    rcases mem_cons.mp hd with rfl | hd
    · refine ⟨a, rfl, (hrest.later _).quiet hquiet, fun name s hs => ?_⟩
      have houter := hrest.outer ((visit d).run a).2
      unfold ScopeChain.SameOuter at houter
      rw [hinner'] at houter
      unfold ScopeChain.resolve at hs
      rw [hinner'] at hs
      exact SymbolTable.get?_mono houter.2 hs
    · obtain ⟨_, hmove⟩ := hfirst.moves a
      obtain ⟨b, hreturn, hvisit⟩ := ih hinner' hd hquiet
      exact ⟨b, hreturn.trans hmove.returnType, hvisit⟩

-- ==== whole programs

/-- The annotation settles the type in generated code.  It is not another
spelling of the unknown type; where there is none, the type is that of
integers, or a struct has the name that integers have in the code. -/
def SettlesType (typeName : Option String) (recorded : String) : Prop :=
  match typeName with
  | some t => TypeName.normalize t = "unknown" → t = "unknown"
  | none => recorded = "int" ∨ recorded = "int32_t"

theorem writtenType_eq_iff (h : ∀ t ∈ typeName, IsName t) (inferred : String) :
    writtenType typeName = TypeName.toGenerated (TypeName.normalize (typeName.getD inferred))
      ↔ SettlesType typeName (TypeName.normalize (typeName.getD inferred)) := by
  cases typeName with
  | none => exact eq_comm.trans (toGenerated_eq_int32_t inferred)
  | some t => exact toGenerated_normalize (h t rfl).trim_eq

/-- In a program that is read and analysed without errors, every variable
is written with the type of its annotation, or that of integers.  The
analysis visits its declaration without an error, and at the top level it
keeps what it records there.  Whenever it does so visit it, the type it
records is the one in the code if and only if the annotation settles
that. -/
theorem Program.declared_types {file source : String} {src : Source}
    (h : Program.ofSource file source = .ok src) (hscan : src.scanErrors = [])
    (hparse : src.parseErrors = []) {board : String}
    (hquiet : ∀ i ∈ (src.program.analyze board).issues, i.severity ≠ .error)
    {view : View} {span : Span} {name : String} {typeName : Option String}
    {initializer : Option Expr} {isMutable isConst isVolatile : Bool} {decl : Stmt}
    (hdecl : decl = .varDecl span name typeName initializer isMutable isConst isVolatile)
    (hnode : .stmt view decl ∈ src.program.nodes) :
    WrittenAs decl (DeclaresAs (writtenType typeName) name isConst isVolatile)
      ∧ (Node.stmt view decl).Visited (.ofName board)
      ∧ (decl ∈ src.program.declarations → ∃ a : Analysis, a.returnType = "void"
        ∧ ((visit decl).run a).2.Quiet
        ∧ (src.program.analyze board).scopes.globals.get? name
          = ((visit decl).run a).2.scopes.resolve name)
      ∧ ∀ a, ((visit decl).run a).2.Quiet →
        ∃ s, ((visit decl).run a).2.scopes.resolve name = some s ∧ s.kind = "var"
          ∧ s.typeName = TypeName.normalize (typeName.getD (initializerType span initializer a))
          ∧ (writtenType typeName = TypeName.toGenerated s.typeName
            ↔ SettlesType typeName s.typeName) := by
  subst hdecl
  have hp : src.program.Proper True := Program.proper_of_clean h hscan hparse
  obtain ⟨hname, htype, -⟩ := hp.nodes _ hnode
  have hwritten : ∀ t ∈ typeName, t ≠ "" := fun t ht => (htype t ht).ne_empty
  refine ⟨varDecl_written hname hwritten, Program.visited hp hquiet _ hnode, fun hd => ?_, ?_⟩
  · obtain ⟨a, -, ⟨hinner, hvoid⟩, hrun⟩ := src.program.exists_visitAll board
    have hvisits : ((visitAll src.program.declarations).run a).2.Quiet := by
      rw [hrun]
      exact hquiet
    obtain ⟨b, hreturn, hvisit, hkept⟩ := exists_visit_of_mem hinner hd hvisits
    obtain ⟨s, hs, -⟩ := varDecl_recorded hwritten hvisit
    refine ⟨b, hreturn.trans hvoid, hvisit, ?_⟩
    rw [hs, ← hrun]
    exact hkept name s hs
  · intro a hvisit
    obtain ⟨s, hs, hkind, hstype⟩ := varDecl_recorded hwritten hvisit
    refine ⟨s, hs, hkind, hstype, ?_⟩
    rw [hstype]
    exact writtenType_eq_iff htype _

/-- A variable with an annotation in capitals, inside a loop. -/
def annotatesLocal : String :=
  "fn f() -> void \x7b for (let i: int = 0; i < 3; i++) \x7b let b: BOOL = true; \x7d \x7d"

/-- A source declares a variable with this annotation. -/
def annotates (source name annotation : String) : Bool :=
  match Program.ofSource "sketch" source with
  | .ok src => src.program.nodes.any fun
    | .stmt _ (.varDecl _ declared typeName ..) => declared == name && typeName == some annotation
    | _ => false
  | .error _ => false

/-- Its type is the same for the analysis and in the code. -/
theorem Program.declared_types_local :
    ∃ src, Program.ofSource "sketch" annotatesLocal = .ok src
      ∧ (∀ i ∈ (src.program.analyze "esp32").issues, i.severity ≠ .error)
      ∧ ∃ view span initializer isMutable isConst isVolatile decl,
        decl = .varDecl span "b" (some "BOOL") initializer isMutable isConst isVolatile
          ∧ .stmt view decl ∈ src.program.nodes
          ∧ WrittenAs decl (DeclaresAs "bool" "b" isConst isVolatile)
          ∧ ∀ a, ((visit decl).run a).2.Quiet →
            ∃ s, ((visit decl).run a).2.scopes.resolve "b" = some s
              ∧ TypeName.toGenerated s.typeName = "bool" := by
  have hclean : acceptsCleanly "esp32" annotatesLocal = true := by
    decide +kernel
  have hannotates : annotates annotatesLocal "b" "BOOL" = true := by
    decide +kernel
  have hwritten : writtenType (some "BOOL") = "bool" := by
    decide +kernel
  obtain ⟨src, hsrc, hscan, hparse, hquiet⟩ := exists_of_acceptsCleanly hclean
  unfold annotates at hannotates
  rw [hsrc] at hannotates
  obtain ⟨node, hnode, hdecl⟩ := List.any_eq_true.mp hannotates
  split at hdecl
  · rename_i view span declared typeName initializer isMutable isConst isVolatile
    rw [Bool.and_eq_true, beq_iff_eq, beq_iff_eq] at hdecl
    obtain ⟨rfl, rfl⟩ := hdecl
    obtain ⟨hemitted, -, -, hrecorded⟩ := Program.declared_types hsrc hscan hparse hquiet rfl hnode
    rw [hwritten] at hemitted
    refine ⟨src, hsrc, hquiet, view, span, initializer, isMutable, isConst, isVolatile, _, rfl,
      hnode, hemitted, fun a hvisit => ?_⟩
    obtain ⟨s, hs, -, -, hagree⟩ := hrecorded a hvisit
    have hsettles : SettlesType (some "BOOL") s.typeName := fun hunknown =>
      absurd hunknown (by decide +kernel)
    exact ⟨s, hs, (hagree.mpr hsettles).symm.trans hwritten⟩
  · cases hdecl

/-- A source is read and analysed without a finding, its variable is of
one type for the analysis, and its code has the line. -/
def recordsAndWrites (source name type line : String) : Bool :=
  match Program.ofSource "sketch" source with
  | .ok src => src.scanErrors.isEmpty && src.parseErrors.isEmpty
    && (src.program.analyze "esp32").issues.isEmpty
    && ((src.program.analyze "esp32").scopes.globals.get? name).any (·.typeName == type)
    && match src.program.sketch .esp32 with
      | .ok sk => sk.lines.any (·.text == line)
      | .error _ => false
  | .error _ => false

/-- A variable without an annotation is a float for the analysis, and an
integer in the code.  One of an unknown type has the type as it is
spelled. -/
theorem Program.float_truncated :
    TypeName.toGenerated "float" = "float"
      ∧ recordsAndWrites "let x = 1.5;" "x" "float" "int32_t x = 1.5;" = true
      ∧ TypeName.toGenerated "unknown" = "unknown"
      ∧ recordsAndWrites "let x: Unknown;" "x" "unknown" "Unknown x;" = true := by
  refine ⟨?_, ?_, ?_, ?_⟩
  · decide +kernel
  · decide +kernel
  · decide +kernel
  · decide +kernel

end SketchCompiler
