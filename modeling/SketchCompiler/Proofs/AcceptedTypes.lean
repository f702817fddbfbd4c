/-
What acceptance says about types.  The analysis looks at a type where a
variable or a cast names it, so these are known in every program that it
accepts (`Program.types_known`); the types of parameters, results and
fields are taken as they are written (`types_unchecked`).

A match has a wildcard arm, and patterns of the type of its value, and its
switch has one label an arm (`Program.match_labels`).  Nothing else that a
switch requires is looked at (`match_unchecked`).
-/
import SketchCompiler.Proofs.DeclaredTypes
import SketchCompiler.Proofs.InferredTypes
import SketchCompiler.Proofs.WrittenTexts

namespace SketchCompiler

open List Check

variable {a : Analysis}
  {span : Span} {name written valueType : String} {arms : List MatchArm} {cx : EmitContext}

-- ==== types that are written

theorem varDecl_of_quiet {value : Option Expr} {isMutable isConst isVolatile : Bool}
    (hwritten : written ≠ "")
    (h : ((visit (.varDecl span name (some written) value isMutable isConst isVolatile)).run
      a).2.Quiet) :
    TypeName.isPrimitive (TypeName.normalize written) = true
      ∨ (a.structs.lookup (TypeName.normalize written)).isSome = true := by
  have hvalue : Steps (anywhere false) false (inferInitializer value) := by
    cases value with
    | none => exact .pure _
    | some value => exact value.steps .anywhere
  have hfilter : (some written).filter (· != "") = some written :=
    Option.filter_some_pos (bne_iff_ne.mpr hwritten)
  rw [visit_varDecl] at h
  obtain ⟨-, file, issues, h⟩ := exists_quiet_after (.enterFile trivial) h
  obtain ⟨inferred, file', issues', h⟩ := exists_quiet_after hvalue h
  -- the definition comes behind the check of the type
  have htype := quiet_of_bind (fun _ => .defined _ trivial rfl) h
  rw [checkVariable, run_layout?, hfilter] at htype
  have hknown := eq_false_of_quiet rfl
    (quiet_of_bind (fun _ => .optional fun _ _ => .reportIf _ trivial rfl) htype)
  rw [Bool.not_eq_false', Bool.or_eq_true] at hknown
  exact hknown

theorem cast_of_quiet {operand : Expr}
    (h : ((inferType (.cast span operand written)).run a).2.Quiet) :
    TypeName.normalize written ∈ ["int", "float", "bool", "string"] := by
  rw [inferType] at h
  obtain ⟨file, issues, hcast⟩ := exists_quiet_rest h
  exact (castResult_of_quiet hcast).1

theorem exists_struct {p : Program} (h : (p.layouts.lookup name).isSome = true) :
    ∃ d ∈ p.declarations, d.declaresStruct name = true := by
  obtain ⟨layout, hlayout⟩ := Option.isSome_iff_exists.mp h
  obtain ⟨d, hd, hentry⟩ := mem_filterMap.mp (mem_of_lookup hlayout)
  refine ⟨d, hd, ?_⟩
  cases d with
  | structDecl span name fields =>
    cases hentry
    exact beq_self_eq_true _
  | _ => cases hentry

/-- **Types of variables and casts are known.**  In a program that is read
and analysed without errors, the type that a variable is declared with is,
at any depth, a primitive one, the unknown one among them, or a struct of
the program, and a cast is to one of the four types that can be cast to. -/
theorem Program.types_known {file source : String} {src : Source}
    (h : Program.ofSource file source = .ok src) (hscan : src.scanErrors = [])
    (hparse : src.parseErrors = []) {board : String}
    (hquiet : ∀ i ∈ (src.program.analyze board).issues, i.severity ≠ .error) :
    (∀ view span name written value isMutable isConst isVolatile,
      Node.stmt view (.varDecl span name (some written) value isMutable isConst isVolatile)
          ∈ src.program.nodes →
        TypeName.normalize written
            ∈ ["int", "float", "bool", "string", "void", "Pin", "Duration", "unknown"]
          ∨ ∃ d ∈ src.program.declarations, d.declaresStruct (TypeName.normalize written) = true)
    ∧ ∀ view span operand written,
      Node.expr view (.cast span operand written) ∈ src.program.nodes →
      TypeName.normalize written ∈ ["int", "float", "bool", "string"] := by
  have hp : src.program.Proper True := Program.proper_of_clean h hscan hparse
  obtain ⟨-, start, -, hchecked⟩ := Program.checked hp hquiet
  refine ⟨fun view span name written value isMutable isConst isVolatile hn => ?_,
    fun view span operand written hn => ?_⟩
  · obtain ⟨a, ⟨-, hstructs⟩, -, hvisit⟩ := hchecked _ hn
    have hwritten : written ≠ "" := IsName.ne_empty ((hp.nodes _ hn).2.1 written rfl)
    rcases varDecl_of_quiet hwritten hvisit with hprimitive | hstruct
    · refine .inl ?_
      obtain ⟨entry, hentry, heq⟩ := List.any_eq_true.mp hprimitive
      have hnames : ∀ entry ∈ TypeName.primitives, entry.2
          ∈ ["int", "float", "bool", "string", "void", "Pin", "Duration", "unknown"] := by decide
      exact eq_of_beq heq ▸ hnames entry hentry
    · rw [hstructs] at hstruct
      exact .inr (exists_struct hstruct)
  · obtain ⟨a, -, -, hcast⟩ := hchecked _ hn
    exact cast_of_quiet hcast

theorem exists_node (source : String) (kind : Node → Bool)
    (hclean : acceptsCleanly "esp32" source = true)
    (hkind : (Program.ofSource "sketch" source).toOption.any (·.program.nodes.any kind) = true) :
    ∃ src n, Program.ofSource "sketch" source = .ok src ∧ src.scanErrors = []
      ∧ src.parseErrors = []
      ∧ (∀ i ∈ (src.program.analyze "esp32").issues, i.severity ≠ .error)
      ∧ n ∈ src.program.nodes ∧ kind n = true := by
  obtain ⟨src, hsrc, hscan, hparse, hquiet⟩ := exists_of_acceptsCleanly hclean
  rw [hsrc] at hkind
  obtain ⟨n, hn, hkind⟩ := any_eq_true.mp hkind
  exact ⟨src, n, hsrc, hscan, hparse, hquiet, hn, hkind⟩

/-- The node declares a variable of this type. -/
def Node.declaresAs (written : String) : Node → Bool
  | .stmt _ (.varDecl _ _ (some typeName) _ _ _ _) => typeName == written
  | _ => false

/-- A variable in a loop, of a type that is declared behind it. -/
def structInLoop : String :=
  "fn f(a: float) -> void \x7b while (true) \x7b let p: P = P(x: a as int); \x7d \x7d "
    ++ "struct P \x7b x: int; \x7d"

/-- The struct is one of the program. -/
theorem Program.types_known_struct :
    ∃ src, Program.ofSource "sketch" structInLoop = .ok src
      ∧ (∃ n ∈ src.program.nodes, n.declaresAs "P" = true)
      ∧ (TypeName.normalize "P"
            ∈ ["int", "float", "bool", "string", "void", "Pin", "Duration", "unknown"]
          ∨ ∃ d ∈ src.program.declarations, d.declaresStruct (TypeName.normalize "P") = true) := by
  obtain ⟨src, n, hsrc, hscan, hparse, hquiet, hn, hkind⟩ :=
    exists_node structInLoop (Node.declaresAs "P") (by decide +kernel) (by decide +kernel)
  refine ⟨src, hsrc, ⟨n, hn, hkind⟩, ?_⟩
  unfold Node.declaresAs at hkind
  split at hkind
  · obtain rfl := eq_of_beq hkind
    exact (Program.types_known hsrc hscan hparse hquiet).1 _ _ _ _ _ _ _ _ hn
  · cases hkind

/-- Nothing is found wrong with the types of fields, parameters and
results, nor with the unknown type. -/
theorem types_unchecked :
    ["struct S \x7b x: Foo; \x7d", "fn f(a: Foo) -> void \x7b \x7d", "fn f() -> Foo \x7b \x7d",
      "let b: unknown;"].all (findsOnly · []) = true := by
  decide +kernel

-- ==== matches

/-- The pattern of an arm, which only the wildcard lacks. -/
def MatchArm.pattern : MatchArm → Option Expr
  | .mk _ pattern _ _ => pattern

/-- The first line of an arm, by its pattern. -/
def MatchArm.label (cx : EmitContext) (arm : MatchArm) : Except EmitFault String :=
  Emit.armHead cx arm.pattern arm.pattern.isNone

/-- The line is a label of a switch. -/
def isLabel (text : String) : Bool :=
  ["default: \x7b", "case "].any (·.toList.isPrefixOf text.toList)

theorem visitArms_yields (hp : armsProper True arms) :
    Yields a (visitArms valueType arms) (arms.any (·.pattern.isNone)) := by
  induction arms with
  | nil => exact .pure false
  | cons arm arms ih =>
    obtain ⟨span, pattern, isWildcard, body⟩ := arm
    obtain ⟨⟨-, rfl, -⟩, harms⟩ := hp
    have hrest : Yields a (do
        visitBlock body
        let others ← visitArms valueType arms
        return pattern.isNone || others) (pattern.isNone || arms.any (·.pattern.isNone)) :=
      .after (body.steps .anywhere) fun _ => .bind (armsSteps arms .anywhere) (ih harms) (.pure _)
    cases pattern with
    | none =>
      rw [visitArms]
      exact hrest
    | some e =>
      rw [visitArms]
      exact .after (e.steps .anywhere) fun _ => .after (.reportIf _ trivial rfl) fun _ => hrest

theorem arms_of_quiet (hp : armsProper True arms)
    (h : ((visitArms valueType arms).run a).2.Quiet) :
    ∀ arm ∈ arms, ∀ e ∈ arm.pattern, e.typeIn a.scopes.resolve a.structs = valueType := by
  induction arms generalizing a with
  | nil => exact forall_mem_nil _
  | cons arm arms ih =>
    obtain ⟨span, pattern, isWildcard, body⟩ := arm
    obtain ⟨⟨-, rfl, -⟩, harms⟩ := hp
    have hrest : ∀ file issues, ((do
        visitBlock body
        let others ← visitArms valueType arms
        return pattern.isNone || others : Check Bool).run { a with file, issues }).2.Quiet →
        ∀ arm ∈ arms, ∀ e ∈ arm.pattern, e.typeIn a.scopes.resolve a.structs = valueType := by
      intro file issues h
      obtain ⟨-, file', issues', hvisit⟩ := exists_quiet_after (body.steps .anywhere) h
      have hothers := ih harms (quiet_of_bind (fun _ => .pure _) hvisit)
      exact hothers
    rw [forall_mem_cons]
    cases pattern with
    | none =>
      rw [visitArms] at h
      exact ⟨fun e he => absurd he (Option.not_mem_none e), hrest a.file a.issues h⟩
    | some e =>
      rw [visitArms] at h
      obtain ⟨file, issues, hpattern⟩ := exists_quiet_rest h
      have htype := eq_false_of_quiet rfl (quiet_of_bind (fun _ => .bind (body.steps .anywhere)
        fun _ => .bind (armsSteps arms .anywhere) fun _ => .pure _) hpattern)
      obtain ⟨_, file', issues', hbody⟩ := exists_quiet_after (.reportIf _ trivial rfl) hpattern
      refine ⟨fun e' he' => ?_, hrest file' issues' hbody⟩
      rw [← Option.some.inj he']
      exact bne_eq_false_iff_eq.mp htype

theorem isLabel_indent (line : Line) : isLabel line.indent.text = false := by
  unfold isLabel Line.indent
  rw [String.toList_append]
  rfl

theorem armHead_pattern {pattern : Option Expr} {head : String}
    (h : Emit.armHead cx pattern pattern.isNone = .ok head) :
    isLabel head = true ∧ (head == "default: \x7b") = pattern.isNone := by
  cases pattern with
  | none =>
    cases h
    exact ⟨by decide, rfl⟩
  | some e =>
    simp only [Emit.armHead, Option.isNone_some, Bool.false_eq_true, if_false, bind_eq_ok,
      pure_eq_ok] at h
    obtain ⟨text, -, rfl⟩ := h
    have htext : ("case " ++ text ++ ": \x7b").toList
        = 'c' :: ("ase ".toList ++ (text.toList ++ ": \x7b".toList)) := by
      rw [String.toList_append, String.toList_append]
      rfl
    refine ⟨?_, beq_false_of_ne fun hdefault => ?_⟩
    · unfold isLabel
      rw [htext]
      rfl
    · have hhead := (congrArg String.toList hdefault).symm.trans htext
      exact absurd (List.cons.inj hhead).1 (by decide)

theorem arms_labels : ∀ {arms : List MatchArm} {lines : List Line},
    armsProper True arms → Emit.arms cx arms = .ok lines →
    arms.mapM (MatchArm.label cx) = .ok ((lines.map (·.text)).filter isLabel)
      ∧ ((lines.map (·.text)).filter isLabel).count "default: \x7b"
        = arms.countP (·.pattern.isNone)
  | [], lines, _, h => by
    cases h
    exact ⟨rfl, rfl⟩
  | .mk span pattern isWildcard body :: arms, lines, hp, h => by
    obtain ⟨⟨-, rfl, -⟩, harms⟩ := hp
    rw [Emit.arms_cons] at h
    obtain ⟨head, hhead, inner, -, others, hothers, rfl⟩ := bind₃_ok h
    obtain ⟨hlabels, hcount⟩ := arms_labels harms hothers
    obtain ⟨hlabel, hdefault⟩ := armHead_pattern hhead
    have hinner : ∀ body : List Line,
        ((body.map Line.indent).map (·.text)).filter isLabel = [] := by
      intro body
      rw [filter_eq_nil_iff, map_map, forall_mem_map]
      exact fun line _ => Bool.eq_false_iff.mp (isLabel_indent line)
    have hend : isLabel "\x7d" = false := by decide
    have hlines : ((Emit.braced head span (inner ++ [⟨"break;", some span⟩]) ++ others).map
        (·.text)).filter isLabel = head :: (others.map (·.text)).filter isLabel := by
      rw [Emit.braced, cons_append, cons_append, map_cons,
        filter_cons_of_pos hlabel, append_assoc, map_append, filter_append,
        hinner, nil_append, singleton_append, map_cons,
        filter_cons_of_neg (Bool.eq_false_iff.mp hend)]
    rw [hlines, mapM_cons, MatchArm.label, MatchArm.pattern, hhead, hlabels,
      count_cons, hcount, hdefault, countP_cons]
    exact ⟨rfl, rfl⟩

/-- **Labels of matches.**  In a program that is read and analysed without
errors, every match, at any depth, has patterns of the type of its value,
in a state of the analysis in which it is checked without an error, and at
least one wildcard arm.  Its switch is over the value, and has the
labels of the arms, in order: a `case` with the text of each pattern, and
as many defaults as there are wildcards. -/
theorem Program.match_labels {file source : String} {src : Source}
    (h : Program.ofSource file source = .ok src) (hscan : src.scanErrors = [])
    (hparse : src.parseErrors = []) {board : String}
    (hquiet : ∀ i ∈ (src.program.analyze board).issues, i.severity ≠ .error) {view : View}
    {span : Span} {value : Expr} {arms : List MatchArm}
    (hn : .stmt view (.matchValue span value arms) ∈ src.program.nodes) :
    (∃ start a : Analysis,
      ((visitAll src.program.declarations).run start).2 = src.program.analyze board
        ∧ (a.board = .ofName board ∧ a.structs = src.program.layouts)
        ∧ a.Knows start.scopes.resolve view
        ∧ ((visit (.matchValue span value arms)).run a).2.Quiet
        ∧ ∀ arm ∈ arms, ∀ e ∈ arm.pattern,
          e.typeIn a.scopes.resolve a.structs = value.typeIn a.scopes.resolve a.structs)
    ∧ (∃ arm ∈ arms, arm.pattern.isNone = true)
    ∧ ∀ cx lines, Emit.stmt cx (.matchValue span value arms) = .ok lines →
      ∃ text, Emit.expr cx value = .ok text
        ∧ lines.head? = some ⟨"switch (" ++ text ++ ") \x7b", some span⟩
        ∧ arms.mapM (MatchArm.label cx) = .ok ((lines.map (·.text)).filter isLabel)
        ∧ ((lines.map (·.text)).filter isLabel).count "default: \x7b"
          = arms.countP (·.pattern.isNone) := by
  have hp : src.program.Proper True := Program.proper_of_clean h hscan hparse
  have harms : armsProper True arms := (hp.nodes _ hn).2
  obtain ⟨-, start, hrun, hchecked⟩ := Program.checked hp hquiet
  obtain ⟨a, hsame, hknows, hvisit⟩ := hchecked _ hn
  have hchecked := hvisit
  rw [visit] at hvisit
  obtain ⟨_, file, issues, hvisit⟩ := exists_quiet_after (.enterFile trivial) hvisit
  obtain ⟨file', issues', hvisit⟩ := exists_quiet_rest hvisit
  obtain ⟨file'', issues'', hwildcard⟩ :=
    (visitArms_yields harms).exists_quiet (armsSteps arms .anywhere) hvisit
  refine ⟨⟨start, a, hrun, hsame, hknows, hchecked, ?_⟩, ?_, fun cx lines hlines => ?_⟩
  · have hpatterns :=
      arms_of_quiet harms (quiet_of_bind (fun _ => .reportIf _ trivial rfl) hvisit)
    exact hpatterns
  · have hany := eq_false_of_quiet rfl hwildcard
    rw [Bool.not_eq_false', List.any_eq_true] at hany
    exact hany
  · rw [Emit.stmt] at hlines
    obtain ⟨text, htext, body, hbody, rfl⟩ := bind₂_ok hlines
    have hhead : isLabel ("switch (" ++ text ++ ") \x7b") = false := by
      unfold isLabel
      rw [String.toList_append, String.toList_append]
      rfl
    have hend : isLabel "\x7d" = false := by decide
    refine ⟨text, htext, rfl, ?_⟩
    rw [List.cons_append, List.map_cons, List.filter_cons_of_neg (Bool.eq_false_iff.mp hhead),
      List.map_append, List.filter_append, List.map_singleton,
      List.filter_cons_of_neg (Bool.eq_false_iff.mp hend), List.filter_nil, List.append_nil]
    exact arms_labels harms hbody

/-- The node is a match with as many arms. -/
def Node.matchesWith (count : Nat) : Node → Bool
  | .stmt _ (.matchValue _ _ arms) => arms.length == count
  | _ => false

/-- A match inside a loop. -/
def matchInLoop : String :=
  "fn f(x: int) -> void \x7b while (true) \x7b match (x) \x7b 1 => \x7b \x7d "
    ++ "2 => \x7b \x7d _ => \x7b \x7d \x7d \x7d \x7d"

/-- One of its arms is the wildcard. -/
theorem Program.match_labels_loop :
    ∃ src view span value arms, Program.ofSource "sketch" matchInLoop = .ok src
      ∧ .stmt view (.matchValue span value arms) ∈ src.program.nodes ∧ arms.length = 3
      ∧ ∃ arm ∈ arms, arm.pattern.isNone = true := by
  obtain ⟨src, n, hsrc, hscan, hparse, hquiet, hn, hkind⟩ :=
    exists_node matchInLoop (Node.matchesWith 3) (by decide +kernel) (by decide +kernel)
  unfold Node.matchesWith at hkind
  split at hkind
  · exact ⟨src, _, _, _, _, hsrc, hn, eq_of_beq hkind,
      (Program.match_labels hsrc hscan hparse hquiet hn).2.1⟩
  · cases hkind

/-- Nothing is found wrong with a pattern that comes twice, with two
wildcards, or with a text as the value. -/
theorem match_unchecked :
    ["(1) \x7b 1 => \x7b \x7d 1 => \x7b \x7d _ => \x7b \x7d \x7d",
      "(1) \x7b _ => \x7b \x7d _ => \x7b \x7d \x7d",
      "(\"a\") \x7b \"a\" => \x7b \x7d _ => \x7b \x7d \x7d"].all
        (fun arms => findsOnly ("fn f() -> void \x7b match " ++ arms ++ " \x7d") []) = true := by
  decide +kernel

end SketchCompiler
