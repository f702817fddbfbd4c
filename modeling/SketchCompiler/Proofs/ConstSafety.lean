/-
Constants stay as they are: if the analysis of a program finds no error,
no assignment, increment or decrement at any depth changes a variable
that is const, or a field of one, as far as the analysis can tell
(`Program.mutations_safe`).

The analysis tells by its own scopes.  They differ from those of the
language at a variable of a loop header, which it still sees behind the
loop, and at the variables of a value block, which it does not see in the
value.  Both ways a constant can be changed without a finding
(`Program.const_slips`).
-/
import SketchCompiler.Proofs.Image
import SketchCompiler.Proofs.Visited

namespace SketchCompiler

open Check

variable {view : View} {name : String} {a : Analysis} {node : Node}

-- ==== mutations

/-- The variable that a name, or a member at any depth, belongs to. -/
def Expr.root? : Expr → Option String
  | .ident _ name => some name
  | .member _ object _ => object.root?
  | _ => none

/-- The variable that a node changes. -/
def Node.mutated? : Node → Option String
  | .expr _ (.assign _ target _ _) => target.root?
  | .expr _ (.postfixed _ operand _) => operand.root?
  | _ => none

/-- The innermost declaration of the name is seen by the language and by
the analysis. -/
def View.Shared (view : View) (name : String) : Prop :=
  ∀ b ∈ view.find? (·.name == name), b.lexical = true ∧ b.analysed = true

theorem View.Shared.lexical?_eq (h : view.Shared name) :
    view.lexical? name = view.analysed? name := by
  unfold View.Shared at h
  unfold View.lexical? View.analysed?
  induction view with
  | nil => rfl
  | cons b view ih =>
    rw [List.find?_cons] at h
    rw [List.find?_cons, List.find?_cons]
    cases hname : b.name == name with
    | true =>
      rw [hname] at h
      obtain ⟨hlexical, hanalysed⟩ := h b rfl
      rw [hlexical, hanalysed]
      rfl
    | false =>
      rw [hname] at h
      rw [Bool.and_false, Bool.and_false]
      exact ih h

-- ==== single checks

theorem mutableTarget_quiet (hroot : e.root? = some name)
    (hquiet : ((mutableTarget e).run a).2.Quiet) :
    (a.scopes.resolve name).any (·.isConst) = false := by
  fun_induction mutableTarget e with
  | case1 _ _ | case2 _ _ _ _ =>
    cases hroot
    exact eq_false_of_quiet rfl hquiet
  | case3 span object field _ ih => exact ih hroot hquiet
  | case4 e hident _ hmember =>
    cases e with
    | ident span n => exact absurd rfl (hident span n)
    | member span object field => exact absurd rfl (hmember span object field)
    | _ => cases hroot

theorem postfixType_quiet (hroot : e.root? = some name)
    (hquiet : ((postfixType span e).run a).2.Quiet) :
    (a.scopes.resolve name).any (·.isConst) = false := by
  cases e with
  | ident identSpan n =>
    cases hroot
    unfold postfixType at hquiet
    dsimp only at hquiet
    rw [run_resolve] at hquiet
    cases hresolve : a.scopes.resolve name with
    | none => rfl
    | some s =>
      rw [hresolve] at hquiet
      have hrest : Steps (anywhere false) false (do
          reportIf (!(["int", "float"].contains s.typeName)) span .postfixNotNumeric
          return s.typeName) := .bind (.reportIf _ trivial rfl) fun _ => .pure _
      exact eq_false_of_quiet rfl ((hrest.later _).quiet hquiet)
  | _ =>
    have hreport : ((report span .postfixTarget).run a).2.Quiet := hquiet
    exact absurd hreport (not_quiet_report rfl)

theorem Analysis.Knows.analysed?_plain {around : Names} (h : a.Knows around view)
    (hresolve : (a.scopes.resolve name).any (·.isConst) = false) :
    (view.analysed? name).any (·.isConst) = false := by
  have hname := h name
  cases hview : view.analysed? name with
  | none => rfl
  | some b =>
    rw [hview] at hname
    obtain ⟨s, hs, hkept⟩ := Option.map_eq_some_iff.mp hname
    rw [hs] at hresolve
    exact (congrArg Prod.fst hkept).symm.trans hresolve

/-- The check of the node, from this state, ends without an error. -/
def Node.QuietIn (a : Analysis) : Node → Prop
  | .expr _ e => ((inferType e).run a).2.Quiet
  | .stmt _ s => ((visit s).run a).2.Quiet

theorem Node.QuietIn.mutable (h : node.QuietIn a)
    (hname : node.mutated? = some name) : (a.scopes.resolve name).any (·.isConst) = false := by
  unfold Node.mutated? at hname
  split at hname
  · rename_i view span target op value
    have hrest : Steps (anywhere false) true (do
        let targetType ← inferType target
        let valueType ← inferType value
        assignmentTypes span op targetType valueType
        return targetType) :=
      .bind (target.steps .anywhere) fun _ => .bind (value.steps .anywhere) fun _ =>
        .bind (.assignmentTypes trivial _ _ _) fun _ => .pure _
    exact mutableTarget_quiet hname ((hrest.later _).quiet h)
  · exact postfixType_quiet hname h
  · cases hname

theorem Node.Visited.mutable {b : Board} (h : node.Visited b) (hname : node.mutated? = some name) :
    (node.view.analysed? name).any (·.isConst) = false := by
  obtain ⟨around, h⟩ := h
  cases node with
  | expr view e =>
    obtain ⟨a, -, hknows, hquiet⟩ := h
    have hquiet : Node.QuietIn a (.expr view e) := hquiet
    exact hknows.analysed?_plain (hquiet.mutable hname)
  | stmt view s => cases hname

-- ==== whole programs

/-- In a program that is read and analysed without errors, a variable that
is changed anywhere is not const in the scopes of the analysis; nor is it
by the rules of the language, if both see its innermost declaration. -/
theorem Program.mutations_safe {file source : String} {src : Source}
    (h : Program.ofSource file source = .ok src) (hscan : src.scanErrors = [])
    (hparse : src.parseErrors = []) {board : String}
    (hquiet : ∀ i ∈ (src.program.analyze board).issues, i.severity ≠ .error) :
    ∀ node ∈ src.program.nodes, ∀ name ∈ node.mutated?,
      (node.view.analysed? name).any (·.isConst) = false
        ∧ (node.view.Shared name → (node.view.lexical? name).any (·.isConst) = false) := by
  have hp : src.program.Proper True := Program.proper_of_clean h hscan hparse
  intro node hnode name hname
  have hmutable := (Program.visited hp hquiet node hnode).mutable hname
  refine ⟨hmutable, fun hshared => ?_⟩
  rw [hshared.lexical?_eq]
  exact hmutable

/-- A local variable that starts from a constant. -/
def changesLocal : String :=
  "const let y = 1; fn f() -> void \x7b let x = y; x = 2; x++; \x7d"

/-- Such a variable can be changed. -/
theorem Program.mutations_safe_local :
    ∃ src, Program.ofSource "sketch" changesLocal = .ok src
      ∧ (∀ i ∈ (src.program.analyze "esp32").issues, i.severity ≠ .error)
      ∧ ∀ node ∈ src.program.nodes, ∀ name ∈ node.mutated?,
        (node.view.analysed? name).any (·.isConst) = false
          ∧ (node.view.Shared name → (node.view.lexical? name).any (·.isConst) = false) := by
  have hclean : acceptsCleanly "esp32" changesLocal = true := by
    decide +kernel
  obtain ⟨src, hsrc, hscan, hparse, hquiet⟩ := exists_of_acceptsCleanly hclean
  exact ⟨src, hsrc, hquiet, Program.mutations_safe hsrc hscan hparse hquiet⟩

/-- A source changes a constant, by the rules of the language, and is
still read and analysed without errors. -/
def changesConst (source : String) : Bool :=
  match Program.ofSource "sketch" source with
  | .ok src => src.scanErrors.isEmpty && src.parseErrors.isEmpty
    && (src.program.analyze "esp32").issues.isEmpty
    && src.program.nodes.any fun node =>
      node.mutated?.any fun name => (node.view.lexical? name).any (·.isConst)
  | .error _ => false

/-- A constant is changed behind a loop whose header has a variable of the
same name, and so is one of a value block in its value. -/
theorem Program.const_slips :
    changesConst ("const let x = 1; "
        ++ "fn f() -> void \x7b for (let x = 0; x < 3; x++) \x7b \x7d x = 5; \x7d") = true
      ∧ changesConst ("let x = 1; fn f() -> int "
        ++ "\x7b return if (true) \x7b const let x = 2; x = 3 \x7d else \x7b 4 \x7d; \x7d")
        = true := by
  constructor
  · decide +kernel
  · decide +kernel

end SketchCompiler
