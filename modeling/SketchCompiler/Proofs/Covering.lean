/-
What a check looks at, as far as its findings tell.

# Runs without errors

Findings are only ever added, so a run that ends without an error had
none at any step (`Analysis.Later.quiet`).  `Covers` packs what a check
needs to pass this on to the checks it is made of: from a state that
knows what is in view it leads to one that does, and if it ends without
an error, the nodes in its charge were visited.

# Places that are not looked at

A few expressions are not inferred: the callee of a call, the operand of
an increment, the core of a task, the pins of a bus.  Each time the check
reports an error unless the expression is a literal or a name that is
declared, and these are as good as visited (`Covers.resolved`,
`Covers.constant`).
-/
import SketchCompiler.Proofs.CheckSteps

namespace SketchCompiler

open Check

open List hiding head tail span

variable {a : Analysis} {finding : Finding}

-- ==== runs without errors

/-- No error has been found. -/
def Analysis.Quiet (a : Analysis) : Prop :=
  ∀ i ∈ a.issues, i.severity ≠ .error

/-- A later state of an analysis has further findings, for the same
board. -/
structure Analysis.Later (a a' : Analysis) : Prop where
  issues : a.issues <+: a'.issues
  board : a'.board = a.board

theorem Analysis.Later.refl (a : Analysis) : a.Later a := ⟨prefix_refl _, rfl⟩

theorem Analysis.Later.trans (hab : a.Later b) (hbc : b.Later c) : a.Later c :=
  ⟨hab.issues.trans hbc.issues, hbc.board.trans hab.board⟩

theorem Analysis.Later.quiet (h : a.Later a') (hquiet : a'.Quiet) : a.Quiet :=
  fun i hi => hquiet i (h.issues.subset hi)

theorem not_quiet_report (h : finding.severity = .error) :
    ¬ ((report span finding).run a).2.Quiet := by
  intro hquiet
  exact hquiet ⟨finding, a.file, span.startLine, span.startCol⟩
    (mem_append_right _ (mem_singleton_self _)) h

theorem eq_false_of_quiet (h : finding.severity = .error)
    (hquiet : ((reportIf condition span finding).run a).2.Quiet) : condition = false := by
  cases condition with
  | false => rfl
  | true => exact absurd hquiet (not_quiet_report h)

theorem later_reportIf (condition : Bool) (span : Span) (finding : Finding) (a : Analysis) :
    a.Later ((reportIf condition span finding).run a).2 := by
  cases condition with
  | false => exact .refl a
  | true => exact ⟨prefix_append _ _, rfl⟩

theorem Steps.later (h : Steps r defines c) (a : Analysis) : a.Later (c.run a).2 := by
  obtain ⟨more, hmove⟩ := h.moves a
  exact ⟨hmove.issues ▸ prefix_append _ _, hmove.board⟩

-- ==== covering

/-- What the analysis keeps of a declaration. -/
def Binding.kept (b : Binding) : Bool × Option Int :=
  (b.isConst, b.initial)

/-- For the analysis both views have the same names, the same are const
and they start with the same integers. -/
def View.Tells (view view' : View) : Prop :=
  ∀ name, (view.analysed? name).map Binding.kept = (view'.analysed? name).map Binding.kept

theorem View.Tells.refl (view : View) : view.Tells view := fun _ => rfl

theorem tells_tailView (view : View) (block : Block) : (block.tailView view).Tells view := by
  intro name
  have hnone : (((bindingsOf block.statements).filter (·.lexical)).map
      Binding.onlyLexical).find? (fun b => b.analysed && b.name == name) = none := by
    simp [Binding.onlyLexical]
  rw [Block.tailView, View.analysed?, View.analysed?, find?_append, hnone, Option.none_or]

theorem tells_onlyAnalysed (bs view : View) :
    View.Tells (bs.map Binding.onlyAnalysed ++ view) (bs ++ view) := by
  intro name
  have hsame : (fun b : Binding => b.analysed && b.name == name) ∘ Binding.onlyAnalysed
      = fun b => b.analysed && b.name == name := rfl
  rw [View.analysed?, View.analysed?, find?_append, find?_append, find?_map, hsame]
  cases bs.find? fun b => b.analysed && b.name == name with
  | none => rfl
  | some b => rfl

/-- What names stand for. -/
abbrev Names := String → Option Symbol

/-- What a name stands for is as its declaration in view says, or what it
stands for around. -/
def Told (found : Option Symbol) : Option Binding → Option Symbol → Prop
  | some b, _ => found.map (fun s => (s.isConst, s.constInt)) = some b.kept
  | none, known => found = known

/-- The analysis knows what is in view, and the names around it. -/
def Analysis.Knows (a : Analysis) (around : Names) (view : View) : Prop :=
  ∀ name, Told (a.scopes.resolve name) (view.analysed? name) (around name)

theorem Analysis.knows_names (a : Analysis) : a.Knows a.scopes.resolve [] := fun _ => rfl

theorem Analysis.Knows.congr {around : Names} {view view' : View} (h : a.Knows around view)
    (htells : view.Tells view') : a.Knows around view' := by
  intro name
  have hname := h name
  have hsame := htells name
  cases hview : view.analysed? name with
  | none =>
    rw [hview] at hname hsame
    rw [Option.map_eq_none_iff.mp hsame.symm]
    exact hname
  | some b =>
    rw [hview] at hname hsame
    obtain ⟨b', hb', hkept⟩ := Option.map_eq_some_iff.mp hsame.symm
    rw [hb']
    exact hname.trans (congrArg some hkept.symm)

/-- A check of the node ends without an error, in an analysis for the
board that knows what is in view and around. -/
def Node.VisitedIn (around : Names) (b : Board) : Node → Prop
  | .expr view e => ∃ a, a.board = b ∧ a.Knows around view ∧ ((inferType e).run a).2.Quiet
  | .stmt view s => ∃ a, a.board = b ∧ a.Knows around view ∧ ((visit s).run a).2.Quiet

/-- Such a check is made in an analysis that knows these structs. -/
def Node.CheckedIn (around : Names) (b : Board) (structs : List (String × StructLayout)) :
    Node → Prop
  | .expr view e => ∃ a, (a.board = b ∧ a.structs = structs) ∧ a.Knows around view
    ∧ ((inferType e).run a).2.Quiet
  | .stmt view s => ∃ a, (a.board = b ∧ a.structs = structs) ∧ a.Knows around view
    ∧ ((visit s).run a).2.Quiet

theorem Node.CheckedIn.visitedIn {around : Names} {b : Board}
    {structs : List (String × StructLayout)} {n : Node} (h : n.CheckedIn around b structs) :
    n.VisitedIn around b := by
  cases n with
  | expr _ _ | stmt _ _ =>
    obtain ⟨a, hknown, h⟩ := h
    exact ⟨a, hknown.1, h⟩

/-- From a state that knows what is in view, and without an error, the
check visits the nodes, and then knows what is in view behind it. -/
structure Covers {α : Type} (around : Names) (view view' : View) (ns : List Node) (c : Check α) :
    Prop where
  steps : Steps (anywhere false) true c
  visited : ∀ a : Analysis, a.Knows around view → (c.run a).2.Quiet →
    (∀ n ∈ ns, n.CheckedIn around a.board a.structs) ∧ (c.run a).2.Knows around view'

variable {around : Names}

namespace Covers

variable {α β : Type} {view view₁ view₂ view₃ : View} {ns ms : List Node} {c : Check α}

theorem of_steps (h : Steps (anywhere false) false c) : Covers around view view [] c where
  steps := h.mayDefine
  visited a hknows _ := by
    obtain ⟨more, hmove⟩ := h.moves a
    refine ⟨forall_mem_nil _, ?_⟩
    have hscopes : (c.run a).2.scopes = a.scopes := hmove.scopes
    unfold Analysis.Knows
    rw [hscopes]
    exact hknows

theorem pure (x : α) : Covers around view view [] (pure x : Check α) := of_steps (.pure x)

theorem bind (hc : Covers around view₁ view₂ ns c) (hf : ∀ x, Covers around view₂ view₃ ms (f x)) :
    Covers around view₁ view₃ (ns ++ ms) (c >>= f) where
  steps := .bind hc.steps fun x => (hf x).steps
  visited a hknows hquiet := by
    obtain ⟨more, hmove⟩ := hc.steps.moves a
    have hmid : (c.run a).2.Quiet := ((hf _).steps.later _).quiet hquiet
    obtain ⟨hns, hknows₂⟩ := hc.visited a hknows hmid
    obtain ⟨hms, hknows₃⟩ := (hf _).visited _ hknows₂ hquiet
    rw [hmove.board, hmove.structs] at hms
    exact ⟨forall_mem_append.mpr ⟨hns, hms⟩, hknows₃⟩

theorem andThen (hc : Covers around view₁ view₂ ns c)
    (hf : ∀ x, Covers around view₂ view₃ [] (f x)) : Covers around view₁ view₃ ns (c >>= f) := by
  rw [← append_nil ns]
  exact hc.bind hf

theorem after (hc : Covers around view₁ view₂ [] c)
    (hf : ∀ x, Covers around view₂ view₃ ns (f x)) :
    Covers around view₁ view₃ ns (c >>= f) :=
  hc.bind hf

/-- Steps that look at no node come first. -/
theorem behind (hc : Steps (anywhere false) false c)
    (hf : ∀ x, Covers around view₁ view₂ ns (f x)) : Covers around view₁ view₂ ns (c >>= f) :=
  after (of_steps hc) hf

theorem congr (h : Covers around view₁ view₂ ns c) (h₁ : view₁'.Tells view₁)
    (h₂ : view₂'.Tells view₂) : Covers around view₁' view₂' ns c where
  steps := h.steps
  visited a hknows hquiet := by
    obtain ⟨hns, hknows₂⟩ := h.visited a (hknows.congr h₁) hquiet
    exact ⟨hns, hknows₂.congr fun name => (h₂ name).symm⟩

/-- An expression is visited by its own check. -/
theorem expr (h : Covers around view view ns (inferType e)) :
    Covers around view view (.expr view e :: ns) (inferType e) where
  steps := h.steps
  visited a hknows hquiet := by
    obtain ⟨hns, hknows'⟩ := h.visited a hknows hquiet
    exact ⟨forall_mem_cons.mpr ⟨⟨a, ⟨rfl, rfl⟩, hknows, hquiet⟩, hns⟩, hknows'⟩

/-- A scope of its own leaves what was in view. -/
theorem scope {c : Check Unit} (hc : Covers around view view₁ ns c) :
    Covers around view view ns (openScope >>= fun _ => c >>= fun _ => closeScope) where
  steps := .scope hc.steps
  visited a hknows hquiet := by
    have hpop := (hc.steps.outer { a with scopes := a.scopes.push }).pop_eq
    have hscopes : ((openScope >>= fun _ => c >>= fun _ => closeScope).run a).2.scopes
        = (c.run { a with scopes := a.scopes.push }).2.scopes.pop := rfl
    refine ⟨(hc.visited { a with scopes := a.scopes.push } hknows hquiet).1, ?_⟩
    unfold Analysis.Knows
    rw [hscopes, hpop]
    exact hknows

theorem returning (type : String) {c : Check Unit} (hc : Covers around view view₁ ns c) :
    Covers around view view₁ ns (returning type c) where
  steps := .returning type hc.steps
  visited a hknows hquiet := hc.visited { a with returnType := type } hknows hquiet

end Covers

-- ==== single checks

theorem run_resolve (name : String) (f : Option Symbol → Check α) (a : Analysis) :
    (resolve name >>= f).run a = (f (a.scopes.resolve name)).run a :=
  rfl

theorem visited_ident (hknows : a.Knows around view) (hquiet : a.Quiet)
    (h : a.scopes.resolve name = some s) :
    (Node.expr view (.ident span name)).CheckedIn around a.board a.structs := by
  refine ⟨a, ⟨rfl, rfl⟩, hknows, ?_⟩
  rw [inferType, run_resolve, h]
  exact hquiet

theorem visited_of_constInt (hknows : a.Knows around view) (hquiet : a.Quiet)
    (h : ((constInt? e).run a).1 = some n) :
    ∀ n ∈ e.nodes view, n.CheckedIn around a.board a.structs := by
  cases e with
  | literal span value typeName =>
    rw [Expr.nodes, forall_mem_singleton]
    exact ⟨a, ⟨rfl, rfl⟩, hknows, by rw [inferType]; exact hquiet⟩
  | ident span name =>
    rw [Expr.nodes, forall_mem_singleton]
    have hbind : (a.scopes.resolve name).bind (·.constInt) = some n := h
    obtain ⟨s, hs, -⟩ := Option.bind_eq_some_iff.mp hbind
    exact visited_ident hknows hquiet hs
  | _ => cases h

namespace Covers

variable {α : Type} {view view' : View} {ns : List Node}

/-- A statement is visited by its own check, which first enters its file. -/
theorem stmt {c : Check Unit} (hvisit : visit s = enterFile file >>= fun _ => c)
    (h : Covers around view view' ns c) : Covers around view view' (.stmt view s :: ns) (visit s) := by
  have hvisited : Covers around view view' ns (visit s) := by
    rw [hvisit]
    exact .behind (.enterFile trivial) fun _ => h
  refine ⟨hvisited.steps, fun a hknows hquiet => ?_⟩
  obtain ⟨hns, hknows'⟩ := hvisited.visited a hknows hquiet
  exact ⟨forall_mem_cons.mpr ⟨⟨a, ⟨rfl, rfl⟩, hknows, hquiet⟩, hns⟩, hknows'⟩

/-- A check that reports an error does not end without one. -/
theorem reported (h : finding.severity = .error) (hkind : finding.isDeclaring = false)
    (span : Span) :
    Covers around view view' ns (report span finding) where
  steps := .report trivial hkind
  visited _ _ hquiet := absurd hquiet (not_quiet_report h)

theorem failed (h : finding.severity = .error) (hkind : finding.isDeclaring = false) (span : Span)
    (hc : Steps (anywhere false) true c) :
    Covers around view view' ns (report span finding >>= fun _ => c) where
  steps := .bind (.report trivial hkind) fun _ => hc
  visited _ _ hquiet := absurd ((hc.later _).quiet hquiet) (not_quiet_report h)

/-- A definition that is reported unless its name was free. -/
theorem defined (s : Symbol) (h : finding.severity = .error) (hkind : finding.isDeclaring = false)
    (span : Span) :
    Covers around view ({ name := s.name, isConst := s.isConst, initial := s.constInt } :: view) []
      (define s >>= fun free => reportIf (!free) span finding) where
  steps := .defined s trivial hkind
  visited a hknows hquiet := by
    have hrun : (define s >>= fun free => reportIf (!free) span finding).run a
        = (reportIf (!((define s).run a).1) span finding).run ((define s).run a).2 := rfl
    rw [hrun] at hquiet ⊢
    cases hscopes : a.scopes.define s with
    | none =>
      rw [run_define_none hscopes] at hquiet
      exact absurd hquiet (not_quiet_report h)
    | some scopes =>
      rw [run_define_some hscopes]
      refine ⟨forall_mem_nil _, fun name => ?_⟩
      rw [View.analysed?, find?_cons]
      change Told (scopes.resolve name) _ _
      rw [ScopeChain.resolve_define hscopes]
      by_cases hname : s.name = name
      · simp [hname, Told, Binding.kept]
      · have hne : (s.name == name) = false := beq_false_of_ne hname
        rw [if_neg hname]
        simp only [hne, Bool.and_false]
        exact hknows name

/-- A check that looks a name up, and reports an error if it is not
declared, as good as visits the name. -/
theorem resolved (span : Span) (hnone : ∀ ns, Covers around view view ns (f none))
    (h : Covers around view view ns (resolve name >>= f)) :
    Covers around view view (.expr view (.ident span name) :: ns) (resolve name >>= f) where
  steps := h.steps
  visited a hknows hquiet := by
    obtain ⟨hns, hknows'⟩ := h.visited a hknows hquiet
    refine ⟨forall_mem_cons.mpr ⟨?_, hns⟩, hknows'⟩
    cases hresolve : a.scopes.resolve name with
    | none =>
      rw [run_resolve, hresolve] at hquiet
      exact ((hnone [_]).visited a hknows hquiet).1 _ (mem_singleton_self _)
    | some s => exact visited_ident hknows ((h.steps.later a).quiet hquiet) hresolve

/-- A check that asks for a known integer, and reports an error if there
is none, as good as visits the expression. -/
theorem constant (hnone : ∀ ns, Covers around view view ns (f none))
    (h : Covers around view view ns (constInt? e >>= f)) :
    Covers around view view (e.nodes view ++ ns) (constInt? e >>= f) where
  steps := h.steps
  visited a hknows hquiet := by
    obtain ⟨hns, hknows'⟩ := h.visited a hknows hquiet
    refine ⟨forall_mem_append.mpr ⟨?_, hns⟩, hknows'⟩
    have hrun : (constInt? e >>= f).run a
        = (f ((constInt? e).run a).1).run ((constInt? e).run a).2 := rfl
    have hsame : ((constInt? e).run a).2 = a := by
      cases e with
      | _ => rfl
    cases hknown : ((constInt? e).run a).1 with
    | none =>
      rw [hrun, hsame, hknown] at hquiet
      exact ((hnone _).visited a hknows hquiet).1
    | some n => exact visited_of_constInt hknows ((h.steps.later a).quiet hquiet) hknown

end Covers

end SketchCompiler
