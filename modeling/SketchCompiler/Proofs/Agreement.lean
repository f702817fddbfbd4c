/-
What a check depends on.  Two states of an analysis are alike if they know
the same of every name, whatever the order in which they have learnt it
and whatever they have found so far (`Analysis.Alike`).  A check that runs
from two such states comes to the same result, finds the same and leads
to states that are alike again (`Agrees`).

A check of an expression or a block leaves the scopes as they were; one
of a statement may define something in the innermost scope.  Which of the
two holds is said along with the agreement (`Agrees.scope`).
-/
import SketchCompiler.Analysis

namespace SketchCompiler

open List Check

variable {c c' : ScopeChain} {a : Analysis} {defines : Bool}
  {t t' : SymbolTable} {s : Symbol}

-- ==== scopes

/-- All but the innermost scope are the same; that one only grows. -/
def ScopeChain.SameOuter (c c' : ScopeChain) : Prop :=
  match c.inner with
  | [] => c'.inner = [] ∧ c.globals <+: c'.globals
  | t :: outer => (∃ t', c'.inner = t' :: outer ∧ t <+: t') ∧ c'.globals = c.globals

theorem ScopeChain.SameOuter.refl (c : ScopeChain) : c.SameOuter c := by
  unfold SameOuter
  split
  · exact ⟨‹_›, prefix_refl _⟩
  · exact ⟨⟨_, ‹_›, prefix_refl _⟩, rfl⟩

theorem ScopeChain.SameOuter.trans (h : c.SameOuter c') (h' : c'.SameOuter c'') :
    c.SameOuter c'' := by
  unfold SameOuter at h ⊢
  split at h
  · unfold SameOuter at h'
    rw [h.1] at h'
    exact ⟨h'.1, h.2.trans h'.2⟩
  · obtain ⟨⟨t, ht, hprefix⟩, hglobals⟩ := h
    unfold SameOuter at h'
    rw [ht] at h'
    obtain ⟨⟨t', ht', hprefix'⟩, hglobals'⟩ := h'
    exact ⟨⟨t', ht', hprefix.trans hprefix'⟩, hglobals'.trans hglobals⟩

theorem ScopeChain.SameOuter.pop_eq (h : c.push.SameOuter c') : c'.pop = c := by
  obtain ⟨⟨t, ht, -⟩, hglobals⟩ := h
  rw [pop, ht, hglobals]
  rfl

theorem SymbolTable.get?_define (h : t.define s = some t') (name : String) :
    t'.get? name = if s.name = name then some s else t.get? name := by
  unfold SymbolTable.define at h
  split at h
  · cases h
  · rename_i hfree
    cases h
    have hnone : s.name = name → t.get? name = none := by
      rintro rfl
      simpa [SymbolTable.get?, SymbolTable.defines] using hfree
    unfold SymbolTable.get? at hnone ⊢
    rw [find?_append]
    by_cases hname : s.name = name
    · rw [hnone hname, if_pos hname]
      simp [hname]
    · rw [if_neg hname]
      simp [hname]

theorem SymbolTable.prefix_define (h : t.define s = some t') : t <+: t' := by
  unfold SymbolTable.define at h
  split at h
  · cases h
  · cases h
    exact prefix_append _ _

theorem ScopeChain.resolve_define (h : c.define s = some c') (name : String) :
    c'.resolve name = if s.name = name then some s else c.resolve name := by
  unfold ScopeChain.define at h
  cases hinner : c.inner with
  | nil =>
    rw [hinner] at h
    obtain ⟨globals, hglobals, rfl⟩ := Option.map_eq_some_iff.mp h
    simp only [resolve, hinner, findSome?_nil, Option.none_or]
    exact SymbolTable.get?_define hglobals name
  | cons t outer =>
    rw [hinner] at h
    obtain ⟨t', ht', rfl⟩ := Option.map_eq_some_iff.mp h
    simp only [resolve, hinner, findSome?_cons, SymbolTable.get?_define ht' name]
    by_cases hname : s.name = name
    · rw [if_pos hname, if_pos hname]
      rfl
    · rw [if_neg hname, if_neg hname]

theorem ScopeChain.sameOuter_define (h : c.define s = some c') : c.SameOuter c' := by
  unfold ScopeChain.define at h
  unfold SameOuter
  cases hinner : c.inner with
  | nil =>
    rw [hinner] at h
    obtain ⟨globals, hglobals, rfl⟩ := Option.map_eq_some_iff.mp h
    exact ⟨rfl, SymbolTable.prefix_define hglobals⟩
  | cons t outer =>
    rw [hinner] at h
    obtain ⟨t', ht', rfl⟩ := Option.map_eq_some_iff.mp h
    exact ⟨⟨t', rfl, SymbolTable.prefix_define ht'⟩, rfl⟩

-- ==== alike states

/-- Two global scopes that know the same names, around the same inner
ones. -/
structure ScopeChain.Alike (c c' : ScopeChain) : Prop where
  inner : c'.inner = c.inner
  globals : ∀ name, c'.globals.get? name = c.globals.get? name

/-- Two states of an analysis that know the same. -/
structure Analysis.Alike (a b : Analysis) : Prop where
  board : b.board = a.board
  file : b.file = a.file
  scopes : a.scopes.Alike b.scopes
  structs : ∀ name, b.structs.lookup name = a.structs.lookup name
  tasks : ∀ name, b.tasks.contains name = a.tasks.contains name
  returnType : b.returnType = a.returnType

theorem ScopeChain.Alike.refl (c : ScopeChain) : c.Alike c := ⟨rfl, fun _ => rfl⟩

theorem Analysis.Alike.refl (a : Analysis) : a.Alike a :=
  ⟨rfl, rfl, .refl _, fun _ => rfl, fun _ => rfl, rfl⟩

theorem Analysis.Alike.symm (h : a.Alike b) : b.Alike a :=
  ⟨h.board.symm, h.file.symm, ⟨h.scopes.inner.symm, fun name => (h.scopes.globals name).symm⟩,
    fun name => (h.structs name).symm, fun name => (h.tasks name).symm, h.returnType.symm⟩

/-- Alike scopes resolve a name to the same symbol. -/
theorem ScopeChain.Alike.resolve (h : c.Alike c') (name : String) :
    c'.resolve name = c.resolve name := by
  unfold ScopeChain.resolve
  rw [h.inner, h.globals]

theorem SymbolTable.define_cases (t : SymbolTable) (s : Symbol) :
    (∃ old, t.get? s.name = some old ∧ t.define s = none)
      ∨ t.get? s.name = none ∧ ∃ t', t.define s = some t' := by
  have hdefines : t.defines s.name = (t.get? s.name).isSome := by
    unfold SymbolTable.defines SymbolTable.get?
    rw [Bool.eq_iff_iff, any_eq_true, find?_isSome]
  unfold SymbolTable.define
  rw [hdefines]
  cases t.get? s.name with
  | none => exact .inr ⟨rfl, _, rfl⟩
  | some old => exact .inl ⟨old, rfl, rfl⟩

theorem SymbolTable.define_alike (h : ∀ name, t'.get? name = t.get? name) (s : Symbol) :
    t.define s = none ∧ t'.define s = none
      ∨ ∃ u u', t.define s = some u ∧ t'.define s = some u'
        ∧ ∀ name, u'.get? name = u.get? name := by
  rcases t.define_cases s with ⟨old, hold, hnone⟩ | ⟨hfree, u, hu⟩
  · rcases t'.define_cases s with ⟨-, -, hnone'⟩ | ⟨hfree', -⟩
    · exact .inl ⟨hnone, hnone'⟩
    · rw [h, hold] at hfree'
      cases hfree'
  · rcases t'.define_cases s with ⟨old', hold', -⟩ | ⟨-, u', hu'⟩
    · rw [h, hfree] at hold'
      cases hold'
    · refine .inr ⟨u, u', hu, hu', fun name => ?_⟩
      rw [get?_define hu, get?_define hu', h]

/-- Alike scopes are free for the same symbols. -/
theorem ScopeChain.Alike.define (h : c.Alike c') (s : Symbol) :
    c.define s = none ∧ c'.define s = none
      ∨ ∃ d d', c.define s = some d ∧ c'.define s = some d' ∧ d.Alike d' := by
  unfold ScopeChain.define
  rw [h.inner]
  cases c.inner with
  | nil =>
    dsimp only
    rcases SymbolTable.define_alike h.globals s with ⟨hnone, hnone'⟩ | ⟨u, u', hu, hu', hsame⟩
    · rw [hnone, hnone']
      exact .inl ⟨rfl, rfl⟩
    · rw [hu, hu']
      exact .inr ⟨_, _, rfl, rfl, rfl, hsame⟩
  | cons t outer =>
    dsimp only
    cases ht : t.define s with
    | none => exact .inl ⟨rfl, rfl⟩
    | some u => exact .inr ⟨_, _, rfl, rfl, rfl, h.globals⟩

-- ==== agreement

theorem run_define_some (h : a.scopes.define s = some scopes) :
    (define s).run a = (true, { a with scopes }) := by
  simp only [define, StateT.run_bind, StateT.run_get, pure_bind, h]
  rfl

theorem run_define_none (h : a.scopes.define s = none) : (define s).run a = (false, a) := by
  simp only [define, StateT.run_bind, StateT.run_get, pure_bind, h]
  rfl

/-- How a check may change the scopes: not at all, or in the innermost one
if it may define something there. -/
def ScopeChain.Changes (defines : Bool) (c c' : ScopeChain) : Prop :=
  if defines then c.SameOuter c' else c' = c

theorem ScopeChain.Changes.refl (c : ScopeChain) : c.Changes defines c := by
  cases defines with
  | false => rfl
  | true => exact SameOuter.refl c

theorem ScopeChain.Changes.trans (h : c.Changes defines c') (h' : c'.Changes defines c'') :
    c.Changes defines c'' := by
  cases defines with
  | false => exact Eq.trans h' h
  | true => exact SameOuter.trans h h'

/-- A state that a check may lead to, with the findings it adds. -/
structure Analysis.Moves (defines : Bool) (more : List Issue) (a a' : Analysis) : Prop where
  board : a'.board = a.board
  structs : a'.structs = a.structs
  tasks : a'.tasks = a.tasks
  returnType : a'.returnType = a.returnType
  scopes : a.scopes.Changes defines a'.scopes
  issues : a'.issues = a.issues ++ more

theorem Analysis.Moves.refl (a : Analysis) : a.Moves defines [] a :=
  ⟨rfl, rfl, rfl, rfl, .refl _, (append_nil _).symm⟩

theorem Analysis.Moves.trans (h : a.Moves defines more a') (h' : a'.Moves defines more' a'') :
    a.Moves defines (more ++ more') a'' where
  board := h'.board.trans h.board
  structs := h'.structs.trans h.structs
  tasks := h'.tasks.trans h.tasks
  returnType := h'.returnType.trans h.returnType
  scopes := h.scopes.trans h'.scopes
  issues := by rw [h'.issues, h.issues, append_assoc]

/-- From alike states the check comes to the same result, finds the same
and leads to alike states. -/
def Agrees {α : Type} (defines : Bool) (c : Check α) : Prop :=
  ∀ a b : Analysis, a.Alike b → (c.run a).1 = (c.run b).1 ∧ (c.run a).2.Alike (c.run b).2
    ∧ ∃ more, a.Moves defines more (c.run a).2 ∧ b.Moves defines more (c.run b).2

namespace Agrees

variable {α β : Type} {defines : Bool}

theorem pure (x : α) : Agrees defines (pure x : Check α) :=
  fun a b h => ⟨rfl, h, [], .refl a, .refl b⟩

theorem bind {c : Check α} {f : α → Check β} (hc : Agrees defines c)
    (hf : ∀ x, Agrees defines (f x)) : Agrees defines (c >>= f) := by
  intro a b h
  obtain ⟨hresult, halike, more, hmove, hmove'⟩ := hc a b h
  obtain ⟨hresult₂, halike₂, more₂, hmove₂, hmove₂'⟩ := hf (c.run a).1 _ _ halike
  have hrun : (c >>= f).run b = (f (c.run a).1).run (c.run b).2 := by
    rw [hresult]
    rfl
  rw [hrun]
  exact ⟨hresult₂, halike₂, more ++ more₂, hmove.trans hmove₂, hmove'.trans hmove₂'⟩

/-- A check that asks for what alike states have in common. -/
theorem ask (hsame : ∀ a b, a.Alike b → f a = f b) (hf : ∀ a, Agrees defines (f a)) :
    Agrees defines (get >>= f) := by
  intro a b h
  have hrun : (get >>= f).run b = (f a).run b := by
    rw [hsame a b h]
    rfl
  rw [hrun]
  exact hf a a b h

theorem report (span : Span) (finding : Finding) : Agrees defines (report span finding) := by
  intro a b h
  refine ⟨rfl, ⟨h.board, h.file, h.scopes, h.structs, h.tasks, h.returnType⟩,
    [⟨finding, a.file, span.startLine, span.startCol⟩], ⟨rfl, rfl, rfl, rfl, .refl _, rfl⟩,
    rfl, rfl, rfl, rfl, .refl _, ?_⟩
  rw [← h.file]
  rfl

theorem enterFile (file : String) : Agrees defines (enterFile file) :=
  fun _ _ h => ⟨rfl, ⟨h.board, rfl, h.scopes, h.structs, h.tasks, h.returnType⟩, [],
    ⟨rfl, rfl, rfl, rfl, .refl _, (append_nil _).symm⟩,
    ⟨rfl, rfl, rfl, rfl, .refl _, (append_nil _).symm⟩⟩

/-- A definition in the innermost scope. -/
theorem define (s : Symbol) : Agrees true (define s) := by
  intro a b h
  rcases h.scopes.define s with ⟨hnone, hnone'⟩ | ⟨c, c', hsome, hsome', halike⟩
  · rw [run_define_none hnone, run_define_none hnone']
    exact ⟨rfl, h, [], .refl a, .refl b⟩
  · rw [run_define_some hsome, run_define_some hsome']
    refine ⟨rfl, ⟨h.board, h.file, halike, h.structs, h.tasks, h.returnType⟩, [], ?_, ?_⟩
    · exact ⟨rfl, rfl, rfl, rfl, ScopeChain.sameOuter_define hsome, (append_nil _).symm⟩
    · exact ⟨rfl, rfl, rfl, rfl, ScopeChain.sameOuter_define hsome', (append_nil _).symm⟩

/-- What is done in a scope of its own leaves the scopes as they were. -/
theorem scope {c : Check Unit} (hc : Agrees true c) :
    Agrees defines (openScope >>= fun _ => c >>= fun _ => closeScope) := by
  intro a b h
  obtain ⟨-, halike, more, hmove, hmove'⟩ := hc { a with scopes := a.scopes.push }
    { b with scopes := b.scopes.push }
    ⟨h.board, h.file, ⟨congrArg ([] :: ·) h.scopes.inner, h.scopes.globals⟩, h.structs, h.tasks,
      h.returnType⟩
  -- closing the scope leads back, on both sides
  have hpop : ((openScope >>= fun _ => c >>= fun _ => closeScope).run a).2.scopes = a.scopes :=
    ScopeChain.SameOuter.pop_eq hmove.scopes
  have hpop' : ((openScope >>= fun _ => c >>= fun _ => closeScope).run b).2.scopes = b.scopes :=
    ScopeChain.SameOuter.pop_eq hmove'.scopes
  refine ⟨rfl, ⟨halike.board, halike.file, ?_, halike.structs, halike.tasks, halike.returnType⟩,
    more, ⟨hmove.board, hmove.structs, hmove.tasks, hmove.returnType, ?_, hmove.issues⟩,
    ⟨hmove'.board, hmove'.structs, hmove'.tasks, hmove'.returnType, ?_, hmove'.issues⟩⟩
  · rw [hpop, hpop']
    exact h.scopes
  · rw [hpop]
    exact .refl _
  · rw [hpop']
    exact .refl _

/-- The type that was expected before the body of a function is expected
again behind it. -/
theorem returning (type : String) {c : Check Unit} (hc : Agrees defines c) :
    Agrees defines (returning type c) := by
  intro a b h
  obtain ⟨-, halike, more, hmove, hmove'⟩ := hc { a with returnType := type }
    { b with returnType := type } ⟨h.board, h.file, h.scopes, h.structs, h.tasks, rfl⟩
  exact ⟨rfl, ⟨halike.board, halike.file, halike.scopes, halike.structs, halike.tasks,
      h.returnType⟩, more,
    ⟨hmove.board, hmove.structs, hmove.tasks, rfl, hmove.scopes, hmove.issues⟩,
    ⟨hmove'.board, hmove'.structs, hmove'.tasks, rfl, hmove'.scopes, hmove'.issues⟩⟩

end Agrees

end SketchCompiler
