/-
What a visit leaves in scope, in the two places where the analysis and the
rules of the language differ.

A loop is visited in the scope around it, and what its header declares
stays there (`visit_loops`).  The condition, the update and the body leave
the scopes as they were, whatever is nested in them.

The scope of a value block is closed before the value is looked at.  So
the value is inferred in the scopes around the conditional, and a name
stands for what it stands for out there, whether the block declares it or
not (`inferType_values`).
-/
import SketchCompiler.Proofs.Covering
import SketchCompiler.Program.OfTokens

namespace SketchCompiler

open List Check

variable {name : String} {span : Span} {a : Analysis} {P : Symbol → Prop} {finding : Finding}
  {c c' : ScopeChain} {s : Symbol}

-- ==== definitions in the innermost scope

/-- The symbols of the innermost scope. -/
def ScopeChain.current (c : ScopeChain) : SymbolTable :=
  c.inner.headD c.globals

theorem ScopeChain.current_define (h : c.define s = some c') :
    c.current.defines s.name = false ∧ c'.current = c.current ++ [s] := by
  unfold ScopeChain.define at h
  unfold current
  split at h
  all_goals
    rename_i hinner
    obtain ⟨t, ht, rfl⟩ := Option.map_eq_some_iff.mp h
    unfold SymbolTable.define at ht
    split at ht
    · cases ht
    · rename_i hfree
      cases ht
      rw [hinner]
      exact ⟨Bool.eq_false_iff.mpr hfree, rfl⟩

theorem ScopeChain.defines_of_define_none (h : c.define s = none) :
    c.current.defines s.name = true := by
  unfold ScopeChain.define at h
  unfold current
  split at h
  all_goals
    rename_i hinner
    have hnone := Option.map_eq_none_iff.mp h
    unfold SymbolTable.define at hnone
    split at hnone
    · rw [hinner]
      assumption
    · cases hnone

theorem ScopeChain.resolve_inside (h : c.push.SameOuter c') (name : String) :
    c'.resolve name = (c'.current.get? name).or (c.resolve name) := by
  obtain ⟨⟨t, ht, -⟩, hglobals⟩ := h
  have hglobals : c'.globals = c.globals := hglobals
  rw [resolve, resolve, current, ht, hglobals, findSome?_cons]
  cases hname : t.get? name <;> simp [hname]

/-- The check defines a symbol in the innermost scope.  If the name is
taken there, it leaves the scopes as they were and reports it. -/
def Adds {α : Type} (P : Symbol → Prop) (finding : Finding) (span : Span) (c : Check α) : Prop :=
  ∀ a : Analysis, ∃ s, P s ∧ (a.scopes.define s = some (c.run a).2.scopes
    ∨ a.scopes.define s = none ∧ (c.run a).2.scopes = a.scopes
      ∧ ∃ file, ⟨finding, file, span.startLine, span.startCol⟩ ∈ (c.run a).2.issues)

namespace Adds

variable {α β : Type} {c : Check α} {f : α → Check β}

theorem define (h : P s) :
    Adds P finding span (Check.define s >>= fun free => reportIf (!free) span finding) := by
  intro a
  have hrun : (Check.define s >>= fun free => reportIf (!free) span finding).run a
      = (reportIf (!((Check.define s).run a).1) span finding).run ((Check.define s).run a).2 := rfl
  refine ⟨s, h, ?_⟩
  rw [hrun]
  cases hscopes : a.scopes.define s with
  | none =>
    rw [run_define_none hscopes]
    exact .inr ⟨rfl, rfl, a.file, mem_append_right _ (mem_singleton_self _)⟩
  | some scopes =>
    rw [run_define_some hscopes]
    exact .inl rfl

/-- Behind a check that defines nothing. -/
theorem after (hc : Steps (anywhere false) false c) (hf : ∀ x, Adds P finding span (f x)) :
    Adds P finding span (c >>= f) := by
  intro a
  obtain ⟨_, hmove⟩ := hc.moves a
  have hscopes : (c.run a).2.scopes = a.scopes := hmove.scopes
  rw [← hscopes]
  exact hf _ (c.run a).2

theorem andThen (hc : Adds P finding span c) (hf : ∀ x, Steps (anywhere false) false (f x)) :
    Adds P finding span (c >>= f) := by
  intro a
  obtain ⟨s, hs, houtcome⟩ := hc a
  obtain ⟨more, hmove⟩ := (hf (c.run a).1).moves (c.run a).2
  have hscopes : ((c >>= f).run a).2.scopes = (c.run a).2.scopes := hmove.scopes
  have hissues : ((c >>= f).run a).2.issues = (c.run a).2.issues ++ more := hmove.issues
  refine ⟨s, hs, ?_⟩
  rw [hscopes, hissues]
  rcases houtcome with hdefined | ⟨hnone, hsame, file, hfound⟩
  · exact .inl hdefined
  · exact .inr ⟨hnone, hsame, file, mem_append_left _ hfound⟩

/-- The name is defined afterwards.  Without an error it was free. -/
theorem current (h : Adds (·.name = name) finding span c) (herror : finding.severity = .error)
    (a : Analysis) :
    (∀ n, (c.run a).2.scopes.current.defines n = true ↔
      a.scopes.current.defines n = true ∨ n = name)
      ∧ ((c.run a).2.Quiet → a.scopes.current.defines name = false) := by
  obtain ⟨s, rfl, hdefined | ⟨hnone, hsame, file, hfound⟩⟩ := h a
  · obtain ⟨hfree, hcurrent⟩ := ScopeChain.current_define hdefined
    refine ⟨fun n => ?_, fun _ => hfree⟩
    rw [hcurrent]
    simp [SymbolTable.defines, eq_comm (a := n)]
  · refine ⟨fun n => ?_, fun hquiet => absurd herror (hquiet _ hfound)⟩
    rw [hsame]
    exact ⟨.inl, fun h => h.elim id fun hn => hn ▸ ScopeChain.defines_of_define_none hnone⟩

end Adds

-- ==== variables and loops

theorem varDecl_adds (span : Span) (name : String) (typeName : Option String)
    (value : Option Expr) (isMutable isConst isVolatile : Bool) :
    Adds (fun s => ∃ type,
        s = variableSymbol name typeName isConst isVolatile (initialInt value) type)
      (.variableRedefined name) span
      (visit (.varDecl span name typeName value isMutable isConst isVolatile)) := by
  have hvalue : Steps (anywhere false) false (inferInitializer value) := by
    cases value with
    | none => exact .pure _
    | some value => exact value.steps .anywhere
  rw [visit_varDecl]
  exact .after (.enterFile trivial) fun _ => .after hvalue fun type =>
    .after (.variableType trivial _ _ _ _) fun _ => .define ⟨type, rfl⟩

theorem loopRest_steps (condition update : Option Expr) (body : Block) :
    Steps (anywhere false) false (loopRest condition update body) :=
  .bind (.optional fun e _ => .bind (e.steps .anywhere) fun _ => .reportIf _ trivial rfl) fun _ =>
    .bind (.optional fun e _ => .bind (e.steps .anywhere) fun _ => .pure ()) fun _ =>
      body.steps .anywhere

theorem forLoop_adds {init : Stmt} (h : Adds P finding span (visit init)) (loopSpan : Span)
    (condition update : Option Expr) (body : Block) :
    Adds P finding span (visit (.forLoop loopSpan (some init) condition update body)) := by
  rw [visit_forLoop]
  exact .after (.enterFile trivial) fun _ => h.andThen fun _ =>
    loopRest_steps condition update body

theorem forLoop_scopes (span : Span) (init : Option Stmt) (condition update : Option Expr)
    (body : Block) (a : Analysis) :
    ((visit (.forLoop span init condition update body)).run a).2.scopes
      = ((init.forM (visit)).run a).2.scopes := by
  obtain ⟨_, hmove⟩ := (loopRest_steps condition update body).moves
    ((init.forM (visit)).run { a with file := span.file }).2
  rw [visit_forLoop]
  refine Eq.trans (b := ((init.forM (visit)).run { a with file := span.file }).2.scopes)
    hmove.scopes ?_
  cases init with
  | none => rfl
  | some init => exact congrArg (·.2.scopes) (visit_file init a span.file)

/-- A statement leaves the scopes as they were, or adds the name that it
leaves in view. -/
theorem Stmt.adds (s : Stmt) :
    (s.bindings = [] ∧ ∀ a, ((visit s).run a).2.scopes = a.scopes)
      ∨ ∃ name span, s.bindings.map (·.name) = [name]
        ∧ Adds (·.name = name) (.variableRedefined name) span (visit s) := by
  have hsteps : Steps (anywhere false) s.defines (visit s) := s.steps .anywhere
  cases s with
  | varDecl span name typeName value isMutable isConst isVolatile =>
    refine .inr ⟨name, span, rfl, fun a => ?_⟩
    obtain ⟨s, ⟨type, rfl⟩, h⟩ :=
      varDecl_adds span name typeName value isMutable isConst isVolatile a
    exact ⟨_, rfl, h⟩
  | forLoop span init condition update body =>
    cases init with
    | none => exact .inl ⟨rfl, fun a => forLoop_scopes span none condition update body a⟩
    | some init =>
      rcases init.adds with ⟨hnone, hsame⟩ | ⟨name, place, hnames, hadds⟩
      · refine .inl ⟨by rw [Stmt.bindings, hnone]; rfl, fun a => ?_⟩
        exact (forLoop_scopes span (some init) condition update body a).trans (hsame a)
      · refine .inr ⟨name, place, ?_, forLoop_adds hadds span condition update body⟩
        rw [Stmt.bindings, map_map]
        exact hnames
  | _ =>
    refine .inl ⟨by unfold Stmt.bindings; rfl, fun a => ?_⟩
    obtain ⟨_, hmove⟩ := hsteps.moves a
    exact hmove.scopes

theorem mem_bindingsOf {ss : List Stmt} {s : Stmt} {b : Binding} (hs : s ∈ ss)
    (hb : b ∈ s.bindings) : b ∈ bindingsOf ss := by
  induction ss with
  | nil => cases hs
  | cons first ss ih =>
    rcases mem_cons.mp hs with rfl | hs
    · exact mem_append_right _ hb
    · exact mem_append_left _ (ih hs)

theorem visitAll_append (ds es : List Stmt) (a : Analysis) :
    ((visitAll (ds ++ es)).run a).2
      = ((visitAll es).run ((visitAll ds).run a).2).2 := by
  induction ds generalizing a with
  | nil => rfl
  | cons d ds ih =>
    rw [cons_append, visitAll, visitAll]
    exact ih _

theorem visitAll_current (ss : List Stmt) (a : Analysis) :
    (∀ name, ((visitAll ss).run a).2.scopes.current.defines name = true
        ↔ a.scopes.current.defines name = true ∨ name ∈ (bindingsOf ss).map (·.name))
      ∧ (((visitAll ss).run a).2.Quiet → ((bindingsOf ss).map (·.name)).Nodup
        ∧ ∀ name ∈ (bindingsOf ss).map (·.name), a.scopes.current.defines name = false) := by
  induction ss generalizing a with
  | nil => exact ⟨fun name => (or_iff_left not_mem_nil).symm, fun _ =>
      ⟨nodup_nil, forall_mem_nil _⟩⟩
  | cons s ss ih =>
    obtain ⟨hnames, hfree⟩ := ih ((visit s).run a).2
    rw [visitAll]
    change (∀ name, ((visitAll ss).run ((visit s).run a).2).2.scopes.current.defines name
      = true ↔ _)
      ∧ (((visitAll ss).run ((visit s).run a).2).2.Quiet → _)
    rcases s.adds with ⟨hnone, hsame⟩ | ⟨name, span, hname, hadds⟩
    · rw [bindingsOf, hnone, append_nil]
      rw [hsame] at hnames hfree
      exact ⟨hnames, hfree⟩
    · rw [bindingsOf, map_append, hname]
      obtain ⟨hmore, hfirst⟩ := hadds.current rfl a
      refine ⟨fun n => ?_, fun hquiet => ?_⟩
      · rw [hnames, hmore, mem_append, mem_singleton, or_assoc, or_comm (a := n = name)]
      · obtain ⟨hnodup, hrest⟩ := hfree hquiet
        have hstart := hfirst (((stmtsSteps ss .anywhere).later _).quiet hquiet)
        simp only [← Bool.not_eq_true, hmore, not_or] at hrest
        refine ⟨nodup_append.mpr ⟨hnodup, by simp, ?_⟩, forall_mem_append.mpr
          ⟨fun n hn => Bool.eq_false_iff.mpr (hrest n hn).1, forall_mem_singleton.mpr hstart⟩⟩
        rintro n hn m hm rfl
        exact (hrest n hn).2 (mem_singleton.mp hm)

/-- **What loops leave behind.**  In every state a loop leaves the scopes
as its header alone does: not the condition, not the update, nor anything
in the body changes them, and without a variable in its header the loop
leaves them exactly as they were.  A variable in its header is defined in
the scope around the loop, as the last symbol there, and its name stands
for it behind the loop.  If the name is taken there, the scopes stay and
an error says so.  So the header variables of the loops of one block, and
its other variables, are all defined behind them, and without an error
their names all differ. -/
theorem visit_loops (a : Analysis) :
    (∀ span init condition update body,
      ((visit (.forLoop span init condition update body)).run a).2.scopes
          = ((init.forM (visit)).run a).2.scopes
        ∧ ((∀ s ∈ init, s.bindings = []) →
          ((visit (.forLoop span init condition update body)).run a).2.scopes = a.scopes))
    ∧ (∀ loop span condition update body place name typeName value isMutable isConst isVolatile,
      loop = .forLoop span (some (.varDecl place name typeName value isMutable isConst isVolatile))
        condition update body →
      ∃ type, let s := variableSymbol name typeName isConst isVolatile (initialInt value) type
        let after := ((visit loop).run a).2
        (a.scopes.current.defines name = false ∧ a.scopes.define s = some after.scopes
            ∧ after.scopes.resolve name = some s)
          ∨ a.scopes.current.defines name = true ∧ after.scopes = a.scopes
            ∧ ∃ file, ⟨.variableRedefined name, file, place.startLine, place.startCol⟩
              ∈ after.issues)
    ∧ ∀ ss : List Stmt, let names := (bindingsOf ss).map (·.name)
      let after := ((visitAll ss).run a).2
      (∀ name ∈ names, after.scopes.current.defines name = true)
        ∧ (after.Quiet → names.Nodup ∧ ∀ name ∈ names, a.scopes.current.defines name = false) := by
  refine ⟨fun span init condition update body => ⟨forLoop_scopes span init condition update body a,
    fun hnone => ?_⟩, ?_, fun ss => ?_⟩
  · rw [forLoop_scopes]
    cases init with
    | none => rfl
    | some init =>
      rcases init.adds with ⟨-, hsame⟩ | ⟨name, place, hname, -⟩
      · exact hsame a
      · rw [hnone init rfl] at hname
        cases hname
  · rintro _ span condition update body place name typeName value isMutable isConst isVolatile rfl
    obtain ⟨s, ⟨type, rfl⟩, houtcome⟩ := forLoop_adds
      (varDecl_adds place name typeName value isMutable isConst isVolatile) span condition
      update body a
    refine ⟨type, ?_⟩
    rcases houtcome with hdefined | ⟨hnone, hsame, hfound⟩
    · exact .inl ⟨(ScopeChain.current_define hdefined).1, hdefined,
        (ScopeChain.resolve_define hdefined name).trans (if_pos rfl)⟩
    · exact .inr ⟨ScopeChain.defines_of_define_none hnone, hsame, hfound⟩
  · obtain ⟨hnames, hfree⟩ := visitAll_current ss a
    exact ⟨fun name hname => (hnames name).mpr (.inr hname), hfree⟩

/-- A source is read without findings, and its analysis has these. -/
def findsOnly (source : String) (findings : List Finding) : Bool :=
  match Program.ofSource "sketch" source with
  | .ok src => src.scanErrors.isEmpty && src.parseErrors.isEmpty
    && (src.program.analyze "esp32").issues.map (·.finding) == findings
  | .error _ => false

/-- Two loops of one block cannot use the same variable. -/
theorem loops_collide :
    findsOnly ("fn f() -> void \x7b for (let i = 0; i < 3; i++) \x7b \x7d "
      ++ "for (let i = 0; i < 3; i++) \x7b \x7d \x7d") [.variableRedefined "i"] = true := by
  decide +kernel

-- ==== value blocks

/-- The state at the end of a block, with its scope still open. -/
def Block.inside (b : Block) (a : Analysis) : Analysis :=
  ((visitAll b.statements).run { a with scopes := a.scopes.push }).2

theorem Block.resolve_inside (b : Block) (a : Analysis) (name : String) :
    (b.inside a).scopes.resolve name
        = ((b.inside a).scopes.current.get? name).or (a.scopes.resolve name)
      ∧ (((b.inside a).scopes.current.get? name).isSome = true
        ↔ name ∈ (bindingsOf b.statements).map (·.name)) := by
  have hsteps : Steps (anywhere false) true (visitAll b.statements) := stmtsSteps _ .anywhere
  refine ⟨ScopeChain.resolve_inside (hsteps.outer { a with scopes := a.scopes.push }) name, ?_⟩
  obtain ⟨hnames, -⟩ := visitAll_current b.statements { a with scopes := a.scopes.push }
  refine Iff.trans ?_ ((hnames name).trans (or_iff_right Bool.false_ne_true))
  rw [SymbolTable.get?, SymbolTable.defines, find?_isSome, any_eq_true]
  rfl

theorem Steps.same_found {α : Type} {c : Check α} {more : List Issue} {b : Analysis}
    (h : Steps (anywhere false) false c) (hmove : a.Moves false more b) :
    ∃ found, (c.run b).1 = (c.run { a with file := b.file }).1
      ∧ (c.run { a with file := b.file }).2.issues = a.issues ++ found
      ∧ a.Moves false (more ++ found) (c.run b).2 := by
  have hscopes : b.scopes = a.scopes := hmove.scopes
  have halike : b.Alike { a with file := b.file } :=
    ⟨hmove.board.symm, rfl, ⟨congrArg _ hscopes.symm, fun _ => by rw [hscopes]⟩,
      fun _ => by rw [hmove.structs], fun _ => by rw [hmove.tasks], hmove.returnType.symm⟩
  obtain ⟨hresult, -, found, hthere, hhere⟩ := h.agrees _ _ halike
  exact ⟨found, hresult, hhere.issues, hmove.trans hthere⟩

/-- The check of a conditional expression up to its values. -/
def checkBranches (condition : Expr) (thenBlock elseBlock : Block) : Check Unit := do
  let conditionType ← inferType condition
  expectType condition "bool" conditionType (.conditionNotBool "If expression")
  visitBlock thenBlock
  visitBlock elseBlock

/-- The type of two values that have to agree. -/
def agreeTypes (span : Span) (first second : String) : Check String :=
  if first == second then return first
  else do
    report span (.branchMismatch first second)
    return "unknown"

theorem inferType_ifElse (span : Span) (condition : Expr) (thenBlock : Block)
    (thenValue : Expr) (elseBlock : Block) (elseValue : Expr) :
    inferType (.ifElse span condition thenBlock thenValue elseBlock elseValue) = (do
      checkBranches condition thenBlock elseBlock
      let thenType ← inferType thenValue
      let elseType ← inferType elseValue
      agreeTypes span thenType elseType) := by
  rw [inferType]
  simp only [checkBranches, bind_assoc]
  rfl

theorem run_agreeTypes (span : Span) (first second : String) (a : Analysis) :
    (agreeTypes span first second).run a = if first = second then (first, a)
      else ("unknown", ((report span (.branchMismatch first second)).run a).2) := by
  unfold agreeTypes
  by_cases h : first = second
  · rw [if_pos h, if_pos (beq_iff_eq.mpr h)]
    rfl
  · rw [if_neg h, if_neg fun heq => h (beq_iff_eq.mp heq)]
    rfl

/-- **Values of value blocks are looked at from outside.**  In every state
a conditional expression infers the two values in the scopes around it:
each has the type and the findings that it would have there without the
block in front of it, whatever is nested in either.  So an identifier is
undefined exactly if it is out there.  By the rules of the language the
scope of the block is still open: there a name stands for what the block
declares it as, and the two agree on every name that the block does not
declare. -/
theorem inferType_values (a : Analysis) (span : Span) (condition : Expr)
    (thenBlock : Block) (thenValue : Expr) (elseBlock : Block) (elseValue : Expr) :
    (∃ file file' last front found found',
      let whole :=
        (inferType (.ifElse span condition thenBlock thenValue elseBlock elseValue)).run a
      let first := (inferType thenValue).run { a with file }
      let second := (inferType elseValue).run { a with file := file' }
      whole.2.scopes = a.scopes ∧ first.2.issues = a.issues ++ found
        ∧ second.2.issues = a.issues ++ found'
        ∧ whole.1 = (if first.1 = second.1 then first.1 else "unknown")
        ∧ whole.2.issues = a.issues ++ (front ++ found ++ found'
          ++ if first.1 = second.1 then []
            else [⟨.branchMismatch first.1 second.1, last, span.startLine, span.startCol⟩]))
    ∧ (∀ place name file, ((inferType (.ident place name)).run { a with file }).2.issues
        = a.issues ↔ (a.scopes.resolve name).isSome = true)
    ∧ ∀ block ∈ [thenBlock, elseBlock], ∀ name,
      (block.inside a).scopes.resolve name
          = ((block.inside a).scopes.current.get? name).or (a.scopes.resolve name)
        ∧ (((block.inside a).scopes.current.get? name).isSome = true
          ↔ name ∈ (bindingsOf block.statements).map (·.name)) := by
  refine ⟨?_, fun place name file => ?_, fun block _ => block.resolve_inside a⟩
  · have hfront : Steps (anywhere false) false
        (checkBranches condition thenBlock elseBlock) :=
      .condition .anywhere (condition.steps .anywhere) _
        (.bind (thenBlock.steps .anywhere) fun _ => elseBlock.steps .anywhere)
    have hthen : Steps (anywhere false) false (inferType thenValue) := thenValue.steps .anywhere
    have helse : Steps (anywhere false) false (inferType elseValue) := elseValue.steps .anywhere
    rw [inferType_ifElse]
    generalize checkBranches condition thenBlock elseBlock = c at *
    generalize inferType thenValue = x at *
    generalize inferType elseValue = y at *
    -- the values are inferred in later states with the same scopes
    obtain ⟨front, hmove⟩ := hfront.moves a
    obtain ⟨found, hfirst, hfound, hmove'⟩ := hthen.same_found hmove
    obtain ⟨found', hsecond, hfound', hmove''⟩ := helse.same_found hmove'
    have hwhole : StateT.run (c >>= fun _ => x >>= fun t => y >>= fun e => agreeTypes span t e) a
        = (agreeTypes span (x.run (c.run a).2).1 (y.run (x.run (c.run a).2).2).1).run
          (y.run (x.run (c.run a).2).2).2 := rfl
    refine ⟨(c.run a).2.file, (x.run (c.run a).2).2.file, (y.run (x.run (c.run a).2).2).2.file,
      front, found, found', ?_⟩
    dsimp only
    rw [hwhole, run_agreeTypes, ← hfirst, ← hsecond]
    split
    · exact ⟨hmove''.scopes, hfound, hfound', rfl, by rw [List.append_nil]; exact hmove''.issues⟩
    · refine ⟨hmove''.scopes, hfound, hfound', rfl, ?_⟩
      rw [← List.append_assoc, ← hmove''.issues]
      rfl
  · rw [inferType, run_resolve]
    cases a.scopes.resolve name with
    | none =>
      refine iff_of_false (fun h => ?_) Bool.false_ne_true
      have h : a.issues ++ [_] = a.issues := h
      simp at h
    | some s => exact iff_of_true rfl rfl

/-- A name that only the value block declares is undefined in the value. -/
theorem value_outside :
    findsOnly "let y = if (true) \x7b let x = 1; x \x7d else \x7b 2 \x7d;"
      [.undefinedSymbol "x", .branchMismatch "unknown" "int"] = true := by
  decide +kernel

end SketchCompiler
