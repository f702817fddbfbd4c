/-
The order of declarations does not matter to the findings of an analysis:
functions, structs and tasks of different names can stand in any order
(`Program.analyze_perm`).

# The passes

The first two passes declare names.  Each declaration looks at its own
name only and changes only what is known of it (`Local`), so that two of
different names commute up to the order of what they leave.  The last
pass visits bodies; it depends on what is known of names, not on the
order (`Agrees`).
-/
import SketchCompiler.Proofs.CheckSteps

namespace SketchCompiler

open List Check

variable {a b : Analysis} {name name' : String} {d e : Stmt}

/-- The name that a function, a struct or a task declares. -/
def Stmt.declaredName? : Stmt → Option String
  | .functionDecl _ name .. | .structDecl _ name .. | .taskDecl _ name .. => some name
  | _ => none

-- ==== single names

/-- Two states know the same of a name. -/
structure Analysis.SameAt (name : String) (a b : Analysis) : Prop where
  file : b.file = a.file
  globals : b.scopes.globals.get? name = a.scopes.globals.get? name
  structs : b.structs.lookup name = a.structs.lookup name
  tasks : b.tasks.contains name = a.tasks.contains name

/-- Two states differ in what they know of a name, and in findings, at
most. -/
structure Analysis.SameBut (name : String) (a b : Analysis) : Prop where
  board : b.board = a.board
  file : b.file = a.file
  inner : b.scopes.inner = a.scopes.inner
  returnType : b.returnType = a.returnType
  others : ∀ other, other ≠ name → a.SameAt other b

theorem Analysis.Alike.sameAt (h : a.Alike b) (name : String) : a.SameAt name b :=
  ⟨h.file, h.scopes.globals name, h.structs name, h.tasks name⟩

theorem Analysis.SameAt.symm (h : a.SameAt name b) : b.SameAt name a :=
  ⟨h.file.symm, h.globals.symm, h.structs.symm, h.tasks.symm⟩

theorem Analysis.SameAt.trans (h : a.SameAt name b) (h' : b.SameAt name c) : a.SameAt name c :=
  ⟨h'.file.trans h.file, h'.globals.trans h.globals, h'.structs.trans h.structs,
    h'.tasks.trans h.tasks⟩

theorem Analysis.SameBut.refl (a : Analysis) : a.SameBut name a :=
  ⟨rfl, rfl, rfl, rfl, fun _ _ => ⟨rfl, rfl, rfl, rfl⟩⟩

theorem Analysis.SameBut.trans (h : a.SameBut name b) (h' : b.SameBut name c) :
    a.SameBut name c where
  board := h'.board.trans h.board
  file := h'.file.trans h.file
  inner := h'.inner.trans h.inner
  returnType := h'.returnType.trans h.returnType
  others other hother := (h.others other hother).trans (h'.others other hother)

/-- The check looks at one name only, and changes only what is known of
it. -/
def Local {α : Type} (name : String) (c : Check α) : Prop :=
  ∀ a b : Analysis, a.SameAt name b → (c.run a).1 = (c.run b).1
    ∧ (c.run a).2.SameAt name (c.run b).2
    ∧ a.SameBut name (c.run a).2 ∧ b.SameBut name (c.run b).2
    ∧ ∃ more, (c.run a).2.issues = a.issues ++ more ∧ (c.run b).2.issues = b.issues ++ more

namespace Local

variable {α β : Type} {name : String}

theorem pure (x : α) : Local name (pure x : Check α) :=
  fun a b h => ⟨rfl, h, .refl a, .refl b, [], (append_nil _).symm, (append_nil _).symm⟩

theorem bind (hc : Local name c) (hf : ∀ x, Local name (f x)) : Local name (c >>= f) := by
  intro a b h
  obtain ⟨hresult, hsame, hbut, hbut', more, hmore, hmore'⟩ := hc a b h
  obtain ⟨hresult₂, hsame₂, hbut₂, hbut₂', more₂, hmore₂, hmore₂'⟩ := hf (c.run a).1 _ _ hsame
  have hrun : (c >>= f).run b = (f (c.run a).1).run (c.run b).2 := by
    rw [hresult]
    rfl
  rw [hrun]
  refine ⟨hresult₂, hsame₂, hbut.trans hbut₂, hbut'.trans hbut₂', more ++ more₂, ?_, ?_⟩
  · rw [← append_assoc, ← hmore]
    exact hmore₂
  · rw [← append_assoc, ← hmore']
    exact hmore₂'

/-- A check that asks for what is known of the name. -/
theorem ask (hsame : ∀ a b, a.SameAt name b → f a = f b) (hf : ∀ a, Local name (f a)) :
    Local name (get >>= f) := by
  intro a b h
  have hrun : (get >>= f).run b = (f a).run b := by
    rw [hsame a b h]
    rfl
  rw [hrun]
  exact hf a a b h

theorem report (span : Span) (finding : Finding) : Local name (report span finding) := by
  intro a b h
  refine ⟨rfl, ⟨h.file, h.globals, h.structs, h.tasks⟩,
    ⟨rfl, rfl, rfl, rfl, fun _ _ => ⟨rfl, rfl, rfl, rfl⟩⟩,
    ⟨rfl, rfl, rfl, rfl, fun _ _ => ⟨rfl, rfl, rfl, rfl⟩⟩,
    [⟨finding, a.file, span.startLine, span.startCol⟩], rfl, ?_⟩
  rw [← h.file]
  rfl

theorem reportIf (condition : Bool) (span : Span) (finding : Finding) :
    Local name (reportIf condition span finding) := by
  cases condition with
  | false => exact .pure ()
  | true => exact .report span finding

theorem declareFields (struct : String) (fields : List StructField) (layout : StructLayout) :
    Local name (declareFields struct fields layout) := by
  induction fields generalizing layout with
  | nil => exact .pure layout
  | cons f fields ih =>
    rw [SketchCompiler.declareFields]
    split
    · exact .bind (.report _ _) fun _ => ih layout
    · exact ih _

/-- A change of what is known of the name. -/
theorem learn (hissues : ∀ a, (f a).issues = a.issues)
    (hbut : ∀ a : Analysis, a.SameBut name (f a))
    (hsame : ∀ a b : Analysis, a.SameAt name b → (f a).SameAt name (f b)) :
    Local name (modify f : Check Unit) := by
  intro a b h
  refine ⟨rfl, hsame a b h, hbut a, hbut b, [], ?_, ?_⟩
  · rw [append_nil]
    exact hissues a
  · rw [append_nil]
    exact hissues b

theorem learnStruct (layout : StructLayout) :
    Local name (modify fun a =>
      { a with structs := a.structs ++ [(name, layout)] } : Check Unit) := by
  refine .learn (fun _ => rfl) (fun a => ⟨rfl, rfl, rfl, rfl, fun other hother => ?_⟩)
    fun a b h => ?_
  · have hkey : (other == name) = false := beq_false_of_ne hother
    refine ⟨rfl, rfl, ?_, rfl⟩
    rw [lookup_append, lookup_cons, hkey]
    exact Option.or_none
  · refine ⟨h.file, h.globals, ?_, h.tasks⟩
    rw [lookup_append, lookup_append, h.structs]

theorem learnTask :
    Local name (modify fun a => { a with tasks := a.tasks ++ [name] } : Check Unit) := by
  have hcontains : ∀ (tasks : List String) (other : String),
      (tasks ++ [name]).contains other = (tasks.contains other || [name].contains other) :=
    fun tasks other => contains_append
  refine .learn (fun _ => rfl) (fun a => ⟨rfl, rfl, rfl, rfl, fun other hother => ?_⟩)
    fun a b h => ?_
  · refine ⟨rfl, rfl, rfl, (hcontains _ _).trans ?_⟩
    simp [hother]
  · refine ⟨h.file, h.globals, h.structs, ?_⟩
    rw [hcontains, hcontains, h.tasks]

theorem defineGlobal (hs : s.name = name) : Local name (defineGlobal s) := by
  -- what a definition does, by whether the name is taken
  have hrun : ∀ a : Analysis,
      (∃ old, a.scopes.globals.get? name = some old ∧ (Check.defineGlobal s).run a = (false, a))
        ∨ a.scopes.globals.get? name = none ∧ ∃ globals, a.scopes.globals.define s = some globals
          ∧ (Check.defineGlobal s).run a
            = (true, { a with scopes := { a.scopes with globals } }) := by
    intro a
    rw [← hs]
    rcases a.scopes.globals.define_cases s with ⟨old, hold, hnone⟩ | ⟨hfree, globals, hglobals⟩
    · refine .inl ⟨old, hold, ?_⟩
      simp only [Check.defineGlobal, StateT.run_bind, StateT.run_get, pure_bind,
        ScopeChain.defineGlobal, hnone]
      rfl
    · refine .inr ⟨hfree, globals, hglobals, ?_⟩
      simp only [Check.defineGlobal, StateT.run_bind, StateT.run_get, pure_bind,
        ScopeChain.defineGlobal, hglobals]
      rfl
  have hbut : ∀ {a : Analysis} {globals : SymbolTable}, a.scopes.globals.define s = some globals →
      a.SameBut name { a with scopes := { a.scopes with globals } } := by
    intro a globals hglobals
    refine ⟨rfl, rfl, rfl, rfl, fun other hother => ⟨rfl, ?_, rfl, rfl⟩⟩
    rw [SymbolTable.get?_define hglobals, if_neg]
    rw [hs]
    exact hother.symm
  intro a b h
  rcases hrun a with ⟨old, hold, ha⟩ | ⟨hfree, globals, hglobals, ha⟩
  · rcases hrun b with ⟨-, -, hb⟩ | ⟨hfree', -⟩
    · rw [ha, hb]
      exact Local.pure false a b h
    · rw [h.globals, hold] at hfree'
      cases hfree'
  · rcases hrun b with ⟨old', hold', -⟩ | ⟨-, globals', hglobals', hb⟩
    · rw [h.globals, hfree] at hold'
      cases hold'
    · rw [ha, hb]
      refine ⟨rfl, ⟨h.file, ?_, h.structs, h.tasks⟩, hbut hglobals, hbut hglobals', [],
        (append_nil _).symm, (append_nil _).symm⟩
      rw [SymbolTable.get?_define hglobals, SymbolTable.get?_define hglobals', if_pos hs,
        if_pos hs]

end Local

theorem declareType_local (h : d.declaredName? = some name) : Local name (declareType d) := by
  unfold declareType
  split
  · rename_i span struct fields
    cases h
    refine .ask (fun a b hsame => ?_) fun a => ?_
    · rw [hsame.structs]
    split
    · exact .report _ _
    · exact .bind (.declareFields _ _ _) fun layout => .bind (.learnStruct layout) fun _ =>
        .bind (.defineGlobal rfl) fun _ => .reportIf _ _ _
  · rename_i span task decorators body
    cases h
    refine .ask (fun a b hsame => ?_) fun a => ?_
    · rw [hsame.tasks]
    split
    · exact .report _ _
    · exact .bind .learnTask fun _ => .bind (.defineGlobal rfl) fun _ => .reportIf _ _ _
  · exact .pure ()

theorem declareFunction_local (h : d.declaredName? = some name) :
    Local name (declareFunction d) := by
  unfold declareFunction
  split
  · cases h
    exact .bind (.defineGlobal rfl) fun _ => .reportIf _ _ _
  · exact .pure ()

-- ==== equivalent states

/-- Two states that know the same and have found the same, in whatever
order. -/
structure Analysis.Equivalent (a b : Analysis) : Prop where
  alike : a.Alike b
  issues : a.issues.Perm b.issues

theorem Analysis.Equivalent.refl (a : Analysis) : a.Equivalent a := ⟨.refl a, .refl _⟩

theorem Analysis.Alike.of_sameBut (h : a.Alike b) (ha : a.SameBut name a')
    (hb : b.SameBut name b') (hname : a'.SameAt name b') : a'.Alike b' := by
  have hall : ∀ other, a'.SameAt other b' := by
    intro other
    by_cases hother : other = name
    · rw [hother]
      exact hname
    · exact (ha.others other hother).symm.trans
        ((h.sameAt other).trans (hb.others other hother))
  exact ⟨hb.board.trans (h.board.trans ha.board.symm), hname.file,
    ⟨hb.inner.trans (h.scopes.inner.trans ha.inner.symm), fun other => (hall other).globals⟩,
    fun other => (hall other).structs, fun other => (hall other).tasks,
    hb.returnType.trans (h.returnType.trans ha.returnType.symm)⟩

theorem Local.equivalent (hc : Local name c) (h : a.Equivalent b) :
    (c.run a).2.Equivalent (c.run b).2 := by
  obtain ⟨-, hsame, hbut, hbut', more, hmore, hmore'⟩ := hc a b (h.alike.sameAt name)
  refine ⟨h.alike.of_sameBut hbut hbut' hsame, ?_⟩
  rw [hmore, hmore']
  exact h.issues.append_right more

/-- Checks that are local to different names commute. -/
theorem Local.comm (hc : Local name c) (hc' : Local name' c') (hne : name ≠ name')
    (h : a.Equivalent b) : (c'.run (c.run a).2).2.Equivalent (c.run (c'.run b).2).2 := by
  have hbut : a.SameBut name (c.run a).2 := (hc a b (h.alike.sameAt name)).2.2.1
  have hbut' : b.SameBut name' (c'.run b).2 := (hc' a b (h.alike.sameAt name')).2.2.2.1
  -- the second step of one order is the first of the other, as far as its name goes
  obtain ⟨-, hsame', hlast, -, more', hmore', hfirst'⟩ := hc' (c.run a).2 b
    ((hbut.others name' hne.symm).symm.trans (h.alike.sameAt name'))
  obtain ⟨-, hsame, -, hlast', more, hfirst, hmore⟩ := hc a (c'.run b).2
    ((h.alike.sameAt name).trans (hbut'.others name hne))
  have hall : ∀ other, (c'.run (c.run a).2).2.SameAt other (c.run (c'.run b).2).2 := by
    intro other
    by_cases hother : other = name
    · rw [hother]
      exact (hlast.others name hne).symm.trans hsame
    by_cases hother' : other = name'
    · rw [hother']
      exact hsame'.trans (hlast'.others name' hne.symm)
    · have hleft := (hbut.others other hother).trans (hlast.others other hother')
      have hright := (hbut'.others other hother').trans (hlast'.others other hother)
      exact hleft.symm.trans ((h.alike.sameAt other).trans hright)
  refine ⟨⟨?_, (hall name).file, ⟨?_, fun other => (hall other).globals⟩,
    fun other => (hall other).structs, fun other => (hall other).tasks, ?_⟩, ?_⟩
  · rw [hlast'.board, hbut'.board, h.alike.board, hlast.board, hbut.board]
  · rw [hlast'.inner, hbut'.inner, h.alike.scopes.inner, hlast.inner, hbut.inner]
  · rw [hlast'.returnType, hbut'.returnType, h.alike.returnType, hlast.returnType,
      hbut.returnType]
  · rw [hmore', hmore, hfirst, hfirst', append_assoc, append_assoc]
    exact h.issues.append perm_append_comm

-- ==== the passes

/-- A pass that declares names: what declares none is left out. -/
structure DeclaresNames (pass : Stmt → Check Unit) : Prop where
  named : ∀ d name, d.declaredName? = some name → Local name (pass d)
  unnamed : ∀ d, d.declaredName? = none → pass d = pure ()

theorem declareType_names : DeclaresNames declareType where
  named _ _ := declareType_local
  unnamed d h := by
    cases d with
    | structDecl => cases h
    | taskDecl => cases h
    | _ => rfl

theorem declareFunction_names : DeclaresNames declareFunction where
  named _ _ := declareFunction_local
  unnamed d h := by
    cases d with
    | functionDecl => cases h
    | _ => rfl

namespace DeclaresNames

variable {pass : Stmt → Check Unit} {a b : Analysis}

theorem equivalent (hpass : DeclaresNames pass) (h : a.Equivalent b) (d : Stmt) :
    ((pass d).run a).2.Equivalent ((pass d).run b).2 := by
  cases hname : d.declaredName? with
  | none =>
    rw [hpass.unnamed d hname]
    exact h
  | some name => exact (hpass.named d name hname).equivalent h

theorem forM_equivalent (hpass : DeclaresNames pass) (h : a.Equivalent b) (ds : List Stmt) :
    ((ds.forM pass).run a).2.Equivalent ((ds.forM pass).run b).2 := by
  induction ds generalizing a b with
  | nil => exact h
  | cons d ds ih => exact ih (hpass.equivalent h d)

theorem forM_swap (hpass : DeclaresNames pass) (h : a.Equivalent b) (front back : List Stmt)
    (hd : d.declaredName? = some name) (he : e.declaredName? = some name') (hne : name ≠ name') :
    (((front ++ d :: e :: back).forM pass).run a).2.Equivalent
      (((front ++ e :: d :: back).forM pass).run b).2 := by
  induction front generalizing a b with
  | nil =>
    exact hpass.forM_equivalent ((hpass.named d name hd).comm (hpass.named e name' he) hne h) back
  | cons f front ih => exact ih (hpass.equivalent h f)

end DeclaresNames

-- ==== the visits

theorem Agrees.equivalent (hc : Agrees defines c) (h : a.Equivalent b) :
    (c.run a).2.Equivalent (c.run b).2 := by
  obtain ⟨-, halike, more, hmove, hmove'⟩ := hc a b h.alike
  refine ⟨halike, ?_⟩
  rw [hmove.issues, hmove'.issues]
  exact h.issues.append_right more

theorem visit_declaration (h : d.declaredName? = some name) :
    Agrees false (visit d) := by
  have hsteps : Steps (anywhere false) d.defines (visit d) := d.steps .anywhere
  cases d with
  | functionDecl | structDecl | taskDecl => exact hsteps.agrees
  | _ => cases h

theorem Analysis.Moves.alike (h : a.Moves false more a') (h' : b.Moves false more' b')
    (hab : a.Alike b) :
    ({ a' with file := b'.file } : Analysis).Alike b' where
  board := h'.board.trans (hab.board.trans h.board.symm)
  file := rfl
  scopes := by
    have hscopes : a'.scopes = a.scopes := h.scopes
    have hscopes' : b'.scopes = b.scopes := h'.scopes
    rw [hscopes, hscopes']
    exact hab.scopes
  structs name := by
    rw [h'.structs, h.structs]
    exact hab.structs name
  tasks name := by
    rw [h'.tasks, h.tasks]
    exact hab.tasks name
  returnType := h'.returnType.trans (hab.returnType.trans h.returnType.symm)

theorem visit_swap (hd : d.declaredName? = some name) (he : e.declaredName? = some name')
    (h : a.Equivalent b) :
    ∃ file, ({ ((visit e).run ((visit d).run a).2).2 with file } : Analysis).Equivalent
      ((visit d).run ((visit e).run b).2).2 := by
  have hvisit := visit_declaration hd
  have hvisit' := visit_declaration he
  -- the second visit of one order is the first of the other
  obtain ⟨-, -, _, hmove, -⟩ := hvisit a b h.alike
  obtain ⟨-, -, more', hlast, hmove'⟩ := hvisit' _ b (hmove.alike (.refl b) h.alike)
  obtain ⟨-, -, more, hfirst, hlast'⟩ := hvisit a _ (hmove'.alike (.refl a) h.alike.symm).symm
  rw [visit_file e ((visit d).run a).2] at hlast
  rw [visit_file d ((visit e).run b).2] at hlast'
  have hboth : a.Moves false (more ++ more') ((visit e).run ((visit d).run a).2).2 :=
    hfirst.trans ⟨hlast.board, hlast.structs, hlast.tasks, hlast.returnType, hlast.scopes,
      hlast.issues⟩
  have hboth' : b.Moves false (more' ++ more) ((visit d).run ((visit e).run b).2).2 :=
    hmove'.trans ⟨hlast'.board, hlast'.structs, hlast'.tasks, hlast'.returnType, hlast'.scopes,
      hlast'.issues⟩
  refine ⟨_, hboth.alike hboth' h.alike, ?_⟩
  rw [hboth'.issues]
  show List.Perm ((visit e).run ((visit d).run a).2).2.issues _
  rw [hboth.issues]
  exact h.issues.append perm_append_comm

theorem visitAll_swap (hd : d.declaredName? = some name) (he : e.declaredName? = some name')
    (front back : List Stmt) (h : a.Equivalent b) :
    ((visitAll (front ++ d :: e :: back)).run a).2.issues.Perm
      ((visitAll (front ++ e :: d :: back)).run b).2.issues := by
  induction front generalizing a b with
  | nil =>
    obtain ⟨file, hswap⟩ := visit_swap hd he h
    cases back with
    | nil => exact hswap.issues
    | cons s back =>
      have hsteps : Steps (anywhere false) true (visitAll (s :: back)) := stmtsSteps _ .anywhere
      have hback := (hsteps.agrees.equivalent hswap).issues
      -- the next visit does not see the file
      have hfile (c : Analysis) : (visitAll (s :: back)).run { c with file }
          = (visitAll (s :: back)).run c := by
        show (visitAll back).run ((visit s).run { c with file }).2 = _
        rw [visit_file]
        rfl
      rw [hfile] at hback
      exact hback
  | cons f front ih => exact ih ((f.steps .anywhere).agrees.equivalent h)

-- ==== whole programs

theorem Program.analyze_swap (board : String) (span : Span) (front back : List Stmt)
    (hd : d.declaredName? = some name) (he : e.declaredName? = some name') (hne : name ≠ name') :
    ((Program.mk span (front ++ d :: e :: back)).analyze board).issues.Perm
      ((Program.mk span (front ++ e :: d :: back)).analyze board).issues := by
  have htypes := declareType_names.forM_swap (.refl (.start board)) front back hd he hne
  have hfunctions := declareFunction_names.forM_swap htypes front back hd he hne
  exact visitAll_swap hd he front back hfunctions

/-- The findings of an analysis do not depend on the order of functions,
structs and tasks: a run of them with different names can be put in any
order, and the same is found, at the same places and of the same
severity. -/
theorem Program.analyze_perm (board : String) (span : Span) (front back : List Stmt)
    {run run' : List Stmt} (hdeclared : ∀ d ∈ run, d.declaredName?.isSome)
    (hnames : (run.map Stmt.declaredName?).Nodup) (hperm : run.Perm run') :
    ((Program.mk span (front ++ run ++ back)).analyze board).issues.Perm
      ((Program.mk span (front ++ run' ++ back)).analyze board).issues := by
  induction hperm generalizing front back with
  | nil => exact .refl _
  | cons d hperm ih =>
    have hfront := ih (front ++ [d]) back (fun e he => hdeclared e (List.mem_cons_of_mem d he))
      (List.nodup_cons.mp hnames).2
    rw [← List.append_cons, ← List.append_cons] at hfront
    exact hfront
  | swap d e rest =>
    obtain ⟨name, hname⟩ := Option.isSome_iff_exists.mp (hdeclared e (by simp))
    obtain ⟨name', hname'⟩ := Option.isSome_iff_exists.mp (hdeclared d (by simp))
    have hne : name ≠ name' := by
      rintro rfl
      refine (List.nodup_cons.mp hnames).1 ?_
      rw [List.map_cons, hname, hname']
      exact List.mem_cons_self
    rw [List.append_assoc, List.append_assoc]
    exact analyze_swap board span front (rest ++ back) hname hname' hne
  | trans hperm _ ih ih' =>
    refine (ih front back hdeclared hnames).trans (ih' front back (fun d hd => ?_) ?_)
    · exact hdeclared d (hperm.mem_iff.mpr hd)
    · exact (hperm.map _).nodup_iff.mp hnames

/-- A task that returns an unknown name, a function that starts it and uses
another one, and a struct with a field named twice. -/
def mixedRun (span : Span) : List Stmt :=
  [.taskDecl span "blink" [] (some (.mk span [.returnValue span (some (.ident span "lost"))])),
   .functionDecl span "start" [] "void"
     (.mk span [.spawn span "blink", .expr span (.ident span "gone")]),
   .structDecl span "Led" [⟨span, "pin", "int"⟩, ⟨span, "pin", "int"⟩]]

/-- A program of these declarations. -/
def mixedProgram (declarations : List Stmt) : Program :=
  { span := { file := "sketch" }, declarations := [] ++ declarations ++ [] }

/-- The same is found when these declarations are written in reverse. -/
theorem Program.analyze_perm_mixed :
    (∀ d ∈ mixedRun { file := "sketch" }, d.declaredName?.isSome)
      ∧ ((mixedRun { file := "sketch" }).map Stmt.declaredName?).Nodup
      ∧ ((mixedProgram (mixedRun { file := "sketch" })).analyze "esp32").issues.length = 4
      ∧ ((mixedProgram (mixedRun { file := "sketch" })).analyze "esp32").issues.Perm
        ((mixedProgram (mixedRun { file := "sketch" }).reverse).analyze "esp32").issues := by
  have hall : (mixedRun { file := "sketch" }).all (·.declaredName?.isSome) = true := rfl
  have hdeclared := List.all_eq_true.mp hall
  have hnames : ((mixedRun { file := "sketch" }).map Stmt.declaredName?).Nodup := by decide
  exact ⟨hdeclared, hnames, by decide +kernel,
    analyze_perm "esp32" { file := "sketch" } [] [] hdeclared hnames (List.reverse_perm _).symm⟩

end SketchCompiler
