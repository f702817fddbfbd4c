/-
Where the findings of an analysis stand.  Every finding is reported at the
start of a span of the declaration that the analysis is busy with, in the
file that it has entered last (`Finds`).  A visit enters the file of every
statement that it comes to, so what it finds is in the file of the
declaration; the two passes in front of it, which collect declarations,
enter no file at all (`Finding.isDeclaring`).

`Program.attributed` pairs each finding with the declaration that it was
made for, pass by pass; the findings alone are those of the analysis, in
order (`Program.attributed_issues`).
-/
import SketchCompiler.Proofs.DeclarationSwap

namespace SketchCompiler

open Check

open List hiding head tail span

variable {file : String}
  {pass : Stmt → Check Unit} {d : Stmt} {i : Issue}

-- ==== findings

/-- The place that an issue is reported at. -/
def Issue.place (i : Issue) : Pos :=
  ⟨i.line, i.column⟩

/-- The issue stands in the file, at the start of one of the spans. -/
structure Issue.At (declaring : Bool) (file : String) (places : List Span) (i : Issue) : Prop where
  kind : i.finding.isDeclaring = declaring
  file : i.file = file
  place : ∃ s ∈ places, s.start = i.place

/-- From a state in the file, the check stays there and reports only at
the spans. -/
def Finds {α : Type} (declaring : Bool) (file : String) (places : List Span) (c : Check α) :
    Prop :=
  ∀ a : Analysis, a.file = file → (c.run a).2.file = file
    ∧ ∃ more, (c.run a).2.issues = a.issues ++ more ∧ ∀ i ∈ more, i.At declaring file places

namespace Finds

variable {α β : Type} {declaring : Bool} {file : String} {places : List Span}

theorem silent {c : Check α} (hfile : ∀ a, (c.run a).2.file = a.file)
    (hissues : ∀ a, (c.run a).2.issues = a.issues) : Finds declaring file places c :=
  fun a h => ⟨(hfile a).trans h, [], by rw [hissues, append_nil], nofun⟩

theorem pure (x : α) : Finds declaring file places (pure x : Check α) :=
  silent (fun _ => rfl) fun _ => rfl

theorem bind (hc : Finds declaring file places c) (hf : ∀ x, Finds declaring file places (f x)) :
    Finds declaring file places (c >>= f) := by
  intro a h
  obtain ⟨hfile, more, hmore, hat⟩ := hc a h
  obtain ⟨hfile', more', hmore', hat'⟩ := hf (c.run a).1 (c.run a).2 hfile
  refine ⟨hfile', more ++ more', ?_, forall_mem_append.mpr ⟨hat, hat'⟩⟩
  rw [← append_assoc, ← hmore]
  exact hmore'

theorem ask (hf : ∀ a, Finds declaring file places (f a)) :
    Finds declaring file places (get >>= f) :=
  fun a => hf a a

theorem report (hspan : span ∈ places) (hkind : finding.isDeclaring = declaring) :
    Finds declaring file places (report span finding) :=
  fun _ h => ⟨h, [_], rfl, forall_mem_singleton.mpr ⟨hkind, h, span, hspan, rfl⟩⟩

theorem reportIf (condition : Bool) (hspan : span ∈ places)
    (hkind : finding.isDeclaring = declaring) :
    Finds declaring file places (reportIf condition span finding) := by
  cases condition with
  | false => exact .pure ()
  | true => exact .report hspan hkind

theorem enterFile (h : file' = file) : Finds declaring file places (enterFile file') :=
  fun _ _ => ⟨h, [], (append_nil _).symm, nofun⟩

theorem layout? (name : String) : Finds declaring file places (layout? name) :=
  silent (fun _ => rfl) fun _ => rfl

theorem define (s : Symbol) : Finds declaring file places (define s) := by
  refine .ask fun a => ?_
  split
  · exact .bind (.silent (fun _ => rfl) fun _ => rfl) fun _ => .pure _
  · exact .pure _

theorem defineGlobal (s : Symbol) : Finds declaring file places (defineGlobal s) := by
  refine .ask fun a => ?_
  split
  · exact .bind (.silent (fun _ => rfl) fun _ => rfl) fun _ => .pure _
  · exact .pure _

/-- What is done in a scope of its own. -/
theorem scope {c : Check Unit} (hc : Finds declaring file places c) :
    Finds declaring file places (openScope >>= fun _ => c >>= fun _ => closeScope) :=
  .bind (.silent (fun _ => rfl) fun _ => rfl) fun _ => .bind hc fun _ =>
    .silent (fun _ => rfl) fun _ => rfl

theorem returning (type : String) {c : Check Unit} (hc : Finds declaring file places c) :
    Finds declaring file places (returning type c) :=
  .ask fun _ => .bind (.silent (fun _ => rfl) fun _ => rfl) fun _ => .bind hc fun _ =>
    .silent (fun _ => rfl) fun _ => rfl

end Finds

theorem Steps.finds (h : Steps (⟨(· = file), (· ∈ places)⟩ : Reach declaring) defines c) :
    Finds declaring file places c := by
  induction h with
  | pure x => exact .pure x
  | bind _ _ hc hf => exact .bind hc hf
  | ask _ _ hf => exact .ask hf
  | report hspan hkind => exact .report hspan hkind
  | enterFile h => exact .enterFile h
  | define s => exact .define s
  | scope _ hc => exact .scope hc
  | returning _ _ hc => exact .returning _ hc

-- ==== passes

theorem Stmt.visit_finds (h : ∀ span ∈ s.spans, span.file = file) (a : Analysis) :
    ∃ more, ((visit s).run a).2.issues = a.issues ++ more
      ∧ ∀ i ∈ more, i.At false file s.spans := by
  have hinside : Inside ⟨(· = file), (· ∈ s.spans)⟩ s.spans :=
    fun span hspan => ⟨hspan, h span hspan⟩
  rw [← visit_file s a s.span.file]
  exact ((s.steps hinside).finds { a with file := s.span.file } (h _ s.span_mem_spans)).2

theorem declareFields_finds (struct : String) (h : ∀ f ∈ fields, f.span ∈ places)
    (layout : StructLayout) : Finds true file places (declareFields struct fields layout) := by
  induction fields generalizing layout with
  | nil => exact .pure _
  | cons f fields ih =>
    obtain ⟨hf, hfields⟩ := forall_mem_cons.mp h
    unfold declareFields
    split
    · exact .bind (.report hf rfl) fun _ => ih hfields _
    · exact ih hfields _

theorem declareType_finds {file : String} (d : Stmt) :
    Finds true file d.spans (declareType d) := by
  unfold declareType
  split
  · rename_i span name fields
    have hspan : span ∈ (Stmt.structDecl span name fields).spans := mem_cons_self
    have hfields : ∀ f ∈ fields, f.span ∈ (Stmt.structDecl span name fields).spans :=
      fun f hf => mem_cons_of_mem _ (mem_map_of_mem hf)
    refine .bind (.layout? name) fun layout => ?_
    split
    · exact .report hspan rfl
    · exact .bind (declareFields_finds name hfields []) fun _ =>
        .bind (.silent (fun _ => rfl) fun _ => rfl) fun _ => .bind (.defineGlobal _) fun _ =>
          .reportIf _ hspan rfl
  · rename_i span name decorators body
    have hspan : span ∈ (Stmt.taskDecl span name decorators body).spans := mem_cons_self
    refine .ask fun a => ?_
    split
    · exact .report hspan rfl
    · exact .bind (.silent (fun _ => rfl) fun _ => rfl) fun _ => .bind (.defineGlobal _) fun _ =>
        .reportIf _ hspan rfl
  · exact .pure ()

theorem declareFunction_finds (d : Stmt) : Finds true file d.spans (declareFunction d) := by
  unfold declareFunction
  split
  · exact .bind (.defineGlobal _) fun _ => .reportIf _ mem_cons_self rfl
  · exact .pure ()

/-- What a pass over declarations finds, each with the declaration that it
was found at. -/
def foundIn (pass : Stmt → Check Unit) : List Stmt → Analysis → List (Stmt × Issue)
  | [], _ => []
  | d :: ds, a =>
    let next := ((pass d).run a).2
    (next.issues.drop a.issues.length).map (d, ·) ++ foundIn pass ds next

theorem issues_foundIn (hadds : ∀ d a, ∃ more, ((pass d).run a).2.issues = a.issues ++ more)
    (ds : List Stmt) (a : Analysis) :
    ((ds.forM pass).run a).2.issues = a.issues ++ (foundIn pass ds a).map (·.2) := by
  induction ds generalizing a with
  | nil => exact (append_nil _).symm
  | cons d ds ih =>
    obtain ⟨more, hmore⟩ := hadds d a
    have hrest := ih ((pass d).run a).2
    have hsnd : (((more.map (d, ·))).map (·.2) : List Issue) = more := by
      rw [map_map]
      exact map_id more
    unfold foundIn
    dsimp only
    rw [hmore, drop_left, map_append, hsnd, ← append_assoc, ← hmore]
    exact hrest

theorem mem_foundIn {I : Analysis → Prop} {P : Stmt → Issue → Prop} {ds : List Stmt}
    (hpass : ∀ d ∈ ds, ∀ a, I a → I ((pass d).run a).2
      ∧ ∃ more, ((pass d).run a).2.issues = a.issues ++ more ∧ ∀ i ∈ more, P d i) {a : Analysis}
    (ha : I a) (h : (d, i) ∈ foundIn pass ds a) : d ∈ ds ∧ P d i := by
  induction ds generalizing a with
  | nil => cases h
  | cons d' ds ih =>
    obtain ⟨hfirst, hds⟩ := forall_mem_cons.mp hpass
    obtain ⟨hnext, more, hmore, hall⟩ := hfirst a ha
    unfold foundIn at h
    dsimp only at h
    rw [hmore, drop_left] at h
    rcases mem_append.mp h with h | h
    · obtain ⟨i', hi', heq⟩ := mem_map.mp h
      cases heq
      exact ⟨mem_cons_self, hall i hi'⟩
    · obtain ⟨hd, hP⟩ := ih hds hnext h
      exact ⟨mem_cons_of_mem _ hd, hP⟩

-- ==== whole programs

/-- The findings of an analysis, each with the declaration that it was
found at: first those made while structs and tasks are collected, then
those about functions, then those of the visit. -/
def Program.attributed (board : String) (p : Program) : List (Stmt × Issue) :=
  let types := ((p.declarations.forM declareType).run (Analysis.start board)).2
  let functions := ((p.declarations.forM declareFunction).run types).2
  foundIn declareType p.declarations (Analysis.start board)
    ++ (foundIn declareFunction p.declarations types
      ++ foundIn (visit) p.declarations functions)

theorem visitAll_eq_forM (ss : List Stmt) : visitAll ss = ss.forM (visit) := by
  induction ss with
  | nil => rfl
  | cons s ss ih =>
    rw [visitAll, ih]
    rfl

theorem Program.attributed_issues (board : String) (p : Program) :
    (p.attributed board).map (·.2) = (p.analyze board).issues := by
  have htypes (d : Stmt) (a : Analysis) :
      ∃ more, ((declareType d).run a).2.issues = a.issues ++ more :=
    (declareType_finds d a rfl).2.imp fun _ h => h.1
  have hfunctions (d : Stmt) (a : Analysis) :
      ∃ more, ((declareFunction d).run a).2.issues = a.issues ++ more :=
    (declareFunction_finds d a rfl).2.imp fun _ h => h.1
  have hvisits (d : Stmt) (a : Analysis) :
      ∃ more, ((visit d).run a).2.issues = a.issues ++ more := by
    obtain ⟨more, hmove⟩ := (d.steps .anywhere).moves a
    exact ⟨more, hmove.issues⟩
  have hrun : (p.analyze board).issues = ((p.declarations.forM (visit)).run
      ((p.declarations.forM declareFunction).run
        ((p.declarations.forM declareType).run (Analysis.start board)).2).2).2.issues := by
    rw [← visitAll_eq_forM]
    rfl
  unfold Program.attributed
  rw [hrun, issues_foundIn hvisits, issues_foundIn hfunctions, issues_foundIn htypes,
    map_append, map_append, append_assoc]
  rfl

theorem Program.mem_attributed {board : String} {p : Program}
    (h : ∀ d ∈ p.declarations, ∀ span ∈ d.spans, span.file = d.span.file)
    (hi : (d, i) ∈ p.attributed board) :
    d ∈ p.declarations
      ∧ i.At i.finding.isDeclaring (if i.finding.isDeclaring then "<input>" else d.span.file)
        d.spans := by
  have hdeclaring {d : Stmt} {i : Issue} (hat : i.At true "<input>" d.spans) :
      i.At i.finding.isDeclaring (if i.finding.isDeclaring then "<input>" else d.span.file)
        d.spans := by
    rw [hat.kind]
    exact hat
  -- neither of the first two passes enters a file
  have hpass {pass : Stmt → Check Unit} (hfinds : ∀ d, Finds true "<input>" d.spans (pass d))
      {a : Analysis} (ha : a.file = "<input>") :
      ((p.declarations.forM pass).run a).2.file = "<input>"
        ∧ ((d, i) ∈ foundIn pass p.declarations a → d ∈ p.declarations
          ∧ i.At true "<input>" d.spans) := by
    constructor
    · generalize p.declarations = ds
      induction ds generalizing a with
      | nil => exact ha
      | cons d ds ih => exact ih (hfinds d a ha).1
    · exact mem_foundIn (I := fun a => a.file = "<input>") (fun d _ a ha => hfinds d a ha) ha
  have htypes := hpass declareType_finds (a := Analysis.start board) rfl
  have hfunctions := hpass declareFunction_finds htypes.1
  unfold Program.attributed at hi
  rcases mem_append.mp hi with hi | hi
  · obtain ⟨hd, hat⟩ := htypes.2 hi
    exact ⟨hd, hdeclaring hat⟩
  · rcases mem_append.mp hi with hi | hi
    · obtain ⟨hd, hat⟩ := hfunctions.2 hi
      exact ⟨hd, hdeclaring hat⟩
    · have hvisit := mem_foundIn (I := fun _ => True)
        (P := fun d i => i.At false d.span.file d.spans)
        (fun d hd a _ => ⟨trivial, Stmt.visit_finds (h d hd) a⟩) trivial hi
      refine ⟨hvisit.1, ?_⟩
      rw [hvisit.2.kind]
      exact hvisit.2

end SketchCompiler
