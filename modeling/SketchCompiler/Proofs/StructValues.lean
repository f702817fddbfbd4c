/-
A struct initializer names its fields in any order, and the code gives
the values by position.  If the analysis of a program finds no error, the
positions are right: the struct has one declaration, and its fields take
one value each, in the order of the declaration, which is the only value
that the initializer has for the field (`Program.struct_values`).

The analysis keeps the first declaration of a struct and the generator
the last.  This does not show: while the passes over the declarations
find no error, no name of a struct is taken twice and no name of a field
within its struct (`DistinctLayouts`).
-/
import SketchCompiler.Proofs.Image
import SketchCompiler.Proofs.Visited
import SketchCompiler.Proofs.WrittenProgram

namespace SketchCompiler

open Check

open List hiding head tail span

variable {α β : Type}
  {name : String} {layout : StructLayout} {a : Analysis} {p : Program}

-- ==== unique keys

theorem exists_split_of_nodup (hnodup : (xs.filterMap key).Nodup) (hx : x ∈ xs)
    (hk : key x = some k) :
    ∃ front back, xs = front ++ x :: back ∧ ∀ y ∈ front ++ back, key y ≠ some k := by
  obtain ⟨front, back, rfl⟩ := append_of_mem hx
  refine ⟨front, back, rfl, fun y hy hyk => ?_⟩
  have hmem : k ∈ (front ++ back).filterMap key := mem_filterMap.mpr ⟨y, hy, hyk⟩
  have hperm : ((front ++ x :: back).filterMap key).Perm (k :: (front ++ back).filterMap key) := by
    rw [← filterMap_cons_some hk]
    exact perm_middle.filterMap key
  exact (nodup_cons.mp (hperm.nodup_iff.mp hnodup)).1 hmem

theorem filter_split (hx : kind x = true) (hother : ∀ y ∈ front ++ back, kind y = false) :
    (front ++ x :: back).filter kind = [x] := by
  rw [forall_mem_append] at hother
  have hfront : front.filter kind = [] :=
    filter_eq_nil_iff.mpr fun y hy => Bool.eq_false_iff.mp (hother.1 y hy)
  have hback : back.filter kind = [] :=
    filter_eq_nil_iff.mpr fun y hy => Bool.eq_false_iff.mp (hother.2 y hy)
  rw [filter_append, hfront, filter_cons_of_pos hx, hback]
  rfl

theorem nodup_append_of_lookup {α : Type} {entries : List (String × α)} {value : α}
    (hnodup : (entries.map Prod.fst).Nodup) (h : entries.lookup name = none) :
    ((entries ++ [(name, value)]).map Prod.fst).Nodup := by
  rw [map_append, map_singleton, nodup_append]
  refine ⟨hnodup, pairwise_singleton _ _, fun key hkey other hother => ?_⟩
  obtain ⟨entry, hentry, rfl⟩ := mem_map.mp hkey
  rw [mem_singleton.mp hother]
  have hne := lookup_eq_none_iff.mp h entry hentry
  exact fun heq => bne_iff_ne.mp hne heq.symm

-- ==== declared structs

theorem run_bind (c : Check α) (f : α → Check β) (a : Analysis) :
    (c >>= f).run a = (f (c.run a).1).run (c.run a).2 :=
  rfl

theorem run_layout? (name : String) (f : Option StructLayout → Check α) (a : Analysis) :
    (layout? name >>= f).run a = (f (a.structs.lookup name)).run a :=
  rfl

/-- What a field adds to the layout of its struct. -/
def StructField.entry (f : StructField) : String × String :=
  (f.name, TypeName.normalize f.typeName)

/-- The layout that a struct declares. -/
def Stmt.layout? : Stmt → Option (String × StructLayout)
  | .structDecl _ name fields => some (name, fields.map StructField.entry)
  | _ => none

/-- The statement declares a struct of the name. -/
def Stmt.declaresStruct (name : String) : Stmt → Bool
  | .structDecl _ declared _ => declared == name
  | _ => false

/-- The structs have different names, and so have the fields of each. -/
structure DistinctLayouts (structs : List (String × StructLayout)) : Prop where
  names : (structs.map Prod.fst).Nodup
  fields : ∀ s ∈ structs, (s.2.map Prod.fst).Nodup

theorem DistinctLayouts.add {structs : List (String × StructLayout)} (h : DistinctLayouts structs)
    (hfree : structs.lookup name = none) (hlayout : (layout.map Prod.fst).Nodup) :
    DistinctLayouts (structs ++ [(name, layout)]) where
  names := nodup_append_of_lookup h.names hfree
  fields := forall_mem_append.mpr ⟨h.fields, forall_mem_singleton.mpr hlayout⟩

theorem declareFields_quiet {struct : String} {fields : List StructField}
    (hnodup : (layout.map Prod.fst).Nodup)
    (hquiet : ((declareFields struct fields layout).run a).2.Quiet) :
    ((declareFields struct fields layout).run a).1 = layout ++ fields.map StructField.entry
      ∧ ((layout ++ fields.map StructField.entry).map Prod.fst).Nodup := by
  induction fields generalizing layout with
  | nil =>
    rw [map_nil, append_nil]
    exact ⟨rfl, hnodup⟩
  | cons f fields ih =>
    rw [declareFields] at hquiet ⊢
    cases htaken : layout.lookup f.name with
    | some type =>
      rw [htaken] at hquiet
      have hreport : ((report f.span (.duplicateField f.name struct)).run a).2.Quiet :=
        ((declareFields_steps struct fields layout).later _).quiet hquiet
      exact absurd hreport (not_quiet_report rfl)
    | none =>
      rw [htaken] at hquiet
      have hrest := ih (nodup_append_of_lookup hnodup htaken) hquiet
      rw [append_assoc] at hrest
      exact hrest

theorem define_structs (s : Symbol) (span : Span) (finding : Finding) (a : Analysis) :
    ((do
        let free ← defineGlobal s
        reportIf (!free) span finding : Check Unit).run a).2.structs = a.structs := by
  obtain ⟨globals, hglobals⟩ := exists_run_defineGlobal s a
  have hdefined : ((defineGlobal s).run a).2.structs = a.structs := by
    rw [hglobals]
  rw [StateT.run_bind]
  refine Eq.trans ?_ hdefined
  change ((reportIf (!((defineGlobal s).run a).1) span finding).run _).2.structs = _
  cases !((defineGlobal s).run a).1 <;> rfl

theorem structDecl_quiet (hquiet : ((declareType (.structDecl span name fields)).run a).2.Quiet) :
    a.structs.lookup name = none ∧ ((fields.map StructField.entry).map Prod.fst).Nodup
      ∧ ((declareType (.structDecl span name fields)).run a).2.structs
        = a.structs ++ [(name, fields.map StructField.entry)] := by
  rw [declareType, run_layout?] at hquiet ⊢
  cases hknown : a.structs.lookup name with
  | some layout =>
    rw [hknown] at hquiet
    exact absurd hquiet (not_quiet_report rfl)
  | none =>
    rw [hknown] at hquiet
    have hbehind : ∀ layout, Declares (do
        modify fun a => { a with structs := a.structs ++ [(name, layout)] }
        let free ← defineGlobal { name, kind := "struct", typeName := name }
        reportIf (!free) span (.structConflict name) : Check Unit) := fun layout =>
      .bind (.updated (fun _ => rfl) (fun _ => rfl) (fun _ => rfl) fun _ => rfl) fun _ =>
        .bind (.defineGlobal _) fun _ => .of_steps (.reportIf _ trivial rfl)
    have hempty : (([] : StructLayout).map Prod.fst).Nodup := nodup_nil
    obtain ⟨hlayout, hnodup⟩ := declareFields_quiet hempty (((hbehind _).later _).quiet hquiet)
    obtain ⟨more, hmove⟩ := (declareFields_steps name fields []).moves a
    refine ⟨rfl, hnodup, (define_structs _ _ _ _).trans ?_⟩
    change ((declareFields name fields []).run a).2.structs
      ++ [(name, ((declareFields name fields []).run a).1)] = _
    rw [hlayout, hmove.structs]
    rfl

theorem declareType_quiet (ha : DistinctLayouts a.structs)
    (hquiet : ((declareType d).run a).2.Quiet) :
    ((declareType d).run a).2.structs = a.structs ++ d.layout?.toList
      ∧ DistinctLayouts ((declareType d).run a).2.structs := by
  cases d with
  | structDecl span name fields =>
    obtain ⟨hfree, hnodup, hresult⟩ := structDecl_quiet hquiet
    rw [hresult]
    exact ⟨rfl, ha.add hfree hnodup⟩
  | taskDecl span name decorators body =>
    have hsame : ((declareType (.taskDecl span name decorators body)).run a).2.structs
        = a.structs := by
      simp only [declareType, StateT.run_bind, StateT.run_get, pure_bind]
      cases a.tasks.contains name with
      | true => rfl
      | false => exact define_structs _ _ _ _
    rw [hsame]
    exact ⟨(append_nil _).symm, ha⟩
  | _ => exact ⟨(append_nil _).symm, ha⟩

theorem forM_declareType_quiet {ds : List Stmt} (ha : DistinctLayouts a.structs)
    (hquiet : ((ds.forM declareType).run a).2.Quiet) :
    ((ds.forM declareType).run a).2.structs = a.structs ++ ds.filterMap Stmt.layout?
      ∧ DistinctLayouts ((ds.forM declareType).run a).2.structs := by
  induction ds generalizing a with
  | nil => exact ⟨(append_nil _).symm, ha⟩
  | cons d ds ih =>
    have hd : ((declareType d).run a).2.Quiet :=
      ((Declares.forM declareType_declares ds).later _).quiet hquiet
    obtain ⟨hstructs, hdistinct⟩ := declareType_quiet ha hd
    obtain ⟨hrest, hresult⟩ := ih hdistinct hquiet
    refine ⟨hrest.trans ?_, hresult⟩
    rw [hstructs, append_assoc]
    cases hlayout : d.layout? with
    | none => rw [filterMap_cons_none hlayout, Option.toList_none, nil_append]
    | some layout => rw [filterMap_cons_some hlayout, Option.toList_some, singleton_append]

theorem forM_declareFunction_structs (ds : List Stmt) (a : Analysis) :
    ((ds.forM declareFunction).run a).2.structs = a.structs := by
  induction ds generalizing a with
  | nil => rfl
  | cons d ds ih =>
    have hd : ((declareFunction d).run a).2.structs = a.structs := by
      cases d with
      | functionDecl span name params returnType body => exact define_structs _ _ _ _
      | _ => rfl
    exact (ih _).trans hd

/-- The layouts of the structs of a program. -/
def Program.layouts (p : Program) : List (String × StructLayout) :=
  p.declarations.filterMap Stmt.layout?

/-- An analysis without errors has told the structs apart, and has checked
every node of a proper program knowing all of them. -/
theorem Program.checked (hp : p.Proper True) {board : String} (h : (p.analyze board).Quiet) :
    DistinctLayouts p.layouts
      ∧ ∃ start : Analysis, ((visitAll p.declarations).run start).2 = p.analyze board
        ∧ ∀ n ∈ p.nodes, n.CheckedIn start.scopes.resolve (.ofName board) p.layouts := by
  let types := ((p.declarations.forM declareType).run (.start board)).2
  let functions := ((p.declarations.forM declareFunction).run types).2
  have hvisit : Covers functions.scopes.resolve [] (bindingsOf p.declarations ++ []) p.nodes
      (visitAll p.declarations) := visitAll_covers (stmtsProper.covered hp)
  have hrun : ((visitAll p.declarations).run functions).2 = p.analyze board := rfl
  rw [← hrun] at h
  have hfunctions := (Declares.forM declareFunction_declares p.declarations).later types
  have htypes := (Declares.forM declareType_declares p.declarations).later (.start board)
  have hstart : DistinctLayouts (Analysis.start board).structs := by
    simp only [Analysis.start]
    exact ⟨nodup_nil, forall_mem_nil _⟩
  obtain ⟨hstructs, hdistinct⟩ :=
    forM_declareType_quiet hstart (hfunctions.quiet ((hvisit.steps.later functions).quiet h))
  have hlayouts : types.structs = p.layouts := by
    refine hstructs.trans ?_
    simp only [Analysis.start]
    rfl
  have hknown : functions.structs = p.layouts :=
    (forM_declareFunction_structs p.declarations types).trans hlayouts
  have hboard : functions.board = .ofName board :=
    hfunctions.board.trans (htypes.board.trans (start_board board))
  refine ⟨hlayouts ▸ hdistinct, functions, hrun, ?_⟩
  rw [← hknown, ← hboard]
  exact (hvisit.visited functions functions.knows_names h).1

-- ==== one declaration a name

theorem exists_struct_of_lookup (hdistinct : DistinctLayouts p.layouts)
    (h : p.layouts.lookup name = some layout) :
    ∃ span fields, layout = fields.map StructField.entry ∧ (layout.map Prod.fst).Nodup
      ∧ ∃ front back, p.declarations = front ++ .structDecl span name fields :: back
        ∧ ∀ d ∈ front ++ back, d.declaresStruct name = false := by
  have hentry : (name, layout) ∈ p.layouts := mem_of_lookup h
  obtain ⟨d, hd, hlayout⟩ := mem_filterMap.mp hentry
  unfold Stmt.layout? at hlayout
  split at hlayout
  · rename_i span struct fields
    cases hlayout
    refine ⟨span, fields, rfl, hdistinct.fields _ hentry, ?_⟩
    have hnames : (p.declarations.filterMap fun d => d.layout?.map Prod.fst).Nodup := by
      have hnodup := hdistinct.names
      unfold Program.layouts at hnodup
      rw [map_filterMap] at hnodup
      exact hnodup
    obtain ⟨front, back, hsplit, hother⟩ := exists_split_of_nodup hnames hd rfl
    refine ⟨front, back, hsplit, fun e he => ?_⟩
    cases e with
    | structDecl otherSpan other otherFields =>
      exact beq_false_of_ne fun heq => hother _ he (congrArg some heq)
    | _ => rfl
  · cases hlayout

section Declared

variable {p : Program} {name : String} {span : Span} {fields : List StructField}
  {front back : List Stmt}

theorem filter_declaresStruct
    (hsplit : p.declarations = front ++ .structDecl span name fields :: back)
    (hother : ∀ d ∈ front ++ back, d.declaresStruct name = false) :
    p.declarations.filter (·.declaresStruct name) = [.structDecl span name fields] := by
  rw [hsplit]
  exact filter_split (beq_self_eq_true name) hother

theorem fieldOrder_eq (hsplit : p.declarations = front ++ .structDecl span name fields :: back)
    (hother : ∀ d ∈ front ++ back, d.declaresStruct name = false) :
    Sketch.fieldOrder p name = fields.map (·.name) := by
  rw [forall_mem_append] at hother
  unfold Sketch.fieldOrder
  rw [hsplit, reverse_append, reverse_cons, append_assoc, findSome?_append,
    findSome?_eq_none_iff.mpr]
  · rw [Option.none_or, singleton_append, findSome?_cons]
    dsimp only
    rw [beq_self_eq_true]
    rfl
  · intro d hd
    have hd' := hother.2 d (mem_reverse.mp hd)
    cases d with
    | structDecl otherSpan other otherFields =>
      exact if_neg (Bool.eq_false_iff.mp hd')
    | _ => rfl

end Declared

-- ==== initializers

theorem checkFields_quiet (hseen : seen.Nodup)
    (hquiet : ((checkFields span struct layout seen fields).run a).2.Quiet) :
    ((checkFields span struct layout seen fields).run a).1 = seen ++ fields.map FieldInit.name
      ∧ (seen ++ fields.map FieldInit.name).Nodup
      ∧ ∀ f ∈ fields, (layout.lookup f.name).isSome = true := by
  induction fields generalizing seen a with
  | nil =>
    rw [map_nil, append_nil]
    exact ⟨rfl, hseen, forall_mem_nil _⟩
  | cons f fields ih =>
    obtain ⟨name, value⟩ := f
    -- what comes behind a finding on the name
    have hbehind : ∀ seen, Steps (anywhere false) true (do
        let _ ← inferType value
        checkFields span struct layout seen fields) := fun seen =>
      .bind (value.steps .anywhere) fun _ => (fieldsSteps fields .anywhere).2 trivial _ _ _
    cases htwice : seen.contains name with
    | true =>
      rw [checkFields, htwice] at hquiet
      exact absurd (((hbehind seen).later _).quiet hquiet) (not_quiet_report rfl)
    | false =>
      cases hlayout : layout.lookup name with
      | none =>
        rw [checkFields, htwice, hlayout] at hquiet
        exact absurd (((hbehind (seen ++ [name])).later _).quiet hquiet) (not_quiet_report rfl)
      | some expected =>
        have hcheck : checkFields span struct layout seen (.mk name value :: fields) = (do
            let actual ← inferType value
            expectType value expected actual (.fieldMismatch name expected actual)
            checkFields span struct layout (seen ++ [name]) fields) := by
          rw [checkFields, htwice, if_neg Bool.false_ne_true, hlayout]
        have hseen' : (seen ++ [name]).Nodup := by
          rw [nodup_append]
          refine ⟨hseen, pairwise_singleton _ _, fun other hother last hlast heq => ?_⟩
          rw [heq, mem_singleton.mp hlast, ← contains_iff_mem, htwice] at hother
          cases hother
        rw [hcheck, run_bind, run_bind] at hquiet ⊢
        obtain ⟨hresult, hnodup, hfields⟩ := ih hseen' hquiet
        rw [append_assoc] at hresult hnodup
        exact ⟨hresult, hnodup, forall_mem_cons.mpr
          ⟨Option.isSome_iff_exists.mpr ⟨expected, hlayout⟩, hfields⟩⟩

theorem structInit_quiet
    (hquiet : ((inferType (.structInit span typeName fields)).run a).2.Quiet) :
    ∃ layout, a.structs.lookup typeName = some layout ∧ (fields.map FieldInit.name).Nodup
      ∧ ∀ name, name ∈ fields.map FieldInit.name ↔ name ∈ layout.map Prod.fst := by
  rw [inferType, run_layout?] at hquiet
  cases hlayout : a.structs.lookup typeName with
  | none =>
    rw [hlayout] at hquiet
    have hbehind : Steps (anywhere false) true (do
        inferFields fields
        return "unknown") := .bind (fieldsSteps fields .anywhere).1 fun _ => .pure _
    exact absurd ((hbehind.later _).quiet hquiet) (not_quiet_report rfl)
  | some layout =>
    rw [hlayout] at hquiet
    dsimp only at hquiet
    rw [run_bind, run_bind] at hquiet
    have hmissing := eq_false_of_quiet rfl hquiet
    have hchecked := (later_reportIf _ _ _ _).quiet hquiet
    obtain ⟨hseen, hnodup, hfields⟩ := checkFields_quiet nodup_nil hchecked
    rw [nil_append] at hseen hnodup
    rw [hseen, Bool.not_eq_false', List.isEmpty_iff, List.filter_eq_nil_iff] at hmissing
    refine ⟨layout, rfl, hnodup, fun name => ⟨fun hname => ?_, fun hname => ?_⟩⟩
    · obtain ⟨f, hf, rfl⟩ := mem_map.mp hname
      obtain ⟨type, htype⟩ := Option.isSome_iff_exists.mp (hfields f hf)
      exact mem_map_of_mem (mem_of_lookup htype)
    · have hgiven := hmissing name hname
      rw [Bool.not_eq_true, Bool.not_eq_false', contains_iff_mem] at hgiven
      exact hgiven

-- ==== values

/-- The values of an initializer in the order of the fields; as they are
where the struct is not known. -/
def orderedInits (order : List String) (fields : List FieldInit) : List Expr :=
  if order.isEmpty then fields.map FieldInit.value
  else order.filterMap fun name =>
    List.lookup name (fields.map fun f => (f.name, f.value)).reverse

theorem fieldValues_eq (cx : EmitContext) (fields : List FieldInit) :
    Emit.fieldValues cx fields = fields.map fun f => (f.name, Emit.expr cx f.value) := by
  induction fields with
  | nil => rfl
  | cons f fields ih =>
    obtain ⟨name, value⟩ := f
    rw [Emit.fieldValues, ih]
    rfl

theorem lookup_map_value (g : α → β) (name : String) (entries : List (String × α)) :
    (entries.map fun e => (e.1, g e.2)).lookup name = (entries.lookup name).map g := by
  induction entries with
  | nil => rfl
  | cons e entries ih =>
    rw [map_cons, lookup_cons, lookup_cons, ih]
    cases name == e.1 <;> rfl

theorem orderedValues_eq (cx : EmitContext) (order : List String) (fields : List FieldInit) :
    Emit.orderedValues order (Emit.fieldValues cx fields)
      = (orderedInits order fields).mapM (Emit.expr cx) := by
  rw [fieldValues_eq]
  unfold Emit.orderedValues orderedInits
  cases order.isEmpty with
  | true =>
    rw [if_pos rfl, if_pos rfl, mapM_map, mapM_map]
    rfl
  | false =>
    rw [if_neg Bool.false_ne_true, if_neg Bool.false_ne_true]
    have hlookup : ∀ name, (fields.map fun f => (f.name, Emit.expr cx f.value)).reverse.lookup name
        = ((fields.map fun f => (f.name, f.value)).reverse.lookup name).map (Emit.expr cx) := by
      intro name
      rw [← lookup_map_value, ← map_reverse, ← map_reverse, map_map]
      rfl
    simp only [hlookup]
    rw [← map_filterMap, mapM_map]
    rfl

theorem lookup_unique {fields : List FieldInit} (hnodup : (fields.map FieldInit.name).Nodup)
    (hname : name ∈ fields.map FieldInit.name) :
    ∃ value, (fields.map fun f => (f.name, f.value)).reverse.lookup name = some value
      ∧ fields.filter (·.name == name) = [.mk name value] := by
  obtain ⟨f, hf, rfl⟩ := mem_map.mp hname
  rw [← filterMap_eq_map] at hnodup
  obtain ⟨front, back, rfl, hother⟩ := exists_split_of_nodup hnodup hf rfl
  have hne : ∀ g ∈ front ++ back, (g.name == f.name) = false :=
    fun g hg => beq_false_of_ne fun heq => hother g hg (congrArg some heq)
  refine ⟨f.value, ?_, ?_⟩
  · rw [lookup_eq_some_iff]
    refine ⟨(back.map fun g => (g.name, g.value)).reverse,
      (front.map fun g => (g.name, g.value)).reverse, ?_, ?_⟩
    · rw [map_append, map_cons, reverse_append, reverse_cons,
        append_assoc]
      rfl
    · intro entry hentry
      obtain ⟨g, hg, rfl⟩ := mem_map.mp (mem_reverse.mp hentry)
      rw [bne, BEq.comm, hne g (mem_append_right _ hg)]
      rfl
  · have hself : FieldInit.mk f.name f.value = f := by
      cases f
      rfl
    rw [hself]
    exact filter_split (beq_self_eq_true f.name) hne

theorem forall₂_filterMap (h : ∀ x ∈ xs, ∃ y, find x = some y ∧ R x y) :
    List.Forall₂ R xs (xs.filterMap find) := by
  induction xs with
  | nil => exact .nil
  | cons x xs ih =>
    rw [forall_mem_cons] at h
    obtain ⟨⟨y, hfind, hy⟩, hrest⟩ := h
    rw [filterMap_cons_some hfind]
    exact .cons hy (ih hrest)

theorem orderedInits_forall₂ {fields : List FieldInit} {declared : List StructField}
    (hnodup : (fields.map FieldInit.name).Nodup)
    (hnames : ∀ name, name ∈ fields.map FieldInit.name ↔ name ∈ declared.map (·.name)) :
    List.Forall₂ (fun f value => fields.filter (·.name == f.name) = [.mk f.name value]) declared
      (orderedInits (declared.map (·.name)) fields) := by
  unfold orderedInits
  cases declared with
  | nil =>
    have hempty : fields.map FieldInit.name = [] :=
      eq_nil_iff_forall_not_mem.mpr fun name hname => nomatch (hnames name).mp hname
    rw [map_eq_nil_iff.mp hempty]
    exact .nil
  | cons first others =>
    rw [if_neg (by simp), filterMap_map]
    refine forall₂_filterMap fun f hf => lookup_unique hnodup ((hnames f.name).mpr ?_)
    exact mem_map_of_mem hf

-- ==== whole programs

/-- In a program that is read and analysed without errors, the struct of
an initializer has one declaration, and each of its fields, in the order
of the declaration, takes the one value that is given for it.  The code
has the texts of these values. -/
theorem Program.struct_values {file source : String} {src : Source}
    (h : Program.ofSource file source = .ok src) (hscan : src.scanErrors = [])
    (hparse : src.parseErrors = []) {board : String}
    (hquiet : ∀ i ∈ (src.program.analyze board).issues, i.severity ≠ .error)
    {view : View} {span : Span} {typeName : String} {fields : List FieldInit}
    (hnode : .expr view (.structInit span typeName fields) ∈ src.program.nodes) :
    ∃ declSpan declared values,
      src.program.declarations.filter (·.declaresStruct typeName)
          = [.structDecl declSpan typeName declared]
        ∧ (fields.map FieldInit.name).Perm (declared.map (·.name))
        ∧ List.Forall₂ (fun f value => fields.filter (·.name == f.name) = [.mk f.name value])
          declared values
        ∧ ∀ (backend : Backend) (bound : Nat),
          Emit.orderedValues ((Sketch.context backend src.program bound).fieldOrder typeName)
              (Emit.fieldValues (Sketch.context backend src.program bound) fields)
            = values.mapM (Emit.expr (Sketch.context backend src.program bound)) := by
  have hp : src.program.Proper True := Program.proper_of_clean h hscan hparse
  obtain ⟨hdistinct, start, -, hchecked⟩ := Program.checked hp hquiet
  obtain ⟨a, ⟨-, hstructs⟩, -, hinfer⟩ := hchecked _ hnode
  obtain ⟨layout, hlayout, hnodup, hnames⟩ := structInit_quiet hinfer
  rw [hstructs] at hlayout
  obtain ⟨declSpan, declared, rfl, hdeclared, front, back, hsplit, hother⟩ :=
    exists_struct_of_lookup hdistinct hlayout
  rw [List.map_map] at hnames hdeclared
  refine ⟨declSpan, declared, orderedInits (declared.map (·.name)) fields,
    filter_declaresStruct hsplit hother, ?_, orderedInits_forall₂ hnodup hnames, ?_⟩
  · exact (List.perm_ext_iff_of_nodup hnodup hdeclared).mpr hnames
  · intro backend bound
    rw [context_fieldOrder, fieldOrder_eq hsplit hother]
    exact orderedValues_eq _ _ _

/-- An initializer that names its fields out of order. -/
def givesFields : String :=
  "struct P \x7b x: int; y: bool; \x7d fn f() -> void \x7b let p = P(y: true, x: 3); \x7d"

/-- A source has an initializer of a struct that names these fields. -/
def namesFields (source typeName : String) (names : List String) : Bool :=
  match Program.ofSource "sketch" source with
  | .ok src => src.program.nodes.any fun
    | .expr _ (.structInit _ struct fields) =>
      struct == typeName && fields.map FieldInit.name == names
    | _ => false
  | .error _ => false

/-- Its values are given in the order of the fields. -/
theorem Program.struct_values_swapped :
    ∃ src, Program.ofSource "sketch" givesFields = .ok src
      ∧ (∀ i ∈ (src.program.analyze "esp32").issues, i.severity ≠ .error)
      ∧ ∃ view span fields, .expr view (.structInit span "P" fields) ∈ src.program.nodes
        ∧ fields.map FieldInit.name = ["y", "x"]
        ∧ ∃ declSpan declared values,
          src.program.declarations.filter (·.declaresStruct "P")
              = [.structDecl declSpan "P" declared]
            ∧ (fields.map FieldInit.name).Perm (declared.map (·.name))
            ∧ List.Forall₂ (fun f value => fields.filter (·.name == f.name) = [.mk f.name value])
              declared values
            ∧ ∀ (backend : Backend) (bound : Nat),
              Emit.orderedValues ((Sketch.context backend src.program bound).fieldOrder "P")
                  (Emit.fieldValues (Sketch.context backend src.program bound) fields)
                = values.mapM (Emit.expr (Sketch.context backend src.program bound)) := by
  have hclean : acceptsCleanly "esp32" givesFields = true := by
    decide +kernel
  have hnames : namesFields givesFields "P" ["y", "x"] = true := by
    decide +kernel
  obtain ⟨src, hsrc, hscan, hparse, hquiet⟩ := exists_of_acceptsCleanly hclean
  unfold namesFields at hnames
  rw [hsrc] at hnames
  obtain ⟨node, hnode, hinit⟩ := List.any_eq_true.mp hnames
  split at hinit
  · rename_i view span struct fields
    rw [Bool.and_eq_true, beq_iff_eq, beq_iff_eq] at hinit
    obtain ⟨rfl, hfields⟩ := hinit
    exact ⟨src, hsrc, hquiet, view, span, fields, hnode, hfields,
      Program.struct_values hsrc hscan hparse hquiet hnode⟩
  · cases hinit

end SketchCompiler
