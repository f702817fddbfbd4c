/-
Declared before use.  The code that is generated for a program declares
its structs, its global variables and its functions, each on a line of
its own, and uses them elsewhere.  The main result
(`Program.declared_first`) says which uses come behind the declaration:
all but those that are `Forward`.

# Entities and uses

A line uses the entities that are named in the part of its declaration
that is written in its area.  On which of these lines a name stands makes
no difference to what is declared before, so each of them counts.  A task
is started with its core, so what the core names is used wherever the
task is started.  Raw code is not looked into.

# Forward uses

A sketch keeps the order of the program inside each area, and has no
prototypes for functions.  So a function can be called on an earlier line
than its own, and a field can have the type of a later struct.  Variables
are declared before they are used, as far as the analysis can tell
(`Program.not_declared_behind`); it cannot where the use comes with the
core of a task, or where it takes the name for the variable of a loop
that has ended (`Program.used_too_early`).
-/
import SketchCompiler.Proofs.BlockScopes
import SketchCompiler.Proofs.StructValues
import SketchCompiler.Proofs.Placement

namespace SketchCompiler

open Check

open List hiding head tail span

variable {name : String}
  {p : Program} {board : String} {k : Nat}

-- ==== entities

/-- What a program declares at its top level and uses by name. -/
inductive Entity where
  | function (name : String)
  | global (name : String)
  | struct (name : String)
  deriving DecidableEq, Repr

/-- The area in which an entity is declared. -/
def Entity.area : Entity → Area
  | function _ => .functions
  | global _ => .globals
  | struct _ => .structs

/-- The entity that a statement of the top level declares. -/
def Stmt.entity? : Stmt → Option Entity
  | .structDecl _ name _ => some (.struct name)
  | .varDecl _ name _ _ _ _ _ => some (.global name)
  | .functionDecl _ name _ _ _ => some (.function name)
  | _ => none

/-- The entity that the declaration of a number declares. -/
def Program.entityAt (p : Program) (index : Nat) : Option Entity :=
  p.declarations[index]?.bind Stmt.entity?

/-- The entity that a line of a place declares: the first line in its
area. -/
def Program.declaresAt (p : Program) (place : Place) : Option Entity :=
  if place.isFirst then (p.entityAt place.index).filter (·.area = place.area) else none

/-- The text declares the entity. -/
def Entity.DeclaredBy (text : String) : Entity → Prop
  | function name => ∃ type params, text = type ++ " " ++ name ++ "(" ++ params ++ ") \x7b"
  | global name => ∃ type rest, text = type ++ " " ++ name ++ rest ++ ";"
    ∧ (rest = "" ∨ ∃ more, rest = " " ++ more)
  | struct name => text = "struct " ++ name ++ " \x7b"

/-- The line declares the entity, by its place and by its text. -/
def Program.Declares (p : Program) (l : PlacedLine) (e : Entity) : Prop :=
  l.place.bind p.declaresAt = some e ∧ e.DeclaredBy l.line.text

-- ==== uses

/-- A use of an entity.  It is unseen if the analysis does not look the
name up here, or takes it for something else. -/
structure Use where
  entity : Entity
  unseen : Bool := false
  deriving DecidableEq, Repr

/-- The uses of a node by itself.  A name that no declaration in view
binds is that of a global variable. -/
def Node.uses : Node → List Use
  | .expr _ (.call _ (.ident _ name) _) => [{ entity := .function name }]
  | .expr view (.ident _ name) =>
    if (view.lexical? name).isSome then []
    else [{ entity := .global name, unseen := (view.analysed? name).isSome }]
  | .expr _ (.cast _ _ typeName) => [{ entity := .struct typeName }]
  | .expr _ (.structInit _ typeName _) => [{ entity := .struct typeName }]
  | .stmt _ (.varDecl _ _ (some typeName) _ _ _ _) => [{ entity := .struct typeName }]
  | _ => []

/-- The task that a node starts. -/
def Node.started? : Node → Option String
  | .stmt _ (.spawn _ name) => some name
  | _ => none

namespace Program

/-- The nodes of the cores of tasks, and of the tasks that are started
inside them. -/
def coreNodes (p : Program) : Nat → List String → List Node
  | 0, _ => []
  | bound + 1, tasks =>
    let nodes := tasks.flatMap fun name =>
      exprNodes? [] (Sketch.decorator? "core" (Sketch.taskDecorators p name))
    nodes ++ p.coreNodes bound (nodes.filterMap Node.started?)

/-- What is used where tasks are started. -/
def coreUses (p : Program) (tasks : List String) : List Use :=
  ((p.coreNodes (p.declarations.length + 1) tasks).flatMap Node.uses).map
    fun u => { u with unseen := true }

/-- What is used where nodes are written. -/
def usesOf (p : Program) (nodes : List Node) : List Use :=
  nodes.flatMap Node.uses ++ p.coreUses (nodes.filterMap Node.started?)

/-- What a line of a place uses. -/
def usesAt (p : Program) (place : Place) : List Use :=
  match place.area, p.declarations[place.index]? with
  | .structs, some (.structDecl _ _ fields) =>
    if place.isFirst then [] else fields.map fun f => { entity := .struct f.typeName }
  | .globals, some (.varDecl _ _ typeName init _ _ _) =>
    typeName.toList.map (fun t => { entity := .struct t }) ++ p.usesOf (exprNodes? [] init)
  | .functions, some (.functionDecl _ _ params returnType body) =>
    if place.isFirst then
      (returnType :: params.map (·.typeName)).map fun t => { entity := .struct t }
    else p.usesOf (body.nodes (paramBindings params))
  | .functions, some (.taskDecl _ _ decorators body) =>
    if place.isFirst then []
    else p.usesOf (blockNodes? [] body ++ exprNodes? [] (Sketch.decorator? "rate" decorators))
  | .setup, some (.taskDecl _ name _ _) => p.coreUses [name]
  | .setup, some (.busDecl _ _ _ sda scl freq _) =>
    p.usesOf (sda.nodes [] ++ (scl.nodes [] ++ freq.nodes []))
  | .setup, some s => p.usesOf (s.nodes [])
  | .loop, some (.loopDecl _ body) => p.usesOf (body.nodes [])
  | _, _ => []

/-- The entity is declared by none of the first declarations. -/
def Undeclared (p : Program) (number : Nat) (e : Entity) : Prop :=
  ∀ k < number, p.entityAt k ≠ some e

/-- A use on a line that does not stand behind the declaration. -/
inductive Forward (p : Program) (place : Place) (u : Use) : Prop where
  /-- A field of a struct has the type of a later one. -/
  | field {name : String} (harea : place.area = .structs) (he : u.entity = .struct name)
      (h : p.Undeclared place.reached u.entity)
  /-- The initializer of a variable calls a function. -/
  | initializer {name : String} (harea : place.area = .globals) (he : u.entity = .function name)
  /-- A function or a task calls a later function. -/
  | call {name : String} (harea : place.area = .functions) (he : u.entity = .function name)
      (h : p.Undeclared place.reached u.entity)
  /-- The initializer of a variable uses that one or a later one, and the
  analysis does not see it. -/
  | unseen {name : String} (harea : place.area = .globals) (he : u.entity = .global name)
      (hunseen : u.unseen = true) (h : p.Undeclared place.reached u.entity)

end Program

-- ==== names at the top

theorem resolves_of_quiet (h : ((inferType (.ident span name)).run a).2.Quiet) :
    ∃ s, a.scopes.resolve name = some s := by
  rw [inferType, run_resolve] at h
  cases hresolve : a.scopes.resolve name with
  | none =>
    rw [hresolve] at h
    have hreport : ((report span (.undefinedSymbol name)).run a).2.Quiet := h
    exact absurd hreport (not_quiet_report rfl)
  | some s => exact ⟨s, rfl⟩

theorem Program.not_declared_behind (hp : p.Proper True) (h : (p.analyze board).Quiet)
    {front behind : List Stmt} {d : Stmt} (hsplit : p.declarations = front ++ d :: behind)
    {view : View} {span : Span} {name : String}
    (hnode : .expr view (.ident span name) ∈ d.nodes [])
    (hview : view.analysed? name = none) : ∀ e ∈ d :: behind, e.entity? ≠ some (.global name) := by
  intro e he hentity
  have hall := stmtsProper_iff.mp hp
  rw [hsplit, forall_mem_append] at hall
  have hfront : Steps (anywhere false) true (visitAll front) := stmtsSteps front .anywhere
  have hproper : stmtsProper True (d :: behind) := stmtsProper_iff.mpr hall.2
  obtain ⟨start, -, ⟨hstart, -⟩, hrun⟩ := p.exists_visitAll board
  rw [hsplit, visitAll_append] at hrun
  have houter := hfront.outer start
  -- the state in which the visit of the declaration starts
  generalize ((visitAll front).run start).2 = a at hrun houter
  rw [← hrun] at h
  have hinner : a.scopes.inner = [] := by
    unfold ScopeChain.SameOuter at houter
    rw [hstart] at houter
    exact houter.1
  have hd : Covers a.scopes.resolve [] _ _ (visit d) := Stmt.Proper.covered hproper.1 []
  have hbehind : Steps (anywhere false) true (visitAll behind) := stmtsSteps behind .anywhere
  have hquiet : ((visit d).run a).2.Quiet := (hbehind.later _).quiet h
  obtain ⟨a', -, hknows, hident⟩ := (hd.visited a a.knows_names hquiet).1 _ hnode
  have hname := hknows name
  rw [hview] at hname
  have hdefines : a.scopes.globals.defines name = true := by
    obtain ⟨s, hs⟩ := resolves_of_quiet hident
    have hfound : a.scopes.resolve name = some s := hname.symm.trans hs
    unfold ScopeChain.resolve at hfound
    rw [hinner, findSome?_nil, Option.none_or] at hfound
    have hmatch := find?_some hfound
    exact any_eq_true.mpr ⟨s, mem_of_find?_eq_some hfound, hmatch⟩
  have hdeclared : name ∈ e.bindings.map (·.name) := by
    cases e with
    | varDecl =>
      cases hentity
      exact mem_singleton_self _
    | _ => cases hentity
  obtain ⟨b, hb, hbname⟩ := mem_map.mp hdeclared
  have hfree := ((visitAll_current (d :: behind) a).2 h).2 name
    (mem_map.mpr ⟨b, mem_bindingsOf he hb, hbname⟩)
  rw [ScopeChain.current, hinner] at hfree
  exact Bool.false_ne_true (hfree.symm.trans hdefines)

-- ==== order

theorem getElem?_of_mapM_ok {ε α β : Type} {f : α → Except ε β} {as : List α} {bs : List β} {a : α}
    (h : as.mapM f = .ok bs) (ha : as[k]? = some a) : ∃ b, bs[k]? = some b ∧ f a = .ok b := by
  have hk := congrArg (·[k]?) (map_eq_of_mapM_ok h)
  simp only [getElem?_map, ha, Option.map_some] at hk
  obtain ⟨b, hb, hfa⟩ := Option.map_eq_some_iff.mp hk.symm
  exact ⟨b, hb, hfa.symm⟩

theorem Emit.initializer_apart (h : Emit.initializer cx init = .ok text) :
    text = "" ∨ ∃ more, text = " " ++ more := by
  unfold Emit.initializer at h
  split at h
  · cases h
    exact .inl rfl
  · obtain ⟨values, -, rfl⟩ := bind_ok h
    refine .inr ⟨"= \x7b" ++ ", ".intercalate values ++ "\x7d", ?_⟩
    simp only [← String.append_assoc]
    rfl
  · obtain ⟨value, -, rfl⟩ := bind_ok h
    refine .inr ⟨"= " ++ value, ?_⟩
    rw [← String.append_assoc]
    rfl

theorem Entity.declaredBy_varDecl (h : init = "" ∨ ∃ more, init = " " ++ more) :
    (Entity.global name).DeclaredBy
      (Emit.varDecl true name typeName isConst isVolatile init) := by
  refine ⟨(if isConst then "const " else "") ++ (if isVolatile then "volatile " else "")
      ++ TypeName.toGenerated ((typeName.filter (· != "")).getD "int"),
    (if isConst then " PROGMEM" else "") ++ init, ?_, ?_⟩
  · simp only [Emit.varDecl, Bool.true_and, String.append_assoc]
  · cases isConst with
    | false => simpa using h
    | true =>
      refine .inr ⟨"PROGMEM" ++ init, ?_⟩
      rw [← String.append_assoc]
      rfl

theorem Program.exists_first {backend : Backend} {placed : List PlacedLine}
    (h : p.placed backend = .ok placed) {e : Entity} (he : p.entityAt k = some e) :
    ∃ line, ⟨line, some ⟨e.area, k, true⟩⟩ ∈ placed ∧ e.DeclaredBy line.text := by
  obtain ⟨pieces, hpieces, hstructs, hglobals, hfunctions⟩ := Program.placed_areas h
  obtain ⟨d, hd, hentity⟩ := Option.bind_eq_some_iff.mp he
  obtain ⟨s, hs, hdecl⟩ := getElem?_of_mapM_ok hpieces hd
  cases d with
  | structDecl span name fields =>
    cases hentity
    have hfirst := first_mem_placeFrom .structs
      (show (p.declarations.map Sketch.structType)[k]? = some (_ :: _) by
        rw [getElem?_map, hd]
        rfl)
    exact ⟨_, hstructs _ hfirst, rfl⟩
  | varDecl span name typeName init isMutable isConst isVolatile =>
    cases hentity
    obtain ⟨text, htext, rfl⟩ := bind_ok hdecl
    have hfirst := first_mem_placeFrom .globals
      (show (pieces.map (·.globals))[k]? = some (_ :: _) by
        rw [getElem?_map, hs]
        rfl)
    exact ⟨_, hglobals _ hfirst, Entity.declaredBy_varDecl (Emit.initializer_apart htext)⟩
  | functionDecl span name params returnType body =>
    cases hentity
    simp only [Sketch.ofDecl, Sketch.function, bind_eq_ok, pure_eq_ok] at hdecl
    obtain ⟨_, ⟨lines, -, rfl⟩, rfl⟩ := hdecl
    have hfirst := first_mem_placeFrom .functions
      (show (pieces.map fun s => s.functions.flatMap (· ++ [⟨"", none⟩]))[k]? = some (_ :: _) by
        rw [getElem?_map, hs]
        rfl)
    exact ⟨_, hfunctions _ hfirst, _, _, rfl⟩
  | _ => cases hentity

-- ==== declared before use

namespace Program

variable {p : Program} {place : Place} {u : Use} {e : Entity}

theorem declaresAt_eq_some : p.declaresAt place = some e ↔
    place.isFirst = true ∧ p.entityAt place.index = some e ∧ e.area = place.area := by
  unfold declaresAt
  split
  · next hfirst => simp [hfirst, Option.filter_eq_some_iff]
  · next hfirst => simp [hfirst]

theorem not_undeclared : ¬ p.Undeclared number e ↔ ∃ k < number, p.entityAt k = some e := by
  simp only [Undeclared, not_forall, not_not, exists_prop]

theorem exists_entityAt (h : ∃ d ∈ p.declarations, d.entity? = some e) :
    ∃ k, p.entityAt k = some e := by
  obtain ⟨d, hd, he⟩ := h
  obtain ⟨k, hk⟩ := mem_iff_getElem?.mp hd
  exact ⟨k, by rw [entityAt, hk, Option.bind_some, he]⟩

theorem Forward.not_before (h : p.Forward place u) (hk : p.entityAt k = some u.entity) :
    ¬ (⟨u.entity.area, k, true⟩ : Place).Before place := by
  -- not in a lower area, and not among the declarations reached in the same one
  have hreached {number : Nat} (hundeclared : p.Undeclared number u.entity) : ¬ k < number :=
    fun hlt => hundeclared k hlt hk
  rw [Place.first_before]
  cases h with
  | field harea he h | call harea he h | unseen harea he _ h =>
    simp [harea, he, Entity.area, Area.rank, hreached h]
  | initializer harea he => simp [harea, he, Entity.area, Area.rank]

theorem Forward.of_undeclared (harea : u.entity.area = place.area)
    (h : p.Undeclared place.reached u.entity) (hunseen : place.area = .globals → u.unseen = true) :
    p.Forward place u := by
  cases he : u.entity with
  | function name =>
    rw [he] at harea
    exact .call harea.symm he h
  | global name =>
    rw [he] at harea
    exact .unseen harea.symm he (hunseen harea.symm) h
  | struct name =>
    rw [he] at harea
    exact .field harea.symm he h

theorem usesAt_structs (hu : u ∈ p.usesAt place) (harea : place.area = .structs) :
    ∃ name, u.entity = .struct name := by
  unfold usesAt at hu
  rw [harea] at hu
  split at hu
  all_goals first | contradiction | skip
  split at hu
  · cases hu
  · obtain ⟨f, -, rfl⟩ := mem_map.mp hu
    exact ⟨f.typeName, rfl⟩

theorem rank_le_of_mem_usesAt (hu : u ∈ p.usesAt place) :
    u.entity.area.rank ≤ place.area.rank
      ∨ (place.area = .globals ∧ ∃ name, u.entity = .function name) := by
  cases harea : place.area with
  | structs =>
    obtain ⟨name, he⟩ := usesAt_structs hu harea
    exact .inl (by rw [he]; exact Nat.le_refl _)
  | globals =>
    cases u.entity with
    | function name => exact .inr ⟨rfl, name, rfl⟩
    | _ => simp [Entity.area, Area.rank]
  | _ => cases u.entity <;> simp [Entity.area, Area.rank]

theorem mem_usesOf_seen (hu : u ∈ p.usesOf ns) (he : u.entity = .global name)
    (hseen : u.unseen = false) :
    ∃ view span, .expr view (.ident span name) ∈ ns ∧ view.analysed? name = none := by
  rcases mem_append.mp hu with hu | hu
  · obtain ⟨n, hn, hu⟩ := mem_flatMap.mp hu
    unfold Node.uses at hu
    split at hu
    · cases mem_singleton.mp hu
      cases he
    · next view span declared =>
      split at hu
      · cases hu
      · cases mem_singleton.mp hu
        cases he
        exact ⟨view, span, hn, Option.isNone_iff_eq_none.mp (Option.isSome_eq_false_iff.mp hseen)⟩
    · cases mem_singleton.mp hu
      cases he
    · cases mem_singleton.mp hu
      cases he
    · cases mem_singleton.mp hu
      cases he
    · cases hu
  · obtain ⟨v, -, rfl⟩ := mem_map.mp hu
    cases hseen

theorem usesAt_seen (hu : u ∈ p.usesAt place) (harea : place.area = .globals)
    (he : u.entity = .global name) (hseen : u.unseen = false) :
    ∃ d, p.declarations[place.index]? = some d ∧ ∃ view span,
      .expr view (.ident span name) ∈ d.nodes [] ∧ view.analysed? name = none := by
  unfold usesAt at hu
  rw [harea] at hu
  split at hu
  all_goals first | contradiction | skip
  next span declared typeName init isMutable isConst isVolatile hd =>
  rcases mem_append.mp hu with hu | hu
  · obtain ⟨t, -, rfl⟩ := mem_map.mp hu
    cases he
  · obtain ⟨view, span, hnode, hview⟩ := mem_usesOf_seen hu he hseen
    exact ⟨_, hd, view, span, mem_cons_of_mem _ hnode, hview⟩

theorem lt_of_seen (hp : p.Proper True) (h : (p.analyze board).Quiet) (hu : u ∈ p.usesAt place)
    (harea : place.area = .globals) (hentity : u.entity.area = .globals) (hseen : u.unseen = false)
    (hk : p.entityAt k = some u.entity) : k < place.index := by
  obtain ⟨name, he⟩ : ∃ name, u.entity = .global name := by
    cases he : u.entity with
    | global name => exact ⟨name, rfl⟩
    | _ =>
      rw [he] at hentity
      cases hentity
  rw [he] at hk
  obtain ⟨d, hd, view, span, hnode, hview⟩ := usesAt_seen hu harea he hseen
  obtain ⟨hlt, hget⟩ := List.getElem?_eq_some_iff.mp hd
  have hsplit : p.declarations
      = p.declarations.take place.index ++ d :: p.declarations.drop (place.index + 1) := by
    rw [← hget, getElem_cons_drop, take_append_drop]
  by_contra hle
  obtain ⟨later, hlater, hentity⟩ := Option.bind_eq_some_iff.mp hk
  refine not_declared_behind hp h hsplit hnode hview later ?_ hentity
  have hmem : later ∈ p.declarations.drop place.index := by
    rw [mem_iff_getElem?]
    refine ⟨k - place.index, ?_⟩
    rw [getElem?_drop, Nat.add_sub_cancel' (Nat.le_of_not_lt hle)]
    exact hlater
  rwa [← getElem_cons_drop hlt, hget] at hmem

theorem before_of_not_forward (hp : p.Proper True) (h : (p.analyze board).Quiet)
    (hu : u ∈ p.usesAt place) (hdeclared : ∃ d ∈ p.declarations, d.entity? = some u.entity)
    (hforward : ¬ p.Forward place u) :
    ∃ k, p.entityAt k = some u.entity ∧ (⟨u.entity.area, k, true⟩ : Place).Before place := by
  obtain ⟨k, hk⟩ := exists_entityAt hdeclared
  rcases rank_le_of_mem_usesAt hu with hrank | ⟨harea, name, he⟩
  · rcases Nat.lt_or_eq_of_le hrank with hrank | hrank
    · exact ⟨k, hk, Place.first_before.mpr (.inl hrank)⟩
    · have harea := Area.rank_injective hrank
      have hreached : ¬ p.Undeclared place.reached u.entity := by
        intro hundeclared
        refine hforward (.of_undeclared harea hundeclared fun hglobals => ?_)
        rw [← Bool.not_eq_false]
        intro hseen
        have hlt := lt_of_seen hp h hu hglobals (harea.trans hglobals) hseen hk
        exact hundeclared k (Nat.lt_of_lt_of_le hlt place.index_le_reached) hk
      obtain ⟨k, hlt, hk⟩ := not_undeclared.mp hreached
      exact ⟨k, hk, Place.first_before.mpr (.inr ⟨harea, hlt⟩)⟩
  · exact absurd (.initializer harea he) hforward

end Program

/-- In the sketch of a program that is read without findings and analysed
without errors, what a line uses is declared by a line before it if the
program declares it and the use is not forward, and only then. -/
theorem Program.declared_first {file source : String} {src : Source}
    (h : Program.ofSource file source = .ok src) (hscan : src.scanErrors = [])
    (hparse : src.parseErrors = []) {board : String}
    (hquiet : ∀ i ∈ (src.program.analyze board).issues, i.severity ≠ .error)
    {backend : Backend} {sk : Sketch} (hsk : src.program.sketch backend = .ok sk) :
    ∃ placed, src.program.placed backend = .ok placed ∧ placed.map (·.line) = sk.lines
      ∧ ∀ before l after, placed = before ++ l :: after →
        ∀ place ∈ l.place, ∀ u ∈ src.program.usesAt place,
          (∃ m ∈ before, src.program.Declares m u.entity)
            ↔ (∃ d ∈ src.program.declarations, d.entity? = some u.entity)
              ∧ ¬ src.program.Forward place u := by
  have hp : src.program.Proper True :=
    Program.proper_of_clean h hscan hparse
  obtain ⟨placed, hplaced, hlines⟩ := Program.placed_lines hsk
  have hordered := Program.placed_ordered hplaced
  refine ⟨placed, hplaced, hlines, fun before l after hsplit place hplace u hu => ⟨?_, ?_⟩⟩
  · rintro ⟨m, hm, hdeclares, -⟩
    obtain ⟨at', hat, hdeclares⟩ := Option.bind_eq_some_iff.mp hdeclares
    obtain ⟨hfirst, hentity, harea⟩ := Program.declaresAt_eq_some.mp hdeclares
    obtain ⟨d, hd, he⟩ := Option.bind_eq_some_iff.mp hentity
    refine ⟨⟨d, List.mem_of_getElem? hd, he⟩, fun hforward => hforward.not_before hentity ?_⟩
    have hbefore := before_of_mem (hsplit ▸ hordered) hm hat hplace hfirst
    rwa [harea, ← hfirst]
  · rintro ⟨hdeclared, hforward⟩
    obtain ⟨k, hk, hbefore⟩ := Program.before_of_not_forward hp hquiet hu hdeclared hforward
    obtain ⟨line, hline, htext⟩ := Program.exists_first hplaced hk
    rw [hsplit] at hline hordered
    refine ⟨_, mem_of_before hordered hline rfl hplace hbefore, ?_, htext⟩
    exact Program.declaresAt_eq_some.mpr ⟨rfl, hk, rfl⟩

/-- What a line uses. -/
def Program.usesOn (p : Program) (l : PlacedLine) : List Use :=
  (l.place.map p.usesAt).getD []

/-- A source is accepted without findings, and a number of uses is in its
code. -/
def acceptsUses (source : String) (number : Nat) : Bool :=
  match Program.ofSource "sketch" source with
  | .error _ => false
  | .ok src =>
    src.scanErrors.isEmpty && src.parseErrors.isEmpty
      && (src.program.analyze "esp32").issues.isEmpty && (src.program.sketch .esp32).isOk
      && match src.program.placed .esp32 with
        | .error _ => false
        | .ok placed => (placed.flatMap src.program.usesOn).length == number

/-- A struct, variables and functions, each used behind its
declaration. -/
def usesBehind : String :=
  "struct P \x7b x: int; \x7d let a = 1; let b = a + 1; "
    ++ "fn f(p: P) -> int \x7b return p.x + b; \x7d fn g(p: P) -> int \x7b return f(p); \x7d "
    ++ "loop \x7b digitalWrite(4, b); \x7d"

/-- What is used on the lines of the code of such a source is declared
before them. -/
theorem Program.declared_first_behind :
    ∃ src sk placed, Program.ofSource "sketch" usesBehind = .ok src
      ∧ src.program.sketch .esp32 = .ok sk ∧ placed.map (·.line) = sk.lines
      ∧ (placed.flatMap src.program.usesOn).length = 18
      ∧ ∀ before l after, placed = before ++ l :: after →
        ∀ place ∈ l.place, ∀ u ∈ src.program.usesAt place,
          (∃ m ∈ before, src.program.Declares m u.entity)
            ↔ (∃ d ∈ src.program.declarations, d.entity? = some u.entity)
              ∧ ¬ src.program.Forward place u := by
  have haccepts : acceptsUses usesBehind 18 = true := by
    decide +kernel
  unfold acceptsUses at haccepts
  split at haccepts
  · cases haccepts
  · rename_i src hsrc
    simp only [Bool.and_eq_true, List.isEmpty_iff] at haccepts
    obtain ⟨⟨⟨⟨hscan, hparse⟩, hissues⟩, hok⟩, hnumber⟩ := haccepts
    have hquiet : ∀ i ∈ (src.program.analyze "esp32").issues, i.severity ≠ .error := by
      rw [hissues]
      exact List.forall_mem_nil _
    cases hsk : src.program.sketch .esp32 with
    | error fault =>
      rw [hsk] at hok
      cases hok
    | ok sk =>
      obtain ⟨placed, hplaced, hlines, hdeclared⟩ :=
        Program.declared_first hsrc hscan hparse hquiet hsk
      rw [hplaced] at hnumber
      exact ⟨src, sk, placed, hsrc, hsk, hlines, beq_iff_eq.mp hnumber, hdeclared⟩

/-- A source is accepted without findings, and in its code a line with the
text uses the entity and stands before the line that declares it. -/
def standsTooEarly (source text : String) (e : Entity) : Bool :=
  match Program.ofSource "sketch" source with
  | .error _ => false
  | .ok src =>
    src.scanErrors.isEmpty && src.parseErrors.isEmpty
      && (src.program.analyze "esp32").issues.isEmpty
      && match src.program.placed .esp32 with
        | .error _ => false
        | .ok placed =>
          let declares (l : PlacedLine) : Bool := l.place.bind src.program.declaresAt == some e
          placed.any declares && (placed.takeWhile (!declares ·)).any fun l =>
            l.line.text == text && (src.program.usesOn l).any (·.entity == e)

/-- A struct is used as the type of a field before it is declared, a
function is called before it is declared, by a function and by an
initializer, and a variable is used before it is declared, as the core of
a task and behind a loop that had one of the same name. -/
theorem Program.used_too_early :
    standsTooEarly "struct A \x7b b: B; \x7d struct B \x7b x: int; \x7d" "  B b;"
        (.struct "B") = true
      ∧ standsTooEarly "fn g() -> void \x7b f(); \x7d fn f() -> void \x7b \x7d" "  f();"
        (.function "f") = true
      ∧ standsTooEarly "let x = f(); fn f() -> int \x7b return 1; \x7d" "int32_t x = f();"
        (.function "f") = true
      ∧ standsTooEarly ("let y = if (true) \x7b spawn t(); 1 \x7d else \x7b 2 \x7d; "
          ++ "let c = 1; @core(c) task t() \x7b \x7d")
        ("int32_t y = ([&]() \x7b if (true) \x7b xTaskCreatePinnedToCore(__task_t, \"t\", 8192, "
          ++ "nullptr, 1, nullptr, c); return 1; \x7d else \x7b return 2; \x7d \x7d)();")
        (.global "c") = true
      ∧ standsTooEarly ("let a = if (true) \x7b for (let b = 0; b < 1; b++) \x7b \x7d "
          ++ "b + 1; 5 \x7d else \x7b 6 \x7d; let b = 2;")
        ("int32_t a = ([&]() \x7b if (true) \x7b for (int32_t b = 0; (b < 1); (b++)) \x7b \x7d "
          ++ "(b + 1); return 5; \x7d else \x7b return 6; \x7d \x7d)();")
        (.global "b") = true := by
  refine ⟨?_, ?_, ?_, ?_, ?_⟩
  · decide +kernel
  · decide +kernel
  · decide +kernel
  · decide +kernel
  · decide +kernel

end SketchCompiler
