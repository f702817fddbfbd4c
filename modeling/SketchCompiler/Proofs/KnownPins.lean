/-
Known pins.  Where a pin, or the core of a task, is written as a name, the
analysis checks the integer that the variable starts with.  It goes by
that integer wherever the variable is in view, whatever is assigned to it
there (`KnownBehind`).  A constant is not changed anywhere it is in view;
any other variable may be, and then what was checked is not what runs
(`Program.pin_changes`).
-/
import SketchCompiler.Proofs.BlockScopes
import SketchCompiler.Proofs.ConstSafety

namespace SketchCompiler

open Check

/-- The expressions that a node uses as pins, or as the core of a task. -/
def Node.pins : Node → List Expr
  | .stmt _ (.gpioMode _ pin _) | .stmt _ (.digitalWrite _ pin _) | .stmt _ (.pwmWrite _ pin _ _)
  | .stmt _ (.rgbWrite _ pin _ _ _) => [pin]
  | .stmt _ (.busDecl _ _ _ sda scl _ _) => [sda, scl]
  | .stmt _ (.taskDecl _ _ decorators _) => decorators.filterMap fun
    | .mk _ name value => if name == "core" then some value else none
  | .expr _ (.call _ (.ident _ name) (arg :: _)) => if name == "analogRead" then [arg] else []
  | _ => []

/-- The statement introduces the variable of a declaration for those
behind it, by itself or in the header of a loop.  The nodes of the loop
that are behind the header are inside. -/
def Stmt.Introduces : Stmt → Stmt → List Node → Prop
  | .forLoop _ init condition update body, decl, inside => init = some decl
    ∧ inside = exprNodes? [] condition ++ (exprNodes? [] update ++ body.nodes [])
  | s, decl, inside => s = decl ∧ inside = []

/-- In the state behind its declaration a variable is a symbol with the
integer that it starts with.  Every node that refers to it is checked
without an error in a state with the same board, structs and names around,
which takes it for that symbol, and a pin that is written as its name for
that integer.  If it is const, none of these nodes changes it. -/
def KnownBehind (b : Analysis) (name : String) (value : Option Expr) (isConst : Bool)
    (nodes : List Node) : Prop :=
  ∃ s : Symbol, b.scopes.resolve name = some s ∧ s.constInt = initialInt value
    ∧ s.isConst = isConst
    ∧ ∀ n ∈ nodes, n.view.analysed? name = none →
      (∃ a : Analysis, (a.board = b.board ∧ a.structs = b.structs)
        ∧ a.Knows b.scopes.resolve n.view ∧ n.QuietIn a ∧ a.scopes.resolve name = some s
        ∧ ∀ pin ∈ n.pins, ∀ place, pin = .ident place name →
          ((constInt? pin).run a).1 = initialInt value)
      ∧ (isConst = true → n.mutated? ≠ some name)

theorem Node.CheckedIn.quietIn {around : Names} {b : Board}
    {structs : List (String × StructLayout)} {n : Node} (h : n.CheckedIn around b structs) :
    ∃ a : Analysis, (a.board = b ∧ a.structs = structs) ∧ a.Knows around n.view
      ∧ n.QuietIn a := by
  cases n with
  | expr _ _ | stmt _ _ => exact h

section

variable {a : Analysis} {span : Span} {name : String} {typeName : Option String}
  {value : Option Expr} {isMutable isConst isVolatile : Bool}

/-- Whatever is checked behind the declaration of a variable knows it. -/
theorem known_behind {c : Check Unit} {view : View} {nodes : List Node}
    (hc : ∀ around, Covers around [] view nodes c)
    (hquiet : (c.run ((visit (.varDecl span name typeName value isMutable isConst
      isVolatile)).run a).2).2.Quiet) :
    KnownBehind ((visit (.varDecl span name typeName value isMutable isConst isVolatile)).run a).2
      name value isConst nodes := by
  obtain ⟨s, ⟨type, hs⟩, houtcome⟩ :=
    varDecl_adds span name typeName value isMutable isConst isVolatile a
  generalize ((visit (.varDecl span name typeName value isMutable isConst
    isVolatile)).run a).2 = b at houtcome hquiet ⊢
  have hc := hc b.scopes.resolve
  have hfirst : b.Quiet := (hc.steps.later b).quiet hquiet
  have hresolve : b.scopes.resolve name = some s := by
    rcases houtcome with hdefined | ⟨-, -, file, hfound⟩
    · rw [ScopeChain.resolve_define hdefined, hs]
      exact if_pos rfl
    · exact absurd rfl (hfirst _ hfound)
  refine ⟨s, hresolve, by rw [hs]; rfl, by rw [hs]; rfl, fun n hn hview => ?_⟩
  obtain ⟨c', hsame, hknows, hchecked⟩ := ((hc.visited b b.knows_names hquiet).1 n hn).quietIn
  have hname : c'.scopes.resolve name = some s := by
    have hname := hknows name
    rw [hview] at hname
    exact hname.trans hresolve
  refine ⟨⟨c', hsame, hknows, hchecked, hname, ?_⟩, fun hconst hmutated => ?_⟩
  · rintro pin - place rfl
    change (c'.scopes.resolve name).bind (·.constInt) = _
    rw [hname, hs]
    rfl
  · have hplain := hchecked.mutable hmutated
    rw [hname, hs] at hplain
    exact Bool.false_ne_true (hplain.symm.trans hconst)

/-- A variable is known in the block behind the statement that introduces
it. -/
theorem known_behind_introduced {s : Stmt} {inside : List Node} {rest : List Stmt}
    (hs : s.Introduces (.varDecl span name typeName value isMutable isConst isVolatile) inside)
    (hproper : stmtsProper True (s :: rest)) (hquiet : ((visitAll (s :: rest)).run a).2.Quiet) :
    KnownBehind ((visit (.varDecl span name typeName value isMutable isConst isVolatile)).run a).2
      name value isConst (inside ++ stmtsNodes [] rest) := by
  have hrest (around : Names) :
      Covers around [] (bindingsOf rest ++ []) (stmtsNodes [] rest) (visitAll rest) :=
    visitAll_covers (stmtsProper.covered hproper.2)
  cases s with
  | forLoop loopSpan init condition update body =>
    obtain ⟨rfl, rfl⟩ := hs
    obtain ⟨-, hcondition, hupdate, hbody⟩ := hproper.1
    have hloop (around : Names) : Covers around [] [] (exprNodes? [] condition
        ++ (exprNodes? [] update ++ body.nodes [])) (loopRest condition update body) :=
      loopRest_covers (exprProper?.covered hcondition) (exprProper?.covered hupdate) hbody.covered
    refine known_behind (fun around => (hloop around).bind fun _ => hrest around) ?_
    -- the header is visited in the file of the loop, which it does not see
    rw [visitAll, visit_forLoop] at hquiet
    rw [← visit_file _ a loopSpan.file]
    exact hquiet
  | varDecl =>
    obtain ⟨hdecl, rfl⟩ := hs
    cases hdecl
    exact known_behind hrest hquiet
  | _ => cases hs.1

end

/-- **Known pins are those of constants.**  In a program that is read and
analysed without errors, a variable of the top level is known by the
integer that it starts with in all that is behind it, and is not changed
there if it is const: the analysis goes through the declarations from a
state with its board, and is behind the variable in the state it then
has.  The same holds of a variable of any block that is visited without
an error, whatever the state, and of one in the header of a loop. -/
theorem Program.pins_known {file source : String} {src : Source}
    (h : Program.ofSource file source = .ok src) (hscan : src.scanErrors = [])
    (hparse : src.parseErrors = []) {board : String}
    (hquiet : ∀ i ∈ (src.program.analyze board).issues, i.severity ≠ .error) :
    (∃ start : Analysis, start.board = .ofName board
      ∧ ((visitAll src.program.declarations).run start).2 = src.program.analyze board
      ∧ ∀ front s rest inside span name typeName value isMutable isConst isVolatile,
        src.program.declarations = front ++ s :: rest →
        s.Introduces (.varDecl span name typeName value isMutable isConst isVolatile) inside →
        KnownBehind ((visit (.varDecl span name typeName value isMutable isConst isVolatile)).run
            ((visitAll front).run start).2).2
          name value isConst (inside ++ stmtsNodes [] rest))
    ∧ ∀ a s rest inside span name typeName value isMutable isConst isVolatile,
      s.Introduces (.varDecl span name typeName value isMutable isConst isVolatile) inside →
      stmtsProper True (s :: rest) → ((visitAll (s :: rest)).run a).2.Quiet →
      KnownBehind ((visit (.varDecl span name typeName value isMutable isConst isVolatile)).run
        a).2 name value isConst (inside ++ stmtsNodes [] rest) := by
  refine ⟨?_, fun a s rest inside span name typeName value isMutable isConst isVolatile =>
    known_behind_introduced⟩
  have hp : src.program.Proper True := Program.proper_of_clean h hscan hparse
  obtain ⟨start, hboard, -, hrun⟩ := src.program.exists_visitAll board
  refine ⟨start, hboard, hrun, ?_⟩
  intro front s rest inside span name typeName value isMutable isConst isVolatile hsplit hs
  have hall := stmtsProper_iff.mp hp
  have hquiet : (src.program.analyze board).Quiet := hquiet
  rw [hsplit, List.forall_mem_append] at hall
  rw [hsplit, visitAll_append] at hrun
  rw [← hrun] at hquiet
  exact known_behind_introduced hs (stmtsProper_iff.mpr hall.2) hquiet

/-- The first declaration is a constant of this name. -/
def Program.startsWithConst (p : Program) (name : String) : Bool :=
  match p.declarations with
  | .varDecl _ name' _ _ _ true _ :: _ => name' == name
  | _ => false

/-- A bus whose pins are constants. -/
def constPins : String :=
  "const let a = 21; const let b = 22; bus I2C w \x7b sda: a; scl: b; freq: 400000; \x7d"

/-- The first of these is known where the bus is declared. -/
theorem Program.pins_known_bus :
    ∃ src rest value b, Program.ofSource "sketch" constPins = .ok src
      ∧ (∃ span typeName isMutable isVolatile, src.program.declarations
        = .varDecl span "a" typeName value isMutable true isVolatile :: rest)
      ∧ KnownBehind b "a" value true (stmtsNodes [] rest) := by
  have hclean : acceptsCleanly "esp32" constPins = true := by decide +kernel
  obtain ⟨src, hsrc, hscan, hparse, hquiet⟩ := exists_of_acceptsCleanly hclean
  have hfirst : (Program.ofSource "sketch" constPins).toOption.any
      (·.program.startsWithConst "a") = true := by decide +kernel
  rw [hsrc] at hfirst
  have hfirst : src.program.startsWithConst "a" = true := hfirst
  unfold Program.startsWithConst at hfirst
  split at hfirst
  · rename_i span name typeName value isMutable isVolatile rest hdeclarations
    obtain rfl := eq_of_beq hfirst
    obtain ⟨start, -, -, hknown⟩ := (Program.pins_known hsrc hscan hparse hquiet).1
    exact ⟨src, rest, value, _, hsrc, ⟨span, typeName, isMutable, isVolatile, hdeclarations⟩,
      hknown [] _ rest [] _ _ _ _ _ _ _ hdeclarations ⟨rfl, rfl⟩⟩
  · cases hfirst

/-- A source is read and analysed without a finding, uses the name as a
pin and changes it. -/
def changesPin (source name : String) : Bool :=
  findsOnly source [] && match Program.ofSource "sketch" source with
    | .ok src => src.program.nodes.any (fun n => n.pins.any (·.root? == some name))
      && src.program.nodes.any (·.mutated? == some name)
    | .error _ => false

/-- A variable that is not const is checked as a pin and then changed. -/
theorem Program.pin_changes :
    changesPin ("let a = 21; let b = 22; bus I2C w \x7b sda: a; scl: b; freq: 400000; \x7d "
      ++ "fn f() -> void \x7b a = 5; \x7d") "a" = true := by
  decide +kernel

end SketchCompiler
