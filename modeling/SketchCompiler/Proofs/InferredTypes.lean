/-
What inference leaves behind, and what it comes to.  A check of an
expression, or of a declaration other than a variable, adds findings and
may enter a file; everything else in the state stays as it was
(`checks_framed`).

So the parts of an expression are all inferred knowing the same names and
structs, and the type of the whole is a function of these alone
(`Expr.typeIn`, `Expr.yields`).  A missing type goes with an error, except
where it was there before, at a minus, and in arithmetic
(`inferType_unknown`).
-/
import SketchCompiler.Proofs.StructValues
import SketchCompiler.Proofs.BlockScopes

namespace SketchCompiler

open List Check

variable {α β : Type} {a : Analysis}
  {c : Check α} {f : α → Check β} {x : α} {y : β} {span : Span} {op left right : String}
  {e : Expr}

-- ==== the frame

/-- Steps that define nothing add findings and may enter a file. -/
theorem Steps.framed {declaring : Bool} {r : Reach declaring} (h : Steps r false c)
    (a : Analysis) :
    ∃ file more, (c.run a).2 = { a with file, issues := a.issues ++ more } := by
  obtain ⟨more, hmove⟩ := h.moves a
  have hscopes : (c.run a).2.scopes = a.scopes := hmove.scopes
  refine ⟨(c.run a).2.file, more, ?_⟩
  rw [← hmove.issues, ← hmove.board, ← hscopes, ← hmove.structs, ← hmove.tasks,
    ← hmove.returnType]

theorem Analysis.exists_visitAll (a : Analysis) (p : Program) :
    ∃ b : Analysis, b.scopes.inner = a.scopes.inner ∧ b.returnType = a.returnType
      ∧ ((visitAll p.declarations).run b).2 = a.add p := by
  have hpasses := (Declares.forM declareType_declares p.declarations).bind fun _ =>
    Declares.forM declareFunction_declares p.declarations
  exact ⟨_, hpasses.inner a, hpasses.returnType a, rfl⟩

/-- The check comes to the result, whatever file it is made in and whatever
was found before. -/
def Yields (a : Analysis) (c : Check α) (x : α) : Prop :=
  ∀ file issues, (c.run { a with file, issues }).1 = x

theorem Yields.pure (x : α) : Yields a (pure x) x := fun _ _ => rfl

theorem Yields.bind (hc : Steps (anywhere false) false c) (hx : Yields a c x)
    (hy : Yields a (f x) y) : Yields a (c >>= f) y := by
  intro file issues
  obtain ⟨file', more, hrun⟩ := hc.framed { a with file, issues }
  rw [run_bind, hx, hrun]
  exact hy _ _

/-- A check made for its findings alone. -/
theorem Yields.after (hc : Steps (anywhere false) false c) (hy : ∀ x, Yields a (f x) y) :
    Yields a (c >>= f) y := by
  intro file issues
  obtain ⟨file', more, hrun⟩ := hc.framed { a with file, issues }
  rw [run_bind, hrun]
  exact hy _ _ _

/-- The type of a cast. -/
def castResult (source target : String) : String :=
  if ["int", "float", "bool", "string"].contains source
    && ["int", "float", "bool", "string"].contains target then target else "unknown"

/-- The type of a unary operator. -/
def unaryResult (op operand : String) : String :=
  if op == "!" then "bool"
  else if op == "~" then if operand == "int" then "int" else "unknown"
  else if op == "-" && ["int", "float"].contains operand then operand else "unknown"

/-- The type of a bitwise operator. -/
def bitwiseResult (left right : String) : String :=
  if left == "Pin" || right == "Pin" then "unknown"
  else if left != "int" || right != "int" then "unknown" else "int"

/-- The type of an arithmetic operator. -/
def arithmeticResult (op left right : String) : String :=
  if left == "Pin" || right == "Pin" then "unknown"
  else if left == "Duration" || right == "Duration" then
    if ["+", "-"].contains op && left == "Duration" && right == "Duration" then "Duration"
    else "unknown"
  else if left == "float" || right == "float" then "float"
  else if left == "int" && right == "int" then "int" else "unknown"

/-- The type of a binary operator. -/
def binaryResult (op left right : String) : String :=
  if ["+", "-", "*", "/", "%"].contains op then arithmeticResult op left right
  else if ["==", "!=", ">", "<", ">=", "<="].contains op then
    if (left == "Duration") != (right == "Duration") then "unknown" else "bool"
  else if ["&&", "||"].contains op then "bool" else "unknown"

/-- The type that a function returns, if the symbol is one. -/
def Symbol.result (s : Symbol) : String :=
  if s.kind != "function" then "unknown" else (s.returnType.filter (· != "")).getD "unknown"

/-- The type of an expression where the names stand for these symbols.
Nothing in it declares a name that its value could use. -/
def Expr.typeIn (names : Names) (structs : List (String × StructLayout)) : Expr → String
  | .literal _ _ typeName => TypeName.normalize typeName
  | .ident _ name | .postfixed _ (.ident _ name) _ =>
    ((names name).map (·.typeName)).getD "unknown"
  | .assign _ target _ _ => target.typeIn names structs
  | .cast _ operand typeName =>
    castResult (operand.typeIn names structs) (TypeName.normalize typeName)
  | .member _ object name =>
    ((structs.lookup (object.typeIn names structs)).bind (·.lookup name)).getD "unknown"
  | .ifElse _ _ _ thenValue _ elseValue =>
    if thenValue.typeIn names structs == elseValue.typeIn names structs
    then thenValue.typeIn names structs else "unknown"
  | .structInit _ typeName _ => if (structs.lookup typeName).isSome then typeName else "unknown"
  | .unary _ op operand => unaryResult op (operand.typeIn names structs)
  | .bitwise _ left _ right =>
    bitwiseResult (left.typeIn names structs) (right.typeIn names structs)
  | .binary _ left op right =>
    binaryResult op (left.typeIn names structs) (right.typeIn names structs)
  | .call _ (.ident _ name) _ => ((names name).map Symbol.result).getD "unknown"
  | .postfixed .. | .call .. => "unknown"

theorem castType_yields (span : Span) (source target : String) :
    Yields a (castType span source target) (castResult source target) := by
  intro file issues
  unfold castType castResult
  dsimp only
  split <;> rfl

theorem memberType_yields (span : Span) (object member : String) :
    Yields a (memberType span object member)
      (((a.structs.lookup object).bind (·.lookup member)).getD "unknown") := by
  intro file issues
  rw [memberType, run_layout?]
  cases a.structs.lookup object with
  | none => rfl
  | some layout =>
    rw [Option.bind_some]
    dsimp only
    cases layout.lookup member <;> rfl

theorem unaryType_yields (span : Span) (op operand : String) :
    Yields a (unaryType span op operand) (unaryResult op operand) := by
  intro file issues
  unfold unaryType unaryResult
  repeat' split
  all_goals rfl

theorem bitwiseType_yields (span : Span) (op left right : String) :
    Yields a (bitwiseType span op left right) (bitwiseResult left right) := by
  intro file issues
  unfold bitwiseType bitwiseResult
  repeat' split
  all_goals rfl

theorem binaryType_yields (span : Span) (op left right : String) :
    Yields a (binaryType span op left right) (binaryResult op left right) := by
  intro file issues
  unfold binaryType arithmeticType binaryResult arithmeticResult
  repeat' split
  all_goals rfl

theorem postfixType_yields (span place : Span) (name : String) :
    Yields a (postfixType span (.ident place name))
      (((a.scopes.resolve name).map (·.typeName)).getD "unknown") := by
  intro file issues
  rw [postfixType, run_resolve]
  cases a.scopes.resolve name <;> rfl

theorem agreeTypes_yields (span : Span) (first second : String) :
    Yields a (agreeTypes span first second) (if first == second then first else "unknown") := by
  intro file issues
  unfold agreeTypes
  split <;> rfl

theorem structInit_yields (span : Span) (typeName : String) (fields : List FieldInit) :
    Yields a (inferType (.structInit span typeName fields))
      (if (a.structs.lookup typeName).isSome then typeName else "unknown") := by
  intro file issues
  rw [inferType, run_layout?]
  cases a.structs.lookup typeName <;> rfl

theorem call_yields (span place : Span) (name : String) (args : List Expr) :
    Yields a (inferType (.call span (.ident place name) args))
      (((a.scopes.resolve name).map Symbol.result).getD "unknown") := by
  intro file issues
  rw [inferType, run_resolve]
  cases a.scopes.resolve name with
  | none => rfl
  | some s =>
    rw [Option.map_some, Option.getD_some, Symbol.result]
    dsimp only
    cases s.kind != "function" with
    | true => rfl
    | false =>
      rw [if_neg Bool.false_ne_true, if_neg Bool.false_ne_true]
      split
      · rfl
      · split
        · cases args <;> rfl
        · rfl

theorem Expr.yields : ∀ e : Expr, Yields a (inferType e) (e.typeIn a.scopes.resolve a.structs)
  | .literal span value typeName => by
    rw [inferType, Expr.typeIn]
    exact .pure _
  | .ident span name => by
    intro file issues
    rw [inferType, run_resolve, Expr.typeIn]
    cases a.scopes.resolve name <;> rfl
  | .assign span target op value => by
    rw [inferType, Expr.typeIn]
    exact .after (.mutableTarget .anywhere) fun _ => .bind (target.steps .anywhere) target.yields
      (.after (value.steps .anywhere) fun _ => .after (.assignmentTypes trivial _ _ _) fun _ =>
        .pure _)
  | .cast span operand typeName => by
    rw [inferType, Expr.typeIn]
    exact .bind (operand.steps .anywhere) operand.yields (castType_yields _ _ _)
  | .member span object name => by
    rw [inferType, Expr.typeIn]
    exact .bind (object.steps .anywhere) object.yields (memberType_yields _ _ _)
  | .ifElse span condition thenBlock thenValue elseBlock elseValue => by
    rw [inferType_ifElse, Expr.typeIn]
    have hfront : Steps (anywhere false) false (checkBranches condition thenBlock elseBlock) :=
      .condition .anywhere (condition.steps .anywhere) _
        (.bind (thenBlock.steps .anywhere) fun _ => elseBlock.steps .anywhere)
    exact .after hfront fun _ => .bind (thenValue.steps .anywhere) thenValue.yields
      (.bind (elseValue.steps .anywhere) elseValue.yields (agreeTypes_yields _ _ _))
  | .structInit span typeName fields => by
    rw [Expr.typeIn]
    exact structInit_yields span typeName fields
  | .postfixed span operand op => by
    rw [inferType]
    cases operand with
    | ident place name =>
      rw [Expr.typeIn]
      exact postfixType_yields span place name
    | _ => exact fun _ _ => rfl
  | .unary span op operand => by
    rw [inferType, Expr.typeIn]
    exact .bind (operand.steps .anywhere) operand.yields (unaryType_yields _ _ _)
  | .bitwise span left op right => by
    rw [inferType, Expr.typeIn]
    exact .bind (left.steps .anywhere) left.yields
      (.bind (right.steps .anywhere) right.yields (bitwiseType_yields _ _ _ _))
  | .binary span left op right => by
    rw [inferType, Expr.typeIn]
    exact .bind (left.steps .anywhere) left.yields
      (.bind (right.steps .anywhere) right.yields (binaryType_yields _ _ _ _))
  | .call span callee args => by
    cases callee with
    | ident place name =>
      rw [Expr.typeIn]
      exact call_yields span place name args
    | _ => exact fun _ _ => rfl

-- ==== missing types

/-- The expressions that an expression may have its value from. -/
def Expr.values : Expr → List Expr
  | .assign _ target _ _ => target.values
  | .ifElse _ _ _ thenValue _ elseValue => thenValue.values ++ elseValue.values
  | e => [e]

/-- The expression has no type though nothing is found wrong with it: what
it names has none, or it is a minus or arithmetic on values that are not
numbers. -/
def Expr.Untyped (names : Names) (structs : List (String × StructLayout)) : Expr → Prop
  | .ident _ name => ∃ s, names name = some s ∧ s.typeName = "unknown"
  | .member _ object name =>
    (structs.lookup (object.typeIn names structs)).bind (·.lookup name) = some "unknown"
  | .structInit _ typeName _ => typeName = "unknown"
  | .call _ (.ident _ name) _ => ∃ s, names name = some s ∧ s.result = "unknown"
  | .unary _ op operand => op = "-" ∧ operand.typeIn names structs ∉ ["int", "float"]
  | .binary _ left op right => op ∈ ["+", "-", "*", "/", "%"]
    ∧ left.typeIn names structs ∉ ["Pin", "Duration", "float"]
    ∧ right.typeIn names structs ∉ ["Pin", "Duration", "float"]
    ∧ ¬ (left.typeIn names structs = "int" ∧ right.typeIn names structs = "int")
  | _ => False

theorem IsTextOf.mem {kinds : List Kind} {text : String} (h : IsTextOf kinds text) :
    text ∈ kinds.map Kind.text := by
  obtain ⟨k, hk, rfl⟩ := h
  exact mem_map_of_mem hk

theorem not_quiet_unknown {finding : Finding} (h : finding.severity = .error) :
    ¬ ((do report span finding; return "unknown" : Check String).run a).2.Quiet :=
  not_quiet_report h

theorem castResult_of_quiet {source target : String}
    (h : ((castType span source target).run a).2.Quiet) :
    target ∈ ["int", "float", "bool", "string"] ∧ castResult source target = target := by
  unfold castType at h
  unfold castResult
  dsimp only at h
  split at h
  · rename_i hcast
    rw [if_pos hcast]
    exact ⟨contains_iff_mem.mp (Bool.and_eq_true_iff.mp hcast).2, rfl⟩
  · exact absurd h (not_quiet_unknown rfl)

theorem unaryResult_of_quiet {operand : String} (hop : op ∈ ["!", "-", "~"])
    (h : ((unaryType span op operand).run a).2.Quiet) :
    unaryResult op operand = "unknown" ↔ op = "-" ∧ operand ∉ ["int", "float"] := by
  unfold unaryType at h
  unfold unaryResult
  simp only [mem_cons, not_mem_nil, or_false] at hop
  rcases hop with rfl | rfl | rfl
  · exact iff_of_false (by simp) (by simp)
  · by_cases hnumber : operand ∈ ["int", "float"]
    · refine iff_of_false ?_ fun hno => hno.2 hnumber
      simp only [mem_cons, not_mem_nil, or_false] at hnumber
      rcases hnumber with rfl | rfl <;> decide
    · refine iff_of_true ?_ ⟨rfl, hnumber⟩
      simp [hnumber]
  · by_cases hint : operand = "int"
    · subst hint
      exact iff_of_false (by decide) (by decide)
    · rw [beq_false_of_ne hint] at h
      exact absurd h (not_quiet_unknown rfl)

theorem bitwiseResult_of_quiet (h : ((bitwiseType span op left right).run a).2.Quiet) :
    bitwiseResult left right = "int" := by
  unfold bitwiseType at h
  unfold bitwiseResult
  split at h
  · exact absurd h (not_quiet_unknown rfl)
  · split at h
    · exact absurd h (not_quiet_unknown rfl)
    · rename_i hpin hint
      rw [if_neg hpin, if_neg hint]

theorem arithmeticResult_of_quiet (h : ((arithmeticType span op left right).run a).2.Quiet) :
    arithmeticResult op left right = "unknown"
      ↔ left ∉ ["Pin", "Duration", "float"] ∧ right ∉ ["Pin", "Duration", "float"]
        ∧ ¬ (left = "int" ∧ right = "int") := by
  unfold arithmeticType at h
  unfold arithmeticResult
  split at h
  · exact absurd h (not_quiet_unknown rfl)
  · rename_i hpin
    rw [if_neg hpin]
    split at h
    · split at h
      · rename_i hduration hdurations
        rw [if_pos hduration, if_pos hdurations]
        simp_all
      · exact absurd h (not_quiet_unknown rfl)
    · rename_i hduration
      rw [if_neg hduration]
      grind

theorem binaryResult_of_quiet (hop : IsTextOf (binaryOperators false) op)
    (h : ((binaryType span op left right).run a).2.Quiet) :
    binaryResult op left right = "unknown" ↔ op ∈ ["+", "-", "*", "/", "%"]
      ∧ left ∉ ["Pin", "Duration", "float"] ∧ right ∉ ["Pin", "Duration", "float"]
      ∧ ¬ (left = "int" ∧ right = "int") := by
  unfold binaryType at h
  unfold binaryResult
  split at h
  · rename_i harithmetic
    rw [if_pos harithmetic, arithmeticResult_of_quiet h,
      and_iff_right (contains_iff_mem.mp harithmetic)]
  · rename_i harithmetic
    refine iff_of_false ?_ fun hno => harithmetic (contains_iff_mem.mpr hno.1)
    rw [if_neg harithmetic]
    split at h
    · rename_i hcomparison
      rw [if_pos hcomparison]
      split at h
      · exact absurd h (not_quiet_unknown rfl)
      · rename_i hduration
        rw [if_neg hduration]
        decide
    · rename_i hcomparison
      have htexts : ∀ text ∈ (binaryOperators false).map Kind.text,
          ["+", "-", "*", "/", "%"].contains text
            || ["==", "!=", ">", "<", ">=", "<="].contains text || ["&&", "||"].contains text := by
        decide
      have hlogic := htexts op hop.mem
      simp only [harithmetic, hcomparison, Bool.false_or] at hlogic
      rw [if_neg hcomparison, if_pos hlogic]
      decide

theorem ident_of_quiet {name : String} (h : ((inferType (.ident span name)).run a).2.Quiet) :
    (a.scopes.resolve name).isSome = true := by
  rw [inferType, run_resolve] at h
  cases hname : a.scopes.resolve name with
  | some s => rfl
  | none =>
    rw [hname] at h
    exact absurd h (not_quiet_unknown rfl)

theorem memberType_of_quiet {object member : String}
    (h : ((memberType span object member).run a).2.Quiet) :
    ((a.structs.lookup object).bind (·.lookup member)).isSome = true := by
  rw [memberType, run_layout?] at h
  cases hlayout : a.structs.lookup object with
  | none =>
    rw [hlayout] at h
    exact absurd h (not_quiet_unknown rfl)
  | some layout =>
    rw [hlayout] at h
    rw [Option.bind_some]
    cases hmember : layout.lookup member with
    | some type => rfl
    | none =>
      dsimp only at h
      rw [hmember] at h
      exact absurd h (not_quiet_unknown rfl)

theorem postfixed_of_quiet {operand : Expr} (h : ((postfixType span operand).run a).2.Quiet) :
    ∃ place name s, operand = .ident place name ∧ a.scopes.resolve name = some s
      ∧ s.typeName ∈ ["int", "float"] := by
  cases operand with
  | ident place name =>
    rw [postfixType, run_resolve] at h
    cases hname : a.scopes.resolve name with
    | none =>
      rw [hname] at h
      exact absurd h (not_quiet_unknown rfl)
    | some s =>
      rw [hname] at h
      have hnumber := eq_false_of_quiet rfl h
      rw [Bool.not_eq_false', contains_iff_mem] at hnumber
      exact ⟨place, name, s, rfl, hname, hnumber⟩
  | _ => exact absurd h (not_quiet_unknown rfl)

theorem call_of_quiet {callee : Expr} {args : List Expr}
    (h : ((inferType (.call span callee args)).run a).2.Quiet) :
    ∃ place name, callee = .ident place name ∧ (a.scopes.resolve name).isSome = true := by
  cases callee with
  | ident place name =>
    refine ⟨place, name, rfl, ?_⟩
    rw [inferType, run_resolve] at h
    cases hname : a.scopes.resolve name with
    | some s => rfl
    | none =>
      rw [hname] at h
      exact absurd h (not_quiet_unknown rfl)
  | _ => exact absurd h (not_quiet_unknown rfl)

theorem agreeTypes_of_quiet {first second : String}
    (h : ((agreeTypes span first second).run a).2.Quiet) : first = second := by
  rw [run_agreeTypes] at h
  split at h
  · assumption
  · exact absurd h (not_quiet_report rfl)

theorem getD_eq_unknown {found : Option String} (h : found.isSome = true) :
    found.getD "unknown" = "unknown" ↔ found = some "unknown" := by
  cases found with
  | none => cases h
  | some type => exact Option.some_inj.symm

theorem quiet_of_bind (hf : ∀ x, Steps (anywhere false) true (f x))
    (h : ((c >>= f).run a).2.Quiet) : (c.run a).2.Quiet :=
  ((hf _).later _).quiet h

theorem exists_quiet_after (hc : Steps (anywhere false) false c) (h : ((c >>= f).run a).2.Quiet) :
    ∃ x file issues, ((f x).run { a with file, issues }).2.Quiet := by
  obtain ⟨file, more, hrun⟩ := hc.framed a
  rw [run_bind, hrun] at h
  exact ⟨_, _, _, h⟩

theorem Yields.exists_quiet (hc : Steps (anywhere false) false c) (hx : Yields a c x)
    (h : ((c >>= f).run a).2.Quiet) :
    ∃ file issues, ((f x).run { a with file, issues }).2.Quiet := by
  have hresult : (c.run a).1 = x := hx a.file a.issues
  obtain ⟨file, more, hrun⟩ := hc.framed a
  rw [run_bind, hrun, hresult] at h
  exact ⟨_, _, h⟩

theorem exists_quiet_rest {f : String → Check α} (h : ((inferType e >>= f).run a).2.Quiet) :
    ∃ file issues,
      ((f (e.typeIn a.scopes.resolve a.structs)).run { a with file, issues }).2.Quiet :=
  e.yields.exists_quiet (e.steps .anywhere) h

theorem forall_values {P : Expr → Prop} (h : e.values = [e]) : (∀ v ∈ e.values, P v) ↔ P e := by
  rw [h, forall_mem_singleton]

theorem LiteralValue.Proper.typed {value : LiteralValue} {typeName : String}
    (h : value.Proper True typeName) : TypeName.normalize typeName ≠ "unknown" := by
  cases value with
  | int _ | float _ | text _ => exact h.2 ▸ by decide +kernel
  | bool b => exact h ▸ by decide +kernel
  | duration n unit => exact h.2.2.2 ▸ by decide +kernel

theorem ne_unknown_of_mem {types : List String} {type : String} (h : type ∈ types)
    (htypes : "unknown" ∉ types) : type ≠ "unknown" :=
  fun heq => htypes (heq ▸ h)

theorem Expr.typeIn_unknown : ∀ e : Expr, e.Proper True → ∀ a : Analysis,
    ((inferType e).run a).2.Quiet → (e.typeIn a.scopes.resolve a.structs = "unknown"
      ↔ ∀ v ∈ e.values, v.Untyped a.scopes.resolve a.structs)
  | .literal span value typeName => by
    intro hp a h
    rw [forall_values rfl, Expr.typeIn]
    exact iff_of_false hp.typed id
  | .ident span name => by
    intro hp a h
    rw [forall_values rfl, Expr.typeIn, getD_eq_unknown]
    · exact Option.map_eq_some_iff
    · rw [Option.isSome_map]
      exact ident_of_quiet h
  | .assign span target op value => by
    intro hp a h
    have hfront : Steps (anywhere false) false (mutableTarget target) := .mutableTarget .anywhere
    have hrest : ∀ type, Steps (anywhere false) true (do
        let valueType ← inferType value
        assignmentTypes span op type valueType
        return type) := fun _ =>
      .bind (value.steps .anywhere) fun _ =>
        .bind (.assignmentTypes trivial _ _ _) fun _ => .pure _
    rw [inferType] at h
    obtain ⟨-, file, issues, htarget⟩ := exists_quiet_after hfront h
    rw [Expr.typeIn, Expr.values]
    exact target.typeIn_unknown hp.1 { a with file, issues } (quiet_of_bind hrest htarget)
  | .cast span operand typeName => by
    intro hp a h
    rw [inferType] at h
    obtain ⟨file, issues, hcast⟩ := exists_quiet_rest h
    obtain ⟨htarget, hresult⟩ := castResult_of_quiet hcast
    rw [forall_values rfl, Expr.typeIn, hresult]
    exact iff_of_false (ne_unknown_of_mem htarget (by decide)) id
  | .member span object name => by
    intro hp a h
    rw [inferType] at h
    obtain ⟨file, issues, hmember⟩ := exists_quiet_rest h
    rw [forall_values rfl, Expr.typeIn, getD_eq_unknown (memberType_of_quiet hmember)]
    rfl
  | .ifElse span condition thenBlock thenValue elseBlock elseValue => by
    intro hp a h
    have hfront : Steps (anywhere false) false (checkBranches condition thenBlock elseBlock) :=
      .condition .anywhere (condition.steps .anywhere) _
        (.bind (thenBlock.steps .anywhere) fun _ => elseBlock.steps .anywhere)
    have hagree : ∀ first second, Steps (anywhere false) true (agreeTypes span first second) := by
      intro first second
      unfold agreeTypes
      split
      · exact .pure _
      · exact .unknown trivial rfl
    rw [inferType_ifElse] at h
    obtain ⟨-, file, issues, hvalues⟩ := exists_quiet_after hfront h
    obtain ⟨file', issues', hsecond⟩ := exists_quiet_rest hvalues
    obtain ⟨file'', issues'', htypes⟩ := exists_quiet_rest hsecond
    have hthen := thenValue.typeIn_unknown hp.2.2.2.1 _
      (quiet_of_bind (fun _ => .bind (elseValue.steps .anywhere) fun _ => hagree _ _) hvalues)
    have helse := elseValue.typeIn_unknown hp.2.2.2.2.2.2 _ (quiet_of_bind (hagree _) hsecond)
    have hsame := agreeTypes_of_quiet htypes
    dsimp only at hthen helse hsame
    rw [Expr.typeIn, Expr.values, forall_mem_append, ← hthen, ← helse, ← hsame,
      if_pos (beq_self_eq_true _), and_self]
  | .structInit span typeName fields => by
    intro hp a h
    obtain ⟨layout, hlayout, -⟩ := structInit_quiet h
    rw [forall_values rfl, Expr.typeIn, hlayout]
    rfl
  | .postfixed span operand op => by
    intro hp a h
    rw [inferType] at h
    obtain ⟨place, name, s, rfl, hname, hnumber⟩ := postfixed_of_quiet h
    rw [forall_values rfl, Expr.typeIn, hname]
    exact iff_of_false (ne_unknown_of_mem hnumber (by decide)) id
  | .unary span op operand => by
    intro hp a h
    rw [inferType] at h
    obtain ⟨file, issues, hunary⟩ := exists_quiet_rest h
    rw [forall_values rfl, Expr.typeIn]
    exact unaryResult_of_quiet hp.1.mem hunary
  | .bitwise span left op right => by
    intro hp a h
    rw [inferType] at h
    obtain ⟨file, issues, hright⟩ := exists_quiet_rest h
    obtain ⟨file', issues', hbitwise⟩ := exists_quiet_rest hright
    rw [forall_values rfl, Expr.typeIn, bitwiseResult_of_quiet hbitwise]
    exact iff_of_false (by decide) id
  | .binary span left op right => by
    intro hp a h
    rw [inferType] at h
    obtain ⟨file, issues, hright⟩ := exists_quiet_rest h
    obtain ⟨file', issues', hbinary⟩ := exists_quiet_rest hright
    rw [forall_values rfl, Expr.typeIn]
    exact binaryResult_of_quiet hp.2.1 hbinary
  | .call span callee args => by
    intro hp a h
    obtain ⟨place, name, rfl, hname⟩ := call_of_quiet h
    rw [forall_values rfl, Expr.typeIn, getD_eq_unknown]
    · exact Option.map_eq_some_iff
    · rw [Option.isSome_map]
      exact hname

/-- **Types that go missing without an error.**  If the check of an
expression that a reading can yield adds no error, then the expression has
no type exactly if none of the values that it may have got one: each is a
name, a field, a struct or the result of a function that has none of its
own, a minus on something that is not a number, or arithmetic on two values
that are not both integers, without a float, a pin or a duration among
them.  Blocks nested in the expression do not matter. -/
theorem inferType_unknown (a : Analysis) {e : Expr} (hp : e.Proper True)
    {found : List Issue} (hfound : ((inferType e).run a).2.issues = a.issues ++ found)
    (hquiet : ∀ i ∈ found, i.severity ≠ .error) :
    ((inferType e).run a).1 = "unknown"
      ↔ ∀ v ∈ e.values, v.Untyped a.scopes.resolve a.structs := by
  -- the findings before the check are forgotten, for those that it adds do not depend on them
  have hsteps : Steps (anywhere false) false (inferType e) := e.steps .anywhere
  have halike : a.Alike { a with issues := [] } :=
    ⟨rfl, rfl, .refl _, fun _ => rfl, fun _ => rfl, rfl⟩
  obtain ⟨-, -, more, hmove, hmove'⟩ := hsteps.agrees _ _ halike
  have hmore : found = more := List.append_cancel_left (hfound.symm.trans hmove.issues)
  have hclear : ((inferType e).run { a with issues := [] }).2.Quiet := by
    rw [Analysis.Quiet, hmove'.issues, ← hmore]
    exact hquiet
  have htype : ((inferType e).run a).1 = _ := e.yields a.file a.issues
  rw [htype]
  exact e.typeIn_unknown hp { a with issues := [] } hclear

/-- A choice between a minus on a truth value and the sum of two texts. -/
def untypedChoice : Expr :=
  let span : Span := { file := "sketch" }
  .ifElse span (.literal span (.bool true) "bool") (.mk span [])
    (.unary span "-" (.literal span (.bool true) "bool")) (.mk span [])
    (.binary span (.literal span (.text "a") "string") "+" (.literal span (.text "b") "string"))

/-- It has no type, and nothing is found wrong with it. -/
theorem inferType_unknown_choice :
    (inferType untypedChoice).run (.start "esp32") = ("unknown", .start "esp32") := by
  have hp : untypedChoice.Proper True :=
    ⟨rfl, trivial, List.forall_mem_nil _, ⟨⟨.minus, by decide, rfl⟩, rfl⟩, trivial,
      List.forall_mem_nil _, ⟨trivial, rfl⟩, ⟨.plus, by decide, rfl⟩, trivial, rfl⟩
  have hstate : ((inferType untypedChoice).run (.start "esp32")).2 = .start "esp32" := rfl
  have htype := inferType_unknown (.start "esp32") hp
    (congrArg Analysis.issues hstate) (List.forall_mem_nil _)
  refine Prod.ext (htype.mpr ?_) hstate
  refine List.forall_mem_cons.mpr ⟨⟨rfl, by decide +kernel⟩, List.forall_mem_singleton.mpr ?_⟩
  exact ⟨by decide, by decide +kernel, by decide +kernel, by decide +kernel⟩

/-- A minus on a truth value has no type, in no state is anything found
wrong with it, and a variable may start with it. -/
theorem minus_untyped :
    findsOnly "let x = -true;" [] = true
      ∧ ∀ span a, (inferType (.unary span "-" (.literal span (.bool true) "bool"))).run a
        = ("unknown", a) := by
  refine ⟨by decide +kernel, fun span a => ?_⟩
  rfl

end SketchCompiler
