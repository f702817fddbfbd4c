/-
Proper trees: those that a reading can yield.  The names in them are
words that are not reserved, each operator is one of those its node is
read for, a literal has the type that its value calls for, and so on.

The predicate tells which literals may occur (`Literals`).  Where tokens
are ruled out, so are the literals that they denote.
-/
import Mathlib.Algebra.Group.Nat.Defs
import SketchCompiler.Proofs.Printed

namespace SketchCompiler

open List Grammar

variable {k : Kind}

-- ==== fixed words

private theorem keywords_words : ∀ entry ∈ keywords,
    entry.1.toList.head?.any isWordStart = true ∧ entry.1.toList.all isWordChar = true
      ∧ kindOfWord entry.1 = entry.2 := by
  decide

theorem spelled_of_word (hstart : text.toList.head?.any isWordStart = true)
    (hall : text.toList.all isWordChar = true) (hkind : kindOfWord text = k) :
    Spelled k text.toList := by
  cases htext : text.toList with
  | nil =>
    rw [htext] at hstart
    cases hstart
  | cons a cs =>
    rw [htext] at hstart hall
    refine .word hstart (fun x hx => ?_) ?_
    · exact all_eq_true.mp hall x (mem_cons_of_mem _ hx)
    · rw [← htext, String.ofList_toList]
      exact hkind

theorem spelled_of_mem_keywords (h : (text, k) ∈ keywords) : Spelled k text.toList := by
  obtain ⟨hstart, hall, hkind⟩ := keywords_words _ h
  exact spelled_of_word hstart hall hkind

private theorem operators_tables : ∀ entry ∈ operators,
    (match entry.1.toList with
      | [a] => operatorOfChar a
      | [a, b] => operatorOfPair a b
      | _ => none) = some entry.2 := by
  decide

theorem spelled_of_mem_operators (h : (text, k) ∈ operators) : Spelled k text.toList := by
  have htable := operators_tables _ h
  simp only at htable
  split at htable
  · rename_i a htext
    rw [htext]
    exact .single htable
  · rename_i a b htext
    rw [htext]
    exact .pair htable
  · cases htable

theorem Kind.mem_of_text_ne (h : k.text ≠ "") : (k.text, k) ∈ keywords ++ operators := by
  unfold Kind.text at h ⊢
  cases hfind : (keywords ++ operators).find? (·.2 = k) with
  | none =>
    rw [hfind] at h
    exact absurd rfl h
  | some entry =>
    have hk : entry.2 = k := by simpa using find?_some hfind
    rw [← hk]
    exact mem_of_find?_eq_some hfind

theorem Kind.spelled_text (h : k.text ≠ "") : Spelled k k.text.toList := by
  rcases mem_append.mp (Kind.mem_of_text_ne h) with hmem | hmem
  · exact spelled_of_mem_keywords hmem
  · exact spelled_of_mem_operators hmem

theorem text_ne_of_pair (h : operatorOfPair a b = some k) : k.text ≠ "" := by
  unfold operatorOfPair at h
  split at h <;> cases h <;> decide

theorem text_ne_of_char (h : operatorOfChar a = some k) : k.text ≠ "" := by
  unfold operatorOfChar at h
  split at h <;> cases h <;> decide

theorem Spelled.eq_text (h : Spelled k cs) (hk : k.text ≠ "") : cs = k.text.toList := by
  cases h with
  | @word _ c cs _ _ hword =>
    subst hword
    rcases kindOfWord_cases (String.ofList (c :: cs)) with hident | hmem
    · rw [hident] at hk
      exact absurd (by decide) hk
    · have htext : ∀ entry ∈ keywords, entry.2.text = entry.1 := by decide
      rw [htext _ hmem, String.toList_ofList]
  | hexadecimal | binary | decimal | fraction | duration | text
  | raw => exact absurd (by decide) hk
  | pair hpair =>
    unfold operatorOfPair at hpair
    split at hpair <;> cases hpair <;> decide
  | single hsingle =>
    unfold operatorOfChar at hsingle
    split at hsingle <;> cases hsingle <;> decide

-- ==== proper trees

/-- A word that is not reserved. -/
def IsName (name : String) : Prop :=
  Spelled .ident name.toList

theorem IsName.isWord (h : IsName name) :
    name.toList.head?.any isWordStart = true ∧ name.toList.all isWordChar = true := by
  unfold IsName at h
  generalize name.toList = cs at h
  cases h with
  | word hc hcs hk =>
    refine ⟨hc, all_eq_true.mpr fun x hx => ?_⟩
    rcases mem_cons.mp hx with rfl | hx
    · exact isWordChar_of_isWordStart hc
    · exact hcs x hx
  | pair h => exact absurd rfl (text_ne_of_pair h)
  | single h => exact absurd rfl (text_ne_of_char h)

theorem isName_of_mem (h : name ∈ ["_", "address", "sda", "scl", "freq"]) : IsName name := by
  have hnames : ∀ name ∈ ["_", "address", "sda", "scl", "freq"],
      name.toList.head?.any isWordStart = true ∧ name.toList.all isWordChar = true
        ∧ kindOfWord name = .ident := by
    decide
  obtain ⟨hstart, hall, hkind⟩ := hnames name h
  exact spelled_of_word hstart hall hkind

/-- The text of one of the kinds, each with one spelling only. -/
def IsTextOf (kinds : List Kind) (text : String) : Prop :=
  ∃ k ∈ kinds, text = k.text

/-- The binary operators that make nodes of one sort. -/
def binaryOperators (isBitwise : Bool) : List Kind :=
  (levels.filter fun level => level.isBitwise == isBitwise).flatMap Level.operators

/-- The literals that may occur: whether there may be fractions, and
which texts. -/
structure Literals where
  floats : Prop
  texts : String → Prop

/-- Any texts, and fractions or none. -/
instance : Coe Prop Literals where
  coe floats := { floats, texts := fun _ => True }

/-- A literal value and the name of its type. -/
def LiteralValue.Proper (lits : Literals) : LiteralValue → String → Prop
  | int n, typeName => 0 ≤ n ∧ typeName = "int"
  | float _, typeName => lits.floats ∧ typeName = "float"
  | bool _, typeName => typeName = "bool"
  | text s, typeName => lits.texts s ∧ typeName = "string"
  | duration n unit, typeName =>
    0 ≤ n ∧ n.toNat < 10 ^ digitLimit ∧ unit.toList ∈ durationUnits ∧ typeName = "Duration"

/-- A parameter of a function. -/
def Param.Proper (p : Param) : Prop :=
  IsName p.name ∧ IsName p.typeName

/-- A field of a struct. -/
def StructField.Proper (f : StructField) : Prop :=
  IsName f.name ∧ IsName f.typeName

/-- The statements that may stand in a value block.  A leading `if`
starts an expression there. -/
def Stmt.isValueItem : Stmt → Bool
  | .importDecl .. | .structDecl .. | .taskDecl .. | .busDecl .. | .functionDecl ..
  | .loopDecl .. | .ifElse .. => false
  | _ => true

/-- The statements that may stand first in a `for` header. -/
def Stmt.isClause : Stmt → Bool
  | .varDecl .. | .expr .. => true
  | _ => false

/-- The expression is the name that only the keyword `analogRead`
yields. -/
def Expr.isAnalogRead : Expr → Bool
  | .ident _ name => name = "analogRead"
  | _ => false

section Trees

variable (lits : Literals)

mutual

/-- An expression that a reading can yield. -/
def Expr.Proper : Expr → Prop
  | .literal _ value typeName => value.Proper lits typeName
  | .ident _ name => IsName name
  | .unary _ op e => IsTextOf [.bang, .minus, .tilde] op ∧ e.Proper
  | .postfixed _ e op => e.Proper ∧ IsTextOf [.increment, .decrement] op
  | .binary _ l op r => l.Proper ∧ IsTextOf (binaryOperators false) op ∧ r.Proper
  | .bitwise _ l op r => l.Proper ∧ IsTextOf (binaryOperators true) op ∧ r.Proper
  | .assign _ l op r =>
    l.Proper ∧ isTarget l = true ∧ IsTextOf assignmentOperators op ∧ r.Proper
  | .cast _ e typeName => e.Proper ∧ IsName typeName
  | .call _ callee args =>
    (callee.isAnalogRead = true ∧ args.length = 1 ∨ callee.Proper) ∧ exprsProper args
  | .structInit _ typeName fields => IsName typeName ∧ fields ≠ [] ∧ fieldsProper fields
  | .member _ e name => e.Proper ∧ IsName name
  | .ifElse _ condition thenBlock thenValue elseBlock elseValue =>
    condition.Proper ∧ thenBlock.Proper ∧ (∀ s ∈ thenBlock.statements, s.isValueItem = true)
      ∧ thenValue.Proper ∧ elseBlock.Proper
      ∧ (∀ s ∈ elseBlock.statements, s.isValueItem = true) ∧ elseValue.Proper

def exprProper? : Option Expr → Prop
  | some e => e.Proper
  | none => True

def exprsProper : List Expr → Prop
  | [] => True
  | e :: es => e.Proper ∧ exprsProper es

/-- A field of a struct initializer that a reading can yield. -/
def FieldInit.Proper : FieldInit → Prop
  | .mk name value => IsName name ∧ value.Proper

def fieldsProper : List FieldInit → Prop
  | [] => True
  | f :: fs => f.Proper ∧ fieldsProper fs

def Block.Proper : Block → Prop
  | .mk _ statements => stmtsProper statements

def blockProper? : Option Block → Prop
  | some b => b.Proper
  | none => True

def clauseProper? : Option Stmt → Prop
  | some s => s.Proper ∧ s.isClause = true
  | none => True

def stmtsProper : List Stmt → Prop
  | [] => True
  | s :: ss => s.Proper ∧ stmtsProper ss

/-- An arm of a match statement that a reading can yield: only the
wildcard has no pattern. -/
def MatchArm.Proper : MatchArm → Prop
  | .mk _ pattern isWildcard body =>
    exprProper? pattern ∧ isWildcard = pattern.isNone ∧ body.Proper

def armsProper : List MatchArm → Prop
  | [] => True
  | arm :: arms => arm.Proper ∧ armsProper arms

/-- A decorator that a reading can yield. -/
def Decorator.Proper : Decorator → Prop
  | .mk _ name value => IsName name ∧ value.Proper

def decoratorsProper : List Decorator → Prop
  | [] => True
  | d :: ds => d.Proper ∧ decoratorsProper ds

/-- A device that a reading can yield. -/
def Device.Proper : Device → Prop
  | .mk _ name address => IsName name ∧ address.Proper

def devicesProper : List Device → Prop
  | [] => True
  | d :: ds => d.Proper ∧ devicesProper ds

/-- A statement or declaration that a reading can yield. -/
def Stmt.Proper : Stmt → Prop
  | .importDecl .. => True
  | .structDecl _ name fields => IsName name ∧ ∀ f ∈ fields, f.Proper
  | .taskDecl _ name decorators body =>
    IsName name ∧ decoratorsProper decorators ∧ body ≠ none ∧ blockProper? body
  | .busDecl _ busType name sda scl freq devices =>
    (IsTextOf [.kwI2C, .kwSPI] busType ∨ IsName busType) ∧ IsName name ∧ sda.Proper ∧ scl.Proper
      ∧ freq.Proper ∧ devicesProper devices
  | .functionDecl _ name params returnType body =>
    IsName name ∧ (∀ p ∈ params, p.Proper) ∧ IsName returnType ∧ body.Proper
  | .loopDecl _ body => body.Proper
  | .varDecl _ name typeName initializer isMutable isConst _ =>
    IsName name ∧ (∀ t ∈ typeName, IsName t) ∧ exprProper? initializer ∧ isMutable = !isConst
  | .block body => body.Proper
  | .ifElse _ condition thenBranch elseBranch =>
    condition.Proper ∧ thenBranch.Proper ∧ blockProper? elseBranch
  | .whileLoop _ condition body => condition.Proper ∧ body.Proper
  | .forLoop _ init condition update body =>
    clauseProper? init ∧ exprProper? condition ∧ exprProper? update ∧ body.Proper
  | .returnValue _ value => exprProper? value
  | .expr _ e => e.Proper
  | .matchValue _ value arms => value.Proper ∧ armsProper arms
  | .spawn _ taskName => IsName taskName
  | .gpioMode _ pin mode => pin.Proper ∧ IsTextOf [.kwOut, .kwIn] mode
  | .digitalWrite _ pin value => pin.Proper ∧ value.Proper
  | .pwmWrite _ pin duty channel => pin.Proper ∧ duty.Proper ∧ exprProper? channel
  | .rgbWrite _ pin red green blue => pin.Proper ∧ red.Proper ∧ green.Proper ∧ blue.Proper
  | .delay _ time => time.Proper
  | .wifiConnect _ ssid password => ssid.Proper ∧ password.Proper
  | .raw _ code => ClosesRaw .code 0 code.toList

end

variable {lits}

theorem exprsProper_iff : exprsProper lits es ↔ ∀ e ∈ es, e.Proper lits := by
  induction es with
  | nil => simp [exprsProper]
  | cons e es ih => rw [exprsProper, ih, forall_mem_cons]

theorem fieldsProper_iff : fieldsProper lits fs ↔ ∀ f ∈ fs, f.Proper lits := by
  induction fs with
  | nil => simp [fieldsProper]
  | cons f fs ih => rw [fieldsProper, ih, forall_mem_cons]

theorem stmtsProper_iff : stmtsProper lits ss ↔ ∀ s ∈ ss, s.Proper lits := by
  induction ss with
  | nil => simp [stmtsProper]
  | cons s ss ih => rw [stmtsProper, ih, forall_mem_cons]

theorem armsProper_iff : armsProper lits arms ↔ ∀ arm ∈ arms, arm.Proper lits := by
  induction arms with
  | nil => simp [armsProper]
  | cons arm arms ih => rw [armsProper, ih, forall_mem_cons]

theorem decoratorsProper_iff : decoratorsProper lits ds ↔ ∀ d ∈ ds, d.Proper lits := by
  induction ds with
  | nil => simp [decoratorsProper]
  | cons d ds ih => rw [decoratorsProper, ih, forall_mem_cons]

theorem devicesProper_iff : devicesProper lits ds ↔ ∀ d ∈ ds, d.Proper lits := by
  induction ds with
  | nil => simp [devicesProper]
  | cons d ds ih => rw [devicesProper, ih, forall_mem_cons]

end Trees

/-- A program that a reading can yield. -/
def Program.Proper (lits : Literals) (p : Program) : Prop :=
  stmtsProper lits p.declarations

end SketchCompiler
