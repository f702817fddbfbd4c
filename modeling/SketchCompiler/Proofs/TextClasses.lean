/-
Classes of texts.  Generated code is put together from fixed texts, from
numbers and from the texts that the nodes of a program hold.  A class is a property of texts that all of
these have, if those of the nodes have it, and that is kept when a text of
the class is put into another one, or taken out, at any place
(`TextClass`).

Lines belong to a class together, since a block is opened on one line and
closed on another (`HoldsLines`).
-/
import SketchCompiler.Proofs.Occurrence
import SketchCompiler.Proofs.PrintedWords
import SketchCompiler.Proofs.WrittenProgram

namespace SketchCompiler

open List hiding head tail span

variable {lines : List Line} {s : String} {cs : List Char}
  {w : String} {lits : Literals}

-- ==== brackets

namespace Text

/-- The round and curly brackets that are open behind a text, the
innermost first, given those open before it; `none` if one is closed that
is not the innermost. -/
def openAfter : List Char → List Char → Option (List Char)
  | [], stack => some stack
  | '(' :: cs, stack => openAfter cs ('(' :: stack)
  | '\x7b' :: cs, stack => openAfter cs ('\x7b' :: stack)
  | ')' :: cs, '(' :: stack => openAfter cs stack
  | '\x7d' :: cs, '\x7b' :: stack => openAfter cs stack
  | ')' :: _, _ => none
  | '\x7d' :: _, _ => none
  | _ :: cs, stack => openAfter cs stack

/-- The character is printable. -/
def isVisible (c : Char) : Bool :=
  32 ≤ c.toNat && c.toNat ≤ 126

/-- The character belongs to a word, or is printable and no bracket. -/
def isPlain (c : Char) : Bool :=
  (isVisible c && !(['(', ')', '\x7b', '\x7d'].contains c)) || isWordChar c

/-- The character stands in numbers. -/
def isNumeral (c : Char) : Bool :=
  isWordChar c || ['.', '+', '-'].contains c

/-- The text is printable, and its brackets are closed as they were
opened. -/
def isFixed (cs : List Char) : Bool :=
  cs.all isVisible && openAfter cs [] == some []

end Text

open Text

-- ==== numbers

theorem isNumeral_toDigits (n : Nat) : ∀ c ∈ Nat.toDigits 10 n, isNumeral c = true := by
  obtain ⟨ds, hlt, -, -, htext⟩ := Numeral.exists_digits (by decide : 1 < 10) n
  rw [htext]
  intro c hc
  obtain ⟨d, hd, rfl⟩ := mem_map.mp hc
  have hdigits : ∀ d < 10, isNumeral (Nat.digitChar d) = true := by decide
  exact hdigits d (hlt d hd)

theorem isNumeral_int (h : Emit.int n = .ok text) : ∀ c ∈ text.toList, isNumeral c = true := by
  unfold Emit.int Numeral.writeInt at h
  split at h
  · cases h
  · cases h
    cases n with
    | ofNat m =>
      change ∀ c ∈ (String.ofList (Nat.toDigits 10 m)).toList, isNumeral c = true
      rw [String.toList_ofList]
      exact isNumeral_toDigits m
    | negSucc m =>
      change ∀ c ∈ ("-" ++ String.ofList (Nat.toDigits 10 (m + 1))).toList, isNumeral c = true
      simp only [String.toList_append, String.toList_ofList]
      exact forall_mem_append.mpr ⟨all_eq_true.mp (by decide), isNumeral_toDigits (m + 1)⟩

theorem isNumeral_positional (s : Decimal.Scientific) :
    ∀ c ∈ Decimal.positional s, isNumeral c = true := by
  have hdigits := isNumeral_toDigits s.digits
  have hzeros (k : Nat) : ∀ c ∈ List.replicate k '0', isNumeral c = true := by
    intro c hc
    rw [(mem_replicate.mp hc).2]
    decide
  unfold Decimal.positional
  simp only
  split
  · refine forall_mem_append.mpr ⟨forall_mem_append.mpr ⟨hdigits, hzeros _⟩, ?_⟩
    exact all_eq_true.mp (by decide)
  · have hpadded (k : Nat) := forall_mem_append.mpr ⟨hzeros k, hdigits⟩
    exact forall_mem_append.mpr ⟨fun c hc => hpadded _ c (mem_of_mem_take hc),
      forall_mem_cons.mpr ⟨by decide, fun c hc => hpadded _ c (mem_of_mem_drop hc)⟩⟩

theorem isNumeral_exponential (s : Decimal.Scientific) :
    ∀ c ∈ Decimal.exponential s, isNumeral c = true := by
  have hfirst := isNumeral_toDigits s.digits
  -- the sign and the digits of the exponent
  have hmark (sign : Char) (hsign : isNumeral sign = true) (k : Nat) :
      ∀ c ∈ sign :: (if k < 10 then ['0'] else []) ++ Nat.toDigits 10 k, isNumeral c = true := by
    refine forall_mem_append.mpr ⟨forall_mem_cons.mpr ⟨hsign, ?_⟩, isNumeral_toDigits k⟩
    split <;> exact all_eq_true.mp (by decide)
  unfold Decimal.exponential
  simp only
  split
  · exact forall_mem_nil _
  · rename_i d hd
    rw [hd] at hfirst
    refine forall_mem_cons.mpr ⟨hfirst d mem_cons_self, forall_mem_cons.mpr ⟨by decide, ?_⟩⟩
    split
    · exact hmark '+' (by decide) _
    · exact hmark '-' (by decide) _
  · rename_i d rest _ hd
    rw [hd] at hfirst
    obtain ⟨hd, hrest⟩ := forall_mem_cons.mp hfirst
    refine forall_mem_append.mpr ⟨forall_mem_cons.mpr ⟨hd,
      forall_mem_cons.mpr ⟨by decide, hrest⟩⟩, forall_mem_cons.mpr ⟨by decide, ?_⟩⟩
    split
    · exact hmark '+' (by decide) _
    · exact hmark '-' (by decide) _

theorem isNumeral_decimal (x : Float) : ∀ c ∈ (Decimal.text x).toList, isNumeral c = true := by
  unfold Decimal.text
  split
  · exact all_eq_true.mp (by decide)
  · split <;> exact all_eq_true.mp (by decide)
  · rename_i negative m q _
    have hbody (s : Decimal.Scientific) :
        ∀ c ∈ (if Decimal.isPositional s then Decimal.positional s else Decimal.exponential s),
          isNumeral c = true := by
      split
      · exact isNumeral_positional s
      · exact isNumeral_exponential s
    rw [String.toList_ofList]
    cases negative with
    | true => exact forall_mem_cons.mpr ⟨by decide, hbody _⟩
    | false => exact hbody _

-- ==== classes of texts

/-- A property of texts that those of a class can be put together from. -/
structure TextClass where
  /-- The text belongs to the class. -/
  Holds : String → Prop
  plain : ∀ {s : String}, (∀ c ∈ s.toList, isPlain c = true) → Holds s
  fixed : ∀ {cs : List Char}, isFixed cs = true → Holds (String.ofList cs)
  insert : ∀ {w : String}, Holds w → ∀ a b, Holds (a ++ w ++ b) ↔ Holds (a ++ b)

namespace TextClass

variable {P : TextClass}

/-- The text belongs to the class when another one follows. -/
def Before (P : TextClass) (rest s : String) : Prop :=
  P.Holds (s ++ rest)

theorem holds_iff (P : TextClass) (s : String) : P.Holds s ↔ P.Before "" s := by
  rw [Before, String.append_empty]

@[simp] theorem before_append_holds {rest : String} (hw : P.Holds w) :
    P.Before rest (s ++ w) ↔ P.Before rest s :=
  P.insert hw s rest

@[simp low] theorem before_append {rest : String} :
    P.Before rest (s ++ w) ↔ P.Before (w ++ rest) s := by
  rw [Before, Before, String.append_assoc]

@[simp] theorem before_holds {rest : String} (hw : P.Holds w) :
    P.Before rest w ↔ P.Holds rest := by
  simpa [Before] using P.insert hw "" rest

theorem text (P : TextClass) (h : isFixed cs = true) : P.Holds (String.ofList cs) := P.fixed h

theorem fixed_append (h : isFixed (cs ++ rest) = true) :
    P.Holds (String.ofList cs ++ String.ofList rest) := by
  rw [← String.ofList_append]
  exact P.fixed h

theorem Before.fixed (h : isFixed (cs ++ rest) = true) :
    P.Before (String.ofList rest) (String.ofList cs) :=
  fixed_append h

theorem fixed_toList (h : isFixed s.toList = true) : P.Holds s := by
  rw [← String.ofList_toList (s := s)]
  exact P.fixed h

theorem empty (P : TextClass) : P.Holds "" := P.text rfl

theorem append (hs : P.Holds s) (ht : P.Holds t) : P.Holds (s ++ t) := by
  rw [P.holds_iff, before_append_holds ht, before_holds hs]
  exact P.text rfl

theorem of_append_left (ht : P.Holds t) (h : P.Holds (s ++ t)) : P.Holds s := by
  rw [P.holds_iff, before_append_holds ht] at h
  exact (P.holds_iff s).mpr h

theorem intercalate (hsep : P.Holds sep) (h : ∀ t ∈ texts, P.Holds t) :
    P.Holds (sep.intercalate texts) := by
  induction texts with
  | nil => exact P.empty
  | cons t rest ih =>
    have ht := h t mem_cons_self
    have hrest := ih fun u hu => h u (mem_cons_of_mem _ hu)
    cases rest with
    | nil => rwa [String.intercalate_singleton]
    | cons u rest =>
      rw [String.intercalate_cons_cons]
      exact append (append ht hsep) hrest

theorem trimRightWhile (hp : ∀ c, p c = true → isPlain c = true) (h : P.Holds s) :
    P.Holds (String.ofList (Text.trimRightWhile p s.toList)) := by
  have hcut : s = String.ofList (Text.trimRightWhile p s.toList)
      ++ String.ofList (s.toList.reverse.takeWhile p).reverse := by
    rw [Text.trimRightWhile, ← String.ofList_append, ← reverse_append,
      takeWhile_append_dropWhile, reverse_reverse, String.ofList_toList]
  rw [hcut] at h
  refine of_append_left (P.plain fun c hc => hp c ?_) h
  rw [String.toList_ofList, mem_reverse] at hc
  exact mem_takeWhile_imp hc

theorem numeral (h : ∀ c ∈ s.toList, isNumeral c = true) : P.Holds s := by
  refine P.plain fun c hc => ?_
  rcases Bool.or_eq_true_iff.mp (h c hc) with hword | hmark
  · rw [isPlain, hword, Bool.or_true]
  · have hmarks : ∀ c ∈ ['.', '+', '-'], isPlain c = true := all_eq_true.mp (by decide)
    exact hmarks c (contains_iff_mem.mp hmark)

theorem toGenerated (h : P.Holds name) : P.Holds (TypeName.toGenerated name) := by
  unfold TypeName.toGenerated
  cases hlookup : TypeName.generated.lookup (lower name) with
  | none => exact h
  | some text =>
    have htable : ∀ entry ∈ TypeName.generated, isFixed entry.2.toList = true := by decide +kernel
    exact fixed_toList (htable (lower name, text) (mem_of_lookup hlookup))

end TextClass

-- ==== nodes

variable {P : TextClass}

/-- A literal value belongs to the class. -/
def LiteralValue.Fits (P : TextClass) : LiteralValue → Prop
  | .text s => P.Holds s
  | .duration _ unit => P.Holds (quoted unit)
  | _ => True

/-- The texts that an expression holds itself belong to the class. -/
def Expr.Fits (P : TextClass) : Expr → Prop
  | .literal _ value _ => value.Fits P
  | .ident _ name | .member _ _ name => P.Holds name
  | .unary _ op _ | .postfixed _ _ op | .binary _ _ op _ | .bitwise _ _ op _
  | .assign _ _ op _ => P.Holds op
  | .cast _ _ typeName | .structInit _ typeName _ => P.Holds typeName
  | .call .. | .ifElse .. => True

/-- The texts that a statement holds itself belong to the class. -/
def Stmt.Fits (P : TextClass) : Stmt → Prop
  | .structDecl _ name fields => P.Holds name ∧ ∀ f ∈ fields, P.Holds f.name ∧ P.Holds f.typeName
  | .functionDecl _ name params returnType _ =>
    P.Holds name ∧ P.Holds returnType ∧ ∀ q ∈ params, P.Holds q.name ∧ P.Holds q.typeName
  | .varDecl _ name typeName _ _ _ _ => P.Holds name ∧ ∀ t ∈ typeName, P.Holds t
  | .taskDecl _ name _ _ | .spawn _ name => P.Holds name
  | .raw _ code => ∀ t ∈ splitLines code, P.Holds t
  | _ => True

/-- The texts that a node holds itself belong to the class. -/
def Node.Fits (P : TextClass) : Node → Prop
  | .expr _ e => e.Fits P
  | .stmt _ s => s.Fits P

theorem IsName.holds (h : IsName name) : P.Holds name := by
  refine P.plain fun c hc => ?_
  rw [isPlain, all_eq_true.mp h.isWord.2 c hc, Bool.or_true]

/-- The text of one of some kinds whose spellings are fixed texts. -/
theorem IsTextOf.holds (h : IsTextOf kinds text)
    (hkinds : ∀ k ∈ kinds, isFixed k.text.toList = true) : P.Holds text := by
  obtain ⟨k, hk, rfl⟩ := h
  exact TextClass.fixed_toList (hkinds k hk)

theorem LiteralValue.Proper.fits {value : LiteralValue} {typeName : String}
    (h : value.Proper lits typeName) (htext : ∀ s, value = .text s → P.Holds s) :
    value.Fits P := by
  cases value with
  | text s => exact htext s rfl
  | duration n unit =>
    have hunits : ∀ cs ∈ durationUnits, isFixed (quoted (String.ofList cs)).toList = true := by
      decide +kernel
    have hunit := hunits _ h.2.2.1
    rw [String.ofList_toList] at hunit
    exact TextClass.fixed_toList hunit
  | _ => trivial

theorem Node.ProperFor.fits : ∀ {n : Node}, n.ProperFor lits →
    (∀ view span s typeName, n = .expr view (.literal span (.text s) typeName) → P.Holds s) →
    (∀ view span code, n = .stmt view (.raw span code) → ∀ t ∈ splitLines code, P.Holds t) →
    n.Fits P
  | .expr view e, h, htext, _ => by
    rcases h with h | h
    · cases e with
      | literal span value typeName =>
        exact LiteralValue.Proper.fits h fun s hs => htext view span s typeName (by rw [hs])
      | ident => exact IsName.holds h
      | unary => exact h.1.holds (by decide +kernel)
      | postfixed => exact h.2.holds (by decide +kernel)
      | binary | bitwise => exact h.2.1.holds (by decide +kernel)
      | assign => exact h.2.2.1.holds (by decide +kernel)
      | cast | member => exact h.2.holds
      | structInit => exact h.1.holds
      | call | ifElse => trivial
    · cases e with
      | ident span name =>
        show P.Holds name
        rw [of_decide_eq_true h]
        exact P.text rfl
      | _ => cases h
  | .stmt view s, h, _, hraw => by
    cases s with
    | structDecl => exact ⟨h.1.holds, fun f hf => ⟨(h.2 f hf).1.holds, (h.2 f hf).2.holds⟩⟩
    | functionDecl =>
      exact ⟨h.1.holds, h.2.2.1.holds, fun q hq => ⟨(h.2.1 q hq).1.holds, (h.2.1 q hq).2.holds⟩⟩
    | varDecl => exact ⟨h.1.holds, fun t ht => (h.2.1 t ht).holds⟩
    | taskDecl => exact h.1.holds
    | spawn => exact IsName.holds h
    | raw span code => exact hraw view span code rfl
    | _ => trivial

-- ==== lines

/-- The texts of lines one behind the other, each with the same text
behind it. -/
def glue (sep : String) : List Line → String
  | [] => ""
  | l :: lines => l.text ++ sep ++ glue sep lines

theorem glue_append (sep : String) (as bs : List Line) :
    glue sep (as ++ bs) = glue sep as ++ glue sep bs := by
  induction as with
  | nil => simp [glue]
  | cons l as ih => simp only [cons_append, glue, ih, String.append_assoc]

theorem intercalate_append_sep (sep : String) : ∀ {lines : List Line}, lines ≠ [] →
    sep.intercalate (lines.map (·.text)) ++ sep = glue sep lines
  | [], h => absurd rfl h
  | [l], _ => by simp [glue]
  | l :: m :: lines, _ => by
    have ih := intercalate_append_sep sep (cons_ne_nil m lines)
    rw [map_cons] at ih
    rw [map_cons, map_cons, String.intercalate_cons_cons, String.append_assoc, ih]
    rfl

/-- The lines one behind the other belong to the class. -/
def HoldsLines (P : TextClass) (lines : List Line) : Prop :=
  P.Holds (glue "" lines)

theorem HoldsLines.spread (h : HoldsLines P lines) (hmargin : P.Holds margin)
    (hsep : P.Holds sep) :
    P.Holds (glue sep (lines.map fun l => { l with text := margin ++ l.text })) := by
  -- the texts are put in line by line, with the lines before them in front
  suffices hfront : ∀ (lines : List Line) (front : String), P.Holds (front ++ glue "" lines) →
      P.Holds (front ++ glue sep (lines.map fun l => { l with text := margin ++ l.text })) by
    have hall := hfront lines "" (by rwa [String.empty_append])
    rwa [String.empty_append] at hall
  intro lines
  induction lines with
  | nil => exact fun _ h => h
  | cons l lines ih =>
    intro front hfront
    have hwider := (P.insert hmargin front (l.text ++ "" ++ glue "" lines)).mpr hfront
    have hlonger := (P.insert hsep (front ++ margin ++ l.text) (glue "" lines)).mpr (by
      simpa only [String.append_empty, String.append_assoc] using hwider)
    have hrest := ih (front ++ margin ++ l.text ++ sep) hlonger
    simpa only [map_cons, glue, String.append_assoc] using hrest

theorem HoldsLines.glue (h : HoldsLines P lines) (hsep : P.Holds sep) :
    P.Holds (glue sep lines) := by
  have hspread := h.spread (P.empty) hsep
  simpa using hspread

theorem HoldsLines.nil : HoldsLines P [] := P.empty

theorem HoldsLines.append (ha : HoldsLines P as) (hb : HoldsLines P bs) :
    HoldsLines P (as ++ bs) := by
  rw [HoldsLines, glue_append]
  exact TextClass.append ha hb

theorem HoldsLines.singleton (h : P.Holds l.text) : HoldsLines P [l] := by
  rwa [HoldsLines, SketchCompiler.glue, SketchCompiler.glue, String.append_empty,
    String.append_empty]

theorem HoldsLines.of_forall (h : ∀ l ∈ lines, P.Holds l.text) : HoldsLines P lines := by
  induction lines with
  | nil => exact .nil
  | cons l lines ih =>
    obtain ⟨hl, hlines⟩ := forall_mem_cons.mp h
    exact HoldsLines.append (.singleton hl) (ih hlines)

/-- Texts of the class that all stand for one span. -/
theorem HoldsLines.map {texts : List String} {span : Option Span} (h : ∀ t ∈ texts, P.Holds t) :
    HoldsLines P (texts.map (⟨·, span⟩)) := by
  refine .of_forall fun l hl => ?_
  obtain ⟨t, ht, rfl⟩ := mem_map.mp hl
  exact h t ht

theorem HoldsLines.flatMap :
    ∀ {xs : List α}, (∀ x ∈ xs, HoldsLines P (f x)) → HoldsLines P (xs.flatMap f)
  | [], _ => .nil
  | x :: xs, h => by
    rw [flatMap_cons]
    exact (h x mem_cons_self).append (flatMap fun y hy => h y (mem_cons_of_mem _ hy))

theorem HoldsLines.indent (h : HoldsLines P lines) : HoldsLines P (lines.map (·.indent)) :=
  h.spread (P.text rfl) (P.empty)

theorem HoldsLines.enclosed (hends : P.Holds (first.text ++ last.text))
    (hbody : HoldsLines P body) : HoldsLines P (first :: body ++ [last]) := by
  have hinner := (P.insert hbody first.text last.text).mpr hends
  simpa only [HoldsLines, cons_append, SketchCompiler.glue, glue_append, String.append_empty,
    String.append_assoc] using hinner

theorem HoldsLines.fixed_cons
    (h : P.Holds (String.ofList (cs ++ rest) ++ SketchCompiler.glue "" lines)) :
    P.Holds (String.ofList cs ++ SketchCompiler.glue ""
      (⟨String.ofList rest, span⟩ :: lines)) := by
  simpa only [SketchCompiler.glue, String.append_empty, String.ofList_append, String.append_assoc]
    using h

theorem HoldsLines.braced (hhead : P.Holds (head ++ "\x7d")) (hbody : HoldsLines P body) :
    HoldsLines P (Emit.braced head span body) :=
  .enclosed hhead hbody.indent

theorem HoldsLines.inline (h : HoldsLines P lines) : P.Holds (Emit.inline lines) := by
  unfold Emit.inline
  split
  · exact P.text rfl
  · rename_i hne
    rw [intercalate_append_sep " " fun hnil => hne (by rw [hnil]; rfl)]
    exact h.glue (P.text rfl)

/-- The code whose lines belong to the class. -/
theorem HoldsLines.code {sk : Sketch} (h : HoldsLines P sk.lines) (hbreak : P.Holds "\n") :
    P.Holds sk.code := by
  unfold Sketch.code
  by_cases hne : sk.lines = []
  · rw [hne]
    exact TextClass.append (P.empty) hbreak
  · rw [intercalate_append_sep "\n" hne]
    exact h.glue hbreak

end SketchCompiler
