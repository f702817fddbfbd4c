/-
Compact texts.  Generated expressions are written with a blank around
the operators between operands and nowhere else, so what keeps a word
from running on is the character behind it.  `Scans cs ws` says that the
text `cs` scans to the words `ws` in front of whatever may stand behind
an operand (`Behind`): nothing, a blank, a parenthesis, a comma, an
operator behind the operand, or a point and a name.

A text of two parts scans as its parts do when the second may stand
behind an operand (`Scans.append`).  The text of an operand moreover
starts with a parenthesis, a letter or a digit (`Compact`), so an
operator in front of it makes no longer operator with it.
-/
import SketchCompiler.Proofs.PrintedWords

namespace SketchCompiler

open Text

open List hiding head tail span

variable {ws : List Word} {cs : List Char}

-- ==== what stands behind a text

/-- What may stand behind the text of an operand. -/
inductive Behind : List Char → Prop where
  | nil : Behind []
  | mark {c : Char} {rest : List Char} (hc : c ∈ [' ', '(', ')', ',', '+', '-']) :
      Behind (c :: rest)
  | member {c : Char} {rest : List Char} (hc : isWordStart c = true) : Behind ('.' :: c :: rest)

theorem Behind.stops {f : Char → Bool}
    (hf : [' ', '(', ')', ',', '+', '-', '.'].all (!f ·) = true) {tail : List Char}
    (h : Behind tail) : ∀ x ∈ tail.head?, f x = false := by
  intro x hx
  rw [← Bool.not_eq_true']
  cases h with
  | nil => cases hx
  | mark hc =>
    injection hx with hx
    exact all_eq_true.mp hf x (hx ▸ mem_append_left ['.'] hc)
  | member hc =>
    injection hx with hx
    exact all_eq_true.mp hf x (hx ▸ by decide)

theorem Behind.ends_number (h : Behind tail) :
    (∀ x ∈ tail.head?, isDigit x = false ∧ x ≠ 'x' ∧ x ≠ 'X' ∧ x ≠ 'b' ∧ x ≠ 'B')
      ∧ (∀ rest, tail = '.' :: rest → rest.takeWhile isDigit = [])
      ∧ durationSuffix tail = [] := by
  cases h with
  | nil => exact ⟨fun x hx => (by cases hx), fun rest hnil => (by cases hnil), rfl⟩
  | @mark c rest hc =>
    have hmarks : [' ', '(', ')', ',', '+', '-'].all (fun c => decide ((isDigit c = false
        ∧ c ≠ 'x' ∧ c ≠ 'X' ∧ c ≠ 'b' ∧ c ≠ 'B') ∧ c ≠ '.' ∧ c ≠ 'm' ∧ c ≠ 'u' ∧ c ≠ 's'))
        = true := by
      decide
    obtain ⟨hhead, hpoint, hm, hu, hs⟩ := of_decide_eq_true (all_eq_true.mp hmarks c hc)
    refine ⟨fun x hx => ?_, fun rest hrest => absurd (List.cons.inj hrest).1 hpoint, ?_⟩
    · injection hx with hx
      rw [← hx]
      exact hhead
    · unfold durationSuffix
      split
      · rename_i heq
        exact absurd (List.cons.inj heq).1 hm
      · rename_i heq
        exact absurd (List.cons.inj heq).1 hu
      · rename_i heq
        exact absurd (List.cons.inj heq).1 hs
      · rfl
  | @member c rest hc =>
    refine ⟨fun x hx => ?_, fun rest' hrest => ?_, rfl⟩
    · injection hx with hx
      rw [← hx]
      decide
    · -- the first character of a name is no digit
      obtain ⟨-, rfl⟩ := List.cons.inj hrest
      have hdigit : ¬ isDigit c = true := by
        intro hdigit
        rw [isWordStart_of_isDigit hdigit] at hc
        cases hc
      exact takeWhile_cons_of_neg hdigit

-- ==== pieces

/-- The text scans to the words, whatever may stand behind an
operand follows. -/
def Scans (cs : List Char) (ws : List Word) : Prop :=
  ∀ (p : Pos) {tail : List Char} {ws' : List Word}, Behind tail → (∀ q, ScansTo q tail ws') →
    ScansTo p (cs ++ tail) (ws ++ ws')

/-- The character may start an operand. -/
def startsOperand (c : Char) : Bool :=
  c = '(' || isWordStart c || isDigit c

/-- The text of an operand. -/
structure Compact (cs : List Char) (ws : List Word) : Prop where
  starts : ∃ c rest, cs = c :: rest ∧ startsOperand c = true
  scans : Scans cs ws

theorem Compact.startsTrivia (h : Compact cs ws) (tail : List Char) :
    startsTrivia (cs ++ tail) = false := by
  obtain ⟨c, rest, rfl, hc⟩ := h.starts
  simp only [startsOperand, Bool.or_eq_true, decide_eq_true_eq] at hc
  rcases hc with (rfl | hword) | hdigit
  · rfl
  · exact startsTrivia_of_isWordStart hword _
  · exact startsTrivia_of_isDigit hdigit _

theorem Scans.nil : Scans [] [] := fun p _ _ _ h => h p

/-- Texts that may stand one behind the other scan one behind the
other. -/
theorem Scans.append (h : Scans cs ws) (h' : Scans cs' ws')
    (hbehind : ∀ tail, Behind tail → Behind (cs' ++ tail)) : Scans (cs ++ cs') (ws ++ ws') := by
  intro p tail ws'' htail hrest
  rw [append_assoc, append_assoc]
  exact h p (hbehind tail htail) fun q => h' q htail hrest

theorem ScansTo.single (ha : operatorOfChar a = some k)
    (htrivia : startsTrivia (a :: tail) = false)
    (hpair : tail.head?.bind (operatorOfPair a) = none) (h : ∀ q, ScansTo q tail ws) (p : Pos) :
    ScansTo p (a :: tail) (⟨k, String.ofList [a]⟩ :: ws) :=
  .piece (rfl : [a] ++ tail = a :: tail) (cons_ne_nil _ _)
    (scanPiece_single ha htrivia hpair p) rfl rfl (h _)

/-- The separators that are part of no longer operator. -/
def plainMarks : List (Char × Kind) :=
  [('(', .lparen), (')', .rparen), (',', .comma), ('.', .dot)]

/-- A separator is read by itself. -/
theorem ScansTo.mark (ha : (a, k) ∈ plainMarks) (h : ∀ q, ScansTo q tail ws) (p : Pos) :
    ScansTo p (a :: tail) (Word.of k :: ws) := by
  have hmark : ∀ entry ∈ plainMarks, operatorOfChar entry.1 = some entry.2
      ∧ Word.of entry.2 = ⟨entry.2, String.ofList [entry.1]⟩ := by
    decide
  obtain ⟨hchar, hword⟩ := hmark _ ha
  rw [hword]
  have halone : startsTrivia (a :: tail) = false ∧ tail.head?.bind (operatorOfPair a) = none := by
    simp only [plainMarks, mem_cons, Prod.mk.injEq, not_mem_nil, or_false] at ha
    rcases ha with ⟨rfl, -⟩ | ⟨rfl, -⟩ | ⟨rfl, -⟩ | ⟨rfl, -⟩ <;> exact ⟨rfl, by cases tail <;> rfl⟩
  exact .single hchar halone.1 halone.2 h p

-- ==== operands

/-- A word, a name or a reserved one, is an operand. -/
theorem Compact.word (hstart : text.toList.head?.any isWordStart = true)
    (hall : text.toList.all isWordChar = true) (hkind : kindOfWord text ≠ .kwUnsafe) :
    Compact text.toList [Word.ofText text] := by
  obtain ⟨cs, rfl⟩ : ∃ cs, text = String.ofList cs := ⟨text.toList, String.ofList_toList.symm⟩
  rw [String.toList_ofList] at hstart hall ⊢
  obtain _ | ⟨c, rest⟩ := cs
  · cases hstart
  have hword : isWordStart c = true := hstart
  refine ⟨⟨c, rest, rfl, by simp [startsOperand, hword]⟩, fun p tail ws' htail h => ?_⟩
  have hrest : ∀ x ∈ rest, isWordChar x = true := fun x hx =>
    all_eq_true.mp hall x (mem_cons_of_mem _ hx)
  have hpiece := scanPiece_wordRun hword hrest hkind (htail.stops (by decide)) p
  exact .piece (rfl : (c :: rest) ++ tail = c :: (rest ++ tail)) (cons_ne_nil _ _)
    hpiece rfl rfl (h _)

/-- A name is an operand. -/
theorem Compact.name {name : String} (h : IsName name) : Compact name.toList [Word.name name] := by
  have hkind : kindOfWord name ≠ .kwUnsafe := by
    rw [h.kindOfWord]
    decide
  rw [← h.ofText]
  exact .word h.isWord.1 h.isWord.2 hkind

theorem Compact.keyword (hk : k ∈ [Kind.kwTrue, .kwFalse, .kwAnalogRead]) :
    Compact k.text.toList [Word.of k] := by
  have hkeys : ∀ k ∈ [Kind.kwTrue, .kwFalse, .kwAnalogRead],
      k.text.toList.head?.any isWordStart = true ∧ k.text.toList.all isWordChar = true
        ∧ kindOfWord k.text ≠ .kwUnsafe ∧ Word.ofText k.text = Word.of k := by
    decide
  obtain ⟨hstart, hall, hkind, hword⟩ := hkeys k hk
  rw [← hword]
  exact .word hstart hall hkind

/-- A number in base ten is an operand. -/
theorem Compact.decimal (n : Nat) :
    Compact (Nat.toDigits 10 n) [⟨.int, String.ofList (Nat.toDigits 10 n)⟩] := by
  have hdigits : ∀ d ∈ Nat.toDigits 10 n, isDigit d = true :=
    fun _ hd => isDigit_of_mem_toDigits hd
  obtain ⟨c, cs, hcs⟩ := exists_cons_of_ne_nil (Nat.toDigits_ne_nil (n := n) (b := 10))
  rw [hcs] at hdigits ⊢
  obtain ⟨hc, hrest⟩ := forall_mem_cons.mp hdigits
  refine ⟨⟨c, cs, rfl, by simp [startsOperand, hc]⟩, fun p tail ws' htail h => ?_⟩
  obtain ⟨hhead, hpoint, hunit⟩ := htail.ends_number
  have hpiece := scanPiece_decimalRun hc hrest hhead hpoint hunit p
  exact .piece (rfl : (c :: cs) ++ tail = c :: (cs ++ tail)) (cons_ne_nil _ _) hpiece rfl rfl (h _)

theorem Scans.parens (h : Scans cs ws) : Compact ('(' :: (cs ++ [')'])) (inParens ws) := by
  refine ⟨⟨'(', _, rfl, rfl⟩, fun p tail ws' _ hrest => ?_⟩
  have hclosed : ∀ q, ScansTo q (cs ++ ')' :: tail) (ws ++ Word.of .rparen :: ws') := fun q =>
    h q (.mark (by decide)) fun q => .mark (by decide) hrest q
  have hopen := ScansTo.mark (by decide : ('(', Kind.lparen) ∈ plainMarks) hclosed p
  simpa only [inParens, cons_append, append_assoc, nil_append] using hopen

-- ==== operators

theorem Compact.prefixed (h : Compact cs ws) (hop : IsTextOf [.bang, .minus, .tilde] op) :
    Scans (op.toList ++ cs) (Word.operator op :: ws) := by
  intro p tail ws' htail hrest
  have hscan : ∀ q, ScansTo q (cs ++ tail) (ws ++ ws') := fun q => h.scans q htail hrest
  obtain ⟨c, rest, rfl, hc⟩ := h.starts
  have hnot : c ≠ '=' ∧ c ≠ '>' ∧ c ≠ '-' := by
    refine ⟨?_, ?_, ?_⟩ <;> (rintro rfl; revert hc; decide)
  obtain ⟨k, hk, rfl⟩ := hop
  simp only [mem_cons, not_mem_nil, or_false] at hk
  rcases hk with rfl | rfl | rfl
  · refine .single (a := '!') rfl rfl ?_ hscan p
    show operatorOfPair '!' c = none
    unfold operatorOfPair
    split <;> simp_all
  · refine .single (a := '-') rfl rfl ?_ hscan p
    show operatorOfPair '-' c = none
    unfold operatorOfPair
    split <;> simp_all
  · exact .single (a := '~') rfl rfl rfl hscan p

theorem Scans.suffixed (h : Scans cs ws) (hop : IsTextOf [.increment, .decrement] op) :
    Scans (cs ++ op.toList) (ws ++ [Word.operator op]) := by
  obtain ⟨k, hk, rfl⟩ := hop
  simp only [mem_cons, not_mem_nil, or_false] at hk
  rcases hk with rfl | rfl
  · refine h.append (fun p tail ws' _ hrest => ?_) fun _ _ => .mark (by decide)
    exact .piece (rfl : ['+', '+'] ++ tail = '+' :: '+' :: tail) (by decide)
      (scanPiece_pair rfl tail p) rfl rfl (hrest _)
  · refine h.append (fun p tail ws' _ hrest => ?_) fun _ _ => .mark (by decide)
    exact .piece (rfl : ['-', '-'] ++ tail = '-' :: '-' :: tail) (by decide)
      (scanPiece_pair rfl tail p) rfl rfl (hrest _)

theorem Scans.joined (h : Scans cs ws) (hop : IsTextOf kinds op)
    (hk : ∀ k ∈ kinds, k ∈ operators.map (·.2) ∧ k.text ≠ "") (h' : Compact cs' ws') :
    Scans (cs ++ ' ' :: (op.toList ++ ' ' :: cs')) (ws ++ Word.operator op :: ws') := by
  obtain ⟨k, hmem, rfl⟩ := hop
  obtain ⟨hoperator, htext⟩ := hk k hmem
  rw [Word.operator_text k hoperator]
  refine h.append (fun p tail ws'' htail hrest => ?_) fun _ _ => .mark (by decide)
  have hbehind : ∀ q, ScansTo q (' ' :: (cs' ++ tail)) (ws' ++ ws'') := fun q =>
    .blank (h'.startsTrivia tail) (h'.scans _ htail hrest)
  have hsingle : ∀ k ∈ operators.map (·.2), k ≠ .kwUnsafe ∧ k ≠ .rawBlock ∧ k ≠ .string := by
    decide
  obtain ⟨hreserved, hraw, hstring⟩ := hsingle k hoperator
  have hpiece : PieceIs (Word.of k) (Word.of k).spelling :=
    pieceIs_spelling (Kind.spelled_text htext) hreserved hraw
  have hspelling : (Word.of k).spelling = k.text.toList := by
    unfold Word.spelling
    split
    · rename_i heq
      exact absurd heq hstring
    · rename_i heq
      exact absurd heq hraw
    · rfl
  have hword := ScansTo.word (p := p.right 1) hpiece (spelling_ne_nil hpiece)
    (.inr ⟨_, rfl⟩ : Separated (' ' :: (cs' ++ tail))) hbehind
  rw [hspelling] at hword
  have hall := ScansTo.blank (p := p) hword.1 hword.2
  simpa only [cons_append, append_assoc] using hall

/-- A member behind an operand. -/
theorem Scans.member {cs : List Char} {ws : List Word} {name : String} (h : Scans cs ws)
    (hname : IsName name) :
    Scans (cs ++ '.' :: name.toList) (ws ++ [Word.of .dot, Word.name name]) := by
  refine h.append (fun p tail ws' htail hrest => ?_) fun tail _ => ?_
  · exact ScansTo.mark (by decide) (fun q => (Compact.name hname).scans q htail hrest) p
  · have hstart := hname.isWord.1
    cases hcs : name.toList with
    | nil =>
      rw [hcs] at hstart
      cases hstart
    | cons c rest =>
      rw [hcs] at hstart
      exact .member hstart

/-- Operands with commas between them. -/
theorem Scans.list (h : List.Forall₂ Compact css wss) :
    Scans ([',', ' '].intercalate css) (commas wss) := by
  induction h with
  | nil => exact Scans.nil
  | @cons cs ws css wss hfirst hrest ih =>
    cases hrest with
    | nil =>
      rw [intercalate_singleton, commas_singleton]
      exact hfirst.scans
    | @cons cs' ws' css wss hsecond hrest =>
      rw [intercalate_cons_cons, commas_cons_cons, append_assoc]
      refine hfirst.scans.append (fun p tail ws'' htail hlast => ?_) fun _ _ => .mark (by decide)
      have htrivia : startsTrivia ([',', ' '].intercalate (cs' :: css) ++ tail) = false := by
        cases css with
        | nil =>
          rw [intercalate_singleton]
          exact hsecond.startsTrivia _
        | cons _ _ =>
          rw [intercalate_cons_cons, append_assoc, append_assoc]
          exact hsecond.startsTrivia _
      refine .mark (by decide : (',', Kind.comma) ∈ plainMarks) (fun q => ?_) p
      exact .blank htrivia (ih _ htail hlast)

/-- A call behind an operand. -/
theorem Scans.call (h : Scans cs ws) (hargs : List.Forall₂ Compact css wss) :
    Scans (cs ++ '(' :: ([',', ' '].intercalate css ++ [')'])) (ws ++ inParens (commas wss)) :=
  h.append (Scans.list hargs).parens.scans fun _ _ => .mark (by decide)

theorem Compact.extend (h : Compact cs ws) (h' : Scans (cs ++ cs') ws') :
    Compact (cs ++ cs') ws' := by
  obtain ⟨c, rest, rfl, hc⟩ := h.starts
  exact ⟨⟨c, rest ++ cs', rfl, hc⟩, h'⟩

/-- The text of an operand by itself scans to its words. -/
theorem Compact.scan (h : Compact cs ws) :
    ∃ tokens, Token.scan (String.ofList cs) = .ok { tokens, errors := [] }
      ∧ tokens.map Token.word = ws ++ [⟨.eof, ""⟩] := by
  have hend : ∀ q, ScansTo q [] [] := fun q => ⟨[⟨.eof, "", q⟩], rfl, rfl⟩
  obtain ⟨tokens, hscan, hwords⟩ := h.scans {} .nil hend
  rw [append_nil] at hscan hwords
  refine ⟨tokens, ?_, hwords⟩
  rw [Token.scan, String.toList_ofList]
  exact hscan

end SketchCompiler
