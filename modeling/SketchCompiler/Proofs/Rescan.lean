/-
Writing tokens down again.  A word is a token without its place; it is
written as its lexeme, a string literal in quotes with its escapes, a
raw block in braces.  Words that are spelled as their kinds allow,
written with one blank between them, scan to the same words
(`scan_written`).

A blank (or the end of the text) behind a word keeps it from running on:
no word, number or operator is continued by a blank.  A raw block
comes in one step with the keyword in front of it (`ScansTo.rawBlock`).
-/
import SketchCompiler.Proofs.Spelling
import SketchCompiler.Text.Blank

namespace SketchCompiler

open List Text

variable {a c b : Char} {cs tail ds : List Char} {k : Kind}
  {p : Pos} {ws : List Word}

-- ==== words

/-- How a character is written inside a string literal. -/
def escapeChar : Char → List Char
  | '\\' => ['\\', '\\']
  | '"' => ['\\', '"']
  | '\n' => ['\\', 'n']
  | c => [c]

/-- How a word is written. -/
def Word.spelling (w : Word) : List Char :=
  match w.kind with
  | .string => '"' :: w.lexeme.toList.flatMap escapeChar ++ ['"']
  | .rawBlock => '{' :: w.lexeme.toList ++ ['}']
  | _ => w.lexeme.toList

/-- Words written down with one blank between them. -/
def spellWords (ws : List Word) : List Char :=
  [' '].intercalate (ws.map Word.spelling)

-- ==== character classes

private theorem letterRanges_apart :
    (letterRanges.all fun r => (decimalRanges ++ otherDigitRanges).all fun s =>
      Nat.blt r.2 s.1 || Nat.blt s.2 r.1) = true := by
  decide +kernel

theorem isWordStart_of_isDigit (h : isDigit c = true) : isWordStart c = false := by
  have hunder : c ≠ '_' := by
    rintro rfl
    revert h
    decide
  suffices hletter : isLetter c = false by
    unfold isWordStart
    rw [hletter]
    simpa using hunder
  unfold isDigit at h
  unfold isLetter
  split at h
  · rename_i hascii
    rw [if_pos hascii]
    have halpha : c.isAlpha = (decide ('A'.val ≤ c.val ∧ c.val ≤ 'Z'.val)
        || decide ('a'.val ≤ c.val) && decide (c.val ≤ 'z'.val)) := rfl
    rw [halpha]
    simp only [Char.isDigit, Bool.and_eq_true, decide_eq_true_eq, Bool.or_eq_false_iff,
      Bool.and_eq_false_iff, decide_eq_false_iff_not, ge_iff_le] at h ⊢
    grind
  · rename_i hascii
    rw [if_neg hascii]
    rw [Bool.eq_false_iff]
    intro hl
    obtain ⟨r, hr, hr₁, hr₂⟩ := inRanges_iff.mp hl
    have hs : ∃ s ∈ decimalRanges ++ otherDigitRanges, s.1 ≤ c.toNat ∧ c.toNat ≤ s.2 := by
      rcases Bool.or_eq_true_iff.mp h with h | h
      · obtain ⟨s, hs, hc⟩ := inRanges_iff.mp h
        exact ⟨s, mem_append_left _ hs, hc⟩
      · obtain ⟨s, hs, hc⟩ := inRanges_iff.mp h
        exact ⟨s, mem_append_right _ hs, hc⟩
    obtain ⟨s, hs, hs₁, hs₂⟩ := hs
    have hapart := all_eq_true.mp (all_eq_true.mp letterRanges_apart r hr) s hs
    simp only [Bool.or_eq_true, Nat.blt_eq] at hapart
    omega

private theorem blankRanges_apart :
    ((letterRanges ++ decimalRanges ++ otherDigitRanges ++ otherNumberRanges).all fun r =>
      blankRanges.all fun s => Nat.blt r.2 s.1 || Nat.blt s.2 r.1) = true := by
  decide +kernel

private theorem blank_of_ascii :
    ∀ n < 128, isWordChar (Char.ofNat n) = true → isBlank (Char.ofNat n) = false := by
  decide +kernel

theorem isBlank_of_isWordChar (h : isWordChar c = true) : isBlank c = false := by
  cases hascii : isAscii c with
  | true =>
    have hsmall := blank_of_ascii c.toNat (of_decide_eq_true hascii)
    rw [Char.ofNat_toNat] at hsmall
    exact hsmall h
  | false =>
    rw [Bool.eq_false_iff]
    intro hblank
    obtain ⟨s, hs, hs₁, hs₂⟩ := inRanges_iff.mp hblank
    have hunder : c ≠ '_' := by
      rintro rfl
      exact absurd hascii (by decide)
    have hword : inRanges (letterRanges ++ decimalRanges ++ otherDigitRanges
        ++ otherNumberRanges) c
        = true := by
      simpa [isWordChar, isAlphanumeric, isLetter, isDigit, hascii, hunder, inRanges,
        or_assoc] using h
    obtain ⟨r, hr, hr₁, hr₂⟩ := inRanges_iff.mp hword
    have hapart := all_eq_true.mp (all_eq_true.mp blankRanges_apart r hr) s hs
    simp only [Bool.or_eq_true, Nat.blt_eq] at hapart
    omega

theorem startsTrivia_of_isWordStart (h : isWordStart c = true) (rest : List Char) :
    startsTrivia (c :: rest) = false := by
  unfold startsTrivia
  split
  all_goals first
    | rfl
    | (rename_i heq; injection heq with hc; subst hc; revert h; decide)

theorem startsTrivia_of_isDigit (h : isDigit c = true) (rest : List Char) :
    startsTrivia (c :: rest) = false := by
  unfold startsTrivia
  split
  all_goals first
    | rfl
    | (rename_i heq; injection heq with hc; subst hc; revert h; decide)

-- ==== separation

/-- What may stand behind a written word: nothing, or a blank. -/
def Separated (tail : List Char) : Prop :=
  tail = [] ∨ ∃ rest, tail = ' ' :: rest

theorem Separated.stops {f : Char → Bool} (hblank : f ' ' = false) (ht : Separated tail) :
    ∀ x ∈ tail.head?, f x = false := by
  rcases ht with rfl | ⟨rest, rfl⟩
  · intro x hx
    cases hx
  · intro x hx
    injection hx with hx
    rw [← hx, hblank]

theorem dropWhile_run (hcs : ∀ x ∈ cs, f x = true) (ht : ∀ x ∈ tail.head?, f x = false) :
    (cs ++ tail).dropWhile f = tail := by
  rw [dropWhile_append_of_pos hcs]
  cases tail with
  | nil => rfl
  | cons x tail =>
    have hx : f x = false := ht x rfl
    rw [dropWhile_cons_of_neg (by rw [hx]; exact Bool.false_ne_true)]

-- ==== pieces

/-- The piece at the start of a text is the one word, however the text
goes on behind a blank. -/
def PieceIs (w : Word) (cs : List Char) : Prop :=
  ∀ p tail, Separated tail → ∃ c rest, cs ++ tail = c :: rest
    ∧ startsTrivia (c :: rest) = false
    ∧ scanPiece p c rest = .ok
      { tokens := [⟨w.kind, w.lexeme, p⟩], width := cs.length, next := p.right cs.length }

theorem scanPiece_wordRun (hc : isWordStart c = true) (hcs : ∀ x ∈ cs, isWordChar x = true)
    (hk : kindOfWord (String.ofList (c :: cs)) ≠ .kwUnsafe)
    (ht : ∀ x ∈ tail.head?, isWordChar x = false) (p : Pos) :
    scanPiece p c (cs ++ tail) = .ok
      { tokens := [⟨kindOfWord (String.ofList (c :: cs)), String.ofList (c :: cs), p⟩],
        width := (c :: cs).length, next := p.right (c :: cs).length } := by
  have hword : (c :: (cs ++ tail)).takeWhile isWordChar = c :: cs := by
    rw [takeWhile_cons_of_pos (isWordChar_of_isWordStart hc), takeWhile_run hcs ht]
  unfold scanPiece scanWord
  simp only [startsTrivia_of_isWordStart hc, hc, hword, hk, if_true, if_false, Bool.false_eq_true]

theorem pieceIs_word (hc : isWordStart c = true) (hcs : ∀ x ∈ cs, isWordChar x = true)
    (hk : kindOfWord (String.ofList (c :: cs)) ≠ .kwUnsafe) :
    PieceIs ⟨kindOfWord (String.ofList (c :: cs)), String.ofList (c :: cs)⟩ (c :: cs) :=
  fun p tail ht => ⟨c, cs ++ tail, rfl, startsTrivia_of_isWordStart hc _,
    scanPiece_wordRun hc hcs hk (ht.stops (by decide)) p⟩

theorem scanPiece_digit (hc : isDigit c = true) :
    scanPiece p c rest = .ok (scanNumber p (c :: rest)) := by
  unfold scanPiece
  simp only [startsTrivia_of_isDigit hc, isWordStart_of_isDigit hc, hc, if_true, if_false,
    Bool.false_eq_true]

private theorem pieceIs_based {f : Char → Bool} (hf : f ' ' = false) (hne : ds ≠ [])
    (hds : ∀ d ∈ ds, f d = true) {issue : ScanIssue}
    (hscan : ∀ p digits, scanNumber p ('0' :: mark :: digits)
      = .ofLexeme .int p ('0' :: mark :: digits.takeWhile f)
        (if (digits.takeWhile f).isEmpty then [issue] else [])) :
    PieceIs ⟨.int, String.ofList ('0' :: mark :: ds)⟩ ('0' :: mark :: ds) := by
  intro p tail ht
  refine ⟨'0', mark :: (ds ++ tail), rfl, startsTrivia_of_isDigit (by decide) _, ?_⟩
  have hempty : ds.isEmpty = false := isEmpty_eq_false_iff.mpr hne
  rw [scanPiece_digit (by decide), hscan, takeWhile_run hds (ht.stops hf), hempty]
  rfl

theorem pieceIs_hexadecimal (hm : mark = 'x' ∨ mark = 'X') (hne : ds ≠ [])
    (hds : ∀ d ∈ ds, isHexDigit d = true) :
    PieceIs ⟨.int, String.ofList ('0' :: mark :: ds)⟩ ('0' :: mark :: ds) :=
  pieceIs_based (by decide) hne hds fun p digits => by rw [scanNumber, if_pos hm]

theorem pieceIs_binary (hm : mark = 'b' ∨ mark = 'B') (hne : ds ≠ [])
    (hds : ∀ d ∈ ds, isBinaryDigit d = true) :
    PieceIs ⟨.int, String.ofList ('0' :: mark :: ds)⟩ ('0' :: mark :: ds) := by
  have hnotHex : ¬ (mark = 'x' ∨ mark = 'X') := by
    rcases hm with rfl | rfl <;> decide
  exact pieceIs_based (by decide) hne hds fun p digits => by
    rw [scanNumber, if_neg hnotHex, if_pos hm]

private theorem scanNumber_decimal (h : ∀ m ∈ rest.head?, m ≠ 'x' ∧ m ≠ 'X' ∧ m ≠ 'b' ∧ m ≠ 'B') :
    scanNumber p (c :: rest) = scanDecimal p (c :: rest) := by
  unfold scanNumber
  split
  · rename_i mark digits heq
    injection heq with hc hrest
    obtain ⟨h₁, h₂, h₃, h₄⟩ := h mark (by rw [hrest]; exact rfl)
    rw [if_neg (not_or.mpr ⟨h₁, h₂⟩), if_neg (not_or.mpr ⟨h₃, h₄⟩), hc, hrest]
  · rfl

/-- A run of digits ends in front of anything that is neither a digit nor
a mark of another base. -/
def EndsDigits (tail : List Char) : Prop :=
  ∀ x ∈ tail.head?, isDigit x = false ∧ x ≠ 'x' ∧ x ≠ 'X' ∧ x ≠ 'b' ∧ x ≠ 'B'

theorem scanPiece_digits (hds : ∀ d ∈ c :: cs, isDigit d = true) (ht : EndsDigits tail) (p : Pos) :
    scanPiece p c (cs ++ tail) = .ok (scanDecimal p (c :: cs ++ tail))
      ∧ (c :: cs ++ tail).takeWhile isDigit = c :: cs
      ∧ (c :: cs ++ tail).dropWhile isDigit = tail := by
  have hmark : ∀ m ∈ (cs ++ tail).head?, m ≠ 'x' ∧ m ≠ 'X' ∧ m ≠ 'b' ∧ m ≠ 'B' := by
    intro m hm
    cases cs with
    | nil => exact (ht m hm).2
    | cons d cs =>
      injection hm with hm
      have hd : isDigit m = true := hds m (by rw [← hm]; simp)
      refine ⟨?_, ?_, ?_, ?_⟩ <;> (rintro rfl; revert hd; decide)
  have hstop : ∀ x ∈ tail.head?, isDigit x = false := fun x hx => (ht x hx).1
  refine ⟨?_, takeWhile_run hds hstop, dropWhile_run hds hstop⟩
  rw [scanPiece_digit (hds c mem_cons_self), scanNumber_decimal hmark]
  rfl

theorem scanPiece_decimalRun (hc : isDigit c = true) (hcs : ∀ d ∈ cs, isDigit d = true)
    (ht : EndsDigits tail) (hpoint : ∀ rest, tail = '.' :: rest → rest.takeWhile isDigit = [])
    (hunit : durationSuffix tail = []) (p : Pos) :
    scanPiece p c (cs ++ tail) = .ok
      { tokens := [⟨.int, String.ofList (c :: cs), p⟩], width := (c :: cs).length,
        next := p.right (c :: cs).length } := by
  obtain ⟨hpiece, htake, hdrop⟩ := scanPiece_digits (forall_mem_cons.mpr ⟨hc, hcs⟩) ht p
  rw [hpiece]
  unfold scanDecimal
  simp only [htake, hdrop]
  split
  · rename_i rest
    rw [hpoint rest rfl]
    rfl
  · rw [hunit]
    rfl

theorem pieceIs_decimal (hne : ds ≠ []) (hds : ∀ d ∈ ds, isDigit d = true) :
    PieceIs ⟨.int, String.ofList ds⟩ ds := by
  intro p tail ht
  obtain ⟨c, cs, rfl⟩ := exists_cons_of_ne_nil hne
  obtain ⟨hc, hcs⟩ := forall_mem_cons.mp hds
  refine ⟨c, cs ++ tail, rfl, startsTrivia_of_isDigit hc _, ?_⟩
  rcases ht with rfl | ⟨rest, rfl⟩
  · exact scanPiece_decimalRun hc hcs (fun _ hx => by cases hx) (fun _ hnil => by cases hnil) rfl p
  · refine scanPiece_decimalRun hc hcs (fun x hx => ?_) (fun _ hblank => by cases hblank) rfl p
    injection hx with hx
    rw [← hx]
    decide

theorem scanPiece_duration (hds : ∀ d ∈ c :: cs, isDigit d = true) (hu : unit ∈ durationUnits)
    (tail : List Char) (p : Pos) :
    scanPiece p c (cs ++ (unit ++ tail)) = .ok (.ofLexeme .duration p (c :: cs ++ unit)
      (if tail.head?.any isWordChar then [.trailingDurationSuffix] else [])) := by
  simp only [durationUnits, mem_cons, not_mem_nil, or_false] at hu
  have hempty : unit.isEmpty = false := by
    rcases hu with rfl | rfl | rfl <;> rfl
  have hends : EndsDigits (unit ++ tail) := by
    rcases hu with rfl | rfl | rfl <;> (intro x hx; cases hx; decide)
  obtain ⟨hpiece, htake, hdrop⟩ := scanPiece_digits hds hends p
  have hsuffix : durationSuffix (unit ++ tail) = unit := by
    rcases hu with rfl | rfl | rfl <;> rfl
  rw [hpiece]
  unfold scanDecimal
  simp only [htake, hdrop]
  split
  · rename_i behind heq
    rcases hu with rfl | rfl | rfl <;> cases heq
  · simp only [hsuffix, hempty, drop_left, Bool.false_eq_true, if_false]

theorem pieceIs_duration (hne : ds ≠ []) (hds : ∀ d ∈ ds, isDigit d = true)
    (hu : unit ∈ durationUnits) :
    PieceIs ⟨.duration, String.ofList (ds ++ unit)⟩ (ds ++ unit) := by
  intro p tail ht
  obtain ⟨c, cs, rfl⟩ := exists_cons_of_ne_nil hne
  refine ⟨c, cs ++ (unit ++ tail), by simp, startsTrivia_of_isDigit (hds c (.head _)) _, ?_⟩
  rw [scanPiece_duration hds hu]
  rcases ht with rfl | ⟨rest, rfl⟩
  · rfl
  · rfl

theorem pieceIs_fraction (hw : whole ≠ []) (hws : ∀ d ∈ whole, isDigit d = true) (hp : part ≠ [])
    (hps : ∀ d ∈ part, isDigit d = true) :
    PieceIs ⟨.float, String.ofList (whole ++ '.' :: part)⟩ (whole ++ '.' :: part) := by
  intro p tail ht
  obtain ⟨c, cs, rfl⟩ := exists_cons_of_ne_nil hw
  have hends : EndsDigits ('.' :: (part ++ tail)) := by
    intro x hx
    cases hx
    decide
  obtain ⟨hpiece, htake, hdrop⟩ := scanPiece_digits hws hends p
  refine ⟨c, cs ++ '.' :: (part ++ tail), by simp, startsTrivia_of_isDigit (hws c (.head _)) _, ?_⟩
  have hpart : (part ++ tail).takeWhile isDigit = part := takeWhile_run hps (ht.stops (by decide))
  have hempty : part.isEmpty = false := isEmpty_eq_false_iff.mpr hp
  rw [hpiece]
  unfold scanDecimal
  simp only [htake, hdrop, hpart, hempty, Bool.false_eq_true, if_false]
  rfl

-- ==== strings

theorem decodeEscapes_escapeChar (c : Char) (cs : List Char) :
    decodeEscapes (escapeChar c ++ cs) = (decodeEscapes cs).map (c :: ·) := by
  unfold escapeChar
  split
  · rfl
  · rfl
  · rfl
  · rename_i hslash hquote hline
    rw [singleton_append, decodeEscapes, if_neg]
    · rintro (h | h | h)
      all_goals contradiction
    · exact fun _ _ h => absurd h hslash

theorem decodeEscapes_escaped (cs : List Char) :
    decodeEscapes (cs.flatMap escapeChar) = some cs := by
  induction cs with
  | nil => rfl
  | cons c cs ih => rw [flatMap_cons, decodeEscapes_escapeChar, ih, Option.map_some]

theorem pieceIs_text (cs : List Char) :
    PieceIs ⟨.string, String.ofList cs⟩ ('"' :: cs.flatMap escapeChar ++ ['"']) := by
  intro p tail _
  refine ⟨'"', cs.flatMap escapeChar ++ '"' :: tail, by simp, rfl, ?_⟩
  have hpiece : scanPiece p '"' (cs.flatMap escapeChar ++ '"' :: tail)
      = scanString p (cs.flatMap escapeChar ++ '"' :: tail) := rfl
  rw [hpiece, scanString_closed (decodeEscapes_escaped cs), cons_append, length_cons,
    length_append]
  rfl

-- ==== operators

private theorem operatorOfPair_start (h : operatorOfPair a b = some k) (rest : List Char) :
    startsTrivia (a :: b :: rest) = false ∧ isWordStart a = false
      ∧ isDigit a = false ∧ a ≠ '"' := by
  unfold operatorOfPair at h
  split at h
  all_goals first
    | exact ⟨rfl, by decide, by decide, by decide⟩
    | cases h

theorem scanPiece_pair (h : operatorOfPair a b = some k) (tail : List Char) (p : Pos) :
    scanPiece p a (b :: tail) = .ok
      { tokens := [⟨k, String.ofList [a, b], p⟩], width := 2, next := p.right 2 } := by
  obtain ⟨htrivia, hword, hdigit, hquote⟩ := operatorOfPair_start h tail
  have hpair : (b :: tail).head?.bind (operatorOfPair a) = some k := h
  unfold scanPiece scanOperator
  simp only [htrivia, hword, hdigit, hquote, hpair, Bool.false_eq_true, if_false]
  rfl

theorem pieceIs_pair (h : operatorOfPair a b = some k) :
    PieceIs ⟨k, String.ofList [a, b]⟩ [a, b] :=
  fun p tail _ => ⟨a, b :: tail, rfl, (operatorOfPair_start h tail).1, scanPiece_pair h tail p⟩

theorem operatorOfChar_start (h : operatorOfChar a = some k) :
    isWordStart a = false ∧ isDigit a = false ∧ a ≠ '"' := by
  unfold operatorOfChar at h
  split at h
  all_goals first
    | exact ⟨by decide, by decide, by decide⟩
    | cases h

theorem scanPiece_single (h : operatorOfChar a = some k)
    (htrivia : startsTrivia (a :: tail) = false)
    (hpair : tail.head?.bind (operatorOfPair a) = none) (p : Pos) :
    scanPiece p a tail = .ok
      { tokens := [⟨k, String.ofList [a], p⟩], width := 1, next := p.right 1 } := by
  obtain ⟨hword, hdigit, hquote⟩ := operatorOfChar_start h
  unfold scanPiece scanOperator
  simp only [htrivia, hword, hdigit, hquote, hpair, h, Bool.false_eq_true, if_false]
  rfl

private theorem operatorOfChar_separated (h : operatorOfChar a = some k) (ht : Separated tail) :
    startsTrivia (a :: tail) = false
      ∧ tail.head?.bind (operatorOfPair a) = none := by
  unfold operatorOfChar at h
  split at h
  all_goals first
    | (rcases ht with rfl | ⟨rest, rfl⟩ <;> exact ⟨rfl, rfl⟩)
    | cases h

theorem pieceIs_single (h : operatorOfChar a = some k) : PieceIs ⟨k, String.ofList [a]⟩ [a] := by
  intro p tail ht
  obtain ⟨htrivia, hpair⟩ := operatorOfChar_separated h ht
  exact ⟨a, tail, rfl, htrivia, scanPiece_single h htrivia hpair p⟩

theorem pieceIs_spelling (h : Spelled w.kind w.lexeme.toList) (hkind : w.kind ≠ .kwUnsafe)
    (hraw : w.kind ≠ .rawBlock) : PieceIs w w.spelling := by
  obtain ⟨k, lexeme⟩ := w
  obtain ⟨cs, rfl⟩ : ∃ cs, lexeme = String.ofList cs :=
    ⟨lexeme.toList, by rw [String.ofList_toList]⟩
  simp only [String.toList_ofList] at h hkind hraw
  have hspelling (hk : k ≠ .string) : Word.spelling ⟨k, String.ofList cs⟩ = cs := by
    unfold Word.spelling
    split
    · rename_i heq
      exact absurd heq hk
    · rename_i heq
      exact absurd heq hraw
    · exact String.toList_ofList
  cases h with
  | word hc hcs hk =>
    subst hk
    rw [hspelling (kindOfWord_ne (by decide) (by decide))]
    exact pieceIs_word hc hcs hkind
  | hexadecimal hm hne hds =>
    rw [hspelling (by decide)]
    exact pieceIs_hexadecimal hm hne hds
  | binary hm hne hds =>
    rw [hspelling (by decide)]
    exact pieceIs_binary hm hne hds
  | decimal hne hds =>
    rw [hspelling (by decide)]
    exact pieceIs_decimal hne hds
  | fraction hw hws hp hps =>
    rw [hspelling (by decide)]
    exact pieceIs_fraction hw hws hp hps
  | duration hne hds hu =>
    rw [hspelling (by decide)]
    exact pieceIs_duration hne hds hu
  | text =>
    have htext : Word.spelling ⟨.string, String.ofList cs⟩
        = '"' :: cs.flatMap escapeChar ++ ['"'] := by
      simp only [Word.spelling, String.toList_ofList]
    rw [htext]
    exact pieceIs_text cs
  | raw hcs => exact absurd rfl hraw
  | pair hop =>
    rw [hspelling fun hk => (operatorOfPair_kind hop).1.2 (hk ▸ by decide)]
    exact pieceIs_pair hop
  | single hop =>
    rw [hspelling fun hk => (operatorOfChar_kind hop).2 (hk ▸ by decide)]
    exact pieceIs_single hop

-- ==== whole texts

theorem scanFrom_skip (n : Nat) (p : Pos) (cs : List Char) :
    scanFrom n p cs = scanFrom 0 p (cs.drop n) := by
  induction cs generalizing n with
  | nil =>
    rw [drop_nil, scanFrom, scanFrom]
  | cons c cs ih =>
    cases n with
    | zero => rfl
    | succ n => rw [scanFrom, drop_succ_cons, ih]

/-- The text scans to the words and the end marker, without findings. -/
def ScansTo (p : Pos) (cs : List Char) (ws : List Word) : Prop :=
  ∃ tokens, scanFrom 0 p cs = .ok { tokens, errors := [] }
    ∧ tokens.map Token.word = ws ++ [⟨.eof, ""⟩]

theorem ScansTo.piece {c : Char} {rest : List Char} {piece : Piece} (hcs : cs ++ tail = c :: rest)
    (hne : cs ≠ []) (hpiece : scanPiece p c rest = .ok piece) (herr : piece.errors = [])
    (hwidth : piece.width = cs.length) (h : ScansTo piece.next tail ws) :
    ScansTo p (cs ++ tail) (piece.tokens.map Token.word ++ ws) := by
  obtain ⟨tokens, hscan, hwords⟩ := h
  have hdrop : rest.drop (piece.width - 1) = tail := by
    obtain ⟨d, ds, rfl⟩ := exists_cons_of_ne_nil hne
    obtain ⟨-, hrest⟩ := List.cons.inj hcs
    rw [hwidth, ← hrest, length_cons, Nat.add_sub_cancel]
    exact drop_left
  refine ⟨piece.tokens ++ tokens, ?_, ?_⟩
  · rw [hcs, scanFrom, hpiece]
    simp only [bind, Except.bind, scanFrom_skip (piece.width - 1), hdrop, hscan, herr]
    rfl
  · rw [map_append, hwords, append_assoc]

/-- A blank in front of a text without trivia changes nothing. -/
theorem ScansTo.blank (hcs : startsTrivia cs = false) (h : ScansTo (p.right 1) cs ws) :
    ScansTo p (' ' :: cs) ws := by
  have hpiece : scanPiece p ' ' cs = .ok { width := 1, next := p.right 1 } := by
    have htrivia : startsTrivia (' ' :: cs) = true := rfl
    rw [scanPiece, if_pos htrivia, scanTrivia, scanTrivia_gap hcs]
    rfl
  have hfront : [' '] ++ cs = ' ' :: cs := rfl
  exact .piece hfront (cons_ne_nil _ _) hpiece rfl rfl h

/-- A written word adds itself in front. -/
theorem ScansTo.word {w : Word} (hpiece : PieceIs w w.spelling) (hne : w.spelling ≠ [])
    (ht : Separated tail) (h : ∀ q, ScansTo q tail ws) :
    startsTrivia (w.spelling ++ tail) = false ∧ ScansTo p (w.spelling ++ tail) (w :: ws) := by
  obtain ⟨c, rest, hcs, htrivia, hscan⟩ := hpiece p tail ht
  refine ⟨by rw [hcs]; exact htrivia, ?_⟩
  exact .piece hcs hne hscan rfl rfl (h _)

theorem ScansTo.rawBlock {payload : String} (hclose : ClosesRaw .code 0 payload.toList)
    (h : ∀ q, ScansTo q tail ws) :
    ScansTo p (unsafeWord.spelling ++ ' ' :: (Word.spelling ⟨.rawBlock, payload⟩ ++ tail))
      (unsafeWord :: ⟨.rawBlock, payload⟩ :: ws) := by
  have hgap : Gap false [' '] := .blank (by decide) .nil
  obtain ⟨q, next, hscan⟩ := scanPiece_rawBlock hgap (closesRaw_iff.mp hclose) p tail
  have htext : unsafeWord.spelling ++ ' ' :: (Word.spelling ⟨.rawBlock, payload⟩ ++ tail)
      = ("unsafe".toList ++ ([' '] ++ '{' :: (payload.toList ++ ['}']))) ++ tail := by
    simp [Word.spelling, unsafeWord]
  rw [String.ofList_toList] at hscan
  rw [htext]
  refine .piece (c := 'u') ?_ ?_ hscan rfl rfl (h next)
  · simp
  · simp

/-- Words written down behind another: a blank in front, if there are
any. -/
def spellBehind : List Word → List Char
  | [] => []
  | w :: ws => ' ' :: spellWords (w :: ws)

theorem spellWords_cons (w : Word) (ws : List Word) :
    spellWords (w :: ws) = w.spelling ++ spellBehind ws := by
  cases ws with
  | nil | cons _ _ => simp [spellWords, spellBehind, List.intercalate]

theorem separated_spellBehind (ws : List Word) : Separated (spellBehind ws) := by
  cases ws with
  | nil => exact .inl rfl
  | cons w ws => exact .inr ⟨_, rfl⟩

theorem spelling_ne_nil (h : PieceIs w w.spelling) : w.spelling ≠ [] := by
  intro hnil
  obtain ⟨c, rest, hcs, -⟩ := h {} [] (Or.inl rfl)
  rw [hnil] at hcs
  cases hcs

/-- Words that scan to themselves do so behind another one. -/
theorem ScansTo.behind
    (h : ∀ p, startsTrivia (spellWords ws) = false ∧ ScansTo p (spellWords ws) ws) (p : Pos) :
    ScansTo p (spellBehind ws) ws := by
  cases ws with
  | nil => exact (h p).2
  | cons w ws => exact .blank (h p).1 (h (p.right 1)).2

theorem scansTo_spellWords (h : Writable ws) :
    ∀ p, startsTrivia (spellWords ws) = false ∧ ScansTo p (spellWords ws) ws := by
  induction h with
  | nil => exact fun p => ⟨rfl, [⟨.eof, "", p⟩], rfl, rfl⟩
  | word hspelled hkind hraw _ ih =>
    intro p
    have hpiece := pieceIs_spelling hspelled hkind hraw
    rw [spellWords_cons]
    exact ScansTo.word hpiece (spelling_ne_nil hpiece) (separated_spellBehind _) (.behind ih)
  | @rawBlock payload ws hclose _ ih =>
    intro p
    have htext : spellWords (unsafeWord :: ⟨.rawBlock, payload⟩ :: ws)
        = unsafeWord.spelling
          ++ ' ' :: (Word.spelling ⟨.rawBlock, payload⟩ ++ spellBehind ws) := by
      rw [spellWords_cons, spellBehind, spellWords_cons]
    rw [htext]
    exact ⟨rfl, .rawBlock hclose (.behind ih)⟩

theorem scan_written (h : Writable ws) :
    ∃ tokens, Token.scan (String.ofList (spellWords ws)) = .ok { tokens, errors := [] }
      ∧ tokens.map Token.word = ws ++ [⟨.eof, ""⟩] := by
  obtain ⟨tokens, hscan, hwords⟩ := (scansTo_spellWords h {}).2
  refine ⟨tokens, ?_, hwords⟩
  rw [Token.scan, String.toList_ofList]
  exact hscan

end SketchCompiler
