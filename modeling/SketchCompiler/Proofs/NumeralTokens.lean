/-
Numbers without a value.  A scan takes digits of every kind for a number.
Reading one asks for the place value of each digit, and for an integer of
base ten that does not start with an idle zero.  So some number tokens
denote no number (`Token.isValueless`, `Token.refuses_iff`).  Coming to
one of them is all that can leave a cleanly scanned source without a
program (`Program.ofSource_total`).
-/
import SketchCompiler.Proofs.Progress
import SketchCompiler.Proofs.TokenPlaces

namespace SketchCompiler

open List Text Numeral

variable {cs ds whole part : List Char} {c : Char} {base : Nat}

-- ==== digits as a numeral sees them

/-- The character is a digit without place value. -/
def lacksPlace (c : Char) : Bool :=
  isDigit c && (decimalValue? c).isNone

/-- The first digit is a zero, and another one is not. -/
def hasIdleZero (cs : List Char) : Bool :=
  cs.head?.bind decimalValue? == some 0 && cs.any (decimalValue? · != some 0)

theorem plainChar_digit (h : isDigit c = true) :
    (∃ d < 10, decimalValue? c = some d ∧ plainChar c = Nat.digitChar d)
      ∨ decimalValue? c = none ∧ plainChar c = '?' := by
  cases hascii : isAscii c with
  | true =>
    have hsmall : ∀ n < 128, isDigit (Char.ofNat n) = true → n - 48 < 10
        ∧ decimalValue? (Char.ofNat n) = some (n - 48)
        ∧ plainChar (Char.ofNat n) = Nat.digitChar (n - 48) := by decide +kernel
    have hdigit := hsmall c.toNat (of_decide_eq_true hascii)
    rw [Char.ofNat_toNat] at hdigit
    exact .inl ⟨_, hdigit h⟩
  | false =>
    have hword : isWordChar c = true := by simp [isWordChar, isAlphanumeric, h]
    unfold plainChar
    rw [hascii, isBlank_of_isWordChar hword]
    cases hvalue : decimalValue? c with
    | none => exact .inr ⟨rfl, rfl⟩
    | some d =>
      have hchars : ∀ d < 10, Char.ofNat ('0'.toNat + d) = Nat.digitChar d := by decide
      have hd := decimalValue?_lt (Bool.eq_false_iff.mp hascii) hvalue
      exact .inl ⟨d, hd, rfl, hchars d hd⟩

/-- Every character is seen as a digit of the base, or lacks a place value
and is out of place. -/
def Seen (base : Nat) (cs : List Char) : Prop :=
  ∀ c ∈ cs, lacksPlace c = false ∧ Digital base (plainChar c)
    ∨ lacksPlace c = true ∧ plainChar c = '?'

theorem seen_digits (hbase : 10 ≤ base) (hmost : base ≤ 16) (h : ∀ c ∈ cs, isDigit c = true) :
    Seen base cs := by
  intro c hc
  rcases plainChar_digit (h c hc) with ⟨d, hd, hvalue, hchar⟩ | ⟨hvalue, hchar⟩
  · refine .inl ⟨by simp [lacksPlace, hvalue], ?_⟩
    rw [hchar]
    exact digital_digitChar hmost (by omega)
  · exact .inr ⟨by simp [lacksPlace, hvalue, h c hc], hchar⟩

theorem seen_hexadecimal (h : ∀ c ∈ cs, isHexDigit c = true) : Seen 16 cs := by
  have hletters : ∀ n ≤ 102, isHexDigit (Char.ofNat n) = true → lacksPlace (Char.ofNat n) = false
      ∧ plainChar (Char.ofNat n) ≠ '_' ∧ ∃ d < 16,
        digitValue (plainChar (Char.ofNat n)) = some d := by
    decide +kernel
  intro c hc
  cases hdigit : isDigit c with
  | true => exact seen_digits (by decide) (by decide) (forall_mem_singleton.mpr hdigit) c (.head _)
  | false =>
    have hle : c.toNat ≤ 102 := by
      have hhex := h c hc
      simp only [isHexDigit, hdigit, Bool.false_or, Bool.or_eq_true, Bool.and_eq_true,
        decide_eq_true_eq] at hhex
      rcases hhex with ⟨-, hle⟩ | ⟨-, hle⟩
      · exact hle
      · exact Nat.le_trans hle (by decide)
    have hletter := hletters c.toNat hle
    rw [Char.ofNat_toNat] at hletter
    exact .inl (hletter (h c hc))

/-- A digit is neither a sign nor padding. -/
theorem Digital.facts (h : Digital base c ∨ c = '?') :
    c ≠ '-' ∧ c ≠ '+' ∧ c ≠ '_' ∧ isPadding c = false := by
  have hblanks : ∀ n ≤ 45, isPadding (Char.ofNat n) = true → digitValue (Char.ofNat n) = none := by
    decide +kernel
  rcases h with ⟨hbar, d, -, hvalue⟩ | rfl
  · refine ⟨?_, ?_, hbar, Bool.eq_false_iff.mpr fun hpad => ?_⟩
    · rintro rfl
      cases hvalue
    · rintro rfl
      cases hvalue
    · have hle : c.toNat ≤ 45 := by
        simp only [isPadding, Bool.or_eq_true, Bool.and_eq_true, decide_eq_true_eq] at hpad
        rcases hpad with rfl | hpad
        · decide
        · omega
      have hnone := hblanks c.toNat hle
      rw [Char.ofNat_toNat, hvalue] at hnone
      cases hnone hpad
  · decide

namespace Seen

theorem digital_or (h : Seen base cs) : ∀ c ∈ cs.map plainChar, Digital base c ∨ c = '?' :=
  forall_mem_map.mpr fun c hc => (h c hc).imp And.right And.right

theorem digital (h : Seen base cs) (hplace : cs.any lacksPlace = false) :
    ∀ c ∈ cs.map plainChar, Digital base c :=
  forall_mem_map.mpr fun c hc => ((h c hc).resolve_right fun hlacks =>
    any_eq_false.mp hplace c hc hlacks.1).2

theorem stops (h : Seen base cs) (hplace : cs.any lacksPlace = true) : '?' ∈ cs.map plainChar := by
  obtain ⟨c, hc, hlacks⟩ := any_eq_true.mp hplace
  rcases h c hc with ⟨hhas, -⟩ | ⟨-, hchar⟩
  · rw [hlacks] at hhas
    cases hhas
  · exact hchar ▸ mem_map_of_mem hc

end Seen

theorem plain_seen {front : List Char}
    (hfront : ∀ c ∈ front, plainChar c = c ∧ isPadding c = false)
    (h : Seen base cs) : plain (String.ofList (front ++ cs)) = front ++ cs.map plainChar := by
  rw [plain_map, map_append, map_congr_left fun c hc => (hfront c hc).1, map_id']
  refine forall_mem_append.mpr ⟨fun c hc => ?_, fun c hc => ?_⟩
  · rw [(hfront c hc).1, (hfront c hc).2]
  · exact (Digital.facts (h.digital_or _ (mem_map_of_mem hc))).2.2.2

-- ==== integers

theorem baseOf_decimal (radix : Radix) (h : ∀ c ∈ cs, Digital 10 c ∨ c = '?') :
    ∃ onlyZero, baseOf radix cs = (10, onlyZero, cs)
      ∧ (onlyZero = true ↔ radix = .marked ∧ cs.head? = some '0' ∧ cs.length ≠ 1) := by
  unfold baseOf
  split
  · rename_i c rest
    have hmarks : ∀ mark ∈ ['x', 'X', 'b', 'B', 'o', 'O'], c ≠ mark := by
      rintro mark hmark rfl
      have hvalues : (['x', 'X', 'b', 'B', 'o', 'O'].all fun mark =>
          mark != '?' && !(digitValue mark).any (· < 10)) = true := by decide
      have hvalue := all_eq_true.mp hvalues c hmark
      rcases h c (mem_cons_of_mem _ mem_cons_self) with ⟨-, d, hd, hc⟩ | rfl
      · simp [hc, hd] at hvalue
      · cases hvalue
    refine ⟨true, ?_, by simp⟩
    simp only [forall_mem_cons] at hmarks
    simp [hmarks]
  · rename_i hmarked
    refine ⟨false, rfl, ?_⟩
    simp only [Bool.false_eq_true, false_iff, not_and, not_not]
    rintro rfl hzero
    cases cs with
    | nil => cases hzero
    | cons c rest =>
      cases Option.some.inj hzero
      cases rest with
      | nil => rfl
      | cons c rest => exact absurd rfl (hmarked c rest rfl)

theorem ofDigits_eq_zero (ds : List Nat) : ofDigits 10 ds = 0 ↔ ∀ d ∈ ds, d = 0 := by
  induction ds using List.reverseRecOn with
  | nil => simp [ofDigits]
  | append_singleton ds d ih =>
    rw [ofDigits_append, Nat.add_eq_zero_iff, Nat.mul_eq_zero, ih]
    simp [or_imp, forall_and]

theorem filterMap_plainChar (hds : ∀ d ∈ ds, isDigit d = true) :
    (ds.map plainChar).filterMap digitValue = ds.filterMap decimalValue? := by
  rw [filterMap_map]
  refine filterMap_congr fun c hc => ?_
  rcases plainChar_digit (hds c hc) with ⟨d, hd, hvalue, hchar⟩ | ⟨hvalue, hchar⟩
  · obtain ⟨-, -, -, -, -, hdigit⟩ := digitChar_facts d (by omega)
    rw [Function.comp_apply, hchar, hvalue, hdigit]
  · rw [Function.comp_apply, hchar, hvalue]
    rfl

theorem head?_plainChar (hds : ∀ d ∈ ds, isDigit d = true) :
    (ds.map plainChar).head? = some '0' ↔ ds.head?.bind decimalValue? = some 0 := by
  cases ds with
  | nil => simp
  | cons c ds =>
    have hzero : ∀ d < 10, Nat.digitChar d = '0' ↔ d = 0 := by decide
    rcases plainChar_digit (hds c mem_cons_self) with ⟨d, hd, hvalue, hchar⟩ | ⟨hvalue, hchar⟩
    · simp [hchar, hvalue, hzero d hd]
    · simp [hchar, hvalue]

theorem value_ne_zero (hds : ∀ d ∈ ds, isDigit d = true) (hplace : ds.any lacksPlace = false) :
    ofDigits 10 (ds.filterMap decimalValue?) ≠ 0 ↔ ds.any (decimalValue? · != some 0) = true := by
  rw [Ne, ofDigits_eq_zero, any_eq_true]
  constructor
  · intro hsome
    obtain ⟨d, hd, hne⟩ := not_forall₂.mp hsome
    obtain ⟨c, hc, hvalue⟩ := mem_filterMap.mp hd
    exact ⟨c, hc, by simpa [hvalue] using hne⟩
  · rintro ⟨c, hc, hne⟩ hzero
    cases hvalue : decimalValue? c with
    | none => exact any_eq_false.mp hplace c hc (by simp [lacksPlace, hds c hc, hvalue])
    | some d =>
      rw [hzero d (mem_filterMap.mpr ⟨c, hc, hvalue⟩)] at hvalue
      simp [hvalue] at hne

theorem readInt_decimal_error {radix : Radix} (hne : ds ≠ []) (hds : ∀ d ∈ ds, isDigit d = true)
    (hlimit : ds.length ≤ digitLimit) :
    (∃ e, readInt radix (String.ofList ds) = .error e)
      ↔ ds.any lacksPlace = true ∨ radix = .marked ∧ hasIdleZero ds = true := by
  have hseen : Seen 10 ds := seen_digits (by decide) (by decide) hds
  have hplain : plain (String.ofList ([] ++ ds)) = [] ++ ds.map plainChar :=
    plain_seen (forall_mem_nil _) hseen
  obtain ⟨onlyZero, hbase, hzero⟩ := baseOf_decimal radix hseen.digital_or
  have hbody : sign (plain (String.ofList ds)) = (false, ds.map plainChar) := by
    refine (congrArg sign hplain).trans (sign_eq (fun h => ?_) fun h => ?_)
    · exact (Digital.facts (hseen.digital_or _ (mem_of_mem_head? h))).1 rfl
    · exact (Digital.facts (hseen.digital_or _ (mem_of_mem_head? h))).2.1 rfl
  cases hplace : ds.any lacksPlace with
  | true =>
    exact iff_of_true (readInt_stops hbody hbase hseen.digital_or (hseen.stops hplace)) (.inl rfl)
  | false =>
    have hread := readInt_digital hbody hbase (hseen.digital hplace) (by simpa using hne)
      fun _ => by simpa using hlimit
    simp only [filterMap_plainChar hds, value_ne_zero hds hplace, hzero,
      head?_plainChar hds] at hread
    simp only [Bool.false_eq_true, false_or, hasIdleZero, Bool.and_eq_true, beq_iff_eq]
    rw [hread]
    constructor
    · rintro ⟨e, herror⟩
      split at herror
      · rename_i hodd
        exact ⟨hodd.1.1, hodd.1.2.1, hodd.2⟩
      · cases herror
    · rintro ⟨hmarked, hhead, hother⟩
      refine ⟨_, if_pos ⟨⟨hmarked, hhead, fun hlength => ?_⟩, hother⟩⟩
      -- the zero is not alone, since another digit is not zero
      obtain ⟨c, rfl⟩ := length_eq_one_iff.mp ((length_map plainChar).symm.trans hlength)
      simp_all

-- ==== decimals

theorem decimalRun_digits (hne : ds ≠ []) (hds : ∀ d ∈ ds, isDigit d = true) (tail : List Char)
    (htail : digitRun 10 false tail = ([], false, tail)) :
    (ds.any lacksPlace = false ∧ ∃ v vs, decimalRun (ds.map plainChar ++ tail)
      = some (v :: vs, tail))
      ∨ ds.any lacksPlace = true ∧ (decimalRun (ds.map plainChar ++ tail) = none
        ∨ ∃ vs rest, decimalRun (ds.map plainChar ++ tail) = some (vs, '?' :: rest)) := by
  have hseen : Seen 10 ds := seen_digits (by decide) (by decide) hds
  unfold decimalRun
  cases hplace : ds.any lacksPlace with
  | false =>
    have hdigital := hseen.digital hplace
    obtain ⟨c, cs, hcs⟩ := exists_cons_of_ne_nil (map_eq_nil_iff.not.mpr hne)
    rw [digitRun_append hdigital (by simpa using hne) htail, hcs]
    obtain ⟨-, d, -, hvalue⟩ := hdigital c (by rw [hcs]; exact mem_cons_self)
    rw [filterMap_cons_some hvalue]
    exact .inl ⟨rfl, _, _, rfl⟩
  | true =>
    have hrest := digitRun_stops hseen.digital_or (hseen.stops hplace) true tail
    refine .inr ⟨rfl, ?_⟩
    generalize digitRun 10 true (ds.map plainChar ++ tail) = run at hrest ⊢
    obtain ⟨vs, bar, rest⟩ := run
    obtain ⟨rest, rfl⟩ : ∃ r, rest = '?' :: r := head?_eq_some_iff.mp hrest
    cases vs with
    | nil => exact .inr ⟨_, _, rfl⟩
    | cons v vs =>
      cases bar with
      | true => exact .inl rfl
      | false => exact .inr ⟨_, _, rfl⟩

theorem readFloat_error (hw : whole ≠ []) (hws : ∀ d ∈ whole, isDigit d = true) (hp : part ≠ [])
    (hps : ∀ d ∈ part, isDigit d = true) :
    (∃ e, readFloat (String.ofList (whole ++ '.' :: part)) = .error e)
      ↔ (whole ++ '.' :: part).any lacksPlace = true := by
  have hmagnitude : magnitude (whole.map plainChar ++ '.' :: part.map plainChar) = none
      ↔ (whole ++ '.' :: part).any lacksPlace = true := by
    have hpoint : lacksPlace '.' = false := by decide
    have hpart := decimalRun_digits hp hps [] rfl
    rw [append_nil] at hpart
    rw [any_append, any_cons, hpoint]
    unfold magnitude
    rcases decimalRun_digits hw hws ('.' :: part.map plainChar) rfl with
      ⟨hplace, v, vs, hrun⟩ | ⟨hplace, hnone | ⟨vs, rest, hrun⟩⟩
    · rcases hpart with ⟨hplace', v', vs', hrun'⟩ | ⟨hplace', hnone' | ⟨vs', rest', hrun'⟩⟩
      · simp [hplace, hplace', hrun, hrun', exponent]
      · simp [hplace, hplace', hrun, hnone', exponent]
      · simp [hplace, hplace', hrun, hrun', exponent]
    · simp [hplace, hnone]
    · simp [hplace, hrun, exponent]
  have hdigits {ds : List Char} (hds : ∀ d ∈ ds, isDigit d = true) :=
    (seen_digits (by decide : 10 ≤ 10) (by decide) hds).digital_or
  have hbody : sign (plain (String.ofList (whole ++ '.' :: part)))
      = (false, whole.map plainChar ++ '.' :: part.map plainChar) := by
    have hplain : plain (String.ofList (whole ++ '.' :: part))
        = (whole ++ '.' :: part).map plainChar := by
      refine plain_map (forall_mem_append.mpr ⟨fun c hc => ?_, forall_mem_cons.mpr
        ⟨by decide, fun c hc => ?_⟩⟩)
      · exact (Digital.facts (hdigits hws _ (mem_map_of_mem hc))).2.2.2
      · exact (Digital.facts (hdigits hps _ (mem_map_of_mem hc))).2.2.2
    obtain ⟨c, cs, rfl⟩ := exists_cons_of_ne_nil hw
    obtain ⟨hminus, hplus, -⟩ := Digital.facts (hdigits hws (plainChar c) mem_cons_self)
    rw [hplain, sign_eq (by simpa using hminus) (by simpa using hplus), map_append]
    rfl
  -- a point stands in none of the words
  have hword : ∀ word ∈ ["inf", "infinity", "nan"],
      String.ofList ((whole.map plainChar ++ '.' :: part.map plainChar).map Char.toLower)
        ≠ word := by
    rintro word hword rfl
    have hpoints : ∀ word ∈ ["inf", "infinity", "nan"], '.' ∉ word.toList := by decide
    refine hpoints _ hword ?_
    rw [String.toList_ofList]
    exact mem_map.mpr ⟨'.', by simp, rfl⟩
  simp only [forall_mem_cons] at hword
  rw [← hmagnitude]
  unfold readFloat
  simp only [hbody, hword, or_self, if_false]
  cases magnitude (whole.map plainChar ++ '.' :: part.map plainChar) <;> simp

-- ==== tokens

/-- The number denotes none: a digit has no place value, or an integer has
an idle zero in front. -/
def Token.isValueless (t : Token) : Bool :=
  match t.kind with
  | .int => t.lexeme.toList.any lacksPlace
    || t.lexeme.toList.all isDigit && hasIdleZero t.lexeme.toList
  | .float | .duration => t.lexeme.toList.any lacksPlace
  | _ => false

theorem readInt_marked_error {mark : Char} (hmark : mark ∈ ['x', 'X', 'b', 'B'])
    (hbase : ∀ c cs, c ≠ '_' → baseOf .marked ('0' :: mark :: c :: cs) = (base, false, c :: cs))
    (hten : base ≠ 10) (hne : ds ≠ []) (hseen : Seen base ds) :
    (∃ e, readInt .marked (String.ofList ('0' :: mark :: ds)) = .error e)
      ↔ (('0' :: mark :: ds).any lacksPlace
        || ('0' :: mark :: ds).all isDigit && hasIdleZero ('0' :: mark :: ds)) = true := by
  have hchars : (['x', 'X', 'b', 'B'].all fun mark => !lacksPlace mark && !isDigit mark
      && plainChar mark == mark && !isPadding mark) = true := by decide
  have hchar := all_eq_true.mp hchars mark hmark
  simp only [Bool.and_eq_true, Bool.not_eq_true', beq_iff_eq] at hchar
  obtain ⟨⟨⟨hletter, hdigit⟩, hself⟩, hpad⟩ := hchar
  have hzero : lacksPlace '0' = false := by decide
  simp only [any_cons, all_cons, hzero, hletter, hdigit, Bool.false_or, Bool.and_false,
    Bool.false_and, Bool.or_false]
  have hplain : plain (String.ofList (['0', mark] ++ ds)) = ['0', mark] ++ ds.map plainChar :=
    plain_seen (forall_mem_cons.mpr ⟨by decide, forall_mem_singleton.mpr ⟨hself, hpad⟩⟩) hseen
  have hbody : sign (plain (String.ofList ('0' :: mark :: ds)))
      = (false, '0' :: mark :: ds.map plainChar) := congrArg sign hplain
  have hmarked : baseOf .marked ('0' :: mark :: ds.map plainChar)
      = (base, false, ds.map plainChar) := by
    obtain ⟨c, ds, rfl⟩ := exists_cons_of_ne_nil hne
    exact hbase _ _ (Digital.facts (hseen.digital_or _ mem_cons_self)).2.2.1
  cases hplace : ds.any lacksPlace with
  | true =>
    exact iff_of_true (readInt_stops hbody hmarked hseen.digital_or (hseen.stops hplace)) rfl
  | false =>
    rw [readInt_digital hbody hmarked (hseen.digital hplace) (by simpa using hne)
      fun h => absurd h hten, if_neg fun h => Bool.false_ne_true h.1]
    simp

theorem Token.refuses_iff {t : Token} (h : t.kind = .eof ∨ t.IsSpelled)
    (hruns : t.kind ∈ [.int, .duration] → ∀ run, run <:+: t.lexeme.toList →
      (∀ c ∈ run, isDigit c = true) → run.length ≤ digitLimit) :
    (∃ e, t.Refuses e) ↔ t.isValueless = true := by
  obtain ⟨kind, lexeme, pos⟩ := t
  obtain ⟨cs, rfl⟩ : ∃ cs, lexeme = String.ofList cs :=
    ⟨lexeme.toList, by rw [String.ofList_toList]⟩
  unfold Token.IsSpelled at h
  unfold Token.Refuses Token.isValueless
  simp only [String.toList_ofList] at h hruns ⊢
  split
  · have hspelled : Spelled .int cs := h.resolve_left (by simp)
    cases hspelled with
    | word _ _ hk => exact absurd hk (kindOfWord_ne (by decide) (by decide))
    | hexadecimal hm hne hds =>
      refine readInt_marked_error (by rcases hm with rfl | rfl <;> decide) (fun c cs hc => ?_)
        (by decide) hne (seen_hexadecimal hds)
      simp [baseOf, hm, hc]
    | binary hm hne hds =>
      have hseen : Seen 2 _ := fun c hc => .inl (by
        rcases Bool.or_eq_true_iff.mp (hds c hc) with h | h
        · rw [of_decide_eq_true h]
          exact ⟨rfl, by decide, 0, by decide, rfl⟩
        · rw [of_decide_eq_true h]
          exact ⟨rfl, by decide, 1, by decide, rfl⟩)
      refine readInt_marked_error (by rcases hm with rfl | rfl <;> decide) (fun c cs hc => ?_)
        (by decide) hne hseen
      rcases hm with rfl | rfl <;> simp [baseOf, hc]
    | decimal hne hds =>
      rw [readInt_decimal_error hne hds (hruns (by simp) _ (infix_refl _) hds)]
      simp [all_eq_true.mpr hds]
    | pair hpair => exact absurd rfl (text_ne_of_pair hpair)
    | single hsingle => exact absurd rfl (text_ne_of_char hsingle)
  · have hspelled : Spelled .duration cs := h.resolve_left (by simp)
    obtain ⟨ds, unit, rfl, hne, hds, hunit⟩ := hspelled.duration_parts
    have hunits : ∀ unit ∈ durationUnits, unit.any lacksPlace = false := by decide
    rw [durationParts_append hne hds hunit, any_append, hunits unit hunit, Bool.or_false,
      readInt_decimal_error hne hds (hruns (by simp) _ (prefix_append _ _).isInfix hds)]
    simp
  · have hspelled : Spelled .float cs := h.resolve_left (by simp)
    cases hspelled with
    | word _ _ hk => exact absurd hk (kindOfWord_ne (by decide) (by decide))
    | fraction hw hws hp hps => exact readFloat_error hw hws hp hps
    | pair hpair => exact absurd rfl (text_ne_of_pair hpair)
    | single hsingle => exact absurd rfl (text_ne_of_char hsingle)
  · simp_all

-- ==== sources

theorem Program.ofTokens_total (file : String)
    (hended : ∃ front stop, tokens = front ++ [stop] ∧ stop.kind = .eof) :
    (∃ r, Program.ofTokens file tokens = .ok r)
      ∨ ∃ t ∈ tokens, ∃ e, t.Refuses e ∧ Program.ofTokens file tokens = .error (.numeral e) := by
  have hrun := items_gives True
    { file, rest := tokens, last := tokens.getLastD Parser.endMarker } (.refl _)
  unfold Program.ofTokens
  dsimp only
  split
  · exact .inl ⟨_, rfl⟩
  · exact .inl ⟨_, rfl⟩
  · rename_i e hr
    rw [hr] at hrun
    obtain ⟨t, ht, hrefuses⟩ := hrun
    exact .inr ⟨t, ht, e, hrefuses, rfl⟩
  · rename_i hr
    rw [hr] at hrun
    obtain ⟨front, stop, rfl, hstop⟩ := hended
    exact absurd (hrun ⟨stop, by simp, hstop⟩) (by simp)

theorem Token.lexeme_infix (hscan : Token.scan source = .ok scanned) (ht : t ∈ scanned.tokens)
    (hk : t.kind ∈ [.int, .duration]) : t.lexeme.toList <:+: source.toList := by
  have hfrom : scanFrom 0 (({} : Pos).over []) source.toList = .ok scanned := hscan
  obtain ⟨-, -, offsets, hplaced, -⟩ := scanFrom_places hfrom rfl .nil
  obtain ⟨i, rfl⟩ := mem_iff_get.mp ht
  obtain ⟨-, spelled, hspelled, hfront⟩ := hplaced.get i.isLt (hplaced.length_eq ▸ i.isLt)
  have heq : spelled = (scanned.tokens.get i).lexeme.toList := by
    unfold Word.SpelledBy at hspelled
    rcases mem_cons.mp hk with hk | hk
    · rwa [show (scanned.tokens.get i).word.kind = .int from hk] at hspelled
    · rwa [show (scanned.tokens.get i).word.kind = .duration from mem_singleton.mp hk] at hspelled
  exact heq ▸ hfront.isInfix.trans (drop_suffix _ _).isInfix

/-- In a source that is scanned without errors, and in which no run of
digits is too long, exactly the numbers without a value are refused.  The
source has a program, with or without reports, unless the reading comes to
such a number. -/
theorem Program.ofSource_total (file : String) {source : String} {scanned : Scanned}
    (hscan : Token.scan source = .ok scanned) (hclean : scanned.errors = [])
    (hruns : ∀ run, run <:+: source.toList → (∀ c ∈ run, isDigit c = true) →
      run.length ≤ digitLimit) :
    (∀ t ∈ scanned.tokens, (∃ e, t.Refuses e) ↔ t.isValueless = true)
      ∧ ((∃ src, Program.ofSource file source = .ok src)
        ∨ ∃ t ∈ scanned.tokens, t.isValueless = true
          ∧ ∃ e, t.Refuses e ∧ Program.ofSource file source = .error (.numeral e)) := by
  have hrefuses : ∀ t ∈ scanned.tokens, (∃ e, t.Refuses e) ↔ t.isValueless = true := fun t ht =>
    Token.refuses_iff (Token.scan_spelled hscan hclean t ht) fun hk run hrun =>
      hruns run (hrun.trans (Token.lexeme_infix hscan ht hk))
  refine ⟨hrefuses, ?_⟩
  unfold Program.ofSource
  rw [hscan]
  rcases Program.ofTokens_total file (Token.scan_ordered hscan).2 with ⟨r, hr⟩ | ⟨t, ht, e, he, hr⟩
  · exact .inl ⟨_, by simp only [Except.mapError, bind, Except.bind, hr]; rfl⟩
  · refine .inr ⟨t, ht, (hrefuses t ht).mp ⟨e, he⟩, e, he, ?_⟩
    simp only [Except.mapError, bind, Except.bind, hr]

/-- The tokens of a hexadecimal number and a semicolon. -/
def hexadecimalTokens : List Token :=
  [⟨.int, "0x1F", ⟨1, 1⟩⟩, ⟨.semicolon, ";", ⟨1, 5⟩⟩, ⟨.eof, "", ⟨1, 6⟩⟩]

/-- They have a program. -/
theorem Program.ofSource_total_hexadecimal :
    Token.scan "0x1F;" = .ok { tokens := hexadecimalTokens, errors := [] }
      ∧ ∃ src, Program.ofSource "sketch" "0x1F;" = .ok src := by
  have hscan : Token.scan "0x1F;" = .ok { tokens := hexadecimalTokens, errors := [] } := rfl
  have hvalues : ∀ t ∈ hexadecimalTokens, t.isValueless = false := by decide +kernel
  obtain ⟨-, hread⟩ := Program.ofSource_total "sketch" hscan rfl
    fun run hrun _ => hrun.length_le.trans (by decide)
  refine ⟨hscan, hread.resolve_right ?_⟩
  rintro ⟨t, ht, hvalueless, -⟩
  rw [hvalues t ht] at hvalueless
  cases hvalueless

/-- A source is scanned without errors, and has no program for this
reason. -/
def hasNoProgram (source : String) (reason : NumeralError) : Bool :=
  match Token.scan source, Program.ofSource "sketch" source with
  | .ok scanned, .error (.numeral e) => scanned.errors.isEmpty && e == reason
  | _, _ => false

/-- An integer with an idle zero and one without place value leave their
sources without a program. -/
theorem Program.ofSource_refuses :
    hasNoProgram "007;" (.notInteger .marked "007") = true
      ∧ hasNoProgram "²;" (.notInteger .marked "²") = true :=
  ⟨by decide +kernel, by decide +kernel⟩

end SketchCompiler
