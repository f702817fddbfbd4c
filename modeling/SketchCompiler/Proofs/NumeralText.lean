/-
Numbers as they are written.  A number written in base ten or sixteen
reads as itself, one in base ten only up to the limit on its digits
(`readInt_hexadecimal`, `readInt_decimal`, `readInt_marked_decimal`), and
so is it written (`writeInt_eq`).  The other way round, a numeral without
a minus sign denotes no negative number (`readInt_nonneg`), and one of
base ten a number below the limit (`readInt_ten_lt`).
-/
import Mathlib.Algebra.Group.Nat.Defs
import Mathlib.Data.List.Induction
import SketchCompiler.Numeral

namespace SketchCompiler.Numeral

open Text

open List hiding head tail span

variable {n : Nat}
  {s : String}

-- ==== digits

theorem ofDigits_append (base : Nat) (ds : List Nat) (d : Nat) :
    ofDigits base (ds ++ [d]) = ofDigits base ds * base + d := by
  unfold ofDigits
  rw [foldl_append]
  rfl

theorem ofDigits_lt (ds : List Nat) (h : ∀ d ∈ ds, d < base) :
    ofDigits base ds < base ^ ds.length := by
  induction ds using List.reverseRecOn with
  | nil => exact Nat.one_pos
  | append_singleton ds d ih =>
    have hds := ih fun x hx => h x (mem_append_left _ hx)
    have hd := h d (mem_append_right _ (mem_singleton.mpr rfl))
    rw [ofDigits_append, length_append, length_singleton, Nat.pow_succ]
    calc ofDigits base ds * base + d < ofDigits base ds * base + base := Nat.add_lt_add_left hd _
      _ = (ofDigits base ds + 1) * base := (Nat.succ_mul _ _).symm
      _ ≤ base ^ ds.length * base := Nat.mul_le_mul_right _ hds

theorem exists_digits (hbase : 1 < base) (n : Nat) :
    ∃ ds : List Nat, (∀ d ∈ ds, d < base) ∧ ds ≠ [] ∧ ofDigits base ds = n
      ∧ Nat.toDigits base n = ds.map Nat.digitChar := by
  induction n using Nat.strongRecOn with
  | ind n ih =>
    rw [Nat.toDigits_eq_if hbase]
    split
    · rename_i hn
      refine ⟨[n], by simpa using hn, cons_ne_nil _ _, ?_, rfl⟩
      simp [ofDigits]
    · rename_i hn
      have hdiv : n / base < n := Nat.div_lt_self (by omega) hbase
      obtain ⟨ds, hlt, -, hval, htext⟩ := ih (n / base) hdiv
      refine ⟨ds ++ [n % base], ?_, by simp, ?_, by rw [htext, map_append]; rfl⟩
      · intro d hd
        rcases mem_append.mp hd with hd | hd
        · exact hlt d hd
        · rw [mem_singleton.mp hd]
          exact Nat.mod_lt _ (by omega)
      · rw [ofDigits_append, hval]
        exact Nat.div_add_mod' n base

theorem digitChar_facts : ∀ d < 16, isAscii (Nat.digitChar d) = true
    ∧ isPadding (Nat.digitChar d) = false ∧ Nat.digitChar d ≠ '_' ∧ Nat.digitChar d ≠ '-'
    ∧ Nat.digitChar d ≠ '+' ∧ digitValue (Nat.digitChar d) = some d := by
  decide

/-- The character is a digit of the base. -/
def Digital (base : Nat) (c : Char) : Prop :=
  c ≠ '_' ∧ ∃ d < base, digitValue c = some d

theorem digital_digitChar (hbase : base ≤ 16) (hd : d < base) :
    Digital base (Nat.digitChar d) := by
  obtain ⟨-, -, hbar, -, -, hvalue⟩ := digitChar_facts d (by omega)
  exact ⟨hbar, d, hd, hvalue⟩

theorem filterMap_digitValue (hbase : base ≤ 16) (ds : List Nat) (h : ∀ d ∈ ds, d < base) :
    (ds.map Nat.digitChar).filterMap digitValue = ds := by
  induction ds with
  | nil => rfl
  | cons d ds ih =>
    obtain ⟨-, -, -, -, -, hvalue⟩ := digitChar_facts d (by have := h d mem_cons_self; omega)
    rw [map_cons, filterMap_cons_some hvalue, ih fun x hx => h x (mem_cons_of_mem _ hx)]

theorem digitRun_append (hcs : ∀ c ∈ cs, Digital base c) (hne : cs ≠ [])
    (htail : digitRun base false tail = ([], false, tail)) (bar : Bool) :
    digitRun base bar (cs ++ tail) = (cs.filterMap digitValue, false, tail) := by
  induction cs generalizing bar with
  | nil => exact absurd rfl hne
  | cons c cs ih =>
    obtain ⟨⟨hbar, d, hd, hvalue⟩, hcs⟩ := forall_mem_cons.mp hcs
    have hrest : digitRun base false (cs ++ tail) = (cs.filterMap digitValue, false, tail) := by
      cases cs with
      | nil => exact htail
      | cons => exact ih hcs (cons_ne_nil _ _) false
    rw [cons_append, digitRun, if_neg hbar, hvalue, filterMap_cons_some hvalue]
    simp only [if_pos hd, hrest]

theorem digitRun_stops (hcs : ∀ c ∈ cs, Digital base c ∨ c = '?') (hmem : '?' ∈ cs) (bar : Bool)
    (tail : List Char) : (digitRun base bar (cs ++ tail)).2.2.head? = some '?' := by
  induction cs generalizing bar with
  | nil => cases hmem
  | cons c cs ih =>
    obtain ⟨hc, hcs⟩ := forall_mem_cons.mp hcs
    rcases hc with ⟨hbar, d, hd, hvalue⟩ | rfl
    · have hne : '?' ≠ c := by
        rintro rfl
        cases hvalue
      have hrest := ih hcs ((mem_cons.mp hmem).resolve_left hne) false
      rw [cons_append, digitRun, if_neg hbar, hvalue]
      simpa only [if_pos hd] using hrest
    · rfl

theorem digitRun_lt (base : Nat) (bar : Bool) (cs : List Char) :
    ∀ d ∈ (digitRun base bar cs).1, d < base := by
  fun_induction digitRun base bar cs with
  | case1 | case2 | case5 | case6 => intro d hd; cases hd
  | case3 bar rest hbar ih => exact ih
  | case4 bar c rest hc d hd hlt ds ends tail hrest ih =>
    intro x hx
    rcases mem_cons.mp hx with rfl | hx
    · exact hlt
    · rw [hrest] at ih
      exact ih x hx

-- ==== characters

theorem plain_map (h : ∀ c ∈ cs, isPadding (plainChar c) = false) :
    plain (String.ofList cs) = cs.map plainChar := by
  have hpad : ∀ c ∈ cs.map plainChar, isPadding c = false := forall_mem_map.mpr h
  have hdrop : ∀ l : List Char, (∀ c ∈ l, isPadding c = false) → l.dropWhile isPadding = l := by
    intro l hl
    cases l with
    | nil => rfl
    | cons c l => rw [dropWhile_cons_of_neg (by rw [hl c mem_cons_self]; decide)]
  unfold plain trimRightWhile
  rw [String.toList_ofList, hdrop _ hpad,
    hdrop _ (fun c hc => hpad c (mem_reverse.mp hc)), reverse_reverse]

theorem plain_eq (hascii : ∀ c ∈ cs, isAscii c = true) (hpad : ∀ c ∈ cs, isPadding c = false) :
    plain (String.ofList cs) = cs := by
  have hself : ∀ c ∈ cs, plainChar c = c := fun c hc => if_pos (hascii c hc)
  rw [plain_map fun c hc => by rw [hself c hc, hpad c hc], map_congr_left hself, map_id']

theorem decimalValue?_lt (hc : ¬ isAscii c = true) (h : decimalValue? c = some d) : d < 10 := by
  unfold decimalValue? at h
  rw [if_neg hc] at h
  obtain ⟨r, -, rfl⟩ := Option.map_eq_some_iff.mp h
  exact Nat.mod_lt _ (by decide)

theorem plainChar_ne_minus (h : c ≠ '-') : plainChar c ≠ '-' := by
  unfold plainChar
  split
  · exact h
  · rename_i hc
    split
    · rename_i d hd
      have hdigits : ∀ d < 10, Char.ofNat ('0'.toNat + d) ≠ '-' := by decide
      exact hdigits d (decimalValue?_lt hc hd)
    · split <;> decide

theorem minus_notMem_plain (h : '-' ∉ s.toList) : '-' ∉ plain s := by
  intro hmem
  unfold plain trimRightWhile at hmem
  have hmap : '-' ∈ s.toList.map plainChar :=
    (dropWhile_sublist _).subset <|
      mem_reverse.mp ((dropWhile_sublist _).subset (mem_reverse.mp hmem))
  obtain ⟨c, hc, heq⟩ := mem_map.mp hmap
  exact plainChar_ne_minus (fun hminus => h (hminus ▸ hc)) heq

-- ==== reading

theorem readInt_nonneg {radix : Radix} {n : Int} (h : readInt radix s = .ok n)
    (hminus : '-' ∉ s.toList) : 0 ≤ n := by
  have hsign : (sign (plain s)).1 = false := by
    have hplain := minus_notMem_plain hminus
    unfold sign
    split
    · rename_i rest hrest
      rw [hrest] at hplain
      exact absurd mem_cons_self hplain
    · rfl
    · rfl
  unfold readInt at h
  simp only [hsign] at h
  split at h
  · cases h
  · split at h
    · cases h
    · split at h
      · cases h
      · split at h
        · cases h
        · cases h
          exact Int.natCast_nonneg _

theorem readInt_ten_lt {n : Int} (h : readInt .ten s = .ok n) : n.natAbs < 10 ^ digitLimit := by
  unfold readInt baseOf at h
  simp only at h
  split at h
  · cases h
  · split at h
    · cases h
    · rename_i hlimit
      split at h
      · cases h
      · split at h
        · cases h
        · cases h
          have hlen : (digitRun 10 false (sign (plain s)).2).1.length ≤ digitLimit := by
            simpa using hlimit
          have hlt := ofDigits_lt _ (digitRun_lt 10 false (sign (plain s)).2)
          have hpow := Nat.pow_le_pow_right (by decide : 0 < 10) hlen
          split
          · rw [Int.natAbs_neg, Int.natAbs_natCast]
            exact Nat.lt_of_lt_of_le hlt hpow
          · rw [Int.natAbs_natCast]
            exact Nat.lt_of_lt_of_le hlt hpow

theorem sign_eq (hminus : cs.head? ≠ some '-') (hplus : cs.head? ≠ some '+') :
    sign cs = (false, cs) := by
  unfold sign
  split
  · exact absurd rfl hminus
  · exact absurd rfl hplus
  · rfl

theorem readInt_digital (hbody : sign (plain s) = (false, body))
    (hbase : baseOf radix body = (base, onlyZero, cs)) (hcs : ∀ c ∈ cs, Digital base c)
    (hne : cs ≠ []) (hlimit : base = 10 → cs.length ≤ digitLimit) :
    readInt radix s = if onlyZero = true ∧ ofDigits base (cs.filterMap digitValue) ≠ 0
      then .error (.notInteger radix s) else .ok (ofDigits base (cs.filterMap digitValue)) := by
  have hrun : digitRun base false (cs ++ []) = _ := digitRun_append hcs hne rfl false
  rw [append_nil] at hrun
  obtain ⟨c, cs, rfl⟩ := exists_cons_of_ne_nil hne
  obtain ⟨hbar, d, -, hvalue⟩ := hcs c mem_cons_self
  have hfew : ¬ (base = 10 ∧ digitLimit < ((c :: cs).filterMap digitValue).length) := by
    rintro ⟨hten, hmany⟩
    have := hlimit hten
    have := length_filterMap_le digitValue (c :: cs)
    omega
  have hdigits : ((c :: cs).filterMap digitValue).isEmpty = false := by
    rw [filterMap_cons_some hvalue]
    rfl
  unfold readInt
  simp only [hbody, hbase, hrun, head?_cons, Option.some.injEq, hbar, if_false, hfew, hdigits]
  rfl

theorem readInt_stops (hbody : sign (plain s) = (negative, body))
    (hbase : baseOf radix body = (base, onlyZero, cs)) (hcs : ∀ c ∈ cs, Digital base c ∨ c = '?')
    (hmem : '?' ∈ cs) : ∃ e, readInt radix s = .error e := by
  have hrest := digitRun_stops hcs hmem false []
  rw [append_nil] at hrest
  have hsome : (digitRun base false cs).2.2.isEmpty = false := by
    cases hr : (digitRun base false cs).2.2 with
    | nil => rw [hr] at hrest; cases hrest
    | cons => rfl
  unfold readInt
  simp only [hbody, hbase, hsome]
  split
  · exact ⟨_, rfl⟩
  · split
    · exact ⟨_, rfl⟩
    · exact ⟨_, if_pos (.inr (.inr rfl))⟩

-- ==== writing

theorem readInt_hexadecimal (n : Nat) :
    readInt .marked ("0x" ++ String.ofList (Nat.toDigits 16 n)) = .ok n := by
  obtain ⟨ds, hlt, hne, hval, htext⟩ := exists_digits (by decide : 1 < 16) n
  have hchars : ∀ c ∈ '0' :: 'x' :: ds.map Nat.digitChar, isAscii c = true
      ∧ isPadding c = false := by
    intro c hc
    rcases mem_cons.mp hc with rfl | hc
    · decide
    rcases mem_cons.mp hc with rfl | hc
    · decide
    obtain ⟨d, hd, rfl⟩ := mem_map.mp hc
    obtain ⟨hascii, hpad, -⟩ := digitChar_facts d (hlt d hd)
    exact ⟨hascii, hpad⟩
  have hplain : plain ("0x" ++ String.ofList (Nat.toDigits 16 n))
      = '0' :: 'x' :: ds.map Nat.digitChar := by
    have hmark : "0x" ++ String.ofList (ds.map Nat.digitChar)
        = String.ofList ('0' :: 'x' :: ds.map Nat.digitChar) :=
      String.ofList_append.symm
    rw [htext, hmark]
    exact plain_eq (fun c hc => (hchars c hc).1) fun c hc => (hchars c hc).2
  obtain ⟨d, ds', rfl⟩ := exists_cons_of_ne_nil hne
  obtain ⟨-, -, hbar, -⟩ := digitChar_facts d (hlt d mem_cons_self)
  have hbase : baseOf .marked ('0' :: 'x' :: (d :: ds').map Nat.digitChar)
      = (16, false, (d :: ds').map Nat.digitChar) := by
    simp only [baseOf, map_cons, true_or, if_true]
    split
    · rename_i behind hbehind
      exact absurd (List.cons.inj hbehind).1 hbar
    · rfl
  have hbody : sign (plain ("0x" ++ String.ofList (Nat.toDigits 16 n)))
      = (false, '0' :: 'x' :: (d :: ds').map Nat.digitChar) := by
    rw [hplain]
    rfl
  have hdigital : ∀ c ∈ (d :: ds').map Nat.digitChar, Digital 16 c :=
    forall_mem_map.mpr fun d hd => digital_digitChar (by decide) (hlt d hd)
  rw [readInt_digital hbody hbase hdigital (cons_ne_nil _ _) fun h => absurd h (by decide),
    filterMap_digitValue (by decide) _ hlt, hval]
  exact if_neg fun h => Bool.false_ne_true h.1

theorem readInt_digits (h : n < 10 ^ digitLimit)
    (hbase : baseOf radix (Nat.toDigits 10 n) = (10, false, Nat.toDigits 10 n)) :
    readInt radix (String.ofList (Nat.toDigits 10 n)) = .ok n := by
  obtain ⟨ds, hlt, hne, hval, htext⟩ := exists_digits (by decide : 1 < 10) n
  have hlen : ds.length ≤ digitLimit := by
    have hlimit := (Nat.length_toDigits_le_iff (by decide) (by decide)).mpr h
    rwa [htext, length_map] at hlimit
  have hchars : ∀ c ∈ ds.map Nat.digitChar, isAscii c = true ∧ isPadding c = false := by
    intro c hc
    obtain ⟨d, hd, rfl⟩ := mem_map.mp hc
    obtain ⟨hascii, hpad, -⟩ := digitChar_facts d (by have := hlt d hd; omega)
    exact ⟨hascii, hpad⟩
  rw [htext] at hbase ⊢
  have hplain : plain (String.ofList (ds.map Nat.digitChar)) = ds.map Nat.digitChar :=
    plain_eq (fun c hc => (hchars c hc).1) fun c hc => (hchars c hc).2
  have hbody : sign (plain (String.ofList (ds.map Nat.digitChar)))
      = (false, ds.map Nat.digitChar) := by
    obtain ⟨d, ds, rfl⟩ := exists_cons_of_ne_nil hne
    rw [hplain, sign_eq (by simp) (by simp)]
  have hdigital : ∀ c ∈ ds.map Nat.digitChar, Digital 10 c :=
    forall_mem_map.mpr fun d hd => digital_digitChar (by decide) (hlt d hd)
  rw [readInt_digital hbody hbase hdigital (by simpa using hne) fun _ => by simpa using hlen,
    filterMap_digitValue (by decide) _ hlt, hval]
  exact if_neg fun h => Bool.false_ne_true h.1

theorem readInt_decimal (h : n < 10 ^ digitLimit) :
    readInt .ten (String.ofList (Nat.toDigits 10 n)) = .ok n :=
  readInt_digits h rfl

theorem toDigits_head?_ne (hn : n ≠ 0) : (Nat.toDigits 10 n).head? ≠ some '0' := by
  induction n using Nat.strongRecOn with
  | ind n ih =>
    rw [Nat.toDigits_eq_if (by decide)]
    split
    · rename_i hlt
      have hdigits : ∀ d < 10, d ≠ 0 → [Nat.digitChar d].head? ≠ some '0' := by decide
      exact hdigits n hlt hn
    · have hfront := ih (n / 10) (by omega) (by omega)
      obtain ⟨c, cs, hcs⟩ := exists_cons_of_ne_nil (Nat.toDigits_ne_nil (n := n / 10) (b := 10))
      rw [hcs] at hfront ⊢
      exact hfront

theorem readInt_marked_decimal (h : n < 10 ^ digitLimit) :
    readInt .marked (String.ofList (Nat.toDigits 10 n)) = .ok n := by
  refine readInt_digits h ?_
  rcases eq_or_ne n 0 with rfl | hn
  · rfl
  · have hhead := toDigits_head?_ne hn
    unfold baseOf
    split
    · rename_i c rest hdigits
      rw [hdigits] at hhead
      exact absurd rfl hhead
    · rfl

theorem writeInt_eq {n : Int} (hn : 0 ≤ n) (h : n.toNat < 10 ^ digitLimit) :
    writeInt n = .ok (String.ofList (Nat.toDigits 10 n.toNat)) := by
  obtain ⟨m, rfl⟩ := Int.eq_ofNat_of_zero_le hn
  have hcount : ¬ digitLimit < Decimal.digitCount m :=
    Nat.not_lt.mpr ((Nat.length_toDigits_le_iff (by decide) (by decide)).mpr h)
  unfold writeInt
  rw [Int.natAbs_natCast, if_neg hcount]
  rfl

end SketchCompiler.Numeral
