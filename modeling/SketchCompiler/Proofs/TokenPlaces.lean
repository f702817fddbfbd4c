/-
Where tokens stand.  A scan counts the line breaks that it passes, but not
every one: a line break that a backslash escapes in a string literal, or
that stands in a quoted literal or a block comment of raw code, is passed
like any other character.  Call such breaks soft.  The place of every
token is exact in the text whose soft breaks are blanks, and so it is
exact in the source if and only if no soft break stands before the token
(`Token.scan_places`).

Softening follows the readers: `softenPiece` is what a piece covers, with
its soft breaks as blanks.  Its tokens stand inside that text, and the next
piece where it ends (`PieceRead.placed`).
-/
import Mathlib.Data.List.Forall2
import Mathlib.Data.List.Pairwise
import SketchCompiler.Proofs.JoinedScan
import SketchCompiler.Proofs.Spans

namespace SketchCompiler

open List Text

variable {cs soft rest : List Char} {p : Pos} {c : Char} {piece : Piece}

-- ==== places

/-- The place of an offset of a text: the line breaks in front of it, and
the characters behind the last of them. -/
def placeIn (cs : List Char) (offset : Nat) : Pos :=
  { line := 1 + (cs.take offset).count '\n'
    column := 1 + ((cs.take offset).reverse.takeWhile (· ≠ '\n')).length }

theorem Pos.over_eq_placeIn (cs : List Char) (offset : Nat) :
    Pos.over {} (cs.take offset) = placeIn cs offset := by
  unfold placeIn
  -- the last character decides about the column
  have hends : ∀ ds : List Char, Pos.over {} ds.reverse
      = ⟨1 + ds.count '\n', 1 + (ds.takeWhile (· ≠ '\n')).length⟩ := by
    intro ds
    induction ds with
    | nil => rfl
    | cons d ds ih =>
      rw [reverse_cons, Pos.over_append, ih]
      show Pos.past _ d = _
      by_cases hd : d = '\n'
      · subst hd
        rw [Pos.past_break, count_cons_self, takeWhile_cons_of_neg (by decide)]
        rfl
      · rw [Pos.past_plain _ hd, count_cons_of_ne hd, takeWhile_cons_of_pos]
        · rfl
        · exact decide_eq_true hd
  have hall := hends (cs.take offset).reverse
  rw [reverse_reverse, count_reverse] at hall
  exact hall

-- ==== soft breaks

theorem Softens.length_le (h : Softens soft cs) : soft.length ≤ cs.length := by
  induction h with
  | nil => exact Nat.zero_le _
  | same _ _ ih | blank _ ih => exact Nat.succ_le_succ ih

theorem Softens.count_le (h : Softens soft cs) (hlength : soft.length = cs.length) (n : Nat) :
    (soft.take n).count '\n' ≤ (cs.take n).count '\n'
      ∧ ((cs.take n).count '\n' ≤ (soft.take n).count '\n' → soft.take n = cs.take n) := by
  induction h generalizing n with
  | nil =>
    rw [length_eq_zero_iff.mp hlength.symm]
    exact ⟨Nat.le_refl _, fun _ => rfl⟩
  | @same soft cs c _ ih =>
    cases n with
    | zero => exact ⟨Nat.le_refl _, fun _ => rfl⟩
    | succ n =>
      obtain ⟨hle, heq⟩ := ih (Nat.succ.inj hlength) n
      simp only [take_succ_cons, count_cons]
      exact ⟨by omega, fun hge => by rw [heq (by omega)]⟩
  | @blank soft cs _ ih =>
    cases n with
    | zero => exact ⟨Nat.le_refl _, fun _ => rfl⟩
    | succ n =>
      obtain ⟨hle, -⟩ := ih (Nat.succ.inj hlength) n
      rw [take_succ_cons, take_succ_cons, count_cons_self, count_cons_of_ne (by decide)]
      exact ⟨by omega, fun hge => by omega⟩

theorem Softens.placeIn_eq_iff (h : Softens soft cs) (hlength : soft.length = cs.length)
    (offset : Nat) :
    placeIn soft offset = placeIn cs offset ↔ soft.take offset = cs.take offset := by
  constructor
  · intro hplace
    have hline := congrArg Pos.line hplace
    simp only [placeIn] at hline
    exact (h.count_le hlength offset).2 (by omega)
  · intro htake
    unfold placeIn
    rw [htake]

/-- A text with its soft breaks as blanks, the first characters of which
belong to a piece that is softened already. -/
def softenFrom : List Char → List Char → List Char
  | _, [] => []
  | s :: soft, _ :: rest => s :: softenFrom soft rest
  | [], c :: rest => (softenPiece c rest).headD c :: softenFrom (softenPiece c rest).tail rest

/-- A source with its soft breaks as blanks. -/
def softened (source : String) : List Char :=
  softenFrom [] source.toList

-- ==== pieces

/-- The text starts with the token, as it may be spelled. -/
def Token.StartsIn (t : Token) (cs : List Char) : Prop :=
  ∃ spelled, t.word.SpelledBy spelled ∧ spelled <+: cs

/-- The tokens stand at the offsets of the text; their places are those in
the softened one. -/
def PlacedAt (p : Pos) (cs soft : List Char) : List Token → List Nat → Prop :=
  List.Forall₂ fun t offset => t.pos = p.over (soft.take offset) ∧ t.StartsIn (cs.drop offset)

/-- The tokens of a piece stand inside what it covers, one after the
other. -/
theorem PieceRead.placed (h : PieceRead c rest u) (p : Pos) :
    ∃ offsets, PlacedAt p (c :: rest) u.soft (u.place p).tokens offsets
      ∧ offsets.Pairwise (· < ·) ∧ ∀ offset ∈ offsets, offset < u.soft.length := by
  have hpos := length_pos_iff.mpr h.ne_nil
  cases h.form with
  | gap => exact ⟨[], List.Forall₂.nil, .nil, nofun⟩
  | lexeme hcs hlexeme =>
    refine ⟨[0], .cons ⟨rfl, _, ?_, ⟨_, hcs.symm⟩⟩ .nil, pairwise_singleton _ _,
      forall_mem_singleton.mpr hpos⟩
    exact Word.spelledBy_lexeme hlexeme.plain.1 hlexeme.plain.2.1 _
  | @rawBlock g payload behind soft hcs hg hpayload hlength =>
    refine ⟨[0, g.length + 6], .cons ⟨rfl, _, rfl, ⟨_, hcs.symm⟩⟩
      (.cons ⟨rfl, _, rfl, behind, ?_⟩ .nil), by simp, by simp [hlength]⟩
    rw [hcs]
    show _ = (g ++ '{' :: (payload ++ '}' :: behind)).drop g.length
    simp [Token.word]
  | @string body value behind soft hcs hvalue hlength =>
    refine ⟨[0], .cons ⟨rfl, '"' :: body ++ ['"'], ⟨body, rfl, ?_⟩, behind, ?_⟩ .nil,
      pairwise_singleton _ _, forall_mem_singleton.mpr hpos⟩
    · rw [hvalue]
      exact congrArg some String.toList_ofList.symm
    · simp [hcs]
  | reported _ hwords =>
    rcases hwords with rfl | ⟨rfl, hcs⟩
    · exact ⟨[], List.Forall₂.nil, .nil, nofun⟩
    · exact ⟨[0], .cons ⟨rfl, _, rfl, hcs⟩ .nil, pairwise_singleton _ _,
        forall_mem_singleton.mpr hpos⟩

-- ==== whole scans

theorem take_softenFrom (h : Softens soft cs) (hn : n ≤ soft.length) :
    (softenFrom soft cs).take n = soft.take n := by
  induction h generalizing n with
  | nil =>
    rw [Nat.le_zero.mp hn]
    rfl
  | same c _ ih | blank _ ih =>
    cases n with
    | zero => rfl
    | succ n =>
      rw [softenFrom, take_succ_cons, take_succ_cons, ih (Nat.le_of_succ_le_succ hn)]

theorem PlacedAt.congr (h : PlacedAt p cs soft ts offsets)
    (hagree : ∀ offset ∈ offsets, soft'.take offset = soft.take offset) :
    PlacedAt p cs soft' ts offsets := by
  induction h with
  | nil => exact List.Forall₂.nil
  | @cons t offset ts offsets hhead _ ih =>
    obtain ⟨hoffset, hoffsets⟩ := forall_mem_cons.mp hagree
    refine List.Forall₂.cons ⟨?_, hhead.2⟩ (ih hoffsets)
    rw [hoffset]
    exact hhead.1

/-- The tokens stand at growing offsets of the text, none before `least`
and the last one at its end. -/
def TokensPlaced (p : Pos) (cs soft : List Char) (ts : List Token) (least : Nat) : Prop :=
  ∃ offsets, PlacedAt p cs soft ts offsets ∧ offsets.Pairwise (· < ·)
    ∧ offsets.getLast? = some cs.length ∧ ∀ offset ∈ offsets, least ≤ offset

/-- One more character in front moves all offsets. -/
theorem TokensPlaced.cons (h : TokensPlaced (p.past s) cs soft ts least) (c : Char) :
    TokensPlaced p (c :: cs) (s :: soft) ts (least + 1) := by
  obtain ⟨offsets, hplaced, hsorted, hlast, hleast⟩ := h
  refine ⟨offsets.map (· + 1), forall₂_map_right_iff.mpr hplaced, ?_, ?_, ?_⟩
  · exact pairwise_map.mpr (hsorted.imp fun hlt => Nat.succ_lt_succ hlt)
  · rw [getLast?_map, hlast]
    rfl
  · intro offset hoffset
    obtain ⟨o, ho, rfl⟩ := mem_map.mp hoffset
    exact Nat.succ_le_succ (hleast o ho)

theorem TokensPlaced.prepend (hplaced : PlacedAt p cs soft ts offsets)
    (hsorted : offsets.Pairwise (· < ·)) (hinside : ∀ offset ∈ offsets, offset < least)
    (h : TokensPlaced p cs soft ts' least) : TokensPlaced p cs soft (ts ++ ts') 0 := by
  obtain ⟨offsets', hplaced', hsorted', hlast, hleast⟩ := h
  refine ⟨offsets ++ offsets', rel_append hplaced hplaced', ?_, ?_, fun _ _ => Nat.zero_le _⟩
  · exact pairwise_append.mpr ⟨hsorted, hsorted', fun o ho o' ho' =>
      Nat.lt_of_lt_of_le (hinside o ho) (hleast o' ho')⟩
  · rw [getLast?_append, hlast]
    rfl

theorem Softens.uncons (h : Softens (s :: soft) (c :: cs)) :
    Softens soft cs ∧ ∀ other, Softens other cs → Softens (s :: other) (c :: cs) := by
  cases h with
  | same _ h => exact ⟨h, fun _ hother => hother.same _⟩
  | blank h => exact ⟨h, fun _ hother => hother.blank⟩

theorem scanFrom_places (h : scanFrom skip (p.over soft) cs = .ok scanned)
    (hskip : soft.length = skip) (hsoft : Softens soft cs) :
    Softens (softenFrom soft cs) cs ∧ (softenFrom soft cs).length = cs.length
      ∧ TokensPlaced p cs (softenFrom soft cs) scanned.tokens skip := by
  induction cs generalizing skip p soft scanned with
  | nil =>
    have hnil : soft = [] := length_eq_zero_iff.mp (Nat.le_zero.mp hsoft.length_le)
    subst hnil
    subst hskip
    rw [scanFrom] at h
    cases h
    refine ⟨.nil, rfl, [0], List.Forall₂.cons ⟨rfl, [], rfl, nil_prefix⟩ .nil,
      pairwise_singleton _ _, rfl, forall_mem_singleton.mpr (Nat.le_refl _)⟩
  | cons c rest ih =>
    subst hskip
    cases soft with
    | cons s soft =>
      rw [length_cons, scanFrom, Pos.over_cons] at h
      obtain ⟨hrest, hcons⟩ := hsoft.uncons
      obtain ⟨hsoftens, hlength, hplaced⟩ := ih h rfl hrest
      exact ⟨hcons _ hsoftens, congrArg (· + 1) hlength, hplaced.cons c⟩
    | nil =>
      -- the first character opens a piece, the rest of which is pending
      obtain ⟨piece, behind, hpiece, hbehind, rfl⟩ := scanFrom_cons h
      obtain ⟨u, hu, rfl⟩ := scanPiece_read hpiece
      obtain ⟨s, soft, hs⟩ := exists_cons_of_ne_nil hu.ne_nil
      rw [softenFrom, ← hu.soft, hs, headD_cons, tail_cons]
      obtain ⟨hrest, hcons⟩ := (hs ▸ hu.softens).uncons
      obtain ⟨offsets, hfront, hsorted, hinside⟩ := hu.placed p
      rw [hs] at hfront hinside
      simp only [Unplaced.place, hs, Pos.over_cons] at hbehind
      obtain ⟨hsoftens, hlength, hplaced⟩ := ih hbehind rfl hrest
      refine ⟨hcons _ hsoftens, congrArg (· + 1) hlength, ?_⟩
      refine TokensPlaced.prepend (hfront.congr ?_) hsorted hinside (hplaced.cons c)
      intro offset hoffset
      cases offset with
      | zero => rfl
      | succ offset =>
        have hshort := Nat.lt_of_succ_lt_succ (hinside _ hoffset)
        rw [take_succ_cons, take_succ_cons, take_softenFrom hrest hshort.le]

-- ==== order

theorem Pos.lt_past (p : Pos) (c : Char) : p < p.past c := by
  unfold Pos.past
  split
  · exact Pos.lt_iff.mpr (.inl (Nat.lt_succ_self _))
  · exact Pos.lt_iff.mpr (.inr ⟨rfl, Nat.lt_succ_self _⟩)

theorem Pos.le_over (p : Pos) (cs : List Char) : p ≤ p.over cs := by
  induction cs generalizing p with
  | nil => exact le_rfl
  | cons c cs ih => exact (p.lt_past c).le.trans (ih _)

/-- A later offset of a text has a later place. -/
theorem Pos.over_take_lt (p : Pos) (hlt : m < n) (hn : n ≤ cs.length) :
    p.over (cs.take m) < p.over (cs.take n) := by
  have hm : m < (cs.take n).length := by
    rw [length_take]
    omega
  have hfront : (cs.take n).take m = cs.take m := by
    rw [take_take, Nat.min_eq_left hlt.le]
  rw [← take_append_drop m (cs.take n), hfront, Pos.over_append, drop_eq_getElem_cons hm,
    Pos.over_cons]
  exact (Pos.lt_past _ _).trans_le (Pos.le_over _ _)

theorem PlacedAt.ordered (h : PlacedAt p cs soft ts offsets) (hsorted : offsets.Pairwise (· < ·))
    (hinside : ∀ offset ∈ offsets, offset ≤ soft.length) : ts.Pairwise (·.pos < ·.pos) := by
  rw [pairwise_iff_get] at hsorted ⊢
  intro i j hij
  have hlength : ts.length = offsets.length := h.length_eq
  have hi : i.val < offsets.length := hlength ▸ i.isLt
  have hj : j.val < offsets.length := hlength ▸ j.isLt
  rw [(h.get i.isLt hi).1, (h.get j.isLt hj).1]
  exact p.over_take_lt (hsorted ⟨i, hi⟩ ⟨j, hj⟩ hij) (hinside _ (get_mem _ _))

/-- A scan ends in the end marker; every token before it is one of a
piece. -/
theorem scanFrom_ended (h : scanFrom skip p cs = .ok scanned) :
    ∃ front stop, scanned.tokens = front ++ [stop] ∧ stop.kind = .eof
      ∧ ∀ t ∈ front, ∃ p c rest piece, scanPiece p c rest = .ok piece ∧ t ∈ piece.tokens := by
  induction cs generalizing skip p scanned with
  | nil =>
    rw [scanFrom] at h
    cases h
    exact ⟨[], _, rfl, rfl, forall_mem_nil _⟩
  | cons c rest ih =>
    cases skip with
    | succ skip => exact ih h
    | zero =>
      obtain ⟨piece, behind, hpiece, hbehind, rfl⟩ := scanFrom_cons h
      obtain ⟨front, stop, htokens, hstop, hfront⟩ := ih hbehind
      refine ⟨piece.tokens ++ front, stop, by rw [htokens, append_assoc], hstop, ?_⟩
      exact forall_mem_append.mpr ⟨fun t ht => ⟨p, c, rest, piece, hpiece, ht⟩, hfront⟩

/-- The tokens of a source stand in order, and the last one is the end
marker. -/
theorem Token.scan_ordered (h : Token.scan source = .ok scanned) :
    scanned.tokens.Pairwise (·.pos < ·.pos)
      ∧ ∃ front stop, scanned.tokens = front ++ [stop] ∧ stop.kind = .eof := by
  have hscan : scanFrom 0 (({} : Pos).over []) source.toList = .ok scanned := h
  obtain ⟨-, hlength, offsets, hplaced, hsorted, hlast, -⟩ := scanFrom_places hscan rfl .nil
  obtain ⟨front, stop, htokens, hstop, -⟩ := scanFrom_ended h
  refine ⟨hplaced.ordered hsorted ?_, front, stop, htokens, hstop⟩
  obtain ⟨front, rfl⟩ := getLast?_eq_some_iff.mp hlast
  rw [hlength]
  refine forall_mem_append.mpr ⟨fun offset hoffset => ?_, forall_mem_singleton.mpr le_rfl⟩
  exact ((pairwise_append.mp hsorted).2.2 offset hoffset _ mem_cons_self).le

-- ==== sources

/-- **Where tokens stand.**  In every source that is scanned, with or
without findings, the tokens stand one behind the other, the end marker at
the end.  Each is spelled at its offset, and its line and column are those
of the offset in the source with its soft line breaks as blanks.  They are
those of the offset in the source itself exactly if no line break in front
of it is soft. -/
theorem Token.scan_places {source : String} {scanned : Scanned}
    (h : Token.scan source = .ok scanned) :
    Softens (softened source) source.toList ∧ (softened source).length = source.toList.length
      ∧ ∃ offsets : List Nat, offsets.Pairwise (· < ·)
        ∧ offsets.getLast? = some source.toList.length
        ∧ List.Forall₂ (fun t offset => t.StartsIn (source.toList.drop offset)
            ∧ t.pos = placeIn (softened source) offset
            ∧ (t.pos = placeIn source.toList offset
              ↔ (softened source).take offset = source.toList.take offset))
          scanned.tokens offsets := by
  have hscan : scanFrom 0 (({} : Pos).over []) source.toList = .ok scanned := h
  obtain ⟨hsoft, hlength, offsets, hplaced, hsorted, hlast, -⟩ := scanFrom_places hscan rfl .nil
  refine ⟨hsoft, hlength, offsets, hsorted, hlast, hplaced.imp fun t offset hplace => ?_⟩
  have hpos : t.pos = placeIn (softened source) offset :=
    hplace.1.trans (Pos.over_eq_placeIn _ _)
  refine ⟨hplace.2, hpos, ?_⟩
  rw [hpos]
  exact hsoft.placeIn_eq_iff hlength offset

/-- A line break in a comment of raw code, an escaped one in a string
literal, and one between words; only the last one counts. -/
def brokenLines : String :=
  "unsafe \x7b/*\n*/\x7d x \"\\\n\" y\nz"

/-- The tokens of that source. -/
def brokenLinesTokens : List Token :=
  [⟨.kwUnsafe, "unsafe", ⟨1, 1⟩⟩, ⟨.rawBlock, "/*\n*/", ⟨1, 8⟩⟩, ⟨.ident, "x", ⟨1, 16⟩⟩,
    ⟨.string, "\n", ⟨1, 18⟩⟩, ⟨.ident, "y", ⟨1, 23⟩⟩, ⟨.ident, "z", ⟨2, 1⟩⟩, ⟨.eof, "", ⟨2, 2⟩⟩]

theorem scan_brokenLines :
    Token.scan brokenLines = .ok { tokens := brokenLinesTokens, errors := [] } :=
  rfl

/-- The tokens of that source stand where its softened text says. -/
theorem Token.scan_places_brokenLines :
    softened brokenLines = "unsafe \x7b/* */\x7d x \"\\ \" y\nz".toList
      ∧ ∃ offsets : List Nat, offsets.Pairwise (· < ·)
        ∧ offsets.getLast? = some brokenLines.toList.length
        ∧ List.Forall₂ (fun t offset => t.StartsIn (brokenLines.toList.drop offset)
            ∧ t.pos = placeIn (softened brokenLines) offset
            ∧ (t.pos = placeIn brokenLines.toList offset
              ↔ (softened brokenLines).take offset = brokenLines.toList.take offset))
          brokenLinesTokens offsets :=
  ⟨by decide +kernel, (Token.scan_places scan_brokenLines).2.2⟩

/-- Behind a soft break the places are not those of the source: `x` stands
on the second line, `y` on the third and `z` on the fourth. -/
theorem Token.places_behind_breaks :
    Token.scan brokenLines = .ok { tokens := brokenLinesTokens, errors := [] }
      ∧ ⟨.ident, "x", ⟨1, 16⟩⟩ ∈ brokenLinesTokens
      ∧ brokenLines.toList.drop 15 = "x \"\\\n\" y\nz".toList
      ∧ placeIn brokenLines.toList 15 = ⟨2, 5⟩
      ∧ ⟨.ident, "z", ⟨2, 1⟩⟩ ∈ brokenLinesTokens
      ∧ brokenLines.toList.drop 24 = ['z'] ∧ placeIn brokenLines.toList 24 = ⟨4, 1⟩ :=
  ⟨scan_brokenLines, by decide +kernel, by decide +kernel, by decide +kernel, by decide +kernel,
    by decide +kernel, by decide +kernel⟩

end SketchCompiler
