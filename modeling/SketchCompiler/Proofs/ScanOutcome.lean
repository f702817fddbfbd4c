/-
What a scan comes to.

# Every source

A scan goes from one text to what a step leaves of it (`Reaches`).  It
fails exactly if it comes to a string literal that ends the source in an
escaping backslash.  Any other source yields tokens with one end marker,
the last of them, and reports whatever it comes to that cannot be read
(`Rejected`, `Token.scan_outcome`).

# Raw blocks

Between `unsafe`, a gap and a brace on one side and a brace on the other, a
balanced payload is captured as it stands, and nothing else is ever
captured (`Token.rawBlock_exact`).
-/
import SketchCompiler.Proofs.TokenPlaces

namespace SketchCompiler

open List Text

variable {cs rest body behind : List Char} {c : Char} {p : Pos} {piece : Piece}

-- ==== reached texts

/-- Scanning the first text comes to a step at the second one. -/
inductive Reaches : List Char → List Char → Prop where
  | here {cs : List Char} : Reaches cs cs
  | step {p : Pos} {c : Char} {rest behind : List Char} {piece : Piece}
      (hpiece : scanPiece p c rest = .ok piece)
      (h : Reaches ((c :: rest).drop piece.width) behind) : Reaches (c :: rest) behind

theorem Reaches.suffix (h : Reaches cs behind) : behind <:+ cs := by
  induction h with
  | here => exact suffix_rfl
  | step _ _ ih => exact ih.trans (drop_suffix _ _)

/-- A step covers some of what is left. -/
theorem scanPiece_progress (h : scanPiece p c rest = .ok piece) :
    0 < piece.width ∧ piece.width ≤ (c :: rest).length := by
  obtain ⟨u, hu, rfl⟩ := scanPiece_read h
  exact ⟨length_pos_iff.mpr hu.ne_nil, hu.softens.length_le⟩

theorem scanFrom_step (h : scanPiece p c rest = .ok piece) :
    scanFrom 0 p (c :: rest) = (scanFrom 0 piece.next ((c :: rest).drop piece.width)).map
      (Scanned.prepend piece.tokens piece.errors) := by
  obtain ⟨n, hn⟩ := Nat.exists_eq_add_of_lt (scanPiece_progress h).1
  rw [scanFrom_piece h, scanFrom_skip, hn]
  simp only [Nat.zero_add, Nat.add_sub_cancel, drop_succ_cons]

/-- What is found at a reached text is found in the whole. -/
theorem Reaches.found (hreach : Reaches cs behind) (h : scanFrom 0 p cs = .ok scanned) :
    ∃ q found, scanFrom 0 q behind = .ok found ∧ found.errors <:+ scanned.errors := by
  induction hreach generalizing p scanned with
  | here => exact ⟨p, scanned, h, suffix_rfl⟩
  | @step _ c rest _ piece hpiece _ ih =>
    obtain ⟨u, hu, rfl⟩ := scanPiece_read hpiece
    rw [scanFrom_step (hu.scan p)] at h
    cases hrest : scanFrom 0 (u.place p).next ((c :: rest).drop (u.place p).width) with
    | error fault =>
      rw [hrest] at h
      cases h
    | ok found =>
      rw [hrest] at h
      cases h
      obtain ⟨q, found', hfound, herrors⟩ := ih hrest
      exact ⟨q, found', hfound, herrors.trans (suffix_append _ _)⟩

/-- A scan of the text comes to a string literal that ends in an escaping
backslash. -/
def Dangling (cs : List Char) : Prop :=
  ∃ body, Reaches cs ('"' :: (body ++ ['\\'])) ∧ (decodeEscapes body).isSome = true

theorem dangling_of_error (h : scanFrom 0 p cs = .error fault) : Dangling cs := by
  induction hn : cs.length using Nat.strong_induction_on generalizing cs p with | _ n ih
  subst hn
  cases cs with
  | nil => cases h
  | cons c rest =>
    rcases pieceRead c rest with ⟨u, hu⟩ | ⟨body, rfl, rfl, hbody, -⟩
    · rw [scanFrom_step (hu.scan p)] at h
      cases hrest : scanFrom 0 (u.place p).next ((c :: rest).drop (u.place p).width) with
      | error fault =>
        have hshort : ((c :: rest).drop (u.place p).width).length < (c :: rest).length := by
          have hwidth := scanPiece_progress (hu.scan p)
          rw [length_drop]
          omega
        obtain ⟨body, hreach, hbody⟩ := ih _ hshort hrest rfl
        exact ⟨body, .step (hu.scan p) hreach, hbody⟩
      | ok found =>
        rw [hrest] at h
        cases h
    · exact ⟨body, .here, hbody⟩

theorem Dangling.error (h : Dangling cs) (p : Pos) : scanFrom 0 p cs = .error .danglingEscape := by
  obtain ⟨body, hreach, hbody⟩ := h
  obtain ⟨value, hvalue⟩ := Option.isSome_iff_exists.mp hbody
  cases hscan : scanFrom 0 p cs with
  | error fault => rfl
  | ok scanned =>
    obtain ⟨q, found, hfound, -⟩ := hreach.found hscan
    obtain ⟨piece, -, hpiece, -⟩ := scanFrom_cons hfound
    have hstring : scanPiece q '"' (body ++ ['\\']) = scanString q (body ++ ['\\']) := rfl
    rw [hstring, scanString_dangling hvalue] at hpiece
    cases hpiece

-- ==== rejected texts

/-- What cannot be read at the start of a text: a character that starts
nothing, a string literal up to the end of its line or of the source, a
block comment that the source ends in, digits that are missing behind the
mark of a base, a unit of time that runs on, and `unsafe` without a
balanced payload in braces. -/
inductive Rejected : List Char → Prop where
  | character {c : Char} {rest : List Char} (htrivia : startsTrivia (c :: rest) = false)
      (hword : isWordStart c = false) (hdigit : isDigit c = false) (hquote : c ≠ '"')
      (hsingle : operatorOfChar c = none) (hpair : rest.head?.bind (operatorOfPair c) = none) :
      Rejected (c :: rest)
  | string {body behind : List Char} (hbody : (decodeEscapes body).isSome = true)
      (hbehind : ∀ c ∈ behind.head?, c = '\n') : Rejected ('"' :: (body ++ behind))
  | comment {g body : List Char} (hg : Gap false g) (hbody : ¬ ['*', '/'] <:+: body) :
      Rejected (g ++ '/' :: '*' :: body)
  | hexadecimal {mark : Char} {rest : List Char} (hmark : mark = 'x' ∨ mark = 'X')
      (hrest : ∀ c ∈ rest.head?, isHexDigit c = false) : Rejected ('0' :: mark :: rest)
  | binary {mark : Char} {rest : List Char} (hmark : mark = 'b' ∨ mark = 'B')
      (hrest : ∀ c ∈ rest.head?, isBinaryDigit c = false) : Rejected ('0' :: mark :: rest)
  | duration {c d : Char} {ds unit rest : List Char} (hds : ∀ d ∈ c :: ds, isDigit d = true)
      (hunit : unit ∈ durationUnits) (hd : isWordChar d = true) :
      Rejected (c :: (ds ++ (unit ++ d :: rest)))
  | rawBlock {behind : List Char} (hend : ∀ c ∈ behind.head?, isWordChar c = false)
      (hnone : ∀ g payload rest, behind = g ++ '{' :: (payload ++ '}' :: rest) → Gap false g →
        ¬ Payload payload) : Rejected ("unsafe".toList ++ behind)

theorem Gap.startsTrivia_comment (h : Gap false g) (body : List Char) :
    startsTrivia (g ++ '/' :: '*' :: body) = true := by
  cases h with
  | blank hc =>
    simp only [mem_cons, not_mem_nil, or_false] at hc
    rcases hc with rfl | rfl | rfl | rfl <;> rfl
  | _ => rfl

theorem takeWhile_run_nil (h : ∀ c ∈ rest.head?, f c = false) : rest.takeWhile f = [] := by
  have hrun : ([] ++ rest).takeWhile f = [] := takeWhile_run nofun h
  exact hrun

/-- A step at such a text reports it. -/
theorem Rejected.reported (h : Rejected cs) : ∃ c rest, cs = c :: rest
    ∧ ∀ p piece, scanPiece p c rest = .ok piece → piece.errors ≠ [] := by
  cases h with
  | character htrivia hword hdigit hquote hsingle hpair =>
    refine ⟨_, _, rfl, fun p piece hpiece => ?_⟩
    simp only [scanPiece, scanOperator, htrivia, hword, hdigit, hquote, hsingle, hpair,
      Bool.false_eq_true, if_false] at hpiece
    cases hpiece
    exact cons_ne_nil _ _
  | @string body behind hbody hbehind =>
    obtain ⟨value, hvalue⟩ := Option.isSome_iff_exists.mp hbody
    refine ⟨_, _, rfl, fun p piece hpiece => ?_⟩
    have hstring : scanPiece p '"' (body ++ behind) = scanString p (body ++ behind) := rfl
    rw [hstring, scanString_toLine hvalue hbehind] at hpiece
    cases hpiece
    exact cons_ne_nil _ _
  | @comment g body hg hbody =>
    have hstarts := hg.startsTrivia_comment body
    obtain ⟨c, rest, hcs⟩ := exists_cons_of_ne_nil
      (append_ne_nil_of_right_ne_nil g (cons_ne_nil _ _))
    refine ⟨c, rest, hcs, fun p piece hpiece => ?_⟩
    rw [scanPiece, if_pos (hcs ▸ hstarts), ← hcs, hg.scan_block hbody] at hpiece
    cases hpiece
    exact cons_ne_nil _ _
  | hexadecimal hmark hrest =>
    refine ⟨_, _, rfl, fun p piece hpiece => ?_⟩
    rw [scanPiece_digit (by decide), scanNumber, if_pos hmark, takeWhile_run_nil hrest] at hpiece
    cases hpiece
    exact cons_ne_nil _ _
  | binary hmark hrest =>
    refine ⟨_, _, rfl, fun p piece hpiece => ?_⟩
    rw [scanPiece_digit (by decide), scanNumber, if_neg, if_pos hmark,
      takeWhile_run_nil hrest] at hpiece
    · cases hpiece
      exact cons_ne_nil _ _
    · rcases hmark with rfl | rfl <;> decide
  | duration hds hunit hd =>
    refine ⟨_, _, rfl, fun p piece hpiece => ?_⟩
    rw [scanPiece_duration hds hunit, head?_cons, Option.any_some, if_pos hd] at hpiece
    cases hpiece
    exact cons_ne_nil _ _
  | @rawBlock behind hend hnone =>
    have hcs : 'u' :: ("nsafe".toList ++ behind) = "unsafe".toList ++ behind := rfl
    refine ⟨_, _, hcs.symm, fun p piece hpiece => ?_⟩
    cases (rawBlockForm behind).2 with
    | closed hbehind hg hpayload => exact absurd hpayload (hnone _ _ _ hbehind hg)
    | rejected hne hread =>
      rw [(scanPiece_raw hcs hend).2 hread] at hpiece
      cases hpiece
      exact mt map_eq_nil_iff.mp (mt map_eq_nil_iff.mp hne)

-- ==== tokens of a piece

/-- No piece has an end marker, and the raw blocks of a piece are
payloads. -/
theorem scanPiece_kinds (h : scanPiece p c rest = .ok piece) : ∀ t ∈ piece.tokens,
    t.kind ≠ .eof ∧ (t.kind = .rawBlock → Payload t.lexeme.toList) := by
  obtain ⟨u, hu, rfl⟩ := scanPiece_read h
  suffices hwords : ∀ w ∈ u.words, w.2.kind ≠ .eof
      ∧ (w.2.kind = .rawBlock → Payload w.2.lexeme.toList) by
    intro t ht
    obtain ⟨w, hw, rfl⟩ := mem_map.mp ht
    exact hwords w hw
  cases hu.form with
  | gap => nofun
  | lexeme _ hlexeme =>
    exact forall_mem_singleton.mpr ⟨hlexeme.plain.2.2.2, fun hraw => absurd hraw hlexeme.plain.2.1⟩
  | rawBlock _ _ hpayload =>
    refine forall_mem_cons.mpr ⟨⟨nofun, nofun⟩, forall_mem_singleton.mpr ⟨nofun, fun _ => ?_⟩⟩
    rwa [String.toList_ofList]
  | string => exact forall_mem_singleton.mpr ⟨nofun, nofun⟩
  | reported _ hwords =>
    rcases hwords with rfl | ⟨rfl, -⟩
    · nofun
    · exact forall_mem_singleton.mpr ⟨nofun, nofun⟩

-- ==== sources

/-- **What a scan comes to.**  A scan fails exactly if it comes to a string
literal without an end whose last character is an escaping backslash.
Otherwise it yields tokens, the last of which is the one end marker, and
something is reported if it comes to what cannot be read.  Each step starts
at an end of the source and covers at least one character of it and no more
than there are. -/
theorem Token.scan_outcome (source : String) :
    (Dangling source.toList → Token.scan source = .error .danglingEscape)
      ∧ (¬ Dangling source.toList → ∃ scanned ts stop, Token.scan source = .ok scanned
        ∧ scanned.tokens = ts ++ [stop] ∧ stop.kind = .eof ∧ (∀ t ∈ ts, t.kind ≠ .eof)
        ∧ ((∃ cs, Reaches source.toList cs ∧ Rejected cs) → scanned.errors ≠ []))
      ∧ ∀ c rest, Reaches source.toList (c :: rest) → c :: rest <:+ source.toList
        ∧ ∀ p piece, scanPiece p c rest = .ok piece →
          0 < piece.width ∧ piece.width ≤ (c :: rest).length := by
  refine ⟨fun h => h.error {}, fun h => ?_, fun c rest h =>
    ⟨h.suffix, fun _ _ => scanPiece_progress⟩⟩
  cases hscan : Token.scan source with
  | error fault => exact absurd (dangling_of_error hscan) h
  | ok scanned =>
    obtain ⟨ts, stop, htokens, hstop, hpieces⟩ := scanFrom_ended hscan
    refine ⟨scanned, ts, stop, rfl, htokens, hstop, fun t ht => ?_, ?_⟩
    · obtain ⟨p, c, rest, piece, hpiece, ht⟩ := hpieces t ht
      exact (scanPiece_kinds hpiece t ht).1
    · rintro ⟨cs, hreach, hrejected⟩
      obtain ⟨q, found, hfound, hsuffix⟩ := hreach.found hscan
      obtain ⟨c, rest, rfl, hreported⟩ := hrejected.reported
      obtain ⟨piece, behind, hpiece, -, rfl⟩ := scanFrom_cons hfound
      intro hnone
      rw [hnone] at hsuffix
      exact hreported q piece hpiece (append_eq_nil_iff.mp (suffix_nil.mp hsuffix)).1

/-- Behind a word, an escaped quote does not end the literal, and the last
backslash escapes nothing. -/
theorem Token.scan_outcome_escaped :
    Dangling "x \"a\\\"\\".toList ∧ Token.scan "x \"a\\\"\\" = .error .danglingEscape :=
  have hdangling : Dangling "x \"a\\\"\\".toList :=
    ⟨"a\\\"".toList, .step (p := {}) rfl (.step (p := {}) rfl .here), rfl⟩
  ⟨hdangling, (Token.scan_outcome _).1 hdangling⟩

/-- **Raw blocks are captured exactly.**  Wherever a token may start, the
word `unsafe`, a gap and a balanced payload in braces are read as two
tokens, the second one the payload as it stands, with nothing reported and
the scan going on right behind.  Conversely every raw block that a step of
the scan, or a whole scan, yields is a balanced payload. -/
theorem Token.rawBlock_exact :
    (∀ g payload rest p, Gap false g → Payload payload →
      ∃ q next, scanFrom 0 p ("unsafe".toList ++ (g ++ '{' :: (payload ++ '}' :: rest)))
        = (scanFrom 0 next rest).map (Scanned.prepend
            [⟨.kwUnsafe, "unsafe", p⟩, ⟨.rawBlock, String.ofList payload, q⟩] []))
      ∧ (∀ p c rest piece, scanPiece p c rest = .ok piece →
        ∀ t ∈ piece.tokens, t.kind = .rawBlock → Payload t.lexeme.toList)
      ∧ ∀ source scanned, Token.scan source = .ok scanned →
        ∀ t ∈ scanned.tokens, t.kind = .rawBlock → Payload t.lexeme.toList := by
  refine ⟨fun g payload rest p hg hpayload => ?_,
    fun _ _ _ _ h t ht => (scanPiece_kinds h t ht).2, fun source scanned h t ht hkind => ?_⟩
  · obtain ⟨q, next, hpiece⟩ := scanPiece_rawBlock hg hpayload p rest
    have hcs : 'u' :: ("nsafe".toList ++ (g ++ '{' :: (payload ++ '}' :: rest)))
        = "unsafe".toList ++ (g ++ '{' :: (payload ++ ['}'])) ++ rest := by simp
    have hscan := scanFrom_step hpiece
    rw [hcs, drop_left] at hscan
    exact ⟨q, next, by simpa using hscan⟩
  · obtain ⟨ts, stop, htokens, hstop, hpieces⟩ := scanFrom_ended h
    rw [htokens] at ht
    rcases mem_append.mp ht with ht | ht
    · obtain ⟨p, c, rest, piece, hpiece, ht⟩ := hpieces t ht
      exact (scanPiece_kinds hpiece t ht).2 hkind
    · rw [mem_singleton.mp ht, hstop] at hkind
      cases hkind

/-- A brace as a character between braces, and one behind a quote in a
comment whose opening mark looks like its end. -/
def tangled : List Char :=
  ['{', '\'', '}', '\'', '}', '/', '*', '/', '{', '\'', '*', '/']

theorem payload_tangled : Payload tangled :=
  @Payload.braces ['\'', '}', '\''] _
    (@Payload.literal '\'' ['}'] _ (.inr rfl) (.plain (by decide) (by decide) .nil) .nil)
    (@Payload.block ['/', '{', '\''] [] (by decide) .nil)

/-- It is captured behind a comment. -/
theorem Token.rawBlock_exact_tangled :
    Gap false ['/', '*', '*', '/'] ∧ Payload tangled ∧ ∃ q next,
      scanFrom 0 {} ("unsafe".toList ++ (['/', '*', '*', '/'] ++ '{' :: (tangled ++ ['}'])))
        = (scanFrom 0 next []).map (Scanned.prepend
            [⟨.kwUnsafe, "unsafe", {}⟩, ⟨.rawBlock, String.ofList tangled, q⟩] []) :=
  have hgap : Gap false ['/', '*', '*', '/'] := @Gap.block false [] [] (by decide) .nil
  ⟨hgap, payload_tangled, Token.rawBlock_exact.1 _ _ [] {} hgap payload_tangled⟩

end SketchCompiler
