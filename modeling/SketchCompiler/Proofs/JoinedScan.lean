/-
Scanning two texts with a line break between them.

A line break continues no word, number or operator, and a string literal
or a raw block that has closed is not read further.  So a piece without
findings is read alike with a line break and any text behind it
(`scanPiece_line`).  Blanks and comments are the one exception: where
they reach the end of the first text, they go on into the second
(`scanTrivia_line`); a line comment there is ended by the break.

The tokens of the first text without its end marker come first, then
those of the second, further down by the line of the first text's end
marker (`Token.scan_append`).
-/
import SketchCompiler.Proofs.Layout
import SketchCompiler.Proofs.MovedScan

namespace SketchCompiler

open List Text

variable {cs rest : List Char} {p : Pos} {c : Char}

variable {tail : List Char}

-- ==== line breaks

theorem starts_of_line (hc : c ≠ '\n') (h : cs ++ '\n' :: tail = c :: rest) :
    ∃ rest', cs = c :: rest' := by
  cases cs with
  | nil => exact absurd (List.cons.inj h).1.symm hc
  | cons b cs => exact ⟨cs, by rw [(List.cons.inj h).1]⟩

theorem takeWhile_line (hf : f '\n' = false) (cs : List Char) :
    (cs ++ '\n' :: tail).takeWhile f = cs.takeWhile f := by
  induction cs with
  | nil => simp only [nil_append, List.takeWhile, hf]
  | cons c cs ih =>
    rw [cons_append, takeWhile_cons, takeWhile_cons, ih]

theorem dropWhile_line (hf : f '\n' = false) (cs : List Char) :
    (cs ++ '\n' :: tail).dropWhile f = cs.dropWhile f ++ '\n' :: tail := by
  induction cs with
  | nil => simp only [nil_append, List.dropWhile, hf]
  | cons c cs ih =>
    rw [cons_append, dropWhile_cons, dropWhile_cons, ih]
    split <;> rfl

-- ==== trivia

theorem startsTrivia_line (c : Char) (rest : List Char) :
    startsTrivia (c :: (rest ++ '\n' :: tail)) = startsTrivia (c :: rest) := by
  by_cases hc : c = '/'
  · subst hc
    cases rest with
    | nil => rfl
    | cons b rest =>
      by_cases hb : b = '/' ∨ b = '*'
      · rcases hb with rfl | rfl <;> rfl
      · have hslash : b ≠ '/' := fun h => hb (.inl h)
        have hstar : b ≠ '*' := fun h => hb (.inr h)
        simp [startsTrivia, hslash, hstar]
  · unfold startsTrivia
    split <;> simp_all

/-- A line break behind a gap ends a comment that is still open. -/
theorem Gap.break (h : Gap atEnd g) : Gap false (g ++ ['\n']) := by
  induction h with
  | nil => exact .blank (by decide) .nil
  | blank hc _ ih => exact .blank hc ih
  | line hbody _ ih =>
    rw [cons_append, cons_append, append_assoc]
    exact .line hbody ih
  | block hbody _ ih =>
    rw [cons_append, cons_append, append_assoc]
    exact .block hbody ih
  | lastLine hbody => exact .line hbody .nil

theorem scanTrivia_line (h : (scanTrivia .gap p cs).errors = [])
    (hshort : (scanTrivia .gap p cs).width < cs.length) :
    scanTrivia .gap p (cs ++ '\n' :: tail) = scanTrivia .gap p cs := by
  obtain ⟨front, rest, issues, rfl, hform, hscan⟩ := scanTrivia_covers cs
  have hrest : rest ≠ [] := by
    rintro rfl
    rw [hscan, append_nil] at hshort
    exact Nat.lt_irrefl _ hshort
  obtain ⟨-, hstop, atEnd, hg, hend⟩ := hform.resolve_right fun hopen => hrest hopen.2
  obtain rfl : atEnd = false := Bool.eq_false_iff.mpr fun hlast => hrest (hend hlast)
  obtain ⟨c, rest, rfl⟩ := exists_cons_of_ne_nil hrest
  rw [hg.scan hstop, append_assoc]
  exact hg.scan ((startsTrivia_line c rest).trans hstop) p

-- ==== raw blocks

theorem scanRawBlock_line (h : (scanRawBlock p cs).errors = []) :
    scanRawBlock p (cs ++ '\n' :: tail) = scanRawBlock p cs := by
  cases (rawBlockForm cs).2 with
  | @closed g payload behind hcs hg hpayload =>
    obtain ⟨soft, -, hread⟩ := scanRawBlock_payload hg hpayload
    rw [hcs, (hread behind).2 p, ← (hread (behind ++ '\n' :: tail)).2 p]
    simp
  | rejected hne hread =>
    rw [hread] at h
    exact absurd (map_eq_nil_iff.mp h) hne

-- ==== words and numbers

theorem scanWord_line (h : (scanWord p cs).errors = []) :
    scanWord p (cs ++ '\n' :: tail) = scanWord p cs := by
  have hword : (cs ++ '\n' :: tail).takeWhile isWordChar = cs.takeWhile isWordChar :=
    takeWhile_line (by decide) cs
  have hdrop : (cs ++ '\n' :: tail).drop (cs.takeWhile isWordChar).length
      = cs.drop (cs.takeWhile isWordChar).length ++ '\n' :: tail :=
    drop_append_of_le_length ( takeWhile_prefix _).length_le
  unfold scanWord at h ⊢
  simp only [hword, hdrop] at h ⊢
  split
  · rename_i hmarker
    rw [if_pos hmarker] at h
    rw [scanRawBlock_line h]
  · rfl

theorem durationSuffix_line (cs : List Char) :
    durationSuffix (cs ++ '\n' :: tail) = durationSuffix cs := by
  match cs with
  | [] => rfl
  | [c] =>
    unfold durationSuffix
    split <;> simp_all
  | c :: b :: rest =>
    unfold durationSuffix
    split <;> split <;> simp_all

theorem runsOn_line (cs : List Char) :
    ((cs ++ '\n' :: tail).drop (durationSuffix cs).length).head?.any isWordChar
      = (cs.drop (durationSuffix cs).length).head?.any isWordChar := by
  have hshort : (durationSuffix cs).length ≤ cs.length := by
    obtain ⟨behind, hcs⟩ := durationSuffix_append cs
    have hlength := congrArg List.length hcs
    rw [length_append] at hlength
    omega
  rw [drop_append_of_le_length hshort]
  cases cs.drop (durationSuffix cs).length with
  | nil =>
    show isWordChar '\n' = false
    decide
  | cons c rest => rfl

theorem scanDecimal_undotted (hwhole : cs.takeWhile isDigit = whole)
    (hrest : cs.dropWhile isDigit = rest) (h : ∀ behind, rest = '.' :: behind → False) :
    scanDecimal p cs =
      if (durationSuffix rest).isEmpty then .ofLexeme .int p whole []
      else .ofLexeme .duration p (whole ++ durationSuffix rest)
        (if (rest.drop (durationSuffix rest).length).head?.any isWordChar
          then [.trailingDurationSuffix] else []) := by
  unfold scanDecimal
  simp only [hwhole, hrest]

theorem scanDecimal_line (p : Pos) (cs : List Char) :
    scanDecimal p (cs ++ '\n' :: tail) = scanDecimal p cs := by
  have htake : (cs ++ '\n' :: tail).takeWhile isDigit = cs.takeWhile isDigit :=
    takeWhile_line (by decide) cs
  have hdrop : (cs ++ '\n' :: tail).dropWhile isDigit = cs.dropWhile isDigit ++ '\n' :: tail :=
    dropWhile_line (by decide) cs
  by_cases hdot : ∃ behind, cs.dropWhile isDigit = '.' :: behind
  · obtain ⟨behind, hrest⟩ := hdot
    have hfraction : (behind ++ '\n' :: tail).takeWhile isDigit = behind.takeWhile isDigit :=
      takeWhile_line (by decide) behind
    unfold scanDecimal
    simp only [htake, hdrop, hrest, cons_append, hfraction]
  · have hundotted : ∀ behind, cs.dropWhile isDigit = '.' :: behind → False :=
      fun behind h => hdot ⟨behind, h⟩
    have hundotted' : ∀ behind, cs.dropWhile isDigit ++ '\n' :: tail = '.' :: behind → False :=
      fun _ h => hdot (starts_of_line (by decide) h)
    rw [scanDecimal_undotted rfl rfl hundotted, scanDecimal_undotted htake hdrop hundotted',
      durationSuffix_line, runsOn_line]

theorem scanNumber_of_ne_zero (hc : c ≠ '0') (rest : List Char) :
    scanNumber p (c :: rest) = scanDecimal p (c :: rest) := by
  unfold scanNumber
  split
  · rename_i heq
    exact absurd (List.cons.inj heq).1 hc
  · rfl

theorem scanNumber_line (p : Pos) (cs : List Char) :
    scanNumber p (cs ++ '\n' :: tail) = scanNumber p cs := by
  cases cs with
  | nil => exact scanDecimal_line p []
  | cons c rest =>
    by_cases hc : c = '0'
    · subst hc
      cases rest with
      | nil => exact scanDecimal_line p ['0']
      | cons b rest =>
        have hhex : (rest ++ '\n' :: tail).takeWhile isHexDigit = rest.takeWhile isHexDigit :=
          takeWhile_line (by decide) rest
        have hbinary : (rest ++ '\n' :: tail).takeWhile isBinaryDigit
            = rest.takeWhile isBinaryDigit :=
          takeWhile_line (by decide) rest
        have hdecimal : scanDecimal p ('0' :: b :: (rest ++ '\n' :: tail))
            = scanDecimal p ('0' :: b :: rest) :=
          scanDecimal_line p ('0' :: b :: rest)
        simp only [cons_append, scanNumber, hhex, hbinary, hdecimal]
    · rw [cons_append, scanNumber_of_ne_zero hc, scanNumber_of_ne_zero hc]
      exact scanDecimal_line p (c :: rest)

-- ==== strings

theorem scanString_line (h : scanString p cs = .ok piece) :
    scanString p (cs ++ '\n' :: tail) = .ok piece := by
  rw [← h]
  cases stringForm cs with
  | closed hbody =>
    obtain ⟨value, hvalue⟩ := Option.isSome_iff_exists.mp hbody
    rw [append_assoc, cons_append, scanString_closed hvalue, scanString_closed hvalue]
  | @toLine body behind hbody hbehind =>
    obtain ⟨value, hvalue⟩ := Option.isSome_iff_exists.mp hbody
    have hhead : ∀ c ∈ (behind ++ '\n' :: tail).head?, c = '\n' := by
      cases behind with
      | nil => simp
      | cons c behind => exact hbehind
    rw [append_assoc, scanString_toLine hvalue hhead, scanString_toLine hvalue hbehind]
  | dangling hbody =>
    obtain ⟨value, hvalue⟩ := Option.isSome_iff_exists.mp hbody
    rw [scanString_dangling hvalue] at h
    cases h

-- ==== pieces

theorem operatorOfPair_line (c : Char) : operatorOfPair c '\n' = none := by
  unfold operatorOfPair
  split <;> simp_all

theorem scanOperator_line (p : Pos) (c : Char) (rest : List Char) :
    scanOperator p c (rest ++ '\n' :: tail) = scanOperator p c rest := by
  cases rest with
  | nil =>
    unfold scanOperator
    simp only [nil_append, head?_cons, Option.bind_some, operatorOfPair_line,
      head?_nil, Option.bind_none]
  | cons b rest => rfl

theorem scanPiece_line (hscan : scanPiece p c rest = .ok piece) (herr : piece.errors = [])
    (hshort : startsTrivia (c :: rest) = true → piece.width < (c :: rest).length) :
    scanPiece p c (rest ++ '\n' :: tail) = .ok piece := by
  unfold scanPiece at hscan ⊢
  rw [startsTrivia_line]
  by_cases htrivia : startsTrivia (c :: rest) = true
  · rw [if_pos htrivia] at hscan ⊢
    cases hscan
    exact congrArg Except.ok (scanTrivia_line herr (hshort htrivia))
  rw [if_neg htrivia] at hscan ⊢
  split at hscan
  · rename_i hword
    rw [if_pos hword]
    cases hscan
    exact congrArg Except.ok (scanWord_line herr)
  · rename_i hword
    rw [if_neg hword]
    split at hscan
    · rename_i hdigit
      rw [if_pos hdigit]
      cases hscan
      exact congrArg Except.ok (scanNumber_line p (c :: rest))
    · rename_i hdigit
      rw [if_neg hdigit]
      split at hscan
      · rename_i hquote
        rw [if_pos hquote]
        exact scanString_line hscan
      · rename_i hquote
        rw [if_neg hquote]
        cases hscan
        exact congrArg Except.ok (scanOperator_line p c rest)

-- ==== whole scans

/-- A scan with tokens and findings in front. -/
def Scanned.prepend (ts : List Token) (es : List ScanError) (scanned : Scanned) : Scanned :=
  { tokens := ts ++ scanned.tokens, errors := es ++ scanned.errors }

theorem Scanned.prepend_nil (scan : Except ScanFault Scanned) :
    scan.map (Scanned.prepend [] []) = scan := by
  cases scan <;> rfl

theorem Scanned.prepend_append (ts ts' : List Token) (scan : Except ScanFault Scanned) :
    (scan.map (Scanned.prepend ts' [])).map (Scanned.prepend ts [])
      = scan.map (Scanned.prepend (ts ++ ts') []) := by
  cases scan with
  | error fault => rfl
  | ok scanned =>
    simp only [Except.map, Scanned.prepend, append_assoc, nil_append]

theorem scanFrom_piece (h : scanPiece p c rest = .ok piece) :
    scanFrom 0 p (c :: rest) = (scanFrom (piece.width - 1) piece.next rest).map
      (Scanned.prepend piece.tokens piece.errors) := by
  rw [scanFrom, h]
  cases hbehind : scanFrom (piece.width - 1) piece.next rest with
  | error fault => simp only [bind, Except.bind, Except.map, hbehind]
  | ok behind =>
    simp only [bind, Except.bind, Except.map, hbehind, pure, Except.pure, Scanned.prepend]

theorem scanFrom_trivia (p : Pos) (cs : List Char) :
    scanFrom 0 p cs = (scanFrom 0 (scanTrivia .gap p cs).next
      (cs.drop (scanTrivia .gap p cs).width)).map
        (Scanned.prepend [] (scanTrivia .gap p cs).errors) := by
  by_cases htrivia : startsTrivia cs = true
  · cases cs with
    | nil => cases htrivia
    | cons c rest =>
      have hpiece : scanPiece p c rest = .ok (scanTrivia .gap p (c :: rest)) := if_pos htrivia
      have htokens : (scanTrivia .gap p (c :: rest)).tokens = [] := by
        obtain ⟨front, behind, issues, -, -, hscan⟩ := scanTrivia_covers (c :: rest)
        rw [hscan]
        rfl
      obtain ⟨n, hn⟩ := Nat.exists_eq_add_of_lt (scanTrivia_width_pos p htrivia)
      rw [scanFrom_piece hpiece, htokens, scanFrom_skip, hn]
      simp only [Nat.zero_add, Nat.add_sub_cancel, drop_succ_cons]
  · rw [scanTrivia_gap (Bool.eq_false_iff.mpr htrivia)]
    exact (Scanned.prepend_nil _).symm

/-- A gap in front of a text changes nothing but the place. -/
theorem scanFrom_gap (hg : Gap false g) (p : Pos) (cs : List Char) :
    scanFrom 0 p (g ++ cs) = scanFrom 0 (p.over g) cs := by
  rw [scanFrom_trivia p, hg.skip, scanFrom_trivia _ cs, Piece.widen, Nat.add_comm,
    drop_length_add_append]

theorem scanFrom_line (skip : Nat) (hskip : skip ≤ cs.length)
    (h : scanFrom skip p cs = .ok scanned) (herr : scanned.errors = []) :
    ∃ ts stop, scanned.tokens = ts ++ [stop]
      ∧ ∀ tail, scanFrom skip p (cs ++ '\n' :: tail)
        = (scanFrom 0 stop.pos.nextLine tail).map (Scanned.prepend ts []) := by
  induction cs generalizing skip p scanned with
  | nil =>
    cases Nat.le_zero.mp hskip
    cases h
    refine ⟨[], ⟨.eof, "", p⟩, rfl, fun tail => ?_⟩
    rw [Scanned.prepend_nil]
    exact scanFrom_gap (.blank (by decide) .nil) p tail
  | cons c rest ih =>
    cases skip with
    | succ skip =>
      exact ih skip (Nat.le_of_succ_le_succ hskip) h herr
    | zero =>
      obtain ⟨piece, behind, hpiece, hbehind, rfl⟩ := scanFrom_cons h
      obtain ⟨herr₁, herr₂⟩ := append_eq_nil_iff.mp herr
      obtain ⟨front, rest', hcs, hne, hwidth, -⟩ := scanPiece_lays hpiece herr₁
      have hlength : piece.width - 1 ≤ rest.length := by
        have hall := congrArg List.length hcs
        rw [length_cons, length_append] at hall
        omega
      by_cases hend : startsTrivia (c :: rest) = true ∧ (c :: rest).length ≤ piece.width
      · -- blanks and comments up to the end of the first text
        obtain ⟨htrivia, hall⟩ := hend
        obtain ⟨g, behind', issues, hcover, hform, hscan⟩ := scanTrivia_covers (c :: rest)
        obtain rfl : piece = Unplaced.place { issues, soft := g } p :=
          (Except.ok.inj ((if_pos htrivia).symm.trans hpiece)).symm.trans (hscan p)
        obtain ⟨rfl, -, atEnd, hg, -⟩ := hform.resolve_right fun h => h.1 (map_eq_nil_iff.mp herr₁)
        have hnil : behind' = [] := by
          have hlengths := congrArg List.length hcover
          rw [length_append] at hlengths
          have hall : (c :: rest).length ≤ g.length := hall
          exact length_eq_zero_iff.mp (by omega)
        rw [hnil, append_nil] at hcover
        have hdrop : rest.drop (g.length - 1) = [] := by
          rw [← hcover]
          exact drop_length
        rw [scanFrom_skip] at hbehind
        cases (congrArg (scanFrom 0 _) hdrop).symm.trans hbehind
        refine ⟨[], ⟨.eof, "", p.over g⟩, rfl, fun tail => ?_⟩
        have hgap := scanFrom_gap hg.break p tail
        rw [append_assoc, Pos.over_append] at hgap
        rw [Scanned.prepend_nil, hcover]
        exact hgap
      · have hshort (h : startsTrivia (c :: rest) = true) : piece.width < (c :: rest).length :=
          Nat.lt_of_not_le fun hall => hend ⟨h, hall⟩
        obtain ⟨ts, stop, htokens, hbehind'⟩ := ih _ hlength hbehind herr₂
        refine ⟨piece.tokens ++ ts, stop, ?_, fun tail => ?_⟩
        · rw [htokens, append_assoc]
        · rw [cons_append, scanFrom_piece (scanPiece_line hpiece herr₁ hshort), hbehind',
            herr₁, Scanned.prepend_append]

theorem Token.scan_append (h : Token.scan a = .ok { tokens := ts ++ [stop], errors := [] })
    (b : String) :
    Token.scan (a ++ "\n" ++ b)
      = (Token.scan b).map fun s => (s.down stop.pos.line).prepend ts [] := by
  obtain ⟨ts', stop', htokens, hjoin⟩ := scanFrom_line 0 (Nat.zero_le _) h rfl
  obtain ⟨rfl, hstop⟩ := append_inj' htokens rfl
  obtain rfl : stop = stop' := (List.cons.inj hstop).1
  have htext : (a ++ "\n" ++ b).toList = a.toList ++ '\n' :: b.toList := by
    rw [String.toList_append, String.toList_append, append_assoc]
    rfl
  have hstart : stop.pos.nextLine = ({} : Pos).down stop.pos.line := by
    unfold Pos.nextLine Pos.down
    rw [Nat.add_comm]
  unfold Token.scan
  rw [htext, hjoin, hstart, scanFrom_down]
  cases scanFrom 0 {} b.toList <;> rfl

end SketchCompiler
