/-
How tokens are spelled.  A scan without findings yields tokens of a
known shape: names and keywords are runs of word characters, numbers
follow one of five forms, operators are those of the two tables, and the
payload of a raw block is a text whose braces, literals and comments
close before the brace behind it.  `Spelled` states the shapes, and
`Token.scan_spelled` says that a clean scan yields nothing else.

What a step reads has one of five forms (`PieceForm`).  The one text that
is not read is a string literal that ends in an escaping backslash
(`pieceRead`).
-/
import SketchCompiler.Proofs.RawCode

namespace SketchCompiler

open Text

open List hiding head tail span

variable {rest cs : List Char} {c : Char} {p : Pos}

-- ==== shapes

/-- The units of a duration. -/
def durationUnits : List (List Char) :=
  [['m', 's'], ['u', 's'], ['s']]

/-- The lexemes that tokens of a kind can have.  The end marker has
none. -/
inductive Spelled : Kind → List Char → Prop where
  | word {k : Kind} {c : Char} {cs : List Char} (hc : isWordStart c = true)
      (hcs : ∀ x ∈ cs, isWordChar x = true) (hk : kindOfWord (String.ofList (c :: cs)) = k) :
      Spelled k (c :: cs)
  | hexadecimal {mark : Char} {ds : List Char} (hm : mark = 'x' ∨ mark = 'X') (hne : ds ≠ [])
      (hds : ∀ d ∈ ds, isHexDigit d = true) : Spelled .int ('0' :: mark :: ds)
  | binary {mark : Char} {ds : List Char} (hm : mark = 'b' ∨ mark = 'B') (hne : ds ≠ [])
      (hds : ∀ d ∈ ds, isBinaryDigit d = true) : Spelled .int ('0' :: mark :: ds)
  | decimal {ds : List Char} (hne : ds ≠ []) (hds : ∀ d ∈ ds, isDigit d = true) :
      Spelled .int ds
  | fraction {whole part : List Char} (hw : whole ≠ []) (hws : ∀ d ∈ whole, isDigit d = true)
      (hp : part ≠ []) (hps : ∀ d ∈ part, isDigit d = true) :
      Spelled .float (whole ++ '.' :: part)
  | duration {ds unit : List Char} (hne : ds ≠ []) (hds : ∀ d ∈ ds, isDigit d = true)
      (hu : unit ∈ durationUnits) : Spelled .duration (ds ++ unit)
  | text (cs : List Char) : Spelled .string cs
  | raw {cs : List Char} (h : ClosesRaw .code 0 cs) : Spelled .rawBlock cs
  | pair {a b : Char} {k : Kind} (h : operatorOfPair a b = some k) : Spelled k [a, b]
  | single {a : Char} {k : Kind} (h : operatorOfChar a = some k) : Spelled k [a]

/-- The lexeme of a token is one its kind can have. -/
def Token.IsSpelled (t : Token) : Prop :=
  Spelled t.kind t.lexeme.toList

-- ==== kinds

/-- The kind is that of an identifier or of a keyword. -/
def Kind.isWord (k : Kind) : Bool :=
  k == .ident || keywords.any (·.2 == k)

/-- The kinds of tokens that are neither words nor operators. -/
def valueKinds : List Kind :=
  [.int, .float, .duration, .string, .rawBlock]

theorem mem_of_lookup {α β : Type} [BEq α] [LawfulBEq α] {entries : List (α × β)} {key : α}
    {value : β} (h : entries.lookup key = some value) : (key, value) ∈ entries := by
  obtain ⟨l₁, l₂, rfl, -⟩ := lookup_eq_some_iff.mp h
  exact mem_append_right _ mem_cons_self

theorem kindOfWord_cases (word : String) :
    kindOfWord word = .ident ∨ (word, kindOfWord word) ∈ keywords := by
  unfold kindOfWord
  cases hlookup : keywords.lookup word with
  | none => exact .inl rfl
  | some k => exact .inr (mem_of_lookup hlookup)

theorem kindOfWord_ne {k : Kind} {word : String} (hident : Kind.ident ≠ k)
    (hkey : ∀ entry ∈ keywords, entry.2 ≠ k) : kindOfWord word ≠ k := by
  rcases kindOfWord_cases word with h | h
  · rwa [h]
  · exact hkey _ h

theorem isWord_kindOfWord (word : String) : (kindOfWord word).isWord = true := by
  unfold Kind.isWord
  rcases kindOfWord_cases word with hident | hmem
  · rw [hident]
    rfl
  · have hany : keywords.any (·.2 == kindOfWord word) = true :=
      any_eq_true.mpr ⟨_, hmem, beq_self_eq_true _⟩
    rw [hany, Bool.or_true]

theorem eq_of_kindOfWord_kwUnsafe (h : kindOfWord word = .kwUnsafe) : word = "unsafe" := by
  have honly : ∀ entry ∈ keywords, entry.2 = .kwUnsafe → entry.1 = "unsafe" := by decide
  rcases kindOfWord_cases word with hident | hmem
  · exact absurd (hident.symm.trans h) (by decide)
  · exact honly _ hmem h

theorem operatorOfChar_kind (h : operatorOfChar a = some k) :
    k.isWord = false ∧ k ∉ .eof :: valueKinds := by
  unfold operatorOfChar at h
  split at h
  all_goals cases h
  all_goals decide

theorem operatorOfPair_kind (h : operatorOfPair a b = some k) :
    (k.isWord = false ∧ k ∉ .eof :: valueKinds) ∧ '\n' ∉ [a, b] := by
  unfold operatorOfPair at h
  split at h
  all_goals cases h
  all_goals decide

-- ==== lexemes

/-- The lexeme is one its kind can have, unless something is reported of
it.  No identifier, keyword or operator ends where it could go on. -/
structure IsLexeme (k : Kind) (lexeme behind : List Char) (errors : List ScanIssue) : Prop where
  ne_nil : lexeme ≠ []
  oneLine : '\n' ∉ lexeme
  plain : k ≠ .string ∧ k ≠ .rawBlock ∧ k ≠ .kwUnsafe ∧ k ≠ .eof
  spelled : errors = [] → Spelled k lexeme
  word : k.isWord = true → ∀ c ∈ behind.head?, isWordChar c = false
  operator : ∀ a, lexeme = [a] → operatorOfChar a = some k →
    ∀ c ∈ behind.head?, operatorOfPair a c = none

/-- The reader takes one lexeme from the start of the text, wherever that
stands. -/
inductive ReadsLexeme (scan : Pos → Piece) (cs : List Char) : Prop where
  | intro {k : Kind} {lexeme behind : List Char} {errors : List ScanIssue}
      (hcs : cs = lexeme ++ behind) (hlexeme : IsLexeme k lexeme behind errors)
      (hscan : ∀ p, scan p = .ofLexeme k p lexeme errors) : ReadsLexeme scan cs

theorem not_mem_takeWhile (hf : f '\n' = false) (cs : List Char) : '\n' ∉ cs.takeWhile f := by
  intro hmem
  have hbreak := mem_takeWhile_imp hmem
  rw [hf] at hbreak
  cases hbreak

theorem takeWhile_ne_nil (h : f c = true) (cs : List Char) : (c :: cs).takeWhile f ≠ [] := by
  rw [takeWhile_cons_of_pos h]
  exact cons_ne_nil _ _

theorem takeWhile_run (hcs : ∀ x ∈ cs, f x = true) (ht : ∀ x ∈ rest.head?, f x = false) :
    (cs ++ rest).takeWhile f = cs := by
  rw [takeWhile_append_of_pos hcs]
  cases rest with
  | nil => rw [takeWhile_nil, append_nil]
  | cons x rest =>
    have hx : f x = false := ht x rfl
    rw [takeWhile_cons_of_neg (by rw [hx]; exact Bool.false_ne_true), append_nil]

theorem isWordChar_of_isWordStart (h : isWordStart c = true) : isWordChar c = true := by
  unfold isWordStart at h
  unfold isWordChar isAlphanumeric
  simp only [Bool.or_eq_true] at h ⊢
  rcases h with h | h
  · exact .inl (.inl (.inl h))
  · exact .inr h

theorem head?_dropWhile_eq_false (f : Char → Bool) (cs : List Char) :
    ∀ c ∈ (cs.dropWhile f).head?, f c = false := by
  intro c hc
  have hnot := head?_dropWhile_not f cs
  rw [Option.mem_def.mp hc] at hnot
  simpa using hnot

theorem isLexeme_word (hc : isWordStart c = true) (rest : List Char)
    (hk : kindOfWord (String.ofList ((c :: rest).takeWhile isWordChar)) ≠ .kwUnsafe) :
    IsLexeme (kindOfWord (String.ofList ((c :: rest).takeWhile isWordChar)))
      ((c :: rest).takeWhile isWordChar) ((c :: rest).dropWhile isWordChar) [] where
  ne_nil := takeWhile_ne_nil (isWordChar_of_isWordStart hc) rest
  oneLine := not_mem_takeWhile (by decide) _
  plain := ⟨kindOfWord_ne (by decide) (by decide), kindOfWord_ne (by decide) (by decide), hk,
    kindOfWord_ne (by decide) (by decide)⟩
  spelled _ := by
    rw [takeWhile_cons_of_pos (isWordChar_of_isWordStart hc)]
    exact .word hc (fun x hx => mem_takeWhile_imp hx) rfl
  word _ := head?_dropWhile_eq_false isWordChar _
  operator a _ hop := by
    have hword := (operatorOfChar_kind hop).1
    rw [isWord_kindOfWord] at hword
    cases hword

theorem isLexeme_number (hk : k ∈ [Kind.int, .float, .duration]) (hne : lexeme ≠ [])
    (hline : '\n' ∉ lexeme) (hspelled : errors = [] → Spelled k lexeme) (behind : List Char) :
    IsLexeme k lexeme behind errors := by
  have hkinds : ∀ k ∈ [Kind.int, .float, .duration], k ∈ valueKinds ∧ k.isWord = false
      ∧ k ≠ .string ∧ k ≠ .rawBlock ∧ k ≠ .kwUnsafe ∧ k ≠ .eof := by decide
  obtain ⟨hvalue, hword, hplain⟩ := hkinds k hk
  refine ⟨hne, hline, hplain, hspelled, ?_, ?_⟩
  · intro hword'
    rw [hword] at hword'
    cases hword'
  · intro a _ hop
    exact absurd (mem_cons_of_mem _ hvalue) (operatorOfChar_kind hop).2

theorem isLexeme_operator (hk : k.isWord = false ∧ k ∉ .eof :: valueKinds)
    (hspelled : Spelled k lexeme) (hne : lexeme ≠ []) (hline : '\n' ∉ lexeme)
    (hoperator : ∀ a, lexeme = [a] → ∀ c ∈ behind.head?, operatorOfPair a c = none) :
    IsLexeme k lexeme behind [] := by
  obtain ⟨hword, hvalue⟩ := hk
  refine ⟨hne, hline, ⟨?_, ?_, ?_, ?_⟩, fun _ => hspelled, ?_, fun a ha _ => hoperator a ha⟩
  · rintro rfl
    exact hvalue (by decide)
  · rintro rfl
    exact hvalue (by decide)
  · rintro rfl
    exact absurd hword (by decide)
  · rintro rfl
    exact hvalue (by decide)
  · intro hword'
    rw [hword] at hword'
    cases hword'

theorem durationSuffix_append (cs : List Char) : ∃ behind, cs = durationSuffix cs ++ behind := by
  unfold durationSuffix
  split
  all_goals exact ⟨_, rfl⟩

theorem durationSuffix_mem (h : (durationSuffix cs).isEmpty ≠ true) :
    durationSuffix cs ∈ durationUnits := by
  unfold durationSuffix at h ⊢
  split at h
  · decide
  · decide
  · decide
  · exact absurd rfl h

theorem scanDecimal_reads (hc : isDigit c = true) (rest : List Char) :
    ReadsLexeme (scanDecimal · (c :: rest)) (c :: rest) := by
  have hsplit : c :: rest = (c :: rest).takeWhile isDigit ++ (c :: rest).dropWhile isDigit :=
    takeWhile_append_dropWhile.symm
  have hne := takeWhile_ne_nil hc rest
  have hline := not_mem_takeWhile (by decide : isDigit '\n' = false) (c :: rest)
  have hall : ∀ d ∈ (c :: rest).takeWhile isDigit, isDigit d = true :=
    fun d hd => mem_takeWhile_imp hd
  have hwhole := isLexeme_number (by decide : Kind.int ∈ _) hne hline
    (fun _ : ([] : List ScanIssue) = [] => .decimal hne hall) ((c :: rest).dropWhile isDigit)
  unfold scanDecimal
  dsimp only
  split
  · rename_i behind hbehind
    split
    · exact ⟨hsplit, hwhole, fun _ => rfl⟩
    · rename_i hpart
      have hpart : behind.takeWhile isDigit ≠ [] := fun h => hpart (h ▸ rfl)
      refine ⟨?_, isLexeme_number (by decide) (append_ne_nil_of_left_ne_nil hne _) ?_
        (fun _ => .fraction hne hall hpart fun d hd => mem_takeWhile_imp hd)
        (behind.dropWhile isDigit), fun _ => rfl⟩
      · rw [append_assoc, cons_append, takeWhile_append_dropWhile, ← hbehind,
          ← hsplit]
      · rw [mem_append, mem_cons, not_or, not_or]
        exact ⟨hline, by decide, not_mem_takeWhile (by decide) behind⟩
  · split
    · exact ⟨hsplit, hwhole, fun _ => rfl⟩
    · rename_i hsuffix
      have hunit := durationSuffix_mem hsuffix
      have hunits : ∀ unit ∈ durationUnits, '\n' ∉ unit := by decide
      obtain ⟨behind, hbehind⟩ := durationSuffix_append ((c :: rest).dropWhile isDigit)
      refine ⟨?_, isLexeme_number (by decide) (append_ne_nil_of_left_ne_nil hne _) ?_
        (fun _ => .duration hne hall hunit) behind, fun _ => rfl⟩
      · rw [append_assoc, ← hbehind, ← hsplit]
      · rw [mem_append, not_or]
        exact ⟨hline, hunits _ hunit⟩

theorem scanNumber_reads (hc : isDigit c = true) (rest : List Char) :
    ReadsLexeme (scanNumber · (c :: rest)) (c :: rest) := by
  have hbased {mark : Char} (hmark : mark ≠ '\n') {f : Char → Bool} (hf : f '\n' = false)
      {digits : List Char} {issue : ScanIssue}
      (hspelled : digits.takeWhile f ≠ [] → Spelled .int ('0' :: mark :: digits.takeWhile f)) :
      ReadsLexeme (.ofLexeme .int · ('0' :: mark :: digits.takeWhile f)
        (if (digits.takeWhile f).isEmpty then [issue] else [])) ('0' :: mark :: digits) := by
    refine ⟨?_, isLexeme_number (by decide) (cons_ne_nil _ _) ?_ ?_ (digits.dropWhile f),
      fun _ => rfl⟩
    · rw [cons_append, cons_append, takeWhile_append_dropWhile]
    · rw [mem_cons, mem_cons, not_or, not_or]
      exact ⟨by decide, hmark.symm, not_mem_takeWhile hf digits⟩
    · intro herr
      refine hspelled fun hnil => ?_
      rw [hnil] at herr
      cases herr
  unfold scanNumber
  split
  · rename_i mark digits heq
    rw [heq]
    split
    · rename_i hm
      exact hbased (by rcases hm with rfl | rfl <;> decide) (by decide) fun hne =>
        .hexadecimal hm hne fun d hd => mem_takeWhile_imp hd
    · split
      · rename_i hm
        exact hbased (by rcases hm with rfl | rfl <;> decide) (by decide) fun hne =>
          .binary hm hne fun d hd => mem_takeWhile_imp hd
      · rw [← heq]
        exact scanDecimal_reads hc rest
  · exact scanDecimal_reads hc rest

theorem scanOperator_reads (hc : c ≠ '\n') (rest : List Char) :
    ReadsLexeme (scanOperator · c rest) (c :: rest)
      ∨ ∀ p, scanOperator p c rest
        = { errors := [⟨.unexpectedCharacter c, p⟩], width := 1, next := p.right 1 } := by
  unfold scanOperator
  split
  · rename_i k hk
    obtain ⟨b, hb, hop⟩ := Option.bind_eq_some_iff.mp hk
    obtain ⟨behind, rfl⟩ := head?_eq_some_iff.mp hb
    obtain ⟨hkind, hline⟩ := operatorOfPair_kind hop
    exact .inl ⟨rfl, isLexeme_operator hkind (.pair hop) (cons_ne_nil _ _)
      hline nofun, fun _ => rfl⟩
  · rename_i hnone
    split
    · rename_i k hop
      refine .inl ⟨rfl, isLexeme_operator (operatorOfChar_kind hop) (.single hop)
        (cons_ne_nil _ _) ?_ ?_, fun _ => rfl⟩
      · rw [mem_singleton]
        exact hc.symm
      · rintro a ha d hd
        cases ha
        rw [Option.mem_def.mp hd] at hnone
        exact hnone
    · exact .inr fun _ => rfl

-- ==== pieces

/-- What a word covers, `unsafe` with its raw block. -/
def softenWord (cs : List Char) : List Char :=
  let word := cs.takeWhile isWordChar
  if kindOfWord (String.ofList word) = .kwUnsafe then
    word ++ softenRawBlock (cs.drop word.length)
  else word

/-- What the piece at the start of a text covers. -/
def softenPiece (c : Char) (rest : List Char) : List Char :=
  if startsTrivia (c :: rest) then (c :: rest).take (scanTrivia .gap {} (c :: rest)).width
  else if isWordStart c then softenWord (c :: rest)
  else if isDigit c then (c :: rest).take (scanNumber {} (c :: rest)).width
  else if c = '"' then '"' :: softenString rest
  else (c :: rest).take (scanOperator {} c rest).width

/-- The keyword in front of a raw block. -/
def unsafeWord : Word :=
  ⟨.kwUnsafe, "unsafe"⟩

/-- What a step of the scan reads: a gap, one lexeme, the word `unsafe`
with its raw block, a string literal, or something that is reported. -/
inductive PieceForm (cs : List Char) : Unplaced → Prop where
  | gap {atEnd : Bool} {g behind : List Char} (hcs : cs = g ++ behind) (hg : Gap atEnd g)
      (hend : atEnd = true → behind = []) : PieceForm cs { soft := g }
  | lexeme {k : Kind} {lexeme behind : List Char} {errors : List ScanIssue}
      (hcs : cs = lexeme ++ behind) (hlexeme : IsLexeme k lexeme behind errors) :
      PieceForm cs { words := [(0, ⟨k, String.ofList lexeme⟩)], issues := errors.map ((0, ·))
                     soft := lexeme }
  | rawBlock {g payload behind soft : List Char}
      (hcs : cs = "unsafe".toList ++ (g ++ '{' :: (payload ++ '}' :: behind))) (hg : Gap false g)
      (hpayload : Payload payload)
      (hlength : soft.length = g.length + (payload.length + 2) + 6) :
      PieceForm cs { words := [(0, unsafeWord), (g.length + 6, ⟨.rawBlock, String.ofList payload⟩)]
                     soft }
  | string {body value behind soft : List Char} (hcs : cs = '"' :: (body ++ '"' :: behind))
      (hvalue : decodeEscapes body = some value) (hlength : soft.length = body.length + 2) :
      PieceForm cs { words := [(0, ⟨.string, String.ofList value⟩)], soft }
  | reported {words : List (Nat × Word)} {issues : List (Nat × ScanIssue)} {soft : List Char}
      (hne : issues ≠ [])
      (hwords : words = [] ∨ words = [(0, unsafeWord)] ∧ "unsafe".toList <+: cs) :
      PieceForm cs { words, issues, soft }

/-- The piece at the start of the text, wherever that stands. -/
structure PieceRead (c : Char) (rest : List Char) (u : Unplaced) : Prop where
  form : PieceForm (c :: rest) u
  soft : u.soft = softenPiece c rest
  softens : Softens u.soft (c :: rest)
  ne_nil : u.soft ≠ []
  scan : ∀ p, scanPiece p c rest = .ok (u.place p)

theorem ReadsLexeme.pieceRead {scan : Pos → Piece} (h : ReadsLexeme scan (c :: rest))
    (hsoft : softenPiece c rest = (c :: rest).take (scan {}).width)
    (hpiece : ∀ p, scanPiece p c rest = .ok (scan p)) : ∃ u, PieceRead c rest u := by
  obtain ⟨hcs, hlexeme, hscan⟩ := h
  refine ⟨_, .lexeme hcs hlexeme, ?_, hcs ▸ .start _ _, hlexeme.ne_nil, fun p => ?_⟩
  · rw [hsoft, hscan, hcs]
    exact (take_left).symm
  · rw [hpiece, hscan, Unplaced.place, p.over_plain hlexeme.oneLine, map_map]
    rfl

theorem pieceRead_trivia (h : startsTrivia (c :: rest) = true) : ∃ u, PieceRead c rest u := by
  obtain ⟨front, behind, issues, hcs, hform, hscan⟩ := scanTrivia_covers (c :: rest)
  have hsoft : softenPiece c rest = front := by
    rw [softenPiece, if_pos h, hscan, hcs]
    exact take_left
  refine ⟨{ issues, soft := front }, ?_, hsoft.symm, hcs ▸ .start _ _, ?_, fun p => ?_⟩
  · rcases hform with ⟨rfl, -, atEnd, hg, hend⟩ | ⟨hne, -⟩
    · exact .gap hcs hg hend
    · exact .reported hne (.inl rfl)
  · rintro rfl
    have hpos := scanTrivia_width_pos {} h
    rw [hscan] at hpos
    exact absurd hpos (Nat.lt_irrefl 0)
  · rw [scanPiece, if_pos h, hscan]

/-- What is read, with the word `unsafe` in front. -/
def Unplaced.behindUnsafe (u : Unplaced) : Unplaced :=
  { words := (0, unsafeWord) :: u.words.map fun w => (w.1 + 6, w.2)
    issues := u.issues.map fun i => (i.1 + 6, i.2)
    soft := "unsafe".toList ++ u.soft }

theorem Unplaced.place_behindUnsafe (u : Unplaced) (p : Pos) :
    u.behindUnsafe.place p = { u.place (p.right 6) with
      tokens := ⟨.kwUnsafe, "unsafe", p⟩ :: (u.place (p.right 6)).tokens
      width := u.soft.length + 6 } := by
  simp only [Unplaced.place, Unplaced.behindUnsafe, map_cons, map_map]
  rfl

/-- The word `unsafe` takes its raw block with it. -/
theorem scanPiece_raw (hcs : c :: rest = "unsafe".toList ++ behind)
    (hend : ∀ c ∈ behind.head?, isWordChar c = false) :
    softenPiece c rest = "unsafe".toList ++ softenRawBlock behind
      ∧ ∀ {u : Unplaced}, (∀ p, scanRawBlock p behind = u.place p) →
        ∀ p, scanPiece p c rest = .ok (u.behindUnsafe.place p) := by
  obtain ⟨rfl, rfl⟩ := List.cons.inj hcs
  have hword : ("unsafe".toList ++ behind).takeWhile isWordChar = "unsafe".toList :=
    takeWhile_run (all_eq_true.mp (by decide)) hend
  have hdrop : ("unsafe".toList ++ behind).drop "unsafe".toList.length = behind := drop_left
  have hkind : kindOfWord "unsafe" = .kwUnsafe := by decide
  constructor
  · show softenWord ("unsafe".toList ++ behind) = _
    simp only [softenWord, hword, hdrop, String.ofList_toList, hkind, if_true]
  · intro u hu p
    show Except.ok (scanWord p ("unsafe".toList ++ behind)) = _
    rw [u.place_behindUnsafe]
    simp only [scanWord, hword, hdrop, String.ofList_toList, hkind, if_true, hu]
    rfl

theorem Gap.head (h : Gap atEnd g) : ∀ c ∈ (g ++ '{' :: rest).head?, isWordChar c = false := by
  intro c hc
  cases h with
  | blank hblank =>
    have hall : [' ', '\t', '\r', '\n'].all (!isWordChar ·) = true := by decide
    cases hc
    exact Bool.not_eq_true' _ ▸ all_eq_true.mp hall c hblank
  | _ =>
    cases hc
    decide

theorem scanPiece_rawBlock (hg : Gap false g) (hpayload : Payload payload) (p : Pos)
    (rest : List Char) : ∃ q next,
      scanPiece p 'u' ("nsafe".toList ++ (g ++ '{' :: (payload ++ '}' :: rest))) = .ok
        { tokens := [⟨.kwUnsafe, "unsafe", p⟩, ⟨.rawBlock, String.ofList payload, q⟩]
          width := ("unsafe".toList ++ (g ++ '{' :: (payload ++ ['}']))).length, next } := by
  obtain ⟨soft, hlength, hread⟩ := scanRawBlock_payload hg hpayload
  have hcs (cs : List Char) : 'u' :: ("nsafe".toList ++ cs) = "unsafe".toList ++ cs := rfl
  have hscan := (scanPiece_raw (hcs _) hg.head).2 (hread rest).2 p
  have hwidth : ("unsafe".toList ++ (g ++ '{' :: (payload ++ ['}']))).length
      = (g ++ '{' :: soft).length + 6 := by
    simp only [length_append, length_cons, length_nil, hlength]
    exact Nat.add_comm ..
  rw [Unplaced.place_behindUnsafe] at hscan
  rw [hwidth]
  exact ⟨_, _, hscan⟩

theorem pieceRead_unsafe (hcs : c :: rest = "unsafe".toList ++ behind)
    (hend : ∀ c ∈ behind.head?, isWordChar c = false) : ∃ u, PieceRead c rest u := by
  obtain ⟨hsoft, hblock⟩ := scanPiece_raw hcs hend
  obtain ⟨hsoftens, hform⟩ := rawBlockForm behind
  have hall : Softens (softenPiece c rest) (c :: rest) := by
    rw [hsoft, hcs]
    exact hsoftens.prepend _
  cases hform with
  | @closed g payload behind hbehind hg hpayload =>
    obtain ⟨soft, hlength, hread⟩ := scanRawBlock_payload hg hpayload
    subst hbehind
    obtain ⟨hsoftBlock, hread⟩ := hread behind
    rw [hsoftBlock] at hsoft
    refine ⟨_, .rawBlock hcs hg hpayload ?_, hsoft.symm, hsoft ▸ hall, cons_ne_nil _ _,
      hblock hread⟩
    show ("unsafe".toList ++ (g ++ '{' :: soft)).length = _
    rw [length_append, length_append, length_cons, hlength, Nat.add_comm]
    rfl
  | rejected hne hread =>
    exact ⟨_, .reported (mt map_eq_nil_iff.mp hne) (.inr ⟨rfl, hcs ▸ prefix_append _ _⟩),
      hsoft.symm, hsoft ▸ hall, cons_ne_nil _ _, hblock hread⟩

theorem pieceRead_word (htrivia : ¬ startsTrivia (c :: rest) = true)
    (hword : isWordStart c = true) :
    ∃ u, PieceRead c rest u := by
  have hsplit : c :: rest = (c :: rest).takeWhile isWordChar ++ (c :: rest).dropWhile isWordChar :=
    takeWhile_append_dropWhile.symm
  by_cases hk : kindOfWord (String.ofList ((c :: rest).takeWhile isWordChar)) = .kwUnsafe
  · have htext : (c :: rest).takeWhile isWordChar = "unsafe".toList := by
      rw [← eq_of_kindOfWord_kwUnsafe hk, String.toList_ofList]
    rw [htext] at hsplit
    exact pieceRead_unsafe hsplit (head?_dropWhile_eq_false isWordChar _)
  · have hreads : ReadsLexeme (scanWord · (c :: rest)) (c :: rest) := by
      refine ⟨hsplit, isLexeme_word hword rest hk, fun p => ?_⟩
      simp only [scanWord, if_neg hk]
      rfl
    refine hreads.pieceRead ?_ fun p => ?_
    · simp only [softenPiece, if_neg htrivia, if_pos hword, softenWord, scanWord, if_neg hk]
      exact prefix_iff_eq_take.mp ( takeWhile_prefix _)
    · rw [scanPiece, if_neg htrivia, if_pos hword]

/-- A step of the scan reads a piece, unless it is at a string literal
whose last character is an escaping backslash. -/
theorem pieceRead (c : Char) (rest : List Char) :
    (∃ u, PieceRead c rest u) ∨ ∃ body, c = '"' ∧ rest = body ++ ['\\']
      ∧ (decodeEscapes body).isSome = true ∧ ∀ p, scanPiece p c rest = .error .danglingEscape := by
  by_cases htrivia : startsTrivia (c :: rest) = true
  · exact .inl (pieceRead_trivia htrivia)
  have hline : c ≠ '\n' := by
    rintro rfl
    exact htrivia rfl
  by_cases hword : isWordStart c = true
  · exact .inl (pieceRead_word htrivia hword)
  by_cases hdigit : isDigit c = true
  · refine .inl ((scanNumber_reads hdigit rest).pieceRead ?_ fun p => ?_)
    · rw [softenPiece, if_neg htrivia, if_neg hword, if_pos hdigit]
    · rw [scanPiece, if_neg htrivia, if_neg hword, if_pos hdigit]
  by_cases hquote : c = '"'
  · subst hquote
    have hsoft : '"' :: softenString rest = softenPiece '"' rest := by
      rw [softenPiece, if_neg htrivia, if_neg hword, if_neg hdigit, if_pos rfl]
    have hpiece (p : Pos) : scanPiece p '"' rest = scanString p rest := by
      rw [scanPiece, if_neg htrivia, if_neg hword, if_neg hdigit, if_pos rfl]
    have hsoftens := (softenString_softens rest).2.same '"'
    rcases scanString_unplaced rest with ⟨body, value, behind, hrest, hvalue, hlength,
      hscan⟩ | hscan
      | ⟨body, hrest, hbody, hscan⟩
    · exact .inl ⟨_, .string (congrArg ('"' :: ·) hrest) hvalue (congrArg (· + 1) hlength), hsoft,
        hsoftens, cons_ne_nil _ _, fun p => (hpiece p).trans (hscan p)⟩
    · exact .inl ⟨_, .reported (cons_ne_nil _ _) (.inl rfl), hsoft, hsoftens, cons_ne_nil _ _,
        fun p => (hpiece p).trans (hscan p)⟩
    · exact .inr ⟨body, rfl, hrest, hbody, fun p => (hpiece p).trans (hscan p)⟩
  have hsoft : softenPiece c rest = (c :: rest).take (scanOperator {} c rest).width := by
    rw [softenPiece, if_neg htrivia, if_neg hword, if_neg hdigit, if_neg hquote]
  have hpiece (p : Pos) : scanPiece p c rest = .ok (scanOperator p c rest) := by
    rw [scanPiece, if_neg htrivia, if_neg hword, if_neg hdigit, if_neg hquote]
  rcases scanOperator_reads hline rest with hreads | hnone
  · exact .inl (hreads.pieceRead hsoft hpiece)
  · refine .inl ⟨{ issues := [(0, .unexpectedCharacter c)], soft := [c] },
      .reported (cons_ne_nil _ _) (.inl rfl), ?_, .start [c] rest, cons_ne_nil _ _, fun p => ?_⟩
    · rw [hsoft, hnone]
      rfl
    · have hover : p.over [c] = p.right 1 := Pos.past_plain p hline
      rw [hpiece, hnone, Unplaced.place, hover]
      rfl

theorem scanPiece_read (h : scanPiece p c rest = .ok piece) :
    ∃ u, PieceRead c rest u ∧ piece = u.place p := by
  rcases pieceRead c rest with ⟨u, hu⟩ | ⟨-, -, -, -, hfault⟩
  · exact ⟨u, hu, Except.ok.inj (h.symm.trans (hu.scan p))⟩
  · cases (hfault p).symm.trans h

-- ==== words

/-- Lists of words that can be written down and read again: each is
spelled as its kind allows, and a raw block follows `unsafe`, which
nothing else does. -/
inductive Writable : List Word → Prop where
  | nil : Writable []
  | word {w : Word} {ws : List Word} (h : Spelled w.kind w.lexeme.toList)
      (hkind : w.kind ≠ .kwUnsafe) (hraw : w.kind ≠ .rawBlock) (hws : Writable ws) :
      Writable (w :: ws)
  | rawBlock {payload : String} {ws : List Word} (h : ClosesRaw .code 0 payload.toList)
      (hws : Writable ws) : Writable (unsafeWord :: ⟨.rawBlock, payload⟩ :: ws)

theorem Writable.append (ha : Writable as) (hb : Writable bs) : Writable (as ++ bs) := by
  induction ha with
  | nil => exact hb
  | word h hu hr _ ih => exact .word h hu hr ih
  | rawBlock h _ ih => exact .rawBlock h ih

theorem Writable.spelled (h : Writable ws) : ∀ w ∈ ws, Spelled w.kind w.lexeme.toList := by
  induction h with
  | nil => nofun
  | word hw _ _ _ ih => exact forall_mem_cons.mpr ⟨hw, ih⟩
  | rawBlock hcloses _ ih =>
    have hmarker : Spelled .kwUnsafe "unsafe".toList :=
      .word (by decide) (all_eq_true.mp (by decide)) (by decide)
    exact forall_mem_cons.mpr ⟨hmarker, forall_mem_cons.mpr ⟨.raw hcloses, ih⟩⟩

theorem scanPiece_writable (h : scanPiece p c rest = .ok piece) (herr : piece.errors = []) :
    Writable (piece.tokens.map Token.word) := by
  obtain ⟨u, hu, rfl⟩ := scanPiece_read h
  have hissues : u.issues = [] := map_eq_nil_iff.mp herr
  cases hu.form with
  | gap => exact .nil
  | lexeme _ hlexeme =>
    refine .word ?_ hlexeme.plain.2.2.1 hlexeme.plain.2.1 .nil
    show Spelled _ (String.ofList _).toList
    rw [String.toList_ofList]
    exact hlexeme.spelled (map_eq_nil_iff.mp hissues)
  | rawBlock _ _ hpayload =>
    refine .rawBlock ?_ .nil
    rw [String.toList_ofList]
    exact hpayload.closesRaw
  | string =>
    exact .word (.text _) (by decide : Kind.string ≠ .kwUnsafe)
      (by decide : Kind.string ≠ .rawBlock)
      .nil
  | reported hne => exact absurd hissues hne

-- ==== whole scans

theorem scanFrom_cons (h : scanFrom 0 p (c :: rest) = .ok scanned) :
    ∃ piece behind, scanPiece p c rest = .ok piece
      ∧ scanFrom (piece.width - 1) piece.next rest = .ok behind
      ∧ scanned = { tokens := piece.tokens ++ behind.tokens
                    errors := piece.errors ++ behind.errors } := by
  rw [scanFrom] at h
  cases hpiece : scanPiece p c rest with
  | error fault =>
    rw [hpiece] at h
    cases h
  | ok piece =>
    rw [hpiece] at h
    cases hbehind : scanFrom (piece.width - 1) piece.next rest with
    | error fault =>
      simp only [bind, Except.bind, hbehind] at h
      cases h
    | ok behind =>
      simp only [bind, Except.bind, hbehind] at h
      injection h with h
      exact ⟨piece, behind, rfl, hbehind, h.symm⟩

theorem scanFrom_writable (h : scanFrom skip p cs = .ok scanned) (herr : scanned.errors = []) :
    ∃ ts stop, scanned.tokens = ts ++ [stop] ∧ stop.word = ⟨.eof, ""⟩
      ∧ Writable (ts.map Token.word) := by
  induction cs generalizing skip p scanned with
  | nil =>
    rw [scanFrom] at h
    cases h
    exact ⟨[], ⟨.eof, "", p⟩, rfl, rfl, .nil⟩
  | cons c rest ih =>
    cases skip with
    | succ skip =>
      rw [scanFrom] at h
      exact ih h herr
    | zero =>
      obtain ⟨piece, behind, hpiece, hbehind, rfl⟩ := scanFrom_cons h
      obtain ⟨herr₁, herr₂⟩ := append_eq_nil_iff.mp herr
      obtain ⟨ts, stop, htokens, hstop, hts⟩ := ih hbehind herr₂
      refine ⟨piece.tokens ++ ts, stop, ?_, hstop, ?_⟩
      · rw [htokens, append_assoc]
      · rw [map_append]
        exact (scanPiece_writable hpiece herr₁).append hts

theorem Token.scan_spelled (h : Token.scan source = .ok scanned) (herr : scanned.errors = []) :
    ∀ t ∈ scanned.tokens, t.kind = .eof ∨ t.IsSpelled := by
  obtain ⟨ts, stop, htokens, hstop, hwritable⟩ := scanFrom_writable h herr
  rw [htokens]
  refine forall_mem_append.mpr ⟨fun t ht => ?_, forall_mem_singleton.mpr ?_⟩
  · exact .inr (hwritable.spelled t.word (mem_map_of_mem ht))
  · exact .inl (congrArg Word.kind hstop)

end SketchCompiler
