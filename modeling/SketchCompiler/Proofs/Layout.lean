/-
How the tokens of a scan lie in the source.

# Layouts

A source without findings is laid out as its tokens: a gap of blanks and
comments, the spelling of the first token, a gap, the spelling of the
second, and so on up to the end (`Layout`, `Token.scan_layout`).  No
character is lost or read twice, and no word or operator ends where it
could go on (`Maximal`).

# Writing tokens down

The tokens of such a source can be written down again with one blank
between them, whatever stood between them before, and the text scans to
the same tokens (`Token.scan_render`).
-/
import SketchCompiler.Proofs.Proper

namespace SketchCompiler

open List Text

variable {cs rest : List Char} {p : Pos} {c : Char} {k : Kind}

-- ==== layouts

/-- The characters spell the word: a string literal in quotes, a raw
block in braces, any other word as its lexeme. -/
def Word.SpelledBy (w : Word) (cs : List Char) : Prop :=
  match w.kind with
  | .string => ∃ body, cs = '"' :: body ++ ['"'] ∧ decodeEscapes body = some w.lexeme.toList
  | .rawBlock => cs = '{' :: w.lexeme.toList ++ ['}']
  | _ => cs = w.lexeme.toList

/-- The word does not go on in the text behind it: an identifier or
keyword with no further character, an operator of one character not as
one of two. -/
structure Maximal (w : Word) (behind : List Char) : Prop where
  word : w.kind.isWord = true → ∀ c ∈ behind.head?, isWordChar c = false
  operator : ∀ a, w.lexeme.toList = [a] → operatorOfChar a = some w.kind →
    ∀ c ∈ behind.head?, operatorOfPair a c = none

/-- The text is made of the words in order, with gaps in front of them,
between them and at the end. -/
inductive Layout : List Char → List Word → Prop where
  | done {g : List Char} (hg : Gap true g) : Layout g []
  | word {g cs behind : List Char} {w : Word} {ws : List Word} (hg : Gap false g)
      (hcs : w.SpelledBy cs) (hmax : Maximal w behind) (hws : Layout behind ws) :
      Layout (g ++ (cs ++ behind)) (w :: ws)

theorem Layout.gap (hg : Gap false g) (h : Layout cs ws) : Layout (g ++ cs) ws := by
  cases h with
  | done hg' => exact .done (hg.append hg')
  | word hg' hcs hmax hws =>
    rw [← append_assoc]
    exact .word (hg.append hg') hcs hmax hws

theorem Layout.cons (hcs : w.SpelledBy cs) (hmax : Maximal w behind) (h : Layout behind ws) :
    Layout (cs ++ behind) (w :: ws) :=
  .word .nil hcs hmax h

theorem Word.spelledBy_lexeme (hstring : k ≠ .string) (hraw : k ≠ .rawBlock) (cs : List Char) :
    Word.SpelledBy ⟨k, String.ofList cs⟩ cs := by
  unfold Word.SpelledBy
  split
  · rename_i heq
    exact absurd heq hstring
  · rename_i heq
    exact absurd heq hraw
  · exact String.toList_ofList.symm

/-- A literal is maximal in front of anything. -/
theorem Maximal.literal (hk : k ∈ valueKinds) (lexeme : String) (behind : List Char) :
    Maximal ⟨k, lexeme⟩ behind := by
  have hnone : ∀ k ∈ valueKinds, k.isWord = false := by decide
  constructor
  · intro hword
    exact absurd (hword.symm.trans (hnone k hk)) (by decide)
  · intro a _ hop
    exact absurd (mem_cons_of_mem _ hk) (operatorOfChar_kind hop).2

-- ==== pieces

/-- A piece without findings covers the start of the text, and a layout
of the rest is continued to the front by its tokens. -/
def Piece.Lays (piece : Piece) (cs : List Char) : Prop :=
  piece.errors = [] → ∃ front rest, cs = front ++ rest ∧ front ≠ []
    ∧ piece.width = front.length ∧ ∀ ws, (rest = [] → ws = []) → Layout rest ws →
      Layout cs (piece.tokens.map Token.word ++ ws)

theorem scanPiece_lays (h : scanPiece p c rest = .ok piece) : piece.Lays (c :: rest) := by
  obtain ⟨u, hu, rfl⟩ := scanPiece_read h
  intro herr
  have hissues : u.issues = [] := map_eq_nil_iff.mp herr
  have hne := hu.ne_nil
  cases hu.form with
  | @gap atEnd g behind hcs hg hend =>
    refine ⟨g, behind, hcs, hne, rfl, fun ws hws hlayout => ?_⟩
    rw [hcs]
    cases atEnd with
    | false => exact hlayout.gap hg
    | true =>
      rw [hws (hend rfl), hend rfl, append_nil]
      exact .done hg
  | @lexeme k lexeme behind errors hcs hlexeme =>
    have hmax : Maximal ⟨k, String.ofList lexeme⟩ behind :=
      ⟨hlexeme.word, fun a ha => hlexeme.operator a (String.toList_ofList.symm.trans ha)⟩
    refine ⟨lexeme, behind, hcs, hne, rfl, fun ws _ hws => ?_⟩
    rw [hcs]
    exact .cons (Word.spelledBy_lexeme hlexeme.plain.1 hlexeme.plain.2.1 _) hmax hws
  | @rawBlock g payload behind soft hcs hg _ hlength =>
    refine ⟨"unsafe".toList ++ (g ++ ('{' :: payload ++ ['}'])), behind, ?_, by simp, ?_, ?_⟩
    · simpa using hcs
    · show soft.length = _
      rw [hlength, length_append, length_append, length_append, Nat.add_comm]
      rfl
    · intro ws _ hws
      have hraw : Word.SpelledBy ⟨.rawBlock, String.ofList payload⟩ ('{' :: payload ++ ['}']) := by
        simp only [Word.SpelledBy, String.toList_ofList]
      have hblock := Layout.word hg hraw (.literal (by decide) _ behind) hws
      rw [append_assoc ('{' :: _)] at hblock
      rw [hcs]
      refine Layout.cons rfl ⟨fun _ => hg.head, fun a ha => ?_⟩ hblock
      have hone : "unsafe".toList.length = 1 := congrArg List.length ha
      exact absurd hone (by decide)
  | @string body value behind soft hcs hvalue hlength =>
    refine ⟨'"' :: body ++ ['"'], behind, by simp [hcs], by simp, ?_, fun ws _ hws => ?_⟩
    · simpa [Unplaced.place] using hlength
    · have hspelled : Word.SpelledBy ⟨.string, String.ofList value⟩ ('"' :: body ++ ['"']) :=
        ⟨body, rfl, by rw [String.toList_ofList]; exact hvalue⟩
      have hall := Layout.cons hspelled (.literal (by decide) _ behind) hws
      rw [append_assoc ('"' :: _)] at hall
      rw [hcs]
      exact hall
  | reported hsome => exact absurd hissues hsome

-- ==== whole scans

theorem scanFrom_behind (hcs : c :: rest = front ++ rest') (hne : front ≠ [])
    (hwidth : width = front.length) : scanFrom (width - 1) p rest = scanFrom 0 p rest' := by
  obtain ⟨d, front, rfl⟩ := exists_cons_of_ne_nil hne
  have hrest : rest = front ++ rest' := (List.cons.inj hcs).2
  rw [scanFrom_skip, hwidth, hrest, length_cons, Nat.add_sub_cancel, drop_left]

theorem scanFrom_layout (n : Nat) (hn : cs.length ≤ n) (h : scanFrom 0 p cs = .ok scanned)
    (herr : scanned.errors = []) :
    ∃ ts stop, scanned.tokens = ts ++ [stop] ∧ stop.word = ⟨.eof, ""⟩ ∧ (cs = [] → ts = [])
      ∧ Layout cs (ts.map Token.word) := by
  induction n generalizing p cs scanned with
  | zero =>
    rw [length_eq_zero_iff.mp (Nat.le_zero.mp hn)] at h ⊢
    cases h
    exact ⟨[], ⟨.eof, "", p⟩, rfl, rfl, fun _ => rfl, .done .nil⟩
  | succ n ih =>
    cases cs with
    | nil =>
      cases h
      exact ⟨[], ⟨.eof, "", p⟩, rfl, rfl, fun _ => rfl, .done .nil⟩
    | cons c rest =>
      obtain ⟨piece, behind, hpiece, hbehind, rfl⟩ := scanFrom_cons h
      obtain ⟨herr₁, herr₂⟩ := append_eq_nil_iff.mp herr
      obtain ⟨front, rest', hcs, hne, hwidth, hlays⟩ := scanPiece_lays hpiece herr₁
      rw [scanFrom_behind hcs hne hwidth] at hbehind
      have hshort : rest'.length ≤ n := by
        have hlength := congrArg List.length hcs
        have hfront := length_pos_iff.mpr hne
        rw [length_append, length_cons] at hlength
        rw [length_cons] at hn
        omega
      obtain ⟨ts, stop, htokens, hstop, hnil, hlayout⟩ := ih hshort hbehind herr₂
      refine ⟨piece.tokens ++ ts, stop, ?_, hstop, nofun, ?_⟩
      · rw [htokens, append_assoc]
      · rw [map_append]
        apply hlays _ _ hlayout
        intro hrest
        rw [hnil hrest, map_nil]

theorem Writable.ne_eof (h : Writable ws) : ∀ w ∈ ws, w.kind ≠ .eof := by
  intro w hw heof
  have hspelled := h.spelled w hw
  generalize hk : Kind.eof = k at heof
  rw [heof] at hspelled
  generalize w.lexeme.toList = cs at hspelled
  cases hspelled with
  | word _ _ hkind => exact kindOfWord_ne (by decide) (by decide) (hkind.trans hk.symm)
  | pair hop => exact text_ne_of_pair hop (hk ▸ rfl)
  | single hop => exact text_ne_of_char hop (hk ▸ rfl)
  | _ => cases hk

-- ==== whole sources

/-- A source without a blank too many: a raw block with braces inside, a
string with escapes, and comments against an operator and at the end. -/
def crowded : String :=
  "unsafe \x7ba\x7b\x7d\x7df(\"\\\"\\n\")/*+*/+5ms//"

/-- The tokens of that source. -/
def crowdedTokens : List Token :=
  [⟨.kwUnsafe, "unsafe", ⟨1, 1⟩⟩, ⟨.rawBlock, "a\x7b\x7d", ⟨1, 8⟩⟩, ⟨.ident, "f", ⟨1, 13⟩⟩,
    ⟨.lparen, "(", ⟨1, 14⟩⟩, ⟨.string, "\"\n", ⟨1, 15⟩⟩, ⟨.rparen, ")", ⟨1, 21⟩⟩,
    ⟨.plus, "+", ⟨1, 27⟩⟩, ⟨.duration, "5ms", ⟨1, 28⟩⟩, ⟨.eof, "", ⟨1, 33⟩⟩]

theorem scan_crowded : Token.scan crowded = .ok { tokens := crowdedTokens, errors := [] } := by
  rfl

/-- A source without findings is the spellings of its tokens in order with
gaps around them, and no word or operator in it ends early. -/
theorem Token.scan_layout {source : String} {scanned : Scanned}
    (h : Token.scan source = .ok scanned) (herr : scanned.errors = []) :
    ∃ ts stop, scanned.tokens = ts ++ [stop] ∧ stop.kind = .eof ∧ (∀ t ∈ ts, t.kind ≠ .eof)
      ∧ Layout source.toList (ts.map Token.word) := by
  obtain ⟨ts, stop, htokens, hstop, -, hlayout⟩ := scanFrom_layout _ (Nat.le_refl _) h herr
  obtain ⟨ts', stop', htokens', -, hwritable⟩ := scanFrom_writable h herr
  have hsame : ts = ts' := (List.append_inj' (htokens.symm.trans htokens') rfl).1
  refine ⟨ts, stop, htokens, congrArg Word.kind hstop, ?_, hlayout⟩
  intro t ht
  exact hwritable.ne_eof _ (hsame ▸ List.mem_map_of_mem ht)

/-- The tokens of the crowded source lie in it in order. -/
theorem Token.scan_layout_crowded :
    ∃ ts stop, crowdedTokens = ts ++ [stop] ∧ stop.kind = .eof ∧ (∀ t ∈ ts, t.kind ≠ .eof)
      ∧ Layout crowded.toList (ts.map Token.word) :=
  Token.scan_layout scan_crowded rfl

/-- The tokens of a source without findings, written down with one blank
between them, scan to the same tokens. -/
theorem Token.scan_render {source : String} {scanned : Scanned}
    (h : Token.scan source = .ok scanned) (herr : scanned.errors = []) :
    ∃ ts stop, scanned.tokens = ts ++ [stop] ∧ stop.kind = .eof ∧ (∀ t ∈ ts, t.kind ≠ .eof)
      ∧ ∃ again, Token.scan (String.ofList (spellWords (ts.map Token.word))) = .ok again
        ∧ again.errors = [] ∧ again.tokens.map Token.word = scanned.tokens.map Token.word := by
  obtain ⟨ts, stop, htokens, hstop, hwritable⟩ := scanFrom_writable h herr
  obtain ⟨tokens, hscan, hwords⟩ := scan_written hwritable
  refine ⟨ts, stop, htokens, congrArg Word.kind hstop, ?_, _, hscan, rfl, ?_⟩
  · intro t ht
    exact hwritable.ne_eof _ (List.mem_map_of_mem ht)
  · rw [hwords, htokens, List.map_append, List.map_singleton, hstop]

/-- The tokens of the crowded source are read back from their spellings. -/
theorem Token.scan_render_crowded :
    ∃ ts stop, crowdedTokens = ts ++ [stop] ∧ stop.kind = .eof ∧ (∀ t ∈ ts, t.kind ≠ .eof)
      ∧ ∃ again, Token.scan (String.ofList (spellWords (ts.map Token.word))) = .ok again
        ∧ again.errors = [] ∧ again.tokens.map Token.word = crowdedTokens.map Token.word :=
  Token.scan_render scan_crowded rfl

end SketchCompiler
