/-
The readers that go character by character.  Trivia and the inside of a
string literal are read by loops that carry a place along, and the place
never decides what is read.  So each loop is described by the text alone:
where the text can be cut, and what the loop makes of the parts
(`triviaForm`, `stringForm`).

# Soft breaks

A line break that a backslash escapes in a string literal, or that stands
in a quoted literal or a block comment of raw code, moves to the right like
any other character.  Such breaks are soft.  A reader ends at the place
behind what it covers with its soft breaks as blanks (`Unplaced.place`).
-/
import Mathlib.Data.List.TakeWhile
import SketchCompiler.Token.Scan

namespace SketchCompiler

open List

variable {cs rest body behind front soft : List Char} {c : Char} {p : Pos}

-- ==== places

/-- The place behind a character. -/
def Pos.past (p : Pos) (c : Char) : Pos :=
  if c = '\n' then p.nextLine else p.right 1

/-- The place behind a text. -/
def Pos.over (p : Pos) (cs : List Char) : Pos :=
  cs.foldl Pos.past p

theorem Pos.right_right (p : Pos) (m n : Nat) : (p.right m).right n = p.right (m + n) := by
  simp only [Pos.right, Nat.add_assoc]

theorem Pos.over_cons (p : Pos) (c : Char) (cs : List Char) :
    p.over (c :: cs) = (p.past c).over cs :=
  rfl

theorem Pos.over_append (p : Pos) (cs ds : List Char) : p.over (cs ++ ds) = (p.over cs).over ds :=
  foldl_append

theorem Pos.past_break (p : Pos) : p.past '\n' = p.nextLine := if_pos rfl

theorem Pos.past_plain (p : Pos) (h : c ≠ '\n') : p.past c = p.right 1 := if_neg h

theorem Pos.over_plain (p : Pos) (h : '\n' ∉ cs) : p.over cs = p.right cs.length := by
  induction cs generalizing p with
  | nil => rfl
  | cons c cs ih =>
    obtain ⟨hc, hcs⟩ := ne_and_not_mem_of_not_mem_cons h
    rw [Pos.over_cons, Pos.past_plain p hc.symm, ih _ hcs, Pos.right_right, length_cons,
      Nat.add_comm 1]

-- ==== soft breaks

/-- A line break as a blank, any other character as it is. -/
def softChar (c : Char) : Char :=
  if c = '\n' then ' ' else c

theorem softChar_ne_break (c : Char) : softChar c ≠ '\n' := by
  unfold softChar
  split
  · decide
  · assumption

/-- The text starts with the softened one: some of its line breaks are
blanks there. -/
inductive Softens : List Char → List Char → Prop where
  | nil {cs : List Char} : Softens [] cs
  | same {soft cs : List Char} (c : Char) (h : Softens soft cs) : Softens (c :: soft) (c :: cs)
  | blank {soft cs : List Char} (h : Softens soft cs) : Softens (' ' :: soft) ('\n' :: cs)

theorem Softens.char (c : Char) (h : Softens soft cs) :
    Softens (softChar c :: soft) (c :: cs) := by
  by_cases hc : c = '\n'
  · subst hc
    exact .blank h
  · have hsame : softChar c = c := if_neg hc
    rw [hsame]
    exact .same c h

/-- Behind a start of a text, as it is, goes the softened rest. -/
theorem Softens.prepend (front : List Char) (h : Softens soft cs) :
    Softens (front ++ soft) (front ++ cs) := by
  induction front with
  | nil => exact h
  | cons c front ih => exact .same c ih

theorem Softens.start (front rest : List Char) : Softens front (front ++ rest) := by
  simpa using Softens.nil.prepend front

/-- A token without its place. -/
structure Word where
  kind : Kind
  lexeme : String
  deriving DecidableEq, Repr

/-- The token without its place. -/
def Token.word (t : Token) : Word :=
  ⟨t.kind, t.lexeme⟩

/-- What a step of the scan reads, wherever the text stands: words and
reports at their offsets, and what is covered with its soft breaks as
blanks. -/
structure Unplaced where
  words : List (Nat × Word) := []
  issues : List (Nat × ScanIssue) := []
  soft : List Char

/-- What is read of a text that stands at the place. -/
def Unplaced.place (u : Unplaced) (p : Pos) : Piece :=
  { tokens := u.words.map fun w => ⟨w.2.kind, w.2.lexeme, p.over (u.soft.take w.1)⟩
    errors := u.issues.map fun i => ⟨i.2, p.over (u.soft.take i.1)⟩
    width := u.soft.length
    next := p.over u.soft }

-- ==== gaps

/-- What may stand between tokens: blanks, and comments with the mark or
the line break that ends them.  Only at the end of a source may a line
comment go without. -/
inductive Gap : Bool → List Char → Prop where
  | nil {atEnd : Bool} : Gap atEnd []
  | blank {atEnd : Bool} {c : Char} {g : List Char} (hc : c ∈ [' ', '\t', '\r', '\n'])
      (hg : Gap atEnd g) : Gap atEnd (c :: g)
  | line {atEnd : Bool} {body g : List Char} (hbody : '\n' ∉ body) (hg : Gap atEnd g) :
      Gap atEnd ('/' :: '/' :: (body ++ '\n' :: g))
  | block {atEnd : Bool} {body g : List Char} (hbody : ¬ ['*', '/'] <:+: body)
      (hg : Gap atEnd g) : Gap atEnd ('/' :: '*' :: (body ++ '*' :: '/' :: g))
  | lastLine {body : List Char} (hbody : '\n' ∉ body) : Gap true ('/' :: '/' :: body)

theorem Gap.append (h : Gap false g) (h' : Gap atEnd g') : Gap atEnd (g ++ g') := by
  generalize hend : false = before at h
  induction h with
  | nil => exact h'
  | blank hc _ ih => exact .blank hc (ih hend)
  | line hbody _ ih =>
    rw [cons_append, cons_append, append_assoc, cons_append]
    exact .line hbody (ih hend)
  | block hbody _ ih =>
    rw [cons_append, cons_append, append_assoc, cons_append, cons_append]
    exact .block hbody (ih hend)
  | lastLine => cases hend

theorem Piece.widen_widen (piece : Piece) (m n : Nat) :
    (piece.widen m).widen n = piece.widen (m + n) := by
  unfold Piece.widen
  rw [Nat.add_assoc]

/-- Skipping trivia goes over the front of the text and on behind it. -/
def SkipsOver (m : TriviaMode) (front : List Char) (m' : TriviaMode) (rest : List Char) : Prop :=
  ∀ p, scanTrivia m p (front ++ rest) = (scanTrivia m' (p.over front) rest).widen front.length

theorem SkipsOver.trans (h : SkipsOver m front m' (front' ++ rest))
    (h' : SkipsOver m' front' m'' rest) : SkipsOver m (front ++ front') m'' rest := by
  intro p
  rw [append_assoc, h, h', Piece.widen_widen, Pos.over_append, length_append, Nat.add_comm]

theorem skip_line (h : '\n' ∉ body) : SkipsOver .line body .line rest := by
  induction body with
  | nil => exact fun p => rfl
  | cons c body ih =>
    obtain ⟨hc, hbody⟩ := ne_and_not_mem_of_not_mem_cons h
    have hstep : SkipsOver .line [c] .line (body ++ rest) := by
      intro p
      rw [singleton_append, scanTrivia, ← Pos.past_plain p hc.symm]
      · rfl
      · exact hc.symm
    exact hstep.trans (ih hbody)

theorem skip_block (h : ¬ ['*', '/'] <:+: body) (hrest : rest.head? ≠ some '/') :
    SkipsOver .block body .block rest := by
  induction body with
  | nil => exact fun p => rfl
  | cons c body ih =>
    have hstep : SkipsOver .block [c] .block (body ++ rest) := by
      intro p
      by_cases hline : c = '\n'
      · subst hline
        rfl
      rw [singleton_append, scanTrivia, ← Pos.past_plain p hline]
      · rfl
      · rintro r rfl heq
        -- the comment would end here
        cases body with
        | nil => exact hrest (congrArg head? heq)
        | cons x body =>
          cases heq
          exact h ⟨[], body, rfl⟩
      · exact hline
    exact hstep.trans (ih fun hin => h (hin.trans (suffix_cons c body).isInfix))

theorem Gap.skip (h : Gap false g) (rest : List Char) : SkipsOver .gap g .gap rest := by
  generalize hend : false = atEnd at h
  induction h with
  | nil => exact fun p => rfl
  | @blank _ c g hc _ ih =>
    have hstep : SkipsOver .gap [c] .gap (g ++ rest) := by
      simp only [mem_cons, not_mem_nil, or_false] at hc
      rcases hc with rfl | rfl | rfl | rfl
      all_goals exact fun p => rfl
    exact hstep.trans (ih hend)
  | @line _ body g hbody _ ih =>
    have hopen : SkipsOver .gap ['/', '/'] .line (body ++ (['\n'] ++ g) ++ rest) := fun p => rfl
    have hclose : SkipsOver .line ['\n'] .gap (g ++ rest) := fun p => rfl
    exact hopen.trans ((skip_line hbody).trans (hclose.trans (ih hend)))
  | @block _ body g hbody _ ih =>
    have hopen : SkipsOver .gap ['/', '*'] .block (body ++ (['*', '/'] ++ g) ++ rest) :=
      fun p => rfl
    have hclose : SkipsOver .block ['*', '/'] .gap (g ++ rest) := fun p => rfl
    exact hopen.trans ((skip_block hbody (by simp)).trans (hclose.trans (ih hend)))
  | lastLine => cases hend

/-- A text starts with a gap, behind which nothing of a gap stands, or only
a comment that the text ends in. -/
inductive TriviaForm : List Char → Prop where
  | gap {g rest : List Char} (hg : Gap false g) (hrest : startsTrivia rest = false) :
      TriviaForm (g ++ rest)
  | line {g body : List Char} (hg : Gap false g) (hbody : '\n' ∉ body) :
      TriviaForm (g ++ '/' :: '/' :: body)
  | block {g body : List Char} (hg : Gap false g) (hbody : ¬ ['*', '/'] <:+: body) :
      TriviaForm (g ++ '/' :: '*' :: body)

theorem TriviaForm.prepend (h : TriviaForm cs) (hg : Gap false g) : TriviaForm (g ++ cs) := by
  cases h with
  | gap hg' hrest => exact append_assoc .. ▸ .gap (hg.append hg') hrest
  | line hg' hbody => exact append_assoc .. ▸ .line (hg.append hg') hbody
  | block hg' hbody => exact append_assoc .. ▸ .block (hg.append hg') hbody

theorem exists_close (h : ['*', '/'] <:+: cs) :
    ∃ body rest, cs = body ++ '*' :: '/' :: rest ∧ ¬ ['*', '/'] <:+: body := by
  induction cs with
  | nil => simp at h
  | cons c cs ih =>
    by_cases hhere : ['*', '/'] <+: c :: cs
    · obtain ⟨rest, hrest⟩ := hhere
      exact ⟨[], rest, hrest.symm, by simp⟩
    · obtain ⟨body, rest, rfl, hbody⟩ := ih ((infix_cons_iff.mp h).resolve_left hhere)
      refine ⟨c :: body, rest, rfl, fun hin => ?_⟩
      rcases infix_cons_iff.mp hin with hfront | hin
      · exact hhere (hfront.trans (prefix_append (c :: body) _))
      · exact hbody hin

theorem triviaForm (cs : List Char) : TriviaForm cs := by
  induction hn : cs.length using Nat.strong_induction_on generalizing cs with | _ n ih
  subst hn
  by_cases htrivia : startsTrivia cs = true
  · unfold startsTrivia at htrivia
    split at htrivia
    case h_7 => cases htrivia
    case h_5 rest =>
      by_cases hline : '\n' ∈ rest
      · obtain ⟨body, rest, rfl, hbody⟩ := eq_append_cons_of_mem hline
        have hrest := (ih rest.length (by simp; omega) rest rfl).prepend (.line hbody .nil)
        simpa using hrest
      · exact .line .nil hline
    case h_6 rest =>
      by_cases hclose : ['*', '/'] <:+: rest
      · obtain ⟨body, rest, rfl, hbody⟩ := exists_close hclose
        have hrest := (ih rest.length (by simp; omega) rest rfl).prepend (.block hbody .nil)
        simpa using hrest
      · exact .block .nil hclose
    all_goals exact (ih _ (Nat.lt_succ_self _) _ rfl).prepend (.blank (by decide) .nil)
  · exact .gap .nil (Bool.eq_false_iff.mpr htrivia)

theorem scanTrivia_gap (h : startsTrivia cs = false) :
    scanTrivia .gap p cs = { width := 0, next := p } := by
  unfold startsTrivia at h
  split at h
  case h_7 h₁ h₂ h₃ h₄ h₅ h₆ =>
    rw [scanTrivia]
    all_goals assumption
  all_goals cases h

theorem scanTrivia_width_pos (p : Pos) (h : startsTrivia cs = true) :
    0 < (scanTrivia .gap p cs).width := by
  unfold startsTrivia at h
  split at h
  all_goals first
    | (rw [scanTrivia]; exact Nat.succ_pos _)
    | cases h

theorem Gap.scan (hg : Gap false g) (hrest : startsTrivia rest = false) (p : Pos) :
    scanTrivia .gap p (g ++ rest) = { width := g.length, next := p.over g } := by
  rw [hg.skip, scanTrivia_gap hrest, Piece.widen, Nat.zero_add]

theorem Gap.scan_line (hg : Gap false g) (hbody : '\n' ∉ body) (p : Pos) :
    scanTrivia .gap p (g ++ '/' :: '/' :: body)
      = { width := (g ++ '/' :: '/' :: body).length
          next := p.over (g ++ '/' :: '/' :: body) } := by
  have hopen : SkipsOver .gap ['/', '/'] .line (body ++ []) := fun p => rfl
  have hall := (hg.skip _).trans (hopen.trans (skip_line hbody)) p
  rw [append_nil, Piece.widen] at hall
  exact hall.trans (by simp [scanTrivia])

theorem Gap.scan_block (hg : Gap false g) (hbody : ¬ ['*', '/'] <:+: body) (p : Pos) :
    scanTrivia .gap p (g ++ '/' :: '*' :: body)
      = { errors := [⟨.unterminatedComment, p.over (g ++ '/' :: '*' :: body)⟩]
          width := (g ++ '/' :: '*' :: body).length
          next := p.over (g ++ '/' :: '*' :: body) } := by
  have hopen : SkipsOver .gap ['/', '*'] .block (body ++ []) := fun p => rfl
  have hall := (hg.skip _).trans (hopen.trans (skip_block hbody (by simp))) p
  rw [append_nil, Piece.widen] at hall
  exact hall.trans (by simp [scanTrivia])

/-- Trivia covers a gap, or all of a text that ends in a comment, which is
then reported. -/
theorem scanTrivia_covers (cs : List Char) : ∃ front rest issues, cs = front ++ rest
    ∧ (issues = [] ∧ startsTrivia rest = false
        ∧ (∃ atEnd, Gap atEnd front ∧ (atEnd = true → rest = []))
      ∨ issues ≠ [] ∧ rest = [])
    ∧ ∀ p, scanTrivia .gap p cs = Unplaced.place { issues, soft := front } p := by
  cases triviaForm cs with
  | gap hg hrest => exact ⟨_, _, [], rfl, .inl ⟨rfl, hrest, false, hg, nofun⟩, hg.scan hrest⟩
  | line hg hbody =>
    exact ⟨_, [], [], (append_nil _).symm,
      .inl ⟨rfl, rfl, true, hg.append (.lastLine hbody), fun _ => rfl⟩, hg.scan_line hbody⟩
  | @block g body hg hbody =>
    refine ⟨_, [], [((g ++ '/' :: '*' :: body).length, .unterminatedComment)],
      (append_nil _).symm, .inr ⟨cons_ne_nil _ _, rfl⟩, fun p => ?_⟩
    rw [hg.scan_block hbody, Unplaced.place]
    simp only [map_nil, map_singleton, take_length]

-- ==== strings

/-- The text that a string literal denotes, given what stands between its
quotes; a quote or a line break there has to be escaped. -/
def decodeEscapes : List Char → Option (List Char)
  | [] => some []
  | '\\' :: c :: rest => (decodeEscapes rest).map (unescape c :: ·)
  | c :: rest =>
    if c = '"' ∨ c = '\n' ∨ c = '\\' then none else (decodeEscapes rest).map (c :: ·)

/-- What a string literal covers behind its opening quote. -/
def softenString : List Char → List Char
  | [] => []
  | '"' :: _ => ['"']
  | '\n' :: _ => []
  | '\\' :: [] => []
  | '\\' :: c :: rest => '\\' :: softChar c :: softenString rest
  | c :: rest => c :: softenString rest

theorem string_body (h : decodeEscapes body = some value) (rest : List Char) :
    (softenString (body ++ rest)).length = body.length + (softenString rest).length
      ∧ ∀ p, scanStringText p (body ++ rest) = (scanStringText (p.right body.length) rest).map
        fun text =>
          { text with value := value ++ text.value, width := text.width + body.length } := by
  fun_induction decodeEscapes body generalizing value with
  | case1 =>
    cases h
    refine ⟨(Nat.zero_add _).symm, fun p => ?_⟩
    show scanStringText p rest = (scanStringText p rest).map _
    cases scanStringText p rest <;> rfl
  | case2 c body ih =>
    obtain ⟨value, hvalue, rfl⟩ := Option.map_eq_some_iff.mp h
    obtain ⟨hlength, hscan⟩ := ih hvalue
    refine ⟨?_, fun p => ?_⟩
    · simp only [cons_append, softenString, length_cons, hlength]
      omega
    · have hstep : scanStringText p ('\\' :: c :: (body ++ rest))
          = (scanStringText (p.right 2) (body ++ rest)).map (·.prepend (unescape c) 2) := rfl
      rw [cons_append, cons_append, hstep, hscan, Pos.right_right, length_cons, length_cons,
        Nat.add_comm 2]
      cases scanStringText (p.right (body.length + 2)) rest <;> rfl
  | case3 => cases h
  | case4 c body _ hc ih =>
    obtain ⟨value, hvalue, rfl⟩ := Option.map_eq_some_iff.mp h
    obtain ⟨hlength, hscan⟩ := ih hvalue
    obtain ⟨hquote, hline, hslash⟩ : c ≠ '"' ∧ c ≠ '\n' ∧ c ≠ '\\' := by simpa [not_or] using hc
    refine ⟨?_, fun p => ?_⟩
    · rw [cons_append, softenString, length_cons, hlength, length_cons, Nat.add_right_comm]
      all_goals simp_all
    · have hstep : scanStringText p (c :: (body ++ rest))
          = (scanStringText (p.right 1) (body ++ rest)).map (·.prepend c 1) := by
        rw [scanStringText]
        all_goals simp_all
      rw [cons_append, hstep, hscan, Pos.right_right, length_cons, Nat.add_comm 1]
      cases scanStringText (p.right (body.length + 1)) rest <;> rfl

theorem softenString_softens (cs : List Char) :
    '\n' ∉ softenString cs ∧ Softens (softenString cs) cs := by
  fun_induction softenString cs with
  | case1 | case3 | case4 => exact ⟨not_mem_nil, .nil⟩
  | case2 => exact ⟨by decide, .same _ .nil⟩
  | case5 c rest ih =>
    refine ⟨?_, (ih.2.char c).same _⟩
    rw [mem_cons, mem_cons, not_or, not_or]
    exact ⟨by decide, (softChar_ne_break c).symm, ih.1⟩
  | case6 c rest hquote hline hlast hescape ih =>
    exact ⟨not_mem_cons_of_ne_of_not_mem (Ne.symm hline) ih.1, ih.2.same c⟩

/-- Where the text of a string literal ends: at its closing quote, at the
end of its line or of the source, or at a backslash that escapes nothing. -/
inductive StringForm : List Char → Prop where
  | closed {body behind : List Char} (hbody : (decodeEscapes body).isSome = true) :
      StringForm (body ++ '"' :: behind)
  | toLine {body behind : List Char} (hbody : (decodeEscapes body).isSome = true)
      (hbehind : ∀ c ∈ behind.head?, c = '\n') : StringForm (body ++ behind)
  | dangling {body : List Char} (hbody : (decodeEscapes body).isSome = true) :
      StringForm (body ++ ['\\'])

theorem StringForm.step (front : List Char) (h : StringForm cs)
    (hfront : ∀ body, (decodeEscapes (front ++ body)).isSome = (decodeEscapes body).isSome) :
    StringForm (front ++ cs) := by
  cases h with
  | closed hbody => exact append_assoc .. ▸ .closed ((hfront _).trans hbody)
  | toLine hbody hbehind => exact append_assoc .. ▸ .toLine ((hfront _).trans hbody) hbehind
  | dangling hbody => exact append_assoc .. ▸ .dangling ((hfront _).trans hbody)

theorem stringForm (cs : List Char) : StringForm cs := by
  have hnil : (decodeEscapes []).isSome = true := rfl
  fun_induction softenString cs with
  | case1 => exact .toLine hnil nofun
  | case2 => exact .closed hnil
  | case3 => exact .toLine hnil (by simp)
  | case4 => exact .dangling hnil
  | case5 c rest ih => exact ih.step ['\\', c] fun _ => Option.isSome_map
  | case6 c rest hquote hline hlast hescape ih =>
    have hslash : c ≠ '\\' := by
      intro heq
      cases rest with
      | nil => exact hlast heq rfl
      | cons d rest => exact hescape d rest heq rfl
    refine ih.step [c] fun body => ?_
    rw [singleton_append, decodeEscapes, if_neg, Option.isSome_map]
    · rintro (heq | heq | heq)
      all_goals contradiction
    · exact fun _ _ heq => absurd heq hslash

theorem scanString_closed (h : decodeEscapes body = some value) (p : Pos) (behind : List Char) :
    scanString p (body ++ '"' :: behind) = .ok
      { tokens := [⟨.string, String.ofList value, p⟩], width := body.length + 2
        next := p.right (body.length + 2) } := by
  have hend (q : Pos) : scanStringText q ('"' :: behind)
      = .ok { closed := true, width := 1, next := q.right 1 } := rfl
  rw [scanString, (string_body h _).2, hend, Pos.right_right, Pos.right_right]
  simp only [Except.map, bind, Except.bind, pure, Except.pure, append_nil, if_true, Nat.add_comm 1]

theorem scanString_toLine (h : decodeEscapes body = some value)
    (hbehind : ∀ c ∈ behind.head?, c = '\n') (p : Pos) :
    scanString p (body ++ behind) = .ok
      { errors := [⟨.unterminatedString, p⟩], width := body.length + 1
        next := p.right (body.length + 1) } := by
  have hend (q : Pos) : scanStringText q behind
      = .ok { closed := false, width := 0, next := q } := by
    cases behind with
    | nil => rfl
    | cons c behind =>
      cases hbehind c rfl
      rfl
  rw [scanString, (string_body h _).2, hend, Pos.right_right, Nat.add_comm 1]
  simp only [Except.map, bind, Except.bind, pure, Except.pure, Nat.zero_add, Bool.false_eq_true,
    if_false]

theorem scanString_dangling (h : decodeEscapes body = some value) (p : Pos) :
    scanString p (body ++ ['\\']) = .error .danglingEscape := by
  rw [scanString, (string_body h _).2]
  rfl

/-- What is read of a string literal, unless its last character is an
escaping backslash. -/
theorem scanString_unplaced (cs : List Char) :
    (∃ body value behind, cs = body ++ '"' :: behind ∧ decodeEscapes body = some value
      ∧ (softenString cs).length = body.length + 1 ∧ ∀ p, scanString p cs = .ok (Unplaced.place
        { words := [(0, ⟨.string, String.ofList value⟩)], soft := '"' :: softenString cs } p))
      ∨ (∀ p, scanString p cs = .ok (Unplaced.place
        { issues := [(0, .unterminatedString)], soft := '"' :: softenString cs } p))
      ∨ ∃ body, cs = body ++ ['\\'] ∧ (decodeEscapes body).isSome = true
        ∧ ∀ p, scanString p cs = .error .danglingEscape := by
  have hover (p : Pos) {n : Nat} (hn : (softenString cs).length = n) :
      p.over ('"' :: softenString cs) = p.right (n + 1) := by
    have hquote : '"' ≠ '\n' := by decide
    rw [p.over_plain (not_mem_cons_of_ne_of_not_mem hquote.symm (softenString_softens cs).1),
      length_cons, hn]
  cases stringForm cs with
  | @closed body behind hbody =>
    obtain ⟨value, hvalue⟩ := Option.isSome_iff_exists.mp hbody
    have hlength : (softenString (body ++ '"' :: behind)).length = body.length + 1 :=
      (string_body hvalue _).1
    refine .inl ⟨body, value, behind, rfl, hvalue, hlength, fun p => ?_⟩
    rw [scanString_closed hvalue, Unplaced.place, hover p hlength, length_cons, hlength]
    rfl
  | @toLine body behind hbody hbehind =>
    obtain ⟨value, hvalue⟩ := Option.isSome_iff_exists.mp hbody
    have hlength : (softenString (body ++ behind)).length = body.length := by
      rw [(string_body hvalue _).1]
      cases behind with
      | nil => rfl
      | cons c behind =>
        cases hbehind c rfl
        rfl
    refine .inr (.inl fun p => ?_)
    rw [scanString_toLine hvalue hbehind, Unplaced.place, hover p hlength, length_cons, hlength]
    rfl
  | dangling hbody =>
    obtain ⟨value, hvalue⟩ := Option.isSome_iff_exists.mp hbody
    exact .inr (.inr ⟨_, rfl, hbody, scanString_dangling hvalue⟩)

end SketchCompiler
