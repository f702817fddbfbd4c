/-
String literals in generated code.  The code has the text of a literal
between quotes as it is, without escapes.  So it reads back as one literal
of the same text if and only if the text holds no quote, no backslash and
no line break (`Emit.text_reread`).  The first quote of a text ends the
literal, and all behind it is read as code.

The lengths decide: what stands between the quotes of a literal is longer
than the text it denotes by one for each escape (`length_decodeEscapes`).
Written as it is, a text leaves no place for any.
-/
import SketchCompiler.Proofs.Layout
import SketchCompiler.Proofs.Visited

namespace SketchCompiler

open List

-- ==== verbatim texts

/-- Between quotes every character stands for itself. -/
def Verbatim (cs : List Char) : Prop :=
  ∀ c ∈ cs, escapeChar c = [c]

instance : DecidablePred Verbatim :=
  List.decidableBAll fun c => escapeChar c = [c]

/-- Nothing in such a text is escaped. -/
theorem Verbatim.escaped (h : Verbatim cs) : cs.flatMap escapeChar = cs := by
  induction cs with
  | nil => rfl
  | cons c cs ih =>
    obtain ⟨hc, hcs⟩ := forall_mem_cons.mp h
    rw [flatMap_cons, hc, ih hcs]
    rfl

theorem escapeChar_plain (hquote : c ≠ '"') (hline : c ≠ '\n') (hslash : c ≠ '\\') :
    escapeChar c = [c] := by
  unfold escapeChar
  split
  · exact absurd rfl hslash
  · exact absurd rfl hquote
  · exact absurd rfl hline
  · rfl

theorem length_decodeEscapes (h : decodeEscapes body = some value) :
    value.length ≤ body.length ∧ (body.length ≤ value.length → Verbatim value) := by
  induction body using decodeEscapes.induct generalizing value with
  | case1 =>
    cases h
    exact ⟨Nat.le_refl _, fun _ => forall_mem_nil _⟩
  | case2 c rest ih =>
    rw [decodeEscapes] at h
    obtain ⟨inner, hinner, rfl⟩ := Option.map_eq_some_iff.mp h
    obtain ⟨hleast, -⟩ := ih hinner
    simp only [length_cons]
    exact ⟨by omega, fun hmost => by omega⟩
  | case3 c rest hpair hc =>
    rw [decodeEscapes, if_pos hc] at h
    · cases h
    · exact hpair
  | case4 c rest hpair hc ih =>
    rw [decodeEscapes, if_neg hc] at h
    · obtain ⟨inner, hinner, rfl⟩ := Option.map_eq_some_iff.mp h
      obtain ⟨hleast, hverbatim⟩ := ih hinner
      simp only [length_cons]
      refine ⟨by omega, fun hmost => forall_mem_cons.mpr ⟨?_, hverbatim (by omega)⟩⟩
      simp only [not_or] at hc
      exact escapeChar_plain hc.1 hc.2.1 hc.2.2
    · exact hpair

-- ==== texts in quotes

/-- The text between quotes, as it is. -/
def inQuotes (cs : List Char) : List Char :=
  '"' :: (cs ++ ['"'])

theorem scanFrom_inQuotes (h : Verbatim front) (p : Pos) (behind : List Char) :
    scanFrom 0 p ('"' :: (front ++ '"' :: behind))
      = (scanFrom 0 (p.right (front.length + 2)) behind).map fun s =>
          { s with tokens := ⟨.string, String.ofList front, p⟩ :: s.tokens } := by
  have hpiece : scanPiece p '"' (front ++ '"' :: behind)
      = .ok { tokens := [⟨.string, String.ofList front, p⟩], width := front.length + 2,
              next := p.right (front.length + 2) } := by
    have hdecoded := decodeEscapes_escaped front
    rw [h.escaped] at hdecoded
    exact scanString_closed hdecoded p behind
  have hdrop : (front ++ '"' :: behind).drop (front.length + 2 - 1) = behind :=
    drop_length_add_append (i := 1)
  rw [scanFrom, hpiece]
  simp only [bind, Except.bind, scanFrom_skip (front.length + 2 - 1), hdrop]
  cases scanFrom 0 (p.right (front.length + 2)) behind with
  | error fault => rfl
  | ok behind => rfl

theorem scansTo_inQuotes (cs : List Char) (p : Pos) :
    ScansTo p (inQuotes cs) [⟨.string, String.ofList cs⟩] ↔ Verbatim cs := by
  constructor
  · intro h
    obtain ⟨tokens, hscan, hwords⟩ := h
    obtain ⟨ts, stop, htokens, hstop, -, hlayout⟩ := scanFrom_layout _ (Nat.le_refl _) hscan rfl
    have hts : ts.map Token.word = [⟨.string, String.ofList cs⟩] := by
      have htokens : tokens = ts ++ [stop] := htokens
      rw [htokens, map_append] at hwords
      exact (append_inj' hwords rfl).1
    rw [hts] at hlayout
    generalize hall : inQuotes cs = all at hlayout
    cases hlayout with
    | @word g spelled behind _ _ _ hspelled _ _ =>
      obtain ⟨body, rfl, hbody⟩ := hspelled
      rw [String.toList_ofList] at hbody
      obtain ⟨-, hverbatim⟩ := length_decodeEscapes hbody
      -- the quotes are all that the text in quotes has beside its text
      have hlength := congrArg List.length hall
      simp only [inQuotes, length_append, length_cons, length_nil] at hlength
      exact hverbatim (by omega)
  · intro h
    refine ⟨[⟨.string, String.ofList cs, p⟩, ⟨.eof, "", p.right (cs.length + 2)⟩], ?_, rfl⟩
    rw [inQuotes, scanFrom_inQuotes h, scanFrom]
    rfl

theorem scansTo_escaped (value : String) (p : Pos) :
    ScansTo p (Word.spelling ⟨.string, value⟩) [⟨.string, value⟩] := by
  have hwritable : Writable [⟨.string, value⟩] := .word (.text _) nofun nofun .nil
  have hscan := (scansTo_spellWords hwritable p).2
  rw [spellWords_cons, spellBehind, append_nil] at hscan
  exact hscan

-- ==== generated code

theorem Grammar.primary_string (expression conditional : Parser Expr) (file value : String)
    (pos : Pos) (rest : List Token) (last : Token) (errors : List ParseError) :
    ∃ span after, Grammar.primary expression conditional
        ⟨file, ⟨.string, value, pos⟩ :: rest, last, errors⟩
        = .ok (.literal span (.text value) "string") after ∧ after.rest = rest :=
  ⟨_, _, rfl, rfl⟩

theorem Emit.expr_text (cx : EmitContext) (span : Span) (value : String) :
    ∃ code, Emit.expr cx (.literal span (.text value) "string") = .ok code
      ∧ code.toList = inQuotes value.toList := by
  refine ⟨"\"" ++ value ++ "\"", rfl, ?_⟩
  rw [String.toList_append, String.toList_append]
  rfl

/-- **A string literal survives in generated code exactly if no character
of its text needs an escape.**  The literal that a string token is read as
is written in quotes.  That code reads back as one literal of the same
text exactly if every character of the text stands for itself.  If not,
its first quote ends the literal, and what stands behind it is read as
code.  With escapes the code would read back whatever the text is. -/
theorem Emit.text_reread (cx : EmitContext) (expression conditional : Parser Expr)
    (file value : String) (pos : Pos) (rest : List Token) (last : Token)
    (errors : List ParseError) :
    ∃ e after code, Grammar.primary expression conditional
        ⟨file, ⟨.string, value, pos⟩ :: rest, last, errors⟩ = .ok e after
      ∧ after.rest = rest ∧ Emit.expr cx e = .ok code
      ∧ (ScansTo {} code.toList [⟨.string, value⟩] ↔ Verbatim value.toList)
      ∧ (∀ front behind, value.toList = front ++ '"' :: behind → Verbatim front →
          Token.scan code = (scanFrom 0 (Pos.right {} (front.length + 2)) (behind ++ ['"'])).map
            fun s => { s with tokens := ⟨.string, String.ofList front, {}⟩ :: s.tokens })
      ∧ ScansTo {} (Word.spelling ⟨.string, value⟩) [⟨.string, value⟩] := by
  obtain ⟨span, after, hread, hrest⟩ :=
    Grammar.primary_string expression conditional file value pos rest last errors
  obtain ⟨code, hemit, hcode⟩ := Emit.expr_text cx span value
  refine ⟨_, after, code, hread, hrest, hemit, ?_, ?_, scansTo_escaped value {}⟩
  · have hiff := scansTo_inQuotes value.toList {}
    rw [String.ofList_toList] at hiff
    rw [hcode]
    exact hiff
  · intro front behind hvalue hfront
    have hquoted : code.toList = '"' :: (front ++ '"' :: (behind ++ ['"'])) := by
      rw [hcode, hvalue, inQuotes, List.append_assoc, List.cons_append]
    rw [Token.scan, hquoted, scanFrom_inQuotes hfront]

/-- A quote in a text ends its literal in the code: what stands behind it
is code of its own.  A backslash at the end of a text takes the closing
quote with it. -/
theorem Emit.text_ends_early :
    writesLine .esp32 "let s: string = \"a\\\"; b(); //\";" "String s = \"a\"; b(); //\";" = true
      ∧ ¬ ScansTo {} "\"a\"; b(); //\"".toList [⟨.string, "a\"; b(); //"⟩]
      ∧ writesLine .esp32 "let s: string = \"a\\\\\";" "String s = \"a\\\";" = true
      ∧ ¬ ScansTo {} "\"a\\\"".toList [⟨.string, "a\\"⟩] := by
  refine ⟨by decide +kernel, ?_, by decide +kernel, ?_⟩
  · intro h
    exact absurd ((scansTo_inQuotes "a\"; b(); //".toList {}).mp h) (by decide)
  · intro h
    exact absurd ((scansTo_inQuotes "a\\".toList {}).mp h) (by decide)

end SketchCompiler
