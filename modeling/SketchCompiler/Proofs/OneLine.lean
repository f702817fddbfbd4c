/-
Generated lines are lines.  No line of generated code holds a line feed,
as long as no string literal of the program does: names and operators
have none, numbers are written with digits, points and signs, and raw
code is cut at its line breaks (`sketch_oneLine`).

The texts without a given character are a class of texts, if that
character is not printable and belongs to no word
(`TextClass.lacking`).
-/
import SketchCompiler.Proofs.WrittenTexts

namespace SketchCompiler

open List Text

-- ==== texts

/-- The text holds no line feed. -/
def OneLine (s : String) : Prop :=
  '\n' ∉ s.toList

instance : DecidablePred OneLine :=
  fun s => inferInstanceAs (Decidable ('\n' ∉ s.toList))

/-- The texts without a character that is neither printable nor part of a
word. -/
def TextClass.lacking (c : Char) (hc : (isVisible c || isWordChar c) = false) : TextClass where
  Holds s := c ∉ s.toList
  plain h hmem := by
    have hplain := h c hmem
    rw [Bool.or_eq_false_iff] at hc
    rw [isPlain, hc.1, hc.2] at hplain
    cases hplain
  fixed h hmem := by
    rw [String.toList_ofList] at hmem
    rw [isFixed, Bool.and_eq_true, List.all_eq_true] at h
    rw [h.1 c hmem, Bool.true_or] at hc
    cases hc
  insert hw a b := by simp [hw]

/-- The texts without a line feed. -/
def TextClass.oneLine : TextClass :=
  .lacking '\n' (by decide)

theorem notMem_of_mem_splitLines (hc : isLineBreak c = true) (h : line ∈ splitLines code) :
    c ∉ line.toList := by
  suffices hcut : ∀ (cs front : List Char), c ∉ front → ∀ l ∈ splitLinesFrom front cs, c ∉ l by
    obtain ⟨l, hl, rfl⟩ := mem_map.mp h
    rw [String.toList_ofList]
    exact hcut code.toList [] not_mem_nil l hl
  intro cs front hfront
  fun_induction splitLinesFrom front cs with
  | case1 line hempty => simp
  | case2 line hempty => simpa using hfront
  | case3 _ _ ih | case4 _ _ _ _ _ ih => simpa [hfront] using ih not_mem_nil
  | case5 line d rest hne hd ih =>
    refine ih fun hmem => ?_
    rcases mem_cons.mp hmem with rfl | hmem
    · exact hd hc
    · exact hfront hmem

theorem HoldsLines.notMem (h : HoldsLines (.lacking c hc) lines) :
    ∀ l ∈ lines, c ∉ l.text.toList := by
  induction lines with
  | nil => exact forall_mem_nil _
  | cons l lines ih =>
    have hall : c ∉ (l.text ++ "" ++ SketchCompiler.glue "" lines).toList := h
    rw [String.append_empty, String.toList_append, mem_append, not_or] at hall
    exact forall_mem_cons.mpr ⟨hall.1, ih hall.2⟩

-- ==== nodes

/-- The texts that a node holds itself have no line feed. -/
def Node.OneLine (n : Node) : Prop :=
  n.Fits .oneLine

theorem Node.ProperFor.oneLine {lits : Literals} {n : Node} (h : n.ProperFor lits)
    (htext : ∀ view span s typeName, n = .expr view (.literal span (.text s) typeName) →
      SketchCompiler.OneLine s) : n.OneLine :=
  h.fits htext fun _ _ _ _ _ ht => notMem_of_mem_splitLines (by decide) ht

/-- The texts of the lines have no line feed. -/
def AllOneLine (lines : List Line) : Prop :=
  ∀ l ∈ lines, OneLine l.text

-- ==== whole sketches

namespace Sketch

/-- Every line of the parts of the code has the property. -/
structure Sections.All (P : Line → Prop) (s : Sections) : Prop where
  globals : ∀ l ∈ s.globals, P l
  functions : ∀ f ∈ s.functions, ∀ l ∈ f, P l
  setup : ∀ l ∈ s.setup, P l
  loop : ∀ l ∈ s.loop, P l

section All

variable {P : Line → Prop} {cx : EmitContext}

theorem Sections.All.append {a b : Sections} (ha : a.All P) (hb : b.All P) : (a ++ b).All P where
  globals := forall_mem_append.mpr ⟨ha.globals, hb.globals⟩
  functions := forall_mem_append.mpr ⟨ha.functions, hb.functions⟩
  setup := forall_mem_append.mpr ⟨ha.setup, hb.setup⟩
  loop := forall_mem_append.mpr ⟨ha.loop, hb.loop⟩

theorem Sections.All.empty : ({} : Sections).All P :=
  ⟨forall_mem_nil _, forall_mem_nil _, forall_mem_nil _, forall_mem_nil _⟩

theorem ofDecls_all : ∀ {ds : List Stmt} {s : Sections},
    (∀ d ∈ ds, ∀ s, ofDecl cx d = .ok s → s.All P) → ofDecls cx ds = .ok s → s.All P
  | [], _, _, h => by
    cases h
    exact .empty
  | d :: ds, _, hall, h => by
    obtain ⟨first, hfirst, rest, hrest, rfl⟩ := bind₂_ok h
    obtain ⟨hd, hds⟩ := forall_mem_cons.mp hall
    exact (hd first hfirst).append (ofDecls_all hds hrest)

/-- The lines that every sketch has behind its opening. -/
def frame : List Line :=
  ["", "void setup() \x7b", "// setup", "\x7d", "void loop() \x7b", "// loop"].map (⟨·, none⟩)

theorem bodyOr_all (hindent : ∀ l, P l → P l.indent) (hcomment : P ⟨comment, none⟩)
    (h : ∀ l ∈ body, P l) : ∀ l ∈ bodyOr comment body, P l := by
  unfold bodyOr
  split
  · exact forall_mem_singleton.mpr (hindent _ hcomment)
  · rintro l hl
    obtain ⟨m, hm, rfl⟩ := mem_map.mp hl
    exact hindent m (h m hm)

theorem compose_all (hindent : ∀ l, P l → P l.indent) (hframe : ∀ l ∈ frame, P l) (h : s.All P) :
    ∀ l ∈ compose s, P l := by
  simp only [frame, map_cons, map_nil, forall_mem_cons] at hframe
  obtain ⟨hblank, hsetup, hsetup', hclose, hloop, hloop', -⟩ := hframe
  have hgap : ∀ l ∈ (if s.globals.isEmpty then [] else [⟨"", none⟩] : List Line), P l := by
    split
    · exact forall_mem_nil _
    · exact forall_mem_singleton.mpr hblank
  have hfunctions : ∀ l ∈ s.functions.flatMap (· ++ [⟨"", none⟩]), P l := by
    intro l hl
    obtain ⟨f, hf, hl⟩ := mem_flatMap.mp hl
    exact forall_mem_append.mpr
      ⟨h.functions f hf, forall_mem_singleton.mpr hblank⟩ l hl
  have hbody := bodyOr_all hindent hsetup' h.setup
  have hbody' := bodyOr_all hindent hloop' h.loop
  simp only [compose, forall_mem_append, forall_mem_cons]
  exact ⟨⟨⟨⟨⟨⟨⟨⟨h.globals, hgap⟩, hfunctions⟩, hsetup, forall_mem_nil _⟩, hbody⟩, hclose, hblank,
    forall_mem_nil _⟩, hloop, forall_mem_nil _⟩, hbody'⟩, hclose, forall_mem_nil _⟩

end All

theorem forall_mem_lines {P : Line → Prop} {backend : Backend} {p : Program} {sk : Sketch}
    (h : p.sketch backend = .ok sk) (hindent : ∀ l, P l → P l.indent)
    (hopening : ∀ l ∈ opening backend (Headers.ofProgram p), P l) (hframe : ∀ l ∈ frame, P l)
    (hpreamble : ∀ d ∈ p.declarations, ∀ l ∈ structType d ++ taskPrototype d, P l)
    (hdecl : ∀ d ∈ p.declarations, ∀ s,
      ofDecl (context backend p (p.declarations.length + 1)) d = .ok s → s.All P) :
    ∀ l ∈ sk.lines, P l := by
  rw [sketch_eq, bind_eq_ok] at h
  obtain ⟨sections, hsections, hsk⟩ := h
  rw [← pure_eq_ok.mp hsk]
  have hgap : ∀ l ∈ (if (p.declarations.flatMap taskPrototype).isEmpty then []
      else [⟨"", none⟩] : List Line), P l := by
    split
    · exact forall_mem_nil _
    · exact forall_mem_singleton.mpr (hframe _ mem_cons_self)
  have htypes : ∀ l ∈ p.declarations.flatMap structType, P l := by
    intro l hl
    obtain ⟨d, hd, hl⟩ := mem_flatMap.mp hl
    exact hpreamble d hd l (mem_append_left _ hl)
  have hprototypes : ∀ l ∈ p.declarations.flatMap taskPrototype, P l := by
    intro l hl
    obtain ⟨d, hd, hl⟩ := mem_flatMap.mp hl
    exact hpreamble d hd l (mem_append_right _ hl)
  have hglobals : ({ globals := opening backend (Headers.ofProgram p) ++ p.preamble }
      : Sections).All P :=
    { Sections.All.empty with
      globals := forall_mem_append.mpr ⟨hopening, forall_mem_append.mpr
        ⟨htypes, forall_mem_append.mpr ⟨hprototypes, hgap⟩⟩⟩ }
  exact compose_all hindent hframe (hglobals.append (ofDecls_all hdecl hsections))

/-- Each line of a sketch stays on one line. -/
theorem sketch_oneLine {backend : Backend} {p : Program} {sk : Sketch}
    (hp : ∀ n ∈ p.nodes, n.OneLine) (h : p.sketch backend = .ok sk) : AllOneLine sk.lines :=
  (sketch_holds hp h).notMem

end Sketch

end SketchCompiler
