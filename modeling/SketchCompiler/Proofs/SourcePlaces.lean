/-
Every place that is reported for a source is a place of the source: where
one of its tokens starts.  This holds of the spans of the program that is
read, of what the reading reports, and of what an analysis of the program
finds, whether or not there were mistakes to recover from
(`Program.ofSource_places`).
-/
import SketchCompiler.Proofs.FindingPlaces
import SketchCompiler.Proofs.Image
import SketchCompiler.Proofs.TokenPlaces

namespace SketchCompiler

open Grammar

-- ==== reading

/-- The span stands in the file, starts at a token, and ends where it
starts or behind. -/
def Span.Stands (file : String) (tokens : List Token) (s : Span) : Prop :=
  s.file = file ∧ (∃ t ∈ tokens, t.pos = s.start) ∧ s.start ≤ s.stop

theorem Program.ofTokens_places (hsorted : tokens.Pairwise (·.pos < ·.pos))
    (hended : ∃ front stop, tokens = front ++ [stop] ∧ stop.kind = .eof)
    (h : Program.ofTokens file tokens = .ok (p, errors)) :
    (∀ s ∈ p.spans, s.Stands file tokens) ∧ ∀ e ∈ errors, ∃ t ∈ tokens, t.pos = e.pos := by
  obtain ⟨start, c, rfl, rfl, hclean, hsees, rfl, hfits⟩ := Program.ofTokens_ok True h
  have hends : start.Ends := by
    obtain ⟨front, stop, htokens, hstop⟩ := hended
    exact ⟨stop, by simp [htokens], hstop⟩
  refine ⟨fun s hs => ?_, fun e he => ?_⟩
  · obtain ⟨t, t', ⟨rest, rest', hstart, hrest, -⟩, hpos, hstop⟩ := (hfits.spans s hs).places
    refine ⟨(hfits.spans s hs).file, ⟨t, hstart.subset List.mem_cons_self, hpos⟩, ?_⟩
    -- where the span ends is the same token or a later one
    have hle : t.pos ≤ t'.pos := by
      rcases List.mem_cons.mp (hrest.subset List.mem_cons_self) with rfl | hmem
      · exact le_rfl
      · exact ((List.pairwise_cons.mp (hsorted.sublist hstart.sublist)).1 t' hmem).le
    exact hpos ▸ hle.trans hstop
  · rcases hsees.errors hends e he with hold | hnew
    · rw [hclean] at hold
      exact absurd hold List.not_mem_nil
    · exact hnew

theorem Program.ofSource_stands (h : Program.ofSource file source = .ok src) :
    ∃ scanned, Token.scan source = .ok scanned ∧ scanned.tokens.Pairwise (·.pos < ·.pos)
      ∧ (∀ s ∈ src.program.spans, s.Stands file scanned.tokens)
      ∧ ∀ e ∈ src.parseErrors, ∃ t ∈ scanned.tokens, t.pos = e.pos := by
  obtain ⟨tokens, hscan, hread⟩ := Program.ofSource_ok h
  obtain ⟨hsorted, hended⟩ := Token.scan_ordered hscan
  obtain ⟨hspans, herrors⟩ := Program.ofTokens_places hsorted hended hread
  exact ⟨_, hscan, hsorted, hspans, herrors⟩

-- ==== analysing

theorem Program.mem_spans {p : Program} {d : Stmt} (hd : d ∈ p.declarations) {s : Span}
    (hs : s ∈ d.spans) : s ∈ p.spans := by
  unfold Program.spans
  rw [stmtsSpans_eq]
  exact List.mem_flatMap.mpr ⟨d, hd, hs⟩

theorem Program.analyze_places {p : Program} {file : String} (h : ∀ s ∈ p.spans, s.file = file)
    {board : String} {i : Issue} (hi : i ∈ (p.analyze board).issues) :
    ∃ s ∈ p.spans, s.start = i.place := by
  rw [← Program.attributed_issues] at hi
  obtain ⟨⟨d, i⟩, hmem, rfl⟩ := List.mem_map.mp hi
  have hfile : ∀ d ∈ p.declarations, ∀ span ∈ d.spans, span.file = d.span.file := by
    intro d hd span hspan
    rw [h span (Program.mem_spans hd hspan), h d.span (Program.mem_spans hd d.span_mem_spans)]
  obtain ⟨hd, hat⟩ := Program.mem_attributed hfile hmem
  obtain ⟨s, hs, hplace⟩ := hat.place
  exact ⟨s, Program.mem_spans hd hs, hplace⟩

/-- Whatever is reported about a source that is read, mistakes or not, is
at one of its tokens: they are in strict order; every span of the program
starts at one and does not end in front of it; and so do the reports of
the reading and the findings of any analysis. -/
theorem Program.ofSource_places {file source : String} {src : Source}
    (h : Program.ofSource file source = .ok src) :
    ∃ scanned, Token.scan source = .ok scanned ∧ scanned.tokens.Pairwise (·.pos < ·.pos)
      ∧ (∀ s ∈ src.program.spans, (∃ t ∈ scanned.tokens, t.pos = s.start) ∧ s.start ≤ s.stop)
      ∧ (∀ e ∈ src.parseErrors, ∃ t ∈ scanned.tokens, t.pos = e.pos)
      ∧ ∀ board, ∀ i ∈ (src.program.analyze board).issues,
        ∃ t ∈ scanned.tokens, t.pos = i.place := by
  obtain ⟨scanned, hscan, hsorted, hspans, herrors⟩ := Program.ofSource_stands h
  refine ⟨scanned, hscan, hsorted, fun s hs => (hspans s hs).2, herrors, fun board i hi => ?_⟩
  obtain ⟨s, hs, hplace⟩ := Program.analyze_places (fun s hs => (hspans s hs).1) hi
  rw [← hplace]
  exact (hspans s hs).2.1

/-- A source with mistakes: a parameter without a type, a variable in the
middle of a statement, a name that is not declared. -/
def brokenText : String :=
  "fn f(a) -> int \x7b return 1; \x7d\nlet x = 1 let y = 2;\nfn g() -> int \x7b return z; \x7d"

/-- The source is read, with reports and findings. -/
def readsBroken (source : String) : Bool :=
  match Program.ofSource "sketch" source with
  | .ok src => !src.parseErrors.isEmpty && !(src.program.analyze "esp32").issues.isEmpty
  | .error _ => false

/-- What is reported and found in it is at its tokens. -/
theorem Program.ofSource_places_broken :
    ∃ src scanned, Program.ofSource "sketch" brokenText = .ok src ∧ src.parseErrors ≠ []
      ∧ (src.program.analyze "esp32").issues ≠ [] ∧ Token.scan brokenText = .ok scanned
      ∧ ∀ i ∈ (src.program.analyze "esp32").issues, ∃ t ∈ scanned.tokens, t.pos = i.place := by
  have hbroken : readsBroken brokenText = true := by decide +kernel
  unfold readsBroken at hbroken
  split at hbroken
  · rename_i src hsrc
    simp only [Bool.and_eq_true, Bool.not_eq_true', List.isEmpty_eq_false_iff] at hbroken
    obtain ⟨scanned, hscan, -, -, -, hissues⟩ := Program.ofSource_places hsrc
    exact ⟨src, scanned, hsrc, hbroken.1, hbroken.2, hscan, hissues "esp32"⟩
  · cases hbroken

end SketchCompiler
