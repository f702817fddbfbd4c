/-
Line ends.  A file is read with a line feed for every line end, so no
carriage return is in a source, nor in a string that is scanned from it;
raw code is cut at its line breaks.  Generated code has none either
(`Accepts.code_lineFeeds`), and is read back from its file as it was
written.
-/
import SketchCompiler.Proofs.BuildOutcome
import SketchCompiler.Proofs.Image
import SketchCompiler.Proofs.Layout
import SketchCompiler.Proofs.OneLine

namespace SketchCompiler

open List ModuleGraph

variable {t : FileTree} {p : Program} {backend : Backend} {sk : Sketch}

-- ==== reading

theorem Text.notMem_unifyNewlines (cs : List Char) : '\r' ∉ Text.unifyNewlines cs := by
  fun_induction Text.unifyNewlines cs with
  | case1 => exact not_mem_nil
  | case2 rest ih => simpa using ih
  | case3 rest hrest ih => simpa using ih
  | case4 c rest hcr hc ih => simpa [ih] using fun h => hc h.symm

theorem Text.withLineFeeds_eq (h : '\r' ∉ s.toList) : Text.withLineFeeds s = s := by
  suffices hsame : ∀ cs : List Char, '\r' ∉ cs → Text.unifyNewlines cs = cs by
    rw [Text.withLineFeeds, hsame _ h, String.ofList_toList]
  intro cs hcs
  fun_induction Text.unifyNewlines cs with
  | case1 => rfl
  | case2 | case3 => exact absurd mem_cons_self hcs
  | case4 c rest hcr hc ih => rw [ih fun hmem => hcs (mem_cons_of_mem _ hmem)]

theorem FileTree.read_cases {p : Path} {text : String} (h : t.read p = .ok text) :
    ∃ place s, t.locate p = .reached place ∧ t.entry? place = some (.file (.text s))
      ∧ text = Text.withLineFeeds s := by
  unfold FileTree.read at h
  split at h
  · cases h
  · cases h
  rename_i place hlocate
  split at h
  · cases h
  · cases h
  · cases h
  · rename_i s hentry
    cases h
    exact ⟨place, s, hlocate, hentry, rfl⟩

theorem ModuleGraph.load_cases {p : Path} {m : Module} (h : load t p = .ok m) :
    ∃ text, '\r' ∉ text.toList ∧ Program.ofSource p.text text = .ok m.source := by
  unfold load at h
  cases hread : t.read p with
  | error e =>
    rw [hread] at h
    cases h
  | ok text =>
    simp only [hread, Except.mapError, bind, Except.bind] at h
    obtain ⟨-, s, -, -, rfl⟩ := FileTree.read_cases hread
    refine ⟨Text.withLineFeeds s, ?_, ?_⟩
    · rw [Text.withLineFeeds, String.toList_ofList]
      exact Text.notMem_unifyNewlines _
    · split at h
      · cases h
      · rename_i hsource
        cases h
        split at hsource
        · cases hsource
        · rename_i hsource'
          cases hsource
          exact hsource'

-- ==== scanning

theorem notMem_decodeEscapes (h : decodeEscapes cs = some vs) (hcs : '\r' ∉ cs) : '\r' ∉ vs := by
  fun_induction decodeEscapes cs generalizing vs with
  | case1 =>
    cases h
    exact not_mem_nil
  | case2 c rest ih =>
    obtain ⟨vs, hvs, rfl⟩ := Option.map_eq_some_iff.mp h
    simp only [mem_cons, not_or] at hcs ⊢
    refine ⟨?_, ih hvs hcs.2.2⟩
    unfold unescape
    split
    · decide
    · decide
    · exact hcs.2.1
  | case3 => cases h
  | case4 c rest hc hplain ih =>
    obtain ⟨vs, hvs, rfl⟩ := Option.map_eq_some_iff.mp h
    simp only [mem_cons, not_or] at hcs ⊢
    exact ⟨hcs.1, ih hvs hcs.2⟩

/-- A string word has no carriage return that the source lacks. -/
theorem Layout.lineFeeds (h : Layout cs ws) (hcs : '\r' ∉ cs) :
    ∀ w ∈ ws, w.kind = .string → '\r' ∉ w.lexeme.toList := by
  induction h with
  | done => exact forall_mem_nil _
  | @word g spelling behind w ws hg hspelled hmax hws ih =>
    simp only [mem_append, not_or] at hcs
    refine forall_mem_cons.mpr ⟨fun hkind => ?_, ih hcs.2.2⟩
    unfold Word.SpelledBy at hspelled
    rw [hkind] at hspelled
    obtain ⟨body, rfl, hbody⟩ := hspelled
    refine notMem_decodeEscapes hbody fun hmem => hcs.2.1 ?_
    exact mem_append_left _ (mem_cons_of_mem _ hmem)

/-- Any fractions, and texts without a carriage return. -/
def Literals.lineFeeds : Literals where
  floats := True
  texts s := '\r' ∉ s.toList

theorem Program.ofSource_lineFeeds (h : Program.ofSource file source = .ok src)
    (hscan : src.scanErrors = []) (hparse : src.parseErrors = [])
    (hsource : '\r' ∉ source.toList) :
    src.program.Proper .lineFeeds := by
  obtain ⟨tokens, htokens, -⟩ := Program.ofSource_ok h
  refine Program.ofSource_literals h hscan hparse fun scanned hscanned t ht =>
    ⟨fun _ => trivial, ?_⟩
  rw [htokens] at hscanned
  cases hscanned
  obtain ⟨ts, stop, rfl, hstop, -, hlayout⟩ := scanFrom_layout _ (Nat.le_refl _) htokens hscan
  intro hkind
  rcases mem_append.mp ht with ht | ht
  · exact hlayout.lineFeeds hsource t.word (mem_map_of_mem ht) hkind
  · rw [mem_singleton.mp ht, show stop.kind = .eof from congrArg Word.kind hstop] at hkind
    cases hkind

-- ==== generated code

theorem Program.Proper.code_lineFeeds (hp : p.Proper .lineFeeds) (h : p.sketch backend = .ok sk) :
    '\r' ∉ sk.code.toList := by
  have hcr : (Text.isVisible '\r' || isWordChar '\r') = false := by decide
  have hfits : ∀ n ∈ p.nodes, n.Fits (.lacking '\r' hcr) := by
    intro n hn
    have hproper := hp.nodes n hn
    refine hproper.fits ?_ fun _ _ _ _ _ ht => notMem_of_mem_splitLines (by decide) ht
    rintro view span s typeName rfl
    rcases hproper with hproper | hproper
    · exact hproper.1
    · cases hproper
  have hbreak : '\r' ∉ "\n".toList := by decide
  exact (Sketch.sketch_holds hfits h).code hbreak

theorem BuildOrder.Accepts.code_lineFeeds {order : BuildOrder} {modules : List Path}
    (haccepts : order.Accepts t modules p) (h : p.sketch backend = .ok sk) :
    '\r' ∉ sk.code.toList := by
  refine Program.Proper.code_lineFeeds (stmtsProper_iff.mpr fun d hd => ?_) h
  rw [haccepts.declarations] at hd
  obtain ⟨q, hq, hd⟩ := mem_flatMap.mp hd
  obtain ⟨m, hload, hscan, hparse, -⟩ := haccepts.clean q hq
  obtain ⟨text, htext, hsource⟩ := load_cases hload
  unfold BuildOrder.ownDeclarations at hd
  rw [hload] at hd
  exact stmtsProper_iff.mp (Program.ofSource_lineFeeds hsource hscan hparse htext) d
    (mem_filter.mp hd).1

end SketchCompiler
