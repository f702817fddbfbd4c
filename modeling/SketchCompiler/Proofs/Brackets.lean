/-
Brackets of generated code.  Every round and curly bracket that generated
code opens is closed again, the innermost one first, in the code as a
whole and in what is written for each expression
(`Program.sketch_balanced`).

A text is read with the stack of the brackets that are open
(`Text.openAfter`).  One that leaves the empty stack leaves every stack as
it is, so the balanced texts are a class of texts.

Strings and raw code are written as they stand, and can hold any bracket:
the result is about programs without them.
-/
import SketchCompiler.Proofs.LineOrigin

namespace SketchCompiler

open Text

-- ==== balanced texts

/-- Every bracket is closed that is opened, the innermost one first. -/
def Balanced (s : String) : Prop :=
  openAfter s.toList [] = some []

instance : DecidablePred Balanced :=
  fun s => inferInstanceAs (Decidable (openAfter s.toList [] = some []))

theorem openAfter_append (as bs stack : List Char) :
    openAfter (as ++ bs) stack = (openAfter as stack).bind (openAfter bs) := by
  fun_induction openAfter as stack with
  | case1 => rfl
  | case2 _ _ ih | case3 _ _ ih | case4 _ _ ih | case5 _ _ ih => simpa [openAfter] using ih
  | case6 cs stack hne => simp [openAfter]
  | case7 cs stack hne => simp [openAfter]
  | case8 c cs stack => simp_all [openAfter]

theorem openAfter_under (h : openAfter cs stack = some rest) (below : List Char) :
    openAfter cs (stack ++ below) = some (rest ++ below) := by
  fun_induction openAfter cs stack with
  | case1 stack => simpa [openAfter] using h
  | case2 _ _ ih | case3 _ _ ih | case4 _ _ ih | case5 _ _ ih => simpa [openAfter] using ih h
  | case6 => cases h
  | case7 => cases h
  | case8 c cs stack => simp_all [openAfter]

theorem Balanced.openAfter (h : Balanced s) (stack : List Char) :
    Text.openAfter s.toList stack = some stack := by
  have hunder := openAfter_under h stack
  rwa [List.nil_append] at hunder

theorem openAfter_plain (h : ∀ c ∈ cs, isPlain c = true) (stack : List Char) :
    Text.openAfter cs stack = some stack := by
  have hbrackets : ∀ c ∈ ['(', ')', '\x7b', '\x7d'], (!isPlain c) = true :=
    List.all_eq_true.mp (by decide)
  induction cs with
  | nil => rfl
  | cons c cs ih =>
    obtain ⟨hc, hcs⟩ := List.forall_mem_cons.mp h
    have hne : ∀ b ∈ ['(', ')', '\x7b', '\x7d'], c ≠ b := by
      rintro b hb rfl
      have hbracket := hbrackets c hb
      rw [hc] at hbracket
      cases hbracket
    simp only [List.forall_mem_cons] at hne
    rw [Text.openAfter]
    · exact ih hcs
    all_goals simp_all

/-- The balanced texts. -/
def TextClass.balanced : TextClass where
  Holds := Balanced
  plain h := openAfter_plain h []
  fixed h := by
    rw [isFixed, Bool.and_eq_true] at h
    rw [Balanced, String.toList_ofList]
    exact beq_iff_eq.mp h.2
  insert hw a b := by
    have hskip : (Text.openAfter a.toList []).bind (Text.openAfter _)
        = Text.openAfter a.toList [] :=
      (Option.bind_congr fun stack _ => hw.openAfter stack).trans (Option.bind_fun_some _)
    simp only [Balanced, String.toList_append, openAfter_append, hskip]

-- ==== whole programs

/-- The raw code of a node. -/
def Node.rawCode? : Node → Option String
  | .stmt _ (.raw _ code) => some code
  | _ => none

/-- The brackets of generated code are balanced.  For a program that is
read without errors and holds neither strings nor raw code, and every
target that it has code for, those of the code are, and those of what is
written for each of its expressions; and where `setup` and `loop` begin
that the board calls, every bracket before them is closed. -/
theorem Program.sketch_balanced {file source : String} {src : Source}
    (h : Program.ofSource file source = .ok src) (hscan : src.scanErrors = [])
    (hparse : src.parseErrors = [])
    (hplain : ∀ n ∈ src.program.nodes, n.text? = none ∧ n.rawCode? = none)
    {backend : Backend} {sk : Sketch} (hsk : src.program.sketch backend = .ok sk) :
    Balanced sk.code
      ∧ (∀ view e, .expr view e ∈ src.program.nodes → ∀ bound text,
        Emit.expr (Sketch.context backend src.program bound) e = .ok text → Balanced text)
      ∧ ∃ s : Sketch.Sections, sk.lines = Sketch.compose s
        ∧ sk.lines = Sketch.declared s
          ++ Sketch.boardFunction "void setup() \x7b" "// setup" s.setup ++ [⟨"", none⟩]
          ++ Sketch.boardFunction "void loop() \x7b" "// loop" s.loop
        ∧ Balanced (glue "\n" (Sketch.declared s))
        ∧ Balanced (glue "\n" (Sketch.declared s
          ++ Sketch.boardFunction "void setup() \x7b" "// setup" s.setup ++ [⟨"", none⟩])) := by
  have hp : src.program.Proper True := Program.proper_of_clean h hscan hparse
  have hfits : ∀ n ∈ src.program.nodes, n.Fits .balanced := by
    intro n hn
    refine (hp.nodes n hn).fits ?_ ?_
    · rintro view span s typeName rfl
      cases (hplain _ hn).1
    · rintro view span code rfl
      cases (hplain _ hn).2
  have hbreak : Balanced "\n" := by decide
  refine ⟨(Sketch.sketch_holds hfits hsk).code hbreak, ?_, ?_⟩
  · intro view e he bound text htext
    have hnodes : ∀ n ∈ e.nodes view, n.Fits .balanced := fun n hn =>
      hfits n (src.program.nodes_closed _ he hn)
    exact expr_holds (Sketch.core_holds hfits backend bound) e hnodes htext
  · obtain ⟨s, hs, hlines⟩ := Sketch.exists_fit_sections hfits hsk
    obtain ⟨hdeclared, hsetup, -⟩ := Sketch.compose_holds hs
    refine ⟨s, hlines, ?_, hdeclared.glue hbreak, hsetup.glue hbreak⟩
    rw [hlines, Sketch.compose_eq]

/-- A source that is read without errors, holds neither strings nor raw
code and has code. -/
def hasPlainCode (backend : Backend) (source : String) : Bool :=
  match Program.ofSource "sketch" source with
  | .error _ => false
  | .ok src =>
    src.scanErrors.isEmpty && src.parseErrors.isEmpty
      && src.program.nodes.all (fun n => n.text?.isNone && n.rawCode?.isNone)
      && (src.program.sketch backend).toBool

/-- A struct, a value block inside a call, a loop with a header and a
match. -/
def bracketedSource : String :=
  "struct P \x7b x: int; \x7d let p = P(x: (1 + 2) * 3); "
    ++ "fn f(n: int) -> int \x7b "
    ++ "return f(if (n > 0) \x7b let m = n - 1; m \x7d else \x7b 0 \x7d); \x7d "
    ++ "loop \x7b for (let i = 0; i < 3; i++) \x7b match (i) \x7b 0 => \x7b f(i); \x7d "
    ++ "_ => \x7b \x7d \x7d \x7d \x7d"

/-- The code of such a source is balanced. -/
theorem Program.sketch_balanced_nested :
    ∃ src sk, Program.ofSource "sketch" bracketedSource = .ok src
      ∧ src.program.sketch .esp32 = .ok sk ∧ Balanced sk.code := by
  have hcode : hasPlainCode .esp32 bracketedSource = true := by
    decide +kernel
  unfold hasPlainCode at hcode
  split at hcode
  · cases hcode
  · rename_i src hsrc
    simp only [Bool.and_eq_true, List.isEmpty_iff, List.all_eq_true, Option.isNone_iff_eq_none]
      at hcode
    obtain ⟨⟨⟨hscan, hparse⟩, hplain⟩, hcode⟩ := hcode
    cases hsk : src.program.sketch .esp32 with
    | error e =>
      rw [hsk] at hcode
      cases hcode
    | ok sk => exact ⟨src, sk, hsrc, hsk, (Program.sketch_balanced hsrc hscan hparse hplain hsk).1⟩

end SketchCompiler
