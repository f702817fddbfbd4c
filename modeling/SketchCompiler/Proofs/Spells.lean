/-
What a parser has read when nothing is reported.  `Spells K p D` says: a
run of `p` from a cursor whose next word satisfies `K` never takes a
report back, gives up only with one, and if there is none at the end,
then the words it has read, which are those in front of what is left,
are related by `D` to the value it yields.

As with what a parser yields, whether there will be a report is decided
by what is read later.  So behind a parser with the relation `D` the rest
is described for every value, under the premise that the words read
before are related to it (`Spells.bind`).
-/
import SketchCompiler.Proofs.Reads
import SketchCompiler.Proofs.Tracks

namespace SketchCompiler

open List

variable {α β : Type} {K : Word → Prop}
  {c : Cursor} {D : α → List Word → Prop} {r : Parsed α} {t : Token} {kinds : List Kind}
  {k : Kind} {what : String}

/-- No condition on a word. -/
def anyWord (_ : Word) : Prop :=
  True

/-- The outcome of a parser run from a cursor: reports are only added,
and without any the words read are related to the value. -/
def Parsed.Spells (c : Cursor) (D : α → List Word → Prop) : Parsed α → Prop
  | .ok a c' => c'.errors = [] → c.errors = [] ∧ ∃ ts : List Token, c.rest = ts ++ c'.rest
      ∧ (∀ t ∈ ts, t.kind ≠ .eof) ∧ D a (ts.map Token.word)
  | .failed c' => c'.errors ≠ []
  | .abort _ => True
  | .exhausted => True

/-- Run where the next word satisfies `K`, the parser reads words that
are related to its value, unless something is reported. -/
def Spells (K : Word → Prop) (p : Parser α) (D : α → List Word → Prop) : Prop :=
  ∀ c : Cursor, K c.peek.word → (p c).Spells c D

theorem Parsed.Spells.mono {E : α → List Word → Prop} (h : r.Spells c D)
    (hDE : ∀ a ws, D a ws → E a ws) : r.Spells c E := by
  cases r with
  | ok a c' =>
    intro herr
    obtain ⟨herr₀, ts, hrest, heof, hD⟩ := h herr
    exact ⟨herr₀, ts, hrest, heof, hDE _ _ hD⟩
  | failed c' => exact h
  | abort e => trivial
  | exhausted => trivial

theorem Parsed.Spells.of_advance (hk : c.kind ≠ .eof)
    (h : r.Spells c.advance fun a ws => D a (c.peek.word :: ws)) : r.Spells c D := by
  have hrest : c.rest = c.peek :: c.advance.rest := by
    have hend : c.atEnd = false := decide_eq_false hk
    unfold Cursor.advance
    rw [hend]
    cases hc : c.rest with
    | nil =>
      unfold Cursor.kind Cursor.peek at hk
      rw [hc] at hk
      exact absurd rfl hk
    | cons t rest =>
      unfold Cursor.peek
      rw [hc]
      rfl
  cases r with
  | ok a c' =>
    intro herr
    obtain ⟨herr₀, ts, hts, heof, hD⟩ := h herr
    refine ⟨by rw [← c.advance_errors]; exact herr₀, c.peek :: ts, ?_, ?_, hD⟩
    · rw [hrest, hts]
      rfl
    · intro t ht
      rcases mem_cons.mp ht with rfl | ht
      · exact hk
      · exact heof t ht
  | failed c' => exact h
  | abort e => trivial
  | exhausted => trivial

namespace Spells

variable {p : Parser α} {f : α → Parser β} {D : α → List Word → Prop} {E : β → List Word → Prop}

theorem mono {L : Word → Prop} {D' : α → List Word → Prop} (h : Spells K p D)
    (hK : ∀ w, L w → K w) (hD : ∀ a ws, D a ws → D' a ws) : Spells L p D' :=
  fun c hc => (h c (hK _ hc)).mono hD

theorem imp {D' : α → List Word → Prop} (h : Spells K p D) (hD : ∀ a ws, D a ws → D' a ws) :
    Spells K p D' :=
  h.mono (fun _ hw => hw) hD

/-- Two relations at once. -/
theorem and (h : Spells K p D) (h' : Spells K p D') : Spells K p fun a ws => D a ws ∧ D' a ws := by
  intro c hc
  have hrun := h c hc
  have hrun' := h' c hc
  cases hr : p c with
  | ok a c₁ =>
    rw [hr] at hrun hrun'
    intro herr
    obtain ⟨herr₀, ts, hrest, heof, hD⟩ := hrun herr
    obtain ⟨-, ts', hrest', -, hD'⟩ := hrun' herr
    -- what was read is determined by what is left
    obtain rfl : ts = ts' := append_cancel_right (hrest.symm.trans hrest')
    exact ⟨herr₀, ts, hrest, heof, hD, hD'⟩
  | failed c₁ =>
    rw [hr] at hrun
    exact hrun
  | abort e => trivial
  | exhausted => trivial

-- ==== values and sequence

theorem pure (h : D a []) : Spells K (Pure.pure a) D :=
  fun _ _ herr => ⟨herr, [], rfl, fun _ ht => absurd ht not_mem_nil, h⟩

theorem bind (hp : Spells K p D)
    (hf : ∀ a, Spells anyWord (f a) fun b v => ∀ u, D a u → E b (u ++ v)) :
    Spells K (p >>= f) E := by
  intro c hc
  have h := hp c hc
  show (Parser.bind p f c).Spells c E
  unfold Parser.bind
  cases hr : p c with
  | ok a c₁ =>
    rw [hr] at h
    have h' := hf a c₁ trivial
    show (f a c₁).Spells c E
    cases hr' : f a c₁ with
    | ok b c₂ =>
      rw [hr'] at h'
      intro herr
      obtain ⟨herr₁, ts₂, hrest₂, heof₂, hE⟩ := h' herr
      obtain ⟨herr₀, ts₁, hrest₁, heof₁, hD⟩ := h herr₁
      refine ⟨herr₀, ts₁ ++ ts₂, ?_, ?_, ?_⟩
      · rw [hrest₁, hrest₂, append_assoc]
      · intro t ht
        rcases mem_append.mp ht with ht | ht
        · exact heof₁ t ht
        · exact heof₂ t ht
      · rw [map_append]
        exact hE _ hD
    | failed c₂ =>
      rw [hr'] at h'
      exact h'
    | abort e => trivial
    | exhausted => trivial
  | failed c₁ =>
    rw [hr] at h
    exact h
  | abort e => trivial
  | exhausted => trivial

/-- A parser that only looks, in front of another. -/
theorem look (hlook : ∀ c : Cursor, ∃ a, p c = .ok a c) (hf : ∀ a, Spells K (f a) E) :
    Spells K (p >>= f) E := by
  intro c hc
  obtain ⟨a, hrun⟩ := hlook c
  show (Parser.bind p f c).Spells c E
  unfold Parser.bind
  rw [hrun]
  exact hf a c hc

theorem spanOf {f : Span → Parser β} (hf : ∀ s, Spells K (f s) E) :
    Spells K (Parser.spanOf t >>= f) E :=
  look (fun c => ⟨t.span c.file, rfl⟩) hf

theorem between {s : Token} {f : Span → Parser β} (hf : ∀ s, Spells K (f s) E) :
    Spells K (Parser.between s t >>= f) E :=
  look (fun c => ⟨Span.between c.file s t, rfl⟩) hf

theorem file {f : String → Parser β} (hf : ∀ s, Spells K (f s) E) :
    Spells K (Parser.file >>= f) E :=
  look (fun c => ⟨c.file, rfl⟩) hf

theorem failAt (t : Token) (issue : ParseIssue) : Spells K (Parser.failAt t issue) D :=
  fun c _ => c.report_errors_ne t issue

theorem failHere (issue : ParseIssue) : Spells K (Parser.failHere issue) D :=
  fun c _ => c.report_errors_ne c.peek issue

theorem reportAt {issue : ParseIssue} {f : Unit → Parser β} {E' : β → List Word → Prop}
    (hf : Spells anyWord (f ()) E') : Spells K (Parser.reportAt t issue >>= f) E := by
  intro c _
  have h := hf (c.report t issue) trivial
  show (f () (c.report t issue)).Spells c E
  cases hr : f () (c.report t issue) with
  | ok b c' =>
    rw [hr] at h
    exact fun herr => absurd (h herr).1 (c.report_errors_ne t issue)
  | failed c' =>
    rw [hr] at h
    exact h
  | abort e => trivial
  | exhausted => trivial

theorem number {read : Except NumeralError α} (hf : ∀ a, read = .ok a → Spells K (f a) E) :
    Spells K (Parser.number read >>= f) E := by
  intro c hc
  cases read with
  | ok a => exact hf a rfl c hc
  | error e => trivial

-- ==== single tokens

theorem kind {f : Kind → Parser β}
    (hf : ∀ k, Spells (fun w => K w ∧ w.kind = k) (f k) E) : Spells K (Parser.kind >>= f) E :=
  fun c hc => hf c.kind c ⟨hc, rfl⟩

theorem get {f : Cursor → Parser β}
    (hf : ∀ c : Cursor, K c.peek.word → Spells (· = c.peek.word) (f c) E) :
    Spells K (Parser.get >>= f) E :=
  fun c hc => hf c hc c rfl

theorem next {f : Token → Parser β} (hK : ∀ w, K w → w.kind ≠ .eof)
    (hf : ∀ t : Token, K t.word → Spells anyWord (f t) fun b ws => E b (t.word :: ws)) :
    Spells K (Parser.next >>= f) E := by
  intro c hc
  have hk : c.kind ≠ .eof := hK _ hc
  refine Parsed.Spells.of_advance hk ?_
  show (f c.advance.last c.advance).Spells c.advance _
  rw [Cursor.advance_last hk]
  exact hf c.peek hc c.advance trivial

theorem acceptAny {f : Option Token → Parser β} (heof : .eof ∉ kinds)
    (hsome : ∀ t : Token, K t.word → t.kind ∈ kinds →
      Spells anyWord (f (some t)) fun b ws => E b (t.word :: ws))
    (hnone : Spells (fun w => K w ∧ w.kind ∉ kinds) (f none) E) :
    Spells K (Parser.acceptAny kinds >>= f) E := by
  intro c hc
  show (Parser.bind (Parser.acceptAny kinds) f c).Spells c E
  unfold Parser.bind Parser.acceptAny
  by_cases hmem : kinds.contains c.kind = true
  · rw [if_pos hmem]
    have hmem' : c.kind ∈ kinds := contains_iff_mem.mp hmem
    have hk : c.kind ≠ .eof := fun h => heof (h ▸ hmem')
    refine Parsed.Spells.of_advance hk ?_
    show (f (some c.advance.last) c.advance).Spells c.advance _
    rw [Cursor.advance_last hk]
    exact hsome c.peek hc hmem' c.advance trivial
  · rw [if_neg hmem]
    exact hnone c ⟨hc, fun h => hmem (contains_iff_mem.mpr h)⟩

theorem accept {f : Option Token → Parser β} (heof : k ≠ .eof) (hsome : ∀ t : Token, t.kind = k →
      Spells anyWord (f (some t)) fun b ws => E b (t.word :: ws))
    (hnone : Spells (fun w => K w ∧ w.kind ≠ k) (f none) E) : Spells K (Parser.accept k >>= f) E :=
  acceptAny (by simpa using heof.symm)
    (fun t _ ht => hsome t (mem_singleton.mp ht))
    (hnone.mono (fun w hw => ⟨hw.1, by simpa using hw.2⟩) fun _ _ h => h)

theorem accepts {f : Bool → Parser β} (heof : k ≠ .eof)
    (htrue : ∀ w : Word, w.kind = k → Spells anyWord (f true) fun b ws => E b (w :: ws))
    (hfalse : Spells (fun w => K w ∧ w.kind ≠ k) (f false) E) :
    Spells K (Parser.accepts k >>= f) E := by
  have h : Spells K (Parser.accept k >>= fun t? => f t?.isSome) E :=
    accept heof (fun t ht => htrue t.word ht) hfalse
  intro c hc
  have hrun : (Parser.accepts k >>= f) c = (Parser.accept k >>= fun t? => f t?.isSome) c := by
    show Parser.bind (Parser.bind _ _) f c = Parser.bind _ _ c
    unfold Parser.bind
    cases Parser.accept k c <;> rfl
  rw [hrun]
  exact h c hc

theorem expectAny {f : Token → Parser β} (heof : .eof ∉ kinds) (hf : ∀ t : Token, t.kind ∈ kinds →
      Spells anyWord (f t) fun b ws => E b (t.word :: ws)) :
    Spells K (Parser.expectAny kinds what >>= f) E := by
  unfold Parser.expectAny
  rw [Parser.bind_assoc]
  exact acceptAny heof (fun t _ ht => hf t ht) fun c _ => c.report_errors_ne c.peek _

theorem expect {f : Token → Parser β} (heof : (k == .eof) = false)
    (hf : ∀ t : Token, t.kind = k → Spells anyWord (f t) fun b ws => E b (t.word :: ws)) :
    Spells K (Parser.expect k what >>= f) E :=
  expectAny (by simpa using Ne.symm (ne_of_beq_false heof)) fun t ht => hf t (mem_singleton.mp ht)

-- ==== loops

/-- What a round leaves: a state to go on from, or the result. -/
def Leaves (I : α → List Word → Prop) (E : β → List Word → Prop) (ws : List Word) :
    Parser.Round α β → Prop
  | .again a => I a ws
  | .done b => E b ws

theorem rounds
    (hstep : ∀ a, Spells anyWord (step a) fun r v => ∀ u, I a u → Leaves I E (u ++ v) r)
    (bound : List Token) (a : α) :
    Spells anyWord (Parser.rounds step bound a) fun b v => ∀ u, I a u → E b (u ++ v) := by
  induction bound generalizing a with
  | nil =>
    refine (hstep a).bind fun r => ?_
    cases r with
    | again a' => exact fun _ _ => trivial
    | done b =>
      refine pure fun u hu u' hI => ?_
      rw [append_nil]
      exact hu u' hI
  | cons _ bound ih =>
    refine (hstep a).bind fun r => ?_
    cases r with
    | again a' =>
      refine (ih a').imp fun b v hE u hu u' hI => ?_
      rw [← append_assoc]
      exact hE _ (hu u' hI)
    | done b =>
      refine pure fun u hu u' hI => ?_
      rw [append_nil]
      exact hu u' hI

/-- A loop that keeps a relation between its state and the words read so
far. -/
theorem loop (hstep : ∀ a, Spells anyWord (step a) fun r v => ∀ u, I a u → Leaves I E (u ++ v) r)
    (a : α) : Spells anyWord (Parser.loop step a) fun b v => ∀ u, I a u → E b (u ++ v) :=
  fun c hc => rounds hstep c.rest a c hc

end Spells

end SketchCompiler
