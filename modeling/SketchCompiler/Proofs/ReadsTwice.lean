/-
Two readings of the same words.  `ReadsTwice d p q ws S μ P` says: in
front of tokens whose words are `ws`, with a kind behind them that
satisfies `S`, the parser `p` reads exactly those tokens, reports nothing
and yields a value that satisfies `P`; and in front of the same tokens
`d` lines further down, whatever else is different, the parser `q` reads
those and yields that value, moved.

So a statement says at once that a rule can read something and that what
it yields depends on nothing but the tokens it reads and the file.
-/
import Mathlib.Data.List.Induction
import SketchCompiler.Proofs.MovedDown
import SketchCompiler.Proofs.Reads

namespace SketchCompiler

open List

variable {α β : Type} {d : Nat}
  {c : Cursor} {rest : List Token} {t : Token} {kinds : List Kind} {k : Kind} {what : String}

/-- The cursor behind tokens, with others left. -/
def Cursor.past (c : Cursor) (ts rest : List Token) : Cursor :=
  { c with rest, last := ts.getLastD c.last }

theorem Cursor.past_nil (h : c.rest = rest) : c.past [] rest = c := by
  subst h
  rfl

theorem Cursor.past_past (c : Cursor) (ts₁ ts₂ r rest : List Token) :
    (c.past ts₁ r).past ts₂ rest = c.past (ts₁ ++ ts₂) rest := by
  unfold Cursor.past
  have hlast : ts₂.getLastD (ts₁.getLastD c.last) = (ts₁ ++ ts₂).getLastD c.last := by
    cases ts₂ using List.reverseRecOn with
    | nil => rw [append_nil]; rfl
    | append_singleton ts₂ t =>
      rw [← append_assoc, getLastD_concat, getLastD_concat]
  rw [← hlast]

theorem words_down (ts : List Token) :
    (ts.map (Token.down d)).map Token.word = ts.map Token.word := by
  rw [map_map]
  rfl

theorem Parser.loop_again (hne : ts ≠ []) (hrest : c.rest = ts ++ rest)
    (h : step a c = .ok (.again a₁) (c.past ts rest))
    (hloop : Parser.loop step a₁ (c.past ts rest) = .ok b c') :
    Parser.loop step a c = .ok b c' := by
  refine Parser.loop_next h ?_ hloop
  rw [hrest, length_append]
  exact Nat.lt_add_of_pos_left (length_pos_of_ne_nil hne)

/-- Two parsers read the same words in two places and yield the same
value, moved. -/
def ReadsTwice (d : Nat) (p q : Parser α) (ws : List Word) (S : Kind → Prop) (μ : α → α)
    (P : α → Prop) : Prop :=
  ∀ (c c' : Cursor) (ts rest rest' : List Token), c'.file = c.file → c.rest = ts ++ rest →
    c'.rest = ts.map (Token.down d) ++ rest' → ts.map Token.word = ws → S (headKind rest) →
    S (headKind rest') → ∃ a, p c = .ok a (c.past ts rest)
      ∧ q c' = .ok (μ a) (c'.past (ts.map (Token.down d)) rest') ∧ P a

namespace ReadsTwice

variable {p q : Parser α} {f g : α → Parser β} {ws ws₁ ws₂ : List Word} {w : Word}
  {S S₁ : Kind → Prop} {μ : α → α} {ν : β → β} {P P₁ : α → Prop} {R : β → Prop}

theorem mono (h : ReadsTwice d p q ws S μ P) (hS : ∀ k, S₁ k → S k) (hP : ∀ a, P a → P₁ a) :
    ReadsTwice d p q ws S₁ μ P₁ := by
  intro c c' ts rest rest' hfile hleft hright hws hstop hstop'
  obtain ⟨a, hp, hq, ha⟩ := h c c' ts rest rest' hfile hleft hright hws (hS _ hstop) (hS _ hstop')
  exact ⟨a, hp, hq, hP a ha⟩

theorem imp (h : ReadsTwice d p q ws S μ P) (hP : ∀ a, P a → P₁ a) : ReadsTwice d p q ws S μ P₁ :=
  h.mono (fun _ hk => hk) hP

/-- The first of two readings is a reading. -/
theorem reads (h : ReadsTwice d p q ws S μ P) (hS : S .eof) : Reads p ws S P := by
  intro c ts rest hrest hws hstop
  obtain ⟨a, hp, -, ha⟩ := h c { c with rest := ts.map (Token.down d) } ts rest [] rfl hrest
    (append_nil _).symm hws hstop hS
  exact ⟨a, ts.getLastD c.last, hp, ha⟩

theorem congr (h : ReadsTwice d p q ws S μ P)
    (hp : ∀ c : Cursor, (∃ k, S k ∧ c.kind = nextKind ws k) → p' c = p c)
    (hq : ∀ c : Cursor, (∃ k, S k ∧ c.kind = nextKind ws k) → q' c = q c) :
    ReadsTwice d p' q' ws S μ P := by
  intro c c' ts rest rest' hfile hleft hright hws hS hS'
  rw [hp c ⟨_, hS, c.kind_eq hleft hws⟩,
    hq c' ⟨_, hS', c'.kind_eq hright ((words_down ts).trans hws)⟩]
  exact h c c' ts rest rest' hfile hleft hright hws hS hS'

-- ==== values and sequence

theorem pure (hb : b = μ a) (ha : P a) : ReadsTwice d (Pure.pure a) (Pure.pure b) [] S μ P := by
  intro c c' ts rest rest' _ hleft hright hws _ _
  obtain rfl := map_eq_nil_iff.mp hws
  have hc : c.past [] rest = c := c.past_nil hleft
  have hc' : c'.past [] rest' = c' := c'.past_nil hright
  refine ⟨a, ?_, ?_, ha⟩
  · rw [hc]
    rfl
  · rw [map_nil, hc', hb]
    rfl

theorem bind (hp : ReadsTwice d p q ws₁ S₁ μ P)
    (hstop : ∀ k, S k → S₁ (nextKind ws₂ k))
    (hf : ∀ a, P a → ReadsTwice d (f a) (g (μ a)) ws₂ S ν R) :
    ReadsTwice d (p >>= f) (q >>= g) (ws₁ ++ ws₂) S ν R := by
  intro c c' ts rest rest' hfile hleft hright hws hS hS'
  obtain ⟨ts₁, ts₂, rfl, h₁, h₂⟩ := map_eq_append_iff.mp hws
  rw [append_assoc] at hleft
  rw [map_append, append_assoc] at hright
  have hmid : S₁ (headKind (ts₂ ++ rest)) := by
    rw [headKind_append h₂]
    exact hstop _ hS
  have hmid' : S₁ (headKind (ts₂.map (Token.down d) ++ rest')) := by
    rw [headKind_append ((words_down ts₂).trans h₂)]
    exact hstop _ hS'
  obtain ⟨a, hpa, hqa, ha⟩ := hp c c' ts₁ _ _ hfile hleft hright h₁ hmid hmid'
  obtain ⟨b, hfb, hgb, hb⟩ := hf a ha (c.past ts₁ (ts₂ ++ rest))
    (c'.past (ts₁.map (Token.down d)) (ts₂.map (Token.down d) ++ rest')) ts₂ rest rest' hfile rfl
    rfl h₂ hS hS'
  rw [Cursor.past_past] at hfb hgb
  rw [map_append]
  exact ⟨b, (Parser.bind_run hpa).trans hfb, (Parser.bind_run hqa).trans hgb, hb⟩

/-- A parser that only looks, in front of another. -/
theorem look
    (hlook : ∀ (c c' : Cursor) (ts rest rest' : List Token), c'.file = c.file →
      c.rest = ts ++ rest → c'.rest = ts.map (Token.down d) ++ rest' →
      ts.map Token.word = ws → S (headKind rest) → S (headKind rest') →
      ∃ a b, p c = .ok a c ∧ q c' = .ok b c' ∧ ReadsTwice d (f a) (g b) ws S ν R) :
    ReadsTwice d (p >>= f) (q >>= g) ws S ν R := by
  intro c c' ts rest rest' hfile hleft hright hws hS hS'
  obtain ⟨a, b, hpa, hqb, hfg⟩ := hlook c c' ts rest rest' hfile hleft hright hws hS hS'
  obtain ⟨r, hfr, hgr, hr⟩ := hfg c c' ts rest rest' hfile hleft hright hws hS hS'
  exact ⟨r, (Parser.bind_run hpa).trans hfr, (Parser.bind_run hqb).trans hgr, hr⟩

-- ==== looks

theorem spanOf {f g : Span → Parser β}
    (hf : ∀ s : Span, ReadsTwice d (f s) (g (s.down d)) ws S ν R) :
    ReadsTwice d (Parser.spanOf t >>= f) (Parser.spanOf (t.down d) >>= g) ws S ν R :=
  look fun c c' _ _ _ hfile _ _ _ _ _ =>
    ⟨t.span c.file, (t.span c.file).down d, rfl, by rw [← hfile]; rfl, hf _⟩

theorem between {s : Token} {f g : Span → Parser β}
    (hf : ∀ s : Span, ReadsTwice d (f s) (g (s.down d)) ws S ν R) :
    ReadsTwice d (Parser.between s t >>= f)
      (Parser.between (s.down d) (t.down d) >>= g) ws S ν R :=
  look fun c c' _ _ _ hfile _ _ _ _ _ =>
    ⟨Span.between c.file s t, (Span.between c.file s t).down d, rfl, by rw [← hfile]; rfl, hf _⟩

theorem file {f g : String → Parser β}
    (hf : ∀ s : String, ReadsTwice d (f s) (g s) ws S ν R) :
    ReadsTwice d (Parser.file >>= f) (Parser.file >>= g) ws S ν R :=
  look fun c c' _ _ _ hfile _ _ _ _ _ => ⟨c.file, c.file, rfl, by rw [← hfile]; rfl, hf _⟩

/-- A number that a numeral denotes, in front of another parser. -/
theorem number {read : Except NumeralError α} {a : α} (h : read = .ok a)
    (hf : ReadsTwice d (f a) (g a) ws S ν R) :
    ReadsTwice d (Parser.number read >>= f) (Parser.number read >>= g) ws S ν R :=
  look fun _ _ _ _ _ _ _ _ _ _ _ =>
    ⟨a, a, by unfold Parser.number; rw [h], by unfold Parser.number; rw [h], hf⟩

theorem peek_word {ts : List Token} (hrest : c.rest = ts ++ rest)
    (hws : ts.map Token.word = w :: ws) : c.peek.word = w := by
  obtain ⟨t, ts', rfl, ht, -⟩ := exists_token_of_word hws
  unfold Cursor.peek
  rw [hrest]
  exact ht

/-- The kind of the next token, in front of another parser. -/
theorem kind {f g : Kind → Parser β}
    (hf : ReadsTwice d (f w.kind) (g w.kind) (w :: ws) S ν R) :
    ReadsTwice d (Parser.kind >>= f) (Parser.kind >>= g) (w :: ws) S ν R := by
  refine look fun c c' ts rest rest' _ hleft hright hws _ _ => ?_
  have hc : c.kind = w.kind := congrArg Word.kind (peek_word hleft hws)
  have hc' : c'.kind = w.kind := congrArg Word.kind (peek_word hright ((words_down ts).trans hws))
  exact ⟨c.kind, c'.kind, rfl, rfl, by rw [hc, hc']; exact hf⟩

theorem get {f g : Cursor → Parser β}
    (hf : ∀ c c' : Cursor, c.peek.word = w → c'.peek.word = w →
      ReadsTwice d (f c) (g c') (w :: ws) S ν R) :
    ReadsTwice d (Parser.get >>= f) (Parser.get >>= g) (w :: ws) S ν R :=
  look fun c c' ts _ _ _ hleft hright hws _ _ =>
    ⟨c, c', rfl, rfl, hf c c' (peek_word hleft hws) (peek_word hright ((words_down ts).trans hws))⟩

theorem get_nil {f g : Cursor → Parser β}
    (hf : ∀ c c' : Cursor, S c.kind → S c'.kind → ReadsTwice d (f c) (g c') [] S ν R) :
    ReadsTwice d (Parser.get >>= f) (Parser.get >>= g) [] S ν R := by
  refine look fun c c' ts rest rest' _ hleft hright hws hS hS' => ?_
  obtain rfl := map_eq_nil_iff.mp hws
  rw [nil_append] at hleft
  rw [map_nil, nil_append] at hright
  subst hleft hright
  exact ⟨c, c', rfl, rfl, hf c c' hS hS'⟩

theorem bind_last {F H : α → Token → Parser β} (hp : ReadsTwice d p q ws S μ P)
    (hne : ws ≠ []) (hf : ∀ a, P a → f a = Parser.last >>= F a)
    (hg : ∀ a, P a → g (μ a) = Parser.last >>= H (μ a))
    (hF : ∀ (a : α) (t : Token), P a → ReadsTwice d (F a t) (H (μ a) (t.down d)) [] S ν R) :
    ReadsTwice d (p >>= f) (q >>= g) ws S ν R := by
  intro c c' ts rest rest' hfile hleft hright hws hS hS'
  obtain ⟨a, hpa, hqa, ha⟩ := hp c c' ts rest rest' hfile hleft hright hws hS hS'
  have hts : ts ≠ [] := by
    rintro rfl
    exact hne hws.symm
  have hlast : (ts.map (Token.down d)).getLastD c'.last = (ts.getLastD c.last).down d := by
    rw [getLastD_eq_getLast?, getLastD_eq_getLast?, getLast?_map, getLast?_eq_some_getLast hts]
    rfl
  obtain ⟨b, hfb, hgb, hb⟩ := hF a (ts.getLastD c.last) ha (c.past ts rest)
    (c'.past (ts.map (Token.down d)) rest') [] rest rest' hfile rfl rfl rfl hS hS'
  rw [map_nil, Cursor.past_past, append_nil] at hgb
  rw [Cursor.past_past, append_nil] at hfb
  refine ⟨b, ?_, ?_, hb⟩
  · rw [Parser.bind_run hpa, hf a ha]
    exact hfb
  · rw [Parser.bind_run hqa, hg a ha]
    show H (μ a) ((ts.map (Token.down d)).getLastD c'.last) _ = _
    rw [hlast]
    exact hgb

-- ==== single tokens

theorem next {f g : Token → Parser β} (hw : w.kind ≠ .eof)
    (hf : ∀ t : Token, t.word = w → ReadsTwice d (f t) (g (t.down d)) ws S ν R) :
    ReadsTwice d (Parser.next >>= f) (Parser.next >>= g) (w :: ws) S ν R := by
  intro c c' ts rest rest' hfile hleft hright hws hS hS'
  obtain ⟨t, ts', rfl, ht, hws'⟩ := exists_token_of_word hws
  have hk : t.kind ≠ .eof := by
    rw [← ht] at hw
    exact hw
  obtain ⟨b, hfb, hgb, hb⟩ := hf t ht (c.past [t] (ts' ++ rest))
    (c'.past [t.down d] (ts'.map (Token.down d) ++ rest')) ts' rest rest' hfile rfl rfl hws' hS hS'
  rw [Cursor.past_past] at hfb hgb
  refine ⟨b, ?_, ?_, hb⟩
  · show f c.advance.last c.advance = _
    rw [c.advance_eq hleft hk]
    exact hfb
  · show g c'.advance.last c'.advance = _
    rw [c'.advance_eq hright hk]
    exact hgb

theorem acceptAny_some {f g : Option Token → Parser β} (hw : w.kind ≠ .eof) (hmem : w.kind ∈ kinds)
    (hf : ∀ t : Token, t.word = w → ReadsTwice d (f (some t)) (g (some (t.down d))) ws S ν R) :
    ReadsTwice d (Parser.acceptAny kinds >>= f) (Parser.acceptAny kinds >>= g) (w :: ws) S ν
      R := by
  have hnext := next (f := fun t => f (some t)) (g := fun t => g (some t)) hw hf
  intro c c' ts rest rest' hfile hleft hright hws hS hS'
  obtain ⟨b, hfb, hgb, hb⟩ := hnext c c' ts rest rest' hfile hleft hright hws hS hS'
  have hrun : ∀ (e : Cursor) (h : Option Token → Parser β), e.peek.word = w →
      (Parser.acceptAny kinds >>= h) e = (Parser.next >>= fun t => h (some t)) e := by
    intro e h he
    have hkind : kinds.contains e.kind = true := by
      rw [← he] at hmem
      exact contains_iff_mem.mpr hmem
    show Parser.bind _ _ e = _
    unfold Parser.bind Parser.acceptAny
    rw [if_pos hkind]
    rfl
  refine ⟨b, ?_, ?_, hb⟩
  · rw [hrun c f (peek_word hleft hws)]
    exact hfb
  · rw [hrun c' g (peek_word hright ((words_down ts).trans hws))]
    exact hgb

theorem acceptAny_none {f g : Option Token → Parser β} (hmem : ∀ k, S k → nextKind ws k ∉ kinds)
    (hf : ReadsTwice d (f none) (g none) ws S ν R) :
    ReadsTwice d (Parser.acceptAny kinds >>= f) (Parser.acceptAny kinds >>= g) ws S ν R := by
  have hrun : ∀ e : Cursor, e.kind ∉ kinds → Parser.acceptAny kinds e = .ok none e := by
    intro e he
    have hkind : ¬ kinds.contains e.kind = true := fun h => he (contains_iff_mem.mp h)
    unfold Parser.acceptAny
    rw [if_neg hkind]
  refine look fun c c' ts rest rest' _ hleft hright hws hS hS' => ⟨none, none, ?_, ?_, hf⟩
  · refine hrun c ?_
    rw [c.kind_eq hleft hws]
    exact hmem _ hS
  · refine hrun c' ?_
    rw [c'.kind_eq hright ((words_down ts).trans hws)]
    exact hmem _ hS'

theorem accepts_true {f g : Bool → Parser β} (hw : w.kind ≠ .eof) (hk : w.kind = k)
    (hf : ReadsTwice d (f true) (g true) ws S ν R) :
    ReadsTwice d (Parser.accepts k >>= f) (Parser.accepts k >>= g) (w :: ws) S ν R := by
  rw [Reads.accepts_bind, Reads.accepts_bind]
  exact acceptAny_some hw (mem_singleton.mpr hk) fun _ _ => hf

theorem accepts_false {f g : Bool → Parser β} (hk : ∀ k', S k' → nextKind ws k' ≠ k)
    (hf : ReadsTwice d (f false) (g false) ws S ν R) :
    ReadsTwice d (Parser.accepts k >>= f) (Parser.accepts k >>= g) ws S ν R := by
  rw [Reads.accepts_bind, Reads.accepts_bind]
  exact acceptAny_none (fun k' hS h => hk k' hS (mem_singleton.mp h)) hf

theorem expectAny {f g : Token → Parser β} (hw : w.kind ≠ .eof) (hmem : w.kind ∈ kinds)
    (hf : ∀ t : Token, t.word = w → ReadsTwice d (f t) (g (t.down d)) ws S ν R) :
    ReadsTwice d (Parser.expectAny kinds what >>= f) (Parser.expectAny kinds what >>= g)
      (w :: ws) S ν R := by
  unfold Parser.expectAny
  rw [Parser.bind_assoc, Parser.bind_assoc]
  exact acceptAny_some hw hmem hf

theorem expect {f g : Token → Parser β} (hw : w.kind ≠ .eof) (hk : w.kind = k)
    (hf : ∀ t : Token, t.word = w → ReadsTwice d (f t) (g (t.down d)) ws S ν R) :
    ReadsTwice d (Parser.expect k what >>= f) (Parser.expect k what >>= g) (w :: ws) S ν R :=
  expectAny hw (mem_singleton.mpr hk) hf

-- ==== loops

section Loops

/-- What a round decides, with its values moved. -/
def moveRound (μ : α → α) (ν : β → β) :
    Parser.Round α β → Parser.Round α β
  | .again a => .again (μ a)
  | .done b => .done (ν b)

variable {step step' : α → Parser (Parser.Round α β)} {a a' : α}

theorem done
    (h : ReadsTwice d (step a) (step' a') ws S (moveRound μ ν) fun r =>
      ∃ b, r = .done b ∧ R b) :
    ReadsTwice d (Parser.loop step a) (Parser.loop step' a') ws S ν R := by
  intro c c' ts rest rest' hfile hleft hright hws hS hS'
  obtain ⟨r, hp, hq, b, rfl, hb⟩ := h c c' ts rest rest' hfile hleft hright hws hS hS'
  exact ⟨b, Parser.loop_done hp, Parser.loop_done hq, hb⟩

/-- A loop that runs again behind its first round, which reads a
word. -/
theorem again {I : α → Prop}
    (h : ReadsTwice d (step a) (step' a') ws₁ S₁ (moveRound μ ν) fun r =>
      ∃ a₁, r = .again a₁ ∧ I a₁)
    (hne : ws₁ ≠ []) (hstop : ∀ k, S k → S₁ (nextKind ws₂ k))
    (hloop : ∀ a₁, I a₁ → ReadsTwice d (Parser.loop step a₁)
      (Parser.loop step' (μ a₁)) ws₂ S ν R) :
    ReadsTwice d (Parser.loop step a) (Parser.loop step' a') (ws₁ ++ ws₂) S ν R := by
  intro c c' ts rest rest' hfile hleft hright hws hS hS'
  obtain ⟨ts₁, ts₂, rfl, h₁, h₂⟩ := map_eq_append_iff.mp hws
  rw [append_assoc] at hleft
  rw [map_append, append_assoc] at hright
  have hmid : S₁ (headKind (ts₂ ++ rest)) := by
    rw [headKind_append h₂]
    exact hstop _ hS
  have hmid' : S₁ (headKind (ts₂.map (Token.down d) ++ rest')) := by
    rw [headKind_append ((words_down ts₂).trans h₂)]
    exact hstop _ hS'
  obtain ⟨r, hpr, hqr, a₁, rfl, ha₁⟩ := h c c' ts₁ _ _ hfile hleft hright h₁ hmid hmid'
  obtain ⟨b, hfb, hgb, hb⟩ := hloop a₁ ha₁ (c.past ts₁ (ts₂ ++ rest))
    (c'.past (ts₁.map (Token.down d)) (ts₂.map (Token.down d) ++ rest')) ts₂ rest rest' hfile rfl
    rfl h₂ hS hS'
  rw [Cursor.past_past] at hfb hgb
  have hts : ts₁ ≠ [] := by
    rintro rfl
    exact hne h₁.symm
  have hts' : ts₁.map (Token.down d) ≠ [] := fun hnil => hts (map_eq_nil_iff.mp hnil)
  refine ⟨b, Parser.loop_again hts hleft hpr hfb, ?_, hb⟩
  rw [map_append]
  exact Parser.loop_again hts' hright hqr hgb

end Loops

end ReadsTwice

end SketchCompiler
