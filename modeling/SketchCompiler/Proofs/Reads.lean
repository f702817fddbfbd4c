/-
What a parser reads.  `Reads p ws S Q` says: in front of tokens whose
words are `ws`, with a kind behind them that satisfies `S`, the parser
`p` reads exactly those tokens, reports nothing, and yields a value that
satisfies `Q`.

A parser that looks for an operator behind an operand stops only where
none follows, so each statement carries the kinds it may stand in front
of.  A loop may run one round for each token and one more.  Every round but
the last reads a word, so a loop is read round by round (`Reads.again`,
`Reads.done`) without a thought to its bound.
-/
import Mathlib.Data.List.Forall2
import SketchCompiler.Proofs.Rescan
import SketchCompiler.Program.Cursor

namespace SketchCompiler

open List

variable {k : Kind} {lexeme : String}

variable {α β : Type}
  {c : Cursor} {rest : List Token} {a : α} {kinds : List Kind} {I : α → Prop}

/-- The kind of the first token, the end if there is none. -/
def headKind (tokens : List Token) : Kind :=
  (tokens.headD Parser.endMarker).kind

/-- The kind of the first word, or the kind behind the words. -/
def nextKind (ws : List Word) (k : Kind) : Kind :=
  match ws with
  | [] => k
  | w :: _ => w.kind

/-- In front of the words, and of a kind in `S`, the parser reads just
the words, reports nothing and yields a value that satisfies `Q`. -/
def Reads (p : Parser α) (ws : List Word) (S : Kind → Prop) (Q : α → Prop) : Prop :=
  ∀ (c : Cursor) (ts rest : List Token), c.rest = ts ++ rest → ts.map Token.word = ws →
    S (headKind rest) → ∃ a last, p c = .ok a { c with rest, last } ∧ Q a

theorem headKind_append (h : ts.map Token.word = ws) :
    headKind (ts ++ rest) = nextKind ws (headKind rest) := by
  subst h
  cases ts <;> rfl

theorem Cursor.kind_eq {ts : List Token} {ws : List Word} (hrest : c.rest = ts ++ rest)
    (hws : ts.map Token.word = ws) : c.kind = nextKind ws (headKind rest) := by
  rw [← headKind_append hws, ← hrest]
  rfl

theorem exists_token_of_word (h : ts.map Token.word = w :: ws) :
    ∃ t ts', ts = t :: ts' ∧ t.word = w ∧ ts'.map Token.word = ws :=
  map_eq_cons_iff.mp h

theorem Cursor.advance_eq {t : Token} (h : c.rest = t :: rest) (hk : t.kind ≠ .eof) :
    c.advance = { c with rest, last := t } := by
  have hpeek : c.peek = t := by
    unfold Cursor.peek
    rw [h]
    rfl
  have hend : c.atEnd = false := by
    unfold Cursor.atEnd Cursor.kind
    rw [hpeek]
    exact decide_eq_false hk
  unfold Cursor.advance
  rw [hend, hpeek, h]
  rfl

theorem Parser.bind_run {p : Parser α} {f : α → Parser β} {c' : Cursor} (h : p c = .ok a c') :
    (p >>= f) c = f a c' := by
  show Parser.bind p f c = _
  unfold Parser.bind
  rw [h]

theorem Parser.bind_assoc (p : Parser α) (f : α → Parser β) (g : β → Parser γ) :
    (p >>= f) >>= g = p >>= fun a => f a >>= g := by
  funext c
  show Parser.bind (Parser.bind p f) g c = Parser.bind p (fun a => Parser.bind (f a) g) c
  unfold Parser.bind
  cases p c <;> rfl

theorem Parser.bind_pure (p : Parser α) : (p >>= fun a => pure a) = p := by
  funext c
  show Parser.bind p (fun a => Parser.pure a) c = p c
  unfold Parser.bind
  cases p c <;> rfl

theorem Parser.rounds_mono (h : Parser.rounds step bound a c = .ok b c') :
    ∀ bound' : List Token, bound.length ≤ bound'.length →
      Parser.rounds step bound' a c = .ok b c' := by
  induction bound generalizing a c with
  | nil =>
    intro bound' _
    change Parser.bind (step a) _ c = _ at h
    unfold Parser.bind at h
    have hrun : ∀ r c₁, step a c = .ok r c₁ → Parser.rounds step bound' a c = .ok b c' := by
      intro r c₁ hr
      rw [hr] at h
      cases r with
      | again a' => cases h
      | done b' =>
        rw [← h]
        cases bound' <;> exact Parser.bind_run hr
    cases hr : step a c with
    | ok r c₁ => exact hrun r c₁ hr
    | failed | abort | exhausted =>
      rw [hr] at h
      cases h
  | cons t bound ih =>
    intro bound' hlen
    obtain ⟨t', bound', rfl⟩ := exists_cons_of_length_pos (by
      rw [length_cons] at hlen; omega : 0 < bound'.length)
    change Parser.bind (step a) _ c = _ at h
    show Parser.bind (step a) _ c = _
    unfold Parser.bind at h ⊢
    cases hr : step a c with
    | ok r c₁ =>
      rw [hr] at h
      cases r with
      | again a' => exact ih h bound' (by simpa using hlen)
      | done b' => exact h
    | failed | abort | exhausted =>
      rw [hr] at h
      cases h

theorem Parser.loop_done (h : step a c = .ok (.done b) c') : Parser.loop step a c = .ok b c' := by
  have hone : Parser.rounds step [] a c = .ok b c' := Parser.bind_run h
  exact rounds_mono hone c.rest (Nat.zero_le _)

theorem Parser.loop_next (h : step a c = .ok (.again a₁) c₁)
    (hlt : c₁.rest.length < c.rest.length) (hloop : Parser.loop step a₁ c₁ = .ok b c') :
    Parser.loop step a c = .ok b c' := by
  obtain ⟨t, rest, hrest⟩ := exists_cons_of_length_pos (Nat.zero_lt_of_lt hlt)
  show Parser.rounds step c.rest a c = _
  rw [hrest] at hlt ⊢
  exact (Parser.bind_run h).trans (rounds_mono hloop rest (Nat.le_of_lt_succ hlt))

namespace Reads

variable {p : Parser α} {ws ws₁ ws₂ : List Word} {w : Word} {S S₁ : Kind → Prop} {Q Q₁ : α → Prop}
  {R : β → Prop}

theorem mono (h : Reads p ws S Q) (hS : ∀ k, S₁ k → S k) (hQ : ∀ a, Q a → Q₁ a) :
    Reads p ws S₁ Q₁ := by
  intro c ts rest hrest hws hstop
  obtain ⟨a, last, hrun, ha⟩ := h c ts rest hrest hws (hS _ hstop)
  exact ⟨a, last, hrun, hQ a ha⟩

theorem imp (h : Reads p ws S Q) (hQ : ∀ a, Q a → Q₁ a) : Reads p ws S Q₁ :=
  h.mono (fun _ hk => hk) hQ

-- ==== values and sequence

theorem still (h : ∀ c, ∃ a, p c = .ok a c ∧ Q a) : Reads p [] S Q := by
  intro c ts rest hrest hws _
  obtain rfl := map_eq_nil_iff.mp hws
  obtain ⟨a, hrun, ha⟩ := h c
  have hc : c = { c with rest, last := c.last } := by
    rw [show rest = c.rest from hrest.symm]
  exact ⟨a, c.last, hrun.trans (congrArg (Parsed.ok a) hc), ha⟩

theorem pure (h : Q a) : Reads (Pure.pure a) [] S Q := still fun _ => ⟨a, rfl, h⟩

theorem bind (hp : Reads p ws₁ S₁ Q) (hstop : ∀ k, S k → S₁ (nextKind ws₂ k))
    (hf : ∀ a, Q a → Reads (f a) ws₂ S R) : Reads (p >>= f) (ws₁ ++ ws₂) S R := by
  intro c ts rest hrest hws hS
  obtain ⟨ts₁, ts₂, rfl, h₁, h₂⟩ := map_eq_append_iff.mp hws
  rw [append_assoc] at hrest
  have hmid : S₁ (headKind (ts₂ ++ rest)) := by
    rw [headKind_append h₂]
    exact hstop _ hS
  obtain ⟨a, last₁, hrun₁, ha⟩ := hp c ts₁ (ts₂ ++ rest) hrest h₁ hmid
  obtain ⟨b, last₂, hrun₂, hb⟩ :=
    hf a ha { c with rest := ts₂ ++ rest, last := last₁ } ts₂ rest rfl h₂ hS
  exact ⟨b, last₂, (Parser.bind_run hrun₁).trans hrun₂, hb⟩

theorem bind_cons (hp : Reads p ws₁ S₁ Q) (hw : S₁ w.kind)
    (hf : ∀ a, Q a → Reads (f a) (w :: ws₂) S R) : Reads (p >>= f) (ws₁ ++ w :: ws₂) S R :=
  hp.bind (fun _ _ => hw) hf

theorem bind_last (hp : Reads p ws S Q) (hf : ∀ a, Q a → Reads (f a) [] S R) :
    Reads (p >>= f) ws S R := by
  have h : Reads (p >>= f) (ws ++ []) S R := bind hp (fun _ hS => hS) hf
  rwa [append_nil] at h

/-- A parser that only looks, in front of another. -/
theorem look (hlook : ∀ (c : Cursor) (ts rest : List Token), c.rest = ts ++ rest →
      ts.map Token.word = ws → S (headKind rest) → ∃ a, p c = .ok a c ∧ Reads (f a) ws S R) :
    Reads (p >>= f) ws S R := by
  intro c ts rest hrest hws hS
  obtain ⟨a, hrun, hf⟩ := hlook c ts rest hrest hws hS
  obtain ⟨b, last, hrun', hb⟩ := hf c ts rest hrest hws hS
  exact ⟨b, last, (Parser.bind_run hrun).trans hrun', hb⟩

-- ==== single tokens

theorem spanOf (hf : ∀ s, Reads (f s) ws S R) : Reads (Parser.spanOf t >>= f) ws S R :=
  look fun c _ _ _ _ _ => ⟨t.span c.file, rfl, hf _⟩

theorem between (hf : ∀ s, Reads (f s) ws S R) : Reads (Parser.between s t >>= f) ws S R :=
  look fun c _ _ _ _ _ => ⟨Span.between c.file s t, rfl, hf _⟩

theorem file (hf : ∀ s, Reads (f s) ws S R) : Reads (Parser.file >>= f) ws S R :=
  look fun c _ _ _ _ _ => ⟨c.file, rfl, hf _⟩

theorem kind {f : Kind → Parser β} (hf : ∀ k, S k → Reads (f (nextKind ws k)) ws S R) :
    Reads (Parser.kind >>= f) ws S R :=
  look fun c _ _ hrest hws hS => ⟨c.kind, rfl, by rw [c.kind_eq hrest hws]; exact hf _ hS⟩

theorem get (hf : ∀ (c : Cursor) (ts rest : List Token), c.rest = ts ++ rest →
      ts.map Token.word = ws → S (headKind rest) → Reads (f c) ws S R) :
    Reads (Parser.get >>= f) ws S R :=
  look fun c ts rest hrest hws hS => ⟨c, rfl, hf c ts rest hrest hws hS⟩

theorem number {read : Except NumeralError α} {f : α → Parser β} (h : read = .ok a)
    (hf : Reads (f a) ws S R) : Reads (Parser.number read >>= f) ws S R :=
  look fun c _ _ _ _ _ => ⟨a, by unfold Parser.number; rw [h], hf⟩

theorem next {f : Token → Parser β} (hw : (w.kind == .eof) = false)
    (hf : ∀ t : Token, t.word = w → Reads (f t) ws S R) :
    Reads (Parser.next >>= f) (w :: ws) S R := by
  intro c ts rest hrest hws hS
  obtain ⟨t, ts', rfl, ht, hws'⟩ := exists_token_of_word hws
  have hk : t.kind ≠ .eof := by
    rw [← ht] at hw
    exact ne_of_beq_false hw
  have hadv := c.advance_eq hrest hk
  obtain ⟨b, last, hrun, hb⟩ :=
    hf t ht { c with rest := ts' ++ rest, last := t } ts' rest rfl hws' hS
  refine ⟨b, last, ?_, hb⟩
  show f c.advance.last c.advance = _
  rw [hadv]
  exact hrun

theorem acceptAny_some {f : Option Token → Parser β} (hw : w.kind ≠ .eof) (hmem : w.kind ∈ kinds)
    (hf : ∀ t : Token, t.word = w → Reads (f (some t)) ws S R) :
    Reads (Parser.acceptAny kinds >>= f) (w :: ws) S R := by
  have hnext := next (f := fun t => f (some t)) (beq_false_of_ne hw) hf
  intro c ts rest hrest hws hS
  obtain ⟨b, last, hrun, hb⟩ := hnext c ts rest hrest hws hS
  refine ⟨b, last, ?_, hb⟩
  have hkind : kinds.contains c.kind = true := by
    rw [c.kind_eq hrest hws]
    exact contains_iff_mem.mpr hmem
  show Parser.bind _ _ c = _
  unfold Parser.bind Parser.acceptAny
  rw [if_pos hkind]
  exact hrun

theorem acceptAny_none {f : Option Token → Parser β} (hmem : ∀ k, S k → nextKind ws k ∉ kinds)
    (hf : Reads (f none) ws S R) : Reads (Parser.acceptAny kinds >>= f) ws S R := by
  refine look fun c ts rest hrest hws hS => ⟨none, ?_, hf⟩
  have hkind : ¬ kinds.contains c.kind = true := by
    rw [c.kind_eq hrest hws, contains_iff_mem]
    exact hmem _ hS
  unfold Parser.acceptAny
  rw [if_neg hkind]

theorem accepts_bind (k : Kind) (f : Bool → Parser β) :
    (Parser.accepts k >>= f) = (Parser.acceptAny [k] >>= fun t? => f t?.isSome) :=
  Parser.bind_assoc _ _ _

theorem accepts_true (hk : k ≠ .eof) (hf : Reads (f true) ws S R) :
    Reads (Parser.accepts k >>= f) (⟨k, lexeme⟩ :: ws) S R := by
  rw [accepts_bind]
  exact acceptAny_some hk (mem_singleton.mpr rfl) fun _ _ => hf

theorem accepts_false (hk : ∀ k', S k' → nextKind ws k' ≠ k) (hf : Reads (f false) ws S R) :
    Reads (Parser.accepts k >>= f) ws S R := by
  rw [accepts_bind]
  exact acceptAny_none (fun k' hS h => hk k' hS (mem_singleton.mp h)) hf

theorem expectAny (hw : w.kind ≠ .eof) (hmem : w.kind ∈ kinds)
    (hf : ∀ t : Token, t.word = w → Reads (f t) ws S R) :
    Reads (Parser.expectAny kinds what >>= f) (w :: ws) S R := by
  unfold Parser.expectAny
  rw [Parser.bind_assoc]
  exact acceptAny_some hw hmem hf

theorem expect (hk : (k == .eof) = false)
    (hf : ∀ t : Token, t.word = ⟨k, lexeme⟩ → Reads (f t) ws S R) :
    Reads (Parser.expect k what >>= f) (⟨k, lexeme⟩ :: ws) S R :=
  expectAny (ne_of_beq_false hk) (mem_singleton.mpr rfl) hf

theorem expect_only (hk : k ≠ .eof) :
    Reads (Parser.expect k what) [⟨k, lexeme⟩] S fun t => t.word = ⟨k, lexeme⟩ := by
  rw [← Parser.bind_pure (Parser.expect k what)]
  exact expect (beq_false_of_ne hk) fun t ht => pure ht

theorem behind_none : Reads (Parser.behind k p) [] (· ≠ k) (· = none) :=
  accepts_false (fun _ h => h) (pure rfl)

theorem behind_some (hk : k ≠ .eof) (hp : Reads p ws S Q) :
    Reads (Parser.behind k p) (⟨k, lexeme⟩ :: ws) S fun a? => ∃ a, a? = some a ∧ Q a :=
  accepts_true hk (hp.bind_last fun a ha => pure ⟨a, rfl, ha⟩)

theorem unlessNext_none : Reads (Parser.unlessNext k p) [] (· = k) (· = none) := by
  refine kind fun k' hk' => ?_
  show Reads (if k' = k then _ else _) _ _ _
  rw [if_pos hk']
  exact pure rfl

theorem unlessNext_some (hk : ∀ k', S k' → nextKind ws k' ≠ k) (hp : Reads p ws S Q) :
    Reads (Parser.unlessNext k p) ws S fun a? => ∃ a, a? = some a ∧ Q a := by
  refine kind fun k' hk' => ?_
  show Reads (if nextKind ws k' = k then _ else _) _ _ _
  rw [if_neg (hk k' hk')]
  exact hp.bind_last fun a ha => pure ⟨a, rfl, ha⟩

-- ==== loops

variable {step : α → Parser (Parser.Round α β)} {a : α}

theorem done (h : Reads (step a) ws S fun r => ∃ b, r = .done b ∧ R b) :
    Reads (Parser.loop step a) ws S R := by
  intro c ts rest hrest hws hS
  obtain ⟨r, last, hrun, b, rfl, hb⟩ := h c ts rest hrest hws hS
  exact ⟨b, last, Parser.loop_done hrun, hb⟩

/-- A loop that runs again behind its first round, which reads a
word. -/
theorem again (h : Reads (step a) ws₁ S₁ fun r => ∃ a', r = .again a' ∧ I a') (hne : ws₁ ≠ [])
    (hstop : ∀ k, S k → S₁ (nextKind ws₂ k))
    (hloop : ∀ a', I a' → Reads (Parser.loop step a') ws₂ S R) :
    Reads (Parser.loop step a) (ws₁ ++ ws₂) S R := by
  intro c ts rest hrest hws hS
  obtain ⟨ts₁, ts₂, rfl, h₁, h₂⟩ := map_eq_append_iff.mp hws
  rw [append_assoc] at hrest
  have hmid : S₁ (headKind (ts₂ ++ rest)) := by
    rw [headKind_append h₂]
    exact hstop _ hS
  obtain ⟨r, last₁, hrun₁, a', rfl, ha'⟩ := h c ts₁ (ts₂ ++ rest) hrest h₁ hmid
  obtain ⟨b, last₂, hrun₂, hb⟩ :=
    hloop a' ha' { c with rest := ts₂ ++ rest, last := last₁ } ts₂ rest rfl h₂ hS
  refine ⟨b, last₂, Parser.loop_next hrun₁ ?_ hrun₂, hb⟩
  have hts : ts₁ ≠ [] := by
    rintro rfl
    exact hne h₁.symm
  have hlen : (ts₁ ++ (ts₂ ++ rest)).length = ts₁.length + (ts₂ ++ rest).length := length_append
  rw [hrest, hlen]
  exact Nat.lt_add_of_pos_left (length_pos_of_ne_nil hts)

theorem once (h : Reads (step a) ws S₁ fun r => ∃ a', r = .again a' ∧ I a') (hne : ws ≠ [])
    (hstop : ∀ k, S k → S₁ k)
    (hdone : ∀ a', I a' → Reads (step a') [] S fun r => ∃ b, r = .done b ∧ R b) :
    Reads (Parser.loop step a) ws S R := by
  have hloop : Reads (Parser.loop step a) (ws ++ []) S R :=
    again h hne hstop fun a' ha' => done (hdone a' ha')
  rwa [append_nil] at hloop

section Lists

variable {γ : Type} {item : Parser α} {words : γ → List Word} {P : γ → α → Prop}

theorem itemsUntil {closing : Kind} {xs : List γ}
    (hitem : ∀ x ∈ xs, Reads item (words x) S (P x))
    (hstart : ∀ x ∈ xs, ∃ w ws, words x = w :: ws ∧ w.kind ≠ closing ∧ w.kind ≠ .eof ∧ S w.kind)
    (hclosing : S closing) :
    Reads (Parser.itemsUntil closing item) (xs.flatMap words) (· = closing)
      fun as => List.Forall₂ P xs as := by
  -- the items read so far stand in front of the others, in reverse
  suffices h : ∀ front : List α,
      Reads (Parser.loop (Parser.itemStep closing item) front) (xs.flatMap words) (· = closing)
      fun as => ∃ as', as = front.reverse ++ as' ∧ List.Forall₂ P xs as' from
    (h []).imp fun as ⟨as', has, h⟩ => by
      rw [has]
      exact h
  intro front
  induction xs generalizing front with
  | nil =>
    refine .done (get fun c ts rest hrest hws hk => ?_)
    have hkind : c.kind = closing := (c.kind_eq hrest hws).trans hk
    rw [if_pos (Or.inl hkind)]
    exact pure ⟨_, rfl, [], by rw [append_nil], .nil⟩
  | cons x xs ih =>
    obtain ⟨w, ws', hx, hne, heof, -⟩ := hstart x mem_cons_self
    rw [flatMap_cons]
    have hround : Reads (Parser.itemStep closing item front) (words x) S
        fun r => ∃ as, r = .again as ∧ ∃ a, as = a :: front ∧ P x a := by
      refine get fun c ts rest hrest hws _ => ?_
      have hkind : c.kind = w.kind := by
        rw [c.kind_eq hrest hws, hx]
        rfl
      have hopen : ¬ (c.kind = closing ∨ c.atEnd = true) := by
        unfold Cursor.atEnd
        rw [hkind]
        simp [hne, heof]
      rw [if_neg hopen]
      exact (hitem x mem_cons_self).bind_last fun a ha => pure ⟨_, rfl, a, rfl, ha⟩
    refine again hround (by rw [hx]; exact cons_ne_nil _ _) ?_ ?_
    · rintro k rfl
      cases xs with
      | nil => exact hclosing
      | cons y ys =>
        obtain ⟨w', ws'', hy, -, -, hS⟩ := hstart y (mem_cons_of_mem _ mem_cons_self)
        rw [flatMap_cons, hy]
        exact hS
    · rintro as ⟨a, rfl, ha⟩
      refine (ih (fun y hy => hitem y (mem_cons_of_mem _ hy))
        (fun y hy => hstart y (mem_cons_of_mem _ hy)) (a :: front)).imp ?_
      rintro bs ⟨as', rfl, has'⟩
      exact ⟨a :: as', by rw [reverse_cons, append_assoc]; rfl, .cons ha has'⟩

theorem separated {xs : List γ} (hne : xs ≠ [])
    (hitem : ∀ x ∈ xs, Reads item (words x) S (P x)) (hcomma : S .comma)
    (hS₁ : ∀ k, S₁ k → S k ∧ k ≠ .comma) :
    Reads (Parser.separated item) ([⟨.comma, ","⟩].intercalate (xs.map words)) S₁
      fun as => List.Forall₂ P xs as := by
  suffices h : ∀ front : List α, Reads (Parser.loop (Parser.separatedStep item) front)
      ([⟨.comma, ","⟩].intercalate (xs.map words)) S₁
      fun as => ∃ as', as = front.reverse ++ as' ∧ List.Forall₂ P xs as' from
    (h []).imp fun as ⟨as', has, h⟩ => by
      rw [has]
      exact h
  intro front
  induction xs generalizing front with
  | nil => exact absurd rfl hne
  | cons x xs ih =>
    have hx := hitem x mem_cons_self
    cases xs with
    | nil =>
      have hwords : [⟨.comma, ","⟩].intercalate ([x].map words) = words x := by simp
      rw [hwords]
      refine .done ?_
      refine (hx.mono (fun k hk => (hS₁ k hk).1) (fun _ h => h)).bind_last fun a ha => ?_
      refine accepts_false (fun k hk => (hS₁ k hk).2) ?_
      refine pure ⟨_, rfl, [a], ?_, .cons ha .nil⟩
      rw [reverse_cons]
    | cons y ys =>
      have hwords : [⟨.comma, ","⟩].intercalate ((x :: y :: ys).map words)
          = (words x ++ [⟨.comma, ","⟩]) ++ [⟨.comma, ","⟩].intercalate ((y :: ys).map words) := by
        simp [List.intercalate]
      rw [hwords]
      have hround : Reads (Parser.separatedStep item front)
          (words x ++ [⟨.comma, ","⟩]) (fun _ => True)
          fun r => ∃ as, r = .again as ∧ ∃ a, as = a :: front ∧ P x a :=
        hx.bind (fun _ _ => hcomma) fun a ha =>
          accepts_true (by decide) (pure ⟨_, rfl, a, rfl, ha⟩)
      refine again hround (by simp) (fun _ _ => trivial) ?_
      rintro as ⟨a, rfl, ha⟩
      refine (ih (cons_ne_nil _ _) (fun z hz => hitem z (mem_cons_of_mem _ hz))
        (a :: front)).imp ?_
      rintro bs ⟨as', rfl, has'⟩
      exact ⟨a :: as', by rw [reverse_cons, append_assoc]; rfl, .cons ha has'⟩

theorem separatedUntil (hitem : ∀ x ∈ xs, Reads item (words x) S (P x)) (hcomma : S .comma)
    (hclosing : S closing) (hne : closing ≠ .comma)
    (hstart : ∀ x ∈ xs, ∃ w ws, words x = w :: ws ∧ w.kind ≠ closing) :
    Reads (Parser.separatedUntil closing item) ([⟨.comma, ","⟩].intercalate (xs.map words))
      (· = closing) fun as => List.Forall₂ P xs as := by
  cases xs with
  | nil =>
    refine (unlessNext_none.bind_last fun as? has => ?_)
    rw [has]
    exact pure .nil
  | cons x xs =>
    obtain ⟨w, ws', hx, hw⟩ := hstart x mem_cons_self
    have hsep : Reads (Parser.separated item) _ (· = closing) _ :=
      separated (cons_ne_nil x xs) hitem hcomma (by rintro k rfl; exact ⟨hclosing, hne⟩)
    refine (unlessNext_some ?_ hsep).bind_last ?_
    · intro k _
      cases xs <;> simpa [List.intercalate, hx, nextKind] using hw
    · rintro as? ⟨as, rfl, has⟩
      exact pure has

end Lists

end Reads

end SketchCompiler
