/-
When a parser implements a body of the grammar.  `Implements` joins two
statements about a parser: what it has read without a report is derived
from the body (`sound`), and it reads everything that is derived from
it (`reads`), in two places alike.

A rule is only known to read words up to a length, since its nesting is
bounded; reading a token first makes room for the rules behind it, and
this is where a bound grows by one (`Implements.next`).

Where what comes later depends on the value, a predicate picks the values
that count (`P`): the parser of an operand implements one rule by all its
values and another by those that can be assigned to.

A parser that decides by the next word is described for each word by
itself (`K`), and a choice in the grammar loses the parts that cannot
start with it (`Implements.prune`).
-/
import SketchCompiler.Proofs.SourceGrammar
import SketchCompiler.Proofs.ReadsTwice
import SketchCompiler.Proofs.Spells

namespace SketchCompiler

open List

open Derives (seq_iff seq_empty_iff kind_iff rule_iff seq_tok_iff alt_iff many_iff)

variable {kd : Kind}

variable {α β : Type}
  {kd closing : Kind} {kinds : List Kind} {what : String}
  {step step' : α → Parser (Parser.Round α β)}

/-- The words are derived from the body, as sources are read. -/
abbrev Derived (G : Ebnf Rule) (ws : List Word) : Prop :=
  Derives Rule.reading.body G ws

/-- Words that a parser can be asked to read: not too many, the first as
it has to be. -/
structure Fair (k : Nat) (K : Word → Prop) (ws : List Word) : Prop where
  short : ws.length < k
  guard : ∀ w ∈ ws.head?, K w

/-- Every value counts. -/
def anyValue (_ : α) : Prop :=
  True

/-- The parsers `p` and `q` implement the body `G`, by the values that
satisfy `P`, in front of the kinds in `S`. -/
structure Implements (d k : Nat) (K : Word → Prop) (p q : Parser α) (G : Ebnf Rule)
    (S : Kind → Prop) (μ : α → α) (P : α → Prop) : Prop where
  sound : Spells K p fun a ws => P a → Derived G ws
  reads : ∀ ws, Derived G ws → Fair k K ws → ReadsTwice d p q ws S μ P

/-- In front of `G`, and of a kind in `S`, the next kind is in `S₁`. -/
structure Stops (G : Ebnf Rule) (S S₁ : Kind → Prop) : Prop where
  starts : ∀ k ∈ G.starts Rule.first, S₁ k
  nullable : G.isNullable = true → ∀ k, S k → S₁ k

namespace Stops

variable {G : Ebnf Rule} {S S₁ : Kind → Prop}

theorem solid (hG : G.isNullable = false) (h : ∀ k ∈ G.starts Rule.first, S₁ k) : Stops G S S₁ :=
  ⟨h, fun hnull => by rw [hG] at hnull; cases hnull⟩

theorem empty (h : ∀ k, S k → S₁ k) : Stops .empty S S₁ :=
  ⟨fun _ hk => absurd hk not_mem_nil, fun _ => h⟩

theorem kind (h : S₁ kd) : Stops (.seq (.kind kd) G) S S₁ :=
  .solid rfl fun kd' hkd' => by
    rw [mem_singleton.mp hkd']
    exact h

theorem always : Stops G S fun _ => True := ⟨fun _ _ => trivial, fun _ _ _ => trivial⟩

theorem nextKind (h : Stops G S S₁) (hws : Derived G ws) (hk : S k) :
    S₁ (SketchCompiler.nextKind ws k) := by
  cases ws with
  | nil => exact h.nullable hws.isNullable k hk
  | cons w ws => exact h.starts _ hws.starts

end Stops

namespace Fair

variable {k : Nat} {K : Word → Prop} {w : Word} {u v : List Word}

/-- The first of two parts. -/
theorem left (h : Fair k K (u ++ v)) : Fair k K u where
  short := by
    have hlen := h.short
    rw [length_append] at hlen
    omega
  guard := by
    intro w hw
    refine h.guard w ?_
    cases u with
    | nil => cases hw
    | cons => exact hw

/-- The second of two parts. -/
theorem right (h : Fair k K (u ++ v)) : Fair k anyWord v where
  short := by
    have hlen := h.short
    rw [length_append] at hlen
    omega
  guard := fun _ _ => trivial

theorem tail (h : Fair (k + 1) K (w :: v)) : Fair k anyWord v where
  short := Nat.lt_of_succ_lt_succ h.short
  guard := fun _ _ => trivial

theorem nil (h : Fair k K v) : Fair k anyWord [] where
  short := Nat.zero_lt_of_lt h.short
  guard := fun _ _ => trivial

theorem guarded (h : Fair k K v) (hL : ∀ w ∈ v.head?, L w) : Fair k L v := ⟨h.short, hL⟩

theorem mono (h : Fair k K v) (hk : k ≤ k') (hK : ∀ w, K w → L w) : Fair k' L v :=
  ⟨Nat.lt_of_lt_of_le h.short hk, fun w hw => hK w (h.guard w hw)⟩

end Fair

theorem Parser.accepts_run_other {c : Cursor} (h : c.kind ≠ kd) :
    Parser.accepts kd c = .ok false c := by
  have hkind : ¬ [kd].contains c.kind = true :=
    fun hmem => h (mem_singleton.mp (contains_iff_mem.mp hmem))
  have hrun : Parser.accept kd c = .ok none c := by
    unfold Parser.accept Parser.acceptAny
    rw [if_neg hkind]
  exact Parser.bind_run hrun

namespace Implements

variable {d k : Nat} {K : Word → Prop} {p q : Parser α} {f g : α → Parser β}
  {G G₁ G₂ : Ebnf Rule} {S S₁ : Kind → Prop} {μ : α → α} {ν : β → β} {P : α → Prop}
  {R : β → Prop}

theorem mono (h : Implements d k K p q G S μ P) (hk : k' ≤ k) (hK : ∀ w, L w → K w)
    (hS : ∀ kd, S₁ kd → S kd) : Implements d k' L p q G S₁ μ P where
  sound := h.sound.mono hK fun _ _ hD => hD
  reads := fun ws hws hfair => (h.reads ws hws (hfair.mono hk hK)).mono hS fun _ ha => ha

theorem le (h : Implements d k K p q G S μ P) (hk : k' ≤ k) : Implements d k' K p q G S μ P :=
  h.mono hk (fun _ hw => hw) fun _ hkd => hkd

theorem anywhere (h : Implements d k anyWord p q G S μ P) : Implements d k K p q G S μ P :=
  h.mono (Nat.le_refl k) (fun _ _ => trivial) fun _ hkd => hkd

theorem stop (h : Implements d k K p q G S μ P) (hS : ∀ kd, S₁ kd → S kd) :
    Implements d k K p q G S₁ μ P :=
  h.mono (Nat.le_refl k) (fun _ hw => hw) hS

theorem congr (h : Implements d k K p q G₁ S μ P)
    (hG : ∀ ws, Derived G₁ ws ↔ Derived G₂ ws) : Implements d k K p q G₂ S μ P where
  sound := h.sound.imp fun _ ws hD ha => (hG ws).mp (hD ha)
  reads := fun ws hws => h.reads ws ((hG ws).mpr hws)

theorem rule (h : Implements d k K p q (Rule.accepted r) S μ P) :
    Implements d k K p q (.rule r) S μ P :=
  h.congr fun _ => rule_iff.symm

theorem seq_empty (h : Implements d k K p q G S μ P) :
    Implements d k K p q (.seq G .empty) S μ P :=
  h.congr fun _ => seq_empty_iff.symm

-- ==== values and sequence

theorem pure (hb : b = μ a) (ha : P a) :
    Implements d k K (Pure.pure a) (Pure.pure b) .empty S μ P where
  sound := Spells.pure fun _ => .empty
  reads := by
    intro ws hws _
    rw [hws.eq_nil]
    exact .pure hb ha

theorem bind (hp : Implements d k K p q G₁ S₁ μ anyValue)
    (hstop : Stops G₂ S S₁)
    (hf : ∀ a, Implements d k anyWord (f a) (g (μ a)) G₂ S ν R) :
    Implements d k K (p >>= f) (q >>= g) (.seq G₁ G₂) S ν R where
  sound := by
    refine hp.sound.bind fun a => (hf a).sound.imp fun b v hv u hu hb => ?_
    exact .seq (hu trivial) (hv hb)
  reads := by
    intro ws hws hfair
    obtain ⟨u, v, rfl, hu, hv⟩ := seq_iff.mp hws
    refine (hp.reads u hu hfair.left).bind (fun kd hkd => hstop.nextKind hv hkd) fun a _ => ?_
    exact (hf a).reads v hv hfair.right

theorem bind_where {Q : α → Prop} (hp : Implements d k K p q G₁ S₁ μ P)
    (hQ : Spells K p fun a _ => Q a) (hstop : Stops G₂ S S₁)
    (hf : ∀ a, P a → Implements d k anyWord (f a) (g (μ a)) G₂ S ν R)
    (hbad : ∀ a, ¬ P a → Spells anyWord (f a) fun b _ => Q a → ¬ R b) :
    Implements d k K (p >>= f) (q >>= g) (.seq G₁ G₂) S ν R where
  sound := by
    refine (hp.sound.and hQ).bind fun a => ?_
    by_cases ha : P a
    · refine (hf a ha).sound.imp fun b v hv u hu hb => ?_
      exact .seq (hu.1 ha) (hv hb)
    · refine (hbad a ha).imp fun b v hv u hu hb => ?_
      exact absurd hb (hv hu.2)
  reads := by
    intro ws hws hfair
    obtain ⟨u, v, rfl, hu, hv⟩ := seq_iff.mp hws
    refine (hp.reads u hu hfair.left).bind (fun kd hkd => hstop.nextKind hv hkd) fun a ha => ?_
    exact (hf a ha).reads v hv hfair.right

theorem bind_pure {a' b' : α → β} (hp : Implements d k K p q G S μ anyValue)
    (hb : ∀ a, b' (μ a) = ν (a' a)) (hR : ∀ a, R (a' a)) :
    Implements d k K (p >>= fun a => Pure.pure (a' a)) (q >>= fun a => Pure.pure (b' a)) G S ν
      R := by
  have h : Implements d k K (p >>= fun a => Pure.pure (a' a)) (q >>= fun a => Pure.pure (b' a))
      (.seq G .empty) S ν R :=
    hp.bind (Stops.empty fun _ h => h) fun a => pure (hb a) (hR a)
  exact h.congr fun _ => seq_empty_iff

theorem spanOf {t : Token} {f g : Span → Parser β}
    (hf : ∀ s : Span, Implements d k K (f s) (g (s.down d)) G S ν R) :
    Implements d k K (Parser.spanOf t >>= f) (Parser.spanOf (t.down d) >>= g) G S ν R where
  sound := Spells.spanOf fun s => (hf s).sound
  reads := fun ws hws hfair => .spanOf fun s => (hf s).reads ws hws hfair

theorem between {s t : Token} {f g : Span → Parser β}
    (hf : ∀ s : Span, Implements d k K (f s) (g (s.down d)) G S ν R) :
    Implements d k K (Parser.between s t >>= f) (Parser.between (s.down d) (t.down d) >>= g) G S
      ν R where
  sound := Spells.between fun s => (hf s).sound
  reads := fun ws hws hfair => .between fun s => (hf s).reads ws hws hfair

theorem file {f g : String → Parser β} (hf : ∀ s, Implements d k K (f s) (g s) G S ν R) :
    Implements d k K (Parser.file >>= f) (Parser.file >>= g) G S ν R where
  sound := Spells.file fun s => (hf s).sound
  reads := fun ws hws hfair => .file fun s => (hf s).reads ws hws hfair

-- ==== the next word

theorem kind {f g : Kind → Parser β} (hG : G.isNullable = false)
    (hf : ∀ kd, Implements d k (fun w => K w ∧ w.kind = kd) (f kd) (g kd) G S ν R) :
    Implements d k K (Parser.kind >>= f) (Parser.kind >>= g) G S ν R where
  sound := Spells.kind fun kd => (hf kd).sound
  reads := by
    intro ws hws hfair
    obtain ⟨w, v, rfl, -⟩ := hws.exists_cons hG
    refine .kind ((hf w.kind).reads _ hws ⟨hfair.short, ?_⟩)
    intro w' hw'
    cases hw'
    exact ⟨hfair.guard w rfl, rfl⟩

theorem by_word (hG : G.isNullable = false)
    (h : ∀ w, K w → Implements d k (· = w) p q G S μ P) : Implements d k K p q G S μ P where
  sound := fun c hc => (h c.peek.word hc).sound c rfl
  reads := by
    intro ws hws hfair
    obtain ⟨w, v, rfl, -⟩ := hws.exists_cons hG
    refine (h w (hfair.guard w rfl)).reads _ hws (hfair.guarded fun w' hw' => ?_)
    cases hw'
    rfl

theorem get {f g : Cursor → Parser β} (hG : G.isNullable = false)
    (hf : ∀ c c' : Cursor, K c.peek.word → c'.peek.word = c.peek.word →
      Implements d k (· = c.peek.word) (f c) (g c') G S ν R) :
    Implements d k K (Parser.get >>= f) (Parser.get >>= g) G S ν R where
  sound := Spells.get fun c hc => (hf c c hc rfl).sound
  reads := by
    intro ws hws hfair
    obtain ⟨w, v, rfl, -⟩ := hws.exists_cons hG
    refine .get fun c c' hc hc' => ?_
    have hK : K c.peek.word := by
      rw [hc]
      exact hfair.guard w rfl
    refine (hf c c' hK (hc'.trans hc.symm)).reads _ hws ⟨hfair.short, ?_⟩
    intro w' hw'
    cases hw'
    exact hc.symm

theorem prune (dead : List Kind → Bool) (hG : G.isNullable = false)
    (hdead : ∀ ks, dead ks = true → ∀ w, K w → w.kind ∉ ks)
    (h : Implements d k K p q (G.prune Rule.first dead) S μ P) :
    Implements d k K p q G S μ P where
  sound := h.sound.imp fun _ _ hD ha => .of_prune (hD ha)
  reads := by
    intro ws hws hfair
    obtain ⟨w, v, rfl, -⟩ := hws.exists_cons hG
    exact h.reads _ (hws.prune fun ks hks => hdead ks hks w (hfair.guard w rfl)) hfair

theorem prune_kind (kd : Kind) (hG : G.isNullable = false) (hK : ∀ w, K w → w.kind = kd)
    (h : Implements d k K p q (G.prune Rule.first fun ks => !ks.contains kd) S μ P) :
    Implements d k K p q G S μ P := by
  refine prune _ hG (fun ks hks w hw hmem => ?_) h
  rw [hK w hw] at hmem
  rw [contains_iff_mem.mpr hmem] at hks
  cases hks

theorem by_keyword
    (hprune : (Rule.accepted r).prune Rule.first (fun ks => !ks.contains kd) = .rule form)
    (h : Implements d k (fun w => w.kind = kd) p q (.rule form) S μ P) :
    Implements d k (fun w => anyWord w ∧ w.kind = kd) p q (Rule.accepted r) S μ P := by
  refine prune_kind kd (Rule.reading.solid r) (fun w hw => hw.2) ?_
  rw [hprune]
  exact h.mono (Nat.le_refl k) (fun w hw => hw.2) fun _ h => h

theorem prune_kinds (kds : List Kind) (hG : G.isNullable = false) (hK : ∀ w, K w → w.kind ∉ kds)
    (h : Implements d k K p q (G.prune Rule.first fun ks => ks.all kds.contains) S μ P) :
    Implements d k K p q G S μ P := by
  refine prune _ hG (fun ks hks w hw hmem => ?_) h
  exact hK w hw (contains_iff_mem.mp (all_eq_true.mp hks _ hmem))

theorem restrict (h : Implements d k K p q G₁ S μ P) (hG : G₁.isNullable = false)
    (hsound : ∀ w v, K w → Derived G₁ (w :: v) → Derived G₂ (w :: v))
    (hreads : ∀ ws, Derived G₂ ws → Fair k K ws → Derived G₁ ws) :
    Implements d k K p q G₂ S μ P where
  sound := by
    intro c hc
    have hrun := h.sound c hc
    cases hr : p c with
    | ok a c₁ =>
      rw [hr] at hrun
      intro herr
      obtain ⟨herr₀, ts, hrest, heof, hD⟩ := hrun herr
      refine ⟨herr₀, ts, hrest, heof, fun ha => ?_⟩
      obtain ⟨w, v, hts, -⟩ := (hD ha).exists_cons hG
      -- the first word read is the next word
      have hpeek : c.peek.word = w := ReadsTwice.peek_word hrest hts
      have hws := hD ha
      rw [hts] at hws ⊢
      exact hsound w v (hpeek ▸ hc) hws
    | failed c₁ =>
      rw [hr] at hrun
      exact hrun
    | abort e => trivial
    | exhausted => trivial
  reads := fun ws hws hfair => h.reads ws (hreads ws hws hfair) hfair

theorem narrow (kds : List Kind) (hG : G.isNullable = false) (hK : ∀ w, K w → w.kind ∈ kds)
    (h : Implements d k K p q G S μ P) :
    Implements d k K p q (G.prune Rule.first fun ks => ks.all fun kd => !kds.contains kd) S μ
      P := by
  refine h.restrict hG (fun w v hw hws => hws.prune fun ks hks hmem => ?_)
    fun ws hws _ => hws.of_prune
  have hnot := all_eq_true.mp hks _ hmem
  rw [contains_iff_mem.mpr (hK w hw)] at hnot
  cases hnot

/-- Where something does not start is where it is not forbidden to. -/
theorem except (hK : ∀ w, K w → ¬ t.Fits w) (hG : G.isNullable = false)
    (h : Implements d k K p q G S μ P) : Implements d k K p q (.except t G) S μ P := by
  refine h.restrict hG (fun w v hw hws => .except hws fun w' hw' => ?_) fun ws hws _ => ?_
  · cases hw'
    exact hK w hw
  · cases hws with
    | except hws _ => exact hws

/-- A parser that does nothing where the next word is as it is. -/
theorem skip (hG : G.isNullable = false) (hp : ∀ c : Cursor, K c.peek.word → p c = .ok a c)
    (hq : ∀ c : Cursor, K c.peek.word → q c = .ok b c)
    (hf : Implements d k K (f a) (g b) G S ν R) :
    Implements d k K (p >>= f) (q >>= g) G S ν R where
  sound := by
    intro c hc
    show (Parser.bind p f c).Spells c _
    unfold Parser.bind
    rw [hp c hc]
    exact hf.sound c hc
  reads := by
    intro ws hws hfair
    refine .look fun c c' ts rest rest' _ hleft hright hts _ _ => ?_
    obtain ⟨w, v, rfl, -⟩ := hws.exists_cons hG
    have hw : K w := hfair.guard w rfl
    refine ⟨a, b, hp c ?_, hq c' ?_, hf.reads _ hws hfair⟩
    · rw [ReadsTwice.peek_word hleft hts]
      exact hw
    · rw [ReadsTwice.peek_word hright ((words_down ts).trans hts)]
      exact hw

/-- Two bodies at once, each by the values that count for it. -/
theorem both (h : Implements d k K p q G₁ S μ P) (h' : Implements d k K p q G₂ S μ P') :
    Implements d k K p q (.both G₁ G₂) S μ fun a => P a ∧ P' a where
  sound := (h.sound.and h'.sound).imp fun _ _ hD ha =>
    .both (hD.1 ha.1) (hD.2 ha.2)
  reads := by
    intro ws hws hfair
    cases hws with
    | both hws hws' =>
      intro c c' ts rest rest' hfile hleft hright hts hS hS'
      obtain ⟨a, hp, hq, ha⟩ :=
        h.reads ws hws hfair c c' ts rest rest' hfile hleft hright hts hS hS'
      obtain ⟨a', hp', -, ha'⟩ :=
        h'.reads ws hws' hfair c c' ts rest rest' hfile hleft hright hts hS hS'
      -- a parser gives one value
      have heq : Parsed.ok a (c.past ts rest) = Parsed.ok a' (c.past ts rest) := hp.symm.trans hp'
      cases heq
      exact ⟨a, hp, hq, ha, ha'⟩

-- ==== single tokens

theorem next {t : Terminal} {f g : Token → Parser β} (heof : t.kind ≠ .eof)
    (hK : ∀ w, K w → t.Fits w)
    (hf : ∀ tk : Token, K tk.word → Implements d k anyWord (f tk) (g (tk.down d)) G S ν R) :
    Implements d (k + 1) K (Parser.next >>= f) (Parser.next >>= g) (.seq (.tok t) G) S ν R where
  sound := by
    refine .next (fun w hw => by rw [(hK w hw).1]; exact heof) fun tk htk => ?_
    refine (hf tk htk).sound.imp fun b ws hD hb => ?_
    exact seq_tok_iff.mpr ⟨tk.word, ws, rfl, hK _ htk, hD hb⟩
  reads := by
    intro ws hws hfair
    obtain ⟨w, v, rfl, hw, hv⟩ := seq_tok_iff.mp hws
    refine .next (by rw [hw.1]; exact heof) fun tk htk => ?_
    have hword : K tk.word := by
      rw [htk]
      exact hfair.guard w rfl
    exact (hf tk hword).reads v hv hfair.tail

theorem next_kind {f g : Token → Parser β} (heof : (kd == .eof) = false)
    (hf : ∀ t : Token, Implements d k anyWord (f t) (g (t.down d)) G S ν R) :
    Implements d k (fun w => w.kind = kd) (Parser.next >>= f) (Parser.next >>= g)
      (.seq (.kind kd) G) S ν R :=
  (next (ne_of_beq_false heof) (fun _ hw => Terminal.fits_kind hw) fun t _ => hf t).le
    (Nat.le_succ k)

theorem expectAny_first {f g : Token → Parser β} (hne : kinds ≠ []) (heof : .eof ∉ kinds)
    (hf : ∀ t : Token, t.kind ∈ kinds → Implements d k anyWord (f t) (g (t.down d)) G S ν R) :
    Implements d (k + 1) K (Parser.expectAny kinds what >>= f)
      (Parser.expectAny kinds what >>= g) (.seq (.oneOf kinds) G) S ν R where
  sound := by
    refine .expectAny heof fun t ht => (hf t ht).sound.imp ?_
    intro b ws hD hb
    have htok : Derived (.oneOf kinds) [t.word] := (Derives.oneOf_iff hne).mpr ⟨t.word, rfl, ht⟩
    exact .seq htok (hD hb)
  reads := by
    intro ws hws hfair
    obtain ⟨u, v, rfl, hu, hv⟩ := seq_iff.mp hws
    obtain ⟨w, rfl, hw⟩ := (Derives.oneOf_iff hne).mp hu
    refine .expectAny (fun h => heof (h ▸ hw)) hw fun t ht => ?_
    rw [← ht] at hw
    exact (hf t hw).reads v hv hfair.tail

theorem expectAny {f g : Token → Parser β} (hne : kinds ≠ []) (heof : .eof ∉ kinds)
    (hf : ∀ t : Token, t.kind ∈ kinds → Implements d k anyWord (f t) (g (t.down d)) G S ν R) :
    Implements d k K (Parser.expectAny kinds what >>= f) (Parser.expectAny kinds what >>= g)
      (.seq (.oneOf kinds) G) S ν R :=
  (expectAny_first hne heof hf).le (Nat.le_succ k)

theorem expect_first {f g : Token → Parser β} (heof : .eof ≠ kd)
    (hf : ∀ t : Token, t.kind = kd → Implements d k anyWord (f t) (g (t.down d)) G S ν R) :
    Implements d (k + 1) K (Parser.expect kd what >>= f) (Parser.expect kd what >>= g)
      (.seq (.kind kd) G) S ν R := by
  have h : Implements d (k + 1) K (Parser.expectAny [kd] what >>= f)
      (Parser.expectAny [kd] what >>= g) (.seq (.oneOf [kd]) G) S ν R :=
    expectAny_first (cons_ne_nil _ _) (by simpa using heof) fun t ht => hf t (mem_singleton.mp ht)
  exact h

theorem expect {f g : Token → Parser β} (heof : (kd == .eof) = false)
    (hf : ∀ t : Token, t.kind = kd → Implements d k anyWord (f t) (g (t.down d)) G S ν R) :
    Implements d k K (Parser.expect kd what >>= f) (Parser.expect kd what >>= g)
      (.seq (.kind kd) G) S ν R :=
  (expect_first (ne_of_beq_false heof).symm hf).le (Nat.le_succ k)

theorem expectAny_only (hne : kinds ≠ []) (heof : .eof ∉ kinds) :
    Implements d k K (Parser.expectAny kinds what) (Parser.expectAny kinds what) (.oneOf kinds) S
      (Token.down d) anyValue := by
  have h : Implements d k K (Parser.expectAny kinds what >>= fun t => Pure.pure t)
      (Parser.expectAny kinds what >>= fun t => Pure.pure t) (.seq (.oneOf kinds) .empty) S
      (Token.down d) anyValue :=
    expectAny hne heof fun t _ => pure rfl trivial
  rw [Parser.bind_pure] at h
  exact h.congr fun _ => seq_empty_iff

theorem expect_only (heof : .eof ≠ kd) :
    Implements d k K (Parser.expect kd what) (Parser.expect kd what) (.kind kd) S (Token.down d)
      anyValue := by
  have h : Implements d k K (Parser.expectAny [kd] what) (Parser.expectAny [kd] what)
      (.oneOf [kd]) S (Token.down d) anyValue :=
    expectAny_only (cons_ne_nil _ _) (by simpa using heof)
  exact h

/-- A token that may be of the kind, in front of what does not start with
it. -/
theorem accept {f g : Option Token → Parser β} (heof : .eof ≠ kd) (hstop : Stops G S (· ≠ kd))
    (hf : ∀ t? : Option Token, Implements d k anyWord (f t?) (g (t?.map (Token.down d))) G S ν R) :
    Implements d k K (Parser.accept kd >>= f) (Parser.accept kd >>= g)
      (.seq (.opt (.kind kd)) G) S ν R where
  sound := by
    refine .accept (Ne.symm heof) (fun t ht => ?_) ?_
    · refine (hf (some t)).sound.imp fun b ws hD hb => ?_
      exact .seq (u := [t.word]) (.some (kind_iff.mpr ⟨_, rfl, ht⟩)) (hD hb)
    · exact (hf none).sound.mono (fun _ _ => trivial) fun b ws hD hb =>
        .seq (u := []) .none (hD hb)
  reads := by
    intro ws hws hfair
    obtain ⟨u, v, rfl, hu, hv⟩ := seq_iff.mp hws
    cases hu with
    | none =>
      refine .acceptAny_none (fun kd' hkd' hmem => ?_) ((hf none).reads v hv hfair.right)
      exact hstop.nextKind hv hkd' (mem_singleton.mp hmem)
    | some hu =>
      obtain ⟨w, rfl, hw⟩ := kind_iff.mp hu
      refine .acceptAny_some (fun h => heof (h ▸ hw)) (mem_singleton.mpr hw) ?_
      exact fun t _ => (hf (some t)).reads v hv hfair.right

/-- Whether a token is of the kind, in front of what does not start with
it. -/
theorem accepts {f g : Bool → Parser β} (heof : .eof ≠ kd) (hstop : Stops G S (· ≠ kd))
    (hf : ∀ b : Bool, Implements d k anyWord (f b) (g b) G S ν R) :
    Implements d k K (Parser.accepts kd >>= f) (Parser.accepts kd >>= g)
      (.seq (.opt (.kind kd)) G) S ν R := by
  rw [Reads.accepts_bind, Reads.accepts_bind]
  refine accept heof hstop fun t? => ?_
  rw [Option.isSome_map]
  exact hf t?.isSome

theorem accepts_here {f g : Bool → Parser β} (heof : .eof ≠ kd) (hK : ∀ w, K w → w.kind = kd)
    (hf : Implements d k anyWord (f true) (g true) G S ν R) :
    Implements d k K (Parser.accepts kd >>= f) (Parser.accepts kd >>= g) (.seq (.kind kd) G) S ν
      R where
  sound := by
    refine .accepts (Ne.symm heof) (fun w hw => ?_) fun c hc => absurd (hK _ hc.1) hc.2
    refine hf.sound.imp fun b v hD hb => ?_
    exact .seq (u := [w]) (kind_iff.mpr ⟨w, rfl, hw⟩) (hD hb)
  reads := by
    intro ws hws hfair
    obtain ⟨u, v, rfl, hu, hv⟩ := seq_iff.mp hws
    obtain ⟨w, rfl, hw⟩ := kind_iff.mp hu
    exact .accepts_true (fun h => heof (h ▸ hw)) hw (hf.reads v hv hfair.right)

/-- No token of the kind, where another is known to be there. -/
theorem accepts_other {f g : Bool → Parser β} (hG : G.isNullable = false)
    (hK : ∀ w, K w → w.kind ≠ kd) (hf : Implements d k K (f false) (g false) G S ν R) :
    Implements d k K (Parser.accepts kd >>= f) (Parser.accepts kd >>= g) G S ν R := by
  have hrun : ∀ c : Cursor, K c.peek.word → Parser.accepts kd c = .ok false c :=
    fun c hc => Parser.accepts_run_other (hK _ hc)
  exact skip hG hrun hrun hf

theorem behind_reads (heof : .eof ≠ kd) (hp : Implements d k anyWord p q G S μ anyValue)
    (hws : Derived (.seq (.kind kd) G) ws) (hfair : Fair k K ws) :
    ReadsTwice d (Parser.behind kd p) (Parser.behind kd q) ws S (Option.map μ)
      (·.isSome = true) := by
  obtain ⟨u, v, rfl, hu, hv⟩ := seq_iff.mp hws
  obtain ⟨w, rfl, hw⟩ := kind_iff.mp hu
  refine .accepts_true (fun h => heof (h ▸ hw)) hw ?_
  rw [← append_nil v]
  refine (hp.reads v hv hfair.right).bind (fun _ h => h) fun a _ => ?_
  exact .pure rfl rfl

/-- What stands behind a token of the kind, if it is there. -/
theorem behind (heof : .eof ≠ kd) (hp : Implements d k anyWord p q G S μ anyValue) :
    Implements d k K (Parser.behind kd p) (Parser.behind kd q) (.opt (.seq (.kind kd) G))
      (fun kd' => S kd' ∧ kd' ≠ kd) (Option.map μ) anyValue where
  sound := by
    refine .accepts (Ne.symm heof) (fun w hw => ?_) ?_
    · refine hp.sound.bind fun a => .pure fun u hu _ => ?_
      rw [append_nil]
      exact .some (.seq (u := [w]) (kind_iff.mpr ⟨w, rfl, hw⟩) (hu trivial))
    · exact .pure fun _ => .none
  reads := by
    intro ws hws hfair
    cases hws with
    | none => exact .accepts_false (fun _ h => h.2) (.pure rfl trivial)
    | some hws => exact (behind_reads heof hp hws hfair).mono (fun _ h => h.1) fun _ _ => trivial

theorem unless_kind (hG : G.isNullable = false) (hkd : kd ∉ G.starts Rule.first) (hS : S kd)
    (hb : b = μ a) (hp : Implements d k anyWord p q G S μ anyValue) :
    Implements d k K (Parser.kind >>= fun kd' => if kd' = kd then Pure.pure a else p)
      (Parser.kind >>= fun kd' => if kd' = kd then Pure.pure b else q) (.opt G) (· = kd) μ
      anyValue where
  sound := by
    refine .kind fun kd' => ?_
    by_cases h : kd' = kd
    · rw [if_pos h]
      exact .pure fun _ => .none
    · rw [if_neg h]
      exact hp.sound.mono (fun _ _ => trivial) fun _ _ hD ha => .some (hD ha)
  reads := by
    intro ws hws hfair
    cases hws with
    | none =>
      refine .look fun c c' ts rest rest' _ hleft hright hws hS hS' => ?_
      have hc : c.kind = kd := (c.kind_eq hleft hws).trans hS
      have hc' : c'.kind = kd := (c'.kind_eq hright ((words_down ts).trans hws)).trans hS'
      refine ⟨c.kind, c'.kind, rfl, rfl, ?_⟩
      rw [hc, hc', if_pos rfl, if_pos rfl]
      exact .pure hb trivial
    | some hws =>
      obtain ⟨w, v, rfl, hw⟩ := hws.exists_cons hG
      have hne : w.kind ≠ kd := fun h => hkd (h ▸ hw)
      refine .kind ?_
      rw [if_neg hne, if_neg hne]
      refine (hp.anywhere.reads _ hws hfair).mono (fun kd' h => ?_) fun _ h => h
      rw [h]
      exact hS

theorem unlessNext (hG : G.isNullable = false) (hkd : kd ∉ G.starts Rule.first) (hS : S kd)
    (hp : Implements d k anyWord p q G S μ anyValue) :
    Implements d k K (Parser.unlessNext kd p) (Parser.unlessNext kd q) (.opt G) (· = kd)
      (Option.map μ) anyValue := by
  have hsome : Implements d k anyWord (p >>= fun a => Pure.pure (some a))
      (q >>= fun a => Pure.pure (some a)) G S (Option.map μ) anyValue :=
    hp.bind_pure (fun _ => rfl) fun _ => trivial
  exact hsome.unless_kind (a := none) (b := none) hG hkd hS rfl

/-- A grammar may be widened by what no fair words derive. -/
theorem widen (h : Implements d k K p q G S μ P) (hwider : ∀ ws, Derived G ws → Derived G' ws)
    (hfair : ∀ ws, Derived G' ws → Fair k K ws → Derived G ws) :
    Implements d k K p q G' S μ P where
  sound := h.sound.imp fun _ _ hD ha => hwider _ (hD ha)
  reads ws hws hws' := h.reads ws (hfair ws hws hws') hws'

theorem opt_absent (hK : ∀ w, K w → w.kind ∉ G₁.starts Rule.first)
    (hG : G₁.isNullable = false) (h : Implements d k K p q G₂ S μ P) :
    Implements d k K p q (.seq (.opt G₁) G₂) S μ P := by
  refine h.widen (fun _ => .seq (u := []) .none) fun ws hws hfair => ?_
  obtain ⟨u, v, rfl, hu, hv⟩ := seq_iff.mp hws
  cases hu with
  | none => exact hv
  | some hu =>
    obtain ⟨w, u', rfl, hw⟩ := hu.exists_cons hG
    exact absurd hw (hK w (hfair.guard w rfl))

theorem many_absent (hK : ∀ w, K w → w.kind ∉ G₁.starts Rule.first)
    (hG : G₁.isNullable = false) (h : Implements d k K p q G₂ S μ P) :
    Implements d k K p q (.seq (.many G₁) G₂) S μ P := by
  refine h.widen (fun _ => .seq (u := []) .done) fun ws hws hfair => ?_
  obtain ⟨u, v, rfl, hu, hv⟩ := seq_iff.mp hws
  cases hu with
  | done => exact hv
  | more hu _ =>
    obtain ⟨w, u', rfl, hw⟩ := hu.exists_cons hG
    exact absurd hw (hK w (hfair.guard w rfl))

/-- The first part of a grammar may be widened by what no fair words
derive. -/
theorem widen_first (hwider : ∀ u, Derived G₁ u → Derived G₁' u)
    (hfair : ∀ u v, Derived G₁' u → Derived G₂ v → Fair k K (u ++ v) → Derived G₁ u)
    (h : Implements d k K p q (.seq G₁ G₂) S μ P) :
    Implements d k K p q (.seq G₁' G₂) S μ P := by
  refine h.widen (fun ws hws => ?_) fun ws hws hws' => ?_
  · obtain ⟨u, v, rfl, hu, hv⟩ := seq_iff.mp hws
    exact .seq (hwider u hu) hv
  · obtain ⟨u, v, rfl, hu, hv⟩ := seq_iff.mp hws
    exact .seq (hfair u v hu hv hws') hv

theorem opt_present (hK : ∀ w, K w → w.kind ∉ G₂.starts Rule.first)
    (hG : G₂.isNullable = false) (h : Implements d k K p q (.seq G₁ G₂) S μ P) :
    Implements d k K p q (.seq (.opt G₁) G₂) S μ P := by
  refine h.widen_first (fun _ => .some) fun u v hu hv hfair => ?_
  cases hu with
  | none =>
    obtain ⟨w, v', rfl, hw⟩ := hv.exists_cons hG
    exact absurd hw (hK w (hfair.guard w rfl))
  | some hu => exact hu

theorem seq_left (hno : ∀ u, Derived G₂ u → ¬ Fair k K u)
    (h : Implements d k K p q (.seq G₁ G) S μ P) :
    Implements d k K p q (.seq (.alt G₁ G₂) G) S μ P :=
  h.widen_first (fun _ => .left) fun u _ hu _ hfair =>
    (alt_iff.mp hu).resolve_right fun hu => hno u hu hfair.left

theorem seq_right (hno : ∀ u, Derived G₁ u → ¬ Fair k K u)
    (h : Implements d k K p q (.seq G₂ G) S μ P) :
    Implements d k K p q (.seq (.alt G₁ G₂) G) S μ P :=
  h.widen_first (fun _ => .right) fun u _ hu _ hfair =>
    (alt_iff.mp hu).resolve_left fun hu => hno u hu hfair.left

-- ==== loops

/-- Rounds that each read a body, and then the end of a loop. -/
theorem loop_reads {I : α → Prop} (hG : G₁.isNullable = false)
    (hstop : Stops (.seq (.many G₁) G₂) S S₁)
    (hagain : ∀ a, I a → ∀ ws, Derived G₁ ws → Fair k anyWord ws →
      ReadsTwice d (step a) (step' (μ a)) ws S₁ (ReadsTwice.moveRound μ ν)
        fun r => ∃ a₁, r = .again a₁ ∧ I a₁)
    (hloop : ∀ a, I a → ∀ ws, Derived G₂ ws → Fair k anyWord ws →
      ReadsTwice d (Parser.loop step a) (Parser.loop step' (μ a)) ws S ν R) {a : α} (ha : I a)
    {ws : List Word} (hws : Derived (.seq (.many G₁) G₂) ws) (hfair : Fair k anyWord ws) :
    ReadsTwice d (Parser.loop step a) (Parser.loop step' (μ a)) ws S ν R := by
  obtain ⟨u, v, rfl, hu, hv⟩ := seq_iff.mp hws
  obtain ⟨parts, rfl, hparts⟩ := many_iff.mp hu
  clear hu hws
  induction parts generalizing a with
  | nil => exact hloop a ha v hv hfair.right
  | cons x parts ih =>
    obtain ⟨hx, hparts⟩ := forall_mem_cons.mp hparts
    have hrest : Derived (.seq (.many G₁) G₂) (parts.flatten ++ v) :=
      .seq (many_iff.mpr ⟨parts, rfl, hparts⟩) hv
    rw [flatten_cons, append_assoc] at hfair ⊢
    refine .again (hagain a ha x hx hfair.left) ?_
      (fun kd hkd => hstop.nextKind hrest hkd) fun a₁ ha₁ => ih ha₁ hparts hfair.right
    obtain ⟨w, x', rfl, -⟩ := hx.exists_cons hG
    exact cons_ne_nil _ _

/-- A loop implements a repetition and what its last round reads. -/
theorem loop (hG : G₁.isNullable = false) (hstop : Stops (.seq (.many G₁) G₂) S S₁)
    (hsound : ∀ a, Spells anyWord (step a) fun r ws =>
      Spells.Leaves (fun _ => Derived G₁) (fun b ws => R b → Derived G₂ ws) ws r)
    (hagain : ∀ a ws, Derived G₁ ws → Fair k anyWord ws →
      ReadsTwice d (step a) (step' (μ a)) ws S₁ (ReadsTwice.moveRound μ ν)
        fun r => ∃ a₁, r = .again a₁) (hdone : ∀ a ws, Derived G₂ ws → Fair k anyWord ws →
      ReadsTwice d (step a) (step' (μ a)) ws S (ReadsTwice.moveRound μ ν)
        fun r => ∃ b, r = .done b ∧ R b) (a : α) :
    Implements d k anyWord (Parser.loop step a) (Parser.loop step' (μ a))
      (.seq (.many G₁) G₂) S ν R where
  sound := by
    have hstep : ∀ a, Spells anyWord (step a) fun r v => ∀ u, Derived (.many G₁) u →
        Spells.Leaves (fun _ => Derived (.many G₁))
          (fun b ws => R b → Derived (.seq (.many G₁) G₂) ws) (u ++ v) r := by
      refine fun a => (hsound a).imp fun r v hv u hu => ?_
      cases r with
      | again a₁ => exact hu.many_snoc hv
      | done b => exact fun hb => .seq hu (hv hb)
    have hloop := Spells.loop (I := fun _ => Derived (.many G₁)) hstep a
    exact hloop.imp fun b v hv => hv [] .done
  reads := by
    intro ws hws hfair
    refine loop_reads (I := anyValue) hG hstop (fun a _ ws hws hfair => ?_)
      (fun a _ ws hws hfair => .done (hdone a ws hws hfair)) trivial hws hfair
    exact (hagain a ws hws hfair).imp fun r ⟨a₁, hr⟩ => ⟨a₁, hr, trivial⟩

-- ==== lists

theorem itemsUntil (hG : G.isNullable = false) (hclosing : closing ∉ G.starts Rule.first)
    (heof : .eof ∉ G.starts Rule.first) (hstarts : ∀ kd ∈ G.starts Rule.first, S kd)
    (hS : S closing) (hp : Implements d k anyWord p q G S μ anyValue) :
    Implements d k K (Parser.itemsUntil closing p) (Parser.itemsUntil closing q) (.many G)
      (· = closing) (List.map μ) anyValue := by
  have hstop : Stops (.seq (.many G) .empty) (· = closing) S := by
    refine ⟨fun kd hkd => ?_, fun _ kd hkd => hkd ▸ hS⟩
    rcases mem_append.mp hkd with hkd | hkd
    · exact hstarts kd hkd
    · cases hkd
  have h : Implements d k anyWord (Parser.itemsUntil closing p) (Parser.itemsUntil closing q)
      (.seq (.many G) .empty) (· = closing) (List.map μ) anyValue := by
    refine loop (μ := List.map μ) hG hstop (fun items => ?_) (fun items ws hws hfair => ?_)
      (fun items ws hws _ => ?_) []
    · refine .get fun c _ => ?_
      show Spells _ (if c.kind = closing ∨ c.atEnd = true then _ else _) _
      split
      · exact .pure fun _ => .empty
      · refine (hp.sound.mono (fun _ _ => trivial) fun _ _ hD => hD).bind fun a => ?_
        refine .pure fun u hu => ?_
        rw [append_nil]
        exact hu trivial
    · obtain ⟨w, v, rfl, hw⟩ := hws.exists_cons hG
      refine .get fun c c' hc hc' => ?_
      have hopen : ∀ e : Cursor, e.peek.word = w → ¬ (e.kind = closing ∨ e.atEnd = true) := by
        intro e he
        have hkind : e.kind = w.kind := congrArg Word.kind he
        unfold Cursor.atEnd
        rw [hkind]
        rintro (h | h)
        · exact hclosing (h ▸ hw)
        · exact heof (of_decide_eq_true h ▸ hw)
      rw [if_neg (hopen c hc), if_neg (hopen c' hc')]
      have hitem : Implements d k anyWord
          (p >>= fun a => Pure.pure (Parser.Round.again (a :: items)))
          (q >>= fun a => Pure.pure (Parser.Round.again (a :: items.map μ))) G S
          (ReadsTwice.moveRound (β := List α) (List.map μ) (List.map μ))
          fun r => ∃ a₁, r = .again a₁ :=
        hp.bind_pure (fun _ => rfl) fun a => ⟨_, rfl⟩
      exact hitem.reads _ hws hfair
    · rw [hws.eq_nil]
      refine .get_nil fun c c' hc hc' => ?_
      rw [if_pos (Or.inl hc), if_pos (Or.inl hc')]
      exact ReadsTwice.pure (by simp [ReadsTwice.moveRound]) ⟨_, rfl, trivial⟩
  exact (h.congr fun _ => seq_empty_iff).anywhere

theorem derived_commas :
    Derived (.seq (.many (.seq G (.kind .comma))) G) ws
      ↔ Derived (.all [G, .many (.all [.kind .comma, G])]) ws := by
  have hpair : ∀ {b a : List Word}, Derived (.kind .comma) b → Derived G a →
      Derived (.all [.kind .comma, G]) (b ++ a) := fun hb ha =>
    .seq hb (seq_empty_iff.mpr ha)
  constructor
  · intro h
    obtain ⟨x, y, rfl, hx, hy⟩ := seq_iff.mp h
    obtain ⟨parts, rfl, hparts⟩ := many_iff.mp hx
    clear hx h
    induction parts with
    | nil =>
      have hnone : Derived (.many (.all [.kind .comma, G])) [] := .done
      rw [flatten_nil, nil_append, ← append_nil y]
      exact .seq hy (seq_empty_iff.mpr hnone)
    | cons u parts ih =>
      obtain ⟨hu, htail⟩ := forall_mem_cons.mp hparts
      obtain ⟨a, b, rfl, ha, hb⟩ := seq_iff.mp hu
      obtain ⟨a', rest, hrest, ha', hmany⟩ := seq_iff.mp (ih htail)
      have hmore := Derives.more (hpair hb ha') (seq_empty_iff.mp hmany)
      rw [flatten_cons, append_assoc, hrest, append_assoc, ← append_assoc b]
      exact .seq ha (seq_empty_iff.mpr hmore)
  · intro h
    obtain ⟨x, y, rfl, hx, hy⟩ := seq_iff.mp h
    obtain ⟨parts, rfl, hparts⟩ := many_iff.mp (seq_empty_iff.mp hy)
    clear hy h
    induction parts generalizing x with
    | nil =>
      rw [flatten_nil, append_nil]
      exact .seq (u := []) .done hx
    | cons u parts ih =>
      obtain ⟨hu, htail⟩ := forall_mem_cons.mp hparts
      obtain ⟨b, a, rfl, hb, ha⟩ := seq_iff.mp hu
      obtain ⟨z, y, hrest, hz, hy⟩ := seq_iff.mp (ih a (seq_empty_iff.mp ha) htail)
      rw [flatten_cons, append_assoc b, hrest, ← append_assoc, ← append_assoc]
      exact .seq (.more (.seq hx hb) hz) hy

theorem separated (hcomma : S .comma)
    (hp : Implements d k anyWord p q G S μ anyValue) :
    Implements d k K (Parser.separated p) (Parser.separated q)
      (.all [G, .many (.all [.kind .comma, G])]) (fun kd => S kd ∧ kd ≠ .comma) (List.map μ)
      anyValue := by
  have hG' : (Ebnf.seq G (.kind .comma)).isNullable = false := Bool.and_false _
  have hstop : Stops (.seq (.many (.seq G (.kind .comma))) G)
      (fun kd => S kd ∧ kd ≠ .comma) fun _ => True :=
    ⟨fun _ _ => trivial, fun _ _ _ => trivial⟩
  suffices h : Implements d k anyWord (Parser.separated p) (Parser.separated q)
      (.seq (.many (.seq G (.kind .comma))) G) (fun kd => S kd ∧ kd ≠ .comma) (List.map μ)
      anyValue from
    (h.congr fun _ => derived_commas).anywhere
  refine loop (μ := List.map μ) hG' hstop (fun items => ?_) (fun items ws hws hfair => ?_)
    (fun items ws hws hfair => ?_) []
  · refine (hp.sound.mono (fun _ _ => trivial) fun _ _ hD => hD trivial).bind fun a => ?_
    refine .accepts (by decide) (fun w hw => ?_) ?_
    · exact .pure fun u hu => .seq hu (kind_iff.mpr ⟨w, rfl, hw⟩)
    · refine .pure fun u hu _ => ?_
      rw [append_nil]
      exact hu
  · obtain ⟨u, v, rfl, hu, hv⟩ := seq_iff.mp hws
    obtain ⟨w, rfl, hw⟩ := kind_iff.mp hv
    refine (hp.reads u hu hfair.left).bind (fun _ _ => by rw [← hw] at hcomma; exact hcomma) ?_
    intro a _
    refine .accepts_true (by rw [hw]; decide) hw ?_
    exact .pure rfl ⟨_, rfl⟩
  · rw [← append_nil ws]
    refine (hp.reads ws hws hfair).bind (fun _ h => h.1) fun a _ => ?_
    refine .accepts_false (fun _ h => h.2) ?_
    refine .pure ?_ ⟨_, rfl, trivial⟩
    simp [ReadsTwice.moveRound]

theorem separatedUntil (hG : G.isNullable = false) (hclosing : closing ∉ G.starts Rule.first)
    (hS : S closing)
    (hp : Implements d k anyWord (Parser.separated p) (Parser.separated q) G S (List.map μ)
      anyValue) :
    Implements d k K (Parser.separatedUntil closing p) (Parser.separatedUntil closing q) (.opt G)
      (· = closing) (List.map μ) anyValue := by
  refine (hp.unlessNext hG hclosing hS).bind_pure (fun items? => ?_) fun _ => trivial
  cases items? <;> rfl

end Implements

end SketchCompiler
