/-
What a parser does, wherever it starts.

# Cursors in order

A cursor leads to another if tokens were read in between, none of them
the end marker, and no report was taken back (`c ≤ c'`).  Tokens and
spans lie within the two if they were read on the way (`Token.Within`,
`Span.Within`).

# Runs

`Tracks lo c m p S` says what a run of `p` from `c` comes to, as part of
a rule that was started at `lo`.  It stops further on, and what it
yields satisfies `S` there; or it gives up with a report.  All reports
are at tokens of `lo`.  It aborts only for a token of `lo` that denotes
no number, and it runs out of nesting only where more than `m` tokens are
left.  Runs with reports count like all others, and nothing is assumed of
the tokens.
-/
import Mathlib.Tactic.Order
import SketchCompiler.Proofs.Spans
import SketchCompiler.Program.StmtGrammar

namespace SketchCompiler

open List

variable {t t' : Token} {k : Kind} {c c' lo lo' mid hi hi' : Cursor}

variable {α β : Type}
  {s : Span} {as : List α} {spans : α → List Span}

-- ==== cursors

/-- All tokens that are left satisfy the predicate. -/
def Cursor.All (T : Token → Prop) (c : Cursor) : Prop :=
  ∀ t ∈ c.rest, T t

/-- The end marker is still to be read. -/
def Cursor.Ends (c : Cursor) : Prop :=
  ∃ t ∈ c.rest, t.kind = .eof

theorem Cursor.advance_errors (c : Cursor) : c.advance.errors = c.errors := by
  unfold Cursor.advance
  split <;> rfl

theorem Cursor.advance_last (hk : c.kind ≠ .eof) : c.advance.last = c.peek := by
  unfold Cursor.advance Cursor.atEnd
  rw [if_neg (by simpa using hk)]

theorem Cursor.rest_eq (hk : c.kind ≠ .eof) : c.rest = c.peek :: c.advance.rest := by
  have hend : c.atEnd = false := decide_eq_false hk
  unfold Cursor.advance
  rw [hend]
  cases hc : c.rest with
  | nil =>
    unfold Cursor.kind Cursor.peek at hk
    rw [hc] at hk
    exact absurd rfl hk
  | cons t rest =>
    unfold Cursor.peek
    rw [hc]
    rfl

theorem Cursor.report_errors_ne (c : Cursor) (t : Token) (issue : ParseIssue) :
    (c.report t issue).errors ≠ [] :=
  append_ne_nil_of_right_ne_nil _ (cons_ne_nil _ _)

-- ==== cursors in order

/-- The token was read on the way from the first cursor to the second. -/
def Token.Within (lo hi : Cursor) (t : Token) : Prop :=
  ∃ rest, t :: rest <:+ lo.rest ∧ hi.rest <:+ rest

/-- The second token was read behind the first, or is the first. -/
def Token.Through (lo hi : Cursor) (t t' : Token) : Prop :=
  ∃ rest rest', t :: rest <:+ lo.rest ∧ t' :: rest' <:+ t :: rest ∧ hi.rest <:+ rest'

/-- Reading goes from the first cursor to the second. -/
structure Cursor.Leads (c c' : Cursor) : Prop where
  file : c'.file = c.file
  read : ∃ ts, ts ++ c'.rest = c.rest ∧ ∀ t ∈ ts, t.kind ≠ .eof
  last : c'.last = c.last ∨ c'.last.Within c c'
  clean : c'.errors = [] → c.errors = []

theorem Cursor.Leads.suffix (h : c.Leads c') : c'.rest <:+ c.rest := by
  obtain ⟨ts, hts, -⟩ := h.read
  exact ⟨ts, hts⟩

theorem Token.Within.widen (h : t.Within lo hi) (hlo : lo.rest <:+ lo'.rest)
    (hhi : hi'.rest <:+ hi.rest) : t.Within lo' hi' := by
  obtain ⟨rest, hstart, hstop⟩ := h
  exact ⟨rest, hstart.trans hlo, hhi.trans hstop⟩

instance : Preorder Cursor where
  le := Cursor.Leads
  le_refl c := ⟨rfl, ⟨[], rfl, by simp⟩, .inl rfl, id⟩
  le_trans a b c hab hbc := by
    obtain ⟨ts, hts, heof⟩ := hab.read
    obtain ⟨ts', hts', heof'⟩ := hbc.read
    refine ⟨hbc.file.trans hab.file, ⟨ts ++ ts', ?_, ?_⟩, ?_, fun h => hab.clean (hbc.clean h)⟩
    · rw [append_assoc, hts', hts]
    · exact forall_mem_append.mpr ⟨heof, heof'⟩
    · rcases hbc.last with hlast | hwithin
      · rw [hlast]
        exact hab.last.imp_right fun h => h.widen (suffix_refl _) hbc.suffix
      · exact .inr (hwithin.widen hab.suffix (suffix_refl _))

theorem Cursor.suffix_of_le (h : c ≤ c') : c'.rest <:+ c.rest := Leads.suffix h

theorem Cursor.length_of_le (h : c ≤ c') : c'.rest.length ≤ c.rest.length :=
  (suffix_of_le h).length_le

theorem Cursor.Ends.of_le (he : c.Ends) (h : c ≤ c') : c'.Ends := by
  obtain ⟨ts, hts, heof⟩ := Leads.read h
  obtain ⟨t, ht, hk⟩ := he
  rw [← hts] at ht
  rcases mem_append.mp ht with ht | ht
  · exact absurd hk (heof t ht)
  · exact ⟨t, ht, hk⟩

theorem Cursor.le_behind {c : Cursor} {rest : List Token} (hrest : c.rest = t :: rest)
    (hk : t.kind ≠ .eof) : c ≤ { c with rest, last := t } := by
  refine Leads.mk rfl ⟨[t], ?_, forall_mem_singleton.mpr hk⟩ (.inr ⟨rest, ?_, ?_⟩) id
  · exact hrest.symm
  · exact hrest ▸ suffix_refl _
  · exact suffix_refl _

theorem Cursor.le_advance (hk : c.kind ≠ .eof) : c ≤ c.advance := by
  have hadvance : c.advance = { c with rest := c.advance.rest, last := c.peek } := by
    unfold Cursor.advance Cursor.atEnd
    rw [if_neg (by simpa using hk)]
  rw [hadvance]
  exact le_behind (rest_eq hk) hk

theorem Cursor.peek_within (hk : c.kind ≠ .eof) : c.peek.Within c c.advance :=
  ⟨c.advance.rest, (rest_eq hk).symm ▸ suffix_refl _, suffix_refl _⟩

theorem Cursor.le_report (c : Cursor) (t : Token) (issue : ParseIssue) : c ≤ c.report t issue :=
  Leads.mk rfl ⟨[], rfl, by simp⟩ (.inl rfl) fun h => absurd h (c.report_errors_ne t issue)

theorem Grammar.le_recover (c : Cursor) : c ≤ recover c := by
  have hskip (c : Cursor) : c ≤ { c with last := (skipTokens c.last c.rest).1
                                         rest := (skipTokens c.last c.rest).2 } := by
    obtain ⟨file, rest, last, errors⟩ := c
    dsimp only
    fun_induction skipTokens last rest with
    | case1 last => exact le_rfl
    | case2 last t rest _ => exact le_rfl
    | case3 last t rest hgo ih =>
      exact (Cursor.le_behind (c := ⟨file, t :: rest, last, errors⟩) rfl fun h =>
        hgo (.inl h)).trans ih
  have hadvance : c ≤ c.advance := by
    by_cases hk : c.kind = .eof
    · have hstay : c.advance = c := if_pos (by simpa [Cursor.atEnd] using hk)
      rw [hstay]
    · exact Cursor.le_advance hk
  exact hadvance.trans (hskip c.advance)

theorem Grammar.recover_errors (c : Cursor) : (recover c).errors = c.errors := c.advance_errors

theorem Cursor.length_lt_of_le (h : c ≤ c') (hk : c.kind ≠ c'.kind) :
    c'.rest.length < c.rest.length := by
  refine lt_of_le_of_ne (length_of_le h) fun hlen => hk ?_
  unfold Cursor.kind Cursor.peek
  rw [(suffix_of_le h).eq_of_length hlen]

theorem Grammar.length_recover_lt (hk : c.kind ≠ .eof) :
    (recover c).rest.length < c.rest.length := by
  have hskip (last : Token) (rest : List Token) :
      (skipTokens last rest).2.length ≤ rest.length := by
    fun_induction skipTokens last rest with
    | case1 => exact Nat.le_refl _
    | case2 => exact Nat.le_refl _
    | case3 last t rest _ ih => exact Nat.le_succ_of_le ih
  rw [Cursor.rest_eq hk]
  exact Nat.lt_succ_of_le (hskip _ _)

-- ==== reports

/-- The cursor was reached from `lo`, and what was reported since is at
tokens of `lo`. -/
structure Cursor.Sees (lo c : Cursor) : Prop where
  le : lo ≤ c
  errors : lo.Ends → ∀ e ∈ c.errors, e ∈ lo.errors ∨ ∃ t ∈ lo.rest, t.pos = e.pos

namespace Cursor.Sees

theorem refl (c : Cursor) : c.Sees c := ⟨le_rfl, fun _ _ he => .inl he⟩

theorem trans (h : lo.Sees mid) (h' : mid.Sees hi) : lo.Sees hi := by
  refine ⟨h.le.trans h'.le, fun hends e he => ?_⟩
  rcases h'.errors (hends.of_le h.le) e he with hold | ⟨t, ht, hpos⟩
  · exact h.errors hends e hold
  · exact .inr ⟨t, (suffix_of_le h.le).subset ht, hpos⟩

theorem advance (h : lo.Sees c) (hk : c.kind ≠ .eof) : lo.Sees c.advance := by
  refine ⟨h.le.trans (le_advance hk), fun hends => ?_⟩
  rw [advance_errors]
  exact h.errors hends

theorem recover (h : lo.Sees c) : lo.Sees (Grammar.recover c) := by
  refine ⟨h.le.trans (Grammar.le_recover c), fun hends => ?_⟩
  rw [Grammar.recover_errors]
  exact h.errors hends

/-- A report at a token of `lo`. -/
theorem report (h : lo.Sees c) (ht : lo.Ends → t ∈ lo.rest) (issue : ParseIssue) :
    lo.Sees (c.report t issue) :=
  ⟨h.le.trans (le_report c t issue), fun hends => forall_mem_append.mpr
    ⟨h.errors hends, forall_mem_singleton.mpr (.inr ⟨t, ht hends, rfl⟩)⟩⟩

theorem peek_mem (h : lo.Sees c) (hends : lo.Ends) : c.peek ∈ lo.rest := by
  obtain ⟨t, ht, -⟩ := hends.of_le h.le
  obtain ⟨u, rest, hrest⟩ := exists_cons_of_ne_nil (ne_nil_of_mem ht)
  refine (suffix_of_le h.le).subset ?_
  unfold Cursor.peek
  rw [hrest]
  exact mem_cons_self

end Cursor.Sees

-- ==== between cursors

namespace Token.Within

theorem mono (h : t.Within lo hi) (hlo : lo' ≤ lo) (hhi : hi ≤ hi') : t.Within lo' hi' :=
  h.widen (Cursor.suffix_of_le hlo) (Cursor.suffix_of_le hhi)

theorem mem (h : t.Within lo hi) : t ∈ lo.rest := by
  obtain ⟨rest, hstart, -⟩ := h
  exact hstart.subset mem_cons_self

theorem length_lt (h : t.Within lo hi) : hi.rest.length < lo.rest.length := by
  obtain ⟨rest, hstart, hstop⟩ := h
  exact Nat.lt_of_le_of_lt hstop.length_le hstart.length_le

theorem self (h : t.Within lo hi) : t.Through lo hi t := by
  obtain ⟨rest, hstart, hstop⟩ := h
  exact ⟨rest, rest, hstart, suffix_refl _, hstop⟩

end Token.Within

theorem Token.Through.trans {u u' : Token} (h : t.Through lo mid u) (h' : u'.Through mid hi t') :
    t.Through lo hi t' := by
  obtain ⟨rest, rest', hstart, hrest, hmid⟩ := h
  obtain ⟨last, last', hlast, hbehind, hstop⟩ := h'
  have hcons : rest' <:+ t :: rest := (suffix_cons _ _).trans hrest
  exact ⟨rest, last', hstart, hbehind.trans (hlast.trans (hmid.trans hcons)), hstop⟩

/-- The span runs from a token that was read to the same token or a later
one, or behind. -/
structure Span.Within (lo hi : Cursor) (s : Span) : Prop where
  file : s.file = lo.file
  places : ∃ t t' : Token, t.Through lo hi t' ∧ t.pos = s.start ∧ t'.pos ≤ s.stop

theorem Span.Within.mono (h : s.Within lo hi) (hlo : lo' ≤ lo) (hhi : hi ≤ hi') :
    s.Within lo' hi' := by
  obtain ⟨t, t', ⟨rest, rest', hstart, hrest, hstop⟩, hplaces⟩ := h.places
  exact ⟨h.file.trans (Cursor.Leads.file hlo), t, t', ⟨rest, rest',
    hstart.trans (Cursor.suffix_of_le hlo), hrest, (Cursor.suffix_of_le hhi).trans hstop⟩, hplaces⟩

theorem Token.pos_le_stop (t : Token) (file : String) : t.pos ≤ (t.span file).stop := by
  refine Pos.le_iff.mpr (.inr ⟨rfl, ?_⟩)
  show t.pos.column ≤ t.pos.column + max 1 t.lexeme.length - 1
  omega

theorem Token.Within.span (h : t.Within lo hi) : (t.span lo.file).Within lo hi :=
  ⟨rfl, t, t, h.self, rfl, t.pos_le_stop _⟩

theorem Token.Within.between (h : t.Within lo mid) (h' : t'.Within mid hi) :
    (Span.between lo.file t t').Within lo hi :=
  ⟨rfl, t, t', h.self.trans h'.self, rfl, le_rfl⟩

theorem Span.Within.upTo {a b : Span} (ha : a.Within lo mid) (hb : b.Within mid hi) :
    (a.upTo b).Within lo hi := by
  obtain ⟨t, _, hread, hpos, -⟩ := ha.places
  obtain ⟨_, t', hread', -, hend⟩ := hb.places
  exact ⟨ha.file, t, t', hread.trans hread', hpos, hend⟩

theorem Span.Within.upToToken {a : Span} {file : String} (ha : a.Within lo mid)
    (ht : t.Within mid hi) :
    (a.upTo (t.span file)).Within lo hi := by
  obtain ⟨t', _, hread, hpos, -⟩ := ha.places
  exact ⟨ha.file, t', t, hread.trans ht.self, hpos, t.pos_le_stop file⟩

-- ==== runs

/-- The token is a numeral that denotes no number. -/
def Token.Refuses (t : Token) (e : NumeralError) : Prop :=
  match t.kind with
  | .int => Numeral.readInt .marked t.lexeme = .error e
  | .duration => Numeral.readInt .ten (Grammar.durationParts t.lexeme).1 = .error e
  | .float => Numeral.readFloat t.lexeme = .error e
  | _ => False

/-- The outcome of a run from a cursor. -/
def Parsed.Tracks (lo c : Cursor) (m : Nat) (S : Cursor → α → Prop) : Parsed α → Prop
  | .ok a c' => c ≤ c' ∧ lo.Sees c' ∧ S c' a
  | .failed c' => c ≤ c' ∧ lo.Sees c' ∧ c'.errors ≠ []
  | .abort e => ∃ t ∈ lo.rest, t.Refuses e
  | .exhausted => lo.Ends → m < c.rest.length

/-- Run from a cursor as part of a rule that was started at `lo`, the
parser stops further on, and what it yields satisfies `S` there. -/
def Tracks (lo c : Cursor) (m : Nat) (p : Parser α) (S : Cursor → α → Prop) : Prop :=
  lo.Sees c → (p c).Tracks lo c m S

theorem Parsed.Tracks.mono {m : Nat} {S R : Cursor → α → Prop} {r : Parsed α}
    (h : r.Tracks lo c m S) (hle : c' ≤ c) (hm : lo.Ends → m < c.rest.length → m' < c'.rest.length)
    (hSR : ∀ hi a, c ≤ hi → S hi a → R hi a) : r.Tracks lo c' m' R := by
  cases r with
  | ok a c₁ => exact ⟨hle.trans h.1, h.2.1, hSR c₁ a h.1 h.2.2⟩
  | failed c₁ => exact ⟨hle.trans h.1, h.2⟩
  | abort e => exact h
  | exhausted => exact fun hends => hm hends (h hends)

namespace Tracks

variable {m m' : Nat} {S S' : Cursor → α → Prop} {R : Cursor → β → Prop} {p : Parser α}

-- ==== values and sequence

theorem mono (h : Tracks lo c m p S) (hS : ∀ hi a, c ≤ hi → S hi a → S' hi a) :
    Tracks lo c m p S' :=
  fun hc => (h hc).mono le_rfl (fun _ hm => hm) hS

theorem pure {a : α} (h : S c a) : Tracks lo c m (Pure.pure a) S := fun hc => ⟨le_rfl, hc, h⟩

theorem bind_lt {f : α → Parser β} (hp : Tracks lo c m p S)
    (hf : ∀ a mid, c ≤ mid → S mid a → Tracks lo mid m' (f a) R)
    (hm : ∀ a mid, c ≤ mid → S mid a → m' < mid.rest.length → m < c.rest.length) :
    Tracks lo c m (p >>= f) R := by
  intro hc
  have h := hp hc
  show (Parser.bind p f c).Tracks lo c m R
  unfold Parser.bind
  cases hr : p c with
  | ok a c₁ =>
    rw [hr] at h
    obtain ⟨hle, hsees, hS⟩ := h
    exact (hf a c₁ hle hS hsees).mono hle (fun _ => hm a c₁ hle hS) fun _ _ _ hR => hR
  | failed c₁ =>
    rw [hr] at h
    exact h
  | abort e =>
    rw [hr] at h
    exact h
  | exhausted =>
    rw [hr] at h
    exact h

theorem bind (hp : Tracks lo c m p S) (hf : ∀ a mid, c ≤ mid → S mid a → Tracks lo mid m (f a) R) :
    Tracks lo c m (p >>= f) R :=
  hp.bind_lt hf fun _ _ hle _ hm => hm.trans_le (Cursor.length_of_le hle)

-- ==== what moves not

theorem get (hf : Tracks lo c m (f c) R) : Tracks lo c m (Parser.get >>= f) R := hf

theorem kind (hf : Tracks lo c m (f c.kind) R) : Tracks lo c m (Parser.kind >>= f) R := hf

theorem file (hf : Tracks lo c m (f lo.file) R) : Tracks lo c m (Parser.file >>= f) R := by
  intro hc
  show (f c.file c).Tracks lo c m R
  rw [Cursor.Leads.file hc.le]
  exact hf hc

theorem spanOf (hf : Tracks lo c m (f (t.span lo.file)) R) :
    Tracks lo c m (Parser.spanOf t >>= f) R :=
  file (f := fun s => f (t.span s)) hf

theorem between (hf : Tracks lo c m (f (Span.between lo.file t t')) R) :
    Tracks lo c m (Parser.between t t' >>= f) R :=
  file (f := fun s => f (Span.between s t t')) hf

theorem last : Tracks lo c m Parser.last fun hi t => hi = c ∧ t = c.last :=
  fun hc => ⟨le_rfl, hc, rfl, rfl⟩

/-- The number that a token denotes. -/
theorem number {read : Except NumeralError α} (ht : t ∈ lo.rest)
    (hread : ∀ e, read = .error e → t.Refuses e) :
    Tracks lo c m (Parser.number read) fun _ a => read = .ok a := by
  intro hc
  unfold Parser.number
  cases read with
  | ok a => exact ⟨le_rfl, hc, rfl⟩
  | error e => exact ⟨t, ht, hread e rfl⟩

-- ==== reports

theorem failAt (ht : t ∈ lo.rest) (issue : ParseIssue) : Tracks lo c m (Parser.failAt t issue) S :=
  fun hc => ⟨c.le_report t issue, hc.report (fun _ => ht) issue, c.report_errors_ne t issue⟩

theorem failHere (issue : ParseIssue) : Tracks lo c m (Parser.failHere issue) S :=
  fun hc => ⟨c.le_report _ issue, hc.report hc.peek_mem issue, c.report_errors_ne _ issue⟩

theorem reportAt (ht : t ∈ lo.rest) (issue : ParseIssue) :
    Tracks lo c m (Parser.reportAt t issue) fun hi _ => hi.errors ≠ [] :=
  fun hc => ⟨c.le_report t issue, hc.report (fun _ => ht) issue, c.report_errors_ne t issue⟩

end Tracks

-- ==== tokens

/-- The token is of one of the kinds, and was read last. -/
structure Token.Taken (kinds : List Kind) (c hi : Cursor) (t : Token) : Prop where
  within : t.Within c hi
  kind : t.kind ∈ kinds
  last : hi.last = t

theorem Cursor.taken (hk : c.kind ≠ .eof) (hkinds : c.kind ∈ kinds) :
    c.peek.Taken kinds c c.advance :=
  ⟨peek_within hk, hkinds, advance_last hk⟩

theorem Token.Taken.lt (h : t.Taken kinds c mid) (hle : mid ≤ hi) :
    hi.rest.length < c.rest.length :=
  Nat.lt_of_le_of_lt (Cursor.length_of_le hle) h.within.length_lt

theorem Token.Taken.from_le (h : t.Taken kinds c hi) (hle : lo ≤ c) : t.Taken kinds lo hi :=
  { h with within := h.within.mono hle le_rfl }

/-- A token was read, if one was left. -/
abbrev Cursor.Advances (c hi : Cursor) : Prop :=
  c.kind ≠ .eof → hi.rest.length < c.rest.length

namespace Tracks

variable {m m' : Nat} {S : Cursor → α → Prop} {R : Cursor → β → Prop}

theorem ahead (ht : t.Taken kinds c mid) (h : Tracks lo mid m p S) :
    Tracks lo mid m p fun hi a => S hi a ∧ c.Advances hi :=
  h.mono fun _ _ hle hS => ⟨hS, fun _ => ht.lt hle⟩

/-- What is read behind something that was read goes further. -/
theorem first (hp : Tracks lo c m p fun hi a => S hi a ∧ c.Advances hi)
    (hf : ∀ a mid, c ≤ mid → S mid a → Tracks lo mid m (f a) R) :
    Tracks lo c m (p >>= f) fun hi b => R hi b ∧ c.Advances hi :=
  hp.bind fun a mid hle hS => (hf a mid hle hS.1).mono fun _ _ hhi hR =>
    ⟨hR, fun hk => Nat.lt_of_le_of_lt (Cursor.length_of_le hhi) (hS.2 hk)⟩

/-- Behind the next token, which is not the end marker.  One token less
is left there. -/
theorem next {f : Token → Parser β} (hm : m ≤ m' + 1) (hk : c.kind ≠ .eof)
    (hf : ∀ t mid, c ≤ mid → t.Taken [c.kind] c mid → Tracks lo mid m' (f t) R) :
    Tracks lo c m (Parser.next >>= f) fun hi b => R hi b ∧ c.Advances hi := by
  intro hc
  have htaken := Cursor.taken hk (mem_singleton_self c.kind)
  have hle := Cursor.le_advance hk
  show (f c.advance.last c.advance).Tracks lo c m _
  rw [Cursor.advance_last hk]
  refine ((hf c.peek _ hle htaken).ahead htaken (hc.advance hk)).mono hle ?_ fun _ _ _ hR => hR
  have hlt := htaken.within.length_lt
  intro _ hm'
  omega

theorem option_lt {f : Option Token → Parser β} (hm : m ≤ m' + 1) (heof : .eof ∉ kinds)
    (hsome : ∀ t mid, c ≤ mid → t.Taken kinds c mid → Tracks lo mid m' (f (some t)) R)
    (hnone : c.kind ∉ kinds → Tracks lo c m (f none) R) :
    Tracks lo c m (Parser.acceptAny kinds >>= f) R := by
  by_cases hmem : kinds.contains c.kind = true
  · have hkinds : c.kind ∈ kinds := by simpa using hmem
    have hk : c.kind ≠ .eof := fun h => heof (h ▸ hkinds)
    have hrun : (Parser.acceptAny kinds >>= f) c = (Parser.next >>= fun t => f (some t)) c := by
      show Parser.bind (Parser.acceptAny kinds) f c = _
      unfold Parser.bind Parser.acceptAny
      rw [if_pos hmem]
      rfl
    intro hc
    rw [hrun]
    refine ((next hm hk fun t mid hle ht => hsome t mid hle ?_) hc).mono le_rfl (fun _ h => h)
      fun _ _ _ hR => hR.1
    exact ⟨ht.within, mem_singleton.mp ht.kind ▸ hkinds, ht.last⟩
  · have hrun : (Parser.acceptAny kinds >>= f) c = f none c := by
      show Parser.bind (Parser.acceptAny kinds) f c = _
      unfold Parser.bind Parser.acceptAny
      rw [if_neg hmem]
    intro hc
    rw [hrun]
    exact hnone (by simpa using hmem) hc

theorem option (heof : .eof ∉ kinds)
    (hsome : ∀ t mid, c ≤ mid → t.Taken kinds c mid → Tracks lo mid m (f (some t)) R)
    (hnone : Tracks lo c m (f none) R) : Tracks lo c m (Parser.acceptAny kinds >>= f) R :=
  option_lt (Nat.le_succ m) heof hsome fun _ => hnone

theorem whether_lt {f : Bool → Parser β} (hm : m ≤ m' + 1) (heof : (k == .eof) = false)
    (htrue : ∀ (t : Token) mid, c ≤ mid → t.Taken [k] c mid → Tracks lo mid m' (f true) R)
    (hfalse : c.kind ≠ k → Tracks lo c m (f false) R) :
    Tracks lo c m (Parser.accepts k >>= f) R := by
  have hrun : Parser.accepts k >>= f = Parser.acceptAny [k] >>= fun t? => f t?.isSome := by
    funext c
    show Parser.bind (Parser.bind (Parser.acceptAny [k]) _) f c = Parser.bind _ _ c
    unfold Parser.bind
    cases Parser.acceptAny [k] c <;> rfl
  rw [hrun]
  refine option_lt hm (by simpa using Ne.symm (ne_of_beq_false heof)) htrue fun hk => ?_
  exact hfalse fun h => hk (mem_singleton.mpr h)

theorem whether (heof : (k == .eof) = false)
    (htrue : ∀ (t : Token) mid, c ≤ mid → t.Taken [k] c mid → Tracks lo mid m (f true) R)
    (hfalse : Tracks lo c m (f false) R) : Tracks lo c m (Parser.accepts k >>= f) R :=
  whether_lt (Nat.le_succ m) heof htrue fun _ => hfalse

theorem accept (heof : (k == .eof) = false)
    (hf : ∀ t? mid, c ≤ mid → Tracks lo mid m (f t?) R) :
    Tracks lo c m (Parser.accept k >>= f) R :=
  option (by simpa using Ne.symm (ne_of_beq_false heof)) (fun _ mid hle _ => hf _ mid hle)
    (hf _ c le_rfl)

theorem expectAny (heof : .eof ∉ kinds) :
    Tracks lo c m (Parser.expectAny kinds what) fun hi t => t.Taken kinds c hi :=
  option heof (fun _ _ _ ht => .pure ht) (.failHere _)

theorem expect (heof : (k == .eof) = false) :
    Tracks lo c m (Parser.expect k what) fun hi t => t.Taken [k] c hi :=
  expectAny (by simpa using Ne.symm (ne_of_beq_false heof))

/-- Behind a token that has to be of some kind. -/
theorem token (heof : (k == .eof) = false)
    (hf : ∀ t mid, c ≤ mid → t.Taken [k] c mid → Tracks lo mid m (f t) R) :
    Tracks lo c m (Parser.expect k what >>= f) R :=
  .bind (.expect heof) hf

theorem enter (hm : m ≤ m' + 1) (heof : (k == .eof) = false)
    (hf : ∀ t mid, c ≤ mid → t.Taken [k] c mid → Tracks lo mid m' (f t) R) :
    Tracks lo c m (Parser.expect k what >>= f) fun hi b => R hi b ∧ c.Advances hi := by
  refine bind_lt (expect heof) (fun t mid hle ht => (hf t mid hle ht).ahead ht) ?_
  intro t mid _ ht hm'
  have hlt := ht.within.length_lt
  omega

-- ==== loops

/-- A round that keeps an invariant: again with it and fewer tokens left,
or done with a result. -/
def Keeps (I : Cursor → α → Prop) (R : Cursor → β → Prop) (c hi : Cursor) :
    Parser.Round α β → Prop
  | .again a => I hi a ∧ hi.rest.length < c.rest.length
  | .done b => R hi b

variable {I : Cursor → α → Prop} {step : α → Parser (Parser.Round α β)}

theorem rounds (hstep : ∀ a mid, c ≤ mid → I mid a → Tracks lo mid m (step a) (Keeps I R mid))
    (bound : List Token) (hle : c ≤ mid) (hbound : mid.rest.length ≤ bound.length) (ha : I mid a) :
    Tracks lo mid m (Parser.rounds step bound a) R := by
  induction bound generalizing a mid with
  | nil =>
    refine (hstep a mid hle ha).bind fun r hi hhi hr => ?_
    cases r with
    | again a' =>
      rw [length_nil] at hbound
      exact absurd hr.2 (by omega)
    | done b => exact .pure hr
  | cons _ bound ih =>
    refine (hstep a mid hle ha).bind fun r hi hhi hr => ?_
    cases r with
    | again a' =>
      rw [length_cons] at hbound
      exact ih (hle.trans hhi) (by have := hr.2; omega) hr.1
    | done b => exact .pure hr

theorem loop (hstep : ∀ a mid, c ≤ mid → I mid a → Tracks lo mid m (step a) (Keeps I R mid))
    (ha : I c a) : Tracks lo c m (Parser.loop step a) R :=
  rounds hstep c.rest le_rfl (Nat.le_refl _) ha

end Tracks

/-- As part of another rule. -/
theorem Tracks.inside (h : Tracks c c m p S) : Tracks lo c m p S := by
  intro hc
  have hrun := h (.refl c)
  cases hr : p c with
  | ok _ _ | failed _ =>
    rw [hr] at hrun
    exact ⟨hrun.1, hc.trans hrun.2.1, hrun.2.2⟩
  | abort e =>
    rw [hr] at hrun
    obtain ⟨t, ht, hrefuses⟩ := hrun
    exact ⟨t, (Cursor.suffix_of_le hc.le).subset ht, hrefuses⟩
  | exhausted =>
    rw [hr] at hrun
    exact fun hends => hrun (hends.of_le hc.le)

-- ==== rules

/-- The parser by itself, wherever it is run: what it yields is related to
where it starts and stops, and it reads a token if one is left. -/
def Runs (m : Nat) (p : Parser α) (S : Cursor → Cursor → α → Prop) : Prop :=
  ∀ c, Tracks c c m p fun hi a => S c hi a ∧ c.Advances hi

namespace Runs

variable {m : Nat} {p : Parser α} {S R : Cursor → Cursor → α → Prop}

theorem mono (h : Runs m p S) (hm : m' ≤ m) (hSR : ∀ c hi a, S c hi a → R c hi a) : Runs m' p R :=
  fun c hc => (h c hc).mono le_rfl (fun _ => Nat.lt_of_le_of_lt hm)
    fun hi a _ hS => ⟨hSR c hi a hS.1, hS.2⟩

theorem strict (h : Runs m p S) : Tracks lo c m p fun hi a => S c hi a ∧ c.Advances hi :=
  (h c).inside

theorem here (h : Runs m p S) : Tracks lo c m p (S c) := h.strict.mono fun _ _ _ hS => hS.1

end Runs

-- ==== values that fit

/-- The spans lie between the cursors, and `P` holds if the tokens there
satisfy `T` and nothing is reported. -/
structure Fits (T : Token → Prop) (lo hi : Cursor) (ss : List Span) (P : Prop) : Prop where
  spans : ∀ s ∈ ss, s.Within lo hi
  holds : lo.All T → hi.errors = [] → P

namespace Fits

variable {T : Token → Prop} {ss ss' : List Span} {P Q : Prop}

theorem mono (h : Fits T lo hi ss P) (hlo : lo' ≤ lo) (hhi : hi ≤ hi') : Fits T lo' hi' ss P where
  spans s hs := (h.spans s hs).mono hlo hhi
  holds hT herr := h.holds (fun t ht => hT t ((Cursor.suffix_of_le hlo).subset ht))
    (Cursor.Leads.clean hhi herr)

theorem of (h : P) : Fits T lo hi [] P := ⟨by simp, fun _ _ => h⟩

theorem imp (h : Fits T lo hi ss P) (hPQ : P → Q) : Fits T lo hi ss Q :=
  ⟨h.spans, fun hT herr => hPQ (h.holds hT herr)⟩

theorem cons (hs : s.Within lo hi) (h : Fits T lo hi ss P) : Fits T lo hi (s :: ss) P :=
  ⟨forall_mem_cons.mpr ⟨hs, h.spans⟩, h.holds⟩

/-- Of two parts both hold; one of them may have no spans. -/
theorem append (h : Fits T lo hi ss P) (h' : Fits T lo hi ss' Q) :
    Fits T lo hi (ss ++ ss') (P ∧ Q) :=
  ⟨forall_mem_append.mpr ⟨h.spans, h'.spans⟩, fun hT herr => ⟨h.holds hT herr, h'.holds hT herr⟩⟩

theorem flatMap {P : α → Prop} (h : ∀ a ∈ as, Fits T lo hi (spans a) (P a)) :
    Fits T lo hi (as.flatMap spans) (∀ a ∈ as, P a) := by
  refine ⟨fun s hs => ?_, fun hT herr a ha => (h a ha).holds hT herr⟩
  obtain ⟨a, ha, hs⟩ := mem_flatMap.mp hs
  exact (h a ha).spans s hs

theorem map {span : α → Span} {P : α → Prop} (h : ∀ a ∈ as, Fits T lo hi [span a] (P a)) :
    Fits T lo hi (as.map span) (∀ a ∈ as, P a) := by
  rw [map_eq_flatMap]
  exact .flatMap h

theorem items {P : α → Prop} (has : ∀ a ∈ as, Fits T lo mid (spans a) (P a)) (hle : mid ≤ hi)
    (ha : Fits T lo hi (spans a) (P a)) : ∀ x ∈ a :: as, Fits T lo hi (spans x) (P x) :=
  forall_mem_cons.mpr ⟨ha, fun x hx => (has x hx).mono le_rfl hle⟩

end Fits

theorem Token.Taken.fits (h : t.Taken kinds lo hi) : Fits T lo hi [] (T t ∧ t.kind ∈ kinds) :=
  ⟨by simp, fun hT _ => ⟨hT t h.within.mem, h.kind⟩⟩

/-- What the parser yields fits between where it starts and stops. -/
abbrev Builds (T : Token → Prop) (m : Nat) (p : Parser α) (spans : α → List Span) (P : α → Prop) :
    Prop :=
  Runs m p fun lo hi a => Fits T lo hi (spans a) (P a)

namespace Builds

variable {T : Token → Prop} {m : Nat} {spans : α → List Span} {P : α → Prop} {p : Parser α}

theorem from_le (h : Builds T m p spans P) (hle : lo' ≤ c) :
    Tracks lo c m p fun hi a => Fits T lo' hi (spans a) (P a) :=
  h.here.mono fun _ _ _ ha => ha.mono hle le_rfl

theorem behind (h : Builds T m p spans P) (heof : (k == .eof) = false) :
    Tracks lo c m (Parser.behind k p) fun hi a? => ∀ a ∈ a?, Fits T c hi (spans a) (P a) := by
  refine .whether heof (fun _ mid hle _ => ?_) (.pure (by simp))
  exact .bind (h.from_le hle) fun a hi _ ha => .pure fun a' ha' => Option.some.inj ha' ▸ ha

theorem unlessNext (h : Builds T m p spans P) :
    Tracks lo c m (Parser.unlessNext k p) fun hi a? => ∀ a ∈ a?, Fits T c hi (spans a) (P a) := by
  refine .kind ?_
  split
  · exact .pure (by simp)
  · exact .bind h.here fun a hi _ ha => .pure fun a' ha' => Option.some.inj ha' ▸ ha

theorem itemsUntil (h : Builds T m p spans P) :
    Tracks lo c m (Parser.itemsUntil closing p)
      fun hi as => (hi.kind = closing ∨ hi.atEnd = true)
        ∧ ∀ a ∈ as, Fits T c hi (spans a) (P a) := by
  refine .loop (I := fun hi as => ∀ a ∈ as, Fits T c hi (spans a) (P a)) ?_ (by simp)
  intro items mid hle hitems
  refine .get ?_
  split
  · rename_i hstop
    exact .pure ⟨hstop, fun a ha => hitems a (mem_reverse.mp ha)⟩
  · rename_i hgo
    have hk : mid.kind ≠ .eof := fun heof => hgo (.inr (decide_eq_true heof))
    refine .bind h.strict fun a hi hhi ha => .pure ⟨?_, ha.2 hk⟩
    exact .items hitems hhi (ha.1.mono hle le_rfl)

theorem separated (h : Builds T m p spans P) :
    Tracks lo c m (Parser.separated p)
      fun hi as => as ≠ [] ∧ ∀ a ∈ as, Fits T c hi (spans a) (P a) := by
  refine .loop (I := fun hi as => ∀ a ∈ as, Fits T c hi (spans a) (P a)) ?_ (by simp)
  intro items mid hle hitems
  refine .bind (h.from_le hle) fun a hi hhi ha => .whether rfl (fun t hi' hhi' ht => ?_) ?_
  · refine .pure ⟨.items hitems (hhi.trans hhi') (ha.mono le_rfl hhi'), ?_⟩
    exact Nat.lt_of_lt_of_le ht.within.length_lt (Cursor.length_of_le hhi)
  · exact .pure ⟨by simp, fun x hx => .items hitems hhi ha x (mem_reverse.mp hx)⟩

theorem separatedUntil (h : Builds T m p spans P) {closing : Kind} :
    Tracks lo c m (Parser.separatedUntil closing p)
      fun hi as => ∀ a ∈ as, Fits T c hi (spans a) (P a) := by
  refine .bind (S := fun hi as? => ∀ as ∈ as?, ∀ a ∈ as, Fits T c hi (spans a) (P a)) ?_
    fun as? hi _ has => .pure ?_
  · refine .kind ?_
    split
    · exact .pure (by simp)
    · exact .bind h.separated fun as hi _ has => .pure fun as' has' => Option.some.inj has' ▸ has.2
  · cases as? with
    | none => simp
    | some as => exact has as rfl

end Builds

end SketchCompiler
