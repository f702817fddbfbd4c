/-
Reading goes on.  A token list with the end marker last, and nowhere
else, is read to its end whatever mistakes are in it: no rule looks
behind the end marker, none is given up for lack of nesting, and a
declaration that is read or skipped is left behind
(`Grammar.reading_goes_on`).
-/
import SketchCompiler.Proofs.Image

namespace SketchCompiler

open List Grammar

variable {c c' : Cursor} {α β : Type}

-- ==== no giving up

/-- The parser does not give up, whatever it is run on. -/
def Parser.Persists (p : Parser α) : Prop :=
  ∀ c c', p c ≠ .failed c'

namespace Parser.Persists

theorem pure (a : α) : Persists (Pure.pure a) := by
  intro c c' h
  cases h

theorem bind {p : Parser α} {f : α → Parser β} (hp : p.Persists) (hf : ∀ a, (f a).Persists) :
    (p >>= f).Persists := by
  intro c c' h
  change Parser.bind p f c = .failed c' at h
  unfold Parser.bind at h
  split at h
  · exact hf _ _ c' h
  · rename_i hfailed
    exact hp c _ hfailed
  · cases h
  · cases h

theorem rounds {step : α → Parser (Round α β)} (hstep : ∀ a, (step a).Persists)
    (bound : List Token) (a : α) : (Parser.rounds step bound a).Persists := by
  induction bound generalizing a with
  | nil =>
    refine (hstep a).bind fun r => ?_
    cases r with
    | again a' =>
      intro c c' h
      cases h
    | done b => exact .pure b
  | cons _ bound ih =>
    refine (hstep a).bind fun r => ?_
    cases r with
    | again a' => exact ih a'
    | done b => exact .pure b

theorem itemsUntil {p : Parser α} (hp : p.Persists) (closing : Kind) :
    (Parser.itemsUntil closing p).Persists := by
  refine fun c => rounds (fun items => ?_) c.rest [] c
  refine .bind (fun c c' h => by cases h) fun c => ?_
  split
  · exact .pure _
  · exact hp.bind fun item => .pure _

end Parser.Persists

theorem Grammar.declarationAt_persists (n : Nat) : Parser.Persists (declarationAt n) := by
  intro c c' h
  cases n with
  | zero => cases h
  | succ n =>
    change Grammar.declaration _ c = .failed c' at h
    unfold Grammar.declaration at h
    split at h <;> cases h

-- ==== in bounds

/-- Some token is left, of those that were. -/
def Cursor.Inside (c c' : Cursor) : Prop :=
  c'.rest <:+ c.rest ∧ c'.rest ≠ []

/-- The run stops inside, unless it is allowed fewer than four levels of
nesting for each token that is left. -/
def Parsed.Stays (n : Nat) (c : Cursor) : Parsed α → Prop
  | .ok _ c' => c.Inside c'
  | .failed c' => c.Inside c'
  | .abort _ => False
  | .exhausted => n < 4 * c.rest.length

theorem Cursor.inside_of_le (hends : c.Ends) (hle : c ≤ c') : c.Inside c' := by
  obtain ⟨t, ht, -⟩ := hends.of_le hle
  exact ⟨suffix_of_le hle, ne_nil_of_mem ht⟩

/-- A rule that allows for as many tokens as its nesting does. -/
theorem Runs.stays {p : Parser α} {S : Cursor → Cursor → α → Prop}
    (h : ∀ m, 4 * m ≤ n → Runs m p S) (hends : c.Ends)
    (hnumbers : c.All fun t => ∀ e, ¬ t.Refuses e) :
    (p c).Stays n c := by
  have hrun := h 0 (Nat.zero_le n) c (.refl c)
  cases hr : p c with
  | ok _ _ | failed _ =>
    rw [hr] at hrun
    exact Cursor.inside_of_le hends hrun.1
  | abort e =>
    rw [hr] at hrun
    obtain ⟨t, ht, hrefuses⟩ := hrun
    exact hnumbers t ht e hrefuses
  | exhausted =>
    by_contra hn
    have hlt := h c.rest.length (Nat.le_of_not_lt hn) c (.refl c)
    rw [hr] at hlt
    exact Nat.lt_irrefl _ (hlt hends)

-- ==== all tokens

theorem Cursor.rest_eq_stop (hfront : ∀ t ∈ front, t.kind ≠ .eof) (hle : c ≤ c')
    (hrest : c.rest = front ++ [stop]) (hends : c.Ends) (hend : c'.kind = .eof) :
    c'.rest = [stop] := by
  obtain ⟨⟨ts, hts⟩, hne⟩ := inside_of_le hends hle
  obtain ⟨t, rest, ht⟩ := exists_cons_of_ne_nil hne
  have hk : t.kind = .eof := by
    unfold Cursor.kind Cursor.peek at hend
    rwa [ht] at hend
  rw [ht, hrest] at hts
  rcases eq_nil_or_concat rest with rfl | ⟨rest, last, rfl⟩
  · obtain ⟨-, hlast⟩ := append_inj' hts rfl
    rw [ht, hlast]
  · have hfront' : ts ++ t :: rest = front := by
      have := hts
      rw [concat_eq_append, ← cons_append, ← append_assoc] at this
      exact (append_inj' this rfl).1
    exact absurd hk (hfront t (by simp [← hfront']))

/-- Tokens whose end marker stands last and nowhere else, and whose
numerals denote numbers, are read to the end marker.  On the way, from
any place among them and with any nesting, no rule looks behind the end
marker or is given up unless its nesting is too small, and a declaration
does not end in a report: from a place in front of the end marker it
leaves fewer tokens, whether it is read or skipped. -/
theorem Grammar.reading_goes_on {front : List Token} {stop : Token}
    (hfront : ∀ t ∈ front, t.kind ≠ .eof) (hstop : stop.kind = .eof)
    (hnumbers : ∀ t ∈ front ++ [stop], ∀ e, ¬ t.Refuses e) :
    (∀ file, ∃ program items final,
      Grammar.items { file, rest := front ++ [stop], last := stop } = .ok items final
        ∧ final.rest = [stop]
        ∧ Program.ofTokens file (front ++ [stop]) = .ok (program, final.errors))
    ∧ ∀ (c : Cursor) (n : Nat), c.rest <:+ front ++ [stop] → c.rest ≠ [] →
      (expressionAt n c).Stays n c ∧ (unaryAt n c).Stays n c ∧ (statementAt n c).Stays n c
        ∧ (declarationAt n c).Stays n c ∧ (∀ c', declarationAt n c ≠ .failed c')
        ∧ ∀ item c', declarationAt n c = .ok item c' → c.kind ≠ .eof →
          c'.rest.length < c.rest.length := by
  refine ⟨fun file => ?_, fun c n hsuffix hne => ?_⟩
  · have hends : Cursor.Ends { file, rest := front ++ [stop], last := stop } :=
      ⟨stop, by simp, hstop⟩
    have hrun := items_gives True { file, rest := front ++ [stop], last := stop } (.refl _)
    have hlast : (front ++ [stop]).getLastD Parser.endMarker = stop := by simp
    unfold Program.ofTokens
    simp only [hlast]
    cases hr : items { file, rest := front ++ [stop], last := stop } with
    | ok items final =>
      rw [hr] at hrun
      refine ⟨_, items, final, rfl, ?_, rfl⟩
      exact Cursor.rest_eq_stop hfront hrun.1 rfl hends (of_decide_eq_true hrun.2.2.1)
    | failed final => exact absurd hr ((declarationAt_persists _).itemsUntil .eof _ final)
    | abort e =>
      rw [hr] at hrun
      obtain ⟨t, ht, hrefuses⟩ := hrun
      exact absurd hrefuses (hnumbers t ht e)
    | exhausted =>
      rw [hr] at hrun
      exact absurd (hrun hends) (by simp)
  · have hends : c.Ends := by
      obtain ⟨rest, last, hrest⟩ := (List.eq_nil_or_concat c.rest).resolve_left hne
      obtain ⟨ts, hts⟩ := hsuffix
      rw [hrest, List.concat_eq_append, ← List.append_assoc] at hts
      obtain ⟨-, hlast⟩ := List.append_inj' hts rfl
      cases hlast
      exact ⟨stop, by simp [hrest], hstop⟩
    have hnumbers' : c.All fun t => ∀ e, ¬ t.Refuses e :=
      fun t ht => hnumbers t (hsuffix.subset ht)
    refine ⟨?_, ?_, ?_, ?_, declarationAt_persists n c, fun item c' hr => ?_⟩
    · exact Runs.stays (fun m hm => (rules_at True n m).1 (by omega)) hends hnumbers'
    · exact Runs.stays (fun m hm => (rules_at True n m).2.1 (by omega)) hends hnumbers'
    · exact Runs.stays (fun m hm => (rules_at True n m).2.2.1 (by omega)) hends hnumbers'
    · exact Runs.stays (fun m hm => (rules_at True n m).2.2.2 hm) hends hnumbers'
    · have hrun := (rules_at True n 0).2.2.2 (Nat.zero_le n) c (.refl c)
      rw [hr] at hrun
      exact hrun.2.2.2

/-- A variable without a name, which is skipped. -/
def namelessTokens : List Token :=
  [{ kind := .kwLet, lexeme := "let", pos := ⟨1, 1⟩ },
    { kind := .int, lexeme := "5", pos := ⟨1, 5⟩ }]

/-- It is read to its end. -/
theorem Grammar.reading_goes_on_nameless : ∃ program items final,
    Grammar.items { file := "sketch", rest := namelessTokens ++ [Parser.endMarker],
                    last := Parser.endMarker } = .ok items final
      ∧ final.rest = [Parser.endMarker]
      ∧ Program.ofTokens "sketch" (namelessTokens ++ [Parser.endMarker])
        = .ok (program, final.errors) := by
  have hfive : Numeral.readInt .marked "5" = .ok 5 := by decide +kernel
  refine (Grammar.reading_goes_on (by decide) rfl fun t ht e => ?_).1 "sketch"
  unfold Token.Refuses
  simp only [namelessTokens, List.cons_append, List.nil_append, List.mem_cons, List.not_mem_nil,
    or_false] at ht
  rcases ht with rfl | rfl | rfl
  · exact id
  · simp [hfive]
  · exact id

end SketchCompiler
