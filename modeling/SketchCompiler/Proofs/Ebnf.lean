/-
Grammars in extended Backus-Naur form, over words.  A body is built from
terminals and rule names by sequence, choice, option and repetition; two
more forms, which restrict a body, are those that prose adds to a
grammar: what must not start it, and what must hold of it besides.

# First words

A recursive descent decides by the next word.  `Ebnf.starts` reads off a
body what it can start with, given what each rule starts with; a table
for all rules is right once every rule's body starts with what the table
says (`Productions`), which is a finite check.
-/
import SketchCompiler.Proofs.Rescan

namespace SketchCompiler

open List

/-- Words of one kind: all of them, or those of certain spellings. -/
structure Terminal where
  kind : Kind
  spelling : Option (String → Bool) := none

/-- The word is one of the terminal's. -/
def Terminal.Fits (t : Terminal) (w : Word) : Prop :=
  w.kind = t.kind ∧ ∀ spells ∈ t.spelling, spells w.lexeme = true

theorem Terminal.fits_kind (h : w.kind = kd) : Terminal.Fits { kind := kd } w :=
  ⟨h, fun _ hs => by cases hs⟩

/-- Bodies of rules, over rule names `ρ`. -/
inductive Ebnf (ρ : Type) where
  | empty
  | tok (t : Terminal)
  | rule (r : ρ)
  | seq (a b : Ebnf ρ)
  | alt (a b : Ebnf ρ)
  | opt (a : Ebnf ρ)
  | many (a : Ebnf ρ)
  | except (t : Terminal) (a : Ebnf ρ)
  | both (a b : Ebnf ρ)

namespace Ebnf

variable {ρ : Type}

/-- All words of a kind. -/
def kind (k : Kind) : Ebnf ρ :=
  .tok { kind := k }

/-- A name that is spelled in one way. -/
def name (lexeme : String) : Ebnf ρ :=
  .tok { kind := .ident, spelling := some (· == lexeme) }

/-- One body behind the other. -/
def all : List (Ebnf ρ) → Ebnf ρ
  | [] => .empty
  | a :: as => .seq a (all as)

/-- One of the bodies; there has to be one. -/
def any : List (Ebnf ρ) → Ebnf ρ
  | [] => .empty
  | [a] => a
  | a :: as => .alt a (any as)

/-- Words of one of the kinds. -/
def oneOf (ks : List Kind) : Ebnf ρ :=
  any (ks.map kind)

/-- The body allows no words at all; a rule never does. -/
def isNullable : Ebnf ρ → Bool
  | empty => true
  | tok _ => false
  | rule _ => false
  | seq a b => a.isNullable && b.isNullable
  | alt a b => a.isNullable || b.isNullable
  | opt _ => true
  | many _ => true
  | except _ a => a.isNullable
  | both a b => a.isNullable && b.isNullable

/-- The kinds that the words of a body can start with. -/
def starts (first : ρ → List Kind) : Ebnf ρ → List Kind
  | empty => []
  | tok t => [t.kind]
  | rule r => first r
  | seq a b => if a.isNullable then a.starts first ++ b.starts first else a.starts first
  | alt a b => a.starts first ++ b.starts first
  | opt a => a.starts first
  | many a => a.starts first
  | except t a =>
    if t.spelling.isNone then (a.starts first).filter (· ≠ t.kind) else a.starts first
  | both a _ => a.starts first

theorem starts_oneOf (first : ρ → List Kind) (ks : List Kind) :
    (oneOf ks : Ebnf ρ).starts first = ks := by
  unfold oneOf
  induction ks with
  | nil => rfl
  | cons k ks ih =>
    cases ks with
    | nil => rfl
    | cons k' ks =>
      show k :: (any ((k' :: ks).map kind)).starts first = _
      rw [ih]

theorem isNullable_oneOf (hne : ks ≠ []) : (oneOf ks : Ebnf ρ).isNullable = false := by
  unfold oneOf
  induction ks with
  | nil => exact absurd rfl hne
  | cons k ks ih =>
    cases ks with
    | nil => rfl
    | cons k' ks => exact ih (cons_ne_nil _ _)

/-- A choice without the parts that start only with dead kinds; something
is left of it. -/
def prune (first : ρ → List Kind) (dead : List Kind → Bool) : Ebnf ρ → Ebnf ρ
  | alt a b =>
    if dead (a.starts first) then b.prune first dead
    else if dead (b.starts first) then a.prune first dead
    else alt (a.prune first dead) (b.prune first dead)
  | a => a

end Ebnf

/-- Rules with a table of what each starts with; no rule allows no words
at all. -/
structure Productions (ρ : Type) where
  body : ρ → Ebnf ρ
  first : ρ → List Kind
  solid : ∀ r, (body r).isNullable = false
  closed : ∀ r, ∀ k ∈ (body r).starts first, k ∈ first r

-- ==== derivations

/-- The words are derived from a body, each rule standing for its own. -/
inductive Derives {ρ : Type} (body : ρ → Ebnf ρ) : Ebnf ρ → List Word → Prop
  | empty : Derives body .empty []
  | tok {t : Terminal} {w : Word} (h : t.Fits w) : Derives body (.tok t) [w]
  | rule {r : ρ} {ws : List Word} (h : Derives body (body r) ws) : Derives body (.rule r) ws
  | seq {a b : Ebnf ρ} {u v : List Word} (ha : Derives body a u) (hb : Derives body b v) :
      Derives body (.seq a b) (u ++ v)
  | left {a b : Ebnf ρ} {ws : List Word} (h : Derives body a ws) : Derives body (.alt a b) ws
  | right {a b : Ebnf ρ} {ws : List Word} (h : Derives body b ws) : Derives body (.alt a b) ws
  | none {a : Ebnf ρ} : Derives body (.opt a) []
  | some {a : Ebnf ρ} {ws : List Word} (h : Derives body a ws) : Derives body (.opt a) ws
  | done {a : Ebnf ρ} : Derives body (.many a) []
  | more {a : Ebnf ρ} {u v : List Word} (ha : Derives body a u) (hm : Derives body (.many a) v) :
      Derives body (.many a) (u ++ v)
  | except {t : Terminal} {a : Ebnf ρ} {ws : List Word} (h : Derives body a ws)
      (hw : ∀ w ∈ ws.head?, ¬ t.Fits w) : Derives body (.except t a) ws
  | both {a b : Ebnf ρ} {ws : List Word} (ha : Derives body a ws) (hb : Derives body b ws) :
      Derives body (.both a b) ws

namespace Derives

variable {ρ : Type} {body : ρ → Ebnf ρ} {a b : Ebnf ρ} {ws : List Word}

theorem rule_iff : Derives body (.rule r) ws ↔ Derives body (body r) ws :=
  ⟨fun h => by cases h; assumption, .rule⟩

theorem seq_iff :
    Derives body (.seq a b) ws ↔ ∃ u v, ws = u ++ v ∧ Derives body a u ∧ Derives body b v := by
  constructor
  · intro h
    cases h with
    | seq ha hb => exact ⟨_, _, rfl, ha, hb⟩
  · rintro ⟨u, v, rfl, ha, hb⟩
    exact .seq ha hb

theorem alt_iff : Derives body (.alt a b) ws ↔ Derives body a ws ∨ Derives body b ws := by
  constructor
  · intro h
    cases h with
    | left h => exact .inl h
    | right h => exact .inr h
  · rintro (h | h)
    · exact .left h
    · exact .right h

theorem tok_iff : Derives body (.tok t) ws ↔ ∃ w, ws = [w] ∧ t.Fits w := by
  constructor
  · intro h
    cases h with
    | tok h => exact ⟨_, rfl, h⟩
  · rintro ⟨w, rfl, h⟩
    exact .tok h

theorem kind_iff : Derives body (.kind k) ws ↔ ∃ w, ws = [w] ∧ w.kind = k := by
  unfold Ebnf.kind
  rw [tok_iff]
  constructor
  · rintro ⟨w, rfl, hw⟩
    exact ⟨w, rfl, hw.1⟩
  · rintro ⟨w, rfl, hw⟩
    exact ⟨w, rfl, hw, fun _ h => by cases h⟩

theorem many_iff :
    Derives body (.many a) ws
      ↔ ∃ parts : List (List Word), ws = parts.flatten ∧ ∀ u ∈ parts, Derives body a u := by
  constructor
  · intro h
    generalize hm : Ebnf.many a = m at h
    induction h with
    | done => exact ⟨[], rfl, fun u hu => absurd hu not_mem_nil⟩
    | @more b u v hb _ _ ih =>
      cases hm
      obtain ⟨parts, rfl, hparts⟩ := ih rfl
      exact ⟨u :: parts, rfl, forall_mem_cons.mpr ⟨hb, hparts⟩⟩
    | _ => cases hm
  · rintro ⟨parts, rfl, hparts⟩
    induction parts with
    | nil => exact .done
    | cons u parts ih =>
      obtain ⟨hu, hparts⟩ := forall_mem_cons.mp hparts
      exact .more hu (ih hparts)

theorem many_snoc (hu : Derives body (.many a) u) (hv : Derives body a v) :
    Derives body (.many a) (u ++ v) := by
  obtain ⟨parts, rfl, hparts⟩ := many_iff.mp hu
  refine many_iff.mpr ⟨parts ++ [v], by simp, fun w hw => ?_⟩
  rcases mem_append.mp hw with hw | hw
  · exact hparts w hw
  · rw [mem_singleton.mp hw]
    exact hv

theorem seq_tok_iff :
    Derives body (.seq (.tok t) b) ws
      ↔ ∃ w v, ws = w :: v ∧ t.Fits w ∧ Derives body b v := by
  rw [seq_iff]
  constructor
  · rintro ⟨u, v, rfl, hu, hv⟩
    obtain ⟨w, rfl, hw⟩ := tok_iff.mp hu
    exact ⟨w, v, rfl, hw, hv⟩
  · rintro ⟨w, v, rfl, hw, hv⟩
    exact ⟨[w], v, rfl, .tok hw, hv⟩

theorem eq_nil (h : Derives body .empty ws) : ws = [] := by
  cases h
  rfl

theorem seq_empty_iff : Derives body (.seq a .empty) ws ↔ Derives body a ws := by
  constructor
  · intro h
    obtain ⟨u, v, rfl, hu, hv⟩ := seq_iff.mp h
    rw [hv.eq_nil, append_nil]
    exact hu
  · intro h
    rw [← append_nil ws]
    exact .seq h .empty

theorem seq_assoc_iff :
    Derives body (.seq (.seq a b) c) ws ↔ Derives body (.seq a (.seq b c)) ws := by
  constructor
  · intro h
    obtain ⟨x, z, rfl, hx, hz⟩ := seq_iff.mp h
    obtain ⟨u, v, rfl, hu, hv⟩ := seq_iff.mp hx
    rw [append_assoc]
    exact .seq hu (.seq hv hz)
  · intro h
    obtain ⟨u, x, rfl, hu, hx⟩ := seq_iff.mp h
    obtain ⟨v, z, rfl, hv, hz⟩ := seq_iff.mp hx
    rw [← append_assoc]
    exact .seq (.seq hu hv) hz

theorem oneOf_iff (hne : ks ≠ []) : Derives body (.oneOf ks) ws ↔ ∃ w, ws = [w] ∧ w.kind ∈ ks := by
  unfold Ebnf.oneOf
  induction ks with
  | nil => exact absurd rfl hne
  | cons k ks ih =>
    cases ks with
    | nil =>
      show Derives body (.kind k) ws ↔ _
      simpa using kind_iff
    | cons k' ks =>
      show Derives body (.alt (.kind k) (.any ((k' :: ks).map Ebnf.kind))) ws ↔ _
      rw [alt_iff, kind_iff, ih (cons_ne_nil _ _)]
      constructor
      · rintro (⟨w, rfl, hw⟩ | ⟨w, rfl, hw⟩)
        · exact ⟨w, rfl, by rw [hw]; exact mem_cons_self⟩
        · exact ⟨w, rfl, mem_cons_of_mem _ hw⟩
      · rintro ⟨w, rfl, hw⟩
        rcases mem_cons.mp hw with hw | hw
        · exact .inl ⟨w, rfl, hw⟩
        · exact .inr ⟨w, rfl, hw⟩

-- ==== first words

section First

variable {g : Productions ρ}

theorem isNullable (h : Derives g.body a []) : a.isNullable = true := by
  generalize hws : ([] : List Word) = ws at h
  induction h with
  | empty | none | done => rfl
  | tok => cases hws
  | rule h ih => exact absurd (ih hws) (by rw [g.solid]; decide)
  | seq ha hb iha ihb =>
    obtain ⟨rfl, rfl⟩ := append_eq_nil_iff.mp hws.symm
    show (_ && _) = true
    rw [iha rfl, ihb rfl]
    rfl
  | left h ih =>
    show (_ || _) = true
    rw [ih hws]
    rfl
  | right h ih =>
    show (_ || _) = true
    rw [ih hws, Bool.or_true]
  | some | more => rfl
  | except h hw ih => exact ih hws
  | both ha hb iha ihb =>
    show (_ && _) = true
    rw [iha hws, ihb hws]
    rfl

/-- The first word is of a kind that the body can start with. -/
theorem starts (h : Derives g.body a (w :: ws)) : w.kind ∈ a.starts g.first := by
  generalize hws : w :: ws = ws' at h
  induction h generalizing w ws with
  | empty | none | done => cases hws
  | tok h =>
    cases hws
    exact mem_singleton.mpr h.1
  | rule h ih => exact g.closed _ _ (ih hws)
  | @seq a b u v ha hb iha ihb =>
    unfold Ebnf.starts
    cases u with
    | nil =>
      rw [if_pos ha.isNullable]
      exact mem_append_right _ (ihb hws)
    | cons w' u =>
      cases hws
      split
      · exact mem_append_left _ (iha rfl)
      · exact iha rfl
  | left h ih => exact mem_append_left _ (ih hws)
  | right h ih => exact mem_append_right _ (ih hws)
  | some h ih => exact ih hws
  | @more a u v ha hm iha ihm =>
    cases u with
    | nil => exact ihm hws
    | cons w' u =>
      cases hws
      exact iha rfl
  | @except t a ws' h hw ih =>
    subst hws
    unfold Ebnf.starts
    split
    · rename_i hspell
      -- a terminal of any spelling takes its whole kind away
      refine mem_filter.mpr ⟨ih rfl, decide_eq_true fun hk => hw w rfl ⟨hk, ?_⟩⟩
      intro spells hs
      rw [Option.isNone_iff_eq_none.mp hspell] at hs
      cases hs
    · exact ih rfl
  | both ha hb iha ihb => exact iha hws

theorem exists_cons (h : Derives g.body a ws) (ha : a.isNullable = false) :
    ∃ w v, ws = w :: v ∧ w.kind ∈ a.starts g.first := by
  cases ws with
  | nil => exact absurd h.isNullable (by rw [ha]; decide)
  | cons w v => exact ⟨w, v, rfl, h.starts⟩

theorem of_prune (h : Derives g.body (a.prune g.first dead) ws) : Derives g.body a ws := by
  induction a with
  | alt a b iha ihb =>
    unfold Ebnf.prune at h
    split at h
    · exact .right (ihb h)
    split at h
    · exact .left (iha h)
    · rcases alt_iff.mp h with h | h
      · exact .left (iha h)
      · exact .right (ihb h)
  | _ => exact h

theorem prune (hdead : ∀ ks, dead ks = true → w.kind ∉ ks) (h : Derives g.body a (w :: ws)) :
    Derives g.body (a.prune g.first dead) (w :: ws) := by
  induction a with
  | alt a b iha ihb =>
    unfold Ebnf.prune
    rcases alt_iff.mp h with h | h
    · rw [if_neg fun ha => hdead _ ha h.starts]
      split
      · exact iha h
      · exact .left (iha h)
    · split
      · exact ihb h
      rw [if_neg fun hb => hdead _ hb h.starts]
      exact .right (ihb h)
  | _ => exact h

end First

end Derives

end SketchCompiler
