/-
What the rules for expressions yield, where they stop and what they read:
each is treated by itself, under the premise that the rules it refers to
do the same.  What is yielded lies between where the rule starts and
stops, and it is proper if the tokens are legible and nothing is
reported.

A rule is run on legible tokens, which are spelled as their kinds allow,
so a token that is read for its kind has a lexeme of a known form: a name
that is not reserved, the one spelling of an operator, digits without a
sign.
-/
import SketchCompiler.Proofs.NumeralText
import SketchCompiler.Proofs.Proper
import SketchCompiler.Proofs.Tracks

namespace SketchCompiler

open List Grammar

/-- A token that is the end, or spelled as its kind allows and no literal
but those that may occur. -/
def Token.Legible (lits : Literals) (t : Token) : Prop :=
  t.kind ≠ .eof → t.IsSpelled ∧ (t.kind = .float → lits.floats)
    ∧ (t.kind = .string → lits.texts t.lexeme)

/-- The expression lies between the cursors and is proper. -/
abbrev Expr.FitsIn (lits : Literals) (lo hi : Cursor) (e : Expr) : Prop :=
  Fits (Token.Legible lits) lo hi e.spans (e.Proper lits)

/-- The parser yields proper expressions, and allows for `m` tokens. -/
abbrev GivesExpr (lits : Literals) (m : Nat) (p : Parser Expr) : Prop :=
  Builds (Token.Legible lits) m p Expr.spans (Expr.Proper lits)

variable {lits : Literals} {m m' : Nat} {lo mid hi c : Cursor} {t start : Token}
  {expression operand : Parser Expr}

-- ==== tokens

theorem Token.Taken.isName (h : t.Taken [.ident] lo hi) :
    Fits (Token.Legible lits) lo hi [] (IsName t.lexeme) := by
  refine h.fits.imp fun h => ?_
  have hkind : t.kind = .ident := mem_singleton.mp h.2
  have hspelled := (h.1 (by rw [hkind]; decide)).1
  unfold Token.IsSpelled at hspelled
  rwa [hkind] at hspelled

theorem Token.Taken.isTextOf (h : t.Taken kinds lo hi)
    (hk : ∀ k ∈ kinds, k ≠ .eof ∧ k.text ≠ "") :
    Fits (Token.Legible lits) lo hi [] (IsTextOf kinds t.lexeme) := by
  refine h.fits.imp fun h => ?_
  obtain ⟨hlegible, hmem⟩ := h
  obtain ⟨heof, htext⟩ := hk _ hmem
  refine ⟨t.kind, hmem, ?_⟩
  rw [← String.toList_inj]
  exact (hlegible heof).1.eq_text htext

-- ==== parts of a tree

namespace Fits

theorem span_expr {e : Expr} (h : e.FitsIn lits lo hi) : e.span.Within lo hi :=
  h.spans _ e.span_mem_spans

theorem joined {l r : Expr} (hl : l.FitsIn lits lo mid) (hr : r.FitsIn lits mid hi)
    (hlo : lo ≤ mid) (hhi : mid ≤ hi) :
    Fits (Token.Legible lits) lo hi (l.span.upTo r.span :: (l.spans ++ r.spans))
      (l.Proper lits ∧ r.Proper lits) :=
  .cons (hl.span_expr.upTo hr.span_expr) ((hl.mono le_rfl hhi).append (hr.mono hlo le_rfl))

theorem ended {e : Expr} (he : e.FitsIn lits lo mid) (ht : t.Within mid hi) (hhi : mid ≤ hi) :
    Fits (Token.Legible lits) lo hi (e.span.upTo (t.span lo.file) :: e.spans) (e.Proper lits) :=
  .cons (he.span_expr.upToToken ht) (he.mono le_rfl hhi)

theorem exprs {es : List Expr} (h : ∀ e ∈ es, e.FitsIn lits lo hi) :
    Fits (Token.Legible lits) lo hi (exprsSpans es) (exprsProper lits es) := by
  rw [exprsSpans_eq]
  exact (flatMap h).imp exprsProper_iff.mpr

theorem expr? {e? : Option Expr} (h : ∀ e ∈ e?, e.FitsIn lits lo hi) :
    Fits (Token.Legible lits) lo hi (exprSpans? e?) (exprProper? lits e?) := by
  cases e? with
  | none => exact .of trivial
  | some e => exact h e rfl

end Fits

-- ==== operators and operands

theorem Level.node_fits {level : Level} {left right : Expr} {op : Token} (hlevel : level ∈ levels)
    (hleft : left.FitsIn lits lo mid) (hop : op.Taken level.operators mid c)
    (hright : right.FitsIn lits c hi) (hlo : lo ≤ mid) (hmid : mid ≤ c) (hhi : c ≤ hi) :
    (level.node left op right).FitsIn lits lo hi := by
  have htexts : ∀ level ∈ levels, ∀ k ∈ level.operators, k ≠ .eof ∧ k.text ≠ "" := by decide
  have hparts := (hleft.mono le_rfl hmid).joined hright (hlo.trans hmid) hhi
  have htext : Fits (Token.Legible lits) lo hi [] _ :=
    (hop.isTextOf (htexts level hlevel)).mono hlo hhi
  have hnode (h : (left.Proper lits ∧ right.Proper lits) ∧ IsTextOf level.operators op.lexeme) :
      (level.node left op right).Proper lits := by
    obtain ⟨⟨hl, hr⟩, k, hk, htext⟩ := h
    have hmem : k ∈ binaryOperators level.isBitwise :=
      mem_flatMap.mpr ⟨level, mem_filter.mpr ⟨hlevel, beq_self_eq_true _⟩, hk⟩
    unfold Level.node
    cases hbit : level.isBitwise with
    | true =>
      rw [hbit] at hmem
      exact ⟨hl, ⟨k, hmem, htext⟩, hr⟩
    | false =>
      rw [hbit] at hmem
      exact ⟨hl, ⟨k, hmem, htext⟩, hr⟩
  have hspans : (level.node left op right).spans
      = left.span.upTo right.span :: (left.spans ++ right.spans) := by
    unfold Level.node
    split <;> rfl
  refine ⟨?_, fun hT herr => hnode ⟨hparts.holds hT herr, htext.holds hT herr⟩⟩
  rw [hspans]
  exact hparts.spans

theorem chain_gives (hlevel : level ∈ levels) (h : GivesExpr lits m operand) :
    GivesExpr lits m (chain operand level) := by
  have heof : ∀ level ∈ levels, .eof ∉ level.operators := by decide
  intro c
  refine .first h.strict fun first mid hle hfirst => ?_
  refine .loop (I := fun hi e => c ≤ hi ∧ e.FitsIn lits c hi) (fun left mid _ hleft => ?_)
    ⟨hle, hfirst⟩
  refine .option (heof level hlevel) (fun op mid' hle' hop => ?_) (.pure hleft.2)
  refine .bind h.here fun right hi hhi hright => .pure ⟨⟨?_, ?_⟩, hop.lt hhi⟩
  · exact hleft.1.trans (hle'.trans hhi)
  · exact Level.node_fits hlevel hleft.2 hop hright hleft.1 hle' hhi

theorem binary_gives (h : GivesExpr lits m operand) (hls : ∀ level ∈ ls, level ∈ levels) :
    GivesExpr lits m (binary operand ls) := by
  induction ls with
  | nil => exact h
  | cons level tighter ih =>
    obtain ⟨hlevel, htighter⟩ := forall_mem_cons.mp hls
    exact chain_gives hlevel (ih htighter)

theorem assignment_gives (hm : m ≤ m' + 1) (hoperand : GivesExpr lits m operand)
    (hvalue : GivesExpr lits m' value) : GivesExpr lits m (assignment operand value) := by
  intro c
  refine .first (binary_gives hoperand fun _ h => h).strict fun left mid hle hleft => ?_
  refine .option_lt hm (by decide) (fun op mid' hle' hop => ?_) (fun _ => .pure hleft)
  refine .bind hvalue.here fun right hi hhi hright => ?_
  have hleft' := hleft.mono le_rfl hle'
  split
  · rename_i htarget
    have hop' : Fits (Token.Legible lits) c hi [] _ := (hop.isTextOf (by decide)).mono hle hhi
    refine .pure ((hop'.append (hleft'.joined hright (hle.trans hle') hhi)).imp ?_)
    exact fun h => ⟨h.2.1, htarget, h.1, h.2.2⟩
  · have hmem := (hop.within.mono hle le_rfl).mem
    refine .bind (.reportAt hmem _) fun _ hi' hhi' herr => .pure ?_
    exact ⟨(hleft'.mono le_rfl (hhi.trans hhi')).spans, fun _ h => absurd h herr⟩

theorem unary_gives (hm : m ≤ m' + 1) (hnested : GivesExpr lits m' nested)
    (hoperand : GivesExpr lits m operand) : GivesExpr lits m (unary nested operand) := by
  intro c
  refine .option_lt hm (by decide) (fun op mid hle hop => .ahead hop ?_) fun _ => hoperand c
  refine .bind hnested.here fun inner hi hhi hinner => .spanOf (.pure (.cons ?_ ?_))
  · exact hop.within.span.upTo hinner.span_expr
  · have hop' : Fits (Token.Legible lits) c hi [] _ := (hop.isTextOf (by decide)).mono le_rfl hhi
    exact hop'.append (hinner.mono hle le_rfl)

theorem postfixed_gives (h : GivesExpr lits m operand) : GivesExpr lits m (postfixed operand) := by
  intro c
  refine .first h.strict fun first mid hle hfirst => ?_
  refine .loop (I := fun hi e => c ≤ hi ∧ e.FitsIn lits c hi) (fun inner mid _ hinner => ?_)
    ⟨hle, hfirst⟩
  obtain ⟨hlo, hinner⟩ := hinner
  refine .option (by decide) (fun op hi hhi hop => .spanOf (.pure ⟨⟨hlo.trans hhi, ?_⟩, ?_⟩)) ?_
  · have hop' : Fits (Token.Legible lits) c hi [] _ := (hop.isTextOf (by decide)).mono hlo le_rfl
    exact (hop'.append (hinner.ended hop.within hhi)).imp fun h => ⟨h.2, h.1⟩
  · exact hop.within.length_lt
  · refine .whether rfl (fun mark m₁ h₁ hmark => ?_) (.pure hinner)
    refine .token rfl fun target m₂ h₂ htarget =>
      .spanOf (.pure ⟨⟨hlo.trans (h₁.trans h₂), ?_⟩, ?_⟩)
    · have hname : Fits (Token.Legible lits) c m₂ [] _ := htarget.isName.mono (hlo.trans h₁) le_rfl
      have hparts := (hinner.mono le_rfl h₁).ended htarget.within h₂
      exact (hname.append hparts).imp fun h => ⟨h.2, h.1⟩
    · exact hmark.lt h₂

-- ==== calls and members

theorem fieldInit_gives (he : GivesExpr lits m expression) :
    Builds (Token.Legible lits) m (fieldInit expression) FieldInit.spans
      (FieldInit.Proper lits) := by
  intro c
  refine .first ((Tracks.expect rfl).mono fun _ _ _ h => ⟨h, fun _ => h.within.length_lt⟩) ?_
  refine fun name m₁ h₁ hname => .token rfl fun _ m₂ h₂ _ => ?_
  refine .bind (he.from_le (h₁.trans h₂)) fun value hi hhi hvalue => .pure ?_
  exact (hname.isName.mono le_rfl (h₂.trans hhi)).append hvalue

theorem arguments_gives (he : GivesExpr lits m expression) (hlo : lo ≤ c)
    (hcallee : callee.FitsIn lits lo c) :
    Tracks lo c m (arguments expression callee) fun hi e => e.FitsIn lits lo hi := by
  refine .get ?_
  split
  · refine .bind (fieldInit_gives he).separated fun fields m₁ h₁ hfields => ?_
    refine .token rfl fun close hi h₂ hclose => .spanOf (.pure ?_)
    have hspan := (hcallee.mono le_rfl h₁).ended hclose.within h₂
    refine .cons (hspan.spans _ mem_cons_self) ?_
    rw [fieldsSpans_eq]
    have hall := Fits.flatMap fun f hf => (hfields.2 f hf).mono hlo h₂
    exact ⟨hall.spans, fun hT herr => ⟨hspan.holds hT herr, hfields.1,
      fieldsProper_iff.mpr (hall.holds hT herr)⟩⟩
  · refine .bind he.separatedUntil fun args m₁ h₁ hargs => ?_
    refine .token rfl fun close hi h₂ hclose => .spanOf (.pure ?_)
    have hspan := (hcallee.mono le_rfl h₁).ended hclose.within h₂
    have hargs' := Fits.exprs fun e he => (hargs e he).mono hlo h₂
    exact (hspan.append hargs').imp fun h => ⟨.inr h.1, h.2⟩

theorem calls_gives (hm : m ≤ m' + 1) (he : GivesExpr lits m' expression)
    (h : GivesExpr lits m operand) : GivesExpr lits m (calls expression operand) := by
  intro c
  refine .first h.strict fun first mid hle hfirst => ?_
  refine .loop (I := fun hi e => c ≤ hi ∧ e.FitsIn lits c hi) (fun inner mid _ hinner => ?_)
    ⟨hle, hfirst⟩
  obtain ⟨hlo, hinner⟩ := hinner
  refine .whether_lt hm rfl (fun mark m₁ h₁ hmark => ?_) fun _ => ?_
  · refine .bind (arguments_gives he (hlo.trans h₁) (hinner.mono le_rfl h₁))
      fun e hi hhi hcall => ?_
    exact .pure ⟨⟨hlo.trans (h₁.trans hhi), hcall⟩, hmark.lt hhi⟩
  · refine .whether rfl (fun mark m₁ h₁ hmark => ?_) (.pure hinner)
    refine .token rfl fun name m₂ h₂ hname => .spanOf (.pure ⟨⟨hlo.trans (h₁.trans h₂), ?_⟩, ?_⟩)
    · have hname' : Fits (Token.Legible lits) c m₂ [] _ := hname.isName.mono (hlo.trans h₁) le_rfl
      have hparts := (hinner.mono le_rfl h₁).ended hname.within h₂
      exact (hname'.append hparts).imp fun h => ⟨h.2, h.1⟩
    · exact hmark.lt h₂

-- ==== literals

theorem Spelled.minus_notMem (h : Spelled .int cs) : '-' ∉ cs := by
  cases h with
  | word _ _ hk => exact absurd hk (kindOfWord_ne (by decide) (by decide))
  | hexadecimal hm _ hds | binary hm _ hds =>
    rintro hmem
    rcases mem_cons.mp hmem with h | hmem
    · exact absurd h (by decide)
    rcases mem_cons.mp hmem with rfl | hmem
    · exact absurd hm (by decide)
    · exact absurd (hds _ hmem) (by decide)
  | decimal _ hds => exact fun hmem => absurd (hds _ hmem) (by decide)
  | pair h => exact absurd rfl (text_ne_of_pair h)
  | single h => exact absurd rfl (text_ne_of_char h)

theorem Spelled.duration_parts (h : Spelled .duration cs) :
    ∃ ds unit, cs = ds ++ unit ∧ ds ≠ [] ∧ (∀ d ∈ ds, Text.isDigit d = true)
      ∧ unit ∈ durationUnits := by
  cases h with
  | word _ _ hk => exact absurd hk (kindOfWord_ne (by decide) (by decide))
  | duration hne hds hu => exact ⟨_, _, rfl, hne, hds, hu⟩
  | pair h => exact absurd rfl (text_ne_of_pair h)
  | single h => exact absurd rfl (text_ne_of_char h)

theorem durationParts_append (hne : ds ≠ []) (hds : ∀ d ∈ ds, Text.isDigit d = true)
    (hu : unit ∈ durationUnits) :
    durationParts (String.ofList (ds ++ unit)) = (String.ofList ds, String.ofList unit) := by
  have hpair : ∀ x y : Char, (ds ++ [x, y]).length - 2 = ds.length := by simp
  have hunits : unit = ['m', 's'] ∨ unit = ['u', 's'] ∨ unit = ['s'] := by
    simpa [durationUnits] using hu
  unfold durationParts
  simp only [String.toList_ofList]
  rcases hunits with rfl | rfl | rfl
  · rw [hpair, drop_left, take_left, if_pos (.inl rfl)]
  · rw [hpair, drop_left, take_left, if_pos (.inr rfl)]
  · -- the last two characters are a digit and the unit
    obtain ⟨front, d, rfl⟩ : ∃ front d, ds = front ++ [d] :=
      ⟨_, _, (dropLast_concat_getLast hne).symm⟩
    have hd := hds d (mem_append_right _ (mem_singleton.mpr rfl))
    have hlast : (front ++ [d] ++ ['s']).drop ((front ++ [d] ++ ['s']).length - 2) = [d, 's'] := by
      simp
    have hunit : ¬ ([d, 's'] = ['m', 's'] ∨ [d, 's'] = ['u', 's']) := by
      rintro (h | h)
      · rw [(List.cons.inj h).1] at hd
        exact absurd hd (by decide)
      · rw [(List.cons.inj h).1] at hd
        exact absurd hd (by decide)
    have hlen : (front ++ [d] ++ ['s']).length - 1 = (front ++ [d]).length := by simp
    rw [hlast, if_neg hunit, hlen, take_left]

theorem literalOf_gives (ht : t.Taken kinds lo c) (hk : t.kind ∈ literalKinds) :
    Tracks lo c m (literalOf t) fun hi e => e.FitsIn lits lo hi := by
  have hspan {hi : Cursor} (hle : c ≤ hi) : (t.span lo.file).Within lo hi :=
    ht.within.span.mono le_rfl hle
  have heof : t.kind ≠ .eof := fun h => absurd (h ▸ hk) (by decide)
  -- what the token satisfies, for a literal that is put together from it
  have hlegible {hi : Cursor} {P : Prop} (hle : c ≤ hi) (h : t.Legible lits → P) :
      Fits (Token.Legible lits) lo hi [] P := (ht.fits.mono le_rfl hle).imp fun ht => h ht.1
  refine .spanOf ?_
  split
  · exact .pure (.cons (hspan le_rfl) (.of rfl))
  · exact .pure (.cons (hspan le_rfl) (.of rfl))
  · rename_i hkind
    have hrefuses (e : NumeralError) (h : Numeral.readInt .marked t.lexeme = .error e) :
        t.Refuses e := by
      unfold Token.Refuses
      rwa [hkind]
    refine .bind (.number ht.within.mem hrefuses) fun n hi hhi hn => .pure (.cons (hspan hhi) ?_)
    refine hlegible hhi fun ht => ?_
    have hspelled := (ht heof).1
    unfold Token.IsSpelled at hspelled
    rw [hkind] at hspelled
    exact ⟨Numeral.readInt_nonneg hn hspelled.minus_notMem, rfl⟩
  · rename_i hkind
    generalize hparts : durationParts t.lexeme = parts
    obtain ⟨amount, unit⟩ := parts
    have hrefuses (e : NumeralError) (h : Numeral.readInt .ten amount = .error e) :
        t.Refuses e := by
      unfold Token.Refuses
      rwa [hkind, hparts]
    refine .bind (.number ht.within.mem hrefuses) fun n hi hhi hn => .pure (.cons (hspan hhi) ?_)
    refine hlegible hhi fun ht => ?_
    have hspelled := (ht heof).1
    unfold Token.IsSpelled at hspelled
    rw [hkind] at hspelled
    obtain ⟨ds, unit', hcs, hne, hds, hu⟩ := hspelled.duration_parts
    have hlexeme : t.lexeme = String.ofList (ds ++ unit') := by rw [← hcs, String.ofList_toList]
    rw [hlexeme, durationParts_append hne hds hu] at hparts
    cases hparts
    have hminus : '-' ∉ (String.ofList ds).toList := by
      rw [String.toList_ofList]
      exact fun hmem => absurd (hds _ hmem) (by decide)
    have hnonneg := Numeral.readInt_nonneg hn hminus
    have hlimit := Numeral.readInt_ten_lt hn
    refine ⟨hnonneg, ?_, by rw [String.toList_ofList]; exact hu, rfl⟩
    rwa [← Int.toNat_of_nonneg hnonneg, Int.natAbs_natCast] at hlimit
  · rename_i hkind
    have hrefuses (e : NumeralError) (h : Numeral.readFloat t.lexeme = .error e) :
        t.Refuses e := by
      unfold Token.Refuses
      rwa [hkind]
    generalize Numeral.readFloat t.lexeme = read at hrefuses
    refine .bind (.number ht.within.mem hrefuses) fun x hi hhi hx => .pure (.cons (hspan hhi) ?_)
    exact hlegible hhi fun ht => ⟨(ht heof).2.1 hkind, rfl⟩
  · have hkind : t.kind = .string := by
      simp only [literalKinds, mem_cons, not_mem_nil, or_false] at hk
      grind
    exact .pure (.cons (hspan le_rfl) (hlegible le_rfl fun ht => ⟨(ht heof).2.2 hkind, rfl⟩))

theorem analogRead_gives (he : GivesExpr lits m expression) (hstart : start.Within lo c)
    (hlo : lo ≤ c) : Tracks lo c m (analogRead expression start) fun hi e =>
      e.FitsIn lits lo hi := by
  refine .token rfl fun _ m₁ h₁ _ => .bind he.here fun arg m₂ h₂ harg => ?_
  refine .token rfl fun close hi h₃ hclose => .between (.spanOf (.pure ?_))
  have hname : (start.span lo.file).Within lo hi := hstart.span.mono le_rfl (by order)
  have hargs : Fits (Token.Legible lits) lo hi (exprsSpans [arg]) _ :=
    .exprs (forall_mem_singleton.mpr (harg.mono (by order) h₃))
  refine .cons (hstart.between (hclose.within.mono (by order) le_rfl)) (.cons hname ?_)
  exact hargs.imp fun h => ⟨.inl ⟨rfl, rfl⟩, h⟩

theorem primary_gives {conditional : Parser Expr} (hm : m ≤ m' + 1)
    (he : GivesExpr lits m' expression)
    (hconditional : ∀ c : Cursor, c.kind = .kwIf →
      Tracks c c m conditional fun hi e => e.FitsIn lits c hi ∧ c.Advances hi) :
    GivesExpr lits m (primary expression conditional) := by
  intro c
  refine .kind ?_
  split
  · rename_i hk
    exact hconditional c hk
  split
  · rename_i hliteral
    have hmem : c.kind ∈ literalKinds := by simpa using hliteral
    refine .next hm (fun h => absurd (h ▸ hmem) (by decide)) fun t mid _ ht => ?_
    exact literalOf_gives ht (mem_singleton.mp ht.kind ▸ hmem)
  split
  · rename_i hk
    refine .next hm (by rw [hk]; decide) fun t mid _ ht =>
      .spanOf (.pure (.cons ht.within.span ?_))
    exact Token.Taken.isName (hk ▸ ht)
  split
  · rename_i hk
    exact .next hm (by rw [hk]; decide) fun t mid hle ht => analogRead_gives he ht.within hle
  split
  · rename_i hk
    refine .next hm (by rw [hk]; decide) fun t mid hle ht => ?_
    refine .bind (he.from_le hle) fun inner m₁ _ hinner => ?_
    exact .token rfl fun _ m₂ h₂ _ => .pure (hinner.mono le_rfl h₂)
  · exact .failHere _

end SketchCompiler
