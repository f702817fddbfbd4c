/-
What readings yield.  The rules that refer to each other are indexed by
how deeply they may nest, so the knot is an induction on that index
(`rules_at`).  Behind a token that was read one token less is left, and
at most four rules are entered between two tokens, so the nesting that a
number of tokens is read with is never used up.

The program of a token list without reports is proper
(`Program.ofTokens_proper`), and so is that of a source
(`Program.ofSource_proper`).
-/
import SketchCompiler.Proofs.StmtImage

namespace SketchCompiler

open Grammar

variable {lits : Literals} {m m' : Nat} {lo mid hi c : Cursor} {start : Token}
  {declaration : Parser Item} {statement : Parser Stmt} {expression : Parser Expr}
  {block : Parser Block}

-- ==== declarations

/-- An import lies within the tokens that were read. -/
theorem importDecl_gives : Tracks lo c m importDecl (Stmt.FitsIn lits c) := by
  refine .inside (.token rfl fun path m₁ h₁ hpath => .token rfl fun stop hi h₂ hstop => ?_)
  exact .spanOf (.spanOf (.pure (.cons (hpath.within.span.upToToken hstop.within) (.of trivial))))

/-- A parameter is two names that are not reserved. -/
theorem param_gives (lits : Literals) :
    Builds (Token.Legible lits) m param (fun p => [p.span]) Param.Proper := by
  intro c
  refine .enter (Nat.le_succ m) rfl fun name m₁ h₁ hname => .token rfl fun _ m₂ h₂ _ => ?_
  refine .token rfl fun typeName hi h₃ htype => .spanOf (.spanOf (.pure (.cons ?_ ?_)))
  · exact hname.within.span.upToToken (htype.within.mono h₂ le_rfl)
  · exact (hname.isName.mono le_rfl (by order)).append (htype.isName.mono (by order) le_rfl)

/-- Parameters and body lie within a function. -/
theorem functionDecl_gives (hb : GivesBlock lits m block) :
    Tracks lo c m (functionDecl block) (Stmt.FitsIn lits c) := by
  refine .inside (.token rfl fun name m₁ h₁ hname => .token rfl fun _ m₂ h₂ _ => ?_)
  refine .bind (param_gives lits).separatedUntil fun params m₃ h₃ hparams => ?_
  refine .token rfl fun _ m₄ h₄ _ => .token rfl fun _ m₅ h₅ _ =>
    .token rfl fun type m₆ h₆ htype => ?_
  refine .bind hb.here fun body hi h₇ hbody => .spanOf (.pure (.cons ?_ ?_))
  · exact hname.within.span.upTo (hbody.span_block.mono (by order) le_rfl)
  have hname' : Fits (Token.Legible lits) c hi [] _ := hname.isName.mono le_rfl (by order)
  have htype' : Fits (Token.Legible lits) c hi [] _ := htype.isName.mono (by order) h₇
  have hparams' : Fits (Token.Legible lits) c hi (params.map Param.span) _ :=
    .map fun p hp => (hparams p hp).mono (by order) (by order)
  have hparts := hname'.append (htype'.append (hparams'.append (hbody.mono (by order) le_rfl)))
  exact hparts.imp fun h => ⟨h.1, h.2.2.1, h.2.1, h.2.2.2⟩

/-- Each decorator lies within what was read. -/
theorem decorators_gives (he : GivesExpr lits m expression) :
    Tracks c c m (decorators expression) fun hi ds =>
      (∀ d ∈ ds, Fits (Token.Legible lits) c hi d.spans (d.Proper lits)) := by
  refine .loop (I := fun hi ds => ∀ d ∈ ds, Fits (Token.Legible lits) c hi d.spans (d.Proper lits))
    ?_ (by simp)
  intro items mid hle hitems
  refine .option (by decide) (fun start m₁ h₁ hstart => ?_)
    (.pure fun d hd => hitems d (List.mem_reverse.mp hd))
  refine .token rfl fun name m₂ h₂ hname => .token rfl fun _ m₃ h₃ _ => ?_
  refine .bind he.here fun value m₄ h₄ hvalue => .token rfl fun right hi h₅ hright => ?_
  refine .between (.pure ⟨.items hitems (by order) (.cons ?_ ?_), hstart.lt (by order)⟩)
  · exact (hstart.within.mono hle le_rfl).between (hright.within.mono (by order) le_rfl)
  · exact (hname.isName.mono (by order) (by order)).append (hvalue.mono (by order) h₅)

/-- The decorators of a task were read in front of it. -/
theorem taskDecl_gives (hb : GivesBlock lits m block) (hle : lo ≤ c)
    (hmarks : ∀ d ∈ marks, Fits (Token.Legible lits) lo c d.spans (d.Proper lits)) :
    Tracks lo c m (taskDecl block marks) (Stmt.FitsIn lits lo) := by
  refine .token rfl fun name m₁ h₁ hname => .token rfl fun _ m₂ h₂ _ =>
    .token rfl fun _ m₃ h₃ _ => ?_
  refine .bind hb.here fun body hi h₄ hbody => .spanOf (.pure (.cons ?_ ?_))
  · exact (hname.within.mono hle le_rfl).span.upTo (hbody.span_block.mono (by order) le_rfl)
  have hmarks' : Fits (Token.Legible lits) lo hi (decoratorsSpans marks)
      (decoratorsProper lits marks) := by
    rw [decoratorsSpans_eq]
    exact (Fits.flatMap fun d hd =>
      (hmarks d hd).mono le_rfl (by order)).imp decoratorsProper_iff.mpr
  have hname' : Fits (Token.Legible lits) lo hi [] _ := hname.isName.mono hle (by order)
  have hparts := hname'.append (hmarks'.append (hbody.mono (by order) le_rfl))
  exact hparts.imp fun h => ⟨h.1, h.2.1, Option.some_ne_none _, h.2.2⟩

/-- A field is two names that are not reserved. -/
theorem structField_gives (lits : Literals) :
    Builds (Token.Legible lits) m structField (fun f => [f.span]) StructField.Proper := by
  intro c
  refine .accept rfl fun _ m₁ h₁ => ?_
  refine .token rfl fun name m₂ h₂ hname =>
    .ahead (hname.from_le h₁) (.token rfl fun _ m₃ h₃ _ => ?_)
  refine .token rfl fun type m₄ h₄ htype => .token rfl fun stop hi h₅ hstop => ?_
  refine .spanOf (.spanOf (.pure (.cons ?_ ?_)))
  · exact (hname.within.mono h₁ le_rfl).span.upToToken (hstop.within.mono (by order) le_rfl)
  · exact (hname.isName.mono h₁ (by order)).append (htype.isName.mono (by order) h₅)

theorem structDecl_gives : Tracks lo c m structDecl (Stmt.FitsIn lits c) := by
  refine .inside (.token rfl fun name m₁ h₁ hname => .token rfl fun _ m₂ h₂ _ => ?_)
  refine .bind (structField_gives lits).itemsUntil fun fields m₃ h₃ hfields => ?_
  refine .token rfl fun right hi h₄ hright => .spanOf (.spanOf (.pure (.cons ?_ ?_)))
  · exact hname.within.span.upToToken (hright.within.mono (by order) le_rfl)
  · have hname' : Fits (Token.Legible lits) c hi [] _ := hname.isName.mono le_rfl (by order)
    exact hname'.append (.map fun f hf => (hfields.2 f hf).mono (by order) h₄)

-- ==== buses

/-- A frequency is a number times its unit, or an expression. -/
theorem busFrequency_gives (he : GivesExpr lits m expression) :
    GivesExpr lits m (busFrequency expression) := by
  intro c
  refine .option (by decide) (fun digits m₁ h₁ hdigits => .ahead hdigits ?_) (he c)
  have hkind : digits.kind = .int := List.mem_singleton.mp hdigits.kind
  have hrefuses (e : NumeralError) (h : Numeral.readInt .marked digits.lexeme = .error e) :
      digits.Refuses e := by
    unfold Token.Refuses
    rwa [hkind]
  refine .bind (.number hdigits.within.mem hrefuses) fun n m₂ h₂ hn => .get ?_
  -- what is read is no negative number
  have hnonneg {hi : Cursor} {factor : Int} (hle : m₁ ≤ hi) (hpos : 0 ≤ factor) :
      Fits (Token.Legible lits) c hi [] (0 ≤ n * factor ∧ "int" = "int") := by
    refine (hdigits.fits.mono le_rfl hle).imp fun h => ⟨Int.mul_nonneg ?_ hpos, rfl⟩
    have hspelled := (h.1 (by rw [hkind]; decide)).1
    unfold Token.IsSpelled at hspelled
    rw [hkind] at hspelled
    exact Numeral.readInt_nonneg hn hspelled.minus_notMem
  cases hfactor : (if m₂.kind = .ident then frequencyFactor m₂.peek.lexeme else none) with
  | some factor =>
    have hk : m₂.kind = .ident := by
      by_contra hne
      rw [if_neg hne] at hfactor
      cases hfactor
    rw [if_pos hk] at hfactor
    have hpos : 0 ≤ factor := by
      unfold frequencyFactor at hfactor
      grind
    refine (Tracks.next (Nat.le_succ m) (by rw [hk]; decide) fun unit hi h₃ hunit => ?_).mono
      fun _ _ _ h => h.1
    refine .between (.pure (.cons ?_ (hnonneg (h₂.trans h₃) hpos)))
    exact hdigits.within.between (hunit.within.mono h₂ le_rfl)
  | none =>
    refine .between (.pure (.cons ?_ ?_))
    · exact ⟨rfl, digits, digits, (hdigits.within.mono le_rfl h₂).self, rfl, le_rfl⟩
    · exact (hnonneg h₂ Int.one_nonneg).imp fun h => by rwa [Int.mul_one] at h

/-- The key of a device has no part in it. -/
theorem deviceKey_gives (hlo : lo ≤ c) : Tracks lo c m deviceKey fun _ _ => True := by
  refine .token rfl fun key m₁ h₁ hkey => ?_
  split
  · exact .pure trivial
  · exact .failAt (hkey.within.mono hlo le_rfl).mem _

/-- A device lies within what its rule has read. -/
theorem device_gives (he : GivesExpr lits m expression) (hstart : start.Within lo c)
    (hlo : lo ≤ c) :
    Tracks lo c m (device expression start) fun hi d =>
      Fits (Token.Legible lits) lo hi d.spans (d.Proper lits) := by
  refine .token rfl fun name m₁ h₁ hname => .token rfl fun _ m₂ h₂ _ => ?_
  refine .bind (deviceKey_gives (by order)) fun _ m₃ h₃ _ => .token rfl fun _ m₄ h₄ _ => ?_
  refine .bind he.here fun address m₅ h₅ haddress => .token rfl fun _ m₆ h₆ _ => ?_
  refine .token rfl fun right hi h₇ hright => .between (.pure (.cons ?_ ?_))
  · exact hstart.between (hright.within.mono (by order) le_rfl)
  · exact (hname.isName.mono hlo (by order)).append (haddress.mono (by order) (by order))

/-- What is known of a bus lies between the cursors and is proper. -/
structure Grammar.BusParts.FitsIn (lits : Literals) (lo hi : Cursor) (parts : BusParts) :
    Prop where
  sda : ∀ e ∈ parts.sda, e.FitsIn lits lo hi
  scl : ∀ e ∈ parts.scl, e.FitsIn lits lo hi
  freq : ∀ e ∈ parts.freq, e.FitsIn lits lo hi
  devices : ∀ d ∈ parts.devices, Fits (Token.Legible lits) lo hi d.spans (d.Proper lits)

theorem Grammar.BusParts.FitsIn.mono {parts : BusParts} {hi' : Cursor}
    (h : parts.FitsIn lits lo hi)
    (hhi : hi ≤ hi') : parts.FitsIn lits lo hi' where
  sda e he := (h.sda e he).mono le_rfl hhi
  scl e he := (h.scl e he).mono le_rfl hhi
  freq e he := (h.freq e he).mono le_rfl hhi
  devices d hd := (h.devices d hd).mono le_rfl hhi

section Buses

variable (he : GivesExpr lits m expression) (hlo : lo ≤ c) {parts : BusParts}
  (hparts : parts.FitsIn lits lo c)

include he hlo

include hparts in
/-- A property is set to a value that was read. -/
theorem busProperty_gives {key : Token} (hkey : key ∈ lo.rest) :
    Tracks lo c m (busProperty expression parts key) (BusParts.FitsIn lits lo) := by
  have hsome {hi : Cursor} {e : Expr} (h : e.FitsIn lits lo hi) :
      ∀ e' ∈ some e, e'.FitsIn lits lo hi :=
    fun _ he => Option.some.inj he ▸ h
  unfold busProperty
  split
  · exact .bind (he.from_le hlo) fun e hi hhi h => .pure { hparts.mono hhi with sda := hsome h }
  · exact .bind (he.from_le hlo) fun e hi hhi h => .pure { hparts.mono hhi with scl := hsome h }
  · exact .bind ((busFrequency_gives he).from_le hlo) fun e hi hhi h =>
      .pure { hparts.mono hhi with freq := hsome h }
  · exact .failAt hkey _

include hparts in
/-- Reading a part of a bus goes on by a token at least. -/
theorem busPart_gives :
    Tracks lo c m (busPart expression parts) fun hi parts =>
      parts.FitsIn lits lo hi ∧ hi.rest.length < c.rest.length := by
  refine .option (by decide) (fun start m₁ h₁ hstart => ?_) ?_
  · refine .bind (device_gives he (hstart.within.mono hlo le_rfl) (hlo.trans h₁))
      fun d hi hhi hd =>
      .pure ⟨?_, hstart.lt hhi⟩
    have hparts' := hparts.mono (h₁.trans hhi)
    refine { hparts' with devices := List.forall_mem_append.mpr ⟨hparts'.devices, ?_⟩ }
    exact List.forall_mem_singleton.mpr hd
  · refine .token rfl fun key m₁ h₁ hkey => .token rfl fun _ m₂ h₂ _ => ?_
    have hmem := (hkey.within.mono hlo le_rfl).mem
    refine .bind (busProperty_gives he (by order) (hparts.mono (by order)) hmem)
      fun parts m₃ h₃ hparts => .token rfl fun _ hi h₄ _ => ?_
    exact .pure ⟨hparts.mono h₄, hkey.lt (by order)⟩

omit hlo in
/-- The loop over the parts keeps them within what was read. -/
theorem busParts_gives : Tracks c c m (busParts expression) (BusParts.FitsIn lits c) := by
  refine .loop (I := BusParts.FitsIn lits c) (fun parts mid hle hparts => ?_)
    ⟨by simp, by simp, by simp, by simp⟩
  refine .get ?_
  split
  · exact .pure hparts
  · exact .bind (busPart_gives he hle hparts) fun _ _ _ h => .pure h

/-- A bus is yielded only if its three properties are known. -/
theorem busDecl_gives (hstart : start.Within lo c) :
    Tracks lo c m (busDecl expression start) (Stmt.FitsIn lits lo) := by
  refine .bind (.expectAny (by decide)) fun busType m₁ h₁ htype => ?_
  refine .token rfl fun name m₂ h₂ hname => .token rfl fun _ m₃ h₃ _ => ?_
  refine .bind (busParts_gives he).inside fun parts m₄ h₄ hparts => ?_
  refine .token rfl fun right hi h₅ hright => ?_
  split
  · rename_i sda scl freq hsda hscl hfreq
    refine .between (.pure (.cons ?_ ?_))
    · exact hstart.between (hright.within.mono (by order) le_rfl)
    have hdevices : Fits (Token.Legible lits) lo hi (devicesSpans parts.devices)
        (devicesProper lits parts.devices) := by
      rw [devicesSpans_eq]
      exact (Fits.flatMap fun d hd => (hparts.devices d hd).mono (by order) h₅).imp
        devicesProper_iff.mpr
    have htype' : Fits (Token.Legible lits) lo hi []
        (IsTextOf [.kwI2C, .kwSPI] busType.lexeme ∨ IsName busType.lexeme) := by
      by_cases hident : busType.kind = .ident
      · have htaken : busType.Taken [.ident] c m₁ := { htype with kind := by simp [hident] }
        exact (htaken.isName.mono hlo (by order)).imp .inr
      · have htaken : busType.Taken [.kwI2C, .kwSPI] c m₁ :=
          { htype with kind := by simpa [hident] using htype.kind }
        exact ((htaken.isTextOf (by decide)).mono hlo (by order)).imp .inl
    have hname' : Fits (Token.Legible lits) lo hi [] _ := hname.isName.mono (by order) (by order)
    exact htype'.append (hname'.append (.append ((hparts.sda sda hsda).mono (by order) h₅)
      (.append ((hparts.scl scl hscl).mono (by order) h₅)
        (.append ((hparts.freq freq hfreq).mono (by order) h₅) hdevices))))
  · exact .failAt (hright.within.mono (by order) le_rfl).mem _

end Buses

-- ==== all declarations

/-- The body of the loop lies within it. -/
theorem loopDecl_gives (hb : GivesBlock lits m block) (hstart : start.Within lo c) (hlo : lo ≤ c) :
    Tracks lo c m (loopDecl block start) (Stmt.FitsIn lits lo) := by
  refine .bind hb.here fun body hi _ hbody => .spanOf (.pure ?_)
  exact .cons (hstart.span.upTo hbody.span_block) (hbody.mono hlo le_rfl)

/-- The next token decides which declaration is read. -/
theorem declarationBody_gives (hm : m ≤ m' + 1) (hm' : m' ≤ m) (hd : GivesItem lits m' declaration)
    (hs : GivesStmt lits m statement) (he : GivesExpr lits m expression) :
    Runs m (declarationBody declaration statement expression) fun lo hi s =>
      s.FitsIn lits lo hi ∧ (lo.kind ∈ variableKinds → s.isValueItem = true) := by
  intro c
  have hb := block_gives (Nat.le_succ m') hd
  have he' : GivesExpr lits m' expression := he.mono hm' fun _ _ _ h => h
  have hclause (s : Stmt) (h : s.isClause = true) : s.isValueItem = true := by
    cases s <;> first | rfl | cases h
  -- a keyword that is read, and what stands behind it
  have hnext {k : Kind} (hk : c.kind = k) (heof : (k == .eof) = false) (hvar : k ∉ variableKinds)
      {f : Token → Parser Stmt}
      (hf : ∀ t mid, c ≤ mid → t.Within c mid → Tracks c mid m' (f t) (Stmt.FitsIn lits c)) :
      Tracks c c m (Parser.next >>= f) fun hi s =>
        (s.FitsIn lits c hi ∧ (c.kind ∈ variableKinds → s.isValueItem = true)) ∧ c.Advances hi :=
    (Tracks.next hm (hk ▸ ne_of_beq_false heof) fun t mid hle ht =>
      hf t mid hle ht.within).mono fun _ _ _ h => ⟨⟨h.1, fun hmem => absurd (hk ▸ hmem) hvar⟩, h.2⟩
  -- what starts behind the keyword
  have hfrom {p : Parser Stmt} {mid : Cursor} (hle : c ≤ mid)
      (h : Tracks c mid m' p (Stmt.FitsIn lits mid)) : Tracks c mid m' p (Stmt.FitsIn lits c) :=
    h.mono fun _ _ _ hs => hs.mono hle le_rfl
  refine .kind ?_
  split
  · exact hnext ‹_› rfl (by decide) fun _ _ hle _ => hfrom hle importDecl_gives
  · rename_i hk
    refine .bind (decorators_gives he) fun marks m₁ h₁ hmarks => .token rfl fun t m₂ h₂ ht => ?_
    have htask := taskDecl_gives (block_gives hm hd) (h₁.trans h₂)
      fun d hd => (hmarks d hd).mono le_rfl h₂
    refine .ahead (ht.from_le h₁) (htask.mono fun _ _ _ h => ⟨h, fun hmem => ?_⟩)
    exact absurd (hk ▸ hmem) (by decide)
  · exact hnext ‹_› rfl (by decide) fun _ _ hle _ => hfrom hle (functionDecl_gives hb)
  · exact hnext ‹_› rfl (by decide) fun _ _ hle _ => taskDecl_gives hb hle (by simp)
  · exact hnext ‹_› rfl (by decide) fun _ _ hle _ => hfrom hle structDecl_gives
  · exact hnext ‹_› rfl (by decide) fun _ _ hle ht => busDecl_gives he' hle ht
  · exact hnext ‹_› rfl (by decide) fun _ _ hle ht => loopDecl_gives hb ht hle
  · refine .bind (qualifiedDecl?_gives he) fun decl? mid hle hdecl => ?_
    cases decl? with
    | some s =>
      obtain ⟨hs, hlt⟩ := hdecl.1 s rfl
      exact .pure ⟨⟨hs.1, fun _ => hclause s hs.2⟩, hlt⟩
    | none =>
      obtain ⟨rfl, hvar⟩ := hdecl.2 rfl
      exact (hs mid).mono fun _ _ _ h => ⟨⟨h.1.1, fun hmem => absurd hmem hvar⟩, h.2⟩

/-- A declaration with a mistake yields nothing, behind a report. -/
theorem declaration_gives (h : Runs m body fun lo hi s =>
      s.FitsIn lits lo hi ∧ (lo.kind ∈ variableKinds → s.isValueItem = true)) :
    GivesItem lits m (Grammar.declaration body) := by
  intro c hc
  have hbody := h c hc
  unfold Grammar.declaration
  cases hr : body c with
  | ok s c' =>
    rw [hr] at hbody
    refine ⟨hbody.1, hbody.2.1, fun s' hs' => ?_, hbody.2.2.2⟩
    cases hs'
    exact hbody.2.2.1
  | failed c' =>
    rw [hr] at hbody
    obtain ⟨hle, hsees, -⟩ := hbody
    have hrecover := le_recover c'
    refine ⟨hle.trans hrecover, hsees.recover, by simp, fun hk => ?_⟩
    by_cases heof : c'.kind = .eof
    · have hlt := Cursor.length_lt_of_le hle (heof ▸ hk)
      exact Nat.lt_of_le_of_lt (Cursor.length_of_le hrecover) hlt
    · exact Nat.lt_of_lt_of_le (length_recover_lt heof) (Cursor.length_of_le hle)
  | abort _ | exhausted =>
    rw [hr] at hbody
    exact hbody

-- ==== the knot

/-- A rule may run out at once where nothing is promised. -/
theorem Runs.exhausted {S : Cursor → Cursor → α → Prop} (hm : m = 0) :
    Runs m (fun _ => .exhausted) S := by
  intro c _ hends
  obtain ⟨t, ht, -⟩ := hends
  rw [hm]
  exact List.length_pos_of_mem ht

/-- Every rule yields proper trees at any bound of nesting that leaves
room for the tokens. -/
theorem rules_at (lits : Literals) (n : Nat) (m : Nat) :
    (4 * m ≤ n + 2 → GivesExpr lits m (expressionAt n))
      ∧ (4 * m ≤ n + 3 → GivesExpr lits m (unaryAt n))
      ∧ (4 * m ≤ n + 1 → GivesStmt lits m (statementAt n))
      ∧ (4 * m ≤ n → GivesItem lits m (declarationAt n)) := by
  induction n generalizing m with
  | zero =>
    exact ⟨fun _ => .exhausted (by omega), fun _ => .exhausted (by omega),
      fun _ => .exhausted (by omega), fun _ => .exhausted (by omega)⟩
  | succ n ih =>
    have hm : m ≤ m - 1 + 1 := by omega
    have hm' : m - 1 ≤ m := Nat.sub_le m 1
    refine ⟨fun h => ?_, fun h => ?_, fun h => ?_, fun h => ?_⟩
    · exact assignment_gives hm ((ih m).2.1 (by omega)) ((ih (m - 1)).1 (by omega))
    · have hle : 4 * (m - 1) ≤ n := by omega
      obtain ⟨he, hu, hs, hd⟩ := ih (m - 1)
      have he := he (Nat.le_add_right_of_le hle)
      refine unary_gives hm (hu (Nat.le_add_right_of_le hle))
        (postfixed_gives (calls_gives hm he ?_))
      refine primary_gives hm he fun c hk => ?_
      exact conditional_gives (hd hle) (hs (Nat.le_add_right_of_le hle)) he hm hk
    · exact statement_gives hm hm' ((ih (m - 1)).2.2.2 (by omega)) ((ih m).1 (by omega))
    · refine declaration_gives (declarationBody_gives hm hm' ((ih (m - 1)).2.2.2 (by omega)) ?_ ?_)
      · exact (ih m).2.2.1 (by omega)
      · exact (ih m).1 (by omega)

/-- The outcome of a parser run from a cursor: what is left stays legible,
no report is taken back, and without any the value satisfies `Q`. -/
def Parsed.Meets (T : Token → Prop) (c : Cursor) (Q : α → Prop) : Parsed α → Prop
  | .ok a c' => c'.All T ∧ (c'.errors = [] → c.errors = [] ∧ Q a)
  | _ => True

/-- What expressions and operands yield from legible tokens is proper. -/
theorem yields_at (lits : Literals) (n : Nat) :
    (∀ c : Cursor, c.All (Token.Legible lits) →
        (expressionAt n c).Meets (Token.Legible lits) c (Expr.Proper lits))
      ∧ ∀ c : Cursor, c.All (Token.Legible lits) →
        (unaryAt n c).Meets (Token.Legible lits) c (Expr.Proper lits) := by
  have hmeets {p : Parser Expr} (h : GivesExpr lits 0 p) (c : Cursor)
      (hc : c.All (Token.Legible lits)) :
      (p c).Meets (Token.Legible lits) c (Expr.Proper lits) := by
    have hrun := h c (.refl c)
    cases hr : p c with
    | ok e c' =>
      rw [hr] at hrun
      obtain ⟨hle, -, hfits, -⟩ := hrun
      refine ⟨fun t ht => hc t ((Cursor.suffix_of_le hle).subset ht), fun herr => ?_⟩
      exact ⟨Cursor.Leads.clean hle herr, hfits.holds hc herr⟩
    | failed | abort | exhausted => trivial
  exact ⟨hmeets ((rules_at lits n 0).1 (by omega)), hmeets ((rules_at lits n 0).2.1 (by omega))⟩

-- ==== programs

/-- The items of a source are read up to its end. -/
theorem items_gives (lits : Literals) (c : Cursor) :
    Tracks c c (c.rest.length + 1) items fun hi items => hi.atEnd = true ∧ ∀ item ∈ items,
      Fits (Token.Legible lits) c hi (stmtSpans? item) (∀ s ∈ item, s.Proper lits) := by
  have hd := (rules_at lits (nesting c.rest.length) (c.rest.length + 1)).2.2.2 (Nat.le_refl _)
  have hitems : Tracks c c (c.rest.length + 1)
      (Parser.itemsUntil .eof (declarationAt (nesting c.rest.length))) _ := hd.items.itemsUntil
  exact fun hc => (hitems hc).mono le_rfl (fun _ h => h) fun hi items _ h =>
    ⟨h.1.elim decide_eq_true id, h.2⟩

/-- A program lies within the tokens that were read. -/
theorem Program.ofTokens_ok (lits : Literals)
    (h : Program.ofTokens file tokens = .ok (p, errors)) :
    ∃ start c : Cursor, start.file = file ∧ start.rest = tokens ∧ start.errors = [] ∧ start.Sees c
      ∧ errors = c.errors ∧ Fits (Token.Legible lits) start c p.spans (p.Proper lits) := by
  have hitems :=
    items_gives lits { file, rest := tokens, last := tokens.getLastD Parser.endMarker }
    (.refl _)
  refine ⟨{ file, rest := tokens, last := tokens.getLastD Parser.endMarker }, ?_⟩
  unfold Program.ofTokens at h
  dsimp only at h
  split at h
  · rename_i items c hrun
    obtain ⟨hp, herrors⟩ := Prod.mk.inj (Except.ok.inj h)
    rw [hrun] at hitems
    subst hp herrors
    exact ⟨c, rfl, rfl, rfl, hitems.2.1, rfl, .present hitems.2.2.2⟩
  · rename_i c hrun
    obtain ⟨hp, herrors⟩ := Prod.mk.inj (Except.ok.inj h)
    rw [hrun] at hitems
    subst hp herrors
    exact ⟨c, rfl, rfl, rfl, hitems.2.1, rfl, by simp [Program.spans, stmtsSpans],
      fun _ herr => absurd herr hitems.2.2⟩
  · cases h
  · cases h

/-- Legible tokens without a report stand for a proper program. -/
theorem Program.ofTokens_proper (htokens : ∀ t ∈ tokens, t.Legible lits)
    (h : Program.ofTokens file tokens = .ok (p, [])) : p.Proper lits := by
  obtain ⟨start, c, -, rfl, -, -, herrors, hfits⟩ := Program.ofTokens_ok lits h
  exact hfits.holds htokens herrors.symm

/-- A source is scanned first, then its tokens are read. -/
theorem Program.ofSource_ok (h : Program.ofSource file source = .ok src) :
    ∃ tokens, Token.scan source = .ok { tokens, errors := src.scanErrors }
      ∧ Program.ofTokens file tokens = .ok (src.program, src.parseErrors) := by
  unfold Program.ofSource at h
  cases hscan : Token.scan source with
  | error fault =>
    rw [hscan] at h
    cases h
  | ok scanned =>
    rw [hscan] at h
    cases hread : Program.ofTokens file scanned.tokens with
    | error fault =>
      simp only [Except.mapError, bind, Except.bind, hread] at h
      cases h
    | ok r =>
      simp only [Except.mapError, bind, Except.bind, hread] at h
      cases h
      exact ⟨scanned.tokens, rfl, hread⟩

/-- A source without reports has a proper program, with no other literals
than its tokens. -/
theorem Program.ofSource_literals (h : Program.ofSource file source = .ok src)
    (hscan : src.scanErrors = []) (hparse : src.parseErrors = [])
    (hliterals : ∀ scanned, Token.scan source = .ok scanned → ∀ t ∈ scanned.tokens,
      (t.kind = .float → lits.floats) ∧ (t.kind = .string → lits.texts t.lexeme)) :
    src.program.Proper lits := by
  obtain ⟨tokens, htokens, hread⟩ := Program.ofSource_ok h
  rw [hparse] at hread
  refine Program.ofTokens_proper (fun t ht heof => ?_) hread
  rcases Token.scan_spelled htokens hscan t ht with hend | hspelled
  · exact absurd hend heof
  · exact ⟨hspelled, hliterals _ htokens t ht⟩

/-- A source without reports has a proper program, with fractions only if
the source has some. -/
theorem Program.ofSource_proper (h : Program.ofSource file source = .ok src)
    (hscan : src.scanErrors = []) (hparse : src.parseErrors = [])
    (hfloat : ∀ scanned, Token.scan source = .ok scanned →
      ∀ t ∈ scanned.tokens, t.kind = .float → floats) : src.program.Proper floats :=
  Program.ofSource_literals h hscan hparse fun scanned hs t ht =>
    ⟨hfloat scanned hs t ht, fun _ => trivial⟩

/-- A source without reports has a proper program, whatever literals it
holds. -/
theorem Program.proper_of_clean (h : Program.ofSource file source = .ok src)
    (hscan : src.scanErrors = []) (hparse : src.parseErrors = []) : src.program.Proper True :=
  Program.ofSource_proper h hscan hparse fun _ _ _ _ _ => trivial

end SketchCompiler
