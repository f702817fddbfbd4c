/-
What the rules for blocks and statements yield, treated like those for
expressions.

# Value blocks

In a value block the next token decides whether a declaration, a
statement or an expression is read, so that what stands in it is
restricted.  This is why the rules for statements and declarations are
described with the kind they start from (`GivesStmt`, `GivesItem`).
-/
import SketchCompiler.Proofs.ExprImage

namespace SketchCompiler

open Grammar

variable {lits : Literals} {m m' : Nat} {lo mid hi c : Cursor} {start name : Token}
  {declaration : Parser Item} {statement : Parser Stmt} {expression : Parser Expr}
  {block : Parser Block}

/-- The statement lies between the cursors and is proper. -/
abbrev Stmt.FitsIn (lits : Literals) (lo hi : Cursor) (s : Stmt) : Prop :=
  Fits (Token.Legible lits) lo hi s.spans (s.Proper lits)

/-- So does it, and it can stand in a value block. -/
abbrev Stmt.FitsItem (lits : Literals) (lo hi : Cursor) (s : Stmt) : Prop :=
  s.FitsIn lits lo hi ∧ s.isValueItem = true

/-- So does it, and it can stand first in a `for` header. -/
abbrev Stmt.FitsClause (lits : Literals) (lo hi : Cursor) (s : Stmt) : Prop :=
  s.FitsIn lits lo hi ∧ s.isClause = true

/-- The parser yields proper blocks. -/
abbrev GivesBlock (lits : Literals) (m : Nat) (p : Parser Block) : Prop :=
  Builds (Token.Legible lits) m p Block.spans (Block.Proper lits)

/-- A statement is proper, and can stand in a value block unless it
starts with `if`. -/
abbrev GivesStmt (lits : Literals) (m : Nat) (p : Parser Stmt) : Prop :=
  Runs m p fun lo hi s => s.FitsIn lits lo hi ∧ (lo.kind ≠ .kwIf → s.isValueItem = true)

/-- A declaration or statement is proper, and can stand in a value block
if it starts like a variable. -/
abbrev GivesItem (lits : Literals) (m : Nat) (p : Parser Item) : Prop :=
  Runs m p fun lo hi item => ∀ s ∈ item,
    s.FitsIn lits lo hi ∧ (lo.kind ∈ variableKinds → s.isValueItem = true)

-- ==== parts of a tree

namespace Fits

theorem span_block {b : Block} (h : Fits (Token.Legible lits) lo hi b.spans P) :
    b.span.Within lo hi :=
  h.spans _ b.span_mem_spans

theorem block? {b? : Option Block}
    (h : ∀ b ∈ b?, Fits (Token.Legible lits) lo hi b.spans (b.Proper lits)) :
    Fits (Token.Legible lits) lo hi (blockSpans? b?) (blockProper? lits b?) := by
  cases b? with
  | none => exact .of trivial
  | some b => exact h b rfl

theorem stmts {ss : List Stmt} (h : ∀ s ∈ ss, s.FitsIn lits lo hi) :
    Fits (Token.Legible lits) lo hi (stmtsSpans ss) (stmtsProper lits ss) := by
  rw [stmtsSpans_eq]
  exact (flatMap h).imp stmtsProper_iff.mpr

theorem present {items : List Item} (h : ∀ item ∈ items,
      Fits (Token.Legible lits) lo hi (stmtSpans? item) (∀ s ∈ item, s.Proper lits)) :
    Fits (Token.Legible lits) lo hi (stmtsSpans (items.filterMap id))
      (stmtsProper lits (items.filterMap id)) := by
  refine stmts fun s hs => ?_
  obtain ⟨item, hitem, hid⟩ := List.mem_filterMap.mp hs
  cases hid
  exact (h _ hitem).imp fun h => h s rfl

end Fits

theorem Runs.items (h : GivesItem lits m declaration) :
    Builds (Token.Legible lits) m declaration stmtSpans? fun item =>
      ∀ s ∈ item, s.Proper lits := by
  refine h.mono le_rfl fun lo hi item h => ?_
  cases item with
  | none => exact .of (by simp)
  | some s => exact (h s rfl).1.imp fun h s' hs' => Option.some.inj hs' ▸ h

-- ==== blocks

theorem block_gives (hm : m ≤ m' + 1) (hd : GivesItem lits m' declaration) :
    GivesBlock lits m (Grammar.block declaration) := by
  intro c
  refine .enter hm rfl fun left m₁ h₁ hleft => ?_
  refine .bind hd.items.itemsUntil fun items m₂ h₂ hitems => ?_
  refine .token rfl fun right hi h₃ hright => .spanOf (.spanOf (.pure (.cons ?_ ?_)))
  · exact hleft.within.span.upToToken (hright.within.mono h₂ le_rfl)
  · exact .present fun item hitem => (hitems.2 item hitem).mono h₁ h₃

section ValueBlocks

variable (hd : GivesItem lits m declaration) (hs : GivesStmt lits m statement)
  (he : GivesExpr lits m expression)

include hd hs he

theorem valueItems_gives :
    Tracks lo c m (valueItems declaration statement expression) fun hi r =>
      (∀ s ∈ r.1, s.FitsItem lits c hi) ∧ ∀ e ∈ r.2, e.FitsIn lits c hi := by
  -- the items so far, and one more
  have hcons {mid hi : Cursor} {items : List Stmt} {s : Stmt}
      (hitems : ∀ s ∈ items, s.FitsItem lits c mid) (hle : mid ≤ hi) (h : s.FitsItem lits c hi) :
      ∀ s' ∈ s :: items, s'.FitsItem lits c hi :=
    List.forall_mem_cons.mpr ⟨h, fun s' hs' =>
      ⟨(hitems s' hs').1.mono le_rfl hle, (hitems s' hs').2⟩⟩
  refine .loop (I := fun hi items => ∀ s ∈ items, s.FitsItem lits c hi) ?_ (by simp)
  intro items mid hle hitems
  refine .get ?_
  split
  · exact .pure ⟨fun s hs => hitems s (List.mem_reverse.mp hs), by simp⟩
  rename_i hgo
  have hk : mid.kind ≠ .eof := fun heof => hgo (.inr (decide_eq_true heof))
  split
  · exact .failHere _
  split
  · rename_i hvar
    have hkind : mid.kind ∈ variableKinds := by simpa using hvar
    refine .bind hd.strict fun item hi hhi hitem => ?_
    cases item with
    | some s =>
      have hfits := hitem.1 s rfl
      exact .pure ⟨hcons hitems hhi ⟨hfits.1.mono hle le_rfl, hfits.2 hkind⟩, hitem.2 hk⟩
    | none =>
      exact .pure ⟨fun s hs => ⟨(hitems s hs).1.mono le_rfl hhi, (hitems s hs).2⟩, hitem.2 hk⟩
  split
  · rename_i hstmt
    have hkind : mid.kind ∈ statementKinds := by simpa using hstmt
    have hif : mid.kind ≠ .kwIf := fun h => absurd (h ▸ hkind) (by decide)
    refine .bind hs.strict fun s hi hhi h => .pure ⟨?_, h.2 hk⟩
    exact hcons hitems hhi ⟨h.1.1.mono hle le_rfl, h.1.2 hif⟩
  · refine .bind he.strict fun value m₁ h₁ hvalue => ?_
    have hfits := hvalue.1.mono hle le_rfl
    refine .option (by decide) (fun stop hi h₂ hstop => .spanOf (.pure ⟨?_, ?_⟩)) (.pure ⟨?_, ?_⟩)
    · refine hcons hitems (h₁.trans h₂) ⟨.cons ?_ (hfits.mono le_rfl h₂), rfl⟩
      exact hfits.span_expr.upToToken hstop.within
    · exact hstop.within.length_lt.trans (hvalue.2 hk)
    · intro s hs
      have h := hitems s (List.mem_reverse.mp hs)
      exact ⟨h.1.mono le_rfl h₁, h.2⟩
    · exact fun e he => Option.some.inj he ▸ hfits

theorem valueBlock_gives (context : String) :
    Runs m (valueBlock declaration statement expression context) fun lo hi r =>
      Fits (Token.Legible lits) lo hi r.1.spans
        (r.1.Proper lits ∧ ∀ s ∈ r.1.statements, s.isValueItem = true)
      ∧ r.2.FitsIn lits lo hi := by
  intro c
  refine .enter (Nat.le_succ m) rfl fun left m₁ h₁ hleft => ?_
  refine .bind (valueItems_gives hd hs he) fun r m₂ h₂ hr => ?_
  obtain ⟨items, value?⟩ := r
  cases value? with
  | none => exact .failHere _
  | some value =>
    refine .token rfl fun right hi h₃ hright => .spanOf (.spanOf (.pure ⟨.cons ?_ ?_, ?_⟩))
    · exact hleft.within.span.upToToken (hright.within.mono h₂ le_rfl)
    · refine (Fits.stmts fun s hs => (hr.1 s hs).1.mono h₁ h₃).imp fun h => ⟨h, ?_⟩
      exact fun s hs => (hr.1 s hs).2
    · exact (hr.2 value rfl).mono h₁ h₃

theorem conditional_gives (hm : m' ≤ m + 1) (hk : c.kind = .kwIf) :
    Tracks c c m' (conditional declaration statement expression)
      fun hi e => e.FitsIn lits c hi ∧ c.Advances hi := by
  have hblock := valueBlock_gives hd hs he
  refine .next hm (by rw [hk]; decide) fun start m₁ h₁ hstart => .token rfl fun _ m₂ h₂ _ => ?_
  refine .bind (he.from_le (h₁.trans h₂)) fun condition m₃ h₃ hcond =>
    .token rfl fun _ m₄ h₄ _ => ?_
  refine .bind (hblock _).here fun thenPart m₅ h₅ hthen => .token rfl fun _ m₆ h₆ _ => ?_
  refine .bind (hblock _).here fun elsePart hi h₇ helse => .spanOf (.pure ?_)
  have hparts := (hcond.mono le_rfl (by order : m₃ ≤ hi)).append
    ((hthen.1.mono (by order) (by order)).append ((hthen.2.mono (by order) (by order)).append
      ((helse.1.mono (by order) le_rfl).append (helse.2.mono (by order) le_rfl))))
  refine .cons (hstart.within.span.upTo (helse.1.span_block.mono (by order) le_rfl))
    (hparts.imp ?_)
  rintro ⟨hcond, ⟨hthen, hitems⟩, hvalue, ⟨helse, hitems'⟩, hvalue'⟩
  exact ⟨hcond, hthen, hitems, hvalue, helse, hitems', hvalue'⟩

end ValueBlocks

-- ==== variables

theorem variableEnd_gives (hname : name.Taken kinds lo mid) (hle : mid ≤ c) :
    Tracks lo c m (variableEnd needsSemicolon name initializer)
      fun hi stop => name.Through lo hi stop := by
  have hread : name.Within lo c := hname.within.mono le_rfl hle
  unfold variableEnd
  split
  · exact (Tracks.expect rfl).mono fun _ _ _ ht => hread.self.trans ht.within.self
  split
  · refine Tracks.last.mono fun hi stop _ h => ?_
    obtain ⟨rfl, rfl⟩ := h
    rcases Cursor.Leads.last hle with hlast | hwithin
    · rw [hlast, hname.last]
      exact hread.self
    · exact hname.within.self.trans hwithin.self
  · exact .pure hread.self

section Statements

variable (he : GivesExpr lits m expression) (hb : GivesBlock lits m block)
  (hstart : start.Within lo c) (hlo : lo ≤ c)

include he

theorem variableDecl_gives :
    Runs m (variableDecl expression needsSemicolon isConst isVolatile)
      (Stmt.FitsClause lits) := by
  have htype : Builds (Token.Legible lits) m (Parser.expect .ident "type name after ':'")
      (fun _ => [])
      fun t => IsName t.lexeme :=
    fun c => (Tracks.expect rfl).mono fun _ _ _ h => ⟨h.isName, fun _ => h.within.length_lt⟩
  intro c
  refine .enter (Nat.le_succ m) rfl fun name m₁ h₁ hname => ?_
  refine .bind (htype.behind rfl) fun typeName m₂ h₂ htypeName => ?_
  refine .bind (he.behind rfl) fun initializer m₃ h₃ hinit => ?_
  refine .bind (variableEnd_gives hname (h₂.trans h₃)) fun stop hi h₄ hstop => ?_
  refine .spanOf
    (.spanOf (.pure ⟨.cons ⟨rfl, name, stop, hstop, rfl, stop.pos_le_stop c.file⟩ ?_, rfl⟩))
  have hinit' : Fits _ c hi _ _ := .expr? fun e he => (hinit e he).mono (by order) h₄
  refine ⟨hinit'.spans, fun hT herr => ⟨?_, fun t ht => ?_, hinit'.holds hT herr, rfl⟩⟩
  · exact (hname.isName.mono le_rfl (by order)).holds hT herr
  · obtain ⟨token, htoken, rfl⟩ := Option.map_eq_some_iff.mp ht
    exact ((htypeName token htoken).mono h₁ (by order)).holds hT herr

theorem qualifiedDecl?_gives :
    Tracks c c m (qualifiedDecl? expression needsSemicolon) fun hi item =>
      (∀ s ∈ item, s.FitsClause lits c hi ∧ c.Advances hi)
        ∧ (item = none → hi = c ∧ c.kind ∉ variableKinds) := by
  -- the declaration behind its qualifiers
  have hdecl {isConst isVolatile : Bool} {t : Token} {k : Kind} {m₁ mid : Cursor}
      (ht : t.Taken [k] c m₁) (h₁ : c ≤ m₁) (h₂ : m₁ ≤ mid) :
      Tracks c mid m (do return some (← variableDecl expression needsSemicolon isConst isVolatile))
        fun hi item => (∀ s ∈ item, s.FitsClause lits c hi ∧ c.Advances hi)
          ∧ (item = none → hi = c ∧ c.kind ∉ variableKinds) := by
    refine .bind (variableDecl_gives he).here fun s hi hhi hs => .pure ⟨fun s' hs' => ?_, by simp⟩
    cases hs'
    exact ⟨⟨hs.1.mono (h₁.trans h₂) le_rfl, hs.2⟩, fun _ => ht.lt (h₂.trans hhi)⟩
  refine .whether_lt (Nat.le_succ m) rfl (fun t m₁ h₁ ht => ?_) fun hconst => ?_
  · refine .whether rfl (fun _ m₂ h₂ _ => ?_) ?_
    · exact .accept rfl fun _ m₃ h₃ => hdecl ht h₁ (h₂.trans h₃)
    · exact .accept rfl fun _ m₂ h₂ => hdecl ht h₁ h₂
  refine .whether_lt (Nat.le_succ m) rfl (fun t m₁ h₁ ht => ?_) fun hvolatile => ?_
  · refine .whether rfl (fun _ m₂ h₂ _ => ?_) ?_
    · exact .accept rfl fun _ m₃ h₃ => hdecl ht h₁ (h₂.trans h₃)
    · exact .accept rfl fun _ m₂ h₂ => hdecl ht h₁ h₂
  refine .whether_lt (Nat.le_succ m) rfl (fun t m₁ h₁ ht => hdecl ht h₁ le_rfl) fun hlet => ?_
  exact .pure ⟨by simp, fun _ => ⟨rfl, by simp [variableKinds, hconst, hvolatile, hlet]⟩⟩

-- ==== statements

theorem parenthesized_gives :
    Tracks lo c m (parenthesized expression word) fun hi e => e.FitsIn lits c hi := by
  refine .token rfl fun _ m₁ h₁ _ => .bind (he.from_le h₁) fun e m₂ _ hcond => ?_
  exact .token rfl fun _ hi h₃ _ => .pure (hcond.mono le_rfl h₃)

theorem forInit_gives :
    Tracks lo c m (forInit expression) fun hi item => ∀ s ∈ item, s.FitsClause lits c hi := by
  refine .bind (qualifiedDecl?_gives he).inside fun decl? m₁ h₁ hdecl => ?_
  cases decl? with
  | some decl => exact .pure fun s hs => (hdecl.1 s hs).1
  | none =>
    refine .kind ?_
    split
    · exact .pure (by simp)
    · refine .bind (he.from_le h₁) fun init hi _ hinit => .pure fun s hs => ?_
      cases hs
      exact ⟨.cons hinit.span_expr hinit, rfl⟩

theorem exprStmt_gives : Runs m (exprStmt expression) (Stmt.FitsItem lits) := by
  intro c
  refine .first he.strict fun value m₁ h₁ hvalue => .token rfl fun stop hi h₂ hstop => ?_
  exact .spanOf (.pure ⟨hvalue.ended hstop.within h₂, rfl⟩)

include hstart hlo

theorem returnStmt_gives : Tracks lo c m (returnStmt expression start)
    (Stmt.FitsItem lits lo) := by
  refine .kind ?_
  split
  · refine .token rfl fun stop hi _ hstop => .between (.pure ⟨?_, rfl⟩)
    exact .cons (hstart.between hstop.within) (.of trivial)
  · refine .bind (he.from_le hlo) fun value m₁ h₁ hvalue => .token rfl fun stop hi h₂ hstop => ?_
    exact .spanOf (.pure ⟨hvalue.ended hstop.within h₂, rfl⟩)

omit hstart hlo
include hb

theorem ifStmt_gives : Tracks lo c m (ifStmt expression block) (Stmt.FitsIn lits c) := by
  refine .bind (parenthesized_gives he) fun condition m₁ h₁ hcond => ?_
  refine .bind hb.here fun thenBranch m₂ h₂ hthen => ?_
  refine .bind (hb.behind rfl) fun elseBranch hi h₃ helse => .pure ?_
  have hend : (elseBranch.getD thenBranch).span.Within m₁ hi := by
    cases elseBranch with
    | none => exact hthen.span_block.mono le_rfl h₃
    | some body => exact (helse body rfl).span_block.mono h₂ le_rfl
  refine .cons (hcond.span_expr.upTo hend) (.append ?_ (.append ?_ ?_))
  · exact hcond.mono le_rfl (h₂.trans h₃)
  · exact hthen.mono h₁ h₃
  · exact .block? fun b hb => (helse b hb).mono (h₁.trans h₂) le_rfl

theorem whileStmt_gives : Tracks lo c m (whileStmt expression block) (Stmt.FitsItem lits c) := by
  refine .bind (parenthesized_gives he) fun condition m₁ h₁ hcond => ?_
  refine .bind hb.here fun body hi h₂ hbody => .pure ⟨?_, rfl⟩
  exact .cons (hcond.span_expr.upTo hbody.span_block)
    (.append (hcond.mono le_rfl h₂) (hbody.mono h₁ le_rfl))

theorem forStmt_gives : Tracks lo c m (forStmt expression block) (Stmt.FitsItem lits c) := by
  refine .token rfl fun _ m₁ h₁ _ => .bind (forInit_gives he) fun init m₂ h₂ hinit => ?_
  refine .token rfl fun _ m₃ h₃ _ => .bind he.unlessNext fun condition m₄ h₄ hcond => ?_
  refine .token rfl fun _ m₅ h₅ _ => .bind he.unlessNext fun update m₆ h₆ hupdate => ?_
  refine .token rfl fun _ m₇ h₇ _ => .bind hb.here fun body hi h₈ hbody => .pure ⟨.cons ?_ ?_, rfl⟩
  · cases condition with
    | none => exact hbody.span_block.mono (by order) le_rfl
    | some e =>
      exact ((hcond e rfl).span_expr.mono (by order) le_rfl).upTo
        (hbody.span_block.mono (by order) le_rfl)
  · refine .append ?_ (.append ?_ (.append ?_ (hbody.mono (by order) le_rfl)))
    · cases init with
      | none => exact .of trivial
      | some s => exact ((hinit s rfl).1.mono h₁ (by order)).imp fun h => ⟨h, (hinit s rfl).2⟩
    · exact .expr? fun e he => (hcond e he).mono (by order) (by order)
    · exact .expr? fun e he => (hupdate e he).mono (by order) (by order)

theorem matchArm_gives :
    Builds (Token.Legible lits) m (matchArm expression block) MatchArm.spans
      (MatchArm.Proper lits) := by
  intro c
  refine .get ?_
  split
  · rename_i hk
    refine .next (Nat.le_succ m) (by rw [hk.1]; decide) fun wildcard m₁ h₁ hwildcard => ?_
    refine .token rfl fun _ m₂ h₂ _ => .bind hb.here fun body hi h₃ hbody => .spanOf (.pure ?_)
    refine .cons (hwildcard.within.span.upTo (hbody.span_block.mono h₂ le_rfl)) ?_
    exact (hbody.mono (h₁.trans h₂) le_rfl).imp fun h => ⟨trivial, rfl, h⟩
  · refine .first he.strict fun pattern m₁ h₁ hpattern => .token rfl fun _ m₂ h₂ _ => ?_
    refine .bind hb.here fun body hi h₃ hbody => .pure ?_
    refine .cons (hpattern.span_expr.upTo (hbody.span_block.mono h₂ le_rfl)) ?_
    have hparts := (hpattern.mono le_rfl (h₂.trans h₃)).append (hbody.mono (h₁.trans h₂) le_rfl)
    exact hparts.imp fun h => ⟨h.1, rfl, h.2⟩

include hstart hlo

theorem matchStmt_gives :
    Tracks lo c m (matchStmt expression block start) (Stmt.FitsItem lits lo) := by
  refine .token rfl fun _ m₁ h₁ _ => .bind he.here fun value m₂ h₂ hvalue => ?_
  refine .token rfl fun _ m₃ h₃ _ => .token rfl fun _ m₄ h₄ _ => ?_
  refine .bind (matchArm_gives he hb).itemsUntil fun arms m₅ h₅ harms => ?_
  refine .token rfl fun right hi h₆ hright => .between (.pure ⟨?_, rfl⟩)
  refine .cons (hstart.between (hright.within.mono (by order) le_rfl)) (.append ?_ ?_)
  · exact hvalue.mono (by order) (by order)
  · rw [armsSpans_eq]
    exact (Fits.flatMap fun a ha => (harms.2 a ha).mono (by order) h₆).imp armsProper_iff.mpr

end Statements

-- ==== hardware statements

theorem callEnd_gives {arguments statement : String} :
    Tracks lo c m (callEnd arguments statement) fun hi t => t.Within c hi :=
  .token rfl fun _ _ h _ => (Tracks.expect rfl).mono fun _ _ _ ht => ht.within.mono h le_rfl

theorem Spelled.closesRaw (h : Spelled .rawBlock cs) : ClosesRaw .code 0 cs := by
  cases h with
  | word _ _ hk => exact absurd hk (kindOfWord_ne (by decide) (by decide))
  | raw h => exact h
  | pair h => exact absurd rfl (text_ne_of_pair h)
  | single h => exact absurd rfl (text_ne_of_char h)

section Hardware

variable (he : GivesExpr lits m expression) (hstart : start.Within lo c) (hlo : lo ≤ c)

include hstart hlo

theorem spawnStmt_gives : Tracks lo c m (spawnStmt start) (Stmt.FitsItem lits lo) := by
  refine .token rfl fun name m₁ h₁ hname => .token rfl fun _ m₂ h₂ _ => ?_
  refine .token rfl fun _ m₃ h₃ _ => .token rfl fun stop hi h₄ hstop => .between (.pure ⟨?_, rfl⟩)
  refine .cons (hstart.between (hstop.within.mono (by order) le_rfl)) ?_
  exact hname.isName.mono hlo (by order)

theorem rawStmt_gives : Tracks lo c m (rawStmt start) (Stmt.FitsItem lits lo) := by
  refine .token rfl fun payload hi hle hpayload => .file (.pure ⟨.cons ?_ ?_, rfl⟩)
  · refine ⟨rfl, start, payload, hstart.self.trans hpayload.within.self, rfl, ?_⟩
    exact Pos.le_iff.mpr (.inr ⟨rfl, Nat.le_add_right _ _⟩)
  · refine (hpayload.fits.mono hlo le_rfl).imp fun h => ?_
    have hkind := List.mem_singleton.mp h.2
    have hspelled := (h.1 (by rw [hkind]; decide)).1
    unfold Token.IsSpelled at hspelled
    rw [hkind] at hspelled
    exact hspelled.closesRaw

include he

theorem gpioModeStmt_gives :
    Tracks lo c m (gpioModeStmt expression start) (Stmt.FitsItem lits lo) := by
  refine .token rfl fun _ m₁ h₁ _ => .bind he.here fun pin m₂ h₂ hpin => ?_
  refine .token rfl fun _ m₃ h₃ _ => .bind (.expectAny (by decide)) fun mode m₄ h₄ hmode => ?_
  refine .bind callEnd_gives fun stop hi h₅ hstop => .between (.pure ⟨?_, rfl⟩)
  refine .cons (hstart.between (hstop.mono (by order) le_rfl)) ?_
  have hmode' : Fits (Token.Legible lits) lo hi [] _ :=
    (hmode.isTextOf (by decide)).mono (by order) h₅
  exact (hmode'.append (hpin.mono (by order) (by order))).imp And.symm

theorem digitalWriteStmt_gives :
    Tracks lo c m (digitalWriteStmt expression start) (Stmt.FitsItem lits lo) := by
  refine .token rfl fun _ m₁ h₁ _ => .bind he.here fun pin m₂ h₂ hpin => ?_
  refine .token rfl fun _ m₃ h₃ _ => .bind he.here fun value m₄ h₄ hvalue => ?_
  refine .bind callEnd_gives fun stop hi h₅ hstop => .between (.pure ⟨?_, rfl⟩)
  refine .cons (hstart.between (hstop.mono (by order) le_rfl)) (.append ?_ ?_)
  · exact hpin.mono (by order) (by order)
  · exact hvalue.mono (by order) h₅

theorem pwmWriteStmt_gives :
    Tracks lo c m (pwmWriteStmt expression start) (Stmt.FitsItem lits lo) := by
  refine .token rfl fun _ m₁ h₁ _ => .bind he.here fun pin m₂ h₂ hpin => ?_
  refine .token rfl fun _ m₃ h₃ _ => .bind he.here fun duty m₄ h₄ hduty => ?_
  refine .bind (he.behind rfl) fun channel m₅ h₅ hchannel => ?_
  refine .bind callEnd_gives fun stop hi h₆ hstop => .between (.pure ⟨?_, rfl⟩)
  refine .cons (hstart.between (hstop.mono (by order) le_rfl)) (.append ?_ (.append ?_ ?_))
  · exact hpin.mono (by order) (by order)
  · exact hduty.mono (by order) (by order)
  · exact .expr? fun e he => (hchannel e he).mono (by order) h₆

theorem rgbWriteStmt_gives :
    Tracks lo c m (rgbWriteStmt expression start) (Stmt.FitsItem lits lo) := by
  refine .token rfl fun _ m₁ h₁ _ => .bind he.here fun pin m₂ h₂ hpin => ?_
  refine .token rfl fun _ m₃ h₃ _ => .bind he.here fun red m₄ h₄ hred => ?_
  refine .token rfl fun _ m₅ h₅ _ => .bind he.here fun green m₆ h₆ hgreen => ?_
  refine .token rfl fun _ m₇ h₇ _ => .bind he.here fun blue m₈ h₈ hblue => ?_
  refine .bind callEnd_gives fun stop hi h₉ hstop => .between (.pure ⟨?_, rfl⟩)
  refine .cons (hstart.between (hstop.mono (by order) le_rfl))
    (.append ?_ (.append ?_ (.append ?_ ?_)))
  · exact hpin.mono (by order) (by order)
  · exact hred.mono (by order) (by order)
  · exact hgreen.mono (by order) (by order)
  · exact hblue.mono (by order) h₉

theorem wifiConnectStmt_gives :
    Tracks lo c m (wifiConnectStmt expression start) (Stmt.FitsItem lits lo) := by
  refine .token rfl fun _ m₁ h₁ _ => .bind he.here fun ssid m₂ h₂ hssid => ?_
  refine .token rfl fun _ m₃ h₃ _ => .bind he.here fun word m₄ h₄ hword => ?_
  refine .bind callEnd_gives fun stop hi h₅ hstop => .between (.pure ⟨?_, rfl⟩)
  refine .cons (hstart.between (hstop.mono (by order) le_rfl)) (.append ?_ ?_)
  · exact hssid.mono (by order) (by order)
  · exact hword.mono (by order) h₅

theorem delayStmt_gives : Tracks lo c m (delayStmt expression start) (Stmt.FitsItem lits lo) := by
  refine .token rfl fun _ m₁ h₁ _ => .bind he.here fun time m₂ h₂ htime => ?_
  refine .bind callEnd_gives fun stop hi h₃ hstop => .between (.pure ⟨?_, rfl⟩)
  exact .cons (hstart.between (hstop.mono (by order) le_rfl)) (htime.mono (by order) h₃)

end Hardware

theorem statement_gives (hm : m ≤ m' + 1) (hm' : m' ≤ m) (hd : GivesItem lits m' declaration)
    (he : GivesExpr lits m expression) :
    GivesStmt lits m (Grammar.statement declaration expression) := by
  intro c
  have hb := block_gives (Nat.le_succ m') hd
  have he' : GivesExpr lits m' expression := he.mono hm' fun _ _ _ h => h
  -- a keyword that is read, and what stands behind it
  have hnext {k : Kind} (hk : c.kind = k) (heof : (k == .eof) = false) {f : Token → Parser Stmt}
      (hf : ∀ t mid, c ≤ mid → t.Within c mid → Tracks c mid m' (f t) (Stmt.FitsItem lits c)) :
      Tracks c c m (Parser.next >>= f) fun hi s =>
        (s.FitsIn lits c hi ∧ (c.kind ≠ .kwIf → s.isValueItem = true)) ∧ c.Advances hi :=
    (Tracks.next hm (hk ▸ ne_of_beq_false heof) fun t mid hle ht =>
      hf t mid hle ht.within).mono fun _ _ _ h => ⟨⟨h.1.1, fun _ => h.1.2⟩, h.2⟩
  -- what starts behind the keyword
  have hfrom {p : Parser Stmt} {mid : Cursor} (hle : c ≤ mid)
      (h : Tracks c mid m' p (Stmt.FitsItem lits mid)) :
      Tracks c mid m' p (Stmt.FitsItem lits c) :=
    h.mono fun _ _ _ hs => ⟨hs.1.mono hle le_rfl, hs.2⟩
  refine .kind ?_
  split
  · rename_i hk
    refine .next hm (by rw [hk]; decide) fun _ _ hle _ => ?_
    exact (ifStmt_gives he' hb).mono fun _ _ _ hs => ⟨hs.mono hle le_rfl, fun h => absurd hk h⟩
  · exact hnext ‹_› rfl fun _ _ hle _ => hfrom hle (whileStmt_gives he' hb)
  · exact hnext ‹_› rfl fun _ _ hle _ => hfrom hle (forStmt_gives he' hb)
  · exact hnext ‹_› rfl fun _ _ hle ht => matchStmt_gives he' hb ht hle
  · exact hnext ‹_› rfl fun _ _ hle ht => spawnStmt_gives ht hle
  · exact hnext ‹_› rfl fun _ _ hle ht => returnStmt_gives he' ht hle
  · exact .first (block_gives hm hd).strict fun b hi _ hb => .pure ⟨hb, fun _ => rfl⟩
  · exact hnext ‹_› rfl fun _ _ hle ht => gpioModeStmt_gives he' ht hle
  · exact hnext ‹_› rfl fun _ _ hle ht => digitalWriteStmt_gives he' ht hle
  · exact hnext ‹_› rfl fun _ _ hle ht => pwmWriteStmt_gives he' ht hle
  · exact hnext ‹_› rfl fun _ _ hle ht => rgbWriteStmt_gives he' ht hle
  · exact hnext ‹_› rfl fun _ _ hle ht => wifiConnectStmt_gives he' ht hle
  · exact hnext ‹_› rfl fun _ _ hle ht => delayStmt_gives he' ht hle
  · exact hnext ‹_› rfl fun _ _ hle ht => rawStmt_gives ht hle
  · exact (exprStmt_gives he c).mono fun _ _ _ h => ⟨⟨h.1.1, fun _ => h.1.2⟩, h.2⟩

end SketchCompiler
