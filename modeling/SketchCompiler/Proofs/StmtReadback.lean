/-
Statements and declarations are read back.  There is one lemma for each
way to build one: from its parts being read back, that it is.  The words
are first written out in the order the rule reads them; the proof then
follows the rule, token by token and part by part.
-/
import SketchCompiler.Proofs.BlockReadback

namespace SketchCompiler

open List Grammar

variable {span : Span} {n : Nat}

-- ==== control flow

section ControlFlow

variable {condition value : Expr} {body : Block}

theorem parenthesized_reads (h : condition.ReadsBack) (hn : condition.core.length + 3 ≤ n) :
    Reads (parenthesized (expressionAt n) word) (inParens condition.words) (fun _ => True)
      fun v => v.bare = condition.bare := by
  refine .expect rfl fun _ _ => ?_
  refine (h.words hn).bind_cons (by decide) fun v hv => ?_
  exact .expect rfl fun _ _ => .pure hv

/-- Blocks as statements are read back. -/
theorem Stmt.ReadsBack.block (h : body.ReadsBack) : (Stmt.block body).ReadsBack := by
  refine .of_statement rfl rfl rfl fun n hn => .kind fun _ _ => ?_
  have hlen : body.core.length + 2 ≤ n := by
    simp only [Stmt.words, inBraces, length_cons, length_append] at hn
    omega
  refine ((h n hlen).mono (fun _ _ => trivial) fun _ h => h).bind_last fun b hb => .pure ?_
  rw [Stmt.bare, Stmt.bare, hb]

theorem Stmt.ReadsBack.ifElse (hcond : condition.ReadsBack) (hthen : thenBranch.ReadsBack)
    (helse : ∀ b ∈ elseBranch, b.ReadsBack) :
    (Stmt.ifElse span condition thenBranch elseBranch).ReadsBack := by
  have hwords : (Stmt.ifElse span condition thenBranch elseBranch).words
      = Word.of .kwIf :: (inParens condition.words ++ (inBraces thenBranch.core
        ++ behindWords .kwElse (elseBranch.map fun b => inBraces b.core))) := by
    rw [← blockWords?_eq]
    rfl
  refine .of_statement hwords rfl rfl fun n hn => .kind fun _ _ => ?_
  simp only [length_cons, length_append, Expr.words, inParens, inBraces] at hn
  have hblocks : ∀ b ∈ elseBranch, Reads (Grammar.block (declarationAt n)) (inBraces b.core)
      (fun _ => True) fun v => v.bare = b.bare := by
    rintro b rfl
    refine helse b rfl n ?_
    simp only [Option.map_some, behindWords, length_cons, length_append] at hn
    omega
  refine .next rfl fun _ _ => ?_
  refine (parenthesized_reads hcond (by omega)).bind (fun _ _ => trivial) fun c hc => ?_
  refine (hthen n (by omega)).bind (fun _ _ => trivial) fun t ht => ?_
  refine ((behind_reads (by decide) hblocks).mono (fun _ h => ⟨trivial, h⟩) fun _ h => h).bind_last
    fun e? he => .pure ?_
  rw [Stmt.bare, Stmt.bare, hc, ht, blockBare?_eq, blockBare?_eq, he]

theorem Stmt.ReadsBack.whileLoop (hcond : condition.ReadsBack) (hbody : body.ReadsBack) :
    (Stmt.whileLoop span condition body).ReadsBack := by
  refine .of_statement rfl rfl rfl fun n hn => .kind fun _ _ => ?_
  have hlen : condition.core.length + 3 ≤ n ∧ body.core.length + 2 ≤ n := by
    simp only [Stmt.words, inParens, inBraces, length_cons, length_append] at hn
    omega
  refine .next rfl fun _ _ => ?_
  refine (parenthesized_reads hcond hlen.1).bind (fun _ _ => trivial) fun c hc => ?_
  refine ((hbody n hlen.2).mono (fun _ _ => trivial) fun _ h => h).bind_last fun b hb =>
    .pure ?_
  rw [Stmt.bare, Stmt.bare, hc, hb]

/-- Expressions as statements are read back. -/
theorem Stmt.ReadsBack.expr (h : value.ReadsBack) : (Stmt.expr span value).ReadsBack := by
  have hlen : (Stmt.expr span value).words.length = value.core.length + 3 := by
    simp [Stmt.words, inParens]
  have hstatement : ∀ n, (Stmt.expr span value).words.length + 1 ≤ n →
      Reads (statementAt n) (Stmt.expr span value).words (· ≠ .kwElse)
        fun v => v.bare = (Stmt.expr span value).bare := by
    intro n hn
    cases n with
    | zero => omega
    | succ n =>
      refine .kind fun _ _ => (h.words (by omega)).bind_cons (by decide) fun v hv => ?_
      refine .expect rfl fun _ _ => .spanOf fun _ => .pure ?_
      rw [Stmt.bare, Stmt.bare, hv]
  constructor
  case declaration => exact fun n hn => declarationAt_of_statement rfl hstatement hn
  case statement => exact fun _ => hstatement
  case clause =>
    intro _ n hn
    have hcore : value.core.length + 3 ≤ n := by
      simp only [Stmt.clause, inParens, length_cons, length_append] at hn
      omega
    refine .look fun c ts rest hrest hws _ => ⟨none, qualifiedDecl?_none ?_, ?_⟩
    · rw [c.kind_eq hrest hws]
      exact (by decide : Kind.lparen ∉ variableKinds)
    have hvalue : Reads (expressionAt n) value.words (· = .semicolon)
        fun v => v.bare = value.bare :=
      (h.words hcore).mono (fun k hk => hk ▸ by decide) fun _ h => h
    refine .kind fun _ _ => hvalue.bind_last fun v hv => .pure ⟨_, rfl, ?_⟩
    rw [Stmt.bare, Stmt.bare, hv]
  case expression =>
    rintro _ _ ⟨⟩
    exact h

theorem unlessNext_reads (h : ∀ e ∈ e?, e.ReadsBack)
    (hn : ((exprWords? e?).getD []).length + 1 ≤ n) (hne : stop ≠ .lparen)
    (hends : stop ∈ exprEnds) :
    Reads (Parser.unlessNext stop (expressionAt n)) ((exprWords? e?).getD []) (· = stop)
      fun v? => v?.map Expr.bare = e?.map Expr.bare := by
  cases e? with
  | none => exact Reads.unlessNext_none.imp fun v? hv => by rw [hv]
  | some e =>
    have hlen : e.core.length + 3 ≤ n := by
      simp only [exprWords?, Option.getD_some, inParens, length_cons, length_append] at hn
      omega
    have he : Reads (expressionAt n) e.words (· = stop) fun v => v.bare = e.bare :=
      ((h e rfl).words hlen).mono (fun k hk => hk ▸ hends) fun _ h => h
    have hstart : ∀ k, k = stop → nextKind e.words k ≠ stop := fun _ _ => hne.symm
    refine (Reads.unlessNext_some hstart he).imp ?_
    rintro v? ⟨v, rfl, hv⟩
    exact congrArg some hv

theorem forInit_reads (h : ∀ s ∈ init, s.ReadsBack ∧ s.isClause = true)
    (hn : ((clauseWords? init).getD []).length + 1 ≤ n) :
    Reads (forInit (expressionAt n)) ((clauseWords? init).getD []) (· = .semicolon)
      fun v? => v?.map Stmt.bare = init.map Stmt.bare := by
  cases init with
  | none =>
    refine .look fun c ts rest hrest hws hk => ⟨none, qualifiedDecl?_none ?_, ?_⟩
    · rw [c.kind_eq hrest hws]
      show headKind rest ∉ variableKinds
      rw [hk]
      decide
    refine .kind fun k hk => ?_
    show Reads (if k = .semicolon then _ else _) _ _ _
    rw [if_pos hk]
    exact .pure rfl
  | some s =>
    obtain ⟨hs, hclause⟩ := h s rfl
    refine (hs.clause hclause n hn).imp ?_
    rintro v? ⟨v, rfl, hv⟩
    exact congrArg some hv

theorem Stmt.ReadsBack.forLoop {init : Option Stmt} {condition update : Option Expr}
    (hinit : ∀ s ∈ init, s.ReadsBack ∧ s.isClause = true)
    (hcond : ∀ e ∈ condition, e.ReadsBack) (hupdate : ∀ e ∈ update, e.ReadsBack)
    (hbody : body.ReadsBack) : (Stmt.forLoop span init condition update body).ReadsBack := by
  have hwords : (Stmt.forLoop span init condition update body).words
      = Word.of .kwFor :: Word.of .lparen :: ((clauseWords? init).getD []
        ++ Word.of .semicolon :: ((exprWords? condition).getD [] ++ Word.of .semicolon
        :: ((exprWords? update).getD [] ++ Word.of .rparen :: inBraces body.core))) := by
    simp [Stmt.words, inParens]
  refine .of_statement hwords rfl rfl fun n hn => .kind fun _ _ => ?_
  simp only [length_cons, length_append, inBraces] at hn
  refine .next rfl fun _ _ => .expect rfl fun _ _ => ?_
  refine (forInit_reads hinit (by omega)).bind_cons rfl fun i hi => ?_
  refine .expect rfl fun _ _ => ?_
  refine (unlessNext_reads hcond (by omega) (by decide) (by decide)).bind_cons rfl fun c hc => ?_
  refine .expect rfl fun _ _ => ?_
  refine (unlessNext_reads hupdate (by omega) (by decide) (by decide)).bind_cons rfl fun u hu => ?_
  refine .expect rfl fun _ _ => ?_
  refine ((hbody n (by omega)).mono (fun _ _ => trivial) fun _ h => h).bind_last fun b hb =>
    .pure ?_
  rw [Stmt.bare, Stmt.bare, stmtBare?_eq, stmtBare?_eq, exprBare?_eq, exprBare?_eq, exprBare?_eq,
    exprBare?_eq, hi, hc, hu, hb]

theorem Stmt.ReadsBack.returnValue {value : Option Expr} (h : ∀ e ∈ value, e.ReadsBack) :
    (Stmt.returnValue span value).ReadsBack := by
  refine .of_statement rfl rfl rfl fun n hn => .kind fun _ _ => ?_
  refine .next rfl fun _ _ => .kind fun _ _ => ?_
  cases value with
  | none =>
    exact .expect rfl fun _ _ => .between fun _ => .pure rfl
  | some e =>
    have hlen : e.core.length + 3 ≤ n := by
      simp only [Stmt.words, exprWords?, Option.getD_some, inParens, length_cons,
        length_append] at hn
      omega
    refine ((h e rfl).words hlen).bind_cons (by decide) fun v hv => ?_
    refine .expect rfl fun _ _ => .spanOf fun _ => .pure ?_
    rw [Stmt.bare, Stmt.bare, exprBare?, exprBare?, hv]

theorem matchArm_reads (hpattern : ∀ e ∈ pattern, e.ReadsBack)
    (hwildcard : isWildcard = pattern.isNone) (hbody : body.ReadsBack)
    (hn : (MatchArm.mk span pattern isWildcard body).words.length ≤ n) :
    Reads (matchArm (expressionAt n) (Grammar.block (declarationAt n)))
      (MatchArm.mk span pattern isWildcard body).words (fun _ => True)
      fun v => v.bare = (MatchArm.mk span pattern isWildcard body).bare := by
  subst hwildcard
  cases pattern with
  | none =>
    have hlen : body.core.length + 2 ≤ n := by
      simp only [MatchArm.words, exprWords?, Option.getD_none, inBraces, length_cons,
        length_append] at hn
      omega
    refine .get fun c ts rest hrest hws _ => ?_
    have hwild : c.kind = .ident ∧ c.peek.lexeme = "_" := by
      obtain ⟨t, ts', rfl, ht, -⟩ := exists_token_of_word hws
      have hpeek : c.peek = t := by
        unfold Cursor.peek
        rw [hrest]
        rfl
      rw [Cursor.kind, hpeek]
      exact ⟨congrArg Word.kind ht, congrArg Word.lexeme ht⟩
    rw [if_pos hwild]
    refine .next rfl fun _ _ => .expect rfl fun _ _ => ?_
    refine (hbody n hlen).bind_last fun b hb => .spanOf fun _ => .pure ?_
    rw [MatchArm.bare, MatchArm.bare, hb]
    rfl
  | some e =>
    have hlen : e.core.length + 3 ≤ n ∧ body.core.length + 2 ≤ n := by
      simp only [MatchArm.words, exprWords?, Option.getD_some, inParens, inBraces,
        length_cons, length_append] at hn
      omega
    refine .get fun c ts rest hrest hws _ => ?_
    have hkind : c.kind = .lparen := c.kind_eq hrest hws
    have hexpr : ¬ (c.kind = .ident ∧ c.peek.lexeme = "_") := by
      rw [hkind]
      simp
    rw [if_neg hexpr]
    refine ((hpattern e rfl).words hlen.1).bind_cons (by decide) fun v hv => ?_
    refine .expect rfl fun _ _ => (hbody n hlen.2).bind_last fun b hb => .pure ?_
    rw [MatchArm.bare, MatchArm.bare, exprBare?, exprBare?, hv, hb]
    rfl

theorem Stmt.ReadsBack.matchValue (hvalue : value.ReadsBack)
    (harms : ∀ span pattern isWildcard body, .mk span pattern isWildcard body ∈ arms →
      (∀ e ∈ pattern, e.ReadsBack) ∧ isWildcard = pattern.isNone ∧ body.ReadsBack) :
    (Stmt.matchValue span value arms).ReadsBack := by
  have hwords : (Stmt.matchValue span value arms).words
      = Word.of .kwMatch :: Word.of .lparen :: (value.words ++ Word.of .rparen :: Word.of .lbrace
        :: (arms.flatMap MatchArm.words ++ [Word.of .rbrace])) := by
    simp [Stmt.words, Expr.words, inParens, inBraces, armsWords_eq]
  refine .of_statement hwords rfl rfl fun n hn => .kind fun _ _ => ?_
  simp only [length_cons, length_append, Expr.words, inParens] at hn
  refine .next rfl fun _ _ => .expect rfl fun _ _ => ?_
  refine (hvalue.words (by omega)).bind_cons (by decide) fun v hv => ?_
  refine .expect rfl fun _ _ => .expect rfl fun _ _ => ?_
  have harm : ∀ arm ∈ arms, Reads (matchArm (expressionAt n) (Grammar.block (declarationAt n)))
      arm.words (fun _ => True) fun v => v.bare = arm.bare := by
    rintro ⟨span, pattern, isWildcard, body⟩ hmem
    obtain ⟨hpattern, hwildcard, hbody⟩ := harms _ _ _ _ hmem
    have := length_le_flatMap (f := MatchArm.words) hmem
    exact matchArm_reads hpattern hwildcard hbody (by omega)
  refine (Reads.itemsUntil harm ?_ trivial).bind_cons rfl fun as has => ?_
  · rintro ⟨span, pattern, isWildcard, body⟩ -
    cases pattern with
    | none => exact ⟨_, _, rfl, (by decide : Kind.ident ≠ .rbrace), by decide, trivial⟩
    | some e => exact ⟨_, _, rfl, (by decide : Kind.lparen ≠ .rbrace), by decide, trivial⟩
  refine .expect rfl fun _ _ => .between fun _ => .pure ?_
  rw [Stmt.bare, Stmt.bare, hv, armsBare_eq, armsBare_eq, map_eq_of_forall₂ has]

/-- `spawn` statements are read back. -/
theorem Stmt.ReadsBack.spawn : (Stmt.spawn span taskName).ReadsBack := by
  refine .of_statement rfl rfl rfl fun n _ => .kind fun _ _ => ?_
  refine .next rfl fun _ _ => .expect rfl fun name hname => ?_
  refine .expect rfl fun _ _ => .expect rfl fun _ _ => ?_
  refine .expect rfl fun _ _ => .between fun _ => .pure ?_
  rw [show name.lexeme = taskName from congrArg Word.lexeme hname]
  rfl

/-- Raw code is read back. -/
theorem Stmt.ReadsBack.raw : (Stmt.raw span code).ReadsBack := by
  refine .of_statement rfl rfl rfl fun n _ => .kind fun _ _ => ?_
  refine .next rfl fun _ _ => .expect rfl fun payload hcode => ?_
  refine .file fun _ => .pure ?_
  rw [show payload.lexeme = code from congrArg Word.lexeme hcode]
  rfl

end ControlFlow

-- ==== hardware

section Hardware

variable {pin : Expr}

theorem callEnd_reads {arguments statement : String} {S : Kind → Prop} :
    Reads (callEnd arguments statement) [Word.of .rparen, Word.of .semicolon] S fun _ => True :=
  Reads.expect rfl fun _ _ =>
    (Reads.expect_only (by decide)).imp fun _ _ => trivial

theorem Stmt.ReadsBack.gpioMode (hpin : pin.ReadsBack) (hmode : IsTextOf [.kwOut, .kwIn] mode) :
    (Stmt.gpioMode span pin mode).ReadsBack := by
  obtain ⟨k, hk, rfl⟩ := hmode
  have hkeyword : ∀ k ∈ [Kind.kwOut, .kwIn], k ∈ keywords.map (·.2) ∧ k ≠ .eof := by decide
  obtain ⟨hmem, heof⟩ := hkeyword k hk
  have hwords : (Stmt.gpioMode span pin k.text).words
      = Word.of .kwGpioMode :: Word.of .lparen :: (pin.words ++ ⟨.comma, ","⟩ :: Word.of k
        :: [Word.of .rparen, Word.of .semicolon]) := by
    simp [Stmt.words, hardwareWords, Expr.words, inParens, commas_cons_cons, commas_singleton,
      Word.ofText_text k hmem]
  refine .of_statement hwords rfl rfl fun n hn => .kind fun _ _ => ?_
  simp only [length_cons, length_append, Expr.words, inParens] at hn
  refine .next rfl fun _ _ => .expect rfl fun _ _ => ?_
  refine (hpin.words (by omega)).bind_cons (by decide) fun p hp => ?_
  refine .expect rfl fun _ _ => .expectAny heof hk fun m hm => ?_
  refine callEnd_reads.bind_last fun _ _ => .between fun _ => .pure ?_
  rw [Stmt.bare, Stmt.bare, hp, show m.lexeme = k.text from congrArg Word.lexeme hm]

theorem Stmt.ReadsBack.digitalWrite (hpin : pin.ReadsBack) (hvalue : value.ReadsBack) :
    (Stmt.digitalWrite span pin value).ReadsBack := by
  have hwords : (Stmt.digitalWrite span pin value).words
      = Word.of .kwDigitalWrite :: Word.of .lparen :: (pin.words ++ ⟨.comma, ","⟩
        :: (value.words ++ [Word.of .rparen, Word.of .semicolon])) := by
    simp [Stmt.words, hardwareWords, Expr.words, inParens, commas_cons_cons, commas_singleton]
  refine .of_statement hwords rfl rfl fun n hn => .kind fun _ _ => ?_
  simp only [length_cons, length_append, Expr.words, inParens] at hn
  refine .next rfl fun _ _ => .expect rfl fun _ _ => ?_
  refine (hpin.words (by omega)).bind_cons (by decide) fun p hp => ?_
  refine .expect rfl fun _ _ => ?_
  refine (hvalue.words (by omega)).bind_cons (by decide) fun v hv => ?_
  refine callEnd_reads.bind_last fun _ _ => .between fun _ => .pure ?_
  rw [Stmt.bare, Stmt.bare, hp, hv]

/-- Network connections are read back. -/
theorem Stmt.ReadsBack.wifiConnect (hssid : ssid.ReadsBack) (hpassword : password.ReadsBack) :
    (Stmt.wifiConnect span ssid password).ReadsBack := by
  have hwords : (Stmt.wifiConnect span ssid password).words
      = Word.of .kwWifiConnect :: Word.of .lparen :: (ssid.words ++ ⟨.comma, ","⟩
        :: (password.words ++ [Word.of .rparen, Word.of .semicolon])) := by
    simp [Stmt.words, hardwareWords, Expr.words, inParens, commas_cons_cons, commas_singleton]
  refine .of_statement hwords rfl rfl fun n hn => .kind fun _ _ => ?_
  simp only [length_cons, length_append, Expr.words, inParens] at hn
  refine .next rfl fun _ _ => .expect rfl fun _ _ => ?_
  refine (hssid.words (by omega)).bind_cons (by decide) fun s hs => ?_
  refine .expect rfl fun _ _ => ?_
  refine (hpassword.words (by omega)).bind_cons (by decide) fun p hp => ?_
  refine callEnd_reads.bind_last fun _ _ => .between fun _ => .pure ?_
  rw [Stmt.bare, Stmt.bare, hs, hp]

/-- Delays are read back. -/
theorem Stmt.ReadsBack.delay (htime : time.ReadsBack) : (Stmt.delay span time).ReadsBack := by
  have hwords : (Stmt.delay span time).words
      = Word.of .kwDelay :: Word.of .lparen :: (time.words ++ [Word.of .rparen,
        Word.of .semicolon]) := by
    simp [Stmt.words, hardwareWords, Expr.words, inParens, commas_singleton]
  refine .of_statement hwords rfl rfl fun n hn => .kind fun _ _ => ?_
  simp only [length_cons, length_append, Expr.words, inParens] at hn
  refine .next rfl fun _ _ => .expect rfl fun _ _ => ?_
  refine (htime.words (by omega)).bind_cons (by decide) fun t ht => ?_
  refine callEnd_reads.bind_last fun _ _ => .between fun _ => .pure ?_
  rw [Stmt.bare, Stmt.bare, ht]

theorem Stmt.ReadsBack.rgbWrite (hpin : pin.ReadsBack) (hred : red.ReadsBack)
    (hgreen : green.ReadsBack) (hblue : blue.ReadsBack) :
    (Stmt.rgbWrite span pin red green blue).ReadsBack := by
  have hwords : (Stmt.rgbWrite span pin red green blue).words
      = Word.of .kwRgbWrite :: Word.of .lparen :: (pin.words ++ ⟨.comma, ","⟩
        :: (red.words ++ ⟨.comma, ","⟩ :: (green.words ++ ⟨.comma, ","⟩
        :: (blue.words ++ [Word.of .rparen, Word.of .semicolon])))) := by
    simp [Stmt.words, hardwareWords, Expr.words, inParens, commas_cons_cons, commas_singleton]
  refine .of_statement hwords rfl rfl fun n hn => .kind fun _ _ => ?_
  simp only [length_cons, length_append, Expr.words, inParens] at hn
  refine .next rfl fun _ _ => .expect rfl fun _ _ => ?_
  refine (hpin.words (by omega)).bind_cons (by decide) fun p hp => ?_
  refine .expect rfl fun _ _ => ?_
  refine (hred.words (by omega)).bind_cons (by decide) fun r hr => ?_
  refine .expect rfl fun _ _ => ?_
  refine (hgreen.words (by omega)).bind_cons (by decide) fun g hg => ?_
  refine .expect rfl fun _ _ => ?_
  refine (hblue.words (by omega)).bind_cons (by decide) fun b hb => ?_
  refine callEnd_reads.bind_last fun _ _ => .between fun _ => .pure ?_
  rw [Stmt.bare, Stmt.bare, hp, hr, hg, hb]

theorem Stmt.ReadsBack.pwmWrite (hpin : pin.ReadsBack) (hduty : duty.ReadsBack)
    (hchannel : ∀ e ∈ channel, e.ReadsBack) : (Stmt.pwmWrite span pin duty channel).ReadsBack := by
  have hwords : (Stmt.pwmWrite span pin duty channel).words
      = Word.of .kwPwmWrite :: Word.of .lparen :: (pin.words ++ ⟨.comma, ","⟩
        :: (duty.words ++ (behindWords .comma (channel.map Expr.words)
        ++ [Word.of .rparen, Word.of .semicolon]))) := by
    have hcomma : Word.of .comma = ⟨.comma, ","⟩ := by decide
    cases channel <;>
      simp [Stmt.words, hardwareWords, Expr.words, inParens, commas_cons_cons, commas_singleton,
        behindWords, exprWords?, hcomma]
  refine .of_statement hwords rfl rfl fun n hn => .kind fun _ _ => ?_
  simp only [length_cons, length_append] at hn
  have hchannels : ∀ e ∈ channel, Reads (expressionAt n) e.words (· ∈ exprEnds)
      fun v => v.bare = e.bare := by
    rintro e rfl
    refine (hchannel e rfl).words ?_
    simp only [Option.map_some, behindWords, Expr.words, inParens, length_cons,
      length_append] at hn
    omega
  simp only [Expr.words, inParens, length_cons, length_append] at hn
  refine .next rfl fun _ _ => .expect rfl fun _ _ => ?_
  refine (hpin.words (by omega)).bind_cons (by decide) fun p hp => ?_
  refine .expect rfl fun _ _ => ?_
  refine (hduty.words (by omega)).bind (fun k _ => ?_) fun d hd => ?_
  · cases channel with
    | none => exact (by decide : Kind.rparen ∈ exprEnds)
    | some e => exact (by decide : Kind.comma ∈ exprEnds)
  refine (behind_reads (by decide) hchannels).bind_cons (by decide) fun c hc => ?_
  refine callEnd_reads.bind_last fun _ _ => .between fun _ => .pure ?_
  rw [Stmt.bare, Stmt.bare, hp, hd, exprBare?_eq, exprBare?_eq, hc]

end Hardware

end SketchCompiler
