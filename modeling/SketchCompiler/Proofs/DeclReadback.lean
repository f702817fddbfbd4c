/-
Declarations are read back, and with them whole programs: a tree that a
reading can yield is printed as words that are read as the tree again
(`Stmt.Proper.readsBack`).
-/
import SketchCompiler.Proofs.StmtReadback

namespace SketchCompiler

open List Grammar

variable {span : Span} {n : Nat} {name : String} {body : Block}

theorem Stmt.ReadsBack.of_declaration {s : Stmt} {ws : List Word} (hwords : s.words = ws)
    (hs : s.isStatement = false) (hclause : s.isClause = false)
    (h : ∀ n, ws.length + 1 ≤ n →
      Reads (declarationBody (declarationAt n) (statementAt n) (expressionAt n)) ws
        (· ≠ .kwElse) fun v => v.bare = s.bare) : s.ReadsBack := by
  subst hwords
  constructor
  case declaration =>
    intro n hn
    cases n with
    | zero => omega
    | succ n => exact declaration_reads (h n (by omega))
  case statement =>
    intro hstatement
    rw [hs] at hstatement
    cases hstatement
  case clause =>
    intro hc
    rw [hclause] at hc
    cases hc
  case expression =>
    rintro span e rfl
    cases hs

-- ==== variables, imports

theorem Stmt.ReadsBack.varDecl (hinit : ∀ e ∈ initializer, e.ReadsBack)
    (hmutable : isMutable = !isConst) :
    (Stmt.varDecl span name typeName initializer isMutable isConst isVolatile).ReadsBack := by
  subst hmutable
  have hexpr : ∀ n, (variableWords name typeName (initializer.map Expr.words) isConst
      isVolatile).length ≤ n → ∀ e ∈ initializer, Reads (expressionAt n) e.words (· ∈ exprEnds)
        fun v => v.bare = e.bare := by
    rintro n hn e rfl
    refine (hinit e rfl).words ?_
    simp only [variableWords, Option.map_some, behindWords, Expr.words, inParens,
      length_append, length_cons] at hn
    omega
  constructor
  case declaration =>
    intro n hn
    have hwords : (Stmt.varDecl span name typeName initializer (!isConst) isConst
        isVolatile).words = variableWords name typeName (initializer.map Expr.words) isConst
        isVolatile ++ variableEndWords true := by
      rw [Stmt.words, exprWords?_eq]
      rfl
    rw [hwords] at hn ⊢
    rw [length_append] at hn
    cases n with
    | zero => omega
    | succ n =>
      refine declaration_reads (declarationBody_reads (fun k _ => ?_) ?_)
      · cases isConst <;> cases isVolatile <;>
          simp [variableWords, nextKind, Word.of, topLevelKinds]
      · refine ((qualifiedDecl?_reads (hexpr n (by omega))).mono ?_ fun _ h => h).bind_last ?_
        · rintro k - ⟨⟩
        · rintro item ⟨v, rfl, hv⟩
          exact .pure hv
  case statement =>
    intro hs
    cases hs
  case clause =>
    intro _ n hn
    have hwords : (Stmt.varDecl span name typeName initializer (!isConst) isConst
        isVolatile).clause = variableWords name typeName (initializer.map Expr.words) isConst
        isVolatile ++ variableEndWords false := by
      rw [Stmt.clause, exprWords?_eq]
      exact (append_nil _).symm
    rw [hwords] at hn ⊢
    rw [length_append] at hn
    refine ((qualifiedDecl?_reads (hexpr n (by omega))).mono (fun _ h _ => h)
      fun _ h => h).bind_last
      ?_
    rintro item ⟨v, rfl, hv⟩
    exact .pure ⟨v, rfl, hv⟩
  case expression =>
    rintro _ _ ⟨⟩

theorem Stmt.ReadsBack.importDecl : (Stmt.importDecl span path).ReadsBack := by
  refine .of_declaration rfl rfl rfl fun n _ => .kind fun _ _ => ?_
  refine .next rfl fun _ _ => .expect rfl fun token htoken => ?_
  refine .expect rfl fun _ _ => .spanOf fun _ => .spanOf fun _ => ?_
  refine .pure ?_
  rw [Stmt.bare, Stmt.bare, show token.lexeme = path from congrArg Word.lexeme htoken]

-- ==== functions, structs and tasks

theorem param_reads (p : Param) : Reads param p.words (fun _ => True) fun v =>
    v.bare = p.bare := by
  refine .expect rfl fun name hname => .expect rfl fun _ _ => ?_
  refine .expect rfl fun typeName htype => ?_
  refine .spanOf fun _ => .spanOf fun _ => .pure ?_
  rw [Param.bare, Param.bare, show name.lexeme = p.name from congrArg Word.lexeme hname,
    show typeName.lexeme = p.typeName from congrArg Word.lexeme htype]

theorem Stmt.ReadsBack.functionDecl (hbody : body.ReadsBack) :
    (Stmt.functionDecl span name params returnType body).ReadsBack := by
  have hwords : (Stmt.functionDecl span name params returnType body).words
      = Word.of .kwFn :: Word.name name :: Word.of .lparen :: (commas (params.map Param.words)
        ++ Word.of .rparen :: Word.of .arrow :: Word.name returnType :: inBraces body.core) := by
    simp [Stmt.words, inParens]
  refine .of_declaration hwords rfl rfl fun n hn => .kind fun _ _ => ?_
  simp only [length_cons, length_append, inBraces] at hn
  refine .next rfl fun _ _ => .expect rfl fun f hf => ?_
  refine .expect rfl fun _ _ => ?_
  have hparams : Reads (Parser.separatedUntil .rparen param) (commas (params.map Param.words))
      (· = .rparen) fun ps => List.Forall₂ (fun p v => v.bare = p.bare) params ps :=
    .separatedUntil (fun p _ => param_reads p) trivial trivial (by decide)
      fun p _ => ⟨_, _, rfl, (by decide : Kind.ident ≠ .rparen)⟩
  refine hparams.bind_cons rfl fun ps hps => ?_
  refine .expect rfl fun _ _ => .expect rfl fun _ _ => ?_
  refine .expect rfl fun t ht => ?_
  refine ((hbody n (by omega)).mono (fun _ _ => trivial) fun _ h => h).bind_last fun b hb => ?_
  refine .spanOf fun _ => .pure ?_
  rw [Stmt.bare, Stmt.bare, map_eq_of_forall₂ hps, hb,
    show f.lexeme = name from congrArg Word.lexeme hf,
    show t.lexeme = returnType from congrArg Word.lexeme ht]

theorem structField_reads (f : StructField) :
    Reads structField f.words (fun _ => True) fun v => v.bare = f.bare := by
  refine .acceptAny_none (fun _ _ => (by decide : Kind.ident ∉ [.kwLet])) ?_
  refine .expect rfl fun name hname => .expect rfl fun _ _ => ?_
  refine .expect rfl fun typeName htype => .expect rfl fun _ _ => ?_
  refine .spanOf fun _ => .spanOf fun _ => .pure ?_
  rw [StructField.bare, StructField.bare,
    show name.lexeme = f.name from congrArg Word.lexeme hname,
    show typeName.lexeme = f.typeName from congrArg Word.lexeme htype]

theorem Stmt.ReadsBack.structDecl : (Stmt.structDecl span name fields).ReadsBack := by
  refine .of_declaration rfl rfl rfl fun n _ => .kind fun _ _ => ?_
  refine .next rfl fun _ _ => .expect rfl fun s hs => ?_
  refine .expect rfl fun _ _ => ?_
  have hfields : Reads (Parser.itemsUntil .rbrace structField)
      (fields.flatMap StructField.words) (· = .rbrace)
      fun fs => List.Forall₂ (fun f v => v.bare = f.bare) fields fs :=
    .itemsUntil (fun f _ => structField_reads f)
      (fun f _ => ⟨_, _, rfl, (by decide : Kind.ident ≠ .rbrace),
        (by decide : Kind.ident ≠ .eof), trivial⟩) trivial
  refine hfields.bind_cons rfl fun fs hfs => ?_
  refine .expect rfl fun _ _ => ?_
  refine .spanOf fun _ => .spanOf fun _ => .pure ?_
  rw [Stmt.bare, Stmt.bare, map_eq_of_forall₂ hfs,
    show s.lexeme = name from congrArg Word.lexeme hs]

theorem Stmt.ReadsBack.loopDecl (hbody : body.ReadsBack) :
    (Stmt.loopDecl span body).ReadsBack := by
  refine .of_declaration rfl rfl rfl fun n hn => .kind fun _ _ => ?_
  have hlen : body.core.length + 2 ≤ n := by
    simp only [Stmt.words, inBraces, length_cons, length_append] at hn
    omega
  refine .next rfl fun _ _ => ?_
  refine ((hbody n hlen).mono (fun _ _ => trivial) fun _ h => h).bind_last fun b hb => ?_
  refine .spanOf fun _ => .pure ?_
  rw [Stmt.bare, Stmt.bare, hb]

theorem decorators_reads (h : ∀ span name value, .mk span name value ∈ ds → value.ReadsBack)
    (hn : (decoratorsWords ds).length ≤ n) :
    Reads (Parser.loop (decoratorStep (expressionAt n)) front) (decoratorsWords ds) (· ≠ .atSign)
      fun marks => marks.map Decorator.bare = (front.reverse ++ ds).map Decorator.bare := by
  induction ds generalizing front with
  | nil =>
    refine .done (.acceptAny_none (fun k hk => ?_) ?_)
    · exact fun hmem => hk (mem_singleton.mp hmem)
    · exact .pure ⟨_, rfl, by rw [append_nil]⟩
  | cons d ds ih =>
    obtain ⟨span, name, value⟩ := d
    rw [decoratorsWords, length_append] at hn
    have hlen : value.core.length + 3 ≤ n := by
      simp only [Decorator.words, inParens, length_cons, length_append] at hn
      omega
    have hwords : (Decorator.mk span name value).words
        = Word.of .atSign :: Word.name name :: Word.of .lparen
          :: (value.words ++ [Word.of .rparen]) := rfl
    have hround : Reads (decoratorStep (expressionAt n) front) (Decorator.mk span name value).words
        (fun _ => True) fun r => ∃ marks, r = .again marks
          ∧ ∃ mark, marks = mark :: front ∧ mark.bare = (Decorator.mk span name value).bare := by
      rw [hwords]
      refine .acceptAny_some (by decide) (by decide) fun _ _ => ?_
      refine .expect rfl fun token htoken => .expect rfl fun _ _ => ?_
      refine ((h _ _ _ mem_cons_self).words hlen).bind_cons (by decide) fun v hv => ?_
      refine .expect rfl fun _ _ => .between fun _ => ?_
      refine .pure ⟨_, rfl, _, rfl, ?_⟩
      rw [Decorator.bare, Decorator.bare, hv,
        show token.lexeme = name from congrArg Word.lexeme htoken]
    refine .again hround (cons_ne_nil _ _) (fun _ _ => trivial) ?_
    rintro marks ⟨mark, rfl, hmark⟩
    refine (ih (fun _ _ _ hmem => h _ _ _ (mem_cons_of_mem _ hmem)) (by omega)).mono
      (fun _ h => h) fun marks hmarks => ?_
    rw [hmarks]
    simp [hmark]

theorem taskDecl_reads (hbody : body.ReadsBack)
    (hmarks : marks.map Decorator.bare = ds.map Decorator.bare) (hn : body.core.length + 2 ≤ n) :
    Reads (taskDecl (Grammar.block (declarationAt n)) marks)
      (Word.name name :: Word.of .lparen :: Word.of .rparen :: inBraces body.core) (· ≠ .kwElse)
      fun v => v.bare = (Stmt.taskDecl span name ds (some body)).bare := by
  refine .expect rfl fun token htoken => .expect rfl fun _ _ => ?_
  refine .expect rfl fun _ _ => ?_
  refine ((hbody n hn).mono (fun _ _ => trivial) fun _ h => h).bind_last fun b hb => ?_
  refine .spanOf fun _ => .pure ?_
  rw [Stmt.bare, Stmt.bare, decoratorsBare_eq, decoratorsBare_eq, hmarks, blockBare?, blockBare?,
    hb, show token.lexeme = name from congrArg Word.lexeme htoken]

theorem Stmt.ReadsBack.taskDecl
    (hds : ∀ span name value, .mk span name value ∈ ds → value.ReadsBack)
    (hbody : body.ReadsBack) :
    (Stmt.taskDecl span name ds (some body)).ReadsBack := by
  cases ds with
  | nil =>
    refine .of_declaration rfl rfl rfl fun n hn => .kind fun _ _ => ?_
    refine .next rfl fun _ _ => taskDecl_reads hbody rfl ?_
    simp only [Stmt.words, decoratorsWords, blockWords?, Option.getD_some, inBraces,
      length_append, length_cons] at hn
    omega
  | cons d ds =>
    refine .of_declaration rfl rfl rfl fun n hn => .kind fun _ _ => ?_
    have hlen : (decoratorsWords (d :: ds)).length ≤ n ∧ body.core.length + 2 ≤ n := by
      simp only [Stmt.words, blockWords?, Option.getD_some, inBraces, length_append,
        length_cons] at hn
      omega
    obtain ⟨dspan, dname, dvalue⟩ := d
    refine (decorators_reads hds hlen.1).bind_cons
      (by decide : Kind.kwTask ≠ .atSign) fun marks hmarks => ?_
    exact .expect rfl fun _ _ => taskDecl_reads hbody hmarks hlen.2

-- ==== buses

section Buses

variable {parts : BusParts}

theorem busStep_reads (hrbrace : w.kind ≠ .rbrace) (heof : w.kind ≠ .eof)
    (h : Reads (busPart (expressionAt n) parts) (w :: ws) (fun _ => True) Q) :
    Reads (busStep (expressionAt n) parts) (w :: ws) (fun _ => True)
      fun r => ∃ parts', r = .again parts' ∧ Q parts' := by
  refine .get fun c ts rest hrest hws _ => ?_
  have hkind : c.kind = w.kind := c.kind_eq hrest hws
  have hopen : ¬ (c.kind = .rbrace ∨ c.atEnd = true) := by
    unfold Cursor.atEnd
    rw [hkind]
    simp [hrbrace, heof]
  rw [if_neg hopen]
  exact h.bind_last fun parts' hparts => .pure ⟨parts', rfl, hparts⟩

theorem busStep_property {key : String} {value : Expr} {p : Parser Expr}
    (set : BusParts → Expr → BusParts)
    (hkey : ∀ token : Token, token.lexeme = key →
      busProperty (expressionAt n) parts token = do return set parts (← p))
    (h : Reads p value.words (· ∈ exprEnds) fun v => v.bare = value.bare) :
    Reads (busStep (expressionAt n) parts) (propertyWords key value.words) (fun _ => True)
      fun r => ∃ parts', r = .again parts' ∧ ∃ v, parts' = set parts v ∧ v.bare = value.bare := by
  refine busStep_reads (by decide : Kind.ident ≠ .rbrace) (by decide : Kind.ident ≠ .eof) ?_
  refine .acceptAny_none (fun _ _ => (by decide : Kind.ident ∉ [.kwDevice])) ?_
  refine .expect rfl fun token htoken => .expect rfl fun _ _ => ?_
  rw [hkey token (congrArg Word.lexeme htoken), Parser.bind_assoc]
  refine h.bind_cons (by decide) fun v hv => ?_
  exact .expect rfl fun _ _ => .pure ⟨v, rfl, hv⟩

theorem deviceKey_reads : Reads deviceKey [Word.name "address"] (fun _ => True) fun _ => True := by
  refine .expect rfl fun key hkey => ?_
  rw [show key.lexeme = "address" from congrArg Word.lexeme hkey, if_pos rfl]
  exact .pure trivial

theorem busStep_device (h : address.ReadsBack) (hn : address.core.length + 3 ≤ n) :
    Reads (busStep (expressionAt n) parts) (Device.mk span name address).words (fun _ => True)
      fun r => ∃ parts', r = .again parts' ∧ ∃ d, parts' = { parts with
        devices := parts.devices ++ [d] } ∧ d.bare = (Device.mk span name address).bare := by
  have hwords : (Device.mk span name address).words
      = Word.of .kwDevice :: Word.name name :: Word.of .lbrace :: ([Word.name "address"]
        ++ Word.of .colon :: (address.words ++ [Word.of .semicolon, Word.of .rbrace])) := by
    simp [Device.words, propertyWords, inBraces, Expr.words]
  rw [hwords]
  refine busStep_reads (by decide) (by decide) ?_
  refine .acceptAny_some (by decide) (by decide) fun start _ => ?_
  refine .bind_last (Q := fun d => d.bare = (Device.mk span name address).bare) ?_
    fun d hd => .pure ⟨d, rfl, hd⟩
  refine .expect rfl fun token htoken => .expect rfl fun _ _ => ?_
  refine deviceKey_reads.bind_cons trivial fun _ _ => .expect rfl fun _ _ => ?_
  refine (h.words hn).bind_cons (by decide) fun v hv => ?_
  refine .expect rfl fun _ _ => .expect rfl fun _ _ => ?_
  refine .between fun _ => .pure ?_
  rw [Device.bare, Device.bare, hv, show token.lexeme = name from congrArg Word.lexeme htoken]

theorem devices_reads (h : ∀ span name address, .mk span name address ∈ ds → address.ReadsBack)
    (hn : (devicesWords ds).length ≤ n) :
    Reads (Parser.loop (busStep (expressionAt n)) parts) (devicesWords ds) (· = .rbrace)
      fun parts' => parts'.sda = parts.sda ∧ parts'.scl = parts.scl ∧ parts'.freq = parts.freq
        ∧ parts'.devices.map Device.bare = (parts.devices ++ ds).map Device.bare := by
  induction ds generalizing parts with
  | nil =>
    refine .done (.get fun c ts rest hrest hws hk => ?_)
    have hkind : c.kind = .rbrace := (c.kind_eq hrest hws).trans hk
    rw [if_pos (Or.inl hkind)]
    exact .pure ⟨_, rfl, rfl, rfl, rfl, by rw [append_nil]⟩
  | cons d ds ih =>
    obtain ⟨span, name, address⟩ := d
    rw [devicesWords, length_append] at hn
    have hlen : address.core.length + 3 ≤ n := by
      simp only [Device.words, propertyWords, inBraces, inParens, length_cons, length_append] at hn
      omega
    refine .again (busStep_device (h _ _ _ mem_cons_self) hlen) (cons_ne_nil _ _)
      (fun _ _ => trivial) ?_
    rintro parts' ⟨d, rfl, hd⟩
    refine (ih (fun _ _ _ hmem => h _ _ _ (mem_cons_of_mem _ hmem)) (by omega)).mono
      (fun _ h => h) ?_
    rintro parts' ⟨hsda, hscl, hfreq, hdevices⟩
    refine ⟨hsda, hscl, hfreq, ?_⟩
    rw [hdevices]
    simp [hd]

theorem busFrequency_reads {freq : Expr} (h : freq.ReadsBack) (hn : freq.core.length + 3 ≤ n) :
    Reads (busFrequency (expressionAt n)) freq.words (· ∈ exprEnds) fun v => v.bare = freq.bare :=
  .acceptAny_none (fun _ _ => (by decide : Kind.lparen ∉ [.int])) (h.words hn)

theorem busParts_reads {sda scl freq : Expr} {ds : List Device} (hsda : sda.ReadsBack)
    (hscl : scl.ReadsBack) (hfreq : freq.ReadsBack)
    (hds : ∀ span name address, .mk span name address ∈ ds → address.ReadsBack)
    (hn : (propertyWords "sda" sda.words ++ (propertyWords "scl" scl.words
      ++ (propertyWords "freq" freq.words ++ devicesWords ds))).length ≤ n) :
    Reads (busParts (expressionAt n)) (propertyWords "sda" sda.words
      ++ (propertyWords "scl" scl.words ++ (propertyWords "freq" freq.words ++ devicesWords ds)))
      (· = .rbrace) fun parts => ∃ sda' scl' freq', parts.sda = some sda' ∧ parts.scl = some scl'
        ∧ parts.freq = some freq' ∧ sda'.bare = sda.bare ∧ scl'.bare = scl.bare
        ∧ freq'.bare = freq.bare
        ∧ parts.devices.map Device.bare = ds.map Device.bare := by
  simp only [propertyWords, Expr.words, inParens, length_append, length_cons] at hn
  have hsda := hsda.words (n := n) (by omega)
  have hscl := hscl.words (n := n) (by omega)
  have hfreq := busFrequency_reads (n := n) hfreq (by omega)
  refine .again (busStep_property (fun parts v => { parts with sda := some v })
    (fun token htoken => by unfold busProperty; rw [htoken]; rfl) hsda)
    (cons_ne_nil _ _) (fun _ _ => trivial) ?_
  rintro _ ⟨sda', rfl, hsda'⟩
  refine .again (busStep_property (fun parts v => { parts with scl := some v })
    (fun token htoken => by unfold busProperty; rw [htoken]; rfl) hscl)
    (cons_ne_nil _ _) (fun _ _ => trivial) ?_
  rintro _ ⟨scl', rfl, hscl'⟩
  refine .again (busStep_property (fun parts v => { parts with freq := some v })
    (fun token htoken => by unfold busProperty; rw [htoken]; rfl) hfreq)
    (cons_ne_nil _ _) (fun _ _ => trivial) ?_
  rintro _ ⟨freq', rfl, hfreq'⟩
  refine (devices_reads hds (by omega)).imp ?_
  rintro parts ⟨h₁, h₂, h₃, h₄⟩
  exact ⟨sda', scl', freq', h₁, h₂, h₃, hsda', hscl', hfreq', h₄⟩

theorem Stmt.ReadsBack.busDecl (htype : IsTextOf [.kwI2C, .kwSPI] busType ∨ IsName busType)
    (hsda : sda.ReadsBack) (hscl : scl.ReadsBack) (hfreq : freq.ReadsBack)
    (hds : ∀ span name address, .mk span name address ∈ ds → address.ReadsBack) :
    (Stmt.busDecl span busType name sda scl freq ds).ReadsBack := by
  have htypeKind : (Word.ofText busType).kind ∈ [Kind.kwI2C, .kwSPI, .ident] := by
    rcases htype with ⟨k, hk, rfl⟩ | hname
    · have hkeyword : ∀ k ∈ [Kind.kwI2C, .kwSPI], k ∈ keywords.map (·.2) := by decide
      rw [Word.ofText_text k (hkeyword k hk)]
      exact mem_append_left [.ident] hk
    · rw [hname.ofText]
      exact (by decide : Kind.ident ∈ [Kind.kwI2C, .kwSPI, .ident])
  have heof : ∀ k ∈ [Kind.kwI2C, .kwSPI, .ident], k ≠ .eof := by decide
  refine .of_declaration rfl rfl rfl fun n hn => .kind fun _ _ => ?_
  refine .next rfl fun _ _ => ?_
  refine .expectAny (heof _ htypeKind) htypeKind fun t ht => ?_
  refine .expect rfl fun token htoken => .expect rfl fun _ _ => ?_
  refine (busParts_reads hsda hscl hfreq hds ?_).bind_cons rfl ?_
  · simp only [Stmt.words, inBraces, length_cons, length_append] at hn
    simp only [Expr.words, length_append]
    omega
  rintro ⟨_, _, _, devices⟩ ⟨sda', scl', freq', rfl, rfl, rfl, hsda', hscl', hfreq', hdevices⟩
  refine .expect rfl fun _ _ => .between fun _ => .pure ?_
  rw [Stmt.bare, Stmt.bare, hsda', hscl', hfreq', devicesBare_eq, devicesBare_eq, hdevices,
    show t.lexeme = busType from congrArg Word.lexeme ht,
    show token.lexeme = name from congrArg Word.lexeme htoken]

end Buses

-- ==== whole trees

theorem Expr.Proper.isAnalogRead {e : Expr} (h : e.Proper False) : e.isAnalogRead = false := by
  cases e with
  | ident span name =>
    refine decide_eq_false ?_
    rintro rfl
    exact absurd (IsName.kindOfWord h) (by decide)
  | _ => rfl

theorem Block.ReadsBack.of_statements {b : Block} (h : ∀ s ∈ b.statements, s.ReadsBack) :
    b.ReadsBack := by
  cases b with
  | mk span ss => exact .mk h

mutual

theorem Expr.Proper.readsBack : ∀ {e : Expr}, e.Proper False → e.ReadsBack
  | .literal .., h => .literal h
  | .ident .., _ => .ident
  | .unary .., h => .unary h.1 h.2.readsBack
  | .postfixed .., h => .postfixed h.2 h.1.readsBack
  | .binary .., h => .binary h.2.1 h.1.readsBack h.2.2.readsBack
  | .bitwise .., h => .bitwise h.2.1 h.1.readsBack h.2.2.readsBack
  | .assign .., h => .assign h.2.2.1 h.1.readsBack h.2.2.2.readsBack h.2.1
  | .cast .., h => .cast h.1.readsBack
  | .call _ callee args, h => by
    have hargs := exprsProper.readsBack h.2
    rcases h.1 with ⟨hname, hlen⟩ | hcallee
    · obtain ⟨arg, rfl⟩ := length_eq_one_iff.mp hlen
      exact .analogRead hname (hargs arg mem_cons_self)
    · exact .call hcallee.readsBack hcallee.isAnalogRead hargs
  | .structInit .., h => .structInit h.2.1 (fieldsProper.readsBack h.2.2)
  | .member .., h => .member h.1.readsBack
  | .ifElse .., h => by
    obtain ⟨hcond, hthen, hthenItems, hthenValue, helse, helseItems, helseValue⟩ := h
    exact .ifElse hcond.readsBack (fun s hs => ⟨hthen.readsBack s hs, hthenItems s hs⟩)
      hthenValue.readsBack (fun s hs => ⟨helse.readsBack s hs, helseItems s hs⟩)
      helseValue.readsBack
termination_by structural e => e

theorem exprProper?.readsBack : ∀ {e? : Option Expr}, exprProper? False e? → ∀ e ∈ e?, e.ReadsBack
  | some first, h, e, he => by
    rw [← Option.some.inj he]
    exact Expr.Proper.readsBack h
termination_by structural e? => e?

theorem exprsProper.readsBack : ∀ {es : List Expr}, exprsProper False es → ∀ e ∈ es, e.ReadsBack
  | first :: rest, h, e, he => by
    rcases mem_cons.mp he with heq | he
    · rw [heq]
      exact h.1.readsBack
    · exact exprsProper.readsBack h.2 e he
termination_by structural es => es

theorem fieldsProper.readsBack : ∀ {fs : List FieldInit}, fieldsProper False fs →
    ∀ name value, FieldInit.mk name value ∈ fs → value.ReadsBack
  | .mk firstName first :: rest, h, name, value, hmem => by
    rcases mem_cons.mp hmem with heq | hmem
    · rw [(FieldInit.mk.inj heq).2]
      exact h.1.2.readsBack
    · exact fieldsProper.readsBack h.2 name value hmem
termination_by structural fs => fs

theorem Block.Proper.readsBack : ∀ {b : Block}, b.Proper False → ∀ s ∈ b.statements, s.ReadsBack
  | .mk .., h => stmtsProper.readsBack h
termination_by structural b => b

theorem stmtsProper.readsBack : ∀ {ss : List Stmt}, stmtsProper False ss → ∀ s ∈ ss, s.ReadsBack
  | first :: rest, h, s, hs => by
    rcases mem_cons.mp hs with heq | hs
    · rw [heq]
      exact h.1.readsBack
    · exact stmtsProper.readsBack h.2 s hs
termination_by structural ss => ss

theorem armsProper.readsBack : ∀ {arms : List MatchArm}, armsProper False arms →
    ∀ span pattern isWildcard body, .mk span pattern isWildcard body ∈ arms →
      (∀ e ∈ pattern, e.ReadsBack) ∧ isWildcard = pattern.isNone ∧ body.ReadsBack
  | .mk _ firstPattern _ firstBody :: rest, h, span, pattern, isWildcard, body, hmem => by
    rcases mem_cons.mp hmem with heq | hmem
    · obtain ⟨-, hpattern, hwildcard, hbody⟩ := MatchArm.mk.inj heq
      rw [hpattern, hwildcard, hbody]
      exact ⟨exprProper?.readsBack h.1.1, h.1.2.1, .of_statements h.1.2.2.readsBack⟩
    · exact armsProper.readsBack h.2 span pattern isWildcard body hmem
termination_by structural arms => arms

theorem decoratorsProper.readsBack : ∀ {ds : List Decorator}, decoratorsProper False ds →
    ∀ span name value, .mk span name value ∈ ds → value.ReadsBack
  | .mk _ _ first :: rest, h, span, name, value, hmem => by
    rcases mem_cons.mp hmem with heq | hmem
    · rw [(Decorator.mk.inj heq).2.2]
      exact h.1.2.readsBack
    · exact decoratorsProper.readsBack h.2 span name value hmem
termination_by structural ds => ds

theorem devicesProper.readsBack : ∀ {ds : List Device}, devicesProper False ds →
    ∀ span name address, .mk span name address ∈ ds → address.ReadsBack
  | .mk _ _ first :: rest, h, span, name, address, hmem => by
    rcases mem_cons.mp hmem with heq | hmem
    · rw [(Device.mk.inj heq).2.2]
      exact h.1.2.readsBack
    · exact devicesProper.readsBack h.2 span name address hmem
termination_by structural ds => ds

theorem Stmt.Proper.readsBack : ∀ {s : Stmt}, s.Proper False → s.ReadsBack
  | .importDecl .., _ => .importDecl
  | .structDecl .., _ => .structDecl
  | .taskDecl _ _ _ (some body), h =>
    .taskDecl (decoratorsProper.readsBack h.2.1)
      (.of_statements (Block.Proper.readsBack (b := body) h.2.2.2))
  | .taskDecl _ _ _ none, h => absurd rfl h.2.2.1
  | .busDecl .., h =>
    .busDecl h.1 h.2.2.1.readsBack h.2.2.2.1.readsBack h.2.2.2.2.1.readsBack
      (devicesProper.readsBack h.2.2.2.2.2)
  | .functionDecl .., h => .functionDecl (.of_statements h.2.2.2.readsBack)
  | .loopDecl _ body, h => .loopDecl (.of_statements (Block.Proper.readsBack (b := body) h))
  | .varDecl .., h => .varDecl (exprProper?.readsBack h.2.2.1) h.2.2.2
  | .block body, h => .block (.of_statements (Block.Proper.readsBack (b := body) h))
  | .ifElse _ _ _ (some elseBranch), h =>
    .ifElse h.1.readsBack (.of_statements h.2.1.readsBack) (by
      intro b hb
      rw [← Option.some.inj hb]
      exact .of_statements (Block.Proper.readsBack h.2.2))
  | .ifElse _ _ _ none, h => .ifElse h.1.readsBack (.of_statements h.2.1.readsBack) nofun
  | .whileLoop .., h => .whileLoop h.1.readsBack (.of_statements h.2.readsBack)
  | .forLoop _ (some init) _ _ _, h =>
    .forLoop (by
      intro s hs
      rw [← Option.some.inj hs]
      exact ⟨Stmt.Proper.readsBack h.1.1, h.1.2⟩)
      (exprProper?.readsBack h.2.1) (exprProper?.readsBack h.2.2.1)
      (.of_statements h.2.2.2.readsBack)
  | .forLoop _ none _ _ _, h =>
    .forLoop nofun (exprProper?.readsBack h.2.1) (exprProper?.readsBack h.2.2.1)
      (.of_statements h.2.2.2.readsBack)
  | .returnValue .., h => .returnValue (exprProper?.readsBack h)
  | .expr _ e, h => .expr (Expr.Proper.readsBack (e := e) h)
  | .matchValue .., h => .matchValue h.1.readsBack (armsProper.readsBack h.2)
  | .spawn .., _ => .spawn
  | .gpioMode .., h => .gpioMode h.1.readsBack h.2
  | .digitalWrite .., h => .digitalWrite h.1.readsBack h.2.readsBack
  | .pwmWrite .., h =>
    .pwmWrite h.1.readsBack h.2.1.readsBack (exprProper?.readsBack h.2.2)
  | .rgbWrite .., h =>
    .rgbWrite h.1.readsBack h.2.1.readsBack h.2.2.1.readsBack h.2.2.2.readsBack
  | .delay _ time, h => .delay (Expr.Proper.readsBack (e := time) h)
  | .wifiConnect .., h => .wifiConnect h.1.readsBack h.2.readsBack
  | .raw .., _ => .raw
termination_by structural s => s

end

-- ==== whole programs

theorem Program.ofTokens_of_items {file : String} {tokens : List Token} {items : List Item}
    {c : Cursor} (h : Grammar.items
      { file, rest := tokens, last := tokens.getLastD Parser.endMarker } = .ok items c) :
    ∃ span, Program.ofTokens file tokens
      = .ok ({ span, declarations := items.filterMap id }, c.errors) := by
  unfold Program.ofTokens
  simp only [h]
  exact ⟨_, rfl⟩

theorem Program.ofTokens_words {p : Program} (h : p.Proper False) (file : String)
    {tokens : List Token} (htokens : tokens.map Token.word = p.words ++ [⟨.eof, ""⟩]) :
    ∃ p', Program.ofTokens file tokens = .ok (p', []) ∧ p'.bare = p.bare := by
  obtain ⟨front, back, rfl, hfront, hback⟩ := map_eq_append_iff.mp htokens
  obtain ⟨stop, rest, rfl, hstop, hrest⟩ := exists_token_of_word hback
  have hlen : (stmtsWords p.declarations).length + 2
      ≤ nesting (front ++ stop :: rest).length := by
    have hwords := congrArg List.length hfront
    rw [length_map] at hwords
    change _ = (stmtsWords p.declarations).length at hwords
    rw [length_append, length_cons, nesting]
    omega
  obtain ⟨items, last, hrun, hitems⟩ := itemsUntil_reads (stmtsProper.readsBack h) hlen (.inr rfl)
    { file, rest := front ++ stop :: rest,
      last := (front ++ stop :: rest).getLastD Parser.endMarker }
    front (stop :: rest) rfl hfront (congrArg Word.kind hstop)
  obtain ⟨span, hprogram⟩ := Program.ofTokens_of_items hrun
  refine ⟨{ span, declarations := items.filterMap id }, hprogram, ?_⟩
  rw [Program.bare, Program.bare, stmtsBare_eq, stmtsBare_eq, hitems]

/-- Printing a program and reading the text gives the program back: the
program of a source without findings and without fractional numbers is
printed as a text without findings that stands for the same program,
spans apart. -/
theorem Program.ofSource_print {file source : String} {src : Source}
    (h : Program.ofSource file source = .ok src) (hscan : src.scanErrors = [])
    (hparse : src.parseErrors = [])
    (hfloat : ∀ scanned, Token.scan source = .ok scanned →
      ∀ t ∈ scanned.tokens, t.kind ≠ .float) (file' : String) :
    ∃ src', Program.ofSource file' src.program.print = .ok src' ∧ src'.scanErrors = []
      ∧ src'.parseErrors = [] ∧ src'.program.bare = src.program.bare := by
  have hproper : src.program.Proper False := Program.ofSource_proper h hscan hparse hfloat
  obtain ⟨tokens, hrescan, hwords⟩ := scan_written hproper.writable
  obtain ⟨p, hread, hbare⟩ := Program.ofTokens_words hproper file' hwords
  refine ⟨{ program := p, scanErrors := [], parseErrors := [] }, ?_, rfl, rfl, hbare⟩
  unfold Program.ofSource Program.print
  simp only [hrescan, Except.mapError, bind, Except.bind, hread]
  rfl

/-- A source is read without findings and has no fractional numbers. -/
def readsCleanly (file source : String) : Bool :=
  match Program.ofSource file source, Token.scan source with
  | .ok src, .ok scanned =>
    src.scanErrors.isEmpty && src.parseErrors.isEmpty
      && scanned.tokens.all fun t => decide (t.kind ≠ .float)
  | _, _ => false

theorem exists_of_readsCleanly (h : readsCleanly file source = true) :
    ∃ src, Program.ofSource file source = .ok src ∧ src.scanErrors = [] ∧ src.parseErrors = []
      ∧ ∀ scanned, Token.scan source = .ok scanned → ∀ t ∈ scanned.tokens, t.kind ≠ .float := by
  unfold readsCleanly at h
  split at h
  · rename_i src scanned hsrc hscanned
    simp only [Bool.and_eq_true, List.isEmpty_iff, List.all_eq_true, decide_eq_true_eq] at h
    refine ⟨src, hsrc, h.1.1, h.1.2, fun scanned' hscanned' => ?_⟩
    cases hscanned.symm.trans hscanned'
    exact h.2
  · cases h

/-- A function that returns the value of a conditional is printed and
read back. -/
theorem Program.ofSource_print_conditional :
    ∃ src src', Program.ofSource "sketch"
        "fn f(x: int) -> int \x7b return if (x > 1) \x7b x \x7d else \x7b 10 \x7d; \x7d" = .ok src
      ∧ Program.ofSource "sketch" src.program.print = .ok src' ∧ src'.scanErrors = []
      ∧ src'.parseErrors = [] ∧ src'.program.bare = src.program.bare := by
  have hclean : readsCleanly "sketch"
      "fn f(x: int) -> int \x7b return if (x > 1) \x7b x \x7d else \x7b 10 \x7d; \x7d" = true := by
    decide +kernel
  obtain ⟨src, hsrc, hscan, hparse, hfloat⟩ := exists_of_readsCleanly hclean
  obtain ⟨src', hread⟩ := Program.ofSource_print hsrc hscan hparse hfloat "sketch"
  exact ⟨src, src', hsrc, hread⟩

end SketchCompiler
