/-
Which statements of a program its generated code lowers.

A statement is lowered by generated code if it has lines, none of them
empty and not only the remark that it is unsupported, and all its lines
stand in the code.  Six forms of declaration have code at the top level
only.  Inside a block a struct, a task or a bus has no line at all, and
of an import, a function or a loop there is the remark alone.

Every other statement in the written part of a program is lowered, at
every depth, and what is outside the written part has no part in the code
(`Program.sketch_lowers`).  Programs that lose a statement so are read and
analysed without a finding (`Program.nested_bus_lost`).
-/
import SketchCompiler.Analysis
import SketchCompiler.Proofs.Lowering
import SketchCompiler.Program.OfTokens

namespace SketchCompiler

open Sketch

open List hiding head tail span

variable {lines : List Line} {p : Program} {s : Stmt} {name : String} {span : Span}
  {t : String} {sections : Sections}

-- ==== lines of a statement

/-- The declaration has code at the top level only. -/
def Stmt.isTopLevelOnly : Stmt → Bool
  | .importDecl .. | .structDecl .. | .taskDecl .. | .busDecl .. | .functionDecl ..
  | .loopDecl .. =>
    true
  | _ => false

/-- The remark in the place of a declaration that has no code there. -/
def unsupportedLine : Line :=
  ⟨"/* unsupported statement */", none⟩

/-- Lines of a node: the first has a span, and none of them is empty. -/
structure Telling (lines : List Line) : Prop where
  spanned : ∃ first ∈ lines.head?, first.span.isSome = true
  text_ne : ∀ l ∈ lines, l.text ≠ ""

theorem Telling.ne_nil (h : Telling lines) : lines ≠ [] := by
  intro hnil
  obtain ⟨first, hfirst, -⟩ := h.spanned
  rw [hnil] at hfirst
  cases hfirst

theorem Telling.ne_unsupported (h : Telling lines) : lines ≠ [unsupportedLine] := by
  intro hremark
  obtain ⟨first, hfirst, hspan⟩ := h.spanned
  rw [hremark] at hfirst
  cases hfirst
  cases hspan

theorem append_ne_empty (h : tail ≠ "") (front : String) : front ++ tail ≠ "" :=
  fun heq => h (String.append_eq_empty_iff.mp heq).2

theorem telling_line (h : text ≠ "") (span : Span) : Telling [⟨text, some span⟩] := by
  refine ⟨⟨_, rfl, rfl⟩, ?_⟩
  intro l hl
  rw [mem_singleton.mp hl]
  exact h

theorem Telling.append (h : Telling lines) (h' : ∀ l ∈ lines', l.text ≠ "") :
    Telling (lines ++ lines') := by
  constructor
  · obtain ⟨first, hfirst, hspan⟩ := h.spanned
    refine ⟨first, ?_, hspan⟩
    rw [head?_append, hfirst]
    rfl
  · intro l hl
    rcases mem_append.mp hl with hl | hl
    · exact h.text_ne l hl
    · exact h' l hl

theorem telling_braced (h : head ≠ "") (span : Span) (body : List Line) :
    Telling (Emit.braced head span body) := by
  have hbody : ∀ l ∈ body.map (·.indent) ++ [⟨"\x7d", some span⟩], l.text ≠ "" := by
    intro l hl
    rcases mem_append.mp hl with hl | hl
    · obtain ⟨l', -, rfl⟩ := mem_map.mp hl
      exact fun heq => absurd (String.append_eq_empty_iff.mp heq).1 (by decide)
    · rw [mem_singleton.mp hl]
      exact show "\x7d" ≠ "" by decide
  exact (telling_line h span).append hbody

variable {cx : EmitContext}

theorem arms_text_ne (arms : List MatchArm) (h : Emit.arms cx arms = .ok lines) :
    ∀ l ∈ lines, l.text ≠ "" := by
  induction arms generalizing lines with
  | nil =>
    cases h
    intro l hl
    cases hl
  | cons arm rest ih =>
    obtain ⟨span, pattern, isWildcard, body⟩ := arm
    cases isWildcard with
    | true =>
      simp only [Emit.arms, if_true, pure_bind, bind_eq_ok, pure_eq_ok] at h
      obtain ⟨lines, -, others, hothers, rfl⟩ := h
      exact ((telling_braced (by decide) _ _).append (ih hothers)).text_ne
    | false =>
      cases pattern with
      | none =>
        simp only [Emit.arms, Bool.false_eq_true, if_false, pure_bind, bind_eq_ok, pure_eq_ok] at h
        obtain ⟨lines, -, others, hothers, rfl⟩ := h
        exact ((telling_braced (by decide) _ _).append (ih hothers)).text_ne
      | some pattern =>
        simp only [Emit.arms, Bool.false_eq_true, if_false, pure_bind, bind_eq_ok, pure_eq_ok] at h
        obtain ⟨p, -, lines, -, others, hothers, rfl⟩ := h
        exact ((telling_braced (append_ne_empty (by decide) _) _ _).append (ih hothers)).text_ne

theorem delayLiteral_ne_empty (h : Emit.delayLiteral amount unit = .ok text) : text ≠ "" := by
  have hclose : ");" ≠ "" := by decide
  unfold Emit.delayLiteral at h
  split at h
  · obtain ⟨n, -, rfl⟩ := bind_ok h
    exact append_ne_empty hclose _
  · split at h
    · obtain ⟨n, -, rfl⟩ := bind_ok h
      exact append_ne_empty hclose _
    · obtain ⟨n, -, rfl⟩ := bind_ok h
      exact append_ne_empty hclose _

theorem stmt_telling (hb : cx.backend = .esp32) (h : Emit.stmt cx s = .ok lines)
    (hs : s.isTopLevelOnly = false) : Telling lines := by
  have hsemicolon : ";" ≠ "" := by decide
  have hclose : ");" ≠ "" := by decide
  have hbrace : ") \x7b" ≠ "" := by decide
  cases s with
  | importDecl | structDecl | taskDecl | busDecl | functionDecl | loopDecl => cases hs
  | varDecl | expr =>
    obtain ⟨i, -, rfl⟩ := bind_ok h
    exact telling_line (append_ne_empty hsemicolon _) _
  | spawn =>
    simp only [Emit.stmt, Emit.spawn, bind_eq_ok, pure_eq_ok] at h
    obtain ⟨_, ⟨core, -, rfl⟩, rfl⟩ := h
    exact telling_line (append_ne_empty hclose _) _
  | block body =>
    obtain ⟨i, -, rfl⟩ := bind_ok h
    exact telling_braced (by decide) _ _
  | ifElse span condition thenBranch elseBranch =>
    cases elseBranch with
    | none =>
      obtain ⟨c, -, lines, -, rfl⟩ := bind₂_ok h
      exact telling_braced (append_ne_empty hbrace _) _ _
    | some body =>
      obtain ⟨c, -, lines, -, lines', -, rfl⟩ := bind₃_ok h
      have helse : Telling (Emit.braced "else \x7b" body.span lines') :=
        telling_braced (by decide) _ _
      exact (telling_braced (append_ne_empty hbrace _) _ _).append helse.text_ne
  | whileLoop =>
    obtain ⟨c, -, lines, -, rfl⟩ := bind₂_ok h
    exact telling_braced (append_ne_empty hbrace _) _ _
  | forLoop =>
    rw [Emit.stmt_forLoop] at h
    obtain ⟨i, -, c, -, u, -, lines, -, rfl⟩ := bind₄_ok h
    exact telling_braced (append_ne_empty hbrace _) _ _
  | returnValue span value =>
    cases value with
    | none =>
      cases h
      exact telling_line (by decide) _
    | some value =>
      obtain ⟨v, -, rfl⟩ := bind_ok h
      exact telling_line (append_ne_empty hsemicolon _) _
  | matchValue span value arms =>
    obtain ⟨v, -, lines, hlines, rfl⟩ := bind₂_ok h
    refine ((telling_line (append_ne_empty hbrace _) span).append
      (arms_text_ne arms hlines)).append ?_
    intro l hl
    rw [mem_singleton.mp hl]
    exact show "\x7d" ≠ "" by decide
  | gpioMode =>
    obtain ⟨p, -, rfl⟩ := bind_ok h
    exact telling_line (append_ne_empty hclose _) _
  | digitalWrite =>
    simp only [Emit.stmt, hb, bind_eq_ok, pure_eq_ok] at h
    obtain ⟨p, -, v, -, rfl⟩ := h
    exact telling_line (append_ne_empty (show "));" ≠ "" by decide) _) _
  | pwmWrite =>
    rw [Emit.stmt_pwmWrite hb] at h
    obtain ⟨p, -, d, -, rfl⟩ := bind₂_ok h
    exact (telling_line (append_ne_empty (by decide) _) _).append
      (telling_line (append_ne_empty hclose _) _).text_ne
  | rgbWrite =>
    rw [Emit.stmt_rgbWrite hb] at h
    obtain ⟨p, -, r, -, g, -, b, -, rfl⟩ := bind₄_ok h
    exact telling_line (append_ne_empty hclose _) _
  | delay span time =>
    cases time with
    | literal _ value typeName =>
      cases value with
      | duration amount unit =>
        simp only [Emit.stmt] at h
        split at h
        · obtain ⟨text, htext, rfl⟩ := bind_ok h
          exact telling_line (delayLiteral_ne_empty htext) _
        · obtain ⟨v, -, rfl⟩ := bind_ok h
          exact telling_line (append_ne_empty hclose _) _
      | _ =>
        obtain ⟨v, -, rfl⟩ := bind_ok h
        exact telling_line (append_ne_empty hclose _) _
    | _ =>
      obtain ⟨v, -, rfl⟩ := bind_ok h
      exact telling_line (append_ne_empty hclose _) _
  | wifiConnect =>
    obtain ⟨s, -, p, -, rfl⟩ := bind₂_ok h
    exact (telling_line (append_ne_empty hclose _) _).append
      (telling_line (append_ne_empty (show " \x7d" ≠ "" by decide) _) _).text_ne
  | raw =>
    cases h
    exact telling_braced (by decide) _ _

-- ==== parts of the code

/-- The texts that declarations add to the code. -/
def Sketch.Sections.texts (s : Sections) : List String :=
  (s.globals ++ (s.functions.flatten ++ (s.setup ++ s.loop))).map (·.text)

theorem mem_texts_append {a b : Sections} (h : t ∈ a.texts ∨ t ∈ b.texts) :
    t ∈ (a ++ b).texts := by
  have happend : (a ++ b).texts
      = (a.globals ++ b.globals ++ ((a.functions ++ b.functions).flatten
        ++ (a.setup ++ b.setup ++ (a.loop ++ b.loop)))).map (·.text) := rfl
  rw [happend]
  unfold Sketch.Sections.texts at h
  simp only [flatten_append, map_append, mem_append] at h ⊢
  tauto

theorem standsIn_bodyOr (comment : String) (hl : l ∈ body) :
    ∃ l' ∈ bodyOr comment body, StandsIn l.text l'.text := by
  refine ⟨l.indent, ?_, (StandsIn.refl l.text).append_left "  "⟩
  unfold bodyOr
  rw [if_neg (fun hempty => by rw [isEmpty_iff.mp hempty] at hl; cases hl)]
  exact mem_map_of_mem hl

theorem standsIn_compose (globals : List Line) (sections : Sections) (ht : t ∈ sections.texts) :
    ∃ l ∈ compose ({ globals } ++ sections), StandsIn t l.text := by
  have hsections : ({ globals } ++ sections : Sections)
      = { globals := globals ++ sections.globals, functions := sections.functions
          setup := sections.setup, loop := sections.loop } := rfl
  obtain ⟨l, hl, rfl⟩ := mem_map.mp ht
  rw [hsections, compose]
  simp only [mem_append] at hl ⊢
  rcases hl with hl | hl | hl | hl
  · exact ⟨l, by tauto, .refl _⟩
  · have hmem : l ∈ sections.functions.flatMap (· ++ [⟨"", none⟩]) := by
      obtain ⟨lines, hlines, hin⟩ := mem_flatten.mp hl
      exact mem_flatMap.mpr ⟨lines, hlines, mem_append_left _ hin⟩
    exact ⟨l, by tauto, .refl _⟩
  · obtain ⟨l', hl', hin⟩ := standsIn_bodyOr "// setup" hl
    exact ⟨l', by tauto, hin⟩
  · obtain ⟨l', hl', hin⟩ := standsIn_bodyOr "// loop" hl
    exact ⟨l', by tauto, hin⟩

theorem standsIn_code {sk : Sketch}
    (hsk : sk = ⟨compose ({ globals := opening .esp32 (Headers.ofProgram p) ++ p.preamble }
      ++ sections), Headers.ofProgram p⟩) (ht : t ∈ sections.texts) : StandsIn t sk.code := by
  obtain ⟨l, hl, hin⟩ := standsIn_compose (opening .esp32 (Headers.ofProgram p) ++ p.preamble)
    sections ht
  have hline : l.text ∈ sk.lines.map (·.text) := by
    rw [hsk]
    exact mem_map_of_mem hl
  exact hin.trans ((standsIn_intercalate "\n" _ _ hline).append_right "\n")

-- ==== declarations

/-- All lines of a statement of a program stand in the texts. -/
def LoweredBy (p : Program) (texts : List String) (s : Stmt) : Prop :=
  ∃ bound, LoweredIn (context .esp32 p bound) texts s

theorem exists_decorator_of_mem (ds : List Decorator) :
    ∀ wanted : List String, wanted.Nodup →
      s ∈ decoratorsInner (decoratorsWritten order wanted ds) →
      ∃ name ∈ wanted, ∃ value, decorator? name ds = some value
        ∧ s ∈ (value.written order).inner := by
  induction ds with
  | nil => intro wanted hnodup hs; cases hs
  | cons d rest ih =>
    intro wanted hnodup hs
    obtain ⟨span, declared, value⟩ := d
    rw [decoratorsWritten] at hs
    cases hwanted : wanted.contains declared with
    | true =>
      rw [hwanted, if_pos rfl, decoratorsInner, mem_append] at hs
      rcases hs with hs | hs
      · refine ⟨declared, contains_iff_mem.mp hwanted, value, ?_, hs⟩
        rw [decorator?, if_pos (beq_self_eq_true declared)]
      · obtain ⟨name, hname, value', hvalue', hin⟩ := ih _ (hnodup.erase declared) hs
        obtain ⟨hne, hmem⟩ := (hnodup.mem_erase_iff).mp hname
        refine ⟨name, hmem, value', ?_, hin⟩
        rw [decorator?, if_neg (fun heq => hne (beq_iff_eq.mp heq).symm), hvalue']
    | false =>
      rw [hwanted, if_neg Bool.false_ne_true, decoratorsInner, mem_append] at hs
      rcases hs with hs | hs
      · cases hs
      · obtain ⟨name, hname, value', hvalue', hin⟩ := ih wanted hnodup hs
        refine ⟨name, hname, value', ?_, hin⟩
        have hne : ¬ (declared == name) = true := by
          intro heq
          rw [beq_iff_eq.mp heq, contains_iff_mem.mpr hname] at hwanted
          cases hwanted
        rw [decorator?, if_neg hne, hvalue']

theorem taskRate_carries (hb : cx.backend = .esp32) (h : taskRate cx ds = .ok rate)
    (hvalue : decorator? "rate" ds = some value) :
    Carries cx [rate] (value.written cx.fieldOrder).inner := by
  rw [taskRate.eq_def, hvalue] at h
  cases value with
  | literal => exact .nil
  | _ => exact expr_carries hb _ h

theorem taskDecorators_last
    (hp : p.declarations = earlier ++ .taskDecl span name decorators body :: later)
    (hlast : later.any (·.isTaskNamed name) = false) : taskDecorators p name = decorators := by
  have hnone : later.reverse.findSome? (Stmt.decoratorsOf? name) = none := by
    rw [findSome?_eq_none_iff]
    intro d hd
    rw [any_eq_false] at hlast
    have hd' := hlast d (mem_reverse.mp hd)
    cases d with
    | taskDecl _ declared _ _ => exact if_neg hd'
    | _ => rfl
  rw [taskDecorators_eq, hp, reverse_append, findSome?_append, findSome?_reverse_cons,
    hnone, Option.none_or, Stmt.decoratorsOf?, if_pos (beq_self_eq_true name)]
  rfl

theorem exists_core_of_spawn (h : Emit.spawn (context .esp32 p (bound + 1)) name = .ok start)
    (hvalue : decorator? "core" (taskDecorators p name) = some value) :
    ∃ t, Emit.expr (context .esp32 p bound) value = .ok t ∧ StandsIn t start := by
  unfold Emit.spawn at h
  obtain ⟨t, ht, rfl⟩ := bind_ok h
  rw [context] at ht
  dsimp only at ht
  rw [hvalue] at ht
  exact ⟨t, ht, ((StandsIn.refl t).append_left _).append_right _⟩

theorem bus_carries (hb : cx.backend = .esp32) (hbus : (Text.upper busType == "I2C") = true)
    (h : Emit.expr cx e = .ok t) (hin : StandsIn t text) :
    Carries cx [text] (e.writtenFor cx.fieldOrder busType).inner := by
  rw [Expr.writtenFor, if_pos hbus]
  exact (expr_carries hb e h).within (mem_singleton_self _) hin

theorem taskFunction_cases (h : taskFunction cx span name decorators body = .ok lines) :
    ∃ inside rate, (∀ b, body = some b → Emit.block cx b = .ok inside)
      ∧ taskRate cx decorators = .ok rate
      ∧ lines = Emit.braced ("void __task_" ++ name ++ "(void* pvParameters) \x7b") span
        (Emit.braced "for (;;) \x7b" span
          (inside ++ [⟨"vTaskDelay(pdMS_TO_TICKS(" ++ rate ++ "));", some span⟩])) := by
  cases body with
  | none =>
    simp only [taskFunction, pure_bind, bind_eq_ok, pure_eq_ok] at h
    obtain ⟨rate, hrate, rfl⟩ := h
    exact ⟨[], rate, nofun, hrate, rfl⟩
  | some body =>
    obtain ⟨inside, hinside, rate, hrate, rfl⟩ := bind₂_ok h
    refine ⟨inside, rate, ?_, hrate, rfl⟩
    intro b hbody
    rw [← Option.some.inj hbody]
    exact hinside

theorem taskFunction_carries (hb : cx.backend = .esp32)
    (h : taskFunction cx span name decorators body = .ok lines) :
    Carries cx (lines.map (·.text)) (blockInner? (blockWritten? cx.fieldOrder body))
      ∧ ∀ value, decorator? "rate" decorators = some value →
        Carries cx (lines.map (·.text)) (value.written cx.fieldOrder).inner := by
  obtain ⟨inside, rate, hinside, hrate, rfl⟩ := taskFunction_cases h
  constructor
  · cases body with
    | none => exact .nil
    | some body =>
      apply Carries.braced_body
      apply Carries.braced_body
      rw [map_append]
      exact (block_carries hb body (hinside body rfl)).append_texts_right _
  · intro value hvalue
    apply Carries.braced_body
    apply Carries.braced_body
    rw [map_append]
    have hpause := standsIn_concat [rate, "));"] "vTaskDelay(pdMS_TO_TICKS("
    exact ((taskRate_carries hb hrate hvalue).piece hpause (by simp)).append_texts_left _

theorem function_carries (hb : cx.backend = .esp32)
    (h : function cx span name params returnType body = .ok lines) :
    Carries cx (lines.map (·.text)) (body.written cx.fieldOrder).inner := by
  obtain ⟨inside, hinside, rfl⟩ := bind_ok h
  apply Carries.braced_body
  apply (block_carries hb body hinside).subset
  intro t ht
  cases inside with
  | nil => cases ht
  | cons first rest => exact ht

theorem LoweredBy.subset (h : LoweredBy p texts s) (hsub : ∀ t ∈ texts, t ∈ texts') :
    LoweredBy p texts' s := by
  obtain ⟨bound, lines, hlines, hall⟩ := h
  refine ⟨bound, lines, hlines, ?_⟩
  intro l hl
  obtain ⟨t, ht, hin⟩ := hall l hl
  exact ⟨t, hsub t ht, hin⟩

theorem Carries.loweredBy (h : Carries (context .esp32 p bound) texts ss)
    (hsub : ∀ t ∈ texts, t ∈ texts') : ∀ s ∈ ss, LoweredBy p texts' s :=
  fun s hs => LoweredBy.subset ⟨bound, h s hs⟩ hsub

theorem ofDecl_lowers (hp : p.declarations = earlier ++ d :: later)
    (h : ofDecl (context .esp32 p (bound + 1)) d = .ok sections) :
    ∀ s ∈ declInner (declWritten (fieldOrder p) later d), LoweredBy p sections.texts s := by
  have hb := context_backend .esp32 p (bound + 1)
  have horder := context_fieldOrder .esp32 p (bound + 1)
  cases hd : d.isDefinition with
  | false =>
    rw [ofDecl_statement _ hd] at h
    obtain ⟨lines, hlines, rfl⟩ := bind_ok h
    have hwritten := hlines
    rw [← stmt_written hb, horder] at hwritten
    rw [declWritten_statement _ _ _ hd, declInner, isDefinition_written, hd,
      if_neg Bool.false_ne_true, ← horder]
    apply ((stmt_carries hb d hlines).cons (.of_lines (by rw [horder]; exact hwritten))).loweredBy
    intro t ht
    simpa [Sections.texts] using ht
  | true =>
    cases d with
    | structDecl =>
      intro s hs
      cases hs
    | taskDecl span name decorators body =>
      obtain ⟨lines, hlines, start, hstart, rfl⟩ := bind₂_ok h
      obtain ⟨hbody, hrate⟩ := taskFunction_carries hb hlines
      rw [horder] at hbody hrate
      have hlinesSub : ∀ t ∈ lines.map (·.text),
          t ∈ Sections.texts { functions := [lines], setup := [⟨start, some span⟩] } := by
        intro t ht
        simp only [Sections.texts, nil_append, flatten_singleton, map_append,
          mem_append]
        exact .inl ht
      intro s hs
      rcases mem_append.mp hs with hs | hs
      · have hnodup : (wantedDecorators name later).Nodup := by
          unfold wantedDecorators
          split <;> decide
        obtain ⟨wanted, hwanted, value, hvalue, hin⟩ :=
          exists_decorator_of_mem decorators _ hnodup hs
        by_cases hname : wanted = "rate"
        · subst hname
          exact (hrate value hvalue).loweredBy hlinesSub s hin
        · -- the core counts only in the last task of the name, which is this one
          have hcore : wanted = "core" ∧ later.any (·.isTaskNamed name) = false := by
            unfold wantedDecorators at hwanted
            split at hwanted
            · exact absurd (mem_singleton.mp hwanted) hname
            · rename_i hlater
              refine ⟨?_, Bool.eq_false_iff.mpr hlater⟩
              simpa [hname] using hwanted
          obtain ⟨rfl, hlast⟩ := hcore
          rw [← taskDecorators_last hp hlast] at hvalue
          obtain ⟨t, ht, hstands⟩ := exists_core_of_spawn hstart hvalue
          have hcarries := expr_carries (context_backend .esp32 p bound) value ht
          rw [context_fieldOrder] at hcarries
          apply (hcarries.within (mem_singleton_self start) hstands).loweredBy _ s hin
          intro t ht
          rw [mem_singleton.mp ht]
          simp [Sections.texts]
      · exact hbody.loweredBy hlinesSub s hs
    | busDecl span busType name sda scl freq devices =>
      cases hbus : Text.upper busType == "I2C" with
      | false =>
        intro s hs
        simp [declWritten, Expr.writtenFor, hbus, declInner, Stmt.isDefinition, Expr.blank,
          devicesInner] at hs
      | true =>
        simp only [ofDecl, hbus, if_true, bind_eq_ok, pure_eq_ok] at h
        obtain ⟨a, ha, l, hl, f, hf, rfl⟩ := h
        have hpieces := standsIn_concat [a, ", ", l, ", ", f, ");"] "Wire.begin("
        have hall := (bus_carries hb hbus ha (hpieces a (by simp))).append
          ((bus_carries hb hbus hl (hpieces l (by simp))).append
            ((bus_carries hb hbus hf (hpieces f (by simp))).append .nil))
        rw [horder] at hall
        apply hall.loweredBy
        intro t ht
        rw [mem_singleton.mp ht]
        simp [Sections.texts]
    | functionDecl span name params returnType body =>
      obtain ⟨lines, hlines, rfl⟩ := bind_ok h
      have hbody := function_carries hb hlines
      rw [horder] at hbody
      apply hbody.loweredBy
      intro t ht
      simpa [Sections.texts] using ht
    | loopDecl span body =>
      obtain ⟨lines, hlines, rfl⟩ := bind_ok h
      have hbody := block_carries hb body hlines
      rw [horder] at hbody
      apply hbody.loweredBy
      intro t ht
      simpa [Sections.texts] using ht
    | varDecl span name typeName initializer isMutable isConst isVolatile =>
      obtain ⟨i, hi, rfl⟩ := bind_ok h
      have hinit := (initializer_carries hb initializer hi).within (mem_singleton_self _)
        (standsIn_varDecl true name typeName isConst isVolatile i)
      rw [horder] at hinit
      apply hinit.loweredBy
      intro t ht
      rw [mem_singleton.mp ht]
      simp [Sections.texts]
    | _ => cases hd

theorem ofDecls_lowers {bound : Nat} (ds earlier : List Stmt) (hp : p.declarations = earlier ++ ds)
    (h : ofDecls (context .esp32 p (bound + 1)) ds = .ok sections) :
    ∀ s ∈ (declsWritten (fieldOrder p) ds).flatMap declInner, LoweredBy p sections.texts s := by
  induction ds generalizing earlier sections with
  | nil => nofun
  | cons d later ih =>
    obtain ⟨first, hfirst, others, hothers, rfl⟩ := bind₂_ok h
    have hlater := ih (earlier ++ [d]) (by rw [hp, append_assoc]; rfl) hothers
    intro s hs
    rw [declsWritten, flatMap_cons, mem_append] at hs
    rcases hs with hs | hs
    · exact (ofDecl_lowers hp hfirst s hs).subset fun t ht => mem_texts_append (.inl ht)
    · exact (hlater s hs).subset fun t ht => mem_texts_append (.inr ht)

-- ==== whole programs

/-- Generated code lowers a statement of a program: the statement has
lines, not only the remark, and each of them has a text that stands in
the code. -/
def Program.Lowers (p : Program) (sk : Sketch) (s : Stmt) : Prop :=
  ∃ bound lines, Emit.stmt (context .esp32 p bound) s = .ok lines ∧ lines ≠ []
    ∧ lines ≠ [unsupportedLine] ∧ ∀ l ∈ lines, l.text ≠ "" ∧ StandsIn l.stem sk.code

theorem stmt_of_isTopLevelOnly (h : s.isTopLevelOnly = true) (cx : EmitContext) :
    Emit.stmt cx s = .ok [] ∨ Emit.stmt cx s = .ok [unsupportedLine] := by
  cases s with
  | structDecl | taskDecl | busDecl => exact .inl rfl
  | importDecl | functionDecl | loopDecl => exact .inr rfl
  | _ => cases h

theorem not_lowers_of_isTopLevelOnly (h : s.isTopLevelOnly = true) : ¬ p.Lowers sk s := by
  rintro ⟨bound, lines, hlines, hne, hremark, -⟩
  rcases stmt_of_isTopLevelOnly h (context .esp32 p bound) with hnone | honly
  · exact hne (Except.ok.inj (hlines.symm.trans hnone))
  · exact hremark (Except.ok.inj (hlines.symm.trans honly))

/-- The written part of a program is lowered by its code, except for the
declarations that have code at the top level only; and the code, behind
its opening lines, is that of the written part. -/
theorem Program.sketch_lowers {p : Program} {sk : Sketch} (h : p.sketch .esp32 = .ok sk) :
    (∀ s ∈ p.written.inner, p.Lowers sk s ↔ s.isTopLevelOnly = false)
      ∧ ∃ rest sk', sk.lines = opening .esp32 sk.headers ++ rest
        ∧ p.written.sketch .esp32 = .ok sk' ∧ sk'.lines = opening .esp32 sk'.headers ++ rest := by
  refine ⟨?_, Program.sketch_written h⟩
  rw [sketch_eq, bind_eq_ok] at h
  obtain ⟨sections, hsections, hsk⟩ := h
  intro s hs
  constructor
  · intro hlowers
    rw [Bool.eq_false_iff]
    intro htop
    exact not_lowers_of_isTopLevelOnly htop hlowers
  · intro htop
    obtain ⟨bound, lines, hlines, hall⟩ := ofDecls_lowers p.declarations [] rfl hsections s hs
    have htelling := stmt_telling (context_backend .esp32 p bound) hlines htop
    refine ⟨bound, lines, hlines, htelling.ne_nil, htelling.ne_unsupported, ?_⟩
    intro l hl
    obtain ⟨t, ht, hin⟩ := hall l hl
    exact ⟨htelling.text_ne l hl, hin.trans (standsIn_code (pure_eq_ok.mp hsk).symm ht)⟩

/-- A source has code, and of a number of statements in its written part
none is a declaration that has code at the top level only. -/
def writesAll (source : String) (number : Nat) : Bool :=
  match Program.ofSource "sketch" source with
  | .error _ => false
  | .ok src =>
    (src.program.sketch .esp32).isOk && src.program.written.inner.length == number
      && src.program.written.inner.all (!·.isTopLevelOnly)

/-- A pause inside a conditional inside the loop is lowered, and so is
the conditional. -/
theorem Program.sketch_lowers_pause :
    ∃ src sk, Program.ofSource "sketch" "loop \x7b if (true) \x7b delay(5ms); \x7d \x7d" = .ok src
      ∧ src.program.sketch .esp32 = .ok sk ∧ src.program.written.inner.length = 2
      ∧ ∀ s ∈ src.program.written.inner, src.program.Lowers sk s := by
  have hwrites : writesAll "loop \x7b if (true) \x7b delay(5ms); \x7d \x7d" 2 = true := by
    decide +kernel
  unfold writesAll at hwrites
  split at hwrites
  · cases hwrites
  · rename_i src hsrc
    simp only [Bool.and_eq_true, beq_iff_eq, all_eq_true, Bool.not_eq_true'] at hwrites
    obtain ⟨⟨hok, hlength⟩, hnone⟩ := hwrites
    cases hsk : src.program.sketch .esp32 with
    | error fault =>
      rw [hsk] at hok
      cases hok
    | ok sk =>
      exact ⟨src, sk, hsrc, hsk, hlength,
        fun s hs => ((Program.sketch_lowers hsk).1 s hs).mpr (hnone s hs)⟩

/-- A source is read and analysed without a finding, and a declaration
that has code at the top level only stands inside its program. -/
def hidesDeclaration (source : String) : Bool :=
  match Program.ofSource "sketch" source with
  | .error _ => false
  | .ok src =>
    src.scanErrors.isEmpty && src.parseErrors.isEmpty
      && (src.program.analyze "esp32").issues.isEmpty && (src.program.sketch .esp32).isOk
      && src.program.inner.any (·.isTopLevelOnly)

/-- A bus inside a function is read and analysed without a finding, and
is lost from the code. -/
theorem Program.nested_bus_lost :
    ∃ src sk, Program.ofSource "sketch"
        "fn f() -> void \x7b bus I2C b \x7b sda: 21; scl: 22; freq: 400000; \x7d \x7d" = .ok src
      ∧ src.scanErrors = [] ∧ src.parseErrors = [] ∧ (src.program.analyze "esp32").issues = []
      ∧ src.program.sketch .esp32 = .ok sk
      ∧ ∃ s ∈ src.program.inner, ¬ src.program.Lowers sk s := by
  have hhides : hidesDeclaration
      "fn f() -> void \x7b bus I2C b \x7b sda: 21; scl: 22; freq: 400000; \x7d \x7d" = true := by
    decide +kernel
  unfold hidesDeclaration at hhides
  split at hhides
  · cases hhides
  · rename_i src hsrc
    simp only [Bool.and_eq_true, List.isEmpty_iff, any_eq_true] at hhides
    obtain ⟨⟨⟨⟨hscan, hparse⟩, hissues⟩, hok⟩, s, hs, htop⟩ := hhides
    cases hsk : src.program.sketch .esp32 with
    | error fault =>
      rw [hsk] at hok
      cases hok
    | ok sk =>
      exact ⟨src, sk, hsrc, hscan, hparse, hissues, hsk, s, hs, not_lowers_of_isTopLevelOnly htop⟩

end SketchCompiler
