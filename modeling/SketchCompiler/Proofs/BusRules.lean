/-
Buses implement their grammar.  The parts of a bus come in any order, and
reading one sets at most one property (`PartRead`); what the parts are
together follows from what each of them is.

# The properties

The three properties of a bus are read by one definition, each with its
own value and its own place (`Property`), so a lemma about a property is
proved once.

# What a bus needs

A property is known at the end exactly if one of the parts is it: while
parts are read the invariant `Known` says so for each property, and a
property that is known stays known (`PartRead.keeps`).
-/
import SketchCompiler.Proofs.StmtRules

namespace SketchCompiler

open List Grammar

open Derives (seq_iff seq_empty_iff kind_iff rule_iff seq_tok_iff alt_iff tok_iff)

variable {parts : BusParts} {ws : List Word} {key : Token}

variable {d k : Nat} {expression expression' : Parser Expr} {S : Kind → Prop}

-- ==== frequencies

theorem busFrequency_sound (he : ImplementsExpr d k expression expression') :
    Spells anyWord (busFrequency expression) fun _ ws => Derived (.rule .frequency) ws := by
  refine .accept (by decide) (fun digits hdigits => ?_) ?_
  · refine .number fun n hn => .get fun c _ => ?_
    have hnumber : Derived (.tok (Rule.literal .int)) [digits.word] := by
      refine tok_iff.mpr ⟨_, rfl, hdigits, fun spells hs => ?_⟩
      cases hs
      show (Numeral.readInt .marked digits.lexeme).isOk = true
      rw [hn]
      rfl
    have hunit : ∀ {v : List Word}, Derived (.opt (.tok Rule.frequencyUnit)) v →
        Derived (.rule .frequency) (digits.word :: v) := by
      intro v hv
      have hseq := Derives.seq hnumber (seq_empty_iff.mpr hv)
      exact .rule (.left hseq)
    dsimp only
    cases hfactor : (if c.kind = .ident then frequencyFactor c.peek.lexeme else none) with
    | none => exact .between fun s => .pure (hunit .none)
    | some factor =>
      by_cases hident : c.kind = .ident
      · rw [if_pos hident] at hfactor
        refine .next (fun w hw => ?_) fun unit hword => ?_
        · rw [hw]
          exact fun heof => absurd (hident.symm.trans heof) (by decide)
        refine .between fun s => .pure (hunit (.some ?_))
        refine tok_iff.mpr ⟨_, rfl, (congrArg Word.kind hword).trans hident, ?_⟩
        intro spells hs
        cases hs
        rw [congrArg Word.lexeme hword]
        show (frequencyFactor c.peek.lexeme).isSome = true
        rw [hfactor]
        rfl
      · rw [if_neg hident] at hfactor
        cases hfactor
  · have hother : Implements d k (fun w => anyWord w ∧ w.kind ≠ .int) expression expression'
        (.except { kind := .int } (.rule .expression)) ExprEnd (Expr.down d) anyValue :=
      he.anywhere.except (fun w hw hfits => hw.2 hfits.1) rfl
    exact hother.sound.imp fun _ _ hD => .rule (.right (hD trivial))

theorem busFrequency_reads_twice
    (hws : Derived (.all [.tok (Rule.literal .int), .opt (.tok Rule.frequencyUnit)]) ws) :
    ReadsTwice d (busFrequency expression) (busFrequency expression') ws (· = .semicolon)
      (Expr.down d) anyValue := by
  obtain ⟨w, v, rfl, hw, hv⟩ := seq_tok_iff.mp hws
  have hkind : w.kind = .int := hw.1
  refine .acceptAny_some (by rw [hkind]; decide) (mem_singleton.mpr hkind) ?_
  intro digits hdigits
  have hlexeme : digits.lexeme = w.lexeme := congrArg Word.lexeme hdigits
  have hok : (Numeral.readInt .marked digits.lexeme).isOk = true := by
    rw [hlexeme]
    exact hw.2 _ rfl
  obtain ⟨n, hn⟩ := exists_of_isOk hok
  refine .number hn ?_
  cases seq_empty_iff.mp hv with
  | none =>
    refine .get_nil fun c c' hc hc' => ?_
    have hident : ∀ e : Cursor, e.kind = .semicolon → ¬ e.kind = .ident := by
      intro e he
      rw [he]
      decide
    simp only [if_neg (hident c hc), if_neg (hident c' hc')]
    exact .between fun s => .pure (by simp only [Expr.down]) trivial
  | some hv =>
    obtain ⟨w', rfl, hw'⟩ := tok_iff.mp hv
    have hident : w'.kind = .ident := hw'.1
    obtain ⟨factor, hfactor⟩ := Option.isSome_iff_exists.mp (hw'.2 _ rfl)
    refine .get fun c c' hc hc' => ?_
    have hread : ∀ e : Cursor, e.peek.word = w' →
        (if e.kind = .ident then frequencyFactor e.peek.lexeme else none) = some factor := by
      intro e he
      have hkind : e.kind = .ident := (congrArg Word.kind he).trans hident
      have hlexeme : e.peek.lexeme = w'.lexeme := congrArg Word.lexeme he
      rw [if_pos hkind, hlexeme, hfactor]
    simp only [hread c hc, hread c' hc']
    refine .next (by rw [hident]; decide) fun unit _ => ?_
    exact .between fun s => .pure (by simp only [Expr.down]) trivial

theorem busFrequency_implements (he : ImplementsExpr d k expression expression') :
    Implements d k anyWord (busFrequency expression) (busFrequency expression')
      (.rule .frequency) (· = .semicolon) (Expr.down d) anyValue where
  sound := (busFrequency_sound he).imp fun _ _ hD _ => hD
  reads := by
    intro ws hws hfair
    rcases alt_iff.mp (rule_iff.mp hws) with h | h
    · exact busFrequency_reads_twice h
    · cases h with
      | except h hnot =>
        obtain ⟨w, v, rfl, -⟩ := h.exists_cons rfl
        refine .acceptAny_none (fun _ _ hmem => ?_) ?_
        · exact hnot w rfl (Terminal.fits_kind (mem_singleton.mp hmem))
        · refine (he.reads _ h hfair).mono (fun kd hkd => ?_) fun _ ha => ha
          rw [hkd]
          decide

-- ==== devices

theorem deviceKey_implements :
    Implements d k anyWord deviceKey deviceKey (.name "address") S (Token.down d) anyValue where
  sound := by
    refine .expect rfl fun key hkey => ?_
    by_cases haddress : key.lexeme = "address"
    · rw [if_pos haddress]
      refine .pure fun _ => tok_iff.mpr ⟨_, rfl, hkey, fun spells hs => ?_⟩
      cases hs
      exact decide_eq_true haddress
    · rw [if_neg haddress]
      exact .failAt _ _
  reads := by
    intro ws hws _
    obtain ⟨w, rfl, hw⟩ := tok_iff.mp hws
    refine .expect (by rw [hw.1]; decide) hw.1 fun key hkey => ?_
    have haddress : key.lexeme = "address" :=
      (congrArg Word.lexeme hkey).trans (of_decide_eq_true (hw.2 _ rfl))
    rw [if_pos haddress, Token.lexeme_down, if_pos haddress]
    exact .pure rfl trivial

theorem device_implements (he : ImplementsExpr d k expression expression') :
    Implements d k anyWord (device expression start) (device expression' (start.down d))
      (.all [.kind .ident, .kind .lbrace, .name "address", .kind .colon, .rule .expression,
        .kind .semicolon, .kind .rbrace]) S (Device.down d) anyValue := by
  refine .expect rfl fun name _ => .expect rfl fun _ _ => ?_
  refine (deviceKey_implements (S := fun _ => True)).bind .always fun _ => ?_
  refine .expect rfl fun _ _ => ?_
  refine he.bind (.kind (by decide)) fun address => ?_
  refine .expect rfl fun _ _ => .expect rfl fun right _ => ?_
  refine .between fun s => .pure ?_ trivial
  simp only [Device.down, Token.lexeme_down]

-- ==== the properties

/-- What is known of a bus, moved. -/
def Grammar.BusParts.down (d : Nat) (parts : BusParts) : BusParts where
  sda := parts.sda.map (Expr.down d)
  scl := parts.scl.map (Expr.down d)
  freq := parts.freq.map (Expr.down d)
  devices := parts.devices.map (Device.down d)

/-- A property of a bus: its name, the rule of its value, how that is
read, and where it is kept. -/
structure Property where
  key : String
  rule : Rule
  read : Parser Expr → Parser Expr
  set : BusParts → Expr → BusParts
  get : BusParts → Option Expr

namespace Property

/-- The data line. -/
def sda : Property where
  key := "sda"
  rule := .expression
  read := id
  set := fun parts e => { parts with sda := some e }
  get := fun parts => parts.sda

/-- The clock line. -/
def scl : Property where
  key := "scl"
  rule := .expression
  read := id
  set := fun parts e => { parts with scl := some e }
  get := fun parts => parts.scl

/-- The frequency. -/
def freq : Property where
  key := "freq"
  rule := .frequency
  read := busFrequency
  set := fun parts e => { parts with freq := some e }
  get := fun parts => parts.freq

/-- The properties of a bus. -/
def all : List Property :=
  [sda, scl, freq]

variable {m m' : Property}

theorem cases_mem {P : Property → Prop} (hsda : P sda) (hscl : P scl) (hfreq : P freq) :
    ∀ m ∈ all, P m := by
  intro m hm
  simp only [all, mem_cons, not_mem_nil, or_false] at hm
  rcases hm with rfl | rfl | rfl
  · exact hsda
  · exact hscl
  · exact hfreq

theorem eq_of_key : ∀ m ∈ all, ∀ m' ∈ all, m.key = m'.key → m = m' :=
  cases_mem (cases_mem (fun _ => rfl) (fun h => absurd h (by decide)) fun h =>
    absurd h (by decide))
    (cases_mem (fun h => absurd h (by decide)) (fun _ => rfl) fun h => absurd h (by decide))
    (cases_mem (fun h => absurd h (by decide)) (fun h => absurd h (by decide)) fun _ => rfl)

theorem get_set (parts : BusParts) (e : Expr) : ∀ m ∈ all, m.get (m.set parts e) = some e :=
  cases_mem rfl rfl rfl

theorem get_set_ne (parts : BusParts) (e : Expr) :
    ∀ m ∈ all, ∀ m' ∈ all, m ≠ m' → m.get (m'.set parts e) = m.get parts :=
  cases_mem (cases_mem (fun h => absurd rfl h) (fun _ => rfl) fun _ => rfl)
    (cases_mem (fun _ => rfl) (fun h => absurd rfl h) fun _ => rfl)
    (cases_mem (fun _ => rfl) (fun _ => rfl) fun h => absurd rfl h)

theorem get_devices (parts : BusParts) (devices : List Device) :
    ∀ m ∈ all, m.get { parts with devices } = m.get parts :=
  cases_mem rfl rfl rfl

theorem set_down (parts : BusParts) (e : Expr) :
    ∀ m ∈ all, m.set (parts.down d) (e.down d) = (m.set parts e).down d :=
  cases_mem rfl rfl rfl

theorem read_implements (he : ImplementsExpr d k expression expression') :
    ∀ m ∈ all, Implements d k anyWord (m.read expression) (m.read expression') (.rule m.rule)
      (· = .semicolon) (Expr.down d) anyValue := by
  have hvalue : Implements d k anyWord expression expression' (.rule .expression)
      (· = .semicolon) (Expr.down d) anyValue :=
    he.stop fun kd hkd => by rw [hkd]; decide
  exact cases_mem hvalue hvalue (busFrequency_implements he)

theorem busProperty_eq :
    ∀ m ∈ all, key.lexeme = m.key →
      busProperty expression parts key
        = m.read expression >>= fun value => pure (m.set parts value) := by
  obtain ⟨kind, lexeme, pos⟩ := key
  refine cases_mem ?_ ?_ ?_ <;> (rintro rfl; rfl)

theorem busProperty_other (h : ∀ m ∈ all, key.lexeme ≠ m.key) :
    busProperty expression parts key = Parser.failAt key (.unknownBusProperty key.lexeme) := by
  unfold busProperty
  split
  · exact absurd ‹_› (h sda (by simp [all]))
  · exact absurd ‹_› (h scl (by simp [all]))
  · exact absurd ‹_› (h freq (by simp [all]))
  · rfl

theorem derived_iff {ws : List Word} :
    Derived (.rule .busProperty) ws ↔ ∃ m ∈ all, Derived (Rule.busValue m.key m.rule) ws := by
  constructor
  · intro h
    rcases alt_iff.mp (rule_iff.mp h) with h | h
    · obtain ⟨u, v, rfl, hu, hv⟩ := seq_iff.mp h
      rcases alt_iff.mp hu with hu | hu
      · exact ⟨sda, by simp [all], .seq hu hv⟩
      · exact ⟨scl, by simp [all], .seq hu hv⟩
    · exact ⟨freq, by simp [all], h⟩
  · intro ⟨m, hm, h⟩
    have hline : ∀ {key : String}, Derived (Rule.busValue key .expression) ws →
        (∀ {u : List Word}, Derived (.name key) u → Derived (.any [.name "sda", .name "scl"]) u) →
        Derived (.rule .busProperty) ws := by
      intro key h hkey
      obtain ⟨u, v, rfl, hu, hv⟩ := seq_iff.mp h
      exact .rule (.left (.seq (hkey hu) hv))
    revert h
    refine cases_mem (P := fun m => Derived (Rule.busValue m.key m.rule) ws →
      Derived (.rule .busProperty) ws) ?_ ?_ ?_ m hm
    · exact fun h => hline h fun hu => .left hu
    · exact fun h => hline h fun hu => .right hu
    · exact fun h => .rule (.right h)

theorem starts_with_key {r : Rule} {key : String} {ws : List Word}
    (h : Derived (Rule.busValue key r) ws) :
    ∃ w v, ws = w :: v ∧ w.kind = .ident ∧ w.lexeme = key := by
  obtain ⟨w, v, rfl, hw, -⟩ := seq_tok_iff.mp h
  exact ⟨w, v, rfl, hw.1, of_decide_eq_true (hw.2 _ rfl)⟩

end Property

-- ==== parts

/-- Reading the words of a part makes one of what is known the other: a
device is added, or a property set. -/
inductive PartRead (parts : BusParts) : BusParts → List Word → Prop where
  | device {ws : List Word} (device : Device) (h : Derived (.rule .deviceDecl) ws) :
    PartRead parts { parts with devices := parts.devices ++ [device] } ws
  | property {ws : List Word} (m : Property) (hm : m ∈ Property.all) (value : Expr)
    (h : Derived (Rule.busValue m.key m.rule) ws) : PartRead parts (m.set parts value) ws

namespace PartRead

variable {parts parts' : BusParts} {ws : List Word} {m : Property}

/-- What was read is a part. -/
theorem derived (h : PartRead parts parts' ws) : Derived Rule.busPart ws := by
  cases h with
  | device _ h => exact .right h
  | property m hm _ h => exact .left (Property.derived_iff.mpr ⟨m, hm, h⟩)

/-- What is known stays known. -/
theorem keeps (h : PartRead parts parts' ws) (hm : m ∈ Property.all)
    (hsome : (m.get parts).isSome = true) : (m.get parts').isSome = true := by
  cases h with
  | device x _ =>
    rw [Property.get_devices parts _ m hm]
    exact hsome
  | property m' hm' value _ =>
    by_cases heq : m = m'
    · subst heq
      rw [Property.get_set parts value m hm]
      rfl
    · rw [Property.get_set_ne parts value m hm m' hm' heq]
      exact hsome

theorem gains (h : PartRead parts parts' ws) (hm : m ∈ Property.all)
    (hsome : (m.get parts').isSome = true) :
    (m.get parts).isSome = true ∨ Derived (Rule.busValue m.key m.rule) ws := by
  cases h with
  | device x _ =>
    rw [Property.get_devices parts _ m hm] at hsome
    exact .inl hsome
  | property m' hm' value h =>
    by_cases heq : m = m'
    · subst heq
      exact .inr h
    · rw [Property.get_set_ne parts value m hm m' hm' heq] at hsome
      exact .inl hsome

/-- A property that is read is known. -/
theorem sets (h : PartRead parts parts' ws) (hm : m ∈ Property.all)
    (hws : Derived (Rule.busValue m.key m.rule) ws) : (m.get parts').isSome = true := by
  obtain ⟨w, v, rfl, hkind, hkey⟩ := Property.starts_with_key hws
  cases h with
  | device x h =>
    obtain ⟨w', v', heq, hw', -⟩ := seq_tok_iff.mp (rule_iff.mp h)
    cases heq
    exact absurd (hkind.symm.trans hw'.1) (by decide)
  | property m' hm' value h =>
    obtain ⟨w', v', heq, -, hkey'⟩ := Property.starts_with_key h
    cases heq
    obtain rfl := Property.eq_of_key m hm m' hm' (hkey.symm.trans hkey')
    rw [Property.get_set parts value m hm]
    rfl

end PartRead

/-- A property behind its name. -/
def propertyTail (expression : Parser Expr) (parts : BusParts) (key : Token) :
    Parser BusParts := do
  let _ ← Parser.expect .colon "':' after bus property name"
  let parts ← busProperty expression parts key
  let _ ← Parser.expect .semicolon "';' after bus property"
  return parts

theorem busPart_bind :
    busPart expression parts = Parser.accept .kwDevice >>= fun start? =>
      match start? with
      | some start => device expression start >>= fun x =>
          pure { parts with devices := parts.devices ++ [x] }
      | none => Parser.expect .ident "bus property name or device declaration" >>=
          propertyTail expression parts :=
  rfl

section Parts

variable (he : ImplementsExpr d k expression expression')

include he

theorem propertyTail_sound (hkey : key.kind = .ident) :
    Spells anyWord (propertyTail expression parts key) fun parts' ws =>
      PartRead parts parts' (key.word :: ws) := by
  refine .expect rfl fun colon hcolon => ?_
  by_cases hknown : ∃ m ∈ Property.all, key.lexeme = m.key
  · obtain ⟨m, hm, hlexeme⟩ := hknown
    rw [Property.busProperty_eq m hm hlexeme, Parser.bind_assoc]
    have hvalue := (Property.read_implements he m hm).sound
    refine hvalue.bind fun value => ?_
    refine .expect rfl fun stop hstop => .pure fun u hu => ?_
    refine .property m hm value (.seq (u := [key.word]) ?_ (.seq (u := [colon.word]) ?_
      (.seq (hu trivial) (.seq (u := [stop.word]) (kind_iff.mpr ⟨_, rfl, hstop⟩) .empty))))
    · refine tok_iff.mpr ⟨_, rfl, hkey, fun spells hs => ?_⟩
      cases hs
      exact decide_eq_true hlexeme
    · exact kind_iff.mpr ⟨_, rfl, hcolon⟩
  · rw [Property.busProperty_other fun m hm hlexeme => hknown ⟨m, hm, hlexeme⟩]
    refine .bind (D := fun _ _ => False) (.failAt _ _) fun _ => ?_
    exact .expect rfl fun _ _ => .pure fun _ h => h.elim

theorem propertyTail_implements (hm : m ∈ Property.all) (hkey : key.lexeme = m.key) :
    Implements d k anyWord (propertyTail expression parts key)
      (propertyTail expression' (parts.down d) (key.down d))
      (.all [.kind .colon, .rule m.rule, .kind .semicolon]) S (BusParts.down d)
      fun parts' => ∃ value, parts' = m.set parts value := by
  have hright : busProperty expression' (parts.down d) (key.down d)
      = m.read expression' >>= fun value => pure (m.set (parts.down d) value) :=
    Property.busProperty_eq m hm hkey
  refine .expect rfl fun _ _ => ?_
  rw [Property.busProperty_eq m hm hkey, hright, Parser.bind_assoc, Parser.bind_assoc]
  refine (Property.read_implements he m hm).bind (.kind rfl) fun value => ?_
  refine .expect rfl fun _ _ => ?_
  exact .pure (Property.set_down parts value m hm) ⟨value, rfl⟩

theorem busPart_sound : Spells K (busPart expression parts) (PartRead parts) := by
  rw [busPart_bind]
  refine .accept (by decide) (fun start hstart => ?_) ?_
  · refine (device_implements (S := fun _ => True) he).sound.bind fun x => ?_
    refine .pure fun u hu => .device x (.rule ?_)
    rw [append_nil]
    exact .seq (u := [start.word]) (kind_iff.mpr ⟨_, rfl, hstart⟩) (hu trivial)
  · exact .expect rfl fun key hkey => propertyTail_sound he hkey

theorem busPart_reads (hws : Derived Rule.busPart ws) (hfair : Fair k anyWord ws) :
    ReadsTwice d (busPart expression parts) (busPart expression' (parts.down d)) ws S
      (BusParts.down d) fun parts' => PartRead parts parts' ws := by
  rw [busPart_bind, busPart_bind]
  rcases alt_iff.mp hws with h | h
  · obtain ⟨m, hm, h⟩ := Property.derived_iff.mp h
    obtain ⟨w, v, rfl, hw, hv⟩ := seq_tok_iff.mp h
    have hident : w.kind = .ident := hw.1
    have hlexeme : w.lexeme = m.key := of_decide_eq_true (hw.2 _ rfl)
    refine .acceptAny_none (fun _ _ hmem => ?_) ?_
    · exact absurd (hident.symm.trans (mem_singleton.mp hmem)) (by decide)
    refine .expect (by rw [hident]; decide) hident fun key hkey => ?_
    have hkey' : key.lexeme = m.key := (congrArg Word.lexeme hkey).trans hlexeme
    refine ((propertyTail_implements he hm hkey').reads v hv (Fair.right (u := [w]) hfair)).mono
      (fun _ h => h) ?_
    intro parts' ⟨value, hset⟩
    rw [hset]
    exact .property m hm value h
  · have hdevice : Derived (.rule .deviceDecl) ws := h
    obtain ⟨w, v, rfl, hw, hv⟩ := seq_tok_iff.mp (rule_iff.mp hdevice)
    refine .acceptAny_some (by rw [hw.1]; decide) (mem_singleton.mpr hw.1) ?_
    intro start _
    have hread : Implements d k anyWord
        (device expression start >>= fun x =>
          pure { parts with devices := parts.devices ++ [x] })
        (device expression' (start.down d) >>= fun x =>
          pure { parts.down d with devices := (parts.down d).devices ++ [x] })
        (.all [.kind .ident, .kind .lbrace, .name "address", .kind .colon, .rule .expression,
          .kind .semicolon, .kind .rbrace]) S (BusParts.down d)
        fun parts' => PartRead parts parts' (w :: v) := by
      refine (device_implements he).bind_pure (fun x => ?_) fun x => .device x hdevice
      simp only [BusParts.down, map_append, map_cons, map_nil]
    exact hread.reads v hv (Fair.right (u := [w]) hfair)

end Parts

-- ==== the loop

/-- What the parts of a bus are, as far as they are read: a property that
is known is among them. -/
structure Known (parts : BusParts) (ws : List Word) : Prop where
  derived : Derived (.many Rule.busPart) ws
  known : ∀ m ∈ Property.all, (m.get parts).isSome = true →
    Derived (Rule.busPartsWith m.key m.rule) ws

theorem Known.snoc (h : Known parts u) (hpart : PartRead parts parts' v) :
    Known parts' (u ++ v) where
  derived := h.derived.many_snoc hpart.derived
  known := by
    intro m hm hsome
    rcases hpart.gains hm hsome with hbefore | hv
    · obtain ⟨x, y, rfl, hx, hy⟩ := seq_iff.mp (h.known m hm hbefore)
      obtain ⟨y₁, y₂, rfl, hy₁, hy₂⟩ := seq_iff.mp hy
      have hmore := (seq_empty_iff.mp hy₂).many_snoc hpart.derived
      rw [append_assoc, append_assoc]
      exact .seq hx (.seq hy₁ (seq_empty_iff.mpr hmore))
    · have hnone : Derived (.many Rule.busPart) [] := .done
      rw [← append_nil v]
      exact .seq h.derived (.seq hv (seq_empty_iff.mpr hnone))

theorem busStep_done {P : BusParts → Prop} {parts : BusParts} (hP : P parts) :
    ReadsTwice d (busStep expression parts) (busStep expression' (parts.down d)) [] (· = .rbrace)
      (ReadsTwice.moveRound (BusParts.down d) (BusParts.down d))
      fun r => ∃ b, r = .done b ∧ P b := by
  refine .get_nil fun c c' hc hc' => ?_
  rw [if_pos (Or.inl hc), if_pos (Or.inl hc')]
  exact .pure rfl ⟨parts, rfl, hP⟩

section Loop

variable (he : ImplementsExpr d k expression expression')

include he

theorem busParts_sound : Spells anyWord (busParts expression) Known := by
  have hstep : ∀ parts, Spells anyWord (busStep expression parts) fun r v => ∀ u, Known parts u →
      Spells.Leaves Known Known (u ++ v) r := by
    intro parts
    refine .get fun c _ => ?_
    show Spells _ (if c.kind = .rbrace ∨ c.atEnd = true then _ else _) _
    split
    · refine .pure fun u hu => ?_
      rw [append_nil]
      exact hu
    · refine (busPart_sound he).bind fun parts' => .pure fun v hv u hu => ?_
      rw [append_nil]
      exact hu.snoc hv
  have hempty : Known {} [] :=
    ⟨.done, Property.cases_mem (fun h => by cases h) (fun h => by cases h) fun h => by cases h⟩
  exact (Spells.loop hstep {}).imp fun parts v hv => hv [] hempty

theorem busStep_reads_twice (hws : Derived Rule.busPart ws) (hfair : Fair k anyWord ws) :
    ReadsTwice d (busStep expression parts) (busStep expression' (parts.down d)) ws S
      (ReadsTwice.moveRound (BusParts.down d) (BusParts.down d))
      fun r => ∃ parts', r = .again parts' ∧ PartRead parts parts' ws := by
  obtain ⟨w, v, rfl, hw⟩ := hws.exists_cons rfl
  have hopen : ∀ kd ∈ Rule.busPart.starts Rule.first,
      ¬ (kd = .rbrace ∨ decide (kd = .eof) = true) := by
    decide
  refine .get fun c c' hc hc' => ?_
  have hkind : c.kind = w.kind := congrArg Word.kind hc
  have hkind' : c'.kind = w.kind := congrArg Word.kind hc'
  unfold Cursor.atEnd
  rw [hkind, hkind', if_neg (hopen _ hw), if_neg (hopen _ hw), ← append_nil (w :: v)]
  refine (busPart_reads he hws hfair).bind (fun _ h => h) fun parts' hpart => ?_
  rw [append_nil]
  exact .pure rfl ⟨parts', rfl, hpart⟩

theorem busRounds_reads
    (hI : ∀ {parts parts' : BusParts} {ws : List Word}, PartRead parts parts' ws → I parts →
      I parts') (hparts : I parts) (hws : Derived (.many Rule.busPart) ws)
        (hfair : Fair k anyWord ws) :
    ReadsTwice d (Parser.loop (busStep expression) parts)
      (Parser.loop (busStep expression') (parts.down d)) ws (· = .rbrace) (BusParts.down d) I := by
  have hstop : Stops (.seq (.many Rule.busPart) .empty) (· = .rbrace) fun _ => True := .always
  refine Implements.loop_reads (I := I) rfl hstop (fun parts hparts ws hws hfair => ?_)
    (fun parts hparts ws hws _ => ?_) hparts (seq_empty_iff.mpr hws) hfair
  · refine (busStep_reads_twice he hws hfair).imp ?_
    intro r ⟨parts', hr, hpart⟩
    exact ⟨parts', hr, hI hpart hparts⟩
  · rw [hws.eq_nil]
    exact .done (busStep_done hparts)

theorem busParts_implements :
    Implements d k anyWord (busParts expression) (busParts expression') (.many Rule.busPart)
      (· = .rbrace) (BusParts.down d) anyValue where
  sound := (busParts_sound he).imp fun _ _ hD _ => hD.derived
  reads := fun _ hws hfair => busRounds_reads he (fun _ h => h) trivial hws hfair

theorem busPartsWith_implements (hm : m ∈ Property.all) :
    Implements d k anyWord (busParts expression) (busParts expression')
      (Rule.busPartsWith m.key m.rule) (· = .rbrace) (BusParts.down d)
      fun parts => (m.get parts).isSome = true where
  sound := (busParts_sound he).imp fun _ _ hD hsome => hD.known m hm hsome
  reads := by
    intro ws hws hfair
    have hstop : Stops (.seq (.many Rule.busPart) (.all [Rule.busValue m.key m.rule,
        .many Rule.busPart])) (· = .rbrace) fun _ => True := .always
    show ReadsTwice d (Parser.loop (busStep expression) {})
      (Parser.loop (busStep expression') (BusParts.down d {})) ws _ _ _
    refine Implements.loop_reads (I := anyValue) rfl hstop (fun parts _ ws hws hfair => ?_)
      (fun parts _ ws hws hfair => ?_) trivial hws hfair
    · refine (busStep_reads_twice he hws hfair).imp ?_
      intro r ⟨parts', hr, _⟩
      exact ⟨parts', hr, trivial⟩
    · obtain ⟨u, v, rfl, hu, hv⟩ := seq_iff.mp hws
      have hpart : Derived Rule.busPart u := .left (Property.derived_iff.mpr ⟨m, hm, hu⟩)
      have hne : u ≠ [] := by
        obtain ⟨w, u', rfl, -⟩ := hpart.exists_cons rfl
        exact cons_ne_nil _ _
      have hset : ReadsTwice d (busStep expression parts) (busStep expression' (parts.down d)) u
          (fun _ => True) (ReadsTwice.moveRound (BusParts.down d) (BusParts.down d))
          fun r => ∃ parts', r = .again parts' ∧ (m.get parts').isSome = true := by
        refine (busStep_reads_twice he hpart hfair.left).imp ?_
        intro r ⟨parts', hr, hread⟩
        exact ⟨parts', hr, hread.sets hm hu⟩
      refine ReadsTwice.again hset hne (fun _ _ => trivial) fun parts' hsome => ?_
      exact busRounds_reads he (fun hread h => hread.keeps hm h) hsome
        (seq_empty_iff.mp hv) hfair.right

end Loop

-- ==== the bus

theorem busType_implements :
    Implements d k anyWord (Parser.expectAny [.kwI2C, .kwSPI, .ident] what)
      (Parser.expectAny [.kwI2C, .kwSPI, .ident] what) (.rule .busType) (fun _ => True)
      (Token.down d) anyValue :=
  .rule (.expectAny_only (cons_ne_nil _ _) (by decide))

theorem busDecl_implements (he : ImplementsExpr d k expression expression') :
    ImplementsForm d k .kwBus (busDecl expression) (busDecl expression') .busDecl S := by
  have hparts : Implements d k anyWord (busParts expression) (busParts expression') Rule.busParts
      (· = .rbrace) (BusParts.down d) fun parts => anyValue parts ∧ parts.sda.isSome = true
        ∧ parts.scl.isSome = true ∧ parts.freq.isSome = true :=
    (busParts_implements he).both
      ((busPartsWith_implements he (m := Property.sda) (by simp [Property.all])).both
        ((busPartsWith_implements he (m := Property.scl) (by simp [Property.all])).both
          (busPartsWith_implements he (m := Property.freq) (by simp [Property.all]))))
  refine .rule (.next_kind rfl fun start => ?_)
  refine busType_implements.bind .always fun busType => ?_
  refine .expect rfl fun name _ => .expect rfl fun _ _ => ?_
  refine hparts.bind_where (Q := fun _ => True) ?_ (.kind rfl) (fun parts hall => ?_)
    fun parts hmissing => ?_
  · exact hparts.sound.imp fun _ _ _ => trivial
  · obtain ⟨sda, scl, freq, devices⟩ := parts
    obtain ⟨-, hsda, hscl, hfreq⟩ := hall
    obtain ⟨sda, rfl⟩ := Option.isSome_iff_exists.mp hsda
    obtain ⟨scl, rfl⟩ := Option.isSome_iff_exists.mp hscl
    obtain ⟨freq, rfl⟩ := Option.isSome_iff_exists.mp hfreq
    refine .expect rfl fun right _ => ?_
    refine .between fun s => .pure ?_ trivial
    simp only [Stmt.down, Token.lexeme_down, devicesDown_eq, BusParts.down]
  · obtain ⟨sda, scl, freq, devices⟩ := parts
    refine .expect rfl fun right _ => ?_
    cases sda with
    | none => exact .failAt _ _
    | some sda =>
      cases scl with
      | none => exact .failAt _ _
      | some scl =>
        cases freq with
        | none => exact .failAt _ _
        | some freq => exact absurd ⟨trivial, rfl, rfl, rfl⟩ hmissing

end SketchCompiler
