/-
Raw code.  A payload is balanced if it is a sequence of literals, comments,
plain characters and balanced payloads in braces (`Payload`).  A balanced
payload is read whole in front of a closing brace (`Payload.read`), and
nothing else ever is (`rawForm`).

Inside `d` braces of its own the reader still has `d + 1` balanced payloads
in front of it, each closed by a brace (`Nested`).  The converse is shown of
that many, by induction along the reader; one item put in front goes to the
first of them (`Nested.item`).
-/
import SketchCompiler.Proofs.Readers

namespace SketchCompiler

open List

variable {cs rest body front soft : List Char} {c quote : Char} {p : Pos}

-- ==== raw payloads

/-- What may stand in a literal between its quotes: a backslash takes the
next character with it. -/
inductive Quoted (quote : Char) : List Char → Prop where
  | nil : Quoted quote []
  | escape {c : Char} {cs : List Char} (h : Quoted quote cs) : Quoted quote ('\\' :: c :: cs)
  | plain {c : Char} {cs : List Char} (hc : c ≠ quote) (hescape : c ≠ '\\') (h : Quoted quote cs) :
      Quoted quote (c :: cs)

/-- The character is an item of its own in front of the text: no quote, no
brace and no slash that starts a comment. -/
def IsPlain (c : Char) (cs : List Char) : Prop :=
  c ∉ ['"', '\'', '{', '}'] ∧ (c = '/' → ∀ x ∈ cs.head?, x ≠ '/' ∧ x ≠ '*')

/-- A sequence of literals, comments with what ends them, balanced payloads
in braces, and other single characters. -/
inductive Payload : List Char → Prop where
  | nil : Payload []
  | literal {quote : Char} {body cs : List Char} (hquote : quote = '"' ∨ quote = '\'')
      (hbody : Quoted quote body) (h : Payload cs) : Payload (quote :: (body ++ quote :: cs))
  | line {body cs : List Char} (hbody : '\n' ∉ body) (h : Payload cs) :
      Payload ('/' :: '/' :: (body ++ '\n' :: cs))
  | block {body cs : List Char} (hbody : ¬ ['*', '/'] <:+: body) (h : Payload cs) :
      Payload ('/' :: '*' :: (body ++ '*' :: '/' :: cs))
  | braces {inside cs : List Char} (hinside : Payload inside) (h : Payload cs) :
      Payload ('{' :: (inside ++ '}' :: cs))
  | plain {c : Char} {cs : List Char} (hc : IsPlain c cs) (h : Payload cs) : Payload (c :: cs)

/-- Payload payloads in a row, each but the last closed by a brace. -/
def Nested : Nat → List Char → Prop
  | 0, cs => Payload cs
  | d + 1, cs => ∃ inside behind, cs = inside ++ '}' :: behind ∧ Payload inside ∧ Nested d behind

/-- Such payloads as they go on inside a literal or a comment. -/
def NestedIn (d : Nat) : RawMode → List Char → Prop
  | .code, cs => Nested d cs
  | .literal quote, cs =>
    ∃ body behind, cs = body ++ quote :: behind ∧ Quoted quote body ∧ Nested d behind
  | .line, cs => ∃ body behind, cs = body ++ '\n' :: behind ∧ '\n' ∉ body ∧ Nested d behind
  | .block, cs =>
    ∃ body behind, cs = body ++ '*' :: '/' :: behind ∧ ¬ ['*', '/'] <:+: body ∧ Nested d behind

/-- An item in front goes to the first of the payloads. -/
theorem Nested.item {f : List Char → List Char} (h : Nested d cs)
    (hf : ∀ inside behind, f (inside ++ behind) = f inside ++ behind)
    (hitem : ∀ inside, inside <+: cs → Payload inside → Payload (f inside)) : Nested d (f cs) := by
  cases d with
  | zero => exact hitem cs prefix_rfl h
  | succ d =>
    obtain ⟨inside, behind, rfl, hinside, hbehind⟩ := h
    exact ⟨f inside, behind, hf _ _, hitem _ (prefix_append ..) hinside, hbehind⟩

theorem Nested.literal (hquote : quote = '"' ∨ quote = '\'') (h : NestedIn d (.literal quote) cs) :
    Nested d (quote :: cs) := by
  obtain ⟨body, behind, rfl, hbody, hbehind⟩ := h
  exact hbehind.item (fun _ _ => by simp) fun _ _ => .literal hquote hbody

-- ==== raw code

/-- What raw code covers inside its opening brace. -/
def softenRaw : RawMode → Nat → List Char → List Char
  | _, _, [] => []
  | .code, depth, '"' :: rest => '"' :: softenRaw (.literal '"') depth rest
  | .code, depth, '\'' :: rest => '\'' :: softenRaw (.literal '\'') depth rest
  | .code, depth, '/' :: '/' :: rest => '/' :: '/' :: softenRaw .line depth rest
  | .code, depth, '/' :: '*' :: rest => '/' :: '*' :: softenRaw .block depth rest
  | .code, depth, '{' :: rest => '{' :: softenRaw .code (depth + 1) rest
  | .code, 0, '}' :: _ => ['}']
  | .code, depth + 1, '}' :: rest => '}' :: softenRaw .code depth rest
  | .code, depth, c :: rest => c :: softenRaw .code depth rest
  | .literal quote, depth, '\\' :: c :: rest =>
    '\\' :: softChar c :: softenRaw (.literal quote) depth rest
  | .literal quote, depth, c :: rest =>
    softChar c :: softenRaw (if c = quote then .code else .literal quote) depth rest
  | .line, depth, '\n' :: rest => '\n' :: softenRaw .code depth rest
  | .line, depth, c :: rest => c :: softenRaw .line depth rest
  | .block, depth, '*' :: '/' :: rest => '*' :: '/' :: softenRaw .code depth rest
  | .block, depth, c :: rest => softChar c :: softenRaw .block depth rest

/-- Reading goes over the front of the text, which covers the softened
one, and on behind it. -/
def GoesOver (m : RawMode) (d : Nat) (front soft : List Char) (m' : RawMode) (d' : Nat)
    (rest : List Char) : Prop :=
  softenRaw m d (front ++ rest) = soft ++ softenRaw m' d' rest
    ∧ ∀ p, scanRawText m d p (front ++ rest) = (scanRawText m' d' (p.over soft) rest).prepend front

theorem GoesOver.trans (h : GoesOver m d front soft m' d' (front' ++ rest))
    (h' : GoesOver m' d' front' soft' m'' d'' rest) :
    GoesOver m d (front ++ front') (soft ++ soft') m'' d'' rest := by
  refine ⟨by rw [append_assoc, h.1, h'.1, append_assoc], fun p => ?_⟩
  rw [append_assoc, h.2, h'.2, Pos.over_append]
  simp only [RawText.prepend, append_assoc, length_append, Nat.add_assoc, Nat.add_comm]

theorem over_plain (h : IsPlain c rest) : GoesOver .code d [c] [c] .code d rest := by
  obtain ⟨hc, hslash⟩ := h
  simp only [mem_cons, not_mem_nil, or_false, not_or] at hc
  obtain ⟨hdouble, hsingle, hopen, hclose⟩ := hc
  have hline (r : List Char) (heq : c = '/') : rest ≠ '/' :: r := by
    rintro rfl
    exact (hslash heq '/' rfl).1 rfl
  have hblock (r : List Char) (heq : c = '/') : rest ≠ '*' :: r := by
    rintro rfl
    exact (hslash heq '*' rfl).2 rfl
  constructor
  · rw [singleton_append, softenRaw]
    · rfl
    all_goals first | assumption | exact fun _ => hclose | exact fun _ _ => hclose
  · intro p
    by_cases hbreak : c = '\n'
    · subst hbreak
      rfl
    · have hover : p.over [c] = p.right 1 := Pos.past_plain p hbreak
      rw [singleton_append, scanRawText, hover]
      all_goals first | assumption | exact fun _ => hclose | exact fun _ _ => hclose

theorem Pos.over_softChar (p : Pos) (c : Char) : p.over [softChar c] = p.right 1 :=
  Pos.past_plain p (softChar_ne_break c)

theorem over_escape : GoesOver (.literal quote) d ['\\', c] ['\\', softChar c] (.literal quote) d
    rest := by
  refine ⟨rfl, fun p => ?_⟩
  have hover : p.over ['\\', softChar c] = p.right 2 := Pos.over_softChar _ c
  rw [hover]
  rfl

theorem over_literal (h : ∀ x r, c = '\\' → rest = x :: r → False)
    (hmode : (if c = quote then RawMode.code else .literal quote) = m) :
    GoesOver (.literal quote) d [c] [softChar c] m d rest := by
  subst hmode
  refine ⟨?_, fun p => ?_⟩
  · rw [singleton_append, softenRaw]
    · rfl
    · exact h
  · rw [singleton_append, scanRawText, Pos.over_softChar]
    exact h

theorem over_line (h : c ≠ '\n') : GoesOver .line d [c] [c] .line d rest := by
  refine ⟨?_, fun p => ?_⟩
  · rw [singleton_append, softenRaw]
    · rfl
    · exact h
  · have hover : p.over [c] = p.right 1 := Pos.past_plain p h
    rw [singleton_append, scanRawText, hover]
    exact h

theorem over_block (h : ∀ r, c = '*' → rest = '/' :: r → False) :
    GoesOver .block d [c] [softChar c] .block d rest := by
  refine ⟨?_, fun p => ?_⟩
  · rw [singleton_append, softenRaw]
    · rfl
    · exact h
  · rw [singleton_append, scanRawText, Pos.over_softChar]
    exact h

-- ==== balanced payloads are read

theorem Quoted.read (h : Quoted quote body) (hquote : quote ≠ '\\') :
    GoesOver (.literal quote) d (body ++ [quote]) (body.map softChar ++ [softChar quote]) .code d
      rest := by
  induction h with
  | nil => exact over_literal (fun _ _ heq => absurd heq hquote) (if_pos rfl)
  | escape _ ih => exact over_escape.trans ih
  | plain hc hescape _ ih =>
    exact (over_literal (fun _ _ heq => absurd heq hescape) (if_neg hc)).trans ih

theorem read_line (h : '\n' ∉ body) :
    GoesOver .line d (body ++ ['\n']) (body ++ ['\n']) .code d rest := by
  induction body with
  | nil => exact ⟨rfl, fun _ => rfl⟩
  | cons c body ih =>
    obtain ⟨hc, hbody⟩ := ne_and_not_mem_of_not_mem_cons h
    exact (over_line hc.symm).trans (ih hbody)

theorem read_block (h : ¬ ['*', '/'] <:+: body) :
    GoesOver .block d (body ++ ['*', '/']) (body.map softChar ++ ['*', '/']) .code d rest := by
  induction body with
  | nil => exact ⟨rfl, fun _ => rfl⟩
  | cons c body ih =>
    rw [infix_cons_iff, not_or] at h
    refine (over_block ?_).trans (ih h.2)
    rintro r rfl heq
    -- the comment would end within its body
    cases body with
    | nil => cases heq
    | cons x body =>
      cases heq
      exact h.1 ⟨body, rfl⟩

theorem IsPlain.append (h : IsPlain c cs) (rest : List Char) : IsPlain c (cs ++ '}' :: rest) := by
  refine ⟨h.1, fun hc x hx => ?_⟩
  cases cs with
  | nil =>
    cases hx
    decide
  | cons y cs => exact h.2 hc x hx

/-- A balanced payload is read whole in front of a closing brace. -/
theorem Payload.read (h : Payload cs) : ∃ soft, soft.length = cs.length
    ∧ ∀ d rest, GoesOver .code d cs soft .code d ('}' :: rest) := by
  induction h with
  | nil => exact ⟨[], rfl, fun _ _ => ⟨rfl, fun _ => rfl⟩⟩
  | @literal quote body cs hquote hbody _ ih =>
    obtain ⟨soft, hlength, hread⟩ := ih
    have hopen {d : Nat} {rest : List Char} :
        GoesOver .code d [quote] [quote] (.literal quote) d rest := by
      rcases hquote with rfl | rfl
      all_goals exact ⟨rfl, fun _ => rfl⟩
    have hne : quote ≠ '\\' := by
      rcases hquote with rfl | rfl
      all_goals decide
    refine ⟨[quote] ++ (body.map softChar ++ [softChar quote] ++ soft), by simp [hlength],
      fun d rest => ?_⟩
    simpa using hopen.trans ((hbody.read hne).trans (hread d rest))
  | @line body cs hbody _ ih =>
    obtain ⟨soft, hlength, hread⟩ := ih
    have hopen {d : Nat} {rest : List Char} :
        GoesOver .code d ['/', '/'] ['/', '/'] .line d rest :=
      ⟨rfl, fun _ => rfl⟩
    refine ⟨['/', '/'] ++ (body ++ ['\n'] ++ soft), by simp [hlength], fun d rest => ?_⟩
    simpa using hopen.trans ((read_line hbody).trans (hread d rest))
  | @block body cs hbody _ ih =>
    obtain ⟨soft, hlength, hread⟩ := ih
    have hopen {d : Nat} {rest : List Char} :
        GoesOver .code d ['/', '*'] ['/', '*'] .block d rest :=
      ⟨rfl, fun _ => rfl⟩
    refine ⟨['/', '*'] ++ (body.map softChar ++ ['*', '/'] ++ soft), by simp [hlength],
      fun d rest => ?_⟩
    simpa using hopen.trans ((read_block hbody).trans (hread d rest))
  | @braces inside cs _ _ ihinside ih =>
    obtain ⟨softInside, hlengthInside, hinside⟩ := ihinside
    obtain ⟨soft, hlength, hread⟩ := ih
    have hopen {d : Nat} {rest : List Char} : GoesOver .code d ['{'] ['{'] .code (d + 1) rest :=
      ⟨rfl, fun _ => rfl⟩
    have hclose {d : Nat} {rest : List Char} : GoesOver .code (d + 1) ['}'] ['}'] .code d rest :=
      ⟨rfl, fun _ => rfl⟩
    refine ⟨['{'] ++ (softInside ++ (['}'] ++ soft)), by simp [hlength, hlengthInside],
      fun d rest => ?_⟩
    simpa using hopen.trans ((hinside (d + 1) _).trans (hclose.trans (hread d rest)))
  | plain hc _ ih =>
    obtain ⟨soft, hlength, hread⟩ := ih
    exact ⟨_ :: soft, congrArg (· + 1) hlength, fun d rest =>
      (over_plain (hc.append rest)).trans (hread d rest)⟩

/-- The text is captured whole when a closing brace follows it. -/
def ClosesRaw (m : RawMode) (depth : Nat) (cs : List Char) : Prop :=
  ∀ p rest, ∃ next, scanRawText m depth p (cs ++ '}' :: rest)
    = { payload := cs, closed := true, width := cs.length + 1, next }

theorem Payload.closesRaw (h : Payload cs) : ClosesRaw .code 0 cs := by
  obtain ⟨soft, -, hread⟩ := h.read
  intro p rest
  refine ⟨(p.over soft).right 1, ((hread 0 rest).2 p).trans ?_⟩
  rw [scanRawText, RawText.prepend, append_nil, Nat.add_comm]

-- ==== what is read is balanced

/-- What reading raw code comes to: payloads up to the brace that closes
the last of them, or the whole text, wherever it stands. -/
inductive RawForm (m : RawMode) (d : Nat) (cs : List Char) : Prop where
  | closed {payload rest : List Char} (hcs : cs = payload ++ '}' :: rest)
      (hnested : NestedIn d m payload)
  | toEnd (hlength : (softenRaw m d cs).length = cs.length)
      (hread : ∀ p, scanRawText m d p cs = { payload := cs, closed := false, width := cs.length
                                             next := p.over (softenRaw m d cs) })

/-- One step of the reader in front. -/
theorem RawForm.step (front soft : List Char)
    (h : Softens (softenRaw m' d' rest) rest ∧ RawForm m' d' rest)
    (hover : GoesOver m d front soft m' d' rest) (hlength : soft.length = front.length)
    (hsoft : ∀ {s}, Softens s rest → Softens (soft ++ s) (front ++ rest))
    (hnested : ∀ payload behind, rest = payload ++ '}' :: behind → NestedIn d' m' payload →
      NestedIn d m (front ++ payload)) :
    Softens (softenRaw m d (front ++ rest)) (front ++ rest) ∧ RawForm m d (front ++ rest) := by
  refine ⟨hover.1 ▸ hsoft h.1, ?_⟩
  cases h.2 with
  | closed hcs hin => exact .closed (by rw [hcs, append_assoc]) (hnested _ _ hcs hin)
  | toEnd hlength' hread =>
    refine .toEnd (by rw [hover.1, length_append, hlength', hlength, length_append]) fun p => ?_
    rw [hover.2, hread, hover.1, Pos.over_append, RawText.prepend, length_append, Nat.add_comm]

/-- A step over characters that are covered as they are. -/
theorem RawForm.same (front : List Char)
    (h : Softens (softenRaw m' d' rest) rest ∧ RawForm m' d' rest)
    (hover : GoesOver m d front front m' d' rest)
    (hnested : ∀ payload behind, rest = payload ++ '}' :: behind → NestedIn d' m' payload →
      NestedIn d m (front ++ payload)) :
    Softens (softenRaw m d (front ++ rest)) (front ++ rest) ∧ RawForm m d (front ++ rest) :=
  RawForm.step front front h hover rfl (·.prepend front) hnested

theorem rawForm (m : RawMode) (d : Nat) (p : Pos) (cs : List Char) :
    Softens (softenRaw m d cs) cs ∧ RawForm m d cs := by
  -- one case per rule of the reader
  induction m, d, p, cs using scanRawText.induct with
  | case1 m d p =>
    rw [softenRaw]
    refine ⟨.nil, .toEnd ?_ fun p => ?_⟩
    all_goals rw [softenRaw]
    rw [scanRawText]
    rfl
  | case2 d p rest ih =>
    exact RawForm.same ['"'] ih ⟨rfl, fun _ => rfl⟩ fun _ _ _ => Nested.literal (.inl rfl)
  | case3 d p rest ih =>
    exact RawForm.same ['\''] ih ⟨rfl, fun _ => rfl⟩ fun _ _ _ => Nested.literal (.inr rfl)
  | case4 d p rest ih =>
    refine RawForm.same ['/', '/'] ih ⟨rfl, fun _ => rfl⟩ ?_
    rintro - - - ⟨body, behind, rfl, hbody, hbehind⟩
    exact hbehind.item (fun _ _ => by simp) fun _ _ => .line hbody
  | case5 d p rest ih =>
    refine RawForm.same ['/', '*'] ih ⟨rfl, fun _ => rfl⟩ ?_
    rintro - - - ⟨body, behind, rfl, hbody, hbehind⟩
    exact hbehind.item (fun _ _ => by simp) fun _ _ => .block hbody
  | case6 d p rest ih =>
    refine RawForm.same ['{'] ih ⟨rfl, fun _ => rfl⟩ ?_
    rintro - - - ⟨inside, behind, rfl, hinside, hbehind⟩
    exact hbehind.item (fun _ _ => by simp) fun _ _ => .braces hinside
  | case7 p rest => exact ⟨.same _ .nil, .closed rfl .nil⟩
  | case8 d p rest ih =>
    exact RawForm.same ['}'] ih ⟨rfl, fun _ => rfl⟩ fun _ _ _ h => ⟨[], _, rfl, .nil, h⟩
  | case9 d p rest ih =>
    exact RawForm.same ['\n'] ih ⟨rfl, fun _ => rfl⟩ fun _ _ _ h =>
      Nested.item h (fun _ _ => rfl) fun _ _ => .plain ⟨by decide, nofun⟩
  | case10 d p c rest h1 h2 h3 h4 h5 h6 h7 h8 ih =>
    have hclose : c ≠ '}' := by
      cases d with
      | zero => exact h6 rfl
      | succ d => exact h7 d rfl
    have hplain {behind : List Char} (h : behind <+: rest) : IsPlain c behind := by
      refine ⟨?_, fun hslash x hx => ?_⟩
      · simp only [mem_cons, not_mem_nil, or_false, not_or]
        exact ⟨h1, h2, h5, hclose⟩
      · obtain ⟨more, rfl⟩ := h
        obtain ⟨behind, rfl⟩ := head?_eq_some_iff.mp hx
        refine ⟨?_, ?_⟩
        · rintro rfl
          exact h3 _ hslash rfl
        · rintro rfl
          exact h4 _ hslash rfl
    refine RawForm.same [c] ih (over_plain (hplain prefix_rfl)) fun payload behind hrest h => ?_
    exact Nested.item h (fun _ _ => rfl) fun inside hinside =>
      .plain (hplain (hinside.trans ⟨_, hrest.symm⟩))
  | case11 q d p c rest ih =>
    refine RawForm.step ['\\', c] ['\\', softChar c] ih over_escape rfl (fun h =>
      (h.char c).same _) ?_
    rintro - - - ⟨body, behind, rfl, hbody, hbehind⟩
    exact ⟨'\\' :: c :: body, behind, rfl, hbody.escape, hbehind⟩
  | case12 q d p c rest h1 ih =>
    refine RawForm.step [c] [softChar c] ih (over_literal h1 rfl) rfl (·.char c) ?_
    rintro payload behind rfl h
    by_cases hquote : c = q
    · subst hquote
      rw [if_pos rfl] at h
      exact ⟨[], payload, rfl, .nil, h⟩
    · rw [if_neg hquote] at h
      obtain ⟨body, behind, rfl, hbody, hbehind⟩ := h
      refine ⟨c :: body, behind, rfl, .plain hquote (fun hescape => ?_) hbody, hbehind⟩
      cases body with
      | nil => exact h1 _ _ hescape rfl
      | cons x body => exact h1 _ _ hescape rfl
  | case13 d p rest ih =>
    exact RawForm.same ['\n'] ih ⟨rfl, fun _ => rfl⟩ fun _ _ _ h => ⟨[], _, rfl, not_mem_nil, h⟩
  | case14 d p c rest h1 ih =>
    refine RawForm.same [c] ih (over_line h1) ?_
    rintro - - - ⟨body, behind, rfl, hbody, hbehind⟩
    exact ⟨c :: body, behind, rfl, not_mem_cons_of_ne_of_not_mem (Ne.symm h1) hbody, hbehind⟩
  | case15 d p rest ih =>
    exact RawForm.same ['*', '/'] ih ⟨rfl, fun _ => rfl⟩ fun _ _ _ h => ⟨[], _, rfl, by decide, h⟩
  | case16 d p c rest h1 ih =>
    refine RawForm.step [c] [softChar c] ih (over_block h1) rfl (·.char c) ?_
    rintro payload behind rfl ⟨body, inside, rfl, hbody, hinside⟩
    refine ⟨c :: body, inside, rfl, ?_, hinside⟩
    rw [infix_cons_iff]
    rintro (hfront | hin)
    · obtain ⟨hstar, more, rfl⟩ := cons_prefix_cons.mp hfront
      exact h1 _ hstar.symm rfl
    · exact hbody hin

theorem closesRaw_iff : ClosesRaw .code 0 cs ↔ Payload cs := by
  refine ⟨fun h => ?_, Payload.closesRaw⟩
  obtain ⟨next, hread⟩ := h {} []
  cases (rawForm .code 0 {} (cs ++ ['}'])).2 with
  | @closed payload rest hcs hnested =>
    obtain ⟨next', hread'⟩ := Payload.closesRaw hnested {} rest
    rw [hcs, hread'] at hread
    cases hread
    exact hnested
  | toEnd _ hend =>
    have hclosed : true = false := congrArg RawText.closed (hread.symm.trans (hend {}))
    cases hclosed

-- ==== raw blocks

/-- What a raw block covers behind its keyword. -/
def softenRawBlock (cs : List Char) : List Char :=
  let gap := cs.take (scanTrivia .gap {} cs).width
  match cs.drop gap.length with
  | [] => gap
  | c :: body => if c = '{' then gap ++ '{' :: softenRaw .code 0 body else gap

/-- What is read as a raw block: a gap, and a balanced payload in braces,
whatever stands behind.  Anything else is reported. -/
inductive RawBlockForm (cs : List Char) : Prop where
  | closed {g payload behind : List Char} (hcs : cs = g ++ '{' :: (payload ++ '}' :: behind))
      (hg : Gap false g) (hpayload : Payload payload)
  | rejected {issues : List (Nat × ScanIssue)} (hne : issues ≠ [])
      (hread : ∀ p, scanRawBlock p cs = Unplaced.place { issues, soft := softenRawBlock cs } p)

theorem softenRawBlock_brace (hg : Gap false g) (body : List Char) :
    softenRawBlock (g ++ '{' :: body) = g ++ '{' :: softenRaw .code 0 body := by
  unfold softenRawBlock
  rw [hg.scan rfl, take_left]
  dsimp only
  rw [drop_left]
  exact if_pos rfl

theorem scanRawBlock_brace (hg : Gap false g) (body : List Char) (p : Pos)
    (hraw : scanRawText .code 0 ((p.over g).right 1) body = raw) :
    scanRawBlock p (g ++ '{' :: body)
      = { tokens := if raw.closed then [⟨.rawBlock, String.ofList raw.payload, p.over g⟩] else []
          errors := if raw.closed then [] else [⟨.unterminatedRawBlock, p.over g⟩]
          width := g.length + 1 + raw.width
          next := raw.next } := by
  have hgap : scanTrivia .gap p (g ++ '{' :: body) = { width := g.length, next := p.over g } :=
    hg.scan rfl p
  unfold scanRawBlock
  simp only [hgap, drop_left, nil_append, hraw]

/-- A balanced payload in braces behind a gap. -/
theorem scanRawBlock_payload (hg : Gap false g) (hpayload : Payload payload) :
    ∃ soft, soft.length = payload.length + 1 ∧ ∀ behind,
      softenRawBlock (g ++ '{' :: (payload ++ '}' :: behind)) = g ++ '{' :: soft
        ∧ ∀ p, scanRawBlock p (g ++ '{' :: (payload ++ '}' :: behind)) = Unplaced.place
          { words := [(g.length, ⟨.rawBlock, String.ofList payload⟩)],
            soft := g ++ '{' :: soft } p := by
  obtain ⟨soft, hlength, hread⟩ := hpayload.read
  have hsoftLength : (soft ++ ['}']).length = payload.length + 1 := by
    rw [length_append, hlength]
    rfl
  refine ⟨soft ++ ['}'], hsoftLength, fun behind => ?_⟩
  obtain ⟨hsoft, hscan⟩ := hread 0 behind
  refine ⟨by rw [softenRawBlock_brace hg, hsoft]; rfl, fun p => ?_⟩
  have hclose (q : Pos) : scanRawText .code 0 q ('}' :: behind)
      = { closed := true, width := 1, next := q.right 1 } := rfl
  have hnext : p.over (g ++ '{' :: (soft ++ ['}']))
      = (((p.over g).right 1).over soft).right 1 := by
    rw [Pos.over_append, Pos.over_cons, Pos.over_append]
    rfl
  rw [scanRawBlock_brace hg _ _ (hscan _), hclose, Unplaced.place, hnext, length_append,
    length_cons, hsoftLength]
  simp only [RawText.prepend, append_nil, if_true, map_singleton, map_nil, take_left]
  congr 1
  omega

theorem rawBlockForm (cs : List Char) : Softens (softenRawBlock cs) cs ∧ RawBlockForm cs := by
  obtain ⟨front, rest, issues, rfl, hgap, hscan⟩ := scanTrivia_covers cs
  by_cases hopen : ∃ body, rest = '{' :: body
  · obtain ⟨body, rfl⟩ := hopen
    obtain ⟨-, -, atEnd, hg, hend⟩ := hgap.resolve_right fun h => cons_ne_nil _ _ h.2
    obtain rfl : atEnd = false := Bool.eq_false_iff.mpr fun h => cons_ne_nil _ _ (hend h)
    obtain ⟨hsoft, hform⟩ := rawForm .code 0 {} body
    have hsoftens := softenRawBlock_brace hg body
    refine ⟨hsoftens ▸ (hsoft.same '{').prepend front, ?_⟩
    cases hform with
    | closed hcs hnested => exact .closed (by rw [hcs]) hg hnested
    | toEnd hlength hread =>
      refine .rejected (cons_ne_nil (front.length, .unterminatedRawBlock) []) fun p => ?_
      simp only [scanRawBlock_brace hg _ _ (hread _), hsoftens, Unplaced.place, map_nil,
        map_singleton, take_left, Pos.over_append, length_append, length_cons, hlength,
        Bool.false_eq_true, if_false, Nat.add_assoc, Nat.add_comm 1]
      rfl
  · have hsoftens : softenRawBlock (front ++ rest) = front := by
      unfold softenRawBlock
      rw [hscan, Unplaced.place, take_left]
      dsimp only
      rw [drop_left]
      cases rest with
      | nil => rfl
      | cons c rest => exact if_neg fun hc => hopen ⟨rest, congrArg (· :: rest) hc⟩
    refine ⟨hsoftens.symm ▸ .start front rest, .rejected
      (append_ne_nil_of_right_ne_nil issues (cons_ne_nil (front.length, .expectedRawBlock) []))
      fun p => ?_⟩
    unfold scanRawBlock
    have hwidth : (Unplaced.place { issues, soft := front } p).width = front.length := rfl
    rw [hscan, hsoftens]
    dsimp only
    rw [hwidth, drop_left]
    split
    · rename_i body
      exact absurd ⟨body, rfl⟩ hopen
    · simp only [Unplaced.place, map_append, map_singleton, take_length]

end SketchCompiler
