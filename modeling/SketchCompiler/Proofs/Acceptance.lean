/-
What is read without a report: exactly the sources whose words are
derived from the grammar that is read (`Program.accepts_iff_derived`).
That grammar is the published one but for ten rules (`Rule.replaced`).
It neither contains the published one nor is contained in it
(`Program.accepts_other_than_published`).

The items of a source end at its last token, and no item contains that,
so what was read is everything but the end.  Nesting is bounded by the
number of tokens, which leaves room for any derivation of as many words.
-/
import SketchCompiler.Proofs.DeclRules
import SketchCompiler.Proofs.Layout

namespace SketchCompiler

open List Grammar

open Derives (seq_iff seq_empty_iff kind_iff rule_iff seq_tok_iff many_iff)

variable {α β : Type}
  {c c' : Cursor} {ts : List Token} {ws : List Word}

-- ==== the end

theorem Parser.rounds_end {E : Cursor → Prop} {step : α → Parser (Parser.Round α β)}
    (hdone : ∀ a c b c', step a c = .ok (.done b) c' → E c') (bound : List Token) (a : α) {b : β}
    (h : Parser.rounds step bound a c = .ok b c') : E c' := by
  induction bound generalizing a c with
  | nil =>
    change Parser.bind (step a) _ c = _ at h
    unfold Parser.bind at h
    cases hrun : step a c with
    | ok r c₁ =>
      rw [hrun] at h
      cases r with
      | again a₁ => cases h
      | done b₁ =>
        cases h
        exact hdone a c b _ hrun
    | failed | abort | exhausted =>
      rw [hrun] at h
      cases h
  | cons t bound ih =>
    change Parser.bind (step a) _ c = _ at h
    unfold Parser.bind at h
    cases hrun : step a c with
    | ok r c₁ =>
      rw [hrun] at h
      cases r with
      | again a₁ => exact ih a₁ h
      | done b₁ =>
        cases h
        exact hdone a c b _ hrun
    | failed | abort | exhausted =>
      rw [hrun] at h
      cases h

theorem Parser.itemsUntil_end {item : Parser α} {items : List α}
    (h : Parser.itemsUntil .eof item c = .ok items c') : c'.kind = .eof := by
  refine Parser.rounds_end (E := fun e => e.kind = .eof) (fun items c items' c' hstep => ?_)
    c.rest [] h
  change (if c.kind = .eof ∨ c.atEnd = true then _ else _ : Parser _) c = _ at hstep
  by_cases hend : c.kind = .eof ∨ c.atEnd = true
  · rw [if_pos hend] at hstep
    cases hstep
    exact hend.elim id fun h => of_decide_eq_true h
  · rw [if_neg hend] at hstep
    change Parser.bind item _ c = _ at hstep
    unfold Parser.bind at hstep
    cases hrun : item c with
    | ok a c₁ =>
      rw [hrun] at hstep
      cases hstep
    | failed | abort | exhausted =>
      rw [hrun] at hstep
      cases hstep

-- ==== whole sources

theorem items_implements (d : Nat) (hnm : n ≤ m) :
    Implements d (n / 4) anyWord (Parser.itemsUntil .eof (declarationAt n))
      (Parser.itemsUntil .eof (declarationAt m)) (.many (.rule .topDecl)) (· = .eof)
      (List.map (Option.map (Stmt.down d))) anyValue :=
  (implements_at d hnm).declaration.itemsUntil rfl (by decide) (by decide) (by decide) (by decide)

theorem eq_of_read {read : List Token} {stop : Token} (hstop : stop.kind = .eof)
    (hts : ∀ t ∈ ts, t.kind ≠ .eof) (hrest : ts ++ [stop] = read ++ c.rest)
    (hread : ∀ t ∈ read, t.kind ≠ .eof) (hend : c.kind = .eof) : ts = read := by
  rcases append_eq_append_iff.mp hrest with ⟨more, rfl, hmore⟩ | ⟨left, rfl, hleft⟩
  · cases more with
    | nil => exact (append_nil ts).symm
    | cons t more =>
      obtain rfl : stop = t := (List.cons.inj hmore).1
      exact absurd hstop (hread _ (mem_append_right _ mem_cons_self))
  · cases left with
    | nil => exact append_nil read
    | cons t left =>
      have hpeek : c.peek = t := by
        unfold Cursor.peek
        rw [hleft]
        rfl
      have hkind : t.kind = .eof := hpeek ▸ hend
      exact absurd hkind (hts t (mem_append_right _ mem_cons_self))

theorem Program.derived_of_ofTokens {file : String} {stop : Token} {p : Program}
    (hstop : stop.kind = .eof) (hts : ∀ t ∈ ts, t.kind ≠ .eof)
    (h : Program.ofTokens file (ts ++ [stop]) = .ok (p, [])) :
    Derived (.many (.rule .topDecl)) (ts.map Token.word) := by
  have hsound := (items_implements 0 (Nat.le_refl (nesting (ts ++ [stop]).length))).sound
    { file, rest := ts ++ [stop], last := (ts ++ [stop]).getLastD Parser.endMarker } trivial
  unfold Program.ofTokens items at h
  simp only at h
  split at h
  · rename_i items c hrun
    rw [hrun] at hsound
    obtain ⟨-, herr⟩ := Prod.mk.inj (Except.ok.inj h)
    obtain ⟨-, read, hrest, heof, hread⟩ := hsound herr
    obtain rfl := eq_of_read hstop hts hrest heof (Parser.itemsUntil_end hrun)
    exact hread trivial
  · rename_i c hrun
    rw [hrun] at hsound
    obtain ⟨-, herr⟩ := Prod.mk.inj (Except.ok.inj h)
    exact absurd herr hsound
  · cases h
  · cases h

theorem fair_nesting (ts : List Token) (stop : Token) :
    Fair (nesting (ts ++ [stop]).length / 4) anyWord (ts.map Token.word) := by
  refine ⟨?_, fun _ _ => trivial⟩
  unfold nesting
  rw [length_map, length_append, length_singleton]
  omega

theorem Program.ofTokens_of_derived (hstop : stop.kind = .eof)
    (h : Derived (.many (.rule .topDecl)) (ts.map Token.word)) :
    ∃ p, Program.ofTokens file (ts ++ [stop]) = .ok (p, []) := by
  have hread := (items_implements 0 (Nat.le_refl (nesting (ts ++ [stop]).length))).reads _ h
    (fair_nesting ts stop)
  obtain ⟨items, last, hrun, -⟩ := hread.reads rfl
    { file, rest := ts ++ [stop], last := (ts ++ [stop]).getLastD Parser.endMarker } ts [stop] rfl
    rfl hstop
  unfold Program.ofTokens Grammar.items
  simp only
  rw [hrun]
  exact ⟨_, rfl⟩

theorem derived_program (hstop : stop.kind = .eof) :
    Derived (.rule .program) (ws ++ [stop]) ↔ Derived (.many (.rule .topDecl)) ws := by
  constructor
  · intro h
    obtain ⟨u, v, heq, hu, hv⟩ := seq_iff.mp (rule_iff.mp h)
    obtain ⟨w, rfl, -⟩ := kind_iff.mp (seq_empty_iff.mp hv)
    rw [(append_inj' heq rfl).1]
    exact hu
  · intro h
    have hend : Derived (.kind .eof) [stop] := kind_iff.mpr ⟨stop, rfl, hstop⟩
    exact .rule (.seq h (seq_empty_iff.mpr hend))

-- ==== what is read otherwise

/-- The rules that are read otherwise than they are published, and the
one that is not published. -/
def Rule.replaced : List Rule :=
  [.structField, .busDecl, .frequency, .matchArm, .exprStmt, .declarationOrStmt, .assignable,
   .call, .postfixed, .primary, .structName]

theorem Rule.accepted_eq_published (hr : r ∉ Rule.replaced) :
    Rule.accepted r = Rule.published r := by
  cases r
  all_goals first
    | rfl
    | exact absurd (by simp [Rule.replaced]) hr

theorem Token.scan_end (h : Token.scan source = .ok scanned) (herr : scanned.errors = []) :
    ∃ ts stop, scanned.tokens = ts ++ [stop] ∧ stop.kind = .eof ∧ ∀ t ∈ ts, t.kind ≠ .eof := by
  obtain ⟨ts, stop, htokens, hstop, hwritable⟩ := scanFrom_writable h herr
  exact ⟨ts, stop, htokens, congrArg Word.kind hstop,
    fun t ht => hwritable.ne_eof _ (mem_map_of_mem ht)⟩

/-- A source that scans without findings is read without a report exactly
if its words are derived from the grammar that is read, which is the
published one but for some rules. -/
theorem Program.accepts_iff_derived {file source : String} {scanned : Scanned}
    (hscan : Token.scan source = .ok scanned) (herr : scanned.errors = []) :
    ((∃ p, Program.ofTokens file scanned.tokens = .ok (p, []))
        ↔ Derives Rule.accepted (.rule .program) (scanned.tokens.map Token.word))
      ∧ ∀ r ∉ Rule.replaced, Rule.accepted r = Rule.published r := by
  obtain ⟨ts, stop, htokens, hkind, hts⟩ := Token.scan_end hscan herr
  refine ⟨?_, fun r hr => Rule.accepted_eq_published hr⟩
  rw [htokens, List.map_append, List.map_singleton]
  refine Iff.trans ?_ (derived_program hkind).symm
  constructor
  · intro ⟨p, hp⟩
    exact Program.derived_of_ofTokens hkind hts hp
  · exact Program.ofTokens_of_derived hkind

/-- The tokens of a struct whose field starts with `let`. -/
def letFieldTokens : List Token :=
  [⟨.kwStruct, "struct", ⟨1, 1⟩⟩, ⟨.ident, "S", ⟨1, 8⟩⟩, ⟨.lbrace, "\x7b", ⟨1, 10⟩⟩,
   ⟨.kwLet, "let", ⟨1, 12⟩⟩, ⟨.ident, "x", ⟨1, 16⟩⟩, ⟨.colon, ":", ⟨1, 17⟩⟩,
   ⟨.ident, "int", ⟨1, 19⟩⟩, ⟨.semicolon, ";", ⟨1, 22⟩⟩, ⟨.rbrace, "\x7d", ⟨1, 24⟩⟩,
   ⟨.eof, "", ⟨1, 25⟩⟩]

theorem scan_letField :
    Token.scan "struct S \x7b let x: int; \x7d"
      = .ok { tokens := letFieldTokens, errors := [] } := by
  rfl

/-- The struct with `let` in front of its field is derived, as it is
read. -/
theorem Program.accepts_iff_derived_letField :
    Derives Rule.accepted (.rule .program) (letFieldTokens.map Token.word) := by
  have h : (∃ p, Program.ofTokens "" letFieldTokens = .ok (p, [])) ↔ _ :=
    (Program.accepts_iff_derived scan_letField rfl).1
  exact h.mp ⟨_, rfl⟩

/-- The tokens of a member of a cast. -/
def castMemberTokens : List Token :=
  [⟨.ident, "a", ⟨1, 1⟩⟩, ⟨.kwAs, "as", ⟨1, 3⟩⟩, ⟨.ident, "B", ⟨1, 6⟩⟩, ⟨.dot, ".", ⟨1, 7⟩⟩,
   ⟨.ident, "c", ⟨1, 8⟩⟩, ⟨.semicolon, ";", ⟨1, 9⟩⟩, ⟨.eof, "", ⟨1, 10⟩⟩]

theorem scan_castMember :
    Token.scan "a as B.c;" = .ok { tokens := castMemberTokens, errors := [] } := by
  rfl

theorem published_level {r operand : Rule} {operators : List Kind}
    (hr : Rule.published r = Rule.operatorChain operators operand)
    (h : Derives Rule.published (.rule operand) ws) : Derives Rule.published (.rule r) ws := by
  have hnone : Derives Rule.published (.many (.all [.oneOf operators, .rule operand])) [] := .done
  have hbody : Derives Rule.published (Rule.published r) (ws ++ []) := by
    rw [hr]
    exact .seq h (seq_empty_iff.mpr hnone)
  rw [← append_nil ws]
  exact .rule hbody

theorem published_of_call {stop : Word} (hstop : stop.kind = .semicolon)
    (h : Derives Rule.published (.rule .call) ws) :
    Derives Rule.published (.rule .topDecl) (ws ++ [stop]) := by
  have hnone : Derives Rule.published (.many (.oneOf [.increment, .decrement])) [] := .done
  have hpostfixed : Derives Rule.published (.rule .postfixed) (ws ++ []) :=
    .rule (.seq h (seq_empty_iff.mpr hnone))
  rw [append_nil] at hpostfixed
  have hsum : Derives Rule.published (.rule .sum) ws :=
    published_level (r := .sum) rfl
      (published_level (r := .factor) rfl (.rule (.right hpostfixed)))
  have hequality : Derives Rule.published (.rule .equality) ws :=
    published_level rfl (published_level (r := .comparison) rfl
      (published_level (r := .shift) rfl hsum))
  have hor : Derives Rule.published (.rule .logicOr) ws :=
    published_level rfl (published_level (r := .logicAnd) rfl (published_level (r := .bitOr) rfl
      (published_level (r := .bitXor) rfl (published_level (r := .bitAnd) rfl hequality))))
  have hexpr : Derives Rule.published (.rule .expression) ws := .rule (.rule (.right hor))
  have hsemicolon : Derives Rule.published (.kind .semicolon) [stop] :=
    kind_iff.mpr ⟨stop, rfl, hstop⟩
  have hstmt : Derives Rule.published
      ((Rule.published .statement).prune Rule.publishedFirst fun ks => !ks.contains .ident)
      (ws ++ [stop]) := .rule (.seq hexpr (.seq hsemicolon .empty))
  have htop : Derives Rule.published
      ((Rule.published .topDecl).prune Rule.publishedFirst fun ks => !ks.contains .ident)
      (ws ++ [stop]) := .rule (.of_prune (g := Rule.publishing) hstmt)
  exact .rule (.of_prune (g := Rule.publishing) htop)

theorem published_castMember :
    Derives Rule.published (.rule .program) (castMemberTokens.map Token.word) := by
  have hkind : ∀ (kd : Kind) (lexeme : String), Derives Rule.published (.kind kd) [⟨kd, lexeme⟩] :=
    fun kd lexeme => kind_iff.mpr ⟨_, rfl, rfl⟩
  have hprimary : Derives Rule.published (.rule .primary) [⟨.ident, "a"⟩] :=
    .rule (.right (.left (hkind .ident "a")))
  have hcast : Derives Rule.published (.all [.kind .kwAs, .kind .ident])
      [⟨.kwAs, "as"⟩, ⟨.ident, "B"⟩] :=
    .seq (hkind .kwAs "as") (.seq (hkind .ident "B") .empty)
  have hmember : Derives Rule.published (.all [.kind .dot, .kind .ident])
      [⟨.dot, "."⟩, ⟨.ident, "c"⟩] :=
    .seq (hkind .dot ".") (.seq (hkind .ident "c") .empty)
  have hcall : Derives Rule.published (.rule .call)
      [⟨.ident, "a"⟩, ⟨.kwAs, "as"⟩, ⟨.ident, "B"⟩, ⟨.dot, "."⟩, ⟨.ident, "c"⟩] :=
    .rule (.seq hprimary
      (.seq (.more (.right (.right hcast)) (.more (.right (.left hmember)) .done)) .empty))
  have htop : Derives Rule.published (.rule .topDecl) (_ ++ [⟨.semicolon, ";"⟩]) :=
    published_of_call rfl hcall
  exact .rule (.seq (.more htop .done) (.seq (hkind .eof "") .empty))

theorem not_published_letField :
    ¬ Derives Rule.published (.rule .program) (letFieldTokens.map Token.word) := by
  intro h
  obtain ⟨u, v, heq, hu, hv⟩ := seq_iff.mp (rule_iff.mp h)
  obtain ⟨parts, rfl, hparts⟩ := many_iff.mp hu
  cases parts with
  | nil =>
    obtain ⟨w, rfl, hw⟩ := kind_iff.mp (seq_empty_iff.mp hv)
    cases heq
  | cons x parts =>
    have hx : Derives Rule.publishing.body (.rule .topDecl) x := hparts x mem_cons_self
    obtain ⟨w, x', rfl, -⟩ := hx.exists_cons rfl
    rw [flatten_cons, append_assoc] at heq
    obtain rfl : _ = w := (List.cons.inj heq).1
    have hdead : ∀ ks : List Kind, (!ks.contains .kwStruct) = true → Kind.kwStruct ∉ ks := by
      intro ks hks hmem
      rw [contains_iff_mem.mpr hmem] at hks
      cases hks
    have hpruned : Derives Rule.publishing.body
        ((Rule.published .topDecl).prune Rule.publishedFirst fun ks => !ks.contains .kwStruct)
        (⟨.kwStruct, "struct"⟩ :: x') :=
      .prune (g := Rule.publishing) hdead (rule_iff.mp hx)
    have hstruct : Derives Rule.publishing.body (.rule .structDecl)
        (⟨.kwStruct, "struct"⟩ :: x') := hpruned
    obtain ⟨w₁, y₁, h₁, -, hy₁⟩ := seq_tok_iff.mp (rule_iff.mp hstruct)
    obtain ⟨w₂, y₂, rfl, -, hy₂⟩ := seq_tok_iff.mp hy₁
    obtain ⟨w₃, y₃, rfl, -, hy₃⟩ := seq_tok_iff.mp hy₂
    -- behind the brace stands a field, which starts with a name, or the end
    obtain ⟨w₄, y₄, rfl, hw₄⟩ := Derives.exists_cons (g := Rule.publishing) hy₃ rfl
    obtain ⟨rfl, rfl⟩ := List.cons.inj h₁
    have hlet : _ = w₄ := (List.cons.inj (List.cons.inj (List.cons.inj
      (List.cons.inj heq).2).2).2).1
    rw [← hlet] at hw₄
    exact absurd hw₄ (by decide)

/-- What is read is not what is published: a member of a cast is
published and not read, and a struct whose field starts with `let` is
read and not published. -/
theorem Program.accepts_other_than_published :
    (Token.scan "a as B.c;" = .ok { tokens := castMemberTokens, errors := [] }
        ∧ Derives Rule.published (.rule .program) (castMemberTokens.map Token.word)
        ∧ ¬ ∃ p, Program.ofTokens "" castMemberTokens = .ok (p, []))
      ∧ Token.scan "struct S \x7b let x: int; \x7d"
        = .ok { tokens := letFieldTokens, errors := [] }
        ∧ (∃ p, Program.ofTokens "" letFieldTokens = .ok (p, []))
        ∧ ¬ Derives Rule.published (.rule .program) (letFieldTokens.map Token.word) := by
  refine ⟨⟨scan_castMember, published_castMember, ?_⟩, scan_letField, ⟨_, rfl⟩,
    not_published_letField⟩
  intro ⟨p, hp⟩
  have hreport : (match Program.ofTokens "" castMemberTokens with
      | .ok (_, errors) => errors.length
      | .error _ => 0) = 1 := by
    rfl
  rw [hp] at hreport
  cases hreport

end SketchCompiler
