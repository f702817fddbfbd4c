/-
Two sources with a line break between them.  If each is read without a
report, so is the whole, and its declarations are those of the first
followed by those of the second, moved down by the line of the first
source's end marker (`Program.ofSource_append`).

A loop over declarations that has read some goes on behind them as it
would anywhere (`ReadsItems`).  What a declaration is read as depends on
its own words only (`ReadsTwice`), and neither on how much nesting is
allowed nor on what follows, if that is no `else`.
-/
import SketchCompiler.Proofs.Acceptance
import SketchCompiler.Proofs.JoinedScan

namespace SketchCompiler

open List Grammar

variable {ts : List Token} {file : String} {stop : Token}

variable {α : Type}

-- ==== loops of items

theorem Parser.itemStep_done (item : Parser α) (items : List α) (h : c.kind = closing) :
    Parser.itemStep closing item items c = .ok (.done items.reverse) c := by
  show (if c.kind = closing ∨ c.atEnd = true then _ else _ : Parser _) c = _
  rw [if_pos (Or.inl h)]
  rfl

theorem Parser.itemStep_again (items : List α) (hopen : c.kind ≠ .eof) (h : item c = .ok a c') :
    Parser.itemStep .eof item items c = .ok (.again (a :: items)) c' := by
  have hend : ¬ (c.kind = .eof ∨ c.atEnd = true) := by
    rintro (h | h)
    · exact hopen h
    · exact hopen (of_decide_eq_true h)
  show (if c.kind = .eof ∨ c.atEnd = true then _ else _ : Parser _) c = _
  rw [if_neg hend]
  exact Parser.bind_run h

/-- In front of the tokens, a loop over items reads the items `xs` and
goes on behind them. -/
def ReadsItems (item : Parser α) (c : Cursor) (ts rest : List Token) (xs : List α) : Prop :=
  ∀ items result c', Parser.loop (Parser.itemStep .eof item) (xs.reverse ++ items)
      (c.past ts rest) = .ok result c' →
    Parser.loop (Parser.itemStep .eof item) items c = .ok result c'

namespace ReadsItems

variable {item : Parser α} {c : Cursor} {ts ts' rest : List Token} {xs ys : List α}

theorem nil (hrest : c.rest = rest) : ReadsItems item c [] rest [] := by
  intro items result c' h
  rw [c.past_nil hrest] at h
  exact h

theorem single (hne : ts ≠ []) (hrest : c.rest = ts ++ rest) (hopen : c.kind ≠ .eof)
    (h : item c = .ok a (c.past ts rest)) : ReadsItems item c ts rest [a] := by
  intro items result c' hloop
  exact Parser.loop_again hne hrest (Parser.itemStep_again items hopen h) hloop

theorem append (h : ReadsItems item c ts (ts' ++ rest) xs)
    (h' : ReadsItems item (c.past ts (ts' ++ rest)) ts' rest ys) :
    ReadsItems item c (ts ++ ts') rest (xs ++ ys) := by
  intro items result c' hloop
  refine h items result c' (h' _ result c' ?_)
  rw [Cursor.past_past, ← append_assoc, ← reverse_append]
  exact hloop

theorem itemsUntil (h : ReadsItems item c ts rest xs) (hend : headKind rest = .eof) :
    Parser.itemsUntil .eof item c = .ok xs (c.past ts rest) := by
  have hkind : (c.past ts rest).kind = .eof := hend
  refine h [] xs _ (Parser.loop_done ?_)
  rw [Parser.itemStep_done item _ hkind, append_nil, reverse_reverse]

end ReadsItems

-- ==== declarations

theorem topDecl_not_eof : .eof ∉ (Ebnf.rule Rule.topDecl).starts Rule.first := by
  decide

theorem topDecls_stop : Stops (.many (.rule .topDecl)) (· ≠ .kwElse) (· ≠ .kwElse) :=
  ⟨by decide, fun _ _ hk => hk⟩

theorem declarations_read_twice (hnm : n ≤ m) (h : Derived (.many (.rule .topDecl)) ws)
    (hfair : Fair (n / 4) anyWord ws) (c c' : Cursor) (hfile : c'.file = c.file)
    (hleft : c.rest = ts ++ rest) (hright : c'.rest = ts.map (Token.down d) ++ rest')
    (hws : ts.map Token.word = ws) (hS : headKind rest ≠ .kwElse)
    (hS' : headKind rest' ≠ .kwElse) :
    ∃ xs, ReadsItems (declarationAt n) c ts rest xs
      ∧ ReadsItems (declarationAt m) c' (ts.map (Token.down d)) rest'
        (xs.map (Option.map (Stmt.down d))) := by
  obtain ⟨parts, rfl, hparts⟩ := Derives.many_iff.mp h
  clear h
  induction parts generalizing c c' ts with
  | nil =>
    obtain rfl := map_eq_nil_iff.mp hws
    exact ⟨[], .nil hleft, .nil hright⟩
  | cons u parts ih =>
    obtain ⟨hu, hlater⟩ := forall_mem_cons.mp hparts
    rw [flatten_cons] at hws hfair
    obtain ⟨ts₁, ts₂, rfl, h₁, h₂⟩ := map_eq_append_iff.mp hws
    rw [append_assoc] at hleft
    rw [map_append, append_assoc] at hright
    have hmany : Derived (.many (.rule .topDecl)) parts.flatten :=
      Derives.many_iff.mpr ⟨parts, rfl, hlater⟩
    have hmid : headKind (ts₂ ++ rest) ≠ .kwElse := by
      rw [headKind_append h₂]
      exact topDecls_stop.nextKind hmany hS
    have hmid' : headKind (ts₂.map (Token.down d) ++ rest') ≠ .kwElse := by
      rw [headKind_append ((words_down ts₂).trans h₂)]
      exact topDecls_stop.nextKind hmany hS'
    obtain ⟨w, v, rfl, hw⟩ := hu.exists_cons rfl
    have hne : ts₁ ≠ [] := by
      rintro rfl
      cases h₁
    have hne' : ts₁.map (Token.down d) ≠ [] := fun hnil => hne (map_eq_nil_iff.mp hnil)
    have hopen : w.kind ≠ .eof := fun heof => topDecl_not_eof (heof ▸ hw)
    have hkind : c.kind = w.kind := c.kind_eq hleft h₁
    have hkind' : c'.kind = w.kind := c'.kind_eq hright ((words_down ts₁).trans h₁)
    obtain ⟨x, hx, hx', -⟩ := (implements_at d hnm).declaration.reads _ hu hfair.left c c' ts₁ _ _
      hfile hleft hright h₁ hmid hmid'
    obtain ⟨xs, hxs, hxs'⟩ := ih (c.past ts₁ (ts₂ ++ rest))
      (c'.past (ts₁.map (Token.down d)) (ts₂.map (Token.down d) ++ rest')) hfile rfl rfl hlater
      hfair.right h₂
    refine ⟨x :: xs, ?_, ?_⟩
    · exact (ReadsItems.single hne hleft (hkind ▸ hopen) hx).append hxs
    · rw [map_append]
      exact (ReadsItems.single hne' hright (hkind' ▸ hopen) hx').append hxs'

-- ==== whole sources

/-- The cursor in front of a token list. -/
def Cursor.start (file : String) (tokens : List Token) : Cursor :=
  { file, rest := tokens, last := tokens.getLastD Parser.endMarker }

theorem Program.ofTokens_of_readsItems (hstop : stop.kind = .eof)
    (h : ReadsItems (declarationAt (nesting (ts ++ [stop]).length))
      (Cursor.start file (ts ++ [stop])) ts [stop] xs) :
    ∃ p, Program.ofTokens file (ts ++ [stop]) = .ok (p, [])
      ∧ p.declarations = xs.filterMap id := by
  have hrun := h.itemsUntil hstop
  unfold Cursor.start at hrun
  unfold Program.ofTokens Grammar.items
  simp only
  rw [hrun]
  exact ⟨_, rfl, rfl⟩

theorem end_ne_else (h : stop.kind = .eof) : headKind [stop] ≠ .kwElse := by
  show stop.kind ≠ _
  rw [h]
  decide

theorem nesting_mono (h : m ≤ n) : nesting m ≤ nesting n := by
  unfold nesting
  omega

theorem Program.read_elsewhere (d : Nat) (hstop : stop.kind = .eof)
    (hts : ∀ t ∈ ts, t.kind ≠ .eof) (h : Program.ofTokens file (ts ++ [stop]) = .ok (p, []))
    (hroom : nesting (ts ++ [stop]).length ≤ m) (hfile : c.file = file)
    (hrest : c.rest = ts.map (Token.down d) ++ rest) (hbehind : headKind rest ≠ .kwElse) :
    ∃ xs, ReadsItems (declarationAt m) c (ts.map (Token.down d)) rest xs
      ∧ xs.filterMap id = p.declarations.map (Stmt.down d) := by
  obtain ⟨xs, hxs, hxs'⟩ := declarations_read_twice hroom
    (Program.derived_of_ofTokens hstop hts h) (fair_nesting ts stop)
    (Cursor.start file (ts ++ [stop])) c hfile rfl hrest rfl (end_ne_else hstop) hbehind
  obtain ⟨q, hq, hdecls⟩ := Program.ofTokens_of_readsItems hstop hxs
  obtain rfl : q = p := (Prod.mk.inj (Except.ok.inj (hq.symm.trans h))).1
  exact ⟨_, hxs', by rw [filterMap_down, hdecls]⟩

theorem tokens_down_zero (ts : List Token) : ts.map (Token.down 0) = ts :=
  map_id'' (fun _ => rfl) ts

/-- Moved by no lines, declarations stay where they are: the tokens are
read where they stand. -/
theorem Program.declarations_down_zero (hstop : stop.kind = .eof)
    (hts : ∀ t ∈ ts, t.kind ≠ .eof) (h : Program.ofTokens file (ts ++ [stop]) = .ok (p, [])) :
    p.declarations.map (Stmt.down 0) = p.declarations := by
  have hrest : (Cursor.start file (ts ++ [stop])).rest = ts.map (Token.down 0) ++ [stop] := by
    rw [tokens_down_zero]
    rfl
  obtain ⟨xs, hxs, hmoved⟩ :=
    Program.read_elsewhere 0 hstop hts h (Nat.le_refl _) rfl hrest (end_ne_else hstop)
  rw [tokens_down_zero] at hxs
  obtain ⟨q, hq, hdecls⟩ := Program.ofTokens_of_readsItems hstop hxs
  obtain rfl : q = p := (Prod.mk.inj (Except.ok.inj (hq.symm.trans h))).1
  rw [← hmoved, hdecls]

theorem Program.ofTokens_append (d : Nat) (hstop : stop.kind = .eof) (hstop' : stop'.kind = .eof)
    (hts : ∀ t ∈ ts, t.kind ≠ .eof) (hus : ∀ t ∈ us, t.kind ≠ .eof)
    (h : Program.ofTokens file (ts ++ [stop]) = .ok (p, []))
    (h' : Program.ofTokens file (us ++ [stop']) = .ok (p', [])) :
    ∃ q, Program.ofTokens file (ts ++ (us ++ [stop']).map (Token.down d)) = .ok (q, [])
      ∧ q.declarations = p.declarations ++ p'.declarations.map (Stmt.down d) := by
  let us' := us.map (Token.down d)
  let last := stop'.down d
  have hwhole : ts ++ (us ++ [stop']).map (Token.down d) = ts ++ us' ++ [last] := by
    rw [map_append, map_singleton, append_assoc]
  have hlength : (ts ++ us' ++ [last]).length = ts.length + us.length + 1 := by
    simp only [us', length_append, length_map, length_singleton]
  have hroom : nesting (ts ++ [stop]).length ≤ nesting (ts ++ us' ++ [last]).length := by
    apply nesting_mono
    rw [hlength, length_append, length_singleton]
    omega
  have hroom' : nesting (us ++ [stop']).length ≤ nesting (ts ++ us' ++ [last]).length := by
    apply nesting_mono
    rw [hlength, length_append, length_singleton]
    omega
  have hend : last.kind = .eof := hstop'
  have hlast : headKind [last] ≠ .kwElse := end_ne_else hend
  have hsecond : headKind (us' ++ [last]) ≠ .kwElse := by
    rw [headKind_append (words_down us)]
    exact topDecls_stop.nextKind (Program.derived_of_ofTokens hstop' hus h') hlast
  have hfront : (Cursor.start file (ts ++ us' ++ [last])).rest
      = ts.map (Token.down 0) ++ (us' ++ [last]) := by
    rw [tokens_down_zero, ← append_assoc]
    rfl
  have hback : ((Cursor.start file (ts ++ us' ++ [last])).past ts (us' ++ [last])).rest
      = us.map (Token.down d) ++ [last] := rfl
  obtain ⟨xs, hxs, hxs'⟩ := Program.read_elsewhere 0 hstop hts h hroom rfl hfront hsecond
  obtain ⟨ys, hys, hys'⟩ := Program.read_elsewhere d hstop' hus h' hroom' rfl hback hlast
  rw [tokens_down_zero] at hxs
  obtain ⟨q, hq, hdecls⟩ := Program.ofTokens_of_readsItems hend (hxs.append hys)
  refine ⟨q, ?_, ?_⟩
  · rw [hwhole]
    exact hq
  · rw [hdecls, filterMap_append, hxs', hys',
      Program.declarations_down_zero hstop hts h]

/-- Nothing was reported. -/
structure Source.Clean (s : Source) : Prop where
  scan : s.scanErrors = []
  parse : s.parseErrors = []

/-- The source is read, and nothing is reported. -/
def Program.readsClean (file source : String) : Bool :=
  match Program.ofSource file source with
  | .ok s => s.scanErrors.isEmpty && s.parseErrors.isEmpty
  | .error _ => false

theorem Program.exists_clean (h : Program.readsClean file source = true) :
    ∃ s, Program.ofSource file source = .ok s ∧ s.Clean := by
  unfold Program.readsClean at h
  split at h
  · rename_i s hs
    obtain ⟨hscan, hparse⟩ := Bool.and_eq_true_iff.mp h
    exact ⟨s, hs, isEmpty_iff.mp hscan, isEmpty_iff.mp hparse⟩
  · cases h

/-- Two sources with a line break between them are read as they are read
each: the tokens and the declarations of the first, then those of the
second, moved down by the line of the first source's end marker. -/
theorem Program.ofSource_append {file a b : String} {sa sb : Source}
    (ha : Program.ofSource file a = .ok sa) (hb : Program.ofSource file b = .ok sb)
    (hca : sa.Clean) (hcb : sb.Clean) :
    ∃ ts stop us s, Token.scan a = .ok { tokens := ts ++ [stop], errors := [] }
      ∧ stop.kind = .eof ∧ Token.scan b = .ok { tokens := us, errors := [] }
      ∧ Token.scan (a ++ "\n" ++ b)
        = .ok { tokens := ts ++ us.map (Token.down stop.pos.line), errors := [] }
      ∧ Program.ofSource file (a ++ "\n" ++ b) = .ok s ∧ s.Clean
      ∧ s.program.declarations
        = sa.program.declarations ++ sb.program.declarations.map (Stmt.down stop.pos.line) := by
  obtain ⟨tokens, hscan, hread⟩ := Program.ofSource_ok ha
  obtain ⟨tokens', hscan', hread'⟩ := Program.ofSource_ok hb
  rw [hca.scan] at hscan
  rw [hcb.scan] at hscan'
  rw [hca.parse] at hread
  rw [hcb.parse] at hread'
  obtain ⟨ts, stop, htokens, hstop, hts⟩ := Token.scan_end hscan rfl
  obtain ⟨us, stop', htokens', hstop', hus⟩ := Token.scan_end hscan' rfl
  obtain rfl : tokens = ts ++ [stop] := htokens
  obtain rfl : tokens' = us ++ [stop'] := htokens'
  have hjoin : Token.scan (a ++ "\n" ++ b) = .ok
      { tokens := ts ++ (us ++ [stop']).map (Token.down stop.pos.line), errors := [] } := by
    rw [Token.scan_append hscan b, hscan']
    rfl
  obtain ⟨q, hq, hdecls⟩ :=
    Program.ofTokens_append stop.pos.line hstop hstop' hts hus hread hread'
  refine ⟨ts, stop, us ++ [stop'], { program := q, scanErrors := [], parseErrors := [] }, hscan,
    hstop, hscan', hjoin, ?_, ⟨rfl, rfl⟩, hdecls⟩
  unfold Program.ofSource
  rw [hjoin]
  simp only [Except.mapError, bind, Except.bind, hq, pure, Except.pure]

/-- A source of two lines that ends in a comment. -/
def commentedLoop : String :=
  "import \"a\";\nloop \x7b \x7d // end"

/-- The tokens of that source. -/
def commentedLoopTokens : List Token :=
  [⟨.kwImport, "import", ⟨1, 1⟩⟩, ⟨.string, "a", ⟨1, 8⟩⟩, ⟨.semicolon, ";", ⟨1, 11⟩⟩,
   ⟨.kwLoop, "loop", ⟨2, 1⟩⟩, ⟨.lbrace, "\x7b", ⟨2, 6⟩⟩, ⟨.rbrace, "\x7d", ⟨2, 8⟩⟩]

/-- The comment ends with its line, and what comes behind it is two lines
further down. -/
theorem Program.ofSource_append_commentedLoop :
    ∃ sa sb s, Program.ofSource "" commentedLoop = .ok sa ∧ sa.Clean
      ∧ Program.ofSource "" "a++;" = .ok sb ∧ sb.Clean
      ∧ Program.ofSource "" (commentedLoop ++ "\n" ++ "a++;") = .ok s
      ∧ s.program.declarations
        = sa.program.declarations ++ sb.program.declarations.map (Stmt.down 2) := by
  have hscan : Token.scan commentedLoop
      = .ok { tokens := commentedLoopTokens ++ [⟨.eof, "", ⟨2, 16⟩⟩], errors := [] } := rfl
  have hfirst : Program.readsClean "" commentedLoop = true := by decide +kernel
  have hsecond : Program.readsClean "" "a++;" = true := by decide +kernel
  obtain ⟨sa, ha, hca⟩ := Program.exists_clean hfirst
  obtain ⟨sb, hb, hcb⟩ := Program.exists_clean hsecond
  obtain ⟨ts, stop, us, s, hts, -, -, -, hs, -, hdecls⟩ := Program.ofSource_append ha hb hca hcb
  have htokens : commentedLoopTokens ++ [⟨.eof, "", ⟨2, 16⟩⟩] = ts ++ [stop] :=
    congrArg Scanned.tokens (Except.ok.inj (hscan.symm.trans hts))
  have hline : stop.pos.line = 2 := by
    obtain ⟨-, hstop⟩ := List.append_inj' htokens rfl
    rw [← (List.cons.inj hstop).1]
  rw [hline] at hdecls
  exact ⟨sa, sb, s, ha, hca, hb, hcb, hs, hdecls⟩

end SketchCompiler
