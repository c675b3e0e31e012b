import ProgramQuery.Proofs.MatchedTokens
import ProgramQuery.Proofs.SourceMatches

/-!
# Every match is of a written source

What the rules of expressions, statements and procedures match is written as their trees say: tokens
and gaps in order and nothing else. So a text that is matched as a program writes the procedures
that are read off its trees (`writes_of_trees?`), and it is read as what it writes and as nothing
else (`ofText?_eq_some_iff`).

Where a match may include the gap after it, its end is known up to that gap.
-/

set_option autoImplicit false

namespace ProgramQuery

open Grammar Reading

variable {c c₀ c' : Cursor} {depth : Nat} {m : Match Rule}

namespace Source

/-! ## Expressions -/

namespace Expr

variable {rank : Rank}

/-- The match is of a written expression, perhaps with the gap after it. -/
def IsMatch (rank : Rank) (c : Cursor) (m : Match Rule) : Prop :=
  ∃ t e c', m.trees = [t] ∧ ofTree? t = some e ∧ e.Written rank c c' ∧ skipGap m.stop = skipGap c'

/-- In front of an expression, what is skipped is a gap. -/
theorem Written.gap_skipGap {e : Expr} (h : e.Written rank (skipGap c) c') :
    Reading.gap c (skipGap c) := by
  apply Grammar.gap_skipGap
  intro hnil
  have hlt := h.length_lt
  rw [hnil] at hlt
  exact absurd hlt (Nat.not_lt_zero _)

/-- Every operator is written with at least one character. -/
theorem symbol_ne_nil (op : Operator) : op.symbol.toList ≠ [] := by
  cases op <;> decide

/-- **Operators and operands** after an expression make a larger expression. -/
theorem written_of_operators (hrank : rank ≠ .factor) {s : Cursor}
    (hoperand : ∀ c m, simple.matchRule depth false rank.operand.rule c = some m →
      IsMatch rank.operand c m)
    {lhs : Expr} {c₁ : Cursor} (hlhs : lhs.Written rank c c₁) (hs : skipGap s = skipGap c₁)
    (h : (Pattern.star (.seq (.rule rank.signRule) (.rule rank.operand.rule))).run skipGap
      (simple.matchRule depth false) (skipGap s) = some m) :
    ∃ e c', ofOperators? lhs m.trees = some e ∧ e.Written rank c c' ∧
      skipGap m.stop = skipGap c' := by
  obtain ⟨stop, hall, hend⟩ : ∃ stop, (∀ lhs c₁, lhs.Written rank c c₁ → skipGap s = skipGap c₁ →
      ∃ e c', ofOperators? lhs m.trees = some e ∧ e.Written rank c c' ∧ skipGap stop = skipGap c') ∧
      skipGap m.stop = skipGap stop := by
    refine run_star_induction skipGap_idem (P := fun s ts stop => ∀ lhs c₁, Written lhs rank c c₁ →
      skipGap s = skipGap c₁ → ∃ e c', ofOperators? lhs ts = some e ∧ Written e rank c c' ∧
        skipGap stop = skipGap c') ?_ ?_ h
    · intro s lhs c₁ hlhs hs
      exact ⟨lhs, c₁, by rw [ofOperators?], hlhs, hs⟩
    · intro s element ts stop helement ih lhs c₁ hlhs hs
      obtain ⟨sign, operand, hsign, hmatch, rfl⟩ := run_seq_eq_some helement
      obtain ⟨op, hop, htoken, hsignTrees⟩ := sign_of_matchRule hrank hsign
      obtain ⟨t, rhs, c₂, hoperandTrees, hvalue, hrhs, hstop⟩ := hoperand _ _ hmatch
      rw [hs] at htoken
      subst hop
      have hbinary : (Expr.binary op lhs rhs).Written op.rank c c₂ :=
        .binary hlhs (gap_of_token (symbol_ne_nil op) htoken) htoken hrhs.gap_skipGap hrhs
      obtain ⟨e, c', he, hwritten, hend⟩ := ih _ _ hbinary hstop
      refine ⟨e, c', ?_, hwritten, hend⟩
      rw [hsignTrees, hoperandTrees]
      simp [ofOperators?, hvalue, he]
  obtain ⟨e, c', he, hwritten, hstop⟩ := hall lhs c₁ hlhs hs
  exact ⟨e, c', he, hwritten, hend.trans hstop⟩

/-- A match of a rank is of operands with operators between them, each of which is written. -/
theorem isMatch_of_operands (hrank : rank ≠ .factor)
    (hoperand : ∀ c m, simple.matchRule depth false rank.operand.rule c = some m →
      IsMatch rank.operand c m)
    (h : simple.matchRule (depth + 1) false rank.rule c = some m) : IsMatch rank c m := by
  have hpattern : rank.rule.pattern = .seq (.rule rank.operand.rule)
      (.star (.seq (.rule rank.signRule) (.rule rank.operand.rule))) := by
    cases rank with
    | factor => exact absurd rfl hrank
    | _ => rfl
  have hrule : rank.rule.isAtomic = false ∧ rank.rule.isSilent = false := by
    cases rank with
    | factor => exact absurd rfl hrank
    | _ => exact ⟨rfl, rfl⟩
  obtain ⟨ts, hrun, htrees⟩ := matchRule_branch_eq_some hrule.1 hrule.2 h
  rw [hpattern] at hrun
  obtain ⟨first, more, hfirst, hmore, heq⟩ := run_seq_eq_some hrun
  obtain ⟨hstop, rfl⟩ := Match.mk.inj heq
  obtain ⟨t, e, c₁, htrees', hvalue, hwritten, hstop'⟩ := hoperand _ _ hfirst
  obtain ⟨e', c', he', hwritten', hend⟩ :=
    written_of_operators hrank hoperand (.operand hrank hwritten) hstop' hmore
  rw [htrees'] at htrees
  refine ⟨_, e', c', htrees, ?_, hwritten', hstop ▸ hend⟩
  cases rank with
  | factor => exact absurd rfl hrank
  | _ => simp [ParseTree.ofMatch, Rank.rule, ofTree?, ofOperands?, hvalue, he']

/-- A match of a factor is of a name, a number, or an expression in parentheses. -/
theorem isMatch_of_factor
    (hexpr : ∀ c m, simple.matchRule depth false .expr c = some m → IsMatch .sum c m)
    (h : simple.matchRule (depth + 1) false .factor c = some m) : IsMatch .factor c m := by
  have hrun := matchRule_silent_eq_some rfl rfl h
  rcases Option.or_eq_some_iff.mp hrun with hrun | ⟨-, hrun⟩
  · rcases Option.or_eq_some_iff.mp hrun with hname | ⟨-, hinteger⟩
    · obtain ⟨x, hx, -, htrees⟩ := name_of_matchRule hname
      exact ⟨_, .var x, m.stop, htrees, by rw [ofTree?], .var hx, rfl⟩
    · obtain ⟨digits, hne, hdigits, htoken, htrees⟩ := integer_of_matchRule hinteger
      exact ⟨_, _, m.stop, htrees, by rw [ofTree?], .literal hne hdigits htoken, rfl⟩
  · obtain ⟨inner, close, hinner, hclose, heq⟩ := run_seq_eq_some hrun
    obtain ⟨opening, expr, hopen, hmatch, rfl⟩ := run_seq_eq_some hinner
    obtain ⟨t, e, c₁, htrees, hvalue, hwritten, hstop⟩ := hexpr _ _ hmatch
    obtain ⟨hopen, hnone⟩ := run_chars_eq_some hopen
    obtain ⟨hclose, hnone'⟩ := run_chars_eq_some hclose
    cases heq
    rw [hstop] at hclose
    have hsign : token ")" (skipGap c₁) close.stop := hclose
    refine ⟨t, e, close.stop, by simp [hnone, hnone', htrees], hvalue, ?_, rfl⟩
    exact .paren hopen hwritten.gap_skipGap hwritten (gap_of_token (by decide) hsign) hsign

/-- **The rules of expressions** match what is written as an expression. -/
theorem isMatch_of_matchRule (depth : Nat) (rank : Rank) {c : Cursor} {m : Match Rule}
    (h : simple.matchRule depth false rank.rule c = some m) : IsMatch rank c m := by
  induction depth generalizing rank c m with
  | zero => cases h
  | succ depth ih =>
    by_cases hrank : rank = .factor
    · subst hrank
      exact isMatch_of_factor (fun c m => ih .sum) h
    · exact isMatch_of_operands hrank (fun c m => ih rank.operand) h

end Expr

/-! ## Statements -/

/-- Between a word that has ended and a name, there is something. -/
theorem apart_of_name {x : String} (hends : Ends c) (h : Reading.name x (skipGap c) c') :
    apart c (skipGap c) := by
  obtain ⟨first, more, heq, hfirst, -⟩ := h.1.letters
  have hreads := h.2
  rw [token, heq] at hreads
  have hne : (skipGap c).rest ≠ [] := by
    rw [hreads.rest_eq]
    simp
  exact apart_of_ends hends (gap_skipGap hne) hreads.head?_eq (by simp [isNameChar, hfirst])

/-- A keyword and a name, and then the rest of a rule. -/
theorem keyword_name_of_run {r : Rule} {more : List (Pattern Rule)} (hr : r.spellings ≠ [])
    (h : (inOrder (.rule r) (.rule .name :: more)).run skipGap (simple.matchRule depth false) c =
      some m) :
    ∃ w ∈ r.spellings, ∃ c₁ x c₂ ts, token w c c₁ ∧ apart c₁ (skipGap c₁) ∧
      Reading.name x (skipGap c₁) c₂ ∧
      Ends c₂ ∧ RunsInOrder skipGap (simple.matchRule depth false) more c₂ ts m.stop ∧
      m.trees = .leaf r ⟨c.pos, c₁.pos⟩ w :: .leaf .name ⟨(skipGap c₁).pos, c₂.pos⟩ x :: ts := by
  obtain ⟨c₁, ts₁, ts₂, hword, hmore, htrees⟩ := run_inOrder_eq_some h
  obtain ⟨w, hw, htoken, hends, hleaf⟩ := keyword_of_matchRule hr hword
  obtain ⟨name, ts, hname, hrest, hts⟩ := hmore.of_cons
  obtain ⟨x, hx, hends', hleaf'⟩ := name_of_matchRule hname
  simp only at htoken hends hleaf
  refine ⟨w, hw, c₁, x, name.stop, ts, htoken, apart_of_name hends hx, hx, hends', hrest, ?_⟩
  rw [htrees, hts, hleaf, hleaf']
  rfl

/-- The match is of a written statement, which puts itself in front of the rest of its list. -/
def IsStmtMatch (c : Cursor) (m : Match Rule) : Prop :=
  ∃ t, m.trees = [t] ∧ ∃ put : Block → Block, ∀ rest,
    Block.ofStmt? rest t = some (put rest) ∧ put rest ≠ .done ∧
      ∀ c₁ c', gap m.stop c₁ → rest.Written c₁ c' → (put rest).Written c c'

/-- The match is of a written statement list, if more text comes after it. -/
def Block.IsMatch (c : Cursor) (m : Match Rule) : Prop :=
  (skipGap m.stop).rest ≠ [] → ∃ t block, m.trees = [t] ∧ Block.ofTree? t = some block ∧
    block ≠ .done ∧ block.Written c (skipGap m.stop)

/-- Where a block is written before some text, there is text to begin with. -/
theorem Block.Written.rest_ne_nil {block : Block} (h : block.Written c c') (hne : c'.rest ≠ []) :
    c.rest ≠ [] := by
  intro hnil
  have hle := h.length_le
  rw [hnil] at hle
  exact hne (List.eq_nil_of_length_eq_zero (Nat.le_zero.mp hle))

/-- A match of a list in braces is of a written list that more text comes after. -/
theorem braces_of_runsInOrder (more : List (Pattern Rule)) {ts : List (ParseTree Rule)}
    (hlist : ∀ c m, simple.matchRule depth false .stmtList c = some m → Block.IsMatch c m)
    (h : RunsInOrder skipGap (simple.matchRule depth false) (blockPattern ++ more) c₀ ts c') :
    ∃ t block c₁ ts', ts = t :: ts' ∧ Block.ofTree? t = some block ∧
      braces block block.Written (skipGap c₀) c₁ ∧ (skipGap c₀).rest ≠ [] ∧
      RunsInOrder skipGap (simple.matchRule depth false) more c₁ ts' c' := by
  obtain ⟨opening, ts₁, hopen, h₁, hts⟩ := h.of_cons
  obtain ⟨list, ts₂, hmatch, h₂, rfl⟩ := h₁.of_cons
  obtain ⟨closing, ts₃, hclose, hrest, rfl⟩ := h₂.of_cons
  obtain ⟨hopen, hnone⟩ := run_chars_eq_some hopen
  obtain ⟨hclose, hnone'⟩ := run_chars_eq_some hclose
  have hopen : token "\x7b" (skipGap c₀) opening.stop := hopen
  have hclose : token "\x7d" (skipGap list.stop) closing.stop := hclose
  have hmore : (skipGap list.stop).rest ≠ [] := rest_ne_nil_of_token (by decide) hclose
  obtain ⟨t, block, htrees, hvalue, hne, hwritten⟩ := hlist _ _ hmatch hmore
  refine ⟨t, block, closing.stop, ts₃, by simp [hts, hnone, hnone', htrees], hvalue, ?_,
    rest_ne_nil_of_token (by decide) hopen, hrest⟩
  exact ⟨_, hopen, _, gap_skipGap (hwritten.rest_ne_nil hmore), _, ⟨hne, hwritten⟩, _, hclose, rfl⟩

/-- A match of an assignment is of a written one. -/
theorem isStmtMatch_assign (h : simple.matchRule (depth + 1) false .assignStmt c = some m) :
    IsStmtMatch c m := by
  obtain ⟨ts, hrun, htrees⟩ := matchRule_branch_eq_some rfl rfl h
  obtain ⟨c₁, ts₁, ts₂, hname, h₁, rfl⟩ := run_inOrder_eq_some hrun
  obtain ⟨x, hx, -, hleaf⟩ := name_of_matchRule hname
  obtain ⟨sign, ts₃, hsign, h₂, rfl⟩ := h₁.of_cons
  obtain ⟨value, ts₄, hvalue, h₃, rfl⟩ := h₂.of_cons
  obtain ⟨last, ts₅, hlast, h₄, rfl⟩ := h₃.of_cons
  obtain ⟨rfl, hstop⟩ := h₄.of_nil
  obtain ⟨hsign, hnone⟩ := run_chars_eq_some hsign
  obtain ⟨hlast, hnone'⟩ := run_chars_eq_some hlast
  obtain ⟨t, e, c₂, htree, he, hwritten, hend⟩ := Expr.isMatch_of_matchRule depth .sum hvalue
  rw [hend] at hlast
  have hsign : token "=" (skipGap c₁) sign.stop := hsign
  have hlast : token ";" (skipGap c₂) last.stop := hlast
  simp only at hleaf
  rw [hleaf, hnone, hnone', htree] at htrees
  refine ⟨_, htrees, .assign x e, fun rest => ⟨?_, by simp, ?_⟩⟩
  · simp [ParseTree.ofMatch, Block.ofStmt?, he]
  · intro c₃ c' hgap hrest
    rw [← hstop] at hgap
    refine ⟨last.stop, ?_, c₃, hgap, c', hrest, rfl⟩
    exact ⟨_, hx, _, gap_of_token (by decide) hsign, _, hsign, _, hwritten.gap_skipGap, _, hwritten,
      _, gap_of_token (by decide) hlast, _, hlast, rfl⟩

/-- A match of a call is of a written one. -/
theorem isStmtMatch_call (h : simple.matchRule (depth + 1) false .callStmt c = some m) :
    IsStmtMatch c m := by
  obtain ⟨ts, hrun, htrees⟩ := matchRule_branch_eq_some rfl rfl h
  obtain ⟨w, hw, c₁, x, c₂, ts₁, htoken, hapart, hx, -, h₁, rfl⟩ :=
    keyword_name_of_run (r := .kwCall) (by decide) hrun
  cases List.mem_singleton.mp hw
  obtain ⟨last, ts₂, hlast, h₂, rfl⟩ := h₁.of_cons
  obtain ⟨rfl, hstop⟩ := h₂.of_nil
  obtain ⟨hlast, hnone⟩ := run_chars_eq_some hlast
  have hlast : token ";" (skipGap c₂) last.stop := hlast
  rw [hnone] at htrees
  refine ⟨_, htrees, .call ⟨x, ⟨(skipGap c₁).pos, c₂.pos⟩⟩, fun rest => ⟨?_, by simp, ?_⟩⟩
  · simp [ParseTree.ofMatch, Block.ofStmt?]
  · intro c₃ c' hgap hrest
    rw [← hstop] at hgap
    refine ⟨last.stop, ?_, c₃, hgap, c', hrest, rfl⟩
    exact ⟨_, htoken, _, hapart, _, ⟨rfl, hx⟩, _, gap_of_token (by decide) hlast, _, hlast, rfl⟩

/-- A match of a loop is of a written one, if those of lists are. -/
theorem isStmtMatch_loop
    (hlist : ∀ c m, simple.matchRule depth false .stmtList c = some m → Block.IsMatch c m)
    (h : simple.matchRule (depth + 1) false .whileStmt c = some m) : IsStmtMatch c m := by
  obtain ⟨ts, hrun, htrees⟩ := matchRule_branch_eq_some rfl rfl h
  obtain ⟨w, hw, c₁, x, c₂, ts₁, htoken, hapart, hx, -, h₁, rfl⟩ :=
    keyword_name_of_run (r := .kwWhile) (by decide) hrun
  cases List.mem_singleton.mp hw
  obtain ⟨t, body, c₃, ts₂, rfl, hvalue, hbody, hopen, h₂⟩ := braces_of_runsInOrder [] hlist h₁
  obtain ⟨rfl, hstop⟩ := h₂.of_nil
  refine ⟨_, htrees, .loop x body, fun rest => ⟨?_, by simp, ?_⟩⟩
  · simp [ParseTree.ofMatch, Block.ofStmt?, hvalue]
  · intro c₄ c' hgap hrest
    rw [← hstop] at hgap
    refine ⟨c₃, ?_, c₄, hgap, c', hrest, rfl⟩
    exact ⟨_, htoken, _, hapart, _, hx, _, gap_skipGap hopen, _, hbody, rfl⟩

/-- The word `then` is written or not. -/
theorem beforeBranch_of_run (hends : Ends c)
    (h : (Pattern.opt (.rule .kwThen)).run skipGap (simple.matchRule depth false) (skipGap c) =
      some m)
    (hnext : (skipGap m.stop).rest ≠ []) :
    beforeBranch c (skipGap m.stop) ∧
      (m.trees = [] ∨ ∃ span, m.trees = [.leaf .kwThen span "then"]) := by
  rcases Option.or_eq_some_iff.mp h with hword | ⟨-, heq⟩
  · obtain ⟨w, hw, htoken, -, hleaf⟩ := keyword_of_matchRule (r := .kwThen) (by decide) hword
    cases List.mem_singleton.mp hw
    have happart : apart c (skipGap c) :=
      apart_of_ends hends (gap_of_token (by decide) htoken) htoken.head?_eq (by decide)
    exact ⟨Or.inr ⟨_, happart, _, htoken, _, gap_skipGap hnext, rfl⟩, Or.inr ⟨_, hleaf⟩⟩
  · cases heq
    rw [skipGap_idem] at hnext ⊢
    exact ⟨Or.inl (gap_skipGap hnext), Or.inl rfl⟩

/-- A match of a conditional is of a written one, if those of lists are. -/
theorem isStmtMatch_branch
    (hlist : ∀ c m, simple.matchRule depth false .stmtList c = some m → Block.IsMatch c m)
    (h : simple.matchRule (depth + 1) false .ifStmt c = some m) : IsStmtMatch c m := by
  obtain ⟨ts, hrun, htrees⟩ := matchRule_branch_eq_some rfl rfl h
  obtain ⟨w, hw, c₁, x, c₂, ts₁, htoken, hapart, hx, hends, h₁, rfl⟩ :=
    keyword_name_of_run (r := .kwIf) (by decide) hrun
  cases List.mem_singleton.mp hw
  obtain ⟨option, ts₂, hoption, h₂, rfl⟩ := h₁.of_cons
  obtain ⟨t, thenBody, c₃, ts₃, rfl, hthenValue, hthen, hopen, h₃⟩ :=
    braces_of_runsInOrder _ hlist h₂
  obtain ⟨hbefore, hoptional⟩ := beforeBranch_of_run hends hoption hopen
  obtain ⟨other, ts₄, hother, h₄, rfl⟩ := h₃.of_cons
  obtain ⟨w, hw, hotherToken, -, hleaf⟩ := keyword_of_matchRule (r := .kwElse) (by decide) hother
  cases List.mem_singleton.mp hw
  obtain ⟨t', elseBody, c₄, ts₅, rfl, helseValue, helse, hopen', h₅⟩ :=
    braces_of_runsInOrder [] hlist h₄
  obtain ⟨rfl, hstop⟩ := h₅.of_nil
  rw [hleaf] at htrees
  refine ⟨_, htrees, .branch x thenBody elseBody, fun rest => ⟨?_, by simp, ?_⟩⟩
  · rcases hoptional with hnone | ⟨span, hone⟩
    · simp [ParseTree.ofMatch, Block.ofStmt?, hnone, hthenValue, helseValue]
    · simp [ParseTree.ofMatch, Block.ofStmt?, hone, hthenValue, helseValue]
  · intro c₅ c' hgap hrest
    rw [← hstop] at hgap
    refine ⟨c₄, ?_, c₅, hgap, c', hrest, rfl⟩
    exact ⟨_, htoken, _, hapart, _, hx, _, hbefore, _, hthen, _,
      gap_of_token (by decide) hotherToken, _, hotherToken, _, gap_skipGap hopen', _, helse, rfl⟩

/-- A match of a statement is of a written one, whichever kind it is. -/
theorem isStmtMatch_of_matchRule
    (hlist : ∀ c m, simple.matchRule depth false .stmtList c = some m → Block.IsMatch c m)
    (h : simple.matchRule (depth + 2) false .statement c = some m) : IsStmtMatch c m := by
  rw [matchRule_statement_eq] at h
  obtain ⟨r, hr, hmatch⟩ := List.exists_of_findSome?_eq_some h
  simp only [List.mem_cons, List.not_mem_nil, or_false] at hr
  rcases hr with rfl | rfl | rfl | rfl
  · exact isStmtMatch_call hmatch
  · exact isStmtMatch_loop hlist hmatch
  · exact isStmtMatch_branch hlist hmatch
  · exact isStmtMatch_assign hmatch

namespace Block

/-- The trees are of a statement list, written from one place to another up to gaps, if more text
comes after it. -/
def AreStmts (c : Cursor) (ts : List (ParseTree Rule)) (stop : Cursor) : Prop :=
  (skipGap stop).rest ≠ [] →
  ∃ block, ofStmts? ts = some block ∧ block.Written (skipGap c) (skipGap stop)

/-- A statement in front of a statement list. -/
theorem written_of_isStmtMatch {stop : Cursor} {ts : List (ParseTree Rule)}
    (hstmt : IsStmtMatch c m) (hrest : AreStmts m.stop ts stop) (hne : (skipGap stop).rest ≠ []) :
    ∃ block, ofStmts? (m.trees ++ ts) = some block ∧ block ≠ .done ∧
      block.Written c (skipGap stop) := by
  obtain ⟨t, htree, put, hput⟩ := hstmt
  obtain ⟨rest, hvalue, hwritten⟩ := hrest hne
  obtain ⟨hof, hdone, hwrites⟩ := hput rest
  refine ⟨put rest, ?_, hdone, hwrites _ _ (gap_skipGap (hwritten.rest_ne_nil hne)) hwritten⟩
  rw [htree]
  simp [ofStmts?, hvalue, hof]

/-- A match of a list is of a written one, if those of statements are. -/
theorem isMatch_of_stmts
    (hstmt : ∀ c m, simple.matchRule depth false .statement c = some m → IsStmtMatch c m)
    (h : simple.matchRule (depth + 1) false .stmtList c = some m) : IsMatch c m := by
  obtain ⟨ts, hrun, htrees⟩ := matchRule_branch_eq_some rfl rfl h
  obtain ⟨first, more, hfirst, hmore, heq⟩ := run_seq_eq_some hrun
  obtain ⟨hstop, rfl⟩ := Match.mk.inj heq
  obtain ⟨stop, hrest, hend⟩ : ∃ stop, AreStmts first.stop more.trees stop ∧
      skipGap more.stop = skipGap stop := by
    refine run_star_induction skipGap_idem ?_ ?_ hmore
    · intro s _
      exact ⟨.done, by rw [ofStmts?], rfl⟩
    · intro s element ts stop helement ih hne
      obtain ⟨block, hvalue, -, hwritten⟩ := written_of_isStmtMatch (hstmt _ _ helement) ih hne
      exact ⟨block, hvalue, hwritten⟩
  intro hne
  rw [hstop, hend] at hne ⊢
  obtain ⟨block, hvalue, hdone, hwritten⟩ := written_of_isStmtMatch (hstmt _ _ hfirst) hrest hne
  refine ⟨_, block, htrees, ?_, hdone, hwritten⟩
  obtain ⟨t, htree, -⟩ := hstmt _ _ hfirst
  rw [htree] at hvalue ⊢
  exact hvalue

/-- **The rule of statement lists** matches what is written as a statement list. -/
theorem isMatch_of_matchRule (depth : Nat) (c : Cursor) (m : Match Rule)
    (h : simple.matchRule depth false .stmtList c = some m) : IsMatch c m := by
  induction depth using Nat.strongRecOn generalizing c m with
  | ind depth ih =>
    match depth with
    | 0 => cases h
    | depth + 1 =>
      refine isMatch_of_stmts (fun c m hstmt => ?_) h
      -- a body is three rules deeper than its list: the statement, the rule for its kind, the list
      -- in it
      match depth with
      | 0 => cases hstmt
      | 1 =>
        rw [matchRule_statement_eq] at hstmt
        obtain ⟨r, -, hmatch⟩ := List.exists_of_findSome?_eq_some hstmt
        cases hmatch
      | depth + 2 => exact isStmtMatch_of_matchRule (fun c m => ih depth (by omega) c m) hstmt

end Block

/-! ## Procedures and programs -/

/-- **The rule of procedures** matches what is written as a procedure. -/
theorem proc_of_matchRule (h : simple.matchRule depth false .procedure c = some m) :
    ∃ t proc, m.trees = [t] ∧ Proc.ofTree? t = some proc ∧ proc.Written c m.stop ∧ c.rest ≠ [] := by
  cases depth with
  | zero => cases h
  | succ depth =>
    obtain ⟨ts, hrun, htrees⟩ := matchRule_branch_eq_some rfl rfl h
    obtain ⟨w, hw, c₁, x, c₂, ts₁, htoken, hapart, hx, -, h₁, rfl⟩ :=
      keyword_name_of_run (r := .kwProc) (by decide) hrun
    obtain ⟨t, body, c₃, ts₂, rfl, hvalue, hbody, hopen, h₂⟩ :=
      braces_of_runsInOrder [] (Block.isMatch_of_matchRule depth) h₁
    obtain ⟨rfl, hstop⟩ := h₂.of_nil
    refine ⟨_, ⟨x, ⟨c.pos, m.stop.pos⟩, body⟩, htrees, ?_, ⟨rfl, ?_⟩,
      rest_ne_nil_of_token (spellings_ne_nil _ w hw) htoken⟩
    · simp [ParseTree.ofMatch, Proc.ofTree?, hvalue]
    · have hkeyword : token "proc" c c₁ ∨ token "procedure" c c₁ := by
        simp only [Rule.spellings, List.mem_cons, List.not_mem_nil, or_false] at hw
        rcases hw with rfl | rfl
        · exact Or.inr htoken
        · exact Or.inl htoken
      rw [← hstop]
      exact ⟨_, hkeyword, _, hapart, _, hx, _, gap_skipGap hopen, _, hbody, rfl⟩

/-- The end of the input is matched where no text is left. -/
theorem endOfInput_of_matchRule (h : simple.matchRule depth false .endOfInput c = some m) :
    c.rest = [] ∧ ∃ span, m.trees = [.leaf .endOfInput span ""] := by
  obtain ⟨d, m', -, hrun, hm⟩ := matchRule_eq_some h
  change (if c.rest.isEmpty then some (⟨c, []⟩ : Match Rule) else none) = some m' at hrun
  split at hrun
  · next hempty =>
    cases hrun
    refine ⟨List.isEmpty_iff.mp hempty, ⟨c.pos, c.pos⟩, ?_⟩
    rw [leaf_of_match (w := "") rfl hm rfl (Cursor.Reads.nil_iff.mpr rfl)]
  · cases hrun

/-- The trees are of procedures, written from one place to another up to gaps, if no more text comes
after them. -/
def AreProcs (c : Cursor) (ts : List (ParseTree Rule)) (stop : Cursor) : Prop :=
  (skipGap stop).rest = [] →
    ∃ procs c₁, (∀ span, procsOfTrees? (ts ++ [.leaf .endOfInput span ""]) = some procs) ∧
    gap c c₁ ∧ procsWritten procs c₁ (skipGap stop)

/-- Matches of procedures up to the end of the text are of written procedures. -/
theorem written_of_procs {stop : Cursor} {ts : List (ParseTree Rule)}
    (hproc : simple.matchRule depth false .procedure (skipGap c) = some m)
    (hrest : AreProcs m.stop ts stop) (hend : (skipGap stop).rest = []) :
    ∃ procs, procs ≠ [] ∧
      (∀ span, procsOfTrees? (m.trees ++ ts ++ [.leaf .endOfInput span ""]) = some procs) ∧
      gap c (skipGap c) ∧ procsWritten procs (skipGap c) (skipGap stop) := by
  obtain ⟨t, proc, htree, hvalue, hwritten, hne⟩ := proc_of_matchRule hproc
  obtain ⟨procs, c₁, hvalues, hgap, hprocs⟩ := hrest hend
  refine ⟨proc :: procs, by simp, ?_, gap_skipGap hne, ⟨_, hwritten, _, hgap, _, hprocs, rfl⟩⟩
  intro span
  rw [htree, List.append_assoc, List.singleton_append, procsOfTrees?_cons (by simp), hvalue,
    hvalues, Option.bind_some, Option.map_some]

/-- **A text that is matched as a program** writes the procedures of its trees. -/
theorem writes_of_trees? {text : String} {ts : List (ParseTree Rule)}
    (h : simple.trees? .program text.toList = some ts) :
    ∃ procs, ofTrees? ts = some procs ∧ Writes text procs := by
  obtain ⟨m, hmatch, rfl⟩ := Option.map_eq_some_iff.mp h
  obtain ⟨ts, hrun, htrees⟩ := matchRule_branch_eq_some rfl rfl hmatch
  obtain ⟨c₁, ts₁, ts₂, hstart, h₁, rfl⟩ := run_inOrder_eq_some hrun
  cases hstart
  obtain ⟨procs, ts₃, hprocs, h₂, rfl⟩ := h₁.of_cons
  obtain ⟨last, ts₄, hlast, h₃, rfl⟩ := h₂.of_cons
  obtain ⟨rfl, -⟩ := h₃.of_nil
  obtain ⟨first, more, hfirst, hmore, rfl⟩ := run_seq_eq_some hprocs
  obtain ⟨stop, hrest, hend⟩ : ∃ stop, AreProcs first.stop more.trees stop ∧
      skipGap more.stop = skipGap stop := by
    refine run_star_induction skipGap_idem ?_ ?_ hmore
    · intro s _
      obtain ⟨c₁, hgap, hending, -⟩ := exists_ending s
      exact ⟨[], c₁, fun span => by rw [List.nil_append, procsOfTrees?], hgap, hending⟩
    · intro s element ts stop helement ih hend
      obtain ⟨procs, -, hvalues, hgap, hwritten⟩ := written_of_procs helement ih hend
      exact ⟨procs, _, hvalues, hgap, hwritten⟩
  obtain ⟨hempty, span, hleaf⟩ := endOfInput_of_matchRule hlast
  simp only at hempty
  rw [hend] at hempty
  obtain ⟨procs, hne, hvalues, hgap, hwritten⟩ := written_of_procs hfirst hrest hempty
  refine ⟨procs, ?_, hne, (skipGap stop).pos, ?_⟩
  · rw [htrees, hleaf]
    obtain ⟨t, -, htree, -⟩ := proc_of_matchRule hfirst
    have hvalue := hvalues span
    rw [htree] at hvalue ⊢
    simpa [ParseTree.ofMatch, ofTrees?] using hvalue
  · have hstop : skipGap stop = ⟨(skipGap stop).pos, []⟩ := by
      rw [← hempty]
    rw [← hstop]
    exact ⟨_, hgap, _, hwritten, rfl⟩

/-- **What is read of a text is what it writes.** -/
theorem ofText?_eq_some_iff {text : String} {procs : List Proc} :
    ofText? text = some procs ↔ Writes text procs := by
  constructor
  · intro h
    obtain ⟨ts, htrees, hvalue⟩ := Option.bind_eq_some_iff.mp h
    obtain ⟨procs', hvalue', hwrites⟩ := writes_of_trees? htrees
    rw [hvalue] at hvalue'
    cases hvalue'
    exact hwrites
  · exact Writes.ofText?_eq

end Source

end ProgramQuery
