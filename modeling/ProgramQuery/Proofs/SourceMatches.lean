import ProgramQuery.Proofs.ExprMatches
import ProgramQuery.Proofs.SourceItems

/-!
# Matching sources

A text that writes procedures is read as these procedures (`Writes.ofText?_eq`). Lists are matched
statement by statement (`Block.Listed`): each statement is told by its first word, it ends with a
sign, so that its match stops exactly there, and after the last one comes a brace, which begins no
statement.
-/

set_option autoImplicit false

namespace ProgramQuery

open Grammar Reading

variable {c c₀ c₁ c' c'' s : Cursor} {depth : Nat}

namespace Source

/-! ## Lengths and beginnings -/

/-- Reading a list leaves no more text than there was. -/
theorem Block.Written.length_le {block : Block} (h : block.Written c c') :
    c'.rest.length ≤ c.rest.length :=
  (block.carries_items 0).length_le h

/-- Reading a list in braces leaves no more text than there was. -/
theorem length_le_of_braces {block : Block} (h : braces block block.Written c c') :
    c'.rest.length ≤ c.rest.length :=
  (carries_braces (block.carries_items 0)).length_le h

/-- A written list begins with a token, if a token comes after it. -/
theorem Block.Written.atToken {block : Block} (h : block.Written c c') (hend : AtToken c') :
    AtToken c := by
  cases block with
  | done =>
    rw [h]
    exact hend
  | assign target value rest =>
    obtain ⟨s, ⟨c₁, hname, -⟩, -⟩ := h
    exact atToken_of_name hname
  | call callee rest =>
    obtain ⟨s, ⟨c₁, hword, -⟩, -⟩ := h
    exact atToken_of_head? hword.head?_eq (by decide) (by decide)
  | branch cond thenBody elseBody rest =>
    obtain ⟨s, ⟨c₁, hword, -⟩, -⟩ := h
    exact atToken_of_head? hword.head?_eq (by decide) (by decide)
  | loop cond body rest =>
    obtain ⟨s, ⟨c₁, hword, -⟩, -⟩ := h
    exact atToken_of_head? hword.head?_eq (by decide) (by decide)

/-! ## First words -/

/-- Where the first part of a rule is not matched, the rule is not. -/
theorem matchRule_eq_none_of_first {r r' : Rule} {more : List (Pattern Rule)}
    (hatomic : r.isAtomic = false) (hpattern : r.pattern = inOrder (.rule r') more)
    (h : ∀ depth, simple.matchRule depth false r' c = none) :
    simple.matchRule depth false r c = none := by
  apply matchRule_eq_none
  intro depth
  rw [hatomic, hpattern]
  exact run_inOrder_eq_none (run_rule (h depth))

/-- The statement rules that begin with a keyword. -/
def keywordOf : Rule → Rule
  | .callStmt => .kwCall
  | .whileStmt => .kwWhile
  | .ifStmt => .kwIf
  | r => r

/-- Where another word comes than its keyword, a statement rule is not matched. -/
theorem matchRule_stmt_eq_none {r : Rule} (hr : r ∈ [Rule.callStmt, .whileStmt, .ifStmt])
    (h : ∀ w ∈ (keywordOf r).spellings, wordAt c ≠ w.toList) :
    simple.matchRule depth false r c = none := by
  simp only [List.mem_cons, List.not_mem_nil, or_false] at hr
  rcases hr with rfl | rfl | rfl
  · exact matchRule_eq_none_of_first rfl rfl fun _ => matchRule_keyword_eq_none (by decide) h
  · exact matchRule_eq_none_of_first rfl rfl fun _ => matchRule_keyword_eq_none (by decide) h
  · exact matchRule_eq_none_of_first rfl rfl fun _ => matchRule_keyword_eq_none (by decide) h

/-- Where no name goes on, there is no word. -/
theorem wordAt_eq_nil (h : ∀ x, c.rest.head? = some x → isNameChar x = false) : wordAt c = [] := by
  unfold wordAt
  cases hrest : c.rest with
  | nil => rfl
  | cons x rest => simp [List.takeWhile, h x (by simp [hrest])]

/-- Keywords have letters. -/
theorem spellings_ne_nil (r : Rule) : ∀ w ∈ r.spellings, w.toList ≠ [] := by
  cases r <;> decide

/-- A statement is matched by the first of its rules that matches. -/
theorem matchRule_statement_eq : simple.matchRule (depth + 1) false .statement c =
    [Rule.callStmt, .whileStmt, .ifStmt, .assignStmt].findSome? fun r =>
      simple.matchRule depth false r c := by
  have hmatch : simple.matchRule (depth + 1) false .statement c =
      ((((simple.matchRule depth false .callStmt c).or
        (simple.matchRule depth false .whileStmt c)).or
        (simple.matchRule depth false .ifStmt c)).or
        (simple.matchRule depth false .assignStmt c)).map id := rfl
  rw [hmatch, Option.map_id_fun, id]
  simp only [List.findSome?_cons, List.findSome?_nil]
  cases simple.matchRule depth false .callStmt c with
  | some m => rfl
  | none =>
    cases simple.matchRule depth false .whileStmt c with
    | some m => rfl
    | none =>
      cases simple.matchRule depth false .ifStmt c with
      | some m => rfl
      | none => cases simple.matchRule depth false .assignStmt c <;> rfl

/-- A statement is matched by the first of the four rules that matches. -/
theorem matchRule_statement {r : Rule} {m : Match Rule} (before after : List Rule)
    (hrules : before ++ r :: after = [.callStmt, .whileStmt, .ifStmt, .assignStmt])
    (hbefore : ∀ r' ∈ before, simple.matchRule depth false r' c = none)
    (h : simple.matchRule depth false r c = some m) :
    simple.matchRule (depth + 1) false .statement c = some m := by
  rw [matchRule_statement_eq, ← hrules, List.findSome?_append,
    List.findSome?_eq_none_iff.mpr hbefore, Option.none_or, List.findSome?_cons, h]

/-- Where no word begins, there is no statement. -/
theorem matchRule_statement_eq_none (h : ∀ x, c.rest.head? = some x → isNameChar x = false) :
    simple.matchRule depth false .statement c = none := by
  cases depth with
  | zero => rfl
  | succ depth =>
    have hname : ∀ depth, simple.matchRule depth false .name c = none := by
      intro depth
      apply matchRule_name_eq_none
      intro x hx
      have hchar := h x hx
      simp only [isNameChar, Bool.or_eq_false_iff] at hchar
      exact hchar.1.1
    rw [matchRule_statement_eq, List.findSome?_eq_none_iff]
    intro r hr
    by_cases hassign : r = .assignStmt
    · subst hassign
      exact matchRule_eq_none_of_first rfl rfl hname
    · have hkeyword : r ∈ [Rule.callStmt, .whileStmt, .ifStmt] := by simpa [hassign] using hr
      refine matchRule_stmt_eq_none hkeyword fun w hw => ?_
      rw [wordAt_eq_nil h]
      exact Ne.symm (spellings_ne_nil _ w hw)

/-! ## Lists of statements -/

/-- A statement is matched, and it puts itself in front of the rest of its list. -/
def StmtMatched (depth : Nat) (c s : Cursor) (put : Block → Block) : Prop :=
  ∃ t, simple.matchRule depth false .statement c = some ⟨s, [t]⟩ ∧
    ∀ rest, Block.ofStmt? rest t = some (put rest)

/-- The statements of a list are matched one after the other. -/
def Block.Listed (block : Block) (depth : Nat) (c c' : Cursor) : Prop :=
  ∀ c₀, skipGap c₀ = c → ∃ ts s,
    Repeats
      (fun c => (Pattern.rule .statement).run skipGap (simple.matchRule depth false) (skipGap c))
      c₀ ts s ∧
    Block.ofStmts? ts = some block ∧ skipGap s = c'

/-- An empty list is matched without taking anything. -/
theorem Block.listed_done (depth : Nat) (c : Cursor) : Block.done.Listed depth c c := by
  intro c₀ hskip
  exact ⟨[], c₀, .nil, by rw [Block.ofStmts?], hskip⟩

/-- A statement is matched in front of a list that is. -/
theorem Block.Listed.cons {rest : Block} {put : Block → Block} (hstmt : StmtMatched depth c s put)
    (hlt : s.rest.length < c.rest.length) (hskip : skipGap s = c₁)
    (hrest : rest.Listed depth c₁ c') :
    (put rest).Listed depth c c' := by
  intro c₀ hskip₀
  obtain ⟨t, hmatch, hput⟩ := hstmt
  obtain ⟨ts, s', hrepeats, hvalue, hstop⟩ := hrest s hskip
  have hprogress : s.rest.length < c₀.rest.length := by
    have hle := length_skipGap_le c₀
    rw [hskip₀] at hle
    omega
  refine ⟨t :: ts, s', ?_, ?_, hstop⟩
  · refine .cons (m := ⟨s, [t]⟩) ?_ hprogress hrepeats
    rw [hskip₀]
    exact run_rule hmatch
  · rw [Block.ofStmts?, hvalue, Option.bind_some, hput]

/-- A list in front of a closing brace is matched as a whole. -/
theorem Block.Listed.matched {block : Block} (h : block.Listed depth c c') (hne : block ≠ .done)
    (htoken : AtToken c) (hclose : c'.rest.head? = some '\x7d') :
    ∃ s t, simple.matchRule (depth + 1) false .stmtList c = some ⟨s, [t]⟩ ∧
      Block.ofTree? t = some block ∧ skipGap s = c' := by
  obtain ⟨ts, s, hrepeats, hvalue, hstop⟩ := h c htoken
  have hts : ts ≠ [] := by
    rintro rfl
    rw [Block.ofStmts?] at hvalue
    exact hne (Option.some.inj hvalue).symm
  have hend : simple.matchRule depth false .statement (skipGap s) = none := by
    rw [hstop]
    exact matchRule_statement_eq_none (refused_of_head? hclose (by decide))
  obtain ⟨stop, hrun, hor⟩ := run_atLeastOnce hrepeats hts htoken (run_rule hend)
  obtain ⟨t, ts', rfl⟩ := List.exists_cons_of_ne_nil hts
  refine ⟨stop, _, matchRule_branch rfl rfl hrun, by rw [Block.ofTree?, hvalue], ?_⟩
  rcases hor with rfl | rfl
  · exact hstop
  · rw [skipGap_idem, hstop]

/-- A list in braces begins with a brace. -/
theorem head?_of_braces {block : Block} {written : Reading} (h : braces block written c c') :
    c.rest.head? = some '\x7b' := by
  obtain ⟨c₁, hopen, -⟩ := h
  exact hopen.head?_eq

/-- A list in braces begins with a token. -/
theorem atToken_of_braces {block : Block} {written : Reading} (h : braces block written c c') :
    AtToken c :=
  atToken_of_head? (head?_of_braces h) (by decide) (by decide)

/-- What is written as the block, up to a closing brace, is matched as the block. -/
def Block.Matchable (block : Block) : Prop :=
  ∀ {c c' : Cursor} {depth : Nat}, block.Written c c' → c'.rest.head? = some '\x7d' →
    4 * c.rest.length ≤ depth + 1 → block.Listed depth c c'

/-- Braces around a list, and what comes after them. -/
theorem runsInOrder_braces (depth : Nat) {block : Block} {more : List (Pattern Rule)}
    {ts : List (ParseTree Rule)} (hskip : skipGap c₀ = c) (h : braces block block.Written c c')
    (hmatchable : block.Matchable) (hdepth : 4 * c.rest.length ≤ depth + 4)
    (hmore : RunsInOrder skipGap (simple.matchRule (depth + 1) false) more c' ts c'') :
    ∃ t, Block.ofTree? t = some block ∧
      RunsInOrder skipGap (simple.matchRule (depth + 1) false) (blockPattern ++ more)
        c₀ (t :: ts) c'' := by
  obtain ⟨c₁, hopen, c₂, hgap, c₃, ⟨hne, hwritten⟩, c₄, hclose, rfl⟩ := h
  have h₁ := hopen.length_eq
  have h₂ := length_le_of_gap hgap
  have hbrace : ("\x7b".toList).length = 1 := by decide
  have hend : AtToken c₃ := atToken_of_head? hclose.head?_eq (by decide) (by decide)
  have htoken := hwritten.atToken hend
  have hlisted : block.Listed depth c₂ c₃ := hmatchable hwritten hclose.head?_eq (by omega)
  obtain ⟨s, t, hmatch, hvalue, hstop⟩ := hlisted.matched hne htoken hclose.head?_eq
  refine ⟨t, hvalue, ?_⟩
  exact .cons hskip (run_chars hopen) (.cons (skipGap_eq hgap htoken) (run_rule hmatch)
    (.cons hstop (run_chars hclose) hmore))

/-! ## Statements -/

/-- A written assignment is matched. -/
theorem stmtMatched_assign {target : String} {value : Expr} (h : assignment target value c s)
    (hdepth : 4 * c.rest.length ≤ depth + 1) :
    s.rest.length < c.rest.length ∧ StmtMatched depth c s (.assign target value) := by
  obtain ⟨c₁, hname, c₂, hgap, c₃, hsign, c₄, hgap', c₅, hvalue, c₆, hgap'', c₇, hend, rfl⟩ := h
  have h₁ := (carries_name _).length_le hname
  have h₂ := length_le_of_gap hgap
  have h₃ := hsign.length_eq
  have h₄ := length_le_of_gap hgap'
  have h₅ := hvalue.length_lt
  have h₆ := length_le_of_gap hgap''
  have h₇ := hend.length_eq
  have hone : ("=".toList).length = 1 := by decide
  have hsign' : AtToken c₂ := atToken_of_head? hsign.head?_eq (by decide) (by decide)
  have hend' : AtToken c₆ := atToken_of_head? hend.head?_eq (by decide) (by decide)
  have hends : Ends c₁ := ends_of_gap hgap (ends_of_head? hsign.head?_eq (by decide))
  obtain ⟨d, rfl⟩ : ∃ d, depth = d + 3 := ⟨depth - 3, by omega⟩
  obtain ⟨stop, t, hmatch, hofTree, hstops⟩ := hvalue.reached.matched (d + 1)
    (by have hslack : Rank.sum.slack = 0 := rfl; omega)
    (closes_of_head? hgap'' hend' hend.head?_eq (by decide) (by decide))
  have hassign : simple.matchRule (d + 2) false .assignStmt c =
      some ⟨c₇, [.branch .assignStmt ⟨c.pos, c₇.pos⟩ [.leaf .name ⟨c.pos, c₁.pos⟩ target, t]]⟩ :=
    matchRule_branch rfl rfl (run_inOrder (run_rule (matchRule_name hname hends))
      (.cons (skipGap_eq hgap hsign') (run_chars hsign)
        (.cons (skipGap_eq hgap' hvalue.atToken) (run_rule hmatch)
          (.cons (hstops.skip_eq.trans (skipGap_eq hgap'' hend')) (run_chars hend) .nil))))
  have hother : ∀ r ∈ [Rule.callStmt, .whileStmt, .ifStmt],
      simple.matchRule (d + 2) false r c = none :=
    fun r hr => matchRule_stmt_eq_none hr (wordAt_ne_of_name hname hends _)
  refine ⟨by omega, _, matchRule_statement [.callStmt, .whileStmt, .ifStmt] [] rfl hother hassign,
    ?_⟩
  intro rest
  simp [Block.ofStmt?, hofTree]

/-- Where a keyword was read, the word there is the keyword. -/
theorem wordAt_keyword {r : Rule} {w : String} (hw : w ∈ r.spellings) (h : token w c c')
    (hends : Ends c') :
    wordAt c = w.toList :=
  wordAt_eq h (spellings_letters r w hw) hends

/-- A written call is matched. -/
theorem stmtMatched_call {callee : Word} (h : callOf callee c s)
    (hdepth : 4 * c.rest.length ≤ depth + 1) :
    s.rest.length < c.rest.length ∧ StmtMatched depth c s (.call callee) := by
  obtain ⟨c₁, hword, c₂, hapart, c₃, ⟨hspan, hname⟩, c₄, hgap, c₅, hend, rfl⟩ := h
  have h₁ := hword.length_eq
  have h₂ := length_le_of_gap (gap_of_apart hapart)
  have h₃ := (carries_name _).length_le hname
  have h₄ := length_le_of_gap hgap
  have h₅ := hend.length_eq
  have hfour : ("call".toList).length = 4 := by decide
  have hend' : AtToken c₄ := atToken_of_head? hend.head?_eq (by decide) (by decide)
  have hends : Ends c₃ := ends_of_gap hgap (ends_of_head? hend.head?_eq (by decide))
  obtain ⟨d, rfl⟩ : ∃ d, depth = d + 3 := ⟨depth - 3, by omega⟩
  have hcall : simple.matchRule (d + 2) false .callStmt c =
      some ⟨c₅, [.branch .callStmt ⟨c.pos, c₅.pos⟩
        [.leaf .kwCall ⟨c.pos, c₁.pos⟩ "call", .leaf .name ⟨c₂.pos, c₃.pos⟩ callee.text]]⟩ :=
    matchRule_branch rfl rfl (run_inOrder
      (run_rule (matchRule_keyword (by decide) hword (ends_of_apart hapart)))
      (.cons (skipGap_eq (gap_of_apart hapart) (atToken_of_name hname))
        (run_rule (matchRule_name hname hends))
        (.cons (skipGap_eq hgap hend') (run_chars hend) .nil)))
  refine ⟨by omega, _,
    matchRule_statement [] [.whileStmt, .ifStmt, .assignStmt] rfl (by simp) hcall, ?_⟩
  intro rest
  simp [Block.ofStmt?, ← hspan]

/-- A written loop is matched, if its body can be. -/
theorem stmtMatched_loop {cond : String} {body : Block}
    (h : looping cond (braces body body.Written) c s) (hbody : body.Matchable)
    (hdepth : 4 * c.rest.length ≤ depth + 1) :
    s.rest.length < c.rest.length ∧ StmtMatched depth c s (.loop cond body) := by
  obtain ⟨c₁, hword, c₂, hapart, c₃, hname, c₄, hgap, c₅, hbraces, rfl⟩ := h
  have h₁ := hword.length_eq
  have h₂ := length_le_of_gap (gap_of_apart hapart)
  have h₃ := (carries_name _).length_le hname
  have h₄ := length_le_of_gap hgap
  have h₅ := length_le_of_braces hbraces
  have hfive : ("while".toList).length = 5 := by decide
  obtain ⟨d, rfl⟩ : ∃ d, depth = d + 3 := ⟨depth - 3, by omega⟩
  obtain ⟨t, hofTree, hruns⟩ := runsInOrder_braces d
    (skipGap_eq hgap (atToken_of_braces hbraces)) hbraces hbody (by omega) .nil
  have hends : Ends c₃ := ends_of_gap hgap (ends_of_head? (head?_of_braces hbraces) (by decide))
  have hloop : simple.matchRule (d + 2) false .whileStmt c =
      some ⟨c₅, [.branch .whileStmt ⟨c.pos, c₅.pos⟩
        [.leaf .kwWhile ⟨c.pos, c₁.pos⟩ "while", .leaf .name ⟨c₂.pos, c₃.pos⟩ cond, t]]⟩ :=
    matchRule_branch rfl rfl (run_inOrder
      (run_rule (matchRule_keyword (by decide) hword (ends_of_apart hapart)))
      (.cons (skipGap_eq (gap_of_apart hapart) (atToken_of_name hname))
        (run_rule (matchRule_name hname hends)) hruns))
  have hcall : simple.matchRule (d + 2) false .callStmt c = none := by
    apply matchRule_stmt_eq_none (by decide)
    rw [wordAt_keyword (r := .kwWhile) (by decide) hword (ends_of_apart hapart)]
    decide
  refine ⟨by omega, _,
    matchRule_statement [.callStmt] [.ifStmt, .assignStmt] rfl (by simpa using hcall) hloop, ?_⟩
  intro rest
  simp [Block.ofStmt?, hofTree]

/-- The gap before a branch is matched, with or without `then`. -/
theorem run_beforeBranch (depth : Nat) (h : beforeBranch c c')
    (hopen : c'.rest.head? = some '\x7b') :
    Ends c ∧ ∃ ts c₁,
      (Pattern.opt (.rule .kwThen)).run skipGap (simple.matchRule (depth + 1) false) (skipGap c) =
        some ⟨c₁, ts⟩ ∧ skipGap c₁ = c' ∧ (ts = [] ∨ ∃ span, ts = [.leaf .kwThen span "then"]) := by
  have htoken : AtToken c' := atToken_of_head? hopen (by decide) (by decide)
  have hends : Ends c' := ends_of_head? hopen (by decide)
  rcases h with hgap | ⟨c₁, hapart, c₂, hword, c₃, hgap, rfl⟩
  · refine ⟨ends_of_gap hgap hends, [], c', ?_, htoken, Or.inl rfl⟩
    have hnone : simple.matchRule (depth + 1) false .kwThen c' = none := by
      apply matchRule_keyword_eq_none (by decide)
      rw [wordAt_eq_nil hends]
      decide
    rw [skipGap_eq hgap htoken]
    simp [hnone]
  · have hthen : AtToken c₁ := atToken_of_head? hword.head?_eq (by decide) (by decide)
    refine ⟨ends_of_apart hapart, _, c₂, ?_, skipGap_eq hgap htoken, Or.inr ⟨⟨c₁.pos, c₂.pos⟩, rfl⟩⟩
    have hmatch : simple.matchRule (depth + 1) false .kwThen c₁ =
        some ⟨c₂, [.leaf .kwThen ⟨c₁.pos, c₂.pos⟩ "then"]⟩ :=
      matchRule_keyword (by decide) hword (ends_of_gap hgap hends)
    rw [skipGap_eq (gap_of_apart hapart) hthen]
    simp [hmatch]

/-- A written conditional is matched, if its bodies can be. -/
theorem stmtMatched_branch {cond : String} {thenBody elseBody : Block}
    (h : branching cond (braces thenBody thenBody.Written) (braces elseBody elseBody.Written) c s)
    (hthen : thenBody.Matchable) (helse : elseBody.Matchable)
    (hdepth : 4 * c.rest.length ≤ depth + 1) :
    s.rest.length < c.rest.length ∧ StmtMatched depth c s (.branch cond thenBody elseBody) := by
  obtain ⟨c₁, hword, c₂, hapart, c₃, hname, c₄, hbefore, c₅, hbraces, c₆, hgap, c₇, hword', c₈,
    hgap', c₉, hbraces', rfl⟩ := h
  have h₁ := hword.length_eq
  have h₂ := length_le_of_gap (gap_of_apart hapart)
  have h₃ := (carries_name _).length_le hname
  have h₄ := carries_beforeBranch.length_le hbefore
  have h₅ := length_le_of_braces hbraces
  have h₆ := length_le_of_gap hgap
  have h₇ := hword'.length_eq
  have h₈ := length_le_of_gap hgap'
  have h₉ := length_le_of_braces hbraces'
  have htwo : ("if".toList).length = 2 := by decide
  have hopen' := head?_of_braces hbraces'
  obtain ⟨d, rfl⟩ : ∃ d, depth = d + 3 := ⟨depth - 3, by omega⟩
  have hkwElse : simple.matchRule (d + 1) false .kwElse c₆ =
      some ⟨c₇, [.leaf .kwElse ⟨c₆.pos, c₇.pos⟩ "else"]⟩ :=
    matchRule_keyword (by decide) hword' (ends_of_gap hgap' (ends_of_head? hopen' (by decide)))
  have hkwElse' : AtToken c₆ := atToken_of_head? hword'.head?_eq (by decide) (by decide)
  -- from the end of the statement to its beginning
  obtain ⟨t', hofTree', hruns'⟩ := runsInOrder_braces d
    (skipGap_eq hgap' (atToken_of_braces hbraces')) hbraces' helse (by omega) .nil
  obtain ⟨hends, ts, c₁₀, hopt, hskip, hts⟩ := run_beforeBranch d hbefore (head?_of_braces hbraces)
  obtain ⟨t, hofTree, hruns⟩ := runsInOrder_braces d hskip hbraces hthen (by omega)
    (.cons (skipGap_eq hgap hkwElse') (run_rule hkwElse) hruns')
  have hbranch : simple.matchRule (d + 2) false .ifStmt c =
      some ⟨c₉, [.branch .ifStmt ⟨c.pos, c₉.pos⟩
        (.leaf .kwIf ⟨c.pos, c₁.pos⟩ "if" :: .leaf .name ⟨c₂.pos, c₃.pos⟩ cond ::
          (ts ++ [t, .leaf .kwElse ⟨c₆.pos, c₇.pos⟩ "else", t']))]⟩ :=
    matchRule_branch rfl rfl (run_inOrder
      (run_rule (matchRule_keyword (by decide) hword (ends_of_apart hapart)))
      (.cons (skipGap_eq (gap_of_apart hapart) (atToken_of_name hname))
        (run_rule (matchRule_name hname hends)) (.cons rfl hopt hruns)))
  have hother : ∀ r ∈ [Rule.callStmt, .whileStmt], simple.matchRule (d + 2) false r c = none := by
    have hkeyword := wordAt_keyword (r := .kwIf) (by decide) hword (ends_of_apart hapart)
    intro r hr
    apply matchRule_stmt_eq_none (List.mem_append_left [.ifStmt] hr)
    rw [hkeyword]
    revert r
    decide
  refine ⟨by omega, _, matchRule_statement [.callStmt, .whileStmt] [.assignStmt] rfl hother hbranch,
    ?_⟩
  intro rest
  rcases hts with rfl | ⟨span, rfl⟩
  · rw [List.nil_append, Block.ofStmt?, hofTree, hofTree', Option.bind_some, Option.map_some]
  · rw [List.singleton_append, Block.ofStmt?, hofTree, hofTree', Option.bind_some, Option.map_some]

/-- **Statement lists are matched** up to the closing brace. -/
theorem Block.matchable (block : Block) : block.Matchable := by
  -- after a statement and a gap come the rest of the list
  have hcons :
      ∀ {rest : Block} {put : Block → Block} {stmt : Reading} {c c' : Cursor} {depth : Nat},
      rest.Matchable → inTurn [stmt, gap, rest.Written] c c' → c'.rest.head? = some '\x7d' →
      4 * c.rest.length ≤ depth + 1 →
      (∀ s, stmt c s → s.rest.length < c.rest.length ∧ StmtMatched depth c s put) →
      (put rest).Listed depth c c' := by
    intro rest put stmt c c' depth hrest h hclose hdepth hstmt
    obtain ⟨s, hread, c₁, hgap, c₂, hwritten, rfl⟩ := h
    obtain ⟨hlt, hmatched⟩ := hstmt s hread
    have hend : AtToken c₂ := atToken_of_head? hclose (by decide) (by decide)
    have hle := length_le_of_gap hgap
    exact .cons hmatched hlt (skipGap_eq hgap (hwritten.atToken hend))
      (hrest hwritten hclose (by omega))
  induction block with
  | done =>
    intro c c' depth h _ _
    cases h
    exact Block.listed_done depth c
  | assign target value rest ih =>
    intro c c' depth h hclose hdepth
    exact hcons ih h hclose hdepth fun s hstmt => stmtMatched_assign hstmt hdepth
  | call callee rest ih =>
    intro c c' depth h hclose hdepth
    exact hcons ih h hclose hdepth fun s hstmt => stmtMatched_call hstmt hdepth
  | branch cond thenBody elseBody rest ihThen ihElse ih =>
    intro c c' depth h hclose hdepth
    exact hcons ih h hclose hdepth fun s hstmt => stmtMatched_branch hstmt ihThen ihElse hdepth
  | loop cond body rest ihBody ih =>
    intro c c' depth h hclose hdepth
    exact hcons ih h hclose hdepth fun s hstmt => stmtMatched_loop hstmt ihBody hdepth

/-! ## Procedures -/

/-- A written procedure is matched, and read as the procedure. -/
theorem Proc.Written.matched {proc : Proc} (h : proc.Written c c')
    (hdepth : 4 * c.rest.length ≤ depth + 4) :
    c'.rest.length < c.rest.length ∧ AtToken c ∧
      ∃ t, simple.matchRule (depth + 2) false .procedure c = some ⟨c', [t]⟩ ∧
        Proc.ofTree? t = some proc := by
  obtain ⟨hspan, c₁, hword, c₂, hapart, c₃, hname, c₄, hgap, c₅, hbraces, rfl⟩ := h
  obtain ⟨w, hw, hword⟩ : ∃ w ∈ Rule.kwProc.spellings, token w c c₁ := by
    rcases hword with hshort | hlong
    · exact ⟨"proc", by decide, hshort⟩
    · exact ⟨"procedure", by decide, hlong⟩
  have h₁ := hword.length_eq
  have h₂ := length_le_of_gap (gap_of_apart hapart)
  have h₃ := (carries_name _).length_le hname
  have h₄ := length_le_of_gap hgap
  have h₅ := length_le_of_braces hbraces
  have hpos := List.length_pos_iff.mpr (spellings_ne_nil _ w hw)
  have hends : Ends c₃ := ends_of_gap hgap (ends_of_head? (head?_of_braces hbraces) (by decide))
  obtain ⟨t, hofTree, hruns⟩ := runsInOrder_braces depth
    (skipGap_eq hgap (atToken_of_braces hbraces)) hbraces proc.body.matchable (by omega) .nil
  have hmatch : simple.matchRule (depth + 2) false .procedure c =
      some ⟨c₅, [.branch .procedure ⟨c.pos, c₅.pos⟩
        [.leaf .kwProc ⟨c.pos, c₁.pos⟩ w, .leaf .name ⟨c₂.pos, c₃.pos⟩ proc.name, t]]⟩ :=
    matchRule_branch rfl rfl (run_inOrder
      (run_rule (matchRule_keyword hw hword (ends_of_apart hapart)))
      (.cons (skipGap_eq (gap_of_apart hapart) (atToken_of_name hname))
        (run_rule (matchRule_name hname hends)) hruns))
  refine ⟨by omega, ?_, _, hmatch, ?_⟩
  · obtain ⟨x, letters, heq⟩ := List.exists_cons_of_ne_nil (spellings_ne_nil _ w hw)
    have hchar := spellings_letters _ w hw x (by simp [heq])
    rw [token, heq] at hword
    exact atToken_of_nameChar hword.head?_eq hchar
  · rw [Proc.ofTree?, hofTree, Option.map_some, ← hspan]

/-- Procedures are read from their trees one by one, up to the end of the input. -/
theorem procsOfTrees?_cons {t : ParseTree Rule} {ts : List (ParseTree Rule)} (hne : ts ≠ []) :
    procsOfTrees? (t :: ts) = (Proc.ofTree? t).bind fun proc =>
      (procsOfTrees? ts).map (proc :: ·) := by
  cases ts with
  | nil => exact absurd rfl hne
  | cons t' ts => simp [procsOfTrees?]

/-- Procedures are matched one after the other, up to the end of the text. -/
theorem procsWritten_listed {procs : List Proc} (h : procsWritten procs c c') (hend : c'.rest = [])
    (hdepth : 4 * c.rest.length ≤ depth + 4) :
    ∀ c₀, skipGap c₀ = skipGap c → ∃ ts s,
      Repeats (fun c =>
          (Pattern.rule .procedure).run skipGap (simple.matchRule (depth + 2) false) (skipGap c))
        c₀ ts s ∧
      (∀ span text, procsOfTrees? (ts ++ [.leaf .endOfInput span text]) = some procs) ∧
      skipGap s = c' ∧ (procs ≠ [] → ts ≠ []) := by
  induction procs generalizing c with
  | nil =>
    intro c₀ hskip
    exact ⟨[], c₀, .nil, fun _ _ => by rw [List.nil_append, procsOfTrees?],
      hskip.trans (skipGap_ending h hend), fun hne => absurd rfl hne⟩
  | cons proc procs ih =>
    intro c₀ hskip
    obtain ⟨s, hproc, c₁, hgap, c₂, hprocs, rfl⟩ := h
    obtain ⟨hlt, htoken, t, hmatch, hofTree⟩ := hproc.matched hdepth
    have hle := length_le_of_gap hgap
    obtain ⟨ts, s', hrepeats, hvalue, hstop, -⟩ := ih hprocs (by omega) s (skipGap_eq_of_gap hgap)
    rw [htoken] at hskip
    have hprogress : s.rest.length < c₀.rest.length := by
      have hle₀ := length_skipGap_le c₀
      rw [hskip] at hle₀
      omega
    refine ⟨t :: ts, s', ?_, ?_, hstop, fun _ => by simp⟩
    · refine .cons (m := ⟨s, [t]⟩) ?_ hprogress hrepeats
      rw [hskip]
      exact run_rule hmatch
    · intro span text
      rw [List.cons_append, procsOfTrees?_cons (by simp), hofTree, hvalue, Option.bind_some,
        Option.map_some]

/-- **A text that writes procedures is read as these procedures.** -/
theorem Writes.ofText?_eq {text : String} {procs : List Proc} (h : Writes text procs) :
    ofText? text = some procs := by
  obtain ⟨hne, stop, c, hgap, c', hprocs, rfl⟩ := h
  have hlength := length_le_of_gap hgap
  simp only at hlength
  -- the program rule takes one of the depth, and the rules inside it have the rest
  obtain ⟨d, hd⟩ : ∃ d, depthFor text.toList = d + 3 := ⟨4 * text.toList.length + 13, rfl⟩
  have hdepth : 4 * c.rest.length ≤ d + 4 := by
    simp only [depthFor] at hd
    omega
  have hskip : skipGap (skipGap ⟨0, text.toList⟩) = skipGap c :=
    (skipGap_idem _).trans (skipGap_eq_of_gap hgap)
  obtain ⟨ts, s, hrepeats, hvalue, hstop, hts⟩ := procsWritten_listed hprocs rfl hdepth _ hskip
  have hend : simple.matchRule (d + 2) false .procedure (skipGap s) = none := by
    rw [hstop]
    refine matchRule_eq_none_of_first rfl rfl fun _ => matchRule_keyword_eq_none (by decide) ?_
    rw [wordAt_eq_nil (by simp)]
    decide
  obtain ⟨stop', hrun, hor⟩ := run_atLeastOnce hrepeats (hts hne) (skipGap_idem _) (run_rule hend)
  have hskip' : skipGap stop' = ⟨stop, []⟩ := by
    rcases hor with rfl | rfl
    · exact hstop
    · rw [skipGap_idem, hstop]
  have hend' : simple.matchRule (d + 2) false .endOfInput ⟨stop, []⟩ =
      some ⟨⟨stop, []⟩, [.leaf .endOfInput ⟨stop, stop⟩ (String.ofList [])]⟩ :=
    matchRule_leaf rfl rfl (Cursor.Reads.nil_iff.mpr rfl)
  have hstart : Pattern.atStart.run skipGap (simple.matchRule (d + 2) false) ⟨0, text.toList⟩ =
      some ⟨⟨0, text.toList⟩, []⟩ := rfl
  have hprogram := run_inOrder hstart (.cons rfl hrun (.cons hskip' (run_rule hend') .nil))
  obtain ⟨t, ts', heq⟩ := List.exists_cons_of_ne_nil (hts hne)
  have hmatch : simple.matchRule (d + 3) false .program ⟨0, text.toList⟩ =
      some ⟨⟨stop, []⟩, [.branch .program ⟨0, stop⟩
        (ts ++ [.leaf .endOfInput ⟨stop, stop⟩ (String.ofList [])])]⟩ := by
    rw [heq] at hprogram ⊢
    exact matchRule_branch rfl rfl hprogram
  rw [ofText?, trees?, hd, hmatch, Option.map_some, Option.bind_some, ofTrees?, hvalue]

end Source

end ProgramQuery
