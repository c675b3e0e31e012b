import ProgramQuery.Proofs.TokenMatches

/-!
# Matching expressions

What is written as an expression is matched as that expression (`Expr.Written.matched`). Operators
of one rank are a repetition for the grammar and a left-leaning tree for the source: along the tree,
the repetition grows at its end (`Expr.Chained`), and it is a whole match once no more operator of
the rank follows.

A match may include the gap after the expression, so where it stops is known up to a gap
(`StopsAt`).
-/

set_option autoImplicit false

namespace ProgramQuery

open Grammar Reading

namespace Rank

/-- The rule for expressions of the rank. -/
def rule : Rank → Rule
  | sum => .expr
  | product => .term
  | factor => .factor

/-- The rule for the operators of the rank. -/
def signRule : Rank → Rule
  | sum => .addOp
  | product => .mulOp
  | factor => .mulOp

/-- The signs of the operators of the rank and of those that bind tighter. -/
def signs : Rank → List Char
  | sum => ['+', '-', '*']
  | product => ['*']
  | factor => []

/-- How many rules of the four for each character are not needed for the rank. -/
def slack : Rank → Nat
  | sum => 0
  | product => 1
  | factor => 2

/-- The operands of a rank have no signs that the rank does not have. -/
theorem signs_operand (rank : Rank) : rank.operand.signs ⊆ rank.signs := by
  cases rank <;> decide

/-- Each rank below needs one rule less. -/
theorem slack_operand {rank : Rank} (h : rank ≠ .factor) : rank.operand.slack = rank.slack + 1 := by
  cases rank with
  | factor => exact absurd rfl h
  | _ => rfl

end Rank

/-- Factors have no operators. -/
theorem Operator.rank_ne (op : Operator) : op.rank ≠ .factor := by
  cases op <;> decide

namespace Grammar

variable {s c c' : Cursor} {rank : Rank} {op : Operator} {depth : Nat}

/-- An expression of the rank may end at the place: no name goes on, and no operator follows that it
would have to take. -/
structure Closes (rank : Rank) (c : Cursor) : Prop where
  ends : Ends c
  no_sign : ∀ x ∈ rank.signs, (skipGap c).rest.head? ≠ some x

/-- Where an expression may end, its last operand may. -/
theorem Closes.operand (h : Closes rank c) : Closes rank.operand c :=
  ⟨h.ends, fun x hx => h.no_sign x (rank.signs_operand hx)⟩

/-- Two places that only a gap is between. -/
structure StopsAt (s c : Cursor) : Prop where
  skip_eq : skipGap s = skipGap c
  length_le : s.rest.length ≤ c.rest.length

/-- Skipping a gap that is between two places leaves only a gap between them. -/
theorem StopsAt.skip (h : StopsAt s c) : StopsAt (skipGap s) c :=
  ⟨(skipGap_idem s).trans h.skip_eq, Nat.le_trans (length_skipGap_le s) h.length_le⟩

/-- Between a place and itself there is at most a gap. -/
theorem stopsAt_refl (c : Cursor) : StopsAt c c := ⟨rfl, Nat.le_refl _⟩

/-- The symbol of an operator begins with a sign that is of no name, gap or tighter operator. -/
theorem head?_symbol (h : token op.symbol c c') :
    ∃ x, c.rest.head? = some x ∧ x ∉ op.rank.operand.signs ∧
      isNameChar x = false ∧ isBlank x = false ∧ x ≠ '/' := by
  cases op with
  | plus => exact ⟨'+', h.head?_eq, by decide, by decide, by decide, by decide⟩
  | minus => exact ⟨'-', h.head?_eq, by decide, by decide, by decide, by decide⟩
  | times => exact ⟨'*', h.head?_eq, by decide, by decide, by decide, by decide⟩

/-- A name begins a token. -/
theorem atToken_of_name {x : String} (h : Reading.name x c c') : AtToken c := by
  obtain ⟨first, more, heq, hfirst, -⟩ := h.1.letters
  have hreads := h.2
  rw [token, heq] at hreads
  exact atToken_of_nameChar hreads.head?_eq (by simp [isNameChar, hfirst])

/-- An expression may end before a sign that it would not have to take. -/
theorem closes_of_head? (hgap : gap c c') (htoken : AtToken c') {x : Char}
    (hhead : c'.rest.head? = some x) (hchar : isNameChar x = false)
    (hsign : x ∉ rank.signs) : Closes rank c := by
  refine ⟨ends_of_gap hgap (ends_of_head? hhead hchar), ?_⟩
  intro y hy
  rw [skipGap_eq hgap htoken, hhead]
  intro heq
  cases heq
  exact hsign hy

/-- In front of an operator, an operand may end. -/
theorem closes_of_symbol {c₁ : Cursor} (hgap : gap c c₁) (h : token op.symbol c₁ c') :
    AtToken c₁ ∧ Closes op.rank.operand c := by
  obtain ⟨x, hhead, hsign, hchar, hblank, hslash⟩ := head?_symbol h
  have htoken := atToken_of_head? hhead hblank hslash
  exact ⟨htoken, closes_of_head? hgap htoken hhead hchar hsign⟩

/-- The symbol of an operator is matched by the rule for its rank. -/
theorem matchRule_sign (h : token op.symbol c c') :
    simple.matchRule (depth + 1) false op.rank.signRule c =
      some ⟨c', [.leaf op.rank.signRule ⟨c.pos, c'.pos⟩ op.symbol]⟩ := by
  have hrun : op.rank.signRule.pattern.run (if op.rank.signRule.isAtomic then id else skipGap)
      (simple.matchRule depth op.rank.signRule.isAtomic) c = some ⟨c', []⟩ := by
    cases op with
    | plus => exact run_alt_left (run_chars h)
    | minus =>
      have hplus : c.rest.head? ≠ some '+' := by
        rw [h.head?_eq]
        decide
      exact (run_alt_right (run_chars_eq_none hplus)).trans (run_chars h)
    | times => exact run_chars h
  rw [matchRule_leaf (by cases op <;> rfl) hrun h, String.ofList_toList]

/-- Without a sign of the rank, no operator of the rank is matched. -/
theorem matchRule_sign_eq_none (hrank : rank ≠ .factor)
    (h : ∀ x ∈ rank.signs, c.rest.head? ≠ some x) :
    simple.matchRule depth false rank.signRule c = none := by
  apply matchRule_eq_none
  intro depth
  cases rank with
  | sum =>
    exact (run_alt_right (run_chars_eq_none (h '+' (by decide)))).trans
      (run_chars_eq_none (h '-' (by decide)))
  | product => exact run_chars_eq_none (h '*' (by decide))
  | factor => exact absurd rfl hrank

end Grammar

namespace Source

namespace Expr

variable {s c c' : Cursor} {rank : Rank} {op : Operator} {depth : Nat} {e lhs rhs : Expr}

/-! ## Trees of operators -/

/-- Operators are read from left to right, so what a beginning is read as is the left operand of the
rest. -/
theorem ofOperators?_append : ∀ {ts ts' : List (ParseTree Rule)} {lhs e : Expr},
    ofOperators? lhs ts = some e → ofOperators? lhs (ts ++ ts') = ofOperators? e ts'
  | [], ts', lhs, e, h => by
    simp only [ofOperators?, Option.some.injEq] at h
    rw [h, List.nil_append]
  | .leaf _ _ symbol :: t :: ts, ts', lhs, e, h => by
    simp only [ofOperators?, Option.bind_eq_some_iff] at h
    obtain ⟨op, hop, rhs, hrhs, h⟩ := h
    simp only [List.cons_append, ofOperators?, hop, hrhs, Option.bind_some]
    exact ofOperators?_append h
  | [.leaf _ _ _], _, _, _, h => by simp [ofOperators?] at h
  | .branch _ _ _ :: _, _, _, _, h => by simp [ofOperators?] at h

/-! ## What is written -/

/-- A written expression takes at least one character. -/
theorem Written.length_lt (h : e.Written rank c c') : c'.rest.length < c.rest.length := by
  induction h with
  | var hname =>
    obtain ⟨first, more, heq, -⟩ := hname.1.letters
    have hlength := hname.2.length_eq
    rw [heq] at hlength
    simp only [List.length_cons] at hlength
    omega
  | literal hne _ hreads =>
    have hlength := hreads.length_eq
    have hpos := List.length_pos_iff.mpr hne
    omega
  | paren hopen hgap _ hgap' hclose ih =>
    have h₁ := hopen.length_eq
    have h₂ := length_le_of_gap hgap
    have h₃ := length_le_of_gap hgap'
    have h₄ := hclose.length_eq
    omega
  | operand _ _ ih => exact ih
  | binary _ hgap hsign hgap' _ ihl ihr =>
    have h₁ := length_le_of_gap hgap
    have h₂ := hsign.length_eq
    have h₃ := length_le_of_gap hgap'
    omega

/-- A written expression begins with a token. -/
theorem Written.atToken (h : e.Written rank c c') : AtToken c := by
  induction h with
  | var hname => exact atToken_of_name hname
  | literal hne hdigits hreads =>
    obtain ⟨first, more, heq⟩ := List.exists_cons_of_ne_nil hne
    rw [heq] at hdigits
    rw [token, heq] at hreads
    exact atToken_of_nameChar hreads.head?_eq
      (by simp [isNameChar, hdigits first List.mem_cons_self])
  | paren hopen _ _ _ _ _ => exact atToken_of_head? hopen.head?_eq (by decide) (by decide)
  | operand _ _ ih => exact ih
  | binary _ _ _ _ _ ihl _ => exact ihl

/-! ## Matches -/

/-- The expression is matched from one place to the other. -/
def Matched (e : Expr) (depth : Nat) (rank : Rank) (c c' : Cursor) : Prop :=
  ∃ s t, simple.matchRule depth false rank.rule c = some ⟨s, [t]⟩ ∧ ofTree? t = some e ∧
    StopsAt s c'

/-- The expression is matched as a first operand and a repetition, which may still go on. -/
def Chained (e : Expr) (depth : Nat) (rank : Rank) (c c' : Cursor) : Prop :=
  ∃ s₀ t ts s, simple.matchRule depth false rank.operand.rule c = some ⟨s₀, [t]⟩ ∧
    Repeats (fun c => (Pattern.seq (.rule rank.signRule) (.rule rank.operand.rule)).run skipGap
      (simple.matchRule depth false) (skipGap c)) s₀ ts s ∧
    ofOperands? (t :: ts) = some e ∧ StopsAt s c'

/-- An operand is a chain by itself. -/
theorem Matched.chained (h : e.Matched depth rank.operand c c') : e.Chained depth rank c c' := by
  obtain ⟨s, t, hmatch, hvalue, hstops⟩ := h
  exact ⟨s, t, [], s, hmatch, .nil, by simp [ofOperands?, ofOperators?, hvalue], hstops⟩

/-- A chain grows by an operator and an operand. -/
theorem Chained.binary {c₁ c₂ c₃ c₄ : Cursor} (h : lhs.Chained (depth + 1) op.rank c c₁)
    (hgap : gap c₁ c₂) (hsign : token op.symbol c₂ c₃) (hgap' : gap c₃ c₄) (htoken : AtToken c₄)
    (hrhs : rhs.Matched (depth + 1) op.rank.operand c₄ c') (hlt : c'.rest.length < c₂.rest.length) :
    (Expr.binary op lhs rhs).Chained (depth + 1) op.rank c c' := by
  obtain ⟨s₀, t, ts, s, hfirst, hrepeats, hvalue, hstops⟩ := h
  obtain ⟨s', t', hmatch, hvalue', hstops'⟩ := hrhs
  have hskip : skipGap s = c₂ :=
    hstops.skip_eq.trans (skipGap_eq hgap (closes_of_symbol hgap hsign).1)
  -- the element is the operator, a gap, and the operand
  have helement : (Pattern.seq (.rule op.rank.signRule) (.rule op.rank.operand.rule)).run skipGap
      (simple.matchRule (depth + 1) false) (skipGap s) =
        some ⟨s', [.leaf op.rank.signRule ⟨c₂.pos, c₃.pos⟩ op.symbol, t']⟩ := by
    rw [hskip]
    exact run_inOrder (run_rule (matchRule_sign hsign))
      (.cons (skipGap_eq hgap' htoken) (run_rule hmatch) .nil)
  have hprogress : s'.rest.length < s.rest.length := by
    have h₁ := hstops'.length_le
    have h₂ := length_skipGap_le s
    rw [hskip] at h₂
    omega
  refine ⟨s₀, t, _, s', hfirst, hrepeats.snoc helement hprogress, ?_, hstops'⟩
  rw [ofOperands?, Option.bind_eq_some_iff] at hvalue ⊢
  obtain ⟨e₀, he₀, hts⟩ := hvalue
  refine ⟨e₀, he₀, ?_⟩
  rw [ofOperators?_append hts]
  simp [ofOperators?, hvalue']

/-- A chain that cannot go on is a match. -/
theorem Chained.matched (hrank : rank ≠ .factor) (h : e.Chained depth rank c c')
    (hcloses : Closes rank c') :
    e.Matched (depth + 1) rank c c' := by
  obtain ⟨s₀, t, ts, s, hfirst, hrepeats, hvalue, hstops⟩ := h
  have hend : (Pattern.seq (.rule rank.signRule) (.rule rank.operand.rule)).run skipGap
      (simple.matchRule depth false) (skipGap s) = none := by
    have hsign : simple.matchRule depth false rank.signRule (skipGap s) = none := by
      rw [hstops.skip_eq]
      exact matchRule_sign_eq_none hrank hcloses.no_sign
    simp [hsign]
  obtain ⟨stop, hrun, hstop⟩ := run_star hrepeats hend
  have hpattern : rank.rule.pattern = inOrder (.rule rank.operand.rule)
      [.star (.seq (.rule rank.signRule) (.rule rank.operand.rule))] := by
    cases rank with
    | factor => exact absurd rfl hrank
    | _ => rfl
  have hsilent : rank.rule.isSilent = false := by
    cases rank with
    | factor => exact absurd rfl hrank
    | _ => rfl
  have hwhole : rank.rule.pattern.run skipGap (simple.matchRule depth false) c =
      some ⟨stop, t :: ts⟩ := by
    have hall := run_inOrder (run_rule hfirst) (.cons rfl hrun .nil)
    rw [hpattern, hall, List.append_nil, List.singleton_append]
  refine ⟨stop, .branch rank.rule ⟨c.pos, stop.pos⟩ (t :: ts), ?_, ?_, ?_⟩
  · exact matchRule_branch (by cases rank <;> rfl) hsilent hwhole
  · cases rank with
    | factor => exact absurd rfl hrank
    | _ => rw [← hvalue, Rank.rule, ofTree?]
  · rcases hstop with rfl | rfl
    · exact hstops
    · exact hstops.skip

/-- At places with enough depth, a chain of operands is matched as long as operands may end where it
does, and the expression as a whole if it may end there itself. -/
structure Reached (e : Expr) (rank : Rank) (c c' : Cursor) : Prop where
  chained : rank ≠ .factor → ∀ depth, 4 * c.rest.length ≤ depth + rank.operand.slack →
    Closes rank.operand c' → e.Chained depth rank c c'
  matched : ∀ depth, 4 * c.rest.length ≤ depth + rank.slack → Closes rank c' →
    e.Matched depth rank c c'

/-- A chain is matched as a whole wherever it may end. -/
theorem reached_of_chained (hrank : rank ≠ .factor) (hlt : c'.rest.length < c.rest.length)
    (h : ∀ depth, 4 * c.rest.length ≤ depth + rank.operand.slack → Closes rank.operand c' →
      e.Chained depth rank c c') : e.Reached rank c c' := by
  refine ⟨fun _ => h, ?_⟩
  intro depth hdepth hcloses
  have hslack := Rank.slack_operand hrank
  have hsmall : rank.slack ≤ 2 := by cases rank <;> decide
  obtain ⟨d, rfl⟩ : ∃ d, depth = d + 1 := ⟨depth - 1, by omega⟩
  exact (h d (by omega) hcloses.operand).matched hrank hcloses

/-- A factor is no chain, so it only has to be matched itself. -/
theorem reached_factor
    (h : ∀ depth, 4 * c.rest.length ≤ depth + 4 → Ends c' → e.Matched (depth + 2) .factor c c')
    (hlt : c'.rest.length < c.rest.length) : e.Reached .factor c c' := by
  refine ⟨fun hne => absurd rfl hne, ?_⟩
  intro depth hdepth hcloses
  have hslack : Rank.factor.slack = 2 := rfl
  obtain ⟨d, rfl⟩ : ∃ d, depth = d + 2 := ⟨depth - 2, by omega⟩
  exact h d (by omega) hcloses.ends

/-- A written expression is matched, by induction on how it is written. -/
theorem Written.reached (h : e.Written rank c c') : e.Reached rank c c' := by
  have hlt := h.length_lt
  induction h with
  | @var x c c' hname =>
    refine reached_factor (fun depth _ hends => ?_) hlt
    refine ⟨c', .leaf .name ⟨c.pos, c'.pos⟩ x, matchRule_silent rfl rfl ?_, by rw [ofTree?],
      stopsAt_refl c'⟩
    exact run_alt_left (run_alt_left (matchRule_name hname hends))
  | @literal digits c c' hne hdigits hreads =>
    refine reached_factor (fun depth _ hends => ?_) hlt
    refine ⟨c', .leaf .integer ⟨c.pos, c'.pos⟩ digits, matchRule_silent rfl rfl ?_, by rw [ofTree?],
      stopsAt_refl c'⟩
    have hname : simple.matchRule (depth + 1) false .name c = none := by
      apply matchRule_name_eq_none
      intro x hx
      obtain ⟨first, more, heq⟩ := List.exists_cons_of_ne_nil hne
      rw [hreads.rest_eq, heq] at hx
      cases hx
      exact isLetter_of_isDigit (hdigits x (by simp [heq]))
    exact run_alt_left ((run_alt_right (run_rule hname)).trans
      (run_rule (matchRule_integer hne hdigits hreads hends)))
  | @paren e c c₁ c₂ c₃ c₄ c' hopen hgap hwritten hgap' hclose ih =>
    refine reached_factor (fun depth hdepth _ => ?_) hlt
    have hltInner := hwritten.length_lt
    have h₁ := hopen.length_eq
    have h₂ := length_le_of_gap hgap
    have hchar : (")".toList).length = 1 ∧ ("(".toList).length = 1 := by decide
    have hclosing : AtToken c₄ := atToken_of_head? hclose.head?_eq (by decide) (by decide)
    obtain ⟨s, t, hmatch, hvalue, hstops⟩ := (ih hltInner).matched (depth + 1) (by omega)
      (closes_of_head? hgap' hclosing hclose.head?_eq (by decide) (by decide))
    have hname : simple.matchRule (depth + 1) false .name c = none :=
      matchRule_name_eq_none (refused_of_head? hopen.head?_eq (by decide))
    have hinteger : simple.matchRule (depth + 1) false .integer c = none :=
      matchRule_integer_eq_none (refused_of_head? hopen.head?_eq (by decide))
    have hskip : skipGap s = c₄ := hstops.skip_eq.trans (skipGap_eq hgap' hclosing)
    refine ⟨c', t, matchRule_silent rfl rfl ?_, hvalue, stopsAt_refl c'⟩
    have hparen :=
      run_inOrder (run_chars hopen) (.cons (skipGap_eq hgap hwritten.atToken) (run_rule hmatch)
      (.cons hskip (run_chars hclose) .nil))
    exact (run_alt_right ((run_alt_right (run_rule hname)).trans (run_rule hinteger))).trans hparen
  | operand hrank hwritten ih =>
    refine reached_of_chained hrank hlt fun depth hdepth hcloses => ?_
    exact ((ih hlt).matched depth hdepth hcloses).chained
  | @binary op lhs rhs c c₁ c₂ c₃ c₄ c' hl hgap hsign hgap' hr ihl ihr =>
    refine reached_of_chained op.rank_ne hlt fun depth hdepth hcloses => ?_
    have hltl := hl.length_lt
    have hltr := hr.length_lt
    have h₁ := length_le_of_gap hgap
    have h₂ := hsign.length_eq
    have h₃ := length_le_of_gap hgap'
    have hsmall : op.rank.operand.slack ≤ 2 := by cases op <;> decide
    obtain ⟨d, rfl⟩ : ∃ d, depth = d + 1 := ⟨depth - 1, by omega⟩
    have hchained := (ihl hltl).chained op.rank_ne _ hdepth (closes_of_symbol hgap hsign).2
    have hmatched := (ihr hltr).matched (d + 1) (by omega) hcloses
    exact hchained.binary hgap hsign hgap' hr.atToken hmatched (by omega)

end Expr

end Source

end ProgramQuery
