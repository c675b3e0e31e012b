import ProgramQuery.Proofs.LinkPaths
import ProgramQuery.Relation.Basic

/-!
# Solvers that decide a relation

A solver decides a relation between the conditions of a program (`Solver.Decides`) if it answers all
three questions about them and each answer is what the relation says. About numbers that the program
does not have it gives no list of arguments at all. Whether a pair is related may then be answered
or refused, but an answer is still right.

A solver made from answers by kind of argument decides a relation if each of those answers does so
(`Solver.Cases.Answers.decides`).
-/

set_option autoImplicit false

namespace ProgramQuery

/-- The conditions of a program: its statements and procedures, all variables and all constants. -/
def Condition.In (p : Program) : Condition → Prop
  | .stmt s => s < p.stmts.size
  | .proc q => q < p.procs.size
  | .var _ => True
  | .const _ => True

instance (p : Program) : (c : Condition) → Decidable (c.In p)
  | .stmt s => inferInstanceAs (Decidable (s < p.stmts.size))
  | .proc q => inferInstanceAs (Decidable (q < p.procs.size))
  | .var _ => isTrue trivial
  | .const _ => isTrue trivial

/-- The conditions are statements in a relation. -/
def OnStmts (R : StmtId → StmtId → Prop) (l r : Condition) : Prop :=
  ∃ s t, l = .stmt s ∧ r = .stmt t ∧ R s t

/-- Statements are in a relation as conditions if they are as statements. -/
@[simp] theorem onStmts_stmt {R : StmtId → StmtId → Prop} {s t : StmtId} :
    OnStmts R (.stmt s) (.stmt t) ↔ R s t := by
  simp [OnStmts]

/-- A solver answers the questions about a relation between the conditions of a program. -/
structure Solver.Decides (σ : Solver) (p : Program) (R : Condition → Condition → Prop) : Prop where
  right : ∀ l, l.In p → ∃ answer, σ.right l = .ok answer ∧ ∀ r, r ∈ answer ↔ R l r
  left : ∀ r, r.In p → ∃ answer, σ.left r = .ok answer ∧ ∀ l, l ∈ answer ↔ R l r
  holds : ∀ l r, l.In p → r.In p → ∃ b, σ.holds l r = .ok b
  holds_iff : ∀ l r b, σ.holds l r = .ok b → (b = true ↔ R l r)
  right_refused : ∀ l, ¬ l.In p → ∀ answer, σ.right l ≠ .ok answer
  left_refused : ∀ r, ¬ r.In p → ∀ answer, σ.left r ≠ .ok answer

namespace Solver.Decides

variable {σ : Solver} {p : Program} {R : Condition → Condition → Prop} {l r : Condition}
  {answer : ConditionSet}

/-- Every list of right arguments that is given is the right one. -/
theorem mem_right (h : σ.Decides p R) (hanswer : σ.right l = .ok answer) :
    r ∈ answer ↔ R l r := by
  by_cases hl : l.In p
  · obtain ⟨answer', hanswer', hmem⟩ := h.right l hl
    rw [hanswer] at hanswer'
    cases hanswer'
    exact hmem r
  · exact absurd hanswer (h.right_refused l hl answer)

/-- Every list of left arguments that is given is the right one. -/
theorem mem_left (h : σ.Decides p R) (hanswer : σ.left r = .ok answer) :
    l ∈ answer ↔ R l r := by
  by_cases hr : r.In p
  · obtain ⟨answer', hanswer', hmem⟩ := h.left r hr
    rw [hanswer] at hanswer'
    cases hanswer'
    exact hmem l
  · exact absurd hanswer (h.left_refused r hr answer)

end Solver.Decides

/-! ## Answers by kind of argument -/

/-- Answers by kind of argument are right about a relation. -/
structure Solver.Cases.Answers (cases : Solver.Cases) (p : Program)
    (R : Condition → Condition → Prop) : Prop where
  rightOfStmt : ∀ (s : StmtId) (stmt : Stmt), p.stmts[s]? = some stmt →
    ∃ answer, cases.rightOfStmt s stmt = .ok answer ∧ ∀ r, r ∈ answer ↔ R (.stmt s) r
  rightOfProc : ∀ q, q < p.procs.size →
    ∃ answer, cases.rightOfProc q = .ok answer ∧ ∀ r, r ∈ answer ↔ R (.proc q) r
  leftOfStmt : ∀ (s : StmtId) (stmt : Stmt), p.stmts[s]? = some stmt →
    ∃ answer, cases.leftOfStmt s stmt = .ok answer ∧ ∀ l, l ∈ answer ↔ R l (.stmt s)
  leftOfVar : ∀ x, ∃ answer, cases.leftOfVar x = .ok answer ∧ ∀ l, l ∈ answer ↔ R l (.var x)
  holdsOfStmt : ∀ (s : StmtId) (stmt : Stmt), p.stmts[s]? = some stmt → ∀ r : Condition, r.In p →
    ∃ b, cases.holdsOfStmt s stmt r = .ok b
  holdsOfStmt_iff : ∀ (s : StmtId) (stmt : Stmt), p.stmts[s]? = some stmt → ∀ r b,
    cases.holdsOfStmt s stmt r = .ok b → (b = true ↔ R (.stmt s) r)
  holdsOfProc : ∀ q, q < p.procs.size → ∀ r, ∃ b, cases.holdsOfProc q r = .ok b ∧
    (b = true ↔ R (.proc q) r)
  /-- Variables and constants are in no relation to anything. -/
  var_unrelated : ∀ x r, ¬ R (.var x) r
  const_unrelated : ∀ k r, ¬ R (.const k) r
  /-- Nothing is in a relation to procedures and constants. -/
  unrelated_proc : ∀ l q, ¬ R l (.proc q)
  unrelated_const : ∀ l k, ¬ R l (.const k)

namespace Program

variable {p : Program} {s : StmtId} {q : ProcId}

/-- A procedure of the program is found by its number. -/
theorem getProc_eq_ok (hq : q < p.procs.size) :
    p.getProc q = .ok p.procs[q] := by
  unfold getProc
  rw [Array.getElem?_eq_getElem hq]

/-- A statement that the program does not have is refused, with its number. -/
theorem getStmt_refused (hs : ¬ s < p.stmts.size) :
    p.getStmt s = .error (.unknownStmt s) := by
  unfold getStmt
  rw [Array.getElem?_eq_none (Nat.le_of_not_lt hs)]

/-- A procedure that the program does not have is refused, with its number. -/
theorem getProc_refused (hq : ¬ q < p.procs.size) :
    p.getProc q = .error (.unknownProc q) := by
  unfold getProc
  rw [Array.getElem?_eq_none (Nat.le_of_not_lt hq)]

end Program

namespace Solver

open Program

variable {p : Program} {cases : Solver.Cases} {R : Condition → Condition → Prop}

/-- To the right of a statement, a solver by kinds answers as for statements. -/
theorem ofCases_right_stmt {s : StmtId} {stmt : Stmt} (hs : p.stmts[s]? = some stmt) :
    (ofCases p cases).right (.stmt s) = cases.rightOfStmt s stmt := by
  simp only [ofCases, getStmt_eq_ok.mpr hs]
  rfl

/-- To the left of a statement, a solver by kinds answers as for statements. -/
theorem ofCases_left_stmt {s : StmtId} {stmt : Stmt} (hs : p.stmts[s]? = some stmt) :
    (ofCases p cases).left (.stmt s) = cases.leftOfStmt s stmt := by
  simp only [ofCases, getStmt_eq_ok.mpr hs]
  rfl

/-- Whether a statement is related to something, a solver by kinds answers as for statements. -/
theorem ofCases_holds_stmt {s : StmtId} {stmt : Stmt} (hs : p.stmts[s]? = some stmt)
    (r : Condition) : (ofCases p cases).holds (.stmt s) r = cases.holdsOfStmt s stmt r := by
  simp only [ofCases, getStmt_eq_ok.mpr hs]
  rfl

/-- **Solvers by kind of argument**: right answers by kind make a solver that decides the
relation. -/
theorem Cases.Answers.decides (h : cases.Answers p R) : (ofCases p cases).Decides p R := by
  -- a condition that is in no relation has no arguments
  have hempty : ∀ {P : Condition → Prop}, (∀ c, ¬ P c) → ∃ answer : ConditionSet,
      (.ok ∅ : Except Inconsistency ConditionSet) = .ok answer ∧ ∀ c, c ∈ answer ↔ P c := by
    intro P hP
    exact ⟨∅, rfl,
      fun c => ⟨fun hc => absurd hc SortedSet.not_mem_empty, fun hc => absurd hc (hP c)⟩⟩
  refine ⟨?_, ?_, ?_, ?_, ?_, ?_⟩
  · intro l hl
    cases l with
    | stmt s =>
      obtain ⟨stmt, hs⟩ := exists_stmt hl
      rw [ofCases_right_stmt hs]
      exact h.rightOfStmt s stmt hs
    | proc q =>
      simp only [ofCases, getProc_eq_ok hl]
      exact h.rightOfProc q hl
    | var x => exact hempty (h.var_unrelated x)
    | const k => exact hempty (h.const_unrelated k)
  · intro r hr
    cases r with
    | stmt s =>
      obtain ⟨stmt, hs⟩ := exists_stmt hr
      rw [ofCases_left_stmt hs]
      exact h.leftOfStmt s stmt hs
    | proc q =>
      simp only [ofCases, getProc_eq_ok hr]
      exact hempty fun l => h.unrelated_proc l q
    | var x => exact h.leftOfVar x
    | const k => exact hempty fun l => h.unrelated_const l k
  · intro l r hl hr
    cases l with
    | stmt s =>
      obtain ⟨stmt, hs⟩ := exists_stmt hl
      rw [ofCases_holds_stmt hs]
      exact h.holdsOfStmt s stmt hs r hr
    | proc q =>
      simp only [ofCases, getProc_eq_ok hl]
      obtain ⟨b, hb, -⟩ := h.holdsOfProc q hl r
      exact ⟨b, hb⟩
    | var x => exact ⟨false, rfl⟩
    | const k => exact ⟨false, rfl⟩
  · intro l r b hb
    cases l with
    | stmt s =>
      by_cases hs : s < p.stmts.size
      · obtain ⟨stmt, hstmt⟩ := exists_stmt hs
        rw [ofCases_holds_stmt hstmt] at hb
        exact h.holdsOfStmt_iff s stmt hstmt r b hb
      · simp only [ofCases, getStmt_refused hs] at hb
        cases hb
    | proc q =>
      by_cases hq : q < p.procs.size
      · simp only [ofCases, getProc_eq_ok hq] at hb
        obtain ⟨b', hb', hiff⟩ := h.holdsOfProc q hq r
        rw [← hiff]
        have heq : cases.holdsOfProc q r = .ok b := hb
        rw [hb'] at heq
        cases heq
        rfl
      · simp only [ofCases, getProc_refused hq] at hb
        cases hb
    | var x =>
      cases hb
      exact ⟨fun hb => absurd hb Bool.false_ne_true, fun hr => absurd hr (h.var_unrelated x r)⟩
    | const k =>
      cases hb
      exact ⟨fun hb => absurd hb Bool.false_ne_true, fun hr => absurd hr (h.const_unrelated k r)⟩
  · intro l hl answer hanswer
    cases l with
    | stmt s =>
      simp only [ofCases, getStmt_refused hl] at hanswer
      cases hanswer
    | proc q =>
      simp only [ofCases, getProc_refused hl] at hanswer
      cases hanswer
    | var x => exact hl trivial
    | const k => exact hl trivial
  · intro r hr answer hanswer
    cases r with
    | stmt s =>
      simp only [ofCases, getStmt_refused hr] at hanswer
      cases hanswer
    | proc q =>
      simp only [ofCases, getProc_refused hr] at hanswer
      cases hanswer
    | var x => exact hr trivial
    | const k => exact hr trivial

/-! ## Relations between statements -/

/-- Answers about statements alone are right if the lists of statements are. -/
theorem Cases.answers_of_stmts {R : StmtId → StmtId → Prop}
    {right left : StmtId → Stmt → Except Inconsistency ConditionSet}
    {holds : StmtId → Stmt → Condition → Except Inconsistency Bool}
    (hright : ∀ (s : StmtId) (stmt : Stmt), p.stmts[s]? = some stmt →
      ∃ l, right s stmt = .ok (.ofStmts l) ∧ ∀ t, t ∈ l ↔ R s t)
    (hleft : ∀ (t : StmtId) (stmt : Stmt), p.stmts[t]? = some stmt →
      ∃ l, left t stmt = .ok (.ofStmts l) ∧ ∀ s, s ∈ l ↔ R s t)
    (hholds : ∀ (s : StmtId) (stmt : Stmt), p.stmts[s]? = some stmt → ∀ t, t < p.stmts.size →
      ∃ b, holds s stmt (.stmt t) = .ok b)
    (hiff : ∀ (s : StmtId) (stmt : Stmt), p.stmts[s]? = some stmt → ∀ t b,
      holds s stmt (.stmt t) = .ok b → (b = true ↔ R s t))
    (hother : ∀ (s : StmtId) (stmt : Stmt) (r : Condition), (∀ t, r ≠ .stmt t) →
      holds s stmt r = .ok false) :
    Cases.Answers { rightOfStmt := right, leftOfStmt := left, holdsOfStmt := holds } p
      (OnStmts R) := by
  refine ⟨?_, ?_, ?_, ?_, ?_, ?_, ?_, ?_, ?_, ?_, ?_⟩
  · intro s stmt hs
    obtain ⟨l, hl, hmem⟩ := hright s stmt hs
    refine ⟨.ofStmts l, hl, fun r => ?_⟩
    simp only [ConditionSet.mem_ofStmts, hmem]
    constructor
    · rintro ⟨t, ht, rfl⟩
      exact ⟨s, t, rfl, rfl, ht⟩
    · rintro ⟨s', t, hs', rfl, ht⟩
      cases hs'
      exact ⟨t, ht, rfl⟩
  · intro q hq
    exact ⟨∅, rfl, fun r => by simp [OnStmts]⟩
  · intro t stmt ht
    obtain ⟨l, hl, hmem⟩ := hleft t stmt ht
    refine ⟨.ofStmts l, hl, fun c => ?_⟩
    simp only [ConditionSet.mem_ofStmts, hmem]
    constructor
    · rintro ⟨s, hs, rfl⟩
      exact ⟨s, t, rfl, rfl, hs⟩
    · rintro ⟨s, t', rfl, ht', hs⟩
      cases ht'
      exact ⟨s, hs, rfl⟩
  · intro x
    exact ⟨∅, rfl, fun l => by simp [OnStmts]⟩
  · intro s stmt hs r hr
    cases r with
    | stmt t => exact hholds s stmt hs t hr
    | proc q => exact ⟨false, hother s stmt _ (by simp)⟩
    | var x => exact ⟨false, hother s stmt _ (by simp)⟩
    | const k => exact ⟨false, hother s stmt _ (by simp)⟩
  · intro s stmt hs r b hb
    by_cases hr : ∃ t, r = .stmt t
    · obtain ⟨t, rfl⟩ := hr
      rw [onStmts_stmt]
      exact hiff s stmt hs t b hb
    · have hfalse : holds s stmt r = .ok false := hother s stmt r fun t ht => hr ⟨t, ht⟩
      cases hfalse.symm.trans hb
      refine ⟨fun h => absurd h Bool.false_ne_true, ?_⟩
      rintro ⟨s', t, -, rfl, -⟩
      exact absurd ⟨t, rfl⟩ hr
  · intro q hq r
    exact ⟨false, rfl, by simp [OnStmts]⟩
  · simp [OnStmts]
  · simp [OnStmts]
  · simp [OnStmts]
  · simp [OnStmts]

/-- Solvers are asked only about statements of the program. -/
theorem ofCases_congr {right right' left : StmtId → Stmt → Except Inconsistency ConditionSet}
    {holds : StmtId → Stmt → Condition → Except Inconsistency Bool}
    (h : ∀ (s : StmtId) (stmt : Stmt), p.stmts[s]? = some stmt → right s stmt = right' s stmt) :
    ofCases p { rightOfStmt := right, leftOfStmt := left, holdsOfStmt := holds } =
      ofCases p { rightOfStmt := right', leftOfStmt := left, holdsOfStmt := holds } := by
  have hright : ∀ l,
      (ofCases p { rightOfStmt := right, leftOfStmt := left, holdsOfStmt := holds }).right l =
      (ofCases p { rightOfStmt := right', leftOfStmt := left, holdsOfStmt := holds }).right l := by
    intro l
    cases l with
    | stmt s =>
      by_cases hs : s < p.stmts.size
      · obtain ⟨stmt, hstmt⟩ := exists_stmt hs
        rw [ofCases_right_stmt hstmt, ofCases_right_stmt hstmt]
        exact h s stmt hstmt
      · simp only [ofCases, getStmt_refused hs]
        rfl
    | proc q => rfl
    | var x => rfl
    | const k => rfl
  have heq := funext hright
  unfold ofCases at heq ⊢
  rw [Solver.mk.injEq]
  exact ⟨heq, rfl, rfl⟩

end Solver

end ProgramQuery
