import Mathlib.Order.Defs.Unbundled
import ProgramQuery.Proofs.LargestFamily

/-!
# Closures of relations

`Parent*` and `Follows*` are the transitive closures of `Parent` and `Follows`. The closure is taken
of what the solver of the smaller relation answers, and compared with what the solver of the larger
one answers, for each of the three questions that solvers are asked (`Solver.ClosureOf`).

No link of a well-formed program leads back to where it comes from, so the two closures are strict
orders, and effects lead from statements and procedures to variables. Hence no relation holds
between a condition and itself (`WellFormed.related_irrefl`), and a clause with the same variable on
both sides leaves nothing of its candidates (`closures_strict`).
-/

set_option autoImplicit false

open Relation (TransGen)

namespace ProgramQuery

/-! ## The answers about a pair -/

/-- The three questions by which a solver can be asked about a pair. -/
inductive Question where
  | right
  | left
  | holds
deriving DecidableEq, Repr

namespace Solver

/-- Asked about the pair of `l` and `r` by a question, the solver answers `b`. -/
def Answers (σ : Solver) (question : Question) (l r : Condition) (b : Bool) : Prop :=
  match question with
  | .right => ∃ rights, σ.right l = .ok rights ∧ (b = true ↔ r ∈ rights)
  | .left => ∃ lefts, σ.left r = .ok lefts ∧ (b = true ↔ l ∈ lefts)
  | .holds => σ.holds l r = .ok b

/-- Asked by a question, the solver says that `l` and `r` are related. -/
def Says (σ : Solver) (question : Question) (l r : Condition) : Prop := σ.Answers question l r true

variable {σ : Solver} {p : Program} {R : Condition → Condition → Prop} {l r : Condition}

/-- A solver that decides a relation answers each question about a pair by whether the relation
holds. -/
theorem Decides.answers (h : σ.Decides p R) (question : Question) (hl : l.In p) (hr : r.In p) :
    ∃ b, σ.Answers question l r b ∧ (b = true ↔ R l r) := by
  classical
  cases question with
  | right =>
    obtain ⟨rights, hrights, hmem⟩ := h.right l hl
    refine ⟨decide (R l r), ⟨rights, hrights, ?_⟩, decide_eq_true_iff⟩
    rw [decide_eq_true_iff, hmem]
  | left =>
    obtain ⟨lefts, hlefts, hmem⟩ := h.left r hr
    refine ⟨decide (R l r), ⟨lefts, hlefts, ?_⟩, decide_eq_true_iff⟩
    rw [decide_eq_true_iff, hmem]
  | holds =>
    obtain ⟨b, hb⟩ := h.holds l r hl hr
    exact ⟨b, hb, h.holds_iff l r b hb⟩

/-- Whatever the question, a solver says what the relation is that it decides. -/
theorem Decides.says_eq (h : σ.Decides p R) (hin : ∀ l r, R l r → l.In p ∧ r.In p)
    (question : Question) : σ.Says question = R := by
  funext l r
  apply propext
  constructor
  · intro hsays
    cases question with
    | right =>
      obtain ⟨rights, hrights, hmem⟩ := hsays
      exact (h.mem_right hrights).mp (hmem.mp rfl)
    | left =>
      obtain ⟨lefts, hlefts, hmem⟩ := hsays
      exact (h.mem_left hlefts).mp (hmem.mp rfl)
    | holds => exact (h.holds_iff l r true hsays).mp rfl
  · intro hR
    obtain ⟨hl, hr⟩ := hin l r hR
    obtain ⟨b, hb, hiff⟩ := h.answers question hl hr
    rw [hiff.mpr hR] at hb
    exact hb

/-- A solver answers for the closure of what another one says: all questions about conditions of the
program are answered, with yes exactly if a chain of pairs of the other one leads from left to
right. What it says is a strict order. -/
structure ClosureOf (star base : Solver) (p : Program) : Prop where
  answers : ∀ (question : Question) (l r : Condition), l.In p → r.In p →
    ∃ b, star.Answers question l r b ∧ (b = true ↔ TransGen (base.Says question) l r)
  strict : ∀ question, IsStrictOrder Condition (star.Says question)

/-- A solver that decides the closure of what another one decides answers for its closure, if no
condition is in the closure with itself. -/
theorem closureOf_of_decides {star base : Solver} {S : Condition → Condition → Prop}
    (hbase : base.Decides p R) (hstar : star.Decides p S) (hclosure : S = TransGen R)
    (hin : ∀ l r, R l r → l.In p ∧ r.In p) (hirrefl : ∀ c, ¬ S c c) : star.ClosureOf base p := by
  subst hclosure
  have hinStar : ∀ l r, TransGen R l r → l.In p ∧ r.In p := by
    intro l r h
    obtain ⟨m, hlm, -⟩ := Relation.TransGen.head'_iff.mp h
    obtain ⟨n, -, hnr⟩ := Relation.TransGen.tail'_iff.mp h
    exact ⟨(hin l m hlm).1, (hin n r hnr).2⟩
  refine ⟨?_, ?_⟩
  · intro question l r hl hr
    rw [hbase.says_eq hin]
    exact hstar.answers question hl hr
  · intro question
    rw [hstar.says_eq hinStar]
    exact { irrefl := hirrefl, trans := fun _ _ _ hab hbc => hab.trans hbc }

end Solver

/-! ## The relations of a program -/

/-- The closure of a relation on statements is the same, whether it is taken among statements or
among the conditions that name them. -/
theorem onStmts_transGen {R : StmtId → StmtId → Prop} :
    OnStmts (TransGen R) = TransGen (OnStmts R) := by
  funext l r
  apply propext
  constructor
  · rintro ⟨s, t, rfl, rfl, h⟩
    exact h.lift Condition.stmt fun a b hab => onStmts_stmt.mpr hab
  · intro h
    induction h with
    | single h =>
      obtain ⟨s, t, rfl, rfl, hst⟩ := h
      exact onStmts_stmt.mpr (.single hst)
    | tail _ h ih =>
      obtain ⟨s, t, rfl, rfl, hst⟩ := ih
      obtain ⟨t', u, ht, rfl, htu⟩ := h
      cases ht
      exact onStmts_stmt.mpr (hst.tail htu)

namespace Program

variable {p : Program}

/-- Statements that are linked belong to the program. -/
theorem WellFormed.linkTo_in (hp : p.WellFormed) {link : Link} {l r : Condition}
    (h : OnStmts (p.LinkTo link) l r) : l.In p ∧ r.In p := by
  obtain ⟨s, t, rfl, rfl, hst⟩ := h
  obtain ⟨stmt, hs, ht⟩ := id hst
  exact ⟨hst.lt_size, hp.link_lt link s t stmt hs ht⟩

/-- A statement that is inside another belongs to the program, and so does the other one. -/
theorem WellFormed.inside_in (hp : p.WellFormed) {l r : Condition} (h : OnStmts p.Inside l r) :
    l.In p ∧ r.In p := by
  obtain ⟨s, t, rfl, rfl, hst⟩ := h
  have hlink : OnStmts (p.LinkTo .parent) (.stmt t) (.stmt s) := onStmts_stmt.mpr hst
  exact (hp.linkTo_in hlink).symm

/-- A relation that no statement has to itself is one that no condition has to itself. -/
theorem onStmts_irrefl {R : StmtId → StmtId → Prop} (h : ∀ s, ¬ R s s) (c : Condition) :
    ¬ OnStmts R c c := by
  rintro ⟨s, t, rfl, heq, hst⟩
  cases heq
  exact h s hst

/-- Effects are on variables, and variables have none. -/
theorem hasEffect_irrefl {effect : Effect} (c : Condition) : ¬ p.HasEffect effect c c := by
  rintro ⟨x, rfl, haffects⟩
  rcases haffects.of_program.2 with ⟨s, heq⟩ | ⟨q, heq⟩
  · cases heq
  · cases heq

/-- **Nothing is related to itself**, by any of the relations. -/
theorem WellFormed.related_irrefl (hp : p.WellFormed) (rel : Relation) (c : Condition) :
    ¬ p.Related rel c c := by
  cases rel with
  | parent => exact onStmts_irrefl (fun s hs => hp.inside_irrefl (.single hs)) c
  | parentStar => exact onStmts_irrefl (fun s => hp.inside_irrefl) c
  | follows => exact onStmts_irrefl (fun s hs => hp.linkTo_irrefl .next (.single hs)) c
  | followsStar => exact onStmts_irrefl (fun s => hp.linkTo_irrefl .next) c
  | modifies => exact hasEffect_irrefl c
  | uses => exact hasEffect_irrefl c

end Program

namespace Solver

variable {σ : Solver} {p : Program} {R : Condition → Condition → Prop}

/-- A clause of an irreflexive relation with the same variable on both sides leaves no
candidates. -/
theorem Decides.evaluateSelf_eq (h : σ.Decides p R) (hirrefl : ∀ c, ¬ R c c) (v : Variable)
    (hv : ∀ c ∈ v.candidates, c.In p) : σ.evaluateSelf v = (v.assign ∅, .ok false) := by
  have hin : ∀ c ∈ v.candidates.toList, c.In p := fun c hc => hv c (SortedSet.mem_toList.mp hc)
  obtain ⟨kept, heq, hmem⟩ := h.selfRelated_eq hin ∅
  have hempty : kept = ∅ := by
    apply SortedSet.ext_mem
    intro c
    rw [hmem]
    simp [hirrefl c]
  unfold evaluateSelf
  rw [heq, hempty]
  rfl

end Solver

namespace Analysis

open Query (exampleQuery exampleQuery_in)

variable {p : Program}

/-- **The closures of a program** are what their solvers answer, and they are strict orders. No
relation holds of a condition and itself. So a clause with the same variable on both sides takes
away all candidates of the variable, and every query that has such a clause is answered with no. -/
theorem closures_strict (h : p.Built) :
    ∃ a : Analysis, (∀ settings, ofProgram settings p = .ok a) ∧
      (a.solvers .parentStar).ClosureOf (a.solvers .parent) p ∧
      (a.solvers .followsStar).ClosureOf (a.solvers .follows) p ∧
      (∀ (rel : Relation) (c : Condition), c.In p → (a.solvers rel).holds c c = .ok false) ∧
      (∀ (rel : Relation) (v : Variable), (∀ c ∈ v.candidates, c.In p) →
        (a.solvers rel).evaluateSelf v = (v.assign ∅, .ok false)) ∧
      ∀ (query : Query) (clause : Clause),
        (∀ id, ∀ c ∈ Query.candidatesOf query.vars id, c.In p) →
        (∀ other ∈ query.clauses,
          other.left < query.vars.size ∧ other.right < query.vars.size) →
        clause ∈ query.clauses → clause.left = clause.right →
        (query.run a.solvers).2 = .ok false := by
  have hp := h.wellFormed
  obtain ⟨a, hmade, -, hdecides⟩ := decides_ofProgram hp
  refine ⟨a, hmade, ?_, ?_, ?_, ?_, ?_⟩
  · exact Solver.closureOf_of_decides (hdecides .parent) (hdecides .parentStar) onStmts_transGen
      (fun l r => hp.inside_in) (hp.related_irrefl .parentStar)
  · exact Solver.closureOf_of_decides (hdecides .follows) (hdecides .followsStar) onStmts_transGen
      (fun l r => hp.linkTo_in) (hp.related_irrefl .followsStar)
  · intro rel c hc
    obtain ⟨b, hb⟩ := (hdecides rel).holds c c hc hc
    have hiff := (hdecides rel).holds_iff c c b hb
    rw [hb, Bool.eq_false_iff.mpr fun hyes => hp.related_irrefl rel c (hiff.mp hyes)]
  · intro rel v hv
    exact (hdecides rel).evaluateSelf_eq (hp.related_irrefl rel) v hv
  · intro query clause hvars hdeclared hclause hsame
    have hready : Query.Ready p query.clauses query.vars := ⟨hvars, hdeclared⟩
    obtain ⟨b, hrun, hiff, -⟩ := hready.run_eq query hdecides
    -- a pair for the clause would be a condition that is related to itself
    have hno : b ≠ true := by
      intro hb
      obtain ⟨c, -, d, -, hR, heq⟩ := hiff.mp hb clause hclause
      cases heq hsame
      exact hp.related_irrefl clause.relation c hR
    rw [hrun, Bool.eq_false_iff.mpr hno]

/-- The last statement of the example program is nested in the branch, the branch is not nested in
itself, and a query that asks for a statement nested in itself is answered with no. -/
theorem closures_exampleProgram_strict :
    exampleProgram.Built ∧ ∃ a : Analysis, ofProgram {} exampleProgram = .ok a ∧
      (a.solvers .parentStar).holds (.stmt 2) (.stmt 4) = .ok true ∧
      TransGen ((a.solvers .parent).Says .left) (.stmt 2) (.stmt 4) ∧
      (a.solvers .parentStar).holds (.stmt 2) (.stmt 2) = .ok false ∧
      ((exampleQuery.addClause ⟨.parentStar, 0, 0⟩).run a.solvers).2 = .ok false := by
  refine ⟨built_exampleProgram, ?_⟩
  obtain ⟨a, hmade, hparent, -, hself, -, hrun⟩ := closures_strict built_exampleProgram
  have hcomputed : (do ((← ofProgram {} exampleProgram).solvers .parentStar).left (.stmt 4)) =
      .ok (.ofStmts [2]) := by decide +kernel
  rw [hmade] at hcomputed
  have hlast : Condition.In exampleProgram (.stmt 4) := show 4 < 5 by decide
  have hbranch : Condition.In exampleProgram (.stmt 2) := show 2 < 5 by decide
  obtain ⟨b, ⟨lefts, hlefts, hb⟩, hchain⟩ := hparent.answers .left (.stmt 2) (.stmt 4) hbranch hlast
  have heq : lefts = .ofStmts [2] := Except.ok.inj (hlefts.symm.trans hcomputed)
  have hyes : b = true := hb.mpr (by simp [heq])
  have hnested :
      (do ((← ofProgram {} exampleProgram).solvers .parentStar).holds (.stmt 2) (.stmt 4)) =
      .ok true := by decide +kernel
  rw [hmade] at hnested
  refine ⟨a, hmade {}, hnested, hchain.mp hyes, hself .parentStar (.stmt 2) hbranch, ?_⟩
  exact hrun (exampleQuery.addClause ⟨.parentStar, 0, 0⟩) ⟨.parentStar, 0, 0⟩ exampleQuery_in
    (by decide) (by decide) rfl

end Analysis

end ProgramQuery
