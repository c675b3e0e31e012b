import ProgramQuery.Analysis
import ProgramQuery.Proofs.EffectAnswers
import ProgramQuery.Proofs.NestingAnswers
import ProgramQuery.Proofs.SequenceAnswers

/-!
# All solvers agree

What the six relations say about a well-formed program is `Program.Related`. The analysis of the
program has a solver for each of them that decides it (`decides_ofProgram`). Therefore the three
questions that a solver answers fit together: a pair is in the relation exactly if its right
argument is listed for the left one, and exactly if its left argument is listed for the right one
(`solvers_agree`).

Links back to containers are right in a well-formed program, so it does not matter if they are
checked.
-/

set_option autoImplicit false

open Relation (TransGen)

namespace ProgramQuery

/-- What the relations say about the conditions of a program. -/
def Program.Related (p : Program) : Relation → Condition → Condition → Prop
  | .parent => OnStmts p.Inside
  | .parentStar => OnStmts (TransGen p.Inside)
  | .follows => OnStmts (p.LinkTo .next)
  | .followsStar => OnStmts (TransGen (p.LinkTo .next))
  | .modifies => p.HasEffect .modifies
  | .uses => p.HasEffect .uses

namespace Analysis

variable {p : Program}

/-- **The solvers of a program** are the same whether or not links are checked, and they decide the
relations. -/
theorem decides_ofProgram (hp : p.WellFormed) :
    ∃ a : Analysis, (∀ settings, ofProgram settings p = .ok a) ∧
      (∀ rel check, Relation.solver p check rel = .ok (a.solvers rel)) ∧
      ∀ rel, (a.solvers rel).Decides p (p.Related rel) := by
  obtain ⟨parent, hparent, hparentDecides⟩ := Solver.decides_parent hp
  obtain ⟨parentStar, hparentStar, hparentStarDecides⟩ := Solver.decides_parentStar hp
  obtain ⟨modifies, hmodifies, hmodifiesDecides⟩ := Effect.decides_solver .modifies hp
  obtain ⟨uses, huses, husesDecides⟩ := Effect.decides_solver .uses hp
  refine ⟨⟨p, fun
    | .parent => parent
    | .parentStar => parentStar
    | .follows => .follows p
    | .followsStar => .followsStar p
    | .modifies => modifies
    | .uses => uses⟩, ?_, ?_, ?_⟩
  · intro settings
    unfold ofProgram
    simp only [hparent, hparentStar, hmodifies, huses]
    rfl
  · intro rel check
    cases rel with
    | parent => exact congrArg Except.ok (hparent check)
    | parentStar => exact congrArg Except.ok (hparentStar check)
    | follows => rfl
    | followsStar => rfl
    | modifies => exact hmodifies check
    | uses => exact huses check
  · intro rel
    cases rel with
    | parent => exact hparentDecides
    | parentStar => exact hparentStarDecides
    | follows => exact Solver.decides_follows hp
    | followsStar => exact Solver.decides_followsStar hp
    | modifies => exact hmodifiesDecides
    | uses => exact husesDecides

/-- **The answers about a program agree**. An analysis is made, the same for all settings. Each of
its solvers answers all questions about conditions of the program, and the answers are what the
relation says. About other numbers the answers that are given still agree. -/
theorem solvers_agree (h : p.Built) :
    ∃ a : Analysis, (∀ settings, ofProgram settings p = .ok a) ∧
      (∀ rel check, Relation.solver p check rel = .ok (a.solvers rel)) ∧
      (∀ (rel : Relation) (l r : Condition), l.In p → r.In p →
        ∃ rights lefts b, (a.solvers rel).right l = .ok rights ∧
          (a.solvers rel).left r = .ok lefts ∧ (a.solvers rel).holds l r = .ok b ∧
          (b = true ↔ r ∈ rights) ∧ (b = true ↔ l ∈ lefts) ∧ (b = true ↔ p.Related rel l r)) ∧
      ∀ (rel : Relation) (l r : Condition),
        (∀ rights lefts, (a.solvers rel).right l = .ok rights → (a.solvers rel).left r = .ok lefts →
          (r ∈ rights ↔ l ∈ lefts)) ∧
        (∀ rights b, (a.solvers rel).right l = .ok rights → (a.solvers rel).holds l r = .ok b →
          (b = true ↔ r ∈ rights)) ∧
        ∀ lefts b, (a.solvers rel).left r = .ok lefts → (a.solvers rel).holds l r = .ok b →
          (b = true ↔ l ∈ lefts) := by
  obtain ⟨a, hmade, hsolver, hdecides⟩ := decides_ofProgram h.wellFormed
  refine ⟨a, hmade, hsolver, ?_, ?_⟩
  · intro rel l r hl hr
    obtain ⟨rights, hrights, hmemRights⟩ := (hdecides rel).right l hl
    obtain ⟨lefts, hlefts, hmemLefts⟩ := (hdecides rel).left r hr
    obtain ⟨b, hb⟩ := (hdecides rel).holds l r hl hr
    have hiff := (hdecides rel).holds_iff l r b hb
    refine ⟨rights, lefts, b, hrights, hlefts, hb, ?_, ?_, hiff⟩
    · rw [hiff, hmemRights]
    · rw [hiff, hmemLefts]
  · intro rel l r
    refine ⟨?_, ?_, ?_⟩
    · intro rights lefts hrights hlefts
      rw [(hdecides rel).mem_right hrights, (hdecides rel).mem_left hlefts]
    · intro rights b hrights hb
      rw [(hdecides rel).mem_right hrights, (hdecides rel).holds_iff l r b hb]
    · intro lefts b hlefts hb
      rw [(hdecides rel).mem_left hlefts, (hdecides rel).holds_iff l r b hb]

/-- The last statement of the example program is nested in the branch, and all three answers
tell. -/
theorem solvers_exampleProgram_agree :
    ∃ a rights lefts, ofProgram {} exampleProgram = .ok a ∧
      (a.solvers .parentStar).right (.stmt 2) = .ok rights ∧ .stmt 4 ∈ rights ∧
      (a.solvers .parentStar).left (.stmt 4) = .ok lefts ∧ .stmt 2 ∈ lefts ∧
      (a.solvers .parentStar).holds (.stmt 2) (.stmt 4) = .ok true ∧
      exampleProgram.Related .parentStar (.stmt 2) (.stmt 4) := by
  obtain ⟨a, hmade, -, hanswers, -⟩ := solvers_agree built_exampleProgram
  obtain ⟨rights, lefts, b, hrights, hlefts, hb, hright, hleft, hrelated⟩ :=
    hanswers .parentStar (.stmt 2) (.stmt 4) (show 2 < 5 by decide) (show 4 < 5 by decide)
  have hcomputed :
      (do ((← ofProgram {} exampleProgram).solvers .parentStar).holds (.stmt 2) (.stmt 4)) =
      .ok true := by decide +kernel
  rw [hmade] at hcomputed
  have heq : b = true := Except.ok.inj (hb.symm.trans hcomputed)
  subst heq
  exact ⟨a, rights, lefts, hmade {}, hrights, hright.mp rfl, hlefts, hleft.mp rfl, hb,
    hrelated.mp rfl⟩

end Analysis

end ProgramQuery
