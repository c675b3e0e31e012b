import ProgramQuery.Proofs.ListStructure
import ProgramQuery.Proofs.SolverAnswers
import ProgramQuery.Relation.Sequence

/-!
# Answers about sequence

In a well-formed program `prev` links are `next` links the other way round, so going back along the
one finds what going forward along the other leads from. The solvers of `Follows` and `Follows*`
decide what comes right after and what comes anywhere after a statement in its list
(`decides_follows`, `decides_followsStar`).
-/

set_option autoImplicit false

open Relation (TransGen)

namespace ProgramQuery

namespace Program

variable {p : Program} {s t : StmtId}

/-- In a well-formed program, `prev` links go back along `next` links. -/
theorem WellFormed.linkTo_prev_iff (hp : p.WellFormed) :
    p.LinkTo .prev t s ↔ p.LinkTo .next s t := by
  constructor
  · rintro ⟨other, ht, hprev⟩
    obtain ⟨stmt, hs⟩ := exists_stmt (hp.link_lt .prev t s other ht hprev)
    exact ⟨stmt, hs, (hp.next_iff_prev s t stmt other hs ht).mpr hprev⟩
  · rintro ⟨stmt, hs, hnext⟩
    obtain ⟨other, ht⟩ := exists_stmt (hp.link_lt .next s t stmt hs hnext)
    exact ⟨other, ht, (hp.next_iff_prev s t stmt other hs ht).mp hnext⟩

/-- In a well-formed program, following `prev` links goes back along what follows. -/
theorem WellFormed.transGen_prev_iff (hp : p.WellFormed) :
    TransGen (p.LinkTo .prev) t s ↔ TransGen (p.LinkTo .next) s t := by
  have hswap : p.LinkTo .prev = Function.swap (p.LinkTo .next) := by
    funext t s
    exact propext hp.linkTo_prev_iff
  rw [hswap, Relation.transGen_swap]

end Program

namespace Solver

open Program

variable {p : Program}

/-- **The solver of `Follows`** decides what comes right after a statement. -/
theorem decides_follows (hp : p.WellFormed) :
    (follows p).Decides p (OnStmts (p.LinkTo .next)) := by
  apply Cases.Answers.decides
  apply Cases.answers_of_stmts
  · intro s stmt hs
    refine ⟨stmt.next.toList, rfl, fun t => ?_⟩
    rw [Option.mem_toList, linkTo_iff hs]
    rfl
  · intro t stmt ht
    refine ⟨stmt.prev.toList, rfl, fun s => ?_⟩
    rw [Option.mem_toList, ← hp.linkTo_prev_iff, linkTo_iff ht]
    rfl
  · intro s stmt hs t ht
    exact ⟨stmt.next == some t, rfl⟩
  · intro s stmt hs t b hb
    cases hb
    rw [beq_iff_eq, linkTo_iff hs]
    rfl
  · intro s stmt r hr
    cases r with
    | stmt t => exact absurd rfl (hr t)
    | proc q => rfl
    | var x => rfl
    | const k => rfl

/-- **The solver of `Follows*`** decides what comes after a statement in its list. -/
theorem decides_followsStar (hp : p.WellFormed) :
    (followsStar p).Decides p (OnStmts (TransGen (p.LinkTo .next))) := by
  apply Cases.Answers.decides
  apply Cases.answers_of_stmts
  · intro s stmt hs
    obtain ⟨l, hl, hmem⟩ := hp.walk_eq .next hs
    refine ⟨l, ?_, hmem⟩
    simp only [Link.target] at hl
    rw [hl]
    rfl
  -- what comes before is found along `prev` links, which go back along the `next` links
  · intro t stmt ht
    obtain ⟨l, hl, hmem⟩ := hp.walk_eq .prev ht
    refine ⟨l, ?_, fun s => ?_⟩
    · simp only [Link.target] at hl
      rw [hl]
      rfl
    · rw [hmem, hp.transGen_prev_iff]
  · intro s stmt hs t ht
    obtain ⟨l, hl, -⟩ := hp.walk_eq .next hs
    refine ⟨l.contains t, ?_⟩
    simp only [Link.target] at hl
    simp only [hl]
    rfl
  · intro s stmt hs t b hb
    obtain ⟨l, hl, hmem⟩ := hp.walk_eq .next hs
    simp only [Link.target] at hl
    simp only [hl] at hb
    cases hb
    rw [List.contains_iff_mem]
    exact hmem t
  · intro s stmt r hr
    cases r with
    | stmt t => exact absurd rfl (hr t)
    | proc q => rfl
    | var x => rfl
    | const k => rfl

end Solver

end ProgramQuery
