import ProgramQuery.Proofs.ClauseNarrowing
import ProgramQuery.Proofs.SolverAgreement

/-!
# Clauses from either side

A clause goes through the candidates of one of its sides, in some order, and asks the solver for
partners on the other side. The two sides ask different questions: which right arguments go with a
left one, and which left arguments go with a right one. `Solver.evaluateFrom` leaves open which side
is gone through and in which order; `Solver.evaluate` is one of these ways
(`evaluate_eq_evaluateFrom`).

If the solver decides a relation, all ways come to the same (`Decides.evaluateFrom_eq`): the
candidates that are left are those in a pair. The solvers of a built program decide their relations,
so for them neither the side nor the order matters, and what is left can be told pair by pair
(`Analysis.evaluate_from_either_side`).
-/

set_option autoImplicit false

namespace ProgramQuery

/-- What a clause leaves of a variable. A named variable is bound to those of its candidates that
have the property. A wildcard stays as it is, and ranges over its whole predicate. -/
structure Variable.LeftWith (v v' : Variable) (P : Condition → Prop) : Prop where
  named : v.isWildcard = false →
    ∃ kept, v'.binding = some kept ∧ ∀ c, c ∈ kept ↔ c ∈ v.candidates ∧ P c
  wildcard : v.isWildcard = true → v' = v ∧ v'.candidates = v.predicate.members

/-- Assigning a variable its candidates with a property is what a clause leaves of it. -/
theorem Variable.leftWith_assign {v : Variable} {set : ConditionSet} {P : Condition → Prop}
    (hset : ∀ c, c ∈ set ↔ c ∈ v.candidates ∧ P c) : v.LeftWith (v.assign set) P := by
  cases v with
  | wildcard predicate => exact ⟨nofun, fun _ => ⟨rfl, rfl⟩⟩
  | named name predicate bound => exact ⟨fun _ => ⟨set, rfl, hset⟩, nofun⟩

namespace Solver

/-- Narrows two variables by a clause, as `evaluate` does, but goes through the candidates of the
given side in the given order. -/
def evaluateFrom (σ : Solver) (fromRight : Bool) (order : List Condition) (left right : Variable) :
    (Variable × Variable) × Except Inconsistency Bool :=
  match
    if fromRight then (matchCandidates σ.left left.candidates order ∅ ∅).map Prod.swap
    else matchCandidates σ.right right.candidates order ∅ ∅ with
  | .error fault => ((left.bind, right.bind), .error fault)
  | .ok (lefts, rights) => ((left.assign lefts, right.assign rights), .ok !lefts.isEmpty)

variable {σ : Solver} {p : Program} {R : Condition → Condition → Prop} {left right : Variable}
  {lefts rights : ConditionSet}

/-- A clause goes through the right side if it alone is bound, and through the left side
otherwise. -/
theorem evaluate_eq_evaluateFrom (σ : Solver) (left right : Variable) :
    σ.evaluate left right = σ.evaluateFrom (right.isBound && !left.isBound)
      (if right.isBound && !left.isBound then right else left).candidates.toList left right := by
  unfold evaluate evaluateFrom narrow
  cases right.isBound && !left.isBound with
  | false => rfl
  | true =>
    cases hmatch : matchCandidates σ.left left.candidates right.candidates.toList ∅ ∅ with
    | error fault => simp [hmatch, Except.map, bind, Except.bind]
    | ok found => simp [hmatch, Except.map, bind, Except.bind, pure, Except.pure]

/-- **All ways come to the same** for a solver that decides a relation. -/
theorem Decides.evaluateFrom_eq (hσ : σ.Decides p R) (hleft : ∀ c, c ∈ left.candidates → c.In p)
    (hright : ∀ d, d ∈ right.candidates → d.In p)
    (hlefts : ∀ c, c ∈ lefts ↔ c ∈ left.candidates ∧ ∃ d, d ∈ right.candidates ∧ R c d)
    (hrights : ∀ d, d ∈ rights ↔ d ∈ right.candidates ∧ ∃ c, c ∈ left.candidates ∧ R c d)
    (fromRight : Bool) {order : List Condition}
    (horder : ∀ c, c ∈ order ↔ c ∈ (if fromRight then right else left).candidates) :
    σ.evaluateFrom fromRight order left right =
      ((left.assign lefts, right.assign rights), .ok !lefts.isEmpty) := by
  cases fromRight with
  | false =>
    obtain ⟨lefts', rights', heq, hkept, hmatched⟩ :=
      matchCandidates_eq (fun c hc => hσ.right c (hleft c ((horder c).mp hc))) right.candidates ∅ ∅
    have hlefts' : lefts' = lefts := by
      apply SortedSet.ext_mem
      intro c
      rw [hkept, hlefts, horder]
      simp
    have hrights' : rights' = rights := by
      apply SortedSet.ext_mem
      intro d
      simp [hmatched, hrights, horder]
    subst hlefts' hrights'
    simp [evaluateFrom, heq]
  | true =>
    obtain ⟨rights', lefts', heq, hkept, hmatched⟩ :=
      matchCandidates_eq (R := fun d c => R c d)
        (fun d hd => hσ.left d (hright d ((horder d).mp hd)))
        left.candidates ∅ ∅
    have hlefts' : lefts' = lefts := by
      apply SortedSet.ext_mem
      intro c
      simp [hmatched, hlefts, horder]
    have hrights' : rights' = rights := by
      apply SortedSet.ext_mem
      intro d
      rw [hkept, hrights, horder]
      simp
    subst hlefts' hrights'
    simp [evaluateFrom, heq, Except.map]

/-- About conditions of the program, a solver says yes to the pairs of the relation. -/
theorem Decides.holds_eq_true_iff (hσ : σ.Decides p R) {l r : Condition} (hl : l.In p)
    (hr : r.In p) :
    σ.holds l r = .ok true ↔ R l r := by
  obtain ⟨b, hb⟩ := hσ.holds l r hl hr
  rw [← hσ.holds_iff l r b hb, hb]
  simp

end Solver

namespace Analysis

variable {p : Program}

/-- **A clause comes to the same from either side**, and in any order of the candidates, with the
solvers of a built program. It is answered with yes if some candidates of the two sides are in the
relation, and each side is left with those of its candidates that are in it with a candidate of the
other side. -/
theorem evaluate_from_either_side (h : p.Built) (settings : Settings) :
    ∃ a : Analysis, ofProgram settings p = .ok a ∧ ∀ (rel : Relation) (left right : Variable),
      (∀ c, c ∈ left.candidates → c.In p) → (∀ d, d ∈ right.candidates → d.In p) →
      ∃ left' right' b, (a.solvers rel).evaluate left right = ((left', right'), .ok b) ∧
        (∀ (fromRight : Bool) (order : List Condition),
          (∀ c, c ∈ order ↔ c ∈ (if fromRight then right else left).candidates) →
          (a.solvers rel).evaluateFrom fromRight order left right = ((left', right'), .ok b)) ∧
        (b = true ↔
          ∃ l r, l ∈ left.candidates ∧ r ∈ right.candidates ∧
            (a.solvers rel).holds l r = .ok true) ∧
        left.LeftWith left'
          (fun l => ∃ r, r ∈ right.candidates ∧ (a.solvers rel).holds l r = .ok true) ∧
        right.LeftWith right'
          (fun r => ∃ l, l ∈ left.candidates ∧ (a.solvers rel).holds l r = .ok true) := by
  obtain ⟨a, hmade, -, hdecides⟩ := decides_ofProgram h.wellFormed
  refine ⟨a, hmade settings, fun rel left right hleft hright => ?_⟩
  obtain ⟨lefts, rights, -, hlefts, hrights⟩ := (hdecides rel).narrow_eq false hleft hright
  have hways := (hdecides rel).evaluateFrom_eq hleft hright hlefts hrights
  -- what the relation says of the candidates is what the solver says of them
  have hpairsLeft : ∀ c, c ∈ lefts ↔ c ∈ left.candidates ∧
      ∃ r, r ∈ right.candidates ∧ (a.solvers rel).holds c r = .ok true := by
    intro c
    rw [hlefts]
    refine and_congr_right fun hc => exists_congr fun r => and_congr_right fun hr => ?_
    exact ((hdecides rel).holds_eq_true_iff (hleft c hc) (hright r hr)).symm
  have hpairsRight : ∀ d, d ∈ rights ↔ d ∈ right.candidates ∧
      ∃ l, l ∈ left.candidates ∧ (a.solvers rel).holds l d = .ok true := by
    intro d
    rw [hrights]
    refine and_congr_right fun hd => exists_congr fun l => and_congr_right fun hl => ?_
    exact ((hdecides rel).holds_eq_true_iff (hleft l hl) (hright d hd)).symm
  refine ⟨left.assign lefts, right.assign rights, !lefts.isEmpty, ?_,
    fun fromRight order => hways fromRight, ?_, Variable.leftWith_assign hpairsLeft,
    Variable.leftWith_assign hpairsRight⟩
  · rw [Solver.evaluate_eq_evaluateFrom]
    exact hways _ fun c => SortedSet.mem_toList
  · rw [Bool.not_eq_true', SortedSet.isEmpty_eq_false_iff]
    constructor
    · rintro ⟨l, hl⟩
      obtain ⟨hl, r, hr, hholds⟩ := (hpairsLeft l).mp hl
      exact ⟨l, r, hl, hr, hholds⟩
    · rintro ⟨l, r, hl, hr, hholds⟩
      exact ⟨l, (hpairsLeft l).mpr ⟨hl, r, hr, hholds⟩⟩

/-- A variable that is bound to conditions of all kinds. -/
def mixedVariable : Variable :=
  .named "m" (Entity.predicate exampleProgram .stmt)
    (some (.ofList [.stmt 2, .stmt 3, .proc 1, .var "z", .const 1]))

/-- A wildcard for the statements of the example program. -/
def anyStatement : Variable := .wildcard (Entity.predicate exampleProgram .stmt)

/-- Of conditions of all kinds, only the branch contains statements of the example program, and the
clause that asks for it comes to the same when it goes backwards through the statements of its other
side. -/
theorem evaluate_mixedVariable_either_side :
    ∃ (a : Analysis) (left' : Variable) (kept : ConditionSet), ofProgram {} exampleProgram = .ok a ∧
      (a.solvers .parent).evaluate mixedVariable anyStatement = ((left', anyStatement), .ok true) ∧
      (a.solvers .parent).evaluateFrom true [.stmt 4, .stmt 3, .stmt 2, .stmt 1, .stmt 0]
        mixedVariable anyStatement =
        ((left', anyStatement), .ok true) ∧
      left'.binding = some kept ∧ .stmt 2 ∈ kept ∧ .proc 1 ∉ kept := by
  obtain ⟨a, hmade, hclauses⟩ := evaluate_from_either_side built_exampleProgram {}
  have hmixed : ∀ c ∈ mixedVariable.candidates.toList, c.In exampleProgram := by decide +kernel
  have hany : ∀ c ∈ anyStatement.candidates.toList, c.In exampleProgram := by decide +kernel
  obtain ⟨left', right', b, heval, hways, hyes, hleft, hright⟩ :=
    hclauses .parent mixedVariable anyStatement hmixed hany
  obtain ⟨rfl, -⟩ := hright.wildcard rfl
  obtain ⟨kept, hkept, hmem⟩ := hleft.named rfl
  have hpair : (do ((← ofProgram {} exampleProgram).solvers .parent).holds (.stmt 2) (.stmt 4)) =
      .ok true := by
    decide +kernel
  have hnone : ∀ c ∈ anyStatement.candidates.toList,
      (do ((← ofProgram {} exampleProgram).solvers .parent).holds (.proc 1) c) = .ok false := by
        decide +kernel
  rw [hmade] at hpair hnone
  have hbranch : Condition.stmt 2 ∈ mixedVariable.candidates := by decide +kernel
  have hlast : Condition.stmt 4 ∈ anyStatement.candidates := by decide +kernel
  cases hyes.mpr ⟨_, _, hbranch, hlast, hpair⟩
  have horder : anyStatement.candidates.toList = [.stmt 0, .stmt 1, .stmt 2, .stmt 3, .stmt 4] := by
    decide +kernel
  refine ⟨a, left', kept, hmade, heval, hways true _ fun c => ?_, hkept, ?_, ?_⟩
  · rw [if_pos rfl, ← SortedSet.mem_toList, horder]
    exact @List.mem_reverse _ c [.stmt 0, .stmt 1, .stmt 2, .stmt 3, .stmt 4]
  · exact (hmem _).mpr ⟨hbranch, _, hlast, hpair⟩
  · rw [hmem]
    rintro ⟨-, r, hr, hholds⟩
    cases hholds.symm.trans (hnone r hr)

end Analysis

end ProgramQuery
