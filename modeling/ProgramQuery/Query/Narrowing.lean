import ProgramQuery.Query.Variable
import ProgramQuery.Relation.Basic

/-!
# Narrowing by one clause

A clause `R(a, b)` narrows the candidates of `a` and `b` to those that are in a pair of the
relation, and a clause `R(a, a)` those of `a` to the ones that are in the relation with themselves.
Either way the variables are read, so they are left bound even if the solver refuses an answer.
-/

set_option autoImplicit false

namespace ProgramQuery

/-- Goes through candidates of one side, and keeps those with matches among the candidates of the
other side, and the matches. -/
def matchCandidates (answers : Condition → Except Inconsistency ConditionSet)
    (others : ConditionSet) :
    List Condition → ConditionSet → ConditionSet →
    Except Inconsistency (ConditionSet × ConditionSet)
  | [], kept, matched => .ok (kept, matched)
  | c :: candidates, kept, matched => do
    let found := (← answers c).inter others
    if found.isEmpty then
      matchCandidates answers others candidates kept matched
    else
      matchCandidates answers others candidates (kept.insert c) (matched.union found)

namespace Solver

/-- The left and right candidates that are in a pair of the relation. They are found from the right
side if only the right variable is bound, and otherwise from the left side. -/
def narrow (solver : Solver) (fromRight : Bool) (lefts rights : ConditionSet) :
    Except Inconsistency (ConditionSet × ConditionSet) :=
  if fromRight then do
    let (rights, lefts) ← matchCandidates solver.left lefts rights.toList ∅ ∅
    return (lefts, rights)
  else
    matchCandidates solver.right rights lefts.toList ∅ ∅

/-- Narrows two variables by a clause, and tells whether a pair is left. -/
def evaluate (solver : Solver) (left right : Variable) :
    (Variable × Variable) × Except Inconsistency Bool :=
  let fromRight := right.isBound && !left.isBound
  match solver.narrow fromRight left.candidates right.candidates with
  | .error fault => ((left.bind, right.bind), .error fault)
  | .ok (lefts, rights) => ((left.assign lefts, right.assign rights), .ok !lefts.isEmpty)

/-- The candidates that are in the relation with themselves. -/
def selfRelated (solver : Solver) :
    List Condition → ConditionSet → Except Inconsistency ConditionSet
  | [], kept => .ok kept
  | c :: candidates, kept => do
    let related ← solver.holds c c
    solver.selfRelated candidates (if related then kept.insert c else kept)

/-- Narrows a variable by a clause with itself on both sides. -/
def evaluateSelf (solver : Solver) (v : Variable) : Variable × Except Inconsistency Bool :=
  match solver.selfRelated v.candidates.toList ∅ with
  | .error fault => (v.bind, .error fault)
  | .ok kept => (v.assign kept, .ok !kept.isEmpty)

end Solver

end ProgramQuery
