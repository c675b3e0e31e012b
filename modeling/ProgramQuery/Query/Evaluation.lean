import ProgramQuery.Query.Narrowing

/-!
# Queries

A query has variables and clauses. A clause `R(a, b)` narrows the candidates of `a` and `b` to those
that are in a pair of the relation; if `a` and `b` are the same variable, to those that are in the
relation with themselves. Running a query applies its clauses in rounds until a round changes
nothing, or a clause is left without a pair. Narrowing only ever takes candidates away, so no more
rounds change something than there are candidates to take away and variables to bind.

Reading a variable binds it, so variables may be left bound also when an answer is refused.
-/

set_option autoImplicit false

namespace ProgramQuery

/-- Why a query is not answered. -/
inductive QueryError where
  | inconsistent (cause : Inconsistency)
  | unknownEntity (name : String)
  | unknownRelation (name : String)
  | unknownVariable (name : String)
deriving DecidableEq, Repr

/-- The reason in words. -/
def QueryError.message : QueryError → String
  | inconsistent cause => cause.message
  | unknownEntity name => "Unknown predicate '" ++ name ++ "'"
  | unknownRelation name => "Unknown relation '" ++ name ++ "'"
  | unknownVariable name => "Unknown query variable '" ++ name ++ "'"

/-- The number of a query variable. -/
abbrev VarId := Nat

/-- A clause of a query. -/
structure Clause where
  relation : Relation
  left : VarId
  right : VarId
deriving DecidableEq, Repr

/-- A query: variables by number, the numbers of named variables by name, and clauses. -/
structure Query where
  vars : Array Variable := #[]
  /-- The number of the variable declared under each name. It stays when the variable is
  replaced. -/
  names : SortedMap String VarId := ∅
  clauses : List Clause := []

namespace Query

/-- The variable declared under a name. -/
def varNamed? (query : Query) (name : String) : Option VarId := query.names.find? name

/-- Declares a variable and gives its number. Wildcards are all different and have no name to be
found by; a named variable that is declared again is the one declared first. -/
def declare (query : Query) (v : Variable) : Query × VarId :=
  let id := query.vars.size
  let vars := query.vars.push v
  if v.isWildcard then ({ query with vars := vars }, id)
  else
    match query.varNamed? v.name with
    | some first => (query, first)
    | none => ({ query with vars := vars, names := query.names.insert v.name id }, id)

/-- The number of the variable of a name. -/
def lookup (query : Query) (name : String) : Except QueryError VarId :=
  match query.varNamed? name with
  | some id => .ok id
  | none => .error (.unknownVariable name)

/-- Adds a clause. Its variables may be declared later. -/
def addClause (query : Query) (clause : Clause) : Query :=
  { query with clauses := query.clauses ++ [clause] }

/-- Replaces a variable. -/
def setVar (query : Query) (id : VarId) (v : Variable) : Query :=
  { query with vars := query.vars.setIfInBounds id v }

/-- The fault of a number without a variable. -/
def undeclared (id : VarId) : QueryError := .unknownVariable ("#" ++ toString id)

/-- The candidates of a variable in order. Reading them binds the variable. -/
def results (query : Query) (id : VarId) : Query × Except QueryError (List Condition) :=
  match query.vars[id]? with
  | none => (query, .error (undeclared id))
  | some v => (query.setVar id v.bind, .ok v.candidates.toList)

/-- What tells whether narrowing has changed a variable: whether it is bound and to how many
candidates. -/
def extent (v : Variable) : Option Nat := v.binding.map (·.size)

/-- What applying a clause comes to. -/
inductive Outcome where
  | failed (error : QueryError)
  | unsatisfied
  | satisfied (changed : Bool)
deriving DecidableEq

/-- What comes of an answer, given whether variables have changed. -/
def Outcome.ofAnswer (changed : Bool) : Except Inconsistency Bool → Outcome
  | .error fault => .failed (.inconsistent fault)
  | .ok false => .unsatisfied
  | .ok true => .satisfied changed

/-- Applies one clause. -/
def applyClause (solvers : Relation → Solver) (clause : Clause) (vars : Array Variable) :
    Array Variable × Outcome :=
  match vars[clause.left]?, vars[clause.right]? with
  | none, _ => (vars, .failed (undeclared clause.left))
  | _, none => (vars, .failed (undeclared clause.right))
  | some left, some right =>
    if clause.left = clause.right then
      let (left', answer) := (solvers clause.relation).evaluateSelf left
      (vars.setIfInBounds clause.left left', .ofAnswer (extent left' != extent left) answer)
    else
      let ((left', right'), answer) := (solvers clause.relation).evaluate left right
      ((vars.setIfInBounds clause.left left').setIfInBounds clause.right right',
        .ofAnswer (extent left' != extent left || extent right' != extent right) answer)

/-- Applies clauses in order, until one fails or is left without a pair. -/
def applyAll (solvers : Relation → Solver) :
    List Clause → Array Variable → Array Variable × Outcome
  | [], vars => (vars, .satisfied false)
  | clause :: clauses, vars =>
    match applyClause solvers clause vars with
    | (vars, .satisfied changed) =>
      match applyAll solvers clauses vars with
      | (vars, .satisfied changedLater) => (vars, .satisfied (changed || changedLater))
      | other => other
    | other => other

/-- Applies all clauses in rounds until a round changes nothing, at most `bound` rounds. -/
def runRounds (solvers : Relation → Solver) (clauses : List Clause) :
    Nat → Array Variable → Array Variable × Except QueryError Bool
  | 0, vars => (vars, .ok true)
  | bound + 1, vars =>
    match applyAll solvers clauses vars with
    | (vars, .failed error) => (vars, .error error)
    | (vars, .unsatisfied) => (vars, .ok false)
    | (vars, .satisfied false) => (vars, .ok true)
    | (vars, .satisfied true) => runRounds solvers clauses bound vars

/-- How far the variables can still be narrowed. -/
def slack (vars : Array Variable) : Nat :=
  vars.toList.foldr (fun v total => v.slack + total) 0

/-- Runs a query: narrows its variables by its clauses, and tells whether every clause has a pair
left. -/
def run (solvers : Relation → Solver) (query : Query) : Query × Except QueryError Bool :=
  let (vars, answer) := runRounds solvers query.clauses (slack query.vars + 1) query.vars
  ({ query with vars := vars }, answer)

end Query

end ProgramQuery
