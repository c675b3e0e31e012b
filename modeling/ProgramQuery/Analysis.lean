import ProgramQuery.Query.Evaluation
import ProgramQuery.Relation.Effect
import ProgramQuery.Relation.Nesting
import ProgramQuery.Relation.Sequence

/-!
# Analyses

An analysis is a program with the solvers of all relations, ready for queries.
-/

set_option autoImplicit false

namespace ProgramQuery

/-- The solver of a relation. -/
def Relation.solver (p : Program) (check : Bool) : Relation → Except Inconsistency Solver
  | parent => .ok (.parent p check)
  | parentStar => .ok (.parentStar p check)
  | follows => .ok (.follows p)
  | followsStar => .ok (.followsStar p)
  | modifies => Effect.modifies.solver p check
  | uses => Effect.uses.solver p check

/-- A program with the solver of each relation. -/
structure Analysis where
  program : Program
  solvers : Relation → Solver

namespace Analysis

/-- Makes the solvers of a program. Those of the effects are made last, `Modifies` before `Uses`. -/
def ofProgram (settings : Settings) (p : Program) : Except Inconsistency Analysis := do
  let check := settings.checkParents
  let modifies ← Effect.modifies.solver p check
  let uses ← Effect.uses.solver p check
  return ⟨p, fun
    | .parent => .parent p check
    | .parentStar => .parentStar p check
    | .follows => .follows p
    | .followsStar => .followsStar p
    | .modifies => modifies
    | .uses => uses⟩

/-- The relation of a name. -/
def relation (text : String) : Except QueryError Relation :=
  match Relation.ofName? text with
  | some r => .ok r
  | none => .error (.unknownRelation text)

/-- The solver of a relation given by name. -/
def solver (a : Analysis) (text : String) : Except QueryError Solver := do
  return a.solvers (← relation text)

/-- The predicate of an entity given by name. -/
def predicate (a : Analysis) (text : String) : Except QueryError Predicate :=
  match Entity.ofName? text with
  | some e => .ok (e.predicate a.program)
  | none => .error (.unknownEntity text)

/-- A new variable that ranges over an entity given by name. -/
def newVariable (a : Analysis) (name entity : String) : Except QueryError Variable := do
  return .ofName name (← a.predicate entity)

end Analysis

end ProgramQuery
