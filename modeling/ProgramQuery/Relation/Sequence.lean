import ProgramQuery.Relation.Basic

/-!
# Follows and Follows*

`Follows(s, t)`: `t` comes right after `s` in the same statement list. `Follows*(s, t)`: `t` comes
somewhere after `s` in the same list.
-/

set_option autoImplicit false

namespace ProgramQuery.Solver

/-- The solver of `Follows`. -/
def follows (p : Program) : Solver :=
  .ofCases p {
    rightOfStmt := fun _ stmt => .ok (.ofStmts stmt.next.toList)
    leftOfStmt := fun _ stmt => .ok (.ofStmts stmt.prev.toList)
    holdsOfStmt := fun _ stmt right =>
      match right with
      | .stmt t => .ok (stmt.next == some t)
      | _ => .ok false }

/-- The solver of `Follows*`. -/
def followsStar (p : Program) : Solver :=
  .ofCases p {
    rightOfStmt := fun _ stmt => do return .ofStmts (← p.walk .next stmt.next)
    leftOfStmt := fun _ stmt => do return .ofStmts (← p.walk .prev stmt.prev)
    holdsOfStmt := fun _ stmt right =>
      match right with
      | .stmt t => do
        let after ← p.walk .next stmt.next
        return after.contains t
      | _ => .ok false }

end ProgramQuery.Solver
