import ProgramQuery.Relation.Basic

/-!
# Parent and Parent*

`Parent(c, s)`: the statement `s` is a member of a body of the container `c`. `Parent*(c, s)`: `s`
is a member of a body of `c`, or of a container that is nested in `c`.

Right arguments are found by listing bodies, left ones by following `parent` links. On a program
whose links were overwritten the two ways may disagree.
-/

set_option autoImplicit false

namespace ProgramQuery

namespace Program

/-- The members of the bodies of a container, one body after the other. -/
def children (p : Program) (check : Bool) (s : StmtId) (stmt : Stmt) :
    Except Inconsistency (List StmtId) := do
  let chains ← stmt.kind.bodies.mapM fun first => p.chain check first (some s)
  return chains.flatten

/-- Adds the members of a body to the statements found so far, which must not have them yet. -/
def meetAll (p : Program) :
    List StmtId → List StmtId → Except Inconsistency (List StmtId)
  | [], found => .ok found
  | s :: chain, found => do
    let stmt ← p.getStmt s
    if found.contains s then .error (.nestedTwice stmt.line) else p.meetAll chain (s :: found)

/-- The bodies of a statement, each with the statement as its owner. -/
def ownedBodies (p : Program) (s : StmtId) : List (StmtId × StmtId) :=
  match p.stmts[s]? with
  | some stmt => stmt.kind.bodies.map fun first => (first, s)
  | none => []

/-- Lists pending bodies and those nested in them, the last body of the last member first. Every
body has a member that was not found before, so there are no more bodies than statements. -/
def descend (p : Program) (check : Bool) :
    Nat → List (StmtId × StmtId) → List StmtId → Except Inconsistency (List StmtId)
  | _, [], found => .ok found
  | 0, (_, owner) :: _, _ => .error (.endlessNesting ((p.lineOf? owner).getD 0))
  | bound + 1, (first, owner) :: pending, found => do
    let chain ← p.chain check first (some owner)
    let found ← p.meetAll chain found
    p.descend check bound ((chain.flatMap p.ownedBodies).reverse ++ pending) found

/-- The statements nested in a container, directly or not. -/
def descendants (p : Program) (check : Bool) (s : StmtId) : Except Inconsistency (List StmtId) :=
  p.descend check (p.stmts.size + 1) (p.ownedBodies s).reverse []

/-- The containers around a statement, from the inside out. -/
def ancestors (p : Program) (stmt : Stmt) : Except Inconsistency (List StmtId) :=
  p.walk .parent stmt.parent

end Program

namespace Solver

/-- The solver of `Parent`. -/
def parent (p : Program) (check : Bool) : Solver :=
  .ofCases p {
    rightOfStmt := fun s stmt => do return .ofStmts (← p.children check s stmt)
    leftOfStmt := fun _ stmt => .ok (.ofStmts stmt.parent.toList)
    holdsOfStmt := fun s stmt right =>
      match stmt.kind.isContainer, right with
      | true, .stmt t => do
        let child ← p.getStmt t
        return child.parent == some s
      | _, _ => .ok false }

/-- The solver of `Parent*`. -/
def parentStar (p : Program) (check : Bool) : Solver :=
  .ofCases p {
    rightOfStmt := fun s _ => do return .ofStmts (← p.descendants check s)
    leftOfStmt := fun _ stmt => do return .ofStmts (← p.ancestors stmt)
    holdsOfStmt := fun s stmt right =>
      match stmt.kind.isContainer, right with
      | true, .stmt t => do
        let ancestors ← p.ancestors (← p.getStmt t)
        return ancestors.contains s
      | _, _ => .ok false }

end Solver

end ProgramQuery
