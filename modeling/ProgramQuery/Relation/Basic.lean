import ProgramQuery.Condition
import ProgramQuery.Program.Links

/-!
# Relations and their solvers

Six relations between conditions. A solver answers three questions about one of them: which right
arguments go with a left one, which left arguments go with a right one, and whether a pair is in the
relation. A solver may refuse a question if the links of the program do not fit together.

`Solver.ofCases` makes a solver from answers about known statements and procedures and about
variables. It refuses numbers that the program does not have, and constants are in no relation.
-/

set_option autoImplicit false

namespace ProgramQuery

/-- The relations. -/
inductive Relation where
  | parent
  | parentStar
  | follows
  | followsStar
  | modifies
  | uses
deriving DecidableEq, Repr

namespace Relation

/-- The name of a relation. -/
def name : Relation → String
  | parent => "Parent"
  | parentStar => "Parent*"
  | follows => "Follows"
  | followsStar => "Follows*"
  | modifies => "Modifies"
  | uses => "Uses"

/-- All relations, in the order in which their solvers are made. -/
def all : List Relation := [parent, parentStar, follows, followsStar, modifies, uses]

/-- The relation of a name. -/
def ofName? (text : String) : Option Relation := all.find? fun r => r.name == text

/-- The name of a relation is read as that relation. -/
theorem ofName?_name (r : Relation) : ofName? r.name = some r := by
  cases r <;> rfl

end Relation

/-- The answers about one relation. -/
structure Solver where
  /-- All right arguments of a left one. -/
  right : Condition → Except Inconsistency ConditionSet
  /-- All left arguments of a right one. -/
  left : Condition → Except Inconsistency ConditionSet
  /-- Whether a left and a right argument are in the relation. -/
  holds : Condition → Condition → Except Inconsistency Bool

/-- The answers about one relation, by kind of argument. What is not given is unrelated. -/
structure Solver.Cases where
  rightOfStmt : StmtId → Stmt → Except Inconsistency ConditionSet := fun _ _ => .ok ∅
  rightOfProc : ProcId → Except Inconsistency ConditionSet := fun _ => .ok ∅
  leftOfStmt : StmtId → Stmt → Except Inconsistency ConditionSet := fun _ _ => .ok ∅
  leftOfVar : String → Except Inconsistency ConditionSet := fun _ => .ok ∅
  holdsOfStmt : StmtId → Stmt → Condition → Except Inconsistency Bool := fun _ _ _ => .ok false
  holdsOfProc : ProcId → Condition → Except Inconsistency Bool := fun _ _ => .ok false

/-- The solver that answers by kind of argument about the statements and procedures of a program. -/
def Solver.ofCases (p : Program) (cases : Solver.Cases) : Solver where
  right
    | .stmt s => do cases.rightOfStmt s (← p.getStmt s)
    | .proc q => do
      let _ ← p.getProc q
      cases.rightOfProc q
    | .var _ => .ok ∅
    | .const _ => .ok ∅
  left
    | .stmt s => do cases.leftOfStmt s (← p.getStmt s)
    | .proc q => do
      let _ ← p.getProc q
      return ∅
    | .var x => cases.leftOfVar x
    | .const _ => .ok ∅
  holds
    | .stmt s, right => do cases.holdsOfStmt s (← p.getStmt s) right
    | .proc q, right => do
      let _ ← p.getProc q
      cases.holdsOfProc q right
    | .var _, _ => .ok false
    | .const _, _ => .ok false

/-- The solver of the relation in which nothing is related. -/
def Solver.unrelated (p : Program) : Solver := .ofCases p {}

end ProgramQuery
