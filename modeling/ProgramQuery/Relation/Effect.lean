import ProgramQuery.Relation.Basic

/-!
# Modifies and Uses

`Modifies(a, x)`: running the statement or procedure `a` may assign to the variable `x`. `Uses(a,
x)`: it may read `x`, in an expression or as a condition.

The variables of a statement are its own and those of its bodies; a call has those of the called
procedure. The table is computed in rounds: each round reads the variables of the procedures off the
round before, and the rounds end when they stay the same. Sets only grow from round to round, so
there are no more rounds than there are pairs of a procedure and a variable, and one to see that
nothing changes.
-/

set_option autoImplicit false

namespace ProgramQuery

/-- The two effects that a statement can have on a variable. -/
inductive Effect where
  | modifies
  | uses
deriving DecidableEq, Repr

namespace Effect

/-- A set of variables. -/
abbrev Vars := SortedSet String

/-- The variables that a statement has the effect on, its bodies apart. -/
def ownVars (effect : Effect) (procVars : ProcId → Vars) : StmtKind StmtId → Vars
  | .assign target value =>
    match effect with
    | modifies => .singleton target
    | uses => value.vars
  | .call callee => procVars callee
  | .branch cond _ _ | .loop cond _ =>
    match effect with
    | modifies => ∅
    | uses => .singleton cond

/-- What is found in a part of a program: all variables, and those of each statement. -/
structure Found where
  vars : Vars := ∅
  stmts : List (StmtId × Vars) := []

/-- Two parts together. -/
def Found.append (a b : Found) : Found := ⟨a.vars.union b.vars, a.stmts ++ b.stmts⟩

/-- What is found in some parts, taken in order. -/
def collectAll {α : Type} (collect : α → Except Inconsistency Found) :
    List α → Except Inconsistency Found
  | [] => .ok {}
  | a :: as => do
    let first ← collect a
    let more ← collectAll collect as
    return first.append more

/-- What is found in a statement, given what is found in a body of it. -/
def collectStmt (effect : Effect) (procVars : ProcId → Vars) (p : Program)
    (body : StmtId → Option StmtId → Except Inconsistency Found) (s : StmtId) :
    Except Inconsistency Found := do
  let stmt ← p.getStmt s
  let inner ← collectAll (fun first => body first (some s)) stmt.kind.bodies
  let vars := (effect.ownVars procVars stmt.kind).union inner.vars
  return ⟨vars, inner.stmts ++ [(s, vars)]⟩

/-- What is found in the body that begins with `first` and belongs to `owner`, going down at most
`depth` containers. -/
def collectBody (effect : Effect) (procVars : ProcId → Vars) (p : Program) (check : Bool) :
    Nat → StmtId → Option StmtId → Except Inconsistency Found
  | 0, _, owner => .error (.endlessNesting ((owner.bind p.lineOf?).getD 0))
  | depth + 1, first, owner => do
    let chain ← p.chain check first owner
    collectAll (effect.collectStmt procVars p (effect.collectBody procVars p check depth)) chain

/-- The variables of every procedure and of every statement that a procedure leads to. -/
structure Table where
  procs : List Vars
  stmts : List (StmtId × Vars)

/-- One round, on the variables of the procedures from the round before. -/
def round (effect : Effect) (p : Program) (check : Bool) (before : List Vars) :
    Except Inconsistency Table := do
  let procVars := fun q => before.getD q ∅
  let found ← p.procs.toList.mapM fun proc =>
    effect.collectBody procVars p check (p.stmts.size + 1) proc.first none
  return ⟨found.map (·.vars), found.flatMap (·.stmts)⟩

/-- Rounds until the variables of the procedures stay the same, at most `bound` of them. -/
def rounds (effect : Effect) (p : Program) (check : Bool) :
    Nat → List Vars → Except Inconsistency Table
  | 0, before => effect.round p check before
  | bound + 1, before => do
    let table ← effect.round p check before
    if table.procs = before then .ok table else effect.rounds p check bound table.procs

/-- The table of an effect. -/
def table (effect : Effect) (p : Program) (check : Bool) : Except Inconsistency Table :=
  effect.rounds p check (p.procs.size * p.stmtVars.size + 1) (List.replicate p.procs.size ∅)

namespace Table

/-- The variables of a statement. -/
def varsOfStmt (t : Table) (s : StmtId) : Except Inconsistency Vars :=
  match t.stmts.lookup s with
  | some vars => .ok vars
  | none => .error (.unreachable s)

/-- The variables of a procedure. -/
def varsOfProc (t : Table) (q : ProcId) : Except Inconsistency Vars :=
  match t.procs[q]? with
  | some vars => .ok vars
  | none => .error (.unknownProc q)

/-- The statements and procedures that have the effect on a variable. -/
def having (t : Table) (x : String) : ConditionSet :=
  .ofList (
    (t.stmts.filter fun entry => entry.2.contains x).map (fun entry => .stmt entry.1) ++
    (t.procs.zipIdx.filter fun entry => entry.1.contains x).map fun entry => .proc entry.2)

/-- Whether a condition is one of the variables. -/
def isVarOf (vars : Vars) : Condition → Bool
  | .var x => vars.contains x
  | _ => false

end Table

/-- The solver that answers from a table. -/
def Table.solver (t : Table) (p : Program) : Solver :=
  .ofCases p {
    rightOfStmt := fun s _ => do return .ofVars (← t.varsOfStmt s).toList
    rightOfProc := fun q => do return .ofVars (← t.varsOfProc q).toList
    leftOfVar := fun x => .ok (t.having x)
    holdsOfStmt := fun s _ right => do return isVarOf (← t.varsOfStmt s) right
    holdsOfProc := fun q right => do return isVarOf (← t.varsOfProc q) right }

/-- The solver of an effect. Making it can fail, because the table follows all links. -/
def solver (effect : Effect) (p : Program) (check : Bool) : Except Inconsistency Solver := do
  return (← effect.table p check).solver p

end Effect

end ProgramQuery
