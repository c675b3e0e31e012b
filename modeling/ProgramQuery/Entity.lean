import ProgramQuery.Condition

/-!
# Entities

An entity is a kind of thing that a query variable ranges over: all statements, those of one kind,
variables, procedures or constants. Together with its members in a program it is a predicate.
-/

set_option autoImplicit false

namespace ProgramQuery

/-- The kinds of things that variables range over. -/
inductive Entity where
  | stmt
  | assign
  | call
  | whileLoop
  | ifBranch
  | var
  | proc
  | const
deriving DecidableEq, Repr

namespace Entity

/-- The name of an entity. -/
def name : Entity → String
  | stmt => "stmt"
  | assign => "assign"
  | call => "call"
  | whileLoop => "while"
  | ifBranch => "if"
  | var => "variable"
  | proc => "procedure"
  | const => "constant"

/-- All entities. -/
def all : List Entity :=
  [stmt, assign, call, whileLoop, ifBranch, var, proc, const]

/-- The entity of a name. Statements also go by the name of program lines. -/
def ofName? (text : String) : Option Entity :=
  if text = "prog_line" then some stmt else all.find? fun e => e.name == text

/-- The name of an entity is read as that entity. -/
theorem ofName?_name (e : Entity) : ofName? e.name = some e := by
  cases e <;> rfl

/-- The entity of the statements that do the same kind of thing. -/
def ofKind {β : Type} : StmtKind β → Entity
  | .assign _ _ => assign
  | .call _ => call
  | .branch _ _ _ => ifBranch
  | .loop _ _ => whileLoop

/-- The statements of a program whose kind belongs to the entity. -/
def stmtsOf (e : Entity) (p : Program) : List StmtId :=
  p.stmtIds.filter fun s => p.stmts[s]?.any fun stmt => decide (ofKind stmt.kind = e)

/-- The members of an entity in a program. -/
def members (p : Program) : Entity → ConditionSet
  | stmt => .ofStmts p.stmtIds
  | var => .ofVars p.vars.toList
  | proc => .ofList (p.procIds.map .proc)
  | const => .ofList (p.consts.toList.map .const)
  | e => .ofStmts (e.stmtsOf p)

end Entity

/-- An entity with its members. -/
structure Predicate where
  entity : Entity
  members : ConditionSet
deriving DecidableEq

/-- The predicate of an entity in a program. -/
def Entity.predicate (p : Program) (e : Entity) : Predicate := ⟨e, e.members p⟩

/-- The conditions of a set that belong to the predicate. -/
def Predicate.restrict (predicate : Predicate) (set : ConditionSet) : ConditionSet :=
  set.inter predicate.members

end ProgramQuery
