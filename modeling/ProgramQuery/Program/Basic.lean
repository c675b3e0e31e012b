import ProgramQuery.Expr
import ProgramQuery.SortedMap

/-!
# Programs

A program of the language Simple as linked statements. Procedures and statements are numbered from
zero in the order of their creation, and every link (next, previous, enclosing container, first
statement of a body, called procedure) is such a number. Links are plain data: nothing here asks
that they fit together, because a program whose links were overwritten is a value that the relations
must still answer about.

Lines and names lead to numbers by tables that are filled statement by statement and procedure by
procedure, so the last statement on a line and the last procedure of a name are found. What goes
through all statements goes through the table of lines.
-/

set_option autoImplicit false

namespace ProgramQuery

/-- The number of a statement. -/
abbrev StmtId := Nat

/-- The number of a procedure. -/
abbrev ProcId := Nat

/-- The last line number there is. -/
def maxLine : Nat := 4294967295

/-- How a program is numbered and how strictly its links are read. -/
structure Settings where
  /-- The line of the first statement. -/
  firstLine : Nat := 1
  /-- The first line is a line number. -/
  firstLine_le : firstLine ≤ maxLine := by decide
  /-- Whether walking a body checks that its members link back to their container. -/
  checkParents : Bool := true

/-- What a statement does. `β` is the type of a link to the first statement of a body: `StmtId` in a
program, `Option StmtId` while a program is being drafted. -/
inductive StmtKind (β : Type) where
  /-- An assignment `target = value;`. -/
  | assign (target : String) (value : Expr)
  /-- A call `call callee;`. -/
  | call (callee : ProcId)
  /-- An `if` on the variable `cond`, with its two bodies. -/
  | branch (cond : String) (thenFirst elseFirst : β)
  /-- A `while` on the variable `cond`, with its body. -/
  | loop (cond : String) (first : β)
deriving DecidableEq, Repr

namespace StmtKind

variable {β : Type}

/-- The links to the bodies, in source order. -/
def bodies : StmtKind β → List β
  | assign _ _ => []
  | call _ => []
  | branch _ thenFirst elseFirst => [thenFirst, elseFirst]
  | loop _ first => [first]

/-- Whether the statement has bodies. -/
def isContainer : StmtKind β → Bool
  | assign _ _ => false
  | call _ => false
  | branch _ _ _ => true
  | loop _ _ => true

/-- The variables that the statement itself names, not those of its bodies. -/
def vars : StmtKind β → SortedSet String
  | assign target value => value.vars.insert target
  | call _ => ∅
  | branch cond _ _ => .singleton cond
  | loop cond _ => .singleton cond

/-- The constants that the statement itself names. -/
def consts : StmtKind β → SortedSet Int
  | assign _ value => value.consts
  | _ => ∅

end StmtKind

/-- A statement with its links. -/
structure Stmt where
  /-- The source line. -/
  line : Nat
  /-- The statement right after this one in its list. -/
  next : Option StmtId
  /-- The statement right before this one in its list. -/
  prev : Option StmtId
  /-- The enclosing container, `none` at the top level of a procedure. -/
  parent : Option StmtId
  /-- The procedure that the statement belongs to. -/
  owner : ProcId
  /-- What the statement does. -/
  kind : StmtKind StmtId
deriving DecidableEq, Repr

/-- A procedure. -/
structure Proc where
  name : String
  /-- The first statement of the body. -/
  first : StmtId
deriving DecidableEq, Repr

/-- A program: procedures and statements by number. -/
structure Program where
  procs : Array Proc
  stmts : Array Stmt
deriving DecidableEq, Repr

namespace Program

/-- The table of lines, from each line to the last statement on it. -/
def lineTable (p : Program) : SortedMap Nat StmtId := .ofKeys (p.stmts.toList.map Stmt.line)

/-- The table of names, from each name to the last procedure of that name. -/
def procIndex (p : Program) : SortedMap String ProcId := .ofKeys (p.procs.toList.map Proc.name)

/-- The numbers of the statements in the table of lines, in line order. -/
def stmtIds (p : Program) : List StmtId := p.lineTable.values

/-- The numbers of all procedures. -/
def procIds (p : Program) : List ProcId := List.range p.procs.size

/-- The numbers of procedures are those below their count. -/
@[simp] theorem mem_procIds {p : Program} {q : ProcId} : q ∈ p.procIds ↔ q < p.procs.size :=
  List.mem_range

/-- The line of a statement. -/
def lineOf? (p : Program) (s : StmtId) : Option Nat := p.stmts[s]?.map (·.line)

/-- The lines in the table of lines, in increasing order. -/
def lines (p : Program) : List Nat := p.lineTable.keys

/-- The statement on a line. -/
def stmtAt? (p : Program) (line : Nat) : Option StmtId := p.lineTable.find? line

/-- The procedure of a name. -/
def procNamed? (p : Program) (name : String) : Option ProcId := p.procIndex.find? name

/-- The statements that belong to a procedure, in line order. -/
def ownedBy (p : Program) (q : ProcId) : List StmtId :=
  p.stmtIds.filter fun s => p.stmts[s]?.any fun stmt => stmt.owner == q

/-- The statements in the table of lines, in line order. -/
def stmtsByLine (p : Program) : List Stmt := p.stmtIds.filterMap fun s => p.stmts[s]?

/-- The variables of the program: targets, conditions and operands. -/
def vars (p : Program) : SortedSet String :=
  p.stmtsByLine.foldl (fun found stmt => found.union stmt.kind.vars) ∅

/-- The constants of the program. -/
def consts (p : Program) : SortedSet Int :=
  p.stmtsByLine.foldl (fun found stmt => found.union stmt.kind.consts) ∅

/-- The variables of all statements, also of those that no line leads to. -/
def stmtVars (p : Program) : SortedSet String :=
  p.stmts.foldl (fun found stmt => found.union stmt.kind.vars) ∅

/-- The lines on which the bodies of a statement begin. -/
def bodyLines (p : Program) (stmt : Stmt) : List Nat :=
  stmt.kind.bodies.filterMap p.lineOf?

/-- Replaces the `next` link of one statement and nothing else. -/
def overwriteNext (p : Program) (s : StmtId) (next : Option StmtId) : Program :=
  { p with stmts := p.stmts.modify s fun stmt => { stmt with next := next } }

/-- Replaces the `parent` link of one statement and nothing else. -/
def overwriteParent (p : Program) (s : StmtId) (parent : Option StmtId) : Program :=
  { p with stmts := p.stmts.modify s fun stmt => { stmt with parent := parent } }

/-- Overwriting a `next` link leaves the number of statements as it was. -/
@[simp] theorem size_overwriteNext (p : Program) (s : StmtId) (next : Option StmtId) :
    (p.overwriteNext s next).stmts.size = p.stmts.size := by
  simp [overwriteNext]

/-- Overwriting a `parent` link leaves the number of statements as it was. -/
@[simp] theorem size_overwriteParent (p : Program) (s : StmtId) (parent : Option StmtId) :
    (p.overwriteParent s parent).stmts.size = p.stmts.size := by
  simp [overwriteParent]

end Program

/-- A statement named by its number and line. -/
def Stmt.label (s : StmtId) (stmt : Stmt) : String :=
  "stmt #" ++ toString s ++ " (line " ++ toString stmt.line ++ ")"

/-- A procedure named by its name. -/
def Proc.label (q : Proc) : String := "proc " ++ q.name

end ProgramQuery
