import ProgramQuery.Program.Basic

/-!
# Following links

Two ways to follow the links of a program whose links need not fit together.

`Program.chain` lists the members of a body along their `next` links. It stops when it has listed as
many statements as the program has and there is still one more, and on demand it checks that each
member links back to the container whose body is listed.

`Program.walk` follows one kind of link until it ends, or until it comes back to a statement that it
has met before.
-/

set_option autoImplicit false

namespace ProgramQuery

/-- The links between statements that can be followed. -/
inductive Link where
  | next
  | prev
  | parent
deriving DecidableEq, Repr

namespace Link

/-- The link in words. -/
def text : Link → String
  | next => "next"
  | prev => "prev"
  | parent => "parent"

/-- Where the link of a statement leads. -/
def target : Link → Stmt → Option StmtId
  | next, stmt => stmt.next
  | prev, stmt => stmt.prev
  | parent, stmt => stmt.parent

end Link

/-- What can be wrong with the links of a program, or with a number that is asked about. -/
inductive Inconsistency where
  /-- The program has no statement of this number. -/
  | unknownStmt (id : StmtId)
  /-- The program has no procedure of this number. -/
  | unknownProc (id : ProcId)
  /-- The list that begins on this line does not end. -/
  | endlessList (line : Nat)
  /-- The statement on this line is in the body of a container, but links to another one. Containers
  are given by their lines, and the top level of a procedure by `none`. -/
  | misplaced (line : Nat) (listed linked : Option Nat)
  /-- The statement on this line is in two bodies. -/
  | nestedTwice (line : Nat)
  /-- Following links comes back to the statement on this line. -/
  | loopsBack (link : Link) (line : Nat)
  /-- No procedure leads to this statement. -/
  | unreachable (id : StmtId)
  /-- The body of the container on this line leads back to the container. -/
  | endlessNesting (line : Nat)
deriving DecidableEq, Repr

namespace Inconsistency

/-- A container in words. -/
def containerText : Option Nat → String
  | some line => "line " ++ toString line
  | none => "the procedure top level"

/-- The cause in words. -/
def cause : Inconsistency → String
  | unknownStmt id => "statement #" ++ toString id ++ " is not in the program"
  | unknownProc id => "procedure #" ++ toString id ++ " is not in the program"
  | endlessList line =>
    "statement list starting at line " ++ toString line ++ " does not terminate"
  | misplaced line listed linked =>
    "line " ++ toString line ++ " is listed under " ++ containerText listed ++
      " but links to " ++ containerText linked
  | nestedTwice line => "line " ++ toString line ++ " is nested in more than one body"
  | loopsBack link line => link.text ++ " links loop back to line " ++ toString line
  | unreachable id =>
    "statement #" ++ toString id ++ " is not reachable from any procedure"
  | endlessNesting line => "the bodies of line " ++ toString line ++ " nest without end"

/-- The message that shows the cause. -/
def message (fault : Inconsistency) : String := "Inconsistent AST: " ++ fault.cause

end Inconsistency

namespace Program

/-- The statement of a number. -/
def getStmt (p : Program) (s : StmtId) : Except Inconsistency Stmt :=
  match p.stmts[s]? with
  | some stmt => .ok stmt
  | none => .error (.unknownStmt s)

/-- The procedure of a number. -/
def getProc (p : Program) (q : ProcId) : Except Inconsistency Proc :=
  match p.procs[q]? with
  | some proc => .ok proc
  | none => .error (.unknownProc q)

/-- The members of a body from `s` on, at most `bound` of them. The list began on `line`, and with
`check` every member must link to `owner`. -/
def chainFrom (p : Program) (check : Bool) (line : Nat) (owner : Option StmtId) :
    Nat → Option StmtId → Except Inconsistency (List StmtId)
  | _, none => .ok []
  | 0, some _ => .error (.endlessList line)
  | bound + 1, some s => do
    let stmt ← p.getStmt s
    if check && stmt.parent != owner then
      .error (.misplaced stmt.line (owner.bind p.lineOf?) (stmt.parent.bind p.lineOf?))
    else do
      let more ← p.chainFrom check line owner bound stmt.next
      return s :: more

/-- The members of the body that begins with `first` and belongs to `owner`. -/
def chain (p : Program) (check : Bool) (first : StmtId) (owner : Option StmtId) :
    Except Inconsistency (List StmtId) := do
  let stmt ← p.getStmt first
  p.chainFrom check stmt.line owner p.stmts.size (some first)

/-- The statements on the way along a link from `s`, where `seen` were met before. After `bound`
steps every statement of the program has been met. -/
def walkFrom (p : Program) (link : Link) :
    Nat → List StmtId → Option StmtId → Except Inconsistency (List StmtId)
  | _, _, none => .ok []
  | bound, seen, some s => do
    let stmt ← p.getStmt s
    match bound, seen.contains s with
    | bound + 1, false =>
      let more ← p.walkFrom link bound (s :: seen) (link.target stmt)
      return s :: more
    | _, _ => .error (.loopsBack link stmt.line)

/-- The statements on the way along a link, beginning with `s`. -/
def walk (p : Program) (link : Link) (s : Option StmtId) : Except Inconsistency (List StmtId) :=
  p.walkFrom link p.stmts.size [] s

end Program

end ProgramQuery
