import ProgramQuery.Program.Basic

/-!
# Drafts

A draft is a program under construction: procedures may lack their body, containers their bodies,
and statements are linked one link at a time. Statements are numbered and get their lines in the
order in which they are added. A step either succeeds or says what is wrong with it, and a step that
fails has no effect.

The steps are also data (`Draft.Step`), so that a whole course of building is a list.
-/

set_option autoImplicit false

namespace ProgramQuery

/-- The bodies of containers. -/
inductive BodyPart where
  | thenBranch
  | elseBranch
  | loopBody
deriving DecidableEq, Repr

namespace BodyPart

/-- The part in words. -/
def text : BodyPart → String
  | thenBranch => "then branch"
  | elseBranch => "else branch"
  | loopBody => "loop body"

/-- The kind of statement that has the part, in words. -/
def containerText : BodyPart → String
  | thenBranch => "if statement"
  | elseBranch => "if statement"
  | loopBody => "while statement"

end BodyPart

/-- What can be wrong with a step or with a whole draft. -/
inductive DraftError where
  | missingProcBody (name : String)
  | repeatedProcBody (name : String)
  | missingBody (line : Nat) (part : BodyPart)
  | wrongKind (line : Nat) (part : BodyPart)
  | reachedTwice (line : Nat)
  | detached (line : Nat)
  | unknownStmt (id : StmtId)
  | unknownProc (id : ProcId)
  | lineOverflow
deriving DecidableEq, Repr

/-- The fault in words. -/
def DraftError.message : DraftError → String
  | missingProcBody name => "Procedure '" ++ name ++ "' has no body"
  | repeatedProcBody name => "Procedure '" ++ name ++ "' already has a body"
  | missingBody line part =>
    "Container at line " ++ toString line ++ " is missing its " ++ part.text
  | wrongKind line part =>
    "Statement at line " ++ toString line ++ " is not a " ++ part.containerText
  | reachedTwice line =>
    "Statement at line " ++ toString line ++
      " is reachable twice (shared or cyclic statement list)"
  | detached line =>
    "Statement at line " ++ toString line ++ " does not belong to any procedure"
  | unknownStmt id => "Unknown statement id #" ++ toString id
  | unknownProc id => "Unknown procedure id #" ++ toString id
  | lineOverflow => "Line number overflow: too many statements after the first line"

/-- A procedure of a draft. -/
structure DraftProc where
  name : String
  /-- The first statement of the body, once it is set. -/
  first : Option StmtId
deriving DecidableEq, Repr

/-- A statement of a draft. -/
structure DraftStmt where
  line : Nat
  /-- The statement that follows in the list, once it is set. -/
  next : Option StmtId
  kind : StmtKind (Option StmtId)
deriving DecidableEq, Repr

/-- A program under construction. -/
structure Draft where
  /-- The line of the first statement. -/
  firstLine : Nat
  procs : Array DraftProc
  stmts : Array DraftStmt
deriving DecidableEq, Repr

namespace Draft

/-- The draft without procedures and statements. -/
def start (settings : Settings) : Draft := ⟨settings.firstLine, #[], #[]⟩

/-- The procedure of a name. -/
def procNamed? (d : Draft) (name : String) : Option ProcId :=
  d.procs.findIdx? fun q => q.name == name

/-- Declares a procedure, unless one of that name is there already, and gives its number. -/
def declare (d : Draft) (name : String) : Draft × ProcId :=
  match d.procNamed? name with
  | some q => (d, q)
  | none => ({ d with procs := d.procs.push ⟨name, none⟩ }, d.procs.size)

/-- Whether the body of a procedure is set. -/
def hasBody (d : Draft) (q : ProcId) : Bool := d.procs[q]?.any (·.first.isSome)

/-- Adds an unlinked statement on the next line, if there is one. -/
def add (d : Draft) (kind : StmtKind (Option StmtId)) : Except DraftError (Draft × StmtId) :=
  let line := d.firstLine + d.stmts.size
  if line ≤ maxLine then
    .ok ({ d with stmts := d.stmts.push ⟨line, none, kind⟩ }, d.stmts.size)
  else
    .error .lineOverflow

/-- Adds an assignment. -/
def addAssign (d : Draft) (target : String) (value : Expr) : Except DraftError (Draft × StmtId) :=
  d.add (.assign target value)

/-- Adds a call of a declared procedure. -/
def addCall (d : Draft) (callee : ProcId) : Except DraftError (Draft × StmtId) :=
  if callee < d.procs.size then d.add (.call callee) else .error (.unknownProc callee)

/-- Adds an `if` whose branches are not set yet. -/
def addBranch (d : Draft) (cond : String) : Except DraftError (Draft × StmtId) :=
  d.add (.branch cond none none)

/-- Adds a `while` whose body is not set yet. -/
def addLoop (d : Draft) (cond : String) : Except DraftError (Draft × StmtId) :=
  d.add (.loop cond none)

/-- The statement of a number. -/
def getStmt (d : Draft) (s : StmtId) : Except DraftError DraftStmt :=
  match d.stmts[s]? with
  | some stmt => .ok stmt
  | none => .error (.unknownStmt s)

/-- The procedure of a number. -/
def getProc (d : Draft) (q : ProcId) : Except DraftError DraftProc :=
  match d.procs[q]? with
  | some proc => .ok proc
  | none => .error (.unknownProc q)

/-- Lets `next` follow `prev`, in place of what followed it before. -/
def setNext (d : Draft) (prev next : StmtId) : Except DraftError Draft := do
  let _ ← d.getStmt next
  let stmt ← d.getStmt prev
  return { d with stmts := d.stmts.setIfInBounds prev { stmt with next := some next } }

/-- Sets the body of a procedure, which can be done once. -/
def setProcBody (d : Draft) (first : StmtId) (q : ProcId) : Except DraftError Draft := do
  let _ ← d.getStmt first
  let proc ← d.getProc q
  match proc.first with
  | some _ => .error (.repeatedProcBody proc.name)
  | none => .ok { d with procs := d.procs.setIfInBounds q { proc with first := some first } }

/-- The kind with one of its body links set, if it has such a body. -/
def withBody (first : StmtId) :
    BodyPart → StmtKind (Option StmtId) → Option (StmtKind (Option StmtId))
  | .thenBranch, .branch cond _ elseFirst => some (.branch cond (some first) elseFirst)
  | .elseBranch, .branch cond thenFirst _ => some (.branch cond thenFirst (some first))
  | .loopBody, .loop cond _ => some (.loop cond (some first))
  | _, _ => none

/-- Sets a body of the container `s`, in place of what was set before. -/
def setBody (d : Draft) (part : BodyPart) (first s : StmtId) : Except DraftError Draft := do
  let _ ← d.getStmt first
  let stmt ← d.getStmt s
  match withBody first part stmt.kind with
  | some kind => .ok { d with stmts := d.stmts.setIfInBounds s { stmt with kind := kind } }
  | none => .error (.wrongKind stmt.line part)

/-- A step of building a program. -/
inductive Step where
  | declare (name : String)
  | addAssign (target : String) (value : Expr)
  | addCall (callee : ProcId)
  | addBranch (cond : String)
  | addLoop (cond : String)
  | setNext (prev next : StmtId)
  | setProcBody (first : StmtId) (q : ProcId)
  | setBody (part : BodyPart) (first s : StmtId)
deriving DecidableEq, Repr

/-- What a step gives back: the procedure or statement that it is about, or nothing. -/
inductive Reply where
  | proc (q : ProcId)
  | stmt (s : StmtId)
  | done
deriving DecidableEq, Repr

/-- The reply of a step that adds a statement. -/
def added (result : Except DraftError (Draft × StmtId)) : Except DraftError (Draft × Reply) :=
  result.map fun (d, s) => (d, .stmt s)

/-- The reply of a step that sets a link. -/
def linked (result : Except DraftError Draft) : Except DraftError (Draft × Reply) :=
  result.map fun d => (d, .done)

/-- Takes a step. -/
def apply (d : Draft) : Step → Except DraftError (Draft × Reply)
  | .declare name => .ok ((d.declare name).1, .proc (d.declare name).2)
  | .addAssign target value => added (d.addAssign target value)
  | .addCall callee => added (d.addCall callee)
  | .addBranch cond => added (d.addBranch cond)
  | .addLoop cond => added (d.addLoop cond)
  | .setNext prev next => linked (d.setNext prev next)
  | .setProcBody first q => linked (d.setProcBody first q)
  | .setBody part first s => linked (d.setBody part first s)

/-- The draft after a step, which is the same draft if the step fails. -/
def perform (d : Draft) (step : Step) : Draft :=
  match d.apply step with
  | .ok (after, _) => after
  | .error _ => d

end Draft

end ProgramQuery
