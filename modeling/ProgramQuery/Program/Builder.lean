import ProgramQuery.Program.Placement

/-!
# Building in place

A builder is a draft that calls change in place. Beside procedures and statements it keeps what a
draft works out anew each time: the line of the next statement, and the number of the procedure of
each name. Lines are numbers of 32 bits, and after the last of them there is none.

A call that fails stops where it is, and what it changed before it failed stays changed. So that
failed calls have no effect, every call makes its checks first.
-/

set_option autoImplicit false

namespace ProgramQuery

open Draft (Step Reply)

/-- A program under construction, as it is kept between calls. -/
structure Builder where
  procs : Array DraftProc
  /-- The number of the procedure of each name. -/
  index : SortedMap String ProcId
  stmts : Array DraftStmt
  /-- The line of the next statement, `none` once the last line is used. -/
  nextLine : Option UInt32

namespace Builder

/-- A call of a builder, which gives back a result or an error and in either case leaves a builder
behind. -/
abbrev Call := EStateM DraftError Builder

/-- The builder without procedures and statements. -/
def start (settings : Settings) : Builder := ⟨#[], ∅, #[], some (.ofNat settings.firstLine)⟩

/-- The line after a line, if that is not the last one. -/
def lineAfter? (line : UInt32) : Option UInt32 :=
  if line.toNat < maxLine then some (line + 1) else none

/-- The procedure of a name. -/
def procNamed? (b : Builder) (name : String) : Option ProcId := b.index.find? name

/-- Whether the body of a procedure is set. -/
def hasBody (b : Builder) (q : ProcId) : Bool := b.procs[q]?.any (·.first.isSome)

/-- The statement of a number. -/
def stmtOf (s : StmtId) : Call DraftStmt := do
  match (← get).stmts[s]? with
  | some stmt => return stmt
  | none => throw (.unknownStmt s)

/-- The procedure of a number. -/
def procOf (q : ProcId) : Call DraftProc := do
  match (← get).procs[q]? with
  | some proc => return proc
  | none => throw (.unknownProc q)

/-- Puts a statement in the place of the one of its number. -/
def putStmt (s : StmtId) (stmt : DraftStmt) : Call Unit :=
  modify fun b => { b with stmts := b.stmts.setIfInBounds s stmt }

/-- Puts a procedure in the place of the one of its number. -/
def putProc (q : ProcId) (proc : DraftProc) : Call Unit :=
  modify fun b => { b with procs := b.procs.setIfInBounds q proc }

/-- Declares a procedure, unless one of that name is there already, and gives its number. -/
def declare (name : String) : Call ProcId := do
  let b ← get
  match b.procNamed? name with
  | some q => return q
  | none =>
    let q := b.procs.size
    modify fun b => { b with procs := b.procs.push ⟨name, none⟩ }
    modify fun b => { b with index := b.index.insert name q }
    return q

/-- Adds an unlinked statement on the next line, if there is one. -/
def add (kind : StmtKind (Option StmtId)) : Call StmtId := do
  let b ← get
  match b.nextLine with
  | none => throw .lineOverflow
  | some line =>
    let s := b.stmts.size
    modify fun b => { b with stmts := b.stmts.push ⟨line.toNat, none, kind⟩ }
    modify fun b => { b with nextLine := lineAfter? line }
    return s

/-- Adds a call of a declared procedure. -/
def addCall (callee : ProcId) : Call StmtId := do
  if callee < (← get).procs.size then add (.call callee) else throw (.unknownProc callee)

/-- Lets `next` follow `prev`, in place of what followed it before. -/
def setNext (prev next : StmtId) : Call Unit := do
  let _ ← stmtOf next
  let stmt ← stmtOf prev
  putStmt prev { stmt with next := some next }

/-- Sets the body of a procedure, which can be done once. -/
def setProcBody (first : StmtId) (q : ProcId) : Call Unit := do
  let _ ← stmtOf first
  let proc ← procOf q
  match proc.first with
  | some _ => throw (.repeatedProcBody proc.name)
  | none => putProc q { proc with first := some first }

/-- Sets a body of the container `s`, in place of what was set before. -/
def setBody (part : BodyPart) (first s : StmtId) : Call Unit := do
  let _ ← stmtOf first
  let stmt ← stmtOf s
  match Draft.withBody first part stmt.kind with
  | some kind => putStmt s { stmt with kind := kind }
  | none => throw (.wrongKind stmt.line part)

/-- The call that takes a step. -/
def call : Step → Call Reply
  | .declare name => return .proc (← declare name)
  | .addAssign target value => return .stmt (← add (.assign target value))
  | .addCall callee => return .stmt (← addCall callee)
  | .addBranch cond => return .stmt (← add (.branch cond none none))
  | .addLoop cond => return .stmt (← add (.loop cond none))
  | .setNext prev next => do
    setNext prev next
    return .done
  | .setProcBody first q => do
    setProcBody first q
    return .done
  | .setBody part first s => do
    setBody part first s
    return .done

/-- What a call gives back, and the builder that it leaves behind. -/
def answer (b : Builder) (step : Step) : Except DraftError Reply × Builder :=
  match (call step).run b with
  | .ok reply b => (.ok reply, b)
  | .error e b => (.error e, b)

/-- The draft that is built. -/
def draft (settings : Settings) (b : Builder) : Draft := ⟨settings.firstLine, b.procs, b.stmts⟩

/-- The program of what is built, if every procedure and container has its bodies and every
statement is reached from the procedures exactly once. -/
def finish (settings : Settings) (b : Builder) : Except DraftError Program :=
  (b.draft settings).finish

end Builder

end ProgramQuery
