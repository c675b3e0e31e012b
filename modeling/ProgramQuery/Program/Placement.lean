import ProgramQuery.Program.Draft

/-!
# Finishing a draft

`Draft.finish` turns a draft into a program if its links make every statement a member of exactly
one statement list. It goes through the lists from the procedures, a container before its bodies and
those before what follows it, and gives each statement it meets its place: the owning procedure, the
enclosing container and the statement before it.
-/

set_option autoImplicit false

namespace ProgramQuery

/-- The kind with its body links, if all of them are set. -/
def DraftStmt.sealedKind (s : DraftStmt) : Except DraftError (StmtKind StmtId) :=
  match s.kind with
  | .assign target value => .ok (.assign target value)
  | .call callee => .ok (.call callee)
  | .branch _ none _ => .error (.missingBody s.line .thenBranch)
  | .branch _ (some _) none => .error (.missingBody s.line .elseBranch)
  | .branch cond (some thenFirst) (some elseFirst) => .ok (.branch cond thenFirst elseFirst)
  | .loop _ none => .error (.missingBody s.line .loopBody)
  | .loop cond (some first) => .ok (.loop cond first)

namespace Draft

/-- The place of a statement. -/
structure Place where
  owner : ProcId
  parent : Option StmtId
  prev : Option StmtId
deriving DecidableEq, Repr

/-- A statement to be placed. -/
structure Visit where
  stmt : StmtId
  place : Place
deriving DecidableEq, Repr

/-- The visits that a placed statement leads to: its bodies, then what follows it. -/
def visitsAfter (v : Visit) (kind : StmtKind StmtId) (next : Option StmtId) : List Visit :=
  kind.bodies.map (fun first => ⟨first, ⟨v.place.owner, some v.stmt, none⟩⟩) ++
    next.toList.map fun s => ⟨s, ⟨v.place.owner, v.place.parent, some v.stmt⟩⟩

/-- Makes pending visits and those they lead to. Every visit places one more statement, so once
`bound` statements are placed, a statement to be visited has its place already. -/
def visitAll (d : Draft) :
    Nat → List Visit → Array (Option Place) → Except DraftError (Array (Option Place))
  | _, [], places => .ok places
  | bound, v :: pending, places => do
    let stmt ← d.getStmt v.stmt
    match bound, places[v.stmt]? with
    | bound + 1, some none =>
      let kind ← stmt.sealedKind
      d.visitAll bound (visitsAfter v kind stmt.next ++ pending)
        (places.setIfInBounds v.stmt (some v.place))
    | _, _ => .error (.reachedTwice stmt.line)

/-- Places the statements of one procedure after another. -/
def placeProcs (d : Draft) :
    List (DraftProc × ProcId) → Array (Option Place) → Except DraftError (Array (Option Place))
  | [], places => .ok places
  | (proc, q) :: procs, places =>
    match proc.first with
    | none => .error (.missingProcBody proc.name)
    | some first => do
      let places ← d.visitAll d.stmts.size [⟨first, ⟨q, none, none⟩⟩] places
      d.placeProcs procs places

/-- A statement at its place. -/
def sealStmt (stmt : DraftStmt) : Option Place → Except DraftError Stmt
  | none => .error (.detached stmt.line)
  | some place => do
    let kind ← stmt.sealedKind
    return ⟨stmt.line, stmt.next, place.prev, place.parent, place.owner, kind⟩

/-- A procedure with its body. -/
def sealProc (proc : DraftProc) : Except DraftError Proc :=
  match proc.first with
  | none => .error (.missingProcBody proc.name)
  | some first => .ok ⟨proc.name, first⟩

/-- The program of a draft in which every procedure and container has its bodies and every statement
is reached from the procedures exactly once. -/
def finish (d : Draft) : Except DraftError Program := do
  let places ← d.placeProcs d.procs.toList.zipIdx (Array.replicate d.stmts.size none)
  let procs ← d.procs.toList.mapM sealProc
  let stmts ← (d.stmts.toList.zip places.toList).mapM fun (stmt, place) => sealStmt stmt place
  return ⟨procs.toArray, stmts.toArray⟩

end Draft

end ProgramQuery
