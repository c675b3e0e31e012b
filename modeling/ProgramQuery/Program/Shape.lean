import ProgramQuery.Program.Basic

/-!
# Programs of the same shape

Two statements have the same shape if they do the same: equal variables and expressions, calls of
procedures of the same name, bodies of the same shape. Lines and numbers do not count, and the two
statements may belong to different programs.

Lists are compared in step along their `next` links. In a program whose links were overwritten such
a list may be endless; then the lists differ. A body may also lead back to the container that it
belongs to. Comparing then descends for ever, and the answer is `none`.
-/

set_option autoImplicit false

namespace ProgramQuery

namespace Shape

/-- The second answer, if the first is yes. -/
@[macro_inline] def andThen (first second : Option Bool) : Option Bool :=
  match first with
  | some true => second
  | other => other

/-- Compares two lists in step, at most `bound` places of them. -/
def sameFrom (p q : Program) (same : StmtId → StmtId → Option Bool) :
    Nat → Option StmtId → Option StmtId → Option Bool
  | 0, _, _ => some false
  | _ + 1, none, none => some true
  | bound + 1, some s, some t =>
    andThen (same s t)
      (sameFrom p q same bound (p.stmts[s]?.bind (·.next)) (q.stmts[t]?.bind (·.next)))
  | _ + 1, _, _ => some false

/-- Compares the lists that begin with two statements. A list longer than both programs is
endless. -/
def sameLists (p q : Program) (same : StmtId → StmtId → Option Bool) (s t : StmtId) : Option Bool :=
  sameFrom p q same (max p.stmts.size q.stmts.size + 1) (some s) (some t)

/-- Compares what two statements do, given how to compare the lists of their bodies. -/
def sameKind (p q : Program) (lists : StmtId → StmtId → Option Bool) :
    StmtKind StmtId → StmtKind StmtId → Option Bool
  | .assign x e, .assign y f => some (x == y && e == f)
  | .call f, .call g =>
    match p.procs[f]?, q.procs[g]? with
    | some a, some b => some (a.name == b.name)
    | _, _ => some false
  | .branch x thenS elseS, .branch y thenT elseT =>
    andThen (some (x == y)) (andThen (lists thenS thenT) (lists elseS elseT))
  | .loop x bodyS, .loop y bodyT => andThen (some (x == y)) (lists bodyS bodyT)
  | _, _ => some false

/-- Compares two statements, going down at most `depth` containers. -/
def sameStmt (p q : Program) : Nat → StmtId → StmtId → Option Bool
  | 0, _, _ => none
  | depth + 1, s, t =>
    match p.stmts[s]?, q.stmts[t]? with
    | some a, some b => sameKind p q (sameLists p q (sameStmt p q depth)) a.kind b.kind
    | _, _ => some false

/-- How deep two programs can be compared: deeper, some pair of containers is met inside itself. -/
def depthFor (p q : Program) : Nat := p.stmts.size * q.stmts.size + 1

end Shape

namespace Program

/-- Whether two statements have the same shape. -/
def sameStmt? (p q : Program) (s t : StmtId) : Option Bool :=
  Shape.sameStmt p q (Shape.depthFor p q) s t

/-- Whether the lists that begin with two statements have the same shape. -/
def sameList? (p q : Program) (s t : StmtId) : Option Bool :=
  Shape.sameLists p q (p.sameStmt? q) s t

/-- Whether two procedures have the same name and bodies of the same shape. -/
def sameProc? (p q : Program) (a b : Proc) : Option Bool :=
  Shape.andThen (some (a.name == b.name)) (p.sameList? q a.first b.first)

/-- Whether two programs have the same procedures, in the same order. -/
def same? (p q : Program) : Option Bool :=
  Shape.andThen (some (p.procs.size == q.procs.size))
    ((p.procs.toList.zip q.procs.toList).foldr
      (fun (a, b) rest => Shape.andThen (p.sameProc? q a b) rest) (some true))

end Program

end ProgramQuery
