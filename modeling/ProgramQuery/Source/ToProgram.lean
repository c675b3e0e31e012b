import ProgramQuery.Source.Basic
import ProgramQuery.Program.Placement

/-!
# From texts to programs

`Program.ofText` reads a text and links what it says into a program. All procedures are declared
before any body is read, so calls may go to later procedures. Statements are added in source order,
a container before its bodies, and that order gives them their lines. The first fault in this order
is the one that is reported.
-/

set_option autoImplicit false

namespace ProgramQuery

open Grammar (Span)

/-- Why a text is no program. -/
inductive ParseError where
  /-- The text does not follow the grammar. -/
  | notAProgram
  /-- A call of a name that no procedure has. -/
  | undefinedProc (callee : Source.Word)
  /-- A procedure with the name of an earlier one. -/
  | repeatedProc (name : String) (span : Span)
  /-- A literal beyond the largest constant. -/
  | literalTooLarge (digits : Source.Word)
  /-- A fault in the statements' numbering or links. -/
  | draft (fault : DraftError)
deriving DecidableEq, Repr

/-- A span as messages show it. -/
def Grammar.Span.text (span : Span) : String :=
  "Some((" ++ toString span.start ++ ", " ++ toString span.stop ++ "))"

/-- The fault in words; there is one text for everything that does not follow the grammar. -/
def ParseError.message : ParseError → String
  | notAProgram => "The text does not follow the grammar"
  | undefinedProc callee =>
    "Call to undefined procedure '" ++ callee.text ++ "' at " ++ callee.span.text
  | repeatedProc name span => "Duplicate procedure '" ++ name ++ "' at " ++ span.text
  | literalTooLarge digits =>
    "Invalid integer literal '" ++ digits.text ++ "' at " ++ digits.span.text
  | draft fault => "AST construction failed: " ++ fault.message

/-- The largest constant. -/
def maxConstant : Nat := 9223372036854775807

/-- The number that decimal digits stand for. -/
def digitsValue (digits : List Char) : Nat :=
  digits.foldl (fun value digit => 10 * value + (digit.toNat - '0'.toNat)) 0

namespace Source

/-- The expression with its literals as numbers. -/
def Expr.resolve : Source.Expr → Except ParseError ProgramQuery.Expr
  | .var name => .ok (.var name)
  | .literal digits =>
    let value := digitsValue digits.text.toList
    if value ≤ maxConstant then .ok (.const value) else .error (.literalTooLarge digits)
  | .binary op lhs rhs => do
    let lhs ← lhs.resolve
    let rhs ← rhs.resolve
    return .binary op lhs rhs

/-- A step of a draft as part of reading a text. -/
def step {α : Type} (result : Except DraftError α) : Except ParseError α :=
  result.mapError .draft

/-- Lets a statement be followed by the first statement of the rest of its list, if there is one. -/
def linkNext (d : Draft) (s : StmtId) : Option StmtId → Except ParseError Draft
  | none => .ok d
  | some next => step (d.setNext s next)

/-- Gives a container one of its bodies, if the body has a statement. -/
def linkBody (d : Draft) (part : BodyPart) (s : StmtId) : Option StmtId → Except ParseError Draft
  | none => .ok d
  | some first => step (d.setBody part first s)

/-- Adds the statements of a list to a draft and gives the first of them. -/
def Block.addTo : Block → Draft → Except ParseError (Draft × Option StmtId)
  | .done, d => .ok (d, none)
  | .assign target value rest, d => do
    let value ← value.resolve
    let (d, s) ← step (d.addAssign target value)
    let (d, next) ← rest.addTo d
    return (← linkNext d s next, some s)
  | .call callee rest, d =>
    match d.procNamed? callee.text with
    | none => .error (.undefinedProc callee)
    | some q => do
      let (d, s) ← step (d.addCall q)
      let (d, next) ← rest.addTo d
      return (← linkNext d s next, some s)
  | .branch cond thenBody elseBody rest, d => do
    let (d, s) ← step (d.addBranch cond)
    let (d, first) ← thenBody.addTo d
    let d ← linkBody d .thenBranch s first
    let (d, first) ← elseBody.addTo d
    let d ← linkBody d .elseBranch s first
    let (d, next) ← rest.addTo d
    return (← linkNext d s next, some s)
  | .loop cond body rest, d => do
    let (d, s) ← step (d.addLoop cond)
    let (d, first) ← body.addTo d
    let d ← linkBody d .loopBody s first
    let (d, next) ← rest.addTo d
    return (← linkNext d s next, some s)

/-- Declares procedures, each under a name of its own. -/
def declareAll : List Proc → Draft → Except ParseError Draft
  | [], d => .ok d
  | proc :: procs, d =>
    match d.procNamed? proc.name with
    | some _ => .error (.repeatedProc proc.name proc.span)
    | none => declareAll procs (d.declare proc.name).1

/-- Adds the bodies of procedures, which are numbered from `q` on. -/
def addBodies : ProcId → List Proc → Draft → Except ParseError Draft
  | _, [], d => .ok d
  | q, proc :: procs, d => do
    let (d, first) ← proc.body.addTo d
    match first with
    | none => addBodies (q + 1) procs d
    | some first => addBodies (q + 1) procs (← step (d.setProcBody first q))

/-- The program of some procedures. -/
def toProgram (settings : Settings) (procs : List Proc) : Except ParseError Program := do
  let d ← declareAll procs (.start settings)
  let d ← addBodies 0 procs d
  step d.finish

end Source

/-- The program of a text. -/
def Program.ofText (settings : Settings) (text : String) : Except ParseError Program :=
  match Source.ofText? text with
  | none => .error .notAProgram
  | some procs => Source.toProgram settings procs

end ProgramQuery
