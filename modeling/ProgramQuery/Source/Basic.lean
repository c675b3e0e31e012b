import ProgramQuery.Grammar.Simple
import ProgramQuery.Expr

/-!
# Source programs

What a text says, before it becomes a linked program: procedures with nested statements, where
literals and called names keep their place in the text so that a fault in them can be pointed at.

A `Block` is a statement list; each constructor puts one statement in front of the rest of its list.
`ofTrees?` reads source programs off the trees of the grammar.
-/

set_option autoImplicit false

namespace ProgramQuery.Source

open Grammar (Span ParseTree Rule)

/-- A word of a text with its place. -/
structure Word where
  text : String
  span : Span
deriving DecidableEq, Repr

/-- An expression whose literals are still digits. -/
inductive Expr where
  | var (name : String)
  | literal (digits : Word)
  | binary (op : Operator) (lhs rhs : Expr)
deriving DecidableEq, Repr

/-- A statement list: the end of a list, or one statement and the rest. -/
inductive Block where
  | done
  | assign (target : String) (value : Expr) (rest : Block)
  | call (callee : Word) (rest : Block)
  | branch (cond : String) (thenBody elseBody rest : Block)
  | loop (cond : String) (body rest : Block)
deriving DecidableEq, Repr

/-- A procedure and the part of the text that it takes up. -/
structure Proc where
  name : String
  span : Span
  body : Block
deriving DecidableEq, Repr

mutual

/-- The expression of a name, a literal, or a sequence of operands and operators. -/
def Expr.ofTree? : ParseTree Rule → Option Expr
  | .leaf .name _ text => some (.var text)
  | .leaf .integer span text => some (.literal ⟨text, span⟩)
  | .branch .expr _ ts => Expr.ofOperands? ts
  | .branch .term _ ts => Expr.ofOperands? ts
  | _ => none

/-- The expression of operands with operators of one rank between them. -/
def Expr.ofOperands? : List (ParseTree Rule) → Option Expr
  | [] => none
  | t :: ts => (Expr.ofTree? t).bind fun e => Expr.ofOperators? e ts

/-- Applies operators to what stands before them, from left to right. -/
def Expr.ofOperators? (lhs : Expr) : List (ParseTree Rule) → Option Expr
  | [] => some lhs
  | .leaf _ _ symbol :: t :: ts =>
    (Operator.ofSymbol? symbol).bind fun op =>
      (Expr.ofTree? t).bind fun rhs => Expr.ofOperators? (.binary op lhs rhs) ts
  | _ => none

end

mutual

/-- The statement of a tree, in front of the rest of its list. -/
def Block.ofStmt? (rest : Block) : ParseTree Rule → Option Block
  | .branch .assignStmt _ [.leaf .name _ target, value] =>
    (Expr.ofTree? value).map fun value => .assign target value rest
  | .branch .callStmt _ [.leaf .kwCall _ _, .leaf .name span callee] =>
    some (.call ⟨callee, span⟩ rest)
  | .branch .whileStmt _ [.leaf .kwWhile _ _, .leaf .name _ cond, body] =>
    (Block.ofTree? body).map fun body => .loop cond body rest
  | .branch .ifStmt _
      [.leaf .kwIf _ _, .leaf .name _ cond, thenBody, .leaf .kwElse _ _, elseBody] =>
    (Block.ofTree? thenBody).bind fun thenBody =>
      (Block.ofTree? elseBody).map fun elseBody => .branch cond thenBody elseBody rest
  | .branch .ifStmt _
      [.leaf .kwIf _ _, .leaf .name _ cond, .leaf .kwThen _ _, thenBody, .leaf .kwElse _ _,
        elseBody] =>
    (Block.ofTree? thenBody).bind fun thenBody =>
      (Block.ofTree? elseBody).map fun elseBody => .branch cond thenBody elseBody rest
  | _ => none

/-- The statement list of a tree. -/
def Block.ofTree? : ParseTree Rule → Option Block
  | .branch .stmtList _ ts => Block.ofStmts? ts
  | _ => none

/-- The statement list of several trees. -/
def Block.ofStmts? : List (ParseTree Rule) → Option Block
  | [] => some .done
  | t :: ts => (Block.ofStmts? ts).bind fun rest => Block.ofStmt? rest t

end

/-- The procedure of a tree. -/
def Proc.ofTree? : ParseTree Rule → Option Proc
  | .branch .procedure span [.leaf .kwProc _ _, .leaf .name _ name, body] =>
    (Block.ofTree? body).map fun body => ⟨name, span, body⟩
  | _ => none

/-- The procedures of several trees, up to the end of the text. -/
def procsOfTrees? : List (ParseTree Rule) → Option (List Proc)
  | [.leaf .endOfInput _ _] => some []
  | t :: ts => (Proc.ofTree? t).bind fun proc => (procsOfTrees? ts).map (proc :: ·)
  | [] => none

/-- The procedures of a program's tree. -/
def ofTrees? : List (ParseTree Rule) → Option (List Proc)
  | [.branch .program _ ts] => procsOfTrees? ts
  | _ => none

/-- The procedures of a text, if it is a program. -/
def ofText? (text : String) : Option (List Proc) :=
  (Grammar.simple.trees? .program text.toList).bind ofTrees?

end ProgramQuery.Source
