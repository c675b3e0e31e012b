import ProgramQuery.SortedSet

/-!
# Expressions

Right-hand sides of assignments: variables, integer constants and the operators `+`, `-`, `*`.
`Expr.text` writes every operator with its operands in parentheses, so that the text shows the
structure without rules of precedence.
-/

set_option autoImplicit false

namespace ProgramQuery

/-- The operators of an expression. -/
inductive Operator where
  | plus
  | minus
  | times
deriving DecidableEq, Repr

namespace Operator

/-- The sign that stands for the operator. -/
def symbol : Operator → String
  | plus => "+"
  | minus => "-"
  | times => "*"

/-- The operator that a sign stands for. -/
def ofSymbol? : String → Option Operator
  | "+" => some plus
  | "-" => some minus
  | "*" => some times
  | _ => none

/-- What is said of a text that is no operator sign. -/
def unknownMessage : String := "Matching variant not found"

/-- The symbol of an operator is read as that operator. -/
@[simp] theorem ofSymbol?_symbol (op : Operator) : ofSymbol? op.symbol = some op := by
  cases op <;> rfl

end Operator

/-- An expression. -/
inductive Expr where
  | var (name : String)
  | const (value : Int)
  | binary (op : Operator) (lhs rhs : Expr)
deriving DecidableEq, Repr

namespace Expr

/-- The expression as text, every operator with its operands in parentheses. -/
def text : Expr → String
  | var name => name
  | const value => toString value
  | binary op lhs rhs => "(" ++ lhs.text ++ " " ++ op.symbol ++ " " ++ rhs.text ++ ")"

/-- The variables that occur. -/
def vars : Expr → SortedSet String
  | var name => .singleton name
  | const _ => ∅
  | binary _ lhs rhs => lhs.vars.union rhs.vars

/-- The constants that occur. -/
def consts : Expr → SortedSet Int
  | var _ => ∅
  | const value => .singleton value
  | binary _ lhs rhs => lhs.consts.union rhs.consts

/-- A variable reads only itself. -/
@[simp] theorem mem_vars_var {x name : String} :
    x ∈ (var name).vars ↔ x = name := SortedSet.mem_singleton

/-- A constant reads no variable. -/
@[simp] theorem mem_vars_const {x : String} {value : Int} :
    ¬ x ∈ (const value).vars := SortedSet.not_mem_empty

/-- An operation reads what either of its operands reads. -/
@[simp] theorem mem_vars_binary {x : String} {op : Operator} {lhs rhs : Expr} :
    x ∈ (binary op lhs rhs).vars ↔ x ∈ lhs.vars ∨ x ∈ rhs.vars :=
  SortedSet.mem_union

end Expr

end ProgramQuery
