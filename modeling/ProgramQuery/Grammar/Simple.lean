import ProgramQuery.Grammar.Pattern

/-!
# The grammar of Simple

A program is a sequence of procedures; statement lists are never empty, and every `if` has an
`else`. `+` and `-` bind looser than `*`. Keywords and names are told apart by whole words: `iffy`
is a name, and so is `procedures`, because the longer spelling of a keyword is tried first and then
kept.
-/

set_option autoImplicit false

namespace ProgramQuery.Grammar

/-- The rules of the grammar. -/
inductive Rule where
  | whitespace | comment | identChar
  | kwProc | kwCall | kwWhile | kwIf | kwThen | kwElse | keyword
  | name | integer
  | program | procedure | stmtList
  | statement | callStmt | whileStmt | ifStmt | assignStmt
  | expr | term | factor | addOp | mulOp
  | wholeName | wholeInteger | wholeExpr | wholeStmt
  | endOfInput
deriving DecidableEq, Repr

namespace Rule

/-- The name under which a rule is asked for and shown. -/
def label : Rule → String
  | whitespace => "WHITESPACE"
  | comment => "COMMENT"
  | identChar => "ident_char"
  | kwProc => "kw_proc"
  | kwCall => "kw_call"
  | kwWhile => "kw_while"
  | kwIf => "kw_if"
  | kwThen => "kw_then"
  | kwElse => "kw_else"
  | keyword => "keyword"
  | name => "name"
  | integer => "integer"
  | program => "program"
  | procedure => "procedure"
  | stmtList => "stmt_list"
  | statement => "statement"
  | callStmt => "call_stmt"
  | whileStmt => "while_stmt"
  | ifStmt => "if_stmt"
  | assignStmt => "assign_stmt"
  | expr => "expr"
  | term => "term"
  | factor => "factor"
  | addOp => "add_op"
  | mulOp => "mul_op"
  | wholeName => "test_name"
  | wholeInteger => "test_integer"
  | wholeExpr => "test_expr"
  | wholeStmt => "test_stmt"
  | endOfInput => "EOI"

/-- All rules. -/
def all : List Rule :=
  [whitespace, comment, identChar, kwProc, kwCall, kwWhile, kwIf, kwThen, kwElse, keyword, name,
    integer, program, procedure, stmtList, statement, callStmt, whileStmt, ifStmt, assignStmt, expr,
    term, factor, addOp, mulOp, wholeName, wholeInteger, wholeExpr, wholeStmt, endOfInput]

/-- The rule of a name. -/
def ofLabel? (text : String) : Option Rule := all.find? fun r => r.label == text

end Rule

/-- The characters that separate words. -/
def isBlank (c : Char) : Bool := c == ' ' || c == '\t' || c == '\r' || c == '\n'

/-- The letters of the English alphabet. -/
def isLetter (c : Char) : Bool := ('a' ≤ c && c ≤ 'z') || ('A' ≤ c && c ≤ 'Z')

/-- The decimal digits. -/
def isDigit (c : Char) : Bool := '0' ≤ c && c ≤ '9'

/-- The characters that may follow the first letter of a name. -/
def isNameChar (c : Char) : Bool := isLetter c || isDigit c || c == '_'

/-- The text after a gap, with the byte offset there. A gap is a run of blanks and of comments, each
from `//` to the end of its line; `commented` tells whether the text starts inside a comment. -/
def skipGapFrom (pos : Nat) (commented : Bool) : List Char → Cursor
  | [] => ⟨pos, []⟩
  | x :: rest =>
    if commented then
      skipGapFrom (pos + x.utf8Size) (x != '\n') rest
    else if isBlank x then
      skipGapFrom (pos + x.utf8Size) false rest
    else if x == '/' && rest.head? == some '/' then
      skipGapFrom (pos + x.utf8Size) true rest
    else ⟨pos, x :: rest⟩

/-- The place after the longest gap. -/
def skipGap (c : Cursor) : Cursor := skipGapFrom c.pos false c.rest

/-- Patterns one after the other. -/
def inOrder {ρ : Type} (first : Pattern ρ) (more : List (Pattern ρ)) : Pattern ρ :=
  more.foldl .seq first

/-- The first pattern that matches. -/
def oneOf {ρ : Type} (first : Pattern ρ) (more : List (Pattern ρ)) : Pattern ρ :=
  more.foldl .alt first

/-- A pattern at least once. -/
def atLeastOnce {ρ : Type} (a : Pattern ρ) : Pattern ρ := .seq a (.star a)

/-- A word of the language: its letters, with no name character after them. -/
def wordPattern (letters : Pattern Rule) : Pattern Rule := .seq letters (.unless (.char isNameChar))

/-- The keyword of a procedure, long or short. -/
def procWord : Pattern Rule :=
  wordPattern (.alt (.chars "procedure".toList) (.chars "proc".toList))

/-- A keyword with one spelling. -/
def word (letters : String) : Pattern Rule := wordPattern (.chars letters.toList)

/-- Any keyword. -/
def anyKeyword : Pattern Rule :=
  oneOf procWord [word "call", word "while", word "if", word "then", word "else"]

/-- A pattern that takes the whole text. -/
def wholePattern (a : Pattern Rule) : Pattern Rule := inOrder .atStart [a, .rule .endOfInput]

/-- A statement list in braces. -/
def blockPattern : List (Pattern Rule) :=
  [.chars ['\x7b'], .rule .stmtList, .chars ['\x7d']]

/-- The pattern of each rule. -/
def Rule.pattern : Rule → Pattern Rule
  | .whitespace => .char isBlank
  | .comment =>
    .seq (.chars ['/', '/']) (.star (.seq (.unless (.chars ['\n'])) (.char fun _ => true)))
  | .identChar => .char isNameChar
  | .kwProc => procWord
  | .kwCall => word "call"
  | .kwWhile => word "while"
  | .kwIf => word "if"
  | .kwThen => word "then"
  | .kwElse => word "else"
  | .keyword =>
    oneOf (.rule .kwProc)
      [.rule .kwCall, .rule .kwWhile, .rule .kwIf, .rule .kwThen, .rule .kwElse]
  | .name => inOrder (.unless anyKeyword) [.char isLetter, .star (.char isNameChar)]
  | .integer => atLeastOnce (.char isDigit)
  | .program => wholePattern (atLeastOnce (.rule .procedure))
  | .procedure => inOrder (.rule .kwProc) (.rule .name :: blockPattern)
  | .stmtList => atLeastOnce (.rule .statement)
  | .statement =>
    oneOf (.rule .callStmt) [.rule .whileStmt, .rule .ifStmt, .rule .assignStmt]
  | .callStmt => inOrder (.rule .kwCall) [.rule .name, .chars [';']]
  | .whileStmt => inOrder (.rule .kwWhile) (.rule .name :: blockPattern)
  | .ifStmt =>
    inOrder (.rule .kwIf)
      (.rule .name :: .opt (.rule .kwThen) :: blockPattern ++ .rule .kwElse :: blockPattern)
  | .assignStmt => inOrder (.rule .name) [.chars ['='], .rule .expr, .chars [';']]
  | .expr => .seq (.rule .term) (.star (.seq (.rule .addOp) (.rule .term)))
  | .term => .seq (.rule .factor) (.star (.seq (.rule .mulOp) (.rule .factor)))
  | .factor =>
    oneOf (.rule .name)
      [.rule .integer, inOrder (.chars ['(']) [.rule .expr, .chars [')']]]
  | .addOp => .alt (.chars ['+']) (.chars ['-'])
  | .mulOp => .chars ['*']
  | .wholeName => wholePattern (.rule .name)
  | .wholeInteger => wholePattern (.rule .integer)
  | .wholeExpr => wholePattern (.rule .expr)
  | .wholeStmt => wholePattern (.rule .statement)
  | .endOfInput => .atEnd

/-- The rules that show no tree of their own. -/
def Rule.isSilent : Rule → Bool
  | .whitespace | .comment | .identChar | .keyword | .statement | .factor => true
  | _ => false

/-- The rules that are matched character by character. -/
def Rule.isAtomic : Rule → Bool
  | .whitespace | .comment | .kwProc | .kwCall | .kwWhile | .kwIf | .kwThen | .kwElse | .name
  | .integer => true
  | _ => false

/-- The grammar of Simple. -/
def simple : Grammar Rule where
  labelled r := !r.isSilent
  atomic := Rule.isAtomic
  body := Rule.pattern
  skip := skipGap

end ProgramQuery.Grammar
