/-!
# Places in a text and parse trees

A place in a text is given by the bytes before it and the characters after it, so that matching goes
through characters and spans count bytes. A parse tree has the rules that were matched, each with
the span of the text that it took up.
-/

set_option autoImplicit false

namespace ProgramQuery.Grammar

/-- A place in a text: how many bytes lie before it and which characters come after it. -/
structure Cursor where
  pos : Nat
  rest : List Char
deriving DecidableEq, Repr

namespace Cursor

/-- The place after one more character. -/
def advance (c : Cursor) (x : Char) (rest : List Char) : Cursor := ⟨c.pos + x.utf8Size, rest⟩

/-- The place after a character that passes the test. -/
def char? (accept : Char → Bool) (c : Cursor) : Option Cursor :=
  match c.rest with
  | [] => none
  | x :: rest => if accept x then some (c.advance x rest) else none

/-- The place after the given characters. -/
def chars? : List Char → Cursor → Option Cursor
  | [], c => some c
  | x :: xs, c => (c.char? (· == x)).bind (chars? xs)

end Cursor

/-- The leading characters that take up the given number of bytes. -/
def takeBytes : Nat → List Char → List Char
  | _, [] => []
  | n, x :: rest => if n = 0 then [] else x :: takeBytes (n - x.utf8Size) rest

/-- The part of a text between two byte offsets. -/
structure Span where
  start : Nat
  stop : Nat
deriving DecidableEq, Repr

/-- The tree of a labelled rule. A rule with no labelled rule inside it is a leaf and keeps its
text. -/
inductive ParseTree (ρ : Type) where
  | leaf (rule : ρ) (span : Span) (text : String)
  | branch (rule : ρ) (span : Span) (children : List (ParseTree ρ))

namespace ParseTree

variable {ρ : Type}

/-- The rule at the root. -/
def rule : ParseTree ρ → ρ
  | leaf rule _ _ => rule
  | branch rule _ _ => rule

/-- The part of the text that the tree covers. -/
def span : ParseTree ρ → Span
  | leaf _ span _ => span
  | branch _ span _ => span

/-- The trees below the root. -/
def children : ParseTree ρ → List (ParseTree ρ)
  | leaf _ _ _ => []
  | branch _ _ children => children

/-- The tree of a rule matched from `start` to `stop` around the given trees. -/
def ofMatch (rule : ρ) (start stop : Cursor) : List (ParseTree ρ) → ParseTree ρ
  | [] => leaf rule ⟨start.pos, stop.pos⟩
      (String.ofList (takeBytes (stop.pos - start.pos) start.rest))
  | t :: ts => branch rule ⟨start.pos, stop.pos⟩ (t :: ts)

mutual

/-- The tree in pre-order, each rule with its depth below `depth` and its span. -/
def outline (depth : Nat) : ParseTree ρ → List (Nat × ρ × Span)
  | leaf rule span _ => [(depth, rule, span)]
  | branch rule span children => (depth, rule, span) :: outlines (depth + 1) children

/-- The outlines of several trees, one after the other. -/
def outlines (depth : Nat) : List (ParseTree ρ) → List (Nat × ρ × Span)
  | [] => []
  | t :: ts => t.outline depth ++ outlines depth ts

end

end ParseTree

end ProgramQuery.Grammar
