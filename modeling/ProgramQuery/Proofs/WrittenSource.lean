import Mathlib.Logic.Relation
import ProgramQuery.Source.Basic

/-!
# How sources are written

A text writes a source if its tokens are those of the source, in order, with gaps between them. What
is written between two places of a text is a relation between the places (`Reading`), and a sequence
of tokens and gaps is a composition of such relations (`inTurn`), so the spans that a source keeps
are those of the places that were gone through.

Nothing is said here about how texts are matched. Gaps and words are given by what they consist of,
lists are nested as in the source, and the operands of an operator are told apart by their rank:
what is applied to an operand binds tighter than the operator, unless there are parentheses
(`Expr.Written`).
-/

set_option autoImplicit false

namespace ProgramQuery

namespace Grammar

/-- How many bytes a text takes up. -/
def byteLength : List Char → Nat
  | [] => 0
  | x :: text => x.utf8Size + byteLength text

/-- A text stands between two places. -/
structure Cursor.Reads (c : Cursor) (text : List Char) (c' : Cursor) : Prop where
  rest_eq : c.rest = text ++ c'.rest
  pos_eq : c'.pos = c.pos + byteLength text

/-- A text of blanks and of comments, each of them ended by the end of its line. -/
inductive IsGap : List Char → Prop
  | nil : IsGap []
  | blank {x : Char} {text : List Char} : isBlank x = true → IsGap text → IsGap (x :: text)
  | comment {line text : List Char} : '\n' ∉ line → IsGap text →
      IsGap ('/' :: '/' :: (line ++ '\n' :: text))

/-- The words that are not names. -/
def keywords : List String := ["procedure", "proc", "call", "while", "if", "then", "else"]

/-- A letter with letters, digits and underscores after it, and not a keyword. -/
structure IsName (name : String) : Prop where
  letters : ∃ first more, name.toList = first :: more ∧ isLetter first = true ∧
    ∀ x ∈ more, isNameChar x = true
  not_keyword : name ∉ keywords

end Grammar

open Grammar (Cursor IsGap IsName isDigit)

/-- What is written between two places of a text. -/
abbrev Reading := Cursor → Cursor → Prop

namespace Reading

/-- These characters. -/
def token (text : String) : Reading := fun c c' => c.Reads text.toList c'

/-- A name. -/
def name (text : String) : Reading := fun c c' => IsName text ∧ token text c c'

/-- A gap, which may be empty. -/
def gap : Reading := fun c c' => ∃ text, IsGap text ∧ c.Reads text c'

/-- A gap that is not empty. -/
def apart : Reading := fun c c' => ∃ text, text ≠ [] ∧ IsGap text ∧ c.Reads text c'

/-- The end of a text, which may be a comment. -/
def ending : Reading := fun c c' =>
  c = c' ∨ ∃ line, '\n' ∉ line ∧ c.Reads ('/' :: '/' :: line) c'

/-- Readings one after the other. -/
def inTurn : List Reading → Reading
  | [] => Eq
  | r :: rs => Relation.Comp r (inTurn rs)

end Reading

open Reading

/-- How tightly an expression binds: sums loosest, then products, then factors. -/
inductive Rank where
  | sum
  | product
  | factor
deriving DecidableEq, Repr

/-- The rank of the operands of a rank. -/
def Rank.operand : Rank → Rank
  | sum => product
  | product => factor
  | factor => factor

/-- The rank of what an operator makes. -/
def Operator.rank : Operator → Rank
  | plus => .sum
  | minus => .sum
  | times => .product

namespace Source

/-- An expression is written with a rank. Its left operand has the rank of the operator, so
operators of one rank are applied from left to right. -/
inductive Expr.Written : Expr → Rank → Cursor → Cursor → Prop
  | var {x : String} {c c' : Cursor} : name x c c' → Written (.var x) .factor c c'
  | literal {digits : String} {c c' : Cursor} :
      digits.toList ≠ [] → (∀ x ∈ digits.toList, isDigit x = true) →
      token digits c c' → Written (.literal ⟨digits, ⟨c.pos, c'.pos⟩⟩) .factor c c'
  | paren {e : Expr} {c c₁ c₂ c₃ c₄ c' : Cursor} : token "(" c c₁ → gap c₁ c₂ →
      Written e .sum c₂ c₃ →
      gap c₃ c₄ → token ")" c₄ c' → Written e .factor c c'
  | operand {e : Expr} {rank : Rank} {c c' : Cursor} :
      rank ≠ .factor → Written e rank.operand c c' →
      Written e rank c c'
  | binary {op : Operator} {lhs rhs : Expr} {c c₁ c₂ c₃ c₄ c' : Cursor} : Written lhs op.rank c c₁ →
      gap c₁ c₂ → token op.symbol c₂ c₃ → gap c₃ c₄ → Written rhs op.rank.operand c₄ c' →
      Written (.binary op lhs rhs) op.rank c c'

/-- A statement list in braces, given how the list is written. -/
def braces (block : Block) (written : Reading) : Reading :=
  inTurn [token "\x7b", gap, fun c c' => block ≠ .done ∧ written c c', token "\x7d"]

/-- The gap before a branch, with or without `then`. -/
def beforeBranch : Reading := fun c c' => gap c c' ∨ inTurn [apart, token "then", gap] c c'

/-- An assignment. -/
def assignment (target : String) (value : Expr) : Reading :=
  inTurn [name target, gap, token "=", gap, value.Written .sum, gap, token ";"]

/-- A call, whose callee keeps its place. -/
def callOf (callee : Word) : Reading :=
  inTurn
    [token "call", apart, fun c c' => callee.span = ⟨c.pos, c'.pos⟩ ∧ name callee.text c c', gap,
    token ";"]

/-- An `if`, given how its branches are written. -/
def branching (cond : String) (thenBody elseBody : Reading) : Reading :=
  inTurn [token "if", apart, name cond, beforeBranch, thenBody, gap, token "else", gap, elseBody]

/-- A `while`, given how its body is written. -/
def looping (cond : String) (body : Reading) : Reading :=
  inTurn [token "while", apart, name cond, gap, body]

/-- A statement list is written, each statement with the gap after it. -/
def Block.Written : Block → Reading
  | .done => Eq
  | .assign target value rest => inTurn [assignment target value, gap, rest.Written]
  | .call callee rest => inTurn [callOf callee, gap, rest.Written]
  | .branch cond thenBody elseBody rest =>
    inTurn
      [branching cond (braces thenBody thenBody.Written) (braces elseBody elseBody.Written), gap,
      rest.Written]
  | .loop cond body rest => inTurn [looping cond (braces body body.Written), gap, rest.Written]

/-- A procedure is written. -/
def Proc.Written (proc : Proc) : Reading := fun c c' =>
  proc.span = ⟨c.pos, c'.pos⟩ ∧
    inTurn
      [fun c c' => token "proc" c c' ∨ token "procedure" c c', apart, Reading.name proc.name, gap,
      braces proc.body proc.body.Written] c c'

/-- Procedures are written, each with the gap after it, up to the end of the text. -/
def procsWritten : List Proc → Reading
  | [] => ending
  | proc :: procs => inTurn [proc.Written, gap, procsWritten procs]

/-- The text writes the procedures. -/
def Writes (text : String) (procs : List Proc) : Prop :=
  procs ≠ [] ∧ ∃ stop, inTurn [gap, procsWritten procs] ⟨0, text.toList⟩ ⟨stop, []⟩

end Source

/-! ## Places -/

namespace Grammar

variable {c c' c'' : Cursor} {text text' : List Char} {x : Char}

/-- Two texts in a row have the bytes of both. -/
theorem byteLength_append (text text' : List Char) :
    byteLength (text ++ text') = byteLength text + byteLength text' := by
  induction text with
  | nil => simp [byteLength]
  | cons x text ih => simp only [List.cons_append, byteLength, ih, Nat.add_assoc]

/-- Taking as many bytes as a text has takes the text. -/
theorem takeBytes_append (text rest : List Char) :
    takeBytes (byteLength text) (text ++ rest) = text := by
  induction text with
  | nil => cases rest <;> simp [byteLength, takeBytes]
  | cons x text ih =>
    have hx := x.utf8Size_pos
    have hne : x.utf8Size + byteLength text ≠ 0 := by omega
    rw [byteLength, List.cons_append, takeBytes, if_neg hne, Nat.add_sub_cancel_left, ih]

namespace Cursor.Reads

/-- Reading nothing stays at the place. -/
theorem nil_iff : c.Reads [] c' ↔ c = c' := by
  constructor
  · rintro ⟨hrest, hpos⟩
    cases c
    cases c'
    simp_all [byteLength]
  · rintro rfl
    exact ⟨rfl, rfl⟩

/-- Two texts that are read in a row are read as one. -/
theorem trans (h : c.Reads text c') (h' : c'.Reads text' c'') : c.Reads (text ++ text') c'' := by
  refine ⟨?_, ?_⟩
  · rw [h.rest_eq, h'.rest_eq, List.append_assoc]
  · rw [h'.pos_eq, h.pos_eq, byteLength_append, Nat.add_assoc]

/-- Reading a text reads its first character and then the rest. -/
theorem cons_iff : c.Reads (x :: text) c'' ↔
    c.rest = x :: (text ++ c''.rest) ∧ (c.advance x (text ++ c''.rest)).Reads text c'' := by
  constructor
  · rintro ⟨hrest, hpos⟩
    exact ⟨hrest, rfl, by rw [hpos, byteLength, ← Nat.add_assoc]; rfl⟩
  · rintro ⟨hrest, -, hpos⟩
    exact ⟨hrest, by rw [hpos, byteLength, ← Nat.add_assoc]; rfl⟩

/-- What a tree keeps as its text is what stands between its places. -/
theorem takeBytes_eq (h : c.Reads text c') : takeBytes (c'.pos - c.pos) c.rest = text := by
  rw [h.rest_eq, h.pos_eq, Nat.add_sub_cancel_left, takeBytes_append]

/-- Reading a text leaves as many characters less as it has. -/
theorem length_eq (h : c.Reads text c') : c.rest.length = text.length + c'.rest.length := by
  rw [h.rest_eq, List.length_append]

/-- Where a text is read, its first character comes next. -/
theorem head?_eq (h : c.Reads (x :: text) c') : c.rest.head? = some x := by
  rw [h.rest_eq]
  rfl

end Cursor.Reads

/-- Reading a gap leaves no more text than there was. -/
theorem length_le_of_gap (h : Reading.gap c c') : c'.rest.length ≤ c.rest.length := by
  obtain ⟨text, -, hreads⟩ := h
  have hlength := hreads.length_eq
  omega

end Grammar

namespace Reading

variable {c c' c'' : Cursor}

/-- A gap that is not empty is a gap. -/
theorem gap_of_apart (h : apart c c') : gap c c' := by
  obtain ⟨text, -, htext, hreads⟩ := h
  exact ⟨text, htext, hreads⟩

/-- A gap may be empty. -/
theorem gap_refl (c : Cursor) : gap c c := ⟨[], .nil, rfl, rfl⟩

/-- Readings one after the other begin with the first of them. -/
theorem inTurn_cons {r : Reading} {rs : List Reading} (h : r c c') (hs : inTurn rs c' c'') :
    inTurn (r :: rs) c c'' :=
  ⟨c', h, hs⟩

end Reading

end ProgramQuery
