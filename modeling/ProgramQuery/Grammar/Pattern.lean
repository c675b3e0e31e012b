import ProgramQuery.Grammar.ParseTree

/-!
# Grammars and their matches

A grammar names rules and gives each a pattern. Patterns are matched greedily and in order: an
alternative is tried only if those before it fail, a repetition takes as much as it can, and neither
is reconsidered later. A match yields the place where it ends and the trees of the labelled rules it
went through.

Between the parts of a sequence, and between the elements of a repetition, a gap may be skipped,
unless the match is inside an atomic rule. A gap in front of an element that does not come is given
back, with one exception that follows from the two rules: in `a b*` the gap after `a` belongs to the
sequence, so it stays part of the match even if no `b` comes.
-/

set_option autoImplicit false

namespace ProgramQuery.Grammar

/-- What a match yields. -/
structure Match (ρ : Type) where
  /-- The place where the match ends. -/
  stop : Cursor
  /-- The trees of the labelled rules inside. -/
  trees : List (ParseTree ρ)

/-- What a rule may look like. -/
inductive Pattern (ρ : Type) where
  /-- Exactly these characters. -/
  | chars (text : List Char)
  /-- One character of a class. -/
  | char (accept : Char → Bool)
  /-- What another rule matches. -/
  | rule (r : ρ)
  /-- One pattern, then another. -/
  | seq (a b : Pattern ρ)
  /-- The first pattern, or else the second. -/
  | alt (a b : Pattern ρ)
  /-- Any number of times. -/
  | star (a : Pattern ρ)
  /-- Once or not at all. -/
  | opt (a : Pattern ρ)
  /-- Nothing, where the pattern does not match. -/
  | unless (a : Pattern ρ)
  /-- Nothing, at the start of the text. -/
  | atStart
  /-- Nothing, at the end of the text. -/
  | atEnd

/-- Elements of a repetition after the first, as many as come; `bound` limits their number. -/
def repeatMatch {ρ : Type} (element : Cursor → Option (Match ρ)) : Nat → Cursor → Match ρ
  | 0, c => ⟨c, []⟩
  | bound + 1, c =>
    match element c with
    | none => ⟨c, []⟩
    | some first =>
      let more := repeatMatch element bound first.stop
      ⟨more.stop, first.trees ++ more.trees⟩

/-- Matches a pattern at a place. `call` matches rules, and `skip` passes over a gap where one may
be. An element of a repetition takes at least one character, so there are no more elements than
characters. -/
def Pattern.run {ρ : Type} (skip : Cursor → Cursor) (call : ρ → Cursor → Option (Match ρ)) :
    Pattern ρ → Cursor → Option (Match ρ)
  | .chars text, c => (c.chars? text).map (⟨·, []⟩)
  | .char accept, c => (c.char? accept).map (⟨·, []⟩)
  | .rule r, c => call r c
  | .seq a b, c =>
    (a.run skip call c).bind fun first =>
      (b.run skip call (skip first.stop)).map fun second =>
        ⟨second.stop, first.trees ++ second.trees⟩
  | .alt a b, c => (a.run skip call c).or (b.run skip call c)
  | .star a, c =>
    match a.run skip call c with
    | none => some ⟨c, []⟩
    | some first =>
      let more := repeatMatch (fun c => a.run skip call (skip c)) first.stop.rest.length first.stop
      some ⟨more.stop, first.trees ++ more.trees⟩
  | .opt a, c => (a.run skip call c).or (some ⟨c, []⟩)
  | .unless a, c =>
    match a.run skip call c with
    | none => some ⟨c, []⟩
    | some _ => none
  | .atStart, c => if c.pos = 0 then some ⟨c, []⟩ else none
  | .atEnd, c => if c.rest.isEmpty then some ⟨c, []⟩ else none

end Grammar

/-- A grammar over the rule names `ρ`. -/
structure Grammar (ρ : Type) where
  /-- Whether a rule shows as a tree. -/
  labelled : ρ → Bool
  /-- Whether a rule is matched character by character, without gaps and without inner trees. -/
  atomic : ρ → Bool
  /-- The pattern of a rule. -/
  body : ρ → Grammar.Pattern ρ
  /-- The place after the longest gap. -/
  skip : Grammar.Cursor → Grammar.Cursor

namespace Grammar

variable {ρ : Type}

/-- Matches a rule at a place, `inside` telling whether an atomic rule is being matched. The depth
limits how many rules may be entered inside one another. -/
def matchRule (g : Grammar ρ) : Nat → Bool → ρ → Cursor → Option (Match ρ)
  | 0, _, _, _ => none
  | depth + 1, inside, r, c =>
    let within := inside || g.atomic r
    ((g.body r).run (if within then id else g.skip) (g.matchRule depth within) c).map fun m =>
      if inside then ⟨m.stop, []⟩
      else if g.labelled r then ⟨m.stop, [ParseTree.ofMatch r c m.stop m.trees]⟩
      else m

/-- How deep rules can be nested on a text: a chain of rules that takes no character is shorter than
sixteen, and after each character at most four more rules are entered. -/
def depthFor (text : List Char) : Nat := 4 * text.length + 16

/-- The trees of a rule matched at the start of a text. The match need not reach the end. -/
def trees? (g : Grammar ρ) (r : ρ) (text : List Char) : Option (List (ParseTree ρ)) :=
  (g.matchRule (depthFor text) false r ⟨0, text⟩).map (·.trees)

end Grammar

end ProgramQuery
