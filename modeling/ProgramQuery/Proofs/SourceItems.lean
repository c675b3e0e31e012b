import ProgramQuery.Proofs.Listings

/-!
# The items of a source

What may be at fault in a source are its literals, the names that it calls, and its statements, if
they are too many. These are its items. They are listed in source order: a statement comes after the
words in it and before the statements of its bodies (`Block.items`, `itemsOf`). Statements get lines
in this order (`linesOf_itemsOf`).

The words among the items stand in the text in the order of the items, each where its span says
(`Block.carries_items`, `carries_itemsOf`).
-/

set_option autoImplicit false

namespace ProgramQuery

open Grammar Reading

namespace Source

/-- A part of a source that may be at fault. -/
inductive Item where
  /-- The digits of a literal. -/
  | literal (digits : Word)
  /-- The name of the procedure that is called. -/
  | callee (name : Word)
  /-- A statement with the line that it gets. -/
  | stmt (line : Nat)
deriving DecidableEq, Repr

/-- The word that is the item, if it is one. -/
def Item.word? : Item → Option Word
  | literal digits => some digits
  | callee name => some name
  | stmt _ => none

/-- The literals of an expression. -/
def Expr.literals : Expr → List Word
  | .var _ => []
  | .literal digits => [digits]
  | .binary _ lhs rhs => lhs.literals ++ rhs.literals

/-- The items of a statement list whose first statement gets the given line. -/
def Block.items : Nat → Block → List Item
  | _, .done => []
  | line, .assign _ value rest => value.literals.map .literal ++ .stmt line :: rest.items (line + 1)
  | line, .call callee rest => .callee callee :: .stmt line :: rest.items (line + 1)
  | line, .branch _ thenBody elseBody rest =>
    let afterThen := line + 1 + thenBody.listing.size
    let afterElse := afterThen + elseBody.listing.size
    .stmt line :: (thenBody.items (line + 1) ++ (elseBody.items afterThen ++ rest.items afterElse))
  | line, .loop _ body rest =>
    .stmt line :: (body.items (line + 1) ++ rest.items (line + 1 + body.listing.size))

/-- The items of procedures whose first statement gets the given line. -/
def itemsOf : Nat → List Proc → List Item
  | _, [] => []
  | line, proc :: procs => proc.body.items line ++ itemsOf (line + proc.body.listing.size) procs

/-- The words among items. -/
def wordsOf (items : List Item) : List Word := items.filterMap Item.word?

/-- The words of two sequences of items come one after the other. -/
@[simp]
theorem wordsOf_append (items items' : List Item) :
    wordsOf (items ++ items') = wordsOf items ++ wordsOf items' :=
  List.filterMap_append

/-- The callee of a call is a word. -/
@[simp]
theorem wordsOf_callee (name : Word) (items : List Item) :
    wordsOf (.callee name :: items) = name :: wordsOf items := rfl

/-- A statement by itself is no word. -/
@[simp]
theorem wordsOf_stmt (line : Nat) (items : List Item) :
    wordsOf (.stmt line :: items) = wordsOf items := rfl

/-- Literals are words. -/
@[simp]
theorem wordsOf_literals (digits : List Word) : wordsOf (digits.map .literal) = digits := by
  simp [wordsOf, List.filterMap_map, Function.comp_def, Item.word?]

/-- The line of the statement that is the item, if it is one. -/
def Item.line? : Item → Option Nat
  | stmt line => some line
  | _ => none

/-- The lines of the statements among items. -/
def linesOf (items : List Item) : List Nat := items.filterMap Item.line?

/-- The lines of two sequences of items come one after the other. -/
@[simp]
theorem linesOf_append (items items' : List Item) :
    linesOf (items ++ items') = linesOf items ++ linesOf items' :=
  List.filterMap_append

/-- A callee has no line. -/
@[simp]
theorem linesOf_callee (name : Word) (items : List Item) :
    linesOf (.callee name :: items) = linesOf items := rfl

/-- A statement has its line. -/
@[simp]
theorem linesOf_stmt (line : Nat) (items : List Item) :
    linesOf (.stmt line :: items) = line :: linesOf items := rfl

/-- Literals have no lines. -/
@[simp]
theorem linesOf_literals (digits : List Word) : linesOf (digits.map .literal) = [] := by
  simp [linesOf, List.filterMap_map, Function.comp_def, Item.line?]

/-- The statements of a list get lines in the order of the source. -/
theorem Block.linesOf_items (block : Block) (line : Nat) :
    linesOf (block.items line) = List.range' line block.listing.size := by
  induction block generalizing line with
  | done => rfl
  | assign target value rest ih =>
    rw [items, linesOf_append, linesOf_literals, List.nil_append, linesOf_stmt, ih,
      ← List.range'_succ, Nat.add_comm]
    rfl
  | call callee rest ih =>
    rw [items, linesOf_callee, linesOf_stmt, ih, ← List.range'_succ, Nat.add_comm]
    rfl
  | branch cond thenBody elseBody rest ihThen ihElse ih =>
    rw [items, linesOf_stmt, linesOf_append, linesOf_append, ihThen, ihElse, ih,
      Listing.range'_branch]
    rfl
  | loop cond body rest ihBody ih =>
    rw [items, linesOf_stmt, linesOf_append, ihBody, ih, Listing.range'_loop]
    rfl

/-- **The statements of procedures get lines in the order of the source.** -/
theorem linesOf_itemsOf (procs : List Proc) (line : Nat) :
    linesOf (itemsOf line procs) =
      List.range' line (ProcListing.total (procs.map Proc.listing)) := by
  induction procs generalizing line with
  | nil => rfl
  | cons proc procs ih =>
    rw [itemsOf, linesOf_append, proc.body.linesOf_items, ih, List.range'_append_1]
    rfl

end Source

/-! ## Words in a text -/

namespace Reading

open Source (Word)

variable {c c' c'' : Cursor} {r : Reading} {w : Word} {ws ws' : List Word}

/-- Any stretch of text. -/
def stretch : Reading := fun c c' => ∃ text, c.Reads text c'

/-- A word, at its place. -/
def word (w : Word) : Reading := fun c c' => w.span = ⟨c.pos, c'.pos⟩ ∧ token w.text c c'

/-- A stretch of text in which the words stand in this order. -/
def stretchWith : List Word → Reading
  | [] => stretch
  | w :: ws => inTurn [stretch, word w, stretchWith ws]

/-- A stretch of text may be empty. -/
theorem stretch_refl (c : Cursor) : stretch c c := ⟨[], Cursor.Reads.nil_iff.mpr rfl⟩

/-- Two stretches of text in a row are a stretch. -/
theorem stretch_trans (h : stretch c c') (h' : stretch c' c'') : stretch c c'' := by
  obtain ⟨text, hreads⟩ := h
  obtain ⟨text', hreads'⟩ := h'
  exact ⟨text ++ text', hreads.trans hreads'⟩

/-- Reading a stretch leaves no more text than there was. -/
theorem length_le_of_stretch (h : stretch c c') : c'.rest.length ≤ c.rest.length := by
  obtain ⟨text, hreads⟩ := h
  have hlength := hreads.length_eq
  omega

/-- Before a stretch with words, there may be more text. -/
theorem stretchWith_of_stretch (h : stretch c c') (h' : stretchWith ws c' c'') :
    stretchWith ws c c'' := by
  cases ws with
  | nil => exact stretch_trans h h'
  | cons w ws =>
    obtain ⟨c₁, hfirst, hrest⟩ := h'
    exact ⟨c₁, stretch_trans h hfirst, hrest⟩

/-- Stretches with words in a row have the words of both. -/
theorem stretchWith_append (h : stretchWith ws c c') (h' : stretchWith ws' c' c'') :
    stretchWith (ws ++ ws') c c'' := by
  induction ws generalizing c with
  | nil => exact stretchWith_of_stretch h h'
  | cons w ws ih =>
    obtain ⟨c₁, hfirst, c₂, hword, c₃, hrest, rfl⟩ := h
    exact ⟨c₁, hfirst, c₂, hword, c'', ih hrest, rfl⟩

/-- A stretch with words is a stretch. -/
theorem stretch_of_stretchWith (h : stretchWith ws c c') : stretch c c' := by
  induction ws generalizing c with
  | nil => exact h
  | cons w ws ih =>
    obtain ⟨c₁, hfirst, c₂, ⟨-, hword⟩, c₃, hrest, rfl⟩ := h
    exact stretch_trans hfirst (stretch_trans ⟨_, hword⟩ (ih hrest))

/-- In front of each of the words there is a stretch of text. -/
theorem exists_word (h : stretchWith ws c c') (hw : w ∈ ws) :
    ∃ c₁ c₂, stretch c c₁ ∧ word w c₁ c₂ := by
  induction ws generalizing c with
  | nil => cases hw
  | cons w' ws ih =>
    obtain ⟨c₁, hfirst, c₂, hword, c₃, hrest, rfl⟩ := h
    rcases List.mem_cons.mp hw with rfl | hmem
    · exact ⟨c₁, c₂, hfirst, hword⟩
    · obtain ⟨c₄, c₅, hbefore, hword'⟩ := ih hrest hmem
      exact ⟨c₄, c₅, stretch_trans hfirst (stretch_trans ⟨_, hword.2⟩ hbefore), hword'⟩

/-- Wherever the reading is, it is a stretch of text with the words. -/
def Carries (r : Reading) (ws : List Word) : Prop := ∀ c c', r c c' → stretchWith ws c c'

/-- What carries words leaves no more text than there was. -/
theorem Carries.length_le (h : Carries r ws) (hr : r c c') : c'.rest.length ≤ c.rest.length :=
  length_le_of_stretch (stretch_of_stretchWith (h c c' hr))

/-- Readings in turn of which there are none carry no words. -/
theorem carries_nil : Carries (inTurn []) [] := by
  rintro c c' rfl
  exact stretch_refl c

/-- Readings in turn carry the words of the first one and then those of the others. -/
theorem Carries.followed {rs : List Reading} (h : Carries r ws) (hrs : Carries (inTurn rs) ws') :
    Carries (inTurn (r :: rs)) (ws ++ ws') := by
  rintro c c' ⟨c₁, hfirst, hrest⟩
  exact stretchWith_append (h c c₁ hfirst) (hrs c₁ c' hrest)

/-- A reading without words may come before others. -/
theorem Carries.before {rs : List Reading} (h : Carries r []) (hrs : Carries (inTurn rs) ws) :
    Carries (inTurn (r :: rs)) ws := h.followed hrs

/-- Readings without words may come after one. -/
theorem Carries.alone {rs : List Reading} (h : Carries r ws) (hrs : Carries (inTurn rs) []) :
    Carries (inTurn (r :: rs)) ws := by
  have hall := h.followed hrs
  rwa [List.append_nil] at hall

/-- A token carries no words. -/
theorem carries_token (text : String) : Carries (token text) [] := fun _ _ h => ⟨_, h⟩

/-- A name carries no words. -/
theorem carries_name (text : String) : Carries (Reading.name text) [] := fun _ _ h => ⟨_, h.2⟩

/-- A gap carries no words. -/
theorem carries_gap : Carries gap [] := by
  rintro c c' ⟨text, -, hreads⟩
  exact ⟨text, hreads⟩

/-- What keeps words apart carries no words. -/
theorem carries_apart : Carries apart [] := fun c c' h => carries_gap c c' (gap_of_apart h)

end Reading

namespace Source

/-- A written expression carries its literals. -/
theorem Expr.carries_literals (e : Expr) (rank : Rank) : Carries (e.Written rank) e.literals := by
  intro c c' h
  induction h with
  | var hname => exact carries_name _ _ _ hname
  | literal _ _ htoken => exact ⟨_, stretch_refl _, _, ⟨rfl, htoken⟩, _, stretch_refl _, rfl⟩
  | paren hopen hgap _ hgap' hclose ih =>
    have hbefore := stretch_trans (carries_token _ _ _ hopen) (carries_gap _ _ hgap)
    have hafter : stretchWith [] _ _ :=
      stretch_trans (carries_gap _ _ hgap') (carries_token _ _ _ hclose)
    have hall := stretchWith_append (stretchWith_of_stretch hbefore ih) hafter
    rwa [List.append_nil] at hall
  | operand _ _ ih => exact ih
  | binary _ hgap hsign hgap' _ ihl ihr =>
    have hbetween := stretch_trans (carries_gap _ _ hgap)
      (stretch_trans (carries_token _ _ _ hsign) (carries_gap _ _ hgap'))
    exact stretchWith_append ihl (stretchWith_of_stretch hbetween ihr)

/-- A list in braces carries the words of the list. -/
theorem carries_braces {block : Block} {written : Reading} {ws : List Word}
    (h : Carries written ws) :
    Carries (braces block written) ws := by
  have hlist : Carries (fun c c' => block ≠ .done ∧ written c c') ws :=
    fun c c' hwritten => h c c' hwritten.2
  apply (carries_token "\x7b").before
  apply carries_gap.before
  apply hlist.alone
  exact (carries_token "\x7d").before carries_nil

/-- The gap before a branch carries no words. -/
theorem carries_beforeBranch : Carries beforeBranch [] := by
  intro c c' h
  rcases h with hgap | hthen
  · exact carries_gap c c' hgap
  · have hcarries : Carries (inTurn [apart, token "then", gap]) [] :=
      carries_apart.before ((carries_token "then").before (carries_gap.before carries_nil))
    exact hcarries c c' hthen

/-- **The words of a statement list** stand where it is written. -/
theorem Block.carries_items (block : Block) (line : Nat) :
    Carries block.Written (wordsOf (block.items line)) := by
  -- in each case the parts of the statement are gone through in the order in which they are written
  induction block generalizing line with
  | done => exact carries_nil
  | assign target value rest ih =>
    have hstmt : Carries (assignment target value) value.literals := by
      apply (carries_name target).before
      apply carries_gap.before
      apply (carries_token "=").before
      apply carries_gap.before
      apply (value.carries_literals .sum).alone
      apply carries_gap.before
      exact (carries_token ";").before carries_nil
    rw [items, wordsOf_append, wordsOf_literals, wordsOf_stmt]
    apply hstmt.followed
    exact carries_gap.before ((ih (line + 1)).alone carries_nil)
  | call callee rest ih =>
    have hcallee :
        Carries (fun c c' => callee.span = ⟨c.pos, c'.pos⟩ ∧ name callee.text c c') [callee] :=
      fun c c' h => ⟨c, stretch_refl c, c', ⟨h.1, h.2.2⟩, c', stretch_refl c', rfl⟩
    have hstmt : Carries (callOf callee) [callee] := by
      apply (carries_token "call").before
      apply carries_apart.before
      apply hcallee.alone
      apply carries_gap.before
      exact (carries_token ";").before carries_nil
    rw [items, wordsOf_callee, wordsOf_stmt]
    apply hstmt.followed
    exact carries_gap.before ((ih (line + 1)).alone carries_nil)
  | branch cond thenBody elseBody rest ihThen ihElse ih =>
    rw [items, wordsOf_stmt, wordsOf_append, wordsOf_append, ← List.append_assoc]
    refine Carries.followed ?_ (carries_gap.before ((ih _).alone carries_nil))
    apply (carries_token "if").before
    apply carries_apart.before
    apply (carries_name cond).before
    apply carries_beforeBranch.before
    apply (carries_braces (ihThen _)).followed
    apply carries_gap.before
    apply (carries_token "else").before
    apply carries_gap.before
    exact (carries_braces (ihElse _)).alone carries_nil
  | loop cond body rest ihBody ih =>
    rw [items, wordsOf_stmt, wordsOf_append]
    refine Carries.followed ?_ (carries_gap.before ((ih _).alone carries_nil))
    apply (carries_token "while").before
    apply carries_apart.before
    apply (carries_name cond).before
    apply carries_gap.before
    exact (carries_braces (ihBody _)).alone carries_nil

/-- A written procedure carries the words of its body. -/
theorem Proc.carries_items (proc : Proc) (line : Nat) :
    Carries proc.Written (wordsOf (proc.body.items line)) := by
  have hkeyword : Carries (fun c c' => token "proc" c c' ∨ token "procedure" c c') [] := by
    rintro c c' (hshort | hlong)
    · exact carries_token _ c c' hshort
    · exact carries_token _ c c' hlong
  rintro c c' ⟨-, hwritten⟩
  revert hwritten c c'
  apply hkeyword.before
  apply carries_apart.before
  apply (carries_name proc.name).before
  apply carries_gap.before
  exact (carries_braces (proc.body.carries_items line)).alone carries_nil

/-- **The words of procedures** stand where these are written. -/
theorem carries_itemsOf (procs : List Proc) (line : Nat) :
    Carries (procsWritten procs) (wordsOf (itemsOf line procs)) := by
  induction procs generalizing line with
  | nil =>
    rintro c c' (rfl | ⟨rest, -, hreads⟩)
    · exact stretch_refl c
    · exact ⟨_, hreads⟩
  | cons proc procs ih =>
    rw [itemsOf, wordsOf_append]
    apply (proc.carries_items line).followed
    exact carries_gap.before ((ih _).alone carries_nil)

end Source

end ProgramQuery
