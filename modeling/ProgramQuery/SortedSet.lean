/-!
# Sorted sets

A finite set kept as the list of its members in strictly increasing order. The order of the list is
the order in which answers are listed, and because the list is determined by the members, two sets
are equal exactly when they have the same members (`ext_mem`).

Every operation is described by what it does to membership: `mem_insert`, `mem_erase`, `mem_filter`,
`mem_union`, `mem_inter`, `mem_ofList`.
-/

set_option autoImplicit false

namespace ProgramQuery

/-- A finite set, stored as the strictly increasing list of its members. -/
structure SortedSet (α : Type) [Ord α] where
  /-- The members in increasing order. -/
  toList : List α
  /-- Each member comes strictly before all later ones. -/
  increasing : toList.Pairwise fun a b => compare a b = .lt

namespace SortedSet

variable {α : Type} [Ord α]

instance [DecidableEq α] : DecidableEq (SortedSet α) := fun s t =>
  decidable_of_iff (s.toList = t.toList) <| by
    cases s; cases t; simp

instance : Membership α (SortedSet α) where
  mem s a := a ∈ s.toList

/-- The list of a set has the elements of the set. -/
@[simp] theorem mem_toList {s : SortedSet α} {a : α} : a ∈ s.toList ↔ a ∈ s := Iff.rfl

/-- The set without members. -/
def empty : SortedSet α := ⟨[], .nil⟩

instance : EmptyCollection (SortedSet α) := ⟨empty⟩

instance : Inhabited (SortedSet α) := ⟨∅⟩

/-- The list of the empty set is empty. -/
@[simp] theorem toList_empty : (∅ : SortedSet α).toList = [] := rfl

/-- The empty set has no element. -/
@[simp] theorem not_mem_empty {a : α} : ¬ a ∈ (∅ : SortedSet α) := List.not_mem_nil

/-- The number of members. -/
def size (s : SortedSet α) : Nat := s.toList.length

/-- Whether there are no members. -/
def isEmpty (s : SortedSet α) : Bool := s.toList.isEmpty

/-- The check for emptiness answers yes exactly if there is no element. -/
theorem isEmpty_iff {s : SortedSet α} : s.isEmpty = true ↔ ∀ a, ¬ a ∈ s := by
  rw [isEmpty, List.isEmpty_iff, List.eq_nil_iff_forall_not_mem]
  rfl

/-- Whether `a` is a member. -/
def contains [DecidableEq α] (s : SortedSet α) (a : α) : Bool := decide (a ∈ s.toList)

/-- The check for an element answers yes exactly if the set has it. -/
@[simp] theorem contains_iff [DecidableEq α] {s : SortedSet α} {a : α} :
    s.contains a = true ↔ a ∈ s := by
  simp [contains]

instance [DecidableEq α] (s : SortedSet α) (a : α) : Decidable (a ∈ s) :=
  inferInstanceAs (Decidable (a ∈ s.toList))

/-- Keeps the members that pass the test. -/
def filter (keep : α → Bool) (s : SortedSet α) : SortedSet α :=
  ⟨s.toList.filter keep, s.increasing.filter keep⟩

/-- A filtered set has the elements that pass the test. -/
@[simp] theorem mem_filter {keep : α → Bool} {s : SortedSet α} {a : α} :
    a ∈ s.filter keep ↔ a ∈ s ∧ keep a = true :=
  List.mem_filter

/-- Removes `a`; nothing changes if it is no member. -/
def erase [DecidableEq α] (s : SortedSet α) (a : α) : SortedSet α :=
  s.filter fun b => decide (b ≠ a)

/-- A set from which an element was erased has all other elements. -/
@[simp] theorem mem_erase [DecidableEq α] {s : SortedSet α} {a b : α} :
    b ∈ s.erase a ↔ b ∈ s ∧ b ≠ a := by
  simp [erase]

/-- The members common to both sets. -/
def inter [DecidableEq α] (s t : SortedSet α) : SortedSet α := s.filter t.contains

/-- An intersection has the elements that both sets have. -/
@[simp] theorem mem_inter [DecidableEq α] {s t : SortedSet α} {a : α} :
    a ∈ s.inter t ↔ a ∈ s ∧ a ∈ t := by
  simp [inter]

/-- Puts `a` at its place in an increasing list, unless it is there already. -/
def insertInto (a : α) : List α → List α
  | [] => [a]
  | b :: l =>
    match compare a b with
    | .lt => a :: b :: l
    | .eq => b :: l
    | .gt => b :: insertInto a l

section Lawful

variable [Std.TransOrd α] [Std.LawfulEqOrd α]

omit [Std.TransOrd α] in
/-- A list into which an element was inserted has that element and the old ones. -/
theorem mem_insertInto {a b : α} {l : List α} : b ∈ insertInto a l ↔ b = a ∨ b ∈ l := by
  induction l with
  | nil => simp [insertInto]
  | cons c l ih =>
    cases h : compare a c with
    | lt => simp [insertInto, h]
    | eq =>
      have hac : a = c := Std.LawfulEqOrd.eq_of_compare h
      simp [insertInto, hac]
    | gt =>
      simp only [insertInto, h, List.mem_cons, ih]
      constructor
      · rintro (hb | hb | hb) <;> simp [hb]
      · rintro (hb | hb | hb) <;> simp [hb]

/-- Insertion keeps a list strictly increasing. -/
theorem increasing_insertInto {a : α} {l : List α}
    (hl : l.Pairwise fun a b => compare a b = .lt) :
    (insertInto a l).Pairwise fun a b => compare a b = .lt := by
  induction l with
  | nil => simp [insertInto]
  | cons c l ih =>
    obtain ⟨hc, htail⟩ := List.pairwise_cons.1 hl
    cases h : compare a c with
    | lt =>
      simp only [insertInto, h]
      refine List.pairwise_cons.2 ⟨fun b hb => ?_, hl⟩
      rcases List.mem_cons.1 hb with rfl | hb
      · exact h
      · exact Std.TransCmp.lt_trans h (hc b hb)
    | eq => simpa only [insertInto, h] using hl
    | gt =>
      simp only [insertInto, h]
      refine List.pairwise_cons.2 ⟨fun b hb => ?_, ih htail⟩
      rcases mem_insertInto.1 hb with rfl | hb
      · exact Std.OrientedCmp.lt_of_gt h
      · exact hc b hb

/-- Adds `a`; nothing changes if it is a member already. -/
def insert (s : SortedSet α) (a : α) : SortedSet α :=
  ⟨insertInto a s.toList, increasing_insertInto s.increasing⟩

/-- A set into which an element was inserted has that element and the old ones. -/
@[simp] theorem mem_insert {s : SortedSet α} {a b : α} : b ∈ s.insert a ↔ b = a ∨ b ∈ s :=
  mem_insertInto

/-- Adds the members of a list, in its order. -/
def insertAll (s : SortedSet α) (l : List α) : SortedSet α := l.foldl insert s

/-- A set into which a list was inserted has the old elements and those of the list. -/
@[simp] theorem mem_insertAll {s : SortedSet α} {l : List α} {b : α} :
    b ∈ s.insertAll l ↔ b ∈ s ∨ b ∈ l := by
  induction l generalizing s with
  | nil => simp [insertAll]
  | cons a l ih =>
    have step : s.insertAll (a :: l) = (s.insert a).insertAll l := rfl
    rw [step, ih, mem_insert, List.mem_cons]
    constructor
    · rintro ((hb | hb) | hb) <;> simp [hb]
    · rintro (hb | hb | hb) <;> simp [hb]

/-- The set of the members of a list. -/
def ofList (l : List α) : SortedSet α := insertAll ∅ l

/-- The set of a list has the elements of the list. -/
@[simp] theorem mem_ofList {l : List α} {b : α} : b ∈ ofList l ↔ b ∈ l := by
  simp [ofList]

/-- The set with one member. -/
def singleton (a : α) : SortedSet α := ofList [a]

/-- A singleton has one element. -/
@[simp] theorem mem_singleton {a b : α} : b ∈ singleton a ↔ b = a := by
  simp [singleton]

/-- The members of either set. -/
def union (s t : SortedSet α) : SortedSet α := s.insertAll t.toList

/-- A union has the elements of either set. -/
@[simp] theorem mem_union {s t : SortedSet α} {a : α} : a ∈ s.union t ↔ a ∈ s ∨ a ∈ t := by
  simp [union]

/-- Two increasing lists with the same members are the same list. -/
theorem eq_of_increasing {l m : List α}
    (hl : l.Pairwise fun a b => compare a b = .lt) (hm : m.Pairwise fun a b => compare a b = .lt)
    (h : ∀ a, a ∈ l ↔ a ∈ m) : l = m := by
  induction l generalizing m with
  | nil =>
    cases m with
    | nil => rfl
    | cons b m => exact absurd ((h b).2 List.mem_cons_self) List.not_mem_nil
  | cons a l ih =>
    cases m with
    | nil => exact absurd ((h a).1 List.mem_cons_self) List.not_mem_nil
    | cons b m =>
      obtain ⟨ha, hltail⟩ := List.pairwise_cons.1 hl
      obtain ⟨hb, hmtail⟩ := List.pairwise_cons.1 hm
      have irrefl : ∀ c : α, compare c c ≠ .lt := fun c hc => by
        rw [(Std.ReflCmp.compare_self : compare c c = .eq)] at hc
        cases hc
      have asymm : ∀ c d : α, compare c d = .lt → compare d c ≠ .lt := fun c d hcd hdc =>
        irrefl c (Std.TransCmp.lt_trans hcd hdc)
      -- each head is in the other list, and there it cannot come after a smaller one
      have hab : a = b := by
        rcases List.mem_cons.1 ((h a).1 List.mem_cons_self) with hab | ham
        · exact hab
        · rcases List.mem_cons.1 ((h b).2 List.mem_cons_self) with hba | hbl
          · exact hba.symm
          · exact absurd (hb a ham) (asymm a b (ha b hbl))
      subst hab
      congr 1
      refine ih hltail hmtail fun c => ?_
      have hc := h c
      simp only [List.mem_cons] at hc
      constructor
      · intro hcl
        rcases hc.1 (.inr hcl) with rfl | hcm
        · exact absurd (ha c hcl) (irrefl c)
        · exact hcm
      · intro hcm
        rcases hc.2 (.inr hcm) with rfl | hcl
        · exact absurd (hb c hcm) (irrefl c)
        · exact hcl

/-- Sets with the same members are equal. -/
theorem ext_mem {s t : SortedSet α} (h : ∀ a, a ∈ s ↔ a ∈ t) : s = t := by
  cases s with
  | mk l hl =>
    cases t with
    | mk m hm =>
      congr 1
      exact eq_of_increasing hl hm h

end Lawful

/-- The members written between braces, separated by commas. -/
def text (memberText : α → String) (s : SortedSet α) : String :=
  "\x7b" ++ ", ".intercalate (s.toList.map memberText) ++ "\x7d"

end SortedSet

end ProgramQuery
