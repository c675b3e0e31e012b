import Mathlib.Data.Finset.Card
import Mathlib.Data.List.Induction
import ProgramQuery.Proofs.ConditionOrder
import ProgramQuery.Proofs.SortedSetLaws

/-!
# Histories of condition sets

Sets of conditions are made from lists, copied, combined with each other and with themselves, and
changed one member at a time. Whatever the history, each of them is a finite set in the sense of
mathematics. What an operation means is said with `Finset` (`Step.meaning`), and a set that has the
members of a finite set shows them in every way in which it can be looked at (`Represents`):
membership, number, emptiness and the increasing list.

Each operation keeps up with its meaning (`mem_apply`), hence so does a whole history (`mem_after`).
-/

set_option autoImplicit false

namespace ProgramQuery.ConditionSet

/-! ## What operations mean -/

/-- What an operation on the set of number `i` means. -/
def Step.meaning (sets : Nat → Finset Condition) (i : Nat) : Step → Finset Condition
  | .ofList conds => conds.toFinset
  | .copy other => sets other
  | .insert c => Insert.insert c (sets i)
  | .erase c => (sets i).erase c
  | .extend conds => sets i ∪ conds.toFinset
  | .union other => sets i ∪ sets other
  | .inter other => sets i ∩ sets other
  | .filter keep => (sets i).filter (keep · = true)

/-- Whether the operation reports a change. -/
def Step.reports : Step → Bool
  | .insert _ => true
  | .erase _ => true
  | _ => false

/-- The finite sets after operations, where all are empty to begin with. -/
def meaningAfter (steps : List (Nat × Step)) : Nat → Finset Condition :=
  steps.foldl (fun sets step => Function.update sets step.1 (step.2.meaning sets step.1)) fun _ => ∅

/-- The set shows the members of a finite set. -/
structure Represents (set : ConditionSet) (members : Finset Condition) : Prop where
  contains_iff : ∀ c, set.contains c = true ↔ c ∈ members
  size_eq : set.size = members.card
  isEmpty_iff : set.isEmpty = true ↔ members = ∅
  /-- The list has every member, and nothing else. -/
  mem_toList_iff : ∀ c, c ∈ set.toList ↔ c ∈ members
  /-- The list has no member twice. -/
  nodup : set.toList.Nodup
  /-- The list is in strictly increasing order. -/
  increasing : set.toList.Pairwise Condition.Before

variable {sets : Nat → ConditionSet} {finsets : Nat → Finset Condition} {set other : ConditionSet}
  {members more : Finset Condition} {i : Nat} {step : Step} {c : Condition}

/-! ## Sets with the members of a finite set -/

/-- A set with the members of a finite set shows them. -/
theorem represents_of_mem_iff (h : ∀ c, c ∈ set ↔ c ∈ members) : set.Represents members := by
  have hmembers : members = set.toList.toFinset := by
    ext c
    rw [List.mem_toFinset, SortedSet.mem_toList, h]
  refine ⟨fun c => ?_, ?_, ?_, h, set.nodup_toList, ?_⟩
  · rw [SortedSet.contains_iff, h]
  · rw [hmembers, List.toFinset_card_of_nodup set.nodup_toList]
    rfl
  · rw [SortedSet.isEmpty_iff, Finset.eq_empty_iff_forall_notMem]
    simp only [h]
  · exact set.increasing.imp Condition.compare_eq_lt_iff.mp

/-- Sets are equal if the finite sets are whose members they have. -/
theorem eq_iff_of_mem_iff (hset : ∀ c, c ∈ set ↔ c ∈ members) (hother : ∀ c, c ∈ other ↔ c ∈ more) :
    set = other ↔ members = more := by
  constructor
  · rintro rfl
    ext c
    rw [← hset, hother]
  · rintro rfl
    exact SortedSet.ext_mem fun c => by rw [hset, hother]

/-! ## One operation and a history -/

/-- **One operation** makes of a set what it means. -/
theorem mem_apply (h : ∀ k c, c ∈ sets k ↔ c ∈ finsets k) :
    c ∈ (apply sets i step).1 ↔ c ∈ step.meaning finsets i := by
  cases step with
  | ofList conds => simp [apply, Step.meaning]
  | copy other => exact h other c
  | insert d => simp [apply, Step.meaning, h]
  | erase d => simp [apply, Step.meaning, h, and_comm]
  | extend conds => simp [apply, Step.meaning, h]
  | union other => simp [apply, Step.meaning, h]
  | inter other => simp [apply, Step.meaning, h]
  | filter keep => simp [apply, Step.meaning, h]

/-- What an operation reports is whether it changes the members. -/
theorem exists_report (h : ∀ k c, c ∈ sets k ↔ c ∈ finsets k) (hreports : step.reports = true) :
    ∃ changed, (apply sets i step).2 = some changed ∧
      (changed = true ↔ step.meaning finsets i ≠ finsets i) := by
  cases step with
  | insert c =>
    refine ⟨_, rfl, ?_⟩
    rw [Bool.not_eq_true', ← Bool.not_eq_true, SortedSet.contains_iff, h, Step.meaning, Ne,
      Finset.insert_eq_self]
  | erase c =>
    refine ⟨_, rfl, ?_⟩
    rw [SortedSet.contains_iff, h, Step.meaning, Ne, Finset.erase_eq_self, not_not]
  | ofList conds => cases hreports
  | copy other => cases hreports
  | extend conds => cases hreports
  | union other => cases hreports
  | inter other => cases hreports
  | filter keep => cases hreports

/-- A further operation is performed on the sets after those before it. -/
theorem after_concat (steps : List (Nat × Step)) (step : Nat × Step) :
    after (steps ++ [step]) = perform (after steps) step.1 step.2 :=
  List.foldl_append

/-- A further operation means a change of the finite sets after those before it. -/
theorem meaningAfter_concat (steps : List (Nat × Step)) (step : Nat × Step) :
    meaningAfter (steps ++ [step]) =
    Function.update (meaningAfter steps) step.1 (step.2.meaning (meaningAfter steps) step.1) :=
  List.foldl_append

/-- **A history** makes of all sets what it means. -/
theorem mem_after (steps : List (Nat × Step)) :
    ∀ k c, c ∈ after steps k ↔ c ∈ meaningAfter steps k := by
  induction steps using List.reverseRecOn with
  | nil =>
    intro k c
    exact iff_of_false SortedSet.not_mem_empty (Finset.notMem_empty c)
  | append_singleton steps step ih =>
    intro k c
    rw [after_concat, meaningAfter_concat, perform]
    by_cases hk : k = step.1
    · rw [if_pos hk, hk, Function.update_self, mem_apply ih]
    · rw [if_neg hk, Function.update_of_ne hk, ih]

/-- **Whatever was done**, with any number of sets, each of them is a finite set: it shows the
members that the history gives it, a report says whether members change, and it is equal to another
one, of whatever history, if the members are the same, which is if the increasing lists are. The
order of the lists is strict and total. -/
theorem behaves_as_finset (steps : List (Nat × Step)) (i : Nat) :
    (after steps i).Represents (meaningAfter steps i) ∧
      (∀ step : Step, step.reports = true →
        ∃ changed, (apply (after steps) i step).2 = some changed ∧
        (changed = true ↔ step.meaning (meaningAfter steps) i ≠ meaningAfter steps i)) ∧
      (∀ (others : List (Nat × Step)) (j : Nat),
        (after steps i = after others j ↔ meaningAfter steps i = meaningAfter others j) ∧
        (after steps i = after others j ↔ (after steps i).toList = (after others j).toList)) ∧
      IsStrictTotalOrder Condition Condition.Before := by
  refine ⟨represents_of_mem_iff (mem_after steps i), fun step => exists_report (mem_after steps),
    ?_, Condition.isStrictTotalOrder_before⟩
  intro others j
  refine ⟨eq_iff_of_mem_iff (mem_after steps i) (mem_after others j), fun heq => by rw [heq],
    fun hlist => ?_⟩
  refine SortedSet.ext_mem fun c => ?_
  rw [← SortedSet.mem_toList, hlist, SortedSet.mem_toList]

-- kinds in their order, names by their bytes, and sets that are combined with themselves and with
-- copies of themselves
example :
    let sets := after [
      (0, .ofList [.const 3, .var "é", .var "z", .stmt 10, .stmt 9, .const (-1), .var "z"]),
      (1, .copy 0), (0, .insert (.proc 0)), (0, .union 0), (1, .erase (.stmt 10)), (0, .inter 0),
      (1, .inter 0)]
    (sets 0).toList = [.stmt 9, .stmt 10, .proc 0, .var "z", .var "é", .const (-1), .const 3] ∧
      (sets 1).toList = [.stmt 9, .var "z", .var "é", .const (-1), .const 3] := by
  decide +kernel

end ProgramQuery.ConditionSet
