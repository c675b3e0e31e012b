import Mathlib.Data.List.Perm.Subperm
import ProgramQuery.SortedSet

/-!
# Sizes of sorted sets

A sorted set lists each member once, so a set within another one has at most as many members, and as
many only if the two are the same. What shrinks or grows step by step can therefore be followed by
its size alone.
-/

set_option autoImplicit false

namespace ProgramQuery.SortedSet

variable {α : Type} [Ord α] [Std.LawfulEqOrd α] {s t : SortedSet α}

/-- The elements of a set are listed once. -/
theorem nodup_toList (s : SortedSet α) : s.toList.Nodup := by
  refine s.increasing.imp ?_
  intro a b hlt heq
  rw [heq, (Std.ReflCmp.compare_self : compare b b = .eq)] at hlt
  cases hlt

omit [Std.LawfulEqOrd α] in
/-- The check for emptiness answers no exactly if there is an element. -/
theorem isEmpty_eq_false_iff : s.isEmpty = false ↔ ∃ a, a ∈ s := by
  constructor
  · intro hempty
    by_contra hnone
    rw [isEmpty_iff.mpr fun a ha => hnone ⟨a, ha⟩] at hempty
    cases hempty
  · rintro ⟨a, ha⟩
    cases hempty : s.isEmpty with
    | false => rfl
    | true => exact absurd ha (isEmpty_iff.mp hempty a)

/-- A set within another one has at most as many members. -/
theorem size_le_of_subset (h : ∀ a, a ∈ s → a ∈ t) : s.size ≤ t.size :=
  (List.subperm_of_subset s.nodup_toList h).length_le

/-- A set within another one that has no more members is the same. -/
theorem eq_of_subset_of_size_le [Std.TransOrd α] (h : ∀ a, a ∈ s → a ∈ t)
    (hsize : t.size ≤ s.size) : s = t := by
  have hperm : s.toList.Perm t.toList :=
    (List.subperm_of_subset s.nodup_toList h).perm_of_length_le hsize
  exact ext_mem fun a => hperm.mem_iff

end ProgramQuery.SortedSet
