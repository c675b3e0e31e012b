/-!
# Sorted maps

A finite map kept as the list of its entries by strictly increasing keys. A key has at most one
entry, because what is entered under a key takes the place of what stood there before.

Lookup describes every operation: `find?_empty`, `find?_insert` and, for the map that leads from the
members of a list to their places, `find?_ofKeys`. Keys and values are what lookup leads from and to
(`mem_keys`, `mem_values`).
-/

set_option autoImplicit false

namespace ProgramQuery

/-- A finite map, stored as its entries by strictly increasing keys. -/
structure SortedMap (κ ν : Type) [Ord κ] where
  /-- The keys with their values, in increasing order of the keys. -/
  entries : List (κ × ν)
  /-- Each key comes strictly before all later ones. -/
  increasing : entries.Pairwise fun a b => compare a.1 b.1 = .lt

namespace SortedMap

variable {κ ν : Type} [Ord κ]

/-- The map without entries. -/
def empty : SortedMap κ ν := ⟨[], .nil⟩

instance : EmptyCollection (SortedMap κ ν) := ⟨empty⟩

/-- The keys in increasing order. -/
def keys (m : SortedMap κ ν) : List κ := m.entries.map Prod.fst

/-- The values in the order of their keys. -/
def values (m : SortedMap κ ν) : List ν := m.entries.map Prod.snd

/-- The keys go up. -/
theorem pairwise_keys (m : SortedMap κ ν) : m.keys.Pairwise fun a b => compare a b = .lt :=
  List.pairwise_map.mpr m.increasing

/-- The value under a key. -/
def find? [DecidableEq κ] (m : SortedMap κ ν) (k : κ) : Option ν := m.entries.lookup k

/-- Nothing stands under a key of the empty map. -/
@[simp] theorem find?_empty [DecidableEq κ] (k : κ) : (∅ : SortedMap κ ν).find? k = none := rfl

/-- Enters a value under a key into a list of entries by increasing keys, in place of the value
there. -/
def enter (k : κ) (v : ν) : List (κ × ν) → List (κ × ν)
  | [] => [(k, v)]
  | e :: l =>
    match compare k e.1 with
    | .lt => (k, v) :: e :: l
    | .eq => (k, v) :: l
    | .gt => e :: enter k v l

/-- An entry is the new one or was there before. -/
theorem mem_of_mem_enter {k : κ} {v : ν} {e : κ × ν} {l : List (κ × ν)} (h : e ∈ enter k v l) :
    e = (k, v) ∨ e ∈ l := by
  induction l with
  | nil => simpa [enter] using h
  | cons d l ih =>
    cases hcmp : compare k d.1 with
    | lt => simpa [enter, hcmp] using h
    | eq =>
      rcases (by simpa [enter, hcmp] using h : e = (k, v) ∨ e ∈ l) with he | he
      · exact .inl he
      · exact .inr (List.mem_cons_of_mem d he)
    | gt =>
      rcases (by simpa [enter, hcmp] using h : e = d ∨ e ∈ enter k v l) with rfl | he
      · exact .inr List.mem_cons_self
      · exact (ih he).imp_right (List.mem_cons_of_mem d)

section Lawful

variable [Std.LawfulEqOrd κ]

/-- Keys that go up still do after a value is entered. -/
theorem increasing_enter [Std.TransOrd κ] {k : κ} {v : ν} {l : List (κ × ν)}
    (hl : l.Pairwise fun a b => compare a.1 b.1 = .lt) :
    (enter k v l).Pairwise fun a b => compare a.1 b.1 = .lt := by
  induction l with
  | nil => simp [enter]
  | cons d l ih =>
    obtain ⟨hd, htail⟩ := List.pairwise_cons.mp hl
    cases hcmp : compare k d.1 with
    | lt =>
      simp only [enter, hcmp]
      refine List.pairwise_cons.mpr ⟨fun e he => ?_, hl⟩
      rcases List.mem_cons.mp he with rfl | he
      · exact hcmp
      · exact Std.TransCmp.lt_trans hcmp (hd e he)
    | eq =>
      have hkey : k = d.1 := Std.LawfulEqOrd.eq_of_compare hcmp
      simp only [enter, hcmp]
      exact List.pairwise_cons.mpr ⟨fun e he => hkey ▸ hd e he, htail⟩
    | gt =>
      simp only [enter, hcmp]
      refine List.pairwise_cons.mpr ⟨fun e he => ?_, ih htail⟩
      rcases mem_of_mem_enter he with rfl | he
      · exact Std.OrientedCmp.lt_of_gt hcmp
      · exact hd e he

variable [DecidableEq κ] {m : SortedMap κ ν} {k k' : κ} {v : ν}

omit [Ord κ] [Std.LawfulEqOrd κ] in
/-- Lookup looks at the first entry first. -/
theorem lookup_cons_eq (e : κ × ν) (l : List (κ × ν)) :
    (e :: l).lookup k = if k = e.1 then some e.2 else l.lookup k := by
  obtain ⟨key, value⟩ := e
  rw [List.lookup_cons]
  by_cases h : k = key
  · rw [if_pos h, beq_iff_eq.mpr h]
  · rw [if_neg h, beq_false_of_ne h]

/-- Lookup finds exactly the entries. -/
theorem mem_entries_iff : (k, v) ∈ m.entries ↔ m.find? k = some v := by
  obtain ⟨l, hl⟩ := m
  show (k, v) ∈ l ↔ l.lookup k = some v
  induction l with
  | nil => simp
  | cons d l ih =>
    obtain ⟨hd, htail⟩ := List.pairwise_cons.mp hl
    rw [List.mem_cons, lookup_cons_eq]
    by_cases h : k = d.1
    · rw [if_pos h]
      constructor
      · rintro (heq | hmem)
        · rw [← heq]
        · -- a later entry has a greater key
          have hlt := hd _ hmem
          simp [← h] at hlt
      · intro heq
        exact .inl (Prod.ext h (Option.some.inj heq).symm)
    · rw [if_neg h]
      constructor
      · rintro (heq | hmem)
        · exact absurd (congrArg Prod.fst heq) h
        · exact (ih htail).mp hmem
      · exact fun hfind => .inr ((ih htail).mpr hfind)

/-- The keys are those that something stands under. -/
theorem mem_keys : k ∈ m.keys ↔ ∃ v, m.find? k = some v := by
  simp only [keys, List.mem_map, ← mem_entries_iff]
  constructor
  · rintro ⟨e, he, rfl⟩
    exact ⟨e.2, he⟩
  · rintro ⟨v, hv⟩
    exact ⟨(k, v), hv, rfl⟩

/-- The values are those that stand under some key. -/
theorem mem_values : v ∈ m.values ↔ ∃ k, m.find? k = some v := by
  simp only [values, List.mem_map, ← mem_entries_iff]
  constructor
  · rintro ⟨e, he, rfl⟩
    exact ⟨e.1, he⟩
  · rintro ⟨k, hk⟩
    exact ⟨(k, v), hk, rfl⟩

/-- Looking up one key after the other gives the values. -/
theorem map_find?_keys (m : SortedMap κ ν) : m.keys.map m.find? = m.values.map some := by
  simp only [keys, values, List.map_map]
  exact List.map_congr_left fun e he => mem_entries_iff.mp he

/-- Under the key of the new entry stands its value, and under the others what stood there
before. -/
theorem lookup_enter {l : List (κ × ν)} :
    (enter k v l).lookup k' = if k' = k then some v else l.lookup k' := by
  induction l with
  | nil => exact lookup_cons_eq (k, v) []
  | cons d l ih =>
    cases hcmp : compare k d.1 with
    | lt => simp only [enter, hcmp, lookup_cons_eq]
    | eq =>
      have hkey : k = d.1 := Std.LawfulEqOrd.eq_of_compare hcmp
      simp only [enter, hcmp, lookup_cons_eq]
      rw [← hkey]
      split <;> rfl
    | gt =>
      have hkey : k ≠ d.1 := fun heq => by simp [← heq] at hcmp
      simp only [enter, hcmp, lookup_cons_eq, ih]
      by_cases h : k' = k
      · subst h
        rw [if_neg hkey, if_pos rfl, if_pos rfl]
      · rw [if_neg h, if_neg h]

variable [Std.TransOrd κ]

/-- Enters a value under a key, in place of the value there. -/
def insert (m : SortedMap κ ν) (k : κ) (v : ν) : SortedMap κ ν :=
  ⟨enter k v m.entries, increasing_enter m.increasing⟩

/-- Lookup after an entry: the new value under its key, and what was there under the others. -/
@[simp] theorem find?_insert : (m.insert k v).find? k' = if k' = k then some v else m.find? k' :=
  lookup_enter

/-! ## Places in a list -/

/-- Leads from the members of a list to their places, entered one after the other: the last place
stays. -/
def ofKeys (ks : List κ) : SortedMap κ Nat :=
  ks.zipIdx.foldl (fun m entry => m.insert entry.1 entry.2) ∅

/-- Entering the members of a list under the places from `n` on leaves the last place of each of
them, and what stood under the other keys. -/
theorem find?_foldl_zipIdx {ks : List κ} {m : SortedMap κ Nat} {n i : Nat} :
    ((ks.zipIdx n).foldl (fun m entry => m.insert entry.1 entry.2) m).find? k = some i ↔
      (∃ j, i = n + j ∧ ks[j]? = some k ∧ ∀ j', j < j' → ks[j']? ≠ some k) ∨
        (k ∉ ks ∧ m.find? k = some i) := by
  induction ks generalizing m n with
  | nil => simp
  | cons key ks ih =>
    rw [List.zipIdx_cons, List.foldl_cons, ih, find?_insert]
    constructor
    · rintro (⟨j, rfl, hj, hlast⟩ | ⟨hnot, hfind⟩)
      · refine .inl ⟨j + 1, by omega, hj, fun j' hj' => ?_⟩
        obtain ⟨j', rfl⟩ := Nat.exists_eq_succ_of_ne_zero (Nat.ne_of_gt (Nat.zero_lt_of_lt hj'))
        exact hlast j' (Nat.lt_of_succ_lt_succ hj')
      -- the key does not come again, so what is found was entered here or before
      · by_cases h : k = key
        · rw [if_pos h] at hfind
          refine .inl ⟨0, (Option.some.inj hfind).symm, by simp [h], fun j' hj' => ?_⟩
          obtain ⟨j', rfl⟩ := Nat.exists_eq_succ_of_ne_zero (Nat.ne_of_gt hj')
          exact fun hj' => hnot (List.mem_of_getElem? hj')
        · rw [if_neg h] at hfind
          exact .inr ⟨fun hmem => (List.mem_cons.mp hmem).elim h hnot, hfind⟩
    · rintro (⟨j, rfl, hj, hlast⟩ | ⟨hnot, hfind⟩)
      · cases j with
        | zero =>
          have hkey : k = key := (Option.some.inj hj).symm
          refine .inr ⟨fun hmem => ?_, if_pos hkey⟩
          obtain ⟨j', hj'⟩ := List.getElem?_of_mem hmem
          exact hlast (j' + 1) (Nat.succ_pos j') hj'
        | succ j =>
          exact .inl ⟨j, by omega, hj, fun j' hj' => hlast (j' + 1) (Nat.succ_lt_succ hj')⟩
      · obtain ⟨hkey, hnot⟩ := not_or.mp (mt List.mem_cons.mpr hnot)
        exact .inr ⟨hnot, by rw [if_neg hkey, hfind]⟩

/-- A member of a list leads to its last place. -/
theorem find?_ofKeys {ks : List κ} {i : Nat} :
    (ofKeys ks).find? k = some i ↔ ks[i]? = some k ∧ ∀ j, i < j → ks[j]? ≠ some k := by
  rw [ofKeys, find?_foldl_zipIdx]
  simp

end Lawful

end SortedMap

end ProgramQuery
