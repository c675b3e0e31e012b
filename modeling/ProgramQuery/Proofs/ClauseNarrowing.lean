import ProgramQuery.Proofs.SolverAnswers
import ProgramQuery.Proofs.SortedSetLaws
import ProgramQuery.Query.Evaluation

/-!
# What a clause does to its variables

A solver that decides a relation narrows the candidates on both sides of a clause to those that are
in a pair of the relation, from whichever side it goes through them (`narrow_eq`), and the
candidates of a clause with the same variable on both sides to those that are in the relation with
themselves (`selfRelated_eq`).

Giving a variable fewer candidates does not raise its slack, and lowers it if its extent changes
(`slack_assign_lt`); if the extent does not change, neither does the variable (`assign_eq_self`).
-/

set_option autoImplicit false

namespace ProgramQuery

/-! ## Candidates in pairs -/

/-- Going through candidates keeps those that are related to one of the others, and matches those of
the others that one of the candidates is related to. -/
theorem matchCandidates_eq {answers : Condition → Except Inconsistency ConditionSet}
    {R : Condition → Condition → Prop} {cs : List Condition}
    (hanswers : ∀ c ∈ cs, ∃ answer, answers c = .ok answer ∧ ∀ d, d ∈ answer ↔ R c d)
    (others kept matched : ConditionSet) :
    ∃ kept' matched', matchCandidates answers others cs kept matched = .ok (kept', matched') ∧
      (∀ c, c ∈ kept' ↔ c ∈ kept ∨ c ∈ cs ∧ ∃ d, d ∈ others ∧ R c d) ∧
      ∀ d, d ∈ matched' ↔ d ∈ matched ∨ d ∈ others ∧ ∃ c, c ∈ cs ∧ R c d := by
  induction cs generalizing kept matched with
  | nil =>
    refine ⟨kept, matched, rfl, ?_, ?_⟩
    · simp
    · simp
  | cons c cs ih =>
    obtain ⟨answer, hanswer, hmem⟩ := hanswers c List.mem_cons_self
    have hrest := ih fun c' hc' => hanswers c' (List.mem_cons_of_mem c hc')
    have hfound : ∀ d, d ∈ answer.inter others ↔ d ∈ others ∧ R c d := by
      intro d
      rw [SortedSet.mem_inter, hmem, and_comm]
    by_cases hempty : (answer.inter others).isEmpty = true
    -- without a partner among the others, the candidate is dropped and matches nothing
    · obtain ⟨kept', matched', heq, hkept, hmatched⟩ := hrest kept matched
      have hnone : ∀ d, ¬ (d ∈ others ∧ R c d) := by
        intro d hd
        rw [SortedSet.isEmpty_iff] at hempty
        exact hempty d ((hfound d).mpr hd)
      refine ⟨kept', matched', ?_, ?_, ?_⟩
      · unfold matchCandidates
        rw [hanswer]
        show (if (answer.inter others).isEmpty = true then _ else _) = _
        rw [if_pos hempty, heq]
      · intro c'
        rw [hkept, List.mem_cons]
        constructor
        · rintro (h | ⟨h, hd⟩)
          · exact Or.inl h
          · exact Or.inr ⟨Or.inr h, hd⟩
        · rintro (h | ⟨rfl | h, d, hd⟩)
          · exact Or.inl h
          · exact absurd hd (hnone d)
          · exact Or.inr ⟨h, d, hd⟩
      · intro d
        rw [hmatched]
        constructor
        · rintro (h | ⟨h, c', hc', hd⟩)
          · exact Or.inl h
          · exact Or.inr ⟨h, c', List.mem_cons_of_mem c hc', hd⟩
        · rintro (h | ⟨h, c', hc', hd⟩)
          · exact Or.inl h
          · rcases List.mem_cons.mp hc' with rfl | hc'
            · exact absurd ⟨h, hd⟩ (hnone d)
            · exact Or.inr ⟨h, c', hc', hd⟩
    -- with one, it is kept, and all its partners are matched
    · obtain ⟨kept', matched', heq, hkept, hmatched⟩ :=
        hrest (kept.insert c) (matched.union (answer.inter others))
      have hsome : ∃ d, d ∈ others ∧ R c d := by
        by_contra hnone
        apply hempty
        rw [SortedSet.isEmpty_iff]
        intro d hd
        exact hnone ⟨d, (hfound d).mp hd⟩
      refine ⟨kept', matched', ?_, ?_, ?_⟩
      · unfold matchCandidates
        rw [hanswer]
        show (if (answer.inter others).isEmpty = true then _ else _) = _
        rw [if_neg hempty, heq]
      · intro c'
        rw [hkept, SortedSet.mem_insert, List.mem_cons]
        constructor
        · rintro ((rfl | h) | ⟨h, hd⟩)
          · exact Or.inr ⟨Or.inl rfl, hsome⟩
          · exact Or.inl h
          · exact Or.inr ⟨Or.inr h, hd⟩
        · rintro (h | ⟨rfl | h, hd⟩)
          · exact Or.inl (Or.inr h)
          · exact Or.inl (Or.inl rfl)
          · exact Or.inr ⟨h, hd⟩
      · intro d
        rw [hmatched, SortedSet.mem_union, hfound]
        constructor
        · rintro ((h | ⟨h, hd⟩) | ⟨h, c', hc', hd⟩)
          · exact Or.inl h
          · exact Or.inr ⟨h, c, List.mem_cons_self, hd⟩
          · exact Or.inr ⟨h, c', List.mem_cons_of_mem c hc', hd⟩
        · rintro (h | ⟨h, c', hc', hd⟩)
          · exact Or.inl (Or.inl h)
          · rcases List.mem_cons.mp hc' with rfl | hc'
            · exact Or.inl (Or.inr ⟨h, hd⟩)
            · exact Or.inr ⟨h, c', hc', hd⟩

namespace Solver

variable {σ : Solver} {p : Program} {R : Condition → Condition → Prop} {lefts rights : ConditionSet}

/-- **Both directions** narrow to the candidates that are in a pair. -/
theorem Decides.narrow_eq (hσ : σ.Decides p R) (fromRight : Bool)
    (hlefts : ∀ c, c ∈ lefts → c.In p) (hrights : ∀ d, d ∈ rights → d.In p) :
    ∃ lefts' rights', σ.narrow fromRight lefts rights = .ok (lefts', rights') ∧
      (∀ c, c ∈ lefts' ↔ c ∈ lefts ∧ ∃ d, d ∈ rights ∧ R c d) ∧
      ∀ d, d ∈ rights' ↔ d ∈ rights ∧ ∃ c, c ∈ lefts ∧ R c d := by
  cases fromRight with
  | false =>
    have hanswers : ∀ c ∈ lefts.toList, ∃ answer, σ.right c = .ok answer ∧
        ∀ d, d ∈ answer ↔ R c d :=
      fun c hc => hσ.right c (hlefts c (SortedSet.mem_toList.mp hc))
    obtain ⟨lefts', rights', heq, hkept, hmatched⟩ :=
      matchCandidates_eq hanswers rights ∅ ∅
    refine ⟨lefts', rights', heq, ?_, ?_⟩
    · intro c
      simp [hkept]
    · intro d
      simp [hmatched]
  | true =>
    have hanswers : ∀ d ∈ rights.toList, ∃ answer, σ.left d = .ok answer ∧
        ∀ c, c ∈ answer ↔ R c d :=
      fun d hd => hσ.left d (hrights d (SortedSet.mem_toList.mp hd))
    obtain ⟨rights', lefts', heq, hkept, hmatched⟩ :=
      matchCandidates_eq (R := fun d c => R c d) hanswers lefts ∅ ∅
    refine ⟨lefts', rights', ?_, ?_, ?_⟩
    · unfold narrow
      rw [if_pos rfl, heq]
      rfl
    · intro c
      simp [hmatched]
    · intro d
      simp [hkept]

/-- Going through candidates of a variable on both sides keeps those that are related to
themselves. -/
theorem Decides.selfRelated_eq (hσ : σ.Decides p R) {cs : List Condition} (hcs : ∀ c ∈ cs, c.In p)
    (kept : ConditionSet) :
    ∃ kept', σ.selfRelated cs kept = .ok kept' ∧ ∀ c, c ∈ kept' ↔ c ∈ kept ∨ c ∈ cs ∧ R c c := by
  induction cs generalizing kept with
  | nil => exact ⟨kept, rfl, by simp⟩
  | cons c cs ih =>
    have hc := hcs c List.mem_cons_self
    obtain ⟨b, hb⟩ := hσ.holds c c hc hc
    have hiff := hσ.holds_iff c c b hb
    obtain ⟨kept', heq, hmem⟩ := ih (fun c' hc' => hcs c' (List.mem_cons_of_mem c hc'))
      (if b = true then kept.insert c else kept)
    refine ⟨kept', ?_, ?_⟩
    · unfold selfRelated
      rw [hb]
      exact heq
    · intro c'
      rw [hmem, List.mem_cons]
      cases b with
      | true =>
        have hself : R c c := hiff.mp rfl
        rw [if_pos rfl, SortedSet.mem_insert]
        constructor
        · rintro ((rfl | h) | ⟨h, hR⟩)
          · exact Or.inr ⟨Or.inl rfl, hself⟩
          · exact Or.inl h
          · exact Or.inr ⟨Or.inr h, hR⟩
        · rintro (h | ⟨rfl | h, hR⟩)
          · exact Or.inl (Or.inr h)
          · exact Or.inl (Or.inl rfl)
          · exact Or.inr ⟨h, hR⟩
      | false =>
        rw [if_neg Bool.false_ne_true]
        constructor
        · rintro (h | ⟨h, hR⟩)
          · exact Or.inl h
          · exact Or.inr ⟨Or.inr h, hR⟩
        · rintro (h | ⟨rfl | h, hR⟩)
          · exact Or.inl h
          · exact absurd (hiff.mpr hR) Bool.false_ne_true
          · exact Or.inr ⟨h, hR⟩

end Solver

/-! ## Variables with fewer candidates -/

namespace Variable

variable {v : Variable} {set : ConditionSet}

/-- A wildcard remains one, and a named variable does. -/
@[simp] theorem isWildcard_assign : (v.assign set).isWildcard = v.isWildcard := by
  cases v <;> rfl

/-- Assigning to a wildcard changes nothing. -/
theorem assign_of_isWildcard (h : v.isWildcard = true) : v.assign set = v := by
  cases v with
  | wildcard predicate => rfl
  | named name predicate bound => cases h

/-- The candidates of a named variable are those that it was assigned. -/
theorem candidates_assign (h : v.isWildcard = false) : (v.assign set).candidates = set := by
  cases v with
  | wildcard predicate => cases h
  | named name predicate bound => rfl

/-- A variable that is assigned some of its candidates gets no new ones. -/
theorem candidates_assign_subset (hset : ∀ c, c ∈ set → c ∈ v.candidates) (c : Condition)
    (hc : c ∈ (v.assign set).candidates) : c ∈ v.candidates := by
  cases v with
  | wildcard predicate => exact hc
  | named name predicate bound => exact hset c hc

/-- A variable whose extent does not change does not change. -/
theorem assign_eq_self (hset : ∀ c, c ∈ set → c ∈ v.candidates)
    (hextent : Query.extent (v.assign set) = Query.extent v) : v.assign set = v := by
  cases v with
  | wildcard predicate => rfl
  | named name predicate bound =>
    cases bound with
    | none => cases hextent
    | some old =>
      have hsize : set.size = old.size := Option.some.inj hextent
      have heq : set = old := SortedSet.eq_of_subset_of_size_le hset (by omega)
      rw [heq]
      rfl

/-- If assigning a set changes nothing, the set is what a named variable ranges over. -/
theorem candidates_of_assign_eq_self (hself : v.assign set = v) (h : v.isWildcard = false) :
    v.candidates = set := by
  have hcandidates : (v.assign set).candidates = set := candidates_assign h
  rw [hself] at hcandidates
  exact hcandidates

/-- Assigning a variable some of its candidates does not leave it more slack. -/
theorem slack_assign_le (hset : ∀ c, c ∈ set → c ∈ v.candidates) :
    (v.assign set).slack ≤ v.slack := by
  cases v with
  | wildcard predicate => exact Nat.le_refl _
  | named name predicate bound =>
    have hsize := SortedSet.size_le_of_subset hset
    cases bound with
    | none =>
      show set.size ≤ predicate.members.size + 1
      have hle : set.size ≤ predicate.members.size := hsize
      omega
    | some old => exact hsize

/-- A variable whose extent changes has less slack. -/
theorem slack_assign_lt (hset : ∀ c, c ∈ set → c ∈ v.candidates)
    (hextent : Query.extent (v.assign set) ≠ Query.extent v) : (v.assign set).slack < v.slack := by
  cases v with
  | wildcard predicate => exact absurd rfl hextent
  | named name predicate bound =>
    have hsize := SortedSet.size_le_of_subset hset
    cases bound with
    | none =>
      show set.size < predicate.members.size + 1
      have hle : set.size ≤ predicate.members.size := hsize
      omega
    | some old =>
      have hle : set.size ≤ old.size := hsize
      have hne : set.size ≠ old.size := fun heq => hextent (congrArg some heq)
      show set.size < old.size
      omega

end Variable

end ProgramQuery
