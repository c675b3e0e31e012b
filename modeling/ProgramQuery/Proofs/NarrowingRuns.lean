import ProgramQuery.Proofs.LargestFamily

/-!
# Runs with any solvers

Nothing is asked of the solvers here. They may refuse questions, and what they answer from the left
and from the right may not fit together, as on a program whose links were overwritten. All the same
a clause only takes candidates away from its named variables: a variable is left as it was, or is
bound to some of what it ranged over (`Variable.NarrowedTo`).

Two variables of which one is narrowed to the other are the same as soon as they have the same
extent (`NarrowedTo.eq_of_extent_eq`). So what is compared before and after a clause, two extents,
tells whether the clause has changed anything (`eq_of_snapshot_eq`), and a round that has changed
something leaves less slack. Hence the rounds come to an end by themselves, whatever the limit on
them (`runRounds_ends`, where `EndsAfter` knows of no limit).
-/

set_option autoImplicit false

namespace ProgramQuery

/-! ## Narrowed variables -/

namespace Variable

/-- The variable `v'` is `v`, or `v` bound to some of the candidates of `v`. -/
def NarrowedTo (v v' : Variable) : Prop :=
  v' = v ∨ ∃ set : ConditionSet, (∀ c, c ∈ set → c ∈ v.candidates) ∧ v' = v.assign set

variable {v v' v'' : Variable} {set : ConditionSet}

/-- Assigning a variable some of its candidates narrows it. -/
theorem narrowedTo_assign (hset : ∀ c, c ∈ set → c ∈ v.candidates) : v.NarrowedTo (v.assign set) :=
  .inr ⟨set, hset, rfl⟩

/-- Binding a variable to what it ranges over narrows it. -/
theorem narrowedTo_bind (v : Variable) : v.NarrowedTo v.bind :=
  narrowedTo_assign fun _ hc => hc

/-- Only the last set that is assigned counts. -/
theorem assign_assign (set set' : ConditionSet) (v : Variable) :
    (v.assign set).assign set' = v.assign set' := by
  cases v with
  | wildcard predicate => rfl
  | named name predicate bound => rfl

/-- A bound variable remains bound when it is assigned a set. -/
theorem isBound_assign (hbound : v.isBound = true) : (v.assign set).isBound = true := by
  cases v with
  | wildcard predicate => cases hbound
  | named name predicate bound => rfl

namespace NarrowedTo

/-- A narrowed variable has no new candidates. -/
theorem candidates_subset (h : v.NarrowedTo v') (c : Condition) (hc : c ∈ v'.candidates) :
    c ∈ v.candidates := by
  rcases h with rfl | ⟨set, hset, rfl⟩
  · exact hc
  · exact candidates_assign_subset hset c hc

/-- Narrowing twice is narrowing. -/
theorem trans (h : v.NarrowedTo v') (h' : v'.NarrowedTo v'') : v.NarrowedTo v'' := by
  rcases h' with rfl | ⟨set', hset', rfl⟩
  · exact h
  · have hsub : ∀ c, c ∈ set' → c ∈ v.candidates := fun c hc => h.candidates_subset c (hset' c hc)
    rcases h with rfl | ⟨set, -, rfl⟩
    · exact narrowedTo_assign hsub
    · rw [assign_assign]
      exact narrowedTo_assign hsub

/-- Narrowing keeps the name. -/
theorem name_eq (h : v.NarrowedTo v') : v'.name = v.name := by
  rcases h with rfl | ⟨set, -, rfl⟩
  · rfl
  · exact name_assign set v

/-- Narrowing keeps the predicate. -/
theorem predicate_eq (h : v.NarrowedTo v') : v'.predicate = v.predicate := by
  rcases h with rfl | ⟨set, -, rfl⟩
  · rfl
  · exact predicate_assign set v

/-- Narrowing turns no wildcard into a named variable, and none back. -/
theorem isWildcard_eq (h : v.NarrowedTo v') : v'.isWildcard = v.isWildcard := by
  rcases h with rfl | ⟨set, -, rfl⟩
  · rfl
  · exact isWildcard_assign

/-- A wildcard is not narrowed. -/
theorem eq_of_isWildcard (h : v.NarrowedTo v') (hwild : v.isWildcard = true) : v' = v := by
  rcases h with rfl | ⟨set, -, rfl⟩
  · rfl
  · exact assign_of_isWildcard hwild

/-- A bound variable remains bound when it is narrowed. -/
theorem isBound (h : v.NarrowedTo v') (hbound : v.isBound = true) : v'.isBound = true := by
  rcases h with rfl | ⟨set, -, rfl⟩
  · exact hbound
  · exact isBound_assign hbound

/-- **Equal extents** mean that nothing has changed. -/
theorem eq_of_extent_eq (h : v.NarrowedTo v') (hextent : Query.extent v' = Query.extent v) :
    v' = v := by
  rcases h with rfl | ⟨set, hset, rfl⟩
  · rfl
  · exact assign_eq_self hset hextent

/-- A narrowed variable has no more slack than before. -/
theorem slack_le (h : v.NarrowedTo v') : v'.slack ≤ v.slack := by
  rcases h with rfl | ⟨set, hset, rfl⟩
  · exact Nat.le_refl _
  · exact slack_assign_le hset

/-- A variable that is left with the same slack has not changed. -/
theorem eq_of_slack_eq (h : v.NarrowedTo v') (hslack : v'.slack = v.slack) : v' = v := by
  by_contra hne
  have hextent : Query.extent v' ≠ Query.extent v := fun heq => hne (h.eq_of_extent_eq heq)
  rcases h with rfl | ⟨set, hset, rfl⟩
  · exact hne rfl
  · have hlt := slack_assign_lt hset hextent
    omega

end NarrowedTo

end Variable

/-! ## Answers of any solver -/

/-- Going through candidates gives back only some of them, whatever the answers are. -/
theorem matchCandidates_within {answers : Condition → Except Inconsistency ConditionSet}
    {others : ConditionSet} {cs : List Condition} {kept matched kept' matched' : ConditionSet}
    (h : matchCandidates answers others cs kept matched = .ok (kept', matched')) :
    (∀ c, c ∈ kept' → c ∈ kept ∨ c ∈ cs) ∧ ∀ d, d ∈ matched' → d ∈ matched ∨ d ∈ others := by
  induction cs generalizing kept matched with
  | nil =>
    cases h
    exact ⟨fun c hc => .inl hc, fun d hd => .inl hd⟩
  | cons c cs ih =>
    obtain ⟨answer, -, h⟩ := ExceptSteps.bind_eq_ok.mp h
    change (if (answer.inter others).isEmpty = true then _ else _) = _ at h
    split at h
    · obtain ⟨hkept, hmatched⟩ := ih h
      refine ⟨fun c' hc' => ?_, hmatched⟩
      exact (hkept c' hc').imp_right (List.mem_cons_of_mem c)
    · obtain ⟨hkept, hmatched⟩ := ih h
      refine ⟨fun c' hc' => ?_, fun d hd => ?_⟩
      · rcases hkept c' hc' with hc' | hc'
        · rcases SortedSet.mem_insert.mp hc' with rfl | hc'
          · exact .inr List.mem_cons_self
          · exact .inl hc'
        · exact .inr (List.mem_cons_of_mem c hc')
      · rcases hmatched d hd with hd | hd
        · rcases SortedSet.mem_union.mp hd with hd | hd
          · exact .inl hd
          · exact .inr (SortedSet.mem_inter.mp hd).2
        · exact .inr hd

namespace Solver

variable {σ : Solver}

/-- Narrowing two sets by a clause gives back only some of their elements, whatever the solver
answers. -/
theorem narrow_within {fromRight : Bool} {lefts rights lefts' rights' : ConditionSet}
    (h : σ.narrow fromRight lefts rights = .ok (lefts', rights')) :
    (∀ c, c ∈ lefts' → c ∈ lefts) ∧ ∀ d, d ∈ rights' → d ∈ rights := by
  cases fromRight with
  | false =>
    obtain ⟨hkept, hmatched⟩ := matchCandidates_within h
    exact ⟨fun c hc => (hkept c hc).resolve_left SortedSet.not_mem_empty,
      fun d hd => (hmatched d hd).resolve_left SortedSet.not_mem_empty⟩
  | true =>
    obtain ⟨found, hfound, h⟩ := ExceptSteps.bind_eq_ok.mp h
    cases h
    obtain ⟨hkept, hmatched⟩ := matchCandidates_within hfound
    exact ⟨fun c hc => (hmatched c hc).resolve_left SortedSet.not_mem_empty,
      fun d hd => (hkept d hd).resolve_left SortedSet.not_mem_empty⟩

/-- Going through candidates on both sides gives back only some of them, whatever the solver
answers. -/
theorem selfRelated_within {cs : List Condition} {kept kept' : ConditionSet}
    (h : σ.selfRelated cs kept = .ok kept') : ∀ c, c ∈ kept' → c ∈ kept ∨ c ∈ cs := by
  induction cs generalizing kept with
  | nil =>
    cases h
    exact fun c hc => .inl hc
  | cons c cs ih =>
    obtain ⟨related, -, h⟩ := ExceptSteps.bind_eq_ok.mp h
    intro c' hc'
    rcases ih h c' hc' with hc' | hc'
    · cases related with
      | false => exact .inl hc'
      | true =>
        rcases SortedSet.mem_insert.mp hc' with rfl | hc'
        · exact .inr List.mem_cons_self
        · exact .inl hc'
    · exact .inr (List.mem_cons_of_mem c hc')

/-- A clause narrows both of its variables, also where the solver refuses to answer. -/
theorem evaluate_narrowedTo (σ : Solver) (left right : Variable) :
    left.NarrowedTo (σ.evaluate left right).1.1 ∧ right.NarrowedTo (σ.evaluate left right).1.2 := by
  cases hnarrow : σ.narrow (right.isBound && !left.isBound) left.candidates right.candidates with
  | error fault =>
    simp only [evaluate, hnarrow]
    exact ⟨left.narrowedTo_bind, right.narrowedTo_bind⟩
  | ok kept =>
    obtain ⟨hlefts, hrights⟩ := narrow_within hnarrow
    simp only [evaluate, hnarrow]
    exact ⟨Variable.narrowedTo_assign hlefts, Variable.narrowedTo_assign hrights⟩

/-- A clause with one variable on both sides narrows it. -/
theorem evaluateSelf_narrowedTo (σ : Solver) (v : Variable) :
    v.NarrowedTo (σ.evaluateSelf v).1 := by
  unfold evaluateSelf
  cases hself : σ.selfRelated v.candidates.toList ∅ with
  | error fault => exact v.narrowedTo_bind
  | ok kept =>
    exact Variable.narrowedTo_assign fun c hc =>
      (selfRelated_within hself c hc).resolve_left SortedSet.not_mem_empty

end Solver

/-! ## Narrowed arrays of variables -/

namespace Query

/-- The variables are the same, narrowed where a clause names them. -/
structure NarrowedBy (clauses : List Clause) (vars vars' : Array Variable) : Prop where
  size_eq : vars'.size = vars.size
  narrowed : ∀ (id : VarId) (v v' : Variable), vars[id]? = some v → vars'[id]? = some v' →
    v.NarrowedTo v'
  apart : ∀ id, (∀ clause ∈ clauses, clause.left ≠ id ∧ clause.right ≠ id) → vars'[id]? = vars[id]?

/-- What is compared before and after a clause: the extents of its two variables, where they are
declared. -/
def snapshot (vars : Array Variable) (clause : Clause) :
    Option (Option Nat) × Option (Option Nat) :=
  (vars[clause.left]?.map extent, vars[clause.right]?.map extent)

variable {solvers : Relation → Solver} {clauses clauses' : List Clause} {clause : Clause}
  {vars vars' vars'' : Array Variable}

namespace NarrowedBy

/-- Leaving the variables as they are is narrowing. -/
theorem refl (clauses : List Clause) (vars : Array Variable) : NarrowedBy clauses vars vars := by
  refine ⟨rfl, fun id v v' hv hv' => .inl ?_, fun id _ => rfl⟩
  exact Option.some.inj (hv'.symm.trans hv)

/-- A variable is still declared after narrowing, and narrowed itself. -/
theorem exists_var (h : NarrowedBy clauses vars vars') {id : VarId} {v : Variable}
    (hv : vars[id]? = some v) :
    ∃ v', vars'[id]? = some v' ∧ v.NarrowedTo v' := by
  obtain ⟨hlt, -⟩ := Array.getElem?_eq_some_iff.mp hv
  have hlt' : id < vars'.size := h.size_eq ▸ hlt
  exact ⟨vars'[id], Array.getElem?_eq_getElem hlt',
    h.narrowed id v _ hv (Array.getElem?_eq_getElem hlt')⟩

/-- Narrowing twice by the same clauses is narrowing by them. -/
theorem trans (h : NarrowedBy clauses vars vars') (h' : NarrowedBy clauses vars' vars'') :
    NarrowedBy clauses vars vars'' := by
  refine ⟨h'.size_eq.trans h.size_eq, fun id v v'' hv hv'' => ?_, fun id hid => ?_⟩
  · obtain ⟨v', hv', hnarrowed⟩ := h.exists_var hv
    exact hnarrowed.trans (h'.narrowed id v' v'' hv' hv'')
  · exact (h'.apart id hid).trans (h.apart id hid)

/-- Narrowing by some clauses is narrowing by more. -/
theorem mono (h : NarrowedBy clauses vars vars') (hsub : ∀ clause ∈ clauses, clause ∈ clauses') :
    NarrowedBy clauses' vars vars' :=
  ⟨h.size_eq, h.narrowed, fun id hid => h.apart id fun clause hclause =>
    hid clause (hsub clause hclause)⟩

/-- Narrowing each variable of a list does not raise the slack, and leaves it as it was only if
nothing was narrowed. -/
theorem foldr_slack_le {l l' : List Variable} (h : List.Forall₂ Variable.NarrowedTo l l') :
    l'.foldr (fun v total => v.slack + total) 0 ≤ l.foldr (fun v total => v.slack + total) 0 ∧
      (l'.foldr (fun v total => v.slack + total) 0 = l.foldr (fun v total => v.slack + total) 0 →
        l' = l) := by
  induction h with
  | nil => exact ⟨Nat.le_refl _, fun _ => rfl⟩
  | @cons v v' l l' hv _ ih =>
    obtain ⟨hle, heq⟩ := ih
    have hvle := hv.slack_le
    simp only [List.foldr_cons]
    refine ⟨by omega, fun hsum => ?_⟩
    rw [hv.eq_of_slack_eq (by omega), heq (by omega)]

/-- The slack does not grow, and where it stays the same the variables do. -/
theorem slack_le (h : NarrowedBy clauses vars vars') :
    slack vars' ≤ slack vars ∧ (slack vars' = slack vars → vars' = vars) := by
  have hall : List.Forall₂ Variable.NarrowedTo vars.toList vars'.toList := by
    refine List.forall₂_iff_get.mpr ⟨by simpa using h.size_eq.symm, fun id hid hid' => ?_⟩
    refine h.narrowed id _ _ ?_ ?_
    · rw [← Array.getElem?_toList]
      exact List.getElem?_eq_getElem hid
    · rw [← Array.getElem?_toList]
      exact List.getElem?_eq_getElem hid'
  obtain ⟨hle, heq⟩ := foldr_slack_le hall
  exact ⟨hle, fun hsum => Array.toList_inj.mp (heq hsum)⟩

/-- Narrowing that changes something lowers the slack. -/
theorem slack_lt (h : NarrowedBy clauses vars vars') (hne : vars' ≠ vars) :
    slack vars' < slack vars := by
  obtain ⟨hle, heq⟩ := h.slack_le
  exact Nat.lt_of_le_of_ne hle fun hslack => hne (heq hslack)

/-- **Equal snapshots** mean that a clause has changed nothing: the extents of its own variables are
the same, and the others are not touched. -/
theorem eq_of_snapshot_eq (h : NarrowedBy [clause] vars vars')
    (hsnapshot : snapshot vars' clause = snapshot vars clause) : vars' = vars := by
  obtain ⟨hleft, hright⟩ := Prod.mk.inj hsnapshot
  have hsame : ∀ id : VarId, vars'[id]?.map extent = vars[id]?.map extent →
      vars'[id]? = vars[id]? := by
    intro id hextent
    cases hv : vars[id]? with
    | none =>
      rw [hv] at hextent
      exact Option.map_eq_none_iff.mp hextent
    | some v =>
      obtain ⟨v', hv', hnarrowed⟩ := h.exists_var hv
      rw [hv, hv'] at hextent
      rw [hv', hnarrowed.eq_of_extent_eq (Option.some.inj hextent)]
  apply Array.ext_getElem?
  intro id
  by_cases hid : clause.left = id ∨ clause.right = id
  · rcases hid with rfl | rfl
    · exact hsame _ hleft
    · exact hsame _ hright
  · apply h.apart
    simpa using hid

end NarrowedBy

/-! ## One clause -/

/-- Replacing a variable by what is left of it. -/
theorem narrowedBy_setIfInBounds {id : VarId} {v v' : Variable} (hv : vars[id]? = some v)
    (hnarrowed : v.NarrowedTo v') (hid : clause.left = id ∨ clause.right = id) :
    NarrowedBy [clause] vars (vars.setIfInBounds id v') := by
  refine ⟨Array.size_setIfInBounds, fun i w w' hw hw' => ?_, fun i hi => ?_⟩
  · rw [getElem?_setIfInBounds hv] at hw'
    by_cases heq : i = id
    · rw [if_pos heq] at hw'
      rw [heq, hv] at hw
      cases hw
      cases hw'
      exact hnarrowed
    · rw [if_neg heq, hw] at hw'
      cases hw'
      exact .inl rfl
  · obtain ⟨hleft, hright⟩ := hi clause List.mem_cons_self
    have hne : ¬ i = id := by
      rintro rfl
      exact hid.elim hleft hright
    rw [getElem?_setIfInBounds hv, if_neg hne]

/-- **One clause**, with any solvers. If its variables are declared they are narrowed, and whatever
the answer, what it says of changes is told by the snapshots. -/
theorem applyClause_cases (solvers : Relation → Solver) (clause : Clause) (vars : Array Variable) :
    (∃ error, applyClause solvers clause vars = (vars, .failed error)) ∨
      ∃ vars' changed answer, applyClause solvers clause vars = (vars', .ofAnswer changed answer) ∧
        NarrowedBy [clause] vars vars' ∧
        (changed = false ↔ snapshot vars' clause = snapshot vars clause) := by
  cases hleft : vars[clause.left]? with
  | none =>
    left
    exact ⟨undeclared clause.left, by simp only [applyClause, hleft]⟩
  | some left =>
    cases hright : vars[clause.right]? with
    | none =>
      left
      exact ⟨undeclared clause.right, by simp only [applyClause, hleft, hright]⟩
    | some right =>
      right
      by_cases hsame : clause.left = clause.right
      · have hnarrowed := (solvers clause.relation).evaluateSelf_narrowedTo left
        refine ⟨_, _, _, by simp only [applyClause, hleft, hright, if_pos hsame]; rfl,
          narrowedBy_setIfInBounds hleft hnarrowed (.inl rfl), ?_⟩
        simp [snapshot, ← hsame, hleft, getElem?_setIfInBounds hleft]
      · obtain ⟨hnarrowedLeft, hnarrowedRight⟩ :=
          (solvers clause.relation).evaluate_narrowedTo left right
        -- the right variable is still there when the left one has been replaced
        have hright' : ∀ left',
            (vars.setIfInBounds clause.left left')[clause.right]? = some right := by
          intro left'
          rw [getElem?_setIfInBounds hleft, if_neg (Ne.symm hsame)]
          exact hright
        refine ⟨_, _, _, by simp only [applyClause, hleft, hright, if_neg hsame]; rfl,
          (narrowedBy_setIfInBounds hleft hnarrowedLeft (.inl rfl)).trans
            (narrowedBy_setIfInBounds (hright' _) hnarrowedRight (.inr rfl)), ?_⟩
        simp [snapshot, getElem?_setIfInBounds (hright' _), getElem?_setIfInBounds hleft, hleft,
          hright, hsame]

/-- Applying a clause narrows its own variables and no others. -/
theorem narrowedBy_applyClause (solvers : Relation → Solver) (clause : Clause)
    (vars : Array Variable) :
    NarrowedBy [clause] vars (applyClause solvers clause vars).1 := by
  rcases applyClause_cases solvers clause vars with
    ⟨error, heq⟩ | ⟨vars', changed, answer, heq, hnarrowed, -⟩
  · rw [heq]
    exact .refl _ _
  · rw [heq]
    exact hnarrowed

/-- What a satisfied clause says of changes is whether the snapshots differ. -/
theorem changed_eq_false_iff {changed : Bool}
    (h : applyClause solvers clause vars = (vars', .satisfied changed)) :
    changed = false ↔ snapshot vars' clause = snapshot vars clause := by
  rcases applyClause_cases solvers clause vars with
    ⟨error, heq⟩ | ⟨vars₁, changed₁, answer, heq, -, hiff⟩
  · cases heq.symm.trans h
  · obtain ⟨rfl, houtcome⟩ := Prod.mk.inj (heq.symm.trans h)
    rcases answer with fault | ⟨_ | _⟩
    · cases houtcome
    · cases houtcome
    · cases houtcome
      exact hiff

/-! ## Rounds -/

/-- **One round**, with any solvers: it narrows the variables of its clauses, and if it says that
something has changed, it leaves less slack. -/
theorem narrowedBy_of_applyAll {outcome : Outcome}
    (h : applyAll solvers clauses vars = (vars', outcome)) :
    NarrowedBy clauses vars vars' ∧ (outcome = .satisfied true → slack vars' < slack vars) := by
  induction clauses generalizing vars vars' outcome with
  | nil =>
    cases h
    exact ⟨.refl _ _, fun h => by cases h⟩
  | cons clause clauses ih =>
    obtain ⟨vars₁, outcome₁, hclause⟩ : ∃ vars₁ outcome₁,
        applyClause solvers clause vars = (vars₁, outcome₁) :=
      ⟨_, _, rfl⟩
    have hnarrowed₁ : NarrowedBy [clause] vars vars₁ := by
      simpa only [hclause] using narrowedBy_applyClause solvers clause vars
    have hfirst : NarrowedBy (clause :: clauses) vars vars₁ := hnarrowed₁.mono (by simp)
    unfold applyAll at h
    rw [hclause] at h
    cases outcome₁ with
    | failed error =>
      cases h
      exact ⟨hfirst, fun h => by cases h⟩
    | unsatisfied =>
      cases h
      exact ⟨hfirst, fun h => by cases h⟩
    | satisfied changed =>
      obtain ⟨vars₂, outcome₂, hrest⟩ : ∃ vars₂ outcome₂,
          applyAll solvers clauses vars₁ = (vars₂, outcome₂) :=
        ⟨_, _, rfl⟩
      obtain ⟨hnarrowed₂, hless₂⟩ := ih hrest
      have hlater : NarrowedBy (clause :: clauses) vars₁ vars₂ :=
        hnarrowed₂.mono fun _ => List.mem_cons_of_mem clause
      simp only [hrest] at h
      cases outcome₂ with
      | failed error =>
        cases h
        exact ⟨hfirst.trans hlater, fun h => by cases h⟩
      | unsatisfied =>
        cases h
        exact ⟨hfirst.trans hlater, fun h => by cases h⟩
      | satisfied changedLater =>
        cases h
        refine ⟨hfirst.trans hlater, fun h => ?_⟩
        rcases Bool.or_eq_true_iff.mp (Outcome.satisfied.inj h) with rfl | rfl
        · -- the first clause has changed something, so the snapshots around it differ
          have hne : vars₁ ≠ vars := by
            rintro rfl
            exact Bool.noConfusion ((changed_eq_false_iff hclause).mpr rfl)
          exact Nat.lt_of_le_of_lt hlater.slack_le.1 (hfirst.slack_lt hne)
        · exact Nat.lt_of_lt_of_le (hless₂ rfl) hfirst.slack_le.1

/-- The rounds end after `n` of them with the variables `vars'` and an answer. Nothing limits their
number: as long as a round changes something, there is a further one. -/
inductive EndsAfter (solvers : Relation → Solver) (clauses : List Clause) :
    Nat → Array Variable → Array Variable → Except QueryError Bool → Prop where
  | failed {vars vars' : Array Variable} {error : QueryError}
      (h : applyAll solvers clauses vars = (vars', .failed error)) :
      EndsAfter solvers clauses 1 vars vars' (.error error)
  | unsatisfied {vars vars' : Array Variable}
      (h : applyAll solvers clauses vars = (vars', .unsatisfied)) :
      EndsAfter solvers clauses 1 vars vars' (.ok false)
  | unchanged {vars vars' : Array Variable}
      (h : applyAll solvers clauses vars = (vars', .satisfied false)) :
      EndsAfter solvers clauses 1 vars vars' (.ok true)
  | changed {n : Nat} {vars vars' vars'' : Array Variable} {answer : Except QueryError Bool}
      (h : applyAll solvers clauses vars = (vars', .satisfied true))
      (hrest : EndsAfter solvers clauses n vars' vars'' answer) :
      EndsAfter solvers clauses (n + 1) vars vars'' answer

/-- Rounds that end have narrowed the variables. -/
theorem EndsAfter.narrowedBy {n : Nat} {answer : Except QueryError Bool}
    (h : EndsAfter solvers clauses n vars vars' answer) : NarrowedBy clauses vars vars' := by
  induction h with
  | failed h => exact (narrowedBy_of_applyAll h).1
  | unsatisfied h => exact (narrowedBy_of_applyAll h).1
  | unchanged h => exact (narrowedBy_of_applyAll h).1
  | changed h _ ih => exact (narrowedBy_of_applyAll h).1.trans ih

/-- **The rounds end by themselves**, after one more than there is slack at most, so a limit above
that is never met. -/
theorem runRounds_ends (solvers : Relation → Solver) (clauses : List Clause) {bound : Nat}
    (hbound : slack vars < bound) : ∃ n, n ≤ slack vars + 1 ∧ EndsAfter solvers clauses n vars
      (runRounds solvers clauses bound vars).1 (runRounds solvers clauses bound vars).2 := by
  induction bound generalizing vars with
  | zero => omega
  | succ bound ih =>
    obtain ⟨vars₁, outcome, hround⟩ : ∃ vars₁ outcome,
      applyAll solvers clauses vars = (vars₁, outcome) := ⟨_, _, rfl⟩
    unfold runRounds
    rw [hround]
    cases outcome with
    | failed error => exact ⟨1, by omega, .failed hround⟩
    | unsatisfied => exact ⟨1, by omega, .unsatisfied hround⟩
    | satisfied changed =>
      cases changed with
      | false => exact ⟨1, by omega, .unchanged hround⟩
      | true =>
        have hless := (narrowedBy_of_applyAll hround).2 rfl
        obtain ⟨n, hn, hends⟩ := ih (show slack vars₁ < bound by omega)
        exact ⟨n + 1, by omega, .changed hround hends⟩

/-! ## Runs -/

/-- **A run with any solvers** ends by itself, after one more round than there is slack at most.
Whatever it answers, the clauses, names and predicates are what they were, and no variable ranges
over more than before. A bound variable stays bound, and wildcards and the variables of no clause
are not touched at all. If the snapshots around a clause are equal, then it has changed nothing; a
satisfied clause says that something has changed exactly if they differ. -/
theorem run_narrows (solvers : Relation → Solver) (query : Query) :
    ∃ (after : Query) (answer : Except QueryError Bool) (n : Nat),
      query.run solvers = (after, answer) ∧
      EndsAfter solvers query.clauses n query.vars after.vars answer ∧ n ≤ slack query.vars + 1 ∧
      after.clauses = query.clauses ∧ after.vars.size = query.vars.size ∧
      (∀ name, after.varNamed? name = query.varNamed? name) ∧
      (∀ (id : VarId) (v : Variable), query.vars[id]? = some v → ∃ v', after.vars[id]? = some v' ∧
        v'.name = v.name ∧ v'.predicate = v.predicate ∧ v'.isWildcard = v.isWildcard ∧
        (∀ c, c ∈ v'.candidates → c ∈ v.candidates) ∧ (v.isBound = true → v'.isBound = true) ∧
        (v.isWildcard = true → v' = v) ∧
        ((∀ clause ∈ query.clauses, clause.left ≠ id ∧ clause.right ≠ id) → v' = v)) ∧
      ∀ (clause : Clause) (vars vars' : Array Variable) (outcome : Outcome),
        applyClause solvers clause vars = (vars', outcome) →
        (snapshot vars' clause = snapshot vars clause → vars' = vars) ∧
        ∀ changed, outcome = .satisfied changed →
          (changed = false ↔ snapshot vars' clause = snapshot vars clause) := by
  obtain ⟨n, hn, hends⟩ :=
    runRounds_ends solvers query.clauses (Nat.lt_succ_self (slack query.vars))
  have hnarrowed := hends.narrowedBy
  refine ⟨(query.run solvers).1, (query.run solvers).2, n, rfl, hends, hn, rfl, hnarrowed.size_eq,
    fun name => rfl, ?_, ?_⟩
  · intro id v hv
    obtain ⟨v', hv', hto⟩ := hnarrowed.exists_var hv
    refine ⟨v', hv', hto.name_eq, hto.predicate_eq, hto.isWildcard_eq, hto.candidates_subset,
      hto.isBound, hto.eq_of_isWildcard, fun hapart => ?_⟩
    exact Option.some.inj (hv'.symm.trans ((hnarrowed.apart id hapart).trans hv))
  · intro clause vars vars' outcome h
    have hclause := narrowedBy_applyClause solvers clause vars
    rw [h] at hclause
    refine ⟨hclause.eq_of_snapshot_eq, ?_⟩
    rintro changed rfl
    exact changed_eq_false_iff h

/-- Solvers that contradict themselves: from the left everything leads to the last statement of the
example program, from the right nothing leads anywhere, and which variables are modified is not
answered. -/
def contradicting : Relation → Solver
  | .modifies => ⟨fun _ => .error (.unreachable 4), fun _ => .ok ∅, fun _ _ => .ok true⟩
  | _ => ⟨fun _ => .ok (.ofStmts [4]), fun _ => .ok ∅, fun _ _ => .ok false⟩

/-- The first clause of the example query narrows the assignments, the second one is refused, and
the run ends with what is left. -/
theorem run_contradicting_narrows :
    ∃ (after : Query) (n : Nat) (v : Variable),
      exampleQuery.run contradicting = (after, .error (.inconsistent (.unreachable 4))) ∧
      EndsAfter contradicting exampleQuery.clauses n exampleQuery.vars after.vars
        (.error (.inconsistent (.unreachable 4))) ∧ n ≤ 6 ∧
      after.vars[1]? = some v ∧ v.name = "a" ∧ v.candidates = .ofStmts [4] ∧
      after.vars[2]? = exampleQuery.vars[2]? := by
  obtain ⟨after, answer, n, hrun, hends, hn, -, -, -, hvars, -⟩ :=
    run_narrows contradicting exampleQuery
  obtain ⟨v, hv, hname, -⟩ := hvars 1 _ rfl
  obtain ⟨w, hw, -, -, -, -, -, hwild, -⟩ := hvars 2 _ rfl
  have hanswer : (exampleQuery.run contradicting).2 = .error (.inconsistent (.unreachable 4)) := by
    decide +kernel
  have hleft : (exampleQuery.run contradicting).1.vars[1]?.map Variable.candidates =
      some (.ofStmts [4]) := by
    decide +kernel
  rw [hrun] at hanswer hleft
  cases hanswer
  rw [hv] at hleft
  refine ⟨after, n, v, hrun, hends, hn, hv, hname, Option.some.inj hleft, ?_⟩
  rw [hw, hwild rfl]
  rfl

end Query

end ProgramQuery
