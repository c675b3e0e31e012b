import Mathlib.Order.Bounds.Basic
import Mathlib.Data.Set.Basic
import ProgramQuery.Proofs.ClauseNarrowing
import ProgramQuery.Proofs.SolverAgreement

/-!
# Queries find the largest consistent family

A family has a set of candidates for each variable of a query. It is consistent (`Query.Consistent`)
if wildcards keep all that they range over, named variables have candidates among theirs, and every
clause supports the candidates of its named variables: each of them has a partner on the other side,
or is in the relation with itself. The union of all consistent families is the largest one
(`isGreatest_largest`).

Applying a clause takes away only candidates that no consistent family has (`Applied.keeps`), and so
do all rounds of a run. A round that changes nothing leaves a family that is itself consistent,
hence the largest one. Rounds that change something lower the slack of the variables, so the rounds
that a run may take are enough (`runRounds_eq`). What a query answers is therefore a property of the
largest family, and the order of its clauses does not matter (`run_largest`).
-/

set_option autoImplicit false

namespace ProgramQuery

/-! ## Families of candidates -/

namespace Query

/-- The variable of a number is declared and not a wildcard. -/
def IsNamed (vars : Array Variable) (id : VarId) : Prop :=
  ∃ v, vars[id]? = some v ∧ v.isWildcard = false

/-- What the variables range over. -/
def candidatesOf (vars : Array Variable) (id : VarId) : Set Condition :=
  {c | ∃ v, vars[id]? = some v ∧ c ∈ v.candidates}

end Query

/-- The named variables of a clause have only candidates that the clause supports. -/
structure Clause.Closed (R : Relation → Condition → Condition → Prop) (named : VarId → Prop)
    (family : VarId → Set Condition) (clause : Clause) : Prop where
  left : clause.left ≠ clause.right → named clause.left → ∀ c ∈ family clause.left,
    ∃ d ∈ family clause.right, R clause.relation c d
  right : clause.left ≠ clause.right → named clause.right → ∀ d ∈ family clause.right,
    ∃ c ∈ family clause.left, R clause.relation c d
  self : clause.left = clause.right → named clause.left → ∀ c ∈ family clause.left,
    R clause.relation c c

/-- A clause has a pair in a family. If both sides are the same variable, they have the same
value. -/
def Clause.Satisfied (R : Relation → Condition → Condition → Prop) (family : VarId → Set Condition)
    (clause : Clause) : Prop :=
  ∃ c ∈ family clause.left, ∃ d ∈ family clause.right, R clause.relation c d ∧
    (clause.left = clause.right → c = d)

/-- A pair of a family remains one in a larger family. -/
theorem Clause.Satisfied.mono {R : Relation → Condition → Condition → Prop}
    {family family' : VarId → Set Condition} {clause : Clause} (h : clause.Satisfied R family)
    (hsub : ∀ id, family id ⊆ family' id) : clause.Satisfied R family' := by
  obtain ⟨c, hc, d, hd, hR⟩ := h
  exact ⟨c, hsub _ hc, d, hsub _ hd, hR⟩

namespace Query

/-- A declared variable ranges over its candidates. -/
theorem mem_candidatesOf {vars : Array Variable} {id : VarId} {v : Variable} {c : Condition}
    (hv : vars[id]? = some v) : c ∈ candidatesOf vars id ↔ c ∈ v.candidates := by
  simp [candidatesOf, hv]

/-- A family within the candidates of the variables, with all those of wildcards, that every clause
supports. -/
structure Consistent (R : Relation → Condition → Condition → Prop) (vars : Array Variable)
    (clauses : List Clause) (family : VarId → Set Condition) : Prop where
  within : ∀ id, family id ⊆ candidatesOf vars id
  wildcard : ∀ id, ¬ IsNamed vars id → candidatesOf vars id ⊆ family id
  closed : ∀ clause ∈ clauses, clause.Closed R (IsNamed vars) family

/-- The union of all consistent families. -/
def largest (R : Relation → Condition → Condition → Prop) (vars : Array Variable)
    (clauses : List Clause) (id : VarId) : Set Condition :=
  {c | ∃ family, Consistent R vars clauses family ∧ c ∈ family id}

variable {R : Relation → Condition → Condition → Prop} {vars vars' vars'' : Array Variable}
  {clauses : List Clause} {clause : Clause}

/-- The union of all consistent families is consistent itself, and the greatest of them. -/
theorem isGreatest_largest (R : Relation → Condition → Condition → Prop) (vars : Array Variable)
    (clauses : List Clause) :
    IsGreatest {family | Consistent R vars clauses family} (largest R vars clauses) := by
  refine ⟨⟨?_, ?_, ?_⟩, ?_⟩
  · rintro id c ⟨family, hfamily, hc⟩
    exact hfamily.within id hc
  · -- the family without candidates of named variables is consistent
    intro id hid c hc
    refine ⟨fun id => {c | c ∈ candidatesOf vars id ∧ ¬ IsNamed vars id}, ⟨?_, ?_, ?_⟩, hc, hid⟩
    · intro id c hc
      exact hc.1
    · intro id hid c hc
      exact ⟨hc, hid⟩
    · intro clause _
      refine ⟨?_, ?_, ?_⟩
      · intro _ hnamed c hc
        exact absurd hnamed hc.2
      · intro _ hnamed c hc
        exact absurd hnamed hc.2
      · intro _ hnamed c hc
        exact absurd hnamed hc.2
  · intro clause hclause
    refine ⟨?_, ?_, ?_⟩
    · rintro hne hnamed c ⟨family, hfamily, hc⟩
      obtain ⟨d, hd, hR⟩ := (hfamily.closed clause hclause).left hne hnamed c hc
      exact ⟨d, ⟨family, hfamily, hd⟩, hR⟩
    · rintro hne hnamed d ⟨family, hfamily, hd⟩
      obtain ⟨c, hc, hR⟩ := (hfamily.closed clause hclause).right hne hnamed d hd
      exact ⟨c, ⟨family, hfamily, hc⟩, hR⟩
    · rintro heq hnamed c ⟨family, hfamily, hc⟩
      exact (hfamily.closed clause hclause).self heq hnamed c hc
  · intro family hfamily id c hc
    exact ⟨family, hfamily, hc⟩

/-! ## Narrowing -/

/-- The variables are the same but for candidates that were taken away from named ones. -/
structure Narrows (vars vars' : Array Variable) : Prop where
  size_eq : vars'.size = vars.size
  named_eq : IsNamed vars' = IsNamed vars
  within : ∀ id, candidatesOf vars' id ⊆ candidatesOf vars id
  wildcard : ∀ id, ¬ IsNamed vars id → candidatesOf vars id ⊆ candidatesOf vars' id
  slack_le : slack vars' ≤ slack vars

/-- Taking nothing away is narrowing. -/
theorem Narrows.refl (vars : Array Variable) : Narrows vars vars :=
  ⟨rfl, rfl, fun _ _ hc => hc, fun _ _ _ hc => hc, Nat.le_refl _⟩

/-- Narrowing twice is narrowing. -/
theorem Narrows.trans (h : Narrows vars vars') (h' : Narrows vars' vars'') :
    Narrows vars vars'' := by
  refine ⟨h'.size_eq.trans h.size_eq, h'.named_eq.trans h.named_eq, ?_, ?_, ?_⟩
  · intro id c hc
    exact h.within id (h'.within id hc)
  · intro id hid c hc
    apply h'.wildcard id
    · rw [h.named_eq]
      exact hid
    · exact h.wildcard id hid hc
  · exact Nat.le_trans h'.slack_le h.slack_le

/-- Replacing a variable changes the slack by the difference of the two. -/
theorem slack_setIfInBounds {id : VarId} {v v' : Variable} (hv : vars[id]? = some v) :
    slack (vars.setIfInBounds id v') + v.slack = slack vars + v'.slack := by
  have hlist : ∀ (l : List Variable) (i : Nat), l[i]? = some v →
      (l.set i v').foldr (fun v total => v.slack + total) 0 + v.slack =
        l.foldr (fun v total => v.slack + total) 0 + v'.slack := by
    intro l
    induction l with
    | nil => simp
    | cons w l ih =>
      intro i hi
      cases i with
      | zero =>
        have hw : w = v := by simpa using hi
        subst hw
        simp only [List.set_cons_zero, List.foldr_cons]
        omega
      | succ i =>
        have hrest := ih i (by simpa using hi)
        simp only [List.set_cons_succ, List.foldr_cons]
        omega
  unfold slack
  rw [Array.toList_setIfInBounds]
  exact hlist vars.toList id (by simpa using hv)

/-- Replacing a variable changes no other one. -/
theorem getElem?_setIfInBounds {id : VarId} {v v' : Variable} (hv : vars[id]? = some v)
    (i : VarId) :
    (vars.setIfInBounds id v')[i]? = if i = id then some v' else vars[i]? := by
  obtain ⟨hlt, -⟩ := Array.getElem?_eq_some_iff.mp hv
  rw [Array.getElem?_setIfInBounds]
  by_cases hi : i = id
  · subst hi
    simp [hlt]
  · have hne : ¬ id = i := fun h => hi h.symm
    simp [hi, hne]

/-- Taking candidates away from one variable. -/
theorem narrows_setIfInBounds {id : VarId} {v : Variable} {set : ConditionSet}
    (hv : vars[id]? = some v) (hset : ∀ c, c ∈ set → c ∈ v.candidates) :
    Narrows vars (vars.setIfInBounds id (v.assign set)) := by
  refine ⟨by simp, ?_, ?_, ?_, ?_⟩
  · funext i
    apply propext
    unfold IsNamed
    rw [getElem?_setIfInBounds hv]
    by_cases hi : i = id
    · subst hi
      simp [hv]
    · simp [hi]
  · rintro i c ⟨w, hw, hc⟩
    rw [getElem?_setIfInBounds hv] at hw
    by_cases hi : i = id
    · subst hi
      rw [if_pos rfl] at hw
      cases hw
      exact ⟨v, hv, Variable.candidates_assign_subset hset c hc⟩
    · rw [if_neg hi] at hw
      exact ⟨w, hw, hc⟩
  · rintro i hnamed c ⟨w, hw, hc⟩
    by_cases hi : i = id
    · subst hi
      rw [hv] at hw
      cases hw
      have hwild : v.isWildcard = true := by
        cases hkind : v.isWildcard with
        | true => rfl
        | false => exact absurd ⟨v, hv, hkind⟩ hnamed
      refine ⟨v, ?_, hc⟩
      rw [getElem?_setIfInBounds hv, if_pos rfl, Variable.assign_of_isWildcard hwild]
    · refine ⟨w, ?_, hc⟩
      rw [getElem?_setIfInBounds hv, if_neg hi]
      exact hw
  · have hslack : slack (vars.setIfInBounds id (v.assign set)) + v.slack =
        slack vars + (v.assign set).slack := slack_setIfInBounds hv
    have hle := Variable.slack_assign_le hset
    omega

/-- A family stays within the candidates if the variable that is narrowed keeps it. -/
theorem subset_setIfInBounds {family : VarId → Set Condition} {id : VarId} {v : Variable}
    {set : ConditionSet} (hv : vars[id]? = some v) (hsub : ∀ i, family i ⊆ candidatesOf vars i)
    (hkeeps : IsNamed vars id → ∀ c ∈ family id, c ∈ set) (i : VarId) :
    family i ⊆ candidatesOf (vars.setIfInBounds id (v.assign set)) i := by
  intro c hc
  obtain ⟨w, hw, hcw⟩ := hsub i hc
  unfold candidatesOf
  rw [Set.mem_ofPred_eq, getElem?_setIfInBounds hv]
  by_cases hi : i = id
  · subst hi
    rw [if_pos rfl]
    rw [hv] at hw
    cases hw
    refine ⟨v.assign set, rfl, ?_⟩
    cases hkind : v.isWildcard with
    | true =>
      rw [Variable.assign_of_isWildcard hkind]
      exact hcw
    | false =>
      rw [Variable.candidates_assign hkind]
      exact hkeeps ⟨v, hv, hkind⟩ c hc
  · rw [if_neg hi]
    exact ⟨w, hw, hcw⟩

/-- Replacing a variable with itself changes nothing. -/
theorem setIfInBounds_self {id : VarId} {v : Variable} (hv : vars[id]? = some v) :
    vars.setIfInBounds id v = vars := by
  apply Array.ext_getElem?
  intro i
  rw [getElem?_setIfInBounds hv]
  by_cases hi : i = id
  · subst hi
    rw [if_pos rfl, hv]
  · rw [if_neg hi]

/-! ## One clause -/

/-- What applying a clause does. It keeps every family that the clause supports. Without a pair it
is left unsatisfied; otherwise it changes something and lowers the slack, or the clause supports all
candidates as they are. -/
structure Applied (R : Relation → Condition → Condition → Prop) (clause : Clause)
    (vars vars' : Array Variable) (outcome : Outcome) : Prop where
  narrows : Narrows vars vars'
  keeps : ∀ family, clause.Closed R (IsNamed vars) family →
    (∀ id, family id ⊆ candidatesOf vars id) → ∀ id, family id ⊆ candidatesOf vars' id
  ends : outcome = .unsatisfied ∧ ¬ clause.Satisfied R (candidatesOf vars) ∨
    ∃ changed, outcome = .satisfied changed ∧ clause.Satisfied R (candidatesOf vars) ∧
      (changed = true → slack vars' < slack vars) ∧
      (changed = false → vars' = vars ∧ clause.Closed R (IsNamed vars) (candidatesOf vars))

/-- How a clause ends is told by the candidates that are left of its pairs. -/
theorem ends_ofAnswer {left : ConditionSet} {changed : Bool}
    (hsatisfied : clause.Satisfied R (candidatesOf vars) ↔ ∃ c, c ∈ left)
    (hless : changed = true → slack vars' < slack vars)
    (hsame : changed = false → vars' = vars ∧ clause.Closed R (IsNamed vars) (candidatesOf vars)) :
    Outcome.ofAnswer changed (.ok !left.isEmpty) = .unsatisfied ∧
        ¬ clause.Satisfied R (candidatesOf vars) ∨
      ∃ changed', Outcome.ofAnswer changed (.ok !left.isEmpty) = .satisfied changed' ∧
        clause.Satisfied R (candidatesOf vars) ∧ (changed' = true → slack vars' < slack vars) ∧
        (changed' = false → vars' = vars ∧ clause.Closed R (IsNamed vars) (candidatesOf vars)) := by
  cases hempty : left.isEmpty with
  | true =>
    left
    refine ⟨rfl, ?_⟩
    rw [hsatisfied]
    rintro ⟨c, hc⟩
    exact SortedSet.isEmpty_iff.mp hempty c hc
  | false =>
    right
    exact ⟨changed, rfl, hsatisfied.mpr (SortedSet.isEmpty_eq_false_iff.mp hempty), hless, hsame⟩

variable {solvers : Relation → Solver} {p : Program}

/-- A clause with the same variable on both sides. -/
theorem applied_self (hdecides : ∀ rel, (solvers rel).Decides p (R rel))
    (hvars : ∀ id, ∀ c ∈ candidatesOf vars id, c.In p) {v : Variable}
    (hv : vars[clause.left]? = some v) (hsame : clause.left = clause.right) :
    ∃ vars' outcome, applyClause solvers clause vars = (vars', outcome) ∧
      Applied R clause vars vars' outcome := by
  have hin : ∀ c ∈ v.candidates.toList, c.In p := by
    intro c hc
    exact hvars clause.left c ((mem_candidatesOf hv).mpr (SortedSet.mem_toList.mp hc))
  obtain ⟨kept, heq, hmem⟩ := (hdecides clause.relation).selfRelated_eq hin ∅
  replace hmem : ∀ c, c ∈ kept ↔ c ∈ v.candidates ∧ R clause.relation c c := by
    intro c
    rw [hmem]
    simp
  have hset : ∀ c, c ∈ kept → c ∈ v.candidates := fun c hc => ((hmem c).mp hc).1
  have hsatisfied : clause.Satisfied R (candidatesOf vars) ↔ ∃ c, c ∈ kept := by
    constructor
    · rintro ⟨c, hc, d, -, hR, hcd⟩
      cases hcd hsame
      exact ⟨c, (hmem c).mpr ⟨(mem_candidatesOf hv).mp hc, hR⟩⟩
    · rintro ⟨c, hc⟩
      obtain ⟨hcv, hR⟩ := (hmem c).mp hc
      have hcl : c ∈ candidatesOf vars clause.left := (mem_candidatesOf hv).mpr hcv
      exact ⟨c, hcl, c, hsame ▸ hcl, hR, fun _ => rfl⟩
  refine ⟨vars.setIfInBounds clause.left (v.assign kept),
    .ofAnswer (extent (v.assign kept) != extent v) (.ok !kept.isEmpty), ?_, ?_, ?_,
    ends_ofAnswer hsatisfied ?_ ?_⟩
  · unfold applyClause
    rw [← hsame, hv]
    simp only [if_true, Solver.evaluateSelf, heq]
  · exact narrows_setIfInBounds hv hset
  · intro family hclosed hsub
    refine subset_setIfInBounds hv hsub fun hnamed c hc => ?_
    exact (hmem c).mpr ⟨(mem_candidatesOf hv).mp (hsub _ hc), hclosed.self hsame hnamed c hc⟩
  · intro hchanged
    have hextent : extent (v.assign kept) ≠ extent v := by simpa using hchanged
    have hslack : slack (vars.setIfInBounds clause.left (v.assign kept)) + v.slack =
        slack vars + (v.assign kept).slack := slack_setIfInBounds hv
    have hlt := Variable.slack_assign_lt hset hextent
    omega
  · intro hchanged
    have hextent : extent (v.assign kept) = extent v := by simpa using hchanged
    have hself := Variable.assign_eq_self hset hextent
    refine ⟨by rw [hself, setIfInBounds_self hv], ?_, ?_, ?_⟩
    · intro hne
      exact absurd hsame hne
    · intro hne
      exact absurd hsame hne
    · rintro - ⟨w, hw, hkind⟩ c hc
      rw [hv] at hw
      cases hw
      rw [mem_candidatesOf hv, Variable.candidates_of_assign_eq_self hself hkind] at hc
      exact ((hmem c).mp hc).2

/-- A clause with different variables. -/
theorem applied_pair (hdecides : ∀ rel, (solvers rel).Decides p (R rel))
    (hvars : ∀ id, ∀ c ∈ candidatesOf vars id, c.In p) {left right : Variable}
    (hleft : vars[clause.left]? = some left) (hright : vars[clause.right]? = some right)
    (hne : clause.left ≠ clause.right) :
    ∃ vars' outcome, applyClause solvers clause vars = (vars', outcome) ∧
      Applied R clause vars vars' outcome := by
  obtain ⟨lefts, rights, heq, hmemLeft, hmemRight⟩ :=
    (hdecides clause.relation).narrow_eq (right.isBound && !left.isBound)
      (fun c hc => hvars _ c ((mem_candidatesOf hleft).mpr hc))
      fun d hd => hvars _ d ((mem_candidatesOf hright).mpr hd)
  have hsetLeft : ∀ c, c ∈ lefts → c ∈ left.candidates := fun c hc => ((hmemLeft c).mp hc).1
  have hsetRight : ∀ d, d ∈ rights → d ∈ right.candidates := fun d hd => ((hmemRight d).mp hd).1
  have hsatisfied : clause.Satisfied R (candidatesOf vars) ↔ ∃ c, c ∈ lefts := by
    constructor
    · rintro ⟨c, hc, d, hd, hR, -⟩
      exact ⟨c, (hmemLeft c).mpr
        ⟨(mem_candidatesOf hleft).mp hc, d, (mem_candidatesOf hright).mp hd, hR⟩⟩
    · rintro ⟨c, hc⟩
      obtain ⟨hcl, d, hd, hR⟩ := (hmemLeft c).mp hc
      exact ⟨c, (mem_candidatesOf hleft).mpr hcl, d, (mem_candidatesOf hright).mpr hd, hR,
        fun h => absurd h hne⟩
  -- the right variable is still there when the left one has been replaced
  have hright' : (vars.setIfInBounds clause.left (left.assign lefts))[clause.right]? =
      some right := by
    rw [getElem?_setIfInBounds hleft, if_neg hne.symm]
    exact hright
  have hnarrows := narrows_setIfInBounds hleft hsetLeft
  refine ⟨(vars.setIfInBounds clause.left (left.assign lefts)).setIfInBounds clause.right
      (right.assign rights),
    .ofAnswer
      (extent (left.assign lefts) != extent left || extent (right.assign rights) != extent right)
      (.ok !lefts.isEmpty), ?_, ?_, ?_, ends_ofAnswer hsatisfied ?_ ?_⟩
  · unfold applyClause
    rw [hleft, hright]
    simp only [if_neg hne, Solver.evaluate, heq]
  · exact hnarrows.trans (narrows_setIfInBounds hright' hsetRight)
  · intro family hclosed hsub
    refine subset_setIfInBounds hright' ?_ ?_
    · refine subset_setIfInBounds hleft hsub fun hnamed c hc => ?_
      obtain ⟨d, hd, hR⟩ := hclosed.left hne hnamed c hc
      exact (hmemLeft c).mpr
        ⟨(mem_candidatesOf hleft).mp (hsub _ hc), d, (mem_candidatesOf hright).mp (hsub _ hd), hR⟩
    · rw [hnarrows.named_eq]
      intro hnamed d hd
      obtain ⟨c, hc, hR⟩ := hclosed.right hne hnamed d hd
      exact (hmemRight d).mpr
        ⟨(mem_candidatesOf hright).mp (hsub _ hd), c, (mem_candidatesOf hleft).mp (hsub _ hc), hR⟩
  · intro hchanged
    have hslackLeft : slack (vars.setIfInBounds clause.left (left.assign lefts)) + left.slack =
        slack vars + (left.assign lefts).slack := slack_setIfInBounds hleft
    have hslackRight : slack ((vars.setIfInBounds clause.left (left.assign lefts)).setIfInBounds
        clause.right (right.assign rights)) + right.slack =
          slack (vars.setIfInBounds clause.left (left.assign lefts)) +
            (right.assign rights).slack := slack_setIfInBounds hright'
    have hleLeft := Variable.slack_assign_le hsetLeft
    have hleRight := Variable.slack_assign_le hsetRight
    have hextent : extent (left.assign lefts) ≠ extent left ∨
        extent (right.assign rights) ≠ extent right := by simpa using hchanged
    rcases hextent with hextent | hextent
    · have hlt := Variable.slack_assign_lt hsetLeft hextent
      omega
    · have hlt := Variable.slack_assign_lt hsetRight hextent
      omega
  · intro hchanged
    have hextent : extent (left.assign lefts) = extent left ∧
        extent (right.assign rights) = extent right := by simpa using hchanged
    have hselfLeft := Variable.assign_eq_self hsetLeft hextent.1
    have hselfRight := Variable.assign_eq_self hsetRight hextent.2
    refine ⟨?_, ?_, ?_, ?_⟩
    · rw [hselfLeft, hselfRight, setIfInBounds_self hleft, setIfInBounds_self hright]
    · rintro - ⟨w, hw, hkind⟩ c hc
      rw [hleft] at hw
      cases hw
      rw [mem_candidatesOf hleft, Variable.candidates_of_assign_eq_self hselfLeft hkind] at hc
      obtain ⟨-, d, hd, hR⟩ := (hmemLeft c).mp hc
      exact ⟨d, (mem_candidatesOf hright).mpr hd, hR⟩
    · rintro - ⟨w, hw, hkind⟩ d hd
      rw [hright] at hw
      cases hw
      rw [mem_candidatesOf hright, Variable.candidates_of_assign_eq_self hselfRight hkind] at hd
      obtain ⟨-, c, hc, hR⟩ := (hmemRight d).mp hd
      exact ⟨c, (mem_candidatesOf hleft).mpr hc, hR⟩
    · intro hsame
      exact absurd hsame hne

/-! ## Rounds -/

/-- The clauses can be applied: their variables are declared, and range over conditions of the
program. -/
structure Ready (p : Program) (clauses : List Clause) (vars : Array Variable) : Prop where
  of_program : ∀ id, ∀ c ∈ candidatesOf vars id, c.In p
  declared : ∀ clause ∈ clauses, clause.left < vars.size ∧ clause.right < vars.size

/-- Clauses that can be applied still can after narrowing. -/
theorem Ready.narrow (h : Ready p clauses vars) (hnarrows : Narrows vars vars') :
    Ready p clauses vars' := by
  refine ⟨?_, ?_⟩
  · intro id c hc
    exact h.of_program id c (hnarrows.within id hc)
  · rw [hnarrows.size_eq]
    exact h.declared

/-- A clause that can be applied succeeds, and does what it should. -/
theorem Ready.applyClause_eq (h : Ready p clauses vars)
    (hdecides : ∀ rel, (solvers rel).Decides p (R rel)) (hclause : clause ∈ clauses) :
    ∃ vars' outcome, applyClause solvers clause vars = (vars', outcome) ∧
      Applied R clause vars vars' outcome := by
  obtain ⟨hl, hr⟩ := h.declared clause hclause
  have hleft := Array.getElem?_eq_getElem hl
  have hright := Array.getElem?_eq_getElem hr
  by_cases hsame : clause.left = clause.right
  · exact applied_self hdecides h.of_program hleft hsame
  · exact applied_pair hdecides h.of_program hleft hright hsame

/-- What applying all clauses does, as for one clause. If a clause is left without a pair, no family
that all clauses support has pairs for all of them. -/
structure AppliedAll (R : Relation → Condition → Condition → Prop) (clauses : List Clause)
    (vars vars' : Array Variable) (outcome : Outcome) : Prop where
  narrows : Narrows vars vars'
  keeps : ∀ family, (∀ clause ∈ clauses, clause.Closed R (IsNamed vars) family) →
    (∀ id, family id ⊆ candidatesOf vars id) → ∀ id, family id ⊆ candidatesOf vars' id
  ends : outcome = .unsatisfied ∧ (∀ family,
      (∀ clause ∈ clauses, clause.Closed R (IsNamed vars) family) →
        (∀ id, family id ⊆ candidatesOf vars id) →
        ∃ clause ∈ clauses, ¬ clause.Satisfied R family) ∨
    ∃ changed, outcome = .satisfied changed ∧ (changed = true → slack vars' < slack vars) ∧
      (changed = false → vars' = vars ∧ ∀ clause ∈ clauses,
        clause.Closed R (IsNamed vars) (candidatesOf vars) ∧
          clause.Satisfied R (candidatesOf vars))

/-- Going through the clauses composes what each of them does. -/
theorem Ready.applyAll_eq (h : Ready p clauses vars)
    (hdecides : ∀ rel, (solvers rel).Decides p (R rel)) :
    ∃ vars' outcome, applyAll solvers clauses vars = (vars', outcome) ∧
      AppliedAll R clauses vars vars' outcome := by
  induction clauses generalizing vars with
  | nil =>
    refine ⟨vars, .satisfied false, rfl, Narrows.refl vars, fun family _ hsub => hsub, ?_⟩
    right
    exact ⟨false, rfl, by simp, by simp⟩
  | cons clause clauses ih =>
    obtain ⟨vars₁, outcome₁, heq₁, happlied⟩ := h.applyClause_eq hdecides List.mem_cons_self
    have hnarrows := happlied.narrows
    rcases happlied.ends with ⟨rfl, hnone⟩ | ⟨changed₁, rfl, hpair, hless₁, hsame₁⟩
    · -- the first clause has no pair left
      refine ⟨vars₁, .unsatisfied, ?_, hnarrows, ?_, ?_⟩
      · unfold applyAll
        rw [heq₁]
      · intro family hclosed hsub
        exact happlied.keeps family (hclosed clause List.mem_cons_self) hsub
      · left
        refine ⟨rfl, fun family _ hsub => ⟨clause, List.mem_cons_self, ?_⟩⟩
        intro hsatisfied
        exact hnone (hsatisfied.mono hsub)
    · have hready : Ready p clauses vars₁ := by
        refine Ready.narrow ⟨h.of_program, ?_⟩ hnarrows
        intro other hother
        exact h.declared other (List.mem_cons_of_mem clause hother)
      obtain ⟨vars₂, outcome₂, heq₂, hall⟩ := ih hready
      -- a family that all clauses support is kept by the first one, and supported by the others
      have hfirst : ∀ family, (∀ other ∈ clause :: clauses, other.Closed R (IsNamed vars) family) →
          (∀ id, family id ⊆ candidatesOf vars id) →
          (∀ other ∈ clauses, other.Closed R (IsNamed vars₁) family) ∧
            ∀ id, family id ⊆ candidatesOf vars₁ id := by
        intro family hclosed hsub
        refine ⟨?_, happlied.keeps family (hclosed clause List.mem_cons_self) hsub⟩
        intro other hother
        rw [hnarrows.named_eq]
        exact hclosed other (List.mem_cons_of_mem clause hother)
      have hkeeps : ∀ family, (∀ other ∈ clause :: clauses, other.Closed R (IsNamed vars) family) →
          (∀ id, family id ⊆ candidatesOf vars id) → ∀ id, family id ⊆ candidatesOf vars₂ id := by
        intro family hclosed hsub
        obtain ⟨hclosed₁, hsub₁⟩ := hfirst family hclosed hsub
        exact hall.keeps family hclosed₁ hsub₁
      rcases hall.ends with ⟨rfl, hnone⟩ | ⟨changed₂, rfl, hless₂, hsame₂⟩
      · refine ⟨vars₂, .unsatisfied, ?_, hnarrows.trans hall.narrows, hkeeps, ?_⟩
        · unfold applyAll
          rw [heq₁]
          simp only [heq₂]
        · left
          refine ⟨rfl, fun family hclosed hsub => ?_⟩
          obtain ⟨hclosed₁, hsub₁⟩ := hfirst family hclosed hsub
          obtain ⟨other, hother, hunsatisfied⟩ := hnone family hclosed₁ hsub₁
          exact ⟨other, List.mem_cons_of_mem clause hother, hunsatisfied⟩
      · refine ⟨vars₂, .satisfied (changed₁ || changed₂), ?_, hnarrows.trans hall.narrows, hkeeps,
          ?_⟩
        · unfold applyAll
          rw [heq₁]
          simp only [heq₂]
        · right
          refine ⟨_, rfl, ?_, ?_⟩
          · intro hchanged
            have hle₁ := hnarrows.slack_le
            have hle₂ := hall.narrows.slack_le
            rcases Bool.or_eq_true_iff.mp hchanged with hchanged | hchanged
            · have hlt := hless₁ hchanged
              omega
            · have hlt := hless₂ hchanged
              omega
          · intro hchanged
            obtain ⟨hchanged₁, hchanged₂⟩ := Bool.or_eq_false_iff.mp hchanged
            obtain ⟨rfl, hclosed⟩ := hsame₁ hchanged₁
            obtain ⟨rfl, hrest⟩ := hsame₂ hchanged₂
            refine ⟨rfl, ?_⟩
            intro other hother
            rcases List.mem_cons.mp hother with rfl | hother
            · exact ⟨hclosed, hpair⟩
            · exact hrest other hother

/-- **The rounds end**, and within the slack of the variables. If the answer is no, no family that
all clauses support has pairs for all of them. If it is yes, the candidates that are left are such a
family, and contain all others. -/
theorem Ready.runRounds_eq (h : Ready p clauses vars)
    (hdecides : ∀ rel, (solvers rel).Decides p (R rel)) {bound : Nat}
    (hbound : slack vars < bound) :
    ∃ vars' b, runRounds solvers clauses bound vars = (vars', .ok b) ∧ Narrows vars vars' ∧
      (∀ family, (∀ clause ∈ clauses, clause.Closed R (IsNamed vars) family) →
        (∀ id, family id ⊆ candidatesOf vars id) →
        (b = true → ∀ id, family id ⊆ candidatesOf vars' id) ∧
          (b = false → ∃ clause ∈ clauses, ¬ clause.Satisfied R family)) ∧
      (b = true → ∀ clause ∈ clauses, clause.Closed R (IsNamed vars) (candidatesOf vars') ∧
        clause.Satisfied R (candidatesOf vars')) := by
  induction bound generalizing vars with
  | zero => omega
  | succ bound ih =>
    obtain ⟨vars₁, outcome, heq, hall⟩ := h.applyAll_eq hdecides
    rcases hall.ends with ⟨rfl, hnone⟩ | ⟨changed, rfl, hless, hsame⟩
    · refine ⟨vars₁, false, ?_, hall.narrows, ?_, by simp⟩
      · unfold runRounds
        rw [heq]
      · intro family hclosed hsub
        exact ⟨by simp, fun _ => hnone family hclosed hsub⟩
    · cases changed with
      | false =>
        obtain ⟨rfl, hclosed⟩ := hsame rfl
        refine ⟨vars₁, true, ?_, Narrows.refl vars₁, ?_, fun _ => hclosed⟩
        · unfold runRounds
          rw [heq]
        · intro family _ hsub
          exact ⟨fun _ => hsub, by simp⟩
      | true =>
        have hlt := hless rfl
        obtain ⟨vars₂, b, heq₂, hnarrows, hfamilies, hyes⟩ :=
          ih (h.narrow hall.narrows) (by omega)
        rw [hall.narrows.named_eq] at hfamilies hyes
        refine ⟨vars₂, b, ?_, hall.narrows.trans hnarrows, ?_, hyes⟩
        · unfold runRounds
          rw [heq]
          exact heq₂
        · intro family hclosed hsub
          exact hfamilies family hclosed (hall.keeps family hclosed hsub)

/-! ## Runs -/

/-- A query whose clauses can be applied is answered by whether its largest consistent family has
pairs for all clauses, and with yes it leaves that family. -/
theorem Ready.run_eq (query : Query) (h : Ready p query.clauses query.vars)
    (hdecides : ∀ rel, (solvers rel).Decides p (R rel)) :
    ∃ b, (query.run solvers).2 = .ok b ∧
      (b = true ↔ ∀ clause ∈ query.clauses,
        clause.Satisfied R (largest R query.vars query.clauses)) ∧
      (b = true → ∀ id, candidatesOf (query.run solvers).1.vars id =
        largest R query.vars query.clauses id) := by
  obtain ⟨hlargest, hgreatest⟩ := isGreatest_largest R query.vars query.clauses
  obtain ⟨vars', b, heq, hnarrows, hfamilies, hyes⟩ :=
    h.runRounds_eq hdecides (Nat.lt_succ_self (slack query.vars))
  have hrun : query.run solvers = ({ query with vars := vars' }, .ok b) := by
    unfold run
    rw [heq]
  obtain ⟨hkept, hunsatisfied⟩ := hfamilies _ hlargest.closed hlargest.within
  -- the candidates that are left when nothing changes are a consistent family
  have hleft : b = true → candidatesOf vars' = largest R query.vars query.clauses := by
    intro hb
    have hconsistent : Consistent R query.vars query.clauses (candidatesOf vars') :=
      ⟨hnarrows.within, hnarrows.wildcard, fun clause hclause => (hyes hb clause hclause).1⟩
    funext id
    exact Set.Subset.antisymm (hgreatest hconsistent id) (hkept hb id)
  rw [hrun]
  refine ⟨b, rfl, ?_, ?_⟩
  · constructor
    · intro hb clause hclause
      rw [← hleft hb]
      exact (hyes hb clause hclause).2
    · intro hall
      by_contra hb
      obtain ⟨clause, hclause, hnot⟩ := hunsatisfied (Bool.eq_false_iff.mpr hb)
      exact hnot (hall clause hclause)
  · intro hb id
    rw [← hleft hb]

/-- **What a query answers**. Over the conditions of a program every query is answered. The answer
is yes exactly if every clause has a pair in the largest consistent family, and then the variables
are left with that family. So the order of the clauses, and how often each of them stands there,
does not matter. -/
theorem run_largest (h : p.Built) (settings : Settings) (query : Query)
    (hvars : ∀ id, ∀ c ∈ candidatesOf query.vars id, c.In p)
    (hclauses : ∀ clause ∈ query.clauses,
      clause.left < query.vars.size ∧ clause.right < query.vars.size) :
    ∃ (a : Analysis) (G : VarId → Set Condition) (b : Bool),
      Analysis.ofProgram settings p = .ok a ∧
      IsGreatest {family | Consistent p.Related query.vars query.clauses family} G ∧
      (query.run a.solvers).2 = .ok b ∧
      (b = true ↔ ∀ clause ∈ query.clauses, clause.Satisfied p.Related G) ∧
      (b = true → ∀ id, candidatesOf (query.run a.solvers).1.vars id = G id) ∧
      ∀ clauses : List Clause, (∀ clause, clause ∈ clauses ↔ clause ∈ query.clauses) →
        ({ query with clauses := clauses }.run a.solvers).2 = .ok b ∧
        (b = true → ∀ id,
          candidatesOf ({ query with clauses := clauses }.run a.solvers).1.vars id = G id) := by
  obtain ⟨a, hmade, -, hdecides⟩ := Analysis.decides_ofProgram h.wellFormed
  have hready : Ready p query.clauses query.vars := ⟨hvars, hclauses⟩
  obtain ⟨b, hrun, hiff, hleft⟩ := hready.run_eq query hdecides
  refine ⟨a, largest p.Related query.vars query.clauses, b, hmade settings,
    isGreatest_largest _ _ _, hrun, hiff, hleft, ?_⟩
  intro clauses hsame
  have hready' : Ready p clauses query.vars :=
    ⟨hvars, fun clause hclause => hclauses clause ((hsame clause).mp hclause)⟩
  have hlargest : largest p.Related query.vars clauses =
      largest p.Related query.vars query.clauses := by
    have hconsistent : ∀ family, Consistent p.Related query.vars clauses family ↔
        Consistent p.Related query.vars query.clauses family := by
      intro family
      constructor
      · intro hfamily
        exact ⟨hfamily.within, hfamily.wildcard,
          fun clause hclause => hfamily.closed clause ((hsame clause).mpr hclause)⟩
      · intro hfamily
        exact ⟨hfamily.within, hfamily.wildcard,
          fun clause hclause => hfamily.closed clause ((hsame clause).mp hclause)⟩
    unfold largest
    simp only [hconsistent]
  obtain ⟨b', hrun', hiff', hleft'⟩ :=
    Ready.run_eq { query with clauses := clauses } hready' hdecides
  simp only [hlargest, hsame] at hiff' hleft'
  have hb : b' = b := Bool.eq_iff_iff.mpr (hiff'.trans hiff.symm)
  subst hb
  exact ⟨hrun', hleft'⟩

/-- A query over the example program: which assignments in a branch modify something. -/
def exampleQuery : Query where
  vars := #[
    .named "i" (Entity.predicate exampleProgram .ifBranch) none,
    .named "a" (Entity.predicate exampleProgram .assign) none,
    .wildcard (Entity.predicate exampleProgram .var)]
  clauses := [⟨.parent, 0, 1⟩, ⟨.modifies, 1, 2⟩]

/-- The variables of the example query range over conditions of the example program. -/
theorem exampleQuery_in (id : VarId) (c : Condition) (hc : c ∈ candidatesOf exampleQuery.vars id) :
    c.In exampleProgram := by
  have hall : ∀ v ∈ exampleQuery.vars.toList, ∀ c ∈ v.candidates.toList, c.In exampleProgram := by
    decide +kernel
  obtain ⟨v, hv, hc⟩ := hc
  exact hall v (Array.mem_toList_iff.mpr (Array.mem_of_getElem? hv)) c (SortedSet.mem_toList.mpr hc)

/-- The example query leaves one assignment. -/
theorem run_exampleQuery_eq {a : Analysis} (hmade : Analysis.ofProgram {} exampleProgram = .ok a) :
    (exampleQuery.run a.solvers).2 = .ok true ∧
      ∀ c, c ∈ candidatesOf (exampleQuery.run a.solvers).1.vars 1 ↔ c = .stmt 4 := by
  have hcomputed : (Analysis.ofProgram {} exampleProgram).map (fun a =>
      ((exampleQuery.run a.solvers).2,
        (exampleQuery.run a.solvers).1.vars[1]?.map Variable.candidates)) =
        .ok (.ok true, some (ConditionSet.ofStmts [4])) := by decide +kernel
  rw [hmade] at hcomputed
  obtain ⟨hanswer, hvar⟩ := Prod.mk.inj (Except.ok.inj hcomputed)
  obtain ⟨v, hv, hcands⟩ := Option.map_eq_some_iff.mp hvar
  refine ⟨hanswer, fun c => ?_⟩
  rw [mem_candidatesOf hv, hcands]
  simp [eq_comm]

/-- Of the two assignments of the example program, the one in the branch is in the largest
family. -/
theorem run_exampleQuery_largest :
    ∃ (a : Analysis) (G : VarId → Set Condition), Analysis.ofProgram {} exampleProgram = .ok a ∧
      IsGreatest {family |
        Consistent exampleProgram.Related exampleQuery.vars exampleQuery.clauses family} G ∧
      (exampleQuery.run a.solvers).2 = .ok true ∧ .stmt 4 ∈ G 1 ∧ .stmt 0 ∉ G 1 := by
  obtain ⟨a, G, b, hmade, hgreatest, hrun, -, hleft, -⟩ :=
    run_largest built_exampleProgram {} exampleQuery exampleQuery_in (by decide)
  obtain ⟨hanswer, hleft'⟩ := run_exampleQuery_eq hmade
  have hb : b = true := Except.ok.inj (hrun.symm.trans hanswer)
  refine ⟨a, G, hmade, hgreatest, hanswer, ?_, ?_⟩
  · rw [← hleft hb 1, hleft']
  · rw [← hleft hb 1, hleft']
    simp

end Query

end ProgramQuery
