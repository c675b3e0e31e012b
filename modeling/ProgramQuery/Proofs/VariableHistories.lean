import Mathlib.Data.List.Induction
import ProgramQuery.Query.Variable

/-!
# Histories of query variables

Reading a named variable binds it, so what it ranges over depends on the order in which it was read,
changed, replaced and given predicates. The law is read off the whole history (`NamedAfter`). A
named variable is bound once an operation other than a change of predicate has happened. Its
candidates then have an origin (`Origin`): the last set that was assigned, or else what the
predicate in force at the first use ranged over. Since then they were changed by the edits, in order
(`changed`). A wildcard has no history, it is always its most recent predicate (`after_wildcard`).

One operation on a bound variable does to the candidates what the operation says and nothing else
(`binding_apply`), and so does a course of operations (`binding_after`). Before the first use only
the predicate changes (`after_eq_of_unused`).
-/

set_option autoImplicit false

namespace ProgramQuery.Variable

/-! ## What a history says -/

/-- Whether the operation binds a named variable, which all do but a change of predicate. -/
def Step.binds : Step → Bool
  | .read => true
  | .edit _ => true
  | .assign _ => true
  | .setPredicate _ => false

/-- Whether the operation replaces the candidates. -/
def Step.assigns : Step → Bool
  | .assign _ => true
  | _ => false

/-- The predicate that the operation sets. -/
def Step.predicate? : Step → Option Predicate
  | .setPredicate predicate => some predicate
  | _ => none

/-- What the operation makes of the candidates of a bound variable, if it changes them. -/
def Step.change? : Step → Option (ConditionSet → ConditionSet)
  | .read => none
  | .edit change => some change
  | .assign set => some fun _ => set
  | .setPredicate _ => none

/-- The most recent predicate, where `first` is the one to begin with. -/
def inForce (first : Predicate) (steps : List Step) : Predicate :=
  (steps.filterMap Step.predicate?).getLastD first

/-- What becomes of the candidates `base` by all the changes that the operations make, in order. -/
def changed (base : ConditionSet) (steps : List Step) : ConditionSet :=
  (steps.filterMap Step.change?).foldl (fun set change => change set) base

/-- What the candidates of a named variable come from: a set, and the operations since then. The set
is the last one that was assigned. If none was, it is the set of the predicate in force when the
variable was first used. -/
inductive Origin (first : Predicate) : List Step → ConditionSet → List Step → Prop where
  | assigned {before since : List Step} {set : ConditionSet}
      (hsince : ∀ step ∈ since, step.assigns = false) :
      Origin first (before ++ .assign set :: since) set since
  | used {before rest : List Step} {step : Step} (hbefore : ∀ step ∈ before, step.binds = false)
      (hstep : step.binds = true) (hsince : ∀ other ∈ step :: rest, other.assigns = false) :
      Origin first (before ++ step :: rest) (inForce first before).members (step :: rest)

variable {v : Variable} {name : String} {first predicate : Predicate} {base : ConditionSet}
  {step : Step} {steps since : List Step}

/-- A further operation puts its predicate in force, if it sets one. -/
theorem inForce_concat :
    inForce first (steps ++ [step]) = step.predicate?.getD (inForce first steps) := by
  cases step <;> simp [inForce, Step.predicate?]

/-- The first operation changes the candidates before the others do. -/
theorem changed_cons :
    changed base (step :: steps) = changed ((step.change?.getD id) base) steps := by
  cases step <;> rfl

/-- Operations in two parts are applied one part after the other. -/
theorem after_append (more : List Step) : v.after (steps ++ more) = (v.after steps).after more :=
  List.foldl_append

/-- The first operation is applied before the others. -/
theorem after_cons : v.after (step :: steps) = (v.apply step).after steps := rfl

/-! ## Operations on bound variables -/

/-- **One operation** on a bound variable makes of the candidates what it says, whatever the
predicate. -/
theorem binding_apply (h : v.binding = some base) :
    (v.apply step).binding = some ((step.change?.getD id) base) := by
  cases v with
  | wildcard predicate => cases h
  | named name predicate bound =>
    cases h
    cases step <;> rfl

/-- **A course of operations** on a bound variable makes all changes in order, and the variable
stays bound. -/
theorem binding_after (h : v.binding = some base) :
    (v.after steps).binding = some (changed base steps) := by
  induction steps generalizing v base with
  | nil => exact h
  | cons step steps ih => rw [after_cons, ih (binding_apply h), changed_cons]

/-- Operations that set a predicate make no change to candidates. -/
theorem changed_filter_binds : changed base (steps.filter Step.binds) = changed base steps := by
  unfold changed
  rw [List.filterMap_filter]
  congr 2
  funext step
  cases step <;> rfl

/-! ## Operations on variables that are not bound -/

/-- Before its first use, a named variable changes its predicate only. -/
theorem after_eq_of_unused (h : ∀ step ∈ steps, step.binds = false) :
    (named name first none).after steps = named name (inForce first steps) none := by
  induction steps using List.reverseRecOn with
  | nil => rfl
  | append_singleton steps step ih =>
    obtain ⟨hsteps, hlast⟩ := List.forall_mem_append.mp h
    rw [after_append, ih hsteps, inForce_concat]
    cases step with
    | setPredicate predicate => rfl
    | read => cases hlast _ List.mem_cons_self
    | edit change => cases hlast _ List.mem_cons_self
    | assign set => cases hlast _ List.mem_cons_self

/-- The first use of a named variable binds it to what its predicate ranges over, with the change
that the use makes. -/
theorem binding_apply_unbound (hstep : step.binds = true) :
    ((named name predicate none).apply step).binding =
      some ((step.change?.getD id) predicate.members) := by
  cases step with
  | setPredicate predicate => cases hstep
  | read => rfl
  | edit change => rfl
  | assign set => rfl

/-- **A wildcard** is its most recent predicate and nothing else. -/
theorem after_wildcard : (wildcard first).after steps = wildcard (inForce first steps) := by
  induction steps using List.reverseRecOn with
  | nil => rfl
  | append_singleton steps step ih =>
    rw [after_append, ih, inForce_concat]
    cases step <;> rfl

/-- A named variable remains one of the same name. -/
theorem exists_after_eq (name : String) (first : Predicate) (bound : Option ConditionSet)
    (steps : List Step) :
    ∃ predicate bound', (named name first bound).after steps = named name predicate bound' := by
  induction steps using List.reverseRecOn with
  | nil => exact ⟨first, bound, rfl⟩
  | append_singleton steps step ih =>
    obtain ⟨predicate, bound', hsteps⟩ := ih
    rw [after_append, hsteps]
    cases step with
    | setPredicate predicate' => exact ⟨predicate', bound', rfl⟩
    | read => exact ⟨predicate, _, rfl⟩
    | edit change => exact ⟨predicate, _, rfl⟩
    | assign set => exact ⟨predicate, _, rfl⟩

/-! ## Origins -/

/-- **From its origin on**, the candidates of a named variable are changed by the edits only. -/
theorem Origin.binding_eq (h : Origin first steps base since) :
    ((named name first none).after steps).binding = some (changed base since) := by
  cases h with
  | @assigned before _ _ _ =>
    obtain ⟨predicate, bound, hbefore⟩ := exists_after_eq name first none before
    rw [after_append, hbefore, after_cons]
    exact binding_after rfl
  | @used before rest step hbefore hstep _ =>
    rw [after_append, after_eq_of_unused hbefore, after_cons, changed_cons]
    exact binding_after (binding_apply_unbound hstep)

/-- Among operations of which some assign, one is the last to assign. -/
theorem exists_last_assign (h : ∃ step ∈ steps, step.assigns = true) :
    ∃ before set since, steps = before ++ .assign set :: since ∧
      ∀ step ∈ since, step.assigns = false := by
  -- the last one is the first one from the end
  have hfind : (steps.reverse.find? Step.assigns).isSome = true := by simpa using h
  obtain ⟨last, hlast⟩ := Option.isSome_iff_exists.mp hfind
  obtain ⟨hassigns, since, before, hsplit, hsince⟩ := List.find?_eq_some_iff_append.mp hlast
  cases last with
  | assign set =>
    refine ⟨before.reverse, set, since.reverse, ?_, ?_⟩
    · rw [← List.reverse_reverse steps, hsplit]
      simp
    · simpa using hsince
  | read => cases hassigns
  | edit change => cases hassigns
  | setPredicate predicate => cases hassigns

/-- There is an origin as soon as the variable was used. -/
theorem exists_origin (first : Predicate) (h : ∃ step ∈ steps, step.binds = true) :
    ∃ base since, Origin first steps base since := by
  by_cases hassign : ∃ step ∈ steps, step.assigns = true
  · obtain ⟨before, set, since, rfl, hsince⟩ := exists_last_assign hassign
    exact ⟨set, since, .assigned hsince⟩
  · have hfind : (steps.find? Step.binds).isSome = true := by simpa using h
    obtain ⟨step, hstep⟩ := Option.isSome_iff_exists.mp hfind
    obtain ⟨hbinds, before, rest, rfl, hbefore⟩ := List.find?_eq_some_iff_append.mp hstep
    refine ⟨_, step :: rest, .used (by simpa using hbefore) hbinds fun other hother => ?_⟩
    rw [← Bool.not_eq_true]
    exact fun hassigns => hassign ⟨other, List.mem_append_right before hother, hassigns⟩

/-! ## The law -/

/-- What a history decides about a named variable that ranged over `first` to begin with. -/
structure NamedAfter (first : Predicate) (steps : List Step) (v : Variable) : Prop where
  /-- It is bound if it was used, that is read, changed or replaced. -/
  isBound_iff : v.isBound = true ↔ ∃ step ∈ steps, step.binds = true
  /-- Once it is bound it stays bound. -/
  stays_bound : v.isBound = true → ∀ more, (v.after more).isBound = true
  /-- Once it is bound its candidates have an origin. -/
  exists_origin : v.isBound = true → ∃ base since, Origin first steps base since
  /-- Its candidates are what the edits since the origin have made of the origin. -/
  candidates_eq : ∀ base since, Origin first steps base since → v.candidates = changed base since
  /-- Once it is bound its candidates are at all times as if no predicate were set any more. -/
  predicate_free : v.isBound = true →
    ∀ more, (v.after more).candidates = (v.after (more.filter Step.binds)).candidates
  /-- As long as it is not bound it ranges over its most recent predicate. -/
  unbound : v.isBound = false → v.candidates = (inForce first steps).members

/-- A bound variable ranges over its binding. -/
theorem candidates_of_binding (h : v.binding = some base) : v.candidates = base := by
  unfold candidates
  rw [h]
  rfl

/-- A variable is bound if it has a binding. -/
theorem isBound_iff_exists : v.isBound = true ↔ ∃ base, v.binding = some base :=
  Option.isSome_iff_exists

/-- **A named variable is bound** once it was used. -/
theorem isBound_after_iff : ((named name first none).after steps).isBound = true ↔
    ∃ step ∈ steps, step.binds = true := by
  constructor
  · intro hbound
    by_contra hunused
    push Not at hunused
    rw [after_eq_of_unused fun step hstep => Bool.eq_false_iff.mpr (hunused step hstep)] at hbound
    cases hbound
  · intro hused
    obtain ⟨base, since, horigin⟩ := exists_origin first hused
    exact isBound_iff_exists.mpr ⟨_, horigin.binding_eq⟩

/-- A variable that is not bound ranges over the predicate in force. -/
theorem candidates_after_of_not_isBound
    (h : ((named name first none).after steps).isBound = false) :
    ((named name first none).after steps).candidates = (inForce first steps).members := by
  have hunused : ∀ step ∈ steps, step.binds = false := by
    intro step hstep
    by_contra hbinds
    rw [isBound_after_iff.mpr ⟨step, hstep, (Bool.not_eq_false _).mp hbinds⟩] at h
    cases h
  rw [after_eq_of_unused hunused]
  rfl

/-- A named variable is as its history decides. -/
theorem namedAfter_after (name : String) (first : Predicate) (steps : List Step) :
    ((named name first none).after steps).NamedAfter first steps where
  isBound_iff := isBound_after_iff
  stays_bound hbound more := by
    obtain ⟨base, hbase⟩ := isBound_iff_exists.mp hbound
    exact isBound_iff_exists.mpr ⟨_, binding_after hbase⟩
  exists_origin hbound := Variable.exists_origin first (isBound_after_iff.mp hbound)
  candidates_eq base since horigin := candidates_of_binding horigin.binding_eq
  predicate_free hbound more := by
    obtain ⟨base, hbase⟩ := isBound_iff_exists.mp hbound
    rw [candidates_of_binding (binding_after hbase), candidates_of_binding (binding_after hbase),
      changed_filter_binds]
  unbound := candidates_after_of_not_isBound

/-- **Whatever was done** to a named variable and to a wildcard, in any order and number: the
history decides whether the named one is bound and what its candidates are, and the wildcard is
never bound and ranges over its most recent predicate. -/
theorem history_decides (name : String) (first : Predicate) (steps : List Step) :
    ((named name first none).after steps).NamedAfter first steps ∧
      ((wildcard first).after steps).isBound = false ∧
      ((wildcard first).after steps).candidates = (inForce first steps).members := by
  refine ⟨namedAfter_after name first steps, ?_, ?_⟩
  · rw [after_wildcard]
    rfl
  · rw [after_wildcard]
    rfl

-- reading freezes what a named variable ranges over, so the order of reading and setting a
-- predicate matters
example (name : String) (first second : Predicate) :
    ((named name first none).after [.read, .setPredicate second]).candidates = first.members ∧
      ((named name first none).after [.setPredicate second, .read]).candidates = second.members :=
  ⟨rfl, rfl⟩

end ProgramQuery.Variable
