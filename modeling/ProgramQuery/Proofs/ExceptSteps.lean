import Mathlib.Data.List.Forall2

/-!
# Steps that may be refused

Drafts, relations and queries are computed in steps of which each may refuse to go on. A computation
ends with a result exactly when each of its steps does: `bind_eq_ok` takes a sequence of two steps
apart, and `mapM_eq_ok` the same step made for each member of a list. It is refused exactly when one
of its steps is, after the steps before it have gone well (`bind_eq_error`).
-/

set_option autoImplicit false

namespace ProgramQuery.ExceptSteps

variable {ε α β : Type}

/-- Two steps end with a result exactly when the first does and the second does on what it gives. -/
theorem bind_eq_ok {x : Except ε α} {f : α → Except ε β} {b : β} :
    (x >>= f) = .ok b ↔ ∃ a, x = .ok a ∧ f a = .ok b := by
  cases x with
  | error e =>
    constructor
    · intro h
      cases h
    · rintro ⟨a, h, -⟩
      cases h
  | ok a =>
    constructor
    · intro h
      exact ⟨a, rfl, h⟩
    · rintro ⟨a', h, hf⟩
      cases h
      exact hf

/-- Two steps are refused exactly when the first is, or the second is on what the first gives. -/
theorem bind_eq_error {x : Except ε α} {f : α → Except ε β} {e : ε} :
    (x >>= f) = .error e ↔ x = .error e ∨ ∃ a, x = .ok a ∧ f a = .error e := by
  cases x with
  | error e' =>
    constructor
    · intro h
      cases h
      exact Or.inl rfl
    · rintro (h | ⟨a, h, -⟩)
      · cases h
        rfl
      · cases h
  | ok a =>
    constructor
    · intro h
      exact Or.inr ⟨a, rfl, h⟩
    · rintro (h | ⟨a', h, hf⟩)
      · cases h
      · cases h
        exact hf

/-- A changed result is a success if the result is. -/
theorem map_eq_ok {x : Except ε α} {f : α → β} {b : β} :
    x.map f = .ok b ↔ ∃ a, x = .ok a ∧ f a = b := by
  cases x with
  | error e => simp [Except.map]
  | ok a => simp [Except.map]

/-- Changing a result does not change a failure. -/
theorem map_eq_error {x : Except ε α} {f : α → β} {e : ε} : x.map f = .error e ↔ x = .error e := by
  cases x with
  | error e' => simp [Except.map]
  | ok a => simp [Except.map]

/-- A step made for each member of a list ends with a list of results, member by member. -/
theorem mapM_eq_ok {f : α → Except ε β} {l : List α} {m : List β} :
    l.mapM f = .ok m ↔ List.Forall₂ (fun a b => f a = .ok b) l m := by
  induction l generalizing m with
  | nil =>
    rw [List.mapM_nil, List.forall₂_nil_left_iff]
    constructor
    · intro h
      cases h
      rfl
    · rintro rfl
      rfl
  | cons a l ih =>
    rw [List.mapM_cons, bind_eq_ok, List.forall₂_cons_left_iff]
    constructor
    · rintro ⟨b, hb, hrest⟩
      obtain ⟨m', hm', heq⟩ := bind_eq_ok.mp hrest
      cases heq
      exact ⟨b, m', hb, ih.mp hm', rfl⟩
    · rintro ⟨b, m', hb, hm', rfl⟩
      exact ⟨b, hb, bind_eq_ok.mpr ⟨m', ih.mpr hm', rfl⟩⟩

/-- Steps that end with the same result for each member of a list do so for the list. -/
theorem exists_mapM_eq_ok {ι : Type} {f : ι → α → Except ε β} {R : α → β → Prop} {l : List α}
    (h : ∀ a ∈ l, ∃ b, (∀ i, f i a = .ok b) ∧ R a b) :
    ∃ m, (∀ i, l.mapM (f i) = .ok m) ∧ List.Forall₂ R l m := by
  induction l with
  | nil => exact ⟨[], fun i => rfl, List.Forall₂.nil⟩
  | cons a l ih =>
    obtain ⟨b, hb, hab⟩ := h a List.mem_cons_self
    obtain ⟨m, hm, hlm⟩ := ih fun c hc => h c (List.mem_cons_of_mem a hc)
    refine ⟨b :: m, ?_, List.Forall₂.cons hab hlm⟩
    intro i
    rw [List.mapM_cons, hb i, hm i]
    rfl

/-- A function that succeeds on all elements of a list succeeds on the list. -/
theorem mapM_ends {f : α → Except ε β} {l : List α} (h : ∀ a ∈ l, ∃ b, f a = .ok b) :
    ∃ m, l.mapM f = .ok m := by
  have hstep : ∀ a ∈ l, ∃ b, (∀ _ : Unit, f a = .ok b) ∧ True := by
    intro a ha
    obtain ⟨b, hb⟩ := h a ha
    exact ⟨b, fun _ => hb, trivial⟩
  obtain ⟨m, hm, -⟩ := exists_mapM_eq_ok hstep
  exact ⟨m, hm ()⟩

/-- A step made for each member of a list is refused at the first member that it is refused for. -/
theorem mapM_eq_error {f : α → Except ε β} {l : List α} {e : ε} (h : l.mapM f = .error e) :
    ∃ before a after, l = before ++ a :: after ∧ (∀ b ∈ before, ∃ c, f b = .ok c) ∧
      f a = .error e := by
  induction l with
  | nil => cases h
  | cons a l ih =>
    rw [List.mapM_cons] at h
    rcases bind_eq_error.mp h with h | ⟨b, hb, h⟩
    · exact ⟨[], a, l, rfl, by simp, h⟩
    · rcases bind_eq_error.mp h with h | ⟨m, -, h⟩
      · obtain ⟨before, c, after, rfl, hbefore, hc⟩ := ih h
        exact ⟨a :: before, c, after, rfl, List.forall_mem_cons.mpr ⟨⟨b, hb⟩, hbefore⟩, hc⟩
      · cases h

/-- Lists that are related element by element are related at each place. -/
theorem getElem?_of_forall₂ {R : α → β → Prop} {l : List α} {m : List β}
    (h : List.Forall₂ R l m) (i : Nat) (a : α) (ha : l[i]? = some a) :
    ∃ b, m[i]? = some b ∧ R a b := by
  induction h generalizing i with
  | nil => simp at ha
  | @cons a' b l m hab hlm ih =>
    cases i with
    | zero =>
      simp only [List.getElem?_cons_zero, Option.some.injEq] at ha
      subst ha
      exact ⟨b, rfl, hab⟩
    | succ i => exact ih i ha

/-- A function that succeeds on a list has a result at each place, that of the element there. -/
theorem getElem?_of_mapM {f : α → Except ε β} {l : List α} {m : List β} (h : l.mapM f = .ok m) :
    m.length = l.length ∧
      ∀ (i : Nat) (a : α), l[i]? = some a → ∃ b, m[i]? = some b ∧ f a = .ok b := by
  have hall := mapM_eq_ok.mp h
  exact ⟨hall.length_eq.symm, getElem?_of_forall₂ hall⟩

end ProgramQuery.ExceptSteps
