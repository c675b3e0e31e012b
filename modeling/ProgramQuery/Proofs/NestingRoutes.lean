import Mathlib.Data.List.Pairwise
import ProgramQuery.Proofs.CheckedEffects

/-!
# Going down by routes

Going down from a container enters its bodies, the bodies of their members and so on. A route is the
sequence of containers and slots entered (`Program.Enters`), and a statement is met along a route if
it is on the list that the route leads to (`Program.MetAlong`). Nothing is asked of the links here:
lists may not end, run into each other or lead back to the container.

Going down is given an answer exactly when every list on a route ends and has members that link back
as far as this is checked, and no statement is met along two routes (`Program.OneRoute`,
`Solver.parentStar_right_by_routes`). In between, the same is said of the bodies that are still
pending and the statements found so far (`Clear`). Listing a body replaces it by the bodies of its
members, and the pending bodies are clear before exactly if they are clear after and the members
were not found yet (`clear_cons_iff`). As each list has a member, and no statement is found twice,
this ends with an answer or a refusal (`Underway.descend_cases`).
-/

set_option autoImplicit false

open Relation (ReflTransGen)

namespace ProgramQuery

open ExceptSteps

namespace Program

/-! ## Routes -/

/-- Entering bodies one after the other leads to the list that begins with `last.1` in the container
`last.2`. The first of them is a body of a container that is `here`, and each other one a body of a
member of the list entered before. The route is the sequence of the containers and slots entered. -/
inductive Enters (p : Program) :
    (StmtId → Prop) → List (StmtId × Nat) → StmtId × StmtId → Prop where
  | body {here : StmtId → Prop} {c first : StmtId} {slot : Nat} (hc : here c)
      (hfirst : p.firstAt? (.ofBody c slot) = some first) : Enters p here [(c, slot)] (first, c)
  | deeper {here : StmtId → Prop} {c first : StmtId} {slot : Nat} {route : List (StmtId × Nat)}
      {last : StmtId × StmtId} (hc : here c) (hfirst : p.firstAt? (.ofBody c slot) = some first)
      (h : Enters p (ReflTransGen (p.LinkTo .next) first) route last) :
      Enters p here ((c, slot) :: route) last

/-- The statement is on the list that the route leads to. -/
def MetAlong (p : Program) (here : StmtId → Prop) (route : List (StmtId × Nat))
    (s : StmtId) : Prop :=
  ∃ last, p.Enters here route last ∧ ReflTransGen (p.LinkTo .next) last.1 s

/-- Every list on a route down from the container ends, its members link back to its own container
if this is checked, and no statement is met along two routes. -/
structure OneRoute (p : Program) (check : Bool) (c : StmtId) : Prop where
  ends : ∀ route first owner, p.Enters (· = c) route (first, owner) → ¬ p.Endless first
  linked : check = true → ∀ route first owner s stmt, p.Enters (· = c) route (first, owner) →
    ReflTransGen (p.LinkTo .next) first s → p.stmts[s]? = some stmt → stmt.parent = some owner
  once : ∀ s route route', p.MetAlong (· = c) route s → p.MetAlong (· = c) route' s → route = route'

/-- From a body, which is a list with its container, a route leads to a list: to that of the body
itself, or down from a member of it. -/
def LeadsInto (p : Program) (body : StmtId × StmtId) (route : List (StmtId × Nat))
    (last : StmtId × StmtId) : Prop :=
  route = [] ∧ last = body ∨ p.Enters (ReflTransGen (p.LinkTo .next) body.1) route last

/-- From a body, a statement is met along a route. -/
def Meets (p : Program) (body : StmtId × StmtId) (route : List (StmtId × Nat))
    (s : StmtId) : Prop :=
  ∃ last, p.LeadsInto body route last ∧ ReflTransGen (p.LinkTo .next) last.1 s

variable {p : Program} {here here' : StmtId → Prop} {check : Bool} {c d s first owner : StmtId}
  {slot : Nat} {route : List (StmtId × Nat)} {body last : StmtId × StmtId}
  {pending pending' : List (StmtId × StmtId)} {l found : List StmtId} {e : Inconsistency}

/-- A route goes into a body of a container, and on from there. -/
theorem enters_iff : p.Enters here route last ↔ ∃ c slot first rest, here c ∧
    p.firstAt? (.ofBody c slot) = some first ∧ route = (c, slot) :: rest ∧
    p.LeadsInto (first, c) rest last := by
  constructor
  · intro h
    cases h with
    | @body _ c first slot hc hfirst => exact ⟨c, slot, first, [], hc, hfirst, rfl, .inl ⟨rfl, rfl⟩⟩
    | @deeper _ c first slot route last hc hfirst h =>
      exact ⟨c, slot, first, route, hc, hfirst, rfl, .inr h⟩
  · rintro ⟨c, slot, first, rest, hc, hfirst, rfl, ⟨rfl, rfl⟩ | h⟩
    · exact .body hc hfirst
    · exact .deeper hc hfirst h

/-- A route begins with the body that it enters first. -/
theorem metAlong_iff : p.MetAlong here route s ↔ ∃ c slot first rest, here c ∧
    p.firstAt? (.ofBody c slot) = some first ∧ route = (c, slot) :: rest ∧
    p.Meets (first, c) rest s := by
  unfold MetAlong Meets
  simp only [enters_iff]
  constructor
  · rintro ⟨last, ⟨c, slot, first, rest, hc, hfirst, hroute, hlast⟩, hs⟩
    exact ⟨c, slot, first, rest, hc, hfirst, hroute, last, hlast, hs⟩
  · rintro ⟨c, slot, first, rest, hc, hfirst, hroute, last, hlast, hs⟩
    exact ⟨last, ⟨c, slot, first, rest, hc, hfirst, hroute, hlast⟩, hs⟩

/-- From a body with an ended list, a route stays on the list or enters the body of a member. -/
theorem leadsInto_iff (hl : p.Path .next (some body.1) l) : p.LeadsInto body route last ↔
    route = [] ∧ last = body ∨ p.Enters (· ∈ l) route last := by
  have hhere : ReflTransGen (p.LinkTo .next) body.1 = (· ∈ l) :=
    funext fun s => propext hl.mem_iff_reflTransGen.symm
  unfold LeadsInto
  rw [hhere]

/-- What is met from a body are the members of its list, and what is met down from them. -/
theorem meets_iff (hl : p.Path .next (some body.1) l) : p.Meets body route s ↔
    route = [] ∧ s ∈ l ∨ p.MetAlong (· ∈ l) route s := by
  unfold Meets MetAlong
  simp only [leadsInto_iff hl]
  constructor
  · rintro ⟨last, ⟨rfl, rfl⟩ | hlast, hs⟩
    · exact .inl ⟨rfl, hl.mem_iff_reflTransGen.mpr hs⟩
    · exact .inr ⟨last, hlast, hs⟩
  · rintro (⟨rfl, hs⟩ | ⟨last, hlast, hs⟩)
    · exact ⟨body, .inl ⟨rfl, rfl⟩, hl.mem_iff_reflTransGen.mp hs⟩
    · exact ⟨last, .inr hlast, hs⟩

/-- Without entering a body, nothing is met. -/
theorem not_metAlong_nil : ¬ p.MetAlong here [] s := by
  intro h
  obtain ⟨c, slot, first, rest, -, -, hroute, -⟩ := metAlong_iff.mp h
  cases hroute

/-! ## Pending bodies -/

/-- Nothing stands in the way of going down from pending bodies: all lists that they lead to are
listed without a refusal, no statement is met along two routes, and none that was found before is
met again. -/
structure Clear (p : Program) (check : Bool) (pending : List (StmtId × StmtId))
    (found : List StmtId) : Prop where
  fine : ∀ body ∈ pending, ∀ route last, p.LeadsInto body route last →
    ∃ l, p.chain check last.1 (some last.2) = .ok l
  once : ∀ body ∈ pending, ∀ s route route', p.Meets body route s → p.Meets body route' s →
    route = route'
  apart : pending.Pairwise fun a b => ∀ s route route', p.Meets a route s → ¬ p.Meets b route' s
  fresh : ∀ body ∈ pending, ∀ s ∈ found, ∀ route, ¬ p.Meets body route s

/-- Nothing stands in the way of going down from two groups of bodies if nothing does for either,
and they meet nothing in common. -/
theorem clear_append : p.Clear check (pending ++ pending') found ↔ p.Clear check pending found ∧
    p.Clear check pending' found ∧
      ∀ a ∈ pending, ∀ b ∈ pending', ∀ s route route', p.Meets a route s →
        ¬ p.Meets b route' s := by
  constructor
  · intro h
    obtain ⟨hapart, hapart', hcross⟩ := List.pairwise_append.mp h.apart
    have hleft : ∀ body ∈ pending, body ∈ pending ++ pending' :=
      fun _ => List.mem_append_left pending'
    have hright : ∀ body ∈ pending', body ∈ pending ++ pending' :=
      fun _ => List.mem_append_right pending
    exact ⟨⟨fun body hbody => h.fine body (hleft body hbody),
        fun body hbody => h.once body (hleft body hbody), hapart,
        fun body hbody => h.fresh body (hleft body hbody)⟩,
      ⟨fun body hbody => h.fine body (hright body hbody),
        fun body hbody => h.once body (hright body hbody), hapart',
        fun body hbody => h.fresh body (hright body hbody)⟩, hcross⟩
  · rintro ⟨h, h', hcross⟩
    refine ⟨?_, ?_, List.pairwise_append.mpr ⟨h.apart, h'.apart, hcross⟩, ?_⟩
    · exact fun body hbody => (List.mem_append.mp hbody).elim (h.fine body) (h'.fine body)
    · exact fun body hbody => (List.mem_append.mp hbody).elim (h.once body) (h'.once body)
    · exact fun body hbody => (List.mem_append.mp hbody).elim (h.fresh body) (h'.fresh body)

/-- Finding more statements leaves the pending bodies clear if these are not met from them. -/
theorem clear_found_append (pending : List (StmtId × StmtId)) :
    p.Clear check pending (l.reverse ++ found) ↔ p.Clear check pending found ∧
      ∀ body ∈ pending, ∀ s ∈ l, ∀ route, ¬ p.Meets body route s := by
  constructor
  · intro h
    refine ⟨⟨h.fine, h.once, h.apart, fun body hbody s hs => h.fresh body hbody s ?_⟩,
      fun body hbody s hs => h.fresh body hbody s ?_⟩
    · exact List.mem_append_right _ hs
    · exact List.mem_append_left _ (List.mem_reverse.mpr hs)
  · rintro ⟨h, hmembers⟩
    refine ⟨h.fine, h.once, h.apart, fun body hbody s hs => ?_⟩
    rcases List.mem_append.mp hs with hs | hs
    · exact hmembers body hbody s (List.mem_reverse.mp hs)
    · exact h.fresh body hbody s hs

/-- The bodies of a container are listed by their slots. -/
theorem getElem?_ownedBodies (p : Program) (c : StmtId) (slot : Nat) :
    (p.ownedBodies c)[slot]? = (p.firstAt? (.ofBody c slot)).map fun first => (first, c) := by
  unfold ownedBodies firstAt?
  cases hc : p.stmts[c]? with
  | none => simp [hc]
  | some stmt => simp [hc]

/-- The bodies of some containers, taken in pairs, are at different places. -/
theorem pairwise_ownedBodies {R : StmtId × StmtId → StmtId × StmtId → Prop}
    (hsymm : ∀ a b, R a b → R b a) (hl : l.Nodup) : (l.flatMap p.ownedBodies).Pairwise R ↔
      ∀ c ∈ l, ∀ c' ∈ l, ∀ slot slot' first first', p.firstAt? (.ofBody c slot) = some first →
        p.firstAt? (.ofBody c' slot') = some first' → (c, slot) ≠ (c', slot') →
        R (first, c) (first', c') := by
  have : Std.Symm R := ⟨hsymm⟩
  have : Std.Symm fun c c' => ∀ x ∈ p.ownedBodies c, ∀ y ∈ p.ownedBodies c', R x y :=
    ⟨fun c c' h x hx y hy => hsymm y x (h y hy x hx)⟩
  rw [List.pairwise_flatMap]
  constructor
  · rintro ⟨hown, hothers⟩ c hc c' hc' slot slot' first first' hfirst hfirst' hne
    by_cases hcc : c = c'
    · subst hcc
      have hget : (p.ownedBodies c)[slot]? = some (first, c) := by
        rw [getElem?_ownedBodies, hfirst]; rfl
      have hget' : (p.ownedBodies c)[slot']? = some (first', c) := by
        rw [getElem?_ownedBodies, hfirst']; rfl
      obtain ⟨hlt, heq⟩ := List.getElem?_eq_some_iff.mp hget
      obtain ⟨hlt', heq'⟩ := List.getElem?_eq_some_iff.mp hget'
      have hpair := List.pairwise_iff_getElem.mp (hown c hc)
      rw [← heq, ← heq']
      rcases Nat.lt_trichotomy slot slot' with h | rfl | h
      · exact hpair slot slot' hlt hlt' h
      · exact absurd rfl hne
      · exact hsymm _ _ (hpair slot' slot hlt' hlt h)
    · exact hothers.forall hc hc' hcc (first, c) (mem_ownedBodies.mpr ⟨rfl, slot, hfirst⟩)
        (first', c') (mem_ownedBodies.mpr ⟨rfl, slot', hfirst'⟩)
  · intro h
    refine ⟨fun c hc => List.pairwise_iff_getElem.mpr fun slot slot' hlt hlt' hless => ?_,
      hl.pairwise_of_forall_ne fun c hc c' hc' hne x hx y hy => ?_⟩
    · have hget := getElem?_ownedBodies p c slot
      have hget' := getElem?_ownedBodies p c slot'
      rw [List.getElem?_eq_getElem hlt] at hget
      rw [List.getElem?_eq_getElem hlt'] at hget'
      obtain ⟨first, hfirst, heq⟩ := Option.map_eq_some_iff.mp hget.symm
      obtain ⟨first', hfirst', heq'⟩ := Option.map_eq_some_iff.mp hget'.symm
      rw [← heq, ← heq']
      refine h c hc c hc slot slot' first first' hfirst hfirst' fun hsame => ?_
      have := (Prod.mk.inj hsame).2
      omega
    · obtain ⟨rfl, slot, hfirst⟩ := mem_ownedBodies.mp hx
      obtain ⟨rfl, slot', hfirst'⟩ := mem_ownedBodies.mp hy
      exact h x.2 hc y.2 hc' slot slot' x.1 y.1 hfirst hfirst' fun hsame =>
        hne (Prod.mk.inj hsame).1

/-- The bodies of some statements are those of their slots. -/
theorem mem_bodies : body ∈ (l.flatMap p.ownedBodies).reverse ↔
    ∃ c ∈ l, ∃ slot first, body = (first, c) ∧ p.firstAt? (.ofBody c slot) = some first := by
  rw [List.mem_reverse, List.mem_flatMap]
  constructor
  · rintro ⟨c, hc, hbody⟩
    obtain ⟨rfl, slot, hfirst⟩ := mem_ownedBodies.mp hbody
    exact ⟨body.2, hc, slot, body.1, rfl, hfirst⟩
  · rintro ⟨c, hc, slot, first, rfl, hfirst⟩
    exact ⟨c, hc, mem_ownedBodies.mpr ⟨rfl, slot, hfirst⟩⟩

/-- What is met from the bodies of some containers is what is met on routes down from these. -/
theorem exists_meets_iff :
    (∃ body ∈ (l.flatMap p.ownedBodies).reverse, ∃ route, p.Meets body route s) ↔
    ∃ route, p.MetAlong (· ∈ l) route s := by
  constructor
  · rintro ⟨body, hbody, route, hs⟩
    obtain ⟨c, hc, slot, first, rfl, hfirst⟩ := mem_bodies.mp hbody
    exact ⟨_, metAlong_iff.mpr ⟨c, slot, first, route, hc, hfirst, rfl, hs⟩⟩
  · rintro ⟨route, hs⟩
    obtain ⟨c, slot, first, rest, hc, hfirst, -, hs⟩ := metAlong_iff.mp hs
    exact ⟨_, mem_bodies.mpr ⟨c, hc, slot, first, rfl, hfirst⟩, rest, hs⟩

/-- Listing a body finds its members, and what else is met from it is met from the bodies of its
members. -/
theorem exists_meets_cons_iff (hl : p.Path .next (some body.1) l) :
    (∃ b ∈ body :: pending, ∃ route, p.Meets b route s) ↔
      s ∈ l ∨ ∃ b ∈ (l.flatMap p.ownedBodies).reverse ++ pending, ∃ route, p.Meets b route s := by
  have hbody : (∃ route, p.Meets body route s) ↔ s ∈ l ∨ ∃ route, p.MetAlong (· ∈ l) route s := by
    simp [meets_iff hl, exists_or]
  simp only [List.mem_cons, List.mem_append, or_and_right, exists_or, exists_eq_left,
    exists_meets_iff, hbody, or_assoc]

/-- **The bodies of some containers** are clear if the routes down from these containers are: a body
and a route on from it make up a route down from its container. -/
theorem clear_bodies_iff (hl : l.Nodup) : p.Clear check (l.flatMap p.ownedBodies).reverse found ↔
    (∀ route last, p.Enters (· ∈ l) route last → ∃ m, p.chain check last.1 (some last.2) = .ok m) ∧
      (∀ s route route', p.MetAlong (· ∈ l) route s → p.MetAlong (· ∈ l) route' s →
        route = route') ∧
      ∀ s ∈ found, ∀ route, ¬ p.MetAlong (· ∈ l) route s := by
  have hapart : (l.flatMap p.ownedBodies).reverse.Pairwise
      (fun a b => ∀ s route route', p.Meets a route s → ¬ p.Meets b route' s) ↔ _ :=
    List.pairwise_reverse.trans
      (pairwise_ownedBodies (fun a b h s route route' ha hb => h s route' route hb ha) hl)
  constructor
  · intro h
    refine ⟨fun route last hlast => ?_, fun s route route' hmet hmet' => ?_,
      fun s hs route hmet => ?_⟩
    · obtain ⟨c, slot, first, rest, hc, hfirst, -, hlast⟩ := enters_iff.mp hlast
      exact h.fine _ (mem_bodies.mpr ⟨c, hc, slot, first, rfl, hfirst⟩) rest last hlast
    · obtain ⟨c, slot, first, rest, hc, hfirst, rfl, hs⟩ := metAlong_iff.mp hmet
      obtain ⟨c', slot', first', rest', hc', hfirst', rfl, hs'⟩ := metAlong_iff.mp hmet'
      by_cases hsame : (c, slot) = (c', slot')
      · cases hsame
        cases hfirst.symm.trans hfirst'
        rw [h.once _ (mem_bodies.mpr ⟨c, hc, slot, first, rfl, hfirst⟩) s rest rest' hs hs']
      · have hdisjoint :=
          hapart.mp h.apart c' hc' c hc slot' slot first' first hfirst' hfirst (Ne.symm hsame)
        exact absurd hs' (hdisjoint s rest rest' hs)
    · obtain ⟨c, slot, first, rest, hc, hfirst, -, hmet⟩ := metAlong_iff.mp hmet
      exact h.fresh _ (mem_bodies.mpr ⟨c, hc, slot, first, rfl, hfirst⟩) s hs rest hmet
  · rintro ⟨hfine, honce, hfresh⟩
    refine ⟨fun body hbody route last hlast => ?_, fun body hbody s route route' hs hs' => ?_,
      hapart.mpr ?_, fun body hbody s hs route hmet => ?_⟩
    · obtain ⟨c, hc, slot, first, rfl, hfirst⟩ := mem_bodies.mp hbody
      exact hfine _ last (enters_iff.mpr ⟨c, slot, first, route, hc, hfirst, rfl, hlast⟩)
    · obtain ⟨c, hc, slot, first, rfl, hfirst⟩ := mem_bodies.mp hbody
      have hroutes := honce s _ _ (metAlong_iff.mpr ⟨c, slot, first, route, hc, hfirst, rfl, hs⟩)
        (metAlong_iff.mpr ⟨c, slot, first, route', hc, hfirst, rfl, hs'⟩)
      exact (List.cons.inj hroutes).2
    · intro c hc c' hc' slot slot' first first' hfirst hfirst' hne s route' route hs' hs
      have hroutes := honce s _ _ (metAlong_iff.mpr ⟨c, slot, first, route, hc, hfirst, rfl, hs⟩)
        (metAlong_iff.mpr ⟨c', slot', first', route', hc', hfirst', rfl, hs'⟩)
      exact hne (List.cons.inj hroutes).1
    · obtain ⟨c, hc, slot, first, rfl, hfirst⟩ := mem_bodies.mp hbody
      exact hfresh s hs _ (metAlong_iff.mpr ⟨c, slot, first, route, hc, hfirst, rfl, hmet⟩)

/-- A body alone is clear if its members were not found, and the bodies of its members are clear
once they are. -/
theorem clear_singleton_iff (hchain : p.chain check body.1 (some body.2) = .ok l) :
    p.Clear check [body] found ↔ (∀ s ∈ l, s ∉ found) ∧
      p.Clear check (l.flatMap p.ownedBodies).reverse (l.reverse ++ found) := by
  have hl := (chain_eq_ok hchain).1
  rw [clear_bodies_iff hl.nodup]
  constructor
  · intro h
    have hself := List.mem_singleton_self body
    have honce := h.once body hself
    have hfresh := h.fresh body hself
    simp only [meets_iff hl] at honce hfresh
    refine ⟨fun s hs hfound => ?_, fun route last hlast => ?_, fun s route route' hs hs' => ?_,
      fun s hs route hmet => ?_⟩
    · exact hfresh s hfound [] (.inl ⟨rfl, hs⟩)
    · exact h.fine body hself route last ((leadsInto_iff hl).mpr (.inr hlast))
    · exact honce s route route' (.inr hs) (.inr hs')
    · rcases List.mem_append.mp hs with hs | hs
      · -- a member is met at once, so it is not met on a route that goes further
        have hroute := honce s [] route (.inl ⟨rfl, List.mem_reverse.mp hs⟩) (.inr hmet)
        exact not_metAlong_nil (hroute ▸ hmet)
      · exact hfresh s hs route (.inr hmet)
  · rintro ⟨hnew, hfine, honce, hfresh⟩
    have hmember : ∀ s ∈ l, ∀ route, ¬ p.MetAlong (· ∈ l) route s := fun s hs =>
      hfresh s (List.mem_append_left _ (List.mem_reverse.mpr hs))
    refine ⟨?_, ?_, List.pairwise_singleton _ _, ?_⟩
    · simp only [List.mem_singleton, forall_eq, leadsInto_iff hl]
      rintro route last (⟨-, rfl⟩ | hlast)
      · exact ⟨l, hchain⟩
      · exact hfine route last hlast
    · simp only [List.mem_singleton, forall_eq, meets_iff hl]
      rintro s route route' (⟨rfl, hs⟩ | hs) (⟨rfl, hs'⟩ | hs')
      · rfl
      · exact absurd hs' (hmember s hs route')
      · exact absurd hs (hmember s hs' route)
      · exact honce s route route' hs hs'
    · simp only [List.mem_singleton, forall_eq, meets_iff hl]
      rintro s hs route (⟨-, hmem⟩ | hmet)
      · exact hnew s hmem hs
      · exact hfresh s (List.mem_append_right _ hs) route hmet

/-- **Listing a body** keeps the pending bodies clear, and it is only possible if its members were
not found. -/
theorem clear_cons_iff (hchain : p.chain check body.1 (some body.2) = .ok l) :
    p.Clear check (body :: pending) found ↔ (∀ s ∈ l, s ∉ found) ∧
      p.Clear check ((l.flatMap p.ownedBodies).reverse ++ pending) (l.reverse ++ found) := by
  have hl := (chain_eq_ok hchain).1
  -- what is met from other bodies is no member, and is not met from the bodies of members
  have hcross : (∀ b ∈ pending, ∀ s route route', p.Meets body route s → ¬ p.Meets b route' s) ↔
      (∀ b ∈ pending, ∀ s ∈ l, ∀ route, ¬ p.Meets b route s) ∧
        ∀ a ∈ (l.flatMap p.ownedBodies).reverse, ∀ b ∈ pending, ∀ s route route',
          p.Meets a route s →
          ¬ p.Meets b route' s := by
    simp only [meets_iff hl]
    constructor
    · intro h
      refine ⟨fun b hb s hs route => h b hb s [] route (.inl ⟨rfl, hs⟩),
        fun a ha b hb s route route' hs => ?_⟩
      obtain ⟨c, hc, slot, first, rfl, hfirst⟩ := mem_bodies.mp ha
      exact h b hb s _ route' (.inr (metAlong_iff.mpr ⟨c, slot, first, route, hc, hfirst, rfl, hs⟩))
    · rintro ⟨hmembers, hbodies⟩ b hb s route route' (⟨-, hs⟩ | hs)
      · exact hmembers b hb s hs route'
      · obtain ⟨c, slot, first, rest, hc, hfirst, -, hs⟩ := metAlong_iff.mp hs
        exact hbodies _ (mem_bodies.mpr ⟨c, hc, slot, first, rfl, hfirst⟩) b hb s rest route' hs
  have hsplit : p.Clear check (body :: pending) found ↔ p.Clear check ([body] ++ pending) found :=
    Iff.rfl
  rw [hsplit, clear_append, clear_append, clear_singleton_iff hchain, clear_found_append pending]
  simp only [List.mem_singleton, forall_eq, hcross]
  tauto

/-! ## Going down -/

/-- A state of going down: the pending bodies and the statements found so far are in the program,
and no statement was found twice. -/
structure Underway (p : Program) (pending : List (StmtId × StmtId))
    (found : List StmtId) : Prop where
  begins : ∀ body ∈ pending, body.1 < p.stmts.size
  nodup : found.Nodup
  lt_size : ∀ s ∈ found, s < p.stmts.size

/-- A body begins with a statement of the program. -/
theorem InRange.lt_of_firstAt? (hp : p.InRange)
    (hfirst : p.firstAt? (.ofBody c slot) = some first) :
    first < p.stmts.size := by
  obtain ⟨stmt, hstmt, hslot⟩ := firstAt?_ofBody.mp hfirst
  exact hp.body stmt (Array.mem_of_getElem? hstmt) first (List.mem_of_getElem? hslot)

/-- Meeting the list of a body and taking up the bodies of its members keeps the statements
different and in the program. -/
theorem Underway.step (h : p.Underway (body :: pending) found) (hp : p.InRange)
    (hl : p.Path .next (some body.1) l) (hnew : ∀ s ∈ l, s ∉ found) :
    p.Underway ((l.flatMap p.ownedBodies).reverse ++ pending) (l.reverse ++ found) := by
  refine ⟨fun b hb => ?_, ?_, fun s hs => ?_⟩
  · rcases List.mem_append.mp hb with hb | hb
    · obtain ⟨c, -, slot, first, rfl, hfirst⟩ := mem_bodies.mp hb
      exact hp.lt_of_firstAt? hfirst
    · exact h.begins b (List.mem_cons_of_mem _ hb)
  · refine List.nodup_append.mpr ⟨List.nodup_reverse.mpr hl.nodup, h.nodup, ?_⟩
    rintro s hs t ht rfl
    exact hnew s (List.mem_reverse.mp hs) ht
  · rcases List.mem_append.mp hs with hs | hs
    · exact hl.lt_size (List.mem_reverse.mp hs)
    · exact h.lt_size s hs

/-- A member that was found before is reported. -/
theorem meetAll_eq_error (hlt : ∀ s ∈ l, s < p.stmts.size) (h : ∃ s ∈ l, s ∈ found) :
    ∃ line, p.meetAll l found = .error (.nestedTwice line) := by
  induction l generalizing found with
  | nil => simp at h
  | cons s l ih =>
    obtain ⟨stmt, hs⟩ := exists_stmt (hlt s List.mem_cons_self)
    unfold meetAll
    rw [getStmt_eq_ok.mpr hs]
    change ∃ line, (if found.contains s = true then _ else _) = _
    by_cases hfound : s ∈ found
    · rw [if_pos (List.contains_iff_mem.mpr hfound)]
      exact ⟨stmt.line, rfl⟩
    · rw [if_neg (fun hmem => hfound (List.contains_iff_mem.mp hmem))]
      obtain ⟨t, ht, htfound⟩ := h
      refine ih (fun t ht => hlt t (List.mem_cons_of_mem s ht))
        ⟨t, ?_, List.mem_cons_of_mem s htfound⟩
      rcases List.mem_cons.mp ht with rfl | ht
      · exact absurd htfound hfound
      · exact ht

/-- Where the list of a body is refused, going down is. -/
theorem descend_eq_error {bound : Nat} (hchain : p.chain check body.1 (some body.2) = .error e) :
    p.descend check (bound + 1) (body :: pending) found = .error e := by
  unfold descend
  rw [hchain]
  rfl

/-- Where the list of a body is given out, its members are met, and going down continues with their
bodies. -/
theorem descend_eq_bind {bound : Nat} (hchain : p.chain check body.1 (some body.2) = .ok l) :
    p.descend check (bound + 1) (body :: pending) found =
      (p.meetAll l found >>= p.descend check bound
        ((l.flatMap p.ownedBodies).reverse ++ pending)) := by
  unfold descend
  rw [hchain]
  rfl

/-- **Going down ends**, and the bound on the number of lists is of no consequence. From clear
bodies it gives all that is met from them, and otherwise it is refused because of a list or of a
statement that is met twice. -/
theorem Underway.descend_cases (h : p.Underway pending found) (hp : p.InRange) (check : Bool) :
    (p.Clear check pending found ∧
      ∃ all, (∀ s, s ∈ all ↔ s ∈ found ∨ ∃ body ∈ pending, ∃ route, p.Meets body route s) ∧
      ∀ bound, p.stmts.size < found.length + bound →
        p.descend check bound pending found = .ok all) ∨
    ¬ p.Clear check pending found ∧ ∃ e, (e.OfList ∨ ∃ line, e = .nestedTwice line) ∧
      ∀ bound, p.stmts.size < found.length + bound →
        p.descend check bound pending found = .error e := by
  have hlen := length_le_of_nodup_lt h.nodup h.lt_size
  -- how many statements are still to be found; it goes down with each list
  generalize hrest : p.stmts.size - found.length = rest
  induction rest using Nat.strongRecOn generalizing pending found with
  | ind rest ih =>
    cases pending with
    | nil =>
      left
      refine ⟨⟨by simp, by simp, List.Pairwise.nil, by simp⟩, found, by simp, fun bound _ => ?_⟩
      cases bound <;> rfl
    | cons body pending =>
      have hbound : ∀ bound, p.stmts.size < found.length + bound → ∃ b, bound = b + 1 :=
        fun bound hb => ⟨bound - 1, by omega⟩
      cases hchain : p.chain check body.1 (some body.2) with
      | error e =>
        right
        have he := (hp.faulty_of_chain (h.begins body List.mem_cons_self) hchain).1
        refine ⟨fun hclear => ?_, e, .inl he, fun bound hb => ?_⟩
        · obtain ⟨l, hl⟩ := hclear.fine body List.mem_cons_self [] body (.inl ⟨rfl, rfl⟩)
          cases hchain.symm.trans hl
        · obtain ⟨b, rfl⟩ := hbound bound hb
          exact descend_eq_error hchain
      | ok l =>
        have hl := (chain_eq_ok hchain).1
        by_cases hnew : ∀ s ∈ l, s ∉ found
        · have hmeet := meetAll_eq hl.nodup (fun s hs => hl.lt_size hs) hnew
          have hstep := h.step hp hl hnew
          have hlen' := length_le_of_nodup_lt hstep.nodup hstep.lt_size
          have hgrown : (l.reverse ++ found).length = l.length + found.length := by simp
          have hpos : 0 < l.length := List.length_pos_of_mem (hl.mem_iff_reflTransGen.mpr .refl)
          have hdescend : ∀ bound, p.descend check (bound + 1) (body :: pending) found =
              p.descend check bound ((l.flatMap p.ownedBodies).reverse ++ pending)
                (l.reverse ++ found) := by
            intro bound
            rw [descend_eq_bind hchain, hmeet]
            rfl
          rcases ih _ (by omega) hstep hlen' rfl with
            ⟨hclear, all, hmem, hall⟩ | ⟨hnot, e, he, hall⟩
          · left
            refine ⟨(clear_cons_iff hchain).mpr ⟨hnew, hclear⟩, all, fun s => ?_,
              fun bound hb => ?_⟩
            · rw [hmem, exists_meets_cons_iff hl, List.mem_append, List.mem_reverse, or_assoc,
                or_left_comm]
            · obtain ⟨b, rfl⟩ := hbound bound hb
              rw [hdescend]
              exact hall b (by omega)
          · right
            refine ⟨fun hclear => hnot ((clear_cons_iff hchain).mp hclear).2, e, he,
              fun bound hb => ?_⟩
            obtain ⟨b, rfl⟩ := hbound bound hb
            rw [hdescend]
            exact hall b (by omega)
        · right
          push Not at hnew
          obtain ⟨line, hmeet⟩ := meetAll_eq_error (fun s hs => hl.lt_size hs) hnew
          refine ⟨fun hclear => ?_, _, .inr ⟨line, rfl⟩, fun bound hb => ?_⟩
          · obtain ⟨s, hs, hfound⟩ := hnew
            exact ((clear_cons_iff hchain).mp hclear).1 s hs hfound
          · obtain ⟨b, rfl⟩ := hbound bound hb
            rw [descend_eq_bind hchain, hmeet]
            rfl

/-! ## Routes down from a container -/

/-- A route leads to a list within the program. -/
theorem InRange.lt_of_enters (hp : p.InRange) (h : p.Enters here route last) :
    last.1 < p.stmts.size := by
  induction h with
  | body _ hfirst => exact hp.lt_of_firstAt? hfirst
  | deeper _ _ _ ih => exact ih

/-- A list is listed without a refusal if it ends and its members link back as far as this is
checked. -/
theorem InRange.chain_ok_iff (hp : p.InRange) (hfirst : first < p.stmts.size)
    {owner : Option StmtId} :
    (∃ l, p.chain check first owner = .ok l) ↔ ¬ p.Endless first ∧ (check = true →
      ∀ s stmt, ReflTransGen (p.LinkTo .next) first s → p.stmts[s]? = some stmt →
        stmt.parent = owner) := by
  constructor
  · rintro ⟨l, hchain⟩
    obtain ⟨hl, hparent⟩ := chain_eq_ok hchain
    exact ⟨hl.not_endless,
      fun hcheck s stmt hs => hparent hcheck s (hl.mem_iff_reflTransGen.mpr hs) stmt⟩
  · rintro ⟨hends, hparent⟩
    obtain ⟨l, hl⟩ := hp.exists_path hfirst hends
    exact ⟨l, chain_eq_of_path hl fun hcheck s hs stmt =>
      hparent hcheck s stmt (hl.mem_iff_reflTransGen.mp hs)⟩

/-- The bodies of one statement are those of a list with only that statement. -/
theorem ownedBodies_eq_flatMap (p : Program) (c : StmtId) :
    p.ownedBodies c = [c].flatMap p.ownedBodies := by
  simp

/-- Being on a list of one is being that one. -/
theorem mem_singleton_eq (c : StmtId) : (· ∈ [c]) = (· = c) :=
  funext fun _ => propext List.mem_singleton

/-- Before a container is entered, nothing was found. -/
theorem InRange.underway_ownedBodies (hp : p.InRange) (c : StmtId) :
    p.Underway (p.ownedBodies c).reverse [] := by
  refine ⟨fun body hbody => ?_, List.nodup_nil, by simp⟩
  rw [ownedBodies_eq_flatMap] at hbody
  obtain ⟨d, -, slot, first, rfl, hfirst⟩ := mem_bodies.mp hbody
  exact hp.lt_of_firstAt? hfirst

/-- What is met from the bodies of a container is what is met along a route down from it. -/
theorem exists_meets_ownedBodies_iff :
    (∃ body ∈ (p.ownedBodies c).reverse, ∃ route, p.Meets body route s) ↔
    ∃ route, p.MetAlong (· = c) route s := by
  rw [ownedBodies_eq_flatMap, exists_meets_iff, mem_singleton_eq]

/-- Nothing stands in the way of going down from a container exactly if it has one route to
everything. -/
theorem InRange.clear_iff_oneRoute (hp : p.InRange) :
    p.Clear check (p.ownedBodies c).reverse [] ↔ p.OneRoute check c := by
  rw [ownedBodies_eq_flatMap, clear_bodies_iff (List.nodup_singleton c), mem_singleton_eq]
  constructor
  · rintro ⟨hfine, honce, -⟩
    refine ⟨fun route first owner h => ?_, fun hcheck route first owner s stmt h => ?_, honce⟩
    · exact ((hp.chain_ok_iff (hp.lt_of_enters h)).mp (hfine route _ h)).1
    · exact ((hp.chain_ok_iff (hp.lt_of_enters h)).mp (hfine route _ h)).2 hcheck s stmt
  · rintro ⟨hends, hlinked, honce⟩
    refine ⟨fun route last h => (hp.chain_ok_iff (hp.lt_of_enters h)).mpr ⟨hends route _ _ h, ?_⟩,
      honce, by simp⟩
    exact fun hcheck s stmt => hlinked hcheck route _ _ s stmt h

/-- A route may go on into a body of a member of the list that it leads to. -/
theorem Enters.append (h : p.Enters here route last) (hd : ReflTransGen (p.LinkTo .next) last.1 d)
    (hfirst : p.firstAt? (.ofBody d slot) = some first) :
    p.Enters here (route ++ [(d, slot)]) (first, d) := by
  induction h with
  | body hc hbody => exact .deeper hc hbody (.body hd hfirst)
  | deeper hc hbody _ ih => exact .deeper hc hbody (ih hd)

/-- A route ends with the container that it leads into, which is where it began or is met along the
rest of the route.
-/
theorem Enters.exists_append (h : p.Enters here route last) :
    ∃ before slot, route = before ++ [(last.2, slot)] ∧
      p.firstAt? (.ofBody last.2 slot) = some last.1 ∧
      (before = [] ∧ here last.2 ∨ p.MetAlong here before last.2) := by
  induction h with
  | @body here c first slot hc hfirst => exact ⟨[], slot, rfl, hfirst, .inl ⟨rfl, hc⟩⟩
  | @deeper here c first slot route last hc hfirst _ ih =>
    obtain ⟨before, lastSlot, rfl, hlast, hbefore⟩ := ih
    refine ⟨(c, slot) :: before, lastSlot, rfl, hlast, .inr ?_⟩
    rcases hbefore with ⟨rfl, hsteps⟩ | ⟨inner, hinner, hsteps⟩
    · exact ⟨(first, c), .body hc hfirst, hsteps⟩
    · exact ⟨inner, .deeper hc hfirst hinner, hsteps⟩

namespace OneRoute

/-- The container is not met on the way down: its bodies could be entered along two routes. -/
theorem not_met (h : p.OneRoute check c) : ¬ p.MetAlong (· = c) route c := by
  rintro ⟨last, hlast, hsteps⟩
  obtain ⟨c', slot, first, rest, rfl, hfirst, -, -⟩ := enters_iff.mp hlast
  have hagain :=
    h.once first _ _ ⟨_, .body rfl hfirst, .refl⟩ ⟨_, hlast.append hsteps hfirst, .refl⟩
  have hnil : route = [] := by simpa using hagain
  rw [hnil] at hlast
  cases hlast

/-- **One list for each statement** that is met: the list on which its route ends. -/
theorem existsUnique_site (h : p.OneRoute check c) (hp : p.InRange)
    (hs : p.MetAlong (· = c) route s) :
    ∃! site : StmtId × Nat, (site.1 = c ∨ ∃ route, p.MetAlong (· = c) route site.1) ∧
      p.OnList (.ofBody site.1 site.2) s := by
  -- a list of the container, or of a statement that is met, is at the end of a route
  have hroute : ∀ d slot, (d = c ∨ ∃ route, p.MetAlong (· = c) route d) →
      p.OnList (.ofBody d slot) s →
      ∃ before, p.MetAlong (· = c) (before ++ [(d, slot)]) s := by
    rintro d slot hd ⟨l, ⟨first, hfirst, hl⟩, hmem⟩
    have hsteps := hl.mem_iff_reflTransGen.mp hmem
    rcases hd with rfl | ⟨before, inner, hinner, hd⟩
    · exact ⟨[], _, .body rfl hfirst, hsteps⟩
    · exact ⟨before, _, hinner.append hd hfirst, hsteps⟩
  obtain ⟨last, hlast, hsteps⟩ := hs
  obtain ⟨before, slot, rfl, hfirst, hbefore⟩ := hlast.exists_append
  obtain ⟨l, hl⟩ := hp.exists_path (hp.lt_of_enters hlast) (h.ends _ _ _ hlast)
  refine ⟨(last.2, slot), ⟨?_, l, ⟨last.1, hfirst, hl⟩, hl.mem_iff_reflTransGen.mpr hsteps⟩, ?_⟩
  · exact hbefore.imp (fun h => h.2) fun h => ⟨before, h⟩
  · rintro ⟨d, slot'⟩ ⟨hd, hon⟩
    obtain ⟨before', hs'⟩ := hroute d slot' hd hon
    have hsame := h.once s _ _ hs' ⟨last, hlast, hsteps⟩
    exact (List.cons.inj (List.append_inj' hsame rfl).2).1

end OneRoute

end Program

/-! ## The answer -/

namespace Solver

open Program

variable {p : Program} {c : StmtId}

/-- **What is nested in a container** of any program whose links are in range. Going down ends,
whatever larger bound it is given. It gives an answer exactly if each statement is met along one
route only, on lists that end and whose members link back if this is checked. The answer is then all
that is met. The container is not in it, and each of its statements is on one list only of those of
the container and of statements in the answer. Without an answer, a list or a statement that is met
twice is at fault. -/
theorem parentStar_right_by_routes (hp : p.InRange) (check : Bool) (hc : c < p.stmts.size) :
    (∀ bound, p.stmts.size < bound →
      p.descend check bound (p.ownedBodies c).reverse [] = p.descendants check c) ∧
    ((∃ D, (parentStar p check).right (.stmt c) = .ok D) ↔ p.OneRoute check c) ∧
    (∀ D, (parentStar p check).right (.stmt c) = .ok D →
      (∀ x, x ∈ D ↔ ∃ s, x = .stmt s ∧ ∃ route, p.MetAlong (· = c) route s) ∧ .stmt c ∉ D ∧
      ∀ s, .stmt s ∈ D → ∃! site : StmtId × Nat, (site.1 = c ∨ .stmt site.1 ∈ D) ∧
        p.OnList (.ofBody site.1 site.2) s) ∧
    ∀ e, (parentStar p check).right (.stmt c) = .error e → e.OfList ∨
      ∃ line, e = .nestedTwice line := by
  obtain ⟨stmt, hstmt⟩ := exists_stmt hc
  rw [parentStar_right hstmt]
  rcases (hp.underway_ownedBodies c).descend_cases hp check with
    ⟨hclear, all, hmem, hall⟩ | ⟨hnot, e, he, hall⟩
  · have hroute := hp.clear_iff_oneRoute.mp hclear
    have hdescend : p.descendants check c = .ok all := hall (p.stmts.size + 1) (by simp)
    have hmet : ∀ s, s ∈ all ↔ ∃ route, p.MetAlong (· = c) route s := by
      intro s
      rw [hmem, exists_meets_ownedBodies_iff]
      simp
    rw [hdescend]
    refine ⟨fun bound hbound => hall bound (by simpa using hbound),
      ⟨fun _ => hroute, fun _ => ⟨_, rfl⟩⟩, fun D hD => ?_, fun e he => by cases he⟩
    cases hD
    refine ⟨fun x => ?_, ?_, fun s hs => ?_⟩
    · simp only [ConditionSet.mem_ofStmts, hmet, eq_comm, and_comm]
    · rw [mem_ofStmts_stmt, hmet]
      rintro ⟨route, hc⟩
      exact hroute.not_met hc
    · obtain ⟨route, hs⟩ := (hmet s).mp (mem_ofStmts_stmt.mp hs)
      simpa only [mem_ofStmts_stmt, hmet] using hroute.existsUnique_site hp hs
  · have hdescend : p.descendants check c = .error e := hall (p.stmts.size + 1) (by simp)
    rw [hdescend]
    refine ⟨fun bound hbound => hall bound (by simpa using hbound), ⟨?_, fun hroute => ?_⟩,
      fun D hD => ?_, fun e' he' => ?_⟩
    · rintro ⟨D, hD⟩
      cases hD
    · exact absurd (hp.clear_iff_oneRoute.mpr hroute) hnot
    · cases hD
    · cases he'
      exact he

/-- `exampleProgram` with the first body of its branch running on into the list of its first
procedure. -/
def strayProgram : Program := exampleProgram.overwriteNext 3 (some 0)

/-- The statements of the other procedure are nested in the branch, unless parent links are checked:
then the answer is refused, since they do not link back. -/
theorem parentStar_right_strayProgram :
    (strayProgram.OneRoute false 2 ∧ ∃ D, (parentStar strayProgram false).right (.stmt 2) = .ok D ∧
      .stmt 1 ∈ D) ∧
      ¬ strayProgram.OneRoute true 2 := by
  have hp : strayProgram.InRange :=
    built_exampleProgram.wellFormed.inRange.overwriteNext 3 (by decide)
  have hsize : 2 < strayProgram.stmts.size := by decide
  have hright : (parentStar strayProgram false).right (.stmt 2) = .ok (.ofStmts [1, 0, 3, 4]) := by
    decide +kernel
  have hrefused : ¬ ∃ D, (parentStar strayProgram true).right (.stmt 2) = .ok D := by
    rintro ⟨D, hD⟩
    have herror : (parentStar strayProgram true).right (.stmt 2) =
        .error (.misplaced 1 (some 3) none) := by
      decide +kernel
    cases hD.symm.trans herror
  exact ⟨⟨(parentStar_right_by_routes hp false hsize).2.1.mp ⟨_, hright⟩, _, hright, by decide⟩,
    fun hroute => hrefused ((parentStar_right_by_routes hp true hsize).2.1.mpr hroute)⟩

end Solver

end ProgramQuery
