import ProgramQuery.Proofs.Listings
import ProgramQuery.Proofs.WellFormedPrograms

/-!
# Unfolding built programs

Every statement of a built program unfolds to a listing (`Layout.exists_unfolds`), because the
visits of its placement come to an end. An unfolding meets the statements in the order of these
visits (`UnfoldsTo.order_eq`), so the unfolding of a whole program meets every statement of it once
(`Built.unfoldsTo_order`). What any statement unfolds to is a stretch of the whole
(`Unfolds.of_mem`).
-/

set_option autoImplicit false

namespace ProgramQuery

open Draft (Place Visit visitsAfter)

/-- Pending visits decide which visits are made. -/
theorem Visits.unique {after : Visit → List Visit} {pending made made' : List Visit}
    (h : Visits after pending made) (h' : Visits after pending made') : made = made' := by
  induction h generalizing made' with
  | done =>
    cases h'
    rfl
  | visit v _ ih =>
    cases h' with
    | visit _ h' => rw [ih h']

namespace Program

variable {p : Program} {made : List Visit} {start : Option StmtId} {s : StmtId} {listing : Listing}
  {ids : List StmtId}

/-! ## Unfoldings exist -/

/-- **What is visited unfolds**, since it does once its bodies and what follows it do. -/
theorem Layout.exists_unfolds (h : p.Layout made) (hp : p.WellFormed) :
    ∀ v ∈ made, ∃ listing ids, p.Unfolds (some v.stmt) listing ids := by
  refine h.visits.forall_made_of_after ?_
  intro u hu ih
  obtain ⟨stmt, hs, -⟩ := h.place u hu
  have hbody : ∀ first ∈ stmt.kind.bodies, ∃ listing ids, p.Unfolds (some first) listing ids := by
    intro first hfirst
    exact ih _ ((mem_nextVisits hs).mpr (Or.inl ⟨first, hfirst, rfl⟩))
  have hnext : ∃ rest ids, p.Unfolds stmt.next rest ids := by
    cases hnext : stmt.next with
    | none => exact ⟨.done, [], .done⟩
    | some t => exact ih _ ((mem_nextVisits hs).mpr (Or.inr ⟨t, hnext, rfl⟩))
  obtain ⟨rest, ids, hrest⟩ := hnext
  cases hkind : stmt.kind with
  | assign target value => exact ⟨_, _, .assign hs hkind hrest⟩
  | call q =>
    have hq := hp.callee_lt u.stmt q stmt hs hkind
    exact ⟨_, _, .call hs hkind (Array.getElem?_eq_getElem hq) hrest⟩
  | branch cond thenFirst elseFirst =>
    rw [hkind] at hbody
    obtain ⟨thenBody, thenIds, hthen⟩ := hbody thenFirst (by simp [StmtKind.bodies])
    obtain ⟨elseBody, elseIds, helse⟩ := hbody elseFirst (by simp [StmtKind.bodies])
    exact ⟨_, _, .branch hs hkind hthen helse hrest⟩
  | loop cond first =>
    rw [hkind] at hbody
    obtain ⟨body, bodyIds, hbody⟩ := hbody first (by simp [StmtKind.bodies])
    exact ⟨_, _, .loop hs hkind hbody hrest⟩

/-- Procedures unfold if the list of each one does. -/
theorem exists_unfoldsAll {procs : List Proc}
    (h : ∀ proc ∈ procs, ∃ body ids, p.Unfolds (some proc.first) body ids) :
    ∃ listings ids, p.UnfoldsAll procs listings ids := by
  induction procs with
  | nil => exact ⟨[], [], .nil⟩
  | cons proc procs ih =>
    obtain ⟨⟨body, bodyIds, hbody⟩, hprocs⟩ := List.forall_mem_cons.mp h
    obtain ⟨listings, ids, hrest⟩ := ih hprocs
    exact ⟨_, _, .cons hbody hrest⟩

/-! ## The order of an unfolding -/

/-- A visit to a statement comes before those that it leads to. -/
theorem visits_some {stmt : Stmt} {place : Place} (hs : p.stmts[s]? = some stmt)
    (h : Visits p.nextVisits (visitsAfter ⟨s, place⟩ stmt.kind stmt.next) made) :
    Visits p.nextVisits [⟨s, place⟩] (⟨s, place⟩ :: made) := by
  apply Visits.visit
  unfold nextVisits
  rw [hs, List.append_nil]
  exact h

/-- **An unfolding is a course of visits**: a statement, its bodies, and what follows it. -/
theorem Unfolds.visits (h : p.Unfolds start listing ids) (place : Place) :
    ∃ made, Visits p.nextVisits (start.toList.map fun s => ⟨s, place⟩) made ∧
      made.map Visit.stmt = ids := by
  induction h generalizing place with
  | done => exact ⟨[], Visits.done, rfl⟩
  | @assign s stmt target value rest ids hs hkind _ ih =>
    obtain ⟨made, hmade, hids⟩ := ih ⟨place.owner, place.parent, some s⟩
    refine ⟨⟨s, place⟩ :: made, visits_some hs ?_, by rw [List.map_cons, hids]⟩
    rw [hkind]
    exact hmade
  | @call s stmt q proc rest ids hs hkind _ _ ih =>
    obtain ⟨made, hmade, hids⟩ := ih ⟨place.owner, place.parent, some s⟩
    refine ⟨⟨s, place⟩ :: made, visits_some hs ?_, by rw [List.map_cons, hids]⟩
    rw [hkind]
    exact hmade
  | @branch s stmt cond thenFirst elseFirst thenBody elseBody rest thenIds elseIds ids
      hs hkind _ _ _ ihThen ihElse ih =>
    obtain ⟨madeThen, hmadeThen, hidsThen⟩ := ihThen ⟨place.owner, some s, none⟩
    obtain ⟨madeElse, hmadeElse, hidsElse⟩ := ihElse ⟨place.owner, some s, none⟩
    obtain ⟨made, hmade, hids⟩ := ih ⟨place.owner, place.parent, some s⟩
    refine ⟨⟨s, place⟩ :: (madeThen ++ (madeElse ++ made)), visits_some hs ?_, ?_⟩
    · rw [hkind]
      exact hmadeThen.append (hmadeElse.append hmade)
    · rw [List.map_cons, List.map_append, List.map_append, hidsThen, hidsElse, hids]
  | @loop s stmt cond first body rest bodyIds ids hs hkind _ _ ihBody ih =>
    obtain ⟨madeBody, hmadeBody, hidsBody⟩ := ihBody ⟨place.owner, some s, none⟩
    obtain ⟨made, hmade, hids⟩ := ih ⟨place.owner, place.parent, some s⟩
    refine ⟨⟨s, place⟩ :: (madeBody ++ made), visits_some hs ?_, ?_⟩
    · rw [hkind]
      exact hmadeBody.append hmade
    · rw [List.map_cons, List.map_append, hidsBody, hids]

/-- Procedures that unfold are visited in the order of the source. -/
theorem UnfoldsAll.visits {procs : List Proc} {listings : List ProcListing}
    (h : p.UnfoldsAll procs listings ids) (q : ProcId) :
    ∃ made, Visits p.nextVisits
        ((procs.zipIdx q).map fun (proc, q) => ⟨proc.first, ⟨q, none, none⟩⟩) made ∧
      made.map Visit.stmt = ids := by
  induction h generalizing q with
  | nil => exact ⟨[], Visits.done, rfl⟩
  | cons hbody _ ih =>
    obtain ⟨made, hmade, hids⟩ := hbody.visits ⟨q, none, none⟩
    obtain ⟨made', hmade', hids'⟩ := ih (q + 1)
    refine ⟨made ++ made', hmade.append hmade', ?_⟩
    rw [List.map_append, hids, hids']

/-- The numbers that a program unfolds to are in the order of the visits. -/
theorem UnfoldsTo.order_eq {listings : List ProcListing} (h : p.UnfoldsTo listings ids)
    (hlayout : p.Layout made) : ids = made.map Visit.stmt := by
  obtain ⟨made', hmade', hids⟩ := UnfoldsAll.visits h 0
  rw [← hids, hmade'.unique hlayout.visits]

/-! ## Parts of an unfolding -/

/-- A list that unfolds begins with a statement of the program. -/
theorem Unfolds.exists_stmt (h : p.Unfolds (some s) listing ids) :
    ∃ stmt, p.stmts[s]? = some stmt := by
  cases h with
  | assign hs _ _ | call hs _ _ _ | branch hs _ _ _ _ | loop hs _ _ _ => exact ⟨_, hs⟩

/-- An unfolding meets a statement, what its bodies unfold to, and what the rest of the list unfolds
to. -/
theorem Unfolds.exists_parts {stmt : Stmt} (h : p.Unfolds (some s) listing ids)
    (hs : p.stmts[s]? = some stmt) :
    ∃ bodies rest, ids = s :: (bodies.flatten ++ rest) ∧
      List.Forall₂ (fun first ids => ∃ body, p.Unfolds (some first) body ids)
        stmt.kind.bodies bodies ∧
      ∃ more, p.Unfolds stmt.next more rest := by
  cases h with
  | assign hs' hkind hrest | call hs' hkind _ hrest =>
    cases hs.symm.trans hs'
    rw [hkind]
    exact ⟨[], _, rfl, .nil, _, hrest⟩
  | branch hs' hkind hthen helse hrest =>
    cases hs.symm.trans hs'
    rw [hkind]
    exact ⟨[_, _], _, by simp, .cons ⟨_, hthen⟩ (.cons ⟨_, helse⟩ .nil), _, hrest⟩
  | loop hs' hkind hbody hrest =>
    cases hs.symm.trans hs'
    rw [hkind]
    exact ⟨[_], _, by simp, .cons ⟨_, hbody⟩ .nil, _, hrest⟩

/-- **What is met unfolds to a stretch** of the unfolding that meets it. -/
theorem Unfolds.of_mem (h : p.Unfolds start listing ids) (hs : s ∈ ids) :
    ∃ part partIds, p.Unfolds (some s) part partIds ∧ partIds <:+: ids := by
  -- by induction on the number of statements met, which is less for bodies and for the rest of the
  -- list
  induction hn : ids.length using Nat.strongRecOn generalizing start listing ids with
  | _ n ih =>
    subst hn
    cases start with
    | none =>
      cases h
      cases hs
    | some s' =>
      obtain ⟨stmt, hstmt⟩ := h.exists_stmt
      obtain ⟨bodies, rest, rfl, hbodies, more, hrest⟩ := h.exists_parts hstmt
      rw [List.length_cons, List.length_append] at ih
      rcases List.mem_cons.mp hs with rfl | hs
      · exact ⟨listing, _, h, List.infix_rfl⟩
      rcases List.mem_append.mp hs with hs | hs
      · obtain ⟨bodyIds, hmem, hs⟩ := List.mem_flatten.mp hs
        obtain ⟨i, hi⟩ := List.mem_iff_getElem?.mp hmem
        obtain ⟨first, -, body, hbody⟩ := ExceptSteps.getElem?_of_forall₂ hbodies.flip i bodyIds hi
        have hinner := List.infix_of_mem_flatten hmem
        have hle := hinner.length_le
        obtain ⟨part, partIds, hpart, hin⟩ := ih bodyIds.length (by omega) hbody hs rfl
        refine ⟨part, partIds, hpart, (hin.trans hinner).trans ?_⟩
        exact (List.prefix_append _ _).isInfix.trans (List.suffix_cons _ _).isInfix
      · obtain ⟨part, partIds, hpart, hin⟩ := ih rest.length (by omega) hrest hs rfl
        exact ⟨part, partIds, hpart,
          hin.trans ((List.suffix_append _ _).trans (List.suffix_cons _ _)).isInfix⟩

/-- From each statement of procedures that unfold, a list unfolds, to a stretch of their numbers. -/
theorem UnfoldsAll.of_mem {procs : List Proc} {listings : List ProcListing}
    (h : p.UnfoldsAll procs listings ids) (hs : s ∈ ids) :
    ∃ part partIds, p.Unfolds (some s) part partIds ∧ partIds <:+: ids := by
  induction h with
  | nil => cases hs
  | cons hbody _ ih =>
    rcases List.mem_append.mp hs with hs | hs
    · obtain ⟨part, partIds, hpart, hin⟩ := hbody.of_mem hs
      exact ⟨part, partIds, hpart, hin.trans (List.prefix_append _ _).isInfix⟩
    · obtain ⟨part, partIds, hpart, hin⟩ := ih hs
      exact ⟨part, partIds, hpart, hin.trans (List.suffix_append _ _).isInfix⟩

/-! ## Built programs -/

/-- The statements of a built program are visited once each, at their places. -/
theorem Built.exists_layout (h : p.Built) : ∃ made, p.Layout made := by
  obtain ⟨d, -, hfinish⟩ := h.exists_draft
  exact Draft.exists_layout hfinish

/-- **Every built program unfolds** to a listing. -/
theorem Built.exists_unfoldsTo (h : p.Built) : ∃ listings ids, p.UnfoldsTo listings ids := by
  obtain ⟨made, hlayout⟩ := h.exists_layout
  apply exists_unfoldsAll
  intro proc hproc
  obtain ⟨q, hq⟩ := List.mem_iff_getElem?.mp hproc
  exact hlayout.exists_unfolds h.wellFormed _ (hlayout.root_mem (by simpa using hq))

/-- **Unfolding a built program meets every statement once.** -/
theorem Built.unfoldsTo_order (h : p.Built) {listings : List ProcListing}
    (hunfolds : p.UnfoldsTo listings ids) : ids.Nodup ∧ ∀ s, s ∈ ids ↔ s < p.stmts.size := by
  obtain ⟨made, hlayout⟩ := h.exists_layout
  rw [hunfolds.order_eq hlayout]
  refine ⟨hlayout.once, ?_⟩
  intro s
  rw [List.mem_map]
  constructor
  · rintro ⟨v, hv, rfl⟩
    obtain ⟨stmt, hs, -⟩ := hlayout.place v hv
    exact lt_size_of_getElem? hs
  · exact hlayout.covers s

end Program

end ProgramQuery
