import Mathlib.Data.List.Nodup
import Mathlib.Data.List.Perm.Basic
import ProgramQuery.Proofs.DraftRuns

/-!
# The visits of a placement

Finishing a draft makes visits, starting with one to the body of each procedure; a visit places a
statement and leads to visits of its bodies and of what follows it. `Visits after pending made` says
that the visits `made`, in their order, are those that pending visits lead to.

Three things follow from it alone. Every visit made was pending or comes after one that was made,
and exactly once (`Visits.perm`); what holds of pending visits and passes on to the visits after one
holds of all (`Visits.forall_made`); and what holds of a visit once it holds of the visits after it
holds of all (`Visits.forall_made_of_after`), because no visit leads back to itself.

A draft that is finished has its visits to different statements (`Program.Layout`), which is all
that the well-formedness of programs rests on.
-/

set_option autoImplicit false

namespace ProgramQuery

open ExceptSteps
open Draft (Place Visit visitsAfter)

/-! ## Visits and those they lead to -/

/-- The visits made, in order, from pending ones, where `after` gives the visits that one leads
to. -/
inductive Visits (after : Visit → List Visit) : List Visit → List Visit → Prop where
  | done : Visits after [] []
  | visit (v : Visit) {pending made : List Visit} (h : Visits after (after v ++ pending) made) :
      Visits after (v :: pending) (v :: made)

namespace Visits

variable {after : Visit → List Visit} {pending made pending' made' : List Visit}

/-- The visits from two groups of pending ones are made one group after the other. -/
theorem append (h : Visits after pending made) (h' : Visits after pending' made') :
    Visits after (pending ++ pending') (made ++ made') := by
  induction h with
  | done => exact h'
  | visit v h ih =>
    rw [List.append_assoc] at ih
    exact Visits.visit v ih

/-- Every visit made was pending or comes after one that was made, and each only once. -/
theorem perm (h : Visits after pending made) :
    made.Perm (pending ++ made.flatMap after) := by
  induction h with
  | done => exact List.Perm.refl _
  | @visit v pending made h ih =>
    rw [List.cons_append, List.flatMap_cons]
    refine List.Perm.cons v (ih.trans ?_)
    rw [← List.append_assoc]
    exact List.Perm.append_right _ List.perm_append_comm

/-- A visit that was made was pending, or another one led to it. -/
theorem mem_iff (h : Visits after pending made) {v : Visit} :
    v ∈ made ↔ v ∈ pending ∨ ∃ u ∈ made, v ∈ after u := by
  rw [h.perm.mem_iff, List.mem_append, List.mem_flatMap]

/-- What holds of pending visits and passes on to the visits after one holds of all visits made. -/
theorem forall_made (h : Visits after pending made) {P : Visit → Prop}
    (hpending : ∀ v ∈ pending, P v) (hafter : ∀ u, u ∈ made → P u → ∀ v ∈ after u, P v) :
    ∀ v ∈ made, P v := by
  induction h with
  | done => simp
  | @visit v pending made h ih =>
    have hv : P v := hpending v List.mem_cons_self
    intro w hw
    rcases List.mem_cons.mp hw with rfl | hw
    · exact hv
    · refine ih ?_ ?_ w hw
      · intro x hx
        rcases List.mem_append.mp hx with hx | hx
        · exact hafter v List.mem_cons_self hv x hx
        · exact hpending x (List.mem_cons_of_mem v hx)
      · intro u hu
        exact hafter u (List.mem_cons_of_mem v hu)

/-- What holds of a visit once it holds of the visits after it holds of all visits made. -/
theorem forall_made_of_after (h : Visits after pending made) {P : Visit → Prop}
    (hafter : ∀ u, u ∈ made → (∀ v ∈ after u, P v) → P u) : ∀ v ∈ made, P v := by
  induction h with
  | done => simp
  | @visit v pending made h ih =>
    have hmade : ∀ w ∈ made, P w := ih fun u hu => hafter u (List.mem_cons_of_mem v hu)
    intro w hw
    rcases List.mem_cons.mp hw with rfl | hw
    · -- the visits after `w` are made after it
      refine hafter w List.mem_cons_self fun x hx => hmade x ?_
      exact h.mem_iff.mpr (Or.inl (List.mem_append_left pending hx))
    · exact hmade w hw

/-- Only what the visits made lead to matters. -/
theorem congr {after' : Visit → List Visit} (h : Visits after pending made)
    (heq : ∀ v ∈ made, after v = after' v) : Visits after' pending made := by
  induction h with
  | done => exact Visits.done
  | @visit v pending made h ih =>
    refine Visits.visit v ?_
    rw [← heq v List.mem_cons_self]
    exact ih fun w hw => heq w (List.mem_cons_of_mem v hw)

end Visits

/-! ## What the visits do to the places -/

/-- Visits fill places: they go to different statements, which had no place before, and give each
the place of its visit. -/
structure Placed (places places' : Array (Option Place)) (made : List Visit) : Prop where
  size_eq : places'.size = places.size
  before : ∀ v ∈ made, places[v.stmt]? = some none
  once : (made.map Visit.stmt).Nodup
  placed : ∀ v ∈ made, places'[v.stmt]? = some (some v.place)
  others : ∀ s, s ∉ made.map Visit.stmt → places'[s]? = places[s]?

namespace Placed

variable {places places' places'' : Array (Option Place)} {made made' : List Visit}

/-- Without visits, places stay as they are. -/
theorem refl (places : Array (Option Place)) : Placed places places [] := by
  constructor <;> simp

/-- A visit to a statement without a place fills this place. -/
theorem single {v : Visit} (h : places[v.stmt]? = some none) :
    Placed places (places.setIfInBounds v.stmt (some v.place)) [v] := by
  obtain ⟨hlt, -⟩ := Array.getElem?_eq_some_iff.mp h
  refine ⟨by simp, by simpa using h, by simp, ?_, ?_⟩
  · intro w hw
    rw [List.mem_singleton.mp hw]
    exact Array.getElem?_setIfInBounds_self_of_lt hlt
  · intro s hs
    have hne : v.stmt ≠ s := by
      intro heq
      exact hs (by simp [heq])
    exact Array.getElem?_setIfInBounds_ne hne

/-- Visits one after the other go to different statements, because places stay filled. -/
theorem trans (h : Placed places places' made) (h' : Placed places' places'' made') :
    Placed places places'' (made ++ made') := by
  have hdisjoint : ∀ v ∈ made, v.stmt ∉ made'.map Visit.stmt := by
    intro v hv hmem
    obtain ⟨w, hw, heq⟩ := List.mem_map.mp hmem
    have hnone := h'.before w hw
    rw [heq, h.placed v hv] at hnone
    cases hnone
  refine ⟨h'.size_eq.trans h.size_eq, ?_, ?_, ?_, ?_⟩
  · intro v hv
    rcases List.mem_append.mp hv with hv | hv
    · exact h.before v hv
    · have hnot : v.stmt ∉ made.map Visit.stmt := by
        intro hmem
        obtain ⟨w, hw, heq⟩ := List.mem_map.mp hmem
        exact hdisjoint w hw (heq ▸ List.mem_map_of_mem hv)
      rw [← h.others v.stmt hnot]
      exact h'.before v hv
  · rw [List.map_append]
    refine List.nodup_append'.mpr ⟨h.once, h'.once, ?_⟩
    intro s hs hs'
    obtain ⟨v, hv, rfl⟩ := List.mem_map.mp hs
    exact hdisjoint v hv hs'
  · intro v hv
    rcases List.mem_append.mp hv with hv | hv
    · rw [h'.others v.stmt (hdisjoint v hv)]
      exact h.placed v hv
    · exact h'.placed v hv
  · intro s hs
    rw [List.map_append, List.mem_append, not_or] at hs
    rw [h'.others s hs.2, h.others s hs.1]

end Placed

namespace Draft

variable {d : Draft} {places places' : Array (Option Place)}

/-- The visits that a visit leads to in a draft. -/
def nextVisits (d : Draft) (v : Visit) : List Visit :=
  match d.stmts[v.stmt]? with
  | none => []
  | some stmt =>
    match stmt.sealedKind with
    | .error _ => []
    | .ok kind => visitsAfter v kind stmt.next

/-- What a visit leads to is found in the sealed kind of its statement and in what follows it. -/
theorem nextVisits_eq {v : Visit} {stmt : DraftStmt} {kind : StmtKind StmtId}
    (hstmt : d.stmts[v.stmt]? = some stmt) (hkind : stmt.sealedKind = .ok kind) :
    d.nextVisits v = visitsAfter v kind stmt.next := by
  unfold nextVisits
  rw [hstmt]
  simp only [hkind]

/-- A visit to a statement that has its place is refused. -/
theorem visitAll_placed {bound : Nat} {v : Visit} {pending : List Visit} {stmt : DraftStmt}
    {place : Place} (hstmt : d.stmts[v.stmt]? = some stmt)
    (hplace : places[v.stmt]? = some (some place)) :
    d.visitAll bound (v :: pending) places = .error (.reachedTwice stmt.line) := by
  unfold visitAll
  rw [getStmt_eq_ok.mpr hstmt, hplace]
  cases bound <;> rfl

/-- A visit to a statement without a place gives it its place, if no body of it is missing. -/
theorem visitAll_free {bound : Nat} {v : Visit} {pending : List Visit} {stmt : DraftStmt}
    (hstmt : d.stmts[v.stmt]? = some stmt) (hfree : places[v.stmt]? = some none) :
    d.visitAll (bound + 1) (v :: pending) places = (do
      let kind ← stmt.sealedKind
      d.visitAll bound (visitsAfter v kind stmt.next ++ pending)
        (places.setIfInBounds v.stmt (some v.place))) := by
  rw [visitAll, getStmt_eq_ok.mpr hstmt, hfree]
  rfl

/-- Making pending visits fills the places of the statements that they lead to. -/
theorem visitAll_eq_ok {bound : Nat} {pending : List Visit}
    (h : d.visitAll bound pending places = .ok places') :
    ∃ made, Visits d.nextVisits pending made ∧ Placed places places' made := by
  induction bound generalizing pending places with
  | zero =>
    cases pending with
    | nil =>
      cases h
      exact ⟨[], Visits.done, Placed.refl _⟩
    | cons v pending =>
      unfold visitAll at h
      obtain ⟨stmt, -, h⟩ := bind_eq_ok.mp h
      cases h
  | succ bound ih =>
    cases pending with
    | nil =>
      cases h
      exact ⟨[], Visits.done, Placed.refl _⟩
    | cons v pending =>
      unfold visitAll at h
      obtain ⟨stmt, hstmt, h⟩ := bind_eq_ok.mp h
      cases hplace : places[v.stmt]? with
      | none =>
        rw [hplace] at h
        cases h
      | some place =>
        cases place with
        | some place =>
          rw [hplace] at h
          cases h
        | none =>
          rw [hplace] at h
          obtain ⟨kind, hkind, h⟩ := bind_eq_ok.mp h
          obtain ⟨made, hmade, hplaced⟩ := ih h
          rw [← nextVisits_eq (getStmt_eq_ok.mp hstmt) hkind] at hmade
          exact ⟨v :: made, Visits.visit v hmade, (Placed.single hplace).trans hplaced⟩

/-- The visits to the bodies of procedures. -/
def rootVisits (procs : List (DraftProc × ProcId)) : List Visit :=
  procs.filterMap fun (proc, q) => proc.first.map fun first => ⟨first, ⟨q, none, none⟩⟩

/-- Placing the statements of procedures makes the visits to their bodies and what these lead to. -/
theorem placeProcs_eq_ok {procs : List (DraftProc × ProcId)}
    (h : d.placeProcs procs places = .ok places') :
    ∃ made, Visits d.nextVisits (rootVisits procs) made ∧ Placed places places' made := by
  induction procs generalizing places with
  | nil =>
    cases h
    exact ⟨[], Visits.done, Placed.refl _⟩
  | cons entry procs ih =>
    obtain ⟨proc, q⟩ := entry
    cases hfirst : proc.first with
    | none =>
      unfold placeProcs at h
      rw [hfirst] at h
      cases h
    | some first =>
      unfold placeProcs at h
      rw [hfirst] at h
      obtain ⟨places₁, hvisit, h⟩ := bind_eq_ok.mp h
      obtain ⟨made₁, hmade₁, hplaced₁⟩ := visitAll_eq_ok hvisit
      obtain ⟨made₂, hmade₂, hplaced₂⟩ := ih h
      have hroots : rootVisits ((proc, q) :: procs) =
          [⟨first, ⟨q, none, none⟩⟩] ++ rootVisits procs := by
        simp [rootVisits, hfirst]
      rw [hroots]
      exact ⟨made₁ ++ made₂, hmade₁.append hmade₂, hplaced₁.trans hplaced₂⟩

/-! ## The program of a finished draft -/

/-- A procedure is sealed under its name, with the body that was set. -/
theorem sealProc_eq_ok {proc : DraftProc} {proc' : Proc} :
    sealProc proc = .ok proc' ↔ proc = ⟨proc'.name, some proc'.first⟩ := by
  obtain ⟨name, first⟩ := proc
  obtain ⟨name', first'⟩ := proc'
  cases first <;> simp [sealProc]

/-- A statement is sealed with its line, its bodies and what follows it, at the place that it was
given. -/
theorem sealStmt_eq_ok {stmt : DraftStmt} {place : Option Place} {stmt' : Stmt}
    (h : sealStmt stmt place = .ok stmt') :
    ∃ (at_ : Place) (kind : StmtKind StmtId), place = some at_ ∧ stmt.sealedKind = .ok kind ∧
      stmt' = ⟨stmt.line, stmt.next, at_.prev, at_.parent, at_.owner, kind⟩ := by
  cases place with
  | none => cases h
  | some at_ =>
    obtain ⟨kind, hkind, h⟩ := bind_eq_ok.mp h
    cases h
    exact ⟨at_, kind, rfl, hkind, rfl⟩

/-- A program is a draft at places: it has the procedures of the draft with their bodies, and its
statements with their bodies, each at its place. -/
structure SealedAt (d : Draft) (places : Array (Option Place)) (p : Program) : Prop where
  size_procs : p.procs.size = d.procs.size
  size_stmts : p.stmts.size = d.stmts.size
  proc : ∀ (q : ProcId) (proc : DraftProc), d.procs[q]? = some proc →
    ∃ proc', p.procs[q]? = some proc' ∧ proc = ⟨proc'.name, some proc'.first⟩
  stmt : ∀ (s : StmtId) (stmt : DraftStmt), d.stmts[s]? = some stmt →
    ∃ (at_ : Place) (kind : StmtKind StmtId), places[s]? = some (some at_) ∧
      stmt.sealedKind = .ok kind ∧
      p.stmts[s]? = some ⟨stmt.line, stmt.next, at_.prev, at_.parent, at_.owner, kind⟩

/-- Finishing a draft places its statements and then seals it at the places. -/
theorem finish_eq_ok {p : Program} (h : d.finish = .ok p) :
    ∃ places, d.placeProcs d.procs.toList.zipIdx (Array.replicate d.stmts.size none) = .ok places ∧
      d.SealedAt places p := by
  unfold finish at h
  obtain ⟨places, hplaces, h⟩ := bind_eq_ok.mp h
  obtain ⟨procs, hprocs, h⟩ := bind_eq_ok.mp h
  obtain ⟨stmts, hstmts, h⟩ := bind_eq_ok.mp h
  cases h
  obtain ⟨made, -, hplaced⟩ := placeProcs_eq_ok hplaces
  obtain ⟨hprocsLen, hprocsAt⟩ := getElem?_of_mapM hprocs
  obtain ⟨hstmtsLen, hstmtsAt⟩ := getElem?_of_mapM hstmts
  have hsize : places.size = d.stmts.size := by simpa using hplaced.size_eq
  refine ⟨places, hplaces, ?_, ?_, ?_, ?_⟩
  · simpa using hprocsLen
  · simpa [hsize] using hstmtsLen
  · intro q proc hq
    obtain ⟨proc', hproc', hseal⟩ := hprocsAt q proc (by simpa using hq)
    exact ⟨proc', by simpa using hproc', sealProc_eq_ok.mp hseal⟩
  · intro s stmt hs
    have hlt : s < places.size := by
      obtain ⟨hlt, -⟩ := Array.getElem?_eq_some_iff.mp hs
      rw [hsize]
      exact hlt
    have hzip : (d.stmts.toList.zip places.toList)[s]? = some (stmt, places[s]) := by
      rw [List.getElem?_zip_eq_some]
      exact ⟨by simpa using hs, by simp [hlt]⟩
    obtain ⟨stmt', hstmt', hseal⟩ := hstmtsAt s _ hzip
    obtain ⟨at_, kind, hat, hkind, rfl⟩ := sealStmt_eq_ok hseal
    refine ⟨at_, kind, ?_, hkind, by simpa using hstmt'⟩
    rw [Array.getElem?_eq_getElem hlt, hat]

/-- A draft is finished once its statements are placed, if no body is missing. -/
theorem exists_finish_of_filled
    (hplaces : d.placeProcs d.procs.toList.zipIdx (Array.replicate d.stmts.size none) = .ok places)
    (hprocs : ∀ proc ∈ d.procs, proc.first ≠ none)
    (hkinds : ∀ stmt ∈ d.stmts, ∃ kind, stmt.sealedKind = .ok kind)
    (hfilled : ∀ s, s < d.stmts.size → ∃ place, places[s]? = some (some place)) :
    ∃ p, d.finish = .ok p := by
  have hsealProcs : ∀ proc ∈ d.procs.toList, ∃ proc', sealProc proc = .ok proc' := by
    intro proc hproc
    obtain ⟨first, hfirst⟩ := Option.ne_none_iff_exists'.mp (hprocs proc (Array.mem_def.mpr hproc))
    refine ⟨⟨proc.name, first⟩, sealProc_eq_ok.mpr ?_⟩
    rw [← hfirst]
  have hsealStmts : ∀ entry ∈ d.stmts.toList.zip places.toList,
      ∃ stmt, sealStmt entry.1 entry.2 = .ok stmt := by
    intro entry hentry
    obtain ⟨s, hs⟩ := List.mem_iff_getElem?.mp hentry
    obtain ⟨hstmt, hplace⟩ := List.getElem?_zip_eq_some.mp hs
    have hstmt : d.stmts[s]? = some entry.1 := by simpa using hstmt
    have hplace : places[s]? = some entry.2 := by simpa using hplace
    obtain ⟨kind, hkind⟩ := hkinds entry.1 (Array.mem_of_getElem? hstmt)
    obtain ⟨place, hat⟩ := hfilled s (Array.getElem?_eq_some_iff.mp hstmt).1
    have hentry : entry.2 = some place := Option.some.inj (hplace.symm.trans hat)
    rw [hentry]
    exact ⟨_, bind_eq_ok.mpr ⟨kind, hkind, rfl⟩⟩
  obtain ⟨procs, hprocsOk⟩ := mapM_ends hsealProcs
  obtain ⟨stmts, hstmtsOk⟩ := mapM_ends hsealStmts
  exact ⟨_, bind_eq_ok.mpr ⟨places, hplaces, bind_eq_ok.mpr ⟨procs, hprocsOk,
    bind_eq_ok.mpr ⟨stmts, hstmtsOk, rfl⟩⟩⟩⟩

end Draft

/-! ## The layout of a program -/

namespace Program

/-- The visits that a visit leads to in a program. -/
def nextVisits (p : Program) (v : Visit) : List Visit :=
  match p.stmts[v.stmt]? with
  | none => []
  | some stmt => visitsAfter v stmt.kind stmt.next

/-- The visits to the bodies of the procedures of a program. -/
def rootVisits (p : Program) : List Visit :=
  p.procs.toList.zipIdx.map fun (proc, q) => ⟨proc.first, ⟨q, none, none⟩⟩

/-- The visits `made` are those that the procedures lead to; they go to each statement once, and the
place of a statement is that of its visit. -/
structure Layout (p : Program) (made : List Visit) : Prop where
  visits : Visits p.nextVisits p.rootVisits made
  once : (made.map Visit.stmt).Nodup
  covers : ∀ s, s < p.stmts.size → ∃ v ∈ made, v.stmt = s
  place : ∀ v ∈ made, ∃ stmt, p.stmts[v.stmt]? = some stmt ∧
    stmt.prev = v.place.prev ∧ stmt.parent = v.place.parent ∧ stmt.owner = v.place.owner

end Program

/-- The procedures of a program lead to the same visits as those of its draft. -/
theorem Draft.SealedAt.rootVisits_eq {d : Draft} {places : Array (Option Place)} {p : Program}
    (h : d.SealedAt places p) : Draft.rootVisits d.procs.toList.zipIdx = p.rootVisits := by
  have hprocs : d.procs.toList = p.procs.toList.map fun proc => ⟨proc.name, some proc.first⟩ := by
    apply List.ext_getElem?
    intro q
    cases hq : d.procs[q]? with
    | none =>
      have hnone : p.procs[q]? = none := by
        rw [Array.getElem?_eq_none_iff] at hq ⊢
        rw [h.size_procs]
        exact hq
      simp [hq, hnone]
    | some proc =>
      obtain ⟨proc', hproc', rfl⟩ := h.proc q proc hq
      simp [hq, hproc']
  unfold Draft.rootVisits Program.rootVisits
  rw [hprocs, List.zipIdx_map, List.filterMap_map, ← List.filterMap_eq_map]
  rfl

/-- **A finished draft** has a layout: every statement was visited, and no statement twice. -/
theorem Draft.exists_layout {d : Draft} {p : Program} (h : d.finish = .ok p) :
    ∃ made, p.Layout made := by
  obtain ⟨places, hplaces, hseal⟩ := finish_eq_ok h
  obtain ⟨made, hmade, hplaced⟩ := placeProcs_eq_ok hplaces
  have hstmt : ∀ v ∈ made, ∃ stmt, d.stmts[v.stmt]? = some stmt := by
    intro v hv
    obtain ⟨hlt, -⟩ := Array.getElem?_eq_some_iff.mp (hplaced.before v hv)
    exact ⟨_, Array.getElem?_eq_getElem (by simpa using hlt)⟩
  have hnext : ∀ v ∈ made, d.nextVisits v = p.nextVisits v := by
    intro v hv
    obtain ⟨stmt, hs⟩ := hstmt v hv
    obtain ⟨at_, kind, -, hkind, hp⟩ := hseal.stmt v.stmt stmt hs
    rw [Draft.nextVisits_eq hs hkind]
    unfold Program.nextVisits
    rw [hp]
  refine ⟨made, ?_, hplaced.once, ?_, ?_⟩
  · rw [← hseal.rootVisits_eq]
    exact hmade.congr hnext
  · intro s hs
    rw [hseal.size_stmts] at hs
    obtain ⟨at_, kind, hat, -, -⟩ := hseal.stmt s _ (Array.getElem?_eq_getElem hs)
    by_contra hnone
    -- a statement that was not visited would have been left without a place
    have hnot : s ∉ made.map Visit.stmt := by
      intro hmem
      obtain ⟨v, hv, heq⟩ := List.mem_map.mp hmem
      exact hnone ⟨v, hv, heq⟩
    rw [hplaced.others s hnot] at hat
    simp [hs] at hat
  · intro v hv
    obtain ⟨stmt, hs⟩ := hstmt v hv
    obtain ⟨at_, kind, hat, -, hp⟩ := hseal.stmt v.stmt stmt hs
    rw [hplaced.placed v hv] at hat
    cases hat
    exact ⟨_, hp, rfl, rfl, rfl⟩

end ProgramQuery
