import ProgramQuery.Proofs.LaidPrograms
import ProgramQuery.Proofs.SourceMatches
import ProgramQuery.Proofs.WellFormedPrograms

/-!
# The program of a text

The statements of a listing, laid out one after the other, are placed in the order of the source
(`visits_of_lays`): none is met twice and none is left out, so the draft can be finished
(`finish_laidOut`). Along the links of the program that comes out the listing is met again
(`SealedAt.unfolds`). A text that writes procedures out is read as their sources, which are laid out
in this way (`Source.exists_toProgram`).
-/

set_option autoImplicit false

namespace ProgramQuery

open ExceptSteps

namespace Draft

variable {d : Draft} {names : List String} {s : Nat} {places places' : Array (Option Place)}

/-! ## Where statements lie -/

/-- The given statements lie at the given number and after it. -/
def Holds (d : Draft) (s : Nat) (stmts : List DraftStmt) : Prop :=
  ∀ i stmt, stmts[i]? = some stmt → d.stmts[s + i]? = some stmt

/-- The first of some statements lies at the number, and the others after it. -/
theorem Holds.cons {stmt : DraftStmt} {stmts : List DraftStmt} (h : d.Holds s (stmt :: stmts)) :
    d.stmts[s]? = some stmt ∧ d.Holds (s + 1) stmts := by
  refine ⟨h 0 stmt rfl, ?_⟩
  intro i other hi
  rw [Nat.add_assoc, Nat.add_comm 1 i]
  exact h (i + 1) other hi

/-- Statements in two parts lie one part after the other. -/
theorem Holds.append {stmts stmts' : List DraftStmt} (h : d.Holds s (stmts ++ stmts')) :
    d.Holds s stmts ∧ d.Holds (s + stmts.length) stmts' := by
  constructor
  · intro i stmt hi
    apply h i stmt
    rw [List.getElem?_append_left (List.getElem?_eq_some_iff.mp hi).1, hi]
  · intro i stmt hi
    rw [Nat.add_assoc]
    apply h (stmts.length + i) stmt
    rw [List.getElem?_append_right (Nat.le_add_right _ _), Nat.add_sub_cancel_left, hi]

/-- The statements of a list lie at the given number and after it. -/
def Lays (d : Draft) (names : List String) (s : Nat) (listing : Listing) : Prop :=
  d.Holds s (listing.laid d.firstLine names s)

namespace Lays

variable {cond : String} {thenBody elseBody body rest : Listing}

/-- A conditional lies before its bodies, and these before what follows it. -/
theorem branch (h : d.Lays names s (.branch cond thenBody elseBody rest)) :
    d.stmts[s]? = some ⟨d.firstLine + s, rest.firstAt (s + 1 + thenBody.size + elseBody.size),
      .branch cond (thenBody.firstAt (s + 1)) (elseBody.firstAt (s + 1 + thenBody.size))⟩ ∧
    d.Lays names (s + 1) thenBody ∧ d.Lays names (s + 1 + thenBody.size) elseBody ∧
      d.Lays names (s + 1 + thenBody.size + elseBody.size) rest := by
  obtain ⟨hs, hbodies⟩ := h.cons
  obtain ⟨hthen, hrest⟩ := hbodies.append
  obtain ⟨helse, hrest⟩ := hrest.append
  rw [Listing.length_laid] at helse hrest
  rw [Listing.length_laid] at hrest
  exact ⟨hs, hthen, helse, hrest⟩

/-- A loop lies before its body, and this before what follows it. -/
theorem loop (h : d.Lays names s (.loop cond body rest)) :
    d.stmts[s]? = some ⟨d.firstLine + s, rest.firstAt (s + 1 + body.size),
      .loop cond (body.firstAt (s + 1))⟩ ∧
    d.Lays names (s + 1) body ∧ d.Lays names (s + 1 + body.size) rest := by
  obtain ⟨hs, hbodies⟩ := h.cons
  obtain ⟨hbody, hrest⟩ := hbodies.append
  rw [Listing.length_laid] at hrest
  exact ⟨hs, hbody, hrest⟩

end Lays

/-! ## Placing statements -/

/-- The visit to the first statement of a list. -/
def firstVisit (first : Option StmtId) (place : Place) : List Visit :=
  first.toList.map fun s => ⟨s, place⟩

/-- Visits to a list begin with that of its first statement. -/
theorem visits_first {stmt : DraftStmt} {kind : StmtKind StmtId} {place : Place} {made : List Visit}
    (hs : d.stmts[s]? = some stmt) (hkind : stmt.sealedKind = .ok kind)
    (h : Visits d.nextVisits (visitsAfter ⟨s, place⟩ kind stmt.next) made) :
    Visits d.nextVisits (firstVisit (some s) place) (⟨s, place⟩ :: made) := by
  apply Visits.visit
  rw [List.map_nil, List.append_nil, nextVisits_eq hs hkind]
  exact h

/-- **The statements of a list are visited in the order in which they lie.** -/
theorem visits_of_lays {listing : Listing} (hlays : d.Lays names s listing)
    (hlegal : listing.Legal names) (place : Place) :
    ∃ made, Visits d.nextVisits (firstVisit (listing.firstAt s) place) made ∧
      made.map Visit.stmt = List.range' s listing.size := by
  induction listing generalizing s place with
  | done => exact ⟨[], Visits.done, rfl⟩
  | assign target value rest ih =>
    obtain ⟨hs, hrest⟩ := hlays.cons
    obtain ⟨made, hmade, hids⟩ := ih hrest hlegal.2.2 ⟨place.owner, place.parent, some s⟩
    refine ⟨⟨s, place⟩ :: made, visits_first hs rfl hmade, ?_⟩
    rw [Listing.size, Nat.add_comm, List.range'_succ, List.map_cons, hids]
  | call callee rest ih =>
    obtain ⟨hs, hrest⟩ := hlays.cons
    obtain ⟨made, hmade, hids⟩ := ih hrest hlegal.2 ⟨place.owner, place.parent, some s⟩
    refine ⟨⟨s, place⟩ :: made, visits_first hs rfl hmade, ?_⟩
    rw [Listing.size, Nat.add_comm, List.range'_succ, List.map_cons, hids]
  | branch cond thenBody elseBody rest ihThen ihElse ih =>
    obtain ⟨hs, hthen, helse, hrest⟩ := hlays.branch
    obtain ⟨-, ⟨hneThen, hlegalThen⟩, ⟨hneElse, hlegalElse⟩, hlegalRest⟩ := hlegal
    obtain ⟨madeThen, hmadeThen, hidsThen⟩ := ihThen hthen hlegalThen ⟨place.owner, some s, none⟩
    obtain ⟨madeElse, hmadeElse, hidsElse⟩ := ihElse helse hlegalElse ⟨place.owner, some s, none⟩
    obtain ⟨made, hmade, hids⟩ := ih hrest hlegalRest ⟨place.owner, place.parent, some s⟩
    rw [Listing.firstAt_of_ne hneThen] at hs hmadeThen
    rw [Listing.firstAt_of_ne hneElse] at hs hmadeElse
    refine ⟨⟨s, place⟩ :: (madeThen ++ (madeElse ++ made)),
      visits_first hs rfl (hmadeThen.append (hmadeElse.append hmade)), ?_⟩
    rw [List.map_cons, List.map_append, List.map_append, hidsThen, hidsElse, hids,
      Listing.range'_branch]
  | loop cond body rest ihBody ih =>
    obtain ⟨hs, hbody, hrest⟩ := hlays.loop
    obtain ⟨-, ⟨hne, hlegalBody⟩, hlegalRest⟩ := hlegal
    obtain ⟨madeBody, hmadeBody, hidsBody⟩ := ihBody hbody hlegalBody ⟨place.owner, some s, none⟩
    obtain ⟨made, hmade, hids⟩ := ih hrest hlegalRest ⟨place.owner, place.parent, some s⟩
    rw [Listing.firstAt_of_ne hne] at hs hmadeBody
    refine ⟨⟨s, place⟩ :: (madeBody ++ made), visits_first hs rfl (hmadeBody.append hmade), ?_⟩
    rw [List.map_cons, List.map_append, hidsBody, hids, Listing.range'_loop]

/-- A statement of a list of the language has all of its bodies. -/
theorem sealedKind_of_laid {line : Nat} {listing : Listing} (hlegal : listing.Legal names) :
    ∀ stmt ∈ listing.laid line names s, ∃ kind, stmt.sealedKind = .ok kind := by
  induction listing generalizing s with
  | done => simp [Listing.laid]
  | assign target value rest ih =>
    exact List.forall_mem_cons.mpr ⟨⟨_, rfl⟩, ih hlegal.2.2⟩
  | call callee rest ih =>
    exact List.forall_mem_cons.mpr ⟨⟨_, rfl⟩, ih hlegal.2⟩
  | branch cond thenBody elseBody rest ihThen ihElse ih =>
    obtain ⟨-, ⟨hneThen, hlegalThen⟩, ⟨hneElse, hlegalElse⟩, hlegalRest⟩ := hlegal
    refine List.forall_mem_cons.mpr ⟨?_, List.forall_mem_append.mpr ⟨ihThen hlegalThen,
      List.forall_mem_append.mpr ⟨ihElse hlegalElse, ih hlegalRest⟩⟩⟩
    rw [Listing.firstAt_of_ne hneThen, Listing.firstAt_of_ne hneElse]
    exact ⟨_, rfl⟩
  | loop cond body rest ihBody ih =>
    obtain ⟨-, ⟨hne, hlegalBody⟩, hlegalRest⟩ := hlegal
    refine List.forall_mem_cons.mpr
      ⟨?_, List.forall_mem_append.mpr ⟨ihBody hlegalBody, ih hlegalRest⟩⟩
    rw [Listing.firstAt_of_ne hne]
    exact ⟨_, rfl⟩

/-- The laid out statements of legal procedures can be sealed. -/
theorem sealedKind_of_laid_procs {line : Nat} {procs : List ProcListing}
    (hlegal : ∀ proc ∈ procs, proc.body.Legal names) :
    ∀ stmt ∈ ProcListing.laid line names s procs, ∃ kind, stmt.sealedKind = .ok kind := by
  induction procs generalizing s with
  | nil => simp [ProcListing.laid]
  | cons proc procs ih =>
    obtain ⟨hproc, hprocs⟩ := List.forall_mem_cons.mp hlegal
    exact List.forall_mem_append.mpr ⟨sealedKind_of_laid hproc, ih hprocs⟩

/-- A procedure whose body is not empty is laid out with a first statement. -/
theorem first_ne_none_of_laidProcs {procs : List ProcListing}
    (h : ∀ proc ∈ procs, proc.body ≠ .done) :
    ∀ proc ∈ ProcListing.laidProcs s procs, proc.first ≠ none := by
  induction procs generalizing s with
  | nil => simp [ProcListing.laidProcs]
  | cons proc procs ih =>
    obtain ⟨hne, hprocs⟩ := List.forall_mem_cons.mp h
    refine List.forall_mem_cons.mpr ⟨?_, ih hprocs⟩
    rw [Listing.firstAt_of_ne hne]
    simp

/-- **Visits to different statements can all be made**, if these have their bodies and were not
placed. -/
theorem visitAll_of_visits {pending made : List Visit} (h : Visits d.nextVisits pending made)
    (hkinds : ∀ stmt ∈ d.stmts, ∃ kind, stmt.sealedKind = .ok kind)
    (hsize : places.size = d.stmts.size) (honce : (made.map Visit.stmt).Nodup)
    (hfree : ∀ s ∈ made.map Visit.stmt, places[s]? = some none) (bound : Nat)
    (hbound : made.length ≤ bound) :
    ∃ places', d.visitAll bound pending places = .ok places' ∧ Placed places places' made := by
  induction h generalizing places bound with
  | done => exact ⟨places, by rw [visitAll], Placed.refl places⟩
  | @visit v pending made _ ih =>
    rw [List.map_cons, List.nodup_cons] at honce
    obtain ⟨hv, hfree⟩ := List.forall_mem_cons.mp hfree
    obtain ⟨bound, rfl⟩ : ∃ n, bound = n + 1 :=
      ⟨bound - 1, by rw [List.length_cons] at hbound; omega⟩
    have hlt : v.stmt < d.stmts.size := by
      rw [← hsize]
      exact (Array.getElem?_eq_some_iff.mp hv).1
    have hstmt := Array.getElem?_eq_getElem hlt
    obtain ⟨kind, hkind⟩ := hkinds _ (Array.mem_of_getElem? hstmt)
    have hfree' : ∀ s ∈ made.map Visit.stmt,
        (places.setIfInBounds v.stmt (some v.place))[s]? = some none := by
      intro s hs
      have hne : v.stmt ≠ s := by
        intro heq
        exact honce.1 (heq ▸ hs)
      rw [Array.getElem?_setIfInBounds_ne hne]
      exact hfree s hs
    obtain ⟨places', hvisit, hplaced⟩ :=
      ih (by simpa using hsize) honce.2 hfree' bound (Nat.le_of_succ_le_succ hbound)
    refine ⟨places', ?_, (Placed.single hv).trans hplaced⟩
    rw [nextVisits_eq hstmt hkind] at hvisit
    unfold visitAll
    refine bind_eq_ok.mpr ⟨_, getStmt_eq_ok.mpr hstmt, ?_⟩
    rw [hv]
    exact bind_eq_ok.mpr ⟨kind, hkind, hvisit⟩

/-- Placing the statements of procedures that lie one after the other fills the places up to the
end. -/
theorem placeProcs_laid (procs : List ProcListing) (q : Nat)
    (hholds : d.Holds s (ProcListing.laid d.firstLine names s procs))
    (hbodies : ∀ proc ∈ procs, proc.body ≠ .done ∧ proc.body.Legal names)
    (hkinds : ∀ stmt ∈ d.stmts, ∃ kind, stmt.sealedKind = .ok kind)
    (hsize : places.size = d.stmts.size) (hend : s + ProcListing.total procs = d.stmts.size)
    (hfree : ∀ i, s ≤ i → i < d.stmts.size → places[i]? = some none) :
    ∃ places' made, d.placeProcs ((ProcListing.laidProcs s procs).zipIdx q) places = .ok places' ∧
      Placed places places' made ∧
      made.map Visit.stmt = List.range' s (ProcListing.total procs) := by
  induction procs generalizing s q places with
  | nil => exact ⟨places, [], rfl, Placed.refl places, rfl⟩
  | cons proc procs ih =>
    obtain ⟨⟨hne, hlegal⟩, hbodies⟩ := List.forall_mem_cons.mp hbodies
    obtain ⟨hbody, hrest⟩ := hholds.append
    rw [Listing.length_laid] at hrest
    rw [ProcListing.total] at hend
    obtain ⟨made, hmade, hids⟩ := visits_of_lays hbody hlegal ⟨q, none, none⟩
    rw [Listing.firstAt_of_ne hne] at hmade
    have hlength : made.length = proc.body.size := by
      rw [← List.length_map Visit.stmt, hids, List.length_range']
    have hbodyFree : ∀ i ∈ made.map Visit.stmt, places[i]? = some none := by
      intro i hi
      rw [hids, List.mem_range'_1] at hi
      exact hfree i hi.1 (by omega)
    obtain ⟨places₁, hvisit, hplaced⟩ :=
      visitAll_of_visits hmade hkinds hsize (hids ▸ List.nodup_range')
      hbodyFree d.stmts.size (by omega)
    have hrestFree : ∀ i, s + proc.body.size ≤ i → i < d.stmts.size → places₁[i]? = some none := by
      intro i hle hlt
      rw [hplaced.others i (by rw [hids, List.mem_range'_1]; omega)]
      exact hfree i (by omega) hlt
    obtain ⟨places₂, made', hprocs, hplaced', hids'⟩ := ih (q + 1) hrest hbodies
      (hplaced.size_eq.trans hsize) (by omega) hrestFree
    refine ⟨places₂, made ++ made', ?_, hplaced.trans hplaced', ?_⟩
    · rw [ProcListing.laidProcs, List.zipIdx_cons, Listing.firstAt_of_ne hne]
      exact bind_eq_ok.mpr ⟨places₁, hvisit, hprocs⟩
    · rw [List.map_append, hids, hids', ProcListing.total, List.range'_append_1]

/-- The draft of procedures whose statements lie one after the other. -/
def laidOut (line : Nat) (procs : List ProcListing) : Draft :=
  Source.draftOf line (ProcListing.laidProcs 0 procs).toArray
    (ProcListing.laid line (procs.map (·.name)) 0 procs)

variable {line : Nat} {procs : List ProcListing} {p : Program}

/-- The draft has as many statements as the procedures. -/
theorem size_laidOut (line : Nat) : (laidOut line procs).stmts.size = ProcListing.total procs := by
  simp [laidOut, Source.draftOf, ProcListing.length_laid]

/-- The statements of the draft lie from number zero on. -/
theorem holds_laidOut :
    (laidOut line procs).Holds 0 (ProcListing.laid line (procs.map (·.name)) 0 procs) := by
  intro i stmt hi
  simpa [laidOut, Source.draftOf] using hi

/-- **The draft of a program of the language can be finished.** -/
theorem finish_laidOut (line : Nat) (hlegal : ProcListing.Legal procs) :
    ∃ p, (laidOut line procs).finish = .ok p := by
  have hkinds : ∀ stmt ∈ (laidOut line procs).stmts, ∃ kind, stmt.sealedKind = .ok kind := by
    intro stmt hstmt
    exact sealedKind_of_laid_procs (fun proc hproc => (hlegal.bodies proc hproc).2) stmt
      (Array.mem_def.mp hstmt)
  have hfree : ∀ i, 0 ≤ i → i < (laidOut line procs).stmts.size →
      (Array.replicate (laidOut line procs).stmts.size (none : Option Place))[i]? = some none := by
    intro i _ hi
    simp [hi]
  obtain ⟨places, made, hplaces, hplaced, hids⟩ :=
    placeProcs_laid procs 0 holds_laidOut hlegal.bodies
    hkinds (by simp) (by rw [size_laidOut, Nat.zero_add]) hfree
  refine exists_finish_of_filled hplaces ?_ hkinds ?_
  · intro proc hproc
    exact first_ne_none_of_laidProcs (fun proc hproc => (hlegal.bodies proc hproc).1) proc
      (Array.mem_def.mp hproc)
  · intro s hs
    have hmem : s ∈ made.map Visit.stmt := by
      rw [hids, ← size_laidOut line, List.mem_range'_1]
      omega
    obtain ⟨v, hv, rfl⟩ := List.mem_map.mp hmem
    exact ⟨v.place, hplaced.placed v hv⟩

/-! ## Following the links -/

/-- A name of the draft is that of a procedure of the program, with the same number. -/
theorem SealedAt.exists_proc_named (hp : d.SealedAt places p)
    (hnames : d.procs.toList.map (·.name) = names) {name : String} (h : name ∈ names) :
    ∃ proc, p.procs[names.idxOf name]? = some proc ∧ proc.name = name := by
  subst hnames
  have hlt := List.idxOf_lt_length_iff.mpr h
  have hname := List.getElem_idxOf hlt
  rw [List.length_map] at hlt
  rw [List.getElem_map] at hname
  obtain ⟨proc, hproc, heq⟩ := hp.proc _ _ (Array.getElem?_eq_getElem hlt)
  refine ⟨proc, hproc, ?_⟩
  rw [← hname, Array.getElem_toList, heq]

/-- **A list is met again** along the links of the statements that were laid out for it. -/
theorem SealedAt.unfolds (hp : d.SealedAt places p) (hnames : d.procs.toList.map (·.name) = names)
    {listing : Listing} (hlays : d.Lays names s listing) (hlegal : listing.Legal names) :
    p.Unfolds (listing.firstAt s) listing (List.range' s listing.size) := by
  induction listing generalizing s with
  | done => exact .done
  | assign target value rest ih =>
    obtain ⟨hs, hrest⟩ := hlays.cons
    obtain ⟨place, kind, -, hkind, hstmt⟩ := hp.stmt s _ hs
    cases hkind
    rw [Listing.size, Nat.add_comm, List.range'_succ]
    exact .assign hstmt rfl (ih hrest hlegal.2.2)
  | call callee rest ih =>
    obtain ⟨hs, hrest⟩ := hlays.cons
    obtain ⟨place, kind, -, hkind, hstmt⟩ := hp.stmt s _ hs
    cases hkind
    obtain ⟨proc, hproc, rfl⟩ := hp.exists_proc_named hnames hlegal.1
    rw [Listing.size, Nat.add_comm, List.range'_succ]
    exact .call hstmt rfl hproc (ih hrest hlegal.2)
  | branch cond thenBody elseBody rest ihThen ihElse ih =>
    obtain ⟨hs, hthen, helse, hrest⟩ := hlays.branch
    obtain ⟨-, ⟨hneThen, hlegalThen⟩, ⟨hneElse, hlegalElse⟩, hlegalRest⟩ := hlegal
    have hunfolds := ihThen hthen hlegalThen
    have hunfolds' := ihElse helse hlegalElse
    rw [Listing.firstAt_of_ne hneThen] at hs hunfolds
    rw [Listing.firstAt_of_ne hneElse] at hs hunfolds'
    obtain ⟨place, kind, -, hkind, hstmt⟩ := hp.stmt s _ hs
    cases hkind
    rw [← Listing.range'_branch]
    exact .branch hstmt rfl hunfolds hunfolds' (ih hrest hlegalRest)
  | loop cond body rest ihBody ih =>
    obtain ⟨hs, hbody, hrest⟩ := hlays.loop
    obtain ⟨-, ⟨hne, hlegalBody⟩, hlegalRest⟩ := hlegal
    have hunfolds := ihBody hbody hlegalBody
    rw [Listing.firstAt_of_ne hne] at hs hunfolds
    obtain ⟨place, kind, -, hkind, hstmt⟩ := hp.stmt s _ hs
    cases hkind
    rw [← Listing.range'_loop]
    exact .loop hstmt rfl hunfolds (ih hrest hlegalRest)

/-- Procedures are met again, with the names that they were declared under. -/
theorem SealedAt.unfoldsAll (hp : d.SealedAt places p)
    (hnames : d.procs.toList.map (·.name) = names) {procs : List ProcListing} {sealed : List Proc}
    (hholds : d.Holds s (ProcListing.laid d.firstLine names s procs))
    (hbodies : ∀ proc ∈ procs, proc.body ≠ .done ∧ proc.body.Legal names)
    (hprocs : List.Forall₂ (fun draft proc => draft = ⟨proc.name, some proc.first⟩)
      (ProcListing.laidProcs s procs) sealed) :
    p.UnfoldsAll sealed procs (List.range' s (ProcListing.total procs)) := by
  induction procs generalizing s sealed with
  | nil =>
    cases hprocs
    exact .nil
  | cons proc procs ih =>
    obtain ⟨⟨hne, hlegal⟩, hbodies⟩ := List.forall_mem_cons.mp hbodies
    obtain ⟨hbody, hrest⟩ := hholds.append
    rw [Listing.length_laid] at hrest
    have hunfolds := hp.unfolds hnames hbody hlegal
    rw [Listing.firstAt_of_ne hne] at hunfolds
    cases hprocs with
    | @cons _ sealedProc _ sealed heq hsealed =>
      rw [Listing.firstAt_of_ne hne, DraftProc.mk.injEq, Option.some.injEq] at heq
      obtain ⟨hname, hfirst⟩ := heq
      have hbodyUnfolds :
          p.Unfolds (some sealedProc.first) proc.body (List.range' s proc.body.size) :=
        hfirst ▸ hunfolds
      have hall := Program.UnfoldsAll.cons hbodyUnfolds (ih hrest hbodies hsealed)
      rw [← hname, List.range'_append_1] at hall
      exact hall

/-- The procedures of the program are those of the draft, one by one. -/
theorem SealedAt.forall₂_procs (hp : d.SealedAt places p) :
    List.Forall₂ (fun draft proc => draft = ⟨proc.name, some proc.first⟩) d.procs.toList
      p.procs.toList := by
  refine List.forall₂_iff_get.mpr ⟨by simpa using hp.size_procs.symm, ?_⟩
  intro q hq hq'
  have hq : q < d.procs.size := by simpa using hq
  obtain ⟨proc, hproc, heq⟩ := hp.proc q _ (Array.getElem?_eq_getElem hq)
  have hget := (Array.getElem?_eq_some_iff.mp hproc).2
  simpa [hget] using heq

end Draft

/-! ## From the text to the program -/

/-- Reading sources lays out their statements and finishes the draft. -/
theorem Source.exists_toProgram (settings : Settings) {sources : List Source.Proc}
    {procs : List ProcListing} (hsources : sources.map Proc.listing = procs)
    (hlegal : ProcListing.Legal procs)
    (hlines : settings.firstLine + ProcListing.total procs ≤ maxLine + 1) :
    ∃ p, toProgram settings sources = .ok p ∧
      (Draft.laidOut settings.firstLine procs).finish = .ok p ∧
      (Draft.laidOut settings.firstLine procs).Sound := by
  subst hsources
  have hnames : (sources.map Proc.listing).map (·.name) = sources.map (·.name) := by
    rw [List.map_map]
    rfl
  have hdistinct := hlegal.distinct
  have hbodies := hlegal.bodies
  rw [hnames] at hdistinct hbodies
  obtain ⟨p, hp⟩ := Draft.finish_laidOut settings.firstLine hlegal
  have hdeclare : declareAll sources (.start settings) =
      .ok (draftOf settings.firstLine (sources.map declared).toArray []) :=
    declareAll_eq settings.firstLine [] [] sources hdistinct
  have hadd : addBodies 0 sources (draftOf settings.firstLine (sources.map declared).toArray []) =
      .ok (Draft.laidOut settings.firstLine (sources.map Proc.listing)) := by
    rw [Draft.laidOut, hnames]
    exact addBodies_eq settings.firstLine sources [] [] rfl
      (fun proc hproc => hbodies _ (List.mem_map_of_mem hproc)) hlines
  refine ⟨p, bind_eq_ok.mpr ⟨_, hdeclare, bind_eq_ok.mpr ⟨_, hadd, step_eq_ok.mpr hp⟩⟩, hp, ?_⟩
  exact sound_addBodies 0 _ (sound_declareAll _ (Draft.sound_start settings) hdeclare) hadd

/-- What is laid out for procedures unfolds to them. -/
theorem Draft.unfoldsTo_laidOut {line : Nat} {procs : List ProcListing} {p : Program}
    (hlegal : ProcListing.Legal procs) (h : (Draft.laidOut line procs).finish = .ok p) :
    p.UnfoldsTo procs (List.range (ProcListing.total procs)) := by
  obtain ⟨places, -, hp⟩ := Draft.finish_eq_ok h
  rw [List.range_eq_range']
  exact hp.unfoldsAll (ProcListing.names_laidProcs 0 procs) Draft.holds_laidOut hlegal.bodies
    hp.forall₂_procs

/-- A text that is read as a source stands for what the source stands for. -/
theorem Program.ofText_eq_toProgram (settings : Settings) {text : String}
    {sources : List Source.Proc} (h : Source.ofText? text = some sources) :
    Program.ofText settings text = Source.toProgram settings sources := by
  unfold Program.ofText
  -- what is read of a text must not be computed here
  generalize Source.ofText? text = read at h
  rw [h]

/-- A text that stands for a program is read as a source that does. -/
theorem Program.exists_source_of_ofText {settings : Settings} {text : String} {p : Program}
    (h : Program.ofText settings text = .ok p) :
    ∃ sources, Source.ofText? text = some sources ∧ Source.toProgram settings sources = .ok p := by
  unfold Program.ofText at h
  generalize Source.ofText? text = read at h ⊢
  cases read with
  | none => cases h
  | some sources => exact ⟨sources, rfl, h⟩

/-- **A text that writes procedures out is read as a program that unfolds to them again**, if there
are enough lines for its statements. The program unfolds to nothing else, and its statements are
numbered, by lines as well, in the order of the text. -/
theorem Program.ofText_unfolds (settings : Settings) {text : String} {procs : List ProcListing}
    (hlegal : ProcListing.Legal procs) (hrenders : Renders text procs)
    (hcount : ProcListing.total procs ≤ maxLine + 1 - settings.firstLine) :
    ∃ p, Program.ofText settings text = .ok p ∧ p.WellFormed ∧
      p.UnfoldsTo procs (List.range (ProcListing.total procs)) ∧
      (∀ procs' ids, p.UnfoldsTo procs' ids → procs' = procs) ∧
      p.stmts.size = ProcListing.total procs ∧
      ∀ s, s < p.stmts.size → p.lineOf? s = some (settings.firstLine + s) := by
  obtain ⟨sources, hwrites, hsources⟩ := hrenders
  have hlines : settings.firstLine + ProcListing.total procs ≤ maxLine + 1 := by
    have hfirst := settings.firstLine_le
    omega
  have hof := hwrites.ofText?_eq
  obtain ⟨p, hread, hfinish, hsound⟩ := Source.exists_toProgram settings hsources hlegal hlines
  obtain ⟨places, -, hp⟩ := Draft.finish_eq_ok hfinish
  have hprocs := Draft.unfoldsTo_laidOut hlegal hfinish
  refine ⟨p, ?_, hsound.wellFormed hfinish, hprocs, ?_, ?_, ?_⟩
  · rw [Program.ofText_eq_toProgram settings hof]
    exact hread
  · intro procs' ids hprocs'
    exact (hprocs'.unique hprocs).1
  · rw [hp.size_stmts, Draft.size_laidOut]
  · intro s hs
    obtain ⟨stmt, hstmt⟩ := Program.exists_stmt hs
    obtain ⟨draft, hdraft, hline, -⟩ := hp.exists_stmt hstmt
    rw [Program.lineOf?, hstmt, Option.map_some, hline, (hsound.stmt_fits s draft hdraft).line_eq]
    rfl

/-! ## A text with its listing -/

namespace RenderedExample

open Grammar Reading Source

/-- A text of two procedures, with a name that begins like a keyword, parentheses that are needed, a
leading zero, and a comment that the text ends with. -/
def text : String :=
  "proc p \x7b if iffy then \x7b x = (1 + y) * 02; z = x; \x7d else \x7b call q; \x7d " ++
    "call p; \x7d proc q \x7b w = 3; \x7d // end"

/-- What the text says. -/
def listing : List ProcListing :=
  [⟨"p", .branch "iffy"
    (.assign "x" (.binary .times (.binary .plus (.const 1) (.var "y")) (.const 2))
      (.assign "z" (.var "x") .done))
    (.call "q" .done) (.call "p" .done)⟩,
    ⟨"q", .assign "w" (.const 3) .done⟩]

/-- The characters of the text, which are looked at one by one below. -/
def letters : List Char :=
  ['p', 'r', 'o', 'c', ' ', 'p', ' ', '\x7b', ' ', 'i', 'f', ' ', 'i', 'f', 'f', 'y', ' ', 't',
    'h', 'e', 'n', ' ', '\x7b', ' ', 'x', ' ', '=', ' ', '(', '1', ' ', '+', ' ', 'y', ')',
    ' ', '*', ' ', '0', '2', ';', ' ', 'z', ' ', '=', ' ', 'x', ';', ' ', '\x7d', ' ', 'e',
    'l', 's', 'e', ' ', '\x7b', ' ', 'c', 'a', 'l', 'l', ' ', 'q', ';', ' ', '\x7d', ' ', 'c',
    'a', 'l', 'l', ' ', 'p', ';', ' ', '\x7d', ' ', 'p', 'r', 'o', 'c', ' ', 'q', ' ', '\x7b',
    ' ', 'w', ' ', '=', ' ', '3', ';', ' ', '\x7d', ' ', '/', '/', ' ', 'e', 'n', 'd']

/-- The text has these characters. -/
theorem toList_text : text.toList = letters := by
  decide

/-- A place in the text. -/
def place (n : Nat) : Cursor := ⟨n, letters.drop n⟩

/-- The names in the text are no keywords. -/
theorem isName : ∀ name ∈ ["p", "q", "iffy", "w", "x", "y", "z"], IsName name := by
  intro name hname
  simp only [List.mem_cons, List.not_mem_nil, or_false] at hname
  rcases hname with rfl | rfl | rfl | rfl | rfl | rfl | rfl <;>
    exact ⟨⟨_, _, rfl, rfl, List.all_eq_true.mp rfl⟩, by decide⟩

/-- A blank keeps two tokens apart. -/
theorem apart_blank {n : Nat} (h : (place n).rest = ' ' :: (place (n + 1)).rest) :
    apart (place n) (place (n + 1)) :=
  ⟨[' '], by simp, .blank rfl .nil, h, rfl⟩

/-- A blank is a gap. -/
theorem gap_blank {n : Nat} (h : (place n).rest = ' ' :: (place (n + 1)).rest) :
    gap (place n) (place (n + 1)) :=
  gap_of_apart (apart_blank h)

/-- The expression of the first assignment. -/
def value : Source.Expr :=
  .binary .times (.binary .plus (.literal ⟨"1", ⟨29, 30⟩⟩) (.var "y")) (.literal ⟨"02", ⟨38, 40⟩⟩)

/-- The first body of the conditional. -/
def thenBody : Block := .assign "x" value (.assign "z" (.var "x") .done)

/-- The other body of the conditional. -/
def elseBody : Block := .call ⟨"q", ⟨63, 64⟩⟩ .done

/-- What comes after the conditional. -/
def rest : Block := .call ⟨"p", ⟨73, 74⟩⟩ .done

/-- The body of the second procedure. -/
def body : Block := .assign "w" (.literal ⟨"3", ⟨91, 92⟩⟩) .done

/-- What the text is read as. -/
def sources : List Source.Proc :=
  [⟨"p", ⟨0, 77⟩, .branch "iffy" thenBody elseBody rest⟩, ⟨"q", ⟨78, 95⟩, body⟩]

/-- The expression of the first assignment is written, with its parentheses. -/
theorem value_written : value.Written .sum (place 28) (place 40) := by
  have hone : Expr.Written (.literal ⟨"1", ⟨29, 30⟩⟩) .factor (place 29) (place 30) :=
    @Expr.Written.literal "1" (place 29) (place 30) (by decide) (List.all_eq_true.mp rfl) ⟨rfl, rfl⟩
  have hy : Expr.Written (.var "y") .factor (place 33) (place 34) :=
    .var ⟨isName "y" (by simp), rfl, rfl⟩
  have hsum : Expr.Written (.binary .plus (.literal ⟨"1", ⟨29, 30⟩⟩) (.var "y")) Operator.plus.rank
      (place 29) (place 34) :=
    .binary (.operand (by decide) (.operand (by decide) hone)) (gap_blank rfl) ⟨rfl, rfl⟩
      (gap_blank rfl) (.operand (by decide) hy)
  have hparen : Expr.Written (.binary .plus (.literal ⟨"1", ⟨29, 30⟩⟩) (.var "y")) .factor
      (place 28) (place 35) :=
    .paren ⟨rfl, rfl⟩ (gap_refl _) hsum (gap_refl _) ⟨rfl, rfl⟩
  have htwo : Expr.Written (.literal ⟨"02", ⟨38, 40⟩⟩) .factor (place 38) (place 40) :=
    @Expr.Written.literal "02" (place 38) (place 40) (by decide) (List.all_eq_true.mp rfl)
      ⟨rfl, rfl⟩
  have hproduct : value.Written Operator.times.rank (place 28) (place 40) :=
    .binary (.operand (by decide) hparen) (gap_blank rfl) ⟨rfl, rfl⟩ (gap_blank rfl) htwo
  exact .operand (by decide) hproduct

/-- Both assignments of the body are written, one after the other. -/
theorem thenBody_written : thenBody.Written (place 24) (place 49) := by
  have hfirst : assignment "x" value (place 24) (place 41) :=
    inTurn_cons ⟨isName "x" (by simp), rfl, rfl⟩ (inTurn_cons (gap_blank rfl)
      (inTurn_cons ⟨rfl, rfl⟩ (inTurn_cons (gap_blank rfl) (inTurn_cons value_written
        (inTurn_cons (gap_refl _) (inTurn_cons ⟨rfl, rfl⟩ rfl))))))
  have hx : Expr.Written (.var "x") .sum (place 46) (place 47) :=
    .operand (by decide) (.operand (by decide) (.var ⟨isName "x" (by simp), rfl, rfl⟩))
  have hsecond : assignment "z" (.var "x") (place 42) (place 48) :=
    inTurn_cons ⟨isName "z" (by simp), rfl, rfl⟩ (inTurn_cons (gap_blank rfl)
      (inTurn_cons ⟨rfl, rfl⟩ (inTurn_cons (gap_blank rfl) (inTurn_cons hx
        (inTurn_cons (gap_refl _) (inTurn_cons ⟨rfl, rfl⟩ rfl))))))
  exact inTurn_cons hfirst (inTurn_cons (gap_blank rfl) (inTurn_cons
    (inTurn_cons hsecond (inTurn_cons (gap_blank rfl) (inTurn_cons rfl rfl))) rfl))

/-- The call of the other body is written. -/
theorem elseBody_written : elseBody.Written (place 58) (place 66) := by
  have hname : name "q" (place 63) (place 64) := ⟨isName "q" (by simp), rfl, rfl⟩
  have hcall : callOf ⟨"q", ⟨63, 64⟩⟩ (place 58) (place 65) :=
    inTurn_cons ⟨rfl, rfl⟩ (inTurn_cons (apart_blank rfl) (inTurn_cons ⟨rfl, hname⟩
      (inTurn_cons (gap_refl _) (inTurn_cons ⟨rfl, rfl⟩ rfl))))
  exact inTurn_cons hcall (inTurn_cons (gap_blank rfl) (inTurn_cons rfl rfl))

/-- The call after the conditional is written. -/
theorem rest_written : rest.Written (place 68) (place 76) := by
  have hname : name "p" (place 73) (place 74) := ⟨isName "p" (by simp), rfl, rfl⟩
  have hcall : callOf ⟨"p", ⟨73, 74⟩⟩ (place 68) (place 75) :=
    inTurn_cons ⟨rfl, rfl⟩ (inTurn_cons (apart_blank rfl) (inTurn_cons ⟨rfl, hname⟩
      (inTurn_cons (gap_refl _) (inTurn_cons ⟨rfl, rfl⟩ rfl))))
  exact inTurn_cons hcall (inTurn_cons (gap_blank rfl) (inTurn_cons rfl rfl))

/-- The assignment of the second procedure is written. -/
theorem body_written : body.Written (place 87) (place 94) := by
  have hthree : Expr.Written (.literal ⟨"3", ⟨91, 92⟩⟩) .factor (place 91) (place 92) :=
    @Expr.Written.literal "3" (place 91) (place 92) (by decide) (List.all_eq_true.mp rfl) ⟨rfl, rfl⟩
  have hassign : assignment "w" (.literal ⟨"3", ⟨91, 92⟩⟩) (place 87) (place 93) :=
    inTurn_cons ⟨isName "w" (by simp), rfl, rfl⟩ (inTurn_cons (gap_blank rfl)
      (inTurn_cons ⟨rfl, rfl⟩ (inTurn_cons (gap_blank rfl)
        (inTurn_cons (.operand (by decide) (.operand (by decide) hthree))
          (inTurn_cons (gap_refl _) (inTurn_cons ⟨rfl, rfl⟩ rfl))))))
  exact inTurn_cons hassign (inTurn_cons (gap_blank rfl) (inTurn_cons rfl rfl))

/-- The list of the first procedure is written: the conditional, and the call after it. -/
theorem branch_written :
    (Block.branch "iffy" thenBody elseBody rest).Written (place 9) (place 76) := by
  have hthen : beforeBranch (place 16) (place 22) :=
    Or.inr
      (inTurn_cons (apart_blank rfl) (inTurn_cons ⟨rfl, rfl⟩ (inTurn_cons (gap_blank rfl) rfl)))
  have hthenBody : braces thenBody thenBody.Written (place 22) (place 50) :=
    inTurn_cons ⟨rfl, rfl⟩ (inTurn_cons (gap_blank rfl)
      (inTurn_cons ⟨by simp [thenBody], thenBody_written⟩ (inTurn_cons ⟨rfl, rfl⟩ rfl)))
  have helseBody : braces elseBody elseBody.Written (place 56) (place 67) :=
    inTurn_cons ⟨rfl, rfl⟩ (inTurn_cons (gap_blank rfl)
      (inTurn_cons ⟨by simp [elseBody], elseBody_written⟩ (inTurn_cons ⟨rfl, rfl⟩ rfl)))
  have hcond : name "iffy" (place 12) (place 16) := ⟨isName "iffy" (by simp), rfl, rfl⟩
  have hbranch : branching "iffy" (braces _ thenBody.Written) (braces _ elseBody.Written)
      (place 9) (place 67) :=
    inTurn_cons ⟨rfl, rfl⟩ (inTurn_cons (apart_blank rfl) (inTurn_cons hcond (inTurn_cons hthen
      (inTurn_cons hthenBody (inTurn_cons (gap_blank rfl) (inTurn_cons ⟨rfl, rfl⟩
        (inTurn_cons (gap_blank rfl) (inTurn_cons helseBody rfl))))))))
  exact inTurn_cons hbranch (inTurn_cons (gap_blank rfl) (inTurn_cons rest_written rfl))

/-- Both procedures are written, up to the end of the text. -/
theorem procs_written : procsWritten sources (place 0) (place 102) := by
  have hfirst : Source.Proc.Written ⟨"p", ⟨0, 77⟩, .branch "iffy" thenBody elseBody rest⟩
      (place 0) (place 77) := by
    have hname : name "p" (place 5) (place 6) := ⟨isName "p" (by simp), rfl, rfl⟩
    have hword : token "proc" (place 0) (place 4) := ⟨rfl, rfl⟩
    have hbraces : braces (.branch "iffy" thenBody elseBody rest)
        (Block.branch "iffy" thenBody elseBody rest).Written (place 7) (place 77) :=
      inTurn_cons ⟨rfl, rfl⟩ (inTurn_cons (gap_blank rfl)
        (inTurn_cons ⟨by simp, branch_written⟩ (inTurn_cons ⟨rfl, rfl⟩ rfl)))
    exact ⟨rfl, inTurn_cons (Or.inl hword) (inTurn_cons (apart_blank rfl)
      (inTurn_cons hname (inTurn_cons (gap_blank rfl) (inTurn_cons hbraces rfl))))⟩
  have hsecond : Source.Proc.Written ⟨"q", ⟨78, 95⟩, body⟩ (place 78) (place 95) := by
    have hname : name "q" (place 83) (place 84) := ⟨isName "q" (by simp), rfl, rfl⟩
    have hword : token "proc" (place 78) (place 82) := ⟨rfl, rfl⟩
    have hbraces : braces body body.Written (place 85) (place 95) :=
      inTurn_cons ⟨rfl, rfl⟩ (inTurn_cons (gap_blank rfl)
        (inTurn_cons ⟨by simp [body], body_written⟩ (inTurn_cons ⟨rfl, rfl⟩ rfl)))
    exact ⟨rfl, inTurn_cons (Or.inl hword) (inTurn_cons (apart_blank rfl)
      (inTurn_cons hname (inTurn_cons (gap_blank rfl) (inTurn_cons hbraces rfl))))⟩
  have hending : ending (place 96) (place 102) := Or.inr ⟨" end".toList, by decide, rfl, rfl⟩
  exact inTurn_cons hfirst (inTurn_cons (gap_blank rfl) (inTurn_cons
    (inTurn_cons hsecond (inTurn_cons (gap_blank rfl) (inTurn_cons hending rfl))) rfl))

/-- The text writes the listing out. -/
theorem renders : Renders text listing := by
  refine ⟨sources, ⟨by simp [sources], 102, ?_⟩, rfl⟩
  rw [toList_text]
  exact inTurn_cons (gap_refl _) (inTurn_cons procs_written rfl)

/-- The listing is a program of the language. -/
theorem legal : ProcListing.Legal listing := by
  refine ⟨by decide, by decide, ?_, ?_⟩
  · intro proc hproc
    simp only [listing, List.mem_cons, List.not_mem_nil, or_false] at hproc
    rcases hproc with rfl | rfl
    · exact isName "p" (by simp)
    · exact isName "q" (by simp)
  · intro proc hproc
    simp only [listing, List.mem_cons, List.not_mem_nil, or_false] at hproc
    rcases hproc with rfl | rfl
    · have hvalue : (Expr.binary .times (.binary .plus (.const 1) (.var "y")) (.const 2)).Legal :=
        ⟨⟨⟨by decide, by decide⟩, isName "y" (by simp)⟩, by decide, by decide⟩
      exact ⟨by decide, isName "iffy" (by simp),
        ⟨by decide, isName "x" (by simp), hvalue, isName "z" (by simp), isName "x" (by simp),
          trivial⟩,
        ⟨by decide, by decide, trivial⟩, by decide, trivial⟩
    · exact ⟨by decide, isName "w" (by simp), ⟨by decide, by decide⟩, trivial⟩

end RenderedExample

/-- The text of `RenderedExample` is read. -/
theorem Program.ofText_renderedExample_unfolds :
    ProcListing.Legal RenderedExample.listing ∧
      Renders RenderedExample.text RenderedExample.listing ∧
      ∃ p, Program.ofText {} RenderedExample.text = .ok p ∧ p.WellFormed ∧
        p.UnfoldsTo RenderedExample.listing (List.range 6) ∧
        (∀ procs' ids, p.UnfoldsTo procs' ids → procs' = RenderedExample.listing) ∧
        p.stmts.size = 6 ∧ ∀ s, s < p.stmts.size → p.lineOf? s = some (1 + s) :=
  ⟨RenderedExample.legal, RenderedExample.renders,
    Program.ofText_unfolds {} RenderedExample.legal RenderedExample.renders (by decide)⟩

end ProgramQuery
