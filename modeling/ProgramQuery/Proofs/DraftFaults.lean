import ProgramQuery.Proofs.LinkedDrafts

/-!
# What finishing a draft reports

Finishing a draft stops at the first thing that is wrong. Which one that is depends on the order of
the visits, but whatever is reported is there (`Draft.Fault`): a procedure without a body, a
container that is reached and lacks the body named, a statement that two different links lead to, or
a statement that no procedure leads to.

A placement that has come across no fault is traced by `Draft.Tracing`. No link is followed twice,
so a statement that is visited again has two links that lead to it (`Tracing.exists_two_links`). A
visit reports a fault or keeps the trace (`Tracing.visitAll_cases`), and so does each procedure
(`Tracing.placeProcs_cases`). Once all procedures are placed, the statements visited are those that
are reached, and all links of them have been followed. Then the only thing left to report is the
first statement without a place (`Tracing.fault_of_seal`).
-/

set_option autoImplicit false

open Relation (ReflTransGen)
open scoped List

namespace ProgramQuery

open ExceptSteps

/-- The kind is that of a container that lacks the part. -/
inductive BodyPart.MissingIn : BodyPart → StmtKind (Option StmtId) → Prop where
  | thenBranch (cond : String) (elseFirst : Option StmtId) :
      MissingIn .thenBranch (.branch cond none elseFirst)
  | elseBranch (cond : String) (thenFirst : Option StmtId) :
      MissingIn .elseBranch (.branch cond thenFirst none)
  | loopBody (cond : String) : MissingIn .loopBody (.loop cond none)

/-- A statement that cannot be sealed lacks the part that is reported. -/
theorem DraftStmt.sealedKind_eq_error {stmt : DraftStmt} {e : DraftError}
    (h : stmt.sealedKind = .error e) :
    ∃ part, e = .missingBody stmt.line part ∧ BodyPart.MissingIn part stmt.kind := by
  obtain ⟨line, next, kind⟩ := stmt
  cases kind with
  | assign target value => cases h
  | call callee => cases h
  | branch cond thenFirst elseFirst =>
    cases thenFirst with
    | none =>
      cases h
      exact ⟨_, rfl, .thenBranch cond elseFirst⟩
    | some thenFirst =>
      cases elseFirst with
      | none =>
        cases h
        exact ⟨_, rfl, .elseBranch cond (some thenFirst)⟩
      | some elseFirst => cases h
  | loop cond first =>
    cases first with
    | none =>
      cases h
      exact ⟨_, rfl, .loopBody cond⟩
    | some first => cases h

namespace Draft

/-! ## Faults -/

/-- The link is one of a procedure or of a statement that is reached. -/
def Live (d : Draft) (link : LinkSite) : Prop := ∀ s, link.source = some s → d.Reached s

/-- What is wrong with a draft, as it is reported. -/
inductive Fault (d : Draft) : DraftError → Prop where
  /-- The procedure of the name has no body. -/
  | missingProcBody {name : String} {q : ProcId} (hq : d.procNamed? name = some q)
      (hbody : d.hasBody q = false) : Fault d (.missingProcBody name)
  /-- The statement on the line is reached, and it is a container that lacks the part. -/
  | missingBody {s : StmtId} {stmt : DraftStmt} {part : BodyPart} (hs : d.stmts[s]? = some stmt)
      (hreached : d.Reached s) (hpart : part.MissingIn stmt.kind) :
      Fault d (.missingBody stmt.line part)
  /-- Two links lead to the statement on the line. -/
  | reachedTwice {s : StmtId} {stmt : DraftStmt} {link link' : LinkSite}
      (hs : d.stmts[s]? = some stmt) (hne : link ≠ link') (hlink : d.target? link = some s)
      (hlink' : d.target? link' = some s) :
      Fault d (.reachedTwice stmt.line)
  /-- The statement on the line is the first one that is not reached. Nothing is wrong with what is
  reached: no body is missing, and no two links of procedures and reached statements lead to one
  statement. -/
  | detached {s : StmtId} {stmt : DraftStmt} (hs : d.stmts[s]? = some stmt)
      (hdetached : ¬ d.Reached s)
      (hlowest : ∀ t other, d.stmts[t]? = some other → ¬ d.Reached t → stmt.line ≤ other.line)
      (hprocs : ∀ q, q < d.procs.size → d.hasBody q = true)
      (hbodies : ∀ t other, d.stmts[t]? = some other → d.Reached t → none ∉ other.kind.bodies)
      (hlinks : ∀ link link' t, d.Live link → d.Live link' → d.target? link = some t →
        d.target? link' = some t → link = link') : Fault d (.detached stmt.line)

variable {d : Draft} {places : Array (Option Place)} {s t : StmtId}
  {roots pending made : List Visit} {v : Visit} {e : DraftError}

/-- What a reached statement leads to is reached. -/
theorem Reached.tail (h : d.Reached s) (hstep : d.LeadsTo s t) : d.Reached t := by
  obtain ⟨q, first, hfirst, hpath⟩ := h
  exact ⟨q, first, hfirst, hpath.tail hstep⟩

/-- A procedure with a first statement has a body. -/
theorem hasBody_eq_true {q : ProcId} {proc : DraftProc} (hq : d.procs[q]? = some proc)
    (h : proc.first ≠ none) :
    d.hasBody q = true := by
  simpa [hasBody, hq, Option.isSome_iff_ne_none] using h

/-- A value is found at most once in a list without repetitions exactly if at most one member gives
it. -/
theorem count_filterMap_le_one_iff {α β : Type} [DecidableEq β] {f : α → Option β} {l : List α}
    {b : β} (hl : l.Nodup) : (l.filterMap f).count b ≤ 1 ↔
      ∀ a ∈ l, ∀ a' ∈ l, f a = some b → f a' = some b → a = a' := by
  rw [List.count_filterMap, List.countP_eq_length_filter]
  have hmem : ∀ a, a ∈ l.filter (fun a => f a == some b) ↔ a ∈ l ∧ f a = some b := by simp
  have hnodup := hl.filter fun a => f a == some b
  generalize l.filter (fun a => f a == some b) = found at hmem hnodup
  constructor
  · intro hlen a ha a' ha' hb hb'
    have hfound := (hmem a).mpr ⟨ha, hb⟩
    have hfound' := (hmem a').mpr ⟨ha', hb'⟩
    rcases found with _ | ⟨c, _ | ⟨c', rest⟩⟩
    · cases hfound
    · rw [List.mem_singleton.mp hfound, List.mem_singleton.mp hfound']
    · simp at hlen
  · intro hunique
    rcases found with _ | ⟨c, _ | ⟨c', rest⟩⟩
    · simp
    · simp
    · obtain ⟨hc, hcb⟩ := (hmem c).mp (by simp)
      obtain ⟨hc', hcb'⟩ := (hmem c').mp (by simp)
      simp [hunique c hc c' hc' hcb hcb'] at hnodup

/-! ## Placing without a fault -/

/-- A placement that has come across no fault: the statements visited are reached and lack no
body. -/
structure Tracing (d : Draft) (places : Array (Option Place))
    (roots pending made : List Visit) : Prop
    extends d.Placing places roots pending made where
  complete : ∀ u ∈ made, d.Complete u.stmt
  reached : ∀ u ∈ made, d.Reached u.stmt

namespace Tracing

/-- A statement that waits to be visited is reached. -/
theorem reached_pending (h : d.Tracing places roots pending made) (hv : v ∈ pending) :
    d.Reached v.stmt := by
  rcases List.mem_append.mp (h.perm.mem_iff.mp (List.mem_append_right made hv)) with hroot | hnext
  · exact ⟨v.place.owner, v.stmt, h.root v hroot, .refl⟩
  · obtain ⟨u, hu, hv⟩ := List.mem_flatMap.mp hnext
    exact (h.reached u hu).tail (leadsTo_of_mem_nextVisits hv)

/-- **A statement that is visited again** is one that two different links lead to. -/
theorem exists_two_links (h : d.Tracing places roots (v :: pending) made)
    (hagain : v.stmt ∈ made.map Visit.stmt) :
    ∃ link link', link ≠ link' ∧ d.target? link = some v.stmt ∧ d.target? link' = some v.stmt := by
  by_contra hnone
  have hcount : ((d.followed roots made).filterMap d.target?).count v.stmt ≤ 1 := by
    refine (count_filterMap_le_one_iff h.nodup_followed).mpr ?_
    intro link _ link' _ hlink hlink'
    by_contra hne
    exact hnone ⟨link, link', hne, hlink, hlink'⟩
  rw [← (h.perm_targets h.complete).count_eq, List.map_append, List.map_cons, List.count_append,
    List.count_cons_self] at hcount
  have hbefore := List.count_pos_iff.mpr hagain
  omega

/-- A statement that is visited again is reported. -/
theorem fault_of_again (h : d.Tracing places roots (v :: pending) made) {bound : Nat}
    {stmt : DraftStmt} (hstmt : d.stmts[v.stmt]? = some stmt)
    (hagain : v.stmt ∈ made.map Visit.stmt) :
    ∃ e, d.visitAll bound (v :: pending) places = .error e ∧ d.Fault e := by
  obtain ⟨place, hplace⟩ := h.filled v.stmt hagain
  obtain ⟨link, link', hne, hlink, hlink'⟩ := h.exists_two_links hagain
  exact ⟨_, visitAll_placed hstmt hplace, .reachedTwice hstmt hne hlink hlink'⟩

/-- Visiting a complete statement that has no place yet comes across no fault. -/
theorem advance (h : d.Tracing places roots (v :: pending) made)
    (hfree : places[v.stmt]? = some none) (hcomplete : d.Complete v.stmt) :
    d.Tracing (places.setIfInBounds v.stmt (some v.place)) roots (d.nextVisits v ++ pending)
      (v :: made) where
  toPlacing := h.toPlacing.advance hfree
  complete := List.forall_mem_cons.mpr ⟨hcomplete, h.complete⟩
  reached := List.forall_mem_cons.mpr ⟨h.reached_pending List.mem_cons_self, h.reached⟩

/-- **Making the pending visits** keeps the trace or reports a fault. -/
theorem visitAll_cases (hsound : d.Sound) {bound : Nat} (h : d.Tracing places roots pending made)
    (hbound : d.stmts.size ≤ bound + made.length) :
    (∃ places' made', d.visitAll bound pending places = .ok places' ∧
      d.Tracing places' roots [] made') ∨
      ∃ e, d.visitAll bound pending places = .error e ∧ d.Fault e := by
  induction bound generalizing places pending made with
  | zero =>
    cases pending with
    | nil => exact Or.inl ⟨places, made, rfl, h⟩
    | cons v pending =>
      right
      obtain ⟨link, hlink⟩ := h.exists_link (v := v) (by simp)
      have hlt := hsound.target?_lt hlink
      have hstmt := Array.getElem?_eq_getElem hlt
      -- as many visits as there are statements have been made, one of them to this statement
      have hagain : v.stmt ∈ made.map Visit.stmt := by
        by_contra hnew
        have hnodup : (v.stmt :: made.map Visit.stmt).Nodup := List.nodup_cons.mpr ⟨hnew, h.once⟩
        have hlen := Program.length_le_of_nodup_lt hnodup
          (List.forall_mem_cons.mpr ⟨hlt, fun s hs => h.lt_size hs⟩)
        simp only [List.length_cons, List.length_map] at hlen
        omega
      exact h.fault_of_again hstmt hagain
  | succ bound ih =>
    cases pending with
    | nil => exact Or.inl ⟨places, made, rfl, h⟩
    | cons v pending =>
      obtain ⟨link, hlink⟩ := h.exists_link (v := v) (by simp)
      have hlt := hsound.target?_lt hlink
      have hstmt := Array.getElem?_eq_getElem hlt
      by_cases hagain : v.stmt ∈ made.map Visit.stmt
      · exact Or.inr (h.fault_of_again hstmt hagain)
      · have hfree := h.free v.stmt hlt hagain
        rw [visitAll_free hstmt hfree]
        cases hkind : d.stmts[v.stmt].sealedKind with
        | error e =>
          right
          obtain ⟨part, rfl, hpart⟩ := DraftStmt.sealedKind_eq_error hkind
          exact ⟨_, rfl, .missingBody hstmt (h.reached_pending List.mem_cons_self) hpart⟩
        | ok kind =>
          have hcomplete : d.Complete v.stmt := ⟨_, hstmt, sealedKind_eq_ok_iff.mp ⟨kind, hkind⟩⟩
          have hrest := ih (h.advance hfree hcomplete) (by simp only [List.length_cons]; omega)
          rw [nextVisits_eq hstmt hkind] at hrest
          exact hrest

/-- **Placing procedures** keeps the trace or reports a fault. -/
theorem placeProcs_cases (hsound : d.Sound) {procs : List (DraftProc × ProcId)}
    (hprocs : ∀ entry ∈ procs, d.procs[entry.2]? = some entry.1)
    (howners : (roots.map (fun v => v.place.owner) ++ procs.map Prod.snd).Nodup)
    (h : d.Tracing places roots [] made) :
    (∃ places' made', d.placeProcs procs places = .ok places' ∧
      d.Tracing places' (roots ++ rootVisits procs) [] made' ∧
      ∀ entry ∈ procs, entry.1.first ≠ none) ∨
      ∃ e, d.placeProcs procs places = .error e ∧ d.Fault e := by
  induction procs generalizing places roots made with
  | nil => exact Or.inl ⟨places, made, rfl, by simpa [rootVisits] using h, by simp⟩
  | cons entry procs ih =>
    obtain ⟨proc, q⟩ := entry
    have hq : d.procs[q]? = some proc := hprocs (proc, q) List.mem_cons_self
    have hrest := fun entry hentry => hprocs entry (List.mem_cons_of_mem _ hentry)
    unfold placeProcs
    cases hfirst : proc.first with
    | none =>
      right
      refine ⟨_, rfl, .missingProcBody (hsound.procNamed?_eq_some_iff.mpr ⟨proc, hq, rfl⟩) ?_⟩
      simp [hasBody, hq, hfirst]
    | some first =>
      have howner : q ∉ roots.map fun v => v.place.owner := fun hmem =>
        List.disjoint_of_nodup_append howners hmem List.mem_cons_self
      have hstart :
          d.Tracing places (roots ++ [⟨first, ⟨q, none, none⟩⟩]) [⟨first, ⟨q, none, none⟩⟩] made :=
        ⟨h.toPlacing.enter hq hfirst howner, h.complete, h.reached⟩
      simp only
      rcases hstart.visitAll_cases hsound (Nat.le_add_right _ _) with
        ⟨places₁, made₁, hvisit, htracing⟩ | ⟨e, hvisit, hfault⟩
      · rw [hvisit]
        have hroots : rootVisits ((proc, q) :: procs) = [⟨first, ⟨q, none, none⟩⟩] ++
            rootVisits procs := by
          simp [rootVisits, hfirst]
        rw [hroots, ← List.append_assoc]
        rcases ih hrest (by simpa using howners) htracing with
          ⟨places₂, made₂, hplaces, htracing, hbodies⟩ | hfault
        · left
          exact ⟨places₂, made₂, hplaces, htracing,
            List.forall_mem_cons.mpr ⟨by simp [hfirst], hbodies⟩⟩
        · exact Or.inr hfault
      · rw [hvisit]
        exact Or.inr ⟨e, rfl, hfault⟩

/-! ## Once all procedures are placed -/

/-- The statements visited are those that are reached, once the bodies of all procedures are
visited. -/
theorem reached_iff (h : d.Tracing places (rootVisits d.procs.toList.zipIdx) [] made) :
    d.Reached s ↔ s ∈ made.map Visit.stmt := by
  constructor
  · intro hs
    have hroots : ∀ q first, d.firstAt? (.ofProc q) = some first →
        ∃ v ∈ rootVisits d.procs.toList.zipIdx, v.stmt = first :=
      fun q first hfirst => ⟨_, mem_rootVisits hfirst, rfl⟩
    obtain ⟨v, hv, rfl⟩ := h.mem_of_reached h.complete hroots hs
    exact List.mem_map_of_mem hv
  · intro hs
    obtain ⟨v, hv, rfl⟩ := List.mem_map.mp hs
    exact h.reached v hv

/-- All links of procedures and reached statements have been followed. -/
theorem mem_followed (h : d.Tracing places (rootVisits d.procs.toList.zipIdx) [] made)
    {link : LinkSite} (hlive : d.Live link) (hlink : d.target? link = some t) :
    link ∈ d.followed (rootVisits d.procs.toList.zipIdx) made := by
  have hstmt : ∀ u, link.source = some u →
      link ∈ d.followed (rootVisits d.procs.toList.zipIdx) made := by
    intro u hu
    obtain ⟨w, hw, rfl⟩ := List.mem_map.mp (h.reached_iff.mp (hlive u hu))
    exact List.mem_append_right _ (List.mem_flatMap.mpr ⟨w, hw, mem_linksOf hu hlink⟩)
  cases link with
  | next u => exact hstmt u rfl
  | first site =>
    cases site with
    | ofBody c slot => exact hstmt c rfl
    | ofProc q => exact List.mem_append_left _ (List.mem_map.mpr ⟨_, mem_rootVisits hlink, rfl⟩)

/-- Of the links of procedures and reached statements no two lead to one statement. -/
theorem link_unique (h : d.Tracing places (rootVisits d.procs.toList.zipIdx) [] made)
    {link link' : LinkSite} (hlive : d.Live link) (hlive' : d.Live link')
    (hlink : d.target? link = some t) (hlink' : d.target? link' = some t) : link = link' := by
  have hcount :
      ((d.followed (rootVisits d.procs.toList.zipIdx) made).filterMap d.target?).count t ≤ 1 := by
    rw [← (h.perm_targets h.complete).count_eq, List.append_nil]
    exact List.nodup_iff_count_le_one.mp h.once t
  exact (count_filterMap_le_one_iff h.nodup_followed).mp hcount
    link (h.mem_followed hlive hlink) link' (h.mem_followed hlive' hlink') hlink hlink'

/-- **Once all procedures are placed**, a statement that cannot be sealed is the first one that is
not reached. -/
theorem fault_of_seal (h : d.Tracing places (rootVisits d.procs.toList.zipIdx) [] made)
    (hsound : d.Sound) (hprocs : ∀ q, q < d.procs.size → d.hasBody q = true)
    (hseal : ((d.stmts.toList.zip places.toList).mapM fun entry => sealStmt entry.1 entry.2) =
      .error e) :
    d.Fault e := by
  obtain ⟨before, ⟨stmt, place⟩, after, hsplit, hbefore, hrefused⟩ := mapM_eq_error hseal
  have hentry : ∀ (t : StmtId) (entry : DraftStmt × Option Place),
      (before ++ (stmt, place) :: after)[t]? = some entry →
        d.stmts[t]? = some entry.1 ∧ places[t]? = some entry.2 := by
    intro t entry ht
    rw [← hsplit, List.getElem?_zip_eq_some] at ht
    simpa using ht
  obtain ⟨hstmt, hplace⟩ := hentry before.length (stmt, place) (by simp)
  have hcomplete : ∀ t other, d.stmts[t]? = some other → d.Reached t →
      none ∉ other.kind.bodies := by
    intro t other hother ht
    obtain ⟨u, hu, rfl⟩ := List.mem_map.mp (h.reached_iff.mp ht)
    obtain ⟨stmt', hstmt', hbodies⟩ := h.complete u hu
    cases hother.symm.trans hstmt'
    exact hbodies
  have hdetached : ∀ {t : StmtId}, places[t]? = some none → ¬ d.Reached t := by
    intro t ht hreached
    obtain ⟨other, hother⟩ := h.filled t (h.reached_iff.mp hreached)
    rw [ht] at hother
    cases hother
  cases place with
  | some place =>
    -- a statement with a place is reached, so it lacks no body
    rcases bind_eq_error.mp hrefused with hkind | ⟨kind, -, hdone⟩
    · have hreached : d.Reached before.length := by
        by_contra hnot
        have hfree :=
          h.free before.length (Array.getElem?_eq_some_iff.mp hstmt).1 (mt h.reached_iff.mpr hnot)
        rw [hplace] at hfree
        cases hfree
      obtain ⟨kind, hok⟩ := sealedKind_eq_ok_iff.mpr (hcomplete _ stmt hstmt hreached)
      rw [hok] at hkind
      cases hkind
    · cases hdone
  | none =>
    cases hrefused
    refine .detached hstmt (hdetached hplace) ?_ hprocs hcomplete fun link link' t => h.link_unique
    intro t other hother ht
    -- the statements before have been sealed, so they have places
    have hle : before.length ≤ t := by
      by_contra hlt
      have hbeforeAt := List.getElem?_eq_getElem (Nat.lt_of_not_le hlt)
      obtain ⟨-, hplaceAt⟩ :=
        hentry t _ ((List.getElem?_append_left (Nat.lt_of_not_le hlt)).trans hbeforeAt)
      obtain ⟨sealed, hsealed⟩ := hbefore _ (List.mem_of_getElem? hbeforeAt)
      obtain ⟨place, kind, hsome, -, -⟩ := sealStmt_eq_ok hsealed
      have hfree := h.free t (Array.getElem?_eq_some_iff.mp hother).1 (mt h.reached_iff.mpr ht)
      rw [hplaceAt, hsome] at hfree
      cases hfree
    rw [(hsound.stmt_fits _ stmt hstmt).line_eq, (hsound.stmt_fits t other hother).line_eq]
    omega

end Tracing

/-- **Every report is right**: what finishing a sound draft reports is a fault of the draft. -/
theorem Sound.fault_of_finish (hsound : d.Sound) (h : d.finish = .error e) : d.Fault e := by
  have hstart : d.Tracing (Array.replicate d.stmts.size none) [] [] [] :=
    ⟨placing_start d, by simp, by simp⟩
  rcases hstart.placeProcs_cases hsound zipIdx_procs (nodup_owners d) with
    ⟨places, made, hplaces, htracing, hbodies⟩ | ⟨e', hplaces, hfault⟩
  · have hfirst : ∀ (q : ProcId) (proc : DraftProc), d.procs[q]? = some proc →
        proc.first ≠ none := by
      intro q proc hq
      exact hbodies (proc, q) (List.mem_zipIdx_iff_getElem?.mpr (by simpa using hq))
    rcases bind_eq_error.mp h with hrefused | ⟨places', hplaces', h⟩
    · rw [hplaces] at hrefused
      cases hrefused
    cases hplaces.symm.trans hplaces'
    rcases bind_eq_error.mp h with hprocs | ⟨procs, -, h⟩
    · -- no procedure lacks its body
      obtain ⟨before, proc, after, hsplit, -, hrefused⟩ := mapM_eq_error hprocs
      obtain ⟨q, hq⟩ := List.mem_iff_getElem?.mp (show proc ∈ d.procs.toList by simp [hsplit])
      obtain ⟨first, hsome⟩ := Option.ne_none_iff_exists'.mp (hfirst q proc (by simpa using hq))
      simp [sealProc, hsome] at hrefused
    · rcases bind_eq_error.mp h with hstmts | ⟨stmts, -, hdone⟩
      · refine htracing.fault_of_seal hsound ?_ hstmts
        intro q hq
        exact hasBody_eq_true (Array.getElem?_eq_getElem hq)
          (hfirst q _ (Array.getElem?_eq_getElem hq))
      · cases hdone
  · unfold finish at h
    rw [hplaces] at h
    cases h
    exact hfault

/-- **What finishing reports**. Whatever the steps, a report about the draft that they lead to names
one of four faults, and it is there: the procedure named has no body; the statement on the line is
reached and is a container without the part named; two different links lead to the statement on the
line; or the line is the lowest one of a statement that is not reached, and then nothing is wrong
with the procedures and with what they lead to. Each line is that of one statement only. -/
theorem finish_after_reports (settings : Settings) (steps : List Step) {e : DraftError}
    (h : (after settings steps).finish = .error e) :
    (after settings steps).Fault e ∧
      ∀ (s t : StmtId) (stmt other : DraftStmt), (after settings steps).stmts[s]? = some stmt →
        (after settings steps).stmts[t]? = some other → stmt.line = other.line → s = t := by
  have hsound := sound_after settings steps
  refine ⟨hsound.fault_of_finish h, ?_⟩
  intro s t stmt other hs ht heq
  rw [(hsound.stmt_fits s stmt hs).line_eq, (hsound.stmt_fits t other ht).line_eq] at heq
  exact Nat.add_left_cancel heq

/-- A loop is added to the example draft and left alone. It lacks its body, but what is reported is
that no procedure leads to it. -/
theorem finish_strayLoop_reports :
    (after {} (exampleSteps ++ [.addLoop "w"])).finish = .error (.detached 6) ∧
      (after {} (exampleSteps ++ [.addLoop "w"])).stmts[5]? = some ⟨6, none, .loop "w" none⟩ ∧
      ¬ (after {} (exampleSteps ++ [.addLoop "w"])).Reached 5 := by
  have hfinish : (after {} (exampleSteps ++ [.addLoop "w"])).finish = .error (.detached 6) := by
    decide +kernel
  have hloop : (after {} (exampleSteps ++ [.addLoop "w"])).stmts[5]? =
      some ⟨6, none, .loop "w" none⟩ := by
    decide +kernel
  refine ⟨hfinish, hloop, ?_⟩
  obtain ⟨hfault, hlines⟩ := finish_after_reports {} (exampleSteps ++ [.addLoop "w"]) hfinish
  generalize hreport : DraftError.detached 6 = report at hfault
  cases hfault with
  | missingProcBody | missingBody | reachedTwice => cases hreport
  | @detached s stmt hs hdetached =>
    have hline := DraftError.detached.inj hreport
    rw [hlines 5 s _ stmt hloop hs hline]
    exact hdetached

end Draft

end ProgramQuery
