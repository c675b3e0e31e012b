import Mathlib.Data.List.Nodup
import Mathlib.Logic.Relation
import ProgramQuery.Proofs.ListStructure

/-!
# Which drafts can be finished

The links of a draft are the beginnings of its statement lists and the links from a statement to the
next one (`LinkSite`). They may lead anywhere: back to where they come from, from two places to one
statement, or around a statement that no link leads to.

A draft can be finished exactly if it is linked (`Draft.Linked`): no body is missing, each statement
is reached from the body of a procedure, and exactly one link leads to each statement. This speaks
of the links alone and not of the order in which they are followed.

From left to right this is a property of the well-formed program that comes out (`Sound.linked`).
From right to left, the visits of a placement correspond to the links that were followed, and no
link is followed twice (`Placing.perm_targets`, `Placing.nodup_followed`). Different links lead to
different statements (`Placing.nodup_targets`), so a visit never finds its statement placed already
(`Placing.next_free`), and there are at most as many visits as statements (`Placing.visitAll_eq`).
-/

set_option autoImplicit false

open Relation (ReflTransGen)
open scoped List

namespace ProgramQuery

open ExceptSteps

/-- Where a link stands: at the beginning of a statement list, or at a statement that another
follows. -/
inductive LinkSite where
  | first (site : ListSite)
  | next (s : StmtId)
deriving DecidableEq, Repr

/-- The statement that has the link. Links to the bodies of procedures belong to none. -/
def LinkSite.source : LinkSite → Option StmtId
  | first site => site.container
  | next s => some s

namespace Draft

/-- The first statement of a list, once it is set. -/
def firstAt? (d : Draft) : ListSite → Option StmtId
  | .ofProc q => d.procs[q]?.bind (·.first)
  | .ofBody c slot => d.stmts[c]?.bind fun stmt => stmt.kind.bodies[slot]?.join

/-- The statement that a link leads to, once it is set. -/
def target? (d : Draft) : LinkSite → Option StmtId
  | .first site => d.firstAt? site
  | .next s => d.stmts[s]?.bind (·.next)

/-- The statement `t` begins a body of `s` or follows `s`. -/
def LeadsTo (d : Draft) (s t : StmtId) : Prop :=
  ∃ stmt, d.stmts[s]? = some stmt ∧ (some t ∈ stmt.kind.bodies ∨ stmt.next = some t)

/-- The body of some procedure leads to the statement, along bodies and next statements. -/
def Reached (d : Draft) (s : StmtId) : Prop :=
  ∃ q first, d.firstAt? (.ofProc q) = some first ∧ ReflTransGen d.LeadsTo first s

/-- No body is missing, all statements are reached, and exactly one link leads to each of them. -/
structure Linked (d : Draft) : Prop where
  proc_body : ∀ (q : ProcId) (proc : DraftProc), d.procs[q]? = some proc → proc.first ≠ none
  bodies : ∀ (s : StmtId) (stmt : DraftStmt), d.stmts[s]? = some stmt → none ∉ stmt.kind.bodies
  reached : ∀ s, s < d.stmts.size → d.Reached s
  one_link : ∀ s, s < d.stmts.size → ∃! link, d.target? link = some s

variable {d : Draft} {p : Program} {places : Array (Option Place)} {s t : StmtId}

/-! ## The links of a draft -/

/-- The list of a procedure begins with the statement that was set as its body. -/
theorem firstAt?_ofProc {q : ProcId} :
    d.firstAt? (.ofProc q) = some s ↔ ∃ proc, d.procs[q]? = some proc ∧ proc.first = some s := by
  simp [firstAt?, Option.bind_eq_some_iff]

/-- The list of a body begins with the statement that was set as that body. -/
theorem firstAt?_ofBody {c : StmtId} {slot : Nat} :
    d.firstAt? (.ofBody c slot) = some s ↔
      ∃ stmt, d.stmts[c]? = some stmt ∧ stmt.kind.bodies[slot]? = some (some s) := by
  simp [firstAt?, Option.bind_eq_some_iff, Option.join_eq_some_iff]

/-- What follows a statement is what was set as its next one. -/
theorem target?_next : d.target? (.next s) = some t ↔
    ∃ stmt, d.stmts[s]? = some stmt ∧ stmt.next = some t := by
  simp [target?, Option.bind_eq_some_iff]

/-- The links of a sound draft stay within it. -/
theorem Sound.target?_lt (h : d.Sound) {link : LinkSite} (ht : d.target? link = some t) :
    t < d.stmts.size := by
  cases link with
  | first site =>
    cases site with
    | ofProc q =>
      obtain ⟨proc, hq, hfirst⟩ := firstAt?_ofProc.mp ht
      exact h.first_lt q proc t hq hfirst
    | ofBody c slot =>
      obtain ⟨stmt, hc, hslot⟩ := firstAt?_ofBody.mp ht
      exact (h.stmt_fits c stmt hc).body_lt t (List.mem_of_getElem? hslot)
  | next s =>
    obtain ⟨stmt, hs, hnext⟩ := target?_next.mp ht
    exact (h.stmt_fits s stmt hs).next_lt t hnext

/-- A statement is sealed exactly if all of its bodies are set. -/
theorem sealedKind_eq_ok_iff {stmt : DraftStmt} :
    (∃ kind, stmt.sealedKind = .ok kind) ↔ none ∉ stmt.kind.bodies := by
  obtain ⟨line, next, kind⟩ := stmt
  unfold DraftStmt.sealedKind
  split <;> simp_all [StmtKind.bodies]

/-- A kind that is sealed has all its bodies, and keeps them. -/
theorem bodies_eq_of_sealedKind {stmt : DraftStmt} {kind : StmtKind StmtId}
    (h : stmt.sealedKind = .ok kind) : stmt.kind.bodies = kind.bodies.map some := by
  obtain ⟨line, next, kind'⟩ := stmt
  unfold DraftStmt.sealedKind at h
  split at h <;> cases h <;> simp_all [StmtKind.bodies]

/-! ## Finished drafts are linked -/

/-- A finished draft has the lists of its program. -/
theorem SealedAt.firstAt?_eq (h : d.SealedAt places p) {site : ListSite} :
    d.firstAt? site = some s ↔ p.firstAt? site = some s := by
  cases site with
  | ofProc q =>
    rw [firstAt?_ofProc, Program.firstAt?_ofProc]
    constructor
    · rintro ⟨proc, hq, hfirst⟩
      obtain ⟨proc', hq', rfl⟩ := h.proc q proc hq
      exact ⟨proc', hq', Option.some.inj hfirst⟩
    · rintro ⟨proc, hq, rfl⟩
      exact ⟨_, h.exists_proc hq, rfl⟩
  | ofBody c slot =>
    rw [firstAt?_ofBody, Program.firstAt?_ofBody]
    constructor
    · rintro ⟨stmt, hc, hslot⟩
      obtain ⟨at_, kind, -, hkind, hp⟩ := h.stmt c stmt hc
      rw [bodies_eq_of_sealedKind hkind] at hslot
      exact ⟨_, hp, by simpa using hslot⟩
    · rintro ⟨stmt, hc, hslot⟩
      obtain ⟨draft, hdraft, -, -, hkind⟩ := h.exists_stmt hc
      refine ⟨draft, hdraft, ?_⟩
      rw [bodies_eq_of_sealedKind hkind]
      simpa using hslot

/-- A finished draft has the links to next statements of its program. -/
theorem SealedAt.target?_next_eq (h : d.SealedAt places p) :
    d.target? (.next s) = some t ↔ p.LinkTo .next s t := by
  rw [target?_next]
  constructor
  · rintro ⟨stmt, hs, hnext⟩
    obtain ⟨at_, kind, -, -, hp⟩ := h.stmt s stmt hs
    exact ⟨_, hp, hnext⟩
  · rintro ⟨stmt, hs, hnext⟩
    obtain ⟨draft, hdraft, -, heq, -⟩ := h.exists_stmt hs
    exact ⟨draft, hdraft, heq ▸ hnext⟩

/-- In a well-formed program at most one link leads to a statement. -/
theorem SealedAt.link_unique (h : d.SealedAt places p) (hp : p.WellFormed) {link link' : LinkSite}
    (ht : d.target? link = some t) (ht' : d.target? link' = some t) : link = link' := by
  have hlists : ∀ {site : ListSite}, d.target? (.first site) = some t →
      p.firstAt? site = some t ∧ p.OnList site t := by
    intro site hsite
    have hfirst := h.firstAt?_eq.mp hsite
    obtain ⟨l, hl⟩ := hp.list_ends site t hfirst
    exact ⟨hfirst, Program.OnList.of_first hfirst hl⟩
  -- the first statement of a list has none before it, and any other has one statement before it
  have hprev : ∀ {s : StmtId}, d.target? (.next s) = some t →
      ∃ stmt, p.stmts[t]? = some stmt ∧ stmt.prev = some s := by
    intro s hs
    obtain ⟨stmt, hstmt, hnext⟩ := h.target?_next_eq.mp hs
    obtain ⟨other, hother⟩ := Program.exists_stmt (hp.link_lt .next s t stmt hstmt hnext)
    exact ⟨other, hother, (hp.next_iff_prev s t stmt other hstmt hother).mp hnext⟩
  have hapart : ∀ {site : ListSite} {s : StmtId}, d.target? (.first site) = some t →
      ¬ d.target? (.next s) = some t := by
    intro site s hsite hs
    obtain ⟨stmt, hstmt, hsome⟩ := hprev hs
    have hnone := Program.WellFormed.prev_first hp hstmt (hlists hsite).1
    rw [hsome] at hnone
    cases hnone
  cases link with
  | first site =>
    cases link' with
    | first site' =>
      obtain ⟨hfirst, hon⟩ := hlists ht
      obtain ⟨hfirst', hon'⟩ := hlists ht'
      obtain ⟨_, -, hunique⟩ := hp.one_list t hon.lt_size
      rw [hunique site hon, hunique site' hon']
    | next s' => exact absurd ht' (hapart ht)
  | next s =>
    cases link' with
    | first site' => exact absurd ht (hapart ht')
    | next s' =>
      obtain ⟨stmt, hstmt, hs⟩ := hprev ht
      obtain ⟨stmt', hstmt', hs'⟩ := hprev ht'
      rw [hstmt] at hstmt'
      cases hstmt'
      rw [hs] at hs'
      cases hs'
      rfl

/-- **A finished draft is linked.** -/
theorem Sound.linked (hsound : d.Sound) (h : d.finish = .ok p) : d.Linked := by
  obtain ⟨places, -, hseal⟩ := finish_eq_ok h
  obtain ⟨made, hlayout⟩ := exists_layout h
  have hp := hsound.wellFormed h
  refine ⟨?_, ?_, ?_, ?_⟩
  · intro q proc hq
    obtain ⟨proc', -, rfl⟩ := hseal.proc q proc hq
    simp
  · intro s stmt hs
    obtain ⟨at_, kind, -, hkind, -⟩ := hseal.stmt s stmt hs
    exact sealedKind_eq_ok_iff.mp ⟨kind, hkind⟩
  · -- a visit is made because a procedure, a body or a next link leads to its statement
    have hreached : ∀ v ∈ made, d.Reached v.stmt := by
      refine hlayout.induction ?_ ?_ ?_
      · intro q proc hq
        exact ⟨q, proc.first, hseal.firstAt?_eq.mpr (Program.firstAt?_ofProc.mpr ⟨proc, hq, rfl⟩),
          .refl⟩
      · rintro u stmt first - hs ⟨q, start, hstart, hpath⟩ hfirst
        obtain ⟨draft, hdraft, -, -, hkind⟩ := hseal.exists_stmt hs
        refine ⟨q, start, hstart, hpath.tail ⟨draft, hdraft, Or.inl ?_⟩⟩
        rw [bodies_eq_of_sealedKind hkind]
        exact List.mem_map_of_mem hfirst
      · rintro u stmt t - hs ⟨q, start, hstart, hpath⟩ hnext
        obtain ⟨draft, hdraft, -, heq, -⟩ := hseal.exists_stmt hs
        exact ⟨q, start, hstart, hpath.tail ⟨draft, hdraft, Or.inr (heq ▸ hnext)⟩⟩
    intro s hs
    obtain ⟨v, hv, rfl⟩ := hlayout.covers s (by rw [hseal.size_stmts]; exact hs)
    exact hreached v hv
  · intro s hs
    rw [← hseal.size_stmts] at hs
    obtain ⟨site, hon, -⟩ := hp.one_list s hs
    rcases hon.first_or_next with hfirst | ⟨t, stmt, -, ht, hnext⟩
    · refine ⟨.first site, hseal.firstAt?_eq.mpr hfirst, ?_⟩
      intro link hlink
      exact hseal.link_unique hp hlink (hseal.firstAt?_eq.mpr hfirst)
    · have htarget := hseal.target?_next_eq.mpr ⟨stmt, ht, hnext⟩
      refine ⟨.next t, htarget, ?_⟩
      intro link hlink
      exact hseal.link_unique hp hlink htarget

/-! ## Linked drafts are finished -/

/-- A visit leads to visits of statements that its statement leads to. -/
theorem leadsTo_of_mem_nextVisits {u v : Visit} (h : v ∈ d.nextVisits u) :
    d.LeadsTo u.stmt v.stmt := by
  unfold nextVisits at h
  split at h
  · cases h
  · rename_i stmt hstmt
    split at h
    · cases h
    · rename_i kind hkind
      refine ⟨stmt, hstmt, ?_⟩
      unfold visitsAfter at h
      rcases List.mem_append.mp h with h | h
      · obtain ⟨first, hfirst, rfl⟩ := List.mem_map.mp h
        rw [bodies_eq_of_sealedKind hkind]
        exact Or.inl (List.mem_map_of_mem hfirst)
      · obtain ⟨t, ht, rfl⟩ := List.mem_map.mp h
        exact Or.inr (Option.mem_toList.mp ht)

/-- What a statement leads to, one of its links leads to. -/
theorem LeadsTo.exists_link (h : d.LeadsTo s t) :
    ∃ link : LinkSite, link.source = some s ∧ d.target? link = some t := by
  obtain ⟨stmt, hstmt, hbody | hnext⟩ := h
  · obtain ⟨slot, hslot⟩ := List.mem_iff_getElem?.mp hbody
    exact ⟨.first (.ofBody s slot), rfl, firstAt?_ofBody.mpr ⟨stmt, hstmt, hslot⟩⟩
  · exact ⟨.next s, rfl, target?_next.mpr ⟨stmt, hstmt, hnext⟩⟩

/-- The statements of a linked draft can be sealed. -/
theorem Linked.exists_kind (h : d.Linked) {stmt : DraftStmt} (hs : d.stmts[s]? = some stmt) :
    ∃ kind, stmt.sealedKind = .ok kind :=
  sealedKind_eq_ok_iff.mpr (h.bodies s stmt hs)

/-- In a linked draft, one link leads to a statement. -/
theorem Linked.eq_of_target (h : d.Linked) (hsound : d.Sound) {link link' : LinkSite}
    (ht : d.target? link = some t) (ht' : d.target? link' = some t) : link = link' := by
  obtain ⟨_, -, hunique⟩ := h.one_link t (hsound.target?_lt ht)
  rw [hunique link ht, hunique link' ht']

/-- The links of a statement: those to its bodies, and the one to what follows it. -/
def linksOf (d : Draft) (s : StmtId) : List LinkSite :=
  match d.stmts[s]? with
  | none => []
  | some stmt =>
    (List.range stmt.kind.bodies.length).map (fun slot => .first (.ofBody s slot)) ++ [.next s]

/-- The links of a statement start from it. -/
theorem source_of_mem_linksOf {link : LinkSite} (h : link ∈ d.linksOf s) :
    link.source = some s := by
  unfold linksOf at h
  split at h
  · cases h
  · rcases List.mem_append.mp h with h | h
    · obtain ⟨slot, -, rfl⟩ := List.mem_map.mp h
      rfl
    · rw [List.mem_singleton.mp h]
      rfl

/-- The links of a statement are listed once. -/
theorem nodup_linksOf (d : Draft) (s : StmtId) : (d.linksOf s).Nodup := by
  unfold linksOf
  split
  · exact List.nodup_nil
  · rename_i stmt hstmt
    cases stmt.kind <;> simp [StmtKind.bodies, List.range_succ]

/-- A link of a statement that leads somewhere is among the links of the statement. -/
theorem mem_linksOf {link : LinkSite} (hsource : link.source = some s)
    (ht : d.target? link = some t) :
    link ∈ d.linksOf s := by
  unfold linksOf
  cases link with
  | next u =>
    cases hsource
    obtain ⟨stmt, hstmt, -⟩ := target?_next.mp ht
    simp [hstmt]
  | first site =>
    cases site with
    | ofProc q => cases hsource
    | ofBody c slot =>
      cases hsource
      obtain ⟨stmt, hstmt, hslot⟩ := firstAt?_ofBody.mp ht
      obtain ⟨hlt, -⟩ := List.getElem?_eq_some_iff.mp hslot
      simp [hstmt, hlt]

/-- The statement is in the draft, and no body of it is missing. -/
def Complete (d : Draft) (s : StmtId) : Prop :=
  ∃ stmt, d.stmts[s]? = some stmt ∧ none ∉ stmt.kind.bodies

/-- In a linked draft, no statement lacks a body. -/
theorem Linked.complete (h : d.Linked) (hs : s < d.stmts.size) : d.Complete s :=
  ⟨_, Array.getElem?_eq_getElem hs, h.bodies s _ (Array.getElem?_eq_getElem hs)⟩

/-- A visit leads to the statements that the links of its statement lead to, if no body is
missing. -/
theorem map_stmt_nextVisits {u : Visit} (hu : d.Complete u.stmt) :
    (d.nextVisits u).map Visit.stmt = (d.linksOf u.stmt).filterMap d.target? := by
  obtain ⟨stmt, hstmt, hbodies⟩ := hu
  obtain ⟨kind, hkind⟩ := sealedKind_eq_ok_iff.mpr hbodies
  have hslots : (List.range stmt.kind.bodies.length).filterMap
      (fun slot => d.target? (.first (.ofBody u.stmt slot))) = kind.bodies := by
    simp only [target?, firstAt?, hstmt, Option.bind_some]
    rw [bodies_eq_of_sealedKind hkind]
    cases kind <;> simp [StmtKind.bodies, List.range_succ]
  have hnext : [LinkSite.next u.stmt].filterMap d.target? = stmt.next.toList := by
    have htarget : d.target? (.next u.stmt) = stmt.next := by simp [target?, hstmt]
    cases hstmtNext : stmt.next <;> simp [htarget, hstmtNext]
  rw [nextVisits_eq hstmt hkind]
  simp only [linksOf, hstmt, visitsAfter]
  rw [List.filterMap_append, List.filterMap_map, hnext]
  simp only [Function.comp_def]
  rw [hslots]
  simp [Function.comp_def]

/-- A state of placing statements. The visits made or pending are those to the bodies of some
procedures, and those that the visits made lead to; the places that are filled are those of the
visits made. -/
structure Placing (d : Draft) (places : Array (Option Place))
    (roots pending made : List Visit) : Prop where
  perm : (made ++ pending).Perm (roots ++ made.flatMap d.nextVisits)
  once : (made.map Visit.stmt).Nodup
  root : ∀ v ∈ roots, d.target? (.first (.ofProc v.place.owner)) = some v.stmt
  owners : (roots.map fun v => v.place.owner).Nodup
  size_eq : places.size = d.stmts.size
  free : ∀ s, s < d.stmts.size → s ∉ made.map Visit.stmt → places[s]? = some none
  filled : ∀ s ∈ made.map Visit.stmt, ∃ place, places[s]? = some (some place)

/-- The body of each procedure is among those to be visited. -/
theorem mem_rootVisits {q : ProcId} (h : d.firstAt? (.ofProc q) = some s) :
    (⟨s, ⟨q, none, none⟩⟩ : Visit) ∈ rootVisits d.procs.toList.zipIdx := by
  obtain ⟨proc, hq, hfirst⟩ := firstAt?_ofProc.mp h
  refine List.mem_filterMap.mpr ⟨(proc, q), ?_, by simp [hfirst]⟩
  rw [List.mem_zipIdx_iff_getElem?]
  simpa using hq

/-- The links that are followed: those of the procedures of roots, and those of the statements of
visits made. -/
def followed (d : Draft) (roots made : List Visit) : List LinkSite :=
  roots.map (fun v => .first (.ofProc v.place.owner)) ++ made.flatMap fun u => d.linksOf u.stmt

namespace Placing

variable {roots pending made : List Visit} {v : Visit}

/-- A visit that was made or waits was led to by a link. -/
theorem exists_link (h : d.Placing places roots pending made) (hv : v ∈ made ++ pending) :
    ∃ link, d.target? link = some v.stmt := by
  rcases List.mem_append.mp (h.perm.mem_iff.mp hv) with hroot | hnext
  · exact ⟨_, h.root v hroot⟩
  · obtain ⟨u, -, hv⟩ := List.mem_flatMap.mp hnext
    obtain ⟨link, -, htarget⟩ := (leadsTo_of_mem_nextVisits hv).exists_link
    exact ⟨link, htarget⟩

/-- A statement that was visited is in the draft. -/
theorem lt_size (h : d.Placing places roots pending made) (hs : s ∈ made.map Visit.stmt) :
    s < d.stmts.size := by
  obtain ⟨place, hplace⟩ := h.filled s hs
  rw [← h.size_eq]
  exact (Array.getElem?_eq_some_iff.mp hplace).1

/-- No link is followed twice: the procedures of the roots differ, and so do the statements of the
visits. -/
theorem nodup_followed (h : d.Placing places roots pending made) :
    (d.followed roots made).Nodup := by
  refine List.nodup_append'.mpr ⟨?_, ?_, ?_⟩
  · rw [List.Nodup, List.pairwise_map]
    refine List.Pairwise.imp ?_ (List.pairwise_map.mp h.owners)
    intro u v hne heq
    simp only [LinkSite.first.injEq, ListSite.ofProc.injEq] at heq
    exact hne heq
  · rw [List.nodup_flatMap]
    refine ⟨fun u _ => d.nodup_linksOf u.stmt, ?_⟩
    refine List.Pairwise.imp ?_ (List.pairwise_map.mp h.once)
    intro u v hne link hu hv
    exact hne (Option.some.inj ((source_of_mem_linksOf hu).symm.trans (source_of_mem_linksOf hv)))
  · intro link hroot hmade
    obtain ⟨v, -, rfl⟩ := List.mem_map.mp hroot
    obtain ⟨u, -, hu⟩ := List.mem_flatMap.mp hmade
    cases source_of_mem_linksOf hu

/-- **Visits and links**: the statements visited and to be visited are those that the links followed
lead to, each as many times as links lead to it. -/
theorem perm_targets (h : d.Placing places roots pending made)
    (hmade : ∀ u ∈ made, d.Complete u.stmt) :
    (made ++ pending).map Visit.stmt ~ (d.followed roots made).filterMap d.target? := by
  have hroots : (roots.map fun v => LinkSite.first (.ofProc v.place.owner)).filterMap d.target? =
      roots.map Visit.stmt := by
    rw [List.filterMap_map, ← List.filterMap_eq_map]
    exact List.filterMap_congr fun v hv => h.root v hv
  have hlinks : (made.flatMap fun u => d.linksOf u.stmt).filterMap d.target? =
      (made.flatMap d.nextVisits).map Visit.stmt := by
    rw [List.filterMap_flatMap, List.map_flatMap]
    exact List.flatMap_congr fun u hu => (map_stmt_nextVisits (hmade u hu)).symm
  unfold followed
  rw [List.filterMap_append, hroots, hlinks, ← List.map_append]
  exact h.perm.map Visit.stmt

/-- **Different links lead to different statements**, so no statement is to be visited twice. -/
theorem nodup_targets (h : d.Placing places roots pending made) (hd : d.Linked) (hsound : d.Sound) :
    ((made ++ pending).map Visit.stmt).Nodup := by
  have hcomplete : ∀ u ∈ made, d.Complete u.stmt := fun u hu =>
    hd.complete (h.lt_size (List.mem_map_of_mem hu))
  rw [(h.perm_targets hcomplete).nodup_iff]
  exact h.nodup_followed.filterMap fun link link' t ht ht' => hd.eq_of_target hsound ht ht'

/-- Making the next visit fills the place of its statement, if that is free. -/
theorem advance (h : d.Placing places roots (v :: pending) made)
    (hfree : places[v.stmt]? = some none) :
    d.Placing (places.setIfInBounds v.stmt (some v.place)) roots (d.nextVisits v ++ pending)
      (v :: made) := by
  have hnew : v.stmt ∉ made.map Visit.stmt := by
    intro hmem
    obtain ⟨place, hplace⟩ := h.filled v.stmt hmem
    rw [hfree] at hplace
    cases hplace
  obtain ⟨hlt, -⟩ := Array.getElem?_eq_some_iff.mp hfree
  refine ⟨?_, ?_, h.root, h.owners, ?_, ?_, ?_⟩
  · have hperm : v :: (made ++ pending) ~ roots ++ made.flatMap d.nextVisits :=
      List.perm_middle.symm.trans h.perm
    rw [List.flatMap_cons]
    calc v :: made ++ (d.nextVisits v ++ pending)
      _ = (v :: made ++ d.nextVisits v) ++ pending := (List.append_assoc _ _ _).symm
      _ ~ (d.nextVisits v ++ v :: made) ++ pending := List.perm_append_comm.append_right pending
      _ = d.nextVisits v ++ (v :: (made ++ pending)) := List.append_assoc _ _ _
      _ ~ d.nextVisits v ++ (roots ++ made.flatMap d.nextVisits) := hperm.append_left _
      _ = (d.nextVisits v ++ roots) ++ made.flatMap d.nextVisits := (List.append_assoc _ _ _).symm
      _ ~ (roots ++ d.nextVisits v) ++ made.flatMap d.nextVisits :=
        List.perm_append_comm.append_right _
      _ = roots ++ (d.nextVisits v ++ made.flatMap d.nextVisits) := List.append_assoc _ _ _
  · exact List.nodup_cons.mpr ⟨hnew, h.once⟩
  · simpa using h.size_eq
  · intro s hs hnot
    rw [List.map_cons, List.mem_cons, not_or] at hnot
    rw [Array.getElem?_setIfInBounds_ne (Ne.symm hnot.1)]
    exact h.free s hs hnot.2
  · intro s hs
    by_cases heq : v.stmt = s
    · subst heq
      exact ⟨v.place, Array.getElem?_setIfInBounds_self_of_lt hlt⟩
    · rw [Array.getElem?_setIfInBounds_ne heq]
      rw [List.map_cons, List.mem_cons] at hs
      exact h.filled s (hs.resolve_left (Ne.symm heq))

/-- In a linked draft the next visit finds a free place. -/
theorem next_free (h : d.Placing places roots (v :: pending) made) (hd : d.Linked)
    (hsound : d.Sound) :
    places[v.stmt]? = some none := by
  have hnodup := h.nodup_targets hd hsound
  rw [(List.perm_middle.map Visit.stmt).nodup_iff, List.map_cons, List.nodup_cons, List.map_append,
    List.mem_append, not_or] at hnodup
  obtain ⟨link, hlink⟩ := h.exists_link (v := v) (by simp)
  exact h.free v.stmt (hsound.target?_lt hlink) hnodup.1.1

/-- Once no visit is pending, the body of a further procedure is to be visited. -/
theorem enter (h : d.Placing places roots [] made) {q : ProcId} {proc : DraftProc} {first : StmtId}
    (hq : d.procs[q]? = some proc) (hfirst : proc.first = some first)
    (howner : q ∉ roots.map fun v => v.place.owner) :
    d.Placing places (roots ++ [⟨first, ⟨q, none, none⟩⟩]) [⟨first, ⟨q, none, none⟩⟩] made := by
  refine ⟨?_, h.once, ?_, ?_, h.size_eq, h.free, h.filled⟩
  · have hperm : made ~ roots ++ made.flatMap d.nextVisits := by simpa using h.perm
    refine (hperm.append_right _).trans ?_
    rw [List.append_assoc, List.append_assoc]
    exact List.perm_append_comm.append_left roots
  · intro v hv
    rcases List.mem_append.mp hv with hv | hv
    · exact h.root v hv
    · rw [List.mem_singleton.mp hv]
      exact firstAt?_ofProc.mpr ⟨proc, hq, hfirst⟩
  · rw [List.map_append]
    refine List.nodup_append'.mpr ⟨h.owners, by simp, ?_⟩
    intro q' hq' hmem
    rw [List.map_singleton, List.mem_singleton] at hmem
    subst hmem
    exact howner hq'

/-- **Making the pending visits** of a linked draft comes to its end. Each visit is to another
statement, so a bound for those that are not placed yet is enough. -/
theorem visitAll_eq (hd : d.Linked) (hsound : d.Sound) {bound : Nat}
    (h : d.Placing places roots pending made) (hbound : d.stmts.size ≤ bound + made.length) :
    ∃ places' made', d.visitAll bound pending places = .ok places' ∧
      d.Placing places' roots [] made' := by
  induction bound generalizing places pending made with
  | zero =>
    cases pending with
    | nil => exact ⟨places, made, rfl, h⟩
    | cons v pending =>
      -- one more visit would be to one statement more than there are
      have hnext := h.advance (h.next_free hd hsound)
      have hlen := Program.length_le_of_nodup_lt hnext.once fun s hs => hnext.lt_size hs
      simp only [List.length_map, List.length_cons] at hlen
      omega
  | succ bound ih =>
    cases pending with
    | nil => exact ⟨places, made, rfl, h⟩
    | cons v pending =>
      have hfree := h.next_free hd hsound
      obtain ⟨link, hlink⟩ := h.exists_link (v := v) (by simp)
      have hstmt := Array.getElem?_eq_getElem (hsound.target?_lt hlink)
      obtain ⟨kind, hkind⟩ := hd.exists_kind hstmt
      obtain ⟨places', made', heq, hplacing⟩ :=
        ih (h.advance hfree) (by simp only [List.length_cons]; omega)
      refine ⟨places', made', ?_, hplacing⟩
      rw [visitAll_free hstmt hfree, hkind]
      rw [nextVisits_eq hstmt hkind] at heq
      exact heq

/-- The procedures of a linked draft are placed one after the other. -/
theorem placeProcs_eq (hd : d.Linked) (hsound : d.Sound) {procs : List (DraftProc × ProcId)}
    (hprocs : ∀ entry ∈ procs, d.procs[entry.2]? = some entry.1)
    (howners : (roots.map (fun v => v.place.owner) ++ procs.map Prod.snd).Nodup)
    (h : d.Placing places roots [] made) :
    ∃ places' made', d.placeProcs procs places = .ok places' ∧
      d.Placing places' (roots ++ rootVisits procs) [] made' := by
  induction procs generalizing places roots made with
  | nil => exact ⟨places, made, rfl, by simpa [rootVisits] using h⟩
  | cons entry procs ih =>
    obtain ⟨proc, q⟩ := entry
    have hq : d.procs[q]? = some proc := hprocs (proc, q) List.mem_cons_self
    obtain ⟨first, hfirst⟩ := Option.ne_none_iff_exists'.mp (hd.proc_body q proc hq)
    have howner : q ∉ roots.map fun v => v.place.owner := by
      intro hmem
      exact List.disjoint_of_nodup_append howners hmem List.mem_cons_self
    have hstart := h.enter hq hfirst howner
    have hbound : d.stmts.size ≤ d.stmts.size + made.length := Nat.le_add_right _ _
    obtain ⟨places₁, made₁, hvisit, hplacing₁⟩ := hstart.visitAll_eq hd hsound hbound
    obtain ⟨places₂, made₂, hrest, hplacing₂⟩ :=
      ih (fun entry hentry => hprocs entry (List.mem_cons_of_mem _ hentry)) (by simpa using howners)
        hplacing₁
    refine ⟨places₂, made₂, ?_, ?_⟩
    · unfold placeProcs
      simp only [hfirst, hvisit, bind, Except.bind]
      exact hrest
    · have hroots : rootVisits ((proc, q) :: procs) =
          [⟨first, ⟨q, none, none⟩⟩] ++ rootVisits procs := by
        simp [rootVisits, hfirst]
      rw [hroots, ← List.append_assoc]
      exact hplacing₂

/-- Once no visit is pending, every statement that is reached from a procedure with a visit is
placed. -/
theorem mem_of_leadsTo (h : d.Placing places roots [] made) {u : Visit} (hu : u ∈ made)
    (hcomplete : d.Complete u.stmt) (hstep : d.LeadsTo u.stmt t) : ∃ v ∈ made, v.stmt = t := by
  obtain ⟨link, hsource, htarget⟩ := hstep.exists_link
  have hnext : t ∈ (d.nextVisits u).map Visit.stmt := by
    rw [map_stmt_nextVisits hcomplete]
    exact List.mem_filterMap.mpr ⟨link, mem_linksOf hsource htarget, htarget⟩
  obtain ⟨v, hv, rfl⟩ := List.mem_map.mp hnext
  have hmem := h.perm.mem_iff.mpr (List.mem_append_right roots (List.mem_flatMap.mpr ⟨u, hu, hv⟩))
  exact ⟨v, by simpa using hmem, rfl⟩

/-- Once no visit is pending, all statements that the bodies of procedures with a visit lead to are
placed. -/
theorem mem_of_reached (h : d.Placing places roots [] made)
    (hcomplete : ∀ u ∈ made, d.Complete u.stmt)
    (hroots : ∀ q first, d.firstAt? (.ofProc q) = some first → ∃ v ∈ roots, v.stmt = first)
    (hs : d.Reached s) : ∃ v ∈ made, v.stmt = s := by
  obtain ⟨q, first, hfirst, hpath⟩ := hs
  induction hpath with
  | refl =>
    obtain ⟨v, hv, rfl⟩ := hroots q first hfirst
    have hmem := h.perm.mem_iff.mpr (List.mem_append_left _ hv)
    exact ⟨v, by simpa using hmem, rfl⟩
  | tail _ hstep ih =>
    obtain ⟨u, hu, rfl⟩ := ih
    exact h.mem_of_leadsTo hu (hcomplete u hu) hstep

end Placing

/-- Placing begins with no place filled. -/
theorem placing_start (d : Draft) : d.Placing (Array.replicate d.stmts.size none) [] [] [] := by
  refine ⟨by simp, by simp, by simp, by simp, by simp, ?_, by simp⟩
  intro s hs _
  simp [hs]

/-- The procedures are paired with their own numbers. -/
theorem zipIdx_procs : ∀ entry ∈ d.procs.toList.zipIdx, d.procs[entry.2]? = some entry.1 := by
  intro entry hentry
  simpa using List.mem_zipIdx_iff_getElem?.mp hentry

/-- At the start, no procedure has a visit, and each is listed once. -/
theorem nodup_owners (d : Draft) :
    (([] : List Visit).map (fun v => v.place.owner) ++
      d.procs.toList.zipIdx.map Prod.snd).Nodup := by
  rw [List.map_nil, List.nil_append, List.zipIdx_map_snd]
  exact List.nodup_range'

/-- **A linked draft is finished.** -/
theorem Linked.exists_finish (hd : d.Linked) (hsound : d.Sound) : ∃ p, d.finish = .ok p := by
  obtain ⟨places, made, hplaces, hplacing⟩ :=
    (placing_start d).placeProcs_eq hd hsound zipIdx_procs (nodup_owners d)
  have hcomplete : ∀ u ∈ made, d.Complete u.stmt := fun u hu =>
    hd.complete (hplacing.lt_size (List.mem_map_of_mem hu))
  have hcovers : ∀ s, s < d.stmts.size → ∃ v ∈ made, v.stmt = s := by
    intro s hs
    refine hplacing.mem_of_reached hcomplete ?_ (hd.reached s hs)
    intro q first hfirst
    exact ⟨_, mem_rootVisits hfirst, rfl⟩
  refine exists_finish_of_filled hplaces ?_ ?_ ?_
  · intro proc hproc
    obtain ⟨q, hq⟩ := Array.mem_iff_getElem?.mp hproc
    exact hd.proc_body q proc hq
  · intro stmt hstmt
    obtain ⟨s, hs⟩ := Array.mem_iff_getElem?.mp hstmt
    exact hd.exists_kind hs
  · intro s hs
    obtain ⟨v, hv, rfl⟩ := hcovers s hs
    exact hplacing.filled v.stmt (List.mem_map_of_mem hv)

/-! ## The bound of a placement -/

/-- A bound for the statements without a place is enough for all visits: when it is used up, every
statement has its place. -/
theorem visitAll_bound {bound : Nat} (extra : Nat) {pending : List Visit}
    (hsize : places.size = d.stmts.size) (hbound : places.countP (·.isNone) ≤ bound) :
    d.visitAll (bound + extra) pending places = d.visitAll bound pending places := by
  induction bound generalizing pending places with
  | zero =>
    cases pending with
    | nil =>
      unfold visitAll
      rfl
    | cons v pending =>
      unfold visitAll
      cases hstmt : d.getStmt v.stmt with
      | error e => rfl
      | ok stmt =>
        have hlt : v.stmt < places.size := by
          rw [hsize]
          exact lt_size_of_getStmt hstmt
        have hplaced : places[v.stmt] ≠ none := by
          have hnone : places.countP (·.isNone) = 0 := by omega
          rw [Array.countP_eq_zero] at hnone
          simpa using hnone places[v.stmt] (Array.getElem_mem hlt)
        obtain ⟨place, hplace⟩ := Option.ne_none_iff_exists'.mp hplaced
        rw [Array.getElem?_eq_getElem hlt, hplace]
        cases extra <;> rfl
  | succ bound ih =>
    cases pending with
    | nil =>
      unfold visitAll
      rfl
    | cons v pending =>
      rw [Nat.succ_add]
      unfold visitAll
      cases hstmt : d.getStmt v.stmt with
      | error e => rfl
      | ok stmt =>
        have hlt : v.stmt < places.size := by
          rw [hsize]
          exact lt_size_of_getStmt hstmt
        rw [Array.getElem?_eq_getElem hlt]
        cases hplace : places[v.stmt] with
        | some place => rfl
        | none =>
          cases hkind : stmt.sealedKind with
          | error e => simp only [bind, Except.bind, hkind]
          | ok kind =>
            simp only [bind, Except.bind, hkind]
            apply ih
            · simpa using hsize
            · rw [Array.setIfInBounds, dif_pos hlt, Array.countP_set]
              simp only [hplace, Option.isNone_none, Option.isNone_some, if_true]
              simp only [Bool.false_eq_true, if_false]
              omega

/-- **Which drafts are finished**. Whatever the steps, finishing the draft that they lead to ends:
the number of its statements is bound enough for the visits. It ends with a program exactly if no
body is missing, all statements are reached from the bodies of procedures, and exactly one link
leads to each statement. -/
theorem finish_after_iff_linked (settings : Settings) (steps : List Step) :
    (∀ (bound : Nat) (pending : List Visit) (places : Array (Option Place)),
      (after settings steps).stmts.size ≤ bound → places.size = (after settings steps).stmts.size →
        (after settings steps).visitAll bound pending places =
          (after settings steps).visitAll (after settings steps).stmts.size pending places) ∧
    ((∃ p, (after settings steps).finish = .ok p) ↔ (after settings steps).Linked) := by
  have hsound := sound_after settings steps
  refine ⟨?_, ?_, ?_⟩
  · intro bound pending places hbound hsize
    obtain ⟨extra, rfl⟩ := Nat.exists_eq_add_of_le hbound
    apply visitAll_bound extra hsize
    rw [← hsize]
    exact Array.countP_le_size
  · rintro ⟨p, h⟩
    exact hsound.linked h
  · intro hlinked
    exact hlinked.exists_finish hsound

/-- The example draft is linked. With one more link, from the end of the first list back to its
beginning, it is not: two links lead to one statement. -/
theorem finish_exampleSteps_linked :
    (after {} exampleSteps).Linked ∧ ¬ (after {} (exampleSteps ++ [.setNext 1 0])).Linked := by
  refine ⟨(finish_after_iff_linked {} exampleSteps).2.mp ⟨exampleProgram, by decide +kernel⟩, ?_⟩
  intro hlinked
  obtain ⟨p, hp⟩ := (finish_after_iff_linked {} (exampleSteps ++ [.setNext 1 0])).2.mpr hlinked
  have hrefused : (after {} (exampleSteps ++ [.setNext 1 0])).finish =
      .error (.reachedTwice 1) := by
    decide +kernel
  rw [hrefused] at hp
  cases hp

end Draft

end ProgramQuery
