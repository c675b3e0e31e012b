import ProgramQuery.Proofs.PlacementTrace
import ProgramQuery.Proofs.ProgramTables

/-!
# Well-formed programs

A program is a set of statement lists: one for each procedure, and one for each body of a container
(`ListSite`). In a well-formed program (`Program.WellFormed`) the links describe these lists and
nothing else. They stay within the program, `next` and `prev` are inverse to each other, each list
ends, every statement is a member of one list and stands there once, `parent` is the container
around the list, and the owner of a statement is the procedure that its outermost container belongs
to.

**Every finished draft is a well-formed program** (`Sound.wellFormed`). A draft records only where
links lead to, and they may lead anywhere; what makes the program well formed is that placing the
statements met each of them exactly once. The proof goes through the visits of the placement
(`Program.Layout`): each fact is shown of a visit to the body of a procedure, to the body of a
container and to what follows a statement.
-/

set_option autoImplicit false

namespace ProgramQuery

open Draft (Place Visit visitsAfter)

/-! ## Statement lists -/

/-- Where a statement list stands: it is the body of a procedure, or one of the bodies of a
container, which are counted from zero in source order. -/
inductive ListSite where
  | ofProc (q : ProcId)
  | ofBody (c : StmtId) (slot : Nat)
deriving DecidableEq, Repr

/-- The container that a statement list is a body of. -/
def ListSite.container : ListSite → Option StmtId
  | ofProc _ => none
  | ofBody c _ => some c

namespace Program

/-- The first statement of a list. -/
def firstAt? (p : Program) : ListSite → Option StmtId
  | .ofProc q => p.procs[q]?.map (·.first)
  | .ofBody c slot => p.stmts[c]?.bind fun stmt => stmt.kind.bodies[slot]?

/-- The members of the list at a site, along the `next` links from its first statement. -/
def ListAt (p : Program) (site : ListSite) (l : List StmtId) : Prop :=
  ∃ first, p.firstAt? site = some first ∧ p.Path .next (some first) l

/-- The list at a site ends and has a statement as its member. -/
def OnList (p : Program) (site : ListSite) (s : StmtId) : Prop :=
  ∃ l, p.ListAt site l ∧ s ∈ l

/-- The links of a program describe statement lists and nothing else. -/
structure WellFormed (p : Program) : Prop where
  /-- The links between statements stay within the program. -/
  link_lt : ∀ (link : Link) (s t : StmtId) (stmt : Stmt), p.stmts[s]? = some stmt →
    link.target stmt = some t → t < p.stmts.size
  /-- Bodies of containers are statements of the program. -/
  body_lt : ∀ (s first : StmtId) (stmt : Stmt), p.stmts[s]? = some stmt →
    first ∈ stmt.kind.bodies → first < p.stmts.size
  /-- Bodies of procedures are statements of the program. -/
  first_lt : ∀ (q : ProcId) (proc : Proc), p.procs[q]? = some proc → proc.first < p.stmts.size
  /-- Calls are of procedures of the program. -/
  callee_lt : ∀ (s : StmtId) (q : ProcId) (stmt : Stmt), p.stmts[s]? = some stmt →
    stmt.kind = .call q → q < p.procs.size
  /-- Statements belong to procedures of the program. -/
  owner_lt : ∀ (s : StmtId) (stmt : Stmt), p.stmts[s]? = some stmt → stmt.owner < p.procs.size
  /-- What comes after a statement has the statement before it, and the other way round. -/
  next_iff_prev : ∀ (s t : StmtId) (stmt other : Stmt), p.stmts[s]? = some stmt →
    p.stmts[t]? = some other → (stmt.next = some t ↔ other.prev = some s)
  /-- Every list ends. -/
  list_ends : ∀ (site : ListSite) (first : StmtId), p.firstAt? site = some first →
    ∃ l, p.Path .next (some first) l
  /-- Every statement is a member of exactly one list. -/
  one_list : ∀ s, s < p.stmts.size → ∃! site, p.OnList site s
  /-- A member of a list stands there exactly once. -/
  once : ∀ (site : ListSite) (l : List StmtId) (s : StmtId), p.ListAt site l → s ∈ l →
    l.count s = 1
  /-- The parent of a statement is the container of whose bodies it is a member. -/
  parent_iff : ∀ (s c : StmtId) (stmt : Stmt), p.stmts[s]? = some stmt →
    (stmt.parent = some c ↔ ∃ slot, p.OnList (.ofBody c slot) s)
  /-- A statement has no parent if it is a member of a procedure's own list. -/
  top_iff : ∀ (s : StmtId) (stmt : Stmt), p.stmts[s]? = some stmt →
    (stmt.parent = none ↔ ∃ q, p.OnList (.ofProc q) s)
  /-- Following `parent` links ends, at a member of the own list of the statement's owner. -/
  owner_eq : ∀ (s : StmtId) (stmt : Stmt), p.stmts[s]? = some stmt →
    ∃ (l : List StmtId) (outermost : StmtId), p.Path .parent (some s) l ∧
      l.getLast? = some outermost ∧ p.OnList (.ofProc stmt.owner) outermost
  /-- Looking up the line of a statement gives the statement. -/
  stmtAt?_line : ∀ (s : StmtId) (stmt : Stmt), p.stmts[s]? = some stmt →
    p.stmtAt? stmt.line = some s
  /-- Looking up the name of a procedure gives the procedure. -/
  procNamed?_name : ∀ (q : ProcId) (proc : Proc), p.procs[q]? = some proc →
    p.procNamed? proc.name = some q

variable {p : Program} {made : List Visit} {site site' : ListSite} {s t : StmtId}

/-! ## Going through the lines -/

/-- The table of lines holds all statements. -/
theorem WellFormed.mem_stmtIds (hp : p.WellFormed) : s ∈ p.stmtIds ↔ s < p.stmts.size := by
  refine ⟨lt_size_of_mem_stmtIds, fun hs => ?_⟩
  obtain ⟨stmt, hstmt⟩ := exists_stmt hs
  exact Program.mem_stmtIds.mpr ⟨stmt.line, hp.stmtAt?_line s stmt hstmt⟩

/-- What is collected by lines is collected from all statements. -/
theorem WellFormed.mem_foldl_stmtsByLine (hp : p.WellFormed) {α : Type} [Ord α] [Std.TransOrd α]
    [Std.LawfulEqOrd α] {names : Stmt → SortedSet α} {a : α} :
    a ∈ p.stmtsByLine.foldl (fun (found : SortedSet α) stmt => found.union (names stmt)) ∅ ↔
      ∃ (s : StmtId) (stmt : Stmt), p.stmts[s]? = some stmt ∧ a ∈ names stmt := by
  rw [Program.mem_foldl_stmtsByLine]
  constructor
  · rintro ⟨s, -, stmt, hs, ha⟩
    exact ⟨s, stmt, hs, ha⟩
  · rintro ⟨s, stmt, hs, ha⟩
    exact ⟨s, hp.mem_stmtIds.mpr (lt_size_of_getElem? hs), stmt, hs, ha⟩

/-- The variables of the program are those that some statement names. -/
theorem WellFormed.mem_vars_iff (hp : p.WellFormed) {x : String} :
    x ∈ p.vars ↔ ∃ (s : StmtId) (stmt : Stmt), p.stmts[s]? = some stmt ∧ x ∈ stmt.kind.vars :=
  hp.mem_foldl_stmtsByLine

/-- The constants of the program are those that some statement names. -/
theorem WellFormed.mem_consts_iff (hp : p.WellFormed) {value : Int} :
    value ∈ p.consts ↔
    ∃ (s : StmtId) (stmt : Stmt), p.stmts[s]? = some stmt ∧ value ∈ stmt.kind.consts :=
  hp.mem_foldl_stmtsByLine

/-- The variables collected by lines are those of all statements. -/
theorem WellFormed.vars_eq (hp : p.WellFormed) : p.vars = p.stmtVars :=
  SortedSet.ext_mem fun _ => hp.mem_vars_iff.trans mem_stmtVars.symm

/-! ## Walking through lists -/

/-- The list of a procedure begins with the first statement of the procedure. -/
theorem firstAt?_ofProc {q : ProcId} :
    p.firstAt? (.ofProc q) = some s ↔ ∃ proc, p.procs[q]? = some proc ∧ proc.first = s := by
  simp [firstAt?]

/-- The list of a body begins with the first statement of the body. -/
theorem firstAt?_ofBody {c : StmtId} {slot : Nat} :
    p.firstAt? (.ofBody c slot) = some s ↔
      ∃ stmt, p.stmts[c]? = some stmt ∧ stmt.kind.bodies[slot]? = some s := by
  simp [firstAt?, Option.bind_eq_some_iff]

/-- What is on a list is in the program. -/
theorem OnList.lt_size (h : p.OnList site s) : s < p.stmts.size := by
  obtain ⟨l, ⟨first, -, hl⟩, hs⟩ := h
  exact hl.lt_size hs

/-- A procedure with a statement on its list is in the program. -/
theorem OnList.owner_lt {q : ProcId} (h : p.OnList (.ofProc q) s) : q < p.procs.size := by
  obtain ⟨l, ⟨first, hfirst, -⟩, -⟩ := h
  obtain ⟨proc, hq, -⟩ := firstAt?_ofProc.mp hfirst
  exact (Array.getElem?_eq_some_iff.mp hq).1

/-- A list that ends has its first statement as a member. -/
theorem OnList.of_first {l : List StmtId} (hfirst : p.firstAt? site = some s)
    (hl : p.Path .next (some s) l) : p.OnList site s := by
  refine ⟨l, ⟨s, hfirst, hl⟩, ?_⟩
  cases hl with
  | step _ _ => exact List.mem_cons_self

/-- What follows a member of a list is a member. -/
theorem OnList.next {stmt : Stmt} (h : p.OnList site s) (hs : p.stmts[s]? = some stmt)
    (hnext : stmt.next = some t) : p.OnList site t := by
  obtain ⟨l, hl, hmem⟩ := h
  obtain ⟨first, -, hpath⟩ := id hl
  exact ⟨l, hl, hpath.mem_of_target hmem hs hnext⟩

/-- A member of a list is the first one, or comes after another member. -/
theorem OnList.first_or_next (h : p.OnList site t) :
    p.firstAt? site = some t ∨
      ∃ s stmt, p.OnList site s ∧ p.stmts[s]? = some stmt ∧ stmt.next = some t := by
  obtain ⟨l, hl, hmem⟩ := h
  obtain ⟨first, hfirst, hpath⟩ := id hl
  rcases hpath.eq_or_target hmem with heq | ⟨s, stmt, hs, hstmt, hnext⟩
  · left
    cases heq
    exact hfirst
  · right
    exact ⟨s, stmt, ⟨l, hl, hs⟩, hstmt, hnext⟩

/-! ## The visits of a layout -/

/-- The root visits go to the bodies of the procedures. -/
theorem mem_rootVisits {v : Visit} :
    v ∈ p.rootVisits ↔ ∃ q proc, p.procs[q]? = some proc ∧ v = ⟨proc.first, ⟨q, none, none⟩⟩ := by
  unfold rootVisits
  rw [List.mem_map]
  constructor
  · rintro ⟨⟨proc, q⟩, hmem, rfl⟩
    rw [List.mem_zipIdx_iff_getElem?] at hmem
    exact ⟨q, proc, by simpa using hmem, rfl⟩
  · rintro ⟨q, proc, hq, rfl⟩
    refine ⟨(proc, q), ?_, rfl⟩
    rw [List.mem_zipIdx_iff_getElem?]
    simpa using hq

/-- A visit leads to the bodies of its statement and to what follows it. -/
theorem mem_nextVisits {u v : Visit} {stmt : Stmt} (hs : p.stmts[u.stmt]? = some stmt) :
    v ∈ p.nextVisits u ↔
      (∃ first ∈ stmt.kind.bodies, v = ⟨first, ⟨u.place.owner, some u.stmt, none⟩⟩) ∨
      ∃ t, stmt.next = some t ∧ v = ⟨t, ⟨u.place.owner, u.place.parent, some u.stmt⟩⟩ := by
  unfold nextVisits
  rw [hs]
  simp only [visitsAfter, List.mem_append, List.mem_map, Option.mem_toList]
  constructor
  · rintro (⟨first, hfirst, rfl⟩ | ⟨t, ht, rfl⟩)
    · exact Or.inl ⟨first, hfirst, rfl⟩
    · exact Or.inr ⟨t, ht, rfl⟩
  · rintro (⟨first, hfirst, rfl⟩ | ⟨t, ht, rfl⟩)
    · exact Or.inl ⟨first, hfirst, rfl⟩
    · exact Or.inr ⟨t, ht, rfl⟩

namespace Layout

/-- A statement is visited once. -/
theorem eq_of_stmt_eq (h : p.Layout made) {u v : Visit} (hu : u ∈ made) (hv : v ∈ made)
    (heq : u.stmt = v.stmt) : u = v :=
  List.inj_on_of_nodup_map h.once hu hv heq

/-- The body of a procedure is visited. -/
theorem root_mem (h : p.Layout made) {q : ProcId} {proc : Proc} (hq : p.procs[q]? = some proc) :
    (⟨proc.first, ⟨q, none, none⟩⟩ : Visit) ∈ made :=
  h.visits.mem_iff.mpr (Or.inl (mem_rootVisits.mpr ⟨q, proc, hq, rfl⟩))

/-- The bodies of a visited statement are visited. -/
theorem body_mem (h : p.Layout made) {u : Visit} {stmt : Stmt} {first : StmtId} (hu : u ∈ made)
    (hs : p.stmts[u.stmt]? = some stmt) (hfirst : first ∈ stmt.kind.bodies) :
    (⟨first, ⟨u.place.owner, some u.stmt, none⟩⟩ : Visit) ∈ made :=
  h.visits.mem_iff.mpr (Or.inr ⟨u, hu, (mem_nextVisits hs).mpr (Or.inl ⟨first, hfirst, rfl⟩)⟩)

/-- What follows a visited statement is visited. -/
theorem next_mem (h : p.Layout made) {u : Visit} {stmt : Stmt} (hu : u ∈ made)
    (hs : p.stmts[u.stmt]? = some stmt) (hnext : stmt.next = some t) :
    (⟨t, ⟨u.place.owner, u.place.parent, some u.stmt⟩⟩ : Visit) ∈ made :=
  h.visits.mem_iff.mpr (Or.inr ⟨u, hu, (mem_nextVisits hs).mpr (Or.inr ⟨t, hnext, rfl⟩)⟩)

/-- **Induction on visits**: a fact holds of all visits if it holds of those to the bodies of
procedures, and passes on from a statement to its bodies and to what follows it. -/
theorem induction (h : p.Layout made) {P : Visit → Prop}
    (root : ∀ q proc, p.procs[q]? = some proc → P ⟨proc.first, ⟨q, none, none⟩⟩)
    (body : ∀ u stmt first, u ∈ made → p.stmts[u.stmt]? = some stmt → P u →
      first ∈ stmt.kind.bodies → P ⟨first, ⟨u.place.owner, some u.stmt, none⟩⟩)
    (next : ∀ u stmt t, u ∈ made → p.stmts[u.stmt]? = some stmt → P u → stmt.next = some t →
      P ⟨t, ⟨u.place.owner, u.place.parent, some u.stmt⟩⟩) :
    ∀ v ∈ made, P v := by
  refine h.visits.forall_made ?_ ?_
  · intro v hv
    obtain ⟨q, proc, hq, rfl⟩ := mem_rootVisits.mp hv
    exact root q proc hq
  · intro u hu hPu v hv
    obtain ⟨stmt, hs, -⟩ := h.place u hu
    rcases (mem_nextVisits hs).mp hv with ⟨first, hfirst, rfl⟩ | ⟨t, hnext, rfl⟩
    · exact body u stmt first hu hs hPu hfirst
    · exact next u stmt t hu hs hPu hnext

/-- Every list of a program with a layout ends. -/
theorem path_next (h : p.Layout made) : ∀ v ∈ made, ∃ l, p.Path .next (some v.stmt) l := by
  refine h.visits.forall_made_of_after ?_
  intro u hu ih
  obtain ⟨stmt, hs, -⟩ := h.place u hu
  cases hnext : stmt.next with
  | none =>
    refine ⟨[u.stmt], Path.step hs ?_⟩
    rw [Link.target, hnext]
    exact Path.done
  | some t =>
    obtain ⟨l, hl⟩ := ih _ ((mem_nextVisits hs).mpr (Or.inr ⟨t, hnext, rfl⟩))
    refine ⟨u.stmt :: l, Path.step hs ?_⟩
    rw [Link.target, hnext]
    exact hl

/-- The visit to the first statement of a list: there is nothing before it in the list. -/
theorem first_visit (h : p.Layout made) (hfirst : p.firstAt? site = some s) :
    ∃ v ∈ made, v.stmt = s ∧ v.place.parent = site.container ∧ v.place.prev = none := by
  cases site with
  | ofProc q =>
    obtain ⟨proc, hq, rfl⟩ := firstAt?_ofProc.mp hfirst
    exact ⟨_, h.root_mem hq, rfl, rfl, rfl⟩
  | ofBody c slot =>
    obtain ⟨stmt, hc, hslot⟩ := firstAt?_ofBody.mp hfirst
    obtain ⟨u, hu, rfl⟩ := h.covers c (lt_size_of_getElem? hc)
    exact ⟨_, h.body_mem hu hc (List.mem_of_getElem? hslot), rfl, rfl, rfl⟩

/-- The first statement of a list is on it, since every list ends. -/
theorem onList_first (h : p.Layout made) (hfirst : p.firstAt? site = some s) :
    p.OnList site s := by
  obtain ⟨v, hv, rfl, -⟩ := h.first_visit hfirst
  obtain ⟨l, hl⟩ := h.path_next v hv
  exact OnList.of_first hfirst hl

/-- What follows a visited statement is in the same container, right after it. -/
theorem next_visit (h : p.Layout made) {u v : Visit} {stmt : Stmt} (hu : u ∈ made) (hv : v ∈ made)
    (hs : p.stmts[u.stmt]? = some stmt) (hnext : stmt.next = some v.stmt) :
    v.place = ⟨u.place.owner, u.place.parent, some u.stmt⟩ := by
  have heq := h.eq_of_stmt_eq hv (h.next_mem hu hs hnext) rfl
  rw [heq]

/-- A visited statement has the container of its list as its parent. -/
theorem parent_of_onList (h : p.Layout made) {v : Visit} (hv : v ∈ made)
    (hs : p.OnList site v.stmt) : v.place.parent = site.container := by
  obtain ⟨l, ⟨first, hfirst, hl⟩, hmem⟩ := hs
  obtain ⟨w, hw, rfl, hparent, -⟩ := h.first_visit hfirst
  -- along the list from `w` on, all visits have the parent of `w`
  have hall : ∀ {o : Option StmtId} {l : List StmtId}, p.Path .next o l →
      (∀ w ∈ made, o = some w.stmt → w.place.parent = site.container) →
      ∀ v ∈ made, v.stmt ∈ l → v.place.parent = site.container := by
    intro o l hl
    induction hl with
    | done => simp
    | @step s stmt l hs hl ih =>
      intro hstart v hv hmem
      obtain ⟨u, hu, rfl⟩ := h.covers s (lt_size_of_getElem? hs)
      have hparentU := hstart u hu rfl
      rcases List.mem_cons.mp hmem with heq | hmem
      · rw [h.eq_of_stmt_eq hv hu heq]
        exact hparentU
      · refine ih ?_ v hv hmem
        intro x hx hnext
        rw [h.next_visit hu hx hs hnext]
        exact hparentU
  refine hall hl ?_ v hv hmem
  intro x hx heq
  rw [← h.eq_of_stmt_eq hw hx (Option.some.inj heq)]
  exact hparent

/-- Every visited statement is on a list. -/
theorem exists_onList (h : p.Layout made) : ∀ v ∈ made, ∃ site, p.OnList site v.stmt := by
  refine h.induction ?_ ?_ ?_
  · intro q proc hq
    exact ⟨.ofProc q, h.onList_first (firstAt?_ofProc.mpr ⟨proc, hq, rfl⟩)⟩
  · intro u stmt first hu hs _ hfirst
    obtain ⟨slot, hslot⟩ := List.mem_iff_getElem?.mp hfirst
    exact ⟨.ofBody u.stmt slot, h.onList_first (firstAt?_ofBody.mpr ⟨stmt, hs, hslot⟩)⟩
  · intro u stmt t hu hs ih hnext
    obtain ⟨site, hsite⟩ := ih
    exact ⟨site, hsite.next hs hnext⟩

/-- The bodies of a container begin with different statements: no visit is made twice. -/
theorem nodup_bodies (h : p.Layout made) {u : Visit} {stmt : Stmt} (hu : u ∈ made)
    (hs : p.stmts[u.stmt]? = some stmt) : stmt.kind.bodies.Nodup := by
  have hmade : made.Nodup := List.Nodup.of_map Visit.stmt h.once
  have hall : (p.rootVisits ++ made.flatMap p.nextVisits).Nodup := h.visits.perm.nodup_iff.mp hmade
  have hflat : (made.flatMap p.nextVisits).Nodup := (List.nodup_append'.mp hall).2.1
  have hnext : (p.nextVisits u).Nodup := (List.nodup_flatMap.mp hflat).1 u hu
  unfold nextVisits at hnext
  rw [hs] at hnext
  exact List.Nodup.of_map _ (List.nodup_append'.mp hnext).1

/-- No two lists begin with the same statement. -/
theorem site_eq_of_first (h : p.Layout made) (hfirst : p.firstAt? site = some s)
    (hfirst' : p.firstAt? site' = some s) : site = site' := by
  obtain ⟨v, hv, rfl, hparent, -⟩ := h.first_visit hfirst
  obtain ⟨v', hv', hstmt, hparent', -⟩ := h.first_visit hfirst'
  have hcontainer : site.container = site'.container := by
    rw [← hparent, ← hparent', h.eq_of_stmt_eq hv hv' hstmt.symm]
  cases site with
  | ofProc q =>
    cases site' with
    | ofBody c' slot' => cases hcontainer
    | ofProc q' =>
      obtain ⟨proc, hq, heq⟩ := firstAt?_ofProc.mp hfirst
      obtain ⟨proc', hq', heq'⟩ := firstAt?_ofProc.mp hfirst'
      have hvisit := h.eq_of_stmt_eq (h.root_mem hq) (h.root_mem hq') (heq.trans heq'.symm)
      have howner : q = q' := congrArg (fun v => v.place.owner) hvisit
      rw [howner]
  | ofBody c slot =>
    cases site' with
    | ofProc q' => cases hcontainer
    | ofBody c' slot' =>
      cases hcontainer
      obtain ⟨stmt, hc, hslot⟩ := firstAt?_ofBody.mp hfirst
      obtain ⟨stmt', hc', hslot'⟩ := firstAt?_ofBody.mp hfirst'
      rw [hc] at hc'
      cases hc'
      obtain ⟨u, hu, rfl⟩ := h.covers c (lt_size_of_getElem? hc)
      -- the bodies of one container differ, because none is visited twice
      have hnodup : stmt.kind.bodies.Nodup := h.nodup_bodies hu hc
      have hlt := (List.getElem?_eq_some_iff.mp hslot).1
      rw [(List.getElem?_inj hlt hnodup).mp (hslot.trans hslot'.symm)]

/-- What comes after a statement has the statement before it, and the other way round. -/
theorem next_iff_prev (h : p.Layout made) {stmt other : Stmt} (hs : p.stmts[s]? = some stmt)
    (ht : p.stmts[t]? = some other) : stmt.next = some t ↔ other.prev = some s := by
  constructor
  · intro hnext
    obtain ⟨u, hu, rfl⟩ := h.covers s (lt_size_of_getElem? hs)
    obtain ⟨stmt', hstmt', hprev, -⟩ := h.place _ (h.next_mem hu hs hnext)
    rw [ht] at hstmt'
    cases hstmt'
    exact hprev
  · intro hprev
    obtain ⟨v, hv, rfl⟩ := h.covers t (lt_size_of_getElem? ht)
    obtain ⟨other', hother', hprevV, -⟩ := h.place v hv
    rw [ht] at hother'
    cases hother'
    rw [hprevV] at hprev
    -- only a visit to what follows a statement has something before it
    refine h.induction (P := fun v => v.place.prev = some s → stmt.next = some v.stmt)
      ?_ ?_ ?_ v hv hprev
    · intro q proc hq hnone
      cases hnone
    · intro u stmt' first hu hs' _ hfirst hnone
      cases hnone
    · intro u stmt' t hu hs' _ hnext hsome
      cases hsome
      rw [hs] at hs'
      cases hs'
      exact hnext

/-- What stands before a visited statement is in the program. -/
theorem prev_lt (h : p.Layout made) : ∀ v ∈ made, ∀ s, v.place.prev = some s →
    s < p.stmts.size := by
  refine h.induction ?_ ?_ ?_
  · intro q proc hq s hnone
    cases hnone
  · intro u stmt first hu hs _ hfirst s hnone
    cases hnone
  · intro u stmt t hu hs _ hnext s hsome
    cases hsome
    exact lt_size_of_getElem? hs

/-- No statement is on two lists. -/
theorem site_unique (h : p.Layout made) : ∀ v ∈ made, ∀ site site', p.OnList site v.stmt →
    p.OnList site' v.stmt → site = site' := by
  -- a visit with nothing before it is to the first statement of each list that has it
  have hfirst : ∀ v ∈ made, v.place.prev = none → ∀ site, p.OnList site v.stmt →
      p.firstAt? site = some v.stmt := by
    intro v hv hprev site hsite
    rcases hsite.first_or_next with hfirst | ⟨s, stmt, -, hs, hnext⟩
    · exact hfirst
    · obtain ⟨u, hu, rfl⟩ := h.covers s (lt_size_of_getElem? hs)
      rw [h.next_visit hu hv hs hnext] at hprev
      cases hprev
  refine h.induction ?_ ?_ ?_
  · intro q proc hq site site' hsite hsite'
    exact h.site_eq_of_first (hfirst _ (h.root_mem hq) rfl site hsite)
      (hfirst _ (h.root_mem hq) rfl site' hsite')
  · intro u stmt first hu hs _ hmem site site' hsite hsite'
    exact h.site_eq_of_first (hfirst _ (h.body_mem hu hs hmem) rfl site hsite)
      (hfirst _ (h.body_mem hu hs hmem) rfl site' hsite')
  · intro u stmt t hu hs ih hnext
    have hback : ∀ site, p.OnList site t → p.OnList site u.stmt := by
      intro site hsite
      have hv := h.next_mem hu hs hnext
      rcases hsite.first_or_next with hfirst | ⟨s, stmt', hon, hs', hnext'⟩
      · obtain ⟨w, hw, hstmt, -, hprev⟩ := h.first_visit hfirst
        rw [h.eq_of_stmt_eq hw hv hstmt] at hprev
        cases hprev
      · obtain ⟨u', hu', rfl⟩ := h.covers s (lt_size_of_getElem? hs')
        have hplace := h.next_visit hu' hv hs' hnext'
        have hsame : u.stmt = u'.stmt := Option.some.inj (congrArg Place.prev hplace)
        rw [hsame]
        exact hon
    intro site site' hsite hsite'
    exact ih site site' (hback site hsite) (hback site' hsite')

/-- Following `parent` links ends at a member of the own list of the owner. -/
theorem path_parent (h : p.Layout made) : ∀ v ∈ made, ∃ (l : List StmtId) (outermost : StmtId),
    p.Path .parent (some v.stmt) l ∧ l.getLast? = some outermost ∧
      p.OnList (.ofProc v.place.owner) outermost := by
  have hstep : ∀ v ∈ made, ∀ l, p.Path .parent v.place.parent l →
      p.Path .parent (some v.stmt) (v.stmt :: l) := by
    intro v hv l hl
    obtain ⟨stmt, hs, -, hparent, -⟩ := h.place v hv
    refine Path.step hs ?_
    rw [Link.target, hparent]
    exact hl
  refine h.induction ?_ ?_ ?_
  · intro q proc hq
    exact ⟨[proc.first], proc.first, hstep _ (h.root_mem hq) [] Path.done, rfl,
      h.onList_first (firstAt?_ofProc.mpr ⟨proc, hq, rfl⟩)⟩
  · intro u stmt first hu hs ih hfirst
    obtain ⟨l, outermost, hl, hlast, hon⟩ := ih
    refine ⟨first :: l, outermost, hstep _ (h.body_mem hu hs hfirst) l hl, ?_, hon⟩
    rw [List.getLast?_cons, hlast]
    rfl
  · intro u stmt t hu hs ih hnext
    obtain ⟨l, outermost, hl, hlast, hon⟩ := ih
    obtain ⟨stmt', hs', -, hparent, -⟩ := h.place u hu
    obtain ⟨rest, rfl, hrest⟩ := (path_some_iff hs').mp hl
    rw [Link.target, hparent] at hrest
    have ht := hstep _ (h.next_mem hu hs hnext) rest hrest
    cases rest with
    | nil =>
      -- the two statements are both members of the procedure's own list
      simp only [List.getLast?_singleton, Option.some.injEq] at hlast
      subst hlast
      exact ⟨[t], t, ht, rfl, hon.next hs hnext⟩
    | cons c rest =>
      refine ⟨t :: c :: rest, outermost, ht, ?_, hon⟩
      rw [List.getLast?_cons_cons] at hlast ⊢
      exact hlast

end Layout

end Program

/-! ## Finished drafts -/

namespace Draft

variable {d : Draft} {places : Array (Option Place)} {p : Program}

/-- A sealed kind has the bodies that were set, and calls what it called. -/
theorem bodies_of_sealedKind {stmt : DraftStmt} {kind : StmtKind StmtId}
    (h : stmt.sealedKind = .ok kind) :
    (∀ first ∈ kind.bodies, some first ∈ stmt.kind.bodies) ∧
      ∀ q, kind = .call q → stmt.kind = .call q := by
  obtain ⟨line, next, kind'⟩ := stmt
  unfold DraftStmt.sealedKind at h
  split at h <;> cases h <;> simp_all [StmtKind.bodies]

/-- A statement of the program is the sealed one of the draft, with its line and what follows it. -/
theorem SealedAt.exists_stmt (h : d.SealedAt places p) {s : StmtId} {stmt : Stmt}
    (hs : p.stmts[s]? = some stmt) :
    ∃ draft : DraftStmt, d.stmts[s]? = some draft ∧ stmt.line = draft.line ∧
      stmt.next = draft.next ∧ draft.sealedKind = .ok stmt.kind := by
  have hlt : s < d.stmts.size := by
    rw [← h.size_stmts]
    exact Program.lt_size_of_getElem? hs
  have hdraft := Array.getElem?_eq_getElem hlt
  obtain ⟨at_, kind, -, hkind, hp⟩ := h.stmt s _ hdraft
  rw [hs] at hp
  cases hp
  exact ⟨_, hdraft, rfl, rfl, hkind⟩

/-- A procedure of the program is that of the draft, with its body. -/
theorem SealedAt.exists_proc (h : d.SealedAt places p) {q : ProcId} {proc : Proc}
    (hq : p.procs[q]? = some proc) : d.procs[q]? = some ⟨proc.name, some proc.first⟩ := by
  have hlt : q < d.procs.size := by
    rw [← h.size_procs]
    exact (Array.getElem?_eq_some_iff.mp hq).1
  have hdraft := Array.getElem?_eq_getElem hlt
  obtain ⟨proc', hproc', heq⟩ := h.proc q _ hdraft
  rw [hq] at hproc'
  cases hproc'
  rw [hdraft, heq]

/-- The lines of a sound draft are those of its program. -/
theorem SealedAt.line_eq (h : d.SealedAt places p) (hsound : d.Sound) {s : StmtId} {stmt : Stmt}
    (hs : p.stmts[s]? = some stmt) : stmt.line = d.firstLine + s := by
  obtain ⟨draft, hdraft, heq, -⟩ := h.exists_stmt hs
  rw [heq]
  exact (hsound.stmt_fits s draft hdraft).line_eq

/-- The names in a sound draft are those of its program, so each name has one procedure. -/
theorem SealedAt.procNamed?_name (h : d.SealedAt places p) (hsound : d.Sound) {q : ProcId}
    {proc : Proc} (hq : p.procs[q]? = some proc) : p.procNamed? proc.name = some q := by
  refine Program.procNamed?_eq_some_iff.mpr ⟨by rw [hq]; rfl, fun r hqr hname => ?_⟩
  obtain ⟨other, hr, heq⟩ := Option.map_eq_some_iff.mp hname
  exact Nat.ne_of_gt hqr (hsound.name_inj r q _ _ (h.exists_proc hr) (h.exists_proc hq) heq)

/-- **Every sound draft that can be finished** is finished to a well-formed program. -/
theorem Sound.wellFormed (hsound : d.Sound) (h : d.finish = .ok p) : p.WellFormed := by
  obtain ⟨places, -, hseal⟩ := finish_eq_ok h
  obtain ⟨made, hlayout⟩ := exists_layout h
  -- each statement has its visit, from which its place is read off
  have hvisit : ∀ {s : StmtId} {stmt : Stmt}, p.stmts[s]? = some stmt → ∃ v ∈ made, v.stmt = s ∧
      stmt.prev = v.place.prev ∧ stmt.parent = v.place.parent ∧ stmt.owner = v.place.owner := by
    intro s stmt hs
    obtain ⟨v, hv, rfl⟩ := hlayout.covers s (Program.lt_size_of_getElem? hs)
    obtain ⟨stmt', hs', hplace⟩ := hlayout.place v hv
    rw [hs] at hs'
    cases hs'
    exact ⟨v, hv, rfl, hplace⟩
  have hmember : ∀ {s : StmtId} {stmt : Stmt}, p.stmts[s]? = some stmt →
      ∃ site : ListSite, p.OnList site s ∧ stmt.parent = site.container := by
    intro s stmt hs
    obtain ⟨v, hv, rfl, -, hparent, -⟩ := hvisit hs
    obtain ⟨site, hsite⟩ := hlayout.exists_onList v hv
    exact ⟨site, hsite, hparent.trans (hlayout.parent_of_onList hv hsite)⟩
  have hcontainer : ∀ {s : StmtId} {stmt : Stmt} {site : ListSite}, p.stmts[s]? = some stmt →
      p.OnList site s → stmt.parent = site.container := by
    intro s stmt site hs hsite
    obtain ⟨v, hv, rfl, -, hparent, -⟩ := hvisit hs
    exact hparent.trans (hlayout.parent_of_onList hv hsite)
  have hpath : ∀ {s : StmtId} {stmt : Stmt}, p.stmts[s]? = some stmt →
      ∃ (l : List StmtId) (outermost : StmtId), p.Path .parent (some s) l ∧
        l.getLast? = some outermost ∧ p.OnList (.ofProc stmt.owner) outermost := by
    intro s stmt hs
    obtain ⟨v, hv, rfl, -, -, howner⟩ := hvisit hs
    rw [howner]
    exact hlayout.path_parent v hv
  refine
    { link_lt := ?_, body_lt := ?_, first_lt := ?_, callee_lt := ?_, owner_lt := ?_
      next_iff_prev := fun s t stmt other hs ht => hlayout.next_iff_prev hs ht
      list_ends := ?_, one_list := ?_, once := ?_, parent_iff := ?_, top_iff := ?_
      owner_eq := ?_
      stmtAt?_line := fun s stmt hs =>
        Program.stmtAt?_of_consecutive (fun s stmt hs => hseal.line_eq hsound hs) hs
      procNamed?_name := fun q proc hq => hseal.procNamed?_name hsound hq }
  · intro link s t stmt hs ht
    cases link with
    | next =>
      obtain ⟨draft, hdraft, -, hnext, -⟩ := hseal.exists_stmt hs
      rw [hseal.size_stmts]
      exact (hsound.stmt_fits s draft hdraft).next_lt t (hnext ▸ ht)
    | prev =>
      obtain ⟨v, hv, -, hprev, -⟩ := hvisit hs
      exact hlayout.prev_lt v hv t (hprev ▸ ht)
    | parent =>
      obtain ⟨l, outermost, hl, -⟩ := hpath hs
      have hmem := hl.mem_of_target (List.mem_of_mem_head? ?_) hs ht
      · exact hl.lt_size hmem
      · obtain ⟨rest, rfl, -⟩ := (Program.path_some_iff hs).mp hl
        rfl
  · intro s first stmt hs hfirst
    obtain ⟨draft, hdraft, -, -, hkind⟩ := hseal.exists_stmt hs
    rw [hseal.size_stmts]
    exact (hsound.stmt_fits s draft hdraft).body_lt first
      ((bodies_of_sealedKind hkind).1 first hfirst)
  · intro q proc hq
    rw [hseal.size_stmts]
    exact hsound.first_lt q _ _ (hseal.exists_proc hq) rfl
  · intro s q stmt hs hcall
    obtain ⟨draft, hdraft, -, -, hkind⟩ := hseal.exists_stmt hs
    rw [hseal.size_procs]
    exact (hsound.stmt_fits s draft hdraft).callee_lt q ((bodies_of_sealedKind hkind).2 q hcall)
  · intro s stmt hs
    obtain ⟨l, outermost, -, -, hon⟩ := hpath hs
    exact hon.owner_lt
  · intro site first hfirst
    obtain ⟨l, ⟨first', hfirst', hl⟩, -⟩ := hlayout.onList_first hfirst
    rw [hfirst] at hfirst'
    cases hfirst'
    exact ⟨l, hl⟩
  · intro s hs
    obtain ⟨v, hv, rfl⟩ := hlayout.covers s hs
    obtain ⟨site, hsite⟩ := hlayout.exists_onList v hv
    exact ⟨site, hsite, fun site' hsite' => hlayout.site_unique v hv site' site hsite' hsite⟩
  · rintro site l s ⟨first, -, hl⟩ hs
    exact List.count_eq_one_of_mem hl.nodup hs
  · intro s c stmt hs
    constructor
    · intro hparent
      obtain ⟨site, hsite, hcont⟩ := hmember hs
      rw [hparent] at hcont
      cases site with
      | ofProc q => cases hcont
      | ofBody c' slot =>
        cases hcont
        exact ⟨slot, hsite⟩
    · rintro ⟨slot, hsite⟩
      exact hcontainer hs hsite
  · intro s stmt hs
    constructor
    · intro hparent
      obtain ⟨site, hsite, hcont⟩ := hmember hs
      rw [hparent] at hcont
      cases site with
      | ofProc q => exact ⟨q, hsite⟩
      | ofBody c slot => cases hcont
    · rintro ⟨q, hsite⟩
      exact hcontainer hs hsite
  · intro s stmt hs
    exact hpath hs

/-- **Whatever the steps**, if the draft that they lead to can be finished, the program is well
formed. -/
theorem finish_after_wellFormed (settings : Settings) (steps : List Step) (p : Program)
    (h : (after settings steps).finish = .ok p) : p.WellFormed :=
  (sound_after settings steps).wellFormed h

/-- The steps of the example end in a well-formed program. -/
theorem finish_exampleSteps_wellFormed :
    (after {} exampleSteps).finish = .ok exampleProgram ∧ exampleProgram.WellFormed :=
  ⟨by decide +kernel, finish_after_wellFormed {} exampleSteps exampleProgram (by decide +kernel)⟩

end Draft

/-- **Every built program is well formed.** -/
theorem Program.Built.wellFormed {p : Program} (h : p.Built) : p.WellFormed := by
  obtain ⟨d, hsound, hfinish⟩ := h.exists_draft
  exact hsound.wellFormed hfinish

end ProgramQuery
