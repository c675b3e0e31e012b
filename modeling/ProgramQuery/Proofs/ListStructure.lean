import ProgramQuery.Proofs.WellFormedPrograms

/-!
# The lists of a well-formed program

What the questions about a well-formed program rest on. The path along each link ends from every
statement (`WellFormed.exists_path`), and listing the members of a body gives them whether or not
the links back to the container are checked (`WellFormed.chain_eq`).

`Program.Inside c s` says that `s` is directly in the container `c`; that is, it is a member of one
of the bodies of `c` (`WellFormed.inside_iff`). No container is inside itself, through however many
others (`WellFormed.inside_irrefl`), and of the containers around a statement at most one is a
member of the lists of a given container (`WellFormed.eq_of_around`).
-/

set_option autoImplicit false

open Relation (ReflTransGen TransGen)

namespace ProgramQuery.Program

/-- The statement `s` is directly in the container `c`. -/
def Inside (p : Program) (c s : StmtId) : Prop := p.LinkTo .parent s c

variable {p : Program} {site : ListSite} {s t c : StmtId} {l : List StmtId}

/-! ## All paths end -/

/-- The first statement of a list has none before it: the list would meet it twice. -/
theorem WellFormed.prev_first (hp : p.WellFormed) {stmt : Stmt} (hs : p.stmts[s]? = some stmt)
    (hfirst : p.firstAt? site = some s) : stmt.prev = none := by
  cases hprev : stmt.prev with
  | none => rfl
  | some u =>
    obtain ⟨before, hu⟩ := exists_stmt (hp.link_lt .prev s u stmt hs hprev)
    have hnext : before.next = some s := (hp.next_iff_prev u s before stmt hu hs).mpr hprev
    obtain ⟨l, hl⟩ := hp.list_ends site s hfirst
    obtain ⟨site', hsite', -⟩ := hp.one_list u (lt_size_of_getElem? hu)
    obtain ⟨site'', -, hunique⟩ := hp.one_list s (lt_size_of_getElem? hs)
    have heq : site' = site :=
      (hunique site' (hsite'.next hu hnext)).trans (hunique site (OnList.of_first hfirst hl)).symm
    subst heq
    obtain ⟨l', ⟨first, hfirst', hl'⟩, hmem⟩ := hsite'
    rw [hfirst] at hfirst'
    cases hfirst'
    -- the path from `s` comes to `u`, and from there to `s` again
    obtain ⟨after, hafter, hsub⟩ := hl'.of_mem hmem
    obtain ⟨rest, heq, hrest⟩ := (path_some_iff hu).mp hafter
    rw [Link.target, hnext] at hrest
    obtain ⟨-, rfl⟩ := List.cons.inj heq
    have hagain := hrest.unique hl'
    have hlen := hafter.nodup
    rw [hagain] at hlen
    exact absurd hmem (List.nodup_cons.mp hlen).1

/-- **Every link of every statement** can be followed to its end. -/
theorem WellFormed.exists_path (hp : p.WellFormed) (link : Link) (hs : s < p.stmts.size) :
    ∃ l, p.Path link (some s) l := by
  obtain ⟨site, ⟨l, ⟨first, hfirst, hl⟩, hmem⟩, -⟩ := hp.one_list s hs
  cases link with
  | next =>
    obtain ⟨after, hafter, -⟩ := hl.of_mem hmem
    exact ⟨_, hafter⟩
  | parent =>
    obtain ⟨stmt, hstmt⟩ := exists_stmt hs
    obtain ⟨l, outermost, hl, -⟩ := hp.owner_eq s stmt hstmt
    exact ⟨l, hl⟩
  | prev =>
    -- the path back from a member of the list grows by one statement from member to member
    have hback : ∀ {o : Option StmtId} {l : List StmtId}, p.Path .next o l →
        (∀ t, o = some t → ∃ m, p.Path .prev (some t) m) →
        ∀ t ∈ l, ∃ m, p.Path .prev (some t) m := by
      intro o l hl
      induction hl with
      | done => simp
      | @step u stmt l hu hl ih =>
        intro hstart t ht
        obtain ⟨m, hm⟩ := hstart u rfl
        rcases List.mem_cons.mp ht with rfl | ht
        · exact ⟨m, hm⟩
        · refine ih ?_ t ht
          intro v hv
          obtain ⟨after, hafter⟩ := exists_stmt (hp.link_lt .next u v stmt hu hv)
          have hprev : after.prev = some u := (hp.next_iff_prev u v stmt after hu hafter).mp hv
          refine ⟨v :: m, Path.step hafter ?_⟩
          rw [Link.target, hprev]
          exact hm
    refine hback hl ?_ s hmem
    intro t ht
    cases ht
    obtain ⟨stmt, hstmt⟩ := exists_stmt (hl.lt_size (hl.mem_iff_reflTransGen.mpr .refl))
    refine ⟨[first], Path.step hstmt ?_⟩
    rw [Link.target, hp.prev_first hstmt hfirst]
    exact Path.done

/-- In a well-formed program, every link ends. -/
theorem WellFormed.exists_path_target (hp : p.WellFormed) (link : Link) {stmt : Stmt}
    (hs : p.stmts[s]? = some stmt) : ∃ l, p.Path link (link.target stmt) l := by
  obtain ⟨l, hl⟩ := hp.exists_path link (lt_size_of_getElem? hs)
  obtain ⟨m, -, hm⟩ := (path_some_iff hs).mp hl
  exact ⟨m, hm⟩

/-- In a well-formed program, a walk from a statement meets what its link leads to, step after
step. -/
theorem WellFormed.walk_eq (hp : p.WellFormed) (link : Link) {stmt : Stmt}
    (hs : p.stmts[s]? = some stmt) :
    ∃ l, p.walk link (link.target stmt) = .ok l ∧ ∀ t, t ∈ l ↔ TransGen (p.LinkTo link) s t := by
  obtain ⟨l, hl⟩ := hp.exists_path_target link hs
  exact ⟨l, walk_eq_of_path hl, fun t => hl.mem_iff_transGen hs⟩

/-! ## Lists and containers -/

/-- The statements of a list link back to the container that the list is in. -/
theorem WellFormed.parent_eq (hp : p.WellFormed) {stmt : Stmt} (hs : p.stmts[s]? = some stmt)
    (hsite : p.OnList site s) : stmt.parent = site.container := by
  cases site with
  | ofProc q => exact (hp.top_iff s stmt hs).mpr ⟨q, hsite⟩
  | ofBody c slot => exact (hp.parent_iff s c stmt hs).mpr ⟨slot, hsite⟩

/-- **Listing a body** gives its members, checked or not. -/
theorem WellFormed.chain_eq (hp : p.WellFormed) (hfirst : p.firstAt? site = some s) :
    ∃ l, p.ListAt site l ∧ ∀ check, p.chain check s site.container = .ok l := by
  obtain ⟨l, hl⟩ := hp.list_ends site s hfirst
  refine ⟨l, ⟨s, hfirst, hl⟩, fun check => chain_eq_of_path hl ?_⟩
  intro _ t ht stmt hstmt
  exact hp.parent_eq hstmt ⟨l, ⟨s, hfirst, hl⟩, ht⟩

/-- The members of a list are the statements that are on it. -/
theorem ListAt.mem_iff (hl : p.ListAt site l) : s ∈ l ↔ p.OnList site s := by
  constructor
  · intro hs
    exact ⟨l, hl, hs⟩
  · rintro ⟨m, ⟨first', hfirst', hm⟩, hs⟩
    obtain ⟨first, hfirst, hl⟩ := hl
    rw [hfirst] at hfirst'
    cases hfirst'
    rw [hl.unique hm]
    exact hs

/-- A statement is directly in a container exactly if it is on the list of one of its bodies. -/
theorem WellFormed.inside_iff (hp : p.WellFormed) :
    p.Inside c s ↔ ∃ slot, p.OnList (.ofBody c slot) s := by
  constructor
  · rintro ⟨stmt, hs, hparent⟩
    exact (hp.parent_iff s c stmt hs).mp hparent
  · rintro ⟨slot, hsite⟩
    obtain ⟨stmt, hs⟩ := exists_stmt hsite.lt_size
    exact ⟨stmt, hs, (hp.parent_iff s c stmt hs).mpr ⟨slot, hsite⟩⟩

/-- The statement `s` is met along `next` links from `first` on. -/
def ListFrom (p : Program) (first s : StmtId) : Prop :=
  ∃ l, p.Path .next (some first) l ∧ s ∈ l

/-- A path along `next` links has what is met from its first statement on. -/
theorem Path.mem_iff_listFrom {first : StmtId} (hl : p.Path .next (some first) l) :
    s ∈ l ↔ p.ListFrom first s := by
  constructor
  · intro hs
    exact ⟨l, hl, hs⟩
  · rintro ⟨m, hm, hs⟩
    rw [hl.unique hm]
    exact hs

/-- What is on a list is met from its first statement on. -/
theorem onList_iff {first : StmtId} (hfirst : p.firstAt? site = some first) :
    p.OnList site s ↔ p.ListFrom first s := by
  constructor
  · rintro ⟨l, ⟨first', hfirst', hl⟩, hs⟩
    rw [hfirst] at hfirst'
    cases hfirst'
    exact ⟨l, hl, hs⟩
  · rintro ⟨l, hl, hs⟩
    exact ⟨l, ⟨first, hfirst, hl⟩, hs⟩

/-- The members of a list are what is met from its first statement on. -/
theorem ListAt.mem_iff_listFrom {first : StmtId} (hl : p.ListAt site l)
    (hfirst : p.firstAt? site = some first) : s ∈ l ↔ p.ListFrom first s := by
  rw [hl.mem_iff, onList_iff hfirst]

/-- A statement is directly in a container if it is met from the beginning of one of its bodies. -/
theorem WellFormed.inside_iff_listFrom (hp : p.WellFormed) {stmt : Stmt}
    (hc : p.stmts[c]? = some stmt) :
    p.Inside c s ↔ ∃ first ∈ stmt.kind.bodies, p.ListFrom first s := by
  rw [hp.inside_iff]
  constructor
  · rintro ⟨slot, l, ⟨first, hfirst, hl⟩, hs⟩
    obtain ⟨stmt', hc', hslot⟩ := firstAt?_ofBody.mp hfirst
    rw [hc] at hc'
    cases hc'
    exact ⟨first, List.mem_of_getElem? hslot, l, hl, hs⟩
  · rintro ⟨first, hmem, hfrom⟩
    obtain ⟨slot, hslot⟩ := List.mem_iff_getElem?.mp hmem
    exact ⟨slot, (onList_iff (firstAt?_ofBody.mpr ⟨stmt, hc, hslot⟩)).mpr hfrom⟩

/-- A container with a statement on one of its lists is in the program. -/
theorem OnList.container_lt {slot : Nat} (h : p.OnList (.ofBody c slot) s) :
    c < p.stmts.size := by
  obtain ⟨l, ⟨first, hfirst, -⟩, -⟩ := h
  obtain ⟨stmt, hc, -⟩ := firstAt?_ofBody.mp hfirst
  exact lt_size_of_getElem? hc

/-- What has a statement inside is a container. -/
theorem WellFormed.isContainer_of_inside (hp : p.WellFormed) {stmt : Stmt}
    (hc : p.stmts[c]? = some stmt) (h : p.Inside c s) : stmt.kind.isContainer = true := by
  obtain ⟨slot, l, ⟨first, hfirst, -⟩, -⟩ := hp.inside_iff.mp h
  obtain ⟨stmt', hc', hslot⟩ := firstAt?_ofBody.mp hfirst
  rw [hc] at hc'
  cases hc'
  revert hslot
  cases stmt.kind <;> simp [StmtKind.bodies, StmtKind.isContainer]

/-- Being nested goes the other way than following `parent` links. -/
theorem transGen_inside : TransGen p.Inside c s ↔ TransGen (p.LinkTo .parent) s c :=
  Relation.transGen_swap

/-- Being nested, or the same, goes the other way than following `parent` links. -/
theorem reflTransGen_inside : ReflTransGen p.Inside c s ↔ ReflTransGen (p.LinkTo .parent) s c :=
  Relation.reflTransGen_swap

/-- No link leads back to where it comes from, in however many steps: the path along it would meet
the statement twice. -/
theorem WellFormed.linkTo_irrefl (hp : p.WellFormed) (link : Link) :
    ¬ TransGen (p.LinkTo link) s s := by
  intro h
  obtain ⟨t, hst, -⟩ := Relation.TransGen.head'_iff.mp h
  obtain ⟨stmt, hstmt⟩ := exists_stmt hst.lt_size
  obtain ⟨l, hl⟩ := hp.exists_path_target link hstmt
  have hmem : s ∈ l := (hl.mem_iff_transGen hstmt).mpr h
  exact (List.nodup_cons.mp (Path.step hstmt hl).nodup).1 hmem

/-- Nothing is inside itself, through however many containers. -/
theorem WellFormed.inside_irrefl (hp : p.WellFormed) : ¬ TransGen p.Inside s s := by
  rw [transGen_inside]
  exact hp.linkTo_irrefl .parent

/-- Of two containers around a statement, one is inside the other or they are the same. -/
theorem around_total {d : StmtId} (hc : ReflTransGen p.Inside c s)
    (hd : ReflTransGen p.Inside d s) : ReflTransGen p.Inside c d ∨ ReflTransGen p.Inside d c := by
  rw [reflTransGen_inside] at hc hd
  -- both are on the way up from `s`, and a link leads to one place only
  have hfunctional : Relator.RightUnique (p.LinkTo .parent) := by
    rintro a b b' ⟨stmt, ha, hb⟩ hb'
    rw [linkTo_iff ha, hb] at hb'
    exact Option.some.inj hb'
  rcases Relation.ReflTransGen.total_of_right_unique hfunctional hc hd with h | h
  · exact Or.inr (reflTransGen_inside.mpr h)
  · exact Or.inl (reflTransGen_inside.mpr h)

/-- Of the containers around a statement, at most one is a member of the lists of a given
container. -/
theorem WellFormed.eq_of_around (hp : p.WellFormed) {site' : ListSite} {d : StmtId}
    (hsame : site.container = site'.container) (hc : p.OnList site c) (hd : p.OnList site' d)
    (hcs : ReflTransGen p.Inside c s) (hds : ReflTransGen p.Inside d s) : c = d := by
  -- statements with the same parent are not inside each other
  have hapart : ∀ {site site' : ListSite} {c d : StmtId}, site.container = site'.container →
      p.OnList site c → p.OnList site' d → ¬ TransGen p.Inside c d := by
    intro site site' c d hsame hc hd h
    obtain ⟨cstmt, hcstmt⟩ := exists_stmt hc.lt_size
    obtain ⟨dstmt, hdstmt⟩ := exists_stmt hd.lt_size
    have hparents : cstmt.parent = dstmt.parent := by
      rw [hp.parent_eq hcstmt hc, hp.parent_eq hdstmt hd, hsame]
    obtain ⟨e, hce, hed⟩ := Relation.TransGen.tail'_iff.mp h
    have hec : p.Inside e c :=
      ⟨cstmt, hcstmt, by rw [Link.target, hparents]; exact (linkTo_iff hdstmt).mp hed⟩
    exact hp.inside_irrefl (Relation.TransGen.tail' hce hec)
  rcases around_total hcs hds with h | h
  · rcases Relation.reflTransGen_iff_eq_or_transGen.mp h with heq | htrans
    · exact heq.symm
    · exact absurd htrans (hapart hsame hc hd)
  · rcases Relation.reflTransGen_iff_eq_or_transGen.mp h with heq | htrans
    · exact heq
    · exact absurd htrans (hapart hsame.symm hd hc)

end ProgramQuery.Program
