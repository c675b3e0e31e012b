import ProgramQuery.Proofs.ComparedPrograms
import ProgramQuery.Proofs.SameAnswers

/-!
# Comparing is comparing listings

Two statement lists of built programs compare as the same exactly when they unfold to the same
listing, and otherwise they compare as different: the limits that a comparison is made with never
cut it short (`Unfolds.sameFrom_eq`). A list can be as long as the whole program, and then its end
is seen one place later. The depth allows for all statements, because a body has fewer statements
than the list that its container is on.

Hence each of the three comparisons is the equality of what is unfolded
(`comparisons_iff_listings`): of whole programs their procedures, of lists their listings, and of
single statements the listing without what follows.
-/

set_option autoImplicit false

namespace ProgramQuery

/-! ## The first statement of a listing -/

namespace Listing

variable {a b : Listing}

/-- The first statement with its bodies, and nothing after it. -/
def alone : Listing → Listing
  | done => done
  | assign target value _ => assign target value done
  | call callee _ => call callee done
  | branch cond thenBody elseBody _ => branch cond thenBody elseBody done
  | loop cond body _ => loop cond body done

/-- What follows the first statement. -/
def rest : Listing → Listing
  | done => done
  | assign _ _ rest => rest
  | call _ rest => rest
  | branch _ _ _ rest => rest
  | loop _ _ rest => rest

/-- A listing is made up of its first statement and the rest. -/
theorem eq_iff_alone_rest : a = b ↔ a.alone = b.alone ∧ a.rest = b.rest := by
  constructor
  · rintro rfl
    exact ⟨rfl, rfl⟩
  · rintro ⟨halone, hrest⟩
    cases a <;> cases b <;> simp_all [alone, rest]

end Listing

namespace Program

variable {p q : Program} {s t first : StmtId} {stmt a b : Stmt} {listing listing' body : Listing}
  {ids ids' bodyIds : List StmtId}

/-- What follows the first statement of an unfolded list is unfolded from the next statement on, and
is shorter. -/
theorem Unfolds.exists_rest (h : p.Unfolds (some s) listing ids) :
    ∃ stmt restIds, p.stmts[s]? = some stmt ∧ p.Unfolds stmt.next listing.rest restIds ∧
      listing.rest.size < listing.size ∧ listing ≠ .done := by
  cases h with
  | assign hs _ hrest | call hs _ _ hrest | branch hs _ _ _ hrest | loop hs _ _ hrest =>
    refine ⟨_, _, hs, hrest, ?_, by simp⟩
    simp only [Listing.rest, Listing.size]
    omega

/-- A body has fewer statements than the list that its container is on. -/
theorem Unfolds.size_body_lt (h : p.Unfolds (some s) listing ids) (hs : p.stmts[s]? = some stmt)
    (hfirst : first ∈ stmt.kind.bodies) (hbody : p.Unfolds (some first) body bodyIds) :
    body.size < listing.size := by
  cases h with
  | assign hs' hkind | call hs' hkind =>
    cases hs.symm.trans hs'
    simp [hkind, StmtKind.bodies] at hfirst
  | branch hs' hkind hthen helse =>
    cases hs.symm.trans hs'
    simp only [hkind, StmtKind.bodies, List.mem_cons, List.not_mem_nil, or_false] at hfirst
    simp only [Listing.size]
    rcases hfirst with rfl | rfl
    · rw [(hbody.unique hthen).1]
      omega
    · rw [(hbody.unique helse).1]
      omega
  | loop hs' hkind hbody' =>
    cases hs.symm.trans hs'
    simp only [hkind, StmtKind.bodies, List.mem_cons, List.not_mem_nil, or_false] at hfirst
    subst hfirst
    simp only [Listing.size]
    rw [(hbody.unique hbody').1]
    omega

/-! ## Comparing statements and lists -/

open Shape

/-- **What two statements do** compares as what they unfold to, if their bodies compare so. -/
theorem Unfolds.sameKind_eq {lists : StmtId → StmtId → Option Bool}
    (hp : p.Unfolds (some s) listing ids) (hq : q.Unfolds (some t) listing' ids')
    (hs : p.stmts[s]? = some a) (ht : q.stmts[t]? = some b)
    (hlists : ∀ {first first' body body' bodyIds bodyIds'}, first ∈ a.kind.bodies →
      p.Unfolds (some first) body bodyIds → q.Unfolds (some first') body' bodyIds' →
      lists first first' = some (decide (body = body'))) :
    sameKind p q lists a.kind b.kind = some (decide (listing.alone = listing'.alone)) := by
  cases hp with
  | assign hs' hkind _ =>
    cases hs.symm.trans hs'
    cases hq with
    | assign ht' hkind' _ =>
      cases ht.symm.trans ht'
      simp [hkind, hkind', sameKind, Listing.alone, beq_eq_decide]
    | call ht' hkind' | branch ht' hkind' | loop ht' hkind' =>
      cases ht.symm.trans ht'
      simp [hkind, hkind', sameKind, Listing.alone]
  | call hs' hkind hproc _ =>
    cases hs.symm.trans hs'
    cases hq with
    | call ht' hkind' hproc' _ =>
      cases ht.symm.trans ht'
      simp [hkind, hkind', hproc, hproc', sameKind, Listing.alone, beq_eq_decide]
    | assign ht' hkind' | branch ht' hkind' | loop ht' hkind' =>
      cases ht.symm.trans ht'
      simp [hkind, hkind', sameKind, Listing.alone]
  | branch hs' hkind hthen helse _ =>
    cases hs.symm.trans hs'
    cases hq with
    | branch ht' hkind' hthen' helse' _ =>
      cases ht.symm.trans ht'
      have hthens := hlists (by simp [hkind, StmtKind.bodies]) hthen hthen'
      have helses := hlists (by simp [hkind, StmtKind.bodies]) helse helse'
      simp [hkind, hkind', sameKind, Listing.alone, hthens, helses, andThen_some, beq_eq_decide]
    | assign ht' hkind' | call ht' hkind' | loop ht' hkind' =>
      cases ht.symm.trans ht'
      simp [hkind, hkind', sameKind, Listing.alone]
  | loop hs' hkind hbody _ =>
    cases hs.symm.trans hs'
    cases hq with
    | loop ht' hkind' hbody' _ =>
      cases ht.symm.trans ht'
      have hbodies := hlists (by simp [hkind, StmtKind.bodies]) hbody hbody'
      simp [hkind, hkind', sameKind, Listing.alone, hbodies, andThen_some, beq_eq_decide]
    | assign ht' hkind' | call ht' hkind' | branch ht' hkind' =>
      cases ht.symm.trans ht'
      simp [hkind, hkind', sameKind, Listing.alone]

/-- Statements compare as what they unfold to, if shorter lists do. -/
theorem Unfolds.sameStmt_eq_of_shorter {depth : Nat}
    (hp : p.Unfolds (some s) listing ids) (hq : q.Unfolds (some t) listing' ids')
    (hsize : listing.size ≤ p.stmts.size) (hdepth : listing.size ≤ depth)
    (hshorter : ∀ {start start' : Option StmtId} {body body' : Listing}
      {bodyIds bodyIds' : List StmtId}
      {depth bound : Nat}, body.size < listing.size → p.Unfolds start body bodyIds →
      q.Unfolds start' body' bodyIds' → body.size ≤ depth → body.size < bound →
      sameFrom p q (sameStmt p q depth) bound start start' = some (decide (body = body'))) :
    sameStmt p q depth s t = some (decide (listing.alone = listing'.alone)) := by
  obtain ⟨a, -, hs, -, hrest, -⟩ := hp.exists_rest
  obtain ⟨b, ht⟩ := hq.exists_stmt
  obtain ⟨depth, rfl⟩ : ∃ d, depth = d + 1 := ⟨depth - 1, by omega⟩
  rw [sameStmt, hs, ht]
  refine hp.sameKind_eq hq hs ht ?_
  intro first first' body body' bodyIds bodyIds' hfirst hbody hbody'
  have hlt := hp.size_body_lt hs hfirst hbody
  exact hshorter hlt hbody hbody' (by omega) (by omega)

/-- **Lists compare as what they unfold to**, at any depth and bound that allow for the statements
of the first. -/
theorem Unfolds.sameFrom_eq {start start' : Option StmtId} {depth bound : Nat}
    (hp : p.Unfolds start listing ids) (hq : q.Unfolds start' listing' ids')
    (hsize : listing.size ≤ p.stmts.size) (hdepth : listing.size ≤ depth)
    (hbound : listing.size < bound) :
    sameFrom p q (sameStmt p q depth) bound start start' = some (decide (listing = listing')) := by
  -- by induction on the number of statements: both the bodies of the first statement and what
  -- follows it have fewer
  induction hn : listing.size using Nat.strongRecOn
    generalizing start start' listing listing' ids ids' depth bound with
  | _ n ih =>
    subst hn
    obtain ⟨bound, rfl⟩ : ∃ b, bound = b + 1 := ⟨bound - 1, by omega⟩
    cases start with
    | none =>
      cases hp
      cases start' with
      | none =>
        cases hq
        rfl
      | some t =>
        obtain ⟨-, -, -, -, -, hne⟩ := hq.exists_rest
        rw [decide_eq_false hne.symm]
        rfl
    | some s =>
      obtain ⟨a, restIds, hs, hrest, hlt, hne⟩ := hp.exists_rest
      cases start' with
      | none =>
        cases hq
        rw [decide_eq_false hne]
        rfl
      | some t =>
        obtain ⟨b, restIds', ht, hrest', -, -⟩ := hq.exists_rest
        have hstmt : sameStmt p q depth s t = some (decide (listing.alone = listing'.alone)) :=
          hp.sameStmt_eq_of_shorter hq hsize hdepth fun hshort hbody hbody' hd hb =>
            ih _ hshort hbody hbody' (by omega) hd hb rfl
        have hnext : sameFrom p q (sameStmt p q depth) bound a.next b.next =
            some (decide (listing.rest = listing'.rest)) :=
          ih _ hlt hrest hrest' (by omega) (by omega) (by omega) rfl
        have hparts : decide (listing = listing') =
            decide (listing.alone = listing'.alone ∧ listing.rest = listing'.rest) :=
          decide_eq_decide.mpr Listing.eq_iff_alone_rest
        rw [sameFrom, hs, ht, Option.bind_some, Option.bind_some, hstmt, hnext, andThen_some,
          hparts, Bool.decide_and]

/-! ## Built programs -/

/-- A list of a built program has no more statements than the program, with all nested ones. -/
theorem Built.size_le (h : p.Built) (hunfolds : p.Unfolds (some s) listing ids) :
    listing.size ≤ p.stmts.size := by
  obtain ⟨listings, all, hall⟩ := h.exists_unfoldsTo
  obtain ⟨hnodup, hcover⟩ := h.unfoldsTo_order hall
  obtain ⟨stmt, hs⟩ := hunfolds.exists_stmt
  obtain ⟨part, partIds, hpart, hin⟩ :=
    UnfoldsAll.of_mem hall ((hcover s).mpr (lt_size_of_getElem? hs))
  obtain ⟨rfl, rfl⟩ := hpart.unique hunfolds
  rw [← hunfolds.length_eq]
  refine length_le_of_nodup_lt (hnodup.sublist hin.sublist) fun t ht =>
    (hcover t).mp (hin.subset ht)

/-- The depth of a comparison allows for all statements of the first program. -/
theorem size_le_depthFor (ht : q.stmts[t]? = some b) : p.stmts.size ≤ depthFor p q := by
  have hpos : 0 < q.stmts.size := Nat.zero_lt_of_lt (lt_size_of_getElem? ht)
  exact (Nat.le_mul_of_pos_right _ hpos).trans (Nat.le_succ _)

/-- **Lists of a built program** compare as what they unfold to. -/
theorem Built.sameList?_eq (h : p.Built) (hp : p.Unfolds (some s) listing ids)
    (hq : q.Unfolds (some t) listing' ids') :
    p.sameList? q s t = some (decide (listing = listing')) := by
  obtain ⟨b, ht⟩ := hq.exists_stmt
  have hsize := h.size_le hp
  exact hp.sameFrom_eq hq hsize (hsize.trans (size_le_depthFor ht)) (by omega)

/-- **Statements of a built program** compare as what they unfold to, without what follows them. -/
theorem Built.sameStmt?_eq (h : p.Built) (hp : p.Unfolds (some s) listing ids)
    (hq : q.Unfolds (some t) listing' ids') :
    p.sameStmt? q s t = some (decide (listing.alone = listing'.alone)) := by
  obtain ⟨b, ht⟩ := hq.exists_stmt
  have hsize := h.size_le hp
  refine hp.sameStmt_eq_of_shorter hq hsize (hsize.trans (size_le_depthFor ht)) ?_
  intro start start' body body' bodyIds bodyIds' depth bound hshort hbody hbody' hdepth hbound
  exact hbody.sameFrom_eq hbody' (by omega) hdepth hbound

/-- Procedures compare one by one. -/
theorem UnfoldsAll.foldr_eq {procs procs' : List Proc} {listings listings' : List ProcListing}
    (h : p.Built) (hp : p.UnfoldsAll procs listings ids) (hq : q.UnfoldsAll procs' listings' ids')
    (hlength : procs.length = procs'.length) :
    (procs.zip procs').foldr (fun pair rest => andThen (p.sameProc? q pair.1 pair.2) rest)
      (some true) = some (decide (listings = listings')) := by
  induction hp generalizing procs' listings' ids' with
  | nil =>
    cases hq with
    | nil => rfl
    | cons _ _ => cases hlength
  | cons hbody _ ih =>
    cases hq with
    | nil => cases hlength
    | cons hbody' hrest' =>
      rw [List.zip_cons_cons, List.foldr_cons, ih hrest' (Nat.succ.inj hlength), sameProc?,
        h.sameList?_eq hbody hbody', andThen_some, andThen_some]
      simp [beq_eq_decide]

/-- **Built programs** compare as what they unfold to. -/
theorem Built.same?_eq {listings listings' : List ProcListing} (h : p.Built)
    (hp : p.UnfoldsTo listings ids)
    (hq : q.UnfoldsTo listings' ids') : p.same? q = some (decide (listings = listings')) := by
  unfold same?
  by_cases hsize : p.procs.size = q.procs.size
  · have hprocs := UnfoldsAll.foldr_eq h hp hq (by simpa using hsize)
    rw [hsize, beq_self_eq_true]
    exact hprocs
  · have hne : listings ≠ listings' := by
      rintro rfl
      have hnames :=
        congrArg List.length ((UnfoldsAll.names_eq hp).trans (UnfoldsAll.names_eq hq).symm)
      simp only [List.length_map, Array.length_toList] at hnames
      exact hsize hnames
    rw [decide_eq_false hne, beq_false_of_ne hsize]
    rfl

/-- Every statement of a built program begins a list that unfolds. -/
theorem Built.exists_unfolds (h : p.Built) (hs : s < p.stmts.size) :
    ∃ listing ids, p.Unfolds (some s) listing ids := by
  obtain ⟨listings, all, hall⟩ := h.exists_unfoldsTo
  obtain ⟨part, partIds, hpart, -⟩ := UnfoldsAll.of_mem hall (((h.unfoldsTo_order hall).2 s).mpr hs)
  exact ⟨part, partIds, hpart⟩

/-- A statement of a built program. -/
structure BuiltStmt where
  program : Program
  built : program.Built
  id : StmtId
  lt : id < program.stmts.size

end Program

namespace Shape

open Program

/-- A comparison that is the equality of what is seen of things is an equivalence. -/
theorem equivalence_of_view {α β : Type} [DecidableEq β] {same : α → α → Option Bool} (view : α → β)
    (hsame : ∀ a b, same a b = some (decide (view a = view b))) :
    Equivalence fun a b => same a b = some true := by
  have hiff : ∀ a b, same a b = some true ↔ view a = view b := by
    intro a b
    rw [hsame, Option.some.injEq, decide_eq_true_iff]
  simp only [hiff]
  exact ⟨fun a => rfl, Eq.symm, Eq.trans⟩

/-- **Comparing is comparing listings.** Built programs unfold to the listings of their procedures,
and whether they compare as the same is whether these are equal. Each statement of a built program
unfolds to a listing, and whether the lists from two statements on compare as the same is whether
the listings are equal; whether the two statements do is whether the listings are equal up to what
follows the statements. So all three comparisons are equivalence relations, and numbers and lines do
not count for them. -/
theorem comparisons_iff_listings :
    ∃ (procsOf : Subtype Built → List ProcListing) (listOf : BuiltStmt → Listing),
      (∀ p : Subtype Built, ∃ ids, p.val.UnfoldsTo (procsOf p) ids) ∧
      (∀ a : BuiltStmt, ∃ ids, a.program.Unfolds (some a.id) (listOf a) ids) ∧
      (∀ p q : Subtype Built, p.val.same? q.val = some (decide (procsOf p = procsOf q))) ∧
      (∀ a b : BuiltStmt,
        a.program.sameList? b.program a.id b.id = some (decide (listOf a = listOf b))) ∧
      (∀ a b : BuiltStmt,
        a.program.sameStmt? b.program a.id b.id =
          some (decide ((listOf a).alone = (listOf b).alone))) ∧
      Equivalence (fun p q : Subtype Built => p.val.same? q.val = some true) ∧
      Equivalence (fun a b : BuiltStmt => a.program.sameList? b.program a.id b.id = some true) ∧
      Equivalence (fun a b : BuiltStmt => a.program.sameStmt? b.program a.id b.id = some true) := by
  choose procsOf idsOf hprocs using fun p : Subtype Built => p.property.exists_unfoldsTo
  choose listOf idsFrom hlists using fun a : BuiltStmt => a.built.exists_unfolds a.lt
  have hsame := fun p q : Subtype Built => p.property.same?_eq (hprocs p) (hprocs q)
  have hsameList := fun a b : BuiltStmt => a.built.sameList?_eq (hlists a) (hlists b)
  have hsameStmt := fun a b : BuiltStmt => a.built.sameStmt?_eq (hlists a) (hlists b)
  exact ⟨procsOf, listOf, fun p => ⟨_, hprocs p⟩, fun a => ⟨_, hlists a⟩, hsame, hsameList,
    hsameStmt, equivalence_of_view procsOf hsame, equivalence_of_view listOf hsameList,
    equivalence_of_view (fun a => (listOf a).alone) hsameStmt⟩

/-- The example program and its reordered form compare as the same, so they do the other way round,
and they unfold to the same listings. The first list of the one begins with statement 0, that of the
other with statement 4. -/
theorem comparisons_exampleProgram_iff :
    exampleProgram.same? reorderedProgram = some true ∧
      reorderedProgram.same? exampleProgram = some true ∧
      (∃ listings ids ids', exampleProgram.UnfoldsTo listings ids ∧
        reorderedProgram.UnfoldsTo listings ids') ∧
      ∃ listing ids ids', exampleProgram.Unfolds (some 0) listing ids ∧
        reorderedProgram.Unfolds (some 4) listing ids' := by
  obtain ⟨procsOf, listOf, hprocs, hlists, hsame, hsameList, -, hequiv, -⟩ :=
    comparisons_iff_listings
  have hforth : exampleProgram.same? reorderedProgram = some true := by decide +kernel
  have hfirst : exampleProgram.sameList? reorderedProgram 0 4 = some true := by decide +kernel
  let p : Subtype Built := ⟨exampleProgram, built_exampleProgram⟩
  let q : Subtype Built := ⟨reorderedProgram, built_reorderedProgram⟩
  let a : BuiltStmt := ⟨exampleProgram, built_exampleProgram, 0, by decide⟩
  let b : BuiltStmt := ⟨reorderedProgram, built_reorderedProgram, 4, by decide⟩
  have hprocsEq : procsOf p = procsOf q :=
    of_decide_eq_true (Option.some.inj ((hsame p q).symm.trans hforth))
  have hlistEq : listOf a = listOf b :=
    of_decide_eq_true (Option.some.inj ((hsameList a b).symm.trans hfirst))
  refine ⟨hforth, hequiv.symm (x := p) (y := q) hforth, ?_, ?_⟩
  · obtain ⟨ids, hids⟩ := hprocs p
    obtain ⟨ids', hids'⟩ := hprocs q
    rw [← hprocsEq] at hids'
    exact ⟨procsOf p, ids, ids', hids, hids'⟩
  · obtain ⟨ids, hids⟩ := hlists a
    obtain ⟨ids', hids'⟩ := hlists b
    rw [← hlistEq] at hids'
    exact ⟨listOf a, ids, ids', hids, hids'⟩

end Shape

end ProgramQuery
