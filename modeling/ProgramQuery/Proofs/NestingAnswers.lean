import ProgramQuery.Proofs.ExceptSteps
import ProgramQuery.Proofs.ListStructure
import ProgramQuery.Proofs.SolverAnswers
import ProgramQuery.Relation.Nesting

/-!
# Answers about nesting

In a well-formed program the solvers of `Parent` and `Parent*` decide direct and indirect nesting
(`decides_parent`, `decides_parentStar`), although their answers from the left go down along bodies
and those from the right go up along `parent` links.

Going down lists one pending body after the other (`Program.descend`). Listing a body does not
change which statements are found or still to be found (`below_iff`), so if this ends, it has found
what the container contains, whatever the program (`descendants_eq_ok`). In a well-formed program
what is still to be listed is nested under the pending bodies (`Under`). No statement is under two
of them and none that was found is under any (`Descending`), and listing a body keeps this
(`Descending.step`). So no statement is met twice, and the listing ends.
-/

set_option autoImplicit false

open Relation (ReflTransGen TransGen)

namespace ProgramQuery

namespace Program

open ExceptSteps

variable {p : Program} {check : Bool} {s t c first owner : StmtId} {l found all : List StmtId}
  {pending : List (StmtId × StmtId)}

/-! ## Direct nesting -/

/-- A statement is directly in the container that it links back to. -/
theorem inside_iff_parent {stmt : Stmt} (hs : p.stmts[s]? = some stmt) :
    p.Inside c s ↔ stmt.parent = some c :=
  linkTo_iff hs

/-- The bodies of a statement are listed one after the other. -/
theorem children_eq_of_lists {stmt : Stmt}
    (h : ∀ first ∈ stmt.kind.bodies, ∃ l : List StmtId,
      (∀ check, p.chain check first (some s) = .ok l) ∧ ∀ t, t ∈ l ↔ p.ListFrom first t) :
    ∃ l, (∀ check, p.children check s stmt = .ok l) ∧
      ∀ t, t ∈ l ↔ ∃ first ∈ stmt.kind.bodies, p.ListFrom first t := by
  obtain ⟨lists, hlists, hall⟩ := exists_mapM_eq_ok h
  refine ⟨lists.flatten, ?_, ?_⟩
  · intro check
    unfold children
    rw [hlists check]
    rfl
  · intro t
    rw [List.mem_flatten]
    constructor
    · rintro ⟨l, hl, ht⟩
      obtain ⟨i, hi⟩ := List.mem_iff_getElem?.mp hl
      obtain ⟨first, hfirst, hmem⟩ := getElem?_of_forall₂ hall.flip i l hi
      exact ⟨first, List.mem_of_getElem? hfirst, (hmem t).mp ht⟩
    · rintro ⟨first, hfirst, ht⟩
      obtain ⟨i, hi⟩ := List.mem_iff_getElem?.mp hfirst
      obtain ⟨l, hl, hmem⟩ := getElem?_of_forall₂ hall i first hi
      exact ⟨l, List.mem_of_getElem? hl, (hmem t).mpr ht⟩

/-- The children of a statement of a well-formed program are what is directly in it. -/
theorem WellFormed.children_eq (hp : p.WellFormed) {stmt : Stmt} (hs : p.stmts[s]? = some stmt) :
    ∃ l, (∀ check, p.children check s stmt = .ok l) ∧ ∀ t, t ∈ l ↔ p.Inside s t := by
  have hbodies : ∀ first ∈ stmt.kind.bodies, ∃ l : List StmtId,
      (∀ check, p.chain check first (some s) = .ok l) ∧ ∀ t, t ∈ l ↔ p.ListFrom first t := by
    intro first hfirst
    obtain ⟨slot, hslot⟩ := List.mem_iff_getElem?.mp hfirst
    have hsite : p.firstAt? (.ofBody s slot) = some first := firstAt?_ofBody.mpr ⟨stmt, hs, hslot⟩
    obtain ⟨l, hl, hchain⟩ := hp.chain_eq hsite
    exact ⟨l, hchain, fun t => hl.mem_iff_listFrom hsite⟩
  obtain ⟨l, hl, hmem⟩ := children_eq_of_lists hbodies
  refine ⟨l, hl, fun t => ?_⟩
  rw [hmem, hp.inside_iff_listFrom hs]

/-- The ancestors of a statement of a well-formed program are the containers that it is nested
in. -/
theorem WellFormed.ancestors_eq (hp : p.WellFormed) {stmt : Stmt} (hs : p.stmts[s]? = some stmt) :
    ∃ l, p.ancestors stmt = .ok l ∧ ∀ c, c ∈ l ↔ TransGen p.Inside c s := by
  obtain ⟨l, hl, hmem⟩ := hp.walk_eq .parent hs
  refine ⟨l, hl, fun c => ?_⟩
  rw [hmem, transGen_inside]

/-! ## What is under a body -/

/-- The statement `s` is a member of one of the bodies of `c`, whatever the two link to. -/
def Contains (p : Program) (c s : StmtId) : Prop := ∃ slot, p.OnList (.ofBody c slot) s

/-- In a well-formed program, a container has in its bodies what links back to it. -/
theorem WellFormed.contains_eq (hp : p.WellFormed) : p.Contains = p.Inside := by
  funext c s
  exact propext hp.inside_iff.symm

/-- The statement `s` is a member of the list that begins with `first`, or contained in a member of
it. -/
def Below (p : Program) (first s : StmtId) : Prop :=
  ∃ t, p.ListFrom first t ∧ ReflTransGen p.Contains t s

/-- The statement `s` is a member of the list that begins with `first`, or nested in a member of
it. -/
def Under (p : Program) (first s : StmtId) : Prop :=
  ∃ t, p.ListFrom first t ∧ ReflTransGen p.Inside t s

/-- In a well-formed program, what lies below a list is what is nested in it. -/
theorem WellFormed.below_iff_under (hp : p.WellFormed) : p.Below first s ↔ p.Under first s := by
  unfold Below Under
  rw [hp.contains_eq]

/-- The bodies of a container are listed by their first statements, each with the container. -/
theorem mem_ownedBodies {entry : StmtId × StmtId} :
    entry ∈ p.ownedBodies c ↔ entry.2 = c ∧ ∃ slot, p.firstAt? (.ofBody c slot) = some entry.1 := by
  obtain ⟨first, owner⟩ := entry
  unfold ownedBodies
  cases hc : p.stmts[c]? with
  | none => simp [firstAt?, hc]
  | some stmt =>
    have hslots : (∃ slot, p.firstAt? (.ofBody c slot) = some first) ↔
        first ∈ stmt.kind.bodies := by
      simp [firstAt?, hc, List.mem_iff_getElem?]
    rw [hslots]
    simp only [List.mem_map, Prod.mk.injEq]
    constructor
    · rintro ⟨first', hmem, rfl, rfl⟩
      exact ⟨rfl, hmem⟩
    · rintro ⟨rfl, hmem⟩
      exact ⟨first, hmem, rfl, rfl⟩

/-- Below the bodies of a container is what it contains, directly or not. -/
theorem below_ownedBodies :
    (∃ entry ∈ p.ownedBodies c, p.Below entry.1 s) ↔ TransGen p.Contains c s := by
  constructor
  · rintro ⟨⟨first, owner⟩, hentry, t, ht, hts⟩
    obtain ⟨-, slot, hfirst⟩ := mem_ownedBodies.mp hentry
    exact Relation.TransGen.head' ⟨slot, (onList_iff hfirst).mpr ht⟩ hts
  · intro h
    obtain ⟨t, ⟨slot, hon⟩, hts⟩ := Relation.TransGen.head'_iff.mp h
    obtain ⟨l, ⟨first, hfirst, -⟩, -⟩ := id hon
    exact ⟨(first, c), mem_ownedBodies.mpr ⟨rfl, slot, hfirst⟩, t, (onList_iff hfirst).mp hon, hts⟩

/-- Below a list are its members and what is below their bodies. -/
theorem below_iff (hl : ∀ t, t ∈ l ↔ p.ListFrom first t) :
    p.Below first s ↔ s ∈ l ∨ ∃ entry ∈ l.flatMap p.ownedBodies, p.Below entry.1 s := by
  constructor
  · rintro ⟨t, ht, hts⟩
    rcases Relation.reflTransGen_iff_eq_or_transGen.mp hts with rfl | hts
    · exact Or.inl ((hl _).mpr ht)
    · obtain ⟨entry, hentry, hbelow⟩ := below_ownedBodies.mpr hts
      exact Or.inr ⟨entry, List.mem_flatMap.mpr ⟨t, (hl t).mpr ht, hentry⟩, hbelow⟩
  · rintro (hs | ⟨entry, hentry, hbelow⟩)
    · exact ⟨s, (hl s).mp hs, .refl⟩
    · obtain ⟨t, ht, hentry⟩ := List.mem_flatMap.mp hentry
      exact ⟨t, (hl t).mp ht, (below_ownedBodies.mp ⟨entry, hentry, hbelow⟩).to_reflTransGen⟩

/-- Under the bodies of a container is what is nested in it. -/
theorem WellFormed.under_ownedBodies (hp : p.WellFormed) :
    (∃ entry ∈ p.ownedBodies c, p.Under entry.1 s) ↔ TransGen p.Inside c s := by
  rw [← hp.contains_eq, ← below_ownedBodies]
  simp only [hp.below_iff_under]

/-- Under a body are its members and what is under their bodies. -/
theorem WellFormed.under_iff (hp : p.WellFormed) (hl : ∀ t, t ∈ l ↔ p.ListFrom first t) :
    p.Under first s ↔ s ∈ l ∨ ∃ entry ∈ l.flatMap p.ownedBodies, p.Under entry.1 s := by
  simpa only [hp.below_iff_under] using below_iff hl

/-- No statement is under two bodies of a container. -/
theorem WellFormed.ownedBodies_apart (hp : p.WellFormed) :
    (p.ownedBodies c).Pairwise fun a b => ∀ s, ¬ (p.Under a.1 s ∧ p.Under b.1 s) := by
  unfold ownedBodies
  cases hc : p.stmts[c]? with
  | none => exact List.Pairwise.nil
  | some stmt =>
    rw [List.pairwise_map, List.pairwise_iff_getElem]
    rintro i j hi hj hij s ⟨⟨t, ht, hts⟩, ⟨u, hu, hus⟩⟩
    have honI : p.OnList (.ofBody c i) t :=
      (onList_iff (firstAt?_ofBody.mpr ⟨stmt, hc, List.getElem?_eq_getElem hi⟩)).mpr ht
    have honJ : p.OnList (.ofBody c j) u :=
      (onList_iff (firstAt?_ofBody.mpr ⟨stmt, hc, List.getElem?_eq_getElem hj⟩)).mpr hu
    -- the members around `s` are the same, and a statement is a member of one list only
    have hsame : (ListSite.ofBody c i).container = (ListSite.ofBody c j).container := rfl
    have heq : t = u := hp.eq_of_around hsame honI honJ hts hus
    subst heq
    obtain ⟨site, -, hunique⟩ := hp.one_list t honI.lt_size
    have hsites := (hunique _ honI).trans (hunique _ honJ).symm
    cases hsites
    omega

/-! ## Going down -/

/-- Statements that were met for the first time are put in front of those found before. -/
theorem meetAll_eq_ok (h : p.meetAll l found = .ok all) : all = l.reverse ++ found := by
  induction l generalizing found with
  | nil =>
    cases h
    rfl
  | cons s l ih =>
    obtain ⟨stmt, -, h⟩ := bind_eq_ok.mp h
    split at h
    · cases h
    · rw [ih h, List.reverse_cons, List.append_assoc, List.singleton_append]

/-- **Going down**, where it ends, has found what is below the pending bodies. -/
theorem descend_eq_ok {bound : Nat} (h : p.descend check bound pending found = .ok all) :
    s ∈ all ↔ s ∈ found ∨ ∃ entry ∈ pending, p.Below entry.1 s := by
  induction bound generalizing pending found with
  | zero =>
    cases pending with
    | nil =>
      cases h
      simp
    | cons entry pending => cases h
  | succ bound ih =>
    cases pending with
    | nil =>
      cases h
      simp
    | cons entry pending =>
      obtain ⟨l, hchain, h⟩ := bind_eq_ok.mp h
      obtain ⟨found', hmeet, h⟩ := bind_eq_ok.mp h
      obtain ⟨hpath, -⟩ := chain_eq_ok hchain
      rw [ih h, meetAll_eq_ok hmeet]
      simp only [List.mem_append, List.mem_reverse, List.mem_cons, or_and_right, exists_or,
        exists_eq_left, below_iff fun t => hpath.mem_iff_listFrom]
      constructor
      · rintro ((hs | hs) | hs | hs)
        · exact Or.inr (Or.inl (Or.inl hs))
        · exact Or.inl hs
        · exact Or.inr (Or.inl (Or.inr hs))
        · exact Or.inr (Or.inr hs)
      · rintro (hs | (hs | hs) | hs)
        · exact Or.inl (Or.inr hs)
        · exact Or.inl (Or.inl hs)
        · exact Or.inr (Or.inl hs)
        · exact Or.inr (Or.inr hs)

/-- The descendants of a statement, where they are given out, are what its bodies contain, and what
that contains, and so on. -/
theorem descendants_eq_ok (h : p.descendants check c = .ok all) :
    s ∈ all ↔ TransGen p.Contains c s := by
  rw [descend_eq_ok h, ← below_ownedBodies]
  simp

/-- A state of going down: the pending bodies and the statements found so far have nothing in
common. -/
structure Descending (p : Program) (pending : List (StmtId × StmtId))
    (found : List StmtId) : Prop where
  begins : ∀ entry ∈ pending, ∃ slot, p.firstAt? (.ofBody entry.2 slot) = some entry.1
  apart : pending.Pairwise fun a b => ∀ s, ¬ (p.Under a.1 s ∧ p.Under b.1 s)
  fresh : ∀ entry ∈ pending, ∀ s ∈ found, ¬ p.Under entry.1 s
  nodup : found.Nodup
  lt_size : ∀ s ∈ found, s < p.stmts.size

/-- New and different statements are all met for the first time. -/
theorem meetAll_eq (hnodup : l.Nodup) (hlt : ∀ s ∈ l, s < p.stmts.size)
    (hfresh : ∀ s ∈ l, s ∉ found) :
    p.meetAll l found = .ok (l.reverse ++ found) := by
  induction l generalizing found with
  | nil => rfl
  | cons s l ih =>
    obtain ⟨stmt, hs⟩ := exists_stmt (hlt s List.mem_cons_self)
    obtain ⟨hnot, hnodup⟩ := List.nodup_cons.mp hnodup
    have hunmet : found.contains s = false := by
      simpa using hfresh s List.mem_cons_self
    have hrest : ∀ t ∈ l, t ∉ s :: found := by
      intro t ht
      rw [List.mem_cons]
      rintro (rfl | hmem)
      · exact hnot ht
      · exact hfresh t (List.mem_cons_of_mem s ht) hmem
    unfold meetAll
    rw [getStmt_eq_ok.mpr hs]
    show (if found.contains s = true then _ else _) = _
    rw [hunmet, ih hnodup (fun t ht => hlt t (List.mem_cons_of_mem s ht)) hrest]
    simp

/-- Listing the next body replaces it by the bodies of its members. -/
theorem Descending.step (hp : p.WellFormed) (h : p.Descending ((first, owner) :: pending) found)
    {slot : Nat} (hfirst : p.firstAt? (.ofBody owner slot) = some first)
    (hl : p.ListAt (.ofBody owner slot) l) :
    p.Descending ((l.flatMap p.ownedBodies).reverse ++ pending) (l.reverse ++ found) := by
  obtain ⟨hhead, hapart⟩ := List.pairwise_cons.mp h.apart
  have hmem : ∀ t, t ∈ l ↔ p.ListFrom first t := fun t => hl.mem_iff_listFrom hfirst
  have hnodup : l.Nodup := by
    obtain ⟨first', -, hpath⟩ := hl
    exact hpath.nodup
  -- what is under the new bodies was under the body that is listed
  have hunder : ∀ entry ∈ l.flatMap p.ownedBodies, ∀ s, p.Under entry.1 s → p.Under first s := by
    intro entry hentry s hs
    exact (hp.under_iff hmem).mpr (Or.inr ⟨entry, hentry, hs⟩)
  have hmember : ∀ s ∈ l, p.Under first s := by
    intro s hs
    exact (hp.under_iff hmem).mpr (Or.inl hs)
  refine ⟨?_, ?_, ?_, ?_, ?_⟩
  · intro entry hentry
    rcases List.mem_append.mp hentry with hentry | hentry
    · obtain ⟨t, -, hentry⟩ := List.mem_flatMap.mp (List.mem_reverse.mp hentry)
      obtain ⟨rfl, hbegins⟩ := mem_ownedBodies.mp hentry
      exact hbegins
    · exact h.begins entry (List.mem_cons_of_mem _ hentry)
  · refine List.pairwise_append.mpr ⟨?_, hapart, ?_⟩
    · rw [List.pairwise_reverse]
      have hnew : (l.flatMap p.ownedBodies).Pairwise
          fun a b => ∀ s, ¬ (p.Under a.1 s ∧ p.Under b.1 s) := by
        refine List.pairwise_flatMap.mpr ⟨fun t _ => hp.ownedBodies_apart, ?_⟩
        refine List.Pairwise.imp_of_mem ?_ hnodup
        rintro t u ht hu hne a ha b hb s ⟨hsa, hsb⟩
        have hts := hp.under_ownedBodies.mp ⟨a, ha, hsa⟩
        have hus := hp.under_ownedBodies.mp ⟨b, hb, hsb⟩
        exact hne (hp.eq_of_around rfl (hl.mem_iff.mp ht) (hl.mem_iff.mp hu) hts.to_reflTransGen
          hus.to_reflTransGen)
      exact hnew.imp fun hab s hs => hab s hs.symm
    · intro a ha b hb s hs
      exact hhead b hb s ⟨hunder a (List.mem_reverse.mp ha) s hs.1, hs.2⟩
  · intro entry hentry s hs hsu
    rcases List.mem_append.mp hentry with hentry | hentry
    · have hentry := List.mem_reverse.mp hentry
      rcases List.mem_append.mp hs with hs | hs
      · -- a member of the list is not nested in another one
        have hs := List.mem_reverse.mp hs
        obtain ⟨t, ht, hentry⟩ := List.mem_flatMap.mp hentry
        have hts := hp.under_ownedBodies.mp ⟨entry, hentry, hsu⟩
        have heq :=
          hp.eq_of_around rfl (hl.mem_iff.mp ht) (hl.mem_iff.mp hs) hts.to_reflTransGen .refl
        subst heq
        exact hp.inside_irrefl hts
      · exact h.fresh (first, owner) List.mem_cons_self s hs (hunder entry hentry s hsu)
    · rcases List.mem_append.mp hs with hs | hs
      · exact hhead entry hentry s ⟨hmember s (List.mem_reverse.mp hs), hsu⟩
      · exact h.fresh entry (List.mem_cons_of_mem _ hentry) s hs hsu
  · refine List.nodup_append.mpr ⟨List.nodup_reverse.mpr hnodup, h.nodup, ?_⟩
    rintro s hs t ht rfl
    exact h.fresh (first, owner) List.mem_cons_self s ht (hmember s (List.mem_reverse.mp hs))
  · intro s hs
    rcases List.mem_append.mp hs with hs | hs
    · exact (hl.mem_iff.mp (List.mem_reverse.mp hs)).lt_size
    · exact h.lt_size s hs

/-- **Going down ends**. Each body has a member, so there are no more bodies to list than statements
to find. -/
theorem Descending.descend_eq (hp : p.WellFormed) {bound : Nat} (h : p.Descending pending found)
    (hbound : p.stmts.size < found.length + bound) :
    ∃ all, ∀ check, p.descend check bound pending found = .ok all := by
  induction bound generalizing pending found with
  | zero =>
    have hle := length_le_of_nodup_lt h.nodup h.lt_size
    omega
  | succ bound ih =>
    cases pending with
    | nil => exact ⟨found, fun check => rfl⟩
    | cons entry pending =>
      obtain ⟨first, owner⟩ := entry
      obtain ⟨slot, hfirst⟩ := h.begins (first, owner) List.mem_cons_self
      obtain ⟨l, hl, hchain⟩ := hp.chain_eq hfirst
      have hmem : ∀ t, t ∈ l ↔ p.ListFrom first t := fun t => hl.mem_iff_listFrom hfirst
      have hfresh : ∀ s ∈ l, s ∉ found := by
        intro s hs hfound
        exact h.fresh (first, owner) List.mem_cons_self s hfound
          ((hp.under_iff hmem).mpr (Or.inl hs))
      have hmeet : p.meetAll l found = .ok (l.reverse ++ found) := by
        obtain ⟨first', -, hpath⟩ := id hl
        exact meetAll_eq hpath.nodup (fun s hs => hpath.lt_size hs) hfresh
      have hpos : 0 < l.length := by
        obtain ⟨path, hpath⟩ := hp.list_ends _ first hfirst
        exact List.length_pos_of_mem (hl.mem_iff.mpr (OnList.of_first hfirst hpath))
      have hlen : (l.reverse ++ found).length = l.length + found.length := by simp
      obtain ⟨all, hall⟩ := ih (h.step hp hfirst hl) (by omega)
      refine ⟨all, fun check => ?_⟩
      unfold descend
      have hlisted : p.chain check first (some owner) = .ok l := hchain check
      rw [hlisted]
      show (do
        let found ← p.meetAll l found
        _) = _
      rw [hmeet]
      exact hall check

/-- The descendants of a statement of a well-formed program are what is nested in it. -/
theorem WellFormed.descendants_eq (hp : p.WellFormed) :
    ∃ l, (∀ check, p.descendants check s = .ok l) ∧ ∀ t, t ∈ l ↔ TransGen p.Inside s t := by
  have hstart : p.Descending (p.ownedBodies s).reverse [] := by
    refine ⟨?_, ?_, ?_, List.nodup_nil, ?_⟩
    · intro entry hentry
      obtain ⟨rfl, hbegins⟩ := mem_ownedBodies.mp (List.mem_reverse.mp hentry)
      exact hbegins
    · rw [List.pairwise_reverse]
      exact hp.ownedBodies_apart.imp fun hab t ht => hab t ht.symm
    · simp
    · simp
  have hbound : p.stmts.size < ([] : List StmtId).length + (p.stmts.size + 1) := by simp
  obtain ⟨l, hl⟩ := hstart.descend_eq hp hbound
  refine ⟨l, hl, fun t => ?_⟩
  rw [descendants_eq_ok (hl true), hp.contains_eq]

end Program

/-! ## The solvers -/

namespace Solver

open ExceptSteps
open Program

variable {p : Program}

/-- Solvers of nesting say that nothing is inside a statement without bodies, and otherwise ask
about the inner statement. -/
theorem answers_of_container {R : StmtId → StmtId → Prop}
    {right left : StmtId → Stmt → Except Inconsistency ConditionSet}
    {answer : StmtId → StmtId → Except Inconsistency Bool}
    (hright : ∀ (s : StmtId) (stmt : Stmt), p.stmts[s]? = some stmt →
      ∃ l, right s stmt = .ok (.ofStmts l) ∧ ∀ t, t ∈ l ↔ R s t)
    (hleft : ∀ (t : StmtId) (stmt : Stmt), p.stmts[t]? = some stmt →
      ∃ l, left t stmt = .ok (.ofStmts l) ∧ ∀ s, s ∈ l ↔ R s t)
    (hcontainer : ∀ (s t : StmtId) (stmt : Stmt), p.stmts[s]? = some stmt → R s t →
      stmt.kind.isContainer = true)
    (hanswer : ∀ s t, t < p.stmts.size → ∃ b, answer s t = .ok b)
    (hiff : ∀ s t b, answer s t = .ok b → (b = true ↔ R s t)) :
    Cases.Answers {
      rightOfStmt := right
      leftOfStmt := left
      holdsOfStmt := fun s stmt r =>
        match stmt.kind.isContainer, r with
        | true, .stmt t => answer s t
        | _, _ => .ok false } p (OnStmts R) := by
  refine Cases.answers_of_stmts hright hleft ?_ ?_ ?_
  · intro s stmt hs t ht
    cases hkind : stmt.kind.isContainer with
    | false => exact ⟨false, rfl⟩
    | true => exact hanswer s t ht
  · intro s stmt hs t b hb
    cases hkind : stmt.kind.isContainer with
    | false =>
      simp only [hkind] at hb
      cases hb
      refine ⟨fun h => absurd h Bool.false_ne_true, fun h => ?_⟩
      rw [hcontainer s t stmt hs h] at hkind
      exact absurd hkind.symm Bool.false_ne_true
    | true =>
      simp only [hkind] at hb
      exact hiff s t b hb
  · intro s stmt r hr
    cases r with
    | stmt t => exact absurd rfl (hr t)
    | proc q => cases stmt.kind.isContainer <;> rfl
    | var x => cases stmt.kind.isContainer <;> rfl
    | const k => cases stmt.kind.isContainer <;> rfl

/-- **The solver of `Parent`** is the same whether or not links are checked, and it decides direct
nesting. -/
theorem decides_parent (hp : p.WellFormed) :
    ∃ σ, (∀ check, parent p check = σ) ∧ σ.Decides p (OnStmts p.Inside) := by
  refine ⟨parent p true, ?_, Cases.Answers.decides (answers_of_container ?_ ?_ ?_ ?_ ?_)⟩
  · intro check
    refine ofCases_congr fun s stmt hs => ?_
    obtain ⟨l, hl, -⟩ := hp.children_eq hs
    rw [hl check, hl true]
  · intro s stmt hs
    obtain ⟨l, hl, hmem⟩ := hp.children_eq hs
    exact ⟨l, by rw [hl true]; rfl, hmem⟩
  · intro t stmt ht
    refine ⟨stmt.parent.toList, rfl, fun c => ?_⟩
    rw [Option.mem_toList, inside_iff_parent ht]
  · intro s t stmt hs h
    exact hp.isContainer_of_inside hs h
  · intro s t ht
    obtain ⟨child, hchild⟩ := exists_stmt ht
    refine ⟨child.parent == some s, ?_⟩
    rw [getStmt_eq_ok.mpr hchild]
    rfl
  · intro s t b hb
    obtain ⟨child, hget, hb⟩ := bind_eq_ok.mp hb
    cases hb
    rw [beq_iff_eq, inside_iff_parent (getStmt_eq_ok.mp hget)]

/-- **The solver of `Parent*`** is the same whether or not links are checked, and it decides nesting
at any depth. -/
theorem decides_parentStar (hp : p.WellFormed) :
    ∃ σ, (∀ check, parentStar p check = σ) ∧ σ.Decides p (OnStmts (TransGen p.Inside)) := by
  refine ⟨parentStar p true, ?_, Cases.Answers.decides (answers_of_container ?_ ?_ ?_ ?_ ?_)⟩
  · intro check
    refine ofCases_congr fun s stmt hs => ?_
    obtain ⟨l, hl, -⟩ := hp.descendants_eq (s := s)
    rw [hl check, hl true]
  · intro s stmt hs
    obtain ⟨l, hl, hmem⟩ := hp.descendants_eq (s := s)
    exact ⟨l, by rw [hl true]; rfl, hmem⟩
  · intro t stmt ht
    obtain ⟨l, hl, hmem⟩ := hp.ancestors_eq ht
    exact ⟨l, by rw [hl]; rfl, hmem⟩
  · intro s t stmt hs h
    obtain ⟨u, hsu, -⟩ := Relation.TransGen.head'_iff.mp h
    exact hp.isContainer_of_inside hs hsu
  · intro s t ht
    obtain ⟨inner, hinner⟩ := exists_stmt ht
    obtain ⟨l, hl, -⟩ := hp.ancestors_eq hinner
    refine ⟨l.contains s, ?_⟩
    rw [getStmt_eq_ok.mpr hinner]
    show (do
      let ancestors ← p.ancestors inner
      _) = _
    rw [hl]
    rfl
  · intro s t b hb
    obtain ⟨inner, hget, hb⟩ := bind_eq_ok.mp hb
    obtain ⟨l, hl, hmem⟩ := hp.ancestors_eq (getStmt_eq_ok.mp hget)
    rw [hl] at hb
    cases hb
    rw [List.contains_iff_mem]
    exact hmem s

end Solver

end ProgramQuery
