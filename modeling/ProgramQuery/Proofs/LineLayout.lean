import ProgramQuery.Proofs.AcceptedTexts
import ProgramQuery.Proofs.OverwrittenLinks
import ProgramQuery.Proofs.SameAnswers

/-!
# Where the statements of a text stand

The statements of a program that is read from a text are numbered, and put on lines, in the order of
the text. The unfolding of the program meets them in the order of their numbers, so whatever unfolds
to a stretch of it is on consecutive lines: a procedure, a body of a container, all that is nested
in a container.

An unfolding meets what is under the list that it begins with and nothing else
(`Unfolds.mem_iff_under`). The statements nested in a container therefore come right after it, body
by body, and before what follows it (`exists_nested_block`), and the statements that a procedure
owns come between those of the procedures before and after it (`ownedBy_eq`).
`Program.lines_of_ofText` states this in lines.
-/

set_option autoImplicit false

open Relation (ReflTransGen TransGen)

namespace ProgramQuery

open ExceptSteps

/-! ## Stretches of numbers -/

/-- A stretch of consecutive numbers consists of consecutive numbers. -/
theorem eq_range'_of_infix {l : List Nat} {a n : Nat} (h : l <:+: List.range' a n) :
    ∃ b, l = List.range' b l.length := by
  obtain ⟨before, after, heq⟩ := h
  obtain ⟨k, -, hfront, -⟩ := List.range'_eq_append_iff.mp heq.symm
  obtain ⟨j, -, -, hl⟩ := List.range'_eq_append_iff.mp hfront.symm
  refine ⟨a + j * 1, ?_⟩
  conv_lhs => rw [hl]
  rw [hl, List.length_range']

/-- A stretch of a list without repetition is what passes a test, if its members do and no
others. -/
theorem filter_eq_of_infix {α : Type} {l m : List α} {f : α → Bool} (h : m <:+: l) (hl : l.Nodup)
    (hf : ∀ a ∈ l, f a = true ↔ a ∈ m) : l.filter f = m := by
  obtain ⟨before, after, rfl⟩ := h
  rw [List.nodup_append', List.nodup_append'] at hl
  obtain ⟨⟨-, -, hbefore⟩, -, hafter⟩ := hl
  have hfront : before.filter f = [] := by
    refine List.filter_eq_nil_iff.mpr fun a ha hfa => ?_
    exact hbefore ha ((hf a (by simp [ha])).mp hfa)
  have hback : after.filter f = [] := by
    refine List.filter_eq_nil_iff.mpr fun a ha hfa => ?_
    exact hafter (List.mem_append_right before ((hf a (by simp [ha])).mp hfa)) ha
  have hall : m.filter f = m := List.filter_eq_self.mpr fun a ha => (hf a (by simp [ha])).mpr ha
  rw [List.filter_append, List.filter_append, hfront, hback, hall, List.nil_append, List.append_nil]

namespace Program

variable {p : Program} {s t : StmtId} {stmt : Stmt} {listing : Listing}
  {ids : List StmtId} {procs : List ProcListing}

/-! ## What an unfolding meets -/

/-- Under a list are its first statement, what is under the bodies of this one, and what is under
the rest. -/
theorem WellFormed.under_step (hp : p.WellFormed) (hs : p.stmts[s]? = some stmt) :
    p.Under s t ↔ t = s ∨ (∃ first ∈ stmt.kind.bodies, p.Under first t) ∨
      ∃ u, stmt.next = some u ∧ p.Under u t := by
  constructor
  · rintro ⟨u, ⟨l, hl, hu⟩, hut⟩
    obtain ⟨m, rfl, hm⟩ := (path_some_iff hs).mp hl
    rcases List.mem_cons.mp hu with rfl | hu
    · rcases ReflTransGen.cases_head hut with rfl | ⟨v, hv, hvt⟩
      · exact .inl rfl
      · obtain ⟨first, hfirst, hlist⟩ := (hp.inside_iff_listFrom hs).mp hv
        exact .inr (.inl ⟨first, hfirst, v, hlist, hvt⟩)
    · cases hnext : stmt.next with
      | none =>
        rw [Link.target, hnext, path_none_iff] at hm
        rw [hm] at hu
        cases hu
      | some w =>
        rw [Link.target, hnext] at hm
        exact .inr (.inr ⟨w, rfl, u, ⟨m, hm, hu⟩, hut⟩)
  · obtain ⟨l, hl⟩ := hp.exists_path .next (lt_size_of_getElem? hs)
    have hself : p.ListFrom s s := ⟨l, hl, hl.mem_iff_reflTransGen.mpr .refl⟩
    rintro (rfl | ⟨first, hfirst, u, hu, hut⟩ | ⟨w, hnext, u, ⟨m, hm, hu⟩, hut⟩)
    · exact ⟨t, hself, .refl⟩
    · exact ⟨s, hself, .head ((hp.inside_iff_listFrom hs).mpr ⟨first, hfirst, hu⟩) hut⟩
    · refine ⟨u, ⟨s :: m, .step hs ?_, List.mem_cons_of_mem s hu⟩, hut⟩
      rw [Link.target, hnext]
      exact hm

/-- What is nested in a statement is what stands under one of its bodies. -/
theorem WellFormed.transGen_inside_iff_under (hp : p.WellFormed) (hs : p.stmts[s]? = some stmt) :
    TransGen p.Inside s t ↔ ∃ first ∈ stmt.kind.bodies, p.Under first t := by
  rw [Relation.TransGen.head'_iff]
  constructor
  · rintro ⟨u, hu, hut⟩
    obtain ⟨first, hfirst, hlist⟩ := (hp.inside_iff_listFrom hs).mp hu
    exact ⟨first, hfirst, u, hlist, hut⟩
  · rintro ⟨first, hfirst, u, hlist, hut⟩
    exact ⟨u, (hp.inside_iff_listFrom hs).mpr ⟨first, hfirst, hlist⟩, hut⟩

/-- What bodies unfold to is under one of them, if this holds of each body. -/
theorem mem_flatten_iff_under {firsts : List StmtId} {bodies : List (List StmtId)}
    (hbodies : List.Forall₂ (fun first ids => ∃ body, p.Unfolds (some first) body ids)
      firsts bodies)
    (hmem : ∀ {first body ids}, p.Unfolds (some first) body ids → ids ∈ bodies →
      (t ∈ ids ↔ p.Under first t)) :
    t ∈ bodies.flatten ↔ ∃ first ∈ firsts, p.Under first t := by
  rw [List.mem_flatten]
  constructor
  · rintro ⟨ids, hids, ht⟩
    obtain ⟨i, hi⟩ := List.mem_iff_getElem?.mp hids
    obtain ⟨first, hfirst, body, hbody⟩ := getElem?_of_forall₂ hbodies.flip i ids hi
    exact ⟨first, List.mem_of_getElem? hfirst, (hmem hbody hids).mp ht⟩
  · rintro ⟨first, hfirst, ht⟩
    obtain ⟨i, hi⟩ := List.mem_iff_getElem?.mp hfirst
    obtain ⟨ids, hids, body, hbody⟩ := getElem?_of_forall₂ hbodies i first hi
    exact ⟨ids, List.mem_of_getElem? hids, (hmem hbody (List.mem_of_getElem? hids)).mpr ht⟩

/-- **An unfolding meets what is under its first statement**, and nothing else. -/
theorem Unfolds.mem_iff_under (hp : p.WellFormed) (h : p.Unfolds (some s) listing ids) :
    t ∈ ids ↔ p.Under s t := by
  induction hn : ids.length using Nat.strongRecOn generalizing s listing ids with
  | _ n ih =>
    subst hn
    obtain ⟨stmt, hs⟩ := h.exists_stmt
    obtain ⟨bodies, rest, rfl, hbodies, more, hrest⟩ := h.exists_parts hs
    rw [List.length_cons, List.length_append] at ih
    have hflatten : t ∈ bodies.flatten ↔ ∃ first ∈ stmt.kind.bodies, p.Under first t := by
      refine mem_flatten_iff_under hbodies fun hbody hl => ?_
      have hle := (List.sublist_flatten_of_mem hl).length_le
      exact ih _ (by omega) hbody rfl
    have hafter : t ∈ rest ↔ ∃ u, stmt.next = some u ∧ p.Under u t := by
      cases hnext : stmt.next with
      | none =>
        rw [hnext] at hrest
        cases hrest
        simp
      | some u =>
        rw [hnext] at hrest
        rw [ih rest.length (by omega) hrest rfl]
        simp
    rw [List.mem_cons, List.mem_append, hflatten, hafter, hp.under_step hs]

/-! ## Numbers in the order of an unfolding -/

/-- The part of the unfolding that begins with a statement is a stretch of numbers. -/
theorem UnfoldsTo.exists_stretch {n : Nat} (h : p.UnfoldsTo procs (List.range n)) (hs : s < n) :
    ∃ listing k, p.Unfolds (some s) listing (List.range' s k) := by
  obtain ⟨listing, ids, hunfolds, hin⟩ := UnfoldsAll.of_mem h (List.mem_range.mpr hs)
  rw [List.range_eq_range'] at hin
  obtain ⟨b, hb⟩ := eq_range'_of_infix hin
  obtain ⟨stmt, hstmt⟩ := hunfolds.exists_stmt
  obtain ⟨bodies, rest, hparts, -⟩ := hunfolds.exists_parts hstmt
  rw [hparts] at hb
  obtain ⟨rfl, -, -⟩ := List.range'_eq_cons_iff.mp hb.symm
  rw [← hparts] at hb
  exact ⟨listing, ids.length, hb ▸ hunfolds⟩

/-- **What is nested in a statement** has the numbers right after it, the bodies of a conditional
one after the other, and the number after those is what follows the statement. -/
theorem exists_nested_block {s : Nat} (hp : p.WellFormed)
    (hunfolds : p.UnfoldsTo procs (List.range p.stmts.size)) (hs : p.stmts[s]? = some stmt) :
    ∃ k, (∀ t : Nat, TransGen p.Inside s t ↔ s < t ∧ t ≤ s + k) ∧
      (∀ cond thenFirst elseFirst, stmt.kind = .branch cond thenFirst elseFirst → ∃ j ≤ k,
        (∀ t : Nat, p.Under thenFirst t ↔ s < t ∧ t ≤ s + j) ∧
          ∀ t : Nat, p.Under elseFirst t ↔ s + j < t ∧ t ≤ s + k) ∧
      ∀ t : Nat, stmt.next = some t → t = s + 1 + k := by
  -- the list from `s` on unfolds to consecutive numbers, which are cut into `s`, the bodies and
  -- the rest; each part of consecutive numbers is consecutive
  obtain ⟨listing, n, hstretch⟩ := hunfolds.exists_stretch (lt_size_of_getElem? hs)
  obtain ⟨bodies, rest, hparts, hbodies, more, hrest⟩ := hstretch.exists_parts hs
  obtain ⟨-, -, htail⟩ := List.range'_eq_cons_iff.mp hparts
  obtain ⟨k, -, hflatten, hafter⟩ := List.range'_eq_append_iff.mp htail.symm
  refine ⟨k, ?_, ?_, ?_⟩
  · intro t
    rw [hp.transGen_inside_iff_under hs,
      ← mem_flatten_iff_under hbodies fun hbody _ => hbody.mem_iff_under hp, hflatten,
        List.mem_range'_1]
    omega
  · intro cond thenFirst elseFirst hkind
    rw [hkind] at hbodies
    obtain ⟨thenIds, _, ⟨thenBody, hthen⟩, hmore, rfl⟩ := List.forall₂_cons_left_iff.mp hbodies
    obtain ⟨elseIds, _, ⟨elseBody, helse⟩, hnil, rfl⟩ := List.forall₂_cons_left_iff.mp hmore
    cases hnil
    rw [List.flatten_cons, List.flatten_cons, List.flatten_nil, List.append_nil] at hflatten
    obtain ⟨j, hj, hthenIds, helseIds⟩ := List.range'_eq_append_iff.mp hflatten.symm
    refine ⟨j, hj, fun t => ?_, fun t => ?_⟩
    · rw [← hthen.mem_iff_under hp, hthenIds, List.mem_range'_1]
      omega
    · rw [← helse.mem_iff_under hp, helseIds, List.mem_range'_1]
      omega
  · intro t hnext
    rw [hnext] at hrest
    obtain ⟨other, ht⟩ := hrest.exists_stmt
    obtain ⟨_, _, hrestParts, -⟩ := hrest.exists_parts ht
    rw [hrestParts] at hafter
    obtain ⟨heq, -, -⟩ := List.range'_eq_cons_iff.mp hafter.symm
    omega

/-! ## Procedures in the order of an unfolding -/

variable {q : ProcId} {proc : Proc}

/-- A procedure owns what is under its list. -/
theorem WellFormed.owner_eq_iff_under (hp : p.WellFormed) (hq : p.procs[q]? = some proc)
    (ht : p.stmts[t]? = some stmt) : stmt.owner = q ↔ p.Under proc.first t := by
  have hfirst : p.firstAt? (.ofProc q) = some proc.first := firstAt?_ofProc.mpr ⟨proc, hq, rfl⟩
  obtain ⟨l, outermost, hl, hlast, hon⟩ := hp.owner_eq t stmt ht
  have haround : ReflTransGen p.Inside outermost t :=
    reflTransGen_inside.mpr (hl.mem_iff_reflTransGen.mp (List.mem_of_getLast? hlast))
  constructor
  · rintro rfl
    exact ⟨outermost, (onList_iff hfirst).mp hon, haround⟩
  · rintro ⟨u, hu, hut⟩
    have hu := (onList_iff hfirst).mpr hu
    have hsame : (ListSite.ofProc stmt.owner).container = (ListSite.ofProc q).container := rfl
    cases hp.eq_of_around hsame hon hu haround hut
    obtain ⟨site, -, hunique⟩ := hp.one_list outermost hon.lt_size
    cases (hunique _ hon).trans (hunique _ hu).symm
    rfl

/-- **A procedure owns what its list unfolds to**, in this order. -/
theorem ownedBy_eq {body : Listing} {bodyIds : List StmtId} (hp : p.WellFormed)
    (hids : p.stmtIds = List.range p.stmts.size)
    (hunfolds : p.UnfoldsTo procs (List.range p.stmts.size)) (hq : p.procs[q]? = some proc)
    (hbody : p.Unfolds (some proc.first) body bodyIds) : p.ownedBy q = bodyIds := by
  obtain ⟨part, partIds, hpart, hin⟩ :=
    UnfoldsAll.of_mem hunfolds (List.mem_range.mpr (hp.first_lt q proc hq))
  obtain ⟨-, rfl⟩ := hpart.unique hbody
  rw [ownedBy, hids]
  refine filter_eq_of_infix hin List.nodup_range fun t ht => ?_
  obtain ⟨stmt, hstmt⟩ := Program.exists_stmt (List.mem_range.mp ht)
  rw [hbody.mem_iff_under hp, ← hp.owner_eq_iff_under hq hstmt, hstmt]
  simp

/-- The order of an unfolding is the order of its procedures, one after the other. -/
theorem UnfoldsAll.order_eq_flatMap {sealed : List Proc} (h : p.UnfoldsAll sealed procs ids)
    (blocks : ProcId → List StmtId) (k : Nat)
    (hblocks : ∀ (i : Nat) (proc : Proc) (body : Listing) (bodyIds : List StmtId),
      sealed[i]? = some proc →
      p.Unfolds (some proc.first) body bodyIds → blocks (k + i) = bodyIds) :
    ids = (List.range' k sealed.length).flatMap blocks := by
  induction h generalizing k with
  | nil => rfl
  | @cons proc sealed body listings bodyIds ids hbody _ ih =>
    have hrest := ih (k + 1) fun i proc body bodyIds hi hunfolds => by
      rw [← hblocks (i + 1) proc body bodyIds hi hunfolds, Nat.add_assoc, Nat.add_comm 1 i]
    rw [List.length_cons, List.range'_succ, List.flatMap_cons, ← hrest,
      ← hblocks 0 proc body bodyIds rfl hbody, Nat.add_zero]

/-- The statements are those of the procedures, one procedure after the other. -/
theorem procIds_flatMap_ownedBy (hp : p.WellFormed) (hids : p.stmtIds = List.range p.stmts.size)
    (hunfolds : p.UnfoldsTo procs (List.range p.stmts.size)) :
    p.procIds.flatMap p.ownedBy = List.range p.stmts.size := by
  have horder :=
    UnfoldsAll.order_eq_flatMap hunfolds p.ownedBy 0 fun i proc body bodyIds hi hbody => by
    rw [Nat.zero_add]
    exact ownedBy_eq hp hids hunfolds (by simpa using hi) hbody
  rw [procIds, horder, List.range_eq_range', Array.length_toList]

/-- The statements of a procedure have the numbers right after those of the procedures before it. -/
theorem ownedBy_eq_range' {q : Nat} (hall : p.procIds.flatMap p.ownedBy = List.range p.stmts.size)
    (hq : q < p.procs.size) :
    p.ownedBy q = List.range' ((List.range q).flatMap p.ownedBy).length (p.ownedBy q).length := by
  have hsplit : p.procIds = List.range q ++ q :: List.range' (q + 1) (p.procs.size - (q + 1)) := by
    rw [procIds, List.range_eq_range', List.range'_eq_append_iff]
    refine ⟨q, hq.le, List.range_eq_range', ?_⟩
    rw [← List.range'_succ, Nat.zero_add, Nat.mul_one]
    congr 1
    omega
  have hnumbers : List.range' 0 p.stmts.size = (List.range q).flatMap p.ownedBy ++
      (p.ownedBy q ++ (List.range' (q + 1) (p.procs.size - (q + 1))).flatMap p.ownedBy) := by
    rw [← List.range_eq_range', ← List.flatMap_cons, ← List.flatMap_append, ← hsplit]
    exact hall.symm
  obtain ⟨k, -, hbefore, hrest⟩ := List.range'_eq_append_iff.mp hnumbers
  obtain ⟨j, -, hown, -⟩ := List.range'_eq_append_iff.mp hrest.symm
  rw [hbefore, hown, List.length_range', List.length_range', Nat.zero_add, Nat.mul_one]

/-! ## Lines -/

/-- What is nested in a statement is on the lines right after it, as many as there are nested
statements; the bodies of a conditional are one after the other on these lines, and what follows the
statement is on the line after them. -/
structure NestedOnLines (p : Program) (stmt : Stmt) (nested : ConditionSet) : Prop where
  mem_iff : ∀ c, c ∈ nested ↔ ∃ t other, c = .stmt t ∧ p.stmts[t]? = some other ∧
    stmt.line < other.line ∧ other.line ≤ stmt.line + nested.size
  bodies : ∀ cond thenFirst elseFirst, stmt.kind = .branch cond thenFirst elseFirst →
    ∃ k ≤ nested.size, ∀ t other, p.stmts[t]? = some other →
      (p.Under thenFirst t ↔ stmt.line < other.line ∧ other.line ≤ stmt.line + k) ∧
      (p.Under elseFirst t ↔ stmt.line + k < other.line ∧ other.line ≤ stmt.line + nested.size)
  next : ∀ t other, stmt.next = some t → p.stmts[t]? = some other →
    other.line = stmt.line + 1 + nested.size

/-- **Nested statements are on the lines after their container**, if lines go up with numbers. -/
theorem exists_nestedOnLines {s line : Nat} (hp : p.WellFormed)
    (hunfolds : p.UnfoldsTo procs (List.range p.stmts.size))
    (hlines : ∀ (t : Nat) (other : Stmt), p.stmts[t]? = some other → other.line = line + t)
    (hs : p.stmts[s]? = some stmt) :
    ∃ nested, (∀ check, (Solver.parentStar p check).right (.stmt s) = .ok nested) ∧
      p.NestedOnLines stmt nested := by
  -- lines are numbers moved by the first line, so what holds of numbers is carried over by `hlines`
  obtain ⟨k, hnested, hbodies, hnext⟩ := exists_nested_block hp hunfolds hs
  obtain ⟨l, hl, hmem⟩ := hp.descendants_eq (s := s)
  have hsize : (ConditionSet.ofStmts l).size = k := by
    have hsame : ConditionSet.ofStmts l = .ofStmts (List.range' (s + 1) k) := by
      refine SortedSet.ext_mem fun c => ?_
      rw [ConditionSet.mem_ofStmts, ConditionSet.mem_ofStmts]
      refine exists_congr fun t => and_congr_left fun _ => ?_
      rw [hmem, hnested, List.mem_range'_1]
      omega
    rw [hsame, ConditionSet.size_ofStmts List.nodup_range', List.length_range']
  have hline := hlines s stmt hs
  refine ⟨.ofStmts l, ?_, ?_, ?_, ?_⟩
  · intro check
    rw [Solver.parentStar_right hs, hl check]
    rfl
  · intro c
    rw [ConditionSet.mem_ofStmts, hsize]
    constructor
    · rintro ⟨t, ht, rfl⟩
      have hst := (hmem t).mp ht
      obtain ⟨u, -, hut⟩ := Relation.TransGen.tail'_iff.mp hst
      obtain ⟨other, hother⟩ := Program.exists_stmt hut.lt_size
      have hbetween := (hnested t).mp hst
      have hlineOther := hlines t other hother
      exact ⟨t, other, rfl, hother, by omega, by omega⟩
    · rintro ⟨t, other, rfl, hother, hafter, hbefore⟩
      have hlineOther := hlines t other hother
      exact ⟨t, (hmem t).mpr ((hnested t).mpr ⟨by omega, by omega⟩), rfl⟩
  · intro cond thenFirst elseFirst hkind
    obtain ⟨j, hj, hthen, helse⟩ := hbodies cond thenFirst elseFirst hkind
    refine ⟨j, hsize.symm ▸ hj, ?_⟩
    intro t other hother
    have hlineOther := hlines t other hother
    rw [hthen, helse, hsize]
    omega
  · intro t other hfollows hother
    have hlineOther := hlines t other hother
    have hnumber := hnext t hfollows
    rw [hsize]
    omega

/-- **Where the statements of a text stand.** The statements of a program that was read are on
consecutive lines from the first line on, in the order of their numbers. They are those of the
procedures, one after the other, so the statements of a procedure are on the lines after those of
the procedures before it. What is nested in a statement, according to `Parent*`, is on the lines
right after the statement, and what follows the statement is on the line after these. -/
theorem lines_of_ofText {settings : Settings} {text : String}
    (h : Program.ofText settings text = .ok p) :
    settings.firstLine + p.stmts.size ≤ maxLine + 1 ∧
    p.lines = List.range' settings.firstLine p.stmts.size ∧
    (∀ s < p.stmts.size, p.lineOf? s = some (settings.firstLine + s)) ∧
    p.stmtIds = List.range p.stmts.size ∧ p.procIds.flatMap p.ownedBy = p.stmtIds ∧
    (∀ q < p.procs.size, (p.ownedBy q).filterMap p.lineOf? =
      List.range' (settings.firstLine + ((List.range q).flatMap p.ownedBy).length)
        (p.ownedBy q).length) ∧
    ∀ s stmt, p.stmts[s]? = some stmt → ∃ nested,
      (∀ check, (Solver.parentStar p check).right (.stmt s) = .ok nested) ∧
      p.NestedOnLines stmt nested := by
  obtain ⟨sources, -, hlegal, hbound, hfinish, hsound⟩ := exists_laidOut_of_ofText h
  obtain ⟨places, -, hsealed⟩ := Draft.finish_eq_ok hfinish
  have hp : p.WellFormed := hsound.wellFormed hfinish
  have hsize : p.stmts.size = ProcListing.total (sources.map Source.Proc.listing) := by
    rw [hsealed.size_stmts, Draft.size_laidOut]
  have hunfolds := Draft.unfoldsTo_laidOut hlegal hfinish
  rw [← hsize] at hbound hunfolds
  have hlines : ∀ (s : Nat) (stmt : Stmt), p.stmts[s]? = some stmt →
      stmt.line = settings.firstLine + s := by
    intro s stmt hs
    exact hsealed.line_eq hsound hs
  have hlineOf : ∀ s < p.stmts.size, p.lineOf? s = some (settings.firstLine + s) := by
    intro s hs
    obtain ⟨stmt, hstmt⟩ := Program.exists_stmt hs
    rw [lineOf?, hstmt, Option.map_some, hlines s stmt hstmt]
  have hids := stmtIds_eq_range hlines
  have hall := procIds_flatMap_ownedBy hp hids hunfolds
  refine ⟨hbound, lines_eq_range' hlines, hlineOf, hids, hall.trans hids.symm, ?_,
    fun s stmt hs => exists_nestedOnLines hp hunfolds hlines hs⟩
  · intro q hq
    have hown : (p.ownedBy q).filterMap p.lineOf? = (p.ownedBy q).map (settings.firstLine + ·) := by
      rw [← List.filterMap_eq_map]
      refine List.filterMap_congr fun s hs => hlineOf s ?_
      exact lt_size_of_mem_stmtIds (List.mem_of_mem_filter hs)
    rw [hown, ownedBy_eq_range' hall hq, List.map_add_range', List.length_range']

end Program

namespace RenderedExample

/-- The program that the text is read as. -/
def program : Program where
  procs := #[⟨"p", 0⟩, ⟨"q", 5⟩]
  stmts := #[
    ⟨1, some 4, none, none, 0, .branch "iffy" 1 3⟩,
    ⟨2, some 2, none, some 0, 0,
      .assign "x" (.binary .times (.binary .plus (.const 1) (.var "y")) (.const 2))⟩,
    ⟨3, none, some 1, some 0, 0, .assign "z" (.var "x")⟩,
    ⟨4, none, none, some 0, 0, .call 1⟩,
    ⟨5, none, some 0, none, 0, .call 0⟩,
    ⟨6, none, none, none, 1, .assign "w" (.const 3)⟩]

/-- The text is read as the program. -/
theorem ofText_text : Program.ofText {} text = .ok program := by
  obtain ⟨sources, hwrites, hsources⟩ := renders
  obtain ⟨p, hread, hfinish, -⟩ := Source.exists_toProgram {} hsources legal (by decide)
  have hprogram : (Draft.laidOut 1 listing).finish = .ok program := by decide +kernel
  cases hfinish.symm.trans hprogram
  rw [Program.ofText_eq_toProgram {} hwrites.ofText?_eq]
  exact hread

end RenderedExample

/-- In the text of `RenderedExample` the first procedure is on five lines, and the second one on the
line after them. The conditional on line 1 has two assignments and a call nested in it, and the call
that follows it is on the line after these. -/
theorem Program.lines_of_renderedExample :
    Program.ofText {} RenderedExample.text = .ok RenderedExample.program ∧
      RenderedExample.program.lines = [1, 2, 3, 4, 5, 6] ∧
      (RenderedExample.program.ownedBy 0).filterMap RenderedExample.program.lineOf? =
        [1, 2, 3, 4, 5] ∧
      (RenderedExample.program.ownedBy 1).filterMap RenderedExample.program.lineOf? = [6] ∧
      ∃ nested, (∀ check,
          (Solver.parentStar RenderedExample.program check).right (.stmt 0) = .ok nested) ∧
        nested = .ofStmts [1, 2, 3] ∧ .stmt 2 ∈ nested ∧ ¬ .stmt 4 ∈ nested ∧
        RenderedExample.program.lineOf? 4 = some (1 + 1 + nested.size) := by
  obtain ⟨-, hlines, -, -, -, hprocs, hstmts⟩ := lines_of_ofText RenderedExample.ofText_text
  obtain ⟨nested, hnested, hon⟩ := hstmts 0 _ rfl
  have hcomputed : (Solver.parentStar RenderedExample.program true).right (.stmt 0) =
      .ok (.ofStmts [1, 2, 3]) := by
    decide +kernel
  cases (hnested true).symm.trans hcomputed
  have howned : RenderedExample.program.ownedBy 0 = [0, 1, 2, 3, 4] ∧
      RenderedExample.program.ownedBy 1 = [5] := by decide +kernel
  refine ⟨RenderedExample.ofText_text, hlines, ?_, ?_, _, hnested, rfl, ?_, ?_, ?_⟩
  · have hfirst := hprocs 0 (by decide)
    rw [howned.1] at hfirst
    rw [howned.1]
    exact hfirst
  · have hsecond := hprocs 1 (by decide)
    rw [List.range_succ, List.range_zero, List.nil_append, List.flatMap_singleton, howned.1,
      howned.2] at hsecond
    rw [howned.2]
    exact hsecond
  · exact (hon.mem_iff _).mpr ⟨2, _, rfl, rfl, by decide, by decide⟩
  · intro hmem
    obtain ⟨t, other, heq, hother, -, hle⟩ := (hon.mem_iff _).mp hmem
    cases heq
    cases hother
    exact absurd hle (by decide)
  · have hnext := hon.next 4 _ rfl rfl
    exact congrArg some hnext

end ProgramQuery
