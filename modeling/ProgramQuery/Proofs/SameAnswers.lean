import ProgramQuery.Proofs.RenamedPrograms

/-!
# Programs that compare as the same answer alike

Solvers that decide the relations of two programs that are the same up to numbers give the same
answers, up to these numbers (`Renaming.holds_eq`, and `Renaming.listed_eq` for either side).
Programs that compare as the same are the same up to numbers, whichever way and in whatever order
they were built, and so they cannot be told apart by any question (`Analysis.same_answers`).
-/

set_option autoImplicit false

open Relation (ReflTransGen TransGen)

namespace ProgramQuery

namespace Program

variable {p q : Program} {f g : StmtId → StmtId} {a b : Condition} {rel : Relation} {σ τ : Solver}

/-! ## Related conditions -/

/-- What leads somewhere belongs to the program. -/
theorem Leads.left_in (h : p.Leads a b) : a.In p := by
  cases h with
  | enter hon => exact hon.owner_lt
  | descend hon => exact hon.container_lt
  | call hs _ => exact lt_size_of_getElem? hs

/-- What affects a variable belongs to the program. -/
theorem Affects.left_in {effect : Effect} {x : String} (h : p.Affects effect a x) : a.In p := by
  obtain ⟨b, hab, hb⟩ := h
  rcases hab.cases_head with rfl | ⟨c, hac, -⟩
  · obtain ⟨s, stmt, rfl, hs⟩ := hb.exists_stmt
    exact lt_size_of_getElem? hs
  · exact hac.left_in

/-- Only conditions of the program are related. -/
theorem Related.both_in (hp : p.WellFormed) (h : p.Related rel a b) : a.In p ∧ b.In p := by
  have hlink : ∀ {link : Link} {s t : StmtId}, p.LinkTo link s t →
      s < p.stmts.size ∧ t < p.stmts.size := by
    intro link s t hst
    obtain ⟨stmt, hs, htarget⟩ := id hst
    exact ⟨hst.lt_size, hp.link_lt link s t stmt hs htarget⟩
  have hlinks : ∀ {link : Link} {s t : StmtId}, TransGen (p.LinkTo link) s t →
      s < p.stmts.size ∧ t < p.stmts.size := by
    intro link s t hst
    obtain ⟨u, hsu, -⟩ := TransGen.head'_iff.mp hst
    obtain ⟨v, -, hvt⟩ := TransGen.tail'_iff.mp hst
    exact ⟨(hlink hsu).1, (hlink hvt).2⟩
  cases rel with
  | parent =>
    obtain ⟨c, s, rfl, rfl, hcs⟩ := h
    exact ⟨(hlink hcs).2, (hlink hcs).1⟩
  | parentStar =>
    obtain ⟨c, s, rfl, rfl, hcs⟩ := h
    have hsc := hlinks (transGen_inside.mp hcs)
    exact ⟨hsc.2, hsc.1⟩
  | follows =>
    obtain ⟨s, t, rfl, rfl, hst⟩ := h
    exact hlink hst
  | followsStar =>
    obtain ⟨s, t, rfl, rfl, hst⟩ := h
    exact hlinks hst
  | modifies | uses =>
    obtain ⟨x, rfl, hax⟩ := h
    exact ⟨hax.left_in, trivial⟩

/-! ## Answers under other numbers -/

namespace Renaming

/-- Two conditions and their renamed ones get the same answer. -/
theorem holds_eq (h : p.Renaming q f g) (hp : p.WellFormed) (hq : q.WellFormed)
    (hσ : σ.Decides p (p.Related rel)) (hτ : τ.Decides q (q.Related rel)) (ha : a.In p)
    (hb : b.In p) :
    ∃ v, σ.holds a b = .ok v ∧ τ.holds (a.rename f) (b.rename f) = .ok v := by
  obtain ⟨v, hv⟩ := hσ.holds a b ha hb
  obtain ⟨w, hw⟩ := hτ.holds _ _ (h.rename_in ha) (h.rename_in hb)
  have hsame : w = v := by
    apply Bool.eq_iff_iff.mpr
    rw [hσ.holds_iff a b v hv, hτ.holds_iff _ _ w hw, h.related_iff hp hq ha hb]
  rw [hsame] at hw
  exact ⟨v, hv, hw⟩

/-- One side of two solvers, which lists what is related by `R` in the one program and by `R'` in
the other. If the numbers carry `R` over to `R'` and back, then the lists are the same under the
other numbers. -/
theorem listed_eq (h : p.Renaming q f g) (hp : p.WellFormed)
    {list list' : Condition → Except Inconsistency ConditionSet}
    {R R' : Condition → Condition → Prop}
    (hlist : ∀ c, c.In p → ∃ answer, list c = .ok answer ∧ ∀ d, d ∈ answer ↔ R c d)
    (hlist' : ∀ c, c.In q → ∃ answer, list' c = .ok answer ∧ ∀ d, d ∈ answer ↔ R' c d)
    (hto : ∀ c d, R c d → R' (c.rename f) (d.rename f))
    (hback : ∀ c d, R' c d → d.In q ∧ R (c.rename g) (d.rename g)) (ha : a.In p) :
    ∃ answer, list a = .ok answer ∧ list' (a.rename f) = .ok (answer.rename f) := by
  obtain ⟨answer, hanswer, hmem⟩ := hlist a ha
  obtain ⟨answer', hanswer', hmem'⟩ := hlist' (a.rename f) (h.rename_in ha)
  have hsame : answer' = answer.rename f := by
    apply h.eq_rename hp
    · intro c hc
      exact (hmem' _).mpr (hto a c ((hmem c).mp hc))
    · intro c hc
      obtain ⟨hin, hrelated⟩ := hback _ c ((hmem' c).mp hc)
      rw [h.rename_rename ha] at hrelated
      exact ⟨hin, (hmem _).mpr hrelated⟩
  rw [hsame] at hanswer'
  exact ⟨answer, hanswer, hanswer'⟩

/-- What is listed to the right of a condition is the same under the other numbers. -/
theorem right_eq (h : p.Renaming q f g) (hp : p.WellFormed) (hq : q.WellFormed)
    (hσ : σ.Decides p (p.Related rel)) (hτ : τ.Decides q (q.Related rel)) (ha : a.In p) :
    ∃ answer, σ.right a = .ok answer ∧ τ.right (a.rename f) = .ok (answer.rename f) :=
  h.listed_eq hp hσ.right hτ.right (fun _ _ => h.related hp hq)
    (fun _ _ hcd => ⟨(Related.both_in hq hcd).2, (h.symm hp).related hq hp hcd⟩) ha

/-- What is listed to the left of a condition is the same under the other numbers. -/
theorem left_eq (h : p.Renaming q f g) (hp : p.WellFormed) (hq : q.WellFormed)
    (hσ : σ.Decides p (p.Related rel)) (hτ : τ.Decides q (q.Related rel)) (hb : b.In p) :
    ∃ answer, σ.left b = .ok answer ∧ τ.left (b.rename f) = .ok (answer.rename f) :=
  h.listed_eq hp hσ.left hτ.left (fun _ _ => h.related hp hq)
    (fun _ _ hdc => ⟨(Related.both_in hq hdc).1, (h.symm hp).related hq hp hdc⟩) hb

/-- Renaming pairs the statements of the two programs. -/
theorem bijOn (h : p.Renaming q f g) :
    Set.BijOn f (Set.Iio p.stmts.size) (Set.Iio q.stmts.size) := by
  have hinv : Set.InvOn g f (Set.Iio p.stmts.size) (Set.Iio q.stmts.size) := ⟨h.from_to, h.to_from⟩
  exact hinv.bijOn h.to_lt h.from_lt

end Renaming

/-! ## Procedures in source order -/

/-- The statements of a procedure in source order: a container comes before its bodies, and these
come before what follows it. -/
def WalkOf (p : Program) (k : ProcId) (walk : List StmtId) : Prop :=
  ∃ proc body, p.procs[k]? = some proc ∧ p.Unfolds (some proc.first) body walk

/-- The walk of a procedure is renamed statement by statement. -/
theorem Renaming.walkOf (h : p.Renaming q f g) {k : ProcId} {walk : List StmtId}
    (hwalk : p.WalkOf k walk) : q.WalkOf k (walk.map f) := by
  obtain ⟨proc, body, hproc, hbody⟩ := hwalk
  exact ⟨_, body, h.proc k proc hproc, h.unfolds hbody⟩

/-- A procedure has one walk at most. -/
theorem WalkOf.unique {k : ProcId} {walk walk' : List StmtId} (h : p.WalkOf k walk)
    (h' : p.WalkOf k walk') : walk = walk' := by
  obtain ⟨proc, body, hproc, hbody⟩ := h
  obtain ⟨proc', body', hproc', hbody'⟩ := h'
  rw [hproc] at hproc'
  cases hproc'
  exact (hbody.unique hbody').2

/-- The order of a program is the order of its procedures, one after the other. -/
theorem UnfoldsAll.mem_iff {procs : List Proc} {listings : List ProcListing} {ids : List StmtId}
    (h : p.UnfoldsAll procs listings ids) (s : StmtId) :
    s ∈ ids ↔ ∃ proc ∈ procs, ∃ body walk, p.Unfolds (some proc.first) body walk ∧ s ∈ walk := by
  induction h with
  | nil => simp
  | cons hbody _ ih =>
    rw [List.mem_append, ih, List.exists_mem_cons_iff]
    refine or_congr ?_ Iff.rfl
    constructor
    · intro hs
      exact ⟨_, _, hbody, hs⟩
    · rintro ⟨body, walk, hbody', hs⟩
      rw [(hbody.unique hbody').2]
      exact hs

/-- Each of some procedures that unfold has a walk. -/
theorem UnfoldsAll.exists_walk {procs : List Proc} {listings : List ProcListing} {ids : List StmtId}
    (h : p.UnfoldsAll procs listings ids) {proc : Proc} (hproc : proc ∈ procs) :
    ∃ body walk, p.Unfolds (some proc.first) body walk := by
  induction h with
  | nil => cases hproc
  | cons hbody _ ih =>
    rcases List.mem_cons.mp hproc with rfl | hproc
    · exact ⟨_, _, hbody⟩
    · exact ih hproc

/-- Every procedure of a built program has a walk. -/
theorem Built.exists_walkOf (h : p.Built) {k : ProcId} (hk : k < p.procs.size) :
    ∃ walk, p.WalkOf k walk := by
  obtain ⟨listings, ids, hunfolds⟩ := h.exists_unfoldsTo
  have hproc : p.procs[k] ∈ p.procs.toList := by simp
  obtain ⟨body, walk, hbody⟩ := UnfoldsAll.exists_walk hunfolds hproc
  exact ⟨walk, p.procs[k], body, Array.getElem?_eq_getElem hk, hbody⟩

/-- Every statement of a built program is met in the walk through some procedure. -/
theorem Built.mem_walkOf (h : p.Built) {s : StmtId} (hs : s < p.stmts.size) :
    ∃ k walk, p.WalkOf k walk ∧ s ∈ walk := by
  obtain ⟨listings, ids, hunfolds⟩ := h.exists_unfoldsTo
  have hmem := ((h.unfoldsTo_order hunfolds).2 s).mpr hs
  obtain ⟨proc, hproc, body, walk, hbody, hwalk⟩ := (UnfoldsAll.mem_iff hunfolds s).mp hmem
  obtain ⟨k, hk⟩ := List.mem_iff_getElem?.mp hproc
  exact ⟨k, walk, ⟨proc, body, by simpa using hk, hbody⟩, hwalk⟩

end Program

namespace Analysis

open Program

variable {p q : Program}

/-- **Programs that compare as the same** answer all questions alike. The statements that are met at
the same place of the walk through the same procedure correspond to each other, one to one. Under
this correspondence the entities of the two programs have the same members, and all three answers
about each relation are the same. -/
theorem same_answers (hp : p.Built) (hq : q.Built) (hsame : p.same? q = some true) :
    ∃ f : StmtId → StmtId,
      p.procs.size = q.procs.size ∧
      (∀ k < p.procs.size, ∃ walk, p.WalkOf k walk ∧ q.WalkOf k (walk.map f)) ∧
      (∀ s < p.stmts.size, ∃ k walk, p.WalkOf k walk ∧ s ∈ walk) ∧
      Set.BijOn f (Set.Iio p.stmts.size) (Set.Iio q.stmts.size) ∧
      (∀ e : Entity, e.members q = (e.members p).rename f) ∧
      ∃ a b : Analysis, (∀ settings, ofProgram settings p = .ok a) ∧
        (∀ settings, ofProgram settings q = .ok b) ∧
        ∀ (rel : Relation) (x y : Condition), x.In p → y.In p →
          (∃ v, (a.solvers rel).holds x y = .ok v ∧
            (b.solvers rel).holds (x.rename f) (y.rename f) = .ok v) ∧
          (∃ rights, (a.solvers rel).right x = .ok rights ∧
            (b.solvers rel).right (x.rename f) = .ok (rights.rename f)) ∧
          ∃ lefts, (a.solvers rel).left y = .ok lefts ∧
            (b.solvers rel).left (y.rename f) = .ok (lefts.rename f) := by
  -- programs that compare the same unfold to the same listings, which pairs their statements
  obtain ⟨listings, ids, hunfolds⟩ := hp.exists_unfoldsTo
  obtain ⟨listings', ids', hunfolds'⟩ := hq.exists_unfoldsTo
  rw [← hunfolds.listings_eq hunfolds' hsame] at hunfolds'
  have h := UnfoldsTo.renaming hp hq hunfolds hunfolds'
  obtain ⟨a, ha, -, hadecides⟩ := decides_ofProgram hp.wellFormed
  obtain ⟨b, hb, -, hbdecides⟩ := decides_ofProgram hq.wellFormed
  refine ⟨renumber ids ids', h.size_procs, ?_, fun s => hp.mem_walkOf, h.bijOn,
    h.members_eq hp.wellFormed hq.wellFormed, a, b, ha, hb, ?_⟩
  · intro k hk
    obtain ⟨walk, hwalk⟩ := hp.exists_walkOf hk
    exact ⟨walk, hwalk, h.walkOf hwalk⟩
  · intro rel x y hx hy
    exact ⟨h.holds_eq hp.wellFormed hq.wellFormed (hadecides rel) (hbdecides rel) hx hy,
      h.right_eq hp.wellFormed hq.wellFormed (hadecides rel) (hbdecides rel) hx,
      h.left_eq hp.wellFormed hq.wellFormed (hadecides rel) (hbdecides rel) hy⟩

end Analysis

/-- The program of `exampleSteps` with its statements made in another order. -/
def reorderedSteps : List Draft.Step := [
  .declare "a", .declare "b",
  .addAssign "z" (.const 1), .addCall 0, .addBranch "c", .addCall 1, .addAssign "x" (.var "y"),
  .setNext 4 3, .setProcBody 4 0, .setProcBody 2 1, .setBody .thenBranch 1 2,
    .setBody .elseBranch 0 2]

/-- The program that the steps of `reorderedSteps` end in. -/
def reorderedProgram : Program where
  procs := #[⟨"a", 4⟩, ⟨"b", 2⟩]
  stmts := #[
    ⟨10, none, none, some 2, 1, .assign "z" (.const 1)⟩,
    ⟨11, none, none, some 2, 1, .call 0⟩,
    ⟨12, none, none, none, 1, .branch "c" 1 0⟩,
    ⟨13, none, some 4, none, 0, .call 1⟩,
    ⟨14, some 3, none, none, 0, .assign "x" (.var "y")⟩]

/-- The reordered program is built by steps. -/
theorem built_reorderedProgram : reorderedProgram.Built :=
  .ofSteps ⟨10, by decide, true⟩ reorderedSteps (by decide +kernel)

/-- The example program and its reordered form compare as the same. The first statement of the one
corresponds to the last statement of the other, and both modify the variable `x`. -/
theorem Analysis.same_answers_exampleProgram :
    exampleProgram.Built ∧ reorderedProgram.Built ∧
      exampleProgram.same? reorderedProgram = some true ∧
      ∃ a b : Analysis, ofProgram {} exampleProgram = .ok a ∧
        ofProgram {} reorderedProgram = .ok b ∧
        (a.solvers .modifies).right (.stmt 0) = .ok (.ofVars ["x"]) ∧
        (b.solvers .modifies).right (.stmt 4) = .ok (.ofVars ["x"]) := by
  have hsame : exampleProgram.same? reorderedProgram = some true := by decide +kernel
  refine ⟨built_exampleProgram, built_reorderedProgram, hsame, ?_⟩
  obtain ⟨f, -, hwalks, -, -, -, a, b, ha, hb, hanswers⟩ :=
    same_answers built_exampleProgram built_reorderedProgram hsame
  obtain ⟨walk, hwalk, hwalk'⟩ := hwalks 0 (by decide)
  have hfrom : exampleProgram.WalkOf 0 [0, 1] :=
    ⟨_, _, rfl, .assign rfl rfl (.call rfl rfl rfl .done)⟩
  have hto : reorderedProgram.WalkOf 0 [4, 3] :=
    ⟨_, _, rfl, .assign rfl rfl (.call rfl rfl rfl .done)⟩
  have hmap : [0, 1].map f = [4, 3] := by
    rw [hfrom.unique hwalk]
    exact hwalk'.unique hto
  obtain ⟨hzero, -⟩ := List.cons.inj hmap
  obtain ⟨-, ⟨vars, hvars, hvars'⟩, -⟩ :=
    hanswers .modifies (.stmt 0) (.stmt 0) (by decide) (by decide)
  have hcomputed : (do ((← ofProgram {} exampleProgram).solvers .modifies).right (.stmt 0)) =
      .ok (.ofVars ["x"]) := by decide +kernel
  rw [ha] at hcomputed
  cases hvars.symm.trans hcomputed
  have hrename : (ConditionSet.ofVars ["x"]).rename f = .ofVars ["x"] := rfl
  rw [Condition.rename, hzero, hrename] at hvars'
  exact ⟨a, b, ha {}, hb {}, hvars, hvars'⟩

end ProgramQuery
