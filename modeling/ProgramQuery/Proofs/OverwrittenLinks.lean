import ProgramQuery.Proofs.EffectRound
import ProgramQuery.Proofs.NestingAnswers
import ProgramQuery.Proofs.DraftRuns

/-!
# Programs with overwritten links

The links of a program may have been overwritten in any way. Making the solver of an effect goes
through all lists that procedures lead to. If it checks the links back to containers and ends with a
solver, then each of these lists ends and its members link back (`Checked`), though two of them may
still run into each other.

This is enough for nesting to look the same from outside and from inside (`Nested`): what a
reachable container contains links to it, and what a reachable statement links to contains it.
Therefore the answers about `Parent` and `Parent*` agree as far as they are given
(`Solver.nesting_agrees`).
-/

set_option autoImplicit false

open Relation (ReflTransGen TransGen)

namespace ProgramQuery

open ExceptSteps

namespace Program

/-! ## Checked lists -/

/-- The list from `first` on ends, its members link back to `owner`, and so it is with the bodies of
its members. -/
inductive Checked (p : Program) : Option StmtId → StmtId → Prop where
  | intro {owner : Option StmtId} {first : StmtId} {l : List StmtId}
      (hl : p.Path .next (some first) l)
      (hparent : ∀ s ∈ l, ∀ stmt, p.stmts[s]? = some stmt → stmt.parent = owner)
      (hbodies : ∀ s ∈ l, ∀ stmt, p.stmts[s]? = some stmt → ∀ body ∈ stmt.kind.bodies,
        Checked p (some s) body) : Checked p owner first

end Program

namespace Effect

open Program

variable {effect : Effect} {procVars : ProcId → Vars} {p : Program} {found : Found}

/-- Where collecting from a list succeeds, collecting from each element does. -/
theorem collectAll_eq_ok {α : Type} {collect : α → Except Inconsistency Found} {as : List α}
    (h : collectAll collect as = .ok found) : ∀ a ∈ as, ∃ part, collect a = .ok part := by
  induction as generalizing found with
  | nil => simp
  | cons a as ih =>
    obtain ⟨part, hpart, h⟩ := bind_eq_ok.mp h
    obtain ⟨more, hmore, -⟩ := bind_eq_ok.mp h
    exact List.forall_mem_cons.mpr ⟨⟨part, hpart⟩, ih hmore⟩

/-- **Going through a list with checks** succeeds only if the list is a checked one. -/
theorem checked_of_collectBody {depth : Nat} {first : StmtId} {owner : Option StmtId}
    (h : effect.collectBody procVars p true depth first owner = .ok found) :
    p.Checked owner first := by
  induction depth generalizing first owner found with
  | zero => cases h
  | succ depth ih =>
    obtain ⟨l, hchain, h⟩ := bind_eq_ok.mp h
    obtain ⟨hpath, hparent⟩ := chain_eq_ok hchain
    refine .intro hpath (hparent rfl) ?_
    intro s hs stmt hstmt body hbody
    obtain ⟨part, hpart⟩ := collectAll_eq_ok h s hs
    obtain ⟨stmt', hget, hpart⟩ := bind_eq_ok.mp hpart
    cases hstmt.symm.trans (getStmt_eq_ok.mp hget)
    obtain ⟨inner, hinner, -⟩ := bind_eq_ok.mp hpart
    obtain ⟨bodyFound, hbodyFound⟩ := collectAll_eq_ok hinner body hbody
    exact ih hbodyFound

/-- A round that succeeds with checks has checked the list of every procedure. -/
theorem checked_of_round {before : List Vars} {table : Table}
    (h : effect.round p true before = .ok table) {q : ProcId} {proc : Proc}
    (hq : p.procs[q]? = some proc) : p.Checked none proc.first := by
  obtain ⟨founds, hfounds, -⟩ := bind_eq_ok.mp h
  obtain ⟨found, -, hfound⟩ := (getElem?_of_mapM hfounds).2 q proc (by simpa using hq)
  exact checked_of_collectBody hfound

/-- **A solver of an effect** is made with checks only if the lists of procedures are checked
ones. -/
theorem checked_of_solver {σ : Solver} (h : effect.solver p true = .ok σ) {q : ProcId} {proc : Proc}
    (hq : p.procs[q]? = some proc) : p.Checked none proc.first := by
  obtain ⟨table, htable, -⟩ := bind_eq_ok.mp h
  -- the first round has gone through all lists
  obtain ⟨first, hround, -⟩ := bind_eq_ok.mp htable
  exact checked_of_round hround hq

end Effect

namespace Program

variable {p : Program} {owner : Option StmtId} {s t c first : StmtId} {stmt : Stmt}
  {l : List StmtId}

/-! ## Reachable statements -/

/-- Procedures lead to the statement, along `next` links and into bodies. -/
inductive Reachable (p : Program) : StmtId → Prop where
  | first {q : ProcId} {proc : Proc} (hq : p.procs[q]? = some proc) : Reachable p proc.first
  | next {s t : StmtId} {stmt : Stmt} (h : Reachable p s) (hs : p.stmts[s]? = some stmt)
      (hnext : stmt.next = some t) : Reachable p t
  | body {s first : StmtId} {stmt : Stmt} (h : Reachable p s) (hs : p.stmts[s]? = some stmt)
      (hfirst : first ∈ stmt.kind.bodies) : Reachable p first

/-- On a list that procedures lead to, they lead to every member. -/
theorem Reachable.path (h : p.Reachable first) (hl : p.Path .next (some first) l) :
    ∀ s ∈ l, p.Reachable s := by
  intro s hs
  have hsteps := hl.mem_iff_reflTransGen.mp hs
  induction hsteps with
  | refl => exact h
  | tail hprev hstep ih =>
    obtain ⟨stmt, hstmt, hnext⟩ := hstep
    exact (ih (hl.mem_iff_reflTransGen.mpr hprev)).next hstmt hnext

/-- Procedures lead into the bodies of what they lead to. -/
theorem Reachable.contains (h : p.Reachable c) (hcs : p.Contains c s) : p.Reachable s := by
  obtain ⟨slot, l, ⟨first, hfirst, hl⟩, hs⟩ := hcs
  obtain ⟨stmt, hc, hslot⟩ := firstAt?_ofBody.mp hfirst
  exact (h.body hc (List.mem_of_getElem? hslot)).path hl s hs

/-- Nesting looks the same from outside and from inside, for statements that procedures lead to. -/
structure Nested (p : Program) : Prop where
  /-- The bodies of a statement end, and their members link back to it. -/
  bodies : ∀ (s : StmtId) (stmt : Stmt), p.Reachable s → p.stmts[s]? = some stmt →
    ∀ first ∈ stmt.kind.bodies, ∃ l, p.Path .next (some first) l ∧
      ∀ t ∈ l, ∀ stmt, p.stmts[t]? = some stmt → stmt.parent = some s
  /-- What a statement links to contains it, and is reached before it. -/
  container : ∀ s c, p.Reachable s → p.Inside c s → p.Reachable c ∧ p.Contains c s
  /-- The statements are in the program, and the links from container to container end. -/
  around : ∀ s, p.Reachable s → ∃ l, p.Path .parent (some s) l

/-- **Checked lists of procedures** make all that they lead to nested. -/
theorem nested_of_checked (h : ∀ (q : ProcId) (proc : Proc), p.procs[q]? = some proc →
    p.Checked none proc.first) : p.Nested := by
  -- a reachable statement is a member of a checked list, and the container of the list is reached
  -- before it
  have hall : ∀ s, p.Reachable s → ∃ owner first l, p.Checked owner first ∧
      p.Path .next (some first) l ∧ s ∈ l ∧
      (∀ c, owner = some c → p.Reachable c ∧ p.Contains c s) ∧ ∃ m, p.Path .parent owner m := by
    intro s hs
    induction hs with
    | @first q proc hq =>
      obtain ⟨hl, -, -⟩ := id (h q proc hq)
      refine ⟨none, proc.first, _, h q proc hq, hl, hl.mem_iff_reflTransGen.mpr .refl, ?_, [],
        .done⟩
      simp
    | @next s t stmt _ hs hnext ih =>
      obtain ⟨owner, first, l, hchecked, hl, hmem, hcontainer, haround⟩ := ih
      refine ⟨owner, first, l, hchecked, hl, hl.mem_of_target hmem hs hnext, ?_, haround⟩
      intro c hc
      obtain ⟨hreach, slot, hon⟩ := hcontainer c hc
      exact ⟨hreach, slot, hon.next hs hnext⟩
    | @body s first stmt hreach hs hfirst ih =>
      obtain ⟨owner, first', l, hchecked, hl, hmem, -, m, hm⟩ := ih
      obtain ⟨hl', hparent, hbodies⟩ := hchecked
      cases hl.unique hl'
      obtain ⟨hlist, -, -⟩ := id (hbodies s hmem stmt hs first hfirst)
      have hfirstMem := hlist.mem_iff_reflTransGen.mpr .refl
      refine ⟨some s, first, _, hbodies s hmem stmt hs first hfirst, hlist, hfirstMem, ?_, s :: m,
        ?_⟩
      · intro c hc
        cases hc
        obtain ⟨slot, hslot⟩ := List.mem_iff_getElem?.mp hfirst
        exact ⟨hreach, slot, .of_first (firstAt?_ofBody.mpr ⟨stmt, hs, hslot⟩) hlist⟩
      · refine .step hs ?_
        rw [Link.target, hparent s hmem stmt hs]
        exact hm
  refine ⟨?_, ?_, ?_⟩
  · intro s stmt hreach hs first hfirst
    obtain ⟨owner, first', l, ⟨hl', -, hbodies⟩, hl, hmem, -⟩ := hall s hreach
    cases hl.unique hl'
    obtain ⟨hlist, hparent, -⟩ := hbodies s hmem stmt hs first hfirst
    exact ⟨_, hlist, hparent⟩
  · intro s c hreach hcs
    obtain ⟨owner, first', l, ⟨hl', hparent, -⟩, hl, hmem, hcontainer, -⟩ := hall s hreach
    cases hl.unique hl'
    obtain ⟨stmt, hs, hlink⟩ := hcs
    change stmt.parent = some c at hlink
    rw [hparent s hmem stmt hs] at hlink
    exact hcontainer c hlink
  · intro s hreach
    obtain ⟨owner, first', l, ⟨hl', hparent, -⟩, hl, hmem, -, m, hm⟩ := hall s hreach
    cases hl.unique hl'
    obtain ⟨stmt, hs⟩ := exists_stmt (hl.lt_size hmem)
    refine ⟨s :: m, .step hs ?_⟩
    rw [Link.target, hparent s hmem stmt hs]
    exact hm

namespace Nested

/-- What procedures lead to is a statement of the program. -/
theorem exists_stmt (h : p.Nested) (hs : p.Reachable s) : ∃ stmt, p.stmts[s]? = some stmt := by
  obtain ⟨l, hl⟩ := h.around s hs
  cases hl with
  | step hstmt _ => exact ⟨_, hstmt⟩

/-- What a container has in its bodies links back to it. -/
theorem inside_of_contains (h : p.Nested) (hc : p.Reachable c) (hcs : p.Contains c s) :
    p.Inside c s := by
  obtain ⟨slot, l, ⟨first, hfirst, hl⟩, hs⟩ := hcs
  obtain ⟨stmt, hstmt, hslot⟩ := firstAt?_ofBody.mp hfirst
  obtain ⟨l', hl', hparent⟩ := h.bodies c stmt hc hstmt first (List.mem_of_getElem? hslot)
  cases hl.unique hl'
  obtain ⟨inner, hinner⟩ := Program.exists_stmt (hl.lt_size hs)
  exact ⟨inner, hinner, hparent s hs inner hinner⟩

/-- **From outside and from inside**, a reachable statement is in the same reachable containers. -/
theorem transGen_contains_iff (h : p.Nested) (hc : p.Reachable c) (hs : p.Reachable s) :
    TransGen p.Contains c s ↔ TransGen p.Inside c s := by
  constructor
  · intro hcs
    clear hs
    induction hcs using TransGen.head_induction_on with
    | single hcs => exact .single (h.inside_of_contains hc hcs)
    | head hcd _ ih => exact .head (h.inside_of_contains hc hcd) (ih (hc.contains hcd))
  · intro hcs
    clear hc
    induction hcs with
    | single hcs => exact .single (h.container _ _ hs hcs).2
    | tail _ hds ih =>
      obtain ⟨hd, hds⟩ := h.container _ _ hs hds
      exact .tail (ih hd) hds

/-- The children of a statement that procedures lead to are what its bodies have. -/
theorem children_eq (h : p.Nested) (hc : p.Reachable c) (hstmt : p.stmts[c]? = some stmt) :
    ∃ l, (∀ check, p.children check c stmt = .ok l) ∧ ∀ s, s ∈ l ↔ p.Contains c s := by
  have hlists : ∀ first ∈ stmt.kind.bodies, ∃ l : List StmtId,
      (∀ check, p.chain check first (some c) = .ok l) ∧ ∀ t, t ∈ l ↔ p.ListFrom first t := by
    intro first hfirst
    obtain ⟨l, hl, hparent⟩ := h.bodies c stmt hc hstmt first hfirst
    exact ⟨l, fun check => chain_eq_of_path hl fun _ => hparent, fun t => hl.mem_iff_listFrom⟩
  obtain ⟨l, hl, hmem⟩ := children_eq_of_lists hlists
  refine ⟨l, hl, fun s => ?_⟩
  rw [hmem]
  constructor
  · rintro ⟨first, hfirst, hs⟩
    obtain ⟨slot, hslot⟩ := List.mem_iff_getElem?.mp hfirst
    exact ⟨slot, (onList_iff (firstAt?_ofBody.mpr ⟨stmt, hstmt, hslot⟩)).mpr hs⟩
  · rintro ⟨slot, l, ⟨first, hfirst, hl⟩, hs⟩
    obtain ⟨stmt', hstmt', hslot⟩ := firstAt?_ofBody.mp hfirst
    cases hstmt.symm.trans hstmt'
    exact ⟨first, List.mem_of_getElem? hslot, l, hl, hs⟩

/-- The ancestors of a statement that procedures lead to are the containers that it is nested in. -/
theorem ancestors_eq (h : p.Nested) (hs : p.Reachable s) (hstmt : p.stmts[s]? = some stmt) :
    ∃ l, p.ancestors stmt = .ok l ∧ ∀ c, c ∈ l ↔ TransGen p.Inside c s := by
  obtain ⟨l, hl⟩ := h.around s hs
  obtain ⟨m, -, hm⟩ := (path_some_iff hstmt).mp hl
  refine ⟨m, walk_eq_of_path hm, fun c => ?_⟩
  rw [hm.mem_iff_transGen hstmt, transGen_inside]

/-- A statement without bodies contains nothing. -/
theorem isContainer (h : p.Nested) (hs : p.Reachable s) (hstmt : p.stmts[c]? = some stmt)
    (hcs : TransGen p.Inside c s) : stmt.kind.isContainer = true := by
  have hcontains : ∃ t, p.Contains c t := by
    induction hcs with
    | single hcs => exact ⟨_, (h.container _ _ hs hcs).2⟩
    | tail _ hds ih => exact ih (h.container _ _ hs hds).1
  obtain ⟨t, slot, l, ⟨first, hfirst, -⟩, -⟩ := hcontains
  obtain ⟨stmt', hstmt', hslot⟩ := firstAt?_ofBody.mp hfirst
  cases hstmt.symm.trans hstmt'
  revert hslot
  cases stmt.kind <;> simp [StmtKind.bodies, StmtKind.isContainer]

end Nested

end Program

/-! ## The answers -/

namespace Solver

open Program

variable {p : Program} {a b : StmtId} {stmt inner : Stmt} {check : Bool}

/-- A set of statements has the statements it was made of. -/
theorem mem_ofStmts_stmt {l : List StmtId} {s : StmtId} :
    Condition.stmt s ∈ ConditionSet.ofStmts l ↔ s ∈ l := by
  simp

/-- To the right of a statement are its children. -/
theorem parent_right (hs : p.stmts[a]? = some stmt) :
    (parent p check).right (.stmt a) = (do return .ofStmts (← p.children check a stmt)) :=
  ofCases_right_stmt hs

/-- To the left of a statement is the container that it links back to. -/
theorem parent_left (hs : p.stmts[b]? = some stmt) :
    (parent p check).left (.stmt b) = .ok (.ofStmts stmt.parent.toList) :=
  ofCases_left_stmt hs

/-- Two statements are related if the first is a container that the second links back to. -/
theorem parent_holds (hs : p.stmts[a]? = some stmt) (ht : p.stmts[b]? = some inner) :
    (parent p check).holds (.stmt a) (.stmt b) =
      .ok (stmt.kind.isContainer && inner.parent == some a) := by
  rw [parent, ofCases_holds_stmt hs]
  cases hkind : stmt.kind.isContainer with
  | false => simp only [hkind, Bool.false_and]
  | true =>
    simp only [hkind, getStmt_eq_ok.mpr ht, Bool.true_and]
    rfl

/-- To the right of a statement, taken over and over, are its descendants. -/
theorem parentStar_right (hs : p.stmts[a]? = some stmt) :
    (parentStar p check).right (.stmt a) = (do return .ofStmts (← p.descendants check a)) :=
  ofCases_right_stmt hs

/-- To the left of a statement, taken over and over, are its ancestors. -/
theorem parentStar_left (hs : p.stmts[b]? = some stmt) :
    (parentStar p check).left (.stmt b) = (do return .ofStmts (← p.ancestors stmt)) :=
  ofCases_left_stmt hs

/-- Two statements are related, over and over, if the first is a container and an ancestor of the
second. -/
theorem parentStar_holds (hs : p.stmts[a]? = some stmt) (ht : p.stmts[b]? = some inner)
    {l : List StmtId} (hl : p.ancestors inner = .ok l) :
    (parentStar p check).holds (.stmt a) (.stmt b) =
      .ok (stmt.kind.isContainer && l.contains a) := by
  rw [parentStar, ofCases_holds_stmt hs]
  cases hkind : stmt.kind.isContainer with
  | false => simp only [hkind, Bool.false_and]
  | true =>
    simp only [hkind, getStmt_eq_ok.mpr ht, Bool.true_and]
    change (do return (← p.ancestors inner).contains a) = _
    rw [hl]
    rfl

/-- The answers about `Parent` are given and agree with the links. -/
theorem parent_agrees (hp : p.Nested) (ha : p.Reachable a) (hb : p.Reachable b) (check : Bool) :
    ∃ rights lefts v, (parent p check).right (.stmt a) = .ok rights ∧
      (parent p check).left (.stmt b) = .ok lefts ∧
      (parent p check).holds (.stmt a) (.stmt b) = .ok v ∧
      (.stmt b ∈ rights ↔ p.Inside a b) ∧ (.stmt a ∈ lefts ↔ p.Inside a b) ∧
      (v = true ↔ p.Inside a b) := by
  obtain ⟨outer, houter⟩ := hp.exists_stmt ha
  obtain ⟨inner, hinner⟩ := hp.exists_stmt hb
  obtain ⟨l, hl, hmem⟩ := hp.children_eq ha houter
  refine ⟨.ofStmts l, _, _, ?_, parent_left hinner, parent_holds houter hinner, ?_, ?_, ?_⟩
  · rw [parent_right houter, hl check]
    rfl
  · rw [mem_ofStmts_stmt, hmem]
    exact ⟨hp.inside_of_contains ha, fun h => (hp.container b a hb h).2⟩
  · rw [mem_ofStmts_stmt, Option.mem_toList, inside_iff_parent hinner]
  · rw [Bool.and_eq_true, beq_iff_eq, ← inside_iff_parent hinner, and_iff_right_iff_imp]
    intro h
    exact hp.isContainer hb houter (.single h)

/-- The answers about `Parent*` from inside are given and agree with the links, and so does the
answer from outside if it is given. -/
theorem parentStar_agrees (hp : p.Nested) (ha : p.Reachable a) (hb : p.Reachable b) (check : Bool) :
    ∃ lefts v, (parentStar p check).left (.stmt b) = .ok lefts ∧
      (parentStar p check).holds (.stmt a) (.stmt b) = .ok v ∧
      (.stmt a ∈ lefts ↔ TransGen p.Inside a b) ∧ (v = true ↔ TransGen p.Inside a b) ∧
      ∀ rights, (parentStar p check).right (.stmt a) = .ok rights →
        (.stmt b ∈ rights ↔ TransGen p.Inside a b) := by
  obtain ⟨outer, houter⟩ := hp.exists_stmt ha
  obtain ⟨inner, hinner⟩ := hp.exists_stmt hb
  obtain ⟨l, hl, hmem⟩ := hp.ancestors_eq hb hinner
  refine ⟨.ofStmts l, _, ?_, parentStar_holds houter hinner hl, ?_, ?_, ?_⟩
  · rw [parentStar_left hinner, hl]
    rfl
  · rw [mem_ofStmts_stmt, hmem]
  · rw [Bool.and_eq_true, List.contains_iff_mem, hmem, and_iff_right_iff_imp]
    intro h
    exact hp.isContainer hb houter h
  · intro rights hrights
    rw [parentStar_right houter] at hrights
    obtain ⟨all, hall, hrights⟩ := bind_eq_ok.mp hrights
    cases hrights
    rw [mem_ofStmts_stmt, descendants_eq_ok hall, hp.transGen_contains_iff ha hb]

/-- **Answers about nesting agree** in a program whose links may have been overwritten, if some
effect was worked out with checks. About statements that procedures lead to, the solver of `Parent`
gives all three answers and that of `Parent*` those from inside, whatever checks they make
themselves, and what is given agrees. -/
theorem nesting_agrees {effect : Effect} {σ : Solver} (h : effect.solver p true = .ok σ)
    (ha : p.Reachable a) (hb : p.Reachable b) (check checkStar : Bool) :
    (∃ rights lefts v, (parent p check).right (.stmt a) = .ok rights ∧
      (parent p check).left (.stmt b) = .ok lefts ∧
      (parent p check).holds (.stmt a) (.stmt b) = .ok v ∧
      (v = true ↔ .stmt b ∈ rights) ∧ (v = true ↔ .stmt a ∈ lefts)) ∧
    ∃ lefts v, (parentStar p checkStar).left (.stmt b) = .ok lefts ∧
      (parentStar p checkStar).holds (.stmt a) (.stmt b) = .ok v ∧ (v = true ↔ .stmt a ∈ lefts) ∧
      ∀ rights, (parentStar p checkStar).right (.stmt a) = .ok rights →
        (v = true ↔ .stmt b ∈ rights) := by
  have hp : p.Nested := nested_of_checked fun q proc hq => Effect.checked_of_solver h hq
  obtain ⟨rights, lefts, v, hrights, hlefts, hv, hright, hleft, hholds⟩ :=
    parent_agrees hp ha hb check
  obtain ⟨leftsStar, w, hleftsStar, hw, hleftStar, hholdsStar, hrightStar⟩ :=
    parentStar_agrees hp ha hb checkStar
  refine ⟨⟨rights, lefts, v, hrights, hlefts, hv, ?_, ?_⟩, leftsStar, w, hleftsStar, hw, ?_, ?_⟩
  · rw [hholds, hright]
  · rw [hholds, hleft]
  · rw [hholdsStar, hleftStar]
  · intro rights hrights
    rw [hholdsStar, hrightStar rights hrights]

/-- The example program, but the then-body of its branch runs into the else-body. -/
def mergedProgram : Program := exampleProgram.overwriteNext 3 (some 4)

/-- In a branch whose bodies run into each other, the uses of variables are still worked out. The
second body is nested in the branch according to all answers but the one about everything in the
branch, which is refused. -/
theorem nesting_mergedProgram_agrees :
    (∃ σ, Effect.uses.solver mergedProgram true = .ok σ) ∧
      (parent mergedProgram true).holds (.stmt 2) (.stmt 4) = .ok true ∧
      (∃ rights, (parent mergedProgram false).right (.stmt 2) = .ok rights ∧ .stmt 4 ∈ rights) ∧
      (∃ lefts, (parentStar mergedProgram true).left (.stmt 4) = .ok lefts ∧ .stmt 2 ∈ lefts) ∧
      (parentStar mergedProgram true).right (.stmt 2) = .error (.nestedTwice 5) := by
  have hok : (Effect.uses.solver mergedProgram true).isOk = true := by decide +kernel
  obtain ⟨σ, hσ⟩ : ∃ σ, Effect.uses.solver mergedProgram true = .ok σ := by
    cases hsolver : Effect.uses.solver mergedProgram true with
    | error e =>
      rw [hsolver] at hok
      cases hok
    | ok σ => exact ⟨σ, rfl⟩
  have hbranch : mergedProgram.Reachable 2 :=
    Reachable.first (show mergedProgram.procs[1]? = some ⟨"b", 2⟩ from rfl)
  have hinner : mergedProgram.Reachable 4 := hbranch.body rfl (by decide)
  have hagrees := nesting_agrees hσ hbranch hinner
  have hparent : ∀ check, (parent mergedProgram check).holds (.stmt 2) (.stmt 4) = .ok true := by
    decide +kernel
  have hparentStar : ∀ check, (parentStar mergedProgram check).holds (.stmt 2) (.stmt 4) =
      .ok true := by
    decide +kernel
  refine ⟨⟨σ, hσ⟩, hparent true, ?_, ?_, by decide +kernel⟩
  · obtain ⟨⟨rights, lefts, v, hrights, -, hv, hright, -⟩, -⟩ := hagrees false true
    cases hv.symm.trans (hparent false)
    exact ⟨rights, hrights, hright.mp rfl⟩
  · obtain ⟨-, lefts, v, hlefts, hv, hleft, -⟩ := hagrees false true
    cases hv.symm.trans (hparentStar true)
    exact ⟨lefts, hlefts, hleft.mp rfl⟩

end Solver

end ProgramQuery
