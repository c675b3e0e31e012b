import ProgramQuery.Proofs.EffectPaths
import ProgramQuery.Proofs.OverwrittenLinks

/-!
# Effects of programs with overwritten links

Working out an effect goes from lists to containers on them and on to the bodies of the containers,
and nothing keeps count of what was met before. In a program whose links were overwritten a body may
lead back to its own container. With checks this comes to an end all the same: as long as the
members of the lists link back to their containers, the links from container to container lengthen
by one with each list gone into, and they never meet a statement twice (`Path.into_body`). So the
limits on depth and on the number of rounds are of no consequence (`collectBody_depth`,
`table_limit`), whatever the links are.

What is left are faults of the lists themselves. The table is refused exactly when some list that
procedures lead to does not end or has a member that links elsewhere (`table_refused_iff_faulty`).
-/

set_option autoImplicit false

open Relation (ReflTransGen)

namespace ProgramQuery

open ExceptSteps

/-- A refusal that tells of one list: it does not end, or a member of it is misplaced. -/
inductive Inconsistency.OfList : Inconsistency → Prop where
  | endless (line : Nat) : OfList (.endlessList line)
  | misplaced (line : Nat) (listed linked : Option Nat) : OfList (.misplaced line listed linked)

namespace Program

variable {p : Program} {owner : Option StmtId} {s t first : StmtId} {stmt : Stmt}
  {l around : List StmtId} {e : Inconsistency}

/-! ## Lists and their faults -/

/-- What procedures begin with and what `next` links and bodies lead to is in the program. A built
program is like this, and it remains so when links are overwritten (`InRange.overwriteNext`,
`InRange.overwriteParent`). -/
structure InRange (p : Program) : Prop where
  first : ∀ proc ∈ p.procs, proc.first < p.stmts.size
  next : ∀ stmt ∈ p.stmts, ∀ t ∈ stmt.next, t < p.stmts.size
  body : ∀ stmt ∈ p.stmts, ∀ first ∈ stmt.kind.bodies, first < p.stmts.size

/-- Procedures lead to the list that begins with `first` and is in the container `owner`: it is the
list of a procedure, or a body of a container that the list of another body leads to. -/
inductive ReachedList (p : Program) : Option StmtId → StmtId → Prop where
  | proc {q : ProcId} {proc : Proc} (hq : p.procs[q]? = some proc) : ReachedList p none proc.first
  | body {owner : Option StmtId} {first c body : StmtId} {stmt : Stmt}
      (h : ReachedList p owner first) (hc : ReflTransGen (p.LinkTo .next) first c)
      (hstmt : p.stmts[c]? = some stmt)
      (hbody : body ∈ stmt.kind.bodies) : ReachedList p (some c) body

/-- The list from `first` on never ends: wherever it leads, it leads on. -/
def Endless (p : Program) (first : StmtId) : Prop :=
  ∀ s, ReflTransGen (p.LinkTo .next) first s → ∃ t, p.LinkTo .next s t

/-- The list from `first` on never ends, or leads to a statement that does not link back to
`owner`. -/
def Faulty (p : Program) (owner : Option StmtId) (first : StmtId) : Prop :=
  p.Endless first ∨
    ∃ s stmt, ReflTransGen (p.LinkTo .next) first s ∧ p.stmts[s]? = some stmt ∧ stmt.parent ≠ owner

/-- The links of a well-formed program stay within it. -/
theorem WellFormed.inRange (hp : p.WellFormed) : p.InRange := by
  refine ⟨?_, ?_, ?_⟩
  · intro proc hproc
    obtain ⟨q, hq⟩ := Array.mem_iff_getElem?.mp hproc
    exact hp.first_lt q proc hq
  · intro stmt hstmt t ht
    obtain ⟨s, hs⟩ := Array.mem_iff_getElem?.mp hstmt
    exact hp.link_lt .next s t stmt hs ht
  · intro stmt hstmt first hfirst
    obtain ⟨s, hs⟩ := Array.mem_iff_getElem?.mp hstmt
    exact hp.body_lt s first stmt hs hfirst

/-- Changing a statement keeps the program in range, if its bodies stay and its `next` link is in
range. -/
theorem InRange.modify (hp : p.InRange) (s : StmtId) {change : Stmt → Stmt}
    (hnext : ∀ old ∈ p.stmts, ∀ t ∈ (change old).next, t < p.stmts.size)
    (hkind : ∀ old, (change old).kind = old.kind) : InRange ⟨p.procs, p.stmts.modify s change⟩ := by
  have hcases : ∀ stmt ∈ p.stmts.modify s change, stmt ∈ p.stmts ∨
      ∃ old ∈ p.stmts, stmt = change old := by
    intro stmt hstmt
    obtain ⟨t, ht⟩ := Array.mem_iff_getElem?.mp hstmt
    rw [Array.getElem?_modify] at ht
    split at ht
    · obtain ⟨old, hold, rfl⟩ := Option.map_eq_some_iff.mp ht
      exact .inr ⟨old, Array.mem_of_getElem? hold, rfl⟩
    · exact .inl (Array.mem_of_getElem? ht)
  refine ⟨?_, ?_, ?_⟩ <;> rw [Array.size_modify]
  · exact hp.first
  · intro stmt hstmt
    rcases hcases stmt hstmt with hstmt | ⟨old, hold, rfl⟩
    · exact hp.next stmt hstmt
    · exact hnext old hold
  · intro stmt hstmt
    rcases hcases stmt hstmt with hstmt | ⟨old, hold, rfl⟩
    · exact hp.body stmt hstmt
    · rw [hkind]
      exact hp.body old hold

/-- A `next` link may be overwritten with any statement of the program. -/
theorem InRange.overwriteNext (hp : p.InRange) (s : StmtId) {next : Option StmtId}
    (hnext : ∀ t ∈ next, t < p.stmts.size) : (p.overwriteNext s next).InRange :=
  hp.modify s (fun _ _ => hnext) fun _ => rfl

/-- A `parent` link may be overwritten with anything, since no list is followed along it. -/
theorem InRange.overwriteParent (hp : p.InRange) (s : StmtId) (parent : Option StmtId) :
    (p.overwriteParent s parent).InRange :=
  hp.modify s (fun old hold => hp.next old hold) fun _ => rfl

/-- A `next` link leads to a statement of the program. -/
theorem InRange.lt_of_linkTo (hp : p.InRange) (h : p.LinkTo .next s t) : t < p.stmts.size := by
  obtain ⟨stmt, hs, hnext⟩ := h
  exact hp.next stmt (Array.mem_of_getElem? hs) t hnext

/-- Following `next` links does not lead out of the program. -/
theorem InRange.lt_of_steps (hp : p.InRange) (hs : s < p.stmts.size)
    (h : ReflTransGen (p.LinkTo .next) s t) : t < p.stmts.size := by
  induction h with
  | refl => exact hs
  | tail _ hstep _ => exact hp.lt_of_linkTo hstep

/-- A list that procedures lead to begins within the program. -/
theorem InRange.lt_of_reached (hp : p.InRange) (h : p.ReachedList owner first) :
    first < p.stmts.size := by
  cases h with
  | proc hq => exact hp.first _ (Array.mem_of_getElem? hq)
  | body _ _ hstmt hbody => exact hp.body _ (Array.mem_of_getElem? hstmt) _ hbody

/-- A list that has a path along `next` ends with the last statement of the path. -/
theorem Path.not_endless (hl : p.Path .next (some first) l) : ¬ p.Endless first := by
  intro hendless
  generalize ho : some first = o at hl
  induction hl generalizing first with
  | done => cases ho
  | @step s stmt l hs hl ih =>
    cases ho
    obtain ⟨t, ht⟩ := hendless s .refl
    exact ih (fun u hu => hendless u (.head ht hu)) ((linkTo_iff hs).mp ht).symm

/-- A list that comes to an end has a path along `next`. -/
theorem InRange.exists_path (hp : p.InRange) (hfirst : first < p.stmts.size)
    (h : ¬ p.Endless first) :
    ∃ l, p.Path .next (some first) l := by
  unfold Endless at h
  push Not at h
  obtain ⟨s, hs, hlast⟩ := h
  obtain ⟨stmt, hstmt⟩ := exists_stmt (hp.lt_of_steps hfirst hs)
  have hend : stmt.next = none := by
    cases hnext : stmt.next with
    | none => rfl
    | some t => exact absurd ⟨stmt, hstmt, hnext⟩ (hlast t)
  -- from the end of the list backwards
  induction hs using ReflTransGen.head_induction_on with
  | refl =>
    refine ⟨[s], .step hstmt ?_⟩
    rw [Link.target, hend]
    exact .done
  | @head c d hcd _ ih =>
    obtain ⟨m, hm⟩ := ih (hp.lt_of_linkTo hcd)
    obtain ⟨stmt', hc, hnext⟩ := hcd
    refine ⟨c :: m, .step hc ?_⟩
    rw [hnext]
    exact hm

/-- A list that passed the check has no fault. -/
theorem Checked.not_faulty (h : p.Checked owner first) : ¬ p.Faulty owner first := by
  obtain ⟨hl, hparent, -⟩ := h
  rintro (hendless | ⟨s, stmt, hs, hstmt, hne⟩)
  · exact hl.not_endless hendless
  · exact hne (hparent s (hl.mem_iff_reflTransGen.mpr hs) stmt hstmt)

/-- If the lists of procedures are checked ones, then so are all lists that procedures lead to. -/
theorem ReachedList.checked (h : p.ReachedList owner first)
    (hprocs : ∀ (q : ProcId) (proc : Proc), p.procs[q]? = some proc → p.Checked none proc.first) :
    p.Checked owner first := by
  induction h with
  | proc hq => exact hprocs _ _ hq
  | body _ hc hstmt hbody ih =>
    obtain ⟨hl, -, hbodies⟩ := ih
    exact hbodies _ (hl.mem_iff_reflTransGen.mpr hc) _ hstmt _ hbody

/-! ## Listing a body with checks -/

/-- A list that is followed from within the program is refused only for a fault of the list
itself. -/
theorem InRange.ofList_of_chainFrom (hp : p.InRange) {check : Bool} {line bound : Nat}
    (hs : s < p.stmts.size)
    (h : p.chainFrom check line owner bound (some s) = .error e) : e.OfList := by
  induction bound generalizing s with
  | zero =>
    cases h
    exact .endless line
  | succ bound ih =>
    obtain ⟨stmt, hstmt⟩ := exists_stmt hs
    unfold chainFrom at h
    rw [getStmt_eq_ok.mpr hstmt] at h
    change (if check && stmt.parent != owner then _ else _) = _ at h
    split at h
    · cases h
      exact .misplaced _ _ _
    · cases hnext : stmt.next with
      | none =>
        rw [hnext] at h
        cases bound <;> cases h
      | some t =>
        rw [hnext] at h
        rcases bind_eq_error.mp h with h | ⟨more, -, h⟩
        · exact ih (hp.next stmt (Array.mem_of_getElem? hstmt) t hnext) h
        · cases h

/-- **Listing a body is refused** only because of a fault of the list. -/
theorem InRange.faulty_of_chain (hp : p.InRange) {check : Bool} (hfirst : first < p.stmts.size)
    (h : p.chain check first owner = .error e) : e.OfList ∧ p.Faulty owner first := by
  obtain ⟨stmt, hstmt⟩ := exists_stmt hfirst
  have hfrom := h
  unfold chain at hfrom
  rw [getStmt_eq_ok.mpr hstmt] at hfrom
  refine ⟨hp.ofList_of_chainFrom hfirst hfrom, ?_⟩
  by_contra hfine
  unfold Faulty at hfine
  push Not at hfine
  obtain ⟨hends, hparent⟩ := hfine
  obtain ⟨l, hl⟩ := hp.exists_path hfirst hends
  have hok : p.chain check first owner = .ok l := chain_eq_of_path hl fun _ s hs stmt hstmt =>
    hparent s stmt (hl.mem_iff_reflTransGen.mp hs) hstmt
  cases h.symm.trans hok

/-- One more container is around the bodies of a member than around the list, if members link
back. -/
theorem Path.into_body (haround : p.Path .parent owner around)
    (hchain : p.chain true first owner = .ok l) (hs : s ∈ l)
    (hstmt : p.stmts[s]? = some stmt) : p.Path .parent (some s) (s :: around) := by
  refine .step hstmt ?_
  rw [Link.target, (chain_eq_ok hchain).2 rfl s hs stmt hstmt]
  exact haround

end Program

namespace Effect

open Program

variable {effect : Effect} {procVars procVars' : ProcId → Vars} {p : Program} {check : Bool}
  {owner : Option StmtId} {s first : StmtId} {stmt : Stmt} {l around : List StmtId}
  {depth depth' : Nat} {found : Found} {e : Inconsistency} {x : String}

/-! ## Going through lists -/

/-- Only what is collected from the elements matters. -/
theorem collectAll_congr {α : Type} {collect collect' : α → Except Inconsistency Found}
    {as : List α}
    (h : ∀ a ∈ as, collect a = collect' a) : collectAll collect as = collectAll collect' as := by
  induction as with
  | nil => rfl
  | cons a as ih =>
    unfold collectAll
    rw [h a List.mem_cons_self, ih fun b hb => h b (List.mem_cons_of_mem a hb)]

/-- Collecting from a list fails where collecting from one of its elements does. -/
theorem collectAll_eq_error {α : Type} {collect : α → Except Inconsistency Found} {as : List α}
    (h : collectAll collect as = .error e) : ∃ a ∈ as, collect a = .error e := by
  induction as with
  | nil => cases h
  | cons a as ih =>
    rcases bind_eq_error.mp h with h | ⟨part, -, h⟩
    · exact ⟨a, List.mem_cons_self, h⟩
    · rcases bind_eq_error.mp h with h | ⟨more, -, h⟩
      · obtain ⟨b, hb, h⟩ := ih h
        exact ⟨b, List.mem_cons_of_mem a hb, h⟩
      · cases h

/-- **The limit on depth is of no consequence** when links back to containers are checked: it allows
for all containers around the list together with those that can still be met. -/
theorem collectBody_depth (haround : p.Path .parent owner around)
    (hdepth : p.stmts.size < around.length + depth)
    (hdepth' : p.stmts.size < around.length + depth') :
    effect.collectBody procVars p true depth first owner =
      effect.collectBody procVars p true depth' first owner := by
  have hlen := haround.length_le
  induction depth generalizing depth' first owner around with
  | zero => omega
  | succ depth ih =>
    obtain ⟨depth', rfl⟩ : ∃ d, depth' = d + 1 := ⟨depth' - 1, by omega⟩
    cases hchain : p.chain true first owner with
    | error e =>
      unfold collectBody
      rw [hchain]
      rfl
    | ok l =>
      rw [collectBody_eq hchain, collectBody_eq hchain]
      refine collectAll_congr fun s hs => ?_
      obtain ⟨stmt, hstmt⟩ := exists_stmt ((chain_eq_ok hchain).1.lt_size hs)
      have hinto := haround.into_body hchain hs hstmt
      rw [collectStmt_eq hstmt, collectStmt_eq hstmt]
      congr 1
      refine collectAll_congr fun body _ => ih hinto ?_ ?_ hinto.length_le
      · rw [List.length_cons]
        omega
      · rw [List.length_cons]
        omega

/-- **Going through a list is refused** only because of a fault of a list that it leads to. -/
theorem faulty_of_collectBody (hp : p.InRange) (hreached : p.ReachedList owner first)
    (haround : p.Path .parent owner around) (hdepth : p.stmts.size < around.length + depth)
    (h : effect.collectBody procVars p true depth first owner = .error e) :
    e.OfList ∧ ∃ owner first, p.ReachedList owner first ∧ p.Faulty owner first := by
  induction depth generalizing first owner around with
  | zero =>
    have := haround.length_le
    omega
  | succ depth ih =>
    cases hchain : p.chain true first owner with
    | error e' =>
      unfold collectBody at h
      rw [hchain] at h
      cases h
      obtain ⟨hlist, hfaulty⟩ := hp.faulty_of_chain (hp.lt_of_reached hreached) hchain
      exact ⟨hlist, owner, first, hreached, hfaulty⟩
    | ok l =>
      rw [collectBody_eq hchain] at h
      obtain ⟨s, hs, h⟩ := collectAll_eq_error h
      have hl := (chain_eq_ok hchain).1
      obtain ⟨stmt, hstmt⟩ := exists_stmt (hl.lt_size hs)
      rw [collectStmt_eq hstmt] at h
      rcases bind_eq_error.mp h with h | ⟨inner, -, h⟩
      · obtain ⟨body, hbody, h⟩ := collectAll_eq_error h
        refine ih (hreached.body (hl.mem_iff_reflTransGen.mp hs) hstmt hbody)
          (haround.into_body hchain hs hstmt) ?_ h
        rw [List.length_cons]
        omega
      · cases h

/-! ## Rounds -/

variable {before after : List Vars} {table table' : Table} {q : ProcId}

/-- Rounds are refused only because one of them is. -/
theorem exists_round_of_rounds {bound : Nat} (h : effect.rounds p check bound before = .error e) :
    ∃ before, effect.round p check before = .error e := by
  induction bound generalizing before with
  | zero => exact ⟨before, h⟩
  | succ bound ih =>
    rcases bind_eq_error.mp h with h | ⟨table, -, h⟩
    · exact ⟨before, h⟩
    · split at h
      · cases h
      · exact ih h

/-- **A round is refused** only because of a fault of a list that procedures lead to. -/
theorem faulty_of_round (hp : p.InRange) (h : effect.round p true before = .error e) :
    e.OfList ∧ ∃ owner first, p.ReachedList owner first ∧ p.Faulty owner first := by
  rcases bind_eq_error.mp h with h | ⟨founds, -, h⟩
  · obtain ⟨before, proc, after, hprocs, -, h⟩ := mapM_eq_error h
    have hproc : proc ∈ p.procs.toList := by simp [hprocs]
    obtain ⟨q, hq⟩ := List.mem_iff_getElem?.mp hproc
    exact faulty_of_collectBody hp (.proc (by simpa using hq)) .done (by simp) h
  · cases h

/-! ## The table -/

/-- A table is refused only because of a fault of a list that procedures lead to. -/
theorem faulty_of_table (hp : p.InRange) (h : effect.table p true = .error e) :
    e.OfList ∧ ∃ owner first, p.ReachedList owner first ∧ p.Faulty owner first := by
  obtain ⟨before, hround⟩ := exists_round_of_rounds h
  exact faulty_of_round hp hround

/-- A table that was worked out has gone through all lists that procedures lead to, and they have no
faults. -/
theorem not_faulty_of_table (h : effect.table p true = .ok table)
    (hreached : p.ReachedList owner first) :
    ¬ p.Faulty owner first := by
  obtain ⟨first, hround, -⟩ := bind_eq_ok.mp h
  exact (hreached.checked fun q proc hq => checked_of_round hround hq).not_faulty

/-- **Effects with checks** are worked out or refused in any program, however its links were
overwritten, within limits that are of no consequence: the depth that a list is gone into, and the
number of rounds, which end because a further round does not change anything. They are refused, with
a fault of a list, exactly when procedures lead to a list that never ends or has a member that does
not link back to the container of the list. -/
theorem table_refused_iff_faulty (effect : Effect) (hp : p.InRange) :
    (∀ (procVars : ProcId → Vars) (q : ProcId) (proc : Proc), p.procs[q]? = some proc →
      ∀ depth, p.stmts.size < depth → effect.collectBody procVars p true depth proc.first none =
        effect.collectBody procVars p true (p.stmts.size + 1) proc.first none) ∧
    (∀ bound, p.procs.size * p.stmtVars.size < bound →
      effect.rounds p true bound (List.replicate p.procs.size ∅) = effect.table p true) ∧
    (∀ table, effect.table p true = .ok table → effect.round p true table.procs = .ok table) ∧
    (∀ e, effect.table p true = .error e → e.OfList) ∧
    ((∃ e, effect.table p true = .error e) ↔
      ∃ owner first, p.ReachedList owner first ∧ p.Faulty owner first) := by
  obtain ⟨hrounds, hfixed⟩ := table_limit effect p true
  refine ⟨?_, hrounds, hfixed, fun e he => (faulty_of_table hp he).1, ?_, ?_⟩
  · intro procVars q proc _ depth hdepth
    exact collectBody_depth .done (by simpa using hdepth) (by simp)
  · rintro ⟨e, he⟩
    exact (faulty_of_table hp he).2
  · rintro ⟨owner, first, hreached, hfaulty⟩
    cases htable : effect.table p true with
    | error e => exact ⟨e, rfl⟩
    | ok table => exact absurd hfaulty (not_faulty_of_table htable hreached)

/-- The example program, but the then-body of its branch leads back to the branch, and the branch
links to itself as if it were in its own body. -/
def reenteredProgram : Program :=
  (exampleProgram.overwriteNext 3 (some 2)).overwriteParent 2 (some 2)

/-- The links of the overwritten program stay within it. -/
theorem inRange_reenteredProgram : reenteredProgram.InRange :=
  (built_exampleProgram.wellFormed.inRange.overwriteNext 3 (by decide)).overwriteParent 2 (some 2)

/-- A branch whose body leads back to it could be gone into without end, because the body has no
fault. Its effects are refused all the same: the list of the procedure that leads to the branch is
at fault. -/
theorem table_reenteredProgram_refused :
    reenteredProgram.InRange ∧ reenteredProgram.ReachedList (some 2) 3 ∧
      ¬ reenteredProgram.Faulty (some 2) 3 ∧
      ∀ effect : Effect, ∃ e, effect.table reenteredProgram true = .error e ∧ e.OfList := by
  have hbranch : reenteredProgram.ReachedList none 2 :=
    .proc (show reenteredProgram.procs[1]? = some ⟨"b", 2⟩ from rfl)
  have hbody : reenteredProgram.ReachedList (some 2) 3 := hbranch.body .refl rfl (by decide)
  have hback : reenteredProgram.Path .next (some 3) [3, 2] := .step rfl (.step rfl .done)
  have hfine : ¬ reenteredProgram.Faulty (some 2) 3 := by
    rintro (hendless | ⟨s, stmt, hs, hstmt, hne⟩)
    · exact hback.not_endless hendless
    · have hmem := hback.mem_iff_reflTransGen.mpr hs
      simp only [List.mem_cons, List.not_mem_nil, or_false] at hmem
      rcases hmem with rfl | rfl <;> cases hstmt <;> exact hne rfl
  have hfaulty : reenteredProgram.Faulty none 2 := .inr ⟨2, _, .refl, rfl, by decide⟩
  refine ⟨inRange_reenteredProgram, hbody, hfine, fun effect => ?_⟩
  obtain ⟨-, -, -, hlist, hiff⟩ := table_refused_iff_faulty effect inRange_reenteredProgram
  obtain ⟨e, he⟩ := hiff.mpr ⟨none, 2, hbranch, hfaulty⟩
  exact ⟨e, he, hlist e he⟩

/-- Without checks the branch is gone into as far as the limit allows. -/
example : Effect.uses.table reenteredProgram false = .error (.endlessNesting 3) := rfl

end Effect

end ProgramQuery
