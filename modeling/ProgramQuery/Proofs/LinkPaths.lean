import Mathlib.Data.List.Perm.Subperm
import Mathlib.Logic.Relation
import ProgramQuery.Program.Links
import ProgramQuery.Proofs.ExceptSteps

/-!
# Paths along links

A path along a link lists the statements that are met when the link is followed until it ends. A
path need not exist, because links may lead in a circle or out of the program, but where one exists
it is the only one (`Path.unique`), it meets no statement twice (`Path.nodup`) and so it is no
longer than the program (`Path.length_le`).

What a path meets after its first statement is what the link leads to in one or more steps
(`Path.mem_iff_transGen`). The two ways to follow links both give the path if there is one: a body
is listed as the path along `next` (`chain_eq_of_path`), and a walk is the path along its link
(`walk_eq_of_path`).
-/

set_option autoImplicit false

namespace ProgramQuery.Program

open ExceptSteps

/-- The statements met along a link from a statement on, up to where the link ends. -/
inductive Path (p : Program) (link : Link) : Option StmtId → List StmtId → Prop where
  | done : Path p link none []
  | step {s : StmtId} {stmt : Stmt} {l : List StmtId} (hs : p.stmts[s]? = some stmt)
      (hl : Path p link (link.target stmt) l) : Path p link (some s) (s :: l)

variable {p : Program} {link : Link} {o : Option StmtId} {s t : StmtId} {l m : List StmtId}

/-! ## Shape of a path -/

/-- A statement that is found has a number of the program. -/
theorem lt_size_of_getElem? {stmt : Stmt} (hs : p.stmts[s]? = some stmt) : s < p.stmts.size := by
  obtain ⟨hlt, -⟩ := Array.getElem?_eq_some_iff.mp hs
  exact hlt

/-- Every number of the program is that of a statement. -/
theorem exists_stmt (hs : s < p.stmts.size) : ∃ stmt, p.stmts[s]? = some stmt :=
  ⟨p.stmts[s], Array.getElem?_eq_getElem hs⟩

/-- Where the link has ended, the path is empty. -/
theorem path_none_iff : p.Path link none l ↔ l = [] := by
  constructor
  · intro h
    cases h with
    | done => rfl
  · intro h
    subst h
    exact Path.done

/-- A path from a statement is the statement and the path from where its link leads. -/
theorem path_some_iff {stmt : Stmt} (hs : p.stmts[s]? = some stmt) :
    p.Path link (some s) l ↔ ∃ m, l = s :: m ∧ p.Path link (link.target stmt) m := by
  constructor
  · intro h
    cases h with
    | step hs' hl =>
      rw [hs] at hs'
      cases hs'
      exact ⟨_, rfl, hl⟩
  · rintro ⟨m, rfl, hm⟩
    exact Path.step hs hm

/-- There is one path at most. -/
theorem Path.unique (hl : p.Path link o l) (hm : p.Path link o m) : l = m := by
  induction hl generalizing m with
  | done => exact (path_none_iff.mp hm).symm
  | step hs hl ih =>
    obtain ⟨m', rfl, hm'⟩ := (path_some_iff hs).mp hm
    rw [ih hm']

/-- The statements of a path are in the program. -/
theorem Path.lt_size (hl : p.Path link o l) (hs : s ∈ l) : s < p.stmts.size := by
  induction hl with
  | done => cases hs
  | step ht hl ih =>
    rcases List.mem_cons.mp hs with rfl | hs
    · exact lt_size_of_getElem? ht
    · exact ih hs

/-- From any statement that is met, the rest of the path is the path from there. -/
theorem Path.drop (hl : p.Path link o l) (before after : List StmtId)
    (h : l = before ++ s :: after) : p.Path link (some s) (s :: after) := by
  induction hl generalizing before with
  | done => simp at h
  | step ht hl ih =>
    cases before with
    | nil =>
      obtain ⟨rfl, rfl⟩ := List.cons.inj h
      exact Path.step ht hl
    | cons b before =>
      obtain ⟨-, htail⟩ := List.cons.inj h
      exact ih before htail

/-- A path leads on from each of its statements, through statements that it has itself. -/
theorem Path.of_mem (hl : p.Path link o l) (hs : s ∈ l) :
    ∃ after, p.Path link (some s) (s :: after) ∧ ∀ t ∈ s :: after, t ∈ l := by
  obtain ⟨before, after, rfl⟩ := List.append_of_mem hs
  refine ⟨after, hl.drop before after rfl, ?_⟩
  intro t ht
  exact List.mem_append_right before ht

/-- Where the link of a statement of a path leads is on the path. -/
theorem Path.mem_of_target (hl : p.Path link o l) (hs : s ∈ l) {stmt : Stmt}
    (hstmt : p.stmts[s]? = some stmt) (ht : link.target stmt = some t) : t ∈ l := by
  obtain ⟨after, hafter, hsub⟩ := hl.of_mem hs
  obtain ⟨m, hm, hpath⟩ := (path_some_iff hstmt).mp hafter
  obtain ⟨-, rfl⟩ := List.cons.inj hm
  rw [ht] at hpath
  cases hpath with
  | step _ _ => exact hsub t (by simp)

/-- What a path meets is its beginning, or the link of a statement on the path leads there. -/
theorem Path.eq_or_target (hl : p.Path link o l) (ht : t ∈ l) :
    o = some t ∨ ∃ s stmt, s ∈ l ∧ p.stmts[s]? = some stmt ∧ link.target stmt = some t := by
  induction hl with
  | done => cases ht
  | @step s stmt l hs hl ih =>
    rcases List.mem_cons.mp ht with rfl | ht
    · exact Or.inl rfl
    · right
      rcases ih ht with hfirst | ⟨u, ustmt, hu, hustmt, htarget⟩
      · exact ⟨s, stmt, List.mem_cons_self, hs, hfirst⟩
      · exact ⟨u, ustmt, List.mem_cons_of_mem s hu, hustmt, htarget⟩

/-- A path meets no statement twice: the rest of the path from the two places would be different. -/
theorem Path.nodup (hl : p.Path link o l) : l.Nodup := by
  induction hl with
  | done => exact List.nodup_nil
  | @step s stmt l hs hl ih =>
    refine List.nodup_cons.mpr ⟨?_, ih⟩
    intro hmem
    obtain ⟨before, after, rfl⟩ := List.append_of_mem hmem
    have hagain := hl.drop before after rfl
    have heq := hagain.unique (Path.step hs hl)
    have hlen := congrArg List.length heq
    simp only [List.length_cons, List.length_append] at hlen
    omega

/-- There are no more different numbers below a bound than the bound. -/
theorem length_le_of_nodup_lt {n : Nat} (hl : l.Nodup) (hlt : ∀ s ∈ l, s < n) : l.length ≤ n := by
  have hsub : l ⊆ List.range n := fun s hs => List.mem_range.mpr (hlt s hs)
  simpa using (List.subperm_of_subset hl hsub).length_le

/-- A path has no more statements than the program. -/
theorem Path.length_le (hl : p.Path link o l) : l.length ≤ p.stmts.size :=
  length_le_of_nodup_lt hl.nodup fun _ hs => hl.lt_size hs

/-! ## Following a link in steps -/

/-- The link of the statement `s` leads to `t`. -/
def LinkTo (p : Program) (link : Link) (s t : StmtId) : Prop :=
  ∃ stmt, p.stmts[s]? = some stmt ∧ link.target stmt = some t

/-- A statement with a link is in the program. -/
theorem LinkTo.lt_size (h : p.LinkTo link s t) : s < p.stmts.size := by
  obtain ⟨stmt, hs, -⟩ := h
  exact lt_size_of_getElem? hs

/-- The link of a statement leads where it says. -/
theorem linkTo_iff {stmt : Stmt} (hs : p.stmts[s]? = some stmt) :
    p.LinkTo link s t ↔ link.target stmt = some t := by
  constructor
  · rintro ⟨stmt', hs', ht⟩
    rw [hs] at hs'
    cases hs'
    exact ht
  · intro ht
    exact ⟨stmt, hs, ht⟩

/-- What a path meets is what its link leads to from the beginning, in any number of steps. -/
theorem Path.mem_iff_reflTransGen (hl : p.Path link (some s) l) :
    t ∈ l ↔ Relation.ReflTransGen (p.LinkTo link) s t := by
  constructor
  · intro ht
    generalize ho : some s = o at hl
    induction hl generalizing s with
    | done => cases ht
    | @step u stmt l hu hl ih =>
      cases ho
      rcases List.mem_cons.mp ht with rfl | ht
      · exact Relation.ReflTransGen.refl
      · cases htarget : link.target stmt with
        | none =>
          rw [htarget, path_none_iff] at hl
          rw [hl] at ht
          cases ht
        | some v => exact Relation.ReflTransGen.head ⟨stmt, hu, htarget⟩ (ih ht htarget.symm)
  · intro h
    induction h with
    | refl =>
      cases hl with
      | step _ _ => exact List.mem_cons_self
    | tail _ hstep ih =>
      obtain ⟨stmt, hu, htarget⟩ := hstep
      exact hl.mem_of_target ih hu htarget

/-- **Paths and steps**: what the path from the link of a statement meets is what the link leads to
from the statement in one or more steps. -/
theorem Path.mem_iff_transGen {stmt : Stmt} (hs : p.stmts[s]? = some stmt)
    (hl : p.Path link (link.target stmt) l) :
    t ∈ l ↔ Relation.TransGen (p.LinkTo link) s t := by
  rw [Relation.TransGen.head'_iff]
  constructor
  · intro ht
    cases htarget : link.target stmt with
    | none =>
      rw [htarget, path_none_iff] at hl
      rw [hl] at ht
      cases ht
    | some u =>
      rw [htarget] at hl
      exact ⟨u, ⟨stmt, hs, htarget⟩, hl.mem_iff_reflTransGen.mp ht⟩
  · rintro ⟨u, hu, hut⟩
    rw [(linkTo_iff hs).mp hu] at hl
    exact hl.mem_iff_reflTransGen.mpr hut

/-! ## Listing a body and walking -/

/-- Looking up a statement by number finds the statement of that number. -/
theorem getStmt_eq_ok {stmt : Stmt} : p.getStmt s = .ok stmt ↔ p.stmts[s]? = some stmt := by
  unfold getStmt
  cases p.stmts[s]? with
  | none => simp
  | some other => simp

/-- Listing members gives the path along `next`, if the bound allows for it and the members link
back to the owner when that is checked. -/
theorem chainFrom_eq_of_path {check : Bool} {line : Nat} {owner : Option StmtId} {bound : Nat}
    (hl : p.Path .next o l) (hbound : l.length ≤ bound)
    (hparent : check = true → ∀ s ∈ l, ∀ stmt, p.stmts[s]? = some stmt → stmt.parent = owner) :
    p.chainFrom check line owner bound o = .ok l := by
  induction hl generalizing bound with
  | done => cases bound <;> rfl
  | @step s stmt l hs hl ih =>
    cases bound with
    | zero => simp at hbound
    | succ bound =>
      have hfine : (check && stmt.parent != owner) = false := by
        cases check with
        | false => rfl
        | true => simpa using hparent rfl s List.mem_cons_self stmt hs
      have hrest : p.chainFrom check line owner bound stmt.next = .ok l := by
        apply ih
        · simpa using hbound
        · intro hcheck t ht
          exact hparent hcheck t (List.mem_cons_of_mem s ht)
      unfold chainFrom
      rw [getStmt_eq_ok.mpr hs]
      show (if check && stmt.parent != owner then _ else _) = _
      rw [hfine, hrest]
      rfl

/-- **Listing a body** gives the path along `next` from its first statement, if there is one and its
members link back to the owner when that is checked. -/
theorem chain_eq_of_path {check : Bool} {first : StmtId} {owner : Option StmtId}
    (hl : p.Path .next (some first) l)
    (hparent : check = true → ∀ s ∈ l, ∀ stmt, p.stmts[s]? = some stmt → stmt.parent = owner) :
    p.chain check first owner = .ok l := by
  cases hl with
  | step hs hrest =>
    have hl := Path.step hs hrest
    unfold chain
    rw [getStmt_eq_ok.mpr hs]
    exact chainFrom_eq_of_path hl hl.length_le hparent

/-- Members that were listed are a path along `next`, and they link back if that was checked. -/
theorem chainFrom_eq_ok {check : Bool} {owner : Option StmtId} {line bound : Nat}
    {start : Option StmtId} (h : p.chainFrom check line owner bound start = .ok l) :
    p.Path .next start l ∧
      (check = true → ∀ s ∈ l, ∀ stmt, p.stmts[s]? = some stmt → stmt.parent = owner) := by
  induction bound generalizing start l with
  | zero =>
    cases start with
    | none =>
      cases h
      exact ⟨.done, by simp⟩
    | some s => cases h
  | succ bound ih =>
    cases start with
    | none =>
      cases h
      exact ⟨.done, by simp⟩
    | some s =>
      obtain ⟨stmt, hget, h⟩ := bind_eq_ok.mp h
      have hs := getStmt_eq_ok.mp hget
      split at h
      · cases h
      · rename_i hback
        obtain ⟨more, hmore, h⟩ := bind_eq_ok.mp h
        cases h
        obtain ⟨hpath, hparent⟩ := ih hmore
        refine ⟨.step hs hpath, fun hcheck => List.forall_mem_cons.mpr ⟨?_, hparent hcheck⟩⟩
        intro stmt' hs'
        rw [hs] at hs'
        cases hs'
        simpa [hcheck] using hback

/-- A list that is given out is the path from its first statement, and where it is checked, its
members have the right container. -/
theorem chain_eq_ok {check : Bool} {owner : Option StmtId} {first : StmtId}
    (h : p.chain check first owner = .ok l) :
    p.Path .next (some first) l ∧
      (check = true → ∀ s ∈ l, ∀ stmt, p.stmts[s]? = some stmt → stmt.parent = owner) := by
  obtain ⟨stmt, -, h⟩ := bind_eq_ok.mp h
  exact chainFrom_eq_ok h

/-- Walking gives the path along the link, if the bound allows for it and nothing on the path was
met before. -/
theorem walkFrom_eq_of_path {bound : Nat} {seen : List StmtId} (hl : p.Path link o l)
    (hbound : l.length ≤ bound) (hseen : ∀ s ∈ l, s ∉ seen) :
    p.walkFrom link bound seen o = .ok l := by
  induction hl generalizing bound seen with
  | done => cases bound <;> rfl
  | @step s stmt l hs hl ih =>
    have hnodup := (Path.step hs hl).nodup
    cases bound with
    | zero => simp at hbound
    | succ bound =>
      have hnew : seen.contains s = false := by
        simpa using hseen s List.mem_cons_self
      have hrest : p.walkFrom link bound (s :: seen) (link.target stmt) = .ok l := by
        apply ih
        · simpa using hbound
        · intro t ht hmem
          rcases List.mem_cons.mp hmem with rfl | hmem
          -- a path that came back to `s` would never end
          · exact (List.nodup_cons.mp hnodup).1 ht
          · exact hseen t (List.mem_cons_of_mem s ht) hmem
      unfold walkFrom
      rw [getStmt_eq_ok.mpr hs, hnew]
      show
        (do let more ← p.walkFrom link bound (s :: seen) (link.target stmt); pure (s :: more)) = _
      rw [hrest]
      rfl

/-- **Walking** gives the path along the link if there is one. -/
theorem walk_eq_of_path (hl : p.Path link o l) : p.walk link o = .ok l := by
  unfold walk
  exact walkFrom_eq_of_path hl hl.length_le (by simp)

end ProgramQuery.Program
