import Mathlib.Order.Bounds.Basic
import ProgramQuery.Proofs.EffectGrowth

/-!
# Effects and paths of execution

Running a procedure may run the statements of its list, running a container those of its bodies, and
running a call the called procedure (`Program.Leads`). A statement or procedure has an effect on a
variable if some path of such steps leads to a statement that has the effect itself
(`Program.Affects`). Call graphs are arbitrary, so paths may go round in circles.

The table of an effect holds exactly these pairs (`exact_rounds`). No round finds more than there
are paths for (`Sound.round`). The rounds end (`table_limit`), and once they do, the table is closed
under steps, so every path has been followed (`finds_of_affects`).
-/

set_option autoImplicit false

open Relation (ReflTransGen)

namespace ProgramQuery

/-! ## Paths of execution -/

/-- The variable `x` occurs in an expression. -/
inductive Expr.Mentions (x : String) : Expr → Prop where
  | var : Expr.Mentions x (.var x)
  | lhs {op : Operator} {lhs rhs : Expr} (h : Expr.Mentions x lhs) :
      Expr.Mentions x (.binary op lhs rhs)
  | rhs {op : Operator} {lhs rhs : Expr} (h : Expr.Mentions x rhs) :
      Expr.Mentions x (.binary op lhs rhs)

/-- The variables of an expression are those that occur in it. -/
theorem Expr.mem_vars_iff {x : String} {e : Expr} : x ∈ e.vars ↔ e.Mentions x := by
  constructor
  · intro h
    induction e with
    | var name =>
      rw [Expr.mem_vars_var] at h
      subst h
      exact Mentions.var
    | const value => exact absurd h Expr.mem_vars_const
    | binary op lhs rhs ihl ihr =>
      rcases Expr.mem_vars_binary.mp h with h | h
      · exact Mentions.lhs (ihl h)
      · exact Mentions.rhs (ihr h)
  · intro h
    induction h with
    | var => exact Expr.mem_vars_var.mpr rfl
    | lhs _ ih => exact Expr.mem_vars_binary.mpr (Or.inl ih)
    | rhs _ ih => exact Expr.mem_vars_binary.mpr (Or.inr ih)

namespace Program

/-- One step of running: from a procedure to a member of its list, from a container to a member of
one of its bodies, and from a call to the called procedure. -/
inductive Leads (p : Program) : Condition → Condition → Prop where
  | enter {q : ProcId} {s : StmtId} (h : p.OnList (.ofProc q) s) : Leads p (.proc q) (.stmt s)
  | descend {c s : StmtId} {slot : Nat} (h : p.OnList (.ofBody c slot) s) :
      Leads p (.stmt c) (.stmt s)
  | call {s : StmtId} {stmt : Stmt} {q : ProcId} (hs : p.stmts[s]? = some stmt)
      (hcall : stmt.kind = .call q) : Leads p (.stmt s) (.proc q)

/-- A statement has an effect on a variable itself: it assigns to it, or it reads it in the
expression of an assignment or as its condition. -/
inductive Touches (p : Program) : Effect → Condition → String → Prop where
  | target {s : StmtId} {stmt : Stmt} {x : String} {value : Expr} (hs : p.stmts[s]? = some stmt)
      (hkind : stmt.kind = .assign x value) : Touches p .modifies (.stmt s) x
  | operand {s : StmtId} {stmt : Stmt} {target x : String} {value : Expr}
      (hs : p.stmts[s]? = some stmt) (hkind : stmt.kind = .assign target value)
      (hx : value.Mentions x) : Touches p .uses (.stmt s) x
  | branch {s : StmtId} {stmt : Stmt} {x : String} {thenFirst elseFirst : StmtId}
      (hs : p.stmts[s]? = some stmt) (hkind : stmt.kind = .branch x thenFirst elseFirst) :
      Touches p .uses (.stmt s) x
  | loop {s : StmtId} {stmt : Stmt} {x : String} {first : StmtId} (hs : p.stmts[s]? = some stmt)
      (hkind : stmt.kind = .loop x first) : Touches p .uses (.stmt s) x

/-- Some path from `a` leads to a statement that has the effect on `x` itself. -/
def Affects (p : Program) (effect : Effect) (a : Condition) (x : String) : Prop :=
  ∃ b, ReflTransGen p.Leads a b ∧ p.Touches effect b x

variable {p : Program} {effect : Effect} {a b : Condition} {x : String} {s : StmtId}

/-- Only statements have an effect on a variable themselves. -/
theorem Touches.exists_stmt (h : p.Touches effect a x) :
    ∃ s stmt, a = .stmt s ∧ p.stmts[s]? = some stmt := by
  cases h with
  | target hs _ => exact ⟨_, _, rfl, hs⟩
  | operand hs _ _ => exact ⟨_, _, rfl, hs⟩
  | branch hs _ => exact ⟨_, _, rfl, hs⟩
  | loop hs _ => exact ⟨_, _, rfl, hs⟩

/-- What a statement has an effect on itself, it affects. -/
theorem Touches.affects (h : p.Touches effect a x) : p.Affects effect a x := ⟨a, .refl, h⟩

/-- What leads to something that affects a variable affects it too. -/
theorem Affects.head (hab : p.Leads a b) (h : p.Affects effect b x) : p.Affects effect a x := by
  obtain ⟨c, hbc, hc⟩ := h
  exact ⟨c, .head hab hbc, hc⟩

/-- Something affects a variable itself, or by what it leads to. -/
theorem affects_iff :
    p.Affects effect a x ↔ p.Touches effect a x ∨ ∃ b, p.Leads a b ∧ p.Affects effect b x := by
  constructor
  · rintro ⟨c, hac, hc⟩
    rcases Relation.ReflTransGen.cases_head hac with rfl | ⟨b, hab, hbc⟩
    · exact Or.inl hc
    · exact Or.inr ⟨b, hab, c, hbc, hc⟩
  · rintro (h | ⟨b, hab, h⟩)
    · exact h.affects
    · exact h.head hab

/-- The variables that a statement names: those that it has the effect on itself, and for a call
those of the called procedure. -/
theorem mem_ownVars {procVars : ProcId → Effect.Vars} {stmt : Stmt}
    (hs : p.stmts[s]? = some stmt) :
    x ∈ effect.ownVars procVars stmt.kind ↔
      p.Touches effect (.stmt s) x ∨ ∃ q, stmt.kind = .call q ∧ x ∈ procVars q := by
  constructor
  · intro h
    cases hkind : stmt.kind with
    | assign target value =>
      left
      rw [hkind] at h
      cases effect with
      | modifies =>
        have hx : x = target := SortedSet.mem_singleton.mp h
        subst hx
        exact Touches.target hs hkind
      | uses => exact Touches.operand hs hkind (Expr.mem_vars_iff.mp h)
    | call q =>
      rw [hkind] at h
      exact Or.inr ⟨q, rfl, h⟩
    | branch cond thenFirst elseFirst =>
      left
      rw [hkind] at h
      cases effect with
      | modifies => exact absurd h SortedSet.not_mem_empty
      | uses =>
        have hx : x = cond := SortedSet.mem_singleton.mp h
        subst hx
        exact Touches.branch hs hkind
    | loop cond first =>
      left
      rw [hkind] at h
      cases effect with
      | modifies => exact absurd h SortedSet.not_mem_empty
      | uses =>
        have hx : x = cond := SortedSet.mem_singleton.mp h
        subst hx
        exact Touches.loop hs hkind
  · rintro (h | ⟨q, hkind, hx⟩)
    · cases h with
      | target hs' hkind =>
        rw [hs] at hs'
        cases hs'
        rw [hkind]
        exact SortedSet.mem_singleton.mpr rfl
      | operand hs' hkind hx =>
        rw [hs] at hs'
        cases hs'
        rw [hkind]
        exact Expr.mem_vars_iff.mpr hx
      | branch hs' hkind =>
        rw [hs] at hs'
        cases hs'
        rw [hkind]
        exact SortedSet.mem_singleton.mpr rfl
      | loop hs' hkind =>
        rw [hs] at hs'
        cases hs'
        rw [hkind]
        exact SortedSet.mem_singleton.mpr rfl
    · rw [hkind]
      exact hx

/-- A variable that something has an effect on is named by a statement. -/
theorem Affects.mem_stmtVars (h : p.Affects effect a x) : x ∈ p.stmtVars := by
  obtain ⟨b, -, hb⟩ := h
  rw [Program.mem_stmtVars]
  cases hb with
  | target hs hkind =>
    refine ⟨_, _, hs, ?_⟩
    rw [hkind]
    exact SortedSet.mem_insert.mpr (Or.inl rfl)
  | operand hs hkind hx =>
    refine ⟨_, _, hs, ?_⟩
    rw [hkind]
    exact SortedSet.mem_insert.mpr (Or.inr (Expr.mem_vars_iff.mpr hx))
  | branch hs hkind =>
    refine ⟨_, _, hs, ?_⟩
    rw [hkind]
    exact SortedSet.mem_singleton.mpr rfl
  | loop hs hkind =>
    refine ⟨_, _, hs, ?_⟩
    rw [hkind]
    exact SortedSet.mem_singleton.mpr rfl

end Program

/-! ## The rounds -/

namespace Effect

open Program

variable {p : Program} {effect : Effect} {before after : List Vars} {table : Table} {s : StmtId}
  {x : String}

/-- Nothing was found that there is no path for. -/
def Sound (effect : Effect) (p : Program) (before : List Vars) : Prop :=
  ∀ q x, x ∈ varsAt before q → p.Affects effect (.proc q) x

/-- What a statement names, with calls resolved by a sound table, it affects. -/
theorem Sound.affects (hsound : effect.Sound p before) (hp : p.WellFormed)
    (h : effect.Reads (varsAt before) p s x) : p.Affects effect (.stmt s) x := by
  obtain ⟨t, stmt, hst, ht, hx⟩ := h
  have hself : p.Affects effect (.stmt t) x := by
    rcases (mem_ownVars ht).mp hx with htouch | ⟨q, hcall, hx⟩
    · exact htouch.affects
    · exact (hsound q x hx).head (Leads.call ht hcall)
  induction hst using Relation.ReflTransGen.head_induction_on with
  | refl => exact hself
  | head hcs _ ih =>
    obtain ⟨slot, hon⟩ := hp.inside_iff.mp hcs
    exact ih.head (Leads.descend hon)

/-- Only the procedures of the program have variables in a table. -/
theorem Table.Describes.lt_size {q : ProcId} (htable : table.Describes effect before p)
    (hx : x ∈ varsAt table.procs q) : q < p.procs.size := by
  by_contra hq
  have hlen : table.procs.length ≤ q := by
    rw [htable.length_eq]
    exact Nat.le_of_not_lt hq
  simp [varsAt, List.getElem?_eq_none hlen] at hx

/-- **No round finds more** than there are paths for. -/
theorem Sound.round (hsound : effect.Sound p before) (hp : p.WellFormed)
    (htable : table.Describes effect before p) : effect.Sound p table.procs := by
  intro q x hx
  obtain ⟨s, hon, hreads⟩ := (htable.mem_proc q (htable.lt_size hx) x).mp hx
  exact (hsound.affects hp hreads).head (Leads.enter hon)

/-! ## The table -/

/-- What is found about a statement or a procedure, on given variables of procedures. -/
def Finds (effect : Effect) (p : Program) (before : List Vars) : Condition → String → Prop
  | .stmt s, x => effect.Reads (varsAt before) p s x
  | .proc q, x => x ∈ varsAt before q
  | .var _, _ => False
  | .const _, _ => False

/-- **Every path has been followed** in a table that a further round does not change. -/
theorem finds_of_affects {a : Condition} (hp : p.WellFormed)
    (htable : table.Describes effect table.procs p) (h : p.Affects effect a x) :
    effect.Finds p table.procs a x := by
  obtain ⟨b, hab, hb⟩ := h
  -- from the end of the path backwards
  induction hab using Relation.ReflTransGen.head_induction_on with
  | refl =>
    obtain ⟨s, stmt, rfl, hs⟩ := hb.exists_stmt
    exact (reads_iff hs).mpr (Or.inl ((mem_ownVars hs).mpr (Or.inl hb)))
  | head hstep _ ih =>
    cases hstep with
    | enter hon => exact (htable.mem_proc _ hon.owner_lt x).mpr ⟨_, hon, ih⟩
    | descend hon =>
      obtain ⟨stmt, hc⟩ := exists_stmt hon.container_lt
      exact (reads_iff hc).mpr (Or.inr ⟨_, hp.inside_iff.mpr ⟨_, hon⟩, ih⟩)
    | call hs hcall =>
      exact (reads_iff hs).mpr (Or.inl ((mem_ownVars hs).mpr (Or.inr ⟨_, hcall, ih⟩)))

/-- A table holds exactly the effects that there are paths for. -/
structure Table.Exact (effect : Effect) (p : Program) (table : Table) : Prop where
  length_eq : table.procs.length = p.procs.size
  mem_proc : ∀ q x, x ∈ varsAt table.procs q ↔ p.Affects effect (.proc q) x
  mem_entry : ∀ s vars, (s, vars) ∈ table.stmts → ∀ x, x ∈ vars ↔ p.Affects effect (.stmt s) x
  has_entry : ∀ s, (∃ vars, (s, vars) ∈ table.stmts) ↔ s < p.stmts.size

/-- Rounds are made, whatever the limit on them, and find no more than there are paths for. -/
theorem exists_rounds (hp : p.WellFormed) (bound : Nat) (hsound : effect.Sound p before) :
    ∃ table : Table, (∀ check, effect.rounds p check bound before = .ok table) ∧
      effect.Sound p table.procs := by
  induction bound generalizing before with
  | zero =>
    obtain ⟨table, hround, htable⟩ := describes_round effect hp before
    exact ⟨table, hround, hsound.round hp htable⟩
  | succ bound ih =>
    obtain ⟨table, hround, htable⟩ := describes_round effect hp before
    have hsound' := hsound.round hp htable
    by_cases hfix : table.procs = before
    · exact ⟨table, fun check => (rounds_succ (hround check)).trans (if_pos hfix), hsound'⟩
    · obtain ⟨last, hlast, hsoundLast⟩ := ih hsound'
      refine ⟨last, fun check => ?_, hsoundLast⟩
      rw [rounds_succ (hround check), if_neg hfix, hlast check]

/-- **The table is exact**, any sufficient number of rounds gives it, and a further round does not
change it. -/
theorem exact_rounds (effect : Effect) (hp : p.WellFormed) :
    ∃ table : Table,
      (∀ check bound, p.procs.size * p.stmtVars.size < bound →
        effect.rounds p check bound (List.replicate p.procs.size ∅) = .ok table) ∧
      (∀ check, effect.round p check table.procs = .ok table) ∧ table.Exact effect p := by
  have hnone : effect.Sound p (List.replicate p.procs.size ∅) :=
    fun q x hx => absurd hx not_mem_varsAt_replicate
  obtain ⟨table, hmade, hsound⟩ := exists_rounds hp (p.procs.size * p.stmtVars.size + 1) hnone
  have hround : ∀ check, effect.round p check table.procs = .ok table :=
    fun check => (table_limit effect p check).2 table (hmade check)
  -- the round that changes nothing describes the table by the table itself
  obtain ⟨next, hnext, htable⟩ := describes_round effect hp table.procs
  cases (hround true).symm.trans (hnext true)
  refine ⟨table, ?_, hround, htable.length_eq, ?_, ?_, htable.has_entry⟩
  · intro check bound hbound
    exact ((table_limit effect p check).1 bound hbound).trans (hmade check)
  · intro q x
    exact ⟨hsound q x, fun h => finds_of_affects hp htable h⟩
  · intro s vars hmem x
    rw [htable.mem_entry s vars hmem]
    exact ⟨hsound.affects hp, fun h => finds_of_affects hp htable h⟩

end Effect

end ProgramQuery
