import ProgramQuery.Proofs.EffectPaths
import ProgramQuery.Proofs.SolverAnswers

/-!
# Answers about effects

The solver of an effect answers from the table of the effect. The table is exact, so the solver
decides which statements and procedures have the effect on which variables (`decides_solver`).

Having an effect is the least solution of the equations that say where effects come from
(`Program.isLeast_affects`): a statement has those of its own and those of what it leads to. So this
is what the answers of the solver are (`solver_right_isLeast`).
-/

set_option autoImplicit false

namespace ProgramQuery

/-! ## Least solutions -/

namespace Program

/-- The equations of an effect: `a` has it on `x` if it has it on `x` itself, or leads to something
that has it on `x`. -/
def Solves (p : Program) (effect : Effect) (S : Condition → String → Prop) : Prop :=
  ∀ a x, S a x ↔ p.Touches effect a x ∨ ∃ b, p.Leads a b ∧ S b x

/-- The effects that there are paths for are the least solution of the equations. -/
theorem isLeast_affects (p : Program) (effect : Effect) :
    IsLeast {S | p.Solves effect S} (p.Affects effect) := by
  refine ⟨fun a x => affects_iff, ?_⟩
  rintro S hS a x ⟨b, hab, hb⟩
  -- a solution holds at the end of a path, hence at each step before it
  induction hab using Relation.ReflTransGen.head_induction_on with
  | refl => exact (hS b x).mpr (Or.inl hb)
  | head hstep _ ih => exact (hS _ x).mpr (Or.inr ⟨_, hstep, ih⟩)

variable {p : Program} {effect : Effect} {a : Condition} {x : String}

/-- Only statements and procedures of the program have effects. -/
theorem Affects.of_program (h : p.Affects effect a x) :
    a.In p ∧ ((∃ s, a = .stmt s) ∨ ∃ q, a = .proc q) := by
  rcases affects_iff.mp h with htouch | ⟨b, hstep, -⟩
  · obtain ⟨s, stmt, rfl, hs⟩ := htouch.exists_stmt
    exact ⟨lt_size_of_getElem? hs, Or.inl ⟨s, rfl⟩⟩
  · cases hstep with
    | enter hon => exact ⟨hon.owner_lt, Or.inr ⟨_, rfl⟩⟩
    | descend hon => exact ⟨hon.container_lt, Or.inl ⟨_, rfl⟩⟩
    | call hs hcall => exact ⟨lt_size_of_getElem? hs, Or.inl ⟨_, rfl⟩⟩

/-- Running `a` may have the effect on the variable `c`. -/
def HasEffect (p : Program) (effect : Effect) (a c : Condition) : Prop :=
  ∃ x, c = .var x ∧ p.Affects effect a x

/-- Of the conditions, a program has an effect on variables only. -/
@[simp] theorem hasEffect_var : p.HasEffect effect a (.var x) ↔ p.Affects effect a x := by
  simp [HasEffect]

end Program

/-! ## Answers from a table -/

namespace Effect

variable {p : Program} {effect : Effect} {table : Table} {s : StmtId} {q : ProcId}

/-- Asked about a statement of the program, an exact table gives the variables that it affects. -/
theorem Table.Exact.varsOfStmt (htable : table.Exact effect p) (hs : s < p.stmts.size) :
    ∃ vars, table.varsOfStmt s = .ok vars ∧ ∀ x, x ∈ vars ↔ p.Affects effect (.stmt s) x := by
  obtain ⟨vars, hentry⟩ := (htable.has_entry s).mpr hs
  have hsome : (table.stmts.lookup s).isSome = true :=
    List.lookup_isSome_iff.mpr ⟨(s, vars), hentry, by simp⟩
  obtain ⟨first, hfirst⟩ := Option.isSome_iff_exists.mp hsome
  obtain ⟨before, after, heq, -⟩ := List.lookup_eq_some_iff.mp hfirst
  refine ⟨first, ?_, ?_⟩
  · unfold Table.varsOfStmt
    rw [hfirst]
  · have hmem : (s, first) ∈ table.stmts := by
      rw [heq]
      simp
    exact htable.mem_entry s first hmem

/-- Asked about a procedure of the program, an exact table gives the variables that it affects. -/
theorem Table.Exact.varsOfProc (htable : table.Exact effect p) (hq : q < p.procs.size) :
    ∃ vars, table.varsOfProc q = .ok vars ∧ ∀ x, x ∈ vars ↔ p.Affects effect (.proc q) x := by
  have hlen : q < table.procs.length := by
    rw [htable.length_eq]
    exact hq
  refine ⟨table.procs[q], ?_, ?_⟩
  · unfold Table.varsOfProc
    rw [List.getElem?_eq_getElem hlen]
  · intro x
    rw [← htable.mem_proc q x]
    simp [varsAt, hlen]

/-- Asked about a variable, an exact table gives what affects it. -/
theorem Table.Exact.mem_having (htable : table.Exact effect p) {x : String} {a : Condition} :
    a ∈ table.having x ↔ p.Affects effect a x := by
  have hproc : ∀ q vars, table.procs[q]? = some vars →
      (x ∈ vars ↔ p.Affects effect (.proc q) x) := by
    intro q vars hget
    rw [← htable.mem_proc q x]
    simp [varsAt, hget]
  unfold Table.having
  simp only [SortedSet.mem_ofList, List.mem_append, List.mem_map, List.mem_filter, Prod.exists,
    SortedSet.contains_iff, List.mk_mem_zipIdx_iff_getElem?]
  constructor
  · rintro (⟨s, vars, ⟨hentry, hx⟩, rfl⟩ | ⟨vars, q, ⟨hget, hx⟩, rfl⟩)
    · exact (htable.mem_entry s vars hentry x).mp hx
    · exact (hproc q vars hget).mp hx
  · intro h
    obtain ⟨hin, ⟨s, rfl⟩ | ⟨q, rfl⟩⟩ := h.of_program
    · left
      obtain ⟨vars, hentry⟩ := (htable.has_entry s).mpr hin
      exact ⟨s, vars, ⟨hentry, (htable.mem_entry s vars hentry x).mpr h⟩, rfl⟩
    · right
      have hlen : q < table.procs.length := by
        rw [htable.length_eq]
        exact hin
      have hget := List.getElem?_eq_getElem hlen
      exact ⟨table.procs[q], q, ⟨hget, (hproc q _ hget).mpr h⟩, rfl⟩

/-- Variables that are exactly those affected answer both questions about a left argument. -/
theorem answers_of_vars {a : Condition} {vars : Vars} (hvars : ∀ x, x ∈ vars ↔ p.Affects effect a x)
    (c : Condition) : (c ∈ ConditionSet.ofVars vars.toList ↔ p.HasEffect effect a c) ∧
      (Table.isVarOf vars c = true ↔ p.HasEffect effect a c) := by
  cases c with
  | var x => simp [Table.isVarOf, hvars]
  | stmt s => simp [Table.isVarOf, Program.HasEffect]
  | proc q => simp [Table.isVarOf, Program.HasEffect]
  | const k => simp [Table.isVarOf, Program.HasEffect]

/-- **A solver with an exact table** decides the effect. -/
theorem Table.Exact.decides (htable : table.Exact effect p) :
    (table.solver p).Decides p (p.HasEffect effect) := by
  apply Solver.Cases.Answers.decides
  refine ⟨?_, ?_, ?_, ?_, ?_, ?_, ?_, ?_, ?_, ?_, ?_⟩
  · intro s stmt hs
    obtain ⟨vars, hget, hvars⟩ := htable.varsOfStmt (Program.lt_size_of_getElem? hs)
    exact ⟨.ofVars vars.toList, by simp only [hget]; rfl, fun c => (answers_of_vars hvars c).1⟩
  · intro q hq
    obtain ⟨vars, hget, hvars⟩ := htable.varsOfProc hq
    exact ⟨.ofVars vars.toList, by simp only [hget]; rfl, fun c => (answers_of_vars hvars c).1⟩
  · intro s stmt hs
    exact ⟨∅, rfl, fun l => by simp [Program.HasEffect]⟩
  · intro x
    refine ⟨table.having x, rfl, fun l => ?_⟩
    rw [Program.hasEffect_var]
    exact htable.mem_having
  · intro s stmt hs r hr
    obtain ⟨vars, hget, hvars⟩ := htable.varsOfStmt (Program.lt_size_of_getElem? hs)
    exact ⟨Table.isVarOf vars r, by simp only [hget]; rfl⟩
  · intro s stmt hs r b hb
    obtain ⟨vars, hget, hvars⟩ := htable.varsOfStmt (Program.lt_size_of_getElem? hs)
    simp only [hget] at hb
    cases hb
    exact (answers_of_vars hvars r).2
  · intro q hq r
    obtain ⟨vars, hget, hvars⟩ := htable.varsOfProc hq
    exact ⟨Table.isVarOf vars r, by simp only [hget]; rfl, (answers_of_vars hvars r).2⟩
  · rintro y r ⟨x, -, h⟩
    simpa using h.of_program.2
  · rintro k r ⟨x, -, h⟩
    simpa using h.of_program.2
  · simp [Program.HasEffect]
  · simp [Program.HasEffect]

/-- **The solver of an effect** is made, the same whether or not links are checked, and it decides
the effect. -/
theorem decides_solver (effect : Effect) (hp : p.WellFormed) :
    ∃ σ, (∀ check, effect.solver p check = .ok σ) ∧ σ.Decides p (p.HasEffect effect) := by
  obtain ⟨table, hrounds, -, htable⟩ := exact_rounds effect hp
  refine ⟨table.solver p, ?_, htable.decides⟩
  intro check
  unfold solver Effect.table
  rw [hrounds check _ (Nat.lt_succ_self _)]
  rfl

/-! ## The answers are the least solution -/

/-- **The answers about an effect**. The rounds end in a table that a further round does not change,
and more rounds give the same one. For each statement and procedure the solver lists the variables
that some path leads to, and these lists are the least solution of the equations of the effect. -/
theorem solver_right_isLeast (h : p.Built) (effect : Effect) (check : Bool) :
    ∃ (table : Table) (σ : Solver),
      effect.table p check = .ok table ∧ effect.solver p check = .ok σ ∧
      (∀ bound, p.procs.size * p.vars.size < bound →
        effect.rounds p check bound (List.replicate p.procs.size ∅) = .ok table) ∧
      effect.round p check table.procs = .ok table ∧
      (∀ a : Condition, a.In p → ∃ answer, σ.right a = .ok answer ∧
        ∀ c, c ∈ answer ↔ ∃ x, c = .var x ∧ p.Affects effect a x) ∧
      IsLeast {S | p.Solves effect S}
        fun a x => ∃ answer, σ.right a = .ok answer ∧ .var x ∈ answer := by
  obtain ⟨table, hrounds, hround, htable⟩ := exact_rounds effect h.wellFormed
  have hdecides := htable.decides
  have hmade : effect.table p check = .ok table := hrounds check _ (Nat.lt_succ_self _)
  have hsolver : effect.solver p check = .ok (table.solver p) := by
    unfold solver
    rw [hmade]
    rfl
  have hanswers : (fun a x => ∃ answer, (table.solver p).right a = .ok answer ∧ .var x ∈ answer) =
      p.Affects effect := by
    funext a x
    apply propext
    constructor
    · rintro ⟨answer, hanswer, hx⟩
      exact Program.hasEffect_var.mp ((hdecides.mem_right hanswer).mp hx)
    · intro ha
      obtain ⟨answer, hanswer, hmem⟩ := hdecides.right a ha.of_program.1
      exact ⟨answer, hanswer, (hmem _).mpr (Program.hasEffect_var.mpr ha)⟩
  rw [h.wellFormed.vars_eq]
  refine ⟨table, table.solver p, hmade, hsolver, hrounds check, hround check, hdecides.right, ?_⟩
  rw [hanswers]
  exact p.isLeast_affects effect

/-- The two procedures of the example program call each other, and the first one modifies the
variable that only the second one assigns to. -/
theorem right_exampleProgram_isLeast :
    ∃ σ, Effect.modifies.solver exampleProgram true = .ok σ ∧
      σ.right (.proc 0) = .ok (.ofVars ["x", "z"]) ∧
      exampleProgram.Affects .modifies (.proc 0) "z" ∧
      ¬ exampleProgram.Affects .modifies (.proc 0) "y" := by
  obtain ⟨table, σ, -, hsolver, -, -, hright, -⟩ :=
    solver_right_isLeast built_exampleProgram .modifies true
  obtain ⟨answer, hanswer, hmem⟩ := hright (.proc 0) (show 0 < 2 by decide)
  have hlist : (do (← Effect.modifies.solver exampleProgram true).right (.proc 0)) =
      .ok (.ofVars ["x", "z"]) := by decide +kernel
  rw [hsolver] at hlist
  have heq : answer = .ofVars ["x", "z"] := Except.ok.inj (hanswer.symm.trans hlist)
  subst heq
  refine ⟨σ, hsolver, hanswer, ?_, ?_⟩
  · simpa using (hmem (.var "z")).mp (by simp)
  · intro hy
    simpa using (hmem (.var "y")).mpr ⟨"y", rfl, hy⟩

end Effect

end ProgramQuery
