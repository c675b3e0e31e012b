import ProgramQuery.Proofs.CheckedEffects

/-!
# Answers without checks

Members of a list may be checked to link back to their container. This only turns answers into
refusals: all that is answered with checks is answered without them, and in the same way
(`Program.answers_kept_unchecked`).

One computation is kept by another one if the other one gives all its answers (`KeptBy`). With and
without checks the steps are the same, so each function is kept because those that it calls are,
down to the listing of a body (`Program.chain_kept`). Bounds are compared at the same time: an
answer is also given with fewer checks and larger bounds. So where there is an answer with checks,
going through lists has an end without them. In general it has none.
-/

set_option autoImplicit false

namespace ProgramQuery

open ExceptSteps

/-- All answers of one computation are answers of the other one. -/
def KeptBy {ε α : Type} (x y : Except ε α) : Prop :=
  ∀ a, x = .ok a → y = .ok a

namespace KeptBy

variable {ε α β : Type}

/-- A computation keeps its own answers. -/
theorem refl (x : Except ε α) : KeptBy x x :=
  fun _ h => h

/-- Computations in a row keep their answers if each of them does. -/
theorem bind {x y : Except ε α} {f g : α → Except ε β} (h : KeptBy x y)
    (hstep : ∀ a, KeptBy (f a) (g a)) :
    KeptBy (x >>= f) (y >>= g) := by
  intro b hb
  obtain ⟨a, ha, hb⟩ := bind_eq_ok.mp hb
  exact bind_eq_ok.mpr ⟨a, h a ha, hstep a b hb⟩

/-- A computation on each element of a list keeps its answers if it does on every element. -/
theorem mapM {f g : α → Except ε β} (h : ∀ a, KeptBy (f a) (g a)) (l : List α) :
    KeptBy (l.mapM f) (l.mapM g) := by
  intro m hm
  exact mapM_eq_ok.mpr ((mapM_eq_ok.mp hm).imp fun a b => h a b)

end KeptBy

variable {p : Program} {check check' : Bool}

namespace Program

variable {first s : StmtId} {owner : Option StmtId} {stmt : Stmt} {bound bound' : Nat}
  {pending : List (StmtId × StmtId)} {found : List StmtId}

/-! ## Bodies -/

/-- **A body that was listed** is listed in the same way with fewer checks. -/
theorem chain_kept (hcheck : check' = true → check = true) :
    KeptBy (p.chain check first owner) (p.chain check' first owner) := by
  intro l h
  obtain ⟨hl, hparent⟩ := chain_eq_ok h
  exact chain_eq_of_path hl fun h => hparent (hcheck h)

/-- Children that are given out with checks are given out with fewer checks. -/
theorem children_kept (hcheck : check' = true → check = true) :
    KeptBy (p.children check s stmt) (p.children check' s stmt) :=
  (KeptBy.mapM (fun _ => chain_kept hcheck) _).bind fun _ => .refl _

/-- Going down lists the same bodies in the same order. -/
theorem descend_kept (hcheck : check' = true → check = true) (hbound : bound ≤ bound') :
    KeptBy (p.descend check bound pending found) (p.descend check' bound' pending found) := by
  induction bound generalizing bound' pending found with
  | zero =>
    cases pending with
    | nil =>
      intro all h
      cases h
      cases bound' <;> rfl
    | cons body pending => nofun
  | succ bound ih =>
    obtain ⟨bound', rfl⟩ : ∃ b, bound' = b + 1 := ⟨bound' - 1, by omega⟩
    cases pending with
    | nil => exact .refl _
    | cons body pending =>
      exact (chain_kept hcheck).bind fun l => (KeptBy.refl _).bind fun all => ih (by omega)

end Program

namespace Effect

open Program

variable {effect : Effect} {procVars : ProcId → Vars} {first : StmtId} {owner : Option StmtId}
  {depth depth' bound : Nat} {before : List Vars} {t : Table}

/-! ## Effects -/

/-- Collecting from a list keeps its answers if collecting from the elements does. -/
theorem collectAll_kept {α : Type} {collect collect' : α → Except Inconsistency Found}
    (h : ∀ a, KeptBy (collect a) (collect' a)) (as : List α) :
    KeptBy (collectAll collect as) (collectAll collect' as) := by
  induction as with
  | nil => exact .refl _
  | cons a as ih => exact (h a).bind fun part => ih.bind fun more => .refl _

/-- Collecting from a statement keeps its answers if collecting from bodies does. -/
theorem collectStmt_kept {body body' : StmtId → Option StmtId → Except Inconsistency Found}
    (h : ∀ first owner, KeptBy (body first owner) (body' first owner)) (s : StmtId) :
    KeptBy (effect.collectStmt procVars p body s) (effect.collectStmt procVars p body' s) :=
  (KeptBy.refl _).bind fun _ => (collectAll_kept (fun first => h first (some s)) _).bind fun _ =>
    .refl _

/-- Going through a list finds the same, and goes no deeper. -/
theorem collectBody_kept (hcheck : check' = true → check = true) (hdepth : depth ≤ depth') :
    KeptBy (effect.collectBody procVars p check depth first owner)
      (effect.collectBody procVars p check' depth' first owner) := by
  induction depth generalizing depth' first owner with
  | zero => nofun
  | succ depth ih =>
    obtain ⟨depth', rfl⟩ : ∃ d, depth' = d + 1 := ⟨depth' - 1, by omega⟩
    exact (chain_kept hcheck).bind fun l =>
      collectAll_kept (collectStmt_kept fun _ _ => ih (by omega)) l

/-- A round that succeeds with checks gives the same with fewer checks. -/
theorem round_kept (hcheck : check' = true → check = true) :
    KeptBy (effect.round p check before) (effect.round p check' before) :=
  (KeptBy.mapM (fun _ => collectBody_kept hcheck le_rfl) _).bind fun _ => .refl _

/-- All rounds read the same variables off the round before, so they also end at the same time. -/
theorem rounds_kept (hcheck : check' = true → check = true) :
    KeptBy (effect.rounds p check bound before) (effect.rounds p check' bound before) := by
  induction bound generalizing before with
  | zero => exact round_kept hcheck
  | succ bound ih =>
    refine (round_kept hcheck).bind fun t => ?_
    by_cases hsame : t.procs = before
    · rw [if_pos hsame, if_pos hsame]
      exact .refl _
    · rw [if_neg hsame, if_neg hsame]
      exact ih

/-- A table that is made with checks is the same with fewer checks. -/
theorem table_kept (hcheck : check' = true → check = true) :
    KeptBy (effect.table p check) (effect.table p check') :=
  rounds_kept hcheck

/-- A solver that is made with checks is the same with fewer checks. -/
theorem solver_kept (hcheck : check' = true → check = true) :
    KeptBy (effect.solver p check) (effect.solver p check') :=
  (table_kept hcheck).bind fun _ => .refl _

/-- Once there is a table, the list of a procedure is gone through to its end for any variables of
procedures, with no limit on depth that matters. -/
theorem collectBody_of_table (h : effect.table p check = .ok t) {q : ProcId} {proc : Proc}
    (hq : p.procs[q]? = some proc) (procVars : ProcId → Vars) :
    ∃ found, ∀ check', (check' = true → check = true) → ∀ depth, p.stmts.size < depth →
      effect.collectBody procVars p check' depth proc.first none = .ok found := by
  obtain ⟨start, hround, -⟩ := bind_eq_ok.mp h
  obtain ⟨founds, hfounds, -⟩ := bind_eq_ok.mp hround
  obtain ⟨least, -, hleast⟩ := (getElem?_of_mapM hfounds).2 q proc (by simpa using hq)
  -- the first round has no variables of procedures, and more of them give no refusal
  have hsub : ∀ r x, x ∈ varsAt (List.replicate p.procs.size ∅) r → x ∈ procVars r :=
    fun r x hx => absurd hx not_mem_varsAt_replicate
  obtain ⟨found, hfound, -⟩ := collectBody_mono hsub hleast
  exact ⟨found, fun check' hcheck depth hdepth => collectBody_kept hcheck hdepth found hfound⟩

end Effect

namespace Solver

/-! ## Solvers -/

/-- A solver by kinds keeps its answers to the right if they are kept for each kind. -/
theorem ofCases_right_kept {cases cases' : Cases}
    (hstmt : ∀ s stmt, KeptBy (cases.rightOfStmt s stmt) (cases'.rightOfStmt s stmt))
    (hproc : ∀ q, KeptBy (cases.rightOfProc q) (cases'.rightOfProc q)) (a : Condition) :
    KeptBy ((ofCases p cases).right a) ((ofCases p cases').right a) := by
  cases a with
  | stmt s => exact (KeptBy.refl _).bind (hstmt s)
  | proc q => exact (KeptBy.refl _).bind fun _ => hproc q
  | var x => exact .refl _
  | const n => exact .refl _

/-- Answers about children that are given with checks are given with fewer checks. -/
theorem parent_right_kept (hcheck : check' = true → check = true) (a : Condition) :
    KeptBy ((parent p check).right a) ((parent p check').right a) := by
  refine ofCases_right_kept (fun s stmt => ?_) (fun q => ?_) a
  · exact (Program.children_kept hcheck).bind fun _ => .refl _
  · exact .refl _

/-- Answers about descendants that are given with checks are given with fewer checks. -/
theorem parentStar_right_kept (hcheck : check' = true → check = true) (a : Condition) :
    KeptBy ((parentStar p check).right a) ((parentStar p check').right a) := by
  refine ofCases_right_kept (fun s stmt => ?_) (fun q => ?_) a
  · exact (Program.descend_kept hcheck le_rfl).bind fun _ => .refl _
  · exact .refl _

end Solver

namespace Program

/-- **Checks never change an answer**, in any program. What `Parent` and `Parent*` answer with
checks they answer without them, and so do the solvers of the effects, whose tables are the same.
Without checks the same is found with any larger bounds: on the bodies that going down lists, on the
number of rounds, and on the depth of the lists of procedures. -/
theorem answers_kept_unchecked (p : Program) :
    (∀ a D, (Solver.parent p true).right a = .ok D → (Solver.parent p false).right a = .ok D) ∧
    (∀ a D, (Solver.parentStar p true).right a = .ok D →
      (Solver.parentStar p false).right a = .ok D) ∧
    (∀ s l, p.descendants true s = .ok l →
      ∀ bound, p.stmts.size < bound → p.descend false bound (p.ownedBodies s).reverse [] = .ok l) ∧
    ∀ effect : Effect,
      (∀ σ, effect.solver p true = .ok σ → effect.solver p false = .ok σ) ∧
      ∀ t, effect.table p true = .ok t → effect.table p false = .ok t ∧
        (∀ bound, p.procs.size * p.stmtVars.size < bound →
          effect.rounds p false bound (List.replicate p.procs.size ∅) = .ok t) ∧
        ∀ (procVars : ProcId → Effect.Vars) (q : ProcId) (proc : Proc), p.procs[q]? = some proc →
          ∃ found, effect.collectBody procVars p true (p.stmts.size + 1) proc.first none =
            .ok found ∧
            ∀ depth, p.stmts.size < depth →
              effect.collectBody procVars p false depth proc.first none = .ok found := by
  have hcheck : false = true → true = true := fun _ => rfl
  refine ⟨Solver.parent_right_kept hcheck, Solver.parentStar_right_kept hcheck,
    fun s l h bound hbound => ?_, fun effect => ⟨Effect.solver_kept hcheck,
      fun t h => ⟨Effect.table_kept hcheck t h, fun bound hbound => ?_, ?_⟩⟩⟩
  · exact descend_kept hcheck hbound l h
  · rw [(Effect.table_limit effect p false).1 bound hbound]
    exact Effect.table_kept hcheck t h
  · intro procVars q proc hq
    obtain ⟨found, hfound⟩ := Effect.collectBody_of_table h hq procVars
    exact ⟨found, hfound true id _ (by omega), hfound false hcheck⟩

/-- `exampleProgram` with the first statement cut off from the second, which now follows itself. -/
def cutProgram : Program := (exampleProgram.overwriteNext 0 none).overwriteNext 1 (some 1)

/-- Nothing leads to the endless list of `cutProgram`, so all solvers answer with checks, and then
without. -/
theorem answers_cutProgram_kept :
    (∃ D, (Solver.parent cutProgram true).right (.stmt 2) = .ok D ∧
      (Solver.parent cutProgram false).right (.stmt 2) = .ok D) ∧
    (∃ D, (Solver.parentStar cutProgram true).right (.stmt 2) = .ok D ∧
      (Solver.parentStar cutProgram false).right (.stmt 2) = .ok D) ∧
    ∀ effect : Effect, ∃ t, effect.table cutProgram true = .ok t ∧
      effect.table cutProgram false = .ok t := by
  obtain ⟨hparent, hparentStar, -, heffect⟩ := answers_kept_unchecked cutProgram
  have hright : (Solver.parent cutProgram true).right (.stmt 2) = .ok (.ofStmts [3, 4]) := by
    decide +kernel
  have hrightStar : (Solver.parentStar cutProgram true).right (.stmt 2) =
      .ok (.ofStmts [3, 4]) := by decide +kernel
  refine ⟨⟨_, hright, hparent _ _ hright⟩, ⟨_, hrightStar, hparentStar _ _ hrightStar⟩,
    fun effect => ?_⟩
  obtain ⟨t, ht⟩ : ∃ t, effect.table cutProgram true = .ok t := by
    cases effect with
    | modifies => exact ⟨_, rfl⟩
    | uses => exact ⟨_, rfl⟩
  exact ⟨t, ht, ((heffect effect).2 t ht).1⟩

end Program

end ProgramQuery
