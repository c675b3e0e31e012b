import ProgramQuery.Proofs.SameAnswers

/-!
# Answers stay within a program

What a query variable ranges over is collected statement by statement. What a relation answers comes
from walks through lists, bodies and calls. In a built program the two fit together
(`Analysis.answers_closed`). Every statement is reached from a procedure
(`WellFormed.exists_proc_leads`), so the variables that statements name are those that procedures
have an effect on (`WellFormed.mem_vars_iff_affects`). Every argument of a relation is a statement,
a procedure or a variable of the program (`Related.arguments`), so cutting an answer down to the
members of these entities loses nothing.
-/

set_option autoImplicit false

open Relation (ReflTransGen)

namespace ProgramQuery

/-! ## Kinds of statements -/

namespace Entity

variable {p : Program} {e : Entity} {c : Condition}

/-- The entities of the statements of one kind. -/
def stmtKinds : List Entity := [assign, call, whileLoop, ifBranch]

/-- Every kind of statement is one of the four. -/
theorem ofKind_mem_stmtKinds {β : Type} (kind : StmtKind β) : ofKind kind ∈ stmtKinds := by
  cases kind <;> simp [ofKind, stmtKinds]

/-- The members of such an entity are the statements of its kind. -/
theorem mem_members_of_stmtKinds (hp : p.WellFormed) (he : e ∈ stmtKinds) :
    c ∈ e.members p ↔ ∃ s stmt, p.stmts[s]? = some stmt ∧ ofKind stmt.kind = e ∧ .stmt s = c := by
  have hmembers : e.members p = .ofStmts (e.stmtsOf p) := by
    simp only [stmtKinds, List.mem_cons, List.not_mem_nil, or_false] at he
    rcases he with rfl | rfl | rfl | rfl <;> rfl
  rw [hmembers, ConditionSet.mem_ofStmts]
  simp only [mem_stmtsOf hp]
  constructor
  · rintro ⟨s, ⟨stmt, hs, hkind⟩, hc⟩
    exact ⟨s, stmt, hs, hkind, hc⟩
  · rintro ⟨s, stmt, hs, hkind, hc⟩
    exact ⟨s, ⟨stmt, hs, hkind⟩, hc⟩

/-- The statements of a well-formed program are those with its numbers. -/
theorem mem_members_stmt (hp : p.WellFormed) :
    c ∈ stmt.members p ↔ ∃ s < p.stmts.size, .stmt s = c := by
  simp [members, hp.mem_stmtIds]

/-- Every statement is of one of the kinds. -/
theorem mem_members_stmt_iff (hp : p.WellFormed) :
    c ∈ stmt.members p ↔ ∃ e ∈ stmtKinds, c ∈ e.members p := by
  rw [mem_members_stmt hp]
  constructor
  · rintro ⟨s, hs, rfl⟩
    obtain ⟨stmt, hstmt⟩ := Program.exists_stmt hs
    have hkind := ofKind_mem_stmtKinds stmt.kind
    exact ⟨_, hkind, (mem_members_of_stmtKinds hp hkind).mpr ⟨s, stmt, hstmt, rfl, rfl⟩⟩
  · rintro ⟨e, he, hc⟩
    obtain ⟨s, stmt, hs, -, rfl⟩ := (mem_members_of_stmtKinds hp he).mp hc
    exact ⟨s, Program.lt_size_of_getElem? hs, rfl⟩

/-- No statement is of two kinds. -/
theorem pairwise_stmtKinds (hp : p.WellFormed) :
    stmtKinds.Pairwise fun e e' => ∀ c, ¬ (c ∈ e.members p ∧ c ∈ e'.members p) := by
  have hnodup : stmtKinds.Nodup := by decide
  refine hnodup.pairwise_of_forall_ne ?_
  rintro e he e' he' hne c ⟨hc, hc'⟩
  obtain ⟨s, stmt, hs, hkind, rfl⟩ := (mem_members_of_stmtKinds hp he).mp hc
  obtain ⟨s', stmt', hs', hkind', hsame⟩ := (mem_members_of_stmtKinds hp he').mp hc'
  cases hsame
  rw [hs] at hs'
  cases hs'
  exact hne (hkind.symm.trans hkind')

/-- There are as many statements as the table of lines holds, if that is all of them in order. -/
theorem size_members_stmt (hids : p.stmtIds = List.range p.stmts.size) :
    (stmt.members p).size = p.stmts.size := by
  show (ConditionSet.ofStmts p.stmtIds).size = p.stmts.size
  rw [hids, ConditionSet.size_ofStmts List.nodup_range, List.length_range]

/-- A variable is a member if the program has it. -/
theorem var_mem_members {x : String} : .var x ∈ var.members p ↔ x ∈ p.vars := by
  simp [members]

end Entity

namespace Program

variable {p : Program} {s : StmtId} {q : ProcId} {x : String} {a b : Condition} {rel : Relation}

/-! ## What procedures reach -/

/-- The procedure on whose own list the outermost container stands leads to a statement. -/
theorem WellFormed.leads_of_path (hp : p.WellFormed) {o : Option StmtId} {l : List StmtId}
    {outermost : StmtId} (hpath : p.Path .parent o l) (hon : p.OnList (.ofProc q) outermost) :
    ∀ s, o = some s → l.getLast? = some outermost → ReflTransGen p.Leads (.proc q) (.stmt s) := by
  induction hpath with
  | done =>
    intro s hs
    cases hs
  | @step s stmt l hs hl ih =>
    intro s' heq hlast
    cases heq
    cases hparent : stmt.parent with
    | none =>
      have hl : p.Path .parent stmt.parent l := hl
      rw [hparent] at hl
      rw [path_none_iff.mp hl] at hlast
      cases hlast
      exact .single (.enter hon)
    | some c =>
      have hl : p.Path .parent stmt.parent l := hl
      rw [hparent] at hl
      obtain ⟨slot, hslot⟩ := (hp.parent_iff s c stmt hs).mp hparent
      have hlast' : l.getLast? = some outermost := by
        cases hl with
        | step _ _ => simpa using hlast
      exact (ih c hparent hlast').tail (.descend hslot)

/-- Every statement is reached from a procedure. -/
theorem WellFormed.exists_proc_leads (hp : p.WellFormed) (hs : s < p.stmts.size) :
    ∃ q < p.procs.size, ReflTransGen p.Leads (.proc q) (.stmt s) := by
  obtain ⟨stmt, hstmt⟩ := exists_stmt hs
  obtain ⟨l, outermost, hpath, hlast, hon⟩ := hp.owner_eq s stmt hstmt
  exact ⟨stmt.owner, hp.owner_lt s stmt hstmt, hp.leads_of_path hpath hon s rfl hlast⟩

/-- A statement has one of the effects on every variable that it names. -/
theorem exists_touches {stmt : Stmt} (hs : p.stmts[s]? = some stmt) (hx : x ∈ stmt.kind.vars) :
    ∃ effect, p.Touches effect (.stmt s) x := by
  cases hkind : stmt.kind with
  | assign target value =>
    rw [hkind] at hx
    rcases SortedSet.mem_insert.mp hx with rfl | hx
    · exact ⟨.modifies, .target hs hkind⟩
    · exact ⟨.uses, .operand hs hkind (Expr.mem_vars_iff.mp hx)⟩
  | call callee =>
    rw [hkind] at hx
    exact absurd hx SortedSet.not_mem_empty
  | branch cond thenFirst elseFirst =>
    rw [hkind] at hx
    cases SortedSet.mem_singleton.mp hx
    exact ⟨.uses, .branch hs hkind⟩
  | loop cond first =>
    rw [hkind] at hx
    cases SortedSet.mem_singleton.mp hx
    exact ⟨.uses, .loop hs hkind⟩

/-- What something has an effect on is a variable of the program. -/
theorem WellFormed.mem_vars_of_affects (hp : p.WellFormed) {effect : Effect}
    (h : p.Affects effect a x) :
    x ∈ p.vars := by
  rw [hp.vars_eq]
  exact h.mem_stmtVars

/-- The variables that statements name are those that procedures have an effect on. -/
theorem WellFormed.mem_vars_iff_affects (hp : p.WellFormed) :
    x ∈ p.vars ↔ ∃ q < p.procs.size, ∃ effect, p.Affects effect (.proc q) x := by
  constructor
  · intro hx
    obtain ⟨s, stmt, hs, hx⟩ := hp.mem_vars_iff.mp hx
    obtain ⟨effect, htouches⟩ := exists_touches hs hx
    obtain ⟨q, hq, hleads⟩ := hp.exists_proc_leads (lt_size_of_getElem? hs)
    exact ⟨q, hq, effect, .stmt s, hleads, htouches⟩
  · rintro ⟨q, -, effect, haffects⟩
    exact hp.mem_vars_of_affects haffects

/-- The variables of a well-formed program are what its procedures modify or use. -/
theorem WellFormed.mem_members_var_iff (hp : p.WellFormed) {c : Condition} :
    c ∈ Entity.var.members p ↔
      ∃ q < p.procs.size, p.Related .modifies (.proc q) c ∨ p.Related .uses (.proc q) c := by
  constructor
  · intro hc
    obtain ⟨x, hx, rfl⟩ := ConditionSet.mem_ofVars.mp hc
    obtain ⟨q, hq, effect, haffects⟩ := hp.mem_vars_iff_affects.mp (SortedSet.mem_toList.mp hx)
    refine ⟨q, hq, ?_⟩
    cases effect with
    | modifies => exact Or.inl ⟨x, rfl, haffects⟩
    | uses => exact Or.inr ⟨x, rfl, haffects⟩
  · rintro ⟨q, -, ⟨x, rfl, haffects⟩ | ⟨x, rfl, haffects⟩⟩
    · exact Entity.var_mem_members.mpr (hp.mem_vars_of_affects haffects)
    · exact Entity.var_mem_members.mpr (hp.mem_vars_of_affects haffects)

/-! ## Where related conditions lie -/

/-- What is asked about or answered with: the statements, procedures and variables. -/
def Argument (p : Program) (c : Condition) : Prop :=
  c ∈ Entity.stmt.members p ∨ c ∈ Entity.proc.members p ∨ c ∈ Entity.var.members p

/-- Of the statements, those of the program are asked about. -/
theorem argument_stmt (hp : p.WellFormed) : p.Argument (.stmt s) ↔ s < p.stmts.size := by
  simp [Argument, Entity.members, hp.mem_stmtIds]

/-- Of the procedures, those of the program are asked about. -/
theorem argument_proc : p.Argument (.proc q) ↔ q < p.procs.size := by
  simp [Argument, Entity.members]

/-- Of the variables, those of the program are asked about. -/
theorem argument_var : p.Argument (.var x) ↔ x ∈ p.vars := by
  simp [Argument, Entity.members]

/-- Statements that a relation holds for are statements of the program. -/
theorem OnStmts.arguments {R : StmtId → StmtId → Prop} (h : OnStmts R a b) (hp : p.WellFormed)
    (ha : a.In p) (hb : b.In p) : p.Argument a ∧ p.Argument b := by
  obtain ⟨s, t, rfl, rfl, -⟩ := h
  exact ⟨(argument_stmt hp).mpr ha, (argument_stmt hp).mpr hb⟩

/-- An effect is of a statement or procedure of the program on one of its variables. -/
theorem HasEffect.arguments {effect : Effect} (h : p.HasEffect effect a b) (hp : p.WellFormed) :
    p.Argument a ∧ p.Argument b := by
  obtain ⟨x, rfl, haffects⟩ := h
  refine ⟨?_, argument_var.mpr (hp.mem_vars_of_affects haffects)⟩
  obtain ⟨hin, ⟨s, rfl⟩ | ⟨q, rfl⟩⟩ := haffects.of_program
  · exact (argument_stmt hp).mpr hin
  · exact argument_proc.mpr hin

/-- What is related is of the program, on both sides. -/
theorem Related.arguments (hp : p.WellFormed) (h : p.Related rel a b) :
    p.Argument a ∧ p.Argument b := by
  obtain ⟨ha, hb⟩ := Related.both_in hp h
  cases rel with
  | parent => exact OnStmts.arguments h hp ha hb
  | parentStar => exact OnStmts.arguments h hp ha hb
  | follows => exact OnStmts.arguments h hp ha hb
  | followsStar => exact OnStmts.arguments h hp ha hb
  | modifies => exact HasEffect.arguments h hp
  | uses => exact HasEffect.arguments h hp

/-! ## Going through the lines -/

/-- The lines of a built program are one after the other, so the table of lines holds all statements
in the order of their numbers. -/
theorem Built.stmtIds_eq (h : p.Built) : p.stmtIds = List.range p.stmts.size := by
  obtain ⟨d, hsound, hfinish⟩ := h.exists_draft
  obtain ⟨places, -, hsealed⟩ := Draft.finish_eq_ok hfinish
  exact stmtIds_eq_range fun s stmt hs => hsealed.line_eq hsound hs

end Program

/-! ## The answers of an analysis -/

namespace Analysis

variable {p : Program}

/-- **The answers about a built program stay within it.** The variables are those that the answers
for procedures name. Every answer of every relation lies within the statements, the procedures and
the variables. Every statement is of exactly one kind, there are as many as the program has, and the
lines lead to each of them once. -/
theorem answers_closed (h : p.Built) :
    ∃ a : Analysis, (∀ settings, ofProgram settings p = .ok a) ∧
      (∃ modified used : ProcId → ConditionSet,
        (∀ q < p.procs.size, (a.solvers .modifies).right (.proc q) = .ok (modified q) ∧
          (a.solvers .uses).right (.proc q) = .ok (used q)) ∧
        (∀ c, c ∈ Entity.var.members p ↔ ∃ q < p.procs.size, c ∈ modified q ∨ c ∈ used q) ∧
        ∀ x, x ∈ p.vars ↔ ∃ q < p.procs.size, .var x ∈ modified q ∨ .var x ∈ used q) ∧
      (∀ rel arg answer, (a.solvers rel).right arg = .ok answer ∨
        (a.solvers rel).left arg = .ok answer →
        ∀ c ∈ answer,
          c ∈ Entity.stmt.members p ∨ c ∈ Entity.proc.members p ∨ c ∈ Entity.var.members p) ∧
      (∀ c, c ∈ Entity.stmt.members p ↔ ∃ e ∈ Entity.stmtKinds, c ∈ e.members p) ∧
      Entity.stmtKinds.Pairwise (fun e e' => ∀ c, ¬ (c ∈ e.members p ∧ c ∈ e'.members p)) ∧
      (Entity.stmt.members p).size = p.stmts.size ∧
      p.lines.Pairwise (· < ·) ∧ p.lines.map p.stmtAt? = p.stmtIds.map some ∧
      p.stmtIds = List.range p.stmts.size := by
  have hp := h.wellFormed
  obtain ⟨a, hmade, -, hdecides⟩ := decides_ofProgram hp
  refine ⟨a, hmade, ?_, ?_, fun c => Entity.mem_members_stmt_iff hp, Entity.pairwise_stmtKinds hp,
    Entity.size_members_stmt h.stmtIds_eq, p.pairwise_lines, p.map_stmtAt?_lines, h.stmtIds_eq⟩
  · have hanswers : ∀ rel q, ∃ answer, q < p.procs.size →
        (a.solvers rel).right (.proc q) = .ok answer ∧
          ∀ c, c ∈ answer ↔ p.Related rel (.proc q) c := by
      -- a number that is no procedure gets the empty set, so that there is one for every number
      intro rel q
      by_cases hq : q < p.procs.size
      · obtain ⟨answer, hanswer⟩ := (hdecides rel).right (.proc q) hq
        exact ⟨answer, fun _ => hanswer⟩
      · exact ⟨∅, fun hlt => absurd hlt hq⟩
    choose answers hanswers using hanswers
    have hvars : ∀ c, c ∈ Entity.var.members p ↔
        ∃ q < p.procs.size, c ∈ answers .modifies q ∨ c ∈ answers .uses q := by
      intro c
      rw [hp.mem_members_var_iff]
      refine exists_congr fun q => and_congr_right fun hq => ?_
      rw [(hanswers .modifies q hq).2 c, (hanswers .uses q hq).2 c]
    refine ⟨answers .modifies, answers .uses, ?_, hvars, ?_⟩
    · intro q hq
      exact ⟨(hanswers .modifies q hq).1, (hanswers .uses q hq).1⟩
    · intro x
      rw [← Entity.var_mem_members, hvars]
  · rintro rel arg answer (hright | hleft) c hc
    · exact (Program.Related.arguments hp (((hdecides rel).mem_right hright).mp hc)).2
    · exact (Program.Related.arguments hp (((hdecides rel).mem_left hleft).mp hc)).1

/-- The first procedure of the example program modifies a variable that only a branch of the second
one assigns to. -/
theorem answers_exampleProgram_closed :
    ∃ a modified, ofProgram {} exampleProgram = .ok a ∧
      (a.solvers .modifies).right (.proc 0) = .ok modified ∧
      modified = .ofVars ["x", "z"] ∧ .var "z" ∈ Entity.var.members exampleProgram ∧
      (Entity.stmt.members exampleProgram).size = 5 := by
  obtain ⟨a, hmade, ⟨modified, used, hanswers, hvars, -⟩, -, -, -, hsize, -⟩ :=
    answers_closed built_exampleProgram
  have hright := (hanswers 0 (by decide)).1
  have hcomputed : (do ((← ofProgram {} exampleProgram).solvers .modifies).right (.proc 0)) =
      .ok (.ofVars ["x", "z"]) := by decide +kernel
  rw [hmade] at hcomputed
  have heq : modified 0 = .ofVars ["x", "z"] := Except.ok.inj (hright.symm.trans hcomputed)
  have hz : .var "z" ∈ modified 0 := by
    rw [heq]
    exact ConditionSet.mem_ofVars.mpr ⟨"z", by simp, rfl⟩
  exact ⟨a, modified 0, hmade {}, hright, heq, (hvars (.var "z")).mpr ⟨0, by decide, Or.inl hz⟩,
    hsize⟩

end Analysis

end ProgramQuery
