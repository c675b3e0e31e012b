import Mathlib.Combinatorics.SimpleGraph.Acyclic
import ProgramQuery.Proofs.LargestFamily

/-!
# Queries and their solutions

A solution of a query chooses a value for each of its named variables, so that all clauses hold at
once (`Query.Solution`). Running a query only makes each clause consistent by itself, so its answer
need not tell whether there is a solution; but no solution is lost (`run_solutions`, first part),
because the values of a solution are a consistent family (`Solution.consistent`).

If clauses join the named variables to a forest, without two clauses between the same two variables
(`Query.Forest`), consistency is enough: every candidate that is left is part of a solution.
Solutions are put together clause by clause. A clause of a forest joins two parts that the clauses
before it keep apart, so a choice for the one part and a choice for the other make a choice for both
(`exists_joined`).
-/

set_option autoImplicit false

namespace ProgramQuery

namespace Query

/-! ## Solutions -/

/-- The variable is in one of the clauses. -/
def Occurs (clauses : List Clause) (id : VarId) : Prop :=
  ∃ clause ∈ clauses, clause.left = id ∨ clause.right = id

/-- What a variable may stand for in a clause: a named one for its chosen value, a wildcard for all
that it ranges over. -/
def valuesOf (vars : Array Variable) (choice : VarId → Condition) (id : VarId) : Set Condition :=
  {c | (IsNamed vars id → c = choice id) ∧ (¬ IsNamed vars id → c ∈ candidatesOf vars id)}

/-- A choice of candidates for the named variables that are in clauses, such that every clause
holds. In each clause wildcards may stand for something else. -/
structure Solution (R : Relation → Condition → Condition → Prop) (vars : Array Variable)
    (clauses : List Clause) (choice : VarId → Condition) : Prop where
  candidate : ∀ id, IsNamed vars id → Occurs clauses id → choice id ∈ candidatesOf vars id
  satisfied : ∀ clause ∈ clauses, clause.Satisfied R (valuesOf vars choice)

/-- The choice solves the query, as far as solvers tell. -/
def SolvedBy (query : Query) (solvers : Relation → Solver) (choice : VarId → Condition) : Prop :=
  Solution (fun rel l r => (solvers rel).holds l r = .ok true) query.vars query.clauses choice

/-- The clause joins two different named variables. -/
def isJoin (vars : Array Variable) (clause : Clause) : Bool :=
  clause.left != clause.right && vars[clause.left]?.any (!·.isWildcard) &&
    vars[clause.right]?.any (!·.isWildcard)

/-- The two variables of a clause. -/
def ends (clause : Clause) : Sym2 VarId := s(clause.left, clause.right)

/-- The graph of variables in which each clause is an edge between its two variables. -/
def graphOf (clauses : List Clause) : SimpleGraph VarId := .fromEdgeSet {e | e ∈ clauses.map ends}

/-- The clauses between different named variables make no cycle. Two of them between the same two
variables count as a cycle. -/
structure Forest (vars : Array Variable) (clauses : List Clause) : Prop where
  no_parallel : ((clauses.filter (isJoin vars)).map ends).Nodup
  acyclic : (graphOf (clauses.filter (isJoin vars))).IsAcyclic

variable {R : Relation → Condition → Condition → Prop} {vars : Array Variable}
  {clauses : List Clause} {clause : Clause} {choice : VarId → Condition}

/-- A variable is named if it is declared and no wildcard. -/
theorem isNamed_iff {id : VarId} :
    IsNamed vars id ↔ vars[id]?.any (!·.isWildcard) = true := by
  simp [IsNamed, Option.any_eq_true]

/-- A clause is a join if it has two different named variables. -/
theorem isJoin_iff : isJoin vars clause = true ↔
    clause.left ≠ clause.right ∧ IsNamed vars clause.left ∧ IsNamed vars clause.right := by
  rw [isNamed_iff, isNamed_iff]
  simp [isJoin, and_assoc]

/-- The left variable of a clause is in it. -/
theorem occurs_left (h : clause ∈ clauses) : Occurs clauses clause.left := ⟨clause, h, Or.inl rfl⟩

/-- The right variable of a clause is in it. -/
theorem occurs_right (h : clause ∈ clauses) : Occurs clauses clause.right := ⟨clause, h, Or.inr rfl⟩

/-- A solution remains one if the relations hold of more pairs of the program. -/
theorem Solution.imp {R' : Relation → Condition → Condition → Prop} {p : Program}
    (h : Solution R vars clauses choice) (hin : ∀ id, ∀ c ∈ candidatesOf vars id, c.In p)
    (himp : ∀ rel c d, c.In p → d.In p → R rel c d → R' rel c d) :
    Solution R' vars clauses choice := by
  have hvalue : ∀ {id : VarId} {c : Condition}, Occurs clauses id → c ∈ valuesOf vars choice id →
      c.In p := by
    intro id c hid hc
    by_cases hnamed : IsNamed vars id
    · rw [hc.1 hnamed]
      exact hin id _ (h.candidate id hnamed hid)
    · exact hin id c (hc.2 hnamed)
  refine ⟨h.candidate, fun clause hclause => ?_⟩
  obtain ⟨c, hc, d, hd, hR, hsame⟩ := h.satisfied clause hclause
  exact ⟨c, hc, d, hd,
    himp _ c d (hvalue (occurs_left hclause) hc) (hvalue (occurs_right hclause) hd) hR, hsame⟩

/-! ## No solution is lost -/

/-- What a solution chooses, with all that wildcards range over. -/
def chosen (vars : Array Variable) (clauses : List Clause) (choice : VarId → Condition)
    (id : VarId) : Set Condition :=
  {c | c ∈ valuesOf vars choice id ∧ (IsNamed vars id → Occurs clauses id)}

/-- Every clause has a pair in what a solution chooses. -/
theorem Solution.satisfied_chosen (h : Solution R vars clauses choice)
    (hclause : clause ∈ clauses) :
    clause.Satisfied R (chosen vars clauses choice) := by
  obtain ⟨c, hc, d, hd, hR⟩ := h.satisfied clause hclause
  exact ⟨c, ⟨hc, fun _ => occurs_left hclause⟩, d, ⟨hd, fun _ => occurs_right hclause⟩, hR⟩

/-- **The values of a solution are a consistent family.** -/
theorem Solution.consistent (h : Solution R vars clauses choice) :
    Consistent R vars clauses (chosen vars clauses choice) := by
  refine ⟨?_, ?_, ?_⟩
  · rintro id c ⟨⟨hnamed, hwild⟩, hoccurs⟩
    by_cases hid : IsNamed vars id
    · rw [hnamed hid]
      exact h.candidate id hid (hoccurs hid)
    · exact hwild hid
  · intro id hid c hc
    exact ⟨⟨fun hnamed => absurd hnamed hid, fun _ => hc⟩, fun hnamed => absurd hnamed hid⟩
  · intro clause hclause
    obtain ⟨c, hc, d, hd, hR, hsame⟩ := h.satisfied_chosen hclause
    -- the only value of a named variable is the one that is in the pair
    refine ⟨?_, ?_, ?_⟩
    · intro _ hnamed c' hc'
      rw [hc'.1.1 hnamed, ← hc.1.1 hnamed]
      exact ⟨d, hd, hR⟩
    · intro _ hnamed d' hd'
      rw [hd'.1.1 hnamed, ← hd.1.1 hnamed]
      exact ⟨c, hc, hR⟩
    · intro heq hnamed c' hc'
      rw [hc'.1.1 hnamed, ← hc.1.1 hnamed]
      rw [← hsame heq] at hR
      exact hR

/-! ## Choices for forests -/

/-- Both sides of a clause between two variables have values, each with a partner on the other
side. -/
structure Partnered (R : Relation → Condition → Condition → Prop) (family : VarId → Set Condition)
    (clause : Clause) : Prop where
  ne : clause.left ≠ clause.right
  nonempty : (family clause.left).Nonempty ∧ (family clause.right).Nonempty
  left : ∀ c ∈ family clause.left, ∃ d ∈ family clause.right, R clause.relation c d
  right : ∀ d ∈ family clause.right, ∃ c ∈ family clause.left, R clause.relation c d

/-- The choice is from the family, and clauses hold of it. -/
structure Agrees (R : Relation → Condition → Condition → Prop) (family : VarId → Set Condition)
    (clauses : List Clause) (choice : VarId → Condition) : Prop where
  mem : ∀ id, (family id).Nonempty → choice id ∈ family id
  holds : ∀ clause ∈ clauses, R clause.relation (choice clause.left) (choice clause.right)

variable {family : VarId → Set Condition} {x u v : VarId} {c : Condition}

/-- A further clause is a further edge. -/
theorem graphOf_cons : graphOf (clause :: clauses) =
    graphOf clauses ⊔ SimpleGraph.edge clause.left clause.right := by
  ext u v
  simp only [graphOf, ends, SimpleGraph.edge, SimpleGraph.fromEdgeSet_adj, SimpleGraph.sup_adj,
    List.map_cons, List.mem_cons, Set.mem_ofPred_eq, Set.mem_singleton_iff]
  rw [← or_and_right, or_comm]

/-- Two different variables of a clause are joined by an edge. -/
theorem adj_of_mem (h : clause ∈ clauses) (hne : clause.left ≠ clause.right) :
    (graphOf clauses).Adj clause.left clause.right := by
  have hmem : ends clause ∈ clauses.map ends := List.mem_map_of_mem h
  exact (SimpleGraph.fromEdgeSet_adj _).mpr ⟨hmem, hne⟩

/-- The first clause of a forest joins two variables that the other clauses do not connect. -/
theorem not_reachable_of_cons (hne : clause.left ≠ clause.right)
    (hnodup : ((clause :: clauses).map ends).Nodup)
    (hacyclic : (graphOf (clause :: clauses)).IsAcyclic) :
    (graphOf clauses).IsAcyclic ∧ ¬ (graphOf clauses).Reachable clause.left clause.right := by
  rw [graphOf_cons, SimpleGraph.isAcyclic_sup_fromEdgeSet_iff] at hacyclic
  refine ⟨hacyclic.1, fun hreach => ?_⟩
  rcases hacyclic.2 hreach with heq | hadj
  · exact hne heq
  · have hmem : ends clause ∈ clauses.map ends := ((SimpleGraph.fromEdgeSet_adj _).mp hadj).1
    exact (List.nodup_cons.mp hnodup).1 hmem

/-- Two choices are joined along two variables that clauses do not connect: the second is taken for
what is connected to `v`, the first for everything else. -/
theorem exists_joined {first second : VarId → Condition}
    (hpartnered : ∀ clause ∈ clauses, Partnered R family clause)
    (hfirst : Agrees R family clauses first) (hsecond : Agrees R family clauses second)
    (hapart : ¬ (graphOf clauses).Reachable u v) :
    ∃ choice, Agrees R family clauses choice ∧ choice u = first u ∧ choice v = second v ∧
      ∀ x, ¬ (graphOf clauses).Reachable x v → choice x = first x := by
  classical
  refine ⟨fun x => if (graphOf clauses).Reachable x v then second x else first x, ⟨?_, ?_⟩, ?_, ?_,
    ?_⟩
  · intro id hid
    by_cases hx : (graphOf clauses).Reachable id v
    · simpa only [if_pos hx] using hsecond.mem id hid
    · simpa only [if_neg hx] using hfirst.mem id hid
  · intro clause hclause
    -- the two variables of a clause are both connected to `v` or both not
    have hadj := adj_of_mem hclause (hpartnered clause hclause).ne
    by_cases hx : (graphOf clauses).Reachable clause.left v
    · have hy : (graphOf clauses).Reachable clause.right v := hadj.symm.reachable.trans hx
      simpa only [if_pos hx, if_pos hy] using hsecond.holds clause hclause
    · have hy : ¬ (graphOf clauses).Reachable clause.right v :=
        fun hy => hx (hadj.reachable.trans hy)
      simpa only [if_neg hx, if_neg hy] using hfirst.holds clause hclause
  · exact if_neg hapart
  · exact if_pos (SimpleGraph.Reachable.refl v)
  · intro x hx
    exact if_neg hx

/-- Without clauses, any choice from the family agrees, and each of its values can be chosen. -/
theorem exists_agrees_nil (hc : c ∈ family x) :
    ∃ choice, Agrees R family [] choice ∧ choice x = c := by
  have hvalue : ∀ id, ∃ d, ((family id).Nonempty → d ∈ family id) ∧ (id = x → d = c) := by
    intro id
    by_cases hx : id = x
    · subst hx
      exact ⟨c, fun _ => hc, fun _ => rfl⟩
    · by_cases hid : (family id).Nonempty
      · exact ⟨hid.some, fun _ => hid.some_mem, fun h => absurd h hx⟩
      · exact ⟨c, fun h => absurd h hid, fun h => absurd h hx⟩
  choose choice hchoice using hvalue
  exact ⟨choice, ⟨fun id => (hchoice id).1, by simp⟩, (hchoice x).2 rfl⟩

/-- **Choices for forests**: any value of any variable is part of a choice that agrees with all
clauses of a forest. -/
theorem exists_agrees (hpartnered : ∀ clause ∈ clauses, Partnered R family clause)
    (hnodup : (clauses.map ends).Nodup) (hacyclic : (graphOf clauses).IsAcyclic)
    (hc : c ∈ family x) :
    ∃ choice, Agrees R family clauses choice ∧ choice x = c := by
  induction clauses generalizing x c with
  | nil => exact exists_agrees_nil hc
  | cons clause clauses ih =>
    obtain ⟨hclause, hrest⟩ := List.forall_mem_cons.mp hpartnered
    obtain ⟨hacyclicRest, hapart⟩ := not_reachable_of_cons hclause.ne hnodup hacyclic
    have hchoice : ∀ {x : VarId} {c : Condition}, c ∈ family x →
        ∃ choice, Agrees R family clauses choice ∧ choice x = c :=
      fun hc => ih hrest (List.nodup_cons.mp hnodup).2 hacyclicRest hc
    obtain ⟨first, hfirst, hx⟩ := hchoice hc
    -- what the first choice has on the side of `x` stays, and the other side is chosen anew
    by_cases hside : (graphOf clauses).Reachable x clause.right
    · obtain ⟨c', hc', hR⟩ := hclause.right _ (hfirst.mem _ hclause.nonempty.2)
      obtain ⟨second, hsecond, hvalue⟩ := hchoice hc'
      obtain ⟨choice, hagrees, hr, hl, hkeep⟩ :=
        exists_joined hrest hfirst hsecond fun h => hapart h.symm
      refine ⟨choice, ⟨hagrees.mem, List.forall_mem_cons.mpr ⟨?_, hagrees.holds⟩⟩, ?_⟩
      · rw [hl, hr, hvalue]
        exact hR
      · rw [hkeep x fun h => hapart (h.symm.trans hside), hx]
    · obtain ⟨d, hd, hR⟩ := hclause.left _ (hfirst.mem _ hclause.nonempty.1)
      obtain ⟨second, hsecond, hvalue⟩ := hchoice hd
      obtain ⟨choice, hagrees, hl, hr, hkeep⟩ := exists_joined hrest hfirst hsecond hapart
      refine ⟨choice, ⟨hagrees.mem, List.forall_mem_cons.mpr ⟨?_, hagrees.holds⟩⟩, ?_⟩
      · rw [hl, hr, hvalue]
        exact hR
      · rw [hkeep x hside, hx]

/-! ## Solutions in consistent families -/

/-- A named variable stands for its chosen value. -/
theorem choice_mem_valuesOf (choice : VarId → Condition) {id : VarId} (h : IsNamed vars id) :
    choice id ∈ valuesOf vars choice id :=
  ⟨fun _ => rfl, fun hwild => absurd h hwild⟩

/-- A wildcard stands for all that it ranges over. -/
theorem mem_valuesOf_wildcard {id : VarId} (h : ¬ IsNamed vars id) (hc : c ∈ candidatesOf vars id) :
    c ∈ valuesOf vars choice id :=
  ⟨fun hnamed => absurd hnamed h, fun _ => hc⟩

/-- A clause of a consistent family holds of a choice from the family, if it holds of it as a
join. -/
theorem Consistent.satisfied (h : Consistent R vars clauses family) (hclause : clause ∈ clauses)
    (hsat : clause.Satisfied R family)
    (hmem : ∀ id, (family id).Nonempty → choice id ∈ family id)
    (hjoin : isJoin vars clause = true →
      R clause.relation (choice clause.left) (choice clause.right)) :
    clause.Satisfied R (valuesOf vars choice) := by
  have hclosed := h.closed clause hclause
  obtain ⟨c, hc, d, hd, hR, heq⟩ := hsat
  by_cases hsame : clause.left = clause.right
  · have hd' := heq hsame
    subst hd'
    by_cases hl : IsNamed vars clause.left
    · have hself := hclosed.self hsame hl _ (hmem _ ⟨c, hc⟩)
      refine ⟨_, choice_mem_valuesOf choice hl, _, ?_, hself, fun _ => rfl⟩
      rw [← hsame]
      exact choice_mem_valuesOf choice hl
    · have hr : ¬ IsNamed vars clause.right := hsame ▸ hl
      exact ⟨c, mem_valuesOf_wildcard hl (h.within _ hc), c,
        mem_valuesOf_wildcard hr (h.within _ hd), hR, heq⟩
  · have hne : ∀ {c d : Condition}, clause.left = clause.right → c = d := fun h => absurd h hsame
    by_cases hl : IsNamed vars clause.left <;> by_cases hr : IsNamed vars clause.right
    · exact ⟨_, choice_mem_valuesOf choice hl, _, choice_mem_valuesOf choice hr,
        hjoin (isJoin_iff.mpr ⟨hsame, hl, hr⟩), hne⟩
    · obtain ⟨d', hd', hR'⟩ := hclosed.left hsame hl _ (hmem _ ⟨c, hc⟩)
      exact ⟨_, choice_mem_valuesOf choice hl, d', mem_valuesOf_wildcard hr (h.within _ hd'), hR',
        hne⟩
    · obtain ⟨c', hc', hR'⟩ := hclosed.right hsame hr _ (hmem _ ⟨d, hd⟩)
      exact ⟨c', mem_valuesOf_wildcard hl (h.within _ hc'), _, choice_mem_valuesOf choice hr, hR',
        hne⟩
    · exact ⟨c, mem_valuesOf_wildcard hl (h.within _ hc), d,
        mem_valuesOf_wildcard hr (h.within _ hd), hR, hne⟩

/-- If all clauses have pairs, the variables in them have values. -/
theorem nonempty_of_occurs {id : VarId} (hsat : ∀ clause ∈ clauses, clause.Satisfied R family)
    (h : Occurs clauses id) : (family id).Nonempty := by
  obtain ⟨clause, hclause, hid⟩ := h
  obtain ⟨c, hc, d, hd, -⟩ := hsat clause hclause
  rcases hid with rfl | rfl
  · exact ⟨c, hc⟩
  · exact ⟨d, hd⟩

/-- **In a forest, every value of a consistent family is part of a solution** from the family, if
every clause has a pair in it. -/
theorem Forest.exists_solution (hforest : Forest vars clauses)
    (h : Consistent R vars clauses family) (hsat : ∀ clause ∈ clauses, clause.Satisfied R family)
    (hc : c ∈ family x) :
    ∃ choice, Solution R vars clauses choice ∧ choice x = c ∧
      ∀ id, Occurs clauses id → choice id ∈ family id := by
  have hpartnered : ∀ clause ∈ clauses.filter (isJoin vars), Partnered R family clause := by
    intro clause hclause
    obtain ⟨hclause, hjoin⟩ := List.mem_filter.mp hclause
    obtain ⟨hne, hl, hr⟩ := isJoin_iff.mp hjoin
    have hclosed := h.closed clause hclause
    exact ⟨hne, ⟨nonempty_of_occurs hsat (occurs_left hclause),
      nonempty_of_occurs hsat (occurs_right hclause)⟩, hclosed.left hne hl, hclosed.right hne hr⟩
  obtain ⟨choice, hagrees, hx⟩ := exists_agrees hpartnered hforest.no_parallel hforest.acyclic hc
  have hmem : ∀ id, Occurs clauses id → choice id ∈ family id :=
    fun id hid => hagrees.mem id (nonempty_of_occurs hsat hid)
  refine ⟨choice, ⟨?_, ?_⟩, hx, hmem⟩
  · intro id _ hid
    exact h.within id (hmem id hid)
  · intro clause hclause
    exact h.satisfied hclause (hsat clause hclause) hagrees.mem fun hjoin =>
      hagrees.holds clause (List.mem_filter.mpr ⟨hclause, hjoin⟩)

/-! ## Runs -/

/-- **Queries and solutions**. Over the conditions of a program every query is answered, and if it
is answered with no, it has no solution. If it is answered with yes, all values of solutions are
left as candidates. If its clauses make a forest, it is answered with yes exactly if it has a
solution, and then every candidate that is left is part of a solution made of candidates that are
left. -/
theorem run_solutions {p : Program} (h : p.Built) (settings : Settings) (query : Query)
    (hvars : ∀ id, ∀ c ∈ candidatesOf query.vars id, c.In p)
    (hclauses : ∀ clause ∈ query.clauses,
      clause.left < query.vars.size ∧ clause.right < query.vars.size) :
    ∃ (a : Analysis) (b : Bool),
      Analysis.ofProgram settings p = .ok a ∧ (query.run a.solvers).2 = .ok b ∧
      (b = false → ∀ choice, ¬ query.SolvedBy a.solvers choice) ∧
      (b = true → ∀ choice, query.SolvedBy a.solvers choice →
        ∀ id, IsNamed query.vars id → Occurs query.clauses id →
          choice id ∈ candidatesOf (query.run a.solvers).1.vars id) ∧
      (Forest query.vars query.clauses →
        (b = true ↔ ∃ choice, query.SolvedBy a.solvers choice) ∧
        (b = true → ∀ x, IsNamed query.vars x → Occurs query.clauses x →
          ∀ c ∈ candidatesOf (query.run a.solvers).1.vars x,
            ∃ choice, query.SolvedBy a.solvers choice ∧ choice x = c ∧
              ∀ id, IsNamed query.vars id → Occurs query.clauses id →
                choice id ∈ candidatesOf (query.run a.solvers).1.vars id)) := by
  obtain ⟨a, hmade, -, hdecides⟩ := Analysis.decides_ofProgram h.wellFormed
  have hready : Ready p query.clauses query.vars := ⟨hvars, hclauses⟩
  obtain ⟨b, hrun, hiff, hleft⟩ := hready.run_eq query hdecides
  obtain ⟨hlargest, hgreatest⟩ := isGreatest_largest p.Related query.vars query.clauses
  -- what the solvers confirm is what is related
  have hsolution : ∀ choice, query.SolvedBy a.solvers choice ↔
      Solution p.Related query.vars query.clauses choice := by
    intro choice
    constructor
    · intro hchoice
      exact hchoice.imp hvars fun rel c d _ _ hholds =>
        ((hdecides rel).holds_iff c d true hholds).mp rfl
    · intro hchoice
      refine hchoice.imp hvars fun rel c d hc hd hR => ?_
      obtain ⟨b, hb⟩ := (hdecides rel).holds c d hc hd
      rw [hb, ((hdecides rel).holds_iff c d b hb).mpr hR]
  have hkept : ∀ choice, Solution p.Related query.vars query.clauses choice →
      ∀ id,
        chosen query.vars query.clauses choice id ⊆ largest p.Related query.vars query.clauses id :=
    fun choice hchoice => hgreatest hchoice.consistent
  have hyes : ∀ choice, Solution p.Related query.vars query.clauses choice → b = true := by
    intro choice hchoice
    exact hiff.mpr fun clause hclause =>
      (hchoice.satisfied_chosen hclause).mono (hkept choice hchoice)
  refine ⟨a, b, hmade settings, hrun, ?_, ?_, ?_⟩
  · intro hb choice hchoice
    have hb' := hyes choice ((hsolution choice).mp hchoice)
    simp [hb'] at hb
  · intro hb choice hchoice id hnamed hoccurs
    rw [hleft hb id]
    exact hkept choice ((hsolution choice).mp hchoice) id
      ⟨choice_mem_valuesOf choice hnamed, fun _ => hoccurs⟩
  · intro hforest
    refine ⟨⟨?_, ?_⟩, ?_⟩
    · intro hb
      have hsat := hiff.mp hb
      by_cases hsome : ∃ x c, c ∈ largest p.Related query.vars query.clauses x
      · obtain ⟨x, c, hc⟩ := hsome
        obtain ⟨choice, hchoice, -⟩ := hforest.exists_solution hlargest hsat hc
        exact ⟨choice, (hsolution choice).mpr hchoice⟩
      · -- without candidates there are no clauses
        have hnone : query.clauses = [] := by
          apply List.eq_nil_iff_forall_not_mem.mpr
          intro clause hclause
          obtain ⟨c, hc, -⟩ := hsat clause hclause
          exact hsome ⟨clause.left, c, hc⟩
        exact ⟨fun _ => .const 0, fun id _ hid => by simp [hnone, Occurs] at hid, by simp [hnone]⟩
    · rintro ⟨choice, hchoice⟩
      exact hyes choice ((hsolution choice).mp hchoice)
    · intro hb x hnamed hoccurs c hc
      rw [hleft hb x] at hc
      obtain ⟨choice, hchoice, hx, hmem⟩ := hforest.exists_solution hlargest (hiff.mp hb) hc
      refine ⟨choice, (hsolution choice).mpr hchoice, hx, ?_⟩
      intro id _ hid
      rw [hleft hb id]
      exact hmem id hid

/-- The joins of the example query make no cycle. -/
theorem exampleQuery_forest : Forest exampleQuery.vars exampleQuery.clauses := by
  have hjoins : exampleQuery.clauses.filter (isJoin exampleQuery.vars) = [⟨.parent, 0, 1⟩] := by
    decide
  have hempty : graphOf [] = ⊥ := by simp [graphOf]
  refine ⟨by simp [hjoins], ?_⟩
  rw [hjoins, graphOf_cons, hempty, SimpleGraph.isAcyclic_sup_fromEdgeSet_iff]
  exact ⟨SimpleGraph.isAcyclic_bot, fun h => Or.inl (SimpleGraph.reachable_bot.mp h)⟩

/-- The example query has solutions, and in all of them the assignment is the one in the branch. -/
theorem run_exampleQuery_solutions :
    exampleProgram.Built ∧ Forest exampleQuery.vars exampleQuery.clauses ∧
      ∃ a : Analysis, Analysis.ofProgram {} exampleProgram = .ok a ∧
        (∃ choice, exampleQuery.SolvedBy a.solvers choice) ∧
        ∀ choice, exampleQuery.SolvedBy a.solvers choice → choice 1 = .stmt 4 := by
  refine ⟨built_exampleProgram, exampleQuery_forest, ?_⟩
  obtain ⟨a, b, hmade, hrun, -, hkept, hforest⟩ :=
    run_solutions built_exampleProgram {} exampleQuery exampleQuery_in (by decide)
  obtain ⟨hanswer, hleft⟩ := run_exampleQuery_eq hmade
  have hb : b = true := Except.ok.inj (hrun.symm.trans hanswer)
  have hnamed : IsNamed exampleQuery.vars 1 := isNamed_iff.mpr (by decide)
  have hoccurs : Occurs exampleQuery.clauses 1 := ⟨⟨.parent, 0, 1⟩, by decide, Or.inr rfl⟩
  refine ⟨a, hmade, (hforest exampleQuery_forest).1.mp hb, ?_⟩
  intro choice hchoice
  exact (hleft _).mp (hkept hb choice hchoice 1 hnamed hoccurs)

end Query

end ProgramQuery
