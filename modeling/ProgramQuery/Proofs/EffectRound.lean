import ProgramQuery.Proofs.ExceptSteps
import ProgramQuery.Proofs.ListStructure
import ProgramQuery.Relation.Effect

/-!
# One round of the effect table

A round reads the variables of procedures off the round before it, goes through the lists of all
procedures and down into containers, and finds the variables of every statement. In a well-formed
program it finds for each statement the variables that the statement itself or one nested in it
names, where a call names those of the called procedure (`Effect.Reads`).

`Found.Describes` states this of the part of the program that was gone through. It holds of two
parts together (`Describes.append`), hence of a sequence of parts (`describes_collectAll`), of a
statement with its bodies (`describes_collectStmt`), and by induction on the depth of a whole list
(`describes_collectBody`). The depth suffices because the containers around a list are all
different. The result is the same whether or not the links back to containers are checked.
-/

set_option autoImplicit false

open Relation (ReflTransGen)

namespace ProgramQuery.Effect

open ExceptSteps
open Program

variable {effect : Effect} {procVars procVars' : ProcId → Vars} {p : Program} {s t : StmtId}
  {x : String}

/-- The statement `s`, or one nested in it, names the variable `x` itself. -/
def Reads (effect : Effect) (procVars : ProcId → Vars) (p : Program) (s : StmtId)
    (x : String) : Prop :=
  ∃ t stmt, ReflTransGen p.Inside s t ∧ p.stmts[t]? = some stmt ∧
    x ∈ effect.ownVars procVars stmt.kind

/-- A variable is read by the statement itself or by one directly inside it. -/
theorem reads_iff {stmt : Stmt} (hs : p.stmts[s]? = some stmt) :
    effect.Reads procVars p s x ↔
      x ∈ effect.ownVars procVars stmt.kind ∨ ∃ t, p.Inside s t ∧ effect.Reads procVars p t x := by
  constructor
  · rintro ⟨u, ustmt, hsu, hu, hx⟩
    rcases Relation.ReflTransGen.cases_head hsu with rfl | ⟨t, hst, htu⟩
    · rw [hs] at hu
      cases hu
      exact Or.inl hx
    · exact Or.inr ⟨t, hst, u, ustmt, htu, hu, hx⟩
  · rintro (hx | ⟨t, hst, u, ustmt, htu, hu, hx⟩)
    · exact ⟨s, stmt, .refl, hs, hx⟩
    · exact ⟨u, ustmt, .head hst htu, hu, hx⟩

/-- More variables of the procedures only add to those that a statement names. -/
theorem ownVars_mono (hsub : ∀ q y, y ∈ procVars q → y ∈ procVars' q) {kind : StmtKind StmtId}
    (hx : x ∈ effect.ownVars procVars kind) : x ∈ effect.ownVars procVars' kind := by
  cases kind with
  | call callee => exact hsub callee x hx
  | assign target value => exact hx
  | branch cond thenFirst elseFirst => exact hx
  | loop cond first => exact hx

/-- More variables of the procedures only add to those that are read in a statement. -/
theorem Reads.mono (hsub : ∀ q y, y ∈ procVars q → y ∈ procVars' q)
    (h : effect.Reads procVars p s x) : effect.Reads procVars' p s x := by
  obtain ⟨t, stmt, hst, ht, hx⟩ := h
  exact ⟨t, stmt, hst, ht, ownVars_mono hsub hx⟩

/-! ## Parts of a program -/

/-- What a statement adds to what is found in its bodies. -/
theorem collectStmt_eq {stmt : Stmt} (hs : p.stmts[s]? = some stmt)
    (body : StmtId → Option StmtId → Except Inconsistency Found) :
    effect.collectStmt procVars p body s =
      (collectAll (fun first => body first (some s)) stmt.kind.bodies >>= fun inner =>
        .ok ⟨(effect.ownVars procVars stmt.kind).union inner.vars,
          inner.stmts ++ [(s, (effect.ownVars procVars stmt.kind).union inner.vars)]⟩) := by
  unfold collectStmt
  rw [getStmt_eq_ok.mpr hs]
  rfl

/-- Collecting from a body collects from the members of its list. -/
theorem collectBody_eq {check : Bool} {depth : Nat} {first : StmtId} {owner : Option StmtId}
    {l : List StmtId} (hchain : p.chain check first owner = .ok l) :
    effect.collectBody procVars p check (depth + 1) first owner =
      collectAll (effect.collectStmt procVars p (effect.collectBody procVars p check depth)) l := by
  unfold collectBody
  rw [hchain]
  rfl

/-- What is found in a part of the program that consists of the statements in `part` with all that
is nested in them. -/
structure Found.Describes (effect : Effect) (procVars : ProcId → Vars) (p : Program) (found : Found)
    (part : StmtId → Prop) : Prop where
  mem_vars : ∀ x, x ∈ found.vars ↔ ∃ s, part s ∧ effect.Reads procVars p s x
  mem_entry : ∀ t vars, (t, vars) ∈ found.stmts → ∀ x, x ∈ vars ↔ effect.Reads procVars p t x
  has_entry : ∀ t, (∃ vars, (t, vars) ∈ found.stmts) ↔ ∃ s, part s ∧ ReflTransGen p.Inside s t

/-- Nothing is found in a part without statements. -/
theorem describes_nil : Found.Describes effect procVars p {} fun _ => False := by
  constructor <;> simp

/-- What is found in two parts, put together, describes both. -/
theorem Found.Describes.append {a b : Found} {part part' : StmtId → Prop}
    (ha : a.Describes effect procVars p part) (hb : b.Describes effect procVars p part') :
    (a.append b).Describes effect procVars p fun s => part s ∨ part' s := by
  refine ⟨?_, ?_, ?_⟩
  · intro x
    simp only [Found.append, SortedSet.mem_union, ha.mem_vars, hb.mem_vars, or_and_right,
      exists_or]
  · intro t vars hmem
    rcases List.mem_append.mp hmem with hmem | hmem
    · exact ha.mem_entry t vars hmem
    · exact hb.mem_entry t vars hmem
  · intro t
    simp only [Found.append, List.mem_append, exists_or, ha.has_entry, hb.has_entry, or_and_right]

/-- A part is described by its statements, however they are given. -/
theorem Found.Describes.congr {found : Found} {part part' : StmtId → Prop}
    (h : found.Describes effect procVars p part) (heq : ∀ s, part s ↔ part' s) :
    found.Describes effect procVars p part' := by
  have hparts : part = part' := funext fun s => propext (heq s)
  rw [← hparts]
  exact h

/-- Going through a sequence of parts finds what there is in all of them. -/
theorem describes_collectAll {α : Type} (collect : Bool → α → Except Inconsistency Found)
    (part : α → StmtId → Prop) (as : List α)
    (h : ∀ a ∈ as, ∃ found, (∀ check, collect check a = .ok found) ∧
      found.Describes effect procVars p (part a)) :
    ∃ found, (∀ check, collectAll (collect check) as = .ok found) ∧
      found.Describes effect procVars p fun s => ∃ a ∈ as, part a s := by
  induction as with
  | nil =>
    refine ⟨{}, fun check => rfl, describes_nil.congr ?_⟩
    simp
  | cons a as ih =>
    obtain ⟨found, hfound, hdesc⟩ := h a List.mem_cons_self
    obtain ⟨more, hmore, hdescMore⟩ := ih fun b hb => h b (List.mem_cons_of_mem a hb)
    refine ⟨found.append more, ?_, (hdesc.append hdescMore).congr ?_⟩
    · intro check
      unfold collectAll
      rw [hfound check, hmore check]
      rfl
    · simp

/-- Going through a statement finds what there is in it, if this holds of its bodies. -/
theorem describes_collectStmt {stmt : Stmt} (hp : p.WellFormed) (hs : p.stmts[s]? = some stmt)
    (body : Bool → StmtId → Option StmtId → Except Inconsistency Found)
    (hbody : ∀ first ∈ stmt.kind.bodies, ∃ found, (∀ check, body check first (some s) = .ok found) ∧
      found.Describes effect procVars p (p.ListFrom first)) :
    ∃ found, (∀ check, effect.collectStmt procVars p (body check) s = .ok found) ∧
      found.Describes effect procVars p fun t => t = s := by
  obtain ⟨inner, hinner, hdesc⟩ :=
    describes_collectAll (fun check first => body check first (some s)) p.ListFrom _ hbody
  -- the bodies together hold what is directly inside the statement
  replace hdesc := hdesc.congr fun t => (hp.inside_iff_listFrom hs).symm
  have hvars : ∀ x, x ∈ (effect.ownVars procVars stmt.kind).union inner.vars ↔
      effect.Reads procVars p s x := by
    intro x
    rw [SortedSet.mem_union, hdesc.mem_vars, reads_iff hs]
  refine ⟨⟨(effect.ownVars procVars stmt.kind).union inner.vars,
    inner.stmts ++ [(s, (effect.ownVars procVars stmt.kind).union inner.vars)]⟩, ?_, ?_, ?_, ?_⟩
  · intro check
    rw [collectStmt_eq hs, hinner check]
    rfl
  · intro x
    rw [hvars x]
    simp
  · intro t vars hmem
    rcases List.mem_append.mp hmem with hmem | hmem
    · exact hdesc.mem_entry t vars hmem
    · cases List.mem_singleton.mp hmem
      exact hvars
  · intro t
    constructor
    · rintro ⟨vars, hmem⟩
      rcases List.mem_append.mp hmem with hmem | hmem
      · obtain ⟨u, hsu, hut⟩ := (hdesc.has_entry t).mp ⟨vars, hmem⟩
        exact ⟨s, rfl, .head hsu hut⟩
      · cases List.mem_singleton.mp hmem
        exact ⟨s, rfl, .refl⟩
    · rintro ⟨u, rfl, hut⟩
      rcases Relation.ReflTransGen.cases_head hut with rfl | ⟨v, huv, hvt⟩
      · exact ⟨_, List.mem_append_right _ List.mem_cons_self⟩
      · obtain ⟨vars, hmem⟩ := (hdesc.has_entry t).mpr ⟨v, huv, hvt⟩
        exact ⟨vars, List.mem_append_left _ hmem⟩

/-- **Going through a list** finds what there is in it. Depth is left for all containers around the
list together with those that can still be met. -/
theorem describes_collectBody (hp : p.WellFormed) {depth : Nat} {site : ListSite} {first : StmtId}
    {around : List StmtId} (hfirst : p.firstAt? site = some first)
    (haround : p.Path .parent site.container around)
    (hdepth : p.stmts.size < around.length + depth) :
    ∃ found, (∀ check, effect.collectBody procVars p check depth first site.container = .ok found) ∧
      found.Describes effect procVars p (p.ListFrom first) := by
  induction depth generalizing site first around with
  | zero =>
    have := haround.length_le
    omega
  | succ depth ih =>
    obtain ⟨l, hl, hchain⟩ := hp.chain_eq hfirst
    have hstmts : ∀ s ∈ l, ∃ found, (∀ check, effect.collectStmt procVars p
        (effect.collectBody procVars p check depth) s = .ok found) ∧
          found.Describes effect procVars p fun t => t = s := by
      intro s hs
      have hon : p.OnList site s := hl.mem_iff.mp hs
      obtain ⟨stmt, hstmt⟩ := exists_stmt hon.lt_size
      refine describes_collectStmt hp hstmt
        (fun check => effect.collectBody procVars p check depth) ?_
      intro first' hfirst'
      obtain ⟨slot, hslot⟩ := List.mem_iff_getElem?.mp hfirst'
      -- one more container is around the bodies of `s`
      have hpath : p.Path .parent (some s) (s :: around) := by
        refine Path.step hstmt ?_
        rw [Link.target, hp.parent_eq hstmt hon]
        exact haround
      refine ih (firstAt?_ofBody.mpr ⟨stmt, hstmt, hslot⟩) hpath ?_
      rw [List.length_cons]
      omega
    obtain ⟨found, hfound, hdesc⟩ := describes_collectAll
      (fun check => effect.collectStmt procVars p (effect.collectBody procVars p check depth))
      (fun s t => t = s) l hstmts
    refine ⟨found, ?_, hdesc.congr ?_⟩
    · intro check
      rw [collectBody_eq (hchain check)]
      exact hfound check
    · intro t
      rw [← hl.mem_iff_listFrom hfirst]
      simp

/-! ## All procedures -/

/-- The variables of procedures, as the next round reads them. -/
def varsAt (before : List Vars) (q : ProcId) : Vars := before.getD q ∅

/-- What a round gives, on the variables of procedures from the round before. -/
structure Table.Describes (effect : Effect) (before : List Vars) (p : Program)
    (table : Table) : Prop where
  length_eq : table.procs.length = p.procs.size
  mem_proc : ∀ q, q < p.procs.size → ∀ x, x ∈ varsAt table.procs q ↔
    ∃ s, p.OnList (.ofProc q) s ∧ effect.Reads (varsAt before) p s x
  mem_entry : ∀ s vars, (s, vars) ∈ table.stmts →
    ∀ x, x ∈ vars ↔ effect.Reads (varsAt before) p s x
  has_entry : ∀ s, (∃ vars, (s, vars) ∈ table.stmts) ↔ s < p.stmts.size

/-- **A round** finds the variables of all procedures and of all statements. -/
theorem describes_round (effect : Effect) (hp : p.WellFormed) (before : List Vars) :
    ∃ table, (∀ check, effect.round p check before = .ok table) ∧
      table.Describes effect before p := by
  have hprocs : ∀ proc ∈ p.procs.toList, ∃ found,
      (∀ check, effect.collectBody (varsAt before) p check (p.stmts.size + 1) proc.first none =
        .ok found) ∧ found.Describes effect (varsAt before) p (p.ListFrom proc.first) := by
    intro proc hproc
    obtain ⟨q, hq⟩ := List.mem_iff_getElem?.mp hproc
    have hfirst : p.firstAt? (.ofProc q) = some proc.first :=
      firstAt?_ofProc.mpr ⟨proc, by simpa using hq, rfl⟩
    exact describes_collectBody hp hfirst Path.done (by simp)
  obtain ⟨founds, hfounds, hall⟩ := exists_mapM_eq_ok hprocs
  have hdescribes : ∀ {q : ProcId} {proc : Proc} {found : Found}, p.procs[q]? = some proc →
      found.Describes effect (varsAt before) p (p.ListFrom proc.first) →
      found.Describes effect (varsAt before) p (p.OnList (.ofProc q)) := by
    intro q proc found hq hdesc
    have hfirst : p.firstAt? (.ofProc q) = some proc.first := firstAt?_ofProc.mpr ⟨proc, hq, rfl⟩
    exact hdesc.congr fun s => (onList_iff hfirst).symm
  have hfound : ∀ q, q < p.procs.size → ∃ found, founds[q]? = some found ∧
      found.Describes effect (varsAt before) p (p.OnList (.ofProc q)) := by
    intro q hq
    have hproc := Array.getElem?_eq_getElem hq
    obtain ⟨found, hget, hdesc⟩ := getElem?_of_forall₂ hall q p.procs[q] (by simp [hq])
    exact ⟨found, hget, hdescribes hproc hdesc⟩
  have hproc : ∀ found ∈ founds, ∃ q,
      found.Describes effect (varsAt before) p (p.OnList (.ofProc q)) := by
    intro found hmem
    obtain ⟨q, hq⟩ := List.mem_iff_getElem?.mp hmem
    obtain ⟨proc, hproc, hdesc⟩ := getElem?_of_forall₂ hall.flip q found hq
    exact ⟨q, hdescribes (by simpa using hproc) hdesc⟩
  refine ⟨⟨founds.map (·.vars), founds.flatMap (·.stmts)⟩, ?_, ?_, ?_, ?_, ?_⟩
  · intro check
    unfold round
    show (do
      let found ← p.procs.toList.mapM fun proc : Proc =>
        effect.collectBody (varsAt before) p check (p.stmts.size + 1) proc.first none
      _) = _
    rw [hfounds check]
    rfl
  · simpa using hall.length_eq.symm
  · intro q hq x
    obtain ⟨found, hget, hdesc⟩ := hfound q hq
    rw [← hdesc.mem_vars]
    simp [varsAt, hget]
  · intro s vars hmem
    obtain ⟨found, hmemFound, hmem⟩ := List.mem_flatMap.mp hmem
    obtain ⟨q, hdesc⟩ := hproc found hmemFound
    exact hdesc.mem_entry s vars hmem
  · intro s
    constructor
    · rintro ⟨vars, hmem⟩
      obtain ⟨found, hmemFound, hmem⟩ := List.mem_flatMap.mp hmem
      obtain ⟨q, hdesc⟩ := hproc found hmemFound
      obtain ⟨t, ht, hts⟩ := (hdesc.has_entry s).mp ⟨vars, hmem⟩
      rcases Relation.ReflTransGen.cases_tail hts with rfl | ⟨u, -, hus⟩
      · exact ht.lt_size
      · exact hus.lt_size
    · intro hs
      obtain ⟨stmt, hstmt⟩ := exists_stmt hs
      obtain ⟨l, outermost, hl, hlast, hon⟩ := hp.owner_eq s stmt hstmt
      have haround : ReflTransGen p.Inside outermost s :=
        reflTransGen_inside.mpr (hl.mem_iff_reflTransGen.mp (List.mem_of_getLast? hlast))
      obtain ⟨found, hget, hdesc⟩ := hfound stmt.owner hon.owner_lt
      obtain ⟨vars, hmem⟩ := (hdesc.has_entry s).mpr ⟨outermost, hon, haround⟩
      exact ⟨vars, List.mem_flatMap.mpr ⟨found, List.mem_of_getElem? hget, hmem⟩⟩

end ProgramQuery.Effect
