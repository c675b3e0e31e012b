import Mathlib.Data.List.Forall2
import ProgramQuery.Proofs.EffectRound
import ProgramQuery.Proofs.ProgramTables
import ProgramQuery.Proofs.SortedSetLaws

/-!
# The rounds of the effect table end

Nothing is asked of the program here: its links may lead anywhere, and a round may be refused. A
round that is not refused finds variables that statements name (`mem_stmtVars_of_round`), and from
more variables of procedures it finds more (`grows_round`). So the variables of procedures grow from
round to round, and as long as something changes the number of pairs found goes up (`total_lt`).
There are no more pairs than procedures and variables allow, hence the limit on the number of rounds
is of no consequence (`rounds_limit`), and the table is one that a further round does not change
(`table_limit`).
-/

set_option autoImplicit false

namespace ProgramQuery.Effect

open ExceptSteps
open Program

variable {effect : Effect} {procVars procVars' : ProcId → Vars} {p : Program} {check : Bool}
  {owner : Option StmtId} {first : StmtId} {depth : Nat} {found : Found} {x : String}

/-! ## What is found in lists -/

/-- What is collected from a list was collected from one of its elements. -/
theorem exists_of_mem_collectAll {α : Type} {collect : α → Except Inconsistency Found} {as : List α}
    (h : collectAll collect as = .ok found) (hx : x ∈ found.vars) :
    ∃ a ∈ as, ∃ part, collect a = .ok part ∧ x ∈ part.vars := by
  induction as generalizing found with
  | nil =>
    cases h
    exact absurd hx SortedSet.not_mem_empty
  | cons a as ih =>
    obtain ⟨part, hpart, h⟩ := bind_eq_ok.mp h
    obtain ⟨more, hmore, h⟩ := bind_eq_ok.mp h
    cases h
    rcases SortedSet.mem_union.mp hx with hx | hx
    · exact ⟨a, List.mem_cons_self, part, hpart, hx⟩
    · obtain ⟨b, hb, rest⟩ := ih hmore hx
      exact ⟨b, List.mem_cons_of_mem a hb, rest⟩

/-- Every variable found is named by some statement. -/
theorem exists_of_mem_collectBody
    (h : effect.collectBody procVars p check depth first owner = .ok found) (hx : x ∈ found.vars) :
    ∃ (s : StmtId) (stmt : Stmt), p.stmts[s]? = some stmt ∧
      x ∈ effect.ownVars procVars stmt.kind := by
  induction depth generalizing first owner found with
  | zero => cases h
  | succ depth ih =>
    obtain ⟨l, hchain, h⟩ := bind_eq_ok.mp h
    obtain ⟨s, hs, part, hpart, hx⟩ := exists_of_mem_collectAll h hx
    obtain ⟨stmt, hstmt⟩ := exists_stmt ((chain_eq_ok hchain).1.lt_size hs)
    rw [collectStmt_eq hstmt] at hpart
    obtain ⟨inner, hinner, hpart⟩ := bind_eq_ok.mp hpart
    cases hpart
    rcases SortedSet.mem_union.mp hx with hx | hx
    · exact ⟨s, stmt, hstmt, hx⟩
    · obtain ⟨body, -, bodyFound, hbody, hx⟩ := exists_of_mem_collectAll hinner hx
      exact ih hbody hx

/-- If more is found in each part, then more is found in all parts together. -/
theorem collectAll_mono {α : Type} {collect collect' : α → Except Inconsistency Found} {as : List α}
    (hmono : ∀ a ∈ as, ∀ part, collect a = .ok part →
      ∃ part', collect' a = .ok part' ∧ ∀ x, x ∈ part.vars → x ∈ part'.vars)
    (h : collectAll collect as = .ok found) :
    ∃ found', collectAll collect' as = .ok found' ∧ ∀ x, x ∈ found.vars → x ∈ found'.vars := by
  induction as generalizing found with
  | nil =>
    cases h
    exact ⟨{}, rfl, fun x hx => hx⟩
  | cons a as ih =>
    obtain ⟨part, hpart, h⟩ := bind_eq_ok.mp h
    obtain ⟨more, hmore, h⟩ := bind_eq_ok.mp h
    cases h
    obtain ⟨part', hpart', hsub⟩ := hmono a List.mem_cons_self part hpart
    obtain ⟨more', hmore', hsubMore⟩ := ih (fun b hb => hmono b (List.mem_cons_of_mem a hb)) hmore
    refine ⟨part'.append more', bind_eq_ok.mpr ⟨part', hpart', bind_eq_ok.mpr ⟨more', hmore', rfl⟩⟩,
      ?_⟩
    intro x hx
    rcases SortedSet.mem_union.mp hx with hx | hx
    · exact SortedSet.mem_union.mpr (.inl (hsub x hx))
    · exact SortedSet.mem_union.mpr (.inr (hsubMore x hx))

/-- More variables of procedures give more variables of a list, and no refusal. -/
theorem collectBody_mono (hsub : ∀ q x, x ∈ procVars q → x ∈ procVars' q)
    (h : effect.collectBody procVars p check depth first owner = .ok found) :
    ∃ found', effect.collectBody procVars' p check depth first owner = .ok found' ∧
      ∀ x, x ∈ found.vars → x ∈ found'.vars := by
  induction depth generalizing first owner found with
  | zero => cases h
  | succ depth ih =>
    obtain ⟨l, hchain, h⟩ := bind_eq_ok.mp h
    rw [collectBody_eq hchain]
    refine collectAll_mono ?_ h
    intro s hs part hpart
    obtain ⟨stmt, hstmt⟩ := exists_stmt ((chain_eq_ok hchain).1.lt_size hs)
    rw [collectStmt_eq hstmt] at hpart ⊢
    obtain ⟨inner, hinner, hpart⟩ := bind_eq_ok.mp hpart
    cases hpart
    obtain ⟨inner', hinner', hsubInner⟩ :=
      collectAll_mono (fun body _ bodyFound hbody => ih hbody) hinner
    refine ⟨_, bind_eq_ok.mpr ⟨inner', hinner', rfl⟩, ?_⟩
    intro x hx
    rcases SortedSet.mem_union.mp hx with hx | hx
    · exact SortedSet.mem_union.mpr (.inl (ownVars_mono hsub hx))
    · exact SortedSet.mem_union.mpr (.inr (hsubInner x hx))

/-! ## Variables that grow -/

variable {before after : List Vars} {table table' : Table} {q : ProcId}

/-- The variables of each procedure are among those found later. -/
def Grows (before after : List Vars) : Prop :=
  List.Forall₂ (fun vars vars' : Vars => ∀ x, x ∈ vars → x ∈ vars') before after

/-- Variables have grown exactly if they are of as many procedures, and each procedure still has
those it had. -/
theorem grows_iff : Grows before after ↔
    before.length = after.length ∧ ∀ q x, x ∈ varsAt before q → x ∈ varsAt after q := by
  unfold Grows
  rw [List.forall₂_iff_get]
  refine and_congr_right fun hlen => ?_
  constructor
  · intro h q x hx
    by_cases hq : q < before.length
    · have hq' : q < after.length := hlen ▸ hq
      have hsub := h q hq hq' x
      simp only [varsAt, List.getD_eq_getElem?_getD, List.getElem?_eq_getElem hq,
        List.getElem?_eq_getElem hq', Option.getD_some] at hx ⊢
      exact hsub hx
    · simp [varsAt, hq] at hx
  · intro h q hq hq' x hx
    have hsub := h q x
    simp only [varsAt, List.getD_eq_getElem?_getD, List.getElem?_eq_getElem hq,
      List.getElem?_eq_getElem hq', Option.getD_some] at hsub
    exact hsub hx

/-- The number of pairs of a procedure and a variable. -/
def total (before : List Vars) : Nat := before.foldr (fun vars n => vars.size + n) 0

/-- Lists of variables that grow have more pairs, unless they are the same. -/
theorem total_lt (h : Grows before after) (hne : after ≠ before) : total before < total after := by
  -- no procedure loses variables, so the totals are equal only if no procedure gains any
  have hboth : total before ≤ total after ∧ (total after ≤ total before → after = before) := by
    clear hne
    induction h with
    | nil => exact ⟨Nat.le_refl _, fun _ => rfl⟩
    | @cons vars vars' before after hsub hrest ih =>
      have hsize := SortedSet.size_le_of_subset hsub
      have htotal : total (vars :: before) = vars.size + total before := rfl
      have htotal' : total (vars' :: after) = vars'.size + total after := rfl
      rw [htotal, htotal']
      refine ⟨by omega, ?_⟩
      intro hle
      rw [SortedSet.eq_of_subset_of_size_le hsub (by omega), ih.2 (by omega)]
  by_contra hle
  exact hne (hboth.2 (by omega))

/-- There are no more pairs than procedures and variables of the program allow. -/
theorem total_le (hvars : ∀ q x, x ∈ varsAt before q → x ∈ p.stmtVars)
    (hlen : before.length = p.procs.size) : total before ≤ p.procs.size * p.stmtVars.size := by
  have hbound : ∀ (l : List Vars), (∀ vars ∈ l, vars.size ≤ p.stmtVars.size) →
      total l ≤ l.length * p.stmtVars.size := by
    intro l hl
    induction l with
    | nil => simp [total]
    | cons vars l ih =>
      have hvars := hl vars List.mem_cons_self
      have hrest := ih fun v hv => hl v (List.mem_cons_of_mem vars hv)
      have htotal : total (vars :: l) = vars.size + total l := rfl
      rw [htotal, List.length_cons, Nat.succ_mul]
      omega
  rw [← hlen]
  apply hbound
  intro vars hmem
  obtain ⟨q, hq⟩ := List.mem_iff_getElem?.mp hmem
  apply SortedSet.size_le_of_subset
  intro x hx
  refine hvars q x ?_
  simpa [varsAt, hq] using hx

/-! ## Rounds -/

/-- A round finds variables for as many procedures as there are. -/
theorem length_round (h : effect.round p check before = .ok table) :
    table.procs.length = p.procs.size := by
  obtain ⟨founds, hfounds, h⟩ := bind_eq_ok.mp h
  cases h
  simpa using (getElem?_of_mapM hfounds).1

/-- The variables of a procedure are those found in its list. -/
theorem mem_varsAt_round (h : effect.round p check before = .ok table) :
    x ∈ varsAt table.procs q ↔ ∃ proc found, p.procs[q]? = some proc ∧
      effect.collectBody (varsAt before) p check (p.stmts.size + 1) proc.first none = .ok found ∧
      x ∈ found.vars := by
  obtain ⟨founds, hfounds, h⟩ := bind_eq_ok.mp h
  cases h
  obtain ⟨hlen, hall⟩ := getElem?_of_mapM hfounds
  rw [Array.length_toList] at hlen
  simp only [Array.getElem?_toList] at hall
  constructor
  · intro hx
    have hq : q < p.procs.size := by
      by_contra hq
      have hnone : founds[q]? = none := List.getElem?_eq_none (hlen.trans_le (Nat.le_of_not_lt hq))
      simp [varsAt, hnone] at hx
    obtain ⟨found, hget, hfound⟩ := hall q p.procs[q] (Array.getElem?_eq_getElem hq)
    refine ⟨_, found, Array.getElem?_eq_getElem hq, hfound, ?_⟩
    simpa [varsAt, hget] using hx
  · rintro ⟨proc, found, hq, hfound, hx⟩
    obtain ⟨found', hget, hfound'⟩ := hall q proc hq
    cases hfound.symm.trans hfound'
    simpa [varsAt, hget] using hx

/-- The variables that a statement names itself are those of its own, and for a call those of the
called procedure. -/
theorem mem_vars_or_call {kind : StmtKind StmtId} (hx : x ∈ effect.ownVars procVars kind) :
    x ∈ kind.vars ∨ ∃ callee, x ∈ procVars callee := by
  cases kind with
  | assign target value =>
    left
    cases effect with
    | modifies => exact SortedSet.mem_insert.mpr (.inl (SortedSet.mem_singleton.mp hx))
    | uses => exact SortedSet.mem_insert.mpr (.inr hx)
  | call callee => exact .inr ⟨callee, hx⟩
  | branch cond thenFirst elseFirst =>
    left
    cases effect with
    | modifies => exact absurd hx SortedSet.not_mem_empty
    | uses => exact hx
  | loop cond first =>
    left
    cases effect with
    | modifies => exact absurd hx SortedSet.not_mem_empty
    | uses => exact hx

/-- Rounds find variables that statements name only. -/
theorem mem_stmtVars_of_round (hvars : ∀ q x, x ∈ varsAt before q → x ∈ p.stmtVars)
    (h : effect.round p check before = .ok table) (hx : x ∈ varsAt table.procs q) :
    x ∈ p.stmtVars := by
  obtain ⟨proc, found, -, hfound, hx⟩ := (mem_varsAt_round h).mp hx
  obtain ⟨s, stmt, hs, hx⟩ := exists_of_mem_collectBody hfound hx
  rcases mem_vars_or_call hx with hx | ⟨callee, hx⟩
  · exact mem_stmtVars.mpr ⟨s, stmt, hs, hx⟩
  · exact hvars callee x hx

/-- More variables of procedures give more in the next round. -/
theorem grows_round (hgrows : Grows before after) (h : effect.round p check before = .ok table)
    (h' : effect.round p check after = .ok table') : Grows table.procs table'.procs := by
  rw [grows_iff] at hgrows ⊢
  refine ⟨(length_round h).trans (length_round h').symm, ?_⟩
  intro q x hx
  obtain ⟨proc, found, hq, hfound, hx⟩ := (mem_varsAt_round h).mp hx
  obtain ⟨found', hfound', hsub⟩ := collectBody_mono hgrows.2 hfound
  exact (mem_varsAt_round h').mpr ⟨proc, found', hq, hfound', hsub x hx⟩

/-- Rounds are refused as soon as one of them is. -/
theorem rounds_eq_error {bound : Nat} {e : Inconsistency}
    (h : effect.round p check before = .error e) :
    effect.rounds p check bound before = .error e := by
  cases bound with
  | zero => exact h
  | succ bound =>
    rw [rounds, h]
    rfl

/-- A round that changes nothing is the last one. -/
theorem rounds_succ {bound : Nat} (h : effect.round p check before = .ok table) :
    effect.rounds p check (bound + 1) before =
      if table.procs = before then .ok table else effect.rounds p check bound table.procs := by
  conv_lhs => rw [rounds, h]
  rfl

/-- **The limit on rounds is of no consequence**: from variables that the next round contains, any
sufficient number of rounds gives the same, and if it gives a table, then a further round does not
change it. -/
theorem rounds_limit {bound bound' : Nat} (hlen : before.length = p.procs.size)
    (hvars : ∀ q x, x ∈ varsAt before q → x ∈ p.stmtVars)
    (hgrows : ∀ table, effect.round p check before = .ok table → Grows before table.procs)
    (hbound : p.procs.size * p.stmtVars.size < total before + bound)
    (hbound' : p.procs.size * p.stmtVars.size < total before + bound') :
    effect.rounds p check bound before = effect.rounds p check bound' before ∧
      ∀ table, effect.rounds p check bound before = .ok table →
        effect.round p check table.procs = .ok table := by
  -- by induction on the rounds left: a round that changes something adds a pair for the one used up
  have htotal := total_le hvars hlen
  induction bound generalizing bound' before with
  | zero => omega
  | succ bound ih =>
    obtain ⟨bound', rfl⟩ : ∃ b, bound' = b + 1 := ⟨bound' - 1, by omega⟩
    cases hround : effect.round p check before with
    | error e =>
      rw [rounds_eq_error hround, rounds_eq_error hround]
      exact ⟨rfl, fun table h => by cases h⟩
    | ok table =>
      rw [rounds_succ hround, rounds_succ hround]
      by_cases hfix : table.procs = before
      · rw [if_pos hfix, if_pos hfix]
        refine ⟨rfl, fun last hlast => ?_⟩
        cases hlast
        rw [hfix]
        exact hround
      · rw [if_neg hfix, if_neg hfix]
        have hmore := total_lt (hgrows table hround) hfix
        have hvars' : ∀ q x, x ∈ varsAt table.procs q → x ∈ p.stmtVars :=
          fun q x hx => mem_stmtVars_of_round hvars hround hx
        have hlen' := length_round hround
        exact ih hlen' hvars' (fun next hnext => grows_round (hgrows table hround) hround hnext)
          (by omega) (by omega) (total_le hvars' hlen')

/-- At the start, no procedure has a variable. -/
theorem not_mem_varsAt_replicate {n : Nat} {q : ProcId} : x ∉ varsAt (List.replicate n ∅) q := by
  intro hx
  by_cases hq : q < n
  · simp [varsAt, hq] at hx
  · simp [varsAt, hq] at hx

/-- From nothing found, any sufficient number of rounds gives the table, and a further round does
not change it. -/
theorem table_limit (effect : Effect) (p : Program) (check : Bool) :
    (∀ bound, p.procs.size * p.stmtVars.size < bound →
      effect.rounds p check bound (List.replicate p.procs.size ∅) = effect.table p check) ∧
    ∀ table, effect.table p check = .ok table → effect.round p check table.procs = .ok table := by
  have hgrows : ∀ table, effect.round p check (List.replicate p.procs.size ∅) = .ok table →
      Grows (List.replicate p.procs.size ∅) table.procs := by
    intro table hround
    refine grows_iff.mpr ⟨?_, fun q x hx => absurd hx not_mem_varsAt_replicate⟩
    rw [List.length_replicate, length_round hround]
  have hlimit : ∀ bound bound', p.procs.size * p.stmtVars.size < bound →
      p.procs.size * p.stmtVars.size < bound' → _ :=
    fun bound bound' hbound hbound' => rounds_limit List.length_replicate
      (fun q x hx => absurd hx not_mem_varsAt_replicate) hgrows
      (Nat.lt_add_left _ hbound) (Nat.lt_add_left _ hbound')
  have hown := Nat.lt_succ_self (p.procs.size * p.stmtVars.size)
  exact ⟨fun bound hbound => (hlimit bound _ hbound hown).1, (hlimit _ _ hown hown).2⟩

end ProgramQuery.Effect
