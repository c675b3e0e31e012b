import Mathlib.Data.List.Range
import ProgramQuery.Proofs.LinkPaths

/-!
# The tables of a program

A line leads to the last statement on it and a name to the last procedure of that name
(`stmtAt?_eq_some_iff`, `procNamed?_eq_some_iff`), so going through the table of lines passes over a
statement that shares its line with a later one. Where the lines go up one by one with the numbers,
none is passed over: the table holds all statements in the order of their numbers
(`lines_eq_range'`, `stmtIds_eq_range`).
-/

set_option autoImplicit false

namespace ProgramQuery.Program

variable {p : Program} {s : StmtId} {q : ProcId} {line first : Nat} {name x : String}

/-- A line leads to the last statement on it. -/
theorem stmtAt?_eq_some_iff : p.stmtAt? line = some s ↔
    p.lineOf? s = some line ∧ ∀ t, s < t → p.lineOf? t ≠ some line := by
  simp only [stmtAt?, lineTable, SortedMap.find?_ofKeys, List.getElem?_map, Array.getElem?_toList,
    lineOf?]

/-- A name leads to the last procedure of that name. -/
theorem procNamed?_eq_some_iff : p.procNamed? name = some q ↔
    p.procs[q]?.map Proc.name = some name ∧ ∀ r, q < r → p.procs[r]?.map Proc.name ≠ some name := by
  simp only [procNamed?, procIndex, SortedMap.find?_ofKeys, List.getElem?_map,
    Array.getElem?_toList]

/-- The table of lines holds the statements that lines lead to. -/
theorem mem_stmtIds : s ∈ p.stmtIds ↔ ∃ line, p.stmtAt? line = some s := SortedMap.mem_values

/-- The table of lines holds statements of the program. -/
theorem lt_size_of_mem_stmtIds (h : s ∈ p.stmtIds) : s < p.stmts.size := by
  obtain ⟨line, hline⟩ := mem_stmtIds.mp h
  obtain ⟨stmt, hs, -⟩ := Option.map_eq_some_iff.mp (stmtAt?_eq_some_iff.mp hline).1
  exact lt_size_of_getElem? hs

/-- The lines in the table go up. -/
theorem pairwise_lines (p : Program) : p.lines.Pairwise (· < ·) :=
  p.lineTable.pairwise_keys.imp Nat.compare_eq_lt.mp

/-- Looking up one line after the other goes through the table. -/
theorem map_stmtAt?_lines (p : Program) : p.lines.map p.stmtAt? = p.stmtIds.map some :=
  p.lineTable.map_find?_keys

-- a statement that shares its line with a later one is passed over
example :
    let assign (target : String) : Stmt := ⟨7, none, none, none, 0, .assign target (.const 1)⟩
    let p : Program := ⟨#[⟨"p", 0⟩], #[assign "x", assign "y"]⟩
    p.lines = [7] ∧ p.stmtIds = [1] ∧ p.vars = .singleton "y" := by
  decide +kernel

/-! ## Collecting from statements -/

section Collect

variable {α : Type} [Ord α] [Std.TransOrd α] [Std.LawfulEqOrd α] {names : Stmt → SortedSet α}
  {a : α}

/-- What statements name is collected statement by statement. -/
theorem mem_foldl_union {l : List Stmt} {found : SortedSet α} :
    a ∈ l.foldl (fun found stmt => found.union (names stmt)) found ↔
      a ∈ found ∨ ∃ stmt ∈ l, a ∈ names stmt := by
  induction l generalizing found with
  | nil => simp
  | cons stmt l ih =>
    rw [List.foldl_cons, ih, SortedSet.mem_union]
    simp [or_assoc]

/-- What is collected by lines comes from the statements in the table of lines. -/
theorem mem_foldl_stmtsByLine :
    a ∈ p.stmtsByLine.foldl (fun (found : SortedSet α) stmt => found.union (names stmt)) ∅ ↔
      ∃ s ∈ p.stmtIds, ∃ stmt, p.stmts[s]? = some stmt ∧ a ∈ names stmt := by
  rw [mem_foldl_union]
  simp only [SortedSet.not_mem_empty, false_or, stmtsByLine, List.mem_filterMap]
  constructor
  · rintro ⟨stmt, ⟨s, hmem, hs⟩, ha⟩
    exact ⟨s, hmem, stmt, hs, ha⟩
  · rintro ⟨s, hmem, stmt, hs, ha⟩
    exact ⟨stmt, ⟨s, hmem, hs⟩, ha⟩

end Collect

/-- The variables of all statements are those that some statement names. -/
theorem mem_stmtVars : x ∈ p.stmtVars ↔
    ∃ (s : StmtId) (stmt : Stmt), p.stmts[s]? = some stmt ∧ x ∈ stmt.kind.vars := by
  rw [stmtVars, ← Array.foldl_toList, mem_foldl_union]
  simp only [SortedSet.not_mem_empty, false_or, Array.mem_toList_iff, Array.mem_iff_getElem?]
  constructor
  · rintro ⟨stmt, ⟨s, hs⟩, hx⟩
    exact ⟨s, stmt, hs, hx⟩
  · rintro ⟨s, stmt, hs, hx⟩
    exact ⟨stmt, ⟨s, hs⟩, hx⟩

/-! ## Consecutive lines -/

section Consecutive

variable (hlines : ∀ (s : StmtId) (stmt : Stmt), p.stmts[s]? = some stmt → stmt.line = first + s)

include hlines

/-- The line of a statement leads back to it, as no other statement is on that line. -/
theorem stmtAt?_of_consecutive {stmt : Stmt} (hs : p.stmts[s]? = some stmt) :
    p.stmtAt? stmt.line = some s := by
  refine stmtAt?_eq_some_iff.mpr ⟨by rw [lineOf?, hs]; rfl, fun t hst hline => ?_⟩
  obtain ⟨other, ht, heq⟩ := Option.map_eq_some_iff.mp hline
  rw [hlines t other ht, hlines s stmt hs] at heq
  exact Nat.ne_of_gt hst (Nat.add_left_cancel heq)

/-- The lines are one after the other from the first one on. -/
theorem lines_eq_range' : p.lines = List.range' first p.stmts.size := by
  refine SortedSet.eq_of_increasing p.lineTable.pairwise_keys
    ((List.pairwise_lt_range' 1).imp Nat.compare_eq_lt.mpr) fun line => ?_
  rw [List.mem_range'_1]
  constructor
  · intro h
    obtain ⟨s, hs⟩ := SortedMap.mem_keys.mp h
    obtain ⟨stmt, hstmt, rfl⟩ := Option.map_eq_some_iff.mp (stmtAt?_eq_some_iff.mp hs).1
    rw [hlines s stmt hstmt]
    exact ⟨Nat.le_add_right first s, Nat.add_lt_add_left (lt_size_of_getElem? hstmt) first⟩
  · rintro ⟨hle, hlt⟩
    have hnumber : line - first < p.stmts.size := by omega
    obtain ⟨stmt, hstmt⟩ := exists_stmt hnumber
    have hline := stmtAt?_of_consecutive hlines hstmt
    rw [hlines _ stmt hstmt, Nat.add_sub_cancel' hle] at hline
    exact SortedMap.mem_keys.mpr ⟨_, hline⟩

/-- The table of lines holds all statements in the order of their numbers. -/
theorem stmtIds_eq_range : p.stmtIds = List.range p.stmts.size := by
  have hsome : p.stmtIds.map some = (List.range p.stmts.size).map some := by
    rw [← map_stmtAt?_lines, lines_eq_range' hlines, List.range'_eq_map_range, List.map_map]
    refine List.map_congr_left fun s hs => ?_
    obtain ⟨stmt, hstmt⟩ := exists_stmt (List.mem_range.mp hs)
    have hline := stmtAt?_of_consecutive hlines hstmt
    rwa [hlines s stmt hstmt] at hline
  exact List.map_injective_iff.mpr (fun s t => Option.some.inj) hsome

end Consecutive

end ProgramQuery.Program
