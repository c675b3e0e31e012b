import ProgramQuery.Program.Basic

/-!
# Conditions

The arguments of relations: statements and procedures by number, variables by name and constants by
value. Conditions are ordered kind by kind, statements first, then procedures, variables and
constants; variables follow the order of their characters' code points, which is also that of their
UTF-8 bytes.

The operations on sets of conditions are also data (`ConditionSet.Step`), so that a whole course of
operations on several sets is a list.
-/

set_option autoImplicit false

namespace ProgramQuery

/-- An argument of a relation. A number need not belong to the program that is asked about. -/
inductive Condition where
  | stmt (id : StmtId)
  | proc (id : ProcId)
  | var (name : String)
  | const (value : Int)
deriving DecidableEq, Repr

namespace Condition

/-- The statement that the condition names. -/
def stmt? : Condition → Option StmtId
  | stmt id => some id
  | _ => none

/-- The procedure that the condition names. -/
def proc? : Condition → Option ProcId
  | proc id => some id
  | _ => none

/-- The variable that the condition names. -/
def var? : Condition → Option String
  | var name => some name
  | _ => none

/-- The condition by itself, statements and procedures by number. -/
def text : Condition → String
  | stmt id => "stmt#" ++ toString id
  | proc id => "proc#" ++ toString id
  | var name => name
  | const value => toString value

/-- The condition in the words of a program: a statement by its line and a procedure by its name,
or by number if the program has none of that number. -/
def describe (p : Program) : Condition → String
  | stmt id =>
    match p.stmts[id]? with
    | some s => "line " ++ toString s.line
    | none => "stmt #" ++ toString id
  | proc id =>
    match p.procs[id]? with
    | some q => q.label
    | none => "proc #" ++ toString id
  | var name => "var " ++ name
  | const value => "const " ++ toString value

/-- The order of conditions: by kind, and within a kind by number, name or value. -/
protected def compare : Condition → Condition → Ordering
  | stmt a, stmt b => compare a b
  | stmt _, _ => .lt
  | _, stmt _ => .gt
  | proc a, proc b => compare a b
  | proc _, _ => .lt
  | _, proc _ => .gt
  | var a, var b => compare a b
  | var _, _ => .lt
  | _, var _ => .gt
  | const a, const b => compare a b

instance : Ord Condition := ⟨Condition.compare⟩

/-- Conditions are compared by `Condition.compare`. -/
theorem compare_def (a b : Condition) : compare a b = Condition.compare a b := rfl

instance : Std.OrientedOrd Condition where
  eq_swap {a b} := by
    cases a <;> cases b <;>
      simp only [compare_def, Condition.compare, Ordering.swap_lt, Ordering.swap_gt] <;>
      exact Std.OrientedCmp.eq_swap

instance : Std.TransOrd Condition where
  isLE_trans {a b c} := by
    cases a <;> cases b <;> cases c <;>
      simp only [compare_def, Condition.compare, Ordering.isLE_lt, Ordering.isLE_gt,
        reduceCtorEq, false_implies, implies_true, true_implies] <;>
      exact Std.TransCmp.isLE_trans

instance : Std.LawfulEqOrd Condition where
  eq_of_compare {a b} := by
    cases a <;> cases b <;>
      simp [compare_def, Condition.compare]

end Condition

/-- A set of conditions. -/
abbrev ConditionSet := SortedSet Condition

namespace ConditionSet

/-- The statements among a list of numbers, as a set. -/
def ofStmts (ids : List StmtId) : ConditionSet := .ofList (ids.map .stmt)

/-- The set of some variables. -/
def ofVars (names : List String) : ConditionSet := .ofList (names.map .var)

/-- An operation on one of several sets, which are known by numbers. -/
inductive Step where
  /-- Makes the set anew from the members of a list. -/
  | ofList (conds : List Condition)
  /-- Makes the set a copy of another one. -/
  | copy (other : Nat)
  /-- Adds one member, and reports whether it is new. -/
  | insert (c : Condition)
  /-- Removes one member, and reports whether it was there. -/
  | erase (c : Condition)
  /-- Adds the members of a list. -/
  | extend (conds : List Condition)
  /-- Adds the members of another set. -/
  | union (other : Nat)
  /-- Keeps the members that another set has too. -/
  | inter (other : Nat)
  /-- Keeps the members that pass a test. -/
  | filter (keep : Condition → Bool)

/-- What an operation makes of the set of number `i`, and what it reports. -/
def apply (sets : Nat → ConditionSet) (i : Nat) : Step → ConditionSet × Option Bool
  | .ofList conds => (.ofList conds, none)
  | .copy other => (sets other, none)
  | .insert c => ((sets i).insert c, some !(sets i).contains c)
  | .erase c => ((sets i).erase c, some ((sets i).contains c))
  | .extend conds => ((sets i).insertAll conds, none)
  | .union other => ((sets i).union (sets other), none)
  | .inter other => ((sets i).inter (sets other), none)
  | .filter keep => ((sets i).filter keep, none)

/-- The sets after an operation on the set of number `i`. -/
def perform (sets : Nat → ConditionSet) (i : Nat) (step : Step) : Nat → ConditionSet :=
  fun k => if k = i then (apply sets i step).1 else sets k

/-- The sets after operations on sets of some numbers, where all sets are empty to begin with. -/
def after (steps : List (Nat × Step)) : Nat → ConditionSet :=
  steps.foldl (fun sets step => perform sets step.1 step.2) fun _ => ∅

/-- The set of some statements has the conditions that name one of them. -/
@[simp] theorem mem_ofStmts {ids : List StmtId} {c : Condition} :
    c ∈ ofStmts ids ↔ ∃ s ∈ ids, .stmt s = c := by
  simp [ofStmts]

/-- The set of some variables has the conditions that name one of them. -/
@[simp] theorem mem_ofVars {names : List String} {c : Condition} :
    c ∈ ofVars names ↔ ∃ x ∈ names, .var x = c := by
  simp [ofVars]

end ConditionSet

end ProgramQuery
