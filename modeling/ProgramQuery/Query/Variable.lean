import ProgramQuery.Entity

/-!
# Query variables

A query variable is named or a wildcard. A wildcard always ranges over its predicate. A named
variable ranges over its predicate until it is bound; from then on it has candidates of its own, and
a later change of the predicate does not touch them. Reading the candidates of a named variable
binds it.

The operations are also data (`Variable.Step`), so that what happens to a variable over time is a
list.
-/

set_option autoImplicit false

namespace ProgramQuery

/-- A query variable. -/
inductive Variable where
  | wildcard (predicate : Predicate)
  | named (name : String) (predicate : Predicate) (bound : Option ConditionSet)
deriving DecidableEq

namespace Variable

/-- The name of a wildcard. -/
def wildcardName : String := "_"

/-- A fresh variable of a name. -/
def ofName (name : String) (predicate : Predicate) : Variable :=
  if name = wildcardName then wildcard predicate else named name predicate none

/-- The name of a variable. -/
def name : Variable → String
  | wildcard _ => wildcardName
  | named name _ _ => name

/-- The predicate of a variable. -/
def predicate : Variable → Predicate
  | wildcard predicate => predicate
  | named _ predicate _ => predicate

/-- Whether the variable is a wildcard. -/
def isWildcard : Variable → Bool
  | wildcard _ => true
  | named _ _ _ => false

/-- The candidates of its own that a variable has. -/
def binding : Variable → Option ConditionSet
  | wildcard _ => none
  | named _ _ bound => bound

/-- Whether the variable has candidates of its own. -/
def isBound (v : Variable) : Bool := v.binding.isSome

/-- What the variable ranges over. -/
def candidates (v : Variable) : ConditionSet := v.binding.getD v.predicate.members

/-- Replaces the candidates of a named variable. -/
def assign (set : ConditionSet) : Variable → Variable
  | wildcard predicate => wildcard predicate
  | named name predicate _ => named name predicate (some set)

/-- Binds a named variable to what it ranges over. -/
def bind (v : Variable) : Variable := v.assign v.candidates

/-- Changes the candidates of a named variable. -/
def edit (change : ConditionSet → ConditionSet) (v : Variable) : Variable :=
  v.assign (change v.candidates)

/-- Replaces the predicate. -/
def setPredicate (predicate : Predicate) : Variable → Variable
  | wildcard _ => wildcard predicate
  | named name _ bound => named name predicate bound

/-- An operation on a variable. -/
inductive Step where
  /-- Reads the candidates. -/
  | read
  /-- Changes the candidates in place. -/
  | edit (change : ConditionSet → ConditionSet)
  /-- Replaces the candidates. -/
  | assign (set : ConditionSet)
  /-- Replaces the predicate. -/
  | setPredicate (predicate : Predicate)

/-- The variable that an operation leaves behind. -/
def apply (v : Variable) : Step → Variable
  | .read => v.bind
  | .edit change => v.edit change
  | .assign set => v.assign set
  | .setPredicate predicate => v.setPredicate predicate

/-- The variable that operations leave behind, one after another. -/
def after (v : Variable) (steps : List Step) : Variable := steps.foldl apply v

/-- A wildcard has no binding, whatever it is assigned. -/
@[simp] theorem binding_assign_wildcard (set : ConditionSet) (predicate : Predicate) :
    (assign set (wildcard predicate)).binding = none := rfl

/-- A named variable is bound to the set that it is assigned. -/
@[simp] theorem binding_assign_named (set : ConditionSet) (name : String) (predicate : Predicate)
    (bound : Option ConditionSet) :
    (assign set (named name predicate bound)).binding = some set := rfl

/-- Binding does not change what a variable ranges over. -/
@[simp] theorem candidates_bind (v : Variable) : v.bind.candidates = v.candidates := by
  cases v with
  | wildcard predicate => rfl
  | named name predicate bound => rfl

/-- Replacing candidates does not change the predicate. -/
@[simp] theorem predicate_assign (set : ConditionSet) (v : Variable) :
    (v.assign set).predicate = v.predicate := by
  cases v <;> rfl

/-- Replacing candidates does not change the name. -/
@[simp] theorem name_assign (set : ConditionSet) (v : Variable) :
    (v.assign set).name = v.name := by
  cases v <;> rfl

/-- How far a variable can still be narrowed: each candidate can go, and an unbound variable can be
bound. -/
def slack : Variable → Nat
  | wildcard _ => 0
  | named _ predicate none => predicate.members.size + 1
  | named _ _ (some set) => set.size

end Variable

end ProgramQuery
