import ProgramQuery.Proofs.WrittenSource
import ProgramQuery.Source.ToProgram

/-!
# Listings

A listing is what a program says, as a tree: procedures with nested statement lists, without
numbers, lines and places in a text. There are two ways to a listing. A source loses its spans, and
the digits of its literals become numbers (`Source.Proc.listing`). A program unfolds to a listing
along the links of its statements, which also gives the order in which the statements are met
(`Program.Unfolds`); all the listings that it unfolds to are the same one
(`Program.UnfoldsAll.unique`).
-/

set_option autoImplicit false

namespace ProgramQuery

open Grammar (IsName)

/-- A statement list: the end of a list, or one statement and the rest. -/
inductive Listing where
  | done
  | assign (target : String) (value : Expr) (rest : Listing)
  | call (callee : String) (rest : Listing)
  | branch (cond : String) (thenBody elseBody rest : Listing)
  | loop (cond : String) (body rest : Listing)
deriving DecidableEq, Repr

/-- A procedure with its statements. -/
structure ProcListing where
  name : String
  body : Listing
deriving DecidableEq, Repr

/-- The names are names, and the constants are in range. -/
def Expr.Legal : Expr → Prop
  | .var name => IsName name
  | .const value => 0 ≤ value ∧ value ≤ maxConstant
  | .binary _ lhs rhs => lhs.Legal ∧ rhs.Legal

namespace Listing

/-- The number of statements, with those of bodies. -/
def size : Listing → Nat
  | done => 0
  | assign _ _ rest => 1 + rest.size
  | call _ rest => 1 + rest.size
  | branch _ thenBody elseBody rest => 1 + thenBody.size + elseBody.size + rest.size
  | loop _ body rest => 1 + body.size + rest.size

/-- The statements are those of the language: bodies are not empty, and calls are of the given
procedures. -/
def Legal (procs : List String) : Listing → Prop
  | done => True
  | assign target value rest => IsName target ∧ value.Legal ∧ rest.Legal procs
  | call callee rest => callee ∈ procs ∧ rest.Legal procs
  | branch cond thenBody elseBody rest =>
    IsName cond ∧ (thenBody ≠ done ∧ thenBody.Legal procs) ∧
      (elseBody ≠ done ∧ elseBody.Legal procs) ∧
      rest.Legal procs
  | loop cond body rest => IsName cond ∧ (body ≠ done ∧ body.Legal procs) ∧ rest.Legal procs

/-- The numbers of a conditional and of what comes after it. -/
theorem range'_branch {s : Nat} {cond : String} {thenBody elseBody rest : Listing} :
    s :: (List.range' (s + 1) thenBody.size ++ (List.range' (s + 1 + thenBody.size) elseBody.size ++
      List.range' (s + 1 + thenBody.size + elseBody.size) rest.size)) =
      List.range' s (branch cond thenBody elseBody rest).size := by
  rw [List.range'_append_1, List.range'_append_1, ← List.range'_succ, size]
  congr 1
  omega

/-- The numbers of a loop and of what comes after it. -/
theorem range'_loop {s : Nat} {cond : String} {body rest : Listing} :
    s :: (List.range' (s + 1) body.size ++ List.range' (s + 1 + body.size) rest.size) =
      List.range' s (loop cond body rest).size := by
  rw [List.range'_append_1, ← List.range'_succ, size]
  congr 1
  omega

end Listing

namespace ProcListing

/-- The number of statements of procedures. -/
def total : List ProcListing → Nat
  | [] => 0
  | proc :: procs => proc.body.size + total procs

/-- The procedures are a program of the language. -/
structure Legal (procs : List ProcListing) : Prop where
  nonempty : procs ≠ []
  distinct : (procs.map (·.name)).Nodup
  names : ∀ proc ∈ procs, IsName proc.name
  bodies : ∀ proc ∈ procs, proc.body ≠ .done ∧ proc.body.Legal (procs.map (·.name))

end ProcListing

/-! ## Sources -/

namespace Source

/-- The expression that a source expression stands for. -/
def Expr.plain : Source.Expr → ProgramQuery.Expr
  | .var name => .var name
  | .literal digits => .const (digitsValue digits.text.toList)
  | .binary op lhs rhs => .binary op lhs.plain rhs.plain

/-- The statement list without places. -/
def Block.listing : Block → Listing
  | .done => .done
  | .assign target value rest => .assign target value.plain rest.listing
  | .call callee rest => .call callee.text rest.listing
  | .branch cond thenBody elseBody rest =>
    .branch cond thenBody.listing elseBody.listing rest.listing
  | .loop cond body rest => .loop cond body.listing rest.listing

/-- The procedure without places. -/
def Proc.listing (proc : Proc) : ProcListing := ⟨proc.name, proc.body.listing⟩

end Source

/-- The text writes the procedures out: its tokens are theirs, with gaps between them, and
expressions may have more parentheses than they need. -/
def Renders (text : String) (procs : List ProcListing) : Prop :=
  ∃ sources, Source.Writes text sources ∧ sources.map Source.Proc.listing = procs

/-! ## Programs -/

namespace Program

/-- The statements from the given one on unfold to a listing; their numbers, those in bodies
included, are in the order of the source. -/
inductive Unfolds (p : Program) : Option StmtId → Listing → List StmtId → Prop
  | done : Unfolds p none .done []
  | assign {s : StmtId} {stmt : Stmt} {target : String} {value : Expr} {rest : Listing}
      {ids : List StmtId} : p.stmts[s]? = some stmt → stmt.kind = .assign target value →
      Unfolds p stmt.next rest ids → Unfolds p (some s) (.assign target value rest) (s :: ids)
  | call {s : StmtId} {stmt : Stmt} {q : ProcId} {proc : Proc} {rest : Listing}
      {ids : List StmtId} :
      p.stmts[s]? = some stmt → stmt.kind = .call q → p.procs[q]? = some proc →
      Unfolds p stmt.next rest ids → Unfolds p (some s) (.call proc.name rest) (s :: ids)
  | branch {s : StmtId} {stmt : Stmt} {cond : String} {thenFirst elseFirst : StmtId}
      {thenBody elseBody rest : Listing} {thenIds elseIds ids : List StmtId} :
      p.stmts[s]? = some stmt → stmt.kind = .branch cond thenFirst elseFirst →
      Unfolds p (some thenFirst) thenBody thenIds → Unfolds p (some elseFirst) elseBody elseIds →
      Unfolds p stmt.next rest ids →
      Unfolds p (some s) (.branch cond thenBody elseBody rest) (s :: (thenIds ++ (elseIds ++ ids)))
  | loop {s : StmtId} {stmt : Stmt} {cond : String} {first : StmtId} {body rest : Listing}
      {bodyIds ids : List StmtId} : p.stmts[s]? = some stmt → stmt.kind = .loop cond first →
      Unfolds p (some first) body bodyIds → Unfolds p stmt.next rest ids →
      Unfolds p (some s) (.loop cond body rest) (s :: (bodyIds ++ ids))

/-- Procedures unfold to listings of the same names. -/
inductive UnfoldsAll (p : Program) : List Proc → List ProcListing → List StmtId → Prop
  | nil : UnfoldsAll p [] [] []
  | cons {proc : Proc} {procs : List Proc} {body : Listing} {listings : List ProcListing}
      {bodyIds ids : List StmtId} : p.Unfolds (some proc.first) body bodyIds →
      UnfoldsAll p procs listings ids →
      UnfoldsAll p (proc :: procs) (⟨proc.name, body⟩ :: listings) (bodyIds ++ ids)

/-- The program unfolds to the listings of its procedures. -/
def UnfoldsTo (p : Program) (listings : List ProcListing) (ids : List StmtId) : Prop :=
  p.UnfoldsAll p.procs.toList listings ids

variable {p : Program}

/-- What a statement unfolds to is decided by its links. -/
theorem Unfolds.unique {start : Option StmtId} {listing listing' : Listing} {ids ids' : List StmtId}
    (h : p.Unfolds start listing ids) (h' : p.Unfolds start listing' ids') :
    listing = listing' ∧ ids = ids' := by
  -- the kind of the first statement tells which of the rules was used in both
  induction h generalizing listing' ids' with
  | done =>
    cases h'
    exact ⟨rfl, rfl⟩
  | assign hs hkind _ ih =>
    cases h' with
    | assign hs' hkind' hrest' =>
      cases hs.symm.trans hs'
      cases hkind.symm.trans hkind'
      obtain ⟨rfl, rfl⟩ := ih hrest'
      exact ⟨rfl, rfl⟩
    | call hs' hkind' | branch hs' hkind' | loop hs' hkind' =>
      cases hs.symm.trans hs'
      cases hkind.symm.trans hkind'
  | call hs hkind hq _ ih =>
    cases h' with
    | call hs' hkind' hq' hrest' =>
      cases hs.symm.trans hs'
      cases hkind.symm.trans hkind'
      cases hq.symm.trans hq'
      obtain ⟨rfl, rfl⟩ := ih hrest'
      exact ⟨rfl, rfl⟩
    | assign hs' hkind' | branch hs' hkind' | loop hs' hkind' =>
      cases hs.symm.trans hs'
      cases hkind.symm.trans hkind'
  | branch hs hkind _ _ _ ihThen ihElse ih =>
    cases h' with
    | branch hs' hkind' hthen' helse' hrest' =>
      cases hs.symm.trans hs'
      cases hkind.symm.trans hkind'
      obtain ⟨rfl, rfl⟩ := ihThen hthen'
      obtain ⟨rfl, rfl⟩ := ihElse helse'
      obtain ⟨rfl, rfl⟩ := ih hrest'
      exact ⟨rfl, rfl⟩
    | assign hs' hkind' | call hs' hkind' | loop hs' hkind' =>
      cases hs.symm.trans hs'
      cases hkind.symm.trans hkind'
  | loop hs hkind _ _ ihBody ih =>
    cases h' with
    | loop hs' hkind' hbody' hrest' =>
      cases hs.symm.trans hs'
      cases hkind.symm.trans hkind'
      obtain ⟨rfl, rfl⟩ := ihBody hbody'
      obtain ⟨rfl, rfl⟩ := ih hrest'
      exact ⟨rfl, rfl⟩
    | assign hs' hkind' | call hs' hkind' | branch hs' hkind' =>
      cases hs.symm.trans hs'
      cases hkind.symm.trans hkind'

/-- Procedures unfold to one sequence of listings at most. -/
theorem UnfoldsAll.unique {procs : List Proc} {listings listings' : List ProcListing}
    {ids ids' : List StmtId} (h : p.UnfoldsAll procs listings ids)
    (h' : p.UnfoldsAll procs listings' ids') : listings = listings' ∧ ids = ids' := by
  induction h generalizing listings' ids' with
  | nil =>
    cases h'
    exact ⟨rfl, rfl⟩
  | cons hbody _ ih =>
    cases h' with
    | cons hbody' hrest' =>
      obtain ⟨rfl, rfl⟩ := hbody.unique hbody'
      obtain ⟨rfl, rfl⟩ := ih hrest'
      exact ⟨rfl, rfl⟩

end Program

end ProgramQuery
