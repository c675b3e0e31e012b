import Mathlib.Data.List.Induction
import ProgramQuery.Proofs.ReadPrograms
import ProgramQuery.Proofs.SourceItems

/-!
# What is wrong with a source

A source that is written in the right way can still be wrong: two procedures may have one name, and
an item may have a fault of its own (`Item.fault?`). Repeated names are found before any body is
read. After that items are looked at one by one, and nothing else can be wrong: without a fault a
source is a program of the language that has enough lines (`Block.Proper.legal`), and with one the
first of them is what is reported (`Block.fails`, `addBodies_eq_error`). What is reported about a
list of procedures is `Reported`; it is what reading them fails with (`toProgram_eq_error`), and
where there is nothing to report they are a program (`reported_or_legal`).
-/

set_option autoImplicit false

namespace ProgramQuery

open ExceptSteps
open Grammar (Cursor IsName)

namespace Source

/-- The fault of an item, where the procedures have the given names: a literal beyond the largest
constant, a call of a name that no procedure has, or the statement after the one that gets the last
line. -/
def Item.fault? (names : List String) : Item → Option ParseError
  | literal digits =>
    if maxConstant < digitsValue digits.text.toList then some (.literalTooLarge digits) else none
  | callee name => if name.text ∈ names then none else some (.undefinedProc name)
  | stmt line => if line = maxLine + 1 then some (.draft .lineOverflow) else none

/-- The fault of the first item that has one. -/
def firstFault? (names : List String) (items : List Item) : Option ParseError :=
  items.findSome? (Item.fault? names)

variable {names : List String} {e : ParseError}

/-- The first fault is that of the first item, or else the first one of the others. -/
theorem firstFault?_cons (item : Item) (items : List Item) :
    firstFault? names (item :: items) = (item.fault? names).or (firstFault? names items) := by
  rw [firstFault?, List.findSome?_cons]
  cases item.fault? names with
  | none => rfl
  | some e => rfl

/-- The first fault of two sequences of items is that of the first sequence, or else that of the
second. -/
theorem firstFault?_append (items items' : List Item) :
    firstFault? names (items ++ items') = (firstFault? names items).or (firstFault? names items') :=
  List.findSome?_append

/-- A literal within the largest constant is no fault. -/
theorem fault?_literal_eq_none {digits : Word} :
    (Item.literal digits).fault? names = none ↔ digitsValue digits.text.toList ≤ maxConstant := by
  simp [Item.fault?]

/-- A literal beyond the largest constant is reported as such. -/
theorem fault?_literal_eq_some {digits : Word} : (Item.literal digits).fault? names = some e ↔
    maxConstant < digitsValue digits.text.toList ∧ e = .literalTooLarge digits := by
  simp [Item.fault?, eq_comm]

/-- A call of a procedure that is there is no fault. -/
theorem fault?_callee_eq_none {name : Word} :
    (Item.callee name).fault? names = none ↔ name.text ∈ names := by
  simp [Item.fault?]

/-- A call of a procedure that is not there is reported as such. -/
theorem fault?_callee_eq_some {name : Word} :
    (Item.callee name).fault? names = some e ↔ name.text ∉ names ∧ e = .undefinedProc name := by
  simp [Item.fault?, eq_comm]

/-- A statement is no fault unless it comes right after the last line. -/
theorem fault?_stmt_eq_none {line : Nat} :
    (Item.stmt line).fault? names = none ↔ line ≠ maxLine + 1 := by
  simp [Item.fault?]

/-- A statement right after the last line is reported as lacking a line. -/
theorem fault?_stmt_eq_some {line : Nat} :
    (Item.stmt line).fault? names = some e ↔ line = maxLine + 1 ∧ e = .draft .lineOverflow := by
  simp [Item.fault?, eq_comm]

/-! ## Sources without faults -/

/-- The variables of an expression have names. -/
def Expr.Proper : Expr → Prop
  | .var name => IsName name
  | .literal _ => True
  | .binary _ lhs rhs => lhs.Proper ∧ rhs.Proper

/-- The variables of a statement list have names, and no body is empty. -/
def Block.Proper : Block → Prop
  | .done => True
  | .assign target value rest => IsName target ∧ value.Proper ∧ rest.Proper
  | .call _ rest => rest.Proper
  | .branch cond thenBody elseBody rest =>
    IsName cond ∧ (thenBody ≠ .done ∧ thenBody.Proper) ∧ (elseBody ≠ .done ∧ elseBody.Proper) ∧
    rest.Proper
  | .loop cond body rest => IsName cond ∧ (body ≠ .done ∧ body.Proper) ∧ rest.Proper

/-- A procedure has a name and statements. -/
def Proc.Proper (proc : Proc) : Prop := IsName proc.name ∧ proc.body ≠ .done ∧ proc.body.Proper

/-- The variables of a written expression have names. -/
theorem Expr.Written.proper {value : Expr} {rank : Rank} {c c' : Cursor}
    (h : value.Written rank c c') :
    value.Proper := by
  induction h with
  | var hname => exact hname.1
  | literal => trivial
  | paren _ _ _ _ _ ih => exact ih
  | operand _ _ ih => exact ih
  | binary _ _ _ _ _ ihl ihr => exact ⟨ihl, ihr⟩

/-- The variables of a written list have names, and its bodies are not empty. -/
theorem Block.Written.proper {block : Block} {c c' : Cursor} (h : block.Written c c') :
    block.Proper := by
  have hbraces : ∀ {body : Block} {c c' : Cursor}, braces body body.Written c c' →
      (∀ {c c' : Cursor}, body.Written c c' → body.Proper) → body ≠ .done ∧ body.Proper := by
    rintro body c c' ⟨_, _, _, _, _, ⟨hne, hbody⟩, _⟩ ih
    exact ⟨hne, ih hbody⟩
  induction block generalizing c c' with
  | done => trivial
  | assign target value rest ih =>
    obtain ⟨_, ⟨_, hname, _, _, _, _, _, _, _, hvalue, _⟩, _, _, _, hrest, _⟩ := h
    exact ⟨hname.1, hvalue.proper, ih hrest⟩
  | call callee rest ih =>
    obtain ⟨_, _, _, _, _, hrest, _⟩ := h
    exact ih hrest
  | branch cond thenBody elseBody rest ihThen ihElse ih =>
    obtain ⟨_, ⟨_, _, _, _, _, hname, _, _, _, hthen, _, _, _, _, _, _, _, helse, _⟩, _, _, _,
      hrest, _⟩ := h
    exact ⟨hname.1, hbraces hthen ihThen, hbraces helse ihElse, ih hrest⟩
  | loop cond body rest ihBody ih =>
    obtain ⟨_, ⟨_, _, _, _, _, hname, _, _, _, hbody, _⟩, _, _, _, hrest, _⟩ := h
    exact ⟨hname.1, hbraces hbody ihBody, ih hrest⟩

/-- Written procedures have names and statements. -/
theorem procsWritten_proper {procs : List Proc} {c c' : Cursor} (h : procsWritten procs c c') :
    ∀ proc ∈ procs, proc.Proper := by
  induction procs generalizing c with
  | nil => simp
  | cons proc procs ih =>
    obtain ⟨_, ⟨_, _, _, _, _, _, hname, _, _, _, hbraces, _⟩, _, _, _, hrest, rfl⟩ := h
    obtain ⟨_, _, _, _, _, ⟨hne, hbody⟩, _⟩ := hbraces
    exact List.forall_mem_cons.mpr ⟨⟨hname.1, hne, hbody.proper⟩, ih hrest⟩

/-- The procedures that a text writes have names and statements. -/
theorem Writes.proper {text : String} {procs : List Proc} (h : Writes text procs) :
    ∀ proc ∈ procs, proc.Proper := by
  obtain ⟨-, _, _, _, _, hprocs, _⟩ := h
  exact procsWritten_proper hprocs

/-- An expression without a fault is legal. -/
theorem Expr.Proper.legal {value : Expr} (hproper : value.Proper)
    (h : firstFault? names (value.literals.map .literal) = none) : value.plain.Legal := by
  induction value with
  | var name => exact hproper
  | literal digits =>
    rw [literals, List.map_singleton, firstFault?_cons, Option.or_eq_none_iff,
      fault?_literal_eq_none] at h
    have hle := h.1
    simp only [plain, ProgramQuery.Expr.Legal]
    omega
  | binary op lhs rhs ihl ihr =>
    rw [literals, List.map_append, firstFault?_append, Option.or_eq_none_iff] at h
    exact ⟨ihl hproper.1 h.1, ihr hproper.2 h.2⟩

/-- A block that is not empty has a listing that is not. -/
theorem listing_ne_done {block : Block} (h : block ≠ .done) : block.listing ≠ .done := by
  cases block with
  | done => exact absurd rfl h
  | _ => simp [Block.listing]

/-- **Without a fault, a statement list is one of the language**, and there are lines for its
statements. -/
theorem Block.Proper.legal {block : Block} (hproper : block.Proper) {line : Nat}
    (hline : line ≤ maxLine + 1) (h : firstFault? names (block.items line) = none) :
    block.listing.Legal names ∧ line + block.listing.size ≤ maxLine + 1 := by
  induction block generalizing line with
  | done => exact ⟨trivial, hline⟩
  | assign target value rest ih =>
    obtain ⟨htarget, hvalue, hrest⟩ := hproper
    simp only [items, firstFault?_append, firstFault?_cons, Option.or_eq_none_iff,
      fault?_stmt_eq_none] at h
    obtain ⟨hliterals, hstmt, hitems⟩ := h
    obtain ⟨hlegal, hsize⟩ := ih hrest (by omega) hitems
    refine ⟨⟨htarget, hvalue.legal hliterals, hlegal⟩, ?_⟩
    simp only [listing, Listing.size]
    omega
  | call callee rest ih =>
    simp only [items, firstFault?_cons, Option.or_eq_none_iff, fault?_callee_eq_none,
      fault?_stmt_eq_none] at h
    obtain ⟨hcallee, hstmt, hitems⟩ := h
    obtain ⟨hlegal, hsize⟩ := ih hproper (by omega) hitems
    refine ⟨⟨hcallee, hlegal⟩, ?_⟩
    simp only [listing, Listing.size]
    omega
  | branch cond thenBody elseBody rest ihThen ihElse ih =>
    obtain ⟨hcond, ⟨hthenNe, hthen⟩, ⟨helseNe, helse⟩, hrest⟩ := hproper
    simp only [items, firstFault?_append, firstFault?_cons, Option.or_eq_none_iff,
      fault?_stmt_eq_none] at h
    obtain ⟨hstmt, hthenItems, helseItems, hitems⟩ := h
    obtain ⟨hthenLegal, hthenSize⟩ := ihThen hthen (by omega) hthenItems
    obtain ⟨helseLegal, helseSize⟩ := ihElse helse hthenSize helseItems
    obtain ⟨hlegal, hsize⟩ := ih hrest helseSize hitems
    refine ⟨⟨hcond, ⟨listing_ne_done hthenNe, hthenLegal⟩, ⟨listing_ne_done helseNe, helseLegal⟩,
      hlegal⟩, ?_⟩
    simp only [listing, Listing.size]
    omega
  | loop cond body rest ihBody ih =>
    obtain ⟨hcond, ⟨hne, hbody⟩, hrest⟩ := hproper
    simp only [items, firstFault?_append, firstFault?_cons, Option.or_eq_none_iff,
      fault?_stmt_eq_none] at h
    obtain ⟨hstmt, hbodyItems, hitems⟩ := h
    obtain ⟨hbodyLegal, hbodySize⟩ := ihBody hbody (by omega) hbodyItems
    obtain ⟨hlegal, hsize⟩ := ih hrest hbodySize hitems
    refine ⟨⟨hcond, ⟨listing_ne_done hne, hbodyLegal⟩, hlegal⟩, ?_⟩
    simp only [listing, Listing.size]
    omega

/-! ## The first fault is reported -/

/-- An expression with a fault is refused with the first one. -/
theorem Expr.Proper.resolve_eq_error {value : Expr} (hproper : value.Proper)
    (h : firstFault? names (value.literals.map .literal) = some e) : value.resolve = .error e := by
  induction value with
  | var name => cases h
  | literal digits =>
    rw [literals, List.map_singleton, firstFault?_cons, Option.or_eq_some_iff] at h
    rcases h with hfault | ⟨-, hnone⟩
    · obtain ⟨hlt, rfl⟩ := fault?_literal_eq_some.mp hfault
      rw [resolve, if_neg (by omega)]
    · cases hnone
  | binary op lhs rhs ihl ihr =>
    rw [literals, List.map_append, firstFault?_append, Option.or_eq_some_iff] at h
    rcases h with hleft | ⟨hnone, hright⟩
    · exact bind_eq_error.mpr (Or.inl (ihl hproper.1 hleft))
    · refine bind_eq_error.mpr (Or.inr ⟨_, resolve_eq (hproper.1.legal hnone), ?_⟩)
      exact bind_eq_error.mpr (Or.inl (ihr hproper.2 hright))

variable {line : Nat} {procs : Array DraftProc}

/-- Adding a statement fails if there is no line for it, and else what comes after it may fail. -/
theorem add_eq_error {α : Type} {stmts : List DraftStmt} (kind : StmtKind (Option StmtId))
    {items : List Item} {next : Draft × StmtId → Except ParseError α}
    (hline : line + stmts.length ≤ maxLine + 1)
    (hfault : firstFault? names (.stmt (line + stmts.length) :: items) = some e)
    (h : line + stmts.length ≤ maxLine → firstFault? names items = some e →
      next (draftOf line procs (stmts ++ [⟨line + stmts.length, none, kind⟩]), stmts.length) =
        .error e) :
    (step ((draftOf line procs stmts).add kind) >>= next) = .error e := by
  rw [firstFault?_cons, Option.or_eq_some_iff, fault?_stmt_eq_some, fault?_stmt_eq_none] at hfault
  rw [bind_eq_error]
  rcases hfault with ⟨hover, rfl⟩ | ⟨hne, hitems⟩
  · left
    have hover' : ¬ line + stmts.length ≤ maxLine := by omega
    simp [draftOf, Draft.add, step, Except.mapError, hover']
  · right
    have hle : line + stmts.length ≤ maxLine := by omega
    exact ⟨_, step_eq_ok.mpr (add_draftOf kind hle), h hle hitems⟩

/-- Adding the statements of a block fails with the first fault of its items. -/
def Block.Fails (block : Block) (line : Nat) (names : List String)
    (procs : Array DraftProc) : Prop :=
  ∀ (stmts : List DraftStmt) (e : ParseError), line + stmts.length ≤ maxLine + 1 →
    firstFault? names (block.items (line + stmts.length)) = some e →
    block.addTo (draftOf line procs stmts) = .error e

/-- A block also fails with its first fault after a statement whose bodies are already there. -/
theorem Block.Fails.after {block : Block} (h : block.Fails line names procs)
    (stmts bodies : List DraftStmt) (stmt : DraftStmt)
    (hline : line + stmts.length + 1 + bodies.length ≤ maxLine + 1)
    (hfault : firstFault? names (block.items (line + stmts.length + 1 + bodies.length)) = some e) :
    block.addTo (draftOf line procs (stmts ++ stmt :: bodies)) = .error e := by
  have hlength : line + (stmts ++ stmt :: bodies).length = line + stmts.length + 1 +
      bodies.length := by
    simp
    omega
  apply h
  · omega
  · rw [hlength]
    exact hfault

/-- A body of the last statement fails, or it is added and linked, and what comes after it may
fail. -/
theorem Block.Fails.body {α : Type} {body : Block} (h : body.Fails line names procs)
    (hnames : procs.toList.map (·.name) = names) (hproper : body.Proper)
    (stmts bodies : List DraftStmt) (part : BodyPart)
    (kindOf : Option StmtId → StmtKind (Option StmtId)) {l : Nat} {items : List Item}
    {next : Draft → Except ParseError α}
    (hkind : ∀ s, Draft.withBody s part (kindOf none) = some (kindOf (some s)))
    (hline : line + stmts.length + 1 + bodies.length ≤ maxLine + 1)
    (hfault : firstFault? names (body.items (line + stmts.length + 1 + bodies.length) ++ items) =
      some e)
    (hnext : line + stmts.length + 1 + bodies.length + body.listing.size ≤ maxLine + 1 →
      firstFault? names items = some e →
      next (draftOf line procs (stmts ++
        ⟨l, none, kindOf (body.listing.firstAt (stmts.length + 1 + bodies.length))⟩ ::
          (bodies ++ body.listing.laid line names (stmts.length + 1 + bodies.length)))) =
            .error e) :
    (do
      let (d, first) ← body.addTo
        (draftOf line procs (stmts ++ (⟨l, none, kindOf none⟩ : DraftStmt) :: bodies))
      let d ← linkBody d part stmts.length first
      next d) = .error e := by
  rw [firstFault?_append, Option.or_eq_some_iff] at hfault
  apply bind_eq_error.mpr
  rcases hfault with hfault | ⟨hnone, hfault⟩
  · exact Or.inl (h.after stmts bodies _ hline hfault)
  · obtain ⟨hlegal, hsize⟩ := hproper.legal hline hnone
    obtain ⟨d, first, hadd, hlink⟩ :=
      (Block.adds hnames body hlegal).body stmts bodies part kindOf l none hkind hsize
    exact Or.inr ⟨_, hadd, bind_eq_error.mpr (Or.inr ⟨_, hlink, hnext hsize hfault⟩)⟩

/-- **The first fault of a statement list is reported.** -/
theorem Block.fails (hnames : procs.toList.map (·.name) = names) {block : Block}
    (hproper : block.Proper) :
    block.Fails line names procs := by
  induction block with
  | done =>
    intro stmts e _ hfault
    cases hfault
  | assign target value rest ih =>
    intro stmts e hline hfault
    obtain ⟨-, hvalue, hrest⟩ := hproper
    rw [items, firstFault?_append, Option.or_eq_some_iff] at hfault
    apply bind_eq_error.mpr
    rcases hfault with hliteral | ⟨hnone, hstmt⟩
    · exact Or.inl (hvalue.resolve_eq_error hliteral)
    · refine Or.inr
        ⟨_, Expr.resolve_eq (hvalue.legal hnone), add_eq_error _ hline hstmt fun hle hitems => ?_⟩
      exact bind_eq_error.mpr (Or.inl ((ih hrest).after stmts [] _ (by simp; omega) hitems))
  | call callee rest ih =>
    intro stmts e hline hfault
    rw [items, firstFault?_cons, Option.or_eq_some_iff, fault?_callee_eq_some,
      fault?_callee_eq_none] at hfault
    rcases hfault with ⟨hcallee, rfl⟩ | ⟨hcallee, hstmt⟩
    · rw [← hnames] at hcallee
      rw [addTo, procNamed?_eq_none line stmts hcallee]
    · obtain ⟨hfound, hlt⟩ := procNamed?_eq line stmts hnames hcallee
      have hcall : (draftOf line procs stmts).addCall (names.idxOf callee.text) =
          (draftOf line procs stmts).add (.call (names.idxOf callee.text)) := if_pos hlt
      rw [addTo, hfound]
      simp only [hcall]
      refine add_eq_error _ hline hstmt fun hle hitems => ?_
      exact bind_eq_error.mpr (Or.inl ((ih hproper).after stmts [] _ (by simp; omega) hitems))
  | branch cond thenBody elseBody rest ihThen ihElse ih =>
    intro stmts e hline hfault
    obtain ⟨-, ⟨-, hthen⟩, ⟨-, helse⟩, hrest⟩ := hproper
    rw [items] at hfault
    -- in the order of the source: the statement, its two bodies, the rest of the list
    refine add_eq_error _ hline hfault fun hle hfault => ?_
    refine (ihThen hthen).body hnames hthen stmts [] .thenBranch
      (fun first => .branch cond first none) (fun _ => rfl) (by simp; omega) hfault
      fun hle hfault => ?_
    rw [← Listing.length_laid line names (stmts.length + 1) thenBody.listing] at hle hfault
    refine (ihElse helse).body hnames helse stmts
      (thenBody.listing.laid line names (stmts.length + 1)) .elseBranch
      (.branch cond (thenBody.listing.firstAt (stmts.length + 1))) (fun _ => rfl) hle hfault
      fun hle hfault => ?_
    refine bind_eq_error.mpr (Or.inl ((ih hrest).after stmts _ _ ?_ ?_))
    · rw [List.length_append, Listing.length_laid _ _ _ elseBody.listing]
      omega
    · rw [List.length_append, Listing.length_laid _ _ _ elseBody.listing, ← Nat.add_assoc]
      exact hfault
  | loop cond body rest ihBody ih =>
    intro stmts e hline hfault
    obtain ⟨-, ⟨-, hbody⟩, hrest⟩ := hproper
    rw [items] at hfault
    refine add_eq_error _ hline hfault fun hle hfault => ?_
    refine (ihBody hbody).body hnames hbody stmts [] .loopBody (.loop cond) (fun _ => rfl)
      (by simp; omega) hfault fun hle hfault => ?_
    rw [← Listing.length_laid line names (stmts.length + 1) body.listing] at hle hfault
    exact bind_eq_error.mpr (Or.inl ((ih hrest).after stmts _ _ hle hfault))

/-! ## Procedures -/

/-- **The first fault of the bodies is reported**, in the order of the procedures. -/
theorem addBodies_eq_error (line : Nat) (sources : List Proc) (procs : List DraftProc)
    (stmts : List DraftStmt) (hnames : procs.map (·.name) ++ sources.map (·.name) = names)
    (hproper : ∀ proc ∈ sources, proc.Proper)
    (hline : line + stmts.length ≤ maxLine + 1)
    (hfault : firstFault? names (itemsOf (line + stmts.length) sources) = some e) :
    addBodies procs.length sources (draftOf line (procs ++ sources.map declared).toArray stmts) =
      .error e := by
  induction sources generalizing procs stmts with
  | nil => cases hfault
  | cons proc sources ih =>
    obtain ⟨⟨-, hne, hbody⟩, hproper⟩ := List.forall_mem_cons.mp hproper
    rw [itemsOf, firstFault?_append, Option.or_eq_some_iff] at hfault
    rcases hfault with hfault | ⟨hnone, hfault⟩
    · have hdeclared : (procs ++ (proc :: sources).map declared).toArray.toList.map (·.name) =
          names := by
        rw [← hnames]
        simp [declared]
      exact bind_eq_error.mpr (Or.inl (Block.fails hdeclared hbody stmts e hline hfault))
    · obtain ⟨hlegal, hsize⟩ := hbody.legal hline hnone
      rw [addBodies_cons_eq line proc sources procs stmts hnames (listing_ne_done hne) hlegal hsize]
      apply ih
      · simpa [bodied] using hnames
      · exact hproper
      · rw [List.length_append, Listing.length_laid]
        omega
      · rw [List.length_append, Listing.length_laid, ← Nat.add_assoc]
        exact hfault

/-- Without a fault, the bodies of procedures are those of a program of the language. -/
theorem legal_of_firstFault?_eq_none {sources : List Proc} {line : Nat}
    (hproper : ∀ proc ∈ sources, proc.Proper) (hline : line ≤ maxLine + 1)
    (h : firstFault? names (itemsOf line sources) = none) :
    (∀ proc ∈ sources, proc.body.listing.Legal names) ∧
      line + ProcListing.total (sources.map Proc.listing) ≤ maxLine + 1 := by
  induction sources generalizing line with
  | nil => exact ⟨by simp, hline⟩
  | cons proc sources ih =>
    obtain ⟨⟨-, -, hbody⟩, hproper⟩ := List.forall_mem_cons.mp hproper
    rw [itemsOf, firstFault?_append, Option.or_eq_none_iff] at h
    obtain ⟨hlegal, hsize⟩ := hbody.legal hline h.1
    obtain ⟨hrest, htotal⟩ := ih hproper hsize h.2
    refine ⟨List.forall_mem_cons.mpr ⟨hlegal, hrest⟩, ?_⟩
    simp only [List.map_cons, ProcListing.total, Proc.listing]
    omega

/-- The first procedure that has the name of an earlier one. -/
def FirstRepeated (procs : List Proc) (proc : Proc) : Prop :=
  ∃ before after, procs = before ++ proc :: after ∧ (before.map (·.name)).Nodup ∧
    proc.name ∈ before.map (·.name)

/-- The first procedure that repeats a name is one of the procedures. -/
theorem FirstRepeated.mem {procs : List Proc} {proc : Proc} (h : FirstRepeated procs proc) :
    proc ∈ procs := by
  obtain ⟨before, after, rfl, -⟩ := h
  simp

/-- If names are repeated, some procedure is the first to repeat one. -/
theorem exists_firstRepeated {procs : List Proc} (h : ¬ (procs.map (·.name)).Nodup) :
    ∃ proc, FirstRepeated procs proc := by
  induction procs using List.reverseRecOn with
  | nil => exact absurd List.nodup_nil h
  | append_singleton procs last ih =>
    by_cases hnodup : (procs.map (·.name)).Nodup
    · refine ⟨last, procs, [], rfl, hnodup, ?_⟩
      by_contra hnew
      apply h
      rw [List.map_append, List.nodup_append_comm]
      exact List.nodup_cons.mpr ⟨hnew, hnodup⟩
    · obtain ⟨proc, before, after, rfl, hproc⟩ := ih hnodup
      exact ⟨proc, before, after ++ [last], by simp, hproc⟩

/-- Procedures in two parts are declared one part after the other. -/
theorem declareAll_append (sources sources' : List Proc) (d : Draft) :
    declareAll (sources ++ sources') d = (declareAll sources d >>= declareAll sources') := by
  induction sources generalizing d with
  | nil => rfl
  | cons proc sources ih =>
    rw [List.cons_append, declareAll, declareAll]
    cases d.procNamed? proc.name with
    | none => exact ih _
    | some q => rfl

/-- Declaring procedures fails at the first one that repeats a name. -/
theorem declareAll_eq_error (settings : Settings) {sources : List Proc} {proc : Proc}
    (h : FirstRepeated sources proc) :
    declareAll sources (.start settings) = .error (.repeatedProc proc.name proc.span) := by
  obtain ⟨before, after, rfl, hnodup, hmem⟩ := h
  have hbefore : declareAll before (.start settings) =
      .ok (draftOf settings.firstLine (before.map declared).toArray []) :=
    declareAll_eq settings.firstLine [] [] before hnodup
  have hnames : (before.map declared).toArray.toList.map (·.name) = before.map (·.name) := by
    simp [declared, Function.comp_def]
  rw [declareAll_append, hbefore]
  change
    declareAll (proc :: after) (draftOf settings.firstLine (before.map declared).toArray []) = _
  rw [declareAll, (procNamed?_eq settings.firstLine [] hnames hmem).1]

/-- What is reported about procedures: the first one that has the name of an earlier one. If there
is none, the fault of the first item that has one. -/
def Reported (settings : Settings) (procs : List Proc) (e : ParseError) : Prop :=
  (∃ proc, FirstRepeated procs proc ∧ e = .repeatedProc proc.name proc.span) ∨
    (procs.map (·.name)).Nodup ∧ ∃ before item after,
      itemsOf settings.firstLine procs = before ++ item :: after ∧
        item.fault? (procs.map (·.name)) = some e ∧
          ∀ other ∈ before, other.fault? (procs.map (·.name)) = none

section ToProgram

variable (settings : Settings) {procs : List Proc}

/-- What is reported about procedures is what making a program of them fails with. -/
theorem toProgram_eq_error (hproper : ∀ proc ∈ procs, proc.Proper) (h : Reported settings procs e) :
    toProgram settings procs = .error e := by
  apply bind_eq_error.mpr
  rcases h with ⟨proc, hproc, rfl⟩ | ⟨hnodup, hfault⟩
  · exact Or.inl (declareAll_eq_error settings hproc)
  · have hfirst : firstFault? (procs.map (·.name)) (itemsOf settings.firstLine procs) = some e :=
      List.findSome?_eq_some_iff.mpr hfault
    have hline := settings.firstLine_le
    refine Or.inr
      ⟨_, declareAll_eq settings.firstLine [] [] procs hnodup, bind_eq_error.mpr (Or.inl ?_)⟩
    exact addBodies_eq_error settings.firstLine procs [] [] rfl hproper (by simp; omega) hfirst

/-- **Where nothing is reported, there is a program of the language**, and there are lines for
it. -/
theorem reported_or_legal (hne : procs ≠ []) (hproper : ∀ proc ∈ procs, proc.Proper) :
    (∃ e, Reported settings procs e) ∨ ProcListing.Legal (procs.map Proc.listing) ∧
      settings.firstLine + ProcListing.total (procs.map Proc.listing) ≤ maxLine + 1 := by
  by_cases hnodup : (procs.map (·.name)).Nodup
  · cases hfault : firstFault? (procs.map (·.name)) (itemsOf settings.firstLine procs) with
    | some e => exact Or.inl ⟨e, Or.inr ⟨hnodup, List.findSome?_eq_some_iff.mp hfault⟩⟩
    | none =>
      right
      have hline := settings.firstLine_le
      obtain ⟨hlegal, htotal⟩ := legal_of_firstFault?_eq_none hproper (by omega) hfault
      have hmap : (procs.map Proc.listing).map (·.name) = procs.map (·.name) := by
        rw [List.map_map]
        rfl
      refine ⟨⟨by simpa using hne, by rwa [hmap], ?_, ?_⟩, htotal⟩
      · rw [List.forall_mem_map]
        exact fun proc hproc => (hproper proc hproc).1
      · rw [hmap, List.forall_mem_map]
        exact fun proc hproc => ⟨listing_ne_done (hproper proc hproc).2.1, hlegal proc hproc⟩
  · obtain ⟨proc, hproc⟩ := exists_firstRepeated hnodup
    exact Or.inl ⟨_, Or.inl ⟨proc, hproc, rfl⟩⟩

end ToProgram

end Source

end ProgramQuery
