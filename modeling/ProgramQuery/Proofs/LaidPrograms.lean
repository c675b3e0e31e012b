import ProgramQuery.Proofs.Listings
import ProgramQuery.Proofs.PlacementTrace

/-!
# Laying out statements

Reading a source adds its statements to a draft in source order, each container before its bodies.
So where each statement comes to lie, and which links it has, can be told from the listing and the
number of statements that were there before (`Listing.laid`). Adding a block adds exactly these
statements (`Block.adds`), and adding the bodies of all procedures adds theirs one after the other
(`addBodies_eq`).
-/

set_option autoImplicit false

namespace ProgramQuery

open ExceptSteps

namespace Listing

/-- The number of the first statement, if there is one, of a list that begins at the given
number. -/
def firstAt (s : StmtId) : Listing → Option StmtId
  | done => none
  | _ => some s

/-- The statements of a list that begins at the given number, with their links. Names are the names
of the procedures by number. -/
def laid (line : Nat) (names : List String) : StmtId → Listing → List DraftStmt
  | _, done => []
  | s, assign target value rest =>
    ⟨line + s, rest.firstAt (s + 1), .assign target value⟩ :: rest.laid line names (s + 1)
  | s, call callee rest =>
    ⟨line + s, rest.firstAt (s + 1), .call (names.idxOf callee)⟩ :: rest.laid line names (s + 1)
  | s, branch cond thenBody elseBody rest =>
    let afterThen := s + 1 + thenBody.size
    let afterElse := afterThen + elseBody.size
    ⟨line + s, rest.firstAt afterElse,
      .branch cond (thenBody.firstAt (s + 1)) (elseBody.firstAt afterThen)⟩ ::
      (thenBody.laid line names (s + 1) ++ (elseBody.laid line names afterThen ++
        rest.laid line names afterElse))
  | s, loop cond body rest =>
    let afterBody := s + 1 + body.size
    ⟨line + s, rest.firstAt afterBody, .loop cond (body.firstAt (s + 1))⟩ ::
      (body.laid line names (s + 1) ++ rest.laid line names afterBody)

/-- A list is laid out as many statements as it has, those of bodies included. -/
theorem length_laid (line : Nat) (names : List String) (s : StmtId) (listing : Listing) :
    (listing.laid line names s).length = listing.size := by
  induction listing generalizing s with
  | done => rfl
  | assign target value rest ih => simp only [laid, List.length_cons, ih, size]; omega
  | call callee rest ih => simp only [laid, List.length_cons, ih, size]; omega
  | branch cond thenBody elseBody rest ihThen ihElse ih =>
    simp only [laid, List.length_cons, List.length_append, ihThen, ihElse, ih, size]
    omega
  | loop cond body rest ihBody ih =>
    simp only [laid, List.length_cons, List.length_append, ihBody, ih, size]
    omega

/-- The first statement of a list is one of its statements. -/
theorem lt_of_firstAt {s t : Nat} {listing : Listing} (h : listing.firstAt s = some t) :
    t = s ∧ 0 < listing.size := by
  cases listing with
  | done => cases h
  | _ =>
    refine ⟨(Option.some.inj h).symm, ?_⟩
    simp only [size]
    omega

/-- A list that is not empty begins with the given number. -/
theorem firstAt_of_ne {s : StmtId} {listing : Listing} (h : listing ≠ done) :
    listing.firstAt s = some s := by
  cases listing with
  | done => exact absurd rfl h
  | _ => rfl

end Listing

namespace ProcListing

/-- The procedures whose statements begin at the given number. -/
def laidProcs : StmtId → List ProcListing → List DraftProc
  | _, [] => []
  | s, proc :: procs => ⟨proc.name, proc.body.firstAt s⟩ :: laidProcs (s + proc.body.size) procs

/-- The statements of procedures, from the given number on. -/
def laid (line : Nat) (names : List String) : StmtId → List ProcListing → List DraftStmt
  | _, [] => []
  | s, proc :: procs => proc.body.laid line names s ++ laid line names (s + proc.body.size) procs

/-- Procedures are laid out as many statements as they have. -/
theorem length_laid (line : Nat) (names : List String) (s : StmtId) (procs : List ProcListing) :
    (laid line names s procs).length = total procs := by
  induction procs generalizing s with
  | nil => rfl
  | cons proc procs ih => rw [laid, List.length_append, Listing.length_laid, ih, total]

/-- Procedures are laid out under their names. -/
theorem names_laidProcs (s : StmtId) (procs : List ProcListing) :
    (laidProcs s procs).map (·.name) = procs.map (·.name) := by
  induction procs generalizing s with
  | nil => rfl
  | cons proc procs ih => simp only [laidProcs, List.map_cons, ih]

end ProcListing

namespace Source

/-! ## Adding statements -/

section Adding

variable {line : Nat} {procs : Array DraftProc} {before after : List DraftStmt} {stmt : DraftStmt}

/-- A draft with the given statements. -/
def draftOf (line : Nat) (procs : Array DraftProc) (stmts : List DraftStmt) : Draft :=
  ⟨line, procs, stmts.toArray⟩

/-- The statement after some others has their number as its own. -/
theorem getStmt_draftOf :
    (draftOf line procs (before ++ stmt :: after)).getStmt before.length = .ok stmt := by
  simp [draftOf, Draft.getStmt]

/-- A number below the number of statements is found. -/
theorem getStmt_draftOf_ok (line : Nat) (procs : Array DraftProc) {stmts : List DraftStmt}
    {s : StmtId}
    (h : s < stmts.length) : ∃ stmt, (draftOf line procs stmts).getStmt s = .ok stmt := by
  simp [draftOf, Draft.getStmt, h]

/-- A statement is added after those that are there. -/
theorem add_draftOf {stmts : List DraftStmt} (kind : StmtKind (Option StmtId))
    (h : line + stmts.length ≤ maxLine) :
    (draftOf line procs stmts).add kind =
      .ok (draftOf line procs (stmts ++ [⟨line + stmts.length, none, kind⟩]), stmts.length) := by
  simp [draftOf, Draft.add, h]

/-- Linking a statement to what follows it changes this link and no other statement. -/
theorem linkNext_eq {next : Option StmtId} (hstmt : stmt.next = none)
    (hnext : ∀ s : Nat, next = some s → s < (before ++ stmt :: after).length) :
    linkNext (draftOf line procs (before ++ stmt :: after)) before.length next =
      .ok (draftOf line procs (before ++ { stmt with next := next } :: after)) := by
  cases next with
  | none =>
    cases stmt
    cases hstmt
    rfl
  | some s =>
    obtain ⟨other, hother⟩ := getStmt_draftOf_ok line procs (hnext s rfl)
    refine step_eq_ok.mpr
      (bind_eq_ok.mpr ⟨other, hother, bind_eq_ok.mpr ⟨stmt, getStmt_draftOf, ?_⟩⟩)
    simp [draftOf, pure, Except.pure]

/-- Linking a container to its body changes this link and no other statement. -/
theorem linkBody_eq {part : BodyPart} {kindOf : Option StmtId → StmtKind (Option StmtId)} {l : Nat}
    {next first : Option StmtId}
    (hkind : ∀ s, Draft.withBody s part (kindOf none) = some (kindOf (some s)))
    (hfirst : ∀ s : Nat, first = some s → s < (before ++ ⟨l, next, kindOf none⟩ :: after).length) :
    linkBody (draftOf line procs (before ++ ⟨l, next, kindOf none⟩ :: after)) part
        before.length first =
      .ok (draftOf line procs (before ++ ⟨l, next, kindOf first⟩ :: after)) := by
  cases first with
  | none => rfl
  | some s =>
    obtain ⟨other, hother⟩ := getStmt_draftOf_ok line procs (hfirst s rfl)
    refine step_eq_ok.mpr (bind_eq_ok.mpr ⟨other, hother, bind_eq_ok.mpr ⟨_, getStmt_draftOf, ?_⟩⟩)
    simp [hkind, draftOf]

end Adding

/-- A legal expression is resolved to what it stands for. -/
theorem Expr.resolve_eq {e : Source.Expr} (h : e.plain.Legal) : e.resolve = .ok e.plain := by
  induction e with
  | var name => rfl
  | literal digits =>
    have hle : digitsValue digits.text.toList ≤ maxConstant := by
      have hvalue := h.2
      omega
    simp [resolve, plain, hle]
  | binary op lhs rhs ihl ihr =>
    rw [resolve, ihl h.1, ihr h.2]
    rfl

/-- A declared procedure is found by its name. -/
theorem procNamed?_eq (line : Nat) (stmts : List DraftStmt) {procs : Array DraftProc}
    {names : List String} {name : String} (hnames : procs.toList.map (·.name) = names)
    (h : name ∈ names) :
    (draftOf line procs stmts).procNamed? name = some (names.idxOf name) ∧
      names.idxOf name < procs.size := by
  obtain ⟨procs, rfl⟩ : ∃ l : List DraftProc, procs = l.toArray := ⟨procs.toList, by simp⟩
  subst hnames
  have hlt := List.idxOf_lt_length_iff.mpr h
  rw [List.length_map] at hlt
  refine ⟨?_, by simpa using hlt⟩
  simp only [draftOf, Draft.procNamed?, List.findIdx?_toArray]
  rw [List.findIdx?_eq_some_iff_findIdx_eq]
  refine ⟨hlt, ?_⟩
  rw [List.idxOf, List.findIdx_map]
  rfl

/-- A name that no procedure has is not found. -/
theorem procNamed?_eq_none (line : Nat) (stmts : List DraftStmt) {procs : Array DraftProc}
    {name : String} (h : name ∉ procs.toList.map (·.name)) :
    (draftOf line procs stmts).procNamed? name = none := by
  obtain ⟨procs, rfl⟩ : ∃ l : List DraftProc, procs = l.toArray := ⟨procs.toList, by simp⟩
  simp only [draftOf, Draft.procNamed?, List.findIdx?_toArray, List.findIdx?_eq_none_iff]
  intro proc hproc
  apply beq_eq_false_iff_ne.mpr
  intro heq
  exact h (heq ▸ List.mem_map_of_mem hproc)

/-- The statements of a block are laid out after those that are there. -/
def Block.Adds (block : Block) (line : Nat) (names : List String)
    (procs : Array DraftProc) : Prop :=
  ∀ stmts : List DraftStmt, line + stmts.length + block.listing.size ≤ maxLine + 1 →
    block.addTo (draftOf line procs stmts) =
      .ok (draftOf line procs (stmts ++ block.listing.laid line names stmts.length),
        block.listing.firstAt stmts.length)

section AddsTo

variable {line : Nat} {names : List String} {procs : Array DraftProc}

/-- A block is also laid out after a statement whose bodies are already there. -/
theorem Block.Adds.after {block : Block} (h : block.Adds line names procs)
    (stmts bodies : List DraftStmt) (stmt : DraftStmt)
    (hlines : line + stmts.length + 1 + bodies.length + block.listing.size ≤ maxLine + 1) :
    block.addTo (draftOf line procs (stmts ++ stmt :: bodies)) =
      .ok (draftOf line procs (stmts ++ stmt ::
        (bodies ++ block.listing.laid line names (stmts.length + 1 + bodies.length))),
        block.listing.firstAt (stmts.length + 1 + bodies.length)) := by
  have hlength : (stmts ++ stmt :: bodies).length = stmts.length + 1 + bodies.length := by
    simp
    omega
  have hadd := h (stmts ++ stmt :: bodies) (by omega)
  rwa [hlength, List.append_assoc, List.cons_append] at hadd

/-- The first statement of what was added is there. -/
theorem lt_length_of_firstAt {block : Block} {stmts bodies : List DraftStmt} {stmt : DraftStmt}
    {s : Nat} (h : block.listing.firstAt (stmts.length + 1 + bodies.length) = some s) :
    s < (stmts ++ stmt ::
      (bodies ++ block.listing.laid line names (stmts.length + 1 + bodies.length))).length := by
  obtain ⟨rfl, hpos⟩ := Listing.lt_of_firstAt h
  simp [Listing.length_laid]
  omega

/-- After a statement and its bodies, the rest of its list is added, and the statement is linked to
it. -/
theorem Block.Adds.rest {rest : Block} (h : rest.Adds line names procs)
    (stmts bodies : List DraftStmt) (stmt : DraftStmt) (hnext : stmt.next = none)
    (hlines : line + stmts.length + 1 + bodies.length + rest.listing.size ≤ maxLine + 1) :
    (do
      let (d, next) ← rest.addTo (draftOf line procs (stmts ++ stmt :: bodies))
      return (← linkNext d stmts.length next, some stmts.length)) =
      .ok (draftOf line procs (stmts ++
        { stmt with next := rest.listing.firstAt (stmts.length + 1 + bodies.length) } ::
          (bodies ++ rest.listing.laid line names (stmts.length + 1 + bodies.length))),
            some stmts.length) :=
  bind_eq_ok.mpr ⟨_, h.after stmts bodies stmt hlines,
    bind_eq_ok.mpr ⟨_, linkNext_eq hnext fun _ => lt_length_of_firstAt, rfl⟩⟩

/-- After a statement, one of its bodies is added, and the statement is linked to it. -/
theorem Block.Adds.body {body : Block} (h : body.Adds line names procs)
    (stmts bodies : List DraftStmt) (part : BodyPart)
    (kindOf : Option StmtId → StmtKind (Option StmtId)) (l : Nat) (next : Option StmtId)
    (hkind : ∀ s, Draft.withBody s part (kindOf none) = some (kindOf (some s)))
    (hlines : line + stmts.length + 1 + bodies.length + body.listing.size ≤ maxLine + 1) :
    ∃ d first, body.addTo (draftOf line procs (stmts ++ ⟨l, next, kindOf none⟩ :: bodies)) =
      .ok (d, first) ∧
      linkBody d part stmts.length first = .ok (draftOf line procs (stmts ++
        ⟨l, next, kindOf (body.listing.firstAt (stmts.length + 1 + bodies.length))⟩ ::
          (bodies ++ body.listing.laid line names (stmts.length + 1 + bodies.length)))) :=
  ⟨_, _, h.after stmts bodies _ hlines, linkBody_eq hkind fun _ => lt_length_of_firstAt⟩

/-- **Adding a block lays out its statements.** -/
theorem Block.adds (hnames : procs.toList.map (·.name) = names) (block : Block)
    (hlegal : block.listing.Legal names) : block.Adds line names procs := by
  induction block with
  | done =>
    intro stmts _
    simp [addTo, listing, Listing.laid, Listing.firstAt]
  | assign target value rest ih =>
    intro stmts hlines
    simp only [listing, Listing.size] at hlines
    obtain ⟨-, hvalue, hrest⟩ := hlegal
    refine bind_eq_ok.mpr ⟨_, Expr.resolve_eq hvalue, bind_eq_ok.mpr ⟨_, step_eq_ok.mpr
      (add_draftOf (.assign target value.plain) (by omega)), ?_⟩⟩
    exact (ih hrest).rest stmts [] _ rfl (by simp; omega)
  | call callee rest ih =>
    intro stmts hlines
    simp only [listing, Listing.size] at hlines
    obtain ⟨hcallee, hrest⟩ := hlegal
    obtain ⟨hfound, hlt⟩ := procNamed?_eq line stmts hnames hcallee
    have hcall : (draftOf line procs stmts).addCall (names.idxOf callee.text) =
        .ok (draftOf line procs
          (stmts ++ [⟨line + stmts.length, none, .call (names.idxOf callee.text)⟩]),
          stmts.length) := by
      have hdeclared : names.idxOf callee.text < (draftOf line procs stmts).procs.size := hlt
      rw [Draft.addCall, if_pos hdeclared]
      exact add_draftOf _ (by omega)
    rw [addTo, hfound]
    refine bind_eq_ok.mpr ⟨_, step_eq_ok.mpr hcall, ?_⟩
    exact (ih hrest).rest stmts [] _ rfl (by simp; omega)
  | branch cond thenBody elseBody rest ihThen ihElse ih =>
    intro stmts hlines
    simp only [listing, Listing.size] at hlines
    obtain ⟨-, ⟨-, hthen⟩, ⟨-, helse⟩, hrest⟩ := hlegal
    have hlength := Listing.length_laid line names (stmts.length + 1) thenBody.listing
    have hlength' :=
      Listing.length_laid line names (stmts.length + 1 + thenBody.listing.size) elseBody.listing
    obtain ⟨d, first, hadd, hlink⟩ := (ihThen hthen).body stmts [] .thenBranch
      (fun first => .branch cond first none) (line + stmts.length) none (fun _ => rfl)
      (by simp; omega)
    obtain ⟨d', first', hadd', hlink'⟩ := (ihElse helse).body stmts
      (thenBody.listing.laid line names (stmts.length + 1)) .elseBranch
      (.branch cond (thenBody.listing.firstAt (stmts.length + 1))) (line + stmts.length) none
      (fun _ => rfl) (by omega)
    rw [hlength] at hlink'
    have hnext := (ih hrest).rest stmts (thenBody.listing.laid line names (stmts.length + 1) ++
      elseBody.listing.laid line names (stmts.length + 1 + thenBody.listing.size))
      ⟨line + stmts.length, none, .branch cond (thenBody.listing.firstAt (stmts.length + 1))
        (elseBody.listing.firstAt (stmts.length + 1 + thenBody.listing.size))⟩ rfl
      (by rw [List.length_append]; omega)
    rw [List.length_append, hlength, hlength', ← Nat.add_assoc, List.append_assoc] at hnext
    refine bind_eq_ok.mpr ⟨_, step_eq_ok.mpr (add_draftOf (.branch cond none none) (by omega)), ?_⟩
    exact bind_eq_ok.mpr ⟨_, hadd, bind_eq_ok.mpr ⟨_, hlink,
      bind_eq_ok.mpr ⟨_, hadd', bind_eq_ok.mpr ⟨_, hlink', hnext⟩⟩⟩⟩
  | loop cond body rest ihBody ih =>
    intro stmts hlines
    simp only [listing, Listing.size] at hlines
    obtain ⟨-, ⟨-, hbody⟩, hrest⟩ := hlegal
    have hlength := Listing.length_laid line names (stmts.length + 1) body.listing
    obtain ⟨d, first, hadd, hlink⟩ := (ihBody hbody).body stmts [] .loopBody
      (.loop cond) (line + stmts.length) none (fun _ => rfl) (by simp; omega)
    have hnext := (ih hrest).rest stmts (body.listing.laid line names (stmts.length + 1))
      ⟨line + stmts.length, none, .loop cond (body.listing.firstAt (stmts.length + 1))⟩ rfl
      (by omega)
    rw [hlength] at hnext
    refine bind_eq_ok.mpr ⟨_, step_eq_ok.mpr (add_draftOf (.loop cond none) (by omega)), ?_⟩
    exact bind_eq_ok.mpr ⟨_, hadd, bind_eq_ok.mpr ⟨_, hlink, hnext⟩⟩

end AddsTo

/-! ## Procedures -/

/-- After a list that is not empty, there are more statements than before. -/
theorem lt_length_laid {line : Nat} {names : List String} {listing : Listing} (h : listing ≠ .done)
    (stmts : List DraftStmt) :
    stmts.length < (stmts ++ listing.laid line names stmts.length).length := by
  have hpos := (Listing.lt_of_firstAt (Listing.firstAt_of_ne h (s := stmts.length))).2
  rw [List.length_append, Listing.length_laid]
  omega

/-- A declared procedure whose body is not there yet. -/
def declared (proc : Proc) : DraftProc := ⟨proc.name, none⟩

/-- A declared procedure whose body begins with the given statement. -/
def bodied (proc : Proc) (first : StmtId) : DraftProc := ⟨proc.name, some first⟩

/-- Procedures of different names are declared one after the other. -/
theorem declareAll_eq (line : Nat) (stmts : List DraftStmt) (procs : List DraftProc)
    (sources : List Proc) (h : (procs.map (·.name) ++ sources.map (·.name)).Nodup) :
    declareAll sources (draftOf line procs.toArray stmts) =
      .ok (draftOf line (procs ++ sources.map declared).toArray stmts) := by
  induction sources generalizing procs with
  | nil => simp [declareAll]
  | cons proc sources ih =>
    have hnew : (draftOf line procs.toArray stmts).procNamed? proc.name = none := by
      apply procNamed?_eq_none
      intro hmem
      exact List.disjoint_of_nodup_append h hmem (by simp)
    rw [declareAll, hnew]
    simp only [Draft.declare, hnew]
    have hpush := ih (procs ++ [declared proc]) (by simpa [declared] using h)
    simpa [draftOf, declared] using hpush

/-- The body of the first procedure is laid out, and then the others follow. -/
theorem addBodies_cons_eq (line : Nat) {names : List String} (proc : Proc) (sources : List Proc)
    (procs : List DraftProc) (stmts : List DraftStmt)
    (hnames : procs.map (·.name) ++ (proc :: sources).map (·.name) = names)
    (hne : proc.body.listing ≠ .done) (hlegal : proc.body.listing.Legal names)
    (hlines : line + stmts.length + proc.body.listing.size ≤ maxLine + 1) :
    addBodies procs.length (proc :: sources)
        (draftOf line (procs ++ (proc :: sources).map declared).toArray stmts) =
      addBodies (procs ++ [bodied proc stmts.length]).length sources
        (draftOf line (procs ++ [bodied proc stmts.length] ++ sources.map declared).toArray
          (stmts ++ proc.body.listing.laid line names stmts.length)) := by
  have hdeclared : (procs ++ (proc :: sources).map declared).toArray.toList.map (·.name) =
      names := by
    rw [← hnames]
    simp [declared]
  have hadds : proc.body.Adds line names (procs ++ (proc :: sources).map declared).toArray :=
    Block.adds hdeclared proc.body hlegal
  have hadd := hadds stmts hlines
  rw [Listing.firstAt_of_ne hne] at hadd
  -- the body is there, so the procedure can be linked to it
  obtain ⟨first, hfirst⟩ :=
    getStmt_draftOf_ok line (procs ++ (proc :: sources).map declared).toArray
      (lt_length_laid hne stmts)
  have hlink :
      (draftOf line (procs ++ (proc :: sources).map declared).toArray
        (stmts ++ proc.body.listing.laid line names stmts.length)).setProcBody
          stmts.length procs.length =
      .ok (draftOf line (procs ++ [bodied proc stmts.length] ++ sources.map declared).toArray
        (stmts ++ proc.body.listing.laid line names stmts.length)) := by
    refine bind_eq_ok.mpr ⟨first, hfirst, bind_eq_ok.mpr ⟨declared proc, ?_, ?_⟩⟩
    · simp [draftOf, Draft.getProc]
    · simp [draftOf, declared, bodied]
  rw [addBodies, hadd, List.length_append]
  simp only [bind, Except.bind, step_eq_ok.mpr hlink, List.length_singleton]

/-- The bodies of declared procedures are laid out one after the other. -/
theorem addBodies_eq (line : Nat) {names : List String} (sources : List Proc)
    (procs : List DraftProc) (stmts : List DraftStmt)
    (hnames : procs.map (·.name) ++ sources.map (·.name) = names)
    (hbodies : ∀ proc ∈ sources, proc.body.listing ≠ .done ∧ proc.body.listing.Legal names)
    (hlines : line + stmts.length + ProcListing.total (sources.map Proc.listing) ≤ maxLine + 1) :
    addBodies procs.length sources (draftOf line (procs ++ sources.map declared).toArray stmts) =
      .ok (draftOf line
        (procs ++ ProcListing.laidProcs stmts.length (sources.map Proc.listing)).toArray
        (stmts ++ ProcListing.laid line names stmts.length (sources.map Proc.listing))) := by
  induction sources generalizing procs stmts with
  | nil => simp [addBodies, ProcListing.laidProcs, ProcListing.laid]
  | cons proc sources ih =>
    obtain ⟨⟨hne, hlegal⟩, hbodies⟩ := List.forall_mem_cons.mp hbodies
    simp only [List.map_cons, ProcListing.total] at hlines
    have hsize : (proc.listing).body.size = proc.body.listing.size := rfl
    rw [addBodies_cons_eq line proc sources procs stmts hnames hne hlegal (by omega)]
    have hrest := ih (procs ++ [bodied proc stmts.length])
      (stmts ++ proc.body.listing.laid line names stmts.length) (by simpa [bodied] using hnames)
        hbodies
      (by rw [List.length_append, Listing.length_laid]; omega)
    rw [hrest, List.length_append, Listing.length_laid]
    simp [ProcListing.laidProcs, ProcListing.laid, Proc.listing, bodied, Listing.firstAt_of_ne hne]

end Source

end ProgramQuery
