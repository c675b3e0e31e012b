import ProgramQuery.Proofs.ExceptSteps
import ProgramQuery.Source.ToProgram

/-!
# Drafts that steps lead to

Steps may name any numbers, link any statement to any other and link the same statement again. Still
every draft that steps lead to is sound (`Draft.Sound`): its links stay within the draft, its lines
count up from the first line, and no two procedures have the same name.

Soundness is kept by each of the ways in which a draft changes (`Sound.declare`, `Sound.add`,
`Sound.setNext`, `Sound.setProcBody`, `Sound.setBody`). Hence it holds after any course of steps
(`sound_after`), and after reading a text, which goes through the same changes (`sound_addBodies`).
-/

set_option autoImplicit false

namespace ProgramQuery

open ExceptSteps

/-- A statement of a draft fits a line, a number of statements and a number of procedures: it stands
on the line, and its links lead to statements and procedures that there are. -/
structure DraftStmt.Fits (stmt : DraftStmt) (line stmts procs : Nat) : Prop where
  line_eq : stmt.line = line
  next_lt : ∀ t, stmt.next = some t → t < stmts
  body_lt : ∀ first, some first ∈ stmt.kind.bodies → first < stmts
  callee_lt : ∀ q, stmt.kind = .call q → q < procs

/-- Adding statements and procedures does not make links lead astray. -/
theorem DraftStmt.Fits.mono {stmt : DraftStmt} {line stmts procs stmts' procs' : Nat}
    (h : stmt.Fits line stmts procs) (hs : stmts ≤ stmts') (hp : procs ≤ procs') :
    stmt.Fits line stmts' procs' where
  line_eq := h.line_eq
  next_lt t ht := Nat.lt_of_lt_of_le (h.next_lt t ht) hs
  body_lt first hfirst := Nat.lt_of_lt_of_le (h.body_lt first hfirst) hs
  callee_lt q hq := Nat.lt_of_lt_of_le (h.callee_lt q hq) hp

namespace Draft

/-- The links of a draft stay within it, its lines count up from the first line and the names of its
procedures differ. -/
structure Sound (d : Draft) : Prop where
  stmt_fits : ∀ (s : StmtId) (stmt : DraftStmt), d.stmts[s]? = some stmt →
    stmt.Fits (d.firstLine + s) d.stmts.size d.procs.size
  first_lt : ∀ (q : ProcId) (proc : DraftProc) (first : StmtId), d.procs[q]? = some proc →
    proc.first = some first → first < d.stmts.size
  name_inj : ∀ (q q' : ProcId) (proc proc' : DraftProc), d.procs[q]? = some proc →
    d.procs[q']? = some proc' → proc.name = proc'.name → q = q'

variable {d d' : Draft} {s t : StmtId} {q : ProcId}

/-! ## Reading a draft -/

/-- Looking up a statement by number finds the statement of that number. -/
theorem getStmt_eq_ok {stmt : DraftStmt} : d.getStmt s = .ok stmt ↔ d.stmts[s]? = some stmt := by
  unfold getStmt
  cases d.stmts[s]? <;> simp

/-- Looking up a procedure by number finds the procedure of that number. -/
theorem getProc_eq_ok {proc : DraftProc} : d.getProc q = .ok proc ↔ d.procs[q]? = some proc := by
  unfold getProc
  cases d.procs[q]? <;> simp

/-- A statement that is looked up is within the draft. -/
theorem lt_size_of_getStmt {stmt : DraftStmt} (h : d.getStmt s = .ok stmt) : s < d.stmts.size := by
  obtain ⟨hlt, -⟩ := Array.getElem?_eq_some_iff.mp (getStmt_eq_ok.mp h)
  exact hlt

/-- If no procedure is found by a name, none has it. -/
theorem name_ne_of_procNamed?_eq_none {name : String} (h : d.procNamed? name = none)
    {proc : DraftProc} (hq : d.procs[q]? = some proc) : proc.name ≠ name := by
  unfold procNamed? at h
  rw [Array.findIdx?_eq_none_iff] at h
  have hmem : proc ∈ d.procs := Array.mem_of_getElem? hq
  simpa using h proc hmem

/-- A procedure of a sound draft is the one that is found by its name. -/
theorem Sound.procNamed?_eq_some_iff (h : d.Sound) {name : String} :
    d.procNamed? name = some q ↔ ∃ proc, d.procs[q]? = some proc ∧ proc.name = name := by
  unfold procNamed?
  rw [Array.findIdx?_eq_some_iff_getElem]
  constructor
  · rintro ⟨hlt, hname, -⟩
    exact ⟨_, Array.getElem?_eq_getElem hlt, by simpa using hname⟩
  · rintro ⟨proc, hq, rfl⟩
    obtain ⟨hlt, hget⟩ := Array.getElem?_eq_some_iff.mp hq
    refine ⟨hlt, by simp [hget], ?_⟩
    -- the search stops at the first procedure of the name, and there is no other one
    intro q' hq' hname
    have hother := Array.getElem?_eq_getElem (Nat.lt_trans hq' hlt)
    exact Nat.ne_of_lt hq' (h.name_inj q' q _ _ hother hq (by simpa using hname))

/-! ## What each change keeps -/

/-- A new draft is sound. -/
theorem sound_start (settings : Settings) : (start settings).Sound where
  stmt_fits s stmt hs := by simp [start] at hs
  first_lt q proc first hq := by simp [start] at hq
  name_inj q q' proc proc' hq := by simp [start] at hq

/-- After a procedure was added, each procedure is the new one or an old one. -/
theorem getElem?_pushProc {proc proc' : DraftProc} (h : (d.procs.push proc)[q]? = some proc') :
    (q = d.procs.size ∧ proc' = proc) ∨ d.procs[q]? = some proc' := by
  rw [Array.getElem?_push] at h
  split at h
  · exact Or.inl ⟨by assumption, (Option.some.inj h).symm⟩
  · exact Or.inr h

/-- Declaring a procedure keeps a draft sound: a procedure is added only under a new name. -/
theorem Sound.declare (h : d.Sound) (name : String) : (d.declare name).1.Sound := by
  unfold Draft.declare
  cases hname : d.procNamed? name with
  | some q => exact h
  | none =>
    refine ⟨?_, ?_, ?_⟩
    · intro s stmt hs
      exact (h.stmt_fits s stmt hs).mono (Nat.le_refl _) (by simp)
    · intro q proc first hq hfirst
      rcases getElem?_pushProc hq with ⟨-, rfl⟩ | hq
      · cases hfirst
      · exact h.first_lt q proc first hq hfirst
    · intro q q' proc proc' hq hq' heq
      -- the new name was not found among the old ones
      rcases getElem?_pushProc hq with ⟨rfl, rfl⟩ | hq <;>
        rcases getElem?_pushProc hq' with ⟨rfl, rfl⟩ | hq'
      · rfl
      · exact absurd heq.symm (name_ne_of_procNamed?_eq_none hname hq')
      · exact absurd heq (name_ne_of_procNamed?_eq_none hname hq)
      · exact h.name_inj q q' proc proc' hq hq' heq

/-- An added statement gets the next number, the next line, and no links. -/
theorem add_eq_ok {kind : StmtKind (Option StmtId)} (h : d.add kind = .ok (d', s)) :
    s = d.stmts.size ∧
      d' = { d with stmts := d.stmts.push ⟨d.firstLine + d.stmts.size, none, kind⟩ } := by
  unfold add at h
  simp only at h
  split at h
  · cases h
    exact ⟨rfl, rfl⟩
  · cases h

/-- Adding a statement without bodies keeps a draft sound, if a call is to a procedure of it. -/
theorem Sound.add (h : d.Sound) {kind : StmtKind (Option StmtId)}
    (hbodies : ∀ first, some first ∉ kind.bodies) (hcallee : ∀ q, kind = .call q → q < d.procs.size)
    (hadd : d.add kind = .ok (d', s)) : d'.Sound := by
  obtain ⟨-, rfl⟩ := add_eq_ok hadd
  have hsize : d.stmts.size ≤ (d.stmts.push ⟨d.firstLine + d.stmts.size, none, kind⟩).size := by
    simp
  refine ⟨?_, ?_, h.name_inj⟩
  · intro s stmt hs
    have hs' : (d.stmts.push ⟨d.firstLine + d.stmts.size, none, kind⟩)[s]? = some stmt := hs
    rw [Array.getElem?_push] at hs'
    split at hs'
    · rename_i hlast
      subst hlast
      cases hs'
      refine ⟨rfl, ?_, ?_, hcallee⟩
      · intro t ht
        cases ht
      · intro first hfirst
        exact absurd hfirst (hbodies first)
    · exact (h.stmt_fits s stmt hs').mono hsize (Nat.le_refl _)
  · intro q proc first hq hfirst
    exact Nat.lt_of_lt_of_le (h.first_lt q proc first hq hfirst) hsize

/-- A statement may be replaced with one that fits its place. -/
theorem Sound.replace (h : d.Sound) {stmt : DraftStmt}
    (hfits : stmt.Fits (d.firstLine + s) d.stmts.size d.procs.size) :
    Sound { d with stmts := d.stmts.setIfInBounds s stmt } := by
  refine ⟨?_, ?_, h.name_inj⟩
  · intro t stmt' ht
    have ht' : (d.stmts.setIfInBounds s stmt)[t]? = some stmt' := ht
    rw [Array.getElem?_setIfInBounds] at ht'
    simp only [Array.size_setIfInBounds]
    split at ht'
    · rename_i hst
      subst hst
      split at ht'
      · cases ht'
        exact hfits
      · cases ht'
    · exact h.stmt_fits t stmt' ht'
  · intro q proc first hq hfirst
    simpa using h.first_lt q proc first hq hfirst

/-- Setting what comes next needs both statements, and changes only the link. -/
theorem setNext_eq_ok (hset : d.setNext s t = .ok d') :
    t < d.stmts.size ∧ ∃ stmt, d.stmts[s]? = some stmt ∧
      d' = { d with stmts := d.stmts.setIfInBounds s { stmt with next := some t } } := by
  obtain ⟨next, hnext, hset⟩ := bind_eq_ok.mp hset
  obtain ⟨stmt, hstmt, hset⟩ := bind_eq_ok.mp hset
  cases hset
  exact ⟨lt_size_of_getStmt hnext, stmt, getStmt_eq_ok.mp hstmt, rfl⟩

/-- Setting what comes next keeps a draft sound. -/
theorem Sound.setNext (h : d.Sound) (hset : d.setNext s t = .ok d') : d'.Sound := by
  obtain ⟨hlt, stmt, hstmt, rfl⟩ := setNext_eq_ok hset
  have hold := h.stmt_fits s stmt hstmt
  apply h.replace
  refine ⟨hold.line_eq, ?_, hold.body_lt, hold.callee_lt⟩
  intro u hu
  cases hu
  exact hlt

/-- Setting the body of a procedure needs the statement and a procedure without one, and changes
only the link. -/
theorem setProcBody_eq_ok (hset : d.setProcBody s q = .ok d') :
    s < d.stmts.size ∧ ∃ proc, d.procs[q]? = some proc ∧ proc.first = none ∧
      d' = { d with procs := d.procs.setIfInBounds q { proc with first := some s } } := by
  obtain ⟨stmt, hstmt, hset⟩ := bind_eq_ok.mp hset
  obtain ⟨proc, hproc, hset⟩ := bind_eq_ok.mp hset
  cases hfirst : proc.first with
  | some first =>
    rw [hfirst] at hset
    cases hset
  | none =>
    rw [hfirst] at hset
    cases hset
    exact ⟨lt_size_of_getStmt hstmt, proc, getProc_eq_ok.mp hproc, hfirst, rfl⟩

/-- Setting the body of a procedure changes that procedure only. -/
theorem getElem?_setProc {q' : ProcId} {proc proc' : DraftProc}
    (h : (d.procs.setIfInBounds q proc)[q']? = some proc') :
    (proc' = proc ∧ q = q') ∨ d.procs[q']? = some proc' := by
  rw [Array.getElem?_setIfInBounds] at h
  split at h
  · split at h
    · cases h
      exact Or.inl ⟨rfl, by assumption⟩
    · cases h
  · exact Or.inr h

/-- Setting the body of a procedure keeps a draft sound. -/
theorem Sound.setProcBody (h : d.Sound) (hset : d.setProcBody s q = .ok d') : d'.Sound := by
  obtain ⟨hlt, proc, hproc, -, rfl⟩ := setProcBody_eq_ok hset
  refine ⟨?_, ?_, ?_⟩
  · intro t stmt' ht
    exact (h.stmt_fits t stmt' ht).mono (Nat.le_refl _) (by simp)
  · intro q' proc' first' hq' hfirst'
    rcases getElem?_setProc hq' with ⟨rfl, rfl⟩ | hq'
    · cases hfirst'
      exact hlt
    · exact h.first_lt q' proc' first' hq' hfirst'
  · -- the names at all numbers are the ones from before
    intro q₁ q₂ proc₁ proc₂ h₁ h₂ heq
    rcases getElem?_setProc h₁ with ⟨rfl, rfl⟩ | h₁ <;>
      rcases getElem?_setProc h₂ with ⟨rfl, rfl⟩ | h₂
    · rfl
    · exact h.name_inj _ _ _ _ hproc h₂ heq
    · exact h.name_inj _ _ _ _ h₁ hproc heq
    · exact h.name_inj _ _ _ _ h₁ h₂ heq

/-- Setting a body of a container adds that body's link only. -/
theorem withBody_eq_some {part : BodyPart} {first : StmtId} {kind kind' : StmtKind (Option StmtId)}
    (h : withBody first part kind = some kind') :
    (∀ b ∈ kind'.bodies, b = some first ∨ b ∈ kind.bodies) ∧ ∀ q, kind' ≠ .call q := by
  cases part <;> cases kind <;> simp only [withBody, reduceCtorEq, Option.some.injEq] at h <;>
    subst h <;> simp [StmtKind.bodies]

/-- Setting a body of a container needs the statement and a container with such a body, and changes
only the link. -/
theorem setBody_eq_ok {part : BodyPart} {first : StmtId} (hset : d.setBody part first s = .ok d') :
    first < d.stmts.size ∧
      ∃ stmt kind, d.stmts[s]? = some stmt ∧ withBody first part stmt.kind = some kind ∧
      d' = { d with stmts := d.stmts.setIfInBounds s { stmt with kind := kind } } := by
  obtain ⟨target, htarget, hset⟩ := bind_eq_ok.mp hset
  obtain ⟨stmt, hstmt, hset⟩ := bind_eq_ok.mp hset
  cases hkind : withBody first part stmt.kind with
  | none =>
    rw [hkind] at hset
    cases hset
  | some kind =>
    rw [hkind] at hset
    cases hset
    exact ⟨lt_size_of_getStmt htarget, stmt, kind, getStmt_eq_ok.mp hstmt, hkind, rfl⟩

/-- Setting a body of a container keeps a draft sound. -/
theorem Sound.setBody (h : d.Sound) {part : BodyPart} {first : StmtId}
    (hset : d.setBody part first s = .ok d') : d'.Sound := by
  obtain ⟨hlt, stmt, kind, hstmt, hkind, rfl⟩ := setBody_eq_ok hset
  obtain ⟨hbodies, hcall⟩ := withBody_eq_some hkind
  have hold := h.stmt_fits s stmt hstmt
  apply h.replace
  refine ⟨hold.line_eq, hold.next_lt, ?_, ?_⟩
  · intro b hb
    rcases hbodies (some b) hb with hnew | hb
    · cases hnew
      exact hlt
    · exact hold.body_lt b hb
  · intro q hq
    exact absurd hq (hcall q)

/-- Adding a call keeps a draft sound. -/
theorem Sound.addCall (h : d.Sound) (hadd : d.addCall q = .ok (d', s)) : d'.Sound := by
  unfold Draft.addCall at hadd
  split at hadd
  · rename_i hq
    refine h.add (by simp [StmtKind.bodies]) ?_ hadd
    intro q' hq'
    cases hq'
    exact hq
  · cases hadd

/-! ## Courses of steps -/

/-- Every step that succeeds keeps a draft sound. -/
theorem Sound.apply (h : d.Sound) {step : Step} {reply : Reply}
    (happly : d.apply step = .ok (d', reply)) : d'.Sound := by
  cases step with
  | declare name =>
    cases happly
    exact h.declare name
  | addAssign target value =>
    obtain ⟨⟨d'', s⟩, hadd, heq⟩ := map_eq_ok.mp happly
    cases heq
    exact h.add (by simp [StmtKind.bodies]) (by simp) hadd
  | addCall callee =>
    obtain ⟨⟨d'', s⟩, hadd, heq⟩ := map_eq_ok.mp happly
    cases heq
    exact h.addCall hadd
  | addBranch cond =>
    obtain ⟨⟨d'', s⟩, hadd, heq⟩ := map_eq_ok.mp happly
    cases heq
    exact h.add (by simp [StmtKind.bodies]) (by simp) hadd
  | addLoop cond =>
    obtain ⟨⟨d'', s⟩, hadd, heq⟩ := map_eq_ok.mp happly
    cases heq
    exact h.add (by simp [StmtKind.bodies]) (by simp) hadd
  | setNext prev next =>
    obtain ⟨d'', hset, heq⟩ := map_eq_ok.mp happly
    cases heq
    exact h.setNext hset
  | setProcBody first q =>
    obtain ⟨d'', hset, heq⟩ := map_eq_ok.mp happly
    cases heq
    exact h.setProcBody hset
  | setBody part first s =>
    obtain ⟨d'', hset, heq⟩ := map_eq_ok.mp happly
    cases heq
    exact h.setBody hset

/-- A step keeps a draft sound, also one that fails. -/
theorem Sound.perform (h : d.Sound) (step : Step) : (d.perform step).Sound := by
  unfold Draft.perform
  split
  · exact h.apply (by assumption)
  · exact h

/-- The draft that a course of steps leads to. Steps that fail are passed over. -/
def after (settings : Settings) (steps : List Step) : Draft :=
  steps.foldl perform (start settings)

/-- **Every course of steps** leads to a sound draft. -/
theorem sound_after (settings : Settings) (steps : List Step) : (after settings steps).Sound := by
  have hrun : ∀ (d : Draft), d.Sound → (steps.foldl Draft.perform d).Sound := by
    induction steps with
    | nil => exact fun d h => h
    | cons step steps ih => exact fun d h => ih (d.perform step) (h.perform step)
  exact hrun _ (sound_start settings)

end Draft

/-! ## Reading a text -/

namespace Source

variable {d d' : Draft}

/-- A step on behalf of a source succeeds if the step on the draft does. -/
theorem step_eq_ok {α : Type} {result : Except DraftError α} {a : α} :
    step result = .ok a ↔ result = .ok a := by
  unfold step
  cases result <;> simp [Except.mapError]

/-- Linking to the statement that follows, if there is one, keeps a draft sound. -/
theorem sound_linkNext {s : StmtId} {next : Option StmtId} (h : d.Sound)
    (hlink : linkNext d s next = .ok d') : d'.Sound := by
  cases next with
  | none =>
    cases hlink
    exact h
  | some next => exact h.setNext (step_eq_ok.mp hlink)

/-- Linking to the first statement of a body, if there is one, keeps a draft sound. -/
theorem sound_linkBody {part : BodyPart} {s : StmtId} {first : Option StmtId} (h : d.Sound)
    (hlink : linkBody d part s first = .ok d') : d'.Sound := by
  cases first with
  | none =>
    cases hlink
    exact h
  | some first => exact h.setBody (step_eq_ok.mp hlink)

/-- Adding the statements after one and linking to them keeps a draft sound. -/
theorem sound_addRest {rest : Block} {s : StmtId} {first : Option StmtId}
    (ih : ∀ {d d' : Draft} {first : Option StmtId}, d.Sound → rest.addTo d = .ok (d', first) →
      d'.Sound) (h : d.Sound)
    (hadd : (do
      let (d, next) ← rest.addTo d
      return (← linkNext d s next, some s) : Except ParseError (Draft × Option StmtId)) =
        .ok (d', first)) : d'.Sound := by
  obtain ⟨⟨d₁, next⟩, hrest, hadd⟩ := bind_eq_ok.mp hadd
  obtain ⟨d₂, hlink, heq⟩ := bind_eq_ok.mp hadd
  cases heq
  exact sound_linkNext (ih h hrest) hlink

/-- Adding a block keeps a draft sound, by induction on the block. -/
theorem sound_addTo (block : Block) {first : Option StmtId} (h : d.Sound)
    (hadd : block.addTo d = .ok (d', first)) : d'.Sound := by
  induction block generalizing d d' first with
  | done =>
    cases hadd
    exact h
  | assign target value rest ih =>
    obtain ⟨value', -, hadd⟩ := bind_eq_ok.mp hadd
    obtain ⟨⟨d₁, s⟩, hs, hadd⟩ := bind_eq_ok.mp hadd
    exact sound_addRest ih (h.add (by simp [StmtKind.bodies]) (by simp) (step_eq_ok.mp hs)) hadd
  | call callee rest ih =>
    unfold Block.addTo at hadd
    split at hadd
    · cases hadd
    · obtain ⟨⟨d₁, s⟩, hs, hadd⟩ := bind_eq_ok.mp hadd
      exact sound_addRest ih (h.addCall (step_eq_ok.mp hs)) hadd
  | branch cond thenBody elseBody rest ihThen ihElse ih =>
    obtain ⟨⟨d₁, s⟩, hs, hadd⟩ := bind_eq_ok.mp hadd
    obtain ⟨⟨d₂, thenFirst⟩, hthen, hadd⟩ := bind_eq_ok.mp hadd
    obtain ⟨d₃, hthenLink, hadd⟩ := bind_eq_ok.mp hadd
    obtain ⟨⟨d₄, elseFirst⟩, helse, hadd⟩ := bind_eq_ok.mp hadd
    obtain ⟨d₅, helseLink, hadd⟩ := bind_eq_ok.mp hadd
    have h₁ : d₁.Sound := h.add (by simp [StmtKind.bodies]) (by simp) (step_eq_ok.mp hs)
    have h₃ : d₃.Sound := sound_linkBody (ihThen h₁ hthen) hthenLink
    have h₅ : d₅.Sound := sound_linkBody (ihElse h₃ helse) helseLink
    exact sound_addRest ih h₅ hadd
  | loop cond body rest ihBody ih =>
    obtain ⟨⟨d₁, s⟩, hs, hadd⟩ := bind_eq_ok.mp hadd
    obtain ⟨⟨d₂, bodyFirst⟩, hbody, hadd⟩ := bind_eq_ok.mp hadd
    obtain ⟨d₃, hbodyLink, hadd⟩ := bind_eq_ok.mp hadd
    have h₁ : d₁.Sound := h.add (by simp [StmtKind.bodies]) (by simp) (step_eq_ok.mp hs)
    have h₃ : d₃.Sound := sound_linkBody (ihBody h₁ hbody) hbodyLink
    exact sound_addRest ih h₃ hadd

/-- Declaring the procedures of a source keeps a draft sound. -/
theorem sound_declareAll (procs : List Proc) (h : d.Sound) (hall : declareAll procs d = .ok d') :
    d'.Sound := by
  induction procs generalizing d with
  | nil =>
    cases hall
    exact h
  | cons proc procs ih =>
    unfold declareAll at hall
    split at hall
    · cases hall
    · exact ih (h.declare proc.name) hall

/-- Adding the bodies of the procedures keeps a draft sound. -/
theorem sound_addBodies (q : ProcId) (procs : List Proc) (h : d.Sound)
    (hall : addBodies q procs d = .ok d') : d'.Sound := by
  induction procs generalizing d q with
  | nil =>
    cases hall
    exact h
  | cons proc procs ih =>
    obtain ⟨⟨d₁, first⟩, hbody, hall⟩ := bind_eq_ok.mp hall
    have h₁ : d₁.Sound := sound_addTo proc.body h hbody
    cases first with
    | none => exact ih (q + 1) h₁ hall
    | some first =>
      obtain ⟨d₂, hset, hall⟩ := bind_eq_ok.mp hall
      exact ih (q + 1) (h₁.setProcBody (step_eq_ok.mp hset)) hall

end Source

/-! ## Built programs -/

/-- A program that a course of steps ends in, or that a text stands for. -/
inductive Program.Built : Program → Prop where
  | ofSteps {p : Program} (settings : Settings) (steps : List Draft.Step)
      (h : (Draft.after settings steps).finish = .ok p) : Program.Built p
  | ofText {p : Program} (settings : Settings) (text : String)
      (h : Program.ofText settings text = .ok p) : Program.Built p

/-- A course of steps for two procedures that call each other. One link is set twice, and the last
step fails. -/
def exampleSteps : List Draft.Step := [
  .declare "a", .declare "b",
  .addAssign "x" (.var "y"), .addCall 1, .addBranch "c", .addCall 0, .addAssign "z" (.const 1),
  .setNext 0 4, .setNext 0 1, .setProcBody 0 0, .setProcBody 2 1,
  .setBody .thenBranch 3 2, .setBody .elseBranch 4 2, .setNext 9 0]

/-- The program that the steps of `exampleSteps` end in. -/
def exampleProgram : Program where
  procs := #[⟨"a", 0⟩, ⟨"b", 2⟩]
  stmts := #[
    ⟨1, some 1, none, none, 0, .assign "x" (.var "y")⟩,
    ⟨2, none, some 0, none, 0, .call 1⟩,
    ⟨3, none, none, none, 1, .branch "c" 3 4⟩,
    ⟨4, none, none, some 2, 1, .call 0⟩,
    ⟨5, none, none, some 2, 1, .assign "z" (.const 1)⟩]

/-- The example program is built by steps. -/
theorem built_exampleProgram : exampleProgram.Built :=
  .ofSteps {} exampleSteps (by decide +kernel)

/-- A built program is what a sound draft is finished to. -/
theorem Program.Built.exists_draft {p : Program} (h : p.Built) :
    ∃ d : Draft, d.Sound ∧ d.finish = .ok p := by
  cases h with
  | ofSteps settings steps h => exact ⟨_, Draft.sound_after settings steps, h⟩
  | ofText settings text h =>
    unfold Program.ofText at h
    split at h
    · cases h
    · obtain ⟨d₁, hdeclare, h⟩ := bind_eq_ok.mp h
      obtain ⟨d₂, hbodies, h⟩ := bind_eq_ok.mp h
      have h₁ : d₁.Sound := Source.sound_declareAll _ (Draft.sound_start settings) hdeclare
      exact ⟨d₂, Source.sound_addBodies 0 _ h₁ hbodies, Source.step_eq_ok.mp h⟩

end ProgramQuery
