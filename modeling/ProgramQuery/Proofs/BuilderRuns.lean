import ProgramQuery.Program.Builder
import ProgramQuery.Proofs.DraftFaults

/-!
# Calls of a builder

A builder is changed in place, by calls that name any numbers. Between calls it keeps a draft
(`Builder.Keeps`): it has the procedures and statements of the draft, finds the procedures by their
names, and its next line is the one that the draft would give to a statement. Each call does to the
builder what the step does to the draft, or it fails as the step does and leaves the builder as it
was (`Keeps.mirrors`). The line counter does not wrap around, because there is no line after the
last one (`map_lineAfter?`).

What holds of all drafts that steps lead to therefore holds of the builder (`Builder.Orderly`),
whatever calls were made before (`calls_orderly`). The builder ends as the draft does, with a
well-formed program or with the report of a fault (`finish_runFrom`).
-/

set_option autoImplicit false

namespace ProgramQuery

open ExceptSteps
open Draft (Step Reply)

/-! ## What a step adds -/

namespace Draft

variable {d d' : Draft} {step : Step} {reply : Reply}

/-- The step adds a statement to a draft with so many procedures: an assignment, a container, or a
call of one of the procedures. -/
def Step.Adds (procs : Nat) : Step → Prop
  | .addAssign _ _ => True
  | .addCall callee => callee < procs
  | .addBranch _ => True
  | .addLoop _ => True
  | _ => False

/-- While there is a line for it, a statement is added at the end and gets the next number. -/
theorem add_eq_of_le {kind : StmtKind (Option StmtId)} (h : d.firstLine + d.stmts.size ≤ maxLine) :
    d.add kind =
      .ok ({ d with stmts := d.stmts.push ⟨d.firstLine + d.stmts.size, none, kind⟩ },
        d.stmts.size) := by
  simp [add, h]

/-- Without a line for it, no statement is added. -/
theorem add_eq_overflow {kind : StmtKind (Option StmtId)}
    (h : ¬ d.firstLine + d.stmts.size ≤ maxLine) :
    d.add kind = .error .lineOverflow := by
  simp [add, h]

/-- A call of a procedure of the draft is added like any other statement. -/
theorem addCall_eq_of_lt {callee : ProcId} (h : callee < d.procs.size) :
    d.addCall callee = d.add (.call callee) :=
  if_pos h

/-- A call of a procedure that the draft does not have is refused. -/
theorem addCall_eq_unknownProc {callee : ProcId} (h : ¬ callee < d.procs.size) :
    d.addCall callee = .error (.unknownProc callee) :=
  if_neg h

/-- A step that adds a statement only has to find a line for it. -/
theorem apply_of_adds (h : step.Adds d.procs.size) : ∃ kind, d.apply step = added (d.add kind) := by
  cases step with
  | addAssign target value => exact ⟨.assign target value, rfl⟩
  | addBranch cond => exact ⟨.branch cond none none, rfl⟩
  | addLoop cond => exact ⟨.loop cond none, rfl⟩
  | addCall callee =>
    refine ⟨.call callee, ?_⟩
    show added (d.addCall callee) = _
    rw [addCall_eq_of_lt h]
  | declare name => exact h.elim
  | setNext prev next => exact h.elim
  | setProcBody first q => exact h.elim
  | setBody part first s => exact h.elim

/-- A missing statement is reported by its number. -/
theorem getStmt_eq_error {s : StmtId} {e : DraftError} (h : d.getStmt s = .error e) :
    e = .unknownStmt s := by
  unfold getStmt at h
  split at h
  · cases h
  · cases h
    rfl

/-- A missing procedure is reported by its number. -/
theorem getProc_eq_error {q : ProcId} {e : DraftError} (h : d.getProc q = .error e) :
    e = .unknownProc q := by
  unfold getProc at h
  split at h
  · cases h
  · cases h
    rfl

/-- Only a step that adds a statement can lack a line. -/
theorem adds_of_apply_eq_lineOverflow (h : d.apply step = .error .lineOverflow) :
    step.Adds d.procs.size := by
  cases step with
  | addAssign target value => trivial
  | addBranch cond => trivial
  | addLoop cond => trivial
  | addCall callee =>
    have h := map_eq_error.mp h
    by_contra hcallee
    rw [addCall_eq_unknownProc hcallee] at h
    cases h
  | declare name => cases h
  | setNext prev next =>
    rcases bind_eq_error.mp (map_eq_error.mp h) with h | ⟨target, -, h⟩
    · cases getStmt_eq_error h
    · rcases bind_eq_error.mp h with h | ⟨stmt, -, h⟩
      · cases getStmt_eq_error h
      · cases h
  | setProcBody first q =>
    rcases bind_eq_error.mp (map_eq_error.mp h) with h | ⟨target, -, h⟩
    · cases getStmt_eq_error h
    · rcases bind_eq_error.mp h with h | ⟨proc, -, h⟩
      · cases getProc_eq_error h
      · split at h <;> cases h
  | setBody part first s =>
    rcases bind_eq_error.mp (map_eq_error.mp h) with h | ⟨target, -, h⟩
    · cases getStmt_eq_error h
    · rcases bind_eq_error.mp h with h | ⟨stmt, -, h⟩
      · cases getStmt_eq_error h
      · split at h <;> cases h

/-- A step that adds a statement fails exactly if there is no line for it. -/
theorem apply_eq_lineOverflow_iff : d.apply step = .error .lineOverflow ↔
    step.Adds d.procs.size ∧ maxLine < d.firstLine + d.stmts.size := by
  constructor
  · intro h
    have hadds := adds_of_apply_eq_lineOverflow h
    obtain ⟨kind, happly⟩ := apply_of_adds hadds
    refine ⟨hadds, ?_⟩
    by_contra hline
    rw [happly, add_eq_of_le (Nat.le_of_not_lt hline)] at h
    cases h
  · rintro ⟨hadds, hline⟩
    obtain ⟨kind, happly⟩ := apply_of_adds hadds
    rw [happly, add_eq_overflow (Nat.not_le_of_lt hline)]
    rfl

/-- A step that succeeds and gives back the number of a statement has added it, on the next line.
Other steps keep the number of statements. -/
theorem size_of_apply (h : d.apply step = .ok (d', reply)) :
    d'.firstLine = d.firstLine ∧
      ((reply = .stmt d.stmts.size ∧ d'.stmts.size = d.stmts.size + 1 ∧
        d.firstLine + d.stmts.size ≤ maxLine) ∨
        (∀ s, reply ≠ .stmt s) ∧ d'.stmts.size = d.stmts.size) := by
  by_cases hadds : step.Adds d.procs.size
  · obtain ⟨kind, happly⟩ := apply_of_adds hadds
    by_cases hline : d.firstLine + d.stmts.size ≤ maxLine
    · rw [happly, add_eq_of_le hline] at h
      cases h
      exact ⟨rfl, Or.inl ⟨rfl, Array.size_push _, hline⟩⟩
    · rw [happly, add_eq_overflow hline] at h
      cases h
  cases step with
  | addAssign target value => exact absurd trivial hadds
  | addBranch cond => exact absurd trivial hadds
  | addLoop cond => exact absurd trivial hadds
  | addCall callee =>
    have h : added (d.addCall callee) = .ok (d', reply) := h
    rw [addCall_eq_unknownProc hadds] at h
    cases h
  | declare name =>
    cases h
    unfold Draft.declare
    cases d.procNamed? name <;> simp
  | setNext prev next =>
    obtain ⟨d'', hset, heq⟩ := map_eq_ok.mp h
    cases heq
    obtain ⟨-, stmt, -, rfl⟩ := setNext_eq_ok hset
    simp
  | setProcBody first q =>
    obtain ⟨d'', hset, heq⟩ := map_eq_ok.mp h
    cases heq
    obtain ⟨-, proc, -, -, rfl⟩ := setProcBody_eq_ok hset
    simp
  | setBody part first s =>
    obtain ⟨d'', hset, heq⟩ := map_eq_ok.mp h
    cases heq
    obtain ⟨-, stmt, kind, -, -, rfl⟩ := setBody_eq_ok hset
    simp

/-- A step keeps the first line, and the lines of the statements within the last one. -/
theorem lines_perform (h : d.firstLine + d.stmts.size ≤ maxLine + 1) (step : Step) :
    (d.perform step).firstLine = d.firstLine ∧
    d.firstLine + (d.perform step).stmts.size ≤ maxLine + 1 := by
  unfold perform
  cases happly : d.apply step with
  | error e => exact ⟨rfl, h⟩
  | ok result =>
    obtain ⟨d', reply⟩ := result
    obtain ⟨hfirst, ⟨-, hsize, hle⟩ | ⟨-, hsize⟩⟩ := size_of_apply happly
    · refine ⟨hfirst, ?_⟩
      simp only [hsize]
      omega
    · refine ⟨hfirst, ?_⟩
      simp only [hsize]
      exact h

/-- All statements of a draft that steps lead to have a line. -/
theorem lines_after (settings : Settings) (steps : List Step) :
    (after settings steps).firstLine = settings.firstLine ∧
      settings.firstLine + (after settings steps).stmts.size ≤ maxLine + 1 := by
  have hrun : ∀ d : Draft, d.firstLine = settings.firstLine →
      settings.firstLine + d.stmts.size ≤ maxLine + 1 →
      (steps.foldl perform d).firstLine = settings.firstLine ∧
        settings.firstLine + (steps.foldl perform d).stmts.size ≤ maxLine + 1 := by
    induction steps with
    | nil => exact fun d hfirst hle => ⟨hfirst, hle⟩
    | cons step steps ih =>
      intro d hfirst hle
      rw [← hfirst] at hle
      obtain ⟨hfirst', hle'⟩ := lines_perform hle step
      exact ih (d.perform step) (hfirst'.trans hfirst) (hfirst ▸ hle')
  exact hrun (start settings) rfl (Nat.le_succ_of_le settings.firstLine_le)

end Draft

namespace Builder

variable {α β ρ : Type} {b : Builder} {d : Draft} {s : StmtId} {q : ProcId}

/-! ## Builders and drafts -/

/-- The builder has the procedures and the statements of the draft, finds the procedures by their
names, and counts the lines that are left. -/
structure Keeps (b : Builder) (d : Draft) : Prop where
  procs_eq : b.procs = d.procs
  stmts_eq : b.stmts = d.stmts
  procNamed?_iff : ∀ name q, b.procNamed? name = some q ↔
    ∃ proc, d.procs[q]? = some proc ∧ proc.name = name
  nextLine_iff : ∀ line, b.nextLine.map UInt32.toNat = some line ↔
    d.firstLine + d.stmts.size = line ∧ line ≤ maxLine

/-- The line after a line is the next number, as long as that is the number of a line. -/
theorem map_lineAfter? {line : UInt32} {n : Nat} :
    (lineAfter? line).map UInt32.toNat = some n ↔ line.toNat + 1 = n ∧ n ≤ maxLine := by
  unfold lineAfter?
  by_cases h : line.toNat < maxLine
  · have hlt : line.toNat + 1 < UInt32.size := Nat.lt_of_le_of_lt (Nat.succ_le_of_lt h) (by decide)
    have hadd : (line + 1).toNat = line.toNat + 1 := by
      rw [UInt32.toNat_add]
      exact Nat.mod_eq_of_lt hlt
    rw [if_pos h, Option.map_some, hadd, Option.some.injEq]
    constructor
    · rintro rfl
      exact ⟨rfl, Nat.succ_le_of_lt h⟩
    · exact And.left
  · rw [if_neg h, Option.map_none]
    constructor
    · intro hnone
      cases hnone
    · rintro ⟨rfl, hle⟩
      exact absurd hle h

/-- A new builder keeps a new draft. -/
theorem keeps_start (settings : Settings) : (start settings).Keeps (Draft.start settings) where
  procs_eq := rfl
  stmts_eq := rfl
  procNamed?_iff name q := by simp [start, Draft.start, procNamed?]
  nextLine_iff line := by
    have hlt : settings.firstLine < UInt32.size :=
      Nat.lt_of_le_of_lt settings.firstLine_le (by decide)
    have hline : (UInt32.ofNat settings.firstLine).toNat = settings.firstLine :=
      UInt32.toNat_ofNat_of_lt hlt
    show some (UInt32.ofNat settings.firstLine).toNat = some line ↔
      settings.firstLine + 0 = line ∧ line ≤ maxLine
    rw [hline, Option.some.injEq]
    constructor
    · rintro rfl
      exact ⟨rfl, settings.firstLine_le⟩
    · exact And.left

/-- A builder finds the same procedures by name as the draft that it keeps. -/
theorem Keeps.procNamed?_eq (h : b.Keeps d) (hsound : d.Sound) (name : String) :
    b.procNamed? name = d.procNamed? name := by
  apply Option.ext
  intro q
  rw [h.procNamed?_iff name q, hsound.procNamed?_eq_some_iff]

/-- The call does to the builder what leads to the draft of the result, and gives back the same.
Where there is no result, the call fails and leaves the builder as it was. -/
inductive Mirrors (call : Call α) (b : Builder) : Except DraftError (Draft × α) → Prop where
  | done {d : Draft} {a : α} (b' : Builder) (hrun : call.run b = .ok a b') (hkeeps : b'.Keeps d) :
      Mirrors call b (.ok (d, a))
  | refused {e : DraftError} (hrun : call.run b = .error e b) : Mirrors call b (.error e)

/-- The call looks something up and leaves the builder as it is. -/
inductive Reads (look : Call α) (b : Builder) : Except DraftError α → Prop where
  | found {a : α} (hrun : look.run b = .ok a b) : Reads look b (.ok a)
  | missing {e : DraftError} (hrun : look.run b = .error e b) : Reads look b (.error e)

namespace Mirrors

/-- Only what a call does matters, not how it is written. -/
theorem of_run {call call' : Call α} {result : Except DraftError (Draft × α)}
    (h : Mirrors call' b result) (hrun : call.run b = call'.run b) : Mirrors call b result := by
  cases h with
  | done b' hrun' hkeeps => exact .done b' (hrun.trans hrun') hkeeps
  | refused hrun' => exact .refused (hrun.trans hrun')

/-- A call whose result is changed afterwards mirrors the changed result. -/
theorem map {call : Call α} {result : Except DraftError (Draft × α)} (h : Mirrors call b result)
    (f : α → β) :
    Mirrors (do return f (← call)) b (result.map fun pair => (pair.1, f pair.2)) := by
  cases h with
  | done b' hrun hkeeps => exact .done b' (by rw [EStateM.run_bind, hrun]; rfl) hkeeps
  | refused hrun => exact .refused (by rw [EStateM.run_bind, hrun])

/-- A call that gives nothing back mirrors a step that sets a link. -/
theorem linked {call : Call Unit} {result : Except DraftError Draft}
    (h : Mirrors call b (result.map fun d => (d, ()))) :
    Mirrors (do call; return .done) b (Draft.linked result) := by
  cases result with
  | error e => exact h.map fun _ => Reply.done
  | ok d => exact h.map fun _ => Reply.done

/-- Looking something up first changes nothing. -/
theorem of_reads {look : Call β} {found : Except DraftError β} (hlook : Reads look b found)
    {f : ρ → Draft × α} {rest : β → Call α} {rest' : β → Except DraftError ρ}
    (hrest : ∀ a, found = .ok a → Mirrors (rest a) b ((rest' a).map f)) :
    Mirrors (look >>= rest) b ((found >>= rest').map f) := by
  cases hlook with
  | missing hrun => exact .refused (by rw [EStateM.run_bind, hrun])
  | @found a hrun =>
    show Mirrors (look >>= rest) b ((rest' a).map f)
    exact (hrest a rfl).of_run (by rw [EStateM.run_bind, hrun])

end Mirrors

namespace Keeps

/-- A statement is looked up in the builder as in the draft. -/
theorem reads_stmtOf (h : b.Keeps d) (s : StmtId) : Reads (stmtOf s) b (d.getStmt s) := by
  unfold Draft.getStmt
  cases hs : d.stmts[s]? with
  | none =>
    have hrun : (stmtOf s).run b = .error (.unknownStmt s) b := by
      simp only [stmtOf, EStateM.run_bind, EStateM.run_get, h.stmts_eq, hs]
      rfl
    exact .missing hrun
  | some stmt =>
    have hrun : (stmtOf s).run b = .ok stmt b := by
      simp only [stmtOf, EStateM.run_bind, EStateM.run_get, h.stmts_eq, hs]
      rfl
    exact .found hrun

/-- A procedure is looked up in the builder as in the draft. -/
theorem reads_procOf (h : b.Keeps d) (q : ProcId) : Reads (procOf q) b (d.getProc q) := by
  unfold Draft.getProc
  cases hq : d.procs[q]? with
  | none =>
    have hrun : (procOf q).run b = .error (.unknownProc q) b := by
      simp only [procOf, EStateM.run_bind, EStateM.run_get, h.procs_eq, hq]
      rfl
    exact .missing hrun
  | some proc =>
    have hrun : (procOf q).run b = .ok proc b := by
      simp only [procOf, EStateM.run_bind, EStateM.run_get, h.procs_eq, hq]
      rfl
    exact .found hrun

/-! ## What each call does -/

/-- Declaring a procedure does the same to the builder and to the draft. -/
theorem mirrors_declare (h : b.Keeps d) (hsound : d.Sound) (name : String) :
    Mirrors (declare name) b (.ok (d.declare name)) := by
  have hname := h.procNamed?_eq hsound name
  unfold Draft.declare
  cases hd : d.procNamed? name with
  | some q =>
    have hrun : (declare name).run b = .ok q b := by
      simp only [declare, EStateM.run_bind, EStateM.run_get, hname, hd]
      rfl
    exact .done b hrun h
  | none =>
    have hrun : (declare name).run b = .ok d.procs.size
        { b with
          procs := b.procs.push ⟨name, none⟩
          index := b.index.insert name b.procs.size } := by
      simp only [declare, EStateM.run_bind, EStateM.run_get, hname, hd, ← h.procs_eq]
      rfl
    refine .done _ hrun ⟨?_, h.stmts_eq, ?_, h.nextLine_iff⟩
    · rw [h.procs_eq]
    · intro other q
      rw [procNamed?, SortedMap.find?_insert]
      by_cases heq : other = name
      · -- the new name was not there before
        subst heq
        rw [if_pos rfl]
        constructor
        · intro hq
          cases hq
          exact ⟨⟨other, none⟩, by rw [h.procs_eq, Array.getElem?_push_size], rfl⟩
        · rintro ⟨proc, hq, hproc⟩
          rcases Draft.getElem?_pushProc hq with ⟨rfl, -⟩ | hq
          · rw [h.procs_eq]
          · exact absurd hproc (Draft.name_ne_of_procNamed?_eq_none hd hq)
      · rw [if_neg heq]
        refine (h.procNamed?_iff other q).trans ?_
        constructor
        · rintro ⟨proc, hq, hproc⟩
          have hlt := (Array.getElem?_eq_some_iff.mp hq).1
          refine ⟨proc, ?_, hproc⟩
          rw [Array.getElem?_push, if_neg (Nat.ne_of_lt hlt)]
          exact hq
        · rintro ⟨proc, hq, hproc⟩
          rcases Draft.getElem?_pushProc hq with ⟨-, rfl⟩ | hq
          · exact absurd hproc.symm heq
          · exact ⟨proc, hq, hproc⟩

/-- Adding a statement does the same to the builder and to the draft. -/
theorem mirrors_add (h : b.Keeps d) (kind : StmtKind (Option StmtId)) :
    Mirrors (add kind) b (d.add kind) := by
  by_cases hline : d.firstLine + d.stmts.size ≤ maxLine
  · obtain ⟨line, hsome, htoNat⟩ := Option.map_eq_some_iff.mp ((h.nextLine_iff _).mpr ⟨rfl, hline⟩)
    have hrun : (add kind).run b = .ok d.stmts.size
        { b with stmts := b.stmts.push ⟨line.toNat, none, kind⟩, nextLine := lineAfter? line } := by
      simp only [add, EStateM.run_bind, EStateM.run_get, hsome, ← h.stmts_eq]
      rfl
    rw [Draft.add_eq_of_le hline]
    refine .done _ hrun ⟨h.procs_eq, ?_, h.procNamed?_iff, ?_⟩
    · rw [h.stmts_eq, htoNat]
    · intro n
      rw [map_lineAfter?, htoNat, Array.size_push]
      rfl
  · have hnone : b.nextLine = none := by
      cases hnext : b.nextLine with
      | none => rfl
      | some line =>
        obtain ⟨heq, hle⟩ := (h.nextLine_iff line.toNat).mp (by rw [hnext]; rfl)
        exact absurd (heq ▸ hle) hline
    have hrun : (add kind).run b = .error .lineOverflow b := by
      simp only [add, EStateM.run_bind, EStateM.run_get, hnone]
      rfl
    rw [Draft.add_eq_overflow hline]
    exact .refused hrun

/-- Adding a call does the same to the builder and to the draft. -/
theorem mirrors_addCall (h : b.Keeps d) (callee : ProcId) :
    Mirrors (addCall callee) b (d.addCall callee) := by
  have hrun : (addCall callee).run b =
      EStateM.run
        (if callee < d.procs.size then add (.call callee) else throw (.unknownProc callee)) b := by
    rw [← h.procs_eq]
    rfl
  unfold Draft.addCall
  by_cases hcallee : callee < d.procs.size
  · rw [if_pos hcallee] at hrun ⊢
    exact (h.mirrors_add (.call callee)).of_run hrun
  · rw [if_neg hcallee] at hrun ⊢
    exact .refused hrun

/-- Putting a statement or a procedure that keeps its name in its place changes nothing else. -/
theorem mirrors_putStmt (h : b.Keeps d) (s : StmtId) (stmt : DraftStmt) :
    Mirrors (putStmt s stmt) b (.ok ({ d with stmts := d.stmts.setIfInBounds s stmt }, ())) := by
  refine .done { b with stmts := b.stmts.setIfInBounds s stmt } rfl
    ⟨h.procs_eq, ?_, h.procNamed?_iff, ?_⟩
  · rw [h.stmts_eq]
  · intro line
    rw [Array.size_setIfInBounds]
    exact h.nextLine_iff line

/-- Putting a procedure of the same name in the place of another keeps the names that the builder
finds. -/
theorem mirrors_putProc (h : b.Keeps d) {q : ProcId} {proc proc' : DraftProc}
    (hq : d.procs[q]? = some proc) (hname : proc'.name = proc.name) :
    Mirrors (putProc q proc') b (.ok ({ d with procs := d.procs.setIfInBounds q proc' }, ())) := by
  refine .done { b with procs := b.procs.setIfInBounds q proc' } rfl
    ⟨?_, h.stmts_eq, ?_, h.nextLine_iff⟩
  · rw [h.procs_eq]
  · intro name other
    have hnames : (d.procs.setIfInBounds q proc')[other]?.map DraftProc.name =
        d.procs[other]?.map DraftProc.name := by
      rw [Array.getElem?_setIfInBounds]
      split
      · rename_i heq
        subst heq
        rw [if_pos (Array.getElem?_eq_some_iff.mp hq).1, hq, Option.map_some, Option.map_some,
          hname]
      · rfl
    rw [← Option.map_eq_some_iff, hnames, Option.map_eq_some_iff]
    exact h.procNamed?_iff name other

/-- Setting what comes next does the same to the builder and to the draft. -/
theorem mirrors_setNext (h : b.Keeps d) (prev next : StmtId) :
    Mirrors (setNext prev next) b ((d.setNext prev next).map fun d => (d, ())) := by
  refine .of_reads (h.reads_stmtOf next) fun target _ => ?_
  refine .of_reads (h.reads_stmtOf prev) fun stmt _ => ?_
  exact h.mirrors_putStmt prev { stmt with next := some next }

/-- Setting the body of a procedure does the same to the builder and to the draft. -/
theorem mirrors_setProcBody (h : b.Keeps d) (first : StmtId) (q : ProcId) :
    Mirrors (setProcBody first q) b ((d.setProcBody first q).map fun d => (d, ())) := by
  refine .of_reads (h.reads_stmtOf first) fun target _ => ?_
  refine .of_reads (h.reads_procOf q) fun proc hq => ?_
  cases hfirst : proc.first with
  | some body => exact .refused rfl
  | none => exact h.mirrors_putProc (Draft.getProc_eq_ok.mp hq) rfl

/-- Setting the body of a container does the same to the builder and to the draft. -/
theorem mirrors_setBody (h : b.Keeps d) (part : BodyPart) (first s : StmtId) :
    Mirrors (setBody part first s) b ((d.setBody part first s).map fun d => (d, ())) := by
  refine .of_reads (h.reads_stmtOf first) fun target _ => ?_
  refine .of_reads (h.reads_stmtOf s) fun stmt _ => ?_
  cases hkind : Draft.withBody first part stmt.kind with
  | some kind => exact h.mirrors_putStmt s { stmt with kind := kind }
  | none => exact .refused rfl

/-- Each call does to the builder what the step does to the draft. -/
theorem mirrors (h : b.Keeps d) (hsound : d.Sound) (step : Step) :
    Mirrors (call step) b (d.apply step) := by
  cases step with
  | declare name => exact (h.mirrors_declare hsound name).map Reply.proc
  | addAssign target value => exact (h.mirrors_add (.assign target value)).map Reply.stmt
  | addCall callee => exact (h.mirrors_addCall callee).map Reply.stmt
  | addBranch cond => exact (h.mirrors_add (.branch cond none none)).map Reply.stmt
  | addLoop cond => exact (h.mirrors_add (.loop cond none)).map Reply.stmt
  | setNext prev next => exact (h.mirrors_setNext prev next).linked
  | setProcBody first q => exact (h.mirrors_setProcBody first q).linked
  | setBody part first s => exact (h.mirrors_setBody part first s).linked

/-- A call is answered as the step is, and the builder then keeps the draft after the step. A
refused call leaves the builder as it was. -/
theorem answer (h : b.Keeps d) (hsound : d.Sound) (step : Step) :
    (b.answer step).1 = (d.apply step).map Prod.snd ∧ (b.answer step).2.Keeps (d.perform step) ∧
      ∀ e, (b.answer step).1 = .error e → (b.answer step).2 = b := by
  have hmirrors := h.mirrors hsound step
  unfold Builder.answer Draft.perform
  generalize d.apply step = result at hmirrors
  cases hmirrors with
  | done b' hrun hkeeps =>
    rw [hrun]
    refine ⟨rfl, hkeeps, ?_⟩
    intro e he
    cases he
  | refused hrun =>
    rw [hrun]
    exact ⟨rfl, h, fun e _ => rfl⟩

end Keeps

/-! ## Runs of calls -/

/-- The builder after calls, each made of what the call before left behind, also where that
failed. -/
def runFrom (b : Builder) (steps : List Step) : Builder :=
  steps.foldl (fun b step => (b.answer step).2) b

/-- What the calls give back. -/
def repliesFrom (b : Builder) : List Step → List (Except DraftError Reply)
  | [] => []
  | step :: steps => (b.answer step).1 :: repliesFrom (b.answer step).2 steps

/-- The statement that was added, if the call has added one. -/
def added? : Except DraftError Reply → Option StmtId
  | .ok (.stmt s) => some s
  | _ => none

/-- After any calls the builder keeps the draft after the same steps. -/
theorem Keeps.runFrom (h : b.Keeps d) (hsound : d.Sound) (steps : List Step) :
    (b.runFrom steps).Keeps (steps.foldl Draft.perform d) := by
  induction steps generalizing b d with
  | nil => exact h
  | cons step steps ih => exact ih (h.answer hsound step).2.1 (hsound.perform step)

/-- The statements that calls add have the numbers that follow those of the statements before. -/
theorem Keeps.range_repliesFrom (h : b.Keeps d) (hsound : d.Sound) (steps : List Step) :
    List.range d.stmts.size ++ (b.repliesFrom steps).filterMap added? =
      List.range (steps.foldl Draft.perform d).stmts.size := by
  induction steps generalizing b d with
  | nil => exact List.append_nil _
  | cons step steps ih =>
    obtain ⟨hreply, hkeeps, -⟩ := h.answer hsound step
    have hrest := ih hkeeps (hsound.perform step)
    rw [repliesFrom, List.foldl_cons, ← hrest, List.filterMap_cons, hreply]
    unfold Draft.perform
    cases happly : d.apply step with
    | error e => rfl
    | ok result =>
      obtain ⟨d', reply⟩ := result
      rcases (Draft.size_of_apply happly).2 with ⟨rfl, hsize, -⟩ | ⟨hreply, hsize⟩
      · simp only [Except.map, added?, hsize, List.range_succ, List.append_assoc,
          List.singleton_append]
      · cases reply with
        | stmt s => exact absurd rfl (hreply s)
        | proc q => simp only [Except.map, added?, hsize]
        | done => simp only [Except.map, added?, hsize]

/-! ## What is found after a call -/

/-- The array `after` has `a` in the place `i`, and in all other places what `before` has there. -/
def Replaced {α : Type} (before after : Array α) (i : Nat) (a : α) : Prop :=
  after[i]? = some a ∧ ∀ j, j ≠ i → after[j]? = before[j]?

/-- The builder `b'` has one statement more than `b`, unlinked and on the next line, and its number
is given back. -/
def FoundAdded (settings : Settings) (b b' : Builder) (reply : Reply)
    (kind : StmtKind (Option StmtId)) : Prop :=
  reply = .stmt b.stmts.size ∧ b'.procs = b.procs ∧
    b'.stmts = b.stmts.push ⟨settings.firstLine + b.stmts.size, none, kind⟩

/-- What is found in the builder `b'` that a successful call on `b` leaves behind, and what the call
gives back. A name that is declared leads to the number given back, whether the procedure is an old
one or a new one without a body. Setting a link changes one statement or procedure, and nothing
else. -/
def Found (settings : Settings) (b b' : Builder) (reply : Reply) : Step → Prop
  | .declare name => ∃ q, reply = .proc q ∧ b'.procNamed? name = some q ∧ b'.stmts = b.stmts ∧
      (b.procNamed? name = some q ∧ b'.procs = b.procs ∨
        b.procNamed? name = none ∧ b'.procs = b.procs.push ⟨name, none⟩)
  | .addAssign target value => FoundAdded settings b b' reply (.assign target value)
  | .addCall callee => callee < b.procs.size ∧ FoundAdded settings b b' reply (.call callee)
  | .addBranch cond => FoundAdded settings b b' reply (.branch cond none none)
  | .addLoop cond => FoundAdded settings b b' reply (.loop cond none)
  | .setNext prev next => reply = .done ∧ next < b.stmts.size ∧ b'.procs = b.procs ∧
      ∃ stmt, b.stmts[prev]? = some stmt ∧
        Replaced b.stmts b'.stmts prev { stmt with next := some next }
  | .setProcBody first q => reply = .done ∧ first < b.stmts.size ∧ b'.stmts = b.stmts ∧
      ∃ proc, b.procs[q]? = some proc ∧ proc.first = none ∧
        Replaced b.procs b'.procs q { proc with first := some first }
  | .setBody part first s => reply = .done ∧ first < b.stmts.size ∧ b'.procs = b.procs ∧
      ∃ stmt kind, b.stmts[s]? = some stmt ∧ Draft.withBody first part stmt.kind = some kind ∧
        Replaced b.stmts b'.stmts s { stmt with kind := kind }

/-- Putting something in the place of what is there changes this place only. -/
theorem replaced_setIfInBounds {α : Type} {before : Array α} {i : Nat} {old : α}
    (hi : before[i]? = some old) (a : α) : Replaced before (before.setIfInBounds i a) i a := by
  refine ⟨?_, fun j hj => ?_⟩
  · rw [Array.getElem?_setIfInBounds, if_pos rfl, if_pos (Array.getElem?_eq_some_iff.mp hi).1]
  · rw [Array.getElem?_setIfInBounds, if_neg hj.symm]

/-- A draft with one more statement is kept by a builder with one more statement. -/
theorem Keeps.foundAdded {settings : Settings} {b' : Builder} {d' : Draft} {reply : Reply}
    {kind : StmtKind (Option StmtId)} (h : b.Keeps d) (hfirst : d.firstLine = settings.firstLine)
    (hadd : Draft.added (d.add kind) = .ok (d', reply)) (hkeeps : b'.Keeps d') :
    FoundAdded settings b b' reply kind := by
  obtain ⟨⟨d'', s⟩, hmore, heq⟩ := map_eq_ok.mp hadd
  cases heq
  obtain ⟨rfl, rfl⟩ := Draft.add_eq_ok hmore
  rw [FoundAdded, hkeeps.procs_eq, hkeeps.stmts_eq, h.procs_eq, h.stmts_eq, hfirst]
  exact ⟨rfl, rfl, rfl⟩

/-- After declaring, the name leads to the number given back. -/
theorem Keeps.found_declare {settings : Settings} {b' : Builder} (h : b.Keeps d) (hsound : d.Sound)
    (name : String) (hkeeps : b'.Keeps (d.declare name).1) :
    Found settings b b' (.proc (d.declare name).2) (.declare name) := by
  have hname := h.procNamed?_eq hsound name
  refine ⟨(d.declare name).2, rfl, ?_⟩
  rw [hname, h.procs_eq, h.stmts_eq, hkeeps.procs_eq, hkeeps.stmts_eq, hkeeps.procNamed?_iff]
  unfold Draft.declare
  cases hd : d.procNamed? name with
  | some q => exact ⟨hsound.procNamed?_eq_some_iff.mp hd, rfl, .inl ⟨rfl, rfl⟩⟩
  | none => exact ⟨⟨⟨name, none⟩, Array.getElem?_push_size, rfl⟩, rfl, .inr ⟨rfl, rfl⟩⟩

/-- **What a call gives back is what is found** in the builder that it leaves behind. -/
theorem Keeps.found {settings : Settings} {step : Step} {reply : Reply} (h : b.Keeps d)
    (hsound : d.Sound) (hfirst : d.firstLine = settings.firstLine)
    (hreply : (b.answer step).1 = .ok reply) :
    Found settings b (b.answer step).2 reply step := by
  obtain ⟨hanswer, hkeeps, -⟩ := h.answer hsound step
  rw [hreply] at hanswer
  obtain ⟨⟨d', reply⟩, happly, heq⟩ := map_eq_ok.mp hanswer.symm
  cases heq
  rw [Draft.perform, happly] at hkeeps
  generalize (b.answer step).2 = b' at hkeeps
  cases step with
  | declare name =>
    cases happly
    exact h.found_declare hsound name hkeeps
  | addAssign target value => exact h.foundAdded hfirst happly hkeeps
  | addBranch cond => exact h.foundAdded hfirst happly hkeeps
  | addLoop cond => exact h.foundAdded hfirst happly hkeeps
  | addCall callee =>
    by_cases hcallee : callee < d.procs.size
    · rw [Draft.apply, Draft.addCall_eq_of_lt hcallee] at happly
      exact ⟨h.procs_eq.symm ▸ hcallee, h.foundAdded hfirst happly hkeeps⟩
    · rw [Draft.apply, Draft.addCall_eq_unknownProc hcallee] at happly
      cases happly
  | setNext prev next =>
    obtain ⟨d'', hset, heq⟩ := map_eq_ok.mp happly
    cases heq
    obtain ⟨hnext, stmt, hstmt, rfl⟩ := Draft.setNext_eq_ok hset
    rw [Found, hkeeps.procs_eq, hkeeps.stmts_eq, h.procs_eq, h.stmts_eq]
    exact ⟨rfl, hnext, rfl, stmt, hstmt, replaced_setIfInBounds hstmt _⟩
  | setProcBody first q =>
    obtain ⟨d'', hset, heq⟩ := map_eq_ok.mp happly
    cases heq
    obtain ⟨hlt, proc, hproc, hnone, rfl⟩ := Draft.setProcBody_eq_ok hset
    rw [Found, hkeeps.procs_eq, hkeeps.stmts_eq, h.procs_eq, h.stmts_eq]
    exact ⟨rfl, hlt, rfl, proc, hproc, hnone, replaced_setIfInBounds hproc _⟩
  | setBody part first s =>
    obtain ⟨d'', hset, heq⟩ := map_eq_ok.mp happly
    cases heq
    obtain ⟨hlt, stmt, kind, hstmt, hkind, rfl⟩ := Draft.setBody_eq_ok hset
    rw [Found, hkeeps.procs_eq, hkeeps.stmts_eq, h.procs_eq, h.stmts_eq]
    exact ⟨rfl, hlt, rfl, stmt, kind, hstmt, hkind, replaced_setIfInBounds hstmt _⟩

/-! ## Builders in order -/

/-- What holds of a builder between calls. -/
structure Orderly (settings : Settings) (b : Builder) : Prop where
  /-- The statements stand on the lines from the first line on, without a wrap-around, and lead to
  statements and procedures that there are. -/
  stmt_fits : ∀ (s : StmtId) (stmt : DraftStmt), b.stmts[s]? = some stmt →
    settings.firstLine + s ≤ maxLine ∧ stmt.Fits (settings.firstLine + s) b.stmts.size b.procs.size
  /-- The bodies of procedures start at statements that there are. -/
  first_lt : ∀ (q : ProcId) (proc : DraftProc) (first : StmtId), b.procs[q]? = some proc →
    proc.first = some first → first < b.stmts.size
  nodup_names : (b.procs.toList.map DraftProc.name).Nodup
  /-- A name is looked up to the procedure of that name. -/
  procNamed?_iff : ∀ (name : String) (q : ProcId),
    b.procNamed? name = some q ↔ ∃ proc, b.procs[q]? = some proc ∧ proc.name = name
  /-- Finishing looks up no statement that is not there. -/
  finish_ne : ∀ s, b.finish settings ≠ .error (.unknownStmt s)
  /-- Adding a statement fails for lack of a line exactly if all lines are used. -/
  overflow_iff : ∀ step : Step, (b.answer step).1 = .error .lineOverflow ↔
    step.Adds b.procs.size ∧ b.stmts.size = maxLine + 1 - settings.firstLine
  /-- Otherwise the statement is added under the next number. -/
  added : ∀ step : Step, step.Adds b.procs.size → b.stmts.size ≠ maxLine + 1 - settings.firstLine →
    (b.answer step).1 = .ok (.stmt b.stmts.size)
  /-- A call of a procedure that is not declared is refused as such, whether or not there is a
  line. -/
  undeclared : ∀ callee : ProcId, b.procs.size ≤ callee →
    (b.answer (.addCall callee)).1 = .error (.unknownProc callee)
  /-- What a call gives back is what is found in the builder that it leaves behind. -/
  found : ∀ (step : Step) (reply : Reply), (b.answer step).1 = .ok reply →
    Found settings b (b.answer step).2 reply step
  /-- A call that fails leaves the builder as it was. -/
  unchanged : ∀ (step : Step) (e : DraftError), (b.answer step).1 = .error e → (b.answer step).2 = b

/-- The draft that is built is the one that the builder keeps. -/
theorem Keeps.draft_eq {settings : Settings} (h : b.Keeps d)
    (hfirst : d.firstLine = settings.firstLine) :
    b.draft settings = d := by
  unfold draft
  rw [h.procs_eq, h.stmts_eq, ← hfirst]

/-- The procedures of a sound draft have different names. -/
theorem nodup_names_of_sound (hsound : d.Sound) : (d.procs.toList.map DraftProc.name).Nodup := by
  rw [List.Nodup, List.pairwise_iff_getElem]
  intro q q' hq hq' hlt heq
  simp only [List.length_map, Array.length_toList] at hq hq'
  simp only [List.getElem_map, Array.getElem_toList] at heq
  have hget := Array.getElem?_eq_getElem hq
  have hget' := Array.getElem?_eq_getElem hq'
  exact Nat.ne_of_lt hlt (hsound.name_inj q q' _ _ hget hget' heq)

/-- A builder is in order if it keeps a sound draft whose statements all have lines. -/
theorem Keeps.orderly {settings : Settings} (h : b.Keeps d) (hsound : d.Sound)
    (hfirst : d.firstLine = settings.firstLine)
    (hlines : settings.firstLine + d.stmts.size ≤ maxLine + 1) :
    b.Orderly settings where
  stmt_fits s stmt hs := by
    rw [h.stmts_eq] at hs
    have hlt := (Array.getElem?_eq_some_iff.mp hs).1
    have hfits := hsound.stmt_fits s stmt hs
    rw [hfirst] at hfits
    rw [h.stmts_eq, h.procs_eq]
    exact ⟨by omega, hfits⟩
  first_lt := by
    rw [h.procs_eq, h.stmts_eq]
    exact hsound.first_lt
  nodup_names := by
    rw [h.procs_eq]
    exact nodup_names_of_sound hsound
  procNamed?_iff := by
    rw [h.procs_eq]
    exact h.procNamed?_iff
  finish_ne s hfinish := by
    rw [finish, h.draft_eq hfirst] at hfinish
    cases hsound.fault_of_finish hfinish
  overflow_iff step := by
    rw [(h.answer hsound step).1, map_eq_error, Draft.apply_eq_lineOverflow_iff, h.procs_eq,
      h.stmts_eq, hfirst]
    have hle := settings.firstLine_le
    have hfull : maxLine < settings.firstLine + d.stmts.size ↔
        d.stmts.size = maxLine + 1 - settings.firstLine := by
      omega
    rw [hfull]
  added step hadds hfree := by
    rw [h.procs_eq] at hadds
    rw [h.stmts_eq] at hfree
    obtain ⟨kind, happly⟩ := Draft.apply_of_adds hadds
    have hline : d.firstLine + d.stmts.size ≤ maxLine := by omega
    rw [(h.answer hsound step).1, happly, Draft.add_eq_of_le hline, h.stmts_eq]
    rfl
  undeclared callee hcallee := by
    rw [h.procs_eq] at hcallee
    rw [(h.answer hsound _).1, Draft.apply, Draft.addCall_eq_unknownProc (Nat.not_lt_of_le hcallee)]
    rfl
  found step reply hreply := h.found hsound hfirst hreply
  unchanged step := (h.answer hsound step).2.2

/-- **Whatever calls are made**, a builder stays in order, and the statements that the calls add are
numbered one after another in the order of the calls. -/
theorem calls_orderly (settings : Settings) (steps : List Step) :
    ((start settings).runFrom steps).Orderly settings ∧
      ((start settings).repliesFrom steps).filterMap added? =
        List.range ((start settings).runFrom steps).stmts.size := by
  have hstart := keeps_start settings
  have hkeeps := hstart.runFrom (Draft.sound_start settings) steps
  have hsound := Draft.sound_after settings steps
  obtain ⟨hfirst, hlines⟩ := Draft.lines_after settings steps
  have hrange := hstart.range_repliesFrom (Draft.sound_start settings) steps
  refine ⟨hkeeps.orderly hsound hfirst hlines, ?_⟩
  rw [hkeeps.stmts_eq]
  exact hrange

-- the last line can be used, what needs another one is refused, and the builder can still be
-- finished
example :
    let settings : Settings := { firstLine := maxLine }
    let steps : List Step :=
      [.declare "p", .addAssign "x" (.const 1), .addLoop "i", .addCall 0, .setProcBody 0 0]
    (start settings).repliesFrom steps =
        [.ok (.proc 0), .ok (.stmt 0), .error .lineOverflow, .error .lineOverflow, .ok .done] ∧
      ((start settings).runFrom steps).finish settings =
        .ok ⟨#[⟨"p", 0⟩], #[⟨maxLine, none, none, none, 0, .assign "x" (.const 1)⟩]⟩ := by
  decide +kernel

/-- Calls build the draft that the same steps lead to. -/
theorem draft_runFrom (settings : Settings) (steps : List Step) :
    ((start settings).runFrom steps).draft settings = Draft.after settings steps := by
  have hkeeps := (keeps_start settings).runFrom (Draft.sound_start settings) steps
  exact hkeeps.draft_eq (Draft.lines_after settings steps).1

/-- **What a builder ends in**, whatever calls were made. If what was built is linked, then it is
finished to a well-formed program. Otherwise a fault of it is reported. -/
theorem finish_runFrom (settings : Settings) (steps : List Step) :
    let b := (start settings).runFrom steps
    ((b.draft settings).Linked ∧ ∃ p, b.finish settings = .ok p ∧ p.WellFormed) ∨
      (¬ (b.draft settings).Linked ∧
        ∃ e, b.finish settings = .error e ∧ (b.draft settings).Fault e) := by
  intro b
  have hsound := Draft.sound_after settings steps
  rw [finish, draft_runFrom]
  by_cases hlinked : (Draft.after settings steps).Linked
  · obtain ⟨p, hfinish⟩ := hlinked.exists_finish hsound
    exact .inl ⟨hlinked, p, hfinish, hsound.wellFormed hfinish⟩
  · cases hfinish : (Draft.after settings steps).finish with
    | ok p => exact absurd (hsound.linked hfinish) hlinked
    | error e => exact .inr ⟨hlinked, e, rfl, hsound.fault_of_finish hfinish⟩

end Builder

end ProgramQuery
