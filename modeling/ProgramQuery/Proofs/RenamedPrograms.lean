import Mathlib.Data.List.GetD
import Mathlib.Data.Set.Function
import ProgramQuery.Proofs.ComparedPrograms
import ProgramQuery.Proofs.SolverAgreement

/-!
# Programs under other numbers

Two programs may be the same up to the numbers of their statements (`Program.Renaming`), because
these depend on the order in which the statements were made. All that relations say is carried over
by the renumbering: the steps along `next` links, the members of lists, the steps of running and so
the relations themselves (`Renaming.related`). A renumbering has an inverse (`Renaming.symm`),
therefore nothing is lost either (`Renaming.related_iff`).

Programs that unfold to the same listings are the same up to numbers. The statements correspond in
the order in which unfolding meets them (`UnfoldsTo.renaming`). This is so for programs that compare
as the same, so they answer all questions alike (`Analysis.same_answers`).
-/

set_option autoImplicit false

open Relation (ReflTransGen TransGen)

namespace ProgramQuery

/-! ## Other numbers -/

/-- What a statement does, with its bodies under other numbers. -/
def StmtKind.rename (f : StmtId → StmtId) : StmtKind StmtId → StmtKind StmtId
  | .assign target value => .assign target value
  | .call callee => .call callee
  | .branch cond thenFirst elseFirst => .branch cond (f thenFirst) (f elseFirst)
  | .loop cond first => .loop cond (f first)

/-- A condition, with statements under other numbers. -/
def Condition.rename (f : StmtId → StmtId) : Condition → Condition
  | .stmt s => .stmt (f s)
  | .proc q => .proc q
  | .var x => .var x
  | .const value => .const value

/-- A set of conditions, with statements under other numbers. -/
def ConditionSet.rename (f : StmtId → StmtId) (set : ConditionSet) : ConditionSet :=
  .ofList (set.toList.map (Condition.rename f))

/-- A place of a list, with its container under another number. -/
def ListSite.rename (f : StmtId → StmtId) : ListSite → ListSite
  | .ofProc q => .ofProc q
  | .ofBody c slot => .ofBody (f c) slot

section Rename

variable {f g : StmtId → StmtId} {kind : StmtKind StmtId} {c : Condition} {set : ConditionSet}

/-- The bodies are renamed one by one. -/
@[simp] theorem StmtKind.bodies_rename : (kind.rename f).bodies = kind.bodies.map f := by
  cases kind <;> rfl

/-- Renaming does not change the variables that a statement names. -/
@[simp] theorem StmtKind.vars_rename : (kind.rename f).vars = kind.vars := by
  cases kind <;> rfl

/-- Renaming does not change the constants that a statement names. -/
@[simp] theorem StmtKind.consts_rename : (kind.rename f).consts = kind.consts := by
  cases kind <;> rfl

/-- Renaming does not change which entity a statement belongs to. -/
@[simp] theorem Entity.ofKind_rename : Entity.ofKind (kind.rename f) = Entity.ofKind kind := by
  cases kind <;> rfl

/-- Numbers that are given back leave a statement as it is. -/
theorem StmtKind.rename_rename (h : ∀ first ∈ kind.bodies, g (f first) = first) :
    (kind.rename f).rename g = kind := by
  cases kind with
  | assign target value => rfl
  | call callee => rfl
  | branch cond thenFirst elseFirst =>
    have hthen : g (f thenFirst) = thenFirst := h thenFirst (by simp [bodies])
    have helse : g (f elseFirst) = elseFirst := h elseFirst (by simp [bodies])
    simp only [rename, hthen, helse]
  | loop cond first =>
    have hfirst : g (f first) = first := h first (by simp [bodies])
    simp only [rename, hfirst]

/-- A renamed set has the renamed conditions of the set. -/
@[simp] theorem ConditionSet.mem_rename : c ∈ set.rename f ↔ ∃ b ∈ set, b.rename f = c := by
  simp [ConditionSet.rename]

end Rename

/-! ## Members of entities -/

/-- The set of some different statements has as many elements. -/
theorem ConditionSet.size_ofStmts {l : List StmtId} (hl : l.Nodup) :
    (ofStmts l).size = l.length := by
  have hperm : (ofStmts l).toList.Perm (l.map .stmt) := by
    refine (List.perm_ext_iff_of_nodup (SortedSet.nodup_toList _) ?_).mpr fun c => ?_
    · exact hl.map fun a b => Condition.stmt.inj
    · rw [SortedSet.mem_toList, mem_ofStmts, List.mem_map]
  rw [SortedSet.size, hperm.length_eq, List.length_map]

namespace Entity

variable {p : Program} {e : Entity} {s : StmtId} {c : Condition}

/-- The statements of an entity are all those of its kind. -/
theorem mem_stmtsOf (hp : p.WellFormed) :
    s ∈ e.stmtsOf p ↔ ∃ stmt, p.stmts[s]? = some stmt ∧ ofKind stmt.kind = e := by
  unfold stmtsOf
  rw [List.mem_filter, Option.any_eq_true, hp.mem_stmtIds]
  simp only [decide_eq_true_eq]
  constructor
  · rintro ⟨-, h⟩
    exact h
  · rintro ⟨stmt, hs, hkind⟩
    exact ⟨Program.lt_size_of_getElem? hs, stmt, hs, hkind⟩

/-- The members of entities are conditions of the program. -/
theorem in_of_mem (h : c ∈ e.members p) : c.In p := by
  cases e with
  | stmt =>
    obtain ⟨s, hs, rfl⟩ := ConditionSet.mem_ofStmts.mp h
    exact Program.lt_size_of_mem_stmtIds hs
  | assign | call | whileLoop | ifBranch =>
    obtain ⟨s, hs, rfl⟩ := ConditionSet.mem_ofStmts.mp h
    exact Program.lt_size_of_mem_stmtIds (List.mem_of_mem_filter hs)
  | var =>
    obtain ⟨x, -, rfl⟩ := ConditionSet.mem_ofVars.mp h
    trivial
  | proc =>
    obtain ⟨k, hk, rfl⟩ := List.mem_map.mp (SortedSet.mem_ofList.mp h)
    exact Program.mem_procIds.mp hk
  | const =>
    obtain ⟨value, -, rfl⟩ := List.mem_map.mp (SortedSet.mem_ofList.mp h)
    trivial

end Entity

namespace Program

/-- The program `q` is `p` with its statements under other numbers: `f` gives the number of a
statement of `p` in `q`, and `g` gives it back. -/
structure Renaming (p q : Program) (f g : StmtId → StmtId) : Prop where
  to_lt : ∀ s, s < p.stmts.size → f s < q.stmts.size
  from_lt : ∀ t, t < q.stmts.size → g t < p.stmts.size
  from_to : ∀ s, s < p.stmts.size → g (f s) = s
  to_from : ∀ t, t < q.stmts.size → f (g t) = t
  size_procs : p.procs.size = q.procs.size
  proc : ∀ (k : ProcId) (proc : Proc), p.procs[k]? = some proc →
    q.procs[k]? = some ⟨proc.name, f proc.first⟩
  stmt : ∀ (s : StmtId) (stmt : Stmt), p.stmts[s]? = some stmt →
    ∃ other, q.stmts[f s]? = some other ∧ other.kind = stmt.kind.rename f ∧
      other.next = stmt.next.map f

namespace Renaming

variable {p q : Program} {f g : StmtId → StmtId} {s t c : StmtId} {site : ListSite}
  {a b : Condition} {effect : Effect} {x : String} {rel : Relation}

/-- **A renumbering can be taken back.** -/
theorem symm (h : p.Renaming q f g) (hp : p.WellFormed) : q.Renaming p g f := by
  refine ⟨h.from_lt, h.to_lt, h.to_from, h.from_to, h.size_procs.symm, ?_, ?_⟩
  · intro k proc hproc
    have hk : k < p.procs.size := by
      rw [h.size_procs]
      exact (Array.getElem?_eq_some_iff.mp hproc).1
    have hold : p.procs[k]? = some p.procs[k] := Array.getElem?_eq_getElem hk
    have hnew := h.proc k _ hold
    rw [hproc] at hnew
    cases hnew
    rw [h.from_to _ (hp.first_lt k _ hold), hold]
  · intro t other ht
    have htlt := lt_size_of_getElem? ht
    obtain ⟨stmt, hs⟩ := exists_stmt (h.from_lt t htlt)
    obtain ⟨other', ht', hkind, hnext⟩ := h.stmt (g t) stmt hs
    rw [h.to_from t htlt, ht] at ht'
    cases ht'
    refine ⟨stmt, hs, ?_, ?_⟩
    · rw [hkind, StmtKind.rename_rename]
      intro first hfirst
      exact h.from_to first (hp.body_lt _ first stmt hs hfirst)
    · rw [hnext, Option.map_map]
      cases hn : stmt.next with
      | none => rfl
      | some u =>
        rw [Option.map_some, Function.comp_apply, h.from_to u (hp.link_lt .next _ u stmt hs hn)]

/-! ## What a renumbering carries over -/

/-- A renamed statement leads along `next` to the renamed one. -/
theorem linkTo_next (h : p.Renaming q f g) (hst : p.LinkTo .next s t) :
    q.LinkTo .next (f s) (f t) := by
  obtain ⟨stmt, hs, hnext⟩ := hst
  obtain ⟨other, hother, -, hnext'⟩ := h.stmt s stmt hs
  refine ⟨other, hother, ?_⟩
  change stmt.next = some t at hnext
  change other.next = some (f t)
  rw [hnext', hnext, Option.map_some]

/-- A list is renamed statement by statement. -/
theorem path (h : p.Renaming q f g) {start : Option StmtId} {l : List StmtId}
    (hl : p.Path .next start l) : q.Path .next (start.map f) (l.map f) := by
  induction hl with
  | done => exact .done
  | @step s stmt l hs _ ih =>
    obtain ⟨other, hother, -, hnext⟩ := h.stmt s stmt hs
    refine .step hother ?_
    change q.Path .next other.next (l.map f)
    rw [hnext]
    exact ih

/-- A renamed list begins with the renamed statement. -/
theorem firstAt? (h : p.Renaming q f g) (hfirst : p.firstAt? site = some s) :
    q.firstAt? (site.rename f) = some (f s) := by
  cases site with
  | ofProc k =>
    obtain ⟨proc, hproc, rfl⟩ := firstAt?_ofProc.mp hfirst
    exact firstAt?_ofProc.mpr ⟨_, h.proc k proc hproc, rfl⟩
  | ofBody c slot =>
    obtain ⟨stmt, hc, hslot⟩ := firstAt?_ofBody.mp hfirst
    obtain ⟨other, hother, hkind, -⟩ := h.stmt c stmt hc
    refine firstAt?_ofBody.mpr ⟨other, hother, ?_⟩
    rw [hkind, StmtKind.bodies_rename, List.getElem?_map, hslot, Option.map_some]

/-- A renamed statement is on the renamed list. -/
theorem onList (h : p.Renaming q f g) (hs : p.OnList site s) : q.OnList (site.rename f) (f s) := by
  obtain ⟨l, ⟨first, hfirst, hl⟩, hmem⟩ := hs
  exact ⟨l.map f, ⟨f first, h.firstAt? hfirst, h.path hl⟩, List.mem_map_of_mem hmem⟩

/-- A renamed statement is inside the renamed container. -/
theorem inside (h : p.Renaming q f g) (hp : p.WellFormed) (hq : q.WellFormed) (hcs : p.Inside c s) :
    q.Inside (f c) (f s) := by
  obtain ⟨slot, hon⟩ := hp.inside_iff.mp hcs
  exact hq.inside_iff.mpr ⟨slot, h.onList hon⟩

/-- A step of running is renamed to a step of running. -/
theorem leads (h : p.Renaming q f g) (hab : p.Leads a b) : q.Leads (a.rename f) (b.rename f) := by
  cases hab with
  | enter hon => exact .enter (h.onList hon)
  | descend hon => exact .descend (h.onList hon)
  | call hs hkind =>
    obtain ⟨other, hother, hkind', -⟩ := h.stmt _ _ hs
    rw [hkind] at hkind'
    exact .call hother hkind'

/-- A renamed statement has the same effects itself. -/
theorem touches (h : p.Renaming q f g) (ha : p.Touches effect a x) :
    q.Touches effect (a.rename f) x := by
  cases ha with
  | target hs hkind =>
    obtain ⟨other, hother, hkind', -⟩ := h.stmt _ _ hs
    rw [hkind] at hkind'
    exact .target hother hkind'
  | operand hs hkind hx =>
    obtain ⟨other, hother, hkind', -⟩ := h.stmt _ _ hs
    rw [hkind] at hkind'
    exact .operand hother hkind' hx
  | branch hs hkind =>
    obtain ⟨other, hother, hkind', -⟩ := h.stmt _ _ hs
    rw [hkind] at hkind'
    exact .branch hother hkind'
  | loop hs hkind =>
    obtain ⟨other, hother, hkind', -⟩ := h.stmt _ _ hs
    rw [hkind] at hkind'
    exact .loop hother hkind'

/-- A renamed statement or procedure affects the same variables. -/
theorem affects (h : p.Renaming q f g) (ha : p.Affects effect a x) :
    q.Affects effect (a.rename f) x := by
  obtain ⟨b, hab, hb⟩ := ha
  exact ⟨b.rename f, hab.lift (Condition.rename f) fun _ _ => h.leads, h.touches hb⟩

/-- **Relations are carried over** to the other numbers. -/
theorem related (h : p.Renaming q f g) (hp : p.WellFormed) (hq : q.WellFormed)
    (hab : p.Related rel a b) : q.Related rel (a.rename f) (b.rename f) := by
  have honStmts : ∀ {R S : StmtId → StmtId → Prop}, (∀ s t, R s t → S (f s) (f t)) →
      OnStmts R a b → OnStmts S (a.rename f) (b.rename f) := by
    rintro R S hRS ⟨s, t, rfl, rfl, hst⟩
    exact ⟨f s, f t, rfl, rfl, hRS s t hst⟩
  have heffect : ∀ effect, p.HasEffect effect a b →
      q.HasEffect effect (a.rename f) (b.rename f) := by
    rintro effect ⟨x, rfl, hax⟩
    exact ⟨x, rfl, h.affects hax⟩
  cases rel with
  | parent => exact honStmts (fun _ _ => h.inside hp hq) hab
  | parentStar => exact honStmts (fun _ _ hst => hst.lift f fun _ _ => h.inside hp hq) hab
  | follows => exact honStmts (fun _ _ => h.linkTo_next) hab
  | followsStar => exact honStmts (fun _ _ hst => hst.lift f fun _ _ => h.linkTo_next) hab
  | modifies => exact heffect .modifies hab
  | uses => exact heffect .uses hab

/-- A renamed list unfolds to the same listing, with renamed numbers. -/
theorem unfolds (h : p.Renaming q f g) {start : Option StmtId} {listing : Listing}
    {ids : List StmtId} (hlisting : p.Unfolds start listing ids) :
    q.Unfolds (start.map f) listing (ids.map f) := by
  induction hlisting with
  | done => exact .done
  | assign hs hkind _ ih =>
    obtain ⟨other, hother, hkind', hnext⟩ := h.stmt _ _ hs
    rw [hkind] at hkind'
    rw [← hnext] at ih
    exact .assign hother hkind' ih
  | call hs hkind hcallee _ ih =>
    obtain ⟨other, hother, hkind', hnext⟩ := h.stmt _ _ hs
    rw [hkind] at hkind'
    rw [← hnext] at ih
    have hcall := Unfolds.call hother hkind' (h.proc _ _ hcallee) ih
    exact hcall
  | branch hs hkind _ _ _ ihThen ihElse ih =>
    obtain ⟨other, hother, hkind', hnext⟩ := h.stmt _ _ hs
    rw [hkind] at hkind'
    rw [← hnext] at ih
    rw [List.map_cons, List.map_append, List.map_append]
    exact .branch hother hkind' ihThen ihElse ih
  | loop hs hkind _ _ ihBody ih =>
    obtain ⟨other, hother, hkind', hnext⟩ := h.stmt _ _ hs
    rw [hkind] at hkind'
    rw [← hnext] at ih
    rw [List.map_cons, List.map_append]
    exact .loop hother hkind' ihBody ih

/-! ## Nothing is lost -/

/-- A renamed condition belongs to the other program. -/
theorem rename_in (h : p.Renaming q f g) (ha : a.In p) : (a.rename f).In q := by
  cases a with
  | stmt s => exact h.to_lt s ha
  | proc k =>
    change k < q.procs.size
    rw [← h.size_procs]
    exact ha
  | var x => trivial
  | const value => trivial

/-- Renaming a condition of the program back gives the condition. -/
theorem rename_rename (h : p.Renaming q f g) (ha : a.In p) : (a.rename f).rename g = a := by
  cases a with
  | stmt s => exact congrArg Condition.stmt (h.from_to s ha)
  | proc k => rfl
  | var x => rfl
  | const value => rfl

/-- Renamed conditions are related as the conditions are. -/
theorem related_iff (h : p.Renaming q f g) (hp : p.WellFormed) (hq : q.WellFormed) (ha : a.In p)
    (hb : b.In p) : q.Related rel (a.rename f) (b.rename f) ↔ p.Related rel a b := by
  refine ⟨?_, h.related hp hq⟩
  intro hab
  have hback := (h.symm hp).related hq hp hab
  rwa [h.rename_rename ha, h.rename_rename hb] at hback

/-- A renamed statement belongs to the same entities. -/
theorem mem_stmtsOf (h : p.Renaming q f g) (hp : p.WellFormed) (hq : q.WellFormed) {e : Entity}
    (hs : s ∈ e.stmtsOf p) : f s ∈ e.stmtsOf q := by
  obtain ⟨stmt, hstmt, hkind⟩ := (Entity.mem_stmtsOf hp).mp hs
  obtain ⟨other, hother, hkind', -⟩ := h.stmt s stmt hstmt
  refine (Entity.mem_stmtsOf hq).mpr ⟨other, hother, ?_⟩
  rw [hkind', Entity.ofKind_rename, hkind]

/-- A renamed condition is a member of the same entities. -/
theorem mem_members (h : p.Renaming q f g) (hp : p.WellFormed) (hq : q.WellFormed) {e : Entity}
    (ha : a ∈ e.members p) : a.rename f ∈ e.members q := by
  cases e with
  | stmt =>
    obtain ⟨s, hs, rfl⟩ := ConditionSet.mem_ofStmts.mp ha
    exact ConditionSet.mem_ofStmts.mpr
      ⟨f s, hq.mem_stmtIds.mpr (h.to_lt s (hp.mem_stmtIds.mp hs)), rfl⟩
  | assign | call | whileLoop | ifBranch =>
    obtain ⟨s, hs, rfl⟩ := ConditionSet.mem_ofStmts.mp ha
    exact ConditionSet.mem_ofStmts.mpr ⟨f s, h.mem_stmtsOf hp hq hs, rfl⟩
  | var =>
    obtain ⟨x, hx, rfl⟩ := ConditionSet.mem_ofVars.mp ha
    obtain ⟨s, stmt, hs, hx⟩ := hp.mem_vars_iff.mp hx
    obtain ⟨other, hother, hkind, -⟩ := h.stmt s stmt hs
    refine ConditionSet.mem_ofVars.mpr ⟨x, hq.mem_vars_iff.mpr ⟨f s, other, hother, ?_⟩, rfl⟩
    rw [hkind, StmtKind.vars_rename]
    exact hx
  | proc =>
    obtain ⟨k, hk, rfl⟩ := List.mem_map.mp (SortedSet.mem_ofList.mp ha)
    rw [mem_procIds, h.size_procs] at hk
    exact SortedSet.mem_ofList.mpr (List.mem_map.mpr ⟨k, mem_procIds.mpr hk, rfl⟩)
  | const =>
    obtain ⟨value, hvalue, rfl⟩ := List.mem_map.mp (SortedSet.mem_ofList.mp ha)
    obtain ⟨s, stmt, hs, hvalue⟩ := hp.mem_consts_iff.mp hvalue
    obtain ⟨other, hother, hkind, -⟩ := h.stmt s stmt hs
    refine SortedSet.mem_ofList.mpr
      (List.mem_map.mpr ⟨value, hq.mem_consts_iff.mpr ⟨f s, other, hother, ?_⟩, rfl⟩)
    rw [hkind, StmtKind.consts_rename]
    exact hvalue

/-- Sets whose members are carried over both ways are the same under the other numbers. -/
theorem eq_rename (h : p.Renaming q f g) (hp : p.WellFormed) {set set' : ConditionSet}
    (hto : ∀ c ∈ set, c.rename f ∈ set') (hfrom : ∀ c ∈ set', c.In q ∧ c.rename g ∈ set) :
    set' = set.rename f := by
  apply SortedSet.ext_mem
  intro c
  rw [ConditionSet.mem_rename]
  constructor
  · intro hc
    exact ⟨c.rename g, (hfrom c hc).2, (h.symm hp).rename_rename (hfrom c hc).1⟩
  · rintro ⟨b, hb, rfl⟩
    exact hto b hb

/-- **Entities have the same members** under the other numbers. -/
theorem members_eq (h : p.Renaming q f g) (hp : p.WellFormed) (hq : q.WellFormed) (e : Entity) :
    e.members q = (e.members p).rename f := by
  apply h.eq_rename hp
  · intro c hc
    exact h.mem_members hp hq hc
  · intro c hc
    exact ⟨Entity.in_of_mem hc, (h.symm hp).mem_members hq hp hc⟩

end Renaming

/-! ## Programs with the same listings -/

variable {p q : Program} {f : StmtId → StmtId} {start start' : Option StmtId} {listing : Listing}
  {ids ids' : List StmtId}

/-- A list unfolds to as many numbers as its listing has statements. -/
theorem Unfolds.length_eq (h : p.Unfolds start listing ids) : ids.length = listing.size := by
  induction h with
  | done => rfl
  | assign _ _ _ ih => simp only [List.length_cons, Listing.size, ih, Nat.add_comm]
  | call _ _ _ _ ih => simp only [List.length_cons, Listing.size, ih, Nat.add_comm]
  | branch _ _ _ _ _ ihThen ihElse ih =>
    simp only [List.length_cons, List.length_append, Listing.size, ihThen, ihElse, ih]
    omega
  | loop _ _ _ _ ihBody ih =>
    simp only [List.length_cons, List.length_append, Listing.size, ihBody, ih]
    omega

/-- The statement `s` of `p` is the statement `f s` of `q` under another number. -/
def RenamesStmt (p q : Program) (f : StmtId → StmtId) (s : StmtId) : Prop :=
  ∃ stmt other, p.stmts[s]? = some stmt ∧ q.stmts[f s]? = some other ∧
    other.kind = stmt.kind.rename f ∧ other.next = stmt.next.map f

/-- **Lists with the same listing** have the same statements, if `f` takes the order of the one to
the order of the other and names stand for the same procedures. -/
theorem Unfolds.renamesStmt (hp : p.Unfolds start listing ids) (hq : q.Unfolds start' listing ids')
    (hnames : ∀ (k k' : ProcId) (proc proc' : Proc), p.procs[k]? = some proc →
      q.procs[k']? = some proc' → proc.name = proc'.name → k = k')
    (hids : ids' = ids.map f) :
    start' = start.map f ∧ ∀ s ∈ ids, p.RenamesStmt q f s := by
  induction hp generalizing start' ids' with
  | done =>
    cases hq
    exact ⟨rfl, by simp⟩
  | assign hs hkind _ ih =>
    cases hq with
    | assign ht hkind' hrest =>
      obtain ⟨rfl, htail⟩ := List.cons.inj hids
      obtain ⟨hnext, hall⟩ := ih hrest htail
      refine ⟨rfl, List.forall_mem_cons.mpr ⟨⟨_, _, hs, ht, ?_, hnext⟩, hall⟩⟩
      rw [hkind, hkind', StmtKind.rename]
  | call hs hkind hcallee _ ih =>
    generalize hname : Proc.name _ = name at hq
    cases hq with
    | call ht hkind' hcallee' hrest =>
      obtain ⟨rfl, htail⟩ := List.cons.inj hids
      obtain ⟨hnext, hall⟩ := ih hrest htail
      refine ⟨rfl, List.forall_mem_cons.mpr ⟨⟨_, _, hs, ht, ?_, hnext⟩, hall⟩⟩
      rw [hkind, hkind', hnames _ _ _ _ hcallee hcallee' hname, StmtKind.rename]
  | branch hs hkind hthen helse _ ihThen ihElse ih =>
    cases hq with
    | branch ht hkind' hthen' helse' hrest =>
      -- bodies with the same listing have as many numbers, so the numbers are split at one place
      obtain ⟨rfl, htail⟩ := List.cons.inj hids
      rw [List.map_append, List.map_append] at htail
      obtain ⟨hthenIds, htail⟩ := List.append_inj htail
        (by rw [List.length_map, hthen.length_eq, hthen'.length_eq])
      obtain ⟨helseIds, htail⟩ := List.append_inj htail
        (by rw [List.length_map, helse.length_eq, helse'.length_eq])
      obtain ⟨hthenFirst, hallThen⟩ := ihThen hthen' hthenIds
      obtain ⟨helseFirst, hallElse⟩ := ihElse helse' helseIds
      obtain ⟨hnext, hall⟩ := ih hrest htail
      refine ⟨rfl, List.forall_mem_cons.mpr ⟨⟨_, _, hs, ht, ?_, hnext⟩, ?_⟩⟩
      · rw [hkind, hkind', StmtKind.rename, Option.some.inj hthenFirst, Option.some.inj helseFirst]
      · exact List.forall_mem_append.mpr ⟨hallThen, List.forall_mem_append.mpr ⟨hallElse, hall⟩⟩
  | loop hs hkind hbody _ ihBody ih =>
    cases hq with
    | loop ht hkind' hbody' hrest =>
      obtain ⟨rfl, htail⟩ := List.cons.inj hids
      rw [List.map_append] at htail
      obtain ⟨hbodyIds, htail⟩ := List.append_inj htail
        (by rw [List.length_map, hbody.length_eq, hbody'.length_eq])
      obtain ⟨hfirst, hallBody⟩ := ihBody hbody' hbodyIds
      obtain ⟨hnext, hall⟩ := ih hrest htail
      refine ⟨rfl, List.forall_mem_cons.mpr ⟨⟨_, _, hs, ht, ?_, hnext⟩, ?_⟩⟩
      · rw [hkind, hkind', StmtKind.rename, Option.some.inj hfirst]
      · exact List.forall_mem_append.mpr ⟨hallBody, hall⟩

/-- Procedures that unfold to the same listings are the same up to the numbers of their statements,
which are paired in the order of the source. -/
theorem UnfoldsAll.renamesStmt {procs procs' : List Proc} {listings : List ProcListing}
    (hp : p.UnfoldsAll procs listings ids) (hq : q.UnfoldsAll procs' listings ids')
    (hnames : ∀ (k k' : ProcId) (proc proc' : Proc), p.procs[k]? = some proc →
      q.procs[k']? = some proc' → proc.name = proc'.name → k = k')
    (hids : ids' = ids.map f) :
    procs' = procs.map (fun proc => ⟨proc.name, f proc.first⟩) ∧
    ∀ s ∈ ids, p.RenamesStmt q f s := by
  induction hp generalizing procs' ids' with
  | nil =>
    cases hq
    exact ⟨rfl, by simp⟩
  | @cons proc procs body listings bodyIds ids hbody _ ih =>
    generalize hname : proc.name = name at hq
    cases hq with
    | @cons proc' _ _ _ _ _ hbody' hrest =>
      rw [List.map_append] at hids
      obtain ⟨hbodyIds, htail⟩ := List.append_inj hids
        (by rw [List.length_map, hbody.length_eq, hbody'.length_eq])
      obtain ⟨hfirst, hallBody⟩ := hbody.renamesStmt hbody' hnames hbodyIds
      obtain ⟨hprocs, hall⟩ := ih hrest htail
      refine ⟨?_, List.forall_mem_append.mpr ⟨hallBody, hall⟩⟩
      rw [List.map_cons, ← hprocs, hname, ← Option.some.inj hfirst]

/-- Procedures unfold to as many numbers as their listings have statements. -/
theorem UnfoldsAll.length_eq {procs : List Proc} {listings : List ProcListing}
    (h : p.UnfoldsAll procs listings ids) : ids.length = ProcListing.total listings := by
  induction h with
  | nil => rfl
  | cons hbody _ ih => rw [List.length_append, hbody.length_eq, ih, ProcListing.total]

/-- Procedures unfold to listings of their names. -/
theorem UnfoldsAll.names_eq {procs : List Proc} {listings : List ProcListing}
    (h : p.UnfoldsAll procs listings ids) : procs.map (·.name) = listings.map (·.name) := by
  induction h with
  | nil => rfl
  | cons _ _ ih => rw [List.map_cons, List.map_cons, ih]

/-- The number in `ids'` that stands where `s` stands in `ids`. -/
def renumber (ids ids' : List StmtId) (s : StmtId) : StmtId := ids'.getD (ids.idxOf s) 0

/-- Renumbering takes the first list of numbers to the second one. -/
theorem map_renumber (hnodup : ids.Nodup) (hlength : ids.length = ids'.length) :
    ids.map (renumber ids ids') = ids' := by
  apply List.ext_getElem
  · rw [List.length_map, hlength]
  · intro i hi hi'
    rw [List.getElem_map, renumber, hnodup.idxOf_getElem, List.getD_eq_getElem _ _ hi']

/-- A number of the first list is renumbered to one of the second. -/
theorem renumber_mem {s : StmtId} (hnodup : ids.Nodup) (hlength : ids.length = ids'.length)
    (hs : s ∈ ids) : renumber ids ids' s ∈ ids' := by
  have hmem := List.mem_map_of_mem (f := renumber ids ids') hs
  rwa [map_renumber hnodup hlength] at hmem

/-- Renumbering back gives the number. -/
theorem renumber_renumber {s : StmtId} (hnodup : ids.Nodup) (hnodup' : ids'.Nodup)
    (hlength : ids.length = ids'.length) (hs : s ∈ ids) :
    renumber ids' ids (renumber ids ids' s) = s := by
  obtain ⟨i, hi, rfl⟩ := List.getElem_of_mem hs
  have hi' : i < ids'.length := hlength ▸ hi
  rw [renumber, renumber, hnodup.idxOf_getElem, List.getD_eq_getElem _ _ hi', hnodup'.idxOf_getElem,
    List.getD_eq_getElem _ _ hi]

/-- **Programs with the same listings** are the same up to numbers: the statements correspond in the
order in which unfolding meets them. -/
theorem UnfoldsTo.renaming {listings : List ProcListing} (hp : p.Built) (hq : q.Built)
    (hunfolds : p.UnfoldsTo listings ids) (hunfolds' : q.UnfoldsTo listings ids') :
    p.Renaming q (renumber ids ids') (renumber ids' ids) := by
  obtain ⟨hnodup, hmem⟩ := hp.unfoldsTo_order hunfolds
  obtain ⟨hnodup', hmem'⟩ := hq.unfoldsTo_order hunfolds'
  have hlength : ids.length = ids'.length := by
    rw [UnfoldsAll.length_eq hunfolds, UnfoldsAll.length_eq hunfolds']
  have hsame : p.procs.toList.map (·.name) = q.procs.toList.map (·.name) := by
    rw [UnfoldsAll.names_eq hunfolds, UnfoldsAll.names_eq hunfolds']
  have hnames : ∀ (k k' : ProcId) (proc proc' : Proc), p.procs[k]? = some proc →
      q.procs[k']? = some proc' → proc.name = proc'.name → k = k' := by
    -- the name is that of procedure `k'` of `p` as well, and names are not repeated in `p`
    intro k k' proc proc' hproc hproc' hname
    have hnamed : (p.procs.toList.map (·.name))[k']? = some proc'.name := by
      rw [hsame, List.getElem?_map, Array.getElem?_toList, hproc', Option.map_some]
    rw [List.getElem?_map, Array.getElem?_toList, Option.map_eq_some_iff] at hnamed
    obtain ⟨proc'', hproc'', hname'⟩ := hnamed
    have hk := hp.wellFormed.procNamed?_name k proc hproc
    have hk' := hp.wellFormed.procNamed?_name k' proc'' hproc''
    rw [hname', ← hname, hk] at hk'
    exact Option.some.inj hk'
  obtain ⟨hprocs, hstmts⟩ :=
    UnfoldsAll.renamesStmt hunfolds hunfolds' hnames (map_renumber hnodup hlength).symm
  refine ⟨?_, ?_, ?_, ?_, ?_, ?_, ?_⟩
  · intro s hs
    exact (hmem' _).mp (renumber_mem hnodup hlength ((hmem s).mpr hs))
  · intro t ht
    exact (hmem _).mp (renumber_mem hnodup' hlength.symm ((hmem' t).mpr ht))
  · intro s hs
    exact renumber_renumber hnodup hnodup' hlength ((hmem s).mpr hs)
  · intro t ht
    exact renumber_renumber hnodup' hnodup hlength.symm ((hmem' t).mpr ht)
  · simpa using congrArg List.length hprocs.symm
  · intro k proc hproc
    rw [← Array.getElem?_toList, hprocs, List.getElem?_map, Array.getElem?_toList, hproc,
      Option.map_some]
  · intro s stmt hs
    obtain ⟨stmt', other, hs', hrest⟩ := hstmts s ((hmem s).mpr (lt_size_of_getElem? hs))
    rw [hs] at hs'
    cases hs'
    exact ⟨other, hrest⟩

end Program

end ProgramQuery
