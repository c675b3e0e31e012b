import ProgramQuery.Proofs.LinkPaths

/-!
# Links that never end

Listing a body counts its members and stops when there are more of them than statements in the
program. Walking along a link remembers the statements that it has met and stops when it meets one
of them again. Both find out exactly whether a link ends, in every program whose links lead to
statements of the program, and if it ends both give the statements that are met, in order
(`detectors_exact`).

Following a link step by step (`follow`) knows of neither way to stop. It ends exactly if there is a
path (`exists_path_iff`), and then the path is what is met at each step (`path_iff_follow`). A path
meets no statement twice, so it is never longer than the program. The bound of a walk is therefore
never the reason to stop: where it is used up, all statements of the program have been met
(`walks_walkFrom`).
-/

set_option autoImplicit false

namespace ProgramQuery.Program

open ExceptSteps

variable {p : Program} {link : Link} {s t first : StmtId} {stmt : Stmt} {l seen : List StmtId}
  {o : Option StmtId} {result : Except Inconsistency (List StmtId)}

/-! ## Following a link -/

/-- Where a link leads from `s` in a number of steps, `none` if it ends before. -/
def follow (p : Program) (link : Link) (s : StmtId) : Nat → Option StmtId
  | 0 => some s
  | n + 1 => (p.follow link s n).bind fun t => p.stmts[t]?.bind link.target

/-- The links of statements lead to statements of the program. -/
def LinksWithin (p : Program) : Prop :=
  ∀ link : Link, ∀ stmt ∈ p.stmts, ∀ t ∈ link.target stmt, t < p.stmts.size

/-- Where a link of the program leads is in the program. -/
theorem LinksWithin.lt_of_target (hp : p.LinksWithin) (hs : p.stmts[s]? = some stmt)
    (ht : link.target stmt = some t) :
    t < p.stmts.size :=
  hp link stmt (Array.mem_of_getElem? hs) t ht

/-- The first step may be taken apart from the others. -/
theorem follow_succ (hs : p.stmts[s]? = some stmt) (n : Nat) :
    p.follow link s (n + 1) = (link.target stmt).bind fun t => p.follow link t n := by
  induction n with
  | zero => cases htarget : link.target stmt <;> simp [follow, hs, htarget]
  | succ n ih =>
    rw [follow, ih, Option.bind_assoc]
    rfl

/-- A path has at each place what the link leads to in so many steps. -/
theorem Path.getElem?_eq (hl : p.Path link (some s) l) (n : Nat) : l[n]? = p.follow link s n := by
  generalize ho : some s = o at hl
  induction hl generalizing s n with
  | done => cases ho
  | @step s stmt l hs hl ih =>
    cases ho
    cases n with
    | zero => rfl
    | succ n =>
      rw [List.getElem?_cons_succ, follow_succ hs]
      cases htarget : link.target stmt with
      | none =>
        rw [htarget, path_none_iff] at hl
        rw [hl]
        rfl
      | some t => exact ih n htarget.symm

/-- **A link that ends** has a path. -/
theorem LinksWithin.exists_path_iff (hp : p.LinksWithin) (hs : s < p.stmts.size) :
    (∃ l, p.Path link (some s) l) ↔ ∃ n, p.follow link s n = none := by
  constructor
  · rintro ⟨l, hl⟩
    exact ⟨l.length, by rw [← hl.getElem?_eq, List.getElem?_length]⟩
  · rintro ⟨n, hn⟩
    induction n generalizing s with
    | zero => cases hn
    | succ n ih =>
      obtain ⟨stmt, hstmt⟩ := exists_stmt hs
      rw [follow_succ hstmt] at hn
      cases htarget : link.target stmt with
      | none => exact ⟨[s], .step hstmt (htarget ▸ .done)⟩
      | some t =>
        rw [htarget] at hn
        obtain ⟨l, hl⟩ := ih (hp.lt_of_target hstmt htarget) hn
        exact ⟨s :: l, .step hstmt (htarget ▸ hl)⟩

/-- **A path** is what is met at each step, and nothing after the last step. -/
theorem LinksWithin.path_iff_follow (hp : p.LinksWithin) (hs : s < p.stmts.size) :
    p.Path link (some s) l ↔ ∀ n, l[n]? = p.follow link s n := by
  constructor
  · exact fun hl n => hl.getElem?_eq n
  · intro hl
    obtain ⟨m, hm⟩ := (hp.exists_path_iff hs).mpr ⟨l.length, by rw [← hl, List.getElem?_length]⟩
    have heq : l = m := List.ext_getElem? fun n => by rw [hl, hm.getElem?_eq]
    rwa [heq]

/-! ## Walking without a bound -/

/-- A walk along a link from a statement, where some were met before, and how it ends: where the
link ends, or with the first statement that is met again. -/
inductive Walks (p : Program) (link : Link) :
    List StmtId → Option StmtId → Except Inconsistency (List StmtId) → Prop where
  | done {seen : List StmtId} : Walks p link seen none (.ok [])
  | again {seen : List StmtId} {s : StmtId} {stmt : Stmt} (hs : p.stmts[s]? = some stmt)
      (hseen : s ∈ seen) :
      Walks p link seen (some s) (.error (.loopsBack link stmt.line))
  | step {seen : List StmtId} {s : StmtId} {stmt : Stmt}
      {result : Except Inconsistency (List StmtId)} (hs : p.stmts[s]? = some stmt) (hnew : s ∉ seen)
      (hrest : Walks p link (s :: seen) (link.target stmt) result) :
      Walks p link seen (some s) (result.map (s :: ·))

/-- A walk that meets a statement again fails there, with the line of the statement. -/
theorem walkFrom_again (hs : p.stmts[s]? = some stmt) (hseen : s ∈ seen) (bound : Nat) :
    p.walkFrom link bound seen (some s) = .error (.loopsBack link stmt.line) := by
  have hcontains : seen.contains s = true := by simpa using hseen
  unfold walkFrom
  rw [getStmt_eq_ok.mpr hs, hcontains]
  cases bound <;> rfl

/-- A walk that meets a new statement goes on from where its link leads. -/
theorem walkFrom_step (hs : p.stmts[s]? = some stmt) (hnew : s ∉ seen) (bound : Nat) :
    p.walkFrom link (bound + 1) seen (some s) =
      (p.walkFrom link bound (s :: seen) (link.target stmt)).map (s :: ·) := by
  have hcontains : seen.contains s = false := by simpa using hnew
  rw [walkFrom, getStmt_eq_ok.mpr hs, hcontains]
  show (do let more ← p.walkFrom link bound (s :: seen) (link.target stmt); pure (s :: more)) = _
  cases p.walkFrom link bound (s :: seen) (link.target stmt) <;> rfl

/-- **A walk ends without a bound**, and as it ends with one that allows for all statements not met
yet. -/
theorem LinksWithin.walks_walkFrom (hp : p.LinksWithin) {bound : Nat} (hnodup : seen.Nodup)
    (hseen : ∀ s ∈ seen, s < p.stmts.size) (ho : ∀ s ∈ o, s < p.stmts.size)
    (hbound : p.stmts.size ≤ bound + seen.length) :
    p.Walks link seen o (p.walkFrom link bound seen o) := by
  induction bound generalizing seen o with
  | zero =>
    cases o with
    | none => exact .done
    | some s =>
      obtain ⟨stmt, hs⟩ := exists_stmt (ho s rfl)
      -- all statements have been met, or one more than there are would be different from each other
      have hmet : s ∈ seen := by
        by_contra hnew
        have hlength := length_le_of_nodup_lt (List.nodup_cons.mpr ⟨hnew, hnodup⟩)
          (List.forall_mem_cons.mpr ⟨ho s rfl, hseen⟩)
        rw [List.length_cons] at hlength
        omega
      rw [walkFrom_again hs hmet]
      exact .again hs hmet
  | succ bound ih =>
    cases o with
    | none => exact .done
    | some s =>
      obtain ⟨stmt, hs⟩ := exists_stmt (ho s rfl)
      by_cases hmet : s ∈ seen
      · rw [walkFrom_again hs hmet]
        exact .again hs hmet
      · rw [walkFrom_step hs hmet]
        refine .step hs hmet (ih (List.nodup_cons.mpr ⟨hmet, hnodup⟩)
          (List.forall_mem_cons.mpr ⟨ho s rfl, hseen⟩) (fun t ht => hp.lt_of_target hs ht) ?_)
        rw [List.length_cons]
        omega

/-- The walk of the program walks along the link from its first statement. -/
theorem LinksWithin.walks_walk (hp : p.LinksWithin) (hfirst : first < p.stmts.size) :
    p.Walks link [] (some first) (p.walk link (some first)) :=
  hp.walks_walkFrom List.nodup_nil (by simp) (fun s hs => by cases hs; exact hfirst) (by simp)

/-- What a walk gives is a path. -/
theorem Walks.path (h : p.Walks link seen o result) (hl : result = .ok l) : p.Path link o l := by
  induction h generalizing l with
  | done =>
    cases hl
    exact .done
  | again hs hseen => cases hl
  | @step seen s stmt result hs hnew hrest ih =>
    obtain ⟨more, hmore, hcons⟩ := map_eq_ok.mp hl
    rw [← hcons]
    exact .step hs (ih hmore)

/-! ## The two detectors -/

/-- A result about a link from `first` on that is right: it is a failure exactly if the link never
ends, and else the statements that are met at each step, all of them different. -/
structure Detects (p : Program) (link : Link) (first : StmtId)
    (result : Except Inconsistency (List StmtId)) : Prop where
  fails_iff : (∃ e, result = .error e) ↔ ∀ n, p.follow link first n ≠ none
  lists_iff : ∀ l, result = .ok l ↔ ∀ n, l[n]? = p.follow link first n
  nodup : ∀ l, result = .ok l → l.Nodup

/-- A result is a failure exactly if it is no success. -/
theorem exists_error_iff : (∃ e, result = .error e) ↔ ¬ ∃ l, result = .ok l := by
  cases result <;> simp

/-- A result that is the path, if there is one, is right. -/
theorem LinksWithin.detects (hp : p.LinksWithin) (hfirst : first < p.stmts.size)
    (h : ∀ l, result = .ok l ↔ p.Path link (some first) l) : p.Detects link first result where
  fails_iff := by
    rw [exists_error_iff]
    simp only [h, hp.exists_path_iff hfirst, not_exists, ne_eq]
  lists_iff l := by rw [h, hp.path_iff_follow hfirst]
  nodup l hl := ((h l).mp hl).nodup

/-- A walk succeeds with the path along the link, if there is one. -/
theorem LinksWithin.walk_eq_ok_iff (hp : p.LinksWithin) (hfirst : first < p.stmts.size) :
    p.walk link (some first) = .ok l ↔ p.Path link (some first) l :=
  ⟨(hp.walks_walk hfirst).path, walk_eq_of_path⟩

/-- A list is given out exactly if it is the path along the `next` links and, where it is checked,
all its members link back to the owner. -/
theorem chain_eq_ok_iff {check : Bool} {owner : Option StmtId} : p.chain check first owner = .ok l ↔
    p.Path .next (some first) l ∧
      (check = true → ∀ s ∈ l, ∀ stmt, p.stmts[s]? = some stmt → stmt.parent = owner) :=
  ⟨chain_eq_ok, fun h => chain_eq_of_path h.1 h.2⟩

/-- Without the check, a list is given out exactly if it is the path along the `next` links. -/
theorem chain_unchecked_eq_ok_iff {owner : Option StmtId} :
    p.chain false first owner = .ok l ↔ p.Path .next (some first) l := by
  simp [chain_eq_ok_iff]

/-- With checks, a list is refused if it never ends or if a member links to another container. -/
theorem LinksWithin.exists_chain_error_iff (hp : p.LinksWithin) (hfirst : first < p.stmts.size)
    {owner : Option StmtId} :
    (∃ e, p.chain true first owner = .error e) ↔ (∀ n, p.follow .next first n ≠ none) ∨
      ∃ n s stmt, p.follow .next first n = some s ∧ p.stmts[s]? = some stmt ∧
        stmt.parent ≠ owner := by
  rw [exists_error_iff]
  constructor
  · intro hrefused
    by_contra hfine
    push Not at hfine
    obtain ⟨hends, hlinked⟩ := hfine
    obtain ⟨l, hl⟩ := (hp.exists_path_iff hfirst).mpr hends
    refine hrefused ⟨l, chain_eq_of_path hl fun _ s hs stmt hstmt => ?_⟩
    obtain ⟨n, hn⟩ := List.mem_iff_getElem?.mp hs
    rw [hl.getElem?_eq] at hn
    exact hlinked n s stmt hn hstmt
  · rintro hfault ⟨l, hchain⟩
    obtain ⟨hl, hparent⟩ := chain_eq_ok hchain
    rcases hfault with hendless | ⟨n, s, stmt, hn, hs, hne⟩
    · obtain ⟨n, hn⟩ := (hp.exists_path_iff hfirst).mp ⟨l, hl⟩
      exact hendless n hn
    · rw [← hl.getElem?_eq] at hn
      exact hne (hparent rfl s (List.mem_of_getElem? hn) stmt hs)

/-- **Both detectors are exact**, in every program whose links stay within it. Walking along any
link ends, also without a bound. Walking and listing a body without checks fail exactly if the link
never ends, and otherwise give what is met at each step, so they agree. With checks, a body is
listed exactly if in addition all members link to its owner. -/
theorem detectors_exact (hp : p.LinksWithin) (hfirst : first < p.stmts.size)
    (owner : Option StmtId) :
    (∀ link, p.Walks link [] (some first) (p.walk link (some first)) ∧
      p.Detects link first (p.walk link (some first))) ∧
    p.Detects .next first (p.chain false first owner) ∧
    (∀ l, p.chain false first owner = .ok l ↔ p.walk .next (some first) = .ok l) ∧
    (∀ l, p.chain true first owner = .ok l ↔ p.chain false first owner = .ok l ∧
      ∀ s ∈ l, ∀ stmt, p.stmts[s]? = some stmt → stmt.parent = owner) ∧
    ((∃ e, p.chain true first owner = .error e) ↔ (∀ n, p.follow .next first n ≠ none) ∨
      ∃ n s stmt, p.follow .next first n = some s ∧ p.stmts[s]? = some stmt ∧
        stmt.parent ≠ owner) := by
  refine ⟨fun link => ⟨hp.walks_walk hfirst, hp.detects hfirst fun l => hp.walk_eq_ok_iff hfirst⟩,
    hp.detects hfirst fun l => chain_unchecked_eq_ok_iff, fun l => ?_, fun l => ?_,
      hp.exists_chain_error_iff hfirst⟩
  · rw [chain_unchecked_eq_ok_iff, hp.walk_eq_ok_iff hfirst]
  · rw [chain_unchecked_eq_ok_iff, chain_eq_ok_iff]
    simp only [forall_const]

/-- Four assignments in a row. -/
def rowProgram : Program where
  procs := #[⟨"p", 0⟩]
  stmts :=
    #[⟨1, some 1, none, none, 0, .assign "x" (.const 1)⟩,
      ⟨2, some 2, some 0, none, 0, .assign "x" (.const 2)⟩,
      ⟨3, some 3, some 1, none, 0, .assign "x" (.const 3)⟩,
      ⟨4, none, some 2, none, 0, .assign "x" (.const 4)⟩]

/-- The assignments in a row, but the last one leads back to the second. -/
def enteredLoop : Program := rowProgram.overwriteNext 3 (some 1)

/-- A loop that the first statement leads into and is not part of: that its list is refused says
that the links never end. The other way along the row meets all statements of the program and comes
to an end, and so does the row itself. -/
theorem detectors_enteredLoop_exact :
    enteredLoop.LinksWithin ∧ (∀ n, enteredLoop.follow .next 0 n ≠ none) ∧
      (∃ e, enteredLoop.chain true 0 none = .error e) ∧
      enteredLoop.walk .prev (some 3) = .ok [3, 2, 1, 0] ∧
      (∀ n, [3, 2, 1, 0][n]? = enteredLoop.follow .prev 3 n) ∧
      rowProgram.chain true 0 none = .ok [0, 1, 2, 3] ∧
      (∀ n, [0, 1, 2, 3][n]? = rowProgram.follow .next 0 n) := by
  have hp : enteredLoop.LinksWithin := by
    intro link
    cases link <;> decide
  have hrow : rowProgram.LinksWithin := by
    intro link
    cases link <;> decide
  obtain ⟨-, hlisted, -, -, hrefused⟩ :=
    detectors_exact hp (show 0 < enteredLoop.stmts.size by decide) none
  obtain ⟨hwalked, -⟩ := detectors_exact hp (show 3 < enteredLoop.stmts.size by decide) none
  obtain ⟨-, hall, -, hchecked, -⟩ :=
    detectors_exact hrow (show 0 < rowProgram.stmts.size by decide) none
  have hendless := hlisted.fails_iff.mp ⟨.endlessList 1, by decide⟩
  have hwalk : enteredLoop.walk .prev (some 3) = .ok [3, 2, 1, 0] := by decide
  have hchain : rowProgram.chain true 0 none = .ok [0, 1, 2, 3] := by decide
  refine ⟨hp, hendless, hrefused.mpr (.inl hendless), hwalk, ?_, hchain, ?_⟩
  · exact ((hwalked .prev).2.lists_iff _).mp hwalk
  · exact (hall.lists_iff _).mp ((hchecked _).mp hchain).1

end ProgramQuery.Program
