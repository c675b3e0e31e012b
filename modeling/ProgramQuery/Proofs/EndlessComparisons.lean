import Mathlib.Data.Finset.Prod
import ProgramQuery.Proofs.CheckedEffects
import ProgramQuery.Proofs.ComparedPrograms

/-!
# Comparisons that do not end

Lists are compared in step, and a list that is longer than both programs counts as endless. This
bounds each list, but not the descent into containers: where overwritten links lead from a body back
to its container, comparing the container with itself asks for the same comparison again.

The comparison of two statements asks for the comparison of two others (`Shape.Asks`) if it comes to
them in bodies that are the same up to there. It ends exactly if it does not come, through such
questions, to two statements that are asked for from within their own comparison (`Shape.Loops`,
`Program.sameStmt?_eq_none_iff`). So the depth at which `Program.sameStmt?` gives up is enough: no
deeper comparison would give an answer. If one of the programs has no container in itself, then all
comparisons end, and lists that never end are found to differ from all lists
(`Program.comparisons_end`).
-/

set_option autoImplicit false

open Relation (ReflTransGen TransGen)

namespace ProgramQuery

namespace Shape

variable {p q : Program} {s t u v : StmtId} {same same' : StmtId → StmtId → Option Bool}
  {answer : Bool}

/-! ## Answers are kept at greater depths -/

/-- Two comparisons in a row do not answer if the first does not, or if it succeeds and the second
does not. -/
theorem andThen_eq_none {first second : Option Bool} :
    andThen first second = none ↔ first = none ∨ (first = some true ∧ second = none) := by
  cases first with
  | none => simp [andThen]
  | some answer => cases answer <;> simp [andThen]

/-- Two comparisons in a row keep their answer if each of them does. -/
theorem andThen_kept {first first' second second' : Option Bool}
    (h : andThen first second = some answer)
    (hfirst : ∀ answer, first = some answer → first' = some answer)
    (hsecond : ∀ answer, second = some answer → second' = some answer) :
    andThen first' second' = some answer := by
  cases hanswer : first with
  | none =>
    rw [hanswer] at h
    cases h
  | some b =>
    rw [hanswer] at h
    rw [hfirst b hanswer]
    cases b with
    | false => exact h
    | true => exact hsecond answer h

/-- Lists keep their answer if statements do. -/
theorem sameFrom_kept (hsame : ∀ s t answer, same s t = some answer → same' s t = some answer)
    {bound : Nat} {o o' : Option StmtId} (h : sameFrom p q same bound o o' = some answer) :
    sameFrom p q same' bound o o' = some answer := by
  induction bound generalizing o o' answer with
  | zero => exact h
  | succ bound ih =>
    cases o with
    | none => cases o' <;> exact h
    | some s =>
      cases o' with
      | none => exact h
      | some t => exact andThen_kept h (hsame s t) fun answer => ih

/-- Kinds keep their answer if the lists of their bodies do. -/
theorem sameKind_kept {lists lists' : StmtId → StmtId → Option Bool}
    (hlists : ∀ s t answer, lists s t = some answer → lists' s t = some answer)
    {kind kind' : StmtKind StmtId} (h : sameKind p q lists kind kind' = some answer) :
    sameKind p q lists' kind kind' = some answer := by
  cases kind with
  | assign x e => cases kind' <;> exact h
  | call f => cases kind' <;> exact h
  | branch x thenS elseS =>
    cases kind' with
    | branch y thenT elseT =>
      refine andThen_kept h (fun _ h => h) fun answer h => ?_
      exact andThen_kept h (hlists thenS thenT) (hlists elseS elseT)
    | assign => exact h
    | call => exact h
    | loop => exact h
  | loop x first =>
    cases kind' with
    | loop y first' => exact andThen_kept h (fun _ h => h) (hlists first first')
    | assign => exact h
    | call => exact h
    | branch => exact h

/-- Statements keep their answer at the next depth. -/
theorem sameStmt_succ {depth : Nat} (h : sameStmt p q depth s t = some answer) :
    sameStmt p q (depth + 1) s t = some answer := by
  induction depth generalizing s t answer with
  | zero => cases h
  | succ depth ih =>
    unfold sameStmt at h ⊢
    split at h
    · exact sameKind_kept (fun s t answer => sameFrom_kept fun s t answer => ih) h
    · exact h

/-- What is answered at some depth is answered at greater depths. -/
theorem sameStmt_kept {depth depth' : Nat} (hle : depth ≤ depth')
    (h : sameStmt p q depth s t = some answer) :
    sameStmt p q depth' s t = some answer := by
  induction hle with
  | refl => exact h
  | step _ ih => exact sameStmt_succ ih

/-- At any two depths that suffice, the answer about two statements is the same. -/
theorem sameStmt_agree {depth depth' : Nat} {answer' : Bool}
    (h : sameStmt p q depth s t = some answer)
    (h' : sameStmt p q depth' s t = some answer') : answer = answer' := by
  rcases Nat.le_total depth depth' with hle | hle
  · exact Option.some.inj ((sameStmt_kept hle h).symm.trans h')
  · exact Option.some.inj (h.symm.trans (sameStmt_kept hle h'))

/-! ## What a comparison asks for -/

/-- Within so many places, comparing the lists that begin with `s` and `t` comes to `u` and `v`:
what stands before them is the same. -/
inductive ComesTo (p q : Program) (u v : StmtId) : Nat → StmtId → StmtId → Prop where
  | here (bound : Nat) : ComesTo p q u v (bound + 1) u v
  | later {bound : Nat} {s t s' t' : StmtId} (hsame : p.sameStmt? q s t = some true)
      (hs : p.LinkTo .next s s') (ht : q.LinkTo .next t t')
      (h : ComesTo p q u v bound s' t') : ComesTo p q u v (bound + 1) s t

/-- Comparing the lists that begin with `s` and `t` comes to `u` and `v`. -/
def ListsComeTo (p q : Program) (s t u v : StmtId) : Prop :=
  ComesTo p q u v (max p.stmts.size q.stmts.size + 1) s t

/-- Comparing two statements asks for the comparison of two others: it comes to them in the
bodies. -/
inductive Asks (p q : Program) : StmtId × StmtId → StmtId × StmtId → Prop where
  | loopBody {s t u v first first' : StmtId} {a b : Stmt} {x : String} (hs : p.stmts[s]? = some a)
      (ht : q.stmts[t]? = some b) (ha : a.kind = .loop x first) (hb : b.kind = .loop x first')
      (h : ListsComeTo p q first first' u v) : Asks p q (s, t) (u, v)
  | thenBranch {s t u v thenS thenT elseS elseT : StmtId} {a b : Stmt} {x : String}
      (hs : p.stmts[s]? = some a) (ht : q.stmts[t]? = some b) (ha : a.kind = .branch x thenS elseS)
      (hb : b.kind = .branch x thenT elseT)
      (h : ListsComeTo p q thenS thenT u v) : Asks p q (s, t) (u, v)
  | elseBranch {s t u v thenS thenT elseS elseT : StmtId} {a b : Stmt} {x : String}
      (hs : p.stmts[s]? = some a) (ht : q.stmts[t]? = some b) (ha : a.kind = .branch x thenS elseS)
      (hb : b.kind = .branch x thenT elseT) (hthen : p.sameList? q thenS thenT = some true)
      (h : ListsComeTo p q elseS elseT u v) : Asks p q (s, t) (u, v)

/-- The comparison comes to two statements that are asked for from within their own comparison. -/
def Loops (p q : Program) (pair : StmtId × StmtId) : Prop :=
  ∃ inner, ReflTransGen (Asks p q) pair inner ∧ TransGen (Asks p q) inner inner

/-- From a comparison that loops, another one that loops is asked for. -/
theorem Loops.exists_asks {pair : StmtId × StmtId} (h : Loops p q pair) :
    ∃ pair', Asks p q pair pair' ∧ Loops p q pair' := by
  obtain ⟨inner, hpath, hloop⟩ := h
  rcases hpath.cases_head with rfl | ⟨pair', hasks, hrest⟩
  · obtain ⟨pair', hasks, hback⟩ := TransGen.head'_iff.mp hloop
    exact ⟨pair', hasks, pair, hback, hloop⟩
  · exact ⟨pair', hasks, inner, hrest, hloop⟩

/-- A comparison that asks for one that loops loops itself. -/
theorem Loops.head {pair pair' : StmtId × StmtId} (hasks : Asks p q pair pair')
    (h : Loops p q pair') :
    Loops p q pair := by
  obtain ⟨inner, hpath, hloop⟩ := h
  exact ⟨inner, .head hasks hpath, hloop⟩

/-! ## Missing answers -/

/-- The next statement is where the `next` link leads. -/
theorem next_eq_some_iff : p.stmts[s]?.bind (·.next) = some t ↔ p.LinkTo .next s t :=
  Option.bind_eq_some_iff

/-- A comparison with a list that has ended on the left is answered. -/
theorem sameFrom_left_ne_none {bound : Nat} {o : Option StmtId} :
    sameFrom p q same bound none o ≠ none := by
  cases bound with
  | zero => simp [sameFrom]
  | succ bound => cases o <;> simp [sameFrom]

/-- A comparison with a list that has ended on the right is answered. -/
theorem sameFrom_right_ne_none {bound : Nat} {o : Option StmtId} :
    sameFrom p q same bound o none ≠ none := by
  cases bound with
  | zero => simp [sameFrom]
  | succ bound => cases o <;> simp [sameFrom]

/-- If lists are not answered, then because of two statements that their comparison comes to. -/
theorem exists_comesTo (hsame : ∀ s t, same s t = some true → p.sameStmt? q s t = some true)
    {bound : Nat} (h : sameFrom p q same bound (some s) (some t) = none) :
    ∃ u v, ComesTo p q u v bound s t ∧ same u v = none := by
  induction bound generalizing s t with
  | zero => cases h
  | succ bound ih =>
    rcases andThen_eq_none.mp h with hnone | ⟨htrue, hrest⟩
    · exact ⟨s, t, .here bound, hnone⟩
    · cases hs : p.stmts[s]?.bind (·.next) with
      | none =>
        rw [hs] at hrest
        exact absurd hrest sameFrom_left_ne_none
      | some s' =>
        cases ht : q.stmts[t]?.bind (·.next) with
        | none =>
          rw [ht] at hrest
          exact absurd hrest sameFrom_right_ne_none
        | some t' =>
          rw [hs, ht] at hrest
          obtain ⟨u, v, hcomes, hnone⟩ := ih hrest
          have hs' := next_eq_some_iff.mp hs
          have ht' := next_eq_some_iff.mp ht
          exact ⟨u, v, .later (hsame s t htrue) hs' ht' hcomes, hnone⟩

/-- Lists are not answered if two statements that their comparison comes to are not. -/
theorem sameFrom_eq_none (hsame : ∀ s t, p.sameStmt? q s t = some true → same s t ≠ some false)
    {bound : Nat} (h : ComesTo p q u v bound s t) (hnone : same u v = none) :
    sameFrom p q same bound (some s) (some t) = none := by
  induction h with
  | here bound => exact andThen_eq_none.mpr (Or.inl hnone)
  | @later bound s t s' t' htrue hs ht h ih =>
    rw [sameFrom, next_eq_some_iff.mpr hs, next_eq_some_iff.mpr ht, ih, andThen_eq_none]
    cases hanswer : same s t with
    | none => exact Or.inl rfl
    | some answer =>
      cases answer with
      | false => exact absurd hanswer (hsame s t htrue)
      | true => exact Or.inr ⟨rfl, rfl⟩

/-- What two statements do is not answered exactly if they are containers of one kind with bodies
that are not. -/
theorem sameKind_eq_none {lists : StmtId → StmtId → Option Bool} {kind kind' : StmtKind StmtId} :
    sameKind p q lists kind kind' = none ↔
      (∃ x first first', kind = .loop x first ∧ kind' = .loop x first' ∧
        lists first first' = none) ∨
      ∃ x thenS elseS thenT elseT, kind = .branch x thenS elseS ∧ kind' = .branch x thenT elseT ∧
        (lists thenS thenT = none ∨
          (lists thenS thenT = some true ∧ lists elseS elseT = none)) := by
  constructor
  · intro h
    unfold sameKind at h
    split at h
    · cases h
    · split at h <;> cases h
    · rename_i x thenS elseS y thenT elseT
      obtain hnone | ⟨hcond, hbodies⟩ := andThen_eq_none.mp h
      · cases hnone
      · obtain rfl : x = y := by simpa using hcond
        exact Or.inr ⟨x, thenS, elseS, thenT, elseT, rfl, rfl, andThen_eq_none.mp hbodies⟩
    · rename_i x first y first'
      obtain hnone | ⟨hcond, hbody⟩ := andThen_eq_none.mp h
      · cases hnone
      · obtain rfl : x = y := by simpa using hcond
        exact Or.inl ⟨x, first, first', rfl, rfl, hbody⟩
    · cases h
  · rintro (⟨x, first, first', rfl, rfl, hbody⟩ |
      ⟨x, thenS, elseS, thenT, elseT, rfl, rfl, hbodies⟩)
    · exact andThen_eq_none.mpr (Or.inr ⟨by simp, hbody⟩)
    · exact andThen_eq_none.mpr (Or.inr ⟨by simp, andThen_eq_none.mpr hbodies⟩)

/-- Two statements that are not answered ask for two others that are not answered at the depth that
is left. -/
theorem exists_asks {depth : Nat} (hle : depth ≤ depthFor p q)
    (h : sameStmt p q (depth + 1) s t = none) :
    ∃ u v, Asks p q (s, t) (u, v) ∧ sameStmt p q depth u v = none := by
  have hsame : ∀ s t, sameStmt p q depth s t = some true → p.sameStmt? q s t = some true :=
    fun s t => sameStmt_kept hle
  unfold sameStmt at h
  split at h
  · rename_i a b hs ht
    rcases sameKind_eq_none.mp h with
      ⟨x, first, first', ha, hb, hbody⟩ | ⟨x, thenS, elseS, thenT, elseT, ha, hb, hbodies⟩
    · obtain ⟨u, v, hcomes, hnone⟩ := exists_comesTo hsame hbody
      exact ⟨u, v, .loopBody hs ht ha hb hcomes, hnone⟩
    · rcases hbodies with hthen | ⟨hthen, helse⟩
      · obtain ⟨u, v, hcomes, hnone⟩ := exists_comesTo hsame hthen
        exact ⟨u, v, .thenBranch hs ht ha hb hcomes, hnone⟩
      · obtain ⟨u, v, hcomes, hnone⟩ := exists_comesTo hsame helse
        have hthen : p.sameList? q thenS thenT = some true :=
          sameFrom_kept (fun s t answer => sameStmt_kept hle) hthen
        exact ⟨u, v, .elseBranch hs ht ha hb hthen hcomes, hnone⟩
  · cases h

/-- Two statements are not answered if they ask for two others that are not answered at the depth
that is left. -/
theorem Asks.sameStmt_eq_none {depth : Nat} (h : Asks p q (s, t) (u, v))
    (hnone : sameStmt p q depth u v = none) :
    sameStmt p q (depth + 1) s t = none := by
  have hsame : ∀ s t, p.sameStmt? q s t = some true → sameStmt p q depth s t ≠ some false := by
    intro s t htrue hfalse
    cases sameStmt_agree htrue hfalse
  have hlist : ∀ {first first' : StmtId}, ListsComeTo p q first first' u v →
      sameLists p q (sameStmt p q depth) first first' = none :=
    fun hcomes => sameFrom_eq_none hsame hcomes hnone
  unfold sameStmt
  cases h with
  | loopBody hs ht ha hb h =>
    rw [hs, ht]
    exact sameKind_eq_none.mpr (Or.inl ⟨_, _, _, ha, hb, hlist h⟩)
  | thenBranch hs ht ha hb h =>
    rw [hs, ht]
    exact sameKind_eq_none.mpr (Or.inr ⟨_, _, _, _, _, ha, hb, Or.inl (hlist h)⟩)
  | @elseBranch _ _ _ _ thenS thenT _ _ _ _ _ hs ht ha hb hthen h =>
    rw [hs, ht]
    refine sameKind_eq_none.mpr (Or.inr ⟨_, _, _, _, _, ha, hb, ?_⟩)
    cases hanswer : sameLists p q (sameStmt p q depth) thenS thenT with
    | none => exact Or.inl rfl
    | some answer =>
      -- both comparisons of the first bodies are answered, so they agree
      refine Or.inr ⟨?_, hlist h⟩
      rcases Nat.le_total depth (depthFor p q) with hle | hle
      · exact (sameFrom_kept (fun s t answer => sameStmt_kept hle) hanswer).symm.trans hthen
      · exact hanswer.symm.trans (sameFrom_kept (fun s t answer => sameStmt_kept hle) hthen)

/-- A comparison that loops is not answered at any depth. -/
theorem Loops.sameStmt_eq_none {pair : StmtId × StmtId} (h : Loops p q pair) (depth : Nat) :
    sameStmt p q depth pair.1 pair.2 = none := by
  induction depth generalizing pair with
  | zero => rfl
  | succ depth ih =>
    obtain ⟨pair', hasks, hloops⟩ := h.exists_asks
    exact hasks.sameStmt_eq_none (ih hloops)

/-- Numbers that a program does not have are found to differ at once. -/
theorem lt_size_of_sameStmt {depth : Nat} (h : sameStmt p q (depth + 1) s t ≠ some false) :
    s < p.stmts.size ∧ t < q.stmts.size := by
  unfold sameStmt at h
  split at h
  · rename_i a b hs ht
    exact ⟨Program.lt_size_of_getElem? hs, Program.lt_size_of_getElem? ht⟩
  · exact absurd rfl h

/-- There are no more pairs of statements than the two sizes multiplied. -/
theorem length_le_of_nodup_pairs {seen : List (StmtId × StmtId)} (hnodup : seen.Nodup)
    (hlt : ∀ pair ∈ seen, pair.1 < p.stmts.size ∧ pair.2 < q.stmts.size) :
    seen.length ≤ p.stmts.size * q.stmts.size := by
  have hsub : seen.toFinset ⊆ Finset.range p.stmts.size ×ˢ Finset.range q.stmts.size := by
    intro pair hpair
    rw [Finset.mem_product, Finset.mem_range, Finset.mem_range]
    exact hlt pair (List.mem_toFinset.mp hpair)
  have hcard := Finset.card_le_card hsub
  rwa [List.toFinset_card_of_nodup hnodup, Finset.card_product, Finset.card_range,
    Finset.card_range] at hcard

/-- A comparison that is not answered loops, if it may still go down to as many pairs of statements
as it has not come through. The pairs come through are `seen`. -/
theorem loops_of_seen {depth : Nat} {pair : StmtId × StmtId} {seen : List (StmtId × StmtId)}
    (hnodup : seen.Nodup) (hlt : ∀ pair ∈ seen, pair.1 < p.stmts.size ∧ pair.2 < q.stmts.size)
    (hseen : ∀ before ∈ seen, TransGen (Asks p q) before pair) (hle : depth ≤ depthFor p q)
    (hdepth : depthFor p q ≤ depth + seen.length)
    (hnone : sameStmt p q depth pair.1 pair.2 = none) :
    Loops p q pair := by
  induction depth generalizing pair seen with
  | zero =>
    have hlength := length_le_of_nodup_pairs hnodup hlt
    unfold depthFor at hdepth
    omega
  | succ depth ih =>
    by_cases hmem : pair ∈ seen
    · exact ⟨pair, .refl, hseen pair hmem⟩
    obtain ⟨u, v, hasks, hnone'⟩ := exists_asks (Nat.le_of_succ_le hle) hnone
    have hne : sameStmt p q (depth + 1) pair.1 pair.2 ≠ some false := by simp [hnone]
    refine .head hasks (ih (hnodup.cons hmem) ?_ ?_ (Nat.le_of_succ_le hle) ?_ hnone')
    · exact List.forall_mem_cons.mpr ⟨lt_size_of_sameStmt hne, hlt⟩
    · exact List.forall_mem_cons.mpr
        ⟨.single hasks, fun before hbefore => (hseen before hbefore).tail hasks⟩
    · rw [List.length_cons]
      omega

end Shape

namespace Program

open Shape

variable {p q : Program} {s t : StmtId} {a b : Proc}

/-- Statements are not answered exactly if their comparison loops. -/
theorem sameStmt?_eq_none_iff : p.sameStmt? q s t = none ↔ Loops p q (s, t) := by
  constructor
  · intro h
    exact loops_of_seen List.nodup_nil (by simp) (by simp) (Nat.le_refl _) (Nat.le_add_right _ _) h
  · intro h
    exact h.sameStmt_eq_none (depthFor p q)

/-- At greater depths there are no other answers. -/
theorem sameStmt_eq_sameStmt? {depth : Nat} (hle : depthFor p q ≤ depth) :
    sameStmt p q depth s t = p.sameStmt? q s t := by
  cases h : p.sameStmt? q s t with
  | none => exact (sameStmt?_eq_none_iff.mp h).sameStmt_eq_none depth
  | some answer => exact sameStmt_kept hle h

/-- The comparison of two lists is not answered exactly if it comes to statements whose comparison
loops. -/
theorem sameList?_eq_none_iff :
    p.sameList? q s t = none ↔ ∃ u v, ListsComeTo p q s t u v ∧ Loops p q (u, v) := by
  constructor
  · intro h
    obtain ⟨u, v, hcomes, hnone⟩ := exists_comesTo (fun s t h => h) h
    exact ⟨u, v, hcomes, sameStmt?_eq_none_iff.mp hnone⟩
  · rintro ⟨u, v, hcomes, hloops⟩
    refine sameFrom_eq_none ?_ hcomes (sameStmt?_eq_none_iff.mpr hloops)
    intro s t htrue hfalse
    cases htrue.symm.trans hfalse

/-- The comparison of two procedures is not answered exactly if their names agree and that of their
lists is not. -/
theorem sameProc?_eq_none_iff :
    p.sameProc? q a b = none ↔ a.name = b.name ∧ p.sameList? q a.first b.first = none := by
  unfold sameProc?
  rw [andThen_eq_none]
  simp

/-- The comparison of procedures in turn is not answered exactly if one of two is not, and all
before them are the same. -/
theorem foldr_sameProc?_eq_none_iff {pairs : List (Proc × Proc)} :
    pairs.foldr (fun pair rest => andThen (p.sameProc? q pair.1 pair.2) rest) (some true) = none ↔
      ∃ before a b after, pairs = before ++ (a, b) :: after ∧
        (∀ pair ∈ before, p.sameProc? q pair.1 pair.2 = some true) ∧ p.sameProc? q a b = none := by
  induction pairs with
  | nil => simp
  | cons pair pairs ih =>
    rw [List.foldr_cons, andThen_eq_none, ih]
    constructor
    · rintro (hnone | ⟨htrue, before, a, b, after, rfl, hbefore, hnone⟩)
      · exact ⟨[], pair.1, pair.2, pairs, rfl, by simp, hnone⟩
      · exact ⟨pair :: before, a, b, after, rfl, List.forall_mem_cons.mpr ⟨htrue, hbefore⟩, hnone⟩
    · rintro ⟨before, a, b, after, heq, hbefore, hnone⟩
      cases before with
      | nil =>
        cases heq
        exact Or.inl hnone
      | cons first before =>
        cases heq
        obtain ⟨htrue, hbefore⟩ := List.forall_mem_cons.mp hbefore
        exact Or.inr ⟨htrue, before, a, b, after, rfl, hbefore, hnone⟩

/-- Programs are not answered exactly if two procedures are not, after procedures that are the
same. -/
theorem same?_eq_none_iff : p.same? q = none ↔ p.procs.size = q.procs.size ∧
    ∃ before a b after, p.procs.toList.zip q.procs.toList = before ++ (a, b) :: after ∧
      (∀ pair ∈ before, p.sameProc? q pair.1 pair.2 = some true) ∧ p.sameProc? q a b = none := by
  rw [← foldr_sameProc?_eq_none_iff]
  unfold same?
  rw [andThen_eq_none]
  simp

/-! ## Lists that never end -/

/-- Lists that are the same end. -/
theorem exists_paths_of_sameFrom {bound : Nat} {o o' : Option StmtId}
    (h : sameFrom p q (p.sameStmt? q) bound o o' = some true) :
    (∃ l, p.Path .next o l) ∧ ∃ l, q.Path .next o' l := by
  induction bound generalizing o o' with
  | zero => cases h
  | succ bound ih =>
    cases o with
    | none =>
      cases o' with
      | none => exact ⟨⟨[], .done⟩, [], .done⟩
      | some t => cases h
    | some s =>
      cases o' with
      | none => cases h
      | some t =>
        obtain ⟨htrue, hrest⟩ := andThen_eq_true.mp h
        have hne : p.sameStmt? q s t ≠ some false := by simp [htrue]
        obtain ⟨hs, ht⟩ := lt_size_of_sameStmt hne
        obtain ⟨stmt, hstmt⟩ := exists_stmt hs
        obtain ⟨other, hother⟩ := exists_stmt ht
        rw [hstmt, hother] at hrest
        obtain ⟨⟨l, hl⟩, m, hm⟩ := ih hrest
        exact ⟨⟨s :: l, .step hstmt hl⟩, t :: m, .step hother hm⟩

/-- A list that never ends is not found to be the same as any list. -/
theorem sameList?_ne_true (h : p.Endless s ∨ q.Endless t) : p.sameList? q s t ≠ some true := by
  intro htrue
  obtain ⟨⟨l, hl⟩, m, hm⟩ := exists_paths_of_sameFrom htrue
  rcases h with hendless | hendless
  · exact hl.not_endless hendless
  · exact hm.not_endless hendless

/-! ## Containers in themselves -/

/-- A body of the container `c` leads along `next` links to `s`. -/
def Encloses (p : Program) (c s : StmtId) : Prop :=
  ∃ stmt first, p.stmts[c]? = some stmt ∧ first ∈ stmt.kind.bodies ∧
    ReflTransGen (p.LinkTo .next) first s

/-- A comparison of lists goes along the `next` links of both. -/
theorem links_of_comesTo {u v : StmtId} {bound : Nat} (h : ComesTo p q u v bound s t) :
    ReflTransGen (p.LinkTo .next) s u ∧ ReflTransGen (q.LinkTo .next) t v := by
  induction h with
  | here bound => exact ⟨.refl, .refl⟩
  | later _ hs ht _ ih => exact ⟨.head hs ih.1, .head ht ih.2⟩

/-- What a comparison of two bodies comes to is enclosed by the containers. -/
theorem encloses_of_listsComeTo {first first' u v : StmtId} {stmt other : Stmt}
    (hs : p.stmts[s]? = some stmt) (ht : q.stmts[t]? = some other)
    (hfirst : first ∈ stmt.kind.bodies) (hfirst' : first' ∈ other.kind.bodies)
    (h : ListsComeTo p q first first' u v) : p.Encloses s u ∧ q.Encloses t v := by
  obtain ⟨hlinks, hlinks'⟩ := links_of_comesTo h
  exact ⟨⟨stmt, first, hs, hfirst, hlinks⟩, other, first', ht, hfirst', hlinks'⟩

/-- What a comparison asks for is enclosed by what is compared, in both programs. -/
theorem encloses_of_asks {pair pair' : StmtId × StmtId} (h : Asks p q pair pair') :
    p.Encloses pair.1 pair'.1 ∧ q.Encloses pair.2 pair'.2 := by
  cases h with
  | loopBody hs ht ha hb h =>
    exact encloses_of_listsComeTo hs ht (by simp [ha, StmtKind.bodies])
      (by simp [hb, StmtKind.bodies]) h
  | thenBranch hs ht ha hb h =>
    exact encloses_of_listsComeTo hs ht (by simp [ha, StmtKind.bodies])
      (by simp [hb, StmtKind.bodies]) h
  | elseBranch hs ht ha hb _ h =>
    exact encloses_of_listsComeTo hs ht (by simp [ha, StmtKind.bodies])
      (by simp [hb, StmtKind.bodies]) h

/-- A comparison that loops has come to containers that are in themselves, in both programs. -/
theorem encloses_of_loops {pair : StmtId × StmtId} (h : Loops p q pair) :
    (∃ c, TransGen p.Encloses c c) ∧ ∃ c, TransGen q.Encloses c c := by
  obtain ⟨inner, -, hloop⟩ := h
  exact ⟨⟨inner.1, hloop.lift Prod.fst fun _ _ hasks => (encloses_of_asks hasks).1⟩,
    inner.2, hloop.lift Prod.snd fun _ _ hasks => (encloses_of_asks hasks).2⟩

/-- **When comparisons end.** Going down further than `depthFor` gives no other answers. Two
statements are answered unless their comparison comes to two statements that are asked for from
within their own comparison, and lists, procedures and programs are answered unless they come to
such statements. A list that never ends is not found to be the same as any list. If one of the
programs has no container in itself, then all comparisons are answered, and a list that never ends
is found to differ. -/
theorem comparisons_end (p q : Program) :
    (∀ s t depth, depthFor p q ≤ depth → sameStmt p q depth s t = p.sameStmt? q s t) ∧
    (∀ s t, p.sameStmt? q s t = none ↔ Loops p q (s, t)) ∧
    (∀ s t, p.sameList? q s t = none ↔ ∃ u v, ListsComeTo p q s t u v ∧ Loops p q (u, v)) ∧
    (∀ a b, p.sameProc? q a b = none ↔ a.name = b.name ∧ p.sameList? q a.first b.first = none) ∧
    (p.same? q = none ↔ p.procs.size = q.procs.size ∧
      ∃ before a b after, p.procs.toList.zip q.procs.toList = before ++ (a, b) :: after ∧
        (∀ pair ∈ before, p.sameProc? q pair.1 pair.2 = some true) ∧ p.sameProc? q a b = none) ∧
    (∀ s t, p.Endless s ∨ q.Endless t → p.sameList? q s t ≠ some true) ∧
    ((∀ c, ¬ TransGen p.Encloses c c) ∨ (∀ c, ¬ TransGen q.Encloses c c) →
      (∀ s t, p.sameStmt? q s t ≠ none) ∧ (∀ s t, p.sameList? q s t ≠ none) ∧
      (∀ a b, p.sameProc? q a b ≠ none) ∧ p.same? q ≠ none ∧
      ∀ s t, p.Endless s ∨ q.Endless t → p.sameList? q s t = some false) := by
  refine ⟨fun s t depth hle => sameStmt_eq_sameStmt? hle, fun s t => sameStmt?_eq_none_iff,
    fun s t => sameList?_eq_none_iff, fun a b => sameProc?_eq_none_iff, same?_eq_none_iff,
    fun s t => sameList?_ne_true, ?_⟩
  intro hnested
  have hloops : ∀ pair, ¬ Loops p q pair := by
    intro pair h
    obtain ⟨⟨c, hc⟩, c', hc'⟩ := encloses_of_loops h
    exact hnested.elim (fun hp => hp c hc) fun hq => hq c' hc'
  have hstmt : ∀ s t, p.sameStmt? q s t ≠ none :=
    fun s t h => hloops (s, t) (sameStmt?_eq_none_iff.mp h)
  have hlist : ∀ s t, p.sameList? q s t ≠ none := by
    intro s t h
    obtain ⟨u, v, -, hloop⟩ := sameList?_eq_none_iff.mp h
    exact hloops (u, v) hloop
  have hproc : ∀ a b, p.sameProc? q a b ≠ none :=
    fun a b h => hlist a.first b.first (sameProc?_eq_none_iff.mp h).2
  refine ⟨hstmt, hlist, hproc, ?_, ?_⟩
  · intro h
    obtain ⟨-, before, a, b, after, -, -, hnone⟩ := same?_eq_none_iff.mp h
    exact hproc a b hnone
  · intro s t hendless
    cases hanswer : p.sameList? q s t with
    | none => exact absurd hanswer (hlist s t)
    | some answer =>
      cases answer with
      | false => rfl
      | true => exact absurd hanswer (sameList?_ne_true hendless)

/-- The steps for a procedure with a loop around an assignment. -/
def loopSteps : List Draft.Step :=
  [.declare "p", .addLoop "i", .addAssign "x" (.const 1), .setBody .loopBody 1 0, .setProcBody 0 0]

/-- The program that the steps end in. -/
def loopProgram : Program where
  procs := #[⟨"p", 0⟩]
  stmts :=
    #[⟨1, none, none, none, 0, .loop "i" 1⟩, ⟨2, none, none, some 0, 0, .assign "x" (.const 1)⟩]

/-- The body of the loop leads back to the loop, and the loop leads to its body. -/
def reenteredLoop : Program := (loopProgram.overwriteNext 1 (some 0)).overwriteNext 0 (some 1)

/-- The links of the overwritten program stay within it. -/
theorem inRange_reenteredLoop : reenteredLoop.InRange := by
  have hbuilt : loopProgram.Built := .ofSteps {} loopSteps (by decide +kernel)
  exact (hbuilt.wellFormed.inRange.overwriteNext 1 (by decide)).overwriteNext 0 (by decide)

/-- The loop and its body make a list that never ends. Comparing it with itself goes down into the
loop without end, so that it is not found to differ. -/
theorem sameList?_reenteredLoop :
    reenteredLoop.InRange ∧ reenteredLoop.Endless 0 ∧
      (∀ depth, sameStmt reenteredLoop reenteredLoop depth 0 0 = none) ∧
      reenteredLoop.sameStmt? reenteredLoop 0 0 = none ∧
      reenteredLoop.sameList? reenteredLoop 0 0 = none ∧
      reenteredLoop.same? reenteredLoop = none := by
  have hnone : reenteredLoop.sameStmt? reenteredLoop 0 0 = none := by decide +kernel
  refine ⟨inRange_reenteredLoop, ?_, (sameStmt?_eq_none_iff.mp hnone).sameStmt_eq_none,
    hnone, by decide +kernel, by decide +kernel⟩
  intro s hs
  have hlt : s < 2 := inRange_reenteredLoop.lt_of_steps (by decide) hs
  match s, hlt with
  | 0, _ => exact ⟨1, _, rfl, rfl⟩
  | 1, _ => exact ⟨0, _, rfl, rfl⟩

end Program

end ProgramQuery
