import ProgramQuery.Program.Shape
import ProgramQuery.Proofs.UnfoldedPrograms

/-!
# What a comparison finds out

Comparing two lists goes along their `next` links in step and down into bodies, as unfolding them
does. So lists that compare as the same unfold to the same listing (`Unfolds.listing_eq`), whatever
bounds they were compared with, and programs that compare as the same unfold to the same listings
(`UnfoldsTo.listings_eq`).
-/

set_option autoImplicit false

namespace ProgramQuery

namespace Shape

variable {p q : Program} {s t : StmtId} {a b : Stmt} {same lists : StmtId → StmtId → Option Bool}

/-- Two comparisons in a row succeed if both do. -/
theorem andThen_eq_true {first second : Option Bool} :
    andThen first second = some true ↔ first = some true ∧ second = some true := by
  cases first with
  | none => simp [andThen]
  | some answer => cases answer <;> simp [andThen]

/-- Two comparisons in a row that both come to an answer answer with both. -/
theorem andThen_some {x y : Bool} : andThen (some x) (some y) = some (x && y) := by
  cases x <;> rfl

/-- Lists that are the same begin with the same statement and go on with the same lists. -/
theorem sameFrom_some {bound : Nat} {start : Option StmtId} (hs : p.stmts[s]? = some a)
    (h : sameFrom p q same bound (some s) start = some true) :
    ∃ t bound', start = some t ∧ same s t = some true ∧
      sameFrom p q same bound' a.next (q.stmts[t]?.bind (·.next)) = some true := by
  cases bound with
  | zero => simp [sameFrom] at h
  | succ bound =>
    cases start with
    | none => simp [sameFrom] at h
    | some t =>
      rw [sameFrom, andThen_eq_true, hs] at h
      exact ⟨t, bound, rfl, h.1, h.2⟩

/-- An ended list is the same only as an ended list. -/
theorem sameFrom_none {bound : Nat} {start : Option StmtId}
    (h : sameFrom p q same bound none start = some true) : start = none := by
  cases bound with
  | zero => simp [sameFrom] at h
  | succ bound =>
    cases start with
    | none => rfl
    | some t => simp [sameFrom] at h

/-- Statements that are the same do the same, at the depth that is left. -/
theorem sameStmt_eq_true {depth : Nat} (hs : p.stmts[s]? = some a) (ht : q.stmts[t]? = some b)
    (h : sameStmt p q depth s t = some true) :
    ∃ depth', sameKind p q (sameLists p q (sameStmt p q depth')) a.kind b.kind = some true := by
  cases depth with
  | zero => simp [sameStmt] at h
  | succ depth =>
    rw [sameStmt, hs, ht] at h
    exact ⟨depth, h⟩

end Shape

namespace Program

open Shape

variable {p q : Program}

/-- **Lists that compare as the same** unfold to the same listing. -/
theorem Unfolds.listing_eq {start start' : Option StmtId} {listing listing' : Listing}
    {ids ids' : List StmtId} (hp : p.Unfolds start listing ids)
    (hq : q.Unfolds start' listing' ids') {depth bound : Nat}
    (h : sameFrom p q (sameStmt p q depth) bound start start' = some true) :
    listing = listing' := by
  -- the depth is generalized as well, since bodies are compared at a smaller one
  induction hp generalizing start' listing' ids' depth bound with
  | done =>
    cases sameFrom_none h
    cases hq
    rfl
  | assign hs hkind _ ih =>
    obtain ⟨t, bound', rfl, hsame, hrest⟩ := sameFrom_some hs h
    cases hq with
    | assign ht hkind' hnext =>
      obtain ⟨depth', hkinds⟩ := sameStmt_eq_true hs ht hsame
      rw [ht, Option.bind_some] at hrest
      rw [hkind, hkind'] at hkinds
      simp only [sameKind, Option.some.injEq, Bool.and_eq_true, beq_iff_eq] at hkinds
      rw [hkinds.1, hkinds.2, ih hnext hrest]
    | call ht hkind' | branch ht hkind' | loop ht hkind' =>
      obtain ⟨depth', hkinds⟩ := sameStmt_eq_true hs ht hsame
      simp [hkind, hkind', sameKind] at hkinds
  | call hs hkind hcallee _ ih =>
    obtain ⟨t, bound', rfl, hsame, hrest⟩ := sameFrom_some hs h
    cases hq with
    | call ht hkind' hcallee' hnext =>
      obtain ⟨depth', hkinds⟩ := sameStmt_eq_true hs ht hsame
      rw [ht, Option.bind_some] at hrest
      rw [hkind, hkind'] at hkinds
      simp only [sameKind, hcallee, hcallee', Option.some.injEq, beq_iff_eq] at hkinds
      rw [hkinds, ih hnext hrest]
    | assign ht hkind' | branch ht hkind' | loop ht hkind' =>
      obtain ⟨depth', hkinds⟩ := sameStmt_eq_true hs ht hsame
      simp [hkind, hkind', sameKind] at hkinds
  | branch hs hkind _ _ _ ihThen ihElse ih =>
    obtain ⟨t, bound', rfl, hsame, hrest⟩ := sameFrom_some hs h
    cases hq with
    | branch ht hkind' hthen helse hnext =>
      obtain ⟨depth', hkinds⟩ := sameStmt_eq_true hs ht hsame
      rw [ht, Option.bind_some] at hrest
      rw [hkind, hkind'] at hkinds
      simp only [sameKind, andThen_eq_true, Option.some.injEq, beq_iff_eq] at hkinds
      rw [hkinds.1, ihThen hthen hkinds.2.1, ihElse helse hkinds.2.2, ih hnext hrest]
    | assign ht hkind' | call ht hkind' | loop ht hkind' =>
      obtain ⟨depth', hkinds⟩ := sameStmt_eq_true hs ht hsame
      simp [hkind, hkind', sameKind] at hkinds
  | loop hs hkind _ _ ihBody ih =>
    obtain ⟨t, bound', rfl, hsame, hrest⟩ := sameFrom_some hs h
    cases hq with
    | loop ht hkind' hbody hnext =>
      obtain ⟨depth', hkinds⟩ := sameStmt_eq_true hs ht hsame
      rw [ht, Option.bind_some] at hrest
      rw [hkind, hkind'] at hkinds
      simp only [sameKind, andThen_eq_true, Option.some.injEq, beq_iff_eq] at hkinds
      rw [hkinds.1, ihBody hbody hkinds.2, ih hnext hrest]
    | assign ht hkind' | call ht hkind' | branch ht hkind' =>
      obtain ⟨depth', hkinds⟩ := sameStmt_eq_true hs ht hsame
      simp [hkind, hkind', sameKind] at hkinds

/-- Programs that compare as the same have the same procedures, one by one. -/
theorem forall₂_of_same? (h : p.same? q = some true) :
    List.Forall₂ (fun a b => p.sameProc? q a b = some true) p.procs.toList q.procs.toList := by
  have hfold : ∀ (as bs : List Proc), as.length = bs.length →
      (as.zip bs).foldr (fun pair rest => andThen (p.sameProc? q pair.1 pair.2) rest) (some true) =
        some true →
      List.Forall₂ (fun a b => p.sameProc? q a b = some true) as bs := by
    intro as
    induction as with
    | nil =>
      intro bs hlength _
      rw [List.length_eq_zero_iff.mp hlength.symm]
      exact .nil
    | cons a as ih =>
      intro bs hlength hall
      cases bs with
      | nil => cases hlength
      | cons b bs =>
        rw [List.zip_cons_cons, List.foldr_cons, andThen_eq_true] at hall
        exact .cons hall.1 (ih bs (Nat.succ.inj hlength) hall.2)
  unfold same? at h
  rw [andThen_eq_true, Option.some.injEq, beq_iff_eq] at h
  exact hfold _ _ (by simpa using h.1) h.2

/-- Procedures that compare the same have the same listings, one by one. -/
theorem UnfoldsAll.listings_eq {procs procs' : List Proc} {listings listings' : List ProcListing}
    {ids ids' : List StmtId} (hp : p.UnfoldsAll procs listings ids)
    (hq : q.UnfoldsAll procs' listings' ids')
    (h : List.Forall₂ (fun a b => p.sameProc? q a b = some true) procs procs') :
    listings = listings' := by
  induction hp generalizing procs' listings' ids' with
  | nil =>
    cases h
    cases hq
    rfl
  | cons hbody _ ih =>
    cases h with
    | cons hsame hrest =>
      cases hq with
      | cons hbody' hprocs =>
        unfold sameProc? at hsame
        rw [andThen_eq_true, Option.some.injEq, beq_iff_eq] at hsame
        rw [hsame.1, hbody.listing_eq hbody' hsame.2, ih hprocs hrest]

/-- **Programs that compare as the same** unfold to the same listings. -/
theorem UnfoldsTo.listings_eq {listings listings' : List ProcListing} {ids ids' : List StmtId}
    (hp : p.UnfoldsTo listings ids) (hq : q.UnfoldsTo listings' ids') (h : p.same? q = some true) :
    listings = listings' :=
  UnfoldsAll.listings_eq hp hq (forall₂_of_same? h)

end Program

end ProgramQuery
