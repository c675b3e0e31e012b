import Mathlib.Data.List.TakeWhile
import ProgramQuery.Proofs.ExprMatches

/-!
# What was matched

A match says what stands in the text. What is skipped is a gap, except for a comment that the text
ends in (`gap_skipGap`, `exists_ending`). The match of a sequence is made of matches one after the
other (`run_inOrder_eq_some`), and what holds along each element of a repetition holds along the
repetition (`run_star_induction`). The words and signs that rules match are those of the language
(`keyword_of_matchRule`, `name_of_matchRule`, `integer_of_matchRule`, `sign_of_matchRule`).
-/

set_option autoImplicit false

namespace ProgramQuery

namespace Grammar

open Reading (token gap ending)

variable {c c' : Cursor} {text : List Char} {x : Char}

/-! ## Gaps -/

/-- A blank before a gap belongs to the gap. -/
theorem gap_cons (hx : isBlank x = true) (h : gap ⟨c.pos + x.utf8Size, text⟩ c')
    (hrest : c.rest = x :: text) :
    gap c c' := by
  obtain ⟨blanks, hblanks, hreads⟩ := h
  refine ⟨x :: blanks, .blank hx hblanks, ?_⟩
  have htext : text = blanks ++ c'.rest := hreads.rest_eq
  rw [Cursor.Reads.cons_iff, ← htext]
  exact ⟨hrest, hreads⟩

/-- A comment before a gap belongs to the gap. -/
theorem gap_comment {line : List Char} (hline : '\n' ∉ line)
    (h : gap ⟨c.pos + 2 + byteLength line + 1, text⟩ c')
    (hrest : c.rest = '/' :: '/' :: (line ++ '\n' :: text)) : gap c c' := by
  obtain ⟨blanks, hblanks, hreads⟩ := h
  refine ⟨_, .comment hline hblanks, ?_, ?_⟩
  · rw [hrest, show text = blanks ++ c'.rest from hreads.rest_eq]
    simp
  · rw [hreads.pos_eq]
    simp only [byteLength, byteLength_append, show '/'.utf8Size = 1 from rfl,
      show '\n'.utf8Size = 1 from rfl]
    omega

/-- **What is skipped** is a gap, and after it perhaps a comment that the text ends in. -/
theorem exists_ending (c : Cursor) :
    ∃ c₁, gap c c₁ ∧ ending c₁ (skipGap c) ∧ ((skipGap c).rest ≠ [] → c₁ = skipGap c) := by
  have hself : ∀ c : Cursor, AtToken c →
      ∃ c₁, gap c c₁ ∧ ending c₁ (skipGap c) ∧ ((skipGap c).rest ≠ [] → c₁ = skipGap c) := by
    intro c hc
    rw [hc]
    exact ⟨c, ⟨[], .nil, Cursor.Reads.nil_iff.mpr rfl⟩, Or.inl rfl, fun _ => rfl⟩
  -- by the length of the text: a blank or a whole comment is followed by a shorter one
  induction hlength : c.rest.length using Nat.strongRecOn generalizing c with
  | _ n ih =>
    obtain ⟨pos, rest⟩ := c
    cases rest with
    | nil => exact hself _ (atToken_of_nil rfl)
    | cons x rest =>
      by_cases hblank : isBlank x = true
      · have hskip : skipGap ⟨pos, x :: rest⟩ = skipGap ⟨pos + x.utf8Size, rest⟩ := by
          simp [skipGap, skipGapFrom, hblank]
        obtain ⟨c₁, hgap, hend, heq⟩ :=
          ih rest.length (by simp [← hlength]) ⟨pos + x.utf8Size, rest⟩ rfl
        rw [hskip]
        exact ⟨c₁, gap_cons hblank hgap rfl, hend, heq⟩
      · by_cases hcomment : x = '/' ∧ rest.head? = some '/'
        · obtain ⟨rfl, hhead⟩ := hcomment
          obtain ⟨rest, rfl⟩ := List.head?_eq_some_iff.mp hhead
          have hskip : skipGap ⟨pos, '/' :: '/' :: rest⟩ = skipGapFrom (pos + 2) true rest := by
            simp only [skipGap, skipGapFrom, Bool.false_eq_true, if_false, List.head?_cons]
            rw [show isBlank '/' = false from rfl, show ('/' != '\n') = true from rfl]
            simp [show '/'.utf8Size = 1 from rfl]
          by_cases hline : '\n' ∈ rest
          · obtain ⟨line, text, rfl, hnot⟩ := List.eq_append_cons_of_mem hline
            rw [skipGapFrom_line hnot] at hskip
            obtain ⟨c₁, hgap, hend, heq⟩ := ih text.length (by simp [← hlength]; omega)
              ⟨pos + 2 + byteLength line + 1, text⟩ rfl
            rw [hskip]
            exact ⟨c₁, gap_comment hnot hgap rfl, hend, heq⟩
          · rw [skipGapFrom_lastLine hline] at hskip
            rw [hskip]
            refine ⟨⟨pos, '/' :: '/' :: rest⟩, ⟨[], .nil, Cursor.Reads.nil_iff.mpr rfl⟩,
              Or.inr ⟨rest, hline, by simp, ?_⟩, fun hne => absurd rfl hne⟩
            simp only [byteLength, show '/'.utf8Size = 1 from rfl]
            omega
        · apply hself
          have hslash : (x == '/' && rest.head? == some '/') = false := by
            simpa using hcomment
          simp [AtToken, skipGap, skipGapFrom, hblank, hslash]

/-- In front of more text, what is skipped is a gap. -/
theorem gap_skipGap (h : (skipGap c).rest ≠ []) : gap c (skipGap c) := by
  obtain ⟨c₁, hgap, -, heq⟩ := exists_ending c
  rw [heq h] at hgap
  exact hgap

/-- Where a token that is not empty is read, there is text. -/
theorem rest_ne_nil_of_token {w : String} (hw : w.toList ≠ []) (h : token w c c') :
    c.rest ≠ [] := by
  intro hnil
  have hrest := h.rest_eq
  rw [hnil] at hrest
  exact hw (List.append_eq_nil_iff.mp hrest.symm).1

/-- In front of a token, what is skipped is a gap. -/
theorem gap_of_token {w : String} (hw : w.toList ≠ []) (h : token w (skipGap c) c') :
    gap c (skipGap c) :=
  gap_skipGap (rest_ne_nil_of_token hw h)

/-- A word does not go on after it has ended, so the gap in front of the next one is not empty. -/
theorem apart_of_ends (hends : Ends c) (hgap : gap c c') (hx : c'.rest.head? = some x)
    (hchar : isNameChar x = true) : Reading.apart c c' := by
  obtain ⟨blanks, hblanks, hreads⟩ := hgap
  refine ⟨blanks, ?_, hblanks, hreads⟩
  rintro rfl
  rw [Cursor.Reads.nil_iff.mp hreads] at hends
  rw [hends x hx] at hchar
  cases hchar

/-! ## Patterns -/

section Patterns

variable {ρ : Type} {skip : Cursor → Cursor} {call : ρ → Cursor → Option (Match ρ)}
  {a b : Pattern ρ} {m : Match ρ}

/-- A match of given characters has read them. -/
theorem run_chars_eq_some (h : (Pattern.chars text).run skip call c = some m) :
    c.Reads text m.stop ∧ m.trees = [] := by
  obtain ⟨stop, hstop, rfl⟩ := Option.map_eq_some_iff.mp h
  exact ⟨chars?_eq_some_iff.mp hstop, rfl⟩

/-- A match of one character has read an accepted one. -/
theorem run_char_eq_some {accept : Char → Bool}
    (h : (Pattern.char accept).run skip call c = some m) :
    ∃ x, accept x = true ∧ c.Reads [x] m.stop ∧ m.trees = [] := by
  obtain ⟨stop, hstop, rfl⟩ := Option.map_eq_some_iff.mp h
  obtain ⟨x, hx, hreads⟩ := char?_eq_some_iff.mp hstop
  exact ⟨x, hx, hreads, rfl⟩

/-- A match of a sequence is of its two parts, with a gap skipped between them. -/
theorem run_seq_eq_some (h : (Pattern.seq a b).run skip call c = some m) :
    ∃ first second, a.run skip call c = some first ∧
      b.run skip call (skip first.stop) = some second ∧
      m = ⟨second.stop, first.trees ++ second.trees⟩ := by
  obtain ⟨first, hfirst, h⟩ := Option.bind_eq_some_iff.mp h
  obtain ⟨second, hsecond, rfl⟩ := Option.map_eq_some_iff.mp h
  exact ⟨first, second, hfirst, hsecond, rfl⟩

/-- A match of parts in order is of the first one and then of the others. -/
theorem run_inOrder_eq_some {more : List (Pattern ρ)}
    (h : (inOrder a more).run skip call c = some m) :
    ∃ c₁ ts ts', a.run skip call c = some ⟨c₁, ts⟩ ∧ RunsInOrder skip call more c₁ ts' m.stop ∧
      m.trees = ts ++ ts' := by
  induction more generalizing a with
  | nil => exact ⟨m.stop, m.trees, [], h, .nil, by simp⟩
  | cons b more ih =>
    obtain ⟨c₁, ts, ts', hseq, hmore, htrees⟩ := ih h
    obtain ⟨first, second, hfirst, hsecond, heq⟩ := run_seq_eq_some hseq
    cases heq
    exact ⟨first.stop, first.trees, second.trees ++ ts', hfirst, .cons rfl hsecond hmore,
      by rw [htrees, List.append_assoc]⟩

/-- Matches of parts in order begin with that of the first part, after a gap. -/
theorem RunsInOrder.of_cons {more : List (Pattern ρ)} {ts : List (ParseTree ρ)}
    (h : RunsInOrder skip call (a :: more) c ts c') :
    ∃ m ts', a.run skip call (skip c) = some m ∧ RunsInOrder skip call more m.stop ts' c' ∧
      ts = m.trees ++ ts' := by
  cases h with
  | cons hskip ha hmore =>
    cases hskip
    exact ⟨_, _, ha, hmore, rfl⟩

/-- Without parts, nothing is matched. -/
theorem RunsInOrder.of_nil {ts : List (ParseTree ρ)} (h : RunsInOrder skip call [] c ts c') :
    ts = [] ∧ c = c' := by
  cases h
  exact ⟨rfl, rfl⟩

/-- A negation is matched only where its pattern is not, and takes nothing. -/
theorem run_unless_eq_some (h : (Pattern.unless a).run skip call c = some m) :
    a.run skip call c = none ∧ m = ⟨c, []⟩ := by
  rw [Pattern.run_unless] at h
  split at h
  · next hnone =>
    cases h
    exact ⟨hnone, rfl⟩
  · cases h

/-- If no alternative is taken, none of them matches. -/
theorem run_oneOf_eq_none {more : List (Pattern ρ)} (h : (oneOf a more).run skip call c = none) :
    ∀ b ∈ a :: more, b.run skip call c = none := by
  induction more generalizing a with
  | nil => simpa [oneOf] using h
  | cons b more ih =>
    obtain ⟨halt, hmore⟩ := List.forall_mem_cons.mp (ih h)
    obtain ⟨ha, hb⟩ := Option.or_eq_none_iff.mp halt
    exact List.forall_mem_cons.mpr ⟨ha, List.forall_mem_cons.mpr ⟨hb, hmore⟩⟩

/-- What holds of no repetition, and is kept by one element in front, holds of a repetition. -/
theorem repeatMatch_induction {element : Cursor → Option (Match ρ)}
    {P : Cursor → List (ParseTree ρ) → Cursor → Prop} (nil : ∀ c, P c [] c)
    (cons : ∀ c m ts c', element c = some m → P m.stop ts c' → P c (m.trees ++ ts) c')
    (bound : Nat) (c : Cursor) :
    P c (repeatMatch element bound c).trees (repeatMatch element bound c).stop := by
  induction bound generalizing c with
  | zero => exact nil c
  | succ bound ih =>
    cases helement : element c with
    | none =>
      simp only [repeatMatch, helement]
      exact nil c
    | some m =>
      simp only [repeatMatch, helement]
      exact cons c m _ _ helement (ih m.stop)

/-- **Induction on a repetition**: what passes from the end of an element to its beginning holds
from the beginning of the repetition. The repetition may have taken the gap after it, so its end is
known up to that gap. -/
theorem run_star_induction (hskip : ∀ c, skip (skip c) = skip c)
    {P : Cursor → List (ParseTree ρ) → Cursor → Prop} (nil : ∀ c, P c [] c)
    (cons : ∀ c m ts c', a.run skip call (skip c) = some m → P m.stop ts c' →
      P c (m.trees ++ ts) c')
    (h : (Pattern.star a).run skip call (skip c) = some m) :
    ∃ stop, P c m.trees stop ∧ skip m.stop = skip stop := by
  rw [Pattern.run_star] at h
  split at h
  · cases h
    exact ⟨c, nil c, hskip c⟩
  · next first hfirst =>
    cases h
    exact ⟨_, cons c first _ _ hfirst (repeatMatch_induction nil cons _ _), rfl⟩

/-- A repetition of characters takes all there are. -/
theorem run_star_char_eq_some {accept : Char → Bool}
    (h : (Pattern.star (.char accept)).run id call c = some m) :
    ∃ text, c.Reads text m.stop ∧ (∀ x ∈ text, accept x = true) ∧
      (∀ x, m.stop.rest.head? = some x → accept x = false) ∧ m.trees = [] := by
  have hreads : c.Reads (c.rest.takeWhile accept)
      ⟨c.pos + byteLength (c.rest.takeWhile accept), c.rest.dropWhile accept⟩ :=
    ⟨List.takeWhile_append_dropWhile.symm, rfl⟩
  have htext : ∀ x ∈ c.rest.takeWhile accept, accept x = true :=
    fun x hx => List.mem_takeWhile_imp hx
  have hend : ∀ x, (c.rest.dropWhile accept).head? = some x → accept x = false := by
    intro x hx
    have hhead := List.head?_dropWhile_not accept c.rest
    rw [hx] at hhead
    simpa using hhead
  have hrun : (Pattern.star (.char accept)).run id call c = some ⟨_, []⟩ :=
    run_star_char hreads htext hend
  cases hrun.symm.trans h
  exact ⟨_, hreads, htext, hend, rfl⟩

end Patterns

/-! ## Words -/

section Words

variable {call : Rule → Cursor → Option (Match Rule)} {letters : Pattern Rule} {m : Match Rule}
  {depth : Nat} {r : Rule} {rank : Rank}

/-- A match of a rule is of its pattern, with a tree for it unless the rule is silent. -/
theorem matchRule_eq_some (h : simple.matchRule depth false r c = some m) :
    ∃ d m', depth = d + 1 ∧
      r.pattern.run (if r.isAtomic then id else skipGap) (simple.matchRule d r.isAtomic) c =
        some m' ∧
      m = if !r.isSilent then ⟨m'.stop, [.ofMatch r c m'.stop m'.trees]⟩ else m' := by
  cases depth with
  | zero => cases h
  | succ d =>
    rw [matchRule_succ] at h
    obtain ⟨m', hm', heq⟩ := Option.map_eq_some_iff.mp h
    exact ⟨d, m', rfl, hm', heq.symm⟩

/-- A match of a silent rule is of its pattern. -/
theorem matchRule_silent_eq_some (hatomic : r.isAtomic = false) (hsilent : r.isSilent = true)
    (h : simple.matchRule (depth + 1) false r c = some m) :
    r.pattern.run skipGap (simple.matchRule depth false) c = some m := by
  simpa [matchRule_succ, hatomic, hsilent] using h

/-- A match of a labelled rule is of its pattern, with one tree for the rule. -/
theorem matchRule_branch_eq_some (hatomic : r.isAtomic = false) (hsilent : r.isSilent = false)
    (h : simple.matchRule (depth + 1) false r c = some m) :
    ∃ ts, r.pattern.run skipGap (simple.matchRule depth false) c = some ⟨m.stop, ts⟩ ∧
      m.trees = [.ofMatch r c m.stop ts] := by
  rw [matchRule_succ, hatomic, hsilent] at h
  obtain ⟨m', hm', rfl⟩ := Option.map_eq_some_iff.mp h
  exact ⟨m'.trees, hm', rfl⟩

/-- A rule that shows as a tree and has none inside shows as its text. -/
theorem leaf_of_match {m' : Match Rule} {w : String} (hsilent : r.isSilent = false)
    (hm : m = if !r.isSilent then ⟨m'.stop, [.ofMatch r c m'.stop m'.trees]⟩ else m')
    (htrees : m'.trees = []) (h : token w c m'.stop) :
    m = ⟨m'.stop, [.leaf r ⟨c.pos, m'.stop.pos⟩ w]⟩ := by
  simpa [hsilent, htrees, ParseTree.ofMatch, h.takeBytes_eq] using hm

/-- A match of a word is of its letters, and no name goes on after it. -/
theorem run_wordPattern_eq_some (h : (wordPattern letters).run id call c = some m) :
    letters.run id call c = some m ∧ Ends m.stop := by
  obtain ⟨first, second, hfirst, hsecond, rfl⟩ := run_seq_eq_some h
  obtain ⟨hnone, rfl⟩ := run_unless_eq_some hsecond
  rw [List.append_nil]
  exact ⟨hfirst, char?_eq_none_iff.mp (Option.map_eq_none_iff.mp hnone)⟩

/-- A match of a given word has read it as a token, and no name goes on after it. -/
theorem run_word_eq_some {w : String} (h : (word w).run id call c = some m) :
    token w c m.stop ∧ Ends m.stop ∧ m.trees = [] := by
  obtain ⟨hletters, hends⟩ := run_wordPattern_eq_some h
  obtain ⟨hreads, htrees⟩ := run_chars_eq_some hletters
  exact ⟨hreads, hends, htrees⟩

/-- A match of a keyword has read one of its spellings, and no name goes on after it. -/
theorem run_keyword_eq_some (hr : r.spellings ≠ []) (h : r.pattern.run id call c = some m) :
    ∃ w ∈ r.spellings, token w c m.stop ∧ Ends m.stop ∧ m.trees = [] := by
  cases r with
  | kwProc =>
    obtain ⟨hletters, hends⟩ := run_wordPattern_eq_some h
    rcases Option.or_eq_some_iff.mp hletters with hlong | ⟨-, hshort⟩
    · obtain ⟨hreads, htrees⟩ := run_chars_eq_some hlong
      exact ⟨"procedure", by decide, hreads, hends, htrees⟩
    · obtain ⟨hreads, htrees⟩ := run_chars_eq_some hshort
      exact ⟨"proc", by decide, hreads, hends, htrees⟩
  | kwCall | kwWhile | kwIf | kwThen | kwElse => exact ⟨_, List.mem_cons_self, run_word_eq_some h⟩
  | _ => exact absurd rfl hr

/-- **A keyword rule** matches one of its spellings as a whole word. -/
theorem keyword_of_matchRule (hr : r.spellings ≠ [])
    (h : simple.matchRule depth false r c = some m) :
    ∃ w ∈ r.spellings, token w c m.stop ∧ Ends m.stop ∧
      m.trees = [.leaf r ⟨c.pos, m.stop.pos⟩ w] := by
  obtain ⟨d, m', -, hrun, hm⟩ := matchRule_eq_some h
  obtain ⟨hatomic, hsilent⟩ := isAtomic_of_spelling hr
  rw [hatomic] at hrun
  obtain ⟨w, hw, hreads, hends, htrees⟩ := run_keyword_eq_some hr hrun
  rw [leaf_of_match hsilent hm htrees hreads]
  exact ⟨w, hw, hreads, hends, rfl⟩

/-- Where no keyword is matched, there is none. -/
theorem not_keyword_of_run (h : anyKeyword.run id call c = none) {w : String}
    (hreads : token w c c') (hends : Ends c') : w ∉ keywords := by
  have hnone := run_oneOf_eq_none h
  have hkeyword : ∀ r : Rule,
      r.pattern ∈ [procWord, word "call", word "while", word "if", word "then",
      word "else"] → w ∉ r.spellings := by
    intro r hr hw
    have hsome : r.pattern.run id call c = some ⟨c', []⟩ := run_keyword hw hreads hends
    rw [hnone _ hr] at hsome
    cases hsome
  have hproc := hkeyword .kwProc (by simp [Rule.pattern])
  have hcall := hkeyword .kwCall (by simp [Rule.pattern])
  have hwhile := hkeyword .kwWhile (by simp [Rule.pattern])
  have hif := hkeyword .kwIf (by simp [Rule.pattern])
  have hthen := hkeyword .kwThen (by simp [Rule.pattern])
  have helse := hkeyword .kwElse (by simp [Rule.pattern])
  simp only [Rule.spellings, List.mem_cons, List.not_mem_nil, or_false, not_or] at *
  simp only [keywords, List.mem_cons, List.not_mem_nil, or_false, not_or]
  exact ⟨hproc.1, hproc.2, hcall, hwhile, hif, hthen, helse⟩

/-- **The rule of names** matches a name as a whole word. -/
theorem name_of_matchRule (h : simple.matchRule depth false .name c = some m) :
    ∃ w, Reading.name w c m.stop ∧ Ends m.stop ∧ m.trees = [.leaf .name ⟨c.pos, m.stop.pos⟩ w] := by
  obtain ⟨d, m', -, hrun, hm⟩ := matchRule_eq_some h
  obtain ⟨m₁, m₂, hfirst, hmore, rfl⟩ := run_seq_eq_some hrun
  obtain ⟨m₀, m₁, hunless, hletter, rfl⟩ := run_seq_eq_some hfirst
  obtain ⟨hkeyword, rfl⟩ := run_unless_eq_some hunless
  obtain ⟨first, hfirst, hreadsFirst, hnone⟩ := run_char_eq_some hletter
  obtain ⟨more, hreads, hmore, hends, hnone'⟩ := run_star_char_eq_some hmore
  have htoken : token (String.ofList (first :: more)) c m₂.stop := by
    rw [token, String.toList_ofList]
    exact hreadsFirst.trans hreads
  rw [leaf_of_match rfl hm (by simp [hnone, hnone']) htoken]
  exact ⟨_, ⟨⟨⟨first, more, String.toList_ofList, hfirst, hmore⟩,
    not_keyword_of_run hkeyword htoken hends⟩, htoken⟩, hends, rfl⟩

/-- **The rule of literals** matches digits. -/
theorem integer_of_matchRule (h : simple.matchRule depth false .integer c = some m) :
    ∃ w : String, w.toList ≠ [] ∧ (∀ x ∈ w.toList, isDigit x = true) ∧ token w c m.stop ∧
      m.trees = [.leaf .integer ⟨c.pos, m.stop.pos⟩ w] := by
  obtain ⟨d, m', -, hrun, hm⟩ := matchRule_eq_some h
  obtain ⟨m₁, m₂, hfirst, hmore, rfl⟩ := run_seq_eq_some hrun
  obtain ⟨first, hdigit, hreadsFirst, hnone⟩ := run_char_eq_some hfirst
  obtain ⟨more, hreads, hdigits, -, hnone'⟩ := run_star_char_eq_some hmore
  have htoken : token (String.ofList (first :: more)) c m₂.stop := by
    rw [token, String.toList_ofList]
    exact hreadsFirst.trans hreads
  rw [leaf_of_match rfl hm (by simp [hnone, hnone']) htoken]
  refine ⟨_, by simp, ?_, htoken, rfl⟩
  rw [String.toList_ofList]
  exact List.forall_mem_cons.mpr ⟨hdigit, hdigits⟩

/-- **The rules of signs** match the operators of their rank. -/
theorem sign_of_matchRule (hrank : rank ≠ .factor)
    (h : simple.matchRule depth false rank.signRule c = some m) :
    ∃ op : Operator, op.rank = rank ∧ token op.symbol c m.stop ∧
      m.trees = [.leaf rank.signRule ⟨c.pos, m.stop.pos⟩ op.symbol] := by
  obtain ⟨d, m', -, hrun, hm⟩ := matchRule_eq_some h
  have hsign : ∃ op : Operator, op.rank = rank ∧ token op.symbol c m'.stop ∧ m'.trees = [] := by
    cases rank with
    | sum =>
      rcases Option.or_eq_some_iff.mp hrun with hplus | ⟨-, hminus⟩
      · exact ⟨.plus, rfl, run_chars_eq_some hplus⟩
      · exact ⟨.minus, rfl, run_chars_eq_some hminus⟩
    | product => exact ⟨.times, rfl, run_chars_eq_some hrun⟩
    | factor => exact absurd rfl hrank
  have hsilent : rank.signRule.isSilent = false := by
    cases rank <;> rfl
  obtain ⟨op, hop, htoken, htrees⟩ := hsign
  rw [leaf_of_match hsilent hm htrees htoken]
  exact ⟨op, hop, htoken, rfl⟩

end Words

end Grammar

end ProgramQuery
