import ProgramQuery.Proofs.WrittenSource

/-!
# Matching tokens

What the rules of gaps, words and signs match, in terms of what is written.
-/

set_option autoImplicit false

namespace ProgramQuery

namespace Grammar

variable {c c' : Cursor} {text : List Char} {x : Char}

/-! ## Gaps -/

/-- No word goes on at the place. -/
def Ends (c : Cursor) : Prop := ∀ x, c.rest.head? = some x → isNameChar x = false

/-- The place is not in front of a gap. -/
def AtToken (c : Cursor) : Prop := skipGap c = c

/-- A character that is no blank and no slash begins a token. -/
theorem atToken_of_head? (h : c.rest.head? = some x) (hx : isBlank x = false) (hslash : x ≠ '/') :
    AtToken c := by
  obtain ⟨pos, rest⟩ := c
  cases rest with
  | nil => simp at h
  | cons y rest =>
    cases h
    simp [AtToken, skipGap, skipGapFrom, hx, hslash]

/-- A character of a name begins a token. -/
theorem atToken_of_nameChar (h : c.rest.head? = some x) (hx : isNameChar x = true) : AtToken c := by
  apply atToken_of_head? h
  · apply Bool.eq_false_iff.mpr
    intro hblank
    simp only [isBlank, Bool.or_eq_true, beq_iff_eq] at hblank
    rcases hblank with ((rfl | rfl) | rfl) | rfl <;> exact absurd hx (by decide)
  · rintro rfl
    exact absurd hx (by decide)

/-- The end of the text is no gap. -/
theorem atToken_of_nil (h : c.rest = []) : AtToken c := by
  obtain ⟨pos, rest⟩ := c
  cases h
  rfl

/-- A comment is skipped with the end of its line. -/
theorem skipGapFrom_line {pos : Nat} {line rest : List Char} (hline : '\n' ∉ line) :
    skipGapFrom pos true (line ++ '\n' :: rest) =
      skipGapFrom (pos + byteLength line + 1) false rest := by
  induction line generalizing pos with
  | nil => simp [skipGapFrom, byteLength, show '\n'.utf8Size = 1 from rfl]
  | cons x line ih =>
    rw [List.mem_cons, not_or] at hline
    simp only [List.cons_append, skipGapFrom, if_true, byteLength]
    rw [show (x != '\n') = true from by simpa using Ne.symm hline.1, ih hline.2]
    congr 2
    omega

/-- A gap is skipped with whatever comes after it. -/
theorem skipGapFrom_isGap {pos : Nat} {rest : List Char} (h : IsGap text) :
    skipGapFrom pos false (text ++ rest) = skipGapFrom (pos + byteLength text) false rest := by
  induction h generalizing pos with
  | nil => rfl
  | @blank x text hx h ih => simp only [List.cons_append, skipGapFrom, hx, if_true, byteLength, ih,
      Bool.false_eq_true, if_false, Nat.add_assoc]
  | @comment line text hline h ih =>
    have hcons : '/' :: '/' :: (line ++ '\n' :: text) ++ rest =
        '/' :: '/' :: (line ++ '\n' :: (text ++ rest)) := by simp
    rw [hcons]
    simp only [skipGapFrom, Bool.false_eq_true, if_false, List.head?_cons]
    rw [show isBlank '/' = false from rfl, show ('/' != '\n') = true from rfl,
      skipGapFrom_line hline, ih]
    simp [byteLength, byteLength_append, show '/'.utf8Size = 1 from rfl,
      show '\n'.utf8Size = 1 from rfl]
    congr 1
    omega

/-- Places that a gap is between lead to the same token. -/
theorem skipGap_eq_of_gap (h : Reading.gap c c') : skipGap c = skipGap c' := by
  obtain ⟨text, htext, hreads⟩ := h
  unfold skipGap
  rw [hreads.rest_eq, skipGapFrom_isGap htext, hreads.pos_eq]

/-- A gap ends where a token begins. -/
theorem skipGap_eq (h : Reading.gap c c') (htoken : AtToken c') : skipGap c = c' :=
  (skipGap_eq_of_gap h).trans htoken

/-- After a gap was skipped, there is none left to skip. -/
theorem skipGap_idem (c : Cursor) : skipGap (skipGap c) = skipGap c := by
  have hfrom : ∀ (rest : List Char) (pos : Nat) (commented : Bool),
      skipGap (skipGapFrom pos commented rest) = skipGapFrom pos commented rest := by
    intro rest
    induction rest with
    | nil => intro pos commented; rfl
    | cons x rest ih =>
      intro pos commented
      rw [skipGapFrom]
      split
      · exact ih _ _
      · split
        · exact ih _ _
        · split
          · exact ih _ _
          · next hcommented hblank hslash => simp [skipGap, skipGapFrom, hblank, hslash]
  exact hfrom c.rest c.pos false

/-- Skipping a gap leaves no more text than there was. -/
theorem length_skipGap_le (c : Cursor) : (skipGap c).rest.length ≤ c.rest.length := by
  have hfrom : ∀ (rest : List Char) (pos : Nat) (commented : Bool),
      (skipGapFrom pos commented rest).rest.length ≤ rest.length := by
    intro rest
    induction rest with
    | nil => intro pos commented; simp [skipGapFrom]
    | cons x rest ih =>
      intro pos commented
      have hrest : ∀ pos commented,
          (skipGapFrom pos commented rest).rest.length ≤ (x :: rest).length :=
        fun pos commented => Nat.le_succ_of_le (ih pos commented)
      rw [skipGapFrom]
      split
      · exact hrest _ _
      · split
        · exact hrest _ _
        · split
          · exact hrest _ _
          · exact Nat.le_refl _
  exact hfrom c.rest c.pos false

/-- A gap begins with no character of a name. -/
theorem isGap_head {text : List Char} (h : IsGap (x :: text)) : isNameChar x = false := by
  cases h with
  | blank hx h =>
    simp only [isBlank, Bool.or_eq_true, beq_iff_eq] at hx
    rcases hx with ((rfl | rfl) | rfl) | rfl <;> rfl
  | comment hline h => rfl

/-- Where words are kept apart, no word goes on. -/
theorem ends_of_apart (h : Reading.apart c c') : Ends c := by
  obtain ⟨text, hne, htext, hreads⟩ := h
  cases text with
  | nil => exact absurd rfl hne
  | cons x text =>
    intro y hy
    rw [hreads.head?_eq] at hy
    cases hy
    exact isGap_head htext

/-- Before a gap, no word goes on if none does after it. -/
theorem ends_of_gap (h : Reading.gap c c') (hends : Ends c') : Ends c := by
  obtain ⟨text, htext, hreads⟩ := h
  cases text with
  | nil => rwa [Cursor.Reads.nil_iff.mp hreads]
  | cons x text => exact ends_of_apart ⟨x :: text, by simp, htext, hreads⟩

/-- The next character is known, and it is not one of those in question. -/
theorem refused_of_head? {accept : Char → Bool} (h : c.rest.head? = some x)
    (hx : accept x = false) :
    ∀ y, c.rest.head? = some y → accept y = false := by
  intro y hy
  rw [h] at hy
  cases hy
  exact hx

/-- Before a character that is not of a name, no word goes on. -/
theorem ends_of_head? (h : c.rest.head? = some x) (hx : isNameChar x = false) : Ends c :=
  refused_of_head? h hx

/-- A comment without an end of its line is skipped up to the end of the text. -/
theorem skipGapFrom_lastLine {pos : Nat} {line : List Char} (hline : '\n' ∉ line) :
    skipGapFrom pos true line = ⟨pos + byteLength line, []⟩ := by
  induction line generalizing pos with
  | nil => rfl
  | cons x line ih =>
    rw [List.mem_cons, not_or] at hline
    simp only [skipGapFrom, if_true]
    rw [show (x != '\n') = true from by simpa using Ne.symm hline.1, ih hline.2, byteLength]
    congr 1
    omega

/-- What may end a text is skipped up to its end. -/
theorem skipGap_ending (h : Reading.ending c c') (hend : c'.rest = []) : skipGap c = c' := by
  rcases h with rfl | ⟨line, hline, hreads⟩
  · exact atToken_of_nil hend
  · obtain ⟨pos', rest'⟩ := c'
    obtain ⟨pos, rest⟩ := c
    obtain ⟨hrest, hpos⟩ := hreads
    cases hend
    simp only [List.append_nil] at hrest hpos
    subst hrest hpos
    simp only [skipGap, skipGapFrom, Bool.false_eq_true, if_false, List.head?_cons]
    rw [show isBlank '/' = false from rfl, show ('/' != '\n') = true from rfl,
      skipGapFrom_lastLine hline]
    simp [byteLength, show '/'.utf8Size = 1 from rfl]
    omega

/-! ## Characters -/

/-- A character is taken if it is accepted and comes next. -/
theorem char?_eq_some_iff {accept : Char → Bool} :
    c.char? accept = some c' ↔ ∃ x, accept x = true ∧ c.Reads [x] c' := by
  unfold Cursor.char?
  constructor
  · intro h
    split at h
    · cases h
    · next x rest hrest =>
      split at h
      · next hx =>
        cases h
        exact ⟨x, hx, hrest, by simp [Cursor.advance, byteLength]⟩
      · cases h
  · rintro ⟨x, hx, hreads⟩
    obtain ⟨hrest, hreads⟩ := Cursor.Reads.cons_iff.mp hreads
    rw [hrest, ← Cursor.Reads.nil_iff.mp hreads]
    simp [hx, Cursor.advance]

/-- No character is taken if none comes next or the next one is not accepted. -/
theorem char?_eq_none_iff {accept : Char → Bool} :
    c.char? accept = none ↔ ∀ x, c.rest.head? = some x → accept x = false := by
  unfold Cursor.char?
  cases c.rest with
  | nil => simp
  | cons x rest => simp

/-- Given characters are taken if they come next. -/
theorem chars?_eq_some_iff : c.chars? text = some c' ↔ c.Reads text c' := by
  induction text generalizing c with
  | nil => simp [Cursor.chars?, Cursor.Reads.nil_iff]
  | cons x text ih =>
    rw [Cursor.chars?, Option.bind_eq_some_iff, Cursor.Reads.cons_iff]
    constructor
    · rintro ⟨c₁, hchar, hchars⟩
      obtain ⟨y, hy, hreads⟩ := char?_eq_some_iff.mp hchar
      cases eq_of_beq hy
      have hreads' := ih.mp hchars
      exact Cursor.Reads.cons_iff.mp (hreads.trans hreads')
    · rintro ⟨hrest, hreads⟩
      refine ⟨_, char?_eq_some_iff.mpr ⟨x, by simp, ?_⟩, ih.mpr hreads⟩
      exact Cursor.Reads.cons_iff.mpr ⟨hrest, Cursor.Reads.nil_iff.mpr rfl⟩

/-! ## Patterns -/

namespace Pattern

variable {ρ : Type} {skip : Cursor → Cursor} {call : ρ → Cursor → Option (Match ρ)}
  {a b : Pattern ρ}

/-- Running given characters takes them. -/
@[simp]
theorem run_chars : (chars text).run skip call c = (c.chars? text).map (⟨·, []⟩) := rfl

/-- Running a test for a character takes a character that passes. -/
@[simp]
theorem run_char {accept : Char → Bool} :
    (char accept).run skip call c = (c.char? accept).map (⟨·, []⟩) := rfl

/-- Running a rule calls it. -/
@[simp]
theorem run_rule {r : ρ} : (rule r).run skip call c = call r c := rfl

/-- Running a sequence runs the second part after the first one and a gap. -/
@[simp]
theorem run_seq : (seq a b).run skip call c =
    (a.run skip call c).bind fun first =>
      (b.run skip call (skip first.stop)).map fun second =>
        ⟨second.stop, first.trees ++ second.trees⟩ := rfl

/-- Running alternatives runs the second one if the first one does not match. -/
@[simp]
theorem run_alt : (alt a b).run skip call c = (a.run skip call c).or (b.run skip call c) := rfl

/-- Running an option takes nothing if its pattern does not match. -/
@[simp]
theorem run_opt : (opt a).run skip call c = (a.run skip call c).or (some ⟨c, []⟩) := rfl

/-- Running a repetition runs its element once, and then again after gaps while it matches. -/
@[simp]
theorem run_star : (star a).run skip call c =
    match a.run skip call c with
    | none => some ⟨c, []⟩
    | some first =>
      let more := repeatMatch (fun c => a.run skip call (skip c)) first.stop.rest.length first.stop
      some ⟨more.stop, first.trees ++ more.trees⟩ := rfl

/-- Running a negation takes nothing, and fails where its pattern matches. -/
@[simp]
theorem run_unless : (Pattern.unless a).run skip call c =
    match a.run skip call c with
    | none => some ⟨c, []⟩
    | some _ => none := rfl

end Pattern

/-! ## Repetitions -/

section Repetitions

variable {ρ : Type} {element : Cursor → Option (Match ρ)} {ts ts' : List (ParseTree ρ)}
  {skip : Cursor → Cursor} {call : ρ → Cursor → Option (Match ρ)} {a : Pattern ρ}

/-- Elements are matched one after the other, each of them with at least one character. -/
inductive Repeats (element : Cursor → Option (Match ρ)) :
    Cursor → List (ParseTree ρ) → Cursor → Prop
  | nil {c : Cursor} : Repeats element c [] c
  | cons {c c' : Cursor} {m : Match ρ} {ts : List (ParseTree ρ)} : element c = some m →
      m.stop.rest.length < c.rest.length → Repeats element m.stop ts c' →
      Repeats element c (m.trees ++ ts) c'

/-- A repetition may go on with one more element. -/
theorem Repeats.snoc {m : Match ρ} (h : Repeats element c ts c') (hm : element c' = some m)
    (hlt : m.stop.rest.length < c'.rest.length) : Repeats element c (ts ++ m.trees) m.stop := by
  induction h with
  | nil =>
    rw [List.nil_append, ← List.append_nil m.trees]
    exact .cons hm hlt .nil
  | cons hfirst hltFirst _ ih =>
    rw [List.append_assoc]
    exact .cons hfirst hltFirst (ih hm hlt)

/-- A repetition that ends where no element follows is matched as a whole, if it is given a chance
for each character. -/
theorem Repeats.repeatMatch_eq (h : Repeats element c ts c') (hend : element c' = none) :
    ∀ bound, c.rest.length ≤ bound → repeatMatch element bound c = ⟨c', ts⟩ := by
  induction h with
  | nil =>
    intro bound _
    cases bound <;> simp [repeatMatch, hend]
  | cons hfirst hlt _ ih =>
    intro bound hbound
    cases bound with
    | zero => omega
    | succ bound => simp [repeatMatch, hfirst, ih hend bound (by omega)]

/-- Patterns are matched one after the other, each after a gap. -/
inductive RunsInOrder (skip : Cursor → Cursor) (call : ρ → Cursor → Option (Match ρ)) :
    List (Pattern ρ) → Cursor → List (ParseTree ρ) → Cursor → Prop
  | nil {c : Cursor} : RunsInOrder skip call [] c [] c
  | cons {a : Pattern ρ} {more : List (Pattern ρ)} {c c₁ c₂ c' : Cursor}
      {ts ts' : List (ParseTree ρ)} :
      skip c = c₁ → a.run skip call c₁ = some ⟨c₂, ts⟩ → RunsInOrder skip call more c₂ ts' c' →
      RunsInOrder skip call (a :: more) c (ts ++ ts') c'

/-- Parts in order are matched if the first one is, and then the others after it. -/
theorem run_inOrder {more : List (Pattern ρ)} {c₁ : Cursor} (ha : a.run skip call c = some ⟨c₁, ts⟩)
    (h : RunsInOrder skip call more c₁ ts' c') :
    (inOrder a more).run skip call c = some ⟨c', ts ++ ts'⟩ := by
  induction h generalizing a ts with
  | nil => simpa [inOrder] using ha
  | @cons b more c₁ c₂ c₃ c' ts₁ ts₂ hskip hb _ ih =>
    have hseq : (Pattern.seq a b).run skip call c = some ⟨c₃, ts ++ ts₁⟩ := by
      simp [ha, hskip, hb]
    rw [← List.append_assoc]
    exact ih hseq

/-- A rule is matched as it is called. -/
theorem run_rule {r : ρ} {result : Option (Match ρ)} (h : call r c = result) :
    (Pattern.rule r).run skip call c = result := h

/-- The first alternative is taken where it matches. -/
theorem run_alt_left {b : Pattern ρ} {m : Match ρ} (h : a.run skip call c = some m) :
    (Pattern.alt a b).run skip call c = some m := by
  simp [h]

/-- The second alternative is tried where the first one does not match. -/
theorem run_alt_right {b : Pattern ρ} (h : a.run skip call c = none) :
    (Pattern.alt a b).run skip call c = b.run skip call c := by
  simp [h]

/-- A negation is matched where its pattern is not. -/
theorem run_unless (h : a.run skip call c = none) :
    (Pattern.unless a).run skip call c = some ⟨c, []⟩ := by
  simp [h]

/-- Parts in order are not matched where the first one is not. -/
theorem run_inOrder_eq_none {more : List (Pattern ρ)} (h : a.run skip call c = none) :
    (inOrder a more).run skip call c = none := by
  induction more generalizing a with
  | nil => exact h
  | cons b more ih => exact ih (by simp [h])

/-- A repetition takes all elements. If there are none, the gap in front of it is not given back. -/
theorem run_star (h : Repeats (fun c => a.run skip call (skip c)) c ts c')
    (hend : a.run skip call (skip c') = none) :
    ∃ stop, (Pattern.star a).run skip call (skip c) = some ⟨stop, ts⟩ ∧
      (stop = c' ∨ stop = skip c') := by
  cases h with
  | nil => exact ⟨skip c, by simp [hend], Or.inr rfl⟩
  | cons hfirst _ hmore =>
    have hall := hmore.repeatMatch_eq hend _ (Nat.le_refl _)
    exact ⟨c', by simp [hfirst, hall], Or.inl rfl⟩

/-- Characters that come next are matched. -/
theorem run_chars (h : c.Reads text c') : (Pattern.chars text).run skip call c = some ⟨c', []⟩ := by
  simp [chars?_eq_some_iff.mpr h]

/-- Characters of which the first does not come next are not matched. -/
theorem run_chars_eq_none (h : c.rest.head? ≠ some x) :
    (Pattern.chars (x :: text)).run skip call c = none := by
  have hchar : c.char? (· == x) = none := by
    apply char?_eq_none_iff.mpr
    intro y hy
    apply beq_eq_false_iff_ne.mpr
    rintro rfl
    exact h hy
  simp [Cursor.chars?, hchar]

/-- An accepted character that comes next is matched. -/
theorem run_char {accept : Char → Bool} (hx : accept x = true) (h : c.Reads [x] c') :
    (Pattern.char accept).run skip call c = some ⟨c', []⟩ := by
  simp [char?_eq_some_iff.mpr ⟨x, hx, h⟩]

/-- Elements, at least one of them, from a place that is not in front of a gap. -/
theorem run_atLeastOnce (h : Repeats (fun c => a.run skip call (skip c)) c ts c') (hne : ts ≠ [])
    (hskip : skip c = c) (hend : a.run skip call (skip c') = none) :
    ∃ stop, (atLeastOnce a).run skip call c = some ⟨stop, ts⟩ ∧ (stop = c' ∨ stop = skip c') := by
  cases h with
  | nil => exact absurd rfl hne
  | @cons _ _ m ts hfirst _ hmore =>
    rw [hskip] at hfirst
    obtain ⟨stop, hrun, hstop⟩ := run_star hmore hend
    refine ⟨stop, ?_, hstop⟩
    have hall := run_inOrder hfirst (.cons rfl hrun .nil)
    rwa [List.append_nil] at hall

/-- Characters of a class, as many as come. -/
theorem run_star_char {accept : Char → Bool} (h : c.Reads text c')
    (htext : ∀ x ∈ text, accept x = true) (hend : ∀ x, c'.rest.head? = some x → accept x = false) :
    (Pattern.star (.char accept)).run id call c = some ⟨c', []⟩ := by
  have hrepeats : Repeats (fun c => (Pattern.char accept).run id call (id c)) c [] c' := by
    induction text generalizing c with
    | nil =>
      rw [Cursor.Reads.nil_iff.mp h]
      exact .nil
    | cons x text ih =>
      obtain ⟨hrest, hreads⟩ := Cursor.Reads.cons_iff.mp h
      have hchar : (Pattern.char accept).run id call c = some ⟨c.advance x (text ++ c'.rest), []⟩ :=
        run_char (htext x List.mem_cons_self)
          (Cursor.Reads.cons_iff.mpr ⟨hrest, Cursor.Reads.nil_iff.mpr rfl⟩)
      refine .cons hchar ?_ (ih hreads fun y hy => htext y (List.mem_cons_of_mem x hy))
      simp [hrest, Cursor.advance]
  have hlast : (Pattern.char accept).run id call (id c') = none := by
    simp [char?_eq_none_iff.mpr hend]
  obtain ⟨stop, hrun, hstop⟩ := run_star hrepeats hlast
  rw [hstop.elim id id] at hrun
  exact hrun

end Repetitions

/-! ## Words -/

/-- The name characters that come next. -/
def wordAt (c : Cursor) : List Char := c.rest.takeWhile isNameChar

/-- Characters of a name that are read up to where no word goes on are the word there. -/
theorem wordAt_eq (h : c.Reads text c') (htext : ∀ x ∈ text, isNameChar x = true)
    (hends : Ends c') :
    wordAt c = text := by
  have hnil : c'.rest.takeWhile isNameChar = [] := by
    cases hrest : c'.rest with
    | nil => rfl
    | cons x rest => simp [List.takeWhile, hends x (by simp [hrest])]
  rw [wordAt, h.rest_eq, List.takeWhile_append_of_pos htext, hnil, List.append_nil]

section Words

variable {call : Rule → Cursor → Option (Match Rule)} {letters : Pattern Rule} {m : Match Rule}
  {depth : Nat} {r : Rule} {w : String}

/-- A word is matched by its letters where no name goes on after them. -/
theorem run_wordPattern (h : letters.run id call c = some m) (hends : Ends m.stop) :
    (wordPattern letters).run id call c = some m := by
  have hnone : m.stop.char? isNameChar = none := char?_eq_none_iff.mpr hends
  simp [wordPattern, h, hnone]

/-- A word is not matched where the letters that it would take are not the whole word there. -/
theorem run_wordPattern_eq_none (h : ∀ m, letters.run id call c = some m →
      ∃ text, c.Reads text m.stop ∧ (∀ x ∈ text, isNameChar x = true) ∧ wordAt c ≠ text) :
    (wordPattern letters).run id call c = none := by
  cases hm : letters.run id call c with
  | none => simp [wordPattern, hm]
  | some m =>
    obtain ⟨text, hreads, htext, hne⟩ := h m hm
    -- the letters are there, so the word must go on after them
    have hon : m.stop.char? isNameChar ≠ none := by
      intro hnone
      exact hne (wordAt_eq hreads htext (char?_eq_none_iff.mp hnone))
    obtain ⟨c', hc'⟩ := Option.ne_none_iff_exists'.mp hon
    simp [wordPattern, hm, hc']

/-- How the word of a keyword rule is spelled. -/
def Rule.spellings : Rule → List String
  | .kwProc => ["procedure", "proc"]
  | .kwCall => ["call"]
  | .kwWhile => ["while"]
  | .kwIf => ["if"]
  | .kwThen => ["then"]
  | .kwElse => ["else"]
  | _ => []

/-- The spellings of keywords have only characters of names. -/
theorem spellings_letters (r : Rule) : ∀ w ∈ r.spellings, ∀ x ∈ w.toList, isNameChar x = true := by
  have hall : (r.spellings.all fun w => w.toList.all isNameChar) = true := by
    cases r <;> decide
  intro w hw
  exact List.all_eq_true.mp (List.all_eq_true.mp hall w hw)

/-- A match of given characters has read them. -/
theorem reads_of_run_chars (h : (Pattern.chars text).run id call c = some m) :
    c.Reads text m.stop := by
  obtain ⟨c', hc', rfl⟩ := Option.map_eq_some_iff.mp h
  exact chars?_eq_some_iff.mp hc'

/-- A keyword is matched in each of its spellings. -/
theorem run_keyword (hw : w ∈ r.spellings) (hreads : Reading.token w c c') (hends : Ends c') :
    r.pattern.run id call c = some ⟨c', []⟩ := by
  have hword : (word w).run id call c = some ⟨c', []⟩ := run_wordPattern (run_chars hreads) hends
  cases r with
  | kwProc =>
    apply run_wordPattern _ hends
    have hspelled : w = "procedure" ∨ w = "proc" := by simpa [Rule.spellings] using hw
    rcases hspelled with rfl | rfl
    · exact run_alt_left (run_chars hreads)
    · -- the longer spelling would let the word go on after the shorter one
      have hlong : (Pattern.chars "procedure".toList).run id call c = none := by
        apply Option.eq_none_iff_forall_ne_some.mpr
        intro m hm
        have hrest := (reads_of_run_chars hm).rest_eq
        rw [hreads.rest_eq] at hrest
        have hrest' : c'.rest = "edure".toList ++ m.stop.rest := by simpa using hrest
        have he := hends 'e' (by simp [hrest'])
        exact absurd he (by decide)
      rw [run_alt_right hlong, run_chars hreads]
  | kwCall | kwWhile | kwIf | kwThen | kwElse =>
    rw [List.mem_singleton.mp hw] at hword
    exact hword
  | _ => cases hw

/-- A keyword is not matched where another word comes. -/
theorem run_keyword_eq_none (hr : r.spellings ≠ []) (h : ∀ w ∈ r.spellings, wordAt c ≠ w.toList) :
    r.pattern.run id call c = none := by
  have hword : ∀ w ∈ r.spellings, (word w).run id call c = none := by
    intro w hw
    apply run_wordPattern_eq_none
    intro m hm
    exact ⟨w.toList, reads_of_run_chars hm, spellings_letters r w hw, h w hw⟩
  cases r with
  | kwProc =>
    apply run_wordPattern_eq_none
    intro m hm
    have hspelled : ∃ w ∈ Rule.kwProc.spellings, c.Reads w.toList m.stop := by
      rcases Option.or_eq_some_iff.mp hm with hlong | ⟨-, hshort⟩
      · exact ⟨"procedure", by decide, reads_of_run_chars hlong⟩
      · exact ⟨"proc", by decide, reads_of_run_chars hshort⟩
    obtain ⟨w, hw, hreads⟩ := hspelled
    exact ⟨w.toList, hreads, spellings_letters .kwProc w hw, h w hw⟩
  | kwCall | kwWhile | kwIf | kwThen | kwElse => exact hword _ List.mem_cons_self
  | _ => exact absurd rfl hr

/-- Matching a rule runs its pattern, with a tree for it unless the rule is silent. -/
theorem matchRule_succ : simple.matchRule (depth + 1) false r c =
    (r.pattern.run (if r.isAtomic then id else skipGap) (simple.matchRule depth r.isAtomic) c).map
      fun m => if !r.isSilent then ⟨m.stop, [.ofMatch r c m.stop m.trees]⟩ else m := rfl

/-- What a rule without inner trees takes is its text. -/
theorem matchRule_leaf (hsilent : r.isSilent = false)
    (hrun : r.pattern.run (if r.isAtomic then id else skipGap)
      (simple.matchRule depth r.isAtomic) c = some ⟨c', []⟩) (hreads : c.Reads text c') :
    simple.matchRule (depth + 1) false r c =
      some ⟨c', [.leaf r ⟨c.pos, c'.pos⟩ (String.ofList text)]⟩ := by
  rw [matchRule_succ, hrun]
  simp [hsilent, ParseTree.ofMatch, hreads.takeBytes_eq]

/-- A rule whose pattern is not matched at any depth is not matched. -/
theorem matchRule_eq_none
    (hrun : ∀ depth, r.pattern.run (if r.isAtomic then id else skipGap)
      (simple.matchRule depth r.isAtomic) c = none) : simple.matchRule depth false r c = none := by
  cases depth with
  | zero => rfl
  | succ depth => rw [matchRule_succ, hrun, Option.map_none]

/-- A rule with trees inside is matched as a branch with these trees. -/
theorem matchRule_branch {t : ParseTree Rule} {ts : List (ParseTree Rule)}
    (hatomic : r.isAtomic = false) (hsilent : r.isSilent = false)
    (hrun : r.pattern.run skipGap (simple.matchRule depth false) c = some ⟨c', t :: ts⟩) :
    simple.matchRule (depth + 1) false r c = some ⟨c', [.branch r ⟨c.pos, c'.pos⟩ (t :: ts)]⟩ := by
  simp [matchRule_succ, hatomic, hsilent, hrun, ParseTree.ofMatch]

/-- A silent rule is matched as its pattern is. -/
theorem matchRule_silent (hatomic : r.isAtomic = false) (hsilent : r.isSilent = true)
    (hrun : r.pattern.run skipGap (simple.matchRule depth false) c = some m) :
    simple.matchRule (depth + 1) false r c = some m := by
  simp [matchRule_succ, hatomic, hsilent, hrun]

/-- Keyword rules take no gaps and have trees. -/
theorem isAtomic_of_spelling (hr : r.spellings ≠ []) : r.isAtomic = true ∧ r.isSilent = false := by
  cases r with
  | kwProc | kwCall | kwWhile | kwIf | kwThen | kwElse => exact ⟨rfl, rfl⟩
  | _ => exact absurd rfl hr

/-- A keyword is matched as a whole word. -/
theorem matchRule_keyword (hw : w ∈ r.spellings) (hreads : Reading.token w c c') (hends : Ends c') :
    simple.matchRule (depth + 1) false r c = some ⟨c', [.leaf r ⟨c.pos, c'.pos⟩ w]⟩ := by
  obtain ⟨hatomic, hsilent⟩ := isAtomic_of_spelling (List.ne_nil_of_mem hw)
  have hrun :
      r.pattern.run (if r.isAtomic then id else skipGap) (simple.matchRule depth r.isAtomic) c =
      some ⟨c', []⟩ := by
    rw [hatomic]
    exact run_keyword hw hreads hends
  rw [matchRule_leaf hsilent hrun hreads, String.ofList_toList]

/-- A keyword rule is not matched where another word comes. -/
theorem matchRule_keyword_eq_none (hr : r.spellings ≠ [])
    (h : ∀ w ∈ r.spellings, wordAt c ≠ w.toList) : simple.matchRule depth false r c = none := by
  apply matchRule_eq_none
  intro depth
  rw [(isAtomic_of_spelling hr).1]
  exact run_keyword_eq_none hr h

/-! ## Names and literals -/

/-- The spellings of the rules are the keywords. -/
theorem spellings_subset (r : Rule) : ∀ w ∈ r.spellings, w ∈ keywords := by
  cases r <;> decide

/-- A name has only characters of names. -/
theorem IsName.nameChars (h : IsName w) : ∀ x ∈ w.toList, isNameChar x = true := by
  obtain ⟨first, more, heq, hfirst, hmore⟩ := h.letters
  rw [heq]
  intro x hx
  rcases List.mem_cons.mp hx with rfl | hx
  · simp [isNameChar, hfirst]
  · exact hmore x hx

/-- At a name there is no keyword. -/
theorem wordAt_ne_of_name (h : Reading.name w c c') (hends : Ends c') (r : Rule) :
    ∀ w' ∈ r.spellings, wordAt c ≠ w'.toList := by
  intro w' hw' heq
  rw [wordAt_eq h.2 h.1.nameChars hends, String.toList_inj] at heq
  rw [heq] at h
  exact h.1.not_keyword (spellings_subset r w' hw')

/-- No keyword is matched where the word is none. -/
theorem run_anyKeyword_eq_none (h : ∀ r : Rule, ∀ w ∈ r.spellings, wordAt c ≠ w.toList) :
    anyKeyword.run id call c = none := by
  have hnone : ∀ r : Rule, r.spellings ≠ [] → r.pattern.run id call c = none :=
    fun r hr => run_keyword_eq_none hr (h r)
  have hproc : procWord.run id call c = none := hnone .kwProc (by decide)
  have hcall : (word "call").run id call c = none := hnone .kwCall (by decide)
  have hwhile : (word "while").run id call c = none := hnone .kwWhile (by decide)
  have hif : (word "if").run id call c = none := hnone .kwIf (by decide)
  have hthen : (word "then").run id call c = none := hnone .kwThen (by decide)
  have helse : (word "else").run id call c = none := hnone .kwElse (by decide)
  simp only [anyKeyword, oneOf, List.foldl_cons, List.foldl_nil]
  rw [run_alt_right, helse]
  rw [run_alt_right, hthen]
  rw [run_alt_right, hif]
  rw [run_alt_right, hwhile]
  rw [run_alt_right hproc, hcall]

/-- A name is matched where no word goes on after it. -/
theorem matchRule_name (h : Reading.name w c c') (hends : Ends c') :
    simple.matchRule (depth + 1) false .name c = some ⟨c', [.leaf .name ⟨c.pos, c'.pos⟩ w]⟩ := by
  have hrun : Rule.name.pattern.run id (simple.matchRule depth true) c = some ⟨c', []⟩ := by
    obtain ⟨first, more, heq, hfirst, hmore⟩ := h.1.letters
    have hreads : c.Reads (first :: more) c' := heq ▸ h.2
    obtain ⟨hrest, hreads⟩ := Cursor.Reads.cons_iff.mp hreads
    have hletter : (Pattern.char isLetter).run id (simple.matchRule depth true) c =
        some ⟨c.advance first (more ++ c'.rest), []⟩ :=
      run_char hfirst (Cursor.Reads.cons_iff.mpr ⟨hrest, Cursor.Reads.nil_iff.mpr rfl⟩)
    exact run_inOrder (run_unless (run_anyKeyword_eq_none (wordAt_ne_of_name h hends)))
      (.cons rfl hletter (.cons rfl (run_star_char hreads hmore hends) .nil))
  rw [matchRule_leaf (r := .name) rfl hrun h.2, String.ofList_toList]

/-- No name is matched where no letter comes next. -/
theorem matchRule_name_eq_none (h : ∀ x, c.rest.head? = some x → isLetter x = false) :
    simple.matchRule depth false .name c = none := by
  apply matchRule_eq_none
  intro depth
  -- even if there is no keyword, there is no letter
  show ((Pattern.seq (.unless anyKeyword) (.char isLetter)).run id
    (simple.matchRule depth true) c).bind _ = none
  cases hkeyword : anyKeyword.run id (simple.matchRule depth true) c with
  | none => simp [hkeyword, char?_eq_none_iff.mpr h]
  | some m => simp [hkeyword]

/-- A digit is no letter. -/
theorem isLetter_of_isDigit (h : isDigit x = true) : isLetter x = false := by
  simp only [isDigit, Bool.and_eq_true, decide_eq_true_eq, Char.le_def, UInt32.le_iff_toNat_le] at h
  simp only [isLetter, Bool.or_eq_false_iff, Bool.and_eq_false_iff, decide_eq_false_iff_not,
    Char.le_def, UInt32.le_iff_toNat_le]
  have hnine : '9'.val.toNat = 57 := rfl
  have hupper : 'A'.val.toNat = 65 := rfl
  have hlower : 'a'.val.toNat = 97 := rfl
  omega

/-- No number is matched where no digit comes next. -/
theorem matchRule_integer_eq_none (h : ∀ x, c.rest.head? = some x → isDigit x = false) :
    simple.matchRule depth false .integer c = none := by
  apply matchRule_eq_none
  intro depth
  show (atLeastOnce (.char isDigit)).run id (simple.matchRule depth true) c = none
  simp [atLeastOnce, char?_eq_none_iff.mpr h]

/-- Digits are matched as a number where no word goes on after them. -/
theorem matchRule_integer (hne : w.toList ≠ []) (hdigits : ∀ x ∈ w.toList, isDigit x = true)
    (hreads : Reading.token w c c') (hends : Ends c') :
    simple.matchRule (depth + 1) false .integer c =
      some ⟨c', [.leaf .integer ⟨c.pos, c'.pos⟩ w]⟩ := by
  have hend : ∀ x, c'.rest.head? = some x → isDigit x = false := by
    intro x hx
    have hchar := hends x hx
    simp only [isNameChar, Bool.or_eq_false_iff] at hchar
    exact hchar.1.2
  have hrun : Rule.integer.pattern.run id (simple.matchRule depth true) c = some ⟨c', []⟩ := by
    obtain ⟨first, more, heq⟩ := List.exists_cons_of_ne_nil hne
    rw [heq] at hdigits
    have hreads : c.Reads (first :: more) c' := heq ▸ hreads
    obtain ⟨hrest, hreads⟩ := Cursor.Reads.cons_iff.mp hreads
    have hfirst : (Pattern.char isDigit).run id (simple.matchRule depth true) c =
        some ⟨c.advance first (more ++ c'.rest), []⟩ :=
      run_char (hdigits first List.mem_cons_self)
        (Cursor.Reads.cons_iff.mpr ⟨hrest, Cursor.Reads.nil_iff.mpr rfl⟩)
    have hmore : ∀ x ∈ more, isDigit x = true :=
      fun x hx => hdigits x (List.mem_cons_of_mem first hx)
    exact run_inOrder hfirst (.cons rfl (run_star_char hreads hmore hend) .nil)
  rw [matchRule_leaf (r := .integer) rfl hrun hreads, String.ofList_toList]

end Words

end Grammar

end ProgramQuery
