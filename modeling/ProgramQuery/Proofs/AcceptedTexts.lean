import ProgramQuery.Proofs.MatchedSources
import ProgramQuery.Proofs.SourceFaults

/-!
# Which texts are accepted

A text is read in two steps: it is matched, and what was matched is linked to a program. Both say
exactly what they accept. If a program is read, the text writes out what the program unfolds to, and
this is a program of the language (`Program.renders_of_ofText`). If the text is matched but not
read, what is reported is told by the source alone, and the span that is reported is where the part
at fault stands in the text (`Program.ofText_reports`).
-/

set_option autoImplicit false

namespace ProgramQuery

open Grammar Reading

/-! ## Texts that are read -/

/-- **What is written is reported or laid out.** Linking the procedures that a text writes reports a
fault of them, or it lays their statements out one after the other, and there are lines for all of
them. -/
theorem Source.Writes.toProgram_cases {text : String} {procs : List Source.Proc}
    (h : Source.Writes text procs) (settings : Settings) :
    (∃ e, Reported settings procs e ∧ toProgram settings procs = .error e) ∨
      ∃ p, toProgram settings procs = .ok p ∧ ProcListing.Legal (procs.map Proc.listing) ∧
        settings.firstLine + ProcListing.total (procs.map Proc.listing) ≤ maxLine + 1 ∧
        (Draft.laidOut settings.firstLine (procs.map Proc.listing)).finish = .ok p ∧
        (Draft.laidOut settings.firstLine (procs.map Proc.listing)).Sound := by
  rcases reported_or_legal settings h.1 h.proper with ⟨e, he⟩ | ⟨hlegal, hlines⟩
  · exact .inl ⟨e, he, toProgram_eq_error settings h.proper he⟩
  · obtain ⟨p, hp, hfinish, hsound⟩ := exists_toProgram settings rfl hlegal hlines
    exact .inr ⟨p, hp, hlegal, hlines, hfinish, hsound⟩

/-- A text that is read writes procedures, and the program is what their statements are laid out
to. -/
theorem Program.exists_laidOut_of_ofText {settings : Settings} {text : String} {p : Program}
    (h : Program.ofText settings text = .ok p) :
    ∃ procs, Source.Writes text procs ∧ ProcListing.Legal (procs.map Source.Proc.listing) ∧
      settings.firstLine + ProcListing.total (procs.map Source.Proc.listing) ≤ maxLine + 1 ∧
      (Draft.laidOut settings.firstLine (procs.map Source.Proc.listing)).finish = .ok p ∧
      (Draft.laidOut settings.firstLine (procs.map Source.Proc.listing)).Sound := by
  obtain ⟨procs, hof, hread⟩ := Program.exists_source_of_ofText h
  have hwrites : Source.Writes text procs := Source.ofText?_eq_some_iff.mp hof
  rcases hwrites.toProgram_cases settings with ⟨e, -, he⟩ | ⟨p', hp', hlaid⟩
  · cases he.symm.trans hread
  · cases hp'.symm.trans hread
    exact ⟨procs, hwrites, hlaid⟩

/-- **A text that is read writes out what the program unfolds to.** -/
theorem Program.renders_of_ofText {settings : Settings} {text : String} {p : Program}
    (h : Program.ofText settings text = .ok p) :
    ∃ procs ids, p.UnfoldsTo procs ids ∧ (∀ procs' ids', p.UnfoldsTo procs' ids' → procs' = procs) ∧
      ProcListing.Legal procs ∧ Renders text procs := by
  obtain ⟨sources, hwrites, hlegal, -, hfinish, -⟩ := Program.exists_laidOut_of_ofText h
  have hunfolds := Draft.unfoldsTo_laidOut hlegal hfinish
  refine ⟨_, _, hunfolds, ?_, hlegal, sources, hwrites, rfl⟩
  intro procs' ids' hunfolds'
  exact (hunfolds'.unique hunfolds).1

/-- The text of `RenderedExample` is read, and it writes out what was read. -/
theorem Program.renders_of_ofText_renderedExample :
    ∃ p procs ids, Program.ofText {} RenderedExample.text = .ok p ∧ p.UnfoldsTo procs ids ∧
      ProcListing.Legal procs ∧ Renders RenderedExample.text procs := by
  obtain ⟨sources, hwrites, hsources⟩ := RenderedExample.renders
  obtain ⟨p, hp, -⟩ := Source.exists_toProgram {} hsources RenderedExample.legal (by decide)
  rw [← Program.ofText_eq_toProgram {} hwrites.ofText?_eq] at hp
  obtain ⟨procs, ids, hunfolds, -, hlegal, hrenders⟩ := Program.renders_of_ofText hp
  exact ⟨p, procs, ids, hp, hunfolds, hlegal, hrenders⟩

/-! ## Spans -/

/-- The span is where the part stands in the text, counted in bytes. -/
def Grammar.Span.Cuts (span : Span) (text part : String) : Prop :=
  ∃ before after : String, text = before ++ part ++ after ∧
    span = ⟨before.utf8ByteSize, (before ++ part).utf8ByteSize⟩

/-- The span is where the procedure is written in the text, all of it and nothing else. -/
def Source.Proc.StandsAt (proc : Source.Proc) (span : Span) (text : String) : Prop :=
  ∃ before part after : String, text = before ++ part ++ after ∧
    span = ⟨before.utf8ByteSize, (before ++ part).utf8ByteSize⟩ ∧
    proc.Written ⟨before.utf8ByteSize, (part ++ after).toList⟩
      ⟨(before ++ part).utf8ByteSize, after.toList⟩

/-- The bytes of a list of characters are those of the string with these characters. -/
theorem byteLength_eq (text : List Char) : byteLength text = (String.ofList text).utf8ByteSize := by
  induction text with
  | nil => rfl
  | cons x text ih =>
    rw [byteLength, ih, ← List.singleton_append, String.ofList_append, String.utf8ByteSize_append]
    simp

/-- What was read after a stretch of text is a part of the text. -/
theorem exists_cut {text : String} {c c' : Cursor} {part : List Char}
    (h : stretch ⟨0, text.toList⟩ c) (hpart : c.Reads part c') :
    ∃ before after : String, text = before ++ String.ofList part ++ after ∧
      c = ⟨before.utf8ByteSize, (String.ofList part ++ after).toList⟩ ∧
      c' = ⟨(before ++ String.ofList part).utf8ByteSize, after.toList⟩ := by
  obtain ⟨before, hbefore⟩ := h
  have htext : text.toList = before ++ c.rest := hbefore.rest_eq
  have hpos : c.pos = (String.ofList before).utf8ByteSize := by
    simpa [byteLength_eq] using hbefore.pos_eq
  have hpos' := hpart.pos_eq
  rw [byteLength_eq, hpos] at hpos'
  rw [hpart.rest_eq] at htext
  refine ⟨String.ofList before, String.ofList c'.rest, ?_, ?_, ?_⟩
  · rw [← String.toList_inj, htext]
    simp
  · cases c
    simpa using ⟨hpos, hpart.rest_eq⟩
  · cases c'
    simpa [String.utf8ByteSize_append] using hpos'

namespace Source

variable {text : String} {c c' : Cursor}

/-- A word that is written after a stretch of text is what its span cuts out of the text. -/
theorem cuts_of_word {w : Word} (h : stretch ⟨0, text.toList⟩ c) (hw : word w c c') :
    w.span.Cuts text w.text := by
  obtain ⟨before, after, htext, rfl, rfl⟩ := exists_cut h hw.2
  rw [String.ofList_toList] at htext hw
  exact ⟨before, after, htext, hw.1⟩

/-- A procedure that is written after a stretch of text stands at its span. -/
theorem standsAt_of_written {proc : Proc} (h : stretch ⟨0, text.toList⟩ c)
    (hproc : proc.Written c c') :
    proc.StandsAt proc.span text := by
  obtain ⟨part, hreads⟩ := stretch_of_stretchWith (proc.carries_items 0 c c' hproc)
  obtain ⟨before, after, htext, rfl, rfl⟩ := exists_cut h hreads
  exact ⟨before, String.ofList part, after, htext, hproc.1, hproc⟩

/-- Each of some written procedures is written after a stretch of text. -/
theorem exists_written {procs : List Proc} {proc : Proc} (h : procsWritten procs c c')
    (hproc : proc ∈ procs) :
    ∃ c₁ c₂, stretch c c₁ ∧ proc.Written c₁ c₂ := by
  induction procs generalizing c with
  | nil => cases hproc
  | cons first procs ih =>
    obtain ⟨c₁, hfirst, c₂, hgap, c₃, hrest, rfl⟩ := h
    rcases List.mem_cons.mp hproc with rfl | hmem
    · exact ⟨c, c₁, stretch_refl c, hfirst⟩
    · obtain ⟨c₄, c₅, hbefore, hwritten⟩ := ih hrest hmem
      have hstretch := stretch_of_stretchWith (first.carries_items 0 c c₁ hfirst)
      exact ⟨c₄, c₅, stretch_trans hstretch (stretch_trans (carries_gap c₁ c₂ hgap) hbefore),
        hwritten⟩

/-- The words that are reported are among the items. -/
theorem Reported.mem_wordsOf {settings : Settings} {procs : List Proc} {e : ParseError} {w : Word}
    (h : Reported settings procs e) (he : e = .undefinedProc w ∨ e = .literalTooLarge w) :
    w ∈ wordsOf (itemsOf settings.firstLine procs) := by
  rcases h with ⟨proc, -, rfl⟩ | ⟨-, before, item, after, hitems, hfault, -⟩
  · simp at he
  · apply List.mem_filterMap.mpr
    refine ⟨item, by simp [hitems], ?_⟩
    cases item with
    | literal digits =>
      obtain ⟨-, rfl⟩ := fault?_literal_eq_some.mp hfault
      simpa [Item.word?, eq_comm] using he
    | callee name =>
      obtain ⟨-, rfl⟩ := fault?_callee_eq_some.mp hfault
      simpa [Item.word?, eq_comm] using he
    | stmt line =>
      obtain ⟨-, rfl⟩ := fault?_stmt_eq_some.mp hfault
      simp at he

/-- The procedure that is reported is the first one that repeats a name. -/
theorem Reported.exists_firstRepeated {settings : Settings} {procs : List Proc} {name : String}
    {span : Span} (h : Reported settings procs (.repeatedProc name span)) :
    ∃ proc, FirstRepeated procs proc ∧ proc.name = name ∧ proc.span = span := by
  rcases h with ⟨proc, hfirst, heq⟩ | ⟨-, before, item, after, -, hfault, -⟩
  · cases heq
    exact ⟨proc, hfirst, rfl, rfl⟩
  · cases item with
    | literal digits => cases (fault?_literal_eq_some.mp hfault).2
    | callee name => cases (fault?_callee_eq_some.mp hfault).2
    | stmt line => cases (fault?_stmt_eq_some.mp hfault).2

end Source

/-! ## Texts that are not read -/

namespace Source

variable {text : String} {procs : List Proc}

/-- A written text fails with exactly those errors that are reported of its procedures. -/
theorem Writes.ofText_eq_error_iff (h : Writes text procs) (settings : Settings) (e : ParseError) :
    Program.ofText settings text = .error e ↔ Reported settings procs e := by
  rw [Program.ofText_eq_toProgram settings h.ofText?_eq]
  constructor
  · intro he
    rcases h.toProgram_cases settings with ⟨e', hreported, he'⟩ | ⟨p, hp, -⟩
    · cases he'.symm.trans he
      exact hreported
    · cases hp.symm.trans he
  · exact toProgram_eq_error settings h.proper

/-- A written text runs through the words of its procedures, in their order, to its end. -/
theorem Writes.stretchWith_items (h : Writes text procs) (line : Nat) :
    ∃ stop, stretchWith (wordsOf (itemsOf line procs)) ⟨0, text.toList⟩ ⟨stop, []⟩ := by
  obtain ⟨-, stop, c, hgap, c', hprocs, rfl⟩ := h
  exact ⟨stop,
    stretchWith_of_stretch (carries_gap _ c hgap) (carries_itemsOf procs line c _ hprocs)⟩

/-- Every procedure of a written text stands at its span. -/
theorem Writes.standsAt (h : Writes text procs) {proc : Proc} (hproc : proc ∈ procs) :
    proc.StandsAt proc.span text := by
  obtain ⟨-, stop, c, hgap, c', hprocs, rfl⟩ := h
  obtain ⟨c₁, c₂, hbefore, hwritten⟩ := exists_written hprocs hproc
  exact standsAt_of_written (stretch_trans (carries_gap _ c hgap) hbefore) hwritten

end Source

/-- **What is reported about a text that is matched** is told by the procedures that it writes.
Their words stand in the text in the order of the items, and their statements get lines in that
order. The span that is reported is where the part at fault stands. -/
theorem Program.ofText_reports (settings : Settings) {text : String} {trees : List (ParseTree Rule)}
    (h : simple.trees? .program text.toList = some trees) :
    ∃ procs, Source.Writes text procs ∧
      (∀ e, Program.ofText settings text = .error e ↔ Source.Reported settings procs e) ∧
      (∃ stop, stretchWith (Source.wordsOf (Source.itemsOf settings.firstLine procs))
        ⟨0, text.toList⟩ ⟨stop, []⟩) ∧
      Source.linesOf (Source.itemsOf settings.firstLine procs) =
        List.range' settings.firstLine (ProcListing.total (procs.map Source.Proc.listing)) ∧
      (∀ w, Program.ofText settings text = .error (.undefinedProc w) ∨
        Program.ofText settings text = .error (.literalTooLarge w) → w.span.Cuts text w.text) ∧
      ∀ name span, Program.ofText settings text = .error (.repeatedProc name span) →
        ∃ proc, Source.FirstRepeated procs proc ∧ proc.name = name ∧ proc.StandsAt span text := by
  obtain ⟨procs, -, hwrites⟩ := Source.writes_of_trees? h
  have hreported := hwrites.ofText_eq_error_iff settings
  obtain ⟨stop, hwords⟩ := hwrites.stretchWith_items settings.firstLine
  refine ⟨procs, hwrites, hreported, ⟨stop, hwords⟩, Source.linesOf_itemsOf procs _, ?_, ?_⟩
  · intro w hw
    -- a word that is reported is an item, and items stand in the text
    have hmem : w ∈ Source.wordsOf (Source.itemsOf settings.firstLine procs) := by
      rcases hw with hw | hw
      · exact ((hreported _).mp hw).mem_wordsOf (Or.inl rfl)
      · exact ((hreported _).mp hw).mem_wordsOf (Or.inr rfl)
    obtain ⟨c, c', hbefore, hword⟩ := exists_word hwords hmem
    exact Source.cuts_of_word hbefore hword
  · intro name span hrepeated
    obtain ⟨proc, hfirst, hname, rfl⟩ := ((hreported _).mp hrepeated).exists_firstRepeated
    exact ⟨proc, hfirst, hname, hwrites.standsAt hfirst.mem⟩

/-! ## A text with a fault -/

namespace UndefinedExample

/-- A text with a call of a name that no procedure has, after a character of two bytes. -/
def text : String := "proc p \x7b // é\n call q; \x7d"

/-- The characters of the text, which are looked at one by one below. -/
def letters : List Char :=
  ['p', 'r', 'o', 'c', ' ', 'p', ' ', '\x7b', ' ', '/', '/', ' ', 'é', '\n', ' ', 'c', 'a', 'l',
   'l', ' ', 'q', ';', ' ', '\x7d']

/-- The text has these characters. -/
theorem toList_text : text.toList = letters := by
  decide

/-- A place in the text. -/
def place (n : Nat) : Cursor := ⟨byteLength (letters.take n), letters.drop n⟩

/-- What the text is read as. -/
def source : Source.Proc := ⟨"p", ⟨0, 25⟩, .call ⟨"q", ⟨21, 22⟩⟩ .done⟩

/-- The names in the text are no keywords. -/
theorem isName : ∀ name ∈ ["p", "q"], IsName name := by
  intro name hname
  simp only [List.mem_cons, List.not_mem_nil, or_false] at hname
  rcases hname with rfl | rfl <;> exact ⟨⟨_, _, rfl, rfl, List.all_eq_true.mp rfl⟩, by decide⟩

/-- The body, a call after a comment, is written between the braces. -/
theorem body_written : source.body.Written (place 15) (place 23) := by
  have hname : Reading.name "q" (place 20) (place 21) := ⟨isName "q" (by simp), rfl, rfl⟩
  have hapart : apart (place 19) (place 20) := ⟨[' '], by simp, .blank rfl .nil, rfl, rfl⟩
  have hgap : gap (place 22) (place 23) := ⟨[' '], .blank rfl .nil, rfl, rfl⟩
  have hcall : Source.callOf ⟨"q", ⟨21, 22⟩⟩ (place 15) (place 22) :=
    inTurn_cons ⟨rfl, rfl⟩ (inTurn_cons hapart (inTurn_cons ⟨rfl, hname⟩ (inTurn_cons (gap_refl _)
      (inTurn_cons ⟨rfl, rfl⟩ rfl))))
  exact inTurn_cons hcall (inTurn_cons hgap (inTurn_cons rfl rfl))

/-- The text writes the procedure. -/
theorem writes : Source.Writes text [source] := by
  have hblank : IsGap [' '] := .blank rfl .nil
  have hline : IsGap ('/' :: '/' :: ([' ', 'é'] ++ '\n' :: [' '])) := .comment (by decide) hblank
  have hcomment : gap (place 8) (place 15) := ⟨_, .blank rfl hline, rfl, rfl⟩
  have hbraces : Source.braces source.body source.body.Written (place 7) (place 24) :=
    inTurn_cons ⟨rfl, rfl⟩ (inTurn_cons hcomment (inTurn_cons ⟨by simp [source], body_written⟩
      (inTurn_cons ⟨rfl, rfl⟩ rfl)))
  have hword : token "proc" (place 0) (place 4) := ⟨rfl, rfl⟩
  have hapart : apart (place 4) (place 5) := ⟨[' '], by simp, hblank, rfl, rfl⟩
  have hname : Reading.name "p" (place 5) (place 6) := ⟨isName "p" (by simp), rfl, rfl⟩
  have hproc : source.Written (place 0) (place 24) :=
    ⟨rfl, inTurn_cons (Or.inl hword) (inTurn_cons hapart (inTurn_cons hname
      (inTurn_cons ⟨[' '], hblank, rfl, rfl⟩ (inTurn_cons hbraces rfl))))⟩
  have hprocs : Source.procsWritten [source] (place 0) (place 24) :=
    inTurn_cons hproc (inTurn_cons (gap_refl _) (inTurn_cons (Or.inl rfl) rfl))
  refine ⟨by simp, 25, ?_⟩
  rw [toList_text]
  exact inTurn_cons (gap_refl _) (inTurn_cons hprocs rfl)

/-- What is reported of the procedure is its call of a procedure that is not there. -/
theorem reported : Source.Reported {} [source] (.undefinedProc ⟨"q", ⟨21, 22⟩⟩) :=
  Or.inr ⟨by decide, [], .callee ⟨"q", ⟨21, 22⟩⟩, [.stmt 1], rfl, rfl, by simp⟩

end UndefinedExample

/-- The call in the text of `UndefinedExample` is reported, with the place of the name. -/
theorem Program.ofText_undefinedExample_reports :
    ∃ trees, simple.trees? .program UndefinedExample.text.toList = some trees ∧
      Program.ofText {} UndefinedExample.text = .error (.undefinedProc ⟨"q", ⟨21, 22⟩⟩) ∧
      (⟨21, 22⟩ : Span).Cuts UndefinedExample.text "q" := by
  obtain ⟨trees, htrees, -⟩ := Option.bind_eq_some_iff.mp UndefinedExample.writes.ofText?_eq
  obtain ⟨procs, hwrites, hreported, -, -, hspan, -⟩ := Program.ofText_reports {} htrees
  have hprocs : procs = [UndefinedExample.source] :=
    Option.some.inj (hwrites.ofText?_eq.symm.trans UndefinedExample.writes.ofText?_eq)
  subst hprocs
  have herror := (hreported _).mpr UndefinedExample.reported
  exact ⟨trees, htrees, herror, hspan _ (Or.inl herror)⟩

end ProgramQuery
