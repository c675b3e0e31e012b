import Mathlib.Data.Set.Function
import ProgramQuery.Proofs.ReadPrograms

/-!
# Reading back the text of an expression

`Expr.text` puts every operator and its operands in parentheses. So wherever the text of an
expression stands, the expression is written there as a factor (`Expr.exists_written`), whatever the
ranks of its operators. An assignment of it can then be read back, and expressions with the same
text are the same (`Program.ofText_exprText`).
-/

set_option autoImplicit false

namespace ProgramQuery

open Grammar Reading

variable {c c' : Cursor}

/-! ## Tokens in a row -/

/-- A text in several parts is read part by part. -/
theorem inTurn_of_reads {parts : List String} (h : c.Reads (parts.flatMap String.toList) c') :
    inTurn (parts.map token) c c' := by
  induction parts generalizing c with
  | nil => exact Cursor.Reads.nil_iff.mp h
  | cons part parts ih =>
    have hrest := h.rest_eq
    have hpos := h.pos_eq
    rw [List.flatMap_cons] at hrest hpos
    refine ⟨⟨c.pos + byteLength part.toList, parts.flatMap String.toList ++ c'.rest⟩, ⟨?_, rfl⟩,
      ih ⟨rfl, ?_⟩⟩
    · rw [hrest, List.append_assoc]
    · rw [hpos, byteLength_append, Nat.add_assoc]

/-- A text that was read is the parts that make it up, read in turn. -/
theorem inTurn_of_token {text : String} (h : token text c c') (parts : List String)
    (htext : text.toList = parts.flatMap String.toList) : inTurn (parts.map token) c c' :=
  inTurn_of_reads (htext ▸ h)

/-- A blank keeps words apart. -/
theorem apart_of_token (h : token " " c c') : apart c c' := ⟨[' '], by simp, .blank rfl .nil, h⟩

/-- A blank is a gap. -/
theorem gap_of_blank (h : token " " c c') : gap c c' := gap_of_apart (apart_of_token h)

/-! ## Expressions -/

/-- A factor may stand for an operand of any rank. -/
theorem Source.Expr.Written.ofFactor {e : Source.Expr} (h : e.Written .factor c c') (rank : Rank) :
    e.Written rank c c' := by
  have hproduct : e.Written .product c c' := .operand (by decide) h
  cases rank with
  | sum => exact .operand (by decide) hproduct
  | product => exact hproduct
  | factor => exact h

/-- The text of a constant that is not negative consists of digits, and these stand for the
constant. -/
theorem digits_of_nonneg {value : Int} (h : 0 ≤ value) :
    (toString value).toList ≠ [] ∧ (∀ x ∈ (toString value).toList, isDigit x = true) ∧
      digitsValue (toString value).toList = value := by
  obtain ⟨n, rfl⟩ := Int.eq_ofNat_of_zero_le h
  have htext : (toString (n : Int)).toList = Nat.toDigits 10 n := by
    have hnat : toString (n : Int) = toString n := rfl
    rw [hnat, Nat.toString_eq_ofList_toDigits, String.toList_ofList]
  rw [htext]
  refine ⟨Nat.toDigits_ne_nil, ?_, ?_⟩
  · intro x hx
    have hdigit := Nat.isDigit_of_mem_toDigits (by decide) (by decide) hx
    rw [Char.isDigit, Bool.and_eq_true, decide_eq_true_eq, decide_eq_true_eq] at hdigit
    rw [isDigit, Bool.and_eq_true, decide_eq_true_eq, decide_eq_true_eq]
    exact hdigit
  · exact congrArg Int.ofNat Nat.ofDigitChars_ten_toDigits

/-- **The text of an expression writes the expression**, as a factor. -/
theorem Expr.exists_written {e : Expr} (hlegal : e.Legal) (h : token e.text c c') :
    ∃ source : Source.Expr, source.plain = e ∧ source.Written .factor c c' := by
  induction e generalizing c c' with
  | var name => exact ⟨.var name, rfl, .var ⟨hlegal, h⟩⟩
  | const value =>
    obtain ⟨hne, hdigits, hvalue⟩ := digits_of_nonneg hlegal.1
    refine ⟨.literal ⟨toString value, ⟨c.pos, c'.pos⟩⟩, ?_, .literal hne hdigits h⟩
    exact congrArg Expr.const hvalue
  | binary op lhs rhs ihl ihr =>
    obtain ⟨c₁, hopen, c₂, hlhs, c₃, hblank, c₄, hsymbol, c₅, hblank', c₆, hrhs, c₇, hclose, rfl⟩ :=
      inTurn_of_token h ["(", lhs.text, " ", op.symbol, " ", rhs.text, ")"] (by simp [text])
    obtain ⟨left, hleft, hleftWritten⟩ := ihl hlegal.1 hlhs
    obtain ⟨right, hright, hrightWritten⟩ := ihr hlegal.2 hrhs
    have hbinary : Source.Expr.Written (.binary op left right) op.rank c₁ c₆ :=
      .binary (hleftWritten.ofFactor _) (gap_of_blank hblank) hsymbol (gap_of_blank hblank')
        (hrightWritten.ofFactor _)
    -- parentheses take a sum, so a product has to be taken as one
    have hsum : Source.Expr.Written (.binary op left right) .sum c₁ c₆ := by
      cases op with
      | plus => exact hbinary
      | minus => exact hbinary
      | times => exact .operand (by decide) hbinary
    refine ⟨.binary op left right, ?_, .paren hopen (gap_refl _) hsum (gap_refl _) hclose⟩
    rw [Source.Expr.plain, hleft, hright]

/-! ## Assignments -/

/-- A program text that assigns the expression to a variable. -/
def Expr.assignmentText (e : Expr) : String := "proc p \x7b v = " ++ e.text ++ "; \x7d"

/-- What the text says. -/
def Expr.assignmentListing (e : Expr) : List ProcListing := [⟨"p", .assign "v" e .done⟩]

/-- A text that begins with a letter and goes on with characters of names is a name, unless it is a
keyword. -/
theorem isName_of_letters {name : String} {first : Char} {more : List Char}
    (hname : name.toList = first :: more) (hfirst : isLetter first = true)
    (hmore : more.all isNameChar = true) (hkeyword : name ∉ keywords) :
    IsName name :=
  ⟨⟨first, more, hname, hfirst, List.all_eq_true.mp hmore⟩, hkeyword⟩

/-- The name of the procedure is no keyword. -/
theorem isName_p : IsName "p" := isName_of_letters rfl rfl rfl (by decide)

/-- The name of the variable is no keyword. -/
theorem isName_v : IsName "v" := isName_of_letters rfl rfl rfl (by decide)

/-- The listing is legal if the expression is. -/
theorem Expr.legal_assignmentListing {e : Expr} (h : e.Legal) :
    ProcListing.Legal e.assignmentListing := by
  refine ⟨by simp [assignmentListing], by simp [assignmentListing], ?_, ?_⟩
  · intro proc hproc
    rw [List.mem_singleton.mp hproc]
    exact isName_p
  · intro proc hproc
    rw [List.mem_singleton.mp hproc]
    exact ⟨by simp, isName_v, h, trivial⟩

/-- **The text writes an assignment of the expression**, in a procedure of its own. -/
theorem Expr.exists_assignmentWritten {e : Expr} (hlegal : e.Legal)
    (h : token e.assignmentText c c') :
    ∃ source : Source.Expr, source.plain = e ∧
      Source.Proc.Written ⟨"p", ⟨c.pos, c'.pos⟩, .assign "v" source .done⟩ c c' := by
  obtain ⟨c₁, hword, c₂, hblank, c₃, hp, c₄, hblank₁, c₅, hopen, c₆, hblank₂, c₇, hv, c₈, hblank₃,
      c₉, hsign, c₁₀, hblank₄, c₁₁, hvalue, c₁₂, hend, c₁₃, hblank₅, c₁₄, hclose, rfl⟩ :=
    inTurn_of_token h
      ["proc", " ", "p", " ", "\x7b", " ", "v", " ", "=", " ", e.text, ";", " ", "\x7d"]
      (by simp [assignmentText])
  obtain ⟨source, hsource, hwritten⟩ := exists_written hlegal hvalue
  have hassign : Source.assignment "v" source c₆ c₁₂ :=
    inTurn_cons ⟨isName_v, hv⟩ (inTurn_cons (gap_of_blank hblank₃) (inTurn_cons hsign
      (inTurn_cons (gap_of_blank hblank₄) (inTurn_cons (hwritten.ofFactor _)
        (inTurn_cons (gap_refl _) (inTurn_cons hend rfl))))))
  have hblock : (Source.Block.assign "v" source .done).Written c₆ c₁₃ :=
    inTurn_cons hassign (inTurn_cons (gap_of_blank hblank₅) (inTurn_cons rfl rfl))
  have hbraces : Source.braces (.assign "v" source .done)
      (Source.Block.assign "v" source .done).Written c₄ c₁₄ :=
    inTurn_cons hopen (inTurn_cons (gap_of_blank hblank₂)
      (inTurn_cons ⟨by simp, hblock⟩ (inTurn_cons hclose rfl)))
  exact ⟨source, hsource, rfl, inTurn_cons (Or.inl hword) (inTurn_cons (apart_of_token hblank)
    (inTurn_cons ⟨isName_p, hp⟩ (inTurn_cons (gap_of_blank hblank₁) (inTurn_cons hbraces rfl))))⟩

/-- The text with the rendered expression says what the listing says. -/
theorem Expr.renders_assignmentText {e : Expr} (h : e.Legal) :
    Renders e.assignmentText e.assignmentListing := by
  have hreads : token e.assignmentText ⟨0, e.assignmentText.toList⟩
      ⟨byteLength e.assignmentText.toList, []⟩ := ⟨by simp, by simp⟩
  obtain ⟨source, rfl, hproc⟩ := exists_assignmentWritten h hreads
  refine ⟨[_], ⟨by simp, _, inTurn_cons (gap_refl _) (inTurn_cons (inTurn_cons hproc
    (inTurn_cons (gap_refl _) (inTurn_cons (Or.inl rfl) rfl))) rfl)⟩, rfl⟩

/-- The program of one procedure with one statement, which assigns the expression to a variable. -/
def Expr.assignmentProgram (line : Nat) (e : Expr) : Program where
  procs := #[⟨"p", 0⟩]
  stmts := #[⟨line, none, none, none, 0, .assign "v" e⟩]

/-- The text with the rendered expression is read as the program that assigns the expression. -/
theorem Expr.ofText_assignmentText (settings : Settings) {e : Expr} (h : e.Legal) :
    Program.ofText settings e.assignmentText = .ok (e.assignmentProgram settings.firstLine) := by
  obtain ⟨sources, hwrites, hsources⟩ := renders_assignmentText h
  have hlines : settings.firstLine + ProcListing.total e.assignmentListing ≤ maxLine + 1 := by
    have hfirst := settings.firstLine_le
    have htotal : ProcListing.total e.assignmentListing = 1 := rfl
    omega
  obtain ⟨p, hread, hfinish, -⟩ :=
    Source.exists_toProgram settings hsources (legal_assignmentListing h) hlines
  have hprogram : (Draft.laidOut settings.firstLine e.assignmentListing).finish =
      .ok (e.assignmentProgram settings.firstLine) := rfl
  rw [hprogram] at hfinish
  cases hfinish
  rw [Program.ofText_eq_toProgram settings hwrites.ofText?_eq]
  exact hread

/-- **The text of an expression can be read back.** With its names and constants in the language, it
is read as the right-hand side of an assignment, and what is assigned in the program is the
expression itself. So expressions of the language with the same text are the same. -/
theorem Program.ofText_exprText :
    (∀ (settings : Settings) (e : Expr), e.Legal →
      Program.ofText settings ("proc p \x7b v = " ++ e.text ++ "; \x7d") =
        .ok ⟨#[⟨"p", 0⟩], #[⟨settings.firstLine, none, none, none, 0, .assign "v" e⟩]⟩) ∧
      Set.InjOn Expr.text {e | e.Legal} := by
  refine ⟨fun settings e h => e.ofText_assignmentText settings h, ?_⟩
  intro e h e' h' htext
  have hread := e.ofText_assignmentText {} h
  have hread' := e'.ofText_assignmentText {} h'
  unfold Expr.assignmentText at hread hread'
  rw [htext, hread'] at hread
  simpa [Expr.assignmentProgram] using hread.symm

/-- A difference with a difference to its right, one of whose names begins like a keyword. -/
def Expr.exampleExpr : Expr := .binary .minus (.var "y") (.binary .minus (.const 10) (.var "then_"))

/-- The rendered difference is read back with its right operand in parentheses. -/
theorem Program.ofText_exampleExpr :
    Expr.exampleExpr.Legal ∧ Expr.exampleExpr.text = "(y - (10 - then_))" ∧
      Program.ofText {} "proc p \x7b v = (y - (10 - then_)); \x7d" =
        .ok ⟨#[⟨"p", 0⟩], #[⟨1, none, none, none, 0, .assign "v" Expr.exampleExpr⟩]⟩ := by
  have hy : IsName "y" := isName_of_letters rfl rfl rfl (by decide)
  have hthen : IsName "then_" := isName_of_letters rfl rfl rfl (by decide)
  have hlegal : Expr.exampleExpr.Legal := ⟨hy, ⟨by decide, by decide⟩, hthen⟩
  have htext : Expr.exampleExpr.text = "(y - (10 - then_))" := by decide
  have hread := Program.ofText_exprText.1 {} Expr.exampleExpr hlegal
  rw [htext] at hread
  exact ⟨hlegal, htext, hread⟩

end ProgramQuery
