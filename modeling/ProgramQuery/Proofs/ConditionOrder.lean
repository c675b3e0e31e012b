import Mathlib.Algebra.Group.Nat.Defs
import Mathlib.Data.List.Basic
import Mathlib.Order.Defs.Unbundled
import ProgramQuery.Condition

/-!
# The order of conditions

Conditions are compared kind by kind, and variables by the code points of their names. In the words
of `Before`, one condition comes before another if its kind does, or if they are of the same kind
and its number is smaller, the bytes of its name come first, or its value is smaller. The two are
the same (`compare_eq_lt_iff`), and `Before` is a strict total order (`isStrictTotalOrder_before`).

That names are in the order of their UTF-8 bytes comes from the form of the code. A character is
written as a first byte and then six bits in each further byte, highest bits first
(`exists_writtenIn`). The first byte tells how many bytes follow, and longer codes are for larger
characters. So of two characters the smaller one has a smaller byte at the first place where the
codes differ, whatever follows them (`utf8EncodeChar_lt`).
-/

set_option autoImplicit false

namespace ProgramQuery

namespace Utf8

open String (utf8EncodeChar utf8EncodeChar_ne_nil)

/-! ## The code of a character -/

/-- The last `count` groups of six bits of a number, highest bits first, each in a byte of its
own. -/
def sixBitBytes (v : Nat) : Nat → List UInt8
  | 0 => []
  | count + 1 => .ofNat (v / 64 ^ count % 64 + 0x80) :: sixBitBytes v count

/-- What marks a first byte that `count` bytes follow. -/
def mark : Nat → Nat
  | 0 => 0
  | 1 => 0xc0
  | 2 => 0xe0
  | _ => 0xf0

/-- The code point has a code in which `count` bytes follow the first one. -/
inductive WrittenIn (v : Nat) : Nat → Prop where
  | one (hmax : v ≤ 0x7f) : WrittenIn v 0
  | two (hmin : 0x7f < v) (hmax : v ≤ 0x7ff) : WrittenIn v 1
  | three (hmin : 0x7ff < v) (hmax : v ≤ 0xffff) : WrittenIn v 2
  | four (hmin : 0xffff < v) (hmax : v ≤ 0x10ffff) : WrittenIn v 3

/-- A character is encoded by a first byte with a mark and as many groups of six bits as the mark
says. -/
theorem exists_writtenIn (c : Char) : ∃ count, WrittenIn c.val.toNat count ∧
    utf8EncodeChar c = .ofNat (c.val.toNat / 64 ^ count + mark count) ::
      sixBitBytes c.val.toNat count := by
  have hmax : c.val.toNat ≤ 0x10ffff := by
    have hvalid := c.valid
    unfold UInt32.isValidChar Nat.isValidChar at hvalid
    omega
  unfold utf8EncodeChar
  generalize c.val.toNat = v at hmax ⊢
  dsimp only
  -- the first byte has room for all bits above the groups of six
  split_ifs with hone htwo hthree
  · exact ⟨0, .one hone, by simp [mark, sixBitBytes]⟩
  · have hfirst : v / 64 % 32 = v / 64 := by omega
    exact ⟨1, .two (by omega) htwo, by simp [mark, sixBitBytes, hfirst]⟩
  · have hfirst : v / 4096 % 16 = v / 4096 := by omega
    exact ⟨2, .three (by omega) hthree, by simp [mark, sixBitBytes, hfirst]⟩
  · have hfirst : v / 262144 % 8 = v / 262144 := by omega
    exact ⟨3, .four (by omega) hmax, by simp [mark, sixBitBytes, hfirst]⟩

/-- Bytes below the bound are ordered as the numbers they stand for. -/
theorem ofNat_lt {a b : Nat} (h : a < b) (hb : b < 256) : UInt8.ofNat a < UInt8.ofNat b := by
  rw [UInt8.lt_iff_toNat_lt, UInt8.toNat_ofNat', UInt8.toNat_ofNat']
  omega

/-- Numbers that agree in all higher bits are in the order of the bytes of the others. -/
theorem sixBitBytes_lt {v w count : Nat} (h : v < w) (hhigh : v / 64 ^ count = w / 64 ^ count)
    (l m : List UInt8) :
    sixBitBytes v count ++ l < sixBitBytes w count ++ m := by
  induction count with
  | zero =>
    simp only [pow_zero, Nat.div_one] at hhigh
    omega
  | succ count ih =>
    rw [Nat.pow_succ, ← Nat.div_div_eq_div_mul, ← Nat.div_div_eq_div_mul] at hhigh
    rw [sixBitBytes, sixBitBytes, List.cons_append, List.cons_append, List.cons_lt_cons_iff]
    -- the highest of the groups decides, unless it is the same in both
    have hle : v / 64 ^ count ≤ w / 64 ^ count := Nat.div_le_div_right (Nat.le_of_lt h)
    rcases Nat.lt_or_eq_of_le hle with hlt | heq
    · exact .inl (ofNat_lt (by omega) (by omega))
    · exact .inr ⟨by rw [heq], ih heq⟩

/-- A code point that is written in fewer bytes has a smaller first byte. -/
theorem first_lt {v w count more : Nat} (hv : WrittenIn v count) (hw : WrittenIn w more) (h : v < w)
    (hne : count ≠ more) :
    UInt8.ofNat (v / 64 ^ count + mark count) < UInt8.ofNat (w / 64 ^ more + mark more) := by
  apply ofNat_lt
  · cases hv <;> cases hw <;> simp only [mark, Nat.reducePow] <;> omega
  · cases hw <;> simp only [mark, Nat.reducePow] <;> omega

/-- **Characters** are in the order of their codes, whatever follows the codes. -/
theorem utf8EncodeChar_lt {c d : Char} (h : c < d) (l m : List UInt8) :
    utf8EncodeChar c ++ l < utf8EncodeChar d ++ m := by
  have hlt : c.val.toNat < d.val.toNat := h
  obtain ⟨count, hcount, hc⟩ := exists_writtenIn c
  obtain ⟨more, hmore, hd⟩ := exists_writtenIn d
  rw [hc, hd, List.cons_append, List.cons_append, List.cons_lt_cons_iff]
  by_cases hne : count = more
  · subst hne
    have hle : c.val.toNat / 64 ^ count ≤ d.val.toNat / 64 ^ count :=
      Nat.div_le_div_right (Nat.le_of_lt hlt)
    rcases Nat.lt_or_eq_of_le hle with hfirst | hfirst
    · left
      apply ofNat_lt
      · omega
      · cases hmore <;> simp only [mark, Nat.reducePow] <;> omega
    · exact .inr ⟨by rw [hfirst], sixBitBytes_lt hlt hfirst l m⟩
  · exact .inl (first_lt hcount hmore hlt hne)

/-! ## The bytes of a text -/

/-- Encoding keeps the order of texts, since it keeps the order of their first difference. -/
theorem flatMap_utf8EncodeChar_lt {l m : List Char} (h : l < m) :
    l.flatMap utf8EncodeChar < m.flatMap utf8EncodeChar := by
  induction h with
  | @nil a l =>
    rw [List.flatMap_cons]
    cases hcode : utf8EncodeChar a with
    | nil => exact absurd hcode utf8EncodeChar_ne_nil
    | cons byte rest => exact List.Lex.nil
  | rel hchar => exact utf8EncodeChar_lt hchar _ _
  | cons _ ih => exact List.append_left_lt ih

/-- The UTF-8 bytes of a text. -/
def bytes (text : String) : List UInt8 := text.toUTF8.data.toList

/-- The bytes of a text are those of its characters in a row. -/
theorem bytes_eq (text : String) : bytes text = text.toList.flatMap utf8EncodeChar := by
  rw [bytes, String.toUTF8, ← String.utf8Encode_toList, List.utf8Encode,
    List.toList_data_toByteArray]

/-- **Texts** are in the order of their bytes. -/
theorem bytes_lt_iff {a b : String} : bytes a < bytes b ↔ a < b := by
  rw [bytes_eq, bytes_eq]
  constructor
  · intro h
    -- otherwise the texts are the same or in the other order, and so are their bytes
    by_contra hab
    by_cases heq : a = b
    · rw [heq] at h
      exact List.lt_irrefl _ h
    · have hba : b < a := by
        by_contra hba
        exact heq (String.le_antisymm hba hab)
      exact List.lt_asymm h (flatMap_utf8EncodeChar_lt hba)
  · exact flatMap_utf8EncodeChar_lt

end Utf8

namespace Condition

variable {a b c : Condition}

/-- The place of the kind of a condition among the kinds. -/
def rank : Condition → Nat
  | stmt _ => 0
  | proc _ => 1
  | var _ => 2
  | const _ => 3

/-- One condition comes before another: statements by number, then procedures by number, then
variables by the bytes of their names, then constants by value. -/
def Before : Condition → Condition → Prop
  | .stmt s, .stmt t => s < t
  | .proc q, .proc r => q < r
  | .var x, .var y => Utf8.bytes x < Utf8.bytes y
  | .const m, .const n => m < n
  | a, b => a.rank < b.rank

/-- **Comparing conditions** says which one comes before the other. -/
theorem compare_eq_lt_iff : compare a b = .lt ↔ Before a b := by
  cases a with
  | stmt s =>
    cases b with
    | stmt t => exact Nat.compare_eq_lt
    | _ => simp [compare_def, Condition.compare, Before, rank]
  | proc q =>
    cases b with
    | proc r => exact Nat.compare_eq_lt
    | _ => simp [compare_def, Condition.compare, Before, rank]
  | var x =>
    cases b with
    | var y => exact compareOfLessAndEq_eq_lt.trans Utf8.bytes_lt_iff.symm
    | _ => simp [compare_def, Condition.compare, Before, rank]
  | const m =>
    cases b with
    | const n => exact compareOfLessAndEq_eq_lt
    | _ => simp [compare_def, Condition.compare, Before, rank]

/-- Of two different conditions one comes before the other, and no condition comes before itself. -/
theorem isStrictTotalOrder_before : IsStrictTotalOrder Condition Before where
  trichotomous a b hab hba := by
    rw [← compare_eq_lt_iff] at hab hba
    cases hcompare : compare a b with
    | lt => exact absurd hcompare hab
    | gt => exact absurd (Std.OrientedCmp.lt_of_gt hcompare) hba
    | eq => exact Std.LawfulEqOrd.eq_of_compare hcompare
  irrefl a h := by
    rw [← compare_eq_lt_iff, (Std.ReflCmp.compare_self : compare a a = .eq)] at h
    cases h
  trans a b c hab hbc := by
    rw [← compare_eq_lt_iff] at hab hbc ⊢
    exact Std.TransCmp.lt_trans hab hbc

end Condition

end ProgramQuery
