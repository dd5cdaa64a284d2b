/-
Case and accents (`case.c`): the two folding tables over Latin-1.

* `patrieChLowerCase`, `patrieChNoAccent` — the tables of the source.
* `Sens.fold` — the folding of each of the four kinds of comparison.
* `fold_eq_zero_iff` — only NUL folds to NUL.
* `lower_noAccent` — the two foldings commute, so the order in which a search
  applies them to its key does not matter.
-/
import Archie.CInt
import Mathlib.Data.List.GetD

namespace Archie

/-- `_patrieChLowerCase`. -/
def patrieChLowerCase : List UInt8 :=
  [0, 1, 2, 3, 4, 5, 6, 7, 8, 9, 10, 11, 12, 13, 14, 15,
    16, 17, 18, 19, 20, 21, 22, 23, 24, 25, 26, 27, 28, 29, 30, 31,
    32, 33, 34, 35, 36, 37, 38, 39, 40, 41, 42, 43, 44, 45, 46, 47,
    48, 49, 50, 51, 52, 53, 54, 55, 56, 57, 58, 59, 60, 61, 62, 63,
    64, 97, 98, 99, 100, 101, 102, 103, 104, 105, 106, 107, 108, 109, 110, 111,
    112, 113, 114, 115, 116, 117, 118, 119, 120, 121, 122, 91, 92, 93, 94, 95,
    96, 97, 98, 99, 100, 101, 102, 103, 104, 105, 106, 107, 108, 109, 110, 111,
    112, 113, 114, 115, 116, 117, 118, 119, 120, 121, 122, 123, 124, 125, 126, 127,
    128, 129, 130, 131, 132, 133, 134, 135, 136, 137, 138, 139, 140, 141, 142, 143,
    144, 145, 146, 147, 148, 149, 150, 151, 152, 153, 154, 155, 156, 157, 158, 159,
    160, 161, 162, 163, 164, 165, 166, 167, 168, 169, 170, 171, 172, 173, 174, 175,
    176, 177, 178, 179, 180, 181, 182, 183, 184, 185, 186, 187, 188, 189, 190, 191,
    224, 225, 226, 227, 228, 229, 230, 231, 232, 233, 234, 235, 236, 237, 238, 239,
    240, 241, 242, 243, 244, 245, 246, 215, 248, 249, 250, 251, 252, 253, 254, 223,
    224, 225, 226, 227, 228, 229, 230, 231, 232, 233, 234, 235, 236, 237, 238, 239,
    240, 241, 242, 243, 244, 245, 246, 247, 248, 249, 250, 251, 252, 253, 254, 255]

/-- `_patrieChNoAccent`. -/
def patrieChNoAccent : List UInt8 :=
  [0, 1, 2, 3, 4, 5, 6, 7, 8, 9, 10, 11, 12, 13, 14, 15,
    16, 17, 18, 19, 20, 21, 22, 23, 24, 25, 26, 27, 28, 29, 30, 31,
    32, 33, 34, 35, 36, 37, 38, 39, 40, 41, 42, 43, 44, 45, 46, 47,
    48, 49, 50, 51, 52, 53, 54, 55, 56, 57, 58, 59, 60, 61, 62, 63,
    64, 65, 66, 67, 68, 69, 70, 71, 104, 73, 74, 75, 76, 77, 78, 79,
    112, 81, 82, 83, 84, 85, 86, 87, 120, 89, 90, 91, 92, 93, 94, 95,
    96, 97, 98, 99, 100, 101, 102, 103, 104, 105, 106, 107, 108, 109, 110, 111,
    112, 113, 114, 115, 116, 117, 118, 119, 120, 121, 122, 123, 124, 125, 126, 127,
    128, 129, 130, 131, 132, 133, 134, 135, 136, 137, 138, 139, 140, 141, 142, 143,
    144, 145, 146, 147, 148, 149, 150, 151, 152, 153, 154, 155, 156, 157, 158, 159,
    160, 161, 162, 163, 164, 165, 166, 167, 168, 169, 170, 171, 172, 173, 174, 175,
    176, 177, 178, 179, 180, 181, 182, 183, 184, 185, 186, 187, 188, 189, 190, 191,
    65, 65, 65, 65, 65, 65, 198, 67, 69, 69, 69, 69, 73, 73, 73, 73,
    208, 78, 79, 79, 79, 79, 79, 215, 79, 85, 85, 85, 85, 89, 222, 223,
    97, 97, 97, 97, 97, 97, 230, 99, 101, 101, 101, 101, 105, 105, 105, 105,
    240, 110, 111, 111, 111, 111, 111, 247, 111, 117, 117, 117, 117, 121, 254, 121]

/-- `TOLOWER`. -/
def toLower (c : UInt8) : UInt8 := patrieChLowerCase.getD c.toNat 0

/-- `NoAccent`. -/
def noAccent (c : UInt8) : UInt8 := patrieChNoAccent.getD c.toNat 0

/-- The kinds of comparison: `CMP_CIAI`, `CMP_CIAS`, `CMP_CSAI` and `CMP_CSAS`. -/
inductive Sens
  | ciai
  | cias
  | csai
  | csas
  deriving DecidableEq, Repr

/-- The values of the `CMP_` constants. -/
def Sens.code : Sens → ℤ
  | ciai => 0
  | cias => 1
  | csai => 2
  | csas => 3

/-- The characters that a comparison treats alike fold to the same character. -/
def Sens.fold : Sens → UInt8 → UInt8
  | ciai => fun c => toLower (noAccent c)
  | cias => toLower
  | csai => noAccent
  | csas => id

theorem lower_noAccent (c : UInt8) : toLower (noAccent c) = noAccent (toLower c) := by
  refine forall_uint8 (P := fun c => toLower (noAccent c) = noAccent (toLower c)) ?_ c
  decide +kernel

theorem toLower_eq_zero_iff (c : UInt8) : toLower c = 0 ↔ c = 0 := by
  refine forall_uint8 (P := fun c => toLower c = 0 ↔ c = 0) ?_ c
  decide +kernel

theorem noAccent_eq_zero_iff (c : UInt8) : noAccent c = 0 ↔ c = 0 := by
  refine forall_uint8 (P := fun c => noAccent c = 0 ↔ c = 0) ?_ c
  decide +kernel

/-- Only NUL folds to NUL. -/
theorem fold_eq_zero_iff (s : Sens) (c : UInt8) : s.fold c = 0 ↔ c = 0 := by
  cases s with
  | ciai => exact (toLower_eq_zero_iff _).trans (noAccent_eq_zero_iff c)
  | cias => exact toLower_eq_zero_iff c
  | csai => exact noAccent_eq_zero_iff c
  | csas => exact Iff.rfl

/-! ### Bits of a text -/

/-- Bit `i` of a text followed by NULs, folded; bit 0 is the most significant
bit of the first character. -/
def textBits (fold : UInt8 → UInt8) (t : List UInt8) (i : ℕ) : Bool :=
  (fold (t.getD (i / 8) 0)).toNat.testBit (7 - i % 8)

/-- A character is determined by its bits. -/
theorem eq_of_bits {a b : UInt8} (h : ∀ j < 8, a.toNat.testBit (7 - j) = b.toNat.testBit (7 - j)) :
    a = b := by
  refine UInt8.toNat_inj.mp (Nat.eq_of_testBit_eq fun i => ?_)
  by_cases hi : i < 8
  · have hj := h (7 - i) (by omega)
    rwa [show 7 - (7 - i) = i by omega] at hj
  · have hp : 2 ^ 8 ≤ 2 ^ i := Nat.pow_le_pow_right (by decide) (by omega)
    rw [Nat.testBit_lt_two_pow (lt_of_lt_of_le a.toNat_lt hp),
      Nat.testBit_lt_two_pow (lt_of_lt_of_le b.toNat_lt hp)]

/-- Two texts agree on `n` characters when their first `8 * n` bits agree. -/
theorem textBits_agree_iff {fold : UInt8 → UInt8} {s t : List UInt8} {n : ℕ} :
    (∀ i < 8 * n, textBits fold s i = textBits fold t i) ↔
      ∀ j < n, fold (s.getD j 0) = fold (t.getD j 0) := by
  constructor
  · intro h j hj
    refine eq_of_bits fun b hb => ?_
    have hbit := h (8 * j + b) (by omega)
    rwa [textBits, textBits, show (8 * j + b) / 8 = j by omega,
      show (8 * j + b) % 8 = b by omega] at hbit
  · intro h i hi
    rw [textBits, textBits, h (i / 8) (by omega)]

end Archie
