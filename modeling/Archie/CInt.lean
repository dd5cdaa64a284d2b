/-
Machine integers and characters of the ILP32 platforms the sources target.

`unsigned long` and `size_t` have 32 bits (`state.c` refuses to compile when
they are wider), `int` and `long` are 32-bit two's complement, and a plain
`char` is signed.  Values are kept in `ℕ` and `ℤ`; the two conversions that
can change a value are explicit functions:

* `ulong` — `int` to `unsigned long`, wrapping modulo `2 ^ 32`;
* `sint` — `unsigned long` to `int`, undoing `ulong` on the range of `int`
  (`sint_ulong`).
-/
import Mathlib.Tactic.NormNum
import Mathlib.Tactic.Push

namespace Archie

/-- `ULONG_MAX + 1`. -/
def wordSize : ℕ := 4294967296

/-- Conversion of an `int` to `unsigned long`. -/
def ulong (i : ℤ) : ℕ := (i % 4294967296).toNat

/-- Conversion of an `unsigned long` to `int`. -/
def sint (n : ℕ) : ℤ := if n % wordSize < 2147483648 then (n % wordSize : ℕ)
  else (n % wordSize : ℕ) - 4294967296

/-- The values a 32-bit `int` can hold. -/
def IsInt (i : ℤ) : Prop := -2147483648 ≤ i ∧ i < 2147483648

instance (i : ℤ) : Decidable (IsInt i) := inferInstanceAs (Decidable (_ ∧ _))

/-- A plain `char`, promoted to `int`. -/
def charVal (c : UInt8) : ℤ := if c.toNat < 128 then c.toNat else (c.toNat : ℤ) - 256

theorem ulong_lt (i : ℤ) : ulong i < wordSize := by
  have h0 := Int.emod_nonneg i (show (4294967296 : ℤ) ≠ 0 by norm_num)
  have h1 := Int.emod_lt_of_pos i (show (0 : ℤ) < 4294967296 by norm_num)
  unfold ulong wordSize
  omega

theorem sint_ulong {i : ℤ} (h : IsInt i) : sint (ulong i) = i := by
  obtain ⟨h0, h1⟩ := h
  rw [sint, Nat.mod_eq_of_lt (ulong_lt i)]
  unfold ulong
  by_cases hi : 0 ≤ i
  · rw [Int.emod_eq_of_lt hi (by omega)]
    rw [if_pos (by omega)]
    omega
  · have hm : i % 4294967296 = i + 4294967296 := by omega
    rw [hm, if_neg (by omega)]
    omega

theorem sint_natCast {n : ℕ} (hn : n < 2147483648) : sint n = n := by
  rw [sint, wordSize, Nat.mod_eq_of_lt (by omega), if_pos hn]

/-- A natural number below `2 ^ 31` survives the trip through `int`. -/
theorem ulong_natCast {n : ℕ} (h : n < wordSize) : ulong n = n := by
  unfold ulong wordSize at *
  omega

/-- A property of all characters can be checked on their codes. -/
theorem forall_uint8 {P : UInt8 → Prop} (h : ∀ n < 256, P (UInt8.ofNat n)) (c : UInt8) : P c := by
  have hc := h c.toNat c.toNat_lt
  rwa [UInt8.ofNat_toNat] at hc

end Archie
