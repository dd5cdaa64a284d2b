/-
The heights that are stored with the elements of a run (`patrie/case.c`, `patrie/sort.c`).

The height of two suffixes is the number of the first bit in which they differ, counted from 1.
Within the `SORT_PAD_LEN` bytes that follow a suffix there are 65536 bits, but the largest number
that an `unsigned short` holds is 65535.

* `patrieDiffBit`, `patrieDiffBitCase`, `patrieDiffBitAccent`, `patrieDiffBitCiAi` — the
  functions.
* `FirstDiff` — the first bit in which two suffixes differ.
* `diffbit_eq` — the functions count the bits up to it.
* `heightFits_iff` — exactly which heights are stored.
-/
import Archie.Case

namespace Archie

/-! ### The functions -/

/-- `diffTab`, as `_patrieInitDiffTab` sets it. -/
def diffTab (i : ℕ) : ℕ :=
  if i >>> 1 = 0 then 7
  else if i >>> 2 = 0 then 6
  else if i >>> 3 = 0 then 5
  else if i >>> 4 = 0 then 4
  else if i >>> 5 = 0 then 3
  else if i >>> 6 = 0 then 2
  else if i >>> 7 = 0 then 1
  else 0

/-- What the four functions have in common.  `diff` gives the characters `c0` and `c1` after the
tests of the loop, or none if one of them holds; there is no height, if the loop goes on. -/
def diffBitLoop (diff : UInt8 → UInt8 → Option (UInt8 × UInt8)) (str0 str1 : ℕ → UInt8) :
    ℕ → ℕ → Option ℕ
  | 0, _ => none
  | fuel + 1, i =>
    match diff (str0 i) (str1 i) with
    | none => diffBitLoop diff str0 str1 fuel (i + 1)
    | some (c0, c1) => some (1 + i * 8 + diffTab (c0 ^^^ c1).toNat)

/-- The test of characters, and of characters that have been mapped. -/
def diffMapped (f : UInt8 → UInt8) (c0 c1 : UInt8) : Option (UInt8 × UInt8) :=
  if c0 = c1 then none else if f c0 = f c1 then none else some (f c0, f c1)

/-- `_patrieDiffBit`. -/
def patrieDiffBit : (ℕ → UInt8) → (ℕ → UInt8) → ℕ → ℕ → Option ℕ :=
  diffBitLoop fun c0 c1 => if c0 = c1 then none else some (c0, c1)

/-- `_patrieDiffBitCase`. -/
def patrieDiffBitCase : (ℕ → UInt8) → (ℕ → UInt8) → ℕ → ℕ → Option ℕ :=
  diffBitLoop (diffMapped toLower)

/-- `_patrieDiffBitAccent`. -/
def patrieDiffBitAccent : (ℕ → UInt8) → (ℕ → UInt8) → ℕ → ℕ → Option ℕ :=
  diffBitLoop (diffMapped noAccent)

/-- `_patrieDiffBitCiAi`. -/
def patrieDiffBitCiAi : (ℕ → UInt8) → (ℕ → UInt8) → ℕ → ℕ → Option ℕ :=
  diffBitLoop fun c0 c1 =>
    if c0 = c1 then none
    else if noAccent c0 = noAccent c1 then none
    else diffMapped toLower (noAccent c0) (noAccent c1)

/-- The function that is `diffbit` for a kind of comparison. -/
def Sens.diffbit : Sens → (ℕ → UInt8) → (ℕ → UInt8) → ℕ → ℕ → Option ℕ
  | ciai => patrieDiffBitCiAi
  | cias => patrieDiffBitCase
  | csai => patrieDiffBitAccent
  | csas => patrieDiffBit

/-- What an `unsigned short` such as `lh` and `rh` holds. -/
def heightField (diff : ℕ) : ℕ := diff % 65536

/-- `SORT_PAD_LEN`. -/
def sortPadLen : ℕ := 8 * 1024

/-! ### Bits -/

/-- Bit `i` of a suffix as it is compared; bit 0 is the most significant bit of the first
character. -/
def suffixBit (fold : UInt8 → UInt8) (str : ℕ → UInt8) (i : ℕ) : Bool :=
  (fold (str (i / 8))).toNat.testBit (7 - i % 8)

/-- `b` is the first bit in which two suffixes differ. -/
structure FirstDiff (fold : UInt8 → UInt8) (str0 str1 : ℕ → UInt8) (b : ℕ) : Prop where
  agree : ∀ i < b, suffixBit fold str0 i = suffixBit fold str1 i
  differ : suffixBit fold str0 b ≠ suffixBit fold str1 b

/-- **The claim about two suffixes**: the height is stored as it is, and is not the end mark. -/
def HeightFits (sens : Sens) (str0 str1 : ℕ → UInt8) : Prop :=
  ∃ fuel h, sens.diffbit str0 str1 fuel 0 = some h ∧ heightField h = h ∧ heightField h ≠ 0

/-- The table gives the first bit that is set. -/
theorem diffTab_spec {x : ℕ} (hx : x < 256) (hne : x ≠ 0) :
    diffTab x < 8 ∧ x.testBit (7 - diffTab x) = true ∧
      ∀ j < diffTab x, x.testBit (7 - j) = false := by
  have hall : ∀ x < 256, x ≠ 0 → diffTab x < 8 ∧ x.testBit (7 - diffTab x) = true ∧
      ∀ j < diffTab x, x.testBit (7 - j) = false := by decide +kernel
  exact hall x hx hne

/-- The first bit in which two characters differ. -/
theorem diffTab_xor {a b : UInt8} {j : ℕ}
    (hagree : ∀ i < j, a.toNat.testBit (7 - i) = b.toNat.testBit (7 - i))
    (hdiffer : a.toNat.testBit (7 - j) ≠ b.toNat.testBit (7 - j)) :
    diffTab (a ^^^ b).toNat = j := by
  have hbit : ∀ i, (a ^^^ b).toNat.testBit i = (a.toNat.testBit i ^^ b.toNat.testBit i) := by
    intro i
    rw [UInt8.toNat_xor, Nat.testBit_xor]
  have hset : (a ^^^ b).toNat.testBit (7 - j) = true := by
    rw [hbit]
    exact Bool.xor_iff_ne.mpr hdiffer
  have hne : (a ^^^ b).toNat ≠ 0 := by
    intro h
    rw [h, Nat.zero_testBit] at hset
    exact Bool.false_ne_true hset
  obtain ⟨-, htab, hbefore⟩ := diffTab_spec (a ^^^ b).toNat_lt hne
  rcases Nat.lt_trichotomy (diffTab (a ^^^ b).toNat) j with hlt | heq | hgt
  · rw [hbit, hagree _ hlt, Bool.xor_self] at htab
    exact absurd htab Bool.false_ne_true
  · exact heq
  · rw [hbefore j hgt] at hset
    exact absurd hset Bool.false_ne_true

/-! ### Heights -/

/-- The four functions compare folded characters. -/
theorem diffbit_eq_loop (sens : Sens) : sens.diffbit = diffBitLoop fun c0 c1 =>
    if sens.fold c0 = sens.fold c1 then none else some (sens.fold c0, sens.fold c1) := by
  have hmapped : ∀ f : UInt8 → UInt8, diffMapped f = fun c0 c1 =>
      if f c0 = f c1 then none else some (f c0, f c1) := by
    intro f
    funext c0 c1
    rw [diffMapped]
    by_cases hc : c0 = c1
    · rw [if_pos hc, if_pos (congrArg f hc)]
    · rw [if_neg hc]
  cases sens with
  | ciai =>
    show diffBitLoop _ = _
    congr 1
    funext c0 c1
    rw [hmapped]
    by_cases hc : noAccent c0 = noAccent c1
    · have hfold : Sens.fold .ciai c0 = Sens.fold .ciai c1 := congrArg toLower hc
      rw [if_pos hc, if_pos hfold]
      exact ite_self none
    · rw [if_neg (fun h => hc (congrArg noAccent h)), if_neg hc]
      rfl
  | cias => exact congrArg diffBitLoop (hmapped toLower)
  | csai => exact congrArg diffBitLoop (hmapped noAccent)
  | csas => rfl

theorem diffBitLoop_eq {fold : UInt8 → UInt8} {str0 str1 : ℕ → UInt8} (d : ℕ) {k : ℕ}
    (hagree : ∀ j < d, fold (str0 (k + j)) = fold (str1 (k + j)))
    (hdiffer : fold (str0 (k + d)) ≠ fold (str1 (k + d))) (fuel : ℕ) :
    diffBitLoop (fun c0 c1 => if fold c0 = fold c1 then none else some (fold c0, fold c1))
        str0 str1 fuel k =
      if d < fuel then
        some (1 + (k + d) * 8 + diffTab (fold (str0 (k + d)) ^^^ fold (str1 (k + d))).toNat)
      else none := by
  induction fuel generalizing d k with
  | zero => rfl
  | succ fuel ih =>
    rw [diffBitLoop]
    cases d with
    | zero =>
      have hnow : fold (str0 k) ≠ fold (str1 k) := hdiffer
      rw [if_neg hnow]
      rfl
    | succ d =>
      have hk : k + (d + 1) = k + 1 + d := by omega
      have hfirst : fold (str0 k) = fold (str1 k) := hagree 0 (Nat.succ_pos d)
      rw [if_pos hfirst]
      show diffBitLoop _ str0 str1 fuel (k + 1) = _
      rw [hk] at hdiffer ⊢
      rw [ih d (fun j hj => ?_) hdiffer]
      · simp only [Nat.succ_lt_succ_iff]
      · have h := hagree (j + 1) (Nat.succ_lt_succ hj)
        rwa [show k + (j + 1) = k + 1 + j by omega] at h

/-- **The functions** give the number of the first bit in which the suffixes differ. -/
theorem diffbit_eq (sens : Sens) {str0 str1 : ℕ → UInt8} {b : ℕ}
    (h : FirstDiff sens.fold str0 str1 b) (fuel : ℕ) :
    sens.diffbit str0 str1 fuel 0 = if b / 8 < fuel then some (1 + b) else none := by
  have hagree : ∀ j < b / 8, sens.fold (str0 (0 + j)) = sens.fold (str1 (0 + j)) := by
    intro j hj
    rw [Nat.zero_add]
    refine eq_of_bits fun i hi => ?_
    have hbit := h.agree (8 * j + i) (by omega)
    rwa [suffixBit, suffixBit, show (8 * j + i) / 8 = j by omega,
      show (8 * j + i) % 8 = i by omega] at hbit
  have hbit : (sens.fold (str0 (b / 8))).toNat.testBit (7 - b % 8) ≠
      (sens.fold (str1 (b / 8))).toNat.testBit (7 - b % 8) := h.differ
  have hdiffer : sens.fold (str0 (0 + b / 8)) ≠ sens.fold (str1 (0 + b / 8)) := by
    rw [Nat.zero_add]
    exact fun heq => hbit (by rw [heq])
  have htab : diffTab (sens.fold (str0 (b / 8)) ^^^ sens.fold (str1 (b / 8))).toNat = b % 8 := by
    refine diffTab_xor (fun i hi => ?_) hbit
    have hprev := h.agree (8 * (b / 8) + i) (by omega)
    rwa [suffixBit, suffixBit, show (8 * (b / 8) + i) / 8 = b / 8 by omega,
      show (8 * (b / 8) + i) % 8 = i by omega] at hprev
  rw [diffbit_eq_loop, diffBitLoop_eq (b / 8) hagree hdiffer, Nat.zero_add, htab,
    show 1 + b / 8 * 8 + b % 8 = 1 + b by omega]

/-- **The height of two suffixes** that differ within `SORT_PAD_LEN` bytes is stored as it is,
unless they differ in the very last bit only. -/
theorem heightFits_iff (sens : Sens) {str0 str1 : ℕ → UInt8} {b : ℕ}
    (h : FirstDiff sens.fold str0 str1 b) (hb : b < 8 * sortPadLen) :
    HeightFits sens str0 str1 ↔ b ≠ 8 * sortPadLen - 1 := by
  have hpad : 8 * sortPadLen = 65536 := rfl
  rw [hpad] at hb ⊢
  constructor
  · rintro ⟨fuel, d, hd, hsame, hpos⟩ hlast
    rw [diffbit_eq sens h] at hd
    split at hd
    · obtain rfl := Option.some.inj hd
      rw [hlast] at hpos
      exact hpos rfl
    · cases hd
  · intro hne
    refine ⟨b / 8 + 1, 1 + b, ?_, ?_, ?_⟩
    · rw [diffbit_eq sens h, if_pos (Nat.lt_succ_self _)]
    · exact Nat.mod_eq_of_lt (by omega)
    · rw [heightField, Nat.mod_eq_of_lt (by omega)]
      omega

/-- A text that has `c` at the last of the `SORT_PAD_LEN` bytes. -/
def lastByte (c : UInt8) (i : ℕ) : UInt8 := if i = sortPadLen - 1 then c else 1

theorem firstDiff_lastByte {c d : UInt8} {j : ℕ} (hj : j < 8)
    (hagree : ∀ i < j, c.toNat.testBit (7 - i) = d.toNat.testBit (7 - i))
    (hdiffer : c.toNat.testBit (7 - j) ≠ d.toNat.testBit (7 - j)) :
    FirstDiff (Sens.fold .csas) (lastByte c) (lastByte d) (8 * (sortPadLen - 1) + j) where
  agree := by
    intro i hi
    rw [suffixBit, suffixBit, lastByte, lastByte]
    split
    next hlast => exact hagree (i % 8) (by omega)
    next => rfl
  differ := by
    have hbyte : (8 * (sortPadLen - 1) + j) / 8 = sortPadLen - 1 := by omega
    have hrest : (8 * (sortPadLen - 1) + j) % 8 = j := by omega
    rw [suffixBit, suffixBit, hbyte, hrest, lastByte, lastByte, if_pos rfl, if_pos rfl]
    exact hdiffer

/-- A difference in the last bit but one is stored. -/
theorem heightFits_sample : HeightFits .csas (lastByte 1) (lastByte 2) :=
  (heightFits_iff .csas (firstDiff_lastByte (j := 6) (by decide) (by decide +kernel) (by decide +kernel))
    (by decide)).mpr (by decide)

/-- One in the last bit becomes 0, the end mark. -/
theorem not_heightFits :
    ¬ ∀ (sens : Sens) (str0 str1 : ℕ → UInt8) (b : ℕ), FirstDiff sens.fold str0 str1 b →
      b < 8 * sortPadLen → HeightFits sens str0 str1 := by
  intro h
  have hfirst := firstDiff_lastByte (c := 2) (d := 3) (j := 7) (by decide) (by decide +kernel)
    (by decide +kernel)
  obtain ⟨fuel, d, hd, -, hpos⟩ := h .csas _ _ _ hfirst (by decide)
  rw [diffbit_eq .csas hfirst] at hd
  split at hd
  · obtain rfl := Option.some.inj hd
    exact hpos rfl
  · cases hd

end Archie
