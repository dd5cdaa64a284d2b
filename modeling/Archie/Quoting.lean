/-
Quoting of characters by `%` and two digits (`ppc/lib/quoting.c`).

* `quotedSize`, `quoteString`, `dequotedSize`, `dequoteString` — the functions.
* `length_quoteLoop` — the quoted string fits into the memory that is allocated.
* `dequoteString_quoteLoop` — a string that has been quoted is restored.
-/
import Archie.CText
import Mathlib.Data.List.GetD

namespace Archie

/-! ### The functions -/

/-- `IS_HEX`. -/
def isHex (c : UInt8) : Bool := isDigit c || (97 ≤ c && c ≤ 102) || (65 ≤ c && c ≤ 70)

/-- `HEX`. -/
def hexVal (c : UInt8) : UInt8 :=
  if isDigit c then c - 48 else if 97 ≤ c && c ≤ 102 then c - 97 + 10 else c - 65 + 10

/-- A digit as `%02x` prints it. -/
def hexChar (n : ℕ) : UInt8 := if n < 10 then UInt8.ofNat (48 + n) else UInt8.ofNat (87 + n)

/-- `dequoted_size` after `len` characters and `n` quotes; `QCHAR` is `%`. -/
def dequotedSizeLoop : List UInt8 → ℕ → ℕ → ℤ
  | [], len, n => (len : ℤ) - n * 3 + n
  | c :: s, len, n =>
    if c = 37 then
      if isHex (s.getD 0 0) && isHex (s.getD 1 0) then dequotedSizeLoop s (len + 1) (n + 1) else -1
    else dequotedSizeLoop s (len + 1) n

def dequotedSize (s : List UInt8) : ℤ := dequotedSizeLoop s 0 0

/-- `quoted_size` after `len` characters of which `n` are to be quoted. -/
def quotedSizeLoop (safech : UInt8 → Bool) : List UInt8 → ℕ → ℕ → ℕ
  | [], len, n => len - n + n * 3
  | c :: s, len, n => quotedSizeLoop safech s (len + 1) (if safech c then n else n + 1)

def quotedSize (safech : UInt8 → Bool) (s : List UInt8) : ℕ := quotedSizeLoop safech s 0 0

/-- The loop of `dequote_string`. -/
def dequoteLoop : List UInt8 → List UInt8
  | [] => []
  | [c] => [c]
  | [c, d] => [c, d]
  | c :: d :: e :: s =>
    if c = 37 then (hexVal d <<< 4 ||| hexVal e) :: dequoteLoop s
      else c :: dequoteLoop (d :: e :: s)

/-- `dequote_string`; the string ends at a NUL. -/
def dequoteString (s : List UInt8) : Option (List UInt8) :=
  if dequotedSize s = -1 then none else some ((dequoteLoop s).takeWhile (· ≠ 0))

/-- A character with its quote. -/
def quoteChar (c : UInt8) : List UInt8 := [37, hexChar (c.toNat / 16), hexChar (c.toNat % 16)]

/-- The loop of `quote_string`. -/
def quoteLoop (safech : UInt8 → Bool) (s : List UInt8) : List UInt8 :=
  s.flatMap fun c => if safech c then [c] else quoteChar c

/-- `quote_string`. -/
def quoteString (s : List UInt8) (safech : UInt8 → Bool) : List UInt8 :=
  if quotedSize safech s ≤ s.length then s else quoteLoop safech s

/-! ### Sizes -/

theorem quotedSizeLoop_eq (safech : UInt8 → Bool) (s : List UInt8) {len n : ℕ} (h : n ≤ len) :
    quotedSizeLoop safech s len n = len + 2 * n + (quoteLoop safech s).length := by
  induction s generalizing len n with
  | nil =>
    rw [quotedSizeLoop, quoteLoop, List.flatMap_nil, List.length_nil]
    omega
  | cons c s ih =>
    rw [quotedSizeLoop, quoteLoop, List.flatMap_cons, List.length_append, ← quoteLoop]
    by_cases hc : safech c = true
    · rw [if_pos hc, if_pos hc, ih (by omega), List.length_singleton]
      omega
    · rw [if_neg hc, if_neg hc, ih (by omega), quoteChar]
      simp only [List.length_cons, List.length_nil]
      omega

/-- The quoted string fills the memory that it gets. -/
theorem length_quoteLoop (safech : UInt8 → Bool) (s : List UInt8) :
    (quoteLoop safech s).length = quotedSize safech s := by
  rw [quotedSize, quotedSizeLoop_eq safech s le_rfl]
  omega

theorem length_le_quoteLoop (safech : UInt8 → Bool) (s : List UInt8) :
    s.length ≤ (quoteLoop safech s).length := by
  induction s with
  | nil => exact le_rfl
  | cons c s ih =>
    rw [quoteLoop, List.flatMap_cons, List.length_append, ← quoteLoop, List.length_cons]
    split
    · rw [List.length_singleton]
      omega
    · rw [quoteChar]
      simp only [List.length_cons, List.length_nil]
      omega

/-- A string that is not longer when it is quoted is all safe, so that it does not matter that it
is only copied. -/
theorem quoteString_eq (s : List UInt8) (safech : UInt8 → Bool) :
    quoteString s safech = quoteLoop safech s := by
  rw [quoteString, ← length_quoteLoop]
  split
  next hle =>
    induction s with
    | nil => rfl
    | cons c s ih =>
      rw [quoteLoop, List.flatMap_cons, ← quoteLoop] at hle ⊢
      have hrest := length_le_quoteLoop safech s
      by_cases hc : safech c = true
      · rw [if_pos hc] at hle ⊢
        rw [List.singleton_append, List.length_cons, List.length_cons] at hle
        rw [List.singleton_append, ← ih (Nat.le_of_succ_le_succ hle)]
      · rw [if_neg hc, List.length_append, quoteChar] at hle
        simp only [List.length_cons, List.length_nil] at hle
        omega
  next => rfl

theorem ne_percent_of_isHex {c : UInt8} (h : isHex c = true) : c ≠ 37 := by
  rintro rfl
  exact absurd h (by decide)

theorem dequotedSizeLoop_of_ne {c : UInt8} (hc : c ≠ 37) (s : List UInt8) (len n : ℕ) :
    dequotedSizeLoop (c :: s) len n = dequotedSizeLoop s (len + 1) n := by
  rw [dequotedSizeLoop, if_neg hc]

/-- The digits of a quote are counted like other characters. -/
theorem dequotedSizeLoop_quote {d e : UInt8} (hd : isHex d = true) (he : isHex e = true)
    (s : List UInt8)
    (len n : ℕ) : dequotedSizeLoop (37 :: d :: e :: s) len n = dequotedSizeLoop s (len + 3)
    (n + 1) := by
  rw [dequotedSizeLoop, if_pos rfl, List.getD_cons_zero, List.getD_cons_succ, List.getD_cons_zero,
    hd, he,
    Bool.and_self, if_pos rfl, dequotedSizeLoop_of_ne (ne_percent_of_isHex hd),
    dequotedSizeLoop_of_ne (ne_percent_of_isHex he)]

/-! ### Quoting and back -/

/-- The two digits of a character. -/
theorem hexChar_pair (c : UInt8) :
    isHex (hexChar (c.toNat / 16)) = true ∧ isHex (hexChar (c.toNat % 16)) = true ∧
      hexVal (hexChar (c.toNat / 16)) <<< 4 ||| hexVal (hexChar (c.toNat % 16)) = c := by
  refine forall_uint8 (P := fun c => isHex (hexChar (c.toNat / 16)) = true ∧
    isHex (hexChar (c.toNat % 16)) = true ∧
      hexVal (hexChar (c.toNat / 16)) <<< 4 ||| hexVal (hexChar (c.toNat % 16)) = c) ?_ c
  decide +kernel

theorem dequoteLoop_of_ne {c : UInt8} (hc : c ≠ 37) (s : List UInt8) :
    dequoteLoop (c :: s) = c :: dequoteLoop s := by
  match s with
  | [] => rfl
  | [d] => rfl
  | d :: e :: s => rw [dequoteLoop, if_neg hc]

section

variable {safech : UInt8 → Bool}

/-- **A quoted string is restored.** -/
theorem dequoteLoop_quoteLoop (hsafe : safech 37 = false) (s t : List UInt8) :
    dequoteLoop (quoteLoop safech s ++ t) = s ++ dequoteLoop t := by
  induction s with
  | nil => rfl
  | cons c s ih =>
    rw [quoteLoop, List.flatMap_cons, ← quoteLoop, List.append_assoc, List.cons_append, ← ih]
    split
    next hc =>
      have hne : c ≠ 37 := by
        rintro rfl
        exact absurd (hsafe.symm.trans hc) Bool.false_ne_true
      rw [List.singleton_append, dequoteLoop_of_ne hne]
    next =>
      rw [quoteChar, List.cons_append, List.cons_append, List.cons_append, List.nil_append,
        dequoteLoop, if_pos rfl,
        (hexChar_pair c).2.2]

/-- A quoted string is properly quoted. -/
theorem dequotedSizeLoop_quoteLoop (hsafe : safech 37 = false) (s t : List UInt8) (len n : ℕ) :
    ∃ len' n', dequotedSizeLoop (quoteLoop safech s ++ t) len n = dequotedSizeLoop t len' n' ∧
      len' + 2 * n = len + 2 * n' + s.length := by
  induction s generalizing len n with
  | nil => exact ⟨len, n, rfl, rfl⟩
  | cons c s ih =>
    rw [quoteLoop, List.flatMap_cons, ← quoteLoop, List.append_assoc]
    split
    next hc =>
      have hne : c ≠ 37 := by
        rintro rfl
        exact absurd (hsafe.symm.trans hc) Bool.false_ne_true
      obtain ⟨len', n', heq, hlen⟩ := ih (len + 1) n
      refine ⟨len', n', by rw [List.singleton_append, dequotedSizeLoop_of_ne hne, heq], ?_⟩
      rw [List.length_cons]
      omega
    next =>
      obtain ⟨len', n', heq, hlen⟩ := ih (len + 3) (n + 1)
      refine ⟨len', n', ?_, ?_⟩
      · rw [quoteChar, List.cons_append, List.cons_append, List.cons_append, List.nil_append,
          dequotedSizeLoop_quote (hexChar_pair c).1 (hexChar_pair c).2.1, heq]
      · rw [List.length_cons]
        omega

/-- A string without NUL is restored after it has been quoted, also behind characters that are no
quotes. -/
theorem dequoteString_quoteLoop (hsafe : safech 37 = false) {c : UInt8} (hc : c ≠ 37 ∧ c ≠ 0)
    {s : List UInt8}
    (hs : 0 ∉ s) : dequoteString (c :: quoteLoop safech s) = some (c :: s) := by
  have hsize : dequotedSize (c :: quoteLoop safech s) ≠ -1 := by
    obtain ⟨len', n', heq, hlen⟩ := dequotedSizeLoop_quoteLoop hsafe s [] 1 0
    rw [List.append_nil] at heq
    rw [dequotedSize, dequotedSizeLoop_of_ne hc.1, heq, dequotedSizeLoop]
    omega
  have hloop := dequoteLoop_quoteLoop hsafe s []
  rw [List.append_nil, dequoteLoop, List.append_nil] at hloop
  rw [dequoteString, if_neg hsize, dequoteLoop_of_ne hc.1, hloop]
  congr 1
  rw [List.takeWhile_eq_self_iff]
  intro d hd
  rw [decide_eq_true_iff]
  rintro rfl
  rcases List.mem_cons.mp hd with h0 | h0
  · exact hc.2 h0.symm
  · exact hs h0

/-- What a quoted string consists of. -/
theorem mem_quoteLoop {s : List UInt8} {c : UInt8} (h : c ∈ quoteLoop safech s) :
    safech c = true ∨ c = 37 ∨ isHex c = true := by
  obtain ⟨d, -, hmem⟩ := List.mem_flatMap.mp h
  split at hmem
  next hd => exact Or.inl (List.mem_singleton.mp hmem ▸ hd)
  next =>
    obtain ⟨hhi, hlo, -⟩ := hexChar_pair d
    rw [quoteChar] at hmem
    rcases List.mem_cons.mp hmem with rfl | hmem
    · exact Or.inr (Or.inl rfl)
    · rcases List.mem_cons.mp hmem with rfl | hmem
      · exact Or.inr (Or.inr hhi)
      · exact Or.inr (Or.inr (List.mem_singleton.mp hmem ▸ hlo))

end

end Archie
