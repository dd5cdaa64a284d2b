/-
Base64 (`ferretd/authorization.c`).

* `base64Text` — the padded text of bytes.
* `decode` — the decoder of the server.
* `decode_base64Text` — what it makes of the text of bytes, within its buffer.
-/
import Archie.CText

namespace Archie

/-- The character of a value of six bits. -/
def base64Char (n : ℕ) : UInt8 :=
  if n < 26 then UInt8.ofNat (65 + n)
  else if n < 52 then UInt8.ofNat (97 + (n - 26))
  else if n < 62 then UInt8.ofNat (48 + (n - 52))
  else if n = 62 then 43
  else 47

/-- The text of bytes, three at a time. -/
def base64Text : List UInt8 → List UInt8
  | [] => []
  | [a] => [base64Char (a.toNat / 4), base64Char (a.toNat % 4 * 16), 61, 61]
  | [a, b] =>
    [base64Char (a.toNat / 4), base64Char (a.toNat % 4 * 16 + b.toNat / 16),
      base64Char (b.toNat % 16 * 4), 61]
  | a :: b :: c :: s =>
    base64Char (a.toNat / 4) :: base64Char (a.toNat % 4 * 16 + b.toNat / 16) ::
      base64Char (b.toNat % 16 * 4 + c.toNat / 64) :: base64Char (c.toNat % 64) :: base64Text s

/-- `DecodeVector`, as `init_DecodeVector` fills it. -/
def decodeVector (c : UInt8) : ℕ :=
  if 65 ≤ c ∧ c ≤ 90 then c.toNat - 65
  else if 97 ≤ c ∧ c ≤ 122 then c.toNat - 97 + 26
  else if 48 ≤ c ∧ c ≤ 57 then c.toNat - 48 + 52
  else if c = 43 then 62
  else if c = 47 then 63
  else 0

/-- The bytes of the loop of `decode`. -/
def decodeLoop : List UInt8 → List UInt8
  | a :: b :: c :: d :: s =>
    UInt8.ofNat (decodeVector a <<< 2 ||| decodeVector b >>> 4) ::
      UInt8.ofNat (decodeVector b <<< 4 ||| decodeVector c >>> 2) ::
      UInt8.ofNat (decodeVector c <<< 6 ||| decodeVector d) :: decodeLoop s
  | _ => []

/-- `decode`: the bytes that are written into the buffer, which has the size of the text; none,
where it reads or writes outside of its arrays. -/
def decode (s : List UInt8) : Option (List UInt8) :=
  -- A `char` from 128 on is a negative index.
  if s.any (128 ≤ ·) then none
  -- The loop steps over the end of the text.
  else if s.length % 4 ≠ 0 then none
  else
    let head := decodeLoop s ++ [0]
    if head.length ≤ s.length then some head else none

/-- What a character stands for. -/
theorem base64Char_spec {n : ℕ} (hn : n < 64) :
    decodeVector (base64Char n) = n ∧ base64Char n < 128 ∧ base64Char n ≠ 32 ∧
      base64Char n ≠ 9 := by
  revert n
  decide

theorem decodeVector_base64Char {n : ℕ} (hn : n < 64) : decodeVector (base64Char n) = n :=
  (base64Char_spec hn).1

theorem decodeVector_pad : decodeVector 61 = 0 := rfl

theorem decodeLoop_nil : decodeLoop [] = [] := rfl

theorem ofNat_shift_or {x y i : ℕ} (hy : y < 2 ^ i) {a : UInt8}
    (h : (x * 2 ^ i + y) % 256 = a.toNat) : UInt8.ofNat (x <<< i ||| y) = a := by
  rw [← Nat.shiftLeft_add_eq_or_of_lt hy, Nat.shiftLeft_eq]
  apply UInt8.toNat_inj.mp
  rw [UInt8.toNat_ofNat']
  exact h

/-- The zeros after the bytes of a padded text. -/
def padding (s : List UInt8) : List UInt8 := List.replicate ((3 - s.length % 3) % 3) 0

/-- **The bytes** come back, and zeros for the padding. -/
theorem decodeLoop_base64Text (s : List UInt8) : decodeLoop (base64Text s) = s ++ padding s := by
  induction s using base64Text.induct with
  | case1 => rfl
  | case2 a =>
    have ha := a.toNat_lt
    rw [base64Text, decodeLoop, decodeLoop_nil, decodeVector_base64Char (by omega),
      decodeVector_base64Char (by omega), decodeVector_pad]
    rw [ofNat_shift_or (a := a) (by rw [Nat.shiftRight_eq_div_pow]; omega)
        (by rw [Nat.shiftRight_eq_div_pow]; omega),
      ofNat_shift_or (a := 0) (by decide) (by show _ = 0; omega)]
    rfl
  | case3 a b =>
    have ha := a.toNat_lt
    have hb := b.toNat_lt
    rw [base64Text, decodeLoop, decodeLoop_nil, decodeVector_base64Char (by omega),
      decodeVector_base64Char (by omega), decodeVector_base64Char (by omega), decodeVector_pad]
    rw [ofNat_shift_or (a := a) (by rw [Nat.shiftRight_eq_div_pow]; omega)
        (by rw [Nat.shiftRight_eq_div_pow]; omega),
      ofNat_shift_or (a := b) (by rw [Nat.shiftRight_eq_div_pow]; omega)
        (by rw [Nat.shiftRight_eq_div_pow]; omega),
      ofNat_shift_or (a := 0) (by decide) (by show _ = 0; omega)]
    rfl
  | case4 a b c s ih =>
    have ha := a.toNat_lt
    have hb := b.toNat_lt
    have hc := c.toNat_lt
    have hpad : padding (a :: b :: c :: s) = padding s := by
      rw [padding, padding]
      congr 1
      simp only [List.length_cons]
      omega
    rw [base64Text, decodeLoop, decodeVector_base64Char (by omega),
      decodeVector_base64Char (by omega), decodeVector_base64Char (by omega),
      decodeVector_base64Char (by omega), ih, hpad]
    rw [ofNat_shift_or (a := a) (by rw [Nat.shiftRight_eq_div_pow]; omega)
        (by rw [Nat.shiftRight_eq_div_pow]; omega),
      ofNat_shift_or (a := b) (by rw [Nat.shiftRight_eq_div_pow]; omega)
        (by rw [Nat.shiftRight_eq_div_pow]; omega),
      ofNat_shift_or (a := c) (by omega) (by omega)]
    rfl

theorem length_base64Text (s : List UInt8) : (base64Text s).length = 4 * ((s.length + 2) / 3) := by
  induction s using base64Text.induct with
  | case1 => rfl
  | case2 a => simp [base64Text]
  | case3 a b => simp [base64Text]
  | case4 a b c s ih =>
    rw [base64Text]
    simp only [List.length_cons, ih]
    omega

theorem length_padding (s : List UInt8) :
    (s ++ padding s).length = 3 * ((s.length + 2) / 3) := by
  rw [List.length_append, padding, List.length_replicate]
  omega

/-- No character of a text is a blank or a negative index. -/
theorem mem_base64Text {s : List UInt8} {c : UInt8} (hc : c ∈ base64Text s) :
    c < 128 ∧ c ≠ 32 ∧ c ≠ 9 := by
  have hpad : (61 : UInt8) < 128 ∧ (61 : UInt8) ≠ 32 ∧ (61 : UInt8) ≠ 9 := by decide
  induction s using base64Text.induct with
  | case1 => exact absurd hc List.not_mem_nil
  | case2 a =>
    have ha := a.toNat_lt
    simp only [base64Text, List.mem_cons, List.not_mem_nil, or_false] at hc
    rcases hc with rfl | rfl | rfl | rfl
    · exact (base64Char_spec (by omega)).2
    · exact (base64Char_spec (by omega)).2
    · exact hpad
    · exact hpad
  | case3 a b =>
    have ha := a.toNat_lt
    have hb := b.toNat_lt
    simp only [base64Text, List.mem_cons, List.not_mem_nil, or_false] at hc
    rcases hc with rfl | rfl | rfl | rfl
    · exact (base64Char_spec (by omega)).2
    · exact (base64Char_spec (by omega)).2
    · exact (base64Char_spec (by omega)).2
    · exact hpad
  | case4 a b c s ih =>
    have ha := a.toNat_lt
    have hb := b.toNat_lt
    have hc' := c.toNat_lt
    simp only [base64Text, List.mem_cons] at hc
    rcases hc with rfl | rfl | rfl | rfl | hs
    · exact (base64Char_spec (by omega)).2
    · exact (base64Char_spec (by omega)).2
    · exact (base64Char_spec (by omega)).2
    · exact (base64Char_spec (by omega)).2
    · exact ih hs

/-- **The text of some bytes** is decoded within the buffer. -/
theorem decode_base64Text {s : List UInt8} (hs : s ≠ []) :
    decode (base64Text s) = some (s ++ padding s ++ [0]) := by
  have hpos := List.length_pos_iff.mpr hs
  have hany : (base64Text s).any (128 ≤ ·) = false := by
    rw [List.any_eq_false]
    intro c hc h
    have := (mem_base64Text hc).1
    exact absurd this (UInt8.not_lt.mpr (of_decide_eq_true h))
  rw [decode, hany, decodeLoop_base64Text, length_base64Text]
  rw [if_neg Bool.false_ne_true, if_neg (by omega)]
  show (if _ then _ else _) = _
  rw [if_pos (by rw [List.length_append, length_padding, List.length_singleton]; omega)]

end Archie
