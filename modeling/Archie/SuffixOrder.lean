/-
The order of the suffixes of a text (`patrie/case.c`).

The comparison function that `patrieSetCaseSensitive` sets orders the suffixes of a text without NUL
by their bits, and `diffbit` gives the number of the first bit in which they differ; both only look
at the characters up to the first one that differs.

* `Sens.strcomp`, `Sens.height` — the functions of a configuration, on strings.
* `strcomp_of_firstDiff`, `height_of_firstDiff` — what they are, by the first bit that differs.
* `SuffixesDiffer` — the suffixes at index points differ in the bytes that are read.
* `infixConfig_compares` — they are what the runs of an infix file need.
-/
import Mathlib.Data.Nat.Bitwise
import Archie.BitOrder
import Archie.InfixRuns
import Archie.SearchSame
import Archie.Strsrch

namespace Archie

open Patricia

/-! ### The functions -/

/-- The function that is `strcomp` for a kind of comparison; `_patrieUStrCsAsCmp` reads beyond
strings that are equal. -/
def Sens.strcomp : Sens → List UInt8 → List UInt8 → ℤ
  | ciai => ustrFoldCmp fun c => toLower (noAccent c)
  | cias => ustrFoldCmp toLower
  | csai => ustrFoldCmp noAccent
  | csas => fun s t => (ustrCmp s t).getD 0

/-- `diffbit` of two strings that differ. -/
def Sens.height (sens : Sens) (s t : List UInt8) : ℕ :=
  (sens.diffbit (fun i => s.getD i 0) (fun i => t.getD i 0) (max s.length t.length + 1) 0).getD 0

section

variable {u v : List UInt8}

/-- The loop up to the first characters that differ. -/
theorem ustrFoldCmp_of_first {fold : UInt8 → UInt8} (hfold : ∀ c, fold c = fold 0 → c = 0)
    (hu : (0 : UInt8) ∉ u) (hv : (0 : UInt8) ∉ v) {j : ℕ}
    (hagree : ∀ i < j, fold (u.getD i 0) = fold (v.getD i 0))
    (hdiffer : fold (u.getD j 0) ≠ fold (v.getD j 0)) :
    ustrFoldCmp fold u v = if fold (u.getD j 0) < fold (v.getD j 0) then -1 else 1 := by
  induction j generalizing u v with
  | zero =>
    rcases u with _ | ⟨a, u⟩ <;> rcases v with _ | ⟨b, v⟩
    · exact absurd rfl hdiffer
    · exact if_pos hdiffer
    · exact if_pos hdiffer
    · have hne : a ≠ b := fun h => hdiffer (congrArg fold h)
      exact if_pos ⟨hne, hdiffer⟩
  | succ j ih =>
    have hfirst := hagree 0 (Nat.succ_pos j)
    rcases u with _ | ⟨a, u⟩ <;> rcases v with _ | ⟨b, v⟩
    · exact absurd rfl hdiffer
    · exact absurd (List.mem_cons.mpr (Or.inl (hfold b hfirst.symm).symm)) hv
    · exact absurd (List.mem_cons.mpr (Or.inl (hfold a hfirst).symm)) hu
    · rw [ustrFoldCmp, if_neg fun h => h.2 hfirst]
      exact ih (fun h => hu (List.mem_cons_of_mem a h)) (fun h => hv (List.mem_cons_of_mem b h))
        (fun i hi => hagree (i + 1) (Nat.succ_lt_succ hi)) hdiffer

theorem ustrCmp_of_first (hu : (0 : UInt8) ∉ u) (hv : (0 : UInt8) ∉ v) {j : ℕ}
    (hagree : ∀ i < j, u.getD i 0 = v.getD i 0) (hdiffer : u.getD j 0 ≠ v.getD j 0) :
    ustrCmp u v = some (if u.getD j 0 < v.getD j 0 then -1 else 1) := by
  induction j generalizing u v with
  | zero =>
    rcases u with _ | ⟨a, u⟩ <;> rcases v with _ | ⟨b, v⟩
    · exact absurd rfl hdiffer
    · rfl
    · have hnot : ¬ a < 0 := UInt8.not_lt.mpr (UInt8.zero_le (a := a))
      exact congrArg some (if_neg hnot).symm
    · exact if_neg hdiffer
  | succ j ih =>
    have hfirst := hagree 0 (Nat.succ_pos j)
    rcases u with _ | ⟨a, u⟩ <;> rcases v with _ | ⟨b, v⟩
    · exact absurd rfl hdiffer
    · exact absurd (List.mem_cons.mpr (Or.inl hfirst)) hv
    · exact absurd (List.mem_cons.mpr (Or.inl hfirst.symm)) hu
    · have hab : a = b := hfirst
      rw [ustrCmp, if_pos hab]
      exact ih (fun h => hu (List.mem_cons_of_mem a h)) (fun h => hv (List.mem_cons_of_mem b h))
        (fun i hi => hagree (i + 1) (Nat.succ_lt_succ hi)) hdiffer

theorem strcomp_of_first (sens : Sens) (hu : (0 : UInt8) ∉ u) (hv : (0 : UInt8) ∉ v) {j : ℕ}
    (hagree : ∀ i < j, sens.fold (u.getD i 0) = sens.fold (v.getD i 0))
    (hdiffer : sens.fold (u.getD j 0) ≠ sens.fold (v.getD j 0)) :
    sens.strcomp u v = if sens.fold (u.getD j 0) < sens.fold (v.getD j 0) then -1 else 1 := by
  have hfold : ∀ c, sens.fold c = sens.fold 0 → c = 0 := by
    intro c h
    rw [(fold_eq_zero_iff sens 0).mpr rfl] at h
    exact (fold_eq_zero_iff sens c).mp h
  cases sens with
  | ciai => exact ustrFoldCmp_of_first hfold hu hv hagree hdiffer
  | cias => exact ustrFoldCmp_of_first hfold hu hv hagree hdiffer
  | csai => exact ustrFoldCmp_of_first hfold hu hv hagree hdiffer
  | csas =>
    show (ustrCmp u v).getD 0 = _
    rw [ustrCmp_of_first hu hv hagree hdiffer]
    rfl

/-- The smaller of two characters has the first bit that differs clear. -/
theorem uint8_lt_iff {a b : UInt8} {k : ℕ} (hk : k < 8)
    (hagree : ∀ i < k, a.toNat.testBit (7 - i) = b.toNat.testBit (7 - i))
    (hdiffer : a.toNat.testBit (7 - k) ≠ b.toNat.testBit (7 - k)) :
    a < b ↔ a.toNat.testBit (7 - k) = false := by
  have habove : ∀ {x y : UInt8}, (∀ i < k, x.toNat.testBit (7 - i) = y.toNat.testBit (7 - i)) →
      ∀ j, 7 - k < j → x.toNat.testBit j = y.toNat.testBit j := by
    intro x y h j hj
    rcases Nat.lt_or_ge j 8 with h8 | h8
    · have hbit := h (7 - j) (by omega)
      rwa [show 7 - (7 - j) = j by omega] at hbit
    · have hpow : 2 ^ 8 ≤ 2 ^ j := Nat.pow_le_pow_right (by omega) h8
      rw [Nat.testBit_lt_two_pow (Nat.lt_of_lt_of_le x.toNat_lt hpow),
        Nat.testBit_lt_two_pow (Nat.lt_of_lt_of_le y.toNat_lt hpow)]
  rw [UInt8.lt_iff_toNat_lt]
  cases ha : a.toNat.testBit (7 - k) with
  | false =>
    have hb : b.toNat.testBit (7 - k) = true :=
      eq_true_of_ne_false fun hb => hdiffer (ha.trans hb.symm)
    exact iff_of_true (Nat.lt_of_testBit _ ha hb (habove hagree)) rfl
  | true =>
    have hb : b.toNat.testBit (7 - k) = false :=
      eq_false_of_ne_true fun hb => hdiffer (ha.trans hb.symm)
    have hlt := Nat.lt_of_testBit _ hb ha (habove fun i hi => (hagree i hi).symm)
    exact iff_of_false (Nat.lt_asymm hlt) fun h => Bool.false_ne_true h.symm

/-- The first characters and bits that differ. -/
theorem FirstDiff.byte {fold : UInt8 → UInt8} {s t : ℕ → UInt8} {b : ℕ}
    (h : FirstDiff fold s t b) :
    (∀ i < b / 8, fold (s i) = fold (t i)) ∧ fold (s (b / 8)) ≠ fold (t (b / 8)) ∧
      (fold (s (b / 8)) < fold (t (b / 8)) ↔ suffixBit fold s b = false) := by
  have hdiffer : (fold (s (b / 8))).toNat.testBit (7 - b % 8) ≠
      (fold (t (b / 8))).toNat.testBit (7 - b % 8) := h.differ
  refine ⟨fun i hi => eq_of_bits fun k hk => ?_, fun heq => hdiffer (by rw [heq]), ?_⟩
  · have hbit := h.agree (8 * i + k) (by omega)
    rwa [suffixBit, suffixBit, show (8 * i + k) / 8 = i by omega,
      show (8 * i + k) % 8 = k by omega] at hbit
  · refine uint8_lt_iff (by omega) (fun k hk => ?_) hdiffer
    have hbit := h.agree (8 * (b / 8) + k) (by omega)
    rwa [suffixBit, suffixBit, show (8 * (b / 8) + k) / 8 = b / 8 by omega,
      show (8 * (b / 8) + k) % 8 = k by omega] at hbit

/-- **The comparison** of two strings, by the first bit that differs. -/
theorem strcomp_of_firstDiff (sens : Sens) (hu : (0 : UInt8) ∉ u) (hv : (0 : UInt8) ∉ v) {b : ℕ}
    (h : FirstDiff sens.fold (fun i => u.getD i 0) (fun i => v.getD i 0) b) :
    sens.strcomp u v = if textBits sens.fold u b = false then -1 else 1 := by
  obtain ⟨hagree, hdiffer, hlt⟩ := h.byte
  rw [strcomp_of_first sens hu hv hagree hdiffer]
  exact if_congr hlt rfl rfl

/-- **The height** of two strings is the number of the first bit that differs. -/
theorem height_of_firstDiff (sens : Sens) {b : ℕ}
    (h : FirstDiff sens.fold (fun i => u.getD i 0) (fun i => v.getD i 0) b) :
    sens.height u v = 1 + b := by
  obtain ⟨-, hdiffer, -⟩ := h.byte
  have hlt : b / 8 < max u.length v.length + 1 := by
    by_contra hge
    refine hdiffer ?_
    rw [List.getD_eq_default _ _ (by omega), List.getD_eq_default _ _ (by omega)]
  rw [Sens.height, diffbit_eq sens h, if_pos hlt, Option.getD_some]

end

/-! ### Suffixes of a text -/

section

variable (text : List UInt8) (sens : Sens)

/-- The height of two suffixes. -/
def suffixHeight (p q : ℕ) : ℕ := sens.height (text.drop p) (text.drop q)

/-- Two suffixes with a common beginning, and the first bit that differs. -/
theorem firstDiff_of_agree {p q b : ℕ}
    (hagree : Agree b (suffixBits text sens p) (suffixBits text sens q))
    (hdiffer : suffixBits text sens p b ≠ suffixBits text sens q b) {m m' : ℕ} (hm : b / 8 < m)
    (hm' : b / 8 < m') :
    FirstDiff sens.fold (fun i => ((text.drop p).take m).getD i 0)
      (fun i => ((text.drop q).take m').getD i 0) b := by
  have htake : ∀ {t : List UInt8} {m i : ℕ}, i / 8 < m → ∀ f : UInt8 → UInt8,
      suffixBit f (fun i => (t.take m).getD i 0) i = textBits f t i := by
    intro t m i hi f
    rw [suffixBit, textBits, List.getD_eq_getElem?_getD, List.getD_eq_getElem?_getD,
      List.getElem?_take_of_lt hi]
  refine ⟨fun i hi => ?_, ?_⟩
  · have hle : i / 8 ≤ b / 8 := Nat.div_le_div_right (Nat.le_of_lt hi)
    rw [htake (by omega), htake (by omega)]
    exact hagree i hi
  · rw [htake hm, htake hm']
    exact hdiffer

theorem heightOf_suffixHeight : HeightOf (suffixBits text sens) (suffixHeight text sens) := by
  intro p q b hagree hp hq
  have hfirst := @firstDiff_of_agree text sens p q b hagree
    (by rw [hp, hq]; exact Bool.false_ne_true) (text.length + b + 1) (text.length + b + 1)
    (by omega) (by omega)
  rw [List.take_of_length_le (by rw [List.length_drop]; omega),
    List.take_of_length_le (by rw [List.length_drop]; omega)] at hfirst
  exact height_of_firstDiff sens hfirst

/-- Any two of the suffixes at these offsets differ within their first `n` bytes; behind the text
there are NULs. -/
def SuffixesDiffer (n : ℕ) (points : List ℕ) : Prop :=
  ∀ p ∈ points, ∀ q ∈ points, p ≠ q →
    ∃ j < n, sens.fold ((text.drop p).getD j 0) ≠ sens.fold ((text.drop q).getD j 0)

instance suffixesDiffer_decidable (n : ℕ) (points : List ℕ) :
    Decidable (SuffixesDiffer text sens n points) :=
  inferInstanceAs (Decidable (∀ p ∈ points, ∀ q ∈ points, p ≠ q →
    ∃ j < n, sens.fold ((text.drop p).getD j 0) ≠ sens.fold ((text.drop q).getD j 0)))

variable {text sens}

/-- Suffixes that differ have a first bit that differs. -/
theorem SuffixesDiffer.exists_bit {n : ℕ} {points : List ℕ}
    (h : SuffixesDiffer text sens n points) {p q : ℕ} (hp : p ∈ points) (hq : q ∈ points)
    (hne : p ≠ q) :
    ∃ b < 8 * n, Agree b (suffixBits text sens p) (suffixBits text sens q) ∧
      suffixBits text sens p b ≠ suffixBits text sens q b := by
  have hex : ∃ b < 8 * n, suffixBits text sens p b ≠ suffixBits text sens q b := by
    by_contra hnone
    push Not at hnone
    obtain ⟨j, hj, hdiffer⟩ := h p hp q hq hne
    exact hdiffer (textBits_agree_iff.mp hnone j hj)
  classical
  obtain ⟨b, hb⟩ : ∃ b, b = Nat.find hex := ⟨_, rfl⟩
  obtain ⟨hlt, hdiffer⟩ := Nat.find_spec hex
  rw [← hb] at hlt hdiffer
  refine ⟨b, hlt, fun i hi => ?_, hdiffer⟩
  by_contra hi'
  exact Nat.find_min hex (hb ▸ hi) ⟨by omega, hi'⟩

end

/-- The configuration of a kind of comparison. -/
def infixConfig (sens : Sens) (idxType : IndexType) (textsz pad : ℕ) (h : textsz < wordSize) :
    Run.Config where
  textsz := textsz
  textsz_lt := h
  sortPadLen := pad
  strcomp := sens.strcomp
  diffbit := sens.height
  idxType := idxType

theorem keyLt_iff {text : List UInt8} {sens : Sens} {p q b : ℕ}
    (hagree : Agree b (suffixBits text sens p) (suffixBits text sens q))
    (hne : suffixBits text sens p b ≠ suffixBits text sens q b) :
    KeyLt (suffixBits text sens) p q ↔ suffixBits text sens p b = false := by
  refine ⟨fun ⟨c, hagree', hp, hq⟩ => ?_, fun hp => ⟨b, hagree, hp, ?_⟩⟩
  · rcases Nat.lt_trichotomy b c with hbc | rfl | hbc
    · exact absurd (hagree' b hbc) hne
    · exact hp
    · have hsame := hagree c hbc
      rw [hp, hq] at hsame
      exact absurd hsame Bool.false_ne_true
  · exact eq_true_of_ne_false fun hq => hne (hp.trans hq.symm)

/-- **The functions of a configuration** order the index points and give their heights. -/
theorem infixConfig_compares {sens : Sens} {idxType : IndexType} {textsz pad n : ℕ}
    (hsz : textsz < wordSize) {text : List UInt8} (htext : (0 : UInt8) ∉ text) (hpad : n ≤ pad)
    (hn : n < 8192) (hdiffer : SuffixesDiffer text sens n (indexPoints idxType text)) :
    Infix.Compares (infixConfig sens idxType textsz pad hsz) text (KeyLt (suffixBits text sens))
      (suffixHeight text sens) := by
  have hnot : ∀ p m : ℕ, (0 : UInt8) ∉ (text.drop p).take m := fun p m h =>
    htext (List.mem_of_mem_drop (List.mem_of_mem_take h))
  have hcmp : ∀ p ∈ indexPoints idxType text, ∀ q ∈ indexPoints idxType text, p ≠ q →
      ∀ m m', pad < m → pad < m' → ∃ b,
        (KeyLt (suffixBits text sens) p q ↔ suffixBits text sens p b = false) ∧
        (KeyLt (suffixBits text sens) q p ↔ suffixBits text sens p b = true) ∧
        sens.strcomp ((text.drop p).take m) ((text.drop q).take m') =
          if suffixBits text sens p b = false then -1 else 1 := by
    intro p hp q hq hne m m' hm hm'
    obtain ⟨b, hb, hagree, hbit⟩ := hdiffer.exists_bit hp hq hne
    have hfirst := @firstDiff_of_agree text sens p q b hagree hbit m m' (by omega) (by omega)
    refine ⟨b, keyLt_iff hagree hbit, ?_, ?_⟩
    · rw [keyLt_iff hagree.symm hbit.symm]
      cases hpb : suffixBits text sens p b <;> cases hqb : suffixBits text sens q b
      · exact absurd (hpb.trans hqb.symm) hbit
      · exact iff_of_false (fun h => Bool.false_ne_true h.symm) Bool.false_ne_true
      · exact iff_of_true rfl rfl
      · exact absurd (hpb.trans hqb.symm) hbit
    · rw [strcomp_of_firstDiff sens (hnot p m) (hnot q m') hfirst]
      have hsame : textBits sens.fold ((text.drop p).take m) b = suffixBits text sens p b := by
        rw [textBits, suffixBits, textBits, List.getD_eq_getElem?_getD, List.getD_eq_getElem?_getD,
          List.getElem?_take_of_lt (by omega)]
      rw [hsame]
  have hheight : ∀ p ∈ indexPoints idxType text, ∀ q ∈ indexPoints idxType text,
      KeyLt (suffixBits text sens) p q → ∃ b < 8 * n,
        Agree b (suffixBits text sens p) (suffixBits text sens q) ∧
        suffixBits text sens p b ≠ suffixBits text sens q b ∧
        suffixHeight text sens p q = 1 + b := by
    intro p hp q hq hlt
    have hne : p ≠ q := by
      rintro rfl
      exact irrefl_of (KeyLt (suffixBits text sens)) p hlt
    obtain ⟨b, hb, hagree, hbit⟩ := hdiffer.exists_bit hp hq hne
    have hpb := (keyLt_iff hagree hbit).mp hlt
    have hqb : suffixBits text sens q b = true :=
      eq_true_of_ne_false fun hq => hbit (hpb.trans hq.symm)
    exact ⟨b, hb, hagree, hbit, heightOf_suffixHeight text sens p q b hagree hpb hqb⟩
  exact {
    total := by
      intro p hp q hq hne
      obtain ⟨b, -, hagree, hb⟩ := hdiffer.exists_bit hp hq hne
      exact lexLt_total hagree hb
    neg := by
      intro p hp q hq hne m m' hm hm'
      obtain ⟨b, hlt, -, hres⟩ := hcmp p hp q hq hne m m' hm hm'
      show sens.strcomp _ _ < 0 ↔ _
      rw [hres, hlt]
      split
      next h => exact iff_of_true (by decide) h
      next h => exact iff_of_false (by decide) h
    pos := by
      intro p hp q hq hne m m' hm hm'
      obtain ⟨b, -, hgt, hres⟩ := hcmp p hp q hq hne m m' hm hm'
      show 0 < sens.strcomp _ _ ↔ _
      rw [hres, hgt]
      split
      next h => exact iff_of_false (by decide) (by rw [h]; exact Bool.false_ne_true)
      next h => exact iff_of_true (by decide) (eq_true_of_ne_false h)
    diff := by
      intro p hp q hq hlt m m' hm hm'
      obtain ⟨b, hb, hagree, hbit, hh⟩ := hheight p hp q hq hlt
      have hpad' : pad < m := hm
      have hpad'' : pad < m' := hm'
      rw [hh]
      exact height_of_firstDiff sens
        (firstDiff_of_agree text sens hagree hbit (by omega) (by omega))
    fits := by
      intro p hp q hq hlt
      obtain ⟨b, hb, -, -, hh⟩ := hheight p hp q hq hlt
      omega }

end Archie
