/-
The two plain scans `_archBMHSearch` and `_archBMHCaseSearch` of `archstridx/strsrch.c`.

* `MemText` — a text in memory.
* `bmhScanLoop`, `bmhScan` — the scan with the integers of the source, for a way to compare
  characters and the characters that have a shift because of one in the key.
* `archBMHSearch`, `archBMHCaseSearch` — the two functions.
* `bmhScanLoop_eq` — the scan from an alignment on.
* `plainScans_eq` — the two functions find the places of the naive scan.
-/
import Archie.CInt
import Archie.Strsrch

namespace Archie

/-! ### The scan -/

/-- A text in memory: no object is longer than `LONG_MAX`. -/
structure MemText where
  chars : List UInt8
  length_lt : chars.length < 2147483648

/-- Where a `long` that was computed may point to: it has not overflown, and is not before the text. -/
def longIndex (i : ℤ) : Option ℕ := if 0 ≤ i ∧ i < 2147483648 then some i.toNat else none

/-- `strncmp(s, t, n) == 0`, and `strncasecmp` where characters are folded; none, if it reads
beyond a text. -/
def strnEq (fold : UInt8 → UInt8) : ℕ → List UInt8 → List UInt8 → Option Bool
  | 0, _, _ => some true
  | n + 1, a :: s, b :: t =>
    if fold a ≠ fold b then some false else if a = 0 then some true else strnEq fold n s t
  | _ + 1, _, _ => none

/-- The loop over alignments, and the special case after it; none, if it reads beyond the text. -/
def bmhScanLoop (fold : UInt8 → UInt8) (text key : List UInt8) (maxhits : ℕ) (d : UInt8 → ℤ) :
    ℕ → ℕ → List ℕ → Option (List ℕ)
  | 0, _, _ => none
  | fuel + 1, k, start =>
    -- `lim` is a `long`, and negative for a key that is longer than the text.
    if (k : ℤ) < sint (ulong (text.length - key.length)) ∧ start.length < maxhits then do
      let j ← bmhMatch fold (text.drop k) (key ++ [0])
      let start' := if j = key.length then start ++ [k] else start
      if j = key.length ∧ start'.length = maxhits then return start'
      let c ← text[k + key.length]?
      let k' ← longIndex (k + d c)
      bmhScanLoop fold text key maxhits d fuel k' start'
    else if k = ulong (text.length - key.length) then
      (strnEq fold key.length (text.drop k) key).map fun eq => if eq then start ++ [k] else start
    else some start

/-- What the two functions have in common. -/
def bmhScan (fold : UInt8 → UInt8) (variants : UInt8 → List UInt8) (text key : MemText)
    (maxhits : ℕ) :
    Option (List ℕ) :=
  if maxhits = 0 then some []
  else
    bmhScanLoop fold text.chars key.chars maxhits (fun c => sint (shiftTable variants key.chars c))
      (text.chars.length + 1) 0 []

/-- `_archBMHSearch`. -/
def archBMHSearch : MemText → MemText → ℕ → Option (List ℕ) := bmhScan identical fun c => [c]

/-- `_archBMHCaseSearch`. -/
def archBMHCaseSearch : MemText → MemText → ℕ → Option (List ℕ) :=
  bmhScan asciiLower fun c => [asciiLower c, asciiUpper c]

/-! ### The pieces of a round -/

theorem longIndex_natCast {n : ℕ} (hn : n < 2147483648) : longIndex n = some n := by
  rw [longIndex, if_pos ⟨Int.natCast_nonneg n, by omega⟩, Int.toNat_natCast]

/-- The limit of the loop, for a key that fits into the text. -/
theorem lim_of_le {m n : ℕ} (hn : n < 2147483648) (hmn : m ≤ n) :
    ulong (n - m) = n - m ∧ sint (ulong (n - m)) = n - m := by
  have hsub : ((n : ℤ) - m) = ((n - m : ℕ) : ℤ) := (Int.ofNat_sub hmn).symm
  rw [hsub, ulong_natCast (by unfold wordSize; omega), sint_natCast (by omega)]
  exact ⟨rfl, rfl⟩

/-- The limit of the loop, for a key that does not. -/
theorem lim_of_lt {m n : ℕ} (hm : m < 2147483648) (hmn : n < m) :
    n < ulong (n - m) ∧ sint (ulong (n - m)) < 0 := by
  constructor
  · unfold ulong
    omega
  · rw [sint_ulong (show IsInt ((n : ℤ) - m) from ⟨by omega, by omega⟩)]
    omega

/-- The comparison at the end of the text. -/
theorem strnEq_eq {fold : UInt8 → UInt8} {s key : List UInt8} (hs : 0 ∉ s)
    (hlen : key.length = s.length) :
    strnEq fold key.length s key = some (keyMatchesWith fold key s) := by
  induction key generalizing s with
  | nil => rfl
  | cons b key ih =>
    have hspos : 0 < s.length := by rw [← hlen]; exact Nat.succ_pos key.length
    obtain ⟨c, s, rfl⟩ := List.exists_cons_of_ne_nil (List.ne_nil_of_length_pos hspos)
    have hc : c ≠ 0 := fun h => hs (h ▸ List.mem_cons_self)
    rw [List.length_cons, strnEq, keyMatchesWith]
    by_cases hbc : fold c = fold b
    · rw [if_neg (not_not.mpr hbc), if_neg hc, if_neg (not_not.mpr hbc.symm)]
      exact ih (fun h => hs (List.mem_cons_of_mem c h)) (Nat.succ.inj hlen)
    · rw [if_pos hbc, if_pos (Ne.symm hbc)]

section

variable {fold : UInt8 → UInt8} {variants : UInt8 → List UInt8} {text key : List UInt8}

/-- No place is jumped over, where all characters that agree with one of the key have a shift. -/
theorem no_place_skipped (hvariants : ∀ b c, fold b = fold c → b ∈ variants c) (k : ℕ) :
    ((List.range' (k + 1) (shiftTable variants key (text.getD (k + key.length) 0) - 1)).filter
      fun p => keyMatchesWith fold key (text.drop p)) = [] := by
  have hbounds := shiftTable_bounds variants key (text.getD (k + key.length) 0)
  refine List.filter_eq_nil_iff.mpr fun p hp hmatch => ?_
  have hrange := List.mem_range'_1.mp hp
  -- The character that decides about the shift is the one at `j` of a key that occurs at `p`.
  obtain ⟨j, hj⟩ : ∃ j, k + key.length = p + j := ⟨k + key.length - p, by omega⟩
  have hjlt : j < key.length := by omega
  have hagree := (keyMatchesWith_iff_getD.mp hmatch).2 j hjlt
  have hchar : text.getD (k + key.length) 0 = (text.drop p).getD j 0 := by
    rw [hj, List.getD_eq_getElem?_getD, List.getD_eq_getElem?_getD, List.getElem?_drop]
  have hshift := (shiftTable_le_iff variants hjlt).mpr
      ⟨j, hjlt, le_rfl, hvariants _ _ (hchar ▸ hagree)⟩
  omega

/-- One round of the loop. -/
theorem bmhScanLoop_round {maxhits fuel k : ℕ} {start : List ℕ}
    (hfold : ∀ c, fold c = fold 0 → c = 0)
    (htext : 0 ∉ text) (htlen : text.length < 2147483648) (hk : k + key.length < text.length)
    (hstart : start.length < maxhits) :
    bmhScanLoop fold text key maxhits (fun c => sint (shiftTable variants key c))
      (fuel + 1) k start =
      if (foundAt fold text key k start).length = maxhits then some (foundAt fold text key k start)
      else bmhScanLoop fold text key maxhits (fun c => sint (shiftTable variants key c)) fuel
        (k + shiftTable variants key (text.getD (k + key.length) 0))
          (foundAt fold text key k start) := by
  obtain ⟨j, hj, hiff⟩ :=
    bmhMatch_eq hfold (s := text.drop k) (fun h => htext (List.mem_of_mem_drop h)) []
    (show key.length < (text.drop k).length by rw [List.length_drop]; omega)
  rw [List.append_nil] at hj
  have hlim := (lim_of_le (m := key.length) htlen (by omega)).2
  have hbounds := shiftTable_bounds variants key (text.getD (k + key.length) 0)
  have hchar : text[k + key.length]? = some (text.getD (k + key.length) 0) := by
    rw [List.getD_eq_getElem _ _ hk, List.getElem?_eq_getElem hk]
  -- The shift leads to an alignment in the text, or just after it.
  have hnext : longIndex (k + sint (shiftTable variants key (text.getD (k + key.length) 0))) =
      some (k + shiftTable variants key (text.getD (k + key.length) 0)) := by
    rw [sint_natCast (by omega), ← Nat.cast_add, longIndex_natCast (by omega)]
  rw [bmhScanLoop, if_pos
    ⟨by omega, hstart⟩, hj, Option.bind_eq_bind, Option.bind_some, hchar, foundAt]
  by_cases hmatch : keyMatchesWith fold key (text.drop k) = true
  · simp only [hiff.mpr hmatch, if_pos hmatch, if_true, true_and, Option.bind_eq_bind,
      Option.bind_some, hnext,
      Option.pure_def]
  · have hjne : j ≠ key.length := mt hiff.mp hmatch
    simp only [if_neg hmatch, hjne, false_and, if_false, hstart.ne, Option.bind_eq_bind,
      Option.bind_some, hnext]

/-- **The scan from an alignment on.** -/
theorem bmhScanLoop_eq {maxhits fuel k : ℕ} {start : List ℕ} (hfold : ∀ c, fold c = fold 0 → c = 0)
    (hvariants : ∀ b c, fold b = fold c → b ∈ variants c) (htext : 0 ∉ text)
    (htlen : text.length < 2147483648) (hklen : key.length < 2147483648) (hne : key ≠ [])
    (hfuel : text.length < k + fuel) (hk : k ≤ text.length) (hstart : start.length < maxhits) :
    bmhScanLoop fold text key maxhits (fun c => sint (shiftTable variants key c)) fuel k start =
      some (start ++ (placesFrom fold key text k).take (maxhits - start.length)) := by
  induction fuel generalizing k start with
  | zero => omega
  | succ fuel ih =>
    have hpos := List.length_pos_of_ne_nil hne
    rcases Nat.lt_trichotomy (k + key.length) text.length with hlt | heq | hgt
    · -- The loop goes on: what is found here, nothing in between, and the rest.
      set n := shiftTable variants key (text.getD (k + key.length) 0) with hn
      have hbounds : 0 < n ∧ n ≤ key.length + 1 := shiftTable_bounds variants key _
      rw [bmhScanLoop_round hfold htext htlen hlt hstart, ← hn, foundAt_eq_append,
        placesFrom_shift hbounds.1 (by omega), no_place_skipped hvariants k, List.append_nil]
      set F := foundAt fold text key k [] with hF
      have hFlen : F.length ≤ 1 := by rw [hF, foundAt]; split <;> simp
      by_cases hfull : (start ++ F).length = maxhits
      · have hleft : maxhits - start.length = F.length := by rw [List.length_append] at hfull; omega
        rw [if_pos hfull, hleft, List.take_left]
      · have hstart' : (start ++ F).length < maxhits := by rw [List.length_append] at hfull ⊢; omega
        have hleft : maxhits - start.length = F.length + (maxhits - (start ++ F).length) := by
          rw [List.length_append] at hstart' ⊢
          omega
        rw [if_neg hfull, ih (by omega) (by omega) hstart', hleft, List.take_length_add_append,
          List.append_assoc]
    · -- The key is aligned with the end of the text.
      obtain ⟨hulong, hlim⟩ := lim_of_le (m := key.length) htlen (by omega)
      have hlast : strnEq fold key.length (text.drop k) key = some
          (keyMatchesWith fold key (text.drop k)) :=
        strnEq_eq (fun h => htext (List.mem_of_mem_drop h)) (by rw [List.length_drop]; omega)
      rw [bmhScanLoop, if_neg
        (by omega), if_pos (by omega), hlast, Option.map_some, placesFrom_last hne heq,
        foundAt]
      split
      · rw [List.nil_append, List.take_of_length_le (by rw [List.length_singleton]; omega)]
      · rw [List.take_nil, List.append_nil]
    · -- The alignments are used up, or there were none.
      rw [placesFrom_eq_nil hne hgt, List.take_nil, List.append_nil, bmhScanLoop]
      rcases Nat.lt_or_ge text.length key.length with hlong | hfits
      · obtain ⟨hulong, hlim⟩ := lim_of_lt hklen hlong
        rw [if_neg (by omega), if_neg (by omega)]
      · obtain ⟨hulong, hlim⟩ := lim_of_le htlen hfits
        rw [if_neg (by omega), if_neg (by omega)]

end

/-- The scan as a whole. -/
theorem bmhScan_eq {fold : UInt8 → UInt8} {variants : UInt8 → List UInt8}
    (hfold : ∀ c, fold c = fold 0 → c = 0) (hvariants : ∀ b c, fold b = fold c → b ∈ variants c)
    {text key : MemText} (htext : 0 ∉ text.chars) (hne : key.chars ≠ []) (maxhits : ℕ) :
    bmhScan fold variants text key maxhits = some
      ((matchPlaces fold text.chars key.chars).take maxhits) := by
  rw [bmhScan]
  split
  next hzero => rw [hzero, List.take_zero]
  next hpos =>
    have hloop : bmhScanLoop fold text.chars key.chars maxhits _ _ 0 [] = _ :=
      bmhScanLoop_eq hfold hvariants htext text.length_lt key.length_lt hne
      (show text.chars.length < 0 +
        (text.chars.length + 1) by omega) (Nat.zero_le _) (Nat.pos_of_ne_zero hpos)
    rw [hloop, List.nil_append, List.length_nil, Nat.sub_zero, matchPlaces_eq hne]

/-- **The plain scans** find the first `maxhits` places at which the key occurs, as it is and without
regard to case. -/
theorem plainScans_eq {text key : MemText} (htext : 0 ∉ text.chars) (hne : key.chars ≠ [])
    (maxhits : ℕ) :
    archBMHSearch text key maxhits = some ((matchPlaces id text.chars key.chars).take maxhits) ∧
    archBMHCaseSearch text key maxhits = some
      ((matchPlaces asciiLower text.chars key.chars).take maxhits) := by
  constructor
  · exact bmhScan_eq (fun _ h => h) (fun b c h => List.mem_singleton.mpr h) htext hne maxhits
  · refine bmhScan_eq asciiLower_eq_zero (fun b c h => ?_) htext hne maxhits
    rcases (asciiLower_or_asciiUpper b).1 with hb | hb
    · rw [hb, h]
      exact List.mem_cons_self
    · rw [hb, ← (asciiLower_or_asciiUpper b).2, h, (asciiLower_or_asciiUpper c).2]
      exact List.mem_cons_of_mem _ List.mem_cons_self

theorem plainScans_sample :
    archBMHSearch ⟨bytes "aAaaa", by decide⟩ ⟨bytes "aa", by decide⟩ 5 = some [2, 3] ∧
    archBMHCaseSearch ⟨bytes "aAaaa", by decide⟩ ⟨bytes "aa", by decide⟩ 3 = some [0, 1, 2] :=
  ⟨(plainScans_eq (by decide) (by decide) 5).1, (plainScans_eq (by decide) (by decide) 3).2⟩

end Archie
