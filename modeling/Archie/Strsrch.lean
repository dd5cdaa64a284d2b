/-
The skipping scan over unindexed text (`_archBMHGeneralSearch` of `archstridx/strsrch.c`)
with the four settings that `uitext_sub_search` installs.

* `Sens.funs` — the functions of a setting.
* `bmhTable`, `bmhLoop`, `archBMHGeneralSearch` — the scan.
* `bmhTable_le_iff` — which shifts the table allows.
* `bmhLoop_iff` — the scan from an alignment on.
* `archBMHGeneralSearch_iff` — when the scan finds what the naive one finds.
-/
import Archie.Uitext
import Archie.CText

namespace Archie

/-! ### Settings -/

/-- `toupper` in the C locale. -/
def asciiUpper (c : UInt8) : UInt8 := if 97 ≤ c ∧ c ≤ 122 then c - 32 else c

/-- `struct funcs`; `toComp` is none where it reads beyond the strings. -/
structure Funcs where
  lowerCase : UInt8 → UInt8
  upperCase : UInt8 → UInt8
  noAccent : UInt8 → UInt8
  withAccent : UInt8 → UInt8
  toComp : List UInt8 → List UInt8 → Option ℤ

/-- `identical`. -/
def identical (c : UInt8) : UInt8 := c

/-- The loop of `_patrieUStrCaseCmp`, `_patrieUStrAccCmp` and `_patrieUStrCiAiCmp`, over strings
without their NUL. -/
def ustrFoldCmp (fold : UInt8 → UInt8) : List UInt8 → List UInt8 → ℤ
  | [], [] => 0
  | [], b :: _ => if fold 0 ≠ fold b then if fold 0 < fold b then -1 else 1 else 0
  | a :: _, [] => if fold a ≠ fold 0 then if fold a < fold 0 then -1 else 1 else 0
  | a :: s, b :: t =>
    if a ≠ b ∧ fold a ≠ fold b then if fold a < fold b then -1 else 1 else ustrFoldCmp fold s t

/-- `_patrieUStrCmp`, which assumes that the strings do differ. -/
def ustrCmp : List UInt8 → List UInt8 → Option ℤ
  | [], [] => none
  | [], b :: _ => some (if 0 < b then -1 else 1)
  | _ :: _, [] => some 1
  | a :: s, b :: t => if a = b then ustrCmp s t else some (if a < b then -1 else 1)

/-- The functions that `uitext_sub_search` installs. -/
def Sens.funs : Sens → Funcs
  | ciai =>
    ⟨asciiLower, asciiUpper, noAccent, identical,
      fun s t => some (ustrFoldCmp (fun c => toLower (noAccent c)) s t)⟩
  | cias =>
    ⟨asciiLower, asciiUpper, identical, identical, fun s t => some (ustrFoldCmp toLower s t)⟩
  | csai => ⟨identical, identical, noAccent, identical, fun s t => some (ustrFoldCmp noAccent s t)⟩
  | csas => ⟨identical, identical, identical, identical, ustrCmp⟩

/-- How the scan compares characters. -/
def Funcs.fold (funs : Funcs) (c : UInt8) : UInt8 := funs.lowerCase (funs.noAccent c)

/-- The characters that have a shift because of one in the key. -/
def Funcs.variants (funs : Funcs) (c : UInt8) : List UInt8 :=
  [funs.lowerCase c, funs.upperCase c, funs.withAccent c, funs.noAccent c]

/-! ### The scan -/

/-- What the first loop of the scan does for a character of the key. -/
def bmhTableStep (funs : Funcs) (key : List UInt8) (d : UInt8 → ℕ) (k : ℕ) : UInt8 → ℕ :=
  (funs.variants (key.getD k 0)).foldl (fun d c => Function.update d c (key.length - k)) d

/-- The shift for a character of the text. -/
def bmhTable (funs : Funcs) (key : List UInt8) : UInt8 → ℕ :=
  (List.range key.length).foldl (bmhTableStep funs key) fun _ => key.length + 1

/-- The inner loop: how many characters agree; none, if it does not end. -/
def bmhMatch (fold : UInt8 → UInt8) : List UInt8 → List UInt8 → Option ℕ
  | a :: s, b :: t => if fold a = fold b then (bmhMatch fold s t).map (· + 1) else some 0
  | _, _ => none

/-- The loop over alignments, and the special case after it. -/
def bmhLoop (funs : Funcs) (text key : List UInt8) (maxhits : ℕ) (d : UInt8 → ℕ) :
    ℕ → ℕ → List ℕ → Option (List ℕ)
  | 0, _, _ => none
  | fuel + 1, k, start =>
    if k + key.length < text.length ∧ start.length < maxhits then
      match bmhMatch funs.fold (text.drop k ++ [0]) (key ++ [0]) with
      | none => none
      | some j =>
        let start' := if j = key.length then start ++ [k] else start
        if j = key.length ∧ start'.length = maxhits then some start'
        else bmhLoop funs text key maxhits d fuel (k + d (text.getD (k + key.length) 0)) start'
    else if k + key.length = text.length then
      (funs.toComp (text.drop k) key).map fun c => if c = 0 then start ++ [k] else start
    else some start

/-- `_archBMHGeneralSearch`. -/
def archBMHGeneralSearch (funs : Funcs) (text key : List UInt8) (maxhits : ℕ) : Option (List ℕ) :=
  if maxhits = 0 then some []
  else bmhLoop funs text key maxhits (bmhTable funs key) (text.length + 1) 0 []

/-- The naive scan: all places where the characters agree. -/
def matchPlaces (fold : UInt8 → UInt8) (text key : List UInt8) : List ℕ :=
  (List.range (text.length + 1 - key.length)).filter fun p =>
    ∀ j < key.length, fold (text.getD (p + j) 0) = fold (key.getD j 0)

/-- The alignments to which the shifts lead. -/
def bmhAlignments (d : UInt8 → ℕ) (text : List UInt8) (klen : ℕ) : ℕ → ℕ → List ℕ
  | 0, _ => []
  | fuel + 1, k =>
    if k + klen < text.length
      then k :: bmhAlignments d text klen fuel (k + d (text.getD (k + klen) 0))
    else if k + klen = text.length then [k]
    else []

/-! ### Shifts -/

theorem foldl_update_apply {l : List UInt8} (d : UInt8 → ℕ) (n : ℕ) (b : UInt8) :
    l.foldl (fun d c => Function.update d c n) d b = if b ∈ l then n else d b := by
  induction l generalizing d with
  | nil => simp
  | cons c l ih =>
    rw [List.foldl_cons, ih]
    by_cases hl : b ∈ l
    · rw [if_pos hl, if_pos (List.mem_cons_of_mem c hl)]
    · rw [if_neg hl, Function.update_apply]
      simp only [List.mem_cons, hl, or_false]

/-- What the first loop does for a character of the key that stands for `variants`. -/
def shiftStep (variants : UInt8 → List UInt8) (key : List UInt8) (d : UInt8 → ℕ) (k : ℕ) : UInt8 →
    ℕ :=
  (variants (key.getD k 0)).foldl (fun d c => Function.update d c (key.length - k)) d

/-- The shifts for any choice of the characters that one of the key stands for. -/
def shiftTable (variants : UInt8 → List UInt8) (key : List UInt8) : UInt8 → ℕ :=
  (List.range key.length).foldl (shiftStep variants key) fun _ => key.length + 1

/-- The last character of the key that a byte stands for decides its shift. -/
theorem shiftTable_le_iff (variants : UInt8 → List UInt8) {key : List UInt8} {b : UInt8} {j : ℕ}
    (hj : j < key.length) :
    shiftTable variants key b ≤ key.length - j ↔
      ∃ i < key.length, j ≤ i ∧ b ∈ variants (key.getD i 0) := by
  have hfold : ∀ n ≤ key.length,
      ((List.range n).foldl (shiftStep variants key) fun _ => key.length + 1) b ≤ key.length - j ↔
        ∃ i < n, j ≤ i ∧ b ∈ variants (key.getD i 0) := by
    intro n
    induction n with
    | zero =>
      intro _
      refine iff_of_false ?_ ?_
      · show ¬ key.length + 1 ≤ key.length - j
        omega
      · rintro ⟨i, hi, -⟩
        omega
    | succ n ih =>
      intro hn
      rw [List.range_succ, List.foldl_append, List.foldl_cons, List.foldl_nil, shiftStep,
        foldl_update_apply]
      split
      next hb =>
        constructor
        · intro hle
          exact ⟨n, Nat.lt_succ_self n, by omega, hb⟩
        · rintro ⟨i, hi, hji, -⟩
          omega
      next hb =>
        rw [ih (by omega)]
        constructor
        · rintro ⟨i, hi, hmem⟩
          exact ⟨i, by omega, hmem⟩
        · rintro ⟨i, hi, hji, hmem⟩
          rcases Nat.lt_succ_iff_lt_or_eq.mp hi with hi | rfl
          · exact ⟨i, hi, hji, hmem⟩
          · exact absurd hmem hb
  exact hfold key.length le_rfl

theorem shiftTable_bounds (variants : UInt8 → List UInt8) (key : List UInt8) (b : UInt8) :
    0 < shiftTable variants key b ∧ shiftTable variants key b ≤ key.length + 1 := by
  have hfold : ∀ n ≤ key.length,
      0 < ((List.range n).foldl (shiftStep variants key) fun _ => key.length + 1) b ∧
        ((List.range n).foldl (shiftStep variants key) fun _ => key.length + 1) b ≤
          key.length + 1 := by
    intro n
    induction n with
    | zero => exact fun _ => ⟨Nat.succ_pos _, le_rfl⟩
    | succ n ih =>
      intro hn
      rw [List.range_succ, List.foldl_append, List.foldl_cons, List.foldl_nil, shiftStep,
        foldl_update_apply]
      split
      next => omega
      next => exact ih (by omega)
  exact hfold key.length le_rfl

theorem bmhTable_le_iff (funs : Funcs) {key : List UInt8} {b : UInt8} {j : ℕ}
    (hj : j < key.length) :
    bmhTable funs key b ≤ key.length - j ↔ ∃ i < key.length, j ≤ i ∧
      b ∈ funs.variants (key.getD i 0) :=
  shiftTable_le_iff funs.variants hj

theorem bmhTable_bounds (funs : Funcs) (key : List UInt8) (b : UInt8) :
    0 < bmhTable funs key b ∧ bmhTable funs key b ≤ key.length + 1 :=
  shiftTable_bounds funs.variants key b

/-! ### Comparing at an alignment -/

theorem bmhMatch_eq {fold : UInt8 → UInt8} (hfold : ∀ c, fold c = fold 0 → c = 0)
    {s key : List UInt8}
    (hs : 0 ∉ s) (rest : List UInt8) (hlen : key.length < s.length) :
    ∃ j, bmhMatch fold (s ++ rest) (key ++ [0]) = some j ∧
      (j = key.length ↔ keyMatchesWith fold key s = true) := by
  induction key generalizing s with
  | nil =>
    obtain ⟨c, s, rfl⟩ := List.exists_cons_of_ne_nil (List.ne_nil_of_length_pos hlen)
    have hc : fold c ≠ fold 0 := fun h => hs (hfold c h ▸ List.mem_cons_self)
    exact ⟨0, by rw [List.cons_append, List.nil_append, bmhMatch, if_neg hc], iff_of_true rfl rfl⟩
  | cons b key ih =>
    obtain ⟨c, s, rfl⟩ :=
      List.exists_cons_of_ne_nil (List.ne_nil_of_length_pos (Nat.zero_lt_of_lt hlen))
    rw [List.cons_append, List.cons_append, bmhMatch, keyMatchesWith]
    by_cases hbc : fold c = fold b
    · obtain ⟨j, hj, hiff⟩ :=
        ih (s := s) (fun h => hs (List.mem_cons_of_mem c h)) (Nat.lt_of_succ_lt_succ hlen)
      refine ⟨j + 1, by rw [if_pos hbc, hj, Option.map_some], ?_⟩
      rw [if_neg (not_not.mpr hbc.symm), List.length_cons, Nat.add_right_cancel_iff, hiff]
    · refine ⟨0, by rw [if_neg hbc], ?_⟩
      rw [if_pos (Ne.symm hbc)]
      exact iff_of_false (Nat.succ_ne_zero _).symm Bool.false_ne_true

theorem keyMatchesWith_iff_getD {fold : UInt8 → UInt8} {key s : List UInt8} :
    keyMatchesWith fold key s = true ↔
      key.length ≤ s.length ∧ ∀ j < key.length, fold (s.getD j 0) = fold (key.getD j 0) := by
  induction key generalizing s with
  | nil => simp [keyMatchesWith]
  | cons b key ih =>
    cases s with
    | nil => simp [keyMatchesWith]
    | cons c s =>
      rw [keyMatchesWith, List.length_cons, Nat.forall_lt_succ_left]
      by_cases hbc : fold b = fold c
      · rw [if_neg (not_not.mpr hbc), ih]
        simp [hbc]
      · rw [if_pos hbc]
        simp [Ne.symm hbc]

/-- The naive scan in the terms of the search. -/
theorem matchPlaces_eq {fold : UInt8 → UInt8} {text key : List UInt8} (hne : key ≠ []) :
    matchPlaces fold text key = placesFrom fold key text 0 := by
  have hpos := List.length_pos_of_ne_nil hne
  have hmatch : ∀ p, keyMatchesWith fold key (text.drop p) = true ↔
      key.length ≤ text.length - p ∧ ∀ j < key.length,
        fold (text.getD (p + j) 0) = fold (key.getD j 0) := by
    intro p
    rw [keyMatchesWith_iff_getD, List.length_drop]
    simp only [List.getD_eq_getElem?_getD, List.getElem?_drop]
  have hlen : text.length = (text.length + 1 - key.length) +
      (text.length - (text.length + 1 - key.length)) := by
    omega
  rw [matchPlaces, placesFrom, Nat.sub_zero, List.range_eq_range', hlen, ← List.range'_append_1,
    List.filter_append, ← hlen, Nat.zero_add]
  have hlast : ((List.range' (text.length + 1 - key.length)
      (text.length - (text.length + 1 - key.length))).filter
      fun p => keyMatchesWith fold key (text.drop p)) = [] := by
    refine List.filter_eq_nil_iff.mpr fun p hp => ?_
    have hle := List.mem_range'_1.mp hp
    rw [hmatch]
    omega
  rw [hlast, List.append_nil]
  refine List.filter_congr fun p hp => ?_
  have hle := List.mem_range'_1.mp hp
  rw [Bool.eq_iff_iff, decide_eq_true_iff, hmatch, iff_and_self]
  intro _
  omega

/-! ### The loop -/

section

variable {funs : Funcs} {text key : List UInt8} {maxhits : ℕ} {d : UInt8 → ℕ} {fuel k : ℕ}
  {start : List ℕ}

/-- What is found after an alignment. -/
def foundAt (fold : UInt8 → UInt8) (text key : List UInt8) (k : ℕ) (start : List ℕ) : List ℕ :=
  if keyMatchesWith fold key (text.drop k) then start ++ [k] else start

/-- One round of the loop. -/
theorem bmhLoop_round (hfold : ∀ c, funs.fold c = funs.fold 0 → c = 0) (htext : 0 ∉ text)
    (hk : k + key.length < text.length) (hstart : start.length < maxhits) :
    bmhLoop funs text key maxhits d (fuel + 1) k start =
      if (foundAt funs.fold text key k start).length = maxhits
        then some (foundAt funs.fold text key k start)
      else bmhLoop funs text key maxhits d fuel (k + d (text.getD (k + key.length) 0))
        (foundAt funs.fold text key k start) := by
  obtain ⟨j, hj, hiff⟩ :=
    bmhMatch_eq hfold (s := text.drop k) (fun h => htext (List.mem_of_mem_drop h)) [0]
    (show key.length < (text.drop k).length by rw [List.length_drop]; omega)
  rw [bmhLoop, if_pos ⟨hk, hstart⟩, hj, foundAt]
  dsimp only
  by_cases hmatch : keyMatchesWith funs.fold key (text.drop k) = true
  · rw [if_pos (hiff.mpr hmatch), if_pos hmatch]
    simp only [hiff.mpr hmatch, true_and]
  · rw [if_neg (mt hiff.mp hmatch), if_neg hmatch, if_neg (fun h => hmatch (hiff.mp h.1)),
      if_neg hstart.ne]

/-- What is found from an alignment on is not before it. -/
theorem bmhLoop_prefix (hfold : ∀ c, funs.fold c = funs.fold 0 → c = 0) (htext : 0 ∉ text)
    {r : List ℕ} (h : bmhLoop funs text key maxhits d fuel k start = some r) :
    ∃ r', r = start ++ r' ∧ ∀ p ∈ r', k ≤ p := by
  induction fuel generalizing k start with
  | zero => exact absurd h.symm (Option.some_ne_none _)
  | succ fuel ih =>
    have hnone : ∃ r', start = start ++ r' ∧ ∀ p ∈ r', k ≤ p :=
      ⟨[], (List.append_nil start).symm, fun p hp => absurd hp List.not_mem_nil⟩
    have hone : ∃ r', start ++ [k] = start ++ r' ∧ ∀ p ∈ r', k ≤ p :=
      ⟨[k], rfl, fun p hp => (List.mem_singleton.mp hp).ge⟩
    by_cases hk : k + key.length < text.length ∧ start.length < maxhits
    · rw [bmhLoop_round hfold htext hk.1 hk.2] at h
      split at h
      next =>
        obtain rfl := Option.some.inj h
        rw [foundAt]
        split
        · exact hone
        · exact hnone
      next =>
        obtain ⟨r', rfl, hall⟩ := ih h
        have hall' : ∀ p ∈ r', k ≤ p := fun p hp => le_trans (Nat.le_add_right k _) (hall p hp)
        rw [foundAt]
        split
        · refine ⟨k :: r', by rw [List.append_assoc, List.singleton_append], ?_⟩
          exact List.forall_mem_cons.mpr ⟨le_rfl, hall'⟩
        · exact ⟨r', rfl, hall'⟩
    · rw [bmhLoop, if_neg hk] at h
      split at h
      next =>
        obtain ⟨c, -, rfl⟩ := Option.map_eq_some_iff.mp h
        split
        · exact hone
        · exact hnone
      next =>
        obtain rfl := Option.some.inj h
        exact hnone

theorem le_of_mem_bmhAlignments {klen a : ℕ} (ha : a ∈ bmhAlignments d text klen fuel k) :
    k ≤ a := by
  induction fuel generalizing k with
  | zero => exact absurd ha List.not_mem_nil
  | succ fuel ih =>
    rw [bmhAlignments] at ha
    split at ha
    next =>
      rcases List.mem_cons.mp ha with rfl | ha
      · exact le_rfl
      · exact le_trans (Nat.le_add_right k _) (ih ha)
    next =>
      split at ha
      next => exact (List.mem_singleton.mp ha).ge
      next => exact absurd ha List.not_mem_nil

/-- What has to hold at some alignments, where `places` are the places to be found, up to `left`. -/
structure BmhFindsFrom (funs : Funcs) (text key : List UInt8) (alignments places : List ℕ)
    (left : ℕ) :
    Prop where
  shifts : ∀ a ∈ alignments, a + key.length < text.length → ∀ j < key.length,
    a + key.length - j ∈ places.take left →
      ∃ i < key.length, j ≤ i ∧ text.getD (a + key.length) 0 ∈ funs.variants (key.getD i 0)
  found : ∀ a ∈ alignments, a + key.length = text.length → a ∈ places.take left →
    funs.toComp (text.drop a) key = some 0
  notFound : ∀ a ∈ alignments, a + key.length = text.length → a ∉ places → places.length < left →
    funs.toComp (text.drop a) key ≠ none ∧ funs.toComp (text.drop a) key ≠ some 0

/-- The places from an alignment on: it is one of them itself, others may be jumped over, and the
rest are from the next alignment on. -/
theorem placesFrom_shift {fold : UInt8 → UInt8} {n : ℕ} (hn : 0 < n) (hk : k + n ≤ text.length) :
    placesFrom fold key text k = foundAt fold text key k [] ++
      ((List.range' (k + 1) (n - 1)).filter fun p => keyMatchesWith fold key (text.drop p)) ++
        placesFrom fold key text (k + n) := by
  have hrange : List.range' k n = k :: List.range' (k + 1) (n - 1) := by
    rw [show n = (n - 1) + 1 by omega, List.range'_succ, Nat.add_sub_cancel]
  rw [placesFrom_append hk, hrange, List.filter_cons, foundAt]
  split
  · rw [List.nil_append, List.singleton_append]
  · rw [List.nil_append]

theorem foundAt_eq_append (fold : UInt8 → UInt8) (text key : List UInt8) (k : ℕ) (start : List ℕ) :
    foundAt fold text key k start = start ++ foundAt fold text key k [] := by
  rw [foundAt, foundAt]
  split
  · rw [List.nil_append]
  · rw [List.append_nil]

theorem eq_of_mem_foundAt {fold : UInt8 → UInt8} {p : ℕ} (hp : p ∈ foundAt fold text key k []) :
    p = k := by
  rw [foundAt] at hp
  split at hp
  · exact List.mem_singleton.mp hp
  · exact absurd hp List.not_mem_nil

/-- Alignments without a place between one and the next. -/
theorem bmhFindsFrom_cons_iff {F P : List ℕ} {n left : ℕ} {l : List ℕ} (hF : ∀ p ∈ F, p = k)
    (hP : ∀ p ∈ P, k + n ≤ p) (hl : ∀ a ∈ l, k + n ≤ a) (hn : 0 < n)
    (hk : k + key.length < text.length)
    (hshift : ∀ j < key.length, n ≤ key.length - j →
      ∃ i < key.length, j ≤ i ∧ text.getD (k + key.length) 0 ∈ funs.variants (key.getD i 0)) :
    BmhFindsFrom funs text key (k :: l) (F ++ P) (F.length + left) ↔
      BmhFindsFrom funs text key l P left := by
  have htake : (F ++ P).take (F.length + left) = F ++ P.take left :=
    List.take_length_add_append left
  -- Beyond `k` the places are those that are left.
  have hmem : ∀ p, k < p → (p ∈ F ++ P.take left ↔ p ∈ P.take left) := by
    intro p hp
    rw [List.mem_append, or_iff_right]
    intro hpF
    exact hp.ne (hF p hpF).symm
  have hlater : ∀ a ∈ l, k < a := fun a ha => lt_of_lt_of_le (by omega) (hl a ha)
  constructor
  · intro h
    constructor
    case shifts =>
      intro a ha hlt j hj hp
      have hka := hlater a ha
      exact h.shifts a (List.mem_cons_of_mem k ha) hlt j hj (htake ▸ (hmem _ (by omega)).mpr hp)
    case found =>
      intro a ha heq hp
      exact h.found a (List.mem_cons_of_mem k ha) heq (htake ▸ (hmem a (hlater a ha)).mpr hp)
    case notFound =>
      intro a ha heq hp hlen
      refine h.notFound a (List.mem_cons_of_mem k ha) heq (fun hmem => ?_)
        (by rw [List.length_append]; omega)
      rcases List.mem_append.mp hmem with hmem | hmem
      · exact (hlater a ha).ne (hF a hmem).symm
      · exact hp hmem
  · intro h
    constructor
    case shifts =>
      intro a ha hlt j hj hp
      rw [htake] at hp
      rcases List.mem_cons.mp ha with rfl | ha
      · have hmemP := (hmem _ (by omega)).mp hp
        have hge := hP _ (List.mem_of_mem_take hmemP)
        exact hshift j hj (by omega)
      · have hka := hlater a ha
        exact h.shifts a ha hlt j hj ((hmem _ (by omega)).mp hp)
    case found =>
      intro a ha heq hp
      rw [htake] at hp
      rcases List.mem_cons.mp ha with rfl | ha
      · omega
      · exact h.found a ha heq ((hmem a (hlater a ha)).mp hp)
    case notFound =>
      intro a ha heq hp hlen
      rcases List.mem_cons.mp ha with rfl | ha
      · omega
      · rw [List.length_append] at hlen
        exact h.notFound a ha heq (fun hmemP => hp (List.mem_append_right F hmemP)) (by omega)

/-- Beyond the last alignment there are no places. -/
theorem placesFrom_eq_nil {fold : UInt8 → UInt8} (hne : key ≠ [])
    (hk : text.length < k + key.length) :
    placesFrom fold key text k = [] := by
  have hpos := List.length_pos_of_ne_nil hne
  refine List.filter_eq_nil_iff.mpr fun p hp => ?_
  have hle := (List.mem_range'_1.mp hp).1
  rw [keyMatchesWith_iff_getD, List.length_drop]
  omega

/-- Where the key is aligned with the end of the text, there is one place at most. -/
theorem placesFrom_last {fold : UInt8 → UInt8} (hne : key ≠ [])
    (hk : k + key.length = text.length) :
    placesFrom fold key text k = foundAt fold text key k [] := by
  have hpos := List.length_pos_of_ne_nil hne
  rw [placesFrom_shift (n := 1) Nat.one_pos
    (by omega), placesFrom_eq_nil hne (by omega), Nat.sub_self,
    List.range'_zero, List.filter_nil, List.append_nil, List.append_nil]

/-- **The scan from an alignment on.** -/
theorem bmhLoop_iff (hfold : ∀ c, funs.fold c = funs.fold 0 → c = 0) (htext : 0 ∉ text)
    (hne : key ≠ []) (hfuel : 0 < fuel ∧ text.length < k + fuel) (hstart : start.length < maxhits) :
    bmhLoop funs text key maxhits (bmhTable funs key) fuel k start =
        some (start ++ (placesFrom funs.fold key text k).take (maxhits - start.length)) ↔
      BmhFindsFrom funs text key (bmhAlignments (bmhTable funs key) text key.length fuel k)
        (placesFrom funs.fold key text k) (maxhits - start.length) := by
  induction fuel generalizing k start with
  | zero => omega
  | succ fuel ih =>
    have hpos := List.length_pos_of_ne_nil hne
    rcases Nat.lt_trichotomy (k + key.length) text.length with hk | hk | hk
    · have hbounds := bmhTable_bounds funs key (text.getD (k + key.length) 0)
      rw [bmhLoop_round hfold htext hk hstart, foundAt_eq_append, bmhAlignments, if_pos hk]
      set b := text.getD (k + key.length) 0 with hb
      rw [placesFrom_shift (n := bmhTable funs key b) hbounds.1 (by omega)]
      set F := foundAt funs.fold text key k [] with hFdef
      have hF : ∀ p ∈ F, p = k := fun p hp => eq_of_mem_foundAt hp
      have hP : ∀ p ∈ placesFrom funs.fold key text (k + bmhTable funs key b),
          k + bmhTable funs key b ≤ p :=
        fun p hp => le_of_mem_placesFrom hp
      have hl : ∀ a ∈ bmhAlignments (bmhTable funs key) text key.length fuel
          (k + bmhTable funs key b),
          k + bmhTable funs key b ≤ a := fun a ha => le_of_mem_bmhAlignments ha
      by_cases hfull : (start ++ F).length = maxhits
      · -- The last place that is asked for is found here.
        have hleft : maxhits - start.length = F.length := by rw [List.length_append] at hfull; omega
        rw [if_pos hfull, hleft, List.append_assoc, List.take_left]
        refine iff_of_true rfl ?_
        constructor
        case shifts =>
          intro a ha _ j hj hp
          rw [List.take_left] at hp
          have hka := List.forall_mem_cons.mpr
              ⟨le_rfl, fun a ha => le_trans (Nat.le_add_right k _) (hl a ha)⟩ a ha
          have heq := hF _ hp
          omega
        case found =>
          intro a _ heq hp
          rw [List.take_left] at hp
          have heq' := hF a hp
          omega
        case notFound =>
          intro a _ _ _ hlen
          rw [List.length_append] at hlen
          omega
      · rw [if_neg hfull]
        have hFlen : F.length ≤ 1 := by rw [hFdef, foundAt]; split <;> simp
        have hstart' : (start ++ F).length < maxhits := by rw [List.length_append] at hfull ⊢; omega
        have hleft : maxhits - start.length = F.length + (maxhits - (start ++ F).length) := by
          rw [List.length_append] at hstart' ⊢
          omega
        rw [hleft, List.append_assoc, List.take_length_add_append, ← List.append_assoc]
        cases hG : (List.range' (k + 1) (bmhTable funs key b - 1)).filter
            fun p => keyMatchesWith funs.fold key (text.drop p) with
        | nil =>
          rw [List.nil_append, ih ⟨by omega, by omega⟩ hstart',
            bmhFindsFrom_cons_iff hF hP hl hbounds.1 hk fun j hj hle =>
              (bmhTable_le_iff funs hj).mp hle]
        | cons g G =>
          -- A place is jumped over, so that it is not found, although it is among those asked for.
          have hg : g ∈ List.range' (k + 1) (bmhTable funs key b - 1) :=
            List.mem_of_mem_filter (hG ▸ List.mem_cons_self)
          have hrange := List.mem_range'_1.mp hg
          obtain ⟨left, hleft'⟩ : ∃ left, maxhits - (start ++ F).length = left + 1 :=
            ⟨maxhits - (start ++ F).length - 1, by omega⟩
          rw [hleft', List.cons_append, List.take_succ_cons]
          refine iff_of_false (fun hloop => ?_) fun hfinds => ?_
          · obtain ⟨r', hr, hall⟩ := bmhLoop_prefix hfold htext hloop
            have hgr : g ∈ r' := (List.append_cancel_left hr) ▸ List.mem_cons_self
            have hge := hall g hgr
            omega
          · have hj : k + key.length - g < key.length := by omega
            have hmem : k + key.length - (k + key.length - g) ∈
                (F ++ g :: (G ++ placesFrom funs.fold key text (k + bmhTable funs key b))).take
                  (F.length + (left + 1)) := by
              rw [List.take_length_add_append, List.take_succ_cons,
                show k + key.length - (k + key.length - g) = g by omega]
              exact List.mem_append_right F List.mem_cons_self
            have hshift := hfinds.shifts k List.mem_cons_self hk _ hj hmem
            have hle : bmhTable funs key b ≤ _ := (bmhTable_le_iff funs hj).mpr hshift
            omega
    · rw [bmhLoop, if_neg (by omega), if_pos hk, bmhAlignments, if_neg (by omega), if_pos hk,
        placesFrom_last hne hk]
      obtain ⟨left, hleft⟩ : ∃ left, maxhits - start.length = left + 1 :=
        ⟨maxhits - start.length - 1, by omega⟩
      rw [hleft, foundAt]
      by_cases hmatch : keyMatchesWith funs.fold key (text.drop k) = true
      · rw [if_pos hmatch, List.nil_append, List.take_of_length_le (by simp)]
        constructor
        · intro hcomp
          obtain ⟨c, hc, hstart⟩ := Option.map_eq_some_iff.mp hcomp
          have hc0 : c = 0 := by
            by_contra hne0
            rw [if_neg hne0] at hstart
            exact absurd (congrArg List.length hstart) (by simp)
          constructor
          case shifts => intro a ha hlt; rw [List.mem_singleton.mp ha] at hlt; omega
          case found => intro a ha _ _; rw [List.mem_singleton.mp ha, hc, hc0]
          case notFound => intro a ha _ hmem; exact absurd ha hmem
        · intro hfinds
          rw [hfinds.found k (List.mem_singleton_self k) hk (by simp)]
          rfl
      · rw [if_neg hmatch, List.take_nil, List.append_nil]
        constructor
        · intro hcomp
          obtain ⟨c, hc, hstart⟩ := Option.map_eq_some_iff.mp hcomp
          have hc0 : c ≠ 0 := by
            rintro rfl
            exact absurd (congrArg List.length hstart) (by simp)
          constructor
          case shifts => intro a ha hlt; rw [List.mem_singleton.mp ha] at hlt; omega
          case found => intro a _ _ hmem; exact absurd hmem List.not_mem_nil
          case notFound =>
            intro a ha _ _ _; rw [List.mem_singleton.mp ha, hc]; exact
              ⟨Option.some_ne_none c, mt Option.some.inj hc0⟩
        · intro hfinds
          obtain ⟨hc, hc0⟩ := hfinds.notFound k (List.mem_singleton_self k) hk List.not_mem_nil
              (Nat.succ_pos left)
          obtain ⟨c, hc⟩ := Option.ne_none_iff_exists'.mp hc
          rw [hc] at hc0 ⊢
          rw [Option.map_some, if_neg (fun h => hc0 (congrArg some h))]
    · rw [bmhLoop, if_neg
        (by omega), if_neg (by omega), bmhAlignments, if_neg (by omega), if_neg (by omega),
        placesFrom_eq_nil hne hk, List.take_nil, List.append_nil]
      refine iff_of_true rfl ?_
      constructor
      all_goals exact fun a ha => absurd ha List.not_mem_nil

end

/-! ### The four settings -/

theorem asciiLower_noAccent_eq_zero (c : UInt8) (h : asciiLower (noAccent c) = 0) : c = 0 := by
  refine forall_uint8 (P := fun c => asciiLower (noAccent c) = 0 → c = 0) ?_ c h
  decide +kernel

theorem asciiLower_eq_zero (c : UInt8) (h : asciiLower c = 0) : c = 0 := by
  refine forall_uint8 (P := fun c => asciiLower c = 0 → c = 0) ?_ c h
  decide +kernel

/-- Only NUL is compared like NUL. -/
theorem funs_fold_zero (s : Sens) (c : UInt8) (h : s.funs.fold c = s.funs.fold 0) : c = 0 := by
  cases s with
  | ciai => exact asciiLower_noAccent_eq_zero c h
  | cias => exact asciiLower_eq_zero c h
  | csai => exact (noAccent_eq_zero_iff c).mp h
  | csas => exact h

/-- What has to hold at the alignments that the scan comes to: the character after one has a shift
that leads no further than the next place that is asked for, and at the end of the text `toComp`
compares like the scan. -/
def BmhFinds (s : Sens) (text key : List UInt8) (maxhits : ℕ) : Prop :=
  BmhFindsFrom s.funs text key
    (bmhAlignments (bmhTable s.funs key) text key.length (text.length + 1) 0)
    (matchPlaces s.funs.fold text key) maxhits

set_option synthInstance.maxSize 512 in
instance (funs : Funcs) (text key : List UInt8) (alignments places : List ℕ) (left : ℕ) :
    Decidable (BmhFindsFrom funs text key alignments places left) :=
  decidable_of_iff
    ((∀ a ∈ alignments, a + key.length < text.length → ∀ j < key.length,
      a + key.length - j ∈ places.take left →
        ∃ i < key.length, j ≤ i ∧ text.getD (a + key.length) 0 ∈ funs.variants (key.getD i 0)) ∧
      (∀ a ∈ alignments, a + key.length = text.length → a ∈ places.take left →
        funs.toComp (text.drop a) key = some 0) ∧
      ∀ a ∈ alignments, a + key.length = text.length → a ∉ places → places.length < left →
        funs.toComp (text.drop a) key ≠ none ∧ funs.toComp (text.drop a) key ≠ some 0)
    ⟨fun ⟨h₁, h₂, h₃⟩ => ⟨h₁, h₂, h₃⟩, fun ⟨h₁, h₂, h₃⟩ => ⟨h₁, h₂, h₃⟩⟩

instance (s : Sens) (text key : List UInt8) (maxhits : ℕ) :
    Decidable (BmhFinds s text key maxhits) :=
  inferInstanceAs (Decidable (BmhFindsFrom _ _ _ _ _ _))

set_option linter.unusedVariables false in
/-- **The skipping scan** finds what the naive one finds, up to the maximum. -/
theorem archBMHGeneralSearch_iff (s : Sens) {text key : List UInt8} (htext : 0 ∉ text)
    (hkey : 0 ∉ key)
    (hne : key ≠ []) (maxhits : ℕ) :
    archBMHGeneralSearch s.funs text key maxhits = some
      ((matchPlaces s.funs.fold text key).take maxhits) ↔
      BmhFinds s text key maxhits := by
  rw [archBMHGeneralSearch, BmhFinds]
  split
  next hzero =>
    rw [hzero, List.take_zero]
    refine iff_of_true rfl ?_
    constructor
    case shifts => exact fun _ _ _ _ _ hp => absurd hp List.not_mem_nil
    case found => exact fun _ _ _ hp => absurd hp List.not_mem_nil
    case notFound => exact fun _ _ _ _ hlen => absurd hlen (Nat.not_lt_zero _)
  next hpos =>
    have hloop := @bmhLoop_iff s.funs text key maxhits (text.length + 1) 0 []
        (funs_fold_zero s) htext
      hne ⟨Nat.succ_pos _, by omega⟩ (Nat.pos_of_ne_zero hpos)
    rw [List.nil_append, List.length_nil, Nat.sub_zero] at hloop
    rw [matchPlaces_eq hne]
    exact hloop

theorem mem_matchPlaces {fold : UInt8 → UInt8} {text key : List UInt8} {p : ℕ} :
    p ∈ matchPlaces fold text key ↔
      p < text.length + 1 - key.length ∧ ∀ j < key.length,
        fold (text.getD (p + j) 0) = fold (key.getD j 0) := by
  rw [matchPlaces, List.mem_filter, List.mem_range, decide_eq_true_iff]

/-- Where every character of the text that agrees with one of the key is a variant of it, no place is
jumped over. -/
theorem bmhFinds_of_variants {s : Sens} {text key : List UInt8} {maxhits : ℕ}
    (hvariants : ∀ b ∈ text, ∀ c ∈ key, s.funs.fold b = s.funs.fold c → b ∈ s.funs.variants c)
    (hfound : ∀ a, a + key.length = text.length →
      a ∈ (matchPlaces s.funs.fold text key).take maxhits →
      s.funs.toComp (text.drop a) key = some 0)
    (hnotFound : ∀ a, a + key.length = text.length → a ∉ matchPlaces s.funs.fold text key →
      s.funs.toComp (text.drop a) key ≠ none ∧ s.funs.toComp (text.drop a) key ≠ some 0) :
    BmhFinds s text key maxhits := by
  constructor
  case shifts =>
    intro a _ hlt j hj hp
    have hmatch := (mem_matchPlaces.mp (List.mem_of_mem_take hp)).2 j hj
    rw [show a + key.length - j + j = a + key.length by omega] at hmatch
    refine ⟨j, hj, le_rfl, hvariants _ ?_ _ ?_ hmatch⟩
    · rw [List.getD_eq_getElem _ _ hlt]
      exact List.getElem_mem hlt
    · rw [List.getD_eq_getElem _ _ hj]
      exact List.getElem_mem hj
  case found => exact fun a _ heq hp => hfound a heq hp
  case notFound => exact fun a _ heq hp _ => hnotFound a heq hp

theorem asciiLower_or_asciiUpper (c : UInt8) :
    (c = asciiLower c ∨ c = asciiUpper c) ∧ asciiUpper (asciiLower c) = asciiUpper c := by
  refine forall_uint8
    (P := fun c => (c = asciiLower c ∨ c = asciiUpper c) ∧
      asciiUpper (asciiLower c) = asciiUpper c) ?_ c
  decide +kernel

/-- Without folding of accents all characters that agree have a shift. -/
theorem mem_variants_of_fold {s : Sens} (hs : s = .cias ∨ s = .csas) {b c : UInt8}
    (h : s.funs.fold b = s.funs.fold c) : b ∈ s.funs.variants c := by
  rcases hs with rfl | rfl
  · have hlower : asciiLower b = asciiLower c := h
    rcases (asciiLower_or_asciiUpper b).1 with hb | hb
    · rw [hb, hlower]
      exact List.mem_cons_self
    · rw [hb, ← (asciiLower_or_asciiUpper b).2, hlower, (asciiLower_or_asciiUpper c).2]
      exact List.mem_cons_of_mem _ List.mem_cons_self
  · rw [show b = c from h]
    exact List.mem_cons_self

theorem archBMHGeneralSearch_sample :
    archBMHGeneralSearch Sens.ciai.funs (bytes "Abcab.") (bytes "ab") 5 =
      some ((matchPlaces Sens.ciai.funs.fold (bytes "Abcab.") (bytes "ab")).take 5) :=
  (archBMHGeneralSearch_iff .ciai (by decide) (by decide) (by decide) 5).mpr (by decide +kernel)

/-- An accented letter has no shift, and without folding the end of the text is not compared. -/
theorem not_archBMHGeneralSearch :
    (¬ ∀ (s : Sens) (text key : List UInt8) (maxhits : ℕ), 0 ∉ text → 0 ∉ key → key ≠ [] →
      archBMHGeneralSearch s.funs text key maxhits = some
        ((matchPlaces s.funs.fold text key).take maxhits)) ∧
    archBMHGeneralSearch Sens.csas.funs (bytes "ab") (bytes "b") 1 = none := by
  refine ⟨fun h => ?_, by decide +kernel⟩
  have hsearch := h .ciai [120, 225, 33] [97] 1 (by decide) (by decide) (by decide)
  exact absurd hsearch (by decide +kernel)

end Archie
