/-
Hash tables with open addressing and double hashing.

A table is a list of slots, each empty or holding an entry.  A key `k` starts at
slot `start k` and moves on by `step k`, modulo the size of the table, until it
meets an empty slot or its own entry (`probe`).

* `probe_eq_some_iff` — the probe stops at the first slot that stops it.
* `exists_probe` — when the step is coprime to the size and a slot is empty, it
  stops within one round.
* `Sound` — keys are distinct and no entry has an empty slot before it on its
  probe sequence.
* `Sound.probe_of_mem`, `Sound.probe_of_not_mem` — in a sound table a probe
  finds the entry of its key, or else an empty slot.
* `Sound.set` — filling the slot found for a new key keeps a table sound.
-/
import Mathlib.Data.List.ReduceOption
import Mathlib.Data.List.Perm.Basic
import Mathlib.Data.Nat.ModEq
import Mathlib.Data.ZMod.Basic
import Mathlib.Data.List.GetD
import Mathlib.Tactic.Ring

namespace OpenAddressing

variable {K V : Type*}

/-- The slot reached from `n` after `j` steps of size `i` in a table of `m` slots. -/
def position (m n i j : ℕ) : ℕ := (n + j * i) % m

theorem position_lt {m : ℕ} (hm : 0 < m) (n i j : ℕ) : position m n i j < m := Nat.mod_lt _ hm

theorem position_zero {m n : ℕ} (hn : n < m) (i : ℕ) : position m n i 0 = n := by
  rw [position, Nat.zero_mul, Nat.add_zero, Nat.mod_eq_of_lt hn]

theorem position_succ (m n i j : ℕ) :
    position m ((n + i) % m) i j = position m n i (j + 1) := by
  rw [position, position, Nat.mod_add_mod]
  congr 1
  ring

/-- A step coprime to the size visits every slot within one round. -/
theorem exists_position {m i : ℕ} (hm : 0 < m) (hi : Nat.Coprime i m) (n : ℕ) {t : ℕ}
    (ht : t < m) : ∃ j < m, position m n i j = t := by
  have : NeZero m := ⟨hm.ne'⟩
  have hu : (i : ZMod m) * (i : ZMod m)⁻¹ = 1 := ZMod.coe_mul_inv_eq_one i hi
  refine ⟨(((t : ZMod m) - n) * (i : ZMod m)⁻¹).val, ZMod.val_lt _, ?_⟩
  have h : ((n + (((t : ZMod m) - n) * (i : ZMod m)⁻¹).val * i : ℕ) : ZMod m) = (t : ℕ) := by
    push_cast
    rw [ZMod.natCast_val, ZMod.cast_id]
    calc (n : ZMod m) + (t - n) * (i : ZMod m)⁻¹ * i
        = n + (t - n) * (i * (i : ZMod m)⁻¹) := by ring
      _ = t := by rw [hu]; ring
  rw [position, (ZMod.natCast_eq_natCast_iff' _ _ _).mp h, Nat.mod_eq_of_lt ht]

/-- The entry in slot `n`, when there is one. -/
def slot (t : List (Option (K × V))) (n : ℕ) : Option (K × V) := t.getD n none

/-- The entries of a table, in slot order. -/
def entries (t : List (Option (K × V))) : List (K × V) := t.reduceOption

theorem mem_entries_iff {t : List (Option (K × V))} {e : K × V} :
    e ∈ entries t ↔ ∃ n < t.length, slot t n = some e := by
  rw [entries, List.reduceOption_mem_iff, List.mem_iff_getElem]
  constructor
  · rintro ⟨n, hn, h⟩
    exact ⟨n, hn, by rw [slot, List.getD_eq_getElem _ _ hn, h]⟩
  · rintro ⟨n, hn, h⟩
    exact ⟨n, hn, by rw [← h, slot, List.getD_eq_getElem _ _ hn]⟩

/-- Fewer entries than slots leave a slot empty. -/
theorem exists_slot_eq_none {t : List (Option (K × V))} (h : (entries t).length < t.length) :
    ∃ n < t.length, slot t n = none := by
  rw [entries, List.reduceOption_length_lt_iff, List.mem_iff_getElem] at h
  obtain ⟨n, hn, h⟩ := h
  exact ⟨n, hn, by rw [slot, List.getD_eq_getElem _ _ hn, h]⟩

theorem slot_set {t : List (Option (K × V))} {r : ℕ} (hr : r < t.length) (e : Option (K × V))
    (n : ℕ) : slot (t.set r e) n = if r = n then e else slot t n := by
  rw [slot, slot, List.getD_eq_getElem?_getD, List.getD_eq_getElem?_getD, List.getElem?_set]
  split
  next => rfl
  next => rfl

/-- Filling an empty slot adds one entry. -/
theorem entries_set_perm {t : List (Option (K × V))} {r : ℕ} (hr : r < t.length)
    (hnone : slot t r = none) (e : K × V) : (entries (t.set r (some e))).Perm (e :: entries t) := by
  induction t generalizing r with
  | nil => exact absurd hr (Nat.not_lt_zero r)
  | cons x t ih =>
    cases r with
    | zero =>
      obtain rfl : x = none := hnone
      exact List.Perm.refl _
    | succ r =>
      have h := ih (Nat.lt_of_succ_lt_succ hr) hnone
      rw [List.set_cons_succ]
      cases x with
      | none => exact h
      | some y => exact (h.cons y).trans (List.Perm.swap e y _)

variable {t : List (Option (K × V))} {start step : K → ℕ}

/-- Keys are distinct, and every entry is met by the probe for its key before
any empty slot. -/
structure Sound (t : List (Option (K × V))) (start step : K → ℕ) : Prop where
  nodup : ((entries t).map Prod.fst).Nodup
  reach : ∀ n < t.length, ∀ e, slot t n = some e →
    ∃ j, position t.length (start e.1) (step e.1) j = n ∧
      ∀ j' < j, slot t (position t.length (start e.1) (step e.1) j') ≠ none

/-- The empty table is sound. -/
theorem Sound.replicate (m : ℕ) : Sound (List.replicate m (none : Option (K × V))) start step where
  nodup := by
    rw [entries, List.reduceOption_replicate_none]
    exact List.nodup_nil
  reach := by
    intro n hn e he
    rw [slot, List.getD_eq_getElem _ _ hn, List.getElem_replicate] at he
    contradiction

/-- An entry is determined by its key. -/
theorem Sound.eq_of_key (h : Sound t start step) {e e' : K × V} (he : e ∈ entries t)
    (he' : e' ∈ entries t) (hk : e.1 = e'.1) : e = e' :=
  List.inj_on_of_nodup_map h.nodup he he' hk

section Probe

variable [DecidableEq K]

/-- A probe for `k` stops at an empty slot and at an entry of `k`. -/
def stops (t : List (Option (K × V))) (k : K) (n : ℕ) : Bool :=
  (slot t n).all fun e => e.1 = k

theorem stops_iff {t : List (Option (K × V))} {k : K} {n : ℕ} :
    stops t k n = true ↔ slot t n = none ∨ ∃ v, slot t n = some (k, v) := by
  rw [stops]
  cases slot t n with
  | none => simp
  | some e => simp [Prod.ext_iff, eq_comm]

/-- The slot at which a probe for `k` with step `i` stops, from slot `n` on;
`none` when `fuel` slots do not stop it. -/
def probe (t : List (Option (K × V))) (k : K) (i : ℕ) : ℕ → ℕ → Option ℕ
  | 0, _ => none
  | fuel + 1, n => if stops t k n then some n else probe t k i fuel ((n + i) % t.length)

/-- The probe stops at the first slot on its way that stops it. -/
theorem probe_eq_some_iff {t : List (Option (K × V))} {k : K} {i fuel n r : ℕ}
    (hn : n < t.length) :
    probe t k i fuel n = some r ↔ ∃ j < fuel, position t.length n i j = r ∧ stops t k r = true ∧
      ∀ j' < j, stops t k (position t.length n i j') = false := by
  have hm : 0 < t.length := by omega
  induction fuel generalizing n with
  | zero => simp [probe]
  | succ fuel ih =>
    rw [probe]
    by_cases hs : stops t k n = true
    · rw [if_pos hs]
      constructor
      · intro h
        obtain rfl := Option.some.inj h
        exact ⟨0, Nat.succ_pos _, position_zero hn i, hs, fun _ hj => absurd hj (Nat.not_lt_zero _)⟩
      · rintro ⟨j, -, rfl, -, hmin⟩
        rcases Nat.eq_zero_or_pos j with rfl | hj
        · rw [position_zero hn]
        · have h0 := hmin 0 hj
          rw [position_zero hn, hs] at h0
          exact Bool.noConfusion h0
    · have hnext : (n + i) % t.length < t.length := Nat.mod_lt _ hm
      rw [if_neg hs]
      refine (ih hnext).trans ?_
      constructor
      · rintro ⟨j, hj, hr, hsr, hmin⟩
        refine ⟨j + 1, Nat.succ_lt_succ hj, by rw [← hr, position_succ], hsr, ?_⟩
        intro j' hj'
        cases j' with
        | zero => rw [position_zero hn]; exact Bool.eq_false_iff.mpr hs
        | succ j' => rw [← position_succ]; exact hmin j' (Nat.lt_of_succ_lt_succ hj')
      · rintro ⟨j, hj, hr, hsr, hmin⟩
        cases j with
        | zero =>
          rw [position_zero hn] at hr
          subst hr
          exact absurd hsr hs
        | succ j =>
          refine ⟨j, Nat.lt_of_succ_lt_succ hj, by rw [← hr, position_succ], hsr, ?_⟩
          intro j' hj'
          rw [position_succ]
          exact hmin (j' + 1) (Nat.succ_lt_succ hj')

/-- A step coprime to the size finds a slot to stop at when there is one. -/
theorem exists_probe {t : List (Option (K × V))} {k : K} {i n : ℕ} (hn : n < t.length)
    (hi : Nat.Coprime i t.length) {f : ℕ} (hf : f < t.length) (hstop : stops t k f = true) :
    ∃ r, probe t k i t.length n = some r := by
  classical
  have hex : ∃ j, stops t k (position t.length n i j) = true := by
    obtain ⟨j, -, hj⟩ := exists_position (by omega) hi n hf
    exact ⟨j, by rw [hj]; exact hstop⟩
  obtain ⟨j, hj, hjf⟩ := exists_position (by omega) hi n hf
  have hfirst := Nat.find_spec hex
  have hle : Nat.find hex ≤ j := Nat.find_min' hex (by rw [hjf]; exact hstop)
  refine ⟨_, (probe_eq_some_iff hn).mpr ⟨Nat.find hex, by omega, rfl, hfirst, ?_⟩⟩
  intro j' hj'
  exact Bool.eq_false_iff.mpr (Nat.find_min hex hj')

/-- The probe for a stored key stops at its entry. -/
theorem Sound.probe_of_mem (h : Sound t start step) {k : K} {v : V} (hstart : start k < t.length)
    (hmem : (k, v) ∈ entries t) {r : ℕ} (hr : probe t k (step k) t.length (start k) = some r) :
    slot t r = some (k, v) := by
  obtain ⟨j, -, hj, hstop, hmin⟩ := (probe_eq_some_iff hstart).mp hr
  have hm : 0 < t.length := by omega
  rcases stops_iff.mp hstop with hnone | ⟨v', hv'⟩
  · -- an empty slot cannot come before the entry, nor the entry before it
    obtain ⟨n, hn, hslot⟩ := mem_entries_iff.mp hmem
    obtain ⟨i, hi, hbefore⟩ := h.reach n hn _ hslot
    rcases Nat.lt_trichotomy j i with hlt | heq | hgt
    · exact absurd (hj ▸ hnone) (hbefore j hlt)
    · rw [← hj, heq, hi] at hnone
      rw [hnone] at hslot
      contradiction
    · have hs := hmin i hgt
      rw [hi] at hs
      have hs' : stops t k n = true := stops_iff.mpr (Or.inr ⟨v, hslot⟩)
      rw [hs'] at hs
      exact Bool.noConfusion hs
  · have hmem' : (k, v') ∈ entries t :=
      mem_entries_iff.mpr ⟨r, hj ▸ position_lt hm _ _ _, hv'⟩
    rw [hv', h.eq_of_key hmem' hmem rfl]

/-- The probe for a key that is not stored stops at an empty slot. -/
theorem probe_of_not_mem {k : K} {i n : ℕ} (hn : n < t.length)
    (hmem : k ∉ (entries t).map Prod.fst) {r : ℕ} (hr : probe t k i t.length n = some r) :
    r < t.length ∧ slot t r = none := by
  obtain ⟨j, -, hj, hstop, -⟩ := (probe_eq_some_iff hn).mp hr
  have hrt : r < t.length := hj ▸ position_lt (by omega) _ _ _
  refine ⟨hrt, ?_⟩
  rcases stops_iff.mp hstop with hnone | ⟨v, hv⟩
  · exact hnone
  · exact absurd (List.mem_map_of_mem (mem_entries_iff.mpr ⟨r, hrt, hv⟩)) hmem

/-- Filling the slot found for a new key keeps the table sound. -/
theorem Sound.set (h : Sound t start step) {k : K} {v : V} (hstart : start k < t.length)
    (hmem : k ∉ (entries t).map Prod.fst) {r : ℕ}
    (hr : probe t k (step k) t.length (start k) = some r) :
    Sound (t.set r (some (k, v))) start step := by
  obtain ⟨hrt, hnone⟩ := probe_of_not_mem hstart hmem hr
  have hkeep : ∀ n, slot t n ≠ none → slot (t.set r (some (k, v))) n ≠ none := by
    intro n hn
    rw [slot_set hrt]
    split
    · exact Option.some_ne_none _
    · exact hn
  refine ⟨?_, ?_⟩
  · rw [((entries_set_perm hrt hnone (k, v)).map Prod.fst).nodup_iff, List.map_cons,
      List.nodup_cons]
    exact ⟨hmem, h.nodup⟩
  · intro n hn e he
    rw [List.length_set] at hn ⊢
    rw [slot_set hrt] at he
    split at he
    next hrn =>
      -- the new entry: no slot before it stopped the probe, so none was empty
      obtain rfl := Option.some.inj he
      obtain ⟨j, -, hj, -, hmin⟩ := (probe_eq_some_iff hstart).mp hr
      refine ⟨j, hj.trans hrn, fun j' hj' => hkeep _ ?_⟩
      intro hempty
      have hs := hmin j' hj'
      rw [stops_iff.mpr (Or.inl hempty)] at hs
      exact Bool.noConfusion hs
    next =>
      obtain ⟨j, hj, hbefore⟩ := h.reach n hn e he
      exact ⟨j, hj, fun j' hj' => hkeep _ (hbefore j' hj')⟩

end Probe

end OpenAddressing
