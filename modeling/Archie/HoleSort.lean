/-
Quicksort that partitions with a moving hole.

The first element of a stretch is the pivot, and its place the hole.  The last element that is
not greater than the pivot fills the hole and leaves one, which the first element that is greater
fills, and so on.  The scan from above has no test of its own that it does not leave the stretch.

* `partitionRound`, `partitionLoop`, `sort` — the algorithm; any access outside of the array, and
  any bound of a stretch outside of it, gives `none`.
* `Hole` — the invariant of the partition.
* `Hole.exists_round`, `Hole.exists_partition` — a round and the whole partition.
* `exists_sort` — the sort ends, inside the array, and sorts if the comparison orders.
-/
import Mathlib.Data.Int.Notation
import Mathlib.Data.List.Basic
import Mathlib.Data.List.Count

namespace HoleSort

variable {α : Type}

/-! ### The algorithm -/

/-- Writes to the array. -/
def write (l : List α) (i : ℕ) (x : α) : Option (List α) :=
  if i < l.length then some (l.set i x) else none

/-- An index as a bound of a stretch. -/
def bound (l : List α) (i : ℕ) : Option ℕ := if i < l.length then some i else none

section

variable (cmp : α → α → ℤ)

/-- The scan from above, for an element that is not greater than the pivot. -/
def scanDown (pivot : α) (l : List α) : ℕ → Option ℕ
  | 0 => do
    let x ← l[0]?
    if 0 < cmp x pivot then none else some 0
  | j + 1 => do
    let x ← l[j + 1]?
    if 0 < cmp x pivot then scanDown pivot l j else some (j + 1)

/-- The scan from below, for an element that is greater. -/
def scanUp (pivot : α) (l : List α) (j i : ℕ) : Option ℕ :=
  if i < j then do
    let x ← l[i]?
    if cmp x pivot ≤ 0 then scanUp pivot l j (i + 1) else some i
  else some i
termination_by j - i

/-- A scan from above and one from below. -/
def partitionRound (pivot : α) (l : List α) (i j : ℕ) : Option (List α × ℕ × ℕ) := do
  let j ← scanDown cmp pivot l j
  let x ← l[j]?
  let l ← write l i x
  let i ← scanUp cmp pivot l j i
  let y ← l[i]?
  let l ← write l j y
  some (l, i, j)

/-- The partition: the array with its hole. -/
def partitionLoop (pivot : α) : ℕ → List α → ℕ → ℕ → Option (List α × ℕ)
  | 0, _, _, _ => none
  | fuel + 1, l, i, j =>
    if i < j then do
      let (l, i, j) ← partitionRound cmp pivot l i j
      partitionLoop pivot fuel l i j
    else some (l, i)

/-- The sort of the stretch from `lo` to `up`: the smaller part recursively, then the other. -/
def sort : ℕ → List α → ℕ → ℕ → Option (List α)
  | 0, _, _, _ => none
  | fuel + 1, l, lo, up =>
    if lo < up then do
      let pivot ← l[lo]?
      let (l, i) ← partitionLoop cmp pivot (fuel + 1) l lo up
      let l ← write l i pivot
      -- `i` is between `lo` and `up`, so that the differences of the `size_t`s are these.
      if i - lo < up - i then
        let l ← (if lo + 1 < i then sort fuel l lo (i - 1) else some l)
        let lo ← bound l (i + 1)
        sort fuel l lo up
      else
        let l ← (if i + 1 < up then sort fuel l (i + 1) up else some l)
        let up ← (if i = 0 then none else bound l (i - 1))
        sort fuel l lo up
    else some l

end

/-! ### Scans -/

variable {cmp : α → α → ℤ} {pivot : α}

/-- The scan from above is stopped by any element that is not greater. -/
theorem exists_scanDown {l : List α} {j k : ℕ} (hj : j < l.length) (hk : k ≤ j)
    (hstop : ∀ x, l[k]? = some x → cmp x pivot ≤ 0) :
    ∃ j', scanDown cmp pivot l j = some j' ∧ k ≤ j' ∧ j' ≤ j ∧
      (∀ x, l[j']? = some x → cmp x pivot ≤ 0) ∧
      ∀ m x, j' < m → m ≤ j → l[m]? = some x → 0 < cmp x pivot := by
  induction j with
  | zero =>
    obtain rfl : k = 0 := by omega
    have hx := List.getElem?_eq_getElem hj
    refine ⟨0, ?_, Nat.le_refl 0, Nat.le_refl 0, hstop, fun m x hm hm' => by omega⟩
    rw [scanDown, hx]
    exact if_neg (Int.not_lt.mpr (hstop _ hx))
  | succ j ih =>
    have hx := List.getElem?_eq_getElem hj
    by_cases hgt : 0 < cmp l[j + 1] pivot
    · have hkj : k ≤ j := by
        rcases Nat.lt_or_ge j k with h | h
        · obtain rfl : k = j + 1 := by omega
          exact absurd hgt (Int.not_lt.mpr (hstop _ hx))
        · exact h
      obtain ⟨j', hj', hkj', hle, hstop', hafter⟩ := ih (by omega) hkj
      refine ⟨j', ?_, hkj', by omega, hstop', ?_⟩
      · rw [scanDown, hx, ← hj']
        exact if_pos hgt
      · intro m x hm hm' hmx
        rcases Nat.lt_or_ge j m with h | h
        · obtain rfl : m = j + 1 := by omega
          obtain rfl := Option.some.inj (hx.symm.trans hmx)
          exact hgt
        · exact hafter m x hm h hmx
    · refine ⟨j + 1, ?_, hk, Nat.le_refl _, ?_, fun m x hm hm' => by omega⟩
      · rw [scanDown, hx]
        exact if_neg hgt
      · intro x hx'
        obtain rfl := Option.some.inj (hx.symm.trans hx')
        exact Int.not_lt.mp hgt

/-- The scan from below. -/
theorem exists_scanUp {l : List α} {j : ℕ} (hj : j < l.length) (i : ℕ) :
    ∃ i', scanUp cmp pivot l j i = some i' ∧ i ≤ i' ∧ (i' = i ∨ i' ≤ j) ∧
      (∀ m x, i ≤ m → m < i' → l[m]? = some x → cmp x pivot ≤ 0) ∧
      (i' < j → ∀ x, l[i']? = some x → 0 < cmp x pivot) := by
  induction hd : j - i generalizing i with
  | zero =>
    refine ⟨i, ?_, Nat.le_refl i, Or.inl rfl, fun m x hm hm' => by omega, fun h => by omega⟩
    rw [scanUp, if_neg (by omega)]
  | succ d ih =>
    have hx := List.getElem?_eq_getElem (show i < l.length by omega)
    by_cases hle : cmp l[i] pivot ≤ 0
    · obtain ⟨i', hi', hii', hij', hall, hstop⟩ := ih (i + 1) (by omega)
      refine ⟨i', ?_, by omega, Or.inr (by omega), ?_, hstop⟩
      · rw [scanUp, if_pos (by omega), hx, ← hi']
        exact if_pos hle
      · intro m x hm hm' hmx
        rcases Nat.eq_or_lt_of_le hm with rfl | h
        · obtain rfl := Option.some.inj (hx.symm.trans hmx)
          exact hle
        · exact hall m x h hm' hmx
    · refine ⟨i, ?_, Nat.le_refl i, Or.inl rfl, fun m x hm hm' => by omega, ?_⟩
      · rw [scanUp, if_pos (by omega), hx]
        exact if_neg hle
      · intro _ x hx'
        obtain rfl := Option.some.inj (hx.symm.trans hx')
        exact Int.not_le.mp hle

/-! ### The partition -/

/-- Moving an element into the hole moves the hole. -/
theorem set_hole_perm {l : List α} {a b : ℕ} {x : α} (ha : a < l.length) (hx : l[b]? = some x)
    (p : α) : ((l.set a x).set b p).Perm (l.set a p) := by
  obtain ⟨hb, rfl⟩ := List.getElem?_eq_some_iff.mp hx
  rcases eq_or_ne a b with rfl | hab
  · rw [List.set_set]
  · have hswap := @List.set_set_perm α (l.set a p) a b
      (by rwa [List.length_set]) (by rwa [List.length_set])
    rwa [List.getElem_set_ne hab, List.getElem_set_self, List.set_set] at hswap

/-- The array during the partition of the stretch from `lo` to `up` of `l₀`: with the pivot in the
hole `i`, it has the elements of `l₀`; those before `i` are not greater than the pivot, those
after `j` are. -/
structure Hole (cmp : α → α → ℤ) (pivot : α) (l₀ : List α) (lo up : ℕ) (l : List α) (i j : ℕ) :
    Prop where
  length : l.length = l₀.length
  up_lt : up < l₀.length
  perm : (l.set i pivot).Perm l₀
  same : ∀ k, k < lo ∨ up < k → l[k]? = l₀[k]?
  lo_le : lo ≤ i
  le_up : i ≤ up
  le_succ : i ≤ j + 1
  le_up' : j ≤ up
  left : ∀ k x, lo ≤ k → k < i → l[k]? = some x → cmp x pivot ≤ 0
  right : ∀ k x, j < k → k ≤ up → k ≠ i → l[k]? = some x → 0 < cmp x pivot
  first : i = lo → ∀ x, l[i]? = some x → cmp x pivot ≤ 0

section Hole

variable {l₀ l : List α} {lo up i j : ℕ}

/-- At the start the pivot itself is in the hole. -/
theorem Hole.start (hlt : lo < up) (hup : up < l₀.length) (hpivot : l₀[lo]? = some pivot)
    (hrefl : cmp pivot pivot ≤ 0) : Hole cmp pivot l₀ lo up l₀ lo up where
  length := rfl
  up_lt := hup
  perm := by
    obtain ⟨hlo, rfl⟩ := List.getElem?_eq_some_iff.mp hpivot
    rw [List.set_getElem_self]
  same := fun _ _ => rfl
  lo_le := Nat.le_refl lo
  le_up := Nat.le_of_lt hlt
  le_succ := by omega
  le_up' := Nat.le_refl up
  left := fun k x hk hk' => by omega
  right := fun k x hk hk' => by omega
  first := by
    intro _ x hx
    obtain rfl := Option.some.inj (hpivot.symm.trans hx)
    exact hrefl

/-- **A round** keeps the invariant, and the scans come closer. -/
theorem Hole.exists_round (h : Hole cmp pivot l₀ lo up l i j) (hij : i < j) :
    ∃ l' i' j', partitionRound cmp pivot l i j = some (l', i', j') ∧
      Hole cmp pivot l₀ lo up l' i' j' ∧ (i' < j' → j' - i' < j - i) := by
  have hlen := h.length
  have hup := h.up_lt
  have hju := h.le_up'
  have hlo := h.lo_le
  have hjlen : j < l.length := by omega
  -- The scan from above ends at the hole, while that is the first place, or just before it.
  obtain ⟨k, hik, hkj, hlok, hstop⟩ : ∃ k, (i ≤ k ∨ i = k + 1) ∧ k ≤ j ∧ lo ≤ k ∧
      ∀ x, l[k]? = some x → cmp x pivot ≤ 0 := by
    rcases Nat.eq_or_lt_of_le hlo with heq | hlt
    · exact ⟨i, Or.inl (Nat.le_refl i), Nat.le_of_lt hij, hlo, h.first heq.symm⟩
    · exact ⟨i - 1, Or.inr (by omega), by omega, by omega, fun x hx =>
        h.left (i - 1) x (by omega) (by omega) hx⟩
  obtain ⟨j', hdown, hkj', hj'j, hstop', hafter⟩ := exists_scanDown hjlen hkj hstop
  obtain ⟨x, hx⟩ : ∃ x, l[j']? = some x :=
    ⟨_, List.getElem?_eq_getElem (show j' < l.length by omega)⟩
  have hxle := hstop' _ hx
  obtain ⟨l₁, hl₁⟩ : ∃ l₁, l₁ = l.set i x := ⟨_, rfl⟩
  have hwrite : write l i x = some l₁ := by rw [write, if_pos (by omega), hl₁]
  have hlen₁ : l₁.length = l.length := by rw [hl₁, List.length_set]
  have hi₁ : l₁[i]? = some x := by rw [hl₁, List.getElem?_set_self (by omega)]
  have hne₁ : ∀ k, k ≠ i → l₁[k]? = l[k]? := fun k hk => by
    rw [hl₁, List.getElem?_set_ne (Ne.symm hk)]
  obtain ⟨i', hupscan, hii', hi'j', hleft, hgreater⟩ :=
    @exists_scanUp α cmp pivot l₁ j' (by omega) i
  have hi'up : i' ≤ up := by
    have := h.le_up
    omega
  obtain ⟨y, hy⟩ : ∃ y, l₁[i']? = some y :=
    ⟨_, List.getElem?_eq_getElem (show i' < l₁.length by omega)⟩
  obtain ⟨l₂, hl₂⟩ : ∃ l₂, l₂ = l₁.set j' y := ⟨_, rfl⟩
  have hwrite₂ : write l₁ j' y = some l₂ := by rw [write, if_pos (by omega), hl₂]
  have hne₂ : ∀ k, k ≠ j' → l₂[k]? = l₁[k]? := fun k hk => by
    rw [hl₂, List.getElem?_set_ne (Ne.symm hk)]
  -- All places before the new hole hold elements that are not greater.
  have hall : ∀ k x, lo ≤ k → k < i' → l₁[k]? = some x → cmp x pivot ≤ 0 := by
    intro k x hk hk' hkx
    rcases Nat.lt_or_ge k i with hki | hki
    · exact h.left k x hk hki (hne₁ k (Nat.ne_of_lt hki) ▸ hkx)
    · exact hleft k x hki hk' hkx
  have hsame : ∀ k, k < i' → l₂[k]? = l₁[k]? := by
    intro k hk
    rcases eq_or_ne k j' with rfl | hkj
    · -- The scan from above has come to the place before the hole.
      obtain ⟨rfl, rfl⟩ : i' = i ∧ i = k + 1 := by omega
      obtain rfl : y = x := Option.some.inj (hy.symm.trans hi₁)
      rw [hl₂, List.getElem?_set_self (by omega), ← hx, hne₁ k (Nat.ne_of_lt hk)]
    · exact hne₂ k hkj
  refine ⟨l₂, i', j', ?_, ?_, ?_⟩
  · rw [partitionRound, hdown]
    show (l[j']?.bind _) = _
    rw [hx]
    show ((write l i x).bind _) = _
    rw [hwrite]
    show ((scanUp cmp pivot l₁ j' i).bind _) = _
    rw [hupscan]
    show (l₁[i']?.bind _) = _
    rw [hy]
    show ((write l₁ j' y).bind _) = _
    rw [hwrite₂]
    rfl
  · exact {
      length := by rw [hl₂, List.length_set, hlen₁, hlen]
      up_lt := hup
      perm := by
        have hmove := set_hole_perm (show j' < l₁.length by omega) hy pivot
        rw [← hl₂, hl₁] at hmove
        exact hmove.trans ((set_hole_perm (by omega) hx pivot).trans h.perm)
      same := by
        intro k hk
        rw [hne₂ k (by omega), hne₁ k (by have := h.le_up; omega), h.same k hk]
      lo_le := by omega
      le_up := hi'up
      le_succ := by omega
      le_up' := by omega
      left := fun k x hk hk' hkx => hall k x hk hk' (hsame k hk' ▸ hkx)
      right := by
        intro k x hk hk' hki' hkx
        rw [hne₂ k (by omega)] at hkx
        have hki : k ≠ i := by omega
        rw [hne₁ k hki] at hkx
        rcases Nat.lt_or_ge j k with hjk | hjk
        · exact h.right k x hjk hk' hki hkx
        · exact hafter k x hk hjk hkx
      first := by
        intro hfirst z hiz
        obtain rfl : i' = i := by omega
        have hat : l₂[i']? = some x := by
          rcases eq_or_ne i' j' with heq | hne
          · rw [hl₂, ← heq, List.getElem?_set_self (by omega), ← hy, hi₁]
          · rw [hne₂ i' hne, hi₁]
        obtain rfl := Option.some.inj (hat.symm.trans hiz)
        exact hxle }
  · intro hlt
    have hmove : i' ≠ i := by
      rintro rfl
      exact absurd (hgreater hlt _ hi₁) (Int.not_lt.mpr hxle)
    omega

/-- **The partition** ends, with the scans at the place of the pivot. -/
theorem Hole.exists_partition {fuel : ℕ} (h : Hole cmp pivot l₀ lo up l i j)
    (hfuel : j - i < fuel) :
    ∃ l' i' j', partitionLoop cmp pivot fuel l i j = some (l', i') ∧
      Hole cmp pivot l₀ lo up l' i' j' ∧ j' ≤ i' := by
  induction fuel generalizing l i j with
  | zero => exact absurd hfuel (Nat.not_lt_zero _)
  | succ fuel ih =>
    rw [partitionLoop]
    by_cases hij : i < j
    · obtain ⟨l', i', j', hround, h', hcloser⟩ := h.exists_round hij
      rw [if_pos hij, hround]
      show ∃ l'' i'' j'', partitionLoop cmp pivot fuel l' i' j' = some (l'', i'') ∧ _
      rcases Nat.lt_or_ge i' j' with hlt | hge
      · exact ih h' (by have := hcloser hlt; omega)
      · exact ih h' (by omega)
    · rw [if_neg hij]
      exact ⟨l, i, j, rfl, h, Nat.not_lt.mp hij⟩

end Hole

/-! ### Stretches -/

/-- `l'` is `l` with the stretch from `lo` on and before `hi` rearranged. -/
structure Rearranged (l l' : List α) (lo hi : ℕ) : Prop where
  perm : l'.Perm l
  same : ∀ k, k < lo ∨ hi ≤ k → l'[k]? = l[k]?

/-- The stretch from `lo` on and before `hi` is sorted. -/
def SortedOn (cmp : α → α → ℤ) (l : List α) (lo hi : ℕ) : Prop :=
  ∀ k k' x y, lo ≤ k → k < k' → k' < hi → l[k]? = some x → l[k']? = some y → cmp x y ≤ 0

/-- The comparison orders the elements of the array. -/
structure Orders (cmp : α → α → ℤ) (l : List α) : Prop where
  swap : ∀ a ∈ l, ∀ b ∈ l, 0 < cmp a b → cmp b a ≤ 0
  trans : ∀ a ∈ l, ∀ b ∈ l, ∀ c ∈ l, cmp a b ≤ 0 → cmp b c ≤ 0 → cmp a c ≤ 0

theorem Orders.of_perm {l l' : List α} (h : Orders cmp l) (hp : l'.Perm l) : Orders cmp l' where
  swap := fun a ha b hb => h.swap a (hp.mem_iff.mp ha) b (hp.mem_iff.mp hb)
  trans := fun a ha b hb c hc =>
    h.trans a (hp.mem_iff.mp ha) b (hp.mem_iff.mp hb) c (hp.mem_iff.mp hc)

theorem Rearranged.refl (l : List α) (lo hi : ℕ) : Rearranged l l lo hi :=
  ⟨List.Perm.refl l, fun _ _ => rfl⟩

theorem Rearranged.trans {l l' l'' : List α} {lo hi lo' hi' a b : ℕ} (h : Rearranged l l' lo hi)
    (h' : Rearranged l' l'' lo' hi') (ha : a ≤ lo ∧ a ≤ lo') (hb : hi ≤ b ∧ hi' ≤ b) :
    Rearranged l l'' a b where
  perm := h'.perm.trans h.perm
  same := fun k hk => (h'.same k (by omega)).trans (h.same k (by omega))

/-- The stretch has the same elements as before. -/
theorem Rearranged.stretch_perm {l l' : List α} {lo hi : ℕ} (h : Rearranged l l' lo hi) :
    ((l'.drop lo).take (hi - lo)).Perm ((l.drop lo).take (hi - lo)) := by
  rcases Nat.le_total hi lo with hle | hle
  · rw [Nat.sub_eq_zero_of_le hle]
    exact List.Perm.refl _
  · have hfront : l'.take lo = l.take lo := by
      refine List.ext_getElem? fun k => ?_
      rw [List.getElem?_take, List.getElem?_take]
      split
      next hk => exact h.same k (Or.inl hk)
      next => rfl
    have hback : (l'.drop lo).drop (hi - lo) = (l.drop lo).drop (hi - lo) := by
      refine List.ext_getElem? fun k => ?_
      rw [List.drop_drop, List.drop_drop, List.getElem?_drop, List.getElem?_drop]
      exact h.same _ (Or.inr (by omega))
    have hperm := h.perm
    rw [← List.take_append_drop lo l', ← List.take_append_drop lo l, hfront,
      List.perm_append_left_iff, ← List.take_append_drop (hi - lo) (l'.drop lo),
      ← List.take_append_drop (hi - lo) (l.drop lo), hback, List.perm_append_right_iff] at hperm
    exact hperm

theorem mem_stretch_iff {l : List α} {lo hi : ℕ} {x : α} :
    x ∈ (l.drop lo).take (hi - lo) ↔ ∃ k, lo ≤ k ∧ k < hi ∧ l[k]? = some x := by
  rw [List.mem_iff_getElem?]
  constructor
  · rintro ⟨i, hi⟩
    rw [List.getElem?_take] at hi
    split at hi
    next hlt =>
      rw [List.getElem?_drop] at hi
      exact ⟨lo + i, by omega, by omega, hi⟩
    next => cases hi
  · rintro ⟨k, hk, hk', hx⟩
    refine ⟨k - lo, ?_⟩
    rw [List.getElem?_take, if_pos (by omega), List.getElem?_drop, show lo + (k - lo) = k by omega]
    exact hx

/-- What holds of the elements of the stretch still holds. -/
theorem Rearranged.forall {l l' : List α} {lo hi : ℕ} (h : Rearranged l l' lo hi) {p : α → Prop}
    (hall : ∀ k x, lo ≤ k → k < hi → l[k]? = some x → p x) :
    ∀ k x, lo ≤ k → k < hi → l'[k]? = some x → p x := by
  intro k x hk hk' hx
  have hmem := h.stretch_perm.mem_iff.mp (mem_stretch_iff.mpr ⟨k, hk, hk', hx⟩)
  obtain ⟨m, hm, hm', hmx⟩ := mem_stretch_iff.mp hmem
  exact hall m x hm hm' hmx

/-- The pivot is at `i`, with what is not greater before it and what is greater after it. -/
structure Partitioned (cmp : α → α → ℤ) (pivot : α) (l : List α) (lo i hi : ℕ) : Prop where
  at_pivot : l[i]? = some pivot
  left : ∀ k x, lo ≤ k → k < i → l[k]? = some x → cmp x pivot ≤ 0
  right : ∀ k x, i + 1 ≤ k → k < hi → l[k]? = some x → 0 < cmp x pivot

section Partitioned

variable {l l' : List α} {lo i hi : ℕ}

theorem Partitioned.rearrange_left (h : Partitioned cmp pivot l lo i hi)
    (hr : Rearranged l l' lo i) : Partitioned cmp pivot l' lo i hi where
  at_pivot := (hr.same i (Or.inr (Nat.le_refl i))).trans h.at_pivot
  left := hr.forall h.left
  right := fun k x hk hk' hx => h.right k x hk hk' (hr.same k (Or.inr (by omega)) ▸ hx)

theorem Partitioned.rearrange_right (h : Partitioned cmp pivot l lo i hi)
    (hr : Rearranged l l' (i + 1) hi) : Partitioned cmp pivot l' lo i hi where
  at_pivot := (hr.same i (Or.inl (Nat.lt_succ_self i))).trans h.at_pivot
  left := fun k x hk hk' hx => h.left k x hk hk' (hr.same k (Or.inl (by omega)) ▸ hx)
  right := hr.forall h.right

/-- When both parts are sorted, the whole stretch is. -/
theorem Partitioned.sortedOn (h : Partitioned cmp pivot l lo i hi) (ho : Orders cmp l)
    (hl : SortedOn cmp l lo i) (hr : SortedOn cmp l (i + 1) hi) : SortedOn cmp l lo hi := by
  intro k k' x y hk hkk' hk' hx hy
  have hxm := List.mem_of_getElem? hx
  have hym := List.mem_of_getElem? hy
  have hpm := List.mem_of_getElem? h.at_pivot
  rcases Nat.lt_trichotomy k' i with hlt | rfl | hgt
  · exact hl k k' x y hk hkk' hlt hx hy
  · obtain rfl := Option.some.inj (h.at_pivot.symm.trans hy)
    exact h.left k x hk hkk' hx
  · have hpy := ho.swap y hym pivot hpm (h.right k' y hgt hk' hy)
    rcases Nat.lt_trichotomy k i with hlt | rfl | hgt'
    · exact ho.trans x hxm pivot hpm y hym (h.left k x hk hlt hx) hpy
    · obtain rfl := Option.some.inj (h.at_pivot.symm.trans hx)
      exact hpy
    · exact hr k k' x y hgt' hkk' hk' hx hy

end Partitioned

theorem SortedOn.of_same {l l' : List α} {lo hi : ℕ} (h : SortedOn cmp l lo hi)
    (hsame : ∀ k, lo ≤ k → k < hi → l'[k]? = l[k]?) : SortedOn cmp l' lo hi := by
  intro k k' x y hk hkk' hk' hx hy
  rw [hsame k hk (by omega)] at hx
  rw [hsame k' (by omega) hk'] at hy
  exact h k k' x y hk hkk' hk' hx hy

theorem sortedOn_short {l : List α} {lo hi : ℕ} (h : hi ≤ lo + 1) : SortedOn cmp l lo hi :=
  fun k k' x y hk hkk' hk' => by omega

/-! ### The sort -/

/-- **The sort of a stretch** ends, stays inside the array, and rearranges the stretch; it sorts
it, if the comparison orders the elements. -/
theorem exists_sort {fuel : ℕ} {l : List α} {lo up : ℕ} (hrefl : ∀ a ∈ l, cmp a a ≤ 0)
    (hup : up < l.length) (hfuel : up - lo < fuel) :
    ∃ l', sort cmp fuel l lo up = some l' ∧ Rearranged l l' lo (up + 1) ∧
      (Orders cmp l → SortedOn cmp l' lo (up + 1)) := by
  induction fuel generalizing l lo up with
  | zero => exact absurd hfuel (Nat.not_lt_zero _)
  | succ fuel ih =>
    rw [sort]
    by_cases hlt : lo < up
    · obtain ⟨pivot, hpivot⟩ : ∃ p, l[lo]? = some p :=
        ⟨_, List.getElem?_eq_getElem (show lo < l.length by omega)⟩
      have hstart : Hole cmp pivot l lo up l lo up :=
        .start hlt hup hpivot (hrefl pivot (List.mem_of_getElem? hpivot))
      obtain ⟨l₁, i, j, hloop, hhole, hji⟩ := hstart.exists_partition hfuel
      have hlen₁ := hhole.length
      have hlo := hhole.lo_le
      have hiup := hhole.le_up
      obtain ⟨l₂, hl₂⟩ : ∃ l₂, l₂ = l₁.set i pivot := ⟨_, rfl⟩
      have hwrite : write l₁ i pivot = some l₂ := by rw [write, if_pos (by omega), hl₂]
      have hne : ∀ k, k ≠ i → l₂[k]? = l₁[k]? := fun k hk => by
        rw [hl₂, List.getElem?_set_ne (Ne.symm hk)]
      have hre : Rearranged l l₂ lo (up + 1) :=
        ⟨hl₂ ▸ hhole.perm, fun k hk => (hne k (by omega)).trans (hhole.same k (by omega))⟩
      have hpart : Partitioned cmp pivot l₂ lo i (up + 1) := {
        at_pivot := by rw [hl₂, List.getElem?_set_self (by omega)]
        left := fun k x hk hk' hx => hhole.left k x hk hk' (hne k (by omega) ▸ hx)
        right := fun k x hk hk' hx =>
          hhole.right k x (by omega) (by omega) (by omega) (hne k (by omega) ▸ hx) }
      have hrefl₂ : ∀ a ∈ l₂, cmp a a ≤ 0 := fun a ha => hrefl a (hre.perm.mem_iff.mp ha)
      have hlen₂ := hre.perm.length_eq
      rw [if_pos hlt, hpivot]
      show ∃ l', ((partitionLoop cmp pivot (fuel + 1) l lo up).bind _) = some l' ∧ _
      rw [hloop]
      show ∃ l', ((write l₁ i pivot).bind _) = some l' ∧ _
      rw [hwrite]
      by_cases hside : i - lo < up - i
      · -- The part before the pivot is sorted first.
        obtain ⟨l₃, hl₃, hre₃, hsorted₃⟩ : ∃ l₃,
            (if lo + 1 < i then sort cmp fuel l₂ lo (i - 1) else some l₂) = some l₃ ∧
            Rearranged l₂ l₃ lo i ∧ (Orders cmp l₂ → SortedOn cmp l₃ lo i) := by
          by_cases hmore : lo + 1 < i
          · have hsub := ih hrefl₂ (show i - 1 < l₂.length by omega)
              (show i - 1 - lo < fuel by omega)
            rw [Nat.sub_add_cancel (show 1 ≤ i by omega)] at hsub
            rw [if_pos hmore]
            exact hsub
          · rw [if_neg hmore]
            exact ⟨l₂, rfl, .refl l₂ lo i, fun _ => sortedOn_short (by omega)⟩
        have hlen₃ := hre₃.perm.length_eq
        have hbound : bound l₃ (i + 1) = some (i + 1) := by rw [bound, if_pos (by omega)]
        obtain ⟨l₄, hl₄, hre₄, hsorted₄⟩ :=
          ih (fun a ha => hrefl₂ a (hre₃.perm.mem_iff.mp ha)) (show up < l₃.length by omega)
            (show up - (i + 1) < fuel by omega)
        refine ⟨l₄, ?_, hre.trans (hre₃.trans hre₄ ⟨Nat.le_refl lo, by omega⟩
          ⟨by omega, Nat.le_refl (up + 1)⟩) ⟨Nat.le_refl lo, Nat.le_refl lo⟩
          ⟨Nat.le_refl _, Nat.le_refl _⟩, ?_⟩
        · show (if i - lo < up - i then _ else _) = _
          rw [if_pos hside, hl₃]
          show ((bound l₃ (i + 1)).bind _) = _
          rw [hbound]
          exact hl₄
        · intro ho
          have ho₂ := ho.of_perm hre.perm
          have ho₃ := ho₂.of_perm hre₃.perm
          exact ((hpart.rearrange_left hre₃).rearrange_right hre₄).sortedOn
            (ho₃.of_perm hre₄.perm)
            ((hsorted₃ ho₂).of_same fun k _ hk => hre₄.same k (Or.inl (by omega))) (hsorted₄ ho₃)
      · -- The part after the pivot is sorted first.
        obtain ⟨l₃, hl₃, hre₃, hsorted₃⟩ : ∃ l₃,
            (if i + 1 < up then sort cmp fuel l₂ (i + 1) up else some l₂) = some l₃ ∧
            Rearranged l₂ l₃ (i + 1) (up + 1) ∧
            (Orders cmp l₂ → SortedOn cmp l₃ (i + 1) (up + 1)) := by
          by_cases hmore : i + 1 < up
          · rw [if_pos hmore]
            exact ih hrefl₂ (show up < l₂.length by omega) (show up - (i + 1) < fuel by omega)
          · rw [if_neg hmore]
            exact ⟨l₂, rfl, .refl l₂ _ _, fun _ => sortedOn_short (by omega)⟩
        have hlen₃ := hre₃.perm.length_eq
        have hbound : (if i = 0 then none else bound l₃ (i - 1)) = some (i - 1) := by
          rw [if_neg (by omega), bound, if_pos (by omega)]
        obtain ⟨l₄, hl₄, hre₄, hsorted₄⟩ :=
          ih (fun a ha => hrefl₂ a (hre₃.perm.mem_iff.mp ha)) (show i - 1 < l₃.length by omega)
            (show i - 1 - lo < fuel by omega)
        rw [Nat.sub_add_cancel (show 1 ≤ i by omega)] at hre₄ hsorted₄
        refine ⟨l₄, ?_, hre.trans (hre₃.trans hre₄ ⟨by omega, Nat.le_refl lo⟩
          ⟨Nat.le_refl (up + 1), by omega⟩) ⟨Nat.le_refl lo, Nat.le_refl lo⟩
          ⟨Nat.le_refl _, Nat.le_refl _⟩, ?_⟩
        · show (if i - lo < up - i then _ else _) = _
          rw [if_neg hside, hl₃]
          show ((if i = 0 then none else bound l₃ (i - 1)).bind _) = _
          rw [hbound]
          exact hl₄
        · intro ho
          have ho₂ := ho.of_perm hre.perm
          have ho₃ := ho₂.of_perm hre₃.perm
          exact ((hpart.rearrange_right hre₃).rearrange_left hre₄).sortedOn
            (ho₃.of_perm hre₄.perm) (hsorted₄ ho₃)
            ((hsorted₃ ho₂).of_same fun k hk _ => hre₄.same k (Or.inr (by omega)))
    · rw [if_neg hlt]
      exact ⟨l, rfl, .refl l lo (up + 1), fun _ => sortedOn_short (by omega)⟩

end HoleSort
