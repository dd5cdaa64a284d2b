/-
Sorting an array with `qsort` and removing its repetitions in place
(`unique` of `anonftp/update/insert_anonftp.c` and of `archsearch/boolean-ops.c`).

* `qsort_eq` — on keys that the comparison orders like a linear order, `qsort`
  gives the sorted list.
* `uniqueLoop_spec` — on a sorted array the loop keeps the first of each run of
  equal elements.
* `mem_squeeze`, `pairwise_squeeze` — what is kept has the same elements, each
  once.
* `uniqueKept_of_pairwise` — an array without repetitions is left as it is.
* `nodup_destutter_ne_iff`, `filter_qsort` — runs of equal elements, and how `qsort` makes them.
-/
import Mathlib.Data.List.Destutter
import Mathlib.Data.List.Sort
import Archie.CInt

namespace Archie

variable {α : Type}

/-! ### `qsort` -/

/-- `qsort` with the comparison function `cmp`.  The order of elements that
compare equal is that of the array; the comparisons of the sources whose result
depends on it say so. -/
def qsort (cmp : α → α → ℤ) (l : List α) : List α :=
  l.insertionSort fun a b => cmp a b ≤ 0

theorem perm_qsort (cmp : α → α → ℤ) (l : List α) : (qsort cmp l).Perm l :=
  List.perm_insertionSort _ l

@[simp] theorem mem_qsort {cmp : α → α → ℤ} {l : List α} {a : α} : a ∈ qsort cmp l ↔ a ∈ l :=
  (perm_qsort cmp l).mem_iff

@[simp] theorem length_qsort (cmp : α → α → ℤ) (l : List α) : (qsort cmp l).length = l.length :=
  (perm_qsort cmp l).length_eq

@[simp] theorem qsort_eq_nil {cmp : α → α → ℤ} {l : List α} : qsort cmp l = [] ↔ l = [] := by
  rw [← List.length_eq_zero_iff, length_qsort, List.length_eq_zero_iff]

theorem orderedInsert_congr (r s : α → α → Prop) [DecidableRel r] [DecidableRel s] (a : α) :
    ∀ l : List α, (∀ b ∈ l, r a b ↔ s a b) → l.orderedInsert r a = l.orderedInsert s a
  | [], _ => rfl
  | b :: l, h => by
    have hb : r a b ↔ s a b := h b (by simp)
    have ih := orderedInsert_congr r s a l fun c hc => h c (by simp [hc])
    simp only [List.orderedInsert, hb, ih]

theorem insertionSort_congr (r s : α → α → Prop) [DecidableRel r] [DecidableRel s] :
    ∀ l : List α, (∀ a ∈ l, ∀ b ∈ l, r a b ↔ s a b) → l.insertionSort r = l.insertionSort s
  | [], _ => rfl
  | a :: l, h => by
    have ih := insertionSort_congr r s l fun b hb c hc => h b (by simp [hb]) c (by simp [hc])
    simp only [List.insertionSort_cons, ih]
    exact orderedInsert_congr r s a _ fun b hb =>
      h a (by simp) b (by simp [(List.mem_insertionSort s).mp hb])

/-- A comparison that agrees with a linear order on the keys of the elements
sorts by these keys. -/
theorem qsort_eq {κ : Type} [LinearOrder κ] (key : α → κ) {cmp : α → α → ℤ} {l : List α}
    (h : ∀ a ∈ l, ∀ b ∈ l, cmp a b ≤ 0 ↔ key a ≤ key b) :
    qsort cmp l = l.insertionSort fun a b => key a ≤ key b :=
  insertionSort_congr _ _ l h

theorem pairwise_qsort {κ : Type} [LinearOrder κ] (key : α → κ) {cmp : α → α → ℤ} {l : List α}
    (h : ∀ a ∈ l, ∀ b ∈ l, cmp a b ≤ 0 ↔ key a ≤ key b) :
    (qsort cmp l).Pairwise fun a b => key a ≤ key b := by
  rw [qsort_eq key h]
  have : Std.Total fun a b : α => key a ≤ key b := ⟨fun a b => le_total (key a) (key b)⟩
  have : IsTrans α fun a b : α => key a ≤ key b := ⟨fun _ _ _ => le_trans⟩
  exact List.pairwise_insertionSort _ l

/-! ### `unique` -/

/-- The loop of `unique` over an array of `sz` elements, of which the first
`bef + 1` are kept and those from `aft` on are still to be read.  Each round
reads an element or, where a run has ended (`rep`), moves the next one down. -/
def uniqueLoop (same less : α → α → Bool) (sz : ℕ) :
    ℕ → List α → ℕ → ℕ → Bool → List α × ℕ
  | 0, list, bef, _, _ => (list, bef)
  | fuel + 1, list, bef, aft, rep =>
    if aft < sz then
      match list[bef]?, list[aft]? with
      | some b, some a =>
        if same b a then uniqueLoop same less sz fuel list bef (aft + 1) true
        else if less b a && rep then
          uniqueLoop same less sz fuel (list.set (bef + 1) a) (bef + 1) aft false
        else uniqueLoop same less sz fuel list (bef + 1) (aft + 1) rep
      | _, _ => (list, bef)
    else (list, bef)

/-- The elements that `unique` leaves, for a size that is not 0. -/
def uniqueKept (same less : α → α → Bool) (list : List α) : List α :=
  let r := uniqueLoop same less list.length (2 * list.length) list 0 1 false
  r.1.take (r.2 + 1)

/-- An element and those after it, without those equal to the one before. -/
def squeeze [DecidableEq α] : α → List α → List α
  | x, [] => [x]
  | x, y :: l => if x = y then squeeze x l else x :: squeeze y l

theorem mem_squeeze [DecidableEq α] {a : α} :
    ∀ {x : α} {l : List α}, a ∈ squeeze x l ↔ a = x ∨ a ∈ l
  | x, [] => by simp [squeeze]
  | x, y :: l => by
    rw [squeeze]
    split
    next h => rw [mem_squeeze, List.mem_cons, h]; tauto
    next h => rw [List.mem_cons, mem_squeeze, List.mem_cons]

/-- On a sorted list each element is left once, in ascending order. -/
theorem pairwise_squeeze [DecidableEq α] {le lt : α → α → Prop}
    (hlt : ∀ a b c, lt a b → le b c → lt a c) (hle : ∀ a b, le a b → a ≠ b → lt a b) :
    ∀ {x : α} {l : List α}, (x :: l).Pairwise le → (squeeze x l).Pairwise lt
  | x, [], _ => by simp [squeeze]
  | x, y :: l, h => by
    obtain ⟨hx, hyl⟩ := List.pairwise_cons.mp h
    rw [squeeze]
    split
    next hxy =>
      subst hxy
      exact pairwise_squeeze hlt hle hyl
    next hxy =>
      refine List.pairwise_cons.mpr ⟨?_, pairwise_squeeze hlt hle hyl⟩
      intro a ha
      have hxlt : lt x y := hle x y (hx y (by simp)) hxy
      rcases mem_squeeze.mp ha with rfl | ha
      · exact hxlt
      · exact hlt x y a hxlt ((List.pairwise_cons.mp hyl).1 a ha)

theorem take_kept (P l : List α) (x : α) : (P ++ x :: l).take (P.length + 1) = P ++ [x] := by
  rw [List.take_length_add_append]
  rfl

/-- **The loop of `unique` on a sorted array.**  `P` and `x` are what is kept so
far, `G` the elements that are in between and no longer needed, `R` those still
to be read.  Outside a run there is no gap, except right after an element was
moved down: then it is the next one to be read as well. -/
theorem uniqueLoop_spec [DecidableEq α] {same less : α → α → Bool}
    (hsame : ∀ a b, same a b ↔ a = b) (fuel : ℕ) (x : α) (P G R list : List α) (rep : Bool)
    (hlist : list = P ++ x :: (G ++ R)) (hfuel : 2 * R.length + rep.toNat ≤ fuel)
    (hord : (x :: R).Pairwise fun a b => a = b ∨ less a b)
    (htrue : rep = true → G ≠ []) (hfalse : rep = false → G = [] ∨ R.head? = some x) :
    ∃ r, uniqueLoop same less list.length fuel list P.length (P.length + 1 + G.length) rep = r ∧
      r.1.take (r.2 + 1) = P ++ squeeze x R := by
  induction fuel generalizing x P G R list rep with
  | zero =>
    have hR : R = [] := by
      rw [← List.length_eq_zero_iff]
      omega
    refine ⟨_, rfl, ?_⟩
    simp only [uniqueLoop, hR, squeeze, hlist]
    exact take_kept P _ x
  | succ fuel ih =>
    rw [uniqueLoop]
    cases R with
    | nil =>
      refine ⟨_, rfl, ?_⟩
      rw [if_neg (by simp [hlist]; omega), hlist]
      exact take_kept P _ x
    | cons y R =>
      have hb : list[P.length]? = some x := by simp [hlist]
      have ha : list[P.length + 1 + G.length]? = some y := by
        rw [hlist, List.getElem?_append_right (by omega)]
        simp [show P.length + 1 + G.length - P.length = G.length + 1 by omega]
      have hsz : P.length + 1 + G.length < list.length := by
        rw [hlist]
        simp
        omega
      obtain ⟨hx, hyR⟩ := List.pairwise_cons.mp hord
      rw [if_pos hsz, hb, ha]
      dsimp only
      by_cases hxy : x = y
      · -- one more element of the run
        subst hxy
        have h := ih x P (G ++ [x]) R list true (by simp [hlist]) (by simp at hfuel ⊢; omega) hyR
          (by simp) (by simp)
        rw [List.length_append, List.length_singleton, ← Nat.add_assoc] at h
        rw [if_pos ((hsame x x).mpr rfl), squeeze, if_pos rfl]
        exact h
      · have hless : less x y = true := (hx y (by simp)).resolve_left hxy
        have hP : P ++ squeeze x (y :: R) = (P ++ [x]) ++ squeeze y R := by
          rw [squeeze, if_neg hxy]
          simp
        rw [if_neg (fun h => hxy ((hsame x y).mp h)), hless, Bool.true_and, hP]
        cases rep with
        | true =>
          -- the run has ended: its successor moves down and is read once more
          rw [if_pos rfl]
          cases G with
          | nil => exact absurd rfl (htrue rfl)
          | cons g G =>
            have hord' : (y :: y :: R).Pairwise fun a b => a = b ∨ less a b := by
              refine List.pairwise_cons.mpr ⟨?_, hyR⟩
              intro a ha
              rcases List.mem_cons.mp ha with rfl | ha
              · exact .inl rfl
              · exact (List.pairwise_cons.mp hyR).1 a ha
            have h := ih y (P ++ [x]) G (y :: R) (list.set (P.length + 1) y) false
              (by simp [hlist]) (by simp at hfuel ⊢; omega) hord' (by simp) (by simp)
            rw [List.length_set, squeeze, if_pos rfl] at h
            simp only [List.length_append, List.length_cons, List.length_nil] at h ⊢
            rw [show P.length + 1 + (G.length + 1) = P.length + (0 + 1) + 1 + G.length by omega]
            exact h
        | false =>
          rw [if_neg (by simp)]
          have hG : G = [] := by
            rcases hfalse rfl with h | h
            · exact h
            · exact absurd (Option.some.inj h).symm hxy
          subst hG
          have h := ih y (P ++ [x]) [] R list false (by simp [hlist]) (by simp at hfuel ⊢; omega)
            hyR (by simp) (by simp)
          simpa using h

/-- `unique` of a sorted array. -/
theorem uniqueKept_cons [DecidableEq α] {same less : α → α → Bool} (hsame : ∀ a b, same a b ↔ a = b)
    {x : α} {l : List α} (hord : (x :: l).Pairwise fun a b => a = b ∨ less a b) :
    uniqueKept same less (x :: l) = squeeze x l := by
  obtain ⟨r, hr, hkept⟩ := uniqueLoop_spec hsame (2 * (x :: l).length) x [] [] l (x :: l) false
    rfl (by simp) hord (by simp) (by simp)
  simp only [List.length_nil, Nat.zero_add, Nat.add_zero] at hr
  rw [uniqueKept, hr]
  simpa using hkept

/-- The size stays below that of the array.  Where a run has been read, there is a gap. -/
theorem uniqueLoop_lt (same less : α → α → Bool) (fuel : ℕ) (list : List α) (bef aft : ℕ)
    (rep : Bool) (hbef : bef < list.length) (haft : bef < aft) (hrep : rep = true → bef + 1 < aft) :
    (uniqueLoop same less list.length fuel list bef aft rep).2 <
      (uniqueLoop same less list.length fuel list bef aft rep).1.length := by
  induction fuel generalizing list bef aft rep with
  | zero => exact hbef
  | succ fuel ih =>
    rw [uniqueLoop]
    by_cases hread : aft < list.length
    · rw [if_pos hread, List.getElem?_eq_getElem hbef, List.getElem?_eq_getElem hread]
      dsimp only
      split
      · exact ih list bef (aft + 1) true hbef (by omega) fun _ => by omega
      split
      next hmove =>
        -- The element is moved into the gap, and read once more.
        have hgap : bef + 1 < aft := hrep (Bool.and_eq_true_iff.mp hmove).2
        have h := ih (list.set (bef + 1) list[aft]) (bef + 1) aft false
        rw [List.length_set] at h
        exact h (by omega) hgap fun hfalse => absurd hfalse Bool.false_ne_true
      next =>
        refine ih list (bef + 1) (aft + 1) rep (by omega) (by omega) fun h => ?_
        have := hrep h
        omega
    · rw [if_neg hread]
      exact hbef

/-- An array without repetitions is left as it is. -/
theorem uniqueLoop_of_pairwise {same less : α → α → Bool} {list : List α}
    (h : list.Pairwise fun a b => same a b = false) (fuel bef : ℕ) (hbef : bef < list.length)
    (hfuel : list.length ≤ bef + 1 + fuel) :
    uniqueLoop same less list.length fuel list bef (bef + 1) false = (list, list.length - 1) := by
  have hlast : list.length ≤ bef + 1 → (list, bef) = (list, list.length - 1) := by
    intro hle
    rw [show bef = list.length - 1 by omega]
  induction fuel generalizing bef with
  | zero => exact hlast hfuel
  | succ fuel ih =>
    rw [uniqueLoop]
    by_cases haft : bef + 1 < list.length
    · have hne : same list[bef] list[bef + 1] = false :=
        List.pairwise_iff_getElem.mp h bef (bef + 1) hbef haft (Nat.lt_succ_self bef)
      rw [if_pos haft, List.getElem?_eq_getElem hbef, List.getElem?_eq_getElem haft]
      simp only [hne, Bool.and_false, Bool.false_eq_true, if_false]
      refine ih (bef + 1) haft (by omega) fun hle => ?_
      rw [show bef + 1 = list.length - 1 by omega]
    · rw [if_neg haft]
      exact hlast (by omega)

theorem uniqueKept_of_pairwise {same less : α → α → Bool} {list : List α} (hne : list ≠ [])
    (h : list.Pairwise fun a b => same a b = false) : uniqueKept same less list = list := by
  have hpos : 0 < list.length := List.length_pos_iff.mpr hne
  rw [uniqueKept, uniqueLoop_of_pairwise h _ 0 hpos (by omega)]
  exact List.take_of_length_le (by simp only; omega)

/-! ### Runs of equal elements -/

section

variable [DecidableEq α]

theorem mem_destutter'_ne {a x : α} {l : List α} : a ∈ l.destutter' (· ≠ ·) x ↔ a = x ∨ a ∈ l := by
  induction l generalizing x with
  | nil => simp
  | cons y l ih =>
    by_cases hxy : x = y
    · subst hxy
      rw [List.destutter'_cons_neg _ (not_not.mpr rfl), ih, List.mem_cons]
      tauto
    · rw [List.destutter'_cons_pos _ hxy, List.mem_cons, ih, List.mem_cons]

theorem mem_destutter_ne {a : α} {l : List α} : a ∈ l.destutter (· ≠ ·) ↔ a ∈ l := by
  cases l with
  | nil => simp
  | cons x l => rw [List.destutter_cons', mem_destutter'_ne, List.mem_cons]

/-- Without the repetitions that follow one another an element is left once, unless another one
stands between two of its places. -/
theorem nodup_destutter'_ne_iff {x : α} {l : List α} : (l.destutter' (· ≠ ·) x).Nodup ↔
    ∀ a b, [a, b, a].Sublist (x :: l) → a = b := by
  induction l generalizing x with
  | nil =>
    refine iff_of_true (by simp) fun a b h => ?_
    have := h.length_le
    simp at this
  | cons y l ih =>
    by_cases hxy : x = y
    · subst hxy
      rw [List.destutter'_cons_neg _ (not_not.mpr rfl), ih]
      constructor
      · intro h a b hsub
        rcases List.sublist_cons_iff.mp hsub with hsub | ⟨r, hr, hsub⟩
        · exact h a b hsub
        · obtain ⟨rfl, rfl⟩ := List.cons.inj hr
          rcases List.sublist_cons_iff.mp hsub with hsub | ⟨r, hr, -⟩
          · exact h a b (hsub.cons_cons a)
          · exact (List.cons.inj hr).1.symm
      · exact fun h a b hsub => h a b (hsub.cons x)
    · rw [List.destutter'_cons_pos _ hxy, List.nodup_cons, mem_destutter'_ne, ih]
      constructor
      · rintro ⟨hx, h⟩ a b hsub
        rcases List.sublist_cons_iff.mp hsub with hsub | ⟨r, hr, hsub⟩
        · exact h a b hsub
        · obtain ⟨rfl, rfl⟩ := List.cons.inj hr
          exact absurd (List.mem_cons.mp (hsub.subset (by simp))) hx
      · intro h
        refine ⟨fun hmem => ?_, fun a b hsub => h a b (hsub.cons x)⟩
        rcases hmem with rfl | hmem
        · exact hxy rfl
        · exact hxy (h x y (((List.singleton_sublist.mpr hmem).cons_cons y).cons_cons x))

theorem nodup_destutter_ne_iff {l : List α} : (l.destutter (· ≠ ·)).Nodup ↔
    ∀ a b, [a, b, a].Sublist l → a = b := by
  cases l with
  | nil => simp
  | cons x l => rw [List.destutter_cons', nodup_destutter'_ne_iff]

/-- One element is left exactly if all are equal. -/
theorem two_le_length_destutter'_iff {x : α} {l : List α} :
    2 ≤ (l.destutter' (· ≠ ·) x).length ↔ ∃ a ∈ l, x ≠ a := by
  induction l generalizing x with
  | nil => simp
  | cons y l ih =>
    by_cases hxy : x = y
    · subst hxy
      rw [List.destutter'_cons_neg _ (not_not.mpr rfl), ih]
      simp
    · rw [List.destutter'_cons_pos _ hxy]
      refine iff_of_true ?_ ⟨y, List.mem_cons_self, hxy⟩
      have := List.length_pos_of_mem (List.mem_destutter' (R := (· ≠ ·)) l y)
      rw [List.length_cons]
      omega

theorem two_le_length_destutter_iff {l : List α} :
    2 ≤ (l.destutter (· ≠ ·)).length ↔ ∃ a ∈ l, ∃ b ∈ l, a ≠ b := by
  cases l with
  | nil => simp
  | cons x l =>
    rw [List.destutter_cons', two_le_length_destutter'_iff]
    constructor
    · rintro ⟨a, ha, hne⟩
      exact ⟨x, List.mem_cons_self, a, List.mem_cons_of_mem _ ha, hne⟩
    · rintro ⟨a, ha, b, hb, hne⟩
      by_contra hall
      have heq : ∀ c ∈ x :: l, c = x := by
        intro c hc
        rcases List.mem_cons.mp hc with rfl | hc
        · rfl
        · by_contra hcx
          exact hall ⟨c, hc, Ne.symm hcx⟩
      exact hne ((heq a ha).trans (heq b hb).symm)

end

/-- `qsort` leaves the elements of a class in their order. -/
theorem filter_qsort {cmp : α → α → ℤ} {l : List α} {p : α → Bool}
    (hp : ∀ a ∈ l, ∀ b ∈ l, p a = true → p b = true → cmp a b ≤ 0) :
    (qsort cmp l).filter p = l.filter p := by
  have hpair : (l.filter p).Pairwise fun a b => cmp a b ≤ 0 := by
    refine List.pairwise_of_forall_mem_list fun a ha b hb => ?_
    rw [List.mem_filter] at ha hb
    exact hp a ha.1 b hb.1 ha.2 hb.2
  have hsub := (List.sublist_insertionSort hpair List.filter_sublist).filter p
  rw [List.filter_filter, List.filter_congr (q := p) fun a _ => Bool.and_self (p a)] at hsub
  exact (hsub.eq_of_length ((perm_qsort cmp l).filter p).length_eq.symm).symm

end Archie
