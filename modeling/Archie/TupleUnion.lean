/-
The union of two lists of tuples of whatever sites (`archsearch/boolean-ops.c`).

`tuplecompare` looks at the records alone, so that `archTupleOper` takes tuples of two sites with
the same records for one, and its first comparison is with a tuple of zeroes that has not been
written.

* `orLoop_eq` — the loop is a merge by the records.
* `archTupleOper_unionOf_iff` — when it has each tuple of the two lists once.
-/
import Mathlib.Data.List.Dedup
import Archie.KeyMerge
import Archie.TupleOps

namespace Archie

/-- The records of two lists, each once and in order. -/
def recordsOf (old new : List SiteTuple) : List (ℤ ×ₗ ℤ) :=
  ((old ++ new).map SiteTuple.key).dedup.insertionSort (· ≤ ·)

/-- What has to hold of two lists for their union.  Where the least records are zeroes, they pass
for written, and only the second list is; otherwise the tuples with the same records have to allow
it.  (Which of them comes first is left open by `qsort`; here it is the one that came first.) -/
def AllowsUnion (old new : List SiteTuple) : Prop :=
  new = [] ∨
    if (recordsOf old new).head? = some (toLex (0, 0)) then ∀ t ∈ old, t ∈ new
    else KeptGroups SiteTuple.key false (recordsOf old new) (qsort tuplecompare old)
      (qsort tuplecompare new)

instance (old new : List SiteTuple) : Decidable (AllowsUnion old new) :=
  inferInstanceAs (Decidable (_ ∨ ite _ _ _))

/-- **The loop.**  Of the results that it keeps, it is only the one of the first list that counts. -/
theorem orLoop_eq (fuel : ℕ) (prev : SiteTuple) (c2 c3 : ℤ) (old new : List SiteTuple)
    (hfuel : old.length + new.length ≤ fuel) :
    orLoop fuel prev c2 c3 old new = keyMerge SiteTuple.key (decide (c2 ≠ 0)) prev.key old new := by
  induction fuel generalizing prev c2 c3 old new with
  | zero =>
    obtain rfl : old = [] := List.length_eq_zero_iff.mp (by omega)
    rw [orLoop, keyMerge_nil_left]
  | succ fuel ih =>
    rcases old with _ | ⟨o, old⟩
    · rw [orLoop, keyMerge_nil_left]
    rcases new with _ | ⟨n, new⟩
    · rw [orLoop, keyMerge_nil_right]
      exact List.cons_ne_nil o old
    · simp only [List.length_cons] at hfuel
      rw [orLoop, keyMerge]
      by_cases hlt : tuplecompare o n < 0
      · -- The head of the first list is the lesser.
        rw [if_pos hlt, if_pos (tuplecompare_neg.mp hlt)]
        dsimp only
        by_cases hlast : tuplecompare o prev = 0
        · rw [if_neg (not_not.mpr hlast), if_pos (tuplecompare_eq_zero.mp hlast),
            ih prev _ c3 old (n :: new) (by simp only [List.length_cons]; omega), hlast]
          rfl
        · rw [if_pos hlast, if_neg (mt tuplecompare_eq_zero.mpr hlast),
            ih o _ c3 old (n :: new) (by simp only [List.length_cons]; omega), decide_eq_true hlast]
      rw [if_neg hlt, if_neg (mt tuplecompare_neg.mpr hlt)]
      by_cases hgt : 0 < tuplecompare o n
      · rw [if_pos hgt, if_pos (tuplecompare_pos.mp hgt)]
        dsimp only
        by_cases hlast : tuplecompare n prev = 0
        · rw [if_neg (not_not.mpr hlast), if_pos (tuplecompare_eq_zero.mp hlast)]
          by_cases hc2 : c2 = 0
          · rw [if_pos hc2, if_neg (by simp [hc2]),
              ih prev c2 _ old (n :: new) (by simp only [List.length_cons]; omega)]
          · rw [if_neg hc2, if_pos (decide_eq_true hc2),
              ih prev c2 _ (o :: old) new (by simp only [List.length_cons]; omega)]
        · rw [if_pos hlast, if_neg (mt tuplecompare_eq_zero.mpr hlast),
            ih n c2 _ (o :: old) new (by simp only [List.length_cons]; omega)]
      rw [if_neg hgt, if_neg (mt tuplecompare_pos.mpr hgt)]
      by_cases hc2 : c2 = 0
      · rw [if_neg (not_not.mpr hc2), if_neg (by simp [hc2]),
          ih prev c2 c3 old (n :: new) (by simp only [List.length_cons]; omega)]
      · rw [if_pos hc2, if_pos (decide_eq_true hc2), ih o c2 c3 old new (by omega)]

/-! ### The records -/

section

variable {old new : List SiteTuple}

theorem mem_recordsOf {k : ℤ ×ₗ ℤ} : k ∈ recordsOf old new ↔ ∃ t, (t ∈ old ∨ t ∈ new) ∧
    t.key = k := by
  rw [recordsOf, List.mem_insertionSort, List.mem_dedup, List.mem_map]
  simp only [List.mem_append]

theorem pairwise_recordsOf : (recordsOf old new).Pairwise (· < ·) := by
  have hle := List.pairwise_insertionSort (· ≤ ·) ((old ++ new).map SiteTuple.key).dedup
  have hne : (recordsOf old new).Nodup :=
    (List.perm_insertionSort _ _).nodup_iff.mpr (List.nodup_dedup _)
  exact (hle.and hne).imp fun h => lt_of_le_of_ne h.1 h.2

theorem unionOf_qsort_iff {out : List SiteTuple} :
    UnionOf (qsort tuplecompare old) (qsort tuplecompare new) out ↔ UnionOf old new out := by
  simp only [UnionOf, mem_qsort]

/-- The merge of two lists. -/
theorem tupleOper_unionOf_iff (hold : old.Nodup) (hnew : new.Nodup) :
    UnionOf old new (tupleOper old new .orOp) ↔ AllowsUnion old new := by
  have hsorted : ∀ l : List SiteTuple, (qsort tuplecompare l).Pairwise fun a b => a.key ≤ b.key :=
    fun l =>
    pairwise_qsort SiteTuple.key fun _ _ _ _ => tuplecompare_nonpos
  have hnodup : ∀ {l : List SiteTuple}, l.Nodup → (qsort tuplecompare l).Nodup := fun {l} h =>
    (perm_qsort tuplecompare l).nodup_iff.mpr h
  have hmem : ∀ k, k ∈ recordsOf old new ↔
      ∃ t, (t ∈ qsort tuplecompare old ∨ t ∈ qsort tuplecompare new) ∧ t.key = k := by
    intro k
    rw [mem_recordsOf]
    simp only [mem_qsort]
  rw [tupleOper, if_pos rfl, orLoop_eq _ _ _ _ _ _ le_rfl, ← unionOf_qsort_iff, AllowsUnion]
  by_cases hne : new = []
  · rw [hne, show qsort tuplecompare ([] : List SiteTuple) = [] from rfl, keyMerge_nil_right,
      unionOf_left_iff (hnodup hold)]
    exact ⟨fun _ => .inl rfl, fun _ t ht => absurd ht List.not_mem_nil⟩
  rw [or_iff_right hne]
  by_cases hleast : (recordsOf old new).head? = some (toLex (0, 0))
  · rw [if_pos hleast]
    obtain ⟨ks, hks⟩ := List.head?_eq_some_iff.mp hleast
    have hpair := @pairwise_recordsOf old new
    rw [hks] at hpair
    have hle : ∀ t, t ∈ qsort tuplecompare old ∨ t ∈ qsort tuplecompare new →
        toLex (0, 0) ≤ t.key := by
      intro t ht
      have hin := (hmem t.key).mpr ⟨t, ht, rfl⟩
      rw [hks] at hin
      rcases List.mem_cons.mp hin with heq | hin
      · exact heq.ge
      · exact ((List.pairwise_cons.mp hpair).1 _ hin).le
    refine (unionOf_keyMerge_least_iff (hsorted old) (hsorted new) (hnodup hnew) hle
      ((hmem _).mp (List.mem_of_mem_head? hleast)) (mt qsort_eq_nil.mp hne)).trans ?_
    simp only [mem_qsort]
  · rw [if_neg hleast]
    exact unionOf_keyMerge_iff pairwise_recordsOf hmem hleast (hsorted old) (hsorted new)
      (hnodup hold)
      (hnodup hnew)

end

end Archie
