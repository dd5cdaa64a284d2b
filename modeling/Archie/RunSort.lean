/-
Sorting a run (`patrie/sort.c`).

* `cmpRunElt`, `sort`, `sortRun` — the functions, on top of the sort with a moving hole.
* `sort_sorts` — for a comparison that totally orders the suffixes, the sort is right.
-/
import Archie.CInt
import Archie.HoleSort

namespace Archie

/-- `RunElement`. -/
structure RunElement where
  c : ℤ
  s : ℤ
  lh : ℕ
  rh : ℕ
  deriving DecidableEq, Repr

namespace Run

/-- `cmpRunElt`, where `cmp` compares the suffixes at two offsets of the text. -/
def cmpRunElt (cmp : ℤ → ℤ → ℤ) (a b : RunElement) : ℤ := if a.s = b.s then 0 else cmp a.s b.s

/-- `sort`; none, if it accesses anything but the elements of `relt`. -/
def sort (fuel : ℕ) (relt : List RunElement) (lo up : ℕ) (cmp : ℤ → ℤ → ℤ) :
    Option (List RunElement) :=
  HoleSort.sort (cmpRunElt cmp) fuel relt lo up

/-- `sortRun`; `nelts - 1` is a `size_t`. -/
def sortRun (fuel : ℕ) (run : List RunElement) (nelts : ℕ) (cmp : ℤ → ℤ → ℤ) :
    Option (List RunElement) :=
  sort fuel run 0 (ulong ((nelts : ℤ) - 1)) cmp

/-- The comparison totally orders the suffixes that the elements of a run point to. -/
structure TotallyOrders (cmp : ℤ → ℤ → ℤ) (run : List RunElement) : Prop where
  ne : ∀ a ∈ run, ∀ b ∈ run, a.s ≠ b.s → cmp a.s b.s ≠ 0
  swap : ∀ a ∈ run, ∀ b ∈ run, a.s ≠ b.s → 0 < cmp a.s b.s → cmp b.s a.s < 0
  trans : ∀ a ∈ run, ∀ b ∈ run, ∀ c ∈ run,
    cmp a.s b.s < 0 → cmp b.s c.s < 0 → a.s ≠ c.s → cmp a.s c.s < 0

/-- **The claim about a run**: the sort ends, without an access outside of the run, and the run is
permuted into increasing order. -/
def Sorts (cmp : ℤ → ℤ → ℤ) (relt : List RunElement) : Prop :=
  ∃ fuel relt', sort fuel relt 0 (relt.length - 1) cmp = some relt' ∧ relt'.Perm relt ∧
    relt'.Pairwise fun a b => cmp a.s b.s < 0

theorem cmpRunElt_self (cmp : ℤ → ℤ → ℤ) (a : RunElement) : cmpRunElt cmp a a ≤ 0 := by
  rw [cmpRunElt, if_pos rfl]

theorem cmpRunElt_of_ne {cmp : ℤ → ℤ → ℤ} {a b : RunElement} (h : a.s ≠ b.s) :
    cmpRunElt cmp a b = cmp a.s b.s := if_neg h

theorem TotallyOrders.cmpRunElt_neg {cmp : ℤ → ℤ → ℤ} {run : List RunElement}
    (h : TotallyOrders cmp run) {a b : RunElement} (ha : a ∈ run) (hb : b ∈ run)
    (hle : cmpRunElt cmp a b ≤ 0) (hne : a.s ≠ b.s) : cmp a.s b.s < 0 := by
  rw [cmpRunElt_of_ne hne] at hle
  exact Int.lt_iff_le_and_ne.mpr ⟨hle, h.ne a ha b hb hne⟩

theorem TotallyOrders.orders {cmp : ℤ → ℤ → ℤ} {run : List RunElement}
    (h : TotallyOrders cmp run) : HoleSort.Orders (cmpRunElt cmp) run where
  swap := by
    intro a ha b hb hgt
    by_cases hab : a.s = b.s
    · rw [cmpRunElt, if_pos hab] at hgt
      exact absurd hgt (Int.lt_irrefl 0)
    · rw [cmpRunElt_of_ne hab] at hgt
      rw [cmpRunElt_of_ne (Ne.symm hab)]
      exact Int.le_of_lt (h.swap a ha b hb hab hgt)
  trans := by
    intro a ha b hb c hc hab hbc
    by_cases hac : a.s = c.s
    · rw [cmpRunElt, if_pos hac]
    · rw [cmpRunElt_of_ne hac]
      by_cases hab' : a.s = b.s
      · rw [hab'] at hac ⊢
        exact Int.le_of_lt (h.cmpRunElt_neg hb hc hbc hac)
      · by_cases hbc' : b.s = c.s
        · rw [← hbc'] at hac ⊢
          exact Int.le_of_lt (h.cmpRunElt_neg ha hb hab hac)
        · exact Int.le_of_lt (h.trans a ha b hb c hc (h.cmpRunElt_neg ha hb hab hab')
            (h.cmpRunElt_neg hb hc hbc hbc') hac)

/-- **The quicksort** of a run. -/
theorem sort_sorts {cmp : ℤ → ℤ → ℤ} {relt : List RunElement} (hne : relt ≠ [])
    (hdistinct : (relt.map RunElement.s).Nodup) (horder : TotallyOrders cmp relt) :
    Sorts cmp relt := by
  have hpos := List.length_pos_iff.mpr hne
  obtain ⟨relt', hsort, hre, hsorted⟩ := HoleSort.exists_sort
    (fun a (_ : a ∈ relt) => cmpRunElt_self cmp a) (show relt.length - 1 < relt.length by omega)
    (show relt.length - 1 - 0 < relt.length by omega)
  refine ⟨relt.length, relt', hsort, hre.perm, ?_⟩
  have hlen := hre.perm.length_eq
  have hnodup : relt'.Pairwise fun a b => a.s ≠ b.s :=
    List.pairwise_map.mp ((hre.perm.map _).nodup_iff.mpr hdistinct)
  rw [List.pairwise_iff_getElem]
  intro i j hi hj hij
  have hle := hsorted horder.orders i j _ _ (Nat.zero_le i) hij (by omega)
    (List.getElem?_eq_getElem hi) (List.getElem?_eq_getElem hj)
  exact horder.cmpRunElt_neg (hre.perm.mem_iff.mp (List.getElem_mem hi))
    (hre.perm.mem_iff.mp (List.getElem_mem hj)) hle
    (List.pairwise_iff_getElem.mp hnodup i j hi hj hij)

/-- A run that has elements is sorted without an access outside of it. -/
theorem exists_sortRun (cmp : ℤ → ℤ → ℤ) {run : List RunElement} (hne : run ≠ [])
    (hlen : run.length ≤ wordSize) :
    ∃ run', sortRun (run.length + 1) run run.length cmp = some run' ∧ run'.Perm run := by
  have hpos := List.length_pos_iff.mpr hne
  have hlast : ulong ((run.length : ℤ) - 1) = run.length - 1 := by
    rw [show (run.length : ℤ) - 1 = ((run.length - 1 : ℕ) : ℤ) by omega]
    exact ulong_natCast (by omega)
  obtain ⟨run', hsort, hre, -⟩ := HoleSort.exists_sort
    (fun a (_ : a ∈ run) => cmpRunElt_self cmp a) (show run.length - 1 < run.length by omega)
    (show run.length - 1 - 0 < run.length + 1 by omega)
  exact ⟨run', by rw [sortRun, hlast, sort, hsort], hre.perm⟩

/-- **A run without elements** is accessed all the same: its last index is `SIZE_MAX`. -/
theorem sortRun_nil (cmp : ℤ → ℤ → ℤ) (fuel : ℕ) : sortRun fuel [] 0 cmp = none := by
  cases fuel with
  | zero => rfl
  | succ fuel => rfl

/-- A run of three elements. -/
theorem sort_sorts_sample :
    Sorts (fun a b => b - a) [⟨0, 1, 0, 0⟩, ⟨0, 0, 0, 0⟩, ⟨0, 2, 0, 0⟩] :=
  sort_sorts (List.cons_ne_nil _ _) (by decide) {
    ne := fun a _ b _ h => by omega
    swap := fun a _ b _ _ h => by omega
    trans := fun a _ b _ c _ h h' _ => by omega }

end Run

end Archie
