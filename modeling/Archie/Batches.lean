/-
Handing out a list in batches.

`batches l bs` cuts the front of `l` into parts of the sizes `bs`.

* `flatten_batches` — together they are the front of the list.
* `getD_batches_eq_nil` — after a short batch all are empty.
* `flatMap_filter_of_nil` — parts that are empty may be left out.
-/
import Mathlib.Algebra.GroupWithZero.Nat
import Mathlib.Data.List.GetD
import Mathlib.Order.Nat

variable {α : Type*}

/-- The front of a list in parts of the given sizes. -/
def batches (l : List α) : List ℕ → List (List α)
  | [] => []
  | b :: bs => l.take b :: batches (l.drop b) bs

theorem batches_nil (bs : List ℕ) : batches ([] : List α) bs = List.replicate bs.length [] := by
  induction bs with
  | nil => rfl
  | cons b bs ih => rw [batches, List.take_nil, List.drop_nil, ih, List.length_cons,
      List.replicate_succ]

/-- The batches together are the front of the list. -/
theorem flatten_batches (l : List α) (bs : List ℕ) :
    (batches l bs).flatten = l.take bs.sum := by
  induction bs generalizing l with
  | nil => simp [batches]
  | cons b bs ih => rw [batches, List.flatten_cons, ih, List.sum_cons, List.take_add]

/-- After a batch that is shorter than requested all batches are empty. -/
theorem getD_batches_eq_nil {l : List α} {bs : List ℕ} {i j : ℕ} (hij : i < j)
    (hshort : ((batches l bs).getD i []).length < bs.getD i 0) :
    (batches l bs).getD j [] = [] := by
  induction bs generalizing l i j with
  | nil => rfl
  | cons b bs ih =>
    obtain ⟨j, rfl⟩ : ∃ k, j = k + 1 := ⟨j - 1, by omega⟩
    rw [batches, List.getD_cons_succ]
    cases i with
    | zero =>
      -- the list is used up
      rw [batches, List.getD_cons_zero, List.getD_cons_zero, List.length_take] at hshort
      have hnil : l.drop b = [] := List.drop_eq_nil_of_le (by omega)
      rw [hnil, batches_nil, List.getD_eq_getElem?_getD, List.getElem?_replicate]
      split <;> rfl
    | succ i =>
      rw [batches, List.getD_cons_succ, List.getD_cons_succ] at hshort
      exact ih (by omega) hshort

/-- What is left out of a list may be left out of a flattened one if it adds nothing. -/
theorem flatMap_filter_of_nil {β : Type*} {f : α → List β} {p : α → Bool} {l : List α}
    (h : ∀ a ∈ l, p a = false → f a = []) : (l.filter p).flatMap f = l.flatMap f := by
  induction l with
  | nil => rfl
  | cons a l ih =>
    obtain ⟨ha, hl⟩ := List.forall_mem_cons.mp h
    rw [List.filter_cons, List.flatMap_cons, ← ih hl]
    cases hp : p a with
    | true => rw [if_pos rfl, List.flatMap_cons]
    | false => rw [if_neg (by simp), ha hp, List.nil_append]
