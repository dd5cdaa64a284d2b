/-
The arrays of an operation on two lists of starts (`archsearch/boolean-ops.c`).

`archAnonftpOperOn2Lists` fills an array with room for both lists, reads the second list from the
front for each start of the first, and has `unique` compact the array in place.

* `scanOld_eq` — the two loops write the starts of the first list that stay, one for each time that
  they occur.
* `uniqueArray_eq` — the size that `unique` gives is the number of the starts that it leaves.
* `operOn2Arrays_eq` — the array begins with the result.
* `operOn2Arrays_spec` — the result is the intersection, the union or the difference.
-/
import Archie.BooleanOps

namespace Archie

/-! ### The loops -/

/-- The inner loop of `archAnonftpOperOn2Lists`: the starts written to `res` so far, and `in`.  It is
left (`j = nsz`) at the first start of `new` that is the same. -/
def scanNew (oper : BoolOps) (start : ℕ) (res : List ℕ) : List ℕ → List ℕ × Bool
  | [] => (res, false)
  | n :: new =>
    match oper with
    | .andOp => if start = n then (res ++ [start], false) else scanNew oper start res new
    | .notOp => if start = n then (res, true) else scanNew oper start res new
    | .orOp | .nullOp => scanNew oper start res new

/-- The outer loop, for an array of `rsz` starts. -/
def scanOld (oper : BoolOps) (rsz : ℕ) (new : List ℕ) : List ℕ → List ℕ → List ℕ
  | [], res => res
  | o :: old, res =>
    if res.length < rsz then
      let r := scanNew oper o res new
      -- This only happens in `NOT_OP`.
      if r.2 = false ∧ oper = .notOp then scanOld oper rsz new old (r.1 ++ [o])
      else scanOld oper rsz new old r.1
    else res

/-- `unique`: the array and the new size. -/
def uniqueArray (list : List ℕ) : List ℕ × ℕ :=
  let r := uniqueLoop (fun a b => a == b) (fun a b => decide (a < b)) list.length
    (2 * list.length) list 0 1 false
  (r.1, if list.length ≠ 0 then r.2 + 1 else list.length)

/-- `archAnonftpOperOn2Lists`: the array `res` and the size `rsz`.  For the other operations than
`OR_OP`, the array is cut off after the result, and a 0 follows it. -/
def operOn2Arrays (oper : BoolOps) (old new : List ℕ) : List ℕ × ℕ :=
  let old := qsort indexcompare old
  let new := qsort indexcompare new
  if oper = .orOp then uniqueArray (qsort indexcompare (old ++ new))
  else
    let r := uniqueArray (scanOld oper (old.length + new.length) new old [])
    (r.1.take r.2 ++ [0], r.2)

/-! ### What they write -/

theorem keeps_andOp (found : Bool) : BoolOps.andOp.keeps found = found := by
  cases found <;> rfl

theorem keeps_notOp (found : Bool) : BoolOps.notOp.keeps found = !found := by
  cases found <;> rfl

theorem keeps_nullOp (found : Bool) : BoolOps.nullOp.keeps found = false := by
  cases found <;> rfl

section

variable {oper : BoolOps} {res new : List ℕ}

theorem scanNew_eq (start : ℕ) : scanNew oper start res new =
    (if new.contains start = true ∧ oper = .andOp then res ++ [start] else res,
      new.contains start && oper == .notOp) := by
  induction new with
  | nil => simp [scanNew]
  | cons n new ih =>
    rw [scanNew.eq_def]
    cases oper with
    | andOp =>
      by_cases heq : start = n
      · simp [heq]
      · simp [heq, ih]
    | notOp =>
      by_cases heq : start = n
      · simp [heq]
      · simp [heq, ih]
    | orOp => simp [ih, show (BoolOps.orOp == BoolOps.notOp) = false from rfl]
    | nullOp => simp [ih, show (BoolOps.nullOp == BoolOps.notOp) = false from rfl]

/-- **The loops.**  There is room for every start that is written. -/
theorem scanOld_eq {rsz : ℕ} (old : List ℕ) (hroom : res.length + old.length ≤ rsz) :
    scanOld oper rsz new old res = res ++ old.filter fun start => oper.keeps
      (new.contains start) := by
  induction old generalizing res with
  | nil => rw [scanOld, List.filter_nil, List.append_nil]
  | cons o old ih =>
    rw [List.length_cons] at hroom
    have hone : (res ++ [o]).length + old.length ≤ rsz := by
      rw [List.length_append, List.length_singleton]
      omega
    have hnone : res.length + old.length ≤ rsz := by omega
    rw [scanOld, if_pos (by omega), scanNew_eq, List.filter_cons]
    cases hin : new.contains o <;> cases oper <;>
      simp [BoolOps.keeps, ih hone, ih hnone]

end

/-! ### The size -/

/-- **`unique`.** -/
theorem uniqueArray_eq (list : List ℕ) :
    (uniqueArray list).1.take (uniqueArray list).2 = uniqueStarts list ∧
    (uniqueArray list).2 = (uniqueStarts list).length := by
  rw [uniqueArray, uniqueStarts]
  cases list with
  | nil => exact ⟨rfl, rfl⟩
  | cons start list =>
    have hne : (start :: list).length ≠ 0 := Nat.succ_ne_zero list.length
    have hlt := uniqueLoop_lt (fun a b => a == b) (fun a b => decide (a < b))
      (2 * (start :: list).length) (start :: list) 0 1 false (Nat.succ_pos _) Nat.one_pos
      fun hfalse => absurd hfalse Bool.false_ne_true
    rw [if_pos hne, if_neg (List.cons_ne_nil start list), uniqueKept]
    dsimp only
    refine ⟨rfl, ?_⟩
    rw [List.length_take_of_le hlt]

/-! ### The operations -/

/-- **The array** begins with the result, and the size is its length. -/
theorem operOn2Arrays_eq (oper : BoolOps) (old new : List ℕ) :
    (operOn2Arrays oper old new).1.take (operOn2Arrays oper old new).2 =
      archAnonftpOperOn2Lists oper old new ∧
      (operOn2Arrays oper old new).2 = (archAnonftpOperOn2Lists oper old new).length := by
  -- What follows the result in the array is not looked at.
  have hcut : ∀ list : List ℕ,
      ((uniqueArray list).1.take (uniqueArray list).2 ++ [0]).take (uniqueArray list).2 =
      uniqueStarts list ∧ (uniqueArray list).2 = (uniqueStarts list).length := by
    intro list
    obtain ⟨htake, hsize⟩ := uniqueArray_eq list
    refine ⟨?_, hsize⟩
    rw [htake, hsize]
    exact List.take_left
  have hscan := @scanOld_eq oper [] (qsort indexcompare new)
    ((qsort indexcompare old).length + (qsort indexcompare new).length) (qsort indexcompare old)
    (by rw [List.length_nil]; omega)
  rw [List.nil_append] at hscan
  rw [operOn2Arrays, archAnonftpOperOn2Lists.eq_def]
  cases oper with
  | orOp => exact uniqueArray_eq _
  | andOp =>
    simp only [keeps_andOp] at hscan
    dsimp only
    rw [if_neg (by decide), hscan]
    exact hcut _
  | notOp =>
    simp only [keeps_notOp] at hscan
    dsimp only
    rw [if_neg (by decide), hscan]
    exact hcut _
  | nullOp =>
    simp only [keeps_nullOp, List.filter_false] at hscan
    dsimp only
    rw [if_neg (by decide), hscan]
    exact hcut []

/-- **Two lists of starts** in whatever order, and whatever is repeated in them. -/
theorem operOn2Arrays_spec (old new : List ℕ) (oper : BoolOps) :
    let (res, rsz) := operOn2Arrays oper old new
    (res.take rsz).length = rsz ∧ (res.take rsz).Pairwise (· < ·) ∧
      match oper with
      | .andOp => ∀ start, start ∈ res.take rsz ↔ start ∈ old ∧ start ∈ new
      | .orOp => ∀ start, start ∈ res.take rsz ↔ start ∈ old ∨ start ∈ new
      | .notOp => ∀ start, start ∈ res.take rsz ↔ start ∈ old ∧ start ∉ new
      | .nullOp => rsz = 0 := by
  obtain ⟨htake, hsize⟩ := operOn2Arrays_eq oper old new
  dsimp only
  rw [htake]
  refine ⟨hsize.symm, pairwise_archAnonftpOperOn2Lists oper old new, ?_⟩
  cases oper with
  | andOp => exact fun start => mem_archAnonftpOperOn2Lists.1
  | orOp => exact fun start => mem_archAnonftpOperOn2Lists.2.1
  | notOp => exact fun start => mem_archAnonftpOperOn2Lists.2.2
  | nullOp => exact hsize

/-- A start that both lists have twice. -/
example : operOn2Arrays .orOp [3, 1, 3] [3, 2, 3] = ([1, 2, 3, 3, 3, 3], 3) := by decide

end Archie
