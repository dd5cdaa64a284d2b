/-
Operations on the lists of starts of a boolean query (`archsearch/boolean-ops.c`).

A list is compared with a word by looking the word up in each string, or with
another list by sorting both.

* `archAnonftpOper_eq` — the strings with (or without) the word stay, in order.
* `mem_archAnonftpOperOn2Lists` — intersection, union and difference.
* `pairwise_archAnonftpOperOn2Lists` — the result is in ascending order, each start
  once.
-/
import Mathlib.Data.List.Infix
import Archie.StartDb
import Archie.Unique

namespace Archie

/-- `bool_ops_t`. -/
inductive BoolOps
  | nullOp
  | notOp
  | orOp
  | andOp
  deriving DecidableEq, Repr

/-- `indexcompare`: the difference of two offsets is an `int`. -/
def indexcompare (i j : ℕ) : ℤ := (i : ℤ) - j

/-- `unique` of `boolean-ops.c`, for a list of starts. -/
def uniqueStarts (list : List ℕ) : List ℕ :=
  if list = [] then [] else uniqueKept (fun a b => a == b) (fun a b => decide (a < b)) list

/-- `strlwr`. -/
def strlwr (str : List UInt8) : List UInt8 := str.map asciiLower

/-- `strstr` finds the word. -/
def strstr (res wd : List UInt8) : Bool := decide (wd <:+: res)

/-- The comparison of a string with a word: both in lower case unless the case
matters. -/
def wordIn (casesens : ℤ) (word res : List UInt8) : Bool :=
  if casesens = 0 then strstr (strlwr res) (strlwr word) else strstr res word

/-- Whether a string stays in the list. -/
def BoolOps.keeps (oper : BoolOps) (found : Bool) : Bool :=
  (found && oper == .andOp) || (!found && oper == .notOp)

section

variable (getString : ℕ → Option (List UInt8))

/-- `archAnonftpOper`; there is no result when a start has no string. -/
def archAnonftpOper (oper : BoolOps) (word : List UInt8) (casesens : ℤ) : List ℕ → Option (List ℕ)
  | [] => some []
  | start :: list => do
    let res ← getString start
    let rest ← archAnonftpOper oper word casesens list
    some (if oper.keeps (wordIn casesens word res) then start :: rest else rest)

/-- `archAnonftpOperCont`: the list is read from `stopin` on and what stays of it is
written to `outlist` from `stopout` on.  The new `stopin` and `outlist`; the new
`stopout` is the length of this. -/
def archAnonftpOperCont (list : List ℕ) (stopin stopout : ℕ) (oper : BoolOps) (word : List UInt8)
    (casesens : ℤ) (outlist : List ℕ) : Option (ℕ × List ℕ) := do
  let kept ← archAnonftpOper getString oper word casesens (list.drop stopin)
  some (max stopin list.length, outlist.take stopout ++ kept)

end

/-- `archStartIndexConcat`. -/
def archStartIndexConcat (old new : List ℕ) : List ℕ := old ++ new

/-- `archAnonftpOperOn2Lists`: the list `res`. -/
def archAnonftpOperOn2Lists (oper : BoolOps) (old new : List ℕ) : List ℕ :=
  let old := qsort indexcompare old
  let new := qsort indexcompare new
  match oper with
  | .orOp => uniqueStarts (qsort indexcompare (old ++ new))
  | .andOp => uniqueStarts (old.filter fun start => new.contains start)
  | .notOp => uniqueStarts (old.filter fun start => !new.contains start)
  | .nullOp => uniqueStarts []

/-! ### One word -/

/-- Whether the string of a start has a word. -/
def hasWord (getString : ℕ → Option (List UInt8)) (casesens : ℤ) (word : List UInt8) (start : ℕ) :
    Bool :=
  (getString start).any (wordIn casesens word)

/-- **A word and a list**: the starts whose strings have the word, or have it not, stay. -/
theorem archAnonftpOper_eq {getString : ℕ → Option (List UInt8)} (oper : BoolOps)
    (word : List UInt8)
    (casesens : ℤ) {list : List ℕ} (h : ∀ t ∈ list, (getString t).isSome) :
    archAnonftpOper getString oper word casesens list =
      some (list.filter fun t => oper.keeps (hasWord getString casesens word t)) := by
  induction list with
  | nil => rfl
  | cons t list ih =>
    obtain ⟨res, hres⟩ := Option.isSome_iff_exists.mp (h t (by simp))
    have hword : hasWord getString casesens word t = wordIn casesens word res := by
      rw [hasWord, hres, Option.any_some]
    rw [archAnonftpOper, ih fun u hu => h u (by simp [hu]), hres]
    simp only [Option.bind_eq_bind, Option.bind_some, List.filter_cons, hword]

/-! ### Two lists -/

theorem pairwise_qsort_indexcompare (list : List ℕ) :
    (qsort indexcompare list).Pairwise (· ≤ ·) := by
  refine pairwise_qsort id ?_
  intro a _ b _
  rw [indexcompare, id, id]
  omega

/-- `unique` of a sorted list: the same starts, each once. -/
theorem uniqueStarts_spec {list : List ℕ} (h : list.Pairwise (· ≤ ·)) :
    (uniqueStarts list).Pairwise (· < ·) ∧ ∀ t, t ∈ uniqueStarts list ↔ t ∈ list := by
  cases list with
  | nil => simp [uniqueStarts]
  | cons x list =>
    have hord : (x :: list).Pairwise fun a b => a = b ∨ decide (a < b) = true := by
      refine h.imp ?_
      intro a b hab
      rw [decide_eq_true_iff]
      exact eq_or_lt_of_le hab
    rw [uniqueStarts, if_neg (by simp), uniqueKept_cons (by simp) hord]
    constructor
    · exact pairwise_squeeze (fun a b c (hab : a < b) (hbc : b ≤ c) => lt_of_lt_of_le hab hbc)
        (fun a b hab hne => lt_of_le_of_ne hab hne) h
    · intro t
      rw [mem_squeeze, List.mem_cons]

/-- The result of an operation on two lists is in ascending order. -/
theorem pairwise_archAnonftpOperOn2Lists (oper : BoolOps) (old new : List ℕ) :
    (archAnonftpOperOn2Lists oper old new).Pairwise (· < ·) := by
  cases oper with
  | nullOp => exact (uniqueStarts_spec List.Pairwise.nil).1
  | notOp => exact (uniqueStarts_spec ((pairwise_qsort_indexcompare old).filter _)).1
  | orOp => exact (uniqueStarts_spec (pairwise_qsort_indexcompare _)).1
  | andOp => exact (uniqueStarts_spec ((pairwise_qsort_indexcompare old).filter _)).1

/-- **Two lists**: the intersection, the union and the difference. -/
theorem mem_archAnonftpOperOn2Lists {old new : List ℕ} {t : ℕ} :
    (t ∈ archAnonftpOperOn2Lists .andOp old new ↔ t ∈ old ∧ t ∈ new) ∧
    (t ∈ archAnonftpOperOn2Lists .orOp old new ↔ t ∈ old ∨ t ∈ new) ∧
    (t ∈ archAnonftpOperOn2Lists .notOp old new ↔ t ∈ old ∧ t ∉ new) := by
  have hsorted := pairwise_qsort_indexcompare old
  refine ⟨?_, ?_, ?_⟩
  · rw [archAnonftpOperOn2Lists, (uniqueStarts_spec (hsorted.filter _)).2]
    simp
  · rw [archAnonftpOperOn2Lists, (uniqueStarts_spec (pairwise_qsort_indexcompare _)).2]
    simp
  · rw [archAnonftpOperOn2Lists, (uniqueStarts_spec (hsorted.filter _)).2]
    simp

end Archie
