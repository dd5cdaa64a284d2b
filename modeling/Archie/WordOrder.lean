/-
The order in which the words of a group are searched for (`parse_boolean_query` of `get-info.c`).

The places of the words are inserted into an array by two loops: one for a word that is longer
than all before it, and one for the others.

* `orderWords` — the loops of the source.
* `OrderState.Holds.step` — what one word does to the array.
* `orderWords_spec` — the words are permuted, the longest first.
-/
import Mathlib.Data.List.GetD
import Mathlib.Data.List.Induction
import Mathlib.Data.List.Sort

namespace Archie

/-! ### The loops -/

section

-- `l[i]`, the length of a word.
variable (l : ℕ → ℕ)

/-- `for( k=ok-1 ; k>=0 && k<(num-1) ; k-- ) ordered[k+1] = ordered[k];` -/
def moveAll (num : ℕ) : ℕ → List ℕ → List ℕ
  | 0, ordered => ordered
  | k + 1, ordered =>
    if k + 1 < num then moveAll num k (ordered.set (k + 1) (ordered.getD k 0)) else ordered

/-- `for(k=0;k<ok && l[ordered[k]]>length;k++);`, with `ok - k` rounds left. -/
def findPlace (ordered : List ℕ) (length : ℕ) : ℕ → ℕ → ℕ
  | 0, k => k
  | n + 1, k => if length < l (ordered.getD k 0) then findPlace ordered length n (k + 1) else k

/-- `for(;k<=ok;k++){ val = ordered[k]; ordered[k] = tmp; tmp = val; }`, with the rounds left. -/
def moveFrom : ℕ → ℕ → ℕ → List ℕ → List ℕ
  | 0, _, _, ordered => ordered
  | n + 1, k, tmp, ordered => moveFrom n (k + 1) (ordered.getD k 0) (ordered.set k tmp)

/-- The array and the counters of the loop over the words. -/
structure OrderState where
  ordered : List ℕ
  ok : ℕ
  max : ℕ
  deriving DecidableEq, Repr

/-- The round for the word `j`. -/
def orderStep (num : ℕ) (s : OrderState) (j : ℕ) : OrderState :=
  let length := l j
  if s.max < length then ⟨(moveAll num s.ok s.ordered).set 0 j, s.ok + 1, length⟩
  else
    let k := findPlace l s.ordered length s.ok 0
    ⟨moveFrom (s.ok + 1 - k) k j s.ordered, s.ok + 1, s.max⟩

/-- The array `ordered` in the end; `cells` is what it holds before. -/
def orderLoop (num : ℕ) (cells : ℕ → ℕ) : OrderState :=
  (List.range num).foldl (orderStep l num) ⟨(List.range num).map cells, 0, 0⟩

end

/-- The words of a group, as `nwords` has them. -/
def orderWords {α : Type*} (cells : ℕ → ℕ) (lwords : List (List α)) : List (List α) :=
  let s := orderLoop (fun j => (lwords.getD j []).length) lwords.length cells
  (List.range lwords.length).map fun j => lwords.getD (s.ordered.getD j 0) []

/-! ### What each loop does -/

theorem moveAll_set (num : ℕ) (a : List ℕ) (x j : ℕ) (rest : List ℕ) (hlen : a.length < num) :
    (moveAll num a.length (a ++ x :: rest)).set 0 j = j :: a ++ rest := by
  induction a using List.reverseRecOn generalizing x rest with
  | nil => rfl
  | append_singleton a y ih =>
    rw [List.length_append, List.length_singleton] at hlen ⊢
    -- the last place moves one cell up, and those before it follow
    have hget : (a ++ [y] ++ x :: rest).getD a.length 0 = y := by simp
    have hset : (a ++ [y] ++ x :: rest).set (a.length + 1) y = a ++ y :: y :: rest := by
      rw [List.set_append_right _ _ (by simp)]
      simp
    rw [moveAll, if_pos hlen, hget, hset, ih y (y :: rest) (by omega)]
    simp

theorem findPlace_eq (l : ℕ → ℕ) (length : ℕ) (pre mid rest : List ℕ) :
    findPlace l (pre ++ mid ++ rest) length mid.length pre.length =
      pre.length + (mid.takeWhile fun i => decide (length < l i)).length := by
  induction mid generalizing pre with
  | nil => rfl
  | cons y mid ih =>
    have hget : (pre ++ y :: mid ++ rest).getD pre.length 0 = y := by simp
    rw [List.length_cons, findPlace, hget]
    split_ifs with hlt
    · have h := ih (pre ++ [y])
      rw [List.append_assoc pre, List.singleton_append, List.length_append,
        List.length_singleton] at h
      rw [h, List.takeWhile_cons_of_pos (by simpa using hlt), List.length_cons]
      omega
    · rw [List.takeWhile_cons_of_neg (by simpa using hlt)]
      rfl

theorem moveFrom_eq (pre mid : List ℕ) (x tmp : ℕ) (rest : List ℕ) :
    moveFrom (mid.length + 1) pre.length tmp (pre ++ mid ++ x :: rest) = pre ++ tmp :: mid ++
      rest := by
  induction mid generalizing pre tmp with
  | nil => simp [moveFrom]
  | cons y mid ih =>
    have hget : (pre ++ y :: mid ++ x :: rest).getD pre.length 0 = y := by simp
    have hset : (pre ++ y :: mid ++ x :: rest).set pre.length tmp = pre ++ [tmp] ++ mid ++
        x :: rest := by simp
    rw [List.length_cons, moveFrom, hget, hset]
    have h := ih (pre ++ [tmp]) y
    rw [List.length_append, List.length_singleton] at h
    rw [h]
    simp

/-! ### The order -/

variable (l : ℕ → ℕ)

/-- The places of the words before `j`, the longest first. -/
def placesBefore (j : ℕ) : List ℕ :=
  (List.range j).foldl (fun places i => places.orderedInsert (fun a b => l b ≤ l a) i) []

theorem placesBefore_succ (j : ℕ) :
    placesBefore l (j + 1) = (placesBefore l j).orderedInsert (fun a b => l b ≤ l a) j := by
  rw [placesBefore, List.range_succ, List.foldl_append]
  rfl

theorem placesBefore_perm (j : ℕ) : (placesBefore l j).Perm (List.range j) := by
  induction j with
  | zero => exact List.Perm.nil
  | succ j ih =>
    rw [placesBefore_succ, List.range_succ]
    exact (List.perm_orderedInsert _ _ _).trans
      ((ih.cons j).trans (List.perm_append_singleton _ _).symm)

theorem placesBefore_pairwise (j : ℕ) : (placesBefore l j).Pairwise fun a b => l b ≤ l a := by
  have htotal : Std.Total fun a b => l b ≤ l a := ⟨fun a b => le_total _ _⟩
  have htrans : IsTrans ℕ fun a b => l b ≤ l a := ⟨fun a b c hab hbc => hbc.trans hab⟩
  induction j with
  | zero => exact List.Pairwise.nil
  | succ j ih =>
    rw [placesBefore_succ]
    exact List.Pairwise.orderedInsert j _ ih

/-- The array holds the places of the words before `j`, and what it held before. -/
structure OrderState.Holds (num : ℕ) (cells : ℕ → ℕ) (j : ℕ) (s : OrderState) : Prop where
  ordered : s.ordered = placesBefore l j ++ ((List.range num).map cells).drop j
  ok : s.ok = j
  max : ∀ i ∈ placesBefore l j, l i ≤ s.max

/-- The round for a word inserts its place.  It reads and writes no cell after the first `num`. -/
theorem OrderState.Holds.step {num : ℕ} {cells : ℕ → ℕ} {j : ℕ} {s : OrderState}
    (h : s.Holds l num cells j)
    (hj : j < num) : (orderStep l num s j).Holds l num cells (j + 1) := by
  obtain ⟨x, hx⟩ : ∃ x,
      ((List.range num).map cells).drop j = x :: ((List.range num).map cells).drop (j + 1) :=
    ⟨_, List.drop_eq_getElem_cons (by simpa using hj)⟩
  have hlen : (placesBefore l j).length = j := by
    rw [(placesBefore_perm l j).length_eq, List.length_range]
  have hmem : ∀ i ∈ placesBefore l (j + 1), i = j ∨ i ∈ placesBefore l j := by
    intro i hi
    rwa [placesBefore_succ, List.mem_orderedInsert] at hi
  rw [orderStep]
  split_ifs with hlt
  · refine ⟨?_, ?_, ?_⟩
    · -- the word is longer than all before it
      have hfirst : placesBefore l (j + 1) = j :: placesBefore l j := by
        rw [placesBefore_succ, List.orderedInsert_eq_take_drop]
        match hp : placesBefore l j with
        | [] => rfl
        | y :: ys =>
          have hy : l y ≤ l j := (h.max y (by rw [hp]; exact List.mem_cons_self)).trans hlt.le
          simp [hy]
      have hmove := moveAll_set num (placesBefore l j) x j
          (((List.range num).map cells).drop (j + 1)) (by omega)
      rw [hlen] at hmove
      show (moveAll num s.ok s.ordered).set 0 j = _
      rw [h.ordered, h.ok, hx, hmove, hfirst]
    · show s.ok + 1 = j + 1
      rw [h.ok]
    · intro i hi
      rcases hmem i hi with rfl | hi
      · exact le_rfl
      · exact (h.max i hi).trans hlt.le
  · refine ⟨?_, ?_, ?_⟩
    · have hfind := findPlace_eq l (l j) [] (placesBefore l j) (((List.range num).map cells).drop j)
      rw [List.nil_append, List.length_nil, hlen, Nat.zero_add] at hfind
      have hnot : (fun i => decide (l j < l i)) = fun i => decide ¬ l i ≤ l j := by
        funext i
        simp
      show moveFrom _ _ _ s.ordered = _
      rw [h.ordered, h.ok, hfind, hnot]
      set before := (placesBefore l j).takeWhile fun i => decide ¬ l i ≤ l j with hbefore
      set after := (placesBefore l j).dropWhile fun i => decide ¬ l i ≤ l j with hafter
      have hsplit : placesBefore l j = before ++ after := List.takeWhile_append_dropWhile.symm
      have hrounds : j + 1 - before.length = after.length + 1 := by
        have := congrArg List.length hsplit
        rw [List.length_append, hlen] at this
        omega
      have hnext : placesBefore l (j + 1) = before ++ j :: after := by
        rw [placesBefore_succ, List.orderedInsert_eq_take_drop, hbefore, hafter]
      rw [hrounds, hsplit, hx, moveFrom_eq, hnext]
    · show s.ok + 1 = j + 1
      rw [h.ok]
    · intro i hi
      rcases hmem i hi with rfl | hi
      · exact not_lt.mp hlt
      · exact h.max i hi

theorem orderLoop_holds (num : ℕ) (cells : ℕ → ℕ) :
    (orderLoop l num cells).Holds l num cells num := by
  have hrun : ∀ j ≤ num,
      ((List.range j).foldl (orderStep l num) ⟨(List.range num).map cells, 0, 0⟩).Holds l num
      cells j := by
    intro j hj
    induction j with
    | zero => exact ⟨rfl, rfl, by simp [placesBefore]⟩
    | succ j ih =>
      rw [List.range_succ, List.foldl_append]
      exact (ih (by omega)).step l hj
  exact hrun num le_rfl

/-- The words are permuted, the longest first. -/
theorem orderWords_spec {α : Type*} (cells : ℕ → ℕ) (lwords : List (List α)) :
    (orderWords cells lwords).Perm lwords ∧
      (orderWords cells lwords).Pairwise fun a b => b.length ≤ a.length := by
  have hloop := (orderLoop_holds (fun j => (lwords.getD j []).length) lwords.length cells).ordered
  set places := placesBefore (fun j => (lwords.getD j []).length) lwords.length with hplaces
  have hlen : places.length = lwords.length := by
    rw [hplaces, (placesBefore_perm _ _).length_eq, List.length_range]
  rw [List.drop_eq_nil_of_le (by simp), List.append_nil] at hloop
  -- the words are those at the places
  have hwords : orderWords cells lwords = places.map fun i => lwords.getD i [] := by
    refine List.ext_getElem (by simp [orderWords, hlen]) ?_
    intro n hn hn'
    simp only [orderWords, hloop, List.getElem_map, List.getElem_range]
    rw [List.getD_eq_getElem places 0 (by simpa using hn')]
  rw [hwords]
  constructor
  · have hall : (List.range lwords.length).map (fun i => lwords.getD i []) = lwords := by
      refine List.ext_getElem (by simp) ?_
      intro n hn hn'
      simp [hn']
    have hperm := (placesBefore_perm
        (fun j => (lwords.getD j []).length) lwords.length).map fun i => lwords.getD i []
    rwa [hall] at hperm
  · rw [List.pairwise_map]
    exact placesBefore_pairwise _ _

end Archie
