/-
Merging sorted runs by counts.

Elements are spread over runs, each of them sorted.  An element is kept with the number of elements
of the runs before its own that lie between its predecessor and itself.  The runs are then merged
with no comparison of elements: the next one is the first element of the last run of which the
count is the number of elements that have been taken from the runs before, since an element has
been taken from it.

* `Gap` — the elements between two neighbours of a run.
* `next` — the next element, by the counts.
* `next_some`, `next_none` — it is the least one, as long as there are any.
* `merge_spec` — all elements in order.
-/
import Mathlib.Data.List.Basic
import Mathlib.Data.List.Count
import Mathlib.Order.RelClasses
import Mathlib.Tactic.Push

namespace RunMerge

open Classical

variable {α : Type*}

section Merge

variable (lt : α → α → Prop)

/-- The elements that are less than one. -/
noncomputable def below (E : List α) (y : α) : ℕ := E.countP fun x => lt x y

/-- The elements between two. -/
noncomputable def between (E : List α) (p y : α) : ℕ := E.countP fun x => lt p x ∧ lt x y

/-- The elements after one have the right counts. -/
def Counted (E : List α) : α → List (α × ℕ) → Prop
  | _, [] => True
  | p, y :: ys => y.2 = between lt E p y.1 ∧ Counted E y.1 ys

/-- A queue, with the number of elements taken from those before it; these have the elements `E`
left. -/
def Pending (E : List α) : List (α × ℕ) × ℕ → Prop
  | ([], _) => True
  | (y :: ys, out) => out + below lt E y.1 = y.2 ∧ Counted lt E y.1 ys

/-- The elements that are left. -/
def left (qs : List (List (α × ℕ) × ℕ)) : List α := qs.flatMap fun q => q.1.map Prod.fst

/-- The counts of all queues are right. -/
def AllPending : List α → List (List (α × ℕ) × ℕ) → Prop
  | _, [] => True
  | E, q :: qs => Pending lt E q ∧ AllPending (E ++ q.1.map Prod.fst) qs

/-- The first element of a queue is taken, if the count is right; one more element has then been
taken from before the other queues. -/
def takeFirst (qs : List (List (α × ℕ) × ℕ)) :
    List (α × ℕ) × ℕ → Option (α × List (List (α × ℕ) × ℕ))
  | ([], _) => none
  | (y :: ys, out) =>
    if y.2 = out then some (y.1, (ys, 0) :: qs.map fun q => (q.1, q.2 + 1)) else none

/-- The next element, and the queues after it. -/
def next : List (List (α × ℕ) × ℕ) → Option (α × List (List (α × ℕ) × ℕ))
  | [] => none
  | q :: qs =>
    match next qs with
    | some (y, qs') => some (y, q :: qs')
    | none => takeFirst qs q

/-- The elements in the order in which they are taken. -/
def merge : ℕ → List (List (α × ℕ) × ℕ) → List α
  | 0, _ => []
  | fuel + 1, qs =>
    match next qs with
    | none => []
    | some (y, qs') => y :: merge fuel qs'

end Merge

section Order

variable {lt : α → α → Prop}

theorem left_cons (q : List (α × ℕ) × ℕ) (qs : List (List (α × ℕ) × ℕ)) :
    left (q :: qs) = q.1.map Prod.fst ++ left qs := List.flatMap_cons

theorem left_map_succ (qs : List (List (α × ℕ) × ℕ)) :
    left (qs.map fun q => (q.1, q.2 + 1)) = left qs := by
  rw [left, List.flatMap_map]
  rfl

/-- Elements that are all different. -/
def Distinct (lt : α → α → Prop) (l : List α) : Prop := l.Pairwise fun x y => lt x y ∨ lt y x

/-- The queues are sorted, and all elements are different. -/
structure Sorted (lt : α → α → Prop) (E : List α) (qs : List (List (α × ℕ) × ℕ)) : Prop where
  sorted : ∀ q ∈ qs, (q.1.map Prod.fst).Pairwise lt
  distinct : Distinct lt (E ++ left qs)

theorem Distinct.total {a b : List α} (h : Distinct lt (a ++ b)) {x y : α} (hx : x ∈ a)
    (hy : y ∈ b) : lt x y ∨ lt y x :=
  (List.pairwise_append.mp h).2.2 x hx y hy

theorem Sorted.tail {E : List α} {q : List (α × ℕ) × ℕ} {qs : List (List (α × ℕ) × ℕ)}
    (h : Sorted lt E (q :: qs)) : Sorted lt (E ++ q.1.map Prod.fst) qs := by
  refine ⟨fun q' hq' => h.sorted q' (List.mem_cons_of_mem _ hq'), ?_⟩
  rw [List.append_assoc, ← left_cons]
  exact h.distinct

variable [IsStrictOrder α lt]

/-- **If no queue is ready** then a smaller element is left in front of each. -/
theorem next_none {E : List α} {qs : List (List (α × ℕ) × ℕ)} (hsorted : Sorted lt E qs)
    (h : AllPending lt E qs) (hnone : next qs = none) :
    ∀ x ∈ left qs, ∃ e ∈ E, lt e x := by
  induction qs generalizing E with
  | nil => exact fun x hx => absurd hx List.not_mem_nil
  | cons q qs ih =>
    obtain ⟨hq, hqs⟩ := h
    rw [next] at hnone
    rcases hrest : next qs with _ | ⟨y, qs'⟩
    · have hlater := ih hsorted.tail hqs hrest
      obtain ⟨queue, out⟩ := q
      have hhere : ∀ x ∈ queue.map Prod.fst, ∃ e ∈ E, lt e x := by
        rcases queue with _ | ⟨y, ys⟩
        · exact fun x hx => absurd hx List.not_mem_nil
        · rw [hrest] at hnone
          have hne : y.2 ≠ out := by
            intro heq
            dsimp only at hnone
            rw [takeFirst, if_pos heq] at hnone
            exact absurd hnone (Option.some_ne_none _)
          obtain ⟨hcount, -⟩ := hq
          obtain ⟨e, he, hlt⟩ := List.countP_pos_iff.mp
            (show 0 < below lt E y.1 by omega)
          have hey : lt e y.1 := of_decide_eq_true hlt
          intro x hx
          rw [List.map_cons, List.mem_cons] at hx
          rcases hx with rfl | hx
          · exact ⟨e, he, hey⟩
          · have hys := hsorted.sorted _ List.mem_cons_self
            rw [List.map_cons, List.pairwise_cons] at hys
            exact ⟨e, he, IsTrans.trans _ _ _ hey (hys.1 x hx)⟩
      intro x hx
      rw [left_cons] at hx
      rcases List.mem_append.mp hx with hx | hx
      · exact hhere x hx
      · obtain ⟨e, he, hlt⟩ := hlater x hx
        rcases List.mem_append.mp he with he | he
        · exact ⟨e, he, hlt⟩
        · obtain ⟨e', he', hlt'⟩ := hhere e he
          exact ⟨e', he', IsTrans.trans _ _ _ hlt' hlt⟩
    · rw [hrest] at hnone
      exact absurd hnone (Option.some_ne_none _)

/-! ### Taking the least element -/

omit [IsStrictOrder α lt] in
theorem below_remove {E₁ E₂ : List α} {e y : α} (h : lt e y) :
    below lt (E₁ ++ e :: E₂) y = below lt (E₁ ++ E₂) y + 1 := by
  rw [below, below, List.countP_append, List.countP_append, List.countP_cons,
    if_pos (by simpa using h)]
  omega

theorem between_remove {E₁ E₂ : List α} {e p y : α} (h : lt e p) :
    between lt (E₁ ++ e :: E₂) p y = between lt (E₁ ++ E₂) p y := by
  have hnot : ¬ (lt p e ∧ lt e y) := fun h' => irrefl_of lt e (IsTrans.trans _ _ _ h h'.1)
  rw [between, between, List.countP_append, List.countP_append, List.countP_cons,
    if_neg (by simpa using hnot)]
  omega

theorem Counted.remove {E₁ E₂ : List α} {e p : α} {ys : List (α × ℕ)} (hp : lt e p)
    (hys : ∀ y ∈ ys.map Prod.fst, lt e y) (h : Counted lt (E₁ ++ e :: E₂) p ys) :
    Counted lt (E₁ ++ E₂) p ys := by
  induction ys generalizing p with
  | nil => trivial
  | cons y ys ih =>
    obtain ⟨hy, hys'⟩ := List.forall_mem_cons.mp hys
    exact ⟨h.1.trans (between_remove hp), ih hy hys' h.2⟩

/-- What is left, when an element that is less than all others is taken from a queue before. -/
theorem AllPending.remove {E₁ E₂ : List α} {e : α} {qs : List (List (α × ℕ) × ℕ)}
    (hleast : ∀ x ∈ left qs, lt e x) (h : AllPending lt (E₁ ++ e :: E₂) qs) :
    AllPending lt (E₁ ++ E₂) (qs.map fun q => (q.1, q.2 + 1)) := by
  induction qs generalizing E₂ with
  | nil => trivial
  | cons q qs ih =>
    obtain ⟨hq, hqs⟩ := h
    rw [left_cons] at hleast
    refine ⟨?_, ?_⟩
    · obtain ⟨queue, out⟩ := q
      rcases queue with _ | ⟨y, ys⟩
      · trivial
      · have hy : lt e y.1 := hleast _ (List.mem_append_left _ List.mem_cons_self)
        have hys : ∀ z ∈ ys.map Prod.fst, lt e z := fun z hz =>
          hleast z (List.mem_append_left _ (List.mem_cons_of_mem _ hz))
        obtain ⟨hcount, hcounted⟩ := hq
        rw [below_remove hy] at hcount
        exact ⟨by dsimp only; omega, hcounted.remove hy hys⟩
    · rw [List.append_assoc] at hqs ⊢
      exact ih (fun x hx => hleast x (List.mem_append_right _ hx)) hqs

omit [IsStrictOrder α lt] in
theorem below_eq_zero {E : List α} {y : α} (h : below lt E y = 0) : ∀ x ∈ E, ¬ lt x y := by
  intro x hx hlt
  have hnot := List.countP_eq_zero.mp h x hx
  exact hnot (decide_eq_true hlt)

omit [IsStrictOrder α lt] in
theorem below_eq_between {E : List α} {p y : α} (h : ∀ x ∈ E, lt p x) :
    below lt E y = between lt E p y := by
  refine List.countP_congr fun x hx => ?_
  simp only [decide_eq_true_eq]
  exact ⟨fun hlt => ⟨h x hx, hlt⟩, fun hlt => hlt.2⟩

/-- **The next element** is the least one that is left. -/
theorem next_some {E : List α} {qs qs' : List (List (α × ℕ) × ℕ)} {y : α}
    (hsorted : Sorted lt E qs) (h : AllPending lt E qs) (hnext : next qs = some (y, qs')) :
    (left qs).Perm (y :: left qs') ∧ (∀ x ∈ E ++ left qs', lt y x) ∧ AllPending lt E qs' ∧
      ∀ q' ∈ qs', ∃ q ∈ qs, q'.1 <:+ q.1 := by
  induction qs generalizing E qs' with
  | nil => exact absurd hnext.symm (Option.some_ne_none _)
  | cons q qs ih =>
    obtain ⟨hq, hqs⟩ := h
    rw [next] at hnext
    rcases hrest : next qs with _ | ⟨z, qs₁⟩
    · -- The first queue is ready, and none of those behind it.
      rw [hrest] at hnext
      have hlater := next_none hsorted.tail hqs hrest
      obtain ⟨queue, out⟩ := q
      rcases queue with _ | ⟨x, xs⟩
      · exact absurd hnext.symm (Option.some_ne_none _)
      · dsimp only at hnext
        rw [takeFirst] at hnext
        split at hnext
        next hready =>
          obtain ⟨rfl, rfl⟩ := Prod.mk.inj (Option.some.inj hnext)
          obtain ⟨hcount, hcounted⟩ := hq
          have hxs := hsorted.sorted _ List.mem_cons_self
          rw [List.map_cons, List.pairwise_cons] at hxs
          have hE : ∀ e ∈ E, lt x.1 e := by
            intro e he
            have hnot := below_eq_zero (show below lt E x.1 = 0 by omega) e he
            refine (hsorted.distinct.total he ?_).resolve_left hnot
            rw [left_cons, List.map_cons]
            exact List.mem_append_left _ List.mem_cons_self
          have hbehind : ∀ z ∈ left qs, lt x.1 z := by
            intro z hz
            obtain ⟨e, he, hlt⟩ := hlater z hz
            rcases List.mem_append.mp he with he | he
            · exact IsTrans.trans _ _ _ (hE e he) hlt
            · rw [List.map_cons, List.mem_cons] at he
              rcases he with rfl | he
              · exact hlt
              · exact IsTrans.trans _ _ _ (hxs.1 e he) hlt
          refine ⟨?_, ?_, ⟨?_, ?_⟩, ?_⟩
          · rw [left_cons, left_cons, left_map_succ, List.map_cons, List.cons_append]
          · intro z hz
            rw [left_cons, left_map_succ] at hz
            rcases List.mem_append.mp hz with hz | hz
            · exact hE z hz
            · rcases List.mem_append.mp hz with hz | hz
              · exact hxs.1 z hz
              · exact hbehind z hz
          · rcases xs with _ | ⟨x', xs⟩
            · trivial
            · obtain ⟨hcount', hcounted'⟩ := hcounted
              refine ⟨?_, hcounted'⟩
              rw [Nat.zero_add, below_eq_between hE, hcount']
          · exact AllPending.remove hbehind hqs
          · intro q' hq'
            rcases List.mem_cons.mp hq' with rfl | hq'
            · exact ⟨_, List.mem_cons_self, List.suffix_cons x xs⟩
            · obtain ⟨q, hq, rfl⟩ := List.mem_map.mp hq'
              exact ⟨q, List.mem_cons_of_mem _ hq, List.suffix_refl _⟩
        next => exact absurd hnext.symm (Option.some_ne_none _)
    · -- One behind it is.
      rw [hrest] at hnext
      obtain ⟨rfl, rfl⟩ := Prod.mk.inj (Option.some.inj hnext)
      obtain ⟨hperm, hleast, hpending, hsuffix⟩ := ih hsorted.tail hqs hrest
      refine ⟨?_, ?_, ⟨hq, hpending⟩, ?_⟩
      · rw [left_cons, left_cons]
        exact (hperm.append_left _).trans List.perm_middle
      · intro x hx
        rw [left_cons, ← List.append_assoc] at hx
        exact hleast x hx
      · intro q' hq'
        rcases List.mem_cons.mp hq' with rfl | hq'
        · exact ⟨q', List.mem_cons_self, List.suffix_refl _⟩
        · obtain ⟨q'', hq'', hsuf⟩ := hsuffix q' hq'
          exact ⟨q'', List.mem_cons_of_mem _ hq'', hsuf⟩

omit [IsStrictOrder α lt] in
theorem Sorted.next {qs qs' : List (List (α × ℕ) × ℕ)} {y : α} (hsorted : Sorted lt [] qs)
    (hperm : (left qs).Perm (y :: left qs')) (hsuffix : ∀ q' ∈ qs', ∃ q ∈ qs, q'.1 <:+ q.1) :
    Sorted lt [] qs' := by
  refine ⟨fun q' hq' => ?_, ?_⟩
  · obtain ⟨q, hq, hsuf⟩ := hsuffix q' hq'
    exact (hsorted.sorted q hq).sublist (hsuf.map Prod.fst).sublist
  · have hdistinct := hsorted.distinct
    rw [List.nil_append] at hdistinct ⊢
    exact (List.pairwise_cons.mp ((hperm.pairwise_iff fun h => h.symm).mp hdistinct)).2

/-- **All elements** are taken, in order. -/
theorem merge_spec {fuel : ℕ} {qs : List (List (α × ℕ) × ℕ)} (hsorted : Sorted lt [] qs)
    (h : AllPending lt [] qs) (hfuel : (left qs).length ≤ fuel) :
    (merge fuel qs).Perm (left qs) ∧ (merge fuel qs).Pairwise lt := by
  induction fuel generalizing qs with
  | zero =>
    rw [List.eq_nil_of_length_eq_zero (Nat.le_zero.mp hfuel)]
    exact ⟨List.Perm.refl _, List.Pairwise.nil⟩
  | succ fuel ih =>
    rw [merge]
    rcases hnext : RunMerge.next qs with _ | ⟨y, qs'⟩
    · have hnone := next_none hsorted h hnext
      have hnil : left qs = [] := by
        refine List.eq_nil_iff_forall_not_mem.mpr fun x hx => ?_
        obtain ⟨e, he, -⟩ := hnone x hx
        exact absurd he List.not_mem_nil
      rw [hnil]
      exact ⟨List.Perm.refl _, List.Pairwise.nil⟩
    · obtain ⟨hperm, hleast, hpending, hsuffix⟩ := next_some hsorted h hnext
      have hlength := hperm.length_eq
      rw [List.length_cons] at hlength
      obtain ⟨hperm', hpairwise⟩ := ih (hsorted.next hperm hsuffix) hpending (by omega)
      refine ⟨(hperm'.cons y).trans hperm.symm, List.pairwise_cons.mpr ⟨fun x hx => ?_, hpairwise⟩⟩
      exact hleast x (hperm'.mem_iff.mp hx)

end Order

end RunMerge
