/-
The removal of dot segments from a path.

A path is a row of segments, three of which are special: the one that stays where it is, the one
that climbs to the parent, and the empty one.  The last segment leaves an empty one if it is one of
the first two.

* `climb_of_plain` — a path without these two stays as it is.
* `climb_climb` — nothing is left to remove.
-/
import Mathlib.Data.List.Basic

namespace Archie

variable {σ : Type*} [DecidableEq σ] (dot up empty : σ)

/-- The segments that are kept, after those of the stack, the last of which comes first. -/
def climb : List σ → List σ → List σ
  | stack, [] => stack.reverse
  | stack, [s] =>
    (if s = dot then empty :: stack else if s = up then empty :: stack.tail else s :: stack).reverse
  | stack, s :: s' :: segs =>
    if s = dot then climb stack (s' :: segs)
    else if s = up then climb stack.tail (s' :: segs)
    else climb (s :: stack) (s' :: segs)

/-- A segment that is not special. -/
def Plain (s : σ) : Prop := s ≠ dot ∧ s ≠ up

variable {dot up empty}

theorem climb_plain_cons {s : σ} (h : Plain dot up s) (stack segs : List σ) :
    climb dot up empty stack (s :: segs) = climb dot up empty (s :: stack) segs := by
  cases segs with
  | nil => rw [climb, climb, if_neg h.1, if_neg h.2]
  | cons s' segs => rw [climb, if_neg h.1, if_neg h.2]

theorem climb_of_plain {segs : List σ} (h : ∀ s ∈ segs, Plain dot up s) (stack : List σ) :
    climb dot up empty stack segs = stack.reverse ++ segs := by
  induction segs generalizing stack with
  | nil => rw [climb, List.append_nil]
  | cons s segs ih =>
    rw [climb_plain_cons (h s (by simp)), ih fun t ht => h t (by simp [ht]), List.reverse_cons,
      List.append_assoc, List.singleton_append]

/-- What the plain segments have in common, with the empty one and those of the stack, the kept
ones have. -/
theorem forall_mem_climb {P : σ → Prop} (hempty : P empty) {stack segs : List σ}
    (hstack : ∀ s ∈ stack, P s) (hsegs : ∀ s ∈ segs, Plain dot up s → P s) :
    ∀ s ∈ climb dot up empty stack segs, P s := by
  have htail : ∀ {stack : List σ}, (∀ s ∈ stack, P s) → ∀ s ∈ stack.tail, P s := fun h s hs =>
    h s (List.mem_of_mem_tail hs)
  have hcons : ∀ {s : σ} {stack : List σ}, P s → (∀ t ∈ stack, P t) → ∀ t ∈ s :: stack, P t :=
    fun hs hstack t ht => by
      rcases List.mem_cons.mp ht with rfl | ht
      · exact hs
      · exact hstack t ht
  induction stack, segs using climb.induct dot up with
  | case1 stack => simpa [climb] using hstack
  | case2 stack s =>
    intro t ht
    rw [climb, List.mem_reverse] at ht
    split at ht
    · exact hcons hempty hstack t ht
    · split at ht
      · exact hcons hempty (htail hstack) t ht
      next hdot hup => exact hcons (hsegs s (by simp) ⟨hdot, hup⟩) hstack t ht
  | case3 stack s' segs ih =>
    rw [climb, if_pos rfl]
    exact ih hstack fun t ht => hsegs t (List.mem_cons_of_mem _ ht)
  | case4 stack s' segs hne ih =>
    rw [climb, if_neg hne, if_pos rfl]
    exact ih (htail hstack) fun t ht => hsegs t (List.mem_cons_of_mem _ ht)
  | case5 stack s s' segs hdot hup ih =>
    rw [climb, if_neg hdot, if_neg hup]
    exact ih (hcons (hsegs s (by simp) ⟨hdot, hup⟩) hstack) fun t ht =>
      hsegs t (List.mem_cons_of_mem _ ht)

/-- The kept segments are plain. -/
theorem plain_of_mem_climb (hempty : Plain dot up empty) (segs : List σ) :
    ∀ s ∈ climb dot up empty [] segs, Plain dot up s :=
  forall_mem_climb hempty (by simp) fun _ _ h => h

/-- A second removal finds nothing. -/
theorem climb_climb (hempty : Plain dot up empty) (segs : List σ) :
    climb dot up empty [] (climb dot up empty [] segs) = climb dot up empty [] segs := by
  rw [climb_of_plain (plain_of_mem_climb hempty segs), List.reverse_nil, List.nil_append]

theorem climb_ne_nil {segs : List σ} (h : segs ≠ []) (stack : List σ) :
    climb dot up empty stack segs ≠ [] := by
  induction stack, segs using climb.induct dot up with
  | case1 stack => exact absurd rfl h
  | case2 stack s =>
    rw [climb]
    split
    · simp
    · split <;> simp
  | case3 stack s' segs ih =>
    rw [climb, if_pos rfl]
    exact ih (by simp)
  | case4 stack s' segs hne ih =>
    rw [climb, if_neg hne, if_pos rfl]
    exact ih (by simp)
  | case5 stack s s' segs hdot hup ih =>
    rw [climb, if_neg hdot, if_neg hup]
    exact ih (by simp)

end Archie
