/-
The trie of an infix sequence (`levels.c`).

The infix file has the starts of a trie, left to right, negated, and between two of them the height
of the node that they are on the two sides of.  A 0 is before the first and behind the last.

* `Separated` — between two equal heights there is a smaller one.
* `splitTrie` — the trie, by splitting the sequence at its least height.
* `splits_splitTrie` — at every node all of the heights on the two sides are greater.
-/
import Mathlib.Data.List.GetD
import Mathlib.Data.List.TakeWhile
import Archie.LevelOrder

namespace Archie.Levels

open Patricia

/-- Between any two equal heights there is a smaller one. -/
def Separated (heights : List ℕ) : Prop :=
  ∀ j < heights.length, ∀ i < j, heights.getD i 0 = heights.getD j 0 →
    ∃ k < j, i < k ∧ heights.getD k 0 < heights.getD j 0

instance (heights : List ℕ) : Decidable (Separated heights) :=
  inferInstanceAs (Decidable (∀ j < heights.length, ∀ i < j,
    heights.getD i 0 = heights.getD j 0 → ∃ k < j, i < k ∧ heights.getD k 0 < heights.getD j 0))

/-- The trie of a start and the heights and starts that follow it.  Skips are counted from a height,
and there are no more nodes than the first argument on a path. -/
def splitTrie : ℕ → ℕ → ℕ → List (ℕ × ℕ) → Trie ℕ
  | 0, _, start, _ => .leaf start
  | depth + 1, below, start, rest =>
    match (rest.map Prod.fst).min? with
    | none => .leaf start
    | some height =>
      match rest.dropWhile fun p => height < p.1 with
      | [] => .leaf start
      | p :: right =>
        .node (height - below)
          (splitTrie depth (height + 1) start (rest.takeWhile fun p => height < p.1))
          (splitTrie depth (height + 1) p.2 right)

/-- The trie of an infix sequence. -/
def infixTrie (start : ℕ) (rest : List (ℕ × ℕ)) : Trie ℕ := splitTrie rest.length 0 start rest

/-- The starts and heights as they are in the infix file. -/
def infixBody (start : ℕ) (rest : List (ℕ × ℕ)) : List ℤ :=
  -(start : ℤ) :: rest.flatMap fun p => [(p.1 : ℤ), -(p.2 : ℤ)]

/-- The infix file. -/
def infixFile (start : ℕ) (rest : List (ℕ × ℕ)) : List ℤ := 0 :: (infixBody start rest ++ [0])

/-- A trie whose skips are counted from a height, and its sequence. -/
inductive Splits : ℕ → ℕ → List (ℕ × ℕ) → Trie ℕ → Prop
  | leaf (below start : ℕ) : Splits below start [] (.leaf start)
  | node {below start start' height : ℕ} {left right : List (ℕ × ℕ)} {l r : Trie ℕ} :
      below ≤ height → (∀ p ∈ left, height < p.1) → (∀ p ∈ right, height < p.1) →
      Splits (height + 1) start left l → Splits (height + 1) start' right r →
      Splits below start (left ++ (height, start') :: right) (.node (height - below) l r)

/-! ### Splitting -/

/-- A part of a sequence. -/
theorem Separated.middle {a hs b : List ℕ} (h : Separated (a ++ hs ++ b)) : Separated hs := by
  have hget (i : ℕ) (hi : i < hs.length) : (a ++ hs ++ b).getD (a.length + i) 0 = hs.getD i 0 := by
    rw [List.append_assoc, List.getD_append_right _ _ _ _ (by omega), Nat.add_sub_cancel_left,
      List.getD_append _ _ _ _ hi]
  intro j hj i hi heq
  rw [← hget i (by omega), ← hget j hj] at heq
  obtain ⟨k, hk, hik, hlt⟩ := h (a.length + j)
    (by rw [List.length_append, List.length_append]; omega) (a.length + i) (by omega) heq
  obtain ⟨k', rfl⟩ := Nat.exists_eq_add_of_le (show a.length ≤ k by omega)
  refine ⟨k', by omega, by omega, ?_⟩
  rwa [hget k' (by omega), hget j hj] at hlt

/-- The least height is there once. -/
theorem Separated.lt_right {a b : List ℕ} {height : ℕ} (h : Separated (a ++ height :: b))
    (hleast : ∀ x ∈ b, height ≤ x) : ∀ x ∈ b, height < x := by
  have hget (i : ℕ) : (a ++ height :: b).getD (a.length + 1 + i) 0 = b.getD i 0 := by
    rw [List.getD_append_right _ _ _ _ (by omega),
      show a.length + 1 + i - a.length = i + 1 by omega]
    rfl
  have hfirst : (a ++ height :: b).getD a.length 0 = height := by
    rw [List.getD_append_right _ _ _ _ (Nat.le_refl _), Nat.sub_self]
    rfl
  intro x hx
  refine lt_of_le_of_ne (hleast x hx) fun heq => ?_
  obtain ⟨i, hi, hxi⟩ := List.mem_iff_getElem.mp hx
  have hj : b.getD i 0 = x := by rw [List.getD_eq_getElem _ _ hi, hxi]
  obtain ⟨k, hk, hlt, hsmall⟩ := h (a.length + 1 + i)
    (by rw [List.length_append, List.length_cons]; omega) a.length (by omega)
    (by rw [hfirst, hget, hj, heq])
  obtain ⟨k', rfl⟩ := Nat.exists_eq_add_of_le (show a.length + 1 ≤ k by omega)
  rw [hget, hget, hj, List.getD_eq_getElem _ _ (show k' < b.length by omega)] at hsmall
  have hle := hleast _ (List.getElem_mem (show k' < b.length by omega))
  omega

/-- **The trie of a sequence** has greater heights below every node. -/
theorem splits_splitTrie {depth below start : ℕ} {rest : List (ℕ × ℕ)}
    (hdepth : rest.length ≤ depth) (hsep : Separated (rest.map Prod.fst))
    (hbelow : ∀ p ∈ rest, below ≤ p.1) :
    Splits below start rest (splitTrie depth below start rest) := by
  induction depth generalizing below start rest with
  | zero =>
    rw [List.eq_nil_of_length_eq_zero (Nat.le_zero.mp hdepth)]
    exact .leaf below start
  | succ depth ih =>
    rw [splitTrie]
    rcases hmin : (rest.map Prod.fst).min? with _ | height
    · rw [List.min?_eq_none_iff, List.map_eq_nil_iff] at hmin
      rw [hmin]
      exact .leaf below start
    · obtain ⟨hmem, hleast⟩ := List.min?_eq_some_iff.mp hmin
      obtain ⟨p, hp, hheight⟩ := List.mem_map.mp hmem
      have hsplit :=
        List.takeWhile_append_dropWhile (p := fun p => decide (height < p.1)) (l := rest)
      have hleft : ∀ q ∈ rest.takeWhile fun p => height < p.1, height < q.1 := by
        intro q hq
        have hlt := List.mem_takeWhile_imp hq
        exact of_decide_eq_true hlt
      rcases hdrop : rest.dropWhile fun p => height < p.1 with _ | ⟨q, right⟩
      · rw [hdrop, List.append_nil] at hsplit
        rw [← hsplit] at hp
        have hlt := hleft p hp
        omega
      · rw [hdrop] at hsplit
        have hq : q.1 = height := by
          have hle := hleast q.1 (List.mem_map_of_mem (hsplit ▸ List.mem_append_right _
            List.mem_cons_self))
          have hnot := List.head_dropWhile_not (fun p : ℕ × ℕ => decide (height < p.1)) (l := rest)
            (by rw [hdrop]; exact List.cons_ne_nil _ _)
          simp only [hdrop, List.head_cons, decide_eq_false_iff_not] at hnot
          omega
        obtain ⟨height', start'⟩ := q
        obtain rfl : height' = height := hq
        dsimp only
        rw [hdrop]
        dsimp only
        generalize rest.takeWhile (fun p => decide (height' < p.1)) = left at *
        subst hsplit
        rw [List.length_append, List.length_cons] at hdepth
        rw [List.map_append, List.map_cons] at hsep hleast
        have hright : ∀ q ∈ right, height' < q.1 := fun q hq => hsep.lt_right
          (fun x hx => hleast x (List.mem_append_right _ (List.mem_cons_of_mem _ hx))) q.1
          (List.mem_map_of_mem hq)
        refine .node (hbelow _ (List.mem_append_right _ List.mem_cons_self)) hleft hright
          (ih (by omega) ?_ hleft) (ih (by omega) ?_ hright)
        · exact Separated.middle (a := []) hsep
        · rw [List.append_cons, ← List.append_nil (_ ++ _)] at hsep
          exact hsep.middle

/-- The trie of an infix sequence splits it. -/
theorem splits_infixTrie {start : ℕ} {rest : List (ℕ × ℕ)} (hsep : Separated (rest.map Prod.fst)) :
    Splits 0 start rest (infixTrie start rest) :=
  splits_splitTrie (Nat.le_refl _) hsep fun _ _ => Nat.zero_le _

end Archie.Levels
