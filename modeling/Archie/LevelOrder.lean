/-
Tries in level order.

A forest is a list of tries.  `levelAt n ts` is the forest of the subtries that lie
`n` levels below the roots of `ts`, left to right, so that the roots of
`levelAt n [t]` are the nodes of `t` at depth `n`.

* `levelAt_append` — a forest lies below the concatenation of two others as the
  concatenation of what lies below them.
* `length_levelAt_le` — no level of a forest has more nodes than the forest has
  leaves.
* `getElem?_nextLevel` — the children of the tries of a forest, by position: two
  for every internal node on the left.
-/
import Mathlib.Algebra.GroupWithZero.Nat
import Mathlib.Logic.Function.Iterate
import Archie.Patricia

namespace Patricia

namespace Trie

variable {α : Type*}

/-- The subtries below the root. -/
def children : Trie α → List (Trie α)
  | leaf _ => []
  | node _ l r => [l, r]

/-- The subtries below the roots of a forest. -/
def nextLevel (ts : List (Trie α)) : List (Trie α) := ts.flatMap children

/-- The subtries `n` levels below the roots of a forest. -/
def levelAt (n : ℕ) (ts : List (Trie α)) : List (Trie α) := nextLevel^[n] ts

/-- Whether the root is an internal node. -/
def isNode : Trie α → Bool
  | leaf _ => false
  | node _ _ _ => true

/-- The number of levels. -/
def height : Trie α → ℕ
  | leaf _ => 1
  | node _ l r => 1 + max l.height r.height

@[simp] theorem nextLevel_nil : nextLevel ([] : List (Trie α)) = [] := rfl

@[simp] theorem nextLevel_append (ts us : List (Trie α)) :
    nextLevel (ts ++ us) = nextLevel ts ++ nextLevel us := List.flatMap_append

theorem nextLevel_cons (t : Trie α) (ts : List (Trie α)) :
    nextLevel (t :: ts) = t.children ++ nextLevel ts := List.flatMap_cons

@[simp] theorem levelAt_zero (ts : List (Trie α)) : levelAt 0 ts = ts := rfl

theorem levelAt_succ (n : ℕ) (ts : List (Trie α)) : levelAt (n + 1) ts = nextLevel (levelAt n ts) :=
  Function.iterate_succ_apply' nextLevel n ts

theorem levelAt_succ' (n : ℕ) (ts : List (Trie α)) :
    levelAt (n + 1) ts = levelAt n (nextLevel ts) :=
  Function.iterate_succ_apply nextLevel n ts

theorem levelAt_add (m n : ℕ) (ts : List (Trie α)) :
    levelAt (m + n) ts = levelAt m (levelAt n ts) :=
  Function.iterate_add_apply nextLevel m n ts

@[simp] theorem levelAt_nil (n : ℕ) : levelAt n ([] : List (Trie α)) = [] := by
  induction n with
  | zero => rfl
  | succ n ih => rw [levelAt_succ, ih, nextLevel_nil]

@[simp] theorem levelAt_append (n : ℕ) (ts us : List (Trie α)) :
    levelAt n (ts ++ us) = levelAt n ts ++ levelAt n us := by
  induction n with
  | zero => rfl
  | succ n ih => rw [levelAt_succ, levelAt_succ, levelAt_succ, ih, nextLevel_append]

/-- Nothing lies below an empty level. -/
theorem levelAt_eq_nil_of_le {m n : ℕ} {ts : List (Trie α)} (h : levelAt m ts = []) (hmn : m ≤ n) :
    levelAt n ts = [] := by
  obtain ⟨k, rfl⟩ := Nat.exists_eq_add_of_le' hmn
  rw [levelAt_add, h, levelAt_nil]

/-! ### Sizes -/

/-- Two children for each internal node. -/
theorem length_nextLevel (ts : List (Trie α)) :
    (nextLevel ts).length = 2 * ts.countP isNode := by
  induction ts with
  | nil => rfl
  | cons t ts ih =>
    rw [nextLevel_cons, List.length_append, List.countP_cons, ih]
    cases t with
    | leaf a => simp [children, isNode]
    | node s l r =>
      simp only [children, List.length_cons, List.length_nil, isNode, if_pos]
      omega

/-- The number of leaves of a forest. -/
def leafCount (ts : List (Trie α)) : ℕ := (ts.map fun t => t.leaves.length).sum

theorem length_le_leafCount (ts : List (Trie α)) : ts.length ≤ leafCount ts := by
  induction ts with
  | nil => exact Nat.zero_le _
  | cons t ts ih =>
    have ht := List.length_pos_of_ne_nil (leaves_ne_nil t)
    simp only [leafCount, List.map_cons, List.sum_cons, List.length_cons] at ih ⊢
    omega

theorem leafCount_nextLevel_le (ts : List (Trie α)) : leafCount (nextLevel ts) ≤ leafCount ts := by
  induction ts with
  | nil => exact le_refl _
  | cons t ts ih =>
    rw [nextLevel_cons]
    simp only [leafCount, List.map_append, List.sum_append, List.map_cons, List.sum_cons] at ih ⊢
    have ht : (t.children.map fun t => t.leaves.length).sum ≤ t.leaves.length := by
      cases t with
      | leaf a => exact Nat.zero_le _
      | node s l r => simp [children, leaves]
    omega

/-- **No level has more nodes than the forest has leaves.** -/
theorem length_levelAt_le (n : ℕ) (ts : List (Trie α)) : (levelAt n ts).length ≤ leafCount ts := by
  have hle : leafCount (levelAt n ts) ≤ leafCount ts := by
    induction n with
    | zero => exact le_refl _
    | succ n ih =>
      rw [levelAt_succ]
      exact le_trans (leafCount_nextLevel_le _) ih
  exact le_trans (length_le_leafCount _) hle

/-- A binary trie has one internal node less than it has leaves. -/
theorem size_add_one (t : Trie α) : t.size + 1 = 2 * t.leaves.length := by
  induction t with
  | leaf a => rfl
  | node s l r ihl ihr =>
    rw [size, leaves, List.length_append]
    omega

/-- The number of nodes of a forest. -/
def nodeCount (ts : List (Trie α)) : ℕ := (ts.map size).sum

/-- The roots of a forest and the nodes below them. -/
theorem nodeCount_eq (ts : List (Trie α)) :
    nodeCount ts = ts.length + nodeCount (nextLevel ts) := by
  induction ts with
  | nil => rfl
  | cons t ts ih =>
    rw [nextLevel_cons]
    simp only [nodeCount, List.map_append, List.sum_append, List.map_cons, List.sum_cons,
      List.length_cons] at ih ⊢
    cases t with
    | leaf a =>
      simp only [size, children, List.map_nil, List.sum_nil]
      omega
    | node s l r =>
      simp only [size, children, List.map_cons, List.map_nil, List.sum_cons, List.sum_nil]
      omega

theorem nodeCount_levelAt_le (n : ℕ) (ts : List (Trie α)) :
    nodeCount (levelAt n ts) ≤ nodeCount ts := by
  induction n with
  | zero => exact le_refl _
  | succ n ih =>
    have h := nodeCount_eq (levelAt n ts)
    rw [← levelAt_succ] at h
    omega

/-! ### Heights -/

theorem height_pos (t : Trie α) : 0 < t.height := by
  cases t with
  | leaf a => exact Nat.one_pos
  | node s l r =>
    rw [height]
    omega

theorem levelAt_eq_nil_of_height (n : ℕ) (ts : List (Trie α)) (h : ∀ t ∈ ts, t.height ≤ n) :
    levelAt n ts = [] := by
  induction n generalizing ts with
  | zero =>
    cases ts with
    | nil => rfl
    | cons t ts =>
      have ht := h t List.mem_cons_self
      have hpos := height_pos t
      omega
  | succ n ih =>
    rw [levelAt_succ']
    refine ih _ fun c hc => ?_
    obtain ⟨t, ht, hc⟩ := List.mem_flatMap.mp hc
    have hle := h t ht
    cases t with
    | leaf a => exact absurd hc List.not_mem_nil
    | node s l r =>
      rw [height] at hle
      rw [children, List.mem_cons, List.mem_singleton] at hc
      obtain rfl | rfl := hc <;> omega

theorem levelAt_singleton_eq_nil {t : Trie α} {n : ℕ} (h : t.height ≤ n) : levelAt n [t] = [] := by
  refine levelAt_eq_nil_of_height n [t] fun x hx => ?_
  rwa [List.mem_singleton.mp hx]

theorem levelAt_ne_nil_of_lt_height {n : ℕ} {t : Trie α} (h : n < t.height) :
    levelAt n [t] ≠ [] := by
  induction n generalizing t with
  | zero => exact List.cons_ne_nil _ _
  | succ n ih =>
    cases t with
    | leaf a =>
      rw [height] at h
      omega
    | node s l r =>
      rw [height] at h
      rw [levelAt_succ', nextLevel_cons, nextLevel_nil, List.append_nil, children,
        ← List.singleton_append, levelAt_append]
      intro hnil
      obtain ⟨hl, hr⟩ := List.append_eq_nil_iff.mp hnil
      by_cases hlt : n < l.height
      · exact ih hlt hl
      · exact ih (show n < r.height by omega) hr

/-! ### Positions -/

/-- **The children of the tries of a forest, by position.** -/
theorem getElem?_nextLevel {ts : List (Trie α)} {i : ℕ} {s : ℕ} {l r : Trie α}
    (h : ts[i]? = some (node s l r)) :
    (nextLevel ts)[2 * (ts.take i).countP isNode]? = some l ∧
    (nextLevel ts)[2 * (ts.take i).countP isNode + 1]? = some r := by
  obtain ⟨hi, ht⟩ := List.getElem?_eq_some_iff.mp h
  have hsplit : ts = ts.take i ++ node s l r :: ts.drop (i + 1) := by
    rw [← ht, ← List.drop_eq_getElem_cons hi, List.take_append_drop]
  have hnext : nextLevel ts = nextLevel (ts.take i) ++ l :: r :: nextLevel (ts.drop (i + 1)) := by
    conv_lhs => rw [hsplit]
    rw [nextLevel_append, nextLevel_cons]
    rfl
  rw [hnext, ← length_nextLevel]
  constructor
  · rw [List.getElem?_append_right (le_refl _), Nat.sub_self]
    rfl
  · rw [List.getElem?_append_right (by omega), Nat.add_sub_cancel_left]
    rfl

end Trie

end Patricia
