/-
Binary tries that store the positions at which keys branch (PATRICIA tries).

Keys are infinite bit strings.  An internal node stores the number of bits that
are skipped before the one it tests; at depth `d` it tests bit `d + skip`.

* `Trie.Correct` — leaves below a node agree before the tested bit and are split
  by it.
* `Trie.pairwise_leaves` — the leaves of a correct trie are in strict
  lexicographic order.
* `Trie.blind` — the descent for a prefix, which looks at the tested bits only.
* `Trie.filter_leaves_blind` — no leaf with the prefix is lost by the descent.
* `Trie.agree_blind` — the leaves below the subtrie reached agree on the prefix,
  so the first of them decides for all.
-/
import Mathlib.Data.List.Basic
import Mathlib.Data.Nat.Init
import Mathlib.Order.Nat

namespace Patricia

/-- A binary trie with a value in each leaf. -/
inductive Trie (α : Type*)
  | leaf (a : α)
  | node (skip : ℕ) (left right : Trie α)
  deriving DecidableEq, Repr

/-- Two bit strings with the same first `n` bits. -/
def Agree (n : ℕ) (x y : ℕ → Bool) : Prop := ∀ i < n, x i = y i

theorem Agree.symm {n : ℕ} {x y : ℕ → Bool} (h : Agree n x y) : Agree n y x :=
  fun i hi => (h i hi).symm

theorem Agree.trans {n : ℕ} {x y z : ℕ → Bool} (h : Agree n x y) (h' : Agree n y z) :
    Agree n x z :=
  fun i hi => (h i hi).trans (h' i hi)

theorem Agree.mono {m n : ℕ} {x y : ℕ → Bool} (h : Agree n x y) (hm : m ≤ n) : Agree m x y :=
  fun i hi => h i (lt_of_lt_of_le hi hm)

/-- Lexicographic order: the first bit that differs is set on the right. -/
def LexLt (x y : ℕ → Bool) : Prop := ∃ b, Agree b x y ∧ x b = false ∧ y b = true

namespace Trie

variable {α : Type*}

/-- The leaves, left to right. -/
def leaves : Trie α → List α
  | leaf a => [a]
  | node _ l r => l.leaves ++ r.leaves

/-- The number of nodes. -/
def size : Trie α → ℕ
  | leaf _ => 1
  | node _ l r => 1 + l.size + r.size

/-- The trie with other values in its leaves. -/
def map {β : Type*} (f : α → β) : Trie α → Trie β
  | leaf a => leaf (f a)
  | node skip l r => node skip (l.map f) (r.map f)

/-- The trie with a longer skip at its root. -/
def addSkip (n : ℕ) : Trie α → Trie α
  | leaf a => leaf a
  | node skip l r => node (skip + n) l r

theorem leaves_ne_nil (t : Trie α) : t.leaves ≠ [] := by
  induction t with
  | leaf a => exact List.cons_ne_nil a []
  | node skip l r ihl ihr => exact List.append_ne_nil_of_left_ne_nil ihl _

theorem size_pos (t : Trie α) : 0 < t.size := by
  cases t with
  | leaf a => exact Nat.one_pos
  | node skip l r =>
    rw [size]
    omega

section Correct

variable (bits : α → ℕ → Bool)

/-- A trie at depth `d` that branches where its leaves first differ. -/
def Correct : ℕ → Trie α → Prop
  | _, leaf _ => True
  | d, node skip l r =>
    (∀ x ∈ l.leaves ++ r.leaves, ∀ y ∈ l.leaves ++ r.leaves,
      Agree (d + skip) (bits x) (bits y)) ∧
    (∀ x ∈ l.leaves, bits x (d + skip) = false) ∧ (∀ x ∈ r.leaves, bits x (d + skip) = true) ∧
    Correct (d + skip + 1) l ∧ Correct (d + skip + 1) r

variable {bits}

/-- **The leaves of a correct trie are in strict lexicographic order.** -/
theorem pairwise_leaves {d : ℕ} {t : Trie α} (h : t.Correct bits d) :
    t.leaves.Pairwise fun x y => LexLt (bits x) (bits y) := by
  induction t generalizing d with
  | leaf a => exact List.pairwise_singleton _ a
  | node skip l r ihl ihr =>
    obtain ⟨hagree, hl, hr, hcl, hcr⟩ := h
    rw [leaves, List.pairwise_append]
    refine ⟨ihl hcl, ihr hcr, ?_⟩
    intro x hx y hy
    exact ⟨d + skip, hagree x (List.mem_append_left _ hx) y (List.mem_append_right _ hy),
      hl x hx, hr y hy⟩

/-- The subtrie reached from depth `d` with the first `n` bits of `k`: each
tested bit below `n` selects a child. -/
def blind (k : ℕ → Bool) (n : ℕ) : ℕ → Trie α → Trie α
  | _, leaf a => leaf a
  | d, node skip l r =>
    if n ≤ d + skip then node skip l r
    else if k (d + skip) then blind k n (d + skip + 1) r
    else blind k n (d + skip + 1) l

theorem blind_subset {k : ℕ → Bool} {n d : ℕ} {t : Trie α} {x : α}
    (hx : x ∈ (t.blind k n d).leaves) : x ∈ t.leaves := by
  induction t generalizing d with
  | leaf a => exact hx
  | node skip l r ihl ihr =>
    rw [blind] at hx
    split at hx
    · exact hx
    · split at hx
      · exact List.mem_append_right _ (ihr hx)
      · exact List.mem_append_left _ (ihl hx)

theorem size_blind_le (k : ℕ → Bool) (n d : ℕ) (t : Trie α) : (t.blind k n d).size ≤ t.size := by
  induction t generalizing d with
  | leaf a => exact le_refl _
  | node skip l r ihl ihr =>
    rw [blind]
    split
    · exact le_refl _
    · split
      · exact le_trans (ihr _) (by rw [size]; omega)
      · exact le_trans (ihl _) (by rw [size]; omega)

/-- The leaves below the subtrie reached agree on the whole prefix. -/
theorem agree_blind {k : ℕ → Bool} {n d : ℕ} {t : Trie α} (h : t.Correct bits d) {x y : α}
    (hx : x ∈ (t.blind k n d).leaves) (hy : y ∈ (t.blind k n d).leaves) :
    Agree n (bits x) (bits y) := by
  induction t generalizing d with
  | leaf a =>
    rw [List.mem_singleton.mp hx, List.mem_singleton.mp hy]
    exact fun i hi => rfl
  | node skip l r ihl ihr =>
    obtain ⟨hagree, -, -, hcl, hcr⟩ := h
    rw [blind] at hx hy
    split at hx
    next hn =>
      rw [if_pos hn] at hy
      exact (hagree x hx y hy).mono hn
    next hn =>
      rw [if_neg hn] at hy
      split at hx
      next hk =>
        rw [if_pos hk] at hy
        exact ihr hcr hx hy
      next hk =>
        rw [if_neg hk] at hy
        exact ihl hcl hx hy

/-- No leaf that has the prefix is lost by the descent, which keeps the order. -/
theorem filter_leaves_blind {k : ℕ → Bool} {n d : ℕ} {t : Trie α} (h : t.Correct bits d)
    (p : α → Bool) (hp : ∀ x ∈ t.leaves, p x = true → Agree n (bits x) k) :
    (t.blind k n d).leaves.filter p = t.leaves.filter p := by
  induction t generalizing d with
  | leaf a => rfl
  | node skip l r ihl ihr =>
    obtain ⟨-, hl, hr, hcl, hcr⟩ := h
    have hpl : ∀ x ∈ l.leaves, p x = true → Agree n (bits x) k :=
      fun x hx => hp x (List.mem_append_left _ hx)
    have hpr : ∀ x ∈ r.leaves, p x = true → Agree n (bits x) k :=
      fun x hx => hp x (List.mem_append_right _ hx)
    rw [blind, leaves, List.filter_append]
    split
    next => rw [leaves, List.filter_append]
    next hn =>
      split
      next hk =>
        -- the tested bit of the prefix is set, that of the leaves on the left is not
        have hnil : l.leaves.filter p = [] := by
          rw [List.filter_eq_nil_iff]
          intro x hx hpx
          have hbit := hpl x hx hpx (d + skip) (by omega)
          rw [hl x hx, hk] at hbit
          contradiction
        rw [hnil, List.nil_append, ihr hcr hpr]
      next hk =>
        have hnil : r.leaves.filter p = [] := by
          rw [List.filter_eq_nil_iff]
          intro x hx hpx
          have hbit := hpr x hx hpx (d + skip) (by omega)
          rw [hr x hx] at hbit
          exact hk hbit.symm
        rw [hnil, List.append_nil, ihl hcl hpl]

end Correct

end Trie

end Patricia
