/-
Lists in memory: nodes that are told apart by their addresses, with a pointer from each to
the next one.

* `Seg` — the nodes from one pointer on up to another one.
* `Seg.append_iff`, `Seg.congr`, `Seg.set_last` — how segments are put together, kept and cut.
* `walk`, `walk_eq` — following the pointers gives the nodes.
* `IsList` — a list whose first node points back to the last one.
-/
import Mathlib.Data.List.Basic
import Mathlib.Logic.Function.Basic
import Mathlib.Order.Lattice

namespace Archie

section

variable {ι : Type*} {next next' : ι → Option ι} {p q r : Option ι} {a : ι} {l l₁ l₂ : List ι}

/-- From `p` on the pointers lead along the nodes of a list, and then to `q`. -/
def Seg (next : ι → Option ι) (p : Option ι) : List ι → Option ι → Prop
  | [], q => p = q
  | a :: l, q => p = some a ∧ Seg next (next a) l q

theorem seg_cons : Seg next p (a :: l) q ↔ p = some a ∧ Seg next (next a) l q := Iff.rfl

/-- A segment may be divided. -/
theorem Seg.append_iff : Seg next p (l₁ ++ l₂) q ↔ ∃ m, Seg next p l₁ m ∧ Seg next m l₂ q := by
  induction l₁ generalizing p with
  | nil =>
    constructor
    · intro h
      exact ⟨p, rfl, h⟩
    · rintro ⟨m, rfl, h⟩
      exact h
  | cons a l ih =>
    rw [List.cons_append, seg_cons, ih]
    constructor
    · rintro ⟨hp, m, hl, hm⟩
      exact ⟨m, ⟨hp, hl⟩, hm⟩
    · rintro ⟨m, ⟨hp, hl⟩, hm⟩
      exact ⟨hp, m, hl, hm⟩

/-- Only the pointers of its own nodes matter to a segment. -/
theorem Seg.congr (h : Seg next p l q) (hnext : ∀ a ∈ l, next' a = next a) : Seg next' p l q := by
  induction l generalizing p with
  | nil => exact h
  | cons a l ih =>
    refine ⟨h.1, ?_⟩
    rw [hnext a List.mem_cons_self]
    exact ih h.2 fun b hb => hnext b (List.mem_cons_of_mem a hb)

/-- The beginning of a segment is its first node. -/
theorem Seg.head? (h : Seg next p l none) : p = l.head? := by
  cases l with
  | nil => exact h
  | cons a l => exact h.1

/-- A segment that goes on after its first node. -/
theorem Seg.uncons {c b : ι} (h : Seg next (some c) (b :: (l ++ [a])) q) :
    c = b ∧ ∃ d ∈ (l ++ [a]).head?, next c = some d ∧ Seg next (some d) (l ++ [a]) q := by
  obtain ⟨hc, hl⟩ := h
  obtain rfl : c = b := Option.some.inj hc
  cases l with
  | nil => exact ⟨rfl, a, rfl, hl.1, rfl, hl.2⟩
  | cons d l => exact ⟨rfl, d, rfl, hl.1, rfl, hl.2⟩

/-- The last node may be made to lead elsewhere. -/
theorem Seg.set_last (h : Seg next p (l ++ [a]) q) (hnext : ∀ b ∈ l, next' b = next b)
    (ha : next' a = r) :
    Seg next' p (l ++ [a]) r := by
  obtain ⟨m, hl, hm⟩ := Seg.append_iff.mp h
  exact Seg.append_iff.mpr ⟨m, hl.congr hnext, hm.1, ha⟩

/-- Following the pointers for some steps. -/
def walk (next : ι → Option ι) : ℕ → Option ι → List ι
  | _, none => []
  | 0, some _ => []
  | n + 1, some a => a :: walk next n (next a)

/-- With enough steps this gives all nodes. -/
theorem walk_eq (h : Seg next p l none) {n : ℕ} (hn : l.length ≤ n) : walk next n p = l := by
  induction l generalizing p n with
  | nil =>
    obtain rfl : p = none := h
    cases n <;> rfl
  | cons a l ih =>
    obtain ⟨rfl, hl⟩ := h
    obtain ⟨n, rfl⟩ : ∃ m, n = m + 1 := ⟨n - 1, by rw [List.length_cons] at hn; omega⟩
    rw [walk, ih hl (by rw [List.length_cons] at hn; omega)]

/-- There is one list from a pointer on. -/
theorem Seg.unique (h₁ : Seg next p l₁ none) (h₂ : Seg next p l₂ none) : l₁ = l₂ := by
  rw [← walk_eq h₁ (le_max_left l₁.length l₂.length), walk_eq h₂ (le_max_right _ _)]

/-! ### Lists that know their last node -/

variable {prev prev' : ι → Option ι}

/-- A list that ends, and whose first node points back to the last one. -/
structure IsList (next prev : ι → Option ι) (p : Option ι) (l : List ι) : Prop where
  seg : Seg next p l none
  tail : ∀ a ∈ l.head?, prev a = l.getLast?

theorem isList_nil : IsList next prev none [] := ⟨rfl, fun _ h => absurd h (by simp)⟩

theorem IsList.congr (h : IsList next prev p l) (hnext : ∀ a ∈ l, next' a = next a)
    (hprev : ∀ a ∈ l.head?, prev' a = prev a) : IsList next' prev' p l :=
  ⟨h.seg.congr hnext, fun a ha => (hprev a ha).trans (h.tail a ha)⟩

theorem IsList.head? (h : IsList next prev p l) : p = l.head? := h.seg.head?

end

end Archie
