/-
Memory that grows by doubling (`clients/telnet/rmem.c`).

* `Rmem`, `Rmem.append` — a row of elements with the room for it.
* `Heap` — such rows at addresses; a row that grows moves.
* `Heap.append_eq` — the row is longer by the element, and the others are as they were.
-/
import Mathlib.Data.Int.Notation
import Mathlib.Data.List.Basic

namespace Archie

/-- `Rmem`: the elements up to `index`, and the number of those for which there is room. -/
structure Rmem (α : Type*) where
  mem : List α
  elts : ℕ
  fits : mem.length ≤ elts

namespace Rmem

variable {α : Type*}

/-- `rmalloc_`. -/
def malloc (α : Type*) (nitems : ℕ) : Rmem α := ⟨[], nitems, Nat.zero_le nitems⟩

/-- `last_index_`. -/
def lastIndex (r : Rmem α) : ℤ := (r.mem.length : ℤ) - 1

theorem fits_doubled (r : Rmem α) (data : α) :
    (r.mem ++ [data]).length ≤ 2 * if r.elts = 0 then 1 else r.elts := by
  have := r.fits
  rw [List.length_append, List.length_singleton]
  split <;> omega

/-- `rappend_`. -/
def append (r : Rmem α) (data : α) : Rmem α :=
  if h : r.mem.length < r.elts then ⟨r.mem ++ [data], r.elts, by
    rw [List.length_append]; exact h⟩
  else ⟨r.mem ++ [data], 2 * if r.elts = 0 then 1 else r.elts, fits_doubled r data⟩

@[simp] theorem mem_malloc (nitems : ℕ) : (malloc α nitems).mem = [] := rfl

@[simp] theorem mem_append (r : Rmem α) (data : α) : (r.append data).mem = r.mem ++ [data] := by
  rw [append]
  split <;> rfl

end Rmem

/-! ### Rows at addresses -/

/-- The rows that were allocated, in the order of their addresses; none, if they are freed. -/
abbrev Heap (α : Type*) := List (Option (Rmem α))

namespace Heap

variable {α : Type*}

/-- The row at an address. -/
def rowAt (h : Heap α) (a : ℕ) : Option (Rmem α) := (h[a]?).join

/-- `rmalloc_`: the memory, and the address. -/
def malloc (h : Heap α) (nitems : ℕ) : Heap α × ℕ := (h ++ [some (Rmem.malloc α nitems)], h.length)

/-- `rappend_`: the memory, and the address at which the row is now; none, if there is no row. -/
def append (h : Heap α) (a : ℕ) (data : α) : Option (Heap α × ℕ) := do
  let r ← h.rowAt a
  if r.mem.length < r.elts then return (h.set a (some (r.append data)), a)
  else
    -- `realloc` may move the row, and then frees the old one.
    return (h.set a none ++ [some (r.append data)], h.length)

/-- `rfree_`; none, if there is no row. -/
def free (h : Heap α) (a : ℕ) : Option (Heap α) := (h.rowAt a).map fun _ => h.set a none

/-- A row with these elements is at the address. -/
def Holds (h : Heap α) (a : ℕ) (mem : List α) : Prop := ∃ r, h.rowAt a = some r ∧ r.mem = mem

theorem Holds.lt_length {h : Heap α} {a : ℕ} {mem : List α} (hold : h.Holds a mem) :
    a < h.length := by
  obtain ⟨r, hr, -⟩ := hold
  rw [rowAt, Option.join_eq_some_iff] at hr
  exact (List.getElem?_eq_some_iff.mp hr).1

theorem rowAt_append_left {h : Heap α} {x : Option (Rmem α)} {a : ℕ} (ha : a < h.length) :
    rowAt (h ++ [x]) a = h.rowAt a := by
  rw [rowAt, List.getElem?_append_left ha, rowAt]

theorem rowAt_append_length (h : Heap α) (x : Option (Rmem α)) :
    rowAt (h ++ [x]) h.length = x := by
  rw [rowAt, List.getElem?_concat_length]
  rfl

theorem rowAt_set {h : Heap α} {a b : ℕ} {x : Option (Rmem α)} (ha : a < h.length) :
    rowAt (h.set a x) b = if b = a then x else h.rowAt b := by
  rw [rowAt]
  split
  next heq =>
    subst heq
    rw [List.getElem?_set_self ha]
    rfl
  next hne => rw [List.getElem?_set_ne (Ne.symm hne), rowAt]

theorem malloc_holds (h : Heap α) (nitems : ℕ) : (h.malloc nitems).1.Holds (h.malloc nitems).2 [] :=
  ⟨_, rowAt_append_length h _, rfl⟩

/-- An allocation leaves the other rows as they were. -/
theorem malloc_frame {h : Heap α} {b : ℕ} {mem : List α} (hold : h.Holds b mem) (nitems : ℕ) :
    (h.malloc nitems).1.Holds b mem ∧ b ≠ (h.malloc nitems).2 := by
  have hlt := hold.lt_length
  obtain ⟨r, hr, hmem⟩ := hold
  refine ⟨⟨r, ?_, hmem⟩, Nat.ne_of_lt hlt⟩
  show rowAt (h ++ _) b = _
  rw [rowAt_append_left hlt, hr]

/-- **An element is appended**, and the other rows are left as they were. -/
theorem append_eq {h : Heap α} {a : ℕ} {mem : List α} (hold : h.Holds a mem) (data : α) :
    ∃ h' a', h.append a data = some (h', a') ∧ h'.Holds a' (mem ++ [data]) ∧
      ∀ b mem', b ≠ a → h.Holds b mem' → h'.Holds b mem' ∧ b ≠ a' := by
  have halt := hold.lt_length
  obtain ⟨r, hr, rfl⟩ := hold
  by_cases hroom : r.mem.length < r.elts
  · refine ⟨h.set a (some (r.append data)), a, ?_, ⟨r.append data, ?_, r.mem_append data⟩, ?_⟩
    · simp [append, hr, hroom]
    · rw [rowAt_set halt, if_pos rfl]
    · rintro b mem' hba ⟨q, hq, hmem⟩
      exact ⟨⟨q, by rw [rowAt_set halt, if_neg hba, hq], hmem⟩, hba⟩
  · refine ⟨h.set a none ++ [some (r.append data)], h.length, ?_,
      ⟨r.append data, ?_, r.mem_append data⟩, ?_⟩
    · simp [append, hr, hroom]
    · have hlen : (h.set a none).length = h.length := List.length_set
      rw [← hlen, rowAt_append_length]
    · intro b mem' hba hold
      have hblt := hold.lt_length
      obtain ⟨q, hq, hmem⟩ := hold
      refine ⟨⟨q, ?_, hmem⟩, Nat.ne_of_lt hblt⟩
      rw [rowAt_append_left (by rwa [List.length_set]), rowAt_set halt, if_neg hba, hq]

/-- A row is freed, and the others are left as they were. -/
theorem free_eq {h : Heap α} {a : ℕ} {mem : List α} (hold : h.Holds a mem) :
    ∃ h', h.free a = some h' ∧ ∀ b mem', b ≠ a → h.Holds b mem' → h'.Holds b mem' := by
  have halt := hold.lt_length
  obtain ⟨r, hr, rfl⟩ := hold
  refine ⟨h.set a none, by rw [free, hr, Option.map_some], ?_⟩
  rintro b mem' hba ⟨q, hq, hmem⟩
  exact ⟨q, by rw [rowAt_set halt, if_neg hba, hq], hmem⟩

end Heap

end Archie
