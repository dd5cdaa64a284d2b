/-
Regular expressions as egrep reads them.

* `Regex.Matches` — what a regular expression matches between two parts of a line.
* `Spells` — the regular expression that a text is.
* `Regex.matches_row_iff` — a row of characters.
-/
import Mathlib.Data.List.Basic
import Mathlib.Data.List.Forall2

namespace Archie

/-! ### What they match -/

inductive Regex (α : Type*)
  | empty
  | set (chars : α → Bool)
  | lineStart
  | lineEnd
  | cat (e f : Regex α)
  | alt (e f : Regex α)
  | star (e : Regex α)

namespace Regex

variable {α : Type*}

/-- `e.Matches l m r`: in the line `l ++ m ++ r`, the part `m` is matched. -/
inductive Matches : Regex α → List α → List α → List α → Prop
  | empty {l r} : Matches .empty l [] r
  | set {chars : α → Bool} {c l r} (h : chars c = true) : Matches (.set chars) l [c] r
  | lineStart {r} : Matches .lineStart [] [] r
  | lineEnd {l} : Matches .lineEnd l [] []
  | cat {e f l m m' r} (he : Matches e l m (m' ++ r)) (hf : Matches f (l ++ m) m' r) :
      Matches (.cat e f) l (m ++ m') r
  | altLeft {e f l m r} (he : Matches e l m r) : Matches (.alt e f) l m r
  | altRight {e f l m r} (hf : Matches f l m r) : Matches (.alt e f) l m r
  | starNil {e l r} : Matches (.star e) l [] r
  | starCons {e l m m' r} (he : Matches e l m (m' ++ r)) (hs : Matches (.star e) (l ++ m) m' r) :
      Matches (.star e) l (m ++ m') r

/-- Once or more. -/
def plus (e : Regex α) : Regex α := .cat e (.star e)

/-- Once or not at all. -/
def opt (e : Regex α) : Regex α := .alt e .empty

/-- It matches somewhere in a line. -/
def Found (e : Regex α) (t : List α) : Prop := ∃ l m r, t = l ++ m ++ r ∧ e.Matches l m r

/-- `opt`, some number of times. -/
def opts : ℕ → Regex α → Regex α
  | 0, e => e
  | k + 1, e => opt (opts k e)

/-- One after the other. -/
def seq : List (Regex α) → Regex α
  | [] => .empty
  | e :: es => .cat e (seq es)

theorem matches_empty_iff {l m r : List α} : (empty : Regex α).Matches l m r ↔ m = [] := by
  constructor
  · intro h
    cases h
    rfl
  · rintro rfl
    exact .empty

theorem matches_set_iff {chars : α → Bool} {l m r : List α} :
    (set chars).Matches l m r ↔ ∃ c, chars c = true ∧ m = [c] := by
  constructor
  · intro h
    cases h with
    | set hc => exact ⟨_, hc, rfl⟩
  · rintro ⟨c, hc, rfl⟩
    exact .set hc

theorem matches_cat_iff {e f : Regex α} {l m r : List α} :
    (cat e f).Matches l m r ↔
      ∃ m₁ m₂, m = m₁ ++ m₂ ∧ e.Matches l m₁ (m₂ ++ r) ∧ f.Matches (l ++ m₁) m₂ r := by
  constructor
  · intro h
    cases h with
    | cat he hf => exact ⟨_, _, rfl, he, hf⟩
  · rintro ⟨m₁, m₂, rfl, he, hf⟩
    exact .cat he hf

theorem Matches.opts {e : Regex α} {l m r : List α} (h : e.Matches l m r) (k : ℕ) :
    (opts k e).Matches l m r := by
  induction k with
  | zero => exact h
  | succ k ih => exact .altLeft ih

/-- Each of a row of sets matches one character. -/
theorem matches_row_iff (rows : List (α → Bool)) (l m r : List α) :
    (seq (rows.map .set)).Matches l m r ↔ List.Forall₂ (fun chars c => chars c = true) rows m := by
  induction rows generalizing l m with
  | nil => simpa [seq] using matches_empty_iff
  | cons chars rows ih =>
    rw [List.map_cons, seq, matches_cat_iff]
    constructor
    · rintro ⟨m₁, m₂, rfl, he, hf⟩
      obtain ⟨c, hc, rfl⟩ := matches_set_iff.mp he
      exact .cons hc ((ih _ _).mp hf)
    · intro h
      cases h with
      | cons hc h => exact ⟨[_], _, rfl, .set hc, (ih _ _).mpr h⟩

/-- What a sequence matches, if each part matches wherever it stands. -/
theorem matches_seq {es : List (Regex α)} {ms : List (List α)}
    (h : List.Forall₂ (fun e m => ∀ l r, e.Matches l m r) es ms) (l r : List α) :
    (seq es).Matches l ms.flatten r := by
  induction h generalizing l with
  | nil => exact .empty
  | cons he _ ih => exact .cat (he _ _) (ih _)

end Regex

/-! ### How they are written -/

/-- The characters that stand for others than themselves: `$()*+.?[\^|`, and those that end a line. -/
def operators : List UInt8 := [0, 10, 36, 40, 41, 42, 43, 46, 63, 91, 92, 94, 124]

/-- A character is between brackets, or in a range `x-y` there. -/
def inBrackets : List UInt8 → UInt8 → Bool
  | [], _ => false
  | x :: s, c =>
    match s with
    | 45 :: y :: s => (x ≤ c && c ≤ y) || inBrackets s c
    | s => c == x || inBrackets s c

/-- The parts of a regular expression, from the closest that binds. -/
inductive Level
  | atom
  | piece
  | branch
  | whole

/-- The text of a regular expression. -/
inductive Spells : Level → List UInt8 → Regex UInt8 → Prop
  | char {c} (hc : c ∉ operators) : Spells .atom [c] (.set (· == c))
  | escape {c} (hc : c ≠ 0 ∧ c ≠ 10) : Spells .atom [92, c] (.set (· == c))
  | any : Spells .atom [46] (.set (· != 10))
  | lineStart : Spells .atom [94] .lineStart
  | lineEnd : Spells .atom [36] .lineEnd
  -- a `]` that comes first stands for itself
  | brackets {x s} (hx : x ∉ [0, 10, 94]) (hs : ∀ c ∈ s, c ∉ [0, 10, 93]) :
      Spells .atom (91 :: x :: (s ++ [93])) (.set (inBrackets (x :: s)))
  | complement {x s} (hx : x ∉ [0, 10]) (hs : ∀ c ∈ s, c ∉ [0, 10, 93]) :
      Spells .atom (91 :: 94 :: x :: (s ++ [93])) (.set fun c => !inBrackets (x :: s) c && c != 10)
  | group {s e} (h : Spells .whole s e) : Spells .atom (40 :: (s ++ [41])) e
  | atom {s e} (h : Spells .atom s e) : Spells .piece s e
  | star {s e} (h : Spells .piece s e) : Spells .piece (s ++ [42]) e.star
  | plus {s e} (h : Spells .piece s e) : Spells .piece (s ++ [43]) e.plus
  | opt {s e} (h : Spells .piece s e) : Spells .piece (s ++ [63]) e.opt
  | nil : Spells .branch [] .empty
  | cons {s s' e e'} (h : Spells .piece s e) (h' : Spells .branch s' e') : Spells .branch (s ++ s') (.cat e e')
  | branch {s e} (h : Spells .branch s e) : Spells .whole s e
  -- a line feed separates two alternatives as `|` does
  | alt {s s' e e' c} (h : Spells .branch s e) (hc : c = 124 ∨ c = 10) (h' : Spells .whole s' e') :
      Spells .whole (s ++ c :: s') (.alt e e')

end Archie
