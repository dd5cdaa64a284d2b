/-
A text is one regular expression at most.

* `LexState.scan` — where a character of a text stands: how deep in parentheses, in brackets, or
  after a `\`.
* `Spells.scan` — a regular expression ends where it began.
* `piece_split` — the first piece of a branch.
* `Spells.unique` — the regular expression that a text is.
-/
import Mathlib.Data.Int.Notation
import Mathlib.Order.Basic
import Archie.Egrep

namespace Archie

/-! ### Where a character stands -/

/-- Before a character that stands for itself or is an operator, after a `\`, or in brackets. -/
inductive LexMode
  | normal
  | escaped
  | opened
  | complemented
  | inside
  deriving DecidableEq

/-- How deep in parentheses, and in which mode. -/
structure LexState where
  depth : ℤ
  mode : LexMode
  deriving DecidableEq

namespace LexState

def step (st : LexState) (c : UInt8) : LexState :=
  match st.mode with
  | .normal =>
    if c = 92 then { st with mode := .escaped }
    else if c = 91 then { st with mode := .opened }
    else if c = 40 then { st with depth := st.depth + 1 }
    else if c = 41 then { st with depth := st.depth - 1 }
    else st
  | .escaped => { st with mode := .normal }
  | .opened => { st with mode := if c = 94 then .complemented else .inside }
  | .complemented => { st with mode := .inside }
  | .inside => { st with mode := if c = 93 then .normal else .inside }

def scan (st : LexState) (s : List UInt8) : LexState := s.foldl step st

@[simp] theorem scan_nil (st : LexState) : st.scan [] = st := rfl

@[simp] theorem scan_cons (st : LexState) (c : UInt8) (s : List UInt8) :
    st.scan (c :: s) = (st.step c).scan s := rfl

@[simp] theorem scan_append (st : LexState) (s t : List UInt8) :
    st.scan (s ++ t) = (st.scan s).scan t := List.foldl_append

/-- A character that stands for itself, or an operator that is no bracket. -/
theorem step_plain (d : ℤ) {c : UInt8} (h : c ≠ 92 ∧ c ≠ 91 ∧ c ≠ 40 ∧ c ≠ 41) :
    (⟨d, .normal⟩ : LexState).step c = ⟨d, .normal⟩ := by
  rw [step]
  simp only [if_neg h.1, if_neg h.2.1, if_neg h.2.2.1, if_neg h.2.2.2]

/-- Within brackets, up to the `]`. -/
theorem scan_inside (d : ℤ) {s : List UInt8} (hs : 93 ∉ s) :
    (⟨d, .inside⟩ : LexState).scan s = ⟨d, .inside⟩ := by
  induction s with
  | nil => rfl
  | cons c s ih =>
    obtain ⟨hc, hs⟩ := List.ne_and_not_mem_of_not_mem_cons hs
    rw [scan_cons, step]
    simp only [if_neg (Ne.symm hc)]
    exact ih hs

end LexState

/-- Outside of all parentheses. -/
def outermost : LexState := ⟨0, .normal⟩

theorem not_bracket_of_not_operator {c : UInt8} (hc : c ∉ operators) :
    c ≠ 92 ∧ c ≠ 91 ∧ c ≠ 40 ∧ c ≠ 41 := by
  have hne : ∀ d ∈ operators, c ≠ d := fun d hd h => hc (h ▸ hd)
  exact ⟨hne 92 (by decide), hne 91 (by decide), hne 40 (by decide), hne 41 (by decide)⟩

/-- A regular expression ends where it began. -/
theorem Spells.scan {lvl : Level} {s : List UInt8} {e : Regex UInt8} (h : Spells lvl s e) (d : ℤ) :
    (⟨d, .normal⟩ : LexState).scan s = ⟨d, .normal⟩ := by
  induction h generalizing d with
  | char hc => exact LexState.step_plain d (not_bracket_of_not_operator hc)
  | escape | any | lineStart | lineEnd | nil => rfl
  | @brackets x s hx hs =>
    have hx94 : x ≠ 94 := fun h => hx (by rw [h]; decide)
    have hs93 : 93 ∉ s := fun h => hs 93 h (by decide)
    show ((⟨d, if x = 94 then .complemented else .inside⟩ : LexState).scan (s ++ [93])) = _
    rw [if_neg hx94, LexState.scan_append, LexState.scan_inside d hs93]
    rfl
  | @complement x s hx hs =>
    have hs93 : 93 ∉ s := fun h => hs 93 h (by decide)
    show ((⟨d, .inside⟩ : LexState).scan (s ++ [93])) = _
    rw [LexState.scan_append, LexState.scan_inside d hs93]
    rfl
  | @group s e h ih =>
    show ((⟨d + 1, .normal⟩ : LexState).scan (s ++ [41])) = _
    rw [LexState.scan_append, ih]
    show (⟨d + 1 - 1, .normal⟩ : LexState) = _
    rw [Int.add_sub_cancel]
  | atom h ih | branch h ih => exact ih d
  | star h ih | plus h ih | opt h ih =>
    rw [LexState.scan_append, ih]
    rfl
  | cons h h' ih ih' => rw [LexState.scan_append, ih, ih']
  | alt h hc h' ih ih' =>
    rw [LexState.scan_append, ih, LexState.scan_cons, LexState.step_plain d, ih']
    rcases hc with rfl | rfl <;> decide

/-- A part of a text from its beginning on, where the text has two parts. -/
theorem append_cases {s t p q : List UInt8} (h : s ++ t = p ++ q) :
    (∃ u, s = p ++ u ∧ q = u ++ t) ∨ ∃ v, p = s ++ v ∧ t = v ++ q := by
  rcases List.append_eq_append_iff.mp h with ⟨v, hp, ht⟩ | ⟨u, hs, hq⟩
  · exact Or.inr ⟨v, hp, ht⟩
  · exact Or.inl ⟨u, hs, hq⟩

/-- A proper part of a text with one more character is a part of the text. -/
theorem append_cases_concat {s p q : List UInt8} {c : UInt8} (h : s ++ [c] = p ++ q) (hq : q ≠ []) :
    ∃ u, s = p ++ u := by
  rcases append_cases h with ⟨u, hs, -⟩ | ⟨v, rfl, hv⟩
  · exact ⟨u, hs⟩
  · cases v with
    | nil => exact ⟨[], by rw [List.append_nil, List.append_nil]⟩
    | cons c' v =>
      obtain ⟨-, hnil⟩ := List.cons.inj hv
      exact absurd (List.append_eq_nil_iff.mp hnil.symm).2 hq

/-- No part of a text from its beginning on is less deep. -/
def Above (d : ℤ) (s : List UInt8) : Prop :=
  ∀ p q, s = p ++ q → d ≤ ((⟨d, .normal⟩ : LexState).scan p).depth

/-- Each part of a text from its beginning on is deeper, or is not before a character. -/
def Enclosed (d : ℤ) (s : List UInt8) : Prop :=
  ∀ p q, s = p ++ q → p ≠ [] → q ≠ [] →
    ((⟨d, .normal⟩ : LexState).scan p).mode ≠ .normal ∧
        d ≤ ((⟨d, .normal⟩ : LexState).scan p).depth ∨
      d < ((⟨d, .normal⟩ : LexState).scan p).depth

theorem Enclosed.above {d : ℤ} {s : List UInt8} (h : Enclosed d s)
    (hscan : (⟨d, .normal⟩ : LexState).scan s = ⟨d, .normal⟩) : Above d s := by
  intro p q hpq
  rcases eq_or_ne p [] with rfl | hp
  · exact Int.le_refl d
  rcases eq_or_ne q [] with rfl | hq
  · refine Int.le_of_eq ?_
    rw [← List.append_nil p, ← hpq, hscan]
  · rcases h p q hpq hp hq with h | h
    · exact h.2
    · exact Int.le_of_lt h

theorem above_nil (d : ℤ) : Above d [] := by
  intro p q hpq
  rw [(List.append_eq_nil_iff.mp hpq.symm).1]
  exact Int.le_refl d

theorem enclosed_single (d : ℤ) (c : UInt8) : Enclosed d [c] := by
  intro p q hpq hp hq
  obtain ⟨u, hu⟩ := append_cases_concat (s := []) hpq hq
  exact absurd (List.append_eq_nil_iff.mp hu.symm).1 hp

theorem Above.append {d : ℤ} {s t : List UInt8} (hs : Above d s) (ht : Above d t)
    (hscan : (⟨d, .normal⟩ : LexState).scan s = ⟨d, .normal⟩) : Above d (s ++ t) := by
  intro p q hpq
  rcases append_cases hpq with ⟨u, hu, -⟩ | ⟨v, rfl, hv⟩
  · exact hs p u hu
  · rw [LexState.scan_append, hscan]
    exact ht v q hv

theorem enclosed_escape (d : ℤ) (c : UInt8) : Enclosed d [92, c] := by
  intro p q hpq hp hq
  obtain ⟨u, hu⟩ := append_cases_concat (s := [92]) hpq hq
  cases p with
  | nil => exact absurd rfl hp
  | cons c' p =>
    obtain ⟨rfl, hrest⟩ := List.cons.inj hu
    rw [(List.append_eq_nil_iff.mp hrest.symm).1]
    exact Or.inl ⟨LexMode.noConfusion, Int.le_refl d⟩

/-- Between brackets. -/
theorem enclosed_brackets (d : ℤ) {x : UInt8} (hx : x ≠ 94) {s : List UInt8} (hs : 93 ∉ s) :
    Enclosed d (91 :: x :: (s ++ [93])) := by
  intro p q hpq hp hq
  obtain ⟨u, hu⟩ := append_cases_concat (s := 91 :: x :: s) hpq hq
  match p, hp, hu with
  | [c], _, hu =>
    obtain ⟨rfl, -⟩ := List.cons.inj hu
    exact Or.inl ⟨LexMode.noConfusion, Int.le_refl d⟩
  | c :: y :: p, _, hu =>
    obtain ⟨rfl, hx'⟩ := List.cons.inj hu
    obtain ⟨rfl, rfl⟩ := List.cons.inj hx'
    have hscan : (⟨d, .normal⟩ : LexState).scan (91 :: x :: p) = ⟨d, .inside⟩ := by
      show (⟨d, if x = 94 then .complemented else .inside⟩ : LexState).scan p = _
      rw [if_neg hx, LexState.scan_inside d fun h => hs (List.mem_append_left u h)]
    rw [hscan]
    exact Or.inl ⟨LexMode.noConfusion, Int.le_refl d⟩

theorem enclosed_complement (d : ℤ) (x : UInt8) {s : List UInt8} (hs : 93 ∉ s) :
    Enclosed d (91 :: 94 :: x :: (s ++ [93])) := by
  intro p q hpq hp hq
  obtain ⟨u, hu⟩ := append_cases_concat (s := 91 :: 94 :: x :: s) hpq hq
  match p, hp, hu with
  | [c], _, hu =>
    obtain ⟨rfl, -⟩ := List.cons.inj hu
    exact Or.inl ⟨LexMode.noConfusion, Int.le_refl d⟩
  | [c, y], _, hu =>
    obtain ⟨rfl, hy⟩ := List.cons.inj hu
    obtain ⟨rfl, -⟩ := List.cons.inj hy
    exact Or.inl ⟨LexMode.noConfusion, Int.le_refl d⟩
  | c :: y :: z :: p, _, hu =>
    obtain ⟨rfl, hy⟩ := List.cons.inj hu
    obtain ⟨rfl, hz⟩ := List.cons.inj hy
    obtain ⟨rfl, rfl⟩ := List.cons.inj hz
    have hscan : (⟨d, .normal⟩ : LexState).scan (91 :: 94 :: x :: p) = ⟨d, .inside⟩ :=
      LexState.scan_inside d fun h => hs (List.mem_append_left u h)
    rw [hscan]
    exact Or.inl ⟨LexMode.noConfusion, Int.le_refl d⟩

/-- In parentheses. -/
theorem enclosed_group {d : ℤ} {s : List UInt8} (hs : Above (d + 1) s) :
    Enclosed d (40 :: (s ++ [41])) := by
  intro p q hpq hp hq
  obtain ⟨u, hu⟩ := append_cases_concat (s := 40 :: s) hpq hq
  cases p with
  | nil => exact absurd rfl hp
  | cons c p =>
    obtain ⟨rfl, hp'⟩ := List.cons.inj hu
    exact Or.inr (Int.lt_of_add_one_le (hs p u hp'))

/-- No part of a regular expression is less deep. -/
theorem Spells.above {lvl : Level} {s : List UInt8} {e : Regex UInt8} (h : Spells lvl s e) (d : ℤ) :
    Above d s := by
  have hscan := fun d => h.scan d
  induction h generalizing d with
  | char hc => exact (enclosed_single d _).above (hscan d)
  | escape hc => exact (enclosed_escape d _).above (hscan d)
  | any | lineStart | lineEnd => exact (enclosed_single d _).above (hscan d)
  | brackets hx hs =>
    exact (enclosed_brackets d (fun h => hx (by rw [h]; decide)) fun h => hs 93 h (by decide)).above
      (hscan d)
  | complement hx hs =>
    exact (enclosed_complement d _ fun h => hs 93 h (by decide)).above (hscan d)
  | group h ih => exact (enclosed_group (ih (d + 1) fun d => h.scan d)).above (hscan d)
  | atom h ih | branch h ih => exact ih d hscan
  | star h ih | plus h ih | opt h ih =>
    exact (ih d fun d => h.scan d).append ((enclosed_single d _).above rfl) (h.scan d)
  | nil => exact above_nil d
  | cons h h' ih ih' => exact (ih d fun d => h.scan d).append (ih' d fun d => h'.scan d) (h.scan d)
  | @alt s s' e e' c h hc h' ih ih' =>
    have hbar : (⟨d, .normal⟩ : LexState).scan [c] = ⟨d, .normal⟩ := by
      rcases hc with rfl | rfl <;> rfl
    have hrest : Above d (c :: s') :=
      ((enclosed_single d c).above hbar).append (ih' d fun d => h'.scan d) hbar
    exact (ih d fun d => h.scan d).append hrest (h.scan d)

/-- A part of an atom is within it. -/
theorem Spells.enclosed {s : List UInt8} {e : Regex UInt8} (h : Spells .atom s e) (d : ℤ) :
    Enclosed d s := by
  cases h with
  | char hc => exact enclosed_single d _
  | escape hc => exact enclosed_escape d _
  | any | lineStart | lineEnd => exact enclosed_single d _
  | brackets hx hs =>
    exact enclosed_brackets d (fun h => hx (by rw [h]; decide)) fun h => hs 93 h (by decide)
  | complement hx hs => exact enclosed_complement d _ fun h => hs 93 h (by decide)
  | group h => exact enclosed_group (h.above (d + 1))

/-! ### Where a piece ends -/

/-- A character with which an atom begins. -/
def IsAtomStart (c : UInt8) : Prop := c ∉ [10, 41, 42, 43, 63, 124]

/-- A character that repeats an atom. -/
def IsRepeat (c : UInt8) : Prop := c ∈ [42, 43, 63]

instance (c : UInt8) : Decidable (IsAtomStart c) := inferInstanceAs (Decidable (c ∉ _))

instance (c : UInt8) : Decidable (IsRepeat c) := inferInstanceAs (Decidable (c ∈ _))

theorem not_isAtomStart_of_isRepeat {c : UInt8} (hc : IsRepeat c) : ¬ IsAtomStart c := by
  intro h
  apply h
  simp only [IsRepeat, List.mem_cons, List.not_mem_nil, or_false] at hc
  rcases hc with rfl | rfl | rfl <;> decide

theorem Spells.atom_start {s : List UInt8} {e : Regex UInt8} (h : Spells .atom s e) :
    ∃ c t, s = c :: t ∧ IsAtomStart c := by
  cases h with
  | @char c hc =>
    refine ⟨c, [], rfl, fun h => hc ?_⟩
    simp only [List.mem_cons, List.not_mem_nil, or_false] at h
    rcases h with rfl | rfl | rfl | rfl | rfl | rfl <;> decide
  | escape | any | lineStart | lineEnd | brackets | complement | group =>
    exact ⟨_, _, rfl, by decide⟩

/-- A piece is an atom that is repeated. -/
theorem Spells.piece_parts {lvl : Level} {s : List UInt8} {e : Regex UInt8} (h : Spells lvl s e)
    (hlvl : lvl = .piece) :
    ∃ a ea ops, s = a ++ ops ∧ Spells .atom a ea ∧ ∀ c ∈ ops, IsRepeat c := by
  induction h with
  | @atom s e h => exact ⟨s, e, [], (List.append_nil s).symm, h, fun c hc => absurd hc List.not_mem_nil⟩
  | star h ih | plus h ih | opt h ih =>
    obtain ⟨a, ea, ops, rfl, ha, hops⟩ := ih rfl
    refine ⟨a, ea, ops ++ [_], List.append_assoc _ _ _, ha, fun c hc => ?_⟩
    rcases List.mem_append.mp hc with hc | hc
    · exact hops c hc
    · rw [List.mem_singleton.mp hc]
      decide
  | _ => cases hlvl

theorem Spells.piece_start {s : List UInt8} {e : Regex UInt8} (h : Spells .piece s e) :
    ∃ c t, s = c :: t ∧ IsAtomStart c := by
  obtain ⟨a, ea, ops, rfl, ha, -⟩ := h.piece_parts rfl
  obtain ⟨c, t, rfl, hc⟩ := ha.atom_start
  exact ⟨c, t ++ ops, rfl, hc⟩

theorem Spells.branch_start {s : List UInt8} {e : Regex UInt8} (h : Spells .branch s e) {c : UInt8}
    {t : List UInt8} (hs : s = c :: t) : IsAtomStart c := by
  cases h with
  | nil => cases hs
  | cons h h' =>
    obtain ⟨c', t', rfl, hc⟩ := h.piece_start
    obtain ⟨rfl, -⟩ := List.cons.inj hs
    exact hc

/-- In a piece, an outermost character is its first one, or repeats it. -/
theorem Spells.piece_char {s : List UInt8} {e : Regex UInt8} (h : Spells .piece s e) {p q : List UInt8}
    {c : UInt8} (hs : s = p ++ c :: q) (hp : outermost.scan p = outermost) :
    p = [] ∧ IsAtomStart c ∨ IsRepeat c := by
  obtain ⟨a, ea, ops, rfl, ha, hops⟩ := h.piece_parts rfl
  rcases append_cases hs with ⟨u, hu, hcq⟩ | ⟨v, rfl, hv⟩
  · cases u with
    | nil => exact Or.inr (hops c (by rw [← List.nil_append ops, ← hcq]; exact List.mem_cons_self))
    | cons d u =>
      obtain ⟨rfl, -⟩ := List.cons.inj hcq
      rcases eq_or_ne p [] with rfl | hne
      · obtain ⟨c', t, ht, hc'⟩ := ha.atom_start
        obtain ⟨rfl, -⟩ := List.cons.inj (hu.symm.trans ht)
        exact Or.inl ⟨rfl, hc'⟩
      · rcases ha.enclosed 0 p (c :: u) hu hne (List.cons_ne_nil c u) with h | h
        · exact absurd (congrArg LexState.mode hp) h.1
        · exact absurd (congrArg LexState.depth hp) (Int.ne_of_gt h)
  · exact Or.inr (hops c (by rw [hv]; exact List.mem_append_right v List.mem_cons_self))

theorem piece_eq_nil {s₁ s₂ s₁' s₂' u : List UInt8} {e₁ e₂ e₂' : Regex UInt8}
    (h₁ : Spells .piece s₁ e₁) (h₂ : Spells .piece s₂ e₂) (h₂' : Spells .branch s₂' e₂')
    (hs : s₁ = s₂ ++ u) (hs' : s₂' = u ++ s₁') : u = [] := by
  cases u with
  | nil => rfl
  | cons c u =>
    rcases h₁.piece_char hs (h₂.scan 0) with ⟨hnil, -⟩ | hc
    · obtain ⟨c', t, ht, -⟩ := h₂.piece_start
      exact absurd (ht.symm.trans hnil) (List.cons_ne_nil c' t)
    · exact absurd (h₂'.branch_start hs') (not_isAtomStart_of_isRepeat hc)

/-- **The first piece** of a branch. -/
theorem piece_split {s₁ s₂ s₁' s₂' : List UInt8} {e₁ e₂ e₁' e₂' : Regex UInt8}
    (h₁ : Spells .piece s₁ e₁) (h₁' : Spells .branch s₁' e₁') (h₂ : Spells .piece s₂ e₂)
    (h₂' : Spells .branch s₂' e₂') (h : s₁ ++ s₁' = s₂ ++ s₂') : s₁ = s₂ ∧ s₁' = s₂' := by
  have hsame : s₁ = s₂ := by
    rcases append_cases h with ⟨u, hu, hu'⟩ | ⟨u, hu, hu'⟩
    · rw [piece_eq_nil h₁ h₂ h₂' hu hu', List.append_nil] at hu
      exact hu
    · rw [piece_eq_nil h₂ h₁ h₁' hu hu', List.append_nil] at hu
      exact hu.symm
  exact ⟨hsame, List.append_cancel_left (hsame ▸ h)⟩

/-- In a branch, no outermost character separates alternatives. -/
theorem Spells.branch_bar {lvl : Level} {s : List UInt8} {e : Regex UInt8} (h : Spells lvl s e)
    (hlvl : lvl = .branch) {p q : List UInt8} {c : UInt8} (hs : s = p ++ c :: q)
    (hp : outermost.scan p = outermost) : ¬ (c = 124 ∨ c = 10) := by
  induction h generalizing p with
  | nil => exact absurd hs.symm (by simp)
  | @cons s s' e e' h h' ih ih' =>
    rcases append_cases hs with ⟨u, hu, hcq⟩ | ⟨v, rfl, hv⟩
    · cases u with
      | nil =>
        rw [List.nil_append] at hcq
        exact ih' rfl (p := []) hcq.symm rfl
      | cons d u =>
        obtain ⟨rfl, -⟩ := List.cons.inj hcq
        rcases h.piece_char hu hp with ⟨-, hc⟩ | hc
        · rintro (rfl | rfl) <;> exact hc (by decide)
        · rintro (rfl | rfl) <;> exact absurd hc (by decide)
    · rw [LexState.scan_append, show outermost.scan s = outermost from h.scan 0] at hp
      exact ih' rfl hv hp
  | _ => cases hlvl

/-! ### What a text is -/

/-- The text of an atom says which one it is. -/
theorem Spells.atom_inv {s : List UInt8} {e : Regex UInt8} (h : Spells .atom s e) :
    (∃ c, c ∉ operators ∧ s = [c] ∧ e = .set (· == c)) ∨
      (∃ c, s = [92, c] ∧ e = .set (· == c)) ∨ (s = [46] ∧ e = .set (· != 10)) ∨
      (s = [94] ∧ e = .lineStart) ∨ (s = [36] ∧ e = .lineEnd) ∨
      (∃ x t, x ≠ 94 ∧ s = 91 :: x :: (t ++ [93]) ∧ e = .set (inBrackets (x :: t))) ∨
      (∃ x t, s = 91 :: 94 :: x :: (t ++ [93]) ∧
        e = .set fun c => !inBrackets (x :: t) c && c != 10) ∨
      ∃ t, s = 40 :: (t ++ [41]) ∧ Spells .whole t e := by
  cases h with
  | char hc => exact Or.inl ⟨_, hc, rfl, rfl⟩
  | escape hc => exact Or.inr (Or.inl ⟨_, rfl, rfl⟩)
  | any => exact Or.inr (Or.inr (Or.inl ⟨rfl, rfl⟩))
  | lineStart => exact Or.inr (Or.inr (Or.inr (Or.inl ⟨rfl, rfl⟩)))
  | lineEnd => exact Or.inr (Or.inr (Or.inr (Or.inr (Or.inl ⟨rfl, rfl⟩))))
  | brackets hx hs =>
    exact Or.inr (Or.inr (Or.inr (Or.inr (Or.inr (Or.inl
      ⟨_, _, fun h => hx (by rw [h]; decide), rfl, rfl⟩)))))
  | complement hx hs =>
    exact Or.inr (Or.inr (Or.inr (Or.inr (Or.inr (Or.inr (Or.inl ⟨_, _, rfl, rfl⟩))))))
  | group h =>
    exact Or.inr (Or.inr (Or.inr (Or.inr (Or.inr (Or.inr (Or.inr ⟨_, rfl, h⟩))))))

/-- An atom that ends with a repetition operator is that character after a `\`. -/
theorem Spells.atom_end {s : List UInt8} {e : Regex UInt8} (h : Spells .atom s e) {t : List UInt8}
    {c : UInt8} (hs : s = t ++ [c]) (hc : IsRepeat c) : t = [92] := by
  have hlast : ∀ {r : List UInt8} {d : UInt8}, r ++ [d] = t ++ [c] → d = c := fun hr =>
    (List.cons.inj (List.append_inj' hr rfl).2).1
  have hno : ∀ {r : List UInt8} {d : UInt8}, r ++ [d] = t ++ [c] → ¬ IsRepeat d → t = [92] :=
    fun hr hd => absurd (hlast hr ▸ hc) hd
  cases h with
  | @char d hd =>
    obtain rfl := hlast (r := []) hs
    simp only [IsRepeat, List.mem_cons, List.not_mem_nil, or_false] at hc
    rcases hc with rfl | rfl | rfl <;> exact absurd (by decide) hd
  | @escape d hd => exact (List.append_inj' (show [92] ++ [d] = t ++ [c] from hs) rfl).1.symm
  | any => exact hno (r := []) hs (by decide)
  | lineStart => exact hno (r := []) hs (by decide)
  | lineEnd => exact hno (r := []) hs (by decide)
  | @brackets x s hx hs' => exact hno (r := 91 :: x :: s) hs (by decide)
  | @complement x s hx hs' => exact hno (r := 91 :: 94 :: x :: s) hs (by decide)
  | @group s e h => exact hno (r := 40 :: s) hs (by decide)

/-- A `\` alone is no regular expression. -/
theorem Spells.ne_backslash {lvl : Level} {s : List UInt8} {e : Regex UInt8} (h : Spells lvl s e)
    (t : List UInt8) (ht : outermost.scan t = outermost) : s ≠ t ++ [92] := by
  rintro rfl
  have hscan := h.scan 0
  rw [LexState.scan_append, show LexState.scan ⟨0, .normal⟩ t = ⟨0, .normal⟩ from ht] at hscan
  exact LexMode.noConfusion (congrArg LexState.mode hscan)

/-- The last character of a piece says whether it repeats, and how. -/
theorem Spells.piece_inv {s t : List UInt8} {c : UInt8} {e : Regex UInt8} (h : Spells .piece s e)
    (hs : s = t ++ [c]) (hc : IsRepeat c) {e' : Regex UInt8} (ht : Spells .piece t e') :
    ∃ e'', Spells .piece t e'' ∧
      ((c = 42 ∧ e = e''.star) ∨ (c = 43 ∧ e = e''.plus) ∨ (c = 63 ∧ e = e''.opt)) := by
  cases h with
  | atom h =>
    have hback := h.atom_end hs hc
    exact absurd (hback.trans (List.nil_append [92]).symm) (ht.ne_backslash [] rfl)
  | star h =>
    obtain ⟨rfl, hc'⟩ := List.append_inj' hs rfl
    exact ⟨_, h, Or.inl ⟨(List.cons.inj hc').1.symm, rfl⟩⟩
  | plus h =>
    obtain ⟨rfl, hc'⟩ := List.append_inj' hs rfl
    exact ⟨_, h, Or.inr (Or.inl ⟨(List.cons.inj hc').1.symm, rfl⟩)⟩
  | opt h =>
    obtain ⟨rfl, hc'⟩ := List.append_inj' hs rfl
    exact ⟨_, h, Or.inr (Or.inr ⟨(List.cons.inj hc').1.symm, rfl⟩)⟩

/-- **The regular expression** that a text is. -/
theorem Spells.unique {lvl : Level} {s : List UInt8} {e e' : Regex UInt8} (h : Spells lvl s e)
    (h' : Spells lvl s e') : e = e' := by
  induction h generalizing e' with
  | @char c hc =>
    have hne : ∀ d ∈ operators, c ≠ d := fun d hd h => hc (h ▸ hd)
    rcases h'.atom_inv with ⟨d, -, hd, rfl⟩ | ⟨d, hd, -⟩ | ⟨hd, -⟩ | ⟨hd, -⟩ | ⟨hd, -⟩ |
      ⟨x, t, -, hd, -⟩ | ⟨x, t, hd, -⟩ | ⟨t, hd, -⟩
    · obtain ⟨rfl, -⟩ := List.cons.inj hd
      rfl
    all_goals exact absurd (List.cons.inj hd).1 (hne _ (by decide))
  | @escape c hc =>
    rcases h'.atom_inv with ⟨d, hd', hd, -⟩ | ⟨d, hd, rfl⟩ | ⟨hd, -⟩ | ⟨hd, -⟩ | ⟨hd, -⟩ |
      ⟨x, t, -, hd, -⟩ | ⟨x, t, hd, -⟩ | ⟨t, hd, -⟩
    · exact absurd (List.cons.inj hd).2 (List.cons_ne_nil c [])
    · rw [(List.cons.inj (List.cons.inj hd).2).1]
    all_goals exact absurd (List.cons.inj hd).1 (by decide)
  | any =>
    rcases h'.atom_inv with ⟨d, hd', hd, -⟩ | ⟨d, hd, -⟩ | ⟨-, rfl⟩ | ⟨hd, -⟩ | ⟨hd, -⟩ |
      ⟨x, t, -, hd, -⟩ | ⟨x, t, hd, -⟩ | ⟨t, hd, -⟩
    · exact absurd (by rw [← (List.cons.inj hd).1]; decide) hd'
    on_goal 2 => rfl
    all_goals exact absurd (List.cons.inj hd).1 (by decide)
  | lineStart =>
    rcases h'.atom_inv with ⟨d, hd', hd, -⟩ | ⟨d, hd, -⟩ | ⟨hd, -⟩ | ⟨-, rfl⟩ | ⟨hd, -⟩ |
      ⟨x, t, -, hd, -⟩ | ⟨x, t, hd, -⟩ | ⟨t, hd, -⟩
    · exact absurd (by rw [← (List.cons.inj hd).1]; decide) hd'
    on_goal 3 => rfl
    all_goals exact absurd (List.cons.inj hd).1 (by decide)
  | lineEnd =>
    rcases h'.atom_inv with ⟨d, hd', hd, -⟩ | ⟨d, hd, -⟩ | ⟨hd, -⟩ | ⟨hd, -⟩ | ⟨-, rfl⟩ |
      ⟨x, t, -, hd, -⟩ | ⟨x, t, hd, -⟩ | ⟨t, hd, -⟩
    · exact absurd (by rw [← (List.cons.inj hd).1]; decide) hd'
    on_goal 4 => rfl
    all_goals exact absurd (List.cons.inj hd).1 (by decide)
  | @brackets y u hy hu =>
    rcases h'.atom_inv with ⟨d, hd', hd, -⟩ | ⟨d, hd, -⟩ | ⟨hd, -⟩ | ⟨hd, -⟩ | ⟨hd, -⟩ |
      ⟨x, t, -, hd, rfl⟩ | ⟨x, t, hd, -⟩ | ⟨t, hd, -⟩
    · exact absurd (by rw [← (List.cons.inj hd).1]; decide) hd'
    on_goal 5 =>
      obtain ⟨rfl, htail⟩ := List.cons.inj (List.cons.inj hd).2
      rw [(List.append_inj' htail rfl).1]
    on_goal 5 =>
      refine absurd ?_ hy
      rw [(List.cons.inj (List.cons.inj hd).2).1]
      decide
    all_goals exact absurd (List.cons.inj hd).1 (by decide)
  | @complement y u hy hu =>
    rcases h'.atom_inv with ⟨d, hd', hd, -⟩ | ⟨d, hd, -⟩ | ⟨hd, -⟩ | ⟨hd, -⟩ | ⟨hd, -⟩ |
      ⟨x, t, hx, hd, -⟩ | ⟨x, t, hd, rfl⟩ | ⟨t, hd, -⟩
    · exact absurd (by rw [← (List.cons.inj hd).1]; decide) hd'
    on_goal 5 => exact absurd (List.cons.inj (List.cons.inj hd).2).1.symm hx
    on_goal 5 =>
      obtain ⟨rfl, htail⟩ := List.cons.inj (List.cons.inj (List.cons.inj hd).2).2
      rw [(List.append_inj' htail rfl).1]
    all_goals exact absurd (List.cons.inj hd).1 (by decide)
  | @group u e h ih =>
    rcases h'.atom_inv with ⟨d, hd', hd, -⟩ | ⟨d, hd, -⟩ | ⟨hd, -⟩ | ⟨hd, -⟩ | ⟨hd, -⟩ |
      ⟨x, t, hx, hd, -⟩ | ⟨x, t, hd, -⟩ | ⟨t, hd, ht⟩
    · exact absurd (by rw [← (List.cons.inj hd).1]; decide) hd'
    on_goal 7 =>
      rw [← (List.append_inj' (List.cons.inj hd).2 rfl).1] at ht
      exact ih ht
    all_goals exact absurd (List.cons.inj hd).1 (by decide)
  | atom h ih =>
    have hone : ∀ {t : List UInt8} {f : Regex UInt8} {c : UInt8}, Spells .piece t f → IsRepeat c →
        _ ≠ t ++ [c] := fun ht hc hs =>
      ht.ne_backslash [] rfl (h.atom_end hs hc)
    cases h' with
    | atom h' => exact ih h'
    | star ht | plus ht | opt ht => exact absurd rfl (hone ht (by decide))
  | star h ih =>
    obtain ⟨e'', he'', hcase⟩ := h'.piece_inv rfl (by decide) h
    rw [ih he'']
    rcases hcase with ⟨-, rfl⟩ | ⟨hc, -⟩ | ⟨hc, -⟩
    · rfl
    · exact absurd hc (by decide)
    · exact absurd hc (by decide)
  | plus h ih =>
    obtain ⟨e'', he'', hcase⟩ := h'.piece_inv rfl (by decide) h
    rw [ih he'']
    rcases hcase with ⟨hc, -⟩ | ⟨-, rfl⟩ | ⟨hc, -⟩
    · exact absurd hc (by decide)
    · rfl
    · exact absurd hc (by decide)
  | opt h ih =>
    obtain ⟨e'', he'', hcase⟩ := h'.piece_inv rfl (by decide) h
    rw [ih he'']
    rcases hcase with ⟨hc, -⟩ | ⟨hc, -⟩ | ⟨-, rfl⟩
    · exact absurd hc (by decide)
    · exact absurd hc (by decide)
    · rfl
  | nil =>
    generalize hs : ([] : List UInt8) = s at h'
    cases h' with
    | nil => rfl
    | cons h₁ h₂ =>
      obtain ⟨c, t, ht, -⟩ := h₁.piece_start
      exact absurd ((List.append_eq_nil_iff.mp hs.symm).1.symm.trans ht).symm (List.cons_ne_nil c t)
  | @cons t t' f f' h h₂ ih ih₂ =>
    generalize hs : t ++ t' = s at h'
    cases h' with
    | nil =>
      obtain ⟨c, u, hu, -⟩ := h.piece_start
      exact absurd ((List.append_eq_nil_iff.mp hs).1.symm.trans hu).symm (List.cons_ne_nil c u)
    | cons h₁ h₃ =>
      obtain ⟨rfl, rfl⟩ := piece_split h h₂ h₁ h₃ hs
      rw [ih h₁, ih₂ h₃]
  | branch h ih =>
    cases h' with
    | branch h' => exact ih h'
    | alt h₁ hc h₂ => exact absurd hc (h.branch_bar rfl rfl (h₁.scan 0))
  | @alt t t' f f' c h hc h₂ ih ih₂ =>
    generalize hs : t ++ c :: t' = s at h'
    cases h' with
    | branch h' => exact absurd hc (h'.branch_bar rfl hs.symm (h.scan 0))
    | @alt u u' g g' d h₁ hd h₃ =>
      have hsame : t = u := by
        rcases append_cases hs with ⟨v, hv, hv'⟩ | ⟨v, hv, hv'⟩
        · cases v with
          | nil => rw [hv, List.append_nil]
          | cons b v =>
            obtain ⟨rfl, -⟩ := List.cons.inj hv'
            exact absurd hd (h.branch_bar rfl hv (h₁.scan 0))
        · cases v with
          | nil => rw [hv, List.append_nil]
          | cons b v =>
            obtain ⟨rfl, -⟩ := List.cons.inj hv'
            exact absurd hc (h₁.branch_bar rfl hv (h.scan 0))
      subst hsame
      obtain ⟨-, rfl⟩ := List.cons.inj (List.append_cancel_left hs)
      rw [ih h₁, ih₂ h₃]

end Archie
