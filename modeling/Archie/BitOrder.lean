/-
Heights in lexicographic order.

The height of two keys is the number of the first bit in which they differ, counted from 1.  In
lexicographic order it is greater the closer the keys are, and two heights that are equal have a
smaller one between them.

* `lexLt_trans`, `lexLt_irrefl`, `lexLt_total` — the order.
* `HeightOf` — the height of two keys.
* `HeightOf.heights` — keys that are closer have a greater height.
* `HeightOf.exists_lt` — between neighbours of equal heights there are some of a smaller one.
-/
import Archie.Patricia
import Archie.RunMarks

namespace Patricia

/-! ### The order -/

theorem lexLt_irrefl (x : ℕ → Bool) : ¬ LexLt x x := by
  rintro ⟨b, -, hfalse, htrue⟩
  rw [hfalse] at htrue
  exact Bool.false_ne_true htrue

/-- The first bit in which two keys differ that have a third one between them. -/
theorem lexLt_min {x y z : ℕ → Bool} {b c : ℕ} (hxy : Agree b x y) (hx : x b = false)
    (hy : y b = true) (hyz : Agree c y z) (hy' : y c = false) (hz : z c = true) :
    Agree (min b c) x z ∧ x (min b c) = false ∧ z (min b c) = true := by
  have hagree : Agree (min b c) x z :=
    (hxy.mono (Nat.min_le_left b c)).trans (hyz.mono (Nat.min_le_right b c))
  refine ⟨hagree, ?_⟩
  rcases Nat.lt_trichotomy b c with hlt | rfl | hlt
  · rw [Nat.min_eq_left (Nat.le_of_lt hlt)]
    exact ⟨hx, (hyz b hlt).symm.trans hy⟩
  · rw [hy] at hy'
    exact absurd hy'.symm Bool.false_ne_true
  · rw [Nat.min_eq_right (Nat.le_of_lt hlt)]
    exact ⟨(hxy c hlt).trans hy', hz⟩

theorem lexLt_trans {x y z : ℕ → Bool} (h : LexLt x y) (h' : LexLt y z) : LexLt x z := by
  obtain ⟨b, hxy, hx, hy⟩ := h
  obtain ⟨c, hyz, hy', hz⟩ := h'
  exact ⟨_, lexLt_min hxy hx hy hyz hy' hz⟩

theorem lexLt_total {x y : ℕ → Bool} {b : ℕ} (h : Agree b x y) (hne : x b ≠ y b) :
    LexLt x y ∨ LexLt y x := by
  cases hx : x b with
  | false => exact Or.inl ⟨b, h, hx, eq_true_of_ne_false fun hy => hne (hx.trans hy.symm)⟩
  | true => exact Or.inr ⟨b, h.symm, eq_false_of_ne_true fun hy => hne (hx.trans hy.symm), hx⟩

section

variable {ι : Type*} {bits : ι → ℕ → Bool} {d : ι → ι → ℕ}

/-- The order of keys by their bits. -/
def KeyLt (bits : ι → ℕ → Bool) (p q : ι) : Prop := LexLt (bits p) (bits q)

instance keyLt_order : IsStrictOrder ι (KeyLt bits) where
  irrefl := fun p => lexLt_irrefl (bits p)
  trans := fun _ _ _ h h' => lexLt_trans h h'

/-! ### Heights -/

/-- The height of two keys is the number of the first bit in which they differ. -/
def HeightOf (bits : ι → ℕ → Bool) (d : ι → ι → ℕ) : Prop :=
  ∀ p q b, Agree b (bits p) (bits q) → bits p b = false → bits q b = true → d p q = 1 + b

/-- The bit that tells two keys from each other. -/
theorem HeightOf.exists_bit (hd : HeightOf bits d) {p q : ι} (h : KeyLt bits p q) :
    ∃ b, d p q = 1 + b ∧ Agree b (bits p) (bits q) ∧ bits p b = false ∧ bits q b = true := by
  obtain ⟨b, hagree, hp, hq⟩ := h
  exact ⟨b, hd p q b hagree hp hq, hagree, hp, hq⟩

/-- **Keys that are closer** have a greater height. -/
theorem HeightOf.heights (hd : HeightOf bits d) : RunMerge.Heights (KeyLt bits) d := by
  have hmin : ∀ {x y z}, KeyLt bits x y → KeyLt bits y z → d x z = min (d x y) (d y z) := by
    intro x y z hxy hyz
    obtain ⟨b, hb, hagree, hx, hy⟩ := hd.exists_bit hxy
    obtain ⟨c, hc, hagree', hy', hz⟩ := hd.exists_bit hyz
    obtain ⟨hmin, hxm, hzm⟩ := lexLt_min hagree hx hy hagree' hy' hz
    rw [hb, hc, hd x z _ hmin hxm hzm]
    omega
  refine ⟨fun hxy hyz => ?_, fun hxy hyz => ?_⟩
  · rw [hmin hxy hyz]
    exact Nat.min_le_right _ _
  · rw [hmin hxy hyz]
    exact Nat.min_le_left _ _

/-- A bit that is set stays set as long as the heights of neighbours are greater. -/
theorem HeightOf.bit_of_le (hd : HeightOf bits d) {key : ℕ → ι} {m n b : ℕ}
    (hsorted : ∀ k, m ≤ k → k < n → KeyLt bits (key k) (key (k + 1)))
    (hgreater : ∀ k, m ≤ k → k < n → 1 + b < d (key k) (key (k + 1)))
    (hset : bits (key m) b = true) (hmn : m ≤ n) : bits (key n) b = true := by
  induction n with
  | zero => rwa [Nat.le_zero.mp hmn] at hset
  | succ n ih =>
    rcases Nat.eq_or_lt_of_le hmn with rfl | hlt
    · exact hset
    · have hn : m ≤ n := Nat.le_of_lt_succ hlt
      have hbit := ih (fun k hk hkn => hsorted k hk (by omega))
        (fun k hk hkn => hgreater k hk (by omega)) hn
      obtain ⟨c, hc, hagree, -⟩ := hd.exists_bit (hsorted n hn (Nat.lt_succ_self n))
      have hbc := hgreater n hn (Nat.lt_succ_self n)
      rw [← hagree b (by omega)]
      exact hbit

/-- **Between neighbours of equal heights** there are some of a smaller one. -/
theorem HeightOf.exists_lt (hd : HeightOf bits d) {key : ℕ → ι} {i j : ℕ} (hij : i < j)
    (hsorted : ∀ k ≤ j, KeyLt bits (key k) (key (k + 1)))
    (heq : d (key i) (key (i + 1)) = d (key j) (key (j + 1))) :
    ∃ k < j, i < k ∧ d (key k) (key (k + 1)) < d (key j) (key (j + 1)) := by
  by_contra hnone
  push Not at hnone
  obtain ⟨b, hb, -, -, hset⟩ := hd.exists_bit (hsorted i (by omega))
  -- The first neighbours behind of a height that is not greater are of the same height.
  have hfirst : ∃ n, i < n ∧ n ≤ j ∧ d (key n) (key (n + 1)) = 1 + b ∧
      ∀ k, i < k → k < n → 1 + b < d (key k) (key (k + 1)) := by
    by_contra hno
    push Not at hno
    have hall : ∀ n, i < n → n ≤ j → d (key n) (key (n + 1)) ≠ 1 + b := by
      intro n
      induction n using Nat.strong_induction_on with
      | _ n ih =>
        intro hin hnj hn
        obtain ⟨k, hik, hkn, hle⟩ := hno n hin hnj hn
        have hge := hnone k (by omega) hik
        exact ih k hkn hik (by omega) (by omega)
    exact hall j hij (Nat.le_refl j) (by omega)
  obtain ⟨n, hin, hnj, hn, hgreater⟩ := hfirst
  have hbit := hd.bit_of_le (m := i + 1) (n := n) (fun k _ hk => hsorted k (by omega))
    (fun k hk hkn => hgreater k (by omega) hkn) hset hin
  obtain ⟨c, hc, -, hclear, -⟩ := hd.exists_bit (hsorted n hnj)
  obtain rfl : c = b := by omega
  rw [hbit] at hclear
  exact absurd hclear.symm Bool.false_ne_true

end

end Patricia
