/-
The trie of an infix file is the PaTrie of its text.

The starts of the infix file are sorted, and between two of them is the number of the first bit in
which their suffixes differ.  The trie that is split at the least heights then branches exactly
where the suffixes below it first differ.

* `separated_heightsOf` — between equal heights there is a smaller one.
* `exists_trieOf` — a subtrie branches where its suffixes differ.
* `exists_paTrie` — the trie of the infix file.
-/
import Archie.BitOrder
import Archie.InfixBuild
import Archie.SearchSame

namespace Archie.Infix

open Patricia RunMerge Archie.Levels

section

variable {bits : ℕ → ℕ → Bool} {d : ℕ → ℕ → ℕ}

/-! ### Neighbours -/

/-- The heights between neighbours, by their places. -/
theorem getD_heightsOf (d : ℕ → ℕ → ℕ) (p : ℕ) (ps : List ℕ) {i : ℕ} (hi : i < ps.length) :
    ((heightsOf d p ps).map Prod.fst).getD i 0 =
      d ((p :: ps).getD i 0) ((p :: ps).getD (i + 1) 0) := by
  induction ps generalizing p i with
  | nil => exact absurd hi (Nat.not_lt_zero i)
  | cons q qs ih =>
    rcases i with _ | i
    · rfl
    · exact ih q (Nat.lt_of_succ_lt_succ hi)

theorem length_heightsOf (d : ℕ → ℕ → ℕ) (p : ℕ) (ps : List ℕ) :
    (heightsOf d p ps).length = ps.length := by
  induction ps generalizing p with
  | nil => rfl
  | cons q qs ih => rw [heightsOf, List.length_cons, List.length_cons, ih]

/-- Each height is that of two of the index points, in order. -/
theorem exists_of_mem_heightsOf {p : ℕ} {ps : List ℕ} (hsorted : (p :: ps).Pairwise (KeyLt bits))
    {r : ℕ × ℕ} (hr : r ∈ heightsOf d p ps) :
    ∃ x ∈ p :: ps, ∃ y ∈ p :: ps, KeyLt bits x y ∧ r = (d x y, y + 1) := by
  induction ps generalizing p with
  | nil => exact absurd hr List.not_mem_nil
  | cons q qs ih =>
    obtain ⟨hp, hsorted'⟩ := List.pairwise_cons.mp hsorted
    rcases List.mem_cons.mp hr with rfl | hr
    · exact ⟨p, List.mem_cons_self, q, List.mem_cons_of_mem p List.mem_cons_self,
        hp q List.mem_cons_self, rfl⟩
    · obtain ⟨x, hx, y, hy, hxy, hxr⟩ := ih hsorted' hr
      exact ⟨x, List.mem_cons_of_mem p hx, y, List.mem_cons_of_mem p hy, hxy, hxr⟩

/-- **Between equal heights** there is a smaller one. -/
theorem separated_heightsOf (hd : HeightOf bits d) {p : ℕ} {ps : List ℕ}
    (hsorted : (p :: ps).Pairwise (KeyLt bits)) :
    Separated ((heightsOf d p ps).map Prod.fst) := by
  intro j hj i hij heq
  rw [List.length_map, length_heightsOf] at hj
  rw [getD_heightsOf d p ps (by omega), getD_heightsOf d p ps hj] at heq
  obtain ⟨k, hkj, hik, hlt⟩ := @HeightOf.exists_lt ℕ bits d hd
    (fun i => (p :: ps).getD i 0) i j hij
    (fun k hk => by
      have hlt : k + 1 < (p :: ps).length := by
        rw [List.length_cons]
        omega
      rw [List.getD_eq_getElem _ _ (by omega), List.getD_eq_getElem _ _ hlt]
      exact List.pairwise_iff_getElem.mp hsorted k (k + 1) _ _ (Nat.lt_succ_self k)) heq
  refine ⟨k, hkj, hik, ?_⟩
  rw [getD_heightsOf d p ps (by omega), getD_heightsOf d p ps hj]
  exact hlt

/-- A sequence that is split at one of its heights. -/
theorem heightsOf_eq_append {p height start : ℕ} {ps : List ℕ} {left right : List (ℕ × ℕ)}
    (h : heightsOf d p ps = left ++ (height, start) :: right) :
    ∃ ps₁ q ps₂, ps = ps₁ ++ q :: ps₂ ∧ left = heightsOf d p ps₁ ∧
      (height, start) = (d ((p :: ps₁).getLast (List.cons_ne_nil _ _)) q, q + 1) ∧
      right = heightsOf d q ps₂ := by
  induction left generalizing p ps with
  | nil =>
    rcases ps with _ | ⟨q, ps⟩
    · exact absurd h.symm (List.append_ne_nil_of_right_ne_nil _ (List.cons_ne_nil _ _))
    · obtain ⟨hfirst, hrest⟩ := List.cons.inj h
      exact ⟨[], q, ps, rfl, rfl, hfirst.symm, hrest.symm⟩
  | cons x left ih =>
    rcases ps with _ | ⟨q, ps⟩
    · exact absurd h.symm (List.cons_ne_nil _ _)
    · obtain ⟨hfirst, hrest⟩ := List.cons.inj h
      obtain ⟨ps₁, r, ps₂, rfl, rfl, hsplit, hright⟩ := ih hrest
      refine ⟨q :: ps₁, r, ps₂, rfl, by rw [heightsOf, hfirst], ?_, hright⟩
      rw [hsplit, List.getLast_cons (List.cons_ne_nil _ _)]

/-- Where all heights are greater the suffixes agree. -/
theorem agree_of_heights (hd : HeightOf bits d) {p b : ℕ} {ps : List ℕ}
    (hsorted : (p :: ps).Pairwise (KeyLt bits)) (hgreater : ∀ r ∈ heightsOf d p ps, b < r.1) :
    ∀ x ∈ p :: ps, Agree b (bits p) (bits x) := by
  induction ps generalizing p with
  | nil =>
    intro x hx
    rw [List.mem_singleton.mp hx]
    exact fun i _ => rfl
  | cons q qs ih =>
    intro x hx
    rcases List.mem_cons.mp hx with rfl | hx
    · exact fun i _ => rfl
    · obtain ⟨hp, hsorted'⟩ := List.pairwise_cons.mp hsorted
      obtain ⟨hfirst, hrest⟩ := List.forall_mem_cons.mp hgreater
      obtain ⟨c, hc, hagree, -⟩ := hd.exists_bit (hp q List.mem_cons_self)
      have hfirst' : b < d p q := hfirst
      exact (hagree.mono (by omega)).trans (ih hsorted' hrest x hx)

/-! ### The trie -/

/-- A part of the sequence, and the trie of its index points. -/
structure TrieOf (bits : ℕ → ℕ → Bool) (depth p : ℕ) (ps : List ℕ) (t : Trie ℕ) : Prop where
  leaves : t.leaves = p :: ps
  correct : t.Correct bits depth

/-- **A node** that has a sequence split at its least height. -/
theorem TrieOf.node (hd : HeightOf bits d) {depth p q height start : ℕ} {ps₁ ps₂ : List ℕ}
    {l r : Trie ℕ} (hsorted : (p :: (ps₁ ++ q :: ps₂)).Pairwise (KeyLt bits))
    (hsplit : (height, start) = (d ((p :: ps₁).getLast (List.cons_ne_nil _ _)) q, q + 1))
    (hleft : ∀ x ∈ heightsOf d p ps₁, height < x.1)
    (hright : ∀ x ∈ heightsOf d q ps₂, height < x.1) (hdepth : depth + 1 ≤ height)
    (hl : TrieOf bits height p ps₁ l) (hr : TrieOf bits height q ps₂ r) :
    TrieOf bits depth p (ps₁ ++ q :: ps₂) (.node (height - 1 - depth) l r) := by
  obtain ⟨hl₁, hl₂⟩ := hl
  obtain ⟨hr₁, hr₂⟩ := hr
  rw [← List.cons_append] at hsorted
  obtain ⟨hsorted₁, hsorted₂, hbetween⟩ := List.pairwise_append.mp hsorted
  obtain ⟨x, hx⟩ : ∃ x, x = (p :: ps₁).getLast (List.cons_ne_nil _ _) := ⟨_, rfl⟩
  have hxmem : x ∈ p :: ps₁ := hx ▸ List.getLast_mem _
  obtain ⟨b, hb, hagree, hxb, hqb⟩ := hd.exists_bit (hbetween x hxmem q List.mem_cons_self)
  have hheight : height = 1 + b := by
    rw [← hb, hx]
    exact (Prod.mk.inj hsplit).1
  have hleft' := agree_of_heights hd hsorted₁ hleft
  have hright' := agree_of_heights hd hsorted₂ hright
  have hbl : ∀ y ∈ p :: ps₁, Agree height (bits x) (bits y) := fun y hy =>
    (hleft' x hxmem).symm.trans (hleft' y hy)
  have hall : ∀ y ∈ (p :: ps₁) ++ q :: ps₂, Agree b (bits x) (bits y) := by
    intro y hy
    rcases List.mem_append.mp hy with hy | hy
    · exact (hbl y hy).mono (by omega)
    · exact hagree.trans ((hright' y hy).mono (by omega))
  have hskip : depth + (height - 1 - depth) = b := by omega
  refine ⟨?_, ?_⟩
  · rw [Trie.leaves, hl₁, hr₁, List.cons_append]
  · rw [Trie.Correct, hskip, hl₁, hr₁]
    refine ⟨fun y hy z hz => (hall y hy).symm.trans (hall z hz), fun y hy => ?_, fun y hy => ?_,
      ?_, ?_⟩
    · rw [← hbl y hy b (by omega), hxb]
    · rw [← hright' y hy b (by omega), hqb]
    · rw [show b + 1 = height by omega]
      exact hl₂
    · rw [show b + 1 = height by omega]
      exact hr₂

/-- **A subtrie** branches where its suffixes differ. -/
theorem exists_trieOf (hd : HeightOf bits d) {depth p start : ℕ} {ps : List ℕ}
    {rest : List (ℕ × ℕ)} {t : Trie ℕ} (h : Splits (depth + 1) start rest t)
    (hstart : start = p + 1) (hrest : rest = heightsOf d p ps)
    (hsorted : (p :: ps).Pairwise (KeyLt bits)) :
    ∃ t₀, t = t₀.map (· + 1) ∧ TrieOf bits depth p ps t₀ := by
  obtain ⟨below, hbelow⟩ : ∃ below, below = depth + 1 := ⟨_, rfl⟩
  rw [← hbelow] at h
  induction h generalizing depth p ps with
  | leaf below start =>
    rcases ps with _ | ⟨q, ps⟩
    · exact ⟨.leaf p, by rw [hstart]; rfl, rfl, trivial⟩
    · exact absurd hrest.symm (List.cons_ne_nil _ _)
  | node hle hleft hright _ _ ihl ihr =>
    obtain ⟨ps₁, q, ps₂, rfl, rfl, hsplit, rfl⟩ := heightsOf_eq_append hrest.symm
    have hparts := hsorted
    rw [← List.cons_append] at hparts
    obtain ⟨hsorted₁, hsorted₂, -⟩ := List.pairwise_append.mp hparts
    obtain ⟨l, rfl, hl⟩ := ihl hstart rfl hsorted₁ rfl
    obtain ⟨r, rfl, hr⟩ := ihr (Prod.mk.inj hsplit).2 rfl hsorted₂ rfl
    refine ⟨_, ?_, TrieOf.node hd hsorted hsplit hleft hright (hbelow ▸ hle) hl hr⟩
    rw [Trie.map, hbelow, Nat.sub_sub, Nat.add_comm 1 depth]

/-- **The trie of the infix file** is the PaTrie of the index points, as it is in a file. -/
theorem exists_paTrie (hd : HeightOf bits d) {p : ℕ} {ps : List ℕ}
    (hsorted : (p :: ps).Pairwise (KeyLt bits)) (hpos : ∀ x ∈ heightsOf d p ps, 0 < x.1) :
    ∃ t₀, infixTrie (p + 1) (heightsOf d p ps) = fileTrie t₀ ∧ TrieOf bits 0 p ps t₀ := by
  have hsplits : Splits 0 (p + 1) (heightsOf d p ps) (infixTrie (p + 1) (heightsOf d p ps)) :=
    splits_infixTrie (separated_heightsOf hd hsorted)
  generalize infixTrie (p + 1) (heightsOf d p ps) = t at hsplits
  generalize hstart : p + 1 = start at hsplits
  generalize hrest : heightsOf d p ps = rest at hsplits
  generalize hbelow : 0 = below at hsplits
  cases hsplits with
  | leaf =>
    rcases ps with _ | ⟨q, ps⟩
    · exact ⟨.leaf p, by rw [← hstart]; rfl, rfl, trivial⟩
    · exact absurd hrest (List.cons_ne_nil _ _)
  | node hle hleft hright hl hr =>
    obtain ⟨ps₁, q, ps₂, rfl, rfl, hsplit, rfl⟩ := heightsOf_eq_append hrest
    have hheight := hpos _ (hrest ▸ List.mem_append_right _ List.mem_cons_self)
    dsimp only at hheight
    have hparts := hsorted
    rw [← List.cons_append] at hparts
    obtain ⟨hsorted₁, hsorted₂, -⟩ := List.pairwise_append.mp hparts
    obtain ⟨l, rfl, htl⟩ := exists_trieOf hd hl hstart.symm rfl hsorted₁
    obtain ⟨r, rfl, htr⟩ := exists_trieOf hd hr (Prod.mk.inj hsplit).2 rfl hsorted₂
    refine ⟨_, ?_, TrieOf.node hd hsorted hsplit hleft hright (by omega) htl htr⟩
    rw [← hbelow, fileTrie, Trie.map, Trie.addSkip, Nat.sub_zero, Nat.sub_zero,
      Nat.sub_add_cancel hheight]

end

end Archie.Infix
