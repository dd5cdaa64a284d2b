/-
Merging two sorted lists by a key that does not tell all elements apart.

The merge writes the lesser head, unless its key is that of the element written last, and goes by
a flag that says whether the first list has had the lesser head before: where two heads have the
same key, it decides which of them is passed over.

* `keyMerge` — the merge.
* `keyMerge_alone_left`, `keyMerge_alone_right`, `keyMerge_pairs` — what becomes of the elements
  with one key.
* `KeptGroups` — a condition on the groups of elements with one key.
* `unionOf_keyMerge_iff` — the merge has each element once exactly if the condition holds.
* `unionOf_keyMerge_least_iff` — if the least key passes for one already written.
-/
import Mathlib.Data.List.Nodup
import Mathlib.Data.List.Sort
import Mathlib.Order.Defs.LinearOrder
import Mathlib.Tactic.Tauto

namespace Archie

section

variable {α κ : Type} [LinearOrder κ]

/-! ### The merge -/

/-- The merge, where `last` is the key of the element written last. -/
def keyMerge (key : α → κ) (kept : Bool) (last : κ) : List α → List α → List α
  | [], new => new
  | o :: old, [] => o :: old
  | o :: old, n :: new =>
    if key o < key n then
      if key o = last then keyMerge key false last old (n :: new)
      else o :: keyMerge key true (key o) old (n :: new)
    else if key n < key o then
      if key n = last then
        if kept then keyMerge key kept last (o :: old) new
          else keyMerge key kept last old (n :: new)
      else n :: keyMerge key kept (key n) (o :: old) new
    else if kept then o :: keyMerge key kept (key o) old new
    else keyMerge key kept last old (n :: new)
  termination_by old new => old.length + new.length

/-- A list has the elements of two others, each once. -/
def UnionOf (old new out : List α) : Prop := out.Nodup ∧ ∀ a, a ∈ out ↔ a ∈ old ∨ a ∈ new

/-- The elements of a list with a key. -/
def groupOf (key : α → κ) (k : κ) (l : List α) : List α := l.filter fun a => key a = k

/-- The others. -/
def othersOf (key : α → κ) (k : κ) (l : List α) : List α := l.filter fun a => key a ≠ k

/-- What has to hold for the groups `X` and `Y` of one key, where `A` and `B` are the elements with
greater keys, and `rest` says what has to hold for these, once both groups are passed. -/
def KeptGroup (kept : Bool) (X Y A B : List α) (rest : Bool → Prop) : Prop :=
  if Y = [] then X.length = 1 ∧ rest true
  else if kept = false then
    (∀ a ∈ X, a ∈ Y) ∧ if Y.length = 1 then rest false else ∀ a ∈ A, a ∈ B
  else if X = [] then Y.length = 1 ∧ rest true
  else if X.length < Y.length then A = [] ∧ ∀ a ∈ Y.take X.length, a ∈ X
  else (∀ a ∈ Y, a ∈ X) ∧ if X.length = Y.length then rest true else B = []

/-- What has to hold group by group, in the order of the keys, for as long as both lists have
elements left. -/
def KeptGroups (key : α → κ) : Bool → List κ → List α → List α → Prop
  | _, [], _, _ => True
  | kept, k :: ks, old, new =>
    old = [] ∨ new = [] ∨
      KeptGroup kept (groupOf key k old) (groupOf key k new) (othersOf key k old)
        (othersOf key k new)
        fun kept => KeptGroups key kept ks (othersOf key k old) (othersOf key k new)

instance [DecidableEq α] (kept : Bool) (X Y A B : List α) (rest : Bool → Prop)
    [DecidablePred rest] :
    Decidable (KeptGroup kept X Y A B rest) := by
  delta KeptGroup
  infer_instance

instance decidableKeptGroups [DecidableEq α] (key : α → κ) :
    ∀ (kept : Bool) (ks : List κ) (old new : List α), Decidable (KeptGroups key kept ks old new)
  | _, [], _, _ => inferInstanceAs (Decidable True)
  | kept, k :: ks, old, new =>
    have : DecidablePred fun kept => KeptGroups key kept ks (othersOf key k old)
        (othersOf key k new) :=
      fun kept => decidableKeptGroups key kept ks _ _
    inferInstanceAs (Decidable (_ ∨ _ ∨ KeptGroup kept _ _ _ _ _))

/-! ### Groups -/

section

variable {key : α → κ} {k : κ} {l : List α}

theorem mem_groupOf {a : α} : a ∈ groupOf key k l ↔ a ∈ l ∧ key a = k := by
  rw [groupOf, List.mem_filter, decide_eq_true_iff]

theorem mem_othersOf {a : α} : a ∈ othersOf key k l ↔ a ∈ l ∧ key a ≠ k := by
  rw [othersOf, List.mem_filter, decide_eq_true_iff]

/-- The group with the least key is in front. -/
theorem groupOf_append_othersOf (hsorted : l.Pairwise fun a b => key a ≤ key b)
    (hk : ∀ a ∈ l, k ≤ key a) :
    groupOf key k l ++ othersOf key k l = l := by
  induction l with
  | nil => rfl
  | cons a l ih =>
    obtain ⟨ha, hl⟩ := List.pairwise_cons.mp hsorted
    have hih := ih hl fun b hb => hk b (List.mem_cons_of_mem a hb)
    by_cases hka : key a = k
    · rw [groupOf, List.filter_cons_of_pos (by simpa using hka), othersOf,
        List.filter_cons_of_neg (by simpa using hka), List.cons_append]
      exact congrArg (a :: ·) hih
    · -- All keys after this one are greater as well.
      have hlt : k < key a := lt_of_le_of_ne (hk a List.mem_cons_self) (Ne.symm hka)
      have hnil : groupOf key k (a :: l) = [] := by
        refine List.filter_eq_nil_iff.mpr fun b hb => ?_
        rw [decide_eq_true_iff]
        rcases List.mem_cons.mp hb with rfl | hb
        · exact hka
        · exact (lt_of_lt_of_le hlt (ha b hb)).ne'
      have hall : othersOf key k (a :: l) = a :: l := by
        refine List.filter_eq_self.mpr fun b hb => ?_
        rw [decide_eq_true_iff]
        rcases List.mem_cons.mp hb with rfl | hb
        · exact hka
        · exact (lt_of_lt_of_le hlt (ha b hb)).ne'
      rw [hnil, hall, List.nil_append]

end

/-! ### Unions -/

section

variable {X Y A B chunk rest : List α}

/-- Elements with one key and the others can be looked at apart. -/
theorem unionOf_append_iff {key : α → κ} {k : κ} (hX : ∀ a ∈ X, key a = k) (hY : ∀ a ∈ Y, key a = k)
    (hA : ∀ a ∈ A, key a ≠ k) (hB : ∀ a ∈ B, key a ≠ k) (hchunk : ∀ a ∈ chunk, key a = k)
    (hrest : ∀ a ∈ rest, key a ≠ k) :
    UnionOf (X ++ A) (Y ++ B) (chunk ++ rest) ↔ UnionOf X Y chunk ∧ UnionOf A B rest := by
  have hdisjoint : List.Disjoint chunk rest := fun a ha ha' => hrest a ha' (hchunk a ha)
  simp only [UnionOf, List.nodup_append', List.mem_append]
  constructor
  · rintro ⟨⟨hc, hr, -⟩, hmem⟩
    refine ⟨⟨hc, fun a => ?_⟩, hr, fun a => ?_⟩
    · by_cases ha : key a = k
      · have h := hmem a
        have hno : a ∉ rest ∧ a ∉ A ∧ a ∉ B :=
          ⟨fun h => hrest a h ha, fun h => hA a h ha, fun h => hB a h ha⟩
        tauto
      · have hno : a ∉ chunk ∧ a ∉ X ∧ a ∉ Y :=
          ⟨fun h => ha (hchunk a h), fun h => ha (hX a h), fun h => ha (hY a h)⟩
        tauto
    · by_cases ha : key a = k
      · have hno : a ∉ rest ∧ a ∉ A ∧ a ∉ B :=
          ⟨fun h => hrest a h ha, fun h => hA a h ha, fun h => hB a h ha⟩
        tauto
      · have h := hmem a
        have hno : a ∉ chunk ∧ a ∉ X ∧ a ∉ Y :=
          ⟨fun h => ha (hchunk a h), fun h => ha (hX a h), fun h => ha (hY a h)⟩
        tauto
  · rintro ⟨⟨hc, hmemc⟩, hr, hmemr⟩
    refine ⟨⟨hc, hr, hdisjoint⟩, fun a => ?_⟩
    rw [hmemc, hmemr]
    tauto

theorem unionOf_left_iff (hX : X.Nodup) : UnionOf X Y X ↔ ∀ a ∈ Y, a ∈ X := by
  constructor
  · intro h a ha
    exact (h.2 a).mpr (.inr ha)
  · intro h
    refine ⟨hX, fun a => ⟨.inl, ?_⟩⟩
    rintro (ha | ha)
    · exact ha
    · exact h a ha

theorem unionOf_right_iff (hY : Y.Nodup) : UnionOf X Y Y ↔ ∀ a ∈ X, a ∈ Y := by
  rw [← unionOf_left_iff hY]
  simp only [UnionOf, or_comm]

/-- Only one element is left of a group that stands in one list alone. -/
theorem unionOf_singleton_iff {x : α} (hX : (x :: X).Nodup) :
    (UnionOf (x :: X) [] [x] ↔ (x :: X).length = 1) ∧
      (UnionOf [] (x :: X) [x] ↔ (x :: X).length = 1) := by
  have hiff : (∀ a, a ∈ [x] ↔ a ∈ x :: X) ↔ (x :: X).length = 1 := by
    constructor
    · intro h
      cases X with
      | nil => rfl
      | cons y X =>
        have hy : y = x := List.mem_singleton.mp
            ((h y).mpr (List.mem_cons_of_mem x List.mem_cons_self))
        exact absurd (hy ▸ List.mem_cons_self) (List.nodup_cons.mp hX).1
    · intro h
      rw [List.length_cons, Nat.add_eq_right, List.length_eq_zero_iff] at h
      rw [h]
      exact fun _ => Iff.rfl
  simp only [UnionOf, List.nodup_singleton, List.not_mem_nil, or_false, false_or, true_and]
  exact ⟨hiff, hiff⟩

/-- A group whose first elements are replaced by as many of the other list. -/
theorem unionOf_append_drop_iff (hX : X.Nodup) (hY : Y.Nodup) (hlen : X.length ≤ Y.length) :
    UnionOf X Y (X ++ Y.drop X.length) ↔ ∀ a ∈ Y.take X.length, a ∈ X := by
  have hsplit : Y.take X.length ++ Y.drop X.length = Y := List.take_append_drop X.length Y
  have hdisjoint : List.Disjoint (Y.take X.length) (Y.drop X.length) := by
    rw [← hsplit] at hY
    exact (List.nodup_append'.mp hY).2.2
  constructor
  · intro h a ha
    rcases List.mem_append.mp ((h.2 a).mpr (.inr (List.mem_of_mem_take ha))) with hin | hdrop
    · exact hin
    · exact absurd hdrop (hdisjoint ha)
  · intro hsub
    -- As many elements, so that the two are the same set.
    have hperm : (Y.take X.length).Perm X := by
      refine (List.subperm_of_subset (hY.sublist (List.take_sublist _ _)) hsub).perm_of_length_le ?_
      rw [List.length_take]
      omega
    refine ⟨List.nodup_append'.mpr ⟨hX, hY.sublist (List.drop_sublist _ _), fun a ha hdrop => ?_⟩,
      fun a => ?_⟩
    · exact hdisjoint (hperm.mem_iff.mpr ha) hdrop
    · conv_rhs => rw [← hsplit]
      rw [List.mem_append, List.mem_append, hperm.mem_iff]
      tauto

/-- A part of a group is not all of it. -/
theorem not_unionOf_take (hX : X.Nodup) {m : ℕ} (hm : m < X.length) : ¬ UnionOf X Y (X.take m) := by
  intro h
  have hle := (List.subperm_of_subset hX fun a ha => (h.2 a).mpr (.inl ha)).length_le
  rw [List.length_take] at hle
  omega

end

/-! ### What becomes of a group -/

section

variable {key : α → κ} {kept : Bool} {last k : κ} {X Y old new : List α} {o n : α}

theorem keyMerge_nil_left (new : List α) : keyMerge key kept last [] new = new := by
  rw [keyMerge]

theorem keyMerge_nil_right (old : List α) : keyMerge key kept last old [] = old := by
  cases old with
  | nil => rw [keyMerge]
  | cons o old => rw [keyMerge]

/-- Nothing is made up. -/
theorem mem_of_mem_keyMerge {a : α} : a ∈ keyMerge key kept last old new → a ∈ old ∨ a ∈ new := by
  fun_induction keyMerge key kept last old new with
  | case1 => exact .inr
  | case2 => exact .inl
  | _ => simp only [List.mem_cons] at *; tauto

/-- The rest of a group of the first list is passed over. -/
theorem keyMerge_passed_left (hX : ∀ a ∈ X, key a = last) (hne : X ≠ []) (hn : last < key n) :
    keyMerge key kept last (X ++ old) (n :: new) = keyMerge key false last old (n :: new) := by
  induction X generalizing kept with
  | nil => exact absurd rfl hne
  | cons x X ih =>
    have hx : key x = last := hX x List.mem_cons_self
    rw [List.cons_append, keyMerge, if_pos (hx ▸ hn), if_pos hx]
    cases X with
    | nil => rw [List.nil_append]
    | cons y X => exact ih (fun a ha => hX a (List.mem_cons_of_mem x ha)) (List.cons_ne_nil y X)

/-- The rest of a group of the second list is passed over. -/
theorem keyMerge_passed_right (hY : ∀ a ∈ Y, key a = last) (ho : last < key o) :
    keyMerge key true last (o :: old) (Y ++ new) = keyMerge key true last (o :: old) new := by
  induction Y with
  | nil => rw [List.nil_append]
  | cons y Y ih =>
    have hy : key y = last := hY y List.mem_cons_self
    rw [List.cons_append, keyMerge,
      if_neg (by rw [hy]; exact ho.asymm), if_pos (hy ▸ ho), if_pos hy, if_pos rfl]
    exact ih fun a ha => hY a (List.mem_cons_of_mem y ha)

/-- If the first list has never had the lesser head, it is dropped instead. -/
theorem keyMerge_dropped (hn : key n = last) (hold : ∀ a ∈ old, last < key a) :
    keyMerge key false last old (n :: new) = n :: new := by
  induction old with
  | nil => exact keyMerge_nil_left _
  | cons o old ih =>
    have ho : last < key o := hold o List.mem_cons_self
    rw [keyMerge, if_neg (by rw [hn]; exact ho.asymm), if_pos (hn ▸ ho), if_pos hn, if_neg Bool.false_ne_true]
    exact ih fun a ha => hold a (List.mem_cons_of_mem o ha)

/-- Likewise where the keys are the same. -/
theorem keyMerge_ignored (hX : ∀ a ∈ X, key a = key n) :
    keyMerge key false last (X ++ old) (n :: new) = keyMerge key false last old (n :: new) := by
  induction X with
  | nil => rw [List.nil_append]
  | cons x X ih =>
    have hx : key x = key n := hX x List.mem_cons_self
    rw [List.cons_append, keyMerge,
      if_neg (by rw [hx]; exact lt_irrefl _), if_neg (by rw [hx]; exact lt_irrefl _),
      if_neg Bool.false_ne_true]
    exact ih fun a ha => hX a (List.mem_cons_of_mem x ha)

/-- A group of the first list alone: its first element is written. -/
theorem keyMerge_alone_left (hX : ∀ a ∈ o :: X, key a = k) (hlast : k ≠ last) (hn : k < key n) :
    keyMerge key kept last (o :: X ++ old) (n :: new) =
      o :: keyMerge key (X = []) k old (n :: new) := by
  have ho : key o = k := hX o List.mem_cons_self
  rw [List.cons_append, keyMerge,
    if_pos (by rw [ho]; exact hn), if_neg (by rw [ho]; exact hlast), ho]
  by_cases hne : X = []
  · rw [hne, List.nil_append, decide_eq_true rfl]
  · rw [keyMerge_passed_left (fun a ha => hX a (List.mem_cons_of_mem o ha)) hne hn,
      decide_eq_false hne]

/-- A group of the second list alone. -/
theorem keyMerge_alone_right (hY : ∀ a ∈ n :: Y, key a = k) (hlast : k ≠ last)
    (hold : ∀ a ∈ o :: old, k < key a) :
    keyMerge key kept last (o :: old) (n :: Y ++ new) =
      n :: if kept = false ∧ Y ≠ [] then Y ++ new else keyMerge key kept k (o :: old) new := by
  have hn : key n = k := hY n List.mem_cons_self
  have ho : k < key o := hold o List.mem_cons_self
  have hrest : ∀ a ∈ Y, key a = k := fun a ha => hY a (List.mem_cons_of_mem n ha)
  rw [List.cons_append, keyMerge,
    if_neg (by rw [hn]; exact ho.asymm), if_pos (by rw [hn]; exact ho),
    if_neg (by rw [hn]; exact hlast), hn]
  congr 1
  cases kept with
  | true => rw [keyMerge_passed_right hrest ho, if_neg (by simp)]
  | false =>
    cases Y with
    | nil => rw [List.nil_append, if_neg (by simp)]
    | cons y Y =>
      rw [if_pos ⟨rfl, List.cons_ne_nil y Y⟩, List.cons_append]
      exact keyMerge_dropped (hrest y List.mem_cons_self) hold

/-- Two groups of one size. -/
theorem keyMerge_pairs (hX : ∀ a ∈ X, key a = k) (hY : ∀ a ∈ Y, key a = k)
    (hlen : X.length = Y.length)
    (hne : X ≠ []) :
    keyMerge key true last (X ++ old) (Y ++ new) = X ++ keyMerge key true k old new := by
  induction X generalizing Y last with
  | nil => exact absurd rfl hne
  | cons x X ih =>
    obtain ⟨y, Y, rfl⟩ := List.exists_cons_of_length_pos
      (show 0 < Y.length by rw [← hlen]; exact Nat.succ_pos X.length)
    have hx : key x = k := hX x List.mem_cons_self
    have hy : key y = k := hY y List.mem_cons_self
    rw [List.cons_append, List.cons_append, keyMerge, if_neg (by rw [hx, hy]; exact lt_irrefl _),
      if_neg (by rw [hx, hy]; exact lt_irrefl _), if_pos rfl, hx, List.cons_append]
    congr 1
    by_cases hnil : X = []
    · obtain rfl : Y = [] := by
        rw [hnil] at hlen
        exact List.length_eq_zero_iff.mp (Nat.succ.inj hlen).symm
      rw [hnil, List.nil_append, List.nil_append, List.nil_append]
    · exact ih (fun a ha => hX a (List.mem_cons_of_mem x ha))
        (fun a ha => hY a (List.mem_cons_of_mem y ha))
        (Nat.succ.inj hlen) hnil

/-! ### The merge, group by group -/

variable {A B : List α}

variable (kept) in
/-- One group: of what is written before the greater keys, and after. -/
theorem unionOf_group_iff (hX : ∀ a ∈ X, key a = k) (hY : ∀ a ∈ Y, key a = k)
    (hA : ∀ a ∈ A, k < key a)
    (hB : ∀ a ∈ B, k < key a) (hold : (X ++ A).Nodup) (hnew : (Y ++ B).Nodup) (hlast : k ≠ last)
    (hsome : X ≠ [] ∨ Y ≠ []) (hone : X ++ A ≠ []) (hne : Y ++ B ≠ []) {rest : Bool → Prop}
    (hrest : ∀ kept, UnionOf A B (keyMerge key kept k A B) ↔ rest kept) :
    UnionOf (X ++ A) (Y ++ B) (keyMerge key kept last (X ++ A) (Y ++ B)) ↔
      KeptGroup kept X Y A B rest := by
  obtain ⟨hnX, hnA, -⟩ := List.nodup_append'.mp hold
  obtain ⟨hnY, hnB, -⟩ := List.nodup_append'.mp hnew
  have hA' : ∀ a ∈ A, key a ≠ k := fun a ha => (hA a ha).ne'
  have hB' : ∀ a ∈ B, key a ≠ k := fun a ha => (hB a ha).ne'
  have hmerge : ∀ kept, ∀ a ∈ keyMerge key kept k A B, key a ≠ k := fun kept a ha =>
    (mem_of_mem_keyMerge ha).elim (hA' a) (hB' a)
  -- All parts of a result are of this form.
  have hparts : ∀ chunk out : List α, (∀ a ∈ chunk, key a = k) → (∀ a ∈ out, key a ≠ k) →
      (UnionOf (X ++ A) (Y ++ B) (chunk ++ out) ↔ UnionOf X Y chunk ∧ UnionOf A B out) :=
    fun chunk out hchunk hout => unionOf_append_iff hX hY hA' hB' hchunk hout
  rw [KeptGroup]
  by_cases hYnil : Y = []
  · -- The group is in the first list alone.
    subst hYnil
    obtain ⟨o, X, rfl⟩ := List.exists_cons_of_ne_nil (hsome.resolve_right fun h => h rfl)
    obtain ⟨n, B, rfl⟩ := List.exists_cons_of_ne_nil hne
    rw [if_pos rfl, List.nil_append, keyMerge_alone_left hX hlast (hB n List.mem_cons_self)]
    refine (hparts [o] _ (fun a ha => hX a ?_) (hmerge _)).trans ?_
    · rw [List.mem_singleton.mp ha]
      exact List.mem_cons_self
    · rw [(unionOf_singleton_iff hnX).1, hrest]
      refine and_congr_right fun hlen => ?_
      rw [List.length_cons, Nat.add_eq_right, List.length_eq_zero_iff] at hlen
      rw [hlen, decide_eq_true rfl]
  rw [if_neg hYnil]
  cases kept with
  | false =>
    obtain ⟨n, Y, rfl⟩ := List.exists_cons_of_ne_nil hYnil
    rw [if_pos rfl, List.cons_append,
      keyMerge_ignored fun a ha => (hX a ha).trans (hY n List.mem_cons_self).symm]
    cases A with
    | nil =>
      rw [keyMerge_nil_left, ← List.cons_append]
      refine (hparts (n :: Y) B hY hB').trans ?_
      have hrest' := hrest false
      rw [keyMerge_nil_left, unionOf_right_iff hnB] at hrest'
      rw [unionOf_right_iff hnY, unionOf_right_iff hnB]
      refine and_congr_right fun _ => ?_
      split
      · exact hrest'
      · exact Iff.rfl
    | cons o A =>
      rw [← List.cons_append, keyMerge_alone_right hY hlast hA]
      by_cases hYnil : Y = []
      · subst hYnil
        rw [if_neg fun h => h.2 rfl]
        refine (hparts [n] _ hY (hmerge _)).trans ?_
        rw [unionOf_right_iff hnY, hrest]
        exact Iff.rfl
      · have hlen : ¬ (n :: Y).length = 1 := by
          rw [List.length_cons, Nat.add_eq_right, List.length_eq_zero_iff]
          exact hYnil
        rw [if_pos ⟨rfl, hYnil⟩, if_neg hlen, ← List.cons_append]
        refine (hparts (n :: Y) B hY hB').trans ?_
        rw [unionOf_right_iff hnY, unionOf_right_iff hnB]
  | true =>
    rw [if_neg (by simp)]
    by_cases hXnil : X = []
    · -- The group is in the second list alone.
      subst hXnil
      obtain ⟨n, Y, rfl⟩ := List.exists_cons_of_ne_nil hYnil
      obtain ⟨o, A, rfl⟩ := List.exists_cons_of_ne_nil hone
      rw [if_pos rfl, List.nil_append, keyMerge_alone_right hY hlast hA, if_neg (by simp)]
      refine (hparts [n] _ (fun a ha => hY a ?_) (hmerge _)).trans ?_
      · rw [List.mem_singleton.mp ha]
        exact List.mem_cons_self
      · rw [(unionOf_singleton_iff hnY).2, hrest]
    rw [if_neg hXnil]
    have hXpos : 0 < X.length := List.length_pos_of_ne_nil hXnil
    have hYpos : 0 < Y.length := List.length_pos_of_ne_nil hYnil
    rcases lt_trichotomy X.length Y.length with hlt | heq | hgt
    · -- The elements of the second list that have no partner come last.
      have htake : (Y.take X.length).length = X.length := List.length_take_of_le hlt.le
      have hkey : ∀ a ∈ Y.take X.length, key a = k := fun a ha => hY a (List.mem_of_mem_take ha)
      have hdrop : ∀ a ∈ Y.drop X.length, key a = k := fun a ha => hY a (List.mem_of_mem_drop ha)
      have hsplit : Y ++ B = Y.take X.length ++ (Y.drop X.length ++ B) := by
        rw [← List.append_assoc, List.take_append_drop]
      rw [if_pos hlt]
      cases A with
      | nil =>
        have hmerged : keyMerge key true last (X ++ []) (Y ++ B) = X ++ Y.drop X.length ++ B := by
          rw [hsplit, keyMerge_pairs hX hkey htake.symm hXnil, keyMerge_nil_left, List.append_assoc]
        have hchunk : ∀ a ∈ X ++ Y.drop X.length, key a = k := fun a ha =>
          (List.mem_append.mp ha).elim (hX a) (hdrop a)
        rw [hmerged]
        refine (hparts (X ++ Y.drop X.length) B hchunk hB').trans ?_
        rw [unionOf_append_drop_iff hnX hnY hlt.le, unionOf_right_iff hnB]
        simp
      | cons o A =>
        have hmerged : keyMerge key true last (X ++ o :: A) (Y ++ B) = X ++ keyMerge key true k
            (o :: A) B := by
          rw [hsplit, keyMerge_pairs hX hkey htake.symm hXnil,
            keyMerge_passed_right hdrop (hA o List.mem_cons_self)]
        rw [hmerged]
        refine (hparts X _ hX (hmerge true)).trans ?_
        rw [unionOf_left_iff hnX]
        constructor
        · rintro ⟨hsub, -⟩
          have hle := (List.subperm_of_subset hnY hsub).length_le
          omega
        · rintro ⟨hnil, -⟩
          exact absurd hnil (List.cons_ne_nil o A)
    · rw [if_neg heq.not_lt, if_pos heq, keyMerge_pairs hX hY heq hXnil]
      refine (hparts X _ hX (hmerge true)).trans ?_
      rw [unionOf_left_iff hnX, hrest]
    · -- So do those of the first list, or they are passed over.
      have htake : (X.take Y.length).length = Y.length := List.length_take_of_le hgt.le
      have hkey : ∀ a ∈ X.take Y.length, key a = k := fun a ha => hX a (List.mem_of_mem_take ha)
      have hdrop : ∀ a ∈ X.drop Y.length, key a = k := fun a ha => hX a (List.mem_of_mem_drop ha)
      have hne' : X.take Y.length ≠ [] := List.ne_nil_of_length_pos (by omega)
      have hdropne : X.drop Y.length ≠ [] :=
        List.ne_nil_of_length_pos (by rw [List.length_drop]; omega)
      have hsplit : X ++ A = X.take Y.length ++ (X.drop Y.length ++ A) := by
        rw [← List.append_assoc, List.take_append_drop]
      rw [if_neg hgt.asymm, if_neg hgt.ne']
      cases B with
      | nil =>
        have hmerged : keyMerge key true last (X ++ A) (Y ++ []) = X ++ A := by
          rw [hsplit, keyMerge_pairs hkey hY htake hne', keyMerge_nil_right]
        rw [hmerged]
        refine (hparts X A hX hA').trans ?_
        rw [unionOf_left_iff hnX, unionOf_left_iff hnA]
        simp
      | cons n B =>
        have hmerged : keyMerge key true last (X ++ A) (Y ++ n :: B) =
            X.take Y.length ++ keyMerge key false k A (n :: B) := by
          rw [hsplit, keyMerge_pairs hkey hY htake hne',
            keyMerge_passed_left hdrop hdropne (hB n List.mem_cons_self)]
        rw [hmerged]
        refine (hparts (X.take Y.length) _ hkey (hmerge false)).trans ?_
        constructor
        · rintro ⟨htaken, -⟩
          exact absurd htaken (not_unionOf_take hnX hgt)
        · rintro ⟨-, hnil⟩
          exact absurd hnil (List.cons_ne_nil n B)

/-- **The merge** has each element of the two lists once exactly if each group allows it. -/
theorem unionOf_keyMerge_iff {ks : List κ} (hks : ks.Pairwise (· < ·))
    (hmem : ∀ k, k ∈ ks ↔ ∃ a, (a ∈ old ∨ a ∈ new) ∧ key a = k) (hlast : ks.head? ≠ some last)
    (hold : old.Pairwise fun a b => key a ≤ key b) (hnew : new.Pairwise fun a b => key a ≤ key b)
    (hnold : old.Nodup) (hnnew : new.Nodup) :
    UnionOf old new (keyMerge key kept last old new) ↔ KeptGroups key kept ks old new := by
  induction ks generalizing kept last old new with
  | nil =>
    have hnone : ∀ a, ¬ (a ∈ old ∨ a ∈ new) := fun a ha =>
      List.not_mem_nil ((hmem (key a)).mpr ⟨a, ha, rfl⟩)
    obtain rfl : old = [] := List.eq_nil_iff_forall_not_mem.mpr fun a ha => hnone a (.inl ha)
    rw [keyMerge_nil_left, unionOf_right_iff hnnew]
    exact ⟨fun _ => trivial, fun _ a ha => absurd ha List.not_mem_nil⟩
  | cons k ks ih =>
    obtain ⟨hk, hks'⟩ := List.pairwise_cons.mp hks
    by_cases hone : old = []
    · rw [hone, keyMerge_nil_left, unionOf_right_iff hnnew]
      exact ⟨fun _ => .inl rfl, fun _ a ha => absurd ha List.not_mem_nil⟩
    by_cases hne : new = []
    · rw [hne, keyMerge_nil_right, unionOf_left_iff hnold]
      exact ⟨fun _ => .inr (.inl rfl), fun _ a ha => absurd ha List.not_mem_nil⟩
    -- Both lists begin with their group of the least key.
    have hle : ∀ a, a ∈ old ∨ a ∈ new → k ≤ key a := by
      intro a ha
      rcases List.mem_cons.mp ((hmem (key a)).mpr ⟨a, ha, rfl⟩) with heq | hin
      · exact heq.ge
      · exact (hk _ hin).le
    have hsplit := groupOf_append_othersOf hold fun a ha => hle a (.inl ha)
    have hsplit' := groupOf_append_othersOf hnew fun a ha => hle a (.inr ha)
    have hothers : ∀ a, a ∈ othersOf key k old ∨ a ∈ othersOf key k new ↔ (a ∈ old ∨ a ∈ new) ∧
        key a ≠ k := by
      intro a
      rw [mem_othersOf, mem_othersOf]
      tauto
    have hsome : groupOf key k old ≠ [] ∨ groupOf key k new ≠ [] := by
      obtain ⟨a, ha | ha, hka⟩ := (hmem k).mp List.mem_cons_self
      · exact .inl (List.ne_nil_of_mem (mem_groupOf.mpr ⟨ha, hka⟩))
      · exact .inr (List.ne_nil_of_mem (mem_groupOf.mpr ⟨ha, hka⟩))
    have hrest : ∀ kept, UnionOf (othersOf key k old) (othersOf key k new)
        (keyMerge key kept k (othersOf key k old) (othersOf key k new)) ↔
          KeptGroups key kept ks (othersOf key k old) (othersOf key k new) := by
      intro kept
      refine ih hks' (fun j => ?_) (fun h => lt_irrefl k (hk k (List.mem_of_mem_head? h)))
        (hold.filter _)
        (hnew.filter _) (hnold.filter _) (hnnew.filter _)
      constructor
      · intro hj
        obtain ⟨a, ha, rfl⟩ := (hmem j).mp (List.mem_cons_of_mem k hj)
        exact ⟨a, (hothers a).mpr ⟨ha, (hk _ hj).ne'⟩, rfl⟩
      · rintro ⟨a, ha, rfl⟩
        obtain ⟨ha, hka⟩ := (hothers a).mp ha
        exact (List.mem_cons.mp ((hmem _).mpr ⟨a, ha, rfl⟩)).resolve_left hka
    have hgreater : ∀ a, a ∈ othersOf key k old ∨ a ∈ othersOf key k new → k < key a := fun a ha =>
      lt_of_le_of_ne (hle a ((hothers a).mp ha).1) ((hothers a).mp ha).2.symm
    have hgroup := unionOf_group_iff kept (fun a ha => (mem_groupOf.mp ha).2)
      (fun a ha => (mem_groupOf.mp ha).2) (fun a ha => hgreater a (.inl ha))
        (fun a ha => hgreater a (.inr ha))
      (by rw [hsplit]; exact hnold) (by rw [hsplit']; exact hnnew)
      (fun h => hlast (congrArg some h)) hsome
        (by rw [hsplit]; exact hone) (by rw [hsplit']; exact hne)
      hrest
    rw [hsplit, hsplit'] at hgroup
    rw [hgroup, KeptGroups]
    exact ⟨fun h => .inr (.inr h), fun h => (h.resolve_left hone).resolve_left hne⟩

/-- Where the least key passes for the one written last, only the second list is written. -/
theorem unionOf_keyMerge_least_iff (hold : old.Pairwise fun a b => key a ≤ key b)
    (hnew : new.Pairwise fun a b => key a ≤ key b) (hnnew : new.Nodup)
    (hleast : ∀ a, a ∈ old ∨ a ∈ new → last ≤ key a)
    (hsome : ∃ a, (a ∈ old ∨ a ∈ new) ∧ key a = last)
    (hne : new ≠ []) :
    UnionOf old new (keyMerge key false last old new) ↔ ∀ a ∈ old, a ∈ new := by
  have hsplit := groupOf_append_othersOf hold fun a ha => hleast a (.inl ha)
  have hlt : ∀ a ∈ othersOf key last old, last < key a := fun a ha =>
    lt_of_le_of_ne (hleast a (.inl (mem_othersOf.mp ha).1)) (mem_othersOf.mp ha).2.symm
  obtain ⟨n, new, rfl⟩ := List.exists_cons_of_ne_nil hne
  by_cases hn : key n = last
  · have hmerged : keyMerge key false last old (n :: new) = n :: new := by
      rw [← hsplit, keyMerge_ignored fun a ha => (mem_groupOf.mp ha).2.trans hn.symm,
        keyMerge_dropped hn hlt]
    rw [hmerged, unionOf_right_iff hnnew]
  · -- The group is in the first list alone, and lost.
    have hgreater : ∀ a ∈ n :: new, last < key a := by
      have hn' : last < key n := lt_of_le_of_ne (hleast n (.inr List.mem_cons_self)) (Ne.symm hn)
      intro a ha
      rcases List.mem_cons.mp ha with rfl | ha
      · exact hn'
      · exact hn'.trans_le ((List.pairwise_cons.mp hnew).1 a ha)
    obtain ⟨a, ha, hka⟩ := hsome
    have hin : a ∈ old := ha.resolve_right fun h => (hgreater a h).ne' hka
    have hgroup : groupOf key last old ≠ [] := List.ne_nil_of_mem (mem_groupOf.mpr ⟨hin, hka⟩)
    have hmerged : keyMerge key false last old (n :: new) =
        keyMerge key false last (othersOf key last old) (n :: new) := by
      conv_lhs => rw [← hsplit]
      exact keyMerge_passed_left (fun a ha => (mem_groupOf.mp ha).2) hgroup
        (hgreater n List.mem_cons_self)
    rw [hmerged]
    constructor
    · intro h
      rcases mem_of_mem_keyMerge ((h.2 a).mpr (.inl hin)) with hothers | hnew
      · exact absurd hka (mem_othersOf.mp hothers).2
      · exact absurd hka (hgreater a hnew).ne'
    · intro h
      exact absurd hka (hgreater a (h a hin)).ne'

end

end

end Archie
