/-
The marks of the elements of sorted runs.

A mark has the count of an element and two heights: the greatest height that the element has in
common with an element before it, and with one after it, among its neighbours and the elements of
earlier runs between them.  Of two elements the height is greater the closer they are, so that two
elements that are neighbours among all runs find their height in one of the marks between them.

* `Gap` — the place of an element between two neighbours of a run.
* `MarkOk`, `Marked` — the marks of a run, by the elements of the earlier runs.
* `Marked.insert` — one more element of an earlier run.
* `MarkedRuns.allPending` — the counts are those by which the runs are merged.
* `MarkedRuns.height` — the height of neighbours.
-/
import Mathlib.Order.Nat
import Archie.RunMerge

namespace RunMerge

open Classical

variable {α : Type*}

/-- A count and two heights. -/
structure Mark where
  c : ℕ
  lh : ℕ
  rh : ℕ
  deriving DecidableEq, Repr

/-- Heights that are greater the closer two elements are. -/
structure Heights (lt : α → α → Prop) (d : α → α → ℕ) : Prop where
  left : ∀ {x y z}, lt x y → lt y z → d x z ≤ d y z
  right : ∀ {x y z}, lt x y → lt y z → d x z ≤ d x y

section

variable (lt : α → α → Prop) (d : α → α → ℕ)

/-- An element lies before element `i` of a run, and not before the one in front of it. -/
structure Gap (S : List α) (i : ℕ) (x : α) : Prop where
  after : ∀ p, 0 < i → S[i - 1]? = some p → lt p x
  before : ∀ q, S[i]? = some q → lt x q

/-- The mark of element `i` of the run `S`, by the elements `E` of the runs before. -/
structure MarkOk (E S : List α) (i : ℕ) (y : α) (m : Mark) : Prop where
  count : m.c = E.countP fun x => Gap lt S i x
  leftGap : ∀ x ∈ E, Gap lt S i x → d x y ≤ m.lh
  leftNext : ∀ x, 0 < i → S[i - 1]? = some x → d x y ≤ m.lh
  leftOf : m.lh = 0 ∨ ∃ x ∈ E ++ S, lt x y ∧ m.lh ≤ d x y
  rightGap : ∀ x ∈ E, Gap lt S (i + 1) x → d y x ≤ m.rh
  rightNext : ∀ x, S[i + 1]? = some x → d y x ≤ m.rh
  rightOf : m.rh = 0 ∨ ∃ x ∈ E ++ S, lt y x ∧ m.rh ≤ d y x

/-- The marks of a run. -/
structure Marked (E S : List α) (ms : List Mark) : Prop where
  length : ms.length = S.length
  ok : ∀ (i : ℕ) (y : α) (m : Mark), S[i]? = some y → ms[i]? = some m → MarkOk lt d E S i y m

/-- The marks of all runs, by the elements of those before. -/
def MarkedRuns : List α → List (List (α × Mark)) → Prop
  | _, [] => True
  | E, R :: Rs =>
    Marked lt d E (R.map Prod.fst) (R.map Prod.snd) ∧ MarkedRuns (E ++ R.map Prod.fst) Rs

end

section

variable {lt : α → α → Prop} {d : α → α → ℕ}

theorem lt_of_index {S : List α} (hS : S.Pairwise lt) {i j : ℕ} {x y : α} (hij : i < j)
    (hx : S[i]? = some x) (hy : S[j]? = some y) : lt x y := by
  obtain ⟨hi, rfl⟩ := List.getElem?_eq_some_iff.mp hx
  obtain ⟨hj, rfl⟩ := List.getElem?_eq_some_iff.mp hy
  exact List.pairwise_iff_getElem.mp hS i j hi hj hij

/-- The elements are among those with one more. -/
theorem exists_concat {E S : List α} {P : α → Prop} (a : α) (h : ∃ x ∈ E ++ S, P x) :
    ∃ x ∈ E ++ [a] ++ S, P x := by
  obtain ⟨x, hx, hp⟩ := h
  refine ⟨x, ?_, hp⟩
  rw [List.mem_append, List.mem_append]
  exact (List.mem_append.mp hx).imp_left Or.inl

section

variable [IsStrictOrder α lt]

/-- An element has one place in a run. -/
theorem Gap.unique {S : List α} (hS : S.Pairwise lt) {i j : ℕ} {x : α} (hi : Gap lt S i x)
    (hj : Gap lt S j x) (hin : i ≤ S.length) (hjn : j ≤ S.length) : i = j := by
  have hlt {i j : ℕ} (hij : i < j) (hjn : j ≤ S.length) (hi : Gap lt S i x) (hj : Gap lt S j x) :
      False := by
    obtain ⟨q, hq⟩ : ∃ q, S[i]? = some q := ⟨_, List.getElem?_eq_getElem (by omega)⟩
    obtain ⟨p, hp⟩ : ∃ p, S[j - 1]? = some p := ⟨_, List.getElem?_eq_getElem (by omega)⟩
    have hxq := hi.before q hq
    have hpx := hj.after p (by omega) hp
    have hpq := IsTrans.trans _ _ _ hpx hxq
    rcases Nat.lt_or_ge i (j - 1) with hij' | hij'
    · exact irrefl_of lt p (IsTrans.trans _ _ _ hpq (lt_of_index hS hij' hq hp))
    · obtain rfl : i = j - 1 := by omega
      obtain rfl := Option.some.inj (hq.symm.trans hp)
      exact irrefl_of lt q hpq
  rcases Nat.lt_trichotomy i j with hij | hij | hij
  · exact (hlt hij hjn hi hj).elim
  · exact hij
  · exact (hlt hij hin hj hi).elim

omit [IsStrictOrder α lt] in
/-- The mark of an element that is not a neighbour of a new element. -/
theorem MarkOk.concat_other {E S : List α} {i : ℕ} {a y : α} {m : Mark}
    (h : MarkOk lt d E S i y m) (hleft : ¬ Gap lt S i a) (hright : ¬ Gap lt S (i + 1) a) :
    MarkOk lt d (E ++ [a]) S i y m where
  count := by
    rw [List.countP_append, List.countP_singleton, if_neg (by simpa using hleft), Nat.add_zero]
    exact h.count
  leftGap := by
    intro x hx hgap
    rcases List.mem_append.mp hx with hx | hx
    · exact h.leftGap x hx hgap
    · exact absurd (List.mem_singleton.mp hx ▸ hgap) hleft
  leftNext := h.leftNext
  leftOf := h.leftOf.imp_right (exists_concat a)
  rightGap := by
    intro x hx hgap
    rcases List.mem_append.mp hx with hx | hx
    · exact h.rightGap x hx hgap
    · exact absurd (List.mem_singleton.mp hx ▸ hgap) hright
  rightNext := h.rightNext
  rightOf := h.rightOf.imp_right (exists_concat a)

/-- The mark of the element behind a new one. -/
theorem MarkOk.concat_left {E S : List α} (hS : S.Pairwise lt) {i : ℕ} {a y : α} {m : Mark}
    (h : MarkOk lt d E S i y m) (hy : S[i]? = some y) (hgap : Gap lt S i a) :
    MarkOk lt d (E ++ [a]) S i y ⟨m.c + 1, max m.lh (d a y), m.rh⟩ where
  count := by
    rw [List.countP_append, List.countP_singleton, if_pos (by simpa using hgap), h.count]
  leftGap := by
    intro x hx hgap'
    rcases List.mem_append.mp hx with hx | hx
    · exact Nat.le_trans (h.leftGap x hx hgap') (Nat.le_max_left _ _)
    · rw [List.mem_singleton.mp hx]
      exact Nat.le_max_right _ _
  leftNext := fun x hi hx => Nat.le_trans (h.leftNext x hi hx) (Nat.le_max_left _ _)
  leftOf := by
    rcases le_total (d a y) m.lh with hle | hle
    · dsimp only
      rw [max_eq_left hle]
      exact h.leftOf.imp_right (exists_concat a)
    · dsimp only
      rw [max_eq_right hle]
      exact Or.inr ⟨a, List.mem_append_left _ (List.mem_append_right _ List.mem_cons_self),
        hgap.before y hy, le_refl _⟩
  rightGap := by
    intro x hx hgap'
    rcases List.mem_append.mp hx with hx | hx
    · exact h.rightGap x hx hgap'
    · rw [List.mem_singleton.mp hx] at hgap'
      obtain ⟨hi, -⟩ := List.getElem?_eq_some_iff.mp hy
      have heq := hgap.unique hS hgap' (by omega) (by omega)
      omega
  rightNext := h.rightNext
  rightOf := h.rightOf.imp_right (exists_concat a)

/-- The mark of the element in front of a new one. -/
theorem MarkOk.concat_right {E S : List α} (hS : S.Pairwise lt) {i : ℕ} {a y : α} {m : Mark}
    (h : MarkOk lt d E S i y m) (hy : S[i]? = some y) (hgap : Gap lt S (i + 1) a) :
    MarkOk lt d (E ++ [a]) S i y ⟨m.c, m.lh, max m.rh (d y a)⟩ := by
  obtain ⟨hi, -⟩ := List.getElem?_eq_some_iff.mp hy
  have hleft : ¬ Gap lt S i a := fun hgap' => by
    have heq := hgap.unique hS hgap' (by omega) (by omega)
    omega
  exact {
    count := by
      rw [List.countP_append, List.countP_singleton, if_neg (by simpa using hleft), Nat.add_zero]
      exact h.count
    leftGap := by
      intro x hx hgap'
      rcases List.mem_append.mp hx with hx | hx
      · exact h.leftGap x hx hgap'
      · exact absurd (List.mem_singleton.mp hx ▸ hgap') hleft
    leftNext := h.leftNext
    leftOf := h.leftOf.imp_right (exists_concat a)
    rightGap := by
      intro x hx hgap'
      rcases List.mem_append.mp hx with hx | hx
      · exact Nat.le_trans (h.rightGap x hx hgap') (Nat.le_max_left _ _)
      · rw [List.mem_singleton.mp hx]
        exact Nat.le_max_right _ _
    rightNext := fun x hx => Nat.le_trans (h.rightNext x hx) (Nat.le_max_left _ _)
    rightOf := by
      rcases le_total (d y a) m.rh with hle | hle
      · dsimp only
        rw [max_eq_left hle]
        exact h.rightOf.imp_right (exists_concat a)
      · dsimp only
        rw [max_eq_right hle]
        exact Or.inr ⟨a, List.mem_append_left _ (List.mem_append_right _ List.mem_cons_self),
          hgap.after y (Nat.succ_pos i) hy, le_refl _⟩ }

/-- **One more element of an earlier run.**  It changes the marks of its two neighbours. -/
theorem Marked.insert {E S : List α} {ms ms' : List Mark} {a : α} {j : ℕ} (hS : S.Pairwise lt)
    (h : Marked lt d E S ms) (hj : j ≤ S.length) (hgap : Gap lt S j a)
    (hlength : ms'.length = ms.length)
    (hright : ∀ y m, S[j]? = some y → ms[j]? = some m →
      ms'[j]? = some ⟨m.c + 1, max m.lh (d a y), m.rh⟩)
    (hleft : ∀ y m, 0 < j → S[j - 1]? = some y → ms[j - 1]? = some m →
      ms'[j - 1]? = some ⟨m.c, m.lh, max m.rh (d y a)⟩)
    (hother : ∀ i, i ≠ j → i + 1 ≠ j → ms'[i]? = ms[i]?) : Marked lt d (E ++ [a]) S ms' := by
  refine ⟨hlength.trans h.length, fun i y m' hy hm' => ?_⟩
  obtain ⟨hi, -⟩ := List.getElem?_eq_some_iff.mp hy
  obtain ⟨m, hm⟩ : ∃ m, ms[i]? = some m := ⟨_, List.getElem?_eq_getElem (h.length ▸ hi)⟩
  have hold := h.ok i y m hy hm
  by_cases hij : i = j
  · subst hij
    obtain rfl := Option.some.inj ((hright y m hy hm).symm.trans hm')
    exact hold.concat_left hS hy hgap
  · by_cases hij' : i + 1 = j
    · subst hij'
      obtain rfl := Option.some.inj ((hleft y m (Nat.succ_pos i) hy hm).symm.trans hm')
      exact hold.concat_right hS hy hgap
    · rw [hother i hij hij', hm] at hm'
      obtain rfl := Option.some.inj hm'
      refine hold.concat_other (fun hgap' => hij ?_) fun hgap' => hij' ?_
      · exact hgap'.unique hS hgap (by omega) hj
      · exact hgap'.unique hS hgap (by omega) hj

/-! ### The counts -/

/-- A run as a queue of elements with their counts. -/
def queueOf (R : List (α × Mark)) : List ((α × Mark) × ℕ) × ℕ := (R.map fun e => (e, e.2.c), 0)

omit [IsStrictOrder α lt] in
theorem fst_queueOf (R : List (α × Mark)) : (queueOf R).1.map Prod.fst = R := by
  rw [queueOf, List.map_map]
  exact List.map_id R

omit [IsStrictOrder α lt] in
theorem left_queueOf (Rs : List (List (α × Mark))) : left (Rs.map queueOf) = Rs.flatten := by
  induction Rs with
  | nil => rfl
  | cons R Rs ih => rw [List.map_cons, left_cons, fst_queueOf, ih, List.flatten_cons]

omit [IsStrictOrder α lt] in
theorem gap_zero {y : α} {ys : List α} {x : α} : Gap lt (y :: ys) 0 x ↔ lt x y := by
  refine ⟨fun h => h.before y rfl, fun h => ⟨fun p h0 => absurd h0 (Nat.lt_irrefl 0), ?_⟩⟩
  intro q hq
  rwa [← Option.some.inj hq]

omit [IsStrictOrder α lt] in
theorem gap_succ {S : List α} {i : ℕ} {p y x : α} (hp : S[i]? = some p)
    (hy : S[i + 1]? = some y) : Gap lt S (i + 1) x ↔ lt p x ∧ lt x y := by
  refine ⟨fun h => ⟨h.after p (Nat.succ_pos i) hp, h.before y hy⟩, fun h => ⟨?_, ?_⟩⟩
  · intro p' _ hp'
    rw [Nat.add_sub_cancel, hp] at hp'
    rw [← Option.some.inj hp']
    exact h.1
  · intro q hq
    rw [← Option.some.inj (hy.symm.trans hq)]
    exact h.2

/-- The order of elements with their marks. -/
def markLt (lt : α → α → Prop) (a b : α × Mark) : Prop := lt a.1 b.1

omit [IsStrictOrder α lt] in
theorem pairwise_markLt {l : List (α × Mark)} :
    l.Pairwise (markLt lt) ↔ (l.map Prod.fst).Pairwise lt := by
  rw [List.pairwise_map]
  rfl

instance markLt_order : IsStrictOrder (α × Mark) (markLt lt) where
  irrefl := fun a => irrefl_of lt a.1
  trans := fun a b c h h' => IsTrans.trans (r := lt) a.1 b.1 c.1 h h'

omit [IsStrictOrder α lt] in
theorem counted_of_next {E R ys : List (α × Mark)} {p : α × Mark} (hR : R = p :: ys)
    (h : ∀ i p y, R[i]? = some p → R[i + 1]? = some y → y.2.c = between (markLt lt) E p y) :
    Counted (markLt lt) E p (ys.map fun e => (e, e.2.c)) := by
  induction ys generalizing R p with
  | nil => trivial
  | cons y ys ih =>
    subst hR
    exact ⟨h 0 p y rfl rfl, ih rfl fun i p y hp hy => h (i + 1) p y hp hy⟩

omit [IsStrictOrder α lt] in
theorem Marked.okAt {E : List α} {R : List (α × Mark)} {i : ℕ} {y : α × Mark}
    (h : Marked lt d E (R.map Prod.fst) (R.map Prod.snd)) (hy : R[i]? = some y) :
    MarkOk lt d E (R.map Prod.fst) i y.1 y.2 := by
  refine h.ok i y.1 y.2 ?_ ?_
  · rw [List.getElem?_map, hy, Option.map_some]
  · rw [List.getElem?_map, hy, Option.map_some]

omit [IsStrictOrder α lt] in
theorem Marked.pending {E R : List (α × Mark)}
    (h : Marked lt d (E.map Prod.fst) (R.map Prod.fst) (R.map Prod.snd)) :
    Pending (markLt lt) E (queueOf R) := by
  rcases R with _ | ⟨y, ys⟩
  · trivial
  · refine ⟨?_, counted_of_next rfl fun i p y hp hy => ?_⟩
    · have hcount := (h.okAt (i := 0) (y := y) rfl).count
      show 0 + below (markLt lt) E y = y.2.c
      rw [Nat.zero_add, hcount, below, List.countP_map]
      refine List.countP_congr fun x _ => ?_
      simp only [Function.comp_apply, decide_eq_true_eq, List.map_cons, gap_zero]
      rfl
    · rw [(h.okAt hy).count, between, List.countP_map]
      refine List.countP_congr fun x _ => ?_
      simp only [Function.comp_apply, decide_eq_true_eq]
      refine gap_succ ?_ ?_
      · rw [List.getElem?_map, hp, Option.map_some]
      · rw [List.getElem?_map, hy, Option.map_some]

omit [IsStrictOrder α lt] in
/-- **The counts** are those by which the runs are merged. -/
theorem MarkedRuns.allPending {E : List (α × Mark)} {Rs : List (List (α × Mark))}
    (h : MarkedRuns lt d (E.map Prod.fst) Rs) :
    AllPending (markLt lt) E (Rs.map queueOf) := by
  induction Rs generalizing E with
  | nil => trivial
  | cons R Rs ih =>
    refine ⟨h.1.pending, ?_⟩
    rw [fst_queueOf]
    refine ih ?_
    rw [List.map_append]
    exact h.2

/-! ### The heights -/

omit [IsStrictOrder α lt] in
theorem MarkedRuns.concat {E : List α} {Rs : List (List (α × Mark))} {R : List (α × Mark)}
    (h : MarkedRuns lt d E Rs)
    (hR : Marked lt d (E ++ Rs.flatten.map Prod.fst) (R.map Prod.fst) (R.map Prod.snd)) :
    MarkedRuns lt d E (Rs ++ [R]) := by
  induction Rs generalizing E with
  | nil =>
    rw [List.flatten_nil, List.map_nil, List.append_nil] at hR
    exact ⟨hR, trivial⟩
  | cons R' Rs ih =>
    rw [List.flatten_cons, List.map_append, ← List.append_assoc] at hR
    exact ⟨h.1, ih h.2 hR⟩

omit [IsStrictOrder α lt] in
theorem MarkedRuns.at {E : List α} {Rs : List (List (α × Mark))} (h : MarkedRuns lt d E Rs)
    {i : ℕ} {R : List (α × Mark)} (hR : Rs[i]? = some R) :
    Marked lt d (E ++ (Rs.take i).flatten.map Prod.fst) (R.map Prod.fst) (R.map Prod.snd) := by
  induction Rs generalizing E i with
  | nil => exact absurd hR.symm (Option.some_ne_none _)
  | cons R' Rs ih =>
    rcases i with _ | i
    · obtain rfl := Option.some.inj hR
      rw [List.take_zero, List.flatten_nil, List.map_nil, List.append_nil]
      exact h.1
    · rw [List.take_succ_cons, List.flatten_cons, List.map_append, ← List.append_assoc]
      exact ih h.2 hR

/-- Two elements with no other one between them. -/
structure Neighbours (lt : α → α → Prop) (l : List α) (x y : α) : Prop where
  less : lt x y
  after : ∀ z ∈ l, lt x z → z = y ∨ lt y z
  before : ∀ z ∈ l, lt z y → z = x ∨ lt z x

omit [IsStrictOrder α lt] in
theorem MarkOk.lh_le (hd : Heights lt d) {E S l : List α} {x y : α} {i : ℕ} {m : Mark}
    (h : MarkOk lt d E S i y m) (hnext : Neighbours lt l x y) (hsub : ∀ z ∈ E ++ S, z ∈ l) :
    m.lh ≤ d x y := by
  rcases h.leftOf with h0 | ⟨z, hz, hzy, hle⟩
  · omega
  · rcases hnext.before z (hsub z hz) hzy with rfl | hzx
    · exact hle
    · exact Nat.le_trans hle (hd.left hzx hnext.less)

omit [IsStrictOrder α lt] in
theorem MarkOk.rh_le (hd : Heights lt d) {E S l : List α} {x y : α} {i : ℕ} {m : Mark}
    (h : MarkOk lt d E S i x m) (hnext : Neighbours lt l x y) (hsub : ∀ z ∈ E ++ S, z ∈ l) :
    m.rh ≤ d x y := by
  rcases h.rightOf with h0 | ⟨z, hz, hxz, hle⟩
  · omega
  · rcases hnext.after z (hsub z hz) hxz with rfl | hyz
    · exact hle
    · exact Nat.le_trans hle (hd.right hnext.less hyz)

omit [IsStrictOrder α lt] in
/-- An element between neighbours of all runs is at the place of one of them in a run. -/
theorem Neighbours.gap_left {S l : List α} {x y : α} {i : ℕ} (hS : S.Pairwise lt)
    (hnext : Neighbours lt l x y) (hsub : ∀ z ∈ S, z ∈ l) (hx : x ∉ S) (hy : S[i]? = some y) :
    Gap lt S i x := by
  refine ⟨fun p hi hp => ?_, fun q hq => ?_⟩
  · have hpS : p ∈ S := List.mem_of_getElem? hp
    have hpy := lt_of_index hS (by omega) hp hy
    exact (hnext.before p (hsub p hpS) hpy).resolve_left fun heq => hx (heq ▸ hpS)
  · rw [← Option.some.inj (hy.symm.trans hq)]
    exact hnext.less

omit [IsStrictOrder α lt] in
theorem Neighbours.gap_right {S l : List α} {x y : α} {i : ℕ} (hS : S.Pairwise lt)
    (hnext : Neighbours lt l x y) (hsub : ∀ z ∈ S, z ∈ l) (hy : y ∉ S) (hx : S[i]? = some x) :
    Gap lt S (i + 1) y := by
  refine ⟨fun p _ hp => ?_, fun q hq => ?_⟩
  · rw [← Option.some.inj (hx.symm.trans hp)]
    exact hnext.less
  · have hqS : q ∈ S := List.mem_of_getElem? hq
    have hxq := lt_of_index hS (Nat.lt_succ_self i) hx hq
    exact (hnext.after q (hsub q hqS) hxq).resolve_left fun heq => hy (heq ▸ hqS)

/-- Of two neighbours in one run, the second one follows the first. -/
theorem Neighbours.index {S l : List α} {x y : α} {i j : ℕ} (hS : S.Pairwise lt)
    (hnext : Neighbours lt l x y) (hsub : ∀ z ∈ S, z ∈ l) (hx : S[i]? = some x)
    (hy : S[j]? = some y) : j = i + 1 := by
  have hij : i < j := by
    by_contra hle
    rcases Nat.eq_or_lt_of_le (Nat.not_lt.mp hle) with rfl | hlt
    · obtain rfl := Option.some.inj (hx.symm.trans hy)
      exact irrefl_of lt x hnext.less
    · exact irrefl_of lt x (IsTrans.trans _ _ _ hnext.less (lt_of_index hS hlt hy hx))
  by_contra hne
  obtain ⟨hjlt, -⟩ := List.getElem?_eq_some_iff.mp hy
  obtain ⟨z, hz⟩ : ∃ z, S[i + 1]? = some z := ⟨_, List.getElem?_eq_getElem (by omega)⟩
  have hxz := lt_of_index hS (Nat.lt_succ_self i) hx hz
  have hzy := lt_of_index hS (show i + 1 < j by omega) hz hy
  rcases hnext.after z (hsub z (List.mem_of_getElem? hz)) hxz with rfl | hyz
  · exact irrefl_of lt z hzy
  · exact irrefl_of lt z (IsTrans.trans _ _ _ hzy hyz)

/-- **The height of neighbours** is the greater one of the marks between them. -/
theorem MarkedRuns.height (hd : Heights lt d) {Rs : List (List (α × Mark))}
    (h : MarkedRuns lt d [] Rs) (hS : ∀ R ∈ Rs, (R.map Prod.fst).Pairwise lt)
    (hdisjoint : Distinct lt (Rs.flatten.map Prod.fst)) {x y : α × Mark} (hx : x ∈ Rs.flatten)
    (hy : y ∈ Rs.flatten) (hnext : Neighbours lt (Rs.flatten.map Prod.fst) x.1 y.1) :
    max x.2.rh y.2.lh = d x.1 y.1 := by
  obtain ⟨R, hR, hxR⟩ := List.mem_flatten.mp hx
  obtain ⟨R', hR', hyR'⟩ := List.mem_flatten.mp hy
  obtain ⟨i, hi⟩ := List.mem_iff_getElem?.mp hR
  obtain ⟨i', hi'⟩ := List.mem_iff_getElem?.mp hR'
  obtain ⟨k, hk⟩ := List.mem_iff_getElem?.mp hxR
  obtain ⟨k', hk'⟩ := List.mem_iff_getElem?.mp hyR'
  have hsub : ∀ {j : ℕ} {Q : List (α × Mark)}, Rs[j]? = some Q → ∀ z ∈ Q.map Prod.fst,
      z ∈ Rs.flatten.map Prod.fst := by
    intro j Q hQ z hz
    obtain ⟨e, he, rfl⟩ := List.mem_map.mp hz
    exact List.mem_map_of_mem (List.mem_flatten.mpr ⟨Q, List.mem_of_getElem? hQ, he⟩)
  have hbefore : ∀ {j : ℕ} {Q : List (α × Mark)}, Rs[j]? = some Q →
      ∀ z ∈ [] ++ (Rs.take j).flatten.map Prod.fst ++ Q.map Prod.fst,
      z ∈ Rs.flatten.map Prod.fst := by
    intro j Q hQ z hz
    rw [List.nil_append] at hz
    rcases List.mem_append.mp hz with hz | hz
    · obtain ⟨e, he, rfl⟩ := List.mem_map.mp hz
      obtain ⟨Q', hQ', he⟩ := List.mem_flatten.mp he
      exact List.mem_map_of_mem (List.mem_flatten.mpr ⟨Q', List.mem_of_mem_take hQ', he⟩)
    · exact hsub hQ z hz
  have hxok := (h.at hi).okAt hk
  have hyok := (h.at hi').okAt hk'
  have hkS : (R.map Prod.fst)[k]? = some x.1 := by rw [List.getElem?_map, hk, Option.map_some]
  have hkS' : (R'.map Prod.fst)[k']? = some y.1 := by
    rw [List.getElem?_map, hk', Option.map_some]
  -- An element of one run is not in another.
  have hnot : ∀ {j j' : ℕ} {Q Q' : List (α × Mark)}, j < j' → Rs[j]? = some Q →
      Rs[j']? = some Q' → ∀ z ∈ Q.map Prod.fst, z ∉ Q'.map Prod.fst := by
    intro j j' Q Q' hjj hQ hQ' z hz hz'
    obtain ⟨e, he, rfl⟩ := List.mem_map.mp hz
    obtain ⟨e', he', heq⟩ := List.mem_map.mp hz'
    rw [Distinct, List.pairwise_map, List.pairwise_flatten] at hdisjoint
    obtain ⟨hj, rfl⟩ := List.getElem?_eq_some_iff.mp hQ
    obtain ⟨hj', rfl⟩ := List.getElem?_eq_some_iff.mp hQ'
    have hpair := List.pairwise_iff_getElem.mp hdisjoint.2 j j' hj hj' hjj e he e' he'
    rw [heq] at hpair
    exact hpair.elim (irrefl_of lt e.1) (irrefl_of lt e.1)
  have hearlier : ∀ {j j' : ℕ} {Q : List (α × Mark)} {e : α × Mark}, j < j' →
      Rs[j]? = some Q → e ∈ Q → e.1 ∈ [] ++ (Rs.take j').flatten.map Prod.fst := by
    intro j j' Q e hjj hQ he
    rw [List.nil_append]
    refine List.mem_map_of_mem (List.mem_flatten.mpr ⟨Q, ?_, he⟩)
    exact List.mem_of_getElem? ((List.getElem?_take_of_lt hjj).trans hQ)
  have hrh := hxok.rh_le hd hnext (hbefore hi)
  have hlh := hyok.lh_le hd hnext (hbefore hi')
  have hge : d x.1 y.1 ≤ x.2.rh ∨ d x.1 y.1 ≤ y.2.lh → max x.2.rh y.2.lh = d x.1 y.1 := by
    omega
  refine hge ?_
  rcases Nat.lt_trichotomy i i' with hlt | rfl | hlt
  · refine Or.inr (hyok.leftGap x.1 (hearlier hlt hi hxR) ?_)
    exact hnext.gap_left (hS R' hR') (hsub hi') (hnot hlt hi hi' x.1 (List.mem_map_of_mem hxR))
      hkS'
  · obtain rfl := Option.some.inj (hi.symm.trans hi')
    obtain rfl := hnext.index (hS R hR) (hsub hi) hkS hkS'
    exact Or.inl (hxok.rightNext y.1 hkS')
  · refine Or.inl (hxok.rightGap y.1 (hearlier hlt hi' hyR') ?_)
    exact hnext.gap_right (hS R hR) (hsub hi) (hnot hlt hi' hi y.1 (List.mem_map_of_mem hyR'))
      hkS

end

end

end RunMerge
