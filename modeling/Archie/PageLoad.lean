/-
The buffer of subtries that goes to the pages of a paged trie.

* `levelsOf` — the levels of a forest, as the buffer has them.
* `loadLevels_spec` — reading the levels below a root.
* `countTCounts_spec` — the entries for the pages of the children.
* `nodeBufferLoad_spec` — loading subtries until the buffer is full or the level ends.
-/
import Archie.PageBuffer

namespace Archie.Paged

open Patricia

/-! ### The levels of a forest -/

/-- The nodes of the first levels of a forest. -/
def levelsOf : ℕ → List (Trie ℕ) → List (List Node)
  | 0, _ => []
  | k + 1, ts => ts.map rootNode :: levelsOf k (Trie.nextLevel ts)

@[simp] theorem length_levelsOf (k : ℕ) (ts : List (Trie ℕ)) : (levelsOf k ts).length = k := by
  induction k generalizing ts with
  | zero => rfl
  | succ k ih => rw [levelsOf, List.length_cons, ih]

theorem levelsOf_nil (k : ℕ) : levelsOf k [] = List.replicate k [] := by
  induction k with
  | zero => rfl
  | succ k ih => rw [levelsOf, List.map_nil, Trie.nextLevel_nil, ih, List.replicate_succ]

theorem levelsOf_take {n k : ℕ} (h : n ≤ k) (ts : List (Trie ℕ)) :
    (levelsOf k ts).take n = levelsOf n ts := by
  induction n generalizing k ts with
  | zero => rw [List.take_zero, levelsOf]
  | succ n ih =>
    obtain ⟨k, rfl⟩ : ∃ k', k = k' + 1 := ⟨k - 1, by omega⟩
    rw [levelsOf, levelsOf, List.take_succ_cons, ih (by omega)]

theorem levelsOf_getD {j k : ℕ} (h : j < k) (ts : List (Trie ℕ)) :
    (levelsOf k ts).getD j [] = levelNodes j ts := by
  induction j generalizing k ts with
  | zero =>
    obtain ⟨k, rfl⟩ : ∃ k', k = k' + 1 := ⟨k - 1, by omega⟩
    rfl
  | succ j ih =>
    obtain ⟨k, rfl⟩ : ∃ k', k = k' + 1 := ⟨k - 1, by omega⟩
    rw [levelsOf, List.getD_cons_succ, ih (by omega), levelNodes, levelNodes, Trie.levelAt_succ']

/-- The levels of the first of two forests, cut from those of both. -/
theorem zipWith_take_levelsOf (k : ℕ) (a b : List (Trie ℕ)) :
    List.zipWith (fun nodes n => nodes.take n) (levelsOf k (a ++ b))
      ((levelsOf k a).map List.length) = levelsOf k a := by
  induction k generalizing a b with
  | zero => rfl
  | succ k ih =>
    rw [levelsOf, levelsOf, List.map_cons, List.zipWith_cons_cons, Trie.nextLevel_append, ih,
      List.map_append, List.take_left]

/-- The levels of the second of two forests. -/
theorem zipWith_drop_levelsOf (k : ℕ) (a b : List (Trie ℕ)) :
    List.zipWith (fun nodes n => nodes.drop n) (levelsOf k (a ++ b))
      ((levelsOf k a).map List.length) = levelsOf k b := by
  induction k generalizing a b with
  | zero => rfl
  | succ k ih =>
    rw [levelsOf, levelsOf, levelsOf, List.map_cons, List.zipWith_cons_cons, Trie.nextLevel_append,
      ih, List.map_append, List.drop_left]

theorem nChildNodes_rootNode (t : Trie ℕ) : nChildNodes (rootNode t) = t.children.length := by
  cases t <;> rfl

/-- The links that leave a level lead to the nodes of the next one. -/
theorem nLeaving_map_rootNode (ts : List (Trie ℕ)) :
    nLeaving (ts.map rootNode) = (Trie.nextLevel ts).length := by
  induction ts with
  | nil => rfl
  | cons t ts ih =>
    rw [Trie.nextLevel_cons, List.length_append, ← ih, ← nChildNodes_rootNode]
    rfl

theorem nLeaving_levelsOf {n k : ℕ} (hpos : 0 < n) (hle : n ≤ k) (ts : List (Trie ℕ)) :
    nLeaving ((levelsOf k ts).getD (n - 1) []) = (Trie.levelAt n ts).length := by
  obtain ⟨n, rfl⟩ : ∃ n', n = n' + 1 := ⟨n - 1, by omega⟩
  rw [Nat.add_sub_cancel, levelsOf_getD (by omega), levelNodes, nLeaving_map_rootNode,
    Trie.levelAt_succ]

/-- The bits of the first levels of a forest. -/
def forestBits (cf : PageConfig) (k : ℕ) (ts : List (Trie ℕ)) : ℕ :=
  ((levelsOf k ts).map (nodeBits cf)).sum

theorem nodeBits_append (cf : PageConfig) (a b : List Node) :
    nodeBits cf (a ++ b) = nodeBits cf a + nodeBits cf b := by
  rw [nodeBits, List.map_append, List.sum_append]
  rfl

theorem forestBits_succ (cf : PageConfig) (k : ℕ) (ts : List (Trie ℕ)) :
    forestBits cf (k + 1) ts =
      nodeBits cf (ts.map rootNode) + forestBits cf k (Trie.nextLevel ts) := List.sum_cons

theorem forestBits_nil (cf : PageConfig) (k : ℕ) : forestBits cf k [] = 0 := by
  induction k with
  | zero => rfl
  | succ k ih =>
    rw [forestBits_succ, Trie.nextLevel_nil, ih]
    rfl

theorem forestBits_append (cf : PageConfig) (k : ℕ) (a b : List (Trie ℕ)) :
    forestBits cf k (a ++ b) = forestBits cf k a + forestBits cf k b := by
  induction k generalizing a b with
  | zero => rfl
  | succ k ih =>
    rw [forestBits_succ, forestBits_succ, forestBits_succ, List.map_append, nodeBits_append,
      Trie.nextLevel_append, ih]
    omega

theorem forestBits_pos (cf : PageConfig) {k : ℕ} (hk : 0 < k) (t : Trie ℕ) :
    0 < forestBits cf k [t] := by
  obtain ⟨k, rfl⟩ : ∃ k', k = k' + 1 := ⟨k - 1, by omega⟩
  rw [forestBits_succ, List.map_singleton, nodeBits, List.map_singleton, List.sum_singleton]
  omega

/-- The levels of a forest that are asked for: all that there are, or as many as a page has. -/
def CutAt (n k : ℕ) (ts : List (Trie ℕ)) : Prop := n ≤ k ∧ (n = k ∨ Trie.levelAt n ts = [])

theorem CutAt.of_append {n k : ℕ} {a b : List (Trie ℕ)} (h : CutAt n k (a ++ b)) :
    CutAt n k a ∧ CutAt n k b := by
  obtain ⟨hle, hk | hnil⟩ := h
  · exact ⟨⟨hle, Or.inl hk⟩, ⟨hle, Or.inl hk⟩⟩
  · rw [Trie.levelAt_append] at hnil
    obtain ⟨ha, hb⟩ := List.append_eq_nil_iff.mp hnil
    exact ⟨⟨hle, Or.inr ha⟩, ⟨hle, Or.inr hb⟩⟩

/-- Below the levels that go to a page is nothing, or they are as many as a page has. -/
theorem cutAt_levelAt (k : ℕ) {d : ℕ} {t : Trie ℕ} (hd : d ≤ t.height) :
    CutAt (min k (t.height - d)) k (Trie.levelAt d [t]) := by
  refine ⟨Nat.min_le_left _ _, ?_⟩
  rcases Nat.le_total k (t.height - d) with hle | hle
  · exact Or.inl (Nat.min_eq_left hle)
  · right
    rw [Nat.min_eq_right hle, ← Trie.levelAt_add]
    exact Trie.levelAt_singleton_eq_nil (by omega)

/-- No more links leave a page than there are nodes below all of its levels. -/
theorem CutAt.length_levelAt {n k : ℕ} {ts : List (Trie ℕ)} (h : CutAt n k ts) :
    (Trie.levelAt n ts).length = (Trie.levelAt k ts).length := by
  obtain ⟨hle, rfl | hnil⟩ := h
  · rfl
  · rw [hnil, Trie.levelAt_eq_nil_of_le hnil hle]

theorem CutAt.next {n k : ℕ} {ts : List (Trie ℕ)} (h : CutAt (n + 1) (k + 1) ts) :
    CutAt n k (Trie.nextLevel ts) := by
  obtain ⟨hle, hk | hnil⟩ := h
  · exact ⟨by omega, Or.inl (by omega)⟩
  · rw [Trie.levelAt_succ'] at hnil
    exact ⟨by omega, Or.inr hnil⟩

theorem CutAt.forestBits {n k : ℕ} {ts : List (Trie ℕ)} (cf : PageConfig) (h : CutAt n k ts) :
    forestBits cf n ts = forestBits cf k ts := by
  induction n generalizing k ts with
  | zero =>
    obtain ⟨-, rfl | hnil⟩ := h
    · rfl
    · rw [Trie.levelAt_zero] at hnil
      rw [hnil, forestBits_nil, forestBits_nil]
  | succ n ih =>
    obtain ⟨k, rfl⟩ : ∃ k', k = k' + 1 := ⟨k - 1, by have := h.1; omega⟩
    rw [forestBits_succ, forestBits_succ, ih h.next]

/-! ### Reading the levels -/

section

variable {cf : PageConfig} {file : List UInt8}

/-- The levels of the file have yet to return the first levels of a forest. -/
def LevelsHold (cf : PageConfig) (file : List UInt8) (n : ℕ) (levs : List SingleLevel)
    (ts : List (Trie ℕ)) : Prop :=
  ∀ j < n, ∃ lev, levs[j]? = some lev ∧ lev.Open ∧
    LevelHolds cf.levelPageSize file (levelNodes j ts) lev

theorem levelsHold_succ {n : ℕ} {levs : List SingleLevel} {ts : List (Trie ℕ)} :
    LevelsHold cf file (n + 1) levs ts ↔
      ∃ lev levs', levs = lev :: levs' ∧ lev.Open ∧
        LevelHolds cf.levelPageSize file (ts.map rootNode) lev ∧
        LevelsHold cf file n levs' (Trie.nextLevel ts) := by
  constructor
  · intro h
    obtain ⟨lev, hlev, hopen, hholds⟩ := h 0 (Nat.succ_pos n)
    obtain ⟨levs', rfl⟩ : ∃ levs', levs = lev :: levs' := by
      cases levs with
      | nil => exact absurd hlev (by simp)
      | cons l ls => exact ⟨ls, by rw [Option.some.inj hlev]⟩
    refine ⟨lev, levs', rfl, hopen, hholds, fun j hj => ?_⟩
    obtain ⟨lev', hlev', hopen', hholds'⟩ := h (j + 1) (Nat.succ_lt_succ hj)
    rw [levelNodes, Trie.levelAt_succ'] at hholds'
    exact ⟨lev', hlev', hopen', hholds'⟩
  · rintro ⟨lev, levs', rfl, hopen, hholds, hrest⟩ j hj
    cases j with
    | zero => exact ⟨lev, rfl, hopen, hholds⟩
    | succ j =>
      obtain ⟨lev', hlev', hopen', hholds'⟩ := hrest j (Nat.lt_of_succ_lt_succ hj)
      refine ⟨lev', hlev', hopen', ?_⟩
      rw [levelNodes, Trie.levelAt_succ']
      exact hholds'

theorem readNodes_spec {ns ms : List Node} {lev : SingleLevel} (hopen : lev.Open)
    (h : LevelHolds cf.levelPageSize file (ns ++ ms) lev) :
    ∃ lev', readNodes cf file ns.length lev = some (ns, lev') ∧ lev'.Open ∧
      LevelHolds cf.levelPageSize file ms lev' := by
  induction ns generalizing lev with
  | nil => exact ⟨lev, rfl, hopen, h⟩
  | cons n ns ih =>
    obtain ⟨lev₁, hnext, hrest⟩ := h
    obtain ⟨lev', hread, hopen', hms⟩ := ih (nextNode_spec hopen hnext).1 hrest
    refine ⟨lev', ?_, hopen', hms⟩
    rw [List.length_cons, readNodes, hnext]
    simp only [Option.bind_eq_bind, Option.bind_some, hread]

/-- The levels below the roots: `a` is in the buffer, `b` comes next. -/
theorem loadLevels_spec {n k : ℕ} {a b rest : List (Trie ℕ)} {subtrie : List SingleLevel}
    (h : LevelsHold cf file n subtrie (b ++ rest)) (hcut : CutAt n k b) :
    ∃ subtrie', loadLevels cf file n (levelsOf k a) subtrie b.length =
        some (levelsOf k (a ++ b), subtrie', forestBits cf k b) ∧
      LevelsHold cf file n subtrie' rest ∧ subtrie'.length = subtrie.length := by
  induction n generalizing k a b rest subtrie with
  | zero =>
    refine ⟨subtrie, ?_, fun j hj => absurd hj (Nat.not_lt_zero j), rfl⟩
    obtain ⟨-, rfl | hnil⟩ := hcut
    · rfl
    · rw [Trie.levelAt_zero] at hnil
      rw [hnil, List.append_nil, forestBits_nil]
      rfl
  | succ n ih =>
    obtain ⟨k, rfl⟩ : ∃ k', k = k' + 1 := ⟨k - 1, by have := hcut.1; omega⟩
    obtain ⟨lev, levs, rfl, hopen, hholds, hlevs⟩ := levelsHold_succ.mp h
    rcases eq_or_ne b [] with rfl | hne
    · refine ⟨lev :: levs, ?_, h, rfl⟩
      rw [levelsOf, List.length_nil, loadLevels, if_pos rfl, List.append_nil, forestBits_nil]
      rfl
    · rw [List.map_append] at hholds
      rw [Trie.nextLevel_append] at hlevs
      obtain ⟨lev', hread, hopen', hholds'⟩ := readNodes_spec hopen hholds
      obtain ⟨levs', hload, hlevs', hlen⟩ := ih (a := Trie.nextLevel a) hlevs hcut.next
      rw [List.length_map] at hread
      refine ⟨lev' :: levs', ?_, levelsHold_succ.mpr ⟨lev', levs', rfl, hopen', hholds', hlevs'⟩,
        by rw [List.length_cons, List.length_cons, hlen]⟩
      have hpos := List.length_pos_iff.mpr hne
      rw [levelsOf, loadLevels, if_neg (Nat.ne_of_gt hpos), hread]
      simp only [Option.bind_eq_bind, Option.bind_some, nLeaving_map_rootNode, hload]
      rw [forestBits_succ, levelsOf, List.map_append, Trie.nextLevel_append]

end

/-! ### Counting the links to the left -/

/-- A search that begins further on finds the same entry, if no entry before that is one. -/
theorem findIdx?_drop {p : ℕ → Bool} {l : List ℕ} {s : ℕ} (hs : ∀ x ∈ l.take s, p x = false)
    (hex : ∃ x, x ∈ l ∧ p x = true) :
    ∃ i, (l.drop s).findIdx? p = some i ∧ s + i = l.findIdx p := by
  obtain ⟨x, hx, hpx⟩ := hex
  have hdrop : x ∈ l.drop s := by
    rw [← List.take_append_drop s l] at hx
    rcases List.mem_append.mp hx with hx | hx
    · exact absurd hpx (by rw [hs x hx]; exact Bool.false_ne_true)
    · exact hx
  refine ⟨(l.drop s).findIdx p, List.findIdx?_eq_some_of_exists ⟨x, hdrop, hpx⟩, ?_⟩
  have hlen : s ≤ l.length := by
    have hpos := List.length_pos_of_mem hdrop
    rw [List.length_drop] at hpos
    omega
  have htake : (l.take s).findIdx p = s := by
    rw [List.findIdx_eq_length.mpr hs, List.length_take_of_le hlen]
  conv_rhs => rw [← List.take_append_drop s l, List.findIdx_append, htake,
    List.length_take_of_le hlen, if_neg (Nat.lt_irrefl s)]
  exact Nat.add_comm _ _

theorem eq_false_of_mem_take_findIdx {p : ℕ → Bool} {l : List ℕ} {x n : ℕ}
    (hn : n ≤ l.findIdx p) (hx : x ∈ l.take n) : p x = false := by
  obtain ⟨j, hj, rfl⟩ := List.mem_take_iff_getElem.mp hx
  exact List.not_of_lt_findIdx (by omega)

/-- The entries for the pages of the levels below, to which `n` links lead. -/
structure TopCount.LeadsTo (tc : TopCount) (n : ℕ) : Prop where
  last : intMax ∈ tc.nLeftLinks
  head : n ≠ 0 → ∃ rest, tc.nLeftLinks = 0 :: rest

/-- The first entry greater than a number of links. -/
def TopCount.above (tc : TopCount) (n : ℕ) : ℕ := tc.nLeftLinks.findIdx (n < ·)

/-- The first entry not less than a number of links. -/
def TopCount.reach (tc : TopCount) (n : ℕ) : ℕ := tc.nLeftLinks.findIdx (n ≤ ·)

theorem firstTCountIdx_eq {tc : TopCount} {startidx b : ℕ} (hlast : intMax ∈ tc.nLeftLinks)
    (hb : b < intMax) (hstart : ∀ x ∈ tc.nLeftLinks.take startidx, x ≤ b) :
    firstTCountIdx tc startidx b = some ((tc.above b : ℤ) - 1) := by
  obtain ⟨i, hi, hsum⟩ := findIdx?_drop (p := (b < ·))
    (fun x hx => decide_eq_false (Nat.not_lt.mpr (hstart x hx))) ⟨intMax, hlast, decide_eq_true hb⟩
  rw [firstTCountIdx, hi, Option.map_some, hsum]
  rfl

theorem lastTCountIdx_eq {tc : TopCount} {startidx : ℤ} {n : ℕ} (hlast : intMax ∈ tc.nLeftLinks)
    (hn : n ≤ intMax) (hpos : 0 ≤ startidx)
    (hstart : ∀ x ∈ tc.nLeftLinks.take startidx.toNat, x < n) :
    lastTCountIdx tc startidx n = some (tc.reach n : ℤ) := by
  obtain ⟨i, hi, hsum⟩ := findIdx?_drop (p := (n ≤ ·))
    (fun x hx => decide_eq_false (Nat.not_le.mpr (hstart x hx))) ⟨intMax, hlast, decide_eq_true hn⟩
  rw [lastTCountIdx, if_neg (by omega), hi, Option.map_some, TopCount.reach, ← hsum]
  congr 1
  omega

theorem TopCount.above_pos {tc : TopCount} {n b : ℕ} (h : tc.LeadsTo n) (hn : n ≠ 0) :
    0 < tc.above b := by
  obtain ⟨rest, hrest⟩ := h.head hn
  rw [TopCount.above, hrest, List.findIdx_cons]
  simp

theorem TopCount.above_le_reach {tc : TopCount} {b n : ℕ} (hn : b < n) :
    tc.above b ≤ tc.reach n :=
  List.findIdx_le_findIdx fun _ _ hx =>
    decide_eq_true (Nat.lt_of_lt_of_le hn (of_decide_eq_true hx))

theorem TopCount.reach_mono {tc : TopCount} {m n : ℕ} (h : m ≤ n) : tc.reach m ≤ tc.reach n :=
  List.findIdx_le_findIdx fun _ _ hx => decide_eq_true (Nat.le_trans h (of_decide_eq_true hx))

theorem le_of_mem_take_above {tc : TopCount} {b x k : ℕ} (hk : k ≤ tc.above b)
    (hx : x ∈ tc.nLeftLinks.take k) : x ≤ b :=
  Nat.not_lt.mp (of_decide_eq_false (eq_false_of_mem_take_findIdx hk hx))

theorem lt_of_mem_take_reach {tc : TopCount} {n x : ℕ} (hx : x ∈ tc.nLeftLinks.take (tc.reach n)) :
    x < n :=
  Nat.not_le.mp (of_decide_eq_false (eq_false_of_mem_take_findIdx (Nat.le_refl _) hx))

/-- The number of tCounts of a page with `b` links on its left, that `n` links leave. -/
def tWindow (tc : TopCount) (b n : ℕ) : ℕ :=
  if n = 0 then 0 else tc.reach (b + n) + 2 - tc.above b

theorem tWindow_zero (tc : TopCount) (b : ℕ) : tWindow tc b 0 = 0 := if_pos rfl

theorem tWindow_mono (tc : TopCount) (b : ℕ) {m n : ℕ} (h : m ≤ n) :
    tWindow tc b m ≤ tWindow tc b n := by
  rcases Nat.eq_zero_or_pos m with rfl | hm
  · rw [tWindow_zero]
    exact Nat.zero_le _
  · have hreach := @TopCount.reach_mono tc (b + m) (b + n) (by omega)
    rw [tWindow, tWindow, if_neg (Nat.ne_of_gt hm), if_neg (by omega)]
    omega

/-! ### What the buffer holds -/

/-- The bits of a page with some subtries: the counts and the nodes. -/
def pageBits (cf : PageConfig) (tc : TopCount) (b : ℕ) (ts : List (Trie ℕ)) : ℕ :=
  if ts = [] then 0
  else forestBits cf cf.levelsPerPage ts + (bitsInBcount + bitsInPagenum + bitsInCcount) +
    tWindow tc b (Trie.levelAt cf.levelsPerPage ts).length * bitsInTcount

theorem pageBits_nil (cf : PageConfig) (tc : TopCount) (b : ℕ) : pageBits cf tc b [] = 0 :=
  if_pos rfl

/-- More subtries need more bits. -/
theorem pageBits_le_append (cf : PageConfig) (tc : TopCount) (b : ℕ) (ts us : List (Trie ℕ)) :
    pageBits cf tc b ts ≤ pageBits cf tc b (ts ++ us) := by
  rcases eq_or_ne ts [] with rfl | hne
  · rw [pageBits_nil]
    exact Nat.zero_le _
  · have hwindow := tWindow_mono tc b (Nat.le_add_right
      (Trie.levelAt cf.levelsPerPage ts).length (Trie.levelAt cf.levelsPerPage us).length)
    have hmul := Nat.mul_le_mul_right bitsInTcount hwindow
    rw [pageBits, pageBits, if_neg hne, if_neg (List.append_ne_nil_of_left_ne_nil hne us),
      forestBits_append, Trie.levelAt_append, List.length_append]
    omega

/-- The buffer has the levels of some subtries, with `b` links on their left. -/
structure BufferHolds (cf : PageConfig) (tc : TopCount) (b : ℕ) (nb : NodeBuffer)
    (ts : List (Trie ℕ)) : Prop where
  level : nb.level = levelsOf cf.levelsPerPage ts
  bits : nb.nBitsAllNodes = forestBits cf cf.levelsPerPage ts
  tCounts : nb.nAllTCounts = tWindow tc b (Trie.levelAt cf.levelsPerPage ts).length
  page : nb.nBitsInPage = cf.pagedPageSize * 8
  idx : ∀ x ∈ tc.nLeftLinks.take nb.prevIdx, x ≤ b

/-- What the buffer says of all its subtries but the last. -/
structure PenHolds (cf : PageConfig) (tc : TopCount) (b : ℕ) (nb : NodeBuffer)
    (ts : List (Trie ℕ)) : Prop where
  nodes : nb.nPenNodes = (levelsOf cf.levelsPerPage ts).map List.length
  tCounts : nb.nPenTCounts = tWindow tc b (Trie.levelAt cf.levelsPerPage ts).length

section

variable {cf : PageConfig} {file : List UInt8} {tc : TopCount} {b : ℕ}

theorem BufferHolds.bitsInNodeBuffer {nb : NodeBuffer} {ts : List (Trie ℕ)}
    (h : BufferHolds cf tc b nb ts) (hlevels : 0 < cf.levelsPerPage) :
    bitsInNodeBuffer nb = pageBits cf tc b ts := by
  have hroots : (nb.level.headD []).length = ts.length := by
    obtain ⟨k, hk⟩ : ∃ k, cf.levelsPerPage = k + 1 := ⟨cf.levelsPerPage - 1, by omega⟩
    rw [h.level, hk, levelsOf, List.headD_cons, List.length_map]
  rw [Paged.bitsInNodeBuffer, pageBits, hroots, h.bits, h.tCounts]
  rcases eq_or_ne ts [] with rfl | hne
  · rfl
  · rw [if_pos (List.length_pos_iff.mpr hne), if_neg hne]

/-- An entry from which the search for the last one may go on, with `n` links so far. -/
def LastFrom (tc : TopCount) (b n : ℕ) (lastIdx : ℤ) : Prop :=
  0 < tc.above b → 0 ≤ lastIdx ∧ ∀ x ∈ tc.nLeftLinks.take lastIdx.toNat, x < b + max 1 n

theorem lastFrom_first (tc : TopCount) (b n : ℕ) : LastFrom tc b n (tc.above b - 1) := by
  intro hpos
  refine ⟨by omega, fun x hx => ?_⟩
  have hpos : (tc.above b - 1 : ℤ).toNat ≤ tc.above b := by omega
  have hle := le_of_mem_take_above hpos hx
  have hmax := Nat.le_max_left 1 n
  omega

/-- Counting the tCounts after one more subtrie. -/
theorem countTCounts_spec {nLevs total m : ℕ} {lastIdx : ℤ} {nb : NodeBuffer}
    {ts : List (Trie ℕ)} (hlevel : nb.level = levelsOf cf.levelsPerPage ts) (hpos : 0 < nLevs)
    (hcut : CutAt nLevs cf.levelsPerPage ts) (htc : tc.LeadsTo total)
    (htotal : (Trie.levelAt cf.levelsPerPage ts).length ≤ total) (hsmall : b + total < intMax)
    (hold : nb.nAllTCounts = tWindow tc b m)
    (hm : m ≤ (Trie.levelAt cf.levelsPerPage ts).length) (hlast : LastFrom tc b m lastIdx) :
    ∃ lastIdx', countTCounts nLevs b tc (tc.above b - 1) lastIdx nb =
        some ({ nb with
          nPenTCounts := nb.nAllTCounts
          nAllTCounts := tWindow tc b (Trie.levelAt cf.levelsPerPage ts).length }, lastIdx') ∧
      LastFrom tc b (Trie.levelAt cf.levelsPerPage ts).length lastIdx' := by
  obtain ⟨n, hn⟩ : ∃ n, n = (Trie.levelAt cf.levelsPerPage ts).length := ⟨_, rfl⟩
  have hleaving : nLeaving (nb.level.getD (nLevs - 1) []) = n := by
    rw [hlevel, nLeaving_levelsOf hpos hcut.1, hcut.length_levelAt, hn]
  rw [← hn] at htotal hm ⊢
  rw [countTCounts]
  simp only [hleaving]
  rcases Nat.eq_zero_or_pos n with hzero | hnpos
  · refine ⟨lastIdx, ?_, ?_⟩
    · obtain rfl : m = 0 := by omega
      rw [hzero, if_neg (Nat.lt_irrefl 0), hold]
    · obtain rfl : m = n := by omega
      exact hlast
  · have habove := TopCount.above_pos (b := b) htc (by omega)
    obtain ⟨hlastpos, hbefore⟩ := hlast habove
    have hreach : lastTCountIdx tc lastIdx (b + n) = some (tc.reach (b + n) : ℤ) :=
      lastTCountIdx_eq htc.last (by omega) hlastpos fun x hx => by
        have hx' := hbefore x hx
        omega
    have hle := @TopCount.above_le_reach tc b (b + n) (by omega)
    refine ⟨tc.reach (b + n), ?_, fun _ => ⟨Int.natCast_nonneg _, fun x hx => ?_⟩⟩
    · rw [if_pos hnpos, if_neg (by omega), hreach]
      simp only [Option.bind_eq_bind, Option.bind_some]
      rw [if_neg (by omega), tWindow, if_neg (Nat.ne_of_gt hnpos)]
      have hcount : ((tc.reach (b + n) : ℤ) - (tc.above b - 1) + 1).toNat =
          tc.reach (b + n) + 2 - tc.above b := by omega
      rw [hcount]
    · rw [Int.toNat_natCast] at hx
      have hx' := lt_of_mem_take_reach hx
      have hmax := Nat.le_max_right 1 n
      omega

end

/-! ### Loading -/

section

variable {cf : PageConfig} {file : List UInt8} {tc : TopCount} {b : ℕ}

theorem addSubtrie_spec {nLevs : ℕ} {nb : NodeBuffer} {ts rest : List (Trie ℕ)} {t : Trie ℕ}
    {levs : List SingleLevel} (hlevel : nb.level = levelsOf cf.levelsPerPage ts)
    (hpos : 0 < nLevs) (hcut : CutAt nLevs cf.levelsPerPage [t])
    (hlevs : LevelsHold cf file (nLevs - 1) levs (Trie.nextLevel (t :: rest))) :
    ∃ levs', addSubtrie cf file nLevs (rootNode t) nb levs =
        some ({ nb with
          nPenNodes := (levelsOf cf.levelsPerPage ts).map List.length
          level := levelsOf cf.levelsPerPage (ts ++ [t])
          nBitsAllNodes := nb.nBitsAllNodes + forestBits cf cf.levelsPerPage [t] }, levs') ∧
      LevelsHold cf file (nLevs - 1) levs' (Trie.nextLevel rest) ∧ levs'.length = levs.length := by
  obtain ⟨n, rfl⟩ : ∃ n, nLevs = n + 1 := ⟨nLevs - 1, by omega⟩
  obtain ⟨k, hk⟩ : ∃ k, cf.levelsPerPage = k + 1 := ⟨cf.levelsPerPage - 1, by
    have hle := hcut.1
    omega⟩
  rw [hk] at hcut hlevel ⊢
  rw [Nat.add_sub_cancel] at hlevs ⊢
  rw [← List.singleton_append, Trie.nextLevel_append] at hlevs
  obtain ⟨levs', hload, hrest, hlen⟩ := loadLevels_spec (a := Trie.nextLevel ts) hlevs hcut.next
  refine ⟨levs', ?_, hrest, hlen⟩
  have hchild : nChildNodes (rootNode t) = (Trie.nextLevel [t]).length := by
    rw [nChildNodes_rootNode, Trie.nextLevel_cons, Trie.nextLevel_nil, List.append_nil]
  have hroot : nodeBits cf ([t].map rootNode) = bitsInNode cf (rootNode t) + 1 := by
    rw [List.map_singleton, nodeBits, List.map_singleton, List.sum_singleton]
  rw [addSubtrie, hlevel, levelsOf, List.tail_cons, Nat.add_sub_cancel, hchild, hload]
  simp only [Option.bind_eq_bind, Option.bind_some, List.headD_cons]
  rw [forestBits_succ, hroot, levelsOf, List.map_append, Trie.nextLevel_append, Nat.add_assoc]
  rfl

/-- **Loading** adds subtries to the buffer until it is full or no subtrie is left. -/
theorem loadLoop_spec {nLevs fuel : ℕ} {lastIdx : ℤ} {nb : NodeBuffer} {ts rest : List (Trie ℕ)}
    {subtrie : List SingleLevel} (hpos : 0 < nLevs)
    (hcut : CutAt nLevs cf.levelsPerPage (ts ++ rest))
    (htc : tc.LeadsTo (Trie.levelAt cf.levelsPerPage (ts ++ rest)).length)
    (hsmall : b + (Trie.levelAt cf.levelsPerPage (ts ++ rest)).length < intMax)
    (hbuf : BufferHolds cf tc b nb ts) (hused : nb.nBitsUsed = pageBits cf tc b ts)
    (hlevs : LevelsHold cf file nLevs subtrie rest)
    (hlast : LastFrom tc b (Trie.levelAt cf.levelsPerPage ts).length lastIdx)
    (hfuel : 0 < fuel ∧ cf.pagedPageSize * 8 < fuel + nb.nBitsAllNodes) :
    ∃ us rest' nb' subtrie', rest = us ++ rest' ∧
      loadLoop cf file nLevs b tc (tc.above b - 1) fuel lastIdx nb subtrie = some (nb', subtrie') ∧
      BufferHolds cf tc b nb' (ts ++ us) ∧ nb'.nBitsUsed = pageBits cf tc b (ts ++ us) ∧
      LevelsHold cf file nLevs subtrie' rest' ∧ subtrie'.length = subtrie.length ∧
      nb'.prevIdx = nb.prevIdx ∧ (cf.pagedPageSize * 8 ≤ nb'.nBitsUsed ∨ rest' = []) ∧
      ((us = [] ∧ nb' = nb) ∨
        ∃ pen t, ts ++ us = pen ++ [t] ∧ PenHolds cf tc b nb' pen ∧
          pageBits cf tc b pen < cf.pagedPageSize * 8) := by
  induction fuel generalizing lastIdx nb ts rest subtrie with
  | zero => exact absurd hfuel.1 (Nat.lt_irrefl 0)
  | succ fuel ih =>
    rw [loadLoop.eq_def]
    dsimp only
    by_cases hroom : nb.nBitsUsed < nb.nBitsInPage
    · rw [if_pos hroom]
      have hlevels : 0 < cf.levelsPerPage := Nat.lt_of_lt_of_le hpos hcut.1
      obtain ⟨n, rfl⟩ : ∃ n, nLevs = n + 1 := ⟨nLevs - 1, by omega⟩
      obtain ⟨lev, levs, rfl, hopen, hholds, hrest⟩ := levelsHold_succ.mp hlevs
      cases rest with
      | nil =>
        -- The end of the level.
        obtain ⟨lev', hnext⟩ := hholds
        obtain ⟨hopen', hholds'⟩ := nextNode_none hopen hnext
        refine ⟨[], [], nb, lev' :: levs, rfl, ?_, ?_, ?_, ?_, rfl, rfl, Or.inr rfl,
          Or.inl ⟨rfl, rfl⟩⟩
        · simp only [hnext, Option.bind_eq_bind, Option.bind_some]
        · rwa [List.append_nil]
        · rwa [List.append_nil]
        · exact levelsHold_succ.mpr ⟨lev', levs, rfl, hopen', hholds', hrest⟩
      | cons t rest =>
        obtain ⟨lev', hnext, hholds'⟩ := hholds
        have hopen' := (nextNode_spec hopen hnext).1
        have hsplit : ts ++ t :: rest = ts ++ [t] ++ rest := by
          rw [List.append_assoc, List.singleton_append]
        rw [hsplit] at hcut htc hsmall
        obtain ⟨hcutts, -⟩ := hcut.of_append
        obtain ⟨levs', hadd, hlevs', hlen⟩ :=
          addSubtrie_spec hbuf.level hpos hcutts.of_append.2 hrest
        rw [Nat.add_sub_cancel] at hlevs'
        have htotal : (Trie.levelAt cf.levelsPerPage (ts ++ [t])).length ≤
            (Trie.levelAt cf.levelsPerPage (ts ++ [t] ++ rest)).length := by
          rw [Trie.levelAt_append _ (ts ++ [t]), List.length_append]
          exact Nat.le_add_right _ _
        have hmore : (Trie.levelAt cf.levelsPerPage ts).length ≤
            (Trie.levelAt cf.levelsPerPage (ts ++ [t])).length := by
          rw [Trie.levelAt_append, List.length_append]
          exact Nat.le_add_right _ _
        obtain ⟨nb₁, hnb₁⟩ : ∃ nb₁, nb₁ = { nb with
          nPenNodes := (levelsOf cf.levelsPerPage ts).map List.length
          level := levelsOf cf.levelsPerPage (ts ++ [t])
          nBitsAllNodes := nb.nBitsAllNodes + forestBits cf cf.levelsPerPage [t] } := ⟨_, rfl⟩
        have hcounts : nb₁.nAllTCounts =
            tWindow tc b (Trie.levelAt cf.levelsPerPage ts).length := by
          rw [hnb₁]
          exact hbuf.tCounts
        obtain ⟨lastIdx', hcount, hlast'⟩ :=
          @countTCounts_spec cf tc b _ _ _ _ nb₁ _ (by rw [hnb₁]) hpos
          hcutts htc htotal hsmall hcounts hmore hlast
        obtain ⟨nb₂, hnb₂⟩ : ∃ nb₂, nb₂ = { nb₁ with
          nPenTCounts := nb₁.nAllTCounts
          nAllTCounts := tWindow tc b (Trie.levelAt cf.levelsPerPage (ts ++ [t])).length } :=
          ⟨_, rfl⟩
        have hbuf₂ : BufferHolds cf tc b nb₂ (ts ++ [t]) := by
          rw [hnb₂, hnb₁]
          exact {
            level := rfl
            bits := by rw [forestBits_append, hbuf.bits]
            tCounts := rfl
            page := hbuf.page
            idx := hbuf.idx }
        have hbuf₃ : BufferHolds cf tc b { nb₂ with nBitsUsed := bitsInNodeBuffer nb₂ }
            (ts ++ [t]) := ⟨hbuf₂.level, hbuf₂.bits, hbuf₂.tCounts, hbuf₂.page, hbuf₂.idx⟩
        have hpen : PenHolds cf tc b { nb₂ with nBitsUsed := bitsInNodeBuffer nb₂ } ts := by
          rw [hnb₂, hnb₁]
          exact ⟨rfl, hbuf.tCounts⟩
        have hgrow : nb₂.nBitsAllNodes =
            nb.nBitsAllNodes + forestBits cf cf.levelsPerPage [t] := by
          rw [hnb₂, hnb₁]
        have hprev : nb₂.prevIdx = nb.prevIdx := by
          rw [hnb₂, hnb₁]
        have hbitspos := forestBits_pos cf hlevels t
        have hbits : nb.nBitsAllNodes ≤ nb.nBitsUsed := by
          rw [hused, hbuf.bits, pageBits]
          split
          next hnil =>
            rw [hnil, forestBits_nil]
          next => omega
        have hroom' : nb.nBitsUsed < cf.pagedPageSize * 8 := by
          rwa [hbuf.page] at hroom
        obtain ⟨us, rest', nb', subtrie', hrest', hloop, hbuf', hused', hlevs₂, hlen', hprev',
          hfull, hdone⟩ :=
          @ih lastIdx' { nb₂ with nBitsUsed := bitsInNodeBuffer nb₂ } (ts ++ [t]) rest
            (lev' :: levs') hcut htc hsmall hbuf₃
            (hbuf₂.bitsInNodeBuffer hlevels)
            (levelsHold_succ.mpr ⟨lev', levs', rfl, hopen', hholds', hlevs'⟩) hlast' (by
              show 0 < fuel ∧ _ < fuel + nb₂.nBitsAllNodes
              omega)
        refine ⟨t :: us, rest', nb', subtrie', by rw [hrest', List.cons_append], ?_, ?_, ?_, hlevs₂,
          ?_, ?_, hfull, ?_⟩
        · simp only [hnext, Option.bind_eq_bind, Option.bind_some, hadd]
          rw [← hnb₁]
          simp only [hcount]
          rw [← hnb₂]
          exact hloop
        · rwa [List.append_assoc, List.singleton_append] at hbuf'
        · rwa [List.append_assoc, List.singleton_append] at hused'
        · rw [hlen', List.length_cons, List.length_cons, hlen]
        · rw [hprev', ← hprev]
        · right
          rcases hdone with ⟨rfl, rfl⟩ | ⟨pen, t', heq, hpen', hlt⟩
          · exact ⟨ts, t, rfl, hpen, by rwa [← hused]⟩
          · rw [List.append_assoc, List.singleton_append] at heq
            exact ⟨pen, t', heq, hpen', hlt⟩
    · rw [if_neg hroom]
      rw [hbuf.page] at hroom
      exact ⟨[], rest, nb, subtrie, rfl, rfl, by rwa [List.append_nil], by rwa [List.append_nil],
        hlevs, rfl, rfl, Or.inl (Nat.not_lt.mp hroom), Or.inl ⟨rfl, rfl⟩⟩

/-- A buffer at the condition of the inner loop. -/
structure BufferReady (cf : PageConfig) (tc : TopCount) (b : ℕ) (nb : NodeBuffer)
    (ts : List (Trie ℕ)) : Prop extends BufferHolds cf tc b nb ts where
  used : nb.nBitsUsed = pageBits cf tc b ts
  pen : cf.pagedPageSize * 8 < nb.nBitsUsed → ∃ pen t, ts = pen ++ [t] ∧ PenHolds cf tc b nb pen ∧
    (pen = [] ∨ pageBits cf tc b pen < cf.pagedPageSize * 8)

/-- A buffer with at most one subtrie, before others are loaded. -/
structure BufferShifted (cf : PageConfig) (tc : TopCount) (b : ℕ) (nb : NodeBuffer)
    (ts : List (Trie ℕ)) : Prop extends BufferHolds cf tc b nb ts where
  pen : PenHolds cf tc b nb []
  one : ts = [] ∨ ∃ t, ts = [t]

theorem nodeBufferLoad_spec {nLevs : ℕ} {nb : NodeBuffer} {ts rest : List (Trie ℕ)}
    {subtrie : List SingleLevel} (hpos : 0 < nLevs)
    (hcut : CutAt nLevs cf.levelsPerPage (ts ++ rest))
    (htc : tc.LeadsTo (Trie.levelAt cf.levelsPerPage (ts ++ rest)).length)
    (hsmall : b + (Trie.levelAt cf.levelsPerPage (ts ++ rest)).length < intMax)
    (hbuf : BufferShifted cf tc b nb ts) (hlevs : LevelsHold cf file nLevs subtrie rest) :
    ∃ us rest' nb' subtrie', rest = us ++ rest' ∧
      nodeBufferLoad cf file nLevs b tc nb subtrie = some (nb', subtrie') ∧
      BufferReady cf tc b nb' (ts ++ us) ∧ LevelsHold cf file nLevs subtrie' rest' ∧
      subtrie'.length = subtrie.length ∧
      (cf.pagedPageSize * 8 ≤ nb'.nBitsUsed ∨ rest' = []) := by
  have hlevels : 0 < cf.levelsPerPage := Nat.lt_of_lt_of_le hpos hcut.1
  have hfirst := firstTCountIdx_eq (b := b) htc.last (by omega) hbuf.idx
  have hused := hbuf.toBufferHolds.bitsInNodeBuffer hlevels
  obtain ⟨us, rest', nb', subtrie', hsplit, hloop, hbuf', hused', hlevs', hlen, hprev, hfull,
    hdone⟩ :=
    @loadLoop_spec cf file tc b nLevs (nb.nBitsInPage + 1) (tc.above b - 1)
      { nb with nBitsUsed := bitsInNodeBuffer nb } ts rest subtrie hpos hcut htc hsmall
      ⟨hbuf.level, hbuf.bits, hbuf.tCounts, hbuf.page, hbuf.idx⟩ hused hlevs
      (lastFrom_first tc b _) ⟨Nat.succ_pos _, by rw [hbuf.page]; omega⟩
  obtain ⟨nb'', hnb''⟩ : ∃ nb'', nb'' = { nb' with
    prevIdx := if nb'.prevIdx < (tc.above b : ℤ) - 1 then ((tc.above b : ℤ) - 1).toNat
      else nb'.prevIdx } := ⟨_, rfl⟩
  refine ⟨us, rest', nb'', subtrie', hsplit, ?_, ?_, hlevs', hlen, by rwa [hnb'']⟩
  · rw [nodeBufferLoad]
    simp only [hfirst, Option.bind_eq_bind, Option.bind_some, hloop]
    rw [hnb'']
  · have hidx : ∀ x ∈ tc.nLeftLinks.take nb''.prevIdx, x ≤ b := by
      rw [hnb'']
      dsimp only
      split
      · exact fun x hx => le_of_mem_take_above (by omega) hx
      · rw [hprev]
        exact hbuf.idx
    rw [hnb''] at hidx ⊢
    refine ⟨⟨hbuf'.level, hbuf'.bits, hbuf'.tCounts, hbuf'.page, hidx⟩, hused', fun hfull => ?_⟩
    rcases hdone with ⟨rfl, rfl⟩ | ⟨pen, t, heq, hpen, hlt⟩
    · -- No subtrie has been added.
      rw [List.append_nil] at hused' ⊢
      rcases hbuf.one with rfl | ⟨t, rfl⟩
      · dsimp only at hfull hused'
        rw [hused', pageBits_nil] at hfull
        exact absurd hfull (Nat.not_lt_zero _)
      · exact ⟨[], t, rfl, ⟨hbuf.pen.nodes, hbuf.pen.tCounts⟩, Or.inl rfl⟩
    · exact ⟨pen, t, heq, ⟨hpen.nodes, hpen.tCounts⟩, Or.inr hlt⟩

end

end Archie.Paged
