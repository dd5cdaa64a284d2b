/-
Pages with enough room (`page.c`).

A subtrie of `levelsPerPage` levels has less than `2 ^ levelsPerPage` nodes and as many links to
other pages at most, each of them with one of the counts of the page.  Where a page has room for all
of them the first subtrie in the buffer always fits, in every state that the build reaches.

* `TopCount.Increasing` — the counts are those of pages that all have a subtrie.
* `tWindow_le` — there are not many more of them than links.
* `Tracks.firstFits` — the first subtrie fits.
* `buildReadBack_of_room` — the reader finds the trie in the pages.
-/
import Archie.PagedTrie

namespace Archie.Paged

open Patricia

/-! ### The nodes of a subtrie -/

theorem length_nextLevel_le {α : Type*} (ts : List (Trie α)) :
    (Trie.nextLevel ts).length ≤ 2 * ts.length := by
  induction ts with
  | nil => exact Nat.zero_le _
  | cons t ts ih =>
    have hchildren : t.children.length ≤ 2 := by
      cases t with
      | leaf a => exact Nat.zero_le _
      | node s l r => exact Nat.le_refl _
    rw [Trie.nextLevel, List.flatMap_cons, List.length_append, List.length_cons]
    rw [Trie.nextLevel] at ih
    omega

theorem length_levelAt_pow {α : Type*} (n : ℕ) (ts : List (Trie α)) :
    (Trie.levelAt n ts).length ≤ 2 ^ n * ts.length := by
  induction n generalizing ts with
  | zero => rw [Nat.pow_zero, Nat.one_mul]; exact Nat.le_refl _
  | succ n ih =>
    have hnext := length_nextLevel_le ts
    have hle := ih (Trie.nextLevel ts)
    have hmul := Nat.mul_le_mul_left (2 ^ n) hnext
    rw [Trie.levelAt_succ', Nat.pow_succ, Nat.mul_assoc]
    exact Nat.le_trans hle hmul

section

variable {cf : PageConfig}

theorem nodeBits_eq (hskip : cf.bitsPerSkip = 31) (hstart : cf.bitsPerStart = 31)
    (nodes : List Node) : nodeBits cf nodes = nodes.length * 32 := by
  rw [nodeBits]
  induction nodes with
  | nil => rfl
  | cons node nodes ih =>
    rw [List.map_cons, List.sum_cons, ih, bitsInNode, hskip, hstart, ite_self, List.length_cons]
    omega

/-- The bits of the nodes of some levels. -/
theorem forestBits_le (hskip : cf.bitsPerSkip = 31) (hstart : cf.bitsPerStart = 31) (k : ℕ)
    (ts : List (Trie ℕ)) : forestBits cf k ts ≤ (2 ^ k - 1) * (32 * ts.length) := by
  induction k generalizing ts with
  | zero =>
    rw [Paged.forestBits, levelsOf, List.map_nil, List.sum_nil]
    exact Nat.zero_le _
  | succ k ih =>
    have hpos : 0 < 2 ^ k := Nat.pow_pos (by omega)
    have hpow : 2 ^ (k + 1) - 1 = (2 ^ k - 1) * 2 + 1 := by
      rw [Nat.pow_succ]
      omega
    have hbelow : forestBits cf k (Trie.nextLevel ts) ≤ (2 ^ k - 1) * (2 * (32 * ts.length)) := by
      refine (ih (Trie.nextLevel ts)).trans (Nat.mul_le_mul_left _ ?_)
      have hnext := length_nextLevel_le ts
      omega
    rw [forestBits_succ, nodeBits_eq hskip hstart, List.length_map, hpow, Nat.add_mul,
      Nat.mul_assoc, Nat.one_mul]
    omega

end

/-! ### The counts of a page -/

/-- The entries increase. -/
def TopCount.Increasing (tc : TopCount) : Prop := tc.nLeftLinks.Pairwise (· < ·)

/-- Increasing numbers above one and below another. -/
theorem length_le_of_increasing {l : List ℕ} (h : l.Pairwise (· < ·)) {b c : ℕ}
    (hb : ∀ x ∈ l, b < x) (hc : ∀ x ∈ l, x < c) : l.length ≤ c - b - 1 := by
  induction l generalizing b with
  | nil => exact Nat.zero_le _
  | cons x l ih =>
    obtain ⟨hx, hl⟩ := List.pairwise_cons.mp h
    have hbx := hb x List.mem_cons_self
    have hxc := hc x List.mem_cons_self
    have hle := ih hl hx fun y hy => hc y (List.mem_cons_of_mem x hy)
    rw [List.length_cons]
    omega

/-- There are not many more counts than links. -/
theorem tWindow_le {tc : TopCount} (h : tc.Increasing) (b n : ℕ) : tWindow tc b n ≤ n + 1 := by
  rw [tWindow]
  split
  · exact Nat.zero_le _
  next hn =>
    obtain ⟨i, hi⟩ : ∃ i, i = tc.above b := ⟨_, rfl⟩
    obtain ⟨j, hj⟩ : ∃ j, j = tc.reach (b + n) := ⟨_, rfl⟩
    have hjlen : j ≤ tc.nLeftLinks.length := hj ▸ List.findIdx_le_length
    have hmem : ∀ x ∈ (tc.nLeftLinks.take j).drop i, b < x ∧ x < b + n := by
      intro x hx
      refine ⟨?_, lt_of_mem_take_reach (hj ▸ List.mem_of_mem_drop hx)⟩
      obtain ⟨k, hk⟩ := List.mem_iff_getElem?.mp hx
      rw [List.getElem?_drop] at hk
      obtain ⟨hlt, hget⟩ := List.getElem?_eq_some_iff.mp hk
      rw [List.length_take] at hlt
      rw [List.getElem_take] at hget
      have hi' : i < tc.nLeftLinks.length := by omega
      have hfirst : b < tc.nLeftLinks[i] := by
        subst hi
        have hspec := @List.findIdx_getElem _ (fun x => decide (b < x)) tc.nLeftLinks hi'
        exact of_decide_eq_true hspec
      rcases Nat.eq_zero_or_pos k with rfl | hk0
      · rw [← hget]
        exact hfirst
      · rw [← hget]
        exact Nat.lt_trans hfirst
          (List.pairwise_iff_getElem.mp h i (i + k) hi' (by omega) (by omega))
    have hsub : ((tc.nLeftLinks.take j).drop i).Pairwise (· < ·) :=
      (h.sublist (List.take_sublist _ _)).sublist (List.drop_sublist _ _)
    have hle := length_le_of_increasing hsub (fun x hx => (hmem x hx).1) fun x hx => (hmem x hx).2
    rw [List.length_drop, List.length_take_of_le hjlen] at hle
    rw [← hi, ← hj]
    omega

theorem segStart_lt {segs : List (List (Trie ℕ))} (hne : ∀ seg ∈ segs, seg ≠ []) {i j : ℕ}
    (hij : i < j) (hj : j ≤ segs.length) : segStart segs i < segStart segs j := by
  induction j with
  | zero => exact absurd hij (Nat.not_lt_zero i)
  | succ j ih =>
    have hseg : segs[j]? = some segs[j] := List.getElem?_eq_getElem hj
    have hpos := List.length_pos_iff.mpr (hne _ (List.mem_of_getElem? hseg))
    have hstep : segStart segs (j + 1) = segStart segs j + segs[j].length := by
      rw [segStart_succ, List.getD_eq_getElem?_getD, hseg, Option.getD_some]
    rcases Nat.eq_or_lt_of_le (Nat.le_of_lt_succ hij) with rfl | hlt
    · omega
    · have hlt' := ih hlt (Nat.le_of_succ_le hj)
      omega

theorem topCountOf_increasing {base : ℕ} {segs : List (List (Trie ℕ))}
    (hne : ∀ seg ∈ segs, seg ≠ []) (hsmall : segs.flatten.length < intMax) :
    (topCountOf base segs).Increasing := by
  refine List.pairwise_append.mpr ⟨?_, List.pairwise_singleton _ _, fun x hx y hy => ?_⟩
  · rw [List.pairwise_map]
    refine List.pairwise_lt_range.imp_of_mem fun {i j} _ hj hij => ?_
    exact segStart_lt hne hij (Nat.le_of_lt_succ (List.mem_range.mp hj))
  · obtain ⟨i, -, rfl⟩ := List.mem_map.mp hx
    rw [List.mem_singleton.mp hy]
    exact Nat.lt_of_le_of_lt (segStart_le segs i) hsmall

/-! ### The first subtrie fits -/

section

variable {cf : PageConfig} {file : List UInt8} {t : Trie ℕ} {pages : List BuiltPage}

/-- Room for all nodes of a subtrie and all counts that it may need. -/
def HasRoom (cf : PageConfig) : Prop := (2 * 2 ^ cf.levelsPerPage + 3) * 4 ≤ cf.pagedPageSize

instance hasRoom_decidable (cf : PageConfig) : Decidable (HasRoom cf) :=
  inferInstanceAs (Decidable (_ ≤ _))

theorem LevelsPaged.increasing {p i n : ℕ} {tc : TopCount} (h : LevelsPaged cf t pages p i n tc)
    (hsize : ∀ n, (Trie.levelAt n [t]).length < intMax) : tc.Increasing := by
  cases h with
  | bottom => exact List.pairwise_singleton _ _
  | level _ hforest hsegs =>
    refine topCountOf_increasing hsegs.ne ?_
    rw [hforest]
    exact hsize _

/-- **The first subtrie fits** into a page that has room. -/
theorem Tracks.firstFits {p base : ℕ} {s : BuildState} {ts rest : List (Trie ℕ)}
    {segs : List (List (Trie ℕ))} (h : Tracks cf file t p pages s ts rest base segs)
    (hskip : cf.bitsPerSkip = 31) (hstart : cf.bitsPerStart = 31) (hlevels : 0 < cf.levelsPerPage)
    (hsize : ∀ n, (Trie.levelAt n [t]).length < intMax) (hroom : HasRoom cf) : s.FirstFits cf := by
  rcases ts with _ | ⟨x, ts⟩
  · exact firstFits_nil hlevels h.ready.level
  · rw [firstFits_cons hlevels h.ready.level, pageBits, if_neg (List.cons_ne_nil x [])]
    have hnodes := forestBits_le hskip hstart cf.levelsPerPage [x]
    have hlinks := length_levelAt_pow cf.levelsPerPage [x]
    have hwindow := tWindow_le (h.below.increasing hsize) s.bCount
      (Trie.levelAt cf.levelsPerPage [x]).length
    have hpos : 0 < 2 ^ cf.levelsPerPage := Nat.pow_pos (by omega)
    have hconst : bitsInBcount + bitsInPagenum + bitsInCcount = 96 := rfl
    have hcount : bitsInTcount = 32 := rfl
    rw [HasRoom] at hroom
    rw [List.length_singleton] at hnodes hlinks
    rw [hconst, hcount]
    omega

/-- The first state. -/
theorem exists_start (hlevels : 0 < cf.levelsPerPage)
    (hsize : ∀ n, (Trie.levelAt n [t]).length < intMax)
    (hfile : LevelLists cf.levelPageSize file t) :
    ∃ s ts rest, buildStart cf file = some s ∧
      Tracks cf file t (s.pageLevel + 1) [] s ts rest 0 [] ∧
      t.height ≤ (s.pageLevel + 1) * cf.levelsPerPage := by
  obtain ⟨s, ts, rest, hs, hhead, hheight, hnumber, hchild, hcurr⟩ :=
    buildStart_spec hlevels hsize hfile
  exact ⟨s, ts, rest, hs, {
    toAtHead := hhead
    below := by
      rw [hchild]
      exact .bottom
    segments := fun j seg hj => absurd hj.symm (Option.some_ne_none seg)
    number := hnumber
    length := rfl
    counts := hcurr }, hheight⟩

/-- A state that is reached is between two pages. -/
theorem Reached.exists_tracks (hskip : cf.bitsPerSkip = 31) (hstart : cf.bitsPerStart = 31)
    (hlevels : 0 < cf.levelsPerPage) (hpage : 0 < cf.pagedPageSize)
    (hfile : LevelLists cf.levelPageSize file t)
    (hsize : ∀ n, (Trie.levelAt n [t]).length < intMax) (hroom : HasRoom cf) {s : BuildState}
    (hs : Reached cf file s) :
    ∃ p pages ts rest base segs, Tracks cf file t p pages s ts rest base segs := by
  induction hs with
  | start h =>
    obtain ⟨s, ts, rest, hs, htracks, -⟩ := exists_start hlevels hsize hfile
    obtain rfl := Option.some.inj (hs.symm.trans h)
    exact ⟨_, _, _, _, _, _, htracks⟩
  | step _ hgo h ih =>
    obtain ⟨p, pages, ts, rest, base, segs, htracks⟩ := ih
    rcases eq_or_ne ts [] with rfl | hne
    · have hempty := fun hpos => htracks.used_pos.mp hpos rfl
      obtain ⟨i, hi⟩ := Nat.exists_eq_succ_of_ne_zero
        (fun hzero => hgo ⟨Nat.eq_zero_of_not_pos hempty, hzero⟩)
      obtain ⟨s', ts', rest', hlevel, htracks', -⟩ :=
        htracks.levelStart hlevels hsize hpage hi
      rw [buildStep, if_neg hempty, hi, Nat.succ_sub_one, hlevel, Option.map_some] at h
      obtain ⟨-, rfl⟩ := Prod.mk.inj (Option.some.inj h)
      exact ⟨p, pages, ts', rest', _, [], htracks'⟩
    · obtain ⟨page, s', ts', rest', segs', hround, htracks', -⟩ :=
        htracks.pageRound hlevels hsize hne (htracks.firstFits hskip hstart hlevels hsize hroom)
      rw [buildStep, if_pos (htracks.used_pos.mpr hne), hround, Option.map_some] at h
      obtain ⟨-, rfl⟩ := Prod.mk.inj (Option.some.inj h)
      exact ⟨p, _, ts', rest', base, segs', htracks'⟩

/-- **The paged trie** with room for a subtrie in each page: the reader finds the whole trie in the
pages. -/
theorem buildReadBack_of_room (hskip : cf.bitsPerSkip = 31) (hstart : cf.bitsPerStart = 31)
    (haccept : pageTooSmall cf = some false) (hroom : HasRoom cf)
    (hfile : LevelLists cf.levelPageSize file t) (hstarts : t.leaves.length ≤ 2 ^ 30) :
    BuildReadBack cf file t := by
  have hlevels := levelsPerPage_pos haccept
  have hpage : 0 < cf.pagedPageSize := by
    rw [HasRoom] at hroom
    omega
  have hmax : intMax = 2147483647 := rfl
  have hwidth : ∀ n, (Trie.levelAt n [t]).length ≤ 2 ^ 30 := by
    intro n
    have hle := Trie.length_levelAt_le n [t]
    rw [Trie.leafCount, List.map_singleton, List.sum_singleton] at hle
    omega
  have hsize : ∀ n, (Trie.levelAt n [t]).length < intMax := by
    intro n
    have hle := hwidth n
    omega
  have hnodes : Trie.nodeCount [t] ≤ intMax := by
    have htwice := Trie.size_add_one t
    rw [Trie.nodeCount, List.map_singleton, List.sum_singleton]
    omega
  -- Every state that is reached has room, and so all levels are packed.
  have hall : ∀ s, Reached cf file s → s.FirstFits cf := by
    intro s hs
    obtain ⟨p, pages, ts, rest, base, segs, htracks⟩ :=
      hs.exists_tracks hskip hstart hlevels hpage hfile hsize hroom
    exact htracks.firstFits hskip hstart hlevels hsize hroom
  obtain ⟨s, ts, rest, hs, htracks, hheight⟩ := exists_start hlevels hsize hfile
  obtain ⟨fuel, pages, tc, hrun, hpaged⟩ :=
    htracks.buildRun hlevels hsize hpage hall _ _ rfl rfl (Reached.start hs)
  obtain ⟨base, segs, hall', -, hlast⟩ := hpaged.exists_segments hlevels
  refine ⟨fuel, pages, ?_, ?_⟩
  · rw [patriePagedBuild, haccept]
    simp only [Option.bind_eq_bind, Option.bind_some, hs, hrun]
    rfl
  · have hpos : 0 < s.pageLevel + 1 := Nat.succ_pos _
    exact (pagesOf hskip hstart hlevels hheight hwidth hnodes (rootNode_value_lt hfile)
      (fun i hi => hall' i (Nat.zero_le i) hi) (hlast hpos)).reads_root hpos

/-- The default sizes have room. -/
example : HasRoom ⟨1024, 8192, 8, 31, 31⟩ := by decide

end

end Archie.Paged
