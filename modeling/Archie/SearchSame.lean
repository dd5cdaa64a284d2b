/-
A resumable search by the comparison of the index.

* `IsPaTrie` — the trie of the index points of a text.
* `patrieSearchSub_first` — what a search does up to its first start.
* `searchBatches_same` — the batches are the index points that begin with the
  key, in index order.
-/
import Archie.Batches
import Archie.SearchWalk

namespace Archie

open Patricia

/-- The bits of a suffix of the text, as the comparison sees them. -/
def suffixBits (text : List UInt8) (s : Sens) (offset : ℕ) : ℕ → Bool :=
  textBits s.fold (text.drop offset)

/-- The suffix at `offset` begins with the key. -/
def BeginsWith (text : List UInt8) (s : Sens) (key : List UInt8) (offset : ℕ) : Prop :=
  key.map s.fold <+: (text.drop offset).map s.fold

/-- A trie of the index points of a text under a comparison. -/
structure IsPaTrie (text : List UInt8) (s : Sens) (points : List ℕ) (t : Trie ℕ) : Prop where
  perm : t.leaves.Perm points
  correct : t.Correct (suffixBits text s) 0

/-- What a search should return: the index points that begin with the key, in
index order. -/
structure Answer (text : List UInt8) (index search : Sens) (points : List ℕ) (key : List UInt8)
    (l : List ℕ) : Prop where
  order : l.Pairwise fun x y => LexLt (suffixBits text index x) (suffixBits text index y)
  mem_iff : ∀ o, o ∈ l ↔ o ∈ points ∧ BeginsWith text search key o

theorem keyTypeMatch_iff {cf : PatrieConfig} {s : Sens} {key : List UInt8} {o : ℕ} :
    keyTypeMatch cf key o (some s) = true ↔ BeginsWith cf.text s key o :=
  keyMatchesWith_iff

/-- The leaves that begin with the key are the answer. -/
theorem IsPaTrie.answer {cf : PatrieConfig} {s : Sens} {points : List ℕ} {t : Trie ℕ}
    (h : IsPaTrie cf.text s points t) (search : Sens) (key : List UInt8) :
    Answer cf.text s search points key
      (t.leaves.filter fun o => keyTypeMatch cf key o (some search)) where
  order := (Trie.pairwise_leaves h.correct).filter _
  mem_iff := by
    intro o
    rw [List.mem_filter, h.perm.mem_iff, keyTypeMatch_iff]

section First

variable {cf : PatrieConfig} {points : List ℕ} {t : Trie ℕ} {key : List UInt8}

/-- The subtrie that the bits of the key lead to. -/
def keySubtrie (cf : PatrieConfig) (key : List UInt8) (t : Trie ℕ) : Trie ℕ :=
  t.blind (textBits cf.buildCaseAccentSens.fold key) (8 * key.length) 0

/-- The index points that begin with the key are below the subtrie reached. -/
theorem filter_keySubtrie (ht : IsPaTrie cf.text cf.buildCaseAccentSens points t)
    (hkey : ∀ c ∈ key, c ≠ 0) {p : ℕ → Bool}
    (hp : ∀ o, p o = true → keyMatchesIdxType cf key o = true) :
    (keySubtrie cf key t).leaves.filter p = t.leaves.filter p := by
  refine Trie.filter_leaves_blind ht.correct p fun o _ ho => ?_
  exact (keyMatchesWith_iff_agree (fold_eq_zero_iff _) hkey).mp (hp o ho)

/-- One start below the subtrie decides for all. -/
theorem keyMatchesIdxType_eq (ht : IsPaTrie cf.text cf.buildCaseAccentSens points t)
    (hkey : ∀ c ∈ key, c ≠ 0) {x y : ℕ} (hx : x ∈ (keySubtrie cf key t).leaves)
    (hy : y ∈ (keySubtrie cf key t).leaves) :
    keyMatchesIdxType cf key x = keyMatchesIdxType cf key y := by
  have hagree := Trie.agree_blind ht.correct hx hy
  have hiff : ∀ o, keyMatchesIdxType cf key o = true ↔
      Agree (8 * key.length) (suffixBits cf.text cf.buildCaseAccentSens o)
        (textBits cf.buildCaseAccentSens.fold key) :=
    fun o => keyMatchesWith_iff_agree (fold_eq_zero_iff _) hkey
  rw [Bool.eq_iff_iff, hiff, hiff]
  exact ⟨fun h => hagree.symm.trans h, fun h => hagree.trans h⟩

variable (key) in
/-- A search up to its first start: it reaches the subtrie of the key, and the
stack holds all of it but its first leaf. -/
theorem patrieSearchSub_first (hrep : Represents cf.trie t) {m : ℤ}
    (hm : ¬ (m = 0 ∧ cf.buildCaseAccentSens.code ≠ 0)) {b : ℕ} (hb : 0 < b) (page : TriePage)
    {fuel : ℕ} (hfuel : t.size ≤ fuel) :
    ∃ node d first rest state page' ts,
      patrieSearchSub cf fuel key m b page =
        searchRest cf fuel key m b node [first] state page' ∧
      Finds cf.trie (keySubtrie cf key t) d node ∧
      (keySubtrie cf key t).leaves = first :: rest ∧
      Stacks cf.trie state ts ∧ remaining ts = rest ∧ stackSize ts ≤ fuel ∧
      page'.Loaded cf.trie ∧ state.key = some key ∧ state.matchCaseAccSens = m := by
  obtain ⟨root, rootPage, hroot, hrootPage, hfinds⟩ := hrep.finds
  obtain ⟨node, nodePage, d, hsearch, hnodePage, hnode⟩ :=
    searchLoop_spec key hfinds hrootPage hfuel
  have hsize : (keySubtrie cf key t).size ≤ fuel := le_trans (Trie.size_blind_le _ _ _ _) hfuel
  -- the new state has an empty stack
  have hnew : Stacks cf.trie
      { patrieAllocState with key := some key, matchCaseAccSens := m } [] :=
    ⟨⟨patrieAllocState_wellFormed.top_ge, patrieAllocState_wellFormed.top_lt, rfl⟩, .nil⟩
  have hpush := hnew.push (t := keySubtrie cf key t) hnode
  have hstack : stackSize ([] ++ [keySubtrie cf key t]) ≤ fuel := by
    rw [stackSize_concat]
    simpa [stackSize] using hsize
  obtain ⟨start, state, page', ts, hload, hw⟩ :=
    loadStarts_spec (p := fun _ => true) (fun _ => rfl) 1 hpush hnodePage hstack
  have hall : remaining ([] ++ [keySubtrie cf key t]) = (keySubtrie cf key t).leaves := by
    rw [remaining_concat, remaining_nil, List.append_nil]
  obtain ⟨first, rest, hleaves⟩ := List.exists_cons_of_ne_nil (keySubtrie cf key t).leaves_ne_nil
  have hstart := hw.start_eq
  have hrest := hw.rest_eq
  rw [hall, List.filter_true, hleaves] at hstart hrest
  rw [List.filter_true] at hrest
  refine ⟨node, d, first, rest, state, page', ts, ?_, hnode, hleaves, hw.onStack, hrest,
    le_trans hw.size_le hstack, hw.loaded, ?_, ?_⟩
  · rw [patrieSearchSub, if_neg hm, if_neg hb.ne', search, hroot]
    simp only [Option.bind_eq_bind, Option.bind_some, hsearch]
    rw [loadAllStarts, hload, hstart]
    rfl
  · rw [hw.same.key, (sameSearch_push node _).key]
  · rw [hw.same.matchCaseAccSens, (sameSearch_push node _).matchCaseAccSens]

end First

/-- A search by the comparison of the index that has the starts `l` still to
return. -/
inductive Pending (cf : PatrieConfig) (fuel : ℕ) : List ℕ → PatrieState → TriePage → Prop
  | matched {ts : List (Trie ℕ)} {state : PatrieState} {page : TriePage}
      (onStack : Stacks cf.trie state ts) (loaded : page.Loaded cf.trie)
      (size_le : stackSize ts ≤ fuel)
      (sens : state.matchCaseAccSens = cf.buildCaseAccentSens.code)
      (first : state.firstMatched ≠ 0) : Pending cf fuel (remaining ts) state page
  | unmatched {state : PatrieState} {page : TriePage}
      (sens : state.matchCaseAccSens = cf.buildCaseAccentSens.code)
      (first : state.firstMatched = 0) : Pending cf fuel [] state page

/-- Resuming a search returns the next starts. -/
theorem Pending.more {cf : PatrieConfig} {fuel : ℕ} {l : List ℕ} {state : PatrieState}
    {page : TriePage} (h : Pending cf fuel l state page) (b : ℕ) :
    ∃ state' page', patrieGetMoreStarts cf fuel b state page = some (l.take b, state', page') ∧
      Pending cf fuel (l.drop b) state' page' := by
  cases h with
  | @matched ts _ _ hstate hpage hfuel hsens hfirst =>
    have hmore : patrieGetMoreStarts cf fuel b state page =
        loadAllStarts cf fuel b state page := by
      rw [patrieGetMoreStarts, if_pos hsens, if_pos hfirst, loadAllStarts, loadStarts]
      split <;> rfl
    obtain ⟨start, state', page', ts', hload, hw⟩ :=
      loadStarts_spec (p := fun _ => true) (fun _ => rfl) b hstate hpage hfuel
    have hstart := hw.start_eq
    have hrest := hw.rest_eq
    rw [List.filter_true] at hstart hrest
    rw [List.filter_true] at hrest
    refine ⟨state', page', ?_, ?_⟩
    · rw [hmore, loadAllStarts, hload, hstart]
    · rw [← hrest]
      exact .matched hw.onStack hw.loaded (le_trans hw.size_le hfuel)
        (hw.same.matchCaseAccSens.trans hsens) (by rwa [hw.same.firstMatched])
  | unmatched hsens hfirst =>
    refine ⟨state, page, ?_, ?_⟩
    · rw [patrieGetMoreStarts, if_pos hsens, if_neg (not_not.mpr hfirst), List.take_nil]
      split <;> rfl
    · rw [List.drop_nil]
      exact .unmatched hsens hfirst

/-- A search by the comparison of the index returns the first of the leaves that
match, and has the others to return. -/
theorem patrieSearchSub_pending {cf : PatrieConfig} {points : List ℕ} {t : Trie ℕ}
    (ht : IsPaTrie cf.text cf.buildCaseAccentSens points t) (hrep : Represents cf.trie t)
    {key : List UInt8} (hkey : ∀ c ∈ key, c ≠ 0) {b : ℕ} (hb : 0 < b) (page : TriePage)
    {fuel : ℕ} (hfuel : t.size ≤ fuel) :
    ∃ state' page', patrieSearchSub cf fuel key cf.buildCaseAccentSens.code b page =
        some ((t.leaves.filter fun o => keyMatchesIdxType cf key o).take b, state', page') ∧
      Pending cf fuel ((t.leaves.filter fun o => keyMatchesIdxType cf key o).drop b)
        state' page' := by
  obtain ⟨node, d, first, rest, state, page', ts, hsub, -, hleaves, hstate, hrem, hsize, hpage',
    -, hsens⟩ := patrieSearchSub_first key hrep
      (m := cf.buildCaseAccentSens.code) (fun h => h.2 h.1) hb page hfuel
  have hfilter := filter_keySubtrie ht hkey (p := fun o => keyMatchesIdxType cf key o)
    fun o ho => ho
  have hall : ∀ o ∈ (keySubtrie cf key t).leaves,
      keyMatchesIdxType cf key o = keyMatchesIdxType cf key first := fun o ho =>
    keyMatchesIdxType_eq ht hkey ho (by rw [hleaves]; exact List.mem_cons_self)
  rw [hsub, searchRest, ← hfilter]
  simp only [List.head?_cons, Option.bind_eq_bind, Option.bind_some]
  by_cases hfirst : keyMatchesIdxType cf key first = false
  · -- no start matches
    have hnil : (keySubtrie cf key t).leaves.filter (fun o => keyMatchesIdxType cf key o) = [] := by
      rw [List.filter_eq_nil_iff]
      intro o ho hmatch
      rw [hall o ho, hfirst] at hmatch
      contradiction
    rw [if_pos hfirst, hnil, List.take_nil, List.drop_nil]
    exact ⟨_, _, rfl, .unmatched hsens rfl⟩
  · -- all starts match
    have hid : (keySubtrie cf key t).leaves.filter (fun o => keyMatchesIdxType cf key o) =
        first :: rest := by
      rw [← hleaves, List.filter_eq_self]
      intro o ho
      rw [hall o ho]
      exact Bool.eq_true_of_not_eq_false hfirst
    have hstate' := hstate.setFirstMatched 1
    obtain ⟨start, state', page'', ts', hload, hw⟩ :=
      loadStarts_spec (p := fun _ => true) (fun _ => rfl) (b - 1) hstate' hpage' hsize
    have hstart := hw.start_eq
    have hrest := hw.rest_eq
    rw [List.filter_true, hrem] at hstart hrest
    rw [List.filter_true] at hrest
    obtain ⟨b, rfl⟩ : ∃ k, b = k + 1 := ⟨b - 1, by omega⟩
    rw [Nat.add_sub_cancel] at hload hstart hrest
    refine ⟨state', page'', ?_, ?_⟩
    · rw [if_neg hfirst, if_pos trivial, loadAllStarts, Nat.add_sub_cancel, hload, hid,
        List.take_succ_cons, hstart]
      rfl
    · rw [hid, List.drop_succ_cons, ← hrest]
      exact .matched hw.onStack hw.loaded (le_trans hw.size_le hsize)
        (hw.same.matchCaseAccSens.trans hsens) (by rw [hw.same.firstMatched]; exact Int.one_ne_zero)

theorem moreBatches_pending {cf : PatrieConfig} {fuel : ℕ} {l : List ℕ} {state : PatrieState}
    {page : TriePage} (h : Pending cf fuel l state page) (bs : List ℕ) :
    moreBatches cf fuel bs state page = some (batches l bs) := by
  induction bs generalizing l state page with
  | nil => rfl
  | cons b bs ih =>
    obtain ⟨state', page', hmore, h'⟩ := h.more b
    rw [moreBatches, hmore, batches]
    simp only [Option.bind_eq_bind, Option.bind_some, ih h']

/-- The batches of a search by the comparison of the index, with the leaves that
match as the whole answer. -/
theorem searchBatches_eq {cf : PatrieConfig} {points : List ℕ} {t : Trie ℕ}
    (ht : IsPaTrie cf.text cf.buildCaseAccentSens points t) (hrep : Represents cf.trie t)
    {key : List UInt8} (hkey : ∀ c ∈ key, c ≠ 0) {b : ℕ} (hb : 0 < b) (bs : List ℕ)
    (page : TriePage) {fuel : ℕ} (hfuel : t.size ≤ fuel) :
    searchBatches cf fuel key cf.buildCaseAccentSens.code b bs page =
      some (batches (t.leaves.filter fun o => keyMatchesIdxType cf key o) (b :: bs)) := by
  obtain ⟨state', page', hsub, hpending⟩ := patrieSearchSub_pending ht hrep hkey hb page hfuel
  rw [searchBatches, hsub, batches]
  simp only [Option.bind_eq_bind, Option.bind_some, moreBatches_pending hpending bs]

/-- **A search by the comparison of the index is exact and resumes exactly.**
The batches together are the index points that begin with the key, in index
order, as far as the sizes reach; after a short batch all are empty. -/
theorem searchBatches_same {cf : PatrieConfig} {points : List ℕ} {t : Trie ℕ}
    (ht : IsPaTrie cf.text cf.buildCaseAccentSens points t) (hrep : Represents cf.trie t)
    {key : List UInt8} (hkey : ∀ c ∈ key, c ≠ 0) {b : ℕ} (hb : 0 < b) (bs : List ℕ)
    (page : TriePage) {fuel : ℕ} (hfuel : t.size ≤ fuel) :
    ∃ rs l, searchBatches cf fuel key cf.buildCaseAccentSens.code b bs page = some rs ∧
      Answer cf.text cf.buildCaseAccentSens cf.buildCaseAccentSens points key l ∧
      rs.flatten = l.take (b + bs.sum) ∧
      ∀ i j, i < j → (rs.getD i []).length < (b :: bs).getD i 0 → rs.getD j [] = [] := by
  refine ⟨_, _, searchBatches_eq ht hrep hkey hb bs page hfuel, ht.answer _ key, ?_, ?_⟩
  · rw [flatten_batches, List.sum_cons]
    rfl
  · intro i j hij hshort
    exact getD_batches_eq_nil hij hshort

/-! ### A file with two starts -/

/-- The text `ab`, both of its characters index points, in a file of one page. -/
def sampleConfig : PatrieConfig where
  text := [97, 98]
  buildCaseAccentSens := .csas
  trie :=
    { pages := [[0, 0, 0, 7, 2147483649, 2147483650]]
      levelsPerPage := 2 }

/-- Its only page. -/
def samplePage : TriePage where
  bCount := 0
  nTCounts := 0
  firstChildPage := 0
  tCount := []
  nodeBitOff := 96
  bits := [0, 0, 0, 7, 2147483649, 2147483650]
  pageNum := 0

theorem samplePage_loaded : samplePage.Loaded sampleConfig.trie := rfl

/-- Its trie: the bit at position 6 tells `a` from `b`. -/
def sampleTrie : Trie ℕ := .node 6 (.leaf 0) (.leaf 1)

theorem sampleTrie_isPaTrie : IsPaTrie sampleConfig.text .csas [0, 1] sampleTrie where
  perm := List.Perm.refl _
  correct := by
    simp only [Trie.Correct, sampleTrie, Agree]
    decide

theorem sampleConfig_represents : Represents sampleConfig.trie sampleTrie :=
  ⟨⟨7, 1, 1, 6, 96, 1, 0, 1, 0⟩, samplePage, by decide, samplePage_loaded,
    reads_node (by decide) rfl (by decide) samplePage_loaded
      ⟨⟨1, 0, 2, 7, 128, 0, 1, 2, 0⟩, samplePage, by decide, samplePage_loaded, rfl, rfl⟩
      ⟨⟨2, 0, 2, 7, 160, 0, 2, 2, 0⟩, samplePage, by decide, samplePage_loaded, rfl, rfl⟩⟩

theorem searchBatches_sample :
    ∃ rs l, searchBatches sampleConfig 3 [98] 3 1 [2] samplePage = some rs ∧
      Answer sampleConfig.text .csas .csas [0, 1] [98] l ∧ rs.flatten = l.take 3 ∧
      ∀ i j, i < j → (rs.getD i []).length < [1, 2].getD i 0 → rs.getD j [] = [] :=
  searchBatches_same sampleTrie_isPaTrie sampleConfig_represents
    (by simp) (by decide) [2] samplePage (by decide)

end Archie
