/-
The index of a site file (`lib/libarchie/site_index.c`).

`create_site_index` writes, beside a site file, the numbers of its records in
the order of their `strt_1`; `search_site_index` finds the records with a given
one there.  The field holds the offset of a string in a file, document or
keyword and the number of a record in the records that stand for a directory,
and the index does not tell the two apart.

* `bsearch_spec` — the binary search finds an element equal to the key, if there
  is one.
* `searchSiteIndex_perm` — the search gives the numbers of the records with the
  given `strt_1`, each once, and fails if there is none.
-/
import Mathlib.Data.List.Range
import Archie.SiteFile
import Archie.Unique

namespace Archie

/-! ### `bsearch` -/

section

variable {α : Type}

/-- The loop of `bsearch` over the elements from `l` to `u`; `cmp` compares the
key with an element. -/
def bsearchLoop (cmp : α → ℤ) (base : List α) : ℕ → ℕ → ℕ → Option ℕ
  | 0, _, _ => none
  | fuel + 1, l, u =>
    if l < u then
      match base[(l + u) / 2]? with
      | none => none
      | some a =>
        if cmp a < 0 then bsearchLoop cmp base fuel l ((l + u) / 2)
        else if 0 < cmp a then bsearchLoop cmp base fuel ((l + u) / 2 + 1) u
        else some ((l + u) / 2)
    else none

/-- `bsearch`: the place of an element that compares equal to the key. -/
def bsearch (cmp : α → ℤ) (base : List α) : Option ℕ :=
  bsearchLoop cmp base base.length 0 base.length

/-- The elements are in an order that the comparison with the key respects. -/
def Searchable (cmp : α → ℤ) (base : List α) : Prop :=
  base.Pairwise fun a b => (cmp a ≤ 0 → cmp b ≤ 0) ∧ (cmp a < 0 → cmp b < 0)

theorem Searchable.getElem {cmp : α → ℤ} {base : List α} (h : Searchable cmp base) {i j : ℕ}
    (hij : i ≤ j) (hj : j < base.length) :
    (cmp base[i] ≤ 0 → cmp base[j] ≤ 0) ∧ (cmp base[i] < 0 → cmp base[j] < 0) := by
  rcases hij.lt_or_eq with hlt | rfl
  · exact List.pairwise_iff_getElem.mp h i j (by omega) hj hlt
  · exact ⟨id, id⟩

/-- Either an element is found, or none compares equal to the key.  The elements
before `l` are below the key and those from `u` on above it. -/
theorem bsearchLoop_spec {cmp : α → ℤ} {base : List α} (h : Searchable cmp base) {fuel l u : ℕ}
    (hfuel : u - l ≤ fuel) (hu : u ≤ base.length)
    (hbelow : ∀ i (hi : i < base.length), i < l → 0 < cmp base[i])
    (habove : ∀ i (hi : i < base.length), u ≤ i → cmp base[i] < 0) :
    (∃ (n : ℕ) (hn : n < base.length), bsearchLoop cmp base fuel l u = some n ∧ cmp base[n] = 0) ∨
      bsearchLoop cmp base fuel l u = none ∧ ∀ a ∈ base, cmp a ≠ 0 := by
  have hempty : u ≤ l → ∀ a ∈ base, cmp a ≠ 0 := by
    intro hul a ha
    obtain ⟨i, hi, rfl⟩ := List.mem_iff_getElem.mp ha
    rcases lt_or_ge i l with hil | hil
    · exact (hbelow i hi hil).ne'
    · exact (habove i hi (by omega)).ne
  induction fuel generalizing l u with
  | zero => exact Or.inr ⟨rfl, hempty (by omega)⟩
  | succ fuel ih =>
    rw [bsearchLoop]
    by_cases hlu : l < u
    · have hmid : (l + u) / 2 < base.length := by omega
      rw [if_pos hlu, List.getElem?_eq_getElem hmid]
      dsimp only
      split
      next hlt =>
        -- the key is below the middle element, hence below those after it
        have habove' : ∀ i (hi : i < base.length), (l + u) / 2 ≤ i → cmp base[i] < 0 :=
          fun i hi hle => (h.getElem hle hi).2 hlt
        refine ih (by omega) (by omega) hbelow habove' fun hul a ha => ?_
        obtain ⟨i, hi, rfl⟩ := List.mem_iff_getElem.mp ha
        rcases lt_or_ge i l with hil | hil
        · exact (hbelow i hi hil).ne'
        · exact (habove' i hi (by omega)).ne
      next hlt =>
        split
        next hgt =>
          have hbelow' : ∀ i (hi : i < base.length), i < (l + u) / 2 + 1 → 0 < cmp base[i] := by
            intro i hi hle
            by_contra hc
            have hmono := (h.getElem (show i ≤ (l + u) / 2 by omega) hmid).1 (by omega)
            omega
          refine ih (by omega) hu hbelow' habove fun hul a ha => ?_
          obtain ⟨i, hi, rfl⟩ := List.mem_iff_getElem.mp ha
          rcases lt_or_ge i ((l + u) / 2 + 1) with hil | hil
          · exact (hbelow' i hi hil).ne'
          · exact (habove i hi (by omega)).ne
        next hgt => exact Or.inl ⟨_, hmid, rfl, by omega⟩
    · rw [if_neg hlu]
      exact Or.inr ⟨rfl, hempty (by omega)⟩

/-- **`bsearch`** finds an element that compares equal to the key, if there is one. -/
theorem bsearch_spec {cmp : α → ℤ} {base : List α} (h : Searchable cmp base) :
    (∃ (n : ℕ) (hn : n < base.length), bsearch cmp base = some n ∧ cmp base[n] = 0) ∨
      bsearch cmp base = none ∧ ∀ a ∈ base, cmp a ≠ 0 :=
  bsearchLoop_spec h (by omega) le_rfl (by omega) (by omega)

/-- The elements with a property are a block, if those at the places from `s` to
`e` are the ones that have it. -/
theorem filter_eq_take_drop {p : α → Bool} {l : List α} {s e : ℕ} (hse : s ≤ e)
    (h : ∀ i (hi : i < l.length), p l[i] = true ↔ s ≤ i ∧ i ≤ e) :
    l.filter p = (l.drop s).take (e - s + 1) := by
  have hsplit : l = l.take s ++ ((l.drop s).take (e - s + 1) ++ l.drop (e + 1)) := by
    have hdrop : l.drop (e + 1) = (l.drop s).drop (e - s + 1) := by
      rw [List.drop_drop]
      congr 1
      omega
    rw [hdrop, List.take_append_drop, List.take_append_drop]
  have hbefore : (l.take s).filter p = [] := by
    refine List.filter_eq_nil_iff.mpr fun a ha hp => ?_
    obtain ⟨i, hi, rfl⟩ := List.mem_iff_getElem.mp ha
    rw [List.getElem_take] at hp
    rw [List.length_take] at hi
    have hin := (h i (by omega)).mp hp
    omega
  have hblock : ((l.drop s).take (e - s + 1)).filter p = (l.drop s).take (e - s + 1) := by
    refine List.filter_eq_self.mpr fun a ha => ?_
    obtain ⟨i, hi, rfl⟩ := List.mem_iff_getElem.mp ha
    rw [List.length_take, List.length_drop] at hi
    rw [List.getElem_take, List.getElem_drop]
    exact (h (s + i) (by omega)).mpr (by omega)
  have hafter : (l.drop (e + 1)).filter p = [] := by
    refine List.filter_eq_nil_iff.mpr fun a ha hp => ?_
    obtain ⟨i, hi, rfl⟩ := List.mem_iff_getElem.mp ha
    rw [List.length_drop] at hi
    rw [List.getElem_drop] at hp
    have hin := (h (e + 1 + i) (by omega)).mp hp
    omega
  calc l.filter p
      = (l.take s ++ ((l.drop s).take (e - s + 1) ++ l.drop (e + 1))).filter p := by rw [← hsplit]
    _ = (l.drop s).take (e - s + 1) := by
        rw [List.filter_append, List.filter_append, hbefore, hblock, hafter, List.nil_append,
          List.append_nil]

end

/-! ### The index -/

/-- `site_index_t`: the number of a record and its `strt_1`. -/
structure SiteIndex where
  recno : ℕ
  start : ℤ
  deriving DecidableEq, Repr

/-- `site_index_cmp`.  The two numbers are -1 or more, so that the difference of
two 32-bit numbers does not overflow. -/
def siteIndexCmp (a b : SiteIndex) : ℤ := a.start - b.start

/-- What `create_site_index` puts into the list before it sorts it. -/
def siteIndexList (outArray : List SiteEntry) : List SiteIndex :=
  outArray.zipIdx.map fun e => ⟨e.2, e.1.strt1⟩

/-- `create_site_index`: the contents of the index file. -/
def createSiteIndex (outArray : List SiteEntry) : List SiteIndex :=
  qsort siteIndexCmp (siteIndexList outArray)

/-- An index that the site file may have.  `qsort` leaves open which of two
records with one `strt_1` comes first. -/
structure IsSiteIndex (file : List SiteEntry) (index : List SiteIndex) : Prop where
  perm : index.Perm (siteIndexList file)
  sorted : index.Pairwise fun a b => a.start ≤ b.start

theorem isSiteIndex_createSiteIndex (file : List SiteEntry) :
    IsSiteIndex file (createSiteIndex file) := by
  refine ⟨perm_qsort _ _, pairwise_qsort SiteIndex.start fun a _ b _ => ?_⟩
  rw [siteIndexCmp]
  omega

/-- The first loop of `search_site_index`, which goes down from the element found
as long as they have the same start. -/
def indexStart (index : List SiteIndex) (start : ℤ) : ℕ → ℕ
  | 0 => 0
  | i + 1 => if index[i]?.map SiteIndex.start ≠ some start then i + 1 else indexStart index start i

/-- The second loop, upwards from the element found; `n` bounds its rounds. -/
def indexEnd (index : List SiteIndex) (start : ℤ) : ℕ → ℕ → ℕ
  | 0, i => i
  | n + 1, i =>
    if index[i + 1]?.map SiteIndex.start ≠ some start then i else indexEnd index start n (i + 1)

/-- `search_site_index`: the numbers of the records with this start, or `ERROR`. -/
def searchSiteIndex (index : List SiteIndex) (start : ℤ) : Option (List ℕ) :=
  (bsearch (fun a => siteIndexCmp ⟨0, start⟩ a) index).map fun i =>
    let s := indexStart index start i
    let e := indexEnd index start index.length i
    ((index.drop s).take (e - s + 1)).map SiteIndex.recno

theorem indexStart_spec (index : List SiteIndex) (start : ℤ) (n : ℕ) :
    indexStart index start n ≤ n ∧
      (∀ i, indexStart index start n ≤ i → i < n → index[i]?.map SiteIndex.start = some start) ∧
      ∀ i, i + 1 = indexStart index start n → index[i]?.map SiteIndex.start ≠ some start := by
  induction n with
  | zero => exact ⟨le_rfl, by omega, by simp [indexStart]⟩
  | succ n ih =>
    obtain ⟨hle, heq, hne⟩ := ih
    rw [indexStart]
    split
    next h =>
      refine ⟨le_rfl, by omega, fun i hi => ?_⟩
      obtain rfl : i = n := by omega
      exact h
    next h =>
      rw [not_not] at h
      refine ⟨by omega, fun i hi hin => ?_, hne⟩
      rcases Nat.lt_succ_iff_lt_or_eq.mp hin with hlt | rfl
      · exact heq i hi hlt
      · exact h

theorem indexEnd_spec (index : List SiteIndex) (start : ℤ) (n i : ℕ) (hn : index.length ≤ i + n) :
    i ≤ indexEnd index start n i ∧
      (∀ j, i < j → j ≤ indexEnd index start n i → index[j]?.map SiteIndex.start = some start) ∧
      index[indexEnd index start n i + 1]?.map SiteIndex.start ≠ some start := by
  induction n generalizing i with
  | zero =>
    refine ⟨le_rfl, fun j hj hle => absurd hj (not_lt.mpr hle), ?_⟩
    rw [indexEnd, List.getElem?_eq_none (by omega)]
    simp
  | succ n ih =>
    rw [indexEnd]
    split
    next h => exact ⟨le_rfl, fun j hj hle => absurd hj (not_lt.mpr hle), h⟩
    next h =>
      rw [not_not] at h
      obtain ⟨hle, heq, hne⟩ := ih (i + 1) (by omega)
      refine ⟨by omega, fun j hj hjle => ?_, hne⟩
      rcases Nat.eq_or_lt_of_le hj with rfl | hlt
      · exact h
      · exact heq j hlt hjle

theorem searchable_siteIndexCmp {index : List SiteIndex}
    (h : index.Pairwise fun a b => a.start ≤ b.start) (start : ℤ) :
    Searchable (fun a => siteIndexCmp ⟨0, start⟩ a) index := by
  refine h.imp fun {a b} hab => ?_
  simp only [siteIndexCmp]
  omega

/-- In a sorted index the search finds the elements with the given start. -/
theorem searchSiteIndex_eq {index : List SiteIndex}
    (h : index.Pairwise fun a b => a.start ≤ b.start) (start : ℤ) :
    searchSiteIndex index start =
      if index.filter (fun a => a.start = start) = [] then none
      else some ((index.filter fun a => a.start = start).map SiteIndex.recno) := by
  have hmono : ∀ i j (hi : i < index.length) (hj : j < index.length), i ≤ j →
      index[i].start ≤ index[j].start := by
    intro i j hi hj hij
    rcases hij.lt_or_eq with hlt | rfl
    · exact List.pairwise_iff_getElem.mp h i j hi hj hlt
    · exact le_rfl
  rcases bsearch_spec (searchable_siteIndexCmp h start) with ⟨n, hn, hfound, heq⟩ | ⟨hnone, hne⟩
  · have hstart : index[n].start = start := by
      simp only [siteIndexCmp] at heq
      omega
    obtain ⟨hsn, hs, hsne⟩ := indexStart_spec index start n
    obtain ⟨hen, he, hene⟩ := indexEnd_spec index start index.length n (by omega)
    have hblock : ∀ i (hi : i < index.length), decide (index[i].start = start) = true ↔
        indexStart index start n ≤ i ∧ i ≤ indexEnd index start index.length n := by
      intro i hi
      rw [decide_eq_true_eq]
      constructor
      · intro hstarti
        constructor
        · by_contra hlt
          -- then the element before the first one of the block has this start as well
          obtain ⟨k, hk⟩ := Nat.exists_eq_add_one_of_ne_zero
            (show indexStart index start n ≠ 0 by omega)
          refine hsne k hk.symm ?_
          have hik := hmono i k hi (by omega) (by omega)
          have hkn := hmono k n (by omega) hn (by omega)
          rw [List.getElem?_eq_getElem (by omega)]
          simp only [Option.map_some, Option.some.injEq]
          omega
        · by_contra hlt
          refine hene ?_
          have hik := hmono _ i
              (show indexEnd index start index.length n + 1 < index.length by omega)
            hi (by omega)
          have hkn := hmono n _ hn
            (show indexEnd index start index.length n + 1 < index.length by omega) (by omega)
          rw [List.getElem?_eq_getElem (by omega)]
          simp only [Option.map_some, Option.some.injEq]
          omega
      · rintro ⟨hsi, hie⟩
        have hget : index[i]?.map SiteIndex.start = some start := by
          rcases lt_trichotomy i n with hin | rfl | hin
          · exact hs i hsi hin
          · rw [List.getElem?_eq_getElem hn, Option.map_some, hstart]
          · exact he i hin hie
        rw [List.getElem?_eq_getElem hi] at hget
        simpa using hget
    have hmem : index[n] ∈ index.filter fun a => a.start = start :=
      List.mem_filter.mpr ⟨List.getElem_mem hn, by simpa using hstart⟩
    rw [searchSiteIndex, hfound, Option.map_some, if_neg (List.ne_nil_of_mem hmem),
      filter_eq_take_drop (hsn.trans hen) hblock]
  · have hnil : index.filter (fun a => a.start = start) = [] := by
      refine List.filter_eq_nil_iff.mpr fun a ha hstart => hne a ha ?_
      rw [decide_eq_true_eq] at hstart
      simp only [siteIndexCmp]
      omega
    rw [searchSiteIndex, hnone, if_pos hnil]
    rfl

/-- The numbers of the records of a site file with a given `strt_1`. -/
def recordsWith (file : List SiteEntry) (start : ℤ) : List ℕ :=
  (file.zipIdx.filter fun e => e.1.strt1 = start).map Prod.snd

theorem mem_recordsWith {file : List SiteEntry} {start : ℤ} {r : ℕ} :
    r ∈ recordsWith file start ↔ ∃ e, file[r]? = some e ∧ e.strt1 = start := by
  simp [recordsWith, List.mem_zipIdx_iff_getElem?]

theorem nodup_recordsWith (file : List SiteEntry) (start : ℤ) : (recordsWith file start).Nodup := by
  have hsub : (recordsWith file start).Sublist (file.zipIdx.map Prod.snd) :=
    List.filter_sublist.map _
  rw [List.zipIdx_map_snd] at hsub
  exact hsub.nodup List.nodup_range'

theorem filter_siteIndexList (file : List SiteEntry) (start : ℤ) :
    ((siteIndexList file).filter fun a => a.start = start).map SiteIndex.recno =
      recordsWith file start := by
  rw [siteIndexList, List.filter_map, List.map_map]
  rfl

/-- **`search_site_index`** gives the records with the start, each once, and fails
if there is none. -/
theorem searchSiteIndex_perm {file : List SiteEntry} {index : List SiteIndex}
    (h : IsSiteIndex file index) (start : ℤ) :
    recordsWith file start = [] ∧ searchSiteIndex index start = none ∨
      ∃ recs, recs ≠ [] ∧ recs.Perm (recordsWith file start) ∧
        searchSiteIndex index start = some recs := by
  have hperm : ((index.filter fun a => a.start = start).map SiteIndex.recno).Perm
      (recordsWith file start) := by
    rw [← filter_siteIndexList]
    exact (h.perm.filter _).map _
  rw [searchSiteIndex_eq h.sorted]
  split
  next hnil =>
    rw [hnil, List.map_nil] at hperm
    exact Or.inl ⟨hperm.symm.eq_nil, rfl⟩
  next hne => exact Or.inr ⟨_, fun heq => hne (List.map_eq_nil_iff.mp heq), hperm, rfl⟩

end Archie
