/-
The start database (`startdb/start_db.c`, `startdb/host_table.c`): for each start
of a string the list of the hosts whose site files have the string.

A list is kept with a terminator as the value of a dbm file, ordered by the
priorities of the hosts.

* `Holds.findInList_eq`, `holds_insertInList`, `holds_shiftDown` — what the loops over
  the array do to the list that it holds.
* `updateStartDbs_lists` — an update replaces the list of its start, by one with the
  host in its place or without it, and leaves every other list as it is.
* `updateStartDbs_spec` — the same, told of the memberships.
-/
import Mathlib.Data.List.Perm.Subperm
import Mathlib.Data.List.Sort
import Mathlib.Data.List.GetD
import Mathlib.Logic.Function.Basic
import Archie.CText

namespace Archie

/-! ### The host table -/

/-- `host_table_t`. -/
structure HostTableEntry where
  ipaddr : ℕ
  hostname : List UInt8
  port : ℤ
  deriving DecidableEq, Repr

/-- The index of the first entry of the table with a property. -/
def hostTableIndex (table : List HostTableEntry) (p : HostTableEntry → Bool) : Option ℤ :=
  let i := table.findIdx p
  if i < table.length then some i else none

/-- `host_table_find`.  The index is looked at, and the entry found there read
into the other arguments, only where these do not say which host is meant. -/
def hostTableFind (table : List HostTableEntry) (ipaddr : ℕ) (hostname : List UInt8)
    (port index : ℤ) :
    Option ℤ :=
  if ipaddr ≠ 0 ∧ hostname ≠ [] ∧ port > 0 then
    hostTableIndex table fun e => e.ipaddr == ipaddr && e.port == port ||
      strcasecmpEq e.hostname hostname && e.port == port
  else if ipaddr ≠ 0 ∧ port > 0 then
    hostTableIndex table fun e => e.ipaddr == ipaddr && e.port == port
  else if hostname ≠ [] ∧ port > 0 then
    hostTableIndex table fun e => strcasecmpEq e.hostname hostname && e.port == port
  else if 0 ≤ index ∧ index < table.length then some index
  else none

theorem hostTableIndex_lt {table : List HostTableEntry} {p : HostTableEntry → Bool} {i : ℤ}
    (h : hostTableIndex table p = some i) : 0 ≤ i ∧ i < table.length := by
  unfold hostTableIndex at h
  dsimp only at h
  split at h
  next hlt =>
    obtain rfl := Option.some.inj h
    omega
  next => simp at h

/-- What is found is an index of the table. -/
theorem hostTableFind_lt {table : List HostTableEntry} {ipaddr : ℕ} {hostname : List UInt8}
    {port index i : ℤ} (h : hostTableFind table ipaddr hostname port index = some i) :
    0 ≤ i ∧ i < table.length := by
  unfold hostTableFind at h
  split_ifs at h with _ _ _ h4
  · exact hostTableIndex_lt h
  · exact hostTableIndex_lt h
  · exact hostTableIndex_lt h
  · obtain rfl := Option.some.inj h
    exact h4

/-! ### dbm files -/

/-- A dbm file of lists under starts, through `dbm_fetch`, `dbm_store` (with
`DBM_REPLACE`) and `dbm_delete`.  `store` may be refused; a read does not fail
and neither does deleting what is there. -/
structure Dbm (σ : Type) where
  fetch : σ → ℤ → Option (List ℤ)
  store : σ → ℤ → List ℤ → Option σ
  delete : σ → ℤ → Option σ
  fetch_store : ∀ {db db' : σ} {key : ℤ} {entry : List ℤ}, store db key entry = some db' →
    ∀ key', fetch db' key' = if key' = key then some entry else fetch db key'
  delete_present : ∀ {db : σ} {key : ℤ} {entry : List ℤ}, fetch db key = some entry →
    ∃ db', delete db key = some db' ∧
      ∀ key', fetch db' key' = if key' = key then none else fetch db key'

/-- A dbm file as a finite map that takes every entry. -/
def mapDbm : Dbm (ℤ → Option (List ℤ)) where
  fetch db key := db key
  store db key entry := some (Function.update db key (some entry))
  delete db key := some (Function.update db key none)
  fetch_store h key' := by
    obtain rfl := Option.some.inj h
    simp [Function.update_apply]
  delete_present _ := ⟨_, rfl, fun key' => by simp [Function.update_apply]⟩

/-- `END_LIST`. -/
def endList : ℤ := -1

/-- `MAX_LIST_SIZE`. -/
def maxListSize : ℕ := 65536

/-- The array `index_list` and the open database. -/
structure StartDbs (σ : Type) where
  indexList : ℕ → ℤ
  db : σ

/-! ### The loops over `index_list` -/

/-- The loops that run to the end of the list: from `i`, with `fuel` cells left. -/
def listEnd (mem : ℕ → ℤ) : ℕ → ℕ → ℕ
  | 0, i => i
  | fuel + 1, i => if mem i ≠ endList then listEnd mem fuel (i + 1) else i

/-- The loop of `find_in_list`. -/
def findInListFrom (mem : ℕ → ℤ) (index : ℤ) : ℕ → ℕ → ℤ
  | 0, _ => endList
  | fuel + 1, i =>
    if mem i ≠ endList then if mem i = index then i else findInListFrom mem index fuel (i + 1)
    else endList

/-- `find_in_list`. -/
def findInList (mem : ℕ → ℤ) (index : ℤ) : ℤ := findInListFrom mem index maxListSize 0

/-- `for ( j++; j > i; j-- ) index_list[j] = index_list[j-1]`, from a given `j`. -/
def shiftUp (i : ℕ) : ℕ → (ℕ → ℤ) → ℕ → ℤ
  | 0, mem => mem
  | j + 1, mem => if i < j + 1 then shiftUp i j (Function.update mem (j + 1) (mem j)) else mem

/-- The loop of `insert_in_list`.  `cmp` is `host_table_cmp`. -/
def insertInListFrom (cmp : ℤ → ℤ → ℤ) (index : ℤ) : ℕ → ℕ → (ℕ → ℤ) → ℕ → ℤ
  | 0, i, mem => Function.update (Function.update mem i index) (i + 1) endList
  | fuel + 1, i, mem =>
    if mem i ≠ endList then
      if cmp index (mem i) < 0 then
        Function.update (shiftUp i (listEnd mem (fuel + 1) i + 1) mem) i index
      else insertInListFrom cmp index fuel (i + 1) mem
    else Function.update (Function.update mem i index) (i + 1) endList

/-- `insert_in_list`. -/
def insertInList (cmp : ℤ → ℤ → ℤ) (mem : ℕ → ℤ) (index : ℤ) : ℕ → ℤ :=
  insertInListFrom cmp index maxListSize 0 mem

/-- The loop of `update_start_dbs` that closes the gap at `i`, with the last `i`. -/
def shiftDown : ℕ → ℕ → (ℕ → ℤ) → (ℕ → ℤ) × ℕ
  | 0, i, mem => (mem, i)
  | fuel + 1, i, mem =>
    if mem (i + 1) ≠ endList then shiftDown fuel (i + 1) (Function.update mem i (mem (i + 1)))
    else (mem, i)

/-! ### What the loops do to the list in the array -/

/-- The array holds a terminated list. -/
structure Holds (mem : ℕ → ℤ) (l : List ℤ) : Prop where
  cell : ∀ i (h : i < l.length), mem i = l[i]
  term : mem l.length = endList
  noEnd : endList ∉ l
  lt : l.length < maxListSize

namespace Holds

variable {mem : ℕ → ℤ} {l : List ℤ}

theorem cell_ne (h : Holds mem l) {i : ℕ} (hi : i < l.length) : mem i ≠ endList := by
  rw [h.cell i hi]
  intro he
  exact h.noEnd (he ▸ l.getElem_mem hi)

theorem listEnd_eq (h : Holds mem l) {i fuel : ℕ} (hi : i ≤ l.length)
    (hfuel : l.length ≤ i + fuel) :
    listEnd mem fuel i = l.length := by
  induction fuel generalizing i with
  | zero =>
    rw [listEnd]
    omega
  | succ fuel ih =>
    rw [listEnd]
    rcases Nat.lt_or_eq_of_le hi with hlt | rfl
    · rw [if_pos (h.cell_ne hlt)]
      exact ih hlt (by omega)
    · rw [if_neg (by simp [h.term])]

/-- The cells up to the terminator are the list. -/
theorem map_range (h : Holds mem l) : (List.range l.length).map mem = l := by
  refine List.ext_getElem (by simp) ?_
  intro i _ hi
  simpa using h.cell i hi

theorem map_range_succ (h : Holds mem l) :
    (List.range (l.length + 1)).map mem = l ++ [endList] := by
  rw [List.range_succ, List.map_append, h.map_range]
  simp [h.term]

theorem findInListFrom_eq (h : Holds mem l) (index : ℤ) {i fuel : ℕ} (hi : i ≤ l.length)
    (hfuel : l.length < i + fuel) (hnot : index ∉ l.take i) :
    findInListFrom mem index fuel i = if index ∈ l then (l.idxOf index : ℤ) else endList := by
  induction fuel generalizing i with
  | zero => omega
  | succ fuel ih =>
    rw [findInListFrom]
    rcases Nat.lt_or_eq_of_le hi with hlt | rfl
    · rw [if_pos (h.cell_ne hlt), h.cell i hlt]
      split
      next he =>
        have hmem : index ∈ l := he ▸ l.getElem_mem hlt
        rw [if_pos hmem]
        congr 1
        -- the first cell with the index is the one that is reached first
        have hle : l.idxOf index ≤ i := by
          by_contra hgt
          have hne := List.not_of_lt_findIdx (Nat.lt_of_not_le hgt)
          simp [he] at hne
        have hge : ¬ l.idxOf index < i := by
          intro hlt'
          refine hnot (List.mem_take_iff_getElem.mpr ⟨l.idxOf index, by omega, ?_⟩)
          simp
        omega
      next he =>
        refine ih hlt (by omega) ?_
        rw [List.take_succ_eq_append_getElem hlt, List.mem_append, List.mem_singleton]
        rintro (hmem | heq)
        · exact hnot hmem
        · exact he heq.symm
    · rw [if_neg (by simp [h.term])]
      rw [List.take_length] at hnot
      rw [if_neg hnot]

theorem findInList_eq (h : Holds mem l) (index : ℤ) :
    findInList mem index = if index ∈ l then (l.idxOf index : ℤ) else endList :=
  h.findInListFrom_eq index (by omega) (by have := h.lt; omega) (by simp)

end Holds

theorem shiftUp_apply (i : ℕ) : ∀ (j : ℕ) (mem : ℕ → ℤ) (k : ℕ),
    shiftUp i j mem k = if i < k ∧ k ≤ j then mem (k - 1) else mem k
  | 0, mem, k => by
    rw [shiftUp, if_neg (by omega)]
  | j + 1, mem, k => by
    rw [shiftUp]
    split
    next hij =>
      rw [shiftUp_apply i j]
      by_cases hk : k = j + 1
      · subst hk
        rw [if_neg (by omega), if_pos (by omega)]
        simp
      · -- the cells below are shifted by the rest of the loop
        rw [Function.update_of_ne hk]
        by_cases hk' : i < k ∧ k ≤ j
        · rw [if_pos hk', if_pos (by omega), Function.update_of_ne (by omega)]
        · rw [if_neg hk', if_neg (by omega)]
    next hij => rw [if_neg (by omega)]

theorem insertIdx_eq {l : List ℤ} (a : ℤ) {i : ℕ} (hi : i ≤ l.length) :
    l.insertIdx i a = l.take i ++ a :: l.drop i := by
  induction l generalizing i with
  | nil =>
    obtain rfl : i = 0 := by simpa using hi
    rfl
  | cons b l ih =>
    cases i with
    | zero => rfl
    | succ i =>
      rw [List.insertIdx_succ_cons, ih (by simpa using hi)]
      rfl

/-- What the loop over the array does, from the cell `i` on. -/
theorem holds_insertInListFrom (cmp : ℤ → ℤ → ℤ) {index : ℤ} (hindex : index ≠ endList)
    {mem : ℕ → ℤ} {l : List ℤ} (h : Holds mem l) (hl : l.length + 1 < maxListSize) {i fuel : ℕ}
    (hi : i ≤ l.length) (hfuel : l.length < i + fuel) :
    Holds (insertInListFrom cmp index fuel i mem)
      (l.take i ++ (l.drop i).orderedInsert (fun a b => cmp a b < 0) index) := by
  induction fuel generalizing i with
  | zero => omega
  | succ fuel ih =>
    rw [insertInListFrom]
    rcases Nat.lt_or_eq_of_le hi with hlt | rfl
    · rw [if_pos (h.cell_ne hlt), List.drop_eq_getElem_cons hlt, List.orderedInsert_cons,
        ← h.cell i hlt]
      split
      next =>
        -- the list from `i` on moves up by one cell
        rw [h.cell i hlt, ← List.drop_eq_getElem_cons hlt, ← insertIdx_eq index hi]
        refine ⟨?_, ?_, ?_, ?_⟩
        · intro k hk
          rw [List.length_insertIdx_of_le_length hi] at hk
          rw [h.listEnd_eq hi (by omega), List.getElem_insertIdx]
          rcases lt_trichotomy k i with hki | rfl | hki
          · rw [Function.update_of_ne (by omega), shiftUp_apply, if_neg (by omega), dif_pos hki]
            exact h.cell k (by omega)
          · simp
          · rw [Function.update_of_ne (by omega), shiftUp_apply, if_pos (by omega),
              dif_neg (by omega), dif_neg (by omega)]
            exact h.cell (k - 1) (by omega)
        · rw [List.length_insertIdx_of_le_length hi, h.listEnd_eq hi (by omega),
            Function.update_of_ne (by omega), shiftUp_apply, if_pos (by omega)]
          exact h.term
        · rw [List.mem_insertIdx hi]
          rintro (he | hmem)
          · exact hindex he.symm
          · exact h.noEnd hmem
        · rw [List.length_insertIdx_of_le_length hi]
          exact hl
      next =>
        have htake : l.take i ++ [mem i] = l.take (i + 1) := by
          rw [h.cell i hlt, List.take_succ_eq_append_getElem hlt]
        rw [List.append_cons, htake]
        exact ih hlt (by omega)
    · rw [if_neg (by simp [h.term]), List.take_length, List.drop_length, List.orderedInsert_nil]
      refine ⟨?_, ?_, ?_, ?_⟩
      · intro k hk
        rw [List.length_append, List.length_singleton] at hk
        rw [Function.update_of_ne (by omega)]
        rcases Nat.lt_or_eq_of_le (Nat.le_of_lt_succ hk) with hk | rfl
        · rw [Function.update_of_ne (by omega), List.getElem_append_left hk]
          exact h.cell k hk
        · simp
      · simp
      · simp only [List.mem_append, List.mem_singleton]
        rintro (hmem | he)
        · exact h.noEnd hmem
        · exact hindex he.symm
      · simpa using hl

/-- `insert_in_list` puts the host before the first one that is not to come before it. -/
theorem holds_insertInList (cmp : ℤ → ℤ → ℤ) {index : ℤ} (hindex : index ≠ endList)
    {mem : ℕ → ℤ} {l : List ℤ} (h : Holds mem l) (hl : l.length + 1 < maxListSize) :
    Holds (insertInList cmp mem index) (l.orderedInsert (fun a b => cmp a b < 0) index) :=
  holds_insertInListFrom cmp hindex h hl (Nat.zero_le _) (by have := h.lt; omega)

/-- Closing the gap: the cells from `i` on take the values above them, up to the
last of the list. -/
theorem shiftDown_spec (mem : ℕ → ℤ) {fuel i n : ℕ} (hi : i < n) (hfuel : n ≤ i + 1 + fuel)
    (hcell : ∀ k, i < k → k < n → mem k ≠ endList) (hterm : mem n = endList) :
    (shiftDown fuel i mem).2 = n - 1 ∧ ∀ k, k ≠ n - 1 →
      (shiftDown fuel i mem).1 k = if i ≤ k ∧ k < n - 1 then mem (k + 1) else mem k := by
  induction fuel generalizing i mem with
  | zero =>
    rw [shiftDown]
    refine ⟨by dsimp only; omega, ?_⟩
    intro k hk
    rw [if_neg (by omega)]
  | succ fuel ih =>
    rw [shiftDown]
    split
    next hne =>
      have hi' : i + 1 < n := by
        by_contra hge
        exact hne (by rw [show i + 1 = n by omega]; exact hterm)
      obtain ⟨hlast, hval⟩ := ih (Function.update mem i (mem (i + 1))) hi' (by omega)
        (fun k hk hkn => by rw [Function.update_of_ne (by omega)]; exact hcell k (by omega) hkn)
        (by rw [Function.update_of_ne (by omega)]; exact hterm)
      refine ⟨hlast, ?_⟩
      intro k hk
      rw [hval k hk]
      rcases lt_trichotomy k i with hki | rfl | hki
      · rw [if_neg (by omega), if_neg (by omega), Function.update_of_ne (by omega)]
      · rw [if_neg (by omega), if_pos (by omega), Function.update_self]
      · rw [Function.update_of_ne (by omega), Function.update_of_ne (by omega)]
        by_cases hk' : k < n - 1
        · rw [if_pos (by omega), if_pos (by omega)]
        · rw [if_neg (by omega), if_neg (by omega)]
    next hne =>
      have hn : n = i + 1 := by
        by_contra hn
        exact hcell (i + 1) (by omega) (by omega) (not_not.mp hne)
      refine ⟨by dsimp only; omega, ?_⟩
      intro k hk
      rw [if_neg (by omega)]

/-- Taking a host out of the list. -/
theorem holds_shiftDown {mem : ℕ → ℤ} {l : List ℤ} (h : Holds mem l) {i : ℕ} (hi : i < l.length) :
    (shiftDown (maxListSize - (i + 1)) i mem).2 = l.length - 1 ∧
      Holds (Function.update (shiftDown (maxListSize - (i + 1)) i mem).1 (l.length - 1) endList)
        (l.eraseIdx i) := by
  have hlt := h.lt
  obtain ⟨hlast, hval⟩ :=
    shiftDown_spec mem hi (show l.length ≤ i + 1 + (maxListSize - (i + 1)) by omega)
    (fun k _ hk => h.cell_ne hk) h.term
  refine ⟨hlast, ?_, ?_, ?_, ?_⟩
  · intro k hk
    rw [List.length_eraseIdx_of_lt hi] at hk
    rw [Function.update_of_ne (by omega), hval k (by omega), List.getElem_eraseIdx]
    by_cases hki : k < i
    · rw [if_neg (by omega), dif_pos hki]
      exact h.cell k (by omega)
    · rw [if_pos (by omega), dif_neg hki]
      exact h.cell (k + 1) (by omega)
  · rw [List.length_eraseIdx_of_lt hi, Function.update_self]
  · intro hmem
    exact h.noEnd (List.mem_of_mem_eraseIdx hmem)
  · rw [List.length_eraseIdx_of_lt hi]
    omega

/-! ### Reading and updating lists -/

variable {σ : Type} (dbm : Dbm σ)

/-- `get_dbm_entry` into `index_list`. -/
def getDbmEntry (start : ℤ) (st : StartDbs σ) : Option (StartDbs σ) :=
  (dbm.fetch st.db start).map fun entry =>
    { st with indexList := fun i => entry.getD i (st.indexList i) }

/-- `put_dbm_entry` of the first `n` cells of `index_list`. -/
def putDbmEntry (start : ℤ) (n : ℕ) (st : StartDbs σ) : Option (StartDbs σ) :=
  (dbm.store st.db start ((List.range n).map st.indexList)).map fun db => { st with db := db }

/-- `ADD_SITE` and `DELETE_SITE`. -/
inductive SiteOp
  | addSite
  | deleteSite
  deriving DecidableEq, Repr

/-- The end of `update_start_dbs`: the list is written back. -/
def putList (start : ℤ) (st : StartDbs σ) : Option (StartDbs σ) :=
  putDbmEntry dbm start (listEnd st.indexList maxListSize 0 + 1) st

/-- `update_start_dbs`; `none` is `ERROR`. -/
def updateStartDbs (cmp : ℤ → ℤ → ℤ) (start index : ℤ) (what : SiteOp) (st : StartDbs σ) :
    Option (StartDbs σ) :=
  match what, getDbmEntry dbm start st with
  | .addSite, none =>
    let mem := Function.update (Function.update st.indexList 0 index) 1 endList
    putDbmEntry dbm start 2 { st with indexList := mem }
  | .addSite, some st =>
    -- already in it?
    if findInList st.indexList index = endList then
      putList dbm start { st with indexList := insertInList cmp st.indexList index }
    else some st
  | .deleteSite, none => some st
  | .deleteSite, some st =>
    let i := findInList st.indexList index
    if i = endList then some st
    else
      let (mem, last) := shiftDown (maxListSize - (i.toNat + 1)) i.toNat st.indexList
      let mem := Function.update mem last endList
      if last = 0 then
        -- the status of `delete_dbm_entry` is not looked at
        some { indexList := mem, db := (dbm.delete st.db start).getD st.db }
      else putList dbm start { st with indexList := mem }

/-- `get_index_start_dbs`: the hosts of a start. -/
def getIndexStartDbs (start : ℤ) (st : StartDbs σ) : List ℤ :=
  match getDbmEntry dbm start st with
  | none => []
  | some st => (List.range (listEnd st.indexList maxListSize 0)).map st.indexList

/-! ### Start databases -/

variable {dbm}

/-- A list as the updates keep it: terminated, not empty, of distinct indices of
hosts, which fit a `short`. -/
structure HostList (entry l : List ℤ) : Prop where
  eq : entry = l ++ [endList]
  ne : l ≠ []
  nodup : l.Nodup
  range : ∀ h ∈ l, 0 ≤ h ∧ h < 32768

/-- A start database: every entry is such a list. -/
def StartDb (dbm : Dbm σ) (db : σ) : Prop :=
  ∀ start entry, dbm.fetch db start = some entry → ∃ l, HostList entry l

theorem HostList.length_le {entry l : List ℤ} (h : HostList entry l) : l.length ≤ 32768 := by
  have hsub : l ⊆ (List.range 32768).map ((↑) : ℕ → ℤ) := by
    intro a ha
    obtain ⟨h0, h1⟩ := h.range a ha
    exact List.mem_map.mpr ⟨a.toNat, List.mem_range.mpr (by omega), by omega⟩
  have hle := (List.Nodup.subperm h.nodup hsub).length_le
  rwa [List.length_map, List.length_range] at hle

/-- Reading an entry puts its list into the array. -/
theorem HostList.holds {entry l : List ℤ} (h : HostList entry l) (mem : ℕ → ℤ) :
    Holds (fun i => entry.getD i (mem i)) l := by
  have hlen := h.length_le
  refine ⟨?_, ?_, ?_, by unfold maxListSize; omega⟩
  · intro i hi
    rw [h.eq, List.getD_append _ _ _ _ hi, List.getD_eq_getElem _ _ hi]
  · rw [h.eq]
    simp
  · intro hmem
    have hneg := (h.range _ hmem).1
    simp [endList] at hneg

/-- The hosts of a start, read off its entry. -/
theorem getIndexStartDbs_eq {start : ℤ} {st : StartDbs σ} {entry l : List ℤ}
    (hfetch : dbm.fetch st.db start = some entry) (h : HostList entry l) :
    getIndexStartDbs dbm start st = l := by
  have hh := h.holds st.indexList
  simp only [getIndexStartDbs, getDbmEntry, hfetch, Option.map_some]
  rw [hh.listEnd_eq (by omega) (by have := hh.lt; omega)]
  exact hh.map_range

theorem getIndexStartDbs_none {start : ℤ} {st : StartDbs σ}
    (hfetch : dbm.fetch st.db start = none) :
    getIndexStartDbs dbm start st = [] := by
  simp [getIndexStartDbs, getDbmEntry, hfetch]

/-! ### The lists of a start database -/

/-- The lists of a start database.  A start without hosts has no entry. -/
structure Lists (dbm : Dbm σ) (db : σ) (lists : ℤ → List ℤ) : Prop where
  fetch : ∀ start, dbm.fetch db start = if lists start = [] then none
    else some (lists start ++ [endList])
  nodup : ∀ start, (lists start).Nodup
  range : ∀ start, ∀ h ∈ lists start, 0 ≤ h ∧ h < 32768

namespace Lists

variable {db : σ} {lists : ℤ → List ℤ}

theorem hostList (h : Lists dbm db lists) {start : ℤ} (hne : lists start ≠ []) :
    HostList (lists start ++ [endList]) (lists start) :=
  ⟨rfl, hne, h.nodup start, h.range start⟩

theorem startDb (h : Lists dbm db lists) : StartDb dbm db := by
  intro start entry hfetch
  rw [h.fetch] at hfetch
  split at hfetch
  next => simp at hfetch
  next hne =>
    obtain rfl := Option.some.inj hfetch
    exact ⟨lists start, h.hostList hne⟩

/-- `get_index_start_dbs` gives the list. -/
theorem getIndexStartDbs_eq {st : StartDbs σ} (h : Lists dbm st.db lists) (start : ℤ) :
    getIndexStartDbs dbm start st = lists start := by
  have hfetch := h.fetch start
  split at hfetch
  next hnil => rw [getIndexStartDbs_none hfetch, hnil]
  next hne => exact Archie.getIndexStartDbs_eq hfetch (h.hostList hne)

/-- Another list for one start. -/
theorem update (h : Lists dbm db lists) {db' : σ} {start : ℤ} {l : List ℤ}
    (hfetch : ∀ key, dbm.fetch db' key = if key = start then
      (if l = [] then none else some (l ++ [endList])) else dbm.fetch db key)
    (hnodup : l.Nodup) (hrange : ∀ h ∈ l, 0 ≤ h ∧ h < 32768) :
    Lists dbm db' (Function.update lists start l) where
  fetch key := by
    rw [hfetch]
    by_cases hkey : key = start
    · rw [hkey, if_pos rfl, Function.update_self]
    · rw [if_neg hkey, Function.update_of_ne hkey, h.fetch]
  nodup key := by
    by_cases hkey : key = start
    · rwa [hkey, Function.update_self]
    · rw [Function.update_of_ne hkey]
      exact h.nodup key
  range key := by
    by_cases hkey : key = start
    · rwa [hkey, Function.update_self]
    · rw [Function.update_of_ne hkey]
      exact h.range key

end Lists

/-- Any start database has lists. -/
theorem StartDb.lists {st : StartDbs σ} (hdb : StartDb dbm st.db) :
    Lists dbm st.db fun start => getIndexStartDbs dbm start st := by
  have hlist : ∀ start, (dbm.fetch st.db start = none ∧ getIndexStartDbs dbm start st = []) ∨
      ∃ l, HostList (l ++ [endList]) l ∧ dbm.fetch st.db start = some (l ++ [endList]) ∧
        getIndexStartDbs dbm start st = l := by
    intro start
    cases hfetch : dbm.fetch st.db start with
    | none => exact Or.inl ⟨rfl, getIndexStartDbs_none hfetch⟩
    | some entry =>
      obtain ⟨l, hl⟩ := hdb start entry hfetch
      have heq := hl.eq
      subst heq
      exact Or.inr ⟨l, hl, rfl, getIndexStartDbs_eq hfetch hl⟩
  constructor
  · intro start
    rcases hlist start with ⟨hfetch, hnil⟩ | ⟨l, hl, hfetch, heq⟩
    · rw [hnil, if_pos rfl, hfetch]
    · rw [heq, if_neg hl.ne, hfetch]
  · intro start
    rcases hlist start with ⟨-, hnil⟩ | ⟨l, hl, -, heq⟩
    · rw [hnil]
      exact List.nodup_nil
    · rw [heq]
      exact hl.nodup
  · intro start
    rcases hlist start with ⟨-, hnil⟩ | ⟨l, hl, -, heq⟩
    · rw [hnil]
      simp
    · rw [heq]
      exact hl.range

/-! ### Updates -/

/-- What an update does to the list of its start. -/
def SiteOp.apply (cmp : ℤ → ℤ → ℤ) (index : ℤ) : SiteOp → List ℤ → List ℤ
  | .addSite, l => if index ∈ l then l else l.orderedInsert (fun a b => cmp a b < 0) index
  | .deleteSite, l => l.erase index

theorem SiteOp.mem_apply (cmp : ℤ → ℤ → ℤ) {index : ℤ} (what : SiteOp) {l : List ℤ} (hl : l.Nodup)
    (h : ℤ) :
    h ∈ what.apply cmp index l ↔ if h = index then what = .addSite else h ∈ l := by
  cases what with
  | addSite =>
    rw [SiteOp.apply]
    split
    next hmem =>
      split
      next heq => simp [heq, hmem]
      next => rfl
    next =>
      rw [List.mem_orderedInsert]
      by_cases heq : h = index <;> simp [heq]
  | deleteSite =>
    rw [SiteOp.apply, hl.mem_erase_iff]
    by_cases heq : h = index <;> simp [heq]

theorem SiteOp.nodup_apply (cmp : ℤ → ℤ → ℤ) (index : ℤ) (what : SiteOp) {l : List ℤ}
    (hl : l.Nodup) :
    (what.apply cmp index l).Nodup := by
  cases what with
  | addSite =>
    rw [SiteOp.apply]
    split
    next => exact hl
    next hmem =>
      exact (List.perm_orderedInsert _ index l).nodup_iff.mpr (List.nodup_cons.mpr ⟨hmem, hl⟩)
  | deleteSite => exact hl.erase index

theorem putDbmEntry_some {st st' : StartDbs σ} {start : ℤ} {n : ℕ}
    (h : putDbmEntry dbm start n st = some st') :
    dbm.store st.db start ((List.range n).map st.indexList) = some st'.db := by
  obtain ⟨db', hdb', rfl⟩ := Option.map_eq_some_iff.mp h
  exact hdb'

/-- Writing the array back stores the list that it holds. -/
theorem putList_some {st st' : StartDbs σ} {start : ℤ} {l : List ℤ} (hl : Holds st.indexList l)
    (h : putList dbm start st = some st') :
    dbm.store st.db start (l ++ [endList]) = some st'.db := by
  have hlt := hl.lt
  have hstore := putDbmEntry_some h
  rwa [hl.listEnd_eq (by omega) (by omega), hl.map_range_succ] at hstore

section

variable {cmp : ℤ → ℤ → ℤ} {start index : ℤ} {st st' : StartDbs σ} {lists : ℤ → List ℤ}

/-- Reading the list of a start into the array. -/
theorem Lists.getDbmEntry_eq (h : Lists dbm st.db lists) (start : ℤ) :
    (lists start = [] ∧ getDbmEntry dbm start st = none) ∨
      ∃ mem, Holds mem (lists start) ∧ lists start ≠ [] ∧
        getDbmEntry dbm start st = some { st with indexList := mem } := by
  rw [getDbmEntry, h.fetch]
  split
  next hnil => exact Or.inl ⟨hnil, rfl⟩
  next hne => exact Or.inr ⟨_, (h.hostList hne).holds st.indexList, hne, rfl⟩

theorem Lists.length_le (h : Lists dbm st.db lists) (start : ℤ) : (lists start).length ≤ 32768 := by
  by_cases hnil : lists start = []
  · simp [hnil]
  · exact (h.hostList hnil).length_le

theorem ne_endList (hindex : 0 ≤ index ∧ index < 32768) : index ≠ endList := by
  rw [endList]
  omega

/-- A list that is stored replaces the one of its start. -/
theorem Lists.store (h : Lists dbm st.db lists) (hindex : 0 ≤ index ∧ index < 32768) (what : SiteOp)
    (hne : what.apply cmp index (lists start) ≠ [])
    (hstore : dbm.store st.db start (what.apply cmp index (lists start) ++ [endList]) =
      some st'.db) :
    Lists dbm st'.db (Function.update lists start (what.apply cmp index (lists start))) := by
  have hnodup := h.nodup start
  refine h.update (fun key => ?_) (what.nodup_apply cmp index hnodup) fun k hk => ?_
  · rw [dbm.fetch_store hstore, if_neg hne]
  · rw [what.mem_apply cmp hnodup] at hk
    split at hk
    next heq => exact heq ▸ hindex
    next => exact h.range start k hk

theorem updateStartDbs_addSite (h : Lists dbm st.db lists) (hindex : 0 ≤ index ∧ index < 32768)
    (hupdate : updateStartDbs dbm cmp start index .addSite st = some st') :
    Lists dbm st'.db (Function.update lists start
      (SiteOp.addSite.apply cmp index (lists start))) := by
  unfold updateStartDbs at hupdate
  rcases h.getDbmEntry_eq start with ⟨hnil, hget⟩ | ⟨mem, hmem, hne, hget⟩
  · -- the first host of this start
    rw [hget] at hupdate
    have hstore := putDbmEntry_some hupdate
    have hone : SiteOp.addSite.apply cmp index (lists start) =
        [index] := by simp [SiteOp.apply, hnil]
    refine h.store hindex .addSite (by rw [hone]; simp) ?_
    rw [hone]
    simpa [List.range_succ] using hstore
  · rw [hget] at hupdate
    dsimp only at hupdate
    rw [hmem.findInList_eq] at hupdate
    by_cases hin : index ∈ lists start
    · -- already in it
      rw [if_pos hin, if_neg (by rw [endList]; omega)] at hupdate
      rw [← Option.some.inj hupdate, SiteOp.apply, if_pos hin, Function.update_eq_self]
      exact h
    · have hlen := h.length_le start
      rw [if_neg hin, if_pos rfl] at hupdate
      have hholds := holds_insertInList cmp (ne_endList hindex) hmem (by rw [maxListSize]; omega)
      have hstore := putList_some hholds hupdate
      have hinsert : SiteOp.addSite.apply cmp index (lists start) =
          (lists start).orderedInsert
            (fun a b => cmp a b < 0) index := by rw [SiteOp.apply, if_neg hin]
      refine h.store hindex .addSite ?_ (by rw [hinsert]; exact hstore)
      intro hnil
      have hmem' : index ∈ SiteOp.addSite.apply cmp index (lists start) :=
        (SiteOp.addSite.mem_apply cmp (h.nodup start) index).mpr (by simp)
      rw [hnil] at hmem'
      exact absurd hmem' List.not_mem_nil

theorem updateStartDbs_deleteSite (h : Lists dbm st.db lists) (hindex : 0 ≤ index ∧ index < 32768)
    (hupdate : updateStartDbs dbm cmp start index .deleteSite st = some st') :
    Lists dbm st'.db (Function.update lists start
      (SiteOp.deleteSite.apply cmp index (lists start))) := by
  have hsame : index ∉ lists start →
      Function.update lists start (SiteOp.deleteSite.apply cmp index (lists start)) = lists := by
    intro hin
    rw [SiteOp.apply, List.erase_of_not_mem hin, Function.update_eq_self]
  unfold updateStartDbs at hupdate
  rcases h.getDbmEntry_eq start with ⟨hnil, hget⟩ | ⟨mem, hmem, hne, hget⟩
  · rw [hget] at hupdate
    rw [← Option.some.inj hupdate, hsame (by simp [hnil])]
    exact h
  · rw [hget] at hupdate
    dsimp only at hupdate
    rw [hmem.findInList_eq] at hupdate
    by_cases hin : index ∈ lists start
    · have hidx : (lists start).idxOf index < (lists start).length :=
        List.idxOf_lt_length_of_mem hin
      obtain ⟨hlast, hholds⟩ := holds_shiftDown hmem hidx
      rw [List.eraseIdx_idxOf_eq_erase] at hholds
      rw [if_pos hin, if_neg (by rw [endList]; omega)] at hupdate
      simp only [Int.toNat_natCast, hlast] at hupdate
      have hlen := List.length_erase_of_mem hin
      split at hupdate
      next hone =>
        -- the only host of the list: the entry goes
        have hentry : dbm.fetch st.db start = some (lists start ++ [endList]) := by
          rw [h.fetch, if_neg hne]
        obtain ⟨db', hdelete, hfetch⟩ := dbm.delete_present hentry
        rw [hdelete, Option.getD_some] at hupdate
        have hnil : SiteOp.deleteSite.apply cmp index (lists start) = [] := by
          rw [SiteOp.apply, ← List.length_eq_zero_iff, hlen]
          exact hone
        rw [← Option.some.inj hupdate, hnil]
        exact h.update (by simpa using hfetch) List.nodup_nil (by simp)
      next hmore =>
        have hstore := putList_some hholds hupdate
        refine h.store hindex .deleteSite ?_ hstore
        intro hnil
        rw [SiteOp.apply] at hnil
        rw [hnil, List.length_nil] at hlen
        omega
    · rw [if_neg hin, if_pos rfl] at hupdate
      rw [← Option.some.inj hupdate, hsame hin]
      exact h

/-- **One update of the start database** replaces the list of its start. -/
theorem updateStartDbs_lists (h : Lists dbm st.db lists) (hindex : 0 ≤ index ∧ index < 32768)
    {what : SiteOp} (hupdate : updateStartDbs dbm cmp start index what st = some st') :
    Lists dbm st'.db (Function.update lists start (what.apply cmp index (lists start))) := by
  cases what with
  | addSite => exact updateStartDbs_addSite h hindex hupdate
  | deleteSite => exact updateStartDbs_deleteSite h hindex hupdate

/-- What an update does to the memberships: only that of the host in the list
of the start may change. -/
def Updated (dbm : Dbm σ) (start index : ℤ) (member : Prop) (st st' : StartDbs σ) : Prop :=
  StartDb dbm st'.db ∧ ∀ s h, h ∈ getIndexStartDbs dbm s st' ↔
    if s = start ∧ h = index then member else h ∈ getIndexStartDbs dbm s st

/-- An update adds the host to the list of the start, or takes it out of it; every
other membership stays. -/
theorem updateStartDbs_spec {what : SiteOp} (hdb : StartDb dbm st.db)
    (hindex : 0 ≤ index ∧ index < 32768)
    (hupdate : updateStartDbs dbm cmp start index what st = some st') :
    Updated dbm start index (what = .addSite) st st' := by
  have hlists := hdb.lists
  have hlists' := updateStartDbs_lists hlists hindex hupdate
  refine ⟨hlists'.startDb, ?_⟩
  intro s h
  rw [hlists'.getIndexStartDbs_eq]
  by_cases hs : s = start
  · rw [hs, Function.update_self, what.mem_apply cmp (hlists.nodup start)]
    simp only [true_and]
  · rw [Function.update_of_ne hs, if_neg (fun hc => hs hc.1)]

end

end Archie
