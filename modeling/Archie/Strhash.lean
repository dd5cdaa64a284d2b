/-
The hash table of output functions (`ppc/lib/strhash.c`).

The table uses linear probing.  `insert` never counts the element that it adds, so the test that
is to keep one element free only ever sees the count of the empty table.

* `newHashTable`, `tableIndex`, `insert`, `getValue` — the functions.
* `idealReplies` — what a table that keeps one element free would answer.
* `tableIndex_of_full` — for an absent key, no search of a full table ends.
* `insert_of_not_mem`, `getValue_eq` — the answers of the table, until it is full.
* `strhash_right_iff` — exactly when all answers are right.
-/
import Archie.CText
import Archie.Probe
import Mathlib.Data.Finset.Card
import Mathlib.Data.List.Nodup

namespace Archie.Strhash

open OpenAddressing

/-! ### The functions -/

/-- The characters of a key, before its NUL. -/
abbrev Key := List UInt8

/-- `struct hash_elt`; a null key means that the element is not in use. -/
structure HashElt (ν : Type) where
  key : Option Key
  val : Option ν

/-- `struct hash_table`. -/
structure HashTable (ν : Type) where
  nelts : ℕ
  nused : ℕ
  helts : List (HashElt ν)

variable {ν : Type}

/-- `table_full`. -/
def tableFull (htab : HashTable ν) : Bool := (htab.nused : ℤ) == htab.nelts - 1

/-- `hval`. -/
def hval (str : Key) (tabsz : ℕ) : ℕ :=
  str.foldl (fun h p => (h * 33 + p.toNat) % wordSize) 0 % tabsz

/-- The loop of `table_index`; none, if it goes on. -/
def tableIndexLoop (key : Key) (htab : HashTable ν) : ℕ → ℕ → Option ℕ
  | 0, _ => none
  | fuel + 1, h => do
    let e ← htab.helts[h]?
    if e.key.isSome ∧ e.key ≠ some key then
      tableIndexLoop key htab fuel ((h + 1) % htab.nelts)
    else some h

/-- `table_index`. -/
def tableIndex (fuel : ℕ) (key : Key) (htab : HashTable ν) : Option ℤ := do
  let h ← tableIndexLoop key htab fuel (hval key htab.nelts)
  let e ← htab.helts[h]?
  if e.key.isNone && tableFull htab then some (-1) else some h

/-- `insert`. -/
def insert (fuel : ℕ) (key : Key) (val : Option ν) (htab : HashTable ν) :
    Option (ℕ × HashTable ν) := do
  let h ← tableIndex fuel key htab
  if h = -1 then some (0, htab)
  else
    let e ← htab.helts[h.toNat]?
    if e.key.isSome then some (0, htab)
    else some (1, { htab with helts := htab.helts.set h.toNat ⟨some key, val⟩ })

/-- `get_value`. -/
def getValue (fuel : ℕ) (key : Key) (htab : HashTable ν) : Option (Option ν) := do
  let h ← tableIndex fuel key htab
  if h = -1 then some none
  else
    let e ← htab.helts[h.toNat]?
    some e.val

/-- `sizeof (struct hash_elt)`. -/
def sizeofHashElt : ℕ := 8

/-- `new_hash_table`, when memory can be allocated; none, if it writes beyond what it has
allocated.  The number of bytes is kept in an `int`. -/
def newHashTable (tabelts : ℤ) : Option (Option (HashTable ν)) :=
  if tabelts ≤ 0 then some none
  else if tabelts.toNat &&& (tabelts.toNat - 1) ≠ 0 then some none
  else
    let n := sint (ulong (tabelts * sizeofHashElt))
    if (ulong n : ℤ) < tabelts * sizeofHashElt then none
    else some (some ⟨tabelts.toNat, 0, List.replicate tabelts.toNat ⟨none, none⟩⟩)

/-! ### Sequences of calls -/

/-- A call of one of the two functions. -/
inductive Call (ν : Type)
  | insert (key : Key) (val : Option ν)
  | getValue (key : Key)

/-- What a call returns. -/
inductive Reply (ν : Type)
  | inserted (r : ℕ)
  | value (val : Option ν)

/-- One call. -/
def call (fuel : ℕ) : Call ν → HashTable ν → Option (Reply ν × HashTable ν)
  | .insert key val, htab => (insert fuel key val htab).map fun r => (.inserted r.1, r.2)
  | .getValue key, htab => (getValue fuel key htab).map fun v => (.value v, htab)

/-- The answers to a sequence of calls; none, if one of them does not return. -/
def replies (fuel : ℕ) : List (Call ν) → HashTable ν → Option (List (Reply ν))
  | [], _ => some []
  | c :: calls, htab => do
    let (r, htab) ← call fuel c htab
    let rs ← replies fuel calls htab
    some (r :: rs)

/-- The answers of a table with `n` elements of which one stays free, which holds `items`. -/
def idealReplies (n : ℕ) : List (Call ν) → List (Key × Option ν) → List (Reply ν)
  | [], _ => []
  | .insert key val :: calls, items =>
    if key ∉ items.map Prod.fst ∧ items.length < n - 1 then
      .inserted 1 :: idealReplies n calls ((key, val) :: items)
    else .inserted 0 :: idealReplies n calls items
  | .getValue key :: calls, items =>
    .value ((items.lookup key).getD none) :: idealReplies n calls items

/-- The keys that are asked to be inserted. -/
def insertKeys : List (Call ν) → List Key
  | [] => []
  | .insert key _ :: calls => key :: insertKeys calls
  | .getValue _ :: calls => insertKeys calls

/-- **The claim about the table**: it is made, every call returns, and the answers are right. -/
def TableRight (n : ℕ) (calls : List (Call ν)) : Prop :=
  ∃ htab : HashTable ν, newHashTable n = some (some htab) ∧
    ∃ fuel, replies fuel calls htab = some (idealReplies n calls [])

/-! ### More fuel -/

theorem tableIndexLoop_mono {key : Key} {htab : HashTable ν} {f f' h r : ℕ} (hf : f ≤ f')
    (hr : tableIndexLoop key htab f h = some r) : tableIndexLoop key htab f' h = some r := by
  induction f generalizing f' h with
  | zero => cases hr
  | succ f ih =>
    obtain ⟨f', rfl⟩ : ∃ g, f' = g + 1 := ⟨f' - 1, by omega⟩
    rw [tableIndexLoop] at hr ⊢
    obtain ⟨e, he, hrest⟩ := Option.bind_eq_some_iff.mp hr
    rw [he]
    show (if e.key.isSome ∧ e.key ≠ some key then _ else _) = _
    by_cases hgo : e.key.isSome ∧ e.key ≠ some key
    · rw [if_pos hgo] at hrest ⊢
      exact ih (by omega) hrest
    · rw [if_neg hgo] at hrest ⊢
      exact hrest

theorem tableIndex_mono {key : Key} {htab : HashTable ν} {f f' : ℕ} (hf : f ≤ f') {i : ℤ}
    (hi : tableIndex f key htab = some i) : tableIndex f' key htab = some i := by
  obtain ⟨h, hh, hrest⟩ := Option.bind_eq_some_iff.mp hi
  exact Option.bind_eq_some_iff.mpr ⟨h, tableIndexLoop_mono hf hh, hrest⟩

/-- A call that returns does so with more fuel as well. -/
theorem call_mono {c : Call ν} {htab : HashTable ν} {f f' : ℕ} (hf : f ≤ f')
    {r : Reply ν × HashTable ν} (hr : call f c htab = some r) : call f' c htab = some r := by
  cases c with
  | insert key val =>
    obtain ⟨a, ha, rfl⟩ := Option.map_eq_some_iff.mp hr
    obtain ⟨i, hi, hrest⟩ := Option.bind_eq_some_iff.mp ha
    have h : insert f' key val htab = some a :=
      Option.bind_eq_some_iff.mpr ⟨i, tableIndex_mono hf hi, hrest⟩
    rw [call, h, Option.map_some]
  | getValue key =>
    obtain ⟨a, ha, rfl⟩ := Option.map_eq_some_iff.mp hr
    obtain ⟨i, hi, hrest⟩ := Option.bind_eq_some_iff.mp ha
    have h : getValue f' key htab = some a :=
      Option.bind_eq_some_iff.mpr ⟨i, tableIndex_mono hf hi, hrest⟩
    rw [call, h, Option.map_some]

/-! ### The table and its items -/

/-- The element as a slot of a table. -/
def HashElt.entry (e : HashElt ν) : Option (Key × Option ν) := e.key.map (·, e.val)

/-- The table without its counters. -/
def HashTable.view (htab : HashTable ν) : List (Option (Key × Option ν)) :=
  htab.helts.map HashElt.entry

@[simp] theorem length_view (htab : HashTable ν) : htab.view.length = htab.helts.length :=
  List.length_map _

theorem slot_view {htab : HashTable ν} {h : ℕ} {e : HashElt ν} (he : htab.helts[h]? = some e) :
    slot htab.view h = e.entry := by
  rw [slot, HashTable.view, List.getD_eq_getElem?_getD, List.getElem?_map, he]
  rfl

/-- The loop of the source is the probe of the abstract table, with steps of 1. -/
theorem tableIndexLoop_eq {htab : HashTable ν} (hlen : htab.helts.length = htab.nelts)
    (hpos : 0 < htab.nelts) (key : Key) (fuel : ℕ) {h : ℕ} (hh : h < htab.nelts) :
    tableIndexLoop key htab fuel h = probe htab.view key 1 fuel h := by
  induction fuel generalizing h with
  | zero => rfl
  | succ fuel ih =>
    obtain ⟨e, he⟩ : ∃ e, htab.helts[h]? = some e :=
      ⟨_, List.getElem?_eq_getElem (hlen ▸ hh)⟩
    rw [tableIndexLoop, he, probe, stops, slot_view he, length_view, hlen,
      ← ih (Nat.mod_lt _ hpos), HashElt.entry]
    show (if e.key.isSome ∧ e.key ≠ some key then _ else _) = _
    rcases e with ⟨_ | k, v⟩
    · simp
    · by_cases hk : k = key
      · simp [hk]
      · simp [hk]

/-- The table has `n` elements, has never counted one, and holds these items. -/
structure Holds (htab : HashTable ν) (n : ℕ) (items : List (Key × Option ν)) : Prop where
  nelts : htab.nelts = n
  nused : htab.nused = 0
  length : htab.helts.length = n
  unused : ∀ e ∈ htab.helts, e.key = none → e.val = none
  sound : Sound htab.view (hval · n) fun _ => 1
  perm : (entries htab.view).Perm items

/-! ### What a call does -/

theorem hval_lt {n : ℕ} (hn : 0 < n) (key : Key) : hval key n < n := Nat.mod_lt _ hn

section Holds

variable {htab : HashTable ν} {n : ℕ} {items : List (Key × Option ν)} {key : Key}

theorem Holds.nodup_items (hh : Holds htab n items) : (items.map Prod.fst).Nodup :=
  (hh.perm.map Prod.fst).nodup_iff.mp hh.sound.nodup

theorem Holds.mem_keys_iff (hh : Holds htab n items) :
    key ∈ (entries htab.view).map Prod.fst ↔ key ∈ items.map Prod.fst :=
  (hh.perm.map Prod.fst).mem_iff

theorem Holds.tableFull_eq (hh : Holds htab n items) (hn : 2 ≤ n) : tableFull htab = false := by
  rw [tableFull, hh.nused, hh.nelts]
  exact beq_eq_false_iff_ne.mpr (by omega)

/-- A search ends, if an element is free or the key is there. -/
theorem Holds.exists_index (hh : Holds htab n items) (hn : 0 < n)
    (hstop : items.length < n ∨ key ∈ items.map Prod.fst) :
    ∃ r e, htab.helts[r]? = some e ∧ tableIndexLoop key htab n (hval key htab.nelts) = some r ∧
      probe htab.view key 1 htab.view.length (hval key n) = some r := by
  have hlen : htab.view.length = n := (length_view htab).trans hh.length
  have hstart : hval key n < htab.view.length := by
    rw [hlen]
    exact hval_lt hn key
  obtain ⟨f, hf, hfstop⟩ : ∃ f < htab.view.length, stops htab.view key f = true := by
    rcases hstop with hlt | hmem
    · obtain ⟨f, hf, hnone⟩ := exists_slot_eq_none (t := htab.view) (by
        rw [hh.perm.length_eq, hlen]
        exact hlt)
      exact ⟨f, hf, stops_iff.mpr (Or.inl hnone)⟩
    · obtain ⟨⟨_, v⟩, hv, rfl⟩ := List.mem_map.mp hmem
      obtain ⟨f, hf, hslot⟩ := mem_entries_iff.mp (hh.perm.mem_iff.mpr hv)
      exact ⟨f, hf, stops_iff.mpr (Or.inr ⟨v, hslot⟩)⟩
  obtain ⟨r, hr⟩ := exists_probe (k := key) hstart (Nat.coprime_one_left _) hf hfstop
  have hrlt : r < htab.helts.length := by
    obtain ⟨j, -, rfl, -⟩ := (probe_eq_some_iff hstart).mp hr
    exact length_view htab ▸ position_lt (by omega) _ _ _
  refine ⟨r, _, List.getElem?_eq_getElem hrlt, ?_, hr⟩
  rw [tableIndexLoop_eq (hh.length.trans hh.nelts.symm) (hh.nelts ▸ hn) key n
    (hval_lt (hh.nelts ▸ hn) key), hh.nelts, ← hr, hlen]

/-- A key that is there is found. -/
theorem Holds.tableIndex_of_mem (hh : Holds htab n items) (hn : 0 < n) {v : Option ν}
    (hmem : (key, v) ∈ items) :
    ∃ r : ℕ, tableIndex n key htab = some (r : ℤ) ∧ htab.helts[r]? = some ⟨some key, v⟩ := by
  obtain ⟨r, e, he, hloop, hprobe⟩ :=
    hh.exists_index hn (Or.inr (List.mem_map_of_mem hmem))
  have hlen : htab.view.length = n := (length_view htab).trans hh.length
  have hslot := hh.sound.probe_of_mem (by rw [hlen]; exact hval_lt hn key)
    (hh.perm.mem_iff.mpr hmem) hprobe
  rw [slot_view he, HashElt.entry, Option.map_eq_some_iff] at hslot
  obtain ⟨k, hkey, hk⟩ := hslot
  obtain ⟨rfl, rfl⟩ := Prod.mk.inj hk
  have helt : e = ⟨some k, e.val⟩ := by rw [← hkey]
  rw [helt] at he
  refine ⟨r, ?_, he⟩
  simp [tableIndex, hloop, he]

/-- A search for another key ends at a free element, if there is one. -/
theorem Holds.tableIndex_of_not_mem (hh : Holds htab n items) (hn : 2 ≤ n)
    (hmem : key ∉ items.map Prod.fst) (hlt : items.length < n) :
    ∃ r : ℕ, tableIndex n key htab = some (r : ℤ) ∧ htab.helts[r]? = some ⟨none, none⟩ ∧
      probe htab.view key 1 htab.view.length (hval key n) = some r := by
  obtain ⟨r, e, he, hloop, hprobe⟩ := hh.exists_index (by omega) (Or.inl hlt)
  have hlen : htab.view.length = n := (length_view htab).trans hh.length
  obtain ⟨-, hslot⟩ := probe_of_not_mem (by rw [hlen]; exact hval_lt (by omega) key)
    (fun h => hmem (hh.mem_keys_iff.mp h)) hprobe
  rw [slot_view he, HashElt.entry, Option.map_eq_none_iff] at hslot
  obtain rfl : e = ⟨none, none⟩ := by
    rw [← hslot, ← hh.unused e (List.mem_of_getElem? he) hslot]
  refine ⟨r, ?_, he, hprobe⟩
  simp [tableIndex, hloop, he, hh.tableFull_eq hn]

/-- The value of a key is the one it was inserted with. -/
theorem Holds.lookup_eq (hh : Holds htab n items) {v : Option ν} (hmem : (key, v) ∈ items) :
    items.lookup key = some v := by
  obtain ⟨l, r, rfl, hl⟩ : ∃ l r, items = l ++ (key, v) :: r ∧ key ∉ l.map Prod.fst := by
    obtain ⟨l, r, rfl⟩ := List.append_of_mem hmem
    have hnodup := hh.nodup_items
    rw [List.map_append, List.map_cons, List.nodup_middle, List.nodup_cons, List.mem_append]
      at hnodup
    exact ⟨l, r, rfl, fun h => hnodup.1 (Or.inl h)⟩
  rw [List.lookup_append, List.lookup_eq_none_iff.mpr, Option.none_or, List.lookup_cons_self]
  intro p hp
  exact bne_iff_ne.mpr fun h => hl (h ▸ List.mem_map_of_mem hp)

theorem Holds.insert_of_mem (hh : Holds htab n items) (hn : 0 < n) (val : Option ν)
    (hmem : key ∈ items.map Prod.fst) : insert n key val htab = some (0, htab) := by
  obtain ⟨⟨_, v⟩, hv, rfl⟩ := List.mem_map.mp hmem
  obtain ⟨r, hr, he⟩ := hh.tableIndex_of_mem hn hv
  simp [insert, hr, he]

/-- **A new key** is inserted, also when this fills the table. -/
theorem Holds.insert_of_not_mem (hh : Holds htab n items) (hn : 2 ≤ n) (val : Option ν)
    (hmem : key ∉ items.map Prod.fst) (hlt : items.length < n) :
    ∃ htab', insert n key val htab = some (1, htab') ∧ Holds htab' n ((key, val) :: items) := by
  obtain ⟨r, hr, he, hprobe⟩ := hh.tableIndex_of_not_mem hn hmem hlt
  have hlen : htab.view.length = n := (length_view htab).trans hh.length
  have hstart : hval key n < htab.view.length := by
    rw [hlen]
    exact hval_lt (by omega) key
  have hmem' : key ∉ (entries htab.view).map Prod.fst := fun h => hmem (hh.mem_keys_iff.mp h)
  obtain ⟨hrlt, hnone⟩ := probe_of_not_mem hstart hmem' hprobe
  have hview : (htab.helts.set r ⟨some key, val⟩).map HashElt.entry =
      htab.view.set r (some (key, val)) := List.map_set
  refine ⟨{ htab with helts := htab.helts.set r ⟨some key, val⟩ }, by simp [insert, hr, he], ?_⟩
  exact {
    nelts := hh.nelts
    nused := hh.nused
    length := List.length_set.trans hh.length
    unused := by
      intro e hmem hkey
      rcases List.mem_or_eq_of_mem_set hmem with h | rfl
      · exact hh.unused e h hkey
      · cases hkey
    sound := by
      show Sound (List.map HashElt.entry _) _ _
      rw [hview]
      exact hh.sound.set hstart hmem' hprobe
    perm := by
      show (entries (List.map HashElt.entry _)).Perm _
      rw [hview]
      exact (entries_set_perm hrlt hnone _).trans (hh.perm.cons _) }

/-- **A search for a value** ends, if an element is free or the key is there. -/
theorem Holds.getValue_eq (hh : Holds htab n items) (hn : 2 ≤ n)
    (hstop : items.length < n ∨ key ∈ items.map Prod.fst) :
    getValue n key htab = some ((items.lookup key).getD none) := by
  by_cases hmem : key ∈ items.map Prod.fst
  · obtain ⟨⟨_, v⟩, hv, rfl⟩ := List.mem_map.mp hmem
    obtain ⟨r, hr, he⟩ := hh.tableIndex_of_mem (by omega) hv
    rw [hh.lookup_eq hv]
    simp [getValue, hr, he]
  · obtain ⟨r, hr, he, -⟩ := hh.tableIndex_of_not_mem hn hmem (hstop.resolve_right hmem)
    have hlookup : items.lookup key = none := by
      refine List.lookup_eq_none_iff.mpr fun p hp => ?_
      exact bne_iff_ne.mpr fun h => hmem (h ▸ List.mem_map_of_mem hp)
    rw [hlookup]
    simp [getValue, hr, he]

/-- **A full table**: no search for an absent key ends. -/
theorem Holds.tableIndex_of_full (hh : Holds htab n items) (hn : 0 < n)
    (hfull : items.length = n) (hmem : key ∉ items.map Prod.fst) (fuel : ℕ) :
    tableIndex fuel key htab = none := by
  have hlen : htab.view.length = n := (length_view htab).trans hh.length
  have hnone : tableIndexLoop key htab fuel (hval key htab.nelts) = none := by
    refine Option.eq_none_iff_forall_ne_some.mpr fun r hr => ?_
    rw [tableIndexLoop_eq (hh.length.trans hh.nelts.symm) (hh.nelts ▸ hn) key fuel
      (hval_lt (hh.nelts ▸ hn) key)] at hr
    have hstart : hval key htab.nelts < htab.view.length := by
      rw [hlen, hh.nelts]
      exact hval_lt hn key
    obtain ⟨j, -, hj, hstop, -⟩ := (probe_eq_some_iff hstart).mp hr
    rcases stops_iff.mp hstop with hfree | ⟨v, hv⟩
    · -- All elements are in use.
      have hlt : (entries htab.view).length < htab.view.length :=
        List.reduceOption_length_lt_iff.mpr (by
          have hrlt : r < htab.view.length := hj ▸ position_lt (by omega) _ _ _
          rw [slot, List.getD_eq_getElem _ _ hrlt] at hfree
          exact hfree ▸ List.getElem_mem hrlt)
      rw [hh.perm.length_eq, hlen, hfull] at hlt
      exact Nat.lt_irrefl n hlt
    · have hrlt : r < htab.view.length := hj ▸ position_lt (by omega) _ _ _
      have hin := List.mem_map_of_mem (f := Prod.fst) (mem_entries_iff.mpr ⟨r, hrlt, hv⟩)
      exact hmem (hh.mem_keys_iff.mp hin)
  rw [tableIndex, hnone]
  rfl

end Holds

/-! ### Sequences of calls -/

theorem replies_mono {calls : List (Call ν)} {htab : HashTable ν} {f f' : ℕ} (hf : f ≤ f')
    {rs : List (Reply ν)} (hrs : replies f calls htab = some rs) :
    replies f' calls htab = some rs := by
  induction calls generalizing htab rs with
  | nil => exact hrs
  | cons c calls ih =>
    obtain ⟨⟨r, htab'⟩, hr, hrest⟩ := Option.bind_eq_some_iff.mp hrs
    obtain ⟨rs', hrs', hcons⟩ := Option.bind_eq_some_iff.mp hrest
    exact Option.bind_eq_some_iff.mpr ⟨_, call_mono hf hr,
      Option.bind_eq_some_iff.mpr ⟨rs', ih hrs', hcons⟩⟩

/-- The first call and the others. -/
theorem replies_cons_iff {c : Call ν} {calls : List (Call ν)} {htab htab' : HashTable ν} {f : ℕ}
    {r r' : Reply ν} {rs : List (Reply ν)} (hr : call f c htab = some (r, htab')) :
    (∃ fuel, replies fuel (c :: calls) htab = some (r' :: rs)) ↔
      r = r' ∧ ∃ fuel, replies fuel calls htab' = some rs := by
  constructor
  · rintro ⟨fuel, h⟩
    obtain ⟨a, ha, hrest⟩ := Option.bind_eq_some_iff.mp h
    have hsame : a = (r, htab') := Option.some.inj
      ((call_mono (Nat.le_max_left fuel f) ha).symm.trans
        (call_mono (Nat.le_max_right fuel f) hr))
    subst hsame
    obtain ⟨rs', hrs', hcons⟩ := Option.bind_eq_some_iff.mp hrest
    obtain ⟨rfl, rfl⟩ := List.cons.inj (Option.some.inj hcons)
    exact ⟨rfl, fuel, hrs'⟩
  · rintro ⟨rfl, fuel, h⟩
    refine ⟨max fuel f, Option.bind_eq_some_iff.mpr ⟨_, call_mono (Nat.le_max_right _ _) hr, ?_⟩⟩
    exact Option.bind_eq_some_iff.mpr ⟨rs, replies_mono (Nat.le_max_left _ _) h, rfl⟩

section Run

variable {n : ℕ} {calls : List (Call ν)}

/-- **The answers from a table that is not full** are right, until as many keys are asked for as
there are elements. -/
theorem replies_iff {htab : HashTable ν} {items : List (Key × Option ν)} (hn : 2 ≤ n)
    (hh : Holds htab n items) (hlt : items.length < n) :
    (∃ fuel, replies fuel calls htab = some (idealReplies n calls items)) ↔
      (items.map Prod.fst ++ insertKeys calls).toFinset.card < n := by
  induction calls generalizing htab items with
  | nil =>
    refine iff_of_true ⟨0, rfl⟩ ?_
    rw [insertKeys, List.append_nil, List.toFinset_card_of_nodup hh.nodup_items, List.length_map]
    exact hlt
  | cons c calls ih =>
    cases c with
    | insert key val =>
      by_cases hmem : key ∈ items.map Prod.fst
      · have hcall : call n (.insert key val) htab = some (.inserted 0, htab) := by
          rw [call, hh.insert_of_mem (by omega) val hmem, Option.map_some]
        rw [idealReplies, if_neg (fun h => h.1 hmem), replies_cons_iff hcall, ih hh hlt, insertKeys]
        have hkeys : (items.map Prod.fst ++ key :: insertKeys calls).toFinset =
            (items.map Prod.fst ++ insertKeys calls).toFinset := by
          ext k
          simp only [List.mem_toFinset, List.mem_append, List.mem_cons]
          constructor
          · rintro (h | rfl | h)
            · exact Or.inl h
            · exact Or.inl hmem
            · exact Or.inr h
          · rintro (h | h)
            · exact Or.inl h
            · exact Or.inr (Or.inr h)
        rw [hkeys]
        exact and_iff_right rfl
      · obtain ⟨htab', hinsert, hh'⟩ := hh.insert_of_not_mem hn val hmem hlt
        have hcall : call n (.insert key val) htab = some (.inserted 1, htab') := by
          rw [call, hinsert, Option.map_some]
        have hkeys : (items.map Prod.fst ++ key :: insertKeys calls).toFinset =
            (((key, val) :: items).map Prod.fst ++ insertKeys calls).toFinset := by
          ext k
          simp only [List.mem_toFinset, List.mem_append, List.mem_cons, List.map_cons]
          tauto
        rw [idealReplies, insertKeys, hkeys]
        by_cases hroom : items.length < n - 1
        · rw [if_pos ⟨hmem, hroom⟩, replies_cons_iff hcall, ih hh' (by simp; omega)]
          exact and_iff_right rfl
        · -- The table is filled, and the ideal one refuses the key.
          rw [if_neg (fun h => hroom h.2), replies_cons_iff hcall]
          refine iff_of_false (fun h => absurd h.1 (by simp)) (Nat.not_lt.mpr ?_)
          have hnodup := hh'.nodup_items
          calc n ≤ (((key, val) :: items).map Prod.fst).length := by simp; omega
            _ = (((key, val) :: items).map Prod.fst).toFinset.card :=
              (List.toFinset_card_of_nodup hnodup).symm
            _ ≤ _ := Finset.card_le_card fun k hk => by
              rw [List.mem_toFinset] at hk ⊢
              exact List.mem_append_left _ hk
    | getValue key =>
      have hcall : call n (.getValue key) htab =
          some (.value ((items.lookup key).getD none), htab) := by
        rw [call, hh.getValue_eq hn (Or.inl hlt), Option.map_some]
      rw [idealReplies, insertKeys, replies_cons_iff hcall, ih hh hlt]
      exact and_iff_right rfl

/-- The table that `new_hash_table` makes. -/
def emptyTable (n : ℕ) : HashTable ν := ⟨n, 0, List.replicate n ⟨none, none⟩⟩

theorem holds_emptyTable (n : ℕ) : Holds (emptyTable n : HashTable ν) n [] where
  nelts := rfl
  nused := rfl
  length := List.length_replicate
  unused := by
    intro e he _
    rw [List.eq_of_mem_replicate he]
  sound := by
    have hview : (emptyTable n : HashTable ν).view = List.replicate n none := List.map_replicate
    rw [hview]
    exact Sound.replicate n
  perm := by
    have hview : (emptyTable n : HashTable ν).view = List.replicate n none := List.map_replicate
    rw [hview, entries, List.reduceOption_replicate_none]

/-- A table of one element answers all calls as one that has no room. -/
theorem replies_one : replies 1 calls (emptyTable 1) = some (idealReplies 1 calls []) := by
  have hindex : ∀ key, tableIndex 1 key (emptyTable 1 : HashTable ν) = some (-1) := by
    intro key
    have hzero : hval key 1 = 0 := Nat.mod_one _
    simp [tableIndex, tableIndexLoop, emptyTable, hzero, tableFull]
  induction calls with
  | nil => rfl
  | cons c calls ih =>
    cases c with
    | insert key val => simp [replies, call, insert, hindex, ih, idealReplies]
    | getValue key => simp [replies, call, getValue, hindex, ih, idealReplies]

theorem newHashTable_eq {k : ℕ} (hk : k < 31) :
    newHashTable (2 ^ k : ℕ) =
      if 8 * 2 ^ k < wordSize then some (some (emptyTable (2 ^ k) : HashTable ν)) else none := by
  have hpos : 0 < 2 ^ k := Nat.two_pow_pos k
  have hpow : 2 ^ k &&& (2 ^ k - 1) = 0 := by rw [Nat.and_two_pow_sub_one_eq_mod, Nat.mod_self]
  have hle : 2 ^ k ≤ 2 ^ 30 := Nat.pow_le_pow_right (by omega) (by omega)
  have hbytes : ulong (sint (ulong ((2 ^ k : ℕ) * sizeofHashElt))) = 8 * 2 ^ k % wordSize := by
    rw [sizeofHashElt]
    generalize 2 ^ k = n at *
    unfold ulong sint wordSize
    split <;> omega
  rw [newHashTable, if_neg (by omega), Int.toNat_natCast, hpow, if_neg (by simp)]
  show (if (ulong (sint _) : ℤ) < _ then _ else _) = _
  rw [hbytes, sizeofHashElt]
  by_cases hfit : 8 * 2 ^ k < wordSize
  · rw [if_pos hfit, Nat.mod_eq_of_lt hfit, if_neg (by push_cast; omega)]
    rfl
  · rw [if_neg hfit, if_pos]
    have hmod := Nat.mod_lt (8 * 2 ^ k) (show 0 < wordSize by decide)
    omega

/-- **The table**: it is right as long as it can be made, and no more keys are asked for than it
is to hold. -/
theorem strhash_right_iff {k : ℕ} (hk : k < 31) (calls : List (Call ν)) :
    TableRight (2 ^ k) calls ↔
      8 * 2 ^ k < wordSize ∧ (2 ^ k = 1 ∨ (insertKeys calls).toFinset.card < 2 ^ k) := by
  rw [TableRight, newHashTable_eq hk]
  by_cases hfit : 8 * 2 ^ k < wordSize
  · rw [if_pos hfit, and_iff_right hfit]
    have hmade : (∃ htab : HashTable ν, some (some (emptyTable (2 ^ k))) = some (some htab) ∧
        ∃ fuel, replies fuel calls htab = some (idealReplies (2 ^ k) calls [])) ↔
        ∃ fuel, replies fuel calls (emptyTable (2 ^ k)) = some (idealReplies (2 ^ k) calls []) := by
      constructor
      · rintro ⟨htab, hhtab, h⟩
        obtain rfl := Option.some.inj (Option.some.inj hhtab)
        exact h
      · intro h
        exact ⟨_, rfl, h⟩
    rw [hmade]
    rcases Nat.eq_zero_or_pos k with rfl | hpos
    · exact iff_of_true ⟨1, replies_one⟩ (Or.inl rfl)
    · have hn : 2 ≤ 2 ^ k := Nat.pow_le_pow_right (show 0 < 2 by decide) hpos
      rw [replies_iff hn (holds_emptyTable _) (show 0 < 2 ^ k by omega), List.map_nil,
        List.nil_append]
      exact ⟨Or.inr, fun h => h.resolve_left (by omega)⟩
  · rw [if_neg hfit]
    refine iff_of_false ?_ fun h => hfit h.1
    rintro ⟨htab, h, -⟩
    cases h

end Run

/-- A table of four elements holds three keys. -/
theorem strhash_right_sample :
    TableRight (2 ^ 2) [Call.insert [97] (some 1), .insert [98] (some 2), .insert [97] (some 3),
      .insert [101] none, .getValue [101], .getValue [98], .getValue [99]] :=
  (strhash_right_iff (by decide) _).mpr ⟨by decide, Or.inr (by decide +kernel)⟩

/-- The second key fills a table of two elements. -/
theorem not_strhash_right :
    ¬ ∀ (k : ℕ) (calls : List (Call ℕ)), k < 31 → TableRight (2 ^ k) calls := by
  intro h
  obtain ⟨htab, hmade, hright⟩ :=
    h 1 [.insert [97] (some 1), .insert [98] (some 2)] (by decide)
  obtain rfl : emptyTable 2 = htab :=
    Option.some.inj (Option.some.inj ((newHashTable_eq (show 1 < 31 by decide)).symm.trans hmade))
  have hfew := (replies_iff (Nat.le_refl 2) (holds_emptyTable 2) (show 0 < 2 by decide)).mp hright
  exact absurd hfew (by decide +kernel)

end Archie.Strhash
