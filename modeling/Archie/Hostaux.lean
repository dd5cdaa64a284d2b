/-
The auxiliary host database (`hostdb/ops.c`, `hostdb/host_info.c`): a list of
entries for each host and database of it, kept under the names `host.database.index`.

The length of a list is not stored: `find_hostaux_last` looks for the first
index without an entry.

* `findHostauxLast_of_stored` — that is the last index, while there are no gaps.
* `updateHostaux_append`, `updateHostaux_replace`, `deleteHostauxEntry_stored` — what an
  update and a deletion do to the list.
* `deleteHostauxEnt_stored` — deleting all of a list leaves its last entry.
* `hostaux_follows_iff` — so the database follows the lists as long as only empty ones
  are deleted.
-/
import Mathlib.Logic.Function.Basic
import Archie.CText

namespace Archie

/-! ### dbm entries -/

/-- `status_t`. -/
inductive Status
  | aOk
  | error
  deriving DecidableEq, Repr

/-- The database: what is stored under a name. -/
abbrev AuxDb (α : Type) := List UInt8 → Option α

variable {α : Type}

/-- `get_dbm_entry`. -/
def AuxDb.getDbmEntry (key : List UInt8) (db : AuxDb α) : Option α := db key

/-- `put_dbm_entry`.  Without `replace`, an entry that is there stays. -/
def AuxDb.putDbmEntry (key : List UInt8) (data : α) (db : AuxDb α) (replace : Bool) :
    Status × AuxDb α :=
  if replace = false ∧ (db key).isSome then (.error, db)
  else (.aOk, Function.update db key (some data))

/-- `delete_dbm_entry`. -/
def AuxDb.deleteDbmEntry (key : List UInt8) (db : AuxDb α) : Status × AuxDb α :=
  if (db key).isSome then (.aOk, Function.update db key none) else (.error, db)

/-! ### The functions over the lists -/

/-- `hostaux_index_t`. -/
structure HostauxIndex where
  accessMethods : List UInt8
  hostauxIndex : ℤ

/-- `host_status_t`, as far as `update_hostaux` returns it. -/
inductive HostStatus
  | hostOk
  | hostError
  | hostAccessUpdateFail
  deriving DecidableEq, Repr

/-- `sprintf(aux_name, "%s.%s.%d", hostname, dbname, (int) index)`. -/
def auxName (hostname dbname : List UInt8) (index : ℤ) : List UInt8 :=
  hostname ++ 46 :: (dbname ++ 46 :: printSInt (sint (ulong index)))

/-- The loop of `find_hostaux_last`.  `none` where it does not end: after
`wordSize` rounds the names come again. -/
def findHostauxLastFrom (hostname dbname : List UInt8) (hostaux : AuxDb α) : ℕ → ℤ → Option ℤ
  | 0, _ => none
  | fuel + 1, i =>
    match AuxDb.getDbmEntry (auxName hostname dbname i) hostaux with
    | none => some (i - 1)
    | some _ => findHostauxLastFrom hostname dbname hostaux fuel (i + 1)

/-- `find_hostaux_last`. -/
def findHostauxLast (hostname dbname : List UInt8) (hostaux : AuxDb α) : Option ℤ :=
  findHostauxLastFrom hostname dbname hostaux wordSize 0

/-- `update_hostaux`: the status, the database and the index of the record. -/
def updateHostaux (hostaux : AuxDb α) (hostname : List UInt8) (origin : Option HostauxIndex)
    (hostauxRec : α) (replace : Bool) : Option (HostStatus × AuxDb α × Option HostauxIndex) :=
  if hostname = [] then some (.hostError, hostaux, origin)
  else
    match origin with
    | none => some (.hostAccessUpdateFail, hostaux, origin)
    | some origin => do
      let index ← if origin.hostauxIndex = -1 then
          (findHostauxLast hostname origin.accessMethods hostaux).map (· + 1)
        else some origin.hostauxIndex
      let entry : HostauxIndex := { origin with hostauxIndex := index }
      match AuxDb.putDbmEntry
        (auxName hostname entry.accessMethods index) hostauxRec hostaux replace with
      | (.error, hostaux) => some (.hostAccessUpdateFail, hostaux, some entry)
      | (.aOk, hostaux) => some (.hostOk, hostaux, some entry)

/-- The loop of `delete_hostaux_entry`: `n` entries from `i` on come one place down. -/
def shiftEntries (hostname dbname : List UInt8) : ℕ → ℤ → AuxDb α → Status × AuxDb α
  | 0, _, hostaux => (.aOk, hostaux)
  | n + 1, i, hostaux =>
    match AuxDb.getDbmEntry (auxName hostname dbname (i + 1)) hostaux with
    | none => (.error, hostaux)
    | some hostauxRec =>
      match AuxDb.putDbmEntry (auxName hostname dbname i) hostauxRec hostaux true with
      | (.error, hostaux) => (.error, hostaux)
      | (.aOk, hostaux) => shiftEntries hostname dbname n (i + 1) hostaux

/-- `delete_hostaux_entry`. -/
def deleteHostauxEntry (hostname : List UInt8) (origin : HostauxIndex) (hostaux : AuxDb α) :
    Option (Status × AuxDb α) := do
  let index ← findHostauxLast hostname origin.accessMethods hostaux
  match AuxDb.deleteDbmEntry
    (auxName hostname origin.accessMethods origin.hostauxIndex) hostaux with
  | (.error, hostaux) => some (.error, hostaux)
  | (.aOk, hostaux) =>
    match shiftEntries hostname origin.accessMethods (index - origin.hostauxIndex).toNat
      origin.hostauxIndex hostaux with
    | (.error, hostaux) => some (.error, hostaux)
    | (.aOk, hostaux) =>
      if origin.hostauxIndex ≠ index then
        some (AuxDb.deleteDbmEntry (auxName hostname origin.accessMethods index) hostaux)
      else some (.aOk, hostaux)

/-- The loop of `delete_hostaux_ent`: `n` entries from `i` on. -/
def deleteEntries (hostname dbname : List UInt8) : ℕ → ℤ → AuxDb α → Status × AuxDb α
  | 0, _, hostaux => (.aOk, hostaux)
  | n + 1, i, hostaux =>
    match AuxDb.deleteDbmEntry (auxName hostname dbname i) hostaux with
    | (.error, hostaux) => (.error, hostaux)
    | (.aOk, hostaux) => deleteEntries hostname dbname n (i + 1) hostaux

/-- `delete_hostaux_ent`.  The index of the last entry is taken as the number of entries. -/
def deleteHostauxEnt (hostname dbname : List UInt8) (hostaux : AuxDb α) :
    Option (Status × AuxDb α) := do
  let index ← findHostauxLast hostname dbname hostaux
  some (deleteEntries hostname dbname index.toNat 0 hostaux)

/-! ### What a database stands for -/

/-- A host and one of its databases, with the names that the lists are kept under. -/
structure AuxList where
  hostname : List UInt8
  dbname : List UInt8
  hostSet : hostname ≠ []
  noDot : 46 ∉ dbname
  deriving DecidableEq

/-- The name of an entry, whatever its index. -/
def AuxList.name (p : AuxList) (i : ℤ) : List UInt8 :=
  p.hostname ++ 46 :: (p.dbname ++ 46 :: printSInt i)

/-- The text before the last dot is no longer than that before any other one. -/
theorem append_dot_left {s s' t t' : List UInt8} (ht : 46 ∉ t)
    (h : s ++ 46 :: t = s' ++ 46 :: t') {r : List UInt8} (hr : s' = s ++ r) : r = [] := by
  subst hr
  rw [List.append_assoc, List.append_cancel_left_eq] at h
  cases r with
  | nil => rfl
  | cons c r =>
    rw [(List.cons.inj h).2] at ht
    exact absurd (List.mem_append_right r List.mem_cons_self) ht

/-- A text is split at its last dot in one way only. -/
theorem append_dot_inj {s s' t t' : List UInt8} (ht : 46 ∉ t) (ht' : 46 ∉ t') :
    s ++ 46 :: t = s' ++ 46 :: t' ↔ s = s' ∧ t = t' := by
  constructor
  · intro h
    have hs : s = s' := by
      obtain ⟨r, hr, -⟩ | ⟨r, hr, -⟩ := List.append_eq_append_iff.mp h
      · rw [hr, append_dot_left ht h hr, List.append_nil]
      · rw [hr, append_dot_left ht' h.symm hr, List.append_nil]
    subst hs
    exact ⟨rfl, (List.cons.inj (List.append_cancel_left h)).2⟩
  · rintro ⟨rfl, rfl⟩
    rfl

theorem not_dot_printSInt (i : ℤ) : 46 ∉ printSInt i := by
  intro h
  rcases mem_printSInt h with h | h
  · exact absurd h (by decide)
  · exact absurd h (by decide)

/-- No two entries have the same name. -/
@[simp] theorem AuxList.name_inj {p q : AuxList} {i j : ℤ} : p.name i = q.name j ↔ p = q ∧
  i = j := by
  have hassoc : ∀ (p : AuxList) i,
      p.name i = (p.hostname ++ 46 :: p.dbname) ++ 46 :: printSInt i := by
    intro p i
    rw [AuxList.name, List.append_assoc, List.cons_append]
  rw [hassoc, hassoc, append_dot_inj (not_dot_printSInt i) (not_dot_printSInt j),
    append_dot_inj p.noDot q.noDot]
  constructor
  · rintro ⟨⟨hhost, hdb⟩, hindex⟩
    refine ⟨?_, printSInt_injective hindex⟩
    cases p
    cases q
    simp_all
  · rintro ⟨rfl, rfl⟩
    exact ⟨⟨rfl, rfl⟩, rfl⟩

theorem AuxList.auxName_eq (p : AuxList) {i : ℤ} (hi : IsInt i) :
    auxName p.hostname p.dbname i = p.name i := by
  rw [auxName, sint_ulong hi, AuxList.name]

/-- The lists that a database stands for: the indices of the entries of a list of
`n` are just `0`, …, `n - 1`. -/
def StoredAux (hostaux : AuxDb α) (lists : AuxList → List α) : Prop :=
  ∀ p i, hostaux (p.name i) = if 0 ≤ i then (lists p)[i.toNat]? else none

/-! ### What the functions do to the lists -/

section

variable {hostaux : AuxDb α} {lists : AuxList → List α} {p : AuxList}

/-- The name that is looked for is that of the entry, also at the first index that
`int` does not have: there is no entry under the number that is printed instead. -/
theorem StoredAux.auxName_eq (h : StoredAux hostaux lists) (hlen : (lists p).length ≤ 2147483648)
    {i : ℕ}
    (hi : i ≤ 2147483648) : hostaux (auxName p.hostname p.dbname i) = (lists p)[i]? := by
  rcases Nat.lt_or_eq_of_le hi with hlt | rfl
  · rw [p.auxName_eq ⟨by omega, by omega⟩, h, if_pos (by omega), Int.toNat_natCast]
  · have hname : auxName p.hostname p.dbname (2147483648 : ℕ) = p.name (-2147483648) := rfl
    rw [hname, h, if_neg (by omega), List.getElem?_eq_none hlen]

theorem StoredAux.findHostauxLastFrom_eq (h : StoredAux hostaux lists)
    (hlen : (lists p).length ≤ 2147483648) {fuel i : ℕ} (hi : i ≤ (lists p).length)
    (hfuel : (lists p).length < i + fuel) :
    findHostauxLastFrom p.hostname p.dbname hostaux fuel i = some (((lists p).length : ℤ) - 1) := by
  induction fuel generalizing i with
  | zero => omega
  | succ fuel ih =>
    rw [findHostauxLastFrom, AuxDb.getDbmEntry, h.auxName_eq hlen (by omega)]
    rcases Nat.lt_or_eq_of_le hi with hlt | rfl
    · rw [List.getElem?_eq_getElem hlt]
      exact ih (i := i + 1) hlt (by omega)
    · rw [List.getElem?_eq_none le_rfl]

/-- Without gaps, `find_hostaux_last` finds the last entry. -/
theorem findHostauxLast_of_stored (h : StoredAux hostaux lists)
    (hlen : (lists p).length ≤ 2147483648) :
    findHostauxLast p.hostname p.dbname hostaux = some (((lists p).length : ℤ) - 1) := by
  refine h.findHostauxLastFrom_eq hlen (Nat.zero_le _) ?_
  rw [wordSize]
  omega

/-- An entry appended goes under the index after the last. -/
theorem updateHostaux_append (h : StoredAux hostaux lists) (hlen : (lists p).length ≤ 2147483648)
    (hostauxRec : α) (replace : Bool) :
    updateHostaux hostaux p.hostname (some ⟨p.dbname, -1⟩) hostauxRec replace =
      some (.hostOk, Function.update hostaux (auxName p.hostname p.dbname (lists p).length)
        (some hostauxRec), some ⟨p.dbname, (lists p).length⟩) := by
  have hfree : hostaux (auxName p.hostname p.dbname (lists p).length) = none := by
    rw [h.auxName_eq hlen hlen, List.getElem?_eq_none le_rfl]
  rw [updateHostaux, if_neg p.hostSet]
  simp only [if_pos, findHostauxLast_of_stored h hlen, Option.map_some, Option.bind_eq_bind,
    Option.bind_some, AuxDb.putDbmEntry, Int.sub_add_cancel, hfree, Option.isSome_none,
    Bool.false_eq_true, and_false, if_false]

/-- An entry replaced stays under its index. -/
theorem updateHostaux_replace (k : ℕ) (hk : k < 2147483648) (hostauxRec : α) :
    updateHostaux hostaux p.hostname (some ⟨p.dbname, k⟩) hostauxRec true =
      some (.hostOk, Function.update hostaux (p.name k) (some hostauxRec), some ⟨p.dbname, k⟩) := by
  have hne : ¬ (k : ℤ) = -1 := by omega
  rw [updateHostaux, if_neg p.hostSet]
  simp only [if_neg hne, Option.bind_eq_bind, Option.bind_some, AuxDb.putDbmEntry,
    Bool.true_eq_false,
    false_and, if_false, p.auxName_eq (i := k) ⟨by omega, by omega⟩]

/-- Entries that are there come one place down. -/
theorem shiftEntries_eq {n : ℕ} {i : ℤ} (hi : 0 ≤ i) (hn : i + n < 2147483648) (hostaux : AuxDb α)
    (hthere : ∀ j, i < j → j ≤ i + n → (hostaux (p.name j)).isSome) :
    ∃ hostaux', shiftEntries p.hostname p.dbname n i hostaux = (.aOk, hostaux') ∧
      ∀ q j, hostaux' (q.name j) =
        if q = p ∧ i ≤ j ∧ j < i + n then hostaux (q.name (j + 1)) else hostaux (q.name j) := by
  induction n generalizing i hostaux with
  | zero =>
    refine ⟨hostaux, rfl, fun q j => ?_⟩
    rw [if_neg (by omega)]
  | succ n ih =>
    obtain ⟨v, hv⟩ := Option.isSome_iff_exists.mp (hthere (i + 1) (by omega) (by omega))
    -- The entry after `i` is put at `i`, and the rest of the loop leaves that place alone.
    obtain ⟨hostaux', hrun, hafter⟩ := ih (by omega) (by omega)
      (Function.update hostaux (p.name i) (some v)) (i := i + 1) (by
        intro j hj hjn
        rw [Function.update_of_ne (by simp; omega)]
        exact hthere j (by omega) (by omega))
    refine ⟨hostaux', ?_, fun q j => ?_⟩
    · rw [shiftEntries, AuxDb.getDbmEntry, p.auxName_eq ⟨by omega, by omega⟩, hv]
      simpa [AuxDb.putDbmEntry, p.auxName_eq (i := i) ⟨by omega, by omega⟩] using hrun
    · rw [hafter]
      simp only [Function.update_apply, AuxList.name_inj]
      by_cases hq : q = p
      · subst hq
        rcases lt_trichotomy j i with hj | rfl | hj
        · rw [if_neg (by omega), if_neg (by omega), if_neg (by omega)]
        · rw [if_neg (by omega), if_pos ⟨rfl, rfl⟩, if_pos ⟨rfl, by omega, by omega⟩, hv]
        · have h1 : ¬ (q = q ∧ j + 1 = i) := by omega
          have h2 : ¬ (q = q ∧ j = i) := by omega
          rw [if_neg h1, if_neg h2]
          refine if_congr ?_ rfl rfl
          constructor <;> rintro ⟨-, h3, h4⟩ <;> exact ⟨rfl, by omega, by omega⟩
      · simp [hq]

/-- Entries that are there are deleted. -/
theorem deleteEntries_eq {n : ℕ} {i : ℤ} (hi : 0 ≤ i) (hn : i + n ≤ 2147483648) (hostaux : AuxDb α)
    (hthere : ∀ j, i ≤ j → j < i + n → (hostaux (p.name j)).isSome) :
    ∃ hostaux', deleteEntries p.hostname p.dbname n i hostaux = (.aOk, hostaux') ∧
      ∀ q j, hostaux' (q.name j) = if q = p ∧ i ≤ j ∧ j < i + n then none
        else hostaux (q.name j) := by
  induction n generalizing i hostaux with
  | zero =>
    refine ⟨hostaux, rfl, fun q j => ?_⟩
    rw [if_neg (by omega)]
  | succ n ih =>
    obtain ⟨hostaux', hrun, hafter⟩ := ih (by omega) (by omega)
      (Function.update hostaux (p.name i) none) (i := i + 1) (by
        intro j hj hjn
        rw [Function.update_of_ne (by simp; omega)]
        exact hthere j (by omega) (by omega))
    refine ⟨hostaux', ?_, fun q j => ?_⟩
    · rw [deleteEntries, AuxDb.deleteDbmEntry, p.auxName_eq ⟨by omega, by omega⟩,
        if_pos (hthere i le_rfl (by omega))]
      exact hrun
    · rw [hafter]
      simp only [Function.update_apply, AuxList.name_inj]
      by_cases hq : q = p
      · subst hq
        by_cases hj : j = i
        · subst hj
          rw [if_neg (by omega), if_pos ⟨rfl, rfl⟩, if_pos ⟨rfl, by omega, by omega⟩]
        · rw [if_neg (show ¬ (q = q ∧ j = i) from fun h => hj h.2)]
          refine if_congr ?_ rfl rfl
          constructor <;> rintro ⟨-, h3, h4⟩ <;> exact ⟨rfl, by omega, by omega⟩
      · simp [hq]

/-- The last index, and the entries up to it. -/
theorem StoredAux.isSome_iff (h : StoredAux hostaux lists) (j : ℤ) :
    (hostaux (p.name j)).isSome ↔ 0 ≤ j ∧ j < (lists p).length := by
  rw [h]
  by_cases hj : 0 ≤ j
  · rw [if_pos hj, isSome_getElem?]
    omega
  · rw [if_neg hj]
    simp [hj]

/-- What is stored after the list of `p` has changed. -/
theorem storedAux_update (h : StoredAux hostaux lists) {hostaux' : AuxDb α} {l : List α}
    (hother : ∀ q j, q ≠ p → hostaux' (q.name j) = hostaux (q.name j))
    (hlist : ∀ j, hostaux' (p.name j) = if 0 ≤ j then l[j.toNat]? else none) :
    StoredAux hostaux' (Function.update lists p l) := by
  intro q j
  by_cases hq : q = p
  · subst hq
    rw [Function.update_self]
    exact hlist j
  · rw [Function.update_of_ne hq, hother q j hq]
    exact h q j

/-- **A deleted entry**: the later ones come one place down. -/
theorem deleteHostauxEntry_stored (h : StoredAux hostaux lists)
    (hlen : (lists p).length ≤ 2147483648)
    {k : ℕ} (hk : k < (lists p).length) :
    ∃ hostaux', deleteHostauxEntry p.hostname ⟨p.dbname, k⟩ hostaux = some (.aOk, hostaux') ∧
      StoredAux hostaux' (Function.update lists p ((lists p).eraseIdx k)) := by
  have hname : ∀ {i : ℤ}, 0 ≤ i → i < 2147483648 → auxName p.hostname p.dbname i = p.name i :=
    fun h0 h1 => p.auxName_eq ⟨by omega, h1⟩
  obtain ⟨n, hn⟩ : ∃ n, (lists p).length = k + n + 1 := ⟨(lists p).length - k - 1, by omega⟩
  -- The entry goes, then those after it move over it.
  obtain ⟨shifted, hshift, hafter⟩ :=
    shiftEntries_eq (p := p) (n := n) (i := k) (by omega) (by omega)
    (Function.update hostaux (p.name k) none) (by
      intro j hj hjn
      rw [Function.update_of_ne (by simp; omega), h.isSome_iff]
      omega)
  have hdelete : AuxDb.deleteDbmEntry (auxName p.hostname p.dbname k) hostaux =
      (.aOk, Function.update hostaux (p.name k) none) := by
    rw [AuxDb.deleteDbmEntry,
      hname (by omega) (by omega), if_pos (h.isSome_iff _ |>.mpr (by omega))]
  have hrun : deleteHostauxEntry p.hostname ⟨p.dbname, k⟩ hostaux =
      if (k : ℤ) ≠ (lists p).length - 1 then
        some (AuxDb.deleteDbmEntry (p.name ((lists p).length - 1)) shifted)
      else some (.aOk, shifted) := by
    have hcount : ((lists p).length - 1 - k : ℤ).toNat = n := by omega
    simp only [deleteHostauxEntry, findHostauxLast_of_stored h hlen, Option.bind_eq_bind,
      Option.bind_some,
      hdelete, hcount, hshift, hname (i := (lists p).length - 1) (by omega) (by omega)]
  -- The last name is free in the end, whether or not it is the one deleted first.
  obtain ⟨hostaux', hlast, hfinal⟩ : ∃ hostaux',
      deleteHostauxEntry p.hostname ⟨p.dbname, k⟩ hostaux = some (.aOk, hostaux') ∧
        ∀ q (j : ℤ), hostaux' (q.name j) = if q = p ∧ j = k + n then none
          else shifted (q.name j) := by
    rw [hrun]
    by_cases h0 : n = 0
    · refine ⟨shifted, if_neg (by omega), fun q j => ?_⟩
      by_cases hq : q = p ∧ j = k + n
      · rw [if_pos hq, hafter, if_neg (by omega), Function.update_apply, if_pos (by simp [hq, h0])]
      · rw [if_neg hq]
    · have hthere : (shifted (p.name ((lists p).length - 1))).isSome := by
        rw [hafter, if_neg (by omega), Function.update_of_ne (by simp; omega), h.isSome_iff]
        omega
      refine ⟨Function.update shifted (p.name ((lists p).length - 1)) none, ?_, fun q j => ?_⟩
      · rw [if_pos (by omega), AuxDb.deleteDbmEntry, if_pos hthere]
      · rw [Function.update_apply]
        refine if_congr (AuxList.name_inj.trans (and_congr_right fun _ => ?_)) rfl rfl
        omega
  refine ⟨hostaux', hlast, storedAux_update h ?_ ?_⟩
  · intro q j hq
    rw [hfinal, if_neg (fun h => hq h.1), hafter, if_neg (fun h => hq h.1),
      Function.update_of_ne (by simp [hq])]
  · intro j
    rw [hfinal, hafter]
    simp only [true_and, Function.update_apply, AuxList.name_inj]
    by_cases hj : 0 ≤ j
    · obtain ⟨i, rfl⟩ := Int.eq_ofNat_of_zero_le hj
      rw [if_pos hj, Int.toNat_natCast, List.getElem?_eraseIdx]
      rcases lt_trichotomy i (k + n) with hi | rfl | hi
      · rw [if_neg (by omega)]
        by_cases hik : i < k
        · rw [if_neg (by omega), if_neg (by omega), if_pos hik, h, if_pos hj, Int.toNat_natCast]
        · rw [if_pos (by omega), if_neg (by omega), if_neg hik, h, if_pos (by omega)]
          rfl
      · rw [if_pos (by omega), if_neg (by omega), List.getElem?_eq_none (by omega)]
      · rw [if_neg (by omega), if_neg (by omega), if_neg (by omega), h, if_pos hj, if_neg (by omega),
          Int.toNat_natCast, List.getElem?_eq_none (by omega), List.getElem?_eq_none (by omega)]
    · rw [if_neg (by omega), if_neg (by omega), if_neg (by omega), h, if_neg hj, if_neg hj]

/-- **A deleted list** keeps its last entry: the loop of `delete_hostaux_ent` ends before it. -/
theorem deleteHostauxEnt_stored (h : StoredAux hostaux lists)
    (hlen : (lists p).length ≤ 2147483648) :
    ∃ hostaux', deleteHostauxEnt p.hostname p.dbname hostaux = some (.aOk, hostaux') ∧
      (∀ q j, q ≠ p → hostaux' (q.name j) = hostaux (q.name j)) ∧
      ∀ j, hostaux' (p.name j) = if j = (lists p).length - 1 then (lists p).getLast? else none := by
  obtain ⟨hostaux', hrun, hafter⟩ :=
    deleteEntries_eq (p := p) (n := ((lists p).length - 1 : ℤ).toNat)
    (i := 0) le_rfl (by omega) hostaux (by
      intro j hj hjn
      rw [h.isSome_iff]
      omega)
  refine ⟨hostaux', ?_, ?_, fun j => ?_⟩
  · rw [deleteHostauxEnt, findHostauxLast_of_stored h hlen]
    exact congrArg some hrun
  · intro q j hq
    rw [hafter, if_neg (fun h => hq h.1)]
  · rw [hafter]
    by_cases hj : j = (lists p).length - 1
    · rw [if_pos hj, if_neg (by omega), h, List.getLast?_eq_getElem?]
      by_cases h0 : 0 ≤ j
      · rw [if_pos h0]
        congr 1
        omega
      · rw [if_neg h0, List.getElem?_eq_none (by omega)]
    · rw [if_neg hj]
      by_cases hin : 0 ≤ j ∧ j < (lists p).length
      · rw [if_pos ⟨rfl, hin.1, by omega⟩]
      · rw [if_neg (by omega)]
        exact Option.not_isSome_iff_eq_none.mp fun hs => hin ((h.isSome_iff j).mp hs)

end

/-! ### Runs -/

/-- A call that changes the database. -/
inductive AuxOp (α : Type)
  | append (p : AuxList) (hostauxRec : α) (replace : Bool)
  | replaceAt (p : AuxList) (k : ℕ) (hostauxRec : α)
  | deleteEntry (p : AuxList) (k : ℕ)
  | deleteEnt (p : AuxList)

/-- What a call leaves, if it returns without an error. -/
def AuxOp.run : AuxOp α → AuxDb α → Option (AuxDb α)
  | .append p hostauxRec replace, hostaux =>
    match updateHostaux hostaux p.hostname (some ⟨p.dbname, -1⟩) hostauxRec replace with
    | some (.hostOk, hostaux, _) => some hostaux
    | _ => none
  | .replaceAt p k hostauxRec, hostaux =>
    match updateHostaux hostaux p.hostname (some ⟨p.dbname, k⟩) hostauxRec true with
    | some (.hostOk, hostaux, _) => some hostaux
    | _ => none
  | .deleteEntry p k, hostaux =>
    match deleteHostauxEntry p.hostname ⟨p.dbname, k⟩ hostaux with
    | some (.aOk, hostaux) => some hostaux
    | _ => none
  | .deleteEnt p, hostaux =>
    match deleteHostauxEnt p.hostname p.dbname hostaux with
    | some (.aOk, hostaux) => some hostaux
    | _ => none

/-- What a call means for the lists. -/
def AuxOp.onLists : AuxOp α → (AuxList → List α) → AuxList → List α
  | .append p hostauxRec _, lists => Function.update lists p (lists p ++ [hostauxRec])
  | .replaceAt p k hostauxRec, lists => Function.update lists p ((lists p).set k hostauxRec)
  | .deleteEntry p k, lists => Function.update lists p ((lists p).eraseIdx k)
  | .deleteEnt p, lists => Function.update lists p []

/-- The index that a call names is there. -/
def AuxOp.Exists (lists : AuxList → List α) : AuxOp α → Prop
  | .replaceAt p k _ => k < (lists p).length
  | .deleteEntry p k => k < (lists p).length
  | _ => True

/-- Only an empty list is deleted, and none is appended to that has an entry for
every index of an `int`. -/
def AuxOp.Ok (lists : AuxList → List α) : AuxOp α → Prop
  | .append p _ _ => (lists p).length < 2147483648
  | .deleteEnt p => lists p = []
  | _ => True

/-- The indices that the calls name are there when their turn comes. -/
def IndicesExist : (AuxList → List α) → List (AuxOp α) → Prop
  | _, [] => True
  | lists, op :: ops => op.Exists lists ∧ IndicesExist (op.onLists lists) ops

/-- All calls are of the kind that the functions are made for. -/
def AuxOpsOk : (AuxList → List α) → List (AuxOp α) → Prop
  | _, [] => True
  | lists, op :: ops => op.Ok lists ∧ AuxOpsOk (op.onLists lists) ops

/-- All calls return, and the database stands for the lists before and after each. -/
def Follows : AuxDb α → (AuxList → List α) → List (AuxOp α) → Prop
  | hostaux, lists, [] => StoredAux hostaux lists
  | hostaux, lists, op :: ops =>
    StoredAux hostaux lists ∧ ∃ hostaux', op.run hostaux = some hostaux' ∧
      Follows hostaux' (op.onLists lists) ops

section

variable {hostaux : AuxDb α} {lists : AuxList → List α}

theorem Follows.stored {ops : List (AuxOp α)} (h : Follows hostaux lists ops) :
    StoredAux hostaux lists := by
  cases ops with
  | nil => exact h
  | cons op ops => exact h.1

/-- **One call** returns, and does to the database what it means for the lists just
when it is of the right kind. -/
theorem AuxOp.run_spec (h : StoredAux hostaux lists) (hlen : ∀ p, (lists p).length ≤ 2147483648)
    (op : AuxOp α) (hexists : op.Exists lists) :
    ∃ hostaux', op.run hostaux = some hostaux' ∧
      (StoredAux hostaux' (op.onLists lists) ↔ op.Ok lists) := by
  cases op with
  | append p hostauxRec replace =>
    refine ⟨_, by rw [AuxOp.run, updateHostaux_append h (hlen p)], ?_⟩
    rw [AuxOp.onLists, AuxOp.Ok]
    rcases Nat.lt_or_eq_of_le (hlen p) with hlt | hfull
    · rw [p.auxName_eq ⟨by omega, by omega⟩]
      refine iff_of_true (storedAux_update h ?_ fun j => ?_) hlt
      · intro q j hq
        rw [Function.update_of_ne (by simp [hq])]
      · rw [Function.update_apply, h, List.getElem?_append]
        simp only [AuxList.name_inj, true_and]
        by_cases hj : j = (lists p).length
        · subst hj
          simp
        · rw [if_neg hj]
          by_cases h0 : 0 ≤ j
          · rw [if_pos h0, if_pos h0]
            by_cases hin : j.toNat < (lists p).length
            · rw [if_pos hin]
            · rw [if_neg hin, List.getElem?_eq_none
                (by omega), List.getElem?_eq_none (by simp; omega)]
          · rw [if_neg h0, if_neg h0]
    · -- The number printed for the new index is negative.
      have hname : auxName p.hostname p.dbname ((lists p).length : ℕ) = p.name (-2147483648) := by
        rw [hfull]
        rfl
      rw [hname]
      refine iff_of_false (fun hstored => ?_) (by omega)
      have hneg := hstored p (-2147483648)
      rw [Function.update_self, if_neg (by omega)] at hneg
      exact Option.some_ne_none _ hneg
  | replaceAt p k hostauxRec =>
    have hk : k < (lists p).length := hexists
    refine ⟨_, by rw [AuxOp.run, updateHostaux_replace k (lt_of_lt_of_le hk (hlen p))], ?_⟩
    refine iff_of_true (storedAux_update h ?_ fun j => ?_) trivial
    · intro q j hq
      rw [Function.update_of_ne (by simp [hq])]
    · rw [Function.update_apply, h, List.getElem?_set]
      simp only [AuxList.name_inj, true_and]
      by_cases hj : j = k
      · subst hj
        simp [hk]
      · rw [if_neg hj]
        refine ite_congr rfl (fun h0 => ?_) fun _ => rfl
        rw [if_neg (by omega)]
  | deleteEntry p k =>
    obtain ⟨hostaux', hrun, hstored⟩ := deleteHostauxEntry_stored h (hlen p) hexists
    exact ⟨hostaux', by rw [AuxOp.run, hrun], iff_of_true hstored trivial⟩
  | deleteEnt p =>
    obtain ⟨hostaux', hrun, hother, hlist⟩ := deleteHostauxEnt_stored h (hlen p)
    refine ⟨hostaux', by rw [AuxOp.run, hrun], fun hstored => ?_, fun hnil => ?_⟩
    · -- The entry that is left is the last of the list.
      have hlast := hstored p ((lists p).length - 1)
      rw [hlist, if_pos rfl, AuxOp.onLists, Function.update_self, List.getElem?_nil, ite_self,
        List.getLast?_eq_none_iff] at hlast
      exact hlast
    · have hnil : lists p = [] := hnil
      refine storedAux_update h hother fun j => ?_
      rw [hlist, hnil, List.getLast?_nil, ite_self, List.getElem?_nil, ite_self]

/-- The lists stay short enough. -/
theorem AuxOp.Ok.length_le {op : AuxOp α} (hok : op.Ok lists)
    (hlen : ∀ p, (lists p).length ≤ 2147483648)
    (q : AuxList) : (op.onLists lists q).length ≤ 2147483648 := by
  have hq := hlen q
  cases op with
  | append p hostauxRec replace =>
    have hlt : (lists p).length < 2147483648 := hok
    rw [AuxOp.onLists, Function.update_apply]
    split
    · rw [List.length_append, List.length_singleton]
      omega
    · exact hq
  | replaceAt p k hostauxRec =>
    rw [AuxOp.onLists, Function.update_apply]
    split
    next heq =>
      rw [List.length_set, ← heq]
      exact hq
    next => exact hq
  | deleteEntry p k =>
    rw [AuxOp.onLists, Function.update_apply]
    split
    next heq =>
      rw [← heq]
      exact (List.length_eraseIdx_le _ _).trans hq
    next => exact hq
  | deleteEnt p =>
    rw [AuxOp.onLists, Function.update_apply]
    split
    · exact Nat.zero_le _
    · exact hq

/-- A run from any lists. -/
theorem follows_iff {ops : List (AuxOp α)} (h : StoredAux hostaux lists)
    (hlen : ∀ p, (lists p).length ≤ 2147483648) (hexist : IndicesExist lists ops) :
    Follows hostaux lists ops ↔ AuxOpsOk lists ops := by
  induction ops generalizing hostaux lists with
  | nil => exact iff_of_true h trivial
  | cons op ops ih =>
    obtain ⟨hostaux', hrun, hstored⟩ := op.run_spec h hlen hexist.1
    constructor
    · rintro ⟨-, hostaux'', hrun', hfollows⟩
      obtain rfl := Option.some.inj (hrun.symm.trans hrun')
      have hok := hstored.mp hfollows.stored
      exact ⟨hok, (ih hfollows.stored (hok.length_le hlen) hexist.2).mp hfollows⟩
    · rintro ⟨hok, hops⟩
      have hafter := hstored.mpr hok
      exact ⟨h, hostaux', hrun, (ih hafter (hok.length_le hlen) hexist.2).mpr hops⟩

end

/-- Nothing is stored at first. -/
theorem storedAux_empty : StoredAux (fun _ => none : AuxDb α) fun _ => [] := by
  intro p i
  rw [List.getElem?_nil, ite_self]

/-- Two databases of a host. -/
def sampleAux : AuxList := ⟨bytes "ftp.site", bytes "anonftp", by decide +kernel, by decide +kernel⟩

def sampleWebAux : AuxList := ⟨bytes "ftp.site", bytes "webindex", by decide +kernel, by decide +kernel⟩

/-- Three entries, of which the first is replaced and the second deleted. -/
def sampleAuxOps : List (AuxOp ℕ) :=
  [.append sampleAux 1 false, .append sampleAux 2 false, .append sampleAux 3 true,
    .replaceAt sampleAux 0 4, .deleteEntry sampleAux 1, .deleteEnt sampleWebAux]

theorem indicesExist_sampleAuxOps : IndicesExist (fun _ => []) sampleAuxOps := by
  simp [sampleAuxOps, IndicesExist, AuxOp.Exists, AuxOp.onLists]

theorem sampleWebAux_ne : sampleWebAux ≠ sampleAux := by
  decide +kernel

end Archie
