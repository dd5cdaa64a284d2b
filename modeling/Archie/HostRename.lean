/-
A host that gets another primary name (`preprocess_file` of `control/main.c`): the record of the host
and its auxiliary entries are written again under the new name.

* `moveEntries`, `moveHost` — the loop over the entries, and what leads to it.
* `moveEntries_eq` — the loop writes the entries of its indices, and nothing else.
* `moveHost_eq` — but the last index is taken for their number.
* `not_nameChanged_of_move` — so one entry is always left behind.
-/
import Archie.Header
import Archie.HostDb
import Archie.HostauxLookup

namespace Archie

variable {β : Type}

/-! ### The functions -/

/-- `hostdb_aux_t`, with its `current_status`. -/
abbrev AuxEntry (β : Type) := HostauxRec (CurrentStatus × β)

/-- An entry whose status is `DEL_BY_ARCHIE`. -/
def HostauxRec.deleted (e : AuxEntry β) : AuxEntry β :=
  { e with others := (.delByArchie, e.others.2) }

/-- The loop of `preprocess_file`, over `n` indices from `j` on; an entry that is not read is
written as it was. -/
def moveEntries (hostptr primaryHostname newName dbname : List UInt8) :
    ℕ → ℤ → AuxEntry β → AuxDb (AuxEntry β) → Status × AuxDb (AuxEntry β)
  | 0, _, _, hostaux => (.aOk, hostaux)
  | n + 1, j, orig, hostaux =>
    let new := (getHostauxEntry primaryHostname dbname j orig hostaux).getD orig
    match AuxDb.putDbmEntry (auxName hostptr dbname j) new.deleted hostaux true with
    | (.error, hostaux) => (.error, hostaux)
    | (.aOk, hostaux) =>
      match AuxDb.putDbmEntry (auxName newName dbname j) new hostaux true with
      | (.error, hostaux) => (.error, hostaux)
      | (.aOk, hostaux) =>
        moveEntries hostptr primaryHostname newName dbname n (j + 1) new.deleted hostaux

/-- How the case ends: in `failure`, with the `break`, or after the loop. -/
inductive MoveEnd (β : Type)
  | failed
  | kept
  | moved (hostdb : AuxDb HostdbRec) (hostaux : AuxDb (AuxEntry β))

/-- The header of the file, and `h_name` of the entry that its preferred name has in the DNS. -/
structure MoveHeader where
  primaryHostname : List UInt8
  accessMethods : List UInt8
  preferredHostname : List UInt8
  hName : Option (List UInt8)

/-- The case of `preprocess_file` for an update that failed, up to the end of its loop; `orig` is
what is in `orig_hostaux_db` before.  None, where `find_hostaux_last` does not end. -/
def moveHost (solaris : Bool) (header : MoveHeader) (orig : AuxEntry β)
    (hostdb : AuxDb HostdbRec) (hostaux : AuxDb (AuxEntry β)) : Option (MoveEnd β) :=
  match AuxDb.getDbmEntry (nameKey header.primaryHostname) hostdb, header.hName with
  | some origHostdb, some hName =>
    -- `cmp_dns_name`; the preferred name is compared on Solaris only.
    if strcasecmpEq origHostdb.primaryHostname hName ||
      solaris && strcasecmpEq header.preferredHostname hName then some .kept
    else
      let newName := hName.map asciiLower
      match AuxDb.getDbmEntry (nameKey newName) hostdb with
      | some _ => some .failed
      | none =>
        match AuxDb.putDbmEntry (nameKey newName) { origHostdb with primaryHostname := newName }
          hostdb true with
        | (.error, _) => some .failed
        | (.aOk, hostdb) =>
          (findHostauxLast origHostdb.primaryHostname header.accessMethods hostaux).map fun ind =>
            match moveEntries header.primaryHostname origHostdb.primaryHostname newName
              header.accessMethods (ulong ind) 0 orig hostaux with
            | (.error, _) => .failed
            | (.aOk, hostaux) => .moved hostdb hostaux
  | _, _ => some .failed

/-! ### What the loop writes -/

/-- An entry without its pointer, which is one into the memory of the program. -/
def HostauxRec.stored (e : AuxEntry β) : AuxEntry β := { e with origin := none }

/-- Names of different indices differ. -/
theorem auxName_index {h h' d d' : List UInt8} {i j : ℕ} (hi : i < 2147483648)
    (hj : j < 2147483648) (heq : auxName h d i = auxName h' d' j) : i = j := by
  have hsplit : ∀ (h d : List UInt8) (k : ℕ), k < 2147483648 →
      auxName h d k = (h ++ 46 :: d) ++ 46 :: printSInt k := by
    intro h d k hk
    rw [auxName, sint_ulong ⟨by omega, by omega⟩, List.append_assoc, List.cons_append]
  rw [hsplit h d i hi, hsplit h' d' j hj,
    append_dot_inj (not_dot_printSInt i) (not_dot_printSInt j)] at heq
  exact Int.ofNat_inj.mp (printSInt_injective heq.2)

/-- So do those of different hosts. -/
theorem auxName_host {h h' d : List UInt8} {i : ℤ} (heq : auxName h d i = auxName h' d i) :
    h = h' := List.append_cancel_right heq

theorem putDbmEntry_true {α : Type} (key : List UInt8) (data : α) (db : AuxDb α) :
    AuxDb.putDbmEntry key data db true = (.aOk, Function.update db key (some data)) := by
  rw [AuxDb.putDbmEntry, if_neg (by simp)]

section

variable {old new d : List UInt8}

/-- What the loop makes of the entries of its indices. -/
structure EntriesMoved (old new d : List UInt8) (lo hi : ℕ) (hostaux hostaux' : AuxDb (AuxEntry β)) :
    Prop where
  copied : ∀ i, lo ≤ i → i < hi →
    (hostaux' (auxName new d i)).map HostauxRec.stored =
      (hostaux (auxName old d i)).map HostauxRec.stored
  marked : ∀ i, lo ≤ i → i < hi →
    (hostaux' (auxName old d i)).map HostauxRec.stored =
      (hostaux (auxName old d i)).map fun e => e.deleted.stored
  others : ∀ key, (∀ i, lo ≤ i → i < hi → key ≠ auxName old d i ∧ key ≠ auxName new d i) →
    hostaux' key = hostaux key

/-- **The loop** over entries that are there. -/
theorem moveEntries_eq (hne : old ≠ new) {n j : ℕ} (hj : j + n ≤ 2147483648) (orig : AuxEntry β)
    (hostaux : AuxDb (AuxEntry β))
    (hthere : ∀ i, j ≤ i → i < j + n → ∃ e, hostaux (auxName old d i) = some e) :
    ∃ hostaux', moveEntries old old new d n j orig hostaux = (.aOk, hostaux') ∧
      EntriesMoved old new d j (j + n) hostaux hostaux' := by
  induction n generalizing j orig hostaux with
  | zero =>
    exact ⟨hostaux, rfl, fun i hi hlt => absurd hlt (by omega), fun i hi hlt =>
      absurd hlt (by omega), fun _ _ => rfl⟩
  | succ n ih =>
    obtain ⟨e, he⟩ := hthere j le_rfl (by omega)
    set cur : AuxEntry β := { e with origin := orig.origin } with hcur
    set put : AuxDb (AuxEntry β) := Function.update (Function.update hostaux (auxName old d j)
      (some cur.deleted)) (auxName new d j) (some cur) with hput
    -- Names of later indices are not written in this round.
    have hlater : ∀ h, ∀ i, j < i → i < j + (n + 1) → put (auxName h d i) = hostaux (auxName h d i) := by
      intro h i hlt hi
      have hdiffer : ∀ h', auxName h d i ≠ auxName h' d j := fun h' heq =>
        hlt.ne' (auxName_index (by omega) (by omega) heq)
      rw [hput, Function.update_of_ne (hdiffer new), Function.update_of_ne (hdiffer old)]
    obtain ⟨hostaux', hrun, hmoved⟩ := ih (j := j + 1) (by omega) cur.deleted put fun i hi hlt => by
      rw [hlater old i (by omega) (by omega)]
      exact hthere i (by omega) (by omega)
    have hkeep : ∀ h, hostaux' (auxName h d j) = put (auxName h d j) := fun h =>
      hmoved.others _ fun i hi hlt =>
        ⟨fun heq => absurd (auxName_index (by omega) (by omega) heq) (by omega),
          fun heq => absurd (auxName_index (by omega) (by omega) heq) (by omega)⟩
    refine ⟨hostaux', ?_, ⟨fun i hi hlt => ?_, fun i hi hlt => ?_, fun key hkey => ?_⟩⟩
    · have hread : (getHostauxEntry old d j orig hostaux).getD orig = cur := by
        rw [getHostauxEntry, AuxDb.getDbmEntry, he]
        rfl
      rw [moveEntries]
      simp only [hread, putDbmEntry_true]
      exact hrun
    · rcases hi.eq_or_lt with rfl | hlt'
      · rw [hkeep new, hput, Function.update_self, he]
        rfl
      · rw [hmoved.copied i hlt' (by omega), hlater old i hlt' (by omega)]
    · rcases hi.eq_or_lt with rfl | hlt'
      · rw [hkeep old, hput, Function.update_of_ne fun heq => hne (auxName_host heq),
          Function.update_self, he]
        rfl
      · rw [hmoved.marked i hlt' (by omega), hlater old i hlt' (by omega)]
    · obtain ⟨hold, hnew⟩ := hkey j le_rfl (by omega)
      rw [hmoved.others key fun i hi hlt => hkey i (by omega) (by omega), hput,
        Function.update_of_ne hnew, Function.update_of_ne hold]

/-- The number of entries from 0 on is found. -/
theorem findHostauxLast_of_entries {α : Type} {h d : List UInt8} {hostaux : AuxDb α} {n : ℕ}
    (hn : n ≤ 2147483648) (hthere : ∀ i < n, hostaux (auxName h d i) ≠ none)
    (hend : hostaux (auxName h d n) = none) : findHostauxLast h d hostaux = some ((n : ℤ) - 1) := by
  have hloop : ∀ fuel i : ℕ, i ≤ n → n < i + fuel →
      findHostauxLastFrom h d hostaux fuel i = some ((n : ℤ) - 1) := by
    intro fuel
    induction fuel with
    | zero => omega
    | succ fuel ih =>
      intro i hi hfuel
      rw [findHostauxLastFrom, AuxDb.getDbmEntry]
      rcases hi.eq_or_lt with rfl | hlt
      · rw [hend]
      · obtain ⟨e, he⟩ := Option.ne_none_iff_exists'.mp (hthere i hlt)
        rw [he]
        exact ih (i + 1) hlt (by omega)
  exact hloop wordSize 0 (Nat.zero_le n) (by unfold wordSize; omega)

end

/-! ### A host that is moved -/

/-- A host with entries from 0 on, whose preferred name is in the DNS under another name: one
that is not in the database, and has no entries. -/
structure HostMove (β : Type) where
  solaris : Bool
  header : MoveHeader
  orig : AuxEntry β
  hostdb : AuxDb HostdbRec
  hostaux : AuxDb (AuxEntry β)
  host : HostdbRec
  hName : List UInt8
  n : ℕ
  found : hostdb (nameKey header.primaryHostname) = some host
  underName : host.primaryHostname = header.primaryHostname
  inDns : header.hName = some hName
  otherName : strcasecmpEq header.primaryHostname hName = false ∧
    (solaris = true → strcasecmpEq header.preferredHostname hName = false)
  entries : ∀ i < n, hostaux (auxName header.primaryHostname header.accessMethods i) ≠ none
  noMore : hostaux (auxName header.primaryHostname header.accessMethods n) = none
  notEmpty : 1 ≤ n
  isIndex : n ≤ 2147483648
  newHost : hostdb (nameKey (hName.map asciiLower)) = none
  newEntries : ∀ i < n, hostaux (auxName (hName.map asciiLower) header.accessMethods i) = none

/-- The new primary name. -/
def HostMove.newName (m : HostMove β) : List UInt8 := m.hName.map asciiLower

/-- The host is under its new name, all its entries are moved, and nothing else has changed. -/
structure NameChanged (m : HostMove β) (hostdb : AuxDb HostdbRec) (hostaux : AuxDb (AuxEntry β)) :
    Prop where
  host : hostdb (nameKey m.newName) ≠ none
  otherHosts : ∀ key, key ≠ nameKey m.newName → hostdb key = m.hostdb key
  entries : EntriesMoved m.header.primaryHostname m.newName m.header.accessMethods 0 m.n
    m.hostaux hostaux

/-- **The case of the function** writes the host and all of its entries but the last one. -/
theorem moveHost_eq (m : HostMove β) :
    ∃ hostdb hostaux, moveHost m.solaris m.header m.orig m.hostdb m.hostaux =
        some (.moved hostdb hostaux) ∧
      hostdb = Function.update m.hostdb (nameKey m.newName)
        (some { m.host with primaryHostname := m.newName }) ∧
      EntriesMoved m.header.primaryHostname m.newName m.header.accessMethods 0 (m.n - 1)
        m.hostaux hostaux := by
  have hne : m.header.primaryHostname ≠ m.newName := by
    intro heq
    have hnew := m.newHost
    rw [HostMove.newName] at heq
    rw [← heq, m.found] at hnew
    exact Option.some_ne_none _ hnew
  have hpos := m.notEmpty
  have hindex := m.isIndex
  obtain ⟨hostaux, hrun, hmoved⟩ := moveEntries_eq (d := m.header.accessMethods) hne (n := m.n - 1)
    (j := 0) (by omega) m.orig m.hostaux
    fun i _ hi => Option.ne_none_iff_exists'.mp (m.entries i (by omega))
  rw [Nat.zero_add] at hmoved
  refine ⟨_, hostaux, ?_, rfl, hmoved⟩
  have hsame : (strcasecmpEq m.host.primaryHostname m.hName ||
      m.solaris && strcasecmpEq m.header.preferredHostname m.hName) = false := by
    rw [m.underName, m.otherName.1, Bool.false_or]
    cases hs : m.solaris with
    | false => rfl
    | true => rw [m.otherName.2 hs, Bool.and_false]
  -- The index of the last entry is the bound of the loop.
  have hlast := findHostauxLast_of_entries m.isIndex m.entries m.noMore
  have hrounds : ulong ((m.n : ℤ) - 1) = m.n - 1 := by
    have hcast : (m.n : ℤ) - 1 = (m.n - 1 : ℕ) := by omega
    rw [hcast, ulong_natCast (by unfold wordSize; omega)]
  rw [moveHost, AuxDb.getDbmEntry, m.found, m.inDns]
  simp only [hsame, Bool.false_eq_true, if_false, AuxDb.getDbmEntry, m.newHost, putDbmEntry_true]
  rw [m.underName, hlast, Option.map_some, hrounds]
  have hrun' : moveEntries m.header.primaryHostname m.header.primaryHostname
      (m.hName.map asciiLower) m.header.accessMethods (m.n - 1) 0 m.orig m.hostaux =
      (.aOk, hostaux) := hrun
  simp only [hrun']
  rfl

/-- The entry before the end is left under its old name. -/
theorem not_nameChanged_of_entriesMoved {m : HostMove β} {hostdb : AuxDb HostdbRec}
    {hostaux : AuxDb (AuxEntry β)}
    (hmoved : EntriesMoved m.header.primaryHostname m.newName m.header.accessMethods 0 (m.n - 1)
      m.hostaux hostaux) : ¬ NameChanged m hostdb hostaux := by
  intro hchanged
  have hpos := m.notEmpty
  have hindex := m.isIndex
  have hlast := hchanged.entries.copied (m.n - 1) (Nat.zero_le _) (by omega)
  have hkept : hostaux (auxName m.newName m.header.accessMethods (m.n - 1 : ℕ)) = none := by
    rw [hmoved.others _ fun i _ hi =>
      ⟨fun heq => absurd (auxName_index (by omega) (by omega) heq) (by omega),
        fun heq => absurd (auxName_index (by omega) (by omega) heq) (by omega)⟩]
    exact m.newEntries _ (by omega)
  rw [hkept, Option.map_none, eq_comm, Option.map_eq_none_iff] at hlast
  exact m.entries _ (by omega) hlast

/-- **One entry is always left behind**: whenever a host is moved. -/
theorem not_nameChanged_of_move (m : HostMove β) :
    ∃ hostdb hostaux, moveHost m.solaris m.header m.orig m.hostdb m.hostaux =
      some (.moved hostdb hostaux) ∧ ¬ NameChanged m hostdb hostaux := by
  obtain ⟨hostdb, hostaux, hrun, -, hmoved⟩ := moveHost_eq m
  exact ⟨hostdb, hostaux, hrun, not_nameChanged_of_entriesMoved hmoved⟩

/-- A host with one entry. -/
def sampleMove : HostMove Unit where
  solaris := false
  header := ⟨bytes "a", bytes "anonftp", bytes "p", some (bytes "B")⟩
  orig := ⟨[], [], none, .active, ()⟩
  hostdb := Function.update (fun _ => none) (nameKey (bytes "a")) (some ⟨bytes "a", 0, 0, 0, [], 0⟩)
  hostaux := Function.update (fun _ => none) (auxName (bytes "a") (bytes "anonftp") 0)
    (some ⟨bytes "p", [], none, .active, ()⟩)
  host := ⟨bytes "a", 0, 0, 0, [], 0⟩
  hName := bytes "B"
  n := 1
  found := Function.update_self _ _ _
  underName := rfl
  inDns := rfl
  otherName := by decide +kernel
  entries := by
    intro i hi
    obtain rfl : i = 0 := by omega
    decide +kernel
  noMore := by decide +kernel
  notEmpty := le_rfl
  isIndex := by omega
  newHost := by decide +kernel
  newEntries := by
    intro i hi
    obtain rfl : i = 0 := by omega
    decide +kernel

/-- Its entry is not moved. -/
theorem not_nameChanged : ¬ ∀ (m : HostMove Unit) (hostdb : AuxDb HostdbRec)
    (hostaux : AuxDb (AuxEntry Unit)),
    moveHost m.solaris m.header m.orig m.hostdb m.hostaux = some (.moved hostdb hostaux) →
      NameChanged m hostdb hostaux := by
  intro h
  obtain ⟨hostdb, hostaux, hrun, -, hmoved⟩ := moveHost_eq sampleMove
  exact not_nameChanged_of_entriesMoved hmoved (h sampleMove hostdb hostaux hrun)

end Archie
