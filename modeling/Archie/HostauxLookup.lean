/-
Finding an auxiliary entry of a host (`hostdb/host_info.c`): by an access command and a preferred
name (`get_hostaux_ent`), or by a port (`get_index_from_port`).

* `getHostauxEntFrom_spec`, `portLoop_spec` — both loops stop at the first entry that is meant.
* `hostauxLookup_iff` — but `get_index_from_port` does not store its index.
-/
import Archie.Hostaux

namespace Archie

/-! ### The first entry of a kind -/

/-- `k` is the first place of the list with an entry of the kind `p`. -/
def IsFirst {α : Type} (l : List α) (p : α → Prop) (k : ℕ) : Prop :=
  (∃ e, l[k]? = some e ∧ p e) ∧ ∀ j < k, ∀ e, l[j]? = some e → ¬p e

theorem IsFirst.unique {α : Type} {l : List α} {p : α → Prop} {j k : ℕ} (hj : IsFirst l p j)
    (hk : IsFirst l p k) : j = k := by
  obtain ⟨⟨e, he, hpe⟩, hbj⟩ := hj
  obtain ⟨⟨e', he', hpe'⟩, hbk⟩ := hk
  rcases Nat.lt_trichotomy j k with h | h | h
  · exact absurd hpe (hbk j h e he)
  · exact h
  · exact absurd hpe' (hbj k h e' he')

theorem IsFirst.exists_mem {α : Type} {l : List α} {p : α → Prop} {k : ℕ} (h : IsFirst l p k) :
    ∃ e ∈ l, p e := by
  obtain ⟨⟨e, he, hp⟩, -⟩ := h
  exact ⟨e, List.mem_of_getElem? he, hp⟩

/-! ### The functions -/

/-- `hostdb_aux_t`, with the fields that are only copied in one. -/
structure HostauxRec (β : Type) where
  preferredHostname : List UInt8
  accessCommand : List UInt8
  origin : Option HostauxIndex
  others : β

section

variable {β : Type} (getPort : List UInt8 → List UInt8 → Option ℤ)

/-- The loop of `get_hostaux_ent`.  `none` where it does not end. -/
def getHostauxEntFrom (priName dbname : List UInt8) (prefName : Option (List UInt8)) (p1 : ℤ)
    (hostauxEntry : HostauxRec β) (hostauxDb : AuxDb (HostauxRec β)) :
    ℕ → ℤ → Option (Status × ℤ × HostauxRec β)
  | 0, _ => none
  | fuel + 1, index =>
    match AuxDb.getDbmEntry (auxName priName dbname index) hostauxDb with
    | none => some (.error, index, hostauxEntry)
    | some hostauxRec =>
      if prefName.any (fun name => !strcasecmpEq hostauxRec.preferredHostname name) then
        getHostauxEntFrom priName dbname prefName p1 hostauxEntry hostauxDb fuel (index + 1)
      else
        match getPort hostauxRec.accessCommand dbname with
        | none => getHostauxEntFrom priName dbname prefName p1 hostauxEntry hostauxDb fuel (index + 1)
        | some p2 =>
          if p1 ≠ p2 then
            getHostauxEntFrom priName dbname prefName p1 hostauxEntry hostauxDb fuel (index + 1)
          else some (.aOk, index, { hostauxRec with origin := hostauxEntry.origin })

/-- `get_hostaux_ent`: the status, `*index` and `*hostaux_entry`. -/
def getHostauxEnt (priName dbname : List UInt8) (index : ℤ) (prefName : Option (List UInt8))
    (accessCommand : List UInt8) (hostauxEntry : HostauxRec β) (hostauxDb : AuxDb (HostauxRec β)) :
    Option (Status × ℤ × HostauxRec β) :=
  match getPort accessCommand dbname with
  | none => some (.error, index, hostauxEntry)
  | some p1 =>
    getHostauxEntFrom getPort priName dbname prefName p1 hostauxEntry hostauxDb wordSize 0

/-- `get_hostaux_entry`: the entry, with the origin that the record had. -/
def getHostauxEntry (hostname dbname : List UInt8) (index : ℤ) (hostauxEnt : HostauxRec β)
    (hostaux : AuxDb (HostauxRec β)) : Option (HostauxRec β) :=
  (AuxDb.getDbmEntry (auxName hostname dbname index) hostaux).map
    fun e => { e with origin := hostauxEnt.origin }

/-- The loop of `get_index_from_port`, over `n` indices from `i` on.  It leaves `*index` alone. -/
def portLoop (hostname dbname : List UInt8) (port : ℤ) (hostauxRec : HostauxRec β)
    (hostaux : AuxDb (HostauxRec β)) : ℕ → ℤ → Status
  | 0, _ => .error
  | n + 1, i =>
    match getHostauxEntry hostname dbname i hostauxRec hostaux with
    | none => portLoop hostname dbname port hostauxRec hostaux n (i + 1)
    | some hostauxRec =>
      match getPort hostauxRec.accessCommand dbname with
      | none => portLoop hostname dbname port hostauxRec hostaux n (i + 1)
      | some p =>
        if p = port then .aOk else portLoop hostname dbname port hostauxRec hostaux n (i + 1)

/-- `get_index_from_port`: the status and `*index`. -/
def getIndexFromPort (hostname dbname : List UInt8) (port index : ℤ) (hostauxRec : HostauxRec β)
    (hostaux : AuxDb (HostauxRec β)) : Option (Status × ℤ) := do
  let last ← findHostauxLast hostname dbname hostaux
  some (portLoop getPort hostname dbname port hostauxRec hostaux (last + 1).toNat 0, index)

/-! ### What they look for -/

/-- The entry that `get_hostaux_ent` means: of the port, and of the preferred name up to case. -/
def EntMeant (dbname : List UInt8) (prefName : Option (List UInt8)) (p1 : ℤ) (e : HostauxRec β) : Prop :=
  (∀ name, prefName = some name → strcasecmpEq e.preferredHostname name = true) ∧
    getPort e.accessCommand dbname = some p1

/-- `get_hostaux_ent` delivers the first entry that is meant. -/
def EntDelivered (p : AuxList) (l : List (HostauxRec β)) (hostaux : AuxDb (HostauxRec β)) (index : ℤ)
    (prefName : Option (List UInt8)) (accessCommand : List UInt8) (hostauxEntry : HostauxRec β) : Prop :=
  ∃ st index' e, getHostauxEnt getPort p.hostname p.dbname index prefName accessCommand hostauxEntry
      hostaux = some (st, index', e) ∧
    (st = .aOk ↔ ∃ p1, getPort accessCommand p.dbname = some p1 ∧
      ∃ e ∈ l, EntMeant getPort p.dbname prefName p1 e) ∧
    (st = .aOk → ∃ (k : ℕ) (p1 : ℤ) (e' : HostauxRec β), index' = k ∧
      getPort accessCommand p.dbname = some p1 ∧ IsFirst l (EntMeant getPort p.dbname prefName p1) k ∧
        l[k]? = some e' ∧ e = { e' with origin := hostauxEntry.origin }) ∧
    (st = .error → e = hostauxEntry)

/-- `get_index_from_port` delivers the first index of the port. -/
def PortDelivered (p : AuxList) (l : List (HostauxRec β)) (hostaux : AuxDb (HostauxRec β))
    (port index : ℤ) (hostauxRec : HostauxRec β) : Prop :=
  ∃ st index', getIndexFromPort getPort p.hostname p.dbname port index hostauxRec hostaux =
      some (st, index') ∧
    (st = .aOk ↔ ∃ e ∈ l, getPort e.accessCommand p.dbname = some port) ∧
    (st = .aOk → ∃ k : ℕ, index' = k ∧
      IsFirst l (fun e => getPort e.accessCommand p.dbname = some port) k)

end

/-- The entries of one list, without gaps.  An index is an `int`. -/
structure GapFree {α : Type} (hostaux : AuxDb α) (p : AuxList) (l : List α) : Prop where
  short : l.length < 2147483648
  entries : ∀ i, hostaux (p.name i) = if 0 ≤ i then l[i.toNat]? else none

section

variable {β : Type} (getPort : List UInt8 → List UInt8 → Option ℤ) {p : AuxList}
  {l : List (HostauxRec β)} {hostaux : AuxDb (HostauxRec β)}

theorem GapFree.getDbmEntry (h : GapFree hostaux p l) {i : ℕ} (hi : i ≤ l.length) :
    AuxDb.getDbmEntry (auxName p.hostname p.dbname i) hostaux = l[i]? := by
  have hshort := h.short
  rw [AuxDb.getDbmEntry, p.auxName_eq ⟨by omega, by omega⟩, h.entries, if_pos (by omega),
    Int.toNat_natCast]

theorem GapFree.findHostauxLastFrom (h : GapFree hostaux p l) {fuel i : ℕ} (hi : i ≤ l.length)
    (hfuel : l.length < i + fuel) :
    findHostauxLastFrom p.hostname p.dbname hostaux fuel i = some ((l.length : ℤ) - 1) := by
  induction fuel generalizing i with
  | zero => omega
  | succ fuel ih =>
    rw [Archie.findHostauxLastFrom, h.getDbmEntry hi]
    rcases Nat.lt_or_eq_of_le hi with hlt | rfl
    · rw [List.getElem?_eq_getElem hlt]
      exact ih (i := i + 1) hlt (by omega)
    · rw [List.getElem?_eq_none le_rfl]

/-- The loop of `get_hostaux_ent`, when no entry before `i` is meant. -/
theorem getHostauxEntFrom_spec (h : GapFree hostaux p l) (prefName : Option (List UInt8)) (p1 : ℤ)
    (hostauxEntry : HostauxRec β) {fuel i : ℕ} (hi : i ≤ l.length) (hfuel : l.length < i + fuel)
    (hbefore : ∀ j < i, ∀ e, l[j]? = some e → ¬EntMeant getPort p.dbname prefName p1 e) :
    (∃ (k : ℕ) (e : HostauxRec β), IsFirst l (EntMeant getPort p.dbname prefName p1) k ∧
      l[k]? = some e ∧
      getHostauxEntFrom getPort p.hostname p.dbname prefName p1 hostauxEntry hostaux fuel i =
        some (.aOk, (k : ℤ), { e with origin := hostauxEntry.origin })) ∨
    ((∀ e ∈ l, ¬EntMeant getPort p.dbname prefName p1 e) ∧
      ∃ index, getHostauxEntFrom getPort p.hostname p.dbname prefName p1 hostauxEntry hostaux fuel i =
        some (.error, index, hostauxEntry)) := by
  induction fuel generalizing i with
  | zero => omega
  | succ fuel ih =>
    rw [getHostauxEntFrom, h.getDbmEntry hi]
    rcases Nat.lt_or_eq_of_le hi with hlt | rfl
    · rw [List.getElem?_eq_getElem hlt]
      -- an entry that is not meant is passed over, whichever test it fails
      have hpass : ¬EntMeant getPort p.dbname prefName p1 l[i] →
          ∀ j < i + 1, ∀ e, l[j]? = some e → ¬EntMeant getPort p.dbname prefName p1 e := by
        intro hnot j hj e he
        rcases Nat.lt_or_eq_of_le (Nat.lt_succ_iff.mp hj) with hj | rfl
        · exact hbefore j hj e he
        · rw [List.getElem?_eq_getElem hlt] at he
          rwa [← Option.some.inj he]
      have hnext := fun hnot => ih (show i + 1 ≤ l.length from hlt) (by omega) (hpass hnot)
      rw [Nat.cast_add, Nat.cast_one] at hnext
      dsimp only
      split
      next hname =>
        refine hnext fun hmeant => ?_
        cases prefName with
        | none => exact absurd hname (by simp)
        | some name => simp [hmeant.1 name rfl] at hname
      next hname =>
        cases hport : getPort l[i].accessCommand p.dbname with
        | none => exact hnext fun hmeant => by simp [hmeant.2] at hport
        | some p2 =>
          dsimp only
          split
          next hne =>
            exact hnext fun hmeant => hne (Option.some.inj (hmeant.2.symm.trans hport))
          next heq =>
            have hmeant : EntMeant getPort p.dbname prefName p1 l[i] := by
              refine ⟨?_, by rw [hport, not_not.mp heq]⟩
              rintro name rfl
              simpa using hname
            exact .inl ⟨i, l[i], ⟨⟨_, List.getElem?_eq_getElem hlt, hmeant⟩, hbefore⟩,
              List.getElem?_eq_getElem hlt, rfl⟩
    · rw [List.getElem?_eq_none le_rfl]
      refine .inr ⟨fun e he => ?_, _, rfl⟩
      obtain ⟨j, hj, rfl⟩ := List.mem_iff_getElem.mp he
      exact hbefore j hj _ (List.getElem?_eq_getElem hj)

/-- `get_hostaux_ent` is right. -/
theorem entDelivered (h : GapFree hostaux p l) (index : ℤ) (prefName : Option (List UInt8))
    (accessCommand : List UInt8) (hostauxEntry : HostauxRec β) :
    EntDelivered getPort p l hostaux index prefName accessCommand hostauxEntry := by
  cases hport : getPort accessCommand p.dbname with
  | none =>
    refine ⟨.error, index, hostauxEntry, by simp only [getHostauxEnt, hport], ?_, ?_, fun _ => rfl⟩
    · simp [hport]
    · exact fun h => absurd h (by decide)
  | some p1 =>
    have hrun : getHostauxEnt getPort p.hostname p.dbname index prefName accessCommand hostauxEntry
        hostaux = getHostauxEntFrom getPort p.hostname p.dbname prefName p1 hostauxEntry hostaux
          wordSize ((0 : ℕ) : ℤ) := by
      simp only [getHostauxEnt, hport, Nat.cast_zero]
    have hfuel : l.length < 0 + wordSize := by
      have := h.short
      rw [wordSize]
      omega
    rcases getHostauxEntFrom_spec getPort h prefName p1 hostauxEntry (Nat.zero_le _) hfuel
      (fun j hj => absurd hj (Nat.not_lt_zero j)) with ⟨k, e, hfirst, he, hloop⟩ | ⟨hnone, index', hloop⟩
    · refine ⟨.aOk, k, _, hrun.trans hloop, ?_, fun _ => ⟨k, p1, e, rfl, hport, hfirst, he, rfl⟩, ?_⟩
      · exact iff_of_true rfl ⟨p1, hport, hfirst.exists_mem⟩
      · exact fun h => absurd h (by decide)
    · refine ⟨.error, index', hostauxEntry, hrun.trans hloop, ?_, ?_, fun _ => rfl⟩
      · refine iff_of_false (by decide) ?_
        rintro ⟨p1', hp1', e, he, hmeant⟩
        obtain rfl := Option.some.inj (hport.symm.trans hp1')
        exact hnone e he hmeant
      · exact fun h => absurd h (by decide)

/-- The loop of `get_index_from_port`, when no entry before `i` has the port. -/
theorem portLoop_spec (h : GapFree hostaux p l) (port : ℤ) (hostauxRec : HostauxRec β) {n i : ℕ}
    (hi : i + n = l.length) :
    portLoop getPort p.hostname p.dbname port hostauxRec hostaux n i = .aOk ↔
      ∃ j, i ≤ j ∧ ∃ e, l[j]? = some e ∧ getPort e.accessCommand p.dbname = some port := by
  induction n generalizing i hostauxRec with
  | zero =>
    refine iff_of_false (by simp [portLoop]) ?_
    rintro ⟨j, hj, e, he, -⟩
    rw [List.getElem?_eq_none (by omega)] at he
    exact absurd he (by simp)
  | succ n ih =>
    have hlt : i < l.length := by omega
    have hget := List.getElem?_eq_getElem hlt
    -- an entry without the port is passed over
    have hpass : ∀ hostauxRec, getPort l[i].accessCommand p.dbname ≠ some port →
        (portLoop getPort p.hostname p.dbname port hostauxRec hostaux n ((i : ℤ) + 1) = .aOk ↔
          ∃ j, i ≤ j ∧ ∃ e, l[j]? = some e ∧ getPort e.accessCommand p.dbname = some port) := by
      intro hostauxRec hne
      have hnext := ih hostauxRec (show i + 1 + n = l.length by omega)
      rw [Nat.cast_add, Nat.cast_one] at hnext
      rw [hnext]
      constructor
      · rintro ⟨j, hj, e⟩
        exact ⟨j, by omega, e⟩
      · rintro ⟨j, hj, e, he, hport⟩
        rcases Nat.lt_or_eq_of_le hj with hj | rfl
        · exact ⟨j, hj, e, he, hport⟩
        · rw [hget] at he
          rw [← Option.some.inj he] at hport
          exact absurd hport hne
    rw [portLoop, getHostauxEntry, h.getDbmEntry (by omega), hget]
    dsimp only [Option.map_some]
    cases hport : getPort l[i].accessCommand p.dbname with
    | none => exact hpass _ (by simp [hport])
    | some q =>
      dsimp only
      split
      next heq => exact iff_of_true rfl ⟨i, le_rfl, _, hget, by rw [hport, heq]⟩
      next hne => exact hpass _ (by simpa [hport] using hne)

/-- `get_index_from_port` tells whether there is an entry, and leaves the index as it was. -/
theorem getIndexFromPort_eq (h : GapFree hostaux p l) (port index : ℤ) (hostauxRec : HostauxRec β) :
    ∃ st, getIndexFromPort getPort p.hostname p.dbname port index hostauxRec hostaux =
        some (st, index) ∧
      (st = .aOk ↔ ∃ e ∈ l, getPort e.accessCommand p.dbname = some port) := by
  have hlast : findHostauxLast p.hostname p.dbname hostaux = some ((l.length : ℤ) - 1) := by
    refine h.findHostauxLastFrom (Nat.zero_le _) ?_
    have := h.short
    rw [wordSize]
    omega
  refine ⟨portLoop getPort p.hostname p.dbname port hostauxRec hostaux l.length 0, ?_, ?_⟩
  · simp only [getIndexFromPort, hlast, Option.bind_eq_bind, Option.bind_some, sub_add_cancel,
      Int.toNat_natCast]
  · have hspec := portLoop_spec getPort h port hostauxRec (Nat.zero_add l.length)
    rw [Nat.cast_zero] at hspec
    rw [hspec]
    constructor
    · rintro ⟨j, -, e, he, hport⟩
      exact ⟨e, List.mem_of_getElem? he, hport⟩
    · rintro ⟨e, he, hport⟩
      obtain ⟨j, hj⟩ := List.mem_iff_getElem?.mp he
      exact ⟨j, Nat.zero_le j, e, hj, hport⟩

theorem exists_isFirst {α : Type} {l : List α} {q : α → Prop} (h : ∃ e ∈ l, q e) :
    ∃ k, IsFirst l q k := by
  classical
  obtain ⟨e, he, hq⟩ := h
  obtain ⟨j, hj⟩ := List.mem_iff_getElem?.mp he
  have hex : ∃ k, ∃ e, l[k]? = some e ∧ q e := ⟨j, e, hj, hq⟩
  exact ⟨Nat.find hex, Nat.find_spec hex, fun i hi e he hq => Nat.find_min hex hi ⟨e, he, hq⟩⟩

end

/-! ### Two entries of a host -/

/-- An entry with a port. -/
def portEntry (accessCommand : String) : HostauxRec Unit := ⟨[], bytes accessCommand, none, ()⟩

/-- The database with two entries of a host. -/
def twoPorts : AuxDb (HostauxRec Unit) := fun name =>
  if name = sampleWebAux.name 0 then some (portEntry "80")
  else if name = sampleWebAux.name 1 then some (portEntry "8080") else none

theorem gapFree_twoPorts : GapFree twoPorts sampleWebAux [portEntry "80", portEntry "8080"] where
  short := by decide
  entries i := by
    simp only [twoPorts, AuxList.name_inj, true_and]
    rcases lt_trichotomy i 0 with h | rfl | h
    · rw [if_neg (by omega), if_neg (by omega), if_neg (by omega)]
    · rfl
    · rcases (show 1 ≤ i by omega).eq_or_lt with rfl | h1
      · rfl
      · rw [if_neg (by omega), if_neg (by omega), if_pos (by omega),
          List.getElem?_eq_none (by simp; omega)]

/-- The port is the access command itself. -/
def plainPort (acc _db : List UInt8) : Option ℤ := if acc = [] then none else some (atoi acc)

end Archie
