/-
The primary host database and the host address cache (`hostdb/ops.c`): one file is kept
under the names of the hosts, the other one under their addresses, and `update_hostdb`
writes the one after the other.

* `InverseMaps` — two partial maps that are inverse to each other, and what an update of
  both does to them.
* `updateHostdb`, `checkPaddr` — the update, and the lookup of an address in `check_new_hentry`.
* `HostDbs.Consistent` — the two files say the same.
* `updateHostdb_cases` — all that an update can do.
* `hostdbKept_iff` — the runs in which the files say the same all the time.
-/
import Archie.Hostaux
import Mathlib.Data.List.Induction

namespace Archie

/-! ### Inverse partial maps -/

section

variable {κ α : Type*} [DecidableEq κ] [DecidableEq α] {f : κ → Option α} {g : α → Option κ} {k : κ}
  {a : α}

/-- Each of two partial maps undoes the other one. -/
def InverseMaps (f : κ → Option α) (g : α → Option κ) : Prop := ∀ k a, f k = some a ↔ g a = some k

/-- A value that no other key has may be given to a key that has none, or has it already. -/
theorem InverseMaps.update (h : InverseMaps f g) (hk : ∀ b, f k = some b → b = a)
    (ha : ∀ l, f l = some a → l = k) :
    InverseMaps (Function.update f k (some a)) (Function.update g a (some k)) := by
  intro l b
  by_cases hl : l = k
  · rw [hl, Function.update_self, Option.some_inj]
    by_cases hb : b = a
    · rw [hb, Function.update_self]
      exact iff_of_true rfl rfl
    · rw [Function.update_of_ne hb, ← h]
      exact iff_of_false (Ne.symm hb) fun hfk => hb (hk b hfk)
  · rw [Function.update_of_ne hl]
    by_cases hb : b = a
    · rw [hb, Function.update_self, Option.some_inj]
      exact iff_of_false (fun hfl => hl (ha l hfl)) (Ne.symm hl)
    · rw [Function.update_of_ne hb]
      exact h l b

/-- A key that gets another value leaves its old one behind. -/
theorem InverseMaps.not_update (h : InverseMaps f g) {b : α} (hk : f k = some b) (hb : b ≠ a) :
    ¬ InverseMaps (Function.update f k (some a)) (Function.update g a (some k)) := by
  intro hupdate
  have hstale := (hupdate k b).mpr (by rw [Function.update_of_ne hb]; exact (h k b).mp hk)
  rw [Function.update_self] at hstale
  exact hb (Option.some.inj hstale).symm

end

/-! ### The functions -/

/-- `hostdb_t`. -/
structure HostdbRec where
  primaryHostname : List UInt8
  primaryIpaddr : UInt32
  osType : ℤ
  timezone : ℤ
  accessMethods : List UInt8
  flags : ℕ
  deriving DecidableEq, Repr

/-- `hostbyaddr_t`. -/
structure HostbyaddrRec where
  primaryIpaddr : UInt32
  primaryHostname : List UInt8
  deriving DecidableEq, Repr

/-- `host_status_t`, as far as `update_hostdb` and the lookup of an address return it. -/
inductive HostdbStatus
  | hostOk
  | hostUpdateFail
  | hostPaddrFail
  | hostPaddrExists
  deriving DecidableEq, Repr

/-- The two files. -/
structure HostDbs where
  hostdb : AuxDb HostdbRec
  hostbyaddr : AuxDb HostbyaddrRec

/-- A name with its NUL, as a key. -/
def nameKey (name : List UInt8) : List UInt8 := name ++ [0]

/-- The four bytes of an address, as a key. -/
def addrKey (addr : UInt32) : List UInt8 :=
  [UInt8.ofNat addr.toNat, UInt8.ofNat (addr.toNat / 256), UInt8.ofNat (addr.toNat / 65536),
    UInt8.ofNat (addr.toNat / 16777216)]

/-- `update_hostdb`: only `TRUE` is taken for a replacement by `put_dbm_entry`. -/
def updateHostdb (dbs : HostDbs) (hostdbRec : HostdbRec) (replace : ℤ) : HostdbStatus × HostDbs :=
  match AuxDb.putDbmEntry (nameKey hostdbRec.primaryHostname) hostdbRec dbs.hostdb
    (replace == 1) with
  | (.error, hostdb) => (.hostUpdateFail, { dbs with hostdb })
  | (.aOk, hostdb) =>
    let hostaddrRec : HostbyaddrRec := ⟨hostdbRec.primaryIpaddr, hostdbRec.primaryHostname⟩
    match AuxDb.putDbmEntry (addrKey hostdbRec.primaryIpaddr) hostaddrRec dbs.hostbyaddr
      (replace == 1) with
    | (.error, hostbyaddr) => (.hostPaddrFail, ⟨hostdb, hostbyaddr⟩)
    | (.aOk, hostbyaddr) => (.hostOk, ⟨hostdb, hostbyaddr⟩)

/-- The end of `check_new_hentry`: an address that is in the cache is that of another record. -/
def checkPaddr (dbs : HostDbs) (hostdbEntry : HostdbRec) : HostdbStatus × HostdbRec :=
  match AuxDb.getDbmEntry (addrKey hostdbEntry.primaryIpaddr) dbs.hostbyaddr with
  | some hbyaddr =>
    (.hostPaddrExists, (AuxDb.getDbmEntry
      (nameKey hbyaddr.primaryHostname) dbs.hostdb).getD hostdbEntry)
  | none => (.hostOk, hostdbEntry)

/-! ### What the files say -/

theorem nameKey_inj {m n : List UInt8} : nameKey m = nameKey n ↔ m = n := List.append_left_inj [0]

theorem addrKey_inj {a b : UInt32} : addrKey a = addrKey b ↔ a = b := by
  constructor
  · intro h
    simp only [addrKey, List.cons.injEq, and_true] at h
    obtain ⟨h₀, h₁, h₂, h₃⟩ := h
    have hbyte {m n : ℕ} (h : UInt8.ofNat m = UInt8.ofNat n) : m % 256 = n % 256 := by
      simpa using congrArg UInt8.toNat h
    have ha := a.toNat_lt
    have hb := b.toNat_lt
    have h₀ := hbyte h₀
    have h₁ := hbyte h₁
    have h₂ := hbyte h₂
    have h₃ := hbyte h₃
    exact UInt32.toNat_inj.mp (by omega)
  · rintro rfl
    rfl

/-- The address of a host. -/
def HostDbs.addrOf (dbs : HostDbs) (name : List UInt8) : Option UInt32 :=
  (dbs.hostdb (nameKey name)).map HostdbRec.primaryIpaddr

/-- The host that the cache has for an address. -/
def HostDbs.hostOf (dbs : HostDbs) (addr : UInt32) : Option (List UInt8) :=
  (dbs.hostbyaddr (addrKey addr)).map HostbyaddrRec.primaryHostname

/-- Every address in the cache is that of the host it stands for, and every host is found under
its own address. -/
structure HostDbs.Consistent (dbs : HostDbs) : Prop where
  cache : ∀ addr hbyaddr, dbs.hostbyaddr (addrKey addr) = some hbyaddr →
    ∃ rec, dbs.hostdb (nameKey hbyaddr.primaryHostname) = some rec ∧ rec.primaryIpaddr = addr
  hosts : ∀ name rec, dbs.hostdb (nameKey name) = some rec →
    ∃ hbyaddr, dbs.hostbyaddr (addrKey rec.primaryIpaddr) = some hbyaddr ∧
      hbyaddr.primaryHostname = name

/-- No two hosts have the same address. -/
def HostDbs.Distinct (dbs : HostDbs) : Prop :=
  ∀ m n addr, dbs.addrOf m = some addr → dbs.addrOf n = some addr → m = n

theorem consistent_iff {dbs : HostDbs} : dbs.Consistent ↔ InverseMaps dbs.addrOf dbs.hostOf := by
  constructor
  · intro h name addr
    rw [HostDbs.addrOf, HostDbs.hostOf, Option.map_eq_some_iff, Option.map_eq_some_iff]
    constructor
    · rintro ⟨rec, hrec, rfl⟩
      exact h.hosts name rec hrec
    · rintro ⟨hbyaddr, hhb, rfl⟩
      exact h.cache addr hbyaddr hhb
  · intro h
    constructor
    case cache =>
      intro addr hbyaddr hhb
      have hhost := (h hbyaddr.primaryHostname addr).mpr (by rw [HostDbs.hostOf, hhb]; rfl)
      exact Option.map_eq_some_iff.mp hhost
    case hosts =>
      intro name rec hrec
      have haddr := (h name rec.primaryIpaddr).mp (by rw [HostDbs.addrOf, hrec]; rfl)
      exact Option.map_eq_some_iff.mp haddr

/-- In consistent files the lookup of an address gives the record of its host. -/
theorem checkPaddr_of_consistent {dbs : HostDbs} (h : dbs.Consistent) (hostdbEntry : HostdbRec) :
    (checkPaddr dbs hostdbEntry = (.hostOk, hostdbEntry) ∧
      ∀ name, dbs.addrOf name ≠ some hostdbEntry.primaryIpaddr) ∨
    ∃ name rec, dbs.hostdb (nameKey name) = some rec ∧
      rec.primaryIpaddr = hostdbEntry.primaryIpaddr ∧
      checkPaddr dbs hostdbEntry = (.hostPaddrExists, rec) := by
  cases hhb : dbs.hostbyaddr (addrKey hostdbEntry.primaryIpaddr) with
  | none =>
    refine Or.inl ⟨by rw [checkPaddr, AuxDb.getDbmEntry, hhb], fun name hname => ?_⟩
    rw [consistent_iff.mp h, HostDbs.hostOf, hhb] at hname
    exact Option.some_ne_none _ hname.symm
  | some hbyaddr =>
    obtain ⟨rec, hrec, haddr⟩ := h.cache _ _ hhb
    refine Or.inr ⟨_, rec, hrec, haddr, ?_⟩
    rw [checkPaddr, AuxDb.getDbmEntry, hhb]
    dsimp only
    rw [AuxDb.getDbmEntry, hrec, Option.getD_some]

/-! ### An update -/

/-- What is written of a record. -/
def HostDbs.putHost (dbs : HostDbs) (hostdbRec : HostdbRec) : HostDbs :=
  { dbs with hostdb := Function.update dbs.hostdb (nameKey hostdbRec.primaryHostname) (some hostdbRec) }

def HostDbs.putAddr (dbs : HostDbs) (hostdbRec : HostdbRec) : HostDbs :=
  { dbs with
    hostbyaddr := Function.update dbs.hostbyaddr (addrKey hostdbRec.primaryIpaddr)
      (some ⟨hostdbRec.primaryIpaddr, hostdbRec.primaryHostname⟩) }

theorem addrOf_putHost (dbs : HostDbs) (hostdbRec : HostdbRec) :
    (dbs.putHost hostdbRec).addrOf =
      Function.update dbs.addrOf hostdbRec.primaryHostname (some hostdbRec.primaryIpaddr) := by
  funext name
  rw [HostDbs.addrOf, HostDbs.putHost]
  dsimp only
  by_cases hname : name = hostdbRec.primaryHostname
  · rw [hname, Function.update_self, Function.update_self, Option.map_some]
  · rw [Function.update_of_ne hname, Function.update_of_ne (mt nameKey_inj.mp hname),
      HostDbs.addrOf]

theorem hostOf_putAddr (dbs : HostDbs) (hostdbRec : HostdbRec) :
    (dbs.putAddr hostdbRec).hostOf =
      Function.update dbs.hostOf hostdbRec.primaryIpaddr (some hostdbRec.primaryHostname) := by
  funext addr
  rw [HostDbs.hostOf, HostDbs.putAddr]
  dsimp only
  by_cases haddr : addr = hostdbRec.primaryIpaddr
  · rw [haddr, Function.update_self, Function.update_self, Option.map_some]
  · rw [Function.update_of_ne haddr, Function.update_of_ne (mt addrKey_inj.mp haddr),
      HostDbs.hostOf]

theorem addrOf_putAddr (dbs : HostDbs) (hostdbRec : HostdbRec) :
    (dbs.putAddr hostdbRec).addrOf = dbs.addrOf := rfl

theorem hostOf_putHost (dbs : HostDbs) (hostdbRec : HostdbRec) :
    (dbs.putHost hostdbRec).hostOf = dbs.hostOf := rfl

/-- **All that an update can do**: nothing, where the host is there already; to write the host
alone, where its address is in the cache; or to write both. -/
theorem updateHostdb_cases (dbs : HostDbs) (hostdbRec : HostdbRec) (replace : ℤ) :
    (replace ≠ 1 ∧ dbs.addrOf hostdbRec.primaryHostname ≠ none ∧
      updateHostdb dbs hostdbRec replace = (.hostUpdateFail, dbs)) ∨
    (replace ≠ 1 ∧ dbs.addrOf hostdbRec.primaryHostname = none ∧
      dbs.hostOf hostdbRec.primaryIpaddr ≠ none ∧
      updateHostdb dbs hostdbRec replace = (.hostPaddrFail, dbs.putHost hostdbRec)) ∨
    ((replace = 1 ∨ dbs.addrOf hostdbRec.primaryHostname = none) ∧
      updateHostdb dbs hostdbRec replace =
        (.hostOk, (dbs.putHost hostdbRec).putAddr hostdbRec)) := by
  by_cases hreplace : replace = 1
  · refine Or.inr (Or.inr ⟨Or.inl hreplace, ?_⟩)
    rw [updateHostdb, hreplace]
    rfl
  · have hbeq : (replace == 1) = false := by simpa using hreplace
    cases hhost : dbs.hostdb (nameKey hostdbRec.primaryHostname) with
    | some rec =>
      refine Or.inl ⟨hreplace, by simp [HostDbs.addrOf, hhost], ?_⟩
      simp only [updateHostdb, AuxDb.putDbmEntry, hbeq, hhost, Option.isSome_some, and_self,
        if_true]
    | none =>
      have hnone : dbs.addrOf hostdbRec.primaryHostname =
          none := by rw [HostDbs.addrOf, hhost, Option.map_none]
      cases haddr : dbs.hostbyaddr (addrKey hostdbRec.primaryIpaddr) with
      | some hbyaddr =>
        refine Or.inr (Or.inl ⟨hreplace, hnone, by simp [HostDbs.hostOf, haddr], ?_⟩)
        simp [updateHostdb, AuxDb.putDbmEntry, hbeq, hhost, haddr, HostDbs.putHost]
      | none =>
        refine Or.inr (Or.inr ⟨Or.inr hnone, ?_⟩)
        simp [updateHostdb, AuxDb.putDbmEntry, hbeq, hhost, haddr, HostDbs.putHost, HostDbs.putAddr]

/-! ### Runs -/

/-- A call of `update_hostdb`. -/
structure HostdbCall where
  hostdbRec : HostdbRec
  replace : ℤ

/-- What a call leaves. -/
def HostdbCall.run (dbs : HostDbs) (c : HostdbCall) : HostDbs :=
  (updateHostdb dbs c.hostdbRec c.replace).2

def emptyHostDbs : HostDbs := ⟨fun _ => none, fun _ => none⟩

/-- The files after some calls. -/
def runHostdb (calls : List HostdbCall) : HostDbs := calls.foldl HostdbCall.run emptyHostDbs

/-- A call that replaces the record of a host by one with another address. -/
def HostdbCall.Moves (dbs : HostDbs) (c : HostdbCall) : Prop :=
  c.replace = 1 ∧ ∃ addr, dbs.addrOf c.hostdbRec.primaryHostname = some addr ∧
    addr ≠ c.hostdbRec.primaryIpaddr

/-- What is claimed of a run: the files say the same all the time, and a call that fails does
nothing. -/
structure HostdbKept (calls : List HostdbCall) : Prop where
  consistent : ∀ pre, pre <+: calls → (runHostdb pre).Consistent
  unchanged : ∀ pre c, pre ++ [c] <+: calls →
    (updateHostdb (runHostdb pre) c.hostdbRec c.replace).1 ≠ .hostOk →
      runHostdb (pre ++ [c]) = runHostdb pre

theorem runHostdb_concat (pre : List HostdbCall) (c : HostdbCall) :
    runHostdb (pre ++ [c]) = c.run (runHostdb pre) := by
  rw [runHostdb, List.foldl_append]
  rfl

section

variable {dbs : HostDbs} {c : HostdbCall}

/-- The host whose address is written has it alone, if no two have the same one afterwards. -/
theorem HostDbs.Distinct.eq_of_putHost (h : (dbs.putHost c.hostdbRec).Distinct) {name : List UInt8}
    (hname : dbs.addrOf name = some c.hostdbRec.primaryIpaddr) :
    name = c.hostdbRec.primaryHostname := by
  by_contra hne
  refine hne (h _ _ c.hostdbRec.primaryIpaddr ?_ ?_)
  · rw [addrOf_putHost, Function.update_of_ne hne, hname]
  · rw [addrOf_putHost, Function.update_self]

/-- **A call** that moves no host keeps the files consistent, and does nothing if it fails. -/
theorem HostdbCall.run_spec (h : dbs.Consistent) (hdistinct : (c.run dbs).Distinct)
    (hmoves : ¬ c.Moves dbs) :
    (c.run dbs).Consistent ∧
      ((updateHostdb dbs c.hostdbRec c.replace).1 ≠ .hostOk → c.run dbs = dbs) := by
  rw [consistent_iff] at h ⊢
  rw [HostdbCall.run] at hdistinct ⊢
  rcases updateHostdb_cases dbs c.hostdbRec c.replace with ⟨-, -, hrun⟩ | ⟨-, hhost, haddr, hrun⟩ |
    ⟨hwhy, hrun⟩
  · rw [hrun]
    exact ⟨h, fun _ => rfl⟩
  · -- The host in the cache would have the same address as the new one.
    rw [hrun] at hdistinct
    obtain ⟨name, hname⟩ := Option.ne_none_iff_exists'.mp haddr
    have hother := (h _ _).mpr hname
    have heq := hdistinct.eq_of_putHost hother
    rw [heq, hhost] at hother
    exact absurd hother.symm (Option.some_ne_none _)
  · rw [hrun] at hdistinct ⊢
    refine ⟨?_, fun hne => absurd rfl hne⟩
    show InverseMaps (dbs.putHost c.hostdbRec).addrOf
        ((dbs.putHost c.hostdbRec).putAddr c.hostdbRec).hostOf
    rw [addrOf_putHost, hostOf_putAddr, hostOf_putHost]
    refine h.update (fun addr hk => ?_) fun name hname => ?_
    · rcases hwhy with hreplace | hnone
      · by_contra hne
        exact hmoves ⟨hreplace, addr, hk, hne⟩
      · exact absurd (hnone.symm.trans hk).symm (Option.some_ne_none _)
    · exact HostDbs.Distinct.eq_of_putHost (c := c) (fun m n a hm hn => hdistinct m n a hm hn) hname

/-- A call that moves a host leaves its old address in the cache. -/
theorem HostdbCall.Moves.not_consistent (h : dbs.Consistent) (hmoves : c.Moves dbs) :
    ¬ (c.run dbs).Consistent := by
  obtain ⟨hreplace, addr, haddr, hne⟩ := hmoves
  have hrun : c.run dbs = (dbs.putHost c.hostdbRec).putAddr c.hostdbRec := by
    rcases updateHostdb_cases dbs c.hostdbRec c.replace with ⟨hnot, -⟩ | ⟨hnot, -⟩ | ⟨-, hrun⟩
    · exact absurd hreplace hnot
    · exact absurd hreplace hnot
    · rw [HostdbCall.run, hrun]
  rw [consistent_iff, hrun]
  show ¬ InverseMaps (dbs.putHost c.hostdbRec).addrOf
      ((dbs.putHost c.hostdbRec).putAddr c.hostdbRec).hostOf
  rw [addrOf_putHost, hostOf_putAddr, hostOf_putHost]
  exact (consistent_iff.mp h).not_update haddr hne

end

theorem consistent_empty : emptyHostDbs.Consistent :=
  ⟨fun _ _ h => absurd h.symm (Option.some_ne_none _),
    fun _ _ h => absurd h.symm (Option.some_ne_none _)⟩

/-- **The host database and its address cache** say the same throughout a run in which no two
hosts have the same address exactly if no call moves a host. -/
theorem hostdbKept_iff {calls : List HostdbCall}
    (hdistinct : ∀ pre, pre <+: calls → (runHostdb pre).Distinct) :
    HostdbKept calls ↔ ∀ pre c, pre ++ [c] <+: calls → ¬ c.Moves (runHostdb pre) := by
  constructor
  · intro h pre c hpre hmoves
    have hbefore := h.consistent pre ((List.prefix_append pre [c]).trans hpre)
    exact hmoves.not_consistent hbefore (runHostdb_concat pre c ▸ h.consistent _ hpre)
  · intro h
    have hconsistent : ∀ pre, pre <+: calls → (runHostdb pre).Consistent := by
      intro pre
      induction pre using List.reverseRecOn with
      | nil =>
        intro _
        exact consistent_empty
      | append_singleton pre c ih =>
        intro hpre
        have hbefore := ih ((List.prefix_append pre [c]).trans hpre)
        have hafter := hdistinct _ hpre
        rw [runHostdb_concat] at hafter ⊢
        exact (HostdbCall.run_spec hbefore hafter (h pre c hpre)).1
    refine ⟨hconsistent, fun pre c hpre hstatus => ?_⟩
    have hafter := hdistinct _ hpre
    rw [runHostdb_concat] at hafter ⊢
    have hbefore := hconsistent pre ((List.prefix_append pre [c]).trans hpre)
    exact (HostdbCall.run_spec hbefore hafter (h pre c hpre)).2 hstatus

/-- The addresses after a call. -/
theorem addrOf_run (dbs : HostDbs) (c : HostdbCall) :
    (c.run dbs).addrOf = if c.replace = 1 ∨ dbs.addrOf c.hostdbRec.primaryHostname = none then
      Function.update dbs.addrOf c.hostdbRec.primaryHostname (some c.hostdbRec.primaryIpaddr)
        else dbs.addrOf := by
  rw [HostdbCall.run]
  rcases updateHostdb_cases dbs c.hostdbRec c.replace with ⟨hreplace, hhost, hrun⟩ |
    ⟨-, hhost, -, hrun⟩ | ⟨hwhy, hrun⟩
  · rw [hrun, if_neg (not_or.mpr ⟨hreplace, hhost⟩)]
  · rw [hrun, if_pos (Or.inr hhost), addrOf_putHost]
  · rw [hrun, if_pos hwhy, addrOf_putAddr, addrOf_putHost]

/-- An address comes from a call. -/
theorem mem_of_addrOf_runHostdb {calls : List HostdbCall} {name : List UInt8} {addr : UInt32}
    (h : (runHostdb calls).addrOf name = some addr) :
    ∃ c ∈ calls, c.hostdbRec.primaryHostname = name ∧ c.hostdbRec.primaryIpaddr = addr := by
  induction calls using List.reverseRecOn with
  | nil => exact absurd h.symm (Option.some_ne_none _)
  | append_singleton calls c ih =>
    have hold (h : (runHostdb calls).addrOf name = some addr) :
        ∃ d ∈ calls ++ [c], d.hostdbRec.primaryHostname = name ∧
          d.hostdbRec.primaryIpaddr = addr := by
      obtain ⟨d, hd, hname⟩ := ih h
      exact ⟨d, List.mem_append_left _ hd, hname⟩
    rw [runHostdb_concat, addrOf_run] at h
    split at h
    next =>
      by_cases hname : name = c.hostdbRec.primaryHostname
      · rw [hname, Function.update_self] at h
        exact ⟨c, List.mem_append_right _ (List.mem_singleton_self c), hname.symm,
          Option.some.inj h⟩
      · rw [Function.update_of_ne hname] at h
        exact hold h
    next => exact hold h

/-- If no two calls give the same address to different hosts, no two hosts ever have the same. -/
theorem distinct_of_calls {calls : List HostdbCall}
    (h : ∀ c ∈ calls, ∀ d ∈ calls, c.hostdbRec.primaryIpaddr = d.hostdbRec.primaryIpaddr →
      c.hostdbRec.primaryHostname = d.hostdbRec.primaryHostname) :
    ∀ pre, pre <+: calls → (runHostdb pre).Distinct := by
  intro pre hpre m n addr hm hn
  obtain ⟨c, hc, rfl, hca⟩ := mem_of_addrOf_runHostdb hm
  obtain ⟨d, hd, rfl, hda⟩ := mem_of_addrOf_runHostdb hn
  exact h c (hpre.subset hc) d (hpre.subset hd) (hca.trans hda.symm)

/-! ### Two hosts -/

def sampleHost (name : String) (addr : UInt32) : HostdbRec := ⟨bytes name, addr, 0, 0, bytes "anonftp", 0⟩

/-- Two hosts are inserted, one of them once more without and with `replace`. -/
def sampleCalls : List HostdbCall :=
  [⟨sampleHost "a" 1, 0⟩, ⟨sampleHost "b" 2, 0⟩, ⟨sampleHost "a" 1, 0⟩, ⟨sampleHost "a" 1, 1⟩]

/-- A host that is given another address. -/
def movedCalls : List HostdbCall := [⟨sampleHost "a" 1, 0⟩, ⟨sampleHost "a" 2, 1⟩]

theorem distinct_sampleCalls : ∀ pre, pre <+: sampleCalls → (runHostdb pre).Distinct :=
  distinct_of_calls (by decide +kernel)

theorem hostdbKept_sample : HostdbKept sampleCalls := by
  refine (hostdbKept_iff distinct_sampleCalls).mpr ?_
  rintro pre c hpre ⟨-, addr, haddr, hne⟩
  -- The calls give a host the same address each time.
  obtain ⟨d, hd, hname, rfl⟩ := mem_of_addrOf_runHostdb haddr
  have hd := hpre.subset (List.mem_append_left [c] hd)
  have hc := hpre.subset (List.mem_append_right pre (List.mem_singleton_self c))
  have hsame : ∀ c ∈ sampleCalls, ∀ d ∈ sampleCalls,
      d.hostdbRec.primaryHostname = c.hostdbRec.primaryHostname →
        d.hostdbRec.primaryIpaddr = c.hostdbRec.primaryIpaddr := by decide +kernel
  exact hne (hsame c hc d hd hname)

/-- After the host has been given another address, the old one is still in the cache. -/
theorem not_hostdbKept :
    ¬ ∀ calls : List HostdbCall, (∀ pre, pre <+: calls → (runHostdb pre).Distinct) →
      HostdbKept calls := by
  intro h
  have hkept := h movedCalls (distinct_of_calls (by decide +kernel))
  obtain ⟨rec, hrec, haddr⟩ := (hkept.consistent movedCalls (List.prefix_refl _)).cache 1 ⟨1, bytes "a"⟩
    (by decide +kernel)
  have hnew : (runHostdb movedCalls).hostdb (nameKey (bytes "a")) = some (sampleHost "a" 2) := by decide +kernel
  obtain rfl := Option.some.inj (hnew.symm.trans hrec)
  exact absurd haddr (by decide)

end Archie
