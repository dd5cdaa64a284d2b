/-
The host table (`startdb/host_table.c`): the hosts that have an index, and what it
stands for.

An entry without an address is free.  A host is looked up by its address or its name,
in the order of the table, and both have to tell it apart from the others.

* `HostTable.put` — an entry that differs from all others keeps the hosts of a table apart.
* `HostTable.find` — any way of looking a host up finds its entry.
* `hostTable_calls` — over any calls of the table the hosts stay apart and keep their
  indices, as long as no replacement gives a host the address of another one.
-/
import Archie.StartDb

namespace Archie

/-! ### The operations -/

/-- An index as a `host_table_index_t` keeps it, a `short`. -/
def hostIndex (i : ℤ) : ℤ := Int.bmod i 65536

/-- The arguments of `host_table_find`, as it leaves them. -/
structure HostFound where
  ipaddr : ℕ
  hostname : List UInt8
  port : ℤ
  index : ℤ
  deriving DecidableEq, Repr

/-- The arguments say which host is meant. -/
def HostTold (ipaddr : ℕ) (hostname : List UInt8) (port : ℤ) : Prop :=
  0 < port ∧ (ipaddr ≠ 0 ∨ hostname ≠ [])

instance (ipaddr : ℕ) (hostname : List UInt8) (port : ℤ) :
    Decidable (HostTold ipaddr hostname port) :=
  inferInstanceAs (Decidable (_ ∧ _))

/-- `host_table_find`, with all that it returns. -/
def hostTableFindArgs (table : List HostTableEntry) (ipaddr : ℕ) (hostname : List UInt8)
    (port index : ℤ) :
    Option HostFound :=
  if HostTold ipaddr hostname port then
    (hostTableFind table ipaddr hostname port index).map fun i =>
      ⟨ipaddr, hostname, port, hostIndex i⟩
  else do
    let i ← hostTableFind table ipaddr hostname port index
    let e ← table[i.toNat]?
    some ⟨e.ipaddr, e.hostname, e.port, index⟩

/-- `host_table_add`: the table, and the index that is returned. -/
def hostTableAdd (table : List HostTableEntry) (ipaddr : ℕ) (hostname : List UInt8)
    (port index : ℤ) :
    List HostTableEntry × ℤ :=
  match hostTableFind table ipaddr hostname port index with
  | some i => (table, hostIndex i)
  | none =>
    let i := table.findIdx fun e => e.ipaddr == 0
    (if i < table.length then table.set i ⟨ipaddr, hostname, port⟩
      else table ++ [⟨ipaddr, hostname, port⟩],
      hostIndex i)

/-- `host_table_replace`; `none` is `ERROR`.  The index `ind` is not set before the host is
looked up.  A negative one would lie outside the table. -/
def hostTableReplace (table : List HostTableEntry) (ind : ℤ) (oldIpaddr newIpaddr : ℕ)
    (hostname : List UInt8) (port : ℤ) : Option (List HostTableEntry) := do
  let found ← hostTableFindArgs table oldIpaddr hostname port ind
  if found.index < 0 then none
  else
    let e ← table[found.index.toNat]?
    if e.ipaddr ≠ found.ipaddr ∨ e.hostname ≠ found.hostname then none
    else some (table.set found.index.toNat { e with ipaddr := newIpaddr })

/-- `host_table_del`. -/
def hostTableDel (table : List HostTableEntry) (index : ℤ) : List HostTableEntry :=
  table.set index.toNat ⟨0, [], 0⟩

/-! ### Hosts that differ -/

namespace HostTableEntry

/-- The entry is not free. -/
def Live (e : HostTableEntry) : Prop := e.ipaddr ≠ 0

instance (e : HostTableEntry) : Decidable e.Live := inferInstanceAs (Decidable (_ ≠ _))

/-- A host has a name and a port, a free entry has none. -/
def WellFormed (e : HostTableEntry) : Prop :=
  if e.ipaddr = 0 then e.hostname = [] ∧ e.port = 0 else e.hostname ≠ [] ∧ 0 < e.port

/-- Two hosts that cannot be told apart, by their address or by their name. -/
def Same (e e' : HostTableEntry) : Prop :=
  e.port = e'.port ∧ (e.ipaddr = e'.ipaddr ∨ strcasecmpEq e.hostname e'.hostname = true)

theorem WellFormed.live_of_port {e : HostTableEntry} (h : e.WellFormed) (hport : 0 < e.port) :
    e.Live := by
  intro hip
  rw [WellFormed, if_pos hip] at h
  omega

theorem WellFormed.of_live {e : HostTableEntry} (h : e.WellFormed) (hlive : e.Live) :
    e.hostname ≠ [] ∧ 0 < e.port := by
  rwa [WellFormed, if_neg hlive] at h

end HostTableEntry

/-- Distinct hosts of a table differ in their address or port, and in their name or port. -/
def HostsDiffer (table : List HostTableEntry) : Prop :=
  ∀ (i j : ℕ) (e e' : HostTableEntry), table[i]? = some e → table[j]? = some e' → e.Live → e'.Live →
    e.Same e' → i = j

/-- A table as the calls keep it. -/
structure HostTable (table : List HostTableEntry) : Prop where
  wellFormed : ∀ e ∈ table, e.WellFormed
  differ : HostsDiffer table
  bound : table.length ≤ 32768

theorem hostIndex_eq {i : ℤ} (h0 : 0 ≤ i) (h1 : i < 32768) : hostIndex i = i := by
  rw [hostIndex, Int.bmod_def]
  omega

theorem hostTable_nil : HostTable [] where
  wellFormed := by simp
  differ := by
    intro i j e e' hi
    simp at hi
  bound := by simp

/-! ### Looking a host up -/

variable {table : List HostTableEntry}

theorem hostTableIndex_some {p : HostTableEntry → Bool} {i : ℤ}
    (h : hostTableIndex table p = some i) :
    ∃ (k : ℕ) (e : HostTableEntry), i = k ∧ table[k]? = some e ∧ p e = true := by
  unfold hostTableIndex at h
  dsimp only at h
  split at h
  next hlt =>
    refine ⟨table.findIdx p, table[table.findIdx p], (Option.some.inj h).symm,
      List.getElem?_eq_getElem hlt, ?_⟩
    exact List.findIdx_getElem
  next => simp at h

theorem hostTableIndex_none {p : HostTableEntry → Bool} (h : hostTableIndex table p = none) :
    ∀ e ∈ table, p e = false := by
  unfold hostTableIndex at h
  dsimp only at h
  split at h
  next => simp at h
  next hge =>
    intro e he
    by_contra hp
    exact hge (List.findIdx_lt_length_of_exists ⟨e, he, by simpa using hp⟩)

/-- The only entry with a property is found. -/
theorem hostTableIndex_unique {p : HostTableEntry → Bool} {k : ℕ} {e : HostTableEntry}
    (he : table[k]? = some e) (hp : p e = true)
    (hunique : ∀ j e', table[j]? = some e' → p e' = true → j = k) :
    hostTableIndex table p = some (k : ℤ) := by
  cases hi : hostTableIndex table p with
  | none =>
    have hno := hostTableIndex_none hi e (List.mem_of_getElem? he)
    rw [hp] at hno
    exact absurd hno (by simp)
  | some i =>
    obtain ⟨j, e', rfl, he', hp'⟩ := hostTableIndex_some hi
    rw [hunique j e' he' hp']

/-- The entry is the host that the arguments tell. -/
def HostTableEntry.Is (e : HostTableEntry) (ipaddr : ℕ) (hostname : List UInt8) (port : ℤ) : Prop :=
  e.port = port ∧ (ipaddr ≠ 0 ∧ e.ipaddr = ipaddr ∨ hostname ≠ [] ∧
    strcasecmpEq e.hostname hostname = true)

/-- A host that is told is looked up in the order of the table. -/
theorem hostTableFind_told {ipaddr : ℕ} {hostname : List UInt8} {port : ℤ}
    (h : HostTold ipaddr hostname port) (index : ℤ) : ∃ p : HostTableEntry → Bool,
      hostTableFind table ipaddr hostname port index = hostTableIndex table p ∧
      ∀ e, p e = true ↔ e.Is ipaddr hostname port := by
  obtain ⟨hport, htold⟩ := h
  rw [hostTableFind]
  by_cases hip : ipaddr = 0
  · have hname := htold.resolve_left (not_not.mpr hip)
    rw [if_neg (fun hc => hc.1 hip), if_neg (fun hc => hc.1 hip), if_pos ⟨hname, hport⟩]
    refine ⟨_, rfl, ?_⟩
    intro e
    simp only [Bool.and_eq_true, beq_iff_eq, HostTableEntry.Is, hip]
    tauto
  · by_cases hname : hostname = []
    · rw [if_neg (fun hc => hc.2.1 hname), if_pos ⟨hip, hport⟩]
      refine ⟨_, rfl, ?_⟩
      intro e
      simp only [Bool.and_eq_true, beq_iff_eq, HostTableEntry.Is, hname]
      tauto
    · rw [if_pos ⟨hip, hname, hport⟩]
      refine ⟨_, rfl, ?_⟩
      intro e
      simp only [Bool.or_eq_true, Bool.and_eq_true, beq_iff_eq, HostTableEntry.Is]
      tauto

/-- Two hosts that the arguments tell are the same. -/
theorem HostTableEntry.Is.same {e e' : HostTableEntry} {ipaddr : ℕ} {hostname : List UInt8}
    {port : ℤ}
    (h' : e'.Is ipaddr hostname port) (hport : e.port = port)
    (hip : ipaddr ≠ 0 → e.ipaddr = ipaddr)
    (hname : hostname ≠ [] → strcasecmpEq e.hostname hostname = true) : e.Same e' := by
  obtain ⟨hport', hkey⟩ := h'
  refine ⟨hport.trans hport'.symm, ?_⟩
  rcases hkey with ⟨hne, heq⟩ | ⟨hne, heq⟩
  · exact Or.inl ((hip hne).trans heq.symm)
  · exact Or.inr (strcasecmpEq_iff.mpr
      ((strcasecmpEq_iff.mp (hname hne)).trans (strcasecmpEq_iff.mp heq).symm))

namespace HostTable

/-- **Looking a host up** by its address, by its name or by both finds its entry. -/
theorem find (h : HostTable table) {k : ℕ} {e : HostTableEntry} (he : table[k]? = some e)
    (hlive : e.Live)
    {ipaddr : ℕ} {hostname : List UInt8} (htold : ipaddr ≠ 0 ∨ hostname ≠ [])
    (hip : ipaddr ≠ 0 → e.ipaddr = ipaddr)
    (hname : hostname ≠ [] → strcasecmpEq e.hostname hostname = true) (index : ℤ) :
    hostTableFindArgs table ipaddr hostname e.port index = some ⟨ipaddr, hostname, e.port, k⟩ := by
  have hport := ((h.wellFormed e (List.mem_of_getElem? he)).of_live hlive).2
  have hk : (k : ℤ) < 32768 := by
    have hlt := (List.getElem?_eq_some_iff.mp he).1
    have hbound := h.bound
    omega
  obtain ⟨p, hfind, hp⟩ := @hostTableFind_told table ipaddr hostname e.port ⟨hport, htold⟩ index
  have hfound : hostTableIndex table p = some (k : ℤ) := by
    refine hostTableIndex_unique he ?_ ?_
    · rw [hp]
      refine ⟨rfl, ?_⟩
      rcases htold with hne | hne
      · exact Or.inl ⟨hne, hip hne⟩
      · exact Or.inr ⟨hne, hname hne⟩
    · intro j e' he' hpe'
      have his := (hp e').mp hpe'
      have hlive' := (h.wellFormed e' (List.mem_of_getElem? he')).live_of_port
          (by rw [his.1]; exact hport)
      exact (h.differ k j e e' he he' hlive hlive' (his.same rfl hip hname)).symm
  rw [hostTableFindArgs, if_pos ⟨hport, htold⟩, hfind, hfound, Option.map_some,
    hostIndex_eq (by omega) hk]

/-- An index gives the entry. -/
theorem find_index {k : ℕ} {e : HostTableEntry} (he : table[k]? = some e) (port : ℤ) :
    hostTableFindArgs table 0 [] port k = some ⟨e.ipaddr, e.hostname, e.port, k⟩ := by
  have hlt := (List.getElem?_eq_some_iff.mp he).1
  have hnot : ¬ HostTold 0 [] port := by simp [HostTold]
  have hfind : hostTableFind table 0 [] port k = some (k : ℤ) := by
    rw [hostTableFind]
    simp [hlt]
  rw [hostTableFindArgs, if_neg hnot, hfind]
  simp [he]

/-! ### Changing an entry -/

/-- **An entry that differs** from all others may be put anywhere. -/
theorem put (h : HostTable table) {table' : List HostTableEntry} {i : ℕ} {x : HostTableEntry}
    (hlen : table'.length ≤ 32768)
    (hget : ∀ j e, table'[j]? = some e → j = i ∧ e = x ∨ j ≠ i ∧ table[j]? = some e)
    (hwf : x.WellFormed)
    (hdiffer : x.Live → ∀ j e, j ≠ i → table[j]? = some e → e.Live → ¬ e.Same x) :
    HostTable table' where
  wellFormed := by
    intro e he
    obtain ⟨j, hj⟩ := List.mem_iff_getElem?.mp he
    rcases hget j e hj with ⟨-, rfl⟩ | ⟨-, hj⟩
    · exact hwf
    · exact h.wellFormed e (List.mem_of_getElem? hj)
  differ := by
    intro j k e e' hj hk hlive hlive' hsame
    rcases hget j e hj with ⟨rfl, rfl⟩ | ⟨hji, hj⟩
    · rcases hget k e' hk with ⟨rfl, -⟩ | ⟨hki, hk⟩
      · rfl
      · -- `Same` is symmetric
        refine absurd ⟨hsame.1.symm, ?_⟩ (hdiffer hlive k e' hki hk hlive')
        rcases hsame.2 with hip | hname
        · exact Or.inl hip.symm
        · exact Or.inr (strcasecmpEq_iff.mpr (strcasecmpEq_iff.mp hname).symm)
    · rcases hget k e' hk with ⟨rfl, rfl⟩ | ⟨-, hk⟩
      · exact absurd hsame (hdiffer hlive' j e hji hj hlive)
      · exact h.differ j k e e' hj hk hlive hlive' hsame
  bound := hlen

theorem getElem?_set_cases {l : List HostTableEntry} {i j : ℕ} {x e : HostTableEntry}
    (h : (l.set i x)[j]? = some e) : j = i ∧ e = x ∨ j ≠ i ∧ l[j]? = some e := by
  by_cases hij : i = j
  · subst hij
    have hlt : i < l.length := by simpa using (List.getElem?_eq_some_iff.mp h).1
    rw [List.getElem?_set_self hlt] at h
    exact Or.inl ⟨rfl, (Option.some.inj h).symm⟩
  · rw [List.getElem?_set_ne hij] at h
    exact Or.inr ⟨fun hc => hij hc.symm, h⟩

theorem getElem?_append_cases {l : List HostTableEntry} {j : ℕ} {x e : HostTableEntry}
    (h : (l ++ [x])[j]? = some e) : j = l.length ∧ e = x ∨ j ≠ l.length ∧ l[j]? = some e := by
  rcases lt_trichotomy j l.length with hlt | rfl | hgt
  · rw [List.getElem?_append_left hlt] at h
    exact Or.inr ⟨hlt.ne, h⟩
  · rw [List.getElem?_concat_length] at h
    exact Or.inl ⟨rfl, (Option.some.inj h).symm⟩
  · rw [List.getElem?_eq_none (by rw [List.length_append, List.length_singleton]; omega)] at h
    simp at h

end HostTable

/-! ### Calls -/

/-- A call that changes the table.  `index` and `ind` are what the variables of the caller
have before a host is looked up. -/
inductive HostTableCall
  | add (ipaddr : ℕ) (hostname : List UInt8) (port index : ℤ)
  | replace (ind : ℤ) (oldIpaddr newIpaddr : ℕ) (hostname : List UInt8) (port : ℤ)
  | del (index : ℤ)
  deriving DecidableEq, Repr

/-- The table after a call. -/
def HostTableCall.run : HostTableCall → List HostTableEntry → List HostTableEntry
  | .add ipaddr hostname port index, table => (hostTableAdd table ipaddr hostname port index).1
  | .replace ind oldIpaddr newIpaddr hostname port, table =>
    (hostTableReplace table ind oldIpaddr newIpaddr hostname port).getD table
  | .del index, table => hostTableDel table index

/-- What is asked of a call.  There is room for a host that is added, an address that is
replaced is that of a host that is told, and the new one is not that of another host at the
port. -/
def HostTableCall.Ok : HostTableCall → List HostTableEntry → Prop
  | .add ipaddr hostname port index, table => ipaddr ≠ 0 ∧ hostname ≠ [] ∧ 0 < port ∧
    (table.length < 32768 ∨ (∃ e ∈ table, e.ipaddr = 0) ∨
      (hostTableFind table ipaddr hostname port index).isSome)
  | .replace _ oldIpaddr newIpaddr hostname port, table => HostTold oldIpaddr hostname port ∧
    (⟨oldIpaddr, hostname, port⟩ ∈ table → newIpaddr ≠ 0 ∧
      ∀ e ∈ table, e.ipaddr = newIpaddr → e.port = port → newIpaddr = oldIpaddr)
  | .del index, table => 0 ≤ index ∧ ∃ e, table[index.toNat]? = some e ∧ e.Live

/-- The table after some calls. -/
def runCalls : List HostTableCall → List HostTableEntry → List HostTableEntry
  | [], table => table
  | c :: calls, table => runCalls calls (c.run table)

/-- Each of the calls is as it should be. -/
def CallsOk : List HostTableCall → List HostTableEntry → Prop
  | [], _ => True
  | c :: calls, table => c.Ok table ∧ CallsOk calls (c.run table)

theorem callsOk_append {calls calls' : List HostTableCall} {table : List HostTableEntry} :
    CallsOk (calls ++ calls') table ↔ CallsOk calls table ∧
      CallsOk calls' (runCalls calls table) := by
  induction calls generalizing table with
  | nil => simp [CallsOk, runCalls]
  | cons c calls ih =>
    rw [List.cons_append, CallsOk, CallsOk, ih, and_assoc]
    rfl

/-- The entry under an index is as before, but for its address. -/
def KeepsHost (table table' : List HostTableEntry) (k : ℕ) : Prop :=
  ∀ e, table[k]? = some e → e.Live →
    ∃ e', table'[k]? = some e' ∧ e'.Live ∧ e'.hostname = e.hostname ∧ e'.port = e.port

theorem KeepsHost.refl (table : List HostTableEntry) (k : ℕ) : KeepsHost table table k :=
  fun e he hlive => ⟨e, he, hlive, rfl, rfl⟩

theorem KeepsHost.trans {table table' table'' : List HostTableEntry} {k : ℕ}
    (h : KeepsHost table table' k) (h' : KeepsHost table' table'' k) :
    KeepsHost table table'' k := by
  intro e he hlive
  obtain ⟨e', he', hlive', hname, hport⟩ := h e he hlive
  obtain ⟨e'', he'', hlive'', hname', hport'⟩ := h' e' he' hlive'
  exact ⟨e'', he'', hlive'', hname'.trans hname, hport'.trans hport⟩

/-- A host that is added: it is there already, or a free entry becomes it, or a new one. -/
theorem hostTableAdd_cases {ipaddr : ℕ} {hostname : List UInt8} {port index : ℤ}
    (hip : ipaddr ≠ 0) (hport : 0 < port) :
    (∃ (k : ℕ) (e : HostTableEntry),
      hostTableAdd table ipaddr hostname port index = (table, hostIndex k) ∧
      table[k]? = some e ∧ e.Is ipaddr hostname port) ∨
    (∀ e ∈ table, ¬ e.Is ipaddr hostname port) ∧
      hostTableFind table ipaddr hostname port index = none ∧
      ((∃ (k : ℕ) (e : HostTableEntry), table[k]? = some e ∧ e.ipaddr = 0 ∧
        hostTableAdd table ipaddr hostname port index =
          (table.set k ⟨ipaddr, hostname, port⟩, hostIndex k)) ∨
      (∀ e ∈ table, e.ipaddr ≠ 0) ∧ hostTableAdd table ipaddr hostname port index =
        (table ++ [⟨ipaddr, hostname, port⟩], hostIndex table.length)) := by
  obtain ⟨p, hfind, hp⟩ := @hostTableFind_told table ipaddr hostname port ⟨hport, Or.inl hip⟩ index
  rw [hostTableAdd, hfind]
  cases hfound : hostTableIndex table p with
  | some i =>
    obtain ⟨k, e, rfl, he, hpe⟩ := hostTableIndex_some hfound
    exact Or.inl ⟨k, e, rfl, he, (hp e).mp hpe⟩
  | none =>
    refine Or.inr ⟨?_, rfl, ?_⟩
    · intro e he his
      have hno := hostTableIndex_none hfound e he
      rw [(hp e).mpr his] at hno
      exact absurd hno (by simp)
    · dsimp only
      by_cases hlt : (table.findIdx fun e => e.ipaddr == 0) < table.length
      · refine Or.inl ⟨table.findIdx fun e => e.ipaddr == 0, _, List.getElem?_eq_getElem hlt, ?_,
          ?_⟩
        · simpa using @List.findIdx_getElem _ _ table hlt
        · rw [if_pos hlt]
      · refine Or.inr ⟨?_, ?_⟩
        · intro e he hfree
          exact hlt (List.findIdx_lt_length_of_exists ⟨e, he, by simpa using hfree⟩)
        · have hend : (table.findIdx fun e => e.ipaddr == 0) = table.length :=
            le_antisymm List.findIdx_le_length (Nat.le_of_not_lt hlt)
          rw [if_neg hlt, hend]

/-- What a call of `host_table_replace` does, if it does anything. -/
theorem hostTableReplace_some (h : HostTable table) {ind : ℤ} {oldIpaddr newIpaddr : ℕ}
    {hostname : List UInt8} {port : ℤ} (htold : HostTold oldIpaddr hostname port)
    {table' : List HostTableEntry}
    (hreplace : hostTableReplace table ind oldIpaddr newIpaddr hostname port = some table') :
    ∃ k : ℕ, table[k]? = some ⟨oldIpaddr, hostname, port⟩ ∧
      table' = table.set k ⟨newIpaddr, hostname, port⟩ := by
  obtain ⟨p, hfind, hp⟩ := @hostTableFind_told table oldIpaddr hostname port htold ind
  rw [hostTableReplace, hostTableFindArgs, if_pos htold, hfind] at hreplace
  cases hfound : hostTableIndex table p with
  | none =>
    rw [hfound] at hreplace
    simp at hreplace
  | some i =>
    obtain ⟨k, e, rfl, he, hpe⟩ := hostTableIndex_some hfound
    have hlt := (List.getElem?_eq_some_iff.mp he).1
    have hk : hostIndex k = k := hostIndex_eq (by omega) (by have := h.bound; omega)
    rw [hfound] at hreplace
    simp only [Option.map_some, hk, Option.bind_eq_bind, Option.bind_some, Int.toNat_natCast,
      he] at hreplace
    rw [if_neg (by omega)] at hreplace
    split at hreplace
    next => simp at hreplace
    next hsame =>
      push Not at hsame
      have hport : e.port = port := ((hp e).mp hpe).1
      obtain ⟨ip, name, port'⟩ := e
      obtain ⟨rfl, rfl⟩ := hsame
      dsimp only at hport
      subst hport
      exact ⟨k, he, (Option.some.inj hreplace).symm⟩

/-! ### Runs -/

namespace HostTable

theorem live_of_is (h : HostTable table) {k : ℕ} {e : HostTableEntry} (he : table[k]? = some e)
    {ipaddr : ℕ} {hostname : List UInt8} {port : ℤ} (hport : 0 < port)
    (his : e.Is ipaddr hostname port) :
    e.Live :=
  (h.wellFormed e (List.mem_of_getElem? he)).live_of_port (by rw [his.1]; exact hport)

/-- An entry that was free is a host. -/
theorem keepsHost_of_free {table' : List HostTableEntry} {k : ℕ}
    (hfree : ∀ e, table[k]? = some e → ¬ e.Live)
    (hget : ∀ j, j ≠ k → j < table.length → table'[j]? = table[j]?) (j : ℕ) :
    KeepsHost table table' j := by
  intro e he hlive
  have hne : j ≠ k := by
    rintro rfl
    exact hfree e he hlive
  exact ⟨e, by rw [hget j hne (List.getElem?_eq_some_iff.mp he).1, he], hlive, rfl, rfl⟩

/-- **Adding a host** keeps all indices, and returns that of an entry for the host. -/
theorem add (h : HostTable table) {ipaddr : ℕ} {hostname : List UInt8} {port index : ℤ}
    (hok : (HostTableCall.add ipaddr hostname port index).Ok table) :
    HostTable (hostTableAdd table ipaddr hostname port index).1 ∧
      (∀ j, KeepsHost table (hostTableAdd table ipaddr hostname port index).1 j) ∧
      ∃ (k : ℕ) (e : HostTableEntry), (hostTableAdd table ipaddr hostname port index).2 = k ∧
        (hostTableAdd table ipaddr hostname port index).1[k]? = some e ∧ e.Live ∧
        e.Is ipaddr hostname port := by
  obtain ⟨hip, hname, hport, hroom⟩ := hok
  have hbound := h.bound
  have hwf : (⟨ipaddr, hostname, port⟩ : HostTableEntry).WellFormed := by
    rw [HostTableEntry.WellFormed, if_neg hip]
    exact ⟨hname, hport⟩
  have his : (⟨ipaddr, hostname, port⟩ : HostTableEntry).Is ipaddr hostname port :=
    ⟨rfl, Or.inl ⟨hip, rfl⟩⟩
  rcases hostTableAdd_cases hip hport with ⟨k, e, heq, he, hise⟩ | ⟨hnew, hfind, hput⟩
  · -- it is there already
    have hlt := (List.getElem?_eq_some_iff.mp he).1
    rw [heq, hostIndex_eq (by omega) (by omega)]
    exact ⟨h, KeepsHost.refl table, k, e, rfl, he, h.live_of_is he hport hise, hise⟩
  · have hdiffer : ∀ e ∈ table, ¬ e.Same ⟨ipaddr, hostname, port⟩ := by
      intro e he hsame
      refine hnew e he ⟨hsame.1, ?_⟩
      rcases hsame.2 with hsame | hsame
      · exact Or.inl ⟨hip, hsame⟩
      · exact Or.inr ⟨hname, hsame⟩
    rcases hput with ⟨k, e, he, hfree, heq⟩ | ⟨hall, heq⟩
    · -- a free entry becomes it
      have hlt := (List.getElem?_eq_some_iff.mp he).1
      rw [heq, hostIndex_eq (by omega) (by omega)]
      refine ⟨h.put (by rw [List.length_set]; exact hbound) (fun j e' => getElem?_set_cases) hwf
        (fun _ j e' _ he' _ => hdiffer e' (List.mem_of_getElem? he')), ?_, k, _, rfl,
        List.getElem?_set_self hlt, hip, his⟩
      intro j
      refine @keepsHost_of_free table _ k ?_ ?_ j
      · intro e' he' hlive
        rw [he] at he'
        exact hlive (Option.some.inj he' ▸ hfree)
      · intro j hne _
        exact List.getElem?_set_ne hne.symm
    · -- the table grows
      have hlt : table.length < 32768 := by
        rcases hroom with hlt | ⟨e, he, hfree⟩ | hsome
        · exact hlt
        · exact absurd hfree (hall e he)
        · rw [hfind] at hsome
          exact absurd hsome (by simp)
      rw [heq, hostIndex_eq (by omega) (by omega)]
      refine ⟨h.put (by rw [List.length_append, List.length_singleton]; omega)
        (fun j e' => getElem?_append_cases) hwf
        (fun _ j e' _ he' _ => hdiffer e' (List.mem_of_getElem? he')), ?_, table.length, _, rfl,
        List.getElem?_concat_length, hip, his⟩
      intro j
      refine @keepsHost_of_free table _ table.length ?_ ?_ j
      · intro e' he'
        rw [List.getElem?_eq_none (le_refl _)] at he'
        exact absurd he' (by simp)
      · intro j _ hj
        exact List.getElem?_append_left hj

/-- **Replacing an address** keeps all indices. -/
theorem replace (h : HostTable table) {ind : ℤ} {oldIpaddr newIpaddr : ℕ} {hostname : List UInt8}
    {port : ℤ}
    (hok : (HostTableCall.replace ind oldIpaddr newIpaddr hostname port).Ok table) :
    HostTable ((hostTableReplace table ind oldIpaddr newIpaddr hostname port).getD table) ∧
      ∀ j, KeepsHost table ((hostTableReplace table ind oldIpaddr newIpaddr hostname port).getD table) j := by
  obtain ⟨htold, hnew⟩ := hok
  cases hreplace : hostTableReplace table ind oldIpaddr newIpaddr hostname port with
  | none => exact ⟨h, KeepsHost.refl table⟩
  | some table' =>
    obtain ⟨k, he, rfl⟩ := hostTableReplace_some h htold hreplace
    have hmem := List.mem_of_getElem? he
    have hlive : (⟨oldIpaddr, hostname, port⟩ : HostTableEntry).Live :=
      (h.wellFormed _ hmem).live_of_port htold.1
    obtain ⟨hne, hfree⟩ := hnew hmem
    have hwf : (⟨newIpaddr, hostname, port⟩ : HostTableEntry).WellFormed := by
      rw [HostTableEntry.WellFormed, if_neg hne]
      exact (h.wellFormed _ hmem).of_live hlive
    rw [Option.getD_some]
    constructor
    · refine h.put (by rw [List.length_set]; exact h.bound) (fun j e' => getElem?_set_cases) hwf ?_
      intro _ j e' hjk he' hlive' hsame
      -- a host with the new address or the name would be the host itself
      refine hjk (h.differ j k e' _ he' he hlive' hlive ⟨hsame.1, ?_⟩)
      rcases hsame.2 with hip | hname
      · exact Or.inl (hip.trans (hfree e' (List.mem_of_getElem? he') hip hsame.1))
      · exact Or.inr hname
    · intro j e' he' hlive'
      by_cases hjk : k = j
      · subst hjk
        rw [he] at he'
        obtain rfl := Option.some.inj he'
        exact ⟨_, List.getElem?_set_self (List.getElem?_eq_some_iff.mp he).1, hne, rfl, rfl⟩
      · exact ⟨e', by rw [List.getElem?_set_ne hjk, he'], hlive', rfl, rfl⟩

/-- **Deleting a host** keeps all other indices. -/
theorem del (h : HostTable table) {index : ℤ} (hok : (HostTableCall.del index).Ok table) :
    HostTable (hostTableDel table index) ∧ ∀ j : ℕ, (j : ℤ) ≠ index →
      KeepsHost table (hostTableDel table index) j := by
  obtain ⟨hindex, -⟩ := hok
  constructor
  · refine h.put (by rw [hostTableDel,
      List.length_set]; exact h.bound) (fun j e' => getElem?_set_cases) ?_ ?_
    · exact ⟨rfl, rfl⟩
    · intro hlive
      exact absurd rfl hlive
  · intro j hj e he hlive
    exact ⟨e, by rw [hostTableDel, List.getElem?_set_ne (by omega), he], hlive, rfl, rfl⟩

/-- A call keeps the hosts apart, and all indices but one that is deleted. -/
theorem call (h : HostTable table) {c : HostTableCall} (hok : c.Ok table) :
    HostTable (c.run table) ∧ ∀ j : ℕ, c ≠ .del j → KeepsHost table (c.run table) j := by
  cases c with
  | add ipaddr hostname port index =>
    obtain ⟨htable, hkeep, -⟩ := h.add hok
    exact ⟨htable, fun j _ => hkeep j⟩
  | replace ind oldIpaddr newIpaddr hostname port =>
    obtain ⟨htable, hkeep⟩ := h.replace hok
    exact ⟨htable, fun j _ => hkeep j⟩
  | del index =>
    obtain ⟨htable, hkeep⟩ := h.del hok
    refine ⟨htable, fun j hne => hkeep j ?_⟩
    rintro rfl
    exact hne rfl

/-- So do any calls. -/
theorem calls (h : HostTable table) {cs : List HostTableCall} (hok : CallsOk cs table) :
    HostTable (runCalls cs table) ∧
      ∀ j : ℕ, (∀ c ∈ cs, c ≠ .del j) → KeepsHost table (runCalls cs table) j := by
  induction cs generalizing table with
  | nil => exact ⟨h, fun j _ => KeepsHost.refl table j⟩
  | cons c cs ih =>
    obtain ⟨hc, hcs⟩ := hok
    obtain ⟨htable, hkeep⟩ := h.call hc
    obtain ⟨htable', hkeep'⟩ := ih htable hcs
    refine ⟨htable', ?_⟩
    intro j hno
    obtain ⟨hfirst, hlater⟩ := List.forall_mem_cons.mp hno
    exact (hkeep j hfirst).trans (hkeep' j hlater)

end HostTable

/-- Looking a live entry up, by its address, its name, both or its index, gives it. -/
def FindsHosts (table : List HostTableEntry) : Prop :=
  ∀ (k : ℕ) (e : HostTableEntry), table[k]? = some e → e.Live →
    (∀ (ipaddr : ℕ) (hostname : List UInt8) (index : ℤ), ipaddr ≠ 0 ∨ hostname ≠ [] →
      (ipaddr ≠ 0 → e.ipaddr = ipaddr) → (hostname ≠ [] → strcasecmpEq e.hostname hostname = true) →
      hostTableFindArgs table ipaddr hostname e.port index = some ⟨ipaddr, hostname, e.port, k⟩) ∧
    ∀ port, hostTableFindArgs table 0 [] port k = some ⟨e.ipaddr, e.hostname, e.port, k⟩

/-- The index that adding a host returns is that of an entry for it, and stays so over the
calls that follow, until one deletes it. -/
def IndexStays (table : List HostTableEntry) (ipaddr : ℕ) (hostname : List UInt8) (port index : ℤ)
    (cs : List HostTableCall) : Prop :=
  ∃ (k : ℕ) (e : HostTableEntry), (hostTableAdd table ipaddr hostname port index).2 = k ∧
    (hostTableAdd table ipaddr hostname port index).1[k]? = some e ∧ e.Is ipaddr hostname port ∧
    ((∀ c ∈ cs, c ≠ .del k) →
      ∃ e', (runCalls cs (hostTableAdd table ipaddr hostname port index).1)[k]? = some e' ∧
        e'.Live ∧
        e'.hostname = e.hostname ∧ e'.port = e.port)

/-- **The hosts of the table** over any calls: they stay apart, are found by either of
their keys, and keep the indices that adding them returned. -/
theorem hostTable_calls {cs : List HostTableCall} (hok : CallsOk cs []) :
    HostsDiffer (runCalls cs []) ∧ FindsHosts (runCalls cs []) ∧
    ∀ (before after : List HostTableCall) (ipaddr : ℕ) (hostname : List UInt8) (port index : ℤ),
      cs = before ++ .add ipaddr hostname port index :: after →
      IndexStays (runCalls before []) ipaddr hostname port index after := by
  obtain ⟨htable, -⟩ := hostTable_nil.calls hok
  refine ⟨htable.differ, ?_, ?_⟩
  · intro k e he hlive
    exact ⟨fun ipaddr hostname index htold hip hname => htable.find he hlive htold hip hname index,
      fun port => HostTable.find_index he port⟩
  · rintro before after ipaddr hostname port index rfl
    obtain ⟨hbefore, hadd, hafter⟩ := callsOk_append.mp hok
    obtain ⟨htable', -⟩ := hostTable_nil.calls hbefore
    obtain ⟨hadded, -, k, e, hk, he, hlive, his⟩ := htable'.add hadd
    refine ⟨k, e, hk, he, his, ?_⟩
    intro hno
    exact (hadded.calls hafter).2 k hno e he hlive

/-- Two hosts, of which the second one gets another address and the first one goes. -/
theorem hostTable_sample :
    CallsOk [.add 1 [97] 21 0, .add 2 [98] 21 0, .replace 0 2 3 [98] 21, .del 0] [] ∧
    FindsHosts (runCalls [.add 1 [97] 21 0, .add 2 [98] 21 0, .replace 0 2 3 [98] 21, .del 0]
      []) := by
  have hok : CallsOk [.add 1 [97] 21 0, .add 2 [98] 21 0, .replace 0 2 3 [98] 21, .del 0] [] := by
    refine ⟨⟨by decide, by decide, by decide, Or.inl (by decide)⟩,
      ⟨by decide, by decide, by decide, Or.inl (by decide)⟩, ⟨by decide, fun _ => ⟨by decide, by decide⟩⟩,
      ⟨by decide, ⟨1, [97], 21⟩, by decide, by decide⟩, trivial⟩
  exact ⟨hok, (hostTable_calls hok).2.1⟩

/-- A host that gets the address of another one, at the same port. -/
theorem not_hostsDiffer :
    ¬ HostsDiffer (runCalls [.add 1 [97] 21 0, .add 2 [98] 21 0, .replace 0 1 2 [97] 21] []) := by
  intro hdiffer
  have heq := hdiffer 0 1 ⟨2, [97], 21⟩ ⟨2, [98], 21⟩
      (by decide) (by decide) (by decide) (by decide)
    ⟨rfl, Or.inl rfl⟩
  exact absurd heq (by decide)

end Archie
