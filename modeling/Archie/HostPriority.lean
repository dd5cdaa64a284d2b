/-
The priorities of the hosts (`startdb/host_table.c`, `startdb/domain.c`).  `priority_table` has
what `domain_priority` said of the name under an index when the table was made.

* `fresh_run_iff` — a call leaves the table right exactly if it does not put a host of
  another priority into a free entry.
* `ranked_of_fresh` — while the table is right, `host_table_cmp` compares the priorities.
-/
import Archie.HostTable

namespace Archie

/-! ### The functions -/

/-- `domain_table`, and `domain_separator`. -/
structure DomainTable where
  rows : List (List (List UInt8))
  separator : ℤ
  deriving DecidableEq, Repr

/-- A domain at the end of a name. -/
def endsInDomain (hostname domain : List UInt8) : Bool :=
  domain.length ≤ hostname.length &&
    strcasecmpEq domain (hostname.drop (hostname.length - domain.length))

/-- `domain_priority`. -/
def domainPriority (domains : DomainTable) (hostname : List UInt8) : ℤ :=
  match domains.rows.findIdx? fun row => row.any (endsInDomain hostname) with
  | some i => i - domains.separator
  | none => 0

/-- The table of hosts, and `priority_table`, whose elements are `short`. -/
structure PriorityState where
  table : List HostTableEntry
  priorityTable : List ℤ
  deriving DecidableEq, Repr

section

variable (domains : DomainTable)

/-- `host_table_priority`. -/
def hostTablePriority (table : List HostTableEntry) : PriorityState where
  table
  priorityTable := table.map fun e => hostIndex (domainPriority domains e.hostname)

/-- `host_table_cmp`. -/
def PriorityState.hostTableCmp (s : PriorityState) (ind1 ind2 : ℕ) : Option ℤ := do
  let p1 ← s.priorityTable[ind1]?
  let p2 ← s.priorityTable[ind2]?
  some (p1 - p2)

/-- The calls that change the table. -/
inductive PriorityCall
  | add (ipaddr : ℕ) (hostname : List UInt8) (port index : ℤ)
  | del (index : ℕ)
  deriving DecidableEq, Repr

/-- What a call leaves.  Only `host_table_add` makes the priorities anew, and only when it
appends an entry. -/
def PriorityCall.run : PriorityCall → PriorityState → PriorityState
  | .add ipaddr hostname port index, s =>
    let table := (hostTableAdd s.table ipaddr hostname port index).1
    if s.table.length < table.length then hostTablePriority domains table
    else { s with table }
  | .del index, s => { s with table := hostTableDel s.table index }

/-- The states that calls lead to. -/
def runPriority : List PriorityCall → PriorityState → PriorityState
  | [], s => s
  | c :: calls, s => runPriority calls (c.run domains s)

/-! ### What the table should be -/

/-- The comparison of two hosts is that of the priorities of the names that they have now, and
a list of hosts is in order exactly if the priorities are. -/
def PriorityState.Ranked (s : PriorityState) : Prop :=
  (∀ (i j : ℕ) (e e' : HostTableEntry), s.table[i]? = some e → s.table[j]? = some e' →
    e.Live → e'.Live →
      s.hostTableCmp i j = some (domainPriority domains e.hostname - domainPriority domains e'.hostname)) ∧
  ∀ l : List ℕ, (∀ i ∈ l, ∃ e, s.table[i]? = some e ∧ e.Live) →
    (l.Pairwise (fun i j => ∃ d, s.hostTableCmp i j = some d ∧ d ≤ 0) ↔
      l.Pairwise fun i j => ∀ e e', s.table[i]? = some e → s.table[j]? = some e' →
        domainPriority domains e.hostname ≤ domainPriority domains e'.hostname)

/-- The priorities of a table are those of its names. -/
structure PriorityState.Fresh (s : PriorityState) : Prop where
  length : s.priorityTable.length = s.table.length
  priority : ∀ (k : ℕ) (e : HostTableEntry), s.table[k]? = some e → e.Live →
    s.priorityTable[k]? = some (domainPriority domains e.hostname)

/-- A call names an entry of the table, and it does not put a host into a free entry whose priority
was another one. -/
def PriorityCall.Keeps : PriorityCall → PriorityState → Prop
  | .add ipaddr hostname port index, s =>
    hostTableFind s.table ipaddr hostname port index = none →
      ∀ k : ℕ, k < s.table.length → (s.table.findIdx fun e => e.ipaddr == 0) = k → ipaddr ≠ 0 →
        s.priorityTable[k]? = some (domainPriority domains hostname)
  | .del index, s => index < s.table.length

/-- Each of the calls keeps the priorities. -/
def CallsKeep : List PriorityCall → PriorityState → Prop
  | [], _ => True
  | c :: calls, s => c.Keeps domains s ∧ CallsKeep calls (c.run domains s)

/-- The priorities are those of a `short`. -/
def DomainTable.Short : Prop := ∀ hostname, hostIndex (domainPriority domains hostname) =
  domainPriority domains hostname

end

variable {domains : DomainTable} {s : PriorityState}

/-- A file of at most 32768 lines has such priorities. -/
theorem short_of_length (hrows : domains.rows.length ≤ 32768) (hsep : 0 ≤ domains.separator)
    (hle : domains.separator ≤ domains.rows.length) : domains.Short := by
  intro hostname
  rw [domainPriority]
  split
  next i hi =>
    obtain ⟨hlt, -⟩ := List.findIdx?_eq_some_iff_getElem.mp hi
    rw [hostIndex, Int.bmod_def]
    omega
  next => rfl

theorem fresh_hostTablePriority (hshort : domains.Short) (table : List HostTableEntry) :
    (hostTablePriority domains table).Fresh domains where
  length := List.length_map ..
  priority k e he _ := by
    rw [hostTablePriority, List.getElem?_map]
    rw [hostTablePriority] at he
    rw [he, Option.map_some, hshort]

/-- While the priorities are right, so is the comparison. -/
theorem ranked_of_fresh (h : s.Fresh domains) : s.Ranked domains := by
  have hcmp : ∀ (i j : ℕ) (e e' : HostTableEntry), s.table[i]? = some e → s.table[j]? = some e' →
      e.Live → e'.Live → s.hostTableCmp i j =
        some (domainPriority domains e.hostname - domainPriority domains e'.hostname) := by
    intro i j e e' he he' hlive hlive'
    simp only [PriorityState.hostTableCmp, h.priority i e he hlive, h.priority j e' he' hlive',
      Option.bind_eq_bind, Option.bind_some]
  refine ⟨hcmp, fun l hl => ?_⟩
  refine List.Pairwise.iff_of_mem fun {i j} hi hj => ?_
  obtain ⟨e, he, hlive⟩ := hl i hi
  obtain ⟨e', he', hlive'⟩ := hl j hj
  rw [hcmp i j e e' he he' hlive hlive']
  constructor
  · rintro ⟨d, hd, hle⟩ x x' hx hx'
    obtain rfl := Option.some.inj (he.symm.trans hx)
    obtain rfl := Option.some.inj (he'.symm.trans hx')
    have := Option.some.inj hd
    omega
  · intro hle
    exact ⟨_, rfl, by have := hle e e' he he'; omega⟩

/-- What `host_table_add` does to the table. -/
theorem hostTableAdd_eq (table : List HostTableEntry) (ipaddr : ℕ) (hostname : List UInt8)
    (port index : ℤ) :
    (hostTableAdd table ipaddr hostname port index).1 =
      if (hostTableFind table ipaddr hostname port index).isSome then table
      else if (table.findIdx fun e => e.ipaddr == 0) < table.length then
        table.set (table.findIdx fun e => e.ipaddr == 0) ⟨ipaddr, hostname, port⟩
      else table ++ [⟨ipaddr, hostname, port⟩] := by
  rw [hostTableAdd]
  cases hostTableFind table ipaddr hostname port index with
  | some i => rfl
  | none => rfl

/-- A call leaves the priorities right exactly if it keeps them. -/
theorem fresh_run_iff (hshort : domains.Short) (h : s.Fresh domains) {c : PriorityCall}
    (hc : ∀ index, c = .del index → index < s.table.length) :
    (c.run domains s).Fresh domains ↔ c.Keeps domains s := by
  cases c with
  | del index =>
    refine iff_of_true ⟨?_, fun k e he hlive => ?_⟩ (hc index rfl)
    · rw [PriorityCall.run, hostTableDel, List.length_set]
      exact h.length
    · rw [PriorityCall.run, hostTableDel] at he
      rcases HostTable.getElem?_set_cases he with ⟨rfl, rfl⟩ | ⟨-, he⟩
      · exact absurd rfl hlive
      · exact h.priority k e he hlive
  | add ipaddr hostname port index =>
    have hadd := hostTableAdd_eq s.table ipaddr hostname port index
    cases hfind : hostTableFind s.table ipaddr hostname port index with
    | some i =>
      have hrun : (PriorityCall.add ipaddr hostname port index).run domains s = s := by
        rw [hfind, Option.isSome_some, if_pos rfl] at hadd
        simp only [PriorityCall.run, hadd, lt_irrefl, if_false]
      rw [hrun]
      exact iff_of_true h fun hnone => by simp [hfind] at hnone
    | none =>
      rw [hfind, Option.isSome_none, if_neg Bool.false_ne_true] at hadd
      by_cases hfree : (s.table.findIdx fun e => e.ipaddr == 0) < s.table.length
      · -- the free entry becomes the host, and its priority stays
        rw [if_pos hfree] at hadd
        have hrun : (PriorityCall.add ipaddr hostname port index).run domains s =
            ⟨s.table.set (s.table.findIdx fun e => e.ipaddr == 0) ⟨ipaddr, hostname, port⟩,
              s.priorityTable⟩ := by
          simp only [PriorityCall.run, hadd, List.length_set, lt_irrefl, if_false]
        rw [hrun]
        constructor
        · rintro hfresh - k hk rfl hip
          exact hfresh.priority _ ⟨ipaddr, hostname, port⟩ (List.getElem?_set_self hfree) hip
        · intro hkeeps
          refine ⟨by rw [List.length_set]; exact h.length, fun k e he hlive => ?_⟩
          rcases HostTable.getElem?_set_cases he with ⟨rfl, rfl⟩ | ⟨-, he⟩
          · exact hkeeps hfind _ hfree rfl hlive
          · exact h.priority k e he hlive
      · rw [if_neg hfree] at hadd
        have hrun : (PriorityCall.add ipaddr hostname port index).run domains s =
            hostTablePriority domains (s.table ++ [⟨ipaddr, hostname, port⟩]) := by
          simp only [PriorityCall.run, hadd, List.length_append, List.length_singleton,
            Nat.lt_succ_self, if_true]
        rw [hrun]
        refine iff_of_true (fresh_hostTablePriority hshort _) ?_
        rintro - k hk rfl
        exact absurd hk hfree

theorem fresh_runPriority (hshort : domains.Short) {calls : List PriorityCall} (h : s.Fresh domains)
    (hkeep : CallsKeep domains calls s) : (runPriority domains calls s).Fresh domains := by
  induction calls generalizing s with
  | nil => exact h
  | cons c calls ih =>
    obtain ⟨hc, hcalls⟩ := hkeep
    refine ih ((fresh_run_iff hshort h ?_).mpr hc) hcalls
    rintro index rfl
    exact hc

/-- In a run from a table that has been read, `host_table_cmp` compares the priorities of the hosts
as long as no call puts a host of another priority into a free entry. -/
theorem ranked_runPriority (hshort : domains.Short) (table : List HostTableEntry)
    {calls : List PriorityCall} (hkeep : CallsKeep domains calls (hostTablePriority domains table)) :
    (runPriority domains calls (hostTablePriority domains table)).Ranked domains :=
  ranked_of_fresh (fresh_runPriority hshort (fresh_hostTablePriority hshort table) hkeep)

/-- The domains `ca`, before `edu`. -/
def sampleDomains : DomainTable := ⟨[[bytes "ca"], [bytes "edu"]], 2⟩

/-- A host of each domain. -/
def twoHosts : List HostTableEntry := [⟨1, bytes "a.ca", 21⟩, ⟨2, bytes "b.edu", 21⟩]

theorem ranked_runPriority_sample :
    (runPriority sampleDomains [.add 3 (bytes "c.org") 21 0, .del 0, .add 4 (bytes "d.ca") 21 0]
      (hostTablePriority sampleDomains twoHosts)).Ranked sampleDomains := by
  refine ranked_runPriority (short_of_length (by decide) (by decide) (by decide)) twoHosts
    ⟨?_, ?_, ?_, trivial⟩
  · intro hnone k hk hfree
    have hidx : ((hostTablePriority sampleDomains twoHosts).table.findIdx fun e => e.ipaddr == 0) =
        2 := by decide +kernel
    rw [hidx] at hfree
    subst hfree
    exact absurd hk (by decide +kernel)
  · show (0 : ℕ) < _
    decide +kernel
  · intro hnone k hk hfree hip
    have hidx : (((PriorityCall.del 0).run sampleDomains ((PriorityCall.add 3 (bytes "c.org") 21 0).run
        sampleDomains (hostTablePriority sampleDomains twoHosts))).table.findIdx
          fun e => e.ipaddr == 0) = 0 := by decide +kernel
    rw [hidx] at hfree
    subst hfree
    decide +kernel

/-- A host of no domain comes to the place of one of `ca`, and is still before one of `edu`. -/
theorem not_ranked_runPriority :
    ¬(runPriority sampleDomains [.del 0, .add 3 (bytes "c.org") 21 0]
      (hostTablePriority sampleDomains twoHosts)).Ranked sampleDomains := by
  rintro ⟨hcmp, -⟩
  have h := hcmp 0 1 ⟨3, bytes "c.org", 21⟩ ⟨2, bytes "b.edu", 21⟩ (by decide +kernel)
    (by decide +kernel) (by decide) (by decide)
  exact absurd h (by decide +kernel)

end Archie
