/-
The files database over a run (`anonftp/update/insert_anonftp.c`,
`anonftp/update/delete_anonftp.c`).

The lists of the start database are an index of the site files: that of a start has the hosts whose
files have the start.  The start 0 is different: the records that `count_extra_recs` makes room
for, and `setup_insert` does not need, are zero, and count as files with that start until the file
is cut.

* `hostTableAdd_site` — the entry of a site that is looked up or added.
* `Stored.put` — a file in the place of another one keeps the index.
* `siteRun_hosts` — the lists and the files after any run.
-/
import Archie.SiteUpdate

namespace Archie

variable {σ : Type} {dbm : Dbm σ} {cmp : ℤ → ℤ → ℤ}

/-! ### The entry of a site -/

/-- The entry under an index is that of a site. -/
def SiteAt (table : List HostTableEntry) (k : ℕ) (ipaddr : ℕ) (port : ℤ) : Prop :=
  ∃ e, table[k]? = some e ∧ e.Live ∧ e.ipaddr = ipaddr ∧ e.port = port

/-- Where the table has the name of a site or its address, it has its address. -/
def SameSite (table : List HostTableEntry) (header : SiteHeader) (port : ℤ) : Prop :=
  ∀ e ∈ table, e.Is header.primaryIpaddr header.primaryHostname port →
    e.ipaddr = header.primaryIpaddr

/-- The tables have the same hosts, but for one index. -/
def SameElsewhere (table table' : List HostTableEntry) (k : ℕ) : Prop :=
  ∀ j ip port, j ≠ k → (SiteAt table' j ip port ↔ SiteAt table j ip port)

theorem SiteAt.eq {table : List HostTableEntry} (h : HostTable table) {j k : ℕ} {ip : ℕ} {port : ℤ}
    (hj : SiteAt table j ip port) (hk : SiteAt table k ip port) : j = k := by
  obtain ⟨e, he, hlive, rfl, rfl⟩ := hj
  obtain ⟨e', he', hlive', hip, hport⟩ := hk
  exact h.differ j k e e' he he' hlive hlive' ⟨hport.symm, .inl hip.symm⟩

theorem SiteAt.inj {table : List HostTableEntry} {k : ℕ} {ip ip' : ℕ} {port port' : ℤ}
    (h : SiteAt table k ip port) (h' : SiteAt table k ip' port') : ip = ip' ∧ port = port' := by
  obtain ⟨e, he, -, rfl, rfl⟩ := h
  obtain ⟨e', he', -, rfl, rfl⟩ := h'
  obtain rfl := Option.some.inj (he.symm.trans he')
  exact ⟨rfl, rfl⟩

/-- **The entry of a site**: it is there already, or takes the place of a free one. -/
theorem hostTableAdd_site {table : List HostTableEntry} (h : HostTable table) {header : SiteHeader}
    {port unset : ℤ}
    (hok : (HostTableCall.add header.primaryIpaddr header.primaryHostname port unset).Ok table)
    (hsame : SameSite table header port) {table' : List HostTableEntry} {hin : ℤ}
    (hadd : hostTableAdd table header.primaryIpaddr header.primaryHostname port unset =
      (table', hin)) :
    HostTable table' ∧ ∃ k : ℕ, hin = k ∧ SiteAt table' k header.primaryIpaddr port ∧
      SameElsewhere table table' k ∧
      ∀ ip p, SiteAt table k ip p → ip = header.primaryIpaddr ∧ p = port := by
  have htable' : HostTable table' := by
    have hadded := (h.add hok).1
    rwa [hadd] at hadded
  have hcases := @hostTableAdd_cases table _ header.primaryHostname port unset hok.1 hok.2.2.1
  rw [hadd] at hcases
  simp only [Prod.mk.injEq] at hcases
  refine ⟨htable', ?_⟩
  obtain ⟨hip, hname, hport, -⟩ := hok
  have hlt : ∀ k : ℕ, k < table'.length → hostIndex k = k := by
    intro k hk
    have hbound := htable'.bound
    exact hostIndex_eq (by omega) (by omega)
  have hnew : ∀ k : ℕ, table'[k]? = some ⟨header.primaryIpaddr, header.primaryHostname, port⟩ →
      (∀ j, j ≠ k → ∀ e : HostTableEntry, e.Live → (table'[j]? = some e ↔ table[j]? = some e)) →
      (∀ e, table[k]? = some e → ¬ e.Live) → hin = hostIndex k →
      ∃ k : ℕ, hin = k ∧ SiteAt table' k header.primaryIpaddr port ∧
        SameElsewhere table table' k ∧
        ∀ ip p, SiteAt table k ip p → ip = header.primaryIpaddr ∧ p = port := by
    intro k hk hother hfree hhin
    refine ⟨k, ?_, ⟨_, hk, hip, rfl, rfl⟩, ?_, ?_⟩
    · rw [hhin, hlt k (List.getElem?_eq_some_iff.mp hk).1]
    · intro j ip p hj
      constructor
      · rintro ⟨e, he, hlive, rest⟩
        exact ⟨e, (hother j hj e hlive).mp he, hlive, rest⟩
      · rintro ⟨e, he, hlive, rest⟩
        exact ⟨e, (hother j hj e hlive).mpr he, hlive, rest⟩
    · rintro ip p ⟨e, he, hlive, -⟩
      exact absurd hlive (hfree e he)
  rcases hcases with ⟨k, e, ⟨rfl, hhin⟩, he, his⟩ | ⟨-, -, hput⟩
  · -- it is there already
    have hentry : SiteAt table' k header.primaryIpaddr port :=
      ⟨e, he, h.live_of_is he hport his, hsame e (List.mem_of_getElem? he) his, his.1⟩
    refine ⟨k, hhin.trans (hlt k (List.getElem?_eq_some_iff.mp he).1), hentry,
      fun j ip p _ => Iff.rfl, ?_⟩
    intro ip p hk
    exact hk.inj hentry
  · rcases hput with ⟨k, e, he, hfree, rfl, hhin⟩ | ⟨-, rfl, hhin⟩
    · -- a free entry becomes it
      refine hnew k (List.getElem?_set_self (List.getElem?_eq_some_iff.mp he).1) ?_ ?_ hhin
      · intro j hj e' _
        rw [List.getElem?_set_ne hj.symm]
      · intro e' he' hlive
        obtain rfl := Option.some.inj (he.symm.trans he')
        exact hlive hfree
    · -- the table grows
      refine hnew table.length List.getElem?_concat_length ?_ ?_ hhin
      · intro j hj e' _
        constructor
        · intro he'
          rcases HostTable.getElem?_append_cases he' with ⟨hj', -⟩ | ⟨-, he'⟩
          · exact absurd hj' hj
          · exact he'
        · intro he'
          rwa [List.getElem?_append_left (List.getElem?_eq_some_iff.mp he').1]
      · intro e' he'
        rw [List.getElem?_eq_none (le_refl _)] at he'
        exact absurd he' (by simp)

/-! ### The index of the site files -/

/-- A file as it is stored. -/
def StoredFile (fp : List SiteEntry) : Prop :=
  StartsValid fp ∧ ∀ e ∈ fp, cseHasString e.flags = true → cseIsParent e.flags = false

theorem Storable.storedFile {out : List SiteEntry} {n : ℕ} (h : Storable out n) :
    StoredFile (out.take n) :=
  ⟨fun e he => h.starts e (List.mem_of_mem_take he),
    fun e he => h.plain e (List.mem_of_mem_take he)⟩

/-- A files database as the runs keep it. -/
structure Stored (dbm : Dbm σ) (s : FilesDb σ) : Prop where
  table : HostTable s.table
  startDb : StartDb dbm s.db
  file : ∀ ip port fp, s.files ip port = some fp →
    StoredFile fp ∧ 0 < port ∧ ∃ k, SiteAt s.table k ip port
  added : ∀ k ip port fp start, SiteAt s.table k ip port → s.files ip port = some fp →
    OccursIn start fp → (k : ℤ) ∈ hostsOf dbm start s
  only : ∀ start h, start ≠ 0 → h ∈ hostsOf dbm start s → ∃ (k : ℕ) (ip : ℕ) (port : ℤ) (fp : _),
    h = k ∧ SiteAt s.table k ip port ∧ s.files ip port = some fp ∧ OccursIn start fp

namespace Stored

variable {s : FilesDb σ} {k : ℕ} {ip : ℕ} {port : ℤ}

/-- The lists that have the host of a site are those of its file. -/
theorem occursIn (h : Stored dbm s) {fp : List SiteEntry} (hsite : SiteAt s.table k ip port)
    (hfile : s.files ip port = some fp) {start : ℤ} (hstart : start ≠ 0)
    (hmem : (k : ℤ) ∈ hostsOf dbm start s) : OccursIn start fp := by
  obtain ⟨j, ip', port', fp', hj, hsite', hfile', hocc⟩ := h.only start k hstart hmem
  obtain rfl := Int.ofNat.inj hj
  obtain ⟨rfl, rfl⟩ := hsite.inj hsite'
  obtain rfl := Option.some.inj (hfile.symm.trans hfile')
  exact hocc

/-- **A file in the place of another one**, or of none, or no file any more: the index of the
files is kept, when the host of the site is moved to the lists of the file. -/
theorem put (h : Stored dbm s) {table' : List HostTableEntry} (htable' : HostTable table')
    (hport : 0 < port) (hsite : SiteAt table' k ip port) (hother : SameElsewhere s.table table' k)
    (hbefore : ∀ ip' p', SiteAt s.table k ip' p' → ip' = ip ∧ p' = port)
    {file : Option (List SiteEntry)} (hfile : ∀ fp, file = some fp → StoredFile fp)
    {st : StartDbs σ} (hmoved : Moved dbm k file s st) :
    Stored dbm (({ s with table := table', db := st.db } : FilesDb σ).putFile ip port file) where
  table := htable'
  startDb := hmoved.startDb
  file ip' p' fp hfp := by
    by_cases hthis : ip' = ip ∧ p' = port
    · obtain ⟨rfl, rfl⟩ := hthis
      have hget : file = some fp := by simpa [FilesDb.putFile] using hfp
      exact ⟨hfile fp hget, hport, k, hsite⟩
    -- another site keeps its file, and its place in the table
    · have hget : s.files ip' p' = some fp := by simpa [FilesDb.putFile, hthis] using hfp
      obtain ⟨hstored, hport', j, hj⟩ := h.file ip' p' fp hget
      refine ⟨hstored, hport', j, (hother j ip' p' ?_).mpr hj⟩
      rintro rfl
      exact hthis (hbefore ip' p' hj)
  added j ip' p' fp start hj hfp hocc := by
    rw [hostsOf_eq hmoved.startDb rfl]
    by_cases hjk : j = k
    · subst hjk
      obtain ⟨rfl, rfl⟩ := SiteAt.inj hj hsite
      have hget : file = some fp := by simpa [FilesDb.putFile] using hfp
      exact hmoved.added fp hget start hocc
    -- another host is in the lists in which it was
    · have hthis : ¬(ip' = ip ∧ p' = port) := by
        rintro ⟨rfl, rfl⟩
        exact hjk (SiteAt.eq htable' hj hsite)
      have hget : s.files ip' p' = some fp := by simpa [FilesDb.putFile, hthis] using hfp
      rw [hmoved.kept start j (by simpa using hjk)]
      exact h.added j ip' p' fp start ((hother j ip' p' hjk).mp hj) hget hocc
  only start m hstart hm := by
    rw [hostsOf_eq hmoved.startDb rfl] at hm
    by_cases hmk : m = k
    · subst hmk
      obtain ⟨fp, hfp, hocc⟩ := hmoved.only start hstart hm
      exact ⟨k, ip, port, fp, rfl, hsite, by simp [FilesDb.putFile, hfp], hocc⟩
    · rw [hmoved.kept start m hmk] at hm
      obtain ⟨j, ip', p', fp, rfl, hj, hfp, hocc⟩ := h.only start m hstart hm
      have hjk : j ≠ k := by simpa using hmk
      have hj' : SiteAt table' j ip' p' := (hother j ip' p' hjk).mpr hj
      have hthis : ¬(ip' = ip ∧ p' = port) := by
        rintro ⟨rfl, rfl⟩
        exact hjk (SiteAt.eq htable' hj' hsite)
      exact ⟨j, ip', p', fp, rfl, hj', by simp [FilesDb.putFile, hthis, hfp], hocc⟩

end Stored

/-- A site is looked up by its address, and by a name that no other site has. -/
theorem SiteAt.find {table : List HostTableEntry} (h : HostTable table) {k ip : ℕ} {port : ℤ}
    (hsite : SiteAt table k ip port) (hport : 0 < port) {hostname : List UInt8}
    (hsame : ∀ e ∈ table, e.Is ip hostname port → e.ipaddr = ip) (unset : ℤ) :
    hostTableFind table ip hostname port unset = some (k : ℤ) := by
  obtain ⟨e, he, hlive, rfl, rfl⟩ := hsite
  obtain ⟨p, hfind, hp⟩ :=
    @hostTableFind_told table e.ipaddr hostname e.port ⟨hport, .inl hlive⟩ unset
  rw [hfind]
  refine hostTableIndex_unique he ((hp e).mpr ⟨rfl, .inl ⟨hlive, rfl⟩⟩) ?_
  intro j e' he' hpe'
  have his := (hp e').mp hpe'
  have hlive' : e'.Live := h.live_of_is he' hport his
  exact SiteAt.eq h ⟨e', he', hlive', hsame e' (List.mem_of_getElem? he') his, his.1⟩
    ⟨e, he, hlive, rfl, rfl⟩

theorem SiteAt.index_range {table : List HostTableEntry} (h : HostTable table) {k ip : ℕ}
    {port : ℤ} (hsite : SiteAt table k ip port) : 0 ≤ (k : ℤ) ∧ (k : ℤ) < 32768 := by
  obtain ⟨e, he, -⟩ := hsite
  have hlt := (List.getElem?_eq_some_iff.mp he).1
  have hbound := h.bound
  omega

/-! ### Runs -/

/-- What is asked of a site that is inserted: it has an address, a name and a port, and the table
has room for it, and no other site with its name or its address. -/
structure Insertable (s : FilesDb σ) (header : SiteHeader) (port unset : ℤ) : Prop where
  add : (HostTableCall.add header.primaryIpaddr header.primaryHostname port unset).Ok s.table
  same : SameSite s.table header port

variable (dbm) in
/-- The states of a files database that was empty, over insertions of arrays of some kind and
deletions.  The priorities of the hosts may be others each time.  An insertion or a deletion that
fails stops the run: what it has done to the lists is not undone. -/
inductive SiteRun (made : List SiteEntry → ℕ → Prop) : FilesDb σ → Prop
  | empty {s : FilesDb σ} : s.table = [] → (∀ start, dbm.fetch s.db start = none) →
      (∀ ip port, s.files ip port = none) → SiteRun made s
  | insert {s s' : FilesDb σ} {cmp : ℤ → ℤ → ℤ} {out : List SiteEntry} {outRecNo : ℕ}
      {header : SiteHeader} {port unset : ℤ} : SiteRun made s → made out outRecNo →
      Insertable s header port unset →
      insertAnonftp dbm cmp unset out outRecNo header port s = some s' → SiteRun made s'
  | delete {s s' : FilesDb σ} {cmp : ℤ → ℤ → ℤ} {ipaddr : ℕ} {port unset : ℤ} :
      SiteRun made s → deleteAnonftp dbm cmp unset ipaddr port s = some s' → SiteRun made s'

namespace Stored

variable {s s' : FilesDb σ} {port unset : ℤ}

theorem insert (h : Stored dbm s) {out : List SiteEntry} {outRecNo : ℕ} {header : SiteHeader}
    (hout : Storable out outRecNo) (hins : Insertable s header port unset)
    (hrun : insertAnonftp dbm cmp unset out outRecNo header port s = some s') : Stored dbm s' := by
  have hport := hins.add.2.2.1
  have hfile : ∀ fp, some (out.take outRecNo) = some fp → StoredFile fp := by
    intro fp hfp
    obtain rfl := Option.some.inj hfp
    exact hout.storedFile
  rw [insertAnonftp] at hrun
  obtain ⟨⟨table', st⟩, hput, heq⟩ := Option.bind_eq_some_iff.mp hrun
  obtain rfl := Option.some.inj heq
  rw [insertStarts] at hput
  cases hold : s.files header.primaryIpaddr port with
  | none =>
    -- the site may have an entry in the table, but it is in no list
    simp only [hold] at hput
    obtain ⟨hin, hadd, hloop⟩ := insertHstartDb_some hput
    obtain ⟨htable', k, rfl, hsite, hother, hbefore⟩ :=
      hostTableAdd_site h.table hins.add hins.same hadd
    refine h.put htable' hport hsite hother hbefore hfile ?_
    refine moved_insert h.startDb (hsite.index_range htable') hout ?_ hloop
    intro start hstart hmem
    obtain ⟨j, ip, p, fp, hj, hsite', hfp, -⟩ := h.only start k hstart hmem
    obtain rfl := Int.ofNat.inj hj
    obtain ⟨rfl, rfl⟩ := hbefore ip p hsite'
    rw [hold] at hfp
    exact absurd hfp (by simp)
  | some old =>
    -- the host is in the lists of the old file, and in no others
    simp only [hold] at hput
    obtain ⟨st', hcompare, heq⟩ := Option.map_eq_some_iff.mp hput
    obtain ⟨rfl, rfl⟩ := Prod.mk.inj heq
    obtain ⟨hstored, -, k, hsite⟩ := h.file _ _ _ hold
    have hfind := hsite.find h.table hport hins.same unset
    refine h.put h.table hport hsite (fun j ip p _ => Iff.rfl) ?_ hfile ?_
    · intro ip p hsite'
      exact hsite'.inj hsite
    · exact moved_compare h.startDb h.table.bound hout hstored.1 hfind
        (fun start hocc => h.added k _ _ old start hsite hold hocc)
        (fun start hstart hmem => h.occursIn hsite hold hstart hmem) hcompare

theorem delete (h : Stored dbm s) {ipaddr : ℕ}
    (hrun : deleteAnonftp dbm cmp unset ipaddr port s = some s') : Stored dbm s' := by
  rw [deleteAnonftp] at hrun
  cases hold : s.files ipaddr port with
  | none =>
    simp only [hold] at hrun
    obtain rfl := Option.some.inj hrun
    exact h
  | some fp =>
    simp only [hold] at hrun
    obtain ⟨st, hdelete, heq⟩ := Option.bind_eq_some_iff.mp hrun
    obtain rfl := Option.some.inj heq
    obtain ⟨hstored, hport, k, hsite⟩ := h.file _ _ _ hold
    -- without a name, the site is looked up by its address alone
    have hfind : hostTableFind s.table ipaddr [] port unset = some (k : ℤ) := by
      refine hsite.find h.table hport ?_ unset
      intro e _ his
      rcases his.2 with ⟨-, hip⟩ | ⟨hname, -⟩
      · exact hip
      · exact absurd rfl hname
    refine h.put h.table hport hsite (fun j ip p _ => Iff.rfl) ?_ (fun fp hfp => by simp at hfp) ?_
    · intro ip p hsite'
      exact hsite'.inj hsite
    · exact moved_delete h.startDb h.table.bound hstored.2 hfind
        (fun start hstart hmem => h.occursIn hsite hold hstart hmem) hdelete

end Stored

section

variable {made : List SiteEntry → ℕ → Prop} {s : FilesDb σ}

/-- Arrays of a kind are arrays of a wider one. -/
theorem SiteRun.mono {made' : List SiteEntry → ℕ → Prop} (h : SiteRun dbm made s)
    (hmade : ∀ out n, made out n → made' out n) : SiteRun dbm made' s := by
  induction h with
  | empty htable hdb hfiles => exact .empty htable hdb hfiles
  | insert _ hout hins hrun ih => exact ih.insert (hmade _ _ hout) hins hrun
  | delete _ hrun ih => exact ih.delete hrun

/-- The files are those of the arrays that were inserted. -/
theorem SiteRun.file (h : SiteRun dbm made s) {ip : ℕ} {port : ℤ} {fp : List SiteEntry}
    (hfp : s.files ip port = some fp) : ∃ out n, made out n ∧ fp = out.take n := by
  induction h generalizing ip port fp with
  | empty _ _ hfiles =>
    rw [hfiles] at hfp
    exact absurd hfp (by simp)
  | @insert s s' cmp out n header p unset _ hout _ hrun ih =>
    rw [insertAnonftp] at hrun
    obtain ⟨⟨table', st⟩, -, heq⟩ := Option.bind_eq_some_iff.mp hrun
    obtain rfl := Option.some.inj heq
    simp only [FilesDb.putFile] at hfp
    split at hfp
    next => exact ⟨out, n, hout, (Option.some.inj hfp).symm⟩
    next => exact ih hfp
  | @delete s s' cmp ipaddr p unset _ hrun ih =>
    rw [deleteAnonftp] at hrun
    split at hrun
    next =>
      obtain rfl := Option.some.inj hrun
      exact ih hfp
    next =>
      obtain ⟨st, -, heq⟩ := Option.bind_eq_some_iff.mp hrun
      obtain rfl := Option.some.inj heq
      simp only [FilesDb.putFile] at hfp
      split at hfp
      next => exact absurd hfp (by simp)
      next => exact ih hfp

theorem SiteRun.stored (h : SiteRun dbm Storable s) : Stored dbm s := by
  induction h with
  | @empty s htable hdb hfiles =>
    have hlist : ∀ start, hostsOf dbm start s = [] := by
      intro start
      rw [hostsOf]
      exact getIndexStartDbs_none (hdb start)
    refine ⟨by rw [htable]; exact hostTable_nil, ?_, ?_, ?_, ?_⟩
    · intro start entry hfetch
      rw [hdb] at hfetch
      exact absurd hfetch (by simp)
    · intro ip port fp hfp
      rw [hfiles] at hfp
      exact absurd hfp (by simp)
    · intro k ip port fp start _ hfp
      rw [hfiles] at hfp
      exact absurd hfp (by simp)
    · intro start m _ hm
      rw [hlist] at hm
      exact absurd hm (by simp)
  | insert _ hout hins hrun ih => exact ih.insert hout hins hrun
  | delete _ hrun ih => exact ih.delete hrun

/-- An index is looked up. -/
theorem hostTableFindArgs_index {table : List HostTableEntry} {port hin : ℤ} {found : HostFound} :
    hostTableFindArgs table 0 [] port hin = some found ↔ ∃ (k : ℕ) (e : HostTableEntry),
      hin = k ∧ table[k]? = some e ∧ found = ⟨e.ipaddr, e.hostname, e.port, k⟩ := by
  constructor
  · intro h
    have hnot : ¬ HostTold 0 [] port := by simp [HostTold]
    rw [hostTableFindArgs, if_neg hnot] at h
    obtain ⟨i, hi, h⟩ := Option.bind_eq_some_iff.mp h
    obtain ⟨e, he, heq⟩ := Option.bind_eq_some_iff.mp h
    have hrange : 0 ≤ hin ∧ i = hin := by
      rw [hostTableFind] at hi
      simp only [ne_eq, not_true_eq_false, false_and, if_false, and_false] at hi
      split at hi
      next hin' => exact ⟨hin'.1, (Option.some.inj hi).symm⟩
      next => simp at hi
    obtain ⟨hpos, rfl⟩ := hrange
    exact ⟨i.toNat, e, by omega, he, by rw [← Option.some.inj heq, Int.toNat_of_nonneg hpos]⟩
  · rintro ⟨k, e, rfl, he, rfl⟩
    exact HostTable.find_index he port

/-- The hosts of a start other than 0 are those of the sites whose files have it. -/
theorem Stored.mem_hostsOf (h : Stored dbm s) {start : ℤ} (hstart : start ≠ 0) {hin : ℤ} :
    hin ∈ hostsOf dbm start s ↔ ∃ found fp,
      hostTableFindArgs s.table 0 [] 0 hin = some found ∧
      s.files found.ipaddr found.port = some fp ∧ OccursIn start fp := by
  constructor
  · intro hmem
    obtain ⟨k, ip, port, fp, rfl, ⟨e, he, -, rfl, rfl⟩, hfp, hocc⟩ := h.only start hin hstart hmem
    exact ⟨_, fp, hostTableFindArgs_index.mpr ⟨k, e, rfl, he, rfl⟩, hfp, hocc⟩
  · rintro ⟨found, fp, hfound, hfp, hocc⟩
    obtain ⟨k, e, rfl, he, rfl⟩ := hostTableFindArgs_index.mp hfound
    obtain ⟨-, -, j, e', -, hlive, hip, -⟩ := h.file _ _ fp hfp
    refine h.added k e.ipaddr e.port fp start ⟨e, he, ?_, rfl, rfl⟩ hfp hocc
    have hip' : e'.ipaddr = e.ipaddr := hip
    rwa [HostTableEntry.Live, ← hip']

end

/-! ### A site with an empty directory -/

def emptyFilesDb : FilesDb (ℤ → Option (List ℤ)) := ⟨[], fun _ => none, fun _ _ => none⟩

/-- A file with the string 3, and a record for which there was no directory. -/
def sampleOut : List SiteEntry := [subpathRec (-1) (-1), ⟨0, 3, .entry 0 0 0 0⟩, zeroEntry]

theorem storable_sampleOut : Storable sampleOut 2 where
  starts := by
    simp [StartsValid, sampleOut, subpathRec, zeroEntry, IsStart, cseHasString, cseIsDir, cseIsFile,
      cseIsLink, cseIsDoc, cseIsKey]
  plain := by decide
  rest := by decide

theorem insertable_sample : Insertable emptyFilesDb ⟨2, [98]⟩ 21 0 where
  add := ⟨by simp, by simp, by simp, .inl (by simp [emptyFilesDb])⟩
  same := fun e he => absurd he List.not_mem_nil

theorem sampleOut_inserted : ∃ s, insertAnonftp mapDbm (fun _ _ => 0) 0 sampleOut 2 ⟨2, [98]⟩ 21
    emptyFilesDb = some s ∧ s.table = [⟨2, [98], 21⟩] ∧
      s.files 2 21 = some (sampleOut.take 2) := by
  refine ⟨_, rfl, rfl, ?_⟩
  simp [FilesDb.putFile]

/-- The host is left in the list of the start 0 when the site is deleted. -/
example : (do
    let s ← insertAnonftp mapDbm (fun _ _ => 0) 0 sampleOut 2 ⟨2, [98]⟩ 21 emptyFilesDb
    let s ← deleteAnonftp mapDbm (fun _ _ => 0) 0 2 21 s
    some (hostsOf mapDbm 0 s, hostsOf mapDbm 3 s)) = some ([0], []) := by
  decide +kernel

end Archie
