/-
Inserting, updating and deleting a site (`anonftp/update/insert_anonftp.c`:
`insert_hstart_db` and the choice that `main` makes; `anonftp/update/setup_delete.c`).

A site has a file in the files database, an index in the host table and its index in the lists
of the start database.

* `updateRecords_spec` — a loop over the records of a file changes the lists of their starts.
* `moved_insert`, `moved_compare`, `moved_delete` — after each of the three, the lists that have
  the host are those of the file that is stored.
-/
import Archie.HostTable
import Archie.HstartDb
import Archie.SetupInsert

namespace Archie

variable {σ : Type} (dbm : Dbm σ)

/-- A loop over the records of a site file that makes one kind of update for each record whose
flags are of some kind. -/
def updateRecords (cmp : ℤ → ℤ → ℤ) (hin : ℤ) (what : SiteOp) (kind : ℕ → Bool) :
    List SiteEntry → StartDbs σ → Option (StartDbs σ)
  | [], st => some st
  | e :: fp, st =>
    if kind e.flags then do
      let st ← updateStartDbs dbm cmp e.strt1 hin what st
      updateRecords cmp hin what kind fp st
    else updateRecords cmp hin what kind fp st

/-- `insert_hstart_db`: the host table and the start database; `none` is `ERROR`. -/
def insertHstartDb (cmp : ℤ → ℤ → ℤ) (unset : ℤ) (fp : List SiteEntry) (header : SiteHeader)
    (port : ℤ) (table : List HostTableEntry) (st : StartDbs σ) :
    Option (List HostTableEntry × StartDbs σ) := do
  let (table, hin) :=
    match hostTableFind table header.primaryIpaddr header.primaryHostname port unset with
    | some i => (table, hostIndex i)
    | none => hostTableAdd table header.primaryIpaddr header.primaryHostname port unset
  let st ← updateRecords dbm cmp hin .addSite cseHasString fp st
  some (table, st)

/-- `setup_delete`, of a file that can be read; `none` is `ERROR`. -/
def setupDelete (cmp : ℤ → ℤ → ℤ) (unset : ℤ) (fp : List SiteEntry) (ipaddr : ℕ) (port : ℤ)
    (table : List HostTableEntry) (st : StartDbs σ) : Option (StartDbs σ) := do
  let hin ← hostTableFind table ipaddr [] port unset
  updateRecords dbm cmp hin .deleteSite (fun flags => !cseIsParent flags) fp st

/-! ### The files database -/

/-- The files database with the host table and the start database.  A site file is kept under
the address and the port of its site. -/
structure FilesDb (σ : Type) where
  table : List HostTableEntry
  db : σ
  files : ℕ → ℤ → Option (List SiteEntry)

namespace FilesDb

/-- The database with another file for a site, or none. -/
def putFile (s : FilesDb σ) (ipaddr : ℕ) (port : ℤ) (file : Option (List SiteEntry)) :
    FilesDb σ :=
  { s with files := fun ip p => if ip = ipaddr ∧ p = port then file else s.files ip p }

end FilesDb

/-- A start database that was just opened: `index_list` is zero. -/
def openStartDbs (db : σ) : StartDbs σ := ⟨fun _ => 0, db⟩

/-- The choice of `insert_anonftp`: a file is compared with the one that the site has. -/
def insertStarts (cmp : ℤ → ℤ → ℤ) (unset : ℤ) (out : List SiteEntry) (header : SiteHeader)
    (port : ℤ) (s : FilesDb σ) : Option (List HostTableEntry × StartDbs σ) :=
  match s.files header.primaryIpaddr port with
  | none => insertHstartDb dbm cmp unset out header port s.table (openStartDbs s.db)
  | some old =>
    (insertCompareHstartDb dbm s.table cmp unset out old header port (openStartDbs s.db)).map
      fun st => (s.table, st)

/-- The end of `insert_anonftp`, from the array of `setup_insert`.  All its records get into the
start database; the file is then cut to the first `outRecNo` of them. -/
def insertAnonftp (cmp : ℤ → ℤ → ℤ) (unset : ℤ) (out : List SiteEntry) (outRecNo : ℕ)
    (header : SiteHeader) (port : ℤ) (s : FilesDb σ) : Option (FilesDb σ) := do
  let (table, st) ← insertStarts dbm cmp unset out header port s
  some (({ s with table := table, db := st.db } : FilesDb σ).putFile header.primaryIpaddr port
    (some (out.take outRecNo)))

/-- The end of `delete_anonftp`.  A site without a file is left alone. -/
def deleteAnonftp (cmp : ℤ → ℤ → ℤ) (unset : ℤ) (ipaddr : ℕ) (port : ℤ) (s : FilesDb σ) :
    Option (FilesDb σ) :=
  match s.files ipaddr port with
  | none => some s
  | some fp => do
    let st ← setupDelete dbm cmp unset fp ipaddr port s.table (openStartDbs s.db)
    some (({ s with db := st.db } : FilesDb σ).putFile ipaddr port none)

/-- The hosts of a start: `get_index_start_dbs` of an archie server. -/
def hostsOf (start : ℤ) (s : FilesDb σ) : List ℤ := getIndexStartDbs dbm start (openStartDbs s.db)

variable {dbm} {cmp : ℤ → ℤ → ℤ} {hin : ℤ}

/-- What the array holds does not matter to a read. -/
theorem hostsOf_eq {s : FilesDb σ} {st : StartDbs σ} (hdb : StartDb dbm st.db) (hs : s.db = st.db)
    (start : ℤ) : hostsOf dbm start s = getIndexStartDbs dbm start st := by
  have hlists := hdb.lists
  have hopen : Lists dbm (openStartDbs s.db).db fun start => getIndexStartDbs dbm start st := by
    rw [openStartDbs, hs]
    exact hlists
  exact hopen.getIndexStartDbs_eq start

/-! ### The loops over a file -/

/-- A record of a file, with flags of some kind, has the start. -/
def HasRecord (kind : ℕ → Bool) (s : ℤ) (fp : List SiteEntry) : Prop :=
  ∃ e ∈ fp, kind e.flags = true ∧ e.strt1 = s

theorem hasRecord_cons {kind : ℕ → Bool} {s : ℤ} {e : SiteEntry} {fp : List SiteEntry} :
    HasRecord kind s (e :: fp) ↔ kind e.flags = true ∧ e.strt1 = s ∨ HasRecord kind s fp := by
  simp only [HasRecord, List.exists_mem_cons_iff]

/-- **A loop over the records** updates the lists of their starts.  A start that comes again is
only updated again. -/
theorem updateRecords_spec (hhin : 0 ≤ hin ∧ hin < 32768) {what : SiteOp} {kind : ℕ → Bool}
    {fp : List SiteEntry} {st st' : StartDbs σ} (hdb : StartDb dbm st.db)
    (h : updateRecords dbm cmp hin what kind fp st = some st') :
    UpdatedAll dbm hin (HasRecord kind · fp) (fun _ => what = .addSite) st st' := by
  induction fp generalizing st with
  | nil =>
    obtain rfl := Option.some.inj h
    refine updatedAll_none hdb ?_
    rintro s ⟨e, he, -⟩
    exact absurd he List.not_mem_nil
  | cons e fp ih =>
    rw [updateRecords] at h
    split at h
    next hkind =>
      obtain ⟨st₁, hst₁, hrest⟩ := Option.bind_eq_some_iff.mp h
      have hone := updateStartDbs_spec hdb hhin hst₁
      have hall := ih hone.1 hrest
      refine ⟨hall.startDb, ?_, ?_⟩
      · intro s hs
        by_cases hlater : HasRecord kind s fp
        · exact hall.changed s hlater
        · -- this record is the last one with the start
          obtain ⟨-, rfl⟩ := (hasRecord_cons.mp hs).resolve_right hlater
          rw [hall.kept _ hin (fun _ => hlater), hone.2, if_pos ⟨rfl, rfl⟩]
      · intro s k hk
        rw [hall.kept s k fun hk' hlater => hk hk' (hasRecord_cons.mpr (.inr hlater)), hone.2,
          if_neg]
        rintro ⟨rfl, hk'⟩
        exact hk hk' (hasRecord_cons.mpr (.inl ⟨hkind, rfl⟩))
    next hkind =>
      refine (ih hdb h).congr ?_ (fun s _ => Iff.rfl)
      intro s
      rw [hasRecord_cons, or_iff_right]
      rintro ⟨hkind', -⟩
      exact hkind hkind'

/-- The sorted starts of a file that has some. -/
theorem siteStarts_some {fp : List SiteEntry} (hvalid : StartsValid fp) {ar : List ℤ}
    (h : siteStarts fp = some ar) : ar.Pairwise (· < ·) ∧ ∀ s, s ∈ ar ↔ OccursIn s fp := by
  have hne : ∃ e ∈ fp, cseHasString e.flags = true := by
    by_contra hno
    have hnil : startsOf fp = [] := by
      rw [startsOf, List.map_eq_nil_iff, List.filter_eq_nil_iff]
      intro e he hstr
      exact hno ⟨e, he, hstr⟩
    rw [siteStarts, unique, if_pos (qsort_eq_nil.mpr hnil)] at h
    simp at h
  obtain ⟨ar', har', hord, hmem⟩ := siteStarts_spec hvalid hne
  obtain rfl := Option.some.inj (h.symm.trans har')
  exact ⟨hord, hmem⟩

/-! ### The three ways to store a file -/

/-- The array of `setup_insert`, of which `n` records are kept.  A record whose string counts does
not stand for a directory; the records that are cut off were never written. -/
structure Storable (out : List SiteEntry) (n : ℕ) : Prop where
  starts : StartsValid out
  plain : ∀ e ∈ out, cseHasString e.flags = true → cseIsParent e.flags = false
  rest : ∀ e ∈ out.drop n, e.strt1 = 0

theorem OccursIn.of_take {s : ℤ} {out : List SiteEntry} {n : ℕ} (h : OccursIn s (out.take n)) :
    OccursIn s out := by
  obtain ⟨e, he, hstr, hstart⟩ := h
  exact ⟨e, List.mem_of_mem_take he, hstr, hstart⟩

/-- Only the start 0 may occur in the records that are cut off. -/
theorem Storable.occursIn_take {s : ℤ} {out : List SiteEntry} {n : ℕ} (h : Storable out n)
    (hs : s ≠ 0) (hocc : OccursIn s out) : OccursIn s (out.take n) := by
  obtain ⟨e, he, hstr, rfl⟩ := hocc
  rw [← List.take_append_drop n out] at he
  rcases List.mem_append.mp he with he | he
  · exact ⟨e, he, hstr, rfl⟩
  · exact absurd (h.rest e he) hs

/-- A record of a site file stands for a directory, or is that of an entry or of the name of the
site. -/
theorem mem_layout {db : StringsDb} {host : List UInt8} {recs : List ParserEntry} {e : SiteEntry}
    (he : e ∈ (layout db host recs).file) :
    cseIsParent e.flags = true ∧ cseHasString e.flags = false ∨
      e.flags = 0x01 ∧ e.strt1 = db.appendKey host ∨ ∃ r ∈ recs, e = entryOf db r := by
  have hsub : ∀ s t, cseIsParent (subpathRec s t).flags = true ∧
      cseHasString (subpathRec s t).flags = false := by
    intro s t
    exact ⟨cseIsParent_subpathRec s t, (by decide : cseHasString 0x04 = false)⟩
  induction recs using List.reverseRecOn with
  | nil =>
    simp only [layout, List.foldl_nil, Layout.start, hostRecs, List.mem_cons,
      List.not_mem_nil, or_false] at he
    rcases he with rfl | rfl | rfl
    · exact .inl (hsub _ _)
    · exact .inr (.inl ⟨rfl, rfl⟩)
    · exact .inl ⟨(by decide : cseIsParent 0x20 = true), (by decide : cseHasString 0x20 = false)⟩
  | append_singleton recs r ih =>
    rw [layout_append_singleton, Layout.add, Layout.addEntry, Layout.enter] at he
    -- a record comes last, after one for its directory if that is entered
    have hcases : e ∈ (layout db host recs).file ∨ (∃ s t, e = subpathRec s t) ∨
        e = entryOf db r := by
      split at he
      next =>
        rcases List.mem_append.mp he with he | he
        · exact .inl he
        · exact .inr (.inr (List.mem_singleton.mp he))
      next =>
        rcases List.mem_append.mp he with he | he
        · rcases List.mem_append.mp he with he | he
          · exact .inl he
          · exact .inr (.inl ⟨_, _, List.mem_singleton.mp he⟩)
        · exact .inr (.inr (List.mem_singleton.mp he))
    rcases hcases with he | ⟨s, t, rfl⟩ | rfl
    · rcases ih he with hparent | hhost | ⟨q, hq, rfl⟩
      · exact .inl hparent
      · exact .inr (.inl hhost)
      · exact .inr (.inr ⟨q, List.mem_append_left _ hq, rfl⟩)
    · exact .inl (hsub s t)
    · exact .inr (.inr ⟨r, by simp, rfl⟩)

/-- **The array of `setup_insert`** can be stored. -/
theorem storable_setupInsert {db : StringsDb} {recs : List ParserEntry} (h : WellFormed recs)
    {header : Header} {host : List UInt8} (hheader : HeaderFor recs header host)
    (hhost : IsStart (db.appendKey host)) (hrecs : ∀ r ∈ recs, IsStart (db.appendKey r.name))
    {unset : List UInt8} {out : List SiteEntry} {n : ℕ} {rest : List ParserEntry}
    (hrun : setupInsert db unset (countExtraRecs recs header) recs
      (List.replicate (countExtraRecs recs header).siteNoRecs zeroEntry) = some (out, n, rest)) :
    Storable out n := by
  rw [(setupInsert_siteFile h hheader unset).2] at hrun
  obtain ⟨rfl, rfl, -⟩ : _ ∧ _ ∧ _ := by simpa only [Option.some.injEq, Prod.mk.injEq] using hrun
  have hfile : ∀ e ∈ siteFile db host recs, cseHasString e.flags = true →
      IsStart e.strt1 ∧ cseIsParent e.flags = false := by
    intro e he hstr
    rw [siteFile] at he
    split at he
    next => exact absurd he List.not_mem_nil
    next =>
      rcases mem_layout he with ⟨-, hno⟩ | ⟨hflags, hstart⟩ | ⟨r, hr, rfl⟩
      · rw [hno] at hstr
        exact absurd hstr (by simp)
      · rw [hflags, hstart]
        exact ⟨hhost, rfl⟩
      · exact ⟨hrecs r hr, (plain_flags (h.plain r hr)).1⟩
  have hall : ∀ e ∈ siteFile db host recs ++ List.replicate
      ((countExtraRecs recs header).siteNoRecs - (siteFile db host recs).length) zeroEntry,
      cseHasString e.flags = true → IsStart e.strt1 ∧ cseIsParent e.flags = false := by
    intro e he hstr
    rcases List.mem_append.mp he with he | he
    · exact hfile e he hstr
    · rw [(List.mem_replicate.mp he).2]
      exact ⟨⟨le_refl 0, by decide⟩, rfl⟩
  refine ⟨fun e he hstr => (hall e he hstr).1, fun e he hstr => (hall e he hstr).2, ?_⟩
  intro e he
  rw [List.drop_left] at he
  rw [(List.mem_replicate.mp he).2]
  rfl

/-- A host that is moved to the lists of a file, or to none.  It may be left in that of the start
0; the other hosts stay where they are. -/
structure Moved (dbm : Dbm σ) (hin : ℤ) (file : Option (List SiteEntry)) (s : FilesDb σ)
    (st : StartDbs σ) : Prop where
  startDb : StartDb dbm st.db
  added : ∀ fp, file = some fp → ∀ start, OccursIn start fp → hin ∈ getIndexStartDbs dbm start st
  only : ∀ start, start ≠ 0 → hin ∈ getIndexStartDbs dbm start st →
    ∃ fp, file = some fp ∧ OccursIn start fp
  kept : ∀ start h, h ≠ hin → (h ∈ getIndexStartDbs dbm start st ↔ h ∈ hostsOf dbm start s)

variable {s : FilesDb σ} {st : StartDbs σ} {unset port : ℤ} {out fp : List SiteEntry} {n : ℕ}

/-- The host that `insert_hstart_db` looks up or adds is the one that `host_table_add` gives. -/
theorem insertHstartDb_some {header : SiteHeader} {table table' : List HostTableEntry}
    {st₀ : StartDbs σ}
    (h : insertHstartDb dbm cmp unset out header port table st₀ = some (table', st)) :
    ∃ hin, hostTableAdd table header.primaryIpaddr header.primaryHostname port unset =
        (table', hin) ∧
      updateRecords dbm cmp hin .addSite cseHasString out st₀ = some st := by
  rw [insertHstartDb] at h
  cases hfind : hostTableFind table header.primaryIpaddr header.primaryHostname port unset with
  | none =>
    simp only [hfind] at h
    obtain ⟨st₁, hst₁, heq⟩ := Option.bind_eq_some_iff.mp h
    obtain ⟨rfl, rfl⟩ := Prod.mk.inj (Option.some.inj heq)
    exact ⟨_, rfl, hst₁⟩
  | some i =>
    simp only [hfind] at h
    obtain ⟨st₁, hst₁, heq⟩ := Option.bind_eq_some_iff.mp h
    obtain ⟨rfl, rfl⟩ := Prod.mk.inj (Option.some.inj heq)
    refine ⟨_, ?_, hst₁⟩
    rw [hostTableAdd, hfind]

/-- An index that is looked up is that of a host. -/
theorem hostTableFind_range {table : List HostTableEntry} {ipaddr : ℕ} {hostname : List UInt8}
    (hbound : table.length ≤ 32768)
    (hfind : hostTableFind table ipaddr hostname port unset = some hin) :
    0 ≤ hin ∧ hin < 32768 := by
  have hlt := hostTableFind_lt hfind
  omega

/-- **A new file.**  The host was in no list, but that of the start 0. -/
theorem moved_insert (hdb : StartDb dbm s.db) (hhin : 0 ≤ hin ∧ hin < 32768)
    (hout : Storable out n) (hnew : ∀ start, start ≠ 0 → hin ∉ hostsOf dbm start s)
    (h : updateRecords dbm cmp hin .addSite cseHasString out (openStartDbs s.db) = some st) :
    Moved dbm hin (some (out.take n)) s st := by
  have hopen : StartDb dbm (openStartDbs s.db).db := hdb
  have hall := updateRecords_spec hhin hopen h
  refine ⟨hall.startDb, ?_, ?_, ?_⟩
  · intro fp hfp start hocc
    obtain rfl := Option.some.inj hfp
    exact (hall.changed start hocc.of_take).mpr rfl
  · intro start hstart hmem
    by_cases hocc : OccursIn start out
    · exact ⟨_, rfl, hout.occursIn_take hstart hocc⟩
    -- a list that is not updated is as it was
    · exact absurd ((hall.kept start hin fun _ => hocc).mp hmem) (hnew start hstart)
  · intro start k hk
    exact hall.kept start k fun he => absurd he hk

/-- **A file in the place of another one.** -/
theorem moved_compare {header : SiteHeader} (hdb : StartDb dbm s.db)
    (hbound : s.table.length ≤ 32768) (hout : Storable out n) (hfp : StartsValid fp)
    (hfind : hostTableFind s.table header.primaryIpaddr header.primaryHostname port unset =
      some hin)
    (hadded : ∀ start, OccursIn start fp → hin ∈ hostsOf dbm start s)
    (honly : ∀ start, start ≠ 0 → hin ∈ hostsOf dbm start s → OccursIn start fp)
    (h : insertCompareHstartDb dbm s.table cmp unset out fp header port (openStartDbs s.db) =
      some st) :
    Moved dbm hin (some (out.take n)) s st := by
  rw [insertCompareHstartDb] at h
  obtain ⟨ar1, har1, h⟩ := Option.bind_eq_some_iff.mp h
  obtain ⟨ar2, har2, h⟩ := Option.bind_eq_some_iff.mp h
  obtain ⟨i, hi, h⟩ := Option.bind_eq_some_iff.mp h
  obtain rfl := Option.some.inj (hfind.symm.trans hi)
  have hhin := hostTableFind_range hbound hfind
  obtain ⟨hord1, hmem1⟩ := siteStarts_some hout.starts har1
  obtain ⟨hord2, hmem2⟩ := siteStarts_some hfp har2
  have hopen : StartDb dbm (openStartDbs s.db).db := hdb
  have hall := compareLoop_spec hhin hord1 hord2 hopen h
  refine ⟨hall.startDb, ?_, ?_, ?_⟩
  · intro fp' hfp' start hocc
    obtain rfl := Option.some.inj hfp'
    by_cases hsame : start ∈ ar1 ↔ start ∈ ar2
    · -- the merge passes by a start of both files
      rw [hall.kept start hin fun _ hP => hP hsame]
      exact hadded start ((hmem2 start).mp (hsame.mp ((hmem1 start).mpr hocc.of_take)))
    · exact (hall.changed start hsame).mpr ((hmem1 start).mpr hocc.of_take)
  · intro start hstart hmem
    refine ⟨_, rfl, hout.occursIn_take hstart ?_⟩
    by_cases hsame : start ∈ ar1 ↔ start ∈ ar2
    · rw [hall.kept start hin fun _ hP => hP hsame] at hmem
      exact (hmem1 start).mp (hsame.mpr ((hmem2 start).mpr (honly start hstart hmem)))
    · exact (hmem1 start).mp ((hall.changed start hsame).mp hmem)
  · intro start k hk
    exact hall.kept start k fun he => absurd he hk

/-- **A file that is deleted.**  The records that do not stand for a directory have all the
starts of the file. -/
theorem moved_delete {ipaddr : ℕ} (hdb : StartDb dbm s.db) (hbound : s.table.length ≤ 32768)
    (hplain : ∀ e ∈ fp, cseHasString e.flags = true → cseIsParent e.flags = false)
    (hfind : hostTableFind s.table ipaddr [] port unset = some hin)
    (honly : ∀ start, start ≠ 0 → hin ∈ hostsOf dbm start s → OccursIn start fp)
    (h : setupDelete dbm cmp unset fp ipaddr port s.table (openStartDbs s.db) = some st) :
    Moved dbm hin none s st := by
  rw [setupDelete] at h
  obtain ⟨i, hi, h⟩ := Option.bind_eq_some_iff.mp h
  obtain rfl := Option.some.inj (hfind.symm.trans hi)
  have hhin := hostTableFind_range hbound hfind
  have hopen : StartDb dbm (openStartDbs s.db).db := hdb
  have hall := updateRecords_spec hhin hopen h
  refine ⟨hall.startDb, fun fp' hfp' => by simp at hfp', ?_, ?_⟩
  · intro start hstart hmem
    exfalso
    by_cases hrec : HasRecord (fun flags => !cseIsParent flags) start fp
    · exact absurd ((hall.changed start hrec).mp hmem) (by simp)
    -- only records for directories could have kept the start, and they have no string
    · rw [hall.kept start hin fun _ => hrec] at hmem
      obtain ⟨e, he, hstr, hstart'⟩ := honly start hstart hmem
      exact hrec ⟨e, he, by simp [hplain e he hstr], hstart'⟩
  · intro start k hk
    exact hall.kept start k fun he => absurd he hk

end Archie
