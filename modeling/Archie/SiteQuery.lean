/-
A query on the database of a run (`lib/archsearch/search.c`, on what
`anonftp/update/insert_anonftp.c` and `anonftp/update/delete_anonftp.c` leave).

The strings that match lead, by the lists of the start database and the host table, to the site
files, and each file is searched for the string.

* `MadeArray.entry` — the records of a file have their strings where the start database has them.
* `SiteRun.holds` — the lists of the start database tell the sites of each string.
* `siteRun_archQuery` — a query gives the records of all site files that are asked for.
-/
import Archie.PagingSame
import Archie.SiteRun

namespace Archie

variable {σ : Type} (dbm : Dbm σ) (strings : StringsDb) (indexed : List SiteEntry → Bool)
  (past : List SiteEntry → SiteEntry)

/-- A name has a place in the strings file, behind the separator at the beginning. -/
structure StringsDb.Placed (name : List UInt8) : Prop where
  faithful : strings.Faithful name
  pos : 0 < strings.appendKey name
  lt : strings.appendKey name < 2147483648

/-- The array that `setup_insert` has made of well-formed records. -/
inductive MadeArray : List SiteEntry → ℕ → Prop
  | intro {recs : List ParserEntry} {header : Header} {host unset : List UInt8}
      {out : List SiteEntry} {outRecNo : ℕ} {rest : List ParserEntry} :
      WellFormed recs → HeaderFor recs header host → strings.Placed host →
      (∀ r ∈ recs, strings.Placed r.name) →
      setupInsert strings unset (countExtraRecs recs header) recs
        (List.replicate (countExtraRecs recs header).siteNoRecs zeroEntry) =
        some (out, outRecNo, rest) →
      MadeArray out outRecNo

/-- What there is of a host: `host_table_find`, and the site file.  A file of some size has an
index. -/
def FilesDb.siteOf (s : FilesDb σ) (hin : ℤ) : Option SiteData := do
  let found ← hostTableFindArgs s.table 0 [] 0 hin
  let fp ← s.files found.ipaddr found.port
  some {
    web := false, ip := found.ipaddr, port := found.port, file := fp
    index? := if indexed fp then some (createSiteIndex fp) else none
    excerpts? := none, past := past fp }

/-- The database that is searched. -/
def FilesDb.searchDb (s : FilesDb σ) : SearchDb where
  strings := strings
  sites start := (hostsOf dbm start s).map (s.siteOf indexed past)

/-- The sites of the host table. -/
def FilesDb.allSites (s : FilesDb σ) : List SiteData :=
  (List.range s.table.length).filterMap fun k : ℕ => s.siteOf indexed past k

/-! ### The files -/

variable {dbm strings indexed past}

namespace MadeArray

variable {out : List SiteEntry} {n : ℕ}

theorem storable (h : MadeArray strings out n) : Storable out n := by
  obtain ⟨hwf, hheader, hhost, hrecs, hrun⟩ := h
  refine storable_setupInsert hwf hheader ⟨hhost.pos.le, hhost.lt⟩ ?_ hrun
  intro r hr
  exact ⟨(hrecs r hr).pos.le, (hrecs r hr).lt⟩

theorem made (h : MadeArray strings out n) : MadeBySetupInsert strings false (out.take n) := by
  obtain ⟨hwf, hheader, hhost, hrecs, hrun⟩ := h
  exact .anonftp hwf hheader hhost.faithful (fun r hr => (hrecs r hr).faithful) hrun

/-- A record that does not stand for a directory has a string, and counts for the lists. -/
theorem entry (h : MadeArray strings out n) {e : SiteEntry} (he : e ∈ out.take n)
    (hparent : cseIsParent e.flags = false) : cseHasString e.flags = true ∧ 0 < e.strt1 := by
  obtain @⟨recs, header, host, unset, _, _, rest, hwf, hheader, hhost, hrecs, hrun⟩ := h
  rw [(setupInsert_siteFile hwf hheader unset).2] at hrun
  obtain ⟨rfl, rfl, -⟩ : _ ∧ _ ∧ _ := by simpa only [Option.some.injEq, Prod.mk.injEq] using hrun
  rw [List.take_left, siteFile] at he
  split at he
  next => exact absurd he List.not_mem_nil
  next =>
    rcases mem_layout he with ⟨hyes, -⟩ | ⟨hflags, hstart⟩ | ⟨r, hr, rfl⟩
    · rw [hparent] at hyes
      exact absurd hyes (by simp)
    · rw [hflags, hstart]
      exact ⟨rfl, hhost.pos⟩
    · refine ⟨?_, (hrecs r hr).pos⟩
      have hplain := (plain_flags (hwf.plain r hr)).2
      simp only [Bool.or_eq_true] at hplain
      simp only [entryOf, cseHasString, Bool.or_eq_true]
      tauto

/-- The strings of a site are the starts of its file. -/
theorem hasString_iff (h : MadeArray strings out n) {site : SiteData}
    (hfile : site.file = out.take n)
    (start : ℤ) : site.hasString start = true ↔ OccursIn start (out.take n) := by
  rw [SiteData.hasString, hfile, List.any_eq_true]
  constructor
  · rintro ⟨e, he, hstart⟩
    simp only [Bool.and_eq_true, Bool.not_eq_true', decide_eq_true_eq] at hstart
    exact ⟨e, he, (h.entry he hstart.1).1, hstart.2⟩
  · rintro ⟨e, he, hstr, rfl⟩
    exact ⟨e, he, by simp [h.storable.plain e (List.mem_of_mem_take he) hstr]⟩

end MadeArray

theorem siteOf_eq_some {s : FilesDb σ} {hin : ℤ} {site : SiteData}
    (h : s.siteOf indexed past hin = some site) : ∃ found fp,
      hostTableFindArgs s.table 0 [] 0 hin = some found ∧
      s.files found.ipaddr found.port = some fp ∧ site.file = fp ∧ site.web = false ∧
      site.index? = if indexed fp then some (createSiteIndex fp) else none := by
  obtain ⟨found, hfound, h⟩ := Option.bind_eq_some_iff.mp h
  obtain ⟨fp, hfp, h⟩ := Option.bind_eq_some_iff.mp h
  obtain rfl := Option.some.inj h
  exact ⟨found, fp, hfound, hfp, rfl, rfl, rfl⟩

section

variable {α β : Type}

/-- What is left of the values of a partial function, by the arguments. -/
theorem filter_filterMap_map_some (f : α → Option β) (p : β → Bool) (l : List α) :
    ((l.filterMap f).filter p).map some = (l.filter fun a => (f a).any p).map f := by
  induction l with
  | nil => rfl
  | cons a l ih =>
    cases hfa : f a with
    | none => rw [List.filterMap_cons_none hfa, List.filter_cons_of_neg (by simp [hfa]), ih]
    | some b =>
      rw [List.filterMap_cons_some hfa]
      cases hp : p b with
      | true =>
        rw [List.filter_cons_of_pos hp, List.filter_cons_of_pos (by simp [hfa, hp]),
          List.map_cons, List.map_cons, ih, hfa]
      | false =>
        rw [List.filter_cons_of_neg (by simp [hp]), List.filter_cons_of_neg (by simp [hfa, hp]), ih]

end

/-! ### The sites of a string -/

variable {s : FilesDb σ}

theorem SiteRun.site_made (h : SiteRun dbm (MadeArray strings) s) {hin : ℤ} {site : SiteData}
    (hsite : s.siteOf indexed past hin = some site) :
    ∃ out n, MadeArray strings out n ∧ site.file = out.take n ∧ GoodSite strings site := by
  obtain ⟨found, fp, -, hfp, hfile, hweb, hindex⟩ := siteOf_eq_some hsite
  obtain ⟨out, n, hmade, rfl⟩ := h.file hfp
  refine ⟨out, n, hmade, hfile, ?_⟩
  constructor
  · rw [hweb, hfile]
    exact hmade.made.soundSite
  · intro index hmem
    rw [hindex, Option.mem_def] at hmem
    split at hmem
    next =>
      obtain rfl := Option.some.inj hmem
      rw [hfile]
      exact isSiteIndex_createSiteIndex _
    next => exact absurd hmem (by simp)

/-- **The lists of the start database** tell the sites of each string. -/
theorem SiteRun.holds (h : SiteRun dbm (MadeArray strings) s) :
    (s.searchDb dbm strings indexed past).Holds (s.allSites indexed past) where
  good site hsite := by
    obtain ⟨k, -, hk⟩ := List.mem_filterMap.mp hsite
    obtain ⟨-, -, -, -, hgood⟩ := h.site_made hk
    exact hgood
  pos site hsite e he hparent := by
    obtain ⟨k, -, hk⟩ := List.mem_filterMap.mp hsite
    obtain ⟨out, n, hmade, hfile, -⟩ := h.site_made hk
    rw [hfile] at he
    exact (hmade.entry he hparent).2
  sites start hpos := by
    have hstored : Stored dbm s := (h.mono fun out n hmade => hmade.storable).stored
    have hne : start ≠ 0 := by omega
    -- both lists are the sites of the same hosts
    have hhosts : (hostsOf dbm start s).Perm (((List.range s.table.length).filter fun k : ℕ =>
        (s.siteOf indexed past k).any (·.hasString start)).map ((↑) : ℕ → ℤ)) := by
      refine (List.perm_ext_iff_of_nodup ?_ ?_).mpr fun hin => ?_
      · have hopen : StartDb dbm (openStartDbs s.db).db := hstored.startDb
        exact hopen.lists.nodup start
      · exact (List.Nodup.filter _ List.nodup_range).map Nat.cast_injective
      -- a host of the list has a site file with the string, and the other way round
      · rw [hstored.mem_hostsOf hne, List.mem_map]
        constructor
        · rintro ⟨found, fp, hfound, hfp, hocc⟩
          obtain ⟨k, e, rfl, he, -⟩ := hostTableFindArgs_index.mp hfound
          obtain ⟨site, hsite⟩ : ∃ site, s.siteOf indexed past k = some site := by
            rw [FilesDb.siteOf, hfound, Option.bind_eq_bind, Option.bind_some, hfp]
            exact ⟨_, rfl⟩
          refine ⟨k, List.mem_filter.mpr ⟨List.mem_range.mpr
            (List.getElem?_eq_some_iff.mp he).1, ?_⟩, rfl⟩
          obtain ⟨found', fp', hfound', hfp', hfile', -⟩ := siteOf_eq_some hsite
          obtain ⟨out, n, hmade, hfile, -⟩ := h.site_made hsite
          obtain rfl := Option.some.inj (hfound.symm.trans hfound')
          obtain rfl := Option.some.inj (hfp.symm.trans hfp')
          rw [hsite, Option.any_some, hmade.hasString_iff hfile, ← hfile, hfile']
          exact hocc
        · rintro ⟨k, hk, rfl⟩
          obtain ⟨site, hsite, hstring⟩ := (Option.any_eq_true _ _).mp (List.mem_filter.mp hk).2
          obtain ⟨found, fp, hfound, hfp, hfile', -⟩ := siteOf_eq_some hsite
          obtain ⟨out, n, hmade, hfile, -⟩ := h.site_made hsite
          rw [hmade.hasString_iff hfile, ← hfile, hfile'] at hstring
          exact ⟨found, fp, hfound, hfp, hstring⟩
    rw [FilesDb.allSites, filter_filterMap_map_some]
    refine (hhosts.map _).trans (.of_eq ?_)
    rw [List.map_map]
    rfl

/-! ### A query -/

variable {asked : List UInt8 → Bool} {found : List ℤ} {search : ℕ → List ℤ → ℕ} {h m hpm : ℤ}

/-- Each string that is matched has a hit. -/
theorem SearchDb.matched_le (db : SearchDb) (starts : List ℤ) :
    db.matched starts ≤ (db.reported starts).length := by
  induction starts with
  | nil => exact le_refl 0
  | cons start starts ih =>
    rw [db.matched_cons, db.reported_cons, List.length_append]
    split
    next => omega
    next hne =>
      have hpos := List.length_pos_of_ne_nil fun hnil => hne (List.isEmpty_iff.mpr hnil)
      omega

/-- A page with room for all hits has those of all strings. -/
theorem archQuery_hits {db : SearchDb} {all : List SiteData} (hdb : db.Holds all)
    (hfound : FoundStrings db.strings asked found) (hsearch : IsSearch search)
    {siteRecord : StartReturn} (hrecord : siteRecord.string ≤ 0 ∨ siteRecord.stop < 0)
    (htotal : (db.reported found).length < (budget h m hpm).h)
    (hm : (budget h m hpm).h ≤ (budget h m hpm).m)
    (hhpm : (budget h m hpm).h ≤ (budget h m hpm).hpm) :
    (archQuery db anyPath search h m hpm found siteRecord).hits = db.reported found := by
  have hgood : ∀ start ∈ found, GoodStart db start := fun _ hstart => goodStart hdb hfound hstart
  have hroom : ∀ start ∈ found, (db.hitsOf start).length < (budget h m hpm).hpm := by
    intro start hstart
    obtain ⟨before, after, rfl⟩ := List.append_of_mem hstart
    rw [db.reported_append, db.reported_cons, List.length_append, List.length_append] at htotal
    omega
  -- so many strings with hits would have too many hits
  have hlater : db.laterStrings (budget h m hpm).m found = [] := by
    by_contra hne
    have hmatched := db.matched_firstStrings hne
    have hle : db.matched (db.firstStrings (budget h m hpm).m found) ≤
        (db.reported (db.firstStrings (budget h m hpm).m found)).length := db.matched_le _
    have hall := congrArg (fun starts => (db.reported starts).length)
      (db.firstStrings_append_later (budget h m hpm).m found)
    simp only [db.reported_append, List.length_append] at hall
    omega
  have hfirst : db.firstStrings (budget h m hpm).m found = found := by
    have hall := db.firstStrings_append_later (budget h m hpm).m found
    rwa [hlater, List.append_nil] at hall
  have hspec := (@archQuery_spec db found search h m hpm hsearch hgood siteRecord hrecord hroom).1
  rw [hfirst] at hspec
  exact (hspec htotal).1

/-- The array of the records of `twinRecs`. -/
def twinOut : List SiteEntry :=
  siteFile textDb [104, 104] twinRecs ++ List.replicate
    ((countExtraRecs twinRecs ⟨8, 3, 0, [104, 104], []⟩).siteNoRecs -
      (siteFile textDb [104, 104] twinRecs).length) zeroEntry

theorem twinOut_made :
    MadeArray textDb twinOut (siteFile textDb [104, 104] twinRecs).length := by
  refine .intro twinRecs_wellFormed twin_headerFor ⟨⟨by decide, rfl⟩, by decide, by decide⟩ ?_
    (setupInsert_siteFile twinRecs_wellFormed twin_headerFor []).2
  intro r hr
  have hname : r.name = [102] ∨ r.name = [100] := by
    simp only [twinRecs, List.mem_cons, List.not_mem_nil, or_false] at hr
    rcases hr with rfl | rfl | rfl
    · exact .inl rfl
    · exact .inr rfl
    · exact .inl rfl
  rcases hname with hname | hname <;> rw [hname] <;>
    exact ⟨⟨by decide, rfl⟩, by decide, by decide⟩

theorem twinOut_inserted : ∃ s, insertAnonftp mapDbm (fun _ _ => 0) 0 twinOut
    (siteFile textDb [104, 104] twinRecs).length ⟨1, [104, 104]⟩ 21 emptyFilesDb = some s ∧
      hostsOf mapDbm 8 s = [0] ∧
      s.siteOf (fun _ => false) (fun _ => zeroEntry) 0 = some twinSite := by
  refine ⟨_, rfl, ?_, ?_⟩
  · decide +kernel
  · rfl

end Archie
