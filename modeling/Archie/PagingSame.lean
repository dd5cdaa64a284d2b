/-
The pages of a query together (`archsearch/search.c`: `archQuery`, `archQueryMore`).

* `reported_perm_wanted_iff` — the hits of the strings that match are those of the
  records whose name is asked for, exactly if no record that stands for a directory
  is found in an index in their place.
* `archQuery_paging` — the pages give each of them once, exactly if moreover no page is
  full.
-/
import Mathlib.Data.Multiset.Bind
import Archie.Batches
import Archie.IndexSame
import Archie.PageRuns

namespace Archie

variable {db : SearchDb} {all : List SiteData} {asked : List UInt8 → Bool} {found : List ℤ}
  {search : ℕ → List ℤ → ℕ} {h m hpm : ℤ}

/-! ### The database and the records asked for -/

/-- An entry of a site has a string. -/
def SiteData.hasString (site : SiteData) (start : ℤ) : Bool :=
  site.file.any fun e => !cseIsParent e.flags && decide (e.strt1 = start)

/-- The sites of a database, and the sites of each string.  The text of the strings begins
with a separator, so that no string is at its beginning. -/
structure SearchDb.Holds (db : SearchDb) (all : List SiteData) : Prop where
  good : ∀ site ∈ all, GoodSite db.strings site
  pos : ∀ site ∈ all, ∀ e ∈ site.file, cseIsParent e.flags = false → 0 < e.strt1
  sites : ∀ start, 0 < start → (db.sites start).Perm ((all.filter (·.hasString start)).map some)

/-- The strings that match, each once. -/
structure FoundStrings (db : StringsDb) (asked : List UInt8 → Bool) (found : List ℤ) : Prop where
  nodup : found.Nodup
  mem : ∀ start, start ∈ found ↔ 0 < start ∧ ∃ name, db.getString start = some name ∧
    asked name = true

/-- The record is an entry that the database shows, and its name is asked for. -/
def SiteData.isWanted (db : StringsDb) (asked : List UInt8 → Bool) (site : SiteData) (r : ℕ) :
    Bool :=
  site.file[r]?.any fun e =>
    !cseIsParent e.flags && site.shows e && (db.getString e.strt1).any asked

/-- The records whose name is asked for. -/
def SiteData.wantedRecords (db : StringsDb) (asked : List UInt8 → Bool) (site : SiteData) :
    List ℕ :=
  (List.range' 0 site.file.length).filter (site.isWanted db asked)

/-- The hits of the records whose name is asked for, one for each record of each site. -/
def SearchDb.wanted (db : SearchDb) (all : List SiteData) (asked : List UInt8 → Bool) :
    List QueryResult :=
  all.flatMap fun site => (site.wantedRecords db.strings asked).filterMap (hitAt db.strings site)

/-- No record that stands for a directory is found in the index of an anonymous FTP site
instead of an entry with the string. -/
def NoDirHits (all : List SiteData) (found : List ℤ) : Prop :=
  ∀ start ∈ found, ∀ site ∈ all, site.hasString start = true → site.index?.isSome = true →
    site.web = false → ∀ e ∈ site.file, cseIsParent e.flags = true → e.strt1 ≠ start

theorem goodStart (hdb : db.Holds all) (hfound : FoundStrings db.strings asked found) {start : ℤ}
    (hstart : start ∈ found) : GoodStart db start := by
  obtain ⟨hpos, name, hname, -⟩ := (hfound.mem start).mp hstart
  refine ⟨hpos, by rw [hname]; rfl, fun o ho => ?_⟩
  obtain ⟨site, hsite, rfl⟩ := List.mem_map.mp ((hdb.sites start hpos).mem_iff.mp ho)
  exact ⟨site, rfl, hdb.good site (List.mem_filter.mp hsite).1⟩

/-! ### The strings that match and the records asked for -/

/-- The records of a string that are found in an index only. -/
def SiteData.extra (site : SiteData) (start : ℤ) : List ℕ :=
  if site.index?.isSome then site.dirsWith start else []

theorem GoodSite.order_perm {site : SiteData} {strings : StringsDb} (hsite : GoodSite strings site)
    (start : ℤ) : (site.order start).Perm
      ((List.range' 0 site.file.length).filter (site.matching start) ++ site.extra start) := by
  rw [SiteData.order]
  cases hrecs : site.indexed start with
  | none =>
    -- without an index, or when the index has no record with the string
    have hextra : site.extra start = [] := by
      rw [SiteData.extra]
      split
      next hindex =>
        obtain ⟨index, hindex⟩ := Option.isSome_iff_exists.mp hindex
        rw [SiteData.indexed, hindex, Option.bind_some] at hrecs
        rcases searchSiteIndex_perm (hsite.index index hindex) start with ⟨hnil, -⟩ |
          ⟨recs, -, -, hsome⟩
        · rw [SiteData.dirsWith, hnil]
          rfl
        · rw [hsome] at hrecs
          exact absurd hrecs (by simp)
      next => rfl
    rw [hextra, List.append_nil]
  | some recs =>
    have hindex : site.index?.isSome = true := by
      cases hi : site.index? with
      | none => simp [SiteData.indexed, hi] at hrecs
      | some index => rfl
    rw [SiteData.extra, if_pos hindex]
    exact taken_perm (hsite.indexed_perm hrecs)

section

variable {α β γ : Type*}

/-- Two ways through a table. -/
theorem flatMap_comm_perm (l : List α) (l' : List β) (f : α → β → List γ) :
    (l.flatMap fun a => l'.flatMap (f a)).Perm (l'.flatMap fun b => l.flatMap fun a => f a b) := by
  induction l with
  | nil => simp
  | cons a l ih =>
    rw [List.flatMap_cons]
    refine (ih.append_left _).trans ?_
    exact List.flatMap_append_perm l' (f a) fun b => l.flatMap fun a => f a b

end

theorem filterMap_hitAt {strings : StringsDb} {site : SiteData} {l : List ℕ}
    (h : ∀ r ∈ l, (hitAt strings site r).isSome) :
    l.filterMap (hitAt strings site) = l.map (hitOf strings site) := by
  induction l with
  | nil => rfl
  | cons r l ih =>
    obtain ⟨hr, hl⟩ := List.forall_mem_cons.mp h
    rw [List.filterMap_cons_some (hitAt_eq_hitOf hr), ih hl, List.map_cons]

/-- An entry with a string that matches is one whose name is asked for. -/
theorem matching_iff_wanted (hdb : db.Holds all) (hfound : FoundStrings db.strings asked found)
    {site : SiteData} (hsite : site ∈ all) (r : ℕ) :
    (∃ start ∈ found, site.matching start r = true) ↔ site.isWanted db.strings asked r = true := by
  simp only [SiteData.matching, SiteData.isWanted, Option.any_eq_true, Bool.and_eq_true,
    Bool.not_eq_true', decide_eq_true_eq]
  constructor
  · rintro ⟨start, hstart, e, he, ⟨rfl, hparent⟩, hshows⟩
    exact ⟨e, he, ⟨hparent, hshows⟩, ((hfound.mem _).mp hstart).2⟩
  · rintro ⟨e, he, ⟨hparent, hshows⟩, hname⟩
    have hpos := hdb.pos site hsite e (List.mem_of_getElem? he) hparent
    exact ⟨e.strt1, (hfound.mem _).mpr ⟨hpos, hname⟩, e, he, ⟨rfl, hparent⟩, hshows⟩

/-- The records of the strings that match, in one site. -/
theorem wantedRecords_perm (hdb : db.Holds all) (hfound : FoundStrings db.strings asked found)
    {site : SiteData} (hsite : site ∈ all) :
    (found.flatMap fun start => (List.range' 0 site.file.length).filter (site.matching start)).Perm
      (site.wantedRecords db.strings asked) := by
  refine (List.perm_ext_iff_of_nodup ?_ (List.Nodup.filter _ List.nodup_range')).mpr fun r => ?_
  · refine List.nodup_flatMap.mpr ⟨fun start _ => List.Nodup.filter _ List.nodup_range', ?_⟩
    -- a record has one string
    refine hfound.nodup.imp fun {start start'} hne r hr hr' => hne ?_
    have hmatch := (List.mem_filter.mp hr).2
    have hmatch' := (List.mem_filter.mp hr').2
    simp only [SiteData.matching, Option.any_eq_true, Bool.and_eq_true,
      decide_eq_true_eq] at hmatch hmatch'
    obtain ⟨e, he, ⟨hstart, -⟩, -⟩ := hmatch
    obtain ⟨e', he', ⟨hstart', -⟩, -⟩ := hmatch'
    rw [he] at he'
    rw [← hstart, ← hstart', Option.some.inj he']
  · rw [List.mem_flatMap, List.mem_filter, ← matching_iff_wanted hdb hfound hsite]
    constructor
    · rintro ⟨start, hstart, hr⟩
      obtain ⟨hrange, hmatch⟩ := List.mem_filter.mp hr
      exact ⟨hrange, start, hstart, hmatch⟩
    · rintro ⟨hrange, start, hstart, hmatch⟩
      exact ⟨start, hstart, List.mem_filter.mpr ⟨hrange, hmatch⟩⟩

theorem wantedRecords_isSome {strings : StringsDb} {site : SiteData}
    (hgood : GoodSite strings site) :
    ∀ r ∈ site.wantedRecords strings asked, (hitAt strings site r).isSome := by
  intro r hr
  have hw := (List.mem_filter.mp hr).2
  simp only [SiteData.isWanted, Option.any_eq_true, Bool.and_eq_true, Bool.not_eq_true'] at hw
  obtain ⟨e, he, ⟨hparent, -⟩, -⟩ := hw
  exact hgood.hitAt_isSome_entry he hparent

/-- The hits that are found in an index only. -/
def SearchDb.extraHits (db : SearchDb) (all : List SiteData) (found : List ℤ) : List QueryResult :=
  found.flatMap fun start => (all.filter (·.hasString start)).flatMap fun site =>
    (site.extra start).map (hitOf db.strings site)

/-- The hits of the strings that match are those asked for and these. -/
theorem reported_perm (hdb : db.Holds all) (hfound : FoundStrings db.strings asked found) :
    (db.reported found).Perm (db.wanted all asked ++ db.extraHits all found) := by
  set entries : ℤ → SiteData → List QueryResult := fun start site =>
    ((List.range' 0 site.file.length).filter (site.matching start)).map (hitOf db.strings site)
  -- one string
  have hstring : ∀ start ∈ found, (db.hitsOf start).Perm (all.flatMap (entries start) ++
      (all.filter (·.hasString start)).flatMap fun site => (site.extra start).map
        (hitOf db.strings site)) := by
    intro start hstart
    have hpos := ((hfound.mem start).mp hstart).1
    have hall : (all.filter (·.hasString start)).flatMap (entries start) = all.flatMap
        (entries start) := by
      refine flatMap_filter_of_nil fun site _ hno => ?_
      refine List.map_eq_nil_iff.mpr (List.filter_eq_nil_iff.mpr fun r _ hmatch => ?_)
      simp only [SiteData.matching, Option.any_eq_true, Bool.and_eq_true, Bool.not_eq_true',
        decide_eq_true_eq] at hmatch
      obtain ⟨e, he, ⟨hs, hparent⟩, -⟩ := hmatch
      have hyes : site.hasString start = true :=
        List.any_eq_true.mpr ⟨e, List.mem_of_getElem? he, by simp [hs, hparent]⟩
      rw [hno] at hyes
      exact absurd hyes (by simp)
    refine ((hdb.sites start hpos).flatMap_right _).trans ?_
    rw [List.flatMap_map, ← hall]
    refine List.Perm.trans ?_ (List.flatMap_append_perm _ _ _).symm
    refine List.Perm.flatMap_left _ fun site hsite => ?_
    have hgood := hdb.good site (List.mem_filter.mp hsite).1
    rw [siteHits, ← List.map_append]
    exact (hgood.order_perm start).map _
  refine (List.Perm.flatMap_left _ hstring).trans ((List.flatMap_append_perm _ _ _).symm.trans ?_)
  refine List.Perm.append_right _ ((flatMap_comm_perm found all entries).trans ?_)
  -- one site
  refine List.Perm.flatMap_left _ fun site hsite => ?_
  rw [filterMap_hitAt (wantedRecords_isSome (hdb.good site hsite)), ← List.map_flatMap]
  exact (wantedRecords_perm hdb hfound hsite).map _

theorem extraHits_eq_nil_iff (hdb : db.Holds all) :
    db.extraHits all found = [] ↔ NoDirHits all found := by
  simp only [SearchDb.extraHits, List.flatMap_eq_nil_iff, List.map_eq_nil_iff, List.mem_filter,
    and_imp,
    NoDirHits]
  refine forall₄_congr fun start _ site hsite => forall_congr' fun _ => ?_
  rw [SiteData.extra]
  by_cases hindex : site.index?.isSome = true
  · rw [if_pos hindex]
    by_cases hweb : site.web = true
    · rw [(hdb.good site hsite).dirsWith_web hweb]
      simp [hweb]
    · rw [Bool.not_eq_true] at hweb
      simp only [hindex, hweb, forall_true_left, List.eq_nil_iff_forall_not_mem, mem_dirsWith hweb]
      constructor
      · intro hnone e he hparent hstart
        obtain ⟨p, hp⟩ := List.mem_iff_getElem?.mp he
        exact hnone p ⟨e, hp, hparent, hstart⟩
      · rintro hnone p ⟨e, he, hparent, hstart⟩
        exact hnone e (List.mem_of_getElem? he) hparent hstart
  · rw [if_neg hindex]
    simp [hindex]

/-- **The hits of the strings that match** are those of the records whose name is asked
for, exactly if no record that stands for a directory is found instead of one. -/
theorem reported_perm_wanted_iff (hdb : db.Holds all)
    (hfound : FoundStrings db.strings asked found) :
    (db.reported found).Perm (db.wanted all asked) ↔ NoDirHits all found := by
  rw [← extraHits_eq_nil_iff hdb]
  have hperm := reported_perm hdb hfound
  constructor
  · intro hsame
    have hlen := (hperm.symm.trans hsame).length_eq
    rw [List.length_append] at hlen
    exact List.length_eq_zero_iff.mp (by omega)
  · intro hnil
    rwa [hnil, List.append_nil] at hperm

/-! ### The pages -/

/-- The next page does not go on with a string of this one. -/
def Page.NotResumed (db : SearchDb) (page : Page) : Prop :=
  page.siteRecord.string ≤ 0 ∨ page.siteRecord.stop < 0 ∨ db.sites page.siteRecord.string = []

theorem Idle.notResumed {s : QueryState} (hidle : Idle db s) (hits : List QueryResult)
    (rest : List ℤ) :
    Page.NotResumed db ⟨hits, rest, s.record⟩ := by
  rcases hidle with hstop | hsites
  · refine Or.inr (Or.inl ?_)
    rw [QueryState.record, if_neg (by omega)]
    exact neg_one_lt_zero
  · exact Or.inr (Or.inr hsites)

/-- **The first page**: the hits of the first strings, or a cut. -/
theorem archQuery_spec (hsearch : IsSearch search) (hgood : ∀ start ∈ found, GoodStart db start)
    {siteRecord : StartReturn} (hrecord : siteRecord.string ≤ 0 ∨ siteRecord.stop < 0)
    (hroom : ∀ start ∈ found, (db.hitsOf start).length < (budget h m hpm).hpm) :
    ((db.reported (db.firstStrings (budget h m hpm).m found)).length < (budget h m hpm).h →
      (archQuery db anyPath search h m hpm found siteRecord).hits =
        db.reported (db.firstStrings (budget h m hpm).m found) ∧
      (archQuery db anyPath search h m hpm found siteRecord).rest =
        db.laterStrings (budget h m hpm).m found ∧
      (archQuery db anyPath search h m hpm found siteRecord).NotResumed db) ∧
    ((budget h m hpm).h ≤ (db.reported (db.firstStrings (budget h m hpm).m found)).length →
      ∃ s, Cut db (budget h m hpm) s ∧
        (archQuery db anyPath search h m hpm found siteRecord).hits = s.hits ∧
        (archQuery db anyPath search h m hpm found siteRecord).siteRecord = s.record) := by
  obtain ⟨hh, hm, -⟩ := budget_pos h m hpm
  rw [archQuery]
  dsimp only
  split
  next hempty =>
    -- no string matches
    have hnil : found = [] := by
      by_contra hne
      have hsome := hsearch.pos _ _ hm hne
      rw [List.isEmpty_iff, List.take_eq_nil_iff] at hempty
      rcases hempty with hzero | hnil
      · omega
      · exact hne hnil
    subst hnil
    have hfirst : db.firstStrings (budget h m hpm).m [] = [] := by rw [SearchDb.firstStrings.eq_def]
    rw [SearchDb.laterStrings, hfirst]
    refine ⟨fun _ => ⟨rfl, rfl, hrecord.imp_right Or.inl⟩, fun hle => ?_⟩
    simp [SearchDb.reported] at hle
    omega
  next hne =>
    have hfound : found ≠ [] := by
      rintro rfl
      simp at hne
    have hfirst : db.firstStrings (budget h m hpm).m found ≠ [] := by
      obtain ⟨start, starts, rfl⟩ := List.exists_cons_of_ne_nil hfound
      obtain ⟨k, hk⟩ : ∃ k, (budget h m hpm).m = k + 1 := ⟨(budget h m hpm).m - 1, by omega⟩
      rw [hk, SearchDb.firstStrings]
      exact List.cons_ne_nil _ _
    obtain ⟨hdone, hcut⟩ := @queryLoop_spec db (budget h m hpm) search hsearch hm false
      (found.length + 1) found (by omega) hgood ⟨[], 0, 0, 0, 0, siteRecord⟩ hh hroom
    rw [show db.goes false ((budget h m hpm).m - 0) found = db.firstStrings (budget h m hpm).m found
      from rfl] at hdone hcut
    constructor
    · intro hlt
      obtain ⟨hrest, hadd⟩ := hdone (by simpa using hlt)
      exact ⟨hadd.hits, hrest, (hadd.idle (Or.inl hfirst)).notResumed _ _⟩
    · intro hle
      exact ⟨_, hcut (by simpa using hle), rfl, rfl⟩

/-- **A later page**, if it does not go on with a string: the hits of the strings that
are left, or a cut. -/
theorem archQueryMore_spec (hsearch : IsSearch search) {page : Page} (hpage : page.NotResumed db)
    (hgood : ∀ start ∈ page.rest, GoodStart db start)
    (hroom : (db.reported page.rest).length < (budget h m hpm).hpm) :
    ((db.reported page.rest).length < (budget h m hpm).h →
      (archQueryMore db anyPath search h m hpm page).hits = db.reported page.rest ∧
      (archQueryMore db anyPath search h m hpm page).rest = [] ∧
      (archQueryMore db anyPath search h m hpm page).NotResumed db) ∧
    ((budget h m hpm).h ≤ (db.reported page.rest).length →
      ∃ s, Cut db (budget h m hpm) s ∧
        (archQueryMore db anyPath search h m hpm page).hits = s.hits ∧
        (archQueryMore db anyPath search h m hpm page).siteRecord = s.record) := by
  obtain ⟨hh, hm, -⟩ := budget_pos h m hpm
  have hnone : (if 0 < page.siteRecord.string ∧ 0 ≤ page.siteRecord.stop then
      resumeLoop db anyPath (budget h m hpm) page.siteRecord.string page.siteRecord.stop.toNat
        ((db.sites page.siteRecord.string).drop page.siteRecord.stop.toNat)
        ⟨[], 0, 0, 0, 0, page.siteRecord⟩
      else (⟨[], 0, 0, 0, 0, page.siteRecord⟩, false)) =
        ((⟨[], 0, 0, 0, 0, page.siteRecord⟩ : QueryState), false) := by
    split
    next hresumed =>
      rcases hpage with hstring | hstop | hsites
      · omega
      · omega
      · rw [hsites, List.drop_nil, resumeLoop]
    next => rfl
  rw [archQueryMore]
  dsimp only
  rw [hnone]
  dsimp only
  rw [if_neg (by simp)]
  obtain ⟨hdone, hcut⟩ := @queryLoop_spec db (budget h m hpm) search hsearch hm true
    (page.rest.length + 1) page.rest (by omega) hgood ⟨[], 0, 0, 0, 0, page.siteRecord⟩ hh
    (by simpa [HpmRoom] using hroom)
  rw [show db.goes true ((budget h m hpm).m - 0) page.rest = page.rest from rfl] at hdone hcut
  constructor
  · intro hlt
    obtain ⟨hrest, hadd⟩ := hdone (by simpa using hlt)
    refine ⟨hadd.hits, by rw [hrest, List.drop_length], Or.inr (Or.inl ?_)⟩
    have hnotFull : ¬ (budget h m hpm).h ≤ (queryLoop db anyPath (budget h m hpm) search true
        (page.rest.length + 1) page.rest ⟨[], 0, 0, 0, 0, page.siteRecord⟩).2.hits.length := by
      rw [hadd.hits]
      simpa using hlt
    dsimp only
    rw [if_neg hnotFull]
    exact neg_one_lt_zero
  · intro hle
    have hc := hcut (by simpa using hle)
    refine ⟨_, hc, rfl, ?_⟩
    dsimp only
    rw [if_pos hc.full]

/-- If there are strings for the later pages, the first one has a hit. -/
theorem later_length_lt (hm : 0 < (budget h m hpm).m)
    (hlater : db.laterStrings (budget h m hpm).m found ≠ []) :
    (db.reported (db.laterStrings (budget h m hpm).m found)).length <
      (db.reported found).length := by
  have hmatched := db.matched_firstStrings hlater
  have hsome : db.reported (db.firstStrings (budget h m hpm).m found) ≠ [] := by
    intro hnil
    rw [SearchDb.matched, List.countP_eq_zero.mpr] at hmatched
    · omega
    · intro start hstart
      rw [List.flatMap_eq_nil_iff.mp hnil start hstart]
      simp
  have hall := congrArg (fun starts => (db.reported starts).length)
    (db.firstStrings_append_later (budget h m hpm).m found)
  simp only [db.reported_append, List.length_append] at hall
  have hpos := List.length_pos_of_ne_nil hsome
  omega

/-- The pages together give the hits asked for, each once. -/
def PagesRight (db : SearchDb) (all : List SiteData) (asked : List UInt8 → Bool)
    (search : ℕ → List ℤ → ℕ) (h m hpm : ℤ) (page : Page) : Prop :=
  ∃ hits, Paging db anyPath search h m hpm page hits ∧
    (page.hits ++ hits).Perm (db.wanted all asked)

/-- No page is full: the first strings have fewer hits than a page has room for, and so
have the others. -/
structure NoFullPage (db : SearchDb) (b : Budget) (found : List ℤ) : Prop where
  first : (db.reported (db.firstStrings b.m found)).length < b.h
  later : (db.reported (db.laterStrings b.m found)).length < b.h

/-- After a cut a hit is given twice. -/
theorem Cut.not_nodup {s : QueryState} (hcut : Cut db (budget h m hpm) s) {page : Page}
    (hrecord : page.siteRecord = s.record) {hits : List QueryResult}
    (hpaging : Paging db anyPath search h m hpm page hits) : ¬ (s.hits ++ hits).Nodup := by
  obtain ⟨x, t, hx, hagain⟩ := archQueryMore_cut search hcut hrecord
  cases hpaging with
  | last hnil =>
    rw [hagain] at hnil
    exact absurd hnil (List.cons_ne_nil _ _)
  | next _ _ =>
    rw [hagain, List.cons_append]
    intro hnodup
    exact (List.nodup_append.mp hnodup).2.2 x hx x List.mem_cons_self rfl

/-- Pages that are not full give the hits of all strings. -/
theorem paging_of_noFullPage (hsearch : IsSearch search)
    (hgood : ∀ start ∈ found, GoodStart db start)
    {siteRecord : StartReturn} (hrecord : siteRecord.string ≤ 0 ∨ siteRecord.stop < 0)
    (htotal : (db.reported found).length ≤ (budget h m hpm).hpm)
    (hroom : ∀ start ∈ found, (db.hitsOf start).length < (budget h m hpm).hpm)
    (hfull : NoFullPage db (budget h m hpm) found) :
    ∃ hits, Paging db anyPath search h m hpm
      (archQuery db anyPath search h m hpm found siteRecord) hits ∧
      (archQuery db anyPath search h m hpm found siteRecord).hits ++ hits = db.reported found := by
  obtain ⟨hh, hm, hhpm⟩ := budget_pos h m hpm
  set later := db.laterStrings (budget h m hpm).m found with hlater
  obtain ⟨hhits, hrest, hidle⟩ := (archQuery_spec hsearch hgood hrecord hroom).1 hfull.first
  set page := archQuery db anyPath search h m hpm found siteRecord
  have hrestGood : ∀ start ∈ page.rest, GoodStart db start := by
    intro start hstart
    rw [hrest] at hstart
    exact hgood start (List.mem_of_mem_drop hstart)
  have hrestRoom : (db.reported page.rest).length < (budget h m hpm).hpm := by
    rw [hrest]
    by_cases hnil : later = []
    · rw [← hlater, hnil]
      exact hhpm
    · have hlt := later_length_lt hm hnil
      omega
  -- the second page has the hits of the other strings, the third none
  obtain ⟨hhits', hrest', hidle'⟩ :=
    (archQueryMore_spec hsearch hidle hrestGood hrestRoom).1 (by rw [hrest]; exact hfull.later)
  have hall : db.reported found = page.hits ++ db.reported page.rest := by
    rw [hhits, hrest, ← db.reported_append, db.firstStrings_append_later]
  set page' := archQueryMore db anyPath search h m hpm page
  by_cases hnil : page'.hits = []
  · exact ⟨[], Paging.last hnil, by rw [hall, ← hhits', hnil]⟩
  · have hnone : (archQueryMore db anyPath search h m hpm page').hits = [] := by
      have hspec := (@archQueryMore_spec db search h m hpm hsearch page' hidle'
        (by rw [hrest']; simp) (by rw [hrest']; exact hhpm)).1 (by rw [hrest']; exact hh)
      rw [hspec.1, hrest']
      rfl
    exact ⟨_, Paging.next hnil (Paging.last hnone), by rw [hall, ← hhits', List.append_nil]⟩

/-- Pages that give no hit twice are not full. -/
theorem noFullPage_of_nodup (hsearch : IsSearch search)
    (hgood : ∀ start ∈ found, GoodStart db start)
    {siteRecord : StartReturn} (hrecord : siteRecord.string ≤ 0 ∨ siteRecord.stop < 0)
    (htotal : (db.reported found).length ≤ (budget h m hpm).hpm)
    (hroom : ∀ start ∈ found, (db.hitsOf start).length < (budget h m hpm).hpm)
    {hits : List QueryResult}
    (hpaging : Paging db anyPath search h m hpm
      (archQuery db anyPath search h m hpm found siteRecord) hits)
    (hnodup : ((archQuery db anyPath search h m hpm found siteRecord).hits ++ hits).Nodup) :
    NoFullPage db (budget h m hpm) found := by
  obtain ⟨hh, hm, hhpm⟩ := budget_pos h m hpm
  obtain ⟨hdone, hcut⟩ :=
    @archQuery_spec db found search h m hpm hsearch hgood siteRecord hrecord hroom
  have hfirst : (db.reported (db.firstStrings (budget h m hpm).m found)).length <
      (budget h m hpm).h := by
    by_contra hle
    obtain ⟨s, hs, hhits, hsite⟩ := hcut (by omega)
    rw [hhits] at hnodup
    exact hs.not_nodup hsite hpaging hnodup
  refine ⟨hfirst, ?_⟩
  obtain ⟨-, hrest, hidle⟩ := hdone hfirst
  set page := archQuery db anyPath search h m hpm found siteRecord
  by_contra hle
  have hne : db.laterStrings (budget h m hpm).m found ≠ [] := by
    intro hnil
    rw [hnil] at hle
    simp [SearchDb.reported] at hle
    omega
  have hlt := later_length_lt hm hne
  obtain ⟨s, hs, hhits, hsite⟩ := (@archQueryMore_spec db search h m hpm hsearch page hidle
    (by
      intro start hstart
      rw [hrest] at hstart
      exact hgood start (List.mem_of_mem_drop hstart))
    (by rw [hrest]; omega)).2 (by rw [hrest]; omega)
  have hnodup' := (List.nodup_append.mp hnodup).2.1
  cases hpaging with
  | last hnil =>
    -- a full page has hits
    have hfull := hs.full
    rw [← hhits, hnil, List.length_nil] at hfull
    omega
  | next _ hpaging' =>
    rw [hhits] at hnodup'
    exact hs.not_nodup hsite hpaging' hnodup'

/-- A file `f`, a directory `d` and a file `f` in it. -/
def twinRecs : List ParserEntry :=
  [⟨⟨5, 0, -1, -1, 0, 0, 0⟩, [102]⟩, ⟨⟨0, 0, -1, 2, 0, 1, 0⟩, [100]⟩,
    ⟨⟨7, 0, 1, -1, 0, 0, 0⟩, [102]⟩]

theorem twinRecs_wellFormed : WellFormed twinRecs where
  plain := by decide
  name := by simp [twinRecs]
  parent := by
    intro i hi
    have hlt : i < 3 := hi
    interval_cases i
    · exact .inl rfl
    · exact .inl rfl
    · exact .inr ⟨1, by omega, rfl, (by decide : cseIsDir 1 = true)⟩
  contiguous := by
    intro i j k hij hjk hk heq
    have hlt : k < 3 := hk
    have hcases : i = j ∨ j = k ∨ (i = 0 ∧ k = 2) := by omega
    rcases hcases with rfl | rfl | ⟨rfl, rfl⟩
    · rfl
    · exact heq.symm
    · simp [twinRecs] at heq

theorem twin_headerFor : HeaderFor twinRecs ⟨8, 3, 0, [104, 104], []⟩ [104, 104] where
  noRecs := rfl
  notCounted := by simp [hdrGetSiteNoRecs]
  hostname := by simp [hostString, hdrGetPreferredHostname, hdrGetPrimaryHostname]
  hostname_ne := by simp
  length_hostname := by simp

/-- The site of these records, without an index. -/
def twinSite : SiteData := { textSite with file := siteFile textDb [104, 104] twinRecs }

theorem twinSite_good : GoodSite textDb twinSite where
  toSoundSite := by
    have hmade := (@setupInsert_siteFile textDb _ twinRecs_wellFormed _ _ twin_headerFor []).2
    have hfile := MadeBySetupInsert.anonftp twinRecs_wellFormed twin_headerFor
      (by simp [StringsDb.Faithful, textDb]) (by simp [StringsDb.Faithful, textDb, twinRecs]) hmade
    rw [List.take_left] at hfile
    exact hfile.soundSite
  index := by
    intro index hindex
    exact absurd hindex (by simp [twinSite, textSite])

/-- The database of this site. -/
def twinDb : SearchDb where
  strings := textDb
  sites start := if twinSite.hasString start then [some twinSite] else []

theorem twinDb_holds : twinDb.Holds [twinSite] where
  good := by
    intro site hsite
    rw [List.mem_singleton.mp hsite]
    exact twinSite_good
  pos := by
    intro site hsite
    rw [List.mem_singleton.mp hsite]
    decide
  sites := by
    intro start _
    refine .of_eq ?_
    rw [twinDb, List.filter_cons]
    dsimp only
    split <;> rfl

/-- The query `f`. -/
def askedF (name : List UInt8) : Bool := decide (([102] : List UInt8) <:+: name)

theorem found_askedF : FoundStrings textDb askedF [8] where
  nodup := List.nodup_singleton 8
  mem := by
    intro start
    rw [List.mem_singleton]
    constructor
    · rintro rfl
      exact ⟨by decide, [102], rfl, by decide⟩
    · rintro ⟨-, name, hname, hasked⟩
      rw [textDb] at hname
      dsimp only at hname
      split_ifs at hname with h1 h2 h3 h4
      · rw [← Option.some.inj hname] at hasked
        exact absurd hasked (by decide)
      · rw [← Option.some.inj hname] at hasked
        exact absurd hasked (by decide)
      · rw [← Option.some.inj hname] at hasked
        exact absurd hasked (by decide)
      · exact h4

/-- A strings search that gives all strings asked for. -/
def searchAll (n : ℕ) (rest : List ℤ) : ℕ := min n rest.length

theorem isSearch_searchAll : IsSearch searchAll where
  le _ _ := min_le_left _ _
  pos n rest hn hrest := by
    have hlen := List.length_pos_of_ne_nil hrest
    rw [searchAll]
    omega

end Archie
