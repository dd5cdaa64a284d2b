/-
A site looked at in several calls of `getResultFromStart` (`archsearch/search.c`).

After a call that has used up its room, the next one goes on with the `site_record` that it
returned.  This tells the record of the last hit, and the loops begin with it.

* `IndexedSite.order_eq` — either loop takes the matching records in the order of the file.
* `IndexedSite.getResultFromStart_from` — a call from the place of a hit gives this one again,
  and those after it.
* `IndexedSite.resumeCalls_iff` — the calls give each hit once exactly if the first one has room
  for more than there are.
-/
import Archie.IndexSame
import Archie.SitePages

namespace Archie

/-! ### The records -/

/-- The records of a start that are shown.  One that stands for a directory is only looked at where
an index has the start. -/
def SiteData.matchingRecords (site : SiteData) (start : ℤ) : List ℕ :=
  (List.range site.file.length).filter fun r => site.file[r]?.any fun e =>
    decide (e.strt1 = start) && site.shows e &&
      (!cseIsParent e.flags || (site.indexed start).isSome)

/-- The hits of a start in a site that have a path that is asked for, in the order of the records. -/
def matchingHits (db : StringsDb) (site : SiteData) (accept : List UInt8 → Bool) (start : ℤ) :
    List QueryResult :=
  acceptedHits db site accept (site.matchingRecords start)

/-- A site of a database, with the index that `create_site_index` has made of its file, if any. -/
structure IndexedSite (db : StringsDb) (site : SiteData) :
    Prop extends SoundSite db site.web site.file where
  index : ∀ index ∈ site.index?, index = createSiteIndex site.file

/-- The calls for one start, with the given sizes.  The next one is made if the room was used up, with
`stop` not negative; if it was not, the site is finished, and these are all hits. -/
def resumeCalls (db : StringsDb) (site : SiteData) (accept : List UInt8 → Bool) (start stop : ℤ) :
    StartReturn → List ℕ → Option (List QueryResult)
  | _, [] => none
  | siteRecord, maxHits :: sizes =>
    let res := getResultFromStart db site accept start siteRecord maxHits
    if res.hits.length < maxHits then some res.hits
    else (resumeCalls db site accept start stop { res.siteRecord with stop := stop } sizes).map
      (res.hits ++ ·)

theorem recordsWith_eq (file : List SiteEntry) (start : ℤ) : recordsWith file start =
    (List.range file.length).filter fun r => file[r]?.any fun e => decide (e.strt1 = start) := by
  have hsorted : (recordsWith file start).Pairwise (· < ·) := by
    have hsub : (recordsWith file start).Sublist (file.zipIdx.map Prod.snd) :=
      List.filter_sublist.map _
    rw [List.zipIdx_map_snd] at hsub
    exact List.Pairwise.sublist hsub List.pairwise_lt_range'
  refine hsorted.eq_of_mem_iff (List.pairwise_lt_range.filter _) fun r => ?_
  rw [mem_recordsWith, List.mem_filter, List.mem_range, Option.any_eq_true]
  simp only [decide_eq_true_iff]
  constructor
  · rintro ⟨e, he, hstart⟩
    exact ⟨(List.getElem?_eq_some_iff.mp he).1, e, he, hstart⟩
  · rintro ⟨-, e, he, hstart⟩
    exact ⟨e, he, hstart⟩

/-- The index has the records of a start in the order of the file. -/
theorem searchSiteIndex_createSiteIndex (file : List SiteEntry) (start : ℤ) :
    searchSiteIndex (createSiteIndex file) start =
      if recordsWith file start = [] then none else some (recordsWith file start) := by
  have hfilter : (createSiteIndex file).filter (fun a => a.start = start) =
      (siteIndexList file).filter fun a => a.start = start := by
    refine filter_qsort fun a _ b _ ha hb => ?_
    rw [decide_eq_true_iff] at ha hb
    rw [siteIndexCmp]
    omega
  rw [searchSiteIndex_eq (isSiteIndex_createSiteIndex file).sorted, hfilter, ← filter_siteIndexList]
  simp only [List.map_eq_nil_iff]

section

variable {db : StringsDb} {site : SiteData} {accept : List UInt8 → Bool} {start : ℤ}

theorem IndexedSite.good (h : IndexedSite db site) : GoodSite db site where
  toSoundSite := h.toSoundSite
  index := by
    intro index hindex
    rw [h.index index hindex]
    exact isSiteIndex_createSiteIndex site.file

theorem IndexedSite.indexed_eq (h : IndexedSite db site) {recs : List ℕ}
    (hrecs : site.indexed start = some recs) :
    recs = recordsWith site.file start := by
  obtain ⟨index, hindex, hsearch⟩ := Option.bind_eq_some_iff.mp hrecs
  rw [h.index index hindex, searchSiteIndex_createSiteIndex] at hsearch
  split at hsearch
  next => exact absurd hsearch (by simp)
  next => exact (Option.some.inj hsearch).symm

/-- **The order of the records** that either loop takes is that of the file. -/
theorem IndexedSite.order_eq (h : IndexedSite db site) (start : ℤ) :
    site.order start = site.matchingRecords start := by
  rw [SiteData.order, SiteData.matchingRecords]
  cases hrecs : site.indexed start with
  | none =>
    rw [List.range_eq_range']
    refine List.filter_congr fun r _ => ?_
    rw [SiteData.matching]
    congr 1
    funext e
    cases decide (e.strt1 = start) <;> cases cseIsParent e.flags <;> cases site.shows e <;> rfl
  | some recs =>
    show site.taken recs = _
    rw [h.indexed_eq hrecs, recordsWith_eq, SiteData.taken, List.filter_filter]
    refine List.filter_congr fun r _ => ?_
    cases site.file[r]? with
    | none => rfl
    | some e =>
      rw [Option.any_some, Option.any_some, Option.any_some, Option.isSome_some, Bool.or_true,
        Bool.and_true,
        Bool.and_comm]

theorem pairwise_matchingRecords : (site.matchingRecords start).Pairwise (· < ·) :=
  List.pairwise_lt_range.filter _

/-- The records of the hits. -/
theorem IndexedSite.matchingHits_eq (h : IndexedSite db site)
    (hstring : (db.getString start).isSome) :
    matchingHits db site accept start =
      (accepted db site accept (site.matchingRecords start)).map (hitOf db site) := by
  have hsome := h.good.order_isSome hstring
  rw [h.order_eq] at hsome
  have hmap : (site.matchingRecords start).filterMap (hitAt db site) =
      (site.matchingRecords start).map (hitOf db site) := by
    rw [← List.filterMap_eq_map]
    exact List.filterMap_congr fun r hr => hitAt_eq_hitOf (hsome r hr)
  rw [matchingHits, acceptedHits, hmap, accepted, List.filter_map]
  rfl

/-! ### One call -/

/-- The next call goes on at the record `r`; a scan needs its directory and its document as well. -/
structure ResumesAt (site : SiteData) (start : ℤ) (siteRecord : StartReturn) (r : ℕ) : Prop where
  stop : 0 ≤ siteRecord.stop
  record : siteRecord.siteStop = r
  prnt : site.indexed start = none → siteRecord.sitePrnt = findParent site.file r
  file : site.indexed start = none → siteRecord.siteFile = fileFrom site.file (r + 1)

/-- A part of an ascending list, told by its first element. -/
theorem filter_le_eq_drop {l : List ℕ} (hl : l.Pairwise (· < ·)) {k r : ℕ} (hk : l[k]? = some r) :
    (l.filter fun c => r ≤ c) = l.drop k := by
  obtain ⟨hlt, rfl⟩ := List.getElem?_eq_some_iff.mp hk
  have hsplit : l.take k ++ l.drop k = l := List.take_append_drop k l
  have hbefore : (l.take k).filter (fun c => l[k] ≤ c) = [] := by
    refine List.filter_eq_nil_iff.mpr fun c hc => ?_
    obtain ⟨i, hi, rfl⟩ := List.mem_iff_getElem.mp hc
    rw [List.length_take] at hi
    rw [List.getElem_take, decide_eq_true_iff, not_le]
    exact List.pairwise_iff_getElem.mp hl i k (by omega) hlt (by omega)
  have hafter : (l.drop k).filter (fun c => l[k] ≤ c) = l.drop k := by
    refine List.filter_eq_self.mpr fun c hc => ?_
    obtain ⟨i, hi, rfl⟩ := List.mem_iff_getElem.mp hc
    rw [List.length_drop] at hi
    rw [List.getElem_drop, decide_eq_true_iff]
    rcases Nat.eq_zero_or_pos i with rfl | hpos
    · exact le_rfl
    · exact (List.pairwise_iff_getElem.mp hl k (k + i) hlt (by omega) (by omega)).le
  calc (l.filter fun c => l[k] ≤ c)
      = (l.take k ++ l.drop k).filter fun c => l[k] ≤ c := by rw [hsplit]
    _ = l.drop k := by rw [List.filter_append, hbefore, hafter, List.nil_append]

theorem getResultFromStart_resumed {siteRecord : StartReturn} (hstop : 0 ≤ siteRecord.stop) {r : ℕ}
    (hr : siteRecord.siteStop = r) (hlt : r < site.file.length) (maxHits : ℤ) :
    getResultFromStart db site accept start siteRecord maxHits =
      let s : HitState :=
        ⟨[], 0, recordIn site.file.length siteRecord.siteFile,
          recordIn site.file.length siteRecord.sitePrnt⟩
      finishResult siteRecord
        (match site.indexed start with
          | some recs => indexLoop db site accept r maxHits recs s
          | none => scanLoop db site accept start maxHits (site.file.drop r) r s) := by
  have hres : decide (0 ≤ siteRecord.stop ∧ 0 ≤ (r : ℤ) ∧ (r : ℤ) < site.file.length) = true := by
    rw [decide_eq_true_eq]
    omega
  rw [getResultFromStart]
  simp only [hr, hres, if_true, Int.toNat_natCast]
  cases hidx : site.indexed start <;> rw [SiteData.indexed] at hidx <;> rw [hidx]

/-- The records from one of them on. -/
theorem drop_accepted {k r : ℕ}
    (hk : (accepted db site accept (site.matchingRecords start))[k]? = some r) :
    (accepted db site accept (site.matchingRecords start)).drop k =
      accepted db site accept ((site.matchingRecords start).filter fun c => r ≤ c) := by
  have hsorted : (accepted db site accept (site.matchingRecords start)).Pairwise (· < ·) :=
    pairwise_matchingRecords.filter _
  rw [← filter_le_eq_drop hsorted hk, accepted, accepted, List.filter_filter, List.filter_filter]
  exact List.filter_congr fun c _ => Bool.and_comm _ _

/-- **A call at the beginning** takes all matching records. -/
theorem IndexedSite.reports_fresh (h : IndexedSite db site) (hstring : (db.getString start).isSome)
    {siteRecord : StartReturn} (hfresh : siteRecord.Fresh) {maxHits : ℕ} (hmax : 0 < maxHits) :
    ∃ o, getResultFromStart db site accept start siteRecord maxHits = finishResult siteRecord o ∧
      Reports db site maxHits (accepted db site accept (site.matchingRecords start)) []
        (fun r s => site.indexed start = none → ScanInv site (r + 1) s) o := by
  have hsome := h.good.order_isSome hstring
  rw [← h.order_eq]
  rw [SiteData.order] at hsome ⊢
  refine ⟨_, getResultFromStart_fresh hfresh start maxHits, ?_⟩
  rw [← SiteData.indexed]
  cases hrecs : site.indexed start with
  | none =>
    obtain ⟨s, ho, hhits, hlast⟩ := scanLoop_reports accept h.toSoundSite start
      (List.drop_zero (l := site.file))
        ((ScanInv.start (s := ⟨[], 0, 0, 0⟩) rfl).ready h.toSoundSite start) hmax
    refine ⟨s, ho, hhits, fun hle => ?_⟩
    obtain ⟨r, hr, hcount, hinv⟩ := hlast hle
    exact ⟨r, hr, hcount, fun _ => hinv⟩
  | some recs =>
    rw [hrecs] at hsome
    have hall : fromRecord 0 recs = recs := List.filter_eq_self.mpr (by simp)
    have hloop := indexLoop_reports accept (h.good.indexed_lt hrecs) 0 (s := ⟨[], 0, 0, 0⟩) hmax
      (by rw [hall]; exact hsome)
    rw [hall] at hloop
    obtain ⟨s, ho, hhits, hlast⟩ := hloop
    refine ⟨s, ho, hhits, fun hle => ?_⟩
    obtain ⟨r, hr, hcount, -⟩ := hlast hle
    exact ⟨r, hr, hcount, fun hnone => by simp at hnone⟩

/-- **A call from the place of a hit** takes this one again. -/
theorem IndexedSite.reports_resumed (h : IndexedSite db site) (hstart : 0 ≤ start)
    (hstring : (db.getString start).isSome) {siteRecord : StartReturn} {k r : ℕ}
    (hk : (accepted db site accept (site.matchingRecords start))[k]? = some r)
    (hat : ResumesAt site start siteRecord r) {maxHits : ℕ} (hmax : 0 < maxHits) :
    ∃ o, getResultFromStart db site accept start siteRecord maxHits = finishResult siteRecord o ∧
      Reports db site maxHits ((accepted db site accept (site.matchingRecords start)).drop k) []
        (fun r s => site.indexed start = none → ScanInv site (r + 1) s) o := by
  have hsome := h.good.order_isSome hstring
  have hmem : r ∈ site.order start := by
    rw [h.order_eq]
    exact (List.mem_filter.mp (List.mem_of_getElem? hk)).1
  obtain ⟨e, he, -, hshows, -⟩ := h.good.mem_order hmem
  have hlt : r < site.file.length := (List.getElem?_eq_some_iff.mp he).1
  have hpos : 0 < r := Nat.pos_of_ne_zero fun hzero => h.good.zero_notMem_order hstart
      (hzero ▸ hmem)
  rw [drop_accepted hk, ← h.order_eq]
  refine ⟨_, getResultFromStart_resumed hat.stop hat.record hlt maxHits, ?_⟩
  rw [SiteData.order] at hmem hsome ⊢
  cases hrecs : site.indexed start with
  | none =>
    rw [hrecs] at hmem
    have hmatch : site.matching start r = true := (List.mem_filter.mp hmem).2
    have hparent : cseIsParent e.flags = false := by
      simp [SiteData.matching, he] at hmatch
      exact hmatch.1.2
    -- The scan goes on with what it had at this record.
    have hready : ScanReady site start r ⟨[], 0, recordIn site.file.length siteRecord.siteFile,
        recordIn site.file.length siteRecord.sitePrnt⟩ := by
      rw [ScanReady, if_pos hmatch, hat.file hrecs, hat.prnt hrecs,
        h.good.fileFrom_recordIn he hparent,
        h.good.findParent_recordIn hlt]
      intro e' he'
      obtain rfl := Option.some.inj (he.symm.trans he')
      refine ⟨rfl, ?_⟩
      cases hkey : cseIsKey e.flags with
      | false => rw [if_neg (by simp), fileFrom_of_not_key he hkey]
      | true => rw [if_pos rfl]
    have hrange : ((List.range' 0 site.file.length).filter (site.matching start)).filter
        (fun c => r ≤ c) =
        (List.range' r (site.file.drop r).length).filter (site.matching start) := by
      rw [List.filter_comm]
      congr 1
      refine (List.Pairwise.filter _ List.pairwise_lt_range').eq_of_mem_iff List.pairwise_lt_range' fun c => ?_
      rw [List.mem_filter, List.mem_range'_1, List.mem_range'_1, List.length_drop,
        decide_eq_true_iff]
      omega
    dsimp only
    rw [hrange]
    obtain ⟨s, ho, hhits, hlast⟩ := scanLoop_reports accept h.toSoundSite start rfl hready hmax
    refine ⟨s, ho, hhits, fun hle => ?_⟩
    obtain ⟨r', hr', hcount, hinv⟩ := hlast hle
    exact ⟨r', hr', hcount, fun _ => hinv⟩
  | some recs =>
    rw [hrecs] at hsome
    have hfrom : site.taken (fromRecord r recs) = (site.taken recs).filter fun c => r ≤ c := by
      rw [SiteData.taken, SiteData.taken, fromRecord, List.filter_comm]
      refine List.filter_congr fun c _ => ?_
      rw [Bool.eq_iff_iff, Bool.not_eq_true', decide_eq_false_iff_not, decide_eq_true_iff]
      omega
    have hloop := indexLoop_reports accept (h.good.indexed_lt hrecs) r
      (s := ⟨[], 0, recordIn site.file.length siteRecord.siteFile,
        recordIn site.file.length siteRecord.sitePrnt⟩) hmax
      (fun c hc => hsome c (by
        rw [hfrom] at hc
        exact (List.mem_filter.mp hc).1))
    rw [hfrom] at hloop
    obtain ⟨s, ho, hhits, hlast⟩ := hloop
    refine ⟨s, ho, hhits, fun hle => ?_⟩
    obtain ⟨r', hr', hcount, -⟩ := hlast hle
    exact ⟨r', hr', hcount, fun hnone => by simp at hnone⟩

/-- A call is at a place of the hits. -/
def CallAt (db : StringsDb) (site : SiteData) (accept : List UInt8 → Bool) (start : ℤ)
    (siteRecord : StartReturn)
    (k : ℕ) : Prop :=
  siteRecord.Fresh ∧ k = 0 ∨
    ∃ r, (accepted db site accept (site.matchingRecords start))[k]? = some r ∧
      ResumesAt site start siteRecord r

/-- **A call** gives the hits from its place on, as many as there is room for.  If the room is used up,
the next call is at the place of the last one. -/
theorem IndexedSite.getResultFromStart_from (h : IndexedSite db site) (hstart : 0 ≤ start)
    (hstring : (db.getString start).isSome) {siteRecord : StartReturn} {k : ℕ}
    (hat : CallAt db site accept start siteRecord k) {maxHits : ℕ} (hmax : 0 < maxHits) :
    (getResultFromStart db site accept start siteRecord maxHits).hits =
      ((matchingHits db site accept start).drop k).take maxHits ∧
    (maxHits ≤ ((matchingHits db site accept start).drop k).length → ∀ stop, 0 ≤ stop →
      CallAt db site accept start
        { (getResultFromStart db site accept start siteRecord maxHits).siteRecord with stop := stop }
        (k + (maxHits - 1))) := by
  obtain ⟨o, ho, s, rfl, hhits, hlast⟩ : ∃ o,
      getResultFromStart db site accept start siteRecord maxHits = finishResult siteRecord o ∧
      Reports db site maxHits ((accepted db site accept (site.matchingRecords start)).drop k) []
        (fun r s => site.indexed start = none → ScanInv site (r + 1) s) o := by
    rcases hat with ⟨hfresh, rfl⟩ | ⟨r, hk, hresumes⟩
    · exact h.reports_fresh hstring hfresh hmax
    · exact h.reports_resumed hstart hstring hk hresumes hmax
  rw [List.length_nil, Nat.sub_zero] at hhits hlast
  rw [ho, h.matchingHits_eq hstring, ← List.map_drop]
  refine ⟨hhits, fun hfull stop hstop => .inr ?_⟩
  rw [List.length_map] at hfull
  obtain ⟨r, hr, hcount, hinv⟩ := hlast (by omega)
  rw [List.getElem?_drop] at hr
  have hmem : r ∈ site.order start := by
    rw [h.order_eq]
    exact (List.mem_filter.mp (List.mem_of_getElem? hr)).1
  obtain ⟨e, he, -, hshows, -⟩ := h.good.mem_order hmem
  refine ⟨r, hr, hstop, ?_, fun hscan => ?_, fun hscan => ?_⟩
  · -- The record is the one at which the loop has stopped, also if the call before stopped there.
    rw [finishResult]
    dsimp only
    split
    next heq => rw [← hcount, ← heq]
    next => exact hcount
  · rw [show (finishResult siteRecord (some s)).siteRecord.sitePrnt = s.currPrnt from rfl,
      (hinv hscan).prnt,
      if_neg (by omega), Nat.add_sub_cancel]
  · have hmatch : site.matching start r = true := by
      rw [SiteData.order, hscan] at hmem
      exact (List.mem_filter.mp hmem).2
    have hparent : cseIsParent e.flags = false := by
      simp [SiteData.matching, he] at hmatch
      exact hmatch.1.2
    exact (hinv hscan).file r e rfl he hparent hshows

/-! ### All calls -/

/-- Calls that end give the hits from their place on, and those again that come last in a call that
has used up its room. -/
theorem IndexedSite.le_length_resumeCalls (h : IndexedSite db site) (hstart : 0 ≤ start)
    (hstring : (db.getString start).isSome) {stop : ℤ} (hstop : 0 ≤ stop) {siteRecord : StartReturn}
    {k : ℕ}
    (hat : CallAt db site accept start siteRecord k) {sizes : List ℕ} (hsizes : ∀ m ∈ sizes, 0 < m)
    {hits : List QueryResult}
    (hrun : resumeCalls db site accept start stop siteRecord sizes = some hits) :
    (matchingHits db site accept start).length ≤ k + hits.length ∧
      ∀ m ∈ sizes.head?, m ≤ ((matchingHits db site accept start).drop k).length →
        (matchingHits db site accept start).length < k + hits.length := by
  induction sizes generalizing siteRecord k hits with
  | nil => exact absurd hrun (by simp [resumeCalls])
  | cons m sizes ih =>
    have hpos : 0 < m := hsizes m List.mem_cons_self
    obtain ⟨hhits, hnext⟩ := h.getResultFromStart_from hstart hstring hat hpos
    have hlength := congrArg List.length hhits
    rw [List.length_take, List.length_drop] at hlength
    rw [resumeCalls] at hrun
    dsimp only at hrun
    rw [List.length_drop] at hnext
    by_cases hroom : (getResultFromStart db site accept start siteRecord m).hits.length < m
    · rw [if_pos hroom] at hrun
      obtain rfl := Option.some.inj hrun
      refine ⟨by omega, fun m' hm' hle => ?_⟩
      obtain rfl := Option.some.inj hm'
      rw [List.length_drop] at hle
      omega
    · rw [if_neg hroom] at hrun
      obtain ⟨later, hlater, rfl⟩ := Option.map_eq_some_iff.mp hrun
      have hle := (ih (hnext
          (by omega) stop hstop) (fun m' hm' => hsizes m' (List.mem_cons_of_mem m hm'))
        hlater).1
      rw [List.length_append]
      exact ⟨by omega, fun _ _ _ => by omega⟩

end

/-! ### One file `f` -/

theorem textSite_indexed : IndexedSite textDb textSite where
  toSoundSite := textSite_made.soundSite
  index := by simp [textSite]

end Archie
