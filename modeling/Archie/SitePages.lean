/-
A page of the hits of a site, and the page after it.

* `SoundSite.hitAt_isSome_entry` — the hit of an entry is always made, also for a
  keyword of a web site.
* `getResultFromStart_take` — a call for a fresh site gives the first hits, as many
  as there is room for.
* `getResultFromStart_again` — if the room was used up, the next call begins with a
  hit that was given already.
-/
import Archie.IndexScan

namespace Archie

variable {db : StringsDb} {site : SiteData}

/-! ### Each entry has a hit -/

@[simp] theorem chainWrite_currPrnt (web : Bool) (port : ℤ) (prntEnt : SiteEntry) (res : List UInt8)
    (s : ChainState) : (chainWrite web port prntEnt res s).currPrnt = s.currPrnt := by
  simp only [chainWrite]
  split_ifs <;> rfl

/-- From a document the path goes to its directory, and on. -/
theorem chainLoop_document (h : SoundSite db site.web site.file) {d : ℕ} {ent : SiteEntry}
    (hent : site.file[d]? = some ent) {s : ChainState} (hprnt : s.currPrnt = d)
    (hdoc : s.doc = true)
    (hstring : (db.getString s.currStrings).isSome) (web : Bool) (port : ℤ) {fuel : ℕ}
    (hfuel : d + 3 ≤ fuel) : (chainLoop db site.file web port fuel s).isSome := by
  obtain ⟨fuel, rfl⟩ : ∃ n, fuel = n + 1 := ⟨fuel - 1, by omega⟩
  have hd : d < site.file.length := (List.getElem?_eq_some_iff.mp hent).1
  obtain ⟨p, e, hfind, hle, he, hparent⟩ := h.findParent_le hd
  rw [chainLoop]
  split
  next hgo =>
    obtain ⟨res, hres⟩ := Option.isSome_iff_exists.mp hstring
    rw [chainStep, hres, hprnt, fileAt_of_getElem? hent]
    simp only [Option.bind_eq_bind, Option.bind_some, chainWrite_doc, chainWrite_currPrnt, hdoc,
      hprnt,
      Bool.not_true, Bool.and_false, Bool.false_eq_true, if_false, if_true, hfind,
      fileAt_of_getElem? he]
    rw [chainUp]
    by_cases hzero : p = 0
    · subst hzero
      have hneg := (h.first e he).2
      obtain ⟨fuel, rfl⟩ : ∃ n, fuel = n + 1 := ⟨fuel - 1, by omega⟩
      rw [if_neg (by omega), Option.bind_some, chainLoop, if_neg (by simp; omega)]
      rfl
    · obtain ⟨q, d', e', ent', hstrt1, hlt, he', hparent', hcore, hent', hentry⟩ :=
        h.up p e he hparent hzero
      obtain ⟨name, -, hname⟩ := h.name ent' (List.mem_of_getElem? hent') hentry
      rw [if_pos (by omega), hcore, SiteCore.strt2]
      simp only [Option.bind_eq_bind, Option.bind_some, fileAt_of_getElem? hent']
      exact chainLoop_isSome h web port he' hparent' hstrt1 rfl (by simp [hname]) (by omega)
  next => rfl

/-- `handle_chain` succeeds from the record of a directory. -/
theorem SoundSite.chainResult_isSome (h : SoundSite db site.web site.file) {p : ℕ} {e : SiteEntry}
    (he : site.file[p]? = some e) (hparent : cseIsParent e.flags = true) {currStrings : ℤ}
    (hstring : (db.getString currStrings).isSome) (result : QueryResult) :
    (chainResult db site p currStrings result).isSome := by
  have hp : p < site.file.length := (List.getElem?_eq_some_iff.mp he).1
  have hloop := fun s hprnt hdoc hstring =>
    @chainLoop_isSome db site.web site.file h site.web site.port
    p e he hparent s hprnt hdoc hstring site.fuel (by rw [SiteData.fuel]; omega)
  obtain ⟨t, ht⟩ := Option.isSome_iff_exists.mp (hloop
    { currPrnt := p, currStrings := currStrings, oldPrntEnt := none
      key := site.web && cseIsKey result.flags, document := false, doc := false
      tmp := [], tot := [], maxLength := maxPathLen, qrystr := result.qrystr } rfl rfl hstring)
  rw [chainResult, handleChain]
  simp only [fileAt_of_getElem? he, Option.map_some, hparent, Bool.true_or, Bool.not_true,
    Option.bind_eq_bind, Option.bind_some, ite_self, ht, Option.isSome_some]

/-- It succeeds from a document of a web site. -/
theorem SoundSite.chainResult_document (h : SoundSite db site.web site.file)
    (hweb : site.web = true)
    {d : ℕ} {ent : SiteEntry} (hent : site.file[d]? = some ent)
    (hnot : cseIsParent ent.flags = false)
    (hnokey : cseIsKey ent.flags = false) {currStrings : ℤ}
    (hstring : (db.getString currStrings).isSome)
    (result : QueryResult) : (chainResult db site d currStrings result).isSome := by
  have hd : d < site.file.length := (List.getElem?_eq_some_iff.mp hent).1
  -- the document may be the last record, and its directory the one before it
  obtain ⟨t, ht⟩ := Option.isSome_iff_exists.mp (chainLoop_document h hent
    (s := { currPrnt := d, currStrings := currStrings, oldPrntEnt := none
            key := site.web && cseIsKey result.flags, document := true, doc := true
            tmp := [], tot := [], maxLength := maxPathLen, qrystr := result.qrystr }) rfl rfl hstring
    site.web site.port (show d + 2 < site.fuel by rw [SiteData.fuel]; omega))
  rw [chainResult, handleChain, if_pos hweb, fileAt_of_getElem? hent, Option.map_some, hnot, hnokey]
  simp only [Bool.or_self, Bool.not_false, Option.bind_eq_bind, Option.bind_some]
  rw [ht]
  rfl

/-- **The hit of an entry is always made.** -/
theorem SoundSite.hitAt_isSome_entry (h : SoundSite db site.web site.file) {r : ℕ} {e : SiteEntry}
    (he : site.file[r]? = some e) (hparent : cseIsParent e.flags = false) :
    (hitAt db site r).isSome := by
  have hr : r < site.file.length := (List.getElem?_eq_some_iff.mp he).1
  obtain ⟨name, -, hname⟩ := h.name e (List.mem_of_getElem? he) hparent
  have hstring : (db.getString e.strt1).isSome := by rw [hname]; rfl
  rw [hitAt, he, Option.bind_eq_bind, Option.bind_some, indexHit, hname]
  simp only [Option.bind_eq_bind, Option.bind_some]
  by_cases hkey : (site.web && cseIsKey e.flags) = true
  · rw [if_pos hkey]
    simp only [Bool.and_eq_true] at hkey
    obtain ⟨d, hb⟩ := h.exists_belongs he hparent
    rw [fileFrom_of_belongs hb]
    obtain ⟨⟨ent, hent, hnot, hnokey⟩, -, -⟩ := hb
    obtain ⟨name', -, hname'⟩ := h.name ent (List.mem_of_getElem? hent) hnot
    obtain ⟨q, hq⟩ := Option.isSome_iff_exists.mp (h.chainResult_document hkey.1 hent hnot hnokey
      (show (db.getString ent.strt1).isSome by rw [hname']; rfl)
      (handleKeyPrntEntry site ent
        { handleEntry site e .blank with qrystr := name, type := .indx }))
    simp only [fileAt_of_getElem? hent, Option.bind_some, hq, Option.isSome_some]
  · rw [if_neg hkey]
    obtain ⟨p, ep, hfind, -, hep, hp⟩ := h.findParent_le hr
    rw [hfind]
    obtain ⟨q, hq⟩ := Option.isSome_iff_exists.mp (h.chainResult_isSome hep hp hstring
      (setIndexability site r { handleEntry site e .blank with qrystr := name }))
    simp only [hq, Option.bind_some, Option.isSome_some]

/-! ### All hits of a list of records -/

/-- No path is asked for in particular. -/
def anyPath : List UInt8 → Bool := fun _ => true

variable (db site) in
/-- The hit of a record that has one. -/
def hitOf (r : ℕ) : QueryResult := (hitAt db site r).getD .blank

theorem hitAt_eq_hitOf {r : ℕ} (h : (hitAt db site r).isSome) :
    hitAt db site r = some (hitOf db site r) := by
  obtain ⟨q, hq⟩ := Option.isSome_iff_exists.mp h
  rw [hitOf, hq]
  rfl

variable (db site) in
/-- What a loop gives that reports the hits of some records: the first ones, as many
as there is room for after those before.  If the room is used up, it has stopped at
the record of the last one. -/
def Reports (maxHits : ℕ) (l : List ℕ) (before : List QueryResult) (last : ℕ → HitState → Prop)
    (o : Option HitState) : Prop :=
  ∃ s, o = some s ∧ s.hits = before ++ (l.map (hitOf db site)).take (maxHits - before.length) ∧
    (maxHits ≤ before.length + l.length →
      ∃ r, l[maxHits - before.length - 1]? = some r ∧ s.currCount = r ∧ last r s)

section

variable {maxHits : ℕ} {l : List ℕ} {before : List QueryResult} {last : ℕ → HitState → Prop}

theorem Reports.nil (hroom : before.length < maxHits) {s : HitState} (hs : s.hits = before) :
    Reports db site maxHits [] before last (some s) :=
  ⟨s, rfl, by simp [hs], fun hle => absurd hle (by simp; omega)⟩

/-- The last hit that there is room for. -/
theorem Reports.full {r : ℕ} {s : HitState} (hs : s.hits = before ++ [hitOf db site r])
    (hroom : before.length < maxHits) (hfull : maxHits ≤ s.hits.length) (hcount : s.currCount = r)
    (hlast : last r s) : Reports db site maxHits (r :: l) before last (some s) := by
  have hone : maxHits - before.length = 1 := by
    rw [hs, List.length_append, List.length_singleton] at hfull
    omega
  refine ⟨s, rfl, ?_, fun _ => ⟨r, ?_, hcount, hlast⟩⟩
  · rw [hone, hs]
    rfl
  · rw [hone]
    rfl

/-- A hit with room for more. -/
theorem Reports.cons {r : ℕ} {o : Option HitState} (hroom : before.length + 1 < maxHits)
    (h : Reports db site maxHits l (before ++ [hitOf db site r]) last o) :
    Reports db site maxHits (r :: l) before last o := by
  obtain ⟨s, ho, hhits, hlast⟩ := h
  obtain ⟨k, hk⟩ : ∃ k, maxHits - before.length = k + 2 := ⟨maxHits - before.length - 2, by omega⟩
  have hk' : maxHits - (before ++ [hitOf db site r]).length = k + 1 := by
    rw [List.length_append, List.length_singleton]
    omega
  rw [hk'] at hhits hlast
  rw [Reports, hk]
  refine ⟨s, ho, ?_, fun hle => ?_⟩
  · rw [hhits, List.map_cons, List.take_succ_cons, List.append_assoc]
    rfl
  · rw [List.length_cons] at hle
    obtain ⟨r', hr', hcount, hl⟩ := hlast (by
      rw [List.length_append, List.length_singleton]
      omega)
    exact ⟨r', by simpa using hr', hcount, hl⟩

end

variable (db site) in
/-- The records of a list whose hits have a path that is asked for. -/
def accepted (accept : List UInt8 → Bool) (l : List ℕ) : List ℕ :=
  l.filter fun r => accept (hitOf db site r).str

theorem accepted_anyPath (l : List ℕ) : accepted db site anyPath l = l :=
  List.filter_eq_self.mpr fun _ _ => rfl

/-- The record numbers that the loop over the index does not pass over. -/
def fromRecord (st : ℤ) (recs : List ℕ) : List ℕ :=
  recs.filter fun r => !decide (0 < st ∧ (r : ℤ) < st)

section

variable {accept : List UInt8 → Bool} {maxHits : ℕ} {s : HitState}

variable (accept) in
/-- **The loop over the index, when each record has a hit.** -/
theorem indexLoop_reports {recs : List ℕ} (hrecs : ∀ r ∈ recs, r < site.file.length) (st : ℤ)
    (hroom : s.hits.length < maxHits)
    (hsome : ∀ r ∈ site.taken (fromRecord st recs), (hitAt db site r).isSome) :
    Reports db site maxHits (accepted db site accept (site.taken (fromRecord st recs))) s.hits
      (fun _ _ => True)
      (indexLoop db site accept st maxHits recs s) := by
  induction recs generalizing s with
  | nil => exact Reports.nil hroom rfl
  | cons r recs ih =>
    obtain ⟨hr, hrest⟩ := List.forall_mem_cons.mp hrecs
    have hget : site.file[r]? = some site.file[r] := List.getElem?_eq_getElem hr
    rw [indexLoop]
    by_cases hskip : 0 < st ∧ (r : ℤ) < st
    · have hnot : fromRecord st (r :: recs) = fromRecord st recs :=
        List.filter_cons_of_neg (by simp [hskip])
      rw [hnot] at hsome ⊢
      rw [if_pos hskip]
      exact ih hrest hroom hsome
    · have hin : fromRecord st (r :: recs) = r :: fromRecord st recs :=
        List.filter_cons_of_pos
          (by simpa only [Bool.not_eq_true', decide_eq_false_iff_not] using hskip)
      rw [hin, SiteData.taken, List.filter_cons, hget, Option.any_some] at hsome ⊢
      rw [if_neg hskip]
      simp only [Option.bind_eq_bind, Option.bind_some]
      cases hshows : site.shows site.file[r] with
      | false =>
        rw [hshows] at hsome
        exact ih hrest hroom hsome
      | true =>
        rw [hshows, if_pos rfl] at hsome
        obtain ⟨hhit, hothers⟩ := List.forall_mem_cons.mp hsome
        have hq := hitAt_eq_hitOf hhit
        rw [hitAt, hget, Option.bind_eq_bind, Option.bind_some, Option.bind_eq_bind] at hq
        rw [if_pos rfl, if_neg (by simp), accepted, List.filter_cons]
        cases hindex : indexHit db site r site.file[r] with
        | none =>
          rw [hindex] at hq
          exact absurd hq (by simp)
        | some hit =>
          obtain ⟨result, currFile, currPrnt⟩ := hit
          rw [hindex, Option.bind_some, Option.some.injEq] at hq
          have hstr : result.str = (hitOf db site r).str := by rw [← hq]
          cases haccept : accept (hitOf db site r).str with
          | false =>
            simp only [Option.bind_some, hstr, haccept, Bool.false_eq_true, if_false]
            rw [if_neg (by omega)]
            exact ih hrest hroom hothers
          | true =>
            have hresult : accept result.str = true := by rw [hstr, haccept]
            simp only [Option.bind_some, hresult, if_true, hq]
            by_cases hfull : (maxHits : ℤ) ≤ ((s.hits ++ [hitOf db site r]).length : ℤ)
            · rw [if_pos hfull]
              exact Reports.full rfl hroom (by exact_mod_cast hfull) rfl trivial
            · rw [if_neg hfull]
              have hmore : (s.hits ++ [hitOf db site r]).length < maxHits := by
                have := not_le.mp hfull
                exact_mod_cast this
              exact Reports.cons (by simpa using hmore) (ih hrest hmore hothers)

/-- What the scan has to remember when it comes to a record: for one with a hit, its own document. -/
def ScanReady (site : SiteData) (start : ℤ) (n : ℕ) (s : HitState) : Prop :=
  if site.matching start n = true then ∀ e, site.file[n]? = some e → ScanAt site n e s
    else ScanInv site n s

theorem ScanInv.ready {n : ℕ} (hinv : ScanInv site n s) (h : SoundSite db site.web site.file)
    (start : ℤ) :
    ScanReady site start n s := by
  rw [ScanReady]
  split
  next hmatch =>
    intro e he
    simp [SiteData.matching, he] at hmatch
    exact hinv.at_entry h he hmatch.1.2
  next => exact hinv

variable (accept) in
/-- **The scan, when each record has a hit.** -/
theorem scanLoop_reports (h : SoundSite db site.web site.file) (start : ℤ) {rest : List SiteEntry}
    {n : ℕ}
    (hrest : site.file.drop n = rest) (hready : ScanReady site start n s)
    (hroom : s.hits.length < maxHits) :
    Reports db site maxHits
      (accepted db site accept ((List.range' n rest.length).filter (site.matching start)))
      s.hits (fun r s => ScanInv site (r + 1) s)
        (scanLoop db site accept start maxHits rest n s) := by
  induction rest generalizing n s with
  | nil => exact Reports.nil hroom rfl
  | cons e rest ih =>
    have he : site.file[n]? = some e := by
      rw [← Nat.add_zero n, ← List.getElem?_drop, hrest]
      rfl
    have hdrop : site.file.drop (n + 1) = rest := by
      rw [← List.drop_drop, hrest]
      rfl
    have hagain : ∀ s', ScanInv site (n + 1) s' → s'.hits.length < maxHits → Reports db site maxHits
        (accepted db site accept
          ((List.range' (n + 1) rest.length).filter (site.matching start))) s'.hits
        (fun r s => ScanInv site (r + 1) s)
          (scanLoop db site accept start maxHits rest (n + 1) s') :=
      fun s' hinv' hroom' => ih hdrop (hinv'.ready h start) hroom'
    rw [scanLoop, List.length_cons, List.range'_succ]
    cases hmatch : site.matching start n with
    | true =>
      rw [ScanReady, if_pos hmatch] at hready
      have hparent : cseIsParent e.flags = false := by
        simp [SiteData.matching, he] at hmatch
        exact hmatch.1.2
      have hhit := h.hitAt_isSome_entry he hparent
      rw [if_pos (h.string e (List.mem_of_getElem? he) hparent), List.filter_cons_of_pos hmatch,
        accepted,
        List.filter_cons]
      rcases @scanStep_matching db site accept h _ _ _ he hmatch _ (hready e he) with
        ⟨hnone, -⟩ | ⟨q, s', hq, hstep, hhits, hinv'⟩
      · rw [hnone] at hhit
        exact absurd hhit (by simp)
      rw [hitAt_eq_hitOf hhit, Option.some.injEq] at hq
      rw [hstep, Option.bind_eq_bind, Option.bind_some]
      rw [← hq] at hhits
      cases haccept : accept (hitOf db site n).str with
      | false =>
        rw [haccept, if_neg (by simp)] at hhits
        rw [if_neg Bool.false_ne_true, if_neg (by rw [hhits]; omega), ← hhits]
        exact hagain s' hinv' (by rw [hhits]; exact hroom)
      | true =>
        rw [haccept, if_pos rfl] at hhits
        rw [if_pos rfl]
        by_cases hfull : (maxHits : ℤ) ≤ (s'.hits.length : ℤ)
        · rw [if_pos hfull]
          exact Reports.full hhits hroom (by exact_mod_cast hfull) rfl ⟨hinv'.prnt, hinv'.file⟩
        · rw [if_neg hfull]
          have hmore : s'.hits.length < maxHits := by
            have := not_le.mp hfull
            exact_mod_cast this
          have hlater := hagain s' hinv' hmore
          rw [hhits] at hlater hmore
          exact Reports.cons (by simpa using hmore) hlater
    | false =>
      rw [ScanReady, if_neg (by simp [hmatch])] at hready
      rw [List.filter_cons_of_neg (by simp [hmatch])]
      by_cases hpos : 0 ≤ e.strt1
      · obtain ⟨s', hstep, hhits, hinv'⟩ :=
          @scanStep_other db site accept h _ _ _ he hmatch _ hready
        rw [if_pos hpos, hstep, Option.bind_eq_bind, Option.bind_some,
          if_neg (by rw [hhits]; omega), ← hhits]
        exact hagain s' hinv' (by rw [hhits]; exact hroom)
      · rw [if_neg hpos]
        exact hagain s (hready.first h he hpos start).2 hroom

end

/-! ### The calls -/

/-- The records that the index has for a start, if there is an index and it has any. -/
def SiteData.indexed (site : SiteData) (start : ℤ) : Option (List ℕ) :=
  site.index?.bind fun index => searchSiteIndex index start

/-- The records of a start whose hits are reported, in their order. -/
def SiteData.order (site : SiteData) (start : ℤ) : List ℕ :=
  match site.indexed start with
  | some recs => site.taken recs
  | none => (List.range' 0 site.file.length).filter (site.matching start)

/-- A site of a database: the links of its file, and an index made of it, if any. -/
structure GoodSite (db : StringsDb) (site : SiteData) :
    Prop extends SoundSite db site.web site.file where
  index : ∀ index ∈ site.index?, IsSiteIndex site.file index

theorem GoodSite.indexed_perm (h : GoodSite db site) {start : ℤ} {recs : List ℕ}
    (hrecs : site.indexed start = some recs) : recs.Perm (recordsWith site.file start) := by
  obtain ⟨index, hindex, hsearch⟩ := Option.bind_eq_some_iff.mp hrecs
  rcases searchSiteIndex_perm (h.index index hindex) start with ⟨-, hnone⟩ |
    ⟨recs', -, hperm, hsome⟩
  · rw [hnone] at hsearch
    exact absurd hsearch (by simp)
  · rw [hsome] at hsearch
    obtain rfl := Option.some.inj hsearch
    exact hperm

theorem GoodSite.indexed_lt (h : GoodSite db site) {start : ℤ} {recs : List ℕ}
    (hrecs : site.indexed start = some recs) : ∀ r ∈ recs, r < site.file.length := by
  intro r hr
  obtain ⟨e, he, -⟩ := mem_recordsWith.mp ((h.indexed_perm hrecs).mem_iff.mp hr)
  exact (List.getElem?_eq_some_iff.mp he).1

/-- The records that are reported have the start. -/
theorem GoodSite.mem_order (h : GoodSite db site) {start : ℤ} {r : ℕ} (hr : r ∈ site.order start) :
    ∃ e, site.file[r]? = some e ∧ e.strt1 = start ∧ site.shows e = true ∧
      (cseIsParent e.flags = true → site.web = false) := by
  have hmatching : ∀ {r}, site.matching start r = true → ∃ e, site.file[r]? = some e ∧
      e.strt1 = start ∧ site.shows e = true ∧ (cseIsParent e.flags = true → site.web = false) := by
    intro r hmatch
    rw [SiteData.matching, Option.any_eq_true] at hmatch
    obtain ⟨e, he, hmatch⟩ := hmatch
    simp only [Bool.and_eq_true, decide_eq_true_eq, Bool.not_eq_true'] at hmatch
    exact ⟨e, he, hmatch.1.1, hmatch.2, fun hp => by simp [hmatch.1.2] at hp⟩
  rw [SiteData.order] at hr
  cases hrecs : site.indexed start with
  | none =>
    rw [hrecs] at hr
    exact hmatching (List.mem_filter.mp hr).2
  | some recs =>
    rw [hrecs] at hr
    rcases List.mem_append.mp ((taken_perm (h.indexed_perm hrecs)).mem_iff.mp hr) with hr | hr
    · exact hmatching (List.mem_filter.mp hr).2
    · have hweb : site.web = false := by
        by_contra hweb
        rw [h.dirsWith_web (by simpa using hweb) start] at hr
        exact absurd hr List.not_mem_nil
      obtain ⟨e, he, -, hstart⟩ := (mem_dirsWith hweb).mp hr
      exact ⟨e, he, hstart, by simp [SiteData.shows, hweb], fun _ => hweb⟩

/-- They have a hit. -/
theorem GoodSite.order_isSome (h : GoodSite db site) {start : ℤ}
    (hstring : (db.getString start).isSome) :
    ∀ r ∈ site.order start, (hitAt db site r).isSome := by
  intro r hr
  obtain ⟨e, he, hstart, -, hweb⟩ := h.mem_order hr
  cases hparent : cseIsParent e.flags with
  | false => exact h.hitAt_isSome_entry he hparent
  | true => rw [h.hitAt_isSome (hweb hparent) he, hstart, hstring]

/-- The first record is not reported. -/
theorem GoodSite.zero_notMem_order (h : GoodSite db site) {start : ℤ} (hstart : 0 ≤ start) :
    0 ∉ site.order start := by
  intro hmem
  obtain ⟨e, he, hs, -⟩ := h.mem_order hmem
  have hneg := (h.first e he).2
  omega

variable (db site) in
/-- What a call leaves to the end of `getResultFromStart`, when it begins at the record
`st` with the given directory and document. -/
def siteLoop (start : ℤ) (maxHits : ℕ) (st currFile currPrnt : ℤ) : Option HitState :=
  match site.indexed start with
  | some recs => indexLoop db site anyPath st maxHits recs ⟨[], 0, currFile, currPrnt⟩
  | none =>
    scanLoop db site anyPath start maxHits (site.file.drop st.toNat) st.toNat
      ⟨[], 0, currFile, currPrnt⟩

theorem getResultFromStart_eq_fresh {siteRecord : StartReturn} (hfresh : siteRecord.Fresh)
    (start : ℤ)
    (maxHits : ℕ) : getResultFromStart db site anyPath start siteRecord maxHits =
      finishResult siteRecord (siteLoop db site start maxHits 0 0 0) := by
  rw [getResultFromStart_fresh hfresh, ← SiteData.indexed, siteLoop]
  cases site.indexed start <;> rfl

/-- What a call for a fresh site gives. -/
theorem GoodSite.reports_order (h : GoodSite db site) {start : ℤ}
    (hstring : (db.getString start).isSome)
    {maxHits : ℕ} (hmax : 0 < maxHits) :
    Reports db site maxHits (site.order start) []
      (fun r s => site.indexed start = none → ScanInv site (r + 1) s)
      (siteLoop db site start maxHits 0 0 0) := by
  have hsome := h.order_isSome hstring
  rw [SiteData.order] at hsome ⊢
  rw [siteLoop]
  cases hrecs : site.indexed start with
  | none =>
    have hloop := scanLoop_reports anyPath h.toSoundSite start (List.drop_zero (l := site.file))
      ((ScanInv.start (s := ⟨[], 0, 0, 0⟩) rfl).ready h.toSoundSite start) hmax
    rw [accepted_anyPath] at hloop
    obtain ⟨s, ho, hhits, hlast⟩ := hloop
    refine ⟨s, ho, hhits, fun hle => ?_⟩
    obtain ⟨r, hr, hcount, hinv⟩ := hlast hle
    exact ⟨r, hr, hcount, fun _ => hinv⟩
  | some recs =>
    have hall : fromRecord 0 recs = recs := List.filter_eq_self.mpr (by simp)
    rw [hrecs] at hsome
    have hloop := indexLoop_reports anyPath (h.indexed_lt hrecs) 0 (s := ⟨[], 0, 0, 0⟩) hmax
      (by rw [hall]; exact hsome)
    rw [hall, accepted_anyPath] at hloop
    obtain ⟨s, ho, hhits, hlast⟩ := hloop
    refine ⟨s, ho, hhits, fun hle => ?_⟩
    obtain ⟨r, hr, hcount, -⟩ := hlast hle
    exact ⟨r, hr, hcount, fun hnone => by simp at hnone⟩

/-- **A call for a fresh site** gives its first hits. -/
theorem GoodSite.getResultFromStart_take (h : GoodSite db site) {start : ℤ}
    (hstring : (db.getString start).isSome) {siteRecord : StartReturn} (hfresh : siteRecord.Fresh)
    {maxHits : ℕ} (hmax : 0 < maxHits) :
    (getResultFromStart db site anyPath start siteRecord maxHits).ok = true ∧
      (getResultFromStart db site anyPath start siteRecord maxHits).hits =
        ((site.order start).map (hitOf db site)).take maxHits := by
  obtain ⟨s, ho, hhits, -⟩ := h.reports_order hstring hmax
  rw [getResultFromStart_eq_fresh hfresh, ho]
  exact ⟨rfl, by simpa [finishResult] using hhits⟩

/-! ### The next call -/

/-- Of a list up to a place, the first element with a property that the one at the
place has. -/
theorem mem_take_of_head?_filter {α : Type*} {l : List α} {p : α → Bool} {n : ℕ} {a b : α}
    (hb : l[n]? = some b) (hp : p b = true) (ha : (l.filter p).head? = some a) :
    a ∈ l.take (n + 1) := by
  have hmem : b ∈ (l.take (n + 1)).filter p := by
    refine List.mem_filter.mpr ⟨?_, hp⟩
    exact List.mem_of_getElem? (i := n) (by rw [List.getElem?_take_of_lt (Nat.lt_succ_self n), hb])
  rw [← List.take_append_drop (n + 1) l, List.filter_append,
    List.head?_append_of_ne_nil _ (List.ne_nil_of_mem hmem)] at ha
  exact (List.mem_filter.mp (List.mem_of_head? ha)).1

/-- The scan begun again at a record with a hit. -/
theorem ScanInv.again {n : ℕ} {s s' : HitState} (hinv : ScanInv site (n + 1) s) {e : SiteEntry}
    (he : site.file[n]? = some e) (hparent : cseIsParent e.flags = false)
    (hshows : site.shows e = true)
    (hprnt : s'.currPrnt = s.currPrnt)
    (hfile : cseIsKey e.flags = true → s'.currFile = s.currFile) :
    ScanAt site n e s' := by
  refine ⟨?_, ?_⟩
  · rw [hprnt, hinv.prnt, if_neg (by omega), Nat.add_sub_cancel]
  · cases hkey : cseIsKey e.flags with
    | false => rw [if_neg (by simp), fileFrom_of_not_key he hkey]
    | true => rw [if_pos rfl, hfile hkey, hinv.file n e rfl he hparent hshows]

theorem scanLoop_again (h : SoundSite db site.web site.file) {start : ℤ} {maxHits : ℕ}
    (hmax : 0 < maxHits)
    {r : ℕ} {e : SiteEntry} (he : site.file[r]? = some e) (hmatch : site.matching start r = true)
    {s : HitState} (hhits : s.hits = []) (hat : ScanAt site r e s) :
    ∃ s' t, scanLoop db site anyPath start maxHits (site.file.drop r) r s = some s' ∧
      s'.hits = hitOf db site r :: t := by
  have hr : r < site.file.length := (List.getElem?_eq_some_iff.mp he).1
  have hready : ScanReady site start r s := by
    rw [ScanReady, if_pos hmatch]
    intro e' he'
    obtain rfl := Option.some.inj (he.symm.trans he')
    exact hat
  obtain ⟨s', ho, hhits', -⟩ := scanLoop_reports anyPath h start rfl hready
    (by rw [hhits]; exact hmax)
  obtain ⟨k, hk⟩ : ∃ k, (site.file.drop r).length = k + 1 :=
    ⟨_, (Nat.succ_pred (by rw [List.length_drop]; omega)).symm⟩
  obtain ⟨m, rfl⟩ : ∃ m, maxHits = m + 1 := ⟨maxHits - 1, by omega⟩
  rw [accepted_anyPath, hk, List.range'_succ, List.filter_cons_of_pos hmatch, hhits] at hhits'
  exact ⟨s', _, ho, hhits'⟩

/-- The call that goes on at the record at which the room was used up. -/
theorem getResultFromStart_eq_resumed {siteRecord : StartReturn} (hstop : 0 ≤ siteRecord.stop)
    {r : ℕ}
    (hr : siteRecord.siteStop = r) (hlt : r < site.file.length) (start : ℤ) (maxHits : ℕ) :
    getResultFromStart db site anyPath start siteRecord maxHits =
      finishResult siteRecord (siteLoop db site start maxHits r
        (recordIn site.file.length siteRecord.siteFile)
          (recordIn site.file.length siteRecord.sitePrnt)) := by
  have hres : decide (0 ≤ siteRecord.stop ∧ 0 ≤ (r : ℤ) ∧ (r : ℤ) < site.file.length) = true := by
    rw [decide_eq_true_eq]
    omega
  rw [getResultFromStart]
  simp only [hr, hres, if_true, Int.toNat_natCast]
  rw [← SiteData.indexed, siteLoop]
  cases site.indexed start <;> rfl

theorem GoodSite.findParent_recordIn (h : GoodSite db site) {r : ℕ} (hr : r < site.file.length) :
    recordIn site.file.length (findParent site.file r) = findParent site.file r := by
  obtain ⟨p, e, hfind, hle, -⟩ := h.findParent_le hr
  rw [hfind, recordIn, if_pos (by omega)]

theorem GoodSite.fileFrom_recordIn (h : GoodSite db site) {r : ℕ} {e : SiteEntry}
    (he : site.file[r]? = some e) (hparent : cseIsParent e.flags = false) :
    recordIn site.file.length (fileFrom site.file (r + 1)) = fileFrom site.file (r + 1) := by
  have hr : r < site.file.length := (List.getElem?_eq_some_iff.mp he).1
  obtain ⟨d, hb⟩ := h.exists_belongs he hparent
  have hle := hb.2.1
  rw [fileFrom_of_belongs hb, recordIn, if_pos (by omega)]

/-- **The next call begins with a hit that was given already**, if the room was used
up. -/
theorem GoodSite.getResultFromStart_again (h : GoodSite db site) {start : ℤ} (hstart : 0 ≤ start)
    (hstring : (db.getString start).isSome) {siteRecord : StartReturn} (hfresh : siteRecord.Fresh)
    (hzero : siteRecord.siteStop = 0) {maxHits : ℕ} (hmax : 0 < maxHits)
    (hfull : maxHits ≤ (site.order start).length) {siteRecord' : StartReturn}
    (hstop : 0 ≤ siteRecord'.stop)
    (hsite : siteRecord'.siteStop =
      (getResultFromStart db site anyPath start siteRecord maxHits).siteRecord.siteStop)
    (hfile : siteRecord'.siteFile =
      (getResultFromStart db site anyPath start siteRecord maxHits).siteRecord.siteFile)
    (hprnt : siteRecord'.sitePrnt =
      (getResultFromStart db site anyPath start siteRecord maxHits).siteRecord.sitePrnt)
    {maxHits' : ℕ} (hmax' : 0 < maxHits') :
    ∃ x t, x ∈ (getResultFromStart db site anyPath start siteRecord maxHits).hits ∧
      (getResultFromStart db site anyPath start siteRecord' maxHits').ok = true ∧
      (getResultFromStart db site anyPath start siteRecord' maxHits').hits = x :: t := by
  obtain ⟨s, ho, hhits, hlast⟩ := h.reports_order hstring hmax
  obtain ⟨r, hr, hcount, hinv⟩ := hlast (by simpa using hfull)
  have hmem : r ∈ site.order start := List.mem_of_getElem? hr
  have hpos : r ≠ 0 := by
    rintro rfl
    exact h.zero_notMem_order hstart hmem
  obtain ⟨e, he, hstrt, hshows, -⟩ := h.mem_order hmem
  have hlt : r < site.file.length := (List.getElem?_eq_some_iff.mp he).1
  -- the call has stopped at the record `r`
  have hfirst : getResultFromStart db site anyPath start siteRecord maxHits = ⟨true, s.hits,
      { siteRecord with siteStop := r, siteFile := s.currFile, sitePrnt := s.currPrnt }⟩ := by
    rw [getResultFromStart_eq_fresh hfresh, ho, finishResult, hcount, hzero, if_neg (by omega)]
  rw [hfirst] at hsite hfile hprnt ⊢
  dsimp only at hsite hfile hprnt ⊢
  rw [getResultFromStart_eq_resumed hstop hsite hlt, hfile, hprnt]
  simp only [List.length_nil, Nat.sub_zero, List.nil_append] at hhits hr
  have htake : ∀ a ∈ (site.order start).take (maxHits - 1 + 1), hitOf db site a ∈ s.hits := by
    intro a ha
    rw [hhits, ← List.map_take, show maxHits = maxHits - 1 + 1 by omega]
    exact List.mem_map_of_mem ha
  have hsome := h.order_isSome hstring
  rw [SiteData.order] at hr htake hsome
  rw [siteLoop]
  cases hrecs : site.indexed start with
  | none =>
    rw [hrecs] at hr htake
    have hmatch : site.matching start r = true := (List.mem_filter.mp (List.mem_of_getElem? hr)).2
    have hparent : cseIsParent e.flags = false := by
      simp [SiteData.matching, he] at hmatch
      exact hmatch.1.2
    have hscan := hinv hrecs
    have hcurrPrnt : s.currPrnt = findParent site.file r := by
      rw [hscan.prnt, if_neg (by omega), Nat.add_sub_cancel]
    have hcurrFile : s.currFile = fileFrom site.file (r + 1) := hscan.file r e rfl he hparent hshows
    rw [hcurrPrnt, hcurrFile, h.findParent_recordIn hlt, h.fileFrom_recordIn he hparent]
    obtain ⟨s', t, hloop, hhits'⟩ :=
      @scanLoop_again db site h.toSoundSite start maxHits' hmax' r e he
      hmatch ⟨[], 0, fileFrom site.file (r + 1), findParent site.file r⟩ rfl
      (hscan.again he hparent hshows hcurrPrnt.symm fun _ => hcurrFile.symm)
    rw [Int.toNat_natCast, hloop]
    refine ⟨hitOf db site r, t, htake r ?_, rfl, hhits'⟩
    exact List.mem_of_getElem? (i := maxHits - 1)
      (by rw [List.getElem?_take_of_lt (Nat.lt_succ_self _), hr])
  | some recs =>
    rw [hrecs] at hr htake hsome
    have hsub : site.taken (fromRecord r recs) =
        (site.taken recs).filter fun c : ℕ => !decide (0 < (r : ℤ) ∧ (c : ℤ) < r) := by
      rw [SiteData.taken, SiteData.taken, fromRecord, List.filter_comm]
    have hkeep : (fun c : ℕ => !decide (0 < (r : ℤ) ∧ (c : ℤ) < r)) r = true := by simp
    have hreports := indexLoop_reports anyPath (h.indexed_lt hrecs) r
      (s := ⟨[], 0, recordIn site.file.length s.currFile,
        recordIn site.file.length s.currPrnt⟩) hmax'
      (fun c hc => hsome c (by
        rw [hsub] at hc
        exact (List.mem_filter.mp hc).1))
    rw [accepted_anyPath] at hreports
    obtain ⟨s', hloop, hhits', -⟩ := hreports
    dsimp only
    rw [hloop]
    -- the first record from `r` on, in the order of the index, is not after `r` in it
    have hne : site.taken (fromRecord r recs) ≠ [] := by
      rw [hsub]
      exact List.ne_nil_of_mem (List.mem_filter.mpr ⟨List.mem_of_getElem? hr, hkeep⟩)
    obtain ⟨a, l, hal⟩ := List.exists_cons_of_ne_nil hne
    have ha := mem_take_of_head?_filter hr hkeep (a := a) (by rw [← hsub, hal]; rfl)
    refine ⟨hitOf db site a, s'.hits.tail, htake a ha, rfl, ?_⟩
    obtain ⟨k, rfl⟩ : ∃ k, maxHits' = k + 1 := ⟨maxHits' - 1, by omega⟩
    rw [hal] at hhits'
    simp only [finishResult, hhits']
    rfl

end Archie
