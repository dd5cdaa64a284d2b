/-
The hits of a page (`archsearch/search.c`: `archQuery`, `archQueryMore`).

* `queryLoop_spec` — the loops go through the strings, with all their hits, or the page
  is cut: it ends with a site of which the last hit there was room for is given.
* `archQueryMore_cut` — after a page that was cut, the next one begins with a hit that
  the page has given already.
-/
import Archie.QueryPages
import Archie.SitePages

namespace Archie

variable {db : SearchDb} {b : Budget}

/-! ### The hits of strings -/

/-- The hits of a string in a site. -/
def siteHits (db : StringsDb) (start : ℤ) : Option SiteData → List QueryResult
  | none => []
  | some site => (site.order start).map (hitOf db site)

/-- The hits of a string. -/
def SearchDb.hitsOf (db : SearchDb) (start : ℤ) : List QueryResult :=
  (db.sites start).flatMap (siteHits db.strings start)

/-- The hits of some strings. -/
def SearchDb.reported (db : SearchDb) (starts : List ℤ) : List QueryResult :=
  starts.flatMap db.hitsOf

theorem SearchDb.reported_append (starts starts' : List ℤ) :
    db.reported (starts ++ starts') = db.reported starts ++ db.reported starts' :=
      List.flatMap_append

theorem SearchDb.reported_cons (start : ℤ) (starts : List ℤ) :
    db.reported (start :: starts) = db.hitsOf start ++ db.reported starts := List.flatMap_cons

/-- A string of the database, with its sites. -/
structure GoodStart (db : SearchDb) (start : ℤ) : Prop where
  pos : 0 < start
  string : (db.strings.getString start).isSome
  sites : ∀ o ∈ db.sites start, ∃ site, o = some site ∧ GoodSite db.strings site

/-! ### Cuts -/

/-- A page that was cut: it ends with the first hits of a string in a site, as many as
there was room for, and `tmp_stop` and `site_record` tell the site and the record. -/
structure Cut (db : SearchDb) (b : Budget) (s : QueryState) : Prop where
  good : GoodStart db s.string
  at_site : ∃ (k : ℕ) (site : SiteData) (stop : ℤ) (before : List QueryResult),
    s.tmpStop = k ∧ (db.sites s.string)[k]? = some (some site) ∧ stop ≤ 0 ∧ before.length < b.h ∧
    b.h - before.length ≤ (site.order s.string).length ∧
    s.hits = before ++ (getResultFromStart db.strings site anyPath s.string
      { StartReturn.zero with stop := stop } ((b.h - before.length : ℕ) : ℤ)).hits ∧
    s.siteRecord = (getResultFromStart db.strings site anyPath s.string
      { StartReturn.zero with stop := stop } ((b.h - before.length : ℕ) : ℤ)).siteRecord
  full : b.h ≤ s.hits.length

theorem fresh_zero (stop : ℤ) : StartReturn.Fresh { StartReturn.zero with stop := stop } :=
  Or.inr ⟨rfl, rfl, rfl⟩

/-- **The sites of a string**: all hits, or a cut. -/
theorem sitesLoop_spec {start : ℤ} (hgood : GoodStart db start) {stop : ℤ} (hstop : stop ≤ 0)
    {sites : List (Option SiteData)} {k : ℕ} (hsites : (db.sites start).drop k = sites)
    {s : QueryState}
    (hstring : s.string = start) (hroom : s.hits.length < b.h)
    (hhpm : s.numHitsPm + (sites.flatMap (siteHits db.strings start)).length < b.hpm) :
    (s.hits.length + (sites.flatMap (siteHits db.strings start)).length < b.h →
      ∃ record, sitesLoop db anyPath b stop start k sites s = { s with
        hits := s.hits ++ sites.flatMap (siteHits db.strings start)
        numHitsPm := s.numHitsPm + (sites.flatMap (siteHits db.strings start)).length
        siteRecord := record }) ∧
    (b.h ≤ s.hits.length + (sites.flatMap (siteHits db.strings start)).length →
      Cut db b (sitesLoop db anyPath b stop start k sites s)) := by
  induction sites generalizing k s with
  | nil =>
    refine ⟨fun _ => ⟨s.siteRecord, ?_⟩, fun hle => ?_⟩
    · simp [sitesLoop]
    · simp at hle
      omega
  | cons o sites ih =>
    have hk : (db.sites start)[k]? = some o := by
      rw [← Nat.add_zero k, ← List.getElem?_drop, hsites]
      rfl
    have hdrop : (db.sites start).drop (k + 1) = sites := by
      rw [← List.drop_drop, hsites]
      rfl
    obtain ⟨site, rfl, hsite⟩ := hgood.sites o (List.mem_of_getElem? hk)
    have hmax : 0 < b.h - s.hits.length := by omega
    have hcast : (b.h : ℤ) - s.hits.length = ((b.h - s.hits.length : ℕ) : ℤ) := by omega
    obtain ⟨hok, hhits⟩ := hsite.getResultFromStart_take hgood.string (fresh_zero stop) hmax
    rw [List.flatMap_cons, List.length_append] at hhpm
    simp only [List.flatMap_cons, List.length_append]
    rw [sitesLoop]
    dsimp only
    rw [hcast, hok, if_neg (by simp)]
    by_cases hcut : b.h - s.hits.length ≤ (site.order start).length
    · -- there is no room for more than the first hits of the site
      have hlen : ((getResultFromStart db.strings site anyPath start
          { StartReturn.zero with stop := stop }
          ((b.h - s.hits.length : ℕ) : ℤ)).hits).length = b.h - s.hits.length := by
        rw [hhits, List.length_take, List.length_map]
        omega
      have hfull : b.h ≤ (s.hits ++ (getResultFromStart db.strings site anyPath start
          { StartReturn.zero with stop := stop } ((b.h - s.hits.length : ℕ) : ℤ)).hits).length := by
        rw [List.length_append, hlen]
        omega
      rw [if_pos (Or.inl hfull)]
      have hsiteHits : (siteHits db.strings start (some site)).length = (site.order start).length :=
        List.length_map _
      refine ⟨fun hlt => by omega, fun _ => ?_⟩
      exact {
        good := by rw [← hstring] at hgood; exact hgood
        at_site := ⟨k, site, stop, s.hits, rfl, by rw [hstring]; exact hk, hstop, hroom,
          by rw [hstring]; exact hcut, by rw [hstring], by rw [hstring]⟩
        full := hfull }
    · have hall : (getResultFromStart db.strings site anyPath start
        { StartReturn.zero with stop := stop }
          ((b.h - s.hits.length : ℕ) : ℤ)).hits = siteHits db.strings start (some site) := by
        rw [hhits, List.take_of_length_le (by rw [List.length_map]; omega)]
        rfl
      have hsiteHits : (siteHits db.strings start (some site)).length = (site.order start).length :=
        List.length_map _
      have hmore : (s.hits ++ siteHits db.strings start (some site)).length < b.h := by
        rw [List.length_append]
        omega
      rw [hall, if_neg (by omega)]
      obtain ⟨hdone, hlater⟩ := @ih (k + 1) hdrop
        { s with
          siteRecord := (getResultFromStart db.strings site anyPath start
            { StartReturn.zero with stop := stop } ((b.h - s.hits.length : ℕ) : ℤ)).siteRecord
          hits := s.hits ++ siteHits db.strings start (some site)
          numHitsPm := s.numHitsPm + (siteHits db.strings start (some site)).length }
        hstring hmore (by dsimp only; omega)
      rw [List.length_append] at hdone hlater
      refine ⟨fun hlt => ?_, fun hle => hlater (by omega)⟩
      obtain ⟨record, hrecord⟩ := hdone (by omega)
      refine ⟨record, hrecord.trans ?_⟩
      simp only [List.append_assoc, Nat.add_assoc]

/-! ### Batches -/

/-- How many of some strings have hits. -/
def SearchDb.matched (db : SearchDb) (starts : List ℤ) : ℕ :=
  starts.countP fun start => !(db.hitsOf start).isEmpty

theorem SearchDb.matched_append (starts starts' : List ℤ) :
    db.matched (starts ++ starts') = db.matched starts + db.matched starts' := List.countP_append

theorem SearchDb.matched_cons (start : ℤ) (starts : List ℤ) : db.matched (start :: starts) =
    db.matched starts + if (db.hitsOf start).isEmpty then 0 else 1 := by
  rw [SearchDb.matched, List.countP_cons]
  cases (db.hitsOf start).isEmpty <;> rfl

/-- A page is not at a site: the next one does not go on with its last string. -/
def Idle (db : SearchDb) (s : QueryState) : Prop := s.tmpStop < 0 ∨ db.sites s.string = []

/-- Room for the hits of each string, or of all of them together. -/
def HpmRoom (db : SearchDb) (b : Budget) (more : Bool) (starts : List ℤ) (s : QueryState) : Prop :=
  if more then s.numHitsPm + (db.reported starts).length < b.hpm
  else ∀ start ∈ starts, (db.hitsOf start).length < b.hpm

/-- What the strings add to a page. -/
structure Adds (db : SearchDb) (more : Bool) (starts : List ℤ) (s s' : QueryState) : Prop where
  hits : s'.hits = s.hits ++ db.reported starts
  numMatches : s'.numMatches = s.numMatches + db.matched starts
  numHitsPm : more = true → s'.numHitsPm = s.numHitsPm + (db.reported starts).length
  idle : starts ≠ [] ∨ Idle db s → Idle db s'

/-- The room for the first of some strings. -/
theorem HpmRoom.head {more : Bool} {starts starts' : List ℤ} {s : QueryState}
    (h : HpmRoom db b more (starts ++ starts') s) : HpmRoom db b more starts s := by
  rw [HpmRoom] at h ⊢
  cases more with
  | true =>
    rw [if_pos rfl, db.reported_append, List.length_append] at h
    rw [if_pos rfl]
    omega
  | false => exact fun start hmem => h start (List.mem_append_left _ hmem)

/-- The room for the others, after it. -/
theorem HpmRoom.tail {more : Bool} {starts starts' : List ℤ} {s s' : QueryState}
    (h : HpmRoom db b more (starts ++ starts') s) (hadd : Adds db more starts s s') :
    HpmRoom db b more starts' s' := by
  rw [HpmRoom] at h ⊢
  cases more with
  | true =>
    rw [if_pos rfl, db.reported_append, List.length_append] at h
    rw [if_pos rfl, hadd.numHitsPm rfl]
    omega
  | false => exact fun start' hmem => h start' (List.mem_append_right _ hmem)

theorem Adds.refl (more : Bool) (s : QueryState) : Adds db more [] s s where
  hits := (List.append_nil _).symm
  numMatches := rfl
  numHitsPm := fun _ => rfl
  idle := fun h => h.resolve_left fun hne => hne rfl

theorem Adds.trans {more : Bool} {starts starts' : List ℤ} {s s' s'' : QueryState}
    (h : Adds db more starts s s') (h' : Adds db more starts' s' s'') :
    Adds db more (starts ++ starts') s s'' where
  hits := by rw [h'.hits, h.hits, db.reported_append, List.append_assoc]
  numMatches := by rw [h'.numMatches, h.numMatches, db.matched_append, Nat.add_assoc]
  numHitsPm := fun hmore => by
    rw [h'.numHitsPm hmore, h.numHitsPm hmore, db.reported_append, List.length_append,
      Nat.add_assoc]
  idle := fun hidle => h'.idle (by
    by_cases hnil : starts = []
    · subst hnil
      rcases hidle with hne | hs
      · exact Or.inl (by simpa using hne)
      · exact Or.inr (h.idle (Or.inr hs))
    · exact Or.inr (h.idle (Or.inl hnil)))

theorem Cut.numMatches {s : QueryState} (h : Cut db b s) (n : ℕ) :
    Cut db b { s with numMatches := n } :=
  ⟨h.good, h.at_site, h.full⟩

theorem Cut.counted {s : QueryState} (h : Cut db b s) (before : ℕ) :
    Cut db b (s.counted before) := by
  obtain ⟨n, hn⟩ := s.counted_cases before
  rw [hn]
  exact h.numMatches n

/-- The state before the sites of a string are looked at. -/
def QueryState.at_string (s : QueryState) (more : Bool) (start : ℤ) : QueryState :=
  { s with string := start, numHitsPm := if more then s.numHitsPm else 0, tmpStop := -1 }

/-- **A string with sites**: all its hits, or a cut. -/
theorem sitesLoop_string {start : ℤ} (hgood : GoodStart db start) (more : Bool) {s : QueryState}
    (hroom : s.hits.length < b.h) (hhpm : HpmRoom db b more [start] s) {s' : QueryState}
    (hs' : s' = (sitesLoop db anyPath b (if more then 0 else -1) start 0 (db.sites start)
      (s.at_string more start)).counted s.hits.length) :
    (s.hits.length + (db.hitsOf start).length < b.h → Adds db more [start] s s') ∧
    (b.h ≤ s.hits.length + (db.hitsOf start).length → Cut db b s') := by
  have hone : db.reported [start] =
      db.hitsOf start := by rw [db.reported_cons]; exact List.append_nil _
  have hhpm' : (s.at_string more start).numHitsPm + (db.hitsOf start).length < b.hpm := by
    rw [HpmRoom, hone] at hhpm
    cases more with
    | true => simpa [QueryState.at_string] using hhpm
    | false => simpa [QueryState.at_string] using hhpm
  have hstop : (if more then 0 else -1 : ℤ) ≤ 0 := by cases more <;> simp
  obtain ⟨hdone, hcut⟩ := @sitesLoop_spec db b start hgood _ hstop (db.sites start) 0 rfl
    (s.at_string more start) rfl hroom hhpm'
  rw [← SearchDb.hitsOf] at hdone hcut
  constructor
  · intro hlt
    obtain ⟨record, heq⟩ := hdone hlt
    rw [heq, QueryState.counted_append rfl] at hs'
    subst hs'
    refine ⟨?_, ?_, fun hmore => ?_, fun _ => Or.inl (by simp [QueryState.at_string])⟩
    · rw [hone]
      rfl
    · rw [db.matched_cons, SearchDb.matched, List.countP_nil, Nat.zero_add]
      rfl
    · rw [hone, QueryState.at_string, hmore]
      rfl
  · intro hle
    rw [hs']
    exact (hcut hle).counted _

/-- **The strings of a batch**: all their hits, or a cut. -/
theorem stringsLoop_spec (more : Bool) {starts : List ℤ}
    (hgood : ∀ start ∈ starts, GoodStart db start)
    {s : QueryState} (hroom : s.hits.length < b.h) (hhpm : HpmRoom db b more starts s) :
    (s.hits.length + (db.reported starts).length < b.h →
      Adds db more starts s (stringsLoop db anyPath b more starts s)) ∧
    (b.h ≤ s.hits.length + (db.reported starts).length →
      Cut db b (stringsLoop db anyPath b more starts s)) := by
  induction starts generalizing s with
  | nil =>
    refine ⟨fun _ => Adds.refl more s, fun hle => ?_⟩
    simp [SearchDb.reported] at hle
    omega
  | cons start starts ih =>
    obtain ⟨hstart, hrest⟩ := List.forall_mem_cons.mp hgood
    rw [stringsLoop]
    dsimp only
    by_cases hsites : db.sites start = []
    · -- a string without a site is passed over
      have hnone : db.hitsOf start = [] := by rw [SearchDb.hitsOf, hsites]; rfl
      have hadd : Adds db more [start] s { s with string := start } := by
        refine ⟨?_, ?_, fun _ => ?_, fun _ => Or.inr hsites⟩
        · simp [SearchDb.reported, hnone]
        · simp [SearchDb.matched, hnone]
        · simp [SearchDb.reported, hnone]
      rw [if_pos (by rw [hsites]; rfl), db.reported_cons, hnone, List.nil_append]
      obtain ⟨hdone, hcut⟩ := @ih hrest { s with string := start } hroom (hhpm.tail hadd)
      exact ⟨fun hlt => hadd.trans (hdone hlt), hcut⟩
    · rw [if_neg (by simpa [List.isEmpty_iff] using hsites)]
      set s' := (sitesLoop db anyPath b (if more then 0 else -1) start 0 (db.sites start)
        (s.at_string more start)).counted s.hits.length with hs'
      obtain ⟨hdone, hcut⟩ :=
        sitesLoop_string hstart more hroom (@HpmRoom.head db b more [start] starts s hhpm) hs'
      rw [db.reported_cons, List.length_append]
      by_cases hlt : s.hits.length + (db.hitsOf start).length < b.h
      · have hadd := hdone hlt
        have hhits : s'.hits.length = s.hits.length + (db.hitsOf start).length := by
          rw [hadd.hits, List.length_append, db.reported_cons, List.length_append]
          simp [SearchDb.reported]
        obtain ⟨hdone', hcut'⟩ := @ih hrest s' (by omega) (hhpm.tail hadd)
        change (_ → Adds db more (start :: starts) s (if b.h ≤ s'.hits.length then s' else
          stringsLoop db anyPath b more starts s')) ∧
            (_ → Cut db b (if b.h ≤ s'.hits.length then s' else
          stringsLoop db anyPath b more starts s'))
        rw [if_neg (by omega)]
        exact ⟨fun h => hadd.trans (hdone' (by omega)), fun h => hcut' (by omega)⟩
      · have hc := hcut (by omega)
        change (_ → Adds db more (start :: starts) s (if b.h ≤ s'.hits.length then s' else
          stringsLoop db anyPath b more starts s')) ∧
            (_ → Cut db b (if b.h ≤ s'.hits.length then s' else
          stringsLoop db anyPath b more starts s'))
        rw [if_pos hc.full]
        exact ⟨fun h => by omega, fun _ => hc⟩

/-! ### The strings of a page -/

/-- What a strings search promises: as many strings as are asked for at most, and one at
least as long as there are any. -/
structure IsSearch (search : ℕ → List ℤ → ℕ) : Prop where
  le : ∀ n rest, search n rest ≤ n
  pos : ∀ n rest, 0 < n → rest ≠ [] → 0 < search n rest

/-- The strings up to the one with which `m` of them have hits. -/
def SearchDb.firstStrings (db : SearchDb) : ℕ → List ℤ → List ℤ
  | _, [] => []
  | 0, _ => []
  | m + 1, start :: starts =>
    start :: db.firstStrings (if (db.hitsOf start).isEmpty then m + 1 else m) starts

/-- The strings that come after them. -/
def SearchDb.laterStrings (db : SearchDb) (m : ℕ) (starts : List ℤ) : List ℤ :=
  starts.drop (db.firstStrings m starts).length

theorem SearchDb.prefix_firstStrings (m : ℕ) (starts : List ℤ) :
    db.firstStrings m starts <+: starts := by
  induction starts generalizing m with
  | nil => cases m <;> exact List.nil_prefix
  | cons start starts ih =>
    cases m with
    | zero => exact List.nil_prefix
    | succ m => exact (List.prefix_cons_inj _).mpr (ih _)

theorem SearchDb.firstStrings_append_later (m : ℕ) (starts : List ℤ) :
    db.firstStrings m starts ++ db.laterStrings m starts = starts := by
  rw [SearchDb.laterStrings]
  exact List.prefix_iff_eq_append.mp (db.prefix_firstStrings m starts)

/-- If any strings come after the first ones, `m` of these have hits. -/
theorem SearchDb.matched_firstStrings {m : ℕ} {starts : List ℤ}
    (h : db.laterStrings m starts ≠ []) :
    db.matched (db.firstStrings m starts) = m := by
  induction starts generalizing m with
  | nil =>
    rw [SearchDb.laterStrings, List.drop_nil] at h
    exact absurd rfl h
  | cons start starts ih =>
    cases m with
    | zero => rfl
    | succ m =>
      rw [SearchDb.laterStrings, SearchDb.firstStrings, List.length_cons, List.drop_succ_cons] at h
      rw [SearchDb.firstStrings, db.matched_cons, ih h]
      split <;> rfl

/-- A batch is among the first strings, if it is not larger than what they lack. -/
theorem SearchDb.firstStrings_append {m : ℕ} {batch : List ℤ} (hle : batch.length ≤ m)
    (starts : List ℤ) :
    db.firstStrings m (batch ++ starts) =
      batch ++ db.firstStrings (m - db.matched batch) starts := by
  induction batch generalizing m with
  | nil => rfl
  | cons start batch ih =>
    obtain ⟨m, rfl⟩ : ∃ k, m = k + 1 := ⟨m - 1, by rw [List.length_cons] at hle; omega⟩
    rw [List.length_cons] at hle
    rw [List.cons_append, SearchDb.firstStrings, db.matched_cons]
    cases hempty : (db.hitsOf start).isEmpty with
    | true =>
      rw [if_pos rfl, if_pos rfl, ih (by omega), Nat.add_zero]
      rfl
    | false =>
      rw [if_neg (by simp), if_neg (by simp), ih (by omega), List.cons_append,
        show m + 1 - (db.matched batch + 1) = m - db.matched batch by omega]

/-- The strings that the loop goes through. -/
def SearchDb.goes (db : SearchDb) (more : Bool) (m : ℕ) (rest : List ℤ) : List ℤ :=
  if more then rest else db.firstStrings m rest

/-- **The strings of a page**: all their hits, or a cut. -/
theorem queryLoop_spec {search : ℕ → List ℤ → ℕ} (hsearch : IsSearch search) (hm : 0 < b.m)
    (more : Bool)
    {fuel : ℕ} {rest : List ℤ} (hfuel : rest.length < fuel)
    (hgood : ∀ start ∈ rest, GoodStart db start)
    {s : QueryState} (hroom : s.hits.length < b.h) (hhpm : HpmRoom db b more rest s) :
    (s.hits.length + (db.reported (db.goes more (b.m - s.numMatches) rest)).length < b.h →
      (queryLoop db anyPath b search more fuel rest s).1 =
        rest.drop (db.goes more (b.m - s.numMatches) rest).length ∧
      Adds db more (db.goes more (b.m - s.numMatches) rest) s
        (queryLoop db anyPath b search more fuel rest s).2) ∧
    (b.h ≤ s.hits.length + (db.reported (db.goes more (b.m - s.numMatches) rest)).length →
      Cut db b (queryLoop db anyPath b search more fuel rest s).2) := by
  induction fuel generalizing rest s with
  | zero => omega
  | succ fuel ih =>
    rw [queryLoop]
    dsimp only
    set asked := if more then b.m else b.m - s.numMatches with hasked
    set n := search asked rest with hn
    split
    next hempty =>
      -- nothing is fetched: no string is left, or none is asked for
      have hnone : db.goes more (b.m - s.numMatches) rest = [] := by
        rw [SearchDb.goes]
        by_cases hrest : rest = []
        · rw [hrest, SearchDb.firstStrings.eq_def]
          cases more <;> rfl
        · have hzero : asked = 0 := by
            by_contra hpos
            have hsome := hsearch.pos asked rest (by omega) hrest
            rw [List.isEmpty_iff, List.take_eq_nil_iff] at hempty
            rcases hempty with hempty | hempty
            · omega
            · exact hrest hempty
          cases more with
          | true =>
            rw [hasked, if_pos rfl] at hzero
            omega
          | false =>
            rw [hasked, if_neg (by simp)] at hzero
            rw [if_neg (by simp), hzero, SearchDb.firstStrings.eq_def]
            cases rest <;> rfl
      rw [hnone]
      refine ⟨fun _ => ⟨rfl, Adds.refl more s⟩, fun hle => ?_⟩
      simp [SearchDb.reported] at hle
      omega
    next hne =>
      have hsplit : rest.take n ++ rest.drop n = rest := List.take_append_drop n rest
      have hlen : (rest.take n).length ≤ asked := by
        have hle := hsearch.le asked rest
        rw [List.length_take]
        omega
      have hdrop : (rest.drop n).length < fuel := by
        have hpos : (rest.take n).length ≠ 0 := by simpa [List.isEmpty_iff] using hne
        rw [List.length_take] at hpos
        rw [List.length_drop]
        omega
      -- the strings are those of the batch and those that the next rounds go through
      have hgoes : db.goes more (b.m - s.numMatches) rest = rest.take n ++
          db.goes more (b.m - (s.numMatches + db.matched (rest.take n))) (rest.drop n) := by
        cases more with
        | true => exact hsplit.symm
        | false =>
          rw [SearchDb.goes, if_neg (by simp), SearchDb.goes, if_neg (by simp), ← Nat.sub_sub,
            ← db.firstStrings_append (by simpa [hasked] using hlen), hsplit]
      set batch := rest.take n with hbatch
      set rest' := rest.drop n with hrest'
      rw [← hsplit] at hhpm
      obtain ⟨hdone, hcut⟩ := @stringsLoop_spec db b more batch
        (fun start hmem => hgood start (List.mem_of_mem_take hmem)) s hroom hhpm.head
      rw [hgoes, db.reported_append, List.length_append, List.length_append]
      by_cases hlt : s.hits.length + (db.reported batch).length < b.h
      · have hadd := hdone hlt
        have hhits := congrArg List.length hadd.hits
        rw [List.length_append] at hhits
        obtain ⟨hdone', hcut'⟩ := @ih rest' hdrop
          (fun start hmem => hgood start (List.mem_of_mem_drop hmem))
          (stringsLoop db anyPath b more batch s) (by omega) (hhpm.tail hadd)
        rw [if_neg (by omega)]
        rw [hadd.numMatches] at hdone' hcut'
        refine ⟨fun h => ?_, fun h => hcut' (by omega)⟩
        obtain ⟨hrest, hadd'⟩ := hdone' (by omega)
        refine ⟨?_, hadd.trans hadd'⟩
        rw [hrest, ← hsplit, ← List.drop_drop, List.drop_left]
      · have hc := hcut (by omega)
        rw [if_pos hc.full]
        exact ⟨fun h => by omega, fun _ => hc⟩

/-! ### After a cut -/

section

variable {accept : List UInt8 → Bool}

theorem prefix_sitesLoop (stop start : ℤ) (sites : List (Option SiteData)) (k : ℕ)
    (s : QueryState) :
    s.hits <+: (sitesLoop db accept b stop start k sites s).hits := by
  induction sites generalizing k s with
  | nil => exact List.prefix_rfl
  | cons o sites ih =>
    cases o with
    | none => exact ih _ _
    | some site =>
      have hgo : ∀ s', s.hits <+: s'.hits →
          s.hits <+: (sitesLoop db accept b stop start (k + 1) sites s').hits :=
        fun s' h => h.trans (ih (k + 1) s')
      rw [sitesLoop]
      dsimp only
      split
      · exact hgo _ List.prefix_rfl
      · split
        · exact List.prefix_append _ _
        · exact hgo _ (List.prefix_append _ _)

theorem prefix_stringsLoop (more : Bool) (starts : List ℤ) (s : QueryState) :
    s.hits <+: (stringsLoop db accept b more starts s).hits := by
  induction starts generalizing s with
  | nil => exact List.prefix_rfl
  | cons start starts ih =>
    rw [stringsLoop]
    dsimp only
    split
    · exact ih { s with string := start }
    · set s₁ := sitesLoop db accept b (if more then 0 else -1) start 0 (db.sites start) _
      have hhits : s.hits <+: (s₁.counted s.hits.length).hits := by
        obtain ⟨n, hn⟩ := s₁.counted_cases s.hits.length
        rw [hn]
        exact prefix_sitesLoop _ _ _ _ (s.at_string more start)
      split
      · exact hhits
      · exact hhits.trans (ih _)

theorem prefix_queryLoop (search : ℕ → List ℤ → ℕ) (more : Bool) (fuel : ℕ) (rest : List ℤ)
    (s : QueryState) : s.hits <+: (queryLoop db accept b search more fuel rest s).2.hits := by
  induction fuel generalizing rest s with
  | zero => exact List.prefix_rfl
  | succ fuel ih =>
    rw [queryLoop]
    dsimp only
    generalize search (if more then b.m else b.m - s.numMatches) rest = n
    split
    · exact List.prefix_rfl
    · split
      · exact prefix_stringsLoop _ _ _
      · exact (prefix_stringsLoop _ _ _).trans (ih _ _)

theorem prefix_resumeLoop (string : ℤ) (sites : List (Option SiteData)) (k : ℕ) (s : QueryState) :
    s.hits <+: (resumeLoop db accept b string k sites s).1.hits := by
  induction sites generalizing k s with
  | nil => exact List.prefix_rfl
  | cons o sites ih =>
    cases o with
    | none => exact List.prefix_rfl
    | some site =>
      have hgo : ∀ s', s.hits <+: s'.hits →
          s.hits <+: (resumeLoop db accept b string (k + 1) sites s').1.hits :=
        fun s' h => h.trans (ih (k + 1) s')
      rw [resumeLoop]
      dsimp only
      split
      · exact List.prefix_rfl
      · split
        · exact List.prefix_append _ _
        · exact hgo _ (List.prefix_append _ _)

/-- The hits of the string at which the last page ended come first. -/
theorem prefix_archQueryMore (search : ℕ → List ℤ → ℕ) {h m hpm : ℤ} {page : Page}
    (hstring : 0 < page.siteRecord.string) (hstop : 0 ≤ page.siteRecord.stop) :
    (resumeLoop db accept (budget h m hpm) page.siteRecord.string page.siteRecord.stop.toNat
        ((db.sites page.siteRecord.string).drop page.siteRecord.stop.toNat)
        ⟨[], 0, 0, 0, 0, page.siteRecord⟩).1.hits <+:
      (archQueryMore db accept search h m hpm page).hits := by
  rw [archQueryMore]
  dsimp only
  rw [if_pos (show 0 < page.siteRecord.string ∧ 0 ≤ page.siteRecord.stop from ⟨hstring, hstop⟩)]
  set s := resumeLoop db accept (budget h m hpm) page.siteRecord.string page.siteRecord.stop.toNat
    ((db.sites page.siteRecord.string).drop page.siteRecord.stop.toNat)
      ⟨[], 0, 0, 0, 0, page.siteRecord⟩
  split
  · exact List.prefix_rfl
  · exact prefix_queryLoop _ _ _ _ _

end

/-- **After a cut** the next page begins with a hit of the last one. -/
theorem archQueryMore_cut (search : ℕ → List ℤ → ℕ) {h m hpm : ℤ} {s : QueryState}
    (hcut : Cut db (budget h m hpm) s) {page : Page} (hpage : page.siteRecord = s.record) :
    ∃ x t, x ∈ s.hits ∧ (archQueryMore db anyPath search h m hpm page).hits = x :: t := by
  obtain ⟨hgood, ⟨k, site, stop, before, hk, hsite, hstop, hbefore, hfull, hhits, hrecord⟩, -⟩ :=
    hcut
  obtain ⟨site', heq, hgoodSite⟩ := hgood.sites _ (List.mem_of_getElem? hsite)
  obtain rfl := Option.some.inj heq
  have hstring : page.siteRecord.string = s.string := by rw [hpage]; rfl
  have hpageStop : page.siteRecord.stop = k := by
    rw [hpage, QueryState.record]
    simp [hk]
  obtain ⟨hh, -, hhpm⟩ := budget_pos h m hpm
  -- the site at which the page ended is the first one that the next page looks at
  have hdrop : (db.sites s.string).drop k = some site :: (db.sites s.string).drop (k + 1) := by
    have hlt := (List.getElem?_eq_some_iff.mp hsite).1
    rw [List.drop_eq_getElem_cons hlt]
    rw [List.getElem?_eq_getElem hlt] at hsite
    rw [Option.some.inj hsite]
  have hmin : min (((budget h m hpm).hpm : ℤ) - 0) (((budget h m hpm).h : ℤ) - 0) =
      ((min (budget h m hpm).hpm (budget h m hpm).h : ℕ) : ℤ) := by omega
  obtain ⟨x, t, hx, hok, hagain⟩ :=
    @GoodSite.getResultFromStart_again db.strings site hgoodSite s.string
    hgood.pos.le hgood.string { StartReturn.zero with stop := stop } (fresh_zero stop) rfl
    ((budget h m hpm).h - before.length) (by omega) hfull page.siteRecord (by rw [hpageStop]; omega)
    (by rw [hpage, ← hrecord]; rfl) (by rw [hpage, ← hrecord]; rfl) (by rw [hpage, ← hrecord]; rfl)
    (min (budget h m hpm).hpm (budget h m hpm).h) (by omega)
  have hresume : [x] <+: (resumeLoop db anyPath (budget h m hpm) page.siteRecord.string
      page.siteRecord.stop.toNat ((db.sites page.siteRecord.string).drop page.siteRecord.stop.toNat)
      ⟨[], 0, 0, 0, 0, page.siteRecord⟩).1.hits := by
    rw [hstring, hpageStop, Int.toNat_natCast, hdrop, resumeLoop]
    simp only [List.length_nil, Nat.cast_zero]
    rw [hmin, hok, if_neg (by simp), hagain]
    split
    · exact ⟨t, rfl⟩
    · refine List.IsPrefix.trans ?_ (prefix_resumeLoop _ _ _ _)
      exact ⟨t, rfl⟩
  obtain ⟨t', ht'⟩ := hresume.trans (prefix_archQueryMore search (by rw [hstring]; exact hgood.pos)
    (by rw [hpageStop]; omega))
  exact ⟨x, t', by rw [hhits]; exact List.mem_append_right _ hx, ht'.symm⟩

end Archie
