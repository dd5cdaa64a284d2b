/-
What the retriever asks a server for, whatever the server answers.

* `UrlTables.Good` — urls of the site with canonical urls that are all different.
* `CrawlState.Visits` — the invariant of the loop; `crawlRound_visits` — a round keeps it.
* `UrlDb.initUrlDb_distinct` — the urls of the table at the start are different.
* `crawlRun_requests` — what has been asked for, and what has been written.
-/
import Archie.Crawl

namespace Archie

section

variable (gethostbyname : List UInt8 → Option (List UInt8)) (host port : List UInt8)

/-- The url is one of the site. -/
def OnSite (u : ParsedUrl) : Prop := urlLocal gethostbyname host port u = some true

/-- The table has urls with different canonical urls, all of them keys of the data base. -/
structure UrlDb.UrlTable.Distinct (t : UrlDb.UrlTable) : Prop where
  nodup : (t.table.map fun ue => ue.url.curl).Nodup
  dbm : ∀ ue ∈ t.table, ∃ curl ∈ t.dbm, ue.url.curl = some curl

/-- So have the tables, with urls of the site only. -/
structure UrlTables.Good (t : UrlTables) : Prop where
  distinct : t.known.Distinct
  site : ∀ ue ∈ t.known.table, OnSite gethostbyname host port ue.url

end

/-! ### The tables -/

section

variable {gethostbyname : List UInt8 → Option (List UInt8)} {host port : List UInt8}

/-- An url is stored at the end of the table, or not at all. -/
theorem UrlDb.storeUrl_distinct {t : UrlDb.UrlTable} (h : t.Distinct) (ue : UrlEntry) :
    (UrlDb.storeUrl ue t).Distinct ∧ ((UrlDb.storeUrl ue t).table = t.table ∨
      (UrlDb.storeUrl ue t).table = t.table ++ [ue]) := by
  rw [UrlDb.storeUrl]
  split
  next => exact ⟨h, .inl rfl⟩
  next curl hcurl =>
    split
    next => exact ⟨h, .inl rfl⟩
    next hnew =>
      refine ⟨⟨?_, fun e he => ?_⟩, .inr rfl⟩
      · rw [List.map_append, List.map_singleton, List.nodup_append]
        refine ⟨h.nodup, List.nodup_singleton _, ?_⟩
        rintro c hc d hd rfl
        obtain ⟨e, he, heq⟩ := List.mem_map.mp hc
        obtain ⟨curl', hmem, hcurl'⟩ := h.dbm e he
        rw [← heq, List.mem_singleton, hcurl, hcurl'] at hd
        exact hnew (Option.some.inj hd ▸ hmem)
      · rcases List.mem_append.mp he with he | he
        · obtain ⟨c, hc, heq⟩ := h.dbm e he
          exact ⟨c, List.mem_cons_of_mem _ hc, heq⟩
        · exact ⟨curl, List.mem_cons_self, List.mem_singleton.mp he ▸ hcurl⟩

theorem urlLocal_stripSlash (u : ParsedUrl) :
    urlLocal gethostbyname host port (stripSlash u) = urlLocal gethostbyname host port u := by
  rw [stripSlash]
  split <;> rfl

/-- **An url is stored** in the table that it belongs to. -/
theorem UrlTables.Good.storeUrlDb {t : UrlTables} (h : t.Good gethostbyname host port)
    {u : ParsedUrl} {isLocal : Bool} (hlocal : urlLocal gethostbyname host port u = some isLocal)
    (redirect : Bool) : (t.storeUrlDb u (!isLocal) redirect).Good gethostbyname host port ∧
      t.known.table <+: (t.storeUrlDb u (!isLocal) redirect).known.table := by
  obtain ⟨ue, hue⟩ : ∃ ue : UrlEntry, ue = ⟨if redirect then u else stripSlash u, -2, 0, none⟩ :=
    ⟨_, rfl⟩
  have hsite : urlLocal gethostbyname host port ue.url = some isLocal := by
    rw [hue, ← hlocal]
    cases redirect with
    | true => rfl
    | false => exact urlLocal_stripSlash u
  rw [UrlTables.storeUrlDb, ← hue]
  cases isLocal with
  | true =>
    obtain ⟨hdistinct, htable⟩ := UrlDb.storeUrl_distinct h.distinct ue
    simp only [Bool.not_true, UrlTables.storeUrl]
    refine ⟨⟨hdistinct, fun e he => ?_⟩, ?_⟩
    · rcases htable with heq | heq
      · exact h.site e (heq ▸ he)
      · rw [heq, List.mem_append, List.mem_singleton] at he
        rcases he with he | rfl
        · exact h.site e he
        · exact hsite
    · rcases htable with heq | heq
      · exact heq ▸ List.prefix_rfl
      · exact heq ▸ List.prefix_append _ _
  | false =>
    cases hcurl : ue.url.curl with
    | none =>
      simp only [Bool.not_false, UrlTables.storeUrl, hcurl]
      exact ⟨h, List.prefix_rfl⟩
    | some curl =>
      simp only [Bool.not_false, UrlTables.storeUrl, hcurl]
      split
      next => exact ⟨h, List.prefix_rfl⟩
      next =>
        refine ⟨⟨⟨h.distinct.nodup, fun e he => ?_⟩, h.site⟩, List.prefix_rfl⟩
        obtain ⟨c, hc, heq⟩ := h.distinct.dbm e he
        exact ⟨c, List.mem_cons_of_mem _ hc, heq⟩

/-- From an url of the site, others are judged as from the site. -/
theorem urlLocal_site {u v : ParsedUrl} {server p : List UInt8} (hserver : v.server = some server)
    (hport : v.port = some p) (h : OnSite gethostbyname host port v) :
    urlLocal gethostbyname ((gethostbyname server).getD []) p u =
      urlLocal gethostbyname host port u := by
  rw [OnSite, urlLocal, hserver] at h
  cases hname : gethostbyname server with
  | none => simp [hname] at h
  | some name =>
    simp only [Option.bind_eq_bind, Option.bind_some, hname, hport, Option.some.injEq,
      Bool.and_eq_true, beq_iff_eq, strcasecmpEq_iff] at h
    obtain ⟨hcase, rfl⟩ := h
    simp only [urlLocal, Option.getD_some, strcasecmpEq, hcase]

end

/-! ### A round -/

/-- The sub-header is that of an url. -/
def SubHeaderRec.IsOf (r : SubHeaderRec) (u : ParsedUrl) : Prop :=
  r.server = u.server.getD [] ∧ r.port = atoi (u.port.getD []) ∧ r.localUrl = u.localUrl

/-- What is done for an url after the `HEAD`: it may be asked for with `GET`, a sub-header may be
written, and urls may come to the table. -/
structure CrawlState.Adds (cfg : CrawlConfig) (host port : List UInt8) (u : ParsedUrl)
    (s s' : CrawlState) : Prop where
  index : s'.index = s.index
  heads : s'.heads = s.heads
  gets : s'.gets.map Prod.fst = s.gets.map Prod.fst ∨
    s'.gets.map Prod.fst = s.gets.map Prod.fst ++ [u]
  docs : s'.docs = s.docs ∨ ∃ d : CrawlDoc, d.shrec.IsOf u ∧ s'.docs = s.docs ++ [d]
  urls : s.urls.Good cfg.gethostbyname host port →
    s'.urls.Good cfg.gethostbyname host port ∧ s.urls.known.table <+: s'.urls.known.table

section

variable {cfg : CrawlConfig} {host port host' port' : List UInt8} {u : ParsedUrl}
  {r : SubHeaderRec} {s s' : CrawlState}

theorem isOf_outputSubHeader (h : r.IsOf u) (state : List UInt8) (size fsize : ℤ)
    (type : Option (List UInt8)) : (outputSubHeader r state size fsize type).IsOf u := by
  cases type <;> exact h

/-- Only sub-headers of the url are written. -/
theorem isOf_headAction {ue : UrlEntry} {head : HttpAnswer} {size : ℤ} {type : List UInt8}
    (h : (headAction cfg ue head size type).1 = .write r ∨
      (headAction cfg ue head size type).1 = .get r) : r.IsOf ue.url := by
  have hwrite {r' : SubHeaderRec} (hr : r'.IsOf ue.url)
      (h : HeadAction.write r' = .write r ∨ HeadAction.write r' = .get r) : r.IsOf ue.url := by
    simp only [HeadAction.write.injEq, reduceCtorEq, or_false] at h
    exact h ▸ hr
  have hget {r' : SubHeaderRec} (hr : r'.IsOf ue.url)
      (h : HeadAction.get r' = .write r ∨ HeadAction.get r' = .get r) : r.IsOf ue.url := by
    simp only [HeadAction.get.injEq, reduceCtorEq, false_or] at h
    exact h ▸ hr
  rw [headAction] at h
  dsimp only at h
  split at h
  next => simp at h
  next =>
    split at h
    next =>
      -- a document that is too large, one of another type, an old one, or one to be got
      split at h
      next => exact hwrite (isOf_outputSubHeader ⟨rfl, rfl, rfl⟩ _ _ _ _) h
      next =>
        split at h
        next => exact hwrite (isOf_outputSubHeader ⟨rfl, rfl, rfl⟩ _ _ _ _) h
        next =>
          split at h
          next => exact hwrite (isOf_outputSubHeader ⟨rfl, rfl, rfl⟩ _ _ _ _) h
          next => exact hget ⟨rfl, rfl, rfl⟩ h
    next =>
      split at h
      next => simp at h
      next =>
        split at h
        next => split at h <;> simp at h
        next =>
          split at h
          next => simp at h
          next => exact hget ⟨rfl, rfl, rfl⟩ h

theorem CrawlState.failed_eq (s : CrawlState) : s.failed.index = s.index ∧
    s.failed.heads = s.heads ∧ s.failed.gets = s.gets ∧ s.failed.docs = s.docs ∧
    s.failed.urls = s.urls := by
  rw [failed]
  split <;> exact ⟨rfl, rfl, rfl, rfl, rfl⟩

theorem CrawlState.Adds.failed (h : s.Adds cfg host port u s') :
    s.Adds cfg host port u s'.failed := by
  obtain ⟨hindex, hheads, hgets, hdocs, hurls⟩ := failed_eq s'
  exact ⟨hindex.trans h.index, hheads.trans h.heads, hgets ▸ h.gets, hdocs ▸ h.docs, hurls ▸ h.urls⟩

/-- The urls of a document are stored one after the other. -/
theorem foldlM_storeLink
    (hsame : ∀ v, urlLocal cfg.gethostbyname host' port' v = urlLocal cfg.gethostbyname host port v)
    {urls : List (List UInt8)} {t t' : UrlTables}
    (hrun : urls.foldlM (storeLink cfg host' port') t = some t')
    (h : t.Good cfg.gethostbyname host port) :
    t'.Good cfg.gethostbyname host port ∧ t.known.table <+: t'.known.table := by
  induction urls generalizing t with
  | nil =>
    obtain rfl := Option.some.inj hrun
    exact ⟨h, List.prefix_rfl⟩
  | cons url urls ih =>
    rw [List.foldlM_cons] at hrun
    obtain ⟨t₁, hstore, hrun⟩ := Option.bind_eq_some_iff.mp hrun
    rw [storeLink] at hstore
    split at hstore
    next =>
      -- the text is no url
      obtain rfl := Option.some.inj hstore
      exact ih hrun h
    next =>
      obtain ⟨isLocal, hlocal, hstore⟩ := Option.bind_eq_some_iff.mp hstore
      obtain rfl := Option.some.inj hstore
      obtain ⟨hgood, hprefix⟩ := h.storeUrlDb ((hsame _).symm.trans hlocal) false
      obtain ⟨hgood', hprefix'⟩ := ih hrun hgood
      exact ⟨hgood', hprefix.trans hprefix'⟩

theorem crawlGet_adds
    (hsame : ∀ v, urlLocal cfg.gethostbyname host' port' v = urlLocal cfg.gethostbyname host port v)
    {ferretd : Bool} {get : HttpAnswer} (hr : r.IsOf u)
    (hrun : crawlGet cfg host' port' u ferretd r get s = some s') : s.Adds cfg host port u s' := by
  have hasked : s.Adds cfg host port u { s with gets := s.gets ++ [(u, get)] } :=
    ⟨rfl, rfl, .inr (by simp), .inl rfl, fun h => ⟨h, List.prefix_rfl⟩⟩
  rw [crawlGet] at hrun
  dsimp only at hrun
  cases haction : getAction ferretd get with
  | fail =>
    simp only [haction] at hrun
    obtain rfl := Option.some.inj hrun
    exact hasked.failed
  | skip =>
    simp only [haction] at hrun
    obtain rfl := Option.some.inj hrun
    exact hasked
  | count =>
    simp only [haction] at hrun
    obtain rfl := Option.some.inj hrun
    exact { hasked with }
  | page =>
    simp only [haction] at hrun
    obtain ⟨found, -, hrun⟩ := Option.bind_eq_some_iff.mp hrun
    obtain ⟨t, hstore, hrun⟩ := Option.bind_eq_some_iff.mp hrun
    split at hrun
    next =>
      -- the links have been stored when the text cannot be compressed
      obtain rfl := Option.some.inj hrun
      exact { hasked with urls := foldlM_storeLink hsame hstore }
    next =>
      obtain rfl := Option.some.inj hrun
      exact { hasked with
        docs := .inr ⟨_, isOf_outputSubHeader hr .., rfl⟩
        urls := foldlM_storeLink hsame hstore }

/-- The `HEAD`, and what is done after it. -/
theorem crawlHead_adds
    (hsame : ∀ v, urlLocal cfg.gethostbyname host' port' v = urlLocal cfg.gethostbyname host port v)
    {ue : UrlEntry} {head get : HttpAnswer}
    (hrun : crawlHead cfg host' port' ue head get s = some s') :
    { s with heads := s.heads ++ [(ue.url, head)] }.Adds cfg host port ue.url s' := by
  -- whatever `size` and `type` are set to, no more than the `HEAD` is noted
  have hnone (size : ℤ) (type : List UInt8) :
      { s with heads := s.heads ++ [(ue.url, head)] }.Adds cfg host port ue.url
        { s with heads := s.heads ++ [(ue.url, head)], size := size, type := type } :=
    ⟨rfl, rfl, .inl rfl, .inl rfl, fun h => ⟨h, List.prefix_rfl⟩⟩
  rw [crawlHead] at hrun
  dsimp only at hrun
  have hof := @isOf_headAction cfg
  cases haction : (headAction cfg ue head s.size s.type).1 with
  | fail =>
    simp only [haction] at hrun
    obtain rfl := Option.some.inj hrun
    exact (hnone _ _).failed
  | skip =>
    simp only [haction] at hrun
    obtain rfl := Option.some.inj hrun
    exact hnone _ _
  | write r =>
    simp only [haction] at hrun
    obtain rfl := Option.some.inj hrun
    exact { hnone s.size s.type with docs := .inr ⟨_, hof (.inl haction), rfl⟩ }
  | moved v =>
    simp only [haction] at hrun
    obtain ⟨isLocal, hlocal, hrun⟩ := Option.bind_eq_some_iff.mp hrun
    obtain rfl := Option.some.inj hrun
    rw [hsame] at hlocal
    exact { hnone s.size s.type with urls := fun h => h.storeUrlDb hlocal true }
  | get r =>
    simp only [haction] at hrun
    obtain ⟨hindex, hheads, hgets, hdocs, hurls⟩ := crawlGet_adds hsame (hof (.inr haction)) hrun
    exact ⟨hindex, hheads, hgets, hdocs, hurls⟩

end

/-! ### The table at the start -/

namespace UrlDb

variable {file : List SiteEntry} {db : StringsDb} {gethostbyname : List UInt8 → Option (List UInt8)}

theorem initRecord_distinct {i : ℕ} {ent : SiteEntry} {s s' : InitState} (h : s.known.Distinct)
    (hrun : initRecord file db gethostbyname i ent s = some s') : s'.known.Distinct := by
  have hstore (text : Option (List UInt8)) (date : ℕ) :
      (storeRecord gethostbyname i date text s.known).Distinct := by
    rw [storeRecord]
    split
    next => exact h
    next => exact (storeUrl_distinct h _).1
  rw [initRecord] at hrun
  split at hrun
  next => exact Option.some.inj hrun ▸ h
  next =>
    split at hrun
    next => exact Option.some.inj hrun ▸ h
    next =>
      split at hrun
      next =>
        split at hrun
        next => exact Option.some.inj hrun ▸ h
        next =>
          split at hrun
          next => exact absurd hrun (by simp)
          next =>
            obtain ⟨⟨visited, text⟩, -, hrun⟩ := Option.bind_eq_some_iff.mp hrun
            exact Option.some.inj hrun ▸ hstore text _
      next => exact Option.some.inj hrun ▸ h

theorem initLoop_distinct {i : ℕ} {s s' : InitState} (h : s.known.Distinct)
    (hrun : initLoop file db gethostbyname i s = some s') : s'.known.Distinct := by
  induction i generalizing s with
  | zero => exact Option.some.inj hrun ▸ h
  | succ i ih =>
    obtain ⟨ent, -, hrun⟩ := Option.bind_eq_some_iff.mp hrun
    obtain ⟨s₁, hrecord, hrun⟩ := Option.bind_eq_some_iff.mp hrun
    exact ih (initRecord_distinct h hrecord) hrun

/-- **The table of `init_url_db`** has urls with different canonical urls. -/
theorem initUrlDb_distinct {server port path : List UInt8}
    {site : Option (List SiteEntry × StringsDb)} {table : List UrlEntry}
    (h : initUrlDb gethostbyname server port path site = some table) :
    (table.map fun ue => ue.url.curl).Nodup ∧ ∀ ue ∈ table, ue.url.curl ≠ none := by
  have hempty : UrlTable.Distinct ⟨[], []⟩ := ⟨List.nodup_nil, fun ue hue => by simp at hue⟩
  have hall {t : UrlTable} (ht : t.Distinct) :
      (t.table.map fun ue => ue.url.curl).Nodup ∧ ∀ ue ∈ t.table, ue.url.curl ≠ none := by
    refine ⟨ht.nodup, fun ue hue => ?_⟩
    obtain ⟨curl, -, hcurl⟩ := ht.dbm ue hue
    exact hcurl ▸ Option.some_ne_none curl
  cases site with
  | none =>
    obtain rfl := Option.some.inj h
    exact hall (storeUrl_distinct hempty _).1
  | some site =>
    obtain ⟨s, hloop, h⟩ := Option.bind_eq_some_iff.mp h
    have hs := initLoop_distinct hempty hloop
    split at h
    next =>
      obtain rfl := Option.some.inj h
      exact hall (storeUrl_distinct hs _).1
    next =>
      obtain rfl := Option.some.inj h
      -- sorting by date changes the order only
      have hperm := perm_qsort tableCmp s.known.table
      obtain ⟨hnodup, hcurl⟩ := hall hs
      exact ⟨(hperm.map _).nodup_iff.mpr hnodup, fun ue hue => hcurl ue (hperm.mem_iff.mp hue)⟩

end UrlDb

/-! ### The loop -/

section

variable (cfg : CrawlConfig) (host port : List UInt8)

/-- The url may be asked for. -/
def CrawlConfig.allows (u : ParsedUrl) : Bool :=
  !urlRestricted u.localUrl (some cfg.rurls) cfg.initpath

/-- **The invariant of the loop**: what has been asked for with `HEAD` are the urls up to the index
that are allowed; some of these have been asked for with `GET`, and some have a sub-header. -/
structure CrawlState.Visits (s : CrawlState) : Prop where
  urls : s.urls.Good cfg.gethostbyname host port
  heads : s.heads.map Prod.fst =
    ((s.urls.known.table.take s.index).map UrlEntry.url).filter cfg.allows
  gets : (s.gets.map Prod.fst).Sublist (s.heads.map Prod.fst)
  docs : ∃ us, us.Sublist (s.heads.map Prod.fst) ∧
    List.Forall₂ (fun d u => SubHeaderRec.IsOf (CrawlDoc.shrec d) u) s.docs us

end

section

variable {cfg : CrawlConfig} {host port : List UInt8} {s s' : CrawlState}

/-- What a round does: the url at the index is passed over if it is restricted, and is asked for
otherwise. -/
theorem crawlRound_cases (hsite : s.urls.Good cfg.gethostbyname host port) {head get : HttpAnswer}
    (hrun : crawlRound cfg head get s = some s') :
    ∃ ue, s.urls.known.table[s.index]? = some ue ∧
      (cfg.allows ue.url = false ∧ s' = { s with index := s.index + 1 } ∨
        cfg.allows ue.url = true ∧
          { s with index := s.index + 1, heads := s.heads ++ [(ue.url, head)] }.Adds cfg host port
            ue.url s') := by
  rw [crawlRound] at hrun
  split at hrun
  next => exact absurd hrun (by simp)
  next =>
    obtain ⟨ue, hue, hrun⟩ := Option.bind_eq_some_iff.mp hrun
    obtain ⟨server, hserver, hrun⟩ := Option.bind_eq_some_iff.mp hrun
    obtain ⟨p, hport, hrun⟩ := Option.bind_eq_some_iff.mp hrun
    refine ⟨ue, hue, ?_⟩
    split at hrun
    next => exact absurd hrun (by simp)
    next =>
      split at hrun
      next hrestricted =>
        obtain rfl := Option.some.inj hrun
        exact .inl ⟨by rw [CrawlConfig.allows, hrestricted, Bool.not_true], rfl⟩
      next hrestricted =>
        split at hrun
        next => exact absurd hrun (by simp)
        next =>
          refine .inr ⟨by simpa [CrawlConfig.allows] using hrestricted, ?_⟩
          have hon := hsite.site ue (List.mem_of_getElem? hue)
          exact crawlHead_adds (fun v => urlLocal_site hserver hport hon) hrun

/-- **A round keeps the invariant**, and what is in the table stays there. -/
theorem crawlRound_visits (h : s.Visits cfg host port) {head get : HttpAnswer}
    (hrun : crawlRound cfg head get s = some s') :
    s'.Visits cfg host port ∧ s.urls.known.table <+: s'.urls.known.table := by
  obtain ⟨ue, hue, hcases⟩ := crawlRound_cases h.urls hrun
  have htake (table : List UrlEntry) (hbegins : s.urls.known.table <+: table) :
      table.take (s.index + 1) = s.urls.known.table.take s.index ++ [ue] := by
    obtain ⟨more, rfl⟩ := hbegins
    rw [List.take_append_of_le_length (List.getElem?_eq_some_iff.mp hue).1, List.take_add_one, hue,
      Option.toList_some]
  rcases hcases with ⟨hallows, rfl⟩ | ⟨hallows, hadds⟩
  -- a restricted url makes the index go on, and nothing else
  · refine ⟨⟨h.urls, ?_, h.gets, h.docs⟩, List.prefix_rfl⟩
    rw [htake _ List.prefix_rfl, List.map_append, List.filter_append, List.map_singleton,
      List.filter_singleton, hallows, cond_false, List.append_nil]
    exact h.heads
  -- one that is allowed comes to what has been asked for
  · obtain ⟨hgood, hbegins⟩ := hadds.urls h.urls
    have hheads : s'.heads.map Prod.fst = s.heads.map Prod.fst ++ [ue.url] := by
      rw [hadds.heads, List.map_append, List.map_singleton]
    refine ⟨⟨hgood, ?_, ?_, ?_⟩, hbegins⟩
    · rw [hheads, hadds.index, htake _ hbegins, List.map_append, List.filter_append,
        List.map_singleton, List.filter_singleton, hallows, cond_true, h.heads]
    · rw [hheads]
      rcases hadds.gets with heq | heq
      · exact heq ▸ h.gets.trans (List.sublist_append_left _ _)
      · exact heq ▸ h.gets.append (List.Sublist.refl _)
    · obtain ⟨us, hus, hdocs⟩ := h.docs
      rw [hheads]
      rcases hadds.docs with heq | ⟨d, hd, heq⟩
      · exact ⟨us, hus.trans (List.sublist_append_left _ _), heq ▸ hdocs⟩
      · exact ⟨us ++ [ue.url], hus.append (List.Sublist.refl _),
          heq ▸ List.rel_append hdocs (List.Forall₂.cons hd List.Forall₂.nil)⟩

theorem crawlRun_visits (h : s.Visits cfg host port) (hrun : CrawlRun cfg s s') :
    s'.Visits cfg host port ∧ s.urls.known.table <+: s'.urls.known.table := by
  induction hrun with
  | refl => exact ⟨h, List.prefix_rfl⟩
  | tail _ hstep ih =>
    obtain ⟨head, get, hround⟩ := hstep
    obtain ⟨hvisits, hbegins⟩ := crawlRound_visits ih.1 hround
    exact ⟨hvisits, ih.2.trans hbegins⟩

/-- **What is asked for**, whatever the server answers: from a table of urls of the site, urls of
the site only, in the order of the table, each at most once and none that is restricted; with `GET`
some of those that have been asked for with `HEAD`; and the sub-headers are some of these, in their
order. -/
theorem crawlRun_requests {server path : List UInt8} {site : Option (List SiteEntry × StringsDb)}
    {table : List UrlEntry} {size : ℤ} {type : List UInt8}
    (hinit : UrlDb.initUrlDb cfg.gethostbyname server port path site = some table)
    (hsite : ∀ ue ∈ table, OnSite cfg.gethostbyname host port ue.url)
    (hrun : CrawlRun cfg (crawlStart size type table) s) :
    table <+: s.urls.known.table ∧
      s.heads.map Prod.fst =
        ((s.urls.known.table.take s.index).map UrlEntry.url).filter cfg.allows ∧
      (s.heads.map fun p => p.1.curl).Nodup ∧
      (∀ p ∈ s.heads, cfg.allows p.1 = true ∧ OnSite cfg.gethostbyname host port p.1) ∧
      (s.gets.map Prod.fst).Sublist (s.heads.map Prod.fst) ∧
      ∃ us, us.Sublist (s.heads.map Prod.fst) ∧
        List.Forall₂ (fun d u => SubHeaderRec.IsOf (CrawlDoc.shrec d) u) s.docs us := by
  obtain ⟨hnodup, hcurl⟩ := UrlDb.initUrlDb_distinct hinit
  have hstart : (crawlStart size type table).Visits cfg host port := by
    refine ⟨⟨⟨hnodup, fun ue hue => ?_⟩, hsite⟩, rfl, List.Sublist.refl _, [], List.Sublist.refl _,
      List.Forall₂.nil⟩
    obtain ⟨curl, hsome⟩ := Option.ne_none_iff_exists'.mp (hcurl ue hue)
    exact ⟨curl, List.mem_filterMap.mpr ⟨ue, hue, hsome⟩, hsome⟩
  obtain ⟨h, hbegins⟩ := crawlRun_visits hstart hrun
  -- what was asked for is part of the table, whose urls are different and of the site
  have hsub : (s.heads.map Prod.fst).Sublist (s.urls.known.table.map UrlEntry.url) := by
    rw [h.heads]
    exact List.filter_sublist.trans ((List.take_sublist _ _).map _)
  refine ⟨hbegins, h.heads, ?_, fun p hp => ⟨?_, ?_⟩, h.gets, h.docs⟩
  · have hcurls := (hsub.map ParsedUrl.curl).nodup
    rw [List.map_map, List.map_map] at hcurls
    exact hcurls h.urls.distinct.nodup
  · have hmem := List.mem_map_of_mem (f := Prod.fst) hp
    rw [h.heads] at hmem
    exact (List.mem_filter.mp hmem).2
  · obtain ⟨ue, hue, heq⟩ := List.mem_map.mp (hsub.mem (List.mem_map_of_mem (f := Prod.fst) hp))
    exact heq ▸ h.urls.site ue hue

end

/-- A site with one document, which leads to `/a`, to `/b` and to another site. -/
def sampleRetrieval : CrawlConfig where
  gethostbyname := some
  httptime _ := 0
  compress := some
  compressFlag := 0
  force := false
  retrieveTime := 1
  rurls := [bytes "/b"]
  initpath := bytes "/"
  maxRetrUrls := 9

/-- The answers for the document, and for what is not there. -/
def sampleHead : HttpAnswer := ⟨true, 200, bytes "Content-Type: text/html\n", by decide +kernel⟩

def linksPage : HttpAnswer :=
  ⟨true, 200, bytes "<A HREF=a><A HREF=\"/b\"><A HREF=a><A HREF=http://o/>", by decide +kernel⟩

def sampleMissing : HttpAnswer := ⟨true, 404, [], List.not_mem_nil⟩

/-- The table of a new site. -/
def sampleUrls : List UrlEntry :=
  [⟨⟨some (bytes "h"), some (bytes "80"), bytes "/", some (bytes "http://h/")⟩, -2, 0, none⟩]

/-- After three rounds, the document and `/a` have been asked for. -/
theorem crawlRun_requests_sample : ∃ s, CrawlRun sampleRetrieval (crawlStart 0 [] sampleUrls) s ∧
    s.index = 3 ∧ s.heads.map (fun p => p.1.localUrl) = [bytes "/", bytes "/a"] ∧
    (s.heads.map fun p => p.1.curl).Nodup := by
  have hrounds : ∃ s, (do
      let s ← crawlRound sampleRetrieval sampleHead linksPage (crawlStart 0 [] sampleUrls)
      let s ← crawlRound sampleRetrieval sampleMissing sampleMissing s
      crawlRound sampleRetrieval sampleMissing sampleMissing s) = some s ∧ s.index = 3 ∧
      s.heads.map (fun p => p.1.localUrl) = [bytes "/", bytes "/a"] := by
    refine ⟨_, Option.eq_some_of_isSome ?_, ?_, ?_⟩ <;> decide +kernel
  obtain ⟨s, hs, hindex, hheads⟩ := hrounds
  obtain ⟨s₁, h₁, hs⟩ := Option.bind_eq_some_iff.mp hs
  obtain ⟨s₂, h₂, h₃⟩ := Option.bind_eq_some_iff.mp hs
  have hrun : CrawlRun sampleRetrieval (crawlStart 0 [] sampleUrls) s :=
    ((Relation.ReflTransGen.single ⟨_, _, h₁⟩).tail ⟨_, _, h₂⟩).tail ⟨_, _, h₃⟩
  have hinit :
      UrlDb.initUrlDb some (bytes "h") (bytes "80") (bytes "/") none = some sampleUrls := by
    decide +kernel
  have hsite : ∀ ue ∈ sampleUrls, OnSite some (bytes "h") (bytes "80") ue.url := by
    unfold OnSite
    decide +kernel
  exact ⟨s, hrun, hindex, hheads, (crawlRun_requests hinit hsite hrun).2.2.1⟩

end Archie
