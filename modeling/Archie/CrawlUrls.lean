/-
The urls that are known of a web site, from the file of its crawl: `recurse`, `setup_insert` and
`init_url_db` one after the other.

* `processList_crawl` — the records of a crawl of one server and port.
* `CrawlRecords.serverFile` — their site file is that of the server and the port.
* `knownUrls_iff` — which documents `init_url_db` knows then.
-/
import Archie.WebRecurse

namespace Archie

section

variable {inp : RecurseInput} {server port : List UInt8} {fuel : ℕ} {parent : ℤ} {s s' : RecurseState}
  {row : WebRow} {rest : List WebRow}

/-! ### The first two levels -/

/-- Rows with the name that was last written are passed over. -/
theorem listRows_same {which l start : ℕ} {rows : List WebRow} {bb : List UInt8}
    (h : ∀ row ∈ rows, row.part start = bb) (s : RecurseState) :
    listRows inp which parent l start rows bb s = some (rows, s) := by
  induction rows with
  | nil => rfl
  | cons row rows ih =>
    have hsame := h row List.mem_cons_self
    rw [listRows]
    dsimp only
    rw [if_neg fun hnew => hnew.2.2 hsame, ih fun row hrow => h row (List.mem_cons_of_mem _ hrow)]
    rfl

/-- The entry of the server. -/
def serverEntry (server : List UInt8) (row : WebRow) : ParserEntry :=
  ⟨⟨row.shrec.size, row.shrec.date, -1, 0, 0, 0x01, 0⟩, server⟩

theorem isEntry_serverEntry (server : List UInt8) (row : WebRow) : (serverEntry server row).IsEntry :=
  ⟨(by decide : cseIsParent 0x01 = false), (by decide : cseIsKey 0x01 = false)⟩

theorem webKind_serverEntry (server : List UInt8) (row : WebRow) :
    WebKind (serverEntry server row).core.flags :=
  .entry (isEntry_serverEntry server row).1 (isEntry_serverEntry server row).2
    (by decide : (cseIsFile 0x01 || cseIsLink 0x01 || cseIsDoc 0x01 || cseIsDir 0x01) = true)

/-- The first level: one entry for the server, if its name has more than one character. -/
theorem listRows_server (hserver : 47 ∉ server) (hport : port ≠ [])
    (hrows : ∀ r ∈ row :: rest, RowOf server port r.toSubHeaderInfo) :
    listRows inp 1 (-1) 1 1 (row :: rest) [47] ⟨[], 0⟩ =
      if 1 < server.length then
        some ({ row with recNo := 0 } :: rest, ⟨[serverEntry server row], 0⟩)
      else some (row :: rest, ⟨[], 0⟩) := by
  obtain ⟨hpart, path, hbehind⟩ := (hrows row List.mem_cons_self).part_server hserver
  have hall : ∀ r ∈ rest, r.part 1 = server := fun r hr =>
    ((hrows r (List.mem_cons_of_mem _ hr)).part_server hserver).1
  have hne : server ≠ [47] := by
    rintro rfl
    exact hserver List.mem_cons_self
  have hlong : 1 < row.localUrl.length := by
    obtain ⟨path, -, hurl⟩ := hrows row List.mem_cons_self
    rw [hurl]
    simp only [List.length_cons, List.length_append]
    omega
  rw [listRows]
  dsimp only
  rw [hpart]
  by_cases hlen : 1 < server.length
  · have hflags : entryFlags 1 row.shrec.state (row.behind 1) = 0x01 := by
      rw [entryFlags, if_neg (fun h => absurd h.1 (by decide)), hbehind, List.tail_cons,
        if_neg (by simp [hport])]
    have hentry : outputEntry inp 1 (-1) row server (row.behind 1) ⟨[], 0⟩ =
        some ⟨[serverEntry server row], 0⟩ := by
      rw [outputEntry, hflags]
      rfl
    rw [if_pos ⟨hlong, hlen, hne⟩, hentry, if_pos hlen, Option.bind_eq_bind, Option.bind_some,
      listRows_same hall]
    rfl
  · have hskip : ∀ rows : List WebRow, (∀ r ∈ rows, r.part 1 = server) →
        listRows inp 1 (-1) 1 1 rows [47] ⟨[], 0⟩ = some (rows, ⟨[], 0⟩) := by
      intro rows hrows
      induction rows with
      | nil => rfl
      | cons r rows ih =>
        rw [listRows]
        dsimp only
        rw [hrows r List.mem_cons_self, if_neg fun h => hlen h.2.1,
          ih fun r hr => hrows r (List.mem_cons_of_mem _ hr)]
        rfl
    rw [if_neg fun h => hlen h.2.1, if_neg hlen, hskip rest hall]
    rfl

/-- The rows of one server are one run. -/
theorem splitBy_server (hserver : 47 ∉ server) {r : WebRow} {rows : List WebRow}
    (hrows : ∀ r' ∈ r :: rows, RowOf server port r'.toSubHeaderInfo) :
    (r :: rows).splitBy (fun a b => a.part 1 == b.part 1) = [r :: rows] := by
  refine List.splitBy_of_isChain (List.cons_ne_nil _ _) (List.Pairwise.isChain ?_)
  refine List.pairwise_of_forall_mem_list fun a ha b hb => ?_
  rw [((hrows a ha).part_server hserver).1, ((hrows b hb).part_server hserver).1, beq_self_eq_true]

/-- The first level goes on with all of the rows. -/
theorem processList_server (hserver : 47 ∉ server) (hport : port ≠ []) (hslash : 47 ∉ port)
    (hrows : ∀ r ∈ row :: rest, RowOf server port r.toSubHeaderInfo) (hzero : row.recNo = 0) :
    ∃ row', row'.recNo = 0 ∧ (∀ r ∈ row' :: rest, RowOf server port r.toSubHeaderInfo) ∧
      processList inp (fuel + 1) 1 (-1) (row :: rest) ⟨[], 0⟩ =
        processList inp fuel 2 0 (row' :: rest)
          ⟨if 1 < server.length then [serverEntry server row.strip] else [], 0⟩ := by
  have hstrip : ∀ r ∈ row.strip :: rest, RowOf server port r.toSubHeaderInfo := by
    intro r hr
    rcases List.mem_cons.mp hr with rfl | hr
    · exact (hrows row List.mem_cons_self).strip hport hslash
    · exact hrows r (List.mem_cons_of_mem _ hr)
  have hstripNo : row.strip.recNo = 0 := by
    rw [WebRow.strip]
    split <;> exact hzero
  obtain ⟨path, -, hurl⟩ := hstrip row.strip List.mem_cons_self
  have hfind : findChar 47 1 row.strip.localUrl = 0 := by
    rw [hurl, findChar, if_pos rfl, if_pos rfl]
  have hlength : 1 < row.strip.localUrl.length := by
    rw [hurl]
    simp only [List.length_cons, List.length_append]
    omega
  have hhead : headEnd 1 row.strip.localUrl = 1 := by rw [headEnd, hfind, if_neg (by omega)]
  have hdisp : dispAt row.strip.localUrl 1 = 0 := by rw [dispAt, if_neg (by omega)]
  have htake : row.strip.localUrl.take 1 = [47] := by rw [hurl]; rfl
  set row' := if 1 < server.length then { row.strip with recNo := 0 } else row.strip with hrow'
  set out := if 1 < server.length then [serverEntry server row.strip] else [] with hout
  have hlist : listRows inp 1 (-1) 1 1 (row.strip :: rest) [47] ⟨[], 0⟩ =
      some (row' :: rest, ⟨out, 0⟩) := by
    rw [@listRows_server inp server port row.strip rest hserver hport hstrip, hrow', hout]
    split <;> rfl
  have hrecNo : row'.recNo = 0 := by
    rw [hrow']
    split
    · rfl
    · exact hstripNo
  have hall : ∀ r ∈ row' :: rest, RowOf server port r.toSubHeaderInfo := by
    intro r hr
    rcases List.mem_cons.mp hr with rfl | hr
    · rw [hrow']
      split <;> exact hstrip row.strip List.mem_cons_self
    · exact hstrip r (List.mem_cons_of_mem _ hr)
  refine ⟨row', hrecNo, hall, ?_⟩
  rw [processList]
  dsimp only
  rw [if_neg fun h => absurd h.1 (by omega), hhead, hdisp, Nat.add_zero, htake, outputHeading,
    if_pos rfl, Option.bind_eq_bind, Option.bind_some, hlist, Option.bind_eq_bind, Option.bind_some]
  cases rest with
  | nil =>
    obtain ⟨-, path', hbehind⟩ := (hall row' List.mem_cons_self).part_server hserver
    dsimp only
    rw [hbehind, if_pos, hrecNo]
    · rfl
    · rw [List.length_cons, List.length_append]
      have := List.length_pos_of_ne_nil hport
      omega
  | cons r rest =>
    dsimp only
    rw [splitBy_server hserver hall, recurseRuns]
    dsimp only
    rw [hrecNo]
    rfl

/-- **The records of a crawl** of one server and port; a server whose name has one character only has
no entry for its heading. -/
theorem processList_crawl (hkeys : inp.KeysFlagged) (hserver : 47 ∉ server) (hport : port ≠ [])
    (hslash : 47 ∉ port) (hrows : ∀ r ∈ row :: rest, RowOf server port r.toSubHeaderInfo)
    (hzero : ∀ r ∈ row :: rest, r.recNo = 0)
    (h : processList inp fuel 1 (-1) (row :: rest) ⟨[], 0⟩ = some s') :
    CrawlRecords server port s'.out ∨
      ∃ r, r.core.flags = 0x20 ∧ r.core.parentIdx = 0 ∧ [r] <+: s'.out := by
  cases fuel with
  | zero => exact absurd h (by simp [processList])
  | succ fuel =>
    obtain ⟨row', hrecNo, hall, heq⟩ := @processList_server inp server port fuel row rest hserver hport
      hslash hrows (hzero row List.mem_cons_self)
    rw [heq] at h
    cases fuel with
    | zero => exact absurd h (by simp [processList])
    | succ fuel =>
      have hstrip := (hall row' List.mem_cons_self).strip hport hslash
      obtain ⟨hfind, hhead, hdisp⟩ := hstrip.headEnd_two hserver hport
      rcases processList_cases h with ⟨hend, -⟩ | ⟨l, s₁, rows, s₂, rfl, hs₁, hlist, hcalls⟩
      · exact absurd hend hfind
      rw [hhead] at hs₁ hlist
      rw [hdisp, Nat.add_zero] at hlist
      rw [outputHeading, if_neg (by decide), Option.bind_eq_bind, Option.bind_eq_some_iff] at hs₁
      obtain ⟨name, -, hs₁⟩ := hs₁
      by_cases hlen : 1 < server.length
      · rw [if_pos hlen] at hs₁
        have hout : s₁.out = [serverEntry server row.strip,
            ⟨⟨0, 0, 0, 0, 0, headingFlags 2, 0⟩, name⟩] := by rw [← Option.some.inj hs₁]; rfl
        have hrecords : CrawlRecords server port s₁.out := by
          rw [hout]
          exact .start (webKind_serverEntry _ _) (isEntry_serverEntry _ _) rfl rfl rfl rfl
        have hentry : EntryAt s₁.out 0 := by
          rw [hout]
          exact ⟨_, rfl, isEntry_serverEntry _ _⟩
        have hrestNo : ∀ r ∈ row'.strip :: rest, r.recNo = 0 ∧ RowOf server port r.toSubHeaderInfo := by
          intro r hr
          rcases List.mem_cons.mp hr with rfl | hr
          · refine ⟨?_, hstrip⟩
            rw [WebRow.strip]
            split <;> exact hrecNo
          · exact ⟨hzero r (List.mem_cons_of_mem _ hr), hall r (List.mem_cons_of_mem _ hr)⟩
        obtain ⟨hrecords₂, hrows₂⟩ := listRows_crawlRecords hkeys hrecords
          (fun r hr => (hrestNo r hr).1 ▸ hentry)
          (.inr fun r hr => (hrestNo r hr).2.part_port hslash) hlist
        exact .inl (calls_crawlRecords (processList_crawlRecords hkeys (by decide)) hrecords₂ hrows₂
          hcalls)
      · rw [if_neg hlen] at hs₁
        refine .inr ⟨⟨⟨0, 0, 0, 0, 0, headingFlags 2, 0⟩, name⟩, rfl, rfl, ?_⟩
        have hfirst : [(⟨⟨0, 0, 0, 0, 0, headingFlags 2, 0⟩, name⟩ : ParserEntry)] <+: s₁.out := by
          rw [← Option.some.inj hs₁]
          exact List.prefix_rfl
        exact (hfirst.trans (listRows_grows hlist).1).trans (calls_grows processList_grows hcalls)

end

/-! ### The site file -/

namespace UrlDb

section

variable {file : List SiteEntry} {db : StringsDb} {server port : List UInt8} {e : SiteEntry} {i : ℕ}

theorem getElem?_append_lt (hi : i < file.length) (e : SiteEntry) : (file ++ [e])[i]? = file[i]? :=
  List.getElem?_append_left hi

theorem findHeading_append (hi : i < file.length) (e : SiteEntry) :
    findHeading (file ++ [e]) i = findHeading file i := by
  induction i with
  | zero => rfl
  | succ i ih =>
    rw [findHeading, findHeading, getElem?_append_lt hi, ih (by omega)]

/-- The heading of the record that is added. -/
theorem findHeading_last (hne : file ≠ []) (e : SiteEntry) :
    findHeading (file ++ [e]) file.length =
      if cseIsParent e.flags then file.length else findHeading file (file.length - 1) := by
  obtain ⟨n, hn⟩ : ∃ n, file.length = n + 1 := ⟨file.length - 1, by
    have := List.length_pos_of_ne_nil hne
    omega⟩
  have hlast : (file ++ [e])[n + 1]? = some e := by rw [← hn, List.getElem?_concat_length]
  rw [hn, findHeading, hlast, Option.any_some, findHeading_append (by omega), Nat.add_sub_cancel]

theorem entryOf_append (hi : i < file.length) (e : SiteEntry) :
    entryOf (file ++ [e]) i = entryOf file i := by
  rw [entryOf, entryOf, getElem?_append_lt hi]

theorem nameAt_append (hi : i < file.length) (e : SiteEntry) :
    nameAt (file ++ [e]) db i = nameAt file db i := by
  rw [nameAt, nameAt, getElem?_append_lt hi]

theorem isNameAt_append (hi : i < file.length) (e : SiteEntry) :
    isNameAt (file ++ [e]) i = isNameAt file i := by
  rw [isNameAt, isNameAt, getElem?_append_lt hi]

theorem IsEntry.lt (h : IsEntry file i) : i < file.length := by
  obtain ⟨e, he, -⟩ := h
  exact (List.getElem?_eq_some_iff.mp he).1

theorem IsEntry.append (h : IsEntry file i) (e : SiteEntry) : IsEntry (file ++ [e]) i := by
  have hlt := h.lt
  obtain ⟨e', he', hkind⟩ := h
  exact ⟨e', by rw [getElem?_append_lt hlt, he'], hkind⟩

/-- What the next record of the file may be. -/
structure CanFollow (file : List SiteEntry) (db : StringsDb) (port : List UInt8) (e : SiteEntry) :
    Prop where
  heading : cseIsParent e.flags = true → ∃ p : ℕ, p ≠ 0 ∧ e.core = .prntEntry p ∧
    e.strt1 = findHeading file p ∧ IsEntry file p
  string : cseIsParent e.flags = false → cseIsKey e.flags = false →
    ∃ name, stringAt db e.strt1 = some name
  parent : cseIsParent e.flags = true → cseIsKey e.flags = false ∧ cseIsDoc e.flags = false
  notName : cseIsName e.flags = false
  keyword : cseIsKey e.flags = true → cseIsDoc e.flags = false ∧ ∃ e', file.getLast? = some e' ∧
    (cseIsDoc e'.flags = true ∨ cseIsKey e'.flags = true)
  port : cseIsParent e.flags = false → cseIsKey e.flags = false →
    findHeading file (file.length - 1) = 2 → stringAt db e.strt1 = some port

/-- A record of the longer file is one of the file, or the last one. -/
theorem getElem?_concat_cases {e' : SiteEntry} (h : (file ++ [e])[i]? = some e') :
    file[i]? = some e' ∧ i < file.length ∨ i = file.length ∧ e' = e := by
  obtain ⟨hi, -⟩ := List.getElem?_eq_some_iff.mp h
  rw [List.length_append, List.length_singleton] at hi
  obtain hlt | rfl : i < file.length ∨ i = file.length := by omega
  · rw [getElem?_append_lt hlt] at h
    exact .inl ⟨h, hlt⟩
  · rw [List.getElem?_concat_length, Option.some.injEq] at h
    exact .inr ⟨rfl, h.symm⟩

theorem LeadsUp.append (h : LeadsUp file db) (hne : file ≠ []) (he : CanFollow file db port e) :
    LeadsUp (file ++ [e]) db := by
  have hpos := List.length_pos_of_ne_nil hne
  constructor
  · intro c e' he' hparent hc
    rcases getElem?_concat_cases he' with ⟨he', hlt⟩ | ⟨rfl, rfl⟩
    · obtain ⟨p, hp, hpc, hcore, hstrt1, hentry⟩ := h.heading c e' he' hparent hc
      exact ⟨p, hp, hpc, hcore, by rw [findHeading_append (by omega), hstrt1], hentry.append e⟩
    · obtain ⟨p, hp, hcore, hstrt1, hentry⟩ := he.heading hparent
      exact ⟨p, hp, hentry.lt, hcore, by rw [findHeading_append hentry.lt, hstrt1], hentry.append e'⟩
  · intro e' he'
    rw [getElem?_append_lt hpos] at he'
    exact h.root e' he'
  · intro i e' he' hparent hkey
    rcases getElem?_concat_cases he' with ⟨he', -⟩ | ⟨rfl, rfl⟩
    · exact h.string i e' he' hparent hkey
    · exact he.string hparent hkey
  · intro e' hmem hparent
    rcases List.mem_append.mp hmem with hmem | hmem
    · exact h.parent e' hmem hparent
    · rw [List.mem_singleton.mp hmem] at hparent ⊢
      exact he.parent hparent
  · intro i e' he' hkey
    rcases getElem?_concat_cases he' with ⟨he', hlt⟩ | ⟨rfl, rfl⟩
    · obtain ⟨hdoc, j, q, rfl, hq, hor⟩ := h.keyword i e' he' hkey
      exact ⟨hdoc, j, q, rfl, by rw [getElem?_append_lt (by omega), hq], hor⟩
    · obtain ⟨hdoc, q, hq, hor⟩ := he.keyword hkey
      rw [List.getLast?_eq_getElem?] at hq
      exact ⟨hdoc, file.length - 1, q, by omega, by rw [getElem?_append_lt (by omega), hq], hor⟩

theorem ServerFile.two_lt (h : ServerFile file db server port) : 2 < file.length := by
  obtain ⟨e, he, -⟩ := parent_of_isNameAt h.host.1
  exact (List.getElem?_eq_some_iff.mp he).1

theorem ServerFile.append (h : ServerFile file db server port) (he : CanFollow file db port e) :
    ServerFile (file ++ [e]) db server port := by
  have hlen := h.two_lt
  have hne : file ≠ [] := by
    rintro rfl
    exact absurd hlen (by simp)
  refine ⟨h.toLeadsUp.append hne he, ?_, ?_, ?_, ?_⟩
  · exact ⟨h.server.1.append e, by rw [nameAt_append (by omega), h.server.2]⟩
  · rw [isNameAt_append hlen, entryOf_append hlen]
    exact h.host
  · intro c hname
    obtain ⟨e', he', hflag⟩ := Option.any_eq_true _ _ |>.mp hname
    rcases getElem?_concat_cases he' with ⟨-, hlt⟩ | ⟨rfl, rfl⟩
    · rw [isNameAt_append hlt] at hname
      exact h.onlyHost c hname
    · rw [he.notName] at hflag
      exact absurd hflag Bool.false_ne_true
  · rintro i ⟨e', he', hparent, hkey⟩ hfind
    rcases getElem?_concat_cases he' with ⟨he', hlt⟩ | ⟨rfl, rfl⟩
    · rw [findHeading_append hlt] at hfind
      rw [nameAt_append hlt]
      exact h.port i ⟨e', he', hparent, hkey⟩ hfind
    · rw [findHeading_last hne, hparent, if_neg Bool.false_ne_true] at hfind
      rw [nameAt, List.getElem?_concat_length, Option.bind_some, he.port hparent hkey hfind,
        Option.getD_some]

/-- The table of the directories in a layout. -/
theorem webLayout_headings (db : StringsDb) (recs : List ParserEntry) :
    let L := webLayout db recs
    L.main = findHeading L.file (L.file.length - 1) ∧
      ∀ i, 0 < i → i < L.file.length → L.mains[i]? = some (findHeading L.file i : ℤ) := by
  induction recs using List.reverseRecOn with
  | nil => exact ⟨rfl, fun i hi hlt => absurd hlt (by simp [webLayout, WebLayout.start]; omega)⟩
  | append_singleton recs r ih =>
    obtain ⟨hmain, hmains⟩ := ih
    have hlen := length_file_webLayout db recs
    have hmlen := length_mains_webLayout db recs
    rw [webLayout_append_singleton, WebLayout.add]
    dsimp only
    have hne : (webLayout db recs).file ≠ [] := by
      rw [← List.length_pos_iff, hlen]
      exact Nat.succ_pos _
    have hlast : findHeading ((webLayout db recs).file ++ [(webLayout db recs).recOf db r])
        (webLayout db recs).file.length = (webLayout db recs).mainWith r := by
      rw [findHeading_last hne, WebLayout.flags_recOf, WebLayout.mainWith, hmain]
    constructor
    · rw [List.length_append, List.length_singleton, Nat.add_sub_cancel, hlast]
    · intro i hi hlt
      rw [List.length_append, List.length_singleton] at hlt
      obtain hlt | rfl : i < (webLayout db recs).file.length ∨ i = (webLayout db recs).file.length := by
        omega
      · rw [List.getElem?_append_left (by omega), findHeading_append hlt, hmains i hi hlt]
      · rw [hlast, hlen, ← hmlen, List.getElem?_concat_length]

end

end UrlDb

section

open UrlDb

variable {db : StringsDb} {server port : List UInt8} {recs out : List ParserEntry} {r : ParserEntry}
  {p : ℕ}

/-- The record of an entry in the site file. -/
theorem EntryAt.isEntry (h : EntryAt out p) (db : StringsDb) :
    IsEntry (webLayout db out).file (p + 1) := by
  obtain ⟨r, hr, hparent, hkey⟩ := h
  obtain ⟨L, hL⟩ := webLayout_record db hr
  exact ⟨_, hL, by rw [WebLayout.flags_recOf, hparent], by rw [WebLayout.flags_recOf, hkey]⟩

/-- Below the directory of the server, its heading is not found. -/
theorem Below.findHeading_ne (h : Below out) (db : StringsDb) :
    findHeading (webLayout db out).file ((webLayout db out).file.length - 1) ≠ 2 := by
  obtain ⟨k, r, hk, hr, hparent⟩ := h
  obtain ⟨L, hL⟩ := webLayout_record db hr
  obtain ⟨hlt, -⟩ := List.getElem?_eq_some_iff.mp hL
  have hle := le_findHeading hL (by rw [WebLayout.flags_recOf, hparent])
    (i := (webLayout db out).file.length - 1) (by omega)
  omega

theorem heading_flags {flags : ℕ} (h : flags = 0x10 ∨ flags = 0x04) : cseIsParent flags = true ∧
    cseIsKey flags = false ∧ cseIsDoc flags = false ∧ cseIsName flags = false := by
  rcases h with rfl | rfl <;> decide

theorem stringAt_faithful (h : db.Faithful r.name) :
    UrlDb.stringAt db (db.appendKey r.name) = some r.name := by
  rw [UrlDb.stringAt, if_neg (not_lt.mpr h.1), h.2]

/-- The first records. -/
theorem serverFile_start {r' : ParserEntry} (hentry : r.IsEntry) (hname : r.name = server)
    (hflags : r'.core.flags = 0x20) (hidx : r'.core.parentIdx = 0) (hdb : db.Faithful r.name) :
    ServerFile (webLayout db [r, r']).file db server port := by
  obtain ⟨hparent, hkey⟩ := hentry
  have hheading : cseIsParent r'.core.flags = true := by rw [hflags]; decide
  set e : SiteEntry := ⟨r.core.flags, db.appendKey r.name,
    .entry r.core.size r.core.date r.core.perms r.core.rdate⟩ with he
  have hfile : (webLayout db [r, r']).file = [subpathRec (-1) (-1), e, ⟨0x20, 0, .prntEntry 1⟩] := by
    show (WebLayout.add db (WebLayout.add db WebLayout.start r) r').file = _
    have hplace : WebLayout.place r' = 1 := by rw [WebLayout.place, hidx]; rfl
    have hrec : ∀ L : WebLayout, L.recOf db r = e := fun L => by
      simp [WebLayout.recOf, hparent, hkey, he]
    have hrec' : ∀ L : WebLayout, L.recOf db r' = ⟨0x20, L.mains.getD 1 0, .prntEntry 1⟩ := by
      intro L
      rw [WebLayout.recOf, if_pos hheading, hplace, hflags]
      rfl
    rw [WebLayout.add, hrec', WebLayout.add, hrec, WebLayout.mainWith, hparent]
    rfl
  rw [hfile]
  have hone : IsEntry [subpathRec (-1) (-1), e, ⟨0x20, 0, .prntEntry 1⟩] 1 := ⟨e, rfl, hparent, hkey⟩
  have hzero : findHeading [subpathRec (-1) (-1), e, ⟨0x20, 0, .prntEntry 1⟩] 1 = 0 := by
    rw [findHeading_of_entry hone]
    rfl
  have hstring : UrlDb.stringAt db e.strt1 = some server := by rw [← hname]; exact stringAt_faithful hdb
  refine ⟨⟨?_, ?_, ?_, ?_, ?_⟩, ⟨hone, ?_⟩, ⟨rfl, rfl⟩, ?_, ?_⟩
  · rintro (_ | _ | _ | c) e' he' hp hc
    · exact absurd rfl hc
    · obtain rfl := Option.some.inj he'
      rw [hparent] at hp
      exact absurd hp Bool.false_ne_true
    · obtain rfl := Option.some.inj he'
      exact ⟨1, by decide, by decide, rfl, by rw [hzero]; rfl, hone⟩
    · exact absurd he' (by simp)
  · exact fun e' he' => (Option.some.inj he').symm
  · rintro (_ | _ | _ | c) e' he' hp hk
    · obtain rfl := Option.some.inj he'
      exact absurd hp (by decide)
    · obtain rfl := Option.some.inj he'
      exact ⟨server, hstring⟩
    · obtain rfl := Option.some.inj he'
      exact absurd hp (by decide)
    · exact absurd he' (by simp)
  · intro e' hmem hp
    simp only [List.mem_cons, List.not_mem_nil, or_false] at hmem
    rcases hmem with rfl | rfl | rfl
    · decide
    · rw [hparent] at hp
      exact absurd hp Bool.false_ne_true
    · decide
  · rintro (_ | _ | _ | c) e' he' hk
    · obtain rfl := Option.some.inj he'
      exact absurd hk (by decide)
    · obtain rfl := Option.some.inj he'
      rw [hkey] at hk
      exact absurd hk Bool.false_ne_true
    · obtain rfl := Option.some.inj he'
      exact absurd hk (by decide)
    · exact absurd he' (by simp)
  · show (UrlDb.stringAt db e.strt1).getD [] = server
    rw [hstring, Option.getD_some]
  · rintro (_ | _ | _ | c) hc
    · exact absurd (show cseIsName 0x04 = true from hc) (by decide)
    · have hnot : cseIsName r.core.flags = true := hc
      rw [cseIsParent_of_isName hnot] at hparent
      exact absurd hparent (by decide)
    · rfl
    · exact absurd hc (by simp [isNameAt])
  · rintro i hi hfind
    have hlt := hi.lt
    have hle := findHeading_le [subpathRec (-1) (-1), e, ⟨0x20, 0, .prntEntry 1⟩] i
    obtain rfl : i = 2 := by
      rw [List.length_cons, List.length_cons, List.length_cons, List.length_nil] at hlt
      omega
    obtain ⟨e', he', hp, -⟩ := hi
    obtain rfl := Option.some.inj he'
    exact absurd hp (by decide)

/-- **The site file of the records of a crawl** is that of the server and the port. -/
theorem CrawlRecords.serverFile (h : CrawlRecords server port recs)
    (hdb : ∀ r ∈ recs, cseIsParent r.core.flags = false → db.Faithful r.name) :
    ServerFile (webLayout db recs).file db server port := by
  induction h with
  | start hkind hentry hname hroot hflags hidx =>
    exact serverFile_start hentry hname hflags hidx (hdb _ List.mem_cons_self hentry.1)
  | @entry out r hout hkind hentry hport ih =>
    have hfaithful := hdb r (by simp) hentry.1
    have hrec : (webLayout db out).recOf db r = ⟨r.core.flags, db.appendKey r.name,
        .entry r.core.size r.core.date r.core.perms r.core.rdate⟩ := by
      simp [WebLayout.recOf, hentry.1, hentry.2]
    rw [webLayout_append_singleton]
    refine (ih fun r hr => hdb r (List.mem_append_left _ hr)).append ?_
    rw [hrec]
    constructor
    · exact fun hp => absurd hp (by simp [hentry.1])
    · exact fun _ _ => ⟨r.name, stringAt_faithful hfaithful⟩
    · exact fun hp => absurd hp (by simp [hentry.1])
    · rw [← Bool.not_eq_true]
      intro hname
      exact absurd (cseIsParent_of_isName hname) (by simp [hentry.1])
    · exact fun hk => absurd hk (by simp [hentry.2])
    · intro _ _ hfind
      rw [← hport.resolve_left fun hbelow => hbelow.findHeading_ne db hfind]
      exact stringAt_faithful hfaithful
  | @key out r r' hout hlast hor hflags ih =>
    have hpos := hout.two_le
    have hrec : ((webLayout db out).recOf db r).flags = 0x08 := by rw [WebLayout.flags_recOf, hflags]
    rw [webLayout_append_singleton]
    refine (ih fun r hr => hdb r (List.mem_append_left _ hr)).append ?_
    constructor
    · exact fun hp => absurd hp (by rw [hrec]; decide)
    · exact fun _ hk => absurd hk (by rw [hrec]; decide)
    · exact fun hp => absurd hp (by rw [hrec]; decide)
    · rw [hrec]
      decide
    · refine fun _ => ⟨by rw [hrec]; decide, ?_⟩
      rw [List.getLast?_eq_getElem?] at hlast
      obtain ⟨L, hL⟩ := webLayout_record db hlast
      refine ⟨L.recOf db r', ?_, by rw [WebLayout.flags_recOf]; exact hor⟩
      rw [List.getLast?_eq_getElem?, length_file_webLayout, Nat.add_sub_cancel, ← hL]
      congr 1
      omega
    · exact fun _ hk => absurd hk (by rw [hrec]; decide)
  | @heading out r p hout hflags hidx hentry ih =>
    have hplace : WebLayout.place r = p + 1 := by rw [WebLayout.place, hidx, Int.toNat_natCast]
    obtain ⟨hparent, hkey, hdoc, hname⟩ := heading_flags hflags
    have hisEntry := hentry.isEntry db
    have hrec : (webLayout db out).recOf db r = ⟨r.core.flags,
        findHeading (webLayout db out).file (p + 1), .prntEntry ((p + 1 : ℕ) : ℤ)⟩ := by
      rw [WebLayout.recOf, if_pos hparent, hplace, List.getD_eq_getElem?_getD,
        (webLayout_headings db out).2 (p + 1) (Nat.succ_pos _) hisEntry.lt, Option.getD_some]
    rw [webLayout_append_singleton]
    refine (ih fun r hr => hdb r (List.mem_append_left _ hr)).append ?_
    rw [hrec]
    constructor
    · exact fun _ => ⟨p + 1, p.succ_ne_zero, rfl, rfl, hisEntry⟩
    · exact fun hp => absurd hp (by simp [hparent])
    · exact fun _ => ⟨hkey, hdoc⟩
    · exact hname
    · exact fun hk => absurd hk (by simp [hkey])
    · exact fun hp => absurd hp (by simp [hparent])

theorem canAddAll_append (h : WebSetup.CanAddAll db recs) (hr : WebSetup.CanAdd (webLayout db recs) r) :
    WebSetup.CanAddAll db (recs ++ [r]) := by
  intro pre rest q hsplit
  rcases rest.eq_nil_or_concat with rfl | ⟨rest, last, rfl⟩
  · obtain ⟨rfl, hqr⟩ := List.append_inj' hsplit rfl
    rw [← (List.singleton_inj.mp hqr)]
    exact hr
  · rw [List.concat_eq_append, ← List.cons_append, ← List.append_assoc] at hsplit
    exact h pre rest q (List.append_inj' hsplit rfl).1

/-- Each record of a crawl may be added to the ones before it. -/
theorem CrawlRecords.canAddAll (h : CrawlRecords server port recs)
    (hdb : ∀ r ∈ recs, cseIsParent r.core.flags = false → db.Faithful r.name) :
    WebSetup.CanAddAll db recs := by
  have hmain : ∀ {out : List ParserEntry}, CrawlRecords server port out →
      (∀ r ∈ out, cseIsParent r.core.flags = false → db.Faithful r.name) →
      (webLayout db out).main ≠ 0 := by
    intro out hout hdb
    have hfile := hout.serverFile hdb
    obtain ⟨e, he, hparent⟩ := parent_of_isNameAt hfile.host.1
    have hlt := hfile.two_lt
    have hle := le_findHeading he hparent (i := (webLayout db out).file.length - 1) (by omega)
    rw [(webLayout_headings db out).1]
    omega
  induction h with
  | @start r r' hkind hentry hname hroot hflags hidx =>
    have hfirst : WebSetup.CanAddAll db [r] := by
      intro pre rest q hsplit
      obtain ⟨rfl, hq⟩ | ⟨pre', rfl, hq⟩ := List.cons_eq_append_iff.mp hsplit
      · rw [List.cons.injEq] at hq
        rw [hq.1]
        exact ⟨hkind, fun _ _ => hroot, fun hp => absurd hp (by simp [hentry.1])⟩
      · exact absurd hq.symm (by simp)
    refine canAddAll_append hfirst ⟨.parent (.inr (.inr hflags)), fun hp => ?_, fun _ => ?_⟩
    · rw [hflags] at hp
      exact absurd hp (by decide)
    · rw [hidx, WebLayout.place, hidx, length_file_webLayout]
      exact ⟨le_rfl, by simp⟩
  | @entry out r hout hkind hentry hport ih =>
    have hdb' := fun r hr => hdb r (List.mem_append_left _ hr)
    exact canAddAll_append (ih hdb') ⟨hkind, fun _ hzero => absurd hzero (hmain hout hdb'),
      fun hp => absurd hp (by simp [hentry.1])⟩
  | @key out r r' hout hlast hor hflags ih =>
    have hdb' := fun r hr => hdb r (List.mem_append_left _ hr)
    exact canAddAll_append (ih hdb') ⟨.key hflags, fun _ hzero => absurd hzero (hmain hout hdb'),
      fun hp => absurd hp (by rw [hflags]; decide)⟩
  | @heading out r p hout hflags hidx hentry ih =>
    have hdb' := fun r hr => hdb r (List.mem_append_left _ hr)
    refine canAddAll_append (ih hdb') ⟨.parent (by tauto), fun _ hzero => absurd hzero (hmain hout hdb'),
      fun _ => ?_⟩
    have hlt := (hentry.isEntry db).lt
    rw [hidx, WebLayout.place, hidx, Int.toNat_natCast]
    exact ⟨by omega, hlt⟩

/-- A heading with no entry before it reads a number that was not written. -/
theorem setupInsert_heading {n : ℕ} (hn : 0 < n) (unset : List UInt8) (hflags : r.core.flags = 0x20)
    (hidx : r.core.parentIdx = 0) (recs : List ParserEntry) (outArray : List SiteEntry) :
    WebSetup.setupInsert db unset n (r :: recs) outArray = none := by
  have hparent : cseIsParent r.core.flags = true := by rw [hflags]; decide
  have hwrite : ∀ outlist : List (Option ℤ),
      WebSetup.entryWrite r outlist (List.replicate n none) = none := by
    intro outlist
    have hread : readCell (List.replicate n none) 0 = none := by
      rw [readCell, if_pos le_rfl, List.getElem?_replicate]
      split <;> rfl
    rw [WebSetup.entryWrite, hflags, hidx, hread]
    rfl
  have hround : ∀ s : InsertState, s.recNumbers = List.replicate n none →
      WebSetup.insertRecord db r s = none := by
    intro s hs
    have henter : WebSetup.enterDirectory r s = some { s with
        currPrntDir := s.currRecno, prevPrntDir := r.core.parentIdx, web := true } := by
      rw [WebSetup.enterDirectory, hparent]
      rfl
    rw [WebSetup.insertRecord, henter, Option.bind_eq_bind, Option.bind_some, WebSetup.insertEntry]
    dsimp only
    rw [hs]
    cases setCell s.outlist s.currRecno s.currRecno with
    | none => rfl
    | some outlist =>
      rw [Option.bind_eq_bind, Option.bind_some]
      cases setRec s.outArray s.currRecno fun e => { e with strt1 := db.appendKey r.name } with
      | none => rfl
      | some out =>
        rw [Option.bind_eq_bind, Option.bind_some, hwrite]
        rfl
  rw [WebSetup.setupInsert, WebSetup.setupInsertLoop, if_pos (by exact hn), hround _ rfl]
  rfl

/-! ### The documents of a crawl -/

theorem mem_of_mapM_id {α : Type} {l : List (Option α)} {l' : List α} {a : α}
    (h : l.mapM id = some l') (ha : a ∈ l') : some a ∈ l := by
  induction l generalizing l' with
  | nil =>
    rw [List.mapM_nil, Option.pure_def, Option.some.injEq] at h
    rw [← h] at ha
    exact absurd ha List.not_mem_nil
  | cons o l ih =>
    rw [List.mapM_cons, Option.bind_eq_bind, Option.bind_eq_some_iff] at h
    obtain ⟨b, hb, h⟩ := h
    rw [Option.bind_eq_bind, Option.bind_eq_some_iff] at h
    obtain ⟨rest, hrest, h⟩ := h
    rw [Option.pure_def, Option.some.injEq] at h
    rw [← h, List.mem_cons] at ha
    rcases ha with rfl | ha
    · exact List.mem_cons.mpr (.inl hb.symm)
    · exact List.mem_cons_of_mem _ (ih hrest ha)

/-- What `recurse` writes for the file of a crawl. -/
theorem recurse_crawl {inp : RecurseInput} {cvtTo : List UInt8 → ℕ} {fuel : ℕ} {crawl : List UInt8}
    (hkeys : inp.KeysFlagged) (hserver : 47 ∉ server) (hport : port ≠ []) (hslash : 47 ∉ port)
    (hcrawl : ∀ table, getInfo cvtTo crawl = some table → ∀ info, some info ∈ table →
      RowOf server port info)
    (hrecs : recurse inp cvtTo fuel crawl = some recs) :
    CrawlRecords server port recs ∨
      ∃ r, r.core.flags = 0x20 ∧ r.core.parentIdx = 0 ∧ [r] <+: recs := by
  rw [recurse, Option.bind_eq_bind, Option.bind_eq_some_iff] at hrecs
  obtain ⟨table, htable, hrecs⟩ := hrecs
  rw [Option.bind_eq_bind, Option.bind_eq_some_iff] at hrecs
  obtain ⟨infos, hinfos, hrecs⟩ := hrecs
  have hrows : ∀ info ∈ infos, RowOf server port info :=
    fun info hmem => hcrawl table htable info (mem_of_mapM_id hinfos hmem)
  split at hrecs
  · exact absurd hrecs (by simp)
  next hne =>
    rw [Option.bind_eq_bind, Option.bind_eq_some_iff] at hrecs
    obtain ⟨s, hs, hrecs⟩ := hrecs
    rw [← Option.some.inj hrecs]
    cases infos with
    | nil => exact absurd rfl hne
    | cons info infos =>
      refine processList_crawl hkeys hserver hport hslash ?_ ?_ hs
      · intro r hr
        rw [← List.map_cons (f := fun info => (⟨info, 0⟩ : WebRow))] at hr
        obtain ⟨info', hinfo', rfl⟩ := List.mem_map.mp hr
        exact hrows info' hinfo'
      · intro r hr
        rw [← List.map_cons (f := fun info => (⟨info, 0⟩ : WebRow))] at hr
        obtain ⟨info', -, rfl⟩ := List.mem_map.mp hr
        rfl

/-- **The documents of a crawl that are known afterwards.**  A document is, when the server is found, all
urls fit in their array, it lies below the name of the server, it has keywords or is no directory that
something lies in, and no record behind it has the same url. -/
theorem knownUrls_iff {inp : RecurseInput} {cvtTo : List UInt8 → ℕ} {fuel outRecNo i : ℕ}
    {crawl unset path : List UInt8} {file : List SiteEntry} {rest : List ParserEntry} {e : SiteEntry}
    {gethostbyname : List UInt8 → Option (List UInt8)} (hkeys : inp.KeysFlagged)
    (hserver : 58 ∉ server ∧ 47 ∉ server) (hport : port ≠ [] ∧ ∀ c ∈ port, isDigit c = true)
    (hcrawl : ∀ table, getInfo cvtTo crawl = some table → ∀ info, some info ∈ table →
      RowOf server port info)
    (hrecs : recurse inp cvtTo fuel crawl = some recs)
    (hinsert : WebSetup.setupInsert db unset (recs.length + 1) recs
      (List.replicate (recs.length + 1) zeroEntry) = some (file, outRecNo, rest))
    (hdb : ∀ r ∈ recs, cseIsParent r.core.flags = false → db.Faithful r.name)
    (he : file[i]? = some e) (hdoc : cseIsDoc e.flags = true) :
    (∃ table, initUrlDb gethostbyname server port path (some (file, db)) = some table ∧
      KnownUrl file db gethostbyname server port table i) ↔
    (∀ j, UrlDb.Fits file db j) ∧ GivenUrl file db gethostbyname server i := by
  have hslash : 47 ∉ port := fun h => absurd (hport.2 47 h) (by decide)
  rcases recurse_crawl hkeys hserver.2 hport.1 hslash hcrawl hrecs with hcrawl | ⟨r, hflags, hidx, hr⟩
  · have hne : recs ≠ [] := by
      rintro rfl
      exact absurd hcrawl.two_le (by decide)
    have hout := @WebSetup.setupInsert_of_canAddAll db recs (hcrawl.canAddAll hdb) unset
    rw [hinsert, webFile, if_neg hne, length_file_webLayout, Nat.sub_self, List.replicate_zero,
      List.append_nil, Option.some.injEq, Prod.mk.injEq] at hout
    have hfile : ServerFile file db server port := hout.1 ▸ hcrawl.serverFile hdb
    have hzero : i ≠ 0 := by
      rintro rfl
      rw [hfile.root e he] at hdoc
      exact absurd hdoc (by decide)
    have hentry : IsEntry file i := by
      refine ⟨e, he, ?_, ?_⟩ <;> rw [← Bool.not_eq_true] <;> intro hflag
      · rw [(hfile.parent e (List.mem_of_getElem? he) hflag).2] at hdoc
        exact absurd hdoc Bool.false_ne_true
      · rw [(hfile.keyword i e he hflag).1] at hdoc
        exact absurd hdoc Bool.false_ne_true
    exact hfile.knownUrl_iff hserver hport.2 hzero hentry path
  · obtain ⟨recs', rfl⟩ := hr
    rw [List.singleton_append, setupInsert_heading (Nat.succ_pos _) unset hflags hidx] at hinsert
    exact absurd hinsert (by simp)

end

/-! ### A page for the root -/

/-- A new page without keywords, on the port 80 of `www`. -/
def sampleWebDoc (path : List UInt8) : CrawlDoc :=
  ⟨⟨path, bytes "New", bytes "www", [], 9, 0, 0, 80, 0, none, 543⟩, []⟩

/-- A page for the root, and another one. -/
def sampleRootCrawl : List UInt8 :=
  crawlFile (fun _ => []) (fun _ => 0) [sampleWebDoc (bytes "/"), sampleWebDoc (bytes "/aa")]

/-- A database with the strings of this site. -/
def crawlDb : StringsDb where
  appendKey name := [bytes "www", bytes "80", bytes "aa"].idxOf name
  getString k := [bytes "www", bytes "80", bytes "aa"][k.toNat]?

/-- No site file, and no keywords. -/
def sampleInput : RecurseInput := ⟨none, crawlDb, false, 6, fun _ _ => []⟩

/-- The records of the two pages. -/
def sampleRootRecs : List ParserEntry :=
  [⟨⟨9, 0, -1, 0, 0, 0x01, 0⟩, bytes "www"⟩, ⟨⟨0, 0, 0, 0, 0, 0x20, 0⟩, bytes "www"⟩,
    ⟨⟨9, 0, 0, 0, 0, 0x41, 6⟩, bytes "80"⟩, ⟨⟨0, 0, 2, 0, 0, 0x10, 0⟩, bytes "80" ++ [0]⟩,
    ⟨⟨9, 0, 2, 0, 1, 0x40, 6⟩, bytes "aa"⟩]

/-- Their site file. -/
def sampleRootFile : List SiteEntry :=
  [subpathRec (-1) (-1), ⟨0x01, 0, .entry 9 0 0 0⟩, ⟨0x20, 0, .prntEntry 1⟩, ⟨0x41, 1, .entry 9 0 0 6⟩,
    ⟨0x10, 2, .prntEntry 3⟩, ⟨0x40, 2, .entry 9 0 1 6⟩]

theorem sampleRoot_rows : ∀ table, getInfo (fun _ => 0) sampleRootCrawl = some table →
    ∀ info, some info ∈ table → RowOf (bytes "www") (bytes "80") info := by
  intro table htable info hinfo
  have hurls : (getInfo (fun _ => 0) sampleRootCrawl).map
      (fun table => table.map (Option.map SubHeaderInfo.localUrl)) =
        some [some (bytes "/www/80/"), some (bytes "/www/80/aa")] := by decide +kernel
  rw [htable, Option.map_some, Option.some.injEq] at hurls
  have hmem : some info.localUrl ∈ table.map (Option.map SubHeaderInfo.localUrl) :=
    List.mem_map.mpr ⟨some info, hinfo, rfl⟩
  rw [hurls] at hmem
  simp only [List.mem_cons, Option.some.injEq, List.not_mem_nil, or_false] at hmem
  rcases hmem with hurl | hurl
  · exact ⟨bytes "/", .inr (by decide +kernel), hurl.trans (by decide +kernel)⟩
  · exact ⟨bytes "/aa", .inr (by decide +kernel), hurl.trans (by decide +kernel)⟩

theorem sampleRoot_recs : recurse sampleInput (fun _ => 0) 6 sampleRootCrawl = some sampleRootRecs := by
  decide +kernel

theorem sampleRoot_insert : WebSetup.setupInsert crawlDb [] (sampleRootRecs.length + 1) sampleRootRecs
    (List.replicate (sampleRootRecs.length + 1) zeroEntry) = some (sampleRootFile, 6, []) := by
  decide +kernel

theorem sampleRoot_faithful : ∀ r ∈ sampleRootRecs, cseIsParent r.core.flags = false →
    crawlDb.Faithful r.name := by
  rw [show sampleRootRecs = _ from rfl]
  simp only [StringsDb.Faithful]
  decide +kernel

theorem knownUrls_iff_sample : (∃ table,
    UrlDb.initUrlDb some (bytes "www") (bytes "80") (bytes "/") (some (sampleRootFile, crawlDb)) =
      some table ∧
    UrlDb.KnownUrl sampleRootFile crawlDb some (bytes "www") (bytes "80") table 5) ↔
    (∀ j, UrlDb.Fits sampleRootFile crawlDb j) ∧
      UrlDb.GivenUrl sampleRootFile crawlDb some (bytes "www") 5 :=
  knownUrls_iff (fun site hsite => absurd hsite (by simp [sampleInput]))
    ⟨by decide +kernel, by decide +kernel⟩ ⟨by decide +kernel, by decide +kernel⟩ sampleRoot_rows
    sampleRoot_recs sampleRoot_insert sampleRoot_faithful (e := ⟨0x40, 2, .entry 9 0 1 6⟩) rfl rfl

/-- The page for the root is also the directory of the other one, and has no keywords: it is not known
afterwards. -/
theorem not_knownUrls : sampleInput.KeysFlagged ∧
    recurse sampleInput (fun _ => 0) 6 sampleRootCrawl = some sampleRootRecs ∧
    WebSetup.setupInsert crawlDb [] (sampleRootRecs.length + 1) sampleRootRecs
      (List.replicate (sampleRootRecs.length + 1) zeroEntry) = some (sampleRootFile, 6, []) ∧
    (∀ r ∈ sampleRootRecs, cseIsParent r.core.flags = false → crawlDb.Faithful r.name) ∧
    (sampleRootFile[3]?.any fun e => cseIsDoc e.flags) = true ∧
    ∃ table, UrlDb.initUrlDb some (bytes "www") (bytes "80") (bytes "/")
        (some (sampleRootFile, crawlDb)) = some table ∧
      ¬UrlDb.KnownUrl sampleRootFile crawlDb some (bytes "www") (bytes "80") table 3 := by
  refine ⟨fun site hsite => absurd hsite (by simp [sampleInput]), sampleRoot_recs, sampleRoot_insert,
    sampleRoot_faithful, by decide +kernel, ?_⟩
  have hinit : UrlDb.initUrlDb some (bytes "www") (bytes "80") (bytes "/")
      (some (sampleRootFile, crawlDb)) = some [⟨⟨some (bytes "www"), some (bytes "80"), bytes "/aa",
        some (bytes "http://www/aa")⟩, 5, 1, some 6⟩] := by
    decide +kernel
  refine ⟨_, hinit, ?_⟩
  rintro ⟨ue, hentries, -⟩
  rw [show UrlDb.entriesOf _ 3 = [] from rfl] at hentries
  exact absurd hentries (List.cons_ne_nil _ _).symm

end Archie
