/-
The records of a web site, made of the table of its documents (`webindex/parse/recurse.c`:
`process_list`, `recurse`).

The rows of the table are urls `/server/port/path` in order.  Each round of `process_list` writes the
heading of the directory that its rows are in, the entries of this, and then goes into each of them.

* `outputHeading`, `listRows`, `processList`, `recurse` — the functions.
* `CrawlRecords` — the records of one server and port, added one by one.
* `processList_crawlRecords` — these are what is written below the port.
-/
import Mathlib.Data.List.SplitBy
import Archie.CrawlFile
import Archie.DocUrls
import Archie.WebInsert

namespace Archie

/-- `find_char`: how far the `n`-th `c` is, or else the end. -/
def findChar (c : UInt8) : ℕ → List UInt8 → ℕ
  | _, [] => 0
  | n, d :: s => if d = c then if n = 1 then 0 else findChar c (n - 1) s + 1 else findChar c n s + 1

/-- A row of the table; the record number is that of its last entry. -/
structure WebRow extends SubHeaderInfo where
  recNo : ℕ
  deriving DecidableEq

namespace WebRow

/-- The `/` at the end is cut off the first row. -/
def strip (row : WebRow) : WebRow :=
  if row.shrec.localUrl.length ≠ 1 ∧ row.localUrl.getLast? = some 47
    then { row with localUrl := row.localUrl.dropLast } else row

/-- The part of an url from a place to the next `/`. -/
def part (row : WebRow) (start : ℕ) : List UInt8 :=
  (row.localUrl.drop start).take (findChar 47 1 (row.localUrl.drop start))

/-- The text from this `/` on; behind the end there are zeros. -/
def behind (row : WebRow) (start : ℕ) : List UInt8 :=
  (row.localUrl.drop start).drop (findChar 47 1 (row.localUrl.drop start))

end WebRow

/-- What is read beside the table: the site file of the last time with its strings and whether there
are excerpts of it, `retrieve_time`, and the keywords that `parse_rec` finds in a document.  These come
with all fields, of which it sets the weight only. -/
structure RecurseInput where
  site : Option (List SiteEntry)
  strings : StringsDb
  exIn : Bool
  retrieveTime : ℕ
  parseRec : ℕ → SubHeaderRec → List (CoreSiteEntry × List UInt8)

/-- What is written, which is counted in `rec_no`, and `excerpt_recno`. -/
structure RecurseState where
  out : List ParserEntry
  excerptRecno : ℕ
  deriving DecidableEq, Repr

section

variable (inp : RecurseInput)

/-! ### Documents -/

/-- `get_site_rec`: none, if nothing is there to be read. -/
def getSiteRec (recno : ℤ) : Option (ℕ × ℕ × ℕ) := do
  let site ← inp.site
  if recno < 0 then none
  else
    match site[recno.toNat]? with
    | some ⟨_, _, .entry size date _ rdate⟩ => some (size, date, rdate)
    | _ => none

/-- The loop of `output_site_rec` over the keywords. -/
def siteKeys : List SiteEntry → Option (List ParserEntry)
  | [] => some []
  | e :: site =>
    match e.core with
    | .kwrd weight =>
      if cseIsKey e.flags then do
        let res ← inp.strings.getString e.strt1
        let keys ← siteKeys site
        some (⟨⟨weight, 0, 0, 0, 0, e.flags, 0⟩, res⟩ :: keys)
      else some []
    | _ => if cseIsKey e.flags then none else some []

/-- `output_site_rec`. -/
def outputSiteRec (recno : ℤ) : Option (List ParserEntry) :=
  match inp.site with
  | none => some []
  | some site =>
    if !inp.exIn then some []
    else if 0 ≤ recno ∧ recno < site.length then siteKeys inp (site.drop (recno.toNat + 1)) else none

/-- The keywords of a document of the table. -/
def rowKeys (row : WebRow) : Option (List ParserEntry) :=
  if row.shrec.isSet .recno then outputSiteRec inp row.shrec.recno
  else some ((inp.parseRec row.sSub row.shrec).map fun k => ⟨{ k.1 with flags := 0x08 }, k.2⟩)

/-- The size, the date and the retrieve time of a document. -/
def rowTimes (row : WebRow) : Option (ℕ × ℕ × ℕ) :=
  if row.shrec.isSet .recno then getSiteRec inp row.shrec.recno
  else some (row.shrec.size, row.shrec.date, inp.retrieveTime)

/-! ### Directories -/

/-- The name of a heading, in `cse_buff`, as far as `pent.slen` goes.  There is none where this is
negative, or the copy is or does not fit. -/
def headingName (which : ℕ) (url : List UInt8) (l : ℕ) : Option (List UInt8) :=
  let tmp := findChar 47 (which - 1) url
  let copy (n : ℕ) := (url.drop (tmp + 1)).take n
  let name :=
    if l = tmp then none
    else if l = url.length ∧ url.getLast? ≠ some 47 then some (copy (l - tmp - 1))
    else if l < tmp + 2 then none
    else if l = url.length then some (copy (l - tmp - 2) ++ [0])
    else some (copy (l - tmp - 2))
  name.filter fun name => name.length < 100

/-- The flags of a heading. -/
def headingFlags (which : ℕ) : ℕ := if which = 2 then 0x20 else if which = 3 then 0x10 else 0x04

/-- The heading of a directory; there is none at the first level. -/
def outputHeading (which : ℕ) (parent : ℤ) (url : List UInt8) (l : ℕ) (s : RecurseState) :
    Option RecurseState :=
  if which = 1 then some s
  else do
    let name ← headingName which url l
    some { s with out := s.out ++ [⟨⟨0, 0, parent, 0, 0, headingFlags which, 0⟩, name⟩] }

/-- The flags of an entry, from what is behind its name. -/
def entryFlags (which : ℕ) (state behind : List UInt8) : ℕ :=
  if 2 < which ∧ behind = [] then
    if strcasecmpEq state (bytes "New") || strcasecmpEq state (bytes "Old") then 0x40 else 0
  else if behind.tail = [] then 0x41 else 0x01

/-- The entry of a row, with the keywords of a document. -/
def outputEntry (which : ℕ) (parent : ℤ) (row : WebRow) (buff behind : List UInt8) (s : RecurseState) :
    Option RecurseState :=
  let flags := entryFlags which row.shrec.state behind
  if cseIsDoc flags then do
    let (size, date, rdate) ← rowTimes inp row
    let keys ← rowKeys inp row
    some ⟨s.out ++ ⟨⟨size, date, parent, 0, s.excerptRecno, flags, rdate⟩, buff⟩ :: keys,
      s.excerptRecno + 1⟩
  else
    some { s with out := s.out ++ [⟨⟨row.shrec.size, row.shrec.date, parent, 0, 0, flags, 0⟩, buff⟩] }

/-- The loop over the rows: an entry for each name of more than one character that is not the one
before.  The rows come back with the numbers of their entries. -/
def listRows (which : ℕ) (parent : ℤ) (l start : ℕ) :
    List WebRow → List UInt8 → RecurseState → Option (List WebRow × RecurseState)
  | [], _, s => some ([], s)
  | row :: rows, bb, s =>
    let buff := row.part start
    if l < row.localUrl.length ∧ 1 < buff.length ∧ buff ≠ bb then do
      let s' ← outputEntry inp which parent row buff (row.behind start) s
      let (rows, s') ← listRows which parent l start rows buff s'
      some ({ row with recNo := s.out.length } :: rows, s')
    else do
      let (rows, s) ← listRows which parent l start rows bb s
      some (row :: rows, s)

/-- The runs of rows with the same name; all but the last one only if there is a name. -/
def recurseRuns (process : List WebRow → RecurseState → Option RecurseState) (start : ℕ) :
    List (List WebRow) → RecurseState → Option RecurseState
  | [], s => some s
  | [run], s => process run s
  | run :: runs, s => do
    let s ← if run.any (fun row => row.part start ≠ []) then process run s else some s
    recurseRuns process start runs s

/-- How far the directory goes that the rows are in: `l`. -/
def headEnd (which : ℕ) (url : List UInt8) : ℕ :=
  if findChar 47 which url = url.length then findChar 47 which url else findChar 47 which url + 1

/-- `disp`: the first row ends there, without a `/`. -/
def dispAt (url : List UInt8) (l : ℕ) : ℕ :=
  if url.length = l ∧ 0 < l ∧ url.getLast? ≠ some 47 then 1 else 0

/-- `process_list`, for the rows from `beg` to `end`.  A row at `beg` with no more parts ends it, if it
is the only one; several rows with no more parts never do. -/
def processList : ℕ → ℕ → ℤ → List WebRow → RecurseState → Option RecurseState
  | 0, _, _, _, _ => none
  | _ + 1, _, _, [], _ => none
  | fuel + 1, which, parent, row :: rest, s =>
    let row := row.strip
    let url := row.localUrl
    if findChar 47 which url = url.length ∧ rest = [] then some s
    else do
      let l := headEnd which url
      let s ← outputHeading which parent url l s
      let start := l + dispAt url l
      let (rows, s) ← listRows inp which parent l start (row :: rest) (url.take l) s
      let process (run : List WebRow) (s : RecurseState) :=
        match run with
        | [] => some s
        | row :: _ => processList fuel (which + 1) row.recNo run s
      match rows with
      | [row] => if 1 < (row.behind start).length then process [row] s else some s
      | rows => recurseRuns process start (rows.splitBy fun a b => a.part start == b.part start) s

/-- `recurse`: the records of the documents in the file of a crawl, with a bound for the calls that are
nested.  An entry of the table that was freed is read. -/
def recurse (cvtTo : List UInt8 → ℕ) (fuel : ℕ) (crawl : List UInt8) : Option (List ParserEntry) := do
  let table ← getInfo cvtTo crawl
  let infos ← table.mapM id
  if infos = [] then none
  else
    let s ← processList inp fuel 1 (-1) (infos.map fun info => ⟨info, 0⟩) ⟨[], 0⟩
    some s.out

end

/-! ### What is written -/

/-- An entry, that is, no record for a directory and no keyword. -/
def ParserEntry.IsEntry (r : ParserEntry) : Prop :=
  cseIsParent r.core.flags = false ∧ cseIsKey r.core.flags = false

/-- A record is an entry. -/
def EntryAt (out : List ParserEntry) (n : ℕ) : Prop := ∃ r, out[n]? = some r ∧ r.IsEntry

/-- There is a record for a directory behind that of the server. -/
def Below (out : List ParserEntry) : Prop :=
  ∃ (k : ℕ) (r : ParserEntry), 2 ≤ k ∧ out[k]? = some r ∧ cseIsParent r.core.flags = true

/-- The records of one server and port, one by one: first the server and its heading, in which there is
the port only. -/
inductive CrawlRecords (server port : List UInt8) : List ParserEntry → Prop
  | start {r r' : ParserEntry} : WebKind r.core.flags → r.IsEntry → r.name = server →
      r.core.parentIdx = -1 → r'.core.flags = 0x20 → r'.core.parentIdx = 0 →
      CrawlRecords server port [r, r']
  | entry {out : List ParserEntry} {r : ParserEntry} : CrawlRecords server port out →
      WebKind r.core.flags → r.IsEntry → Below out ∨ r.name = port →
      CrawlRecords server port (out ++ [r])
  | key {out : List ParserEntry} {r r' : ParserEntry} : CrawlRecords server port out →
      out.getLast? = some r' → (cseIsDoc r'.core.flags = true ∨ cseIsKey r'.core.flags = true) →
      r.core.flags = 0x08 → CrawlRecords server port (out ++ [r])
  | heading {out : List ParserEntry} {r : ParserEntry} {p : ℕ} : CrawlRecords server port out →
      (r.core.flags = 0x10 ∨ r.core.flags = 0x04) → r.core.parentIdx = p → EntryAt out p →
      CrawlRecords server port (out ++ [r])

/-- The keywords of the site file of the last time are flagged as such. -/
def RecurseInput.KeysFlagged (inp : RecurseInput) : Prop :=
  ∀ site, inp.site = some site → ∀ e ∈ site, cseIsKey e.flags = true → e.flags = 0x08

section

variable {inp : RecurseInput} {server port : List UInt8} {out out' : List ParserEntry} {n which : ℕ}
  {parent : ℤ} {s s' : RecurseState} {row : WebRow}

theorem EntryAt.mono (h : EntryAt out n) (hgrows : out <+: out') : EntryAt out' n := by
  obtain ⟨r, hr, hentry⟩ := h
  obtain ⟨new, rfl⟩ := hgrows
  exact ⟨r, by rw [List.getElem?_append_left (List.getElem?_eq_some_iff.mp hr).1, hr], hentry⟩

theorem Below.mono (h : Below out) (hgrows : out <+: out') : Below out' := by
  obtain ⟨k, r, hk, hr, hparent⟩ := h
  obtain ⟨new, rfl⟩ := hgrows
  exact ⟨k, r, hk, by rw [List.getElem?_append_left (List.getElem?_eq_some_iff.mp hr).1, hr], hparent⟩

theorem CrawlRecords.two_le (h : CrawlRecords server port out) : 2 ≤ out.length := by
  induction h with
  | start => exact le_rfl
  | entry _ _ _ _ ih | key _ _ _ _ ih | heading _ _ _ _ ih =>
    rw [List.length_append]
    omega

/-! ### Keywords -/

theorem siteKeys_flags {site : List SiteEntry} {keys : List ParserEntry}
    (hsite : ∀ e ∈ site, cseIsKey e.flags = true → e.flags = 0x08)
    (h : siteKeys inp site = some keys) : ∀ k ∈ keys, k.core.flags = 0x08 := by
  induction site generalizing keys with
  | nil =>
    rw [← Option.some.inj h]
    exact fun k hk => absurd hk List.not_mem_nil
  | cons e site ih =>
    have hno : some ([] : List ParserEntry) = some keys → ∀ k ∈ keys, k.core.flags = 0x08 := by
      intro hnil
      rw [← Option.some.inj hnil]
      exact fun k hk => absurd hk List.not_mem_nil
    rw [siteKeys] at h
    split at h
    · split at h
      next hkey =>
        rw [Option.bind_eq_bind, Option.bind_eq_some_iff] at h
        obtain ⟨res, -, h⟩ := h
        rw [Option.bind_eq_bind, Option.bind_eq_some_iff] at h
        obtain ⟨rest, hrest, h⟩ := h
        rw [← Option.some.inj h]
        intro k hk
        rcases List.mem_cons.mp hk with rfl | hk
        · exact hsite e List.mem_cons_self hkey
        · exact ih (fun e he => hsite e (List.mem_cons_of_mem _ he)) hrest k hk
      · exact hno h
    · split at h
      · exact absurd h (by simp)
      · exact hno h

theorem rowKeys_flags (hkeys : inp.KeysFlagged) {keys : List ParserEntry}
    (h : rowKeys inp row = some keys) : ∀ k ∈ keys, k.core.flags = 0x08 := by
  rw [rowKeys] at h
  split at h
  · rw [outputSiteRec] at h
    split at h
    · rw [← Option.some.inj h]
      exact fun k hk => absurd hk List.not_mem_nil
    next site hsite =>
      split at h
      · rw [← Option.some.inj h]
        exact fun k hk => absurd hk List.not_mem_nil
      · split at h
        · exact siteKeys_flags (fun e he => hkeys site hsite e (List.mem_of_mem_drop he)) h
        · exact absurd h (by simp)
  · rw [← Option.some.inj h]
    intro k hk
    obtain ⟨k', -, rfl⟩ := List.mem_map.mp hk
    rfl

theorem CrawlRecords.append_keys (h : CrawlRecords server port out) {r : ParserEntry}
    (hlast : out.getLast? = some r) (hr : cseIsDoc r.core.flags = true ∨ cseIsKey r.core.flags = true)
    {keys : List ParserEntry} (hkeys : ∀ k ∈ keys, k.core.flags = 0x08) :
    CrawlRecords server port (out ++ keys) := by
  induction keys generalizing out r with
  | nil =>
    rw [List.append_nil]
    exact h
  | cons k keys ih =>
    have hk := hkeys k List.mem_cons_self
    have hnext := h.key hlast hr hk
    rw [← List.singleton_append, ← List.append_assoc]
    exact ih hnext List.getLast?_concat (.inr (by rw [hk]; decide))
      fun k hk => hkeys k (List.mem_cons_of_mem _ hk)

/-! ### Entries -/

theorem entryFlags_kind (which : ℕ) (state behind : List UInt8) :
    WebKind (entryFlags which state behind) ∧ cseIsParent (entryFlags which state behind) = false ∧
      cseIsKey (entryFlags which state behind) = false := by
  have hcases : entryFlags which state behind = 0x40 ∨ entryFlags which state behind = 0 ∨
      entryFlags which state behind = 0x41 ∨ entryFlags which state behind = 0x01 := by
    rw [entryFlags]
    split
    · split <;> simp
    · split <;> simp
  rcases hcases with h | h | h | h <;> rw [h] <;>
    exact ⟨.entry (by decide) (by decide) (by decide), by decide, by decide⟩

/-- An entry and its keywords are added. -/
theorem outputEntry_crawlRecords (hkeys : inp.KeysFlagged) (h : CrawlRecords server port s.out)
    {buff behind : List UInt8} (hport : Below s.out ∨ buff = port)
    (houtput : outputEntry inp which parent row buff behind s = some s') :
    CrawlRecords server port s'.out ∧ EntryAt s'.out s.out.length := by
  obtain ⟨hkind, hparent, hkey⟩ := entryFlags_kind which row.shrec.state behind
  have hentry : ∀ (r : ParserEntry) (keys : List ParserEntry),
      r.IsEntry → EntryAt (s.out ++ r :: keys) s.out.length := fun r keys hr => ⟨r, by simp, hr⟩
  rw [outputEntry] at houtput
  dsimp only at houtput
  split at houtput
  next hdoc =>
    rw [Option.bind_eq_bind, Option.bind_eq_some_iff] at houtput
    obtain ⟨⟨size, date, rdate⟩, -, houtput⟩ := houtput
    rw [Option.bind_eq_bind, Option.bind_eq_some_iff] at houtput
    obtain ⟨keys, hrow, houtput⟩ := houtput
    rw [← Option.some.inj houtput]
    refine ⟨?_, hentry _ _ ⟨hparent, hkey⟩⟩
    dsimp only
    rw [← List.singleton_append, ← List.append_assoc]
    exact (h.entry (r := ⟨⟨size, date, parent, 0, s.excerptRecno, _, rdate⟩, buff⟩) hkind
      ⟨hparent, hkey⟩ hport).append_keys List.getLast?_concat (.inl hdoc) (rowKeys_flags hkeys hrow)
  next =>
    rw [← Option.some.inj houtput]
    exact ⟨h.entry hkind ⟨hparent, hkey⟩ hport, hentry _ _ ⟨hparent, hkey⟩⟩

theorem outputEntry_grows {buff behind : List UInt8}
    (h : outputEntry inp which parent row buff behind s = some s') : s.out <+: s'.out := by
  rw [outputEntry] at h
  dsimp only at h
  split at h
  · rw [Option.bind_eq_bind, Option.bind_eq_some_iff] at h
    obtain ⟨⟨size, date, rdate⟩, -, h⟩ := h
    rw [Option.bind_eq_bind, Option.bind_eq_some_iff] at h
    obtain ⟨keys, -, h⟩ := h
    rw [← Option.some.inj h]
    exact List.prefix_append _ _
  · rw [← Option.some.inj h]
    exact List.prefix_append _ _

/-- What is written stays, and the rows keep their urls. -/
theorem listRows_grows {l start : ℕ} {rows rows' : List WebRow} {bb : List UInt8}
    (h : listRows inp which parent l start rows bb s = some (rows', s')) :
    s.out <+: s'.out ∧ rows'.map WebRow.toSubHeaderInfo = rows.map WebRow.toSubHeaderInfo := by
  induction rows generalizing bb s s' rows' with
  | nil =>
    rw [listRows, Option.some.injEq, Prod.mk.injEq] at h
    rw [← h.1, ← h.2]
    exact ⟨List.prefix_rfl, rfl⟩
  | cons row rows ih =>
    rw [listRows] at h
    dsimp only at h
    split at h
    · rw [Option.bind_eq_bind, Option.bind_eq_some_iff] at h
      obtain ⟨s₁, hs₁, h⟩ := h
      rw [Option.bind_eq_bind, Option.bind_eq_some_iff] at h
      obtain ⟨⟨rows₁, s₂⟩, hrows₁, h⟩ := h
      rw [Option.some.injEq, Prod.mk.injEq] at h
      obtain ⟨hgrows, hmap⟩ := ih hrows₁
      rw [← h.1, ← h.2, List.map_cons, hmap]
      exact ⟨(outputEntry_grows hs₁).trans hgrows, rfl⟩
    · rw [Option.bind_eq_bind, Option.bind_eq_some_iff] at h
      obtain ⟨⟨rows₁, s₂⟩, hrows₁, h⟩ := h
      rw [Option.some.injEq, Prod.mk.injEq] at h
      obtain ⟨hgrows, hmap⟩ := ih hrows₁
      rw [← h.1, ← h.2, List.map_cons, hmap]
      exact ⟨hgrows, rfl⟩

/-- The entries of the rows are added, and the rows lead to them. -/
theorem listRows_crawlRecords (hkeys : inp.KeysFlagged) {l start : ℕ} {rows rows' : List WebRow}
    {bb : List UInt8} (h : CrawlRecords server port s.out)
    (hrows : ∀ row ∈ rows, EntryAt s.out row.recNo)
    (hport : Below s.out ∨ ∀ row ∈ rows, row.part start = port)
    (hlist : listRows inp which parent l start rows bb s = some (rows', s')) :
    CrawlRecords server port s'.out ∧ ∀ row ∈ rows', EntryAt s'.out row.recNo := by
  induction rows generalizing bb s s' rows' with
  | nil =>
    rw [listRows, Option.some.injEq, Prod.mk.injEq] at hlist
    rw [← hlist.1, ← hlist.2]
    exact ⟨h, fun row hrow => absurd hrow List.not_mem_nil⟩
  | cons row rows ih =>
    rw [listRows] at hlist
    dsimp only at hlist
    split at hlist
    · rw [Option.bind_eq_bind, Option.bind_eq_some_iff] at hlist
      obtain ⟨s₁, hs₁, hlist⟩ := hlist
      rw [Option.bind_eq_bind, Option.bind_eq_some_iff] at hlist
      obtain ⟨⟨rows₁, s₂⟩, hrows₁, hlist⟩ := hlist
      rw [Option.some.injEq, Prod.mk.injEq] at hlist
      have hgrows := outputEntry_grows hs₁
      obtain ⟨hrecords, hentry⟩ := outputEntry_crawlRecords hkeys h
        (hport.imp_right fun hall => hall row List.mem_cons_self) hs₁
      obtain ⟨hrecords₂, hrows₂⟩ := ih hrecords
        (fun row hrow => (hrows row (List.mem_cons_of_mem _ hrow)).mono hgrows)
        (hport.imp (fun hbelow => hbelow.mono hgrows) fun hall row hrow =>
          hall row (List.mem_cons_of_mem _ hrow)) hrows₁
      rw [← hlist.1, ← hlist.2]
      refine ⟨hrecords₂, fun row' hrow' => ?_⟩
      rcases List.mem_cons.mp hrow' with rfl | hrow'
      · exact hentry.mono (listRows_grows hrows₁).1
      · exact hrows₂ row' hrow'
    · rw [Option.bind_eq_bind, Option.bind_eq_some_iff] at hlist
      obtain ⟨⟨rows₁, s₂⟩, hrows₁, hlist⟩ := hlist
      rw [Option.some.injEq, Prod.mk.injEq] at hlist
      obtain ⟨hrecords₂, hrows₂⟩ := ih h (fun row hrow => hrows row (List.mem_cons_of_mem _ hrow))
        (hport.imp_right fun hall row hrow => hall row (List.mem_cons_of_mem _ hrow)) hrows₁
      rw [← hlist.1, ← hlist.2]
      refine ⟨hrecords₂, fun row' hrow' => ?_⟩
      rcases List.mem_cons.mp hrow' with rfl | hrow'
      · exact (hrows row' List.mem_cons_self).mono (listRows_grows hrows₁).1
      · exact hrows₂ row' hrow'

/-! ### `process_list` -/

/-- A call for some of the rows, with the entry of the first one as the directory. -/
def Call (inp : RecurseInput) (fuel which : ℕ) (rows : List WebRow) (s s' : RecurseState) : Prop :=
  ∃ row run, (∀ row' ∈ row :: run, row' ∈ rows) ∧
    processList inp fuel which row.recNo (row :: run) s = some s'

theorem recurseRuns_calls {fuel start : ℕ} {rows : List WebRow} {runs : List (List WebRow)}
    (hruns : ∀ run ∈ runs, ∀ row ∈ run, row ∈ rows)
    (h : recurseRuns (fun run s => match run with
      | [] => some s
      | row :: _ => processList inp fuel which row.recNo run s) start runs s = some s') :
    Relation.ReflTransGen (Call inp fuel which rows) s s' := by
  have hrun : ∀ run ∈ runs, ∀ a b : RecurseState, (match run with
      | [] => some a
      | row :: _ => processList inp fuel which row.recNo run a) = some b →
        Relation.ReflTransGen (Call inp fuel which rows) a b := by
    intro run hmem a b hab
    cases run with
    | nil =>
      rw [Option.some.inj hab]
    | cons row run => exact .single ⟨row, run, hruns _ hmem, hab⟩
  induction runs generalizing s with
  | nil =>
    rw [recurseRuns, Option.some.injEq] at h
    rw [h]
  | cons run runs ih =>
    cases runs with
    | nil => exact hrun run List.mem_cons_self s s' h
    | cons run' runs =>
      have hrest := fun (a : RecurseState) => ih (s := a)
        (fun run hmem => hruns run (List.mem_cons_of_mem _ hmem))
      rw [recurseRuns] at h
      · split at h
        · rw [Option.bind_eq_bind, Option.bind_eq_some_iff] at h
          obtain ⟨s₁, hs₁, h⟩ := h
          exact .trans (hrun run List.mem_cons_self s s₁ hs₁)
            (hrest s₁ h fun run hmem => hrun run (List.mem_cons_of_mem _ hmem))
        · exact hrest s h fun run hmem => hrun run (List.mem_cons_of_mem _ hmem)
      · simp

/-- **What a round of `process_list` does**: it ends; or it writes a heading and entries, and goes into
directories. -/
theorem processList_cases {fuel : ℕ} {rest : List WebRow}
    (h : processList inp (fuel + 1) which parent (row :: rest) s = some s') :
    findChar 47 which row.strip.localUrl = row.strip.localUrl.length ∧ s' = s ∨
      ∃ l s₁ rows s₂, l = headEnd which row.strip.localUrl ∧
        outputHeading which parent row.strip.localUrl l s = some s₁ ∧
        listRows inp which parent l (l + dispAt row.strip.localUrl l) (row.strip :: rest)
          (row.strip.localUrl.take l) s₁ = some (rows, s₂) ∧
        Relation.ReflTransGen (Call inp fuel (which + 1) rows) s₂ s' := by
  rw [processList] at h
  dsimp only at h
  split at h
  next hend => exact .inl ⟨hend.1, (Option.some.inj h).symm⟩
  · rw [Option.bind_eq_bind, Option.bind_eq_some_iff] at h
    obtain ⟨s₁, hs₁, h⟩ := h
    rw [Option.bind_eq_bind, Option.bind_eq_some_iff] at h
    obtain ⟨⟨rows, s₂⟩, hrows, h⟩ := h
    refine .inr ⟨_, s₁, rows, s₂, rfl, hs₁, hrows, ?_⟩
    dsimp only at h
    split at h
    next row' =>
      split at h
      · exact .single ⟨row', [], fun r hr => hr, h⟩
      · rw [Option.some.inj h]
    next =>
      refine recurseRuns_calls (fun run hrun r hr => ?_) h
      rw [← List.flatten_splitBy (fun a b : WebRow => a.part _ == b.part _) rows]
      exact List.mem_flatten_of_mem hrun hr

theorem outputHeading_grows {url : List UInt8} {l : ℕ}
    (h : outputHeading which parent url l s = some s') : s.out <+: s'.out := by
  rw [outputHeading] at h
  split at h
  · rw [Option.some.inj h]
  · rw [Option.bind_eq_bind, Option.bind_eq_some_iff] at h
    obtain ⟨name, -, h⟩ := h
    rw [← Option.some.inj h]
    exact List.prefix_append _ _

theorem calls_grows {fuel : ℕ} {rows : List WebRow}
    (hone : ∀ {parent : ℤ} {rows : List WebRow} {s s' : RecurseState},
      processList inp fuel which parent rows s = some s' → s.out <+: s'.out)
    (h : Relation.ReflTransGen (Call inp fuel which rows) s s') : s.out <+: s'.out := by
  induction h with
  | refl => exact List.prefix_rfl
  | tail _ hcall ih =>
    obtain ⟨row, run, -, hcall⟩ := hcall
    exact ih.trans (hone hcall)

/-- What is written stays. -/
theorem processList_grows {fuel : ℕ} {rows : List WebRow}
    (h : processList inp fuel which parent rows s = some s') : s.out <+: s'.out := by
  induction fuel generalizing which parent rows s s' with
  | zero => exact absurd h (by simp [processList])
  | succ fuel ih =>
    cases rows with
    | nil => exact absurd h (by simp [processList])
    | cons row rest =>
      rcases processList_cases h with ⟨-, rfl⟩ | ⟨l, s₁, rows, s₂, -, hs₁, hrows, hcalls⟩
      · exact List.prefix_rfl
      · refine ((outputHeading_grows hs₁).trans (listRows_grows hrows).1).trans ?_
        exact calls_grows ih hcalls

/-- Calls that find the records and the rows as they should be leave them so. -/
theorem calls_crawlRecords {fuel : ℕ} {rows : List WebRow}
    (hone : ∀ {p : ℕ} {rows : List WebRow} {s s' : RecurseState}, CrawlRecords server port s.out →
      EntryAt s.out p → (∀ row ∈ rows, EntryAt s.out row.recNo) →
      processList inp fuel which p rows s = some s' → CrawlRecords server port s'.out)
    (hs : CrawlRecords server port s.out) (hrows : ∀ row ∈ rows, EntryAt s.out row.recNo)
    (h : Relation.ReflTransGen (Call inp fuel which rows) s s') : CrawlRecords server port s'.out := by
  induction h with
  | refl => exact hs
  | tail hcalls hcall ih =>
    have hgrows := calls_grows processList_grows hcalls
    obtain ⟨row, run, hmem, hcall⟩ := hcall
    exact hone ih ((hrows row (hmem row List.mem_cons_self)).mono hgrows)
      (fun r hr => (hrows r (hmem r hr)).mono hgrows) hcall

/-- The directories below the port. -/
theorem processList_crawlRecords (hkeys : inp.KeysFlagged) {fuel : ℕ} {rows : List WebRow} {p : ℕ}
    (hwhich : 2 < which) (h : CrawlRecords server port s.out) (hp : EntryAt s.out p)
    (hrows : ∀ row ∈ rows, EntryAt s.out row.recNo)
    (hprocess : processList inp fuel which p rows s = some s') : CrawlRecords server port s'.out := by
  induction fuel generalizing which p rows s s' with
  | zero => exact absurd hprocess (by simp [processList])
  | succ fuel ih =>
    cases rows with
    | nil => exact absurd hprocess (by simp [processList])
    | cons row rest =>
      rcases processList_cases hprocess with ⟨-, rfl⟩ | ⟨l, s₁, rows, s₂, -, hs₁, hlist, hcalls⟩
      · exact h
      · have hgrows := outputHeading_grows hs₁
        rw [outputHeading, if_neg (by omega), Option.bind_eq_bind, Option.bind_eq_some_iff] at hs₁
        obtain ⟨name, -, hs₁⟩ := hs₁
        have hflags : headingFlags which = 0x10 ∨ headingFlags which = 0x04 := by
          rw [headingFlags, if_neg (by omega)]
          split <;> simp
        have hrecords : CrawlRecords server port s₁.out := by
          rw [← Option.some.inj hs₁]
          exact h.heading hflags rfl hp
        have hbelow : Below s₁.out := by
          refine ⟨s.out.length, ⟨⟨0, 0, p, 0, 0, headingFlags which, 0⟩, name⟩, h.two_le, ?_, ?_⟩
          · rw [← Option.some.inj hs₁]
            exact List.getElem?_concat_length
          · show cseIsParent (headingFlags which) = true
            rcases hflags with hflags | hflags <;> rw [hflags] <;> decide
        have hstrip : ∀ row' ∈ row.strip :: rest, EntryAt s₁.out row'.recNo := by
          intro row' hrow'
          refine EntryAt.mono ?_ hgrows
          rcases List.mem_cons.mp hrow' with rfl | hrow'
          · have hsame : row.strip.recNo = row.recNo := by
              rw [WebRow.strip]
              split <;> rfl
            rw [hsame]
            exact hrows row List.mem_cons_self
          · exact hrows row' (List.mem_cons_of_mem _ hrow')
        obtain ⟨hrecords₂, hrows₂⟩ := listRows_crawlRecords hkeys hrecords hstrip (.inl hbelow) hlist
        exact calls_crawlRecords (fun hs hentry hall hcall => ih (by omega) hs hentry hall hcall)
          hrecords₂ hrows₂ hcalls

/-! ### The server and the port -/

theorem findChar_append {w : List UInt8} (hw : 47 ∉ w) (n : ℕ) (rest : List UInt8) :
    findChar 47 n (w ++ rest) = w.length + findChar 47 n rest := by
  induction w with
  | nil => rw [List.nil_append, List.length_nil, Nat.zero_add]
  | cons c w ih =>
    have hc : c ≠ 47 := fun h => hw (h ▸ List.mem_cons_self)
    rw [List.cons_append, findChar, if_neg hc, ih fun h => hw (List.mem_cons_of_mem _ h), List.length_cons]
    omega

/-- The next `/` is at the end of a name. -/
theorem findChar_name {w rest : List UInt8} (hw : 47 ∉ w) (hrest : rest = [] ∨ rest.head? = some 47) :
    findChar 47 1 (w ++ rest) = w.length := by
  have hzero : findChar 47 1 rest = 0 := by
    rcases hrest with rfl | hhead
    · rfl
    · cases rest with
      | nil => rfl
      | cons c rest =>
        rw [List.head?_cons, Option.some.injEq] at hhead
        rw [findChar, if_pos hhead, if_pos rfl]
  rw [findChar_append hw, hzero, Nat.add_zero]

/-- The url `/server/port/path` of a row. -/
def RowOf (server port : List UInt8) (row : SubHeaderInfo) : Prop :=
  ∃ path, (path = [] ∨ path.head? = some 47) ∧ row.localUrl = 47 :: (server ++ 47 :: (port ++ path))

theorem RowOf.strip (h : RowOf server port row.toSubHeaderInfo) (hne : port ≠ [])
    (hslash : 47 ∉ port) : RowOf server port row.strip.toSubHeaderInfo := by
  rw [WebRow.strip]
  split
  next hlast =>
    obtain ⟨path, hpath, hurl⟩ := h
    have hsplit : row.localUrl = 47 :: (server ++ 47 :: port) ++ path := by rw [hurl]; simp
    by_cases hnil : path = []
    · rw [hsplit, hnil, List.append_nil, List.getLast?_cons, List.getLast?_append, List.getLast?_cons,
        List.getLast?_eq_some_getLast hne] at hlast
      have heq : port.getLast hne = 47 := by simpa using hlast.2
      exact absurd (heq ▸ List.getLast_mem hne) hslash
    · refine ⟨path.dropLast, ?_, ?_⟩
      · cases path with
        | nil => exact absurd rfl hnil
        | cons c path =>
          cases path with
          | nil => exact .inl rfl
          | cons d path => exact .inr (hpath.resolve_left hnil)
      · show row.localUrl.dropLast = _
        rw [hsplit, List.dropLast_append_of_ne_nil hnil]
        simp
  · exact h

/-- The name of the server, in a row. -/
theorem RowOf.part_server (h : RowOf server port row.toSubHeaderInfo) (hserver : 47 ∉ server) :
    row.part 1 = server ∧ ∃ path, row.behind 1 = 47 :: (port ++ path) := by
  obtain ⟨path, -, hurl⟩ := h
  have hfind := @findChar_name _ (47 :: (port ++ path)) hserver (.inr rfl)
  rw [WebRow.part, WebRow.behind, hurl, List.drop_succ_cons, List.drop_zero, hfind, List.take_left,
    List.drop_left]
  exact ⟨rfl, path, rfl⟩

/-- The port, in a row. -/
theorem RowOf.part_port (h : RowOf server port row.toSubHeaderInfo) (hslash : 47 ∉ port) :
    row.part (server.length + 2) = port := by
  obtain ⟨path, hpath, hurl⟩ := h
  have hdrop : row.localUrl.drop (server.length + 2) = port ++ path := by
    rw [hurl, List.drop_succ_cons, List.drop_append, Nat.add_sub_cancel_left,
      List.drop_eq_nil_of_le (Nat.le_succ _)]
    rfl
  rw [WebRow.part, hdrop, findChar_name hslash hpath, List.take_left]

theorem RowOf.headEnd_two (h : RowOf server port row.toSubHeaderInfo) (hserver : 47 ∉ server)
    (hne : port ≠ []) : findChar 47 2 row.localUrl ≠ row.localUrl.length ∧
      headEnd 2 row.localUrl = server.length + 2 ∧ dispAt row.localUrl (server.length + 2) = 0 := by
  obtain ⟨path, -, hurl⟩ := h
  have hfind : findChar 47 2 row.localUrl = server.length + 1 := by
    rw [hurl, findChar, if_pos rfl, if_neg (by decide), show 2 - 1 = 1 from rfl,
      findChar_name hserver (.inr rfl)]
  have hpos := List.length_pos_of_ne_nil hne
  have hlength : row.localUrl.length = server.length + 2 + (port.length + path.length) := by
    rw [hurl]
    simp only [List.length_cons, List.length_append]
    omega
  refine ⟨by omega, ?_, ?_⟩
  · rw [headEnd, hfind, if_neg (by omega)]
  · rw [dispAt, if_neg (by omega)]

end

end Archie
