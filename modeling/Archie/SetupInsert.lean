/-
Making a site file of the records of a parser (`anonftp/update/setup_insert.c`:
`count_extra_recs`, `setup_insert`).

Each run of entries of one directory is preceded by a record for that directory,
and the first one by the records for the root of the site and its name.  Two
arrays translate the indices of the input to record numbers.

* `setupInsert` — the function, with the writes to its three arrays checked.
* `Layout` — the site file of a list of records, added one by one.
* `setupInsertLoop_layout` — the loop makes exactly this file, as long as there
  is room.
-/
import Mathlib.Data.Finset.Card
import Mathlib.Data.List.GetD
import Mathlib.Data.List.Induction
import Archie.SiteFile

namespace Archie

/-! ### Parser records and headers -/

/-- `core_site_entry_t`. -/
structure CoreSiteEntry where
  size : ℕ
  date : ℕ
  parentIdx : ℤ
  childIdx : ℤ
  perms : ℕ
  flags : ℕ
  rdate : ℕ
  deriving DecidableEq, Repr

/-- `parser_entry_t` with the string behind it, whose length is its `slen`. -/
structure ParserEntry where
  core : CoreSiteEntry
  name : List UInt8
  deriving DecidableEq, Repr

/-- `header_t`, as far as it is read here. -/
structure Header where
  headerFlags : ℕ
  noRecs : ℕ
  siteNoRecs : ℕ
  primaryHostname : List UInt8
  preferredHostname : List UInt8
  deriving DecidableEq, Repr

def hdrGetPrimaryHostname (flags : ℕ) : Bool := flags &&& 0x8 != 0

def hdrGetPreferredHostname (flags : ℕ) : Bool := flags &&& 0x10 != 0

def hdrGetSiteNoRecs (flags : ℕ) : Bool := flags &&& 0x100000 != 0

/-- A strings database, as `archAppendKey` and `archGetString` show it. -/
structure StringsDb where
  appendKey : List UInt8 → ℤ
  getString : ℤ → Option (List UInt8)

/-- The database returns the string under the offset that it gave for it. -/
def StringsDb.Faithful (db : StringsDb) (name : List UInt8) : Prop :=
  0 ≤ db.appendKey name ∧ db.getString (db.appendKey name) = some name

/-! ### `count_extra_recs` -/

/-- `count_extra_recs`. -/
def countExtraRecs (recs : List ParserEntry) (header : Header) : Header :=
  if hdrGetSiteNoRecs header.headerFlags then header
  else
    let extraRecs := (recs.take header.noRecs).foldl
      (fun extraRecs r => if cseIsDir r.core.flags then extraRecs + 1 else extraRecs) 3
    { header with
      headerFlags := header.headerFlags ||| 0x100000
      siteNoRecs := header.noRecs + extraRecs }

/-! ### `setup_insert` -/

/-- A record of a zeroed array. -/
def zeroEntry : SiteEntry := ⟨0, 0, .entry 0 0 0 0⟩

/-- The variables of `setup_insert`.  A cell of `outlist` or `rec_numbers` that was
not written has no value. -/
structure InsertState where
  outArray : List SiteEntry
  outlist : List (Option ℤ)
  recNumbers : List (Option ℤ)
  currRecno : ℕ
  prevPrntDir : ℤ
  currPrntDir : ℤ
  web : Bool
  extraRecs : ℕ
  inputString : List UInt8
  deriving DecidableEq, Repr

/-- A write to a record of `out_array`; there is no result past the array. -/
def setRec (out : List SiteEntry) (i : ℕ) (f : SiteEntry → SiteEntry) : Option (List SiteEntry) :=
  if i < out.length then some (out.modify i f) else none

/-- A write to a cell of `outlist` or `rec_numbers`. -/
def setCell (l : List (Option ℤ)) (i : ℕ) (v : ℤ) : Option (List (Option ℤ)) :=
  if i < l.length then some (l.set i (some v)) else none

/-- A read of a cell that was written. -/
def readCell (l : List (Option ℤ)) (i : ℤ) : Option ℤ :=
  if 0 ≤ i then l[i.toNat]?.join else none

/-- `rdate` of the union, which `setup_insert` leaves as it finds it. -/
def SiteCore.rdate : SiteCore → ℕ
  | .entry _ _ _ rdate => rdate
  | _ => 0

/-- The name of the site as it is copied to `input_string`. -/
def hostString (header : Header) (inputString : List UInt8) : List UInt8 :=
  if hdrGetPreferredHostname header.headerFlags then header.preferredHostname
  else if hdrGetPrimaryHostname header.headerFlags then header.primaryHostname
  else inputString

variable (db : StringsDb)

/-- The records for the name of the site: an entry of the root directory, and the
directory that it stands for. -/
def insertHost (r : ParserEntry) (s : InsertState) : Option InsertState := do
  let outlist ← setCell s.outlist s.currRecno 0
  let out ← setRec s.outArray s.currRecno fun e =>
    { e with flags := e.flags ||| 0x01, strt1 := db.appendKey s.inputString }
  let next := s.currRecno + 1
  let outlist ← setCell outlist next 0
  let out ← setRec out next fun e => { e with
    flags := e.flags ||| 0x20, strt1 := s.currPrntDir, core := .prntEntry (next - 1 : ℕ) }
  some { s with
    outArray := out, outlist := outlist, prevPrntDir := r.core.parentIdx, currPrntDir := next
    currRecno := next + 1, extraRecs := s.extraRecs + 2 }

/-- The record for the directory whose entries follow. -/
def insertDirectory (header : Header) (r : ParserEntry) (s : InsertState) : Option InsertState := do
  let outlist ← setCell s.outlist s.currRecno s.currPrntDir
  if 0 ≤ r.core.parentIdx then
    let strt2 ← readCell s.recNumbers r.core.parentIdx
    let strt1 ← readCell outlist strt2
    let out ← setRec s.outArray s.currRecno fun e => { e with
      flags := e.flags ||| 0x04, strt1 := strt1, core := .prntEntry strt2 }
    some { s with
      outArray := out, outlist := outlist, currPrntDir := s.currRecno
      prevPrntDir := r.core.parentIdx, currRecno := s.currRecno + 1, extraRecs := s.extraRecs + 1 }
  else
    let out ← setRec s.outArray s.currRecno fun e => { e with
      flags := e.flags ||| 0x04, strt1 := -1, core := .prntEntry (-1) }
    let s := { s with
      outArray := out, outlist := outlist, currPrntDir := s.currRecno
      prevPrntDir := r.core.parentIdx, currRecno := s.currRecno + 1, extraRecs := s.extraRecs + 1
      inputString := hostString header s.inputString }
    if s.currRecno = 1 ∧ s.inputString ≠ [] then insertHost db r s else some s

/-- The record for an entry of the input. -/
def insertEntry (r : ParserEntry) (s : InsertState) : Option InsertState := do
  let flags := r.core.flags
  let outlist ← setCell s.outlist s.currRecno s.currPrntDir
  let out ← setRec s.outArray s.currRecno fun e => { e with strt1 := db.appendKey r.name }
  let s := { s with outArray := out, outlist := outlist, inputString := r.name }
  if cseIsFile flags || cseIsLink flags || cseIsDoc flags || cseIsDir flags then
    let out ← setRec s.outArray s.currRecno fun e => { e with
      flags := flags, core := .entry r.core.size r.core.date r.core.perms e.core.rdate }
    let recNumbers ← setCell s.recNumbers (s.currRecno - s.extraRecs) s.currRecno
    some { s with outArray := out, recNumbers := recNumbers }
  else if cseIsKey flags then
    -- the flags of a keyword are not copied; its weight is in units of `1 / MAXINT`
    let out ← setRec s.outArray s.currRecno fun e => { e with core := .kwrd r.core.size }
    some { s with outArray := out }
  else some s

/-- The directory that a record is in, before its own record is made.  A record of
the input that is itself the record of a directory is that of a web site. -/
def enterDirectory (header : Header) (r : ParserEntry) (s : InsertState) : Option InsertState :=
  if !cseIsParent r.core.flags then
    if !s.web && r.core.parentIdx != s.prevPrntDir then insertDirectory db header r s else some s
  else some { s with currPrntDir := s.currRecno, prevPrntDir := r.core.parentIdx, web := true }

/-- One round of the loop. -/
def insertRecord (header : Header) (r : ParserEntry) (s : InsertState) : Option InsertState := do
  let s ← enterDirectory db header r s
  let s ← insertEntry db r s
  some { s with currRecno := s.currRecno + 1 }

/-- The loop of `setup_insert`, with the records that are not read.  A record
without a name is not passed over: the loop counts up to the end of the array. -/
def setupInsertLoop (header : Header) :
    List ParserEntry → InsertState → Option (List ParserEntry × InsertState)
  | [], s => some ([], s)
  | r :: recs, s =>
    if s.currRecno < header.siteNoRecs then
      if r.name = [] then some (r :: recs, { s with currRecno := header.siteNoRecs })
      else do
        let s ← insertRecord db header r s
        setupInsertLoop header recs s
    else some (r :: recs, s)

/-- `setup_insert`: the array, `out_rec_no` and the records that were not read.
`unset` is what `input_string` holds before anything is copied to it. -/
def setupInsert (unset : List UInt8) (header : Header) (recs : List ParserEntry)
    (outArray : List SiteEntry) : Option (List SiteEntry × ℕ × List ParserEntry) := do
  let (rest, s) ← setupInsertLoop db header recs
    { outArray := outArray
      outlist := List.replicate header.siteNoRecs none
      recNumbers := List.replicate header.siteNoRecs none
      currRecno := 0, prevPrntDir := -2, currPrntDir := -1, web := false, extraRecs := 0
      inputString := unset }
  some (s.outArray, s.currRecno, rest)

/-! ### The site file of a list of records -/

/-- The record of a file, directory or link. -/
def entryOf (r : ParserEntry) : SiteEntry :=
  ⟨r.core.flags, db.appendKey r.name, .entry r.core.size r.core.date r.core.perms 0⟩

/-- The record of a directory whose entries follow. -/
def subpathRec (strt1 strt2 : ℤ) : SiteEntry := ⟨0x04, strt1, .prntEntry strt2⟩

@[simp] theorem cseIsParent_subpathRec (strt1 strt2 : ℤ) :
    cseIsParent (subpathRec strt1 strt2).flags = true :=
  (by decide : cseIsParent 0x04 = true)

/-- The records for the root of a site and its name. -/
def hostRecs (host : List UInt8) : List SiteEntry :=
  [subpathRec (-1) (-1), ⟨0x01, db.appendKey host, .entry 0 0 0 0⟩, ⟨0x20, 0, .prntEntry 1⟩]

/-- A site file, with the record of the directory that each of its records is in
(`mains`), the record numbers of the entries (`places`), and the directory, by its
index in the input (`prev`) and by its record (`main`), that the last entry is in. -/
structure Layout where
  file : List SiteEntry
  mains : List ℤ
  places : List ℕ
  prev : ℤ
  main : ℕ
  deriving DecidableEq, Repr

namespace Layout

def start (host : List UInt8) : Layout where
  file := hostRecs db host
  mains := [-1, 0, 0]
  places := []
  prev := -1
  main := 2

/-- The record number of an entry. -/
def place (L : Layout) (i : ℕ) : ℕ := L.places.getD i 0

/-- The record of the directory that a record is in. -/
def mainOf (L : Layout) (k : ℕ) : ℤ := L.mains.getD k 0

/-- Go to another directory. -/
def enter (L : Layout) (p : ℤ) : Layout :=
  if p = L.prev then L
  else
    { L with
      file := L.file ++ [subpathRec (L.mainOf (L.place p.toNat)) (L.place p.toNat)]
      mains := L.mains ++ [(L.main : ℤ)]
      prev := p
      main := L.file.length }

/-- Add an entry of the directory that the file is in. -/
def addEntry (L : Layout) (r : ParserEntry) : Layout :=
  { L with
    file := L.file ++ [entryOf db r]
    mains := L.mains ++ [(L.main : ℤ)]
    places := L.places ++ [L.file.length] }

def add (L : Layout) (r : ParserEntry) : Layout := (L.enter r.core.parentIdx).addEntry db r

end Layout

/-- The site file of a list of records. -/
def layout (host : List UInt8) (recs : List ParserEntry) : Layout :=
  recs.foldl (Layout.add db) (Layout.start db host)

/-- The records of the array after `setup_insert`. -/
def siteFile (host : List UInt8) (recs : List ParserEntry) : List SiteEntry :=
  if recs = [] then [] else (layout db host recs).file

theorem layout_append_singleton (host : List UInt8) (recs : List ParserEntry) (r : ParserEntry) :
    layout db host (recs ++ [r]) = (layout db host recs).add db r := by
  rw [layout, List.foldl_append]
  rfl

/-! ### The arrays of the loop -/

theorem setRec_end (done : List SiteEntry) (k : ℕ) (f : SiteEntry → SiteEntry) :
    setRec (done ++ List.replicate (k + 1) zeroEntry) done.length f =
      some (done ++ [f zeroEntry] ++ List.replicate k zeroEntry) := by
  rw [setRec, if_pos (by simp), List.modify_eq_set_getElem?]
  simp [List.replicate_succ]

theorem setRec_last (done : List SiteEntry) (e : SiteEntry) (rest : List SiteEntry)
    (f : SiteEntry → SiteEntry) :
    setRec (done ++ [e] ++ rest) done.length f = some (done ++ [f e] ++ rest) := by
  rw [setRec, if_pos (by simp), List.modify_eq_set_getElem?]
  simp

theorem setCell_end (done : List (Option ℤ)) (k : ℕ) (v : ℤ) :
    setCell (done ++ List.replicate (k + 1) none) done.length v =
      some (done ++ [some v] ++ List.replicate k none) := by
  rw [setCell, if_pos (by simp)]
  simp [List.replicate_succ]

theorem readCell_done {l : List ℤ} {i : ℕ} (hi : i < l.length) (rest : List (Option ℤ)) :
    readCell (l.map some ++ rest) i = some (l.getD i 0) := by
  rw [readCell, if_pos (Int.natCast_nonneg i), Int.toNat_natCast,
    List.getElem?_append_left (by simpa using hi)]
  simp [hi]

variable {db}

/-- The variables of the loop, when they hold a site file. -/
structure HoldsLayout (n : ℕ) (L : Layout) (s : InsertState) : Prop where
  outArray : s.outArray = L.file ++ List.replicate (n - L.file.length) zeroEntry
  outlist : s.outlist = L.mains.map some ++ List.replicate (n - L.file.length) none
  recNumbers : s.recNumbers =
    (L.places.map ((↑) : ℕ → ℤ)).map some ++ List.replicate (n - L.places.length) none
  currRecno : s.currRecno = L.file.length
  prev : s.prevPrntDir = L.prev
  main : s.currPrntDir = L.main
  web : s.web = false
  extraRecs : s.extraRecs + L.places.length = L.file.length
  mains : L.mains.length = L.file.length

/-- What the flags of a file, directory or link are. -/
theorem plain_flags {flags : ℕ} (h : flags < 4) : cseIsParent flags = false ∧
    (cseIsFile flags || cseIsLink flags || cseIsDoc flags || cseIsDir flags) = true := by
  have hcases : flags = 0 ∨ flags = 1 ∨ flags = 2 ∨ flags = 3 := by omega
  rcases hcases with rfl | rfl | rfl | rfl <;> decide

/-- An entry is added to the directory that the file is in. -/
theorem insertEntry_matches {n : ℕ} {L : Layout} {s : InsertState} (hs : HoldsLayout n L s)
    (hn : L.file.length < n) {r : ParserEntry} (hflags : r.core.flags < 4) :
    ∃ s', insertEntry db r s = some s' ∧
      HoldsLayout n (L.addEntry db r) { s' with currRecno := s'.currRecno + 1 } := by
  obtain ⟨k, hk⟩ : ∃ k, n - L.file.length = k + 1 := ⟨n - L.file.length - 1, by omega⟩
  obtain ⟨k', hk'⟩ : ∃ k', n - L.places.length = k' + 1 := by
    have hle := hs.extraRecs
    exact ⟨n - L.places.length - 1, by omega⟩
  have houtlist := setCell_end (L.mains.map some) k L.main
  rw [List.length_map, hs.mains] at houtlist
  have hrec := setCell_end ((L.places.map ((↑) : ℕ → ℤ)).map some) k' (L.file.length : ℤ)
  rw [List.length_map, List.length_map] at hrec
  have hextra := hs.extraRecs
  have hplace : L.file.length - s.extraRecs = L.places.length := by omega
  rw [insertEntry]
  simp only [hs.outArray, hs.outlist, hs.recNumbers, hs.currRecno, hs.main, hk, hk', houtlist,
    setRec_end, setRec_last, Option.bind_eq_bind, Option.bind_some, (plain_flags hflags).2, if_true]
  rw [hplace, hrec]
  refine ⟨_, rfl, ?_⟩
  exact {
    outArray := by
      simp [Layout.addEntry, entryOf, zeroEntry, SiteCore.rdate]
      omega
    outlist := by
      simp [Layout.addEntry]
      omega
    recNumbers := by
      simp [Layout.addEntry]
      omega
    currRecno := by simp [Layout.addEntry]
    prev := hs.prev
    main := rfl
    web := hs.web
    extraRecs := by
      simp [Layout.addEntry]
      omega
    mains := by simp [Layout.addEntry, hs.mains] }

/-- The directory of an entry can be gone to: it is the one that the file is in,
or that of an entry that the file has. -/
def Layout.CanEnter (L : Layout) (p : ℤ) : Prop :=
  p = L.prev ∨ ∃ i : ℕ, p = i ∧ i < L.places.length ∧ L.place i < L.file.length

/-- Another directory is gone to. -/
theorem insertDirectory_matches {n : ℕ} {L : Layout} {s : InsertState} (hs : HoldsLayout n L s)
    (hn : L.file.length < n) {header : Header} {r : ParserEntry} (hne : r.core.parentIdx ≠ L.prev)
    (henter : L.CanEnter r.core.parentIdx) :
    ∃ s', insertDirectory db header r s = some s' ∧
      HoldsLayout n (L.enter r.core.parentIdx) s' := by
  obtain ⟨k, hk⟩ : ∃ k, n - L.file.length = k + 1 := ⟨n - L.file.length - 1, by omega⟩
  obtain ⟨i, hi, hplaces, hfile⟩ := henter.resolve_left hne
  have houtlist := setCell_end (L.mains.map some) k L.main
  rw [List.length_map, hs.mains] at houtlist
  have hstrt2 : readCell s.recNumbers i = some (L.place i : ℤ) := by
    rw [hs.recNumbers, readCell_done (by simpa using hplaces)]
    simp [Layout.place, hplaces]
  have hstrt1 : readCell (L.mains.map some ++ [some (L.main : ℤ)] ++ List.replicate k none)
      (L.place i) =
      some (L.mainOf (L.place i)) := by
    rw [List.append_assoc, readCell_done (by rw [hs.mains]; exact hfile)]
    rfl
  rw [insertDirectory]
  simp only [hs.outlist, hs.outArray, hs.currRecno, hs.main, hk, houtlist, hi, hstrt2, hstrt1,
    setRec_end, Option.bind_eq_bind, Option.bind_some, Int.natCast_nonneg, if_true]
  refine ⟨_, rfl, ?_⟩
  rw [Layout.enter, if_neg (hi ▸ hne)]
  have hextra := hs.extraRecs
  exact {
    outArray := by
      simp [subpathRec, zeroEntry]
      omega
    outlist := by
      simp
      omega
    recNumbers := hs.recNumbers
    currRecno := by simp
    prev := rfl
    main := rfl
    web := hs.web
    extraRecs := by
      simp
      omega
    mains := by simp [hs.mains] }

/-- The variables before the loop. -/
def InsertState.init (n : ℕ) (unset : List UInt8) : InsertState where
  outArray := List.replicate n zeroEntry
  outlist := List.replicate n none
  recNumbers := List.replicate n none
  currRecno := 0
  prevPrntDir := -2
  currPrntDir := -1
  web := false
  extraRecs := 0
  inputString := unset

variable (db) in
/-- The root of the site comes with the records for its name. -/
theorem insertDirectory_start {n : ℕ} (hn : 3 ≤ n) {unset : List UInt8} {header : Header}
    (hhost : hostString header unset ≠ []) {r : ParserEntry} (hr : r.core.parentIdx = -1) :
    ∃ s', insertDirectory db header r (InsertState.init n unset) = some s' ∧
      HoldsLayout n (Layout.start db (hostString header unset)) s' := by
  obtain ⟨k, rfl⟩ := Nat.exists_eq_add_of_le hn
  rw [Nat.add_comm 3 k, insertDirectory]
  simp only [InsertState.init, hr, setCell, setRec, List.length_replicate, Option.bind_eq_bind,
    Option.bind_some, show (0 : ℕ) <
      k + 3 by omega, if_true, show ¬ (0 : ℤ) ≤ -1 by decide, if_false,
    Nat.zero_add, true_and, ne_eq, hhost, not_false_eq_true, insertHost, List.length_set,
    List.length_modify, show 1 < k + 3 by omega, show 1 + 1 < k + 3 by omega]
  refine ⟨_, rfl, ?_⟩
  exact {
    outArray := by
      simp [Layout.start, hostRecs, subpathRec, zeroEntry, List.replicate_succ]
    outlist := by simp [Layout.start, hostRecs, List.replicate_succ]
    recNumbers := by simp [Layout.start]
    currRecno := rfl
    prev := rfl
    main := rfl
    web := rfl
    extraRecs := rfl
    mains := rfl }

/-- One round of the loop adds the record to the file. -/
theorem insertRecord_matches {n : ℕ} {L : Layout} {s : InsertState} (hs : HoldsLayout n L s)
    (header : Header) {r : ParserEntry} (hroom : (L.add db r).file.length ≤ n)
    (hflags : r.core.flags < 4) (henter : L.CanEnter r.core.parentIdx) :
    ∃ s', insertRecord db header r s = some s' ∧ HoldsLayout n (L.add db r) s' := by
  have hlen : (L.add db r).file.length = (L.enter r.core.parentIdx).file.length + 1 := by
    simp [Layout.add, Layout.addEntry]
  have hentered : ∃ s₁, enterDirectory db header r s = some s₁ ∧
      HoldsLayout n (L.enter r.core.parentIdx) s₁ := by
    rw [enterDirectory, (plain_flags hflags).1, hs.web, hs.prev]
    by_cases hne : r.core.parentIdx = L.prev
    · refine ⟨s, by simp [hne], ?_⟩
      rw [Layout.enter, if_pos hne]
      exact hs
    · have hle : L.file.length + 1 = (L.enter r.core.parentIdx).file.length := by
        rw [Layout.enter, if_neg hne]
        simp
      simpa [hne] using insertDirectory_matches hs (by omega) hne henter
  obtain ⟨s₁, hs₁, hmatch⟩ := hentered
  obtain ⟨s₂, hs₂, hmatch₂⟩ := insertEntry_matches (r := r) hmatch (by omega) hflags
  refine ⟨_, ?_, hmatch₂⟩
  simp only [insertRecord, hs₁, hs₂, Option.bind_eq_bind, Option.bind_some]

variable (db) in
/-- The first round. -/
theorem insertRecord_start {n : ℕ} (hn : 4 ≤ n) {unset : List UInt8} {header : Header}
    (hhost : hostString header unset ≠ []) {r : ParserEntry} (hr : r.core.parentIdx = -1)
    (hflags : r.core.flags < 4) :
    ∃ s', insertRecord db header r (InsertState.init n unset) = some s' ∧
      HoldsLayout n ((Layout.start db (hostString header unset)).add db r) s' := by
  obtain ⟨s₁, hs₁, hmatch⟩ :=
    insertDirectory_start db (show 3 ≤ n by omega) hhost hr
  have hlt : (Layout.start db (hostString header unset)).file.length < n := by
    simp [Layout.start, hostRecs]
    omega
  obtain ⟨s₂, hs₂, hmatch₂⟩ := insertEntry_matches (r := r) hmatch hlt hflags
  have hadd : (Layout.start db (hostString header unset)).add db r =
      (Layout.start db (hostString header unset)).addEntry db r := by
    rw [Layout.add, Layout.enter, if_pos (by simp [hr, Layout.start])]
  have henter : enterDirectory db header r (InsertState.init n unset) = some s₁ := by
    rw [← hs₁, enterDirectory, (plain_flags hflags).1]
    simp [InsertState.init, hr]
  refine ⟨_, ?_, hadd ▸ hmatch₂⟩
  simp only [insertRecord, henter, hs₂, Option.bind_eq_bind, Option.bind_some]

/-! ### Well-formed sequences of records -/

/-- The records of an anonftp site as a parser file has them: files, directories
and links with names, each in the root or in an earlier directory, those of one
directory together. -/
structure WellFormed (recs : List ParserEntry) : Prop where
  plain : ∀ r ∈ recs, r.core.flags < 4
  name : ∀ r ∈ recs, r.name ≠ [] ∧ r.name.length ≤ 255 ∧ 0 ∉ r.name ∧ 10 ∉ r.name
  parent : ∀ (i : ℕ) (hi : i < recs.length), recs[i].core.parentIdx = -1 ∨
    ∃ (j : ℕ) (hj : j < i), recs[i].core.parentIdx = j ∧ cseIsDir recs[j].core.flags = true
  contiguous : ∀ (i j k : ℕ) (hij : i ≤ j) (hjk : j ≤ k) (hk : k < recs.length),
    recs[i].core.parentIdx = recs[k].core.parentIdx →
      recs[j].core.parentIdx = recs[i].core.parentIdx

/-- The directory that the last of some records is in; the root at the beginning. -/
def lastParent (pre : List ParserEntry) : ℤ :=
  (pre.getLast?.map fun r => r.core.parentIdx).getD (-1)

@[simp] theorem lastParent_append (pre : List ParserEntry) (r : ParserEntry) :
    lastParent (pre ++ [r]) = r.core.parentIdx := by
  simp [lastParent]

namespace WellFormed

variable {recs pre rest : List ParserEntry} {r : ParserEntry}

/-- Entries of a directory that is not the last one's are the first of it. -/
theorem fresh (h : WellFormed recs) (hrecs : recs = pre ++ r :: rest)
    (hne : r.core.parentIdx ≠ lastParent pre) : ∀ q ∈ pre, q.core.parentIdx ≠ r.core.parentIdx := by
  intro q hq heq
  obtain ⟨i, hi, rfl⟩ := List.mem_iff_getElem.mp hq
  have hlen : pre.length < recs.length := by simp [hrecs]
  have hr : recs[pre.length] = r := by simp [hrecs]
  have hpre : ∀ (k : ℕ) (hk : k < pre.length) (hk' : k < recs.length), recs[k] = pre[k] := by
    intro k hk _
    simp [hrecs, List.getElem_append_left hk]
  have hend : pre.length - 1 < pre.length := by omega
  have hlast : lastParent pre = pre[pre.length - 1].core.parentIdx := by
    rw [lastParent, List.getLast?_eq_getElem?, List.getElem?_eq_getElem (by omega)]
    rfl
  -- the last record lies between the two
  have hc := h.contiguous i (pre.length - 1) pre.length (by omega) (by omega) hlen
    (by rw [hpre i hi, hr]; exact heq)
  rw [hpre _ hend, hpre i hi, heq, ← hlast] at hc
  exact hne hc.symm

/-- The first record is in the root. -/
theorem first (h : WellFormed (r :: rest)) : r.core.parentIdx = -1 := by
  rcases h.parent 0 (by simp) with hr | ⟨j, hj, _⟩
  · simpa using hr
  · omega

/-- The next record is in the directory of the last one, or in a directory among
the records before it. -/
theorem next (h : WellFormed recs) (hrecs : recs = pre ++ r :: rest) :
    r.core.parentIdx = lastParent pre ∨ ∃ (j : ℕ) (hj : j < pre.length), r.core.parentIdx = j ∧
      cseIsDir pre[j].core.flags = true := by
  have hlen : pre.length < recs.length := by simp [hrecs]
  have hr : recs[pre.length] = r := by simp [hrecs]
  rcases h.parent pre.length (by simp [hrecs]) with hroot | ⟨j, hj, hp, hdir⟩
  · left
    by_contra hne
    rw [hr] at hroot
    cases pre with
    | nil => exact hne (by rw [hroot]; rfl)
    | cons q pre =>
      -- the first record is in the root as well
      have hcons : WellFormed (q :: (pre ++ r :: rest)) := by
        rw [← List.cons_append, ← hrecs]
        exact h
      have hq : q.core.parentIdx = -1 := hcons.first
      exact h.fresh hrecs hne q (by simp) (hq.trans hroot.symm)
  · right
    refine ⟨j, hj, by rw [← hr]; exact hp, ?_⟩
    simpa [hrecs, List.getElem_append_left hj] using hdir

end WellFormed

/-! ### The whole loop -/

/-- What holds of the site file of any records. -/
structure LayoutOk (pre : List ParserEntry) (L : Layout) : Prop where
  places : L.places.length = pre.length
  mains : L.mains.length = L.file.length
  lt : ∀ i < pre.length, L.place i < L.file.length
  prev : L.prev = lastParent pre

theorem Layout.length_file_enter (L : Layout) (p : ℤ) :
    (L.enter p).file.length = L.file.length + if p = L.prev then 0 else 1 := by
  rw [Layout.enter]
  split <;> simp

@[simp] theorem Layout.places_enter (L : Layout) (p : ℤ) : (L.enter p).places = L.places := by
  rw [Layout.enter]
  split <;> rfl

@[simp] theorem Layout.prev_enter (L : Layout) (p : ℤ) : (L.enter p).prev = p := by
  rw [Layout.enter]
  split
  next h => exact h.symm
  next => rfl

theorem Layout.length_mains_enter {L : Layout} (h : L.mains.length = L.file.length) (p : ℤ) :
    (L.enter p).mains.length = (L.enter p).file.length := by
  rw [Layout.enter]
  split
  next => exact h
  next => simp [h]

variable (db) in
theorem layoutOk_layout (host : List UInt8) (pre : List ParserEntry) :
    LayoutOk pre (layout db host pre) := by
  induction pre using List.reverseRecOn with
  | nil => exact ⟨rfl, rfl, by simp, rfl⟩
  | append_singleton pre r ih =>
    rw [layout_append_singleton, Layout.add]
    refine ⟨?_, ?_, ?_, ?_⟩
    · simp [Layout.addEntry, ih.places]
    · simp [Layout.addEntry, Layout.length_mains_enter ih.mains]
    · intro i hi
      have hle := (layout db host pre).length_file_enter r.core.parentIdx
      rw [List.length_append, List.length_singleton] at hi
      simp only [Layout.addEntry, Layout.place, Layout.places_enter, List.length_append,
        List.length_singleton]
      rcases Nat.lt_or_eq_of_le (Nat.le_of_lt_succ hi) with hlt | rfl
      · rw [List.getD_append _ _ _ _ (by rw [ih.places]; exact hlt)]
        have hplace := ih.lt i hlt
        unfold Layout.place at hplace
        omega
      · rw [← ih.places]
        simp
    · simp [Layout.addEntry]

variable (db) in
theorem length_file_layout_le (host : List UInt8) (pre rest : List ParserEntry) :
    (layout db host pre).file.length ≤ (layout db host (pre ++ rest)).file.length := by
  induction rest using List.reverseRecOn with
  | nil => simp
  | append_singleton rest r ih =>
    rw [← List.append_assoc, layout_append_singleton, Layout.add]
    have hle := (layout db host (pre ++ rest)).length_file_enter r.core.parentIdx
    simp only [Layout.addEntry, List.length_append, List.length_singleton]
    omega

/-- **The loop makes the site file**, as long as there is room for it. -/
theorem setupInsertLoop_layout {recs : List ParserEntry} (h : WellFormed recs) {host : List UInt8}
    {header : Header} (hroom : (layout db host recs).file.length ≤ header.siteNoRecs)
    {pre rest : List ParserEntry} (hrecs : recs = pre ++ rest) {s : InsertState}
    (hs : HoldsLayout header.siteNoRecs (layout db host pre) s) :
    ∃ s', setupInsertLoop db header rest s = some ([], s') ∧
      HoldsLayout header.siteNoRecs (layout db host recs) s' := by
  induction rest generalizing pre s with
  | nil =>
    rw [List.append_nil] at hrecs
    exact ⟨s, rfl, hrecs ▸ hs⟩
  | cons r rest ih =>
    have hok := layoutOk_layout db host pre
    have hrecs' : recs = (pre ++ [r]) ++ rest := by simp [hrecs]
    have hmem : r ∈ recs := by simp [hrecs]
    have hle : ((layout db host pre).add db r).file.length ≤ header.siteNoRecs := by
      rw [← layout_append_singleton]
      refine le_trans ?_ hroom
      rw [hrecs']
      exact length_file_layout_le db host (pre ++ [r]) rest
    have henter : (layout db host pre).CanEnter r.core.parentIdx := by
      rcases h.next hrecs with heq | ⟨j, hj, hp, _⟩
      · exact .inl (heq.trans hok.prev.symm)
      · exact .inr ⟨j, hp, by rw [hok.places]; exact hj, hok.lt j hj⟩
    obtain ⟨s₁, hs₁, hmatch⟩ := insertRecord_matches hs header hle (h.plain r hmem) henter
    have hlt : s.currRecno < header.siteNoRecs := by
      have hlen := (layout db host pre).length_file_enter r.core.parentIdx
      rw [hs.currRecno]
      simp only [Layout.add, Layout.addEntry, List.length_append, List.length_singleton] at hle
      omega
    rw [setupInsertLoop, if_pos hlt, if_neg (h.name r hmem).1]
    simp only [hs₁, Option.bind_eq_bind, Option.bind_some]
    exact ih hrecs' (by rw [layout_append_singleton]; exact hmatch)

/-! ### The room for the extra records -/

/-- The directories that have entries among the records. -/
def listedDirs (recs : List ParserEntry) : Finset ℤ :=
  (recs.map fun r => r.core.parentIdx).toFinset.erase (-1)

theorem mem_listedDirs {recs : List ParserEntry} {p : ℤ} :
    p ∈ listedDirs recs ↔ p ≠ -1 ∧ ∃ r ∈ recs, r.core.parentIdx = p := by
  simp [listedDirs]

variable (db) in
/-- The site file has three records more for the name of the site, and one for each
directory with entries. -/
theorem length_file_layout {recs : List ParserEntry} (h : WellFormed recs) (host : List UInt8)
    {pre rest : List ParserEntry} (hrecs : recs = pre ++ rest) :
    (layout db host pre).file.length = pre.length + 3 + (listedDirs pre).card := by
  induction pre using List.reverseRecOn generalizing rest with
  | nil => rfl
  | append_singleton pre r ih =>
    rw [List.append_assoc] at hrecs
    have hprev := (layoutOk_layout db host pre).prev
    have hlen := (layout db host pre).length_file_enter r.core.parentIdx
    have hdirs : (listedDirs (pre ++ [r])).card =
        (listedDirs pre).card + if r.core.parentIdx = lastParent pre then 0 else 1 := by
      split
      next heq =>
        have hsame : listedDirs (pre ++ [r]) = listedDirs pre := by
          ext p
          simp only [mem_listedDirs, List.mem_append, List.mem_singleton]
          refine and_congr_right fun hp => ⟨?_, fun ⟨q, hq, hqp⟩ => ⟨q, .inl hq, hqp⟩⟩
          rintro ⟨q, hq | rfl, hqp⟩
          · exact ⟨q, hq, hqp⟩
          · -- the directory is that of the last record already
            rw [hqp, lastParent] at heq
            cases hlast : pre.getLast? with
            | none => exact absurd (by rw [heq, hlast]; rfl) hp
            | some q' => exact ⟨q', List.mem_of_getLast? hlast, by rw [heq, hlast]; rfl⟩
        rw [hsame, Nat.add_zero]
      next hne =>
        have hroot : r.core.parentIdx ≠ -1 := by
          intro hroot
          rcases h.next hrecs with heq | ⟨j, _, hp, _⟩
          · exact hne heq
          · omega
        have hnot : r.core.parentIdx ∉ listedDirs pre := by
          rw [mem_listedDirs]
          rintro ⟨_, q, hq, hqp⟩
          exact h.fresh hrecs hne q hq hqp
        have hinsert : listedDirs (pre ++ [r]) = insert r.core.parentIdx (listedDirs pre) := by
          ext p
          simp only [mem_listedDirs, List.mem_append, List.mem_singleton, Finset.mem_insert]
          constructor
          · rintro ⟨hp, q, hq | rfl, hqp⟩
            · exact .inr ⟨hp, q, hq, hqp⟩
            · exact .inl hqp.symm
          · rintro (rfl | ⟨hp, q, hq, hqp⟩)
            · exact ⟨hroot, r, .inr rfl, rfl⟩
            · exact ⟨hp, q, .inl hq, hqp⟩
        rw [hinsert, Finset.card_insert_of_notMem hnot]
    rw [layout_append_singleton, Layout.add]
    simp only [Layout.addEntry, List.length_append, List.length_singleton]
    rw [hlen, hdirs, hprev, ih hrecs]
    omega

/-- The indices of the directories. -/
def dirIndices (recs : List ParserEntry) : List ℕ :=
  (List.range recs.length).filter fun i => recs[i]?.any fun r => cseIsDir r.core.flags

theorem length_dirIndices (recs : List ParserEntry) :
    (dirIndices recs).length = recs.countP fun r => cseIsDir r.core.flags := by
  induction recs using List.reverseRecOn with
  | nil => rfl
  | append_singleton pre r ih =>
    rw [List.countP_append, ← ih, dirIndices, List.length_append, List.length_singleton,
      List.range_succ, List.filter_append, List.length_append]
    congr 1
    · refine congrArg List.length (List.filter_congr ?_)
      intro i hi
      rw [List.getElem?_append_left (List.mem_range.mp hi)]
    · rw [List.filter_singleton, List.countP_singleton]
      cases hdir : cseIsDir r.core.flags <;> simp [hdir]

theorem WellFormed.card_listedDirs_le {recs : List ParserEntry} (h : WellFormed recs) :
    (listedDirs recs).card ≤ recs.countP fun r => cseIsDir r.core.flags := by
  have hsub : listedDirs recs ⊆ ((dirIndices recs).map ((↑) : ℕ → ℤ)).toFinset := by
    intro p hp
    obtain ⟨hne, r, hr, rfl⟩ := mem_listedDirs.mp hp
    obtain ⟨i, hi, rfl⟩ := List.mem_iff_getElem.mp hr
    obtain ⟨j, hj, hpj, hdir⟩ := (h.parent i hi).resolve_left hne
    rw [List.mem_toFinset, List.mem_map]
    refine ⟨j, ?_, hpj.symm⟩
    rw [dirIndices, List.mem_filter, List.mem_range, List.getElem?_eq_getElem (by omega)]
    exact ⟨by omega, hdir⟩
  calc (listedDirs recs).card
      ≤ ((dirIndices recs).map ((↑) : ℕ → ℤ)).toFinset.card := Finset.card_le_card hsub
    _ ≤ ((dirIndices recs).map ((↑) : ℕ → ℤ)).length := List.toFinset_card_le _
    _ = recs.countP fun r => cseIsDir r.core.flags := by rw [List.length_map, length_dirIndices]

theorem foldl_countExtra (recs : List ParserEntry) (n : ℕ) :
    recs.foldl (fun extraRecs r => if cseIsDir r.core.flags then extraRecs + 1 else extraRecs) n =
      n + recs.countP fun r => cseIsDir r.core.flags := by
  induction recs generalizing n with
  | nil => rfl
  | cons r recs ih =>
    rw [List.foldl_cons, ih, List.countP_cons]
    split <;> omega

/-- A header for the records, with the name of the host. -/
structure HeaderFor (recs : List ParserEntry) (header : Header) (host : List UInt8) : Prop where
  noRecs : header.noRecs = recs.length
  notCounted : hdrGetSiteNoRecs header.headerFlags = false
  hostname : ∀ unset, hostString header unset = host
  hostname_ne : host ≠ []
  length_hostname : host.length ≤ 255

theorem hostString_countExtraRecs (recs : List ParserEntry) (header : Header) (unset : List UInt8) :
    hostString (countExtraRecs recs header) unset = hostString header unset := by
  rw [countExtraRecs]
  split
  next => rfl
  next =>
    simp only [hostString, hdrGetPreferredHostname, hdrGetPrimaryHostname, Nat.and_or_distrib_right]
    simp

theorem siteNoRecs_countExtraRecs {recs : List ParserEntry} {header : Header} {host : List UInt8}
    (hheader : HeaderFor recs header host) : (countExtraRecs recs header).siteNoRecs =
      recs.length + 3 + recs.countP fun r => cseIsDir r.core.flags := by
  rw [countExtraRecs, hheader.notCounted]
  simp only [Bool.false_eq_true, if_false]
  rw [hheader.noRecs, List.take_length, foldl_countExtra]
  omega

/-- **`setup_insert` makes the site file of the records** in an array of the size
that `count_extra_recs` has found, and reads all of them. -/
theorem setupInsert_siteFile {recs : List ParserEntry} (h : WellFormed recs) {header : Header}
    {host : List UInt8} (hheader : HeaderFor recs header host) (unset : List UInt8) :
    (siteFile db host recs).length ≤ (countExtraRecs recs header).siteNoRecs ∧
      setupInsert db unset (countExtraRecs recs header) recs
          (List.replicate (countExtraRecs recs header).siteNoRecs zeroEntry) =
        some (siteFile db host recs ++ List.replicate
          ((countExtraRecs recs header).siteNoRecs - (siteFile db host recs).length) zeroEntry,
          (siteFile db host recs).length, []) := by
  have hsize := siteNoRecs_countExtraRecs hheader
  have hdirs := h.card_listedDirs_le
  cases recs with
  | nil => exact ⟨by simp [siteFile], by simp [siteFile, setupInsert, setupInsertLoop]⟩
  | cons r rest =>
    have hroom : (layout db host (r :: rest)).file.length ≤
        (countExtraRecs (r :: rest) header).siteNoRecs := by
      rw [length_file_layout db h host (List.append_nil _).symm, hsize]
      omega
    have hhost : hostString (countExtraRecs (r :: rest) header) unset = host := by
      rw [hostString_countExtraRecs, hheader.hostname]
    have hn : 4 ≤ (countExtraRecs (r :: rest) header).siteNoRecs := by
      rw [hsize, List.length_cons]
      omega
    obtain ⟨s₁, hs₁, hmatch⟩ := insertRecord_start db hn (by rw [hhost]; exact hheader.hostname_ne)
      h.first (h.plain r (by simp))
    rw [hhost] at hmatch
    obtain ⟨s₂, hs₂, hmatch₂⟩ :=
      setupInsertLoop_layout h hroom (show r :: rest = [r] ++ rest from rfl) hmatch
    have hloop : setupInsertLoop db (countExtraRecs (r :: rest) header) (r :: rest)
        (InsertState.init (countExtraRecs (r :: rest) header).siteNoRecs unset) = some
          ([], s₂) := by
      rw [setupInsertLoop, if_pos (by simp only [InsertState.init]; omega),
        if_neg (h.name r (by simp)).1]
      simp only [hs₁, Option.bind_eq_bind, Option.bind_some]
      exact hs₂
    have hfile : siteFile db host (r :: rest) = (layout db host (r :: rest)).file := by
      rw [siteFile, if_neg (by simp)]
    rw [hfile]
    refine ⟨hroom, ?_⟩
    rw [InsertState.init] at hloop
    simp only [setupInsert, hloop, Option.bind_eq_bind, Option.bind_some, hmatch₂.outArray,
      hmatch₂.currRecno]

end Archie
