/-
Making a site file of the records of a web parser (`webindex/update/setup_insert.c`).

The records that stand for a directory come with the input here.  Only the first
record of the site file is added: the sub-path record of the root.

* `WebSetup.setupInsert` — the function, with the writes to its arrays checked.
* `WebLayout` — the site file of a list of records, added one by one.
* `WebSetup.setupInsert_webFile` — the function makes exactly this file.
-/
import Archie.SetupInsert

namespace Archie

/-! ### `setup_insert` -/

namespace WebSetup

section

variable (db : StringsDb)

/-- The record for the directory whose entries follow. -/
def insertDirectory (r : ParserEntry) (s : InsertState) : Option InsertState := do
  let outlist ← setCell s.outlist s.currRecno s.currPrntDir
  let (strt1, strt2) ←
    if 0 < r.core.parentIdx then do
      let strt2 ← readCell s.recNumbers r.core.parentIdx
      let strt1 ← readCell outlist strt2
      some (strt1, strt2)
    else some (-1, -1)
  let out ← setRec s.outArray s.currRecno fun e => { e with
    flags := e.flags ||| 0x04, strt1 := strt1, core := .prntEntry strt2 }
  some { s with
    outArray := out, outlist := outlist, currPrntDir := s.currRecno
    prevPrntDir := r.core.parentIdx, currRecno := s.currRecno + 1, extraRecs := s.extraRecs + 1 }

/-- The directory that a record is in, before its own record is made. -/
def enterDirectory (r : ParserEntry) (s : InsertState) : Option InsertState :=
  if !cseIsParent r.core.flags then
    if !s.web && r.core.parentIdx != s.prevPrntDir then insertDirectory r s else some s
  else some { s with currPrntDir := s.currRecno, prevPrntDir := r.core.parentIdx, web := true }

/-- What is written to the record for a record of the input, over the offset of its
string. -/
def entryWrite (r : ParserEntry) (outlist recNumbers : List (Option ℤ)) :
    Option (SiteEntry → SiteEntry) :=
  let flags := r.core.flags
  if cseIsFile flags || cseIsLink flags || cseIsDoc flags || cseIsDir flags then
    some fun e => { e with
      flags := flags, core := .entry r.core.size r.core.date r.core.perms r.core.rdate }
  else if cseIsKey flags then
    some fun e => { e with flags := flags, core := .kwrd r.core.size }
  else do
    let strt2 ← readCell recNumbers r.core.parentIdx
    let strt1 ← readCell outlist strt2
    some fun e => { e with flags := flags, strt1 := strt1, core := .prntEntry strt2 }

/-- The record for a record of the input.  Its string is appended to the database
also when it stands for a directory and does not keep the offset. -/
def insertEntry (r : ParserEntry) (s : InsertState) : Option InsertState := do
  let outlist ← setCell s.outlist s.currRecno s.currPrntDir
  let out ← setRec s.outArray s.currRecno fun e => { e with strt1 := db.appendKey r.name }
  let write ← entryWrite r outlist s.recNumbers
  let out ← setRec out s.currRecno write
  let recNumbers ← setCell s.recNumbers (s.currRecno - s.extraRecs) s.currRecno
  some { s with
    outArray := out, outlist := outlist, recNumbers := recNumbers, inputString := r.name }

/-- One round of the loop. -/
def insertRecord (r : ParserEntry) (s : InsertState) : Option InsertState := do
  let s ← enterDirectory r s
  let s ← insertEntry db r s
  some { s with currRecno := s.currRecno + 1 }

/-- The loop of `setup_insert`, with the records that are not read. -/
def setupInsertLoop (siteNoRecs : ℕ) :
    List ParserEntry → InsertState → Option (List ParserEntry × InsertState)
  | [], s => some ([], s)
  | r :: recs, s =>
    if s.currRecno < siteNoRecs then do
      let s ← insertRecord db r s
      setupInsertLoop siteNoRecs recs s
    else some (r :: recs, s)

/-- `setup_insert`: the array, `out_rec_no` and the records that were not read. -/
def setupInsert (unset : List UInt8) (siteNoRecs : ℕ) (recs : List ParserEntry)
    (outArray : List SiteEntry) : Option (List SiteEntry × ℕ × List ParserEntry) := do
  let (rest, s) ← setupInsertLoop db siteNoRecs recs
    { InsertState.init siteNoRecs unset with outArray := outArray }
  some (s.outArray, s.currRecno, rest)

end

/-- `count_extra_recs`: the one record that is added. -/
def countExtraRecs (header : Header) : Header :=
  { header with headerFlags := header.headerFlags ||| 0x100000, siteNoRecs := header.noRecs + 1 }

end WebSetup

/-! ### The site file of a list of records -/

/-- A site file, with the record of the directory that each of its records is in
(`mains`), and that of the directory that the next record is in (`main`). -/
structure WebLayout where
  file : List SiteEntry
  mains : List ℤ
  main : ℕ
  deriving DecidableEq, Repr

namespace WebLayout

/-- The root of the site. -/
def start : WebLayout := ⟨[subpathRec (-1) (-1)], [-1], 0⟩

/-- The number of the record for the entry of a directory. -/
def place (r : ParserEntry) : ℕ := r.core.parentIdx.toNat + 1

section

variable (db : StringsDb)

/-- The record for a record of the input. -/
def recOf (L : WebLayout) (r : ParserEntry) : SiteEntry :=
  if cseIsParent r.core.flags then
    ⟨r.core.flags, L.mains.getD (place r) 0, .prntEntry (place r)⟩
  else if cseIsKey r.core.flags then ⟨r.core.flags, db.appendKey r.name, .kwrd r.core.size⟩
  else ⟨r.core.flags, db.appendKey r.name, .entry r.core.size r.core.date r.core.perms r.core.rdate⟩

/-- The directory that the file is in with a record. -/
def mainWith (L : WebLayout) (r : ParserEntry) : ℕ :=
  if cseIsParent r.core.flags then L.file.length else L.main

def add (L : WebLayout) (r : ParserEntry) : WebLayout where
  file := L.file ++ [L.recOf db r]
  mains := L.mains ++ [(L.mainWith r : ℤ)]
  main := L.mainWith r

end

end WebLayout

/-- The layout of a list of records. -/
def webLayout (db : StringsDb) (recs : List ParserEntry) : WebLayout :=
  recs.foldl (WebLayout.add db) WebLayout.start

theorem webLayout_append_singleton (db : StringsDb) (recs : List ParserEntry) (r : ParserEntry) :
    webLayout db (recs ++ [r]) = (webLayout db recs).add db r := by
  rw [webLayout, List.foldl_append]
  rfl

theorem length_file_webLayout (db : StringsDb) (recs : List ParserEntry) :
    (webLayout db recs).file.length = recs.length + 1 := by
  induction recs using List.reverseRecOn with
  | nil => rfl
  | append_singleton recs r ih =>
    rw [webLayout_append_singleton, WebLayout.add, List.length_append, ih]
    simp

theorem length_mains_webLayout (db : StringsDb) (recs : List ParserEntry) :
    (webLayout db recs).mains.length = recs.length + 1 := by
  induction recs using List.reverseRecOn with
  | nil => rfl
  | append_singleton recs r ih =>
    rw [webLayout_append_singleton, WebLayout.add, List.length_append, ih]
    simp

/-- The flags of a record are kept. -/
@[simp] theorem WebLayout.flags_recOf (L : WebLayout) (db : StringsDb) (r : ParserEntry) :
    (L.recOf db r).flags = r.core.flags := by
  rw [WebLayout.recOf]
  split
  · rfl
  · split <;> rfl

/-- The records of the site file are those of the input, after the one for the root. -/
theorem webLayout_record (db : StringsDb) {recs : List ParserEntry} {i : ℕ} {r : ParserEntry}
    (hr : recs[i]? = some r) :
    ∃ L : WebLayout, (webLayout db recs).file[i + 1]? = some (L.recOf db r) := by
  induction recs using List.reverseRecOn with
  | nil => simp at hr
  | append_singleton recs q ih =>
    have hlen := length_file_webLayout db recs
    rw [webLayout_append_singleton, WebLayout.add]
    dsimp only
    obtain ⟨hi, -⟩ := List.getElem?_eq_some_iff.mp hr
    rw [List.length_append, List.length_singleton] at hi
    obtain hlt | rfl : i < recs.length ∨ i = recs.length := by omega
    · rw [List.getElem?_append_left hlt] at hr
      obtain ⟨L, hL⟩ := ih hr
      exact ⟨L, by rw [List.getElem?_append_left (by omega), hL]⟩
    · rw [List.getElem?_concat_length, Option.some.injEq] at hr
      subst hr
      exact ⟨webLayout db recs, by rw [← hlen, List.getElem?_concat_length]⟩

theorem webLayout_root (db : StringsDb) (recs : List ParserEntry) :
    (webLayout db recs).file[0]? = some (subpathRec (-1) (-1)) := by
  induction recs using List.reverseRecOn with
  | nil => rfl
  | append_singleton recs r ih =>
    have hlen := length_file_webLayout db recs
    rw [webLayout_append_singleton, WebLayout.add]
    dsimp only
    rw [List.getElem?_append_left (by omega), ih]

/-- The records of the array after `setup_insert`. -/
def webFile (db : StringsDb) (recs : List ParserEntry) : List SiteEntry :=
  if recs = [] then [] else (webLayout db recs).file

/-! ### Well-formed sequences of records -/

/-- A record of a web parser: a directory, document or file, a keyword, or one that
stands for a directory. -/
inductive WebKind (flags : ℕ) : Prop
  | entry : cseIsParent flags = false → cseIsKey flags = false →
      (cseIsFile flags || cseIsLink flags || cseIsDoc flags || cseIsDir flags) = true →
        WebKind flags
  | key : flags = 0x08 → WebKind flags
  | parent : flags = 0x04 ∨ flags = 0x10 ∨ flags = 0x20 → WebKind flags

/-- The records of a site as the web parser has them: entries of the root up to the
first record that stands for a directory, each such record for an earlier entry,
and the keywords of a document right after it. -/
structure WellFormedWeb (recs : List ParserEntry) : Prop where
  kind : ∀ r ∈ recs, WebKind r.core.flags
  name : ∀ r ∈ recs, r.name ≠ []
  root : ∀ (i : ℕ) (r : ParserEntry), recs[i]? = some r → cseIsParent r.core.flags = false →
    r.core.parentIdx = -1 ∨ ∃ j < i, (recs[j]?.any fun r => cseIsParent r.core.flags) = true
  parent : ∀ (i : ℕ) (r : ParserEntry), recs[i]? = some r → cseIsParent r.core.flags = true →
    ∃ (j : ℕ) (r' : ParserEntry), j < i ∧ r.core.parentIdx = j ∧ recs[j]? = some r' ∧
      cseIsParent r'.core.flags = false
  keyword : ∀ (i : ℕ) (r : ParserEntry), recs[i]? = some r → cseIsKey r.core.flags = true →
    ∃ (j : ℕ) (r' : ParserEntry), i = j + 1 ∧ recs[j]? = some r' ∧
      cseIsParent r'.core.flags = false ∧
      (cseIsDoc r'.core.flags = true ∨ cseIsKey r'.core.flags = true)

theorem WebKind.parent_flags {flags : ℕ} (h : WebKind flags) (hparent : cseIsParent flags = true) :
    (cseIsFile flags || cseIsLink flags || cseIsDoc flags || cseIsDir flags) = false ∧
      cseIsKey flags = false ∧ cseIsDoc flags = false := by
  cases h with
  | entry hnot _ _ => simp [hnot] at hparent
  | key hkey => simp [hkey, cseIsParent, cseIsSubpath, cseIsPort, cseIsName] at hparent
  | parent hflags => rcases hflags with rfl | rfl | rfl <;> decide

theorem WebKind.key_flags {flags : ℕ} (h : WebKind flags) (hkey : cseIsKey flags = true) :
    (cseIsFile flags || cseIsLink flags || cseIsDoc flags || cseIsDir flags) = false ∧
      cseIsParent flags = false := by
  cases h with
  | entry _ hnot _ => simp [hnot] at hkey
  | key hkey =>
    subst hkey
    decide
  | parent hflags => rcases hflags with rfl | rfl | rfl <;> simp [cseIsKey] at hkey

theorem WebKind.entry_flags {flags : ℕ} (h : WebKind flags) (hparent : cseIsParent flags = false)
    (hkey : cseIsKey flags = false) :
    (cseIsFile flags || cseIsLink flags || cseIsDoc flags || cseIsDir flags) = true := by
  cases h with
  | entry _ _ hflags => exact hflags
  | key hflags => simp [hflags, cseIsKey] at hkey
  | parent hflags =>
    rcases hflags with rfl | rfl | rfl <;>
      simp [cseIsParent, cseIsSubpath, cseIsPort, cseIsName] at hparent

/-! ### The loop -/

namespace WebSetup

variable {db : StringsDb}

/-- The variables of the loop, when they hold a site file. -/
structure HoldsWeb (n : ℕ) (L : WebLayout) (s : InsertState) : Prop where
  outArray : s.outArray = L.file ++ List.replicate (n - L.file.length) zeroEntry
  outlist : s.outlist = L.mains.map some ++ List.replicate (n - L.file.length) none
  recNumbers : s.recNumbers = ((List.range' 1 (L.file.length - 1)).map ((↑) : ℕ → ℤ)).map some ++
    List.replicate (n - (L.file.length - 1)) none
  currRecno : s.currRecno = L.file.length
  main : s.currPrntDir = L.main
  web : s.web = decide (L.main ≠ 0)
  root : s.web = false → s.prevPrntDir = -1
  extraRecs : s.extraRecs = 1
  mains : L.mains.length = L.file.length
  pos : 0 < L.file.length

/-- What is written is the record. -/
theorem entryWrite_eq {L : WebLayout} {r : ParserEntry} (hkind : WebKind r.core.flags)
    (hmains : L.mains.length = L.file.length) (hparent : cseIsParent r.core.flags = true →
      0 ≤ r.core.parentIdx ∧ WebLayout.place r < L.file.length)
        (outrest recrest : List (Option ℤ)) :
    ∃ write, entryWrite r (L.mains.map some ++ outrest)
        (((List.range' 1 (L.file.length - 1)).map ((↑) : ℕ → ℤ)).map some ++ recrest) = some write ∧
      write { zeroEntry with strt1 := db.appendKey r.name } = L.recOf db r := by
  cases hp : cseIsParent r.core.flags with
  | false =>
    cases hkey : cseIsKey r.core.flags with
    | false =>
      refine ⟨_, by rw [entryWrite, if_pos (hkind.entry_flags hp hkey)], ?_⟩
      simp [WebLayout.recOf, hp, hkey]
    | true =>
      refine ⟨_, by rw [entryWrite, (hkind.key_flags hkey).1, hkey,
        if_neg (by simp), if_pos rfl], ?_⟩
      simp [WebLayout.recOf, hp, hkey]
  | true =>
    obtain ⟨hidx, hplace⟩ := hparent hp
    obtain ⟨j, hj⟩ := Int.eq_ofNat_of_zero_le hidx
    rw [WebLayout.place, hj, Int.toNat_natCast] at hplace
    -- the entry has its record right after those before it
    have hstrt2 : readCell
        (((List.range' 1 (L.file.length - 1)).map ((↑) : ℕ → ℤ)).map some ++ recrest)
        (j : ℤ) = some ((j + 1 : ℕ) : ℤ) := by
      rw [readCell_done (by simp; omega)]
      simp [show j < L.file.length - 1 by omega, Nat.add_comm]
    have hstrt1 : readCell (L.mains.map some ++ outrest) ((j + 1 : ℕ) : ℤ) =
        some (L.mains.getD (j + 1) 0) := readCell_done (by omega) outrest
    refine ⟨fun e => { e with
      flags := r.core.flags, strt1 := L.mains.getD (j + 1) 0, core := .prntEntry ((j + 1 : ℕ) : ℤ) }, ?_, ?_⟩
    · rw [entryWrite, (hkind.parent_flags hp).1, (hkind.parent_flags hp).2.1, hj]
      simp only [Bool.false_eq_true, if_false, hstrt2, hstrt1, Option.bind_eq_bind,
        Option.bind_some]
    · simp [WebLayout.recOf, hp, WebLayout.place, hj]

/-- An entry is added to the file. -/
theorem insertEntry_holds {n : ℕ} {L : WebLayout} {s : InsertState} (hs : HoldsWeb n L s)
    (hn : L.file.length < n) {r : ParserEntry} (hkind : WebKind r.core.flags)
    (hparent : cseIsParent r.core.flags = true →
      0 ≤ r.core.parentIdx ∧ WebLayout.place r < L.file.length) :
    ∃ s', insertEntry db r s = some s' ∧ HoldsWeb n
      ⟨L.file ++ [L.recOf db r], L.mains ++ [(L.main : ℤ)], L.main⟩
      { s' with currRecno := s'.currRecno + 1 } := by
  obtain ⟨k, hk⟩ : ∃ k, n - L.file.length = k + 1 := ⟨n - L.file.length - 1, by omega⟩
  have hpos := hs.pos
  have houtlist := setCell_end (L.mains.map some) k L.main
  rw [List.length_map, hs.mains] at houtlist
  have hrec := setCell_end (((List.range' 1 (L.file.length - 1)).map ((↑) : ℕ → ℤ)).map some)
      (k + 1)
    (L.file.length : ℤ)
  rw [List.length_map, List.length_map, List.length_range'] at hrec
  have hk' : n - (L.file.length - 1) = k + 1 + 1 := by omega
  obtain ⟨write, hwrite, hrecOf⟩ := @entryWrite_eq db L r hkind hs.mains hparent
    ([some (L.main : ℤ)] ++ List.replicate k none) (List.replicate (k + 1 + 1) none)
  rw [← List.append_assoc] at hwrite
  rw [insertEntry]
  simp only [hs.outArray, hs.outlist, hs.recNumbers, hs.currRecno, hs.main, hs.extraRecs, hk, hk',
    houtlist, hrec, hwrite, hrecOf, setRec_end, setRec_last, Option.bind_eq_bind, Option.bind_some]
  refine ⟨_, rfl, ?_⟩
  exact {
    outArray := by
      simp
      omega
    outlist := by
      simp
      omega
    recNumbers := by
      obtain ⟨m, hm⟩ : ∃ m, L.file.length = m + 1 := ⟨L.file.length - 1, by omega⟩
      simp [hm, List.range'_concat, Nat.add_comm 1 m]
      omega
    currRecno := by simp
    main := rfl
    web := hs.web
    root := hs.root
    extraRecs := rfl
    mains := by simp [hs.mains]
    pos := by simp }

/-- The directory of the next record: before any was entered it is the root. -/
theorem enterDirectory_holds {n : ℕ} {L : WebLayout} {s : InsertState} (hs : HoldsWeb n L s)
    {r : ParserEntry} (hroot : cseIsParent r.core.flags = false → L.main = 0 →
      r.core.parentIdx = -1) :
    ∃ s', enterDirectory r s = some s' ∧ HoldsWeb n { L with main := L.mainWith r } s' := by
  cases hp : cseIsParent r.core.flags with
  | false =>
    have hmain : L.mainWith r = L.main := by simp [WebLayout.mainWith, hp]
    refine ⟨s, ?_, by rw [hmain]; exact hs⟩
    have hstay : (!s.web && r.core.parentIdx != s.prevPrntDir) = false := by
      by_cases hzero : L.main = 0
      · have hweb : s.web = false := by simp [hs.web, hzero]
        simp [hroot hp hzero, hs.root hweb]
      · simp [hs.web, hzero]
    rw [enterDirectory, hp, hstay]
    rfl
  | true =>
    have hmain : L.mainWith r = L.file.length := by simp [WebLayout.mainWith, hp]
    have hpos := hs.pos
    refine ⟨_, by rw [enterDirectory, hp]; rfl, ?_⟩
    exact {
      outArray := hs.outArray
      outlist := hs.outlist
      recNumbers := hs.recNumbers
      currRecno := hs.currRecno
      main := by simp [hmain, hs.currRecno]
      web := by
        have hne : L.file.length ≠ 0 := by omega
        simp [hmain, List.length_eq_zero_iff.not.mp hne]
      root := by simp
      extraRecs := hs.extraRecs
      mains := hs.mains
      pos := hs.pos }

/-- What the next record may be: before any directory was entered it is in the
root, and a record for a directory has the entry of it before it. -/
structure CanAdd (L : WebLayout) (r : ParserEntry) : Prop where
  kind : WebKind r.core.flags
  root : cseIsParent r.core.flags = false → L.main = 0 → r.core.parentIdx = -1
  parent : cseIsParent r.core.flags = true →
    0 ≤ r.core.parentIdx ∧ WebLayout.place r < L.file.length

/-- One round of the loop adds the record to the file. -/
theorem insertRecord_holds {n : ℕ} {L : WebLayout} {s : InsertState} (hs : HoldsWeb n L s)
    (hn : L.file.length < n) {r : ParserEntry} (hr : CanAdd L r) :
    ∃ s', insertRecord db r s = some s' ∧ HoldsWeb n (L.add db r) s' := by
  obtain ⟨s₁, hs₁, hentered⟩ := enterDirectory_holds hs hr.root
  obtain ⟨s₂, hs₂, hholds⟩ := @insertEntry_holds db _ _ _ hentered hn _ hr.kind hr.parent
  refine ⟨_, ?_, hholds⟩
  simp only [insertRecord, hs₁, hs₂, Option.bind_eq_bind, Option.bind_some]

/-- Before the first record, which is in the root, its directory gets a record. -/
theorem enterDirectory_start {n : ℕ} (hn : 0 < n) (unset : List UInt8) {r : ParserEntry}
    (hnot : cseIsParent r.core.flags = false) (hr : r.core.parentIdx = -1) :
    ∃ s', enterDirectory r (InsertState.init n unset) = some s' ∧
      HoldsWeb n WebLayout.start s' := by
  obtain ⟨k, rfl⟩ : ∃ k, n = k + 1 := ⟨n - 1, by omega⟩
  rw [enterDirectory, hnot]
  simp only [Bool.not_false, if_true, InsertState.init, hr, Bool.true_and]
  rw [if_pos (by decide), insertDirectory]
  simp only [hr, setCell, setRec, List.length_replicate, Option.bind_eq_bind, Option.bind_some,
    Nat.succ_pos, if_true, show ¬ (0 : ℤ) < -1 by decide, if_false]
  refine ⟨_, rfl, ?_⟩
  exact {
    outArray := by simp [WebLayout.start, subpathRec, zeroEntry, List.replicate_succ]
    outlist := by simp [WebLayout.start, List.replicate_succ]
    recNumbers := by simp [WebLayout.start]
    currRecno := rfl
    main := rfl
    web := rfl
    root := fun _ => rfl
    extraRecs := rfl
    mains := rfl
    pos := by simp [WebLayout.start] }

/-- As long as no directory was entered, no record stands for one. -/
theorem main_webLayout {pre : List ParserEntry} (hmain : (webLayout db pre).main = 0) :
    ∀ r ∈ pre, cseIsParent r.core.flags = false := by
  induction pre using List.reverseRecOn with
  | nil => simp
  | append_singleton pre r ih =>
    rw [webLayout_append_singleton, WebLayout.add, WebLayout.mainWith] at hmain
    have hlen := length_file_webLayout db pre
    dsimp only at hmain
    split at hmain
    next => omega
    next hnot =>
      intro q hq
      rcases List.mem_append.mp hq with hq | hq
      · exact ih hmain q hq
      · obtain rfl := List.mem_singleton.mp hq
        simpa using hnot

/-- Each record of a sequence may be added to the ones before it. -/
def CanAddAll (db : StringsDb) (recs : List ParserEntry) : Prop :=
  ∀ (pre rest : List ParserEntry) (r : ParserEntry), recs = pre ++ r :: rest →
    CanAdd (webLayout db pre) r

/-- In a well-formed sequence the next record may be added. -/
theorem canAdd_of_wellFormed {recs : List ParserEntry} (h : WellFormedWeb recs) :
    CanAddAll db recs := by
  intro pre rest r hrecs
  have hr : recs[pre.length]? = some r := by simp [hrecs]
  have hpre : ∀ j < pre.length, recs[j]? = pre[j]? := by
    intro j hj
    rw [hrecs, List.getElem?_append_left hj]
  constructor
  · exact h.kind r (by simp [hrecs])
  · intro hnot hmain
    rcases h.root _ r hr hnot with hroot | ⟨j, hj, hany⟩
    · exact hroot
    · rw [hpre j hj, List.getElem?_eq_getElem hj, Option.any_some,
        main_webLayout hmain _ (List.getElem_mem hj)] at hany
      exact absurd hany (by simp)
  · intro hp
    obtain ⟨j, r', hj, hidx, -⟩ := h.parent _ r hr hp
    rw [WebLayout.place, length_file_webLayout]
    omega

/-- **The loop makes the site file**, as long as there is room for it. -/
theorem setupInsertLoop_webLayout {recs pre rest : List ParserEntry} (h : CanAddAll db recs)
    {n : ℕ} (hroom : recs.length < n) (hrecs : recs = pre ++ rest) {s : InsertState}
    (hs : HoldsWeb n (webLayout db pre) s) :
    ∃ s', setupInsertLoop db n rest s = some ([], s') ∧ HoldsWeb n (webLayout db recs) s' := by
  induction rest generalizing pre s with
  | nil =>
    rw [List.append_nil] at hrecs
    exact ⟨s, rfl, hrecs ▸ hs⟩
  | cons r rest ih =>
    have hlen := length_file_webLayout db pre
    have hle : pre.length < recs.length := by simp [hrecs]
    obtain ⟨s₁, hs₁, hholds⟩ :=
      @insertRecord_holds db _ _ _ hs (by omega) _ (h pre rest r hrecs)
    have hlt : s.currRecno < n := by
      rw [hs.currRecno]
      omega
    rw [setupInsertLoop, if_pos hlt]
    simp only [hs₁, Option.bind_eq_bind, Option.bind_some]
    have hrecs' : recs = (pre ++ [r]) ++ rest := by simp [hrecs]
    exact ih hrecs' (by rw [webLayout_append_singleton]; exact hholds)

/-- `setup_insert` makes the site file of records that may be added one after the other. -/
theorem setupInsert_of_canAddAll {recs : List ParserEntry} (h : CanAddAll db recs)
    (unset : List UInt8) :
    setupInsert db unset (recs.length + 1) recs (List.replicate (recs.length + 1) zeroEntry) =
      some (webFile db recs ++ List.replicate (recs.length + 1 - (webFile db recs).length) zeroEntry,
        (webFile db recs).length, []) := by
  cases recs with
  | nil => rfl
  | cons r recs =>
    set n := (r :: recs).length + 1
    have hpos : 0 < n := Nat.succ_pos _
    have hadd := h [] recs r rfl
    have hnot : cseIsParent r.core.flags = false := by
      by_contra hp
      have hplace := (hadd.parent (by simpa using hp)).2
      rw [WebLayout.place, length_file_webLayout, List.length_nil] at hplace
      omega
    have hroot : r.core.parentIdx = -1 := hadd.root hnot rfl
    obtain ⟨s₁, hs₁, hstart⟩ := enterDirectory_start hpos unset hnot hroot
    -- the first round goes on as if it began in the root
    have hagain : enterDirectory r s₁ = some s₁ := by
      rw [enterDirectory, hnot, hstart.web, hstart.root (by rw [hstart.web]; rfl), hroot]
      rfl
    have hfirst : insertRecord db r (InsertState.init n unset) = insertRecord db r s₁ := by
      rw [insertRecord, insertRecord, hs₁, hagain]
    obtain ⟨s₂, hs₂, hholds⟩ :=
      @setupInsertLoop_webLayout db _ [] _ h n (Nat.lt_succ_self _) rfl _ hstart
    have hloop : setupInsertLoop db n (r :: recs) (InsertState.init n unset) = some ([], s₂) := by
      have hlt : s₁.currRecno < n := by
        rw [hstart.currRecno]
        simp [n, WebLayout.start]
      rw [setupInsertLoop, if_pos hlt] at hs₂
      rw [setupInsertLoop, if_pos (show (InsertState.init n unset).currRecno < n from hpos), hfirst]
      exact hs₂
    rw [setupInsert, show { InsertState.init n unset with outArray := List.replicate n zeroEntry } =
      InsertState.init n unset from rfl, hloop, webFile, if_neg (by simp)]
    simp only [Option.bind_eq_bind, Option.bind_some, hholds.outArray, hholds.currRecno]

/-- **`setup_insert` makes the site file of the records** in an array of the size
that `count_extra_recs` has found, and reads all of them. -/
theorem setupInsert_webFile {recs : List ParserEntry} (h : WellFormedWeb recs) {header : Header}
    (hheader : header.noRecs = recs.length) (unset : List UInt8) :
    ∃ rest, setupInsert db unset (countExtraRecs header).siteNoRecs recs
        (List.replicate (countExtraRecs header).siteNoRecs zeroEntry) =
      some (webFile db recs ++ rest, (webFile db recs).length, []) := by
  have hn : (countExtraRecs header).siteNoRecs = recs.length + 1 := by rw [countExtraRecs, hheader]
  rw [hn]
  exact ⟨_, setupInsert_of_canAddAll (canAdd_of_wellFormed h) unset⟩

end WebSetup

end Archie
