/-
Sending the site file of an anonftp site to another archie host
(`anonftp/update/net_anonftp.c`: `copy_parser_to_xdr`, `copy_xdr_to_parser`).

The sender undoes what `setup_insert` has done: it drops the records for
directories and translates the record numbers back to indices of parser records.

* `copyParserToXdr`, `copyXdrToParser` — the two functions.
* `exportLoop_layout` — what the first pass over a site file finds out, as far as
  the array `rec_numbers` has room.
* `exchange_iff` — the records come back, and make the same site file, exactly if
  the array has room for all records of the file.
-/
import Archie.HandleChain

namespace Archie

/-! ### The stream -/

/-- A parser record in the stream, followed by its string.  The field `rdate` is not
sent. -/
structure XdrEntry where
  size : ℕ
  date : ℕ
  parentIdx : ℤ
  childIdx : ℤ
  perms : ℕ
  flags : ℕ
  slen : ℕ
  string : List UInt8
  deriving DecidableEq, Repr

/-! ### `copy_parser_to_xdr` -/

/-- The variables of the first pass. -/
structure ExportState where
  recNumbers : List (Option ℤ)
  parentsArr : List (Option ℤ)
  childrenArr : List (Option ℤ)
  stringsArr : List (Option ℤ)
  currParent : ℤ
  currRecno : ℕ
  num : ℕ
  i : ℕ
  deriving DecidableEq, Repr

/-- A write to a cell with an index that may be negative. -/
def setCellAt (l : List (Option ℤ)) (i : ℤ) (v : ℤ) : Option (List (Option ℤ)) :=
  if 0 ≤ i then setCell l i.toNat v else none

variable (db : StringsDb) (file : List SiteEntry)

/-- A record that is sent. -/
def exportEntry (siteEnt : SiteEntry) (s : ExportState) : Option ExportState := do
  let parentsArr ← setCell s.parentsArr s.i s.currParent
  let childrenArr ← setCell s.childrenArr s.i (-1)
  let stringsArr ← setCell s.stringsArr s.i siteEnt.strt1
  some { s with
    parentsArr := parentsArr, childrenArr := childrenArr, stringsArr := stringsArr, i := s.i + 1 }

/-- The first entry of a directory, if the next record is one. -/
def exportChild (s : ExportState) : Option ExportState :=
  if s.currRecno + 1 < s.num then do
    let nextEnt ← file[s.currRecno + 1]?
    if !cseIsParent nextEnt.flags then
      let childrenArr ← setCellAt s.childrenArr s.currParent s.i
      some { s with childrenArr := childrenArr }
    else some s
  else some s

/-- The record of a directory whose entries follow. -/
def exportDirectory (siteEnt : SiteEntry) (s : ExportState) : Option ExportState := do
  let strt2 ← siteEnt.core.strt2
  if 0 ≤ strt2 then
    let currParent ← readCell s.recNumbers strt2
    exportChild file { s with currParent := currParent, num := s.num + 1 }
  else some { s with currParent := -1, num := s.num + 1 }

/-- One round of the first pass.  The second and third record, for the name of the
site, are passed over. -/
def exportStep (s : ExportState) : Option ExportState := do
  let recNumbers ← setCell s.recNumbers s.currRecno s.i
  let s := { s with recNumbers := recNumbers }
  if s.currRecno = 1 ∨ s.currRecno = 2 then some { s with num := s.num + 1 }
  else
    let siteEnt ← file[s.currRecno]?
    if !cseIsParent siteEnt.flags then exportEntry siteEnt s else exportDirectory file siteEnt s

/-- The first pass, with a bound on its rounds. -/
def exportLoop : ℕ → ExportState → Option ExportState
  | 0, _ => none
  | fuel + 1, s =>
    if s.currRecno < s.num then do
      let s ← exportStep file s
      exportLoop fuel { s with currRecno := s.currRecno + 1 }
    else some s

/-- The record that is sent for a record of the site file. -/
def sendEntry (s : ExportState) (siteEnt : SiteEntry) (i : ℕ) : Option XdrEntry :=
  match siteEnt.core with
  | .entry size date perms _ => do
    let parentIdx ← readCell s.parentsArr i
    let childIdx ← readCell s.childrenArr i
    let strt ← readCell s.stringsArr i
    let string ← db.getString strt
    let slen := string.length % 65536
    some { size := size, date := date, parentIdx := parentIdx, childIdx := childIdx, perms := perms
           flags := siteEnt.flags, slen := slen, string := string.take slen }
  | _ => none

/-- The second pass, over `rounds` records from `currRecno`. -/
def sendLoop (s : ExportState) : ℕ → ℕ → ℕ → Option (List XdrEntry)
  | 0, _, _ => some []
  | rounds + 1, currRecno, i =>
    if currRecno = 1 ∨ currRecno = 2 then sendLoop s rounds (currRecno + 1) i
    else do
      let siteEnt ← file[currRecno]?
      if !cseIsParent siteEnt.flags then
        let entry ← sendEntry db s siteEnt i
        let entries ← sendLoop s rounds (currRecno + 1) (i + 1)
        some (entry :: entries)
      else sendLoop s rounds (currRecno + 1) i

/-- `copy_parser_to_xdr`: the records in the stream.  `rec_numbers` has room for
twice as many records as were in the input, so that there are not more rounds. -/
def copyParserToXdr (noRecs : ℕ) : Option (List XdrEntry) := do
  let s ← exportLoop file (2 * noRecs + 1)
    { recNumbers := List.replicate (noRecs * 2) none
      parentsArr := List.replicate noRecs none
      childrenArr := List.replicate noRecs none
      stringsArr := List.replicate noRecs none
      currParent := -1, currRecno := 0, num := noRecs, i := 0 }
  sendLoop db file s s.num 0 0

/-! ### `copy_xdr_to_parser` -/

/-- The parser record that is written for a record of the stream.  A string of no
length cannot be written. -/
def receiveEntry (x : XdrEntry) : Option ParserEntry :=
  let flags := if 3 < x.flags then x.flags &&& 0x03 else x.flags
  if 8096 ≤ x.slen then none
  else if x.slen = 0 then none
  else some
    { core :=
        { size := x.size, date := x.date, parentIdx := x.parentIdx, childIdx := x.childIdx
          perms := x.perms, flags := flags, rdate := 0 }
      name := x.string }

/-- `copy_xdr_to_parser`. -/
def copyXdrToParser : ℕ → List XdrEntry → Option (List ParserEntry)
  | 0, _ => some []
  | _ + 1, [] => none
  | noRecs + 1, x :: xs => do
    let entry ← receiveEntry x
    let entries ← copyXdrToParser noRecs xs
    some (entry :: entries)

/-! ### The first entries of directories -/

/-- The index of the first entry of a directory, or `-1`. -/
def firstChild (recs : List ParserEntry) (j : ℤ) : ℤ :=
  ((recs.findIdx? fun r => r.core.parentIdx == j).map ((↑) : ℕ → ℤ)).getD (-1)

def firstChildren (recs : List ParserEntry) : List ℤ :=
  (List.range recs.length).map fun j : ℕ => firstChild recs j

@[simp] theorem length_firstChildren (recs : List ParserEntry) :
    (firstChildren recs).length = recs.length := by
  simp [firstChildren]

theorem firstChild_append_ne {pre : List ParserEntry} {r : ParserEntry} {j : ℤ}
    (hne : r.core.parentIdx ≠ j) : firstChild (pre ++ [r]) j = firstChild pre j := by
  simp [firstChild, List.findIdx?_append, hne]

theorem firstChild_append_of_exists {pre : List ParserEntry} {r : ParserEntry} {j : ℤ}
    (hex : ∃ q ∈ pre, q.core.parentIdx = j) : firstChild (pre ++ [r]) j = firstChild pre j := by
  obtain ⟨k, hk⟩ : ∃ k, pre.findIdx? (fun q => q.core.parentIdx == j) = some k := by
    rw [← Option.isSome_iff_exists, List.findIdx?_isSome]
    simpa using hex
  simp [firstChild, List.findIdx?_append, hk]

theorem firstChild_append_self {pre : List ParserEntry} {r : ParserEntry}
    (hfresh : ∀ q ∈ pre, q.core.parentIdx ≠ r.core.parentIdx) :
    firstChild (pre ++ [r]) r.core.parentIdx = pre.length := by
  have hnone : pre.findIdx? (fun q => q.core.parentIdx == r.core.parentIdx) = none := by
    simpa using hfresh
  simp [firstChild, List.findIdx?_append, hnone]

theorem firstChild_of_forall {recs : List ParserEntry} {j : ℤ}
    (hno : ∀ q ∈ recs, q.core.parentIdx ≠ j) : firstChild recs j = -1 := by
  have hnone : recs.findIdx? (fun q => q.core.parentIdx == j) = none := by
    simpa using hno
  simp [firstChild, hnone]

/-- One more entry is the first of its directory if it is not in that of the entry
before it, and has no entries itself yet. -/
theorem firstChildren_append {recs pre rest : List ParserEntry} {r : ParserEntry}
    (h : WellFormed recs)
    (hrecs : recs = pre ++ r :: rest) : firstChildren (pre ++ [r]) =
      (if r.core.parentIdx = lastParent pre then firstChildren pre
        else (firstChildren pre).set r.core.parentIdx.toNat pre.length) ++ [-1] := by
  have hlt : ∀ q ∈ pre ++ [r], q.core.parentIdx < pre.length := by
    intro q hq
    obtain ⟨i, hi, rfl⟩ := List.mem_iff_getElem.mp hq
    have hi' : i < recs.length := by
      rw [hrecs]
      simp at hi ⊢
      omega
    have hget : (pre ++ [r])[i] = recs[i] := by
      have hsplit : recs = (pre ++ [r]) ++ rest := by simp [hrecs]
      simp only [hsplit, List.getElem_append_left hi]
    rw [hget]
    simp only [List.length_append, List.length_singleton] at hi
    rcases h.parent i hi' with hroot | ⟨j, hj, hp, -⟩ <;> omega
  have hlast : firstChild (pre ++ [r]) pre.length = -1 :=
    firstChild_of_forall fun q hq => (hlt q hq).ne
  have hold : ∀ j : ℕ, firstChild (pre ++ [r]) j =
      if r.core.parentIdx ≠ lastParent pre ∧ r.core.parentIdx = j then (pre.length : ℤ)
      else firstChild pre j := by
    intro j
    by_cases hj : r.core.parentIdx = j
    · by_cases hprev : r.core.parentIdx = lastParent pre
      · rw [if_neg (by simp [hprev])]
        apply firstChild_append_of_exists
        cases hlast : pre.getLast? with
        | none =>
          rw [lastParent, hlast, Option.map_none, Option.getD_none] at hprev
          omega
        | some q =>
          refine ⟨q, List.mem_of_getLast? hlast, ?_⟩
          rw [← hj, hprev, lastParent, hlast]
          rfl
      · rw [if_pos ⟨hprev, hj⟩, ← hj]
        exact firstChild_append_self (h.fresh hrecs hprev)
    · rw [if_neg (by simp [hj])]
      exact firstChild_append_ne hj
  rw [firstChildren, List.length_append, List.length_singleton, List.range_succ, List.map_append,
    List.map_singleton, hlast]
  congr 1
  split
  next hprev =>
    refine List.map_congr_left fun j _ => ?_
    rw [hold, if_neg (by simp [hprev])]
  next hprev =>
    obtain ⟨k, hk, hpk, -⟩ := (h.next hrecs).resolve_left hprev
    refine List.ext_getElem (by simp) fun j h1 h2 => ?_
    have hiff : r.core.parentIdx = (j : ℤ) ↔ r.core.parentIdx.toNat = j := by omega
    rw [List.getElem_map, List.getElem_range, hold, List.getElem_set]
    simp [firstChildren, hprev, hiff]

/-! ### Arrays that are filled from the front -/

/-- An array whose first cells were written. -/
def cells (n : ℕ) (l : List ℤ) : List (Option ℤ) := l.map some ++ List.replicate (n - l.length) none

section

variable {n i : ℕ} {l : List ℤ}

theorem length_cells (h : l.length ≤ n) : (cells n l).length = n := by
  simp [cells]
  omega

theorem setCell_cells_next (hi : l.length = i) (hn : i < n) (v : ℤ) :
    setCell (cells n l) i v = some (cells n (l ++ [v])) := by
  obtain ⟨k, hk⟩ : ∃ k, n - l.length = k + 1 := ⟨n - l.length - 1, by omega⟩
  have hset := setCell_end (l.map some) k v
  rw [List.length_map, hi] at hset
  rw [cells, hk, hset, cells, List.length_append, List.length_singleton,
    show n - (l.length + 1) = k by omega]
  simp

theorem setCell_cells (hi : i < l.length) (v : ℤ) :
    setCell (cells n l) i v = some (cells n (l.set i v)) := by
  rw [cells, setCell, if_pos (by simp; omega), List.set_append_left _ _ (by simpa using hi), cells,
    List.map_set, List.length_set]

theorem setCell_cells_full (h : l.length ≤ n) (hi : n ≤ i) (v : ℤ) :
    setCell (cells n l) i v = none := by
  rw [setCell, if_neg (by rw [length_cells h]; omega)]

theorem readCell_cells (hi : i < l.length) : readCell (cells n l) i = some (l.getD i 0) :=
  readCell_done hi _

end

/-! ### The first pass over a site file -/

/-- The variables of the first pass when it has come through a layout. -/
structure HoldsExport (db : StringsDb) (n : ℕ) (pre : List ParserEntry) (L : Layout)
    (nums children : List ℤ) (s : ExportState) : Prop where
  recNumbers : s.recNumbers = cells (n * 2) nums
  parentsArr : s.parentsArr = cells n (pre.map fun r => r.core.parentIdx)
  childrenArr : s.childrenArr = cells n children
  stringsArr : s.stringsArr = cells n (pre.map fun r => db.appendKey r.name)
  currParent : s.currParent = L.prev
  currRecno : s.currRecno = L.file.length
  num : s.num + pre.length = n + L.file.length
  i : s.i = pre.length
  lengthNums : nums.length = L.file.length
  room : nums.length ≤ n * 2
  three : 3 ≤ L.file.length
  lengthChildren : children.length = pre.length
  lengthPlaces : L.places.length = pre.length
  place : ∀ j < pre.length, L.place j < L.file.length ∧ nums.getD (L.place j) 0 = j

/-- A round of the loop. -/
theorem exportLoop_round {file : List SiteEntry} {s s' : ExportState} (hlt : s.currRecno < s.num)
    (hs : exportStep file s = some s') (fuel : ℕ) :
    exportLoop file (fuel + 1) s = exportLoop file fuel
      { s' with currRecno := s'.currRecno + 1 } := by
  rw [exportLoop, if_pos hlt, hs]
  rfl

/-- A round that fails ends the loop. -/
theorem exportLoop_fail {file : List SiteEntry} {s : ExportState} (hlt : s.currRecno < s.num)
    (hs : exportStep file s = none) (fuel : ℕ) : exportLoop file fuel s = none := by
  cases fuel with
  | zero => rfl
  | succ fuel =>
    rw [exportLoop, if_pos hlt, hs]
    rfl

namespace HoldsExport

variable {db : StringsDb} {file : List SiteEntry} {n : ℕ} {pre : List ParserEntry} {L : Layout}
  {nums children : List ℤ} {s : ExportState}

theorem lt_num (hs : HoldsExport db n pre L nums children s) (hn : pre.length < n) :
    s.currRecno < s.num := by
  have hnum := hs.num
  have hrecno := hs.currRecno
  omega

/-- Without room for the number of the next record there is no result. -/
theorem step_full (hs : HoldsExport db n pre L nums children s) (hfull : n * 2 ≤ L.file.length) :
    exportStep file s = none := by
  rw [exportStep, hs.recNumbers, hs.currRecno, setCell_cells_full hs.room hfull]
  rfl

/-- The round of a record after the first three. -/
theorem step_eq (hs : HoldsExport db n pre L nums children s) (hroom : L.file.length < n * 2)
    {siteEnt : SiteEntry} (hent : file[L.file.length]? = some siteEnt) : exportStep file s =
      if !cseIsParent siteEnt.flags
      then exportEntry siteEnt { s with recNumbers := cells (n * 2) (nums ++ [(pre.length : ℤ)]) }
      else exportDirectory file siteEnt
        { s with recNumbers := cells (n * 2) (nums ++ [(pre.length : ℤ)]) } := by
  have hthree := hs.three
  have h12 : ¬ (L.file.length = 1 ∨ L.file.length = 2) := by omega
  rw [exportStep, hs.recNumbers, hs.currRecno, hs.i, setCell_cells_next hs.lengthNums hroom]
  simp only [Option.bind_eq_bind, Option.bind_some, h12, if_false, hent]

/-- The record numbers of the entries stay where they are. -/
theorem place_append (hs : HoldsExport db n pre L nums children s) (v : ℤ) {j : ℕ}
    (hj : j < pre.length) :
    (nums ++ [v]).getD (L.place j) 0 = j := by
  obtain ⟨hlt, hnum⟩ := hs.place j hj
  rw [List.getD_append _ _ _ _ (by rw [hs.lengthNums]; exact hlt), hnum]

/-- The record of an entry. -/
theorem step_entry (hs : HoldsExport db n pre L nums children s) (hroom : L.file.length < n * 2)
    (hn : pre.length < n) {r : ParserEntry} (hent : file[L.file.length]? = some (entryOf db r))
    (hflags : r.core.flags < 4) (hprev : r.core.parentIdx = L.prev) :
    ∃ s', exportStep file s = some s' ∧ HoldsExport db n (pre ++ [r]) (L.addEntry db r)
      (nums ++ [(pre.length : ℤ)]) (children ++ [-1])
        { s' with currRecno := s'.currRecno + 1 } := by
  have hparents := setCell_cells_next (l := pre.map fun r => r.core.parentIdx) (n := n)
    (List.length_map _) hn r.core.parentIdx
  have hstrings := setCell_cells_next (l := pre.map fun r => db.appendKey r.name) (n := n)
    (List.length_map _) hn (db.appendKey r.name)
  have hchildren := setCell_cells_next (n := n) hs.lengthChildren hn (-1)
  rw [hs.step_eq hroom hent, entryOf]
  simp only [(plain_flags hflags).1, Bool.not_false, if_true, exportEntry, hs.parentsArr,
    hs.childrenArr,
    hs.stringsArr, hs.i, hs.currParent, ← hprev, hparents, hchildren, hstrings, Option.bind_eq_bind,
    Option.bind_some]
  have hnum := hs.num
  exact ⟨_, rfl, {
    recNumbers := rfl
    parentsArr := by simp
    childrenArr := rfl
    stringsArr := by simp
    currParent := hprev
    currRecno := by simp [Layout.addEntry, hs.currRecno]
    num := by
      simp [Layout.addEntry]
      omega
    i := by simp
    lengthNums := by simp [Layout.addEntry, hs.lengthNums]
    room := by
      simp [hs.lengthNums]
      omega
    three := by
      have hthree := hs.three
      simp [Layout.addEntry]
      omega
    lengthChildren := by simp [hs.lengthChildren]
    lengthPlaces := by simp [Layout.addEntry, hs.lengthPlaces]
    place := by
      intro j hj
      rw [List.length_append, List.length_singleton] at hj
      rcases Nat.lt_or_eq_of_le (Nat.le_of_lt_succ hj) with hlt | rfl
      · rw [(L.extends_addEntry db r).place (by rw [hs.lengthPlaces]; exact hlt)]
        have hplace := (hs.place j hlt).1
        exact ⟨by simp [Layout.addEntry]; omega, hs.place_append _ hlt⟩
      · have hplace : (L.addEntry db r).place pre.length = L.file.length := by
          simp [Layout.place, Layout.addEntry, ← hs.lengthPlaces]
        rw [hplace, ← hs.lengthNums]
        simp [Layout.addEntry, hs.lengthNums] }⟩

/-- The record of a directory, which the record of its first entry follows. -/
theorem step_enter (hs : HoldsExport db n pre L nums children s) (hroom : L.file.length < n * 2)
    (hn : pre.length < n) {j : ℕ} (hj : j < pre.length) (hne : (j : ℤ) ≠ L.prev)
    {strt1 : ℤ} (hent : file[L.file.length]? = some (subpathRec strt1 (L.place j)))
    {nextEnt : SiteEntry} (hnext : file[L.file.length + 1]? = some nextEnt)
    (hplain : cseIsParent nextEnt.flags = false) :
    ∃ s', exportStep file s = some s' ∧ HoldsExport db n pre (L.enter j)
      (nums ++ [(pre.length : ℤ)]) (children.set j pre.length)
      { s' with currRecno := s'.currRecno + 1 } := by
  obtain ⟨hlt, -⟩ := hs.place j hj
  have hread : readCell (cells (n * 2) (nums ++ [(pre.length : ℤ)])) (L.place j) = some
      (j : ℤ) := by
    rw [readCell_cells (by simp [hs.lengthNums]; omega), hs.place_append _ hj]
  have hset : setCellAt (cells n children) (j : ℤ) pre.length =
      some (cells n (children.set j pre.length)) := by
    rw [setCellAt, if_pos (Int.natCast_nonneg j), Int.toNat_natCast,
      setCell_cells (by rw [hs.lengthChildren]; exact hj)]
  have hnum := hs.num
  have hmore : L.file.length + 1 < s.num + 1 := by omega
  rw [hs.step_eq hroom hent, cseIsParent_subpathRec, exportDirectory, subpathRec, SiteCore.strt2]
  simp only [Bool.not_true, Bool.false_eq_true, if_false,
    Option.bind_eq_bind, Option.bind_some, Int.natCast_nonneg, if_true, hread, exportChild,
      hs.currRecno,
    hmore, hnext, hplain, Bool.not_false, hs.childrenArr, hs.i, hset]
  have henter : L.enter j = { L with
      file := L.file ++ [subpathRec (L.mainOf (L.place j)) (L.place j)]
      mains := L.mains ++ [(L.main : ℤ)], prev := j, main := L.file.length } := by
    rw [Layout.enter, if_neg hne, Int.toNat_natCast]
  have hthree := hs.three
  exact ⟨_, rfl, {
    recNumbers := rfl
    parentsArr := hs.parentsArr
    childrenArr := rfl
    stringsArr := hs.stringsArr
    currParent := by simp
    currRecno := by simp [henter]
    num := by
      simp [henter]
      omega
    i := rfl
    lengthNums := by simp [henter, hs.lengthNums]
    room := by
      simp [hs.lengthNums]
      omega
    three := by
      simp [henter]
      omega
    lengthChildren := by simp [hs.lengthChildren]
    lengthPlaces := by simp [hs.lengthPlaces]
    place := by
      intro i hi
      rw [(L.extends_enter j).place (by rw [hs.lengthPlaces]; exact hi)]
      have hplace := (hs.place i hi).1
      exact ⟨by simp [henter]; omega, hs.place_append _ hi⟩ }⟩

end HoldsExport

section

variable {db : StringsDb} {host : List UInt8} {recs pre rest : List ParserEntry} {r : ParserEntry}

theorem Layout.Extends.trans {L L' L'' : Layout} (h' : L''.Extends L') (h : L'.Extends L) :
    L''.Extends L := by
  obtain ⟨⟨f', hf'⟩, ⟨m', hm'⟩, ⟨p', hp'⟩⟩ := h'
  obtain ⟨⟨f, hf⟩, ⟨m, hm⟩, ⟨p, hp⟩⟩ := h
  exact ⟨⟨f ++ f', by simp [hf', hf]⟩, ⟨m ++ m', by simp [hm', hm]⟩, ⟨p ++ p', by simp [hp', hp]⟩⟩

variable (db) in
theorem layout_extends (host : List UInt8) (pre rest : List ParserEntry) :
    (layout db host (pre ++ rest)).Extends (layout db host pre) := by
  induction rest using List.reverseRecOn with
  | nil =>
    rw [List.append_nil]
    exact ⟨⟨[], by simp⟩, ⟨[], by simp⟩, ⟨[], by simp⟩⟩
  | append_singleton rest r ih =>
    rw [← List.append_assoc, layout_append_singleton, Layout.add]
    exact ((Layout.extends_addEntry db _ r).trans (Layout.extends_enter _ _)).trans ih

variable (db host) in
/-- What the site file has for the next entry: its record, and before it that of its
directory unless the entry before it is in the same one. -/
theorem layout_next (hrecs : recs = pre ++ r :: rest) :
    (layout db host recs).file[((layout db host pre).enter r.core.parentIdx).file.length]? =
        some (entryOf db r) ∧
      (r.core.parentIdx ≠ (layout db host pre).prev →
        (layout db host recs).file[(layout db host pre).file.length]? =
          some (subpathRec ((layout db host pre).mainOf
            ((layout db host pre).place r.core.parentIdx.toNat))
            ((layout db host pre).place r.core.parentIdx.toNat))) := by
  have hext := layout_extends db host (pre ++ [r]) rest
  rw [List.append_assoc, List.singleton_append, ← hrecs, layout_append_singleton,
    Layout.add] at hext
  constructor
  · rw [hext.getElem? (by simp [Layout.addEntry])]
    simp [Layout.addEntry]
  · intro hne
    have hfile : ((layout db host pre).enter r.core.parentIdx).file = (layout db host pre).file ++
        [subpathRec ((layout db host pre).mainOf
          ((layout db host pre).place r.core.parentIdx.toNat))
          ((layout db host pre).place r.core.parentIdx.toNat)] := by
      rw [Layout.enter, if_neg hne]
    rw [hext.getElem? (by simp [Layout.addEntry, hfile])]
    simp [Layout.addEntry, hfile]

variable (db host) in
/-- The first three records are numbered `0`. -/
theorem exportLoop_start {file : List SiteEntry} (hfile : file[0]? = some (subpathRec (-1) (-1)))
    {n : ℕ}
    (hn : 2 ≤ n) (fuel : ℕ) : ∃ s, exportLoop file (fuel + 3)
      { recNumbers := List.replicate (n * 2) none, parentsArr := List.replicate n none
        childrenArr := List.replicate n none, stringsArr := List.replicate n none
        currParent := -1, currRecno := 0, num := n, i := 0 } = exportLoop file fuel s ∧
      HoldsExport db n [] (Layout.start db host) [0, 0, 0] [] s := by
  have hcells : List.replicate (n * 2) none = cells (n * 2) [] := by simp [cells]
  have h0 := setCell_cells_next (l := []) (n := n * 2) (i := 0) rfl (by omega) 0
  have h1 := setCell_cells_next (l := [0]) (n := n * 2) (i := 1) rfl (by omega) 0
  have h2 := setCell_cells_next (l := [0, 0]) (n := n * 2) (i := 2) rfl (by omega) 0
  let s₁ : ExportState :=
    { recNumbers := cells (n * 2) [0], parentsArr := List.replicate n none
      childrenArr := List.replicate n none, stringsArr := List.replicate n none
      currParent := -1, currRecno := 1, num := n + 1, i := 0 }
  let s₂ : ExportState :=
    { s₁ with recNumbers := cells (n * 2) [0, 0], currRecno := 2, num := n + 2 }
  let s₃ : ExportState :=
    { s₁ with recNumbers := cells (n * 2) [0, 0, 0], currRecno := 3, num := n + 3 }
  refine ⟨s₃, ?_, ?_⟩
  · rw [hcells]
    have hstep₁ : exportStep file
        { s₁ with recNumbers := cells (n * 2) [], currRecno := 0, num := n } =
        some { s₁ with currRecno := 0 } := by
      rw [exportStep]
      simp only [s₁, Nat.cast_zero, h0, hfile, Option.bind_eq_bind, Option.bind_some]
      simp [subpathRec, cseIsParent, cseIsSubpath, exportDirectory, SiteCore.strt2]
    have hstep₂ : exportStep file s₁ = some { s₂ with currRecno := 1 } := by
      rw [exportStep]
      simp only [s₁, s₂, Nat.cast_zero, h1, Option.bind_eq_bind, Option.bind_some]
      simp
    have hstep₃ : exportStep file s₂ = some { s₃ with currRecno := 2 } := by
      rw [exportStep]
      simp only [s₁, s₂, s₃, Nat.cast_zero, h2, Option.bind_eq_bind, Option.bind_some]
      simp
    rw [exportLoop_round (by simp; omega) hstep₁, exportLoop_round (by simp [s₁]; omega) hstep₂,
      exportLoop_round (by simp [s₂]; omega) hstep₃]
  · exact {
      recNumbers := rfl
      parentsArr := by simp [s₃, s₁, cells]
      childrenArr := by simp [s₃, s₁, cells]
      stringsArr := by simp [s₃, s₁, cells]
      currParent := rfl
      currRecno := rfl
      num := rfl
      i := rfl
      lengthNums := rfl
      room := by simp; omega
      three := le_rfl
      lengthChildren := rfl
      lengthPlaces := rfl
      place := by simp }

/-- For one record the array has no room for the number of the third. -/
theorem exportLoop_one {file : List SiteEntry} (hfile : file[0]? = some (subpathRec (-1) (-1))) :
    exportLoop file 3
      { recNumbers := List.replicate 2 none, parentsArr := List.replicate 1 none
        childrenArr := List.replicate 1 none, stringsArr := List.replicate 1 none
        currParent := -1, currRecno := 0, num := 1, i := 0 } = none := by
  simp [exportLoop, exportStep, setCell, hfile, exportDirectory, subpathRec, SiteCore.strt2,
    cseIsParent,
    cseIsSubpath]

/-- **The first pass over a site file** comes to its end if `rec_numbers` has room for
a number for each record, and otherwise writes past the array. -/
theorem exportLoop_layout (h : WellFormed recs) (hrecs : recs = pre ++ rest) {nums : List ℤ}
    {s : ExportState}
    (hs : HoldsExport db recs.length pre (layout db host pre) nums (firstChildren pre) s) {fuel : ℕ}
    (hfuel : recs.length * 2 + 1 ≤ fuel + (layout db host pre).file.length) :
    if (layout db host recs).file.length ≤ recs.length * 2
    then ∃ s' nums', exportLoop (layout db host recs).file fuel s = some s' ∧
      HoldsExport db recs.length recs (layout db host recs) nums' (firstChildren recs) s'
    else exportLoop (layout db host recs).file fuel s = none := by
  induction rest generalizing pre nums s fuel with
  | nil =>
    rw [List.append_nil] at hrecs
    subst hrecs
    have hroom := hs.room
    rw [hs.lengthNums] at hroom
    rw [if_pos hroom]
    obtain ⟨fuel, rfl⟩ : ∃ k, fuel = k + 1 := ⟨fuel - 1, by omega⟩
    have hend : ¬ s.currRecno < s.num := by
      have hnum := hs.num
      have hrecno := hs.currRecno
      omega
    exact ⟨s, nums, by rw [exportLoop, if_neg hend], hs⟩
  | cons r rest ih =>
    obtain ⟨hent, hdir⟩ := layout_next db host hrecs
    have hn : pre.length < recs.length := by simp [hrecs]
    have hflags := h.plain r (by simp [hrecs])
    have hprev := (layoutOk_layout db host pre).prev
    have hrecs' : recs = (pre ++ [r]) ++ rest := by simp [hrecs]
    have hadd : layout db host (pre ++ [r]) =
        ((layout db host pre).enter r.core.parentIdx).addEntry db r :=
      layout_append_singleton db host pre r
    have hle : ((layout db host pre).enter r.core.parentIdx).file.length + 1 ≤
        (layout db host recs).file.length := by
      have hle := length_file_layout_le db host (pre ++ [r]) rest
      rw [← hrecs', hadd] at hle
      simpa [Layout.addEntry] using hle
    have hlen := (layout db host pre).length_file_enter r.core.parentIdx
    -- the entry, when its directory has been gone to
    have hentry : ∀ (nums : List ℤ) (s : ExportState) (fuel : ℕ),
        HoldsExport db recs.length pre ((layout db host pre).enter r.core.parentIdx) nums
          (if r.core.parentIdx = lastParent pre then firstChildren pre
            else (firstChildren pre).set r.core.parentIdx.toNat pre.length) s →
        recs.length * 2 + 1 ≤ fuel + ((layout db host pre).enter r.core.parentIdx).file.length →
        if (layout db host recs).file.length ≤ recs.length * 2
        then ∃ s' nums', exportLoop (layout db host recs).file fuel s = some s' ∧
          HoldsExport db recs.length recs (layout db host recs) nums' (firstChildren recs) s'
        else exportLoop (layout db host recs).file fuel s = none := by
      intro nums s fuel hs hfuel
      by_cases hroom : ((layout db host pre).enter r.core.parentIdx).file.length < recs.length * 2
      · obtain ⟨fuel, rfl⟩ : ∃ k, fuel = k + 1 := ⟨fuel - 1, by omega⟩
        obtain ⟨s', hs', hholds⟩ := hs.step_entry hroom hn hent hflags (by simp)
        rw [← firstChildren_append h hrecs, ← hadd] at hholds
        rw [exportLoop_round (hs.lt_num hn) hs']
        refine ih hrecs' hholds ?_
        rw [hadd]
        simp only [Layout.addEntry, List.length_append, List.length_singleton]
        omega
      · rw [if_neg (by omega)]
        exact exportLoop_fail (hs.lt_num hn) (hs.step_full (by omega)) fuel
    by_cases hp : r.core.parentIdx = (layout db host pre).prev
    · have henter : (layout db host pre).enter r.core.parentIdx = layout db host pre := by
        rw [Layout.enter, if_pos hp]
      refine hentry nums s fuel ?_ (by rw [henter]; exact hfuel)
      rw [henter, if_pos (hp.trans hprev)]
      exact hs
    · obtain ⟨j, hj, hpj, -⟩ := (h.next hrecs).resolve_left (by rw [← hprev]; exact hp)
      rw [if_neg hp] at hlen
      by_cases hroom : (layout db host pre).file.length < recs.length * 2
      · obtain ⟨fuel, rfl⟩ : ∃ k, fuel = k + 1 := ⟨fuel - 1, by omega⟩
        have hdir' := hdir hp
        rw [hpj, Int.toNat_natCast] at hdir'
        rw [hlen] at hent
        obtain ⟨s', hs', hholds⟩ :=
          hs.step_enter hroom hn hj (hpj ▸ hp) hdir' hent (plain_flags hflags).1
        rw [exportLoop_round (hs.lt_num hn) hs']
        refine hentry (nums ++ [(pre.length : ℤ)]) _ fuel ?_ (by rw [hlen]; omega)
        rw [if_neg (by rw [← hprev]; exact hp), hpj, Int.toNat_natCast]
        exact hholds
      · rw [if_neg (by omega)]
        exact exportLoop_fail (hs.lt_num hn) (hs.step_full (by omega)) fuel

/-! ### The records that are sent -/

/-- The record that is sent for the record of the input with an index. -/
def sentEntry (recs : List ParserEntry) (i : ℕ) (r : ParserEntry) : XdrEntry where
  size := r.core.size
  date := r.core.date
  parentIdx := r.core.parentIdx
  childIdx := firstChild recs i
  perms := r.core.perms
  flags := r.core.flags
  slen := r.name.length
  string := r.name

/-- The second pass sends a record for each entry. -/
theorem sendLoop_layout (h : WellFormed recs) (hnames : ∀ r ∈ recs, db.Faithful r.name)
    {nums : List ℤ} {s : ExportState}
    (hs : HoldsExport db recs.length recs (layout db host recs) nums (firstChildren recs) s)
    (hrecs : recs = pre ++ rest) {rounds : ℕ}
    (hrounds : rounds + (layout db host pre).file.length = (layout db host recs).file.length) :
    sendLoop db (layout db host recs).file s rounds (layout db host pre).file.length pre.length =
      some (rest.mapIdx fun k r => sentEntry recs (pre.length + k) r) := by
  induction rest generalizing pre rounds with
  | nil =>
    rw [List.append_nil] at hrecs
    subst hrecs
    obtain rfl : rounds = 0 := by omega
    rfl
  | cons r rest ih =>
    obtain ⟨hent, hdir⟩ := layout_next db host hrecs
    have hmem : r ∈ recs := by simp [hrecs]
    have hn : pre.length < recs.length := by simp [hrecs]
    have hflags := h.plain r hmem
    have hrecs' : recs = (pre ++ [r]) ++ rest := by simp [hrecs]
    have hadd : layout db host (pre ++ [r]) =
        ((layout db host pre).enter r.core.parentIdx).addEntry db r :=
      layout_append_singleton db host pre r
    have hlast : (layout db host (pre ++ [r])).file.length =
        ((layout db host pre).enter r.core.parentIdx).file.length + 1 := by
      rw [hadd]
      simp [Layout.addEntry]
    have hle := length_file_layout_le db host (pre ++ [r]) rest
    rw [← hrecs'] at hle
    have hlen := (layout db host pre).length_file_enter r.core.parentIdx
    have hthree : 3 ≤ (layout db host pre).file.length := by
      rw [length_file_layout db h host hrecs]
      omega
    have hsend : sendEntry db s (entryOf db r) pre.length = some (sentEntry recs pre.length r) := by
      have hget : recs[pre.length] = r := by simp [hrecs]
      have hslen : r.name.length % 65536 = r.name.length := by
        have hname := (h.name r hmem).2.1
        omega
      rw [sendEntry, entryOf]
      simp only [hs.parentsArr, hs.childrenArr, hs.stringsArr]
      rw [readCell_cells (by simpa using hn), readCell_cells (by simpa using hn),
        readCell_cells (by simpa using hn)]
      simp [hn, hget, (hnames r hmem).2, hslen, sentEntry, firstChildren]
    -- the entry, when the record of its directory has been passed
    have hentry : ∀ rounds, rounds + ((layout db host pre).enter r.core.parentIdx).file.length =
        (layout db host recs).file.length →
        sendLoop db (layout db host recs).file s rounds
            ((layout db host pre).enter r.core.parentIdx).file.length pre.length =
          some ((r :: rest).mapIdx fun k r => sentEntry recs (pre.length + k) r) := by
      intro rounds hrounds
      obtain ⟨rounds, rfl⟩ : ∃ k, rounds = k + 1 := ⟨rounds - 1, by omega⟩
      have hrest := ih hrecs' (show rounds + (layout db host (pre ++ [r])).file.length = _ by omega)
      rw [hlast, List.length_append, List.length_singleton] at hrest
      have hplain : cseIsParent (entryOf db r).flags = false := (plain_flags hflags).1
      rw [sendLoop, if_neg (by omega), hent]
      simp only [Option.bind_eq_bind, Option.bind_some, hplain, Bool.not_false, if_true, hsend,
        hrest]
      rw [List.mapIdx_cons]
      simp only [Nat.add_zero, Nat.add_assoc, Nat.add_comm 1]
    by_cases hp : r.core.parentIdx = (layout db host pre).prev
    · rw [if_pos hp] at hlen
      have hgo := hentry rounds (by omega)
      rwa [hlen] at hgo
    · rw [if_neg hp] at hlen
      obtain ⟨rounds, rfl⟩ : ∃ k, rounds = k + 1 := ⟨rounds - 1, by omega⟩
      rw [sendLoop, if_neg (by omega), hdir hp]
      simp only [Option.bind_eq_bind, Option.bind_some, cseIsParent_subpathRec, Bool.not_true,
        Bool.false_eq_true, if_false]
      rw [← hlen]
      exact hentry rounds (by omega)

end

/-! ### The records that come back -/

/-- A record with what `setup_insert` reads of it. -/
def ParserEntry.strip (r : ParserEntry) : ParserEntry :=
  { r with core := { r.core with childIdx := 0, rdate := 0 } }

/-- The record that comes back for the record of the input with an index. -/
def receivedEntry (recs : List ParserEntry) (i : ℕ) (r : ParserEntry) : ParserEntry :=
  { r with core := { r.core with childIdx := firstChild recs i, rdate := 0 } }

theorem receiveEntry_sentEntry {recs : List ParserEntry} {r : ParserEntry}
    (hflags : r.core.flags < 4)
    (hne : r.name ≠ []) (hlen : r.name.length ≤ 255) (i : ℕ) :
    receiveEntry (sentEntry recs i r) = some (receivedEntry recs i r) := by
  have hpos : 0 < r.name.length := List.length_pos_iff.mpr hne
  rw [receiveEntry, if_neg
    (by simp only [sentEntry]; omega), if_neg (by simp only [sentEntry]; omega)]
  simp [sentEntry, receivedEntry, show ¬ 3 < r.core.flags by omega]

theorem copyXdrToParser_mapIdx {l : List ParserEntry} {f : ℕ → ParserEntry → XdrEntry}
    {g : ℕ → ParserEntry → ParserEntry} (h : ∀ r ∈ l, ∀ i, receiveEntry (f i r) = some (g i r)) :
    copyXdrToParser l.length (l.mapIdx f) = some (l.mapIdx g) := by
  induction l generalizing f g with
  | nil => rfl
  | cons r l ih =>
    rw [List.mapIdx_cons, List.mapIdx_cons, List.length_cons, copyXdrToParser, h r (by simp),
      ih (f := fun i => f (i + 1)) fun q hq i => h q (by simp [hq]) (i + 1)]
    rfl

variable {db : StringsDb} {host : List UInt8} {recs back : List ParserEntry}

theorem layout_strip (recs : List ParserEntry) :
    layout db host (recs.map ParserEntry.strip) = layout db host recs := by
  rw [layout, List.foldl_map]
  rfl

theorem WellFormed.of_strip (h : WellFormed recs)
    (hback : back.map ParserEntry.strip = recs.map ParserEntry.strip) :
    WellFormed back := by
  have hlen : back.length = recs.length := by simpa using congrArg List.length hback
  have hget : ∀ (i : ℕ) (hi : i < back.length) (hi' : i < recs.length),
      back[i].strip = recs[i].strip := by
    intro i hi _
    have hmap := List.getElem_of_eq hback (i := i) (by simpa using hi)
    simpa using hmap
  have hparent : ∀ (i : ℕ) (hi : i < back.length) (hi' : i < recs.length),
      back[i].core.parentIdx = recs[i].core.parentIdx := fun i hi hi' =>
    congrArg (fun r => r.core.parentIdx) (hget i hi hi')
  have hflags : ∀ (i : ℕ) (hi : i < back.length) (hi' : i < recs.length),
      back[i].core.flags = recs[i].core.flags := fun i hi hi' =>
    congrArg (fun r => r.core.flags) (hget i hi hi')
  have hname : ∀ (i : ℕ) (hi : i < back.length) (hi' : i < recs.length),
      back[i].name = recs[i].name := fun i hi hi' =>
    congrArg (fun r => r.name) (hget i hi hi')
  refine ⟨?_, ?_, ?_, ?_⟩
  · intro r hr
    obtain ⟨i, hi, rfl⟩ := List.mem_iff_getElem.mp hr
    rw [hflags i hi (by omega)]
    exact h.plain _ (List.getElem_mem _)
  · intro r hr
    obtain ⟨i, hi, rfl⟩ := List.mem_iff_getElem.mp hr
    rw [hname i hi (by omega)]
    exact h.name _ (List.getElem_mem _)
  · intro i hi
    rw [hparent i hi (by omega)]
    refine (h.parent i (by omega)).imp_right fun ⟨j, hj, hp, hdir⟩ => ⟨j, hj, hp, ?_⟩
    rw [hflags j (by omega) (by omega)]
    exact hdir
  · intro i j k hij hjk hk heq
    rw [hparent i (by omega) (by omega), hparent k hk (by omega)] at heq
    rw [hparent i (by omega) (by omega), hparent j (by omega) (by omega)]
    exact h.contiguous i j k hij hjk (by omega) heq

theorem siteFile_eq_of_strip (hback : back.map ParserEntry.strip = recs.map ParserEntry.strip) :
    siteFile db host back = siteFile db host recs := by
  have hnil : back = [] ↔ recs = [] := by
    rw [← List.map_eq_nil_iff (f := ParserEntry.strip), hback, List.map_eq_nil_iff]
  rw [siteFile, siteFile, ← layout_strip back, hback, layout_strip]
  simp only [hnil]

theorem siteNoRecs_eq_of_strip (hback : back.map ParserEntry.strip = recs.map ParserEntry.strip)
    (header : Header) : countExtraRecs back header = countExtraRecs recs header := by
  have hfold : ∀ (l : List ParserEntry) (n : ℕ), (l.take header.noRecs).foldl
      (fun extraRecs r => if cseIsDir r.core.flags then extraRecs + 1 else extraRecs) n =
      (((l.map ParserEntry.strip).take header.noRecs).foldl
        (fun extraRecs r => if cseIsDir r.core.flags then extraRecs + 1 else extraRecs) n) := by
    intro l n
    rw [← List.map_take, List.foldl_map]
    rfl
  rw [countExtraRecs, countExtraRecs, hfold, hback, ← hfold]

/-- The records of the site file are sent if and only if there is room for the numbers
of all records. -/
theorem copyParserToXdr_iff (h : WellFormed recs) (hnames : ∀ r ∈ recs, db.Faithful r.name) :
    (recs = [] ∨ (listedDirs recs).card + 3 ≤ recs.length) ↔
      copyParserToXdr db (siteFile db host recs) recs.length = some
        (recs.mapIdx (sentEntry recs)) := by
  by_cases hnil : recs = []
  · subst hnil
    exact iff_of_true (.inl rfl) rfl
  have hfile : siteFile db host recs = (layout db host recs).file := if_neg hnil
  have hlen := length_file_layout db h host (List.append_nil recs).symm
  have hpos : 0 < recs.length := List.length_pos_iff.mpr hnil
  have hhead : (layout db host recs).file[0]? = some (subpathRec (-1) (-1)) :=
    (layout_extends db host [] recs).getElem? (show 0 < 3 by omega)
  simp only [hnil, false_or]
  rw [hfile]
  by_cases hone : recs.length = 1
  · refine iff_of_false (by omega) ?_
    rw [copyParserToXdr, hone, exportLoop_one hhead]
    simp
  obtain ⟨s, hstart, hs⟩ := exportLoop_start db host hhead (n := recs.length) (by omega)
    (2 * recs.length + 1 - 3)
  rw [show 2 * recs.length + 1 - 3 + 3 = 2 * recs.length + 1 by omega] at hstart
  have hfuel : recs.length * 2 + 1 ≤ 2 * recs.length + 1 - 3 + (layout db host []).file.length := by
    rw [show (layout db host []).file.length = 3 from rfl]
    omega
  have hloop := exportLoop_layout h (List.nil_append recs).symm hs hfuel
  rw [copyParserToXdr, hstart]
  split at hloop
  next hroom =>
    obtain ⟨s', nums, hs', hholds⟩ := hloop
    refine iff_of_true (by omega) ?_
    have hnum := hholds.num
    obtain ⟨rounds, hrounds⟩ : ∃ k, s'.num = k + 3 := ⟨s'.num - 3, by omega⟩
    have hsend := sendLoop_layout h hnames hholds (List.nil_append recs).symm
      (show rounds + 3 = (layout db host recs).file.length by omega)
    have hfirst : sendLoop db (layout db host recs).file s' (rounds + 3) 0 0 =
        sendLoop db (layout db host recs).file s' rounds 3 0 := by
      simp [sendLoop, hhead]
    rw [hs', Option.bind_eq_bind, Option.bind_some, hrounds, hfirst]
    simp only [List.length_nil, Nat.zero_add] at hsend
    exact hsend
  next hroom =>
    refine iff_of_false (by omega) ?_
    rw [hloop]
    simp

/-- **The records come back, and make the same site file, exactly if `rec_numbers` has
room for all records of the file.** -/
theorem exchange_iff (h : WellFormed recs) {header : Header} (hheader : HeaderFor recs header host)
    (hnames : ∀ r ∈ recs, db.Faithful r.name) (unset : List UInt8) :
    let insert (input : List ParserEntry) :=
      setupInsert db unset (countExtraRecs input header) input
      (List.replicate (countExtraRecs input header).siteNoRecs zeroEntry)
    let file := siteFile db host recs
    (∃ unused, insert recs = some (file ++ List.replicate unused zeroEntry, file.length, [])) ∧
    ((recs = [] ∨ (listedDirs recs).card + 3 ≤ recs.length) ↔
      copyParserToXdr db file recs.length = some (recs.mapIdx (sentEntry recs)) ∧
      ∃ back, copyXdrToParser recs.length (recs.mapIdx (sentEntry recs)) = some back ∧
        insert back = insert recs) := by
  intro insert file
  have hinsert : insert recs = some (file ++ List.replicate
      ((countExtraRecs recs header).siteNoRecs - file.length) zeroEntry, file.length, []) :=
    (setupInsert_siteFile h hheader unset).2
  refine ⟨⟨_, hinsert⟩, ?_⟩
  have hback : (recs.mapIdx (receivedEntry recs)).map ParserEntry.strip =
      recs.map ParserEntry.strip := by
    refine List.ext_getElem (by simp) fun i h1 h2 => ?_
    simp [receivedEntry, ParserEntry.strip]
  have hreceive : copyXdrToParser recs.length (recs.mapIdx (sentEntry recs)) =
      some (recs.mapIdx (receivedEntry recs)) :=
    copyXdrToParser_mapIdx fun r hr i =>
      receiveEntry_sentEntry (h.plain r hr) (h.name r hr).1 (h.name r hr).2.1 i
  have hreturn : insert (recs.mapIdx (receivedEntry recs)) = insert recs := by
    have hheader' : HeaderFor (recs.mapIdx (receivedEntry recs)) header host :=
      { hheader with noRecs := by rw [hheader.noRecs, List.length_mapIdx] }
    have hinsert' := (@setupInsert_siteFile db _ (h.of_strip hback) _ _ hheader' unset).2
    rw [siteFile_eq_of_strip hback, siteNoRecs_eq_of_strip hback] at hinsert'
    refine Eq.trans ?_ hinsert.symm
    simpa only [insert, siteNoRecs_eq_of_strip hback] using hinsert'
  have hiff : (recs = [] ∨ (listedDirs recs).card + 3 ≤ recs.length) ↔
      copyParserToXdr db file recs.length = some (recs.mapIdx (sentEntry recs)) :=
    copyParserToXdr_iff h hnames
  rw [hiff]
  exact ⟨fun hsent => ⟨hsent, _, hreceive, hreturn⟩, fun hsent => hsent.1⟩

/-- Three files in the root of the host `h`. -/
def sampleFiles : List ParserEntry :=
  [⟨⟨5, 0, -1, -1, 0, 0, 0⟩, [97]⟩, ⟨⟨6, 0, -1, -1, 0, 0, 0⟩, [98]⟩,
    ⟨⟨7, 0, -1, -1, 0, 0, 0⟩, [99]⟩]

/-- A directory `a`, a directory `b` in it, and a file `c` in that. -/
def sampleChain : List ParserEntry :=
  [⟨⟨0, 0, -1, 1, 0, 1, 0⟩, [97]⟩, ⟨⟨0, 0, 0, 2, 0, 1, 0⟩, [98]⟩, ⟨⟨7, 0, 1, -1, 0, 0, 0⟩, [99]⟩]

theorem sampleFiles_wellFormed : WellFormed sampleFiles where
  plain := by decide
  name := by simp [sampleFiles]
  parent := by
    intro i hi
    have hcases : i = 0 ∨ i = 1 ∨ i = 2 := by
      simp [sampleFiles] at hi
      omega
    rcases hcases with rfl | rfl | rfl <;> exact .inl rfl
  contiguous := by
    intro i j k hij hjk hk heq
    have hroot : ∀ (i : ℕ) (hi : i < sampleFiles.length), sampleFiles[i].core.parentIdx = -1 := by
      decide
    rw [hroot, hroot]

theorem exchange_iff_sample :
    copyParserToXdr sampleDb (siteFile sampleDb [104] sampleFiles) 3 =
      some (sampleFiles.mapIdx (sentEntry sampleFiles)) := by
  obtain ⟨-, hiff⟩ := @exchange_iff sampleDb _ _ sampleFiles_wellFormed _ sample_headerFor
    (by simp [StringsDb.Faithful, sampleDb, sampleFiles]) []
  exact (hiff.mp (.inr (by decide))).1

theorem sampleChain_wellFormed : WellFormed sampleChain where
  plain := by decide
  name := by simp [sampleChain]
  parent := by
    intro i hi
    have hdir : cseIsDir 1 = true := by decide
    have hcases : i = 0 ∨ i = 1 ∨ i = 2 := by
      simp [sampleChain] at hi
      omega
    rcases hcases with rfl | rfl | rfl
    · exact .inl rfl
    · exact .inr ⟨0, by omega, rfl, hdir⟩
    · exact .inr ⟨1, by omega, rfl, hdir⟩
  contiguous := by
    intro i j k hij hjk hk heq
    have hparent : ∀ (i : ℕ) (hi : i < sampleChain.length),
        sampleChain[i].core.parentIdx = i - 1 := by
      decide
    rw [hparent, hparent] at heq
    obtain rfl : i = j := by omega
    rfl

/-- With a directory in a directory the last two of eight numbers do not fit the array
for six. -/
theorem copyParserToXdr_chain : WellFormed sampleChain ∧
    HeaderFor sampleChain ⟨8, sampleChain.length, 0, [104], []⟩ [104] ∧
    (∀ r ∈ sampleChain, sampleDb.Faithful r.name) ∧
    copyParserToXdr sampleDb (siteFile sampleDb [104] sampleChain) 3 = none := by
  refine ⟨sampleChain_wellFormed, sample_headerFor, ?_, by decide⟩
  simp [StringsDb.Faithful, sampleDb, sampleChain]

end Archie
