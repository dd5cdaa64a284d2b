/-
Sending the site file of a web site to another archie host (`webindex/update/net_webindex.c`:
`copy_parser_to_xdr`, `no_recs_to_send`, `no_excerpts_to_send`, `output_excerpt`).

* `chosen`, `rank` — the numbers below a bound that a test keeps, and the places that they get.
* `WebTransfer.copyParserToXdr`, `WebTransfer.noRecsToSend` — what is sent, and how much is said to be.
* `WebSite` — the records of a web site as the parser writes them.
* `webSent` — the record that is sent for a record of the parser.
* `WebTransfer.HoldsWebExport` — the variables of the loop when it has come through some records.
* `webTransfer` — what the receiver gets.
* `excerptsInStep_iff` — when the excerpts that are sent are those of the documents.
-/
import Archie.Exchange
import Archie.WebInsert

namespace Archie

/-! ### Numbers that are kept -/

section

variable (p : ℕ → Bool)

/-- The numbers below `n` that are kept. -/
def chosen (n : ℕ) : List ℕ := (List.range n).filter p

/-- The place of a number among those that are kept. -/
def rank (i : ℕ) : ℕ := (List.range i).countP p

variable {p} {n i j : ℕ}

theorem chosen_succ_of_pos (h : p n = true) : chosen p (n + 1) = chosen p n ++ [n] := by
  rw [chosen, List.range_succ, List.filter_append, chosen, List.filter_cons_of_pos h,
    List.filter_nil]

theorem chosen_succ_of_neg (h : p n = false) : chosen p (n + 1) = chosen p n := by
  rw [chosen, List.range_succ, List.filter_append, chosen,
    List.filter_cons_of_neg (by rw [h]; exact Bool.false_ne_true),
    List.filter_nil, List.append_nil]

theorem rank_succ_of_pos (h : p n = true) : rank p (n + 1) = rank p n + 1 := by
  rw [rank, List.range_succ, List.countP_append, rank, List.countP_singleton, if_pos h]

theorem rank_succ_of_neg (h : p n = false) : rank p (n + 1) = rank p n := by
  rw [rank, List.range_succ, List.countP_append, rank, List.countP_singleton, h,
    if_neg Bool.false_ne_true, Nat.add_zero]

theorem length_chosen (p : ℕ → Bool) (n : ℕ) : (chosen p n).length = rank p n := by
  rw [chosen, rank, List.countP_eq_length_filter]

theorem rank_le (p : ℕ → Bool) (n : ℕ) : rank p n ≤ n := by
  rw [rank]
  exact List.countP_le_length.trans_eq List.length_range

theorem rank_mono (p : ℕ → Bool) (h : i ≤ j) : rank p i ≤ rank p j := by
  induction j, h using Nat.le_induction with
  | base => exact le_rfl
  | succ j _ ih =>
    cases hj : p j with
    | false => rwa [rank_succ_of_neg hj]
    | true =>
      rw [rank_succ_of_pos hj]
      exact ih.trans (Nat.le_succ _)

theorem rank_lt (hi : p i = true) (h : i < j) : rank p i < rank p j := by
  have hle := rank_mono p h
  rw [Nat.succ_eq_add_one, rank_succ_of_pos hi] at hle
  exact hle

/-- If all are chosen, each has its own place. -/
theorem rank_eq_of_forall (h : ∀ i < n, p i = true) (hj : j ≤ n) : rank p j = j := by
  induction j with
  | zero => rfl
  | succ j ih => rw [rank_succ_of_pos (h j hj), ih (by omega)]

theorem chosen_eq_of_forall (h : ∀ i < n, p i = true) : chosen p n = List.range n := by
  rw [chosen, List.filter_eq_self]
  exact fun i hi => h i (List.mem_range.mp hi)

/-- A number is found at its place. -/
theorem getElem?_chosen (hi : p i = true) (h : i < n) : (chosen p n)[rank p i]? = some i := by
  induction n with
  | zero => omega
  | succ n ih =>
    obtain hlt | rfl : i < n ∨ i = n := by omega
    · cases hn : p n with
      | false =>
        rw [chosen_succ_of_neg hn]
        exact ih hlt
      | true =>
        rw [chosen_succ_of_pos hn,
          List.getElem?_append_left (by rw [length_chosen]; exact rank_lt hi hlt)]
        exact ih hlt
    · rw [chosen_succ_of_pos hi, ← length_chosen, List.getElem?_concat_length]

/-- Changing what is at the place of a number changes it for this number. -/
theorem modify_map_chosen {α : Type*} (f : ℕ → α) (g : α → α) (hi : p i = true) (h : i < n) :
    ((chosen p n).map f).modify (rank p i) g = (chosen p n).map fun j => if j = i then g (f j)
      else f j := by
  refine List.ext_getElem? fun k => ?_
  rw [List.getElem?_modify, List.getElem?_map, List.getElem?_map]
  by_cases hk : rank p i = k
  · subst hk
    simp [getElem?_chosen hi h]
  · cases hget : (chosen p n)[k]? with
    | none => rfl
    | some j =>
      have hne : j ≠ i := by
        rintro rfl
        obtain ⟨hklt, hkj⟩ := List.getElem?_eq_some_iff.mp hget
        obtain ⟨hrlt, hrj⟩ := List.getElem?_eq_some_iff.mp (getElem?_chosen hi h)
        have hnd : (chosen p n).Nodup := List.Nodup.filter _ List.nodup_range
        exact hk ((List.Nodup.getElem_inj_iff hnd).mp (hrj.trans hkj.symm))
      simp [hne, hk]

end

/-! ### What comes of the members with a property -/

section

variable {α β : Type*} {p : α → Bool} {f : α → Option β} {l : List α}

theorem length_filterMap_eq (hf : ∀ x ∈ l, (f x).isSome = p x) :
    (l.filterMap f).length = l.countP p := by
  rw [List.length_filterMap_eq_countP]
  exact List.countP_congr fun x hx => by rw [hf x hx]

/-- What comes of a member is found behind that of those before it. -/
theorem getElem?_filterMap {i : ℕ} {x : α} (hf : ∀ x ∈ l, (f x).isSome = p x) (hx : l[i]? = some x)
    (hp : p x = true) :
    (l.filterMap f)[(l.take i).countP p]? = f x := by
  have hmem := List.mem_of_getElem? hx
  obtain ⟨y, hy⟩ := Option.isSome_iff_exists.mp ((hf x hmem).trans hp)
  obtain ⟨hi, rfl⟩ := List.getElem?_eq_some_iff.mp hx
  have hsplit : l = l.take i ++ l[i] :: l.drop (i + 1) := by
    rw [← List.drop_eq_getElem_cons hi, List.take_append_drop]
  have hlen : ((l.take i).filterMap f).length = (l.take i).countP p :=
    length_filterMap_eq fun x hx => hf x (List.mem_of_mem_take hx)
  have hmap : l.filterMap f = (l.take i).filterMap f ++ y :: (l.drop (i + 1)).filterMap f := by
    rw [← List.filterMap_cons_some hy, ← List.filterMap_append, ← hsplit]
  rw [hmap, ← hlen, List.getElem?_append_right le_rfl, Nat.sub_self, List.getElem?_cons_zero, hy]

/-- Each place is that of a member. -/
theorem exists_countP_take {k : ℕ} (hk : k < l.countP p) :
    ∃ i x, l[i]? = some x ∧ p x = true ∧ (l.take i).countP p = k := by
  induction l generalizing k with
  | nil => simp at hk
  | cons a l ih =>
    cases ha : p a with
    | false =>
      rw [List.countP_cons_of_neg (by rw [ha]; exact Bool.false_ne_true)] at hk
      obtain ⟨i, x, hx, hp, hcount⟩ := ih hk
      refine ⟨i + 1, x, hx, hp, ?_⟩
      rw [List.take_succ_cons,
        List.countP_cons_of_neg (by rw [ha]; exact Bool.false_ne_true), hcount]
    | true =>
      rw [List.countP_cons_of_pos ha] at hk
      cases k with
      | zero => exact ⟨0, a, rfl, ha, rfl⟩
      | succ k =>
        obtain ⟨i, x, hx, hp, hcount⟩ := ih (k := k) (by omega)
        refine ⟨i + 1, x, hx, hp, ?_⟩
        rw [List.take_succ_cons, List.countP_cons_of_pos ha, hcount]

end

/-! ### The functions -/

/-- A parser record in the stream, followed by its string; `slen` is the length of this.  What the
program does not set has no value. -/
structure XdrWebEntry where
  size : Option ℕ
  date : Option ℕ
  rdate : Option ℕ
  perms : Option ℕ
  parentIdx : ℤ
  childIdx : ℤ
  flags : ℕ
  string : List UInt8
  deriving DecidableEq, Repr

namespace WebTransfer

/-- The variables of the loop; `sent` is `parser_arr` and `strings_arr` up to `i`. -/
structure ExportState where
  recNumbers : List (Option ℤ)
  sent : List XdrWebEntry
  currParent : ℤ
  currRecno : ℕ
  num : ℕ
  flag : Bool
  excerptCounter : ℕ
  deriving DecidableEq, Repr

section

variable (db : StringsDb) (file : List SiteEntry) (noRecs date : ℕ)

/-- The fields of a record, but for its place and its string, with `flag` and `excerpt_counter` after
it. -/
def exportFields (siteEnt : SiteEntry) (s : ExportState) : Option (XdrWebEntry × Bool × ℕ) :=
  let entry : XdrWebEntry :=
    { size := none, date := none, rdate := none, perms := none, parentIdx := s.currParent, childIdx := -1
      flags := siteEnt.flags, string := [] }
  if cseIsKey siteEnt.flags then
    match siteEnt.core with
    | .kwrd weight => some ({ entry with size := some weight }, s.flag, s.excerptCounter)
    | _ => none
  else
    match siteEnt.core with
    | .entry size date' _ rdate =>
      let entry := { entry with size := some size, date := some date', rdate := some rdate }
      if cseIsDoc siteEnt.flags then
        if date < rdate then some
          ({ entry with perms := some s.excerptCounter }, true, s.excerptCounter + 1)
        else some ({ entry with perms := some 0 }, false, s.excerptCounter)
      else some (entry, true, s.excerptCounter)
    | _ => none

/-- A record that is sent, or a keyword that is not. -/
def exportEntry (siteEnt : SiteEntry) (s : ExportState) : Option ExportState := do
  if cseIsKey siteEnt.flags && !s.flag then
    let recNumbers ← setCell s.recNumbers s.currRecno (-1)
    some { s with recNumbers }
  else
    let (entry, flag, excerptCounter) ← exportFields date siteEnt s
    let string ← db.getString siteEnt.strt1
    -- the copy of a string has room for `slen` characters, and the arrays for `no_recs` records
    if 65536 ≤ string.length ∨ noRecs ≤ s.sent.length then none
    else some { s with sent := s.sent ++ [{ entry with string }], flag, excerptCounter }

/-- The first entry of a directory, if the next record is one. -/
def exportChild (s : ExportState) : Option ExportState :=
  if s.currRecno + 1 < s.num then do
    let nextEnt ← file[s.currRecno + 1]?
    if !cseIsParent nextEnt.flags then
      if 0 ≤ s.currParent ∧ s.currParent.toNat < s.sent.length then
        some { s with sent := s.sent.modify s.currParent.toNat fun x => { x with childIdx := s.sent.length } }
      else none
    else some s
  else some s

/-- The record of a directory whose entries follow. -/
def exportDirectory (siteEnt : SiteEntry) (s : ExportState) : Option ExportState := do
  let strt2 ← siteEnt.core.strt2
  if noRecs ≤ s.sent.length then none
  else if 0 ≤ strt2 then
    let currParent ← readCell s.recNumbers strt2
    if currParent < 0 then none
    else
      let parent ← s.sent[currParent.toNat]?
      let entry : XdrWebEntry :=
        { size := some 0, date := some 0, rdate := some 0, perms := some 0, parentIdx := currParent, childIdx := -1
          flags := siteEnt.flags, string := parent.string }
      exportChild file { s with sent := s.sent ++ [entry], currParent, flag := true }
  else some { s with num := s.num + 1, currParent := 0, flag := true }

/-- One round. -/
def exportStep (s : ExportState) : Option ExportState := do
  let recNumbers ← setCell s.recNumbers s.currRecno s.sent.length
  let s := { s with recNumbers }
  let siteEnt ← file[s.currRecno]?
  if !cseIsParent siteEnt.flags then exportEntry db noRecs date siteEnt s
    else exportDirectory file noRecs siteEnt s

/-- The loop over the records of the site file, with a bound on its rounds. -/
def exportLoop : ℕ → ExportState → Option ExportState
  | 0, _ => none
  | fuel + 1, s =>
    if s.currRecno < s.num then do
      let s ← exportStep db file noRecs date s
      exportLoop fuel { s with currRecno := s.currRecno + 1 }
    else some s

/-- The variables after the loop. -/
def exportSite : Option ExportState :=
  exportLoop db file noRecs date (noRecs + 2)
    { recNumbers := List.replicate (noRecs * 2) none
      sent := [], currParent := -1, currRecno := 0, num := noRecs, flag := true, excerptCounter := 0 }

/-- `copy_parser_to_xdr`: the records in the stream. -/
def copyParserToXdr : Option (List XdrWebEntry) :=
  (exportSite db file noRecs date).map ExportState.sent

/-- `rdate` of a record. -/
def siteRdate (siteEnt : SiteEntry) : Option ℕ :=
  match siteEnt.core with
  | .entry _ _ _ rdate => some rdate
  | _ => none

/-- The loop of `no_recs_to_send`. -/
def noRecsToSendLoop : ℕ → ℕ → ℕ → Bool → Option ℕ
  | 0, _, counter, _ => some counter
  | rounds + 1, currRecno, counter, flag => do
    let siteEnt ← file[currRecno]?
    if cseIsDoc siteEnt.flags then
      let rdate ← siteRdate siteEnt
      noRecsToSendLoop rounds (currRecno + 1) (counter + 1) (rdate ≤ date)
    else if cseIsKey siteEnt.flags then
      noRecsToSendLoop rounds (currRecno + 1) (if flag then counter else counter + 1) flag
    else noRecsToSendLoop rounds (currRecno + 1) (counter + 1) false

/-- `no_recs_to_send`. -/
def noRecsToSend : Option ℕ := noRecsToSendLoop file date noRecs 1 0 false

/-- The loop of `no_excerpts_to_send`. -/
def noExcerptsToSendLoop : ℕ → ℕ → ℕ → Option ℕ
  | 0, _, counter => some counter
  | rounds + 1, currRecno, counter => do
    let siteEnt ← file[currRecno]?
    if cseIsDoc siteEnt.flags then
      let rdate ← siteRdate siteEnt
      noExcerptsToSendLoop rounds (currRecno + 1) (if date ≤ rdate then counter + 1 else counter)
    else noExcerptsToSendLoop rounds (currRecno + 1) counter

/-- `no_excerpts_to_send`. -/
def noExcerptsToSend : Option ℕ := noExcerptsToSendLoop file date noRecs 0 0

/-- The number of the excerpt of a record. -/
def sitePerms (siteEnt : SiteEntry) : Option ℕ :=
  match siteEnt.core with
  | .entry _ _ perms _ => some perms
  | _ => none

variable {α : Type} (excerpts : List α)

/-- The loop of `output_excerpt`. -/
def outputExcerptLoop : ℕ → ℕ → Option (List α)
  | 0, _ => some []
  | rounds + 1, currRecno => do
    let siteEnt ← file[currRecno]?
    if cseIsDoc siteEnt.flags then
      let rdate ← siteRdate siteEnt
      if date < rdate then
        let perms ← sitePerms siteEnt
        let excerptEnt ← excerpts[perms]?
        let rest ← outputExcerptLoop rounds (currRecno + 1)
        some (excerptEnt :: rest)
      else outputExcerptLoop rounds (currRecno + 1)
    else outputExcerptLoop rounds (currRecno + 1)

/-- `output_excerpt`: the excerpts that are written. -/
def outputExcerpt : Option (List α) := outputExcerptLoop file date excerpts noRecs 0

/-- `send_webindex_excerpt`: the number in the header, and the excerpts behind it. -/
def sendWebindexExcerpt : Option (ℕ × List α) := do
  let recsToSend ← noExcerptsToSend file noRecs date
  if recsToSend = 0 then some (recsToSend, [])
  else
    let written ← outputExcerpt file noRecs date excerpts
    some (recsToSend, written)

end

end WebTransfer

/-! ### The records of a web site -/

section

variable (recs : List ParserEntry) (date : ℕ)

/-- The record that keywords belong to: the last one that is no keyword. -/
def docIdx : ℕ → ℕ
  | 0 => 0
  | i + 1 => if recs[i + 1]?.any (fun r => cseIsKey r.core.flags) then docIdx i else i + 1

/-- The directory whose entries come at a place: that of the last record for one before it. -/
def dirBefore : ℕ → ℤ
  | 0 => 0
  | i + 1 =>
    match recs[i]? with
    | none => dirBefore i
    | some r => if cseIsParent r.core.flags then r.core.parentIdx else dirBefore i

/-- Whether the keywords of a record are sent: not those of a document that is not newer than the
date. -/
def keysSent (i : ℕ) : Bool :=
  recs[i]?.all fun r => !cseIsDoc r.core.flags || decide (date < r.core.rdate)

/-- The records that are sent. -/
def webKept (i : ℕ) : Bool :=
  !recs[i]?.any (fun r => cseIsKey r.core.flags) || keysSent recs date (docIdx recs i)

/-- Where an index leads among the records that are sent. -/
def renumber (p : ℤ) : ℤ := if p < 0 then p else rank (webKept recs date) p.toNat

/-- The directory of a record; that of the first one is said to be itself.  A keyword is in the directory
of its document. -/
def webParent (i : ℕ) : ℤ :=
  if docIdx recs i = 0 then 0 else ((recs[docIdx recs i]?).map fun r => r.core.parentIdx).getD 0

/-- The record for a directory that entries follow. -/
def listsDir (j : ℤ) (k : ℕ) : Bool :=
  recs[k]?.any (fun r => cseIsParent r.core.flags && r.core.parentIdx == j) &&
    recs[k + 1]?.any fun r => !cseIsParent r.core.flags

/-- The first entry of a directory, as far as the records for directories before `m` tell. -/
def childUpTo (m : ℕ) (j : ℤ) : ℤ :=
  match (List.range m).find? (listsDir recs j) with
  | none => -1
  | some k => k + 1

/-- The first entry of a directory. -/
def webChild (j : ℤ) : ℤ := childUpTo recs recs.length j

/-- The number of documents before a record that are newer than the date. -/
def newerDocs (i : ℕ) : ℕ :=
  (recs.take i).countP fun r => cseIsDoc r.core.flags && decide (date < r.core.rdate)

/-- What is sent for a record, when the records for directories before `m` have been seen. -/
def webSent (m i : ℕ) : XdrWebEntry :=
  let r := recs.getD i ⟨⟨0, 0, 0, 0, 0, 0, 0⟩, []⟩
  let entry : XdrWebEntry :=
    { size := none, date := none, rdate := none, perms := none, parentIdx := renumber recs date (webParent recs i)
      childIdx := renumber recs date (childUpTo recs m i), flags := r.core.flags, string := r.name }
  if cseIsParent r.core.flags
    then { entry with size := some 0, date := some 0, rdate := some 0, perms := some 0 }
  else if cseIsKey r.core.flags then { entry with size := some r.core.size }
  else { entry with
    size := some r.core.size, date := some r.core.date, rdate := some r.core.rdate
    perms := if cseIsDoc r.core.flags then some (if date < r.core.rdate then newerDocs recs date i
      else 0) else none }

end

/-- The records of a web site as the parser writes them: all but the first are in the directory whose
record comes last before them, a record for a directory has its name, and each directory is listed
once. -/
structure WebSite (recs : List ParserEntry) : Prop extends WellFormedWeb recs where
  listed : ∀ (i : ℕ) (r : ParserEntry), recs[i]? = some r → i ≠ 0 →
    cseIsParent r.core.flags = false →
    cseIsKey r.core.flags = false → r.core.parentIdx = dirBefore recs i
  heading : ∀ (i j : ℕ) (r r' : ParserEntry), recs[i]? = some r → cseIsParent r.core.flags = true →
    r.core.parentIdx = j → recs[j]? = some r' → r.name = r'.name ∧ cseIsKey r'.core.flags = false
  once : ∀ (i j : ℕ) (r r' : ParserEntry), recs[i]? = some r → recs[j]? = some r' →
    cseIsParent r.core.flags = true →
    cseIsParent r'.core.flags = true → r.core.parentIdx = r'.core.parentIdx → i = j
  short : ∀ r ∈ recs, r.name.length < 65536

section

variable {recs : List ParserEntry} {db : StringsDb} {date m i : ℕ} {r : ParserEntry}

theorem docIdx_of_notKey (hr : recs[i]? = some r) (hkey : cseIsKey r.core.flags = false) :
    docIdx recs i = i := by
  cases i with
  | zero => rfl
  | succ i => simp [docIdx, hr, hkey]

theorem docIdx_succ_of_key (hr : recs[i + 1]? = some r) (hkey : cseIsKey r.core.flags = true) :
    docIdx recs (i + 1) = docIdx recs i := by
  simp [docIdx, hr, hkey]

theorem dirBefore_succ (hr : recs[i]? = some r) :
    dirBefore recs (i + 1) = if cseIsParent r.core.flags then r.core.parentIdx
      else dirBefore recs i := by
  simp [dirBefore, hr]

theorem webChosen_of_notKey (hr : recs[i]? = some r) (hkey : cseIsKey r.core.flags = false) :
    webKept recs date i = true := by
  simp [webKept, hr, hkey]

theorem webChosen_of_key (hr : recs[i]? = some r) (hkey : cseIsKey r.core.flags = true) :
    webKept recs date i = keysSent recs date (docIdx recs i) := by
  simp [webKept, hr, hkey]

/-- A record that is no record for a directory is in the one whose entries come at its place. -/
theorem WebSite.webParent_eq (h : WebSite recs) (hr : recs[i]? = some r)
    (hparent : cseIsParent r.core.flags = false) :
    webParent recs i = dirBefore recs i := by
  induction i generalizing r with
  | zero => rfl
  | succ i ih =>
    cases hkey : cseIsKey r.core.flags with
    | false =>
      rw [webParent, docIdx_of_notKey hr hkey, if_neg i.succ_ne_zero, hr]
      exact h.listed (i + 1) r hr i.succ_ne_zero hparent hkey
    | true =>
      -- A keyword is where the record before it is.
      obtain ⟨j, r', hj, hr', hparent', -⟩ := h.keyword (i + 1) r hr hkey
      obtain rfl : i = j := by omega
      rw [webParent, docIdx_succ_of_key hr hkey, dirBefore_succ hr', hparent',
        if_neg Bool.false_ne_true]
      exact ih hr' hparent'

theorem WebSite.webParent_dir (h : WebSite recs) (hr : recs[i]? = some r)
    (hparent : cseIsParent r.core.flags = true) :
    webParent recs i = r.core.parentIdx := by
  obtain ⟨j, r', hj, -⟩ := h.parent i r hr hparent
  have hkey := ((h.kind r (List.mem_of_getElem? hr)).parent_flags hparent).2.1
  rw [webParent, docIdx_of_notKey hr hkey, if_neg (by omega), hr]
  rfl

/-- No record for a directory comes before its entry. -/
theorem WebSite.childUpTo_self (h : WebSite recs) (hm : m ≤ i + 1) : childUpTo recs m i = -1 := by
  have hnone : (List.range m).find? (listsDir recs i) = none := by
    rw [List.find?_eq_none]
    intro k hk hlists
    rw [List.mem_range] at hk
    rw [listsDir, Bool.and_eq_true, Option.any_eq_true] at hlists
    obtain ⟨r, hr, hand⟩ := hlists.1
    rw [Bool.and_eq_true, beq_iff_eq] at hand
    obtain ⟨j, r', hj, hidx, -⟩ := h.parent k r hr hand.1
    omega
  rw [childUpTo, hnone]

theorem childUpTo_succ_of_not {j : ℤ} (h : listsDir recs j m = false) :
    childUpTo recs (m + 1) j = childUpTo recs m j := by
  have hfind : (List.range (m + 1)).find? (listsDir recs j) = (List.range m).find?
      (listsDir recs j) := by
    rw [List.range_succ, List.find?_append,
      List.find?_cons_of_neg (by rw [h]; exact Bool.false_ne_true), List.find?_nil,
      Option.or_none]
  rw [childUpTo, hfind, childUpTo]

/-- The record for a directory tells its first entry. -/
theorem WebSite.childUpTo_succ (h : WebSite recs) {j : ℤ} (hlists : listsDir recs j m = true) :
    childUpTo recs (m + 1) j = m + 1 := by
  have hfind : (List.range (m + 1)).find? (listsDir recs j) = some m := by
    rw [List.range_succ, List.find?_append]
    have hnone : (List.range m).find? (listsDir recs j) = none := by
      rw [List.find?_eq_none]
      intro k hk hlists'
      rw [listsDir, Bool.and_eq_true, Option.any_eq_true] at hlists hlists'
      obtain ⟨r, hr, hand⟩ := hlists.1
      obtain ⟨r', hr', hand'⟩ := hlists'.1
      rw [Bool.and_eq_true, beq_iff_eq] at hand hand'
      have hkm := h.once k m r' r hr' hr hand'.1 hand.1 (hand'.2.trans hand.2.symm)
      exact absurd (List.mem_range.mp hk) (by omega)
    rw [hnone, Option.none_or, List.find?_cons_of_pos hlists]
  rw [childUpTo, hfind]

/-! ### The loop over a site file -/

theorem WebKind.key_not_doc {flags : ℕ} (h : WebKind flags) (hkey : cseIsKey flags = true) :
    cseIsDoc flags = false := by
  obtain ⟨hflags, -⟩ := h.key_flags hkey
  rw [Bool.or_eq_false_iff, Bool.or_eq_false_iff] at hflags
  exact hflags.1.2

theorem renumber_natCast (i : ℕ) : renumber recs date i = rank (webKept recs date) i := by
  rw [renumber, if_neg (by omega), Int.toNat_natCast]

theorem newerDocs_succ (hr : recs[m]? = some r) : newerDocs recs date (m + 1) =
    newerDocs recs date m + if cseIsDoc r.core.flags && decide (date < r.core.rdate) then 1
      else 0 := by
  obtain ⟨hm, rfl⟩ := List.getElem?_eq_some_iff.mp hr
  rw [newerDocs, List.take_add_one, hr, List.countP_append, Option.toList_some,
    List.countP_singleton, newerDocs]

theorem webSent_childIdx (recs : List ParserEntry) (date m i : ℕ) : webSent recs date (m + 1) i =
    { webSent recs date m i with childIdx := renumber recs date (childUpTo recs (m + 1) i) } := by
  rw [webSent, webSent]
  dsimp only
  split
  · rfl
  · split <;> rfl

/-- The string, the flags and the directory that are sent for a record. -/
theorem webSent_of (hr : recs[i]? = some r) (date m : ℕ) : (webSent recs date m i).string = r.name ∧
    (webSent recs date m i).flags = r.core.flags ∧
    (webSent recs date m i).parentIdx = renumber recs date (webParent recs i) := by
  rw [webSent, List.getD_eq_getElem?_getD, hr, Option.getD_some]
  dsimp only
  split
  · exact ⟨rfl, rfl, rfl⟩
  · split <;> exact ⟨rfl, rfl, rfl⟩

/-- What is sent changes only if a directory is listed. -/
theorem webSent_succ_of_not {i : ℕ} (h : listsDir recs i m = false) :
    webSent recs date (m + 1) i = webSent recs date m i := by
  rw [webSent_childIdx, childUpTo_succ_of_not h]
  rw [webSent]
  dsimp only
  split
  · rfl
  · split <;> rfl

namespace WebTransfer

/-- What the table `rec_numbers` says of the record of the root and `m` others. -/
def recNums (recs : List ParserEntry) (date m : ℕ) : List ℤ :=
  0 :: (List.range m).map fun i => if webKept recs date i then (rank (webKept recs date) i : ℤ)
    else -1

@[simp] theorem length_recNums (recs : List ParserEntry) (date m : ℕ) :
  (recNums recs date m).length = m + 1 := by
  simp [recNums]

theorem recNums_succ (recs : List ParserEntry) (date m : ℕ) : recNums recs date (m + 1) =
    recNums recs date m ++
      [if webKept recs date m then (rank (webKept recs date) m : ℤ) else -1] := by
  rw [recNums, List.range_succ, List.map_append, recNums, List.cons_append, List.map_singleton]

/-- The variables of the loop when it has come through the record of the root and `m` others. -/
structure HoldsWebExport (recs : List ParserEntry) (date m : ℕ) (s : ExportState) : Prop where
  recNumbers : s.recNumbers = cells (recs.length * 2) (recNums recs date m)
  sent : s.sent = (chosen (webKept recs date) m).map (webSent recs date m)
  currParent : s.currParent = renumber recs date (dirBefore recs m)
  currRecno : s.currRecno = m + 1
  num : s.num = recs.length + 1
  flag : m ≠ 0 → s.flag = keysSent recs date (docIdx recs (m - 1))
  excerptCounter : s.excerptCounter = newerDocs recs date m

/-- With the record for a directory the directory gets its first entry. -/
theorem exportChild_eq (h : WebSite recs) (hr : recs[m]? = some r)
    (hp : cseIsParent r.core.flags = true) {j : ℕ}
    (hj : j ≤ m) (hidx : r.core.parentIdx = j) (hkept : webKept recs date j = true)
    {t : ExportState}
    (hsent : t.sent = (chosen (webKept recs date) (m + 1)).map (webSent recs date m))
    (hparent : t.currParent = rank (webKept recs date) j) (hrecno : t.currRecno = m + 1)
    (hnum : t.num = recs.length + 1) : exportChild (webLayout db recs).file t =
      some { t with sent := (chosen (webKept recs date) (m + 1)).map (webSent recs date
        (m + 1)) } := by
  have hother : ∀ i : ℕ, i ≠ j → listsDir recs i m = false := by
    intro i hi
    have hne : ¬ ((j : ℤ) = i) := by omega
    simp [listsDir, hr, hidx, hne]
  have hsame : (∀ i : ℕ, listsDir recs i m = false) →
      { t with sent := (chosen (webKept recs date) (m + 1)).map (webSent recs date (m + 1)) } =
        t := by
    intro hnot
    have hmap := List.map_congr_left fun i (_ : i ∈ chosen (webKept recs date) (m + 1)) =>
      show webSent recs date (m + 1) i = webSent recs date m i from webSent_succ_of_not (hnot i)
    rw [hmap, ← hsent]
  by_cases hnext : m + 1 < recs.length
  · obtain ⟨q, hget⟩ : ∃ q, recs[m + 1]? = some q := ⟨_, List.getElem?_eq_getElem hnext⟩
    obtain ⟨L, hL⟩ := webLayout_record db hget
    rw [← hrecno] at hL
    rw [exportChild, if_pos (by omega), hL]
    simp only [Option.bind_eq_bind, Option.bind_some, WebLayout.flags_recOf]
    cases hq : cseIsParent q.core.flags with
    | true =>
      simp only [Bool.not_true, Bool.false_eq_true, if_false]
      rw [hsame fun i => by simp [listsDir, hget, hq]]
    | false =>
      have hlists : listsDir recs j m = true := by simp [listsDir, hr, hp, hidx, hget, hq]
      have hlen : t.sent.length = rank (webKept recs date)
          (m + 1) := by rw [hsent, List.length_map, length_chosen]
      have hlt : rank (webKept recs date) j < rank (webKept recs date) (m + 1) :=
        rank_lt hkept (by omega)
      have hmodify : t.sent.modify t.currParent.toNat
          (fun x => { x with childIdx := t.sent.length }) =
          (chosen (webKept recs date) (m + 1)).map (webSent recs date (m + 1)) := by
        rw [hparent, Int.toNat_natCast, hlen, hsent, modify_map_chosen _ _ hkept (by omega)]
        refine List.map_congr_left fun i _ => ?_
        split
        next hi =>
          subst hi
          rw [webSent_childIdx, h.childUpTo_succ hlists, ← Nat.cast_succ, renumber_natCast]
        next hi => rw [webSent_succ_of_not (hother i hi)]
      simp only [Bool.not_false, if_true, hmodify]
      rw [if_pos (by omega)]
  · rw [exportChild, if_neg (by omega), hsame fun i => by simp [listsDir, hnext]]

namespace HoldsWebExport

variable {s : ExportState}

theorem length_sent (hs : HoldsWebExport recs date m s) :
    s.sent.length = rank (webKept recs date) m := by
  rw [hs.sent, List.length_map, length_chosen]

/-- There is room for one more record. -/
theorem sent_lt (hs : HoldsWebExport recs date m s) (hm : m < recs.length) :
    s.sent.length < recs.length := by
  rw [hs.length_sent]
  exact (rank_le _ m).trans_lt hm

/-- The number of a record is found in the table. -/
theorem readCell_recNums {v : ℤ} {j : ℕ} (hj : j < m) (hkept : webKept recs date j = true) :
    readCell (cells (recs.length * 2) (recNums recs date m ++ [v])) ((j + 1 : ℕ) : ℤ) =
      some (rank (webKept recs date) j : ℤ) := by
  rw [readCell_cells (by simp; omega), recNums, List.cons_append, List.getD_cons_succ,
    List.getD_append _ _ _ _ (by simpa using hj)]
  simp [hj, hkept]

/-- A round begins with the number of the record. -/
theorem step_eq (hs : HoldsWebExport recs date m s) (hm : m < recs.length) {file : List SiteEntry}
    {siteEnt : SiteEntry} (hent : file[m + 1]? = some siteEnt) :
    exportStep db file recs.length date s =
      if !cseIsParent siteEnt.flags
      then exportEntry db recs.length date siteEnt
        { s with recNumbers := cells (recs.length * 2) (recNums recs date m ++
          [(s.sent.length : ℤ)]) }
      else exportDirectory file recs.length siteEnt
        { s with recNumbers := cells (recs.length * 2) (recNums recs date m ++
          [(s.sent.length : ℤ)]) } := by
  rw [exportStep, hs.recNumbers, hs.currRecno, setCell_cells_next (by simp) (by omega)]
  simp only [Option.bind_eq_bind, Option.bind_some, hent]

/-- Before its own keywords are left out, a keyword has the flag of its document. -/
theorem flag_of_key (hs : HoldsWebExport recs date m s) (h : WebSite recs) (hr : recs[m]? = some r)
    (hkey : cseIsKey r.core.flags = true) : s.flag = keysSent recs date (docIdx recs m) := by
  obtain ⟨j, -, rfl, -⟩ := h.keyword m r hr hkey
  rw [hs.flag j.succ_ne_zero, docIdx_succ_of_key hr hkey]
  rfl

/-- The table and the records that are sent, when one more is. -/
theorem sent_succ (hs : HoldsWebExport recs date m s) (hkept : webKept recs date m = true)
    (hnot : ∀ j : ℕ, listsDir recs j m = false) : s.sent ++ [webSent recs date m m] =
      (chosen (webKept recs date) (m + 1)).map (webSent recs date (m + 1)) := by
  rw [hs.sent, chosen_succ_of_pos hkept, List.map_append, List.map_singleton,
    webSent_succ_of_not (hnot m)]
  congr 1
  exact List.map_congr_left fun i _ => (webSent_succ_of_not (hnot i)).symm

/-- A keyword that is left out. -/
theorem step_dropped (hs : HoldsWebExport recs date m s) (h : WebSite recs) (hr : recs[m]? = some r)
    (hkey : cseIsKey r.core.flags = true) (hdropped : webKept recs date m = false)
    {file : List SiteEntry}
    {L : WebLayout} (hent : file[m + 1]? = some (L.recOf db r)) :
    ∃ s', exportStep db file recs.length date s = some s' ∧
      HoldsWebExport recs date (m + 1) { s' with currRecno := s'.currRecno + 1 } := by
  obtain ⟨hm, -⟩ := List.getElem?_eq_some_iff.mp hr
  have hkind := h.kind r (List.mem_of_getElem? hr)
  obtain ⟨-, hparent⟩ := hkind.key_flags hkey
  have hflag : s.flag =
      false := by rw [hs.flag_of_key h hr hkey, ← webChosen_of_key hr hkey, hdropped]
  have hnot : ∀ j : ℕ, listsDir recs j m = false := fun j => by simp [listsDir, hr, hparent]
  have hset : setCell (cells (recs.length * 2)
      (recNums recs date m ++ [(s.sent.length : ℤ)])) s.currRecno (-1) =
      some (cells (recs.length * 2) (recNums recs date (m + 1))) := by
    rw [hs.currRecno, setCell_cells
      (by simp), recNums_succ, hdropped, List.set_append_right _ _ (by simp)]
    simp
  rw [hs.step_eq hm hent, WebLayout.flags_recOf, hparent]
  simp only [Bool.not_false, if_true]
  rw [exportEntry, WebLayout.flags_recOf, hkey]
  simp only [hflag, Bool.not_false, Bool.and_self, if_true, hset, Option.bind_eq_bind,
    Option.bind_some]
  refine ⟨_, rfl, ?_⟩
  exact {
    recNumbers := rfl
    sent := by
      rw [chosen_succ_of_neg hdropped, hs.sent]
      exact List.map_congr_left fun i _ => (webSent_succ_of_not (hnot i)).symm
    currParent := by rw [dirBefore_succ hr, hparent, if_neg Bool.false_ne_true, hs.currParent]
    currRecno := by rw [hs.currRecno]
    num := hs.num
    flag := fun _ => by rw [Nat.add_sub_cancel, ← webChosen_of_key hr hkey, hdropped]
    excerptCounter := by
      rw [newerDocs_succ hr, hkind.key_not_doc hkey, hs.excerptCounter]
      rfl }

/-- The fields of a record that is sent. -/
theorem exportFields_eq (hs : HoldsWebExport recs date m s) (h : WebSite recs)
    (hr : recs[m]? = some r)
    (hparent : cseIsParent r.core.flags = false) (L : WebLayout) :
    exportFields date (L.recOf db r) s =
      some ({ webSent recs date m m with string := [] }, keysSent recs date (docIdx recs m),
        newerDocs recs date (m + 1)) := by
  have hkind := h.kind r (List.mem_of_getElem? hr)
  have hget : recs.getD m ⟨⟨0, 0, 0, 0, 0, 0, 0⟩, []⟩ =
      r := by rw [List.getD_eq_getElem?_getD, hr, Option.getD_some]
  have hidx : s.currParent = renumber recs date (webParent recs m) := by
    rw [hs.currParent, h.webParent_eq hr hparent]
  have hchild : renumber recs date (childUpTo recs m m) = -1 := by
    rw [h.childUpTo_self m.le_succ]
    rfl
  have hcount : newerDocs recs date (m + 1) = _ := newerDocs_succ hr
  rw [exportFields, WebLayout.flags_recOf, WebLayout.recOf, webSent, hget, hparent, hchild, hidx,
    hs.excerptCounter]
  cases hkey : cseIsKey r.core.flags with
  | true =>
    have hflag := hs.flag_of_key h hr hkey
    rw [hkind.key_not_doc hkey] at hcount
    simp [hflag, hcount]
  | false =>
    have hdocIdx := docIdx_of_notKey hr hkey
    cases hdoc : cseIsDoc r.core.flags with
    | false =>
      rw [hdoc] at hcount
      simp [hcount, hdocIdx, keysSent, hr, hdoc]
    | true =>
      by_cases hnew : date < r.core.rdate
      · simp [hcount, hdocIdx, keysSent, hr, hdoc, hnew]
      · simp [hcount, hdocIdx, keysSent, hr, hdoc, hnew]

/-- An entry of a directory that is sent. -/
theorem step_entry (hs : HoldsWebExport recs date m s) (h : WebSite recs) (hr : recs[m]? = some r)
    (hname : db.Faithful r.name) (hparent : cseIsParent r.core.flags = false)
    (hkept : webKept recs date m = true)
    {file : List SiteEntry} {L : WebLayout} (hent : file[m + 1]? = some (L.recOf db r)) :
    ∃ s', exportStep db file recs.length date s = some s' ∧
      HoldsWebExport recs date (m + 1) { s' with currRecno := s'.currRecno + 1 } := by
  obtain ⟨hm, -⟩ := List.getElem?_eq_some_iff.mp hr
  have hmem := List.mem_of_getElem? hr
  have hnot : ∀ j : ℕ, listsDir recs j m = false := fun j => by simp [listsDir, hr, hparent]
  have hstrt : (L.recOf db r).strt1 = db.appendKey r.name := by
    rw [WebLayout.recOf, hparent, if_neg Bool.false_ne_true]
    split <;> rfl
  have hstring : db.getString (L.recOf db r).strt1 = some r.name := by rw [hstrt, hname.2]
  have hflag : (cseIsKey r.core.flags && !s.flag) = false := by
    cases hkey : cseIsKey r.core.flags with
    | false => rfl
    | true => rw [hs.flag_of_key h hr hkey, ← webChosen_of_key hr hkey, hkept]; rfl
  have hroom : ¬ (65536 ≤ r.name.length ∨ recs.length ≤ s.sent.length) := by
    have hshort := h.short r hmem
    have hlt := hs.sent_lt hm
    omega
  have hwith : { webSent recs date m m with string := r.name } = webSent recs date m m := by
    rw [← (webSent_of hr date m).1]
  have hfields : exportFields date (L.recOf db r)
      { s with recNumbers := cells (recs.length * 2) (recNums recs date m ++
        [(s.sent.length : ℤ)]) } =
      some ({ webSent recs date m m with string := [] }, keysSent recs date (docIdx recs m),
        newerDocs recs date (m + 1)) := hs.exportFields_eq h hr hparent L
  rw [hs.step_eq hm hent, WebLayout.flags_recOf, hparent]
  simp only [Bool.not_false, if_true]
  rw [exportEntry, WebLayout.flags_recOf]
  simp only [hflag, Bool.false_eq_true, if_false, hfields, hstring, hroom, hwith,
    Option.bind_eq_bind, Option.bind_some]
  refine ⟨_, rfl, ?_⟩
  exact {
    recNumbers := by rw [recNums_succ, hkept, if_pos rfl, hs.length_sent]
    sent := hs.sent_succ hkept hnot
    currParent := by rw [dirBefore_succ hr, hparent, if_neg Bool.false_ne_true, hs.currParent]
    currRecno := by rw [hs.currRecno]
    num := hs.num
    flag := fun _ => rfl
    excerptCounter := rfl }

/-- The record for a directory. -/
theorem step_directory (hs : HoldsWebExport recs date m s) (h : WebSite recs)
    (hr : recs[m]? = some r)
    (hp : cseIsParent r.core.flags = true) :
    ∃ s', exportStep db (webLayout db recs).file recs.length date s = some s' ∧
      HoldsWebExport recs date (m + 1) { s' with currRecno := s'.currRecno + 1 } := by
  obtain ⟨hm, -⟩ := List.getElem?_eq_some_iff.mp hr
  obtain ⟨-, hkey, hdoc⟩ := (h.kind r (List.mem_of_getElem? hr)).parent_flags hp
  obtain ⟨j, r', hj, hidx, hr', -⟩ := h.parent m r hr hp
  obtain ⟨hname, hkey'⟩ := h.heading m j r r' hr hp hidx hr'
  have hkept : webKept recs date m = true := webChosen_of_notKey hr hkey
  have hkept' : webKept recs date j = true := webChosen_of_notKey hr' hkey'
  obtain ⟨L, hL⟩ := webLayout_record db hr
  have hstrt2 : (L.recOf db r).core.strt2 = some ((j + 1 : ℕ) : ℤ) := by
    rw [WebLayout.recOf, hp, if_pos rfl, WebLayout.place, hidx, Int.toNat_natCast]
    rfl
  have hsome : s.sent[rank (webKept recs date) j]? = some (webSent recs date m j) := by
    rw [hs.sent, List.getElem?_map, getElem?_chosen hkept' hj, Option.map_some]
  have hstring : (webSent recs date m j).string = r.name := by rw [(webSent_of hr' date m).1, hname]
  -- what is sent says that the record is in the directory that it is for
  have hentry : webSent recs date m m =
      { size := some 0, date := some 0, rdate := some 0, perms := some 0
        parentIdx := rank (webKept recs date) j, childIdx := -1
        flags := r.core.flags, string := r.name } := by
    rw [webSent, List.getD_eq_getElem?_getD, hr, Option.getD_some, hp, h.webParent_dir hr hp, hidx,
      renumber_natCast,
      h.childUpTo_self m.le_succ]
    rfl
  have hsent : s.sent ++ [webSent recs date m m] =
      (chosen (webKept recs date) (m + 1)).map (webSent recs date m) := by
    rw [hs.sent, chosen_succ_of_pos hkept, List.map_append, List.map_singleton]
  have hroom := hs.sent_lt hm
  rw [hs.step_eq hm hL, WebLayout.flags_recOf, hp]
  simp only [Bool.not_true, Bool.false_eq_true, if_false]
  rw [exportDirectory, hstrt2, WebLayout.flags_recOf]
  simp only [Option.bind_eq_bind, Option.bind_some, readCell_recNums hj hkept', Int.toNat_natCast,
    hsome, hstring]
  rw [if_neg (by omega), if_pos (by omega), if_neg (by omega), ← hentry, hsent]
  refine ⟨_, exportChild_eq h hr hp hj.le hidx hkept' rfl rfl hs.currRecno hs.num, ?_⟩
  exact {
    recNumbers := by rw [recNums_succ, hkept, if_pos rfl, hs.length_sent]
    sent := rfl
    currParent := by rw [dirBefore_succ hr, hp, if_pos rfl, hidx, renumber_natCast]
    currRecno := by rw [hs.currRecno]
    num := hs.num
    flag := fun _ => by simp [docIdx_of_notKey hr hkey, keysSent, hr, hdoc]
    excerptCounter := by
      rw [newerDocs_succ hr, hdoc, hs.excerptCounter]
      rfl }

/-- A round goes on to the next record. -/
theorem step (hs : HoldsWebExport recs date m s) (h : WebSite recs)
    (hnames : ∀ r ∈ recs, db.Faithful r.name)
    (hm : m < recs.length) : ∃ s',
      exportStep db (webLayout db recs).file recs.length date s = some s' ∧
      HoldsWebExport recs date (m + 1) { s' with currRecno := s'.currRecno + 1 } := by
  have hr := List.getElem?_eq_getElem hm
  obtain ⟨L, hL⟩ := webLayout_record db hr
  cases hp : cseIsParent recs[m].core.flags with
  | true => exact hs.step_directory h hr hp
  | false =>
    cases hkept : webKept recs date m with
    | true => exact hs.step_entry h hr (hnames _ (List.getElem_mem hm)) hp hkept hL
    | false =>
      cases hkey : cseIsKey recs[m].core.flags with
      | true => exact hs.step_dropped h hr hkey hkept hL
      | false =>
        exact absurd (webChosen_of_notKey hr hkey) (by rw [hkept]; exact Bool.false_ne_true)

end HoldsWebExport

/-- The loop goes through the rest of the site file. -/
theorem exportLoop_site (h : WebSite recs) (hnames : ∀ r ∈ recs, db.Faithful r.name)
    {s : ExportState} {k fuel : ℕ}
    (hs : HoldsWebExport recs date m s) (hk : m + k = recs.length) (hfuel : k < fuel) :
    ∃ s', exportLoop db (webLayout db recs).file recs.length date fuel s = some s' ∧
      HoldsWebExport recs date recs.length s' := by
  induction k generalizing m s fuel with
  | zero =>
    obtain ⟨fuel, rfl⟩ : ∃ f, fuel = f + 1 := ⟨fuel - 1, by omega⟩
    obtain rfl : m = recs.length := by omega
    exact ⟨s, by rw [exportLoop, if_neg (by rw [hs.currRecno, hs.num]; omega)], hs⟩
  | succ k ih =>
    obtain ⟨fuel, rfl⟩ : ∃ f, fuel = f + 1 := ⟨fuel - 1, by omega⟩
    obtain ⟨s', hs', hholds⟩ := hs.step h hnames (by omega)
    rw [exportLoop, if_pos
      (by rw [hs.currRecno, hs.num]; omega), hs', Option.bind_eq_bind, Option.bind_some]
    exact ih hholds (by omega) (by omega)

variable (db) in
/-- With the record of the root nothing is sent. -/
theorem exportStep_root (h : recs ≠ []) (date : ℕ) :
    ∃ s', exportStep db (webLayout db recs).file recs.length date
        { recNumbers := List.replicate (recs.length * 2) none
          sent := [], currParent := -1, currRecno := 0, num := recs.length, flag := true, excerptCounter := 0 } =
        some s' ∧ HoldsWebExport recs date 0 { s' with currRecno := s'.currRecno + 1 } := by
  have hpos : 0 < recs.length := List.length_pos_iff.mpr h
  have hset : setCell (List.replicate (recs.length * 2) none) 0 0 = some
      (cells (recs.length * 2) [0]) :=
    setCell_cells_next (l := []) (n := recs.length * 2) (i := 0) rfl (by omega) 0
  rw [exportStep]
  simp only [List.length_nil, Nat.cast_zero, hset, webLayout_root, Option.bind_eq_bind,
    Option.bind_some,
    cseIsParent_subpathRec, Bool.not_true, Bool.false_eq_true, if_false]
  have hroom : ¬ (recs.length ≤ 0) := by omega
  have hstrt2 : (subpathRec (-1) (-1)).core.strt2 = some (-1) := rfl
  have hneg : ¬ (0 : ℤ) ≤ -1 := by decide
  rw [exportDirectory, hstrt2]
  simp only [Option.bind_eq_bind, Option.bind_some, List.length_nil, hroom, hneg, if_false]
  refine ⟨_, rfl, ?_⟩
  exact {
    recNumbers := rfl
    sent := rfl
    currParent := rfl
    currRecno := rfl
    num := rfl
    flag := fun hne => absurd rfl hne
    excerptCounter := rfl }

/-- The loop over the site file of a web site. -/
theorem exportSite_webFile (h : WebSite recs) (hnames : ∀ r ∈ recs, db.Faithful r.name) (date : ℕ)
    (hne : recs ≠ []) :
    ∃ s, exportSite db (webFile db recs) recs.length date = some s ∧
      HoldsWebExport recs date recs.length s := by
  obtain ⟨s, hs, hholds⟩ := exportStep_root db hne date
  have hpos : 0 < recs.length := List.length_pos_iff.mpr hne
  rw [exportSite, webFile, if_neg hne, exportLoop, if_pos hpos, hs, Option.bind_eq_bind,
    Option.bind_some]
  exact exportLoop_site h hnames hholds (Nat.zero_add _) (Nat.lt_succ_self _)

/-- The records of a web site are counted as they are sent. -/
theorem noRecsToSendLoop_site (h : WebSite recs) (db : StringsDb) (date : ℕ) {k : ℕ} {flag : Bool}
    (hk : m + k = recs.length)
    (hflag : flag = if m = 0 then false else !keysSent recs date (docIdx recs (m - 1))) :
    noRecsToSendLoop (webLayout db recs).file date k (m + 1) (rank (webKept recs date) m) flag =
      some (rank (webKept recs date) recs.length) := by
  induction k generalizing m flag with
  | zero =>
    obtain rfl : m = recs.length := by omega
    rfl
  | succ k ih =>
    obtain ⟨r, hr⟩ : ∃ r, recs[m]? = some r := ⟨_, List.getElem?_eq_getElem (by omega)⟩
    have hkind := h.kind r (List.mem_of_getElem? hr)
    obtain ⟨L, hL⟩ := webLayout_record db hr
    rw [noRecsToSendLoop, hL]
    simp only [Option.bind_eq_bind, Option.bind_some, WebLayout.flags_recOf]
    cases hkey : cseIsKey r.core.flags with
    | true =>
      obtain ⟨j, -, rfl, -⟩ := h.keyword m r hr hkey
      have hkept : webKept recs date (j + 1) = _ := webChosen_of_key hr hkey
      rw [docIdx_succ_of_key hr hkey] at hkept
      rw [if_neg j.succ_ne_zero, Nat.add_sub_cancel, ← hkept] at hflag
      have hnext : flag = if j + 1 + 1 = 0 then false
          else !keysSent recs date (docIdx recs (j + 1 + 1 - 1)) := by
        rw [if_neg (j + 1).succ_ne_zero, Nat.add_sub_cancel, docIdx_succ_of_key hr hkey, ← hkept,
          hflag]
      simp only [hkind.key_not_doc hkey, Bool.false_eq_true, if_false, if_true]
      rw [← ih (by omega) hnext, hflag]
      cases hc : webKept recs date (j + 1) with
      | true => rw [rank_succ_of_pos hc]; rfl
      | false => rw [rank_succ_of_neg hc]; rfl
    | false =>
      have hkept : webKept recs date m = true := webChosen_of_notKey hr hkey
      have hdocIdx := docIdx_of_notKey hr hkey
      have hcount := rank_succ_of_pos hkept
      cases hdoc : cseIsDoc r.core.flags with
      | true =>
        have hp : cseIsParent r.core.flags = false := by
          by_contra hp
          rw [Bool.not_eq_false] at hp
          exact absurd (hkind.parent_flags hp).2.2 (by rw [hdoc]; exact Bool.true_eq_false_eq_False)
        have hrdate : siteRdate (L.recOf db r) = some r.core.rdate := by
          rw [WebLayout.recOf, hp, hkey]
          rfl
        simp only [if_true, hrdate, Option.bind_some]
        rw [← hcount]
        refine ih (by omega) ?_
        rw [if_neg m.succ_ne_zero, Nat.add_sub_cancel, hdocIdx]
        simp [keysSent, hr, hdoc, ← decide_not]
      | false =>
        simp only [Bool.false_eq_true, if_false]
        rw [← hcount]
        refine ih (by omega) ?_
        rw [if_neg m.succ_ne_zero, Nat.add_sub_cancel, hdocIdx]
        simp [keysSent, hr, hdoc]

end WebTransfer

/-! ### What the receiver gets -/

/-- The entries of a directory; the first record of all is that of the site itself. -/
def isEntryOf (recs : List ParserEntry) (j : ℤ) (i : ℕ) : Bool :=
  i != 0 && recs[i]?.any fun r =>
    !cseIsParent r.core.flags && !cseIsKey r.core.flags && r.core.parentIdx == j

/-- The first entry of a directory. -/
def firstListed (recs : List ParserEntry) (j : ℤ) : ℤ :=
  match (List.range recs.length).find? (isEntryOf recs j) with
  | none => -1
  | some i => i

theorem isEntryOf_iff {j : ℤ} : isEntryOf recs j i = true ↔ i ≠ 0 ∧ ∃ r, recs[i]? = some r ∧
    cseIsParent r.core.flags = false ∧ cseIsKey r.core.flags = false ∧ r.core.parentIdx = j := by
  simp [isEntryOf, Option.any_eq_true, and_assoc]

/-- If all entries before a record are in the directory of it, the last record for a directory is the
one for this. -/
theorem exists_heading {i : ℕ} (hi : i < recs.length) (hroot : ∃ k < i, ∃ r, recs[k]? = some r ∧
    cseIsParent r.core.flags = true) : ∃ k < i, ∃ r, recs[k]? = some r ∧
      cseIsParent r.core.flags = true ∧
      r.core.parentIdx = dirBefore recs i ∧ ∀ l r', k < l → l < i → recs[l]? = some r' →
        cseIsParent r'.core.flags = false := by
  induction i with
  | zero =>
    obtain ⟨k, hk, -⟩ := hroot
    omega
  | succ i ih =>
    obtain ⟨r, hr⟩ : ∃ r, recs[i]? = some r := ⟨_, List.getElem?_eq_getElem (by omega)⟩
    cases hp : cseIsParent r.core.flags with
    | true =>
      refine ⟨i, i.lt_succ_self, r, hr, hp, ?_, fun l r' hl hl' => by omega⟩
      rw [dirBefore_succ hr, hp, if_pos rfl]
    | false =>
      have hbefore : ∃ k < i, ∃ r, recs[k]? = some r ∧ cseIsParent r.core.flags = true := by
        obtain ⟨k, hk, q, hq, hqp⟩ := hroot
        obtain hlt | rfl : k < i ∨ k = i := by omega
        · exact ⟨k, hlt, q, hq, hqp⟩
        · rw [hr, Option.some.injEq] at hq
          rw [← hq, hp] at hqp
          exact absurd hqp Bool.false_ne_true
      obtain ⟨k, hk, q, hq, hqp, hidx, hlast⟩ := ih (by omega) hbefore
      refine ⟨k, by omega, q, hq, hqp, ?_, ?_⟩
      · rw [dirBefore_succ hr, hp, if_neg Bool.false_ne_true, hidx]
      · intro l r' hkl hli hr'
        obtain hlt | rfl : l < i ∨ l = i := by omega
        · exact hlast l r' hkl hlt hr'
        · rw [hr, Option.some.injEq] at hr'
          rw [← hr', hp]

/-- An entry of a directory comes after the record for it. -/
theorem WebSite.heading_of_entry (h : WebSite recs) (hr : recs[i]? = some r) (hi : i ≠ 0)
    (hp : cseIsParent r.core.flags = false) (hkey : cseIsKey r.core.flags = false) {j : ℕ}
    (hidx : r.core.parentIdx = j) : ∃ k < i, listsDir recs j k = true := by
  obtain ⟨hlt, -⟩ := List.getElem?_eq_some_iff.mp hr
  have hroot : ∃ k < i, ∃ r, recs[k]? = some r ∧ cseIsParent r.core.flags = true := by
    rcases h.root i r hr hp with hroot | ⟨k, hk, hany⟩
    · omega
    · rw [Option.any_eq_true] at hany
      obtain ⟨q, hq, hqp⟩ := hany
      exact ⟨k, hk, q, hq, hqp⟩
  obtain ⟨k, hk, q, hq, hqp, hdir, hlast⟩ := exists_heading hlt hroot
  rw [← h.listed i r hr hi hp hkey, hidx] at hdir
  refine ⟨k, hk, ?_⟩
  obtain ⟨q', hq'⟩ : ∃ q', recs[k + 1]? = some q' := ⟨_, List.getElem?_eq_getElem (by omega)⟩
  have hnext : cseIsParent q'.core.flags = false := by
    obtain hlt | heq : k + 1 < i ∨ k + 1 = i := by omega
    · exact hlast (k + 1) q' k.lt_succ_self hlt hq'
    · rw [heq, hr, Option.some.injEq] at hq'
      rw [← hq', hp]
  simp [listsDir, hq, hqp, hdir, hq', hnext]

/-- The first entry of a directory comes right after the record for it. -/
theorem WebSite.childUpTo_eq_firstListed (h : WebSite recs) (j : ℕ) :
    childUpTo recs recs.length j = firstListed recs j := by
  rw [childUpTo, firstListed]
  cases hfind : (List.range recs.length).find? (listsDir recs j) with
  | none =>
    have hnone : (List.range recs.length).find? (isEntryOf recs j) = none := by
      rw [List.find?_eq_none] at hfind ⊢
      intro i hi hentry
      obtain ⟨hne, r, hr, hp, hkey, hidx⟩ := isEntryOf_iff.mp hentry
      obtain ⟨k, hk, hlists⟩ := h.heading_of_entry hr hne hp hkey hidx
      exact hfind k (List.mem_range.mpr (hk.trans (List.mem_range.mp hi))) hlists
    rw [hnone]
  | some k =>
    have hlists : listsDir recs j k = true := by simpa using List.find?_some hfind
    have hlist := hlists
    rw [listsDir, Bool.and_eq_true, Option.any_eq_true, Option.any_eq_true] at hlist
    obtain ⟨⟨q, hq, hqp⟩, r, hr, hp⟩ := hlist
    rw [Bool.and_eq_true, beq_iff_eq] at hqp
    rw [Bool.not_eq_true'] at hp
    obtain ⟨hlt, -⟩ := List.getElem?_eq_some_iff.mp hr
    have hkey : cseIsKey r.core.flags = false := by
      by_contra hkey
      rw [Bool.not_eq_false] at hkey
      obtain ⟨l, q', hl, hq', hp', -⟩ := h.keyword (k + 1) r hr hkey
      obtain rfl : k = l := by omega
      rw [hq, Option.some.injEq] at hq'
      rw [← hq', hqp.1] at hp'
      exact Bool.false_ne_true hp'.symm
    have hidx : r.core.parentIdx = j := by
      rw [h.listed (k + 1) r hr k.succ_ne_zero hp hkey, dirBefore_succ hq, hqp.1, if_pos rfl, hqp.2]
    have hsome : (List.range recs.length).find? (isEntryOf recs j) = some (k + 1) := by
      rw [List.find?_range_eq_some]
      refine ⟨isEntryOf_iff.mpr ⟨k.succ_ne_zero, r, hr, hp, hkey, hidx⟩, List.mem_range.mpr hlt, ?_⟩
      intro i hi
      rw [Bool.not_eq_true', Bool.eq_false_iff]
      intro hentry
      obtain ⟨hne, r', hr', hp', hkey', hidx'⟩ := isEntryOf_iff.mp hentry
      -- the only record for this directory would be before itself
      obtain ⟨l, hl, hlists'⟩ := h.heading_of_entry hr' hne hp' hkey' hidx'
      rw [listsDir, Bool.and_eq_true, Option.any_eq_true] at hlists'
      obtain ⟨⟨q', hq', hqp'⟩, -⟩ := hlists'
      rw [Bool.and_eq_true, beq_iff_eq] at hqp'
      have hlk := h.once l k q' q hq' hq hqp'.1 hqp.1 (hqp'.2.trans hqp.2.symm)
      omega
    rw [hsome]
    rfl

/-- What the receiver gets for a record of the input, with the places among the records that are sent. -/
def webRecord (recs : List ParserEntry) (date i : ℕ) : XdrWebEntry :=
  { webSent recs date recs.length i with childIdx := renumber recs date (firstListed recs i) }

theorem WebSite.webSent_eq_webRecord (h : WebSite recs) (date i : ℕ) :
    webSent recs date recs.length i = webRecord recs date i := by
  rw [webRecord, ← h.childUpTo_eq_firstListed i, webSent]
  dsimp only
  split
  · rfl
  · split <;> rfl

theorem firstListed_lt {j : ℤ} (hpos : 0 ≤ firstListed recs j) :
    firstListed recs j < recs.length := by
  rw [firstListed] at hpos ⊢
  cases hfind : (List.range recs.length).find? (isEntryOf recs j) with
  | none =>
    rw [hfind] at hpos
    exact absurd hpos (by decide)
  | some i =>
    have hi := List.mem_range.mp (List.mem_of_find?_eq_some hfind)
    dsimp only
    omega

/-- If all documents are newer than the date, all records are sent. -/
theorem webKept_of_newer (hnewer : ∀ r ∈ recs, cseIsDoc r.core.flags = true → date < r.core.rdate)
    (i : ℕ) :
    webKept recs date i = true := by
  have hkeys : keysSent recs date (docIdx recs i) = true := by
    rw [keysSent]
    cases hr : recs[docIdx recs i]? with
    | none => rfl
    | some r =>
      cases hdoc : cseIsDoc r.core.flags with
      | false => simp [hdoc]
      | true => simp [hnewer r (List.mem_of_getElem? hr) hdoc]
  rw [webKept, hkeys, Bool.or_true]

/-- Then they keep their places. -/
theorem renumber_of_newer (hnewer : ∀ r ∈ recs, cseIsDoc r.core.flags = true → date < r.core.rdate)
    {p : ℤ}
    (hp : p < recs.length) : renumber recs date p = p := by
  rw [renumber]
  split
  next => rfl
  next hneg =>
    rw [rank_eq_of_forall (n := recs.length) (fun i _ => webKept_of_newer hnewer i)
      (by omega)]; omega

/-- The directory of a record is one of the records. -/
theorem WebSite.webParent_lt (h : WebSite recs) (hi : i < recs.length) :
    webParent recs i < recs.length := by
  have hdir : ∀ m ≤ recs.length, dirBefore recs m < recs.length := by
    intro m hm
    induction m with
    | zero =>
      rw [dirBefore]
      omega
    | succ m ih =>
      have hr := List.getElem?_eq_getElem (show m < recs.length by omega)
      rw [dirBefore_succ hr]
      split
      next hp =>
        obtain ⟨j, r', hj, hidx, -⟩ := h.parent m _ hr hp
        omega
      next => exact ih (by omega)
  have hr := List.getElem?_eq_getElem hi
  cases hp : cseIsParent recs[i].core.flags with
  | true =>
    obtain ⟨j, r', hj, hidx, -⟩ := h.parent i _ hr hp
    rw [h.webParent_dir hr hp]
    omega
  | false =>
    rw [h.webParent_eq hr hp]
    exact hdir i hi.le

theorem WebTransfer.copyParserToXdr_webFile (h : WebSite recs)
    (hnames : ∀ r ∈ recs, db.Faithful r.name) (date : ℕ) :
    WebTransfer.copyParserToXdr db (webFile db recs) recs.length date =
      some ((chosen (webKept recs date) recs.length).map (webRecord recs date)) := by
  rw [WebTransfer.copyParserToXdr]
  by_cases hne : recs = []
  · subst hne
    rfl
  · obtain ⟨s, hs, hholds⟩ := WebTransfer.exportSite_webFile h hnames date hne
    rw [hs, Option.map_some, hholds.sent, funext (h.webSent_eq_webRecord date)]

/-- **What is sent for a web site** is as much as is said to be: the records of the parser without the
keywords of documents that are not newer than the date.  The place of the directory and of the first
entry of a record is that among the records that are sent. -/
theorem webTransfer (h : WebSite recs) {header : Header} (hheader : header.noRecs = recs.length)
    (hnames : ∀ r ∈ recs, db.Faithful r.name) (unset : List UInt8) (date : ℕ) :
    ∃ out outRecNo sent, WebSetup.setupInsert db unset
      (WebSetup.countExtraRecs header).siteNoRecs recs
        (List.replicate (WebSetup.countExtraRecs header).siteNoRecs zeroEntry) = some
          (out, outRecNo, []) ∧
      WebTransfer.copyParserToXdr db (out.take outRecNo) recs.length date = some sent ∧
      WebTransfer.noRecsToSend (out.take outRecNo) recs.length date = some sent.length ∧
      sent = (chosen (webKept recs date) recs.length).map (webRecord recs date) ∧
      ((∀ r ∈ recs, cseIsDoc r.core.flags = true → date < r.core.rdate) →
        sent.length = recs.length ∧
        ∀ (i : ℕ) (r : ParserEntry), recs[i]? = some r → ∃ x, sent[i]? = some x ∧
          x.string = r.name ∧
          x.flags = r.core.flags ∧ x.childIdx = firstListed recs i ∧
          x.parentIdx = if i = 0 then 0 else if cseIsKey r.core.flags then webParent recs i
            else r.core.parentIdx) := by
  obtain ⟨rest, hinsert⟩ :=
    @WebSetup.setupInsert_webFile db recs h.toWellFormedWeb header hheader unset
  refine ⟨_, _, (chosen (webKept recs date) recs.length).map (webRecord recs date), hinsert, ?_, ?_,
    rfl, ?_⟩
  · rw [List.take_left' rfl]
    exact WebTransfer.copyParserToXdr_webFile h hnames date
  · rw [List.take_left' rfl, List.length_map, length_chosen, WebTransfer.noRecsToSend]
    by_cases hne : recs = []
    · subst hne
      rfl
    · rw [webFile, if_neg hne]
      exact WebTransfer.noRecsToSendLoop_site h db date (Nat.zero_add _) rfl
  · intro hnewer
    have hall := webKept_of_newer hnewer
    rw [chosen_eq_of_forall fun i _ => hall i]
    refine ⟨by simp, ?_⟩
    intro i r hr
    obtain ⟨hi, rfl⟩ := List.getElem?_eq_some_iff.mp hr
    have hchild : firstListed recs i < recs.length := by
      by_cases hpos : 0 ≤ firstListed recs i
      · exact firstListed_lt hpos
      · omega
    have hparent : renumber recs date (webParent recs i) = webParent recs i :=
      renumber_of_newer hnewer (h.webParent_lt hi)
    obtain ⟨hstring, hflags, hidx⟩ := webSent_of hr date recs.length
    refine ⟨webRecord recs date i,
      by simp [hi], hstring, hflags, renumber_of_newer hnewer hchild, ?_⟩
    rw [webRecord]
    dsimp only
    rw [hidx, hparent]
    split
    next hzero =>
      subst hzero
      rfl
    next hne =>
      cases hkey : cseIsKey recs[i].core.flags with
      | true => rfl
      | false =>
        rw [webParent, docIdx_of_notKey hr hkey, if_neg hne, hr]
        rfl

/-! ### The excerpts -/

/-- The documents that are newer than the date. -/
def isNewerDoc (date : ℕ) (r : ParserEntry) : Bool :=
  cseIsDoc r.core.flags && decide (date < r.core.rdate)

/-- The excerpt of a document that is newer than the date. -/
def excerptOf {α : Type} (date : ℕ) (excerpts : List α) (r : ParserEntry) : Option α :=
  if isNewerDoc date r then excerpts[r.core.perms]? else none

section

variable {α : Type} {excerpts : List α}

theorem WebSite.doc_recOf (h : WebSite recs) (hr : recs[i]? = some r)
    (hdoc : cseIsDoc r.core.flags = true)
    (L : WebLayout) (db : StringsDb) :
    (L.recOf db r).core = .entry r.core.size r.core.date r.core.perms r.core.rdate := by
  have hkind := h.kind r (List.mem_of_getElem? hr)
  have hp : cseIsParent r.core.flags = false := by
    by_contra hp
    rw [Bool.not_eq_false] at hp
    exact absurd (hkind.parent_flags hp).2.2 (by rw [hdoc]; exact Bool.true_eq_false_eq_False)
  have hkey : cseIsKey r.core.flags = false := by
    by_contra hkey
    rw [Bool.not_eq_false] at hkey
    exact absurd (hkind.key_not_doc hkey) (by rw [hdoc]; exact Bool.true_eq_false_eq_False)
  rw [WebLayout.recOf, hp, hkey]
  rfl

namespace WebTransfer

/-- The excerpts that are announced: of documents that are not older than the date. -/
theorem noExcerptsToSendLoop_site (h : WebSite recs) (db : StringsDb) (date : ℕ) {k : ℕ}
    (counter : ℕ)
    (hk : m + k ≤ recs.length) :
    noExcerptsToSendLoop (webLayout db recs).file date k (m + 1) counter =
      some (counter + ((recs.drop m).take k).countP fun r => cseIsDoc r.core.flags && decide
        (date ≤ r.core.rdate)) := by
  induction k generalizing m counter with
  | zero => simp [noExcerptsToSendLoop]
  | succ k ih =>
    have hm : m < recs.length := by omega
    have hr := List.getElem?_eq_getElem hm
    obtain ⟨L, hL⟩ := webLayout_record db hr
    rw [noExcerptsToSendLoop, hL, List.drop_eq_getElem_cons hm, List.take_succ_cons]
    simp only [Option.bind_eq_bind, Option.bind_some, WebLayout.flags_recOf]
    cases hdoc : cseIsDoc recs[m].core.flags with
    | false =>
      rw [if_neg Bool.false_ne_true, ih _ (by omega), List.countP_cons_of_neg (by simp [hdoc])]
    | true =>
      have hrdate : siteRdate (L.recOf db recs[m]) = some recs[m].core.rdate := by
        rw [siteRdate, h.doc_recOf hr hdoc]
      rw [if_pos rfl, hrdate, Option.bind_some, ih _ (by omega)]
      by_cases hle : date ≤ recs[m].core.rdate
      · rw [if_pos hle, List.countP_cons_of_pos (by simp [hdoc, hle])]
        congr 1
        omega
      · rw [if_neg hle, List.countP_cons_of_neg (by simp [hle])]

/-- The excerpts that are written: of documents that are newer than the date. -/
theorem outputExcerptLoop_site (h : WebSite recs) (db : StringsDb) (date : ℕ)
    (hperms : ∀ r ∈ recs, cseIsDoc r.core.flags = true → r.core.perms < excerpts.length) {k : ℕ}
    (hk : m + k ≤ recs.length) :
    outputExcerptLoop (webLayout db recs).file date excerpts k (m + 1) =
      some (((recs.drop m).take k).filterMap (excerptOf date excerpts)) := by
  induction k generalizing m with
  | zero => simp [outputExcerptLoop]
  | succ k ih =>
    have hm : m < recs.length := by omega
    have hr := List.getElem?_eq_getElem hm
    obtain ⟨L, hL⟩ := webLayout_record db hr
    rw [outputExcerptLoop, hL, List.drop_eq_getElem_cons hm, List.take_succ_cons]
    simp only [Option.bind_eq_bind, Option.bind_some, WebLayout.flags_recOf]
    cases hdoc : cseIsDoc recs[m].core.flags with
    | false =>
      rw [if_neg Bool.false_ne_true,
        ih (by omega), List.filterMap_cons_none (by simp [excerptOf, isNewerDoc, hdoc])]
    | true =>
      have hcore := h.doc_recOf hr hdoc L db
      rw [if_pos rfl, siteRdate, hcore, sitePerms, hcore]
      simp only [Option.bind_some]
      have hlt := hperms _ (List.getElem_mem hm) hdoc
      by_cases hnew : date < recs[m].core.rdate
      · have hsome : excerptOf date excerpts recs[m] = some excerpts[recs[m].core.perms] := by
          rw [excerptOf, isNewerDoc, hdoc, decide_eq_true hnew, Bool.and_self, if_pos rfl,
            List.getElem?_eq_getElem hlt]
        rw [if_pos hnew, List.getElem?_eq_getElem hlt, Option.bind_some,
          ih (by omega), Option.bind_some,
          List.filterMap_cons_some hsome]
      · rw [if_neg hnew, ih
          (by omega), List.filterMap_cons_none (by simp [excerptOf, isNewerDoc, hnew])]

/-- The excerpts of a web site: the record of the root comes first, so that the last record is not reached. -/
theorem sendWebindexExcerpt_webFile (h : WebSite recs) (db : StringsDb) (date : ℕ)
    (hperms : ∀ r ∈ recs, cseIsDoc r.core.flags = true → r.core.perms < excerpts.length) :
    sendWebindexExcerpt (webFile db recs) recs.length date excerpts =
      some (recs.dropLast.countP fun r => cseIsDoc r.core.flags && decide (date ≤ r.core.rdate),
        recs.dropLast.filterMap (excerptOf date excerpts)) := by
  by_cases hne : recs = []
  · subst hne
    rfl
  obtain ⟨n, hn⟩ : ∃ n, recs.length = n + 1 :=
    ⟨recs.length - 1, by have := List.length_pos_iff.mpr hne; omega⟩
  have hlast : recs.take n = recs.dropLast := by rw [List.dropLast_eq_take, hn, Nat.add_sub_cancel]
  have hroot : cseIsDoc (subpathRec (-1) (-1)).flags = false := by decide
  have hcount := noExcerptsToSendLoop_site (m := 0) (k := n) h db date 0 (by omega)
  rw [List.drop_zero, hlast, Nat.zero_add, Nat.zero_add] at hcount
  have hwritten := outputExcerptLoop_site (m := 0) (k := n) h db date hperms (by omega)
  rw [List.drop_zero, hlast, Nat.zero_add] at hwritten
  have hto : noExcerptsToSend (webFile db recs) recs.length date =
      some (recs.dropLast.countP fun r => cseIsDoc r.core.flags && decide
        (date ≤ r.core.rdate)) := by
    rw [noExcerptsToSend, webFile, if_neg hne, hn, noExcerptsToSendLoop, webLayout_root,
      Option.bind_eq_bind,
      Option.bind_some, hroot, if_neg Bool.false_ne_true, hcount]
  have hout : outputExcerpt (webFile db recs) recs.length date excerpts =
      some (recs.dropLast.filterMap (excerptOf date excerpts)) := by
    rw [outputExcerpt, webFile, if_neg hne, hn, outputExcerptLoop, webLayout_root,
      Option.bind_eq_bind,
      Option.bind_some, hroot, if_neg Bool.false_ne_true, hwritten]
  rw [sendWebindexExcerpt, hto, hout, Option.bind_eq_bind, Option.bind_some, Option.bind_eq_bind,
    Option.bind_some]
  split
  next hzero =>
    -- where none is announced, none is newer
    have hnone : recs.dropLast.filterMap (excerptOf date excerpts) = [] := by
      rw [List.filterMap_eq_nil_iff]
      intro r hr
      rw [List.countP_eq_zero] at hzero
      have hnot := hzero r hr
      have hnew : isNewerDoc date r = false := by
        rw [isNewerDoc]
        by_contra hnew
        rw [Bool.not_eq_false, Bool.and_eq_true, decide_eq_true_eq] at hnew
        exact hnot (by simp [hnew.1, hnew.2.le])
      rw [excerptOf, hnew, if_neg Bool.false_ne_true]
    rw [hnone]
  next => rfl

end WebTransfer

/-- The excerpts are those of the documents with their numbers. -/
structure ExcerptsInStep (recs : List ParserEntry) (date : ℕ) (excerpts : List α) (announced : ℕ)
    (written : List α)
    (sent : List XdrWebEntry) : Prop where
  announced : announced = written.length
  numbered : ∀ (i : ℕ) (r : ParserEntry), recs[i]? = some r → isNewerDoc date r = true →
    ∃ x k, sent[rank (webKept recs date) i]? = some x ∧ x.perms = some k ∧ k < written.length ∧
      written[k]? = excerpts[r.core.perms]?
  written : ∀ k < written.length, ∃ (i : ℕ) (r : ParserEntry) (x : XdrWebEntry), recs[i]? = some r ∧
    isNewerDoc date r = true ∧ sent[rank (webKept recs date) i]? = some x ∧ x.perms = some k ∧
    written[k]? = excerpts[r.core.perms]?

theorem countP_notOlder (l : List ParserEntry) (date : ℕ) :
    l.countP (fun r => cseIsDoc r.core.flags && decide (date ≤ r.core.rdate)) =
      l.countP (isNewerDoc date) + l.countP fun r =>
        cseIsDoc r.core.flags && r.core.rdate == date := by
  induction l with
  | nil => rfl
  | cons r l ih =>
    simp only [List.countP_cons, ih, isNewerDoc]
    by_cases hdoc : cseIsDoc r.core.flags = true
    · obtain hlt | heq | hgt := Nat.lt_trichotomy date r.core.rdate
      · simp [hdoc, hlt, hlt.le, hlt.ne']
        omega
      · simp [hdoc, heq]
        omega
      · simp [hgt.not_ge, hgt.not_gt, hgt.ne]
    · simp [hdoc]

/-- A document that is newer than the date is sent with the number of those before it. -/
theorem WebSite.sent_newer (h : WebSite recs) (hr : recs[i]? = some r)
    (hnew : isNewerDoc date r = true) :
    ((chosen (webKept recs date) recs.length).map (webRecord recs date))[rank
      (webKept recs date) i]? =
      some (webRecord recs date i) ∧
        (webRecord recs date i).perms = some ((recs.take i).countP (isNewerDoc date)) := by
  obtain ⟨hi, -⟩ := List.getElem?_eq_some_iff.mp hr
  have hkind := h.kind r (List.mem_of_getElem? hr)
  rw [isNewerDoc, Bool.and_eq_true, decide_eq_true_eq] at hnew
  obtain ⟨hdoc, hlt⟩ := hnew
  have hp : cseIsParent r.core.flags = false := by
    by_contra hp
    rw [Bool.not_eq_false] at hp
    exact absurd (hkind.parent_flags hp).2.2 (by rw [hdoc]; exact Bool.true_eq_false_eq_False)
  have hkey : cseIsKey r.core.flags = false := by
    by_contra hkey
    rw [Bool.not_eq_false] at hkey
    exact absurd (hkind.key_not_doc hkey) (by rw [hdoc]; exact Bool.true_eq_false_eq_False)
  refine ⟨by rw [List.getElem?_map, getElem?_chosen (webChosen_of_notKey hr hkey) hi,
    Option.map_some], ?_⟩
  rw [webRecord, webSent, List.getD_eq_getElem?_getD, hr, Option.getD_some, hp, hkey]
  simp only [Bool.false_eq_true, if_false, hdoc, if_true, if_pos hlt]
  rfl

/-- **The excerpts are those of the documents that get their numbers, exactly if no document but one in
the last record has the date itself, and no document in the last record is newer.** -/
theorem excerptsInStep_iff (h : WebSite recs) {header : Header}
    (hheader : header.noRecs = recs.length)
    (hnames : ∀ r ∈ recs, db.Faithful r.name) (unset : List UInt8) (date : ℕ)
    (hperms : ∀ r ∈ recs, cseIsDoc r.core.flags = true → r.core.perms < excerpts.length) :
    ∃ out outRecNo sent announced written,
      WebSetup.setupInsert db unset (WebSetup.countExtraRecs header).siteNoRecs recs
        (List.replicate (WebSetup.countExtraRecs header).siteNoRecs zeroEntry) = some
          (out, outRecNo, []) ∧
      WebTransfer.copyParserToXdr db (out.take outRecNo) recs.length date = some sent ∧
      WebTransfer.sendWebindexExcerpt (out.take outRecNo) recs.length date excerpts = some
        (announced, written) ∧
      (((∀ r ∈ recs.dropLast, cseIsDoc r.core.flags = true → r.core.rdate ≠ date) ∧
          ∀ r ∈ recs.getLast?, isNewerDoc date r = false) ↔
        ExcerptsInStep recs date excerpts announced written sent) := by
  obtain ⟨rest, hinsert⟩ :=
    @WebSetup.setupInsert_webFile db recs h.toWellFormedWeb header hheader unset
  have hsent : WebTransfer.copyParserToXdr db (webFile db recs) recs.length date =
      some ((chosen (webKept recs date) recs.length).map (webRecord recs date)) :=
    WebTransfer.copyParserToXdr_webFile h hnames date
  refine ⟨_, _, _, _, _, hinsert, by rw [List.take_left' rfl, hsent], by
    rw [List.take_left' rfl, WebTransfer.sendWebindexExcerpt_webFile h db date hperms], ?_⟩
  have hf : ∀ r ∈ recs.dropLast, (excerptOf date excerpts r).isSome = isNewerDoc date r := by
    intro r hr
    cases hnew : isNewerDoc date r with
    | false => rw [excerptOf, hnew, if_neg Bool.false_ne_true, Option.isSome_none]
    | true =>
      have hdoc : cseIsDoc r.core.flags = true := by
        rw [isNewerDoc, Bool.and_eq_true] at hnew
        exact hnew.1
      rw [excerptOf, hnew, if_pos rfl,
        List.getElem?_eq_getElem (hperms r (List.mem_of_mem_dropLast hr) hdoc),
        Option.isSome_some]
  have hlen := length_filterMap_eq hf
  have hbefore : ∀ i < recs.dropLast.length, recs[i]? = recs.dropLast[i]? ∧
      recs.take i = recs.dropLast.take i := by
    intro i hi
    rw [List.length_dropLast] at hi
    rw [List.dropLast_eq_take, List.getElem?_take_of_lt hi, List.take_take, min_eq_left hi.le]
    exact ⟨rfl, rfl⟩
  -- a document before the last record gets its excerpt
  have hgets : ∀ (i : ℕ) (r : ParserEntry), recs.dropLast[i]? = some r → isNewerDoc date r = true →
      (recs.dropLast.filterMap (excerptOf date excerpts))[(recs.take i).countP (isNewerDoc date)]? =
        excerpts[r.core.perms]? := by
    intro i r hr hnew
    obtain ⟨hi, -⟩ := List.getElem?_eq_some_iff.mp hr
    rw [(hbefore i hi).2, getElem?_filterMap hf hr hnew, excerptOf, hnew, if_pos rfl]
  constructor
  · rintro ⟨hdate, hlast⟩
    refine ⟨?_, ?_, ?_⟩
    · rw [hlen, countP_notOlder, Nat.add_eq_left, List.countP_eq_zero]
      intro r hr hsame
      rw [Bool.and_eq_true, beq_iff_eq] at hsame
      exact hdate r hr hsame.1 hsame.2
    · intro i r hr hnew
      obtain ⟨hsome, hnumber⟩ := h.sent_newer hr hnew
      have hi : i < recs.dropLast.length := by
        obtain ⟨hi, -⟩ := List.getElem?_eq_some_iff.mp hr
        rw [List.length_dropLast]
        by_contra hge
        have hlast' : recs.getLast? = some r := by
          rw [List.getLast?_eq_getElem?, ← hr]
          congr 1
          omega
        exact absurd (hlast r hlast') (by rw [hnew]; exact Bool.true_eq_false_eq_False)
      rw [(hbefore i hi).1] at hr
      refine ⟨_, _, hsome, hnumber, ?_, hgets i r hr hnew⟩
      have hsome' : (excerptOf date excerpts r).isSome = true :=
        (hf r (List.mem_of_getElem? hr)).trans hnew
      rw [excerptOf, hnew, if_pos rfl, ← hgets i r hr hnew] at hsome'
      simpa using hsome'
    · intro k hk
      rw [hlen] at hk
      obtain ⟨i, r, hr, hnew, hcount⟩ := exists_countP_take hk
      obtain ⟨hi, -⟩ := List.getElem?_eq_some_iff.mp hr
      obtain ⟨hget, htake⟩ := hbefore i hi
      obtain ⟨hsome, hnumber⟩ := h.sent_newer (hget.trans hr) hnew
      have hgot := hgets i r hr hnew
      rw [htake, hcount] at hnumber hgot
      exact ⟨i, r, _, hget.trans hr, hnew, hsome, hnumber, hgot⟩
  · intro hstep
    refine ⟨?_, ?_⟩
    · intro r hr hdoc hsame
      have hcount := hstep.announced
      rw [hlen, countP_notOlder, Nat.add_eq_left, List.countP_eq_zero] at hcount
      exact hcount r hr (by rw [hdoc, hsame, beq_self_eq_true, Bool.and_self])
    · intro r hr
      rw [Option.mem_def, List.getLast?_eq_getElem?] at hr
      by_contra hnew
      rw [Bool.not_eq_false] at hnew
      obtain ⟨hsome, hnumber⟩ := h.sent_newer hr hnew
      obtain ⟨x, k, hx, hk, hlt, -⟩ := hstep.numbered _ r hr hnew
      rw [hsome, Option.some.injEq] at hx
      rw [← hx, hnumber, Option.some.injEq, ← List.dropLast_eq_take] at hk
      rw [hlen, ← hk] at hlt
      exact lt_irrefl _ hlt

end

end

/-- The host `h` with a port `p` and a document `d` of it, which has the keyword `k`. -/
def sampleWeb : List ParserEntry :=
  [⟨⟨0, 0, -1, -1, 0, 0x01, 0⟩, [104]⟩, ⟨⟨0, 0, 0, 0, 0, 0x20, 0⟩, [104]⟩,
    ⟨⟨0, 0, 0, 0, 0, 0x01, 0⟩, [112]⟩,
    ⟨⟨0, 0, 2, 0, 0, 0x10, 0⟩, [112]⟩, ⟨⟨9, 4, 2, 0, 0, 0x40, 5⟩, [100]⟩,
      ⟨⟨1, 0, 0, 0, 0, 0x08, 0⟩, [107]⟩]

/-- A property of the records that can be checked for each. -/
theorem forall_getElem? {α : Type*} {l : List α} {P : ℕ → α → Prop}
    (h : ∀ i : Fin l.length, P i l[i]) (i : ℕ) (r : α)
    (hr : l[i]? = some r) : P i r := by
  obtain ⟨hi, rfl⟩ := List.getElem?_eq_some_iff.mp hr
  exact h ⟨i, hi⟩

theorem sampleWeb_site : WebSite sampleWeb where
  kind := by
    intro r hr
    simp only [sampleWeb, List.mem_cons, List.not_mem_nil, or_false] at hr
    rcases hr with rfl | rfl | rfl | rfl | rfl | rfl
    · exact .entry (by decide) (by decide) (by decide)
    · exact .parent (by decide)
    · exact .entry (by decide) (by decide) (by decide)
    · exact .parent (by decide)
    · exact .entry (by decide) (by decide) (by decide)
    · exact .key rfl
  name := by simp [sampleWeb]
  root := by
    intro i r hr hp
    have hroot : ∀ i : Fin sampleWeb.length, i.val < 2 →
        cseIsParent sampleWeb[i].core.flags = false →
        sampleWeb[i].core.parentIdx = -1 := by decide
    by_cases hi : i < 2
    · exact .inl (forall_getElem?
        (P := fun i r => i < 2 → cseIsParent r.core.flags = false → r.core.parentIdx = -1)
        hroot i r hr hi hp)
    · exact .inr ⟨1, by omega, by decide⟩
  parent := by
    intro i r hr hp
    have hcases : i = 1 ∨ i = 3 :=
      forall_getElem? (P := fun i r => cseIsParent r.core.flags = true → i = 1 ∨ i = 3)
      (by decide) i r hr hp
    rcases hcases with rfl | rfl
    · obtain rfl := Option.some.inj hr
      exact ⟨0, _, by omega, rfl, rfl, by decide⟩
    · obtain rfl := Option.some.inj hr
      exact ⟨2, _, by omega, rfl, rfl, by decide⟩
  keyword := by
    intro i r hr hkey
    obtain rfl : i = 5 :=
      forall_getElem? (P := fun i r => cseIsKey r.core.flags = true → i = 5) (by decide) i r hr hkey
    exact ⟨4, _, rfl, rfl, by decide, by decide⟩
  listed := forall_getElem?
    (P := fun i (r : ParserEntry) => i ≠ 0 → cseIsParent r.core.flags = false →
    cseIsKey r.core.flags = false → r.core.parentIdx = dirBefore sampleWeb i) (by decide)
  heading := by
    intro i j r r' hr hp hidx hr'
    have hcases : i = 1 ∧ r.core.parentIdx = 0 ∧ r.name = [104] ∨ i = 3 ∧ r.core.parentIdx = 2 ∧
        r.name = [112] :=
      forall_getElem? (P := fun i r => cseIsParent r.core.flags = true →
        i = 1 ∧ r.core.parentIdx = 0 ∧ r.name = [104] ∨ i = 3 ∧ r.core.parentIdx = 2 ∧
          r.name = [112])
        (by decide) i r hr hp
    rcases hcases with ⟨-, hparent, hname⟩ | ⟨-, hparent, hname⟩
    · obtain rfl : j = 0 := by omega
      obtain rfl := Option.some.inj hr'
      exact ⟨hname, by decide⟩
    · obtain rfl : j = 2 := by omega
      obtain rfl := Option.some.inj hr'
      exact ⟨hname, by decide⟩
  once := by
    intro i j r r' hr hr' hp hp' hidx
    have hcases := forall_getElem? (l := sampleWeb)
      (P := fun i r => cseIsParent r.core.flags = true → r.core.parentIdx + 1 = i) (by decide)
    have hi := hcases i r hr hp
    have hj := hcases j r' hr' hp'
    omega
  short := by simp [sampleWeb]

theorem webTransfer_sample : WebTransfer.copyParserToXdr sampleDb (webFile sampleDb sampleWeb) 6 7 =
    some ((chosen (webKept sampleWeb 7) 6).map (webRecord sampleWeb 7)) := by
  obtain ⟨out, outRecNo, sent, hinsert, hsent, -, rfl, -⟩ :=
    @webTransfer sampleWeb sampleDb sampleWeb_site ⟨0, 6, 0, [], []⟩ rfl
    (by simp [StringsDb.Faithful, sampleDb, sampleWeb]) [] 7
  have hsame : WebSetup.setupInsert sampleDb [] 7 sampleWeb (List.replicate 7 zeroEntry) =
      some (webFile sampleDb sampleWeb, 7, []) := by decide +kernel
  have heq : some (webFile sampleDb sampleWeb, 7, ([] : List ParserEntry)) = some
      (out, outRecNo, []) :=
    hsame.symm.trans hinsert
  rw [Option.some.injEq, Prod.mk.injEq, Prod.mk.injEq] at heq
  rw [← heq.1, ← heq.2.1] at hsent
  exact hsent

/-- A keyword is sent with the directory of its document, not with that which the parser has written for
it. -/
theorem not_webTransfer : WebSite sampleWeb ∧ (∀ r ∈ sampleWeb, sampleDb.Faithful r.name) ∧
    (∀ r ∈ sampleWeb, cseIsDoc r.core.flags = true → 3 < r.core.rdate) ∧
    WebSetup.setupInsert sampleDb []
      (WebSetup.countExtraRecs ⟨0, 6, 0, [], []⟩).siteNoRecs sampleWeb
      (List.replicate (WebSetup.countExtraRecs ⟨0, 6, 0, [], []⟩).siteNoRecs zeroEntry) =
      some (webFile sampleDb sampleWeb, 7, []) ∧
    ((WebTransfer.copyParserToXdr sampleDb (webFile sampleDb sampleWeb) 6 3).map fun sent =>
      sent.map XdrWebEntry.parentIdx) = some [0, 0, 0, 2, 2, 2] ∧
    sampleWeb.map (fun r => r.core.parentIdx) = [-1, 0, 0, 2, 2, 0] := by
  refine ⟨sampleWeb_site, by simp [StringsDb.Faithful, sampleDb, sampleWeb], by decide, ?_, ?_, rfl⟩
  · decide +kernel
  · decide +kernel

theorem excerptsInStep_iff_sample : ∃ announced written,
    WebTransfer.sendWebindexExcerpt (webFile sampleDb sampleWeb) 6 3 [bytes "text"] = some (announced, written) ∧
      announced = written.length := by
  obtain ⟨out, outRecNo, sent, announced, written, hinsert, -, hsend, hiff⟩ :=
    @excerptsInStep_iff sampleWeb sampleDb _ [bytes "text"] sampleWeb_site ⟨0, 6, 0, [], []⟩ rfl
      (by simp [StringsDb.Faithful, sampleDb, sampleWeb]) [] 3 (by decide)
  have hsame : WebSetup.setupInsert sampleDb [] 7 sampleWeb (List.replicate 7 zeroEntry) =
      some (webFile sampleDb sampleWeb, 7, []) := by decide +kernel
  have heq : some (webFile sampleDb sampleWeb, 7, ([] : List ParserEntry)) = some
      (out, outRecNo, []) :=
    hsame.symm.trans hinsert
  rw [Option.some.injEq, Prod.mk.injEq, Prod.mk.injEq] at heq
  rw [← heq.1, ← heq.2.1] at hsend
  exact ⟨announced, written, hsend, (hiff.mp (by decide +kernel)).announced⟩

/-- The host `h` with its first page, which has no keywords. -/
def sampleWebPage : List ParserEntry :=
  [⟨⟨0, 0, -1, -1, 0, 0x01, 0⟩, [104]⟩, ⟨⟨0, 0, 0, 0, 0, 0x20, 0⟩, [104]⟩,
    ⟨⟨9, 4, 0, 0, 0, 0x41, 5⟩, [112]⟩]

theorem sampleWebPage_site : WebSite sampleWebPage where
  kind := by
    intro r hr
    simp only [sampleWebPage, List.mem_cons, List.not_mem_nil, or_false] at hr
    rcases hr with rfl | rfl | rfl
    · exact .entry (by decide) (by decide) (by decide)
    · exact .parent (by decide)
    · exact .entry (by decide) (by decide) (by decide)
  name := by simp [sampleWebPage]
  root := by
    intro i r hr hp
    by_cases hi : i < 2
    · exact .inl (forall_getElem? (l := sampleWebPage) (P := fun i r =>
        i < 2 → cseIsParent r.core.flags = false → r.core.parentIdx = -1) (by decide) i r hr hi hp)
    · exact .inr ⟨1, by omega, by decide⟩
  parent := by
    intro i r hr hp
    obtain rfl : i = 1 :=
      forall_getElem? (P := fun i r => cseIsParent r.core.flags = true → i = 1)
        (by decide) i r hr hp
    obtain rfl := Option.some.inj hr
    exact ⟨0, _, by omega, rfl, rfl, by decide⟩
  keyword := by
    intro i r hr hkey
    have hno := forall_getElem? (l := sampleWebPage) (P := fun _ r => cseIsKey r.core.flags = false)
        (by decide) i r hr
    exact absurd hkey (by rw [hno]; exact Bool.false_ne_true)
  listed := forall_getElem?
    (P := fun i (r : ParserEntry) => i ≠ 0 → cseIsParent r.core.flags = false →
    cseIsKey r.core.flags = false → r.core.parentIdx = dirBefore sampleWebPage i) (by decide)
  heading := by
    intro i j r r' hr hp hidx hr'
    obtain ⟨hparent, hname⟩ := forall_getElem? (l := sampleWebPage) (P := fun _ r =>
      cseIsParent r.core.flags = true → r.core.parentIdx = 0 ∧ r.name = [104]) (by decide) i r hr hp
    obtain rfl : j = 0 := by omega
    obtain rfl := Option.some.inj hr'
    exact ⟨hname, by decide⟩
  once := by
    intro i j r r' hr hr' hp hp' hidx
    have hcases := forall_getElem? (l := sampleWebPage)
        (P := fun i r => cseIsParent r.core.flags = true → i = 1)
      (by decide)
    rw [hcases i r hr hp, hcases j r' hr' hp']
  short := by simp [sampleWebPage]

/-- The excerpt of a document in the last record is not sent, and that of a document with the date itself
is announced and not sent. -/
theorem not_excerptsInStep : WebSite sampleWebPage ∧ WebSite sampleWeb ∧
    (WebTransfer.copyParserToXdr sampleDb (webFile sampleDb sampleWebPage) 3 3).map (fun sent =>
      sent.map XdrWebEntry.perms) = some [none, some 0, some 0] ∧
    WebTransfer.sendWebindexExcerpt (webFile sampleDb sampleWebPage) 3 3 [bytes "text"] = some (0, []) ∧
    WebTransfer.sendWebindexExcerpt (webFile sampleDb sampleWeb) 6 5 [bytes "text"] = some (1, []) := by
  refine ⟨sampleWebPage_site, sampleWeb_site, ?_, ?_, ?_⟩
  · decide +kernel
  · decide +kernel
  · decide +kernel

end Archie
