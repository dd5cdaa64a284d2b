/-
Rebuilding the path of an entry of a site file (`archsearch/search.c`:
`handle_chain`).

The path grows at its front, from one buffer into another.  When it does not fit,
both buffers are enlarged, and in doing so they are exchanged: the name is put
before the path as it was one step earlier.

* `Buffers.foldl_push_iff` — the path is right if and only if no name comes too
  much, apart from a file named `9`, which the empty buffer holds as its mark.
* `chainLoop_spec` — from an entry the loop ends, with the names of its ancestors
  put before its own one by one.
* `findParent_spec` — the search backwards from a record comes to the record of its
  directory.
* `setupInsert_handleChain` — `setup_insert` and `handle_chain` together: the path
  of an entry is rebuilt unless it is too long.
-/
import Archie.SiteLinks
import Archie.StridxState

namespace Archie

/-! ### Site files in memory -/

/-- The record with a number. -/
def fileAt (file : List SiteEntry) (k : ℤ) : Option SiteEntry :=
  if 0 ≤ k then file[k.toNat]? else none

/-- The search backwards from a record for one that stands for a directory. -/
def findParentFrom (file : List SiteEntry) : ℕ → ℤ
  | 0 => if file[0]?.any fun e => cseIsParent e.flags then 0 else -1
  | k + 1 =>
    if file[k + 1]?.any fun e => cseIsParent e.flags then (k + 1 : ℕ) else findParentFrom file k

def findParent (file : List SiteEntry) (k : ℤ) : ℤ :=
  if 0 ≤ k then findParentFrom file k.toNat else k

/-- `core.prnt_entry.strt_2`. -/
def SiteCore.strt2 : SiteCore → Option ℤ
  | .prntEntry strt2 => some strt2
  | _ => none

/-! ### `handle_chain` -/

/-- `MAX_PATH_LEN`. -/
def maxPathLen : ℕ := 256

/-- The variables of `handle_chain`: `tot` holds the path so far, `tmp` is the
other buffer. -/
structure ChainState where
  currPrnt : ℤ
  currStrings : ℤ
  oldPrntEnt : Option SiteEntry
  key : Bool
  document : Bool
  doc : Bool
  tmp : List UInt8
  tot : List UInt8
  maxLength : ℕ
  qrystr : List UInt8
  deriving DecidableEq, Repr

/-- A buffer that begins with a zero is marked with a `9`. -/
def marked (buf : List UInt8) : List UInt8 := if buf = [] then [57] else buf

/-- The part of the loop that puts a name before the path.  The buffers change
roles after each name, and once more when they are enlarged. -/
def chainWrite (web : Bool) (port : ℤ) (prntEnt : SiteEntry) (res : List UInt8) (s : ChainState) :
    ChainState :=
  if s.tmp = [] then
    let tmp := if web && cseIsSubpath prntEnt.flags && decide (prntEnt.strt1 < 0)
      then res ++ 58 :: printSInt port else res
    { s with
      qrystr := if s.qrystr = [] then res else s.qrystr
      tmp := marked s.tot
      tot := tmp }
  else
    let s := if s.maxLength ≤ s.tot.length + res.length + 2
      then { s with maxLength := s.maxLength + maxPathLen, tmp := s.tot, tot := s.tmp } else s
    if web && s.oldPrntEnt.any fun e => cseIsName e.flags then
      { s with tmp := marked s.tot, tot := res ++ 58 :: s.tot }
    else if s.key && !s.document then { s with tmp := marked s.tot, tot := res, key := false }
    else if s.oldPrntEnt.isNone && cseIsSubpath prntEnt.flags && decide (prntEnt.strt1 < 0) then
      { s with tmp := marked s.tot, tot := res ++ 58 :: s.tot }
    else { s with tmp := marked s.tot, tot := res ++ 47 :: s.tot }

variable (db : StringsDb) (file : List SiteEntry)

/-- The part of the loop that goes up to the next directory. -/
def chainUp (prntEnt : SiteEntry) (s : ChainState) : Option ChainState :=
  if 0 ≤ prntEnt.strt1 then do
    let strt2 ← prntEnt.core.strt2
    let ent ← fileAt file strt2
    some { s with currPrnt := prntEnt.strt1, currStrings := ent.strt1 }
  else some { s with currPrnt := prntEnt.strt1 }

/-- One round of the loop; `none` is `ERROR`, or a record that is not there. -/
def chainStep (web : Bool) (port : ℤ) (s : ChainState) : Option ChainState := do
  let res ← db.getString s.currStrings
  let prntEnt ← fileAt file s.currPrnt
  let s := chainWrite web port prntEnt res s
  if !cseIsParent prntEnt.flags && !s.doc then none
  else if s.doc then
    -- from a document to the directory that it is in
    let prntEnt ← fileAt file (findParent file s.currPrnt)
    chainUp file prntEnt { s with doc := false, oldPrntEnt := none }
  else chainUp file prntEnt { s with oldPrntEnt := some prntEnt }

/-- The loop, with a bound on its rounds. -/
def chainLoop (web : Bool) (port : ℤ) : ℕ → ChainState → Option ChainState
  | 0, _ => none
  | fuel + 1, s =>
    if 0 ≤ s.currPrnt ∧ 0 ≤ s.currStrings then do
      let s ← chainStep db file web port s
      chainLoop web port fuel s
    else some s

/-- `handle_chain`: `qrystr` and `str` of the result.  `flags` and `qrystr` are
those that the result has when it is called. -/
def handleChain (fuel : ℕ) (web : Bool) (port : ℤ) (flags : ℕ) (qrystr : List UInt8)
    (currPrnt currStrings : ℤ) : Option (List UInt8 × List UInt8) := do
  let document ←
    if web then
      (fileAt file currPrnt).map fun e => !(cseIsParent e.flags || cseIsKey e.flags)
    else some false
  let s ← chainLoop db file web port fuel
    { currPrnt := currPrnt, currStrings := currStrings, oldPrntEnt := none
      key := web && cseIsKey flags, document := document, doc := document
      tmp := [], tot := [], maxLength := maxPathLen, qrystr := qrystr }
  some (s.qrystr, s.tot)

/-! ### The buffers -/

/-- The two buffers and their size. -/
structure Buffers where
  tmp : List UInt8
  tot : List UInt8
  maxLength : ℕ

/-- A name is put before the path. -/
def Buffers.push (b : Buffers) (x : List UInt8) : Buffers :=
  if b.maxLength ≤ b.tot.length + x.length + 2
    then ⟨b.tmp, x ++ 47 :: b.tmp, b.maxLength + maxPathLen⟩
  else ⟨b.tot, x ++ 47 :: b.tot, b.maxLength⟩

/-- A path with names before it. -/
def joinUp (tot : List UInt8) (names : List (List UInt8)) : List UInt8 :=
  names.foldl (fun tot x => x ++ 47 :: tot) tot

theorem length_le_joinUp (tot : List UInt8) (names : List (List UInt8)) :
    tot.length ≤ (joinUp tot names).length := by
  induction names generalizing tot with
  | nil => exact le_rfl
  | cons x names ih =>
    have hle := ih (x ++ 47 :: tot)
    simp only [List.length_append, List.length_cons] at hle
    rw [joinUp, List.foldl_cons]
    exact le_trans (by omega) hle

namespace Buffers

variable {b : Buffers}

theorem push_fits {x : List UInt8} (h : (x ++ 47 :: b.tot).length + 1 < b.maxLength) :
    b.push x = ⟨b.tot, x ++ 47 :: b.tot, b.maxLength⟩ := by
  rw [push, if_neg]
  simp at h
  omega

theorem push_long {x : List UInt8} (h : ¬ (x ++ 47 :: b.tot).length + 1 < b.maxLength) :
    b.push x = ⟨b.tmp, x ++ 47 :: b.tmp, b.maxLength + maxPathLen⟩ := by
  rw [push, if_pos]
  simp at h
  omega

/-- After a name was put before it the path is longer than the other buffer. -/
theorem length_tmp_push_lt (x : List UInt8) : (b.push x).tmp.length < (b.push x).tot.length := by
  rw [push]
  split <;> simp only [List.length_append, List.length_cons] <;> omega

/-- A path that fits is rebuilt. -/
theorem foldl_push_fits {names : List (List UInt8)}
    (h : (joinUp b.tot names).length + 1 < b.maxLength) :
    (names.foldl push b).tot = joinUp b.tot names := by
  induction names generalizing b with
  | nil => rfl
  | cons x names ih =>
    have hle := length_le_joinUp (x ++ 47 :: b.tot) names
    rw [joinUp, List.foldl_cons] at h ⊢
    rw [List.foldl_cons, push_fits (by simp only [joinUp] at hle; omega)]
    exact ih h

/-- A path that has gone wrong stays wrong: it is not longer than the right one,
and each time the buffers are exchanged it gets shorter. -/
theorem foldl_push_wrong {names : List (List UInt8)} {right : List UInt8}
    (hlt : b.tmp.length < b.tot.length) (hle : b.tot.length ≤ right.length) (hne : b.tot ≠ right) :
    (names.foldl push b).tot ≠ joinUp right names := by
  induction names generalizing b right with
  | nil => exact hne
  | cons x names ih =>
    rw [joinUp, List.foldl_cons, List.foldl_cons]
    refine ih (length_tmp_push_lt x) ?_ ?_
    · rw [push]
      split <;> simp only [List.length_append, List.length_cons] <;> omega
    · rw [push]
      split
      · intro he
        have hlen := congrArg List.length he
        simp only [List.length_append, List.length_cons] at hlen
        omega
      · intro he
        exact hne (by simpa using he)

/-- A path that is right so far is rebuilt exactly if all of it fits. -/
theorem foldl_push_iff {names : List (List UInt8)} (hlt : b.tmp.length < b.tot.length)
    (hfits : b.tot.length + 1 < b.maxLength) :
    (names.foldl push b).tot = joinUp b.tot names ↔
      (joinUp b.tot names).length + 1 < b.maxLength := by
  refine ⟨?_, foldl_push_fits⟩
  induction names generalizing b with
  | nil => exact fun _ => hfits
  | cons x names ih =>
    rw [joinUp, List.foldl_cons, List.foldl_cons]
    by_cases hx : (x ++ 47 :: b.tot).length + 1 < b.maxLength
    · rw [push_fits hx]
      have hlt' : b.tot.length < (x ++ 47 :: b.tot).length := by simp; omega
      exact ih (b := ⟨b.tot, x ++ 47 :: b.tot, b.maxLength⟩) hlt' hx
    · -- the path is cut here
      intro he
      rw [push_long hx] at he
      refine absurd he (foldl_push_wrong ?_ ?_ ?_)
      · simp only [List.length_append, List.length_cons]
        omega
      · simp only [List.length_append, List.length_cons]
        omega
      · intro heq
        have hlen := congrArg List.length heq
        simp only [List.length_append, List.length_cons] at hlen
        omega

end Buffers

/-- The paths that `handle_chain` gets right: those that fit the buffers from the
start, and those of a file named `9` that come to fit when the first name put
before it has enlarged them. -/
def PathFits (name parent path : List UInt8) : Prop :=
  path.length + 1 < maxPathLen ∨
    name = [57] ∧ maxPathLen ≤ parent.length + 3 ∧ path.length + 1 < 2 * maxPathLen

/-- **The path of an entry**, with its name in the first buffer and the mark in the
other one, is rebuilt exactly if it fits. -/
theorem Buffers.foldl_push_iff_pathFits {name parent : List UInt8} (hname : name ≠ [])
    (hparent : parent.length ≤ 255) (names : List (List UInt8)) :
    ((parent :: names).foldl Buffers.push ⟨[57], name, maxPathLen⟩).tot = joinUp name
      (parent :: names) ↔
      PathFits name parent (joinUp name (parent :: names)) := by
  have hpos : 1 ≤ name.length := List.length_pos_iff.mpr hname
  have hle := length_le_joinUp (parent ++ 47 :: name) names
  have hjoin : joinUp name (parent :: names) = joinUp (parent ++ 47 :: name) names := rfl
  rw [hjoin, List.foldl_cons, PathFits]
  by_cases hx : (parent ++ 47 :: name).length + 1 < maxPathLen
  · rw [Buffers.push_fits hx]
    have hlt : name.length < (parent ++ 47 :: name).length := by simp; omega
    rw [Buffers.foldl_push_iff (b := ⟨name, parent ++ 47 :: name, maxPathLen⟩) hlt hx]
    refine ⟨.inl, ?_⟩
    rintro (h | ⟨rfl, hlong, _⟩)
    · exact h
    · simp at hx
      omega
  · -- the buffers are enlarged for the first directory
    rw [Buffers.push_long hx]
    have hnot : ¬ (joinUp (parent ++ 47 :: name) names).length + 1 < maxPathLen := by omega
    have hlt : ([57] : List UInt8).length < (parent ++ 47 :: [57]).length := by simp
    by_cases h9 : name = [57]
    · subst h9
      have hfits : (parent ++ 47 :: [57]).length + 1 < maxPathLen + maxPathLen := by
        simp [maxPathLen]
        omega
      rw [Buffers.foldl_push_iff
        (b := ⟨[57], parent ++ 47 :: [57], maxPathLen + maxPathLen⟩) hlt hfits]
      have hlong : maxPathLen ≤ parent.length + 3 := by
        simp at hx
        omega
      simp only [hnot, false_or, true_and, hlong, two_mul]
    · refine iff_of_false ?_ ?_
      · refine Buffers.foldl_push_wrong (b := ⟨[57], parent ++ 47 :: [57], maxPathLen + maxPathLen⟩)
          hlt ?_ ?_
        · simp only [List.length_append, List.length_cons, List.length_nil]
          omega
        · simpa using fun h => h9 h.symm
      · rintro (h | ⟨h, _⟩)
        · exact hnot h
        · exact h9 h

/-! ### The ancestors of an entry -/

/-- For each record its name and those of its ancestors, the host last. -/
def ancestries (host : List UInt8) (recs : List ParserEntry) : List (List (List UInt8)) :=
  recs.foldl (fun names r => names ++ [r.name ::
    (if r.core.parentIdx = -1 then [host] else names.getD r.core.parentIdx.toNat [])]) []

/-- The name of an entry and those of its ancestors. -/
def ancestry (host : List UInt8) (recs : List ParserEntry) (i : ℕ) : List (List UInt8) :=
  (ancestries host recs).getD i []

/-- Names with slashes in between. -/
def joinPath : List (List UInt8) → List UInt8
  | [] => []
  | [x] => x
  | x :: y :: names => x ++ 47 :: joinPath (y :: names)

/-- The full path of an entry: the host, the directories and the name. -/
def sitePath (host : List UInt8) (recs : List ParserEntry) (i : ℕ) : List UInt8 :=
  joinPath (ancestry host recs i).reverse

theorem ancestries_append_singleton (host : List UInt8) (pre : List ParserEntry) (r : ParserEntry) :
    ancestries host (pre ++ [r]) = ancestries host pre ++ [r.name ::
      (if r.core.parentIdx = -1 then [host] else ancestry host pre r.core.parentIdx.toNat)] := by
  rw [ancestries, List.foldl_append]
  rfl

@[simp] theorem length_ancestries (host : List UInt8) (recs : List ParserEntry) :
    (ancestries host recs).length = recs.length := by
  induction recs using List.reverseRecOn with
  | nil => rfl
  | append_singleton pre r ih => simp [ancestries_append_singleton, ih]

theorem ancestry_append {host : List UInt8} {pre rest : List ParserEntry} {i : ℕ}
    (hi : i < pre.length) : ancestry host (pre ++ rest) i = ancestry host pre i := by
  induction rest using List.reverseRecOn with
  | nil => simp
  | append_singleton rest r ih =>
    rw [← List.append_assoc, ancestry, ancestries_append_singleton,
      List.getD_append _ _ _ _ (by simp; omega)]
    exact ih

/-- The ancestors of an entry are its directory and the ancestors of that. -/
theorem ancestry_eq {host : List UInt8} {recs : List ParserEntry} (h : WellFormed recs) {i : ℕ}
    (hi : i < recs.length) : ancestry host recs i = recs[i].name ::
      (if recs[i].core.parentIdx = -1 then [host]
        else ancestry host recs recs[i].core.parentIdx.toNat) := by
  have hsplit : recs = (recs.take i ++ [recs[i]]) ++ recs.drop (i + 1) := by
    rw [List.append_assoc, List.singleton_append, ← List.drop_eq_getElem_cons hi,
      List.take_append_drop]
  have hlen : (recs.take i).length = i := by rw [List.length_take]; omega
  have hself : ancestry host recs i = recs[i].name ::
      (if recs[i].core.parentIdx = -1 then [host]
        else ancestry host (recs.take i) recs[i].core.parentIdx.toNat) := by
    conv_lhs => rw [hsplit]
    rw [ancestry_append (by rw [List.length_append, hlen, List.length_singleton]; omega), ancestry,
      ancestries_append_singleton, List.getD_append_right _ _ _ _ (by simp)]
    simp [Nat.min_eq_left hi.le]
  rw [hself]
  split
  next => rfl
  next hne =>
    obtain ⟨j, hj, hp, _⟩ := (h.parent i hi).resolve_left hne
    have hpre : ancestry host recs j = ancestry host (recs.take i) j := by
      conv_lhs => rw [← List.take_append_drop i recs]
      exact ancestry_append (by rw [hlen]; exact hj)
    rw [hp, Int.toNat_natCast, hpre]

theorem joinPath_append_pair (l : List (List UInt8)) (x y : List UInt8) :
    joinPath (l ++ [x, y]) = joinPath (l ++ [x ++ 47 :: y]) := by
  induction l with
  | nil => rfl
  | cons z l ih =>
    cases l with
    | nil => rfl
    | cons w l =>
      simp only [List.cons_append, joinPath] at ih ⊢
      rw [ih]

/-- Putting the names before the path one by one gives the names, in order. -/
theorem joinUp_eq_joinPath (name : List UInt8) (names : List (List UInt8)) :
    joinUp name names = joinPath (name :: names).reverse := by
  induction names generalizing name with
  | nil => rfl
  | cons x names ih =>
    calc joinUp name (x :: names) = joinUp (x ++ 47 :: name) names := rfl
      _ = joinPath ((x ++ 47 :: name) :: names).reverse := ih _
      _ = joinPath (names.reverse ++ [x, name]) := by
          rw [List.reverse_cons, joinPath_append_pair]
      _ = joinPath (name :: x :: names).reverse := by simp

/-! ### The loop on the site file of an anonftp site -/

variable {db file}

@[simp] theorem chainWrite_doc (web : Bool) (port : ℤ) (prntEnt : SiteEntry) (res : List UInt8)
    (s : ChainState) : (chainWrite web port prntEnt res s).doc = s.doc := by
  simp only [chainWrite]
  split_ifs <;> rfl

/-- The loop is under way: both buffers hold something. -/
structure Running (s : ChainState) (b : Buffers) : Prop where
  tmp : s.tmp = b.tmp
  tot : s.tot = b.tot
  maxLength : s.maxLength = b.maxLength
  tmp_ne : b.tmp ≠ []
  tot_ne : b.tot ≠ []
  key : s.key = false
  doc : s.doc = false
  old : s.oldPrntEnt.isSome = true

/-- What a later round writes for an anonftp site. -/
theorem chainWrite_running {s : ChainState} {b : Buffers} (h : Running s b) (port : ℤ)
    (prntEnt : SiteEntry) (res : List UInt8) : chainWrite false port prntEnt res s =
      { s with tmp := (b.push res).tmp, tot := (b.push res).tot, maxLength := (b.push res).maxLength } := by
  have htmp : s.tmp ≠ [] := h.tmp ▸ h.tmp_ne
  have hold : s.oldPrntEnt.isNone = false := Option.isNone_eq_false_iff.mpr h.old
  rw [chainWrite, if_neg htmp, Buffers.push, ← h.tmp, ← h.tot, ← h.maxLength]
  have htot : s.tot ≠ [] := h.tot ▸ h.tot_ne
  by_cases hlong : s.maxLength ≤ s.tot.length + res.length + 2
  · simp [hlong, h.key, hold, marked, htmp]
  · simp [hlong, h.key, hold, marked, htot]

/-- The buffers hold something after a name was put before the path. -/
theorem Running.push {s : ChainState} {b : Buffers} (h : Running s b) (res : List UInt8) :
    (b.push res).tmp ≠ [] ∧ (b.push res).tot ≠ [] := by
  rw [Buffers.push]
  split
  · exact ⟨h.tmp_ne, by simp⟩
  · exact ⟨h.tot_ne, by simp⟩

/-- The first name goes into an empty buffer, and the other one is marked. -/
theorem chainWrite_first {s : ChainState} (htmp : s.tmp = []) (htot : s.tot = []) (port : ℤ)
    (prntEnt : SiteEntry) (res : List UInt8) : chainWrite false port prntEnt res s =
      { s with qrystr := if s.qrystr = [] then res else s.qrystr, tmp := [57], tot := res } := by
  rw [chainWrite, if_pos htmp]
  simp [marked, htot]

theorem fileAt_of_getElem? {k : ℕ} {e : SiteEntry} (h : file[k]? = some e) :
    fileAt file k = some e := by
  simp [fileAt, h]

/-! ### Going up -/

/-- The loop is at the name of an entry or, with `-1`, at that of the site: it has
the record of the directory that this is in, and the offset of the name. -/
def AtName (db : StringsDb) (host : List UInt8) (recs : List ParserEntry) (L : Layout) (p : ℤ)
    (currPrnt currStrings : ℤ) : Prop :=
  (p = -1 ∧ currPrnt = 0 ∧ currStrings = db.appendKey host) ∨
    ∃ (i : ℕ) (hi : i < recs.length), p = i ∧ currPrnt = L.mainOf (L.place i) ∧
      currStrings = db.appendKey recs[i].name

/-- The name of a directory and those of its ancestors. -/
def namesUp (host : List UInt8) (recs : List ParserEntry) (p : ℤ) : List (List UInt8) :=
  if p = -1 then [host] else ancestry host recs p.toNat

/-- An entry is named first, and then its directories. -/
theorem namesUp_entry {host : List UInt8} {recs : List ParserEntry} (hwf : WellFormed recs) {i : ℕ}
    (hi : i < recs.length) :
    namesUp host recs i = recs[i].name :: namesUp host recs recs[i].core.parentIdx := by
  have hne : (i : ℤ) ≠ -1 := by omega
  rw [namesUp, if_neg hne, Int.toNat_natCast, ancestry_eq hwf hi, namesUp]

/-- From the record of a directory the loop goes to its name. -/
theorem chainUp_enteredAt {host : List UInt8} {recs : List ParserEntry} {L : Layout}
    (hlinked : Linked db host recs L) {p : ℤ} {m : ℕ} (he : EnteredAt L p m)
    (hplaces : L.places.length = recs.length) :
    ∃ prntEnt, L.file[m]? = some prntEnt ∧ cseIsParent prntEnt.flags = true ∧
      ∃ currPrnt currStrings, AtName db host recs L p currPrnt currStrings ∧ ∀ s,
        chainUp L.file prntEnt s =
        some { s with currPrnt := currPrnt, currStrings := currStrings } := by
  obtain ⟨t, ht⟩ := hlinked.head
  rcases he with ⟨rfl, rfl⟩ | ⟨i, rfl, hi, -, -, hm⟩
  · refine ⟨⟨0x20, 0, .prntEntry 1⟩, by simp [ht, hostRecs], by decide, 0, db.appendKey host,
      .inl ⟨rfl, rfl, rfl⟩, ?_⟩
    intro s
    simp [chainUp, SiteCore.strt2, fileAt, ht, hostRecs]
  · have hi' : i < recs.length := hplaces ▸ hi
    refine ⟨_, hm, (by decide : cseIsParent 0x04 = true), L.mainOf (L.place i), db.appendKey recs[i].name,
      .inr ⟨i, hi', rfl, rfl, rfl⟩, ?_⟩
    intro s
    obtain ⟨m', hm', -⟩ := hlinked.dir i hi'
    have hnonneg : 0 ≤ L.mainOf (L.place i) := hm' ▸ Int.natCast_nonneg m'
    simp [chainUp, subpathRec, hnonneg, SiteCore.strt2, fileAt_of_getElem? (hlinked.entry i hi'),
      entryOf]

/-- A round at a name that is in a directory. -/
theorem chainStep_eq {s : ChainState} (hdoc : s.doc = false) {res : List UInt8}
    (hres : db.getString s.currStrings = some res) {prntEnt : SiteEntry}
    (hent : fileAt file s.currPrnt = some prntEnt) (hparent : cseIsParent prntEnt.flags = true)
    (web : Bool) (port : ℤ) : chainStep db file web port s =
      chainUp file prntEnt { chainWrite web port prntEnt res s with oldPrntEnt := some prntEnt } := by
  simp [chainStep, hres, hent, hparent, hdoc]

section

variable {host : List UInt8} {recs : List ParserEntry} {L : Layout}

/-- A round at the name of an entry goes to that of its directory. -/
theorem chainStep_entry (hlinked : Linked db host recs L) (hplaces : L.places.length = recs.length)
    (hnames : ∀ r ∈ recs, db.Faithful r.name) {i : ℕ} (hi : i < recs.length) {s : ChainState}
    (hdoc : s.doc = false) (hat : AtName db host recs L i s.currPrnt s.currStrings) (port : ℤ) :
    ∃ prntEnt currPrnt currStrings,
      AtName db host recs L recs[i].core.parentIdx currPrnt currStrings ∧
      chainStep db L.file false port s = some
        { chainWrite false port prntEnt recs[i].name s with
          oldPrntEnt := some prntEnt, currPrnt := currPrnt, currStrings := currStrings } := by
  obtain ⟨hneg, -⟩ | ⟨i', hi', heq, hprnt, hstrings⟩ := hat
  · omega
  obtain rfl : i = i' := by omega
  obtain ⟨m, hm, he, -⟩ := hlinked.dir i hi
  obtain ⟨prntEnt, hent, hparent, currPrnt, currStrings, hup, hchain⟩ :=
    chainUp_enteredAt hlinked he hplaces
  refine ⟨prntEnt, currPrnt, currStrings, hup, ?_⟩
  rw [chainStep_eq hdoc (hstrings ▸ (hnames _ (List.getElem_mem hi)).2)
    (hprnt ▸ hm ▸ fileAt_of_getElem? hent) hparent, hchain]

/-- A later round at the name of an entry. -/
theorem Running.step {s : ChainState} {b : Buffers} (h : Running s b)
    (hlinked : Linked db host recs L)
    (hplaces : L.places.length = recs.length) (hnames : ∀ r ∈ recs, db.Faithful r.name) {i : ℕ}
    (hi : i < recs.length) (hat : AtName db host recs L i s.currPrnt s.currStrings) (port : ℤ) :
    ∃ s', chainStep db L.file false port s = some s' ∧ Running s' (b.push recs[i].name) ∧
      s'.qrystr = s.qrystr ∧
        AtName db host recs L recs[i].core.parentIdx s'.currPrnt s'.currStrings := by
  obtain ⟨prntEnt, currPrnt, currStrings, hup, hstep⟩ :=
    chainStep_entry hlinked hplaces hnames hi h.doc hat port
  have hpush := h.push recs[i].name
  rw [chainWrite_running h] at hstep
  exact ⟨_, hstep, ⟨rfl, rfl, rfl, hpush.1, hpush.2, h.key, h.doc, rfl⟩, rfl, hup⟩

theorem AtName.nonneg (hlinked : Linked db host recs L) (hhost : db.Faithful host)
    (hnames : ∀ r ∈ recs, db.Faithful r.name) {p currPrnt currStrings : ℤ}
    (hat : AtName db host recs L p currPrnt currStrings) : 0 ≤ currPrnt ∧ 0 ≤ currStrings := by
  rcases hat with ⟨-, rfl, rfl⟩ | ⟨i, hi, -, rfl, rfl⟩
  · exact ⟨le_rfl, hhost.1⟩
  · obtain ⟨m, hm, -⟩ := hlinked.dir i hi
    exact ⟨hm ▸ Int.natCast_nonneg m, (hnames _ (List.getElem_mem hi)).1⟩

/-- The name of the site is the last one. -/
theorem chainLoop_host (hlinked : Linked db host recs L) (hhost : db.Faithful host) {s : ChainState}
    {b : Buffers} (h : Running s b) (hat : AtName db host recs L (-1) s.currPrnt s.currStrings)
    (port : ℤ) (fuel : ℕ) : ∃ s', chainLoop db L.file false port (fuel + 2) s = some s' ∧
      s'.qrystr = s.qrystr ∧ s'.tot = (b.push host).tot := by
  obtain ⟨-, hprnt, hstrings⟩ | ⟨i, -, hneg, -⟩ := hat
  swap
  · omega
  obtain ⟨t, ht⟩ := hlinked.head
  have hent : fileAt L.file s.currPrnt = some (subpathRec (-1) (-1)) := by
    simp [fileAt, hprnt, ht, hostRecs]
  rw [chainLoop, if_pos ⟨by omega, hstrings ▸ hhost.1⟩,
    chainStep_eq h.doc (hstrings ▸ hhost.2) hent (by decide), chainWrite_running h]
  simp [chainUp, subpathRec, chainLoop]

/-- **The loop puts the names of the directories before the path**, one after the
other, and ends with the site. -/
theorem chainLoop_spec (hwf : WellFormed recs) (hlinked : Linked db host recs L)
    (hplaces : L.places.length = recs.length) (hhost : db.Faithful host)
    (hnames : ∀ r ∈ recs, db.Faithful r.name) (port : ℤ) {p : ℤ} {s : ChainState} {b : Buffers}
    (h : Running s b) (hat : AtName db host recs L p s.currPrnt s.currStrings) {fuel : ℕ}
    (hfuel : p + 3 ≤ fuel) : ∃ s', chainLoop db L.file false port fuel s = some s' ∧
      s'.qrystr = s.qrystr ∧ s'.tot = ((namesUp host recs p).foldl Buffers.push b).tot := by
  -- each directory comes before its entries
  induction fuel generalizing p s b with
  | zero =>
    rcases hat with ⟨rfl, -⟩ | ⟨i, -, rfl, -⟩ <;> omega
  | succ fuel ih =>
    have hat' := hat
    rcases hat with ⟨rfl, hprnt, hstrings⟩ | ⟨i, hi, rfl, hprnt, hstrings⟩
    · obtain ⟨fuel, rfl⟩ : ∃ k, fuel = k + 1 := ⟨fuel - 1, by omega⟩
      simpa [namesUp] using chainLoop_host hlinked hhost h hat' port fuel
    · obtain ⟨s₁, hstep, hrun, hqry₁, hup⟩ := h.step hlinked hplaces hnames hi hat' port
      have hlt : recs[i].core.parentIdx < i := by
        rcases hwf.parent i hi with hroot | ⟨j, hj, hp, -⟩ <;> omega
      rw [chainLoop, if_pos (hat'.nonneg hlinked hhost hnames), hstep]
      obtain ⟨s', hs', hqry, htot⟩ := ih hrun hup (by omega)
      refine ⟨s', hs', hqry.trans hqry₁, ?_⟩
      rw [htot, namesUp_entry hwf hi, List.foldl_cons]

end

/-! ### The path of an entry -/

/-- The search backwards from a record comes to the record of its directory. -/
theorem findParent_spec {m k : ℕ} {e : SiteEntry} (hm : file[m]? = some e)
    (hparent : cseIsParent e.flags = true) (hle : m ≤ k) (hno : NoParent file m k) :
    findParent file k = m := by
  rw [findParent, if_pos (Int.natCast_nonneg k), Int.toNat_natCast]
  induction k with
  | zero =>
    obtain rfl : m = 0 := by omega
    simp [findParentFrom, hm, hparent]
  | succ k ih =>
    rcases Nat.eq_or_lt_of_le hle with rfl | hlt
    · simp [findParentFrom, hm, hparent]
    · have hfalse : (file[k + 1]?.any fun e => cseIsParent e.flags) = false := by
        rw [Option.any_eq_false]
        intro e' he'
        simpa using hno (k + 1) hlt le_rfl e' he'
      rw [findParentFrom, hfalse]
      exact ih (by omega) fun j hj hjk => hno j hj (by omega)

/-- `handle_chain` from the record of an entry: the names of its directories are
put before its own. -/
theorem handleChain_spec {host : List UInt8} {recs : List ParserEntry} (hwf : WellFormed recs)
    (hhost : db.Faithful host) (hnames : ∀ r ∈ recs, db.Faithful r.name) {i : ℕ}
    (hi : i < recs.length) (port : ℤ) (flags : ℕ) (qrystr : List UInt8) {fuel : ℕ}
    (hfuel : i + 3 ≤ fuel) :
    let L := layout db host recs
    handleChain db L.file fuel false port flags qrystr (findParent L.file (L.place i))
        (db.appendKey recs[i].name) =
      some (if qrystr = [] then recs[i].name else qrystr,
        ((namesUp host recs recs[i].core.parentIdx).foldl Buffers.push
          ⟨[57], recs[i].name, maxPathLen⟩).tot) := by
  intro L
  have hlinked : Linked db host recs L := linked_layout db hwf host (List.append_nil recs).symm
  have hplaces : L.places.length = recs.length := (layoutOk_layout db host recs).places
  obtain ⟨m, hm, he, hlt, hno⟩ := hlinked.dir i hi
  obtain ⟨prntEnt, hent, hparent, -⟩ := chainUp_enteredAt hlinked he hplaces
  rw [findParent_spec hent hparent hlt.le hno, ← hm]
  obtain ⟨fuel, rfl⟩ : ∃ k, fuel = k + 1 := ⟨fuel - 1, by omega⟩
  have hat : AtName db host recs L i (L.mainOf (L.place i)) (db.appendKey recs[i].name) :=
    .inr ⟨i, hi, rfl, rfl, rfl⟩
  -- the first name is in the empty buffer
  let s : ChainState :=
    { currPrnt := L.mainOf (L.place i), currStrings := db.appendKey recs[i].name, oldPrntEnt := none
      key := false && cseIsKey flags, document := false, doc := false
      tmp := [], tot := [], maxLength := maxPathLen, qrystr := qrystr }
  obtain ⟨prntEnt, currPrnt, currStrings, hup, hstep⟩ :=
    chainStep_entry hlinked hplaces hnames hi (rfl : s.doc = false) hat port
  rw [chainWrite_first rfl rfl] at hstep
  have hrun : Running (ChainState.mk currPrnt currStrings (some prntEnt) false false false [57]
      recs[i].name maxPathLen (if qrystr = [] then recs[i].name else qrystr))
      ⟨[57], recs[i].name, maxPathLen⟩ :=
    ⟨rfl, rfl, rfl, by simp, (hwf.name _ (List.getElem_mem hi)).1, rfl, rfl, rfl⟩
  have hbound : recs[i].core.parentIdx + 3 ≤ fuel := by
    rcases hwf.parent i hi with hroot | ⟨j, hj, hp, -⟩ <;> omega
  obtain ⟨s', hs', hqry, htot⟩ :=
    chainLoop_spec hwf hlinked hplaces hhost hnames port hrun hup hbound
  have hloop : chainLoop db L.file false port (fuel + 1) s = some s' := by
    rw [chainLoop, if_pos (hat.nonneg hlinked hhost hnames), hstep]
    exact hs'
  simp only [handleChain, Bool.false_eq_true, if_false, Option.bind_eq_bind, Option.bind_some]
  rw [hloop, Option.bind_some, hqry, htot]

/-- From the record for the name of the site. -/
theorem handleChain_host {host : List UInt8} {recs : List ParserEntry} (hwf : WellFormed recs)
    (hhost : db.Faithful host) (port : ℤ) (flags : ℕ) (qrystr : List UInt8) (fuel : ℕ) :
    let L := layout db host recs
    handleChain db L.file (fuel + 2) false port flags qrystr (findParent L.file 1)
      (db.appendKey host) =
      some (if qrystr = [] then host else qrystr, host) := by
  intro L
  obtain ⟨t, ht⟩ := (linked_layout db hwf host (List.append_nil recs).symm).head
  have hfile : L.file = hostRecs db host ++ t := ht
  have hent : fileAt L.file 0 = some (subpathRec (-1) (-1)) := by simp [fileAt, hfile, hostRecs]
  have hfind : findParent L.file 1 = 0 := by
    simp [findParent, findParentFrom, hfile, hostRecs, subpathRec, cseIsParent, cseIsSubpath,
      cseIsPort,
      cseIsName]
  rw [hfind]
  simp only [handleChain, Bool.false_eq_true, if_false, Option.bind_eq_bind, Option.bind_some,
    chainLoop]
  rw [if_pos ⟨le_rfl, hhost.1⟩, chainStep_eq rfl hhost.2 hent (by decide), chainWrite_first rfl rfl]
  simp [chainUp, subpathRec]

/-- A record that does not stand for a directory is that of the name of the site or
that of an entry. -/
theorem exists_place_layout (host : List UInt8) (recs : List ParserEntry) {k : ℕ} {e : SiteEntry}
    (hk : (layout db host recs).file[k]? = some e) (he : cseIsParent e.flags = false) :
    k = 1 ∨ ∃ i < recs.length, k = (layout db host recs).place i := by
  induction recs using List.reverseRecOn with
  | nil =>
    obtain hlt : k < 3 := (List.getElem?_eq_some_iff.mp hk).1
    have hcases : k = 0 ∨ k = 1 ∨ k = 2 := by omega
    rcases hcases with rfl | rfl | rfl
    · obtain rfl := Option.some.inj hk
      exact absurd he (by decide)
    · exact .inl rfl
    · obtain rfl := Option.some.inj hk
      exact absurd he (by decide)
  | append_singleton recs r ih =>
    have hok := layoutOk_layout db host recs
    rw [layout_append_singleton, Layout.add] at hk ⊢
    have hplaces := (layout db host recs).places_enter r.core.parentIdx
    have hlen : ((layout db host recs).enter r.core.parentIdx).places.length = recs.length := by
      rw [hplaces, hok.places]
    by_cases hlast : k < ((layout db host recs).enter r.core.parentIdx).file.length
    · rw [((layout db host recs).enter _).extends_addEntry db r |>.getElem? hlast] at hk
      have hold : (layout db host recs).file[k]? = some e := by
        rw [Layout.enter] at hk hlast
        split at hk
        next => exact hk
        next hne =>
          -- the record of the directory is none
          rw [if_neg hne] at hlast
          rcases Nat.lt_or_eq_of_le (Nat.le_of_lt_succ (by simpa using hlast)) with hlt | rfl
          · rwa [List.getElem?_append_left hlt] at hk
          · simp only [List.getElem?_concat_length, Option.some.injEq] at hk
            subst hk
            exact absurd he (by simp [subpathRec, cseIsParent, cseIsSubpath])
      rcases ih hold with h1 | ⟨i, hi, hki⟩
      · exact .inl h1
      · refine .inr ⟨i, by simp; omega, ?_⟩
        rw [((layout db host recs).enter _).extends_addEntry db r |>.place (by rw [hlen]; exact hi),
          ((layout db host recs).extends_enter _).place (by rw [hok.places]; exact hi)]
        exact hki
    · refine .inr ⟨recs.length, by simp, ?_⟩
      have hend := (List.getElem?_eq_some_iff.mp hk).1
      simp only [Layout.addEntry, List.length_append, List.length_singleton] at hend
      simp [Layout.place, Layout.addEntry, ← hlen]
      omega

/-- The name of the directory of an entry; in the root, that of the site. -/
def dirName (host : List UInt8) (recs : List ParserEntry) (p : ℤ) : List UInt8 :=
  if p = -1 then host else (recs[p.toNat]?.map ParserEntry.name).getD []

theorem namesUp_eq_cons {host : List UInt8} {recs : List ParserEntry} (hwf : WellFormed recs)
    {p : ℤ}
    (hp : p = -1 ∨ ∃ j < recs.length, p = (j : ℕ)) :
    ∃ names, namesUp host recs p = dirName host recs p :: names := by
  rcases hp with rfl | ⟨j, hj, rfl⟩
  · exact ⟨[], rfl⟩
  · have hne : (j : ℤ) ≠ -1 := by omega
    rw [namesUp_entry hwf hj, dirName, if_neg hne, Int.toNat_natCast, List.getElem?_eq_getElem hj]
    exact ⟨_, rfl⟩

/-- The path that `handle_chain` makes is that of the entry exactly if it fits. -/
theorem foldl_push_eq_sitePath_iff {host : List UInt8} {recs : List ParserEntry}
    (hwf : WellFormed recs)
    (hhost : host.length ≤ 255) {i : ℕ} (hi : i < recs.length) :
    ((namesUp host recs recs[i].core.parentIdx).foldl Buffers.push
        ⟨[57], recs[i].name, maxPathLen⟩).tot = sitePath host recs i ↔
      PathFits recs[i].name (dirName host recs recs[i].core.parentIdx) (sitePath host recs i) := by
  have hp := hwf.parent i hi
  have hparent : (dirName host recs recs[i].core.parentIdx).length ≤ 255 := by
    rcases hp with hroot | ⟨j, hj, hp, -⟩
    · rw [dirName, if_pos hroot]
      exact hhost
    · have hne : (j : ℤ) ≠ -1 := by omega
      rw [hp, dirName, if_neg hne, Int.toNat_natCast, List.getElem?_eq_getElem (by omega)]
      exact (hwf.name _ (List.getElem_mem _)).2.1
  obtain ⟨names, hnames⟩ := @namesUp_eq_cons host recs hwf recs[i].core.parentIdx
    (hp.imp_right fun ⟨j, hj, hp, _⟩ => ⟨j, by omega, hp⟩)
  have hpath : sitePath host recs i =
      joinUp recs[i].name (dirName host recs recs[i].core.parentIdx :: names) := by
    rw [joinUp_eq_joinPath, sitePath, ancestry_eq hwf hi, ← hnames, namesUp]
  rw [hnames, hpath]
  exact Buffers.foldl_push_iff_pathFits (hwf.name _ (List.getElem_mem hi)).1 hparent names

/-- **Inserting a site and rebuilding its paths.**  `setup_insert` reads all records
and does not come to the end of the array.  The records of its directories point to
records before them.  From the record of each entry `handle_chain` ends, with the
names of the ancestors of the entry unless the path is too long. -/
theorem setupInsert_handleChain {recs : List ParserEntry} (hwf : WellFormed recs) {header : Header}
    {host : List UInt8} (hheader : HeaderFor recs header host) (hhost : db.Faithful host)
    (hnames : ∀ r ∈ recs, db.Faithful r.name) (unset : List UInt8) (port : ℤ) (flags : ℕ)
    (qrystr : List UInt8) :
    let file := siteFile db host recs
    let n := (countExtraRecs recs header).siteNoRecs
    let place := (layout db host recs).place
    (file.length ≤ n ∧ setupInsert db unset (countExtraRecs recs header) recs
        (List.replicate n zeroEntry) =
      some (file ++ List.replicate (n - file.length) zeroEntry, file.length, [])) ∧
    (∀ (k : ℕ) (e : SiteEntry), file[k]? = some e → cseIsParent e.flags = true →
      ∃ strt2, e.core = .prntEntry strt2 ∧ e.strt1 < k ∧ strt2 < k) ∧
    (∀ (k : ℕ) (e : SiteEntry), file[k]? = some e → cseIsParent e.flags = false →
      k = 1 ∧ e.strt1 = db.appendKey host ∧ (∀ fuel, 2 ≤ fuel → handleChain db file fuel false port
        flags qrystr (findParent file k) e.strt1 = some
          (if qrystr = [] then host else qrystr, host)) ∨
      ∃ i < recs.length, k = place i) ∧
    ∀ (i : ℕ) (hi : i < recs.length), file[place i]? = some (entryOf db recs[i]) ∧ ∃ path,
      (∀ fuel, i + 3 ≤ fuel → handleChain db file fuel false port flags qrystr
        (findParent file (place i)) (db.appendKey recs[i].name) =
          some (if qrystr = [] then recs[i].name else qrystr, path)) ∧
      (path = sitePath host recs i ↔
        PathFits recs[i].name (dirName host recs recs[i].core.parentIdx)
          (sitePath host recs i)) := by
  intro file n place
  have hlinked : Linked db host recs (layout db host recs) :=
    linked_layout db hwf host (List.append_nil recs).symm
  by_cases hrecs : recs = []
  · have hfile : file = [] := if_pos hrecs
    refine ⟨setupInsert_siteFile hwf hheader unset, ?_, ?_, ?_⟩
    · simp [hfile]
    · simp [hfile]
    · simp [hrecs]
  have hfile : file = (layout db host recs).file := if_neg hrecs
  rw [hfile]
  refine ⟨hfile ▸ setupInsert_siteFile hwf hheader unset, hlinked.link, ?_, ?_⟩
  · intro k e hk he
    rcases exists_place_layout host recs hk he with rfl | hplace
    · obtain ⟨t, ht⟩ := hlinked.head
      have hstrt1 : e.strt1 = db.appendKey host := by
        rw [ht] at hk
        exact congrArg SiteEntry.strt1 (Option.some.inj hk).symm
      refine .inl ⟨rfl, hstrt1, fun fuel hfuel => ?_⟩
      obtain ⟨fuel, rfl⟩ : ∃ k, fuel = k + 2 := ⟨fuel - 2, by omega⟩
      rw [hstrt1]
      exact handleChain_host hwf hhost port flags qrystr fuel
    · exact .inr hplace
  · intro i hi
    exact ⟨hlinked.entry i hi, _,
      fun fuel hfuel => handleChain_spec hwf hhost hnames hi port flags qrystr hfuel,
      foldl_push_eq_sitePath_iff hwf hheader.length_hostname hi⟩

/-- A name of 255 characters. -/
def longName : List UInt8 := List.replicate 255 97

theorem length_longName : longName.length = 255 := List.length_replicate

/-- A database with strings of one character under their codes, and a long string. -/
def sampleDb : StringsDb where
  appendKey name := if name.length = 255 then 1000 else (name.headD 0).toNat
  getString k := if k = 1000 then some longName else some [UInt8.ofNat k.toNat]

/-- A directory `d` and a file `f` in it. -/
def sampleRecs : List ParserEntry :=
  [⟨⟨0, 0, -1, 1, 0, 1, 0⟩, [100]⟩, ⟨⟨5, 0, 0, -1, 0, 0, 0⟩, [102]⟩]

/-- A file with a name of 255 characters. -/
def sampleLongRecs : List ParserEntry := [⟨⟨5, 0, -1, -1, 0, 0, 0⟩, longName⟩]

theorem sampleRecs_wellFormed : WellFormed sampleRecs where
  plain := by decide
  name := by simp [sampleRecs]
  parent := by
    intro i hi
    have hcases : i = 0 ∨ i = 1 := by
      simp [sampleRecs] at hi
      omega
    rcases hcases with rfl | rfl
    · exact .inl rfl
    · exact .inr ⟨0, by omega, rfl, (by decide : cseIsDir 1 = true)⟩
  contiguous := by
    intro i j k hij hjk hk heq
    have hcases : i = j ∨ j = k ∨ (i = 0 ∧ k = 2) := by
      simp [sampleRecs] at hk
      omega
    rcases hcases with rfl | rfl | ⟨rfl, rfl⟩
    · rfl
    · exact heq.symm
    · simp [sampleRecs] at hk

theorem sampleLongRecs_wellFormed : WellFormed sampleLongRecs where
  plain := by decide
  name := by
    intro r hr
    obtain rfl := List.mem_singleton.mp hr
    refine ⟨?_, length_longName.le, ?_, ?_⟩
    · exact List.ne_nil_of_length_pos (by rw [length_longName]; omega)
    · exact fun h => absurd (List.eq_of_mem_replicate h) (by decide)
    · exact fun h => absurd (List.eq_of_mem_replicate h) (by decide)
  parent := by
    intro i hi
    obtain rfl : i = 0 := by simpa [sampleLongRecs] using hi
    exact .inl rfl
  contiguous := by
    intro i j k hij hjk hk heq
    obtain rfl : i = k := by
      simp [sampleLongRecs] at hk
      omega
    obtain rfl : i = j := by omega
    rfl

theorem sample_headerFor {recs : List ParserEntry} :
    HeaderFor recs ⟨8, recs.length, 0, [104], []⟩ [104] where
  noRecs := rfl
  notCounted := by simp [hdrGetSiteNoRecs]
  hostname := by simp [hostString, hdrGetPreferredHostname, hdrGetPrimaryHostname]
  hostname_ne := by simp
  length_hostname := by simp

/-- The file `f` in the directory `d` of the host `h` is `h/d/f`. -/
theorem setupInsert_handleChain_sample : ∃ path,
    handleChain sampleDb (siteFile sampleDb [104] sampleRecs) 4 false 21 0 []
      (findParent (siteFile sampleDb [104] sampleRecs)
        ((layout sampleDb [104] sampleRecs).place 1)) 102 = some ([102], path) ∧
      path = [104, 47, 100, 47, 102] := by
  obtain ⟨-, -, -, hpaths⟩ := @setupInsert_handleChain sampleDb _ sampleRecs_wellFormed _ _
    sample_headerFor (by simp [StringsDb.Faithful, sampleDb])
    (by simp [StringsDb.Faithful, sampleDb, sampleRecs]) [] 21 0 []
  obtain ⟨-, path, hchain, hpath⟩ := hpaths 1 (by decide)
  refine ⟨path, hchain 4 le_rfl, hpath.mpr ?_⟩
  exact .inl (by decide)

/-- A file in the root with a name of 255 characters gets the path `h/9`. -/
theorem handleChain_long_name : WellFormed sampleLongRecs ∧
    HeaderFor sampleLongRecs ⟨8, sampleLongRecs.length, 0, [104], []⟩ [104] ∧
      sampleDb.Faithful [104] ∧
    (∀ r ∈ sampleLongRecs, sampleDb.Faithful r.name) ∧
    handleChain sampleDb (siteFile sampleDb [104] sampleLongRecs) 3 false 21 0 []
      (findParent (siteFile sampleDb [104] sampleLongRecs)
        ((layout sampleDb [104] sampleLongRecs).place 0)) 1000 =
      some (longName, [104, 47, 57]) ∧
    sitePath [104] sampleLongRecs 0 ≠ [104, 47, 57] := by
  have hhost : sampleDb.Faithful [104] := by simp [StringsDb.Faithful, sampleDb]
  have hnames : ∀ r ∈ sampleLongRecs, sampleDb.Faithful r.name := by
    intro r hr
    obtain rfl := List.mem_singleton.mp hr
    simp [StringsDb.Faithful, sampleDb, length_longName]
  refine ⟨sampleLongRecs_wellFormed, sample_headerFor, hhost, hnames, ?_, ?_⟩
  · have hchain := handleChain_spec sampleLongRecs_wellFormed hhost hnames
      (show 0 < sampleLongRecs.length by decide) 21 0 [] (show 0 + 3 ≤ 3 by omega)
    have hkey : sampleDb.appendKey sampleLongRecs[0].name = 1000 := by
      simp [sampleDb, sampleLongRecs, length_longName]
    rw [hkey] at hchain
    rw [siteFile, if_neg (by simp [sampleLongRecs]), hchain]
    simp [sampleLongRecs, namesUp, Buffers.push, maxPathLen, length_longName]
  · intro h
    have hlen := congrArg List.length h
    simp [sitePath, ancestry, ancestries, sampleLongRecs, joinPath, length_longName] at hlen

end Archie
