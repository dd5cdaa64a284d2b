/-
The urls that are known of a web site (`webindex/retrieve/urldb.c`: `init_url_db`, `store_url`,
`store_url_db`).

The site file is read from its end.  Each record gets an url, unless a record behind it was found to
lie in the directory that it is; those with keywords get one in any case.  The way up from a record
alternates between the records for directories (`strt_1`) and the entries of these (`strt_2`).

* `climb`, `initRecord`, `initLoop`, `initUrlDb` — the function.
* `headings`, `dirText`, `recordUrl` — the way up, and the url that it makes.
* `climb_eq` — the loop makes this url, and marks the records on the way.
-/
import Archie.SetupInsert
import Archie.Unique
import Archie.UrlClean

namespace Archie

/-- `urlEntry`; the entry of `new_site` has no date. -/
structure UrlEntry where
  url : ParsedUrl
  recno : ℤ
  content : ℕ
  date : Option ℕ
  deriving DecidableEq, Repr

namespace UrlDb

/-! ### The table -/

/-- The table, and the keys of the data base. -/
structure UrlTable where
  table : List UrlEntry
  dbm : List (List UInt8)
  deriving DecidableEq, Repr

/-- `store_url`. -/
def storeUrl (ue : UrlEntry) (t : UrlTable) : UrlTable :=
  match ue.url.curl with
  | none => t
  | some curl => if curl ∈ t.dbm then t else ⟨t.table ++ [ue], curl :: t.dbm⟩

/-- `store_url_db`, for an url that is no redirection. -/
def storeUrlDb (u : ParsedUrl) (t : UrlTable) : UrlTable :=
  let u := if 1 < u.localUrl.length ∧ u.localUrl.getLast? = some 47 then
      { u with localUrl := u.localUrl.dropLast, curl := u.curl.map List.dropLast }
    else u
  storeUrl ⟨u, -2, 0, none⟩ t

/-- `table_cmp`. -/
def tableCmp (a b : UrlEntry) : ℤ := sint (ulong ((a.date.getD 0 : ℤ) - b.date.getD 0))

/-! ### `init_url_db` -/

/-- `pathname_t` has `MAX_PATH_LEN` characters. -/
def pathnameLen : ℕ := 256

/-- The variables of the loop over the site file. -/
structure InitState where
  visited : List Bool
  flag : Bool
  known : UrlTable
  deriving DecidableEq, Repr

section

variable (file : List SiteEntry) (db : StringsDb) (gethostbyname : List UInt8 → Option (List UInt8))

/-- The first loop of a round: the nearest record for a directory, from a record back.  It goes on
to 0 where there is none; the second loop then does nothing either. -/
def findHeading : ℕ → ℕ
  | 0 => 0
  | i + 1 => if file[i + 1]?.any (fun e => cseIsParent e.flags) then i + 1 else findHeading i

/-- `archGetString`, for an offset that is not negative. -/
def stringAt (strt1 : ℤ) : Option (List UInt8) := if strt1 < 0 then none else db.getString strt1

/-- The second loop, from the record for a directory on, with the text in `t1`.  There is no text if a
string is missing on the way; and no result if a text does not fit in its array or the loop leaves
the records for directories. -/
def climb : ℕ → ℕ → List UInt8 → List Bool → Option (List Bool × Option (List UInt8))
  | _, 0, t, visited => some (visited, some t)
  | 0, _ + 1, _, _ => none
  | fuel + 1, curr + 1, t, visited =>
    match file[curr + 1]? with
    | some ⟨flags, strt1, .prntEntry strt2⟩ =>
      if strt2 < 0 then some (visited, none)
      else
        match file[strt2.toNat]? with
        | none => none
        | some ent =>
          match stringAt db ent.strt1 with
          | none => some (visited, none)
          | some res =>
            let t := if cseIsName flags then bytes "http://" ++ res ++ 58 :: t else res ++ 47 :: t
            if pathnameLen ≤ t.length then none
            else climb fuel strt1.toNat t ((visited.set (curr + 1) true).set strt2.toNat true)
    | _ => none

/-- The url of a record goes to the table. -/
def storeRecord (i : ℕ) (date : ℕ) (text : Option (List UInt8)) (known : UrlTable) : UrlTable :=
  match text.bind (urlParse gethostbyname) with
  | none => known
  | some u => storeUrl ⟨u, i, if date = 0 then 0 else 1, some date⟩ known

/-- A round of the loop, at record `i`. -/
def initRecord (i : ℕ) (ent : SiteEntry) (s : InitState) : Option InitState :=
  if cseIsKey ent.flags then some { s with visited := s.visited.set i true, flag := true }
  else if s.visited.getD i false && !s.flag then some s
  else if cseIsDoc ent.flags || !s.flag then
    match stringAt db ent.strt1 with
    | none => some s
    | some res =>
      if pathnameLen ≤ res.length then none
      else do
        let (visited, text) ← climb file db file.length (findHeading file i) res s.visited
        some ⟨visited, false, storeRecord gethostbyname i ent.core.rdate text s.known⟩
  else some s

/-- The loop, when the records from `i` on have been read. -/
def initLoop : ℕ → InitState → Option InitState
  | 0, s => some s
  | i + 1, s => do
    let ent ← file[i]?
    let s ← initRecord file db gethostbyname i ent s
    initLoop i s

end

/-- `init_url_db`: the table, from a site file with its strings; with none, as for a new site. -/
def initUrlDb (gethostbyname : List UInt8 → Option (List UInt8)) (server port path : List UInt8)
    (site : Option (List SiteEntry × StringsDb)) : Option (List UrlEntry) :=
  let start := urlCanonical gethostbyname ⟨some server, some port, path, none⟩
  match site with
  | none => some (storeUrlDb start ⟨[], []⟩).table
  | some (file, db) => do
    let s ← initLoop file db gethostbyname file.length
      ⟨List.replicate file.length false, false, ⟨[], []⟩⟩
    if s.known.table = [] then some (storeUrlDb start s.known).table
    else some (qsort tableCmp s.known.table)

/-! ### The way up -/

section

variable (file : List SiteEntry) (db : StringsDb)

/-- The entry of the directory that a record stands for. -/
def entryOf (c : ℕ) : ℕ :=
  match file[c]? with
  | some ⟨_, _, .prntEntry strt2⟩ => strt2.toNat
  | _ => 0

/-- The string of a record. -/
def nameAt (i : ℕ) : List UInt8 := ((file[i]?).bind fun e => stringAt db e.strt1).getD []

/-- The record for the directory above that of a record. -/
def above (c : ℕ) : ℕ := findHeading file (entryOf file c)

/-- The records for directories on the way up from one of them. -/
def headings (c : ℕ) : List ℕ := if above file c < c then c :: headings (above file c) else []

/-- The text of the way up. -/
def dirText (c : ℕ) : List UInt8 :=
  if above file c < c then
    let name := nameAt file db (entryOf file c)
    dirText (above file c) ++
      if file[c]?.any (fun e => cseIsName e.flags) then bytes "http://" ++ name ++ [58]
      else name ++ [47]
  else []

/-- The url that is made of a record. -/
def recordUrl (i : ℕ) : List UInt8 := dirText file db (findHeading file i) ++ nameAt file db i

/-- The records that are marked on the way up. -/
def OnWay (i m : ℕ) : Prop := ∃ c ∈ headings file (findHeading file i), m = c ∨ m = entryOf file c

/-- The marks of the records for directories, and of their entries. -/
def markAll (visited : List Bool) (cs : List ℕ) : List Bool :=
  cs.foldl (fun visited c => (visited.set c true).set (entryOf file c) true) visited

end

/-! ### Files whose records lead up -/

/-- An entry of the site file: a file, a directory or a document. -/
def IsEntry (file : List SiteEntry) (i : ℕ) : Prop :=
  ∃ e, file[i]? = some e ∧ cseIsParent e.flags = false ∧ cseIsKey e.flags = false

/-- Records for directories, each with its entry before it and the record of the directory that this
is in; entries with strings; and keywords, each behind its document. -/
structure LeadsUp (file : List SiteEntry) (db : StringsDb) : Prop where
  heading : ∀ (c : ℕ) (e : SiteEntry), file[c]? = some e → cseIsParent e.flags = true → c ≠ 0 →
    ∃ p : ℕ, p ≠ 0 ∧ p < c ∧ e.core = .prntEntry p ∧ e.strt1 = findHeading file p ∧ IsEntry file p
  root : ∀ e, file[0]? = some e → e = subpathRec (-1) (-1)
  string : ∀ (i : ℕ) (e : SiteEntry), file[i]? = some e → cseIsParent e.flags = false →
    cseIsKey e.flags = false → ∃ name, stringAt db e.strt1 = some name
  parent : ∀ e ∈ file, cseIsParent e.flags = true → cseIsKey e.flags = false ∧ cseIsDoc e.flags = false
  keyword : ∀ (i : ℕ) (e : SiteEntry), file[i]? = some e → cseIsKey e.flags = true →
    cseIsDoc e.flags = false ∧ ∃ (j : ℕ) (e' : SiteEntry), i = j + 1 ∧ file[j]? = some e' ∧
      (cseIsDoc e'.flags = true ∨ cseIsKey e'.flags = true)

section

variable {file : List SiteEntry} {db : StringsDb} {c d i j m : ℕ} {e : SiteEntry}

theorem findHeading_le (file : List SiteEntry) (i : ℕ) : findHeading file i ≤ i := by
  induction i with
  | zero => exact le_rfl
  | succ i ih =>
    rw [findHeading]
    split
    · exact le_rfl
    · exact ih.trans i.le_succ

theorem findHeading_of_parent (he : file[c]? = some e) (hparent : cseIsParent e.flags = true) :
    findHeading file c = c := by
  cases c with
  | zero => rfl
  | succ c => rw [findHeading, he, Option.any_some, hparent, if_pos rfl]

theorem findHeading_succ_of_not (he : file[i + 1]? = some e) (hparent : cseIsParent e.flags = false) :
    findHeading file (i + 1) = findHeading file i := by
  rw [findHeading, he, Option.any_some, hparent, if_neg Bool.false_ne_true]

/-- What is found is a record for a directory. -/
theorem parent_of_findHeading (h : findHeading file i ≠ 0) :
    ∃ e, file[findHeading file i]? = some e ∧ cseIsParent e.flags = true := by
  induction i with
  | zero => exact absurd rfl h
  | succ i ih =>
    rw [findHeading] at h ⊢
    split
    next hany => exact Option.any_eq_true _ _ |>.mp hany
    next hany =>
      rw [if_neg hany] at h
      exact ih h

theorem findHeading_findHeading (file : List SiteEntry) (i : ℕ) :
    findHeading file (findHeading file i) = findHeading file i := by
  by_cases h : findHeading file i = 0
  · rw [h, findHeading]
  · obtain ⟨e, he, hparent⟩ := parent_of_findHeading h
    exact findHeading_of_parent he hparent

/-- One step up from a record for a directory. -/
theorem LeadsUp.step (h : LeadsUp file db) (he : file[c]? = some e)
    (hparent : cseIsParent e.flags = true) (hc : c ≠ 0) :
    e.core = .prntEntry (entryOf file c) ∧ e.strt1 = above file c ∧ entryOf file c ≠ 0 ∧
      entryOf file c < c ∧ above file c < c ∧ IsEntry file (entryOf file c) := by
  obtain ⟨p, hp, hpc, hcore, hstrt1, hentry⟩ := h.heading c e he hparent hc
  have hof : entryOf file c = p := by
    obtain ⟨flags, strt1, core⟩ := e
    dsimp only at hcore
    subst hcore
    rw [entryOf, he]
    exact Int.toNat_natCast p
  rw [above, hof]
  exact ⟨hcore, hstrt1, hp, hpc, (findHeading_le file p).trans_lt hpc, hentry⟩

theorem headings_zero (file : List SiteEntry) : headings file 0 = [] := by
  rw [headings, if_neg (Nat.not_lt_zero _)]

theorem headings_of_lt (h : above file c < c) : headings file c = c :: headings file (above file c) := by
  rw [headings, if_pos h]

/-- The way up of a record that is on the way up of another one is part of that. -/
theorem mem_headings_trans : c ∈ headings file d → m ∈ headings file c → m ∈ headings file d := by
  induction d using Nat.strong_induction_on with
  | _ d ih =>
    intro hc hm
    by_cases hlt : above file d < d
    · rw [headings_of_lt hlt, List.mem_cons] at hc ⊢
      rcases hc with rfl | hc
      · rw [headings_of_lt hlt, List.mem_cons] at hm
        exact hm
      · exact .inr (ih _ hlt hc hm)
    · rw [headings, if_neg hlt] at hc
      exact absurd hc List.not_mem_nil

theorem above_lt_of_mem : c ∈ headings file d → above file c < c ∧ c ≤ d := by
  induction d using Nat.strong_induction_on with
  | _ d ih =>
    intro hc
    by_cases hlt : above file d < d
    · rw [headings_of_lt hlt, List.mem_cons] at hc
      rcases hc with rfl | hc
      · exact ⟨hlt, le_rfl⟩
      · obtain ⟨habove, hle⟩ := ih _ hlt hc
        exact ⟨habove, hle.trans hlt.le⟩
    · rw [headings, if_neg hlt] at hc
      exact absurd hc List.not_mem_nil

/-- The records on the way up are found from themselves. -/
theorem findHeading_of_mem (hd : findHeading file d = d) :
    c ∈ headings file d → findHeading file c = c := by
  induction d using Nat.strong_induction_on with
  | _ d ih =>
    intro hc
    by_cases hlt : above file d < d
    · rw [headings_of_lt hlt, List.mem_cons] at hc
      rcases hc with rfl | hc
      · exact hd
      · exact ih _ hlt (findHeading_findHeading file _) hc
    · rw [headings, if_neg hlt] at hc
      exact absurd hc List.not_mem_nil

/-- A record on the way up has no other way than this one. -/
theorem onWay_trans (h : OnWay file i j) (hm : OnWay file j m) : OnWay file i m := by
  obtain ⟨c, hc, hj⟩ := h
  obtain ⟨d, hd, hdm⟩ := hm
  refine ⟨d, mem_headings_trans hc ?_, hdm⟩
  rcases hj with rfl | rfl
  · rwa [findHeading_of_mem (findHeading_findHeading file i) hc] at hd
  · rw [headings_of_lt (above_lt_of_mem hc).1]
    exact List.mem_cons_of_mem _ hd

/-! ### The loop up -/

@[simp] theorem length_markAll (file : List SiteEntry) (visited : List Bool) (cs : List ℕ) :
    (markAll file visited cs).length = visited.length := by
  induction cs generalizing visited with
  | nil => rfl
  | cons c cs ih =>
    rw [markAll, List.foldl_cons, ← markAll, ih]
    simp

theorem getD_set_true {visited : List Bool} (hm : m < visited.length) (a : ℕ) :
    (visited.set a true).getD m false = true ↔ visited.getD m false = true ∨ m = a := by
  rw [List.getD_eq_getElem?_getD, List.getElem?_set, List.getD_eq_getElem?_getD]
  by_cases ha : a = m
  · rw [if_pos ha, if_pos (ha ▸ hm)]
    simp [ha]
  · rw [if_neg ha, or_iff_left (Ne.symm ha)]

/-- What is marked. -/
theorem markAll_getD {visited : List Bool} {cs : List ℕ} (hm : m < visited.length) :
    (markAll file visited cs).getD m false = true ↔
      visited.getD m false = true ∨ ∃ c ∈ cs, m = c ∨ m = entryOf file c := by
  induction cs generalizing visited with
  | nil => simp [markAll]
  | cons c cs ih =>
    have hset : ((visited.set c true).set (entryOf file c) true).getD m false = true ↔
        visited.getD m false = true ∨ m = c ∨ m = entryOf file c := by
      rw [getD_set_true (by simpa using hm), getD_set_true hm, or_assoc]
    rw [markAll, List.foldl_cons, ← markAll, ih (by simpa using hm), hset]
    simp only [List.mem_cons, exists_eq_or_imp, or_assoc]

/-- **The loop makes the text of the way up and marks the records on it**, if the text fits. -/
theorem climb_eq (h : LeadsUp file db) {t : List UInt8} (ht : t.length < pathnameLen)
    {visited : List Bool} {fuel : ℕ} (hfuel : c ≤ fuel) (hc : findHeading file c = c)
    (hlt : c < file.length) : climb file db fuel c t visited =
      if (dirText file db c ++ t).length < pathnameLen then
        some (markAll file visited (headings file c), some (dirText file db c ++ t))
      else none := by
  induction fuel generalizing c t visited with
  | zero =>
    obtain rfl : c = 0 := by omega
    rw [climb, headings_zero, dirText, if_neg (Nat.not_lt_zero _), List.nil_append, if_pos ht, markAll,
      List.foldl_nil]
  | succ fuel ih =>
    cases c with
    | zero =>
      rw [climb, headings_zero, dirText, if_neg (Nat.not_lt_zero _), List.nil_append, if_pos ht,
        markAll, List.foldl_nil]
    | succ c =>
      obtain ⟨e, he, hparent⟩ := @parent_of_findHeading file (c + 1) (by omega)
      rw [hc] at he
      obtain ⟨hcore, hstrt1, hne, hentrylt, habove, e', he', hnot, hkey⟩ :=
        h.step he hparent c.succ_ne_zero
      obtain ⟨name, hname⟩ := h.string _ e' he' hnot hkey
      have hnameAt : nameAt file db (entryOf file (c + 1)) = name := by
        rw [nameAt, he', Option.bind_some, hname, Option.getD_some]
      obtain ⟨flags, strt1, core⟩ := e
      dsimp only at hcore hstrt1 hparent
      subst hcore hstrt1
      rw [climb, he]
      dsimp only
      rw [if_neg (by omega), Int.toNat_natCast, he']
      dsimp only
      rw [hname]
      dsimp only
      rw [dirText, if_pos habove, headings_of_lt habove, hnameAt, he, Option.any_some,
        Int.toNat_natCast]
      dsimp only
      set piece := if cseIsName flags = true then bytes "http://" ++ name ++ [58] else name ++ [47]
        with hpiece
      have htext : (if cseIsName flags = true then bytes "http://" ++ name ++ 58 :: t
          else name ++ 47 :: t) = piece ++ t := by
        rw [hpiece]
        split <;> simp
      rw [htext]
      by_cases hlong : pathnameLen ≤ (piece ++ t).length
      · rw [if_pos hlong, if_neg]
        show ¬(dirText file db (above file (c + 1)) ++ piece ++ t).length < pathnameLen
        rw [List.append_assoc, List.length_append]
        omega
      · have hrest := @ih (above file (c + 1)) (piece ++ t) (not_le.mp hlong)
          ((visited.set (c + 1) true).set (entryOf file (c + 1)) true) (by omega)
          (findHeading_findHeading file _) (by omega)
        rw [if_neg hlong, hrest, List.append_assoc]
        rfl

end

end UrlDb

end Archie
