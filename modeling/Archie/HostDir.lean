/-
Listing a directory of an anonftp site (`libparchie/parchie_host_dir.c`, and
`new_find_ancestors` of `parchie_search_files_db.c`).

* `parchieHostDir` — the function, with `hostDirScan` and `hostDirWalk` for its two loops over
  the components of the path and the records of the site file, and `newFindAncestors`.
* `PathTo`, `HasEntries`, `HostDirRight` — the directories of a site, and what a listing
  should be.
* `Headed` — where the records for directories are in a site file.
* `hostDirWalk_spec` — the directory that the loops come to.
* `newFindAncestors_spec` — the names that a link gets for its path.
* `parchieHostDir_iff` — when the listing is right.
-/
import Archie.CText
import Archie.Exchange

namespace Archie

/-! ### `parchie_host_dir` -/

/-- The fields of a `VLINK` that say what it is a link to. -/
structure HostLink where
  name : List UInt8
  target : List UInt8
  host : List UInt8
  hsoname : List UInt8
  deriving DecidableEq, Repr

/-- `MAX_PCOMPS`. -/
def maxPcomps : ℕ := 128

/-- Where the components of a path lead: to a directory that is not found, to one without
entries, or to the first entry of one, with the record of the directory if there is one.  There
is a fault where a record past the end is looked at. -/
inductive HostDirAt
  | notFound
  | noEntries
  | fault
  | first (siteRec : ℕ) (parentPtr : Option ℕ)
  deriving DecidableEq, Repr

section

variable (db : StringsDb) (search : List UInt8 → Option ℤ) (file : List SiteEntry)

/-- A record for a directory with the name that is looked for, in the directory that the last
component has led to. -/
def subpathFits (start : ℤ) (parentCount : Option ℕ) (e : SiteEntry) : Bool :=
  cseIsSubpath e.flags && match e.core.strt2 with
    | none => false
    | some strt2 =>
      strt2 ≤ file.length && 0 < strt2 && (fileAt file strt2).any (·.strt1 == start) &&
        match parentCount with
        | none => true -- `first == 1`: the directory above is not looked at
        | some n => (n : ℤ) == e.strt1

/-- The loop over the records for one component. -/
def hostDirScan (start : ℤ) (parentCount : Option ℕ) : ℕ → ℕ → ℕ → Option (ℕ × ℕ)
  | 0, _, _ => none
  | fuel + 1, siteRec, currCount =>
    match file[siteRec]? with
    | none => none
    | some e =>
      if subpathFits file start parentCount e then some (siteRec, currCount)
      else hostDirScan start parentCount fuel (siteRec + 1) (currCount + 1)

/-- The loop over the components. -/
def hostDirWalk : List (List UInt8) → ℕ → ℕ → Option ℕ → Option ℕ → HostDirAt
  | [], siteRec, _, _, parentPtr => .first siteRec parentPtr
  | d :: dirs, siteRec, currCount, parentCount, _ =>
    match search d with
    | none => .notFound
    | some start =>
      match hostDirScan file start parentCount (file.length + 1) siteRec currCount with
      | none => .notFound
      | some (siteRec, currCount) =>
        match file[siteRec + 1]? with
        | none => .fault
        | some child =>
          if cseIsFile child.flags || cseIsDir child.flags || cseIsDoc child.flags || cseIsLink child.flags then
            hostDirWalk dirs (siteRec + 1) (currCount + 1) (some currCount) (some siteRec)
          else .noEntries

/-- The loop of `new_find_ancestors`; none, if the array of names or the file ends before it. -/
def ancestorsLoop : ℕ → SiteEntry → SiteEntry → List (List UInt8) → Option (List (List UInt8))
  | 0, _, _, _ => none
  | fuel + 1, parentFile, mySentry, pathname =>
    match db.getString parentFile.strt1 with
    | none => some []
    | some strres =>
      let pathname := pathname ++ [strres]
      if maxPcomps ≤ pathname.length then none
      else if 0 ≤ parentFile.strt1 then do
        let strt2 ← mySentry.core.strt2
        if 0 ≤ strt2 then
          let parentFile ← fileAt file strt2
          if 0 ≤ mySentry.strt1 then
            let mySentry ← fileAt file mySentry.strt1
            ancestorsLoop fuel parentFile mySentry pathname
          else
            match db.getString parentFile.strt1 with
            | none => some []
            | some strres =>
              if maxPcomps ≤ pathname.length + 1 then none else some (pathname ++ [strres])
        else some pathname
      else some pathname

/-- `new_find_ancestors`. -/
def newFindAncestors (siteEntry : SiteEntry) : Option (List (List UInt8)) := do
  let strt2 ← siteEntry.core.strt2
  if 0 ≤ strt2 then
    let parentFile ← fileAt file strt2
    if 0 ≤ siteEntry.strt1 then
      let mySentry ← fileAt file siteEntry.strt1
      ancestorsLoop db file (file.length + 1) parentFile mySentry []
    else
      match db.getString parentFile.strt1 with
      | none => some []
      | some strres => some [strres]
  else some []

/-- A path of names, each after a slash. -/
def slashPath (names : List (List UInt8)) : List UInt8 := names.flatMap (47 :: ·)

/-- The link for an entry; none, if a name is lost or a path does not fit in its buffer. -/
def hostLink (siteName hostwport : List UInt8) (parentPtr : Option ℕ) (e : SiteEntry) :
    Option HostLink := do
  let name ← db.getString e.strt1
  let pathName ← newFindAncestors db file (← file[← parentPtr]?)
  let fullpath := slashPath pathName.reverse ++ 47 :: name
  if fullpath.length ≥ 4096 then none
  else if cseIsSubpath e.flags then
    let hsoname := bytes "ARCHIE/HOST/" ++ siteName ++ fullpath
    if hsoname.length ≥ 4096 then none
    else some { name, target := bytes "DIRECTORY", host := hostwport, hsoname }
  else some { name, target := bytes "EXTERNAL", host := siteName, hsoname := fullpath }

/-- The loop over the entries of the directory. -/
def hostLinks (siteName hostwport : List UInt8) (parentPtr : Option ℕ) : List SiteEntry →
    Option (List HostLink)
  | [] => some []
  | e :: rest =>
    if cseIsParent e.flags then some []
    else do
      let link ← hostLink db file siteName hostwport parentPtr e
      let links ← hostLinks siteName hostwport parentPtr rest
      some (link :: links)

/-- `basepath`: the path without a slash before it. -/
def hostDirBasepath : List UInt8 → List UInt8
  | 47 :: rest => rest
  | dirname => dirname

/-- `parchie_host_dir`, from the site file of the host on: the links, if the directory is found.
There is no result if the program fails. -/
def parchieHostDir (siteName hostwport dirname : List UInt8) : Option (Option (List HostLink)) :=
  let basepath := hostDirBasepath dirname
  if maxPathLen ≤ basepath.length then none
  else
    match hostDirWalk search file
      ((strSepFields 47 [] basepath).takeWhile (· ≠ [])) 0 0 none none with
    | .notFound => some none
    | .noEntries => some (some [])
    | .fault => none
    | .first siteRec parentPtr =>
      if file.length ≤ siteRec then some none
      else (hostLinks db file siteName hostwport parentPtr (file.drop siteRec)).map some

end

/-! ### The directories of a site -/

/-- A directory, by its index, has entries. -/
def HasEntries (recs : List ParserEntry) (p : ℤ) : Prop := ∃ r ∈ recs, r.core.parentIdx = p

/-- The entries of a directory. -/
def entriesOf (recs : List ParserEntry) (p : ℤ) : List ParserEntry :=
  recs.filter fun r => r.core.parentIdx = p

/-- The index of the first of them. -/
def firstEntry (recs : List ParserEntry) (p : ℤ) : ℕ := recs.findIdx fun r => r.core.parentIdx = p

/-- From one directory names lead to another one. -/
def PathTo (recs : List ParserEntry) : ℤ → List (List UInt8) → ℤ → Prop
  | p, [], q => p = q
  | p, d :: dirs, q =>
    ∃ (i : ℕ) (hi : i < recs.length), recs[i].core.parentIdx = p ∧ recs[i].name = d ∧
      PathTo recs i dirs q

/-- The entries of one directory have different names. -/
def SiblingsDistinct (recs : List ParserEntry) : Prop :=
  ∀ (i j : ℕ) (hi : i < recs.length) (hj : j < recs.length),
    recs[i].core.parentIdx = recs[j].core.parentIdx →
    recs[i].name = recs[j].name → i = j

/-- The link for an entry of the directory at a path. -/
def hostLinkFor (siteName hostwport : List UInt8) (dirs : List (List UInt8)) (r : ParserEntry) :
    HostLink :=
  let fullpath := slashPath dirs ++ 47 :: r.name
  if cseIsDir r.core.flags then
    { name := r.name, target := bytes "DIRECTORY", host := hostwport
      hsoname := bytes "ARCHIE/HOST/" ++ siteName ++ fullpath }
  else { name := r.name, target := bytes "EXTERNAL", host := siteName, hsoname := fullpath }

/-- The listing of the directory at a path: a link for each of its entries, if there is a directory with
entries there. -/
structure HostDirRight (recs : List ParserEntry) (siteName hostwport : List UInt8)
    (dirs : List (List UInt8))
    (res : Option (Option (List HostLink))) : Prop where
  listed : ∀ q, PathTo recs (-1) dirs q → HasEntries recs q →
    res = some (some ((entriesOf recs q).map (hostLinkFor siteName hostwport dirs)))
  missing : (∀ q, PathTo recs (-1) dirs q → ¬HasEntries recs q) → res = some none

/-- The first directory of a name in the site file: the one whose entries come first. -/
def FirstListed (recs : List ParserEntry) (d : List UInt8) (i : ℕ) : Prop :=
  (∃ hi : i < recs.length, recs[i].name = d) ∧ HasEntries recs i ∧
    ∀ (j : ℕ) (hj : j < recs.length), recs[j].name = d → HasEntries recs j →
      firstEntry recs i ≤ firstEntry recs j

/-- A path leads nowhere: neither from the root nor, after its first name, from the first directory of
that name. -/
structure LeadsNowhere (recs : List ParserEntry) (dirs : List (List UInt8)) : Prop where
  root : ∀ q, PathTo recs (-1) dirs q → ¬HasEntries recs q
  first : ∀ d rest, dirs = d :: rest → ∀ i, FirstListed recs d i → ∀ q, PathTo recs i rest q →
    ¬HasEntries recs q

/-- The search finds the names of the site under their offsets, and nothing else under these. -/
structure SearchFaithful (db : StringsDb) (search : List UInt8 → Option ℤ)
    (recs : List ParserEntry) : Prop where
  found : ∀ r ∈ recs, search r.name = some (db.appendKey r.name)
  only : ∀ d off, search d = some off → ∀ r ∈ recs, db.appendKey r.name = off → r.name = d

/-! ### Records for directories -/

section

variable {recs pre : List ParserEntry} {r : ParserEntry} {p : ℤ}

theorem firstEntry_lt (h : HasEntries recs p) : firstEntry recs p < recs.length := by
  obtain ⟨r, hr, hp⟩ := h
  exact List.findIdx_lt_length_of_exists ⟨r, hr, decide_eq_true hp⟩

theorem parentIdx_firstEntry (h : HasEntries recs p) :
    (getElem recs (firstEntry recs p) (firstEntry_lt h)).core.parentIdx = p := by
  have hfind := List.findIdx_getElem (w := firstEntry_lt h)
  exact of_decide_eq_true hfind

/-- There is one first directory of a name. -/
theorem FirstListed.unique {d : List UInt8} {i j : ℕ} (hi : FirstListed recs d i)
    (hj : FirstListed recs d j) : i = j := by
  obtain ⟨⟨hilt, hiname⟩, hientries, himin⟩ := hi
  obtain ⟨⟨hjlt, hjname⟩, hjentries, hjmin⟩ := hj
  have hfirst : firstEntry recs i = firstEntry recs j :=
    le_antisymm (himin j hjlt hjname hjentries) (hjmin i hilt hiname hientries)
  have hiparent := parentIdx_firstEntry hientries
  have hjparent := parentIdx_firstEntry hjentries
  simp only [hfirst] at hiparent
  omega

theorem firstEntry_append (h : HasEntries pre p) (r : ParserEntry) :
    firstEntry (pre ++ [r]) p = firstEntry pre p := by
  have hlt := firstEntry_lt h
  rw [firstEntry] at hlt
  rw [firstEntry, List.findIdx_append, if_pos hlt, firstEntry]

theorem firstEntry_concat (h : ¬HasEntries pre r.core.parentIdx) :
    firstEntry (pre ++ [r]) r.core.parentIdx = pre.length := by
  have hnone : pre.findIdx (fun q => decide (q.core.parentIdx = r.core.parentIdx)) =
      pre.length := by
    rw [List.findIdx_eq_length]
    intro q hq
    exact decide_eq_false fun heq => h ⟨q, hq, heq⟩
  rw [firstEntry, List.findIdx_append, hnone, if_neg (lt_irrefl _)]
  simp

theorem HasEntries.append (h : HasEntries pre p) (r : ParserEntry) : HasEntries (pre ++ [r]) p := by
  obtain ⟨q, hq, hp⟩ := h
  exact ⟨q, List.mem_append_left _ hq, hp⟩

/-- Where the records for directories are: each before the first entry of its directory. -/
structure Headed (pre : List ParserEntry) (L : Layout) : Prop where
  mono : ∀ i j, i < j → j < pre.length → L.place i < L.place j
  head : ∀ k e, L.file[k]? = some e → cseIsSubpath e.flags = true → k ≠ 0 →
    ∃ p : ℕ, HasEntries pre p ∧ L.place (firstEntry pre p) = k + 1

variable {db : StringsDb}

theorem subpath_entryOf (h : r.core.flags < 4) : cseIsSubpath (entryOf db r).flags = false := by
  have hparent := (plain_flags h).1
  rw [cseIsParent, Bool.or_eq_false_iff, Bool.or_eq_false_iff] at hparent
  exact hparent.1.1

theorem headed_layout (h : WellFormed recs) (host : List UInt8) {pre rest : List ParserEntry}
    (hrecs : recs = pre ++ rest) : Headed pre (layout db host pre) := by
  induction pre using List.reverseRecOn generalizing rest with
  | nil =>
    refine ⟨fun i j _ hj => absurd hj (Nat.not_lt_zero j), fun k e hk he hne => ?_⟩
    have hk' : (hostRecs db host)[k]? = some e := hk
    have hlt : k < 3 := (List.getElem?_eq_some_iff.mp hk').1
    obtain rfl | rfl : k = 1 ∨ k = 2 := by omega
    · obtain rfl := Option.some.inj hk'
      exact absurd he (by decide : ¬cseIsSubpath 0x01 = true)
    · obtain rfl := Option.some.inj hk'
      exact absurd he (by decide : ¬cseIsSubpath 0x20 = true)
  | append_singleton pre r ih =>
    rw [List.append_assoc] at hrecs
    have hok := layoutOk_layout db host pre
    have hpre := ih hrecs
    have hplaces : ∀ i < pre.length,
        ((layout db host pre).add db r).place i = (layout db host pre).place i := by
      intro i hi
      have hext := (Layout.extends_addEntry db
          ((layout db host pre).enter r.core.parentIdx) r).trans
        ((layout db host pre).extends_enter r.core.parentIdx)
      exact hext.place (by rw [hok.places]; exact hi)
    have hlast : ((layout db host pre).add db r).place pre.length =
        ((layout db host pre).enter r.core.parentIdx).file.length := by
      simp [Layout.place, Layout.add, Layout.addEntry, ← hok.places]
    have hlength := (layout db host pre).length_file_enter r.core.parentIdx
    rw [layout_append_singleton]
    refine ⟨fun i j hij hj => ?_, fun k e hk he hne => ?_⟩
    · rw [List.length_append, List.length_singleton] at hj
      obtain hj | rfl : j < pre.length ∨ j = pre.length := by omega
      · rw [hplaces i (by omega), hplaces j hj]
        exact hpre.mono i j hij hj
      · rw [hplaces i hij, hlast, hlength]
        exact (hok.lt i hij).trans_le (Nat.le_add_right _ _)
    · -- The record is an old one, that of the directory that is gone to, or that of the entry.
      by_cases hold : k < (layout db host pre).file.length
      · have hext := (Layout.extends_addEntry db
          ((layout db host pre).enter r.core.parentIdx) r).trans
          ((layout db host pre).extends_enter r.core.parentIdx)
        have hk' : (layout db host pre).file[k]? = some e := (hext.getElem? hold).symm.trans hk
        obtain ⟨p, hp, hplace⟩ := hpre.head k e hk' he hne
        refine ⟨p, hp.append r, ?_⟩
        rw [firstEntry_append hp, hplaces _ (firstEntry_lt hp), hplace]
      · have hend : k < ((layout db host pre).enter r.core.parentIdx).file.length + 1 := by
          have hlt := (List.getElem?_eq_some_iff.mp hk).1
          simpa [Layout.add, Layout.addEntry] using hlt
        have hentry : k ≠ ((layout db host pre).enter r.core.parentIdx).file.length := by
          rintro rfl
          obtain rfl : entryOf db r = e := by simpa [Layout.add, Layout.addEntry] using hk
          rw [subpath_entryOf (h.plain r (by simp [hrecs]))] at he
          exact absurd he Bool.false_ne_true
        have hp : r.core.parentIdx ≠ (layout db host pre).prev := by
          intro hp
          rw [if_pos hp] at hlength
          omega
        rw [if_neg hp] at hlength
        obtain rfl : k = (layout db host pre).file.length := by omega
        have hne : r.core.parentIdx ≠ lastParent pre := fun heq => hp (heq.trans hok.prev.symm)
        obtain ⟨q, -, hq, -⟩ := (h.next hrecs).resolve_left hne
        have hfresh := h.fresh hrecs hne
        have hnone : ¬HasEntries pre r.core.parentIdx := by
          rintro ⟨q, hq, heq⟩
          exact hfresh q hq heq
        refine ⟨q, ⟨r, by simp, hq⟩, ?_⟩
        rw [← hq, firstEntry_concat hnone, hlast, hlength]

/-- The record for a directory with entries. -/
structure HeadAt (recs : List ParserEntry) (L : Layout) (p k : ℕ) : Prop where
  entries : HasEntries recs p
  lt : p < recs.length
  first : L.place (firstEntry recs p) = k + 1
  file : L.file[k]? = some (subpathRec (L.mainOf (L.place p)) (L.place p))

section

variable {L : Layout} {host : List UInt8} {k k' q : ℕ} {e : SiteEntry}

theorem Headed.place_inj (hheaded : Headed recs L) {i j : ℕ} (hi : i < recs.length)
    (hj : j < recs.length)
    (h : L.place i = L.place j) : i = j := by
  rcases Nat.lt_trichotomy i j with hij | hij | hij
  · exact absurd h (hheaded.mono i j hij hj).ne
  · exact hij
  · exact absurd h.symm (hheaded.mono j i hij hi).ne

/-- There is one record for each directory, and it tells which one it is. -/
theorem HeadAt.unique {p : ℕ} (h : HeadAt recs L p k) (h' : HeadAt recs L p k') : k = k' := by
  have hplace := h.first.symm.trans h'.first
  omega

theorem HeadAt.eq_of_file (hheaded : Headed recs L) (h : HeadAt recs L q k) {j : ℕ}
    (hj : j < recs.length) {strt1 : ℤ}
    (hfile : L.file[k]? = some (subpathRec strt1 (L.place j))) : j = q := by
  have hrec := Option.some.inj (hfile.symm.trans h.file)
  have hcore : SiteCore.prntEntry (L.place j) = .prntEntry (L.place q) :=
    congrArg SiteEntry.core hrec
  rw [SiteCore.prntEntry.injEq, Nat.cast_inj] at hcore
  exact hheaded.place_inj hj h.lt hcore

/-- Every sub-path record but that of the root is one of these. -/
theorem exists_headAt_of_subpath (hlinked : Linked db host recs L) (hheaded : Headed recs L)
    (hplaces : L.places.length = recs.length) (hk : L.file[k]? = some e)
    (he : cseIsSubpath e.flags = true)
    (hne : k ≠ 0) : ∃ p, HeadAt recs L p k := by
  obtain ⟨p, hp, hfirst⟩ := hheaded.head k e hk he hne
  obtain ⟨m, -, hentered, hlt, hno⟩ := hlinked.dir (firstEntry recs p) (firstEntry_lt hp)
  rw [hfirst] at hlt hno
  -- Between the record of its directory and an entry there is no other one.
  have hparent : cseIsParent e.flags = true := by
    rw [cseIsParent, he]
    rfl
  obtain rfl : m = k := by
    by_contra hmk
    have hfalse := hno k (by omega) (Nat.le_succ k) e hk
    rw [hparent] at hfalse
    exact absurd hfalse.symm Bool.false_ne_true
  rw [parentIdx_firstEntry hp] at hentered
  obtain ⟨hroot, -⟩ | ⟨i, hi, hlt', -, -, hfile⟩ := hentered
  · omega
  · obtain rfl : p = i := by omega
    exact ⟨p, hp, hplaces ▸ hlt', hfirst, hfile⟩

theorem exists_headAt (hlinked : Linked db host recs L) (hheaded : Headed recs L)
    (hplaces : L.places.length = recs.length) {p : ℕ} (hp : HasEntries recs p) : ∃ k,
      HeadAt recs L p k := by
  obtain ⟨m, -, hentered, -, -⟩ := hlinked.dir (firstEntry recs p) (firstEntry_lt hp)
  rw [parentIdx_firstEntry hp] at hentered
  obtain ⟨hroot, -⟩ | ⟨i, hi, hlt, -, h2, hfile⟩ := hentered
  · omega
  obtain rfl : p = i := by omega
  obtain ⟨q, hq⟩ := exists_headAt_of_subpath hlinked hheaded hplaces hfile
      (by decide : cseIsSubpath 0x04 = true) (by omega)
  obtain rfl := hq.eq_of_file hheaded (hplaces ▸ hlt) hfile
  exact ⟨m, hq⟩

/-- An entry is in a directory exactly if it leads to the record of the directory. -/
theorem mainOf_eq_iff (hlinked : Linked db host recs L) (hheaded : Headed recs L)
    (hplaces : L.places.length = recs.length) {p : ℕ} (hp : HeadAt recs L p k) {i : ℕ}
    (hi : i < recs.length) :
    L.mainOf (L.place i) = k ↔ recs[i].core.parentIdx = p := by
  obtain ⟨m, hm, hentered, -⟩ := hlinked.dir i hi
  rw [hm, Nat.cast_inj]
  constructor
  · rintro rfl
    obtain ⟨-, rfl⟩ | ⟨j, hj, hlt, -, -, hfile⟩ := hentered
    · -- The third record stands for the root.
      obtain ⟨t, ht⟩ := hlinked.head
      have hfile := hp.file
      rw [ht] at hfile
      have hname : (0x20 : ℕ) = 0x04 := congrArg SiteEntry.flags (Option.some.inj hfile)
      exact absurd hname (by decide)
    · rw [hj, hp.eq_of_file hheaded (hplaces ▸ hlt) hfile]
  · intro hparent
    rw [hparent] at hentered
    obtain ⟨hroot, -⟩ | ⟨j, hj, hlt, -, h2, hfile⟩ := hentered
    · omega
    obtain rfl : p = j := by omega
    obtain ⟨q, hq⟩ := exists_headAt_of_subpath hlinked hheaded hplaces hfile
        (by decide : cseIsSubpath 0x04 = true) (by omega)
    obtain rfl := hq.eq_of_file hheaded (hplaces ▸ hlt) hfile
    exact hq.unique hp

/-! ### The loops -/

variable {search : List UInt8 → Option ℤ} {d : List UInt8} {start : ℤ} {parentCount : Option ℕ}

/-- Which records fit. -/
theorem subpathFits_iff (hlinked : Linked db host recs L) (hheaded : Headed recs L)
    (hplaces : L.places.length = recs.length) (hsearch : SearchFaithful db search recs)
    (hd : search d = some start)
    (hk : L.file[k]? = some e) :
    subpathFits L.file start parentCount e = true ↔
      ∃ (p : ℕ) (hp : HeadAt recs L p k), (getElem recs p hp.lt).name = d ∧ ∀ n ∈ parentCount,
        L.mainOf (L.place p) = n := by
  constructor
  · intro hfits
    simp only [subpathFits, Bool.and_eq_true] at hfits
    obtain ⟨hsub, hfits⟩ := hfits
    have hne : k ≠ 0 := by
      rintro rfl
      obtain ⟨t, ht⟩ := hlinked.head
      rw [ht] at hk
      obtain rfl := Option.some.inj hk
      simp [subpathRec, SiteCore.strt2] at hfits
    obtain ⟨p, hp⟩ := exists_headAt_of_subpath hlinked hheaded hplaces hk hsub hne
    obtain rfl := Option.some.inj (hk.symm.trans hp.file)
    simp only [subpathRec, SiteCore.strt2, fileAt_of_getElem? (hlinked.entry p hp.lt),
      Option.any_some, entryOf,
      Bool.and_eq_true, beq_iff_eq] at hfits
    obtain ⟨⟨-, hstart⟩, hparent⟩ := hfits
    refine ⟨p, hp, hsearch.only d start hd _ (List.getElem_mem _) hstart, ?_⟩
    rintro n rfl
    exact (of_decide_eq_true hparent).symm
  · rintro ⟨p, hp, rfl, hparent⟩
    obtain rfl := Option.some.inj (hk.symm.trans hp.file)
    have hstart : db.appendKey (getElem recs p hp.lt).name = start :=
      Option.some.inj ((hsearch.found _ (List.getElem_mem _)).symm.trans hd)
    obtain ⟨m, -, -, hlt, -⟩ := hlinked.dir p hp.lt
    have hle : L.place p < L.file.length := (List.getElem?_eq_some_iff.mp (hlinked.entry p hp.lt)).1
    simp only [subpathFits, subpathRec, SiteCore.strt2, fileAt_of_getElem? (hlinked.entry p hp.lt),
      Option.any_some,
      entryOf, Bool.and_eq_true, beq_iff_eq, decide_eq_true_iff]
    refine ⟨by decide, ⟨⟨by omega, by omega⟩, hstart⟩, ?_⟩
    cases parentCount with
    | none => rfl
    | some n => simpa using (hparent n rfl).symm

variable {file : List SiteEntry} {fuel pos count : ℕ}

/-- The loop stops at the first record that fits; the counter has gone as far. -/
theorem hostDirScan_some (hpos : pos ≤ k) (hk : file[k]? = some e)
    (hfits : subpathFits file start parentCount e = true)
    (hbefore : ∀ j, pos ≤ j → j < k → ∀ e', file[j]? = some e' →
      subpathFits file start parentCount e' = false)
    (hfuel : k - pos < fuel) :
    hostDirScan file start parentCount fuel pos count = some (k, count + (k - pos)) := by
  induction fuel generalizing pos count with
  | zero => omega
  | succ fuel ih =>
    obtain rfl | hlt := Nat.eq_or_lt_of_le hpos
    · simp only [hostDirScan, hk, hfits, if_true, Nat.sub_self, Nat.add_zero]
    · have hlen : pos < file.length := hlt.trans (List.getElem?_eq_some_iff.mp hk).1
      have hno := hbefore pos le_rfl hlt _ (List.getElem?_eq_getElem hlen)
      simp only [hostDirScan, List.getElem?_eq_getElem hlen, hno, Bool.false_eq_true, if_false]
      rw [ih hlt (fun j hj => hbefore j (by omega)) (by omega)]
      congr 2
      omega

theorem hostDirScan_none
    (h : ∀ j, pos ≤ j → ∀ e', file[j]? = some e' → subpathFits file start parentCount e' = false) :
    hostDirScan file start parentCount fuel pos count = none := by
  induction fuel generalizing pos count with
  | zero => rfl
  | succ fuel ih =>
    cases hpos : file[pos]? with
    | none => simp only [hostDirScan, hpos]
    | some e =>
      simp only [hostDirScan, hpos, h pos le_rfl e hpos, Bool.false_eq_true, if_false]
      exact ih fun j hj => h j (by omega)

theorem PathTo.hasEntries {dirs : List (List UInt8)} {p q : ℤ} (h : PathTo recs p dirs q)
    (hq : HasEntries recs q) :
    HasEntries recs p := by
  cases dirs with
  | nil =>
    obtain rfl : p = q := h
    exact hq
  | cons d dirs =>
    obtain ⟨i, hi, hp, -⟩ := h
    exact ⟨recs[i], List.getElem_mem hi, hp⟩

section

variable {dirs : List (List UInt8)} {p m : ℕ} {x : Option ℕ}

theorem kind_flags {flags : ℕ} (h : flags < 4) :
    (cseIsFile flags || cseIsDir flags || cseIsDoc flags || cseIsLink flags) = true := by
  rw [← (plain_flags h).2]
  ac_rfl

/-- One component: the record is found, and behind it are entries. -/
theorem hostDirWalk_hit (hwf : WellFormed recs) (hlinked : Linked db host recs L)
    (hheaded : Headed recs L)
    (hplaces : L.places.length = recs.length) (hsearch : SearchFaithful db search recs)
    (hp : HeadAt recs L p k)
    (hd : (getElem recs p hp.lt).name = d) (hpos : pos ≤ k)
    (hparent : ∀ n ∈ parentCount, L.mainOf (L.place p) = n)
    (hbefore : ∀ j, pos ≤ j → j < k → ∀ q (hq : HeadAt recs L q j),
      (getElem recs q hq.lt).name = d →
      ¬∀ n ∈ parentCount, L.mainOf (L.place q) = n) :
    hostDirWalk search L.file (d :: dirs) pos pos parentCount x =
      hostDirWalk search L.file dirs (k + 1) (k + 1) (some k) (some k) := by
  have hstart : search d = some (db.appendKey d) := by
    rw [← hd]
    exact hsearch.found _ (List.getElem_mem _)
  have hscan : hostDirScan L.file (db.appendKey d) parentCount (L.file.length + 1) pos pos = some
      (k, k) := by
    have hlt := (List.getElem?_eq_some_iff.mp hp.file).1
    rw [hostDirScan_some hpos hp.file
      ((subpathFits_iff hlinked hheaded hplaces hsearch hstart hp.file).mpr ⟨p, hp, hd, hparent⟩) ?_
        (by omega)]
    · congr 2
      omega
    · intro j hj hjk e' he'
      rw [← Bool.not_eq_true, subpathFits_iff hlinked hheaded hplaces hsearch hstart he']
      rintro ⟨q, hq, hqd, hqparent⟩
      exact hbefore j hj hjk q hq hqd hqparent
  have hchild := hlinked.entry (firstEntry recs p) (firstEntry_lt hp.entries)
  rw [hp.first] at hchild
  have hkind := kind_flags (hwf.plain _ (List.getElem_mem (firstEntry_lt hp.entries)))
  simp only [hostDirWalk, hstart, hscan, hchild, entryOf, hkind, if_true]

/-- One component: there is no such record. -/
theorem hostDirWalk_miss (hlinked : Linked db host recs L) (hheaded : Headed recs L)
    (hplaces : L.places.length = recs.length) (hsearch : SearchFaithful db search recs)
    (hnone : ∀ j, pos ≤ j → ∀ q (hq : HeadAt recs L q j), (getElem recs q hq.lt).name = d →
      ¬∀ n ∈ parentCount, L.mainOf (L.place q) = n) :
    hostDirWalk search L.file (d :: dirs) pos count parentCount x = .notFound := by
  cases hstart : search d with
  | none => simp only [hostDirWalk, hstart]
  | some start =>
    have hscan : hostDirScan L.file start parentCount (L.file.length + 1) pos count = none := by
      refine hostDirScan_none fun j hj e' he' => ?_
      rw [← Bool.not_eq_true, subpathFits_iff hlinked hheaded hplaces hsearch hstart he']
      rintro ⟨q, hq, hqd, hqparent⟩
      exact hnone j hj q hq hqd hqparent
    simp only [hostDirWalk, hstart, hscan]

/-- The loops from a directory on: they come to the directory that the rest of the path leads to, if
it has entries. -/
theorem hostDirWalk_spec (hwf : WellFormed recs) (hdistinct : SiblingsDistinct recs)
    (hlinked : Linked db host recs L)
    (hheaded : Headed recs L) (hplaces : L.places.length = recs.length)
    (hsearch : SearchFaithful db search recs)
    (hm : HeadAt recs L p m) :
    (∃ q m', PathTo recs p dirs (q : ℕ) ∧ HeadAt recs L q m' ∧
      hostDirWalk search L.file dirs (m + 1) (m + 1) (some m) (some m) = .first (m' + 1)
        (some m')) ∨
    ((∀ q, PathTo recs p dirs q → ¬HasEntries recs q) ∧
      hostDirWalk search L.file dirs (m + 1) (m + 1) (some m) (some m) = .notFound) := by
  induction dirs generalizing p m with
  | nil => exact .inl ⟨p, m, rfl, hm, rfl⟩
  | cons d dirs ih =>
    by_cases hnext : ∃ (i : ℕ) (hi : i < recs.length), recs[i].core.parentIdx = p ∧
      recs[i].name = d ∧ HasEntries recs i
    · obtain ⟨i, hi, hparent, hname, hentries⟩ := hnext
      obtain ⟨k, hk⟩ := exists_headAt hlinked hheaded hplaces hentries
      have hmain : L.mainOf (L.place i) = m :=
        (mainOf_eq_iff hlinked hheaded hplaces hm hi).mpr hparent
      -- The record points back to the entry of its directory, and this to the directory above.
      have hmk : m < k := by
        obtain ⟨m', hm', -, hlt, -⟩ := hlinked.dir i hi
        obtain ⟨s2, hs2, -, hlt'⟩ := hlinked.link k _ hk.file (by decide : cseIsParent 0x04 = true)
        have hplace : (L.place i : ℤ) = s2 := SiteCore.prntEntry.inj hs2
        omega
      have hwalk : hostDirWalk search L.file (d :: dirs) (m + 1) (m + 1) (some m) (some m) =
          hostDirWalk search L.file dirs (k + 1) (k + 1) (some k) (some k) := by
        refine hostDirWalk_hit hwf hlinked hheaded hplaces hsearch hk hname hmk ?_ ?_
        · intro n hn
          obtain rfl : m = n := Option.some.inj hn
          exact hmain
        · intro j hj hjk q hq hqd hqparent
          have hqp := (mainOf_eq_iff hlinked hheaded hplaces hm hq.lt).mp (hqparent m rfl)
          obtain rfl := hdistinct q i hq.lt hi (hqp.trans hparent.symm) (hqd.trans hname.symm)
          exact absurd (hq.unique hk) hjk.ne
      rw [hwalk]
      obtain ⟨q, m', hpath, hq, hfirst⟩ | ⟨hnone, hnot⟩ := ih hk
      · exact .inl ⟨q, m', ⟨i, hi, hparent, hname, hpath⟩, hq, hfirst⟩
      · refine .inr ⟨?_, hnot⟩
        rintro q ⟨i', hi', hparent', hname', hpath⟩
        obtain rfl := hdistinct i' i hi' hi (hparent'.trans hparent.symm) (hname'.trans hname.symm)
        exact hnone q hpath
    · refine .inr ⟨?_, hostDirWalk_miss hlinked hheaded hplaces hsearch ?_⟩
      · rintro q ⟨i, hi, hparent, hname, hpath⟩ hq
        exact hnext ⟨i, hi, hparent, hname, hpath.hasEntries hq⟩
      · intro j _ q hq hqd hqparent
        have hqp := (mainOf_eq_iff hlinked hheaded hplaces hm hq.lt).mp (hqparent m rfl)
        exact hnext ⟨q, hq.lt, hqp, hqd, hq.entries⟩

/-- The first component leads to the first directory of the name. -/
theorem hostDirWalk_first (hwf : WellFormed recs) (hlinked : Linked db host recs L)
    (hheaded : Headed recs L)
    (hplaces : L.places.length = recs.length) (hsearch : SearchFaithful db search recs) :
    (∃ i k, FirstListed recs d i ∧ HeadAt recs L i k ∧
      hostDirWalk search L.file (d :: dirs) 0 0 none x =
      hostDirWalk search L.file dirs (k + 1) (k + 1) (some k) (some k)) ∨
    ((∀ i, ¬FirstListed recs d i) ∧
      (∀ (i : ℕ) (hi : i < recs.length), recs[i].name = d → ¬HasEntries recs i) ∧
      hostDirWalk search L.file (d :: dirs) 0 0 none x = .notFound) := by
  classical
  by_cases hsome : ∃ n i, (∃ hi : i < recs.length, recs[i].name = d) ∧ HasEntries recs i ∧
    firstEntry recs i = n
  · obtain ⟨i, ⟨hi, hname⟩, hentries, hfirst⟩ := Nat.find_spec hsome
    have hmin : FirstListed recs d i := by
      refine ⟨⟨hi, hname⟩, hentries, fun j hj hjname hjentries => ?_⟩
      rw [hfirst]
      exact Nat.find_min' hsome ⟨j, ⟨hj, hjname⟩, hjentries, rfl⟩
    obtain ⟨k, hk⟩ := exists_headAt hlinked hheaded hplaces hentries
    refine .inl ⟨i, k, hmin, hk,
      hostDirWalk_hit hwf hlinked hheaded hplaces hsearch hk hname (Nat.zero_le k) ?_ ?_⟩
    · rintro n ⟨⟩
    · intro j _ hjk q hq hqd
      -- An earlier record would be that of a directory whose entries come earlier.
      have hle := hmin.2.2 q hq.lt hqd hq.entries
      have hplace : L.place (firstEntry recs q) < L.place (firstEntry recs i) := by
        rw [hq.first, hk.first]
        omega
      obtain hlt | heq := hle.lt_or_eq
      · exact absurd hplace (hheaded.mono _ _ hlt (firstEntry_lt hq.entries)).not_gt
      · rw [heq] at hplace
        exact absurd hplace (lt_irrefl _)
  · have hno : ∀ (i : ℕ) (hi : i < recs.length), recs[i].name = d → ¬HasEntries recs i :=
      fun i hi hname hentries => hsome ⟨_, i, ⟨hi, hname⟩, hentries, rfl⟩
    refine .inr ⟨fun i hi => ?_, hno, hostDirWalk_miss hlinked hheaded hplaces hsearch ?_⟩
    · obtain ⟨⟨hlt, hname⟩, hentries, -⟩ := hi
      exact hno i hlt hname hentries
    · intro j _ q hq hqd _
      exact hno q hq.lt hqd hq.entries

end

/-! ### The links -/

/-- The loop up from an entry gives the names of its directories, and at last that of the site. -/
theorem ancestorsLoop_spec (hwf : WellFormed recs) (hlinked : Linked db host recs L)
    (hplaces : L.places.length = recs.length) (hhost : db.Faithful host)
    (hnames : ∀ r ∈ recs, db.Faithful r.name)
    {i m : ℕ} (hi : i < recs.length) (hm : EnteredAt L recs[i].core.parentIdx m)
    (hfile : L.file[m]? = some e)
    (hfuel : i + 2 ≤ fuel) (pathname : List (List UInt8)) :
    ancestorsLoop db L.file fuel (entryOf db recs[i]) e pathname =
      if pathname.length + (namesUp host recs i).length < maxPcomps
        then some (pathname ++ namesUp host recs i)
      else none := by
  induction i using Nat.strong_induction_on generalizing m e fuel pathname with
  | _ i ih =>
    obtain ⟨fuel, rfl⟩ : ∃ f, fuel = f + 1 := ⟨fuel - 1, by omega⟩
    obtain ⟨hnonneg, hstring⟩ := hnames _ (List.getElem_mem hi)
    obtain ⟨t, ht⟩ := hlinked.head
    have hup := @namesUp_entry host recs hwf i hi
    have hone : 1 ≤ (namesUp host recs recs[i].core.parentIdx).length := by
      obtain ⟨names, hcons⟩ := @namesUp_eq_cons host recs hwf recs[i].core.parentIdx
        ((hwf.parent i hi).imp_right fun ⟨j, hj, hp, _⟩ => ⟨j, by omega, hp⟩)
      rw [hcons, List.length_cons]
      omega
    rw [ancestorsLoop, entryOf]
    simp only [hstring]
    rw [hup, List.length_cons, List.length_append, List.length_singleton]
    by_cases hroom : maxPcomps ≤ pathname.length + 1
    · rw [if_pos hroom, if_neg (by omega)]
    rw [if_neg hroom, if_pos hnonneg]
    obtain ⟨hroot, rfl⟩ | ⟨j, hj, hjlt, -, -, hjfile⟩ := hm
    · -- The name of the site is found at the record for it.
      have he : e = ⟨0x20, 0, .prntEntry 1⟩ := by
        rw [ht] at hfile
        exact (Option.some.inj hfile).symm
      have hone : fileAt L.file 1 = some
          ⟨0x01, db.appendKey host, .entry 0 0 0 0⟩ := by rw [ht]; rfl
      have hzero : fileAt L.file 0 = some (subpathRec (-1) (-1)) := by rw [ht]; rfl
      obtain ⟨fuel, rfl⟩ : ∃ f, fuel = f + 1 := ⟨fuel - 1, by omega⟩
      rw [hroot, namesUp, if_pos rfl, he]
      simp only [SiteCore.strt2, Option.bind_eq_bind, Option.bind_some, hone, hzero, zero_le_one,
        le_refl, if_true,
        ancestorsLoop, hhost.2, hhost.1, List.length_append, List.length_singleton, subpathRec]
      have hneg : ¬(0 : ℤ) ≤ -1 := by decide
      rw [if_neg hneg]
      by_cases hroom' : maxPcomps ≤ pathname.length + 1 + 1
      · rw [if_pos hroom', if_neg (by omega)]
      · rw [if_neg hroom', if_pos (by omega), List.append_assoc]
        rfl
    · have hj' : j < recs.length := hplaces ▸ hjlt
      obtain ⟨m', hm', hentered, hlt, -⟩ := hlinked.dir j hj'
      have hlen : m' < L.file.length :=
        hlt.trans (List.getElem?_eq_some_iff.mp (hlinked.entry j hj')).1
      obtain rfl := Option.some.inj (hfile.symm.trans hjfile)
      obtain ⟨j', hj'lt, hparent, -⟩ := (hwf.parent i hi).resolve_left (by omega)
      obtain rfl : j = j' := by omega
      have hrest := ih j hj'lt hj' hentered (List.getElem?_eq_getElem hlen)
          (by omega : j + 2 ≤ fuel)
        (pathname ++ [recs[i].name])
      simp only [subpathRec, SiteCore.strt2, Option.bind_eq_bind, Option.bind_some,
        Int.natCast_nonneg, if_true, hm',
        fileAt_of_getElem? (hlinked.entry j hj'),
          fileAt_of_getElem? (List.getElem?_eq_getElem hlen)]
      rw [hrest, hj, List.length_append, List.length_singleton, List.append_assoc,
        List.singleton_append]
      have hsum : pathname.length + 1 + (namesUp host recs (j : ℤ)).length =
          pathname.length + ((namesUp host recs (j : ℤ)).length + 1) := by omega
      rw [hsum]

/-- The names of the directory of a record. -/
theorem newFindAncestors_spec (hwf : WellFormed recs) (hlinked : Linked db host recs L)
    (hplaces : L.places.length = recs.length) (hhost : db.Faithful host)
    (hnames : ∀ r ∈ recs, db.Faithful r.name)
    (hlength : recs.length ≤ L.file.length) {p : ℕ} (hp : HeadAt recs L p k) :
    newFindAncestors db L.file (subpathRec (L.mainOf (L.place p)) (L.place p)) =
      if (namesUp host recs p).length < maxPcomps then some (namesUp host recs p) else none := by
  obtain ⟨m, hm, hentered, hlt, -⟩ := hlinked.dir p hp.lt
  have hlen : m < L.file.length :=
    hlt.trans (List.getElem?_eq_some_iff.mp (hlinked.entry p hp.lt)).1
  have hloop := @ancestorsLoop_spec recs db L host _
      (L.file.length + 1) hwf hlinked hplaces hhost hnames p m hp.lt
    hentered (List.getElem?_eq_getElem hlen) (by have := hp.lt; omega) []
  rw [List.length_nil, Nat.zero_add, List.nil_append] at hloop
  simp only [newFindAncestors, subpathRec, SiteCore.strt2, Option.bind_eq_bind, Option.bind_some,
    Int.natCast_nonneg,
    if_true, hm, fileAt_of_getElem? (hlinked.entry p hp.lt),
      fileAt_of_getElem? (List.getElem?_eq_getElem hlen), hloop]

/-- The names on the way to a directory. -/
theorem PathTo.namesUp_eq (hwf : WellFormed recs) {dirs : List (List UInt8)} {p q : ℤ}
    (h : PathTo recs p dirs q) :
    namesUp host recs q = dirs.reverse ++ namesUp host recs p := by
  induction dirs generalizing p with
  | nil =>
    obtain rfl : p = q := h
    rfl
  | cons d dirs ih =>
    obtain ⟨i, hi, hp, hname, hpath⟩ := h
    rw [ih hpath, namesUp_entry hwf hi, hp, hname, List.reverse_cons, List.append_assoc,
      List.singleton_append]

theorem slashPath_append (xs ys : List (List UInt8)) :
    slashPath (xs ++ ys) = slashPath xs ++ slashPath ys :=
  List.flatMap_append

/-- The first of the links of a directory. -/
theorem hostLinks_first (hwf : WellFormed recs) (hlinked : Linked db host recs L)
    (hplaces : L.places.length = recs.length) (hhost : db.Faithful host)
    (hnames : ∀ r ∈ recs, db.Faithful r.name)
    (hlength : recs.length ≤ L.file.length) {p : ℕ} (hp : HeadAt recs L p k)
    {siteName hostwport : List UInt8}
    {links : List HostLink}
    (hlinks : hostLinks db L.file siteName hostwport (some k) (L.file.drop (k + 1)) = some links) :
    ∃ name rest, links = { name, target := bytes "EXTERNAL", host := siteName
                           hsoname := slashPath (namesUp host recs p).reverse ++ 47 :: name } :: rest := by
  have hentry := hlinked.entry (firstEntry recs p) (firstEntry_lt hp.entries)
  rw [hp.first] at hentry
  have hmem := List.getElem_mem (firstEntry_lt hp.entries)
  have hflags := hwf.plain _ hmem
  have hdrop : L.file.drop (k + 1) = entryOf db
      (getElem recs (firstEntry recs p) (firstEntry_lt hp.entries)) ::
      L.file.drop (k + 1 + 1) := by
    obtain ⟨hlt, hget⟩ := List.getElem?_eq_some_iff.mp hentry
    rw [List.drop_eq_getElem_cons hlt, hget]
  rw [hdrop, hostLinks,
    if_neg (by rw [entryOf, (plain_flags hflags).1]; exact Bool.false_ne_true)] at hlinks
  obtain ⟨link, hlink, hlinks⟩ := Option.bind_eq_some_iff.mp hlinks
  obtain ⟨rest, -, hlinks⟩ := Option.bind_eq_some_iff.mp hlinks
  obtain rfl := Option.some.inj hlinks
  refine ⟨(getElem recs (firstEntry recs p) (firstEntry_lt hp.entries)).name, rest,
    congrArg (· :: rest) ?_⟩
  simp only [hostLink, entryOf, (hnames _ hmem).2, hp.file, Option.bind_eq_bind, Option.bind_some,
    newFindAncestors_spec hwf hlinked hplaces hhost hnames hlength hp] at hlink
  split at hlink
  next =>
    rw [Option.bind_some] at hlink
    split at hlink
    next => exact absurd hlink (Option.some_ne_none _).symm
    next =>
      have hsub : cseIsSubpath
          (getElem recs (firstEntry recs p) (firstEntry_lt hp.entries)).core.flags = false :=
        @subpath_entryOf _ db hflags
      simp only [hsub, Bool.false_eq_true, if_false] at hlink
      exact (Option.some.inj hlink).symm
  next => exact absurd hlink (Option.some_ne_none _).symm

/-- What the listing of a directory that is found is not. -/
theorem not_right_of_found (hwf : WellFormed recs) (hlinked : Linked db host recs L)
    (hplaces : L.places.length = recs.length) (hhost : db.Faithful host)
    (hnames : ∀ r ∈ recs, db.Faithful r.name)
    (hlength : recs.length ≤ L.file.length) {p : ℕ} (hp : HeadAt recs L p k)
    {siteName hostwport : List UInt8}
    {dirs up : List (List UInt8)} (hup : up ≠ [])
    (hpath : namesUp host recs p = dirs.reverse ++ up) :
    ¬HostDirRight recs siteName hostwport dirs
      ((hostLinks db L.file siteName hostwport (some k) (L.file.drop (k + 1))).map some) := by
  intro hright
  by_cases htree : ∃ q, PathTo recs (-1) dirs q ∧ HasEntries recs q
  · obtain ⟨q, hq, hentries⟩ := htree
    obtain ⟨links, hlinks, hsome⟩ := Option.map_eq_some_iff.mp (hright.listed q hq hentries)
    obtain ⟨name, rest, hfirst⟩ :=
      hostLinks_first hwf hlinked hplaces hhost hnames hlength hp hlinks
    obtain ⟨r, hr, hrq⟩ := hentries
    obtain ⟨c, cs, hcs⟩ : ∃ c cs, entriesOf recs q = c :: cs := by
      refine List.exists_cons_of_ne_nil (List.ne_nil_of_mem (a := r) ?_)
      exact List.mem_filter.mpr ⟨hr, decide_eq_true hrq⟩
    have hlink : (hostLinkFor siteName hostwport dirs c) = { name, target := bytes "EXTERNAL", host := siteName
                                                             hsoname := slashPath (namesUp host recs p).reverse ++ 47 :: name } := by
      have heq := Option.some.inj hsome
      rw [hfirst, hcs, List.map_cons] at heq
      exact (List.cons.inj heq).1.symm
    rw [hostLinkFor] at hlink
    split at hlink
    next =>
      have htarget : bytes "DIRECTORY" = bytes "EXTERNAL" := congrArg HostLink.target hlink
      exact absurd htarget (by decide +kernel)
    next =>
      -- The path has the name of the site before the names of the directories.
      have hname : c.name = name := congrArg HostLink.name hlink
      have hsoname := congrArg (List.length ∘ HostLink.hsoname) hlink
      simp only [Function.comp_apply, hpath, hname, List.reverse_append, List.reverse_reverse,
        slashPath_append,
        List.length_append, List.length_cons] at hsoname
      have hpos : 0 < (slashPath up.reverse).length := by
        obtain ⟨x, xs, hx⟩ := List.exists_cons_of_ne_nil (List.reverse_ne_nil_iff.mpr hup)
        rw [hx, slashPath, List.flatMap_cons]
        simp
      omega
  · have hmissing := hright.missing fun q hq hentries => htree ⟨q, hq, hentries⟩
    obtain ⟨links, -, hsome⟩ := Option.map_eq_some_iff.mp hmissing
    exact absurd hsome (Option.some_ne_none links)

/-! ### The path -/

/-- A path is taken apart into its names. -/
theorem strSepFields_joinPath {dirs : List (List UInt8)} (hdirs : ∀ d ∈ dirs, d ≠ [] ∧ 47 ∉ d) :
    strSepFields 47 [] (joinPath dirs) = dirs := by
  induction dirs with
  | nil => rfl
  | cons d dirs ih =>
    obtain ⟨hne, hd⟩ := hdirs d List.mem_cons_self
    cases dirs with
    | nil =>
      have hfields := strSepFields_append hd [] []
      rw [List.append_nil, List.nil_append] at hfields
      rw [joinPath, hfields, strSepFields, if_neg hne]
    | cons d' dirs =>
      rw [joinPath, strSepFields_append hd, List.nil_append, strSepFields, if_pos rfl,
        ih fun x hx => hdirs x (List.mem_cons_of_mem d hx)]

theorem takeWhile_joinPath {dirs : List (List UInt8)} (hdirs : ∀ d ∈ dirs, d ≠ [] ∧ 47 ∉ d) :
    (strSepFields 47 [] (joinPath dirs)).takeWhile (· ≠ []) = dirs := by
  rw [strSepFields_joinPath hdirs, List.takeWhile_eq_self_iff]
  intro d hd
  exact decide_eq_true (hdirs d hd).1

theorem hostDirBasepath_eq {dirs : List (List UInt8)} (hdirs : ∀ d ∈ dirs, d ≠ [] ∧ 47 ∉ d)
    {dirname : List UInt8}
    (h : dirname = joinPath dirs ∨ dirname = 47 :: joinPath dirs) :
    hostDirBasepath dirname = joinPath dirs := by
  obtain rfl | rfl := h
  · cases dirs with
    | nil => rfl
    | cons d dirs =>
      obtain ⟨hne, hd⟩ := hdirs d List.mem_cons_self
      obtain ⟨c, d', rfl⟩ := List.exists_cons_of_ne_nil hne
      have hc : c ≠ 47 := fun h => hd (h ▸ List.mem_cons_self)
      obtain ⟨s, hs⟩ : ∃ s, joinPath ((c :: d') :: dirs) = c :: s := by
        cases dirs with
        | nil => exact ⟨d', rfl⟩
        | cons d'' dirs => exact ⟨_, rfl⟩
      rw [hs, hostDirBasepath]
      rintro rest heq
      exact hc (List.cons.inj heq).1
  · rfl

/-! ### The listing -/

/-- When the listing from a site file is right. -/
theorem parchieHostDir_layout (hwf : WellFormed recs) (hdistinct : SiblingsDistinct recs)
    (hlinked : Linked db host recs L) (hheaded : Headed recs L)
    (hplaces : L.places.length = recs.length)
    (hlength : recs.length ≤ L.file.length) (hhost : db.Faithful host)
    (hnames : ∀ r ∈ recs, db.Faithful r.name)
    (hsearch : SearchFaithful db search recs) (siteName hostwport : List UInt8)
    {dirs : List (List UInt8)}
    (hdirs : ∀ d ∈ dirs, d ≠ [] ∧ 47 ∉ d) (hne : dirs ≠ []) {dirname : List UInt8}
    (hdirname : dirname = joinPath dirs ∨ dirname = 47 :: joinPath dirs) :
    HostDirRight recs siteName hostwport dirs
      (parchieHostDir db search L.file siteName hostwport dirname) ↔
      (joinPath dirs).length < maxPathLen ∧ LeadsNowhere recs dirs := by
  rw [parchieHostDir, hostDirBasepath_eq hdirs hdirname]
  by_cases hlong : maxPathLen ≤ (joinPath dirs).length
  · simp only [hlong, if_true]
    refine iff_of_false (fun hright => ?_) fun h => absurd h.1 hlong.not_gt
    by_cases htree : ∃ q, PathTo recs (-1) dirs q ∧ HasEntries recs q
    · obtain ⟨q, hq, hentries⟩ := htree
      exact absurd (hright.listed q hq hentries).symm (Option.some_ne_none _)
    · exact absurd (hright.missing fun q hq hentries => htree ⟨q, hq, hentries⟩).symm
        (Option.some_ne_none _)
  simp only [hlong, if_false]
  rw [takeWhile_joinPath hdirs, and_iff_right (not_le.mp hlong)]
  obtain ⟨d, dirs, rfl⟩ := List.exists_cons_of_ne_nil hne
  -- What is found is never right; so nothing may be found, and nothing may be there.
  have hmissing : HostDirRight recs siteName hostwport (d :: dirs) (some none) ↔
      ∀ q, PathTo recs (-1) (d :: dirs) q → ¬HasEntries recs q := by
    constructor
    · intro hright q hq hentries
      exact absurd (hright.listed q hq hentries) (by simp)
    · intro hnone
      exact ⟨fun q hq hentries => absurd hentries (hnone q hq), fun _ => rfl⟩
  obtain ⟨i, k, hfirst, hk, hwalk⟩ | ⟨hnofirst, hno, hwalk⟩ :=
    @hostDirWalk_first recs db L host search d dirs none hwf hlinked hheaded hplaces hsearch
  · rw [hwalk]
    obtain ⟨q, m, hpath, hq, hat⟩ | ⟨hnone, hat⟩ :=
      @hostDirWalk_spec recs db L host search dirs i k hwf hdistinct hlinked hheaded hplaces hsearch hk
    · have hlt : m + 1 < L.file.length := by
        have hentry := hlinked.entry (firstEntry recs q) (firstEntry_lt hq.entries)
        rw [hq.first] at hentry
        exact (List.getElem?_eq_some_iff.mp hentry).1
      simp only [hat, if_neg hlt.not_ge]
      refine iff_of_false ?_ fun h => h.first d dirs rfl i hfirst q hpath hq.entries
      obtain ⟨⟨hi, hname⟩, -⟩ := hfirst
      have hfull : PathTo recs recs[i].core.parentIdx (d :: dirs) q := ⟨i, hi, rfl, hname, hpath⟩
      obtain ⟨names, hcons⟩ := @namesUp_eq_cons host recs hwf recs[i].core.parentIdx
        ((hwf.parent i hi).imp_right fun ⟨j, hj, hp, _⟩ => ⟨j, by omega, hp⟩)
      have hup : namesUp host recs recs[i].core.parentIdx ≠ [] := by
        rw [hcons]
        exact List.cons_ne_nil _ _
      exact not_right_of_found hwf hlinked hplaces hhost hnames hlength hq hup
        (hfull.namesUp_eq hwf)
    · simp only [hat]
      rw [hmissing]
      refine ⟨fun hroot => ⟨hroot, ?_⟩, fun h => h.root⟩
      rintro d' rest heq i' hi' q hpath
      obtain ⟨rfl, rfl⟩ := List.cons.inj heq
      obtain rfl := hfirst.unique hi'
      exact hnone q hpath
  · rw [hwalk]
    simp only
    rw [hmissing]
    refine ⟨fun hroot => ⟨hroot, ?_⟩, fun h => h.root⟩
    rintro d' rest heq i hi
    obtain ⟨rfl, rfl⟩ := List.cons.inj heq
    exact absurd hi (hnofirst i)

end

/-- **Listing a directory of a site.**  From the site file that `setup_insert` makes of a tree,
`parchie_host_dir` gives what it should for a path exactly if the path fits in its buffer and leads
nowhere: the path of a link begins with the name of the site, no link is to a directory, and the first
name of the path is looked for in all directories. -/
theorem parchieHostDir_iff (hwf : WellFormed recs) (hdistinct : SiblingsDistinct recs)
    {header : Header}
    {host : List UInt8} (hheader : HeaderFor recs header host) (hhost : db.Faithful host)
    (hnames : ∀ r ∈ recs, db.Faithful r.name) {search : List UInt8 → Option ℤ}
    (hsearch : SearchFaithful db search recs)
    (unset siteName hostwport : List UInt8) {dirs : List (List UInt8)}
    (hdirs : ∀ d ∈ dirs, d ≠ [] ∧ 47 ∉ d)
    (hne : dirs ≠ []) {dirname : List UInt8}
    (hdirname : dirname = joinPath dirs ∨ dirname = 47 :: joinPath dirs) :
    ∃ out n, setupInsert db unset (countExtraRecs recs header) recs
        (List.replicate (countExtraRecs recs header).siteNoRecs zeroEntry) = some (out, n, []) ∧
      (HostDirRight recs siteName hostwport dirs
          (parchieHostDir db search (out.take n) siteName hostwport dirname) ↔
        (joinPath dirs).length < maxPathLen ∧ LeadsNowhere recs dirs) := by
  refine ⟨_, _, (setupInsert_siteFile hwf hheader unset).2, ?_⟩
  rw [List.take_left]
  by_cases hrecs : recs = []
  · -- Nothing is in the file of an empty tree.
    subst hrecs
    have hnoentries : ∀ q, ¬HasEntries [] q := fun q ⟨r, hr, _⟩ => List.not_mem_nil hr
    have hnowhere : LeadsNowhere [] dirs :=
      ⟨fun q _ => hnoentries q, fun _ _ _ _ _ q _ => hnoentries q⟩
    obtain ⟨d, dirs, rfl⟩ := List.exists_cons_of_ne_nil hne
    have hwalk : hostDirWalk search [] (d :: dirs) 0 0 none none = .notFound := by
      cases hd : search d <;> simp only
        [hostDirWalk, hd, hostDirScan, List.length_nil, List.getElem?_nil]
    rw [siteFile, if_pos rfl, parchieHostDir, hostDirBasepath_eq hdirs hdirname,
      and_iff_left hnowhere]
    by_cases hlong : maxPathLen ≤ (joinPath (d :: dirs)).length
    · simp only [hlong, if_true]
      refine iff_of_false (fun hright => ?_) hlong.not_gt
      exact absurd (hright.missing fun q _ => hnoentries q).symm (Option.some_ne_none _)
    · simp only [hlong, if_false]
      rw [takeWhile_joinPath hdirs, hwalk]
      exact iff_of_true ⟨fun q _ hq => absurd hq (hnoentries q), fun _ => rfl⟩ (not_le.mp hlong)
  · have hok := layoutOk_layout db host recs
    have hlinked := linked_layout db hwf host (List.append_nil recs).symm
    have hlength : recs.length ≤ (layout db host recs).file.length := by
      rw [length_file_layout db hwf host (List.append_nil recs).symm]
      omega
    rw [siteFile, if_neg hrecs]
    exact parchieHostDir_layout hwf hdistinct hlinked
      (headed_layout hwf host (List.append_nil recs).symm) hok.places
      hlength hhost hnames hsearch siteName hostwport hdirs hne hdirname

end

/-- A search that knows the names of a site. -/
def searchNames (recs : List ParserEntry) (d : List UInt8) : Option ℤ :=
  if d ∈ recs.map ParserEntry.name then some (sampleDb.appendKey d) else none

theorem searchNames_faithful {recs : List ParserEntry}
    (h : ∀ r ∈ recs, ∀ r' ∈ recs, sampleDb.appendKey r.name = sampleDb.appendKey r'.name →
      r.name = r'.name) :
    SearchFaithful sampleDb (searchNames recs) recs := by
  refine ⟨fun r hr => if_pos (List.mem_map_of_mem hr), fun d off hd r hr hoff => ?_⟩
  rw [searchNames] at hd
  split at hd
  next hmem =>
    obtain ⟨r', hr', rfl⟩ := List.mem_map.mp hmem
    exact h r hr r' hr' (hoff.trans (Option.some.inj hd).symm)
  next => exact absurd hd.symm (Option.some_ne_none off)

theorem sampleRecs_distinct : SiblingsDistinct sampleRecs := by
  have h : ∀ (i : ℕ) (hi : i < sampleRecs.length) (j : ℕ) (hj : j < sampleRecs.length),
      sampleRecs[i].core.parentIdx = sampleRecs[j].core.parentIdx →
        sampleRecs[i].name = sampleRecs[j].name → i = j := by
    decide
  exact fun i j hi hj => h i hi j hj

/-- The file `f` in the directory `d` is no directory, and in the root there is none of that name. -/
theorem parchieHostDir_sample :
    ∃ out n, setupInsert sampleDb [] (countExtraRecs sampleRecs ⟨8, 2, 0, [104], []⟩) sampleRecs
        (List.replicate (countExtraRecs sampleRecs ⟨8, 2, 0, [104], []⟩).siteNoRecs zeroEntry) =
          some (out, n, []) ∧
      HostDirRight sampleRecs [104] [112] [[102]]
        (parchieHostDir sampleDb (searchNames sampleRecs) (out.take n) [104] [112] [47, 102]) := by
  obtain ⟨out, n, hinsert, hright⟩ := @parchieHostDir_iff sampleRecs sampleDb sampleRecs_wellFormed
    sampleRecs_distinct ⟨8, 2, 0, [104], []⟩ [104] sample_headerFor
      (by simp [StringsDb.Faithful, sampleDb])
    (by simp [StringsDb.Faithful, sampleDb,
      sampleRecs]) (searchNames sampleRecs) (searchNames_faithful (by decide)) []
    [104] [112] [[102]] (by decide) (by decide) [47, 102] (.inr rfl)
  refine ⟨out, n, hinsert, hright.mpr ⟨by decide, ?_⟩⟩
  have hnone : ∀ (i : ℕ) (hi : i < sampleRecs.length), sampleRecs[i].name = [102] →
      sampleRecs[i].core.parentIdx ≠ -1 ∧ ¬HasEntries sampleRecs i := by
    unfold HasEntries
    decide
  constructor
  · rintro q ⟨i, hi, hparent, hname, -⟩
    exact absurd hparent (hnone i hi hname).1
  · rintro d rest heq i ⟨⟨hi, hname⟩, hentries, -⟩
    obtain ⟨rfl, rfl⟩ := List.cons.inj heq
    exact absurd hentries (hnone i hi hname).2

/-- Directories `a` and `b` in the root, `b` in `a`, and the files `f` in `a/b` and `g` in `b`. -/
def sampleTwice : List ParserEntry :=
  [⟨⟨0, 0, -1, 2, 0, 1, 0⟩, [97]⟩, ⟨⟨0, 0, -1, 4, 0, 1, 0⟩, [98]⟩, ⟨⟨0, 0, 0, 3, 0, 1, 0⟩, [98]⟩,
    ⟨⟨5, 0, 2, -1, 0, 0, 0⟩, [102]⟩, ⟨⟨5, 0, 1, -1, 0, 0, 0⟩, [103]⟩]

theorem sampleTwice_wellFormed : WellFormed sampleTwice where
  plain := by decide
  name := by simp [sampleTwice]
  parent := by decide
  contiguous := by
    have h : ∀ (k : ℕ) (hk : k < sampleTwice.length) (j : ℕ) (hj : j < k + 1) (i : ℕ)
        (hi : i < j + 1),
        sampleTwice[i].core.parentIdx = sampleTwice[k].core.parentIdx →
          sampleTwice[j].core.parentIdx = sampleTwice[i].core.parentIdx := by decide
    exact fun i j k hij hjk hk => h k hk j (by omega) i (by omega)

/-- In `a` no link is to the directory `b`; and the listing of `b` is that of `a/b`. -/
theorem not_parchieHostDir :
    (WellFormed sampleTwice ∧ SiblingsDistinct sampleTwice ∧
      SearchFaithful sampleDb (searchNames sampleTwice) sampleTwice ∧ ∀ r ∈ sampleTwice,
        sampleDb.Faithful r.name) ∧
    ¬HostDirRight sampleTwice [104] [112] [[97]]
      (parchieHostDir sampleDb (searchNames sampleTwice) (siteFile sampleDb [104] sampleTwice) [104]
        [112] [97]) ∧
    ¬HostDirRight sampleTwice [104] [112] [[98]]
      (parchieHostDir sampleDb (searchNames sampleTwice) (siteFile sampleDb [104] sampleTwice) [104]
        [112] [98]) := by
  have hdistinct : ∀ (i : ℕ) (hi : i < sampleTwice.length) (j : ℕ) (hj : j < sampleTwice.length),
      sampleTwice[i].core.parentIdx = sampleTwice[j].core.parentIdx →
        sampleTwice[i].name = sampleTwice[j].name → i = j := by decide
  refine ⟨⟨sampleTwice_wellFormed, fun i j hi hj => hdistinct i hi j hj,
    searchNames_faithful (by decide),
    by simp [StringsDb.Faithful, sampleDb, sampleTwice]⟩, fun hright => ?_, fun hright => ?_⟩
  · have hlisted := hright.listed 0
      ⟨0, by decide, rfl, rfl, rfl⟩ ⟨_, List.mem_of_getElem? (i := 2) rfl, rfl⟩
    revert hlisted
    decide +kernel
  · have hlisted := hright.listed 1
      ⟨1, by decide, rfl, rfl, rfl⟩ ⟨_, List.mem_of_getElem? (i := 4) rfl, rfl⟩
    revert hlisted
    decide +kernel

end Archie
