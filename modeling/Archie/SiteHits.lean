/-
The hits of a start in a site file (`archsearch/search.c`: `getResultFromStart`).

With an index the records are looked up by their `strt_1`, and the directory and
the document of each are searched for backwards; without one the site file is gone
through, and the directory and the document met last are remembered.

* `indexLoop`, `scanLoop` — the two loops.
* `handleChain_noting` — the path that is made for a hit does not depend on the
  string that the hit is noted with.
-/
import Archie.HandleChain
import Archie.SiteTuples

namespace Archie

/-! ### Results -/

/-- `excerpt_t`. -/
structure Excerpt where
  title : List UInt8
  text : List UInt8
  deriving DecidableEq, Repr

/-- `url_type_t`. -/
inductive UrlType
  | indx
  | unindx
  | notIndx
  deriving DecidableEq, Repr

/-- `query_result_t`, with the parts of `details` beside one another. -/
structure QueryResult where
  type : UrlType
  qrystr : List UInt8
  str : List UInt8
  flags : ℕ
  perms : ℕ
  size : ℕ
  date : ℕ
  weight : ℕ
  excerpt : Excerpt
  ipaddr : ℕ
  deriving DecidableEq, Repr

/-- A result that nothing was written to yet. -/
def QueryResult.blank : QueryResult := ⟨.notIndx, [], [], 0, 0, 0, 0, 0, ⟨[], []⟩, 0⟩

/-- `start_return_t`. -/
structure StartReturn where
  stop : ℤ
  string : ℤ
  siteStop : ℤ
  sitePrnt : ℤ
  siteFile : ℤ
  deriving DecidableEq, Repr

/-- What there is of a site: its database and address, its file, its index and its
excerpts, if it has any, and the record that lies behind the file in memory. -/
structure SiteData where
  web : Bool
  ip : ℕ
  port : ℤ
  file : List SiteEntry
  index? : Option (List SiteIndex)
  excerpts? : Option (List Excerpt)
  past : SiteEntry
  deriving DecidableEq, Repr

/-- The excerpts that are read: only a web site has them. -/
def SiteData.excerpts (site : SiteData) : Option (List Excerpt) :=
  if site.web then site.excerpts? else none

/-- `no_excerpts`. -/
def SiteData.noExcerpts (site : SiteData) : ℤ :=
  (site.excerpts.map fun l => (l.length : ℤ)).getD (-1)

/-- The file information of a record.  In another member of the union there is none. -/
def SiteCore.fileInfo : SiteCore → ℕ × ℕ × ℕ
  | .entry size date perms _ => (size, date, perms)
  | _ => (0, 0, 0)

/-- The excerpt of a document, where there is one. -/
def docExcerpt (site : SiteData) (ent : SiteEntry) (use : Bool) (excerpt : Excerpt) : Excerpt :=
  let perms := ent.core.fileInfo.2.2
  if use && cseIsDoc ent.flags && decide ((perms : ℤ) < site.noExcerpts) then
    (site.excerpts.bind fun l => l[perms]?).getD excerpt
  else { excerpt with text := [] }

/-- `copyDocInfo`; `handle_key_prnt_entry` writes the same fields. -/
def copyDocInfo (site : SiteData) (ent : SiteEntry) (noExc : Bool) (result : QueryResult) :
    QueryResult :=
  let (size, date, perms) := ent.core.fileInfo
  { result with
    excerpt := docExcerpt site ent (!noExc) result.excerpt
    perms := perms, size := size, date := date }

/-- `setIndexability`: by the record after this one, be it in the file or not. -/
def setIndexability (site : SiteData) (currCount : ℕ) (result : QueryResult) : QueryResult :=
  let tmp := site.file[currCount + 1]?.getD site.past
  { result with
    type := if cseIsKey tmp.flags then .indx
      else if result.size = 0 ∧ result.date = 0 then .notIndx else .unindx }

/-- The weight of a keyword. -/
def SiteCore.weight : SiteCore → ℕ
  | .kwrd weight => weight
  | _ => 0

/-- `handle_entry`. -/
def handleEntry (site : SiteData) (currEnt : SiteEntry) (result : QueryResult) : QueryResult :=
  let result := { result with flags := currEnt.flags, excerpt := ⟨[], []⟩, qrystr := [] }
  if cseIsKey currEnt.flags then { result with type := .indx, weight := currEnt.core.weight }
  else copyDocInfo site currEnt (!(site.web && decide (0 < site.noExcerpts))) result

/-- `handle_key_prnt_entry`, for a keyword of a web site. -/
def handleKeyPrntEntry (site : SiteData) (currEnt : SiteEntry) (result : QueryResult) :
    QueryResult :=
  copyDocInfo site currEnt (!site.web) result

/-- The entries of a site that are looked at: all, or those of documents. -/
def SiteData.shows (site : SiteData) (e : SiteEntry) : Bool :=
  !site.web || cseIsDoc e.flags || cseIsFile e.flags || cseIsKey e.flags

/-! ### `check_correct_path` -/

/-- The loop over the path restrictions; an entry that is empty stands for the end. -/
def pathLoop (string : List UInt8) (pathRel : ℤ) : List (List UInt8) → Bool
  | [] => pathRel == 0
  | path :: rest =>
    if path = [] then true
    else if strstr string path then
      if pathRel ≠ 0 then true else pathLoop string pathRel rest
    else if pathRel ≠ 0 then pathLoop string pathRel rest
    else false

/-- `check_correct_path`.  With a negative number of items no restriction is looked
at, and only the relation counts. -/
def checkCorrectPath (path : List (List UInt8)) (expath : Option (List UInt8))
    (pathRel pathItems : ℤ)
    (string : List UInt8) : Bool :=
  if expath.any fun expath => strstr string expath then false
  else if pathItems ≠ 0 then
    pathLoop string pathRel ((List.range pathItems.toNat).map fun i => path.getD i [])
  else true

/-! ### `getResultFromStart` -/

section

variable (db : StringsDb) (site : SiteData) (accept : List UInt8 → Bool)

/-- The bound on the rounds of `handle_chain`: each goes up in the file. -/
def SiteData.fuel (site : SiteData) : ℕ := site.file.length + 2

/-- The variables of the two loops. -/
structure HitState where
  hits : List QueryResult
  currCount : ℤ
  currFile : ℤ
  currPrnt : ℤ

/-- A result with the path that `handle_chain` makes for it. -/
def chainResult (currPrnt currStrings : ℤ) (result : QueryResult) : Option QueryResult := do
  let (qrystr, str) ← handleChain db site.file site.fuel site.web site.port result.flags result.qrystr
    currPrnt currStrings
  some { result with qrystr := qrystr, str := str }

/-- The hit of a record that was found in the index, with the record of its document
and that of its directory. -/
def indexHit (currCount : ℕ) (currEnt : SiteEntry) : Option (QueryResult × ℤ × ℤ) := do
  let result := handleEntry site currEnt .blank
  let res ← db.getString currEnt.strt1
  let result := { result with qrystr := res }
  if site.web && cseIsKey currEnt.flags then
    let currPrnt := fileFrom site.file (currCount + 1)
    let prntEnt ← fileAt site.file currPrnt
    let result ← chainResult db site currPrnt prntEnt.strt1
      (handleKeyPrntEntry site prntEnt { result with type := .indx })
    some (result, currPrnt, currPrnt)
  else
    let currPrnt := findParent site.file currCount
    let result ← chainResult db site currPrnt currEnt.strt1 (setIndexability site currCount result)
    some (result, currCount, currPrnt)

/-- The loop over the records that the index gives. -/
def indexLoop (st : ℤ) (maxHits : ℤ) : List ℕ → HitState → Option HitState
  | [], s => some s
  | currCount :: recs, s => do
    let s := { s with currCount := currCount }
    if 0 < st ∧ currCount < st then indexLoop st maxHits recs s
    else
      let currEnt ← site.file[currCount]?
      if !site.shows currEnt then indexLoop st maxHits recs s
      else
        let (result, currFile, currPrnt) ← indexHit db site currCount currEnt
        let hits := if accept result.str then s.hits ++ [{ result with ipaddr := site.ip }]
          else s.hits
        let s : HitState := ⟨hits, currCount, currFile, currPrnt⟩
        if maxHits ≤ s.hits.length then some s else indexLoop st maxHits recs s

/-- The hit of a record that the scan has come to.  The document of a keyword is the
last one, unless a directory came after it. -/
def scanHit (currCount : ℕ) (currEnt : SiteEntry) (currFile currPrnt : ℤ) : Option QueryResult := do
  let result := handleEntry site currEnt .blank
  if cseIsKey currEnt.flags then
    let result := { result with type := .indx }
    if site.web && decide (currPrnt < currFile) then
      let ent ← fileAt site.file currFile
      chainResult db site currFile ent.strt1 (copyDocInfo site ent site.excerpts.isNone result)
    else chainResult db site currPrnt currEnt.strt1 result
  else chainResult db site currPrnt currEnt.strt1 (setIndexability site currCount result)

/-- A round of the scan for a record with an offset. -/
def scanStep (start : ℤ) (currCount : ℕ) (currEnt : SiteEntry) (s : HitState) : Option HitState :=
  if cseIsParent currEnt.flags then some { s with currPrnt := currCount }
  else if site.shows currEnt then
    let s := if cseIsKey currEnt.flags then s else { s with currFile := currCount }
    if currEnt.strt1 = start then do
      let result ← scanHit db site currCount currEnt s.currFile s.currPrnt
      if accept result.str then
        let res ← db.getString start
        some { s with hits := s.hits ++ [{ result with qrystr := res, ipaddr := site.ip }] }
      else some s
    else some s
  else some s

/-- The scan of the site file from the record `currCount` on. -/
def scanLoop (start : ℤ) (maxHits : ℤ) : List SiteEntry → ℕ → HitState → Option HitState
  | [], currCount, s => some { s with currCount := currCount }
  | currEnt :: rest, currCount, s =>
    if 0 ≤ currEnt.strt1 then do
      let s ← scanStep db site accept start currCount currEnt s
      if maxHits ≤ s.hits.length then some { s with currCount := currCount }
      else scanLoop start maxHits rest (currCount + 1) s
    else scanLoop start maxHits rest (currCount + 1) s

/-- What `getResultFromStart` returns: whether it ended without an error, the hits,
and where it stopped. -/
structure StartResult where
  ok : Bool
  hits : List QueryResult
  siteRecord : StartReturn

/-- The record number in `site_record`, if it is one of the file. -/
def recordIn (act : ℕ) (k : ℤ) : ℤ := if 0 ≤ k ∧ k < act then k else 0

/-- The end of `getResultFromStart`, after one of its loops. -/
def finishResult (siteRecord : StartReturn) : Option HitState → StartResult
  | none => ⟨false, [], siteRecord⟩
  | some s =>
    let siteRecord :=
      if siteRecord.siteStop = s.currCount then { siteRecord with stop := -1 }
      else { siteRecord with siteStop := s.currCount }
    ⟨true, s.hits, { siteRecord with siteFile := s.currFile, sitePrnt := s.currPrnt }⟩

/-- `getResultFromStart`, for a site whose file can be read. -/
def getResultFromStart (start : ℤ) (siteRecord : StartReturn) (maxHits : ℤ) : StartResult :=
  let act := site.file.length
  let resumed := decide (0 ≤ siteRecord.stop ∧ 0 ≤ siteRecord.siteStop ∧ siteRecord.siteStop < act)
  let st := if resumed then siteRecord.siteStop else 0
  let s : HitState :=
    { hits := [], currCount := 0
      currFile := if resumed then recordIn act siteRecord.siteFile else 0
      currPrnt := if resumed then recordIn act siteRecord.sitePrnt else 0 }
  let traditional := scanLoop db site accept start maxHits (site.file.drop st.toNat) st.toNat s
  finishResult siteRecord <|
    match site.index?.bind fun index => searchSiteIndex index start with
    | some recs => indexLoop db site accept st maxHits recs s
    | none => traditional

/-! ### The string of a hit -/

variable {db site}

/-- A state of `handle_chain` that notes another string. -/
def ChainState.noting (q : List UInt8) (s : ChainState) : ChainState := { s with qrystr := q }

theorem chainWrite_noting {q : List UInt8} (hq : q ≠ []) (web : Bool) (port : ℤ)
    (prntEnt : SiteEntry)
    (res : List UInt8) (s : ChainState) :
    chainWrite web port prntEnt res (s.noting q) =
      (chainWrite web port prntEnt res s).noting q := by
  by_cases htmp : s.tmp = []
  · simp [chainWrite, ChainState.noting, htmp, hq]
  · by_cases hroom : s.maxLength ≤ s.tot.length + res.length + 2
    · simp only [chainWrite, ChainState.noting, htmp, hroom, if_false, if_true]
      split_ifs <;> rfl
    · simp only [chainWrite, ChainState.noting, htmp, hroom, if_false]
      split_ifs <;> rfl

theorem chainUp_noting (file : List SiteEntry) (q : List UInt8) (prntEnt : SiteEntry)
    (s : ChainState) :
    chainUp file prntEnt (s.noting q) = (chainUp file prntEnt s).map (ChainState.noting q) := by
  rw [chainUp, chainUp]
  split
  · cases prntEnt.core.strt2 with
    | none => rfl
    | some strt2 =>
      simp only [Option.bind_eq_bind, Option.bind_some]
      cases fileAt file strt2 <;> rfl
  · rfl

theorem chainStep_noting {q : List UInt8} (hq : q ≠ []) (file : List SiteEntry) (web : Bool)
    (port : ℤ) (s : ChainState) :
    chainStep db file web port (s.noting q) = (chainStep db file web port s).map
      (ChainState.noting q) := by
  have hstrings : (s.noting q).currStrings = s.currStrings := rfl
  have hprnt : (s.noting q).currPrnt = s.currPrnt := rfl
  rw [chainStep, chainStep, hstrings, hprnt]
  cases db.getString s.currStrings with
  | none => rfl
  | some res =>
    cases fileAt file s.currPrnt with
    | none => rfl
    | some prntEnt =>
      simp only [Option.bind_eq_bind, Option.bind_some]
      rw [chainWrite_noting hq]
      set t := chainWrite web port prntEnt res s
      have hdoc : (t.noting q).doc = t.doc := rfl
      have hup : (t.noting q).currPrnt = t.currPrnt := rfl
      rw [hdoc, hup]
      split
      · rfl
      · split
        · cases fileAt file (findParent file t.currPrnt) with
          | none => rfl
          | some prntEnt =>
            exact chainUp_noting file q prntEnt { t with doc := false, oldPrntEnt := none }
        · exact chainUp_noting file q prntEnt { t with oldPrntEnt := some prntEnt }

theorem chainLoop_noting {q : List UInt8} (hq : q ≠ []) (file : List SiteEntry) (web : Bool)
    (port : ℤ)
    (fuel : ℕ) (s : ChainState) : chainLoop db file web port fuel (s.noting q) =
      (chainLoop db file web port fuel s).map (ChainState.noting q) := by
  induction fuel generalizing s with
  | zero => rfl
  | succ fuel ih =>
    have hstrings : (s.noting q).currStrings = s.currStrings := rfl
    have hprnt : (s.noting q).currPrnt = s.currPrnt := rfl
    rw [chainLoop, chainLoop, hstrings, hprnt, chainStep_noting hq]
    split
    · cases chainStep db file web port s with
      | none => rfl
      | some t => exact ih t
    · rfl

/-- **The string that a hit is noted with** has no influence on its path. -/
theorem handleChain_noting {q : List UInt8} (hq : q ≠ []) (file : List SiteEntry) (fuel : ℕ)
    (web : Bool)
    (port : ℤ) (flags : ℕ) (q' : List UInt8) (currPrnt currStrings : ℤ) :
    handleChain db file fuel web port flags q currPrnt currStrings =
      (handleChain db file fuel web port flags q' currPrnt currStrings).map fun r => (q, r.2) := by
  have htail : ∀ document,
      ((chainLoop db file web port fuel
        { currPrnt := currPrnt, currStrings := currStrings, oldPrntEnt := none
          key := web && cseIsKey flags, document := document, doc := document
          tmp := [], tot := [], maxLength := maxPathLen, qrystr := q }).bind fun s =>
            some (s.qrystr, s.tot)) =
      ((chainLoop db file web port fuel
        { currPrnt := currPrnt, currStrings := currStrings, oldPrntEnt := none
          key := web && cseIsKey flags, document := document, doc := document
          tmp := [], tot := [], maxLength := maxPathLen, qrystr := q' }).bind fun s =>
            some (s.qrystr, s.tot)).map fun r => (q, r.2) := by
    intro document
    have hloop := @chainLoop_noting db q hq file web port fuel
      { currPrnt := currPrnt, currStrings := currStrings, oldPrntEnt := none
        key := web && cseIsKey flags, document := document, doc := document
        tmp := [], tot := [], maxLength := maxPathLen, qrystr := q' }
    rw [ChainState.noting] at hloop
    rw [hloop]
    cases chainLoop db file web port fuel
      { currPrnt := currPrnt, currStrings := currStrings, oldPrntEnt := none
        key := web && cseIsKey flags, document := document, doc := document
        tmp := [], tot := [], maxLength := maxPathLen, qrystr := q' } <;> rfl
  rw [handleChain, handleChain]
  cases web with
  | false => exact htail false
  | true =>
    cases fileAt file currPrnt with
    | none => rfl
    | some e => exact htail _

end

end Archie
