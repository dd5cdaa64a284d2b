/-
A query answered page by page (`archsearch/search.c`: `archQuery`, `archQueryMore`).

The strings that match come in batches, for each string there are the sites that have
it, and for each site the hits in its file.  When the budget of a page runs out, the
string, the site and the record at which it did are kept in `site_record`.

* `archQuery`, `archQueryMore` — the first page and a later one.
* `Paging` — the pages after a first one, until one is empty.
* `queryLoop_fuel` — the bound on the rounds of their loops is never reached.
-/
import Archie.SiteHits

namespace Archie

/-! ### Budgets -/

/-- `MAX_HITS`. -/
def maxHitsLimit : ℤ := 200

/-- `MAX_MATCH`. -/
def maxMatchLimit : ℤ := 100

/-- The hits of a page, the strings asked for at once and the hits of a string, after
their limits were seen to. -/
structure Budget where
  h : ℕ
  m : ℕ
  hpm : ℕ
  deriving DecidableEq, Repr

def budget (h m hpm : ℤ) : Budget :=
  let h := if h > maxHitsLimit ∨ h ≤ 0 then maxHitsLimit else h
  let m := if m > maxMatchLimit ∨ m ≤ 0 then maxMatchLimit else m
  let m := if m > h then h else m
  let hpm := if hpm ≤ 0 then 1 else hpm
  ⟨h.toNat, m.toNat, hpm.toNat⟩

theorem budget_pos (h m hpm : ℤ) : 0 < (budget h m hpm).h ∧ 0 < (budget h m hpm).m ∧
    0 < (budget h m hpm).hpm := by
  simp only [budget, maxHitsLimit, maxMatchLimit]
  split_ifs <;> omega

/-! ### Databases -/

/-- The strings, and the sites of each: what `get_index_start_dbs` gives for a start,
with `host_table_find` for each of these. -/
structure SearchDb where
  strings : StringsDb
  sites : ℤ → List (Option SiteData)

/-- The variables of a page.  `string` is `start[j - 1]`, the last string that was
looked at. -/
structure QueryState where
  hits : List QueryResult
  numMatches : ℕ
  numHitsPm : ℕ
  tmpStop : ℤ
  string : ℤ
  siteRecord : StartReturn

/-- A page: its hits, the strings that were not fetched yet, and `site_record`. -/
structure Page where
  hits : List QueryResult
  rest : List ℤ
  siteRecord : StartReturn
  deriving DecidableEq, Repr

/-- A `site_record` with all its bytes zero. -/
def StartReturn.zero : StartReturn := ⟨0, 0, 0, 0, 0⟩

section

variable (db : SearchDb) (accept : List UInt8 → Bool) (b : Budget)

/-- The sites of a string, from the site `k` on.  `stop` is what `site_record` has as
its `stop` when a site is looked at. -/
def sitesLoop (stop start : ℤ) : ℕ → List (Option SiteData) → QueryState → QueryState
  | _, [], s => s
  | k, none :: sites, s => sitesLoop stop start (k + 1) sites s
  | k, some site :: sites, s =>
    let result := getResultFromStart db.strings site accept start
      { StartReturn.zero with stop := stop }
      ((b.h : ℤ) - s.hits.length)
    let s := { s with siteRecord := result.siteRecord }
    if !result.ok then sitesLoop stop start (k + 1) sites s
    else
      let s := { s with
        hits := s.hits ++ result.hits, numHitsPm := s.numHitsPm + result.hits.length }
      if b.h ≤ s.hits.length ∨ b.hpm ≤ s.numHitsPm then { s with tmpStop := k }
      else sitesLoop stop start (k + 1) sites s

/-- A string counts as matched if there are more hits than before it. -/
def QueryState.counted (s : QueryState) (before : ℕ) : QueryState :=
  if before < s.hits.length then { s with numMatches := s.numMatches + 1 } else s

/-- The strings of a batch.  Only `archQuery` counts the hits of each string anew. -/
def stringsLoop (more : Bool) : List ℤ → QueryState → QueryState
  | [], s => s
  | start :: starts, s =>
    let s := { s with string := start }
    if (db.sites start).isEmpty then stringsLoop more starts s
    else
      let s := { s with numHitsPm := if more then s.numHitsPm else 0, tmpStop := -1 }
      let s := (sitesLoop db accept b (if more then 0 else -1) start 0 (db.sites start) s).counted
        s.hits.length
      if b.h ≤ s.hits.length then s else stringsLoop more starts s

variable (search : ℕ → List ℤ → ℕ)

/-- The loop over the batches: `search` says how many of the strings that are left come
in one, if so many are asked for.  The first argument bounds the rounds. -/
def queryLoop (more : Bool) : ℕ → List ℤ → QueryState → List ℤ × QueryState
  | 0, rest, s => (rest, s)
  | fuel + 1, rest, s =>
    let n := search (if more then b.m else b.m - s.numMatches) rest
    if (rest.take n).isEmpty then (rest, s)
    else
      let s := stringsLoop db accept b more (rest.take n) s
      if b.h ≤ s.hits.length then (rest.drop n, s) else queryLoop more fuel (rest.drop n) s

/-- What `site_record` keeps of a page that is at an end: the site that `tmp_stop` tells,
and the string.  The loop over the sites is never left with more of them to come. -/
def QueryState.record (s : QueryState) : StartReturn :=
  { s.siteRecord with stop := if 0 ≤ s.tmpStop then s.tmpStop else -1, string := s.string }

/-- `archQuery`, without a domain restriction, for the strings that match. -/
def archQuery (h m hpm : ℤ) (found : List ℤ) (siteRecord : StartReturn) : Page :=
  let b := budget h m hpm
  if (found.take (search b.m found)).isEmpty then ⟨[], found, siteRecord⟩
  else
    let (rest, s) := queryLoop db accept b search false (found.length + 1) found
      ⟨[], 0, 0, 0, 0, siteRecord⟩
    ⟨s.hits, rest, s.record⟩

/-- The rest of the sites of the string at which the last page ended; `true` if the page
is full with that.  Here `site_record` is not cleared before a site. -/
def resumeLoop (string : ℤ) : ℕ → List (Option SiteData) → QueryState → QueryState × Bool
  | _, [], s => (s, false)
  | _, none :: _, s => (s, false)
  | i, some site :: sites, s =>
    let result := getResultFromStart db.strings site accept string s.siteRecord
      (min ((b.hpm : ℤ) - s.numHitsPm) ((b.h : ℤ) - s.hits.length))
    let s := { s with siteRecord := result.siteRecord }
    if !result.ok then (s, false)
    else
      let s := { s with
        hits := s.hits ++ result.hits, numHitsPm := s.numHitsPm + result.hits.length }
      if b.h ≤ s.hits.length ∨ b.m ≤ s.numMatches then
        ({ s with siteRecord := { s.siteRecord with stop := i } }, true)
      else resumeLoop string (i + 1) sites s

/-- `archQueryMore`.  After the string at which the last page ended the strings that were
not fetched yet are looked at; those fetched with it are not. -/
def archQueryMore (h m hpm : ℤ) (page : Page) : Page :=
  let b := budget h m hpm
  let record := page.siteRecord
  let s : QueryState := ⟨[], 0, 0, 0, 0, record⟩
  let (s, full) :=
    if 0 < record.string ∧ 0 ≤ record.stop then
      resumeLoop db accept b record.string record.stop.toNat
        ((db.sites record.string).drop record.stop.toNat) s
    else (s, false)
  if full then ⟨s.hits, page.rest, s.siteRecord⟩
  else
    let (rest, s) := queryLoop db accept b search true (page.rest.length + 1) page.rest s
    ⟨s.hits, rest, if b.h ≤ s.hits.length then s.record else { s.siteRecord with stop := -1 }⟩

/-- The hits of the pages after a page, until one of them has none. -/
inductive Paging (h m hpm : ℤ) : Page → List QueryResult → Prop
  | last {page : Page} : (archQueryMore db accept search h m hpm page).hits = [] → Paging h m hpm page []
  | next {page : Page} {hits : List QueryResult} :
      (archQueryMore db accept search h m hpm page).hits ≠ [] →
      Paging h m hpm (archQueryMore db accept search h m hpm page) hits →
      Paging h m hpm page ((archQueryMore db accept search h m hpm page).hits ++ hits)

end

section

theorem QueryState.counted_cases (s : QueryState) (before : ℕ) :
    ∃ n, s.counted before = { s with numMatches := n } := by
  rw [QueryState.counted]
  split
  · exact ⟨_, rfl⟩
  · exact ⟨s.numMatches, rfl⟩

theorem QueryState.counted_append {s : QueryState} {before hits : List QueryResult}
    (h : s.hits = before ++ hits) : s.counted before.length =
      { s with numMatches := s.numMatches + if hits.isEmpty then 0 else 1 } := by
  rw [QueryState.counted]
  cases hits with
  | nil => rw [if_neg (by simp [h])]; rfl
  | cons q hits => rw [if_pos (by simp [h])]; rfl

variable {db : SearchDb} {accept : List UInt8 → Bool} {b : Budget} {search : ℕ → List ℤ → ℕ}

/-- The pages after a page are given by it. -/
theorem Paging.unique {h m hpm : ℤ} {page : Page} {hits hits' : List QueryResult}
    (hpaging : Paging db accept search h m hpm page hits)
    (hpaging' : Paging db accept search h m hpm page hits') : hits = hits' := by
  induction hpaging generalizing hits' with
  | last hnil =>
    cases hpaging' with
    | last _ => rfl
    | next hne _ => exact absurd hnil hne
  | next hne _ ih =>
    cases hpaging' with
    | last hnil => exact absurd hnil hne
    | next _ hmore => rw [ih hmore]

/-- Each round takes a string, so that the bound on the rounds makes no difference. -/
theorem queryLoop_fuel (more : Bool) {fuel fuel' : ℕ} {rest : List ℤ} {s : QueryState}
    (hfuel : rest.length < fuel) (hfuel' : rest.length < fuel') :
    queryLoop db accept b search more fuel rest s =
      queryLoop db accept b search more fuel' rest s := by
  induction fuel generalizing fuel' rest s with
  | zero => omega
  | succ fuel ih =>
    obtain ⟨fuel', rfl⟩ : ∃ n, fuel' = n + 1 := ⟨fuel' - 1, by omega⟩
    rw [queryLoop, queryLoop]
    dsimp only
    set n := search (if more then b.m else b.m - s.numMatches) rest
    split
    next => rfl
    next hne =>
      have hdrop : (rest.drop n).length < rest.length := by
        have hpos : (rest.take n).length ≠ 0 := by simpa [List.isEmpty_iff] using hne
        rw [List.length_take] at hpos
        rw [List.length_drop]
        omega
      split
      next => rfl
      next => exact ih (by omega) (by omega)

end

end Archie
