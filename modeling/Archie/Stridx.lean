/-
Searching a strings database (`archstridx/api.c`).

The strings file is a key separator followed by the strings, each with a
separator after it.  Its front may be indexed by a PaTrie; the rest, the
unindexed text, is scanned in core.  A handle keeps what is needed to resume a
search: the key and the kind of search, how far the unindexed text has been
scanned, and the state of the PaTrie search.

Starts are written to an array of the caller, here a list; the number of hits
says how much of its front is the result.
-/
import Mathlib.Data.List.Destutter
import Archie.Search

namespace Archie

/-- `KEYSEP_CH`. -/
def keysepCh : UInt8 := 10

/-- `ARCH_INDEX_CHARS` and `ARCH_INDEX_WORDS`. -/
inductive IndexType
  | chars
  | words
  deriving DecidableEq, Repr

/-- `enum search_type`. -/
inductive SrchType
  | exact
  | regex
  | substr
  | unset
  deriving DecidableEq, Repr

/-- `struct arch_stridx_handle`, as far as searching uses it; `page` is the page
buffer of the PaTrie. -/
structure StridxHandle where
  idxType : IndexType
  uiText : Option (List UInt8)
  split : ℕ
  cf : Option PatrieConfig
  page : TriePage
  key : Option (List UInt8)
  srchType : SrchType
  caseAccentSens : ℤ
  rState : ℕ
  uState : ℕ
  pState : Option PatrieState
  deriving DecidableEq, Repr

/-- What the search of a database calls: the in-core scan, which returns the
places of a key in a text up to a maximum, the search by a regular expression,
which returns starts and where to resume, and a bound on the turns of a walk. -/
structure Calls where
  scan : Sens → List UInt8 → List UInt8 → ℕ → List ℕ
  regex : List UInt8 → ℤ → ℕ → ℕ → Option (List ℕ × ℕ)
  fuel : ℕ

/-! ### The array of starts -/

/-- Writes entries to the array from an index on. -/
def writeStarts (start : List ℕ) (i : ℕ) (entries : List ℕ) : List ℕ :=
  start.take i ++ entries ++ start.drop (i + entries.length)

theorem length_writeStarts {start entries : List ℕ} {i : ℕ}
    (h : i + entries.length ≤ start.length) :
    (writeStarts start i entries).length = start.length := by
  rw [writeStarts, List.length_append, List.length_append, List.length_take, List.length_drop]
  omega

/-- Only the entries before the index and the new ones are in front. -/
theorem take_writeStarts {start entries : List ℕ} {i n : ℕ} (hi : i ≤ start.length)
    (hn : n ≤ entries.length) :
    (writeStarts start i entries).take (i + n) = start.take i ++ entries.take n := by
  have hlen : (start.take i).length = i := by
    rw [List.length_take]
    omega
  rw [writeStarts, List.append_assoc, List.take_append, hlen, Nat.add_sub_cancel_left,
    List.take_append_of_le_length hn, List.take_of_length_le (by omega)]

/-- `remove_duplicates`: the first of each run of equal entries is copied down.
The entries, and their number; the array behind them is left as it was. -/
def removeDuplicates (start : List ℕ) : List ℕ × ℕ :=
  let uniq := start.destutter (· ≠ ·)
  (uniq ++ start.drop uniq.length, uniq.length)

theorem length_removeDuplicates (start : List ℕ) :
    (removeDuplicates start).1.length = start.length := by
  have hle := (List.destutter_sublist (· ≠ ·) start).length_le
  rw [removeDuplicates, List.length_append, List.length_drop]
  omega

theorem take_removeDuplicates (start : List ℕ) :
    (removeDuplicates start).1.take (removeDuplicates start).2 = start.destutter (· ≠ ·) := by
  rw [removeDuplicates, List.take_left]

/-- `remove_duplicate_starts`. -/
def removeDuplicateStarts (start : List ℕ) : List ℕ × ℕ :=
  removeDuplicates (start.mergeSort (· ≤ ·))

theorem mapM_eq_some_map {α β : Type*} {f : α → Option β} {g : α → β} {l : List α}
    (h : ∀ a ∈ l, f a = some (g a)) : l.mapM f = some (l.map g) := by
  induction l with
  | nil => rfl
  | cons a l ih =>
    rw [List.mapM_cons, h a List.mem_cons_self, ih fun b hb => h b (List.mem_cons_of_mem a hb)]
    rfl

/-! ### From a match to its string -/

/-- The last key separator at or before a place, reading backwards. -/
def prevSep (text : List UInt8) : ℕ → Option ℕ
  | 0 => if text[0]? = some keysepCh then some 0 else none
  | i + 1 => if text[i + 1]? = some keysepCh then some (i + 1) else prevSep text i

/-- `ui_fix_one_start`. -/
def uiFixOneStart (text : List UInt8) (start : ℕ) : Option ℕ := (prevSep text start).map (· + 1)

/-- `patrie_fix_one_start`: it begins one place before. -/
def patrieFixOneStart (text : List UInt8) : ℕ → Option ℕ
  | 0 => none
  | st + 1 => (prevSep text st).map (· + 1)

/-- The first key separator at or after a place. -/
def nextSep (text : List UInt8) (i : ℕ) : Option ℕ :=
  ((text.drop i).findIdx? (· = keysepCh)).map (i + ·)

/-! ### The keys of a search -/

/-- The keys for the PaTrie and for the unindexed text, each with the number of
characters before the given key. -/
structure SearchKeys where
  patKey : List UInt8
  pAdj : ℕ
  uiKey : List UInt8
  uAdj : ℕ
  deriving DecidableEq, Repr

/-- `makeSearchKeys`. -/
def makeSearchKeys (h : StridxHandle) (key : List UInt8) : Option SearchKeys :=
  match h.srchType with
  | .exact =>
    some
      { patKey := (if h.idxType = .chars then [keysepCh] else []) ++ key ++ [keysepCh]
        pAdj := if h.idxType = .chars then 1 else 0
        uiKey := [keysepCh] ++ key ++ [keysepCh]
        uAdj := 1 }
  | .regex => none
  | .substr =>
    some
      { patKey := key
        pAdj := 0
        uiKey := (if h.idxType = .words then [keysepCh] else []) ++ key
        uAdj := if h.idxType = .words then 1 else 0 }
  | .unset => none

/-- The comparison of a `caseAccentSens` that `uitext_sub_search` knows. -/
def sensOfCode (code : ℤ) : Option Sens :=
  if code = 0 then some .ciai
  else if code = 1 then some .cias
  else if code = 2 then some .csai
  else if code = 3 then some .csas
  else none

theorem sensOfCode_code (s : Sens) : sensOfCode s.code = some s := by
  cases s <;> rfl

/-! ### Searching -/

section Calls

variable (calls : Calls)

/-- The loop of `uitext_sub_search`.  Every turn moves the state forward. -/
def uitextLoop (s : Sens) (text key : List UInt8) (startAdj maxhits : ℕ) :
    ℕ → StridxHandle → ℕ → List ℕ → Option (StridxHandle × ℕ × List ℕ)
  | 0, _, _, _ => none
  | fuel + 1, h, tothits, start =>
    if tothits < maxhits then
      let hits := calls.scan s (text.drop h.uState) key (maxhits - tothits)
      if hits = [] then some (h, tothits, start)
      else do
        let last ← hits.getLast?
        -- the new state is one past the separator that ends the last hit's word
        let sep ← nextSep text (h.uState + last + 1)
        let fixed ← (hits.map (· + (h.uState + startAdj))).mapM (uiFixOneStart text)
        let (all, n) := removeDuplicates fixed
        let moved := (all.take n).map (· + (h.split - 1)) ++ all.drop n
        uitextLoop s text key startAdj maxhits fuel { h with uState := sep + 1 } (tothits + n)
          (writeStarts start tothits moved)
    else some (h, tothits, start)

/-- `uitext_sub_search`, for a number of hits that is 0 before the call. -/
def uitextSubSearch (h : StridxHandle) (text key : List UInt8) (startAdj maxhits : ℕ)
    (start : List ℕ) : Option (StridxHandle × ℕ × List ℕ) :=
  if h.uState ≥ text.length - 1 then some (h, 0, start)
  else do
    let s ← sensOfCode h.caseAccentSens
    uitextLoop calls s text key startAdj maxhits (text.length + 1) h 0 start

/-- The part of a search in the unindexed text, when there is one. -/
def searchUitext (h : StridxHandle) (keys : SearchKeys) (maxhits : ℕ) (start : List ℕ) :
    Option (StridxHandle × ℕ × List ℕ) :=
  match h.uiText with
  | none => some (h, 0, start)
  | some text => uitextSubSearch calls h text keys.uiKey keys.uAdj maxhits start

/-- `patrie_sub_search`, with `more` for `archGetMoreMatches`; the refill is
given the array from its beginning. -/
def patrieSubSearch (more : StridxHandle → ℕ → List ℕ → Option (StridxHandle × ℕ × List ℕ))
    (cf : PatrieConfig) (h : StridxHandle) (key : List UInt8) (startAdj maxhits : ℕ)
    (start : List ℕ) : Option (StridxHandle × ℕ × List ℕ) := do
  let (hits, ps, page) ← patrieSearchSub cf calls.fuel key h.caseAccentSens maxhits h.page
  let h := { h with pState := some ps, page := page }
  let fixed ← (hits.map (· + startAdj)).mapM (patrieFixOneStart cf.text)
  let (all, tothits) := removeDuplicateStarts fixed
  let (h, hits, start) ← more h (maxhits - tothits) (writeStarts start 0 all)
  some (h, tothits + hits, start)

/-- The last loop of `archGetMoreMatches`.  Every turn adds a hit. -/
def moreStartsLoop (cf : PatrieConfig) (patAdj maxhits : ℕ) :
    ℕ → StridxHandle → PatrieState → ℕ → List ℕ → Option (StridxHandle × ℕ × List ℕ)
  | 0, _, _, _, _ => none
  | fuel + 1, h, ps, tothits, start =>
    if tothits < maxhits then do
      let (hits, ps, page) ← patrieGetMoreStarts cf calls.fuel (maxhits - tothits) ps h.page
      let h := { h with pState := some ps, page := page }
      if hits = [] then some (h, tothits, start)
      else
        -- the source adjusts the entries from `tothits` up to the number of hits
        let n := hits.length - tothits
        let adjusted := (hits.take n).map (· + patAdj) ++ hits.drop n
        let fixed ← adjusted.mapM (patrieFixOneStart cf.text)
        let (all, uniq) := removeDuplicateStarts fixed
        moreStartsLoop cf patAdj maxhits fuel h ps (tothits + uniq) (writeStarts start tothits all)
    else some (h, tothits, start)

/-- The part of `archGetMoreMatches` in the PaTrie; the first search is given
the adjustment of the unindexed text. -/
def moreFromPatrie (more : StridxHandle → ℕ → List ℕ → Option (StridxHandle × ℕ × List ℕ))
    (cf : PatrieConfig) (keys : SearchKeys) (maxhits : ℕ) (h : StridxHandle) (tothits : ℕ)
    (start : List ℕ) : Option (StridxHandle × ℕ × List ℕ) :=
  match h.pState with
  | some ps => moreStartsLoop calls cf keys.pAdj maxhits (maxhits + 1) h ps tothits start
  | none => do
    let (h, hits, rest) ← patrieSubSearch calls more cf h keys.patKey keys.uAdj
      (maxhits - tothits) (start.drop tothits)
    let ps ← h.pState
    moreStartsLoop calls cf keys.pAdj maxhits (maxhits + 1) h ps (tothits + hits)
      (start.take tothits ++ rest)

/-- `archGetMoreMatches`, for at most `depth` calls inside each other: the call
by `patrie_sub_search` finds a state and makes no further one. -/
def getMoreMatches : ℕ → StridxHandle → ℕ → List ℕ → Option (StridxHandle × ℕ × List ℕ)
  | 0, _, _, _ => none
  | depth + 1, h, maxhits, start =>
    if maxhits = 0 then some (h, 0, start)
    else if h.srchType = .regex then do
      let key ← h.key
      let (hits, r) ← calls.regex key h.caseAccentSens h.rState maxhits
      some ({ h with rState := r }, hits.length, writeStarts start 0 hits)
    else do
      let key ← h.key
      let keys ← makeSearchKeys h key
      let (h, tothits, start) ← searchUitext calls h keys maxhits start
      match h.cf with
      | none => some (h, tothits, start)
      | some cf =>
        if tothits < maxhits then
          moreFromPatrie calls (getMoreMatches depth) cf keys maxhits h tothits start
        else some (h, tothits, start)

/-- `archGetMoreMatches`. -/
def archGetMoreMatches (h : StridxHandle) (maxhits : ℕ) (start : List ℕ) :
    Option (StridxHandle × ℕ × List ℕ) :=
  getMoreMatches calls 2 h maxhits start

/-- `saveSearchState`. -/
def saveSearchState (key : List UInt8) (caseAccentSens : ℤ) (srchType : SrchType)
    (h : StridxHandle) : StridxHandle :=
  { h with
    key := some key
    caseAccentSens := caseAccentSens
    srchType := srchType
    rState := 0
    uState := 0
    pState := none }

/-- `subSearch`. -/
def subSearch (h : StridxHandle) (key : List UInt8) (maxhits : ℕ) (start : List ℕ) :
    Option (StridxHandle × ℕ × List ℕ) :=
  if key = [] then some (h, 0, start)
  else do
    let keys ← makeSearchKeys h key
    let (h, uhits, start) ← searchUitext calls h keys maxhits start
    if uhits = maxhits then some (h, uhits, start)
    else
      match h.cf with
      | none => some (h, uhits, start)
      | some cf => do
        let (h, phits, rest) ← patrieSubSearch calls (getMoreMatches calls 1) cf h keys.patKey
          keys.pAdj (maxhits - uhits) (start.drop uhits)
        some (h, uhits + phits, start.take uhits ++ rest)

/-- `archSearchExact`. -/
def archSearchExact (h : StridxHandle) (key : List UInt8) (caseAccentSens : ℤ) (maxhits : ℕ)
    (start : List ℕ) : Option (StridxHandle × ℕ × List ℕ) :=
  subSearch calls (saveSearchState key caseAccentSens .exact h) key maxhits start

/-- `archSearchSub`. -/
def archSearchSub (h : StridxHandle) (key : List UInt8) (caseAccentSens : ℤ) (maxhits : ℕ)
    (start : List ℕ) : Option (StridxHandle × ℕ × List ℕ) :=
  subSearch calls (saveSearchState key caseAccentSens .substr h) key maxhits start

/-- `archSearchRegex`. -/
def archSearchRegex (h : StridxHandle) (key : List UInt8) (caseAccentSens : ℤ) (maxhits : ℕ)
    (start : List ℕ) : Option (StridxHandle × ℕ × List ℕ) := do
  let h := saveSearchState key caseAccentSens .regex h
  let (hits, r) ← calls.regex key caseAccentSens h.rState maxhits
  some ({ h with rState := r }, hits.length, writeStarts start 0 hits)

/-! ### Whole searches -/

/-- The result in an array: its front. -/
def hitsOf (r : StridxHandle × ℕ × List ℕ) : List ℕ := r.2.2.take r.2.1

/-- Calls of `archGetMoreMatches`, each with an array of its own. -/
def moreSearches : List (List ℕ) → StridxHandle → Option (List (List ℕ))
  | [], _ => some []
  | a :: arrays, h => do
    let r ← archGetMoreMatches calls h a.length a
    let rest ← moreSearches arrays r.1
    some (hitsOf r :: rest)

/-- A search of a kind, and calls for more: the starts that each call returns. -/
def searches (srchType : SrchType) (h : StridxHandle) (key : List UInt8) (caseAccentSens : ℤ)
    (a : List ℕ) (arrays : List (List ℕ)) : Option (List (List ℕ)) := do
  let r ← subSearch calls (saveSearchState key caseAccentSens srchType h) key a.length a
  let rest ← moreSearches calls arrays r.1
  some (hitsOf r :: rest)

end Calls

end Archie
