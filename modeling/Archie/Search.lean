/-
Resumable search of a PaTrie (`search.c`).

A search descends by the bits of the key that the trie tests, then walks the
subtrie reached with an explicit stack; the stack is what a search state keeps
between calls.  When the comparison asked for is that of the index, one look at
the first start decides for all of them; otherwise each start is compared with
the key.

The walk takes `fuel`, a bound on its turns, since a file that is not a trie
need not end it.
-/
import Archie.Case
import Archie.Reader

namespace Archie

/-- `struct patrie_config`, as far as a search uses it. -/
structure PatrieConfig where
  text : List UInt8
  buildCaseAccentSens : Sens
  trie : PagedTrie
  deriving DecidableEq, Repr

/-! ### Comparing the key with the text -/

/-- `keyMatches`, `keyMatchesCase`, `keyMatchesAccent` and `keyMatchesCiAi`: the
key against the text from an offset on, one folded character at a time. -/
def keyMatchesWith (fold : UInt8 → UInt8) : List UInt8 → List UInt8 → Bool
  | [], _ => true
  | _ :: _, [] => false
  | k :: key, c :: text => if fold k ≠ fold c then false else keyMatchesWith fold key text

/-- `keyTypeMatch`; `none` is `CMP_NULL`. -/
def keyTypeMatch (cf : PatrieConfig) (key : List UInt8) (offset : ℕ) : Option Sens → Bool
  | none => false
  | some s => keyMatchesWith s.fold key (cf.text.drop offset)

/-- `keyMatchesIdxType`. -/
def keyMatchesIdxType (cf : PatrieConfig) (key : List UInt8) (offset : ℕ) : Bool :=
  keyTypeMatch cf key offset (some cf.buildCaseAccentSens)

/-- `MatchMap[s][p]`: what to compare by in a search of type `s` of an index of
type `p`. -/
def matchMap : List (List (Option Sens)) :=
  [[some .ciai, none, none, none],
    [some .cias, some .cias, none, none],
    [some .csai, none, some .csai, none],
    [some .csas, some .csai, some .cias, some .csas]]

/-- The comparison that `keyMatchesIdxSearchType` takes from the table; outside
of the table there is no answer. -/
def matchType (stype ptype : ℤ) : Option (Option Sens) :=
  if stype > 4 ∨ ptype > 4 then some none
  else if stype < 0 ∨ ptype < 0 then none
  else (matchMap[stype.toNat]?).bind fun row => row[ptype.toNat]?

/-- `keyMatchesIdxSearchType`. -/
def keyMatchesIdxSearchType (cf : PatrieConfig) (stype ptype : ℤ) (key : List UInt8)
    (offset : ℕ) : Option Bool :=
  (matchType stype ptype).map (keyTypeMatch cf key offset)

/-! ### Walking a subtrie -/

/-- The loop of `load_all_starts` and `load_matching_starts`, for the starts that
`accept` lets through.  A start is stored plus one. -/
def loadStartsLoop (cf : PatrieConfig) (accept : ℕ → Option Bool) (maxhits : ℕ) :
    ℕ → PatrieNode → List ℕ → PatrieState → TriePage →
      Option (List ℕ × PatrieState × TriePage)
  | 0, _, _, _, _ => none
  | fuel + 1, node, start, state, page =>
    if node.isSkip ≠ 0 then do
      let (child, page) ← getPagedTrieChild cf.trie .right node page
      let (node, page) ← getPagedTrieChild cf.trie .left node page
      loadStartsLoop cf accept maxhits fuel node start (patrieStatePush child state) page
    else do
      let ok ← accept (node.val - 1)
      let start := if ok then start ++ [node.val - 1] else start
      if start.length ≥ maxhits ∨ patrieStateEmpty state = true then some (start, state, page)
      else
        let (node, state) ← patrieStatePop state
        loadStartsLoop cf accept maxhits fuel node start state page

/-- `load_all_starts` and `load_matching_starts` around their loop. -/
def loadStarts (cf : PatrieConfig) (accept : ℕ → Option Bool) (fuel maxhits : ℕ)
    (state : PatrieState) (page : TriePage) : Option (List ℕ × PatrieState × TriePage) :=
  if maxhits = 0 ∨ patrieStateEmpty state = true then some ([], state, page)
  else do
    let (node, state) ← patrieStatePop state
    loadStartsLoop cf accept maxhits fuel node [] state page

/-- `load_all_starts`. -/
def loadAllStarts (cf : PatrieConfig) (fuel maxhits : ℕ) (state : PatrieState) (page : TriePage) :
    Option (List ℕ × PatrieState × TriePage) :=
  loadStarts cf (fun _ => some true) fuel maxhits state page

/-- `load_matching_starts`. -/
def loadMatchingStarts (cf : PatrieConfig) (key : List UInt8) (fuel maxhits : ℕ)
    (state : PatrieState) (page : TriePage) : Option (List ℕ × PatrieState × TriePage) :=
  loadStarts cf
    (keyMatchesIdxSearchType cf state.matchCaseAccSens cf.buildCaseAccentSens.code key)
    fuel maxhits state page

/-! ### The descent -/

/-- `bit`. -/
def bit (n : ℤ) (src : List UInt8) : Option Bool :=
  if n < 0 then none else (src[n.toNat / 8]?).map fun c => c.toNat.testBit (7 - n.toNat % 8)

/-- The loop of `search`. -/
def searchLoop (cf : PatrieConfig) (k : List UInt8) :
    ℕ → PatrieNode → TriePage → Option (PatrieNode × TriePage)
  | 0, _, _ => none
  | fuel + 1, node, page =>
    if node.isSkip ≠ 0 then
      if ((k.length * 8 : ℕ) : ℤ) ≤ node.height then some (node, page)
      else do
        let b ← bit node.height k
        let (node, page) ← getPagedTrieChild cf.trie (if b then .right else .left) node page
        searchLoop cf k fuel node page
    else some (node, page)

/-- `search`. -/
def search (cf : PatrieConfig) (fuel : ℕ) (k : List UInt8) : Option (PatrieNode × TriePage) := do
  let (node, page) ← getTrieRoot cf.trie
  searchLoop cf k fuel node page

/-! ### Searching and resuming -/

/-- The copy of the key that the descent uses. -/
def searchKey (cf : PatrieConfig) (key : List UInt8) : List UInt8 :=
  match cf.buildCaseAccentSens with
  | .ciai => key.map fun c => noAccent (toLower c)
  | .cias => key.map toLower
  | .csai => key.map noAccent
  | .csas => key

/-- `patrieGetMoreStarts`. -/
def patrieGetMoreStarts (cf : PatrieConfig) (fuel maxhits : ℕ) (state : PatrieState)
    (page : TriePage) : Option (List ℕ × PatrieState × TriePage) :=
  if maxhits = 0 ∨ patrieStateEmpty state = true then some ([], state, page)
  else if state.matchCaseAccSens = cf.buildCaseAccentSens.code then
    if state.firstMatched ≠ 0 then loadAllStarts cf fuel maxhits state page
    else some ([], state, page)
  else do
    let key ← state.key
    loadMatchingStarts cf key fuel maxhits state page

/-- The part of `patrieSearchSub` after the first start: `node` is the root of
the subtrie reached, and `start` its first start. -/
def searchRest (cf : PatrieConfig) (fuel : ℕ) (key : List UInt8) (matchCaseAccSens : ℤ)
    (maxhits : ℕ) (node : PatrieNode) (start : List ℕ) (state : PatrieState) (page : TriePage) :
    Option (List ℕ × PatrieState × TriePage) := do
  let first ← start.head?
  if keyMatchesIdxType cf key first = false then
    some ([], { state with firstMatched := 0 }, page)
  else
    let state := { state with firstMatched := 1 }
    if matchCaseAccSens = cf.buildCaseAccentSens.code then
      let (more, state, page) ← loadAllStarts cf fuel (maxhits - 1) state page
      some (first :: more, state, page)
    else
      loadMatchingStarts cf key fuel maxhits (patrieStatePush node (patrieStateResetStack state))
        page

/-- `patrieSearchSub`: the starts, the state and the page left in the buffer;
`none` is an error.  For `maxhits = 0` it leaves the number of hits unset. -/
def patrieSearchSub (cf : PatrieConfig) (fuel : ℕ) (key : List UInt8) (matchCaseAccSens : ℤ)
    (maxhits : ℕ) (page : TriePage) : Option (List ℕ × PatrieState × TriePage) :=
  if matchCaseAccSens = 0 ∧ cf.buildCaseAccentSens.code ≠ 0 then none
  else if maxhits = 0 then some ([], patrieAllocState, page)
  else do
    let state := { patrieAllocState with key := some key, matchCaseAccSens := matchCaseAccSens }
    let (node, page) ← search cf fuel (searchKey cf key)
    let (start, state, page) ← loadAllStarts cf fuel 1 (patrieStatePush node state) page
    searchRest cf fuel key matchCaseAccSens maxhits node start state page

/-- Calls of `patrieGetMoreStarts`, one after the other. -/
def moreBatches (cf : PatrieConfig) (fuel : ℕ) :
    List ℕ → PatrieState → TriePage → Option (List (List ℕ))
  | [], _, _ => some []
  | b :: bs, state, page => do
    let (start, state, page) ← patrieGetMoreStarts cf fuel b state page
    let rest ← moreBatches cf fuel bs state page
    some (start :: rest)

/-- A search for the first batch, and calls for more: the starts of each call. -/
def searchBatches (cf : PatrieConfig) (fuel : ℕ) (key : List UInt8) (matchCaseAccSens : ℤ)
    (b : ℕ) (bs : List ℕ) (page : TriePage) : Option (List (List ℕ)) := do
  let (start, state, page) ← patrieSearchSub cf fuel key matchCaseAccSens b page
  let rest ← moreBatches cf fuel bs state page
  some (start :: rest)

end Archie
