/-
Packing the levels of a trie into pages (`page.c`).

The level file is taken some levels at a time, from the bottom.  Of these levels successive
subtries are loaded into a buffer until they fill a page or more.  A page gets all of them, or all
but the last, behind the counts that lead to the pages of its children.

* `nodeBufferLoad`, `nodeBufferShift`, `fillPage` — the buffer and the page.
* `pageTooSmall` — the check of the page size.
* `pageRound`, `levelStart`, `levelEnd` — the two loops of `_patriePagedBuild`.
* `buildRun` — both of them.
-/
import Archie.LevelFile

namespace Archie.Paged

open Patricia

/-- `struct patrie_config`, as far as the paged trie depends on it. -/
structure PageConfig where
  levelPageSize : ℕ
  pagedPageSize : ℕ
  levelsPerPage : ℕ
  bitsPerSkip : ℕ
  bitsPerStart : ℕ

/-- `BITS_IN_BCOUNT`, `BITS_IN_PAGENUM` and `BITS_IN_CCOUNT`. -/
def bitsInBcount : ℕ := 32
def bitsInPagenum : ℕ := 32
def bitsInCcount : ℕ := 32

/-- `BITS_IN_TCOUNT`. -/
def bitsInTcount : ℕ := 32

/-- `INT_MAX`. -/
def intMax : ℕ := 2147483647

/-- `BITS_IN_NODE`. -/
def bitsInNode (cf : PageConfig) (node : Node) : ℕ :=
  if node.type = .skip then cf.bitsPerSkip else cf.bitsPerStart

/-- `N_CHILD_NODES`. -/
def nChildNodes (node : Node) : ℕ := if node.type = .skip then 2 else 0

/-- The bits of nodes with their type bits. -/
def nodeBits (cf : PageConfig) (nodes : List Node) : ℕ :=
  (nodes.map fun node => bitsInNode cf node + 1).sum

/-- The number of links that leave nodes. -/
def nLeaving (nodes : List Node) : ℕ := (nodes.map nChildNodes).sum

/-! ### Links to the left -/

/-- `struct top_count`; `nLeftLinks` has the entries in use. -/
structure TopCount where
  firstPage : ℤ
  nLeftLinks : List ℕ

/-- `initTopCount`. -/
def initTopCount (firstPage : ℤ) : TopCount := ⟨firstPage, []⟩

/-- `addTopCount`. -/
def addTopCount (tc : TopCount) (nLeftLinks : ℕ) : TopCount :=
  { tc with nLeftLinks := tc.nLeftLinks ++ [nLeftLinks] }

/-- `firstTCountIdx`; past the last entry there is no result. -/
def firstTCountIdx (tc : TopCount) (startidx n : ℕ) : Option ℤ :=
  ((tc.nLeftLinks.drop startidx).findIdx? (n < ·)).map fun i : ℕ => ((startidx + i : ℕ) : ℤ) - 1

/-- `lastTCountIdx`. -/
def lastTCountIdx (tc : TopCount) (startidx : ℤ) (n : ℕ) : Option ℤ :=
  if startidx < 0 then none
  else ((tc.nLeftLinks.drop startidx.toNat).findIdx? (n ≤ ·)).map fun i : ℕ => startidx + i

/-! ### The buffer -/

/-- `struct node_buffer`: `level` has the nodes of each level, `nAllNodes` of them.  What is copied
to `tCount` is not used. -/
structure NodeBuffer where
  nBitsUsed : ℕ
  nBitsAllNodes : ℕ
  nAllTCounts : ℕ
  nPenTCounts : ℕ
  prevIdx : ℕ
  nPenNodes : List ℕ
  level : List (List Node)
  nBitsInPage : ℕ

/-- `nodeBufferInit`. -/
def nodeBufferInit (nLevs nBitsInPage : ℕ) : NodeBuffer :=
  { nBitsUsed := 0
    nBitsAllNodes := 0
    nAllTCounts := 0
    nPenTCounts := 0
    prevIdx := 0
    nPenNodes := List.replicate nLevs 0
    level := List.replicate nLevs []
    nBitsInPage := nBitsInPage }

/-- `bitsInNodeBuffer`. -/
def bitsInNodeBuffer (nb : NodeBuffer) : ℕ :=
  if 0 < (nb.level.headD []).length then
    nb.nBitsAllNodes + (bitsInBcount + bitsInPagenum + bitsInCcount) + nb.nAllTCounts * bitsInTcount
  else 0

section

variable (cf : PageConfig) (file : List UInt8)

/-- The next nodes of a level; it is asserted that they are there. -/
def readNodes : ℕ → SingleLevel → Option (List Node × SingleLevel)
  | 0, lev => some ([], lev)
  | n + 1, lev => do
    let (node, lev) ← nextNode cf.levelPageSize file lev
    let node ← node
    let (nodes, lev) ← readNodes n lev
    some (node :: nodes, lev)

/-- The loop of `nodeBufferLoad` over the levels below the root: the levels of the buffer, those
of the file and the bits of the nodes. -/
def loadLevels : ℕ → List (List Node) → List SingleLevel → ℕ →
    Option (List (List Node) × List SingleLevel × ℕ)
  | 0, levels, subtrie, _ => some (levels, subtrie, 0)
  | nLevs + 1, level :: levels, lev :: subtrie, nChild =>
    if nChild = 0 then some (level :: levels, lev :: subtrie, 0)
    else do
      let (nodes, lev) ← readNodes cf file nChild lev
      let (levels, subtrie, nBits) ← loadLevels nLevs levels subtrie (nLeaving nodes)
      some ((level ++ nodes) :: levels, lev :: subtrie, nodeBits cf nodes + nBits)
  | _ + 1, _, _, _ => none

/-- One more subtrie in the buffer. -/
def addSubtrie (nLevs : ℕ) (node : Node) (nb : NodeBuffer) (subtrie : List SingleLevel) :
    Option (NodeBuffer × List SingleLevel) := do
  let (levels, subtrie, nBits) ←
    loadLevels cf file (nLevs - 1) nb.level.tail subtrie (nChildNodes node)
  some ({ nb with
    nPenNodes := nb.level.map List.length
    level := (nb.level.headD [] ++ [node]) :: levels
    nBitsAllNodes := nb.nBitsAllNodes + (bitsInNode cf node + 1) + nBits }, subtrie)

/-- The number of tCounts that the buffer needs, after one more subtrie; and `lastIdx`. -/
def countTCounts (nLevs bCount : ℕ) (childTopCount : TopCount) (firstIdx lastIdx : ℤ)
    (nb : NodeBuffer) : Option (NodeBuffer × ℤ) :=
  let nb := { nb with nPenTCounts := nb.nAllTCounts }
  let leaving := nLeaving (nb.level.getD (nLevs - 1) [])
  if 0 < leaving then
    if firstIdx < 0 then none
    else do
      let lastIdx ← lastTCountIdx childTopCount lastIdx (bCount + leaving)
      if lastIdx - firstIdx + 1 < 0 then none
      else some ({ nb with nAllTCounts := (lastIdx - firstIdx + 1).toNat }, lastIdx)
  else some (nb, lastIdx)

/-- The loop of `nodeBufferLoad`. -/
def loadLoop (nLevs bCount : ℕ) (childTopCount : TopCount) (firstIdx : ℤ) :
    ℕ → ℤ → NodeBuffer → List SingleLevel → Option (NodeBuffer × List SingleLevel)
  | 0, _, _, _ => none
  | fuel + 1, lastIdx, nb, subtrie =>
    if nb.nBitsUsed < nb.nBitsInPage then
      match subtrie with
      | [] => none
      | lev :: subtrie => do
        let (node, lev) ← nextNode cf.levelPageSize file lev
        match node with
        | none => some (nb, lev :: subtrie)
        | some node => do
          let (nb, subtrie) ← addSubtrie cf file nLevs node nb subtrie
          let (nb, lastIdx) ← countTCounts nLevs bCount childTopCount firstIdx lastIdx nb
          loadLoop nLevs bCount childTopCount firstIdx fuel lastIdx
            { nb with nBitsUsed := bitsInNodeBuffer nb } (lev :: subtrie)
    else some (nb, subtrie)

/-- `nodeBufferLoad`; each turn of the loop adds some bits. -/
def nodeBufferLoad (nLevs bCount : ℕ) (childTopCount : TopCount) (nb : NodeBuffer)
    (subtrie : List SingleLevel) : Option (NodeBuffer × List SingleLevel) := do
  let nb := { nb with nBitsUsed := bitsInNodeBuffer nb }
  let firstIdx ← firstTCountIdx childTopCount nb.prevIdx bCount
  let (nb, subtrie) ←
    loadLoop cf file nLevs bCount childTopCount firstIdx (nb.nBitsInPage + 1) firstIdx nb subtrie
  some ({ nb with prevIdx := if nb.prevIdx < firstIdx then firstIdx.toNat else nb.prevIdx },
    subtrie)

/-- `nodeBufferReset`. -/
def nodeBufferReset (nb : NodeBuffer) : NodeBuffer :=
  nodeBufferInit nb.level.length nb.nBitsInPage

/-- `nodeBufferShift`. -/
def nodeBufferShift (nLevs bCount : ℕ) (childTopCount : TopCount) (nb : NodeBuffer) :
    Option NodeBuffer :=
  if nb.nBitsUsed ≤ nb.nBitsInPage then some (nodeBufferReset nb)
  else
    let level := List.zipWith (fun nodes n => nodes.drop n) nb.level nb.nPenNodes
    let nb := { nb with
      nBitsAllNodes := (level.map (nodeBits cf)).sum
      nAllTCounts := 0
      nPenTCounts := 0
      nPenNodes := nb.nPenNodes.map fun _ => 0
      level := level }
    let leaving := nLeaving (level.getD (nLevs - 1) [])
    if 0 < leaving then do
      let firstIdx ← firstTCountIdx childTopCount nb.prevIdx bCount
      let lastIdx ← lastTCountIdx childTopCount firstIdx (bCount + leaving)
      if lastIdx - firstIdx + 1 ≤ 0 then none
      else
        let nb := { nb with
          nAllTCounts := (lastIdx - firstIdx + 1).toNat
          prevIdx := firstIdx.toNat }
        some { nb with nBitsUsed := bitsInNodeBuffer nb }
    else some { nb with nBitsUsed := bitsInNodeBuffer nb }

/-! ### The page -/

/-- The nodes of the buffer that go to the page. -/
def NodeBuffer.copied (nb : NodeBuffer) (useAllNodes : Bool) : List (List Node) :=
  if useAllNodes then nb.level else List.zipWith (fun nodes n => nodes.take n) nb.level nb.nPenNodes

/-- `linksEnteringPage`. -/
def linksEnteringPage (nb : NodeBuffer) (allNodes : Bool) : ℕ :=
  ((nb.copied allNodes).headD []).length

/-- `linksLeavingPage`. -/
def linksLeavingPage (nb : NodeBuffer) (allNodes : Bool) (nLevs : ℕ) : ℕ :=
  nLeaving ((nb.copied allNodes).getD (nLevs - 1) [])

/-- What `copyBits32` puts into the page: a number, the bit where it begins and its bits. -/
structure PageField where
  off : ℕ
  width : ℕ
  val : ℤ

/-- A page: the levels of nodes, and what has been put into it. -/
structure BuiltPage where
  nodes : List (List Node)
  fields : List PageField

/-- Numbers one behind the other, from an offset on. -/
def placeFields : ℕ → List (ℕ × ℤ) → List PageField
  | _, [] => []
  | currOff, (width, val) :: vals => ⟨currOff, width, val⟩ :: placeFields (currOff + width) vals

/-- A node as a number, with its type bit (`MAKE_START`). -/
def nodeField (node : Node) : ℕ × ℤ :=
  (bitsInNode cf node + 1,
    ((if node.type = .start then node.value ||| 2 ^ cf.bitsPerStart else node.value : ℕ) : ℤ))

/-- The page number of the first child and the tCounts. -/
def childFields (nTCounts bCount : ℕ) (tc : TopCount) (nb : NodeBuffer) :
    Option (List PageField × List (ℕ × ℤ)) :=
  if 0 < nTCounts then do
    let childOffset ← firstTCountIdx tc nb.prevIdx bCount
    let links := (tc.nLeftLinks.drop childOffset.toNat).take nTCounts
    if childOffset < 0 ∨ links.length < nTCounts then none
    else some ([⟨bitsInBcount, bitsInPagenum, tc.firstPage + childOffset⟩],
      links.map fun n : ℕ => (bitsInTcount, (n : ℤ)))
  else some ([], [])

/-- `fillPage`. -/
def fillPage (useAllNodes : Bool) (nLevs bCount : ℕ) (tc : TopCount) (nb : NodeBuffer) :
    Option BuiltPage := do
  let nTCounts := if useAllNodes then nb.nAllTCounts else nb.nPenTCounts
  let nodes := (nb.copied useAllNodes).take nLevs
  let (firstChild, tCounts) ← childFields nTCounts bCount tc nb
  some {
    nodes := nodes
    fields := [⟨0, bitsInBcount, bCount⟩,
        ⟨bitsInBcount + bitsInPagenum, bitsInCcount, nTCounts⟩] ++ firstChild ++
      placeFields (bitsInBcount + bitsInPagenum + bitsInCcount)
        (tCounts ++ nodes.flatten.map (nodeField cf)) }

/-- `pageTooSmall`; there is no result where it divides by zero. -/
def pageTooSmall : Option Bool :=
  let overhead := (bitsInBcount + bitsInCcount + bitsInPagenum + 20 * bitsInBcount) / 8
  if cf.levelsPerPage = 0 then some true
  else
    let nodesMx := 2 ^ (cf.levelsPerPage - 1)
    let width := max cf.bitsPerSkip cf.bitsPerStart / 8
    if width = 0 then none
    else
      -- `unsigned long` wraps.
      let nodesUb :=
        ulong ((ulong ((cf.pagedPageSize : ℤ) - overhead) / width : ℕ) - (1 : ℤ))
      some (decide (32 ≤ cf.levelsPerPage ∨ nodesUb < nodesMx))

/-! ### The loops -/

/-- The variables of `_patriePagedBuild`; `pageLevel` is `i`. -/
structure BuildState where
  pageLevel : ℕ
  outputPageNum : ℕ
  bCount : ℕ
  tCount : ℕ
  nb : NodeBuffer
  childTCount : TopCount
  currTCount : TopCount
  trie : List SingleLevel

/-- `currLev`. -/
def BuildState.currLev (s : BuildState) : ℕ := s.pageLevel * cf.levelsPerPage

/-- `copyLevs`. -/
def BuildState.copyLevs (s : BuildState) : ℕ :=
  min cf.levelsPerPage (s.trie.length - s.currLev cf)

/-- The call of `nodeBufferLoad` for the levels from `currLev` on. -/
def BuildState.load (s : BuildState) : Option BuildState := do
  let (nb, subtrie) ← nodeBufferLoad cf file (s.copyLevs cf) s.bCount s.childTCount s.nb
    (s.trie.drop (s.currLev cf))
  some { s with nb := nb, trie := s.trie.take (s.currLev cf) ++ subtrie }

/-- The outer loop, up to the inner one. -/
def levelStart (pageLevel : ℕ) (s : BuildState) : Option BuildState :=
  BuildState.load cf file
    { s with
      pageLevel := pageLevel
      bCount := 0
      tCount := 0
      currTCount := initTopCount s.outputPageNum }

/-- The outer loop, after the inner one. -/
def levelEnd (s : BuildState) : BuildState :=
  { s with
    childTCount := addTopCount (addTopCount s.currTCount s.tCount) intMax
    currTCount := ⟨s.currTCount.firstPage, []⟩
    nb := nodeBufferReset s.nb }

/-- The body of the inner loop: the page that is written, and the variables after it. -/
def pageRound (s : BuildState) : Option (BuiltPage × BuildState) := do
  let useAllNodes := decide (s.nb.nBitsUsed ≤ cf.pagedPageSize * 8)
  let page ← fillPage cf useAllNodes (s.copyLevs cf) s.bCount s.childTCount s.nb
  let bCount := s.bCount + linksLeavingPage s.nb useAllNodes (s.copyLevs cf)
  let nb ← nodeBufferShift cf (s.copyLevs cf) bCount s.childTCount s.nb
  let s ← BuildState.load cf file
    { s with
      outputPageNum := s.outputPageNum + 1
      bCount := bCount
      currTCount := addTopCount s.currTCount s.tCount
      tCount := s.tCount + linksEnteringPage s.nb useAllNodes
      nb := nb }
  some (page, s)

/-- One turn of the inner loop or, where that ends, the step to the levels above. -/
def buildStep (s : BuildState) : Option (Option BuiltPage × BuildState) :=
  if 0 < s.nb.nBitsUsed then (pageRound cf file s).map fun r => (some r.1, r.2)
  else (levelStart cf file (s.pageLevel - 1) (levelEnd s)).map fun s => (none, s)

/-- Whether both loops are done. -/
def BuildState.Done (s : BuildState) : Prop := s.nb.nBitsUsed = 0 ∧ s.pageLevel = 0

instance (s : BuildState) : Decidable s.Done := inferInstanceAs (Decidable (_ ∧ _))

/-- The two loops, from the condition of the inner one on: the pages that are written. -/
def buildRun : ℕ → BuildState → Option (List BuiltPage)
  | 0, _ => none
  | fuel + 1, s =>
    if s.Done then some []
    else do
      let (page, s) ← buildStep cf file s
      let pages ← buildRun fuel s
      some (page.toList ++ pages)

/-- `_patriePagedBuild`, up to the inner loop of the levels at the bottom. -/
def buildStart : Option BuildState := do
  let first ← readFirstPages file
  let nlevs := first.length
  let pageLevel := nlevs / cf.levelsPerPage + if nlevs % cf.levelsPerPage = 0 then 0 else 1
  if pageLevel = 0 then none
  else
    levelStart cf file (pageLevel - 1)
      { pageLevel := pageLevel
        outputPageNum := 0
        bCount := 0
        tCount := 0
        nb := nodeBufferInit cf.levelsPerPage (cf.pagedPageSize * 8)
        childTCount := addTopCount (initTopCount (-1)) intMax
        currTCount := initTopCount (-1)
        trie := first.map fun firstPageNum =>
          { newSingleLevel cf.levelPageSize with firstPageNum := firstPageNum } }

/-- `_patriePagedBuild`: what it returns, and the pages. -/
def patriePagedBuild (fuel : ℕ) : Option (Bool × List BuiltPage) := do
  let small ← pageTooSmall cf
  if small then some (false, [])
  else do
    let s ← buildStart cf file
    let pages ← buildRun cf file fuel s
    some (true, pages)

/-- The states at the condition of the inner loop. -/
inductive Reached : BuildState → Prop
  | start {s : BuildState} (h : buildStart cf file = some s) : Reached s
  | step {s s' : BuildState} {page : Option BuiltPage} (hs : Reached s) (hgo : ¬ s.Done)
      (h : buildStep cf file s = some (page, s')) : Reached s'

end

end Archie.Paged
