/-
Reading a paged trie (`search.c`: `loadPage`, `getTrieRoot`, `getPagedTrieChild`).

A page holds the counts `bCount`, `firstChildPage` and `nTCounts`, then the
counts of its child pages, then its nodes level by level, all in 32-bit words;
the top bit of a node tells a start from a skip.  The position of a node in its
page is known by counting: `inode` internal and `enode` external nodes of its
level up to and including it, out of `tnode`.

* `Reads` — the subtrie that the reader finds below a node, whatever page is in
  the buffer.
* `getPagedTrieChild_loaded` — the page in the buffer does not matter.
-/
import Archie.State
import Archie.Patricia

namespace Archie

open Patricia

/-- `struct patrie_page`. -/
structure TriePage where
  bCount : ℤ
  nTCounts : ℤ
  firstChildPage : ℤ
  tCount : List ℤ
  nodeBitOff : ℤ
  bits : List ℕ
  pageNum : ℤ
  deriving DecidableEq, Repr

/-- The file of a paged trie: its pages, each a list of words, and the number of
trie levels in a page. -/
structure PagedTrie where
  pages : List (List ℕ)
  levelsPerPage : ℤ
  deriving DecidableEq, Repr

/-- `bitsPerSkip` and `bitsPerStart`. -/
def bitsPerNode : ℤ := 31

/-- `enum child`. -/
inductive Child
  | left
  | right
  deriving DecidableEq, Repr

/-- `getNodeAt`: whether the node at a bit offset is a skip, and its value. -/
def getNodeAt (off : ℤ) (bits : List ℕ) : Option (ℤ × ℕ) :=
  if off < 0 then none
  else do
    let v ← bits[(off / 32).toNat]?
    some (if v / 2 ^ 31 = 0 then 1 else 0, v % 2 ^ 31)

/-- `loadPage`. -/
def loadPage (cf : PagedTrie) (pageNum : ℤ) : Option TriePage :=
  if pageNum < 0 then none
  else do
    let bits ← cf.pages[pageNum.toNat]?
    let bCount ← bits[0]?
    let firstChildPage ← bits[1]?
    let nTCounts ← bits[2]?
    let n := (sint nTCounts).toNat
    if bits.length < 3 + n then none
    else
      some
        { bCount := sint bCount
          nTCounts := sint nTCounts
          firstChildPage := sint firstChildPage
          tCount := ((bits.drop 3).take n).map sint
          nodeBitOff := 32 * (3 + n)
          bits := bits
          pageNum := pageNum }

/-- Reads the node at `node.pos` and counts it. -/
def readNode (page : TriePage) (node : PatrieNode) : Option PatrieNode := do
  let (isSkip, val) ← getNodeAt node.pos page.bits
  let node := { node with isSkip := isSkip, val := val }
  some (if isSkip ≠ 0 then { node with inode := node.inode + 1 }
    else { node with enode := node.enode + 1 })

/-- Moves on to the next node and counts it. -/
def nextPageNode (page : TriePage) (node : PatrieNode) : Option PatrieNode :=
  readNode page { node with pos := node.pos + (bitsPerNode + 1) }

/-- The loop of `getTrieChild`.  Every turn reads a word further on, so the page
ends it. -/
def getTrieChildLoop (page : TriePage) (childLevel childPosition : ℤ) :
    ℕ → ℤ → PatrieNode → Option (ℤ × PatrieNode)
  | 0, _, _ => none
  | fuel + 1, height, node =>
    if node.lev = childLevel ∧ node.inode + node.enode = childPosition then some (height, node)
    else if node.inode + node.enode = node.tnode then
      -- this node is the last node on the current level
      (nextPageNode page
        { node with
          lev := node.lev + 1
          tnode := 2 * node.inode
          height := node.height + 1
          inode := 0
          enode := 0 }).bind (getTrieChildLoop page childLevel childPosition fuel (height + 1))
    else (nextPageNode page node).bind (getTrieChildLoop page childLevel childPosition fuel height)

/-- `childPosition` of a node with `inode` internal nodes up to it: at least 1. -/
def childPositionOf (child : Child) (n : ℤ) : ℤ :=
  match child with
  | .left => n - 1
  | .right => n

/-- `getTrieChild`. -/
def getTrieChild (child : Child) (page : TriePage) (node : PatrieNode) : Option PatrieNode := do
  let (height, node) ← getTrieChildLoop page (node.lev + 1)
    (childPositionOf child (2 * node.inode)) (page.bits.length + 1) node.height node
  some (if node.isSkip ≠ 0 then { node with height := height + node.val } else node)

/-- The last loop of `getPagedTrieChild`. -/
def countNodes (page : TriePage) (childPosition : ℤ) : ℕ → PatrieNode → Option PatrieNode
  | 0, _ => none
  | fuel + 1, node =>
    if node.enode + node.inode < childPosition then
      (nextPageNode page node).bind (countNodes page childPosition fuel)
    else some node

/-- The index of the child page with the given node: the first count, from the
one at index 1 on, that is not below the position. -/
def childPageIdx (tCount : List ℤ) (childPosition : ℤ) : Option ℕ :=
  ((tCount.drop 1).findIdx? fun c => childPosition ≤ c).map (· + 1)

/-- The part of `getPagedTrieChild` that finds the child on another page. -/
def getChildPage (cf : PagedTrie) (child : Child) (page : TriePage) (node : PatrieNode) :
    Option (PatrieNode × TriePage) := do
  let position := childPositionOf child (node.inode * 2 + page.bCount)
  let i ← childPageIdx page.tCount position
  let t0 ← page.tCount[i - 1]?
  let t1 ← page.tCount[i]?
  let child ← loadPage cf (page.firstChildPage + i - 1)
  let node ← readNode child
    { node with
      lev := node.lev + 1
      tnode := t1 - t0
      height := node.height + 1
      inode := 0
      enode := 0
      pos := child.nodeBitOff
      pageNum := child.pageNum }
  let node ← countNodes child (position - t0) (child.bits.length + 1) node
  some (if node.isSkip ≠ 0 then { node with height := node.height + node.val } else node, child)

/-- The page of a node: the one in the buffer, or else it is loaded. -/
def nodePage (cf : PagedTrie) (node : PatrieNode) (page : TriePage) : Option TriePage :=
  if node.pageNum ≠ page.pageNum then loadPage cf node.pageNum else some page

/-- `getPagedTrieChild`: the child, and the page that is then in the buffer. -/
def getPagedTrieChild (cf : PagedTrie) (child : Child) (node : PatrieNode) (page : TriePage) :
    Option (PatrieNode × TriePage) := do
  let page ← nodePage cf node page
  if node.lev % cf.levelsPerPage ≠ 0 then
    let node ← getTrieChild child page node
    some (node, page)
  else getChildPage cf child page node

/-- `getTrieRoot`: the root is the first node of the last page. -/
def getTrieRoot (cf : PagedTrie) : Option (PatrieNode × TriePage) := do
  let page ← loadPage cf (cf.pages.length - 1)
  let (isSkip, val) ← getNodeAt page.nodeBitOff page.bits
  some (
    { val := val
      isSkip := isSkip
      lev := 1
      height := val - 1
      pos := page.nodeBitOff
      inode := if isSkip ≠ 0 then 1 else 0
      enode := if isSkip ≠ 0 then 0 else 1
      tnode := 1
      pageNum := page.pageNum }, page)

/-! ### The page buffer -/

/-- The buffer holds a page of the file. -/
def TriePage.Loaded (cf : PagedTrie) (page : TriePage) : Prop :=
  loadPage cf page.pageNum = some page

theorem loadPage_pageNum {cf : PagedTrie} {n : ℤ} {page : TriePage}
    (h : loadPage cf n = some page) : page.pageNum = n := by
  rw [loadPage] at h
  split at h
  next => contradiction
  next =>
    simp only [Option.bind_eq_bind, Option.bind_eq_some_iff] at h
    obtain ⟨bits, -, b, -, f, -, t, -, h⟩ := h
    split at h
    next => contradiction
    next => rw [← Option.some.inj h]

theorem nodePage_eq {cf : PagedTrie} {page : TriePage} (h : page.Loaded cf) (node : PatrieNode) :
    nodePage cf node page = loadPage cf node.pageNum := by
  rw [nodePage]
  split
  next => rfl
  next hn =>
    rw [not_not.mp hn]
    exact h.symm

/-- The page in the buffer does not matter. -/
theorem getPagedTrieChild_loaded {cf : PagedTrie} {page page' : TriePage} (h : page.Loaded cf)
    (h' : page'.Loaded cf) (child : Child) (node : PatrieNode) :
    getPagedTrieChild cf child node page = getPagedTrieChild cf child node page' := by
  rw [getPagedTrieChild, getPagedTrieChild, nodePage_eq h, nodePage_eq h']

/-! ### The trie that is read -/

/-- The reader finds the subtrie `t` below `node`, with its root at depth `d`:
the values are those of `t`, and the height of an internal node is the position
of the bit that is tested there. -/
def Reads (cf : PagedTrie) : Trie ℕ → ℤ → PatrieNode → Prop
  | .leaf v, _, node => node.isSkip = 0 ∧ node.val = v
  | .node skip l r, d, node =>
    node.isSkip ≠ 0 ∧ node.val = skip ∧ node.height = d + skip ∧
    ∀ page : TriePage, page.Loaded cf →
      (∃ n p, getPagedTrieChild cf .left node page = some (n, p) ∧ p.Loaded cf ∧
        Reads cf l (d + skip + 1) n) ∧
      (∃ n p, getPagedTrieChild cf .right node page = some (n, p) ∧ p.Loaded cf ∧
        Reads cf r (d + skip + 1) n)

/-- An internal node, read with one of the pages in the buffer. -/
theorem reads_node {cf : PagedTrie} {skip : ℕ} {l r : Trie ℕ} {d : ℤ} {node : PatrieNode}
    (hskip : node.isSkip ≠ 0) (hval : node.val = skip) (hheight : node.height = d + skip)
    {page : TriePage} (hpage : page.Loaded cf)
    (hleft : ∃ n p, getPagedTrieChild cf .left node page = some (n, p) ∧ p.Loaded cf ∧
      Reads cf l (d + skip + 1) n)
    (hright : ∃ n p, getPagedTrieChild cf .right node page = some (n, p) ∧ p.Loaded cf ∧
      Reads cf r (d + skip + 1) n) : Reads cf (.node skip l r) d node := by
  refine ⟨hskip, hval, hheight, fun page' hpage' => ?_⟩
  rw [getPagedTrieChild_loaded hpage' hpage, getPagedTrieChild_loaded hpage' hpage]
  exact ⟨hleft, hright⟩

/-- The values that the file holds for a trie of starts: a start plus one, a
skip, and for the root its height. -/
def fileTrie (t : Trie ℕ) : Trie ℕ := (t.map (· + 1)).addSkip 1

/-- The file represents a trie of starts: the reader finds it from the root on. -/
def Represents (cf : PagedTrie) (t : Trie ℕ) : Prop :=
  ∃ root page, getTrieRoot cf = some (root, page) ∧ page.Loaded cf ∧
    Reads cf (fileTrie t) (-1) root

end Archie
