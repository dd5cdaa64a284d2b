/-
Walking down the pages of a paged trie (`search.c`).

A page has the first levels of some subtries, one level after the other.  The reader knows where a
node is by counting the internal and the external nodes of its level, and finds a child by going on
to the next level, or else on the page that the counts of this page lead to.

* `PageNodes` — the words of a page are the levels of a forest.
* `Cursor` — a node of the reader, at a place of its page.
* `getTrieChild_spec` — the child on the same page.
* `getChildPage_spec` — the child on another page.
-/
import Archie.PageLoad
import Archie.Reader

namespace Archie.Paged

open Patricia

/-- A node as a word: the top bit tells a start. -/
def nodeWord (node : Node) : ℕ := if node.type = .start then node.value + 2 ^ 31 else node.value

/-- From the word `k` on, a page has the first `n` levels of a forest. -/
structure PageNodes (page : Archie.TriePage) (k n : ℕ) (ts : List (Trie ℕ)) : Prop where
  off : page.nodeBitOff = 32 * k
  word : ∀ q x t, q < n → (Trie.levelAt q ts)[x]? = some t →
    page.bits[k + (levelsOf q ts).flatten.length + x]? = some (nodeWord (rootNode t)) ∧
      (rootNode t).value < 2 ^ 30

/-- The reader is at the node `x` of the level `q`, the root of the subtrie `t`. -/
structure Cursor (k n : ℕ) (ts : List (Trie ℕ)) (q x : ℕ) (t : Trie ℕ) (node : PatrieNode) :
    Prop where
  level : q < n
  here : (Trie.levelAt q ts)[x]? = some t
  pos : node.pos = 32 * (k + (levelsOf q ts).flatten.length + x : ℕ)
  inode : node.inode = (((Trie.levelAt q ts).take (x + 1)).countP Trie.isNode : ℕ)
  both : node.inode + node.enode = x + 1
  tnode : node.tnode = ((Trie.levelAt q ts).length : ℕ)
  skip : node.isSkip = if t.isNode then 1 else 0
  val : node.val = (rootNode t).value

/-- What is not changed by reading on the same level. -/
structure SameLevel (node node' : PatrieNode) : Prop where
  lev : node'.lev = node.lev
  height : node'.height = node.height
  pageNum : node'.pageNum = node.pageNum

theorem SameLevel.trans {a b c : PatrieNode} (h : SameLevel a b) (h' : SameLevel b c) :
    SameLevel a c :=
  ⟨h'.lev.trans h.lev, h'.height.trans h.height, h'.pageNum.trans h.pageNum⟩

section

variable {page : Archie.TriePage} {k n q x : ℕ} {ts : List (Trie ℕ)} {t : Trie ℕ}

theorem getNodeAt_word {bits : List ℕ} {w : ℕ} (hword : bits[w]? = some (nodeWord (rootNode t)))
    (hvalue : (rootNode t).value < 2 ^ 30) :
    getNodeAt (32 * w : ℕ) bits = some (if t.isNode then 1 else 0, (rootNode t).value) := by
  have hidx : ((32 * w : ℕ) / 32 : ℤ).toNat = w := by omega
  rw [getNodeAt, if_neg (by omega), hidx, hword]
  cases t with
  | leaf a =>
    have hword' : nodeWord (rootNode (.leaf a)) = a + 2 ^ 31 := rfl
    have hvalue' : a < 2 ^ 30 := hvalue
    simp only [Option.bind_eq_bind, Option.bind_some, hword']
    rw [if_neg (by omega), show (a + 2 ^ 31) % 2 ^ 31 = a by omega]
    rfl
  | node s l r =>
    have hword' : nodeWord (rootNode (.node s l r)) = s := rfl
    have hvalue' : s < 2 ^ 30 := hvalue
    simp only [Option.bind_eq_bind, Option.bind_some, hword']
    rw [if_pos (by omega), show s % 2 ^ 31 = s by omega]
    rfl

/-- Reading a node, after those before it have been counted. -/
theorem readNode_spec {node : PatrieNode} (hpage : PageNodes page k n ts) (hq : q < n)
    (ht : (Trie.levelAt q ts)[x]? = some t)
    (hpos : node.pos = 32 * (k + (levelsOf q ts).flatten.length + x : ℕ))
    (hinode : node.inode = (((Trie.levelAt q ts).take x).countP Trie.isNode : ℕ))
    (hboth : node.inode + node.enode = x) (htnode : node.tnode = ((Trie.levelAt q ts).length : ℕ)) :
    ∃ node', readNode page node = some node' ∧ Cursor k n ts q x t node' ∧
      SameLevel node node' := by
  obtain ⟨hword, hvalue⟩ := hpage.word q x t hq ht
  have hget := getNodeAt_word hword hvalue
  have htake : (Trie.levelAt q ts).take (x + 1) = (Trie.levelAt q ts).take x ++ [t] := by
    rw [List.take_add_one, ht]
    rfl
  have hcount : ((Trie.levelAt q ts).take (x + 1)).countP Trie.isNode =
      ((Trie.levelAt q ts).take x).countP Trie.isNode + if t.isNode then 1 else 0 := by
    rw [htake, List.countP_append, List.countP_singleton]
  have hpos' : node.pos = ((32 * (k + (levelsOf q ts).flatten.length + x) : ℕ) : ℤ) := by
    rw [hpos]
    omega
  rw [readNode, hpos', hget]
  simp only [Option.bind_eq_bind, Option.bind_some]
  refine ⟨_, rfl, ?_, ?_⟩
  · cases hnode : t.isNode with
    | false =>
      rw [hnode] at hcount
      rw [if_neg (by simp)]
      exact ⟨hq, ht, hpos'.symm.trans hpos, by rw [hcount]; exact hinode, by dsimp only; omega,
        htnode, by rw [hnode], rfl⟩
    | true =>
      rw [hnode, if_pos rfl] at hcount
      rw [if_pos (by simp)]
      exact ⟨hq, ht, hpos'.symm.trans hpos, by dsimp only; omega, by dsimp only; omega, htnode,
        by rw [hnode], rfl⟩
  · cases t.isNode <;> exact ⟨rfl, rfl, rfl⟩

/-- The next node of a level. -/
theorem Cursor.next {node : PatrieNode} {t' : Trie ℕ} (h : Cursor k n ts q x t node)
    (hpage : PageNodes page k n ts) (ht' : (Trie.levelAt q ts)[x + 1]? = some t') :
    ∃ node', nextPageNode page node = some node' ∧ Cursor k n ts q (x + 1) t' node' ∧
      SameLevel node node' := by
  have hpos := h.pos
  have hboth := h.both
  obtain ⟨node', hread, hcursor, hsame⟩ :=
    @readNode_spec page k n q (x + 1) ts t' { node with pos := node.pos + (bitsPerNode + 1) } hpage
      h.level ht' (by dsimp only [bitsPerNode]; omega) h.inode (by dsimp only; omega) h.tnode
  exact ⟨node', hread, hcursor, hsame.lev, hsame.height, hsame.pageNum⟩

theorem levelsOf_succ_right (q : ℕ) (ts : List (Trie ℕ)) :
    levelsOf (q + 1) ts = levelsOf q ts ++ [levelNodes q ts] := by
  induction q generalizing ts with
  | zero => rfl
  | succ q ih =>
    rw [levelsOf, ih, levelsOf, levelNodes, levelNodes, Trie.levelAt_succ', List.cons_append]

theorem length_flatten_levelsOf_succ (q : ℕ) (ts : List (Trie ℕ)) :
    (levelsOf (q + 1) ts).flatten.length =
      (levelsOf q ts).flatten.length + (Trie.levelAt q ts).length := by
  rw [levelsOf_succ_right, List.flatten_append, List.length_append, List.flatten_singleton,
    length_levelNodes]

/-- From the last node of a level to the first of the next one. -/
theorem Cursor.down {node : PatrieNode} {t' : Trie ℕ} (h : Cursor k n ts q x t node)
    (hpage : PageNodes page k n ts) (hlast : x + 1 = (Trie.levelAt q ts).length) (hq : q + 1 < n)
    (ht' : (Trie.levelAt (q + 1) ts)[0]? = some t') :
    ∃ node', nextPageNode page
        { node with
          lev := node.lev + 1
          tnode := 2 * node.inode
          height := node.height + 1
          inode := 0
          enode := 0 } = some node' ∧ Cursor k n ts (q + 1) 0 t' node' ∧
      node'.lev = node.lev + 1 ∧ node'.height = node.height + 1 ∧ node'.pageNum = node.pageNum := by
  have hpos := h.pos
  have hoff := length_flatten_levelsOf_succ q ts
  have htnode : 2 * node.inode = ((Trie.levelAt (q + 1) ts).length : ℕ) := by
    rw [h.inode, hlast, List.take_length, Trie.levelAt_succ, Trie.length_nextLevel]
    omega
  obtain ⟨node', hread, hcursor, hsame⟩ := @readNode_spec page k n (q + 1) 0 ts t'
    { node with
      lev := node.lev + 1
      tnode := 2 * node.inode
      height := node.height + 1
      inode := 0
      enode := 0
      pos := node.pos + (bitsPerNode + 1) } hpage hq ht'
    (by dsimp only [bitsPerNode]; omega) rfl rfl htnode
  exact ⟨node', hread, hcursor, hsame.lev, hsame.height, hsame.pageNum⟩

/-! ### The child on the same page -/

theorem getTrieChildLoop_same {fuel y : ℕ} {childLevel height : ℤ} {node : PatrieNode} {t' : Trie ℕ}
    (h : Cursor k n ts q x t node) (hpage : PageNodes page k n ts) (hlev : node.lev = childLevel)
    (hy : x ≤ y) (ht' : (Trie.levelAt q ts)[y]? = some t') (hfuel : y - x < fuel) :
    ∃ node', getTrieChildLoop page childLevel (y + 1) fuel height node = some (height, node') ∧
      Cursor k n ts q y t' node' ∧ SameLevel node node' := by
  induction fuel generalizing x t node with
  | zero => exact absurd hfuel (Nat.not_lt_zero _)
  | succ fuel ih =>
    have hboth := h.both
    have htnode := h.tnode
    obtain ⟨hlt, -⟩ := List.getElem?_eq_some_iff.mp ht'
    rw [getTrieChildLoop]
    rcases Nat.eq_or_lt_of_le hy with rfl | hxy
    · obtain rfl := Option.some.inj (h.here.symm.trans ht')
      rw [if_pos ⟨hlev, hboth⟩]
      exact ⟨node, rfl, h, rfl, rfl, rfl⟩
    · obtain ⟨t₁, ht₁⟩ : ∃ t₁, (Trie.levelAt q ts)[x + 1]? = some t₁ :=
        ⟨_, List.getElem?_eq_getElem (by omega)⟩
      obtain ⟨node₁, hnext, hcursor, hsame⟩ := h.next hpage ht₁
      obtain ⟨node', hloop, hcursor', hsame'⟩ := ih hcursor (hsame.lev.trans hlev) hxy (by omega)
      refine ⟨node', ?_, hcursor', hsame.trans hsame'⟩
      rw [if_neg (by omega), if_neg (by omega), hnext, Option.bind_some, hloop]

theorem getTrieChildLoop_down {fuel y : ℕ} {height : ℤ} {node : PatrieNode} {t' : Trie ℕ}
    (h : Cursor k n ts q x t node) (hpage : PageNodes page k n ts) (hq : q + 1 < n)
    (ht' : (Trie.levelAt (q + 1) ts)[y]? = some t')
    (hfuel : (Trie.levelAt q ts).length - x + y < fuel) {childLevel : ℤ}
    (hlev : childLevel = node.lev + 1) :
    ∃ node', getTrieChildLoop page childLevel (y + 1) fuel height node =
        some (height + 1, node') ∧ Cursor k n ts (q + 1) y t' node' ∧ node'.lev = childLevel ∧
      node'.pageNum = node.pageNum := by
  induction fuel generalizing x t node with
  | zero => exact absurd hfuel (Nat.not_lt_zero _)
  | succ fuel ih =>
    have hboth := h.both
    have htnode := h.tnode
    obtain ⟨hlt, -⟩ := List.getElem?_eq_some_iff.mp ht'
    obtain ⟨hx, -⟩ := List.getElem?_eq_some_iff.mp h.here
    rw [getTrieChildLoop, if_neg (by omega)]
    rcases Nat.eq_or_lt_of_le (Nat.succ_le_of_lt hx) with hlast | hmore
    · -- The last node of its level.
      obtain ⟨t₁, ht₁⟩ : ∃ t₁, (Trie.levelAt (q + 1) ts)[0]? = some t₁ :=
        ⟨_, List.getElem?_eq_getElem (by omega)⟩
      obtain ⟨node₁, hnext, hcursor, hlev₁, -, hnum₁⟩ := h.down hpage hlast hq ht₁
      obtain ⟨node', hloop, hcursor', hsame⟩ :=
        @getTrieChildLoop_same page k n (q + 1) 0 ts t₁ fuel y childLevel (height + 1) node₁ t'
          hcursor hpage (hlev₁.trans hlev.symm) (Nat.zero_le y) ht' (by omega)
      refine ⟨node', ?_, hcursor', hsame.lev.trans (hlev₁.trans hlev.symm),
        hsame.pageNum.trans hnum₁⟩
      rw [if_pos (by omega), hnext, Option.bind_some, hloop]
    · obtain ⟨t₁, ht₁⟩ : ∃ t₁, (Trie.levelAt q ts)[x + 1]? = some t₁ :=
        ⟨_, List.getElem?_eq_getElem hmore⟩
      obtain ⟨node₁, hnext, hcursor, hsame⟩ := h.next hpage ht₁
      obtain ⟨node', hloop, hcursor', hlev', hnum'⟩ :=
        ih hcursor (by omega) (by rw [hsame.lev, hlev])
      refine ⟨node', ?_, hcursor', hlev', hnum'.trans hsame.pageNum⟩
      rw [if_neg (by omega), hnext, Option.bind_some, hloop]

/-- The place of a child among the nodes of the next level. -/
def childPlace (child : Child) (ts : List (Trie ℕ)) (x : ℕ) : ℕ :=
  match child with
  | .left => 2 * (ts.take x).countP Trie.isNode
  | .right => 2 * (ts.take x).countP Trie.isNode + 1

/-- A child of an internal node. -/
def childOf (child : Child) (l r : Trie ℕ) : Trie ℕ :=
  match child with
  | .left => l
  | .right => r

theorem getElem?_childPlace (child : Child) {s : ℕ} {l r : Trie ℕ}
    (h : ts[x]? = some (.node s l r)) :
    (Trie.nextLevel ts)[childPlace child ts x]? = some (childOf child l r) := by
  obtain ⟨hl, hr⟩ := Trie.getElem?_nextLevel h
  cases child with
  | left => exact hl
  | right => exact hr

/-- The position of a child that the reader computes counts from 1. -/
theorem Cursor.childPositionOf {node : PatrieNode} (child : Child) {s : ℕ} {l r : Trie ℕ}
    (h : Cursor k n ts q x (.node s l r) node) (b : ℕ) :
    childPositionOf child (2 * node.inode + b) =
      (b + childPlace child (Trie.levelAt q ts) x : ℕ) + 1 := by
  have htake : (Trie.levelAt q ts).take (x + 1) =
      (Trie.levelAt q ts).take x ++ [Trie.node s l r] := by
    rw [List.take_add_one, h.here]
    rfl
  have hinode : node.inode = ((Trie.levelAt q ts).take x).countP Trie.isNode + 1 := by
    rw [h.inode, htake, List.countP_append, List.countP_singleton]
    rfl
  cases child with
  | left =>
    rw [Archie.childPositionOf, childPlace, hinode]
    omega
  | right =>
    rw [Archie.childPositionOf, childPlace, hinode]
    omega

/-- **The child on the same page.** -/
theorem getTrieChild_spec {node : PatrieNode} (child : Child) {s : ℕ} {l r : Trie ℕ}
    (h : Cursor k n ts q x (.node s l r) node) (hpage : PageNodes page k n ts) (hq : q + 1 < n) :
    ∃ node', getTrieChild child page node = some node' ∧
      Cursor k n ts (q + 1) (childPlace child (Trie.levelAt q ts) x) (childOf child l r) node' ∧
      node'.lev = node.lev + 1 ∧ node'.pageNum = node.pageNum ∧
      ((childOf child l r).isNode = true → node'.height = node.height + 1 + node'.val) := by
  have hchild := getElem?_childPlace child h.here
  rw [← Trie.levelAt_succ] at hchild
  obtain ⟨hword, -⟩ := hpage.word (q + 1) _ _ hq hchild
  obtain ⟨hlen, -⟩ := List.getElem?_eq_some_iff.mp hword
  obtain ⟨hx, -⟩ := List.getElem?_eq_some_iff.mp h.here
  have hoff := length_flatten_levelsOf_succ q ts
  obtain ⟨node', hloop, hcursor, hlev, hnum⟩ :=
    @getTrieChildLoop_down page k n q x ts _ (page.bits.length + 1) _ node.height node _ h hpage hq
      hchild (by omega) _ rfl
  have hposition := h.childPositionOf child 0
  rw [Nat.zero_add, Int.natCast_zero, Int.add_zero] at hposition
  rw [getTrieChild, hposition, hloop]
  simp only [Option.bind_eq_bind, Option.bind_some]
  refine ⟨_, rfl, ?_, ?_, ?_, ?_⟩
  · split
    · exact ⟨hcursor.level, hcursor.here, hcursor.pos, hcursor.inode, hcursor.both, hcursor.tnode,
        hcursor.skip, hcursor.val⟩
    · exact hcursor
  · split <;> exact hlev
  · split <;> exact hnum
  · intro hnode
    have hskip := hcursor.skip
    rw [hnode, if_pos rfl] at hskip
    rw [if_pos (by rw [hskip]; exact Int.one_ne_zero)]

/-! ### The child on another page -/

theorem countNodes_spec {fuel y : ℕ} {node : PatrieNode} {t' : Trie ℕ}
    (h : Cursor k n ts q x t node) (hpage : PageNodes page k n ts) (hy : x ≤ y)
    (ht' : (Trie.levelAt q ts)[y]? = some t') (hfuel : y - x < fuel) :
    ∃ node', countNodes page (y + 1) fuel node = some node' ∧ Cursor k n ts q y t' node' ∧
      SameLevel node node' := by
  induction fuel generalizing x t node with
  | zero => exact absurd hfuel (Nat.not_lt_zero _)
  | succ fuel ih =>
    have hboth := h.both
    obtain ⟨hlt, -⟩ := List.getElem?_eq_some_iff.mp ht'
    rw [countNodes]
    rcases Nat.eq_or_lt_of_le hy with rfl | hxy
    · obtain rfl := Option.some.inj (h.here.symm.trans ht')
      rw [if_neg (by omega)]
      exact ⟨node, rfl, h, rfl, rfl, rfl⟩
    · obtain ⟨t₁, ht₁⟩ : ∃ t₁, (Trie.levelAt q ts)[x + 1]? = some t₁ :=
        ⟨_, List.getElem?_eq_getElem (by omega)⟩
      obtain ⟨node₁, hnext, hcursor, hsame⟩ := h.next hpage ht₁
      obtain ⟨node', hloop, hcursor', hsame'⟩ := ih hcursor hxy (by omega)
      refine ⟨node', ?_, hcursor', hsame.trans hsame'⟩
      rw [if_pos (by omega), hnext, Option.bind_some, hloop]

/-- The counts of a page lead to the children `b` to `b + n` of its level; the page `i` of those
below begins with the node `start i`. -/
structure PageLinks (page : Archie.TriePage) (b n base : ℕ) (start : ℕ → ℕ) : Prop where
  bCount : page.bCount = b
  window : n ≠ 0 → ∃ f w, page.firstChildPage = (base + f : ℕ) ∧
    page.tCount = (List.range w).map (fun i => (start (f + i) : ℤ)) ∧ start f ≤ b ∧
    ∃ i, i + 1 < w ∧ b + n ≤ start (f + (i + 1))

/-- The child page that has a node. -/
theorem childPageIdx_spec {f w p : ℕ} {start : ℕ → ℕ} (hfirst : start f < p)
    (hlast : ∃ i, i + 1 < w ∧ p ≤ start (f + (i + 1))) :
    ∃ i, childPageIdx ((List.range w).map fun i => (start (f + i) : ℤ)) p = some (i + 1) ∧
      i + 1 < w ∧ start (f + i) < p ∧ p ≤ start (f + (i + 1)) := by
  obtain ⟨j, hj, hpj⟩ := hlast
  obtain ⟨entries, hentries⟩ : ∃ l, l = (List.range w).map fun i => (start (f + i) : ℤ) := ⟨_, rfl⟩
  have hget : ∀ i < w, entries[i]? = some (start (f + i) : ℤ) := by
    intro i hi
    rw [hentries, List.getElem?_map, List.getElem?_range hi]
    rfl
  have hdrop : ∀ i, i + 1 < w → (entries.drop 1)[i]? = some (start (f + (i + 1)) : ℤ) := by
    intro i hi
    rw [List.getElem?_drop, Nat.add_comm 1 i, hget _ hi]
  have hmem : (start (f + (j + 1)) : ℤ) ∈ entries.drop 1 := List.mem_of_getElem? (hdrop j hj)
  have hfound : ((entries.drop 1).findIdx? fun c => (p : ℤ) ≤ c) =
      some ((entries.drop 1).findIdx fun c => (p : ℤ) ≤ c) :=
    List.findIdx?_eq_some_of_exists ⟨_, hmem, decide_eq_true (by omega)⟩
  obtain ⟨i, hi⟩ : ∃ i, i = (entries.drop 1).findIdx fun c => (p : ℤ) ≤ c := ⟨_, rfl⟩
  rw [← hi] at hfound
  obtain ⟨hlen, hle, hbefore⟩ := List.findIdx?_eq_some_iff_getElem.mp hfound
  have hw : i + 1 < w := by
    rw [List.length_drop, hentries, List.length_map, List.length_range] at hlen
    omega
  have hle' : p ≤ start (f + (i + 1)) := by
    have heq := Option.some.inj ((List.getElem?_eq_getElem hlen).symm.trans (hdrop i hw))
    rw [heq] at hle
    have hle := of_decide_eq_true hle
    omega
  refine ⟨i, ?_, hw, ?_, hle'⟩
  · rw [childPageIdx, ← hentries, hfound]
    rfl
  · cases i with
    | zero => exact hfirst
    | succ i =>
      have hlt : i < (entries.drop 1).length := by omega
      have hnot := hbefore i (Nat.lt_succ_self i)
      have heq := Option.some.inj ((List.getElem?_eq_getElem hlt).symm.trans (hdrop i (by omega)))
      rw [heq, decide_eq_true_eq] at hnot
      omega

/-- **The child on another page.** -/
theorem getChildPage_spec {cf : PagedTrie} {node : PatrieNode} {child : Child} {s : ℕ}
    {l r : Trie ℕ} {b m base : ℕ} {start : ℕ → ℕ} {segment : ℕ → List (Trie ℕ)}
    {P : ℕ → Archie.TriePage → ℕ → ℕ → Prop} (h : Cursor k n ts q x (.node s l r) node)
    (hlinks : PageLinks page b m base start)
    (hplace : childPlace child (Trie.levelAt q ts) x < m)
    (hstart : ∀ i, start (i + 1) = start i + (segment i).length)
    (hpages : ∀ i, segment i ≠ [] → ∃ page' k' n', loadPage cf (base + i : ℕ) = some page' ∧
      PageNodes page' k' n' (segment i) ∧ 0 < n' ∧ P i page' k' n') :
    ∃ i y page' k' n' node', getChildPage cf child page node = some (node', page') ∧
      loadPage cf (base + i : ℕ) = some page' ∧ PageNodes page' k' n' (segment i) ∧
      P i page' k' n' ∧ start i + y = b + childPlace child (Trie.levelAt q ts) x ∧
      y < (segment i).length ∧
      (∀ t', (segment i)[y]? = some t' → Cursor k' n' (segment i) 0 y t' node' ∧
        (t'.isNode = true → node'.height = node.height + 1 + node'.val)) ∧
      node'.lev = node.lev + 1 ∧ node'.pageNum = (base + i : ℕ) := by
  obtain ⟨f, w, hfirst, hcounts, hf, j, hj, hlast⟩ := hlinks.window (by omega)
  obtain ⟨p, hp⟩ : ∃ p, p = b + childPlace child (Trie.levelAt q ts) x := ⟨_, rfl⟩
  obtain ⟨i, hidx, hi, hlt, hle⟩ :=
    @childPageIdx_spec f w (p + 1) start (by omega) ⟨j, hj, by omega⟩
  have hlen := hstart (f + i)
  rw [Nat.add_assoc] at hlen
  have hne : segment (f + i) ≠ [] := by
    intro hnil
    rw [hnil, List.length_nil] at hlen
    omega
  obtain ⟨page', k', n', hload, hnodes, hn', hP⟩ := hpages (f + i) hne
  obtain ⟨y, hy⟩ : ∃ y, y = p - start (f + i) := ⟨_, rfl⟩
  have hylt : y < (segment (f + i)).length := by omega
  have hpos : 0 < (segment (f + i)).length := by omega
  obtain ⟨t₀, ht₀⟩ : ∃ t₀, (Trie.levelAt 0 (segment (f + i)))[0]? = some t₀ :=
    ⟨_, List.getElem?_eq_getElem hpos⟩
  obtain ⟨t', ht'⟩ : ∃ t', (Trie.levelAt 0 (segment (f + i)))[y]? = some t' :=
    ⟨_, List.getElem?_eq_getElem hylt⟩
  obtain ⟨node₀, hread, hcursor₀, hsame₀⟩ := @readNode_spec page' k' n' 0 0 (segment (f + i)) t₀
    { node with
      lev := node.lev + 1
      tnode := (start (f + (i + 1)) : ℤ) - start (f + i)
      height := node.height + 1
      inode := 0
      enode := 0
      pos := page'.nodeBitOff
      pageNum := page'.pageNum } hnodes hn' ht₀ hnodes.off rfl rfl (by
        rw [Trie.levelAt_zero, hlen]
        dsimp only
        omega)
  obtain ⟨hword, -⟩ := hnodes.word 0 y t' hn' ht'
  obtain ⟨hbits, -⟩ := List.getElem?_eq_some_iff.mp hword
  obtain ⟨node', hcount, hcursor, hsame⟩ :=
    @countNodes_spec page' k' n' 0 0 _ t₀ (page'.bits.length + 1) y node₀ t' hcursor₀ hnodes
      (Nat.zero_le y) ht' (by omega)
  refine ⟨f + i, y, page', k', n', if node'.isSkip ≠ 0 then
    { node' with height := node'.height + node'.val } else node', ?_, hload, hnodes, hP, by omega,
    hylt, ?_, ?_, ?_⟩
  · have hposition : childPositionOf child (node.inode * 2 + page.bCount) = ((p + 1 : ℕ) : ℤ) := by
      rw [Int.mul_comm, hlinks.bCount, h.childPositionOf, hp]
      rfl
    have hget : ∀ i < w, page.tCount[i]? = some (start (f + i) : ℤ) := by
      intro i hi
      rw [hcounts, List.getElem?_map, List.getElem?_range hi]
      rfl
    have hnum : page.firstChildPage + ((i + 1 : ℕ) : ℤ) - 1 = ((base + (f + i) : ℕ) : ℤ) := by
      rw [hfirst]
      omega
    have hrest : ((p + 1 : ℕ) : ℤ) - start (f + i) = y + 1 := by omega
    rw [getChildPage, hposition, hcounts, hidx, ← hcounts]
    simp only [Option.bind_eq_bind, Option.bind_some, Nat.add_sub_cancel, hget i (by omega),
      hget (i + 1) hi, hnum, hload, hread, hrest, hcount]
  · intro t₁ ht₁
    obtain rfl : t' = t₁ := Option.some.inj (ht'.symm.trans ht₁)
    constructor
    · split
      · exact ⟨hcursor.level, hcursor.here, hcursor.pos, hcursor.inode, hcursor.both, hcursor.tnode,
          hcursor.skip, hcursor.val⟩
      · exact hcursor
    · intro hnode
      have hskip := hcursor.skip
      rw [hnode, if_pos rfl] at hskip
      rw [if_pos (by rw [hskip]; exact Int.one_ne_zero)]
      dsimp only
      rw [hsame.height, hsame₀.height]
  · split <;> exact hsame.lev.trans hsame₀.lev
  · have hnum : node'.pageNum = (base + (f + i) : ℕ) := by
      rw [hsame.pageNum, hsame₀.pageNum]
      exact loadPage_pageNum hload
    split <;> exact hnum

end

/-! ### The whole trie -/

/-- Where a segment of a list of segments begins. -/
def segStart {α : Type*} (segs : List (List α)) (i : ℕ) : ℕ := (segs.take i).flatten.length

theorem take_succ_flatten {α : Type*} (segs : List (List α)) (i : ℕ) :
    (segs.take (i + 1)).flatten = (segs.take i).flatten ++ segs.getD i [] := by
  rw [List.take_add_one, List.flatten_append, List.getD_eq_getElem?_getD]
  cases segs[i]? <;> simp

theorem segStart_succ {α : Type*} (segs : List (List α)) (i : ℕ) :
    segStart segs (i + 1) = segStart segs i + (segs.getD i []).length := by
  rw [segStart, take_succ_flatten, List.length_append]
  rfl

theorem flatten_split {α : Type*} (segs : List (List α)) (i : ℕ) :
    segs.flatten = (segs.take i).flatten ++ segs.getD i [] ++ (segs.drop (i + 1)).flatten := by
  rw [← take_succ_flatten, ← List.flatten_append, List.take_append_drop]

theorem getElem?_flatten {α : Type*} {segs : List (List α)} {i y : ℕ}
    (hy : y < (segs.getD i []).length) :
    segs.flatten[segStart segs i + y]? = (segs.getD i [])[y]? := by
  rw [flatten_split segs i, List.append_assoc, List.getElem?_append_right (by rw [segStart]; omega),
    segStart, Nat.add_sub_cancel_left, List.getElem?_append_left hy]

/-- The pages of a trie: those of the `i`-th levels from above begin at the page `base i`, and have
the subtries `segs i`. -/
structure PagesOf (cf : PagedTrie) (k p : ℕ) (t : Trie ℕ) (base : ℕ → ℕ)
    (segs : ℕ → List (List (Trie ℕ))) : Prop where
  levelsPerPage : cf.levelsPerPage = k
  height : t.height ≤ p * k
  forest : ∀ i < p, (segs i).flatten = Trie.levelAt (i * k) [t]
  ne : ∀ i < p, ∀ seg ∈ segs i, seg ≠ []
  page : ∀ i < p, ∀ j seg, (segs i)[j]? = some seg → ∃ page off n,
    loadPage cf (base i + j : ℕ) = some page ∧ PageNodes page off n seg ∧ CutAt n k seg ∧ 0 < n ∧
    PageLinks page (Trie.levelAt k ((segs i).take j).flatten).length (Trie.levelAt k seg).length
      (base (i + 1)) (segStart (segs (i + 1)))
  last : base 0 + (segs 0).length = cf.pages.length

section

variable {cf : PagedTrie} {k p : ℕ} {t : Trie ℕ} {base : ℕ → ℕ} {segs : ℕ → List (List (Trie ℕ))}

/-- A place of the reader, on the page `j` of the `i`-th levels. -/
structure Place (cf : PagedTrie) (k p : ℕ) (base : ℕ → ℕ) (segs : ℕ → List (List (Trie ℕ)))
    (i j q x : ℕ) (t : Trie ℕ) (d : ℤ) (node : PatrieNode) : Prop where
  level : i < p
  cursor : ∃ seg page off n, (segs i)[j]? = some seg ∧ loadPage cf (base i + j : ℕ) = some page ∧
    PageNodes page off n seg ∧ CutAt n k seg ∧
    PageLinks page (Trie.levelAt k ((segs i).take j).flatten).length (Trie.levelAt k seg).length
      (base (i + 1)) (segStart (segs (i + 1))) ∧
    Cursor off n seg q x t node
  lev : node.lev = (i * k + q + 1 : ℕ)
  pageNum : node.pageNum = (base i + j : ℕ)
  height : t.isNode = true → node.height = d + node.val

/-- From a place the reader finds both children, at places of theirs. -/
theorem Place.child {i j q x s : ℕ} {l r : Trie ℕ} {d : ℤ} {node : PatrieNode}
    (hpages : PagesOf cf k p t base segs) (h : Place cf k p base segs i j q x (.node s l r) d node)
    (child : Child) :
    ∃ page, page.Loaded cf ∧
      ∃ node' page', getPagedTrieChild cf child node page = some (node', page') ∧
      page'.Loaded cf ∧
      ∃ i' j' q' x', Place cf k p base segs i' j' q' x' (childOf child l r) (d + s + 1) node' := by
  obtain ⟨seg, page, off, n, hseg, hload, hnodes, hcut, hlinks, hcursor⟩ := h.cursor
  have hnum := loadPage_pageNum hload
  have hloaded : page.Loaded cf := by
    rw [Archie.TriePage.Loaded, hnum, hload]
  have hpage : nodePage cf node page = some page := by
    rw [nodePage, if_neg]
    rw [h.pageNum, hnum]
    exact not_not.mpr rfl
  have hheight : node.height = d + s := by
    rw [h.height rfl, hcursor.val]
    rfl
  have hchild := getElem?_childPlace child hcursor.here
  rw [← Trie.levelAt_succ] at hchild
  have hsub : Trie.levelAt (q + 1) seg ≠ [] := by
    intro hnil
    rw [hnil] at hchild
    exact absurd hchild (by simp)
  have hqn := hcursor.level
  have hqk : q < k := Nat.lt_of_lt_of_le hqn hcut.1
  refine ⟨page, hloaded, ?_⟩
  rcases Nat.eq_or_lt_of_le (Nat.succ_le_of_lt hqk) with hlast | hmore
  · -- The children are on other pages.
    have hmod : node.lev % cf.levelsPerPage = 0 := by
      rw [h.lev, hpages.levelsPerPage, Nat.add_assoc, show q + 1 = k from hlast, ← Nat.succ_mul]
      exact Int.emod_eq_zero_of_dvd (by exact_mod_cast Nat.dvd_mul_left k (i + 1))
    rw [show q + 1 = k from hlast] at hchild hsub
    obtain ⟨hplace, -⟩ := List.getElem?_eq_some_iff.mp hchild
    have hforest : Trie.levelAt ((i + 1) * k) [t] =
        Trie.levelAt k ((segs i).take j).flatten ++ Trie.levelAt k seg ++
          Trie.levelAt k ((segs i).drop (j + 1)).flatten := by
      rw [Nat.succ_mul, Nat.add_comm, Trie.levelAt_add, ← hpages.forest i h.level,
        flatten_split (segs i) j, List.getD_eq_getElem?_getD, hseg, Option.getD_some,
        Trie.levelAt_append, Trie.levelAt_append]
    have hnext : i + 1 < p := by
      by_contra hge
      have hnil : Trie.levelAt ((i + 1) * k) [t] = [] := by
        refine Trie.levelAt_singleton_eq_nil (Nat.le_trans hpages.height ?_)
        exact Nat.mul_le_mul_right k (by omega)
      rw [hforest] at hnil
      exact hsub (List.append_eq_nil_iff.mp (List.append_eq_nil_iff.mp hnil).1).2
    have hfound : ∀ i', (segs (i + 1)).getD i' [] ≠ [] →
        (segs (i + 1))[i']? = some ((segs (i + 1)).getD i' []) := by
      intro i' hne
      rw [List.getD_eq_getElem?_getD] at hne ⊢
      cases hi' : (segs (i + 1))[i']? with
      | none =>
        rw [hi'] at hne
        exact absurd rfl hne
      | some seg' => rfl
    obtain ⟨i', y, page', off', n', node', hget, hload', hnodes', ⟨hcut', hlinks'⟩, hsum, hy,
      hcursor', hlev', hnum'⟩ :=
      @getChildPage_spec page off n q x seg cf node child s l r _ _ (base (i + 1))
        (segStart (segs (i + 1))) (fun i' => (segs (i + 1)).getD i' [])
        (fun i' page' _ n' => CutAt n' k ((segs (i + 1)).getD i' []) ∧
          PageLinks page' (Trie.levelAt k ((segs (i + 1)).take i').flatten).length
            (Trie.levelAt k ((segs (i + 1)).getD i' [])).length (base (i + 1 + 1))
            (segStart (segs (i + 1 + 1)))) hcursor hlinks hplace
        (segStart_succ _) (fun i' hne => by
          obtain ⟨page', off', n', hload', hnodes', hcut', hn', hlinks'⟩ :=
            hpages.page (i + 1) hnext i' _ (hfound i' hne)
          exact ⟨page', off', n', hload', hnodes', hn', hcut', hlinks'⟩)
    have hne : (segs (i + 1)).getD i' [] ≠ [] := List.ne_nil_of_length_pos (by omega)
    have hchild' : ((segs (i + 1)).getD i' [])[y]? = some (childOf child l r) := by
      rw [← getElem?_flatten hy, hpages.forest (i + 1) hnext, hforest, hsum,
        List.append_assoc, List.getElem?_append_right (Nat.le_add_right _ _),
        Nat.add_sub_cancel_left, List.getElem?_append_left hplace, hchild]
    obtain ⟨hcur, hheight'⟩ := hcursor' _ hchild'
    refine ⟨node', page', ?_, ?_, i + 1, i', 0, y, hnext,
      ⟨_, page', off', n', hfound i' hne, hload', hnodes', hcut', hlinks', hcur⟩, ?_, hnum', ?_⟩
    · rw [getPagedTrieChild, hpage]
      simp only [Option.bind_eq_bind, Option.bind_some]
      rw [if_neg (not_not.mpr hmod), hget]
    · rw [Archie.TriePage.Loaded, loadPage_pageNum hload', hload']
    · rw [hlev', h.lev, Nat.succ_mul, ← hlast]
      omega
    · intro hnode
      rw [hheight' hnode, hheight]
  · have hmod : node.lev % cf.levelsPerPage ≠ 0 := by
      rw [h.lev, hpages.levelsPerPage]
      have hrem : ((i * k + q + 1 : ℕ) : ℤ) % (k : ℤ) = ((q + 1 : ℕ) : ℤ) := by
        rw [← Int.natCast_mod, Nat.add_assoc, Nat.mul_comm, Nat.mul_add_mod,
          Nat.mod_eq_of_lt hmore]
      rw [hrem]
      omega
    have hqn' : q + 1 < n := by
      rcases hcut.2 with rfl | hnil
      · exact hmore
      · by_contra hge
        have heq : q + 1 = n := by omega
        rw [heq] at hsub
        exact hsub hnil
    obtain ⟨node', hget, hcursor', hlev', hnum', hheight'⟩ :=
      getTrieChild_spec child hcursor hnodes hqn'
    refine ⟨node', page, ?_, hloaded, i, j, q + 1, _, h.level,
      ⟨seg, page, off, n, hseg, hload, hnodes, hcut, hlinks, hcursor'⟩, ?_, ?_, ?_⟩
    · rw [getPagedTrieChild, hpage]
      simp only [Option.bind_eq_bind, Option.bind_some, if_pos hmod, hget]
    · rw [hlev', h.lev]
      omega
    · rw [hnum', h.pageNum]
    · intro hnode
      rw [hheight' hnode, hheight]

/-- From a place the reader finds the whole subtrie. -/
theorem Place.reads (hpages : PagesOf cf k p t base segs) {u : Trie ℕ} {i j q x : ℕ} {d : ℤ}
    {node : PatrieNode} (h : Place cf k p base segs i j q x u d node) : Reads cf u d node := by
  induction u generalizing i j q x d node with
  | leaf a =>
    obtain ⟨seg, page, off, n, -, -, -, -, -, hcursor⟩ := h.cursor
    exact ⟨hcursor.skip, hcursor.val⟩
  | node s l r ihl ihr =>
    obtain ⟨seg, page₀, off, n, -, -, -, -, -, hcursor⟩ := h.cursor
    have hskip : node.isSkip ≠ 0 := by
      rw [hcursor.skip]
      exact Int.one_ne_zero
    have hval : node.val = s := hcursor.val
    have hheight : node.height = d + s := by rw [h.height rfl, hval]
    obtain ⟨page, hloaded, left, pl, hleft, hpl, il, jl, ql, xl, hl⟩ := h.child hpages .left
    obtain ⟨page', hloaded', right, pr, hright, hpr, ir, jr, qr, xr, hr⟩ := h.child hpages .right
    rw [getPagedTrieChild_loaded hloaded' hloaded] at hright
    exact reads_node hskip hval hheight hloaded ⟨left, pl, hleft, hpl, ihl hl⟩
      ⟨right, pr, hright, hpr, ihr hr⟩

/-- The root is alone on the last page. -/
theorem PagesOf.reads_root (hpages : PagesOf cf k p t base segs) (hp : 0 < p) :
    ∃ root page, getTrieRoot cf = some (root, page) ∧ page.Loaded cf ∧ Reads cf t (-1) root := by
  have hforest := hpages.forest 0 hp
  rw [Nat.zero_mul, Trie.levelAt_zero] at hforest
  have hne := hpages.ne 0 hp
  have hsegs : segs 0 = [[t]] := by
    cases hs : segs 0 with
    | nil =>
      rw [hs] at hforest
      exact absurd hforest.symm (List.cons_ne_nil _ _)
    | cons seg rest =>
      rw [hs] at hforest hne
      rw [List.flatten_cons] at hforest
      have hseg := hne seg List.mem_cons_self
      obtain ⟨rfl, hrest⟩ | ⟨hnil, -⟩ := List.append_eq_singleton_iff.mp hforest |>.symm
      · cases rest with
        | nil => rfl
        | cons seg' rest =>
          have hseg' := hne seg' (List.mem_cons_of_mem _ List.mem_cons_self)
          rw [List.flatten_cons] at hrest
          exact absurd (List.append_eq_nil_iff.mp hrest).1 hseg'
      · exact absurd hnil hseg
  obtain ⟨page, off, n, hload, hnodes, hcut, hn, hlinks⟩ :=
    hpages.page 0 hp 0 [t] (by rw [hsegs]; rfl)
  have hnum : ((cf.pages.length : ℤ) - 1) = ((base 0 + 0 : ℕ) : ℤ) := by
    have hlast := hpages.last
    rw [hsegs, List.length_singleton] at hlast
    omega
  have hpagenum := loadPage_pageNum hload
  obtain ⟨hword, hvalue⟩ := hnodes.word 0 0 t hn rfl
  have hget := getNodeAt_word hword hvalue
  have hoff : ((32 * (off + (levelsOf 0 [t]).flatten.length + 0) : ℕ) : ℤ) = page.nodeBitOff := by
    rw [hnodes.off]
    rfl
  rw [hoff] at hget
  have hloaded : page.Loaded cf := by
    rw [Archie.TriePage.Loaded, hpagenum, hload]
  obtain ⟨root, hroot⟩ : ∃ root : PatrieNode, root =
    { val := (rootNode t).value
      isSkip := if t.isNode then 1 else 0
      lev := 1
      height := (rootNode t).value - 1
      pos := page.nodeBitOff
      inode := if (if t.isNode then (1 : ℤ) else 0) ≠ 0 then 1 else 0
      enode := if (if t.isNode then (1 : ℤ) else 0) ≠ 0 then 0 else 1
      tnode := 1
      pageNum := page.pageNum } := ⟨_, rfl⟩
  refine ⟨root, page, ?_, hloaded, ?_⟩
  · rw [getTrieRoot, hnum, hload]
    simp only [Option.bind_eq_bind, Option.bind_some, hget]
    rw [hroot]
  · have hcursor : Cursor off n [t] 0 0 t root := by
      rw [hroot]
      refine ⟨hn, rfl, hoff.symm, ?_, ?_, rfl, rfl, rfl⟩
      · cases t <;> rfl
      · cases t <;> rfl
    refine @Place.reads cf k p t base segs hpages t 0 0 0 0 (-1) root
      ⟨hp, ⟨[t], page, off, n, by rw [hsegs]; rfl, hload, hnodes, hcut, hlinks, hcursor⟩,
        ?_, ?_, ?_⟩
    · rw [hroot, Nat.zero_mul]
      rfl
    · rw [hroot]
      exact hpagenum
    · intro _
      rw [hroot]
      dsimp only
      omega

end

end Archie.Paged
