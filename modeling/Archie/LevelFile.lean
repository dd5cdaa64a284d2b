/-
The level file (`defs.h`: `Node`; `page.c`: `readTriePage`, `nextNode`).

Each level of the trie is a chain of pages of nodes.  The last node of a page is
the number of the page that follows or else ends the level.  The file ends with
the number of the first page of each level and then the number of levels.

* `LevelHolds` — the nodes that `nextNode` returns for a level, one by one.
* `nextNode_none` — at the end of a level `nextNode` keeps returning 0.
* `levelHolds_unread` — a level that is on one page.
-/
import Archie.CInt
import Archie.LevelOrder

namespace Archie

open Patricia

/-- The types of a node: `HEIGHT_NODE` (which is `SKIP_NODE`), `START_NODE`,
`BLKNO_NODE` and `TERM_NODE`. -/
inductive NodeType
  | skip
  | start
  | blkno
  | term
  deriving DecidableEq, Repr

/-- `Node`: a type of two bits and a value of 30 bits. -/
structure Node where
  type : NodeType
  value : ℕ
  deriving DecidableEq, Repr

/-- The type field. -/
def NodeType.code : NodeType → ℕ
  | skip => 0
  | start => 1
  | blkno => 2
  | term => 3

/-- The type with a given field. -/
def NodeType.ofCode : ℕ → NodeType
  | 0 => skip
  | 1 => start
  | 2 => blkno
  | _ => term

/-- The word that holds a node; its first field has the top bits. -/
def Node.word (n : Node) : ℕ := n.type.code * 2 ^ 30 + n.value % 2 ^ 30

/-- The node in a word. -/
def Node.ofWord (w : ℕ) : Node := ⟨NodeType.ofCode (w / 2 ^ 30 % 4), w % 2 ^ 30⟩

theorem Node.ofWord_value_lt (w : ℕ) : (Node.ofWord w).value < 2 ^ 30 :=
  Nat.mod_lt _ (by norm_num)

theorem NodeType.ofCode_code (type : NodeType) : NodeType.ofCode (type.code % 4) = type := by
  cases type <;> rfl

theorem Node.ofWord_word {n : Node} (h : n.value < 2 ^ 30) : Node.ofWord n.word = n := by
  obtain ⟨type, value⟩ := n
  rw [Node.ofWord, Node.word]
  dsimp only at h ⊢
  have hdiv : (type.code * 2 ^ 30 + value % 2 ^ 30) / 2 ^ 30 = type.code := by omega
  have hmod : (type.code * 2 ^ 30 + value % 2 ^ 30) % 2 ^ 30 = value := by omega
  rw [hdiv, hmod, NodeType.ofCode_code]

theorem Node.word_lt (n : Node) : n.word < wordSize := by
  have hcode : n.type.code < 4 := by cases n.type <;> decide
  have hvalue := Nat.mod_lt n.value (show 0 < 2 ^ 30 by norm_num)
  unfold Node.word wordSize
  omega

/-! ### Bytes -/

/-- The bytes of a word, most significant first. -/
def wordBytes (w : ℕ) : List UInt8 :=
  [UInt8.ofNat (w / 2 ^ 24), UInt8.ofNat (w / 2 ^ 16), UInt8.ofNat (w / 2 ^ 8), UInt8.ofNat w]

/-- The word with the given bytes. -/
def bytesWord (bytes : List UInt8) : ℕ := bytes.foldl (fun w c => 256 * w + c.toNat) 0

@[simp] theorem length_wordBytes (w : ℕ) : (wordBytes w).length = 4 := rfl

theorem bytesWord_wordBytes {w : ℕ} (h : w < wordSize) : bytesWord (wordBytes w) = w := by
  unfold wordSize at h
  simp only [bytesWord, wordBytes, List.foldl_cons, List.foldl_nil, UInt8.toNat_ofNat']
  omega

/-- `fseek` from the beginning of a file and `fread`, when all can be read. -/
def freadAt (file : List UInt8) (off : ℤ) (n : ℕ) : Option (List UInt8) :=
  if off < 0 then none
  else if ((file.drop off.toNat).take n).length = n then some ((file.drop off.toNat).take n)
  else none

/-- Reads an `int`. -/
def readInt (file : List UInt8) (off : ℤ) : Option ℤ :=
  (freadAt file off 4).map fun bytes => sint (bytesWord bytes)

/-! ### The pages of a level -/

/-- `struct trie_single_level`; `rest` is what a page holds after its last
node. -/
structure SingleLevel where
  firstPageNum : ℤ
  pageNum : ℤ
  used : ℕ
  nextNode : ℕ
  node : List Node
  rest : List UInt8
  deriving DecidableEq, Repr

/-- `_patrieNewSingleLevel`. -/
def newSingleLevel (levelPageSize : ℕ) : SingleLevel :=
  { firstPageNum := -1
    pageNum := -1
    used := 0
    nextNode := 0
    node := List.replicate (levelPageSize / 4) (Node.ofWord 0x7f7f7f7f)
    rest := List.replicate (levelPageSize % 4) 0x7f }

/-- The nodes in the bytes of a page. -/
def pageNodes : List UInt8 → List Node
  | a :: b :: c :: d :: bytes => Node.ofWord (bytesWord [a, b, c, d]) :: pageNodes bytes
  | _ => []

/-- `setNodesUsed`. -/
def setNodesUsed (level : SingleLevel) : Option SingleLevel :=
  (level.node.findIdx? fun n => n.type = .blkno ∨ n.type = .term).map fun i =>
    { level with used := i + 1 }

/-- `readTriePage`. -/
def readTriePage (levelPageSize : ℕ) (file : List UInt8) (pageNum : ℤ) (level : SingleLevel) :
    Option SingleLevel := do
  let bytes ← freadAt file (pageNum * levelPageSize) levelPageSize
  setNodesUsed
    { level with
      node := pageNodes bytes
      rest := bytes.drop (4 * (levelPageSize / 4))
      pageNum := pageNum }

/-- The loop of `nextNode`, which follows the numbers of pages. -/
def followPages (levelPageSize : ℕ) (file : List UInt8) :
    ℕ → SingleLevel → Option (Node × SingleLevel)
  | 0, _ => none
  | fuel + 1, lev => do
    let node ← lev.node[lev.nextNode]?
    if node.type = .blkno then
      let lev ← readTriePage levelPageSize file node.value lev
      followPages levelPageSize file fuel { lev with nextNode := 0 }
    else some (node, lev)

/-- The first page of the level, if it has not yet been read in. -/
def firstPage (levelPageSize : ℕ) (file : List UInt8) (lev : SingleLevel) : Option SingleLevel :=
  if lev.used = 0 then
    (readTriePage levelPageSize file lev.firstPageNum lev).map fun lev => { lev with nextNode := 0 }
  else some lev

/-- `nextNode`: the next node of the level, or none if it returns 0. -/
def nextNode (levelPageSize : ℕ) (file : List UInt8) (lev : SingleLevel) :
    Option (Option Node × SingleLevel) := do
  let lev ← firstPage levelPageSize file lev
  let (node, lev) ← followPages levelPageSize file (file.length + 1) lev
  some (if node.type = .term then (none, lev)
    else (some node, { lev with nextNode := lev.nextNode + 1 }))

/-- `_patriePagedBuild` reads the number of the first page of each level from the
end of the file. -/
def readFirstPages (file : List UInt8) : Option (List ℤ) := do
  let nlevs ← readInt file (file.length - 4)
  if nlevs < 0 then none
  else (List.range nlevs.toNat).mapM fun i => readInt file (file.length - (1 + nlevs) * 4 + i * 4)

/-! ### What a level holds -/

/-- `nextNode` returns these nodes and then 0. -/
def LevelHolds (levelPageSize : ℕ) (file : List UInt8) : List Node → SingleLevel → Prop
  | [], lev => ∃ lev', nextNode levelPageSize file lev = some (none, lev')
  | n :: ns, lev => ∃ lev', nextNode levelPageSize file lev = some (some n, lev') ∧
      LevelHolds levelPageSize file ns lev'

variable {levelPageSize : ℕ} {file : List UInt8}

theorem pageNodes_value_lt {n : Node} (bytes : List UInt8) (h : n ∈ pageNodes bytes) :
    n.value < 2 ^ 30 := by
  fun_induction pageNodes bytes with
  | case1 a b c d bytes ih =>
    obtain rfl | h := List.mem_cons.mp h
    · exact Node.ofWord_value_lt _
    · exact ih h
  | case2 => exact absurd h List.not_mem_nil

theorem setNodesUsed_used {level level' : SingleLevel} (h : setNodesUsed level = some level') :
    level'.used ≠ 0 ∧ level'.node = level.node := by
  obtain ⟨i, -, rfl⟩ := Option.map_eq_some_iff.mp h
  exact ⟨Nat.succ_ne_zero i, rfl⟩

theorem readTriePage_spec {pageNum : ℤ} {level level' : SingleLevel}
    (h : readTriePage levelPageSize file pageNum level = some level') :
    level'.used ≠ 0 ∧ ∀ n ∈ level'.node, n.value < 2 ^ 30 := by
  obtain ⟨bytes, -, h⟩ := Option.bind_eq_some_iff.mp h
  obtain ⟨hused, hnode⟩ := setNodesUsed_used h
  refine ⟨hused, fun n hn => ?_⟩
  rw [hnode] at hn
  exact pageNodes_value_lt bytes hn

/-- A page that has been read in. -/
def SingleLevel.Read (lev : SingleLevel) : Prop :=
  lev.used ≠ 0 ∧ ∀ n ∈ lev.node, n.value < 2 ^ 30

theorem followPages_spec {fuel : ℕ} {lev lev' : SingleLevel} {node : Node} (hlev : lev.Read)
    (h : followPages levelPageSize file fuel lev = some (node, lev')) :
    lev'.Read ∧ lev'.node[lev'.nextNode]? = some node ∧ node.type ≠ .blkno := by
  induction fuel generalizing lev with
  | zero => exact absurd h (by simp [followPages])
  | succ fuel ih =>
    obtain ⟨n, hn, h⟩ := Option.bind_eq_some_iff.mp h
    split at h
    next =>
      obtain ⟨lev₁, hread, h⟩ := Option.bind_eq_some_iff.mp h
      have hread₁ : SingleLevel.Read { lev₁ with nextNode := 0 } := by
        obtain ⟨hused, hvalue⟩ := readTriePage_spec hread
        exact ⟨hused, hvalue⟩
      exact ih hread₁ h
    next hne =>
      obtain ⟨rfl, rfl⟩ := Prod.mk.inj (Option.some.inj h)
      exact ⟨hlev, hn, hne⟩

theorem firstPage_read {lev lev' : SingleLevel}
    (hlev : lev.used ≠ 0 → lev.Read) (h : firstPage levelPageSize file lev = some lev') :
    lev'.Read := by
  rw [firstPage] at h
  split at h
  next =>
    obtain ⟨lev₁, hread, rfl⟩ := Option.map_eq_some_iff.mp h
    obtain ⟨hused, hvalue⟩ := readTriePage_spec hread
    exact ⟨hused, hvalue⟩
  next hused =>
    rw [← Option.some.inj h]
    exact hlev hused

/-- A level of which no page has been read, or else whose page comes from the
file. -/
def SingleLevel.Open (lev : SingleLevel) : Prop := lev.used ≠ 0 → lev.Read

/-- What a call of `nextNode` does. -/
theorem nextNode_spec {lev lev' : SingleLevel} {node : Option Node} (hlev : lev.Open)
    (h : nextNode levelPageSize file lev = some (node, lev')) :
    lev'.Open ∧ (∀ n ∈ node, n.value < 2 ^ 30) ∧
    (node = none → nextNode levelPageSize file lev' = some (none, lev')) := by
  obtain ⟨lev₁, hfirst, h⟩ := Option.bind_eq_some_iff.mp h
  obtain ⟨⟨n, lev₂⟩, hfollow, h⟩ := Option.bind_eq_some_iff.mp h
  obtain ⟨hread, hnode, hne⟩ := followPages_spec (firstPage_read hlev hfirst) hfollow
  dsimp only at hread hnode hne h
  split at h
  next hterm =>
    obtain ⟨rfl, rfl⟩ := Prod.mk.inj (Option.some.inj h)
    refine ⟨fun _ => hread, fun n hn => absurd hn (by simp), fun _ => ?_⟩
    have hstay : followPages levelPageSize file (file.length + 1) lev₂ = some (n, lev₂) := by
      simp [followPages, hnode, hne]
    rw [nextNode, firstPage, if_neg hread.1]
    simp [hstay, hterm]
  next =>
    obtain ⟨rfl, rfl⟩ := Prod.mk.inj (Option.some.inj h)
    refine ⟨fun _ => hread, fun m hm => ?_, fun hnone => absurd hnone (by simp)⟩
    rw [← Option.some.inj hm]
    exact hread.2 n (List.mem_of_getElem? hnode)

/-- At the end of a level `nextNode` keeps returning 0. -/
theorem nextNode_none {lev lev' : SingleLevel} (hlev : lev.Open)
    (h : nextNode levelPageSize file lev = some (none, lev')) :
    lev'.Open ∧ LevelHolds levelPageSize file [] lev' := by
  obtain ⟨hopen, -, hstay⟩ := nextNode_spec hlev h
  exact ⟨hopen, lev', hstay rfl⟩

/-- The nodes of a level have values of 30 bits. -/
theorem LevelHolds.value_lt {ns : List Node} {lev : SingleLevel} (hlev : lev.Open)
    (h : LevelHolds levelPageSize file ns lev) : ∀ n ∈ ns, n.value < 2 ^ 30 := by
  induction ns generalizing lev with
  | nil => exact fun n hn => absurd hn List.not_mem_nil
  | cons n ns ih =>
    obtain ⟨lev', hnext, h⟩ := h
    obtain ⟨hopen, hvalue, -⟩ := nextNode_spec hlev hnext
    intro m hm
    obtain rfl | hm := List.mem_cons.mp hm
    · exact hvalue m rfl
    · exact ih hopen h m hm

/-- The next node of a page that has been read in. -/
theorem nextNode_page {n : Node} {ns : List Node} {lev : SingleLevel} (hused : lev.used ≠ 0)
    (hnode : lev.node.drop lev.nextNode = n :: ns) (hn : n.type ≠ .blkno) :
    nextNode levelPageSize file lev = some (if n.type = .term then (none, lev)
      else (some n, { lev with nextNode := lev.nextNode + 1 })) := by
  have hget : lev.node[lev.nextNode]? = some n := by
    have hdrop := congrArg (·[0]?) hnode
    rwa [List.getElem?_drop, Nat.add_zero] at hdrop
  rw [nextNode, firstPage, if_neg hused]
  simp only [Option.bind_eq_bind, Option.bind_some, followPages, hget, if_neg hn]

/-- A level that is on one page. -/
theorem levelHolds_page {ns rest : List Node} {v : ℕ} {lev : SingleLevel} (hused : lev.used ≠ 0)
    (hnode : lev.node.drop lev.nextNode = ns ++ ⟨.term, v⟩ :: rest)
    (hns : ∀ n ∈ ns, n.type = .skip ∨ n.type = .start) :
    LevelHolds levelPageSize file ns lev := by
  induction ns generalizing lev with
  | nil =>
    refine ⟨lev, ?_⟩
    rw [nextNode_page hused hnode NodeType.noConfusion]
    rfl
  | cons n ns ih =>
    obtain ⟨hn, hns'⟩ := List.forall_mem_cons.mp hns
    have hblkno : n.type ≠ .blkno := by
      rcases hn with hn | hn <;> rw [hn] <;> decide
    have hterm : n.type ≠ .term := by
      rcases hn with hn | hn <;> rw [hn] <;> decide
    refine ⟨{ lev with nextNode := lev.nextNode + 1 }, ?_, ih hused ?_ hns'⟩
    · rw [nextNode_page hused hnode hblkno, if_neg hterm]
    · show lev.node.drop (lev.nextNode + 1) = _
      rw [← List.drop_drop, hnode]
      rfl

/-- A level that is on one page, which has yet to be read. -/
theorem levelHolds_unread {ns : List Node} {v : ℕ} {lev : SingleLevel} (hused : lev.used = 0)
    (hpage : (readTriePage levelPageSize file lev.firstPageNum lev).map
      (fun lev => lev.node.take (ns.length + 1)) = some (ns ++ [⟨.term, v⟩]))
    (hns : ∀ n ∈ ns, n.type = .skip ∨ n.type = .start) :
    LevelHolds levelPageSize file ns lev := by
  obtain ⟨lev₁, hread, htake⟩ := Option.map_eq_some_iff.mp hpage
  have hused₁ : lev₁.used ≠ 0 := (readTriePage_spec hread).1
  have hnode : ({ lev₁ with nextNode := 0 } : SingleLevel).node.drop 0 =
      ns ++ ⟨.term, v⟩ :: lev₁.node.drop (ns.length + 1) := by
    show lev₁.node = _
    conv_lhs => rw [← List.take_append_drop (ns.length + 1) lev₁.node, htake]
    rw [List.append_assoc, List.singleton_append]
  have hholds : LevelHolds levelPageSize file ns { lev₁ with nextNode := 0 } :=
    levelHolds_page hused₁ hnode hns
  have hfirst : nextNode levelPageSize file lev =
      nextNode levelPageSize file { lev₁ with nextNode := 0 } := by
    have hold : firstPage levelPageSize file lev = some { lev₁ with nextNode := 0 } := by
      rw [firstPage, if_pos hused, hread, Option.map_some]
    have hnew : firstPage levelPageSize file { lev₁ with nextNode := 0 } =
        some { lev₁ with nextNode := 0 } := by
      rw [firstPage, if_neg hused₁]
    rw [nextNode, nextNode, hold, hnew]
  cases ns with
  | nil =>
    obtain ⟨lev', hnext⟩ := hholds
    exact ⟨lev', hfirst.trans hnext⟩
  | cons n ns =>
    obtain ⟨lev', hnext, hrest⟩ := hholds
    exact ⟨lev', hfirst.trans hnext, hrest⟩

/-! ### The level lists of a trie -/

/-- The root of a trie as a node. -/
def rootNode : Trie ℕ → Node
  | .leaf start => ⟨.start, start⟩
  | .node skip _ _ => ⟨.skip, skip⟩

/-- The nodes of a forest `n` levels below its roots. -/
def levelNodes (n : ℕ) (ts : List (Trie ℕ)) : List Node := (Trie.levelAt n ts).map rootNode

/-- The file holds the levels of a trie. -/
def LevelLists (levelPageSize : ℕ) (file : List UInt8) (t : Trie ℕ) : Prop :=
  ∃ first, readFirstPages file = some first ∧ first.length = t.height ∧
    ∀ d firstPageNum, first[d]? = some firstPageNum →
      LevelHolds levelPageSize file (levelNodes d [t])
        { newSingleLevel levelPageSize with firstPageNum := firstPageNum }

@[simp] theorem levelNodes_append (n : ℕ) (ts us : List (Trie ℕ)) :
    levelNodes n (ts ++ us) = levelNodes n ts ++ levelNodes n us := by
  simp [levelNodes]

theorem length_levelNodes (n : ℕ) (ts : List (Trie ℕ)) :
    (levelNodes n ts).length = (Trie.levelAt n ts).length := List.length_map _

end Archie
