/-
Writing the levels of a trie (`levels.c`: `writeTriePage`, `mergeSingleLevel`).

A level that is being built has its last nodes in memory and those before them in pages that are on
the file.  The number of the page for the nodes in memory is known before they are written, since
the page before it ends with that number.

* `appendLevels`, `writeTriePage`, `mergeSingleLevel` — the functions.
* `Chain` — the pages of a level that are on the file.
* `LevelHas` — the nodes of a level that is being built.
* `mergeSingleLevel_spec` — merging two levels puts the nodes of one behind those of the other.
-/
import Archie.LevelFile

namespace Archie.Levels

open Patricia

/-- The level file, where it is written next, and `nextAvailPage`. -/
structure LevelState where
  file : List UInt8
  pos : ℕ
  nextAvailPage : ℕ

/-- `fwrite` at an offset; what is left out before it is 0. -/
def writeAt (file : List UInt8) (off : ℕ) (bytes : List UInt8) : List UInt8 :=
  file.take off ++ List.replicate (off - file.length) 0 ++ bytes ++ file.drop (off + bytes.length)

/-- The number of nodes that a page has room for. -/
def nodesPerPage (levelPageSize : ℕ) : ℕ := levelPageSize / 4

/-- The bytes of some nodes. -/
def nodesBytes (nodes : List Node) : List UInt8 := nodes.flatMap fun node => wordBytes node.word

/-- `nodeAppend`; there is no result where it writes outside of the page. -/
def nodeAppend (node : Node) (level : SingleLevel) : Option SingleLevel :=
  if level.used < level.node.length then
    some { level with node := level.node.set level.used node, used := level.used + 1 }
  else none

section

variable (levelPageSize : ℕ)

/-- `appendLevels`: the destination and the source. -/
def appendLevels (dst src : SingleLevel) : Option (SingleLevel × SingleLevel) :=
  if nodesPerPage levelPageSize < dst.used + 1 then none
  else
    let copy := min (nodesPerPage levelPageSize - dst.used - 1) src.used
    some ({ dst with
        node := dst.node.take dst.used ++ src.node.take copy ++ dst.node.drop (dst.used + copy)
        used := dst.used + copy },
      { src with
        node := (src.node.take src.used).drop copy ++ src.node.drop (src.used - copy)
        used := src.used - copy })

/-- `writeTriePage`. -/
def writeTriePage (level : SingleLevel) (st : LevelState) : Option (SingleLevel × LevelState) :=
  let fresh := level.pageNum = -1
  let pageNum : ℤ := if fresh then st.nextAvailPage else level.pageNum
  if pageNum < 0 then none
  else
    some ({ level with
        pageNum := pageNum
        firstPageNum := if fresh then pageNum else level.firstPageNum
        used := 0
        node := List.replicate (nodesPerPage levelPageSize) (Node.ofWord 0)
        rest := List.replicate (levelPageSize % 4) 0 },
      { file :=
          writeAt st.file (pageNum.toNat * levelPageSize) (nodesBytes level.node ++ level.rest)
        pos := pageNum.toNat * levelPageSize + levelPageSize
        nextAvailPage := if fresh then st.nextAvailPage + 1 else st.nextAvailPage })

/-- `mergeSingleLevel`. -/
def mergeSingleLevel (left right : SingleLevel) (st : LevelState) :
    Option (SingleLevel × LevelState) :=
  if right.firstPageNum = -1 then do
    let (left, right) ← appendLevels levelPageSize left right
    if 0 < right.used then do
      let blkPtr : Node := ⟨.blkno, st.nextAvailPage % 2 ^ 30⟩
      let st := { st with nextAvailPage := st.nextAvailPage + 1 }
      let left ← nodeAppend blkPtr left
      let (left, st) ← writeTriePage levelPageSize left st
      let (left, _) ← appendLevels levelPageSize { left with pageNum := blkPtr.value } right
      some (left, st)
    else some (left, st)
  else do
    let blkPtr : Node := ⟨.blkno, (right.firstPageNum % 2 ^ 30).toNat⟩
    let left ← nodeAppend blkPtr left
    let (left, st) ← writeTriePage levelPageSize left st
    let (left, _) ← appendLevels levelPageSize { left with pageNum := right.pageNum } right
    some (left, st)

end

/-! ### Bytes of pages -/

theorem length_nodesBytes (nodes : List Node) : (nodesBytes nodes).length = 4 * nodes.length := by
  induction nodes with
  | nil => rfl
  | cons n nodes ih =>
    rw [nodesBytes, List.flatMap_cons, List.length_append, length_wordBytes, ← nodesBytes, ih,
      List.length_cons]
    omega

/-- Less than a node. -/
theorem pageNodes_eq_nil_iff {bytes : List UInt8} : pageNodes bytes = [] ↔ bytes.length < 4 := by
  rcases bytes with _ | ⟨a, _ | ⟨b, _ | ⟨c, _ | ⟨d, bytes⟩⟩⟩⟩
  all_goals simp [pageNodes]

/-- Nodes of 30 bits are read back. -/
theorem pageNodes_nodesBytes {nodes : List Node} (hnodes : ∀ n ∈ nodes, n.value < 2 ^ 30)
    (bytes : List UInt8) : pageNodes (nodesBytes nodes ++ bytes) = nodes ++ pageNodes bytes := by
  induction nodes with
  | nil => rfl
  | cons n nodes ih =>
    obtain ⟨hn, hnodes'⟩ := List.forall_mem_cons.mp hnodes
    have hword : Node.ofWord (bytesWord (wordBytes n.word)) = n := by
      rw [bytesWord_wordBytes n.word_lt, Node.ofWord_word hn]
    rw [nodesBytes, List.flatMap_cons, ← nodesBytes, List.append_assoc, List.cons_append,
      ← ih hnodes']
    show Node.ofWord (bytesWord (wordBytes n.word)) :: _ = _
    rw [hword]
    rfl

theorem length_writeAt (file : List UInt8) (off : ℕ) (bytes : List UInt8) :
    (writeAt file off bytes).length = max file.length (off + bytes.length) := by
  rw [writeAt, List.length_append, List.length_append, List.length_append, List.length_take,
    List.length_replicate, List.length_drop]
  omega

theorem length_front (file : List UInt8) (off : ℕ) :
    (file.take off ++ List.replicate (off - file.length) 0).length = off := by
  rw [List.length_append, List.length_take, List.length_replicate]
  omega

/-- What has been written is there. -/
theorem freadAt_writeAt (file : List UInt8) (off : ℕ) (bytes : List UInt8) :
    freadAt (writeAt file off bytes) off bytes.length = some bytes := by
  have hdrop : (writeAt file off bytes).drop off = bytes ++ file.drop (off + bytes.length) := by
    rw [writeAt, List.append_assoc _ bytes, List.drop_left' (length_front file off)]
  rw [freadAt, if_neg (by omega), Int.toNat_natCast, hdrop, List.take_left, if_pos rfl]

theorem freadAt_eq_some {file : List UInt8} {off n : ℕ} {bytes : List UInt8}
    (h : freadAt file off n = some bytes) :
    (file.drop off).take n = bytes ∧ bytes.length = n ∧ off + n ≤ max file.length off := by
  rw [freadAt, if_neg (by omega), Int.toNat_natCast] at h
  split at h
  next hlen =>
    obtain rfl := Option.some.inj h
    refine ⟨rfl, hlen, ?_⟩
    rw [List.length_take, List.length_drop] at hlen
    omega
  next => exact absurd h (by simp)

theorem freadAt_of_eq {file : List UInt8} {off n : ℕ} {bytes : List UInt8}
    (h : (file.drop off).take n = bytes) (hlen : bytes.length = n) :
    freadAt file off n = some bytes := by
  rw [freadAt, if_neg (by omega), Int.toNat_natCast, h, if_pos hlen]

/-- What is before or behind it stays as it is. -/
theorem freadAt_writeAt_other {file : List UInt8} {off off' n : ℕ} {bytes old : List UInt8}
    (hn : 0 < n) (hother : off' + n ≤ off ∨ off + bytes.length ≤ off')
    (h : freadAt file off' n = some old) : freadAt (writeAt file off bytes) off' n = some old := by
  obtain ⟨heq, hlen, hle⟩ := freadAt_eq_some h
  have hfile : off' + n ≤ file.length := by omega
  refine freadAt_of_eq ?_ hlen
  rw [← heq]
  rcases hother with hbefore | hbehind
  · have hlength : (file.take off).length = min off file.length := List.length_take
    have hrest : ((file.take off).drop off').length = min off file.length - off' := by
      rw [List.length_drop, hlength]
    rw [writeAt, List.append_assoc, List.append_assoc,
      List.drop_append_of_le_length (by rw [hlength]; omega),
      List.take_append_of_le_length (by rw [hrest]; omega), List.drop_take, List.take_take,
      show min n (off - off') = n by omega]
  · rw [writeAt, List.drop_append, List.length_append, length_front]
    rw [List.drop_of_length_le (by rw [List.length_append, length_front]; omega), List.nil_append,
      List.drop_drop]
    congr 2
    omega

/-! ### The pages of a level -/

section

variable {levelPageSize : ℕ} {st st' : LevelState} {W W' : ℕ → Prop}

/-- A page of the file begins with some nodes. -/
def PageHas (levelPageSize : ℕ) (file : List UInt8) (p : ℕ) (nodes : List Node) : Prop :=
  ∃ bytes rest, freadAt file (p * levelPageSize : ℕ) levelPageSize = some bytes ∧
    pageNodes bytes = nodes ++ rest

/-- The pages `W` of the file lead from one page to another, which has yet to be written, and have
some nodes. -/
inductive Chain (levelPageSize : ℕ) (file : List UInt8) (W : ℕ → Prop) :
    ℕ → ℕ → List Node → Prop
  | nil (p : ℕ) : Chain levelPageSize file W p p []
  | page {p q last : ℕ} {seg ns : List Node} : W p →
      PageHas levelPageSize file p (seg ++ [⟨.blkno, q⟩]) → seg ≠ [] →
      Chain levelPageSize file W q last ns → Chain levelPageSize file W p last (seg ++ ns)

/-- The pages `W` have been written, and they are in the file. -/
structure FileOk (levelPageSize : ℕ) (st : LevelState) (W : ℕ → Prop) : Prop where
  length : st.file.length ≤ st.nextAvailPage * levelPageSize
  lt : ∀ p, W p → p < st.nextAvailPage

/-- More pages are written: `own` and new ones.  Those that had been written stay as they are. -/
structure Grows (levelPageSize : ℕ) (st : LevelState) (W : ℕ → Prop) (st' : LevelState)
    (W' : ℕ → Prop) (own : List ℤ) : Prop where
  subset : ∀ p, W p → W' p
  keeps : ∀ p bytes, W p → freadAt st.file (p * levelPageSize : ℕ) levelPageSize = some bytes →
    freadAt st'.file (p * levelPageSize : ℕ) levelPageSize = some bytes
  le : st.nextAvailPage ≤ st'.nextAvailPage
  new : ∀ p, W' p → W p ∨ (p : ℤ) ∈ own ∨ st.nextAvailPage ≤ p

/-- What is in a page that has not been used. -/
def unusedNode : Node := Node.ofWord 0x7f7f7f7f

/-- A level that is being built: its nodes are in a chain of pages, which has yet to be ended, and
in memory. -/
structure LevelHas (levelPageSize : ℕ) (st : LevelState) (W : ℕ → Prop) (lev : SingleLevel)
    (ns : List Node) : Prop where
  length : lev.node.length = nodesPerPage levelPageSize
  rest : lev.rest.length = levelPageSize % 4
  values : ∀ n ∈ lev.node, n.value < 2 ^ 30
  pos : 0 < lev.used
  room : lev.used + 1 ≤ nodesPerPage levelPageSize
  unused : lev.pageNum = -1 → ∀ n ∈ lev.node.drop lev.used, n = unusedNode
  pages : lev.firstPageNum = -1 ∧ lev.pageNum = -1 ∧ ns = lev.node.take lev.used ∨
    ∃ (first last : ℕ) (ms : List Node), lev.firstPageNum = first ∧ lev.pageNum = last ∧
      Chain levelPageSize st.file W first last ms ∧ ns = ms ++ lev.node.take lev.used ∧
      ¬ W last ∧ last < st.nextAvailPage ∧ nodesPerPage levelPageSize ≤ ns.length

theorem Chain.append {file : List UInt8} {p q r : ℕ} {ns ms : List Node}
    (h : Chain levelPageSize file W p q ns) (h' : Chain levelPageSize file W q r ms) :
    Chain levelPageSize file W p r (ns ++ ms) := by
  induction h with
  | nil p => exact h'
  | page hw hpage hne _ ih =>
    rw [List.append_assoc]
    exact .page hw hpage hne (ih h')

theorem Grows.refl (levelPageSize : ℕ) (st : LevelState) (W : ℕ → Prop) (own : List ℤ) :
    Grows levelPageSize st W st W own :=
  ⟨fun _ h => h, fun _ _ _ h => h, Nat.le_refl _, fun _ h => Or.inl h⟩

theorem Grows.chain {own : List ℤ} {p q : ℕ} {ns : List Node}
    (h : Grows levelPageSize st W st' W' own) (hchain : Chain levelPageSize st.file W p q ns) :
    Chain levelPageSize st'.file W' p q ns := by
  induction hchain with
  | nil p => exact .nil p
  | page hw hpage hne _ ih =>
    obtain ⟨bytes, rest, hread, hnodes⟩ := hpage
    exact .page (h.subset _ hw) ⟨bytes, rest, h.keeps _ _ hw hread, hnodes⟩ hne ih

/-- A level does not change where other levels are written. -/
theorem LevelHas.mono {own : List ℤ} {lev : SingleLevel} {ns : List Node}
    (h : LevelHas levelPageSize st W lev ns) (hgrows : Grows levelPageSize st W st' W' own)
    (hown : 0 ≤ lev.pageNum → lev.pageNum ∉ own) : LevelHas levelPageSize st' W' lev ns := by
  refine ⟨h.length, h.rest, h.values, h.pos, h.room, h.unused, ?_⟩
  obtain hmem | ⟨first, last, ms, hfirst, hlast, hchain, hns, hw, hlt, hlen⟩ := h.pages
  · exact Or.inl hmem
  · refine Or.inr ⟨first, last, ms, hfirst, hlast, hgrows.chain hchain, hns, fun hw' => ?_,
      Nat.lt_of_lt_of_le hlt hgrows.le, hlen⟩
    rw [hlast] at hown
    rcases hgrows.new last hw' with hold | hin | hge
    · exact hw hold
    · exact hown (Int.natCast_nonneg last) hin
    · omega

end

/-! ### Appending nodes -/

section

variable {levelPageSize : ℕ}

theorem nodeAppend_spec {node : Node} {level : SingleLevel}
    (hroom : level.used + 1 ≤ level.node.length) :
    ∃ level', nodeAppend node level = some level' ∧ level'.used = level.used + 1 ∧
      level'.node.length = level.node.length ∧
      level'.node.take level'.used = level.node.take level.used ++ [node] ∧
      (∀ n ∈ level'.node, n ∈ level.node ∨ n = node) ∧ level'.rest = level.rest ∧
      level'.firstPageNum = level.firstPageNum ∧ level'.pageNum = level.pageNum ∧
      level'.node.drop level'.used = level.node.drop (level.used + 1) := by
  refine ⟨_, if_pos hroom, rfl, List.length_set, ?_, ?_, rfl, rfl, rfl,
    List.drop_set_of_lt (Nat.lt_succ_self _)⟩
  · dsimp only
    rw [List.take_add_one, List.take_set_of_le (Nat.le_refl _),
      List.getElem?_set_self (by omega)]
    rfl
  · exact fun n hn => (List.mem_or_eq_of_mem_set hn)

/-- Overwriting a part of a list. -/
theorem take_overwrite {α : Type*} {a b : List α} {k c : ℕ} (ha : k + c ≤ a.length)
    (hb : c ≤ b.length) :
    (a.take k ++ b.take c ++ a.drop (k + c)).take (k + c) = a.take k ++ b.take c ∧
      (a.take k ++ b.take c ++ a.drop (k + c)).drop (k + c) = a.drop (k + c) ∧
      (a.take k ++ b.take c ++ a.drop (k + c)).length = a.length := by
  have hlen : (a.take k ++ b.take c).length = k + c := by
    rw [List.length_append, List.length_take_of_le (by omega), List.length_take_of_le hb]
  refine ⟨List.take_left' hlen, List.drop_left' hlen, ?_⟩
  rw [List.length_append, hlen, List.length_drop]
  omega

theorem appendLevels_spec {dst src : SingleLevel}
    (hdst : dst.node.length = nodesPerPage levelPageSize)
    (hsrc : src.node.length = nodesPerPage levelPageSize)
    (hroom : dst.used + 1 ≤ nodesPerPage levelPageSize)
    (hused : src.used ≤ nodesPerPage levelPageSize) {copy : ℕ}
    (hcopy : copy = min (nodesPerPage levelPageSize - dst.used - 1) src.used) :
    ∃ dst' src', appendLevels levelPageSize dst src = some (dst', src') ∧
      dst'.used = dst.used + copy ∧ dst'.node.length = nodesPerPage levelPageSize ∧
      dst'.node.take dst'.used = dst.node.take dst.used ++ src.node.take copy ∧
      (∀ n ∈ dst'.node, n ∈ dst.node ∨ n ∈ src.node) ∧ dst'.rest = dst.rest ∧
      dst'.firstPageNum = dst.firstPageNum ∧ dst'.pageNum = dst.pageNum ∧
      src'.used = src.used - copy ∧ src'.node.length = nodesPerPage levelPageSize ∧
      src'.node.take src'.used = (src.node.take src.used).drop copy ∧
      (∀ n ∈ src'.node, n ∈ src.node) ∧
      dst'.node.drop dst'.used = dst.node.drop (dst.used + copy) := by
  obtain ⟨htake, hdrop, hlength⟩ := @take_overwrite Node dst.node src.node dst.used copy (by omega)
    (by omega)
  have hmoved : ((src.node.take src.used).drop copy).length = src.used - copy := by
    rw [List.length_drop, List.length_take_of_le (by omega)]
  refine ⟨_, _, if_neg (Nat.not_lt.mpr hroom), ?_, ?_, ?_, ?_, rfl, rfl, rfl, ?_, ?_, ?_, ?_, ?_⟩
  all_goals dsimp only
  all_goals rw [← hcopy]
  · rw [hlength, hdst]
  · exact htake
  · intro n hn
    rcases List.mem_append.mp hn with hn | hn
    · exact (List.mem_append.mp hn).imp List.mem_of_mem_take List.mem_of_mem_take
    · exact Or.inl (List.mem_of_mem_drop hn)
  · rw [List.length_append, hmoved, List.length_drop, hsrc]
    omega
  · exact List.take_left' hmoved
  · intro n hn
    rcases List.mem_append.mp hn with hn | hn
    · exact List.mem_of_mem_take (List.mem_of_mem_drop hn)
    · exact List.mem_of_mem_drop hn
  · exact hdrop

end

/-! ### Writing a page -/

section

variable {levelPageSize : ℕ} {st : LevelState} {W : ℕ → Prop}

/-- Two pages have no bytes in common. -/
theorem pages_apart (S : ℕ) {p q : ℕ} (hne : q ≠ p) : q * S + S ≤ p * S ∨ p * S + S ≤ q * S := by
  rcases Nat.lt_or_gt_of_ne hne with hlt | hgt
  · have hmul := Nat.mul_le_mul_right S (Nat.succ_le_of_lt hlt)
    rw [Nat.succ_mul] at hmul
    exact Or.inl hmul
  · have hmul := Nat.mul_le_mul_right S (Nat.succ_le_of_lt hgt)
    rw [Nat.succ_mul] at hmul
    exact Or.inr hmul

/-- A page that is written, and the level after it; it is a new one or that of the level. -/
structure Written (levelPageSize : ℕ) (st : LevelState) (W : ℕ → Prop) (level level' : SingleLevel)
    (st' : LevelState) (p : ℕ) : Prop where
  pageNum : level'.pageNum = p
  used : level'.used = 0
  length : level'.node.length = nodesPerPage levelPageSize
  rest : level'.rest.length = levelPageSize % 4
  values : ∀ n ∈ level'.node, n.value < 2 ^ 30
  fileOk : FileOk levelPageSize st' fun q => W q ∨ q = p
  grows : Grows levelPageSize st W st' (fun q => W q ∨ q = p) [level.pageNum]
  page : ∃ bytes, freadAt st'.file (p * levelPageSize : ℕ) levelPageSize = some bytes ∧
    pageNodes bytes = level.node
  pos : st'.pos = p * levelPageSize + levelPageSize
  which : level.pageNum = -1 ∧ p = st.nextAvailPage ∧ level'.firstPageNum = p ∧
      st'.nextAvailPage = st.nextAvailPage + 1 ∨
    level.pageNum = p ∧ level'.firstPageNum = level.firstPageNum ∧
      st'.nextAvailPage = st.nextAvailPage

theorem writeTriePage_spec {level : SingleLevel} (hfile : FileOk levelPageSize st W)
    (hsize : 0 < levelPageSize) (hlength : level.node.length = nodesPerPage levelPageSize)
    (hrest : level.rest.length = levelPageSize % 4) (hvalues : ∀ n ∈ level.node, n.value < 2 ^ 30)
    (hpage : level.pageNum = -1 ∨ ∃ p : ℕ, level.pageNum = p ∧ ¬ W p ∧ p < st.nextAvailPage) :
    ∃ level' st' p, writeTriePage levelPageSize level st = some (level', st') ∧
      Written levelPageSize st W level level' st' p := by
  obtain ⟨bytes, hbytes⟩ : ∃ bytes, bytes = nodesBytes level.node ++ level.rest := ⟨_, rfl⟩
  have hlen : bytes.length = levelPageSize := by
    rw [hbytes, List.length_append, length_nodesBytes, hlength, hrest, nodesPerPage]
    omega
  have hnodes : pageNodes bytes = level.node := by
    have hnone : pageNodes level.rest = [] := pageNodes_eq_nil_iff.mpr (by omega)
    rw [hbytes, pageNodes_nodesBytes hvalues, hnone, List.append_nil]
  -- The page that is written.
  obtain ⟨p, hp⟩ : ∃ p, p = if level.pageNum = -1 then st.nextAvailPage else level.pageNum.toNat :=
    ⟨_, rfl⟩
  obtain ⟨avail, havail⟩ : ∃ avail, avail =
      if level.pageNum = -1 then st.nextAvailPage + 1 else st.nextAvailPage := ⟨_, rfl⟩
  have hcast : (if level.pageNum = -1 then (st.nextAvailPage : ℤ) else level.pageNum) = p := by
    rw [hp]
    split
    next => rfl
    next hne =>
      obtain ⟨q, hq, -⟩ := hpage.resolve_left hne
      rw [hq, Int.toNat_natCast]
  have hnew : ¬ W p ∧ p < avail ∧ st.nextAvailPage ≤ avail ∧
      ((p : ℤ) = level.pageNum ∨ st.nextAvailPage ≤ p) := by
    rw [hp, havail]
    split
    next =>
      exact ⟨fun hw => Nat.lt_irrefl _ (hfile.lt _ hw), Nat.lt_succ_self _, Nat.le_succ _,
        Or.inr (Nat.le_refl _)⟩
    next hne =>
      obtain ⟨q, hq, hw, hlt⟩ := hpage.resolve_left hne
      rw [hq, Int.toNat_natCast]
      exact ⟨hw, hlt, Nat.le_refl _, Or.inl rfl⟩
  obtain ⟨hw, hlt, hle, hown⟩ := hnew
  refine ⟨{ level with
      pageNum := p
      firstPageNum := if level.pageNum = -1 then p else level.firstPageNum
      used := 0
      node := List.replicate (nodesPerPage levelPageSize) (Node.ofWord 0)
      rest := List.replicate (levelPageSize % 4) 0 },
    ⟨writeAt st.file (p * levelPageSize) bytes, p * levelPageSize + levelPageSize, avail⟩, p,
    ?_, ?_⟩
  · have hpos : ¬ (p : ℤ) < 0 := Int.not_lt.mpr (Int.natCast_nonneg p)
    rw [writeTriePage]
    simp only [hcast, if_neg hpos, Int.toNat_natCast, ← hbytes, ← havail]
  · refine ⟨rfl, rfl, List.length_replicate, List.length_replicate, ?_, ⟨?_, ?_⟩,
      ⟨fun q hq => Or.inl hq, ?_, hle, ?_⟩, ⟨bytes, ?_, hnodes⟩, rfl, ?_⟩
    · intro n hn
      rw [List.eq_of_mem_replicate hn]
      exact Node.ofWord_value_lt 0
    · have hend : p * levelPageSize + levelPageSize ≤ avail * levelPageSize := by
        rw [← Nat.succ_mul]
        exact Nat.mul_le_mul_right _ hlt
      have hold := Nat.le_trans hfile.length (Nat.mul_le_mul_right levelPageSize hle)
      dsimp only
      rw [length_writeAt, hlen]
      exact Nat.max_le.mpr ⟨hold, hend⟩
    · rintro q (hq | rfl)
      · exact Nat.lt_of_lt_of_le (hfile.lt q hq) hle
      · exact hlt
    · intro q old hq hread
      have hne : q ≠ p := by
        rintro rfl
        exact hw hq
      refine freadAt_writeAt_other hsize ?_ hread
      rw [hlen]
      exact pages_apart levelPageSize hne
    · rintro q (hq | rfl)
      · exact Or.inl hq
      · exact Or.inr (hown.imp_left fun heq => List.mem_singleton.mpr heq)
    · have hread := freadAt_writeAt st.file (p * levelPageSize) bytes
      rwa [hlen] at hread
    · dsimp only
      by_cases hfresh : level.pageNum = -1
      · rw [if_pos hfresh] at hp havail
        exact Or.inl ⟨hfresh, hp, if_pos hfresh, havail⟩
      · rw [if_neg hfresh] at hcast havail
        exact Or.inr ⟨hcast, if_neg hfresh, havail⟩

end

/-! ### Merging two levels -/

section

variable {levelPageSize : ℕ} {st : LevelState} {W : ℕ → Prop}

theorem LevelHas.reserved {lev : SingleLevel} {ns : List Node}
    (h : LevelHas levelPageSize st W lev ns) :
    lev.pageNum = -1 ∨ ∃ p : ℕ, lev.pageNum = p ∧ ¬ W p ∧ p < st.nextAvailPage := by
  obtain ⟨-, hnum, -⟩ | ⟨-, last, -, -, hlast, -, -, hw, hlt, -⟩ := h.pages
  · exact Or.inl hnum
  · exact Or.inr ⟨last, hlast, hw, hlt⟩

/-- The chain of a level, with a page that has just been written and leads to another. -/
theorem LevelHas.chain_written {left left₂ left₃ : SingleLevel} {st₁ st₃ : LevelState} {p q : ℕ}
    {ns extra : List Node} (hleft : LevelHas levelPageSize st W left ns) (hst : st₁.file = st.file)
    (hwritten : Written levelPageSize st₁ W left₂ left₃ st₃ p)
    (hfirst : left₂.firstPageNum = left.firstPageNum) (hnum : left₂.pageNum = left.pageNum)
    (htake : left₂.node.take left₂.used =
      left.node.take left.used ++ extra ++ [⟨.blkno, q⟩]) :
    ∃ first : ℕ, left₃.firstPageNum = first ∧
      Chain levelPageSize st₃.file (fun r => W r ∨ r = p) first q (ns ++ extra) := by
  obtain ⟨bytes, hread, hbytes⟩ := hwritten.page
  have hpage : PageHas levelPageSize st₃.file p
      (left.node.take left.used ++ extra ++ [⟨.blkno, q⟩]) := by
    refine ⟨bytes, left₂.node.drop left₂.used, hread, ?_⟩
    rw [hbytes, ← htake, List.take_append_drop]
  have hne : left.node.take left.used ++ extra ≠ [] := by
    have hpos := hleft.pos
    have hroom := hleft.room
    have hlength := hleft.length
    refine List.append_ne_nil_of_left_ne_nil (List.ne_nil_of_length_pos ?_) extra
    rw [List.length_take]
    omega
  have hone := Chain.page (Or.inr rfl) hpage hne (Chain.nil (W := fun r => W r ∨ r = p) q)
  rw [List.append_nil] at hone
  obtain ⟨-, hnone, hns⟩ | ⟨first, last, ms, hfirst', hlast, hchain, hns, -⟩ := hleft.pages
  · rcases hwritten.which with ⟨-, -, hp, -⟩ | ⟨hp, -, -⟩
    · refine ⟨p, hp, ?_⟩
      rwa [hns]
    · rw [hnum, hnone] at hp
      omega
  · rcases hwritten.which with ⟨hp, -, -, -⟩ | ⟨hp, hsame, -⟩
    · rw [hnum, hlast] at hp
      omega
    · have heq : p = last := by
        rw [hnum, hlast] at hp
        exact (Int.natCast_inj.mp hp).symm
      refine ⟨first, hsame.trans (hfirst.trans hfirst'), ?_⟩
      rw [← hst] at hchain
      have hold := hwritten.grows.chain hchain
      rw [← heq] at hold
      rw [hns, List.append_assoc]
      exact hold.append hone

/-- What merging two levels does. -/
structure Merged (levelPageSize : ℕ) (st : LevelState) (W : ℕ → Prop) (left right lev : SingleLevel)
    (st' : LevelState) (W' : ℕ → Prop) (ns : List Node) : Prop where
  fileOk : FileOk levelPageSize st' W'
  grows : Grows levelPageSize st W st' W' [left.pageNum, right.pageNum]
  has : LevelHas levelPageSize st' W' lev ns
  number : lev.pageNum = left.pageNum ∨ lev.pageNum = right.pageNum ∨
    (st.nextAvailPage : ℤ) ≤ lev.pageNum
  avail : st'.nextAvailPage ≤ st.nextAvailPage + 2

/-- The level on the right is in memory. -/
theorem mergeSingleLevel_memory {left right : SingleLevel} {ns : List Node}
    (hn : 2 ≤ nodesPerPage levelPageSize) (hfile : FileOk levelPageSize st W)
    (hleft : LevelHas levelPageSize st W left ns)
    (hlength : right.node.length = nodesPerPage levelPageSize)
    (hvalues : ∀ n ∈ right.node, n.value < 2 ^ 30)
    (hroom : right.used + 1 ≤ nodesPerPage levelPageSize)
    (hmemory : right.firstPageNum = -1) (havail : st.nextAvailPage + 2 ≤ 2 ^ 30) :
    ∃ lev st' W', mergeSingleLevel levelPageSize left right st = some (lev, st') ∧
      Merged levelPageSize st W left right lev st' W' (ns ++ right.node.take right.used) := by
  have hleftroom := hleft.room
  have hleftpos := hleft.pos
  obtain ⟨copy, hcopy⟩ : ∃ copy,
      copy = min (nodesPerPage levelPageSize - left.used - 1) right.used := ⟨_, rfl⟩
  obtain ⟨left₁, right₁, happend, hused₁, hlength₁, htake₁, hmem₁, hrest₁, hfirst₁, hnum₁, hrused₁,
    hrlength₁, hrtake₁, hrmem₁, hdrop₁⟩ :=
    appendLevels_spec hleft.length hlength hleft.room (by omega) hcopy
  have hle : copy ≤ right.used := by omega
  have hvalues₁ : ∀ n ∈ left₁.node, n.value < 2 ^ 30 := fun n hmem =>
    (hmem₁ n hmem).elim (hleft.values n) (hvalues n)
  rw [mergeSingleLevel, if_pos hmemory, happend]
  simp only [Option.bind_eq_bind, Option.bind_some]
  rcases Nat.eq_zero_or_pos right₁.used with hzero | hpos
  · -- All of it fits into the page.
    have hall : copy = right.used := by omega
    rw [if_neg (by omega)]
    refine ⟨left₁, st, W, rfl, hfile, Grows.refl _ _ _ _, ?_, Or.inl hnum₁, Nat.le_add_right _ _⟩
    rw [hall] at htake₁
    have hunused : left₁.pageNum = -1 → ∀ n ∈ left₁.node.drop left₁.used, n = unusedNode := by
      intro hnone n hmem
      rw [hdrop₁, ← List.drop_drop] at hmem
      exact hleft.unused (hnum₁ ▸ hnone) n (List.mem_of_mem_drop hmem)
    refine ⟨hlength₁, hrest₁ ▸ hleft.rest, hvalues₁, by omega, by omega, hunused, ?_⟩
    rw [htake₁, hfirst₁, hnum₁]
    obtain ⟨hnone, hnone', hns⟩ | ⟨first, last, ms, hfirst, hlast, hchain, hns, hw, hlt, hlen⟩ :=
      hleft.pages
    · exact Or.inl ⟨hnone, hnone', by rw [hns]⟩
    · refine Or.inr ⟨first, last, ms, hfirst, hlast, hchain, by rw [hns, List.append_assoc], hw,
        hlt, ?_⟩
      rw [List.length_append]
      omega
  · -- The page is full.
    have hfull : left.used + copy + 1 = nodesPerPage levelPageSize := by omega
    have hcount : (ns ++ right.node.take right.used).length ≥ nodesPerPage levelPageSize := by
      have hns : left.used ≤ ns.length := by
        have htake : (left.node.take left.used).length = left.used :=
          List.length_take_of_le (by rw [hleft.length]; omega)
        obtain ⟨-, -, rfl⟩ | ⟨-, -, ms, -, -, -, rfl, -⟩ := hleft.pages
        · exact Nat.le_of_eq htake.symm
        · rw [List.length_append]
          omega
      rw [List.length_append, List.length_take_of_le (by omega)]
      omega
    rw [if_pos hpos]
    obtain ⟨q, hq⟩ : ∃ q, q = st.nextAvailPage := ⟨_, rfl⟩
    have hmod : st.nextAvailPage % 2 ^ 30 = q := by
      rw [hq]
      exact Nat.mod_eq_of_lt (by omega)
    rw [hmod]
    obtain ⟨left₂, hblk, hused₂, hlength₂, htake₂, hmem₂, hrest₂, hfirst₂, hnum₂, -⟩ :=
      @nodeAppend_spec ⟨.blkno, q⟩ left₁ (by omega)
    have hvalues₂ : ∀ n ∈ left₂.node, n.value < 2 ^ 30 := by
      intro n hmem
      rcases hmem₂ n hmem with hmem | rfl
      · exact hvalues₁ n hmem
      · show q < 2 ^ 30
        omega
    obtain ⟨st₁, hst₁⟩ : ∃ st₁ : LevelState,
        st₁ = { st with nextAvailPage := st.nextAvailPage + 1 } := ⟨_, rfl⟩
    have hfile₁ : FileOk levelPageSize st₁ W := by
      rw [hst₁]
      refine ⟨Nat.le_trans hfile.length ?_, fun p hp => Nat.lt_succ_of_lt (hfile.lt p hp)⟩
      exact Nat.mul_le_mul_right _ (Nat.le_succ _)
    obtain ⟨left₃, st₃, p, hwrite, hwritten⟩ := writeTriePage_spec hfile₁
      (by rw [nodesPerPage] at hn; omega) (by rw [hlength₂, hlength₁])
      (by rw [hrest₂, hrest₁, hleft.rest]) hvalues₂ (by
        rw [hnum₂, hnum₁, hst₁]
        refine hleft.reserved.imp_right ?_
        rintro ⟨p, hp, hw, hlt⟩
        exact ⟨p, hp, hw, Nat.lt_succ_of_lt hlt⟩)
    rw [htake₁] at htake₂
    obtain ⟨first, hfirst₃, hchain₃⟩ := hleft.chain_written (by rw [hst₁]) hwritten
      (hfirst₂.trans hfirst₁) (hnum₂.trans hnum₁) htake₂
    have hused₃ := hwritten.used
    obtain ⟨left₄, right₄, happend₄, hused₄, hlength₄, htake₄, hmem₄, hrest₄, hfirst₄, hnum₄, -⟩ :=
      @appendLevels_spec levelPageSize { left₃ with pageNum := q } right₁ hwritten.length hrlength₁
        (by dsimp only; omega) (by omega) right₁.used (by dsimp only; omega)
    dsimp only at hused₄ htake₄ hmem₄ hrest₄ hfirst₄ hnum₄
    have hblk' : nodeAppend ⟨.blkno, q⟩ left₁ = some left₂ := hblk
    rw [← hst₁]
    simp only [hblk', Option.bind_some, hwrite, happend₄]
    refine ⟨left₄, st₃, _, rfl, hwritten.fileOk, ?_, ?_, Or.inr (Or.inr ?_), ?_⟩
    · refine ⟨hwritten.grows.subset, fun r old hr hread => ?_, ?_, fun r hr => ?_⟩
      · refine hwritten.grows.keeps r old hr ?_
        rwa [hst₁]
      · have hle := hwritten.grows.le
        rw [hst₁] at hle
        exact Nat.le_of_succ_le hle
      · rcases hwritten.grows.new r hr with hold | hin | hge
        · exact Or.inl hold
        · rw [List.mem_singleton, hnum₂, hnum₁] at hin
          exact Or.inr (Or.inl (hin ▸ List.mem_cons_self))
        · rw [hst₁] at hge
          exact Or.inr (Or.inr (Nat.le_of_succ_le hge))
    · have hnew : ¬ (W q ∨ q = p) := by
        rintro (hw | heq)
        · have hlt := hfile.lt q hw
          omega
        · rcases hwritten.which with ⟨-, hp, -⟩ | ⟨hp, -⟩
          · rw [hst₁] at hp
            dsimp only at hp
            omega
          · rw [hnum₂, hnum₁] at hp
            rcases hleft.reserved with hnone | ⟨r, hr, -, hlt⟩
            · omega
            · omega
      have hlt : q < st₃.nextAvailPage := by
        have hle := hwritten.grows.le
        rw [hst₁] at hle
        dsimp only at hle
        omega
      have hsplit : right.node.take right.used =
          right.node.take copy ++ left₄.node.take left₄.used := by
        have hfront : (right.node.take right.used).take copy = right.node.take copy := by
          rw [List.take_take, Nat.min_eq_left hle]
        rw [htake₄, hused₃, List.take_zero, List.nil_append, hrtake₁, ← hfront,
          List.take_append_drop]
      refine ⟨hlength₄, hrest₄ ▸ hwritten.rest, fun n hn' => ?_, by omega, by omega, by omega,
        Or.inr ⟨first, q, ns ++ right.node.take copy, hfirst₄.trans hfirst₃, hnum₄, hchain₃, ?_,
          hnew, hlt, ?_⟩⟩
      · exact (hmem₄ n hn').elim (hwritten.values n) fun hmem => hvalues n (hrmem₁ n hmem)
      · rw [List.append_assoc, ← hsplit]
      · exact hcount
    · rw [hnum₄, hq]
    · rcases hwritten.which with ⟨-, -, -, heq⟩ | ⟨-, -, heq⟩
      · rw [heq, hst₁]
      · rw [heq, hst₁]
        exact Nat.le_succ _

/-- The level on the right has pages on the file. -/
theorem mergeSingleLevel_pages {left right : SingleLevel} {ns ms : List Node} {first last : ℕ}
    (hn : 2 ≤ nodesPerPage levelPageSize) (hfile : FileOk levelPageSize st W)
    (hleft : LevelHas levelPageSize st W left ns)
    (hlength : right.node.length = nodesPerPage levelPageSize)
    (hvalues : ∀ n ∈ right.node, n.value < 2 ^ 30) (hpos : 0 < right.used)
    (hroom : right.used + 1 ≤ nodesPerPage levelPageSize) (hfirst : right.firstPageNum = first)
    (hlast : right.pageNum = last) (hchain : Chain levelPageSize st.file W first last ms)
    (hw : ¬ W last) (hlt : last < st.nextAvailPage)
    (hmany : nodesPerPage levelPageSize ≤ (ms ++ right.node.take right.used).length)
    (hapart : 0 ≤ left.pageNum → left.pageNum ≠ right.pageNum)
    (havail : st.nextAvailPage + 2 ≤ 2 ^ 30) :
    ∃ lev st' W', mergeSingleLevel levelPageSize left right st = some (lev, st') ∧
      Merged levelPageSize st W left right lev st' W'
        (ns ++ (ms ++ right.node.take right.used)) := by
  have hleftroom := hleft.room
  have hleftlength := hleft.length
  have hfirstlt : first < st.nextAvailPage := by
    cases hchain with
    | nil => exact hlt
    | page hw' => exact hfile.lt _ hw'
  have hmod : (right.firstPageNum % 2 ^ 30).toNat = first := by
    rw [hfirst]
    omega
  rw [mergeSingleLevel, if_neg (by rw [hfirst]; omega), hmod]
  obtain ⟨left₂, hblk, hused₂, hlength₂, htake₂, hmem₂, hrest₂, hfirst₂, hnum₂, -⟩ :=
    @nodeAppend_spec ⟨.blkno, first⟩ left (by omega)
  have hvalues₂ : ∀ n ∈ left₂.node, n.value < 2 ^ 30 := by
    intro n hmem
    rcases hmem₂ n hmem with hmem | rfl
    · exact hleft.values n hmem
    · show first < 2 ^ 30
      omega
  obtain ⟨left₃, st₃, p, hwrite, hwritten⟩ := writeTriePage_spec hfile
    (by rw [nodesPerPage] at hn; omega) (by rw [hlength₂, hleftlength]) (by rw [hrest₂, hleft.rest])
    hvalues₂ (by rw [hnum₂]; exact hleft.reserved)
  rw [← List.append_nil (left.node.take left.used)] at htake₂
  obtain ⟨first₃, hfirst₃, hchain₃⟩ := hleft.chain_written rfl hwritten hfirst₂ hnum₂ htake₂
  rw [List.append_nil] at hchain₃
  have hused₃ := hwritten.used
  obtain ⟨left₄, right₄, happend₄, hused₄, hlength₄, htake₄, hmem₄, hrest₄, hfirst₄, hnum₄, -⟩ :=
    @appendLevels_spec levelPageSize { left₃ with pageNum := right.pageNum } right hwritten.length
      hlength (by dsimp only; omega) (by omega) right.used (by dsimp only; omega)
  dsimp only at hused₄ htake₄ hmem₄ hrest₄ hfirst₄ hnum₄
  have hblk' : nodeAppend ⟨.blkno, first⟩ left = some left₂ := hblk
  simp only [Option.bind_eq_bind, hblk', Option.bind_some, hwrite, happend₄]
  -- The page that is known for the right level is still not written.
  have hnew : ¬ (W last ∨ last = p) := by
    rintro (hw' | heq)
    · exact hw hw'
    · rcases hwritten.which with ⟨-, hp, -⟩ | ⟨hp, -⟩
      · omega
      · rw [hnum₂] at hp
        refine hapart ?_ ?_
        · rw [hp]
          exact Int.natCast_nonneg p
        · rw [hp, hlast, heq]
  have htail : left₄.node.take left₄.used = right.node.take right.used := by
    rw [htake₄, hused₃, List.take_zero, List.nil_append]
  refine ⟨left₄, st₃, _, rfl, hwritten.fileOk, ?_, ?_, Or.inr (Or.inl hnum₄), ?_⟩
  · refine ⟨hwritten.grows.subset, hwritten.grows.keeps, hwritten.grows.le, fun r hr => ?_⟩
    rcases hwritten.grows.new r hr with hold | hin | hge
    · exact Or.inl hold
    · rw [List.mem_singleton, hnum₂] at hin
      exact Or.inr (Or.inl (hin ▸ List.mem_cons_self))
    · exact Or.inr (Or.inr hge)
  · refine ⟨hlength₄, hrest₄ ▸ hwritten.rest, fun n hn' => ?_, ?_, ?_, ?_,
      Or.inr ⟨first₃, last, ns ++ ms, hfirst₄.trans hfirst₃, hnum₄.trans hlast,
        hchain₃.append (hwritten.grows.chain hchain), ?_, hnew,
        Nat.lt_of_lt_of_le hlt hwritten.grows.le, ?_⟩⟩
    · exact (hmem₄ n hn').elim (hwritten.values n) (hvalues n)
    · omega
    · omega
    · omega
    · rw [htail, List.append_assoc]
    · rw [List.length_append]
      omega
  · rcases hwritten.which with ⟨-, -, -, heq⟩ | ⟨-, -, heq⟩
    · omega
    · omega

/-- **Merging two levels** puts the nodes of the one behind those of the other. -/
theorem mergeSingleLevel_spec {left right : SingleLevel} {ns ms : List Node}
    (hn : 2 ≤ nodesPerPage levelPageSize) (hfile : FileOk levelPageSize st W)
    (hleft : LevelHas levelPageSize st W left ns) (hright : LevelHas levelPageSize st W right ms)
    (hapart : 0 ≤ left.pageNum → left.pageNum ≠ right.pageNum)
    (havail : st.nextAvailPage + 2 ≤ 2 ^ 30) :
    ∃ lev st' W', mergeSingleLevel levelPageSize left right st = some (lev, st') ∧
      Merged levelPageSize st W left right lev st' W' (ns ++ ms) := by
  obtain ⟨hnone, -, rfl⟩ | ⟨first, last, ms', hfirst, hlast, hchain, rfl, hw, hlt, hmany⟩ :=
    hright.pages
  · exact mergeSingleLevel_memory hn hfile hleft hright.length hright.values hright.room hnone
      havail
  · exact mergeSingleLevel_pages hn hfile hleft hright.length hright.values hright.pos hright.room
      hfirst hlast hchain hw hlt hmany hapart havail

end

end Archie.Levels
