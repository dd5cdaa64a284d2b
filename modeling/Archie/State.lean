/-
The search state of a PaTrie and its text form (`state.c`).

A resumable search keeps an explicit stack of trie nodes.  `patrieGetStateString`
writes it as printable text: numbers in base 94, least significant digit first,
`int`s through their wrap to `unsigned long`, the search key percent-quoted, and
single blanks between the parts.  `patrieSetStateFromString` reads it back.

A stack is memory for `nelts` nodes of which the first `top + 1` are in use;
`patrieStatePush_live` and `patrieStatePop_eq` say what the two stack operations
do to the nodes in use, which is all that a search can see.
-/
import Archie.CInt
import Mathlib.Algebra.BigOperators.Group.List.Basic

namespace Archie

/-- `struct patrie_node`. -/
structure PatrieNode where
  val : ℕ
  isSkip : ℤ
  lev : ℤ
  height : ℤ
  pos : ℤ
  inode : ℤ
  enode : ℤ
  tnode : ℤ
  pageNum : ℤ
  deriving DecidableEq, Repr

/-- Every field fits its C type. -/
structure PatrieNode.Fits (n : PatrieNode) : Prop where
  val : n.val < wordSize
  isSkip : IsInt n.isSkip
  lev : IsInt n.lev
  height : IsInt n.height
  pos : IsInt n.pos
  inode : IsInt n.inode
  enode : IsInt n.enode
  tnode : IsInt n.tnode
  pageNum : IsInt n.pageNum

/-- `struct patrie_state`: `stack` is the memory of `nelts` nodes, of which
the first `top + 1` are in use. -/
structure PatrieState where
  top : ℤ
  nelts : ℤ
  stack : List PatrieNode
  key : Option (List UInt8)
  matchCaseAccSens : ℤ
  firstMatched : ℤ
  deriving DecidableEq, Repr

namespace PatrieState

/-- The nodes in use, the bottom of the stack first. -/
def live (st : PatrieState) : List PatrieNode := st.stack.take (st.top + 1).toNat

/-- What the stack operations maintain: `top` stays inside the allocated
memory. -/
structure WellFormed (st : PatrieState) : Prop where
  top_ge : -1 ≤ st.top
  top_lt : st.top < st.nelts
  length_stack : (st.stack.length : ℤ) = st.nelts

theorem WellFormed.length_live {st : PatrieState} (h : st.WellFormed) :
    (st.live.length : ℤ) = st.top + 1 := by
  have h1 := h.top_ge
  have h2 := h.top_lt
  have h3 := h.length_stack
  rw [live, List.length_take]
  omega

end PatrieState

/-- `patrieAllocState`. -/
def patrieAllocState : PatrieState where
  top := -1
  nelts := 0
  stack := []
  key := none
  matchCaseAccSens := 0
  firstMatched := 0

/-- `_patrieStateEmpty`. -/
def patrieStateEmpty (st : PatrieState) : Bool := st.top == -1

/-- `_patrieStatePop`: the assertion fails on an empty stack. -/
def patrieStatePop (st : PatrieState) : Option (PatrieNode × PatrieState) :=
  if patrieStateEmpty st then none
  else do
    let node ← st.stack[st.top.toNat]?
    some (node, { st with top := st.top - 1 })

/-- `_patrieStatePush`: the memory grows by one node when it is full. -/
def patrieStatePush (node : PatrieNode) (st : PatrieState) : PatrieState :=
  if st.top = st.nelts - 1 then
    { st with nelts := st.nelts + 1, stack := st.stack ++ [node], top := st.top + 1 }
  else
    { st with stack := st.stack.set (st.top + 1).toNat node, top := st.top + 1 }

/-- `_patrieStateResetStack`. -/
def patrieStateResetStack (st : PatrieState) : PatrieState := { st with top := -1 }

/-! ### The stack operations on the nodes in use -/

theorem patrieAllocState_wellFormed : patrieAllocState.WellFormed :=
  ⟨by decide, by decide, by decide⟩

@[simp] theorem patrieAllocState_live : patrieAllocState.live = [] := rfl

theorem patrieStateEmpty_iff {st : PatrieState} (h : st.WellFormed) :
    patrieStateEmpty st = true ↔ st.live = [] := by
  have hlen := h.length_live
  rw [patrieStateEmpty, beq_iff_eq, ← List.length_eq_zero_iff]
  omega

theorem patrieStateResetStack_wellFormed {st : PatrieState} (h : st.WellFormed) :
    (patrieStateResetStack st).WellFormed := by
  have h1 := h.top_ge
  have h2 := h.top_lt
  exact ⟨le_refl _, by simp only [patrieStateResetStack]; omega, h.length_stack⟩

@[simp] theorem patrieStateResetStack_live (st : PatrieState) :
    (patrieStateResetStack st).live = [] := by
  simp [patrieStateResetStack, PatrieState.live]

theorem patrieStatePush_wellFormed {st : PatrieState} (h : st.WellFormed) (node : PatrieNode) :
    (patrieStatePush node st).WellFormed := by
  obtain ⟨h1, h2, h3⟩ := h
  unfold patrieStatePush
  split
  · exact ⟨by simp only; omega, by simp only; omega, by simp; omega⟩
  · exact ⟨by simp only; omega, by simp only; omega, by simpa using h3⟩

theorem patrieStatePush_live {st : PatrieState} (h : st.WellFormed) (node : PatrieNode) :
    (patrieStatePush node st).live = st.live ++ [node] := by
  obtain ⟨h1, h2, h3⟩ := h
  have hsucc : (st.top + 1 + 1).toNat = (st.top + 1).toNat + 1 := by omega
  unfold patrieStatePush
  split
  · next htop =>
    have hall : (st.top + 1).toNat = st.stack.length := by omega
    simp [PatrieState.live, hsucc, hall]
  · next htop =>
    have hlt : (st.top + 1).toNat < st.stack.length := by omega
    simp only [PatrieState.live, hsucc]
    rw [List.take_succ_eq_append_getElem (by simpa using hlt), List.take_set_of_le (le_refl _)]
    simp

/-- Popping takes the last node in use away. -/
theorem patrieStatePop_eq {st : PatrieState} (h : st.WellFormed) {rest : List PatrieNode}
    {node : PatrieNode} (hlive : st.live = rest ++ [node]) :
    ∃ st', patrieStatePop st = some (node, st') ∧ st'.WellFormed ∧ st'.live = rest ∧
      st' = { st with top := st.top - 1 } := by
  have hlen := h.length_live
  obtain ⟨h1, h2, h3⟩ := h
  rw [hlive, List.length_append, List.length_singleton] at hlen
  have htop : st.top.toNat = rest.length := by omega
  have hnode : st.stack[st.top.toNat]? = some node := by
    have hget : st.live[rest.length]? = some node := by simp [hlive]
    rw [PatrieState.live, List.getElem?_take_of_lt (by omega)] at hget
    rwa [htop]
  refine ⟨{ st with top := st.top - 1 }, ?_, ?_, ?_, rfl⟩
  · have hne : patrieStateEmpty st = false := by
      rw [patrieStateEmpty, beq_eq_false_iff_ne]
      omega
    simp [patrieStatePop, hne, hnode]
  · exact ⟨by simp only; omega, by simp only; omega, h3⟩
  · have htake : (st.top - 1 + 1).toNat = rest.length := by omega
    have hpre : st.live.take rest.length = rest := by simp [hlive]
    rw [PatrieState.live, List.take_take] at hpre
    rw [PatrieState.live]
    simp only [htake]
    rwa [show min rest.length (st.top + 1).toNat = rest.length by omega] at hpre

/-! ### The writer -/

/-- `ENC_BASE`. -/
def encBase : ℕ := 94

/-- `FIRST_CH`. -/
def firstCh : ℕ := 33

/-- `QUOTE_CH`. -/
def quoteCh : UInt8 := 37

/-- The blank between the parts. -/
def blank : UInt8 := 32

/-- `MUST_QUOTE_CH`. -/
def mustQuoteCh (c : UInt8) : Bool := c == quoteCh || charVal c < 33 || charVal c > 126

/-- The greatest value that has `n + 1` digits. -/
def maxrep : List ℕ := [93, 8835, 830583, 78074895, 4294967295]

/-- `numberSpace`. -/
def numberSpace (n : ℕ) : ℕ := maxrep.findIdx (fun m => n ≤ m) + 1

/-- `quoteNumber`. -/
def quoteNumber (n : ℕ) : List UInt8 :=
  UInt8.ofNat (firstCh + n % encBase) ::
    (if 0 < n / encBase then quoteNumber (n / encBase) else [])
  termination_by n
  decreasing_by unfold encBase at *; omega

/-- `keySpace`. -/
def keySpace (key : List UInt8) : ℕ := (key.map fun c => if mustQuoteCh c then 3 else 1).sum

/-- A digit of `%02x`. -/
def hexDigit (d : ℕ) : UInt8 := if d < 10 then UInt8.ofNat (48 + d) else UInt8.ofNat (87 + d)

/-- `quoteKey`. -/
def quoteKey (key : List UInt8) : List UInt8 :=
  key.flatMap fun c =>
    if mustQuoteCh c then [quoteCh, hexDigit (c.toNat / 16), hexDigit (c.toNat % 16)] else [c]

/-- `nodeSpace`. -/
def nodeSpace (node : PatrieNode) : ℕ :=
  numberSpace node.val + 1 + numberSpace (ulong node.isSkip) + 1 +
  numberSpace (ulong node.lev) + 1 + numberSpace (ulong node.height) + 1 +
  numberSpace (ulong node.pos) + 1 + numberSpace (ulong node.inode) + 1 +
  numberSpace (ulong node.enode) + 1 + numberSpace (ulong node.tnode) + 1 +
  numberSpace (ulong node.pageNum)

/-- `quoteNode`. -/
def quoteNode (node : PatrieNode) : List UInt8 :=
  quoteNumber node.val ++ blank :: (quoteNumber (ulong node.isSkip) ++ blank ::
  (quoteNumber (ulong node.lev) ++ blank :: (quoteNumber (ulong node.height) ++ blank ::
  (quoteNumber (ulong node.pos) ++ blank :: (quoteNumber (ulong node.inode) ++ blank ::
  (quoteNumber (ulong node.enode) ++ blank :: (quoteNumber (ulong node.tnode) ++ blank ::
  quoteNumber (ulong node.pageNum))))))))

/-- `stackSpace`. -/
def stackSpace (st : PatrieState) : ℕ :=
  ((st.live.map nodeSpace).sum + st.top).toNat

/-- `quoteStack`: every node but the last is followed by a blank. -/
def quoteStack : List PatrieNode → List UInt8
  | [] => []
  | [node] => quoteNode node
  | node :: rest => quoteNode node ++ blank :: quoteStack rest

/-- `stateSpace`. -/
def stateSpace (st : PatrieState) : ℕ :=
  numberSpace (ulong st.top) + 1 + (if 0 ≤ st.top then stackSpace st else 0) + 1 +
  st.key.elim 0 keySpace + 1 +
  (numberSpace (ulong st.matchCaseAccSens) + 1 + numberSpace (ulong st.firstMatched))

/-- The stack part of `quoteState`. -/
def quoteStackPart (st : PatrieState) : List UInt8 :=
  if 0 ≤ st.top then quoteStack st.live else []

/-- `quoteState`. -/
def quoteState (st : PatrieState) : List UInt8 :=
  quoteNumber (ulong st.top) ++ blank :: (quoteStackPart st ++ blank ::
  (st.key.elim [] quoteKey ++ blank ::
  (quoteNumber (ulong st.matchCaseAccSens) ++ blank :: quoteNumber (ulong st.firstMatched))))

/-- `patrieGetStateString`: the text and its nul go to a buffer of
`stateSpace st + 1` bytes, whose last byte is then cleared.  Writing past the
buffer is undefined. -/
def patrieGetStateString (st : PatrieState) : Option (List UInt8) :=
  let mem := stateSpace st
  let str := quoteState st ++ [0]
  if str.length ≤ mem + 1 then some ((str.set mem 0).takeWhile (· ≠ 0)) else none

/-! ### The reader -/

/-- `*s++ == c`. -/
def expect (c : UInt8) : List UInt8 → Option (List UInt8)
  | [] => none
  | d :: s => if d = c then some s else none

/-- The digits both tables of `getHex` are indexed by. -/
def hexDigits : List UInt8 :=
  [48, 49, 50, 51, 52, 53, 54, 55, 56, 57, 97, 98, 99, 100, 101, 102, 65, 66, 67, 68, 69, 70]

/-- The values of `hexDigits`. -/
def hexValues : List ℕ :=
  [0, 1, 2, 3, 4, 5, 6, 7, 8, 9, 10, 11, 12, 13, 14, 15, 10, 11, 12, 13, 14, 15]

/-- The value of one hexadecimal digit.  At the end of the string `strchr` finds
the nul of the digit table, and the value table has no entry for it. -/
def hexValue (c : UInt8) : Option ℕ := hexValues[hexDigits.idxOf c]?

/-- `getHex`. -/
def getHex : List UInt8 → Option ℕ
  | c :: d :: _ => do
    let hi ← hexValue c
    let lo ← hexValue d
    some (hi * 16 + lo)
  | _ => none

/-- The copying loop of `dequoteKey`. -/
def dequoteKeyLoop : List UInt8 → Option (List UInt8 × List UInt8)
  | [] => some ([], [])
  | c :: s =>
    if c = blank then some ([], c :: s)
    else if c = quoteCh then do
      let h ← getHex s
      let (key, s') ← dequoteKeyLoop (s.drop 2)
      some (UInt8.ofNat h :: key, s')
    else do
      let (key, s') ← dequoteKeyLoop s
      some (c :: key, s')
  termination_by s => s.length
  decreasing_by all_goals simp; try omega

/-- `dequoteKey`. -/
def dequoteKey (str : List UInt8) : Option (List UInt8 × List UInt8) :=
  if (str.takeWhile (· ≠ blank)).length = 0 then none else dequoteKeyLoop str

/-- The loop of `dequoteULong`, from `mult` and `n`. -/
def dequoteDigits : List UInt8 → ℕ → ℕ → ℕ × List UInt8
  | [], _, n => (n, [])
  | c :: s, mult, n =>
    if c = blank then (n, c :: s)
    else dequoteDigits s (mult * encBase % wordSize)
      ((n + ulong (charVal c - firstCh) * mult) % wordSize)

/-- `dequoteULong`. -/
def dequoteULong (str : List UInt8) : Option (ℕ × List UInt8) :=
  let (n, s) := dequoteDigits str 1 0
  if s.length = str.length then none else some (n, s)

/-- `dequoteSInt`. -/
def dequoteSInt (str : List UInt8) : Option (ℤ × List UInt8) := do
  let (n, s) ← dequoteULong str
  some (sint n, s)

/-- An `int` field of a node and the blank that has to follow it. -/
def dequoteField (s : List UInt8) : Option (ℤ × List UInt8) := do
  let (i, s) ← dequoteSInt s
  let s ← expect blank s
  some (i, s)

/-- `dequoteNode`. -/
def dequoteNode (s : List UInt8) : Option (PatrieNode × List UInt8) := do
  let (val, s) ← dequoteULong s
  let s ← expect blank s
  let (isSkip, s) ← dequoteField s
  let (lev, s) ← dequoteField s
  let (height, s) ← dequoteField s
  let (pos, s) ← dequoteField s
  let (inode, s) ← dequoteField s
  let (enode, s) ← dequoteField s
  let (tnode, s) ← dequoteField s
  let (pageNum, s) ← dequoteSInt s
  some (⟨val, isSkip, lev, height, pos, inode, enode, tnode, pageNum⟩, s)

/-- `dequoteStack`, reading `n` nodes that are followed by a blank and one more. -/
def dequoteStack : ℕ → List UInt8 → Option (List PatrieNode × List UInt8)
  | 0, s => do
    let (node, s) ← dequoteNode s
    some ([node], s)
  | n + 1, s => do
    let (node, s) ← dequoteNode s
    let s ← expect blank s
    let (stack, s) ← dequoteStack n s
    some (node :: stack, s)

/-- The stack part of `patrieSetStateFromString`. -/
def dequoteStackPart (nelts : ℤ) (s : List UInt8) : Option (List PatrieNode × List UInt8) :=
  if 0 < nelts then dequoteStack (nelts - 1).toNat s else some ([], s)

/-- The key part of `patrieSetStateFromString`: a second blank in a row means
that there is no key. -/
def dequoteKeyPart (s : List UInt8) : Option (Option (List UInt8) × List UInt8) :=
  if s.head? = some blank then some (none, s)
  else do
    let (key, s) ← dequoteKey s
    some (some key, s)

/-- `patrieSetStateFromString`. -/
def patrieSetStateFromString (s : List UInt8) : Option PatrieState := do
  let (top, s) ← dequoteSInt s
  let s ← expect blank s
  let (stack, s) ← dequoteStackPart (top + 1) s
  let s ← expect blank s
  let (key, s) ← dequoteKeyPart s
  let s ← expect blank s
  let (matchCaseAccSens, s) ← dequoteSInt s
  let s ← expect blank s
  let (firstMatched, s) ← dequoteSInt s
  if s = [] then some ⟨top, top + 1, stack, key, matchCaseAccSens, firstMatched⟩ else none

end Archie
