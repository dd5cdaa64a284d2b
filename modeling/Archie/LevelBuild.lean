/-
Building the levels of a trie (`levels.c`: `_patrieLevelBuild`; `ptr_stack.c`: `mergePtrStack`;
`int_stack.c`).

The tries of the starts that have been read are on a stack, each with one level for each of its
depths, the root on top.  The heights between them are on another stack.  Once a height is smaller
than the one on top the two tries on top are put together.

* `patrieLevelBuild` — the loop over the infix file, and then the last pages of the levels and the
  directory.
* `StackOf` — the levels of a trie.
* `mergePtrStack_spec` — the levels of two tries that stand side by side.
* `levelLoop_splits` — when a sequence has been read its trie is on the stack.
-/
import Archie.InfixTrie
import Archie.LevelWrite

namespace Archie.Levels

open Patricia

/-- `INT_STACK_SZ`. -/
def intStackSize : ℕ := 10000

/-- `pushIntStack`. -/
def pushIntStack (stack : List ℕ) (height : ℕ) : Option (List ℕ) :=
  if stack.length < intStackSize then some (height :: stack) else none

/-- `topIntStack`. -/
def topIntStack (stack : List ℕ) : Option ℕ :=
  if stack.length < intStackSize then stack.head? else none

/-- `readNode`. -/
def readNode : List ℤ → Option (Node × List ℤ)
  | [] => none
  | val :: infixes => some (⟨if val < 0 then .start else .skip, val.natAbs % 2 ^ 30⟩, infixes)

/-- `cvtHeightToSkip`. -/
def cvtHeightToSkip (currHeight : ℕ) (node : Node) : Option Node :=
  if node.type = .skip then
    if currHeight < node.value then some ⟨.skip, node.value - currHeight - 1⟩ else none
  else some node

/-- `cvtHeightToSkip` of the root of the trie with these levels. -/
def cvtRootNode (currHeight : ℕ) : List SingleLevel → Option (List SingleLevel)
  | [] => none
  | level :: levels => do
    let root ← level.node.head?
    let root ← cvtHeightToSkip currHeight root
    some ({ level with node := root :: level.node.tail } :: levels)

/-- The tries, the heights and the file while the infix file is read. -/
structure BuildState where
  heightStack : List ℕ
  trieStack : List (List SingleLevel)
  levels : LevelState

section

variable (levelPageSize : ℕ)

/-- `createLevelStack`. -/
def createLevelStack (root : Node) : Option (List SingleLevel) :=
  (nodeAppend root (newSingleLevel levelPageSize)).map fun level => [level]

/-- `mergePtrStack` with `mergeSingleLevel`. -/
def mergePtrStack : List SingleLevel → List SingleLevel → LevelState →
    Option (List SingleLevel × LevelState)
  | [], right, st => some (right, st)
  | left, [], st => some (left, st)
  | l :: left, r :: right, st => do
    let (l, st) ← mergeSingleLevel levelPageSize l r st
    let (left, st) ← mergePtrStack left right st
    some (l :: left, st)

/-- `mergeLevelStacks`. -/
def mergeLevelStacks (root : Node) (left right : List SingleLevel) (st : LevelState) :
    Option (List SingleLevel × LevelState) := do
  let (left, st) ← mergePtrStack levelPageSize left right st
  let level ← nodeAppend root (newSingleLevel levelPageSize)
  some (level :: left, st)

/-- The two tries on top are put together under the height on top. -/
def mergeTop (st : BuildState) : Option BuildState :=
  match st.trieStack, st.heightStack with
  | right :: left :: trieStack, height :: heightStack => do
    let left ← cvtRootNode height left
    let right ← cvtRootNode height right
    let (newTrie, levels) ← mergeLevelStacks levelPageSize ⟨.skip, height⟩ left right st.levels
    some ⟨heightStack, newTrie :: trieStack, levels⟩
  | _, _ => none

/-- The inner loop of `_patrieLevelBuild`. -/
def mergeLoop (value : ℕ) : ℕ → BuildState → Option BuildState
  | 0, _ => none
  | fuel + 1, st => do
    let st ← mergeTop levelPageSize st
    let height ← topIntStack st.heightStack
    if height ≤ value then some st else mergeLoop value fuel st

/-- The loop of `_patrieLevelBuild`. -/
def levelLoop : ℕ → Node → List ℤ → BuildState → Option BuildState
  | 0, _, _, _ => none
  | fuel + 1, currNode, infixes, st =>
    if currNode.type = .start then do
      let trie ← createLevelStack levelPageSize currNode
      let (currNode, infixes) ← readNode infixes
      levelLoop fuel currNode infixes { st with trieStack := trie :: st.trieStack }
    else do
      let height ← topIntStack st.heightStack
      if currNode.value = 0 ∧ height = 0 then
        some { st with heightStack := st.heightStack.tail }
      else if height < currNode.value then do
        let heightStack ← pushIntStack st.heightStack currNode.value
        let (currNode, infixes) ← readNode infixes
        levelLoop fuel currNode infixes { st with heightStack := heightStack }
      else do
        -- Every round takes one height off the stack.
        let st ← mergeLoop levelPageSize currNode.value st.heightStack.length st
        levelLoop fuel currNode infixes st

/-- The last page of each level is written; these are the numbers of the first ones. -/
def flushLevels : List SingleLevel → LevelState → Option (List ℤ × LevelState)
  | [], st => some ([], st)
  | level :: trie, st => do
    let level ← nodeAppend ⟨.term, 0⟩ level
    let (level, st) ← writeTriePage levelPageSize level st
    let (first, st) ← flushLevels trie st
    some (level.firstPageNum :: first, st)

/-- The bytes of some `int`s. -/
def intsBytes (xs : List ℤ) : List UInt8 := xs.flatMap fun x => wordBytes (ulong x)

/-- What `_patrieLevelBuild` does with the levels of the trie: the numbers of the first pages and
the number of levels are written behind the page that was written last. -/
def writeLevels (trie : List SingleLevel) (st : LevelState) : Option (List ℤ × LevelState) := do
  let (first, st) ← flushLevels levelPageSize trie st
  let bytes := intsBytes (first ++ [(trie.length : ℤ)])
  some (first, { st with file := writeAt st.file st.pos bytes, pos := st.pos + bytes.length })

/-- `_patrieLevelBuild`: the table that is written and the level file. -/
def patrieLevelBuild (infixes : List ℤ) : Option (List ℤ × LevelState) := do
  let (currNode, rest) ← readNode infixes
  let heightStack ← pushIntStack [] currNode.value
  let (currNode, rest) ← readNode rest
  let st ← levelLoop levelPageSize (2 * infixes.length) currNode rest ⟨heightStack, [], [], 0, 0⟩
  match st.trieStack, st.heightStack with
  | [trie], [] => writeLevels levelPageSize trie st.levels
  | _, _ => none

end

/-- The directory that is read back is the one that was written, and the levels are those of a
trie. -/
def LevelBuildReadBack (levelPageSize : ℕ) (infixes : List ℤ) (t : Trie ℕ) : Prop :=
  ∃ first st, patrieLevelBuild levelPageSize infixes = some (first, st) ∧
    readFirstPages st.file = some first ∧ LevelLists levelPageSize st.file t

/-! ### The levels of two tries -/

section

variable {levelPageSize : ℕ} {st st' : LevelState} {W W' : ℕ → Prop}

/-- The levels of a forest, from its roots on. -/
inductive StackOf (levelPageSize : ℕ) (st : LevelState) (W : ℕ → Prop) :
    List SingleLevel → List (Trie ℕ) → Prop
  | nil : StackOf levelPageSize st W [] []
  | cons {level : SingleLevel} {levels : List SingleLevel} {ts : List (Trie ℕ)} : ts ≠ [] →
      LevelHas levelPageSize st W level (ts.map rootNode) →
      StackOf levelPageSize st W levels (Trie.nextLevel ts) →
      StackOf levelPageSize st W (level :: levels) ts

/-- Two levels for which no page has been kept twice. -/
def Apart (a b : SingleLevel) : Prop := a.pageNum = b.pageNum → a.pageNum < 0

/-- The pages that are kept for some levels. -/
def keptPages (levels : List SingleLevel) : List ℤ := levels.map (·.pageNum)

theorem LevelHas.lt {level : SingleLevel} {ns : List Node}
    (h : LevelHas levelPageSize st W level ns) : level.pageNum < st.nextAvailPage := by
  rcases h.reserved with hnone | ⟨p, hp, -, hlt⟩
  · omega
  · omega

theorem StackOf.lt {levels : List SingleLevel} {ts : List (Trie ℕ)}
    (h : StackOf levelPageSize st W levels ts) :
    ∀ level ∈ levels, level.pageNum < st.nextAvailPage := by
  induction h with
  | nil => exact fun level hlevel => absurd hlevel List.not_mem_nil
  | cons _ hhas _ ih =>
    intro level hlevel
    rcases List.mem_cons.mp hlevel with rfl | hlevel
    · exact hhas.lt
    · exact ih level hlevel

/-- The levels do not change where pages that are kept for others are written. -/
theorem StackOf.mono {own : List ℤ} {levels : List SingleLevel} {ts : List (Trie ℕ)}
    (h : StackOf levelPageSize st W levels ts) (hgrows : Grows levelPageSize st W st' W' own)
    (hown : ∀ level ∈ levels, 0 ≤ level.pageNum → level.pageNum ∉ own) :
    StackOf levelPageSize st' W' levels ts := by
  induction h with
  | nil => exact .nil
  | cons hne hhas _ ih =>
    obtain ⟨hlevel, hlevels⟩ := List.forall_mem_cons.mp hown
    exact .cons hne (hhas.mono hgrows hlevel) (ih hlevels)

/-- One level for each of the depths. -/
theorem StackOf.length {levels : List SingleLevel} {t : Trie ℕ}
    (h : StackOf levelPageSize st W levels [t]) : levels.length = t.height := by
  have hforest {levels : List SingleLevel} {ts : List (Trie ℕ)}
      (h : StackOf levelPageSize st W levels ts) :
      Trie.levelAt levels.length ts = [] ∧ ∀ n < levels.length, Trie.levelAt n ts ≠ [] := by
    induction h with
    | nil => exact ⟨rfl, fun n hn => absurd hn (Nat.not_lt_zero n)⟩
    | @cons level levels ts hne _ _ ih =>
      refine ⟨?_, fun n hn => ?_⟩
      · rw [List.length_cons, Trie.levelAt_succ']
        exact ih.1
      · cases n with
        | zero => exact hne
        | succ n =>
          rw [Trie.levelAt_succ']
          exact ih.2 n (Nat.lt_of_succ_lt_succ hn)
  obtain ⟨hnil, hne⟩ := hforest h
  refine Nat.le_antisymm (Nat.le_of_not_lt fun hlt => ?_) (Nat.le_of_not_lt fun hlt => ?_)
  · exact hne t.height hlt (Trie.levelAt_singleton_eq_nil (Nat.le_refl _))
  · exact Trie.levelAt_ne_nil_of_lt_height hlt hnil

theorem Grows.trans {st₁ st₂ : LevelState} {W₁ W₂ : ℕ → Prop} {own own' : List ℤ}
    (h : Grows levelPageSize st W st₁ W₁ own) (h' : Grows levelPageSize st₁ W₁ st₂ W₂ own') :
    Grows levelPageSize st W st₂ W₂ (own ++ own') := by
  refine ⟨fun p hp => h'.subset p (h.subset p hp), fun p bytes hp hread =>
    h'.keeps p bytes (h.subset p hp) (h.keeps p bytes hp hread), Nat.le_trans h.le h'.le,
    fun p hp => ?_⟩
  rcases h'.new p hp with hold | hown | hge
  · rcases h.new p hold with hold | hown | hge
    · exact Or.inl hold
    · exact Or.inr (Or.inl (List.mem_append_left _ hown))
    · exact Or.inr (Or.inr hge)
  · exact Or.inr (Or.inl (List.mem_append_right _ hown))
  · exact Or.inr (Or.inr (Nat.le_trans h.le hge))

/-- What putting two tries side by side does. -/
structure Joined (levelPageSize : ℕ) (st : LevelState) (W : ℕ → Prop)
    (left right levels : List SingleLevel) (st' : LevelState) (W' : ℕ → Prop)
    (ts : List (Trie ℕ)) : Prop where
  fileOk : FileOk levelPageSize st' W'
  grows : Grows levelPageSize st W st' W' (keptPages left ++ keptPages right)
  stack : StackOf levelPageSize st' W' levels ts
  number : ∀ level ∈ levels, level.pageNum ∈ keptPages left ++ keptPages right ∨
    (st.nextAvailPage : ℤ) ≤ level.pageNum
  apart : levels.Pairwise Apart
  avail : st'.nextAvailPage ≤ st.nextAvailPage + 2 * min left.length right.length

theorem Grows.of_subset {own own' : List ℤ} (h : Grows levelPageSize st W st' W' own)
    (hsub : own ⊆ own') : Grows levelPageSize st W st' W' own' :=
  ⟨h.subset, h.keeps, h.le, fun p hp => (h.new p hp).imp_right (Or.imp_left fun hin => hsub hin)⟩

/-- A page that is kept for one of two levels is not kept for others. -/
theorem notMem_keptPages {level : SingleLevel} {levels : List SingleLevel}
    (h : ∀ other ∈ levels, Apart level other) (hpos : 0 ≤ level.pageNum) :
    level.pageNum ∉ keptPages levels := by
  intro hmem
  obtain ⟨other, hother, heq⟩ := List.mem_map.mp hmem
  have hneg := h other hother heq.symm
  omega

theorem Apart.symm {a b : SingleLevel} (h : Apart a b) : Apart b a := fun heq =>
  heq ▸ h heq.symm

/-- **The levels of two tries** become those of both, side by side. -/
theorem mergePtrStack_spec {left right : List SingleLevel} {ts us : List (Trie ℕ)}
    (hn : 2 ≤ nodesPerPage levelPageSize) (hfile : FileOk levelPageSize st W)
    (hleft : StackOf levelPageSize st W left ts) (hright : StackOf levelPageSize st W right us)
    (hapart : (left ++ right).Pairwise Apart)
    (havail : st.nextAvailPage + 2 * min left.length right.length ≤ 2 ^ 30) :
    ∃ levels st' W', mergePtrStack levelPageSize left right st = some (levels, st') ∧
      Joined levelPageSize st W left right levels st' W' (ts ++ us) := by
  induction left generalizing right ts us st W with
  | nil =>
    cases hleft
    refine ⟨right, st, W, by rw [mergePtrStack], hfile, Grows.refl _ _ _ _, hright,
      fun level hlevel => Or.inl (List.mem_map_of_mem hlevel), hapart, Nat.le_add_right _ _⟩
  | cons l left ih =>
    cases right with
    | nil =>
      cases hright
      rw [List.append_nil] at hapart
      refine ⟨l :: left, st, W, by rw [mergePtrStack]; exact List.cons_ne_nil _ _, hfile,
        Grows.refl _ _ _ _, ?_,
        fun level hlevel => Or.inl (List.mem_append_left _ (List.mem_map_of_mem hlevel)), hapart,
        Nat.le_add_right _ _⟩
      rwa [List.append_nil]
    | cons r right =>
      obtain _ | ⟨hts, hl, hleft'⟩ := hleft
      obtain _ | ⟨hus, hr, hright'⟩ := hright
      -- No page is kept twice.
      rw [List.cons_append, List.pairwise_cons] at hapart
      obtain ⟨hlapart, hrest⟩ := hapart
      obtain ⟨hleftapart, hrright, hacross⟩ := List.pairwise_append.mp hrest
      obtain ⟨hrapart, hrightapart⟩ := List.pairwise_cons.mp hrright
      have hlr : Apart l r := hlapart r (List.mem_append_right _ List.mem_cons_self)
      have hothers : ∀ level ∈ left ++ right, Apart l level ∧ Apart r level := by
        intro level hlevel
        rcases List.mem_append.mp hlevel with hlevel | hlevel
        · exact ⟨hlapart level (List.mem_append_left _ hlevel),
            (hacross level hlevel r List.mem_cons_self).symm⟩
        · exact ⟨hlapart level (List.mem_append_right _ (List.mem_cons_of_mem _ hlevel)),
            hrapart level hlevel⟩
      have hnotin : ∀ level ∈ left ++ right, 0 ≤ level.pageNum →
          level.pageNum ∉ [l.pageNum, r.pageNum] := by
        intro level hlevel hpos hmem
        obtain ⟨hl', hr'⟩ := hothers level hlevel
        rcases List.mem_cons.mp hmem with heq | hmem
        · have hneg := hl' heq.symm
          omega
        · have heq := List.mem_singleton.mp hmem
          have hneg := hr' heq.symm
          omega
      rw [List.length_cons, List.length_cons] at havail
      -- The level on top.
      obtain ⟨m, st₁, W₁, hmerge, hmerged⟩ := mergeSingleLevel_spec hn hfile hl hr
        (fun hpos heq => absurd (hlr heq) (by omega)) (by omega)
      have hle₁ := hmerged.avail
      have hleft₁ := hleft'.mono hmerged.grows fun level hlevel =>
        hnotin level (List.mem_append_left _ hlevel)
      have hright₁ := hright'.mono hmerged.grows fun level hlevel =>
        hnotin level (List.mem_append_right _ hlevel)
      -- The levels below it.
      obtain ⟨levels, st₂, W₂, hmerge', hjoined⟩ := ih hmerged.fileOk hleft₁ hright₁
        (List.pairwise_append.mpr ⟨hleftapart, hrightapart, fun a ha b hb =>
          hacross a ha b (List.mem_cons_of_mem _ hb)⟩) (by omega)
      have hmapart : ∀ level ∈ left ++ right, Apart m level := by
        intro level hlevel heq
        obtain ⟨hl', hr'⟩ := hothers level hlevel
        rcases hmerged.number with hm | hm | hm
        · rw [hm] at heq ⊢
          exact hl' heq
        · rw [hm] at heq ⊢
          exact hr' heq
        · have hlt : level.pageNum < st.nextAvailPage := by
            rcases List.mem_append.mp hlevel with hlevel | hlevel
            · exact hleft'.lt level hlevel
            · exact hright'.lt level hlevel
          omega
      have hsub : [l.pageNum, r.pageNum] ++ (keptPages left ++ keptPages right) ⊆
          keptPages (l :: left) ++ keptPages (r :: right) := by
        intro x hx
        simp only [keptPages, List.map_cons, List.mem_append, List.mem_cons, List.not_mem_nil,
          or_false] at hx ⊢
        tauto
      refine ⟨m :: levels, st₂, W₂, ?_, hjoined.fileOk,
        (hmerged.grows.trans hjoined.grows).of_subset hsub, ?_, ?_, ?_, ?_⟩
      · rw [mergePtrStack, hmerge]
        simp only [Option.bind_eq_bind, Option.bind_some, hmerge']
      · have hkept : keptPages left ++ keptPages right = keptPages (left ++ right) :=
          List.map_append.symm
        refine .cons (List.append_ne_nil_of_left_ne_nil hts us) ?_ ?_
        · rw [List.map_append]
          refine hmerged.has.mono hjoined.grows fun hpos => ?_
          rw [hkept]
          exact notMem_keptPages hmapart hpos
        · rw [Trie.nextLevel_append]
          exact hjoined.stack
      · intro level hlevel
        rcases List.mem_cons.mp hlevel with rfl | hlevel
        · rcases hmerged.number with hm | hm | hm
          · exact Or.inl (hsub (by rw [hm]; exact List.mem_cons_self))
          · exact Or.inl (hsub (by rw [hm]; exact List.mem_cons_of_mem _ List.mem_cons_self))
          · exact Or.inr hm
        · rcases hjoined.number level hlevel with hin | hge
          · exact Or.inl (hsub (List.mem_append_right _ hin))
          · have hle := hmerged.grows.le
            exact Or.inr (by omega)
      · refine List.pairwise_cons.mpr ⟨fun level hlevel heq => ?_, hjoined.apart⟩
        rcases hjoined.number level hlevel with hin | hge
        · rw [show keptPages left ++ keptPages right = keptPages (left ++ right) from
            List.map_append.symm] at hin
          obtain ⟨other, hother, heq'⟩ := List.mem_map.mp hin
          exact hmapart other hother (heq.trans heq'.symm)
        · have hlt := hmerged.has.lt
          omega
      · have hle := hjoined.avail
        rw [List.length_cons, List.length_cons]
        omega

end

/-! ### Putting two tries together -/

section

variable {levelPageSize : ℕ} {st st' : LevelState} {W W' : ℕ → Prop}

theorem nextLevel_addSkip (n : ℕ) (t : Trie ℕ) :
    Trie.nextLevel [t.addSkip n] = Trie.nextLevel [t] := by
  cases t <;> rfl

@[simp] theorem size_addSkip (n : ℕ) (t : Trie ℕ) : (t.addSkip n).size = t.size := by
  cases t <;> rfl

@[simp] theorem height_addSkip (n : ℕ) (t : Trie ℕ) : (t.addSkip n).height = t.height := by
  cases t <;> rfl

/-- Heights become skips. -/
theorem cvtHeightToSkip_rootNode (height : ℕ) (t : Trie ℕ) :
    cvtHeightToSkip height (rootNode (t.addSkip (height + 1))) = some (rootNode t) := by
  cases t with
  | leaf start => rfl
  | node skip l r =>
    show (if height < skip + (height + 1) then _ else none) = _
    rw [if_pos (by omega)]
    show some (⟨.skip, skip + (height + 1) - height - 1⟩ : Node) = _
    rw [show skip + (height + 1) - height - 1 = skip by omega]
    rfl

theorem rootNode_addSkip_value (n : ℕ) (t : Trie ℕ) :
    (rootNode t).value ≤ (rootNode (t.addSkip n)).value := by
  cases t with
  | leaf start => exact Nat.le_refl _
  | node skip l r => exact Nat.le_add_right _ _

/-- A level of one node is in memory. -/
theorem LevelHas.single {level : SingleLevel} {n : Node} (hn : 2 ≤ nodesPerPage levelPageSize)
    (h : LevelHas levelPageSize st W level [n]) :
    level.firstPageNum = -1 ∧ level.pageNum = -1 ∧ level.used = 1 ∧
      ∃ ns, level.node = n :: ns := by
  have hroom := h.room
  have hlength := h.length
  obtain ⟨hfirst, hnum, hns⟩ | ⟨-, -, ms, -, -, -, -, -, -, hlen⟩ := h.pages
  · have hused : level.used = 1 := by
      have htake := congrArg List.length hns
      rw [List.length_singleton, List.length_take] at htake
      omega
    refine ⟨hfirst, hnum, hused, ?_⟩
    rw [hused] at hns
    rcases hnode : level.node with _ | ⟨n', ns⟩
    · rw [hnode] at hns
      exact absurd hns (List.cons_ne_nil _ _)
    · rw [hnode, List.take_succ_cons] at hns
      exact ⟨ns, by rw [(List.cons.inj hns).1]⟩
  · rw [List.length_singleton] at hlen
    omega

/-- The root of a trie that is put below another node. -/
theorem cvtRootNode_spec {height : ℕ} {levels : List SingleLevel} {t : Trie ℕ}
    (hn : 2 ≤ nodesPerPage levelPageSize)
    (h : StackOf levelPageSize st W levels [t.addSkip (height + 1)]) :
    ∃ levels', cvtRootNode height levels = some levels' ∧
      StackOf levelPageSize st W levels' [t] ∧ keptPages levels' = keptPages levels := by
  cases h with
  | @cons level levels _ _ hhas hrest =>
    rw [List.map_singleton] at hhas
    obtain ⟨hfirst, hnum, hused, ns, hnode⟩ := hhas.single hn
    have hvalues := hhas.values
    rw [hnode] at hvalues
    obtain ⟨hroot, hvalues'⟩ := List.forall_mem_cons.mp hvalues
    refine ⟨{ level with node := rootNode t :: level.node.tail } :: levels, ?_,
      .cons (List.cons_ne_nil _ _) ⟨?_, hhas.rest, ?_, hhas.pos, hhas.room, fun hnone n hmem => ?_,
        ?_⟩ ?_, rfl⟩
    · simp only [cvtRootNode, hnode, List.head?_cons, Option.bind_eq_bind, Option.bind_some,
        cvtHeightToSkip_rootNode]
    · have hlength := hhas.length
      rw [hnode, List.length_cons] at hlength
      rw [hnode, List.tail_cons, List.length_cons]
      exact hlength
    · rw [hnode, List.tail_cons]
      exact List.forall_mem_cons.mpr
        ⟨lt_of_le_of_lt (rootNode_addSkip_value (height + 1) t) hroot, hvalues'⟩
    · refine hhas.unused hnone n ?_
      dsimp only at hmem
      rw [hused] at hmem ⊢
      rwa [hnode] at hmem ⊢
    · refine Or.inl ⟨hfirst, hnum, ?_⟩
      dsimp only
      rw [hused]
      rfl
    · rwa [nextLevel_addSkip] at hrest

/-- A new level has one node. -/
theorem levelHas_new {root : Node} (hn : 2 ≤ nodesPerPage levelPageSize)
    (hroot : root.value < 2 ^ 30) :
    ∃ level, nodeAppend root (newSingleLevel levelPageSize) = some level ∧
      LevelHas levelPageSize st W level [root] ∧ level.pageNum = -1 := by
  obtain ⟨level, happend, hused, hlength, htake, hmem, hrest, hfirst, hnum, hdrop⟩ :=
    @nodeAppend_spec root (newSingleLevel levelPageSize) (by
      show 0 + 1 ≤ (List.replicate (levelPageSize / 4) _).length
      rw [List.length_replicate]
      exact Nat.le_trans (by omega) hn)
  have hlen : (newSingleLevel levelPageSize).node.length = nodesPerPage levelPageSize :=
    List.length_replicate
  refine ⟨level, happend, ⟨hlength.trans hlen, ?_, ?_, ?_, ?_, fun _ n hmem' => ?_,
    Or.inl ⟨hfirst, hnum, ?_⟩⟩, hnum⟩
  · rw [hrest]
    exact List.length_replicate
  · intro n hn'
    rcases hmem n hn' with hold | rfl
    · rw [List.eq_of_mem_replicate hold]
      exact Node.ofWord_value_lt _
    · exact hroot
  · omega
  · rw [hused]
    exact hn
  · rw [hdrop] at hmem'
    exact List.eq_of_mem_replicate (List.mem_of_mem_drop hmem')
  · rw [htake]
    rfl

theorem pairwise_apart {levels levels' : List SingleLevel} (h : levels.Pairwise Apart)
    (hkept : keptPages levels' = keptPages levels) : levels'.Pairwise Apart := by
  have hiff (l : List SingleLevel) :
      l.Pairwise Apart ↔ (keptPages l).Pairwise fun a b => a = b → a < 0 := by
    rw [keptPages, List.pairwise_map]
    exact Iff.rfl
  rw [hiff, hkept, ← hiff]
  exact h

/-- The levels of a trie that is on the stack; its pages are new since then. -/
structure Built (levelPageSize : ℕ) (avail : ℕ) (st : LevelState) (W : ℕ → Prop)
    (levels : List SingleLevel) (t : Trie ℕ) : Prop where
  stack : StackOf levelPageSize st W levels [t]
  number : ∀ p ∈ keptPages levels, p < 0 ∨ (avail : ℤ) ≤ p
  apart : levels.Pairwise Apart
  le : avail ≤ st.nextAvailPage
  avail : st.nextAvailPage + 2 * t.height ≤ avail + 2 * t.size

/-- **Two tries under one node.** -/
theorem mergeTop_spec {heightStack : List ℕ} {trieStack : List (List SingleLevel)}
    {height avail : ℕ} {left right : List SingleLevel} {l r : Trie ℕ} {st₀ : LevelState} {W₀ : ℕ → Prop}
    (hn : 2 ≤ nodesPerPage levelPageSize) (hheight : height < 2 ^ 30)
    (hfile : FileOk levelPageSize st W)
    (hleft : Built levelPageSize avail st₀ W₀ left (l.addSkip (height + 1)))
    (hgrows : Grows levelPageSize st₀ W₀ st W [])
    (hright : Built levelPageSize st₀.nextAvailPage st W right (r.addSkip (height + 1)))
    (havail : avail + 2 * (Trie.node height l r).size ≤ 2 ^ 30) :
    ∃ levels st' W', mergeTop levelPageSize
        ⟨height :: heightStack, right :: left :: trieStack, st⟩ =
          some ⟨heightStack, levels :: trieStack, st'⟩ ∧
      FileOk levelPageSize st' W' ∧
      Built levelPageSize avail st' W' levels (.node height l r) ∧
      Grows levelPageSize st W st' W' (keptPages left ++ keptPages right) := by
  have hleft' := hleft.stack.mono hgrows fun level _ _ => List.not_mem_nil
  obtain ⟨left', hcvt, hstack, hkept⟩ := cvtRootNode_spec hn hleft'
  obtain ⟨right', hcvt', hstack', hkept'⟩ := cvtRootNode_spec hn hright.stack
  have hapart : (left' ++ right').Pairwise Apart := by
    refine List.pairwise_append.mpr ⟨pairwise_apart hleft.apart hkept,
      pairwise_apart hright.apart hkept', fun a ha b hb heq => ?_⟩
    have ha' : a.pageNum ∈ keptPages left := hkept ▸ List.mem_map_of_mem ha
    have hb' : b.pageNum ∈ keptPages right := hkept' ▸ List.mem_map_of_mem hb
    obtain ⟨level, hlevel, hnum⟩ := List.mem_map.mp ha'
    have hlt := hleft.stack.lt level hlevel
    rcases hright.number _ hb' with hneg | hge
    · rw [heq]
      exact hneg
    · omega
  have hle := hleft.le
  have hle' := hright.le
  have hheights := hleft.avail
  have hheights' := hright.avail
  rw [height_addSkip, size_addSkip] at hheights hheights'
  rw [Trie.size] at havail
  have hlpos := Trie.height_pos l
  have hrpos := Trie.height_pos r
  have hlength := hstack.length
  have hlength' := hstack'.length
  obtain ⟨levels, st', W', hmerge, hjoined⟩ := mergePtrStack_spec hn hfile hstack hstack' hapart
    (by omega)
  obtain ⟨level, happend, hhas, hnum⟩ :=
    @levelHas_new levelPageSize st' W' ⟨.skip, height⟩ hn hheight
  refine ⟨level :: levels, st', W', ?_, hjoined.fileOk, ⟨.cons (List.cons_ne_nil _ _) hhas ?_, ?_,
    List.pairwise_cons.mpr ⟨fun other hother heq => ?_, hjoined.apart⟩, ?_, ?_⟩, ?_⟩
  · simp only [mergeTop, mergeLevelStacks, hcvt, hcvt', hmerge, happend, Option.bind_eq_bind,
      Option.bind_some]
  · exact hjoined.stack
  · intro p hp
    obtain ⟨other, hother, rfl⟩ := List.mem_map.mp hp
    rcases List.mem_cons.mp hother with rfl | hother
    · exact Or.inl (by omega)
    · rcases hjoined.number other hother with hin | hge
      · rw [hkept, hkept'] at hin
        rcases List.mem_append.mp hin with hin | hin
        · exact hleft.number _ hin
        · exact (hright.number _ hin).imp_right fun hge => by omega
      · exact Or.inr (by omega)
  · omega
  · exact Nat.le_trans (Nat.le_trans hle hle') hjoined.grows.le
  · have hle := hjoined.avail
    rw [Trie.height, Trie.size]
    omega
  · have hown := hjoined.grows
    rwa [hkept, hkept'] at hown

end

/-! ### The loop over the infix file -/

section

variable {levelPageSize : ℕ}

/-- The most heights that are on the stack because of a trie. -/
def heightDepth : Trie ℕ → ℕ
  | .leaf _ => 0
  | .node _ l r => max (heightDepth l) (1 + heightDepth r)

/-- The loop takes no more rounds than it needs. -/
theorem levelLoop_succ {fuel : ℕ} {currNode : Node} {infixes : List ℤ} {st st' : BuildState}
    (h : levelLoop levelPageSize fuel currNode infixes st = some st') :
    levelLoop levelPageSize (fuel + 1) currNode infixes st = some st' := by
  induction fuel generalizing currNode infixes st with
  | zero => exact absurd h (by simp [levelLoop])
  | succ fuel ih =>
    rw [levelLoop] at h ⊢
    split
    next hstart =>
      rw [if_pos hstart] at h
      obtain ⟨trie, htrie, h⟩ := Option.bind_eq_some_iff.mp h
      obtain ⟨⟨node, rest⟩, hread, h⟩ := Option.bind_eq_some_iff.mp h
      exact Option.bind_eq_some_iff.mpr ⟨trie, htrie, Option.bind_eq_some_iff.mpr
        ⟨(node, rest), hread, ih h⟩⟩
    next hstart =>
      rw [if_neg hstart] at h
      obtain ⟨height, htop, h⟩ := Option.bind_eq_some_iff.mp h
      refine Option.bind_eq_some_iff.mpr ⟨height, htop, ?_⟩
      dsimp only at h ⊢
      split
      next hdone => rwa [if_pos hdone] at h
      next hdone =>
        rw [if_neg hdone] at h
        split
        next hpush =>
          rw [if_pos hpush] at h
          obtain ⟨stack, hstack, h⟩ := Option.bind_eq_some_iff.mp h
          obtain ⟨⟨node, rest⟩, hread, h⟩ := Option.bind_eq_some_iff.mp h
          exact Option.bind_eq_some_iff.mpr ⟨stack, hstack, Option.bind_eq_some_iff.mpr
            ⟨(node, rest), hread, ih h⟩⟩
        next hpush =>
          rw [if_neg hpush] at h
          obtain ⟨st₁, hmerge, h⟩ := Option.bind_eq_some_iff.mp h
          exact Option.bind_eq_some_iff.mpr ⟨st₁, hmerge, ih h⟩

theorem topIntStack_cons {height : ℕ} {stack : List ℕ}
    (h : (height :: stack).length < intStackSize) :
    topIntStack (height :: stack) = some height := by
  rw [topIntStack, if_pos h, List.head?_cons]

/-- A round of the loop that begins with two tries being put together. -/
theorem levelLoop_merge {fuel value height : ℕ} {infixes : List ℤ} {stack : List ℕ}
    {st st₂ : BuildState} (hheights : st.heightStack = height :: stack)
    (hsize : st.heightStack.length < intStackSize) (hlt : value < height) :
    levelLoop levelPageSize (fuel + 1) ⟨.skip, value⟩ infixes st = some st₂ ↔
      ∃ st₁, mergeLoop levelPageSize value st.heightStack.length st = some st₁ ∧
        levelLoop levelPageSize fuel ⟨.skip, value⟩ infixes st₁ = some st₂ := by
  have htop : topIntStack st.heightStack = some height := by
    rw [hheights] at hsize ⊢
    exact topIntStack_cons hsize
  rw [levelLoop, if_neg NodeType.noConfusion, htop]
  simp only [Option.bind_eq_bind, Option.bind_some]
  rw [if_neg (by omega), if_neg (by omega), Option.bind_eq_some_iff]

/-- Two tries can be put together before the loop goes on. -/
theorem levelLoop_mergeTop {fuel value height top : ℕ} {infixes : List ℤ} {stack : List ℕ}
    {st st₁ st₂ : BuildState} (hheights : st.heightStack = height :: top :: stack)
    (hsize : st.heightStack.length < intStackSize) (hlt : value < height)
    (hmerge : mergeTop levelPageSize st = some st₁) (hheights₁ : st₁.heightStack = top :: stack)
    (h : levelLoop levelPageSize fuel ⟨.skip, value⟩ infixes st₁ = some st₂) :
    levelLoop levelPageSize (fuel + 1) ⟨.skip, value⟩ infixes st = some st₂ := by
  have hlength : st.heightStack.length = st₁.heightStack.length + 1 := by
    rw [hheights, hheights₁]
    rfl
  have htop : topIntStack st₁.heightStack = some top := by
    rw [hheights₁]
    rw [hheights, List.length_cons] at hsize
    exact topIntStack_cons (by omega)
  have hloop : mergeLoop levelPageSize value st.heightStack.length st =
      if top ≤ value then some st₁
      else mergeLoop levelPageSize value st₁.heightStack.length st₁ := by
    rw [hlength, mergeLoop, hmerge]
    simp only [Option.bind_eq_bind, Option.bind_some, htop]
  refine (levelLoop_merge hheights hsize hlt).mpr ?_
  rw [hloop]
  by_cases hle : top ≤ value
  · rw [if_pos hle]
    exact ⟨st₁, rfl, h⟩
  · rw [if_neg hle]
    cases fuel with
    | zero => exact absurd h (by simp [levelLoop])
    | succ fuel =>
      obtain ⟨st₃, hrest, h⟩ :=
        (levelLoop_merge hheights₁ (by omega) (by omega)).mp h
      exact ⟨st₃, hrest, levelLoop_succ h⟩

theorem infixBody_node (start start' height : ℕ) (left right : List (ℕ × ℕ)) :
    infixBody start (left ++ (height, start') :: right) =
      infixBody start left ++ (height : ℤ) :: infixBody start' right := by
  rw [infixBody, List.flatMap_append, List.flatMap_cons, infixBody, infixBody]
  rfl

theorem readNode_start {start : ℕ} (hpos : 0 < start) (hlt : start < 2 ^ 30) (infixes : List ℤ) :
    readNode (-(start : ℤ) :: infixes) = some (⟨.start, start⟩, infixes) := by
  rw [readNode, if_pos (by omega), Int.natAbs_neg, Int.natAbs_natCast, Nat.mod_eq_of_lt hlt]

theorem readNode_height {height : ℕ} (hlt : height < 2 ^ 30) (infixes : List ℤ) :
    readNode ((height : ℤ) :: infixes) = some (⟨.skip, height⟩, infixes) := by
  rw [readNode, if_neg (by omega), Int.natAbs_natCast, Nat.mod_eq_of_lt hlt]

/-- Values that a node can hold; a start is not 0. -/
def Fits (start : ℕ) (rest : List (ℕ × ℕ)) : Prop :=
  (0 < start ∧ start < 2 ^ 30) ∧ ∀ p ∈ rest, p.1 < 2 ^ 30 ∧ 0 < p.2 ∧ p.2 < 2 ^ 30

/-- **When a sequence has been read its trie is on the stack.**  The loop goes on with the number
behind it, which is smaller than its heights. -/
theorem levelLoop_splits {below start : ℕ} {rest : List (ℕ × ℕ)} {t : Trie ℕ}
    (h : Splits below start rest t) (hn : 2 ≤ nodesPerPage levelPageSize) (hfits : Fits start rest)
    {top : ℕ} {stack : List ℕ} (htop : ∀ p ∈ rest, top < p.1)
    (hdepth : (top :: stack).length + heightDepth t < intStackSize)
    (trieStack : List (List SingleLevel)) {st : LevelState} {W : ℕ → Prop}
    (hfile : FileOk levelPageSize st W) (havail : st.nextAvailPage + 2 * t.size ≤ 2 ^ 30) :
    ∃ levels st' W', FileOk levelPageSize st' W' ∧ Grows levelPageSize st W st' W' [] ∧
      Built levelPageSize st.nextAvailPage st' W' levels (t.addSkip below) ∧
      ∀ fuel value infixes st₂, value < 2 ^ 30 → (∀ p ∈ rest, value < p.1) →
        levelLoop levelPageSize fuel ⟨.skip, value⟩ infixes
          ⟨top :: stack, levels :: trieStack, st'⟩ = some st₂ →
        ∃ tail, infixBody start rest = -(start : ℤ) :: tail ∧
          levelLoop levelPageSize (fuel + (3 * rest.length + 1)) ⟨.start, start⟩
            (tail ++ (value : ℤ) :: infixes) ⟨top :: stack, trieStack, st⟩ = some st₂ := by
  induction h generalizing top stack trieStack st W with
  | leaf below start =>
    obtain ⟨⟨-, hlt⟩, -⟩ := hfits
    obtain ⟨level, happend, hhas, hnum⟩ := @levelHas_new levelPageSize st W ⟨.start, start⟩ hn hlt
    refine ⟨[level], st, W, hfile, Grows.refl _ _ _ _,
      ⟨.cons (List.cons_ne_nil _ _) hhas .nil, fun p hp => ?_, List.pairwise_singleton _ _,
        Nat.le_refl _, Nat.le_refl _⟩, fun fuel value infixes st₂ hvalue _ hloop => ⟨[], rfl, ?_⟩⟩
    · rw [List.mem_singleton.mp hp]
      exact Or.inl (hnum.trans_lt (by decide))
    · show levelLoop levelPageSize (fuel + 1) _ _ _ = _
      rw [levelLoop, if_pos rfl, createLevelStack, happend]
      simp only [Option.bind_eq_bind, Option.map_some, Option.bind_some, List.nil_append,
        readNode_height hvalue]
      exact hloop
  | @node below start start' height left right l r hbelow hl hr _ _ ihl ihr =>
    obtain ⟨hstart, hfits⟩ := hfits
    obtain ⟨hheight, hstart'⟩ := hfits _ (List.mem_append_right left List.mem_cons_self)
    have htop' := htop _ (List.mem_append_right left List.mem_cons_self)
    rw [heightDepth] at hdepth
    rw [Trie.size] at havail
    have hsizel := Trie.size_pos l
    have hheightl := Trie.height_pos l
    dsimp only at hheight hstart' htop'
    have hdepthl : (top :: stack).length + heightDepth l < intStackSize := by omega
    have hdepthr : (height :: top :: stack).length + heightDepth r < intStackSize := by
      rw [List.length_cons]
      omega
    -- The trie on the left.
    obtain ⟨levels₁, st₁, W₁, hfile₁, hgrows₁, hbuilt₁, hloop₁⟩ := ihl
      ⟨hstart, fun p hp => hfits p (List.mem_append_left _ hp)⟩
      (fun p hp => htop p (List.mem_append_left _ hp)) hdepthl trieStack hfile (by omega)
    have havail₁ := hbuilt₁.avail
    rw [height_addSkip, size_addSkip] at havail₁
    -- The trie on the right, which is read while the height is on the stack.
    obtain ⟨levels₂, st₂, W₂, hfile₂, hgrows₂, hbuilt₂, hloop₂⟩ := ihr
      ⟨hstart', fun p hp => hfits p (List.mem_append_right _ (List.mem_cons_of_mem _ hp))⟩
      hr hdepthr (levels₁ :: trieStack) hfile₁ (by omega)
    -- Both of them.
    obtain ⟨levels, st₃, W₃, hmerge, hfile₃, hbuilt, hgrows₃⟩ :=
      @mergeTop_spec levelPageSize st₂ W₂ (top :: stack) trieStack height st.nextAvailPage levels₁
        levels₂ l r st₁ W₁ hn hheight hfile₂ hbuilt₁ hgrows₂ hbuilt₂ (by rw [Trie.size]; omega)
    have hskip : height - below + below = height := by omega
    refine ⟨levels, st₃, W₃, hfile₃, ?_, ?_, fun fuel value infixes st₄ hvalue hvalues hloop => ?_⟩
    · refine ⟨fun p hp => hgrows₃.subset p (hgrows₂.subset p (hgrows₁.subset p hp)),
        fun p bytes hp hread => hgrows₃.keeps p bytes (hgrows₂.subset p (hgrows₁.subset p hp))
          (hgrows₂.keeps p bytes (hgrows₁.subset p hp) (hgrows₁.keeps p bytes hp hread)),
        Nat.le_trans (Nat.le_trans hgrows₁.le hgrows₂.le) hgrows₃.le, fun p hp => ?_⟩
      have hle₁ := hgrows₁.le
      have hle₂ := hgrows₂.le
      have hold {q : ℕ} (hq : W₂ q) : W q ∨ (q : ℤ) ∈ ([] : List ℤ) ∨ st.nextAvailPage ≤ q := by
        rcases hgrows₂.new q hq with hq | hq | hq
        · exact hgrows₁.new q hq
        · exact absurd hq List.not_mem_nil
        · exact Or.inr (Or.inr (by omega))
      rcases hgrows₃.new p hp with hp | hp | hp
      · exact hold hp
      · rcases List.mem_append.mp hp with hp | hp
        · rcases hbuilt₁.number p hp with hneg | hge
          · omega
          · exact Or.inr (Or.inr (by omega))
        · rcases hbuilt₂.number p hp with hneg | hge
          · omega
          · exact Or.inr (Or.inr (by omega))
      · exact Or.inr (Or.inr (by omega))
    · rw [Trie.addSkip, hskip]
      exact hbuilt
    · have hlt := hvalues _ (List.mem_append_right left List.mem_cons_self)
      dsimp only at hlt
      have hsize : (height :: top :: stack).length < intStackSize := by omega
      have hmerged := levelLoop_mergeTop rfl hsize hlt hmerge rfl hloop
      obtain ⟨tail₂, htail₂, hright⟩ := hloop₂ (fuel + 1) value infixes st₄ hvalue
        (fun p hp => Nat.lt_trans hlt (hr p hp)) hmerged
      -- The height is pushed.
      have hpush : levelLoop levelPageSize (fuel + 1 + (3 * right.length + 1) + 1) ⟨.skip, height⟩
          (-(start' : ℤ) :: (tail₂ ++ (value : ℤ) :: infixes))
          ⟨top :: stack, levels₁ :: trieStack, st₁⟩ = some st₄ := by
        rw [levelLoop, if_neg NodeType.noConfusion, topIntStack_cons (by omega)]
        simp only [Option.bind_eq_bind, Option.bind_some]
        rw [if_neg (by omega), if_pos htop', pushIntStack, if_pos (by omega), Option.bind_some,
          readNode_start hstart'.1 hstart'.2]
        exact hright
      obtain ⟨tail₁, htail₁, hleft⟩ := hloop₁ _ height _ st₄ hheight hl hpush
      refine ⟨tail₁ ++ (height : ℤ) :: -(start' : ℤ) :: tail₂, ?_, ?_⟩
      · rw [infixBody_node, htail₁, htail₂, List.cons_append]
      · rw [List.append_assoc, List.cons_append, List.cons_append, List.length_append,
          List.length_cons, show fuel + (3 * (left.length + (right.length + 1)) + 1) =
            fuel + 1 + (3 * right.length + 1) + 1 + (3 * left.length + 1) by omega]
        exact hleft

end

end Archie.Levels
