/-
The level file of a trie (`levels.c`: `_patrieLevelBuild`; `page.c`: `_patriePagedBuild`).

The directory is written behind the page that has been written last, which is the last one of the
deepest level.  If this level has other pages then the number of that page was taken before the
levels above were ended, and it is not the last one of the file: the directory is written over
pages of other levels.

* `readFirstPages_append` — a directory at the end of the file is read back.
* `patrieLevelBuild_eq` — the trie of the infix file is built.
* `readBack_of_short` — the directory is at the end of the file if the deepest level is on one page.
* `patrieLevelBuild_readBack` — what has been written then is read back.
-/
import Archie.LevelDirectory

namespace Archie.Levels

open Patricia

/-! ### The directory -/

theorem length_intsBytes (xs : List ℤ) : (intsBytes xs).length = 4 * xs.length := by
  induction xs with
  | nil => rfl
  | cons x xs ih =>
    rw [intsBytes, List.flatMap_cons, List.length_append, length_wordBytes, ← intsBytes, ih,
      List.length_cons]
    omega

theorem intsBytes_append (xs ys : List ℤ) : intsBytes (xs ++ ys) = intsBytes xs ++ intsBytes ys :=
  List.flatMap_append

/-- An `int` is read back. -/
theorem readInt_append {x : ℤ} (hx : IsInt x) (a b : List UInt8) :
    readInt (a ++ (wordBytes (ulong x) ++ b)) a.length = some x := by
  rw [readInt, freadAt, if_neg (by omega), Int.toNat_natCast, List.drop_left,
    List.take_left' (length_wordBytes _), if_pos (length_wordBytes _), Option.map_some,
    bytesWord_wordBytes (ulong_lt x), sint_ulong hx]

theorem mapM_readInt {xs : List ℤ} (hxs : ∀ x ∈ xs, IsInt x) (a b : List UInt8) :
    ((List.range xs.length).mapM fun i : ℕ =>
      readInt (a ++ (intsBytes xs ++ b)) (a.length + i * 4)) = some xs := by
  induction xs generalizing a with
  | nil => rfl
  | cons x xs ih =>
    obtain ⟨hx, hxs'⟩ := List.forall_mem_cons.mp hxs
    have hbytes : intsBytes (x :: xs) ++ b = wordBytes (ulong x) ++ (intsBytes xs ++ b) := by
      rw [intsBytes, List.flatMap_cons, List.append_assoc, ← intsBytes]
    have hrest : ((List.range xs.length).mapM fun i : ℕ =>
        readInt (a ++ (intsBytes (x :: xs) ++ b)) (a.length + (i + 1 : ℕ) * 4)) = some xs := by
      have hmapM := ih hxs' (a ++ wordBytes (ulong x))
      rw [List.length_append, length_wordBytes, List.append_assoc, ← hbytes] at hmapM
      rw [← hmapM]
      congr 1
      funext i
      congr 1
      push_cast
      omega
    rw [List.length_cons, List.range_succ_eq_map, List.mapM_cons, List.mapM_map]
    have hhead : readInt (a ++ (intsBytes (x :: xs) ++ b)) (a.length + (0 : ℕ) * 4) = some x := by
      rw [hbytes, Nat.cast_zero, zero_mul, add_zero]
      exact readInt_append hx a _
    rw [hhead]
    simp only [Option.bind_eq_bind, Option.bind_some, Function.comp_def, Nat.succ_eq_add_one, hrest]
    rfl

/-- **A directory at the end of the file** is read back. -/
theorem readFirstPages_append {first : List ℤ} (hfirst : ∀ f ∈ first, IsInt f)
    (hlength : first.length < 2147483648) (file : List UInt8) :
    readFirstPages (file ++ intsBytes (first ++ [(first.length : ℤ)])) = some first := by
  have hn : IsInt first.length := by
    unfold IsInt
    omega
  have hbytes : intsBytes (first ++ [(first.length : ℤ)]) =
      intsBytes first ++ (wordBytes (ulong first.length) ++ []) := by
    rw [intsBytes_append]
    rfl
  have hlen : (file ++ intsBytes (first ++ [(first.length : ℤ)])).length =
      file.length + 4 * first.length + 4 := by
    rw [List.length_append, length_intsBytes, List.length_append, List.length_singleton]
    omega
  have hlast : readInt (file ++ intsBytes (first ++ [(first.length : ℤ)]))
      ((file ++ intsBytes (first ++ [(first.length : ℤ)])).length - 4) =
        some (first.length : ℤ) := by
    have hread := readInt_append hn (file ++ intsBytes first) []
    rw [List.append_assoc, ← hbytes] at hread
    rw [← hread, hlen, List.length_append, length_intsBytes]
    congr 1
    push_cast
    omega
  rw [readFirstPages, hlast]
  simp only [Option.bind_eq_bind, Option.bind_some, bind_pure_comp, List.map_eq_map]
  rw [if_neg (by omega), Int.toNat_natCast, List.mapM_map, hbytes, ← mapM_readInt hfirst file]
  congr 1
  funext i
  rw [Function.comp_apply]
  congr 1
  rw [← hbytes, hlen]
  push_cast
  omega

/-! ### The trie of the infix file -/

/-- What limits there are: the values fit into nodes, there is no height of 0, the stack of heights
has room, and the file is not too long for an `int`. -/
structure Limits (levelPageSize start : ℕ) (rest : List (ℕ × ℕ)) : Prop where
  fits : Fits start rest
  heights : ∀ p ∈ rest, 0 < p.1
  stack : 1 + heightDepth (infixTrie start rest) < intStackSize
  file : 2 * (infixTrie start rest).size * levelPageSize < 2 ^ 31

section

variable {levelPageSize start : ℕ} {rest : List (ℕ × ℕ)}

theorem length_infixBody : (infixBody start rest).length = 2 * rest.length + 1 := by
  rw [infixBody, List.length_cons]
  induction rest with
  | nil => rfl
  | cons p rest ih =>
    rw [List.flatMap_cons, List.length_append, List.length_cons, List.length_cons, List.length_cons,
      List.length_nil]
    omega

/-- Where the file has room there are enough numbers for the pages. -/
theorem Limits.size_le (h : Limits levelPageSize start rest)
    (hn : 2 ≤ nodesPerPage levelPageSize) : 2 * (infixTrie start rest).size < 2 ^ 28 := by
  have hsize : 8 ≤ levelPageSize := by
    rw [nodesPerPage] at hn
    omega
  have hmul := Nat.mul_le_mul_left (2 * (infixTrie start rest).size) hsize
  have hfile := h.file
  omega

/-- **The trie of the infix file** is built, and there are no more pages than nodes. -/
theorem patrieLevelBuild_eq (hn : 2 ≤ nodesPerPage levelPageSize)
    (hsep : Separated (rest.map Prod.fst)) (h : Limits levelPageSize start rest) :
    ∃ levels st W, patrieLevelBuild levelPageSize (infixFile start rest) =
        writeLevels levelPageSize levels st ∧ FileOk levelPageSize st W ∧
      Built levelPageSize 0 st W levels (infixTrie start rest) := by
  have hsize := h.size_le hn
  have hempty : FileOk levelPageSize ⟨[], 0, 0⟩ fun _ => False :=
    ⟨Nat.zero_le _, fun p hp => absurd hp not_false⟩
  have hstack : ([0] : List ℕ).length + heightDepth (infixTrie start rest) < intStackSize := h.stack
  obtain ⟨levels, st, W, hfile, -, hbuilt, hloop⟩ := levelLoop_splits (splits_infixTrie hsep) hn
    h.fits h.heights hstack [] hempty (by dsimp only; omega)
  have hskip (t : Trie ℕ) : t.addSkip 0 = t := by
    cases t <;> rfl
  rw [hskip] at hbuilt
  refine ⟨levels, st, W, ?_, hfile, hbuilt⟩
  -- The 0 at the end of the file, and the one that is on the stack.
  have hdone (fuel : ℕ) : levelLoop levelPageSize (fuel + 1) ⟨.skip, 0⟩ [] ⟨[0], [levels], st⟩ =
      some ⟨[], [levels], st⟩ := by
    rw [levelLoop, if_neg NodeType.noConfusion, topIntStack_cons (by decide)]
    rfl
  obtain ⟨tail, htail, hrun⟩ := hloop (rest.length + 5) 0 [] _ (by decide) h.heights (hdone _)
  have hlength : (infixFile start rest).length = 2 * rest.length + 3 := by
    rw [infixFile, List.length_cons, List.length_append, length_infixBody, List.length_singleton]
  have hread : readNode (infixFile start rest) = some (⟨.skip, 0⟩, infixBody start rest ++ [0]) :=
    rfl
  rw [patrieLevelBuild, hread]
  simp only [Option.bind_eq_bind, Option.bind_some, pushIntStack]
  rw [if_pos (by decide), Option.bind_some, htail, List.cons_append,
    readNode_start h.fits.1.1 h.fits.1.2, hlength]
  dsimp only [Option.bind_some]
  rw [show 2 * (2 * rest.length + 3) = rest.length + 5 + (3 * rest.length + 1) by omega]
  rw [Nat.cast_zero] at hrun
  rw [hrun]
  rfl

end

/-! ### Where the deepest level is on one page -/

section

variable {levelPageSize start : ℕ} {rest : List (ℕ × ℕ)} {st : LevelState} {W : ℕ → Prop}

theorem StackOf.getElem? {levels : List SingleLevel} {ts : List (Trie ℕ)} {d : ℕ}
    {level : SingleLevel} (h : StackOf levelPageSize st W levels ts)
    (hd : levels[d]? = some level) :
    LevelHas levelPageSize st W level (levelNodes d ts) := by
  induction h generalizing d with
  | nil => exact absurd hd (by simp)
  | cons _ hhas _ ih =>
    cases d with
    | zero =>
      obtain rfl := Option.some.inj hd
      exact hhas
    | succ d =>
      rw [levelNodes, Trie.levelAt_succ']
      exact ih hd

/-- A level is in memory while there are fewer nodes than a page has room for. -/
theorem LevelHas.pageNum_iff {level : SingleLevel} {ns : List Node}
    (h : LevelHas levelPageSize st W level ns) :
    level.pageNum = -1 ↔ ns.length < nodesPerPage levelPageSize := by
  have hroom := h.room
  obtain ⟨-, hnum, rfl⟩ | ⟨-, last, ms, -, hlast, -, -, -, -, hlen⟩ := h.pages
  · rw [List.length_take]
    omega
  · omega

/-- The last level of a trie. -/
theorem StackOf.getLast? {levels : List SingleLevel} {t : Trie ℕ}
    (h : StackOf levelPageSize st W levels [t]) :
    ∃ level ∈ levels, levels.getLast? = some level ∧
      LevelHas levelPageSize st W level (levelNodes (t.height - 1) [t]) := by
  have hlength := h.length
  have hpos := Trie.height_pos t
  obtain ⟨level, hlevel⟩ : ∃ level, levels[t.height - 1]? = some level :=
    ⟨_, List.getElem?_eq_getElem (by omega)⟩
  refine ⟨level, List.mem_of_getElem? hlevel, ?_, h.getElem? hlevel⟩
  rw [List.getLast?_eq_getElem?, hlength, hlevel]

theorem Ended.first_lt {first : ℕ} {ns : List Node} (hfile : FileOk levelPageSize st W)
    (h : Ended levelPageSize st.file W first ns) : first < st.nextAvailPage := by
  obtain ⟨last, ms, tail, hchain, hw, -⟩ := h
  cases hchain with
  | nil => exact hfile.lt _ hw
  | page hw' => exact hfile.lt _ hw'

theorem writeAt_length (file bytes : List UInt8) :
    writeAt file file.length bytes = file ++ bytes := by
  rw [writeAt, List.take_length, Nat.sub_self, List.replicate_zero, List.append_nil,
    List.drop_of_length_le (Nat.le_add_right _ _), List.append_nil]

theorem levelNodes_isData (d : ℕ) (ts : List (Trie ℕ)) :
    ∀ n ∈ levelNodes d ts, n.type = .skip ∨ n.type = .start := by
  intro n hn
  obtain ⟨t, -, rfl⟩ := List.mem_map.mp hn
  cases t with
  | leaf a => exact Or.inr rfl
  | node s l r => exact Or.inl rfl

/-- What is known when the levels of the trie have been ended. -/
structure AllEnded (levelPageSize : ℕ) (t : Trie ℕ) (first : List ℤ) (st : LevelState)
    (W : ℕ → Prop) : Prop where
  fileOk : FileOk levelPageSize st W
  length : first.length = t.height
  ended : ∀ (d : ℕ) (f : ℤ), first[d]? = some f →
    ∃ p : ℕ, f = p ∧ Ended levelPageSize st.file W p (levelNodes d [t])
  avail : st.nextAvailPage + t.height ≤ 2 * t.size
  last : ∃ (d z : ℕ), first[d]? = some (z : ℤ) ∧ st.nextAvailPage = z + 1 ∧
    HalfUsed levelPageSize st.file z ∧
    ((levelNodes (t.height - 1) [t]).length < nodesPerPage levelPageSize →
      st.pos = st.nextAvailPage * levelPageSize) ∧
    (nodesPerPage levelPageSize ≤ (levelNodes (t.height - 1) [t]).length →
      ∃ q < z, st.pos = q * levelPageSize + levelPageSize)

/-- Before the directory is written. -/
theorem patrieLevelBuild_ended (hn : 2 ≤ nodesPerPage levelPageSize)
    (hsep : Separated (rest.map Prod.fst)) (h : Limits levelPageSize start rest) :
    ∃ first st W, patrieLevelBuild levelPageSize (infixFile start rest) = some (first,
        { st with
          file := writeAt st.file st.pos (intsBytes (first ++ [(first.length : ℤ)]))
          pos := st.pos + (intsBytes (first ++ [(first.length : ℤ)])).length }) ∧
      AllEnded levelPageSize (infixTrie start rest) first st W := by
  obtain ⟨levels, st, W, hbuild, hfile, hbuilt⟩ := patrieLevelBuild_eq hn hsep h
  obtain ⟨first, st', W', hflush, hflushed⟩ := flushLevels_spec hn hfile hbuilt.stack hbuilt.apart
  have hlength := hbuilt.stack.length
  have hfirst := hflushed.length
  have havail := hbuilt.avail
  have havail' := hflushed.avail
  obtain ⟨level, -, hlast, hhas⟩ := hbuilt.stack.getLast?
  have hroot : ∃ level ∈ levels, level.pageNum = -1 := by
    have hpos := Trie.height_pos (infixTrie start rest)
    obtain ⟨root, hroot⟩ : ∃ root, levels[0]? = some root :=
      ⟨_, List.getElem?_eq_getElem (by omega)⟩
    refine ⟨root, List.mem_of_getElem? hroot, (hbuilt.stack.getElem? hroot).pageNum_iff.mpr ?_⟩
    exact hn
  obtain ⟨d, z, hz, hle, hnext, hused⟩ := hflushed.last hroot
  refine ⟨first, st', W', ?_, hflushed.fileOk, hfirst.trans hlength, hflushed.ended, by omega, d, z,
    hz, hnext, hused, fun hshort => ?_, fun hlong => ?_⟩
  · rw [hbuild, writeLevels, hflush]
    simp only [Option.bind_eq_bind, Option.bind_some, hfirst]
  · obtain ⟨-, hpos⟩ | ⟨p, hp, -⟩ := hflushed.pos level hlast
    · exact hpos
    · have hnum := hhas.pageNum_iff.mpr hshort
      omega
  · obtain ⟨hnum, -⟩ | ⟨q, hq, hpos⟩ := hflushed.pos level hlast
    · have hshort := hhas.pageNum_iff.mp hnum
      omega
    · have hlt := hhas.lt
      exact ⟨q, by omega, hpos⟩

/-- All pages are in the file. -/
theorem length_of_halfUsed {z : ℕ} (hsize : 0 < levelPageSize) (hfile : FileOk levelPageSize st W)
    (hnext : st.nextAvailPage = z + 1) (h : HalfUsed levelPageSize st.file z) :
    st.file.length = z * levelPageSize + levelPageSize := by
  obtain ⟨bytes, n, hread, -⟩ := h
  have hle := (freadAt_eq_some hread).2.2
  have hlength := hfile.length
  rw [hnext, Nat.succ_mul] at hlength
  omega

/-- **The directory is behind the pages** if the deepest level is on one page. -/
theorem readBack_of_short {t : Trie ℕ} {first : List ℤ} (hn : 2 ≤ nodesPerPage levelPageSize)
    (hsize : 2 * t.size < 2 ^ 28) (h : AllEnded levelPageSize t first st W)
    (hshort : (levelNodes (t.height - 1) [t]).length < nodesPerPage levelPageSize) :
    readFirstPages
        (writeAt st.file st.pos (intsBytes (first ++ [(first.length : ℤ)]))) = some first ∧
      LevelLists levelPageSize
        (writeAt st.file st.pos (intsBytes (first ++ [(first.length : ℤ)]))) t := by
  have hpage : 0 < levelPageSize := by
    rw [nodesPerPage] at hn
    omega
  have havail := h.avail
  obtain ⟨d, z, -, hnext, hused, hpos, -⟩ := h.last
  have hfile := length_of_halfUsed hpage h.fileOk hnext hused
  have hend : st.pos = st.file.length := by
    rw [hpos hshort, hnext, Nat.succ_mul, hfile]
  have hread : readFirstPages
      (writeAt st.file st.pos (intsBytes (first ++ [(first.length : ℤ)]))) = some first := by
    rw [hend, writeAt_length]
    refine readFirstPages_append (fun f hf => ?_) (by have := h.length; omega) st.file
    obtain ⟨i, hi⟩ := List.mem_iff_getElem?.mp hf
    obtain ⟨p, rfl, hended⟩ := h.ended i f hi
    have hlt := hended.first_lt h.fileOk
    unfold IsInt
    omega
  obtain ⟨bytes, hbytes⟩ : ∃ bytes, bytes = intsBytes (first ++ [(first.length : ℤ)]) := ⟨_, rfl⟩
  rw [← hbytes] at hread ⊢
  -- The pages stay as they are.
  have hgrows : Grows levelPageSize st W
      ⟨writeAt st.file st.pos bytes, st.pos + bytes.length, st.nextAvailPage⟩ W [] := by
    refine ⟨fun p hp => hp, fun p old hp hold => ?_, Nat.le_refl _, fun p hp => Or.inl hp⟩
    refine freadAt_writeAt_other hpage (Or.inl ?_) hold
    have hlt := h.fileOk.lt p hp
    have hmul := Nat.mul_le_mul_right levelPageSize (Nat.succ_le_of_lt hlt)
    rw [Nat.succ_mul] at hmul
    rw [hpos hshort]
    exact hmul
  refine ⟨hread, first, hread, h.length, fun d f hf => ?_⟩
  obtain ⟨p, rfl, hended⟩ := h.ended d f hf
  exact levelHolds_ended hpage (hended.mono hgrows) (levelNodes_isData d [t]) rfl rfl

/-- **What `_patrieLevelBuild` writes is read back** if the deepest level has less nodes than a page
has room for. -/
theorem patrieLevelBuild_readBack (hn : 2 ≤ nodesPerPage levelPageSize)
    (hsep : Separated (rest.map Prod.fst)) (h : Limits levelPageSize start rest)
    (hshort : (levelNodes ((infixTrie start rest).height - 1) [infixTrie start rest]).length <
      nodesPerPage levelPageSize) :
    LevelBuildReadBack levelPageSize (infixFile start rest) (infixTrie start rest) := by
  obtain ⟨first, st, W, hbuild, hended⟩ := patrieLevelBuild_ended hn hsep h
  obtain ⟨hread, hlists⟩ := readBack_of_short hn (h.size_le hn) hended hshort
  exact ⟨first, _, hbuild, hread, hlists⟩

/-- Two starts, with pages of four nodes. -/
theorem patrieLevelBuild_readBack_sample :
    LevelBuildReadBack 16 [0, -1, 1, -2, 0] (.node 1 (.leaf 1) (.leaf 2)) := by
  have hlimits : Limits 16 1 [(1, 2)] := by
    refine ⟨⟨by decide, by decide⟩, by decide, by decide, ?_⟩
    have htrie : (infixTrie 1 [(1, 2)]).size = 3 := by decide
    rw [htrie]
    omega
  have hsep : Separated ([(1, 2)].map Prod.fst) := by decide
  exact patrieLevelBuild_readBack (by decide) hsep hlimits (by decide)

end

end Archie.Levels
