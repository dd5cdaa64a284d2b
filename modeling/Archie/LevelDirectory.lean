/-
The last pages of the levels and the directory (`levels.c`: the end of `_patrieLevelBuild`).

* `Ended` — the pages of a level, of which the last one ends it.
* `levelHolds_ended` — `nextNode` goes through them.
* `readFirstPages_append` — the directory is read back from the end of the file.
* `patrieLevelBuild_readBack` — the level file of an infix sequence whose deepest level is in
  memory until the end.
-/
import Archie.LevelBuild

namespace Archie.Levels

open Patricia

/-! ### Reading a level -/

section

variable {levelPageSize : ℕ} {file : List UInt8} {W : ℕ → Prop}

/-- The pages of a level, which has been ended. -/
def Ended (levelPageSize : ℕ) (file : List UInt8) (W : ℕ → Prop) (first : ℕ) (ns : List Node) :
    Prop :=
  ∃ (last : ℕ) (ms tail : List Node), Chain levelPageSize file W first last ms ∧ W last ∧
    PageHas levelPageSize file last (tail ++ [⟨.term, 0⟩]) ∧ tail ≠ [] ∧ ns = ms ++ tail

/-- A page that is read in. -/
theorem readTriePage_page {p : ℕ} {nodes : List Node} {n : Node}
    (hn : n.type = .blkno ∨ n.type = .term) (hpage : PageHas levelPageSize file p (nodes ++ [n]))
    (level : SingleLevel) :
    ∃ level' rest, readTriePage levelPageSize file p level = some level' ∧ level'.used ≠ 0 ∧
      level'.node = nodes ++ n :: rest := by
  obtain ⟨bytes, rest, hread, hnodes⟩ := hpage
  rw [List.append_assoc, List.singleton_append] at hnodes
  have hsome :
      ((nodes ++ n :: rest).findIdx? fun n => n.type = .blkno ∨ n.type = .term).isSome := by
    rw [List.findIdx?_isSome, List.any_eq_true]
    exact ⟨n, List.mem_append_right _ List.mem_cons_self, decide_eq_true hn⟩
  obtain ⟨i, hi⟩ := Option.isSome_iff_exists.mp hsome
  rw [Nat.cast_mul] at hread
  refine ⟨{ level with
    used := i + 1, pageNum := p, node := nodes ++ n :: rest,
    rest := bytes.drop (4 * (levelPageSize / 4)) }, rest, ?_, Nat.succ_ne_zero i, rfl⟩
  rw [readTriePage, hread]
  simp only [Option.bind_eq_bind, Option.bind_some, setNodesUsed, hnodes, hi, Option.map_some]

theorem length_pos_of_pageHas {p : ℕ} {nodes : List Node} (hsize : 0 < levelPageSize)
    (hpage : PageHas levelPageSize file p nodes) :
    p * levelPageSize + levelPageSize ≤ file.length := by
  obtain ⟨bytes, -, hread, -⟩ := hpage
  have hle := (freadAt_eq_some hread).2.2
  omega

/-- Which nodes are returned depends on the first call only. -/
theorem levelHolds_congr {ns : List Node} {level level' : SingleLevel}
    (heq : nextNode levelPageSize file level = nextNode levelPageSize file level')
    (h : LevelHolds levelPageSize file ns level') : LevelHolds levelPageSize file ns level := by
  cases ns with
  | nil =>
    obtain ⟨next, hnext⟩ := h
    exact ⟨next, heq.trans hnext⟩
  | cons n ns =>
    obtain ⟨next, hnext, hrest⟩ := h
    exact ⟨next, heq.trans hnext, hrest⟩

/-- The number of the next page is followed. -/
theorem nextNode_blkno {p : ℕ} {n : Node} {rest rest' : List Node} {level level₁ : SingleLevel}
    (hused : level.used ≠ 0) (hnode : level.node.drop level.nextNode = ⟨.blkno, p⟩ :: rest)
    (hfile : 0 < file.length) (hread : readTriePage levelPageSize file p level = some level₁)
    (hused₁ : level₁.used ≠ 0) (hnode₁ : level₁.node = n :: rest') (hn : n.type ≠ .blkno) :
    nextNode levelPageSize file level =
      nextNode levelPageSize file { level₁ with nextNode := 0 } := by
  have hget : level.node[level.nextNode]? = some ⟨.blkno, p⟩ := by
    have hdrop := congrArg (·[0]?) hnode
    rwa [List.getElem?_drop, Nat.add_zero] at hdrop
  have hget₁ : level₁.node[0]? = some n := by
    rw [hnode₁, List.getElem?_cons_zero]
  obtain ⟨k, hk⟩ := Nat.exists_eq_add_of_lt hfile
  have hfollow : followPages levelPageSize file (file.length + 1) level =
      some (n, { level₁ with nextNode := 0 }) := by
    rw [followPages, hget]
    simp only [Option.bind_eq_bind, Option.bind_some, if_pos, hread]
    rw [hk, Nat.zero_add, followPages]
    simp only [Option.bind_eq_bind, hget₁, Option.bind_some, if_neg hn]
  have hstay : followPages levelPageSize file (file.length + 1) { level₁ with nextNode := 0 } =
      some (n, { level₁ with nextNode := 0 }) := by
    rw [followPages]
    simp only [Option.bind_eq_bind, hget₁, Option.bind_some, if_neg hn]
  rw [nextNode, nextNode, firstPage, firstPage, if_neg hused, if_neg hused₁]
  simp only [Option.bind_eq_bind, Option.bind_some, hfollow, hstay]

theorem type_ne_of_isData {n : Node} (h : n.type = .skip ∨ n.type = .start) :
    n.type ≠ .blkno ∧ n.type ≠ .term := by
  rcases h with h | h
  · rw [h]
    exact ⟨NodeType.noConfusion, NodeType.noConfusion⟩
  · rw [h]
    exact ⟨NodeType.noConfusion, NodeType.noConfusion⟩

/-- The nodes of a page before the number of the next one. -/
theorem levelHolds_segment {p : ℕ} {seg ns : List Node}
    (hseg : ∀ n ∈ seg, n.type = .skip ∨ n.type = .start)
    (h : ∀ (level : SingleLevel) (rest : List Node), level.used ≠ 0 →
      level.node.drop level.nextNode = ⟨.blkno, p⟩ :: rest → LevelHolds levelPageSize file ns level)
    {level : SingleLevel} {rest : List Node} (hused : level.used ≠ 0)
    (hnode : level.node.drop level.nextNode = seg ++ ⟨.blkno, p⟩ :: rest) :
    LevelHolds levelPageSize file (seg ++ ns) level := by
  induction seg generalizing level with
  | nil => exact h level rest hused hnode
  | cons n seg ih =>
    obtain ⟨hn, hseg'⟩ := List.forall_mem_cons.mp hseg
    obtain ⟨hblkno, hterm⟩ := type_ne_of_isData hn
    refine ⟨{ level with nextNode := level.nextNode + 1 }, ?_, ih hseg' hused ?_⟩
    · rw [nextNode_page hused hnode hblkno, if_neg hterm]
    · show level.node.drop (level.nextNode + 1) = _
      rw [← List.drop_drop, hnode]
      rfl

/-- `nextNode` goes from page to page. -/
theorem levelHolds_chain {p last : ℕ} {ms tail : List Node} (hsize : 0 < levelPageSize)
    (hchain : Chain levelPageSize file W p last ms)
    (hlast : PageHas levelPageSize file last (tail ++ [⟨.term, 0⟩])) (htail : tail ≠ [])
    (hdata : ∀ n ∈ ms ++ tail, n.type = .skip ∨ n.type = .start)
    (level : SingleLevel) :
    ∃ level₁ n rest, readTriePage levelPageSize file p level = some level₁ ∧ level₁.used ≠ 0 ∧
      level₁.node = n :: rest ∧ n.type ≠ .blkno ∧
      LevelHolds levelPageSize file (ms ++ tail) { level₁ with nextNode := 0 } := by
  have hfile : 0 < file.length := by
    have hle := length_pos_of_pageHas hsize hlast
    omega
  induction hchain generalizing level with
  | nil p =>
    rw [List.nil_append] at hdata ⊢
    obtain ⟨level₁, rest, hread, hused, hnode⟩ := readTriePage_page (Or.inr rfl) hlast level
    obtain ⟨n, tail, rfl⟩ := List.exists_cons_of_ne_nil htail
    exact ⟨level₁, n, _, hread, hused, hnode, (type_ne_of_isData (hdata n List.mem_cons_self)).1,
      levelHolds_page hused hnode hdata⟩
  | @page p q last seg ns _ hpage hne _ ih =>
    obtain ⟨level₁, rest, hread, hused, hnode⟩ := readTriePage_page (Or.inl rfl) hpage level
    rw [List.append_assoc] at hdata
    have hseg : ∀ n ∈ seg, n.type = .skip ∨ n.type = .start := fun n hn =>
      hdata n (List.mem_append_left _ hn)
    have hrest : ∀ n ∈ ns ++ tail, n.type = .skip ∨ n.type = .start := fun n hn =>
      hdata n (List.mem_append_right _ hn)
    obtain ⟨n, seg', hseg'⟩ := List.exists_cons_of_ne_nil hne
    have hn : n ∈ seg := hseg' ▸ List.mem_cons_self
    refine ⟨level₁, n, seg' ++ ⟨.blkno, q⟩ :: rest, hread, hused, ?_,
      (type_ne_of_isData (hseg n hn)).1, ?_⟩
    · rw [hnode, hseg', List.cons_append]
    · rw [List.append_assoc]
      refine levelHolds_segment (p := q) hseg (fun level₂ rest₂ hused₂ hnode₂ => ?_) hused hnode
      obtain ⟨level₃, m, rest₃, hread₃, hused₃, hnode₃, hm, hholds⟩ := ih hlast hrest level₂
      exact levelHolds_congr (nextNode_blkno hused₂ hnode₂ hfile hread₃ hused₃ hnode₃ hm) hholds

/-- **A level that has been ended** is read back. -/
theorem levelHolds_ended {first : ℕ} {ns : List Node} {level : SingleLevel}
    (hsize : 0 < levelPageSize) (h : Ended levelPageSize file W first ns)
    (hdata : ∀ n ∈ ns, n.type = .skip ∨ n.type = .start) (hused : level.used = 0)
    (hfirst : level.firstPageNum = first) : LevelHolds levelPageSize file ns level := by
  obtain ⟨last, ms, tail, hchain, -, hlast, htail, rfl⟩ := h
  obtain ⟨level₁, n, rest, hread, hused₁, hnode, hn, hholds⟩ := levelHolds_chain hsize hchain hlast
    htail hdata level
  refine levelHolds_congr ?_ hholds
  have hold : firstPage levelPageSize file level = some { level₁ with nextNode := 0 } := by
    rw [firstPage, if_pos hused, hfirst, hread, Option.map_some]
  rw [nextNode, nextNode, hold, firstPage, if_neg hused₁]

end

/-! ### The last pages -/

section

variable {levelPageSize : ℕ} {st : LevelState} {W : ℕ → Prop}

/-- A page, which has been used from the beginning on and not to the end. -/
def HalfUsed (levelPageSize : ℕ) (file : List UInt8) (p : ℕ) : Prop :=
  ∃ bytes n, freadAt file (p * levelPageSize : ℕ) levelPageSize = some bytes ∧
    (pageNodes bytes).getLast? = some n ∧ (n = ⟨.term, 0⟩ ∨ n = unusedNode)

/-- The last page of a level. -/
theorem endLevel_spec {level : SingleLevel} {ns : List Node} (hn : 2 ≤ nodesPerPage levelPageSize)
    (hfile : FileOk levelPageSize st W) (h : LevelHas levelPageSize st W level ns) :
    ∃ level₁ level₂ st' first p, nodeAppend ⟨.term, 0⟩ level = some level₁ ∧
      writeTriePage levelPageSize level₁ st = some (level₂, st') ∧
      FileOk levelPageSize st' (fun q => W q ∨ q = p) ∧
      Grows levelPageSize st W st' (fun q => W q ∨ q = p) [level.pageNum] ∧
      level₂.firstPageNum = (first : ℕ) ∧
      Ended levelPageSize st'.file (fun q => W q ∨ q = p) first ns ∧
      st'.pos = p * levelPageSize + levelPageSize ∧
      (level.pageNum = -1 ∧ p = st.nextAvailPage ∧ st'.nextAvailPage = p + 1 ∧ first = p ∧
          HalfUsed levelPageSize st'.file p ∨
        level.pageNum = p ∧ st'.nextAvailPage = st.nextAvailPage) := by
  have hroom := h.room
  have hlength := h.length
  have hpos := h.pos
  obtain ⟨level₁, happend, hused₁, hlength₁, htake₁, hmem₁, hrest₁, hfirst₁, hnum₁, hdrop₁⟩ :=
    @nodeAppend_spec ⟨.term, 0⟩ level (by omega)
  obtain ⟨level₂, st', p, hwrite, hwritten⟩ := writeTriePage_spec hfile
    (by rw [nodesPerPage] at hn; omega) (hlength₁.trans hlength) (by rw [hrest₁, h.rest])
    (fun n hmem => by
      rcases hmem₁ n hmem with hmem | rfl
      · exact h.values n hmem
      · exact show 0 < 2 ^ 30 by decide)
    (by rw [hnum₁]; exact h.reserved)
  obtain ⟨bytes, hread, hbytes⟩ := hwritten.page
  have hpage : PageHas levelPageSize st'.file p (level.node.take level.used ++ [⟨.term, 0⟩]) := by
    refine ⟨bytes, level₁.node.drop level₁.used, hread, ?_⟩
    rw [hbytes, ← htake₁, List.take_append_drop]
  have hne : level.node.take level.used ≠ [] := by
    refine List.ne_nil_of_length_pos ?_
    rw [List.length_take]
    omega
  have hgrows := hwritten.grows
  rw [hnum₁] at hgrows
  obtain ⟨-, hnone, hns⟩ | ⟨first, last, ms, hfirst, hlast, hchain, hns, -⟩ := h.pages
  · obtain ⟨-, hp, hfirst, havail⟩ | ⟨hp, -⟩ := hwritten.which
    · refine ⟨level₁, level₂, st', p, p, happend, hwrite, hwritten.fileOk, hgrows, hfirst,
        ⟨p, [], _, .nil p, Or.inr rfl, hpage, hne, hns⟩, hwritten.pos,
        Or.inl ⟨hnone, hp, by omega, rfl, bytes, ?_⟩⟩
      -- What is behind the last node has not been used.
      rw [hbytes, ← List.take_append_drop level₁.used level₁.node, htake₁, hdrop₁,
        ← List.drop_drop]
      rcases List.eq_nil_or_concat' ((level.node.drop level.used).drop 1) with hnil | ⟨ns', n, heq⟩
      · refine ⟨_, hread, ?_, Or.inl rfl⟩
        rw [hnil, List.append_nil, List.getLast?_concat]
      · have hmem : n ∈ level.node.drop level.used := by
          refine List.mem_of_mem_drop (i := 1) ?_
          rw [heq]
          exact List.mem_concat_self
        refine ⟨n, hread, ?_, Or.inr (h.unused hnone n hmem)⟩
        rw [heq, ← List.append_assoc, List.getLast?_concat]
    · omega
  · obtain ⟨hp, -⟩ | ⟨hp, hsame, havail⟩ := hwritten.which
    · omega
    · obtain rfl : p = last := by omega
      exact ⟨level₁, level₂, st', first, p, happend, hwrite, hwritten.fileOk, hgrows,
        hsame.trans (hfirst₁.trans hfirst),
        ⟨p, ms, _, hgrows.chain hchain, Or.inr rfl, hpage, hne, hns⟩, hwritten.pos,
        Or.inr ⟨hlast, havail⟩⟩

theorem Ended.mono {st' : LevelState} {W' : ℕ → Prop} {own : List ℤ} {first : ℕ} {ns : List Node}
    (h : Ended levelPageSize st.file W first ns) (hgrows : Grows levelPageSize st W st' W' own) :
    Ended levelPageSize st'.file W' first ns := by
  obtain ⟨last, ms, tail, hchain, hw, ⟨bytes, rest, hread, hnodes⟩, htail, hns⟩ := h
  exact ⟨last, ms, tail, hgrows.chain hchain, hgrows.subset _ hw,
    ⟨bytes, rest, hgrows.keeps _ _ hw hread, hnodes⟩, htail, hns⟩

/-- The levels have all been ended, and these are their first pages. -/
structure Flushed (levelPageSize : ℕ) (st : LevelState) (W : ℕ → Prop) (levels : List SingleLevel)
    (ts : List (Trie ℕ)) (first : List ℤ) (st' : LevelState) (W' : ℕ → Prop) : Prop where
  fileOk : FileOk levelPageSize st' W'
  grows : Grows levelPageSize st W st' W' (keptPages levels)
  length : first.length = levels.length
  ended : ∀ (d : ℕ) (f : ℤ), first[d]? = some f →
    ∃ p : ℕ, f = p ∧ Ended levelPageSize st'.file W' p (levelNodes d ts)
  avail : st'.nextAvailPage ≤ st.nextAvailPage + levels.length
  pos : ∀ level ∈ levels.getLast?,
    level.pageNum = -1 ∧ st'.pos = st'.nextAvailPage * levelPageSize ∨
      ∃ p : ℕ, level.pageNum = p ∧ st'.pos = p * levelPageSize + levelPageSize
  same : (∀ level ∈ levels, level.pageNum ≠ -1) → st'.nextAvailPage = st.nextAvailPage
  last : (∃ level ∈ levels, level.pageNum = -1) →
    ∃ (d z : ℕ), first[d]? = some (z : ℤ) ∧ st.nextAvailPage ≤ z ∧ st'.nextAvailPage = z + 1 ∧
      HalfUsed levelPageSize st'.file z

/-- **The last page of every level.** -/
theorem flushLevels_spec {levels : List SingleLevel} {ts : List (Trie ℕ)}
    (hn : 2 ≤ nodesPerPage levelPageSize) (hfile : FileOk levelPageSize st W)
    (h : StackOf levelPageSize st W levels ts) (hapart : levels.Pairwise Apart) :
    ∃ first st' W', flushLevels levelPageSize levels st = some (first, st') ∧
      Flushed levelPageSize st W levels ts first st' W' := by
  induction levels generalizing ts st W with
  | nil =>
    refine ⟨[], st, W, rfl, hfile, Grows.refl _ _ _ _, rfl, fun d f hf => ?_, Nat.le_refl _,
      fun level hlevel => ?_, fun _ => rfl, fun ⟨level, hlevel, _⟩ => ?_⟩
    · exact absurd hf (by simp)
    · exact absurd hlevel (by simp)
    · exact absurd hlevel List.not_mem_nil
  | cons level levels ih =>
    obtain _ | ⟨-, hhas, hrest⟩ := h
    obtain ⟨hlevel, hapart'⟩ := List.pairwise_cons.mp hapart
    obtain ⟨level₁, level₂, st₁, p, q, happend, hwrite, hfile₁, hgrows₁, hfirst, hended, hpos,
      hwhich⟩ := endLevel_spec hn hfile hhas
    have hstack := hrest.mono hgrows₁ fun other hother hpos hmem => by
      have heq := List.mem_singleton.mp hmem
      have hneg := hlevel other hother heq.symm
      omega
    obtain ⟨first, st₂, W₂, hflush, hflushed⟩ := ih hfile₁ hstack hapart'
    refine ⟨level₂.firstPageNum :: first, st₂, W₂, ?_, hflushed.fileOk, ?_, ?_, fun d f hf => ?_,
      ?_, fun other hother => ?_, fun hnone => ?_, fun hsome => ?_⟩
    · rw [flushLevels, happend]
      simp only [Option.bind_eq_bind, Option.bind_some, hwrite, hflush]
    · exact hgrows₁.trans hflushed.grows
    · rw [List.length_cons, List.length_cons, hflushed.length]
    · cases d with
      | zero =>
        obtain rfl := Option.some.inj hf
        exact ⟨p, hfirst, hended.mono hflushed.grows⟩
      | succ d =>
        obtain ⟨r, hr, hended'⟩ := hflushed.ended d f hf
        refine ⟨r, hr, ?_⟩
        rw [levelNodes, Trie.levelAt_succ']
        exact hended'
    · have hle := hflushed.avail
      rw [List.length_cons]
      obtain ⟨-, hq, havail, -⟩ | ⟨-, havail⟩ := hwhich
      · omega
      · omega
    · cases levels with
      | nil =>
        obtain rfl := Option.some.inj hother
        obtain ⟨-, rfl⟩ := Prod.mk.inj (Option.some.inj hflush)
        obtain ⟨hnone, -, havail, -⟩ | ⟨hq, -⟩ := hwhich
        · refine Or.inl ⟨hnone, ?_⟩
          rw [hpos, havail, Nat.succ_mul]
        · exact Or.inr ⟨q, hq, hpos⟩
      | cons other' levels =>
        rw [List.getLast?_cons_cons] at hother
        exact hflushed.pos other hother
    · obtain ⟨hnone', hnone⟩ := List.forall_mem_cons.mp hnone
      obtain ⟨hminus, -⟩ | ⟨-, havail⟩ := hwhich
      · exact absurd hminus hnone'
      · exact (hflushed.same hnone).trans havail
    · -- The page that is the last one of the file.
      by_cases hrest' : ∃ other ∈ levels, other.pageNum = -1
      · obtain ⟨d, z, hz, hle, havail, hused⟩ := hflushed.last hrest'
        exact ⟨d + 1, z, hz, Nat.le_trans hgrows₁.le hle, havail, hused⟩
      · have hnone : ∀ other ∈ levels, other.pageNum ≠ -1 := fun other hother heq =>
          hrest' ⟨other, hother, heq⟩
        obtain ⟨-, hq, havail, rfl, bytes, n, hread, hlast⟩ | ⟨hq, -⟩ := hwhich
        · exact ⟨0, p, by rw [List.getElem?_cons_zero, hfirst], by omega,
            (hflushed.same hnone).trans havail, bytes, n,
            hflushed.grows.keeps p bytes (Or.inr rfl) hread, hlast⟩
        · obtain ⟨other, hother, hminus⟩ := hsome
          rcases List.mem_cons.mp hother with rfl | hother
          · omega
          · exact absurd hminus (hnone other hother)

end

end Archie.Levels
