/-
The paged trie.

A page has the subtries of the buffer, or all of them but the last.  Where the first subtrie does
not fit into a page, the page has none, and the buffer stays as it is.

* `fillPage_spec` — what is put into a page.
* `AtHead` — the state at the condition of the inner loop.
* `pageRound_spec` — a turn of the inner loop.
* `AtHead.levelStart` — the step to the levels above.
* `patriePagedBuild_right_iff` — the build ends with right pages if and only if the first subtrie
  fits in every state.
-/
import Archie.PageLoad

namespace Archie.Paged

open Patricia

/-! ### Writing a page -/

section

variable {cf : PageConfig} {file : List UInt8} {tc : TopCount} {b : ℕ}

theorem placeFields_end {off : ℕ} {vals : List (ℕ × ℤ)} {f : PageField}
    (hf : f ∈ placeFields off vals) : f.off + f.width ≤ off + (vals.map Prod.fst).sum := by
  induction vals generalizing off with
  | nil => exact absurd hf List.not_mem_nil
  | cons v vals ih =>
    rw [List.map_cons, List.sum_cons]
    rcases List.mem_cons.mp hf with rfl | hf
    · show off + v.1 ≤ _
      omega
    · have hle := ih hf
      omega

theorem sum_nodeField (cf : PageConfig) (levels : List (List Node)) :
    ((levels.flatten.map (nodeField cf)).map Prod.fst).sum = (levels.map (nodeBits cf)).sum := by
  induction levels with
  | nil => rfl
  | cons nodes levels ih =>
    rw [List.flatten_cons, List.map_append, List.map_append, List.sum_append, ih, List.map_cons,
      List.sum_cons, nodeBits, List.map_map]
    rfl

/-- The entries for the pages to which `n` links lead, with `b` on their left. -/
def childEntries (tc : TopCount) (b n : ℕ) : List ℕ :=
  (tc.nLeftLinks.drop (tc.above b - 1)).take (tWindow tc b n)

/-- The page number of the first child, if there is one. -/
def firstChildField (tc : TopCount) (b n : ℕ) : List PageField :=
  if n = 0 then [] else [⟨bitsInBcount, bitsInPagenum, tc.firstPage + ((tc.above b : ℤ) - 1)⟩]

/-- The page of some subtries. -/
def pageOf (cf : PageConfig) (nLevs : ℕ) (tc : TopCount) (b : ℕ) (ts : List (Trie ℕ)) :
    BuiltPage where
  nodes := levelsOf nLevs ts
  fields :=
    [⟨0, bitsInBcount, b⟩, ⟨bitsInBcount + bitsInPagenum, bitsInCcount,
        tWindow tc b (Trie.levelAt cf.levelsPerPage ts).length⟩] ++
      firstChildField tc b (Trie.levelAt cf.levelsPerPage ts).length ++
    placeFields (bitsInBcount + bitsInPagenum + bitsInCcount)
      ((childEntries tc b (Trie.levelAt cf.levelsPerPage ts).length).map
          (fun k : ℕ => (bitsInTcount, (k : ℤ))) ++
        (levelsOf nLevs ts).flatten.map (nodeField cf))

theorem length_childEntries {n total : ℕ} (htc : tc.LeadsTo total) (hn : n ≤ total)
    (hsmall : b + total < intMax) : (childEntries tc b n).length = tWindow tc b n := by
  rcases Nat.eq_zero_or_pos n with rfl | hpos
  · rw [childEntries, tWindow_zero, List.take_zero, List.length_nil]
  · have habove := TopCount.above_pos (b := b) htc (by omega)
    have hle := @TopCount.above_le_reach tc b (b + n) (by omega)
    have hreach : tc.reach (b + n) < tc.nLeftLinks.length :=
      List.findIdx_lt_length.mpr ⟨intMax, htc.last, decide_eq_true (by omega)⟩
    have hwindow : tWindow tc b n = tc.reach (b + n) + 2 - tc.above b :=
      if_neg (Nat.ne_of_gt hpos)
    rw [childEntries, List.length_take_of_le]
    rw [List.length_drop]
    omega

/-- The counts of a page that `n` links leave. -/
theorem childFields_spec {nb : NodeBuffer} {n total : ℕ} (htc : tc.LeadsTo total)
    (hn : n ≤ total) (hsmall : b + total < intMax)
    (hidx : ∀ x ∈ tc.nLeftLinks.take nb.prevIdx, x ≤ b) :
    childFields (tWindow tc b n) b tc nb = some (firstChildField tc b n,
      (childEntries tc b n).map fun k : ℕ => (bitsInTcount, (k : ℤ))) := by
  have hlen := length_childEntries htc hn hsmall
  rw [childFields]
  rcases Nat.eq_zero_or_pos n with rfl | hpos
  · rw [childEntries, firstChildField, tWindow_zero, if_neg (Nat.lt_irrefl 0), if_pos rfl,
      List.take_zero, List.map_nil]
  · have habove := TopCount.above_pos (b := b) htc (by omega)
    have hle := @TopCount.above_le_reach tc b (b + n) (by omega)
    have hwindow : tWindow tc b n = tc.reach (b + n) + 2 - tc.above b :=
      if_neg (Nat.ne_of_gt hpos)
    have hoff : ((tc.above b : ℤ) - 1).toNat = tc.above b - 1 := by omega
    rw [if_pos (by omega), firstTCountIdx_eq htc.last (by omega) hidx]
    simp only [Option.bind_eq_bind, Option.bind_some, hoff]
    rw [← childEntries, hlen, if_neg (by omega), firstChildField, if_neg (Nat.ne_of_gt hpos)]

/-- **The page** has whole subtries. -/
theorem fillPage_spec {useAllNodes : Bool} {nLevs total : ℕ} {nb : NodeBuffer}
    {ts : List (Trie ℕ)} (hcut : CutAt nLevs cf.levelsPerPage ts) (htc : tc.LeadsTo total)
    (hn : (Trie.levelAt cf.levelsPerPage ts).length ≤ total) (hsmall : b + total < intMax)
    (hidx : ∀ x ∈ tc.nLeftLinks.take nb.prevIdx, x ≤ b)
    (hcopied : nb.copied useAllNodes = levelsOf cf.levelsPerPage ts)
    (hcounts : (if useAllNodes then nb.nAllTCounts else nb.nPenTCounts) =
      tWindow tc b (Trie.levelAt cf.levelsPerPage ts).length) :
    fillPage cf useAllNodes nLevs b tc nb = some (pageOf cf nLevs tc b ts) := by
  rw [fillPage, hcounts, childFields_spec htc hn hsmall hidx, hcopied, levelsOf_take hcut.1]
  rfl

/-- Nothing is put behind the end of a page that is large enough. -/
theorem pageOf_inside {nLevs total : ℕ} {ts : List (Trie ℕ)}
    (hcut : CutAt nLevs cf.levelsPerPage ts) (htc : tc.LeadsTo total)
    (hn : (Trie.levelAt cf.levelsPerPage ts).length ≤ total) (hsmall : b + total < intMax)
    (hne : ts ≠ []) {f : PageField} (hf : f ∈ (pageOf cf nLevs tc b ts).fields) :
    f.off + f.width ≤ pageBits cf tc b ts := by
  rw [pageBits, if_neg hne]
  rcases List.mem_append.mp hf with hf | hf
  · rcases List.mem_append.mp hf with hf | hf
    · rcases List.mem_cons.mp hf with rfl | hf
      · show 0 + bitsInBcount ≤ _
        omega
      · rw [List.mem_singleton.mp hf]
        dsimp only
        omega
    · rw [firstChildField] at hf
      split at hf
      · exact absurd hf List.not_mem_nil
      · rw [List.mem_singleton.mp hf]
        dsimp only
        omega
  · have hle := placeFields_end hf
    have hconst : (Prod.fst ∘ fun k : ℕ => (bitsInTcount, (k : ℤ))) =
        Function.const ℕ bitsInTcount := rfl
    rw [List.map_append, List.sum_append, sum_nodeField, List.map_map, hconst, List.map_const,
      List.sum_replicate_nat, length_childEntries htc hn hsmall] at hle
    have hbits := hcut.forestBits cf
    rw [Paged.forestBits] at hbits
    omega

/-! ### The next page -/

theorem bufferShifted_init (cf : PageConfig) (tc : TopCount) (b : ℕ) :
    BufferShifted cf tc b (nodeBufferInit cf.levelsPerPage (cf.pagedPageSize * 8)) [] where
  level := (levelsOf_nil _).symm
  bits := (forestBits_nil cf _).symm
  tCounts := by
    rw [Trie.levelAt_nil, List.length_nil, tWindow_zero]
    rfl
  page := rfl
  idx := fun x hx => absurd hx List.not_mem_nil
  pen := {
    nodes := by
      rw [levelsOf_nil, List.map_replicate]
      rfl
    tCounts := by
      rw [Trie.levelAt_nil, List.length_nil, tWindow_zero]
      rfl }
  one := Or.inl rfl

theorem bufferShifted_reset {nb : NodeBuffer} (hlevel : nb.level.length = cf.levelsPerPage)
    (hpage : nb.nBitsInPage = cf.pagedPageSize * 8) :
    BufferShifted cf tc b (nodeBufferReset nb) [] := by
  rw [nodeBufferReset, hlevel, hpage]
  exact bufferShifted_init cf tc b

/-- Removing all subtries but the last. -/
theorem nodeBufferShift_last {nLevs b' total : ℕ} {nb : NodeBuffer} {pen : List (Trie ℕ)}
    {t : Trie ℕ} (hpos : 0 < nLevs) (hcut : CutAt nLevs cf.levelsPerPage [t])
    (htc : tc.LeadsTo total) (hn : (Trie.levelAt cf.levelsPerPage [t]).length ≤ total)
    (hsmall : b' + total < intMax) (hb : b ≤ b') (hbuf : BufferHolds cf tc b nb (pen ++ [t]))
    (hpen : PenHolds cf tc b nb pen) (hfull : ¬ nb.nBitsUsed ≤ nb.nBitsInPage) :
    ∃ nb', nodeBufferShift cf nLevs b' tc nb = some nb' ∧ BufferShifted cf tc b' nb' [t] := by
  have hlevel : List.zipWith (fun nodes n => nodes.drop n) nb.level nb.nPenNodes =
      levelsOf cf.levelsPerPage [t] := by
    rw [hbuf.level, hpen.nodes, zipWith_drop_levelsOf]
  have hnone : nb.nPenNodes.map (fun _ => 0) = (levelsOf cf.levelsPerPage []).map List.length := by
    rw [hpen.nodes, levelsOf_nil, List.map_replicate, List.map_map, List.map_eq_replicate_iff.mpr]
    · rw [length_levelsOf]
    · exact fun _ _ => rfl
  have hzero : 0 = tWindow tc b' (Trie.levelAt cf.levelsPerPage ([] : List (Trie ℕ))).length := by
    rw [Trie.levelAt_nil, List.length_nil, tWindow_zero]
  obtain ⟨n, hlen⟩ : ∃ n, n = (Trie.levelAt cf.levelsPerPage [t]).length := ⟨_, rfl⟩
  have hleaving : nLeaving ((levelsOf cf.levelsPerPage [t]).getD (nLevs - 1) []) = n := by
    rw [nLeaving_levelsOf hpos hcut.1, hcut.length_levelAt, hlen]
  have hidx : ∀ x ∈ tc.nLeftLinks.take nb.prevIdx, x ≤ b' := fun x hx =>
    Nat.le_trans (hbuf.idx x hx) hb
  rw [nodeBufferShift, if_neg hfull]
  simp only [hlevel, hleaving]
  rcases Nat.eq_zero_or_pos n with hzero' | hnpos
  · rw [hzero', if_neg (Nat.lt_irrefl 0)]
    refine ⟨_, rfl, ⟨rfl, rfl, ?_, hbuf.page, hidx⟩, ⟨hnone, hzero⟩, Or.inr ⟨t, rfl⟩⟩
    rw [← hlen, hzero', tWindow_zero]
  · have habove := TopCount.above_pos (b := b') htc (by omega)
    have hle := @TopCount.above_le_reach tc b' (b' + n) (by omega)
    have hlast : lastTCountIdx tc ((tc.above b' : ℤ) - 1) (b' + n) = some (tc.reach (b' + n) : ℤ) :=
      lastTCountIdx_eq htc.last (by omega) (by omega) fun x hx => by
        have hx' := le_of_mem_take_above (b := b')
          (show ((tc.above b' : ℤ) - 1).toNat ≤ tc.above b' by omega) hx
        omega
    rw [if_pos hnpos, firstTCountIdx_eq htc.last (by omega) hidx]
    simp only [Option.bind_eq_bind, Option.bind_some, hlast]
    rw [if_neg (by omega)]
    refine ⟨_, rfl, ⟨rfl, rfl, ?_, hbuf.page, ?_⟩, ⟨hnone, hzero⟩, Or.inr ⟨t, rfl⟩⟩
    · rw [← hlen, tWindow, if_neg (Nat.ne_of_gt hnpos)]
      dsimp only
      omega
    · refine fun x hx => le_of_mem_take_above ?_ hx
      dsimp only
      omega

/-- What goes to the page, and what stays in the buffer. -/
theorem BufferReady.copied {nb : NodeBuffer} {ts : List (Trie ℕ)} (h : BufferReady cf tc b nb ts) :
    ∃ useAllNodes page left, useAllNodes = decide (nb.nBitsUsed ≤ cf.pagedPageSize * 8) ∧
      ts = page ++ left ∧ nb.copied useAllNodes = levelsOf cf.levelsPerPage page ∧
      (if useAllNodes then nb.nAllTCounts else nb.nPenTCounts) =
        tWindow tc b (Trie.levelAt cf.levelsPerPage page).length ∧
      (page = [] ∨ pageBits cf tc b page ≤ cf.pagedPageSize * 8) ∧
      (useAllNodes = true ∧ left = [] ∨
        useAllNodes = false ∧ (∃ t, left = [t]) ∧ PenHolds cf tc b nb page) := by
  by_cases hfits : nb.nBitsUsed ≤ cf.pagedPageSize * 8
  · refine ⟨true, ts, [], (decide_eq_true hfits).symm, (List.append_nil ts).symm, h.level,
      h.tCounts, Or.inr ?_, Or.inl ⟨rfl, rfl⟩⟩
    rwa [← h.used]
  · obtain ⟨pen, t, rfl, hpen, hlt⟩ := h.pen (Nat.not_le.mp hfits)
    refine ⟨false, pen, [t], (decide_eq_false hfits).symm, rfl, ?_, hpen.tCounts,
      hlt.imp_right Nat.le_of_lt, Or.inr ⟨rfl, ⟨t, rfl⟩, hpen⟩⟩
    rw [NodeBuffer.copied, if_neg Bool.false_ne_true, h.level, hpen.nodes, zipWith_take_levelsOf]

end

/-! ### The states of the loops -/

/-- The first subtrie in the levels of the buffer, from the number of nodes it has at the top. -/
def firstSubtrie : List (List Node) → ℕ → List (List Node)
  | [], _ => []
  | nodes :: levels, n => nodes.take n :: firstSubtrie levels (nLeaving (nodes.take n))

/-- The first subtrie in the buffer fits into a page, with the counts that it needs. -/
def BuildState.FirstFits (cf : PageConfig) (s : BuildState) : Prop :=
  s.nb.level.headD [] ≠ [] →
    ((firstSubtrie s.nb.level 1).map (nodeBits cf)).sum +
        (bitsInBcount + bitsInPagenum + bitsInCcount) +
      tWindow s.childTCount s.bCount
        (nLeaving ((firstSubtrie s.nb.level 1).getD (cf.levelsPerPage - 1) [])) * bitsInTcount ≤
    cf.pagedPageSize * 8

instance (cf : PageConfig) (s : BuildState) : Decidable (s.FirstFits cf) :=
  inferInstanceAs (Decidable (_ → _))

/-- A page has at least one of the subtries of a trie, all levels of it that go to a page, and
nothing has been put behind its end. -/
structure BuiltPage.Right (cf : PageConfig) (t : Trie ℕ) (page : BuiltPage) : Prop where
  subtries : ∃ d ts, ts ≠ [] ∧ ts <:+: Trie.levelAt d [t] ∧
    CutAt page.nodes.length cf.levelsPerPage ts ∧ page.nodes = levelsOf page.nodes.length ts
  inside : ∀ f ∈ page.fields, f.off + f.width ≤ cf.pagedPageSize * 8

theorem firstSubtrie_levelsOf (k : ℕ) (a b : List (Trie ℕ)) :
    firstSubtrie (levelsOf k (a ++ b)) a.length = levelsOf k a := by
  induction k generalizing a b with
  | zero => rfl
  | succ k ih =>
    have htake : ((a ++ b).map rootNode).take a.length = a.map rootNode := by
      rw [List.map_append, ← @List.length_map _ _ a rootNode, List.take_left]
    rw [levelsOf, firstSubtrie, htake, nLeaving_map_rootNode, Trie.nextLevel_append, ih, levelsOf]

section

variable {cf : PageConfig} {file : List UInt8} {t : Trie ℕ}

theorem levelsOf_headD {k : ℕ} (hk : 0 < k) (ts : List (Trie ℕ)) :
    (levelsOf k ts).headD [] = ts.map rootNode := by
  obtain ⟨k, rfl⟩ : ∃ k', k = k' + 1 := ⟨k - 1, by omega⟩
  rfl

theorem firstFits_nil {s : BuildState} (hlevels : 0 < cf.levelsPerPage)
    (h : s.nb.level = levelsOf cf.levelsPerPage []) : s.FirstFits cf := by
  intro hne
  rw [h, levelsOf_headD hlevels] at hne
  exact absurd rfl hne

theorem firstFits_cons {s : BuildState} {x : Trie ℕ} {ts : List (Trie ℕ)}
    (hlevels : 0 < cf.levelsPerPage) (h : s.nb.level = levelsOf cf.levelsPerPage (x :: ts)) :
    s.FirstFits cf ↔ pageBits cf s.childTCount s.bCount [x] ≤ cf.pagedPageSize * 8 := by
  have hfirst : firstSubtrie s.nb.level 1 = levelsOf cf.levelsPerPage [x] := by
    rw [h, ← List.singleton_append]
    exact firstSubtrie_levelsOf _ [x] ts
  have hhead : s.nb.level.headD [] ≠ [] := by
    rw [h, levelsOf_headD hlevels]
    exact List.cons_ne_nil _ _
  rw [BuildState.FirstFits, hfirst, nLeaving_levelsOf hlevels (Nat.le_refl _), pageBits,
    if_neg (List.cons_ne_nil x [])]
  exact ⟨fun h => h hhead, fun h _ => h⟩

/-- Between two pages: of the subtries at the top, `a` have been written, `ts` are in the buffer
and `rest` have yet to be read. -/
structure AtLevels (cf : PageConfig) (file : List UInt8) (t : Trie ℕ) (s : BuildState)
    (a ts rest : List (Trie ℕ)) : Prop where
  height : s.trie.length = t.height
  within : s.currLev cf < t.height
  forest : Trie.levelAt (s.currLev cf) [t] = a ++ ts ++ rest
  bCount : s.bCount = (Trie.levelAt cf.levelsPerPage a).length
  tCount : s.tCount = a.length
  links : s.childTCount.LeadsTo (Trie.levelAt cf.levelsPerPage (a ++ ts ++ rest)).length
  levs : LevelsHold cf file (s.copyLevs cf) (s.trie.drop (s.currLev cf)) rest
  lower : LevelsHold cf file (s.currLev cf) s.trie [t]
  curr : ∃ l, s.currTCount.nLeftLinks ++ [s.tCount] = 0 :: l

/-- At the condition of the inner loop. -/
structure AtHead (cf : PageConfig) (file : List UInt8) (t : Trie ℕ) (s : BuildState)
    (a ts rest : List (Trie ℕ)) : Prop extends AtLevels cf file t s a ts rest where
  ready : BufferReady cf s.childTCount s.bCount s.nb ts
  full : cf.pagedPageSize * 8 ≤ s.nb.nBitsUsed ∨ rest = []

theorem TopCount.LeadsTo.mono {tc : TopCount} {m n : ℕ} (h : tc.LeadsTo n) (hmn : m ≤ n) :
    tc.LeadsTo m :=
  ⟨h.last, fun hm => h.head (by omega)⟩

theorem AtLevels.copyLevs_pos {s : BuildState} {a ts rest : List (Trie ℕ)}
    (h : AtLevels cf file t s a ts rest) (hlevels : 0 < cf.levelsPerPage) : 0 < s.copyLevs cf := by
  have hheight := h.height
  have hwithin := h.within
  rw [BuildState.copyLevs]
  omega

theorem AtLevels.cutAt {s : BuildState} {a ts rest : List (Trie ℕ)}
    (h : AtLevels cf file t s a ts rest) :
    CutAt (s.copyLevs cf) cf.levelsPerPage (a ++ ts ++ rest) := by
  rw [BuildState.copyLevs, h.height, ← h.forest]
  exact cutAt_levelAt cf.levelsPerPage (Nat.le_of_lt h.within)

theorem AtLevels.small {s : BuildState} {a ts rest : List (Trie ℕ)}
    (h : AtLevels cf file t s a ts rest) (hsize : ∀ n, (Trie.levelAt n [t]).length < intMax) :
    s.bCount + (Trie.levelAt cf.levelsPerPage (ts ++ rest)).length < intMax := by
  have hlt := hsize (cf.levelsPerPage + s.currLev cf)
  rw [Trie.levelAt_add, h.forest, List.append_assoc, Trie.levelAt_append, List.length_append]
    at hlt
  rwa [h.bCount]

theorem AtLevels.leadsTo {s : BuildState} {a ts rest : List (Trie ℕ)}
    (h : AtLevels cf file t s a ts rest) :
    s.childTCount.LeadsTo (Trie.levelAt cf.levelsPerPage (ts ++ rest)).length := by
  refine h.links.mono ?_
  rw [List.append_assoc, Trie.levelAt_append _ a, List.length_append]
  exact Nat.le_add_left _ _

/-- Loading for the page that comes next. -/
theorem load_spec {s : BuildState} {a ts rest : List (Trie ℕ)}
    (h : AtLevels cf file t s a ts rest) (hlevels : 0 < cf.levelsPerPage)
    (hsize : ∀ n, (Trie.levelAt n [t]).length < intMax)
    (hbuf : BufferShifted cf s.childTCount s.bCount s.nb ts) :
    ∃ nb' trie' us rest', rest = us ++ rest' ∧
      s.load cf file = some { s with nb := nb', trie := trie' } ∧
      AtHead cf file t { s with nb := nb', trie := trie' } a (ts ++ us) rest' := by
  have hcut := h.cutAt
  rw [List.append_assoc] at hcut
  obtain ⟨us, rest', nb', subtrie', rfl, hload, hready, hlevs, hlen, hfull⟩ :=
    nodeBufferLoad_spec (h.copyLevs_pos hlevels) hcut.of_append.2 h.leadsTo (h.small hsize) hbuf
      h.levs
  have hheight := h.height
  have hwithin := h.within
  have htake : (s.trie.take (s.currLev cf)).length = s.currLev cf :=
    List.length_take_of_le (by omega)
  have hlength : (s.trie.take (s.currLev cf) ++ subtrie').length = s.trie.length := by
    rw [List.length_append, htake, hlen, List.length_drop]
    omega
  refine ⟨nb', s.trie.take (s.currLev cf) ++ subtrie', us, rest', rfl, ?_, ?_⟩
  · rw [BuildState.load, hload]
    rfl
  · have hcopy : BuildState.copyLevs cf
        { s with nb := nb', trie := s.trie.take (s.currLev cf) ++ subtrie' } = s.copyLevs cf := by
      rw [BuildState.copyLevs, hlength]
      rfl
    exact {
      height := by rw [← hheight, ← hlength]
      within := hwithin
      forest := by
        show Trie.levelAt (s.currLev cf) [t] = _
        rw [h.forest, List.append_assoc, List.append_assoc, List.append_assoc]
      bCount := h.bCount
      tCount := h.tCount
      links := by
        have hlinks := h.links
        rw [← List.append_assoc] at hlinks
        rwa [← List.append_assoc]
      levs := by
        rw [hcopy]
        show LevelsHold cf file _ ((s.trie.take (s.currLev cf) ++ subtrie').drop (s.currLev cf)) _
        rwa [List.drop_left' htake]
      lower := by
        intro j hj
        obtain ⟨lev, hlev, hopen⟩ := h.lower j hj
        refine ⟨lev, ?_, hopen⟩
        have hj' : j < s.currLev cf := hj
        show (s.trie.take (s.currLev cf) ++ subtrie')[j]? = _
        rw [List.getElem?_append_left (by omega), List.getElem?_take_of_lt hj', hlev]
      curr := h.curr
      ready := hready
      full := hfull }

end

/-! ### One page -/

section

variable {cf : PageConfig} {file : List UInt8} {t : Trie ℕ}

/-- What a page changes outside of the buffer and the levels. -/
structure SamePageLevel (s s' : BuildState) : Prop where
  pageLevel : s'.pageLevel = s.pageLevel
  outputPageNum : s'.outputPageNum = s.outputPageNum + 1
  childTCount : s'.childTCount = s.childTCount
  currTCount : s'.currTCount = addTopCount s.currTCount s.tCount

/-- What the body of the inner loop does, whether or not a subtrie fits into the page. -/
theorem pageRound_spec {s : BuildState} {a ts rest : List (Trie ℕ)}
    (h : AtHead cf file t s a ts rest) (hlevels : 0 < cf.levelsPerPage)
    (hsize : ∀ n, (Trie.levelAt n [t]).length < intMax) :
    ∃ s' done left us rest', ts = done ++ left ∧ rest = us ++ rest' ∧
      pageRound cf file s =
        some (pageOf cf (s.copyLevs cf) s.childTCount s.bCount done, s') ∧
      (done = [] ∨ pageBits cf s.childTCount s.bCount done ≤ cf.pagedPageSize * 8) ∧
      (done = [] → ts = [] ∨ ¬ s.FirstFits cf) ∧
      AtHead cf file t s' (a ++ done) (left ++ us) rest' ∧ SamePageLevel s s' := by
  obtain ⟨useAllNodes, done, left, huse, rfl, hcopied, hcounts, hbits, hleft⟩ := h.ready.copied
  have hpos := h.copyLevs_pos hlevels
  have hcut := h.cutAt
  obtain ⟨-, hcutdone⟩ := hcut.of_append.1.of_append
  obtain ⟨hcutdone, hcutleft⟩ := hcutdone.of_append
  have hsmall := h.small hsize
  have hlinks := h.toAtLevels.leadsTo
  have htotal : (Trie.levelAt cf.levelsPerPage (done ++ left ++ rest)).length =
      (Trie.levelAt cf.levelsPerPage done).length + (Trie.levelAt cf.levelsPerPage left).length +
        (Trie.levelAt cf.levelsPerPage rest).length := by
    rw [Trie.levelAt_append, Trie.levelAt_append, List.length_append, List.length_append]
  rw [htotal] at hsmall hlinks
  have hpage := @fillPage_spec cf s.childTCount s.bCount useAllNodes _ _ s.nb done hcutdone hlinks
    (by omega) hsmall h.ready.idx hcopied hcounts
  have hleaving : linksLeavingPage s.nb useAllNodes (s.copyLevs cf) =
      (Trie.levelAt cf.levelsPerPage done).length := by
    rw [linksLeavingPage, hcopied, nLeaving_levelsOf hpos hcut.1, hcutdone.length_levelAt]
  have hentering : linksEnteringPage s.nb useAllNodes = done.length := by
    rw [linksEnteringPage, hcopied, levelsOf_headD hlevels, List.length_map]
  obtain ⟨b', hb'⟩ : ∃ b', b' = s.bCount + (Trie.levelAt cf.levelsPerPage done).length := ⟨_, rfl⟩
  -- The buffer without what has been written.
  have hshift : ∃ nb', nodeBufferShift cf (s.copyLevs cf) b' s.childTCount s.nb = some nb' ∧
      BufferShifted cf s.childTCount b' nb' left := by
    rcases hleft with ⟨rfl, rfl⟩ | ⟨rfl, ⟨x, rfl⟩, hpen⟩
    · have hle := of_decide_eq_true huse.symm
      refine ⟨nodeBufferReset s.nb, ?_, bufferShifted_reset ?_ h.ready.page⟩
      · rw [nodeBufferShift, h.ready.page, if_pos hle]
      · rw [h.ready.level, length_levelsOf]
    · have hgt := of_decide_eq_false huse.symm
      exact nodeBufferShift_last hpos hcutleft
        (hlinks.mono (m := (Trie.levelAt cf.levelsPerPage [x]).length +
          (Trie.levelAt cf.levelsPerPage rest).length) (by omega)) (Nat.le_add_right _ _)
        (by omega) (by omega) h.ready.toBufferHolds hpen (by rwa [h.ready.page])
  obtain ⟨nb', hnb', hshifted⟩ := hshift
  have hbefore : AtLevels cf file t { s with
      outputPageNum := s.outputPageNum + 1
      bCount := b'
      currTCount := addTopCount s.currTCount s.tCount
      tCount := s.tCount + done.length
      nb := nb' } (a ++ done) left rest := by
    obtain ⟨l, hl⟩ := h.curr
    exact {
      height := h.height
      within := h.within
      forest := by
        rw [List.append_assoc a, ← h.forest]
        rfl
      bCount := by rw [hb', h.bCount, Trie.levelAt_append, List.length_append]
      tCount := by rw [h.tCount, List.length_append]
      links := by
        rw [List.append_assoc a]
        exact h.links
      levs := h.levs
      lower := h.lower
      curr := ⟨l ++ [s.tCount + done.length], by
        show (s.currTCount.nLeftLinks ++ [s.tCount]) ++ _ = _
        rw [hl, List.cons_append]⟩ }
  obtain ⟨nb'', trie', us, rest', rfl, hload, hhead⟩ := load_spec hbefore hlevels hsize hshifted
  refine ⟨_, done, left, us, rest', rfl, rfl, ?_, hbits, ?_, hhead, rfl, rfl, rfl, rfl⟩
  · rw [pageRound, ← huse, hpage]
    simp only [Option.bind_eq_bind, Option.bind_some, hleaving, hentering, ← hb', hnb', hload]
  · rintro rfl
    rcases hleft with ⟨-, rfl⟩ | ⟨rfl, ⟨x, rfl⟩, -⟩
    · exact Or.inl rfl
    · right
      have hgt := of_decide_eq_false huse.symm
      have hused := h.ready.used
      rw [List.nil_append] at hused
      rw [firstFits_cons hlevels h.ready.level, ← hused]
      exact hgt

theorem AtHead.used_pos {s : BuildState} {a ts rest : List (Trie ℕ)}
    (h : AtHead cf file t s a ts rest) : 0 < s.nb.nBitsUsed ↔ ts ≠ [] := by
  rw [h.ready.used, pageBits]
  constructor
  · rintro hpos rfl
    exact absurd hpos (Nat.lt_irrefl 0)
  · intro hne
    rw [if_neg hne, bitsInBcount]
    omega

/-- **A page is right** if the first subtrie fits, and then subtries have been written. -/
theorem AtHead.pageRound_right {s : BuildState} {a ts rest : List (Trie ℕ)}
    (h : AtHead cf file t s a ts rest) (hlevels : 0 < cf.levelsPerPage)
    (hsize : ∀ n, (Trie.levelAt n [t]).length < intMax) (hne : ts ≠ [])
    (hfits : s.FirstFits cf) :
    ∃ page s' a' ts' rest', pageRound cf file s = some (page, s') ∧ page.Right cf t ∧
      AtHead cf file t s' a' ts' rest' ∧ s'.pageLevel = s.pageLevel ∧
      (ts' ++ rest').length < (ts ++ rest).length := by
  obtain ⟨s', done, left, us, rest', rfl, rfl, hround, hbits, hnone, hhead, hsame⟩ :=
    pageRound_spec h hlevels hsize
  have hdone : done ≠ [] := fun hnil => (hnone hnil).elim hne (fun hnot => hnot hfits)
  have hcut := h.cutAt.of_append.1.of_append.2.of_append.1
  have hsmall := h.small hsize
  have hlinks := h.toAtLevels.leadsTo
  refine ⟨_, s', _, _, _, hround, ⟨⟨s.currLev cf, done, hdone, ?_, ?_, ?_⟩, ?_⟩, hhead,
    hsame.pageLevel, ?_⟩
  · rw [h.forest]
    exact ⟨a, left ++ (us ++ rest'), by simp only [List.append_assoc]⟩
  · rw [pageOf, length_levelsOf]
    exact hcut
  · rw [pageOf, length_levelsOf]
  · intro f hf
    refine Nat.le_trans (pageOf_inside hcut hlinks ?_ hsmall hdone hf) (hbits.resolve_left hdone)
    rw [List.append_assoc, Trie.levelAt_append _ done, List.length_append]
    exact Nat.le_add_right _ _
  · have hpos := List.length_pos_iff.mpr hdone
    simp only [List.length_append]
    omega

/-- If the page is right, the first subtrie fits. -/
theorem AtHead.firstFits_of_right {s s' : BuildState} {a ts rest : List (Trie ℕ)}
    {page : BuiltPage} (h : AtHead cf file t s a ts rest) (hlevels : 0 < cf.levelsPerPage)
    (hsize : ∀ n, (Trie.levelAt n [t]).length < intMax)
    (hround : pageRound cf file s = some (page, s')) (hright : page.Right cf t) :
    s.FirstFits cf := by
  obtain ⟨s'', done, left, us, rest', rfl, rfl, hround', hbits, -, -, -⟩ :=
    pageRound_spec h hlevels hsize
  obtain ⟨rfl, rfl⟩ := Prod.mk.inj (Option.some.inj (hround.symm.trans hround'))
  have hdone : done ≠ [] := by
    rintro rfl
    obtain ⟨d, ts₁, hne, -, hcut, heq⟩ := hright.subtries
    rw [pageOf, length_levelsOf] at hcut heq
    obtain ⟨n, hn⟩ : ∃ n, s.copyLevs cf = n + 1 :=
      ⟨s.copyLevs cf - 1, by have hpos := h.copyLevs_pos hlevels; omega⟩
    rw [hn, levelsOf, levelsOf] at heq
    have hroots := (List.cons.inj heq).1
    exact hne (List.map_eq_nil_iff.mp hroots.symm)
  obtain ⟨x, done, rfl⟩ := List.exists_cons_of_ne_nil hdone
  rw [firstFits_cons hlevels h.ready.level]
  refine Nat.le_trans ?_ (hbits.resolve_left hdone)
  rw [← List.singleton_append]
  exact pageBits_le_append _ _ _ _ _

/-! ### The levels above -/

/-- The variables at the first page of some levels. -/
structure NextPageLevel (s s' : BuildState) (i : ℕ) : Prop where
  pageLevel : s'.pageLevel = i
  outputPageNum : s'.outputPageNum = s.outputPageNum
  childTCount : s'.childTCount = s.childTCount
  currTCount : s'.currTCount = initTopCount s.outputPageNum

/-- The first page of some levels. -/
theorem levelStart_spec {s : BuildState} {i : ℕ} (hlevels : 0 < cf.levelsPerPage)
    (hsize : ∀ n, (Trie.levelAt n [t]).length < intMax) (hheight : s.trie.length = t.height)
    (hwithin : i * cf.levelsPerPage < t.height)
    (hlinks : s.childTCount.LeadsTo (Trie.levelAt ((i + 1) * cf.levelsPerPage) [t]).length)
    (hlevs : LevelsHold cf file (min ((i + 1) * cf.levelsPerPage) t.height) s.trie [t])
    (hbuf : BufferShifted cf s.childTCount 0 s.nb []) :
    ∃ s' ts rest, levelStart cf file i s = some s' ∧ AtHead cf file t s' [] ts rest ∧
      NextPageLevel s s' i := by
  have hsucc : (i + 1) * cf.levelsPerPage = cf.levelsPerPage + i * cf.levelsPerPage := by
    rw [Nat.succ_mul, Nat.add_comm]
  rw [hsucc] at hlinks hlevs
  have hbefore : AtLevels cf file t { s with
      pageLevel := i
      bCount := 0
      tCount := 0
      currTCount := initTopCount s.outputPageNum } [] []
      (Trie.levelAt (i * cf.levelsPerPage) [t]) := {
    height := hheight
    within := hwithin
    forest := rfl
    bCount := by rw [Trie.levelAt_nil, List.length_nil]
    tCount := rfl
    links := by
      rw [List.append_nil, List.nil_append, ← Trie.levelAt_add]
      exact hlinks
    levs := by
      intro j hj
      have hj' : j < min cf.levelsPerPage (s.trie.length - i * cf.levelsPerPage) := hj
      obtain ⟨lev, hlev, hopen, hholds⟩ := hlevs (i * cf.levelsPerPage + j) (by omega)
      refine ⟨lev, ?_, hopen, ?_⟩
      · show (s.trie.drop (i * cf.levelsPerPage))[j]? = _
        rw [List.getElem?_drop, hlev]
      · rwa [levelNodes, ← Trie.levelAt_add, Nat.add_comm j]
    lower := by
      intro j hj
      have hj' : j < i * cf.levelsPerPage := hj
      exact hlevs j (by omega)
    curr := ⟨[], rfl⟩ }
  obtain ⟨nb', trie', us, rest', -, hload, hhead⟩ := load_spec hbefore hlevels hsize hbuf
  exact ⟨_, [] ++ us, rest', hload, hhead, rfl, rfl, rfl, rfl⟩

/-- From some levels to those above. -/
theorem AtHead.levelStart {s : BuildState} {a rest : List (Trie ℕ)} {i : ℕ}
    (h : AtHead cf file t s a [] rest) (hlevels : 0 < cf.levelsPerPage)
    (hsize : ∀ n, (Trie.levelAt n [t]).length < intMax) (hi : s.pageLevel = i + 1) :
    ∃ s' ts' rest', levelStart cf file i (levelEnd s) = some s' ∧
      AtHead cf file t s' [] ts' rest' ∧ NextPageLevel (levelEnd s) s' i := by
  have hcurr : s.currLev cf = (i + 1) * cf.levelsPerPage := by rw [BuildState.currLev, hi]
  have hwithin := h.within
  have hlower := h.lower
  rw [hcurr] at hwithin hlower
  refine levelStart_spec hlevels hsize h.height ?_ ?_ ?_ ?_
  · have hmul := Nat.mul_le_mul_right cf.levelsPerPage (Nat.le_succ i)
    exact Nat.lt_of_le_of_lt hmul hwithin
  · obtain ⟨l, hl⟩ := h.curr
    have hentries : (levelEnd s).childTCount.nLeftLinks = 0 :: (l ++ [intMax]) := by
      show (s.currTCount.nLeftLinks ++ [s.tCount]) ++ [intMax] = _
      rw [hl, List.cons_append]
    refine ⟨?_, fun _ => ⟨_, hentries⟩⟩
    rw [hentries]
    exact List.mem_cons_of_mem _ (List.mem_append_right _ List.mem_cons_self)
  · rw [Nat.min_eq_left (Nat.le_of_lt hwithin)]
    exact hlower
  · refine bufferShifted_reset ?_ h.ready.page
    rw [h.ready.level, length_levelsOf]

/-- The bottom levels. -/
theorem pageLevels_spec {h k : ℕ} (hk : 0 < k) (hh : 0 < h) :
    ∃ i, (h / k + if h % k = 0 then 0 else 1) = i + 1 ∧ i * k < h ∧ h ≤ (i + 1) * k := by
  have hdiv := Nat.div_add_mod h k
  have hmod := Nat.mod_lt h hk
  rw [Nat.mul_comm] at hdiv
  by_cases hzero : h % k = 0
  · obtain ⟨i, hi⟩ : ∃ i, h / k = i + 1 := by
      refine ⟨h / k - 1, ?_⟩
      have hpos : 0 < h / k := by
        refine Nat.pos_of_ne_zero fun hnil => ?_
        rw [hnil, Nat.zero_mul] at hdiv
        omega
      omega
    rw [hi, Nat.succ_mul] at hdiv
    refine ⟨i, by rw [hi, if_pos hzero], by omega, ?_⟩
    rw [Nat.succ_mul]
    omega
  · refine ⟨h / k, by rw [if_neg hzero], by omega, ?_⟩
    rw [Nat.succ_mul]
    omega

theorem buildStart_spec (hlevels : 0 < cf.levelsPerPage)
    (hsize : ∀ n, (Trie.levelAt n [t]).length < intMax)
    (hfile : LevelLists cf.levelPageSize file t) :
    ∃ s ts rest, buildStart cf file = some s ∧ AtHead cf file t s [] ts rest ∧
      t.height ≤ (s.pageLevel + 1) * cf.levelsPerPage ∧ s.outputPageNum = 0 ∧
      s.childTCount = ⟨-1, [intMax]⟩ ∧ s.currTCount = ⟨0, []⟩ := by
  obtain ⟨first, hfirst, hlen, hholds⟩ := hfile
  obtain ⟨i, hi, hlt, hle⟩ := pageLevels_spec hlevels (Trie.height_pos t)
  rw [← hlen] at hi
  obtain ⟨trie, htrie⟩ : ∃ trie, trie = first.map fun firstPageNum =>
    { newSingleLevel cf.levelPageSize with firstPageNum := firstPageNum } := ⟨_, rfl⟩
  obtain ⟨s', ts, rest, hstart, hhead, hnext⟩ := @levelStart_spec cf file t
    { pageLevel := i + 1
      outputPageNum := 0
      bCount := 0
      tCount := 0
      nb := nodeBufferInit cf.levelsPerPage (cf.pagedPageSize * 8)
      childTCount := addTopCount (initTopCount (-1)) intMax
      currTCount := initTopCount (-1)
      trie := trie } i hlevels hsize (by rw [htrie, List.length_map, hlen]) hlt (by
        refine ⟨List.mem_singleton_self _, fun hne => absurd ?_ hne⟩
        rw [Trie.levelAt_singleton_eq_nil hle, List.length_nil]) (by
        intro d hd
        rw [Nat.min_eq_right hle, ← hlen] at hd
        obtain ⟨n, hn⟩ : ∃ n, first[d]? = some n := ⟨_, List.getElem?_eq_getElem hd⟩
        refine ⟨_, ?_, fun hused => absurd rfl hused, hholds d n hn⟩
        rw [htrie, List.getElem?_map, hn, Option.map_some]) (bufferShifted_init cf _ 0)
  refine ⟨s', ts, rest, ?_, hhead, by rwa [hnext.pageLevel], hnext.outputPageNum,
    hnext.childTCount, hnext.currTCount⟩
  rw [buildStart, hfirst]
  simp only [Option.bind_eq_bind, Option.bind_some, hi]
  rw [if_neg (Nat.succ_ne_zero i), Nat.add_sub_cancel, ← htrie]
  exact hstart

end

/-! ### Level files with one page for each level -/

/-- The trie of starts from `a` on that differ in `k` bits. -/
def fullTrie : ℕ → ℕ → Trie ℕ
  | 0, a => .leaf a
  | k + 1, a => .node 0 (fullTrie k a) (fullTrie k (a + 2 ^ k))

/-- A level file with one page for each level. -/
def levelFile (levelPageSize : ℕ) (t : Trie ℕ) : List UInt8 :=
  let page := fun d =>
    (levelNodes d [t] ++ [(⟨.term, 0⟩ : Node)]).flatMap fun node => wordBytes node.word
  ((List.range t.height).flatMap fun d =>
      page d ++ List.replicate (levelPageSize - (page d).length) 0) ++
    (List.range t.height).flatMap wordBytes ++ wordBytes t.height

/-- Whether the pages of a level file are read as the levels of a trie. -/
def pagesRead (levelPageSize : ℕ) (file : List UInt8) (t : Trie ℕ) : Bool :=
  decide (readFirstPages file = some ((List.range t.height).map Int.ofNat)) &&
    (List.range t.height).all fun d =>
      decide ((readTriePage levelPageSize file d
          { newSingleLevel levelPageSize with firstPageNum := d }).map
        (fun lev => lev.node.take ((levelNodes d [t]).length + 1)) =
          some (levelNodes d [t] ++ [⟨.term, 0⟩]))

theorem levelLists_of_pagesRead {levelPageSize : ℕ} {file : List UInt8} {t : Trie ℕ}
    (h : pagesRead levelPageSize file t = true) : LevelLists levelPageSize file t := by
  obtain ⟨hfirst, hpages⟩ := (Bool.and_eq_true _ _).mp h
  refine ⟨_, of_decide_eq_true hfirst, by rw [List.length_map, List.length_range], ?_⟩
  intro d firstPageNum hd
  rw [List.getElem?_map] at hd
  obtain ⟨d', hd', rfl⟩ := Option.map_eq_some_iff.mp hd
  obtain ⟨hlt, hget⟩ := List.getElem?_eq_some_iff.mp hd'
  rw [List.getElem_range] at hget
  rw [List.length_range] at hlt
  subst hget
  refine levelHolds_unread rfl
    (of_decide_eq_true (List.all_eq_true.mp hpages d (List.mem_range.mpr hlt))) ?_
  intro n hn
  obtain ⟨x, -, rfl⟩ := List.mem_map.mp hn
  cases x with
  | leaf a => exact Or.inr rfl
  | node skip l r => exact Or.inl rfl

/-! ### Whole runs -/

section

variable {cf : PageConfig} {file : List UInt8} {t : Trie ℕ}

/-- From a state on, the loops end, and every page is right. -/
def RunsRight (cf : PageConfig) (file : List UInt8) (t : Trie ℕ) (s : BuildState) : Prop :=
  ∃ fuel pages, buildRun cf file fuel s = some pages ∧ ∀ page ∈ pages, page.Right cf t

/-- `_patriePagedBuild` ends, and every page that it writes is right. -/
def BuildRight (cf : PageConfig) (file : List UInt8) (t : Trie ℕ) : Prop :=
  ∃ fuel pages, patriePagedBuild cf file fuel = some (true, pages) ∧
    ∀ page ∈ pages, page.Right cf t

theorem runsRight_step {s s' : BuildState} {page : Option BuiltPage} (hgo : ¬ s.Done)
    (h : buildStep cf file s = some (page, s')) :
    RunsRight cf file t s ↔ (∀ p ∈ page, p.Right cf t) ∧ RunsRight cf file t s' := by
  constructor
  · rintro ⟨fuel, pages, hrun, hright⟩
    cases fuel with
    | zero => exact absurd hrun (by simp [buildRun])
    | succ fuel =>
      rw [buildRun, if_neg hgo, h] at hrun
      simp only [Option.bind_eq_bind, Option.bind_some] at hrun
      obtain ⟨rest, hrest, hpages⟩ := Option.bind_eq_some_iff.mp hrun
      obtain rfl := Option.some.inj hpages
      refine ⟨fun p hp => ?_, fuel, rest, hrest, fun p hp => ?_⟩
      · exact hright p (List.mem_append_left _ (Option.mem_toList.mpr hp))
      · exact hright p (List.mem_append_right _ hp)
  · rintro ⟨hpage, fuel, pages, hrun, hright⟩
    refine ⟨fuel + 1, page.toList ++ pages, ?_, fun p hp => ?_⟩
    · rw [buildRun, if_neg hgo, h]
      simp only [Option.bind_eq_bind, Option.bind_some, hrun]
    · rcases List.mem_append.mp hp with hp | hp
      · exact hpage p (Option.mem_toList.mp hp)
      · exact hright p hp

theorem runsRight_done {s : BuildState} (h : s.Done) : RunsRight cf file t s :=
  ⟨1, [], by rw [buildRun, if_pos h], fun _ hp => absurd hp List.not_mem_nil⟩

theorem buildRight_iff (haccept : pageTooSmall cf = some false) :
    BuildRight cf file t ↔ ∃ s, buildStart cf file = some s ∧ RunsRight cf file t s := by
  have hbuild : ∀ fuel, patriePagedBuild cf file fuel =
      (buildStart cf file).bind fun s =>
        (buildRun cf file fuel s).map fun pages => (true, pages) := by
    intro fuel
    rw [patriePagedBuild, haccept]
    simp only [Option.bind_eq_bind, Option.bind_some, Bool.false_eq_true, if_false]
    congr 1
    funext s
    cases buildRun cf file fuel s <;> rfl
  constructor
  · rintro ⟨fuel, pages, hrun, hright⟩
    rw [hbuild] at hrun
    obtain ⟨s, hs, hrun⟩ := Option.bind_eq_some_iff.mp hrun
    obtain ⟨pages', hpages, heq⟩ := Option.map_eq_some_iff.mp hrun
    obtain ⟨-, rfl⟩ := Prod.mk.inj heq
    exact ⟨s, hs, fuel, pages', hpages, hright⟩
  · rintro ⟨s, hs, fuel, pages, hrun, hright⟩
    refine ⟨fuel, pages, ?_, hright⟩
    rw [hbuild, hs, Option.bind_some, hrun, Option.map_some]

/-- One turn, where the first subtrie fits: a right page, and less is left to be done. -/
theorem AtHead.buildStep {s : BuildState} {a ts rest : List (Trie ℕ)}
    (h : AtHead cf file t s a ts rest) (hlevels : 0 < cf.levelsPerPage)
    (hsize : ∀ n, (Trie.levelAt n [t]).length < intMax) (hgo : ¬ s.Done)
    (hfits : s.FirstFits cf) :
    ∃ page s' a' ts' rest', buildStep cf file s = some (page, s') ∧ (∀ p ∈ page, p.Right cf t) ∧
      AtHead cf file t s' a' ts' rest' ∧
      (s'.pageLevel < s.pageLevel ∨
        s'.pageLevel = s.pageLevel ∧ (ts' ++ rest').length < (ts ++ rest).length) := by
  rw [Paged.buildStep]
  rcases eq_or_ne ts [] with rfl | hne
  · have hempty : ¬ 0 < s.nb.nBitsUsed := fun hpos => h.used_pos.mp hpos rfl
    obtain ⟨i, hi⟩ : ∃ i, s.pageLevel = i + 1 := by
      refine ⟨s.pageLevel - 1, ?_⟩
      by_contra hzero
      exact hgo ⟨by omega, by omega⟩
    obtain ⟨s', ts', rest', hstart, hhead, hnext⟩ := h.levelStart hlevels hsize hi
    have hlevel := hnext.pageLevel
    refine ⟨none, s', [], ts', rest', ?_, fun p hp => absurd hp (by simp), hhead, Or.inl (by omega)⟩
    rw [if_neg hempty, hi, Nat.add_sub_cancel, hstart, Option.map_some]
  · obtain ⟨page, s', a', ts', rest', hround, hright, hhead, hlevel, hless⟩ :=
      h.pageRound_right hlevels hsize hne hfits
    refine ⟨some page, s', a', ts', rest', ?_, ?_, hhead, Or.inr ⟨hlevel, hless⟩⟩
    · rw [if_pos (h.used_pos.mpr hne), hround, Option.map_some]
    · intro p hp
      rwa [← Option.some.inj hp]

/-- **A run is right** if the first subtrie fits in all states. -/
theorem AtHead.runsRight (hlevels : 0 < cf.levelsPerPage)
    (hsize : ∀ n, (Trie.levelAt n [t]).length < intMax)
    (hall : ∀ s, Reached cf file s → s.FirstFits cf) (i m : ℕ) {s : BuildState}
    {a ts rest : List (Trie ℕ)} (hi : s.pageLevel = i) (hm : (ts ++ rest).length = m)
    (h : AtHead cf file t s a ts rest) (hs : Reached cf file s) : RunsRight cf file t s := by
  induction i using Nat.strong_induction_on generalizing m s a ts rest with
  | _ i ihi =>
    induction m using Nat.strong_induction_on generalizing s a ts rest with
    | _ m ihm =>
      by_cases hgo : s.Done
      · exact runsRight_done hgo
      · obtain ⟨page, s', a', ts', rest', hstep, hright, hhead, hless⟩ :=
          h.buildStep hlevels hsize hgo (hall s hs)
        have hs' : Reached cf file s' := Reached.step hs hgo hstep
        refine (runsRight_step hgo hstep).mpr ⟨hright, ?_⟩
        rcases hless with hlt | ⟨heq, hlt⟩
        · exact ihi s'.pageLevel (by omega) _ rfl rfl hhead hs'
        · exact ihm (ts' ++ rest').length (by omega) (by omega) rfl hhead hs'

/-- In a right run the first subtrie fits. -/
theorem AtHead.firstFits {s : BuildState} {a ts rest : List (Trie ℕ)}
    (h : AtHead cf file t s a ts rest) (hlevels : 0 < cf.levelsPerPage)
    (hsize : ∀ n, (Trie.levelAt n [t]).length < intMax) (hright : RunsRight cf file t s) :
    s.FirstFits cf := by
  rcases eq_or_ne ts [] with rfl | hne
  · exact firstFits_nil hlevels h.ready.level
  · have hpos := h.used_pos.mpr hne
    have hgo : ¬ s.Done := fun hdone => Nat.ne_of_gt hpos hdone.1
    obtain ⟨s', done, left, us, rest', -, -, hround, -⟩ := pageRound_spec h hlevels hsize
    have hstep : Paged.buildStep cf file s =
        some (some (pageOf cf (s.copyLevs cf) s.childTCount s.bCount done), s') := by
      rw [Paged.buildStep, if_pos hpos, hround, Option.map_some]
    exact h.firstFits_of_right hlevels hsize hround (((runsRight_step hgo hstep).mp hright).1 _ rfl)

/-- The states of a right run. -/
theorem Reached.runsRight {s : BuildState} (hs : Reached cf file s) (hlevels : 0 < cf.levelsPerPage)
    (hsize : ∀ n, (Trie.levelAt n [t]).length < intMax)
    (hfile : LevelLists cf.levelPageSize file t)
    (hstart : ∃ s, buildStart cf file = some s ∧ RunsRight cf file t s) :
    (∃ a ts rest, AtHead cf file t s a ts rest) ∧ RunsRight cf file t s := by
  induction hs with
  | start h =>
    obtain ⟨s₀, hs₀, hright⟩ := hstart
    obtain ⟨s₁, ts, rest, hs₁, hhead, -⟩ := buildStart_spec hlevels hsize hfile
    obtain rfl := Option.some.inj (h.symm.trans hs₀)
    obtain rfl := Option.some.inj (h.symm.trans hs₁)
    exact ⟨⟨[], ts, rest, hhead⟩, hright⟩
  | step _ hgo h ih =>
    obtain ⟨⟨a, ts, rest, hhead⟩, hright⟩ := ih
    obtain ⟨page', s'', a', ts', rest', hstep, -, hhead', -⟩ :=
      hhead.buildStep hlevels hsize hgo (hhead.firstFits hlevels hsize hright)
    obtain ⟨-, rfl⟩ := Prod.mk.inj (Option.some.inj (h.symm.trans hstep))
    exact ⟨⟨a', ts', rest', hhead'⟩, ((runsRight_step hgo h).mp hright).2⟩

/-! ### Sizes -/

/-- Every leaf of a trie is on one of its levels. -/
theorem start_mem_levelNodes {a : ℕ} (ha : a ∈ t.leaves) :
    ∃ d < t.height, (⟨.start, a⟩ : Node) ∈ levelNodes d [t] := by
  induction t with
  | leaf b =>
    rw [List.mem_singleton.mp ha]
    exact ⟨0, Nat.one_pos, List.mem_cons_self⟩
  | node skip l r ihl ihr =>
    have hnext : ∀ d, levelNodes (d + 1) [Trie.node skip l r] =
        levelNodes d [l] ++ levelNodes d [r] := by
      intro d
      rw [← levelNodes_append, levelNodes, Trie.levelAt_succ']
      rfl
    rcases List.mem_append.mp ha with ha | ha
    · obtain ⟨d, hd, hmem⟩ := ihl ha
      refine ⟨d + 1, by rw [Trie.height]; omega, ?_⟩
      rw [hnext]
      exact List.mem_append_left _ hmem
    · obtain ⟨d, hd, hmem⟩ := ihr ha
      refine ⟨d + 1, by rw [Trie.height]; omega, ?_⟩
      rw [hnext]
      exact List.mem_append_right _ hmem

/-- Starts have 30 bits, and so there are not too many of them. -/
theorem length_levelAt_lt (hfile : LevelLists cf.levelPageSize file t) (hstarts : t.leaves.Nodup)
    (n : ℕ) : (Trie.levelAt n [t]).length < intMax := by
  obtain ⟨first, -, hlen, hholds⟩ := hfile
  have hsmall : ∀ a ∈ t.leaves, a ∈ List.range (2 ^ 30) := by
    intro a ha
    obtain ⟨d, hd, hmem⟩ := start_mem_levelNodes ha
    rw [← hlen] at hd
    have hlev := hholds d _ (List.getElem?_eq_getElem hd)
    exact List.mem_range.mpr (hlev.value_lt (fun hused => absurd rfl hused) _ hmem)
  have hleaves := List.Nodup.length_le_of_subset hstarts hsmall
  rw [List.length_range] at hleaves
  have hlevel := Trie.length_levelAt_le n [t]
  rw [Trie.leafCount, List.map_singleton, List.sum_singleton] at hlevel
  rw [intMax]
  omega

theorem levelsPerPage_pos (haccept : pageTooSmall cf = some false) : 0 < cf.levelsPerPage := by
  refine Nat.pos_of_ne_zero fun hzero => ?_
  rw [pageTooSmall, if_pos hzero] at haccept
  exact Bool.false_ne_true (Option.some.inj haccept).symm

theorem BuildRight.firstFits (hright : BuildRight cf file t)
    (haccept : pageTooSmall cf = some false) (hfile : LevelLists cf.levelPageSize file t)
    (hstarts : t.leaves.Nodup) {s : BuildState} (hs : Reached cf file s) : s.FirstFits cf := by
  have hlevels := levelsPerPage_pos haccept
  have hsize := length_levelAt_lt hfile hstarts
  obtain ⟨⟨a, ts, rest, hhead⟩, hright'⟩ :=
    hs.runsRight hlevels hsize hfile ((buildRight_iff haccept).mp hright)
  exact hhead.firstFits hlevels hsize hright'

end

/-- A page of 16 bytes for two levels. -/
def tinyPage : PageConfig := ⟨12, 16, 2, 31, 31⟩

end Archie.Paged
