/-
The runs of an infix file are sorted and have the right marks (`csort` in `patrie/sort.c`).

The comparison and the heights are given for the suffixes of the text that begin at its index
points, each cut off at some place behind the `sortPadLen` bytes that are read after every piece.

* `Compares` — the comparison orders the suffixes, and has the heights.
* `exists_sortRun_piece` — a piece becomes a sorted run.
* `mergeRuns_spec` — the runs before mark it.
* `RunsSorted.step` — what one round of `csort` preserves.
* `csort_sorted` — all runs.
-/
import Archie.InfixMerge
import Archie.RunMarked

namespace Archie.Infix

open RunMerge Archie.Run

/-- The comparison totally orders the index points of a text by their suffixes, and the heights are
those of the order; only `sortPadLen` bytes behind an index point matter. -/
structure Compares (cf : Config) (text : List UInt8) (lt : ℕ → ℕ → Prop) (d : ℕ → ℕ → ℕ) :
    Prop where
  total : ∀ p ∈ indexPoints cf.idxType text, ∀ q ∈ indexPoints cf.idxType text, p ≠ q →
    lt p q ∨ lt q p
  neg : ∀ p ∈ indexPoints cf.idxType text, ∀ q ∈ indexPoints cf.idxType text, p ≠ q →
    ∀ m m', cf.sortPadLen < m → cf.sortPadLen < m' →
      (cf.strcomp ((text.drop p).take m) ((text.drop q).take m') < 0 ↔ lt p q)
  pos : ∀ p ∈ indexPoints cf.idxType text, ∀ q ∈ indexPoints cf.idxType text, p ≠ q →
    ∀ m m', cf.sortPadLen < m → cf.sortPadLen < m' →
      (0 < cf.strcomp ((text.drop p).take m) ((text.drop q).take m') ↔ lt q p)
  diff : ∀ p ∈ indexPoints cf.idxType text, ∀ q ∈ indexPoints cf.idxType text, lt p q →
    ∀ m m', cf.sortPadLen < m → cf.sortPadLen < m' →
      cf.diffbit ((text.drop p).take m) ((text.drop q).take m') = d p q
  fits : HeightsFit lt d (indexPoints cf.idxType text)

section

variable {cf : Config} {text : List UInt8} {lt : ℕ → ℕ → Prop} {d : ℕ → ℕ → ℕ}

/-! ### Pieces -/

/-- An offset of a piece that begins at `off`, and the index point there. -/
structure PieceAt (cf : Config) (text : List UInt8) (off : ℕ) (s : ℤ) : Prop where
  nonneg : 0 ≤ s
  lt : s.toNat < cf.textsz
  point : off + s.toNat ∈ indexPoints cf.idxType text

theorem drop_textBuf (off i : ℕ) : (textBuf cf text off).drop i =
    (text.drop (off + i)).take (cf.textsz + cf.sortPadLen - i) := by
  rw [textBuf, List.drop_take, List.drop_drop]

section

variable {b1 b2 : ℕ} {s s' : ℤ}

theorem PieceAt.lt_rest (h : PieceAt cf text b1 s) :
    cf.sortPadLen < cf.textsz + cf.sortPadLen - s.toNat := by
  have := h.lt
  omega

theorem Compares.neg_at (hc : Compares cf text lt d) (h : PieceAt cf text b1 s)
    (h' : PieceAt cf text b2 s') (hne : b1 + s.toNat ≠ b2 + s'.toNat) :
    cf.strcomp ((textBuf cf text b1).drop s.toNat) ((textBuf cf text b2).drop s'.toNat) < 0 ↔
      lt (b1 + s.toNat) (b2 + s'.toNat) := by
  rw [drop_textBuf, drop_textBuf]
  exact hc.neg _ h.point _ h'.point hne _ _ h.lt_rest h'.lt_rest

theorem Compares.pos_at (hc : Compares cf text lt d) (h : PieceAt cf text b1 s)
    (h' : PieceAt cf text b2 s') (hne : b1 + s.toNat ≠ b2 + s'.toNat) :
    0 < cf.strcomp ((textBuf cf text b1).drop s.toNat) ((textBuf cf text b2).drop s'.toNat) ↔
      lt (b2 + s'.toNat) (b1 + s.toNat) := by
  rw [drop_textBuf, drop_textBuf]
  exact hc.pos _ h.point _ h'.point hne _ _ h.lt_rest h'.lt_rest

theorem Compares.diff_at (hc : Compares cf text lt d) (h : PieceAt cf text b1 s)
    (h' : PieceAt cf text b2 s') (hlt : lt (b1 + s.toNat) (b2 + s'.toNat)) :
    cf.diffbit ((textBuf cf text b1).drop s.toNat) ((textBuf cf text b2).drop s'.toNat) =
      d (b1 + s.toNat) (b2 + s'.toNat) := by
  rw [drop_textBuf, drop_textBuf]
  exact hc.diff _ h.point _ h'.point hlt _ _ h.lt_rest h'.lt_rest

end

/-- The buffers of two pieces have what is compared. -/
theorem Compares.runs (hc : Compares cf text lt d) {b1 b2 : ℕ} {ss1 ss2 : List ℤ}
    (h1 : ∀ s ∈ ss1, PieceAt cf text b1 s) (h2 : ∀ s ∈ ss2, PieceAt cf text b2 s)
    (hne : ∀ s ∈ ss1, ∀ s' ∈ ss2, b1 + s.toNat ≠ b2 + s'.toNat) :
    CompareRuns cf lt d (textBuf cf text b1) (textBuf cf text b2) b1 b2 ss1 ss2 where
  total := fun s hs s' hs' => hc.total _ (h1 s hs).point _ (h2 s' hs').point (hne s hs s' hs')
  neg := fun s hs s' hs' => hc.neg_at (h1 s hs) (h2 s' hs') (hne s hs s' hs')
  pos := fun s hs s' hs' => hc.pos_at (h1 s hs) (h2 s' hs') (hne s hs s' hs')
  left := fun s hs s' hs' hlt => hc.diff_at (h1 s hs) (h2 s' hs') hlt
  right := fun s hs s' hs' hlt => hc.diff_at (h2 s' hs') (h1 s hs) hlt

/-- The index points of a piece are marked by their offsets in it. -/
theorem indexPoints_take (idxType : IndexType) (text : List UInt8) {off : ℕ}
    (hoff : off ≤ text.length) (n : ℕ) :
    indexPoints idxType (text.take (off + n)) = indexPoints idxType (text.take off) ++
      (setIndexPoints idxType (stateAt idxType text off) ((text.drop off).take n)).1.map
        (off + ·) := by
  have hlen : (text.take off).length = off := List.length_take_of_le hoff
  rw [List.take_add]
  cases idxType with
  | chars =>
    show List.range _ = List.range _ ++ (List.range _).map _
    rw [List.length_append, hlen, List.range_add]
  | words =>
    show indexWords 0 false _ = indexWords 0 false _ ++ (indexWords 0 _ _).map _
    rw [indexWords_append, hlen, indexWords_shift]
    congr 2
    funext p
    exact Nat.add_comm p off

theorem lt_of_mem_indexPoints {idxType : IndexType} {text : List UInt8} {p : ℕ}
    (hp : p ∈ indexPoints idxType text) : p < text.length := by
  cases idxType with
  | chars => exact List.mem_range.mp hp
  | words =>
    have := (indexWords_bounds hp).2
    omega

/-- The index points up to some place are among all of them. -/
theorem mem_indexPoints_of_take (idxType : IndexType) (text : List UInt8) {off p : ℕ}
    (hp : p ∈ indexPoints idxType (text.take off)) : p ∈ indexPoints idxType text := by
  rcases Nat.le_total off text.length with hoff | hoff
  · have hall := indexPoints_take idxType text hoff (text.length - off)
    rw [List.take_of_length_le (show text.length ≤ off + (text.length - off) by omega)] at hall
    rw [hall]
    exact List.mem_append_left _ hp
  · rwa [List.take_of_length_le hoff] at hp

theorem pairwise_indexWords (i : ℕ) (prevnl : Bool) (text : List UInt8) :
    (indexWords i prevnl text).Pairwise (· < ·) := by
  induction text generalizing i prevnl with
  | nil => cases prevnl <;> exact List.Pairwise.nil
  | cons c text ih =>
    cases prevnl with
    | true =>
      refine List.pairwise_cons.mpr ⟨fun p hp => ?_, ih _ _⟩
      have := indexWords_bounds hp
      omega
    | false => exact ih _ _

theorem nodup_indexPoints (idxType : IndexType) (text : List UInt8) :
    (indexPoints idxType text).Nodup := by
  cases idxType with
  | chars => exact List.nodup_range
  | words => exact (pairwise_indexWords 0 false text).imp fun h => Nat.ne_of_lt h

/-! ### A run -/

/-- The sort of a run, where the comparison orders its elements. -/
theorem sortRun_spec {cmp : ℤ → ℤ → ℤ} {run : List RunElement} (hne : run ≠ [])
    (hlen : run.length ≤ wordSize) (hnodup : (run.map RunElement.s).Nodup)
    (horder : TotallyOrders cmp run) :
    ∃ run', sortRun (run.length + 1) run run.length cmp = some run' ∧ run'.Perm run ∧
      run'.Pairwise fun a b => cmp a.s b.s < 0 := by
  have hpos := List.length_pos_iff.mpr hne
  have hlast : ulong ((run.length : ℤ) - 1) = run.length - 1 := by
    rw [show (run.length : ℤ) - 1 = ((run.length - 1 : ℕ) : ℤ) by omega]
    exact ulong_natCast (by omega)
  obtain ⟨run', hsort, hre, hsorted⟩ := HoleSort.exists_sort
    (fun a (_ : a ∈ run) => cmpRunElt_self cmp a) (show run.length - 1 < run.length by omega)
    (show run.length - 1 - 0 < run.length + 1 by omega)
  refine ⟨run', by rw [sortRun, hlast, sort, hsort], hre.perm, ?_⟩
  have hlen' := hre.perm.length_eq
  have hnodup' : run'.Pairwise fun a b => a.s ≠ b.s :=
    List.pairwise_map.mp ((hre.perm.map _).nodup_iff.mpr hnodup)
  rw [List.pairwise_iff_getElem]
  intro i j hi hj hij
  have hle := hsorted horder.orders i j _ _ (Nat.zero_le i) hij (by omega)
    (List.getElem?_eq_getElem hi) (List.getElem?_eq_getElem hj)
  exact horder.cmpRunElt_neg (hre.perm.mem_iff.mp (List.getElem_mem hi))
    (hre.perm.mem_iff.mp (List.getElem_mem hj)) hle
    (List.pairwise_iff_getElem.mp hnodup' i j hi hj hij)

/-- The marks of a piece. -/
def pieceMarks (cf : Config) (text : List UInt8) (off : ℕ) : List ℕ :=
  (setIndexPoints cf.idxType (stateAt cf.idxType text off) ((text.drop off).take cf.textsz)).1

theorem pieceMarks_lt {off s : ℕ} (hs : s ∈ pieceMarks cf text off) : s < cf.textsz := by
  have hle := List.length_take_le cf.textsz (text.drop off)
  rw [pieceMarks] at hs
  cases hidx : cf.idxType with
  | chars =>
    rw [hidx] at hs
    have := List.mem_range.mp hs
    omega
  | words =>
    rw [hidx] at hs
    have := (indexWords_bounds hs).2
    omega

theorem pieceAt_of_mem {off : ℕ} (hoff : off ≤ text.length) {s : ℤ}
    (hs : s ∈ (pieceMarks cf text off).map fun n : ℕ => (n : ℤ)) : PieceAt cf text off s := by
  obtain ⟨n, hn, rfl⟩ := List.mem_map.mp hs
  refine ⟨Int.natCast_nonneg n, pieceMarks_lt hn, ?_⟩
  rw [Int.toNat_natCast]
  refine @mem_indexPoints_of_take cf.idxType text (off + cf.textsz) _ ?_
  rw [indexPoints_take cf.idxType text hoff]
  exact List.mem_append_right _ (List.mem_map_of_mem hn)

theorem nodup_pieceMarks {off : ℕ} (hoff : off ≤ text.length) : (pieceMarks cf text off).Nodup := by
  have hall := nodup_indexPoints cf.idxType (text.take (off + cf.textsz))
  rw [indexPoints_take cf.idxType text hoff] at hall
  exact (List.nodup_append.mp hall).2.1.of_map _

/-- The elements before their heights are set. -/
theorem eq_heighted_zero {run : List RunElement} (h : ℕ → ℕ)
    (hzero : ∀ e ∈ run, e = ⟨0, e.s, 0, 0⟩) :
    run = (run.map RunElement.s).mapIdx (heighted h 0) := by
  refine List.ext_getElem? fun i => ?_
  rw [List.getElem?_mapIdx, List.getElem?_map, Option.map_map]
  rcases hi : run[i]? with _ | e
  · rfl
  · rw [Option.map_some, Function.comp_apply, heighted, if_neg (by omega), if_neg (by omega)]
    exact congrArg some (hzero e (List.mem_of_getElem? hi))

variable [IsStrictOrder ℕ lt]

omit [IsStrictOrder ℕ lt] in
theorem PieceAt.ne {off : ℕ} {s s' : ℤ} (h : PieceAt cf text off s) (h' : PieceAt cf text off s')
    (hne : s ≠ s') : off + s.toNat ≠ off + s'.toNat := by
  have := h.nonneg
  have := h'.nonneg
  omega

/-- The comparison of a piece orders its elements. -/
theorem Compares.totallyOrders (hc : Compares cf text lt d) {off : ℕ} {run : List RunElement}
    (hrun : ∀ e ∈ run, PieceAt cf text off e.s) :
    TotallyOrders (fun a b => cf.strcomp ((textBuf cf text off).drop a.toNat)
      ((textBuf cf text off).drop b.toNat)) run where
  ne := by
    intro a ha b hb hab hzero
    have hne := (hrun a ha).ne (hrun b hb) hab
    have hneg := hc.neg_at (hrun a ha) (hrun b hb) hne
    have hpos := hc.pos_at (hrun a ha) (hrun b hb) hne
    rw [hzero] at hneg hpos
    rcases hc.total _ (hrun a ha).point _ (hrun b hb).point hne with h | h
    · exact absurd (hneg.mpr h) (Int.lt_irrefl 0)
    · exact absurd (hpos.mpr h) (Int.lt_irrefl 0)
  swap := by
    intro a ha b hb hab h
    have hne := (hrun a ha).ne (hrun b hb) hab
    exact (hc.neg_at (hrun b hb) (hrun a ha) hne.symm).mpr
      ((hc.pos_at (hrun a ha) (hrun b hb) hne).mp h)
  trans := by
    intro a ha b hb c hcm hab hbc hac
    have hneg : ∀ {x y : RunElement}, x ∈ run → y ∈ run → x.s ≠ y.s →
        (cf.strcomp ((textBuf cf text off).drop x.s.toNat)
          ((textBuf cf text off).drop y.s.toNat) < 0 ↔ lt (off + x.s.toNat) (off + y.s.toNat)) :=
      fun hx hy hxy => hc.neg_at (hrun _ hx) (hrun _ hy) ((hrun _ hx).ne (hrun _ hy) hxy)
    by_cases hab' : a.s = b.s
    · rw [hab']
      exact hbc
    · by_cases hbc' : b.s = c.s
      · rw [← hbc']
        exact hab
      · exact (hneg ha hcm hac).mpr (IsTrans.trans _ _ _ ((hneg ha hb hab').mp hab)
          ((hneg hb hcm hbc').mp hbc))

/-- The sorted elements of a piece, before their heights are set. -/
theorem exists_sortRun_piece (hc : Compares cf text lt d) {off : ℕ} (hoff : off ≤ text.length)
    {marks : List ℕ} (hmarks : marks = pieceMarks cf text off) (hne : marks ≠ []) :
    ∃ sorted, sortRun (marks.length + 1) (markedRun marks) marks.length (fun a b =>
        cf.strcomp ((textBuf cf text off).drop a.toNat) ((textBuf cf text off).drop b.toNat)) =
          some sorted ∧
      (sorted.map RunElement.s).Perm (marks.map fun n : ℕ => (n : ℤ)) ∧
      (offsets off (sorted.map RunElement.s)).Pairwise lt ∧
      ∀ e ∈ sorted, e = ⟨0, e.s, 0, 0⟩ := by
  have hmap : (markedRun marks).map RunElement.s = marks.map fun n : ℕ => (n : ℤ) := by
    rw [markedRun, List.map_map]
    rfl
  have hlen : (markedRun marks).length = marks.length := List.length_map _
  have hpos := List.length_pos_iff.mpr hne
  have hsize : marks.length ≤ cf.textsz := by
    rw [hmarks]
    exact (length_setIndexPoints _ _ _).trans (List.length_take_le _ _)
  have htextsz := cf.textsz_lt
  have hat : ∀ e ∈ markedRun marks, PieceAt cf text off e.s := by
    intro e he
    have hmem : e.s ∈ marks.map fun n : ℕ => (n : ℤ) := hmap ▸ List.mem_map_of_mem he
    rw [hmarks] at hmem
    exact pieceAt_of_mem hoff hmem
  have hnodup : ((markedRun marks).map RunElement.s).Nodup := by
    rw [hmap, hmarks]
    exact (nodup_pieceMarks hoff).map fun a b h => Int.ofNat.inj h
  obtain ⟨sorted, hsort, hperm, hpairwise⟩ := sortRun_spec
    (List.length_pos_iff.mp (hlen ▸ hpos)) (by omega) hnodup (hc.totallyOrders hat)
  rw [hlen] at hsort
  refine ⟨sorted, hsort, hmap ▸ hperm.map _, ?_, fun e he => ?_⟩
  · have hdistinct : sorted.Pairwise fun a b => a.s ≠ b.s :=
      List.pairwise_map.mp ((hperm.map _).nodup_iff.mpr hnodup)
    rw [offsets, List.pairwise_map, List.pairwise_map]
    refine (hpairwise.and hdistinct).imp_of_mem fun {a b} ha hb h => ?_
    have hata := hat a (hperm.mem_iff.mp ha)
    have hatb := hat b (hperm.mem_iff.mp hb)
    exact (hc.neg_at hata hatb (hata.ne hatb h.2)).mp h.1
  · obtain ⟨n, -, rfl⟩ := List.mem_map.mp (hperm.mem_iff.mp he)
    rfl

/-- **A piece** becomes a sorted run, first with the marks of no other run. -/
theorem exists_sorted (hc : Compares cf text lt d) {off : ℕ} (hoff : off ≤ text.length)
    {marks : List ℕ} (hmarks : marks = pieceMarks cf text off) (hne : marks ≠ []) :
    ∃ ss sorted run, sortRun (marks.length + 1) (markedRun marks) marks.length (fun a b =>
        cf.strcomp ((textBuf cf text off).drop a.toNat) ((textBuf cf text off).drop b.toNat)) =
          some sorted ∧
      heightLoop cf (textBuf cf text off) (ulong ((marks.length : ℤ) - 1)) 0 sorted = some run ∧
      ss.Perm (marks.map fun n : ℕ => (n : ℤ)) ∧ (offsets off ss).Pairwise lt ∧
      RunOk lt d [] off ss run := by
  obtain ⟨sorted, hsort, hperm, hsorted, hzero⟩ := exists_sortRun_piece hc hoff hmarks hne
  obtain ⟨ss, hss⟩ : ∃ ss, ss = sorted.map RunElement.s := ⟨_, rfl⟩
  rw [← hss] at hperm hsorted
  have hlen : ss.length = marks.length := by rw [hperm.length_eq, List.length_map]
  have hpos := List.length_pos_iff.mpr hne
  have htextsz := cf.textsz_lt
  have hsize : marks.length ≤ cf.textsz := by
    rw [hmarks]
    exact (length_setIndexPoints _ _ _).trans (List.length_take_le _ _)
  have hlast : ulong ((marks.length : ℤ) - 1) = marks.length - 1 := by
    rw [show (marks.length : ℤ) - 1 = ((marks.length - 1 : ℕ) : ℤ) by omega]
    exact ulong_natCast (by omega)
  have hat : ∀ s ∈ ss, PieceAt cf text off s := fun s hs =>
    pieceAt_of_mem hoff (hmarks ▸ hperm.mem_iff.mp hs)
  refine ⟨ss, sorted, ss.mapIdx (heighted (nextHeight cf (textBuf cf text off) ss)
    (ss.length - 1)), hsort, ?_, hperm, hsorted, runOk_heighted hsorted ?_ ?_⟩
  · rw [eq_heighted_zero (nextHeight cf (textBuf cf text off) ss) hzero, ← hss, hlast, ← hlen,
      heightLoop_spec cf _ (by omega), Nat.zero_add]
  · exact fun s hs s' hs' hlt => hc.diff_at (hat s hs) (hat s' hs') hlt
  · intro x hx y hy hlt
    obtain ⟨s, hs, rfl⟩ := List.mem_map.mp hx
    obtain ⟨s', hs', rfl⟩ := List.mem_map.mp hy
    exact hc.fits _ (hat s hs).point _ (hat s' hs').point hlt

/-! ### All runs -/

/-- The offsets of a run in the whole text. -/
theorem fst_markOf (tbs i : ℕ) (run : List RunElement) :
    (run.map (markOf tbs i)).map Prod.fst = offsets (i * tbs) (run.map RunElement.s) := by
  rw [List.map_map, offsets, List.map_map]
  rfl

theorem snd_markOf (tbs i : ℕ) (run : List RunElement) :
    (run.map (markOf tbs i)).map Prod.snd = run.map eltMark := by
  rw [List.map_map]
  rfl

theorem markRuns_concat (tbs : ℕ) (runs : List (List RunElement)) (run : List RunElement) :
    markRuns tbs (runs ++ [run]) = markRuns tbs runs ++ [run.map (markOf tbs runs.length)] :=
  List.mapIdx_concat

/-- The runs of the first pieces: their elements are in order, and are index points of the
pieces. -/
structure PieceRun (cf : Config) (text : List UInt8) (lt : ℕ → ℕ → Prop) (i : ℕ)
    (run : List RunElement) : Prop where
  nonempty : run ≠ []
  at_piece : ∀ s ∈ run.map RunElement.s, PieceAt cf text (i * cf.textsz) s
  sorted : (offsets (i * cf.textsz) (run.map RunElement.s)).Pairwise lt
  c_nonneg : ∀ e ∈ run, 0 ≤ e.c

/-- **The runs before** mark a run, one after the other. -/
theorem mergeRuns_spec (hc : Compares cf text lt d) {k j : ℕ} {ss : List ℤ} {E : List ℕ}
    {runs : List (List RunElement)} {currRun : List RunElement} (hne : ss ≠ [])
    (hat : ∀ s ∈ ss, PieceAt cf text (k * cf.textsz) s)
    (hS : (offsets (k * cf.textsz) ss).Pairwise lt)
    (hE : ∀ p ∈ E, p ∈ indexPoints cf.idxType text)
    (hruns : ∀ i run, runs[i]? = some run → PieceRun cf text lt (j + i) run)
    (hbuf : ∀ i < runs.length, textBuf cf text ((j + i) * cf.textsz) ≠ [])
    (hk : j + runs.length ≤ k)
    (h : RunOk lt d E (k * cf.textsz) ss currRun) :
    ∃ run, mergeRuns cf text (textBuf cf text (k * cf.textsz)) j runs currRun = some (some run) ∧
      RunOk lt d (E ++ (runs.mapIdx fun i run =>
        offsets ((j + i) * cf.textsz) (run.map RunElement.s)).flatten) (k * cf.textsz) ss run := by
  induction runs generalizing j E currRun with
  | nil =>
    have hcurr : currRun ≠ [] := by
      rintro rfl
      exact hne h.s_eq.symm
    refine ⟨currRun, by rw [mergeRuns, if_neg hcurr], ?_⟩
    rw [List.mapIdx_nil, List.flatten_nil, List.append_nil]
    exact h
  | cons prevRun runs ih =>
    have hprev := hruns 0 prevRun rfl
    rw [Nat.add_zero] at hprev
    rw [List.length_cons] at hk
    have hmul : j * cf.textsz + cf.textsz ≤ k * cf.textsz := by
      rw [← Nat.succ_mul]
      exact Nat.mul_le_mul_right _ (by omega)
    have hcmp := hc.runs hprev.at_piece hat fun s hs s' hs' => by
      have := (hprev.at_piece s hs).lt
      omega
    have hpoints : ∀ p ∈ E ++ offsets (j * cf.textsz) (prevRun.map RunElement.s) ++
        offsets (k * cf.textsz) ss, p ∈ indexPoints cf.idxType text := by
      intro p hp
      rcases List.mem_append.mp hp with hp | hp
      · rcases List.mem_append.mp hp with hp | hp
        · exact hE p hp
        · obtain ⟨s, hs, rfl⟩ := List.mem_map.mp hp
          exact (hprev.at_piece s hs).point
      · obtain ⟨s, hs, rfl⟩ := List.mem_map.mp hp
        exact (hat s hs).point
    obtain ⟨r, hr, hok⟩ := generateRun_spec hcmp hprev.sorted hS
      (fun x hx y hy => hc.fits x (hpoints x hx) y (hpoints y hy)) hne h
    obtain ⟨run, hrun, hok'⟩ := ih (j := j + 1)
      (fun p hp => hpoints p (List.mem_append_left _ hp))
      (fun i run hi => by
        have hnext := hruns (i + 1) run hi
        rwa [show j + (i + 1) = j + 1 + i by omega] at hnext)
      (fun i hi => by
        have hnext := hbuf (i + 1) (Nat.succ_lt_succ hi)
        rwa [show j + (i + 1) = j + 1 + i by omega] at hnext)
      (by omega) hok
    refine ⟨run, ?_, ?_⟩
    · rw [mergeRuns]
      show (if prevRun = [] ∨ textBuf cf text (j * cf.textsz) = [] then _ else _) = _
      rw [if_neg (fun hnil => hnil.elim hprev.nonempty (hbuf 0 (Nat.succ_pos _))), hr]
      exact hrun
    · rw [List.mapIdx_cons, List.flatten_cons, Nat.add_zero, ← List.append_assoc]
      have hshift : (fun (i : ℕ) (run : List RunElement) =>
          offsets ((j + (i + 1)) * cf.textsz) (run.map RunElement.s)) =
          fun i run => offsets ((j + 1 + i) * cf.textsz) (run.map RunElement.s) := by
        funext i run
        rw [show j + (i + 1) = j + 1 + i by omega]
      rw [hshift]
      exact hok'

/-- The runs that `csort` has made of the first `k` pieces. -/
structure RunsSorted (cf : Config) (text : List UInt8) (lt : ℕ → ℕ → Prop) (d : ℕ → ℕ → ℕ)
    (k off : ℕ) (prevnl : Bool) (runs : List (List RunElement)) : Prop where
  made : RunsMade cf text k off prevnl runs
  piece : ∀ i run, runs[i]? = some run → PieceRun cf text lt i run
  perm : ((markRuns cf.textsz runs).flatten.map Prod.fst).Perm
    (indexPoints cf.idxType (text.take off))
  marked : MarkedRuns lt d [] (markRuns cf.textsz runs)

theorem flatten_markRuns (tbs : ℕ) (runs : List (List RunElement)) :
    (runs.mapIdx fun i run => offsets ((0 + i) * tbs) (run.map RunElement.s)).flatten =
      (markRuns tbs runs).flatten.map Prod.fst := by
  rw [List.map_flatten]
  congr 1
  refine List.ext_getElem? fun i => ?_
  rw [List.getElem?_mapIdx, List.getElem?_map, markRuns, List.getElem?_mapIdx, Option.map_map]
  congr 1
  funext run
  rw [Function.comp_apply, fst_markOf, Nat.zero_add]

/-- One more run. -/
theorem RunsMade.concat {k off : ℕ} {prevnl : Bool} {runs : List (List RunElement)}
    {run : List RunElement} (h : RunsMade cf text k off prevnl runs) (hmore : off < text.length)
    (hne : run ≠ []) :
    RunsMade cf text (k + 1) (off + ((text.drop off).take cf.textsz).length)
      (setIndexPoints cf.idxType prevnl ((text.drop off).take cf.textsz)).2 (runs ++ [run]) := by
  have hoff := h.off_of_lt hmore
  have hpiece : ((text.drop off).take cf.textsz).length = min cf.textsz (text.length - off) := by
    rw [List.length_take, List.length_drop]
  exact {
    off_eq := by
      rw [hpiece, Nat.succ_mul, ← hoff]
      omega
    prevnl_eq := by
      rw [h.prevnl_eq, setIndexPoints_state]
      cases hidx : cf.idxType with
      | chars => rfl
      | words =>
        show wordsState false _ = wordsState false _
        rw [hpiece]
        congr 1
        rcases Nat.le_total cf.textsz (text.length - off) with hle | hle
        · rw [Nat.min_eq_left hle]
        · rw [Nat.min_eq_right hle, List.take_of_length_le (by omega),
            List.take_of_length_le (by omega)]
    length := by rw [List.length_append, h.length, List.length_singleton]
    nonempty := by
      intro r hr
      rcases List.mem_append.mp hr with hr | hr
      · exact h.nonempty r hr
      · rw [List.mem_singleton.mp hr]
        exact hne
    inside := by
      intro i hi
      rcases Nat.eq_or_lt_of_le (Nat.le_of_lt_succ hi) with rfl | hlt
      · omega
      · exact h.inside i hlt }

/-- **A round of `csort`**: one more piece becomes a run. -/
theorem RunsSorted.step (hc : Compares cf text lt d) {k off : ℕ} {prevnl : Bool}
    {runs : List (List RunElement)} (h : RunsSorted cf text lt d k off prevnl runs)
    (hmore : off < text.length) (hpoint : HasPoint cf text k) :
    ∃ run, csortRun cf text off prevnl runs = some (some run) ∧
      RunsSorted cf text lt d (k + 1) (off + ((text.drop off).take cf.textsz).length)
        (setIndexPoints cf.idxType prevnl ((text.drop off).take cf.textsz)).2 (runs ++ [run]) := by
  have hoff := h.made.off_of_lt hmore
  have hpos : 0 < cf.textsz := by
    obtain ⟨p, -, hp, hp'⟩ := hpoint
    omega
  obtain ⟨marks, hmarks⟩ : ∃ marks, marks = pieceMarks cf text off := ⟨_, rfl⟩
  have hne : marks ≠ [] := by
    rw [hmarks, pieceMarks, marks_ne_nil_iff, hoff]
    exact hpoint
  obtain ⟨ss, sorted, run, hsort, hheights, hperm, hS, hok⟩ :=
    exists_sorted hc (Nat.le_of_lt hmore) hmarks hne
  have hat : ∀ s ∈ ss, PieceAt cf text off s := fun s hs =>
    pieceAt_of_mem (Nat.le_of_lt hmore) (hmarks ▸ hperm.mem_iff.mp hs)
  have hssne : ss ≠ [] := by
    intro hnil
    rw [hnil] at hperm
    exact hne (List.map_eq_nil_iff.mp hperm.symm.eq_nil)
  have hlenk := h.made.length
  obtain ⟨run', hmerge, hok'⟩ := mergeRuns_spec (k := k) (j := 0) (E := []) hc hssne
    (hoff ▸ hat) (hoff ▸ hS) (fun p hp => absurd hp List.not_mem_nil)
    (fun i r hr => by
      rw [Nat.zero_add]
      exact h.piece i r hr)
    (fun i hi hnil => by
      rw [Nat.zero_add] at hnil
      have hin := h.made.inside i (by omega)
      exact (textBuf_eq_nil_iff.mp hnil).elim (by omega) (by omega))
    (by omega) (hoff ▸ hok)
  have hrunne : run' ≠ [] := by
    rintro rfl
    exact hssne hok'.s_eq.symm
  rw [← hoff, List.nil_append, flatten_markRuns] at hok'
  refine ⟨run', ?_, RunsMade.concat h.made hmore hrunne, ?_, ?_, ?_⟩
  · rw [csortRun]
    simp only [take_textBuf, h.made.prevnl_eq]
    have hset : (setIndexPoints cf.idxType (stateAt cf.idxType text off)
        ((text.drop off).take cf.textsz)).1 = marks := hmarks.symm
    rw [hset, hsort]
    simp only [Option.bind_eq_bind, Option.bind_some, hheights]
    rw [hoff]
    exact hmerge
  · intro i r hr
    rcases Nat.lt_or_ge i runs.length with hlt | hge
    · rw [List.getElem?_append_left hlt] at hr
      exact h.piece i r hr
    · rw [List.getElem?_append_right hge] at hr
      obtain ⟨hlt', -⟩ := List.getElem?_eq_some_iff.mp hr
      rw [List.length_singleton] at hlt'
      obtain rfl : i = k := by omega
      rw [show i - runs.length = 0 by omega] at hr
      obtain rfl := Option.some.inj hr
      refine ⟨hrunne, ?_, ?_, hok'.c_nonneg⟩
      · rw [hok'.s_eq, ← hoff]
        exact hat
      · rw [hok'.s_eq, ← hoff]
        exact hS
  · have hpiece : off + ((text.drop off).take cf.textsz).length =
        min (off + cf.textsz) text.length := by
      rw [List.length_take, List.length_drop]
      omega
    rw [markRuns_concat, List.flatten_append, List.map_append, List.flatten_singleton, hlenk,
      fst_markOf, hok'.s_eq, ← hoff, hpiece, ← List.take_eq_take_min,
      indexPoints_take cf.idxType text (Nat.le_of_lt hmore)]
    refine h.perm.append ?_
    have hoffsets : (pieceMarks cf text off).map (off + ·) =
        offsets off ((pieceMarks cf text off).map fun n : ℕ => (n : ℤ)) := by
      rw [offsets, List.map_map]
      rfl
    rw [← pieceMarks, hoffsets, ← hmarks]
    exact hperm.map _
  · rw [markRuns_concat]
    refine h.marked.concat ?_
    rw [List.nil_append, hlenk, fst_markOf, snd_markOf, hok'.s_eq, ← hoff]
    exact hok'.marked

theorem RunsSorted.csortLoop (hc : Compares cf text lt d)
    (hpoints : ∀ k, k * cf.textsz < text.length → HasPoint cf text k) {fuel k off : ℕ}
    {prevnl : Bool} {runs : List (List RunElement)}
    (h : RunsSorted cf text lt d k off prevnl runs) (hfuel : text.length - off < fuel) :
    ∃ runs' k' prevnl', csortLoop cf text fuel off prevnl runs = some (some runs') ∧
      RunsSorted cf text lt d k' text.length prevnl' runs' := by
  induction fuel generalizing k off prevnl runs with
  | zero => exact absurd hfuel (Nat.not_lt_zero _)
  | succ fuel ih =>
    rw [Run.csortLoop]
    rcases Nat.lt_or_ge off text.length with hmore | hend
    · have hoff := h.made.off_of_lt hmore
      have hpoint := hpoints k (hoff ▸ hmore)
      have hpos : 0 < cf.textsz := by
        obtain ⟨p, -, hp, hp'⟩ := hpoint
        omega
      have hbuf : textBuf cf text off ≠ [] := fun hnil =>
        (textBuf_eq_nil_iff.mp hnil).elim (by omega) (by omega)
      obtain ⟨run, hrun, hnext⟩ := h.step hc hmore hpoint
      have hpiece : ((text.drop off).take cf.textsz).length =
          min cf.textsz (text.length - off) := by
        rw [List.length_take, List.length_drop]
      obtain ⟨runs', k', prevnl', hloop, hsorted⟩ := ih hnext (by omega)
      refine ⟨runs', k', prevnl', ?_, hsorted⟩
      simp only [take_textBuf]
      rw [if_neg hbuf, hrun]
      exact hloop
    · have hbuf : textBuf cf text off = [] := textBuf_eq_nil_iff.mpr (Or.inl hend)
      have hoff : off = text.length := by
        have := h.made.off_eq
        omega
      refine ⟨runs, k, prevnl, if_pos hbuf, ?_⟩
      rw [← hoff]
      exact h

/-- **All runs** of a text are sorted and have the right marks. -/
theorem csort_sorted (hc : Compares cf text lt d)
    (hpoints : ∀ k, k * cf.textsz < text.length → HasPoint cf text k) {fuel : ℕ}
    (hfuel : text.length < fuel) :
    ∃ runs k prevnl, csort cf fuel text = some (some runs) ∧
      RunsSorted cf text lt d k text.length prevnl runs := by
  have hstart : RunsSorted cf text lt d 0 0 false [] := {
    made := {
      off_eq := by rw [Nat.zero_mul, Nat.zero_min]
      prevnl_eq := by cases cf.idxType <;> rfl
      length := rfl
      nonempty := fun r hr => absurd hr List.not_mem_nil
      inside := fun i hi => absurd hi (Nat.not_lt_zero i) }
    piece := fun i run hrun => absurd hrun.symm (Option.some_ne_none _)
    perm := by cases cf.idxType <;> exact List.Perm.refl _
    marked := trivial }
  exact hstart.csortLoop hc hpoints (by omega)

end

end Archie.Infix
