/-
The infix file (`_patrieInfixBuild` in `patrie/sort.c`).

* `patrieInfixBuild` — the runs are made, and merged.
* `heightsOf` — index points behind one, with the heights between neighbours.
* `patrieInfixBuild_iff` — the infix file has all index points, in order, with the heights of
  neighbours; it is written exactly if the memory holds the buffers and an element of each run.
-/
import Archie.InfixRuns
import Archie.InfixTrie

namespace Archie.Infix

open RunMerge Archie.Run Archie.Levels

/-! ### The function -/

/-- Two text buffers and the elements of two runs are in the memory that `csort` is given. -/
def BuffersFit (cf : Config) (memsz : ℕ) : Prop :=
  2 * (cf.textsz + cf.sortPadLen + 1) + 2 * cf.textsz * runElementSize ≤ memsz

instance buffersFit_decidable (cf : Config) (memsz : ℕ) : Decidable (BuffersFit cf memsz) :=
  inferInstanceAs (Decidable (_ ≤ _))

/-- `_patrieInfixBuild`.  The outer option is none for an access outside of a buffer or a division
by zero, the inner one when 0 is returned. -/
def patrieInfixBuild (cf : Config) (fuel memsz : ℕ) (text : List UInt8) :
    Option (Option (List ℤ)) :=
  if BuffersFit cf memsz then do
    match ← csort cf fuel text with
    | none => some none
    | some runs => cmerge fuel memsz cf.textsz runs
  else none

/-- The number of pieces of a text. -/
def numRuns (cf : Config) (text : List UInt8) : ℕ := (text.length + cf.textsz - 1) / cf.textsz

/-- Index points behind one, as starts, each with the height between it and the one before. -/
def heightsOf (d : ℕ → ℕ → ℕ) : ℕ → List ℕ → List (ℕ × ℕ)
  | _, [] => []
  | p, q :: qs => (d p q, q + 1) :: heightsOf d q qs

/-! ### The merged elements -/

section

variable {lt : ℕ → ℕ → Prop} {d : ℕ → ℕ → ℕ}

/-- The ints for elements of which the marks give the heights of neighbours. -/
theorem infixInts_eq {lasth : ℕ} {x : ℕ × Mark} {es : List (ℕ × Mark)}
    (hheight : ∀ a b y z, x :: es = a ++ y :: z :: b → max y.2.rh z.2.lh = d y.1 z.1) :
    infixInts true lasth (x :: es) =
      infixBody (x.1 + 1) (heightsOf d x.1 (es.map Prod.fst)) := by
  have htail : ∀ {x : ℕ × Mark} {es : List (ℕ × Mark)},
      (∀ a b y z, x :: es = a ++ y :: z :: b → max y.2.rh z.2.lh = d y.1 z.1) →
      infixInts false x.2.rh es =
        (heightsOf d x.1 (es.map Prod.fst)).flatMap fun p => [(p.1 : ℤ), -(p.2 : ℤ)] := by
    intro x es
    induction es generalizing x with
    | nil => exact fun _ => rfl
    | cons y es ih =>
      intro h
      rw [infixInts, List.map_cons, heightsOf, List.flatMap_cons, h [] es x y rfl,
        ih fun a b y' z heq => h (x :: a) b y' z (by rw [heq, List.cons_append])]
      rfl
  rw [infixInts, htail hheight]
  rfl

variable [IsStrictOrder ℕ lt]

/-- Neighbours of the merged elements have no other element between them. -/
theorem neighbours_of_sorted {l a b : List (ℕ × Mark)} {y z : ℕ × Mark}
    (hl : l.Perm (a ++ y :: z :: b)) (hsorted : (a ++ y :: z :: b).Pairwise (markLt lt)) :
    Neighbours lt (l.map Prod.fst) y.1 z.1 := by
  obtain ⟨-, hyz, ha⟩ := List.pairwise_append.mp hsorted
  obtain ⟨hy, hz⟩ := List.pairwise_cons.mp hyz
  obtain ⟨hz, -⟩ := List.pairwise_cons.mp hz
  have hcases : ∀ x ∈ l.map Prod.fst, lt x y.1 ∨ x = y.1 ∨ x = z.1 ∨ lt z.1 x := by
    intro x hx
    obtain ⟨e, he, rfl⟩ := List.mem_map.mp hx
    rcases List.mem_append.mp (hl.mem_iff.mp he) with he | he
    · exact Or.inl (ha e he y List.mem_cons_self)
    · rcases List.mem_cons.mp he with rfl | he
      · exact Or.inr (Or.inl rfl)
      · rcases List.mem_cons.mp he with rfl | he
        · exact Or.inr (Or.inr (Or.inl rfl))
        · exact Or.inr (Or.inr (Or.inr (hz e he)))
  have hless : lt y.1 z.1 := hy z List.mem_cons_self
  refine ⟨hless, fun x hx hyx => ?_, fun x hx hxz => ?_⟩
  · rcases hcases x hx with h | rfl | h | h
    · exact absurd (IsTrans.trans _ _ _ hyx h) (irrefl_of lt y.1)
    · exact absurd hyx (irrefl_of lt _)
    · exact Or.inl h
    · exact Or.inr h
  · rcases hcases x hx with h | h | rfl | h
    · exact Or.inr h
    · exact Or.inl h
    · exact absurd hxz (irrefl_of lt _)
    · exact absurd (IsTrans.trans _ _ _ hxz h) (irrefl_of lt x)

/-- **The merged elements** are the index points in order, with the heights of neighbours. -/
theorem merge_markRuns {cf : Config} {text : List UInt8} (hc : Compares cf text lt d)
    (hd : Heights lt d) {k : ℕ} {prevnl : Bool} {runs : List (List RunElement)}
    (h : RunsSorted cf text lt d k text.length prevnl runs) (hne : runs ≠ []) {fuel : ℕ}
    (hfuel : runs.flatten.length ≤ fuel) :
    ∃ p ps, (p :: ps).Perm (indexPoints cf.idxType text) ∧ (p :: ps).Pairwise lt ∧
      infixInts true 0 (merge fuel ((markRuns cf.textsz runs).map queueOf)) =
        infixBody (p + 1) (heightsOf d p ps) := by
  obtain ⟨Rs, hRs⟩ : ∃ Rs, Rs = markRuns cf.textsz runs := ⟨_, rfl⟩
  have hperm := h.perm
  rw [List.take_of_length_le (Nat.le_refl _), ← hRs] at hperm
  have hsorted : ∀ R ∈ Rs, (R.map Prod.fst).Pairwise lt := by
    intro R hR
    obtain ⟨i, hi⟩ := List.mem_iff_getElem?.mp hR
    rw [hRs, markRuns, List.getElem?_mapIdx] at hi
    obtain ⟨run, hrun, rfl⟩ := Option.map_eq_some_iff.mp hi
    rw [fst_markOf]
    exact (h.piece i run hrun).sorted
  have hdistinct : Distinct lt (Rs.flatten.map Prod.fst) := by
    have hpoints : Distinct lt (indexPoints cf.idxType text) :=
      (nodup_indexPoints cf.idxType text).imp_of_mem fun hx hy hxy => hc.total _ hx _ hy hxy
    exact (hperm.pairwise_iff fun h => h.symm).mpr hpoints
  have hmarked := h.marked
  rw [← hRs] at hmarked
  have hqueues : Sorted (markLt lt) [] (Rs.map queueOf) := by
    refine ⟨fun q hq => ?_, ?_⟩
    · obtain ⟨R, hR, rfl⟩ := List.mem_map.mp hq
      rw [fst_queueOf]
      exact pairwise_markLt.mpr (hsorted R hR)
    · rw [List.nil_append, left_queueOf]
      exact List.pairwise_map.mp hdistinct
  have hlen : (left (Rs.map queueOf)).length ≤ fuel := by
    rw [left_queueOf, hRs, length_flatten_markRuns]
    exact hfuel
  obtain ⟨hmerge, hpairwise⟩ := merge_spec hqueues (MarkedRuns.allPending hmarked) hlen
  rw [left_queueOf] at hmerge
  rw [← hRs]
  obtain ⟨M, hM⟩ : ∃ M, M = merge fuel (Rs.map queueOf) := ⟨_, rfl⟩
  rw [← hM] at hmerge hpairwise ⊢
  rcases M with _ | ⟨x, es⟩
  · obtain ⟨run, runs, rfl⟩ := List.exists_cons_of_ne_nil hne
    have hnil := hmerge.symm.eq_nil
    obtain ⟨e, items, hrun⟩ := List.exists_cons_of_ne_nil (h.piece 0 run rfl).nonempty
    rw [hRs, hrun, markRuns, List.mapIdx_cons, List.flatten_cons] at hnil
    exact absurd hnil (List.cons_ne_nil _ _)
  · refine ⟨x.1, es.map Prod.fst, ?_, ?_, infixInts_eq fun a b y z heq => ?_⟩
    · exact (hmerge.map Prod.fst).trans hperm
    · exact pairwise_markLt.mp hpairwise
    · rw [heq] at hmerge hpairwise
      refine hmarked.height hd hsorted hdistinct (hmerge.mem_iff.mp ?_) (hmerge.mem_iff.mp ?_)
        (neighbours_of_sorted hmerge.symm hpairwise)
      · exact List.mem_append_right _ List.mem_cons_self
      · exact List.mem_append_right _ (List.mem_cons_of_mem _ List.mem_cons_self)

/-! ### The infix file -/

omit [IsStrictOrder ℕ lt] in
theorem RunsSorted.length_eq {cf : Config} {text : List UInt8} {k : ℕ} {prevnl : Bool}
    {runs : List (List RunElement)} (h : RunsSorted cf text lt d k text.length prevnl runs)
    (hpos : 0 < cf.textsz) : runs.length = numRuns cf text := by
  rw [h.made.length, numRuns]
  have hall := h.made.off_eq
  refine (Nat.div_eq_of_lt_le ?_ ?_).symm
  · rcases k with _ | k
    · omega
    · have hin := h.made.inside k (Nat.lt_succ_self k)
      rw [Nat.succ_mul]
      omega
  · rw [Nat.succ_mul]
    omega

omit [IsStrictOrder ℕ lt] in
theorem RunsSorted.fine {cf : Config} {text : List UInt8} {k : ℕ} {prevnl : Bool}
    {runs : List (List RunElement)} (h : RunsSorted cf text lt d k text.length prevnl runs)
    (hlen : text.length < 2147483648) {i : ℕ} {R : List RunElement} (hR : runs[i]? = some R)
    {e : RunElement} (he : e ∈ R) : Fine cf.textsz i e := by
  have hpiece := h.piece i R hR
  have hat := hpiece.at_piece e.s (List.mem_map_of_mem he)
  exact ⟨hpiece.c_nonneg e he, hat.nonneg, Nat.lt_trans (lt_of_mem_indexPoints hat.point) hlen⟩

omit [IsStrictOrder ℕ lt] in
theorem csortLoop_mono {cf : Config} {text : List UInt8} {fuel fuel' off : ℕ} {prevnl : Bool}
    {runs : List (List RunElement)} {r : Option (List (List RunElement))} (hle : fuel ≤ fuel')
    (h : csortLoop cf text fuel off prevnl runs = some r) :
    csortLoop cf text fuel' off prevnl runs = some r := by
  induction fuel generalizing fuel' off prevnl runs with
  | zero => exact absurd h.symm (Option.some_ne_none _)
  | succ fuel ih =>
    obtain ⟨n, rfl⟩ := Nat.exists_eq_succ_of_ne_zero (show fuel' ≠ 0 by omega)
    rw [csortLoop] at h ⊢
    split at h
    next hend => rwa [if_pos hend]
    next hmore =>
      rw [if_neg hmore]
      rcases hrun : csortRun cf text off prevnl runs with _ | _ | run
      · rw [hrun] at h
        exact absurd h.symm (Option.some_ne_none _)
      · rw [hrun] at h
        exact h
      · rw [hrun] at h
        exact ih (by omega) h

/-- **The infix file** has all index points in order with the heights of neighbours, if the memory
holds the buffers and an element of each run, and otherwise none is written. -/
theorem patrieInfixBuild_iff {cf : Config} {text : List UInt8} (hc : Compares cf text lt d)
    (hd : Heights lt d) (hpoints : ∀ k, k * cf.textsz < text.length → HasPoint cf text k)
    (htext : text ≠ []) (hlen : text.length < 2147483648) (memsz : ℕ) :
    (BuffersFit cf memsz ∧ numRuns cf text * runElementSize ≤ memsz →
      ∃ p ps, (p :: ps).Perm (indexPoints cf.idxType text) ∧ (p :: ps).Pairwise lt ∧
        ∃ fuel, patrieInfixBuild cf fuel memsz text =
          some (some (infixFile (p + 1) (heightsOf d p ps)))) ∧
    ((∃ fuel ints, patrieInfixBuild cf fuel memsz text = some (some ints)) →
      BuffersFit cf memsz ∧ numRuns cf text * runElementSize ≤ memsz) := by
  have hpos : 0 < cf.textsz := by
    obtain ⟨p, -, hp, hp'⟩ := hpoints 0 (by
      rw [Nat.zero_mul]
      exact List.length_pos_iff.mpr htext)
    omega
  obtain ⟨runs, k, prevnl, hcsort, h⟩ := csort_sorted hc hpoints
    (show text.length < text.length + 1 from Nat.lt_succ_self _)
  have hcount := h.length_eq hpos
  have hruns : runs ≠ [] := by
    rintro rfl
    have hall := h.made.off_eq
    rw [← h.made.length, List.length_nil, Nat.zero_mul, Nat.zero_min] at hall
    exact htext (List.eq_nil_of_length_eq_zero hall)
  have hsize : runs.flatten.length ≤ text.length := by
    have hperm := h.perm.length_eq
    rw [List.take_of_length_le (Nat.le_refl _), List.length_map, length_flatten_markRuns] at hperm
    rw [hperm]
    cases cf.idxType with
    | chars => exact Nat.le_of_eq List.length_range
    | words => exact length_indexWords 0 false text
  constructor
  · rintro ⟨hbuffers, hmem⟩
    obtain ⟨p, ps, hperm, hsorted, hints⟩ := merge_markRuns hc hd h hruns
      (show runs.flatten.length ≤ text.length + 1 by omega)
    refine ⟨p, ps, hperm, hsorted, text.length + 1, ?_⟩
    rw [patrieInfixBuild, if_pos hbuffers, hcsort]
    simp only [Option.bind_eq_bind, Option.bind_some]
    rw [cmerge_eq h.made.nonempty hruns (by rw [hcount]; exact hmem)
      (fun i R hR e he => h.fine hlen hR he) (by omega), hints]
    rfl
  · rintro ⟨fuel, ints, hbuild⟩
    have hbuffers : BuffersFit cf memsz := by
      by_contra hnot
      rw [patrieInfixBuild, if_neg hnot] at hbuild
      exact absurd hbuild.symm (Option.some_ne_none _)
    rw [patrieInfixBuild, if_pos hbuffers] at hbuild
    rcases hres : csort cf fuel text with _ | _ | runs'
    · rw [hres] at hbuild
      exact absurd hbuild.symm (Option.some_ne_none _)
    · rw [hres] at hbuild
      exact absurd (Option.some.inj hbuild).symm (Option.some_ne_none _)
    · have hsame : some (some runs') = some (some runs) :=
        (csortLoop_mono (Nat.le_max_left fuel (text.length + 1)) hres).symm.trans
          (csortLoop_mono (Nat.le_max_right fuel (text.length + 1)) hcsort)
      obtain rfl := Option.some.inj (Option.some.inj hsame)
      rw [hres] at hbuild
      rw [← hcount]
      exact ⟨hbuffers, ((cmerge_iff h.made.nonempty fun i R hR e he => h.fine hlen hR he).mp
        ⟨fuel, ints, hbuild⟩).2⟩

end

end Archie.Infix
