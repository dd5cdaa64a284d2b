/-
Making the runs of an infix file (`csort` in `patrie/sort.c`).

The text is read in pieces of `textsz` bytes, each with the `sortPadLen` bytes after it.  The index
points of a piece are sorted and merged with those of the pieces before.  The last index is
computed as `nitems - 1`, also for a piece that has no index point.

* `heightLoop`, `generateRun`, `csort` — the functions; an access outside of the elements of a run
  gives none.
* `setIndexPoints` — the two functions that mark index points.
* `exists_generateRun` — a run that has elements is merged with any run.
* `indexWords_append` — the index points of a text, piece by piece.
* `csort_right_iff` — exactly when the runs are made.
-/
import Archie.CText
import Archie.DiffBit
import Archie.Indexed
import Archie.RunSort

namespace Archie.Run

/-! ### The functions -/

/-- What `csort` uses of a configuration. -/
structure Config where
  /-- The number of bytes of a piece, as it is computed from `sortMaxMem`. -/
  textsz : ℕ
  textsz_lt : textsz < wordSize
  sortPadLen : ℕ
  strcomp : List UInt8 → List UInt8 → ℤ
  diffbit : List UInt8 → List UInt8 → ℕ
  idxType : IndexType

/-- The suffix that an element points to. -/
def suffix (text : List UInt8) (e : RunElement) : List UInt8 := text.drop e.s.toNat

section

variable (cf : Config)

/-- The loop that computes the heights of neighbours, for the next `d` elements. -/
def heightLoop (text : List UInt8) : ℕ → ℕ → List RunElement → Option (List RunElement)
  | 0, _, run => some run
  | d + 1, i, run => do
    let a ← run[i]?
    let b ← run[i + 1]?
    let rh := heightField (cf.diffbit (suffix text a) (suffix text b))
    heightLoop text d (i + 1) ((run.set i { a with c := 0, rh := rh }).set (i + 1) { b with lh := rh })

/-- The first loop of `generateRun`. -/
def generateFirst (r1 : List RunElement) (t1 : List UInt8) (t2 : List UInt8)
    (r2 : List RunElement) (i : ℕ) : Option (List RunElement × ℕ) :=
  if i < r1.length then do
    let a ← r1[i]?
    let b ← r2[0]?
    if cf.strcomp (suffix t1 a) (suffix t2 b) < 0 then
      let lh := heightField (max b.lh (cf.diffbit (suffix t1 a) (suffix t2 b)))
      generateFirst r1 t1 t2 (r2.set 0 { b with c := b.c + 1, lh := lh }) (i + 1)
    else some (r2, i)
  else some (r2, i)
termination_by r1.length - i

/-- The second loop. -/
def generateSecond (r1 : List RunElement) (t1 : List UInt8) (t2 : List UInt8)
    (r2 : List RunElement) (i j : ℕ) : Option (List RunElement × ℕ × ℕ) :=
  if i < r1.length ∧ j < r2.length then do
    let a ← r1[i]?
    let b ← r2[j]?
    if 0 ≤ cf.strcomp (suffix t1 a) (suffix t2 b) then generateSecond r1 t1 t2 r2 i (j + 1)
    else
      let lh := heightField (max b.lh (cf.diffbit (suffix t1 a) (suffix t2 b)))
      let p ← (if j = 0 then none else r2[j - 1]?)
      let rh := heightField (max p.rh (cf.diffbit (suffix t2 p) (suffix t1 a)))
      generateSecond r1 t1 t2 ((r2.set j { b with c := b.c + 1, lh := lh }).set (j - 1)
        { p with rh := rh }) (i + 1) j
  else some (r2, i, j)
termination_by (r1.length - i) + (r2.length - j)
decreasing_by
  · omega
  · simp only [List.length_set]
    omega

/-- The third loop. -/
def generateThird (r1 : List RunElement) (t1 : List UInt8) (t2 : List UInt8) (j : ℤ)
    (r2 : List RunElement) (i : ℕ) : Option (List RunElement) :=
  if i < r1.length ∧ j < r2.length then do
    let a ← r1[i]?
    let b ← (if j < 0 then none else r2[j.toNat]?)
    if 0 < cf.strcomp (suffix t1 a) (suffix t2 b) then
      let rh := heightField (max b.rh (cf.diffbit (suffix t2 b) (suffix t1 a)))
      generateThird r1 t1 t2 j (r2.set j.toNat { b with rh := rh }) (i + 1)
    else generateThird r1 t1 t2 j r2 (i + 1)
  else some r2
termination_by r1.length - i

/-- `generateRun`. -/
def generateRun (r1 : List RunElement) (t1 : List UInt8) (r2 : List RunElement) (t2 : List UInt8) :
    Option (List RunElement) := do
  let (r2, i) ← generateFirst cf r1 t1 t2 r2 0
  let (r2, i, j) ← generateSecond cf r1 t1 t2 r2 i 0
  let j : ℤ := if j = r2.length then r2.length - 1 else j
  generateThird cf r1 t1 t2 j r2 i

/-- `prevnl` after a text. -/
def wordsState : Bool → List UInt8 → Bool
  | prevnl, [] => prevnl
  | true, _ :: text => wordsState false text
  | false, c :: text => wordsState (c = keysepCh) text

/-- `_patrieSetIndexPoints` and `index_words`: the index points that are marked, and `prevnl`. -/
def setIndexPoints : IndexType → Bool → List UInt8 → List ℕ × Bool
  | .chars, prevnl, text => (List.range text.length, prevnl)
  | .words, prevnl, text => (indexWords 0 prevnl text, wordsState prevnl text)

/-- What is read into a text buffer. -/
def textBuf (text : List UInt8) (off : ℕ) : List UInt8 :=
  (text.drop off).take (cf.textsz + cf.sortPadLen)

/-- The loop of `csort` over the runs before, from run `j` on, and the end of the current run.  The
outer option is none for an access outside of a run, the inner one when 0 is returned. -/
def mergeRuns (text currText : List UInt8) :
    ℕ → List (List RunElement) → List RunElement → Option (Option (List RunElement))
  | _, [], currRun =>
    -- `fwrite` of the current run
    if currRun = [] then some none else some (some currRun)
  | j, prevRun :: runs, currRun =>
    let prevText := textBuf cf text (j * cf.textsz)
    if prevRun = [] ∨ prevText = [] then some none
    else do
      let currRun ← generateRun cf prevRun prevText currRun currText
      mergeRuns text currText (j + 1) runs currRun

/-- The elements that `markPos` marks, after the loop that clears their other fields. -/
def markedRun (marks : List ℕ) : List RunElement := marks.map fun (s : ℕ) => ⟨0, s, 0, 0⟩

/-- One run. -/
def csortRun (text : List UInt8) (off : ℕ) (prevnl : Bool) (runs : List (List RunElement)) :
    Option (Option (List RunElement)) := do
  let currText := textBuf cf text off
  let marks := (setIndexPoints cf.idxType prevnl (currText.take cf.textsz)).1
  let currRun ← sortRun (marks.length + 1) (markedRun marks) marks.length fun a b =>
    cf.strcomp (currText.drop a.toNat) (currText.drop b.toNat)
  let currRun ← heightLoop cf currText (ulong ((marks.length : ℤ) - 1)) 0 currRun
  mergeRuns cf text currText 0 runs currRun

/-- The loop of `csort` over the runs, from an offset of the text on: all runs. -/
def csortLoop (text : List UInt8) :
    ℕ → ℕ → Bool → List (List RunElement) → Option (Option (List (List RunElement)))
  | 0, _, _, _ => none
  | fuel + 1, off, prevnl, runs =>
    let piece := (textBuf cf text off).take cf.textsz
    if textBuf cf text off = [] then some (some runs)
    else
      match csortRun cf text off prevnl runs with
      | none => none
      | some none => some none
      | some (some run) =>
        csortLoop text fuel (off + piece.length) (setIndexPoints cf.idxType prevnl piece).2
          (runs ++ [run])

/-- `csort` of a text, after `open_build`. -/
def csort (fuel : ℕ) (text : List UInt8) : Option (Option (List (List RunElement))) :=
  csortLoop cf text fuel 0 false []

/-- **The claim about a text**: only elements of runs are accessed, and the runs are made. -/
def CsortRight (text : List UInt8) : Prop := ∃ fuel runs, csort cf fuel text = some (some runs)

end

/-! ### A run that has elements -/

section

variable (cf : Config) (r1 : List RunElement) (t1 t2 : List UInt8)

theorem exists_heightLoop (text : List UInt8) {d i : ℕ} {run : List RunElement}
    (h : i + d < run.length) :
    ∃ run', heightLoop cf text d i run = some run' ∧ run'.length = run.length := by
  induction d generalizing i run with
  | zero => exact ⟨run, rfl, rfl⟩
  | succ d ih =>
    obtain ⟨a, ha⟩ : ∃ a, run[i]? = some a :=
      ⟨_, List.getElem?_eq_getElem (show i < run.length by omega)⟩
    obtain ⟨b, hb⟩ : ∃ b, run[i + 1]? = some b :=
      ⟨_, List.getElem?_eq_getElem (show i + 1 < run.length by omega)⟩
    let rh := heightField (cf.diffbit (suffix text a) (suffix text b))
    obtain ⟨run', hrun', hlen⟩ := @ih (i + 1)
      ((run.set i { a with c := 0, rh := rh }).set (i + 1) { b with lh := rh })
      (by simp only [List.length_set]; omega)
    refine ⟨run', ?_, by simpa only [List.length_set] using hlen⟩
    rw [heightLoop, ha, hb]
    exact hrun'

/-- The first loop ends before an element that is not less than the first one of the run. -/
theorem exists_generateFirst {r2 : List RunElement} (hne : r2 ≠ []) (i : ℕ) :
    ∃ r2' i', generateFirst cf r1 t1 t2 r2 i = some (r2', i') ∧ r2'.length = r2.length ∧
      ∀ a b, r1[i']? = some a → r2'[0]? = some b → 0 ≤ cf.strcomp (suffix t1 a) (suffix t2 b) := by
  induction hd : r1.length - i generalizing r2 i with
  | zero =>
    refine ⟨r2, i, ?_, rfl, fun a b ha => ?_⟩
    · rw [generateFirst, if_neg (by omega)]
    · rw [List.getElem?_eq_none (by omega)] at ha
      cases ha
  | succ d ih =>
    obtain ⟨a, ha⟩ : ∃ a, r1[i]? = some a :=
      ⟨_, List.getElem?_eq_getElem (show i < r1.length by omega)⟩
    obtain ⟨b, hb⟩ : ∃ b, r2[0]? = some b :=
      ⟨_, List.getElem?_eq_getElem (List.length_pos_iff.mpr hne)⟩
    by_cases hlt : cf.strcomp (suffix t1 a) (suffix t2 b) < 0
    · obtain ⟨r2', i', h, hlen, hstop⟩ :=
        @ih (r2.set 0 { b with
          c := b.c + 1
          lh := heightField (max b.lh (cf.diffbit (suffix t1 a) (suffix t2 b))) })
          (by simpa using hne) (i + 1) (by omega)
      refine ⟨r2', i', ?_, by simpa only [List.length_set] using hlen, hstop⟩
      rw [generateFirst, if_pos (by omega), ha, hb, ← h]
      exact if_pos hlt
    · refine ⟨r2, i, ?_, rfl, fun a' b' ha' hb' => ?_⟩
      · rw [generateFirst, if_pos (by omega), ha, hb]
        exact if_neg hlt
      · obtain rfl := Option.some.inj (ha.symm.trans ha')
        obtain rfl := Option.some.inj (hb.symm.trans hb')
        exact Int.not_lt.mp hlt

/-- The second loop only looks at a predecessor when it has left the first element. -/
theorem exists_generateSecond {r2 : List RunElement} {i j : ℕ} (hj : j ≤ r2.length)
    (hfirst : j = 0 → ∀ a b, r1[i]? = some a → r2[0]? = some b →
      0 ≤ cf.strcomp (suffix t1 a) (suffix t2 b)) :
    ∃ r2' i' j', generateSecond cf r1 t1 t2 r2 i j = some (r2', i', j') ∧
      r2'.length = r2.length := by
  induction hd : (r1.length - i) + (r2.length - j) using Nat.strong_induction_on
    generalizing r2 i j with
  | _ d ih =>
    by_cases hmore : i < r1.length ∧ j < r2.length
    · obtain ⟨a, ha⟩ : ∃ a, r1[i]? = some a := ⟨_, List.getElem?_eq_getElem hmore.1⟩
      obtain ⟨b, hb⟩ : ∃ b, r2[j]? = some b := ⟨_, List.getElem?_eq_getElem hmore.2⟩
      by_cases hle : 0 ≤ cf.strcomp (suffix t1 a) (suffix t2 b)
      · obtain ⟨r2', i', j', h, hlen⟩ := @ih _ (by omega) r2 i (j + 1) hmore.2
          (fun h => absurd h (Nat.succ_ne_zero j)) rfl
        refine ⟨r2', i', j', ?_, hlen⟩
        rw [generateSecond, if_pos hmore, ha, hb, ← h]
        exact if_pos hle
      · have hpos : j ≠ 0 := by
          rintro rfl
          exact hle (hfirst rfl a b ha hb)
        obtain ⟨p, hp⟩ : ∃ p, r2[j - 1]? = some p :=
          ⟨_, List.getElem?_eq_getElem (show j - 1 < r2.length by omega)⟩
        obtain ⟨r2', i', j', h, hlen⟩ := @ih _ (by simp only [List.length_set]; omega)
          ((r2.set j { b with
            c := b.c + 1
            lh := heightField (max b.lh (cf.diffbit (suffix t1 a) (suffix t2 b))) }).set (j - 1)
            { p with rh := heightField (max p.rh (cf.diffbit (suffix t2 p) (suffix t1 a))) })
          (i + 1) j (by simp only [List.length_set]; omega)
          (fun h => absurd h hpos) rfl
        refine ⟨r2', i', j', ?_, by simpa only [List.length_set] using hlen⟩
        rw [generateSecond, if_pos hmore, ha, hb]
        show (if 0 ≤ cf.strcomp (suffix t1 a) (suffix t2 b) then _ else _) = _
        rw [if_neg hle, if_neg hpos, hp]
        exact h
    · exact ⟨r2, i, j, by rw [generateSecond, if_neg hmore], rfl⟩

theorem exists_generateThird {r2 : List RunElement} {j : ℤ} (hj : 0 ≤ j) (i : ℕ) :
    ∃ r2', generateThird cf r1 t1 t2 j r2 i = some r2' ∧ r2'.length = r2.length := by
  induction hd : r1.length - i generalizing r2 i with
  | zero => exact ⟨r2, by rw [generateThird, if_neg (by omega)], rfl⟩
  | succ d ih =>
    by_cases hmore : i < r1.length ∧ j < r2.length
    · obtain ⟨a, ha⟩ : ∃ a, r1[i]? = some a := ⟨_, List.getElem?_eq_getElem hmore.1⟩
      obtain ⟨b, hb⟩ : ∃ b, r2[j.toNat]? = some b :=
        ⟨_, List.getElem?_eq_getElem (show j.toNat < r2.length by omega)⟩
      have hread : (if j < 0 then none else r2[j.toNat]?) = some b := by
        rw [if_neg (Int.not_lt.mpr hj), hb]
      by_cases hlt : 0 < cf.strcomp (suffix t1 a) (suffix t2 b)
      · obtain ⟨r2', h, hlen⟩ := @ih (r2.set j.toNat { b with
          rh := heightField (max b.rh (cf.diffbit (suffix t2 b) (suffix t1 a))) }) (i + 1)
          (by omega)
        refine ⟨r2', ?_, by simpa only [List.length_set] using hlen⟩
        rw [generateThird, if_pos hmore, ha, hread, ← h]
        exact if_pos hlt
      · obtain ⟨r2', h, hlen⟩ := @ih r2 (i + 1) (by omega)
        refine ⟨r2', ?_, hlen⟩
        rw [generateThird, if_pos hmore, ha, hread, ← h]
        exact if_neg hlt
    · exact ⟨r2, by rw [generateThird, if_neg hmore], rfl⟩

/-- **A run that has elements** is merged with any other. -/
theorem exists_generateRun {r2 : List RunElement} (hne : r2 ≠ []) :
    ∃ r2', generateRun cf r1 t1 r2 t2 = some r2' ∧ r2'.length = r2.length := by
  have hpos := List.length_pos_iff.mpr hne
  obtain ⟨r, i, hr, hlen, hstop⟩ := exists_generateFirst cf r1 t1 t2 hne 0
  obtain ⟨r', i', j, hr', hlen'⟩ :=
    exists_generateSecond cf r1 t1 t2 (Nat.zero_le r.length) fun _ => hstop
  have hlast : 0 ≤ (if j = r'.length then (r'.length : ℤ) - 1 else j) := by
    split <;> omega
  obtain ⟨r'', hr'', hlen''⟩ := @exists_generateThird cf r1 t1 t2 r' _ hlast i'
  refine ⟨r'', ?_, hlen''.trans (hlen'.trans hlen)⟩
  rw [generateRun, hr]
  show ((generateSecond cf r1 t1 t2 r i 0).bind _) = _
  rw [hr']
  exact hr''

end

/-! ### Index points -/

theorem indexWords_append (i : ℕ) (prevnl : Bool) (a b : List UInt8) :
    indexWords i prevnl (a ++ b) =
      indexWords i prevnl a ++ indexWords (i + a.length) (wordsState prevnl a) b := by
  induction a generalizing i prevnl with
  | nil => cases prevnl <;> rfl
  | cons c a ih =>
    cases prevnl with
    | true =>
      rw [List.cons_append, indexWords, indexWords, wordsState, ih, List.length_cons,
        List.cons_append, Nat.add_assoc, Nat.add_comm 1]
    | false =>
      rw [List.cons_append, indexWords, indexWords, wordsState, ih, List.length_cons,
        Nat.add_assoc, Nat.add_comm 1]

theorem wordsState_append (prevnl : Bool) (a b : List UInt8) :
    wordsState prevnl (a ++ b) = wordsState (wordsState prevnl a) b := by
  induction a generalizing prevnl with
  | nil => cases prevnl <;> rfl
  | cons c a ih => cases prevnl <;> exact ih _

theorem indexWords_shift (i k : ℕ) (prevnl : Bool) (a : List UInt8) :
    indexWords (i + k) prevnl a = (indexWords i prevnl a).map (· + k) := by
  induction a generalizing i prevnl with
  | nil => cases prevnl <;> rfl
  | cons c a ih =>
    have hnext : i + k + 1 = i + 1 + k := by omega
    cases prevnl with
    | true => rw [indexWords, indexWords, hnext, ih, List.map_cons]
    | false => rw [indexWords, indexWords, hnext, ih]

theorem indexWords_bounds {i p : ℕ} {prevnl : Bool} {a : List UInt8}
    (h : p ∈ indexWords i prevnl a) : i ≤ p ∧ p < i + a.length := by
  induction a generalizing i prevnl with
  | nil => cases prevnl <;> cases h
  | cons c a ih =>
    rw [List.length_cons]
    cases prevnl with
    | true =>
      rw [indexWords] at h
      rcases List.mem_cons.mp h with rfl | h
      · omega
      · have := ih h
        omega
    | false =>
      rw [indexWords] at h
      have := ih h
      omega

theorem length_indexWords (i : ℕ) (prevnl : Bool) (a : List UInt8) :
    (indexWords i prevnl a).length ≤ a.length := by
  induction a generalizing i prevnl with
  | nil => cases prevnl <;> exact Nat.le_refl 0
  | cons c a ih =>
    cases prevnl with
    | true =>
      rw [indexWords, List.length_cons, List.length_cons]
      exact Nat.succ_le_succ (ih _ _)
    | false =>
      rw [indexWords, List.length_cons]
      exact Nat.le_succ_of_le (ih _ _)

/-- `prevnl` at an offset of the text. -/
def stateAt : IndexType → List UInt8 → ℕ → Bool
  | .chars, _, _ => false
  | .words, text, off => wordsState false (text.take off)

theorem setIndexPoints_state (idxType : IndexType) (text : List UInt8) (off n : ℕ) :
    (setIndexPoints idxType (stateAt idxType text off) ((text.drop off).take n)).2 =
      stateAt idxType text (off + n) := by
  cases idxType with
  | chars => rfl
  | words =>
    show wordsState (wordsState false _) _ = wordsState false _
    rw [← wordsState_append, ← List.take_add]

theorem length_setIndexPoints (idxType : IndexType) (prevnl : Bool) (text : List UInt8) :
    (setIndexPoints idxType prevnl text).1.length ≤ text.length := by
  cases idxType with
  | chars => exact Nat.le_of_eq List.length_range
  | words => exact length_indexWords 0 prevnl text

/-- The index points that are marked in a piece are those of the text. -/
theorem marks_ne_nil_iff (idxType : IndexType) (text : List UInt8) (off n : ℕ) :
    (setIndexPoints idxType (stateAt idxType text off) ((text.drop off).take n)).1 ≠ [] ↔
      ∃ p ∈ indexPoints idxType text, off ≤ p ∧ p < off + n := by
  cases idxType with
  | chars =>
    show List.range _ ≠ [] ↔ ∃ p ∈ List.range text.length, _
    rw [Ne, List.range_eq_nil, List.length_take, List.length_drop]
    constructor
    · intro h
      exact ⟨off, List.mem_range.mpr (by omega), Nat.le_refl off, by omega⟩
    · rintro ⟨p, hp, hop, hpn⟩
      have := List.mem_range.mp hp
      omega
  | words =>
    have hsplit : text = text.take off ++ ((text.drop off).take n ++ (text.drop off).drop n) := by
      rw [List.take_append_drop, List.take_append_drop]
    have hpoints : indexPoints .words text = indexWords 0 false (text.take off) ++
        (indexWords (0 + (text.take off).length) (stateAt .words text off)
            ((text.drop off).take n) ++
          indexWords (0 + (text.take off).length + ((text.drop off).take n).length)
            (wordsState (stateAt .words text off) ((text.drop off).take n))
            ((text.drop off).drop n)) := by
      conv_lhs => rw [indexPoints, hsplit]
      rw [indexWords_append, indexWords_append]
      rfl
    have hpiece : indexWords (0 + (text.take off).length) (stateAt .words text off)
        ((text.drop off).take n) =
        (indexWords 0 (stateAt .words text off) ((text.drop off).take n)).map
          (· + (text.take off).length) := indexWords_shift 0 _ _ _
    show indexWords 0 _ _ ≠ [] ↔ _
    constructor
    · intro hne
      have hlen : off ≤ text.length := by
        by_contra hlt
        rw [List.drop_eq_nil_of_le (by omega), List.take_nil] at hne
        exact hne (by cases stateAt .words text off <;> rfl)
      obtain ⟨p, hp⟩ := List.exists_mem_of_ne_nil _ hne
      have hbounds := indexWords_bounds hp
      rw [List.length_take] at hbounds
      refine ⟨p + (text.take off).length, ?_, ?_, ?_⟩
      · rw [hpoints, hpiece]
        exact List.mem_append_right _ (List.mem_append_left _ (List.mem_map_of_mem hp))
      · rw [List.length_take]
        omega
      · rw [List.length_take]
        omega
    · rintro ⟨p, hp, hop, hpn⟩ hnil
      rw [hpoints, hpiece, hnil, List.map_nil, List.nil_append] at hp
      rcases List.mem_append.mp hp with h | h
      · have hbounds := indexWords_bounds h
        rw [List.length_take] at hbounds
        omega
      · have hbounds := indexWords_bounds h
        simp only [List.length_take, List.length_drop] at hbounds
        omega

/-! ### All runs -/

section

variable {cf : Config} {text : List UInt8}

theorem textBuf_eq_nil_iff {off : ℕ} :
    textBuf cf text off = [] ↔ text.length ≤ off ∨ cf.textsz + cf.sortPadLen = 0 := by
  rw [textBuf, ← List.length_eq_zero_iff, List.length_take, List.length_drop]
  omega

theorem take_textBuf (off : ℕ) :
    (textBuf cf text off).take cf.textsz = (text.drop off).take cf.textsz := by
  rw [textBuf, List.take_take, Nat.min_eq_left (Nat.le_add_right _ _)]

theorem exists_mergeRuns (currText : List UInt8) {j : ℕ} {runs : List (List RunElement)}
    {currRun : List RunElement} (hne : currRun ≠ []) (hruns : ∀ r ∈ runs, r ≠ [])
    (htext : ∀ i < runs.length, textBuf cf text ((j + i) * cf.textsz) ≠ []) :
    ∃ run, mergeRuns cf text currText j runs currRun = some (some run) ∧ run ≠ [] := by
  induction runs generalizing j currRun with
  | nil => exact ⟨currRun, by rw [mergeRuns, if_neg hne], hne⟩
  | cons prevRun runs ih =>
    obtain ⟨hprev, hruns'⟩ := List.forall_mem_cons.mp hruns
    obtain ⟨r, hr, hlen⟩ := exists_generateRun cf prevRun (textBuf cf text (j * cf.textsz)) currText
      hne
    have hr' : r ≠ [] := List.length_pos_iff.mp (hlen ▸ List.length_pos_iff.mpr hne)
    obtain ⟨run, hrun, hne'⟩ := ih (j := j + 1) hr' hruns' fun i hi => by
      have h := htext (i + 1) (Nat.succ_lt_succ hi)
      rwa [show j + (i + 1) = j + 1 + i by omega] at h
    refine ⟨run, ?_, hne'⟩
    rw [mergeRuns]
    show (if prevRun = [] ∨ textBuf cf text (j * cf.textsz) = [] then _ else _) = _
    rw [if_neg (fun h => h.elim hprev (htext 0 (Nat.succ_pos _))), hr]
    exact hrun

/-- A piece without an index point is sorted outside of its elements. -/
theorem csortRun_none {off : ℕ} {prevnl : Bool} (runs : List (List RunElement))
    (hnil : (setIndexPoints cf.idxType prevnl ((text.drop off).take cf.textsz)).1 = []) :
    csortRun cf text off prevnl runs = none := by
  rw [csortRun]
  simp only [take_textBuf, hnil, markedRun, List.map_nil, List.length_nil]
  rw [sortRun_nil]
  rfl

/-- **A piece with an index point** becomes a run. -/
theorem exists_csortRun {off : ℕ} {prevnl : Bool} {runs : List (List RunElement)}
    (hne : (setIndexPoints cf.idxType prevnl ((text.drop off).take cf.textsz)).1 ≠ [])
    (hruns : ∀ r ∈ runs, r ≠ [])
    (htext : ∀ i < runs.length, textBuf cf text (i * cf.textsz) ≠ []) :
    ∃ run, csortRun cf text off prevnl runs = some (some run) ∧ run ≠ [] := by
  obtain ⟨marks, hmarks⟩ : ∃ marks, marks =
    (setIndexPoints cf.idxType prevnl ((text.drop off).take cf.textsz)).1 := ⟨_, rfl⟩
  rw [← hmarks] at hne
  have hlen : marks.length ≤ cf.textsz := by
    rw [hmarks]
    exact (length_setIndexPoints _ _ _).trans (List.length_take_le _ _)
  have htextsz := cf.textsz_lt
  have hpos := List.length_pos_iff.mpr hne
  have hlen₀ : (markedRun marks).length = marks.length := List.length_map _
  obtain ⟨sorted, hsorted, hperm⟩ := exists_sortRun (fun a b =>
    cf.strcomp ((textBuf cf text off).drop a.toNat) ((textBuf cf text off).drop b.toNat))
    (List.length_pos_iff.mp (hlen₀ ▸ hpos)) (by omega)
  have hlast : ulong ((marks.length : ℤ) - 1) = marks.length - 1 := by
    rw [show (marks.length : ℤ) - 1 = ((marks.length - 1 : ℕ) : ℤ) by omega]
    exact ulong_natCast (by omega)
  have hlen₁ := hperm.length_eq
  obtain ⟨heights, hheights, hlen₂⟩ := exists_heightLoop cf (textBuf cf text off)
    (show 0 + (marks.length - 1) < sorted.length by omega)
  obtain ⟨run, hrun, hrunne⟩ := @exists_mergeRuns cf text (textBuf cf text off) 0 runs heights
    (List.length_pos_iff.mp (show 0 < heights.length by omega)) hruns (by simpa using htext)
  refine ⟨run, ?_, hrunne⟩
  rw [csortRun]
  simp only [take_textBuf, ← hmarks]
  rw [hlen₀] at hsorted
  rw [hsorted]
  show ((heightLoop cf (textBuf cf text off) (ulong ((marks.length : ℤ) - 1)) 0 sorted).bind _) = _
  rw [hlast, hheights]
  exact hrun

/-- Piece `k` of the text has an index point. -/
def HasPoint (cf : Config) (text : List UInt8) (k : ℕ) : Prop :=
  ∃ p ∈ indexPoints cf.idxType text, k * cf.textsz ≤ p ∧ p < k * cf.textsz + cf.textsz

/-- The state of `csort` after `k` runs. -/
structure RunsMade (cf : Config) (text : List UInt8) (k off : ℕ) (prevnl : Bool)
    (runs : List (List RunElement)) : Prop where
  off_eq : off = min (k * cf.textsz) text.length
  prevnl_eq : prevnl = stateAt cf.idxType text off
  length : runs.length = k
  nonempty : ∀ r ∈ runs, r ≠ []
  inside : ∀ i < k, i * cf.textsz < text.length

theorem RunsMade.off_of_lt {k off : ℕ} {prevnl : Bool} {runs : List (List RunElement)}
    (h : RunsMade cf text k off prevnl runs) (hlt : off < text.length) : off = k * cf.textsz := by
  have := h.off_eq
  omega

/-- **A step** of `csort`: the next run is made, if its piece has an index point. -/
theorem RunsMade.step {k off fuel : ℕ} {prevnl : Bool} {runs : List (List RunElement)}
    (h : RunsMade cf text k off prevnl runs) (hsz : cf.textsz + cf.sortPadLen ≠ 0)
    (hmore : off < text.length) (hpoint : HasPoint cf text k) :
    ∃ off' prevnl' runs', RunsMade cf text (k + 1) off' prevnl' runs' ∧ off < off' ∧
      csortLoop cf text (fuel + 1) off prevnl runs = csortLoop cf text fuel off' prevnl' runs' := by
  have hoff := h.off_of_lt hmore
  have hne : (setIndexPoints cf.idxType prevnl ((text.drop off).take cf.textsz)).1 ≠ [] := by
    rw [h.prevnl_eq, marks_ne_nil_iff, hoff]
    exact hpoint
  have hbuf : textBuf cf text off ≠ [] := fun hnil =>
    (textBuf_eq_nil_iff.mp hnil).elim (by omega) hsz
  obtain ⟨run, hrun, hrunne⟩ := exists_csortRun hne h.nonempty fun i hi hnil =>
    (textBuf_eq_nil_iff.mp hnil).elim (by have := h.inside i (h.length ▸ hi); omega) hsz
  have hpiece : ((text.drop off).take cf.textsz).length = min cf.textsz (text.length - off) := by
    rw [List.length_take, List.length_drop]
  have hpos : 0 < cf.textsz := by
    obtain ⟨p, -, hp, hp'⟩ := hpoint
    omega
  refine ⟨off + ((text.drop off).take cf.textsz).length,
    (setIndexPoints cf.idxType prevnl ((text.drop off).take cf.textsz)).2, runs ++ [run], ?_,
    by omega, ?_⟩
  · exact {
      off_eq := by
        rw [hpiece, Nat.succ_mul, ← hoff]
        omega
      prevnl_eq := by
        rw [h.prevnl_eq, setIndexPoints_state]
        cases hidx : cf.idxType with
        | chars => rfl
        | words =>
          show wordsState false _ = wordsState false _
          rw [hpiece]
          congr 1
          rcases Nat.le_total cf.textsz (text.length - off) with hle | hle
          · rw [Nat.min_eq_left hle]
          · rw [Nat.min_eq_right hle, List.take_of_length_le (by omega),
              List.take_of_length_le (by omega)]
      length := by rw [List.length_append, h.length, List.length_singleton]
      nonempty := by
        intro r hr
        rcases List.mem_append.mp hr with hr | hr
        · exact h.nonempty r hr
        · rw [List.mem_singleton.mp hr]
          exact hrunne
      inside := by
        intro i hi
        rcases Nat.eq_or_lt_of_le (Nat.le_of_lt_succ hi) with rfl | hlt
        · omega
        · exact h.inside i hlt }
  · rw [csortLoop]
    simp only [take_textBuf]
    rw [if_neg hbuf, hrun]

/-- **The loop of `csort`** makes all runs exactly if all pieces have an index point. -/
theorem RunsMade.csortLoop_iff {fuel k off : ℕ} {prevnl : Bool} {runs : List (List RunElement)}
    (h : RunsMade cf text k off prevnl runs) (hsz : cf.textsz + cf.sortPadLen ≠ 0) :
    ((∃ res, csortLoop cf text fuel off prevnl runs = some (some res)) →
      ∀ i, k ≤ i → i * cf.textsz < text.length → HasPoint cf text i) ∧
    (text.length - off < fuel →
      (∀ i, k ≤ i → i * cf.textsz < text.length → HasPoint cf text i) →
      ∃ res, csortLoop cf text fuel off prevnl runs = some (some res)) := by
  induction fuel generalizing k off prevnl runs with
  | zero =>
    refine ⟨?_, fun hfuel => absurd hfuel (Nat.not_lt_zero _)⟩
    rintro ⟨res, hres⟩
    cases hres
  | succ fuel ih =>
    rcases Nat.lt_or_ge off text.length with hmore | hend
    · have hoff := h.off_of_lt hmore
      by_cases hpoint : HasPoint cf text k
      · obtain ⟨off', prevnl', runs', hmade, hlt, hstep⟩ := h.step hsz hmore hpoint
        obtain ⟨hfirst, hsecond⟩ := ih hmade
        rw [hstep]
        constructor
        · intro hres i hi hin
          rcases Nat.eq_or_lt_of_le hi with rfl | hki
          · exact hpoint
          · exact hfirst hres i hki hin
        · intro hfuel hall
          exact hsecond (by omega) fun i hi => hall i (by omega)
      · have hnil : (setIndexPoints cf.idxType prevnl ((text.drop off).take cf.textsz)).1 = [] := by
          by_contra hne
          rw [h.prevnl_eq, ← Ne, marks_ne_nil_iff, hoff] at hne
          exact hpoint hne
        have hbuf : textBuf cf text off ≠ [] := fun hbuf =>
          (textBuf_eq_nil_iff.mp hbuf).elim (by omega) hsz
        have hnone : csortLoop cf text (fuel + 1) off prevnl runs = none := by
          rw [csortLoop]
          show (if textBuf cf text off = [] then _ else _) = _
          rw [if_neg hbuf, csortRun_none runs hnil]
        constructor
        · rintro ⟨res, hres⟩
          rw [hnone] at hres
          cases hres
        · intro _ hall
          exact absurd (hall k (Nat.le_refl k) (hoff ▸ hmore)) hpoint
    · have hbuf : textBuf cf text off = [] := textBuf_eq_nil_iff.mpr (Or.inl hend)
      have hdone : csortLoop cf text (fuel + 1) off prevnl runs = some (some runs) := by
        rw [csortLoop]
        exact if_pos hbuf
      refine ⟨fun _ i hi hin => ?_, fun _ _ => ⟨runs, hdone⟩⟩
      have hle : k * cf.textsz ≤ i * cf.textsz := Nat.mul_le_mul_right _ hi
      have := h.off_eq
      omega

/-- **The runs of a text** are made, with no access outside of their elements, exactly if each
piece has an index point. -/
theorem csort_right_iff (cf : Config) (text : List UInt8) :
    CsortRight cf text ↔ cf.textsz + cf.sortPadLen = 0 ∨
      ∀ k, k * cf.textsz < text.length → HasPoint cf text k := by
  have hstart : RunsMade cf text 0 0 false [] := {
    off_eq := by rw [Nat.zero_mul, Nat.zero_min]
    prevnl_eq := by cases cf.idxType <;> rfl
    length := rfl
    nonempty := fun r hr => absurd hr List.not_mem_nil
    inside := fun i hi => absurd hi (Nat.not_lt_zero i) }
  by_cases hsz : cf.textsz + cf.sortPadLen = 0
  · refine iff_of_true ⟨1, [], ?_⟩ (Or.inl hsz)
    rw [csort, csortLoop]
    exact if_pos (textBuf_eq_nil_iff.mpr (Or.inr hsz))
  · constructor
    · rintro ⟨fuel, runs, hruns⟩
      exact Or.inr fun k hk =>
        (hstart.csortLoop_iff hsz).1 ⟨runs, hruns⟩ k (Nat.zero_le k) hk
    · intro h
      obtain ⟨runs, hruns⟩ := (@RunsMade.csortLoop_iff cf text (text.length + 1) _ _ _ _ hstart
        hsz).2 (by omega) fun i _ => h.resolve_left hsz i
      exact ⟨_, runs, hruns⟩

end

/-- Words in pieces of eight bytes. -/
def sampleConfig : Config where
  textsz := 8
  textsz_lt := by decide
  sortPadLen := 8
  strcomp := fun _ _ => 1
  diffbit := fun _ _ => 1
  idxType := .words

/-- The second piece of the text has only the end of a word. -/
theorem not_csort_right :
    ¬ ∀ (cf : Config) (ss : List (List UInt8)), (∀ s ∈ ss, s ≠ [] ∧ keysepCh ∉ s) →
      CsortRight cf (stringsFile ss) := by
  intro h
  have hright := h sampleConfig [bytes "archie.mcgill"] (by decide +kernel)
  have hall := ((csort_right_iff _ _).mp hright).resolve_left (by decide)
  obtain ⟨p, hp, hlo, -⟩ := hall 1 (by decide +kernel)
  have hpoints : indexPoints .words (stringsFile [bytes "archie.mcgill"]) = [1] := by decide +kernel
  have hone : p ∈ [1] := hpoints ▸ hp
  rw [List.mem_singleton.mp hone] at hlo
  exact absurd hlo (by decide)

end Archie.Run
