/-
Merging the runs into the infix file (`cmerge` in `patrie/sort.c`).

The elements of a run are read into a buffer of its own, a few at a time.  The next element is the
current one of the last run whose count is the number of elements output from the runs before.

* `Run`, `initRuns`, `moreFromRun`, `selectRun`, `cmerge` — the functions.
* `Holds` — the elements that a run still has to give, and those in its buffer.
* `cmergeLoop_eq` — whatever the buffers hold, the elements are output in the order of the counts.
* `cmerge_eq` — the ints of the infix file.
* `cmerge_iff` — exactly when there is memory for a buffer of each run.
-/
import Archie.RunMarks
import Archie.RunSort

namespace Archie.Infix

open RunMerge

/-! ### The functions -/

/-- `sizeof(RunElement)`. -/
def runElementSize : ℕ := 12

/-- What `cmerge` uses of a `Run`; offsets in the runs file are counted in elements. -/
structure Run where
  /-- What the buffer holds; there are `nelts` elements. -/
  elt : List RunElement
  curr : ℕ
  offset : ℕ
  nitems : ℕ
  outposi : ℤ
  outsofar : ℕ
  deriving DecidableEq, Repr

/-- `fseek` and `fread` of elements of the runs file. -/
def readElts (runFile : List RunElement) (off nelts : ℕ) : List RunElement :=
  (runFile.drop off).take nelts

/-- One round of `initRuns`; it fails if no element is read. -/
def initRun (runFile : List RunElement) (nelts offset nitems : ℕ) : Option Run :=
  let elt := readElts runFile offset nelts
  if elt = [] then none else some ⟨elt, 0, offset, nitems, 0, 0⟩

/-- The loop of `initRuns`, for runs of these lengths that begin at an offset of the runs file. -/
def initLoop (runFile : List RunElement) (nelts : ℕ) : ℕ → List ℕ → Option (List Run)
  | _, [] => some []
  | offset, nitems :: lens => do
    let run ← initRun runFile nelts offset nitems
    let runs ← initLoop runFile nelts (offset + nitems) lens
    some (run :: runs)

/-- `initRuns`.  The outer option is none for a division by zero, the inner one when 0 is
returned. -/
def initRuns (runFile : List RunElement) (memsz : ℕ) (lens : List ℕ) : Option (Option (List Run)) :=
  if lens.length * runElementSize = 0 then none
  else some (initLoop runFile (memsz / (lens.length * runElementSize)) 0 lens)

/-- `moreFromRun`; it fails if nothing is read before the end of the runs file. -/
def moreFromRun (runFile : List RunElement) (run : Run) : Option Run :=
  let off := run.offset + run.outposi.toNat
  let elt := readElts runFile off run.elt.length
  if elt = [] then
    if runFile.length < off + run.elt.length then
      some { run with elt := elt, outposi := -1, curr := 0 }
    else none
  else some { run with elt := elt, curr := 0 }

/-- The loop that looks for the run of the next element, from the last one down, and that element.
The outer option is none for an access outside of a buffer. -/
def selectRun (runs : List Run) : ℕ → Option (Option (ℕ × RunElement))
  | 0 => some none
  | i + 1 => do
    let run ← runs[i]?
    if run.outposi ≠ -1 then
      let e ← run.elt[run.curr]?
      if e.c = run.outsofar then some (some (i, e)) else selectRun runs i
    else selectRun runs i

/-- The counters of the runs after the `i`th are incremented. -/
def countRuns (runs : List Run) (i : ℕ) : List Run :=
  runs.mapIdx fun j run => if i < j then { run with outsofar := run.outsofar + 1 } else run

/-- The run after its current element has been output; none, if `moreFromRun` fails. -/
def advanceRun (runFile : List RunElement) (run : Run) : Option Run :=
  let run := { run with outsofar := 0, outposi := run.outposi + 1 }
  if (run.nitems : ℤ) ≤ run.outposi then some { run with outposi := -1 }
  else
    let run := { run with curr := run.curr + 1 }
    if run.curr = run.elt.length then moreFromRun runFile run else some run

/-- The loop of `cmerge`: what it writes to the infix file.  The outer option is none for an access
outside of a buffer, the inner one when 0 is returned. -/
def cmergeLoop (runFile : List RunElement) (tbs : ℕ) :
    ℕ → Bool → ℕ → List Run → List ℤ → Option (Option (List ℤ))
  | 0, _, _, _, _ => none
  | fuel + 1, flag, lasth, runs, out =>
    match selectRun runs runs.length with
    | none => none
    | some none => some (some (out ++ [0]))
    | some (some (i, e)) =>
      let h := max lasth e.lh
      let s := sint (ulong (i * tbs + e.s))
      let out := out ++ (if flag then [] else [(h : ℤ)]) ++ [-(s + 1)]
      match runs[i]? with
      | none => none
      | some run =>
        match advanceRun runFile run with
        | none => some none
        | some run => cmergeLoop runFile tbs fuel false e.rh ((countRuns runs i).set i run) out

/-- `cmerge` of runs that lie one behind the other in the runs file. -/
def cmerge (fuel memsz tbs : ℕ) (runs : List (List RunElement)) : Option (Option (List ℤ)) := do
  match ← initRuns runs.flatten memsz (runs.map List.length) with
  | none => some none
  | some qs => cmergeLoop runs.flatten tbs fuel true 0 qs [0]

/-! ### The elements that are left -/

/-- An element with its offset in the whole text. -/
def markOf (tbs i : ℕ) (e : RunElement) : ℕ × Mark :=
  (i * tbs + e.s.toNat, ⟨e.c.toNat, e.lh, e.rh⟩)

/-- The elements of run `i` with their counts. -/
def queueItems (tbs i : ℕ) (items : List RunElement) : List ((ℕ × Mark) × ℕ) :=
  items.map fun e => (markOf tbs i e, e.c.toNat)

/-- The ints for elements that are output in this order; `lasth` is the height of the one before. -/
def infixInts : Bool → ℕ → List (ℕ × Mark) → List ℤ
  | _, _, [] => []
  | flag, lasth, e :: es =>
    (if flag then [] else [((max lasth e.2.lh : ℕ) : ℤ)]) ++ -((e.1 : ℤ) + 1) ::
      infixInts false e.2.rh es

/-- The elements that a run still has to give: they are next in the runs file, and so is what the
buffer holds. -/
inductive Holds (runFile : List RunElement) (run : Run) : List RunElement → Prop
  | ended (out : run.outposi = -1) : Holds runFile run []
  | more {e : RunElement} {items : List RunElement} {k : ℕ} (out : run.outposi = k)
      (count : k + (items.length + 1) = run.nitems)
      (items_eq : e :: items <+: runFile.drop (run.offset + k))
      (buffer : run.curr < run.elt.length)
      (elt_eq : run.elt.drop run.curr <+: runFile.drop (run.offset + k)) :
      Holds runFile run (e :: items)

/-- What an element of run `i` has to be, for its start to be an int. -/
structure Fine (tbs i : ℕ) (e : RunElement) : Prop where
  c : 0 ≤ e.c
  s : 0 ≤ e.s
  start : i * tbs + e.s.toNat < 2147483648

/-- The runs, and the queues of the elements that they still have to give. -/
structure Matches (runFile : List RunElement) (tbs : ℕ) (runs : List Run)
    (qs : List (List ((ℕ × Mark) × ℕ) × ℕ)) : Prop where
  length : runs.length = qs.length
  holds : ∀ i run q, runs[i]? = some run → qs[i]? = some q →
    ∃ items, Holds runFile run items ∧ (∀ e ∈ items, Fine tbs i e) ∧
      q = (queueItems tbs i items, run.outsofar)

section

variable {runFile : List RunElement} {tbs : ℕ}

theorem getElem?_of_drop {α : Type*} {l rest : List α} {i : ℕ} {x : α}
    (h : l.drop i = x :: rest) : l[i]? = some x := by
  rw [← List.head?_drop, h, List.head?_cons]

/-- The current element of a run. -/
theorem Holds.current {run : Run} {e : RunElement} {items : List RunElement}
    (h : Holds runFile run (e :: items)) : run.outposi ≠ -1 ∧ run.elt[run.curr]? = some e := by
  cases h with
  | more out _ items_eq buffer elt_eq =>
    refine ⟨by omega, ?_⟩
    obtain ⟨e', rest, hdrop⟩ : ∃ e' rest, run.elt.drop run.curr = e' :: rest :=
      List.exists_cons_of_ne_nil fun hnil => by
        have hle := List.drop_eq_nil_iff.mp hnil
        omega
    rw [hdrop] at elt_eq
    obtain ⟨a, ha⟩ := items_eq
    obtain ⟨b, hb⟩ := elt_eq
    rw [← ha, List.cons_append, List.cons_append] at hb
    rw [getElem?_of_drop hdrop, (List.cons.inj hb).1]

theorem prefix_drop_succ {α : Type*} {l items : List α} {x : α} {i : ℕ}
    (h : x :: items <+: l.drop i) : items <+: l.drop (i + 1) := by
  obtain ⟨a, ha⟩ := h
  refine ⟨a, ?_⟩
  rw [← List.drop_drop, ← ha]
  rfl

/-- A run that has elements left reads more of them. -/
theorem exists_moreFromRun {run : Run} {items : List RunElement} {e : RunElement} {k : ℕ}
    (hout : run.outposi = k) (hcount : k + (items.length + 1) = run.nitems)
    (hitems : e :: items <+: runFile.drop (run.offset + k)) (hbuffer : 0 < run.elt.length) :
    ∃ run', moreFromRun runFile run = some run' ∧ Holds runFile run' (e :: items) ∧
      run'.outsofar = run.outsofar := by
  obtain ⟨n, hn⟩ := Nat.exists_eq_succ_of_ne_zero hbuffer.ne'
  have hread : readElts runFile (run.offset + k) run.elt.length ≠ [] := by
    obtain ⟨a, ha⟩ := hitems
    rw [readElts, hn, ← ha]
    exact List.cons_ne_nil _ _
  refine ⟨{ run with
    elt := readElts runFile (run.offset + k) run.elt.length
    curr := 0 }, ?_, ?_, rfl⟩
  · rw [moreFromRun, hout, Int.toNat_natCast]
    exact if_neg hread
  · exact .more hout hcount hitems (List.length_pos_iff.mpr hread) (List.take_prefix _ _)

/-- A run after its current element has been output. -/
theorem Holds.advance {run : Run} {e : RunElement} {items : List RunElement}
    (h : Holds runFile run (e :: items)) :
    ∃ run', advanceRun runFile run = some run' ∧ Holds runFile run' items ∧
      run'.outsofar = 0 := by
  cases h with
  | @more _ _ k out count items_eq buffer elt_eq =>
    rw [advanceRun]
    rcases items with _ | ⟨e', items⟩
    · refine ⟨_, if_pos ?_, .ended rfl, rfl⟩
      show (run.nitems : ℤ) ≤ run.outposi + 1
      rw [List.length_nil] at count
      omega
    · have hmore : ¬ (run.nitems : ℤ) ≤ run.outposi + 1 := by
        rw [List.length_cons] at count
        omega
      have hnext := prefix_drop_succ items_eq
      rw [List.length_cons] at count
      dsimp only
      rw [if_neg hmore]
      split
      next hend =>
        obtain ⟨run', hrun', hholds, hout⟩ := @exists_moreFromRun runFile
          { run with outsofar := 0, outposi := run.outposi + 1, curr := run.curr + 1 }
          items e' (k + 1) (by dsimp only; omega) (by dsimp only; omega) hnext
          (by dsimp only; omega)
        exact ⟨run', hrun', hholds, hout⟩
      next hin =>
        refine ⟨_, rfl, .more (k := k + 1) (by dsimp only; omega) (by dsimp only; omega) hnext
          (by dsimp only; omega) ?_, rfl⟩
        dsimp only
        obtain ⟨x, rest, hdrop⟩ : ∃ x rest, run.elt.drop run.curr = x :: rest :=
          List.exists_cons_of_ne_nil fun hnil => by
            have hle := List.drop_eq_nil_iff.mp hnil
            omega
        rw [hdrop] at elt_eq
        rw [← List.drop_drop, hdrop]
        exact prefix_drop_succ elt_eq

/-! ### The next element -/

/-- The element of a run is the next one, unless that of a later run is. -/
structure Ready (run : Run) (e : RunElement) : Prop where
  more : run.outposi ≠ -1
  current : run.elt[run.curr]? = some e
  count : e.c = run.outsofar

/-- What the loop over the runs finds. -/
theorem selectRun_spec {runs : List Run}
    (hread : ∀ run ∈ runs, run.outposi ≠ -1 → ∃ e, run.elt[run.curr]? = some e) {n : ℕ}
    (hn : n ≤ runs.length) :
    (selectRun runs n = some none ∧ ∀ j run e, j < n → runs[j]? = some run → ¬ Ready run e) ∨
    ∃ i run e, i < n ∧ selectRun runs n = some (some (i, e)) ∧ runs[i]? = some run ∧
      Ready run e ∧ ∀ j run e, i < j → j < n → runs[j]? = some run → ¬ Ready run e := by
  induction n with
  | zero => exact Or.inl ⟨rfl, fun j _ _ hj => absurd hj (Nat.not_lt_zero j)⟩
  | succ n ih =>
    obtain ⟨run, hrun⟩ : ∃ run, runs[n]? = some run :=
      ⟨_, List.getElem?_eq_getElem (show n < runs.length by omega)⟩
    by_cases hready : ∃ e, Ready run e
    · obtain ⟨e, he⟩ := hready
      refine Or.inr ⟨n, run, e, Nat.lt_succ_self n, ?_, hrun, he, fun j _ _ hj hj' => by omega⟩
      rw [selectRun, hrun]
      simp only [Option.bind_eq_bind, Option.bind_some, if_pos he.more, he.current,
        if_pos he.count]
    · have hskip : selectRun runs (n + 1) = selectRun runs n := by
        rw [selectRun, hrun]
        simp only [Option.bind_eq_bind, Option.bind_some]
        by_cases hmore : run.outposi ≠ -1
        · obtain ⟨e, he⟩ := hread run (List.mem_of_getElem? hrun) hmore
          have hne : e.c ≠ run.outsofar := fun hc => hready ⟨e, hmore, he, hc⟩
          rw [if_pos hmore, he, Option.bind_some, if_neg hne]
        · rw [if_neg hmore]
      have hnot : ∀ run' e, runs[n]? = some run' → ¬ Ready run' e := by
        intro run' e hrun' he
        obtain rfl := Option.some.inj (hrun.symm.trans hrun')
        exact hready ⟨e, he⟩
      rw [hskip]
      rcases ih (by omega) with ⟨hnone, hall⟩ | ⟨i, run', e, hi, hsome, hrun', he, hall⟩
      · refine Or.inl ⟨hnone, fun j run' e hj hrun' => ?_⟩
        rcases Nat.eq_or_lt_of_le (Nat.le_of_lt_succ hj) with rfl | hj
        · exact hnot run' e hrun'
        · exact hall j run' e hj hrun'
      · refine Or.inr ⟨i, run', e, by omega, hsome, hrun', he, fun j run'' e' hij hj hrun'' => ?_⟩
        rcases Nat.eq_or_lt_of_le (Nat.le_of_lt_succ hj) with rfl | hj
        · exact hnot run'' e' hrun''
        · exact hall j run'' e' hij hj hrun''

theorem next_eq_none {qs : List (List ((ℕ × Mark) × ℕ) × ℕ)}
    (h : ∀ q ∈ qs, ∀ rest, takeFirst rest q = none) : next qs = none := by
  induction qs with
  | nil => rfl
  | cons q qs ih =>
    obtain ⟨hq, hqs⟩ := List.forall_mem_cons.mp h
    rw [next, ih hqs]
    exact hq qs

theorem next_append {a b : List (List ((ℕ × Mark) × ℕ) × ℕ)} {ys : List ((ℕ × Mark) × ℕ)}
    {y : (ℕ × Mark) × ℕ} {out : ℕ} (hb : ∀ q ∈ b, ∀ rest, takeFirst rest q = none)
    (hout : y.2 = out) :
    next (a ++ (y :: ys, out) :: b) =
      some (y.1, a ++ (ys, 0) :: b.map fun q => (q.1, q.2 + 1)) := by
  induction a with
  | nil =>
    rw [List.nil_append, next, next_eq_none hb]
    show takeFirst b (y :: ys, out) = _
    rw [takeFirst, if_pos hout]
    rfl
  | cons q a ih =>
    rw [List.cons_append, next, ih]
    rfl

theorem Fine.sint_start {i : ℕ} {e : RunElement} (h : Fine tbs i e) :
    sint (ulong (i * tbs + e.s)) = ((markOf tbs i e).1 : ℤ) := by
  obtain ⟨n, hn⟩ := Int.eq_ofNat_of_zero_le h.s
  have hstart := h.start
  have hcast : (i : ℤ) * tbs + e.s = ((i * tbs + e.s.toNat : ℕ) : ℤ) := by
    rw [hn, Int.toNat_natCast]
    exact (congrArg (· + (n : ℤ)) (Int.natCast_mul i tbs)).symm
  rw [hcast]
  exact sint_ulong ⟨by omega, by omega⟩

/-- A queue is ready if its run is. -/
theorem takeFirst_eq_none {run : Run} {i : ℕ} {items : List RunElement}
    (hholds : Holds runFile run items) (hfine : ∀ e ∈ items, Fine tbs i e)
    (hready : ∀ e, ¬ Ready run e) (rest : List (List ((ℕ × Mark) × ℕ) × ℕ)) :
    takeFirst rest (queueItems tbs i items, run.outsofar) = none := by
  rcases items with _ | ⟨e, items⟩
  · rfl
  · obtain ⟨hmore, hcurrent⟩ := hholds.current
    have hc := (hfine e List.mem_cons_self).c
    have hne : ¬ e.c.toNat = run.outsofar := fun heq =>
      hready e ⟨hmore, hcurrent, by omega⟩
    exact if_neg hne

/-- The queues after an element has been taken from one. -/
theorem Matches.step {runs : List Run} {a b : List (List ((ℕ × Mark) × ℕ) × ℕ)}
    {y : (ℕ × Mark) × ℕ} {ys : List ((ℕ × Mark) × ℕ)} {out : ℕ} {run' : Run}
    {items : List RunElement} (h : Matches runFile tbs runs (a ++ (y :: ys, out) :: b))
    (hholds : Holds runFile run' items) (hfine : ∀ e ∈ items, Fine tbs a.length e)
    (hitems : ys = queueItems tbs a.length items) (hout : run'.outsofar = 0) :
    Matches runFile tbs ((countRuns runs a.length).set a.length run')
      (a ++ (ys, 0) :: b.map fun q => (q.1, q.2 + 1)) := by
  have hlength := h.length
  rw [List.length_append, List.length_cons] at hlength
  refine ⟨?_, fun i run q hrun hq => ?_⟩
  · rw [List.length_set, countRuns, List.length_mapIdx, List.length_append, List.length_cons,
      List.length_map, hlength]
  · rcases Nat.lt_trichotomy i a.length with hlt | rfl | hlt
    · rw [List.getElem?_set_ne (by omega), countRuns, List.getElem?_mapIdx] at hrun
      rw [List.getElem?_append_left hlt] at hq
      obtain ⟨run₀, hrun₀, rfl⟩ := Option.map_eq_some_iff.mp hrun
      rw [if_neg (by omega)]
      exact h.holds i run₀ q hrun₀ (by rw [List.getElem?_append_left hlt, hq])
    · rw [List.getElem?_set_self (by rw [countRuns, List.length_mapIdx]; omega)] at hrun
      rw [List.getElem?_append_right (Nat.le_refl _), Nat.sub_self] at hq
      obtain rfl := Option.some.inj hrun
      obtain rfl := Option.some.inj hq
      exact ⟨items, hholds, hfine, by rw [hitems, hout]⟩
    · obtain ⟨k, rfl⟩ := Nat.exists_eq_add_of_lt hlt
      rw [List.getElem?_set_ne (by omega), countRuns, List.getElem?_mapIdx] at hrun
      have hback : a.length + k + 1 - a.length = k + 1 := by omega
      rw [List.getElem?_append_right (by omega), hback, List.getElem?_cons_succ,
        List.getElem?_map] at hq
      obtain ⟨run₀, hrun₀, rfl⟩ := Option.map_eq_some_iff.mp hrun
      obtain ⟨q₀, hq₀, rfl⟩ := Option.map_eq_some_iff.mp hq
      obtain ⟨items', hholds', hfine', rfl⟩ := h.holds _ run₀ q₀ hrun₀ (by
        rw [List.getElem?_append_right (by omega), hback, List.getElem?_cons_succ, hq₀])
      rw [if_pos hlt]
      refine ⟨items', ?_, hfine', rfl⟩
      cases hholds' with
      | ended out => exact .ended out
      | more out count items_eq buffer elt_eq => exact .more out count items_eq buffer elt_eq

theorem left_append (a b : List (List ((ℕ × Mark) × ℕ) × ℕ)) : left (a ++ b) = left a ++ left b :=
  List.flatMap_append

/-- **The loop of `cmerge`** outputs the elements in the order of their counts, whatever the buffers
hold. -/
theorem cmergeLoop_eq {fuel : ℕ} {flag : Bool} {lasth : ℕ} {runs : List Run} {out : List ℤ}
    {qs : List (List ((ℕ × Mark) × ℕ) × ℕ)} (h : Matches runFile tbs runs qs)
    (hfuel : (left qs).length < fuel) :
    cmergeLoop runFile tbs fuel flag lasth runs out =
      some (some (out ++ infixInts flag lasth (merge fuel qs) ++ [0])) := by
  induction fuel generalizing flag lasth runs out qs with
  | zero => exact absurd hfuel (Nat.not_lt_zero _)
  | succ fuel ih =>
    have hqueue : ∀ {i : ℕ} {run : Run}, runs[i]? = some run → ∃ items, Holds runFile run items ∧
        (∀ e ∈ items, Fine tbs i e) ∧ qs[i]? = some (queueItems tbs i items, run.outsofar) := by
      intro i run hrun
      obtain ⟨hi, -⟩ := List.getElem?_eq_some_iff.mp hrun
      obtain ⟨q, hq⟩ : ∃ q, qs[i]? = some q := ⟨_, List.getElem?_eq_getElem (h.length ▸ hi)⟩
      obtain ⟨items, hholds, hfine, rfl⟩ := h.holds i run q hrun hq
      exact ⟨items, hholds, hfine, hq⟩
    have hread : ∀ run ∈ runs, run.outposi ≠ -1 → ∃ e, run.elt[run.curr]? = some e := by
      intro run hrun hmore
      obtain ⟨i, hi⟩ := List.mem_iff_getElem?.mp hrun
      obtain ⟨items, hholds, -⟩ := hqueue hi
      rcases items with _ | ⟨e, items⟩
      · cases hholds with
        | ended out => exact absurd out hmore
      · exact ⟨e, hholds.current.2⟩
    have hnone : ∀ {j : ℕ} {q : List ((ℕ × Mark) × ℕ) × ℕ}, qs[j]? = some q →
        (∀ run e, runs[j]? = some run → ¬ Ready run e) → ∀ rest, takeFirst rest q = none := by
      intro j q hq hnot rest
      obtain ⟨hj, -⟩ := List.getElem?_eq_some_iff.mp hq
      obtain ⟨run, hrun⟩ : ∃ run, runs[j]? = some run :=
        ⟨_, List.getElem?_eq_getElem (show j < runs.length from h.length ▸ hj)⟩
      obtain ⟨items, hholds, hfine, rfl⟩ := h.holds j run q hrun hq
      exact takeFirst_eq_none hholds hfine (fun e => hnot run e hrun) rest
    rw [cmergeLoop]
    rcases selectRun_spec hread (Nat.le_refl _) with
      ⟨hselect, hall⟩ | ⟨i, run, e, hi, hselect, hrun, hready, hall⟩
    · have hend : next qs = none := by
        refine next_eq_none fun q hq rest => ?_
        obtain ⟨j, hj⟩ := List.mem_iff_getElem?.mp hq
        obtain ⟨hlt, -⟩ := List.getElem?_eq_some_iff.mp hj
        exact hnone hj (fun run e => hall j run e (h.length ▸ hlt)) rest
      rw [hselect, merge, hend, infixInts, List.append_nil]
    · obtain ⟨items, hholds, hfine, hq⟩ := hqueue hrun
      rcases items with _ | ⟨e', items⟩
      · cases hholds with
        | ended out => exact absurd out hready.more
      · obtain rfl := Option.some.inj (hready.current.symm.trans hholds.current.2)
        obtain ⟨hfine₀, hfine'⟩ := List.forall_mem_cons.mp hfine
        obtain ⟨hlt, hget⟩ := List.getElem?_eq_some_iff.mp hq
        obtain ⟨a, ha⟩ : ∃ a, a = qs.take i := ⟨_, rfl⟩
        obtain ⟨b, hb⟩ : ∃ b, b = qs.drop (i + 1) := ⟨_, rfl⟩
        have hsplit : qs = a ++ (queueItems tbs i (e :: items), run.outsofar) :: b := by
          rw [ha, hb, ← hget, ← List.drop_eq_getElem_cons hlt, List.take_append_drop]
        have halen : a.length = i := by
          rw [ha, List.length_take_of_le (Nat.le_of_lt hlt)]
        subst halen
        have hbehind : ∀ q ∈ b, ∀ rest, takeFirst rest q = none := by
          intro q hq rest
          obtain ⟨j, hj⟩ := List.mem_iff_getElem?.mp hq
          rw [hb, List.getElem?_drop] at hj
          obtain ⟨hlt', -⟩ := List.getElem?_eq_some_iff.mp hj
          exact hnone hj (fun run e => hall _ run e (by omega) (h.length ▸ hlt')) rest
        have hcount : e.c.toNat = run.outsofar := by
          have := hready.count
          omega
        have hnext : next (a ++ (queueItems tbs a.length (e :: items), run.outsofar) :: b) =
            some (markOf tbs a.length e, a ++ (queueItems tbs a.length items, 0) ::
              b.map fun q => (q.1, q.2 + 1)) := next_append hbehind hcount
        obtain ⟨run', hadvance, hholds', hout'⟩ := hholds.advance
        have hm := h
        rw [hsplit] at hm
        have hstep := hm.step hholds' hfine' rfl hout'
        have hleft : (left (a ++ (queueItems tbs a.length items, 0) ::
            b.map fun q => (q.1, q.2 + 1))).length < fuel := by
          rw [hsplit, left_append, left_cons] at hfuel
          rw [left_append, left_cons, left_map_succ]
          simp only [queueItems, List.length_append, List.length_map, List.length_cons] at hfuel ⊢
          omega
        rw [hselect, merge, show next qs = _ from hsplit ▸ hnext]
        dsimp only
        rw [hrun]
        dsimp only
        rw [hadvance, hfine₀.sint_start, infixInts]
        dsimp only
        rw [ih hstep hleft]
        simp only [List.append_assoc, List.cons_append, List.nil_append]
        rfl

/-! ### All runs -/

/-- The elements of all runs, with their offsets in the whole text. -/
def markRuns (tbs : ℕ) (runs : List (List RunElement)) : List (List (ℕ × Mark)) :=
  runs.mapIdx fun i R => R.map (markOf tbs i)

theorem map_queueOf_markRuns (tbs : ℕ) (runs : List (List RunElement)) :
    (markRuns tbs runs).map queueOf = runs.mapIdx fun i R => (queueItems tbs i R, 0) := by
  refine List.ext_getElem? fun i => ?_
  rw [List.getElem?_map, markRuns, List.getElem?_mapIdx, List.getElem?_mapIdx, Option.map_map]
  congr 1
  funext R
  rw [Function.comp_apply, queueOf, List.map_map]
  rfl

theorem length_flatten_markRuns (tbs : ℕ) (runs : List (List RunElement)) :
    (markRuns tbs runs).flatten.length = runs.flatten.length := by
  rw [List.length_flatten, List.length_flatten]
  congr 1
  refine List.ext_getElem? fun i => ?_
  rw [List.getElem?_map, markRuns, List.getElem?_mapIdx, List.getElem?_map, Option.map_map]
  congr 1
  funext R
  exact List.length_map _

/-- With room for an element of each run, the first elements of all runs are read. -/
theorem initLoop_spec {nelts : ℕ} (hnelts : 0 < nelts) {runs : List (List RunElement)}
    {before : List RunElement} (hfile : runFile = before ++ runs.flatten)
    (hne : ∀ R ∈ runs, R ≠ []) :
    ∃ qs, initLoop runFile nelts before.length (runs.map List.length) = some qs ∧
      qs.length = runs.length ∧
      ∀ (i : ℕ) (run : Run) (R : List RunElement), qs[i]? = some run → runs[i]? = some R →
        Holds runFile run R ∧ run.outsofar = 0 := by
  induction runs generalizing before with
  | nil => exact ⟨[], rfl, rfl, fun i run R hrun => absurd hrun.symm (Option.some_ne_none _)⟩
  | cons R runs ih =>
    obtain ⟨hR, hruns⟩ := List.forall_mem_cons.mp hne
    obtain ⟨e, items, rfl⟩ := List.exists_cons_of_ne_nil hR
    rw [List.flatten_cons, ← List.append_assoc] at hfile
    obtain ⟨qs, hqs, hlength, hholds⟩ := ih hfile hruns
    rw [List.length_append] at hqs
    have hdrop : runFile.drop before.length = e :: items ++ runs.flatten := by
      rw [hfile, List.append_assoc, List.drop_left]
    have hread : readElts runFile before.length nelts ≠ [] := by
      obtain ⟨n, rfl⟩ := Nat.exists_eq_succ_of_ne_zero hnelts.ne'
      rw [readElts, hdrop]
      exact List.cons_ne_nil _ _
    have hinit : initRun runFile nelts before.length (e :: items).length =
        some ⟨readElts runFile before.length nelts, 0, before.length, (e :: items).length, 0, 0⟩ :=
      if_neg hread
    refine ⟨⟨readElts runFile before.length nelts, 0, before.length, (e :: items).length, 0, 0⟩ ::
      qs, ?_, ?_, ?_⟩
    · rw [List.map_cons, initLoop, hinit]
      simp only [Option.bind_eq_bind, Option.bind_some, hqs]
    · rw [List.length_cons, List.length_cons, hlength]
    · intro i run R hrun hR'
      rcases i with _ | i
      · obtain rfl := Option.some.inj hrun
        obtain rfl := Option.some.inj hR'
        refine ⟨.more (k := 0) rfl ?_ ?_ (List.length_pos_iff.mpr hread) ?_, rfl⟩
        · rw [Nat.zero_add]
          rfl
        · rw [Nat.add_zero, hdrop]
          exact List.prefix_append _ _
        · rw [Nat.add_zero]
          exact List.take_prefix _ _
      · exact hholds i run R hrun hR'

/-- **The ints of the infix file** are the starts and heights of all elements in the order of their
counts, for any size of the buffers. -/
theorem cmerge_eq {runs : List (List RunElement)} {memsz fuel : ℕ} (hne : ∀ R ∈ runs, R ≠ [])
    (hruns : runs ≠ []) (hmem : runs.length * runElementSize ≤ memsz)
    (hfine : ∀ i R, runs[i]? = some R → ∀ e ∈ R, Fine tbs i e)
    (hfuel : runs.flatten.length < fuel) :
    cmerge fuel memsz tbs runs = some (some (0 :: infixInts true 0
      (merge fuel ((markRuns tbs runs).map queueOf)) ++ [0])) := by
  have hpos : 0 < runs.length * runElementSize :=
    Nat.mul_pos (List.length_pos_iff.mpr hruns) (show 0 < 12 by omega)
  obtain ⟨qs, hqs, hlength, hholds⟩ := @initLoop_spec runs.flatten _
    (Nat.div_pos hmem hpos) runs [] rfl hne
  have hinit : initRuns runs.flatten memsz (runs.map List.length) = some (some qs) := by
    rw [initRuns, List.length_map, if_neg hpos.ne']
    exact congrArg some hqs
  have hmatches : Matches runs.flatten tbs qs ((markRuns tbs runs).map queueOf) := by
    rw [map_queueOf_markRuns]
    refine ⟨by rw [List.length_mapIdx, hlength], fun i run q hrun hq => ?_⟩
    rw [List.getElem?_mapIdx] at hq
    obtain ⟨R, hR, rfl⟩ := Option.map_eq_some_iff.mp hq
    obtain ⟨hrunR, hout⟩ := hholds i run R hrun hR
    exact ⟨R, hrunR, hfine i R hR, by rw [hout]⟩
  have hleft : (left ((markRuns tbs runs).map queueOf)).length < fuel := by
    rwa [left_queueOf, length_flatten_markRuns]
  rw [cmerge, hinit]
  exact cmergeLoop_eq hmatches hleft

/-- The runs are merged exactly if there is one and the memory holds an element of each. -/
theorem cmerge_iff {runs : List (List RunElement)} {memsz : ℕ} (hne : ∀ R ∈ runs, R ≠ [])
    (hfine : ∀ i R, runs[i]? = some R → ∀ e ∈ R, Fine tbs i e) :
    (∃ fuel ints, cmerge fuel memsz tbs runs = some (some ints)) ↔
      runs ≠ [] ∧ runs.length * runElementSize ≤ memsz := by
  constructor
  · rintro ⟨fuel, ints, h⟩
    have hruns : runs ≠ [] := by
      rintro rfl
      exact absurd h.symm (Option.some_ne_none _)
    refine ⟨hruns, Nat.le_of_not_lt fun hlt => ?_⟩
    obtain ⟨R, runs, rfl⟩ := List.exists_cons_of_ne_nil hruns
    have hinit : initRuns (R :: runs).flatten memsz ((R :: runs).map List.length) =
        some none := by
      have hpos : (R :: runs).length * runElementSize ≠ 0 := by
        rw [List.length_cons, runElementSize]
        omega
      rw [initRuns, List.length_map, if_neg hpos, Nat.div_eq_of_lt hlt]
      rfl
    rw [cmerge, hinit] at h
    exact absurd (Option.some.inj h).symm (Option.some_ne_none _)
  · rintro ⟨hruns, hmem⟩
    exact ⟨_, _, cmerge_eq hne hruns hmem hfine (Nat.lt_succ_self _)⟩

end

end Archie.Infix
