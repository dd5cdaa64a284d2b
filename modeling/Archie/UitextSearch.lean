/-
A search of a database without index, batch by batch.

* `uitextLoop_spec` — one call returns the next visible strings.
* `searches_uitext` — the batches of a search.
* `uitext_iff` — exactly when the batches are the matching strings.
-/
import Archie.Uitext

namespace Archie

/-! ### Places with their strings -/

/-- Each place with its string. -/
def owned (f : ℕ × List UInt8 → List ℕ) (l : List (ℕ × List UInt8)) :
    List (ℕ × ℕ × List UInt8) :=
  l.flatMap fun e => (f e).map fun i => (i, e)

theorem map_fst_owned (f : ℕ × List UInt8 → List ℕ) (l : List (ℕ × List UInt8)) :
    (owned f l).map Prod.fst = l.flatMap f := by
  rw [owned, List.map_flatMap]
  congr 1
  funext e
  rw [List.map_map]
  exact List.map_id _

theorem mem_owned {f : ℕ × List UInt8 → List ℕ} {l : List (ℕ × List UInt8)}
    {x : ℕ × ℕ × List UInt8} (hx : x ∈ owned f l) : x.2 ∈ l ∧ x.1 ∈ f x.2 := by
  obtain ⟨e, he, hmem⟩ := List.mem_flatMap.mp hx
  obtain ⟨i, hi, rfl⟩ := List.mem_map.mp hmem
  exact ⟨he, hi⟩

/-- Removing duplicates from a run of one value before greater ones. -/
theorem destutter_replicate_append {o : ℕ} {l : List ℕ} (n : ℕ) (hl : ∀ x ∈ l, o < x) :
    (List.replicate (n + 1) o ++ l).destutter (· ≠ ·) = o :: l.destutter (· ≠ ·) := by
  have hrun : ∀ m, (List.replicate m o ++ l).destutter' (· ≠ ·) o = l.destutter' (· ≠ ·) o := by
    intro m
    induction m with
    | zero => rfl
    | succ m ih =>
      rw [List.replicate_succ, List.cons_append, List.destutter'_cons_neg _ (by simp), ih]
  rw [List.replicate_succ, List.cons_append, List.destutter_cons', hrun]
  cases l with
  | nil => rfl
  | cons x l =>
    have hx := hl x List.mem_cons_self
    rw [List.destutter'_cons_pos _ (show o ≠ x by omega), List.destutter_cons']

/-- The first `m` places: they belong to the first `r` strings, and the last of
them to the last of these. -/
theorem take_owned {f : ℕ × List UInt8 → List ℕ} {l : List (ℕ × List UInt8)}
    (hne : ∀ e ∈ l, f e ≠ []) (hsorted : l.Pairwise fun e e' => e.1 < e'.1) (m : ℕ) :
    ∃ r, r ≤ m ∧ r ≤ l.length ∧ (0 < m → l ≠ [] → 0 < r) ∧
      (((owned f l).take m).map fun x => x.2.1).destutter (· ≠ ·) = (l.take r).map Prod.fst ∧
      ((owned f l).take m).getLast?.map Prod.snd = (l.take r).getLast? ∧
      ((∀ e ∈ l, (f e).length = 1) → r = min m l.length) := by
  induction l generalizing m with
  | nil =>
    refine ⟨0, Nat.zero_le _, Nat.zero_le _, fun _ h => absurd rfl h, ?_, ?_, fun _ => ?_⟩
    · simp [owned]
    · simp [owned]
    · simp
  | cons e l ih =>
    rcases Nat.eq_zero_or_pos m with rfl | hm
    · exact ⟨0, le_refl _, Nat.zero_le _, fun h => absurd h (lt_irrefl 0), by simp, by simp,
        fun _ => by simp⟩
    · rw [List.pairwise_cons] at hsorted
      obtain ⟨hfirst, hsorted⟩ := hsorted
      have hpos : 0 < (f e).length := List.length_pos_of_ne_nil (hne e List.mem_cons_self)
      obtain ⟨r, hrm, hrl, -, hdes, hlast, hone⟩ :=
        ih (fun e' he' => hne e' (List.mem_cons_of_mem e he')) hsorted (m - (f e).length)
      have hsplit : (owned f (e :: l)).take m =
          ((f e).take m).map (fun i => (i, e)) ++ (owned f l).take (m - (f e).length) := by
        rw [owned, List.flatMap_cons, List.take_append, List.length_map, List.map_take]
        rfl
      -- the run of the first string
      obtain ⟨k, hk⟩ : ∃ k, ((f e).take m).length = k + 1 := by
        refine ⟨((f e).take m).length - 1, ?_⟩
        rw [List.length_take]
        omega
      have hrun : (((f e).take m).map fun i => ((i, e) : ℕ × ℕ × List UInt8)).map
          (fun x => x.2.1) = List.replicate (k + 1) e.1 := by
        rw [List.map_map, ← hk]
        exact List.eq_replicate_iff.mpr ⟨by rw [List.length_map], fun b hb => by
          obtain ⟨i, -, rfl⟩ := List.mem_map.mp hb
          rfl⟩
      have hgreater : ∀ o ∈ ((owned f l).take (m - (f e).length)).map (fun x => x.2.1),
          e.1 < o := by
        intro o ho
        obtain ⟨x, hx, rfl⟩ := List.mem_map.mp ho
        exact hfirst _ (mem_owned (List.mem_of_mem_take hx)).1
      refine ⟨r + 1, by omega, by rw [List.length_cons]; omega, fun _ _ => Nat.succ_pos r, ?_, ?_,
        fun hall => ?_⟩
      · rw [hsplit, List.map_append, hrun, destutter_replicate_append k hgreater, hdes,
          List.take_succ_cons, List.map_cons]
      · have hlaste : (((f e).take m).map fun i => ((i, e) : ℕ × ℕ × List UInt8)).getLast?.map
            Prod.snd = some e := by
          rw [List.getLast?_map, Option.map_map]
          obtain ⟨i, hi⟩ : ∃ i, ((f e).take m).getLast? = some i := by
            rw [← Option.isSome_iff_exists, List.getLast?_isSome]
            exact List.ne_nil_of_length_pos (by omega)
          rw [hi]
          rfl
        rw [hsplit, List.getLast?_append, List.take_succ_cons, List.getLast?_cons, ← hlast]
        cases hl : ((owned f l).take (m - (f e).length)).getLast? with
        | none => rw [Option.none_or, hlaste, Option.map_none, Option.getD_none]
        | some x => rw [Option.some_or, Option.map_some, Option.getD_some]
      · have he1 := hall e List.mem_cons_self
        rw [hone fun e' he' => hall e' (List.mem_cons_of_mem e he'), List.length_cons, he1]
        omega

/-! ### What is visible from a state -/

/-- The strings that are found from a state on. -/
def visible (adj : ℕ) (matched : List (ℕ × List UInt8)) (u : ℕ) : List (ℕ × List UInt8) :=
  matched.filter fun e => u + adj ≤ e.1

/-- No string of the list has the state inside it. -/
def Clear (matched : List (ℕ × List UInt8)) (u : ℕ) : Prop :=
  ∀ e ∈ matched, u ≤ e.1 ∨ e.1 + e.2.length < u

/-- What is visible after `b` of the strings are returned. -/
def afterBatch (adj : ℕ) (l : List (ℕ × List UInt8)) (b : ℕ) : List (ℕ × List UInt8) :=
  match (l.take b).getLast? with
  | none => l
  | some e => (l.drop b).filter fun e' => e.1 + e.2.length + 1 + adj ≤ e'.1

/-- The batches of a search, for what is visible at its begin. -/
def visibleBatches (adj : ℕ) : List (ℕ × List UInt8) → List ℕ → List (List (ℕ × List UInt8))
  | _, [] => []
  | l, b :: bs => l.take b :: visibleBatches adj (afterBatch adj l b) bs

theorem afterBatch_nil (adj b : ℕ) : afterBatch adj [] b = [] := by
  rw [afterBatch, List.take_nil]
  rfl

theorem afterBatch_zero (adj : ℕ) (l : List (ℕ × List UInt8)) : afterBatch adj l 0 = l := by
  rw [afterBatch, List.take_zero]
  rfl

theorem le_of_mem_placesIn {fold : UInt8 → UInt8} {key text : List UInt8} {adj i : ℕ}
    {e : ℕ × List UInt8} (hi : i ∈ placesIn fold key text adj e) : e.1 ≤ i + adj := by
  have hle := (List.mem_range'_1.mp (List.mem_of_mem_filter hi)).1
  omega

theorem clear_zero (matched : List (ℕ × List UInt8)) : Clear matched 0 :=
  fun _ _ => .inl (Nat.zero_le _)

/-- Without a separator before the key nothing is skipped. -/
theorem afterBatch_of_gap {l : List (ℕ × List UInt8)}
    (hgap : l.Pairwise fun e e' => e.1 + e.2.length + 1 ≤ e'.1) (b : ℕ) :
    afterBatch 0 l b = l.drop b := by
  cases hlast : (l.take b).getLast? with
  | none =>
    rw [afterBatch, hlast]
    rcases List.take_eq_nil_iff.mp (List.getLast?_eq_none_iff.mp hlast) with rfl | rfl
    · rfl
    · rw [List.drop_nil]
  | some e =>
    obtain ⟨init, hinit⟩ := List.getLast?_eq_some_iff.mp hlast
    rw [afterBatch, hlast]
    refine List.filter_eq_self.mpr fun x hx => decide_eq_true ?_
    rw [← List.take_append_drop b l, hinit, List.pairwise_append] at hgap
    exact hgap.2.2 e (List.mem_append_right _ List.mem_cons_self) x hx

section Places

variable {fold : UInt8 → UInt8} {key text : List UInt8} {adj : ℕ}
  {matched : List (ℕ × List UInt8)} (hP : Places fold key text adj matched)

include hP

theorem Places.sorted : matched.Pairwise fun e e' => e.1 < e'.1 :=
  hP.gap.imp fun h => by omega

theorem Places.end_lt {e : ℕ × List UInt8} (he : e ∈ matched) :
    e.1 + e.2.length < text.length :=
  (List.getElem?_eq_some_iff.mp (hP.storedAt e he).after).1

/-- The state after a string is clear. -/
theorem Places.clear {e : ℕ × List UInt8} (he : e ∈ matched) :
    Clear matched (e.1 + e.2.length + 1) := by
  obtain ⟨l₁, l₂, hl⟩ := List.append_of_mem he
  have hgap := hP.gap
  rw [hl, List.pairwise_append, List.pairwise_cons] at hgap
  obtain ⟨-, ⟨hafter, -⟩, hbefore⟩ := hgap
  intro e' he'
  rw [hl, List.mem_append, List.mem_cons] at he'
  rcases he' with he' | rfl | he'
  · have hle := hbefore e' he' e List.mem_cons_self
    exact .inr (by omega)
  · exact .inr (Nat.lt_succ_self _)
  · exact .inl (hafter e' he')

/-- From a clear state the places are those in the visible strings. -/
theorem Places.placesFrom_eq {u : ℕ} (hclear : Clear matched u) (hu : u ≤ text.length) :
    placesFrom fold key text u =
      (visible adj matched u).flatMap (placesIn fold key text adj) := by
  rw [placesFrom_eq_filter hu, hP.places, visible]
  refine filter_flatMap_of fun e he i hi => decide_eq_decide.mpr ?_
  have hle := le_of_mem_placesIn hi
  have hin := hP.inside e he i hi
  have hadj := hP.adj_le
  rcases hclear e he with hbefore | hbehind
  · constructor
    · intro hui
      rcases Nat.eq_zero_or_pos adj with rfl | hpos
      · omega
      · obtain rfl : adj = 1 := by omega
        rw [hP.single rfl e he, List.mem_singleton] at hi
        have hpos := (hP.storedAt e he).pos
        omega
    · omega
  · omega

/-- After a visible string, those remain that are far enough behind it. -/
theorem Places.visible_next {u b : ℕ} {e : ℕ × List UInt8}
    (hlast : ((visible adj matched u).take b).getLast? = some e) :
    visible adj matched (e.1 + e.2.length + 1) = afterBatch adj (visible adj matched u) b := by
  obtain ⟨init, hinit⟩ := List.getLast?_eq_some_iff.mp hlast
  have hmem : e ∈ visible adj matched u :=
    List.mem_of_mem_take (List.mem_of_getLast? hlast)
  have hue : u + adj ≤ e.1 := decide_eq_true_iff.mp (List.mem_filter.mp hmem).2
  have hall : visible adj matched (e.1 + e.2.length + 1) =
      (visible adj matched u).filter fun e' => e.1 + e.2.length + 1 + adj ≤ e'.1 := by
    rw [visible, visible, List.filter_filter]
    refine List.filter_congr fun e' _ => ?_
    rw [← Bool.decide_and]
    exact decide_eq_decide.mpr ⟨fun h => ⟨h, by omega⟩, fun h => h.1⟩
  have hnone : ((visible adj matched u).take b).filter
      (fun e' => e.1 + e.2.length + 1 + adj ≤ e'.1) = [] := by
    have hgap : ((visible adj matched u).take b).Pairwise
        fun e e' => e.1 + e.2.length + 1 ≤ e'.1 :=
      (hP.gap.sublist List.filter_sublist).sublist (List.take_sublist _ _)
    rw [hinit, List.pairwise_append] at hgap
    refine List.filter_eq_nil_iff.mpr fun e' he' => ?_
    rw [hinit, List.mem_append, List.mem_singleton] at he'
    rw [decide_eq_true_iff]
    rcases he' with he' | rfl
    · have hle := hgap.2.2 e' he' e List.mem_cons_self
      omega
    · omega
  rw [hall, afterBatch, hlast]
  conv_lhs => rw [← List.take_append_drop b (visible adj matched u)]
  rw [List.filter_append, hnone, List.nil_append]

/-- A batch in two parts: the second begins with what is visible after the first. -/
theorem afterBatch_add {u m r : ℕ} {e : ℕ × List UInt8}
    (hlast : ((visible adj matched u).take r).getLast? = some e) (hrm : r ≤ m)
    (hrl : r ≤ (visible adj matched u).length)
    (hone : adj = 1 → r = min m (visible adj matched u).length) :
    (visible adj matched u).take m =
        (visible adj matched u).take r ++
          (afterBatch adj (visible adj matched u) r).take (m - r) ∧
      afterBatch adj (afterBatch adj (visible adj matched u) r) (m - r) =
        afterBatch adj (visible adj matched u) m := by
  obtain ⟨k, rfl⟩ : ∃ k, m = r + k := ⟨m - r, by omega⟩
  rw [Nat.add_sub_cancel_left]
  by_cases hall : r = (visible adj matched u).length ∨ k = 0
  · rcases hall with hall | rfl
    · -- the strings are used up
      have hdrop : ∀ n, (visible adj matched u).drop (r + n) = [] := fun n =>
        List.drop_eq_nil_of_le (by omega)
      have htake : (visible adj matched u).take (r + k) = (visible adj matched u).take r := by
        rw [List.take_of_length_le (by omega), List.take_of_length_le (by omega)]
      have hnil : afterBatch adj (visible adj matched u) r = [] := by
        rw [afterBatch, hlast]
        exact (congrArg (List.filter _) (hdrop 0)).trans List.filter_nil
      rw [hnil, List.take_nil, List.append_nil, afterBatch_nil, afterBatch, htake, hlast]
      exact ⟨rfl, ((congrArg (List.filter _) (hdrop k)).trans List.filter_nil).symm⟩
    · rw [Nat.add_zero, List.take_zero, List.append_nil, afterBatch_zero]
      exact ⟨rfl, rfl⟩
  · -- more than one turn: the key has no separator, and nothing is skipped
    obtain rfl : adj = 0 := by
      have hadj := hP.adj_le
      omega
    have hgap : (visible 0 matched u).Pairwise fun e e' => e.1 + e.2.length + 1 ≤ e'.1 :=
      hP.gap.sublist List.filter_sublist
    rw [afterBatch_of_gap hgap, afterBatch_of_gap (hgap.sublist (List.drop_sublist _ _)),
      afterBatch_of_gap hgap, List.drop_drop]
    exact ⟨List.take_add, rfl⟩

/-! ### One call -/

variable {calls : Calls} (hscan : ScansAll calls)

include hscan

/-- What the scan returns from a clear state. -/
theorem Places.scan_eq {s : Sens} (hs : s.fold = fold) {u : ℕ} (hclear : Clear matched u)
    (hu : u ≤ text.length) (m : ℕ) :
    (calls.scan s (text.drop u) key m).map (u + ·) =
      ((owned (placesIn fold key text adj) (visible adj matched u)).take m).map Prod.fst := by
  rw [hscan, hs, List.map_take, map_occurrences_drop, List.map_take, map_fst_owned,
    hP.placesFrom_eq hclear hu]

/-- A turn of the loop returns the next strings. -/
theorem uitextLoop_step {s : Sens} (hs : s.fold = fold) {h : StridxHandle} (hsplit : h.split = 1)
    (hclear : Clear matched h.uState) (hu : h.uState ≤ text.length) {tot maxhits : ℕ}
    {start : List ℕ} (htot : tot < maxhits) (hlen : maxhits ≤ start.length)
    (hne : visible adj matched h.uState ≠ []) (fuel : ℕ) :
    ∃ r start' e, 0 < r ∧ r ≤ maxhits - tot ∧ r ≤ (visible adj matched h.uState).length ∧
      ((visible adj matched h.uState).take r).getLast? = some e ∧
      (adj = 1 → r = min (maxhits - tot) (visible adj matched h.uState).length) ∧
      start'.length = start.length ∧
      start'.take (tot + r) =
        start.take tot ++ ((visible adj matched h.uState).take r).map Prod.fst ∧
      uitextLoop calls s text key adj maxhits (fuel + 1) h tot start =
        uitextLoop calls s text key adj maxhits fuel
          { h with uState := e.1 + e.2.length + 1 } (tot + r) start' := by
  have hsub : ∀ e ∈ visible adj matched h.uState, e ∈ matched := fun e he =>
    List.mem_of_mem_filter he
  obtain ⟨r, hrm, hrl, hrpos, hdes, hlast, hone⟩ :=
    take_owned (f := placesIn fold key text adj) (l := visible adj matched h.uState)
      (fun e he => hP.ne_nil e (hsub e he)) (hP.sorted.sublist List.filter_sublist)
      (maxhits - tot)
  have hrpos := hrpos (by omega) hne
  have hscanned := hP.scan_eq hscan hs hclear hu (maxhits - tot)
  obtain ⟨e, he⟩ : ∃ e, ((visible adj matched h.uState).take r).getLast? = some e := by
    rw [← Option.isSome_iff_exists, List.getLast?_isSome]
    refine List.ne_nil_of_length_pos ?_
    rw [List.length_take]
    omega
  rw [he] at hlast
  obtain ⟨x, hx, hxe⟩ := Option.map_eq_some_iff.mp hlast
  have hxmem := mem_owned (List.mem_of_mem_take (List.mem_of_getLast? hx))
  rw [hxe] at hxmem
  obtain ⟨hemem, hxin⟩ := hxmem
  -- the last hit, and the separator behind its string
  obtain ⟨last, hlasthit, hlastx⟩ : ∃ last,
      (calls.scan s (text.drop h.uState) key (maxhits - tot)).getLast? = some last ∧
        h.uState + last = x.1 := by
    have hmap := congrArg List.getLast? hscanned
    rw [List.getLast?_map, List.getLast?_map, hx, Option.map_some] at hmap
    exact Option.map_eq_some_iff.mp hmap
  have hnext : nextSep text (h.uState + last + 1) = some (e.1 + e.2.length) := by
    have hle := le_of_mem_placesIn hxin
    have hin := hP.inside e (hsub e hemem) x.1 hxin
    have hadj := hP.adj_le
    exact (hP.storedAt e (hsub e hemem)).nextSep (by omega) (by omega)
  -- the hits become starts of strings
  have hfixed : ((calls.scan s (text.drop h.uState) key (maxhits - tot)).map
      (· + (h.uState + adj))).mapM (uiFixOneStart text) =
      some (((owned (placesIn fold key text adj) (visible adj matched h.uState)).take
        (maxhits - tot)).map fun x => x.2.1) := by
    have hmap : (calls.scan s (text.drop h.uState) key (maxhits - tot)).map
        (· + (h.uState + adj)) =
        ((owned (placesIn fold key text adj) (visible adj matched h.uState)).take
          (maxhits - tot)).map (fun x => x.1 + adj) := by
      rw [show (fun x : ℕ × ℕ × List UInt8 => x.1 + adj) = (· + adj) ∘ Prod.fst from rfl,
        ← List.map_map, ← hscanned, List.map_map]
      refine List.map_congr_left fun i _ => ?_
      rw [Function.comp_apply]
      omega
    rw [hmap, List.mapM_map, mapM_eq_some_map]
    intro y hy
    obtain ⟨hymem, hyin⟩ := mem_owned (List.mem_of_mem_take hy)
    have hy := hP.storedAt y.2 (hsub _ hymem)
    have hle := le_of_mem_placesIn hyin
    have hpos := hy.pos
    rw [Function.comp_apply, uiFixOneStart,
      hy.prevSep (by omega) (hP.inside _ (hsub _ hymem) _ hyin), Option.map_some,
      Nat.sub_add_cancel hpos]
  have hhits : calls.scan s (text.drop h.uState) key (maxhits - tot) ≠ [] := by
    intro hnil
    rw [hnil] at hlasthit
    contradiction
  generalize hfl : ((owned (placesIn fold key text adj) (visible adj matched h.uState)).take
    (maxhits - tot)).map (fun x => x.2.1) = fl at hdes hfixed
  have hlenfl : fl.length ≤ maxhits - tot := by
    rw [← hfl, List.length_map]
    exact List.length_take_le _ _
  have hcount : (removeDuplicates fl).2 = r := by
    rw [removeDuplicates, hdes, List.length_map, List.length_take]
    omega
  have hfront := take_removeDuplicates fl
  rw [hcount, hdes] at hfront
  have hlenall := length_removeDuplicates fl
  refine ⟨r, writeStarts start tot (((removeDuplicates fl).1.take r).map (· + (h.split - 1)) ++
    (removeDuplicates fl).1.drop r), e, hrpos, hrm, hrl, he, fun hadj => hone fun e he => ?_,
    length_writeStarts ?_, ?_, ?_⟩
  · rw [hP.single hadj e (hsub e he), List.length_singleton]
  · rw [List.length_append, List.length_map, List.length_take, List.length_drop]
    omega
  · have hmapped : ((removeDuplicates fl).1.take r).map (· + (h.split - 1)) =
        ((visible adj matched h.uState).take r).map Prod.fst := by
      rw [hfront, hsplit]
      exact List.map_id _
    have hlenr : (((visible adj matched h.uState).take r).map Prod.fst).length = r := by
      rw [List.length_map, List.length_take]
      omega
    rw [hmapped, take_writeStarts (by omega) (by rw [List.length_append]; omega),
      List.take_append_of_le_length (le_of_eq hlenr.symm),
      List.take_of_length_le (le_of_eq hlenr)]
  · rw [uitextLoop, if_pos htot]
    simp only [if_neg hhits, hlasthit, hnext, hfixed, Option.bind_eq_bind, Option.bind_some, hcount]

/-- **One call returns the next visible strings**, as many as asked for. -/
theorem uitextLoop_spec {s : Sens} (hs : s.fold = fold) {fuel : ℕ} {h : StridxHandle}
    (hsplit : h.split = 1) (hclear : Clear matched h.uState) (hu : h.uState ≤ text.length)
    (hfuel : text.length - h.uState < fuel) {tot maxhits : ℕ} {start : List ℕ}
    (htot : tot ≤ maxhits) (hlen : maxhits ≤ start.length) :
    ∃ u start', uitextLoop calls s text key adj maxhits fuel h tot start =
        some ({ h with uState := u },
          tot + min (maxhits - tot) (visible adj matched h.uState).length, start') ∧
      start'.length = start.length ∧
      start'.take (tot + min (maxhits - tot) (visible adj matched h.uState).length) =
        start.take tot ++ ((visible adj matched h.uState).take (maxhits - tot)).map Prod.fst ∧
      Clear matched u ∧ u ≤ text.length ∧
      visible adj matched u = afterBatch adj (visible adj matched h.uState) (maxhits - tot) := by
  induction fuel generalizing h tot start with
  | zero => omega
  | succ fuel ih =>
    rcases Nat.lt_or_ge tot maxhits with hlt | hge
    · by_cases hne : visible adj matched h.uState = []
      · -- nothing is left
        have hhits : calls.scan s (text.drop h.uState) key (maxhits - tot) = [] := by
          have hscanned := hP.scan_eq hscan hs hclear hu (maxhits - tot)
          rw [hne] at hscanned
          exact List.map_eq_nil_iff.mp (hscanned.trans (by rw [owned, List.flatMap_nil,
            List.take_nil, List.map_nil]))
        refine ⟨h.uState, start, ?_, rfl, ?_, hclear, hu, ?_⟩
        · rw [uitextLoop, if_pos hlt]
          simp only [hhits, if_true, hne, List.length_nil, Nat.min_zero, Nat.add_zero]
        · rw [hne, List.length_nil, Nat.min_zero, Nat.add_zero, List.take_nil, List.map_nil,
            List.append_nil]
        · rw [hne, afterBatch_nil]
      · obtain ⟨r, start₁, e, hr, hrm, hrl, hlast, hone, hlen₁, htake₁, hstep⟩ :=
          uitextLoop_step hP hscan hs hsplit hclear hu hlt hlen hne fuel
        have hmem : e ∈ matched :=
          List.mem_of_mem_filter (List.mem_of_mem_take (List.mem_of_getLast? hlast))
        have hue : h.uState + adj ≤ e.1 := decide_eq_true_iff.mp
          (List.mem_filter.mp (List.mem_of_mem_take (List.mem_of_getLast? hlast))).2
        have hend := hP.end_lt hmem
        have hnext := hP.visible_next hlast
        obtain ⟨u, start', hrun, hlen', htake', hclear', hu', hvis⟩ :=
          ih (h := { h with uState := e.1 + e.2.length + 1 }) hsplit (hP.clear hmem) hend
            (by simp only; omega) (show tot + r ≤ maxhits by omega)
            (show maxhits ≤ start₁.length by omega)
        simp only [hnext] at hrun htake' hvis
        -- the rest of the call, put after this turn
        obtain ⟨hfront, hafter⟩ := afterBatch_add hP hlast hrm hrl hone
        have hcount : tot + r + min (maxhits - (tot + r))
            (afterBatch adj (visible adj matched h.uState) r).length =
            tot + min (maxhits - tot) (visible adj matched h.uState).length := by
          have hl := congrArg List.length hfront
          rw [List.length_append, List.length_take, List.length_take, List.length_take] at hl
          rw [show maxhits - (tot + r) = maxhits - tot - r by omega]
          omega
        rw [hcount] at hrun htake'
        refine ⟨u, start', hstep.trans hrun, hlen'.trans hlen₁, ?_, hclear', hu', ?_⟩
        · rw [htake', htake₁, List.append_assoc, ← List.map_append,
            show maxhits - (tot + r) = maxhits - tot - r by omega, ← hfront]
        · rw [hvis, show maxhits - (tot + r) = maxhits - tot - r by omega, hafter]
    · obtain rfl : tot = maxhits := by omega
      refine ⟨h.uState, start, ?_, rfl, ?_, hclear, hu, ?_⟩
      · rw [uitextLoop, if_neg (lt_irrefl _), Nat.sub_self, Nat.zero_min, Nat.add_zero]
      · rw [Nat.sub_self, Nat.zero_min, Nat.add_zero, List.take_zero, List.map_nil,
          List.append_nil]
      · rw [Nat.sub_self, afterBatch_zero]

/-- `uitext_sub_search` returns the next visible strings. -/
theorem uitextSubSearch_spec {s : Sens} (hs : s.fold = fold) {h : StridxHandle}
    (hsplit : h.split = 1) (hsens : h.caseAccentSens = s.code)
    (hclear : Clear matched h.uState) (hu : h.uState ≤ text.length) {maxhits : ℕ}
    {start : List ℕ} (hlen : maxhits ≤ start.length) :
    ∃ u start', uitextSubSearch calls h text key adj maxhits start =
        some ({ h with uState := u }, min maxhits (visible adj matched h.uState).length, start') ∧
      start'.take (min maxhits (visible adj matched h.uState).length) =
        ((visible adj matched h.uState).take maxhits).map Prod.fst ∧
      Clear matched u ∧ u ≤ text.length ∧
      visible adj matched u = afterBatch adj (visible adj matched h.uState) maxhits := by
  by_cases hend : h.uState ≥ text.length - 1
  · -- at the end of the text nothing is visible
    have hnil : visible adj matched h.uState = [] := by
      refine List.filter_eq_nil_iff.mpr fun e he => ?_
      obtain ⟨i, hi⟩ := List.exists_mem_of_ne_nil _ (hP.ne_nil e he)
      have hle := le_of_mem_placesIn hi
      have hin := hP.inside e he i hi
      have hlt := hP.end_lt he
      rw [decide_eq_true_iff]
      omega
    refine ⟨h.uState, start, ?_, ?_, hclear, hu, ?_⟩
    · rw [uitextSubSearch, if_pos hend, hnil, List.length_nil, Nat.min_zero]
    · rw [hnil, List.length_nil, Nat.min_zero, List.take_nil]
      rfl
    · rw [hnil, afterBatch_nil]
  · obtain ⟨u, start', hrun, -, htake, hclear', hu', hvis⟩ :=
      uitextLoop_spec hP hscan hs hsplit hclear hu
        (show text.length - h.uState < text.length + 1 by omega)
        (Nat.zero_le maxhits) hlen
    rw [Nat.sub_zero, Nat.zero_add] at htake
    rw [Nat.sub_zero, Nat.zero_add] at hrun
    rw [Nat.sub_zero] at hvis
    refine ⟨u, start', ?_, by rw [htake, List.take_zero, List.nil_append], hclear', hu', hvis⟩
    have hcode : sensOfCode h.caseAccentSens = some s := by rw [hsens, sensOfCode_code]
    rw [uitextSubSearch, if_neg hend, hcode]
    exact hrun

end Places

/-! ### The batches of a search -/

/-- The number of separators before the key for the unindexed text. -/
def uiAdj (idxType : IndexType) (srchType : SrchType) : ℕ :=
  if srchType = .substr ∧ idxType = .chars then 0 else 1

/-- Where the key for the unindexed text is found. -/
theorem makeSearchKeys_places {ss : List (List UInt8)} (hss : ∀ s ∈ ss, keysepCh ∉ s)
    {key : List UInt8} (hkey : key ≠ []) (hsep : keysepCh ∉ key) (s : Sens) {h : StridxHandle}
    (hkind : h.srchType = .exact ∨ h.srchType = .substr) :
    ∃ keys, makeSearchKeys h key = some keys ∧ keys.uAdj = uiAdj h.idxType h.srchType ∧
      Places s.fold keys.uiKey (stringsFile ss) keys.uAdj
        (matching h.idxType h.srchType s.fold key ss) := by
  have hfold := sepOnly_fold s
  have hexact : ∀ x post, keysepCh ∉ x →
      keyMatchesWith s.fold (key ++ [keysepCh]) (x ++ keysepCh :: post) =
        decide (key.map s.fold = x.map s.fold) := fun x post hx =>
    keyMatchesWith_exact hfold hsep hx post
  have hprefix : ∀ x post, keysepCh ∉ x →
      keyMatchesWith s.fold (key ++ []) (x ++ keysepCh :: post) =
        decide (key.map s.fold <+: x.map s.fold) := by
    intro x post _
    rw [List.append_nil, keyMatchesWith_string hfold hsep]
    exact Bool.eq_iff_iff.mpr (keyMatchesWith_iff.trans decide_eq_true_iff.symm)
  rcases hkind with hkind | hkind
  · rw [makeSearchKeys, hkind]
    refine ⟨_, rfl, rfl, ?_⟩
    have hplaces := places_sep hfold hkey hsep hss hexact (by simp [hkey])
    cases h.idxType <;> exact hplaces
  · rw [makeSearchKeys, hkind]
    cases hidx : h.idxType with
    | chars => exact ⟨_, rfl, rfl, places_substring hfold hkey hsep hss⟩
    | words =>
      refine ⟨_, rfl, rfl, ?_⟩
      have hplaces := places_sep hfold hkey hsep hss hprefix (by simp [hkey])
      rw [List.append_nil] at hplaces
      exact hplaces

/-- A search in a database without index, between two calls. -/
structure UiSearch (ss : List (List UInt8)) (key : List UInt8) (s : Sens) (h : StridxHandle) :
    Prop where
  uiText : h.uiText = some (stringsFile ss)
  split : h.split = 1
  cf : h.cf = none
  keyEq : h.key = some key
  srchType : h.srchType = .exact ∨ h.srchType = .substr
  sens : h.caseAccentSens = s.code
  clear : Clear (matching h.idxType h.srchType s.fold key ss) h.uState
  le : h.uState ≤ (stringsFile ss).length

section Search

variable {calls : Calls} (hscan : ScansAll calls) {ss : List (List UInt8)}
  (hss : ∀ s ∈ ss, keysepCh ∉ s) {key : List UInt8} (hkey : key ≠ []) (hsep : keysepCh ∉ key)
  {s : Sens}

include hscan hss hkey hsep

/-- One call of a search in the unindexed text. -/
theorem searchUitext_spec {h : StridxHandle} (hh : UiSearch ss key s h) (a : List ℕ) :
    ∃ keys u n start', makeSearchKeys h key = some keys ∧
      searchUitext calls h keys a.length a = some ({ h with uState := u }, n, start') ∧
      UiSearch ss key s { h with uState := u } ∧
      start'.take n = ((visible (uiAdj h.idxType h.srchType)
        (matching h.idxType h.srchType s.fold key ss) h.uState).take a.length).map Prod.fst ∧
      visible (uiAdj h.idxType h.srchType) (matching h.idxType h.srchType s.fold key ss) u =
        afterBatch (uiAdj h.idxType h.srchType) (visible (uiAdj h.idxType h.srchType)
          (matching h.idxType h.srchType s.fold key ss) h.uState) a.length := by
  obtain ⟨keys, hkeys, hadj, hP⟩ := makeSearchKeys_places hss hkey hsep s hh.srchType
  obtain ⟨u, start', hrun, htake, hclear, hu, hvis⟩ :=
    uitextSubSearch_spec hP hscan rfl hh.split hh.sens hh.clear hh.le (le_refl a.length)
  rw [hadj] at htake hvis hrun
  refine ⟨keys, u, _, start', hkeys, ?_,
    ⟨hh.uiText, hh.split, hh.cf, hh.keyEq, hh.srchType, hh.sens, hclear, hu⟩, htake, hvis⟩
  have htext : searchUitext calls h keys a.length a =
      uitextSubSearch calls h (stringsFile ss) keys.uiKey keys.uAdj a.length a := by
    rw [searchUitext, hh.uiText]
  rw [htext, hadj]
  exact hrun

theorem moreSearches_uitext {h : StridxHandle} (hh : UiSearch ss key s h)
    {arrays : List (List ℕ)} (harrays : ∀ a ∈ arrays, a ≠ []) :
    moreSearches calls arrays h = some ((visibleBatches (uiAdj h.idxType h.srchType)
      (visible (uiAdj h.idxType h.srchType) (matching h.idxType h.srchType s.fold key ss) h.uState)
      (arrays.map List.length)).map (List.map Prod.fst)) := by
  induction arrays generalizing h with
  | nil => rfl
  | cons a arrays ih =>
    obtain ⟨keys, u, n, start', hkeys, hrun, hh', htake, hvis⟩ :=
      searchUitext_spec hscan hss hkey hsep hh a
    have hregex : h.srchType ≠ .regex := by
      rcases hh.srchType with hk | hk <;> rw [hk] <;> exact SrchType.noConfusion
    have hlen : a.length ≠ 0 := fun h =>
      harrays a List.mem_cons_self (List.length_eq_zero_iff.mp h)
    have hcall : archGetMoreMatches calls h a.length a =
        some ({ h with uState := u }, n, start') := by
      rw [archGetMoreMatches, getMoreMatches, if_neg hlen, if_neg hregex]
      simp only [hh.keyEq, hkeys, hrun, hh.cf, Option.bind_eq_bind, Option.bind_some]
    have hrest := ih hh' fun b hb => harrays b (List.mem_cons_of_mem a hb)
    simp only [hvis] at hrest
    rw [moreSearches, hcall, Option.bind_eq_bind, Option.bind_some, hrest]
    simp only [Option.bind_eq_bind, Option.bind_some, hitsOf, htake, List.map_cons, visibleBatches]

/-- The batches of a search in a database without index. -/
theorem searches_uitext {h : StridxHandle} (hui : h.uiText = some (stringsFile ss))
    (hsplit : h.split = 1) (hcf : h.cf = none) {kind : SrchType}
    (hkind : kind = .exact ∨ kind = .substr) {a : List ℕ} {arrays : List (List ℕ)}
    (harrays : ∀ b ∈ arrays, b ≠ []) :
    searches calls kind h key s.code a arrays = some ((visibleBatches (uiAdj h.idxType kind)
      (matching h.idxType kind s.fold key ss)
      ((a :: arrays).map List.length)).map (List.map Prod.fst)) := by
  have hh : UiSearch ss key s (saveSearchState key s.code kind h) :=
    ⟨hui, hsplit, hcf, rfl, hkind, rfl, clear_zero _, Nat.zero_le _⟩
  obtain ⟨keys, u, n, start', hkeys, hrun, hh', htake, hvis⟩ :=
    searchUitext_spec hscan hss hkey hsep hh a
  have hall : visible (uiAdj h.idxType kind) (matching h.idxType kind s.fold key ss) 0 =
      matching h.idxType kind s.fold key ss := by
    refine List.filter_eq_self.mpr fun e he => decide_eq_true ?_
    have hle := le_of_mem_stored (List.mem_of_mem_filter he)
    rw [uiAdj]
    split <;> omega
  have hfirst : subSearch calls (saveSearchState key s.code kind h) key a.length a =
      some ({ saveSearchState key s.code kind h with uState := u }, n, start') := by
    rw [subSearch, if_neg hkey]
    simp only [hkeys, hrun, Option.bind_eq_bind, Option.bind_some]
    split
    · rfl
    · rw [show (saveSearchState key s.code kind h).cf = none from hcf]
  have hrest := moreSearches_uitext hscan hss hkey hsep hh' harrays
  simp only [hvis] at hrest
  rw [searches, hfirst, Option.bind_eq_bind, Option.bind_some, hrest]
  simp only [Option.bind_eq_bind, Option.bind_some, hitsOf, htake, List.map_cons, visibleBatches]
  rw [show (saveSearchState key s.code kind h).uState = 0 from rfl]
  simp only [show (saveSearchState key s.code kind h).idxType = h.idxType from rfl,
    show (saveSearchState key s.code kind h).srchType = kind from rfl, hall]

end Search

/-! ### When the batches are the matching strings -/

/-- No batch but the last ends with a string right before which the next string of
the list begins: the two do not share a separator. -/
def Apart (l : List (ℕ × List UInt8)) (sizes : List ℕ) : Prop :=
  ∀ sizes₁ sizes₂, sizes = sizes₁ ++ sizes₂ → sizes₁ ≠ [] → sizes₂ ≠ [] →
    ∀ e e', l[sizes₁.sum - 1]? = some e → l[sizes₁.sum]? = some e' →
      e'.1 ≠ e.1 + e.2.length + 1

theorem apart_cons {l : List (ℕ × List UInt8)} {b : ℕ} (hb : 0 < b) {bs : List ℕ}
    (hbs : bs ≠ []) (hpos : ∀ c ∈ bs, 0 < c) :
    Apart l (b :: bs) ↔
      (∀ e e', l[b - 1]? = some e → l[b]? = some e' → e'.1 ≠ e.1 + e.2.length + 1) ∧
        Apart (l.drop b) bs := by
  constructor
  · intro h
    refine ⟨?_, fun s₁ s₂ hs hs₁ hs₂ e e' he he' => ?_⟩
    · have hone := h [b] bs rfl (List.cons_ne_nil _ _) hbs
      rw [List.sum_singleton] at hone
      exact hone
    · have hsum : 0 < s₁.sum := by
        obtain ⟨c, s₁, rfl⟩ := List.exists_cons_of_ne_nil hs₁
        have hc := hpos c (by rw [hs]; exact List.mem_append_left _ List.mem_cons_self)
        rw [List.sum_cons]
        omega
      refine h (b :: s₁) s₂ (by rw [hs]; rfl) (List.cons_ne_nil _ _) hs₂ e e' ?_ ?_
      · rw [List.getElem?_drop] at he
        rw [List.sum_cons, ← he]
        congr 1
        omega
      · rw [List.getElem?_drop] at he'
        rw [List.sum_cons, he']
  · rintro ⟨hfirst, hrest⟩ s₁ s₂ hs hs₁ hs₂ e e' he he'
    obtain ⟨c, s₁, rfl⟩ := List.exists_cons_of_ne_nil hs₁
    rw [List.cons_append, List.cons.injEq] at hs
    obtain ⟨rfl, hs⟩ := hs
    by_cases hnil : s₁ = []
    · rw [hnil, List.sum_singleton] at he he'
      exact hfirst e e' he he'
    · have hsum : 0 < s₁.sum := by
        obtain ⟨c, s₁, rfl⟩ := List.exists_cons_of_ne_nil hnil
        have hc := hpos c (by rw [hs]; exact List.mem_append_left _ List.mem_cons_self)
        rw [List.sum_cons]
        omega
      refine hrest s₁ s₂ hs hnil hs₂ e e' ?_ ?_
      · rw [List.getElem?_drop, ← he, List.sum_cons]
        congr 1
        omega
      · rw [List.getElem?_drop, ← he', List.sum_cons]

theorem mem_of_mem_visibleBatches {adj : ℕ} {sizes : List ℕ} {l : List (ℕ × List UInt8)}
    {x : ℕ × List UInt8} (hx : x ∈ (visibleBatches adj l sizes).flatten) : x ∈ l := by
  induction sizes generalizing l with
  | nil => exact absurd hx List.not_mem_nil
  | cons b bs ih =>
    rw [visibleBatches, List.flatten_cons, List.mem_append] at hx
    rcases hx with hx | hx
    · exact List.mem_of_mem_take hx
    · have hmem := ih hx
      rw [afterBatch] at hmem
      cases hlast : (l.take b).getLast? with
      | none =>
        rw [hlast] at hmem
        exact hmem
      | some e =>
        rw [hlast] at hmem
        exact List.mem_of_mem_drop (List.mem_of_mem_filter hmem)

/-- Without a separator before the key the batches are the front of the list. -/
theorem flatten_visibleBatches_zero {l : List (ℕ × List UInt8)}
    (hgap : l.Pairwise fun e e' => e.1 + e.2.length + 1 ≤ e'.1) (sizes : List ℕ) :
    (visibleBatches 0 l sizes).flatten = l.take sizes.sum := by
  induction sizes generalizing l with
  | nil => rw [visibleBatches, List.flatten_nil, List.sum_nil, List.take_zero]
  | cons b bs ih =>
    rw [visibleBatches, List.flatten_cons, afterBatch_of_gap hgap,
      ih (hgap.sublist (List.drop_sublist _ _)), List.sum_cons, List.take_add]

/-- After a batch, the next string is visible unless it follows immediately. -/
theorem afterBatch_one {l : List (ℕ × List UInt8)}
    (hgap : l.Pairwise fun e e' => e.1 + e.2.length + 1 ≤ e'.1) {b : ℕ}
    (happart : ∀ e e', l[b - 1]? = some e → l[b]? = some e' →
      e'.1 ≠ e.1 + e.2.length + 1) : afterBatch 1 l b = l.drop b := by
  rw [← afterBatch_of_gap hgap b, afterBatch, afterBatch]
  cases hlast : (l.take b).getLast? with
  | none => rfl
  | some e =>
    refine List.filter_congr fun x hx => decide_eq_decide.mpr ⟨fun h => by omega, fun h => ?_⟩
    have hb : b < l.length := by
      have hlt := List.length_pos_of_mem hx
      rw [List.length_drop] at hlt
      omega
    have hb0 : 0 < b := by
      rcases Nat.eq_zero_or_pos b with rfl | h
      · rw [List.take_zero] at hlast
        contradiction
      · exact h
    have he : l[b - 1]? = some e := by
      rw [List.getLast?_eq_getElem?, List.length_take, min_eq_left (by omega),
        List.getElem?_take_of_lt (by omega)] at hlast
      exact hlast
    obtain ⟨i, hi⟩ := List.mem_iff_getElem?.mp hx
    rw [List.getElem?_drop] at hi
    rcases Nat.eq_zero_or_pos i with rfl | hipos
    · have hne := happart e x he hi
      omega
    · -- a later string is behind the next one
      obtain ⟨hlt, hget⟩ := List.getElem?_eq_some_iff.mp hi
      have hnext := (List.pairwise_iff_getElem.mp hgap) (b - 1) b (by omega) hb (by omega)
      have hlater := (List.pairwise_iff_getElem.mp hgap) b (b + i) hb hlt (by omega)
      obtain ⟨_, hge⟩ := List.getElem?_eq_some_iff.mp he
      rw [hge] at hnext
      rw [hget] at hlater
      omega

/-- With a separator before the key the batches are the front of the list exactly
when no two strings at a batch boundary share a separator. -/
theorem flatten_visibleBatches_one_iff {l : List (ℕ × List UInt8)}
    (hgap : l.Pairwise fun e e' => e.1 + e.2.length + 1 ≤ e'.1) {sizes : List ℕ}
    (hpos : ∀ b ∈ sizes, 0 < b) :
    (visibleBatches 1 l sizes).flatten.map Prod.fst = (l.take sizes.sum).map Prod.fst ↔
      Apart l sizes := by
  induction sizes generalizing l with
  | nil =>
    refine ⟨fun _ s₁ s₂ hs hs₁ => ?_, fun _ => rfl⟩
    rcases List.append_eq_nil_iff.mp hs.symm with ⟨rfl, -⟩
    exact absurd rfl hs₁
  | cons b bs ih =>
    have hb := hpos b List.mem_cons_self
    have hpos' := fun c hc => hpos c (List.mem_cons_of_mem b hc)
    rw [visibleBatches, List.flatten_cons, List.sum_cons, List.take_add, List.map_append,
      List.map_append, List.append_cancel_left_eq]
    cases bs with
    | nil =>
      refine ⟨fun _ s₁ s₂ hs hs₁ hs₂ => ?_, fun _ => ?_⟩
      · have hlen := congrArg List.length hs
        rw [List.length_append, List.length_singleton] at hlen
        have h₁ := List.length_pos_of_ne_nil hs₁
        have h₂ := List.length_pos_of_ne_nil hs₂
        omega
      · rw [visibleBatches, List.sum_nil, List.take_zero, List.flatten_nil]
    | cons c cs =>
      rw [apart_cons hb (List.cons_ne_nil c cs) hpos']
      by_cases happart : ∀ e e', l[b - 1]? = some e → l[b]? = some e' →
          e'.1 ≠ e.1 + e.2.length + 1
      · rw [afterBatch_one hgap happart, ih (hgap.sublist (List.drop_sublist _ _)) hpos']
        exact ⟨fun h => ⟨happart, h⟩, fun h => h.2⟩
      · refine ⟨fun h => ?_, fun h => absurd h.1 happart⟩
        -- the next string is asked for, and not visible
        push Not at happart
        obtain ⟨e, e', he, he', hadj⟩ := happart
        have hc := hpos' c List.mem_cons_self
        have hmem : e'.1 ∈ ((l.drop b).take (c :: cs).sum).map Prod.fst := by
          refine List.mem_map_of_mem (List.mem_of_getElem? (i := 0) ?_)
          rw [List.getElem?_take_of_lt (by rw [List.sum_cons]; omega), List.getElem?_drop]
          exact he'
        rw [← h] at hmem
        obtain ⟨x, hx, hxe⟩ := List.mem_map.mp hmem
        have hx' := mem_of_mem_visibleBatches hx
        have hlast : (l.take b).getLast? = some e := by
          have hlt := (List.getElem?_eq_some_iff.mp he').1
          rw [List.getLast?_eq_getElem?, List.length_take, min_eq_left (by omega),
            List.getElem?_take_of_lt (by omega)]
          exact he
        rw [afterBatch, hlast] at hx'
        have hle := decide_eq_true_iff.mp (List.mem_filter.mp hx').2
        omega

/-- **A search of unindexed text lists the matching strings, in file order and as far
as the batch sizes reach, exactly when it is a substring search of a character
database, or no batch boundary lies between matching strings that share a separator.** -/
theorem uitext_iff {calls : Calls} (hscan : ScansAll calls) {ss : List (List UInt8)}
    (hss : ∀ s ∈ ss, keysepCh ∉ s) {key : List UInt8} (hkey : key ≠ []) (hsep : keysepCh ∉ key)
    {s : Sens} {h : StridxHandle} (hui : h.uiText = some (stringsFile ss)) (hsplit : h.split = 1)
    (hcf : h.cf = none) {kind : SrchType} (hkind : kind = .exact ∨ kind = .substr)
    {a : List ℕ} {arrays : List (List ℕ)} (ha : a ≠ []) (harrays : ∀ b ∈ arrays, b ≠ []) :
    (∃ starts, searches calls kind h key s.code a arrays = some starts ∧
      starts.flatten = ((matching h.idxType kind s.fold key ss).map Prod.fst).take
        ((a :: arrays).map List.length).sum) ↔
      (kind = .substr ∧ h.idxType = .chars) ∨
        Apart (matching h.idxType kind s.fold key ss) ((a :: arrays).map List.length) := by
  have hgap : (matching h.idxType kind s.fold key ss).Pairwise
      fun e e' => e.1 + e.2.length + 1 ≤ e'.1 := (gap_stored 1 ss).sublist List.filter_sublist
  have hpos : ∀ b ∈ (a :: arrays).map List.length, 0 < b := by
    intro b hb
    obtain ⟨x, hx, rfl⟩ := List.mem_map.mp hb
    rcases List.mem_cons.mp hx with rfl | hx
    · exact List.length_pos_of_ne_nil ha
    · exact List.length_pos_of_ne_nil (harrays x hx)
  rw [searches_uitext hscan hss hkey hsep hui hsplit hcf hkind harrays]
  by_cases hchars : kind = .substr ∧ h.idxType = .chars
  · refine ⟨fun _ => .inl hchars, fun _ => ⟨_, rfl, ?_⟩⟩
    rw [uiAdj, if_pos hchars, ← List.map_flatten, flatten_visibleBatches_zero hgap, List.map_take]
  · rw [uiAdj, if_neg hchars, ← flatten_visibleBatches_one_iff hgap hpos]
    constructor
    · rintro ⟨starts, hstarts, hflat⟩
      rw [Option.some.injEq] at hstarts
      rw [← hstarts, ← List.map_flatten, ← List.map_take] at hflat
      exact .inr hflat
    · rintro (hc | hflat)
      · exact absurd hc hchars
      · refine ⟨_, rfl, ?_⟩
        rw [← List.map_flatten, hflat, List.map_take]

/-- A word database of the strings `ab` and `ac` without index. -/
def sharedHandle : StridxHandle where
  idxType := .words
  uiText := some (stringsFile [[97, 98], [97, 99]])
  split := 1
  cf := none
  page := ⟨0, 0, 0, [], 0, [], -1⟩
  key := none
  srchType := .unset
  caseAccentSens := 0
  rState := 0
  uState := 0
  pState := none

/-- The search for `a` with batches of size 1 does not find `ac`. -/
theorem sharedHandle_not_all : ¬ ∃ starts,
    searches scanCalls .substr sharedHandle [97] Sens.csas.code [0] [[0]] = some starts ∧
      starts.flatten =
        ((matching .words .substr Sens.csas.fold [97]
          [[97, 98], [97, 99]]).map Prod.fst).take 2 := by
  rintro ⟨starts, hstarts, hflat⟩
  have hrun : searches scanCalls .substr sharedHandle [97] Sens.csas.code [0] [[0]] =
      some [[1], []] := by decide +kernel
  rw [hrun, Option.some.injEq] at hstarts
  rw [← hstarts] at hflat
  revert hflat
  decide +kernel

/-- One batch of size 2 finds both. -/
theorem uitext_iff_sharedHandle :
    (∃ starts, searches scanCalls .substr sharedHandle [97] Sens.csas.code [0, 0] [] =
        some starts ∧
      starts.flatten = ((matching .words .substr Sens.csas.fold [97]
        [[97, 98], [97, 99]]).map Prod.fst).take 2) ↔
      (SrchType.substr = .substr ∧ IndexType.words = .chars) ∨
        Apart (matching .words .substr Sens.csas.fold [97] [[97, 98], [97, 99]]) [2] :=
  uitext_iff scanCalls_scansAll (by decide) (by decide) (by decide) rfl rfl rfl (.inr rfl)
    (by decide) (fun b hb => absurd hb List.not_mem_nil)

end Archie
