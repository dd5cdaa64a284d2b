/-
Searching unindexed text.

The scan is assumed to report all places of a key, in order and up to the number
asked for.  A call returns the next matching strings; what it then skips is the
rest of the last string and the separator after it.  For a key that begins with a
separator this hides a match that follows immediately.

* `Places` — where a key is found: in the matching strings, and nowhere else.
* `visible` — the matching strings that are found from a state on.
* `uitextLoop_spec` — one call returns the next visible strings.
* `searches_uitext` — a search without an index, batch by batch.
* `uitext_iff` — exactly when the batches are the matching strings.
-/
import Archie.Batches
import Archie.Layout

namespace Archie

/-- The places of a key in a text, in order. -/
def occurrences (fold : UInt8 → UInt8) (key text : List UInt8) : List ℕ :=
  (List.range text.length).filter fun i => keyMatchesWith fold key (text.drop i)

/-- The scan reports every place of the key, in order, up to the maximum. -/
def ScansAll (calls : Calls) : Prop :=
  ∀ s text key n, calls.scan s text key n = (occurrences s.fold key text).take n

/-- Calls whose scan reports every place. -/
def scanCalls : Calls where
  scan := fun s text key n => (occurrences s.fold key text).take n
  regex := fun _ _ _ _ => none
  fuel := 0

theorem scanCalls_scansAll : ScansAll scanCalls := fun _ _ _ _ => rfl

/-- The places of a key from one place of the text on. -/
def placesFrom (fold : UInt8 → UInt8) (key text : List UInt8) (u : ℕ) : List ℕ :=
  (List.range' u (text.length - u)).filter fun i => keyMatchesWith fold key (text.drop i)

theorem map_occurrences_drop (fold : UInt8 → UInt8) (key text : List UInt8) (u : ℕ) :
    (occurrences fold key (text.drop u)).map (u + ·) = placesFrom fold key text u := by
  rw [occurrences, placesFrom, List.length_drop, List.range'_eq_map_range, List.filter_map]
  congr 1
  refine List.filter_congr fun i _ => ?_
  rw [Function.comp_apply, List.drop_drop]

theorem placesFrom_append {fold : UInt8 → UInt8} {key text : List UInt8} {u n : ℕ}
    (h : u + n ≤ text.length) :
    placesFrom fold key text u =
      ((List.range' u n).filter fun i => keyMatchesWith fold key (text.drop i)) ++
        placesFrom fold key text (u + n) := by
  have hlen : text.length - u = n + (text.length - (u + n)) := by omega
  rw [placesFrom, placesFrom, hlen, ← List.range'_append_1, List.filter_append]

theorem placesFrom_succ_of_not {fold : UInt8 → UInt8} {key text : List UInt8} {u : ℕ}
    (hu : u < text.length) (hno : keyMatchesWith fold key (text.drop u) = false) :
    placesFrom fold key text u = placesFrom fold key text (u + 1) := by
  rw [placesFrom_append (n := 1) (by omega), List.range'_one,
    List.filter_cons_of_neg (by rw [hno]; exact Bool.false_ne_true), List.filter_nil,
    List.nil_append]

theorem le_of_mem_placesFrom {fold : UInt8 → UInt8} {key text : List UInt8} {u i : ℕ}
    (hi : i ∈ placesFrom fold key text u) : u ≤ i :=
  (List.mem_range'_1.mp (List.mem_of_mem_filter hi)).1

/-- The places from `u` on are those of all places that are not before `u`. -/
theorem placesFrom_eq_filter {fold : UInt8 → UInt8} {key text : List UInt8} {u : ℕ}
    (hu : u ≤ text.length) :
    placesFrom fold key text u = (placesFrom fold key text 0).filter (u ≤ ·) := by
  rw [placesFrom_append (u := 0) (n := u) (by omega), Nat.zero_add, List.filter_append]
  have hbefore : List.filter (u ≤ ·) ((List.range' 0 u).filter fun i =>
      keyMatchesWith fold key (text.drop i)) = [] := by
    refine List.filter_eq_nil_iff.mpr fun i hi => ?_
    have hlt := (List.mem_range'_1.mp (List.mem_of_mem_filter hi)).2
    rw [decide_eq_true_iff]
    omega
  have hafter : List.filter (u ≤ ·) (placesFrom fold key text u) = placesFrom fold key text u :=
    List.filter_eq_self.mpr fun i hi => decide_eq_true (le_of_mem_placesFrom hi)
  rw [hbefore, hafter, List.nil_append]

/-! ### The places in one string -/

/-- The places of a key in a string, for a key with `adj` separators before it. -/
def placesIn (fold : UInt8 → UInt8) (key text : List UInt8) (adj : ℕ) (e : ℕ × List UInt8) :
    List ℕ :=
  (List.range' (e.1 - adj) (e.2.length + 1)).filter fun i => keyMatchesWith fold key (text.drop i)

/-- Where a key is found: in the strings of a list, and nowhere else.  A key that
begins with a separator is found once in each. -/
structure Places (fold : UInt8 → UInt8) (key text : List UInt8) (adj : ℕ)
    (matched : List (ℕ × List UInt8)) : Prop where
  adj_le : adj ≤ 1
  gap : matched.Pairwise fun e e' => e.1 + e.2.length + 1 ≤ e'.1
  storedAt : ∀ e ∈ matched, StoredAt text e.1 e.2
  places : placesFrom fold key text 0 = matched.flatMap (placesIn fold key text adj)
  ne_nil : ∀ e ∈ matched, placesIn fold key text adj e ≠ []
  inside : ∀ e ∈ matched, ∀ i ∈ placesIn fold key text adj e, i + adj < e.1 + e.2.length
  single : adj = 1 → ∀ e ∈ matched, placesIn fold key text adj e = [e.1 - 1]

theorem gap_stored (off : ℕ) (ss : List (List UInt8)) :
    (stored off ss).Pairwise fun e e' => e.1 + e.2.length + 1 ≤ e'.1 := by
  induction ss generalizing off with
  | nil => exact List.Pairwise.nil
  | cons s ss ih =>
    rw [stored, List.pairwise_cons]
    exact ⟨fun e he => le_of_mem_stored he, ih _⟩

theorem filter_flatMap_of {α β : Type*} {f : α → List β} {p : α → Bool} {q : β → Bool}
    {l : List α} (h : ∀ a ∈ l, ∀ b ∈ f a, q b = p a) :
    (l.flatMap f).filter q = (l.filter p).flatMap f := by
  induction l with
  | nil => rfl
  | cons a l ih =>
    have ih' := ih fun b hb => h b (List.mem_cons_of_mem a hb)
    have ha := h a List.mem_cons_self
    rw [List.flatMap_cons, List.filter_append, ih']
    cases hp : p a with
    | true =>
      rw [List.filter_cons_of_pos hp, List.flatMap_cons,
        List.filter_eq_self.mpr fun b hb => (ha b hb).trans hp]
    | false =>
      have hnone : (f a).filter q = [] := by
        refine List.filter_eq_nil_iff.mpr fun b hb => ?_
        rw [ha b hb, hp]
        exact Bool.false_ne_true
      rw [List.filter_cons_of_neg (by rw [hp]; exact Bool.false_ne_true), hnone, List.nil_append]

/-- The text from a string on. -/
theorem drop_of_mem_stored (pre : List UInt8) {text : List UInt8} {rest : List (List UInt8)}
    (htext : text = pre ++ [keysepCh] ++ fileBody rest) {e : ℕ × List UInt8}
    (he : e ∈ stored (pre.length + 1) rest) :
    1 ≤ e.1 ∧ ∃ post, text.drop (e.1 - 1) = keysepCh :: (e.2 ++ keysepCh :: post) := by
  induction rest generalizing pre with
  | nil => exact absurd he List.not_mem_nil
  | cons s rest ih =>
    rw [fileBody_cons, ← List.append_assoc] at htext
    rcases List.mem_cons.mp he with rfl | he
    · refine ⟨Nat.succ_pos _, fileBody rest, ?_⟩
      rw [htext, Nat.add_sub_cancel, List.append_assoc, List.append_assoc,
        List.drop_left]
      rfl
    · have hpre : text = (pre ++ [keysepCh] ++ s) ++ [keysepCh] ++ fileBody rest := by
        rw [htext]
        simp
      have hlen : (pre ++ [keysepCh] ++ s).length + 1 = pre.length + 1 + s.length + 1 := by
        simp only [List.length_append, List.length_singleton]
      exact ih _ hpre (hlen ▸ he)

/-- All places are in the strings. -/
theorem placesFrom_eq_flatMap (pre : List UInt8) {fold : UInt8 → UInt8} {key text : List UInt8}
    {adj : ℕ}
    {rest : List (List UInt8)} (hadj : adj ≤ 1)
    (hlast : adj = 1 → keyMatchesWith fold key [keysepCh] = false)
    (htext : text = pre ++ [keysepCh] ++ fileBody rest) :
    placesFrom fold key text (pre.length + 1 - adj) =
      (stored (pre.length + 1) rest).flatMap (placesIn fold key text adj) := by
  induction rest generalizing pre with
  | nil =>
    have hlen : text.length = pre.length + 1 := by
      rw [htext]
      simp [fileBody]
    rcases Nat.eq_zero_or_pos adj with rfl | hpos
    · rw [placesFrom, hlen, Nat.sub_zero, Nat.sub_self]
      rfl
    · obtain rfl : adj = 1 := by omega
      have hdrop : text.drop pre.length = [keysepCh] := by
        rw [htext, List.append_assoc, List.drop_left]
        rfl
      rw [Nat.add_sub_cancel, placesFrom_succ_of_not (by omega) (by rw [hdrop]; exact hlast rfl),
        placesFrom, hlen, Nat.sub_self]
      rfl
  | cons s rest ih =>
    rw [fileBody_cons, ← List.append_assoc] at htext
    have hpre : text = (pre ++ [keysepCh] ++ s) ++ [keysepCh] ++ fileBody rest := by
      rw [htext]
      simp
    have hlen : (pre ++ [keysepCh] ++ s).length = pre.length + 1 + s.length := by
      simp only [List.length_append, List.length_singleton]
    have hstep := ih _ hpre
    rw [hlen] at hstep
    have htot : text.length = pre.length + 1 + s.length + 1 + (fileBody rest).length := by
      rw [hpre, List.length_append, List.length_append, hlen, List.length_singleton]
    rw [placesFrom_append (n := s.length + 1) (by omega), stored, List.flatMap_cons, ← hstep]
    congr 2
    omega

theorem stringsFile_eq (ss : List (List UInt8)) :
    stringsFile ss = [] ++ [keysepCh] ++ fileBody ss := rfl

/-- The places of a key, from what is found in a string. -/
theorem places_of {fold : UInt8 → UInt8} {key : List UInt8} {adj : ℕ} {p : List UInt8 → Bool}
    {ss : List (List UInt8)} (hss : ∀ s ∈ ss, keysepCh ∉ s) (hadj : adj ≤ 1)
    (hsep : adj = 0 → ∀ t, keyMatchesWith fold key (keysepCh :: t) = false)
    (hlast : adj = 1 → keyMatchesWith fold key [keysepCh] = false)
    (hfound : ∀ e ∈ stored 1 ss, (placesIn fold key (stringsFile ss) adj e ≠ [] ↔ p e.2 = true) ∧
      (∀ i ∈ placesIn fold key (stringsFile ss) adj e, i + adj < e.1 + e.2.length) ∧
      (adj = 1 → p e.2 = true → placesIn fold key (stringsFile ss) adj e = [e.1 - 1])) :
    Places fold key (stringsFile ss) adj ((stored 1 ss).filter fun e => p e.2) where
  adj_le := hadj
  gap := (gap_stored 1 ss).sublist List.filter_sublist
  storedAt := fun e he =>
    storedAt_of_mem [] hss (stringsFile_eq ss) (List.mem_of_mem_filter he)
  places := by
    have hall := placesFrom_eq_flatMap [] hadj hlast (stringsFile_eq ss)
    have hzero : placesFrom fold key (stringsFile ss) 0 =
        placesFrom fold key (stringsFile ss) (1 - adj) := by
      rcases Nat.eq_zero_or_pos adj with rfl | hpos
      · exact placesFrom_succ_of_not (Nat.succ_pos _) (hsep rfl _)
      · rw [show 1 - adj = 0 by omega]
    rw [flatMap_filter_of_nil, hzero]
    · exact hall
    · intro e he hp
      by_contra hne
      rw [(hfound e he).1.mp hne] at hp
      exact Bool.false_ne_true hp.symm
  ne_nil := fun e he => (hfound e (List.mem_of_mem_filter he)).1.mpr (List.mem_filter.mp he).2
  inside := fun e he => (hfound e (List.mem_of_mem_filter he)).2.1
  single := fun h e he =>
    (hfound e (List.mem_of_mem_filter he)).2.2 h (List.mem_filter.mp he).2

section Keys

variable {fold : UInt8 → UInt8} (hfold : SepOnly fold) {key : List UInt8} (hkey : key ≠ [])
  (hsep : keysepCh ∉ key) {ss : List (List UInt8)} (hss : ∀ s ∈ ss, keysepCh ∉ s)

include hfold hkey hsep

theorem keyMatchesWith_sep_cons (t : List UInt8) :
    keyMatchesWith fold key (keysepCh :: t) = false := by
  have h := keyMatchesWith_string hfold (s := []) hsep t
  rw [List.nil_append] at h
  rw [h]
  cases key with
  | nil => exact absurd rfl hkey
  | cons c key => rfl

/-- The places of a key without separator in a string. -/
theorem mem_placesIn_zero {e : ℕ × List UInt8} (he : e ∈ stored 1 ss) {i : ℕ} :
    i ∈ placesIn fold key (stringsFile ss) 0 e ↔
      ∃ j < e.2.length, i = e.1 + j ∧ keyMatchesWith fold key (e.2.drop j) = true := by
  obtain ⟨hpos, post, hdrop⟩ := drop_of_mem_stored [] (stringsFile_eq ss) he
  have hat : ∀ j, j ≤ e.2.length →
      keyMatchesWith fold key ((stringsFile ss).drop (e.1 + j)) =
        keyMatchesWith fold key (e.2.drop j) := by
    intro j hj
    have hdropj : (stringsFile ss).drop (e.1 + j) = e.2.drop j ++ keysepCh :: post := by
      rw [show e.1 + j = e.1 - 1 + (j + 1) by omega, ← List.drop_drop, hdrop, List.drop_succ_cons,
        List.drop_append_of_le_length hj]
    rw [hdropj, keyMatchesWith_string hfold hsep]
  rw [placesIn, List.mem_filter, List.mem_range'_1, Nat.sub_zero]
  constructor
  · rintro ⟨⟨hle, hlt⟩, hm⟩
    rw [show i = e.1 + (i - e.1) by omega, hat _ (by omega)] at hm
    refine ⟨i - e.1, ?_, by omega, hm⟩
    by_contra hge
    rw [List.drop_eq_nil_of_le (by omega), keyMatchesWith_iff, List.map_nil,
      List.prefix_nil, List.map_eq_nil_iff] at hm
    exact hkey hm
  · rintro ⟨j, hj, rfl, hm⟩
    exact ⟨⟨by omega, by omega⟩, by rw [hat j (by omega)]; exact hm⟩

include hss

/-- Where a key without separator is found. -/
theorem places_substring : Places fold key (stringsFile ss) 0
    ((stored 1 ss).filter fun e => decide (key.map fold <:+: e.2.map fold)) := by
  refine places_of (p := fun s => decide (key.map fold <:+: s.map fold)) hss (Nat.zero_le 1)
    (fun _ => keyMatchesWith_sep_cons hfold hkey hsep) (fun h => absurd h (by omega))
    fun e he => ?_
  have hmem := fun i => mem_placesIn_zero hfold hkey hsep he (i := i)
  refine ⟨?_, fun i hi => ?_, fun h => absurd h (by omega)⟩
  · rw [decide_eq_true_iff]
    constructor
    · intro hne
      obtain ⟨i, hi⟩ := List.exists_mem_of_ne_nil _ hne
      obtain ⟨j, -, -, hm⟩ := (hmem i).mp hi
      rw [keyMatchesWith_iff, List.map_drop] at hm
      exact hm.isInfix.trans (List.drop_suffix j _).isInfix
    · rintro ⟨t, t', htt⟩
      have hlen := congrArg List.length htt
      simp only [List.length_append, List.length_map] at hlen
      have hpos' := List.length_pos_of_ne_nil hkey
      refine List.ne_nil_of_mem ((hmem (e.1 + t.length)).mpr ⟨t.length, by omega, rfl, ?_⟩)
      rw [keyMatchesWith_iff, List.map_drop, ← htt, List.append_assoc, List.drop_left]
      exact List.prefix_append _ _
  · obtain ⟨j, hj, rfl, -⟩ := (hmem i).mp hi
    omega

/-- Where a key with a separator before it is found. -/
theorem places_sep {tail : List UInt8} {p : List UInt8 → Bool}
    (hp : ∀ s post, keysepCh ∉ s →
      keyMatchesWith fold (key ++ tail) (s ++ keysepCh :: post) = p s)
    (hnil : p [] = false) :
    Places fold (keysepCh :: (key ++ tail)) (stringsFile ss) 1
      ((stored 1 ss).filter fun e => p e.2) := by
  refine places_of hss (le_refl 1) (fun h => absurd h (by omega)) (fun _ => ?_) fun e he => ?_
  · cases key with
    | nil => exact absurd rfl hkey
    | cons c key => simp [keyMatchesWith]
  obtain ⟨hpos, post, hdrop⟩ := drop_of_mem_stored [] (stringsFile_eq ss) he
  have hs := storedAt_of_mem [] hss (stringsFile_eq ss) he
  have hmem := mem_of_mem_stored he
  -- only the separator before the string is like the first character of the key
  have hin : placesIn fold (keysepCh :: (key ++ tail)) (stringsFile ss) 1 e =
      if p e.2 = true then [e.1 - 1] else [] := by
    have hrest : (List.range' (e.1 - 1 + 1) e.2.length).filter (fun i =>
        keyMatchesWith fold (keysepCh :: (key ++ tail)) ((stringsFile ss).drop i)) = [] := by
      refine List.filter_eq_nil_iff.mpr fun i hi => ?_
      obtain ⟨hle, hlt⟩ := List.mem_range'_1.mp hi
      have hne := hs.inside i (by omega) (by omega)
      cases hget : (stringsFile ss).drop i with
      | nil => simp [keyMatchesWith]
      | cons c t =>
        have hc : c ≠ keysepCh := by
          rintro rfl
          refine hne ?_
          rw [← List.head?_drop, hget]
          rfl
        rw [keyMatchesWith_sep_string hfold hc]
        exact Bool.false_ne_true
    have hfirst : keyMatchesWith fold (keysepCh :: (key ++ tail))
        ((stringsFile ss).drop (e.1 - 1)) = p e.2 := by
      rw [hdrop, keyMatchesWith, if_neg (not_not_intro rfl), hp e.2 post (hss e.2 hmem)]
    rw [placesIn, List.range'_succ, List.filter_cons, hrest, hfirst]
  refine ⟨?_, fun i hi => ?_, fun _ hpe => by rw [hin, if_pos hpe]⟩
  · rw [hin]
    by_cases hpe : p e.2 = true
    · simp [hpe]
    · simp [hpe]
  · rw [hin] at hi
    by_cases hpe : p e.2 = true
    · rw [if_pos hpe, List.mem_singleton] at hi
      have hlen : 0 < e.2.length := by
        refine List.length_pos_of_ne_nil fun h => ?_
        rw [h, hnil] at hpe
        exact Bool.false_ne_true hpe
      omega
    · rw [if_neg hpe] at hi
      exact absurd hi List.not_mem_nil

end Keys

end Archie
