/-
Reading lines in the gateway (`ppc/lib/io.c`).

A line is read in chunks of 256 bytes.  An empty chunk is taken for an empty stream, also when it
comes after the chunks of a last line that has no newline.

* `memfgets` — the function.
* `IsLines` — the lines of a stream.
* `memfgetsLoop_line`, `memfgetsLoop_last` — a call on a line, and on a last one without a newline.
* `reads_lines_iff` — exactly when successive calls return the lines.
-/
import Archie.CText

namespace Archie

/-! ### The function -/

/-- `sizeof buf`. -/
def memfgetsChunk : ℕ := 256

/-- The loop that fills `buf`: what is in it, the last `c` with none for `EOF`, and the stream. -/
def chunkLoop : ℕ → Option UInt8 → List UInt8 → List UInt8 × Option UInt8 × List UInt8
  | 0, c, ifp => ([], c, ifp)
  | _ + 1, _, [] => ([], none, [])
  | room + 1, _, b :: ifp =>
    if b = 10 then ([10], some 10, ifp)
    else
      let r := chunkLoop room (some b) ifp
      (b :: r.1, r.2)

theorem length_chunkLoop (room : ℕ) (c : Option UInt8) (ifp : List UInt8) :
    (chunkLoop room c ifp).1.length + (chunkLoop room c ifp).2.2.length = ifp.length := by
  induction ifp generalizing room c with
  | nil => cases room <;> rfl
  | cons b ifp ih =>
    cases room with
    | zero => exact Nat.zero_add _
    | succ room =>
      rw [chunkLoop]
      by_cases hb : b = 10
      · rw [if_pos hb]
        exact Nat.add_comm 1 _
      · rw [if_neg hb]
        have h := ih room (some b)
        simp only [List.length_cons]
        omega

/-- The loop of `memfgets`, with `used` bytes in `mem`: the string or a null pointer, and the
stream; none, if the number of bytes to be allocated overflows an `int`. -/
def memfgetsLoop (mem ifp : List UInt8) : Option (Option (List UInt8) × List UInt8) :=
  let r := chunkLoop memfgetsChunk (some 0) ifp
  if hnch : r.1 = [] then some (none, r.2.2)
  else if 2147483647 < mem.length + r.1.length + 1 then none
  else if r.2.1 ≠ some 10 ∧ r.2.1 ≠ none then memfgetsLoop (mem ++ r.1) r.2.2
  else some (some (mem ++ r.1 ++ [0]), r.2.2)
termination_by ifp.length
decreasing_by
  have hlen := length_chunkLoop memfgetsChunk (some 0) ifp
  have hpos : 0 < (chunkLoop memfgetsChunk (some 0) ifp).1.length := List.length_pos_iff.mpr hnch
  omega

/-- `memfgets`, when memory can be allocated. -/
def memfgets (ifp : List UInt8) : Option (Option (List UInt8) × List UInt8) := memfgetsLoop [] ifp

/-- What the first `k` calls return. -/
def memfgetsResults : ℕ → List UInt8 → Option (List (Option (List UInt8)))
  | 0, _ => some []
  | k + 1, ifp => do
    let (line, ifp) ← memfgets ifp
    let rest ← memfgetsResults k ifp
    some (line :: rest)

/-! ### Lines -/

/-- The lines of a stream, each with its newline. -/
inductive IsLines : List UInt8 → List (List UInt8) → Prop
  | nil : IsLines [] []
  | last {v : List UInt8} : v ≠ [] → 10 ∉ v → IsLines v [v]
  | cons {v rest : List UInt8} {ls : List (List UInt8)} :
    10 ∉ v → IsLines rest ls → IsLines (v ++ 10 :: rest) ((v ++ [10]) :: ls)

/-- **The claim about a stream**: call number `k` returns line number `k`, terminated, or a null
pointer if there is none; the lines together are the stream. -/
def ReadsLines (s : List UInt8) : Prop :=
  ∃ ls, IsLines s ls ∧ ls.flatten = s ∧
    ∀ k, memfgetsResults k s = some ((List.range k).map fun i => ls[i]?.map (· ++ [0]))

theorem IsLines.flatten_eq {s : List UInt8} {ls : List (List UInt8)} (h : IsLines s ls) :
    ls.flatten = s := by
  induction h with
  | nil => rfl
  | last _ _ => exact List.append_nil _
  | cons _ _ ih => rw [List.flatten_cons, ih, List.append_assoc, List.singleton_append]

theorem exists_isLines (s : List UInt8) : ∃ ls, IsLines s ls := by
  induction s with
  | nil => exact ⟨[], .nil⟩
  | cons c s ih =>
    obtain ⟨ls, hls⟩ := ih
    by_cases hc : c = 10
    · subst hc
      exact ⟨[10] :: ls, .cons (v := []) List.not_mem_nil hls⟩
    · have hadd : ∀ v : List UInt8, 10 ∉ v → 10 ∉ c :: v := by
        intro v hv h
        rcases List.mem_cons.mp h with h | h
        · exact hc h.symm
        · exact hv h
      cases hls with
      | nil => exact ⟨[[c]], .last (List.cons_ne_nil c []) (hadd [] List.not_mem_nil)⟩
      | last hne hv => exact ⟨[c :: s], .last (List.cons_ne_nil c s) (hadd s hv)⟩
      | cons hv hrest => exact ⟨_, .cons (hadd _ hv) hrest⟩

theorem IsLines.unique {s : List UInt8} {ls ls' : List (List UInt8)} (h : IsLines s ls)
    (h' : IsLines s ls') : ls = ls' := by
  induction h generalizing ls' with
  | nil =>
    generalize hs : ([] : List UInt8) = s at h'
    cases h' with
    | nil => rfl
    | last hne _ => exact absurd hs.symm hne
    | cons _ _ => simp at hs
  | @last v hne hv =>
    cases h' with
    | nil => exact absurd rfl hne
    | last _ _ => rfl
    | cons _ _ => simp at hv
  | @cons v rest ls hv hrest ih =>
    generalize hs : v ++ 10 :: rest = s at h'
    cases h' with
    | nil => simp at hs
    | last _ hv' =>
      subst hs
      simp at hv'
    | @cons v' rest' ls' hv' hrest' =>
      have hcut := takeWhile_until hv rest
      have hcut' := takeWhile_until hv' rest'
      rw [hs] at hcut
      obtain rfl : v' = v := hcut'.1.symm.trans hcut.1
      obtain rfl : rest' = rest := (List.cons.inj (hcut'.2.symm.trans hcut.2)).2
      rw [ih hrest']

/-! ### Chunks -/

/-- A chunk that is full before the newline. -/
theorem chunkLoop_full {a : List UInt8} (ha : 10 ∉ a) {c : UInt8} (hc : c ≠ 10) (t : List UInt8) :
    ∃ x : UInt8, x ≠ 10 ∧ chunkLoop a.length (some c) (a ++ t) = (a, some x, t) := by
  induction a generalizing c with
  | nil => exact ⟨c, hc, rfl⟩
  | cons b a ih =>
    have hb := List.ne_of_not_mem_cons ha
    have ha' := List.not_mem_of_not_mem_cons ha
    obtain ⟨x, hx, h⟩ := ih ha' (Ne.symm hb)
    refine ⟨x, hx, ?_⟩
    rw [List.length_cons, List.cons_append, chunkLoop, if_neg (Ne.symm hb), h]

/-- A chunk with the newline in it. -/
theorem chunkLoop_line {room : ℕ} {v : List UInt8} (hv : 10 ∉ v) (hlen : v.length < room)
    (c : Option UInt8) (t : List UInt8) :
    chunkLoop room c (v ++ 10 :: t) = (v ++ [10], some 10, t) := by
  induction v generalizing room c with
  | nil =>
    obtain ⟨room, rfl⟩ : ∃ r, room = r + 1 := ⟨room - 1, by simp at hlen; omega⟩
    rfl
  | cons b v ih =>
    obtain ⟨room, rfl⟩ : ∃ r, room = r + 1 := ⟨room - 1, by simp at hlen; omega⟩
    have hb := List.ne_of_not_mem_cons hv
    have hv' := List.not_mem_of_not_mem_cons hv
    rw [List.cons_append, chunkLoop, if_neg (Ne.symm hb), ih hv' (Nat.lt_of_succ_lt_succ hlen)]
    rfl

/-- A chunk that comes to the end of the stream. -/
theorem chunkLoop_end {room : ℕ} {v : List UInt8} (hv : 10 ∉ v) (hlen : v.length < room)
    (c : Option UInt8) : chunkLoop room c v = (v, none, []) := by
  induction v generalizing room c with
  | nil =>
    obtain ⟨room, rfl⟩ : ∃ r, room = r + 1 := ⟨room - 1, by simp at hlen; omega⟩
    rfl
  | cons b v ih =>
    obtain ⟨room, rfl⟩ : ∃ r, room = r + 1 := ⟨room - 1, by simp at hlen; omega⟩
    have hb := List.ne_of_not_mem_cons hv
    have hv' := List.not_mem_of_not_mem_cons hv
    rw [chunkLoop, if_neg (Ne.symm hb), ih hv' (Nat.lt_of_succ_lt_succ hlen)]

/-- A full chunk is kept, if it fits. -/
theorem memfgetsLoop_full {a : List UInt8} (ha : 10 ∉ a) (hlen : a.length = memfgetsChunk)
    (mem t : List UInt8) :
    memfgetsLoop mem (a ++ t) =
      if 2147483647 < mem.length + memfgetsChunk + 1 then none else memfgetsLoop (mem ++ a) t := by
  obtain ⟨x, hx, h⟩ := chunkLoop_full ha (show (0 : UInt8) ≠ 10 by decide) t
  rw [hlen] at h
  have hne : a ≠ [] := List.length_pos_iff.mp (hlen ▸ show 0 < memfgetsChunk by decide)
  rw [memfgetsLoop]
  simp only [h, hne, hlen, dif_neg, not_false_eq_true]
  rw [if_pos (show some x ≠ some 10 ∧ some x ≠ none from
    ⟨fun h => hx (Option.some.inj h), Option.some_ne_none x⟩)]

/-- Full chunks come first. -/
theorem exists_chunk {v : List UInt8} (hv : 10 ∉ v) (hlen : memfgetsChunk ≤ v.length) :
    ∃ a b, v = a ++ b ∧ a.length = memfgetsChunk ∧ 10 ∉ a ∧ 10 ∉ b :=
  ⟨v.take memfgetsChunk, v.drop memfgetsChunk, (List.take_append_drop _ _).symm,
    List.length_take_of_le hlen, fun h => hv (List.mem_of_mem_take h),
    fun h => hv (List.mem_of_mem_drop h)⟩

/-- **A line**: it is returned with its newline, if it fits. -/
theorem memfgetsLoop_line {v : List UInt8} (hv : 10 ∉ v) (mem rest : List UInt8) :
    memfgetsLoop mem (v ++ 10 :: rest) =
      if mem.length + v.length + 1 < 2147483647 then
        some (some (mem ++ (v ++ [10]) ++ [0]), rest)
      else none := by
  induction hlen : v.length using Nat.strong_induction_on generalizing v mem with
  | _ n ih =>
    by_cases hfull : memfgetsChunk ≤ v.length
    · obtain ⟨a, b, rfl, ha, hna, hnb⟩ := exists_chunk hv hfull
      rw [List.length_append] at hlen
      have hb : b.length < n := by
        have : 0 < memfgetsChunk := by decide
        omega
      rw [List.append_assoc, memfgetsLoop_full hna ha, ih b.length hb hnb _ rfl]
      rw [List.length_append]
      by_cases hfit : mem.length + n + 1 < 2147483647
      · rw [if_neg (by omega), if_pos (by omega), if_pos hfit, List.append_assoc a,
          ← List.append_assoc mem a]
      · rw [if_neg hfit]
        split
        · rfl
        · exact if_neg (by omega)
    · rw [memfgetsLoop]
      simp only [chunkLoop_line hv (Nat.not_le.mp hfull), List.length_append, hlen]
      rw [dif_neg (by simp), if_neg (show ¬ (some (10 : UInt8) ≠ some 10 ∧ _) from fun h => h.1 rfl)]
      by_cases hfit : mem.length + n + 1 < 2147483647
      · rw [if_pos hfit, if_neg (by simp; omega)]
      · rw [if_neg hfit, if_pos (by simp; omega)]

/-- **A last line without a newline**: it is returned, if it fits and does not fill its chunks. -/
theorem memfgetsLoop_last {v : List UInt8} (hv : 10 ∉ v) (mem : List UInt8)
    (hpart : ¬ memfgetsChunk ∣ v.length) :
    memfgetsLoop mem v =
      if mem.length + v.length < 2147483647 then some (some (mem ++ v ++ [0]), []) else none := by
  induction hlen : v.length using Nat.strong_induction_on generalizing v mem with
  | _ n ih =>
    by_cases hfull : memfgetsChunk ≤ v.length
    · obtain ⟨a, b, rfl, ha, hna, hnb⟩ := exists_chunk hv hfull
      rw [List.length_append, ha, Nat.dvd_add_right (Nat.dvd_refl _)] at hpart
      rw [List.length_append] at hlen
      have hb : b.length < n := by
        have : 0 < memfgetsChunk := by decide
        omega
      rw [memfgetsLoop_full hna ha, ih b.length hb hnb _ hpart rfl, List.length_append]
      have hpos : b.length ≠ 0 := fun h => hpart (h ▸ Nat.dvd_zero _)
      by_cases hfit : mem.length + n < 2147483647
      · rw [if_neg (by omega), if_pos (by omega), if_pos hfit, ← List.append_assoc mem a]
      · rw [if_neg hfit]
        split
        · rfl
        · exact if_neg (by omega)
    · have hne : v ≠ [] := fun h => hpart (by rw [h]; exact Nat.dvd_zero _)
      rw [memfgetsLoop]
      simp only [chunkLoop_end hv (Nat.not_le.mp hfull), hlen]
      rw [dif_neg hne, if_neg (show ¬ (_ ∧ (none : Option UInt8) ≠ none) from fun h => h.2 rfl)]
      by_cases hfit : mem.length + n < 2147483647
      · rw [if_pos hfit, if_neg (by omega)]
      · rw [if_neg hfit, if_pos (by omega)]

/-- A last line that fills its chunks is lost. -/
theorem memfgetsLoop_lost {v : List UInt8} (hv : 10 ∉ v) (mem : List UInt8)
    (hfill : memfgetsChunk ∣ v.length) :
    memfgetsLoop mem v = some (none, []) ∨ memfgetsLoop mem v = none := by
  induction hlen : v.length using Nat.strong_induction_on generalizing v mem with
  | _ n ih =>
    by_cases hfull : memfgetsChunk ≤ v.length
    · obtain ⟨a, b, rfl, ha, hna, hnb⟩ := exists_chunk hv hfull
      rw [List.length_append, ha, Nat.dvd_add_right (Nat.dvd_refl _)] at hfill
      rw [List.length_append] at hlen
      have hb : b.length < n := by
        have : 0 < memfgetsChunk := by decide
        omega
      rw [memfgetsLoop_full hna ha]
      split
      · exact Or.inr rfl
      · exact ih b.length hb hnb _ hfill rfl
    · have hnil : v = [] :=
        List.length_eq_zero_iff.mp (Nat.eq_zero_of_dvd_of_lt hfill (Nat.not_le.mp hfull))
      subst hnil
      left
      rw [memfgetsLoop]
      rfl

/-! ### All calls -/

/-- The first call and the others. -/
theorem results_succ_iff {s s' : List UInt8} {x : Option (List UInt8)}
    {f : ℕ → Option (List UInt8)} (h : memfgets s = some (x, s')) :
    (∀ k, memfgetsResults k s = some ((List.range k).map f)) ↔
      x = f 0 ∧ ∀ k, memfgetsResults k s' = some ((List.range k).map fun i => f (i + 1)) := by
  have hstep : ∀ k, memfgetsResults (k + 1) s = (memfgetsResults k s').map (x :: ·) := by
    intro k
    rw [memfgetsResults, h]
    show (memfgetsResults k s').bind (fun rest => some (x :: rest)) = _
    cases memfgetsResults k s' <;> rfl
  have hrange : ∀ k, (List.range (k + 1)).map f =
      f 0 :: (List.range k).map fun i => f (i + 1) := by
    intro k
    rw [List.range_succ_eq_map, List.map_cons, List.map_map]
    rfl
  constructor
  · intro hall
    have hcons : ∀ k, ∃ rs, memfgetsResults k s' = some rs ∧
        x :: rs = f 0 :: (List.range k).map fun i => f (i + 1) := by
      intro k
      have hk := hall (k + 1)
      rw [hstep, hrange] at hk
      exact Option.map_eq_some_iff.mp hk
    refine ⟨?_, fun k => ?_⟩
    · obtain ⟨rs, -, hrs⟩ := hcons 0
      exact (List.cons.inj hrs).1
    · obtain ⟨rs, hrs, heq⟩ := hcons k
      rw [hrs, (List.cons.inj heq).2]
  · rintro ⟨rfl, hall⟩ k
    cases k with
    | zero => rfl
    | succ k => rw [hstep, hall k, hrange, Option.map_some]

theorem not_results_of_none {s : List UInt8} {f : ℕ → Option (List UInt8)}
    (h : memfgets s = none) : ¬ ∀ k, memfgetsResults k s = some ((List.range k).map f) := by
  intro hall
  have hone := hall 1
  rw [memfgetsResults, h] at hone
  cases hone

/-- At the end of the stream, all calls return a null pointer. -/
theorem memfgetsResults_nil (k : ℕ) :
    memfgetsResults k [] = some ((List.range k).map fun _ => none) := by
  induction k with
  | zero => rfl
  | succ k ih =>
    have h : memfgets [] = some (none, []) := by
      rw [memfgets, memfgetsLoop]
      rfl
    rw [memfgetsResults, h]
    show (memfgetsResults k []).bind _ = _
    rw [ih, List.range_succ_eq_map, List.map_cons, List.map_map]
    rfl

/-- A line that is returned. -/
def ReadableLine (l : List UInt8) : Prop :=
  l.length < 2147483647 ∧ (10 ∈ l ∨ ¬ memfgetsChunk ∣ l.length)

instance (l : List UInt8) : Decidable (ReadableLine l) := inferInstanceAs (Decidable (_ ∧ _))

theorem results_iff {s : List UInt8} {ls : List (List UInt8)} (h : IsLines s ls) :
    (∀ k, memfgetsResults k s = some ((List.range k).map fun i => ls[i]?.map (· ++ [0]))) ↔
      ∀ l ∈ ls, ReadableLine l := by
  induction h with
  | nil => exact iff_of_true memfgetsResults_nil fun l hl => absurd hl List.not_mem_nil
  | @last v hne hv =>
    rw [List.forall_mem_singleton]
    by_cases hpart : memfgetsChunk ∣ v.length
    · refine iff_of_false ?_ fun hfits => hfits.2.elim hv fun h => h hpart
      rcases memfgetsLoop_lost hv [] hpart with hlost | hnone
      · rw [results_succ_iff hlost]
        exact fun h => absurd h.1.symm (Option.some_ne_none _)
      · exact not_results_of_none hnone
    · have hcall := memfgetsLoop_last hv [] hpart
      rw [List.nil_append, List.length_nil, Nat.zero_add] at hcall
      by_cases hfit : v.length < 2147483647
      · rw [if_pos hfit] at hcall
        refine iff_of_true ((results_succ_iff hcall).mpr ⟨rfl, fun k => ?_⟩) ⟨hfit, Or.inr hpart⟩
        exact memfgetsResults_nil k
      · rw [if_neg hfit] at hcall
        exact iff_of_false (not_results_of_none hcall) fun hfits => hfit hfits.1
  | @cons v rest ls hv _ ih =>
    rw [List.forall_mem_cons]
    have hcall := memfgetsLoop_line hv [] rest
    rw [List.nil_append, List.length_nil, Nat.zero_add] at hcall
    have hlen : (v ++ [10]).length = v.length + 1 := List.length_append
    by_cases hfit : v.length + 1 < 2147483647
    · rw [if_pos hfit] at hcall
      have hline : ReadableLine (v ++ [10]) := ⟨hlen ▸ hfit, Or.inl (by simp)⟩
      rw [results_succ_iff hcall, and_iff_right hline]
      exact (and_iff_right rfl).trans ih
    · rw [if_neg hfit] at hcall
      exact iff_of_false (not_results_of_none hcall) fun hall => hfit (hlen ▸ hall.1.1)

/-- **Reading a stream**: successive calls return its lines, if each of them fits in an `int` and
the last one, when it has no newline, does not fill its chunks. -/
theorem reads_lines_iff (s : List UInt8) :
    ReadsLines s ↔ ∀ ls, IsLines s ls → ∀ l ∈ ls, ReadableLine l := by
  constructor
  · rintro ⟨ls, hls, -, hall⟩ ls' hls'
    obtain rfl := hls.unique hls'
    exact (results_iff hls).mp hall
  · intro hall
    obtain ⟨ls, hls⟩ := exists_isLines s
    exact ⟨ls, hls, hls.flatten_eq, (results_iff hls).mpr (hall ls hls)⟩

/-- A stream of 256 characters without a newline. -/
theorem not_reads_lines : ¬ ∀ s : List UInt8, 0 ∉ s → ReadsLines s := by
  intro h
  have hmem : ∀ c : UInt8, c ≠ 97 → c ∉ List.replicate 256 (97 : UInt8) :=
    fun c hc hin => hc (List.eq_of_mem_replicate hin)
  obtain ⟨ls, hls, -, hall⟩ := h (List.replicate 256 97) (hmem 0 (by decide))
  have hlast : IsLines (List.replicate 256 97) [List.replicate 256 97] :=
    .last (List.ne_nil_of_length_pos (by rw [List.length_replicate]; decide))
      (hmem 10 (by decide))
  obtain rfl := hls.unique hlast
  have hfits := (results_iff hlast).mp hall _ (List.mem_singleton.mpr rfl)
  rcases hfits.2 with hin | hpart
  · exact hmem 10 (by decide) hin
  · exact hpart (by rw [List.length_replicate]; decide)

end Archie
