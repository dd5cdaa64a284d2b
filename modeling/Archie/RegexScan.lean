/-
The regular expression search of a strings file (`archstridx/re.c`).

The file is read into a buffer of 64K.  Only what is before the last separator of the buffer is
searched; what is after it is moved to the front before more is read.  A search that has found
enough leaves the offset of the next string, where the next one goes on.

* `fillBuf`, `matchLoop`, `archRegexSearch` — the functions.
* `Filled` — a buffer, between two strings of the file.
* `Filled.fillBuf` — filling it: strings of the file, then a part of the next one.
* `matchLoop_spec` — the search of a buffer.
* `regexBatches_right` — successive searches find each matching string once, in order.
-/
import Archie.CText
import Archie.Layout

namespace Archie

/-! ### The functions -/

/-- `TSZ`. -/
def tsz : ℕ := 64 * 1024

/-- `struct inbuf`: `txt` is what is before `end`, and `sep` an index into it. -/
structure Inbuf where
  txt : List UInt8
  sep : ℕ
  boff : ℕ
  noff : ℕ

/-- `initBuf`; what is in the buffer is not used. -/
def initBuf (off : ℕ) : Inbuf := ⟨List.replicate tsz 0, tsz, 0, off⟩

/-- The loop for the last separator, from an index down; there is a sentinel at the front. -/
def sepLoop (txt : List UInt8) : ℕ → ℕ
  | 0 => 0
  | i + 1 => if txt[i + 1]? = some keysepCh then i + 1 else sepLoop txt i

/-- `fillBuf`, where `fd` is the rest of the file: whether it succeeds, the buffer and the rest. -/
def fillBuf (fd : List UInt8) (b : Inbuf) : Bool × Inbuf × List UInt8 :=
  let trailing := b.txt.drop (b.sep + 1)
  let n := min fd.length (b.txt.length - trailing.length)
  if n < 1 then (false, b, fd)
  else
    let txt := trailing ++ fd.take n
    let sep := sepLoop txt (txt.length - 1)
    if sep = 0 ∧ txt[0]? ≠ some keysepCh then (false, ⟨txt, sep, b.noff, b.noff⟩, fd.drop n)
    else (true, ⟨txt, sep, b.noff, b.noff + (sep + 1)⟩, fd.drop n)

section

variable (step : List UInt8 → Bool) (maxhits : ℕ)

/-- The loop over the strings of the buffer, from the index `p` on. -/
def matchLoop (b : Inbuf) (p : ℕ) (start : List ℕ) : ℕ × List ℕ :=
  if start.length < maxhits ∧ p < b.sep then
    let str := (b.txt.drop p).takeWhile (· ≠ keysepCh)
    matchLoop b (p + str.length + 1) (if step str then start ++ [b.boff + p] else start)
  else (p, start)
termination_by b.sep - p

/-- The loop over the fillings of the buffer; `p` is not set at first. -/
def regexLoop : ℕ → Inbuf → List UInt8 → Option ℕ → List ℕ → Option (Inbuf × Option ℕ × List ℕ)
  | 0, _, _, _, _ => none
  | fuel + 1, b, fd, p, start =>
    if start.length < maxhits then
      match fillBuf fd b with
      | (false, b, _) => some (b, p, start)
      | (true, b, fd) =>
        let r := matchLoop step maxhits b 0 start
        regexLoop fuel b fd (some r.1) r.2
    else some (b, p, start)

end

/-- `_archRegexSearch`: the offsets, and `rState`.  The functions `compile` and `step` of the system
are given by `compile`. -/
def archRegexSearch (compile : List UInt8 → Option (List UInt8 → Bool)) (fuel : ℕ)
    (strs key : List UInt8) (maxhits rState : ℕ) : Option (List ℕ × ℕ) :=
  if key = [] ∨ maxhits = 0 then some ([], rState)
  else if strs.length ≤ rState then some ([], rState)
  else
    match compile key with
    | none => some ([], rState)
    | some step => do
      let (b, p, start) ← regexLoop step maxhits fuel (initBuf rState) (strs.drop rState) none []
      let p ← p
      some (start, b.boff + p)

/-- Successive searches for one key. -/
def regexBatches (compile : List UInt8 → Option (List UInt8 → Bool)) (fuel : ℕ)
    (strs key : List UInt8) : List ℕ → ℕ → Option (List (List ℕ))
  | [], _ => some []
  | maxhits :: bs, rState => do
    let (start, rState) ← archRegexSearch compile fuel strs key maxhits rState
    let rest ← regexBatches compile fuel strs key bs rState
    some (start :: rest)

/-- The offsets of the strings that match, for strings from an offset on. -/
def regexHits (step : List UInt8 → Bool) (off : ℕ) (ss : List (List UInt8)) : List ℕ :=
  ((stored off ss).filter fun e => step e.2).map Prod.fst

/-! ### Strings of a file -/

theorem stored_append (off : ℕ) (a b : List (List UInt8)) :
    stored off (a ++ b) = stored off a ++ stored (off + (fileBody a).length) b := by
  induction a generalizing off with
  | nil => rfl
  | cons s a ih =>
    rw [List.cons_append, stored, stored, ih, fileBody_cons, List.length_append, List.length_cons,
      List.cons_append]
    congr 3
    omega

theorem regexHits_append (step : List UInt8 → Bool) (off : ℕ) (a b : List (List UInt8)) :
    regexHits step off (a ++ b) =
      regexHits step off a ++ regexHits step (off + (fileBody a).length) b := by
  rw [regexHits, stored_append, List.filter_append, List.map_append]
  rfl

theorem regexHits_cons (step : List UInt8 → Bool) (off : ℕ) (s : List UInt8)
    (ss : List (List UInt8)) :
    regexHits step off (s :: ss) =
      (if step s then [off] else []) ++ regexHits step (off + s.length + 1) ss := by
  rw [regexHits, stored, List.filter_cons]
  split <;> rfl

/-- Where a file of strings is cut after a separator, strings are on both sides. -/
theorem fileBody_cut {ts : List (List UInt8)} {a t : List UInt8} (hts : ∀ s ∈ ts, keysepCh ∉ s)
    (h : fileBody ts = a ++ keysepCh :: t) :
    ∃ ts₁ ts₂, ts = ts₁ ++ ts₂ ∧ fileBody ts₁ = a ++ [keysepCh] ∧ fileBody ts₂ = t ∧ ts₁ ≠ [] := by
  induction ts generalizing a with
  | nil => exact absurd h.symm (by simp [fileBody])
  | cons s ts ih =>
    obtain ⟨hs, hts'⟩ := List.forall_mem_cons.mp hts
    rw [fileBody_cons] at h
    rcases List.append_eq_append_iff.mp h with ⟨c, rfl, hc⟩ | ⟨c, hc, hc'⟩
    · cases c with
      | nil =>
        obtain ⟨-, rfl⟩ := List.cons.inj hc
        exact ⟨[s], ts, rfl, by rw [fileBody_cons, List.append_nil]; rfl, rfl, List.cons_ne_nil _ _⟩
      | cons x c =>
        obtain ⟨rfl, hrest⟩ := List.cons.inj hc
        obtain ⟨ts₁, ts₂, rfl, h₁, h₂, -⟩ := ih hts' hrest
        refine ⟨s :: ts₁, ts₂, rfl, ?_, h₂, List.cons_ne_nil _ _⟩
        rw [fileBody_cons, h₁, List.append_assoc, List.cons_append]
    · cases c with
      | nil =>
        obtain ⟨-, rfl⟩ := List.cons.inj hc'
        refine ⟨[s], ts, rfl, ?_, rfl, List.cons_ne_nil _ _⟩
        rw [hc, List.append_nil, fileBody_cons]
        rfl
      | cons x c =>
        -- A string has no separator.
        obtain ⟨rfl, -⟩ := List.cons.inj hc'
        exact absurd (hc ▸ List.mem_append_right a List.mem_cons_self) hs

/-- The last separator of a text. -/
theorem sepLoop_eq {a q : List UInt8} (hq : keysepCh ∉ q) {i : ℕ} (hi : a.length ≤ i)
    (hi' : i < (a ++ keysepCh :: q).length) : sepLoop (a ++ keysepCh :: q) i = a.length := by
  induction i with
  | zero => rw [sepLoop, Nat.le_zero.mp hi]
  | succ i ih =>
    rw [sepLoop]
    rcases Nat.eq_or_lt_of_le hi with heq | hlt
    · rw [if_pos, heq]
      rw [← heq, List.getElem?_append_right (Nat.le_refl _), Nat.sub_self]
      rfl
    · rw [if_neg, ih (by omega) (by omega)]
      intro hsep
      rw [List.getElem?_append_right (by omega)] at hsep
      obtain ⟨k, hk⟩ : ∃ k, i + 1 - a.length = k + 1 := ⟨i - a.length, by omega⟩
      rw [hk, List.getElem?_cons_succ] at hsep
      exact hq (List.mem_of_getElem? hsep)

/-- A text with a separator, cut at the last one. -/
theorem exists_last_sep {t : List UInt8} (h : keysepCh ∈ t) :
    ∃ a q, t = a ++ keysepCh :: q ∧ keysepCh ∉ q := by
  obtain ⟨s, r, hr, hs⟩ := List.eq_append_cons_of_mem (List.mem_reverse.mpr h)
  refine ⟨r.reverse, s.reverse, ?_, fun hq => hs (List.mem_reverse.mp hq)⟩
  have hrev := congrArg List.reverse hr
  rw [List.reverse_reverse, List.reverse_append, List.reverse_cons, List.append_assoc] at hrev
  exact hrev

/-! ### Filling the buffer -/

/-- A buffer between two strings: what is after its last separator and what has not been read are
the strings `ts`, from the offset `u` on. -/
structure Filled (b : Inbuf) (fd : List UInt8) (u : ℕ) (ts : List (List UInt8)) : Prop where
  noff : b.noff = u
  rest : b.txt.drop (b.sep + 1) ++ fd = fileBody ts
  clean : keysepCh ∉ b.txt.drop (b.sep + 1)
  pos : 0 < b.txt.length
  size : b.txt.length ≤ tsz
  full : b.txt.length = tsz ∨ fd = []

/-- A buffer that has been filled with the strings `ts₁`, from the offset `u` on, and maybe a part
of another. -/
structure Holding (b : Inbuf) (u : ℕ) (ts₁ : List (List UInt8)) : Prop where
  boff : b.boff = u
  sep : b.sep + 1 = (fileBody ts₁).length
  txt : ∃ q, b.txt = fileBody ts₁ ++ q

/-- Strings that fit into the buffer. -/
def ShortStrings (ts : List (List UInt8)) : Prop := ∀ s ∈ ts, keysepCh ∉ s ∧ s.length < tsz

theorem filled_initBuf (u : ℕ) (ts : List (List UInt8)) :
    Filled (initBuf u) (fileBody ts) u ts := by
  have hdrop : (List.replicate tsz (0 : UInt8)).drop (tsz + 1) = [] :=
    List.drop_eq_nil_of_le (by rw [List.length_replicate]; omega)
  have hlen : (initBuf u).txt.length = tsz := List.length_replicate
  have htail : (initBuf u).txt.drop ((initBuf u).sep + 1) = [] := hdrop
  exact {
    noff := rfl
    rest := by rw [htail, List.nil_append]
    clean := by
      rw [htail]
      exact List.not_mem_nil
    pos := by
      rw [hlen]
      decide
    size := Nat.le_of_eq hlen
    full := Or.inl hlen }

/-- At the end of the file nothing more is read, and the buffer is as it was. -/
theorem Filled.fillBuf_end {b : Inbuf} {fd : List UInt8} {u : ℕ} (h : Filled b fd u []) :
    fillBuf fd b = (false, b, fd) := by
  obtain ⟨-, rfl⟩ := List.append_eq_nil_iff.mp h.rest
  rw [fillBuf, List.length_nil, Nat.zero_min]
  exact if_pos Nat.one_pos

/-- **Filling the buffer** brings at least one more string. -/
theorem Filled.fillBuf {b : Inbuf} {fd : List UInt8} {u : ℕ} {ts : List (List UInt8)}
    (h : Filled b fd u ts) (hne : ts ≠ []) (hts : ShortStrings ts) :
    ∃ ts₁ ts₂ b' fd', fillBuf fd b = (true, b', fd') ∧ ts = ts₁ ++ ts₂ ∧ ts₁ ≠ [] ∧
      Filled b' fd' (u + (fileBody ts₁).length) ts₂ ∧ Holding b' u ts₁ := by
  obtain ⟨s, ts', rfl⟩ := List.exists_cons_of_ne_nil hne
  obtain ⟨-, hshort⟩ := hts s List.mem_cons_self
  obtain ⟨trailing, htrail⟩ : ∃ t, t = b.txt.drop (b.sep + 1) := ⟨_, rfl⟩
  have hrest := h.rest
  have hclean := h.clean
  rw [← htrail] at hrest hclean
  have hfd : fd ≠ [] := by
    rintro rfl
    rw [List.append_nil] at hrest
    refine hclean ?_
    rw [hrest, fileBody_cons]
    exact List.mem_append_right s List.mem_cons_self
  have hsize : b.txt.length = tsz := h.full.resolve_right hfd
  have hroom : trailing.length < tsz := by
    have hpos := h.pos
    rw [htrail, List.length_drop]
    omega
  have hfdpos := List.length_pos_iff.mpr hfd
  obtain ⟨n, hn⟩ : ∃ n, n = min fd.length (tsz - trailing.length) := ⟨_, rfl⟩
  have hcut : trailing ++ fd.take n = (fileBody (s :: ts')).take tsz := by
    rw [← hrest, List.take_append, List.take_of_length_le (Nat.le_of_lt hroom)]
    congr 1
    rcases Nat.le_total fd.length (tsz - trailing.length) with hle | hle
    · rw [List.take_of_length_le (by omega), List.take_of_length_le hle]
    · rw [hn, Nat.min_eq_right hle]
  have hmem : keysepCh ∈ trailing ++ fd.take n := by
    rw [hcut, fileBody_cons, List.take_append, List.mem_append]
    right
    obtain ⟨k, hk⟩ : ∃ k, tsz - s.length = k + 1 := ⟨tsz - s.length - 1, by omega⟩
    rw [hk, List.take_succ_cons]
    exact List.mem_cons_self
  obtain ⟨a, q, haq, hq⟩ := exists_last_sep hmem
  have hwhole : fileBody (s :: ts') = a ++ keysepCh :: (q ++ fd.drop n) := by
    rw [← hrest, ← List.take_append_drop n fd, ← List.append_assoc, haq, List.take_append_drop]
    rw [List.append_assoc, List.cons_append]
  obtain ⟨ts₁, ts₂, hsplit, h₁, h₂, hne₁⟩ := fileBody_cut (fun x hx => (hts x hx).1) hwhole
  have hlen₁ : (fileBody ts₁).length = a.length + 1 := by
    rw [h₁, List.length_append, List.length_singleton]
  have hlen : (a ++ keysepCh :: q).length = trailing.length + n := by
    rw [← haq, List.length_append, List.length_take_of_le (by omega)]
  have hsep : sepLoop (a ++ keysepCh :: q) ((a ++ keysepCh :: q).length - 1) = a.length := by
    refine sepLoop_eq hq ?_ ?_
    · rw [List.length_append, List.length_cons]
      omega
    · rw [List.length_append, List.length_cons]
      omega
  have htail : (a ++ keysepCh :: q).drop (a.length + 1) = q := by
    rw [← List.drop_drop, List.drop_left]
    rfl
  refine ⟨ts₁, ts₂, ⟨a ++ keysepCh :: q, a.length, u, u + (a.length + 1)⟩, fd.drop n, ?_, hsplit,
    hne₁, ?_, ?_⟩
  · rw [Archie.fillBuf]
    simp only [← htrail, hsize, ← hn, haq, hsep, h.noff]
    rw [if_neg (by omega), if_neg]
    rintro ⟨hzero, hfirst⟩
    rw [List.length_eq_zero_iff.mp hzero] at hfirst
    exact hfirst rfl
  · exact {
      noff := by rw [hlen₁]
      rest := by rw [htail, h₂]
      clean := by rwa [htail]
      pos := by rw [List.length_append, List.length_cons]; omega
      size := by
        show (a ++ keysepCh :: q).length ≤ tsz
        omega
      full := by
        show (a ++ keysepCh :: q).length = tsz ∨ _
        rcases Nat.le_total fd.length (tsz - trailing.length) with hle | hle
        · exact Or.inr (List.drop_eq_nil_of_le (by omega))
        · left
          omega }
  · exact {
      boff := rfl
      sep := hlen₁.symm
      txt := ⟨q, by rw [h₁, List.append_assoc]; rfl⟩ }

/-! ### Searching the buffer -/

/-- The strings that the search of a buffer passes: up to one that makes the hits enough, or all,
where a string without characters is not looked at if it is the last. -/
theorem matchLoop_spec {step : List UInt8 → Bool} {maxhits : ℕ} {b : Inbuf} {u : ℕ}
    {done todo : List (List UInt8)} {start : List ℕ} (h : Holding b u (done ++ todo))
    (hsep : ∀ s ∈ todo, keysepCh ∉ s) (hstart : start.length ≤ maxhits) :
    ∃ t₁ t₂, todo = t₁ ++ t₂ ∧
      matchLoop step maxhits b (fileBody done).length start =
        ((fileBody (done ++ t₁)).length, start ++ regexHits step (u + (fileBody done).length) t₁) ∧
      (start ++ regexHits step (u + (fileBody done).length) t₁).length ≤ maxhits ∧
      ((start ++ regexHits step (u + (fileBody done).length) t₁).length = maxhits ∨
        t₂ = [] ∨ t₂ = [[]]) := by
  induction todo generalizing done start with
  | nil =>
    refine ⟨[], [], rfl, ?_, ?_, Or.inr (Or.inl rfl)⟩
    · have hend := h.sep
      rw [List.append_nil] at hend
      rw [matchLoop, if_neg (by omega), List.append_nil]
      exact congrArg _ (List.append_nil start).symm
    · rwa [show regexHits step _ [] = [] from rfl, List.append_nil]
  | cons s todo ih =>
    have hend := h.sep
    rw [fileBody_append, List.length_append, fileBody_cons, List.length_append, List.length_cons]
      at hend
    by_cases hgo : start.length < maxhits ∧ (fileBody done).length < b.sep
    · obtain ⟨q, hq⟩ := h.txt
      obtain ⟨hs, hsep'⟩ := List.forall_mem_cons.mp hsep
      have hstr : (b.txt.drop (fileBody done).length).takeWhile (· ≠ keysepCh) = s := by
        rw [hq, fileBody_append, List.append_assoc, List.drop_left, fileBody_cons,
          List.append_assoc, List.cons_append]
        exact (takeWhile_until hs _).1
      have hdone : (fileBody (done ++ [s])).length = (fileBody done).length + s.length + 1 := by
        rw [fileBody_append, List.length_append, fileBody_cons, List.length_append]
        rfl
      have hnext : (if step s then start ++ [b.boff + (fileBody done).length] else start) =
          start ++ regexHits step (u + (fileBody done).length) [s] := by
        rw [regexHits_cons, h.boff]
        split
        · rfl
        · exact (List.append_nil start).symm
      have hone : (regexHits step (u + (fileBody done).length) [s]).length ≤ 1 := by
        rw [regexHits_cons]
        split <;> simp [regexHits, stored]
      obtain ⟨t₁, t₂, rfl, hloop, hle, hstop⟩ := @ih (done ++ [s])
        (start ++ regexHits step (u + (fileBody done).length) [s])
        (by rwa [List.append_assoc, List.singleton_append]) hsep'
        (by rw [List.length_append]; omega)
      have hhits : start ++ regexHits step (u + (fileBody done).length) [s] ++
          regexHits step (u + (fileBody (done ++ [s])).length) t₁ =
          start ++ regexHits step (u + (fileBody done).length) (s :: t₁) := by
        rw [List.append_assoc, ← List.singleton_append (x := s) (l := t₁), regexHits_append,
          fileBody_append, List.length_append, Nat.add_assoc]
      rw [hhits] at hloop hle hstop
      refine ⟨s :: t₁, t₂, rfl, ?_, hle, hstop⟩
      rw [matchLoop, if_pos hgo]
      simp only [hstr, hnext]
      rw [← hdone, hloop, List.append_assoc, List.singleton_append]
    · refine ⟨[], s :: todo, rfl, ?_, ?_, ?_⟩
      · rw [matchLoop, if_neg hgo, List.append_nil]
        exact congrArg _ (List.append_nil start).symm
      · rwa [show regexHits step _ [] = [] from rfl, List.append_nil]
      · rw [show regexHits step _ [] = [] from rfl, List.append_nil]
        rcases Nat.eq_or_lt_of_le hstart with heq | hlt
        · exact Or.inl heq
        · -- Only the separator of the buffer is left.
          right
          right
          have hlast : ¬ (fileBody done).length < b.sep := fun hlt' => hgo ⟨hlt, hlt'⟩
          have hs : s = [] := List.length_eq_zero_iff.mp (by omega)
          have htodo : todo = [] := by
            cases todo with
            | nil => rfl
            | cons s' todo =>
              rw [fileBody_cons, List.length_append, List.length_cons] at hend
              omega
          rw [hs, htodo]

/-! ### One search -/

/-- The hits for the strings from an offset on; a string without characters may be passed over if
it is the first. -/
def SearchFound (step : List UInt8 → Bool) (u : ℕ) (ts : List (List UInt8)) (hs : List ℕ) : Prop :=
  hs = regexHits step u ts ∨ ∃ ts', ts = [] :: ts' ∧ hs = regexHits step (u + 1) ts'

theorem SearchFound.eq_nil {step : List UInt8 → Bool} {u : ℕ} {hs : List ℕ}
    (h : SearchFound step u [] hs) : hs = [] := by
  rcases h with rfl | ⟨ts', hts', -⟩
  · rfl
  · exact absurd hts'.symm (List.cons_ne_nil _ _)

theorem SearchFound.append {step : List UInt8 → Bool} {u : ℕ} {a b : List (List UInt8)}
    {ha hb : List ℕ} (h : SearchFound step u a ha)
    (h' : SearchFound step (u + (fileBody a).length) b hb) (hb' : a = [] ∨ [] ∉ b) :
    SearchFound step u (a ++ b) (ha ++ hb) := by
  rcases hb' with rfl | hb'
  · rw [h.eq_nil]
    exact h'
  · have hhb : hb = regexHits step (u + (fileBody a).length) b := by
      rcases h' with rfl | ⟨ts', rfl, -⟩
      · rfl
      · exact absurd List.mem_cons_self hb'
    rcases h with rfl | ⟨ts', rfl, rfl⟩
    · left
      rw [hhb, regexHits_append]
    · right
      refine ⟨ts' ++ b, rfl, ?_⟩
      rw [hhb, regexHits_append, fileBody_cons, List.nil_append, List.length_cons]
      congr 2
      omega

/-- **The loop over the fillings** stops after the strings `ts₁`: the hits are enough, or no string
is left but the one without characters. -/
theorem regexLoop_spec {step : List UInt8 → Bool} {maxhits fuel : ℕ} {ts : List (List UInt8)}
    {b : Inbuf} {fd : List UInt8} {u : ℕ} {p : Option ℕ} {start : List ℕ} (h : Filled b fd u ts)
    (hts : ShortStrings ts) (hne : [] ∉ ts.tail) (hstart : start.length < maxhits)
    (hp : ts = [] → ∃ q, p = some q ∧ b.boff + q = u) (hfuel : ts.length + 1 < fuel) :
    ∃ ts₁ ts₂ b' q hs, ts = ts₁ ++ ts₂ ∧
      regexLoop step maxhits fuel b fd p start = some (b', some q, start ++ hs) ∧
      b'.boff + q = u + (fileBody ts₁).length ∧ SearchFound step u ts₁ hs ∧
      ((start ++ hs).length = maxhits ∨ ts₂ = [] ∨ ts₂ = [[]]) := by
  induction fuel generalizing ts b fd u p start with
  | zero => exact absurd hfuel (Nat.not_lt_zero _)
  | succ fuel ih =>
    rcases eq_or_ne ts [] with rfl | hnil
    · -- The end of the file.
      obtain ⟨q, rfl, hq⟩ := hp rfl
      refine ⟨[], [], b, q, [], rfl, ?_, hq, Or.inl rfl, Or.inr (Or.inl rfl)⟩
      rw [regexLoop, if_pos hstart, h.fillBuf_end, List.append_nil]
    · obtain ⟨ts₁, ts₂, b', fd', hfill, rfl, hne₁, hnext, hhold⟩ := h.fillBuf hnil hts
      have hne₂ : [] ∉ ts₂ := by
        intro hmem
        refine hne ?_
        rw [List.tail_append_of_ne_nil hne₁]
        exact List.mem_append_right _ hmem
      have hpos := List.length_pos_iff.mpr hne₁
      rw [List.length_append] at hfuel
      obtain ⟨t₁, t₂, rfl, hloop, hle, hstop⟩ := @matchLoop_spec step maxhits b' u [] ts₁ start
        hhold (fun s hs => (hts s (List.mem_append_left _ hs)).1) (Nat.le_of_lt hstart)
      rw [show (fileBody ([] : List (List UInt8))).length = 0 from rfl, Nat.add_zero,
        List.nil_append] at hloop
      rw [show (fileBody ([] : List (List UInt8))).length = 0 from rfl, Nat.add_zero] at hle hstop
      have hrun : regexLoop step maxhits (fuel + 1) b fd p start =
          regexLoop step maxhits fuel b' fd' (some (fileBody t₁).length)
            (start ++ regexHits step u t₁) := by
        rw [regexLoop, if_pos hstart, hfill]
        simp only [hloop]
      rcases Nat.eq_or_lt_of_le hle with heq | hlt
      · -- Enough hits, maybe in the middle of the buffer.
        obtain ⟨k, rfl⟩ : ∃ k, fuel = k + 1 := ⟨fuel - 1, by omega⟩
        refine ⟨t₁, t₂ ++ ts₂, b', (fileBody t₁).length, regexHits step u t₁,
          List.append_assoc _ _ _, ?_, by rw [hhold.boff], Or.inl rfl, Or.inl heq⟩
        rw [hrun, regexLoop, if_neg (by omega)]
      · rcases hstop.resolve_left (Nat.ne_of_lt hlt) with rfl | rfl
        · -- The whole buffer has been searched.
          rw [List.append_nil] at hpos hnext hne₁ hfuel
          obtain ⟨r₁, r₂, b₂, q, hs, rfl, hrest, hend, hfound, hdone⟩ := ih hnext
            (fun s hs => hts s (List.mem_append_right _ hs))
            (fun hmem => hne₂ (List.mem_of_mem_tail hmem)) hlt
            (fun _ => ⟨_, rfl, by rw [hhold.boff]⟩) (by omega)
          refine ⟨t₁ ++ r₁, r₂, b₂, q, regexHits step u t₁ ++ hs, ?_, ?_, ?_, ?_, ?_⟩
          · rw [List.append_nil, List.append_assoc]
          · rw [hrun, hrest, List.append_assoc]
          · rw [hend, fileBody_append, List.length_append, Nat.add_assoc]
          · exact SearchFound.append (Or.inl rfl) hfound
              (Or.inr fun hmem => hne₂ (List.mem_append_left _ hmem))
          · rwa [← List.append_assoc]
        · -- The buffer has the one string without characters.
          obtain rfl : t₁ = [] := by
            rcases t₁ with _ | ⟨s, t₁⟩
            · rfl
            · exact absurd (List.mem_append_left _ (List.mem_append_right _ List.mem_cons_self)) hne
          rw [List.nil_append] at hnext hfuel
          rw [show regexHits step u [] = [] from rfl, List.append_nil] at hrun hlt
          rw [show (fileBody [([] : List UInt8)]).length = 1 from rfl] at hnext
          rcases eq_or_ne ts₂ [] with rfl | hnil₂
          · obtain ⟨k, rfl⟩ : ∃ k, fuel = k + 1 := ⟨fuel - 1, by omega⟩
            refine ⟨[], [[]], b', 0, [], rfl, ?_, hhold.boff, Or.inl rfl, Or.inr (Or.inr rfl)⟩
            rw [hrun, regexLoop, if_pos hlt, hnext.fillBuf_end, List.append_nil]
            rfl
          · obtain ⟨r₁, r₂, b₂, q, hs, rfl, hrest, hend, hfound, hdone⟩ := ih hnext
              (fun s hs => hts s (List.mem_append_right _ hs))
              (fun hmem => hne₂ (List.mem_of_mem_tail hmem)) hlt
              (fun hnil' => absurd hnil' hnil₂) (by rw [List.length_singleton] at hfuel; omega)
            refine ⟨[] :: r₁, r₂, b₂, q, hs, rfl, ?_, ?_, ?_, hdone⟩
            · rw [hrun, hrest]
            · rw [hend, fileBody_cons, List.nil_append, List.length_cons]
              omega
            · rcases hfound with rfl | ⟨ts', rfl, -⟩
              · exact Or.inr ⟨r₁, rfl, rfl⟩
              · exact absurd (List.mem_append_left _ List.mem_cons_self) hne₂

/-- One search, where the strings `todo` have not been searched. -/
theorem archRegexSearch_spec {compile : List UInt8 → Option (List UInt8 → Bool)}
    {step : List UInt8 → Bool} {fuel maxhits : ℕ} {key : List UInt8}
    {done todo : List (List UInt8)} (hkey : key ≠ []) (hstep : compile key = some step)
    (hts : ShortStrings todo) (hne : [] ∉ todo.tail) (hmax : 0 < maxhits)
    (hfuel : todo.length + 1 < fuel) :
    ∃ t₁ t₂ hs, todo = t₁ ++ t₂ ∧
      archRegexSearch compile fuel (fileBody (done ++ todo)) key maxhits (fileBody done).length =
        some (hs, (fileBody (done ++ t₁)).length) ∧
      SearchFound step (fileBody done).length t₁ hs ∧
      (hs.length = maxhits ∨ t₂ = [] ∨ t₂ = [[]]) := by
  have hgo : ¬ (key = [] ∨ maxhits = 0) := by
    rintro (hnil | hzero)
    · exact hkey hnil
    · exact Nat.ne_of_gt hmax hzero
  rcases eq_or_ne todo [] with rfl | hnil
  · refine ⟨[], [], [], rfl, ?_, Or.inl rfl, Or.inr (Or.inl rfl)⟩
    rw [archRegexSearch, if_neg hgo, List.append_nil, if_pos (Nat.le_refl _)]
  · have hfilled : Filled (initBuf (fileBody done).length) (fileBody todo) (fileBody done).length
        todo := filled_initBuf _ _
    obtain ⟨t₁, t₂, b', q, hs, rfl, hloop, hend, hfound, hdone⟩ :=
      @regexLoop_spec step maxhits fuel todo _ _ _ none [] hfilled hts hne hmax
        (fun hnil' => absurd hnil' hnil) hfuel
    refine ⟨t₁, t₂, hs, rfl, ?_, hfound, hdone⟩
    have hrest : (fileBody (done ++ (t₁ ++ t₂))).drop (fileBody done).length =
        fileBody (t₁ ++ t₂) := by
      rw [fileBody_append, List.drop_left]
    have hlong : ¬ (fileBody (done ++ (t₁ ++ t₂))).length ≤ (fileBody done).length := by
      obtain ⟨s, rest, hcons⟩ := List.exists_cons_of_ne_nil hnil
      rw [hcons, fileBody_append, List.length_append, fileBody_cons, List.length_append,
        List.length_cons]
      omega
    rw [archRegexSearch, if_neg hgo, if_neg hlong, hstep, hrest]
    simp only [hloop, Option.bind_eq_bind, Option.bind_some, List.nil_append]
    rw [hend, fileBody_append, List.length_append]

/-! ### Successive searches -/

/-- **Successive searches** pass the strings `t₁`: all that was asked for has been found, or no
string is left but the one without characters. -/
theorem regexBatches_spec {compile : List UInt8 → Option (List UInt8 → Bool)}
    {step : List UInt8 → Bool} {fuel : ℕ} {key : List UInt8} (hkey : key ≠ [])
    (hstep : compile key = some step) {bs : List ℕ} (hbs : ∀ n ∈ bs, 0 < n)
    {done todo : List (List UInt8)} (hts : ShortStrings todo) (hne : [] ∉ todo.tail)
    (hfuel : todo.length + 1 < fuel) :
    ∃ t₁ t₂ results, todo = t₁ ++ t₂ ∧
      regexBatches compile fuel (fileBody (done ++ todo)) key bs (fileBody done).length =
        some results ∧
      SearchFound step (fileBody done).length t₁ results.flatten ∧
      (results.flatten.length = bs.sum ∨ t₂ = [] ∨ t₂ = [[]]) := by
  induction bs generalizing done todo with
  | nil => exact ⟨[], todo, [], rfl, rfl, Or.inl rfl, Or.inl rfl⟩
  | cons maxhits bs ih =>
    obtain ⟨hmax, hbs'⟩ := List.forall_mem_cons.mp hbs
    obtain ⟨t₁, t₂, hs, rfl, hsearch, hfound, hdone⟩ :=
      @archRegexSearch_spec compile step fuel maxhits key done todo hkey hstep hts hne hmax hfuel
    have hne₂ : t₁ = [] ∨ [] ∉ t₂ := by
      rcases eq_or_ne t₁ [] with hnil | hcons
      · exact Or.inl hnil
      · right
        intro hmem
        refine hne ?_
        rw [List.tail_append_of_ne_nil hcons]
        exact List.mem_append_right _ hmem
    have htail : [] ∉ t₂.tail := by
      rcases hne₂ with rfl | hmem
      · exact hne
      · exact fun hmem' => hmem (List.mem_of_mem_tail hmem')
    rw [List.length_append] at hfuel
    obtain ⟨r₁, r₂, results, rfl, hrest, hfound', hdone'⟩ := @ih hbs' (done ++ t₁) t₂
      (fun s hs => hts s (List.mem_append_right _ hs)) htail (by omega)
    refine ⟨t₁ ++ r₁, r₂, hs :: results, (List.append_assoc _ _ _).symm, ?_, ?_, ?_⟩
    · rw [regexBatches, hsearch]
      rw [List.append_assoc] at hrest
      simp only [Option.bind_eq_bind, Option.bind_some, hrest]
    · rw [List.flatten_cons]
      refine hfound.append ?_ ?_
      · rwa [← List.length_append, ← fileBody_append]
      · exact hne₂.imp_right fun hmem hmem' => hmem (List.mem_append_left _ hmem')
    · rw [List.flatten_cons, List.length_append, List.sum_cons]
      rcases hdone' with hall | hend
      · rcases hdone with hfull | hend
        · left
          omega
        · right
          -- Nothing was left, or only the string without characters.
          rcases hend with hnil | hone
          · left
            exact (List.append_eq_nil_iff.mp hnil).2
          · rcases List.append_eq_singleton_iff.mp hone with ⟨-, hr₂⟩ | ⟨-, hr₂⟩
            · exact Or.inr hr₂
            · exact Or.inl hr₂
      · exact Or.inr hend

theorem le_of_mem_regexHits {step : List UInt8 → Bool} {off : ℕ} {ss : List (List UInt8)} {o : ℕ}
    (ho : o ∈ regexHits step off ss) : off ≤ o := by
  obtain ⟨e, he, rfl⟩ := List.mem_map.mp ho
  exact le_of_mem_stored (List.mem_of_mem_filter he)

theorem regexHits_pairwise (step : List UInt8 → Bool) (off : ℕ) (ss : List (List UInt8)) :
    (regexHits step off ss).Pairwise (· < ·) := by
  induction ss generalizing off with
  | nil => exact List.Pairwise.nil
  | cons s ss ih =>
    rw [regexHits_cons]
    split
    · refine List.pairwise_cons.mpr ⟨fun o ho => ?_, ih _⟩
      have hle := le_of_mem_regexHits ho
      omega
    · exact ih _

theorem mem_regexHits {step : List UInt8 → Bool} {off : ℕ} {ss : List (List UInt8)} {o : ℕ} :
    o ∈ regexHits step off ss ↔ ∃ s, (o, s) ∈ stored off ss ∧ step s = true := by
  rw [regexHits, List.mem_map]
  constructor
  · rintro ⟨⟨o', s⟩, he, rfl⟩
    exact ⟨s, List.mem_filter.mp he⟩
  · rintro ⟨s, he⟩
    exact ⟨(o, s), List.mem_filter.mpr he, rfl⟩

/-- The offsets of strings, without that of the separator at the front of the file. -/
theorem SearchFound.filter {step : List UInt8 → Bool} {ts : List (List UInt8)} {hs : List ℕ}
    (h : SearchFound step 0 ([] :: ts) hs) :
    hs.filter (1 ≤ ·) = regexHits step 1 ts ∧ hs.length ≤ (regexHits step 1 ts).length + 1 := by
  have hall : (regexHits step 1 ts).filter (1 ≤ ·) = regexHits step 1 ts :=
    List.filter_eq_self.mpr fun o ho => decide_eq_true (le_of_mem_regexHits ho)
  rcases h with rfl | ⟨ts', hts', rfl⟩
  · rw [regexHits_cons]
    split
    · exact ⟨hall, Nat.le_refl _⟩
    · exact ⟨hall, Nat.le_succ _⟩
  · obtain ⟨-, rfl⟩ := List.cons.inj hts'
    exact ⟨hall, Nat.le_succ _⟩

/-- **Successive searches of a strings file** for a regular expression return the offsets of the
strings that match, in order and each once, up to the number that is asked for; one more may be the
offset of the separator at the front. -/
theorem regexBatches_right (compile : List UInt8 → Option (List UInt8 → Bool))
    (step : List UInt8 → Bool) (key : List UInt8) (ss : List (List UInt8)) (bs : List ℕ)
    (hkey : key ≠ []) (hstep : compile key = some step)
    (hss : ∀ s ∈ ss, s ≠ [] ∧ keysepCh ∉ s ∧ s.length < tsz) (hbs : ∀ n ∈ bs, 0 < n) :
    ∃ fuel₀, ∀ fuel ≥ fuel₀, ∃ results,
      regexBatches compile fuel (stringsFile ss) key bs 0 = some results ∧
      results.flatten.filter (1 ≤ ·) <+: regexHits step 1 ss ∧
      (results.flatten.length = bs.sum ∨
        results.flatten.filter (1 ≤ ·) = regexHits step 1 ss) ∧
      ((regexHits step 1 ss).length < bs.sum →
        results.flatten.filter (1 ≤ ·) = regexHits step 1 ss) ∧
      (regexHits step 1 ss).Pairwise (· < ·) ∧
      ∀ o, o ∈ regexHits step 1 ss ↔ ∃ s, (o, s) ∈ stored 1 ss ∧ step s = true := by
  refine ⟨ss.length + 3, fun fuel hfuel => ?_⟩
  have hshort : ShortStrings ([] :: ss) := by
    refine List.forall_mem_cons.mpr ⟨⟨List.not_mem_nil, by decide⟩, fun s hs => ?_⟩
    exact (hss s hs).2
  have hne : [] ∉ ss := fun hmem => (hss [] hmem).1 rfl
  obtain ⟨t₁, t₂, results, hsplit, hrun, hfound, hdone⟩ :=
    @regexBatches_spec compile step fuel key hkey hstep bs hbs [] ([] :: ss) hshort hne
      (by rw [List.length_cons]; omega)
  refine ⟨results, hrun, ?_⟩
  have horder := regexHits_pairwise step 1 ss
  have hmem := fun o => @mem_regexHits step 1 ss o
  cases t₁ with
  | nil =>
    have hnone := hfound.eq_nil
    rw [List.nil_append] at hsplit
    subst hsplit
    have hend : results.flatten.length = bs.sum ∨ ss = [] := by
      rcases hdone with hall | hnil | hone
      · exact Or.inl hall
      · exact absurd hnil (List.cons_ne_nil _ _)
      · exact Or.inr (List.cons.inj hone).2
    rw [hnone] at hend ⊢
    refine ⟨List.nil_prefix, ?_, ?_, horder, hmem⟩
    · rcases hend with hall | rfl
      · exact Or.inl hall
      · exact Or.inr rfl
    · intro hlt
      rcases hend with hall | rfl
      · rw [← hall] at hlt
        exact absurd hlt (Nat.not_lt_zero _)
      · rfl
  | cons s t₁ =>
    rw [List.cons_append] at hsplit
    obtain ⟨rfl, rfl⟩ := List.cons.inj hsplit
    obtain ⟨hfilter, hle⟩ := hfound.filter
    have hfront : results.flatten.filter (1 ≤ ·) <+: regexHits step 1 (t₁ ++ t₂) := by
      rw [hfilter, regexHits_append]
      exact List.prefix_append _ _
    have hend : results.flatten.length = bs.sum ∨
        results.flatten.filter (1 ≤ ·) = regexHits step 1 (t₁ ++ t₂) := by
      rcases hdone with hall | rfl | rfl
      · exact Or.inl hall
      · right
        rw [hfilter, List.append_nil]
      · exact absurd (List.mem_append_right _ List.mem_cons_self) hne
    refine ⟨hfront, hend, fun hlt => ?_, horder, hmem⟩
    rcases hend with hall | heq
    · refine hfront.eq_of_length_le ?_
      rw [hfilter]
      omega
    · exact heq

/-- The file of `a` and `bc`, and the predicate of the strings of one character. -/
theorem regexBatches_right_sample :
    ∃ fuel₀, ∀ fuel ≥ fuel₀, ∃ results,
      regexBatches (fun _ => some fun s => s.length == 1) fuel (stringsFile [[97], [98, 99]]) [46]
        [1, 2] 0 = some results ∧
      results.flatten.filter (1 ≤ ·) = [1] := by
  obtain ⟨fuel₀, h⟩ := regexBatches_right (fun _ => some fun s => s.length == 1)
    (fun s => s.length == 1) [46] [[97], [98, 99]] [1, 2] (List.cons_ne_nil _ _) rfl
    (by decide +kernel) (by decide)
  refine ⟨fuel₀, fun fuel hfuel => ?_⟩
  obtain ⟨results, hrun, -, -, hall, -⟩ := h fuel hfuel
  exact ⟨results, hrun, hall (by decide)⟩

end Archie
