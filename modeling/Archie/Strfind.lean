/-
The substring test of `whatis` (`initskip` and `strfind` of `clients/telnet/misc.c`).

* `initskip`, `strfind` — the table of shifts and the scan, backwards at each alignment.
* `fillSkiptab_eq_some` — the table gives the distance from a character to the end of the pattern.
* `no_occurrence_passed` — a shift passes no occurrence, if `NoJumpOver` holds of the pattern.
* `strfindLoop_eq` — the scan from an alignment on.
* `searchesRightly_iff` — for which patterns the test is right about every text.
-/
import Archie.CText
import Mathlib.Data.List.Infix
import Mathlib.Data.Nat.Basic

namespace Archie

/-! ### The table -/

/-- The static variables that `initskip` sets; `plen` is the length of `pat`. -/
structure SkipState where
  pat : List UInt8
  nocase : Bool
  skiptab : List ℤ

/-- `make_lcase`, on a string with what comes after its NUL. -/
def makeLcase (s : List UInt8) : List UInt8 :=
  (s.takeWhile (· ≠ 0)).map asciiLower ++ s.dropWhile (· ≠ 0)

/-- The second loop of `initskip`; none, where it stores outside of the table. -/
def fillSkiptab (plen : ℕ) : ℕ → List UInt8 → List ℤ → Option (List ℤ)
  | _, [], skiptab => some skiptab
  | i, c :: pat, skiptab =>
    -- A `char` is signed, and from 128 on it is a negative index.
    if c < 128 then fillSkiptab plen (i + 1) pat (skiptab.set c.toNat (plen - 1 - i)) else none

/-- `initskip`, of a pattern and its length. -/
def initskip (pattern : List UInt8) (ignoreCase : Bool) : Option SkipState :=
  let pat := if ignoreCase then makeLcase pattern else pattern
  (fillSkiptab pat.length 0 pat (List.replicate 256 pat.length)).map
    fun skiptab => ⟨pat, ignoreCase, skiptab⟩

/-! ### The scan -/

/-- The character at an index; none, outside of the string. -/
def charAt (s : List UInt8) (i : ℤ) : Option UInt8 := if 0 ≤ i then s[i.toNat]? else none

/-- How characters of the text are read. -/
def foldChar (nocase : Bool) (c : UInt8) : UInt8 := if nocase then asciiLower c else c

/-- The loop of `strfind`; none, if it does not end or reads outside of the text or the pattern. -/
def strfindLoop (st : SkipState) (txt : List UInt8) : ℕ → ℤ → ℤ → Option Bool
  | 0, _, _ => none
  | fuel + 1, pc, tc => do
    let plen : ℤ := st.pat.length
    let tchar := foldChar st.nocase (← charAt txt tc)
    let patChar ← charAt st.pat pc
    let skip ← st.skiptab[tchar.toNat]?
    let (pc, tc) :=
      if tchar = patChar then (pc - 1, tc - 1)
      else (plen - 1, tc + if skip < plen - 1 - pc then plen else skip)
    if 0 ≤ pc ∧ tc < txt.length then strfindLoop st txt fuel pc tc else some (pc < 0)

/-- `strfind`. -/
def strfind (st : SkipState) (txt : List UInt8) : Option Bool :=
  if txt.length < st.pat.length then some false
  else strfindLoop st txt ((txt.length + 1) * (st.pat.length + 1)) (st.pat.length - 1)
    (st.pat.length - 1)

/-! ### Occurrences and shifts -/

section

variable {α : Type*} {p t : List α}

/-- The pattern occurs at a place of the text. -/
def PatternAt (p t : List α) (i : ℕ) : Prop := ∀ k < p.length, t[i + k]? = p[k]?

theorem infix_iff_patternAt : p <:+: t ↔ ∃ i ≤ t.length, PatternAt p t i := by
  constructor
  · rintro ⟨s, u, rfl⟩
    refine ⟨s.length, by simp, fun k hk => ?_⟩
    rw [List.append_assoc, List.getElem?_append_right (Nat.le_add_right _ _),
      Nat.add_sub_cancel_left, List.getElem?_append_left hk]
  · rintro ⟨i, -, hi⟩
    have hpre : p <+: t.drop i := by
      refine List.prefix_iff_getElem?.mpr fun k hk => ?_
      rw [List.getElem?_drop, hi k hk, List.getElem?_eq_getElem hk]
    exact hpre.isInfix.trans (List.drop_suffix i t).isInfix

/-- An occurrence ends in the text. -/
theorem PatternAt.le_length {i : ℕ} (h : PatternAt p t i) (hne : p ≠ []) : i + p.length ≤ t.length := by
  have hpos := List.length_pos_of_ne_nil hne
  have hlast := h (p.length - 1) (by omega)
  rw [List.getElem?_eq_getElem (show p.length - 1 < p.length by omega)] at hlast
  have := (List.getElem?_eq_some_iff.mp hlast).1
  omega

variable [DecidableEq α]

/-- The distance from the last place of a character to the end: which places do not hold it. -/
theorem getElem?_ne_of_idxOf_reverse {c : α} {k : ℕ} (hk : k < p.length)
    (hlt : p.length - 1 - k < p.reverse.idxOf c) : p[k]? ≠ some c := by
  intro heq
  have hrev : p.reverse[p.length - 1 - k]? = some c := by
    rw [List.getElem?_reverse (by omega), ← heq]
    congr 1
    omega
  obtain ⟨hlen, hget⟩ := List.getElem?_eq_some_iff.mp hrev
  have hne := @List.not_of_lt_findIdx _ (· == c) p.reverse _ hlt
  rw [hget, beq_self_eq_true] at hne
  exact Bool.noConfusion hne

/-- Which place does. -/
theorem getElem?_of_idxOf_reverse {c : α} (h : p.reverse.idxOf c < p.length) :
    p[p.length - 1 - p.reverse.idxOf c]? = some c := by
  have hlt : p.reverse.idxOf c < p.reverse.length := by rwa [List.length_reverse]
  rw [← List.getElem?_reverse h, List.getElem?_eq_getElem hlt, List.getElem_idxOf]

/-- An occurrence can begin at `s` of an alignment that agrees after `pc`, but not there, and where
the character at `pc` stands further on in the pattern, too. -/
def JumpsOver (p : List α) (pc s : ℕ) : Prop :=
  p[pc - s]? ≠ p[pc]? ∧ (∃ k < p.length, pc < k ∧ p[k]? = p[pc - s]?) ∧
    ∀ k < p.length, pc < k → p[k - s]? = p[k]?

instance (pc s : ℕ) : Decidable (JumpsOver p pc s) := by unfold JumpsOver; infer_instance

/-- No alignment does that. -/
def NoJumpOver (p : List α) : Prop := ∀ pc < p.length, ∀ s ≤ pc, 0 < s → ¬ JumpsOver p pc s

instance : Decidable (NoJumpOver p) := by unfold NoJumpOver; infer_instance

/-- How far the alignment is moved for a character at `pc` that does not agree. -/
def alignShift (p : List α) (pc : ℕ) (c : α) : ℕ :=
  if p.reverse.idxOf c < p.length - 1 - pc then pc + 1
  else pc + p.reverse.idxOf c + 1 - p.length

theorem alignShift_pos {pc : ℕ} {c : α} (hpc : pc < p.length) (hc : p[pc]? ≠ some c) :
    0 < alignShift p pc c := by
  rw [alignShift]
  split
  · exact Nat.succ_pos pc
  · -- The distance is not that of `pc` itself.
    have hne : p.reverse.idxOf c ≠ p.length - 1 - pc := by
      intro heq
      apply hc
      rw [← getElem?_of_idxOf_reverse (p := p) (c := c) (by omega), heq]
      congr 1
      omega
    omega

/-- **A shift passes no occurrence.** -/
theorem no_occurrence_passed (hsafe : NoJumpOver p) {a pc : ℕ} {c : α} (hpc : pc < p.length)
    (hc : p[pc]? ≠ some c) (htext : t[a + pc]? = some c)
    (hend : ∀ k < p.length, pc < k → t[a + k]? = p[k]?) {s : ℕ} (hpos : 0 < s)
    (hs : s < alignShift p pc c) : ¬ PatternAt p t (a + s) := by
  intro hocc
  have hle : s ≤ pc := by
    rw [alignShift] at hs
    split at hs
    · omega
    · have := List.idxOf_le_length (a := c) (l := p.reverse)
      rw [List.length_reverse] at this
      omega
  -- The character stands at `pc - s` of the pattern.
  have hat : p[pc - s]? = some c := by
    rw [← hocc (pc - s) (by omega), ← htext]
    congr 1
    omega
  rw [alignShift] at hs
  split at hs
  next hback =>
    refine hsafe pc hpc s hle hpos ⟨by rw [hat]; exact Ne.symm hc,
      ⟨p.length - 1 - p.reverse.idxOf c, by omega, by omega, ?_⟩, fun k hk hpck => ?_⟩
    · rw [getElem?_of_idxOf_reverse (by omega), hat]
    · rw [← hocc (k - s) (by omega), ← hend k hk hpck]
      congr 1
      omega
  next hforth => exact getElem?_ne_of_idxOf_reverse (by omega) (by omega) hat

end

/-! ### The table gives the distances -/

theorem fillSkiptab_eq_some {pat : List UInt8} (hpat : ∀ c ∈ pat, c < 128) {plen i : ℕ}
    (hlen : i + pat.length = plen) (skiptab : List ℤ) (htab : skiptab.length = 256) :
    ∃ skiptab', fillSkiptab plen i pat skiptab = some skiptab' ∧
      ∀ c : UInt8, skiptab'[c.toNat]? =
        if c ∈ pat then some (pat.reverse.idxOf c : ℤ) else skiptab[c.toNat]? := by
  induction pat generalizing i skiptab with
  | nil => exact ⟨skiptab, rfl, fun c => by rw [if_neg List.not_mem_nil]⟩
  | cons d pat ih =>
    rw [List.length_cons] at hlen
    obtain ⟨skiptab', heq, hget⟩ := ih (fun c hc => hpat c (List.mem_cons_of_mem d hc))
      (i := i + 1) (by omega) (skiptab.set d.toNat (plen - 1 - i)) (by rw [List.length_set, htab])
    refine ⟨skiptab', by rw [fillSkiptab, if_pos (hpat d List.mem_cons_self), heq], fun c => ?_⟩
    rw [hget c, List.reverse_cons]
    by_cases hmem : c ∈ pat
    · rw [if_pos hmem, if_pos (List.mem_cons_of_mem d hmem),
        List.idxOf_append_of_mem (List.mem_reverse.mpr hmem)]
    · rw [if_neg hmem]
      by_cases hcd : c = d
      · subst hcd
        have hbound : c.toNat < skiptab.length := by rw [htab]; exact c.toNat_lt
        rw [if_pos List.mem_cons_self, List.getElem?_set_self hbound,
          List.idxOf_append_of_notMem (mt List.mem_reverse.mp hmem), List.idxOf_cons_self,
          List.length_reverse]
        congr 1
        omega
      · have hne : d.toNat ≠ c.toNat := fun h => hcd (UInt8.toNat_inj.mp h.symm)
        rw [if_neg (by simp [hcd, hmem]), List.getElem?_set_ne hne]

theorem fillSkiptab_eq_none {pat : List UInt8} (hpat : ∃ c ∈ pat, ¬ c < 128) (plen i : ℕ)
    (skiptab : List ℤ) : fillSkiptab plen i pat skiptab = none := by
  induction pat generalizing i skiptab with
  | nil =>
    obtain ⟨c, hc, -⟩ := hpat
    exact absurd hc List.not_mem_nil
  | cons d pat ih =>
    rw [fillSkiptab]
    split
    next hd =>
      obtain ⟨c, hc, hbig⟩ := hpat
      rcases List.mem_cons.mp hc with rfl | hc
      · exact absurd hd hbig
      · exact ih ⟨c, hc, hbig⟩ _ _
    next => rfl

theorem makeLcase_eq {s : List UInt8} (hs : 0 ∉ s) : makeLcase s = s.map asciiLower := by
  have hall : ∀ c ∈ s, decide (c ≠ 0) = true := fun c hc =>
    decide_eq_true fun h => hs (h ▸ hc)
  rw [makeLcase, List.takeWhile_eq_self_iff.mpr hall, List.dropWhile_eq_nil_iff.mpr hall,
    List.append_nil]

/-- A string as the test reads it. -/
def foldText (nocase : Bool) (s : List UInt8) : List UInt8 := s.map (foldChar nocase)

theorem initskip_pat {pattern : List UInt8} (hzero : 0 ∉ pattern) (ignoreCase : Bool) :
    (if ignoreCase then makeLcase pattern else pattern) = foldText ignoreCase pattern := by
  cases ignoreCase with
  | false =>
    show pattern = pattern.map id
    rw [List.map_id]
  | true => exact makeLcase_eq hzero

/-- **The table of a pattern.** -/
theorem initskip_eq_some {pattern : List UInt8} (hzero : 0 ∉ pattern) {ignoreCase : Bool}
    (hpat : ∀ c ∈ foldText ignoreCase pattern, c < 128) :
    ∃ st, initskip pattern ignoreCase = some st ∧ st.pat = foldText ignoreCase pattern ∧
      st.nocase = ignoreCase ∧
      ∀ c : UInt8, st.skiptab[c.toNat]? = some (st.pat.reverse.idxOf c : ℤ) := by
  set p := foldText ignoreCase pattern with hp
  obtain ⟨skiptab, heq, hget⟩ := fillSkiptab_eq_some hpat (i := 0) (Nat.zero_add p.length)
    (List.replicate 256 (p.length : ℤ)) List.length_replicate
  refine ⟨⟨p, ignoreCase, skiptab⟩, ?_, rfl, rfl, fun c => ?_⟩
  · rw [initskip, initskip_pat hzero, ← hp, heq, Option.map_some]
  · show skiptab[c.toNat]? = _
    rw [hget c]
    split
    next => rfl
    next hmem =>
      rw [List.getElem?_replicate, if_pos c.toNat_lt,
        List.idxOf_eq_length (mt List.mem_reverse.mp hmem), List.length_reverse]

theorem initskip_eq_none {pattern : List UInt8} (hzero : 0 ∉ pattern) {ignoreCase : Bool}
    (hpat : ∃ c ∈ foldText ignoreCase pattern, ¬ c < 128) : initskip pattern ignoreCase = none := by
  rw [initskip, initskip_pat hzero, fillSkiptab_eq_none hpat, Option.map_none]

/-! ### The scan from an alignment on -/

theorem charAt_natCast (s : List UInt8) (i : ℕ) : charAt s i = s[i]? := by
  rw [charAt, if_pos (Int.natCast_nonneg i), Int.toNat_natCast]

section

variable {st : SkipState} {txt : List UInt8}

/-- A round in which the characters agree. -/
theorem strfindLoop_agree {fuel a pc : ℕ} {c : UInt8} {n : ℤ}
    (htext : (foldText st.nocase txt)[a + pc]? = some c) (hpat : st.pat[pc]? = some c)
    (htab : st.skiptab[c.toNat]? = some n) :
    strfindLoop st txt (fuel + 1) pc (a + pc : ℕ) =
      if 0 < pc then strfindLoop st txt fuel (pc - 1 : ℕ) (a + (pc - 1) : ℕ) else some true := by
  rw [foldText, List.getElem?_map, Option.map_eq_some_iff] at htext
  obtain ⟨b, hb, hbc⟩ := htext
  have hlt := (List.getElem?_eq_some_iff.mp hb).1
  rw [strfindLoop, charAt_natCast, charAt_natCast, hb, hpat]
  simp only [Option.bind_eq_bind, Option.bind_some, hbc, htab, if_true]
  by_cases hpc : 0 < pc
  · rw [if_pos ⟨by omega, by omega⟩, if_pos hpc]
    congr 1 <;> omega
  · rw [if_neg (by omega), if_neg hpc]
    congr 1
    exact decide_eq_true (by omega)

/-- A round in which they do not. -/
theorem strfindLoop_shift {fuel a pc : ℕ} {c : UInt8} (hpc : pc < st.pat.length)
    (htext : (foldText st.nocase txt)[a + pc]? = some c) (hpat : st.pat[pc]? ≠ some c)
    (htab : st.skiptab[c.toNat]? = some (st.pat.reverse.idxOf c : ℤ)) :
    strfindLoop st txt (fuel + 1) pc (a + pc : ℕ) =
      if a + alignShift st.pat pc c + st.pat.length ≤ txt.length then
        strfindLoop st txt fuel (st.pat.length - 1 : ℕ)
          (a + alignShift st.pat pc c + (st.pat.length - 1) : ℕ)
      else some false := by
  rw [foldText, List.getElem?_map, Option.map_eq_some_iff] at htext
  obtain ⟨b, hb, hbc⟩ := htext
  have hget := List.getElem?_eq_getElem hpc
  have hne : c ≠ st.pat[pc] := fun h => hpat (by rw [hget, h])
  have htc : ((a + pc : ℕ) : ℤ) + (if (st.pat.reverse.idxOf c : ℤ) < st.pat.length - 1 - pc then
      (st.pat.length : ℤ) else st.pat.reverse.idxOf c) =
      (a + alignShift st.pat pc c + (st.pat.length - 1) : ℕ) := by
    rw [alignShift]
    split_ifs <;> omega
  have hlast : (st.pat.length : ℤ) - 1 = (st.pat.length - 1 : ℕ) := by omega
  rw [strfindLoop, charAt_natCast, charAt_natCast, hb, hget]
  simp only [Option.bind_eq_bind, Option.bind_some, hbc, htab, if_neg hne, htc]
  by_cases hin : a + alignShift st.pat pc c + st.pat.length ≤ txt.length
  · rw [if_pos ⟨by omega, by omega⟩, if_pos hin, hlast]
  · rw [if_neg (by omega), if_neg hin]
    congr 1
    exact decide_eq_false (by omega)

/-- **The scan from an alignment on**, before which there is no occurrence. -/
theorem strfindLoop_eq (hsafe : NoJumpOver st.pat) (hne : st.pat ≠ [])
    (htab : ∀ c : UInt8, st.skiptab[c.toNat]? = some (st.pat.reverse.idxOf c : ℤ))
    {fuel a pc : ℕ} (hpc : pc < st.pat.length) (hin : a + st.pat.length ≤ txt.length)
    (hend : ∀ k < st.pat.length, pc < k → (foldText st.nocase txt)[a + k]? = st.pat[k]?)
    (hbefore : ∀ i < a, ¬ PatternAt st.pat (foldText st.nocase txt) i)
    (hfuel : (txt.length - a) * (st.pat.length + 1) + pc < fuel) :
    strfindLoop st txt fuel pc (a + pc : ℕ) =
      some (decide (st.pat <:+: foldText st.nocase txt)) := by
  induction fuel generalizing a pc with
  | zero => omega
  | succ fuel ih =>
    have hlen : (foldText st.nocase txt).length = txt.length := List.length_map _
    have hapc : a + pc < (foldText st.nocase txt).length := by omega
    obtain ⟨c, hc⟩ : ∃ c, (foldText st.nocase txt)[a + pc]? = some c :=
      ⟨_, List.getElem?_eq_getElem hapc⟩
    by_cases hagree : st.pat[pc]? = some c
    · rw [strfindLoop_agree hc hagree (htab c)]
      -- The end that agrees is one longer.
      have hend' : ∀ k < st.pat.length, pc ≤ k →
          (foldText st.nocase txt)[a + k]? = st.pat[k]? := by
        intro k hk hpck
        rcases hpck.eq_or_lt with rfl | hlt
        · rw [hc, hagree]
        · exact hend k hk hlt
      split
      next hpos =>
        exact ih (by omega) hin (fun k hk hlt => hend' k hk (by omega)) hbefore (by omega)
      next hzero =>
        have hocc : st.pat <:+: foldText st.nocase txt :=
          infix_iff_patternAt.mpr ⟨a, by omega, fun k hk => hend' k hk (by omega)⟩
        rw [decide_eq_true hocc]
    · rw [strfindLoop_shift hpc hc hagree (htab c)]
      set d := alignShift st.pat pc c with hd
      have hdpos : 0 < d := alignShift_pos hpc hagree
      have hpassed : ∀ i < a + d, ¬ PatternAt st.pat (foldText st.nocase txt) i := by
        intro i hi
        rcases Nat.lt_trichotomy i a with hlt | rfl | hgt
        · exact hbefore i hlt
        · exact fun hocc => hagree ((hocc pc hpc).symm.trans hc)
        · have hi' : i = a + (i - a) := by omega
          rw [hi']
          exact no_occurrence_passed hsafe hpc hagree hc hend (by omega) (by omega)
      split
      next hfits =>
        refine ih (by omega) hfits (fun k hk hlt => absurd hlt (by omega)) hpassed ?_
        -- A new alignment costs less than what is given back to `pc`.
        have hmul : (txt.length - (a + d)) * (st.pat.length + 1) + (st.pat.length + 1) ≤
            (txt.length - a) * (st.pat.length + 1) := by
          rw [← Nat.succ_mul]
          exact Nat.mul_le_mul_right _ (by omega)
        omega
      next hfits =>
        have hno : ¬ st.pat <:+: foldText st.nocase txt := by
          intro hinf
          obtain ⟨i, -, hi⟩ := infix_iff_patternAt.mp hinf
          have := hi.le_length hne
          exact hpassed i (by omega) hi
        rw [decide_eq_false hno]

theorem strfind_eq (hsafe : NoJumpOver st.pat) (hne : st.pat ≠ [])
    (htab : ∀ c : UInt8, st.skiptab[c.toNat]? = some (st.pat.reverse.idxOf c : ℤ)) :
    strfind st txt = some (decide (st.pat <:+: foldText st.nocase txt)) := by
  rw [strfind]
  have hpos := List.length_pos_of_ne_nil hne
  split
  next hshort =>
    have hno : ¬ st.pat <:+: foldText st.nocase txt := by
      intro hinf
      have := hinf.length_le
      rw [foldText, List.length_map] at this
      omega
    rw [decide_eq_false hno]
  next hlong =>
    have hlast : (st.pat.length : ℤ) - 1 = (st.pat.length - 1 : ℕ) := by omega
    have hfuel : (txt.length - 0) * (st.pat.length + 1) + (st.pat.length - 1) <
        (txt.length + 1) * (st.pat.length + 1) := by
      rw [Nat.sub_zero, Nat.succ_mul]
      omega
    have hloop := strfindLoop_eq hsafe hne htab (by omega) (by omega)
      (fun k hk hlt => absurd hlt (by omega)) (fun i hi => absurd hi (Nat.not_lt_zero i)) hfuel
    rwa [Nat.zero_add, ← hlast] at hloop

end

/-! ### The patterns that are searched rightly -/

/-- After `initskip`, every text is searched rightly, in which no NUL occurs. -/
def SearchesRightly (pattern : List UInt8) (ignoreCase : Bool) : Prop :=
  ∃ st, initskip pattern ignoreCase = some st ∧
    ∀ text, 0 ∉ text → strfind st text =
      some (decide (foldText ignoreCase pattern <:+: foldText ignoreCase text))

/-- The scan goes back to the place of the first alignment that does not agree, and moves the
pattern out of the text. -/
theorem strfindLoop_eq_false {st : SkipState} {txt : List UInt8} {c : UInt8} {pc s : ℕ}
    (htab : ∀ c : UInt8, st.skiptab[c.toNat]? = some (st.pat.reverse.idxOf c : ℤ))
    (hpc : pc < st.pat.length) (hs : s ≤ pc) (hlen : txt.length = s + st.pat.length)
    (hc : (foldText st.nocase txt)[pc]? = some c) (hne : st.pat[pc]? ≠ some c)
    (hfurther : alignShift st.pat pc c = pc + 1)
    (hend : ∀ k < st.pat.length, pc < k → (foldText st.nocase txt)[k]? = st.pat[k]?)
    {fuel j : ℕ} (hj : pc ≤ j) (hjlt : j < st.pat.length) (hfuel : j < fuel) :
    strfindLoop st txt fuel j (0 + j : ℕ) = some false := by
  induction fuel generalizing j with
  | zero => omega
  | succ fuel ih =>
    rcases hj.eq_or_lt with rfl | hlt
    · rw [strfindLoop_shift hpc (by rwa [Nat.zero_add]) hne (htab c), hfurther, if_neg (by omega)]
    · have hget := List.getElem?_eq_getElem hjlt
      rw [strfindLoop_agree (by rw [Nat.zero_add, hend j hjlt hlt, hget]) hget (htab _),
        if_pos (by omega)]
      exact ih (by omega) (by omega) (by omega)

theorem getElem?_take_append {α : Type*} {p : List α} {s k : ℕ} (hs : s ≤ p.length) (hk : s ≤ k) :
    (p.take s ++ p)[k]? = p[k - s]? := by
  have hlen : (p.take s).length = s := List.length_take_of_le hs
  rw [List.getElem?_append_right (by omega), hlen]

/-- **For which patterns the test is right about every text.** -/
theorem searchesRightly_iff {pattern : List UInt8} (hne : pattern ≠ []) (hzero : 0 ∉ pattern)
    (ignoreCase : Bool) :
    SearchesRightly pattern ignoreCase ↔
      (∀ c ∈ foldText ignoreCase pattern, c < 128) ∧ NoJumpOver (foldText ignoreCase pattern) := by
  set p := foldText ignoreCase pattern with hp
  have hpne : p ≠ [] := by rwa [hp, foldText, Ne, List.map_eq_nil_iff]
  constructor
  · rintro ⟨st, hst, hright⟩
    -- All characters have a place in the table.
    have hchars : ∀ c ∈ p, c < 128 := by
      intro c hc
      by_contra hbig
      rw [initskip_eq_none hzero ⟨c, hc, hbig⟩] at hst
      exact (Option.some_ne_none st).symm hst
    refine ⟨hchars, fun pc hpc s hs hpos ⟨hdiffer, ⟨k, hk, hpck, hagain⟩, hend⟩ => ?_⟩
    obtain ⟨st', hst', hpat, hnocase, htab⟩ := initskip_eq_some hzero hchars
    obtain rfl := Option.some.inj (hst.symm.trans hst')
    rw [← hp] at hpat
    -- The pattern, with its first characters once more before it.
    set text := pattern.take s ++ pattern with htext
    have hfold : foldText ignoreCase text = p.take s ++ p := by
      rw [htext, hp, foldText, foldText, List.map_append, List.map_take]
    have hlen : p.length = pattern.length := List.length_map _
    have hat : ∀ j, s ≤ j → (foldText ignoreCase text)[j]? = p[j - s]? := fun j hj => by
      rw [hfold, getElem?_take_append (by omega) hj]
    have hnul : 0 ∉ text := fun h => (List.mem_append.mp h).elim
      (fun h => hzero (List.mem_of_mem_take h)) hzero
    have hinf : p <:+: foldText ignoreCase text := by
      rw [hfold]
      exact (List.suffix_append _ _).isInfix
    have hgood := hright text hnul
    rw [decide_eq_true hinf] at hgood
    obtain ⟨c, hc⟩ : ∃ c, p[pc - s]? = some c :=
      ⟨_, List.getElem?_eq_getElem (show pc - s < p.length by omega)⟩
    -- The character stands further on than `pc`, too.
    have hshift : alignShift p pc c = pc + 1 := by
      rw [alignShift, if_pos]
      by_contra hnot
      refine getElem?_ne_of_idxOf_reverse (p := p) (c := c) hk ?_ (hagain.trans hc)
      omega
    have hbad : strfind st text = some false := by
      have htlen : text.length = s + p.length := by
        rw [htext, List.length_append, List.length_take, hlen]
        omega
      have hlast : (p.length : ℤ) - 1 = (p.length - 1 : ℕ) := by omega
      have hfuel : p.length - 1 < (text.length + 1) * (p.length + 1) := by
        rw [Nat.succ_mul]
        omega
      have hloop := strfindLoop_eq_false htab (by rwa [hpat]) hs (by rw [hpat, htlen])
        (by rw [hnocase, hat pc hs, hc]) (by rw [hpat]; exact fun h => hdiffer (hc.trans h.symm))
        (by rw [hpat, hshift])
        (fun j hj hlt => by rw [hnocase, hpat, hat j (by omega), hend j (by rwa [← hpat]) hlt])
        (by omega) (by rw [hpat]; omega) hfuel
      rw [strfind, hpat, if_neg (by omega), hlast]
      rwa [Nat.zero_add] at hloop
    rw [hbad] at hgood
    exact absurd hgood (by decide)
  · rintro ⟨hchars, hsafe⟩
    obtain ⟨st, hst, hpat, hnocase, htab⟩ := initskip_eq_some hzero hchars
    refine ⟨st, hst, fun text _ => ?_⟩
    rw [strfind_eq (by rwa [hpat]) (by rwa [hpat]) htab, hpat, hnocase]

/-- Such a pattern. -/
theorem searchesRightly_sample : SearchesRightly (bytes "Abba") true :=
  (searchesRightly_iff (by decide) (by decide) true).mpr (by decide +kernel)

/-- The pattern "aaba" is not found in "aaaaba": at the `a` before the `b` the table would move
the pattern backwards, and it is moved beyond the text. -/
theorem not_searchesRightly : ¬ ∀ (pattern : List UInt8) (ignoreCase : Bool), pattern ≠ [] →
    0 ∉ pattern → SearchesRightly pattern ignoreCase := by
  intro h
  obtain ⟨st, hst, hright⟩ := h (bytes "aaba") true (by decide) (by decide)
  have hgood := hright (bytes "aaaaba") (by decide)
  have hbad : (initskip (bytes "aaba") true).bind (fun st => strfind st (bytes "aaaaba")) =
      some false := by decide +kernel
  rw [hst, Option.bind_some, hgood] at hbad
  exact absurd hbad (by decide +kernel)

end Archie
