/-
A regular expression that is searched for as a substring (`reg2sci` of `archsearch/search.c`).

`archQuery` searches for what `reg2sci` returns without regard to case.  The regular expression
that it stands for has regard to it, where a letter is not between brackets together with its
other case; and `?` is an operator that the table misses.

* `reg2sci`, `chooseSearch` — the functions of the source.
* `Spells.places` — a text that is accepted is a row of places.
* `places_iff` — when a row of places is found where its substring is.
* `reg2sci_iff` — when the two searches agree.
-/
import Mathlib.Algebra.Order.BigOperators.Group.List
import Archie.CText
import Archie.Egrep
import Archie.Stridx

namespace Archie

/-! ### The functions -/

/-- `reg_table`: 1 for a character that is an operator. -/
def regTable : List ℕ :=
  [0, 0, 0, 0, 0, 0, 0, 0, 0, 0, 0, 0, 0, 0, 0, 0, 0, 0, 0, 0, 0, 0, 0, 0, 0, 0, 0, 0, 0, 0,
   0, 0, 0, 0, 0, 0, 1, 0, 0, 0, 1, 1, 1, 1, 0, 0, 1, 0, 0, 0, 0, 0, 0, 0, 0, 0, 0, 0, 0, 0,
   0, 0, 0, 0, 0, 0, 0, 0, 0, 0, 0, 0, 0, 0, 0, 0, 0, 0, 0, 0, 0, 0, 0, 0, 0, 0, 0, 0, 0, 0,
   0, 1, 1, 1, 1, 0, 0, 0, 0, 0, 0, 0, 0, 0, 0, 0, 0, 0, 0, 0, 0, 0, 0, 0, 0, 0, 0, 0, 0, 0,
   0, 0, 0, 1, 1, 1, 0, 0]

/-- `isalpha`, in the C locale. -/
def isAlpha (c : UInt8) : Bool := (65 ≤ c && c ≤ 90) || (97 ≤ c && c ≤ 122)

section

-- Whether there is something other than 0 where a character above 127 is looked up.
variable (outside : UInt8 → Bool)

/-- `reg_table[*s]`.  The table has 128 entries. -/
def isOperator (c : UInt8) : Bool := if c < 128 then regTable.getD c.toNat 0 != 0 else outside c

/-- `reg2sci`: what it writes, or none if it returns 0. -/
def reg2sci : List UInt8 → Option (List UInt8)
  | [] => some []
  | c :: s =>
    if c = 91 then
      match s with
      | a :: b :: z :: s =>
        if z ≠ 93 then none
        else if !isAlpha a || !isAlpha b || asciiLower a != asciiLower b then none
        else (reg2sci s).map (asciiLower a :: ·)
      | _ => none
    else if c = 92 then
      match s with
      | [] => none
      | c :: s => (reg2sci s).map (c :: ·)
    else if isOperator outside c then none
    else (reg2sci s).map (c :: ·)

/-- The types of a search: `EXACT`, `SUB` and `REGEX`. -/
inductive QueryType
  | exact
  | sub
  | regex
  deriving DecidableEq, Repr

/-- The arguments of `archQuery` that say what is searched for. -/
structure QueryArgs where
  qry : List UInt8
  type : QueryType
  caseSens : ℤ
  deriving DecidableEq, Repr

/-- `archQuery`, before it searches. -/
def chooseSearch (q : QueryArgs) : QueryArgs :=
  if q.type = .regex then
    match reg2sci outside q.qry with
    | some output => ⟨output, .sub, 0⟩
    | none => q
  else q

end

/-! ### What they are for -/

/-- A string of the strings file: `archAppendKey` adds no other. -/
structure StoredString (t : List UInt8) : Prop where
  ne_nil : t ≠ []
  chars : ∀ c ∈ t, c ≠ 0 ∧ c ≠ keysepCh

/-- A string occurs in another, but for the case of the letters. -/
def OccursAnyCase (s t : List UInt8) : Prop := s.map asciiLower <:+: t.map asciiLower

/-- Each letter is between brackets with its other case, and no operator is taken for a character. -/
def bothCases : List UInt8 → Bool
  | [] => true
  | c :: s =>
    if c = 91 then
      match s with
      | a :: b :: _ :: s => a != b && bothCases s
      | _ => false
    else if c = 92 then
      match s with
      | [] => false
      | c :: s => !isAlpha c && bothCases s
    else !isAlpha c && c != 63 && c != 10 && bothCases s

/-! ### Letters -/

/-- The same letter in the other case. -/
def otherCase (c : UInt8) : UInt8 := if c ≤ 90 then c + 32 else c - 32

theorem asciiLower_eq_iff_of_isAlpha {a : UInt8} (ha : isAlpha a = true) (c : UInt8) :
    asciiLower c = asciiLower a ↔ c = a ∨ c = otherCase a := by
  simp only [isAlpha, Bool.or_eq_true, Bool.and_eq_true, decide_eq_true_eq,
    UInt8.le_iff_toNat_le] at ha
  simp only [asciiLower, otherCase, UInt8.le_iff_toNat_le, ← UInt8.toNat_inj]
  split_ifs <;> simp [UInt8.toNat_add, UInt8.toNat_sub] at * <;> omega

theorem asciiLower_eq_iff_of_not_isAlpha {a : UInt8} (ha : isAlpha a = false) (c : UInt8) :
    asciiLower c = asciiLower a ↔ c = a := by
  simp only [isAlpha, Bool.or_eq_false_iff, Bool.and_eq_false_iff, decide_eq_false_iff_not,
    UInt8.le_iff_toNat_le] at ha
  simp only [asciiLower, UInt8.le_iff_toNat_le, ← UInt8.toNat_inj]
  split_ifs <;> simp [UInt8.toNat_add] at * <;> omega

theorem otherCase_ne (c : UInt8) : otherCase c ≠ c :=
  forall_uint8 (P := fun c => otherCase c ≠ c) (by decide +kernel) c

theorem asciiLower_asciiLower (c : UInt8) : asciiLower (asciiLower c) = asciiLower c :=
  forall_uint8 (P := fun c => asciiLower (asciiLower c) = asciiLower c) (by decide +kernel) c

theorem asciiLower_mem_iff (c : UInt8) : asciiLower c ∈ [0, 10] ↔ c ∈ [0, 10] :=
  forall_uint8 (P := fun c => asciiLower c ∈ [0, 10] ↔ c ∈ [0, 10]) (by decide +kernel) c

/-! ### Rows of places -/

/-- A place in a regular expression: the characters that it matches, the one that is written for it,
and how many `?` follow it. -/
structure Place where
  accepts : UInt8 → Bool
  written : UInt8
  optional : ℕ

namespace Place

def regex (p : Place) : Regex UInt8 := Regex.opts p.optional (.set p.accepts)

/-- What `reg2sci` writes for it. -/
def dest (p : Place) : List UInt8 := p.written :: List.replicate p.optional 63

/-- It matches a character that a stored string may have, and only forms of what is written. -/
structure Good (p : Place) : Prop where
  some_char : ∃ c, p.accepts c = true ∧ c ∉ [0, 10]
  form : ∀ c, p.accepts c = true → asciiLower c = asciiLower p.written

/-- It matches all forms of what is written, and is not optional. -/
structure Fits (p : Place) : Prop where
  all_forms : ∀ c, asciiLower c = asciiLower p.written → p.accepts c = true
  required : p.optional = 0

/-- No form of what is written ends a line. -/
theorem Good.not_mem {p : Place} (hp : p.Good) {c : UInt8}
    (hc : asciiLower c = asciiLower p.written) :
    c ∉ [0, 10] := by
  obtain ⟨a, ha, hstored⟩ := hp.some_char
  rw [← asciiLower_mem_iff, hc, ← hp.form a ha, asciiLower_mem_iff]
  exact hstored

/-- If a place does not match all forms, there is one that it does not match. -/
theorem exists_form {p : Place} (hreq : p.optional = 0) :
    ∃ c, asciiLower c = asciiLower p.written ∧ (p.accepts c = true → p.Fits) := by
  by_cases hall : ∀ c, asciiLower c = asciiLower p.written → p.accepts c = true
  · exact ⟨p.written, rfl, fun _ => ⟨hall, hreq⟩⟩
  · push Not at hall
    obtain ⟨c, hc, hno⟩ := hall
    exact ⟨c, hc, fun hyes => absurd hyes hno⟩

end Place

/-- The regular expression of a row of places, and what is written for it. -/
def placesRegex (ps : List Place) : Regex UInt8 := Regex.seq (ps.map Place.regex)

def placesDest (ps : List Place) : List UInt8 := ps.flatMap Place.dest

theorem storedString_of_forall {t : List UInt8} (hne : t ≠ []) (h : ∀ c ∈ t, c ∉ [0, 10]) :
    StoredString t := by
  refine ⟨hne, ?_⟩
  intro c hc
  simpa [keysepCh] using h c hc

/-- A row of places matches a character for each. -/
theorem matches_places {ps : List Place} {w : List UInt8}
    (h : List.Forall₂ (fun p c => p.accepts c = true) ps w) (l r : List UInt8) :
    (placesRegex ps).Matches l w r := by
  have hrow : List.Forall₂ (fun (e : Regex UInt8) m => ∀ l r, e.Matches l m r) (ps.map Place.regex)
      (w.map fun c => [c]) := by
    rw [List.forall₂_map_left_iff, List.forall₂_map_right_iff]
    exact h.imp fun p c hc l r => (Regex.Matches.set hc).opts _
  have hflat : (w.map fun c => [c]).flatten = w := by
    rw [← List.flatMap_def, List.flatMap_singleton']
  exact hflat ▸ Regex.matches_seq hrow l r

/-- With no `?`, it matches nothing else. -/
theorem matches_places_iff {ps : List Place} (hreq : ∀ p ∈ ps, p.optional = 0)
    (l m r : List UInt8) :
    (placesRegex ps).Matches l m r ↔ List.Forall₂ (fun p c => p.accepts c = true) ps m := by
  have hrow : ps.map Place.regex = (ps.map Place.accepts).map Regex.set := by
    rw [List.map_map]
    refine List.map_congr_left ?_
    intro p hp
    show Regex.opts p.optional _ = _
    rw [hreq p hp]
    rfl
  rw [placesRegex, hrow, Regex.matches_row_iff, List.forall₂_map_left_iff]

theorem placesDest_of_required {ps : List Place} (hreq : ∀ p ∈ ps, p.optional = 0) :
    placesDest ps = ps.map Place.written := by
  rw [placesDest, List.map_eq_flatMap]
  refine List.flatMap_congr ?_
  intro p hp
  rw [Place.dest, hreq p hp]
  rfl

theorem length_placesDest (ps : List Place) :
    (placesDest ps).length = ps.length + (ps.map Place.optional).sum := by
  induction ps with
  | nil => rfl
  | cons p ps ih =>
    rw [placesDest, List.flatMap_cons, List.length_append, ← placesDest, ih]
    simp [Place.dest]
    omega

/-- A list with a character for each place. -/
theorem exists_forall₂ {ps : List Place} {P : Place → UInt8 → Prop} (h : ∀ p ∈ ps, ∃ c, P p c) :
    ∃ w, List.Forall₂ P ps w := by
  induction ps with
  | nil => exact ⟨[], .nil⟩
  | cons p ps ih =>
    obtain ⟨c, hc⟩ := h p List.mem_cons_self
    obtain ⟨w, hw⟩ := ih fun q hq => h q (List.mem_cons_of_mem p hq)
    exact ⟨c :: w, .cons hc hw⟩

/-- With a `?`, the shortest match has no room for what is written. -/
theorem exists_found_short {ps : List Place} (hgood : ∀ p ∈ ps, p.Good) {p : Place} (hp : p ∈ ps)
    (hopt : p.optional ≠ 0) : ∃ t, StoredString t ∧ (placesRegex ps).Found t ∧
      t.length < (placesDest ps).length := by
  obtain ⟨w, hw⟩ := exists_forall₂ fun q hq => (hgood q hq).some_char
  have hlen : ps.length = w.length := hw.length_eq
  have hpos : 0 < ps.length := List.length_pos_of_mem hp
  have hstored : ∀ c ∈ w, c ∉ [0, 10] := by
    intro c hc
    obtain ⟨i, hi, rfl⟩ := List.getElem_of_mem hc
    exact (hw.get (by omega) hi).2
  refine ⟨w, storedString_of_forall (List.length_pos_iff.mp (by omega)) hstored, ?_, ?_⟩
  · exact ⟨[], w, [], by simp, matches_places (hw.imp fun _ _ h => h.1) _ _⟩
  · have hsum : p.optional ≤ (ps.map Place.optional).sum :=
      List.le_sum_of_mem (List.mem_map_of_mem hp)
    rw [length_placesDest]
    omega

/-- With no `?`, a string of forms that a place does not match has what is written. -/
theorem exists_occurs_not_found {ps : List Place} (hgood : ∀ p ∈ ps, p.Good)
    (hreq : ∀ p ∈ ps, p.optional = 0) {p : Place} (hp : p ∈ ps) (hfits : ¬ p.Fits) :
    ∃ t, StoredString t ∧ ¬ (placesRegex ps).Found t ∧ OccursAnyCase (placesDest ps) t := by
  obtain ⟨w, hw⟩ := exists_forall₂ fun q hq => Place.exists_form (hreq q hq)
  have hlen : ps.length = w.length := hw.length_eq
  have hpos : 0 < ps.length := List.length_pos_of_mem hp
  have hstored : ∀ c ∈ w, c ∉ [0, 10] := by
    intro c hc
    obtain ⟨i, hi, rfl⟩ := List.getElem_of_mem hc
    exact (hgood _ (List.getElem_mem _)).not_mem (hw.get (by omega) hi).1
  refine ⟨w, storedString_of_forall (List.length_pos_iff.mp (by omega)) hstored, ?_, ?_⟩
  · rintro ⟨l, m, r, hsplit, hm⟩
    rw [matches_places_iff hreq] at hm
    -- what is matched is as long as the string
    have hm' : m = w := by
      refine List.IsInfix.eq_of_length ⟨l, r, hsplit.symm⟩ ?_
      rw [← hm.length_eq, hlen]
    subst hm'
    obtain ⟨i, hi, rfl⟩ := List.getElem_of_mem hp
    exact hfits ((hw.get hi (by omega)).2 (hm.get hi (by omega)))
  · have hforms : (ps.map Place.written).map asciiLower = w.map asciiLower := by
      rw [List.map_map, ← List.forall₂_eq_eq_eq, List.forall₂_map_left_iff,
        List.forall₂_map_right_iff]
      exact hw.imp fun p c h => h.1.symm
    rw [OccursAnyCase, placesDest_of_required hreq]
    exact ⟨[], [], by rw [List.nil_append, List.append_nil, hforms]⟩

/-- If all places fit, all forms of what is written are matched. -/
theorem forall₂_accepts_iff {ps : List Place} (hgood : ∀ p ∈ ps, p.Good) (hfits : ∀ p ∈ ps, p.Fits)
    (m : List UInt8) : List.Forall₂ (fun p c => p.accepts c = true) ps m ↔
      (ps.map Place.written).map asciiLower = m.map asciiLower := by
  rw [List.map_map, ← List.forall₂_eq_eq_eq, List.forall₂_map_left_iff, List.forall₂_map_right_iff]
  constructor
  · intro h
    exact ((List.forall₂_and_left _ _).mpr ⟨hgood, h⟩).imp fun p c hc => (hc.1.form c hc.2).symm
  · intro h
    exact ((List.forall₂_and_left _ _).mpr ⟨hfits, h⟩).imp fun p c hc => hc.1.all_forms c hc.2.symm

/-- A row of places is found where its substring is, if and only if all places fit. -/
theorem places_iff {ps : List Place} (hgood : ∀ p ∈ ps, p.Good) :
    (∀ t, StoredString t → ((placesRegex ps).Found t ↔ OccursAnyCase (placesDest ps) t)) ↔
      ∀ p ∈ ps, p.Fits := by
  constructor
  · intro hsame
    have hreq : ∀ p ∈ ps, p.optional = 0 := by
      intro p hp
      by_contra hopt
      obtain ⟨t, ht, hfound, hlt⟩ := exists_found_short hgood hp hopt
      have hle := ((hsame t ht).mp hfound).length_le
      rw [List.length_map, List.length_map] at hle
      omega
    intro p hp
    by_contra hfits
    obtain ⟨t, ht, hno, hocc⟩ := exists_occurs_not_found hgood hreq hp hfits
    exact hno ((hsame t ht).mpr hocc)
  · intro hfits t _
    have hreq : ∀ p ∈ ps, p.optional = 0 := fun p hp => (hfits p hp).required
    rw [OccursAnyCase, placesDest_of_required hreq, List.infix_map_iff]
    constructor
    · rintro ⟨l, m, r, rfl, hm⟩
      rw [matches_places_iff hreq] at hm
      exact ⟨m, ⟨l, r, rfl⟩, (forall₂_accepts_iff hgood hfits m).mp hm⟩
    · rintro ⟨m, ⟨l, r, rfl⟩, hm⟩
      refine ⟨l, m, r, rfl, ?_⟩
      rw [matches_places_iff hreq]
      exact (forall₂_accepts_iff hgood hfits m).mpr hm

/-! ### The places of a text -/

variable {outside : UInt8 → Bool}

/-- What is known of a place and what follows it, when `s` is read before `rest`. -/
structure ReadAs (outside : UInt8 → Bool) (s rest d : List UInt8) (p : Place) : Prop where
  good : p.Good
  rest_dest : ∃ d', reg2sci outside rest = some d' ∧ d = p.dest ++ d'
  fits_iff : bothCases (s ++ rest) = true ↔ p.Fits ∧ bothCases rest = true

/-- The place of a single character. -/
def charPlace (c : UInt8) : Place := ⟨(· == c), c, 0⟩

theorem charPlace_good {c : UInt8} (hc : c ∉ [0, 10]) : (charPlace c).Good := by
  refine ⟨⟨c, beq_self_eq_true c, hc⟩, ?_⟩
  intro a ha
  rw [show a = c from beq_iff_eq.mp ha, charPlace]

theorem charPlace_fits_iff (c : UInt8) : (charPlace c).Fits ↔ isAlpha c = false := by
  constructor
  · intro h
    by_contra hc
    rw [Bool.not_eq_false] at hc
    have hform : asciiLower (otherCase c) = asciiLower c :=
      (asciiLower_eq_iff_of_isAlpha hc _).mpr (Or.inr rfl)
    exact otherCase_ne c (beq_iff_eq.mp (h.all_forms (otherCase c) hform))
  · intro hc
    refine ⟨?_, rfl⟩
    intro a ha
    exact beq_iff_eq.mpr ((asciiLower_eq_iff_of_not_isAlpha hc a).mp ha)

/-- The place of two letters between brackets. -/
def pairPlace (a b : UInt8) : Place := ⟨inBrackets [a, b], asciiLower a, 0⟩

theorem inBrackets_pair {a b : UInt8} (c : UInt8) : inBrackets [a, b] c = true ↔ c = a ∨ c = b := by
  by_cases hb : b = 45
  · subst hb
    simp [inBrackets]
  · simp [inBrackets]

section

variable {a b : UInt8} (ha : isAlpha a = true) (hab : asciiLower a = asciiLower b)
include ha hab

theorem pairPlace_good : (pairPlace a b).Good := by
  have ha' : a ∉ [0, 10] := by
    rintro hmem
    simp only [List.mem_cons, List.not_mem_nil, or_false] at hmem
    rcases hmem with rfl | rfl <;> cases ha
  refine ⟨⟨a, (inBrackets_pair a).mpr (Or.inl rfl), ha'⟩, ?_⟩
  intro c hc
  show asciiLower c = asciiLower (asciiLower a)
  rw [asciiLower_asciiLower]
  rcases (inBrackets_pair c).mp hc with rfl | rfl
  · rfl
  · exact hab.symm

theorem pairPlace_fits_iff : (pairPlace a b).Fits ↔ a ≠ b := by
  have hb' : b = a ∨ b = otherCase a := (asciiLower_eq_iff_of_isAlpha ha b).mp hab.symm
  have hforms : ∀ c, asciiLower c = asciiLower (pairPlace a b).written ↔ c = a ∨
      c = otherCase a := by
    intro c
    rw [← asciiLower_eq_iff_of_isAlpha ha, pairPlace, asciiLower_asciiLower]
  constructor
  · rintro h rfl
    have hother := h.all_forms _ ((hforms _).mpr (Or.inr rfl))
    rw [pairPlace, inBrackets_pair, or_self] at hother
    exact otherCase_ne a hother
  · intro hne
    refine ⟨?_, rfl⟩
    intro c hc
    rw [pairPlace, inBrackets_pair, hb'.resolve_left hne.symm]
    exact (hforms c).mp hc

end

theorem reg2sci_open {s d : List UInt8} (h : reg2sci outside (91 :: s) = some d) :
    ∃ a b s' d', s = a :: b :: 93 :: s' ∧ isAlpha a = true ∧ isAlpha b = true ∧
      asciiLower a = asciiLower b ∧
      reg2sci outside s' = some d' ∧ d = asciiLower a :: d' := by
  match s with
  | [] | [_] | [_, _] => simp [reg2sci] at h
  | a :: b :: z :: s =>
    simp only [reg2sci, if_true] at h
    split_ifs at h with hz halpha
    obtain ⟨d', hd', rfl⟩ := Option.map_eq_some_iff.mp h
    simp only [ne_eq, not_not] at hz
    simp only [Bool.or_eq_true, Bool.not_eq_true', bne_iff_ne, not_or, Bool.not_eq_false,
      not_not] at halpha
    subst hz
    exact ⟨a, b, s, d', rfl, halpha.1.1, halpha.1.2, halpha.2, hd', rfl⟩

theorem reg2sci_escape {c : UInt8} {s d : List UInt8}
    (h : reg2sci outside (92 :: c :: s) = some d) :
    ∃ d', reg2sci outside s = some d' ∧ d = c :: d' := by
  simp only [reg2sci.eq_def outside (92 :: c :: s),
    if_neg (show (92 : UInt8) ≠ 91 by decide), if_true] at h
  obtain ⟨d', hd', rfl⟩ := Option.map_eq_some_iff.mp h
  exact ⟨d', hd', rfl⟩

theorem reg2sci_plain {c : UInt8} {s d : List UInt8} (hc : c ≠ 91 ∧ c ≠ 92)
    (h : reg2sci outside (c :: s) = some d) :
    isOperator outside c = false ∧ ∃ d', reg2sci outside s = some d' ∧ d = c :: d' := by
  simp only [reg2sci.eq_def outside (c :: s), if_neg hc.1, if_neg hc.2] at h
  split_ifs at h with hop
  obtain ⟨d', hd', rfl⟩ := Option.map_eq_some_iff.mp h
  exact ⟨Bool.not_eq_true _ ▸ hop, d', hd', rfl⟩

/-- An operator of the table is not accepted. -/
theorem reg2sci_operator {c : UInt8} (hc : c ∈ [36, 40, 41, 42, 43, 46, 94, 124]) (s : List UInt8) :
    reg2sci outside (c :: s) = none := by
  have hop : ∀ c ∈ ([36, 40, 41, 42, 43, 46, 94, 124] : List UInt8), c ≠ 91 ∧ c ≠ 92 ∧
      c < 128 ∧ (regTable.getD c.toNat 0 != 0) = true := by decide +kernel
  obtain ⟨h91, h92, hlt, htable⟩ := hop c hc
  simp only [reg2sci.eq_def outside (c :: s), if_neg h91, if_neg h92, isOperator, if_pos hlt,
    if_pos htable]

/-- A character that stands for itself, and is accepted. -/
theorem readAs_plain {c : UInt8} {rest d : List UInt8} (hc : c ∉ operators)
    (h : reg2sci outside (c :: rest) = some d) : ReadAs outside [c] rest d (charPlace c) := by
  simp only [operators, List.mem_cons, List.not_mem_nil, or_false, not_or] at hc
  have hbrackets : c ≠ 91 ∧ c ≠ 92 := by tauto
  obtain ⟨-, d', hd', rfl⟩ := reg2sci_plain hbrackets h
  refine ⟨charPlace_good (by simp; tauto), ⟨d', hd', rfl⟩, ?_⟩
  have hcond : bothCases (c :: rest) = (!isAlpha c && bothCases rest) := by
    simp only [bothCases.eq_def (c :: rest), if_neg hbrackets.1, if_neg hbrackets.2]
    have h63 : (c != 63) = true := by simp; tauto
    have h10 : (c != 10) = true := by simp; tauto
    rw [h63, h10, Bool.and_true, Bool.and_true]
  show bothCases (c :: rest) = true ↔ _
  rw [hcond, Bool.and_eq_true, Bool.not_eq_true', charPlace_fits_iff]

theorem readAs_escape {c : UInt8} {rest d : List UInt8} (hc : c ≠ 0 ∧ c ≠ 10)
    (h : reg2sci outside (92 :: c :: rest) = some d) :
    ReadAs outside [92, c] rest d (charPlace c) := by
  obtain ⟨d', hd', rfl⟩ := reg2sci_escape h
  refine ⟨charPlace_good (by simp [hc]), ⟨d', hd', rfl⟩, ?_⟩
  have hcond : bothCases (92 :: c :: rest) = (!isAlpha c && bothCases rest) := by
    simp only [bothCases.eq_def (92 :: c :: rest),
      if_neg (show (92 : UInt8) ≠ 91 by decide), if_true]
  show bothCases (92 :: c :: rest) = true ↔ _
  rw [hcond, Bool.and_eq_true, Bool.not_eq_true', charPlace_fits_iff]

theorem readAs_pair {a b : UInt8} {rest d' : List UInt8} (ha : isAlpha a = true)
    (hab : asciiLower a = asciiLower b) (h : reg2sci outside rest = some d') :
    ReadAs outside [91, a, b, 93] rest (asciiLower a :: d') (pairPlace a b) := by
  refine ⟨pairPlace_good ha hab, ⟨d', h, rfl⟩, ?_⟩
  have hcond : bothCases (91 :: a :: b :: 93 :: rest) = (a != b && bothCases rest) := by
    simp only [bothCases.eq_def (91 :: a :: b :: 93 :: rest), if_true]
  show bothCases (91 :: a :: b :: 93 :: rest) = true ↔ _
  rw [hcond, Bool.and_eq_true, bne_iff_ne, pairPlace_fits_iff ha hab]

/-- What `reg2sci` accepts of the parts that bind closest. -/
theorem Spells.atom_place {s : List UInt8} {e : Regex UInt8} (h : Spells .atom s e)
    {rest d : List UInt8}
    (hd : reg2sci outside (s ++ rest) = some d) :
    ∃ p : Place, e = p.regex ∧ p.optional = 0 ∧ ReadAs outside s rest d p := by
  cases h with
  | @char c hc => exact ⟨charPlace c, rfl, rfl, readAs_plain hc hd⟩
  | @escape c hc => exact ⟨charPlace c, rfl, rfl, readAs_escape hc hd⟩
  | any => cases (reg2sci_operator (by simp) _).symm.trans hd
  | lineStart => cases (reg2sci_operator (by simp) _).symm.trans hd
  | lineEnd => cases (reg2sci_operator (by simp) _).symm.trans hd
  | group h => cases (reg2sci_operator (by simp) _).symm.trans hd
  | @complement x s hx hs =>
    obtain ⟨a, b, s', d', heq, ha, -⟩ := reg2sci_open hd
    have hhat : a = 94 := (List.cons.inj heq).1.symm
    subst hhat
    cases ha
  | @brackets x s hx hs =>
    obtain ⟨a, b, s', d', heq, ha, hb, hab, hd', rfl⟩ := reg2sci_open hd
    -- no `]` stands between the brackets, and no letter is one
    match s, heq with
    | [], heq =>
      obtain ⟨-, heq⟩ := List.cons.inj heq
      have hclose : b = 93 := (List.cons.inj heq).1.symm
      subst hclose
      cases hb
    | [y], heq =>
      obtain ⟨hxa, heq⟩ := List.cons.inj heq
      obtain ⟨hyb, heq⟩ := List.cons.inj heq
      obtain ⟨-, hrest⟩ := List.cons.inj heq
      subst hxa hyb
      change rest = s' at hrest
      subst hrest
      exact ⟨pairPlace x y, rfl, rfl, readAs_pair ha hab hd'⟩
    | y :: z :: s, heq =>
      obtain ⟨-, heq⟩ := List.cons.inj heq
      obtain ⟨-, heq⟩ := List.cons.inj heq
      have hclose : z = 93 := (List.cons.inj heq).1
      exact absurd hclose (by simpa using fun hz => hs z (by simp) (by simp [hz]))

/-- A `?` is taken for a character. -/
theorem reg2sci_question {s d : List UInt8} (h : reg2sci outside (63 :: s) = some d) :
    ∃ d', reg2sci outside s = some d' ∧ d = 63 :: d' := (reg2sci_plain (by decide) h).2

theorem bothCases_missed {c : UInt8} (hc : c = 63 ∨ c = 10) (s : List UInt8) :
    bothCases (c :: s) = false := by
  have hbrackets : c ≠ 91 ∧ c ≠ 92 := by rcases hc with rfl | rfl <;> decide
  simp only [bothCases.eq_def (c :: s), if_neg hbrackets.1, if_neg hbrackets.2]
  rcases hc with rfl | rfl <;> simp

/-- What `reg2sci` accepts of the parts that are repeated: they end in `?` only. -/
theorem Spells.piece_place {s : List UInt8} {e : Regex UInt8} (h : Spells .piece s e)
    {rest d : List UInt8}
    (hd : reg2sci outside (s ++ rest) = some d) : ∃ p : Place, e = p.regex ∧
      ReadAs outside s rest d p := by
  generalize hlevel : Level.piece = level at h
  induction h generalizing rest d with
  | atom h =>
    obtain ⟨p, he, -, hread⟩ := h.atom_place hd
    exact ⟨p, he, hread⟩
  | @opt s e h ih =>
    rw [List.append_assoc, List.cons_append, List.nil_append] at hd
    obtain ⟨p, rfl, hread⟩ := ih hd rfl
    obtain ⟨d₁, hd₁, rfl⟩ := hread.rest_dest
    obtain ⟨d₂, hd₂, rfl⟩ := reg2sci_question hd₁
    refine ⟨{ p with optional := p.optional + 1 }, rfl, ⟨hread.good.some_char, hread.good.form⟩, ?_,
      ?_⟩
    · refine ⟨d₂, hd₂, ?_⟩
      rw [Place.dest, Place.dest, List.replicate_succ']
      simp
    · rw [List.append_assoc, List.cons_append, List.nil_append, hread.fits_iff,
        bothCases_missed (Or.inl rfl)]
      constructor
      · rintro ⟨-, hfalse⟩
        cases hfalse
      · rintro ⟨hfits, -⟩
        cases hfits.required
  | star h ih | plus h ih =>
    rw [List.append_assoc, List.cons_append, List.nil_append] at hd
    obtain ⟨p, -, hread⟩ := ih hd rfl
    obtain ⟨d₁, hd₁, -⟩ := hread.rest_dest
    cases (reg2sci_operator (by simp) _).symm.trans hd₁
  | _ => cases hlevel

/-- What `reg2sci` accepts of a sequence. -/
theorem Spells.branch_places {s : List UInt8} {e : Regex UInt8} (h : Spells .branch s e)
    {rest d : List UInt8}
    (hd : reg2sci outside (s ++ rest) = some d) :
    ∃ ps : List Place, e = placesRegex ps ∧ (∀ p ∈ ps, p.Good) ∧
      (∃ d', reg2sci outside rest = some d' ∧ d = placesDest ps ++ d') ∧
      (bothCases (s ++ rest) = true ↔ (∀ p ∈ ps, p.Fits) ∧ bothCases rest = true) := by
  generalize hlevel : Level.branch = level at h
  induction h generalizing rest d with
  | nil => exact ⟨[], rfl, by simp, ⟨d, hd, rfl⟩, by simp⟩
  | cons h h' _ ih =>
    rw [List.append_assoc] at hd
    obtain ⟨p, rfl, hread⟩ := h.piece_place hd
    obtain ⟨d₁, hd₁, rfl⟩ := hread.rest_dest
    obtain ⟨ps, rfl, hgood, ⟨d₂, hd₂, rfl⟩, hfits⟩ := ih hd₁ rfl
    refine ⟨p :: ps, rfl, List.forall_mem_cons.mpr ⟨hread.good, hgood⟩, ⟨d₂, hd₂, ?_⟩, ?_⟩
    · rw [← List.append_assoc]
      rfl
    · rw [List.append_assoc, hread.fits_iff, hfits, List.forall_mem_cons, and_assoc]
  | _ => cases hlevel

/-- A row of places matches some stored string, no longer than what is written. -/
theorem exists_matches {ps : List Place} (hgood : ∀ p ∈ ps, p.Good) :
    ∃ w, w.length ≤ (placesDest ps).length ∧ (∀ c ∈ w, c ∉ [0, 10]) ∧
      ∀ l r, (placesRegex ps).Matches l w r := by
  obtain ⟨w, hw⟩ := exists_forall₂ fun q hq => (hgood q hq).some_char
  refine ⟨w, ?_, ?_, matches_places (hw.imp fun _ _ h => h.1)⟩
  · rw [← hw.length_eq, length_placesDest]
    exact Nat.le_add_right _ _
  · intro c hc
    obtain ⟨i, hi, rfl⟩ := List.getElem_of_mem hc
    exact (hw.get (by rw [hw.length_eq]; exact hi) hi).2

/-- What `reg2sci` accepts: one row of places, or alternatives on lines of their own. -/
theorem Spells.places {s : List UInt8} {e : Regex UInt8} (h : Spells .whole s e) {d : List UInt8}
    (hd : reg2sci outside s = some d) :
    (∃ ps : List Place, e = placesRegex ps ∧ (∀ p ∈ ps, p.Good) ∧ d = placesDest ps ∧
      (bothCases s = true ↔ ∀ p ∈ ps, p.Fits)) ∨
    (10 ∈ d ∧ bothCases s = false ∧ ∃ w, (∀ c ∈ w, c ∉ [0, 10]) ∧ ∀ l r, e.Matches l w r) := by
  cases h with
  | branch h =>
    rw [← List.append_nil s] at hd
    obtain ⟨ps, he, hgood, ⟨d', hd', rfl⟩, hfits⟩ := h.branch_places hd
    cases hd'
    refine Or.inl ⟨ps, he, hgood, List.append_nil _, ?_⟩
    rw [List.append_nil] at hfits
    simpa [bothCases] using hfits
  | alt h hc h' =>
    obtain ⟨ps, rfl, hgood, ⟨d', hd', rfl⟩, hfits⟩ := h.branch_places hd
    rcases hc with rfl | rfl
    · cases (reg2sci_operator (by simp) _).symm.trans hd'
    · obtain ⟨-, d'', -, rfl⟩ := reg2sci_plain (by decide) hd'
      obtain ⟨w, -, hstored, hw⟩ := exists_matches hgood
      refine Or.inr ⟨by simp, ?_, w, hstored, fun l r => .altLeft (hw l r)⟩
      rw [← Bool.not_eq_true, hfits]
      rintro ⟨-, hcond⟩
      rw [bothCases_missed (Or.inr rfl)] at hcond
      cases hcond

/-! ### The two searches -/

/-- `archQuery` replaces a regular expression that `reg2sci` accepts by a substring, whatever the
case.  The substring occurs in the stored strings in which the regular expression matches, if and
only if each letter is between brackets with its other case, and there is no `?` or line feed. -/
theorem reg2sci_iff {src dest : List UInt8} {e : Regex UInt8} (hsrc : Spells .whole src e)
    (hdest : reg2sci outside src = some dest) (caseSens : ℤ) :
    chooseSearch outside ⟨src, .regex, caseSens⟩ = ⟨dest, .sub, 0⟩ ∧
      ((∀ t, StoredString t → (e.Found t ↔ OccursAnyCase dest t)) ↔ bothCases src = true) := by
  constructor
  · simp only [chooseSearch, if_true, hdest]
  · rcases hsrc.places hdest with ⟨ps, rfl, hgood, rfl, hfits⟩ | ⟨hmem, hcond, w, hstored, hw⟩
    · rw [places_iff hgood, hfits]
    · rw [hcond]
      refine iff_of_false ?_ Bool.false_ne_true
      intro hsame
      -- a stored string has no line feed
      have ht : StoredString (w ++ [97]) := storedString_of_forall (by simp) (by
        intro c hc
        rcases List.mem_append.mp hc with hc | hc
        · exact hstored c hc
        · rw [List.mem_singleton.mp hc]
          decide)
      have hocc := (hsame _ ht).mp ⟨[], w, [97], by simp, hw _ _⟩
      obtain ⟨c, hc, hline⟩ := List.mem_map.mp (hocc.subset (List.mem_map_of_mem hmem))
      have hc' : c ∈ [0, 10] := (asciiLower_mem_iff c).mp (by rw [hline]; decide)
      exact absurd hc' (by simpa [keysepCh] using ht.chars c hc)

/-- The regular expression of one character. -/
theorem spells_char {c : UInt8} (hc : c ∉ operators) :
    Spells .whole [c] (.cat (.set (· == c)) .empty) := .branch (.cons (.atom (.char hc)) .nil)

/-- `[aA]` is found where `a` or `A` is. -/
theorem reg2sci_iff_pair :
    reg2sci (fun _ => false) [91, 97, 65, 93] = some [97] ∧
      ∀ t, StoredString t →
        ((Regex.cat (.set (inBrackets [97, 65])) .empty).Found t ↔ OccursAnyCase [97] t) := by
  have hsrc : Spells .whole [91, 97, 65, 93] (.cat (.set (inBrackets [97, 65])) .empty) :=
    .branch (.cons (.atom (@Spells.brackets 97 [65] (by decide +kernel) (by decide +kernel))) .nil)
  have hdest : reg2sci (fun _ => false) [91, 97, 65, 93] = some [97] := by decide +kernel
  exact ⟨hdest, (reg2sci_iff hsrc hdest 0).2.mpr (by decide +kernel)⟩

/-- The regular expression `a` does not match in `A`, in which its substring occurs. -/
theorem not_reg2sci_same :
    ¬ ∀ (outside : UInt8 → Bool) (src dest : List UInt8) (e : Regex UInt8), Spells .whole src e →
      reg2sci outside src = some dest → ∀ t, StoredString t →
        (e.Found t ↔ OccursAnyCase dest t) := by
  intro h
  have hfound := (h (fun _ => false) [97] [97] _
      (spells_char (by decide +kernel)) (by decide +kernel) [65]
    (storedString_of_forall
      (by decide +kernel) (by decide +kernel))).mpr (by rw [OccursAnyCase]; decide +kernel)
  obtain ⟨l, m, r, hsplit, hm⟩ := hfound
  obtain ⟨m₁, m₂, rfl, hm₁, hm₂⟩ := Regex.matches_cat_iff.mp hm
  obtain ⟨c, hc, rfl⟩ := Regex.matches_set_iff.mp hm₁
  have hmem : c ∈ [(65 : UInt8)] := by
    rw [hsplit]
    simp
  rw [List.mem_singleton.mp hmem] at hc
  cases hc

end Archie
