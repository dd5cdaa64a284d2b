/-
Quoting for the forms of a search (`archsearch/util.c`).

`dequoteString` passes over a `%25` that no other `%` follows, as if a quote had been quoted
once more.  `quoteString` and the sizes do not know of this.

* `dequoteLoop_quoteString_iff` — which strings are restored.
* `dequoteLoop_spec` — how many characters are written for a string that is accepted.
* `quoting_iff` — when the functions fit together.
-/
import Archie.Quoting

namespace Archie.Util

/-! ### The functions -/

/-- `quote`: 1 for a character that is to be quoted. -/
def quote : List ℕ :=
  [1, 1, 1, 1, 1, 1, 1, 1, 1, 1, 1, 1, 1, 1, 1, 1,
   1, 1, 1, 1, 1, 1, 1, 1, 1, 1, 1, 1, 1, 1, 1, 1,
   1, 0, 1, 1, 0, 1, 1, 0, 0, 0, 0, 1, 0, 0, 0, 1,
   0, 0, 0, 0, 0, 0, 0, 0, 0, 0, 1, 1, 1, 1, 1, 1,
   1, 0, 0, 0, 0, 0, 0, 0, 0, 0, 0, 0, 0, 0, 0, 0,
   0, 0, 0, 0, 0, 0, 0, 0, 0, 0, 0, 1, 1, 1, 1, 0,
   1, 0, 0, 0, 0, 0, 0, 0, 0, 0, 0, 0, 0, 0, 0, 0,
   0, 0, 0, 0, 0, 0, 0, 0, 0, 0, 0, 1, 1, 1, 1, 1,
   1, 1, 1, 1, 1, 1, 1, 1, 1, 1, 1, 1, 1, 1, 1, 1,
   1, 1, 1, 1, 1, 1, 1, 1, 1, 1, 1, 1, 1, 1, 1, 1,
   1, 1, 1, 1, 1, 1, 1, 1, 1, 1, 1, 1, 1, 1, 1, 1,
   1, 1, 1, 1, 1, 1, 1, 1, 1, 1, 1, 1, 1, 1, 1, 1,
   1, 1, 1, 1, 1, 1, 1, 1, 1, 1, 1, 1, 1, 1, 1, 1,
   1, 1, 1, 1, 1, 1, 1, 1, 1, 1, 1, 1, 1, 1, 1, 1,
   1, 1, 1, 1, 1, 1, 1, 1, 1, 1, 1, 1, 1, 1, 1, 1,
   1, 1, 1, 1, 1, 1, 1, 1, 1, 1, 1, 1, 1, 1, 1, 1]

def isQuoted (c : UInt8) : Bool := quote.getD c.toNat 0 != 0

/-- `HEX`, which assumes a digit. -/
def hex (c : UInt8) : ℤ :=
  if charVal c ≤ 57 then charVal c - 48 else if charVal c ≤ 70 then charVal c + 10 - 65
    else charVal c + 10 - 97

/-- The `char` of two digits. -/
def unhex (c d : UInt8) : UInt8 := UInt8.ofNat ((hex c * 16 + hex d) % 256).toNat

/-- The loop of `size_dequoted`; the string ends where the list does. -/
def sizeDequotedLoop : List UInt8 → ℤ → ℤ
  | [], sz => sz
  | c :: s, sz =>
    if c ≠ 37 then sizeDequotedLoop s (sz + 1)
    else
      match s with
      | a :: b :: s => if isHex a && isHex b then sizeDequotedLoop s (sz + 1) else -1
      | _ => -1

/-- `size_dequoted`. -/
def sizeDequoted (s : List UInt8) : ℤ := sizeDequotedLoop s 0

/-- The loop of `size_quoted`. -/
def sizeQuotedLoop : List UInt8 → ℕ → ℕ
  | [], sz => sz
  | c :: s, sz => if isQuoted c then sizeQuotedLoop s (sz + 3) else sizeQuotedLoop s (sz + 1)

/-- `size_quoted`. -/
def sizeQuoted (s : List UInt8) : ℕ := sizeQuotedLoop s 0

/-- The loop of `dequoteString`: what it writes, or none if it reads past the end of the string. -/
def dequoteLoop : List UInt8 → Option (List UInt8)
  | [] => some []
  | c :: s =>
    if c ≠ 37 then (dequoteLoop s).map (c :: ·)
    else
      match s with
      | a :: b :: s =>
        if a = 50 ∧ b = 53 ∧ s.head? ≠ some 37 then
          -- `s += 2`: the next two characters are taken for the digits
          match s with
          | x :: y :: s => (dequoteLoop s).map (unhex x y :: ·)
          | _ => none
        else (dequoteLoop s).map (unhex a b :: ·)
      | _ => none

/-- What comes of `dequoteString`. -/
inductive Dequoted
  | null
  | pastEnd
  | string (dstr : List UInt8)
  deriving DecidableEq, Repr

/-- `dequoteString`. -/
def dequoteString (src : List UInt8) : Dequoted :=
  if sizeDequoted src < 0 then .null
  else
    match dequoteLoop src with
    | none => .pastEnd
    | some dstr => .string dstr

/-- `quoteString`. -/
def quoteString (src : List UInt8) : List UInt8 := quoteLoop (fun c => !isQuoted c) src

/-! ### What they are for -/

/-- The characters that may be left unquoted: letters, digits and `$-_.+!*'(),`. -/
def isUnquotedSafe (c : UInt8) : Bool :=
  isDigit c || (65 ≤ c && c ≤ 90) || (97 ≤ c && c ≤ 122) ||
    [36, 45, 95, 46, 43, 33, 42, 39, 40, 41, 44].contains c

/-- A string that has been quoted: safe characters, and `%` with two digits. -/
def IsQuotedText (q : List UInt8) : Prop :=
  ∃ parts : List (List UInt8), q = parts.flatten ∧ ∀ part ∈ parts,
    (∃ c, part = [c] ∧ isUnquotedSafe c = true) ∨ ∃ a b, part = [37, a, b] ∧ isHex a = true ∧
      isHex b = true

/-- A string is quoted, in the size that is allocated, and restored. -/
def QuotedAndBack (s : List UInt8) : Prop :=
  IsQuotedText (quoteString s) ∧ (quoteString s).length = sizeQuoted s ∧
    dequoteString (quoteString s) = .string s

/-- A string that is accepted fills the size that is allocated. -/
def FillsSize (t : List UInt8) : Prop :=
  0 ≤ sizeDequoted t → ∃ d, dequoteString t = .string d ∧ (d.length : ℤ) = sizeDequoted t

/-- A character that is to be quoted follows each `%`. -/
def percentsFollowed : List UInt8 → Bool
  | [] => true
  | c :: s => (c != 37 || s.head?.any isQuoted) && percentsFollowed s

/-- A `%` follows each `%25`, or else one other character and then a `%`, of which the digits are
passed over. -/
def escapesFollowed : List UInt8 → Bool
  | [] => true
  | c :: s =>
    if c ≠ 37 then escapesFollowed s
    else
      match s with
      | a :: b :: s =>
        if a = 50 ∧ b = 53 ∧ s.head? ≠ some 37 then
          match s with
          | _ :: y :: s => y == 37 && escapesFollowed s
          | _ => false
        else escapesFollowed s
      | _ => false

/-! ### Strings that are accepted -/

/-- A string in which two digits follow each `%`, and the number of its characters. -/
inductive Escaped : List UInt8 → ℕ → Prop
  | nil : Escaped [] 0
  | plain {c : UInt8} {s : List UInt8} {n : ℕ} (hc : c ≠ 37) (h : Escaped s n) : Escaped (c :: s) (n + 1)
  | escape {a b : UInt8} {s : List UInt8} {n : ℕ} (ha : isHex a = true) (hb : isHex b = true) (h : Escaped s n) :
      Escaped (37 :: a :: b :: s) (n + 1)

theorem Escaped.sizeDequotedLoop_eq {s : List UInt8} {n : ℕ} (h : Escaped s n) (sz : ℤ) :
    sizeDequotedLoop s sz = sz + n := by
  induction h generalizing sz with
  | nil => rw [sizeDequotedLoop, Nat.cast_zero, add_zero]
  | plain hc _ ih =>
    rw [sizeDequotedLoop.eq_def]
    dsimp only
    rw [if_pos hc, ih]
    push_cast
    omega
  | escape ha hb _ ih =>
    rw [sizeDequotedLoop.eq_def]
    dsimp only
    rw [if_neg (not_not.mpr rfl), ha, hb, Bool.and_self, if_pos rfl, ih]
    push_cast
    omega

theorem Escaped.sizeDequoted_eq {s : List UInt8} {n : ℕ} (h : Escaped s n) :
    sizeDequoted s = n := by
  rw [sizeDequoted, h.sizeDequotedLoop_eq, zero_add]

theorem exists_escaped : ∀ {s : List UInt8} {sz : ℤ}, 0 ≤ sizeDequotedLoop s sz → ∃ n, Escaped s n
  | [], _, _ => ⟨0, .nil⟩
  | c :: s, sz, h => by
    rw [sizeDequotedLoop.eq_def] at h
    dsimp only at h
    by_cases hc : c = 37
    · subst hc
      rw [if_neg (not_not.mpr rfl)] at h
      match s with
      | a :: b :: s =>
        dsimp only at h
        split at h
        next hhex =>
          obtain ⟨n, hn⟩ := exists_escaped h
          obtain ⟨ha, hb⟩ := Bool.and_eq_true_iff.mp hhex
          exact ⟨n + 1, .escape ha hb hn⟩
        next => exact absurd h (by decide)
      | [] => exact absurd h (show ¬ (0 : ℤ) ≤ -1 by decide)
      | [a] => exact absurd h (show ¬ (0 : ℤ) ≤ -1 by decide)
    · rw [if_pos hc] at h
      obtain ⟨n, hn⟩ := exists_escaped h
      exact ⟨n + 1, .plain hc hn⟩

/-! ### What is written -/

section

variable {a b c x y : UInt8} {s : List UInt8}

theorem dequoteLoop_plain (hc : c ≠ 37) : dequoteLoop (c :: s) = (dequoteLoop s).map (c :: ·) := by
  rw [dequoteLoop.eq_def]
  dsimp only
  rw [if_pos hc]

theorem dequoteLoop_escape (h : ¬ (a = 50 ∧ b = 53 ∧ s.head? ≠ some 37)) :
    dequoteLoop (37 :: a :: b :: s) = (dequoteLoop s).map (unhex a b :: ·) := by
  rw [dequoteLoop.eq_def]
  dsimp only
  rw [if_neg (not_not.mpr rfl), if_neg h]

/-- What follows a `%25` is taken for digits. -/
theorem dequoteLoop_skip (hx : x ≠ 37) :
    dequoteLoop (37 :: 50 :: 53 :: x :: y :: s) = (dequoteLoop s).map (unhex x y :: ·) := by
  rw [dequoteLoop.eq_def]
  dsimp only
  rw [if_neg (not_not.mpr rfl), if_pos ⟨rfl, rfl, by simpa using hx⟩]

theorem dequoteLoop_past (hs : s.length < 2) (hhead : s.head? ≠ some 37) :
    dequoteLoop (37 :: 50 :: 53 :: s) = none := by
  rw [dequoteLoop.eq_def]
  dsimp only
  rw [if_neg (not_not.mpr rfl), if_pos ⟨rfl, rfl, hhead⟩]
  match s with
  | [] => rfl
  | [x] => rfl
  | x :: y :: s => exact absurd hs (by simp)

theorem escapesFollowed_plain (hc : c ≠ 37) : escapesFollowed (c :: s) = escapesFollowed s := by
  rw [escapesFollowed.eq_def]
  dsimp only
  rw [if_pos hc]

theorem escapesFollowed_escape (h : ¬ (a = 50 ∧ b = 53 ∧ s.head? ≠ some 37)) :
    escapesFollowed (37 :: a :: b :: s) = escapesFollowed s := by
  rw [escapesFollowed.eq_def]
  dsimp only
  rw [if_neg (not_not.mpr rfl), if_neg h]

theorem escapesFollowed_skip (hx : x ≠ 37) :
    escapesFollowed (37 :: 50 :: 53 :: x :: y :: s) = (y == 37 && escapesFollowed s) := by
  rw [escapesFollowed.eq_def]
  dsimp only
  rw [if_neg (not_not.mpr rfl), if_pos ⟨rfl, rfl, by simpa using hx⟩]

theorem escapesFollowed_past (hs : s.length < 2) (hhead : s.head? ≠ some 37) :
    escapesFollowed (37 :: 50 :: 53 :: s) = false := by
  rw [escapesFollowed.eq_def]
  dsimp only
  rw [if_neg (not_not.mpr rfl), if_pos ⟨rfl, rfl, hhead⟩]
  match s with
  | [] => rfl
  | [x] => rfl
  | x :: y :: s => exact absurd hs (by simp)

end

/-- What is written, against the number of characters that are counted. -/
def Writes (o : Option (List UInt8)) (n : ℕ) (all : Bool) : Prop :=
  (∀ d, o = some d → d.length ≤ n) ∧ ((∃ d, o = some d ∧ d.length = n) ↔ all = true)

theorem Writes.cons {o : Option (List UInt8)} {n : ℕ} {all : Bool} (h : Writes o n all)
    (c : UInt8) :
    Writes (o.map (c :: ·)) (n + 1) all := by
  refine ⟨fun d hd => ?_, ?_⟩
  · obtain ⟨d', hd', rfl⟩ := Option.map_eq_some_iff.mp hd
    exact Nat.succ_le_succ (h.1 d' hd')
  · rw [← h.2]
    constructor
    · rintro ⟨d, hd, hlen⟩
      obtain ⟨d', hd', rfl⟩ := Option.map_eq_some_iff.mp hd
      exact ⟨d', hd', Nat.succ.inj hlen⟩
    · rintro ⟨d, hd, hlen⟩
      exact ⟨c :: d, by rw [hd]; rfl, congrArg (· + 1) hlen⟩

/-- Fewer characters than are counted. -/
theorem Writes.fewer {o : Option (List UInt8)} {n m : ℕ} {all : Bool} (h : Writes o n all)
    (hm : n < m) :
    Writes o m false := by
  refine ⟨fun d hd => (h.1 d hd).trans hm.le, iff_of_false ?_ Bool.false_ne_true⟩
  rintro ⟨d, hd, hlen⟩
  have := h.1 d hd
  omega

theorem Writes.none (n : ℕ) : Writes none n false :=
  ⟨fun d hd => absurd hd.symm (Option.some_ne_none d), iff_of_false (by simp) Bool.false_ne_true⟩

/-- **What is written** for a string that is accepted. -/
theorem dequoteLoop_spec {s : List UInt8} {n : ℕ} (h : Escaped s n) :
    Writes (dequoteLoop s) n (escapesFollowed s) := by
  induction hlen : s.length using Nat.strong_induction_on generalizing s n with
  | _ len ih =>
    subst hlen
    have hih : ∀ {s' : List UInt8} {n' : ℕ}, Escaped s' n' → s'.length < s.length →
        Writes (dequoteLoop s') n' (escapesFollowed s') := fun h' hlt => ih _ hlt h' rfl
    cases h with
    | nil =>
      exact ⟨fun d hd => by rw [← Option.some.inj hd]; exact le_rfl, iff_of_true ⟨[], rfl, rfl⟩ rfl⟩
    | plain hc h =>
      rw [dequoteLoop_plain hc, escapesFollowed_plain hc]
      exact (hih h (by simp)).cons _
    | @escape a b s n ha hb h =>
      by_cases hskip : a = 50 ∧ b = 53 ∧ s.head? ≠ some 37
      · obtain ⟨rfl, rfl, hhead⟩ := hskip
        cases h with
        | nil =>
          rw [dequoteLoop_past (by simp) hhead, escapesFollowed_past (by simp) hhead]
          exact Writes.none _
        | escape => exact absurd rfl hhead
        | plain hx h =>
          cases h with
          | nil =>
            rw [dequoteLoop_past (by simp) hhead, escapesFollowed_past (by simp) hhead]
            exact Writes.none _
          | plain hy h =>
            -- Three characters make one.
            rw [dequoteLoop_skip hx, escapesFollowed_skip hx, beq_eq_false_iff_ne.mpr hy,
              Bool.false_and]
            exact ((hih h (by simp only [List.length_cons]; omega)).cons _).fewer (by omega)
          | escape ha' hb' h =>
            -- The digits of the quote that follows are left as characters.
            rw [dequoteLoop_skip hx, escapesFollowed_skip hx, beq_self_eq_true, Bool.true_and]
            refine (hih (.plain (ne_percent_of_isHex ha')
              (.plain (ne_percent_of_isHex hb') h)) ?_).cons _
            simp only [List.length_cons]
            omega
      · rw [dequoteLoop_escape hskip, escapesFollowed_escape hskip]
        exact (hih h (by simp only [List.length_cons]; omega)).cons _

/-! ### Quoting and back -/

/-- Facts of the table, and of the digits of a character. -/
theorem isUnquotedSafe_of_not_isQuoted {c : UInt8} (h : isQuoted c = false) :
    isUnquotedSafe c = true := by
  refine forall_uint8 (P := fun c => isQuoted c = false → isUnquotedSafe c = true) ?_ c h
  decide +kernel

theorem unhex_hexChar (c : UInt8) :
    unhex (hexChar (c.toNat / 16)) (hexChar (c.toNat % 16)) = c := by
  refine forall_uint8 (P :=
    fun c => unhex (hexChar (c.toNat / 16)) (hexChar (c.toNat % 16)) = c) ?_ c
  decide +kernel

theorem hexChar_eq_percent {c : UInt8} : hexChar (c.toNat / 16) = 50 ∧ hexChar (c.toNat % 16) = 53 ↔
    c = 37 := by
  refine forall_uint8 (P :=
    fun c => hexChar (c.toNat / 16) = 50 ∧ hexChar (c.toNat % 16) = 53 ↔ c = 37) ?_ c
  decide +kernel

theorem isQuoted_hexChar (c : UInt8) : isQuoted (hexChar (c.toNat % 16)) = false := by
  refine forall_uint8 (P := fun c => isQuoted (hexChar (c.toNat % 16)) = false) ?_ c
  decide +kernel

theorem ne_percent_of_not_isQuoted {c : UInt8} (h : isQuoted c = false) : c ≠ 37 := by
  rintro rfl
  exact absurd h (by decide)

theorem quoteString_plain {c : UInt8} (hc : isQuoted c = false) (s : List UInt8) :
    quoteString (c :: s) = c :: quoteString s := by
  rw [quoteString, quoteLoop, List.flatMap_cons, hc]
  rfl

theorem quoteString_quoted {c : UInt8} (hc : isQuoted c = true) (s : List UInt8) :
    quoteString (c :: s) = 37 :: hexChar (c.toNat / 16) :: hexChar
      (c.toNat % 16) :: quoteString s := by
  rw [quoteString, quoteLoop, List.flatMap_cons, hc]
  rfl

theorem escaped_quoteString (s : List UInt8) : Escaped (quoteString s) s.length := by
  induction s with
  | nil => exact .nil
  | cons c s ih =>
    cases hc : isQuoted c with
    | false =>
      rw [quoteString_plain hc]
      exact .plain (ne_percent_of_not_isQuoted hc) ih
    | true =>
      rw [quoteString_quoted hc]
      obtain ⟨hhi, hlo, -⟩ := hexChar_pair c
      exact .escape hhi hlo ih

theorem isQuotedText_quoteString (s : List UInt8) : IsQuotedText (quoteString s) := by
  induction s with
  | nil => exact ⟨[], rfl, by simp⟩
  | cons c s ih =>
    obtain ⟨parts, hparts, hall⟩ := ih
    cases hc : isQuoted c with
    | false =>
      refine ⟨[c] :: parts, by rw [quoteString_plain hc, hparts]; rfl, ?_⟩
      exact List.forall_mem_cons.mpr ⟨.inl ⟨c, rfl, isUnquotedSafe_of_not_isQuoted hc⟩, hall⟩
    | true =>
      obtain ⟨hhi, hlo, -⟩ := hexChar_pair c
      refine ⟨[37, hexChar (c.toNat / 16), hexChar (c.toNat % 16)] :: parts, ?_, ?_⟩
      · rw [quoteString_quoted hc, hparts]
        rfl
      · exact List.forall_mem_cons.mpr ⟨.inr ⟨_, _, rfl, hhi, hlo⟩, hall⟩

theorem sizeQuotedLoop_eq (s : List UInt8) (sz : ℕ) :
    sizeQuotedLoop s sz = sz + (quoteString s).length := by
  induction s generalizing sz with
  | nil => rfl
  | cons c s ih =>
    rw [sizeQuotedLoop]
    cases hc : isQuoted c with
    | false =>
      rw [if_neg Bool.false_ne_true, ih, quoteString_plain hc, List.length_cons]
      omega
    | true =>
      rw [if_pos rfl, ih, quoteString_quoted hc]
      simp only [List.length_cons]
      omega

/-- The text of what follows begins with `%` if the first character is to be quoted. -/
theorem head?_quoteString (s : List UInt8) : (quoteString s).head? = some 37 ↔
    s.head?.any isQuoted = true := by
  cases s with
  | nil => exact iff_of_false (by simp [quoteString, quoteLoop]) (by simp)
  | cons c s =>
    rw [List.head?_cons, Option.any_some]
    cases hc : isQuoted c with
    | false =>
      rw [quoteString_plain hc, List.head?_cons, Option.some.injEq]
      exact iff_of_false (ne_percent_of_not_isQuoted hc) Bool.false_ne_true
    | true =>
      rw [quoteString_quoted hc]
      exact iff_of_true rfl rfl

theorem map_cons_eq_some {c : UInt8} {o : Option (List UInt8)} {s : List UInt8} :
    o.map (c :: ·) = some (c :: s) ↔ o = some s := by
  cases o <;> simp

/-- **Which strings are restored.** -/
theorem dequoteLoop_quoteString_iff (s : List UInt8) :
    dequoteLoop (quoteString s) = some s ↔ percentsFollowed s = true := by
  induction s with
  | nil => exact iff_of_true rfl rfl
  | cons c s ih =>
    rw [percentsFollowed]
    cases hc : isQuoted c with
    | false =>
      have hne := ne_percent_of_not_isQuoted hc
      rw [quoteString_plain hc, dequoteLoop_plain hne, map_cons_eq_some, ih, bne_iff_ne.mpr hne,
        Bool.true_or,
        Bool.true_and]
    | true =>
      rw [quoteString_quoted hc]
      by_cases hskip : hexChar (c.toNat / 16) = 50 ∧ hexChar (c.toNat % 16) = 53 ∧
        (quoteString s).head? ≠ some 37
      · -- A `%` before a character that is not quoted, or at the end.
        obtain ⟨hhi, hlo, hhead⟩ := hskip
        obtain rfl : c = 37 := hexChar_eq_percent.mp ⟨hhi, hlo⟩
        have hany : s.head?.any isQuoted = false := by
          rw [← Bool.not_eq_true]
          exact mt (head?_quoteString s).mpr hhead
        rw [hhi, hlo, hany, bne_self_eq_false, Bool.or_false, Bool.false_and]
        refine iff_of_false (fun hback => ?_) Bool.false_ne_true
        cases s with
        | nil =>
          have hpast : dequoteLoop (37 :: 50 :: 53 :: quoteString []) = none := by decide
          rw [hpast] at hback
          exact Option.some_ne_none _ hback.symm
        | cons d s =>
          have hd : isQuoted d = false := hany
          rw [quoteString_plain hd] at hback
          cases s with
          | nil =>
            rw [dequoteLoop_past (by simp [quoteString,
              quoteLoop]) (by simpa using ne_percent_of_not_isQuoted hd)] at hback
            exact Option.some_ne_none _ hback.symm
          | cons e s =>
            cases he : isQuoted e with
            | false =>
              -- Two characters are lost, and never made up for.
              rw [quoteString_plain he, dequoteLoop_skip (ne_percent_of_not_isQuoted hd)] at hback
              obtain ⟨later, hlater, heq⟩ := Option.map_eq_some_iff.mp hback
              have hle := (dequoteLoop_spec (escaped_quoteString s)).1 later hlater
              have hlen := congrArg List.length heq
              simp only [List.length_cons] at hlen
              omega
            | true =>
              -- The second digit stands where the quoted character should.
              obtain ⟨hhi', hlo', -⟩ := hexChar_pair e
              rw [quoteString_quoted he, dequoteLoop_skip (ne_percent_of_not_isQuoted hd),
                dequoteLoop_plain (ne_percent_of_isHex hhi'),
                  dequoteLoop_plain (ne_percent_of_isHex hlo')] at hback
              obtain ⟨later, hlater, heq⟩ := Option.map_eq_some_iff.mp hback
              obtain ⟨later', hlater', rfl⟩ := Option.map_eq_some_iff.mp hlater
              obtain ⟨later'', -, rfl⟩ := Option.map_eq_some_iff.mp hlater'
              have hdigit : hexChar (e.toNat % 16) = e := by
                simp only [List.cons.injEq] at heq
                exact heq.2.2.1
              have hsafe := isQuoted_hexChar e
              rw [hdigit, he] at hsafe
              exact Bool.false_ne_true hsafe.symm
      · rw [dequoteLoop_escape hskip, unhex_hexChar, map_cons_eq_some, ih, Bool.and_eq_true,
          Bool.or_eq_true,
          bne_iff_ne]
        have hfollowed : c ≠ 37 ∨ s.head?.any isQuoted = true := by
          by_contra hnot
          rw [not_or, not_not] at hnot
          obtain ⟨hhi, hlo⟩ := hexChar_eq_percent.mpr hnot.1
          exact hskip ⟨hhi, hlo, mt (head?_quoteString s).mp hnot.2⟩
        exact (and_iff_right hfollowed).symm

/-- **The functions fit together**: a string is restored if each `%` stands before a character that is
to be quoted; a string that is accepted fills its size if each `%25` stands before another `%`, or
before one character and then a `%`. -/
theorem quoting_iff (s t : List UInt8) :
    (QuotedAndBack s ↔ percentsFollowed s = true) ∧
      (FillsSize t ↔ (0 ≤ sizeDequoted t → escapesFollowed t = true)) := by
  constructor
  · have haccept : ¬ sizeDequoted (quoteString s) < 0 := by
      rw [(escaped_quoteString s).sizeDequoted_eq]
      omega
    have hsize : (quoteString s).length = sizeQuoted s := by
      rw [sizeQuoted, sizeQuotedLoop_eq, Nat.zero_add]
    rw [QuotedAndBack, and_iff_right (isQuotedText_quoteString s), and_iff_right hsize,
      dequoteString,
      if_neg haccept, ← dequoteLoop_quoteString_iff]
    cases dequoteLoop (quoteString s) <;> simp
  · refine forall_congr' fun haccept => ?_
    obtain ⟨n, hn⟩ := exists_escaped haccept
    rw [← (dequoteLoop_spec hn).2, dequoteString, if_neg (not_lt.mpr haccept), hn.sizeDequoted_eq]
    cases dequoteLoop t <;> simp

/-- A `%` before a blank is restored, before a letter it is not: the end of the string is passed. -/
theorem not_quoting :
    dequoteString (quoteString (bytes "5% b")) = .string (bytes "5% b") ∧
    dequoteString (quoteString (bytes "5%b")) = .pastEnd ∧
    ¬ ∀ s t : List UInt8, QuotedAndBack s ∧ FillsSize t := by
  refine ⟨by decide +kernel, by decide +kernel, fun h => ?_⟩
  obtain ⟨d, hd, -⟩ := (h [] (quoteString (bytes "5%b"))).2 (by decide +kernel)
  rw [show dequoteString (quoteString (bytes "5%b")) = .pastEnd by decide +kernel] at hd
  exact Dequoted.noConfusion hd

end Archie.Util
