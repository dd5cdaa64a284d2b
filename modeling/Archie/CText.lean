/-
Text as the C library reads and writes it: characters, numbers, words and lines.

A conversion of `scanf` is a function that gives the value and the text that is left.

* `scanULong_printULong`, `scanSInt_printSInt` — numbers are read back.
* `scanWord_append` — so are words, up to the white space after them.
* `fgetsLine_append` — a line is read up to its newline, if it fits.
-/
import Archie.CInt
import Mathlib.Data.List.TakeWhile

namespace Archie

/-- Strings are compared as lists of characters. -/
instance instLawfulBEqBytes : LawfulBEq (List UInt8) := inferInstance

/-- The characters of a string constant. -/
def bytes (s : String) : List UInt8 := s.toList.map fun c => UInt8.ofNat c.toNat

/-! ### Characters -/

/-- `isspace`. -/
def isSpace (c : UInt8) : Bool := c == 32 || (9 ≤ c && c ≤ 13)

/-- `isdigit`. -/
def isDigit (c : UInt8) : Bool := 48 ≤ c && c ≤ 57

/-- A blank or a tab. -/
def isBlankChar (c : UInt8) : Bool := c == 32 || c == 9

/-- `tolower`, in the C locale. -/
def asciiLower (c : UInt8) : UInt8 := if 65 ≤ c ∧ c ≤ 90 then c + 32 else c

/-- `strcasecmp` is 0. -/
def strcasecmpEq (s t : List UInt8) : Bool := s.map asciiLower == t.map asciiLower

/-- `strncasecmp` is 0. -/
def strncasecmpEq (s t : List UInt8) (n : ℕ) : Bool := strcasecmpEq (s.take n) (t.take n)

theorem strcasecmpEq_iff {s t : List UInt8} :
    strcasecmpEq s t = true ↔ s.map asciiLower = t.map asciiLower := by
  rw [strcasecmpEq, beq_iff_eq]

theorem toNat_decDigit {d : ℕ} (hd : d < 10) : (UInt8.ofNat (48 + d)).toNat = 48 + d := by
  rw [UInt8.toNat_ofNat']
  exact Nat.mod_eq_of_lt (by omega)

theorem isDigit_decDigit {d : ℕ} (hd : d < 10) : isDigit (UInt8.ofNat (48 + d)) = true := by
  revert d
  decide

theorem not_isSpace_of_isDigit {c : UInt8} (h : isDigit c = true) :
    isSpace c = false ∧ c ≠ 45 ∧ c ≠ 43 ∧ c ≠ 32 := by
  revert h
  exact forall_uint8 (P := fun c => isDigit c = true →
    isSpace c = false ∧ c ≠ 45 ∧ c ≠ 43 ∧ c ≠ 32) (by decide +kernel) c

/-! ### Numbers -/

/-- `%lu`. -/
def printULong (n : ℕ) : List UInt8 :=
  if n < 10 then [UInt8.ofNat (48 + n)]
  else printULong (n / 10) ++ [UInt8.ofNat (48 + n % 10)]
  termination_by n
  decreasing_by omega

/-- `%d`. -/
def printSInt (i : ℤ) : List UInt8 :=
  if i < 0 then 45 :: printULong i.natAbs else printULong i.natAbs

/-- The value of a row of digits. -/
def digitsValue (s : List UInt8) : ℕ := s.foldl (fun n c => 10 * n + (c.toNat - 48)) 0

/-- The number that `sscanf` finds after white space: whether it has a minus sign,
and its absolute value. -/
def scanNumber (s : List UInt8) : Option ((Bool × ℕ) × List UInt8) :=
  let s := s.dropWhile isSpace
  let t := if s.head? = some 45 ∨ s.head? = some 43 then s.tail else s
  if t.takeWhile isDigit = [] then none
  else some ((s.head? == some 45, digitsValue (t.takeWhile isDigit)), t.dropWhile isDigit)

/-- `%lu`, by `strtoul`. -/
def scanULong (s : List UInt8) : Option (ℕ × List UInt8) := do
  let ((minus, n), s) ← scanNumber s
  some (if wordSize ≤ n then wordSize - 1
    else if minus then (wordSize - n) % wordSize else n, s)

/-- `%d`, by `strtol`. -/
def scanSInt (s : List UInt8) : Option (ℤ × List UInt8) := do
  let ((minus, n), s) ← scanNumber s
  some (if minus then max (-2 ^ 31) (-n) else min (2 ^ 31 - 1) n, s)

theorem digitsValue_concat (s : List UInt8) {d : ℕ} (hd : d < 10) :
    digitsValue (s ++ [UInt8.ofNat (48 + d)]) = 10 * digitsValue s + d := by
  rw [digitsValue, List.foldl_append, List.foldl_cons, List.foldl_nil, toNat_decDigit hd,
    Nat.add_sub_cancel_left]
  rfl

theorem isDigit_printULong (n : ℕ) : ∀ c ∈ printULong n, isDigit c = true := by
  induction n using Nat.strong_induction_on with
  | _ n ih =>
    intro c hc
    rw [printULong] at hc
    split at hc
    next hlt =>
      rw [List.mem_singleton.mp hc]
      exact isDigit_decDigit hlt
    next hge =>
      rcases List.mem_append.mp hc with hc | hc
      · exact ih _ (by omega) c hc
      · rw [List.mem_singleton.mp hc]
        exact isDigit_decDigit (Nat.mod_lt _ (by omega))

theorem digitsValue_printULong (n : ℕ) : digitsValue (printULong n) = n := by
  induction n using Nat.strong_induction_on with
  | _ n ih =>
    rw [printULong]
    split
    next hlt => exact (digitsValue_concat [] hlt).trans (by simp [digitsValue])
    next hge =>
      rw [digitsValue_concat _ (Nat.mod_lt _ (by omega)), ih _ (by omega)]
      omega

theorem printULong_ne_nil (n : ℕ) : printULong n ≠ [] := by
  rw [printULong]
  split <;> simp

theorem printULong_injective {m n : ℕ} (h : printULong m = printULong n) : m = n := by
  rw [← digitsValue_printULong m, h, digitsValue_printULong]

theorem mem_printSInt {i : ℤ} {c : UInt8} (h : c ∈ printSInt i) : c = 45 ∨ isDigit c = true := by
  rw [printSInt] at h
  split at h
  · rcases List.mem_cons.mp h with rfl | h
    · exact Or.inl rfl
    · exact Or.inr (isDigit_printULong _ c h)
  · exact Or.inr (isDigit_printULong _ c h)

theorem printSInt_injective {i j : ℤ} (h : printSInt i = printSInt j) : i = j := by
  -- A minus sign is no digit.
  have hminus : ∀ {m n : ℕ}, 45 :: printULong m ≠ printULong n := by
    intro m n heq
    have hd := isDigit_printULong n 45 (heq ▸ List.mem_cons_self)
    exact absurd hd (by decide)
  rw [printSInt, printSInt] at h
  split_ifs at h with hi hj hj
  · have := printULong_injective (List.cons.inj h).2
    omega
  · exact absurd h hminus
  · exact absurd h.symm hminus
  · have := printULong_injective h
    omega

/-! ### Where a run of characters ends -/

/-- A run of characters is read up to what comes after it. -/
theorem takeWhile_run {p : UInt8 → Bool} {w rest : List UInt8} (hw : ∀ c ∈ w, p c = true)
    (hrest : ∀ c ∈ rest.head?, p c = false) :
    (w ++ rest).takeWhile p = w ∧ (w ++ rest).dropWhile p = rest := by
  have hstop : rest.takeWhile p = [] ∧ rest.dropWhile p = rest := by
    cases rest with
    | nil => exact ⟨rfl, rfl⟩
    | cons c rest =>
      have hc := hrest c rfl
      exact ⟨List.takeWhile_cons_of_neg (by simp [hc]), List.dropWhile_cons_of_neg (by simp [hc])⟩
  rw [List.takeWhile_append_of_pos hw, List.dropWhile_append_of_pos hw, hstop.1, hstop.2,
    List.append_nil]
  exact ⟨rfl, rfl⟩

/-- A text up to a character that is not in it. -/
theorem takeWhile_until {c : UInt8} {w : List UInt8} (h : c ∉ w) (rest : List UInt8) :
    (w ++ c :: rest).takeWhile (· ≠ c) = w ∧ (w ++ c :: rest).dropWhile (· ≠ c) = c :: rest := by
  refine takeWhile_run (fun d hd => decide_eq_true fun he => h (he ▸ hd)) fun d hd => ?_
  obtain rfl := Option.some.inj hd
  exact decide_eq_false (not_not.mpr rfl)

/-- No digit comes first. -/
def NoDigit (rest : List UInt8) : Prop := ∀ c ∈ rest.head?, isDigit c = false

theorem noDigit_nil : NoDigit [] := by
  intro c hc
  simp at hc

theorem noDigit_cons {c : UInt8} (hc : isDigit c = false) (rest : List UInt8) :
    NoDigit (c :: rest) := by
  intro d hd
  obtain rfl := Option.some.inj hd
  exact hc

/-- The digits are read up to what comes after them. -/
theorem takeWhile_digits {ds : List UInt8} (hds : ∀ c ∈ ds, isDigit c = true) {rest : List UInt8}
    (hrest : NoDigit rest) :
    (ds ++ rest).takeWhile isDigit = ds ∧ (ds ++ rest).dropWhile isDigit = rest :=
  takeWhile_run hds hrest

theorem takeWhile_printULong (n : ℕ) {rest : List UInt8} (hrest : NoDigit rest) :
    (printULong n ++ rest).takeWhile isDigit = printULong n ∧
      (printULong n ++ rest).dropWhile isDigit = rest :=
  takeWhile_digits (isDigit_printULong n) hrest

theorem dropWhile_isSpace_cons {c : UInt8} (hc : isSpace c = true) (s : List UInt8) :
    (c :: s).dropWhile isSpace = s.dropWhile isSpace :=
  List.dropWhile_cons_of_pos hc

theorem dropWhile_isSpace_of_head {c : UInt8} {s t : List UInt8} (hc : isSpace c = false)
    (hs : s = c :: t) : s.dropWhile isSpace = s := by
  rw [hs, List.dropWhile_cons_of_neg (by rw [hc]; exact Bool.false_ne_true)]

theorem scanNumber_space {c : UInt8} (hc : isSpace c = true) (s : List UInt8) :
    scanNumber (c :: s) = scanNumber s := by
  rw [scanNumber, scanNumber, dropWhile_isSpace_cons hc]

theorem scanNumber_digits {ds : List UInt8} (hne : ds ≠ []) (hds : ∀ c ∈ ds, isDigit c = true)
    {rest : List UInt8} (hrest : NoDigit rest) :
    scanNumber (ds ++ rest) = some ((false, digitsValue ds), rest) := by
  obtain ⟨c, t, hct⟩ := List.exists_cons_of_ne_nil hne
  obtain ⟨hsp, hm, hp, -⟩ := not_isSpace_of_isDigit (hds c (by rw [hct]; exact List.mem_cons_self))
  have hs : ds ++ rest = c :: (t ++ rest) := by
    rw [hct, List.cons_append]
  have hhead : (ds ++ rest).head? = some c := by rw [hs, List.head?_cons]
  obtain ⟨htake, hdrop⟩ := takeWhile_digits hds hrest
  rw [scanNumber, dropWhile_isSpace_of_head hsp hs]
  simp only [hhead, Option.some.injEq, hm, hp, or_self, if_false, htake, hdrop, hne]
  rw [show (some c == some (45 : UInt8)) = false from beq_eq_false_iff_ne.mpr
    (fun h => hm (Option.some.inj h))]

theorem scanNumber_printULong (n : ℕ) {rest : List UInt8} (hrest : NoDigit rest) :
    scanNumber (printULong n ++ rest) = some ((false, n), rest) := by
  rw [scanNumber_digits (printULong_ne_nil n) (isDigit_printULong n) hrest, digitsValue_printULong]

theorem scanNumber_minus (n : ℕ) {rest : List UInt8} (hrest : NoDigit rest) :
    scanNumber (45 :: (printULong n ++ rest)) = some ((true, n), rest) := by
  obtain ⟨htake, hdrop⟩ := takeWhile_printULong n hrest
  rw [scanNumber, dropWhile_isSpace_of_head (c := 45) (by decide) rfl]
  simp only [List.head?_cons, true_or, if_true, List.tail_cons, htake, hdrop,
    printULong_ne_nil, if_false, digitsValue_printULong]
  rfl

theorem scanULong_printULong {n : ℕ} (hn : n < wordSize) {rest : List UInt8}
    (hrest : NoDigit rest) :
    scanULong (printULong n ++ rest) = some (n, rest) := by
  rw [scanULong, scanNumber_printULong n hrest]
  simp only [Option.bind_eq_bind, Option.bind_some, if_neg (not_le.mpr hn)]
  rfl

theorem scanULong_space {c : UInt8} (hc : isSpace c = true) (s : List UInt8) :
    scanULong (c :: s) = scanULong s := by
  rw [scanULong, scanULong, scanNumber_space hc]

theorem scanSInt_printSInt {i : ℤ} (hi : IsInt i) {rest : List UInt8} (hrest : NoDigit rest) :
    scanSInt (printSInt i ++ rest) = some (i, rest) := by
  obtain ⟨hlo, hhi⟩ := hi
  rw [scanSInt, printSInt]
  split
  next hneg =>
    rw [List.cons_append, scanNumber_minus _ hrest]
    simp only [Option.bind_eq_bind, Option.bind_some, if_true, Option.some.injEq, Prod.mk.injEq,
      and_true]
    omega
  next hpos =>
    rw [scanNumber_printULong _ hrest]
    simp only [Option.bind_eq_bind, Option.bind_some, Bool.false_eq_true, if_false,
      Option.some.injEq, Prod.mk.injEq, and_true]
    omega

theorem scanSInt_space {c : UInt8} (hc : isSpace c = true) (s : List UInt8) :
    scanSInt (c :: s) = scanSInt s := by
  rw [scanSInt, scanSInt, scanNumber_space hc]

/-! ### Words -/

/-- `%c` after a blank in the format. -/
def scanChar (s : List UInt8) : Option (UInt8 × List UInt8) :=
  match s.dropWhile isSpace with
  | [] => none
  | c :: s => some (c, s)

/-- `%s`. -/
def scanWord (s : List UInt8) : Option (List UInt8 × List UInt8) :=
  let s := s.dropWhile isSpace
  if s = [] then none else some (s.takeWhile fun c => !isSpace c, s.dropWhile fun c => !isSpace c)

/-- A word is not empty and has no white space. -/
def IsWord (w : List UInt8) : Prop := w ≠ [] ∧ ∀ c ∈ w, isSpace c = false

instance (w : List UInt8) : Decidable (IsWord w) := inferInstanceAs (Decidable (_ ∧ _))

/-- Nothing or white space comes first. -/
def SpaceFirst (rest : List UInt8) : Prop := ∀ c ∈ rest.head?, isSpace c = true

theorem spaceFirst_nil : SpaceFirst [] := by
  intro c hc
  simp at hc

theorem spaceFirst_cons {c : UInt8} (hc : isSpace c = true) (rest : List UInt8) :
    SpaceFirst (c :: rest) := by
  intro d hd
  obtain rfl := Option.some.inj hd
  exact hc

theorem scanChar_cons {b c : UInt8} (hb : isSpace b = true) (hc : isSpace c = false)
    (s : List UInt8) :
    scanChar (b :: c :: s) = some (c, s) := by
  rw [scanChar, dropWhile_isSpace_cons hb, dropWhile_isSpace_of_head hc rfl]

theorem scanWord_space {c : UInt8} (hc : isSpace c = true) (s : List UInt8) :
    scanWord (c :: s) = scanWord s := by
  rw [scanWord, scanWord, dropWhile_isSpace_cons hc]

theorem dropWhile_isSpace_word {w : List UInt8} (hw : IsWord w) (s : List UInt8) :
    (w ++ s).dropWhile isSpace = w ++ s := by
  obtain ⟨c, t, rfl⟩ := List.exists_cons_of_ne_nil hw.1
  exact dropWhile_isSpace_of_head (hw.2 c List.mem_cons_self) rfl

theorem takeWhile_word {w rest : List UInt8} (hw : ∀ c ∈ w, isSpace c = false)
    (hrest : SpaceFirst rest) :
    (w ++ rest).takeWhile (fun c => !isSpace c) = w ∧
      (w ++ rest).dropWhile (fun c => !isSpace c) = rest := by
  refine takeWhile_run (fun c hc => ?_) (fun c hc => ?_)
  · rw [hw c hc]
    rfl
  · rw [hrest c hc]
    rfl

/-- A word is read up to the white space after it. -/
theorem scanWord_append {w rest : List UInt8} (hw : IsWord w) (hrest : SpaceFirst rest) :
    scanWord (w ++ rest) = some (w, rest) := by
  obtain ⟨htake, hdrop⟩ := takeWhile_word hw.2 hrest
  have hne : w ++ rest ≠ [] := by
    intro hnil
    exact hw.1 (List.append_eq_nil_iff.mp hnil).1
  rw [scanWord, dropWhile_isSpace_word hw, if_neg hne, htake, hdrop]

theorem scanWord_nil : scanWord [] = none := rfl

theorem isWord_printULong (n : ℕ) : IsWord (printULong n) :=
  ⟨printULong_ne_nil n, fun c hc => (not_isSpace_of_isDigit (isDigit_printULong n c hc)).1⟩

theorem isWord_printSInt (i : ℤ) : IsWord (printSInt i) := by
  rw [printSInt]
  split
  · refine ⟨List.cons_ne_nil _ _, ?_⟩
    intro c hc
    rcases List.mem_cons.mp hc with rfl | hc
    · decide
    · exact (isWord_printULong _).2 c hc
  · exact isWord_printULong _

/-! ### Parts of a text -/

/-- The text before the last occurrence of a character: `strrchr`. -/
def beforeLast (c : UInt8) (s : List UInt8) : Option (List UInt8) :=
  if c ∈ s then some (s.reverse.dropWhile (· ≠ c)).tail.reverse else none

theorem beforeLast_append {c : UInt8} (s : List UInt8) {t : List UInt8} (ht : c ∉ t) :
    beforeLast c (s ++ c :: t) = some s := by
  have hall : ∀ d ∈ t.reverse, decide (d ≠ c) = true := by
    intro d hd
    rw [decide_eq_true_iff]
    rintro rfl
    exact ht (List.mem_reverse.mp hd)
  rw [beforeLast, if_pos (by simp), List.reverse_append, List.reverse_cons, List.append_assoc,
    List.dropWhile_append_of_pos hall, List.singleton_append, List.dropWhile_cons_of_neg (by simp),
    List.tail_cons, List.reverse_reverse]

theorem beforeLast_none {c : UInt8} {s : List UInt8} (hs : c ∉ s) : beforeLast c s = none :=
  if_neg hs

/-- `strcasecmp`. -/
def strcasecmp : List UInt8 → List UInt8 → ℤ
  | [], [] => 0
  | [], b :: _ => -(asciiLower b).toNat
  | a :: _, [] => (asciiLower a).toNat
  | a :: s, b :: t =>
    if asciiLower a = asciiLower b then strcasecmp s t
    else (asciiLower a).toNat - (asciiLower b).toNat

/-- The codes of a string in lower case. -/
def lowerCodes (s : List UInt8) : List ℕ := s.map fun c => (asciiLower c).toNat

theorem lowerCodes_eq_iff {s t : List UInt8} : lowerCodes s = lowerCodes t ↔
    strcasecmpEq s t = true := by
  have hcodes : ∀ u : List UInt8, lowerCodes u = (u.map asciiLower).map UInt8.toNat := fun u => by
    rw [lowerCodes, List.map_map]
    rfl
  rw [strcasecmpEq_iff, hcodes, hcodes, List.map_inj_right fun _ _ h => UInt8.toNat_inj.mp h]

/-- It orders strings by their codes in lower case. -/
theorem strcasecmp_nonpos_iff {s t : List UInt8} (hs : 0 ∉ s) (ht : 0 ∉ t) :
    strcasecmp s t ≤ 0 ↔ ¬ List.Lex (· < ·) (lowerCodes t) (lowerCodes s) := by
  have hpos : ∀ c : UInt8, c ≠ 0 → 0 < (asciiLower c).toNat :=
    forall_uint8 (by decide +kernel)
  induction s generalizing t with
  | nil =>
    refine iff_of_true ?_ List.not_lex_nil
    cases t with
    | nil => exact le_rfl
    | cons b t =>
      rw [strcasecmp]
      omega
  | cons a s ih =>
    obtain ⟨ha, hs⟩ := List.ne_and_not_mem_of_not_mem_cons hs
    cases t with
    | nil =>
      have := hpos a (Ne.symm ha)
      refine iff_of_false ?_ (not_not.mpr List.Lex.nil)
      rw [strcasecmp]
      omega
    | cons b t =>
      obtain ⟨-, ht⟩ := List.ne_and_not_mem_of_not_mem_cons ht
      have hle := ih hs ht
      rw [strcasecmp, lowerCodes, lowerCodes, List.map_cons, List.map_cons, List.cons_lex_cons_iff]
      split
      next heq =>
        rw [heq]
        exact ⟨fun h h' => hle.mp h (h'.resolve_left (lt_irrefl _)).2,
          fun h => hle.mpr fun h' => h (Or.inr ⟨rfl, h'⟩)⟩
      next hne =>
        have hcode : (asciiLower b).toNat ≠ (asciiLower a).toNat :=
          fun h => hne (UInt8.toNat_inj.mp h).symm
        simp only [hcode, false_and, or_false]
        omega

/-- `atoi`. -/
def atoi (s : List UInt8) : ℤ := ((scanSInt s).map Prod.fst).getD 0

theorem atoi_digits {ds rest : List UInt8} (hne : ds ≠ []) (hds : ∀ c ∈ ds, isDigit c = true)
    (hrest : NoDigit rest) : atoi (ds ++ rest) = min (2 ^ 31 - 1) (digitsValue ds : ℤ) := by
  rw [atoi, scanSInt, scanNumber_digits hne hds hrest]
  rfl

/-- `%[...]`: the characters of a set. -/
def scanSet (p : UInt8 → Bool) (s : List UInt8) : Option (List UInt8 × List UInt8) :=
  if s.takeWhile p = [] then none else some (s.takeWhile p, s.dropWhile p)

/-- `%n[...]`: at most `n` of them. -/
def scanSetMax (n : ℕ) (p : UInt8 → Bool) (s : List UInt8) : Option (List UInt8 × List UInt8) :=
  let w := (s.take n).takeWhile p
  if w = [] then none else some (w, s.drop w.length)

theorem atoi_printSInt {i : ℤ} (hi : IsInt i) : atoi (printSInt i) = i := by
  have h := scanSInt_printSInt hi noDigit_nil
  rw [List.append_nil] at h
  rw [atoi, h, Option.map_some, Option.getD_some]

/-- A number that is no `int` is read as the largest one. -/
theorem atoi_printULong (n : ℕ) : atoi (printULong n) = min (2 ^ 31 - 1) (n : ℤ) := by
  have h := scanNumber_printULong n noDigit_nil
  rw [List.append_nil] at h
  rw [atoi, scanSInt, h]
  rfl

theorem length_printULong {n k : ℕ} (hk : 0 < k) (h : n < 10 ^ k) : (printULong n).length ≤ k := by
  induction k generalizing n with
  | zero => exact absurd hk (lt_irrefl 0)
  | succ k ih =>
    rw [printULong]
    split
    · exact Nat.succ_le_succ (Nat.zero_le k)
    next hn =>
      rw [pow_succ] at h
      rcases Nat.eq_zero_or_pos k with rfl | hpos
      · omega
      · rw [List.length_append, List.length_singleton]
        exact Nat.succ_le_succ (ih hpos (by omega))

theorem scanSet_append {p : UInt8 → Bool} {w rest : List UInt8} (hne : w ≠ [])
    (hw : ∀ c ∈ w, p c = true)
    (hrest : ∀ c ∈ rest.head?, p c = false) : scanSet p (w ++ rest) = some (w, rest) := by
  obtain ⟨htake, hdrop⟩ := takeWhile_run hw hrest
  rw [scanSet, htake, hdrop, if_neg hne]

theorem scanSet_none {p : UInt8 → Bool} {s : List UInt8} (h : ∀ c ∈ s.head?, p c = false) :
    scanSet p s = none := by
  cases s with
  | nil => rfl
  | cons c s => exact if_pos (List.takeWhile_cons_of_neg (by simp [h c rfl]))

/-- As many characters as the conversion takes at most. -/
theorem scanSetMax_append {n : ℕ} {p : UInt8 → Bool} {w : List UInt8} (hne : w ≠ [])
    (hn : w.length = n)
    (hw : ∀ c ∈ w, p c = true) (rest : List UInt8) :
    scanSetMax n p (w ++ rest) = some (w, rest) := by
  subst hn
  have htake : w.takeWhile p = w := List.takeWhile_eq_self_iff.mpr hw
  rw [scanSetMax, List.take_left, htake]
  simp only [if_neg hne, List.drop_left]

/-! ### Lines -/

/-- `fgets` into an array of `n` characters: the line, and the text after it. -/
def fgetsLine (n : ℕ) (text : List UInt8) : Option (List UInt8 × List UInt8) :=
  if text = [] then none
  else
    let chunk := text.take (n - 1)
    let line := chunk.takeWhile (· ≠ 10) ++ (chunk.dropWhile (· ≠ 10)).take 1
    some (line, text.drop line.length)

/-- A line that fits is read with its newline. -/
theorem fgetsLine_append {n : ℕ} {line : List UInt8} (hline : 10 ∉ line) (hn : line.length + 1 < n)
    (rest : List UInt8) : fgetsLine n (line ++ 10 :: rest) = some (line ++ [10], rest) := by
  have hall : ∀ c ∈ line, decide (c ≠ 10) = true := by
    intro c hc
    rw [decide_eq_true_iff]
    rintro rfl
    exact hline hc
  have hne : line ++ 10 :: rest ≠ [] := by simp
  have hchunk : ∃ t, (line ++ 10 :: rest).take (n - 1) = line ++ 10 :: t := by
    refine ⟨rest.take (n - 1 - (line.length + 1)), ?_⟩
    rw [List.take_append, List.take_of_length_le (by omega),
      show n - 1 - line.length = (n - 1 - (line.length + 1)) + 1 by omega, List.take_succ_cons]
  obtain ⟨t, ht⟩ := hchunk
  have hnl : (10 :: t).takeWhile (fun c => decide (c ≠ 10)) = [] ∧
      (10 :: t).dropWhile (fun c => decide (c ≠ 10)) = 10 :: t :=
    ⟨List.takeWhile_cons_of_neg (by simp), List.dropWhile_cons_of_neg (by simp)⟩
  rw [fgetsLine, if_neg hne]
  dsimp only
  rw [ht, List.takeWhile_append_of_pos hall, List.dropWhile_append_of_pos hall, hnl.1, hnl.2,
    List.append_nil, List.take_succ_cons, List.take_zero, List.length_append, List.length_singleton,
    ← List.drop_drop, List.drop_left, List.drop_one, List.tail_cons]

/-- An array that is full without a newline is read alone. -/
theorem fgetsLine_full {n : ℕ} {s : List UInt8} (hs : 10 ∉ s) (hn : s.length + 1 = n) (hne : s ≠ [])
    (rest : List UInt8) : fgetsLine n (s ++ rest) = some (s, rest) := by
  have hall : ∀ c ∈ s, decide (c ≠ 10) = true := by
    intro c hc
    rw [decide_eq_true_iff]
    rintro rfl
    exact hs hc
  rw [fgetsLine, if_neg (fun hnil => hne (List.append_eq_nil_iff.mp hnil).1)]
  dsimp only
  rw [show n - 1 = s.length by omega, List.take_left, List.takeWhile_eq_self_iff.mpr hall,
    List.dropWhile_eq_nil_iff.mpr hall, List.take_nil, List.append_nil, List.drop_left]

/-- The lines that `fgets` reads one after the other: each takes a character at least. -/
def fgetsLoop (n : ℕ) : ℕ → List UInt8 → List (List UInt8)
  | 0, _ => []
  | fuel + 1, text =>
    match fgetsLine n text with
    | none => []
    | some (line, rest) => line :: fgetsLoop n fuel rest

/-- All lines of a text. -/
def fgetsLines (n : ℕ) (text : List UInt8) : List (List UInt8) := fgetsLoop n text.length text

theorem length_fgetsLine {n : ℕ} (hn : 2 ≤ n) {text line rest : List UInt8}
    (h : fgetsLine n text = some (line, rest)) : rest.length < text.length := by
  rw [fgetsLine] at h
  split at h
  next => exact absurd h (by simp)
  next hne =>
    obtain ⟨c, s, rfl⟩ := List.exists_cons_of_ne_nil hne
    obtain ⟨hline, hrest⟩ := Prod.mk.inj (Option.some.inj h)
    have hchunk : (c :: s).take (n - 1) ≠ [] := by
      rw [show n - 1 = (n - 2) + 1 by omega, List.take_succ_cons]
      exact List.cons_ne_nil _ _
    -- The line is the text up to a newline, or all that fits.
    have hpos : 0 < line.length := by
      rw [← hline]
      obtain ⟨d, t, hdt⟩ := List.exists_cons_of_ne_nil hchunk
      rw [hdt]
      by_cases hd : d = 10
      · simp [hd]
      · simp [hd]
    rw [← hrest, hline, List.length_drop]
    exact Nat.sub_lt (by simp) hpos

/-- The count of rounds does not matter. -/
theorem fgetsLoop_eq {n : ℕ} (hn : 2 ≤ n) {fuel : ℕ} {text : List UInt8} (h : text.length ≤ fuel) :
    fgetsLoop n fuel text = fgetsLines n text := by
  rw [fgetsLines]
  induction fuel using Nat.strong_induction_on generalizing text with
  | _ fuel ih =>
    cases hline : fgetsLine n text with
    | none => cases fuel <;> cases text <;> simp [fgetsLoop, hline]
    | some p =>
      obtain ⟨line, rest⟩ := p
      have hrest := length_fgetsLine hn hline
      obtain ⟨f, rfl⟩ : ∃ f, fuel = f + 1 := ⟨fuel - 1, by omega⟩
      obtain ⟨k, hk⟩ : ∃ k, text.length = k + 1 := ⟨text.length - 1, by omega⟩
      rw [hk, fgetsLoop, fgetsLoop, hline]
      dsimp only
      rw [ih f (by omega) (by omega)]
      rcases Nat.lt_or_ge k (f + 1) with hlt | hge
      · rw [ih k hlt (by omega)]
      · omega

/-- A line that fits comes before the lines of the rest. -/
theorem fgetsLines_append {n : ℕ} {line : List UInt8} (hline : 10 ∉ line) (hn : line.length + 1 < n)
    (rest : List UInt8) :
    fgetsLines n (line ++ 10 :: rest) = (line ++ [10]) :: fgetsLines n rest := by
  rw [fgetsLines, List.length_append, List.length_cons, ← Nat.add_assoc, fgetsLoop,
    fgetsLine_append hline hn]
  dsimp only
  rw [fgetsLoop_eq (by omega) (by omega)]

/-- A last line without a newline. -/
theorem fgetsLines_last {n : ℕ} {line : List UInt8} (hne : line ≠ []) (hline : 10 ∉ line)
    (hn : line.length < n) : fgetsLines n line = [line] := by
  have hall : ∀ c ∈ line, decide (c ≠ 10) = true := by
    intro c hc
    rw [decide_eq_true_iff]
    rintro rfl
    exact hline hc
  have htake : line.take (n - 1) = line := List.take_of_length_le (by omega)
  have hget : fgetsLine n line = some (line, []) := by
    rw [fgetsLine, if_neg hne]
    simp only [htake, List.takeWhile_eq_self_iff.mpr hall, List.dropWhile_eq_nil_iff.mpr hall,
      List.take_nil, List.append_nil, List.drop_length]
  obtain ⟨k, hk⟩ := Nat.exists_eq_succ_of_ne_zero (mt List.length_eq_zero_iff.mp hne)
  rw [fgetsLines, hk, fgetsLoop, hget]
  cases k <;> rfl

/-! ### Fields -/

/-- `str_sep` of `archie_strings.c`, where `w` is what there is of a field.  There is no empty
field at the end. -/
def strSepFields (delim : UInt8) : List UInt8 → List UInt8 → List (List UInt8)
  | w, [] => if w = [] then [] else [w]
  | w, c :: s => if c = delim then w :: strSepFields delim [] s else strSepFields delim (w ++ [c]) s

theorem strSepFields_append {delim : UInt8} {v : List UInt8} (hv : delim ∉ v) (w s : List UInt8) :
    strSepFields delim w (v ++ s) = strSepFields delim (w ++ v) s := by
  induction v generalizing w with
  | nil => rw [List.nil_append, List.append_nil]
  | cons c v ih =>
    have hc : c ≠ delim := fun h => hv (h ▸ List.mem_cons_self)
    rw [List.cons_append, strSepFields, if_neg hc, ih (fun h => hv (List.mem_cons_of_mem c h)),
      List.append_assoc,
      List.singleton_append]

/-- Fields joined by the delimiter, and something after the last one. -/
theorem strSepFields_join {delim : UInt8} {fs : List (List UInt8)} (hne : fs ≠ [])
    (hfs : ∀ f ∈ fs, f ≠ [] ∧ delim ∉ f) {e : List UInt8} (he : delim ∉ e) :
    List.Forall₂ (fun f f' => f' = f ∨ f' = f ++ e) fs
      (strSepFields delim [] ([delim].intercalate fs ++ e)) := by
  induction fs with
  | nil => exact absurd rfl hne
  | cons f fs ih =>
    obtain ⟨hf, hdelim⟩ := hfs f List.mem_cons_self
    cases fs with
    | nil =>
      have hfields := @strSepFields_append delim (f ++ e)
        (fun h => (List.mem_append.mp h).elim hdelim he) [] []
      rw [List.append_nil, List.nil_append, strSepFields, if_neg (by simp [hf])] at hfields
      rw [List.intercalate_singleton, hfields]
      exact .cons (Or.inr rfl) .nil
    | cons g fs =>
      rw [List.intercalate_cons_cons, List.append_assoc, List.append_assoc,
        strSepFields_append hdelim, List.nil_append, List.singleton_append, strSepFields, if_pos rfl]
      exact .cons (Or.inl rfl) (ih (List.cons_ne_nil g fs)
        fun x hx => hfs x (List.mem_cons_of_mem f hx))

end Archie
