/-
The text form of a search of a strings database (`archstridx/api.c`).

`archGetStateString` writes the fields of the search, the key and the text of
the PaTrie state with blanks between them; the key is written as it is.
`archSetStateFromString` reads the fields by `sscanf`, skips them, and reads the
key by `patrieDequoteKey`, for which a blank is the end of the key and a percent
sign begins a quoted character.

* `scanFields_printFields` — the fields are read back.
* `dequoteKeyLoop_spec` — what is read as a key.
-/
import Archie.CText
import Archie.StateText
import Archie.Stridx

namespace Archie

/-! ### Writing -/

/-- `getSearchTypeChar`. -/
def getSearchTypeChar (h : StridxHandle) : Option UInt8 :=
  match h.srchType with
  | .exact => some 69
  | .regex => some 82
  | .substr => some 83
  | .unset => none

/-- The fields before the key, each with the blank after it. -/
def printFields (rState uState : ℕ) (stype : UInt8) (caseAccentSens : ℤ) : List UInt8 :=
  printULong rState ++ blank :: (printULong uState ++ blank :: stype :: blank ::
    (printSInt caseAccentSens ++ [blank]))

/-- `archGetStateString`. -/
def archGetStateString (h : StridxHandle) : Option (List UInt8) := do
  let stype ← getSearchTypeChar h
  let key ← h.key
  let fields := printFields h.rState h.uState stype h.caseAccentSens
  match h.pState with
  | none => some (fields ++ key)
  | some ps => do
    let str ← patrieGetStateString ps
    some (fields ++ (key ++ blank :: str))

/-! ### Reading -/

/-- `setSearchTypeFromChar`. -/
def setSearchTypeFromChar (c : UInt8) : Option SrchType :=
  if c = 69 then some .exact
  else if c = 83 then some .substr
  else if c = 82 then some .regex
  else none

/-- `sscanf(str, "%lu %lu %c %d", ...)`. -/
def scanFields (str : List UInt8) : Option (ℕ × ℕ × UInt8 × ℤ) := do
  let (r, s) ← scanULong str
  let (u, s) ← scanULong s
  let (c, s) ← scanChar s
  let (sens, _) ← scanSInt s
  some (r, u, c, sens)

/-- `s + strspn(s, " ")`. -/
def skipBlanks (s : List UInt8) : List UInt8 := s.dropWhile (· = blank)

/-- `str += strspn(str, " "); str += strcspn(str, " ");`, a number of times. -/
def skipFields : ℕ → List UInt8 → List UInt8
  | 0, s => s
  | n + 1, s => skipFields n ((skipBlanks s).dropWhile (· ≠ blank))

/-- The rest of a state string after the key. -/
def readPState (s : List UInt8) : Option (Option PatrieState) :=
  match s with
  | [] => some none
  | c :: s => if c = blank then (patrieSetStateFromString s).map some else some none

/-- `archSetStateFromString`. -/
def archSetStateFromString (h : StridxHandle) (str : List UInt8) : Option StridxHandle := do
  let (r, u, c, sens) ← scanFields str
  let srchType ← setSearchTypeFromChar c
  let (key, s) ← dequoteKey (skipBlanks (skipFields 4 str))
  let pState ← readPState s
  some
    { h with
      rState := r
      uState := u
      srchType := srchType
      caseAccentSens := sens
      key := some key
      pState := pState }

/-! ### The fields are read back -/

theorem noDigit_blank (s : List UInt8) : NoDigit (blank :: s) := noDigit_cons (by decide) s

/-- The fields of a search are read back. -/
theorem scanFields_printFields {r u : ℕ} (hr : r < wordSize) (hu : u < wordSize) {c : UInt8}
    (hc : isSpace c = false) {sens : ℤ} (hsens : IsInt sens) (s : List UInt8) :
    scanFields (printFields r u c sens ++ s) = some (r, u, c, sens) := by
  simp only [printFields, List.append_assoc, List.cons_append, List.nil_append]
  have hblank : isSpace blank = true := by decide
  rw [scanFields, scanULong_printULong hr (noDigit_blank _)]
  simp only [Option.bind_eq_bind, Option.bind_some, scanULong_space hblank,
    scanULong_printULong hu (noDigit_blank _), scanChar_cons hblank hc, scanSInt_space hblank,
    scanSInt_printSInt hsens (noDigit_blank s)]

/-! ### The fields are skipped -/

/-- A field is not empty and has no blank. -/
def IsField (w : List UInt8) : Prop := w ≠ [] ∧ blank ∉ w

theorem skipBlanks_field {w : List UInt8} (hw : IsField w) (s : List UInt8) :
    skipBlanks (w ++ s) = w ++ s := by
  obtain ⟨c, w, rfl⟩ := List.exists_cons_of_ne_nil hw.1
  have hc : c ≠ blank := fun h => hw.2 (by rw [h]; exact List.mem_cons_self)
  rw [skipBlanks, List.cons_append, List.dropWhile_cons_of_neg (by simpa using hc)]

theorem skipBlanks_blank (s : List UInt8) : skipBlanks (blank :: s) = skipBlanks s :=
  List.dropWhile_cons_of_pos (decide_eq_true rfl)

theorem dropWhile_field {w : List UInt8} (hw : IsField w) (s : List UInt8) :
    (w ++ blank :: s).dropWhile (· ≠ blank) = blank :: s := by
  have hall : ∀ c ∈ w, decide (c ≠ blank) = true := by
    intro c hc
    rw [decide_eq_true_iff]
    rintro rfl
    exact hw.2 hc
  rw [List.dropWhile_append_of_pos hall, List.dropWhile_cons_of_neg (by simp)]

theorem skipFields_field (n : ℕ) {w : List UInt8} (hw : IsField w) (s : List UInt8) :
    skipFields (n + 1) (w ++ blank :: s) = skipFields n (blank :: s) := by
  rw [skipFields, skipBlanks_field hw, dropWhile_field hw]

theorem skipFields_blank (n : ℕ) (s : List UInt8) :
    skipFields (n + 1) (blank :: s) = skipFields (n + 1) s := by
  rw [skipFields, skipFields, skipBlanks_blank]

theorem isField_printULong (n : ℕ) : IsField (printULong n) :=
  ⟨printULong_ne_nil n, fun h => (not_isSpace_of_isDigit (isDigit_printULong n _ h)).2.2.2 rfl⟩

theorem isField_printSInt (i : ℤ) : IsField (printSInt i) := by
  rw [printSInt]
  split
  · refine ⟨List.cons_ne_nil _ _, fun h => ?_⟩
    rcases List.mem_cons.mp h with h | h
    · exact absurd h (by decide)
    · exact (isField_printULong _).2 h
  · exact isField_printULong _

/-- The four fields are skipped up to the blank before the key. -/
theorem skipFields_printFields (r u : ℕ) {c : UInt8} (hc : c ≠ blank) (sens : ℤ)
    (s : List UInt8) :
    skipBlanks (skipFields 4 (printFields r u c sens ++ s)) = skipBlanks s := by
  have hchar : IsField [c] := ⟨List.cons_ne_nil _ _, by simpa using hc.symm⟩
  have hstep := skipFields_field 1 hchar (printSInt sens ++ blank :: s)
  rw [List.singleton_append] at hstep
  simp only [printFields, List.append_assoc, List.cons_append, List.nil_append]
  rw [skipFields_field 3 (isField_printULong r), skipFields_blank,
    skipFields_field 2 (isField_printULong u), skipFields_blank, hstep, skipFields_blank,
    skipFields_field 0 (isField_printSInt sens), skipFields, skipBlanks_blank]

/-! ### What is read as a key -/

theorem hexValue_ne_blank {c : UInt8} {n : ℕ} (h : hexValue c = some n) : c ≠ blank := by
  rintro rfl
  have hnone : hexValue blank = none := by decide
  rw [hnone] at h
  contradiction

theorem getHex_eq_some {s : List UInt8} {n : ℕ} (h : getHex s = some n) :
    ∃ c d s', s = c :: d :: s' ∧ c ≠ blank ∧ d ≠ blank := by
  match s, h with
  | c :: d :: s', h =>
    rw [getHex] at h
    simp only [Option.bind_eq_bind, Option.bind_eq_some_iff] at h
    obtain ⟨hi, hhi, lo, hlo, -⟩ := h
    exact ⟨c, d, s', rfl, hexValue_ne_blank hhi, hexValue_ne_blank hlo⟩

/-- A key is read up to a blank; with percent signs it gets shorter, and without
them it is copied. -/
theorem dequoteKeyLoop_spec {s : List UInt8} {k s' : List UInt8}
    (h : dequoteKeyLoop s = some (k, s')) :
    ∃ w, s = w ++ s' ∧ blank ∉ w ∧ Ends s' ∧ k.length ≤ w.length ∧
      (quoteCh ∈ w → k.length < w.length) ∧ (quoteCh ∉ w → k = w) := by
  induction hn : s.length using Nat.strong_induction_on generalizing s k with
  | _ n ih =>
    match s with
    | [] =>
      rw [dequoteKeyLoop] at h
      obtain ⟨rfl, rfl⟩ := Prod.mk.inj (Option.some.inj h)
      exact ⟨[], rfl, List.not_mem_nil, .inl rfl, le_refl _, fun h => absurd h List.not_mem_nil,
        fun _ => rfl⟩
    | c :: s =>
      rw [List.length_cons] at hn
      by_cases hb : c = blank
      · rw [dequoteKeyLoop, if_pos hb] at h
        obtain ⟨rfl, rfl⟩ := Prod.mk.inj (Option.some.inj h)
        exact ⟨[], rfl, List.not_mem_nil, .inr ⟨s, by rw [hb]⟩, le_refl _,
          fun h => absurd h List.not_mem_nil, fun _ => rfl⟩
      by_cases hq : c = quoteCh
      · rw [dequoteKeyLoop, if_neg hb, if_pos hq] at h
        simp only [Option.bind_eq_bind, Option.bind_eq_some_iff, Option.some.injEq] at h
        obtain ⟨x, hx, ⟨k', s''⟩, hk', heq⟩ := h
        obtain ⟨rfl, rfl⟩ := Prod.mk.inj heq
        obtain ⟨d, e, t, rfl, hd, he⟩ := getHex_eq_some hx
        rw [List.drop_succ_cons, List.drop_succ_cons, List.drop_zero] at hk'
        rw [List.length_cons, List.length_cons] at hn
        obtain ⟨w, rfl, hw, hends, hle, -, -⟩ := ih t.length (by omega) hk' rfl
        have hlt : (UInt8.ofNat x :: k').length < (c :: d :: e :: w).length := by
          simp only [List.length_cons]
          omega
        refine ⟨c :: d :: e :: w, rfl, ?_, hends, le_of_lt hlt, fun _ => hlt, fun hno => ?_⟩
        · simp only [List.mem_cons, not_or]
          exact ⟨Ne.symm hb, hd.symm, he.symm, hw⟩
        · exact absurd (by rw [hq]; exact List.mem_cons_self) hno
      · rw [dequoteKeyLoop_cons hb hq] at h
        obtain ⟨⟨k', s''⟩, hk', heq⟩ := Option.map_eq_some_iff.mp h
        obtain ⟨rfl, rfl⟩ := Prod.mk.inj heq
        obtain ⟨w, rfl, hw, hends, hle, hlt, hcopy⟩ := ih s.length (by omega) hk' rfl
        refine ⟨c :: w, rfl, ?_, hends, ?_, fun hin => ?_, fun hno => ?_⟩
        · simp only [List.mem_cons, not_or]
          exact ⟨Ne.symm hb, hw⟩
        · simp only [List.length_cons]
          omega
        · rcases List.mem_cons.mp hin with h | h
          · exact absurd h.symm hq
          · have := hlt h
            simp only [List.length_cons]
            omega
        · rw [hcopy fun h => hno (List.mem_cons_of_mem c h)]

/-- A key without blank or percent sign is read as it is. -/
theorem dequoteKeyLoop_plain {key rest : List UInt8} (hblank : blank ∉ key)
    (hquote : quoteCh ∉ key) (hrest : Ends rest) :
    dequoteKeyLoop (key ++ rest) = some (key, rest) := by
  induction key with
  | nil => exact dequoteKeyLoop_ends hrest
  | cons c key ih =>
    have hb : c ≠ blank := fun h => hblank (by rw [h]; exact List.mem_cons_self)
    have hq : c ≠ quoteCh := fun h => hquote (by rw [h]; exact List.mem_cons_self)
    rw [List.cons_append, dequoteKeyLoop_cons hb hq,
      ih (fun h => hblank (List.mem_cons_of_mem c h)) (fun h => hquote (List.mem_cons_of_mem c h))]
    rfl

theorem dequoteKey_eq_some {s k s' : List UInt8} (h : dequoteKey s = some (k, s')) :
    dequoteKeyLoop s = some (k, s') := by
  rw [dequoteKey] at h
  split at h
  next => contradiction
  next => exact h

/-! ### Counting the blanks of a state -/

theorem count_dequoteDigits (s : List UInt8) (mult n : ℕ) :
    (dequoteDigits s mult n).2.count blank = s.count blank := by
  induction s generalizing mult n with
  | nil => rfl
  | cons c s ih =>
    rw [dequoteDigits]
    by_cases hc : c = blank
    · rw [if_pos hc]
    · rw [if_neg hc, ih, List.count_cons_of_ne hc]

theorem count_dequoteULong {s s' : List UInt8} {n : ℕ} (h : dequoteULong s = some (n, s')) :
    s.count blank = s'.count blank := by
  rw [dequoteULong] at h
  split at h
  split at h
  · contradiction
  · next heq _ =>
    obtain ⟨rfl, rfl⟩ := Prod.mk.inj (Option.some.inj h)
    have hcount := count_dequoteDigits s 1 0
    rw [heq] at hcount
    exact hcount.symm

theorem count_dequoteSInt {s s' : List UInt8} {i : ℤ} (h : dequoteSInt s = some (i, s')) :
    s.count blank = s'.count blank := by
  rw [dequoteSInt] at h
  simp only [Option.bind_eq_bind, Option.bind_eq_some_iff, Option.some.injEq] at h
  obtain ⟨⟨n, t⟩, ht, heq⟩ := h
  obtain ⟨-, rfl⟩ := Prod.mk.inj heq
  exact count_dequoteULong ht

theorem count_expect {s s' : List UInt8} (h : expect blank s = some s') :
    s.count blank = s'.count blank + 1 := by
  cases s with
  | nil => contradiction
  | cons d s =>
    rw [expect] at h
    split at h
    next hd =>
      rw [hd, Option.some.inj h, List.count_cons_self]
    next => contradiction

theorem count_dequoteField {s s' : List UInt8} {i : ℤ} (h : dequoteField s = some (i, s')) :
    s.count blank = s'.count blank + 1 := by
  rw [dequoteField] at h
  simp only [Option.bind_eq_bind, Option.bind_eq_some_iff, Option.some.injEq] at h
  obtain ⟨⟨j, t⟩, ht, u, hu, heq⟩ := h
  obtain ⟨-, rfl⟩ := Prod.mk.inj heq
  rw [count_dequoteSInt ht, count_expect hu]

theorem count_dequoteNode {s s' : List UInt8} {node : PatrieNode}
    (h : dequoteNode s = some (node, s')) : s.count blank = s'.count blank + 8 := by
  rw [dequoteNode] at h
  simp only [Option.bind_eq_bind, Option.bind_eq_some_iff, Option.some.injEq] at h
  obtain ⟨⟨_, _⟩, h1, _, h2, ⟨_, _⟩, h3, ⟨_, _⟩, h4, ⟨_, _⟩, h5, ⟨_, _⟩, h6, ⟨_, _⟩, h7,
    ⟨_, _⟩, h8, ⟨_, _⟩, h9, ⟨_, _⟩, h10, heq⟩ := h
  obtain ⟨-, rfl⟩ := Prod.mk.inj heq
  dsimp only at *
  have c1 := count_dequoteULong h1
  have c2 := count_expect h2
  have c3 := count_dequoteField h3
  have c4 := count_dequoteField h4
  have c5 := count_dequoteField h5
  have c6 := count_dequoteField h6
  have c7 := count_dequoteField h7
  have c8 := count_dequoteField h8
  have c9 := count_dequoteField h9
  have c10 := count_dequoteSInt h10
  omega

theorem count_dequoteStack {n : ℕ} {s s' : List UInt8} {stack : List PatrieNode}
    (h : dequoteStack n s = some (stack, s')) : s.count blank = s'.count blank + (9 * n + 8) := by
  induction n generalizing s stack with
  | zero =>
    rw [dequoteStack] at h
    simp only [Option.bind_eq_bind, Option.bind_eq_some_iff, Option.some.injEq] at h
    obtain ⟨⟨node, t⟩, ht, heq⟩ := h
    obtain ⟨-, rfl⟩ := Prod.mk.inj heq
    rw [count_dequoteNode ht]
  | succ n ih =>
    rw [dequoteStack] at h
    simp only [Option.bind_eq_bind, Option.bind_eq_some_iff, Option.some.injEq] at h
    obtain ⟨⟨node, t⟩, ht, u, hu, ⟨stack', v⟩, hv, heq⟩ := h
    obtain ⟨-, rfl⟩ := Prod.mk.inj heq
    dsimp only at *
    have c1 := count_dequoteNode ht
    have c2 := count_expect hu
    have c3 := ih hv
    omega

/-- The number of blanks in the text of a state with the given top. -/
def blanksOf (top : ℤ) : ℕ := (if 0 < top + 1 then 9 * top.toNat + 8 else 0) + 4

theorem count_dequoteKeyLoop {s k s' : List UInt8} (h : dequoteKeyLoop s = some (k, s')) :
    s.count blank = s'.count blank := by
  obtain ⟨w, rfl, hw, -⟩ := dequoteKeyLoop_spec h
  rw [List.count_append, List.count_eq_zero_of_not_mem hw, Nat.zero_add]

theorem count_patrieSetStateFromString {s : List UInt8} {st : PatrieState}
    (h : patrieSetStateFromString s = some st) : s.count blank = blanksOf st.top := by
  rw [patrieSetStateFromString] at h
  simp only [Option.bind_eq_bind, Option.bind_eq_some_iff] at h
  obtain ⟨⟨top, s1⟩, h1, s2, h2, ⟨stack, s3⟩, h3, s4, h4, ⟨key, s5⟩, h5, s6, h6, ⟨sens, s7⟩, h7,
    s8, h8, ⟨first, s9⟩, h9, hend⟩ := h
  dsimp only at *
  have c1 := count_dequoteSInt h1
  have c2 := count_expect h2
  have c4 := count_expect h4
  have c6 := count_expect h6
  have c7 := count_dequoteSInt h7
  have c8 := count_expect h8
  have c9 := count_dequoteSInt h9
  have c3 : s2.count blank = s3.count blank + if 0 < top + 1 then 9 * top.toNat + 8 else 0 := by
    rw [dequoteStackPart] at h3
    split at h3
    next hpos =>
      have hn : (top + 1 - 1).toNat = top.toNat := by omega
      rw [count_dequoteStack h3, hn, if_pos hpos]
    next hneg =>
      obtain ⟨-, rfl⟩ := Prod.mk.inj (Option.some.inj h3)
      rw [if_neg hneg, Nat.add_zero]
  have c5 : s4.count blank = s5.count blank := by
    rw [dequoteKeyPart] at h5
    split at h5
    next => rw [(Prod.mk.inj (Option.some.inj h5)).2]
    next =>
      simp only [Option.bind_eq_bind, Option.bind_eq_some_iff, Option.some.injEq] at h5
      obtain ⟨⟨k, t⟩, ht, heq⟩ := h5
      obtain ⟨-, rfl⟩ := Prod.mk.inj heq
      exact count_dequoteKeyLoop (dequoteKey_eq_some ht)
  split at hend
  next hnil =>
    have htop : st.top = top := by rw [← Option.some.inj hend]
    rw [hnil, List.count_nil] at c9
    rw [htop, blanksOf]
    omega
  next => contradiction

end Archie
