/-
The round trip of the text form of a search state.

Every writer of `State.lean` is undone by its reader, whatever follows: the
number and key readers stop at the blank (or the end) behind what was written
(`Ends`), so that each part can be read off the front of the text.

* `dequoteULong_quoteNumber`, `dequoteKey_quoteKey`, `dequoteStack_quoteStack` —
  the parts;
* `length_quoteState` — `stateSpace` is the length of the text;
* `patrieSetStateFromString_patrieGetStateString` — the whole round trip.
-/
import Archie.State
import Mathlib.Data.Nat.ModEq
import Mathlib.Tactic.Ring
import Mathlib.Tactic.Tauto

namespace Archie

/-! ### Numbers -/

/-- What may follow a number or a key: the end of the text or a blank. -/
def Ends (s : List UInt8) : Prop := s = [] ∨ ∃ t, s = blank :: t

@[simp] theorem ends_nil : Ends [] := .inl rfl

@[simp] theorem ends_blank (s : List UInt8) : Ends (blank :: s) := .inr ⟨s, rfl⟩

/-- The printable characters, which are neither nul nor blank. -/
def IsPrintable (c : UInt8) : Prop := 33 ≤ c.toNat ∧ c.toNat ≤ 126

instance (c : UInt8) : Decidable (IsPrintable c) := inferInstanceAs (Decidable (_ ∧ _))

theorem IsPrintable.ne_blank {c : UInt8} (h : IsPrintable c) : c ≠ blank := by
  rintro rfl
  exact absurd h.1 (by decide)

theorem IsPrintable.ne_zero {c : UInt8} (h : IsPrintable c) : c ≠ 0 := by
  rintro rfl
  exact absurd h.1 (by decide)

theorem toNat_digit (n : ℕ) :
    (UInt8.ofNat (firstCh + n % encBase)).toNat = 33 + n % encBase := by
  have hlt : n % encBase < 94 := Nat.mod_lt _ (by decide)
  rw [UInt8.toNat_ofNat', firstCh]
  exact Nat.mod_eq_of_lt (by omega)

theorem isPrintable_digit (n : ℕ) : IsPrintable (UInt8.ofNat (firstCh + n % encBase)) := by
  have hlt : n % encBase < 94 := Nat.mod_lt _ (by decide)
  rw [IsPrintable, toNat_digit]
  omega

/-- `*s - FIRST_CH` gives the digit back. -/
theorem ulong_charVal_digit (n : ℕ) :
    ulong (charVal (UInt8.ofNat (firstCh + n % encBase)) - firstCh) = n % encBase := by
  have hlt : n % encBase < 94 := Nat.mod_lt _ (by decide)
  rw [charVal, toNat_digit, if_pos (by omega), ulong, firstCh]
  omega

theorem isPrintable_quoteNumber (n : ℕ) : ∀ c ∈ quoteNumber n, IsPrintable c := by
  induction n using Nat.strong_induction_on with
  | _ n ih =>
    rw [quoteNumber]
    intro c hc
    rcases List.mem_cons.mp hc with rfl | hc
    · exact isPrintable_digit n
    · split at hc
      · next hpos => exact ih _ (by unfold encBase at *; omega) c hc
      · simp at hc

theorem quoteNumber_ne_nil (n : ℕ) : quoteNumber n ≠ [] := by
  rw [quoteNumber]
  exact List.cons_ne_nil _ _

theorem dequoteDigits_ends {rest : List UInt8} (h : Ends rest) (mult n : ℕ) :
    dequoteDigits rest mult n = (n, rest) := by
  rcases h with rfl | ⟨t, rfl⟩
  · rfl
  · simp [dequoteDigits]

/-- One step of the loop of `dequoteULong` over a printable character. -/
theorem dequoteDigits_cons {c : UInt8} (hc : IsPrintable c) (s : List UInt8) (mult n : ℕ) :
    dequoteDigits (c :: s) mult n =
      dequoteDigits s (mult * encBase % wordSize)
        ((n + ulong (charVal c - firstCh) * mult) % wordSize) := by
  rw [dequoteDigits, if_neg hc.ne_blank]

/-- The loop of `dequoteULong` adds up what `quoteNumber` wrote. -/
theorem dequoteDigits_quoteNumber {rest : List UInt8} (h : Ends rest) (n : ℕ) :
    ∀ mult acc : ℕ, dequoteDigits (quoteNumber n ++ rest) mult acc =
      ((acc + n * mult) % wordSize, rest) := by
  induction n using Nat.strong_induction_on with
  | _ n ih =>
    intro mult acc
    rw [quoteNumber, List.cons_append, dequoteDigits_cons (isPrintable_digit n),
      ulong_charVal_digit]
    split
    · next hpos =>
      rw [ih _ (by unfold encBase at *; omega)]
      have hdiv : n / encBase * encBase + n % encBase = n := Nat.div_add_mod' n encBase
      have hstep : (acc + n % encBase * mult) % wordSize +
          n / encBase * (mult * encBase % wordSize) ≡ acc + n * mult [MOD wordSize] := by
        calc (acc + n % encBase * mult) % wordSize + n / encBase * (mult * encBase % wordSize)
            ≡ acc + n % encBase * mult + n / encBase * (mult * encBase) [MOD wordSize] :=
              (Nat.mod_modEq _ _).add ((Nat.mod_modEq _ _).mul_left _)
          _ = acc + (n / encBase * encBase + n % encBase) * mult := by ring
          _ = acc + n * mult := by rw [hdiv]
      exact congrArg (·, rest) hstep
    · next hpos =>
      have hn : n % encBase = n := Nat.mod_eq_of_lt (by unfold encBase at *; omega)
      rw [List.nil_append, dequoteDigits_ends h, hn]

theorem dequoteULong_quoteNumber {rest : List UInt8} (h : Ends rest) {n : ℕ}
    (hn : n < wordSize) : dequoteULong (quoteNumber n ++ rest) = some (n, rest) := by
  have hpos := List.length_pos_iff.mpr (quoteNumber_ne_nil n)
  rw [dequoteULong, dequoteDigits_quoteNumber h]
  simp only [List.length_append, Nat.zero_add, Nat.mul_one, Nat.mod_eq_of_lt hn]
  rw [if_neg (by omega)]

theorem dequoteSInt_quoteNumber {rest : List UInt8} (h : Ends rest) {i : ℤ}
    (hi : IsInt i) : dequoteSInt (quoteNumber (ulong i) ++ rest) = some (i, rest) := by
  rw [dequoteSInt, dequoteULong_quoteNumber h (ulong_lt i)]
  exact congrArg (fun j => some (j, rest)) (sint_ulong hi)

/-- `quoteNumber` writes one digit, or one digit and the quotient. -/
theorem length_quoteNumber_of_lt {n : ℕ} (h : n < encBase) : (quoteNumber n).length = 1 := by
  rw [quoteNumber, Nat.div_eq_of_lt h]
  simp

theorem length_quoteNumber_of_ge {n : ℕ} (h : encBase ≤ n) :
    (quoteNumber n).length = (quoteNumber (n / encBase)).length + 1 := by
  rw [quoteNumber, if_pos (Nat.div_pos h (by decide)), List.length_cons]

/-- The table of `numberSpace` counts the digits of every `unsigned long`. -/
theorem length_quoteNumber {n : ℕ} (h : n < wordSize) :
    (quoteNumber n).length = numberSpace n := by
  have hcases : n ≤ 93 ∨ (93 < n ∧ n ≤ 8835) ∨ (8835 < n ∧ n ≤ 830583) ∨
      (830583 < n ∧ n ≤ 78074895) ∨ (78074895 < n ∧ n ≤ 4294967295) := by
    unfold wordSize at h
    omega
  have hsmall : ∀ m, m < 94 → (quoteNumber m).length = 1 :=
    fun m hm => length_quoteNumber_of_lt hm
  have hbig : ∀ m, 94 ≤ m → (quoteNumber m).length = (quoteNumber (m / 94)).length + 1 :=
    fun m hm => length_quoteNumber_of_ge hm
  rcases hcases with h1 | h1 | h1 | h1 | h1
  · rw [hsmall n (by omega)]
    simp [numberSpace, maxrep, List.findIdx_cons, h1]
  · rw [hbig n (by omega), hsmall _ (by omega)]
    simp [numberSpace, maxrep, List.findIdx_cons, h1, show ¬ n ≤ 93 by omega]
  · rw [hbig n (by omega), hbig _ (by omega), hsmall _ (by omega)]
    simp [numberSpace, maxrep, List.findIdx_cons, h1, show ¬ n ≤ 93 by omega,
      show ¬ n ≤ 8835 by omega]
  · rw [hbig n (by omega), hbig _ (by omega), hbig _ (by omega), hsmall _ (by omega)]
    simp [numberSpace, maxrep, List.findIdx_cons, h1, show ¬ n ≤ 93 by omega,
      show ¬ n ≤ 8835 by omega, show ¬ n ≤ 830583 by omega]
  · rw [hbig n (by omega), hbig _ (by omega), hbig _ (by omega), hbig _ (by omega),
      hsmall _ (by omega)]
    simp [numberSpace, maxrep, List.findIdx_cons, h1, show ¬ n ≤ 93 by omega,
      show ¬ n ≤ 8835 by omega, show ¬ n ≤ 830583 by omega, show ¬ n ≤ 78074895 by omega]

/-! ### Keys -/

@[simp] theorem length_quoteKey (key : List UInt8) : (quoteKey key).length = keySpace key := by
  induction key with
  | nil => rfl
  | cons c key ih =>
    rw [quoteKey, List.flatMap_cons, List.length_append, ← quoteKey, ih, keySpace, keySpace,
      List.map_cons, List.sum_cons]
    split <;> rfl

theorem hexValue_hexDigit {d : ℕ} (h : d < 16) : hexValue (hexDigit d) = some d := by
  revert d
  decide

theorem isPrintable_hexDigit {d : ℕ} (h : d < 16) : IsPrintable (hexDigit d) := by
  revert d
  decide

theorem getHex_hexDigit (c : UInt8) (s : List UInt8) :
    getHex (hexDigit (c.toNat / 16) :: hexDigit (c.toNat % 16) :: s) = some c.toNat := by
  have hlt := c.toNat_lt
  have hdiv := Nat.div_add_mod' c.toNat 16
  simp [getHex, hexValue_hexDigit (show c.toNat / 16 < 16 by omega),
    hexValue_hexDigit (show c.toNat % 16 < 16 by omega), hdiv]

/-- A character that is not quoted is printable and no percent sign. -/
theorem isPrintable_of_not_mustQuoteCh {c : UInt8} (h : mustQuoteCh c = false) :
    IsPrintable c ∧ c ≠ quoteCh := by
  simp only [mustQuoteCh, Bool.or_eq_false_iff, beq_eq_false_iff_ne, decide_eq_false_iff_not] at h
  obtain ⟨⟨hq, hlo⟩, hhi⟩ := h
  refine ⟨?_, hq⟩
  have hlt := c.toNat_lt
  rw [IsPrintable]
  unfold charVal at hlo hhi
  split at hlo
  · rw [if_pos ‹_›] at hhi
    omega
  · omega

theorem isPrintable_quoteKey (key : List UInt8) : ∀ c ∈ quoteKey key, IsPrintable c := by
  intro c hc
  obtain ⟨d, -, hd⟩ := List.mem_flatMap.mp hc
  have hlt := d.toNat_lt
  split at hd
  · simp only [List.mem_cons, List.not_mem_nil, or_false] at hd
    rcases hd with rfl | rfl | rfl
    · decide
    · exact isPrintable_hexDigit (by omega)
    · exact isPrintable_hexDigit (by omega)
  · next hq =>
    rw [List.mem_singleton.mp hd]
    exact (isPrintable_of_not_mustQuoteCh (by simpa using hq)).1

theorem dequoteKeyLoop_ends {rest : List UInt8} (h : Ends rest) :
    dequoteKeyLoop rest = some ([], rest) := by
  rcases h with rfl | ⟨t, rfl⟩
  · simp [dequoteKeyLoop]
  · simp [dequoteKeyLoop]

/-- A character that is neither blank nor percent is copied. -/
theorem dequoteKeyLoop_cons {c : UInt8} (hb : c ≠ blank) (hq : c ≠ quoteCh) (s : List UInt8) :
    dequoteKeyLoop (c :: s) = (dequoteKeyLoop s).map fun r => (c :: r.1, r.2) := by
  rw [dequoteKeyLoop, if_neg hb, if_neg hq]
  cases dequoteKeyLoop s <;> rfl

/-- A percent sign and two digits give one character. -/
theorem dequoteKeyLoop_quoteCh (c : UInt8) (s : List UInt8) :
    dequoteKeyLoop (quoteCh :: hexDigit (c.toNat / 16) :: hexDigit (c.toNat % 16) :: s) =
      (dequoteKeyLoop s).map fun r => (c :: r.1, r.2) := by
  rw [dequoteKeyLoop, if_neg (by decide), if_pos rfl, getHex_hexDigit]
  simp only [List.drop_succ_cons, List.drop_zero, Option.bind_eq_bind, Option.bind_some,
    UInt8.ofNat_toNat]
  cases dequoteKeyLoop s <;> rfl

theorem dequoteKeyLoop_quoteKey {rest : List UInt8} (h : Ends rest) (key : List UInt8) :
    dequoteKeyLoop (quoteKey key ++ rest) = some (key, rest) := by
  induction key with
  | nil => exact dequoteKeyLoop_ends h
  | cons c key ih =>
    rw [quoteKey, List.flatMap_cons, ← quoteKey]
    split
    · rw [List.append_assoc, List.cons_append, List.cons_append, List.cons_append,
        List.nil_append, dequoteKeyLoop_quoteCh, ih]
      rfl
    · next hq =>
      obtain ⟨hp, hne⟩ := isPrintable_of_not_mustQuoteCh (by simpa using hq)
      rw [List.append_assoc, List.cons_append, List.nil_append,
        dequoteKeyLoop_cons hp.ne_blank hne, ih]
      rfl

theorem quoteKey_ne_nil {key : List UInt8} (h : key ≠ []) : quoteKey key ≠ [] := by
  obtain ⟨c, key, rfl⟩ := List.exists_cons_of_ne_nil h
  rw [quoteKey, List.flatMap_cons]
  split <;> simp

theorem dequoteKey_quoteKey {rest : List UInt8} (h : Ends rest) {key : List UInt8}
    (hkey : key ≠ []) : dequoteKey (quoteKey key ++ rest) = some (key, rest) := by
  obtain ⟨c, t, hct⟩ := List.exists_cons_of_ne_nil (quoteKey_ne_nil hkey)
  have hc : IsPrintable c := isPrintable_quoteKey key c (by simp [hct])
  rw [dequoteKey, if_neg, dequoteKeyLoop_quoteKey h]
  rw [hct, List.cons_append, List.takeWhile_cons_of_pos (by simpa using hc.ne_blank)]
  simp

/-! ### Nodes and stacks -/

@[simp] theorem expect_cons (c : UInt8) (s : List UInt8) : expect c (c :: s) = some s := by
  simp [expect]

theorem length_quoteNode {node : PatrieNode} (h : node.Fits) :
    (quoteNode node).length = nodeSpace node := by
  simp only [quoteNode, nodeSpace, List.length_append, List.length_cons,
    length_quoteNumber h.val, length_quoteNumber (ulong_lt _)]
  omega

theorem dequoteField_quoteNumber {i : ℤ} (hi : IsInt i) (s : List UInt8) :
    dequoteField (quoteNumber (ulong i) ++ blank :: s) = some (i, s) := by
  rw [dequoteField, dequoteSInt_quoteNumber (ends_blank s) hi]
  simp

theorem dequoteNode_quoteNode {rest : List UInt8} (h : Ends rest) {node : PatrieNode}
    (hn : node.Fits) : dequoteNode (quoteNode node ++ rest) = some (node, rest) := by
  simp only [quoteNode, List.append_assoc, List.cons_append]
  refine Option.bind_eq_some_iff.mpr ⟨_, dequoteULong_quoteNumber (ends_blank _) hn.val, ?_⟩
  refine Option.bind_eq_some_iff.mpr ⟨_, expect_cons _ _, ?_⟩
  refine Option.bind_eq_some_iff.mpr ⟨_, dequoteField_quoteNumber hn.isSkip _, ?_⟩
  refine Option.bind_eq_some_iff.mpr ⟨_, dequoteField_quoteNumber hn.lev _, ?_⟩
  refine Option.bind_eq_some_iff.mpr ⟨_, dequoteField_quoteNumber hn.height _, ?_⟩
  refine Option.bind_eq_some_iff.mpr ⟨_, dequoteField_quoteNumber hn.pos _, ?_⟩
  refine Option.bind_eq_some_iff.mpr ⟨_, dequoteField_quoteNumber hn.inode _, ?_⟩
  refine Option.bind_eq_some_iff.mpr ⟨_, dequoteField_quoteNumber hn.enode _, ?_⟩
  refine Option.bind_eq_some_iff.mpr ⟨_, dequoteField_quoteNumber hn.tnode _, ?_⟩
  exact Option.bind_eq_some_iff.mpr ⟨_, dequoteSInt_quoteNumber h hn.pageNum, rfl⟩

theorem quoteStack_cons (node : PatrieNode) {stack : List PatrieNode} (h : stack ≠ []) :
    quoteStack (node :: stack) = quoteNode node ++ blank :: quoteStack stack := by
  obtain ⟨m, t, rfl⟩ := List.exists_cons_of_ne_nil h
  rfl

theorem length_quoteStack : ∀ {stack : List PatrieNode}, (∀ n ∈ stack, n.Fits) → stack ≠ [] →
    (quoteStack stack).length = (stack.map nodeSpace).sum + (stack.length - 1)
  | [], _, h => absurd rfl h
  | [node], hn, _ => by simpa [quoteStack] using length_quoteNode (hn node (by simp))
  | node :: m :: stack, hn, _ => by
    have ih := length_quoteStack (fun n h => hn n (List.mem_cons_of_mem _ h))
      (List.cons_ne_nil m stack)
    rw [quoteStack_cons node (List.cons_ne_nil _ _), List.length_append, List.length_cons, ih,
      length_quoteNode (hn node (by simp))]
    simp only [List.map_cons, List.sum_cons, List.length_cons]
    omega

theorem dequoteStack_quoteStack {rest : List UInt8} (h : Ends rest) :
    ∀ {stack : List PatrieNode} {n : ℕ}, (∀ m ∈ stack, m.Fits) → stack.length = n + 1 →
      dequoteStack n (quoteStack stack ++ rest) = some (stack, rest)
  | [node], 0, hn, _ => by
    simp [dequoteStack, quoteStack, dequoteNode_quoteNode h (hn node (by simp))]
  | node :: m :: stack, n + 1, hn, hlen => by
    have ih : dequoteStack n (quoteStack (m :: stack) ++ rest) = some (m :: stack, rest) :=
      dequoteStack_quoteStack h (fun k hk => hn k (List.mem_cons_of_mem _ hk)) (by simpa using hlen)
    rw [quoteStack_cons node (List.cons_ne_nil _ _), List.append_assoc, List.cons_append,
      dequoteStack, dequoteNode_quoteNode (ends_blank _) (hn node (by simp))]
    simp [ih]

/-! ### States -/

/-- The states a search can be in: a stack inside its memory, fields that fit
their C types, and a key that is null or a non-empty C string. -/
structure PatrieState.Valid (st : PatrieState) : Prop extends st.WellFormed where
  nelts : IsInt st.nelts
  stack : ∀ n ∈ st.live, n.Fits
  key : ∀ key, st.key = some key → key ≠ [] ∧ 0 ∉ key
  matchCaseAccSens : IsInt st.matchCaseAccSens
  firstMatched : IsInt st.firstMatched

variable {st : PatrieState}

theorem PatrieState.Valid.top (h : st.Valid) : IsInt st.top := by
  have h1 := h.top_ge
  have h2 := h.top_lt
  have h3 := h.nelts
  exact ⟨by omega, by have := h3.2; omega⟩

theorem PatrieState.Valid.live_ne_nil (h : st.Valid) (htop : 0 ≤ st.top) : st.live ≠ [] := by
  have hlen := h.length_live
  rw [← List.length_pos_iff]
  omega

theorem length_quoteStackPart (h : st.Valid) :
    (quoteStackPart st).length = if 0 ≤ st.top then stackSpace st else 0 := by
  have hlen := h.length_live
  unfold quoteStackPart
  split
  · next htop =>
    rw [length_quoteStack h.stack (h.live_ne_nil htop), stackSpace]
    omega
  · rfl

theorem length_quoteKeyPart (key : Option (List UInt8)) :
    (key.elim [] quoteKey).length = key.elim 0 keySpace := by
  cases key with
  | none => rfl
  | some key => exact length_quoteKey key

/-- `stateSpace` is the number of characters `quoteState` writes. -/
theorem length_quoteState (h : st.Valid) : (quoteState st).length = stateSpace st := by
  simp only [quoteState, stateSpace, List.length_append, List.length_cons,
    length_quoteStackPart h, length_quoteKeyPart, length_quoteNumber (ulong_lt _)]
  omega

theorem isPrintable_quoteNode (node : PatrieNode) :
    ∀ c ∈ quoteNode node, IsPrintable c ∨ c = blank := by
  intro c hc
  simp only [quoteNode, List.mem_append, List.mem_cons] at hc
  have hq := fun n => isPrintable_quoteNumber n c
  tauto

theorem isPrintable_quoteStack : ∀ (stack : List PatrieNode),
    ∀ c ∈ quoteStack stack, IsPrintable c ∨ c = blank
  | [], c, hc => by simp [quoteStack] at hc
  | [node], c, hc => isPrintable_quoteNode node c hc
  | node :: m :: stack, c, hc => by
    rw [quoteStack_cons node (List.cons_ne_nil _ _), List.mem_append, List.mem_cons] at hc
    rcases hc with hc | rfl | hc
    · exact isPrintable_quoteNode node c hc
    · exact .inr rfl
    · exact isPrintable_quoteStack (m :: stack) c hc

theorem isPrintable_quoteStackPart (st : PatrieState) :
    ∀ c ∈ quoteStackPart st, IsPrintable c ∨ c = blank := by
  unfold quoteStackPart
  split
  · exact isPrintable_quoteStack st.live
  · simp

theorem isPrintable_quoteKeyPart (key : Option (List UInt8)) :
    ∀ c ∈ key.elim [] quoteKey, IsPrintable c := by
  cases key with
  | none => simp
  | some key => exact isPrintable_quoteKey key

/-- The text holds no nul, so that it is one C string. -/
theorem isPrintable_quoteState (st : PatrieState) :
    ∀ c ∈ quoteState st, IsPrintable c ∨ c = blank := by
  intro c hc
  have hnum := fun n => isPrintable_quoteNumber n c
  have hstack := isPrintable_quoteStackPart st c
  have hkey := isPrintable_quoteKeyPart st.key c
  simp only [quoteState, List.mem_append, List.mem_cons] at hc
  tauto

theorem patrieGetStateString_eq (h : st.Valid) :
    patrieGetStateString st = some (quoteState st) := by
  have hne : ∀ c ∈ quoteState st, c ≠ 0 := by
    intro c hc
    rcases isPrintable_quoteState st c hc with hp | rfl
    · exact hp.ne_zero
    · decide
  simp only [patrieGetStateString, ← length_quoteState h]
  rw [if_pos (by simp), List.set_append_right _ _ (le_refl _), Nat.sub_self, List.set_cons_zero,
    List.takeWhile_append_of_pos (by simpa using hne)]
  simp

theorem dequoteStackPart_quoteStackPart (h : st.Valid) (s : List UInt8) :
    dequoteStackPart (st.top + 1) (quoteStackPart st ++ blank :: s) =
      some (st.live, blank :: s) := by
  have hlen := h.length_live
  unfold dequoteStackPart quoteStackPart
  by_cases htop : 0 ≤ st.top
  · rw [if_pos (by omega), if_pos htop]
    exact dequoteStack_quoteStack (ends_blank s) h.stack (by omega)
  · have hnil : st.live = [] := by
      rw [← List.length_eq_zero_iff]
      have := h.top_ge
      omega
    rw [if_neg (by omega), if_neg htop, hnil, List.nil_append]

theorem dequoteKeyPart_quoteKeyPart {key : Option (List UInt8)}
    (h : ∀ k, key = some k → k ≠ []) (s : List UInt8) :
    dequoteKeyPart (key.elim [] quoteKey ++ blank :: s) = some (key, blank :: s) := by
  cases key with
  | none => simp [dequoteKeyPart]
  | some key =>
    obtain ⟨c, t, hct⟩ := List.exists_cons_of_ne_nil (quoteKey_ne_nil (h key rfl))
    have hc : IsPrintable c := isPrintable_quoteKey key c (by simp [hct])
    have hhead : (quoteKey key ++ blank :: s).head? ≠ some blank := by
      rw [hct]
      simpa using hc.ne_blank
    rw [dequoteKeyPart, Option.elim_some, if_neg hhead,
      dequoteKey_quoteKey (ends_blank s) (h key rfl)]
    rfl

/-- Reading the text of a state gives the state back, with memory for just the
nodes in use. -/
theorem patrieSetStateFromString_quoteState (h : st.Valid) :
    patrieSetStateFromString (quoteState st) =
      some { st with nelts := st.top + 1, stack := st.live } := by
  have hsens := dequoteSInt_quoteNumber ends_nil h.firstMatched
  rw [List.append_nil] at hsens
  simp only [patrieSetStateFromString, quoteState, Option.bind_eq_bind, Option.bind_some,
    expect_cons, dequoteSInt_quoteNumber (ends_blank _) h.top, dequoteStackPart_quoteStackPart h,
    dequoteKeyPart_quoteKeyPart fun k hk => (h.key k hk).1,
    dequoteSInt_quoteNumber (ends_blank _) h.matchCaseAccSens, hsens, if_true]

/-- What the text form promises of a state: the buffer is exactly filled, and
reading the text gives a state with the same stack, key and flags. -/
def PatrieState.RoundTrips (st : PatrieState) : Prop :=
  (quoteState st).length = stateSpace st ∧
  ∃ str st', patrieGetStateString st = some str ∧ patrieSetStateFromString str = some st' ∧
    st'.top = st.top ∧ st'.nelts = st.top + 1 ∧ st'.stack = st.live ∧ st'.live = st.live ∧
    st'.key = st.key ∧ st'.matchCaseAccSens = st.matchCaseAccSens ∧
    st'.firstMatched = st.firstMatched

/-- **The text form of a search state loses nothing.** -/
theorem patrieSetStateFromString_patrieGetStateString (st : PatrieState) (h : st.Valid) :
    st.RoundTrips := by
  refine ⟨length_quoteState h, _, _, patrieGetStateString_eq h,
    patrieSetStateFromString_quoteState h, rfl, rfl, rfl, ?_, rfl, rfl, rfl⟩
  have hlen := h.length_live
  exact List.take_of_length_le (show st.live.length ≤ (st.top + 1).toNat by omega)

/-- A state with two nodes in use, memory for a third, a negative field and a
key that needs quoting. -/
def sampleState : PatrieState where
  top := 1
  nelts := 3
  stack := [⟨4294967295, 1, 3, -1, 512, 2, 0, 4, 7⟩, ⟨94, 0, 4, 17, 96, 0, 1, 2, 7⟩,
    ⟨0, 0, 0, 0, 0, 0, 0, 0, 0⟩]
  key := some [97, 32, 37, 233]
  matchCaseAccSens := 3
  firstMatched := 1

theorem sampleState_valid : sampleState.Valid where
  top_ge := by decide
  top_lt := by decide
  length_stack := by decide
  nelts := by decide
  stack := by
    intro n hn
    have hlive : sampleState.live = [⟨4294967295, 1, 3, -1, 512, 2, 0, 4, 7⟩,
        ⟨94, 0, 4, 17, 96, 0, 1, 2, 7⟩] := rfl
    rw [hlive] at hn
    simp only [List.mem_cons, List.not_mem_nil, or_false] at hn
    rcases hn with rfl | rfl <;> constructor <;> decide
  key := by
    intro key hkey
    rw [← Option.some.inj hkey]
    decide
  matchCaseAccSens := by decide
  firstMatched := by decide

theorem sampleState_roundTrips : sampleState.RoundTrips :=
  patrieSetStateFromString_patrieGetStateString sampleState sampleState_valid

end Archie
