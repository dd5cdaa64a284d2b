/-
Correctness of the cache of new strings.

* `prime_of_mem_primes` — the sizes of the table are prime, so every step of a
  probe is coprime to the size.
* `rehashLimit_lt`, `le_rehashLimit` — the load limit leaves an element free,
  and the next size holds a full table without growing again.
* `HashTable.Holds` — the table is sound and holds a list of strings.
* `insertHashTable_lands` — inserting a new string adds it, growing or not.
* `searchHashTable_fillCache` — after any insertions every search ends, with the
  offset of a string that was inserted or with `found` cleared.
-/
import Archie.NewStr
import Mathlib.NumberTheory.LucasPrimality
import Mathlib.Tactic.NormNum.Prime
import Mathlib.Tactic.ReduceModChar

namespace Archie

open OpenAddressing

/-! ### The sizes of the table -/

/-- **Lucas' test**, with the prime factors of `p - 1` listed. -/
theorem prime_of_pow {p : ℕ} (a : ZMod p) (f : List ℕ) (ha : a ^ (p - 1) = 1)
    (hf : p - 1 = f.prod) (hprime : ∀ q ∈ f, q.Prime) (hq : ∀ q ∈ f, a ^ ((p - 1) / q) ≠ 1) :
    p.Prime := by
  refine lucas_primality p a ha ?_
  intro q hqp hdvd
  rw [hf] at hdvd
  obtain ⟨r, hr, hqr⟩ := (Prime.dvd_prod_iff hqp.prime).mp hdvd
  rw [(Nat.prime_dvd_prime_iff_eq hqp (hprime r hr)).mp hqr]
  exact hq r hr

theorem prime_268435459 : Nat.Prime 268435459 := by
  refine prime_of_pow 2 [2, 3, 3, 3, 3, 19, 87211] ?_ (by norm_num) (by norm_num) ?_
  · norm_num
    reduce_mod_char
  · norm_num
    reduce_mod_char
    decide

theorem prime_536870923 : Nat.Prime 536870923 := by
  refine prime_of_pow 3 [2, 3, 7, 23, 555767] ?_ (by norm_num) (by norm_num) ?_
  · norm_num
    reduce_mod_char
  · norm_num
    reduce_mod_char
    decide

theorem prime_1073741827 : Nat.Prime 1073741827 := by
  refine prime_of_pow 2 [2, 3, 59, 3033169] ?_ (by norm_num) (by norm_num) ?_
  · norm_num
    reduce_mod_char
  · norm_num
    reduce_mod_char
    decide

theorem prime_2147483659 : Nat.Prime 2147483659 := by
  refine prime_of_pow 2 [2, 3, 149, 2402107] ?_ (by norm_num) (by norm_num) ?_
  · norm_num
    reduce_mod_char
  · norm_num
    reduce_mod_char
    decide

/-- Every size in the table is prime. -/
theorem prime_of_mem_primes {m : ℕ} (hm : m ∈ primes) : m.Prime := by
  have h : ∀ m ∈ primes, m.Prime := by
    simp only [primes, List.forall_mem_cons]
    refine ⟨?_, ?_, ?_, ?_, ?_, ?_, ?_, ?_, ?_, ?_, ?_, ?_, ?_, ?_, ?_, ?_, ?_, ?_, ?_, ?_, ?_,
      ?_, ?_, ?_, ?_, ?_, ?_, ?_, prime_268435459, prime_536870923, prime_1073741827,
      prime_2147483659, by simp⟩ <;> norm_num
  exact h m hm

/-- A step between 1 and `m - 1` is coprime to a prime size. -/
theorem coprime_probeStep (p : DataModel) {m : ℕ} (hm : m.Prime) (s : CString) :
    Nat.Coprime (probeStep p m s) m := by
  have hlt := Nat.mod_lt (hash1 p s) (show 0 < m - 1 by have := hm.two_le; omega)
  have hpos : 0 < probeStep p m s := by rw [probeStep]; omega
  have hle : probeStep p m s < m := by rw [probeStep]; omega
  exact (Nat.coprime_of_lt_prime hpos.ne' hle hm).symm

/-- The size after `m`, where there is one, is at least `100 / 89` as large. -/
theorem primes_next {i m m' : ℕ} (hi : 9 ≤ i) (hm : primes[i]? = some m)
    (hm' : primes[i + 1]? = some m') : 100 * m ≤ 89 * m' := by
  have h : ∀ i < 31, 9 ≤ i →
      ((primes[i]?).all fun m => (primes[i + 1]?).all fun m' => 100 * m ≤ 89 * m') = true := by
    decide
  have hi' : i + 1 < 32 := by
    by_contra hge
    rw [List.getElem?_eq_none (Nat.le_of_not_lt hge)] at hm'
    contradiction
  have hall := h i (by omega) hi
  rw [hm, hm'] at hall
  simpa using hall

/-! ### The load limit -/

/-- The load limit is below the size, so an element is always free. -/
theorem rehashLimit_lt {m : ℕ} (hm : 0 < m) {lf : ℚ} (h0 : 0 < lf) (h1 : lf ≤ maxLoadFactor) :
    rehashLimit m lf < m := by
  have hmq : (0 : ℚ) < m := Nat.cast_pos.mpr hm
  have hr := Single.roundSingle_pos hmq
  have hle := Single.roundSingle_le hmq
  have hprod : 0 < Single.roundSingle m * lf := mul_pos hr h0
  rw [rehashLimit, Nat.floor_lt (Single.roundSingle_pos hprod).le]
  calc Single.roundSingle (Single.roundSingle m * lf)
      ≤ Single.roundSingle m * lf * (1 + 1 / 2 ^ 24) := Single.roundSingle_le hprod
    _ ≤ m * (1 + 1 / 2 ^ 24) * maxLoadFactor * (1 + 1 / 2 ^ 24) := by gcongr
    _ = m * ((1 + 1 / 2 ^ 24) * maxLoadFactor * (1 + 1 / 2 ^ 24)) := by ring
    _ < m * 1 := by
        gcongr
        norm_num [maxLoadFactor]
    _ = m := mul_one _

/-- The default limit of a table is at least `89 / 100` of its size. -/
theorem le_rehashLimit {m n : ℕ} (hm : 0 < m) (hn : 100 * n ≤ 89 * m) :
    n ≤ rehashLimit m dfltLoadFactor := by
  have hmq : (0 : ℚ) < m := Nat.cast_pos.mpr hm
  have hr := Single.roundSingle_pos hmq
  have hd : 0 < dfltLoadFactor := by norm_num [dfltLoadFactor]
  have hnq : (n : ℚ) ≤ m * (89 / 100) := by
    have h : (100 : ℚ) * n ≤ 89 * m := by exact_mod_cast hn
    linarith
  refine Nat.le_floor ?_
  calc (n : ℚ) ≤ m * (89 / 100) := hnq
    _ ≤ m * ((1 - 1 / 2 ^ 24) * dfltLoadFactor * (1 - 1 / 2 ^ 24)) := by
        gcongr
        norm_num [dfltLoadFactor]
    _ = m * (1 - 1 / 2 ^ 24) * dfltLoadFactor * (1 - 1 / 2 ^ 24) := by ring
    _ ≤ Single.roundSingle m * dfltLoadFactor * (1 - 1 / 2 ^ 24) := by
        have h := Single.le_roundSingle hmq
        gcongr
    _ ≤ _ := Single.le_roundSingle (mul_pos hr hd)

/-! ### Running out of room -/

/-- The last of the primes for which the elements can be allocated. -/
def lastSzIdx : DataModel → ℕ
  | .ilp32 => 27
  | .lp64 => 31

/-- The load limit of the largest table. -/
def maxStrings (p : DataModel) : ℕ := rehashLimit (primes.getD (lastSzIdx p) 0) dfltLoadFactor

/-- The size of the largest string buffer. -/
def maxBytes : DataModel → ℕ
  | .ilp32 => initSbufSz * 2 ^ 21
  | .lp64 => initSbufSz * 2 ^ 53

/-- The bytes that strings take in the buffer. -/
def totalBytes (items : List (CString × ℕ)) : ℕ := (items.map fun e => e.1.1.length + 1).sum

/-- The strings do not fit the largest table, or not the largest buffer. -/
def Exceeds (p : DataModel) (items : List (CString × ℕ)) : Prop :=
  maxStrings p < items.length ∨ maxBytes p < totalBytes items

/-- Fewer strings exceed the limits less easily. -/
theorem Exceeds.of_perm_append {p : DataModel} {items all : List (CString × ℕ)}
    (h : Exceeds p items) (more : List (CString × ℕ)) (hall : (more ++ items).Perm all) :
    Exceeds p all := by
  have hlen := hall.length_eq
  have hsum := (hall.map fun e => e.1.1.length + 1).sum_eq
  rw [List.length_append] at hlen
  rw [List.map_append, List.sum_append] at hsum
  rcases h with h | h
  · exact Or.inl (by omega)
  · exact Or.inr (by unfold totalBytes at *; omega)

theorem szidx_le_of_allocates {p : DataModel} {i m : ℕ} (hm : primes[i]? = some m)
    (h : p.Allocates (p.eltSize * m)) : i ≤ lastSzIdx p := by
  have hall : ∀ p : DataModel, ∀ i < 32,
      ((primes[i]?).all fun m => p.Allocates (p.eltSize * m) → i ≤ lastSzIdx p) = true := by
    intro p
    cases p <;> decide
  have hi : i < 32 := by
    by_contra hge
    rw [List.getElem?_eq_none (Nat.le_of_not_lt hge)] at hm
    contradiction
  have hone := hall p i hi
  rw [hm, Option.all_some, decide_eq_true_iff] at hone
  exact hone h

/-- Up to the last index there is a prime, and its elements can be allocated. -/
theorem allocates_of_szidx_le {p : DataModel} {i : ℕ} (hi : i ≤ lastSzIdx p) :
    ∃ m, primes[i]? = some m ∧ p.Allocates (p.eltSize * m) := by
  have hall : ∀ p : DataModel, ∀ i < 32,
      i ≤ lastSzIdx p → p.Allocates (p.eltSize * primes.getD i 0) := by
    intro p
    cases p <;> decide
  have hlt : i < primes.length := by
    cases p
    · exact lt_of_le_of_lt hi (by decide)
    · exact lt_of_le_of_lt hi (by decide)
  refine ⟨primes[i], List.getElem?_eq_getElem hlt, ?_⟩
  have h := hall p i hlt hi
  rwa [List.getD_eq_getElem _ _ hlt] at h

/-- A result that satisfies `P`; an error only when `full` holds, and never
because a loop does not end. -/
def Lands (full : Prop) (P : HashTable → Prop) : Except Stop HashTable → Prop
  | .ok h => P h
  | .error e => e ≠ .diverges ∧ full

theorem Lands.bind {full : Prop} {P Q : HashTable → Prop} {x : Except Stop HashTable}
    {f : HashTable → Except Stop HashTable} (hx : Lands full P x)
    (hf : ∀ h, P h → Lands full Q (f h)) : Lands full Q (x >>= f) := by
  cases x with
  | error e => exact hx
  | ok h => exact hf h hx

theorem Lands.mono {full full' : Prop} {P Q : HashTable → Prop} {x : Except Stop HashTable}
    (hx : Lands full P x) (hfull : full → full') (h : ∀ h, P h → Q h) : Lands full' Q x := by
  cases x with
  | error e => exact ⟨hx.1, hfull hx.2⟩
  | ok a => exact h a hx

/-! ### The string buffer -/

theorem cstring_append (s : CString) (t : List UInt8) : cstring (s.1 ++ 0 :: t) = s := by
  refine Subtype.ext ?_
  have hs : ∀ c ∈ s.1, decide (c ≠ 0) = true := by
    intro c hc
    exact decide_eq_true fun h0 => s.2 (h0 ▸ hc)
  show (s.1 ++ 0 :: t).takeWhile (· ≠ 0) = s.1
  rw [List.takeWhile_append_of_pos hs, List.takeWhile_cons_of_neg (by decide), List.append_nil]

/-- Bytes added after a NUL do not change the string before it. -/
theorem cstring_append_of_mem {l t : List UInt8} (h : 0 ∈ l) : cstring (l ++ t) = cstring l := by
  refine Subtype.ext ?_
  show (l ++ t).takeWhile (· ≠ 0) = l.takeWhile (· ≠ 0)
  induction l with
  | nil => exact absurd h (List.not_mem_nil)
  | cons c l ih =>
    by_cases hc : c = 0
    · rw [List.cons_append, List.takeWhile_cons_of_neg (by simpa using hc),
        List.takeWhile_cons_of_neg (by simpa using hc)]
    · have hl : 0 ∈ l := by
        rcases List.mem_cons.mp h with h0 | hl
        · exact absurd h0.symm hc
        · exact hl
      rw [List.cons_append, List.takeWhile_cons_of_pos (by simpa using hc),
        List.takeWhile_cons_of_pos (by simpa using hc), ih hl]

/-- The memory is large enough for what is in it, and small enough to exist. -/
structure StrBuf.Fits (p : DataModel) (b : StrBuf) : Prop where
  len_eq : ∃ k, b.len = initSbufSz * 2 ^ k
  next_le : b.next ≤ b.len
  len_lt : b.len < p.word / 2

theorem newStrBuf_fits (p : DataModel) : newStrBuf.Fits p := by
  refine ⟨⟨0, rfl⟩, ?_, ?_⟩ <;> cases p <;> decide

/-- A buffer that cannot double has the largest size. -/
theorem maxBytes_le {p : DataModel} {k : ℕ} (h : ¬ p.Allocates (2 * (initSbufSz * 2 ^ k))) :
    maxBytes p ≤ initSbufSz * 2 ^ k := by
  unfold DataModel.Allocates at h
  cases p with
  | ilp32 =>
    refine Nat.mul_le_mul_left _ (Nat.pow_le_pow_right (by decide) ?_)
    by_contra hk
    have hpow : 2 ^ k ≤ 2 ^ 20 := Nat.pow_le_pow_right (by decide) (by omega)
    exact h (by simp only [initSbufSz, DataModel.word]; omega)
  | lp64 =>
    refine Nat.mul_le_mul_left _ (Nat.pow_le_pow_right (by decide) ?_)
    by_contra hk
    have hpow : 2 ^ k ≤ 2 ^ 52 := Nat.pow_le_pow_right (by decide) (by omega)
    exact h (by simp only [initSbufSz, DataModel.word]; omega)

/-- The doubling ends, with room for the string and its NUL. -/
theorem growStrBuf_spec {p : DataModel} (l next : ℕ) {fuel k : ℕ}
    (hlen : initSbufSz * 2 ^ k < p.word / 2)
    (hfuel : p.word ≤ 2 * (initSbufSz * 2 ^ k) * 2 ^ fuel) :
    (∃ k', growStrBuf p l next fuel (initSbufSz * 2 ^ k) = .ok (initSbufSz * 2 ^ k') ∧ k ≤ k' ∧
      next + l < initSbufSz * 2 ^ k' ∧ initSbufSz * 2 ^ k' < p.word / 2) ∨
    growStrBuf p l next fuel (initSbufSz * 2 ^ k) = .error .noMemory ∧
      maxBytes p < next + l + 1 := by
  induction fuel generalizing k with
  | zero => omega
  | succ fuel ih =>
    rw [growStrBuf]
    by_cases hl : l ≥ initSbufSz * 2 ^ k - next
    · rw [if_pos hl]
      by_cases ha : p.Allocates (2 * (initSbufSz * 2 ^ k))
      · have hdouble : 2 * (initSbufSz * 2 ^ k) = initSbufSz * 2 ^ (k + 1) := by ring
        rw [if_pos ha]
        rw [DataModel.Allocates] at ha
        rw [hdouble] at ha ⊢
        have hstep := ih (k := k + 1) ha (by
          calc p.word ≤ _ := hfuel
            _ = 2 * (initSbufSz * 2 ^ (k + 1)) * 2 ^ fuel := by ring)
        rcases hstep with ⟨k', heq, hle, hroom, hlt⟩ | herr
        · exact Or.inl ⟨k', heq, by omega, hroom, hlt⟩
        · exact Or.inr herr
      · rw [if_neg ha]
        have hmax := maxBytes_le ha
        exact Or.inr ⟨rfl, by omega⟩
    · rw [if_neg hl]
      exact Or.inl ⟨k, rfl, le_refl _, by omega, hlen⟩

/-- Appending copies the string to `next`, unless the buffer cannot hold it. -/
theorem appendStrBuf_spec {p : DataModel} {b : StrBuf} (hb : b.Fits p) (s : CString) :
    (∃ len', appendStrBuf p s b = .ok (b.next, ⟨b.str ++ s.1 ++ [0], len'⟩) ∧ b.len ≤ len' ∧
      b.next < len' ∧ StrBuf.Fits p ⟨b.str ++ s.1 ++ [0], len'⟩) ∨
    appendStrBuf p s b = .error .noMemory ∧ maxBytes p < b.next + (s.1.length + 1) := by
  obtain ⟨k, hk⟩ := hb.len_eq
  have hfuel : p.word ≤ 2 * (initSbufSz * 2 ^ k) * 2 ^ 64 := by
    have hpos : 1 ≤ 2 ^ k := Nat.one_le_two_pow
    cases p
    · simp only [DataModel.word, initSbufSz]; omega
    · simp only [DataModel.word, initSbufSz]; omega
  have hspec := growStrBuf_spec s.1.length b.next (hk ▸ hb.len_lt) hfuel
  rw [← hk] at hspec
  rcases hspec with ⟨k', heq, hle, hroom, hlt⟩ | ⟨herr, hmax⟩
  · refine Or.inl ⟨_, ?_, ?_, by omega, ⟨k', rfl⟩, ?_, hlt⟩
    · rw [appendStrBuf, heq]
      rfl
    · rw [hk]
      exact Nat.mul_le_mul_left _ (Nat.pow_le_pow_right (by decide) hle)
    · show (b.str ++ s.1 ++ [0]).length ≤ initSbufSz * 2 ^ k'
      rw [List.length_append, List.length_append, List.length_singleton]
      exact hroom
  · refine Or.inr ⟨?_, by omega⟩
    rw [appendStrBuf, herr]
    rfl

/-- Appending leaves the strings before `next` as they are. -/
theorem stringAt_append {p : DataModel} {b : StrBuf} (hb : b.Fits p) {off : ℕ}
    (hoff : 0 ∈ b.str.drop off) (t : List UInt8) {len' : ℕ} (hlen : b.len ≤ len') :
    stringAt ⟨b.str ++ t, len'⟩ off = stringAt b off := by
  have hlt : off < b.str.length := by
    by_contra hge
    rw [List.drop_eq_nil_of_le (Nat.le_of_not_lt hge)] at hoff
    exact absurd hoff List.not_mem_nil
  have hnext : b.str.length ≤ b.len := hb.next_le
  rw [stringAt, stringAt, if_pos (show off < len' by omega), if_pos (by omega),
    List.drop_append_of_le_length (by omega), cstring_append_of_mem hoff]

/-- The copy of an appended string is at the old `next`. -/
theorem stringAt_next (b : StrBuf) (s : CString) {len' : ℕ} (hlen : b.next < len') :
    stringAt ⟨b.str ++ s.1 ++ [0], len'⟩ b.next = some s := by
  rw [stringAt, if_pos hlen, List.append_assoc, StrBuf.next, List.drop_left, cstring_append]

/-- `(size_t)-1` is not the offset of a string. -/
theorem stringAt_noString {p : DataModel} {b : StrBuf} (hb : b.Fits p) :
    stringAt b (noString p) = none := by
  have h := hb.len_lt
  rw [stringAt, noString, if_neg (by cases p <;> simp only [DataModel.word] at h ⊢ <;> omega)]

/-! ### The table as an abstract one -/

namespace HashTable

/-- The entry an element stands for. -/
def entryOf (b : StrBuf) (e : HashElt) : Option (CString × ℕ) :=
  (stringAt b e.str).map fun s => (s, e.off)

/-- The table with its strings read from the buffer. -/
def view (h : HashTable) : List (Option (CString × ℕ)) := h.elt.map (entryOf h.sbuf)

theorem length_view (h : HashTable) : h.view.length = h.elt.length := List.length_map _

theorem slot_view (h : HashTable) (n : ℕ) : slot h.view n = (h.elt[n]?).bind (entryOf h.sbuf) := by
  rw [slot, view, List.getD_eq_getElem?_getD, List.getElem?_map]
  cases h.elt[n]? <;> rfl

theorem stringOf_eq (h : HashTable) (n : ℕ) : h.stringOf n = (slot h.view n).map Prod.fst := by
  rw [slot_view, stringOf]
  cases h.elt[n]? with
  | none => rfl
  | some e =>
    rw [Option.bind_some, Option.bind_some, entryOf]
    cases stringAt h.sbuf e.str <;> rfl

/-- The loop of the source is the probe of the abstract table. -/
theorem probeLoop_eq {h : HashTable} (hlen : h.elt.length = h.nelts) (s : CString) (i fuel n : ℕ) :
    probeLoop h s i fuel n = probe h.view s i fuel n := by
  induction fuel generalizing n with
  | zero => rfl
  | succ fuel ih =>
    rw [probeLoop, probe, stops, stringOf_eq, length_view, hlen, ih]
    cases slot h.view n with
    | none => rfl
    | some e =>
      by_cases he : e.1 = s
      · simp [he]
      · simp [he]

/-- The table is well formed and holds exactly these strings and offsets. -/
structure Holds (p : DataModel) (h : HashTable) (items : List (CString × ℕ)) : Prop where
  szidx_ge : initSzIdx ≤ h.szidx
  szidx_le : h.szidx ≤ lastSzIdx p
  nelts : primes[h.szidx]? = some h.nelts
  length_elt : h.elt.length = h.nelts
  fits : h.sbuf.Fits p
  next : h.sbuf.next = totalBytes items
  terminated : ∀ e ∈ h.elt, e.str = noString p ∨ 0 ∈ h.sbuf.str.drop e.str
  sound : Sound h.view (probeStart p h.nelts) (probeStep p h.nelts)
  perm : (entries h.view).Perm items
  inuse : h.inuse = items.length
  inuse_lt : h.inuse < h.nelts
  rehashLim_lt : h.rehashLim < h.nelts
  rehashLim_eq : h.szidx = initSzIdx ∨ h.rehashLim = rehashLimit h.nelts dfltLoadFactor

section Holds

variable {p : DataModel} {h : HashTable} {items : List (CString × ℕ)}

theorem Holds.nelts_prime (hh : h.Holds p items) : h.nelts.Prime :=
  prime_of_mem_primes (List.mem_of_getElem? hh.nelts)

theorem Holds.of_perm (hh : h.Holds p items) {items' : List (CString × ℕ)}
    (hp : items.Perm items') : h.Holds p items' :=
  { hh with
    perm := hh.perm.trans hp
    next := hh.next.trans (hp.map _).sum_eq
    inuse := hh.inuse.trans hp.length_eq }

theorem Holds.length_view (hh : h.Holds p items) : h.view.length = h.nelts :=
  h.length_view.trans hh.length_elt

theorem Holds.probeStart_lt (hh : h.Holds p items) (s : CString) :
    probeStart p h.nelts s < h.view.length := by
  rw [hh.length_view]
  exact Nat.mod_lt _ hh.nelts_prime.pos

/-- A probe ends: an element is free and the step visits every element. -/
theorem Holds.exists_probeElt (hh : h.Holds p items) (s : CString) :
    ∃ n, probeElt p h s = some n ∧
      probe h.view s (probeStep p h.nelts s) h.view.length (probeStart p h.nelts s) = some n := by
  have hfew : (entries h.view).length < h.view.length := by
    rw [hh.perm.length_eq, ← hh.inuse, hh.length_view]
    exact hh.inuse_lt
  obtain ⟨f, hf, hnone⟩ := exists_slot_eq_none hfew
  have hcop : Nat.Coprime (probeStep p h.nelts s) h.view.length := by
    rw [hh.length_view]
    exact coprime_probeStep p hh.nelts_prime s
  obtain ⟨n, hn⟩ := exists_probe (hh.probeStart_lt s) hcop hf (stops_iff.mpr (Or.inl hnone))
  refine ⟨n, ?_, hn⟩
  rw [probeElt, probeLoop_eq hh.length_elt]
  rwa [hh.length_view] at hn

end Holds

end HashTable

open HashTable

/-- What `search_hash_table` should answer for a table that holds `items`. -/
def Answers (items : List (CString × ℕ)) (s : CString) (r : ℕ × Bool) : Prop :=
  (∀ off, (s, off) ∈ items → r = (off, true)) ∧ (s ∉ items.map Prod.fst → r.2 = false)

/-- Searching a table that holds some strings ends with the right answer. -/
theorem HashTable.Holds.searchHashTable {p : DataModel} {h : HashTable}
    {items : List (CString × ℕ)} (hh : h.Holds p items) (s : CString) :
    ∃ r, searchHashTable p h s = some r ∧ Answers items s r := by
  obtain ⟨n, hn, hprobe⟩ := hh.exists_probeElt s
  have hnlt : n < h.elt.length := by
    obtain ⟨j, -, hj, -⟩ := (probe_eq_some_iff (hh.probeStart_lt s)).mp hprobe
    rw [← h.length_view, ← hj]
    exact position_lt (by rw [hh.length_view]; exact hh.nelts_prime.pos) _ _ _
  have hslot : slot h.view n = entryOf h.sbuf h.elt[n] := by
    rw [slot_view, List.getElem?_eq_getElem hnlt, Option.bind_some]
  refine ⟨(h.elt[n].off, (h.stringOf n).isSome), ?_, ?_, ?_⟩
  · rw [Archie.searchHashTable, hn, Option.bind_eq_bind, Option.bind_some, Option.bind_eq_bind,
      List.getElem?_eq_getElem hnlt, Option.bind_some]
  · intro off hmem
    have hfound := hh.sound.probe_of_mem (hh.probeStart_lt s) (hh.perm.mem_iff.mpr hmem) hprobe
    have hoff : h.elt[n].off = off := by
      rw [hslot, entryOf, Option.map_eq_some_iff] at hfound
      obtain ⟨t, -, ht⟩ := hfound
      exact congrArg Prod.snd ht
    rw [hoff, stringOf_eq, hfound]
    rfl
  · intro hmem
    have hmem' : s ∉ (entries h.view).map Prod.fst := by
      rwa [(hh.perm.map Prod.fst).mem_iff]
    obtain ⟨-, hnone⟩ := probe_of_not_mem (hh.probeStart_lt s) hmem' hprobe
    rw [stringOf_eq, hnone]
    rfl

/-! ### Insertion -/

/-- A new table holds nothing, and its load limit is the default one. -/
theorem createHashTable_lands (p : DataModel) (idx : ℕ) (hidx : initSzIdx ≤ idx) :
    Lands (lastSzIdx p < idx)
      (fun h => h.Holds p [] ∧ h.szidx = idx ∧ h.rehashLim = rehashLimit h.nelts dfltLoadFactor)
      (createHashTable p idx) := by
  rw [createHashTable]
  cases hm : primes[idx]? with
  | none =>
    refine ⟨Stop.noConfusion, ?_⟩
    by_contra hle
    obtain ⟨m, hm', -⟩ := allocates_of_szidx_le (Nat.le_of_not_lt hle)
    rw [hm] at hm'
    contradiction
  | some m =>
    have hprime : m.Prime := prime_of_mem_primes (List.mem_of_getElem? hm)
    dsimp only
    split
    next halloc =>
      have haccept : ∀ h : HashTable, setLoadFactor h dfltLoadFactor =
          some { h with rehashLim := rehashLimit h.nelts dfltLoadFactor } := by
        intro h
        rw [setLoadFactor, if_neg (by norm_num [dfltLoadFactor, minLoadFactor]),
          if_neg (by norm_num [dfltLoadFactor, maxLoadFactor])]
      have hview : (List.replicate m (⟨noString p, 0⟩ : HashElt)).map (entryOf newStrBuf) =
          List.replicate m none := by
        rw [List.map_replicate, entryOf, stringAt_noString (newStrBuf_fits p)]
        rfl
      rw [haccept]
      refine ⟨⟨hidx, szidx_le_of_allocates hm halloc, hm, List.length_replicate,
        newStrBuf_fits p, rfl, ?_, ?_, ?_, rfl, hprime.pos, ?_, Or.inr rfl⟩, rfl, rfl⟩
      · intro e he
        rw [(List.mem_replicate.mp he).2]
        exact Or.inl rfl
      · show Sound ((List.replicate m _).map (entryOf newStrBuf)) _ _
        rw [hview]
        exact Sound.replicate m
      · show (entries ((List.replicate m _).map (entryOf newStrBuf))).Perm []
        rw [hview, entries, List.reduceOption_replicate_none]
      · exact rehashLimit_lt hprime.pos (by norm_num [dfltLoadFactor])
          (by norm_num [dfltLoadFactor, maxLoadFactor])
    next halloc =>
      refine ⟨Stop.noConfusion, ?_⟩
      by_contra hle
      obtain ⟨m', hm', halloc'⟩ := allocates_of_szidx_le (Nat.le_of_not_lt hle)
      rw [hm] at hm'
      exact halloc (Option.some.inj hm' ▸ halloc')

/-- Setting the load factor of a table of the first size keeps what it holds. -/
theorem HashTable.Holds.setLoadFactor {p : DataModel} {h h' : HashTable}
    {items : List (CString × ℕ)} (hh : h.Holds p items) (hidx : h.szidx = initSzIdx) {lf : ℚ}
    (hset : setLoadFactor h lf = some h') : h'.Holds p items := by
  rw [Archie.setLoadFactor] at hset
  split at hset
  next => contradiction
  next hmin =>
    split at hset
    next => contradiction
    next hmax =>
      have hpos : 0 < lf :=
        lt_of_lt_of_le (by norm_num [minLoadFactor]) (not_lt.mp hmin)
      rw [← Option.some.inj hset]
      exact { hh with
        rehashLim_lt := rehashLimit_lt hh.nelts_prime.pos hpos (not_lt.mp hmax)
        rehashLim_eq := Or.inl hidx }

/-- Placing a new string below the load limit. -/
theorem placeString_lands {p : DataModel} {h : HashTable} {items : List (CString × ℕ)}
    (hh : h.Holds p items) {s : CString} (hs : s ∉ items.map Prod.fst) (off : ℕ)
    (hroom : h.inuse + 1 < h.nelts) :
    Lands (Exceeds p ((s, off) :: items))
      (fun h' => h'.Holds p ((s, off) :: items) ∧ h'.rehashLim = h.rehashLim)
      (placeString p s off h) := by
  obtain ⟨n, hn, hprobe⟩ := hh.exists_probeElt s
  have hs' : s ∉ (entries h.view).map Prod.fst := by
    rwa [(hh.perm.map Prod.fst).mem_iff]
  obtain ⟨hnlt, hnone⟩ := probe_of_not_mem (hh.probeStart_lt s) hs' hprobe
  rw [placeString, hn]
  have htotal : totalBytes ((s, off) :: items) = s.1.length + 1 + totalBytes items := by
    rw [totalBytes, List.map_cons, List.sum_cons, totalBytes]
  rcases appendStrBuf_spec hh.fits s with ⟨len', happ, hlen, hnext, hfits⟩ | ⟨herr, hmax⟩
  · rw [happ]
    -- the old strings are where they were, and the new one is at the old `next`
    have hold : ∀ e ∈ h.elt, entryOf ⟨h.sbuf.str ++ s.1 ++ [0], len'⟩ e = entryOf h.sbuf e := by
      intro e he
      rw [entryOf, entryOf]
      rcases hh.terminated e he with hno | hin
      · rw [hno, stringAt_noString hh.fits, stringAt_noString hfits]
      · rw [List.append_assoc, stringAt_append hh.fits hin _ hlen]
    have hview : (h.elt.set n ⟨h.sbuf.next, off⟩).map
        (entryOf ⟨h.sbuf.str ++ s.1 ++ [0], len'⟩) = h.view.set n (some (s, off)) := by
      rw [List.map_set, List.map_congr_left hold, entryOf, stringAt_next h.sbuf s hnext]
      rfl
    refine ⟨⟨hh.szidx_ge, hh.szidx_le, hh.nelts, ?_, hfits, ?_, ?_, ?_, ?_, ?_, hroom,
      hh.rehashLim_lt, hh.rehashLim_eq⟩, rfl⟩
    · rw [List.length_set, hh.length_elt]
    · have hold := hh.next
      show (h.sbuf.str ++ s.1 ++ [0]).length = _
      rw [List.length_append, List.length_append, List.length_singleton, htotal, ← hold,
        StrBuf.next]
      omega
    · intro e he
      rcases List.mem_or_eq_of_mem_set he with hmem | rfl
      · refine (hh.terminated e hmem).imp_right fun hin => ?_
        show 0 ∈ (h.sbuf.str ++ s.1 ++ [0]).drop e.str
        rw [List.append_assoc, List.drop_append]
        exact List.mem_append_left _ hin
      · refine Or.inr ?_
        show 0 ∈ (h.sbuf.str ++ s.1 ++ [0]).drop h.sbuf.str.length
        rw [List.append_assoc, List.drop_left]
        simp
    · show Sound ((h.elt.set n _).map (entryOf _)) _ _
      rw [hview]
      exact hh.sound.set (hh.probeStart_lt s) hs' hprobe
    · show (entries ((h.elt.set n _).map (entryOf _))).Perm _
      rw [hview]
      exact (entries_set_perm hnlt hnone _).trans (hh.perm.cons _)
    · show h.inuse + 1 = items.length + 1
      rw [hh.inuse]
  · rw [herr]
    refine ⟨Stop.noConfusion, Or.inr ?_⟩
    have hold := hh.next
    omega

/-- Inserting below the load limit is placing. -/
theorem insertDepth_of_lt {p : DataModel} {h : HashTable} (hlim : h.inuse < h.rehashLim)
    (depth : ℕ) (s : CString) (off : ℕ) :
    insertDepth p (depth + 1) s off h = placeString p s off h := by
  rw [insertDepth, if_neg (by omega)]
  rfl

/-- Moving the entries of some elements into a table with room for them. -/
theorem foldlM_insert_lands {p : DataModel} (b : StrBuf) (depth : ℕ) (l : List HashElt)
    {nh : HashTable} {done : List (CString × ℕ)} (hh : nh.Holds p done)
    (hnodup : ((entries (l.map (entryOf b)) ++ done).map Prod.fst).Nodup)
    (hroom : done.length + (entries (l.map (entryOf b))).length ≤ nh.rehashLim) :
    Lands (Exceeds p (entries (l.map (entryOf b)) ++ done))
      (fun h => h.Holds p (entries (l.map (entryOf b)) ++ done) ∧ h.rehashLim = nh.rehashLim)
      (l.foldlM (fun nh e =>
        match stringAt b e.str with
        | none => .ok nh
        | some s => insertDepth p (depth + 1) s e.off nh) nh) := by
  induction l generalizing nh done with
  | nil => exact ⟨hh, rfl⟩
  | cons e l ih =>
    rw [List.foldlM_cons]
    cases hstr : stringAt b e.str with
    | none =>
      have hentry : entries ((e :: l).map (entryOf b)) = entries (l.map (entryOf b)) := by
        rw [entries, List.map_cons, entryOf, hstr, Option.map_none, List.reduceOption_cons_of_none]
        rfl
      rw [hentry] at hnodup hroom ⊢
      exact ih hh hnodup hroom
    | some s =>
      have hentry : entries ((e :: l).map (entryOf b)) =
          (s, e.off) :: entries (l.map (entryOf b)) := by
        rw [entries, List.map_cons, entryOf, hstr, Option.map_some, List.reduceOption_cons_of_some]
        rfl
      rw [hentry] at hnodup hroom ⊢
      rw [List.length_cons] at hroom
      -- the entry goes from the front of what is left to what is done
      have hmove : (entries (l.map (entryOf b)) ++ (s, e.off) :: done).Perm
          ((s, e.off) :: entries (l.map (entryOf b)) ++ done) := List.perm_middle
      have hnew : s ∉ done.map Prod.fst := by
        intro hmem
        rw [List.cons_append, List.map_cons, List.nodup_cons, List.map_append] at hnodup
        exact hnodup.1 (List.mem_append_right _ hmem)
      have hinuse := hh.inuse
      have hlim := hh.rehashLim_lt
      refine Lands.bind (P := fun h => h.Holds p ((s, e.off) :: done) ∧
        h.rehashLim = nh.rehashLim) ?_ ?_
      · show Lands _ _ (insertDepth p (depth + 1) s e.off nh)
        rw [insertDepth_of_lt (by omega)]
        exact (placeString_lands hh hnew e.off (by omega)).mono
          (fun hfull => hfull.of_perm_append _ hmove) fun h hh => hh
      · rintro h ⟨hh', hlim'⟩
        refine (ih hh' ?_ ?_).mono (fun hfull => hfull.of_perm_append [] hmove)
          fun h hh => ⟨hh.1.of_perm hmove, hh.2.trans hlim'⟩
        · exact (hmove.map Prod.fst).nodup_iff.mpr hnodup
        · rw [List.length_cons, hlim']
          omega

/-- Growing a table that is at its limit keeps what it holds and makes room for
one more. -/
theorem expandHashTable_lands {p : DataModel} {h : HashTable} {items : List (CString × ℕ)}
    (hh : h.Holds p items) (hfull : h.inuse ≥ h.rehashLim) (depth : ℕ) (new : CString × ℕ) :
    Lands (Exceeds p (new :: items)) (fun nh => nh.Holds p items ∧ nh.inuse + 1 < nh.nelts)
      (expandHashTable p (insertDepth p (depth + 1)) h) := by
  have hge := hh.szidx_ge
  have hcreate := createHashTable_lands p (h.szidx + 1) (by omega)
  refine Lands.bind (hcreate.mono ?_ fun nh hnh => hnh) ?_
  · -- there is no larger table: this one has the last size, and the default limit
    intro hlast
    have hidx : h.szidx = lastSzIdx p := le_antisymm hh.szidx_le (by omega)
    have hlim : h.rehashLim = rehashLimit h.nelts dfltLoadFactor := by
      rcases hh.rehashLim_eq with h9 | hlim
      · rw [hidx] at h9
        cases p <;> exact absurd h9 (by decide)
      · exact hlim
    have hmax : maxStrings p = h.rehashLim := by
      rw [hlim, maxStrings, ← hidx, List.getD_eq_getElem?_getD, hh.nelts, Option.getD_some]
    have hinuse := hh.inuse
    exact Or.inl (by rw [List.length_cons]; omega)
  · rintro nh ⟨hnew, hidx, hlim⟩
    -- the new limit is at least the old size, which exceeds what is moved
    have hsize : 100 * h.nelts ≤ 89 * nh.nelts :=
      primes_next hge hh.nelts (hidx ▸ hnew.nelts)
    have hlim' := le_rehashLimit hnew.nelts_prime.pos hsize
    have hlt := hh.inuse_lt
    have hlen : (entries (h.elt.map (entryOf h.sbuf))).length = h.inuse := by
      rw [hh.inuse]
      exact hh.perm.length_eq
    have hnodup : ((entries (h.elt.map (entryOf h.sbuf)) ++ []).map Prod.fst).Nodup := by
      rw [List.append_nil]
      exact hh.sound.nodup
    refine (foldlM_insert_lands h.sbuf depth h.elt hnew hnodup ?_).mono ?_ ?_
    · rw [hlen, hlim, List.length_nil]
      omega
    · intro hexceeds
      rw [List.append_nil] at hexceeds
      exact hexceeds.of_perm_append [new] (hh.perm.cons new)
    · rintro g ⟨hg, hglim⟩
      rw [List.append_nil] at hg
      have hg' := hg.of_perm hh.perm
      have hinuse := hg'.inuse.trans hh.inuse.symm
      have hglt := hg'.rehashLim_lt
      exact ⟨hg', by omega⟩

/-- Inserting a new string adds it, unless the strings exceed the limits. -/
theorem insertHashTable_lands {p : DataModel} {h : HashTable} {items : List (CString × ℕ)}
    (hh : h.Holds p items) {s : CString} (hs : s ∉ items.map Prod.fst) (off : ℕ) :
    Lands (Exceeds p ((s, off) :: items)) (fun h' => h'.Holds p ((s, off) :: items))
      (insertHashTable p s off h) := by
  have hplace : ∀ nh : HashTable, nh.Holds p items ∧ nh.inuse + 1 < nh.nelts →
      Lands (Exceeds p ((s, off) :: items)) (fun h' => h'.Holds p ((s, off) :: items))
        (placeString p s off nh) := by
    rintro nh ⟨hnh, hroom⟩
    exact (placeString_lands hnh hs off hroom).mono id fun h' hh' => hh'.1
  rw [insertHashTable, insertDepth]
  split
  next hfull => exact Lands.bind (expandHashTable_lands hh hfull 31 (s, off)) hplace
  next =>
    have hlt := hh.rehashLim_lt
    exact hplace h ⟨hh, by omega⟩

/-- Inserting distinct new strings adds them all. -/
theorem insertStrings_lands {p : DataModel} {h : HashTable} {items : List (CString × ℕ)}
    (new : List (CString × ℕ)) (hh : h.Holds p items)
    (hnodup : ((new ++ items).map Prod.fst).Nodup) :
    Lands (Exceeds p (new ++ items)) (fun h' => h'.Holds p (new ++ items))
      (insertStrings p new h) := by
  induction new generalizing h items with
  | nil => exact hh
  | cons e new ih =>
    have hmove : (new ++ e :: items).Perm (e :: new ++ items) := List.perm_middle
    have he : e.1 ∉ items.map Prod.fst := by
      intro hmem
      rw [List.cons_append, List.map_cons, List.nodup_cons, List.map_append] at hnodup
      exact hnodup.1 (List.mem_append_right _ hmem)
    rw [insertStrings, List.foldlM_cons]
    refine Lands.bind (P := fun h' => h'.Holds p (e :: items)) ?_ ?_
    · exact (insertHashTable_lands hh he e.2).mono (fun hfull => hfull.of_perm_append _ hmove)
        fun h' hh' => hh'
    · intro h' hh'
      exact (ih hh' ((hmove.map Prod.fst).nodup_iff.mpr hnodup)).mono
        (fun hfull => hfull.of_perm_append [] hmove) fun g hg => hg.of_perm hmove

/-- A run of the cache: a new table, its load factor, and insertions. -/
def fillCache (p : DataModel) (lf : ℚ) (items : List (CString × ℕ)) : Except Stop HashTable := do
  let h ← createHashTable p initSzIdx
  insertStrings p items ((setLoadFactor h lf).getD h)

/-- **The cache answers every search correctly.**  After any insertions of
distinct strings every search ends; it finds the inserted strings, with their
offsets, and no others.  Insertions fail only beyond the largest table and the
largest buffer. -/
theorem searchHashTable_fillCache (p : DataModel) (lf : ℚ) (items : List (CString × ℕ))
    (hnodup : (items.map Prod.fst).Nodup) :
    (∀ h, fillCache p lf items = .ok h →
      ∀ s, ∃ r, searchHashTable p h s = some r ∧ Answers items s r) ∧
    (∀ e, fillCache p lf items = .error e → e ≠ .diverges ∧ Exceeds p items) := by
  have hlands : Lands (Exceeds p items) (fun h => h.Holds p items) (fillCache p lf items) := by
    refine Lands.bind ((createHashTable_lands p _ (le_refl _)).mono ?_ fun h hh => hh) ?_
    · intro hlast
      cases p <;> exact absurd hlast (by decide)
    · rintro h ⟨hh, hidx, -⟩
      have hset : ((setLoadFactor h lf).getD h).Holds p [] := by
        cases hlf : setLoadFactor h lf with
        | none => exact hh
        | some h' => exact hh.setLoadFactor hidx hlf
      have hrun := insertStrings_lands items hset (by rwa [List.append_nil])
      rwa [List.append_nil] at hrun
  constructor
  · intro h heq s
    rw [heq] at hlands
    exact HashTable.Holds.searchHashTable hlands s
  · intro e heq
    rw [heq] at hlands
    exact hlands

/-- Two file names of a strings file, with their offsets. -/
def sampleItems : List (CString × ℕ) :=
  [(⟨[108, 115, 45, 108, 82], by decide⟩, 1), (⟨[82, 69, 65, 68, 77, 69], by decide⟩, 7)]

theorem searchHashTable_sampleItems :
    (∀ h, fillCache .ilp32 (1 / 2) sampleItems = .ok h →
      ∀ s, ∃ r, searchHashTable .ilp32 h s = some r ∧ Answers sampleItems s r) ∧
    (∀ e, fillCache .ilp32 (1 / 2) sampleItems = .error e →
      e ≠ .diverges ∧ Exceeds .ilp32 sampleItems) :=
  searchHashTable_fillCache .ilp32 (1 / 2) sampleItems (by decide)

end Archie
