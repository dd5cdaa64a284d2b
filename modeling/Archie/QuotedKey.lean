/-
Quoted search keys in memory (`patrieQuoteKey` and `patrieDequoteKey` of `patrie/state.c`).

* `BytePtr` — a pointer into a block of bytes.
* `patrieQuoteKey`, `patrieDequoteKey` — the two functions on pointers.
* `patrieQuoteKey_eq` — what is written, and where the pointer that is handed back points to.
* `patrieDequoteKey_start` — the block holds the quoted key from its start.
* `patrieQuoteKey_never` — the pointer that is handed back is never the quoted key.
-/
import Archie.CText
import Archie.StateText

namespace Archie

/-! ### Pointers -/

/-- A pointer into a block of memory. -/
structure BytePtr where
  block : List UInt8
  pos : ℕ
deriving DecidableEq

/-- The string that a pointer points to. -/
def BytePtr.string (p : BytePtr) : List UInt8 := (p.block.drop p.pos).takeWhile (· ≠ 0)

/-- Characters that are stored at a pointer; none, if they do not fit into the block. -/
def BytePtr.store (p : BytePtr) (cs : List UInt8) : Option (List UInt8) :=
  if p.pos + cs.length ≤ p.block.length then
    some (p.block.take p.pos ++ cs ++ p.block.drop (p.pos + cs.length))
  else none

/-- `malloc`, where there is memory. -/
structure Malloc where
  alloc : ℕ → List UInt8
  length_alloc : ∀ n, (alloc n).length = n

/-! ### The two functions -/

/-- The loop of `quoteKey`, and the NUL after it; the pointer is left where it ends. -/
def quoteKeyAt : List UInt8 → BytePtr → Option BytePtr
  | [], s => do
    let block ← s.store [0]
    return ⟨block, s.pos⟩
  | c :: key, s =>
    if mustQuoteCh c then do
      -- `sprintf` stores a NUL as well.
      let block ← s.store [quoteCh, hexDigit (c.toNat / 16), hexDigit (c.toNat % 16), 0]
      quoteKeyAt key ⟨block, s.pos + 3⟩
    else do
      let block ← s.store [c]
      quoteKeyAt key ⟨block, s.pos + 1⟩

/-- `patrieQuoteKey`: the value of `*qkey`. -/
def patrieQuoteKey (malloc : Malloc) (key : List UInt8) : Option BytePtr :=
  quoteKeyAt key ⟨malloc.alloc (keySpace key + 1), 0⟩

/-- `patrieDequoteKey`: the values of `*key` and `*newstr`. -/
def patrieDequoteKey (qkey : BytePtr) : Option (List UInt8 × BytePtr) :=
  (dequoteKey qkey.string).map fun r =>
    (r.1, ⟨qkey.block, qkey.pos + (qkey.string.length - r.2.length)⟩)

/-- A key comes back, and the whole quoted string is consumed. -/
def QuotesBack (malloc : Malloc) (key : List UInt8) : Prop :=
  ∃ qkey newstr, patrieQuoteKey malloc key = some qkey ∧
    patrieDequoteKey qkey = some (key, newstr) ∧
    newstr.string = []

/-! ### What is written -/

/-- Storing into a block whose beginning is done. -/
theorem BytePtr.store_append (done : List UInt8) {cs junk : List UInt8}
    (h : cs.length ≤ junk.length) :
    (⟨done ++ junk, done.length⟩ : BytePtr).store cs = some
    (done ++ (cs ++ junk.drop cs.length)) := by
  have hfits : done.length + cs.length ≤ (done ++ junk).length := by
    rw [List.length_append]
    omega
  rw [BytePtr.store, if_pos hfits]
  dsimp only
  rw [List.take_left, List.drop_length_add_append, List.append_assoc]

theorem keySpace_cons (c : UInt8) (key : List UInt8) :
    keySpace (c :: key) = (if mustQuoteCh c then 3 else 1) + keySpace key := by
  rw [keySpace, keySpace, List.map_cons, List.sum_cons]

/-- The loop of `quoteKey` from a place in the block on. -/
theorem quoteKeyAt_eq (key : List UInt8) : ∀ done junk : List UInt8,
    junk.length = keySpace key + 1 →
    quoteKeyAt key ⟨done ++ junk, done.length⟩ =
      some ⟨done ++ (quoteKey key ++ [0]), done.length + (quoteKey key).length⟩ := by
  induction key with
  | nil =>
    intro done junk hjunk
    have hlen : junk.length = 1 := hjunk
    have hstore := @BytePtr.store_append done [0] junk hlen.ge
    have hdrop : junk.drop [(0 : UInt8)].length = [] := List.drop_eq_nil_of_le hlen.le
    rw [hdrop] at hstore
    rw [quoteKeyAt, hstore]
    rfl
  | cons c key ih =>
    intro done junk hjunk
    -- After `q` has been stored, the rest of the key comes behind it.
    have hstep : ∀ q junk' : List UInt8, junk'.length = keySpace key + 1 →
        quoteKeyAt key ⟨done ++ (q ++ junk'), done.length + q.length⟩ =
          some ⟨done ++ (q ++ quoteKey key ++ [0]), done.length + (q ++ quoteKey key).length⟩ := by
      intro q junk' hjunk'
      have hnext := ih (done ++ q) junk' hjunk'
      rw [List.append_assoc, List.append_assoc, ← List.append_assoc q, List.length_append,
        Nat.add_assoc] at hnext
      rw [List.length_append]
      exact hnext
    rw [keySpace_cons] at hjunk
    rw [quoteKeyAt, quoteKey, List.flatMap_cons, ← quoteKey]
    by_cases hq : mustQuoteCh c = true
    · rw [if_pos hq] at hjunk
      have hstore := @BytePtr.store_append done
        [quoteCh, hexDigit (c.toNat / 16), hexDigit (c.toNat % 16), 0] junk
        (show 4 ≤ junk.length by omega)
      rw [if_pos hq, if_pos hq, hstore, Option.bind_eq_bind, Option.bind_some]
      exact hstep [quoteCh, hexDigit (c.toNat / 16), hexDigit (c.toNat % 16)] (0 :: junk.drop 4) (by
        rw [List.length_cons, List.length_drop]
        omega)
    · rw [if_neg hq] at hjunk
      have hstore := @BytePtr.store_append done [c] junk (show 1 ≤ junk.length by omega)
      rw [if_neg hq, if_neg hq, hstore, Option.bind_eq_bind, Option.bind_some]
      exact hstep [c] (junk.drop 1) (by
        rw [List.length_drop]
        omega)

/-- The quoted key is in the block, and the pointer is at the NUL after it. -/
theorem patrieQuoteKey_eq (malloc : Malloc) (key : List UInt8) :
    patrieQuoteKey malloc key = some ⟨quoteKey key ++ [0], (quoteKey key).length⟩ := by
  have h := quoteKeyAt_eq key [] (malloc.alloc (keySpace key + 1)) (malloc.length_alloc _)
  rw [List.nil_append, List.nil_append, List.length_nil, Nat.zero_add] at h
  exact h

/-! ### What is read -/

theorem string_quoteKey (key : List UInt8) :
    (⟨quoteKey key ++ [0], 0⟩ : BytePtr).string = quoteKey key := by
  have hne : ∀ c ∈ quoteKey key, decide (c ≠ 0) = true := by
    intro c hc
    refine decide_eq_true fun hzero => ?_
    have hprint := isPrintable_quoteKey key c hc
    rw [hzero] at hprint
    exact absurd hprint (by decide)
  rw [BytePtr.string, List.drop_zero, List.takeWhile_append_of_pos hne]
  exact List.append_nil _

theorem string_end (s : List UInt8) : (⟨s ++ [0], s.length⟩ : BytePtr).string = [] := by
  rw [BytePtr.string, List.drop_left]
  rfl

/-- From its start the block gives the key back, and the reader stops at the pointer that was handed
back. -/
theorem patrieDequoteKey_start {malloc : Malloc} {key : List UInt8} {qkey : BytePtr}
    (hne : key ≠ [])
    (h : patrieQuoteKey malloc key = some qkey) :
    patrieDequoteKey ⟨qkey.block, 0⟩ = some (key, qkey) := by
  obtain rfl := Option.some.inj ((patrieQuoteKey_eq malloc key).symm.trans h)
  have hread := @dequoteKey_quoteKey [] (Or.inl rfl) key hne
  rw [List.append_nil] at hread
  rw [patrieDequoteKey, string_quoteKey, hread, Option.map_some, List.length_nil, Nat.sub_zero,
    Nat.zero_add]

/-- **Quoted keys** are handed back by a pointer to their end, which cannot be read back. -/
theorem patrieQuoteKey_never (malloc : Malloc) (key : List UInt8) :
    (∃ qkey, patrieQuoteKey malloc key = some qkey ∧ qkey.string = [] ∧
      patrieDequoteKey qkey = none) ∧
    ¬ QuotesBack malloc key := by
  have hnone : patrieDequoteKey ⟨quoteKey key ++ [0], (quoteKey key).length⟩ = none := by
    rw [patrieDequoteKey, string_end]
    rfl
  refine ⟨⟨_, patrieQuoteKey_eq malloc key, string_end _, hnone⟩, ?_⟩
  rintro ⟨qkey, newstr, hquote, hdequote, -⟩
  obtain rfl := Option.some.inj ((patrieQuoteKey_eq malloc key).symm.trans hquote)
  exact absurd (hnone.symm.trans hdequote) (Option.some_ne_none _).symm

/-- For `a%` the block holds `a%25`, and the pointer is after it. -/
theorem not_quotesBack :
    (¬ ∀ (malloc : Malloc) (key : List UInt8), key ≠ [] → 0 ∉ key → QuotesBack malloc key) ∧
    ∀ malloc : Malloc, patrieQuoteKey malloc (bytes "a%") = some ⟨bytes "a%25" ++ [0], 4⟩ := by
  have hblock : ∀ malloc : Malloc,
      patrieQuoteKey malloc (bytes "a%") = some ⟨bytes "a%25" ++ [0], 4⟩ := by
    intro malloc
    have hquote : quoteKey (bytes "a%") = bytes "a%25" := by decide +kernel
    rw [patrieQuoteKey_eq, hquote]
    rfl
  refine ⟨fun h => ?_, hblock⟩
  obtain ⟨qkey, newstr, hquote, hdequote, -⟩ :=
    h ⟨fun n => List.replicate n 0, fun _ => List.length_replicate⟩
    (bytes "a%") (by decide) (by decide)
  obtain rfl := Option.some.inj ((hblock _).symm.trans hquote)
  have hnone : patrieDequoteKey ⟨bytes "a%25" ++ [0], 4⟩ = none := rfl
  exact absurd (hnone.symm.trans hdequote) (Option.some_ne_none _).symm

end Archie
