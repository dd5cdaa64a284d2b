/-
The cache of new strings (`newstr.c`): a hash table with double hashing over a
buffer of NUL-terminated strings.

The table grows to the next size in `primes` when it is about to exceed its load
limit.  A request for half of the address space or more fails; other failures
of `malloc` end the run with an error and are not modelled.  The code builds
for both data models below, and nothing here depends on which one is used.
-/
import Archie.CInt
import Archie.Probe
import Archie.Single
import Mathlib.Data.List.TakeWhile

namespace Archie

/-- Widths of `unsigned long` and `size_t`, and the size of `struct hash_elt`. -/
inductive DataModel
  | ilp32
  | lp64
  deriving DecidableEq, Repr

namespace DataModel

/-- `ULONG_MAX + 1`. -/
def word : DataModel → ℕ
  | ilp32 => 2 ^ 32
  | lp64 => 2 ^ 64

/-- `sizeof (struct hash_elt)`. -/
def eltSize : DataModel → ℕ
  | ilp32 => 8
  | lp64 => 16

/-- The sizes of objects that can be allocated. -/
def Allocates (p : DataModel) (n : ℕ) : Prop := n < p.word / 2

instance (p : DataModel) (n : ℕ) : Decidable (p.Allocates n) :=
  inferInstanceAs (Decidable (n < p.word / 2))

end DataModel

/-- A C string: the bytes before the NUL. -/
abbrev CString := {s : List UInt8 // 0 ∉ s}

/-- The string that starts a block of bytes. -/
def cstring (bytes : List UInt8) : CString :=
  ⟨bytes.takeWhile (· ≠ 0), fun h => by simpa using List.mem_takeWhile_imp h⟩

/-- Why an insertion returns 0, or does not return. -/
inductive Stop
  | noPrime
  | noMemory
  | diverges
  deriving DecidableEq, Repr

/-! ### The string buffer -/

/-- `INIT_SBUF_SZ`. -/
def initSbufSz : ℕ := 1000

/-- `struct str_buf`: the bytes before `next`, and the size of the memory. -/
structure StrBuf where
  str : List UInt8
  len : ℕ
  deriving DecidableEq, Repr

/-- The next available location. -/
def StrBuf.next (b : StrBuf) : ℕ := b.str.length

/-- `new_str_buf`. -/
def newStrBuf : StrBuf where
  str := []
  len := initSbufSz

/-- The loop of `append_str_buf`: the memory doubles until `l` characters and a
NUL fit after `next`. -/
def growStrBuf (p : DataModel) (l next : ℕ) : ℕ → ℕ → Except Stop ℕ
  | 0, _ => .error .diverges
  | fuel + 1, len =>
    if l ≥ len - next then
      if p.Allocates (2 * len) then growStrBuf p l next fuel (2 * len) else .error .noMemory
    else .ok len

/-- `append_str_buf`: the offset of the copy, and the buffer.  The memory
cannot double more than 64 times. -/
def appendStrBuf (p : DataModel) (s : CString) (b : StrBuf) : Except Stop (ℕ × StrBuf) := do
  let len ← growStrBuf p s.1.length b.next 64 b.len
  .ok (b.next, { str := b.str ++ s.1 ++ [0], len := len })

/-- `string_at`. -/
def stringAt (b : StrBuf) (off : ℕ) : Option CString :=
  if off < b.len then some (cstring (b.str.drop off)) else none

/-! ### The hash table -/

/-- `primes`: for `i ≥ 2` the first prime greater than `2 ^ i`. -/
def primes : List ℕ :=
  [2, 2, 5, 11, 17, 37, 67, 131, 257, 521, 1031, 2053, 4099, 8209, 16411, 32771,
    65537, 131101, 262147, 524309, 1048583, 2097169, 4194319, 8388617, 16777259,
    33554467, 67108879, 134217757, 268435459, 536870923, 1073741827, 2147483659]

/-- `INIT_SZ_IDX`. -/
def initSzIdx : ℕ := 9

/-- `struct hash_elt`. -/
structure HashElt where
  str : ℕ
  off : ℕ
  deriving DecidableEq, Repr

/-- `struct hash_table`. -/
structure HashTable where
  szidx : ℕ
  nelts : ℕ
  inuse : ℕ
  rehashLim : ℕ
  elt : List HashElt
  sbuf : StrBuf
  deriving DecidableEq, Repr

/-- `DFLT_LOAD_FACTOR`, as the `float` nearest to 0.9. -/
def dfltLoadFactor : ℚ := 15099494 / 2 ^ 24

/-- `MAX_LOAD_FACTOR`, the `double` nearest to 0.99. -/
def maxLoadFactor : ℚ := 8917127262193582 / 2 ^ 53

/-- `MIN_LOAD_FACTOR`, the `double` nearest to 0.01. -/
def minLoadFactor : ℚ := 5764607523034235 / 2 ^ 59

/-- `h->nelts * lf`, a product of two `float`s, truncated to `size_t`. -/
def rehashLimit (nelts : ℕ) (lf : ℚ) : ℕ :=
  ⌊Single.roundSingle (Single.roundSingle nelts * lf)⌋₊

/-- `set_load_factor`; `none` is a refusal, which leaves the table as it is. -/
def setLoadFactor (h : HashTable) (lf : ℚ) : Option HashTable :=
  if lf < minLoadFactor then none
  else if lf > maxLoadFactor then none
  else some { h with rehashLim := rehashLimit h.nelts lf }

/-- `(size_t)-1`, which marks an empty element. -/
def noString (p : DataModel) : ℕ := p.word - 1

/-- `create_hash_table`. -/
def createHashTable (p : DataModel) (idx : ℕ) : Except Stop HashTable :=
  match primes[idx]? with
  | none => .error .noPrime
  | some nelts =>
    if p.Allocates (p.eltSize * nelts) then
      let h : HashTable :=
        { szidx := idx
          nelts := nelts
          inuse := 0
          rehashLim := 0
          elt := List.replicate nelts ⟨noString p, 0⟩
          sbuf := newStrBuf }
      .ok ((setLoadFactor h dfltLoadFactor).getD h)
    else .error .noMemory

/-- `hash0`. -/
def hash0 (p : DataModel) (s : CString) : ℕ :=
  s.1.foldl (fun h c => (h * 33 + c.toNat) % p.word) 0

/-- `hash1`. -/
def hash1 (p : DataModel) (s : CString) : ℕ :=
  s.1.foldl (fun h c => (h * 131 + c.toNat) % p.word) 0

/-- The string of element `n`, when it is in use. -/
def HashTable.stringOf (h : HashTable) (n : ℕ) : Option CString :=
  (h.elt[n]?).bind fun e => stringAt h.sbuf e.str

/-- The loop of `insert_hash_table` and `search_hash_table`, from element `n`
on; `none` when `fuel` turns do not end it. -/
def probeLoop (h : HashTable) (s : CString) (i : ℕ) : ℕ → ℕ → Option ℕ
  | 0, _ => none
  | fuel + 1, n =>
    match h.stringOf n with
    | none => some n
    | some t => if t ≠ s then probeLoop h s i fuel ((n + i) % h.nelts) else some n

/-- The first element, `n`, of the probe for a string. -/
def probeStart (p : DataModel) (nelts : ℕ) (s : CString) : ℕ := hash0 p s % nelts

/-- The step, `i`, of the probe for a string. -/
def probeStep (p : DataModel) (nelts : ℕ) (s : CString) : ℕ := 1 + hash1 p s % (nelts - 1)

/-- The element at which the probe for a string ends.  After `nelts` turns the
probe is back at its first element, so a longer one never ends. -/
def probeElt (p : DataModel) (h : HashTable) (s : CString) : Option ℕ :=
  probeLoop h s (probeStep p h.nelts s) h.nelts (probeStart p h.nelts s)

/-- `insert_hash_table` after the table has grown. -/
def placeString (p : DataModel) (s : CString) (off : ℕ) (h : HashTable) : Except Stop HashTable :=
  match probeElt p h s with
  | none => .error .diverges
  | some n => do
    let (str, sbuf) ← appendStrBuf p s h.sbuf
    .ok { h with sbuf := sbuf, elt := h.elt.set n ⟨str, off⟩, inuse := h.inuse + 1 }

/-- `expand_hash_table`, with `insert` for `insert_hash_table`. -/
def expandHashTable (p : DataModel) (insert : CString → ℕ → HashTable → Except Stop HashTable)
    (oh : HashTable) : Except Stop HashTable := do
  let nh ← createHashTable p (oh.szidx + 1)
  oh.elt.foldlM (fun nh e =>
    match stringAt oh.sbuf e.str with
    | none => .ok nh
    | some s => insert s e.off nh) nh

/-- `insert_hash_table`, for at most `depth` expansions inside each other. -/
def insertDepth (p : DataModel) : ℕ → CString → ℕ → HashTable → Except Stop HashTable
  | 0, _, _, _ => .error .diverges
  | depth + 1, s, off, h => do
    let h ← if h.inuse ≥ h.rehashLim then expandHashTable p (insertDepth p depth) h else .ok h
    placeString p s off h

/-- `insert_hash_table`.  Each expansion takes the next of the 32 primes. -/
def insertHashTable (p : DataModel) (s : CString) (off : ℕ) (h : HashTable) :
    Except Stop HashTable :=
  insertDepth p 33 s off h

/-- `search_hash_table`: the offset and the flag `found`; `none` when the probe
does not end. -/
def searchHashTable (p : DataModel) (h : HashTable) (s : CString) : Option (ℕ × Bool) := do
  let n ← probeElt p h s
  let e ← h.elt[n]?
  some (e.off, (h.stringOf n).isSome)

/-- Inserting strings with their offsets, one after the other. -/
def insertStrings (p : DataModel) (items : List (CString × ℕ)) (h : HashTable) :
    Except Stop HashTable :=
  items.foldlM (fun h item => insertHashTable p item.1 item.2 h) h

end Archie
