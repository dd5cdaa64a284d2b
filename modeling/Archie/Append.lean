/-
Appending keys to a strings file (`archstridx/api.c`: `open_create`,
`open_append`, `archAppendKey`; `newstr.c`: `get_key`, `init_hash_table`,
`init_dbm`, `_archInitStringCache`).

A key that is neither in the cache of new strings nor in the index is put at the
end of the strings file and into the cache.  A handle that is opened for
appending reads the strings after the split back into its cache.

* `initHashTable_fileBody` — reading the file rebuilds the cache with the
  offsets under which the strings were added.
* `occursAt_stringsFile` — the whole strings of a file are its strings.
* `appendRun_spec` — over any calls and any number of sessions the file holds the
  distinct keys in the order of their first append, and each call returns where
  its key is.
-/
import Archie.NewStrSearch
import Archie.Layout

namespace Archie

open HashTable

/-- The files of a strings database: `Stridx.Strings`, `Stridx.Split`,
`Stridx.Type` and, when there is one, `Stridx.Index`. -/
structure StridxDir where
  strings : List UInt8
  split : ℕ
  type : IndexType
  index : Option PagedTrie
  deriving DecidableEq, Repr

/-- `struct new_string_cache`: one of the two is there. -/
structure NewStringCache where
  htab : Option HashTable
  dbm : Option (List (CString × ℕ))
  deriving DecidableEq, Repr

/-- `struct arch_stridx_handle` with what appending adds to it. -/
structure AppendHandle where
  search : StridxHandle
  nsc : NewStringCache
  next : ℕ
  deriving DecidableEq, Repr

/-- Why a session ends early: the cache has no room, a function returns 0, or a
DBM file that is not open is used. -/
inductive AppendStop
  | cache (e : Stop)
  | failed
  | crash
  deriving DecidableEq, Repr

/-- An operation of the hash table, as a step of a session. -/
def cacheStep {α : Type} (x : Except Stop α) : Except AppendStop α := x.mapError .cache

/-! ### Reading the strings file -/

/-- What `get_key` reads: a key, with the text after its separator, or the end of
the file, or something that is no key. -/
inductive GetKey
  | key (s : CString) (rest : List UInt8)
  | eof
  | bad
  deriving DecidableEq, Repr

/-- `fgets`: at most `ksz - 1` characters, up to and including a newline. -/
def fgets (ksz : ℕ) (text : List UInt8) : List UInt8 :=
  let chunk := text.take (ksz - 1)
  chunk.takeWhile (· ≠ keysepCh) ++ (chunk.dropWhile (· ≠ keysepCh)).take 1

/-- `get_key`, with the text from the position in the file on. -/
def getKey (ksz : ℕ) (text : List UInt8) : GetKey :=
  if text = [] then .eof
  else
    let key := cstring (fgets ksz text)
    if keysepCh ∉ key.1 then .bad
    else if key.1 = [] then .bad
    else .key (cstring (key.1.takeWhile (· ≠ keysepCh))) (text.drop (fgets ksz text).length)

/-- `sizeof key` in `init_hash_table` and `init_dbm`. -/
def keySize : ℕ := 1024

/-- `init_hash_table`, from an offset on.  Every key moves forward in the file. -/
def initHashTable (p : DataModel) : ℕ → List UInt8 → ℕ → HashTable → Except AppendStop HashTable
  | 0, _, _, _ => .error .failed
  | fuel + 1, text, off, h =>
    match getKey keySize text with
    | .bad => .error .failed
    | .eof => .ok h
    | .key s rest => do
      let h ← cacheStep (insertHashTable p s off h)
      initHashTable p fuel rest (off + s.1.length + 1) h

/-- `init_dbm`.  No key of the file is stored already. -/
def initDbm : ℕ → List UInt8 → ℕ → Option (List (CString × ℕ)) →
    Except AppendStop (Option (List (CString × ℕ)))
  | 0, _, _, _ => .error .failed
  | fuel + 1, text, off, dbm =>
    match getKey keySize text, dbm with
    | .bad, _ => .error .failed
    | .eof, dbm => .ok dbm
    | .key _ _, none => .error .crash
    | .key s rest, some items =>
      if s ∈ items.map Prod.fst then .error .failed
      else initDbm fuel rest (off + s.1.length + 1) (some (items ++ [(s, off)]))

/-! ### The cache of new strings -/

/-- `_archNewStringCache`: a DBM file only if there is no hash table. -/
def archNewStringCache (p : DataModel) : NewStringCache :=
  match createHashTable p initSzIdx with
  | .ok h => { htab := some h, dbm := none }
  | .error _ => { htab := none, dbm := some [] }

/-- `_archStringCacheLoadFactor`. -/
def archStringCacheLoadFactor (c : NewStringCache) (lf : ℚ) : NewStringCache :=
  { c with htab := c.htab.map fun h => (setLoadFactor h lf).getD h }

/-- The cache of a handle with the given `loadFactor`. -/
def openStringCache (p : DataModel) (loadFactor : ℚ) : NewStringCache :=
  if loadFactor > 0 then archStringCacheLoadFactor (archNewStringCache p) loadFactor
  else archNewStringCache p

/-- `_archInitStringCache`.  Where the hash table has been filled, `init_dbm` is
called as well, with the file read to its end. -/
def archInitStringCache (p : DataModel) (c : NewStringCache) (strings : List UInt8) (start : ℕ) :
    Except AppendStop NewStringCache := do
  let text := strings.drop start
  match c.htab with
  | some h =>
    let h ← initHashTable p (text.length + 1) text start h
    let dbm ← initDbm 1 [] start c.dbm
    .ok { htab := some h, dbm := dbm }
  | none =>
    let dbm ← initDbm (text.length + 1) text start c.dbm
    .ok { c with dbm := dbm }

/-- `_archAddKeyToStringCache`. -/
def archAddKeyToStringCache (p : DataModel) (c : NewStringCache) (key : CString) (off : ℕ) :
    Except AppendStop NewStringCache :=
  match c.htab, c.dbm with
  | some h, _ => do
    let h ← cacheStep (insertHashTable p key off h)
    .ok { c with htab := some h }
  | none, some items =>
    .ok { c with dbm := some (if key ∈ items.map Prod.fst then items else items ++ [(key, off)]) }
  | none, none => .error .crash

/-- `_archKeyInStringCache`: the offset of a key that is there. -/
def archKeyInStringCache (p : DataModel) (c : NewStringCache) (key : CString) :
    Except AppendStop (Option ℕ) :=
  match c.htab, c.dbm with
  | some h, _ =>
    match searchHashTable p h key with
    | none => .error (.cache .diverges)
    | some (off, found) => .ok (if found then some off else none)
  | none, some items => .ok ((items.find? fun e => e.1 = key).map Prod.snd)
  | none, none => .error .crash

/-! ### Sessions -/

/-- `archNewStrIdx`, with the type and the split that opening sets. -/
def newStrIdx (type : IndexType) (split : ℕ) (cf : Option PatrieConfig) : StridxHandle where
  idxType := type
  uiText := none
  split := split
  cf := cf
  page := ⟨0, 0, 0, [], 0, [], -1⟩
  key := none
  srchType := .unset
  caseAccentSens := 0
  rState := 0
  uState := 0
  pState := none

/-- `archCreateStrIdx` (`open_create`): the new files and the handle. -/
def archCreateStrIdx (p : DataModel) (type : IndexType) (loadFactor : ℚ) :
    StridxDir × AppendHandle :=
  ({ strings := [keysepCh], split := 1, type := type, index := none },
    { search := newStrIdx type 1 none, nsc := openStringCache p loadFactor, next := 1 })

/-- `archOpenStrIdx` for appending (`open_append`). -/
def openAppend (p : DataModel) (loadFactor : ℚ) (dir : StridxDir) :
    Except AppendStop AppendHandle := do
  let cf := dir.index.map fun trie => PatrieConfig.mk dir.strings .ciai trie
  let nsc ← archInitStringCache p (openStringCache p loadFactor) dir.strings dir.split
  .ok { search := newStrIdx dir.type dir.split cf, nsc := nsc, next := dir.strings.length }

/-- The part of `archAppendKey` that looks into the index; its text is the
strings file. -/
def searchIndex (calls : Calls) (key : CString) (dir : StridxDir) (h : StridxHandle) :
    Option (Option ℕ × StridxHandle) :=
  match h.cf with
  | none => some (none, h)
  | some cf => do
    let h := { h with cf := some { cf with text := dir.strings } }
    let (h, found, start) ← archSearchExact calls h key.1 3 1 [0]
    some (if found ≠ 0 then start[0]? else none, h)

/-- `archAppendKey`: what is returned through `start`, or none if it returns 0. -/
def archAppendKey (calls : Calls) (p : DataModel) (key : CString) (dir : StridxDir)
    (h : AppendHandle) : Except AppendStop (Option ℕ × StridxDir × AppendHandle) :=
  if key.1 = [] then .ok (none, dir, h)
  else if keysepCh ∈ key.1 then .ok (none, dir, h)
  else do
    let found ← archKeyInStringCache p h.nsc key
    match found with
    | some st => .ok (some st, dir, h)
    | none =>
      match searchIndex calls key dir h.search with
      | none => .ok (none, dir, h)
      | some (some st, search) => .ok (some st, dir, { h with search := search })
      | some (none, search) => do
        let nsc ← archAddKeyToStringCache p h.nsc key h.next
        .ok (some h.next, { dir with strings := dir.strings ++ key.1 ++ [keysepCh] },
          { search := search, nsc := nsc, next := h.next + key.1.length + 1 })

/-- What is done with a database that has been created: a key is appended, or the
handle is closed and the database opened again for appending. -/
inductive AppendOp
  | append (key : CString)
  | reopen (loadFactor : ℚ)
  deriving DecidableEq, Repr

/-- The operations one after the other: what the calls of `archAppendKey` return,
the files and the handle. -/
def appendOps (calls : Calls) (p : DataModel) :
    List AppendOp → StridxDir → AppendHandle →
      Except AppendStop (List (Option ℕ) × StridxDir × AppendHandle)
  | [], dir, h => .ok ([], dir, h)
  | .append key :: ops, dir, h => do
    let (start, dir, h) ← archAppendKey calls p key dir h
    let (starts, dir, h) ← appendOps calls p ops dir h
    .ok (start :: starts, dir, h)
  | .reopen loadFactor :: ops, dir, _ => do
    let h ← openAppend p loadFactor dir
    appendOps calls p ops dir h

/-- A run from the creation of the database on. -/
def appendRun (calls : Calls) (p : DataModel) (type : IndexType) (loadFactor : ℚ)
    (ops : List AppendOp) : Except AppendStop (List (Option ℕ) × StridxDir × AppendHandle) :=
  appendOps calls p ops (archCreateStrIdx p type loadFactor).1
    (archCreateStrIdx p type loadFactor).2

/-- The keys that are appended. -/
def appendedKeys : List AppendOp → List CString
  | [] => []
  | .append key :: ops => key :: appendedKeys ops
  | .reopen _ :: ops => appendedKeys ops

/-! ### The entries of a strings file -/

/-- A key that can be appended and read back: it fits the buffer of `get_key`
together with its separator. -/
def ValidKey (key : CString) : Prop :=
  key.1 ≠ [] ∧ key.1.length ≤ keySize - 2 ∧ keysepCh ∉ key.1

instance (key : CString) : Decidable (ValidKey key) := inferInstanceAs (Decidable (_ ∧ _ ∧ _))

/-- The strings with their offsets, as they are in the cache. -/
def entriesFrom : ℕ → List CString → List (CString × ℕ)
  | _, [] => []
  | off, key :: keys => (key, off) :: entriesFrom (off + key.1.length + 1) keys

@[simp] theorem map_fst_entriesFrom (off : ℕ) (keys : List CString) :
    (entriesFrom off keys).map Prod.fst = keys := by
  induction keys generalizing off with
  | nil => rfl
  | cons key keys ih => rw [entriesFrom, List.map_cons, ih]

theorem entriesFrom_append (off : ℕ) (keys more : List CString) :
    entriesFrom off (keys ++ more) =
      entriesFrom off keys ++
        entriesFrom (off + (fileBody (keys.map Subtype.val)).length) more := by
  induction keys generalizing off with
  | nil => rfl
  | cons key keys ih =>
    have hoff : off + key.1.length + 1 + (fileBody (keys.map Subtype.val)).length =
        off + (fileBody ((key :: keys).map Subtype.val)).length := by
      rw [List.map_cons, fileBody_cons, List.length_append, List.length_cons]
      omega
    rw [List.cons_append, entriesFrom, entriesFrom, ih, List.cons_append, hoff]

theorem stored_eq_entriesFrom (off : ℕ) (keys : List CString) :
    stored off (keys.map Subtype.val) = (entriesFrom off keys).map fun e => (e.2, e.1.1) := by
  induction keys generalizing off with
  | nil => rfl
  | cons key keys ih => rw [List.map_cons, stored, entriesFrom, List.map_cons, ih]

/-! ### Reading back what was appended -/

theorem fgets_key {key : CString} (hkey : ValidKey key) (rest : List UInt8) :
    fgets keySize (key.1 ++ keysepCh :: rest) = key.1 ++ [keysepCh] := by
  obtain ⟨-, hlen, hsep⟩ := hkey
  have hne : ∀ c ∈ key.1, (decide (c ≠ keysepCh)) = true := by
    intro c hc
    rw [decide_eq_true_iff]
    rintro rfl
    exact hsep hc
  have hkeySize : keySize = 1024 := rfl
  have hchunk : (key.1 ++ keysepCh :: rest).take (keySize - 1) =
      key.1 ++ keysepCh :: rest.take (keySize - 1 - key.1.length - 1) := by
    rw [List.take_append, List.take_of_length_le (by omega)]
    congr 1
    obtain ⟨n, hn⟩ : ∃ n, keySize - 1 - key.1.length = n + 1 :=
      ⟨keySize - 1 - key.1.length - 1, by omega⟩
    rw [hn, List.take_succ_cons, Nat.add_sub_cancel]
  rw [fgets, hchunk, List.takeWhile_append_of_pos hne, List.dropWhile_append_of_pos hne]
  simp

theorem cstring_of_not_mem {l : List UInt8} (h : 0 ∉ l) : (cstring l).1 = l := by
  refine List.takeWhile_eq_self_iff.mpr fun c hc => ?_
  rw [decide_eq_true_iff]
  rintro rfl
  exact h hc

/-- The key at the front of the file is read whole. -/
theorem getKey_key {key : CString} (hkey : ValidKey key) (rest : List UInt8) :
    getKey keySize (key.1 ++ keysepCh :: rest) = .key key rest := by
  have hline : (cstring (key.1 ++ [keysepCh])).1 = key.1 ++ [keysepCh] := by
    refine cstring_of_not_mem fun h0 => ?_
    rcases List.mem_append.mp h0 with h0 | h0
    · exact key.2 h0
    · exact absurd (List.mem_singleton.mp h0) (by decide)
  have hne : ∀ c ∈ key.1, (decide (c ≠ keysepCh)) = true := by
    intro c hc
    rw [decide_eq_true_iff]
    rintro rfl
    exact hkey.2.2 hc
  have hself : cstring key.1 = key := Subtype.ext (cstring_of_not_mem key.2)
  have htake : (key.1 ++ [keysepCh]).takeWhile (· ≠ keysepCh) = key.1 := by
    rw [List.takeWhile_append_of_pos hne]
    simp
  rw [getKey, if_neg (by simp), fgets_key hkey]
  dsimp only
  rw [hline, if_neg (by simp), if_neg (by simp), htake, hself]
  congr 1
  rw [List.length_append, List.length_singleton, List.drop_append,
    List.drop_eq_nil_of_le (Nat.le_succ _), Nat.add_sub_cancel_left]
  rfl

/-- **Reading the file inserts its strings with their offsets.** -/
theorem initHashTable_fileBody (p : DataModel) {keys : List CString}
    (hkeys : ∀ key ∈ keys, ValidKey key)
    {fuel : ℕ} (hfuel : keys.length < fuel) (off : ℕ) (h : HashTable) :
    initHashTable p fuel (fileBody (keys.map Subtype.val)) off h =
      cacheStep (insertStrings p (entriesFrom off keys) h) := by
  induction keys generalizing fuel off h with
  | nil =>
    obtain ⟨fuel, rfl⟩ := Nat.exists_eq_add_of_lt hfuel
    rfl
  | cons key keys ih =>
    obtain ⟨fuel, rfl⟩ : ∃ n, fuel = n + 1 := ⟨fuel - 1, by omega⟩
    have hkey := hkeys key List.mem_cons_self
    have hrest := fun h => ih (fun key' hkey' => hkeys key' (List.mem_cons_of_mem key hkey'))
      (show keys.length < fuel by rw [List.length_cons] at hfuel; omega) (off + key.1.length + 1) h
    rw [List.map_cons, fileBody_cons, initHashTable, getKey_key hkey, entriesFrom, insertStrings,
      List.foldlM_cons]
    dsimp only
    cases hins : insertHashTable p key off h with
    | error e => rfl
    | ok h' =>
      show initHashTable p fuel _ _ h' = _
      rw [hrest]
      rfl

/-! ### Where a string is -/

/-- A key is at an offset of the text as a whole string, with a separator before
it and one after it. -/
def OccursAt (text key : List UInt8) (off : ℕ) : Prop :=
  ∃ pre post, text = pre ++ keysepCh :: key ++ keysepCh :: post ∧ off = pre.length + 1

/-- Two strings without separator that end at the first separator are equal. -/
theorem eq_of_append_sep {s t rest rest' : List UInt8} (hs : keysepCh ∉ s) (ht : keysepCh ∉ t)
    (h : s ++ keysepCh :: rest = t ++ keysepCh :: rest') : s = t ∧ rest = rest' := by
  induction s generalizing t with
  | nil =>
    cases t with
    | nil => exact ⟨rfl, (List.cons.inj h).2⟩
    | cons c t => exact absurd (List.cons.inj h).1.symm (List.ne_of_not_mem_cons ht).symm
  | cons c s ih =>
    cases t with
    | nil => exact absurd (List.cons.inj h).1 (List.ne_of_not_mem_cons hs).symm
    | cons d t =>
      obtain ⟨rfl, htail⟩ := List.cons.inj h
      obtain ⟨rfl, hrest⟩ :=
        ih (List.not_mem_of_not_mem_cons hs) (List.not_mem_of_not_mem_cons ht) htail
      exact ⟨rfl, hrest⟩

/-- A string of the rest of a file is at its offset. -/
theorem occursAt_of_mem_stored (pre : List UInt8) {ss : List (List UInt8)} {off : ℕ}
    {key : List UInt8} (h : (off, key) ∈ stored (pre.length + 1) ss) :
    OccursAt (pre ++ keysepCh :: fileBody ss) key off := by
  induction ss generalizing pre with
  | nil => exact absurd h List.not_mem_nil
  | cons s ss ih =>
    rw [fileBody_cons]
    rcases List.mem_cons.mp h with heq | h
    · obtain ⟨rfl, rfl⟩ := Prod.mk.inj heq
      exact ⟨pre, fileBody ss, by simp, rfl⟩
    · have hlen : (pre ++ keysepCh :: s).length + 1 = pre.length + 1 + s.length + 1 := by
        rw [List.length_append, List.length_cons]
        omega
      have hrest := ih (pre ++ keysepCh :: s) (hlen ▸ h)
      rwa [List.append_assoc, List.cons_append] at hrest

/-- Only a string of the rest of a file is whole in it. -/
theorem mem_stored_of_occursAt (pre : List UInt8) {ss : List (List UInt8)} {off : ℕ}
    {key : List UInt8} (hss : ∀ s ∈ ss, keysepCh ∉ s) (hkey : keysepCh ∉ key)
    (h : OccursAt (pre ++ keysepCh :: fileBody ss) key off) (hoff : pre.length < off) :
    (off, key) ∈ stored (pre.length + 1) ss := by
  induction ss generalizing pre with
  | nil =>
    obtain ⟨pre', post, heq, rfl⟩ := h
    have hlen := congrArg List.length heq
    simp only [fileBody, List.flatMap_nil, List.length_append, List.length_cons,
      List.length_nil] at hlen
    omega
  | cons s ss ih =>
    rw [fileBody_cons] at h
    obtain ⟨pre', post, heq, rfl⟩ := h
    obtain ⟨more, rfl⟩ : ∃ more, pre' = pre ++ more := by
      have hpre : pre <+: pre' ++ keysepCh :: key ++ keysepCh :: post := ⟨_, heq⟩
      rw [List.append_assoc] at hpre
      obtain ⟨more, hmore⟩ := List.prefix_of_prefix_length_le hpre (List.prefix_append _ _)
        (by omega)
      exact ⟨more, hmore.symm⟩
    simp only [List.append_assoc, List.cons_append, List.append_cancel_left_eq] at heq
    have hs := hss s List.mem_cons_self
    cases more with
    | nil =>
      -- the key starts where the first string starts
      obtain ⟨rfl, -⟩ := eq_of_append_sep hs hkey (List.cons.inj heq).2
      rw [List.append_nil]
      exact List.mem_cons_self
    | cons c more =>
      obtain ⟨rfl, htail⟩ := List.cons.inj heq
      rw [List.append_eq] at htail
      have hlong : s.length ≤ more.length := by
        by_contra hlt
        have hget : (more ++ keysepCh :: (key ++ keysepCh :: post))[more.length]? =
            some keysepCh := by
          rw [List.getElem?_append_right (le_refl _), Nat.sub_self]
          rfl
        rw [← htail, List.getElem?_append_left (by omega)] at hget
        exact hs (List.mem_of_getElem? hget)
      refine List.mem_cons_of_mem _ ?_
      have hrest : OccursAt ((pre ++ keysepCh :: s) ++ keysepCh :: fileBody ss) key
          ((pre ++ keysepCh :: more).length + 1) := by
        refine ⟨pre ++ keysepCh :: more, post, ?_, rfl⟩
        simp only [List.append_assoc, List.cons_append, htail]
      have hmem := ih (pre ++ keysepCh :: s)
        (fun s' hs' => hss s' (List.mem_cons_of_mem s hs')) hrest
        (by simp only [List.length_append, List.length_cons]; omega)
      have hlen : (pre ++ keysepCh :: s).length + 1 = pre.length + 1 + s.length + 1 := by
        rw [List.length_append, List.length_cons]
        omega
      rwa [hlen] at hmem

/-- **The whole strings of a strings file are its strings, at their offsets.** -/
theorem occursAt_stringsFile {ss : List (List UInt8)} {key : List UInt8}
    (hss : ∀ s ∈ ss, keysepCh ∉ s) (hkey : keysepCh ∉ key) (off : ℕ) :
    OccursAt (stringsFile ss) key off ↔ (off, key) ∈ stored 1 ss := by
  constructor
  · intro h
    refine mem_stored_of_occursAt [] hss hkey h ?_
    obtain ⟨pre, post, -, rfl⟩ := h
    exact Nat.succ_pos _
  · exact occursAt_of_mem_stored []

/-- A key has one entry. -/
theorem entriesFrom_unique {off o o' : ℕ} {keys : List CString} {key : CString}
    (hnodup : keys.Nodup) (h : (key, o) ∈ entriesFrom off keys)
    (h' : (key, o') ∈ entriesFrom off keys) : o = o' := by
  have hfst : ((entriesFrom off keys).map Prod.fst).Nodup := by
    rwa [map_fst_entriesFrom]
  exact congrArg Prod.snd (List.inj_on_of_nodup_map hfst h h' rfl)

/-! ### Sessions -/

/-- A result that satisfies `P`; the session ends early only when `full` holds,
because the cache has no room. -/
def Outcome {α : Type} (full : Prop) (P : α → Prop) : Except AppendStop α → Prop
  | .ok a => P a
  | .error e => full ∧ (e = .cache .noPrime ∨ e = .cache .noMemory)

theorem Outcome.bind {α β : Type} {full : Prop} {P : α → Prop} {Q : β → Prop}
    {x : Except AppendStop α} {f : α → Except AppendStop β} (hx : Outcome full P x)
    (hf : ∀ a, P a → Outcome full Q (f a)) : Outcome full Q (x >>= f) := by
  cases x with
  | error e => exact hx
  | ok a => exact hf a hx

theorem Outcome.mono {α : Type} {full full' : Prop} {P Q : α → Prop} {x : Except AppendStop α}
    (hx : Outcome full P x) (hfull : full → full') (h : ∀ a, P a → Q a) : Outcome full' Q x := by
  cases x with
  | error e => exact ⟨hfull hx.1, hx.2⟩
  | ok a => exact h a hx

theorem outcome_cacheStep {full : Prop} {P : HashTable → Prop} {x : Except Stop HashTable}
    (hx : Lands full P x) : Outcome full P (cacheStep x) := by
  cases x with
  | error e =>
    obtain ⟨hne, hfull⟩ := hx
    cases e with
    | noPrime => exact ⟨hfull, Or.inl rfl⟩
    | noMemory => exact ⟨hfull, Or.inr rfl⟩
    | diverges => exact absurd rfl hne
  | ok h => exact hx

section Appended

variable {p : DataModel}

/-- The cache is a hash table with the given strings. -/
def NewStringCache.Holds (p : DataModel) (c : NewStringCache) (items : List (CString × ℕ)) :
    Prop :=
  c.dbm = none ∧ ∃ h, c.htab = some h ∧ h.Holds p items

/-- A new cache is a hash table that holds nothing. -/
theorem openStringCache_holds (p : DataModel) (loadFactor : ℚ) :
    (openStringCache p loadFactor).Holds p [] := by
  have hnew : ∃ h, archNewStringCache p = ⟨some h, none⟩ ∧ h.Holds p [] ∧
      h.szidx = initSzIdx := by
    have hland := createHashTable_lands p initSzIdx (le_refl _)
    cases hcreate : createHashTable p initSzIdx with
    | error e =>
      rw [hcreate] at hland
      cases p <;> exact absurd hland.2 (by decide)
    | ok h =>
      rw [hcreate] at hland
      exact ⟨h, by rw [archNewStringCache, hcreate], hland.1, hland.2.1⟩
  obtain ⟨h, hcache, hholds, hidx⟩ := hnew
  rw [openStringCache, hcache]
  split
  · refine ⟨rfl, (setLoadFactor h loadFactor).getD h, rfl, ?_⟩
    cases hlf : setLoadFactor h loadFactor with
    | none => exact hholds
    | some h' => exact hholds.setLoadFactor hidx hlf
  · exact ⟨rfl, h, rfl, hholds⟩

/-- Looking for a key in the cache. -/
theorem archKeyInStringCache_spec {c : NewStringCache} {keys : List CString}
    (hc : c.Holds p (entriesFrom 1 keys)) (key : CString) :
    (key ∈ keys ∧ ∃ off, (key, off) ∈ entriesFrom 1 keys ∧
      archKeyInStringCache p c key = .ok (some off)) ∨
    (key ∉ keys ∧ archKeyInStringCache p c key = .ok none) := by
  obtain ⟨-, h, hhtab, hholds⟩ := hc
  obtain ⟨⟨off, found⟩, hsearch, hfound, hnot⟩ := hholds.searchHashTable key
  rw [archKeyInStringCache, hhtab]
  dsimp only
  rw [hsearch]
  dsimp only
  rw [map_fst_entriesFrom] at hnot
  by_cases hmem : key ∈ keys
  · have hentry : key ∈ (entriesFrom 1 keys).map Prod.fst := by
      rwa [map_fst_entriesFrom]
    obtain ⟨⟨key', off'⟩, hin, rfl⟩ := List.mem_map.mp hentry
    obtain ⟨rfl, rfl⟩ := Prod.mk.inj (hfound off' hin)
    exact Or.inl ⟨hmem, off, hin, rfl⟩
  · have hfalse : found = false := hnot hmem
    rw [hfalse]
    exact Or.inr ⟨hmem, rfl⟩

/-- What holds between two operations: the file is that of the keys appended so
far, and the cache knows them all. -/
structure Appended (p : DataModel) (keys : List CString) (dir : StridxDir) (h : AppendHandle) :
    Prop where
  strings : dir.strings = stringsFile (keys.map Subtype.val)
  split : dir.split = 1
  index : dir.index = none
  searchSplit : h.search.split = 1
  cf : h.search.cf = none
  next : h.next = dir.strings.length
  nsc : h.nsc.Holds p (entriesFrom 1 keys)
  nodup : keys.Nodup
  valid : ∀ key ∈ keys, ValidKey key

theorem archCreateStrIdx_appended (p : DataModel) (type : IndexType) (loadFactor : ℚ) :
    Appended p [] (archCreateStrIdx p type loadFactor).1
      (archCreateStrIdx p type loadFactor).2 where
  strings := rfl
  split := rfl
  index := rfl
  searchSplit := rfl
  cf := rfl
  next := rfl
  nsc := openStringCache_holds p loadFactor
  nodup := List.nodup_nil
  valid := fun _ hkey => absurd hkey List.not_mem_nil

/-- The distinct keys with one more. -/
def addKey (keys : List CString) (key : CString) : List CString :=
  if key ∈ keys then keys else keys ++ [key]

/-- The offset of the next string. -/
theorem entriesFrom_addKey {keys : List CString} {key : CString} (hkey : key ∉ keys) :
    entriesFrom 1 (addKey keys key) =
      entriesFrom 1 keys ++ [(key, (stringsFile (keys.map Subtype.val)).length)] := by
  rw [addKey, if_neg hkey, entriesFrom_append, stringsFile, List.length_cons, Nat.add_comm 1]
  rfl

/-- **One call of `archAppendKey`.** -/
theorem archAppendKey_spec (calls : Calls) {keys : List CString} {dir : StridxDir}
    {h : AppendHandle} (hinv : Appended p keys dir h) {key : CString} (hkey : ValidKey key) :
    Outcome (Exceeds p (entriesFrom 1 (addKey keys key)))
      (fun r => Appended p (addKey keys key) r.2.1 r.2.2 ∧
        ∃ off, r.1 = some off ∧ (key, off) ∈ entriesFrom 1 (addKey keys key))
      (archAppendKey calls p key dir h) := by
  rw [archAppendKey, if_neg hkey.1, if_neg hkey.2.2]
  rcases archKeyInStringCache_spec hinv.nsc key with ⟨hmem, off, hoff, hcache⟩ | ⟨hmem, hcache⟩
  · rw [hcache, addKey, if_pos hmem]
    exact ⟨hinv, off, rfl, hoff⟩
  · have hindex : searchIndex calls key dir h.search = some (none, h.search) := by
      rw [searchIndex, hinv.cf]
    obtain ⟨hdbm, t, hhtab, hholds⟩ := hinv.nsc
    rw [hcache]
    show Outcome _ _ (match searchIndex calls key dir h.search with
      | none => _
      | some (some st, search) => _
      | some (none, search) => _)
    rw [hindex]
    dsimp only
    have hnew : key ∉ (entriesFrom 1 keys).map Prod.fst := by
      rwa [map_fst_entriesFrom]
    have hentries := entriesFrom_addKey hmem
    rw [← hinv.strings, ← hinv.next] at hentries
    have hperm : ((key, h.next) :: entriesFrom 1 keys).Perm (entriesFrom 1 (addKey keys key)) := by
      rw [hentries]
      exact (List.perm_append_singleton _ _).symm
    have hadd : Outcome (Exceeds p (entriesFrom 1 (addKey keys key)))
        (fun c => c.Holds p (entriesFrom 1 (addKey keys key)))
        (archAddKeyToStringCache p h.nsc key h.next) := by
      rw [archAddKeyToStringCache, hhtab]
      refine Outcome.bind (outcome_cacheStep ((insertHashTable_lands hholds hnew h.next).mono
        (fun hfull => hfull.of_perm_append [] hperm) fun t' ht' => ht')) ?_
      intro t' ht'
      exact ⟨hdbm, t', rfl, ht'.of_perm hperm⟩
    refine Outcome.bind hadd ?_
    intro c hc
    refine ⟨⟨?_, hinv.split, hinv.index, hinv.searchSplit, hinv.cf, ?_, hc, ?_, ?_⟩, h.next, rfl,
      ?_⟩
    · rw [addKey, if_neg hmem, List.map_append, stringsFile, fileBody_append, ← List.cons_append,
        ← stringsFile, ← hinv.strings, List.append_assoc]
      simp [fileBody]
    · simp only [hinv.next, List.length_append, List.length_singleton]
    · rw [addKey, if_neg hmem]
      exact List.nodup_append.mpr ⟨hinv.nodup, List.nodup_singleton key, by
        intro a ha b hb
        rw [List.mem_singleton.mp hb]
        rintro rfl
        exact hmem ha⟩
    · intro key' hkey'
      rw [addKey, if_neg hmem] at hkey'
      rcases List.mem_append.mp hkey' with hkey' | hkey'
      · exact hinv.valid key' hkey'
      · rwa [List.mem_singleton.mp hkey']
    · rw [hentries]
      exact List.mem_append_right _ List.mem_cons_self

/-- **Closing and opening again.** -/
theorem openAppend_spec {keys : List CString} {dir : StridxDir} {h : AppendHandle}
    (hinv : Appended p keys dir h) (loadFactor : ℚ) :
    Outcome (Exceeds p (entriesFrom 1 keys)) (fun h' => Appended p keys dir h')
      (openAppend p loadFactor dir) := by
  obtain ⟨hdbm, t, hhtab, hholds⟩ := openStringCache_holds p loadFactor
  have htext : dir.strings.drop dir.split = fileBody (keys.map Subtype.val) := by
    rw [hinv.strings, hinv.split]
    rfl
  have hfuel : keys.length < (fileBody (keys.map Subtype.val)).length + 1 := by
    refine Nat.lt_succ_of_le ?_
    rw [fileBody, List.length_flatMap]
    refine le_trans (le_of_eq ?_) (List.length_le_sum_of_one_le _ ?_)
    · simp
    · intro n hn
      obtain ⟨s, -, rfl⟩ := List.mem_map.mp hn
      simp
  have hlands := insertStrings_lands (entriesFrom 1 keys) hholds (by
    rw [List.append_nil, map_fst_entriesFrom]
    exact hinv.nodup)
  rw [List.append_nil] at hlands
  have hinit : Outcome (Exceeds p (entriesFrom 1 keys)) (fun c => c.Holds p (entriesFrom 1 keys))
      (archInitStringCache p (openStringCache p loadFactor) dir.strings dir.split) := by
    rw [archInitStringCache, hhtab, htext, hinv.split]
    dsimp only
    rw [initHashTable_fileBody p hinv.valid hfuel]
    refine Outcome.bind (outcome_cacheStep hlands) ?_
    intro t' ht'
    -- the file has been read to its end, so the missing DBM file is not used
    rw [hdbm]
    exact ⟨rfl, t', rfl, ht'⟩
  rw [openAppend]
  refine Outcome.bind hinit ?_
  intro c hc
  exact
    { hinv with
      searchSplit := hinv.split
      cf := by
        show Option.map _ dir.index = none
        rw [hinv.index]
        rfl
      next := rfl
      nsc := hc }

theorem eraseDups_append_singleton (done : List CString) (key : CString) :
    (done ++ [key]).eraseDups = addKey done.eraseDups key := by
  rw [List.eraseDups_append, addKey]
  by_cases hmem : key ∈ done
  · simp [List.removeAll, hmem]
  · simp [List.removeAll, hmem, List.eraseDups_cons]

/-- The entries of the keys so far stay when more keys follow. -/
theorem exists_entriesFrom_append (done more : List CString) :
    ∃ new, entriesFrom 1 (done ++ more).eraseDups = entriesFrom 1 done.eraseDups ++ new := by
  rw [List.eraseDups_append, entriesFrom_append]
  exact ⟨_, rfl⟩

theorem Exceeds.append {done more : List CString} (h : Exceeds p (entriesFrom 1 done.eraseDups)) :
    Exceeds p (entriesFrom 1 (done ++ more).eraseDups) := by
  obtain ⟨new, hnew⟩ := exists_entriesFrom_append done more
  rw [hnew]
  exact h.of_perm_append new List.perm_append_comm

/-- **Any operations, from a state between two of them.** -/
theorem appendOps_spec (calls : Calls) {done : List CString} {ops : List AppendOp}
    {dir : StridxDir} {h : AppendHandle} (hinv : Appended p done.eraseDups dir h)
    (hops : ∀ key ∈ appendedKeys ops, ValidKey key) :
    Outcome (Exceeds p (entriesFrom 1 (done ++ appendedKeys ops).eraseDups))
      (fun r => Appended p (done ++ appendedKeys ops).eraseDups r.2.1 r.2.2 ∧
        List.Forall₂ (fun key start => ∃ off, start = some off ∧
          (key, off) ∈ entriesFrom 1 (done ++ appendedKeys ops).eraseDups) (appendedKeys ops) r.1)
      (appendOps calls p ops dir h) := by
  induction ops generalizing done dir h with
  | nil =>
    rw [appendedKeys, List.append_nil]
    exact ⟨hinv, List.Forall₂.nil⟩
  | cons op ops ih =>
    cases op with
    | append key =>
      rw [appendedKeys] at hops ⊢
      have hmove : done ++ key :: appendedKeys ops = (done ++ [key]) ++ appendedKeys ops := by
        rw [List.append_assoc, List.singleton_append]
      rw [hmove, appendOps]
      have hcall := archAppendKey_spec calls hinv (hops key List.mem_cons_self)
      rw [← eraseDups_append_singleton] at hcall
      refine Outcome.bind (hcall.mono Exceeds.append fun r hr => hr) ?_
      rintro ⟨start, dir', h'⟩ ⟨hinv', off, hstart, hoff⟩
      refine Outcome.bind (ih hinv' fun key' hkey' => hops key' (List.mem_cons_of_mem key hkey')) ?_
      rintro ⟨starts, dir'', h''⟩ ⟨hinv'', hstarts⟩
      refine ⟨hinv'', List.Forall₂.cons ⟨off, hstart, ?_⟩ hstarts⟩
      obtain ⟨new, hnew⟩ := exists_entriesFrom_append (done ++ [key]) (appendedKeys ops)
      rw [hnew]
      exact List.mem_append_left _ hoff
    | reopen loadFactor =>
      rw [appendedKeys] at hops ⊢
      rw [appendOps]
      exact Outcome.bind ((openAppend_spec hinv loadFactor).mono Exceeds.append fun h' hh' => hh')
        fun h' hh' => ih hh' hops

end Appended

/-- **The append protocol.**  After any calls and any number of sessions the
strings file holds the distinct keys in the order of their first append, the
split is 1, the next offset is the size of the file, and each call has returned
the offset of the only occurrence of its key.  A session ends early only when
the strings are more than the largest cache can hold. -/
theorem appendRun_spec (calls : Calls) (type : IndexType) (loadFactor : ℚ) (ops : List AppendOp)
    (hops : ∀ key ∈ appendedKeys ops, ValidKey key) :
    (∀ starts dir h, appendRun calls .ilp32 type loadFactor ops = .ok (starts, dir, h) →
      (appendedKeys ops).eraseDups.Nodup ∧
      dir.strings = stringsFile ((appendedKeys ops).eraseDups.map Subtype.val) ∧
      dir.split = 1 ∧ h.search.split = 1 ∧ h.next = dir.strings.length ∧
      List.Forall₂ (fun key start => ∃ off, start = some off ∧
        ∀ off', OccursAt dir.strings key.1 off' ↔ off' = off) (appendedKeys ops) starts) ∧
    (∀ e, appendRun calls .ilp32 type loadFactor ops = .error e →
      (e = .cache .noPrime ∨ e = .cache .noMemory) ∧
      Exceeds .ilp32 (entriesFrom 1 (appendedKeys ops).eraseDups)) := by
  have hrun := @appendOps_spec _ calls [] _ _ _
    (archCreateStrIdx_appended .ilp32 type loadFactor) hops
  rw [List.nil_append] at hrun
  constructor
  · intro starts dir h heq
    rw [appendRun] at heq
    rw [heq] at hrun
    obtain ⟨hinv, hstarts⟩ := hrun
    refine ⟨hinv.nodup, hinv.strings, hinv.split, hinv.searchSplit, hinv.next, ?_⟩
    refine hstarts.imp fun key start hstart => ?_
    obtain ⟨off, rfl, hoff⟩ := hstart
    refine ⟨off, rfl, fun off' => ?_⟩
    have hsep : ∀ s ∈ (appendedKeys ops).eraseDups.map Subtype.val, keysepCh ∉ s := by
      intro s hs
      obtain ⟨key', hkey', rfl⟩ := List.mem_map.mp hs
      exact (hinv.valid key' hkey').2.2
    have hkey : key ∈ (appendedKeys ops).eraseDups := by
      have hfst := List.mem_map_of_mem (f := Prod.fst) hoff
      rwa [map_fst_entriesFrom] at hfst
    rw [hinv.strings, occursAt_stringsFile hsep (hinv.valid key hkey).2.2, stored_eq_entriesFrom,
      List.mem_map]
    constructor
    · rintro ⟨⟨key', o⟩, hmem, heq'⟩
      obtain ⟨rfl, hval⟩ := Prod.mk.inj heq'
      obtain rfl : key' = key := Subtype.ext hval
      exact entriesFrom_unique hinv.nodup hmem hoff
    · rintro rfl
      exact ⟨(key, off'), hoff, rfl⟩
  · intro e heq
    rw [appendRun] at heq
    rw [heq] at hrun
    exact ⟨hrun.2, hrun.1⟩

theorem zero_notMem_lsLR : (0 : UInt8) ∉ ([108, 115, 45, 108, 82] : List UInt8) := by decide

theorem zero_notMem_readme : (0 : UInt8) ∉ ([82, 69, 65, 68, 77, 69] : List UInt8) := by decide

/-- Two file names, the first of them again after the database has been closed
and opened. -/
def sampleAppends : List AppendOp :=
  [.append ⟨[108, 115, 45, 108, 82], zero_notMem_lsLR⟩,
    .append ⟨[82, 69, 65, 68, 77, 69], zero_notMem_readme⟩,
    .reopen (1 / 2), .append ⟨[108, 115, 45, 108, 82], zero_notMem_lsLR⟩]

theorem appendRun_sampleAppends :
    (∀ starts dir h, appendRun ⟨fun _ _ _ _ => [], fun _ _ _ _ => none, 1⟩ .ilp32 .chars 0
        sampleAppends = .ok (starts, dir, h) →
      (appendedKeys sampleAppends).eraseDups.Nodup ∧
      dir.strings = stringsFile ((appendedKeys sampleAppends).eraseDups.map Subtype.val) ∧
      dir.split = 1 ∧ h.search.split = 1 ∧ h.next = dir.strings.length ∧
      List.Forall₂ (fun key start => ∃ off, start = some off ∧
        ∀ off', OccursAt dir.strings key.1 off' ↔ off' = off) (appendedKeys sampleAppends) starts) ∧
    (∀ e, appendRun ⟨fun _ _ _ _ => [], fun _ _ _ _ => none, 1⟩ .ilp32 .chars 0
        sampleAppends = .error e →
      (e = .cache .noPrime ∨ e = .cache .noMemory) ∧
      Exceeds .ilp32 (entriesFrom 1 (appendedKeys sampleAppends).eraseDups)) :=
  appendRun_spec _ .chars 0 sampleAppends (by decide)

end Archie
