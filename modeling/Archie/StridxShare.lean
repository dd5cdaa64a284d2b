/-
One strings database in several processes (`archstridx/api.c`: `archAppendKey`,
`open_build`, `archBuildStrIdx`, `open_search`, `load_unindexed_text`).

Appenders write whole strings into their buffers, which may be flushed to the
strings file at any byte.  A builder takes the size of the file as the split,
builds an index of the text that it then reads, and installs the index and the
split under the exclusive lock.  Searchers open the index and read the split
under the shared lock, and then load the text after the split.

* `step_inv` — what one step of any process preserves.
* `Sys.Inv.sound` — the split lies between two strings, so that no string is cut.
* `run_sound` — any run in which no builder meets a half-flushed string or text
  that is newer than its split.
* `halfFlushed_cut` — a run in which a builder does.
-/
import Mathlib.Data.Finset.Basic
import Archie.Stridx

namespace Archie

/-- A byte of the strings file, with the appender that wrote it and the number of
its string; the first key separator has no appender. -/
structure FileByte where
  char : UInt8
  appender : Option ℕ
  string : ℕ
  deriving DecidableEq, Repr

/-- The bytes of a string: its key and a key separator. -/
def stringBytes (a k : ℕ) (key : List UInt8) : List FileByte :=
  (key ++ [keysepCh]).map fun c => ⟨c, some a, k⟩

/-- The bytes of the strings of an appender, from the `k`-th on. -/
def streamFrom (a : ℕ) : ℕ → List (List UInt8) → List FileByte
  | _, [] => []
  | k, key :: keys => stringBytes a k key ++ streamFrom a (k + 1) keys

/-- How far a builder has come; `split` is `h->split`. -/
inductive Builder
  | closed
  | opened (split : ℕ)
  | built (split : ℕ)
  | locked (split : ℕ)
  | renamed (split : ℕ)
  | wrote (split : ℕ)
  deriving DecidableEq, Repr

/-- The builder has the exclusive lock. -/
def Builder.Exclusive : Builder → Prop
  | locked _ | renamed _ | wrote _ => True
  | _ => False

instance (b : Builder) : Decidable b.Exclusive := by
  cases b <;> unfold Builder.Exclusive <;> infer_instance

/-- How far a searcher has come: the size of the strings file when it began, the
index it opened (the size of the text that is indexed), the split it read, and
the unindexed text with the separator before it. -/
inductive Searcher
  | closed
  | opened (start : ℕ)
  | locked (start : ℕ)
  | indexed (start : ℕ) (idx : Option ℕ)
  | read (start : ℕ) (idx : Option ℕ) (split : ℕ)
  | unlocked (start : ℕ) (idx : Option ℕ) (split : ℕ)
  | loaded (start : ℕ) (idx : Option ℕ) (split : ℕ) (uiText : Option (List FileByte))
  deriving DecidableEq, Repr

/-- The searcher has the shared lock. -/
def Searcher.Shared : Searcher → Prop
  | locked _ | indexed _ _ | read _ _ _ => True
  | _ => False

/-- The files of the database, and the processes: the keys that each appender has
written and its buffer, the builder, the searchers that have the shared lock, and
all searchers.  An index is the size of the text that it was built from. -/
structure Sys where
  file : List FileByte
  split : ℕ
  index : Option ℕ
  newIndex : Option ℕ
  keys : ℕ → List (List UInt8)
  buffer : ℕ → List FileByte
  builder : Builder
  shared : Finset ℕ
  searcher : ℕ → Searcher

/-- A database that has been created. -/
def Sys.init : Sys where
  file := [⟨keysepCh, none, 0⟩]
  split := 1
  index := none
  newIndex := none
  keys := fun _ => []
  buffer := fun _ => []
  builder := .closed
  shared := ∅
  searcher := fun _ => .closed

/-- The steps of the processes. -/
inductive Action
  | write (a : ℕ) (key : List UInt8)
  | flush (a n : ℕ)
  | openBuild
  | buildIndex
  | lockExclusive
  | renameIndex
  | writeSplit
  | unlockExclusive
  | closeBuild
  | openStrings (i : ℕ)
  | lockShared (i : ℕ)
  | openIndex (i : ℕ)
  | readSplit (i : ℕ)
  | unlockShared (i : ℕ)
  | loadText (i : ℕ)
  | closeSearch (i : ℕ)
  deriving DecidableEq, Repr

/-- `load_unindexed_text`. -/
def loadUnindexedText (file : List FileByte) (split : ℕ) : Option (List FileByte) :=
  if file.length = split then none else some (file.drop (split - 1))

/-- The steps of a builder. -/
def buildStep (s : Sys) : Action → Option Sys
  | .openBuild =>
    match s.builder with
    | .closed => some { s with builder := .opened s.file.length, newIndex := some 0 }
    | _ => none
  | .buildIndex =>
    -- the text is read to its end, not to the split
    match s.builder with
    | .opened split => some { s with builder := .built split, newIndex := some s.file.length }
    | _ => none
  | .lockExclusive =>
    match s.builder with
    | .built split => if s.shared = ∅ then some { s with builder := .locked split } else none
    | _ => none
  | .renameIndex =>
    match s.builder with
    | .locked split =>
      some { s with builder := .renamed split, index := s.newIndex, newIndex := none }
    | _ => none
  | .writeSplit =>
    match s.builder with
    | .renamed split => some { s with builder := .wrote split, split := split }
    | _ => none
  | .unlockExclusive =>
    match s.builder with
    | .wrote _ => some { s with builder := .closed }
    | _ => none
  | .closeBuild =>
    match s.builder with
    | .opened _ => some { s with builder := .closed }
    | _ => none
  | _ => none

/-- The steps of a searcher. -/
def searchStep (s : Sys) : Action → Option Sys
  | .openStrings i =>
    match s.searcher i with
    | .closed => some { s with searcher := Function.update s.searcher i (.opened s.file.length) }
    | _ => none
  | .lockShared i =>
    match s.searcher i with
    | .opened start =>
      if s.builder.Exclusive then none
      else
        some { s with
          shared := insert i s.shared
          searcher := Function.update s.searcher i (.locked start) }
    | _ => none
  | .openIndex i =>
    match s.searcher i with
    | .locked start =>
      some { s with searcher := Function.update s.searcher i (.indexed start s.index) }
    | _ => none
  | .readSplit i =>
    match s.searcher i with
    | .indexed start idx =>
      some { s with searcher := Function.update s.searcher i (.read start idx s.split) }
    | _ => none
  | .unlockShared i =>
    match s.searcher i with
    | .read start idx split =>
      some { s with
        shared := s.shared.erase i
        searcher := Function.update s.searcher i (.unlocked start idx split) }
    | _ => none
  | .loadText i =>
    match s.searcher i with
    | .unlocked start idx split =>
      some { s with
        searcher := Function.update s.searcher i
          (.loaded start idx split (loadUnindexedText s.file split)) }
    | _ => none
  | .closeSearch i =>
    match s.searcher i with
    | .loaded _ _ _ _ => some { s with searcher := Function.update s.searcher i .closed }
    | _ => none
  | _ => none

/-- The steps of an appender: `archAppendKey` writes a key that it has not found,
and a buffer is flushed, whole or in part. -/
def appendStep (s : Sys) : Action → Option Sys
  | .write a key =>
    if key = [] ∨ keysepCh ∈ key then none
    else
      some { s with
        keys := Function.update s.keys a (s.keys a ++ [key])
        buffer := Function.update s.buffer a
          (s.buffer a ++ stringBytes a (s.keys a).length key) }
  | .flush a n =>
    some { s with
      file := s.file ++ (s.buffer a).take n
      buffer := Function.update s.buffer a ((s.buffer a).drop n) }
  | _ => none

/-- One step of one process. -/
def step (s : Sys) (act : Action) : Option Sys :=
  match act with
  | .write _ _ | .flush _ _ => appendStep s act
  | .openBuild | .buildIndex | .lockExclusive | .renameIndex | .writeSplit | .unlockExclusive
  | .closeBuild => buildStep s act
  | _ => searchStep s act

/-- The steps one after the other. -/
def run (s : Sys) (acts : List Action) : Option Sys := acts.foldlM step s

/-! ### What a searcher should find -/

/-- The bytes of a string in a piece of the file. -/
def bytesOf (a k : ℕ) (l : List FileByte) : List FileByte :=
  l.filter fun b => b.appender = some a ∧ b.string = k

/-- The index and the split of a searcher, once it has read the split. -/
def Searcher.splitRead : Searcher → Option (Option ℕ × ℕ)
  | read _ idx split | unlocked _ idx split | loaded _ idx split _ => some (idx, split)
  | _ => none

/-- The split belongs to the index: it is the size of the text that is indexed,
or 1 if there is no index. -/
def IsSplitOf (idx : Option ℕ) (split : ℕ) : Prop := split = idx.getD 1

/-- What every searcher is entitled to: the split that it has read follows a key
separator and is the split of the index it opened, and a string that was in the
file when it began is all in the indexed prefix or all in the unindexed text. -/
structure Sys.Sound (s : Sys) : Prop where
  splitRead : ∀ i idx split, (s.searcher i).splitRead = some (idx, split) →
    0 < split ∧ (s.file[split - 1]?).map FileByte.char = some keysepCh ∧ IsSplitOf idx split
  whole : ∀ i start idx split uiText, s.searcher i = .loaded start idx split uiText →
    ∀ a k key, (s.keys a)[k]? = some key →
      bytesOf a k (s.file.take start) = stringBytes a k key →
      bytesOf a k (s.file.take split) = stringBytes a k key ∨
      bytesOf a k ((uiText.getD []).drop 1) = stringBytes a k key

/-- The bytes that an appender wrote. -/
def bytesBy (a : ℕ) (l : List FileByte) : List FileByte := l.filter fun b => b.appender = some a

/-- No string is cut at the end of this piece of the file. -/
def WholeStrings (s : Sys) (l : List FileByte) : Prop :=
  ∀ a, ∃ m ≤ (s.keys a).length, bytesBy a l = streamFrom a 0 ((s.keys a).take m)

/-- The condition on a step: a builder is opened when no appender has flushed part
of a string only, and it reads the text while that still ends at the split. -/
def Quiet (s : Sys) : Action → Prop
  | .openBuild => WholeStrings s s.file
  | .buildIndex => ∀ split, s.builder = .opened split → s.file.length = split
  | _ => True

/-- All steps of a run meet the condition. -/
def QuietRun : Sys → List Action → Prop
  | _, [] => True
  | s, act :: acts => Quiet s act ∧ ∀ s', step s act = some s' → QuietRun s' acts

/-! ### Strings in pieces of the file -/

theorem bytesOf_stringBytes (a k : ℕ) (key : List UInt8) :
    bytesOf a k (stringBytes a k key) = stringBytes a k key := by
  refine List.filter_eq_self.mpr fun b hb => ?_
  obtain ⟨c, -, rfl⟩ := List.mem_map.mp hb
  simp

theorem stringBytes_ne_nil (a k : ℕ) (key : List UInt8) : stringBytes a k key ≠ [] := by
  simp [stringBytes]

/-- Strings from the `j`-th on have no bytes of an earlier one. -/
theorem bytesOf_streamFrom_of_lt {a k j : ℕ} (h : k < j) (keys : List (List UInt8)) :
    bytesOf a k (streamFrom a j keys) = [] := by
  induction keys generalizing j with
  | nil => rfl
  | cons key keys ih =>
    rw [streamFrom, bytesOf, List.filter_append, ← bytesOf, ← bytesOf, ih (by omega),
      List.append_nil]
    refine List.filter_eq_nil_iff.mpr fun b hb => ?_
    obtain ⟨c, -, rfl⟩ := List.mem_map.mp hb
    simp
    omega

/-- The bytes of one string in the strings of its appender. -/
theorem bytesOf_streamFrom {a : ℕ} (i j : ℕ) (keys : List (List UInt8)) :
    bytesOf a (j + i) (streamFrom a j keys) =
      match keys[i]? with
      | none => []
      | some key => stringBytes a (j + i) key := by
  induction keys generalizing i j with
  | nil => rfl
  | cons key keys ih =>
    rw [streamFrom, bytesOf, List.filter_append, ← bytesOf, ← bytesOf]
    cases i with
    | zero => rw [Nat.add_zero, bytesOf_stringBytes, bytesOf_streamFrom_of_lt (Nat.lt_succ_self j),
        List.append_nil, List.getElem?_cons_zero]
    | succ i =>
      have hnil : bytesOf a (j + (i + 1)) (stringBytes a j key) = [] := by
        refine List.filter_eq_nil_iff.mpr fun b hb => ?_
        obtain ⟨c, -, rfl⟩ := List.mem_map.mp hb
        simp
      have hi : j + (i + 1) = j + 1 + i := by omega
      rw [hnil, List.nil_append, List.getElem?_cons_succ, hi]
      exact ih i (j + 1)

theorem bytesOf_bytesBy (a k : ℕ) (l : List FileByte) :
    bytesOf a k (bytesBy a l) = bytesOf a k l := by
  rw [bytesOf, bytesBy, List.filter_filter, bytesOf]
  refine List.filter_congr fun b _ => ?_
  by_cases hb : b.appender = some a <;> simp [hb]

theorem bytesOf_append (a k : ℕ) (l l' : List FileByte) :
    bytesOf a k (l ++ l') = bytesOf a k l ++ bytesOf a k l' := List.filter_append _ _

theorem bytesBy_append (a : ℕ) (l l' : List FileByte) :
    bytesBy a (l ++ l') = bytesBy a l ++ bytesBy a l' := List.filter_append _ _

theorem streamFrom_append (a j : ℕ) (keys more : List (List UInt8)) :
    streamFrom a j (keys ++ more) = streamFrom a j keys ++ streamFrom a (j + keys.length) more := by
  induction keys generalizing j with
  | nil => rfl
  | cons key keys ih =>
    rw [List.cons_append, streamFrom, streamFrom, ih, List.append_assoc, List.length_cons,
      Nat.add_assoc, Nat.add_comm 1]

/-- The last byte of some strings is a key separator. -/
theorem streamFrom_last {a j : ℕ} {keys : List (List UInt8)} {l : List FileByte} {b : FileByte}
    (h : streamFrom a j keys = l ++ [b]) : b.char = keysepCh := by
  induction keys generalizing j l with
  | nil => exact absurd h (by simp [streamFrom])
  | cons key keys ih =>
    rw [streamFrom] at h
    cases hrest : streamFrom a (j + 1) keys with
    | nil =>
      rw [hrest, List.append_nil, stringBytes, List.map_append] at h
      have hlast := (List.append_inj' h rfl).2
      rw [List.map_singleton] at hlast
      rw [← List.singleton_inj.mp hlast]
    | cons c rest =>
      -- the last byte is that of the strings after the first
      obtain ⟨rest', c', hsplit⟩ := List.eq_nil_or_concat (c :: rest) |>.resolve_left
        (List.cons_ne_nil c rest)
      rw [List.concat_eq_append] at hsplit
      rw [hrest, hsplit, ← List.append_assoc] at h
      obtain rfl := List.singleton_inj.mp (List.append_inj' h rfl).2
      exact ih (hrest.trans hsplit)

/-! ### What holds in every state -/

/-- Between two strings of the file. -/
def CleanAt (s : Sys) (n : ℕ) : Prop :=
  0 < n ∧ n ≤ s.file.length ∧ WholeStrings s (s.file.take n)

/-- What a builder knows. -/
def BuilderOk (s : Sys) : Builder → Prop
  | .closed | .wrote _ => True
  | .opened n => CleanAt s n
  | .built n | .locked n => CleanAt s n ∧ s.newIndex = some n
  | .renamed n => CleanAt s n ∧ s.index = some n

/-- What a searcher knows. -/
def SearcherOk (s : Sys) : Searcher → Prop
  | .closed => True
  | .opened start | .locked start => start ≤ s.file.length
  | .indexed start idx => start ≤ s.file.length ∧ idx = s.index
  | .read start idx split | .unlocked start idx split =>
    start ≤ s.file.length ∧ CleanAt s split ∧ IsSplitOf idx split
  | .loaded start idx split uiText =>
    CleanAt s split ∧ IsSplitOf idx split ∧
    ∃ len ≤ s.file.length, start ≤ len ∧ split ≤ len ∧
      uiText = loadUnindexedText (s.file.take len) split

/-- The builder has replaced the index and not yet the split. -/
def Builder.Renamed : Builder → Prop
  | renamed _ => True
  | _ => False

/-- **The invariant.** -/
structure Sys.Inv (s : Sys) : Prop where
  fifo : ∀ a, bytesBy a s.file ++ s.buffer a = streamFrom a 0 (s.keys a)
  created : ∀ b ∈ s.file, b.appender = none → b.char = keysepCh
  split : CleanAt s s.split
  index : ¬ s.builder.Renamed → IsSplitOf s.index s.split
  builder : BuilderOk s s.builder
  shared : ∀ i, (s.searcher i).Shared → i ∈ s.shared
  exclusive : s.builder.Exclusive → s.shared = ∅
  searcher : ∀ i, SearcherOk s (s.searcher i)

theorem init_inv : Sys.init.Inv where
  fifo := fun a => by simp [Sys.init, bytesBy, streamFrom]
  created := by simp [Sys.init]
  split := ⟨Nat.one_pos, le_refl _,
    fun a => ⟨0, Nat.zero_le _, by simp [Sys.init, bytesBy, streamFrom]⟩⟩
  index := fun _ => rfl
  builder := trivial
  shared := fun i hi => absurd hi (by simp [Sys.init, Searcher.Shared])
  exclusive := fun _ => rfl
  searcher := fun i => trivial

/-- A state with more in the file and more keys. -/
def Extends (s s' : Sys) : Prop := s.file <+: s'.file ∧ ∀ a, s.keys a <+: s'.keys a

theorem Extends.take {s s' : Sys} (h : Extends s s') {n : ℕ} (hn : n ≤ s.file.length) :
    s'.file.take n = s.file.take n := by
  obtain ⟨more, hmore⟩ := h.1
  rw [← hmore, List.take_append_of_le_length hn]

theorem CleanAt.mono {s s' : Sys} (h : Extends s s') {n : ℕ} (hn : CleanAt s n) : CleanAt s' n := by
  obtain ⟨hpos, hle, hwhole⟩ := hn
  refine ⟨hpos, le_trans hle h.1.length_le, fun a => ?_⟩
  obtain ⟨m, hm, heq⟩ := hwhole a
  obtain ⟨more, hmore⟩ := h.2 a
  refine ⟨m, le_trans hm (h.2 a).length_le, ?_⟩
  rw [h.take hle, heq, ← hmore, List.take_append_of_le_length hm]

theorem SearcherOk.mono {s s' : Sys} (h : Extends s s') (hindex : s'.index = s.index)
    {x : Searcher} (hx : SearcherOk s x) : SearcherOk s' x := by
  have hlen := h.1.length_le
  cases x with
  | closed => trivial
  | opened start => exact le_trans hx hlen
  | locked start => exact le_trans hx hlen
  | indexed start idx => exact ⟨le_trans hx.1 hlen, hx.2.trans hindex.symm⟩
  | read start idx split => exact ⟨le_trans hx.1 hlen, hx.2.1.mono h, hx.2.2⟩
  | unlocked start idx split => exact ⟨le_trans hx.1 hlen, hx.2.1.mono h, hx.2.2⟩
  | loaded start idx split uiText =>
    obtain ⟨hclean, hsplit, len, hle, hstart, hlow, htext⟩ := hx
    refine ⟨hclean.mono h, hsplit, len, le_trans hle hlen, hstart, hlow, ?_⟩
    rw [htext, h.take hle]

theorem BuilderOk.mono {s s' : Sys} (h : Extends s s') (hindex : s'.index = s.index)
    (hnew : s'.newIndex = s.newIndex) {b : Builder} (hb : BuilderOk s b) : BuilderOk s' b := by
  cases b with
  | closed => trivial
  | wrote n => trivial
  | opened n => exact CleanAt.mono h hb
  | built n => exact ⟨hb.1.mono h, hnew.trans hb.2⟩
  | locked n => exact ⟨hb.1.mono h, hnew.trans hb.2⟩
  | renamed n => exact ⟨hb.1.mono h, hindex.trans hb.2⟩

/-! ### The steps -/

theorem extends_refl_of_eq {s s' : Sys} (hfile : s'.file = s.file) (hkeys : s'.keys = s.keys) :
    Extends s s' := by
  refine ⟨by rw [hfile], fun a => by rw [hkeys]⟩

theorem streamFrom_appender {a k : ℕ} {keys : List (List UInt8)} {b : FileByte}
    (h : b ∈ streamFrom a k keys) : b.appender = some a := by
  induction keys generalizing k with
  | nil => exact absurd h List.not_mem_nil
  | cons key keys ih =>
    rcases List.mem_append.mp h with h | h
    · obtain ⟨c, -, rfl⟩ := List.mem_map.mp h
      rfl
    · exact ih h

/-- All of a buffer was written by its appender. -/
theorem Sys.Inv.buffer_appender {s : Sys} (hinv : s.Inv) {a : ℕ} {b : FileByte}
    (h : b ∈ s.buffer a) : b.appender = some a := by
  have hstream : b ∈ streamFrom a 0 (s.keys a) := by
    rw [← hinv.fifo a]
    exact List.mem_append_right _ h
  exact streamFrom_appender hstream

theorem bytesBy_of_forall {a : ℕ} {l : List FileByte} (h : ∀ b ∈ l, b.appender = some a) (a' : ℕ) :
    bytesBy a' l = if a' = a then l else [] := by
  split
  next heq =>
    subst heq
    exact List.filter_eq_self.mpr fun b hb => by simp [h b hb]
  next hne =>
    refine List.filter_eq_nil_iff.mpr fun b hb => ?_
    simp [h b hb, Ne.symm hne]

/-- An appender never touches what the others rely on. -/
theorem appendStep_inv {s s' : Sys} {act : Action} (hinv : s.Inv) (h : appendStep s act = some s') :
    s'.Inv := by
  cases act with
  | write a key =>
    rw [appendStep] at h
    split at h
    next => contradiction
    next =>
      have hkeys : ∀ a', s.keys a' <+: Function.update s.keys a (s.keys a ++ [key]) a' := by
        intro a'
        by_cases ha : a' = a
        · subst ha
          rw [Function.update_self]
          exact List.prefix_append _ _
        · rw [Function.update_of_ne ha]
      have hext : Extends s s' := by
        rw [← Option.some.inj h]
        exact ⟨List.prefix_refl _, hkeys⟩
      have hfifo : ∀ a', bytesBy a' s.file ++
          Function.update s.buffer a (s.buffer a ++ stringBytes a (s.keys a).length key) a' =
          streamFrom a' 0 (Function.update s.keys a (s.keys a ++ [key]) a') := by
        intro a'
        by_cases ha : a' = a
        · subst ha
          rw [Function.update_self, Function.update_self, ← List.append_assoc, hinv.fifo a',
            streamFrom_append, Nat.zero_add, streamFrom, streamFrom, List.append_nil]
        · rw [Function.update_of_ne ha, Function.update_of_ne ha]
          exact hinv.fifo a'
      obtain rfl := Option.some.inj h
      exact
        { hinv with
          fifo := hfifo
          split := hinv.split.mono hext
          builder := BuilderOk.mono hext rfl rfl hinv.builder
          searcher := fun i => SearcherOk.mono hext rfl (hinv.searcher i) }
  | flush a n =>
    have hext : Extends s s' := by
      rw [← Option.some.inj h]
      exact ⟨List.prefix_append _ _, fun a' => List.prefix_refl _⟩
    have hflushed : ∀ b ∈ (s.buffer a).take n, b.appender = some a :=
      fun b hb => hinv.buffer_appender (List.mem_of_mem_take hb)
    have hfifo : ∀ a', bytesBy a' (s.file ++ (s.buffer a).take n) ++
        Function.update s.buffer a ((s.buffer a).drop n) a' = streamFrom a' 0 (s.keys a') := by
      intro a'
      rw [← hinv.fifo a', bytesBy_append, bytesBy_of_forall hflushed, List.append_assoc]
      by_cases ha : a' = a
      · subst ha
        rw [if_pos rfl, Function.update_self, List.take_append_drop]
      · rw [if_neg ha, Function.update_of_ne ha, List.nil_append]
    have hcreated : ∀ b ∈ s.file ++ (s.buffer a).take n, b.appender = none → b.char = keysepCh := by
      intro b hb hnone
      rcases List.mem_append.mp hb with hb | hb
      · exact hinv.created b hb hnone
      · rw [hflushed b hb] at hnone
        contradiction
    obtain rfl := Option.some.inj h
    exact
      { hinv with
        fifo := hfifo
        created := hcreated
        split := hinv.split.mono hext
        builder := BuilderOk.mono hext rfl rfl hinv.builder
        searcher := fun i => SearcherOk.mono hext rfl (hinv.searcher i) }
  | _ => exact absurd h (by simp [appendStep])

/-- A builder that is opened at a quiet moment installs a split between two
strings, together with the index of the text before it. -/
theorem buildStep_inv {s s' : Sys} {act : Action} (hinv : s.Inv) (hquiet : Quiet s act)
    (h : buildStep s act = some s') : s'.Inv := by
  have hb := hinv.builder
  have hindex := hinv.index
  have hexcl := hinv.exclusive
  cases act with
  | openBuild =>
    rw [buildStep] at h
    split at h
    next heq =>
      obtain rfl := Option.some.inj h
      have hpos : 0 < s.file.length := lt_of_lt_of_le hinv.split.1 hinv.split.2.1
      have hclean : CleanAt s s.file.length := by
        refine ⟨hpos, le_refl _, ?_⟩
        rw [List.take_length]
        exact hquiet
      rw [heq] at hindex
      exact { hinv with
        builder := hclean.mono (extends_refl_of_eq rfl rfl)
        index := fun _ => hindex id
        exclusive := fun hex => absurd hex id }
    next => contradiction
  | buildIndex =>
    rw [buildStep] at h
    split at h
    next n heq =>
      obtain rfl := Option.some.inj h
      have hlen : s.file.length = n := hquiet n heq
      rw [heq] at hindex hb
      exact { hinv with
        builder := ⟨hb, congrArg some hlen⟩
        index := fun _ => hindex id
        exclusive := fun hex => absurd hex id }
    next => contradiction
  | lockExclusive =>
    rw [buildStep] at h
    split at h
    next n heq =>
      split at h
      next hempty =>
        obtain rfl := Option.some.inj h
        rw [heq] at hindex hb
        exact { hinv with
          builder := hb
          index := fun _ => hindex id
          exclusive := fun _ => hempty }
      next => contradiction
    next => contradiction
  | renameIndex =>
    rw [buildStep] at h
    split at h
    next n heq =>
      obtain rfl := Option.some.inj h
      rw [heq] at hb hexcl
      have hempty : s.shared = ∅ := hexcl trivial
      -- no searcher has the shared lock, so none has opened the old index
      have hsearcher : ∀ i, SearcherOk
          { s with index := s.newIndex, newIndex := none, builder := .renamed n }
          (s.searcher i) := by
        intro i
        have hi := hinv.searcher i
        have hshared := hinv.shared i
        cases hsi : s.searcher i with
        | indexed start idx =>
          rw [hsi, hempty] at hshared
          exact absurd (hshared trivial) (Finset.notMem_empty i)
        | closed => trivial
        | opened start => rw [hsi] at hi; exact hi
        | locked start => rw [hsi] at hi; exact hi
        | read start idx split => rw [hsi] at hi; exact hi
        | unlocked start idx split => rw [hsi] at hi; exact hi
        | loaded start idx split uiText => rw [hsi] at hi; exact hi
      exact { hinv with
        builder := hb
        index := fun hren => absurd trivial hren
        exclusive := fun _ => hempty
        searcher := hsearcher }
    next => contradiction
  | writeSplit =>
    rw [buildStep] at h
    split at h
    next n heq =>
      obtain rfl := Option.some.inj h
      rw [heq] at hb hexcl
      exact { hinv with
        split := hb.1
        builder := trivial
        index := fun _ => by
          show n = s.index.getD 1
          rw [hb.2, Option.getD_some]
        exclusive := fun _ => hexcl trivial
        searcher := fun i => SearcherOk.mono (extends_refl_of_eq rfl rfl) rfl (hinv.searcher i) }
    next => contradiction
  | unlockExclusive =>
    rw [buildStep] at h
    split at h
    next n heq =>
      obtain rfl := Option.some.inj h
      rw [heq] at hindex
      exact { hinv with
        builder := trivial
        index := fun _ => hindex id
        exclusive := fun hex => absurd hex id }
    next => contradiction
  | closeBuild =>
    rw [buildStep] at h
    split at h
    next n heq =>
      obtain rfl := Option.some.inj h
      rw [heq] at hindex
      exact { hinv with
        builder := trivial
        index := fun _ => hindex id
        exclusive := fun hex => absurd hex id }
    next => contradiction
  | _ => exact absurd h (by simp [buildStep])

/-- A searcher moves on. -/
theorem Sys.Inv.moveSearcher {s : Sys} (hinv : s.Inv) {i : ℕ} {x : Searcher} {shared : Finset ℕ}
    (hx : SearcherOk s x) (hself : x.Shared → i ∈ shared)
    (hothers : ∀ j ≠ i, j ∈ s.shared → j ∈ shared)
    (hexcl : s.builder.Exclusive → shared = ∅) :
    Sys.Inv { s with shared := shared, searcher := Function.update s.searcher i x } := by
  have hext : Extends s { s with shared := shared, searcher := Function.update s.searcher i x } :=
    extends_refl_of_eq rfl rfl
  refine
    { hinv with
      split := hinv.split.mono hext
      builder := BuilderOk.mono hext rfl rfl hinv.builder
      shared := ?_
      exclusive := hexcl
      searcher := ?_ }
  · intro j hj
    by_cases hji : j = i
    · subst hji
      dsimp only at hj
      rw [Function.update_self] at hj
      exact hself hj
    · dsimp only at hj
      rw [Function.update_of_ne hji] at hj
      exact hothers j hji (hinv.shared j hj)
  · intro j
    by_cases hji : j = i
    · subst hji
      dsimp only
      rw [Function.update_self]
      exact SearcherOk.mono hext rfl hx
    · dsimp only
      rw [Function.update_of_ne hji]
      exact SearcherOk.mono hext rfl (hinv.searcher j)

/-- A searcher reads a split that belongs to its index. -/
theorem searchStep_inv {s s' : Sys} {act : Action} (hinv : s.Inv) (h : searchStep s act = some s') :
    s'.Inv := by
  have hexcl := hinv.exclusive
  cases act with
  | openStrings i =>
    rw [searchStep] at h
    split at h
    next heq =>
      obtain rfl := Option.some.inj h
      exact hinv.moveSearcher (x := .opened s.file.length) (le_refl _) (fun hx => absurd hx id)
        (fun j _ hj => hj) hexcl
    next => contradiction
  | lockShared i =>
    rw [searchStep] at h
    split at h
    next start heq =>
      split at h
      next => contradiction
      next hfree =>
        obtain rfl := Option.some.inj h
        have hi := hinv.searcher i
        rw [heq] at hi
        exact hinv.moveSearcher (x := .locked start) hi (fun _ => Finset.mem_insert_self i _)
          (fun j _ hj => Finset.mem_insert_of_mem hj) (fun hex => absurd hex hfree)
    next => contradiction
  | openIndex i =>
    rw [searchStep] at h
    split at h
    next start heq =>
      obtain rfl := Option.some.inj h
      have hi := hinv.searcher i
      have hshared := hinv.shared i
      rw [heq] at hi hshared
      exact hinv.moveSearcher (x := .indexed start s.index) ⟨hi, rfl⟩ (fun _ => hshared trivial)
        (fun j _ hj => hj) hexcl
    next => contradiction
  | readSplit i =>
    rw [searchStep] at h
    split at h
    next start idx heq =>
      obtain rfl := Option.some.inj h
      have hi := hinv.searcher i
      have hshared := hinv.shared i
      rw [heq] at hi hshared
      -- the shared lock keeps the builder from being between the index and the split
      have hren : ¬ s.builder.Renamed := by
        intro hren
        have hempty : s.shared = ∅ := by
          refine hexcl ?_
          cases hb : s.builder with
          | renamed n => trivial
          | _ =>
            rw [hb] at hren
            exact absurd hren id
        have hmem := hshared trivial
        rw [hempty] at hmem
        exact absurd hmem (Finset.notMem_empty i)
      have hsplit : IsSplitOf idx s.split := by
        rw [hi.2]
        exact hinv.index hren
      exact hinv.moveSearcher (x := .read start idx s.split) ⟨hi.1, hinv.split, hsplit⟩
        (fun _ => hshared trivial) (fun j _ hj => hj) hexcl
    next => contradiction
  | unlockShared i =>
    rw [searchStep] at h
    split at h
    next start idx split heq =>
      obtain rfl := Option.some.inj h
      have hi := hinv.searcher i
      rw [heq] at hi
      refine hinv.moveSearcher (x := .unlocked start idx split) hi (fun hx => absurd hx id)
        (fun j hj hmem => Finset.mem_erase.mpr ⟨hj, hmem⟩) fun hex => ?_
      rw [hexcl hex]
      exact Finset.erase_empty i
    next => contradiction
  | loadText i =>
    rw [searchStep] at h
    split at h
    next start idx split heq =>
      obtain rfl := Option.some.inj h
      have hi := hinv.searcher i
      rw [heq] at hi
      obtain ⟨hstart, hclean, hsplit⟩ := hi
      have hx : SearcherOk s (.loaded start idx split (loadUnindexedText s.file split)) := by
        refine ⟨hclean, hsplit, s.file.length, le_refl _, hstart, hclean.2.1, ?_⟩
        rw [List.take_length]
      exact hinv.moveSearcher hx (fun hx => absurd hx id) (fun j _ hj => hj) hexcl
    next => contradiction
  | closeSearch i =>
    rw [searchStep] at h
    split at h
    next =>
      obtain rfl := Option.some.inj h
      exact hinv.moveSearcher (x := .closed) trivial (fun hx => absurd hx id)
        (fun j _ hj => hj) hexcl
    next => contradiction
  | _ => exact absurd h (by simp [searchStep])

/-- **One step of any process.** -/
theorem step_inv {s s' : Sys} {act : Action} (hinv : s.Inv) (hquiet : Quiet s act)
    (h : step s act = some s') : s'.Inv := by
  cases act with
  | write a key => exact appendStep_inv hinv (show appendStep s (.write a key) = _ from h)
  | flush a n => exact appendStep_inv hinv (show appendStep s (.flush a n) = _ from h)
  | openBuild => exact buildStep_inv hinv hquiet (show buildStep s .openBuild = _ from h)
  | buildIndex => exact buildStep_inv hinv hquiet (show buildStep s .buildIndex = _ from h)
  | lockExclusive => exact buildStep_inv hinv hquiet (show buildStep s .lockExclusive = _ from h)
  | renameIndex => exact buildStep_inv hinv hquiet (show buildStep s .renameIndex = _ from h)
  | writeSplit => exact buildStep_inv hinv hquiet (show buildStep s .writeSplit = _ from h)
  | unlockExclusive =>
    exact buildStep_inv hinv hquiet (show buildStep s .unlockExclusive = _ from h)
  | closeBuild => exact buildStep_inv hinv hquiet (show buildStep s .closeBuild = _ from h)
  | openStrings i => exact searchStep_inv hinv (show searchStep s (.openStrings i) = _ from h)
  | lockShared i => exact searchStep_inv hinv (show searchStep s (.lockShared i) = _ from h)
  | openIndex i => exact searchStep_inv hinv (show searchStep s (.openIndex i) = _ from h)
  | readSplit i => exact searchStep_inv hinv (show searchStep s (.readSplit i) = _ from h)
  | unlockShared i => exact searchStep_inv hinv (show searchStep s (.unlockShared i) = _ from h)
  | loadText i => exact searchStep_inv hinv (show searchStep s (.loadText i) = _ from h)
  | closeSearch i => exact searchStep_inv hinv (show searchStep s (.closeSearch i) = _ from h)

/-! ### What a state between the steps grants -/

/-- The byte before a place between two strings is a key separator. -/
theorem CleanAt.before {s : Sys} (hinv : s.Inv) {n : ℕ} (h : CleanAt s n) :
    (s.file[n - 1]?).map FileByte.char = some keysepCh := by
  obtain ⟨hpos, hle, hwhole⟩ := h
  have hlt : n - 1 < s.file.length := by omega
  have htake : s.file.take n = s.file.take (n - 1) ++ [s.file[n - 1]] := by
    obtain ⟨m, rfl⟩ : ∃ m, n = m + 1 := ⟨n - 1, by omega⟩
    exact (List.take_concat_get' s.file m hlt).symm
  rw [List.getElem?_eq_getElem hlt, Option.map_some]
  congr 1
  cases hb : s.file[n - 1].appender with
  | none => exact hinv.created _ (List.getElem_mem hlt) hb
  | some a =>
    obtain ⟨m, -, heq⟩ := hwhole a
    have hlast : bytesBy a [s.file[n - 1]] = [s.file[n - 1]] := by
      rw [bytesBy_of_forall (a := a), if_pos rfl]
      intro b hmem
      rw [List.mem_singleton.mp hmem]
      exact hb
    rw [htake, bytesBy_append, hlast] at heq
    exact streamFrom_last heq.symm

/-- The bytes of a string that are in the file or still in the buffer. -/
theorem Sys.Inv.bytesOf_file {s : Sys} (hinv : s.Inv) {a k : ℕ} {key : List UInt8}
    (hkey : (s.keys a)[k]? = some key) :
    bytesOf a k s.file ++ bytesOf a k (s.buffer a) = stringBytes a k key := by
  have h := congrArg (bytesOf a k) (hinv.fifo a)
  have hstream := bytesOf_streamFrom (a := a) k 0 (s.keys a)
  rw [Nat.zero_add, hkey] at hstream
  rwa [bytesOf_append, bytesOf_bytesBy, hstream] at h

/-- The bytes of a string before a place between two strings: all or none. -/
theorem CleanAt.bytesOf_take {s : Sys} {n : ℕ} (h : CleanAt s n) {a k : ℕ} {key : List UInt8}
    (hkey : (s.keys a)[k]? = some key) :
    bytesOf a k (s.file.take n) = stringBytes a k key ∨ bytesOf a k (s.file.take n) = [] := by
  obtain ⟨m, -, heq⟩ := h.2.2 a
  have hstream := bytesOf_streamFrom (a := a) k 0 ((s.keys a).take m)
  rw [Nat.zero_add, ← heq, bytesOf_bytesBy, List.getElem?_take] at hstream
  split at hstream
  next hnone => exact Or.inr hstream
  next key' hsome =>
    left
    split at hsome
    next =>
      rw [hkey] at hsome
      rw [hstream, Option.some.inj hsome]
    next => contradiction

/-- **The invariant grants every searcher what it is entitled to.** -/
theorem Sys.Inv.sound {s : Sys} (hinv : s.Inv) : s.Sound where
  splitRead := by
    intro i idx split hsplit
    have hi := hinv.searcher i
    have hgoal : CleanAt s split ∧ IsSplitOf idx split := by
      cases hsi : s.searcher i with
      | read start idx' split' =>
        rw [hsi] at hi hsplit
        obtain ⟨rfl, rfl⟩ := Prod.mk.inj (Option.some.inj hsplit)
        exact hi.2
      | unlocked start idx' split' =>
        rw [hsi] at hi hsplit
        obtain ⟨rfl, rfl⟩ := Prod.mk.inj (Option.some.inj hsplit)
        exact hi.2
      | loaded start idx' split' uiText =>
        rw [hsi] at hi hsplit
        obtain ⟨rfl, rfl⟩ := Prod.mk.inj (Option.some.inj hsplit)
        exact ⟨hi.1, hi.2.1⟩
      | _ =>
        rw [hsi] at hsplit
        exact absurd hsplit (by simp [Searcher.splitRead])
    exact ⟨hgoal.1.1, hgoal.1.before hinv, hgoal.2⟩
  whole := by
    intro i start idx split uiText hsi a k key hkey hstart
    have hi := hinv.searcher i
    rw [hsi] at hi
    obtain ⟨hclean, -, len, hle, hstartle, hlow, htext⟩ := hi
    rcases hclean.bytesOf_take hkey with hall | hnone
    · exact Or.inl hall
    · right
      -- all of the string is in the text that was loaded, and none of it is before the split
      have hlen : bytesOf a k (s.file.take len) = stringBytes a k key := by
        have hlow' : bytesOf a k (s.file.take start) <+: bytesOf a k (s.file.take len) := by
          obtain ⟨r, hr⟩ := List.take_prefix_take_left (l := s.file) hstartle
          rw [← hr, bytesOf_append]
          exact List.prefix_append _ _
        have hhigh : bytesOf a k (s.file.take len) <+: stringBytes a k key := by
          rw [← hinv.bytesOf_file hkey]
          obtain ⟨r, hr⟩ := List.take_prefix len s.file
          conv_rhs => rw [← hr, bytesOf_append, List.append_assoc]
          exact List.prefix_append _ _
        rw [hstart] at hlow'
        exact (hlow'.eq_of_length_le hhigh.length_le).symm
      have hdrop : bytesOf a k ((s.file.take len).drop split) = stringBytes a k key := by
        have hparts := congrArg (bytesOf a k) (List.take_append_drop split (s.file.take len))
        rw [bytesOf_append, List.take_take, Nat.min_eq_left hlow, hnone, List.nil_append] at hparts
        exact hparts.trans hlen
      rw [htext, loadUnindexedText]
      split
      next heq =>
        rw [List.drop_eq_nil_of_le (le_of_eq heq)] at hdrop
        exact absurd hdrop.symm (stringBytes_ne_nil a k key)
      next =>
        have hone : split - 1 + 1 = split := by
          have hpos := hclean.1
          omega
        rw [Option.getD_some, List.drop_drop, hone]
        exact hdrop

/-- Every state of a run in which all steps meet the condition. -/
theorem run_inv {s s' : Sys} {acts : List Action} (hinv : s.Inv) (hquiet : QuietRun s acts)
    (h : run s acts = some s') : s'.Inv := by
  induction acts generalizing s with
  | nil =>
    obtain rfl := Option.some.inj h
    exact hinv
  | cons act acts ih =>
    obtain ⟨s₁, hstep, hrest⟩ := Option.bind_eq_some_iff.mp h
    exact ih (step_inv hinv hquiet.1 hstep) (hquiet.2 s₁ hstep) hrest

/-- **Appending, building and searching side by side.**  In every run whose
builders are opened when no string is half flushed and read no text that is newer
than their split, each searcher finds a split that follows a key separator and
belongs to its index, and no string is cut. -/
theorem run_sound {s : Sys} {acts : List Action} (hquiet : QuietRun Sys.init acts)
    (h : run Sys.init acts = some s) : s.Sound :=
  (run_inv init_inv hquiet h).sound

/-- A string is flushed before a builder is opened, and another one while it has
read the text; then a searcher comes. -/
def quietSample : List Action :=
  [.write 0 [97, 98], .flush 0 3, .openBuild, .buildIndex, .write 1 [99], .flush 1 1,
    .lockExclusive, .renameIndex, .writeSplit, .unlockExclusive, .openStrings 5, .lockShared 5,
    .openIndex 5, .readSplit 5, .unlockShared 5, .flush 1 1, .loadText 5]

theorem quietRun_cons {s s₁ : Sys} {act : Action} {acts : List Action} (hquiet : Quiet s act)
    (hstep : step s act = some s₁) (hrest : QuietRun s₁ acts) : QuietRun s (act :: acts) := by
  refine ⟨hquiet, fun s' hs' => ?_⟩
  rw [hstep] at hs'
  obtain rfl := Option.some.inj hs'
  exact hrest

theorem run_sound_quietSample : ∃ s, run Sys.init quietSample = some s ∧ s.Sound := by
  refine ⟨_, rfl, run_sound (show QuietRun Sys.init quietSample from ?_) rfl⟩
  refine quietRun_cons trivial rfl (quietRun_cons trivial rfl (quietRun_cons ?_ rfl
    (quietRun_cons ?_ rfl ?_)))
  · intro a
    by_cases ha : a = 0
    · subst ha
      exact ⟨1, le_refl _, rfl⟩
    · refine ⟨0, Nat.zero_le _, ?_⟩
      simp [Sys.init, stringBytes, bytesBy, streamFrom, Ne.symm ha]
  · rintro split hsplit
    obtain rfl := Builder.opened.inj hsplit
    rfl
  · iterate 13 refine quietRun_cons trivial rfl ?_
    trivial

/-- An appender has flushed one byte of a string when the builder takes the size of
the file. -/
def halfFlushed : List Action :=
  [.write 0 [97, 98], .flush 0 1, .openBuild, .buildIndex, .lockExclusive, .renameIndex,
    .writeSplit, .unlockExclusive, .flush 0 2, .openStrings 0, .lockShared 0, .openIndex 0,
    .readSplit 0, .unlockShared 0, .loadText 0]

/-- The split of `halfFlushed` is in the middle of a string. -/
theorem halfFlushed_cut : ∃ s, run Sys.init halfFlushed = some s ∧ ¬ s.Sound := by
  refine ⟨_, rfl, fun hsound => ?_⟩
  obtain ⟨-, hsep, -⟩ := hsound.splitRead 0 (some 2) 2 rfl
  exact absurd hsep (by decide)

end Archie
