/-
What the parser of Unix listings reads and writes in memory (`anonftp/parse/unix.c`,
`anonftp/parse/unix2.c`).

`lineType`, `splitDir` and `fileParse` work on texts.  Here the same functions have the line, and an
array for the components of a path, around them.

* `splitDirAt_outside_iff` — when a directory header has too many components.
* `fileParseAt_eq` — a file line is parsed as before, unless its name begins before the line.
-/
import Archie.UnixLine

namespace Archie

/-- Why a line is not read: there is an error, or what lies outside the line or outside a buffer is
read or written. -/
inductive LineStop
  | error
  | outside
  deriving DecidableEq, Repr

/-- An error where there is nothing. -/
def orError {α : Type} : Option α → Except LineStop α
  | some a => .ok a
  | none => .error .error

theorem orError_ne_outside {α : Type} (o : Option α) : orError o ≠ .error .outside := by
  cases o <;> simp [orError]

/-! ### Directory headers -/

/-- `MAX_PATH_ELTS`. -/
def maxPathElts : ℕ := 50

/-- The loop of `S_split_dir`, with `i` components stored before. -/
def storeElts : ℕ → List UInt8 → Except LineStop ℕ
  | i, [] => .ok i
  | i, c :: s =>
    if c = 47 then
      if i < maxPathElts + 1 then storeElts (i + 1) s else .error .outside
    else storeElts i s

/-- `S_split_dir`. -/
def splitDirAt (line : List UInt8) (prepDir : Option (List UInt8)) :
    Except LineStop (List (List UInt8)) :=
  -- the character before the end is the one before the line
  if line = [] then .error .outside
  else do
    let _ ← storeElts (prepDir.toList.length + 1) (dropSlash line)
    orError (splitDir line prepDir)

/-- The components are stored as long as there is room. -/
theorem storeElts_eq {i : ℕ} (hi : i < maxPathElts + 2) (s : List UInt8) :
    storeElts i s = if i + s.count 47 < maxPathElts + 2 then .ok (i + s.count 47)
      else .error .outside := by
  induction s generalizing i with
  | nil => simp [storeElts, hi]
  | cons c s ih =>
    rw [storeElts]
    by_cases hc : c = 47
    · subst hc
      rw [if_pos rfl, List.count_cons_self]
      split
      next hroom => rw [ih (by omega), Nat.add_right_comm, Nat.add_assoc]
      next hroom => rw [if_neg (by omega)]
    · rw [if_neg hc, ih hi, List.count_cons_of_ne hc]

/-- A header has too many components from 51 slashes on, or from 50 with a directory before. -/
theorem splitDirAt_outside_iff {line : List UInt8} (hline : line ≠ [])
    (prepDir : Option (List UInt8)) : splitDirAt line prepDir = .error .outside ↔
      51 ≤ prepDir.toList.length + (dropSlash line).count 47 := by
  have hprep : prepDir.toList.length + 1 < maxPathElts + 2 := by
    cases prepDir <;> simp [maxPathElts]
  rw [splitDirAt, if_neg hline, storeElts_eq hprep, maxPathElts]
  split
  next hroom => exact iff_of_false (orError_ne_outside _) (by omega)
  next hroom => exact iff_of_true rfl (by omega)

/-! ### File lines -/

section

variable (cvtTime : ℕ → List UInt8 → List UInt8 → Option ℤ)

/-- `u2db_perm`.  Of the characters that are read, the last one is the first; `room` is the memory
from `v` on. -/
def u2dbPermAt (room : ℕ) (v : List UInt8) : Except LineStop ℕ :=
  if room ≤ 9 then .error .outside else orError (u2dbPerm v)

/-- `u2db_time`.  The third character of the time is read, whatever its length. -/
def u2dbTimeAt (room : ℕ) (mon day tY : List UInt8) : Except LineStop ℤ := do
  let m ← orError (monthNames.findIdx? (· == mon))
  if room ≤ 2 then .error .outside else orError (cvtTime m day tY)

/-- The conversions of `S_file_parse`. -/
def fileEntryAt (permRoom timeRoom : ℕ) (f : LineFields) (text : List UInt8) :
    Except LineStop FileEntry :=
  if text = [] then .error .error
  else do
    let perms ← u2dbPermAt permRoom f.perm
    let size ← orError (u2dbSize f.size)
    let date ← u2dbTimeAt cvtTime timeRoom f.month f.day f.time
    let name := if f.perm.head? = some 108 then beforeArrow text else text
    return {
      name
      slen := name.length
      isDir := fileType f.perm
      size
      date
      perms }

/-- `S_file_parse`, with `leading_blanks` before and after. -/
def fileParseAt (leadingBlanks : ℤ) (line : List UInt8) : ℤ × Except LineStop FileEntry :=
  match lineFields line with
  | none => (leadingBlanks, .error .error)
  | some (f, p) =>
    let numBlanks : ℤ := (p.2.takeWhile isGap).length
    if numBlanks < leadingBlanks then (numBlanks, .error .error)
    else
      let blanks := if leadingBlanks = -1 then numBlanks else leadingBlanks
      let memory := p.1 ++ p.2 ++ [0]
      (blanks,
        if p.1.length + blanks < 0 then .error .outside
        else fileEntryAt cvtTime (memory.length - (line.takeWhile isGap).length)
          (memory.length - (p.1.length - (f.time.length + 1))) f
          (cstr (memory.drop (p.1.length + blanks).toNat)))

/-- The name begins before the line, where `set_blanks` has taken too many blanks away. -/
def BeforeLine (leadingBlanks : ℤ) (line : List UInt8) : Prop :=
  ∃ f p, lineFields line = some (f, p) ∧ p.1.length + leadingBlanks < 0

variable {cvtTime}

/-- With room enough, the conversions are those of the texts. -/
theorem fileEntryAt_eq {permRoom timeRoom : ℕ} (hperm : 9 < permRoom) (htime : 2 < timeRoom)
    (f : LineFields) (text : List UInt8) : fileEntryAt cvtTime permRoom timeRoom f text =
      orError (fileEntry cvtTime f text) := by
  rw [fileEntryAt, fileEntry]
  split
  · rfl
  rw [u2dbPermAt, if_neg (by omega)]
  cases u2dbPerm f.perm with
  | none => rfl
  | some perms =>
    cases u2dbSize f.size with
    | none => rfl
    | some size =>
      rw [u2dbTimeAt, u2dbTime]
      cases monthNames.findIdx? (· == f.month) with
      | none => rfl
      | some m =>
        simp only [orError, bind, Except.bind, Option.bind, if_neg (show ¬timeRoom ≤ 2 by omega)]
        cases cvtTime m f.day f.time <;> rfl

/-- A field is not empty, and the line keeps its length. -/
theorem tryGetField_length {p p' : List UInt8 × List UInt8} {word : List UInt8}
    (h : tryGetField p = some (word, p')) : p'.1.length + p'.2.length = p.1.length + p.2.length ∧
      word.length + 1 ≤ p'.1.length ∧ word ≠ [] := by
  rw [tryGetField] at h
  split at h
  next => simp at h
  next d rest hrest =>
    simp only [Option.some.injEq, Prod.mk.injEq] at h
    obtain ⟨hword, hp'⟩ := h
    have hgaps := List.takeWhile_append_dropWhile (p := isGap) (l := p.2)
    have hsplit := List.takeWhile_append_dropWhile (p := (!isGap ·)) (l := p.2.dropWhile isGap)
    have hlen := congrArg List.length hgaps
    have hlen' := congrArg List.length hsplit
    rw [hrest, hword, List.length_append, List.length_cons] at hlen'
    rw [List.length_append] at hlen
    rw [← hp', hword]
    simp only [List.length_append, List.length_singleton]
    refine ⟨by omega, by omega, ?_⟩
    rintro rfl
    rw [hword, hrest, List.nil_append] at hsplit
    -- the text begins with what is no blank, so that a word is there
    have hhead := List.head?_dropWhile_not isGap p.2
    rw [← hsplit] at hhead
    rw [← hsplit, List.takeWhile_cons_of_pos (by simpa using hhead)] at hword
    exact absurd hword (by simp)

theorem deviceNumbers_length {group : List UInt8} {p p' : List UInt8 × List UInt8}
    (h : deviceNumbers group p = some p') :
    p'.1.length + p'.2.length = p.1.length + p.2.length := by
  rw [deviceNumbers] at h
  split at h
  · obtain ⟨r, hr, rfl⟩ := Option.map_eq_some_iff.mp h
    exact (tryGetField_length hr).1
  split at h
  · rw [Option.some.inj h]
  · obtain ⟨⟨major, q⟩, hq, h⟩ := Option.bind_eq_some_iff.mp h
    have hlen := (tryGetField_length hq).1
    dsimp only at h
    split at h
    · rw [← Option.some.inj h, hlen]
    · obtain ⟨r, hr, rfl⟩ := Option.map_eq_some_iff.mp h
      rw [(tryGetField_length hr).1, hlen]

theorem sizeAndMonth_length {perm : List UInt8} {p p' : List UInt8 × List UInt8}
    {w : List UInt8 × List UInt8} (h : sizeAndMonth perm p = some (w, p')) :
    p'.1.length + p'.2.length = p.1.length + p.2.length := by
  obtain ⟨⟨group, q⟩, hq, h⟩ := Option.bind_eq_some_iff.mp h
  have hlen := (tryGetField_length hq).1
  dsimp only at h
  split at h
  · obtain ⟨q', hq', h⟩ := Option.bind_eq_some_iff.mp h
    obtain ⟨⟨month, q''⟩, hq'', h⟩ := Option.bind_eq_some_iff.mp h
    rw [← (Prod.mk.inj (Option.some.inj h)).2, (tryGetField_length hq'').1,
      deviceNumbers_length hq', hlen]
  · obtain ⟨⟨size, q'⟩, hq', h⟩ := Option.bind_eq_some_iff.mp h
    dsimp only at h
    split at h
    · obtain ⟨⟨month, q''⟩, hq'', h⟩ := Option.bind_eq_some_iff.mp h
      rw [← (Prod.mk.inj (Option.some.inj h)).2, (tryGetField_length hq'').1,
        (tryGetField_length hq').1, hlen]
    · rw [← (Prod.mk.inj (Option.some.inj h)).2, (tryGetField_length hq').1, hlen]

/-- The fields leave the line as long as it was, and the time stands before the pointer. -/
theorem lineFields_length {line : List UInt8} {f : LineFields} {p : List UInt8 × List UInt8}
    (h : lineFields line = some (f, p)) : p.1.length + p.2.length = line.length ∧
      f.time.length + 1 ≤ p.1.length ∧ f.time ≠ [] := by
  simp only [lineFields, Option.bind_eq_bind, Option.bind_eq_some_iff] at h
  obtain ⟨⟨perm, p₁⟩, h₁, ⟨_, p₂⟩, h₂, ⟨_, p₃⟩, h₃, ⟨⟨_, _⟩, p₄⟩, h₄, ⟨_, p₅⟩, h₅, ⟨_, p₆⟩, h₆, h⟩ := h
  obtain ⟨rfl, rfl⟩ := Prod.mk.inj (Option.some.inj h)
  obtain ⟨hlen, htime, hne⟩ := tryGetField_length h₆
  refine ⟨?_, htime, hne⟩
  rw [hlen, (tryGetField_length h₅).1, sizeAndMonth_length h₄, (tryGetField_length h₃).1,
    (tryGetField_length h₂).1, (tryGetField_length h₁).1, List.length_nil, Nat.zero_add]

theorem matchRow_length {rows : List (List UInt8)} {s t : List UInt8}
    (h : matchRow rows s = some t) : s.length = rows.length + t.length := by
  induction rows generalizing s with
  | nil =>
    obtain rfl : s = t := Option.some.inj h
    simp
  | cons set rows ih =>
    cases s with
    | nil => simp [matchRow] at h
    | cons c s =>
      rw [matchRow] at h
      split at h
      · rw [List.length_cons, ih h, List.length_cons, Nat.add_right_comm]
      · simp at h

/-- A file line begins with the ten characters of the permissions. -/
theorem length_of_isFileLine {line : List UInt8} (h : isFileLine line = true) :
    10 < line.length ∧ line.takeWhile isGap = [] := by
  have hset : ∀ c ∈ bytes "-bcdlpsyDFL", isGap c = false := by decide +kernel
  rw [isFileLine] at h
  split at h
  next c t hrow =>
    constructor
    · rw [matchRow_length hrow, List.length_cons]
      show 10 < 10 + (t.length + 1)
      omega
    · cases line with
      | nil => rfl
      | cons d s =>
        rw [permRow, matchRow] at hrow
        split at hrow
        next hd => rw [List.takeWhile_cons_of_neg (by simp [hset d hd])]
        next => simp at hrow
  next => simp at h

theorem cstr_concat (s : List UInt8) : cstr (s ++ [0]) = cstr s := by
  rw [cstr, cstr, List.takeWhile_append]
  split
  next hall =>
    rw [(List.takeWhile_prefix _).eq_of_length hall]
    simp
  next => rfl

/-- A file line is parsed as before, unless its name begins before the line. -/
theorem fileParseAt_eq (leadingBlanks : ℤ) {line : List UInt8} (h : isFileLine line = true)
    (hname : ¬BeforeLine leadingBlanks line) : fileParseAt cvtTime leadingBlanks line =
      ((fileParse cvtTime leadingBlanks line).1, orError (fileParse cvtTime leadingBlanks line).2) := by
  obtain ⟨hlong, hgaps⟩ := length_of_isFileLine h
  rw [fileParseAt, fileParse]
  cases hfields : lineFields line with
  | none => rfl
  | some r =>
    obtain ⟨f, p⟩ := r
    obtain ⟨hlen, htime, hne⟩ := lineFields_length hfields
    have hinside : ¬(p.1.length + leadingBlanks < 0) := fun hneg => hname ⟨f, p, hfields, hneg⟩
    have hword : 0 < f.time.length := List.length_pos_iff.mpr hne
    dsimp only
    split
    · rfl
    next hblanks =>
      set blanks : ℤ := if leadingBlanks = -1 then ((p.2.takeWhile isGap).length : ℤ)
        else leadingBlanks with hdef
      have hle : blanks ≤ (p.2.takeWhile isGap).length ∧ 0 ≤ p.1.length + blanks := by
        rw [hdef]
        split <;> omega
      have hcount := (List.takeWhile_sublist isGap (l := p.2)).length_le
      have hmem : (p.1 ++ p.2 ++ [0]).length = line.length + 1 := by
        rw [List.length_append, List.length_append, hlen]
        rfl
      have htext : (p.1 ++ p.2 ++ [0]).drop (p.1.length + blanks).toNat =
          (p.1 ++ p.2).drop (p.1.length + blanks).toNat ++ [0] :=
        List.drop_append_of_le_length (by rw [List.length_append]; omega)
      rw [if_neg (by omega), hmem, hgaps, htext, cstr_concat,
        fileEntryAt_eq (by rw [List.length_nil]; omega) (by omega)]

/-- A file line is left when its name begins before it. -/
theorem fileParseAt_outside_iff (leadingBlanks : ℤ) {line : List UInt8}
    (h : isFileLine line = true) :
    (fileParseAt cvtTime leadingBlanks line).2 = .error .outside ↔ BeforeLine leadingBlanks line := by
  constructor
  · intro hout
    by_contra hname
    rw [fileParseAt_eq leadingBlanks h hname] at hout
    exact orError_ne_outside _ hout
  · rintro ⟨f, p, hfields, hneg⟩
    rw [fileParseAt, hfields]
    dsimp only
    have htime := (lineFields_length hfields).2.1
    rw [if_neg (by omega), if_neg (by omega), if_pos hneg]

end

end Archie
