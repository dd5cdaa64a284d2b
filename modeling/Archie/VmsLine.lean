/-
The lines of a VMS listing (`anonftp/parse/vms.c`, `anonftp/parse/vms2.c`).

A line is a piece of memory here: a result tells the functions that leave it, or a buffer of theirs,
from those that return.

* `Vms.lineType` — what a line is, from the regular expressions of `S_init_parser`.
* `Vms.splitDir_outside_iff` — when a directory header has too many components.
* `Vms.fileParse_outside_iff` — when a file line is left.
* `staysInside_iff` — the lines that both parsers read without leaving them.
-/
import Archie.UnixMemory

namespace Archie

namespace Vms

/-! ### The kinds of lines -/

/-- The text after the version number of a file. -/
def afterVersion (line : List UInt8) : Option (List UInt8) :=
  let s := (line.dropWhile (· ≠ 46)).dropWhile (· ≠ 59)
  if s.tail.head?.any isDigit then some (s.tail.dropWhile isDigit) else none

/-- `S_FILE`. -/
def isFileLine (line : List UInt8) : Bool :=
  (afterVersion line).any fun s => s.head?.any isGap && (s.dropWhile isGap).head?.any isDigit

/-- `S_ERROR`. -/
def isErrorLine (line : List UInt8) : Bool :=
  (afterVersion line).any fun s =>
    s.head?.any isGap && (s.dropWhile isGap).head?.any fun c => c == 37 || isDigit c

/-- The text after the device and `:[`. -/
def afterDevice (line : List UInt8) : List UInt8 := (line.dropWhile (· ≠ 58)).drop 2

/-- The text between the brackets. -/
def bracketed (line : List UInt8) : List UInt8 := (afterDevice line).takeWhile (· ≠ 93)

/-- `S_DIR_START`. -/
def isDirStart (line : List UInt8) : Bool :=
  line.head?.any (· ≠ 58) && (line.dropWhile (· ≠ 58)).take 2 == bytes ":[" &&
    (afterDevice line).contains 93 && ((bracketed line).splitOn 46).all fun name => !name.isEmpty

/-- `S_CONT`. -/
def isContLine (line : List UInt8) : Bool :=
  line.head?.any isGap && (line.dropWhile isGap).head?.any fun c => c == 37 || isDigit c

/-- `S_TOTAL`. -/
def isTotalLine (line : List UInt8) : Bool :=
  (bytes "Total of").isPrefixOf line || (bytes "Grand total of").isPrefixOf line

/-- `S_line_type`. -/
def lineType (line : List UInt8) : LineType :=
  if isFileLine line then .file
  else if line = [] then .blank
  else if isDirStart line then .dirStart
  else if isErrorLine line then .error
  else if (afterVersion line).isSome then .part
  else if isContLine line then .cont
  else if isTotalLine line then .total
  else .unknown

/-! ### Directory headers -/

/-- The loop of `S_split_dir`.  `path` holds the components that have ended, and the one that is
read has been stored after them. -/
def pathElts : List (List UInt8) → List UInt8 → List UInt8 → Except LineStop (List (List UInt8))
  -- `strpbrk` finds nothing
  | _, _, [] => .error .outside
  | path, elt, c :: s =>
    if c = 46 then
      if s = [] then .ok (path ++ [elt])
      else if (path ++ [elt]).length < maxPathElts + 1 then pathElts (path ++ [elt]) [] s
      else .error .outside
    else if c = 93 then .ok (path ++ [elt])
    else pathElts path (elt ++ [c]) s

/-- `S_split_dir`.  The device is the first component. -/
def splitDir (line : List UInt8) : Except LineStop (List (List UInt8)) :=
  match line.dropWhile (· ≠ 58) with
  | _ :: _ :: s => pathElts [line.takeWhile (· ≠ 58)] [] s
  | _ => .error .outside

/-! ### File lines -/

/-- The text after the next word. -/
def afterWord (s : List UInt8) : List UInt8 := (s.dropWhile isGap).dropWhile (!isGap ·)

/-- `strtok`: the next word, and the text after it. -/
def strtok (s : List UInt8) : Option (List UInt8 × List UInt8) :=
  if s.dropWhile isGap = [] then none
  else some ((s.dropWhile isGap).takeWhile (!isGap ·), afterWord s)

/-- The memory from a word on, to the NUL at the end of the line.  The blank after the word is a NUL
too. -/
def memoryFrom (word : List UInt8) : List UInt8 → List UInt8
  | [] => word ++ [0]
  | _ :: rest => word ++ 0 :: rest ++ [0]

/-- The fields that are used later. -/
structure Fields where
  name : List UInt8
  size : List UInt8
  date : List UInt8
  time : List UInt8
  /-- The memory from the permissions on. -/
  perm : List UInt8
  deriving DecidableEq, Repr

/-- The fields of a line. -/
def lineFields (line : List UInt8) : Option Fields := do
  let (name, s) ← strtok line
  let (size, s) ← strtok s
  let (date, s) ← strtok s
  let (time, s) ← strtok s
  let (_, s) ← strtok s
  let (perm, s) ← strtok s
  some ⟨name, size, date, time, memoryFrom perm s⟩

/-- `v2db_one_set_perm`. -/
def v2dbOneSetPerm (p : ℕ) : List UInt8 → Except LineStop ℕ
  | [] => .error .outside
  | c :: s =>
    if c = 44 ∨ c = 41 then .ok p
    else if c = 82 then v2dbOneSetPerm (p ||| 0x08) s
    else if c = 87 then v2dbOneSetPerm (p ||| 0x04) s
    else if c = 69 then v2dbOneSetPerm (p ||| 0x02) s
    else if c = 68 then v2dbOneSetPerm (p ||| 0x01) s
    else .error .error

/-- The permissions of a set, or those of the one before when there is an error. -/
def setPerm (p : ℕ) (v : List UInt8) : Except LineStop ℕ :=
  match v2dbOneSetPerm 0 v with
  | .error .error => .ok p
  | r => r

/-- `while(*v++ != ',') ;`. -/
def pastComma : List UInt8 → Except LineStop (List UInt8)
  | [] => .error .outside
  | c :: v => if c = 44 then .ok v else pastComma v

/-- `v2db_perm`. -/
def v2dbPerm (v : List UInt8) : Except LineStop ℕ := do
  let v := v.tail
  let p₁ ← setPerm 0 v
  let v ← pastComma v
  let p₂ ← setPerm p₁ v
  let v ← pastComma v
  let p₃ ← setPerm p₂ v
  let v ← pastComma v
  let p₄ ← setPerm p₃ v
  return p₁ <<< 12 ||| p₂ <<< 8 ||| p₃ <<< 4 ||| p₄

/-- `v2db_size`. -/
def v2dbSize (v : List UInt8) : Option ℕ := u2dbSize v

/-- `months`. -/
def monthNames : List (List UInt8) :=
  [bytes "JAN", bytes "FEB", bytes "MAR", bytes "APR", bytes "MAY", bytes "JUN", bytes "JUL",
    bytes "AUG", bytes "SEP", bytes "OCT", bytes "NOV", bytes "DEC"]

/-- `%2d`. -/
def scanTwo (s : List UInt8) : Option (ℤ × List UInt8) :=
  let s := s.dropWhile isSpace
  (scanSInt (s.take 2)).map fun (n, rest) => (n, rest ++ s.drop 2)

/-- `%d-%[^-]-%d`.  There is room for three characters. -/
def scanDate (d : List UInt8) : Except LineStop (ℤ × List UInt8 × ℤ) :=
  match scanSInt d with
  | some (dm, 45 :: s) =>
    let mstr := s.takeWhile (· ≠ 45)
    if mstr = [] then .error .error
    else if 3 < mstr.length then .error .outside
    else orError do
      let (y, _) ← scanSInt (s.dropWhile (· ≠ 45)).tail
      if s.dropWhile (· ≠ 45) = [] then none else some (dm, mstr, y)
  | _ => .error .error

/-- `%2d:%2d`. -/
def scanTime (t : List UInt8) : Option (ℤ × ℤ) := do
  let (hr, s) ← scanTwo t
  if s.head? ≠ some 58 then none
  else
    let (min, _) ← scanTwo s.tail
    some (hr, min)

/-- `S_file_type`. -/
def fileType (name : List UInt8) : Option Bool :=
  if 46 ∉ name then none else some ((bytes ".DIR;").isPrefixOf (name.dropWhile (· ≠ 46)))

section

-- what `mktime` or `timelocal` makes of a month, a day, a year, an hour and a minute
variable (mktime : ℕ → ℤ → ℤ → ℤ → ℤ → Option ℤ)

/-- `v2db_time`. -/
def v2dbTime (d t : List UInt8) : Except LineStop ℤ := do
  let (dm, mstr, y) ← scanDate d
  orError do
    let (hr, min) ← scanTime t
    if 31 < dm ∨ y < 1970 ∨ 23 < hr ∨ 59 < min then none
    else
      let m ← monthNames.findIdx? (· == mstr)
      mktime m dm y hr min

/-- `S_file_parse`. -/
def fileParse (line : List UInt8) : Except LineStop FileEntry := do
  let f ← orError (lineFields line)
  let perms ← v2dbPerm f.perm
  let size ← orError (v2dbSize f.size)
  let date ← v2dbTime mktime f.date f.time
  let isDir ← orError (fileType f.name)
  return {
    name := f.name
    slen := f.name.length
    isDir
    size
    date
    perms }

end

/-! ### Where a header ends -/

section

variable {path : List (List UInt8)} {elt rest w : List UInt8}

/-- The components between the brackets are stored as long as there is room. -/
theorem pathElts_splitOn {w : List UInt8} (hw : 93 ∉ w) (hlen : path.length < maxPathElts + 1) :
    pathElts path elt (w ++ 93 :: rest) =
      if path.length + w.count 46 < maxPathElts + 1 then
        .ok (path ++ (w.splitOn 46).modifyHead (elt ++ ·))
      else .error .outside := by
  induction w generalizing path elt with
  | nil => simp [pathElts, hlen]
  | cons c w ih =>
    have hc : c ≠ 93 := fun h => hw (by simp [h])
    have hend : 93 ∉ w := fun h => hw (by simp [h])
    rw [List.cons_append, pathElts, List.splitOn_cons_eq_if_modifyHead]
    by_cases hdot : c = 46
    · subst hdot
      rw [if_pos rfl, if_neg (by simp), List.count_cons_self, if_pos (beq_self_eq_true _),
        List.length_append, List.length_singleton]
      by_cases hroom : path.length + 1 < maxPathElts + 1
      · have hroom' : (path ++ [elt]).length < maxPathElts + 1 := by
          rwa [List.length_append, List.length_singleton]
        have hhead : (w.splitOn 46).modifyHead ([] ++ ·) = w.splitOn 46 := by
          cases w.splitOn 46 <;> rfl
        rw [if_pos hroom, ih hend hroom', List.length_append, List.length_singleton,
          show path.length + 1 + w.count 46 = path.length + (w.count 46 + 1) by omega, hhead,
          List.append_assoc]
        simp
      · rw [if_neg hroom, if_neg (by omega)]
    · have hhead : (w.splitOn 46).modifyHead (elt ++ [c] ++ ·) =
          ((w.splitOn 46).modifyHead (List.cons c)).modifyHead (elt ++ ·) := by
        cases w.splitOn 46 <;> simp
      have hbeq : ¬(c == 46) = true := by simpa using hdot
      rw [if_neg hdot, if_neg hc, ih hend hlen, List.count_cons_of_ne hdot, if_neg hbeq, hhead]

/-- `S_split_dir` of a header. -/
theorem splitDir_of_isDirStart {line : List UInt8} (h : isDirStart line = true) :
    splitDir line = if (bracketed line).count 46 + 1 < maxPathElts + 1 then
        .ok (line.takeWhile (· ≠ 58) :: (bracketed line).splitOn 46)
      else .error .outside := by
  simp only [isDirStart, Bool.and_eq_true, beq_iff_eq, List.contains_iff_mem] at h
  obtain ⟨⟨⟨-, hdev⟩, hend⟩, -⟩ := h
  have hcolon : line.dropWhile (· ≠ 58) = 58 :: 91 :: afterDevice line := by
    have htake := List.take_append_drop 2 (line.dropWhile (· ≠ 58))
    rw [hdev] at htake
    exact htake.symm
  have hsplit : afterDevice line =
      bracketed line ++ 93 :: ((afterDevice line).dropWhile (· ≠ 93)).tail := by
    have htake := List.takeWhile_append_dropWhile (p := (· ≠ (93 : UInt8))) (l := afterDevice line)
    cases hrest : (afterDevice line).dropWhile (· ≠ 93) with
    | nil =>
      rw [List.dropWhile_eq_nil_iff] at hrest
      exact absurd (hrest 93 hend) (by simp)
    | cons c rest =>
      have hc : c = 93 := by
        by_contra hc
        have hneg := List.head?_dropWhile_not (· ≠ (93 : UInt8)) (afterDevice line)
        rw [hrest] at hneg
        simp [hc] at hneg
      rw [hrest, hc] at htake
      exact htake.symm
  have hnot : 93 ∉ bracketed line := fun hmem => by
    have := List.mem_takeWhile_imp hmem
    simp at this
  have hhead : ((bracketed line).splitOn 46).modifyHead ([] ++ ·) = (bracketed line).splitOn 46 := by
    cases (bracketed line).splitOn 46 <;> rfl
  rw [splitDir, hcolon]
  dsimp only
  rw [hsplit, pathElts_splitOn hnot (by simp [maxPathElts]), List.length_singleton, hhead,
    Nat.add_comm 1]
  rfl

/-- A header has too many components from 50 dots on. -/
theorem splitDir_outside_iff {line : List UInt8} (h : isDirStart line = true) :
    splitDir line = .error .outside ↔ 50 ≤ (bracketed line).count 46 := by
  rw [splitDir_of_isDirStart h, maxPathElts]
  split
  next hroom => exact iff_of_false (by simp) (by omega)
  next hroom => exact iff_of_true rfl (by omega)

end

/-! ### Where a file line ends -/

section

variable {line v : List UInt8}

/-- The text from a word on, the words counted from 0. -/
def fromWord (k : ℕ) (line : List UInt8) : List UInt8 := (afterWord^[k] line).dropWhile isGap

/-- A word. -/
def wordAt (k : ℕ) (line : List UInt8) : List UInt8 := (fromWord k line).takeWhile (!isGap ·)

theorem strtok_afterWord (line : List UInt8) (k : ℕ) : strtok (afterWord^[k] line) =
    if fromWord k line = [] then none else some (wordAt k line, afterWord^[k + 1] line) := by
  rw [Function.iterate_succ_apply']
  rfl

theorem fromWord_succ_eq_nil {k : ℕ} (h : fromWord k line = []) : fromWord (k + 1) line = [] := by
  rw [fromWord, Function.iterate_succ_apply', afterWord]
  rw [fromWord] at h
  rw [h]
  rfl

/-- A line has its fields when it has six words. -/
theorem lineFields_eq : lineFields line = if fromWord 5 line = [] then none
    else some ⟨wordAt 0 line, wordAt 1 line, wordAt 2 line, wordAt 3 line,
      memoryFrom (wordAt 5 line) (afterWord^[6] line)⟩ := by
  have h0 : strtok line = _ := strtok_afterWord line 0
  have hnext : ∀ k, fromWord k line = [] → fromWord (k + 1) line = [] := fun k => fromWord_succ_eq_nil
  rw [lineFields, h0]
  by_cases h5 : fromWord 5 line = []
  · rw [if_pos h5]
    -- one of the words before may be missing too
    split
    · rfl
    simp only [Option.bind_eq_bind, Option.bind_some, strtok_afterWord]
    split
    · rfl
    simp only [Option.bind_some, strtok_afterWord]
    split
    · rfl
    simp only [Option.bind_some, strtok_afterWord]
    split
    · rfl
    simp only [Option.bind_some, strtok_afterWord]
    split
    · rfl
    simp only [Option.bind_some, strtok_afterWord]
    rw [if_pos h5]
    rfl
  · have h4 : fromWord 4 line ≠ [] := fun h => h5 (hnext 4 h)
    have h3 : fromWord 3 line ≠ [] := fun h => h4 (hnext 3 h)
    have h2 : fromWord 2 line ≠ [] := fun h => h3 (hnext 2 h)
    have h1 : fromWord 1 line ≠ [] := fun h => h2 (hnext 1 h)
    have h0 : fromWord 0 line ≠ [] := fun h => h1 (hnext 0 h)
    simp only [if_neg h0, Option.bind_eq_bind, Option.bind_some, strtok_afterWord, if_neg h1,
      if_neg h2, if_neg h3, if_neg h4, if_neg h5]

/-- A set of permissions ends before the NUL. -/
theorem v2dbOneSetPerm_of_mem (hv : 0 ∈ v) (p : ℕ) : v2dbOneSetPerm p v ≠ .error .outside := by
  induction v generalizing p with
  | nil => exact absurd hv (by simp)
  | cons c v ih =>
    rw [v2dbOneSetPerm]
    by_cases hc : c = 0
    · subst hc
      rw [if_neg (by decide), if_neg (by decide), if_neg (by decide), if_neg (by decide),
        if_neg (by decide)]
      simp
    · have hv : 0 ∈ v := (List.mem_cons.mp hv).resolve_left (Ne.symm hc)
      split
      · simp
      split
      · exact ih hv _
      split
      · exact ih hv _
      split
      · exact ih hv _
      split
      · exact ih hv _
      · simp

theorem setPerm_of_mem (hv : 0 ∈ v) (p : ℕ) : ∃ q, setPerm p v = .ok q := by
  have hinside := v2dbOneSetPerm_of_mem hv 0
  rw [setPerm]
  cases hset : v2dbOneSetPerm 0 v with
  | ok q => exact ⟨q, rfl⟩
  | error e =>
    cases e with
    | error => exact ⟨p, rfl⟩
    | outside => exact absurd hset hinside

/-- A comma is passed, or there is none. -/
theorem pastComma_eq (hv : v.getLast? = some 0) :
    (v.count 44 = 0 ∧ pastComma v = .error .outside) ∨
      ∃ w, pastComma v = .ok w ∧ w.getLast? = some 0 ∧ v.count 44 = w.count 44 + 1 := by
  induction v with
  | nil => exact .inl ⟨rfl, rfl⟩
  | cons c v ih =>
    rw [pastComma]
    by_cases hc : c = 44
    · subst hc
      refine .inr ⟨v, if_pos rfl, ?_, List.count_cons_self⟩
      cases v with
      | nil => exact absurd hv (by decide)
      | cons d v => rwa [List.getLast?_cons_cons] at hv
    · rw [if_neg hc, List.count_cons_of_ne hc]
      cases v with
      | nil => exact .inl ⟨rfl, rfl⟩
      | cons d v =>
        rw [List.getLast?_cons_cons] at hv
        exact ih hv

/-- Three commas are needed after the first character. -/
theorem v2dbPerm_eq (hv : v.tail.getLast? = some 0) :
    if v.tail.count 44 < 3 then v2dbPerm v = .error .outside else ∃ n, v2dbPerm v = .ok n := by
  have hset : ∀ {w : List UInt8}, w.getLast? = some 0 → ∀ p, ∃ q, setPerm p w = .ok q :=
    fun hw => setPerm_of_mem (List.mem_of_getLast? hw)
  obtain ⟨p₁, h₁⟩ := hset hv 0
  rcases pastComma_eq hv with ⟨hc, hpast⟩ | ⟨v₂, hpast, hv₂, hc₁⟩
  · rw [if_pos (by omega)]
    simp only [v2dbPerm, h₁, hpast, bind, Except.bind]
  obtain ⟨p₂, h₂⟩ := hset hv₂ p₁
  rcases pastComma_eq hv₂ with ⟨hc, hpast₂⟩ | ⟨v₃, hpast₂, hv₃, hc₂⟩
  · rw [if_pos (by omega)]
    simp only [v2dbPerm, h₁, hpast, h₂, hpast₂, bind, Except.bind]
  obtain ⟨p₃, h₃⟩ := hset hv₃ p₂
  rcases pastComma_eq hv₃ with ⟨hc, hpast₃⟩ | ⟨v₄, hpast₃, hv₄, hc₃⟩
  · rw [if_pos (by omega)]
    simp only [v2dbPerm, h₁, hpast, h₂, hpast₂, h₃, hpast₃, bind, Except.bind]
  obtain ⟨p₄, h₄⟩ := hset hv₄ p₃
  rw [if_neg (by omega)]
  simp only [v2dbPerm, h₁, hpast, h₂, hpast₂, h₃, hpast₃, h₄, bind, Except.bind]
  exact ⟨_, rfl⟩

/-- The memory from a word on ends in a NUL, and has the commas of the line. -/
theorem memoryFrom_tail {word : List UInt8} (hword : word ≠ []) (rest : List UInt8) :
    (memoryFrom word rest).tail.getLast? = some 0 ∧
      (memoryFrom word rest).tail.count 44 = word.tail.count 44 + rest.tail.count 44 := by
  obtain ⟨c, w, rfl⟩ := List.exists_cons_of_ne_nil hword
  cases rest with
  | nil => simp [memoryFrom]
  | cons d rest =>
    constructor
    · show (w ++ 0 :: rest ++ [0]).getLast? = some 0
      rw [List.getLast?_concat]
    · show (w ++ 0 :: rest ++ [0]).count 44 = _
      simp

/-- So the commas are counted in the line. -/
theorem count_memoryFrom {k : ℕ} (hk : fromWord k line ≠ []) :
    (memoryFrom (wordAt k line) (afterWord^[k + 1] line)).tail.getLast? = some 0 ∧
      (memoryFrom (wordAt k line) (afterWord^[k + 1] line)).tail.count 44 =
        (fromWord k line).tail.count 44 := by
  have hafter : afterWord^[k + 1] line = (fromWord k line).dropWhile (!isGap ·) := by
    rw [Function.iterate_succ_apply']
    rfl
  have hword : wordAt k line ≠ [] := by
    obtain ⟨c, s, hcs⟩ := List.exists_cons_of_ne_nil hk
    have hc := List.head?_dropWhile_not isGap (afterWord^[k] line)
    rw [show (afterWord^[k] line).dropWhile isGap = c :: s from hcs] at hc
    rw [wordAt, hcs, List.takeWhile_cons_of_pos (by simpa using hc)]
    simp
  obtain ⟨hlast, hcount⟩ := memoryFrom_tail hword (afterWord^[k + 1] line)
  refine ⟨hlast, hcount.trans ?_⟩
  have hsplit := List.takeWhile_append_dropWhile (p := (!isGap ·)) (l := fromWord k line)
  rw [← hafter, ← wordAt] at hsplit
  conv_rhs => rw [← hsplit]
  rw [List.tail_append_of_ne_nil hword, List.count_append]
  congr 1
  cases hrest : afterWord^[k + 1] line with
  | nil => rfl
  | cons d rest =>
    -- what comes after a word is a blank
    have hd := List.head?_dropWhile_not (!isGap ·) (fromWord k line)
    rw [← hafter, hrest] at hd
    have hgap : isGap d = true := by simpa using hd
    have hd44 : d ≠ 44 := by
      rintro rfl
      exact absurd hgap (by decide)
    rw [List.tail_cons, List.count_cons_of_ne hd44]

/-- A date goes beyond its buffer with a month of more than three characters. -/
theorem scanDate_outside_iff (d : List UInt8) : scanDate d = .error .outside ↔
    ∃ dm s, scanSInt d = some (dm, 45 :: s) ∧ 3 < (s.takeWhile (· ≠ 45)).length := by
  rw [scanDate]
  split
  next dm s hscan =>
    rw [hscan]
    dsimp only
    constructor
    · intro h
      split at h
      next => simp at h
      next =>
        split at h
        next hlen => exact ⟨dm, s, rfl, hlen⟩
        next =>
          exact absurd h (orError_ne_outside _)
    · rintro ⟨dm', s', heq, hlen⟩
      obtain ⟨rfl, rfl⟩ : dm = dm' ∧ s = s' := by simpa using heq
      rw [if_neg (by rintro h; rw [h] at hlen; simp at hlen), if_pos hlen]
  next hno => exact iff_of_false (by simp) fun ⟨dm, s, h, _⟩ => hno dm s h

variable (mktime : ℕ → ℤ → ℤ → ℤ → ℤ → Option ℤ)

theorem v2dbTime_outside_iff (d t : List UInt8) :
    v2dbTime mktime d t = .error .outside ↔ scanDate d = .error .outside := by
  rw [v2dbTime]
  cases scanDate d with
  | error e => simp [bind, Except.bind]
  | ok date => exact iff_of_false (orError_ne_outside _) (by simp)

/-- A line is left when there are three commas too few after the first character of the permissions,
or else when there is a size and the month is too long. -/
theorem fileParse_outside_iff : fileParse mktime line = .error .outside ↔
    fromWord 5 line ≠ [] ∧ ((fromWord 5 line).tail.count 44 < 3 ∨
      (wordAt 1 line).head?.any isDigit = true ∧ ∃ dm s,
        scanSInt (wordAt 2 line) = some (dm, 45 :: s) ∧ 3 < (s.takeWhile (· ≠ 45)).length) := by
  rw [fileParse, lineFields_eq]
  by_cases h5 : fromWord 5 line = []
  · rw [if_pos h5]
    exact iff_of_false (by simp [orError, bind, Except.bind]) fun h => h.1 h5
  rw [if_neg h5]
  obtain ⟨hlast, hcount⟩ := count_memoryFrom h5
  have hperm := v2dbPerm_eq hlast
  rw [hcount] at hperm
  simp only [orError, bind, Except.bind]
  by_cases hfew : (fromWord 5 line).tail.count 44 < 3
  · rw [if_pos hfew] at hperm
    rw [hperm]
    exact iff_of_true rfl ⟨h5, .inl hfew⟩
  rw [if_neg hfew] at hperm
  obtain ⟨n, hperm⟩ := hperm
  simp only [hperm]
  by_cases hsize : (wordAt 1 line).head?.any isDigit = true
  · have hsize' : v2dbSize (wordAt 1 line) = some (ulong (atoi (wordAt 1 line))) := if_pos hsize
    rw [← scanDate_outside_iff, ← v2dbTime_outside_iff mktime (wordAt 2 line) (wordAt 3 line)]
    simp only [hsize']
    cases v2dbTime mktime (wordAt 2 line) (wordAt 3 line) with
    | error e =>
      simp only [Except.error.injEq]
      exact ⟨fun h => ⟨h5, .inr ⟨hsize, h⟩⟩, fun h => (h.2.resolve_left hfew).2⟩
    | ok date =>
      refine iff_of_false ?_ fun h => absurd (h.2.resolve_left hfew).2 (by simp)
      cases fileType (wordAt 0 line) <;> simp [pure, Except.pure]
  · have hsize' : v2dbSize (wordAt 1 line) = none := if_neg hsize
    simp only [hsize']
    exact iff_of_false (by simp) (by rintro ⟨-, h | h⟩ <;> simp_all)

end

end Vms

/-! ### Both parsers -/

section

variable (cvtTime : ℕ → List UInt8 → List UInt8 → Option ℤ) (mktime : ℕ → ℤ → ℤ → ℤ → ℤ → Option ℤ)
  (prepDir : Option (List UInt8)) (leadingBlanks : ℤ) (line : List UInt8)

/-- A header or a file line is read within the line and the buffers. -/
structure StaysInside : Prop where
  unixDir : lineType line = .dirStart → splitDirAt line prepDir ≠ .error .outside
  unixFile : lineType line = .file → (fileParseAt cvtTime leadingBlanks line).2 ≠ .error .outside
  vmsDir : Vms.lineType line = .dirStart → Vms.splitDir line ≠ .error .outside
  vmsFile : Vms.lineType line = .file → Vms.fileParse mktime line ≠ .error .outside

/-- A header has at most 51 components; the name of a Unix file does not begin before the line; in
that of a VMS file, three commas follow the first character of the sixth word, and the month, which
is read after a size, has at most three characters. -/
structure LineFits : Prop where
  unixDir : lineType line = .dirStart → prepDir.toList.length + (dropSlash line).count 47 < 51
  unixFile : lineType line = .file → ¬BeforeLine leadingBlanks line
  vmsDir : Vms.lineType line = .dirStart → (Vms.bracketed line).count 46 < 50
  vmsPerm : Vms.lineType line = .file → Vms.fromWord 5 line ≠ [] →
    3 ≤ (Vms.fromWord 5 line).tail.count 44
  vmsDate : Vms.lineType line = .file → Vms.fromWord 5 line ≠ [] →
    (Vms.wordAt 1 line).head?.any isDigit = true → ∀ dm s,
      scanSInt (Vms.wordAt 2 line) = some (dm, 45 :: s) → (s.takeWhile (· ≠ 45)).length ≤ 3

variable {line}

theorem isFileLine_of_lineType (h : lineType line = .file) : isFileLine line = true := by
  rw [lineType] at h
  split at h
  next hfile => exact hfile
  next => split_ifs at h

theorem ne_nil_of_lineType (h : lineType line = .dirStart) : line ≠ [] := by
  rintro rfl
  exact absurd h (by decide)

theorem Vms.isDirStart_of_lineType (h : Vms.lineType line = .dirStart) :
    Vms.isDirStart line = true := by
  rw [Vms.lineType] at h
  split at h
  · simp at h
  split at h
  · simp at h
  split at h
  next hdir => exact hdir
  next => split_ifs at h

variable (line)

/-- The lines that both parsers read without leaving them. -/
theorem staysInside_iff : StaysInside cvtTime mktime prepDir leadingBlanks line ↔
    LineFits prepDir leadingBlanks line := by
  constructor
  · rintro ⟨hunixDir, hunixFile, hvmsDir, hvmsFile⟩
    have hfile : Vms.lineType line = .file → Vms.fromWord 5 line ≠ [] →
        3 ≤ (Vms.fromWord 5 line).tail.count 44 ∧
          ((Vms.wordAt 1 line).head?.any isDigit = true → ∀ dm s,
            scanSInt (Vms.wordAt 2 line) = some (dm, 45 :: s) → (s.takeWhile (· ≠ 45)).length ≤ 3) := by
      intro htype h5
      have hinside := hvmsFile htype
      rw [ne_eq, Vms.fileParse_outside_iff] at hinside
      refine ⟨?_, fun hsize dm s hscan => ?_⟩
      · by_contra hfew
        exact hinside ⟨h5, .inl (by omega)⟩
      · by_contra hlong
        exact hinside ⟨h5, .inr ⟨hsize, dm, s, hscan, by omega⟩⟩
    refine ⟨fun htype => ?_, fun htype => ?_, fun htype => ?_, fun htype h5 => (hfile htype h5).1,
      fun htype h5 => (hfile htype h5).2⟩
    · have hinside := hunixDir htype
      rw [ne_eq, splitDirAt_outside_iff (ne_nil_of_lineType htype)] at hinside
      omega
    · have hinside := hunixFile htype
      rwa [ne_eq, fileParseAt_outside_iff _ (isFileLine_of_lineType htype)] at hinside
    · have hinside := hvmsDir htype
      rw [ne_eq, Vms.splitDir_outside_iff (Vms.isDirStart_of_lineType htype)] at hinside
      omega
  · rintro ⟨hunixDir, hunixFile, hvmsDir, hvmsPerm, hvmsDate⟩
    refine ⟨fun htype => ?_, fun htype => ?_, fun htype => ?_, fun htype => ?_⟩
    · have hroom := hunixDir htype
      rw [ne_eq, splitDirAt_outside_iff (ne_nil_of_lineType htype)]
      omega
    · rw [ne_eq, fileParseAt_outside_iff _ (isFileLine_of_lineType htype)]
      exact hunixFile htype
    · have hroom := hvmsDir htype
      rw [ne_eq, Vms.splitDir_outside_iff (Vms.isDirStart_of_lineType htype)]
      omega
    · rw [ne_eq, Vms.fileParse_outside_iff]
      rintro ⟨h5, hfew | ⟨hsize, dm, s, hscan, hlong⟩⟩
      · exact absurd (hvmsPerm htype h5) (by omega)
      · exact absurd (hvmsDate htype h5 hsize dm s hscan) (by omega)

end

/-- The commas of the permissions are looked for behind the line. -/
theorem not_staysInside : ¬∀ cvtTime mktime prepDir leadingBlanks line,
    line.length < 512 → 0 ∉ line → StaysInside cvtTime mktime prepDir leadingBlanks line := by
  intro h
  have hinside := (h (fun _ _ _ => none) (fun _ _ _ _ _ => none) none 0
    (bytes "A.TXT;1 2 8-NOV-1989 17:05 NETINFO (RWED)") (by decide +kernel) (by decide +kernel)).vmsFile
    (by decide +kernel)
  exact hinside (by decide +kernel)

end Archie
