/-
The lines of a Unix listing (`anonftp/parse/unix.c`, `anonftp/parse/unix2.c`).

* `lineType` — what a line is, from the regular expressions of `S_init_parser`.
* `splitDir` — the components of the path in a directory header.
* `fileParse` — the entry that a file line is read as.
* `fileParse_text` — the name in a file line begins after the blanks that are taken away.
-/
import Archie.CText
import Mathlib.Data.FinEnum
import Mathlib.Data.List.Induction
import Mathlib.Data.Nat.Bitwise

namespace Archie

/-! ### The kinds of lines -/

/-- `L_BLANK` to `L_UNKNOWN`. -/
inductive LineType
  | blank
  | cont
  | dirStart
  | error
  | file
  | part
  | total
  | unread
  | unknown
  deriving DecidableEq, Repr

/-- A character of `WHITE_STR`. -/
def isGap (c : UInt8) : Bool := c == 32 || c == 9

/-- The sets of characters at the start of `S_FILE`. -/
def permRow : List (List UInt8) :=
  [bytes "-bcdlpsyDFL", bytes "-r", bytes "-w", bytes "-xsSl", bytes "-r", bytes "-w",
    bytes "-xsSl", bytes "-r", bytes "-w", bytes "-xtT"]

/-- The text after one character of each set. -/
def matchRow : List (List UInt8) → List UInt8 → Option (List UInt8)
  | [], s => some s
  | _ :: _, [] => none
  | set :: rows, c :: s => if c ∈ set then matchRow rows s else none

/-- `S_FILE`. -/
def isFileLine (line : List UInt8) : Bool :=
  match matchRow permRow line with
  | some (c :: _) => isGap c
  | _ => false

/-- The text after a leading `/`. -/
def dropSlash : List UInt8 → List UInt8
  | 47 :: s => s
  | s => s

/-- `S_DIR_START`: names between slashes, none of them empty, and a colon. -/
def isDirStart (line : List UInt8) : Bool :=
  (dropSlash line).getLast? == some 58 &&
    ((dropSlash line).dropLast.splitOn 47).all fun name => !name.isEmpty

/-- `S_TOTAL`. -/
def isTotalLine (line : List UInt8) : Bool :=
  line.take 5 == bytes "total" && (line.drop 5).head?.any isGap &&
    ((line.drop 5).dropWhile isGap).head?.any isDigit

/-- `S_UNREAD`. -/
def isUnreadLine (line : List UInt8) : Bool :=
  let s := line.dropWhile (!isGap ·)
  line.head?.any (!isGap ·) && s.head?.any isGap && s.dropWhile isGap == bytes "unreadable"

/-- `S_line_type`. -/
def lineType (line : List UInt8) : LineType :=
  if isFileLine line then .file
  else if line = [] then .blank
  else if isDirStart line then .dirStart
  else if isTotalLine line then .total
  else if isUnreadLine line then .unread
  else .unknown

/-! ### Directory headers -/

/-- `S_split_dir`.  The directory that is prepended is one component. -/
def splitDir (line : List UInt8) (prepDir : Option (List UInt8)) : Option (List (List UInt8)) :=
  let s := dropSlash line
  if s.getLast? = some 58 then some (prepDir.toList ++ s.dropLast.splitOn 47) else none

/-! ### File lines -/

/-- The string at the start of a piece of storage. -/
def cstr (s : List UInt8) : List UInt8 := s.takeWhile (· ≠ 0)

/-- `try_get_field`.  A pointer into the line is the text before it, as it has been overwritten,
and the text from it on; the field ends in a NUL where the blank after it was. -/
def tryGetField (p : List UInt8 × List UInt8) : Option (List UInt8 × List UInt8 × List UInt8) :=
  let s := p.2.dropWhile isGap
  let word := s.takeWhile (!isGap ·)
  match s.dropWhile (!isGap ·) with
  | [] => none
  | _ :: rest => some (word, p.1 ++ p.2.takeWhile isGap ++ word ++ [0], rest)

/-- The fields that are used later. -/
structure LineFields where
  perm : List UInt8
  size : List UInt8
  month : List UInt8
  day : List UInt8
  time : List UInt8
  deriving DecidableEq, Repr

/-- What is skipped after the first field of a device that follows the owner. -/
def deviceNumbers (group : List UInt8) (p : List UInt8 × List UInt8) :
    Option (List UInt8 × List UInt8) :=
  if group.getLast? = some 44 then (tryGetField p).map Prod.snd
  else if 44 ∈ group then some p
  else do
    let (major, p) ← tryGetField p
    -- a comma before the last character: the minor number is in this field too
    if 44 ∈ major.dropLast then some p else (tryGetField p).map Prod.snd

/-- The first character is that of a device. -/
def isDevice (perm : List UInt8) : Bool := perm.head? == some 98 || perm.head? == some 99

/-- The fields between the owner and the day: the size, the month, and what is left. -/
def sizeAndMonth (perm : List UInt8) (p : List UInt8 × List UInt8) :
    Option ((List UInt8 × List UInt8) × List UInt8 × List UInt8) := do
  let (group, p) ← tryGetField p
  if isDevice perm then
    let p ← deviceNumbers group p
    let (month, p) ← tryGetField p
    some ((bytes "0", month), p)
  else
    let (size, p) ← tryGetField p
    -- without a group, the two fields were the size and the month
    if size.head?.any isDigit then
      let (month, p) ← tryGetField p
      some ((size, month), p)
    else some ((group, size), p)

/-- The fields of a line, and the pointer after them. -/
def lineFields (line : List UInt8) : Option (LineFields × List UInt8 × List UInt8) := do
  let (perm, p) ← tryGetField ([], line)
  let (_, p) ← tryGetField p
  let (_, p) ← tryGetField p
  let ((size, month), p) ← sizeAndMonth perm p
  let (day, p) ← tryGetField p
  let (time, p) ← tryGetField p
  some (⟨perm, size, month, day, time⟩, p)

/-- The text before the first ` -> `. -/
def beforeArrow : List UInt8 → List UInt8
  | [] => []
  | c :: s => if bytes " -> " <+: c :: s then [] else c :: beforeArrow s

/-- `u2db_perm`: the nine bits of the permissions. -/
def u2dbPerm (v : List UInt8) : Option ℕ :=
  let bits := (v.drop 1).take 9
  if bits.length = 9 ∧ ∀ c ∈ bits, c ∈ bytes "rwxtslST-" then
    some (bits.foldl (fun n c => 2 * n + if c = 45 then 0 else 1) 0)
  else none

/-- `u2db_size`. -/
def u2dbSize (v : List UInt8) : Option ℕ := if v.head?.any isDigit then some (ulong (atoi v)) else none

/-- `months`. -/
def monthNames : List (List UInt8) :=
  [bytes "Jan", bytes "Feb", bytes "Mar", bytes "Apr", bytes "May", bytes "Jun", bytes "Jul",
    bytes "Aug", bytes "Sep", bytes "Oct", bytes "Nov", bytes "Dec"]

/-- What `S_file_parse` returns and stores. -/
structure FileEntry where
  name : List UInt8
  slen : ℕ
  isDir : Bool
  size : ℕ
  date : ℤ
  perms : ℕ
  deriving DecidableEq, Repr

/-- `S_file_type`. -/
def fileType (perm : List UInt8) : Bool := perm.head? == some 100 || perm.head? == some 68

section

-- what `u2db_time` makes of a month, a day, and a time or year, at the moment of the parse
variable (cvtTime : ℕ → List UInt8 → List UInt8 → Option ℤ)

/-- `u2db_time`. -/
def u2dbTime (mon day tY : List UInt8) : Option ℤ := do
  let m ← monthNames.findIdx? (· == mon)
  cvtTime m day tY

/-- The conversions of `S_file_parse`, for the text where the name begins. -/
def fileEntry (f : LineFields) (text : List UInt8) : Option FileEntry :=
  if text = [] then none
  else do
    let perms ← u2dbPerm f.perm
    let size ← u2dbSize f.size
    let date ← u2dbTime cvtTime f.month f.day f.time
    let name := if f.perm.head? = some 108 then beforeArrow text else text
    some {
      name
      slen := name.length
      isDir := fileType f.perm
      size
      date
      perms }

/-- `S_file_parse`, with `leading_blanks` before and after. -/
def fileParse (leadingBlanks : ℤ) (line : List UInt8) : ℤ × Option FileEntry :=
  match lineFields line with
  | none => (leadingBlanks, none)
  | some (f, p) =>
    let numBlanks : ℤ := (p.2.takeWhile isGap).length
    if numBlanks < leadingBlanks then (numBlanks, none)
    else
      let blanks := if leadingBlanks = -1 then numBlanks else leadingBlanks
      -- a count that `set_blanks` has made negative points into the fields
      (blanks, fileEntry cvtTime f (cstr ((p.1 ++ p.2).drop (p.1.length + blanks).toNat)))

end

/-- `set_blanks`. -/
def setBlanks (leadingBlanks num : ℤ) : ℤ :=
  if leadingBlanks = -1 then leadingBlanks else leadingBlanks - num

/-! ### The lines of `ls -l` -/

/-- A field, and the blanks after it. -/
structure LsField where
  word : List UInt8
  gap : List UInt8
  word_ne_nil : word ≠ []
  word_notGap : ∀ c ∈ word, isGap c = false
  gap_ne_nil : gap ≠ []
  gap_isGap : ∀ c ∈ gap, isGap c = true

namespace LsField

def text (f : LsField) : List UInt8 := f.word ++ f.gap

/-- A field is read with one of the blanks after it. -/
theorem tryGetField_text (f : LsField) (before : List UInt8) {blanks : List UInt8}
    (hblanks : ∀ c ∈ blanks, isGap c = true) (rest : List UInt8) :
    tryGetField (before, blanks ++ f.text ++ rest) =
      some (f.word, before ++ blanks ++ f.word ++ [0], f.gap.tail ++ rest) := by
  obtain ⟨word, gap, hne, hword, hgap, hgaps⟩ := f
  obtain ⟨g, gs, rfl⟩ := List.exists_cons_of_ne_nil hgap
  obtain ⟨w, ws, rfl⟩ := List.exists_cons_of_ne_nil hne
  have hw : isGap w = false := hword w (by simp)
  have hg : isGap g = true := hgaps g (by simp)
  have hall : ∀ c ∈ w :: ws, (!isGap c) = true := by
    intro c hc
    rw [hword c hc]
    rfl
  have hdrop : (blanks ++ (w :: ws ++ g :: gs) ++ rest).dropWhile isGap =
      w :: ws ++ (g :: gs ++ rest) := by
    rw [List.append_assoc, List.dropWhile_append_of_pos hblanks, List.append_assoc,
      List.cons_append, List.dropWhile_cons_of_neg (by simp [hw])]
  have htake : (blanks ++ (w :: ws ++ g :: gs) ++ rest).takeWhile isGap = blanks := by
    rw [List.append_assoc, List.takeWhile_append_of_pos hblanks, List.append_assoc,
      List.cons_append, List.takeWhile_cons_of_neg (by simp [hw]), List.append_nil]
  simp only [tryGetField, text]
  rw [hdrop, htake, List.dropWhile_append_of_pos hall, List.takeWhile_append_of_pos hall,
    List.cons_append, List.dropWhile_cons_of_neg (by simp [hg]),
    List.takeWhile_cons_of_neg (by simp [hg]), List.append_nil]
  rfl

theorem gap_tail_isGap (f : LsField) : ∀ c ∈ f.gap.tail, isGap c = true :=
  fun c hc => f.gap_isGap c (List.mem_of_mem_tail hc)

/-- A pointer moves over the fields that it is before. -/
theorem exists_tryGetField (before : List UInt8) {blanks : List UInt8}
    (hblanks : ∀ c ∈ blanks, isGap c = true) (f : LsField) (fs : List LsField) (rest : List UInt8) :
    ∃ before', tryGetField (before, blanks ++ (f :: fs).flatMap text ++ rest) =
      some (f.word, before', f.gap.tail ++ fs.flatMap text ++ rest) := by
  refine ⟨before ++ blanks ++ f.word ++ [0], ?_⟩
  have h := tryGetField_text f before hblanks (fs.flatMap text ++ rest)
  simpa only [List.flatMap_cons, List.append_assoc] using h

end LsField

/-- A row of digits. -/
def IsDecimal (w : List UInt8) : Prop := w ≠ [] ∧ ∀ c ∈ w, isDigit c = true

instance (w : List UInt8) : Decidable (IsDecimal w) := inferInstanceAs (Decidable (_ ∧ _))

/-- The fields between the owner and the month: a size or, for a device, two numbers, in one field
or in two, with a group before them or without. -/
inductive SizeFields
  | size (size : LsField)
  | groupSize (group size : LsField)
  | device (major minor : LsField)
  | joined (numbers : LsField)
  | groupDevice (group major minor : LsField)
  | groupJoined (group numbers : LsField)

namespace SizeFields

def fields : SizeFields → List LsField
  | size s => [s]
  | groupSize g s => [g, s]
  | device major minor => [major, minor]
  | joined numbers => [numbers]
  | groupDevice g major minor => [g, major, minor]
  | groupJoined g numbers => [g, numbers]

def isDevice : SizeFields → Bool
  | size _ | groupSize _ _ => false
  | _ => true

/-- The size that is stored for the line. -/
def sizeText : SizeFields → List UInt8
  | size s | groupSize _ s => s.word
  | _ => bytes "0"

/-- A size is a number, and the comma is attached to the major number. -/
def Written : SizeFields → Prop
  | size s | groupSize _ s => IsDecimal s.word
  | device major minor | groupDevice _ major minor =>
    (∃ n, IsDecimal n ∧ major.word = n ++ [44]) ∧ IsDecimal minor.word
  | joined numbers | groupJoined _ numbers =>
    ∃ n m, IsDecimal n ∧ IsDecimal m ∧ numbers.word = n ++ 44 :: m

/-- The group of a device is not taken for the numbers. -/
def GroupTold : SizeFields → Prop
  | groupDevice g _ _ => 44 ∉ g.word
  -- a group that ends in a comma is taken for the major number, and the numbers for the minor one
  | groupJoined g _ => 44 ∈ g.word → g.word.getLast? = some 44
  | _ => True

theorem notMem_of_isDecimal {n : List UInt8} (hn : IsDecimal n) : (44 : UInt8) ∉ n :=
  fun h => absurd (hn.2 44 h) (by decide)

theorem major_word {w : List UInt8} (h : ∃ n, IsDecimal n ∧ w = n ++ [44]) :
    w.getLast? = some 44 ∧ (44 : UInt8) ∉ w.dropLast := by
  obtain ⟨n, hn, rfl⟩ := h
  exact ⟨by simp, by simpa using notMem_of_isDecimal hn⟩

theorem joined_word {w : List UInt8} (h : ∃ n m, IsDecimal n ∧ IsDecimal m ∧ w = n ++ 44 :: m) :
    w.getLast? ≠ some 44 ∧ (44 : UInt8) ∈ w ∧ (44 : UInt8) ∈ w.dropLast := by
  obtain ⟨n, m, hn, hm, rfl⟩ := h
  have hlast : (n ++ 44 :: m).getLast? = m.getLast? := by
    obtain ⟨ms, c, rfl⟩ := (List.eq_nil_or_concat m).resolve_left hm.1
    rw [List.concat_eq_append, ← List.cons_append, ← List.append_assoc, List.getLast?_concat, List.getLast?_concat]
  refine ⟨?_, by simp, ?_⟩
  · rw [hlast]
    exact fun h => notMem_of_isDecimal hm (List.mem_of_getLast? h)
  · rw [List.dropLast_append_of_ne_nil (by simp), List.dropLast_cons_of_ne_nil hm.1]
    simp

theorem not_getLast_of_notMem {g : List UInt8} (hg : (44 : UInt8) ∉ g) : ¬g.getLast? = some 44 :=
  fun h => hg (List.mem_of_getLast? h)

theorem head_isDigit {w : List UInt8} (h : IsDecimal w) : w.head?.any isDigit = true := by
  obtain ⟨c, s, rfl⟩ := List.exists_cons_of_ne_nil h.1
  simpa using h.2 c (by simp)

variable {perm : List UInt8} {month : LsField} {blanks : List UInt8}

/-- The size and the month of a line whose group is told from the numbers. -/
theorem sizeAndMonth_of_groupTold {m : SizeFields} (hm : m.Written) (htold : m.GroupTold)
    (hdevice : m.isDevice = Archie.isDevice perm)
    (hmonth : month.word.head?.any isDigit = false) (hblanks : ∀ c ∈ blanks, isGap c = true)
    (fs : List LsField) (before rest : List UInt8) :
    ∃ before', sizeAndMonth perm
        (before, blanks ++ (m.fields ++ month :: fs).flatMap LsField.text ++ rest) =
      some ((m.sizeText, month.word), before',
        month.gap.tail ++ fs.flatMap LsField.text ++ rest) := by
  -- each case is a chain of fields, the month the last one
  cases m with
  | size s =>
    obtain ⟨b₁, h₁⟩ := LsField.exists_tryGetField before hblanks s (month :: fs) rest
    obtain ⟨b₂, h₂⟩ := LsField.exists_tryGetField b₁ s.gap_tail_isGap month fs rest
    refine ⟨b₂, ?_⟩
    simp only [sizeAndMonth, ← hdevice, fields, List.cons_append, List.nil_append, h₁, h₂,
      Option.bind_eq_bind, Option.bind_some]
    simp [isDevice, hmonth, sizeText]
  | groupSize g s =>
    obtain ⟨b₁, h₁⟩ := LsField.exists_tryGetField before hblanks g (s :: month :: fs) rest
    obtain ⟨b₂, h₂⟩ := LsField.exists_tryGetField b₁ g.gap_tail_isGap s (month :: fs) rest
    obtain ⟨b₃, h₃⟩ := LsField.exists_tryGetField b₂ s.gap_tail_isGap month fs rest
    refine ⟨b₃, ?_⟩
    simp only [sizeAndMonth, ← hdevice, fields, List.cons_append, List.nil_append, h₁, h₂, h₃,
      Option.bind_eq_bind, Option.bind_some]
    simp [isDevice, head_isDigit hm, sizeText]
  | device major minor =>
    obtain ⟨b₁, h₁⟩ := LsField.exists_tryGetField before hblanks major (minor :: month :: fs) rest
    obtain ⟨b₂, h₂⟩ := LsField.exists_tryGetField b₁ major.gap_tail_isGap minor (month :: fs) rest
    obtain ⟨b₃, h₃⟩ := LsField.exists_tryGetField b₂ minor.gap_tail_isGap month fs rest
    refine ⟨b₃, ?_⟩
    simp only [sizeAndMonth, ← hdevice, fields, List.cons_append, List.nil_append, h₁, h₂, h₃,
      Option.bind_eq_bind, Option.bind_some, deviceNumbers, if_pos (major_word hm.1).1,
      Option.map_some]
    simp only [isDevice, if_true, sizeText]
  | joined numbers =>
    obtain ⟨b₁, h₁⟩ := LsField.exists_tryGetField before hblanks numbers (month :: fs) rest
    obtain ⟨b₂, h₂⟩ := LsField.exists_tryGetField b₁ numbers.gap_tail_isGap month fs rest
    obtain ⟨hlast, hmem, -⟩ := joined_word hm
    refine ⟨b₂, ?_⟩
    simp only [sizeAndMonth, ← hdevice, fields, List.cons_append, List.nil_append, h₁,
      Option.bind_eq_bind, Option.bind_some, deviceNumbers, if_neg hlast, if_pos hmem, h₂]
    simp [isDevice, sizeText]
  | groupDevice g major minor =>
    obtain ⟨b₁, h₁⟩ := LsField.exists_tryGetField before hblanks g (major :: minor :: month :: fs) rest
    obtain ⟨b₂, h₂⟩ := LsField.exists_tryGetField b₁ g.gap_tail_isGap major (minor :: month :: fs) rest
    obtain ⟨b₃, h₃⟩ := LsField.exists_tryGetField b₂ major.gap_tail_isGap minor (month :: fs) rest
    obtain ⟨b₄, h₄⟩ := LsField.exists_tryGetField b₃ minor.gap_tail_isGap month fs rest
    have hg : (44 : UInt8) ∉ g.word := htold
    refine ⟨b₄, ?_⟩
    simp only [sizeAndMonth, ← hdevice, fields, List.cons_append, List.nil_append, h₁,
      Option.bind_eq_bind, Option.bind_some, deviceNumbers, if_neg (not_getLast_of_notMem hg),
      if_neg hg, h₂, if_neg (major_word hm.1).2, h₃, Option.map_some, h₄]
    simp [isDevice, sizeText]
  | groupJoined g numbers =>
    obtain ⟨b₁, h₁⟩ := LsField.exists_tryGetField before hblanks g (numbers :: month :: fs) rest
    obtain ⟨b₂, h₂⟩ := LsField.exists_tryGetField b₁ g.gap_tail_isGap numbers (month :: fs) rest
    obtain ⟨b₃, h₃⟩ := LsField.exists_tryGetField b₂ numbers.gap_tail_isGap month fs rest
    refine ⟨b₃, ?_⟩
    simp only [sizeAndMonth, ← hdevice, fields, List.cons_append, List.nil_append, h₁,
      Option.bind_eq_bind, Option.bind_some, deviceNumbers]
    by_cases hg : (44 : UInt8) ∈ g.word
    · simp only [if_pos (htold hg), h₂, Option.map_some, Option.bind_some, h₃]
      simp [isDevice, sizeText]
    · simp only [if_neg (not_getLast_of_notMem hg), if_neg hg, h₂, Option.bind_some,
        if_pos (joined_word hm).2.2, h₃]
      simp [isDevice, sizeText]

theorem notMem_monthNames {w : List UInt8} (h : w.head?.any isDigit = true) : w ∉ monthNames := by
  have hall : ∀ v ∈ monthNames, v.head?.any isDigit = false := by decide +kernel
  intro hw
  rw [hall w hw] at h
  exact Bool.false_ne_true h

/-- A number is taken for the month. -/
theorem sizeAndMonth_of_not_groupTold {m : SizeFields} (hm : m.Written) (htold : ¬m.GroupTold)
    (hdevice : m.isDevice = Archie.isDevice perm) (hblanks : ∀ c ∈ blanks, isGap c = true)
    (fs : List LsField) (before rest : List UInt8) :
    ∃ w p, sizeAndMonth perm
        (before, blanks ++ (m.fields ++ month :: fs).flatMap LsField.text ++ rest) =
      some ((bytes "0", w), p) ∧ w ∉ monthNames := by
  cases m with
  | size s => exact absurd trivial htold
  | groupSize g s => exact absurd trivial htold
  | device major minor => exact absurd trivial htold
  | joined numbers => exact absurd trivial htold
  | groupDevice g major minor =>
    obtain ⟨b₁, h₁⟩ := LsField.exists_tryGetField before hblanks g (major :: minor :: month :: fs) rest
    obtain ⟨b₂, h₂⟩ := LsField.exists_tryGetField b₁ g.gap_tail_isGap major (minor :: month :: fs) rest
    obtain ⟨b₃, h₃⟩ := LsField.exists_tryGetField b₂ major.gap_tail_isGap minor (month :: fs) rest
    have hg : (44 : UInt8) ∈ g.word := not_not.mp htold
    have hmajor : major.word.head?.any isDigit = true := by
      obtain ⟨⟨n, hn, hw⟩, -⟩ := hm
      obtain ⟨c, s, rfl⟩ := List.exists_cons_of_ne_nil hn.1
      rw [hw]
      simpa using hn.2 c (by simp)
    by_cases hlast : g.word.getLast? = some 44
    · refine ⟨minor.word, (b₃, minor.gap.tail ++ (month :: fs).flatMap LsField.text ++ rest), ?_,
        notMem_monthNames (head_isDigit hm.2)⟩
      simp only [sizeAndMonth, ← hdevice, fields, List.cons_append, List.nil_append, h₁,
        Option.bind_eq_bind, Option.bind_some, deviceNumbers, if_pos hlast, h₂, Option.map_some, h₃,
        isDevice, if_true]
    · refine ⟨major.word, (b₂, major.gap.tail ++ (minor :: month :: fs).flatMap LsField.text ++ rest),
        ?_, notMem_monthNames hmajor⟩
      simp only [sizeAndMonth, ← hdevice, fields, List.cons_append, List.nil_append, h₁,
        Option.bind_eq_bind, Option.bind_some, deviceNumbers, if_neg hlast, if_pos hg, h₂,
        isDevice, if_true]
  | groupJoined g numbers =>
    obtain ⟨b₁, h₁⟩ := LsField.exists_tryGetField before hblanks g (numbers :: month :: fs) rest
    obtain ⟨b₂, h₂⟩ := LsField.exists_tryGetField b₁ g.gap_tail_isGap numbers (month :: fs) rest
    obtain ⟨hg, hlast⟩ := Classical.not_imp.mp htold
    have hnumbers : numbers.word.head?.any isDigit = true := by
      obtain ⟨n, k, hn, -, hw⟩ := hm
      obtain ⟨c, s, rfl⟩ := List.exists_cons_of_ne_nil hn.1
      rw [hw]
      simpa using hn.2 c (by simp)
    refine ⟨numbers.word, (b₂, numbers.gap.tail ++ (month :: fs).flatMap LsField.text ++ rest), ?_,
      notMem_monthNames hnumbers⟩
    simp only [sizeAndMonth, ← hdevice, fields, List.cons_append, List.nil_append, h₁,
      Option.bind_eq_bind, Option.bind_some, deviceNumbers, if_neg hlast, if_pos hg, h₂,
      isDevice, if_true]

end SizeFields

/-! ### Permissions and sizes -/

/-- `u2db_perm` puts the bits together from the first one. -/
theorem testBit_foldl_bits (l : List UInt8) :
    l.foldl (fun n c => 2 * n + if c = 45 then 0 else 1) 0 < 2 ^ l.length ∧
      ∀ i, (l.foldl (fun n c => 2 * n + if c = 45 then 0 else 1) 0).testBit i =
        (l.reverse[i]?).any (· != 45) := by
  induction l using List.reverseRecOn with
  | nil => simp
  | append_singleton l c ih =>
    obtain ⟨hlt, hbits⟩ := ih
    rw [List.foldl_append, List.foldl_cons, List.foldl_nil, List.length_append,
      List.length_singleton, pow_succ, List.reverse_append, List.reverse_singleton,
      List.singleton_append]
    constructor
    · split <;> omega
    · rintro (_ | i)
      · by_cases hc : c = 45 <;> simp [hc, Nat.testBit_zero]
      · rw [List.getElem?_cons_succ, ← hbits, Nat.testBit_succ]
        congr 1
        split <;> omega

theorem length_of_matchRow {rows : List (List UInt8)} {w : List UInt8} (h : matchRow rows w = some []) :
    w.length = rows.length ∧
      ∀ (i : ℕ) (c : UInt8) (set : List UInt8), w[i]? = some c → rows[i]? = some set → c ∈ set := by
  induction rows generalizing w with
  | nil =>
    obtain rfl : w = [] := Option.some.inj h
    simp
  | cons set rows ih =>
    cases w with
    | nil => simp [matchRow] at h
    | cons c w =>
      rw [matchRow] at h
      split at h
      next hc =>
        obtain ⟨hlen, hall⟩ := ih h
        refine ⟨by rw [List.length_cons, List.length_cons, hlen], ?_⟩
        rintro (_ | i)
        · intro c' set' hc' hset'
          obtain rfl := Option.some.inj hc'
          obtain rfl := Option.some.inj hset'
          exact hc
        · exact hall i
      next => exact absurd h (by simp)

/-- The nine bits of a permission field. -/
theorem u2dbPerm_of_matchRow {w : List UInt8} (h : matchRow permRow w = some []) :
    ∃ n, u2dbPerm w = some n ∧ n < 512 ∧ ∀ i < 9, n.testBit i = (w[9 - i]?).any (· != 45) := by
  obtain ⟨hlen, hall⟩ := length_of_matchRow h
  have hlen : w.length = 10 := hlen
  have hbits : ((w.drop 1).take 9).length = 9 := by simp [hlen]
  have hset : ∀ set ∈ permRow.drop 1, ∀ c ∈ set, c ∈ bytes "rwxtslST-" := by decide +kernel
  have hmem : ∀ c ∈ (w.drop 1).take 9, c ∈ bytes "rwxtslST-" := by
    intro c hc
    obtain ⟨i, hi, rfl⟩ := List.mem_iff_getElem.mp hc
    rw [hbits] at hi
    have hrow : 1 + i < permRow.length := by
      show 1 + i < 10
      omega
    have hget : (permRow.drop 1)[i]? = some permRow[1 + i] := by
      rw [List.getElem?_drop, List.getElem?_eq_getElem hrow]
    refine hset _ (List.mem_of_getElem? hget) _
      (hall (1 + i) _ _ ?_ (List.getElem?_eq_getElem hrow))
    rw [List.getElem_take, List.getElem_drop]
    exact List.getElem?_eq_getElem _
  refine ⟨_, if_pos ⟨hbits, hmem⟩, ?_, ?_⟩
  · have hlt := (testBit_foldl_bits ((w.drop 1).take 9)).1
    rw [hbits] at hlt
    exact hlt
  · intro i hi
    rw [(testBit_foldl_bits ((w.drop 1).take 9)).2, List.getElem?_reverse (by omega), hbits,
      List.getElem?_take_of_lt (by omega), List.getElem?_drop]
    congr 2
    omega

theorem takeWhile_isDecimal {w : List UInt8} (hw : IsDecimal w) :
    w.takeWhile isDigit = w := List.takeWhile_eq_self_iff.mpr hw.2

/-- `atoi` of a row of digits. -/
theorem atoi_of_isDecimal {w : List UInt8} (hw : IsDecimal w) :
    atoi w = min (2 ^ 31 - 1) (digitsValue w : ℤ) := by
  obtain ⟨c, s, hcs⟩ := List.exists_cons_of_ne_nil hw.1
  obtain ⟨hsp, hm, hp, -⟩ := not_isSpace_of_isDigit (hw.2 c (by rw [hcs]; exact List.mem_cons_self))
  have hhead : w.head? = some c := by rw [hcs, List.head?_cons]
  have hscan : scanNumber w = some ((false, digitsValue w), w.dropWhile isDigit) := by
    rw [scanNumber, dropWhile_isSpace_of_head hsp hcs]
    simp only [hhead, Option.some.injEq, hm, hp, or_self, if_false, takeWhile_isDecimal hw, hw.1]
    rw [show (some c == some (45 : UInt8)) = false from beq_eq_false_iff_ne.mpr
      (fun h => hm (Option.some.inj h))]
  rw [atoi, scanSInt, hscan]
  rfl

/-- `u2db_size` of a row of digits. -/
theorem u2dbSize_of_isDecimal {w : List UInt8} (hw : IsDecimal w) :
    u2dbSize w = some (min (2 ^ 31 - 1) (digitsValue w)) := by
  rw [u2dbSize, if_pos (SizeFields.head_isDigit hw), atoi_of_isDecimal hw]
  congr 1
  rw [ulong]
  omega

/-! ### Lines -/

/-- The fields that `ls -l` writes before a name. -/
structure LsFields where
  perm : LsField
  links : LsField
  owner : LsField
  middle : SizeFields
  month : LsField
  day : LsField
  time : LsField
  matchRow_perm : matchRow permRow perm.word = some []
  isDevice_middle : middle.isDevice = isDevice perm.word
  written : middle.Written

namespace LsFields

/-- The text before the blanks that stand before the name: one blank ends the last field. -/
def text (f : LsFields) : List UInt8 :=
  (f.perm :: f.links :: f.owner :: (f.middle.fields ++ f.month :: [f.day, f.time])).flatMap LsField.text

/-- The blanks before the name, without the one that ends the last field. -/
def blanks (f : LsFields) : List UInt8 := f.time.gap.tail

/-- The number that is written for the size. -/
def size (f : LsFields) : ℕ := digitsValue f.middle.sizeText

/-- A symbolic link. -/
def isLink (f : LsFields) : Bool := f.perm.word.head? == some 108

variable (f : LsFields)

/-- The fields up to the size are read. -/
theorem lineFields_text (rest : List UInt8) :
    ∃ before, lineFields (f.text ++ rest) = (do
      let ((size, month), p) ← sizeAndMonth f.perm.word (before, f.owner.gap.tail ++
        (f.middle.fields ++ f.month :: [f.day, f.time]).flatMap LsField.text ++ rest)
      let (day, p) ← tryGetField p
      let (time, p) ← tryGetField p
      some (⟨f.perm.word, size, month, day, time⟩, p)) := by
  have hnil : ∀ c ∈ ([] : List UInt8), isGap c = true := by simp
  obtain ⟨b₁, h₁⟩ := LsField.exists_tryGetField [] hnil f.perm
    (f.links :: f.owner :: (f.middle.fields ++ f.month :: [f.day, f.time])) rest
  obtain ⟨b₂, h₂⟩ := LsField.exists_tryGetField b₁ f.perm.gap_tail_isGap f.links
    (f.owner :: (f.middle.fields ++ f.month :: [f.day, f.time])) rest
  obtain ⟨b₃, h₃⟩ := LsField.exists_tryGetField b₂ f.links.gap_tail_isGap f.owner
    (f.middle.fields ++ f.month :: [f.day, f.time]) rest
  refine ⟨b₃, ?_⟩
  rw [List.nil_append] at h₁
  simp only [lineFields, text, h₁, h₂, h₃, Option.bind_eq_bind, Option.bind_some]

/-- The fields of a line whose group is told from the numbers. -/
theorem lineFields_of_groupTold (htold : f.middle.GroupTold)
    (hmonth : f.month.word.head?.any isDigit = false) (rest : List UInt8) :
    ∃ before, lineFields (f.text ++ rest) =
      some (⟨f.perm.word, f.middle.sizeText, f.month.word, f.day.word, f.time.word⟩,
        before, f.blanks ++ rest) := by
  obtain ⟨b₁, h₁⟩ := f.lineFields_text rest
  obtain ⟨b₂, h₂⟩ := SizeFields.sizeAndMonth_of_groupTold f.written htold f.isDevice_middle hmonth
    f.owner.gap_tail_isGap [f.day, f.time] b₁ rest
  obtain ⟨b₃, h₃⟩ := LsField.exists_tryGetField b₂ f.month.gap_tail_isGap f.day [f.time] rest
  obtain ⟨b₄, h₄⟩ := LsField.exists_tryGetField b₃ f.day.gap_tail_isGap f.time [] rest
  refine ⟨b₄, ?_⟩
  rw [h₁, h₂]
  simp only [Option.bind_eq_bind, Option.bind_some, h₃, h₄, blanks, List.flatMap_nil, List.append_nil]

/-- Without it, the line has no month. -/
theorem notMem_monthNames_of_not_groupTold (htold : ¬f.middle.GroupTold) {rest : List UInt8}
    {F : LineFields} {p : List UInt8 × List UInt8} (h : lineFields (f.text ++ rest) = some (F, p)) :
    F.month ∉ monthNames := by
  obtain ⟨b₁, h₁⟩ := f.lineFields_text rest
  obtain ⟨w, q, h₂, hw⟩ := SizeFields.sizeAndMonth_of_not_groupTold f.written htold
    f.isDevice_middle f.owner.gap_tail_isGap [f.day, f.time] b₁ rest
  rw [h₁, h₂] at h
  simp only [Option.bind_eq_bind, Option.bind_some, Option.bind_eq_some_iff, Option.some.injEq,
    Prod.mk.injEq] at h
  obtain ⟨d, -, t, -, rfl, -⟩ := h
  exact hw

end LsFields

/-- `t` is the text before the first ` -> ` of `s`. -/
def CutAt (s t : List UInt8) : Prop :=
  (∃ rest, s = t ++ bytes " -> " ++ rest) ∧ ∀ n < t.length, ¬bytes " -> " <+: s.drop n

theorem cutAt_beforeArrow (s rest : List UInt8) :
    CutAt (s ++ bytes " -> " ++ rest) (beforeArrow (s ++ bytes " -> " ++ rest)) := by
  induction s with
  | nil =>
    have hnil : beforeArrow ([] ++ bytes " -> " ++ rest) = [] := by
      have hcons : [] ++ bytes " -> " ++ rest = 32 :: ([45, 62, 32] ++ rest) := rfl
      rw [hcons, beforeArrow, if_pos ⟨rest, rfl⟩]
    rw [hnil]
    exact ⟨⟨rest, rfl⟩, by simp⟩
  | cons c s ih =>
    obtain ⟨⟨rest', hrest⟩, hfirst⟩ := ih
    rw [List.cons_append, List.cons_append, beforeArrow]
    split
    next hc =>
      obtain ⟨t, ht⟩ := hc
      exact ⟨⟨t, ht.symm⟩, by simp⟩
    next hc =>
      refine ⟨⟨rest', by rw [List.cons_append, List.cons_append, ← hrest]⟩, ?_⟩
      rintro (_ | n) hn
      · exact hc
      · exact hfirst n (by simpa using hn)

theorem cstr_of_notMem {s : List UInt8} (h : 0 ∉ s) : cstr s = s :=
  List.takeWhile_eq_self_iff.mpr fun c hc => by
    rw [decide_eq_true_iff]
    rintro rfl
    exact h hc

namespace LsFields

variable (f : LsFields) (cvtTime : ℕ → List UInt8 → List UInt8 → Option ℤ)

/-- The text that follows the fields of a line. -/
def shown (name target : List UInt8) : List UInt8 :=
  name ++ if f.isLink then bytes " -> " ++ target else []

/-- The line is read as the entry that it is for, with `k` blanks taken away. -/
def ReadBack (k : ℕ) (name target : List UInt8) (date : ℤ) : Prop :=
  ∃ e : FileEntry, fileParse cvtTime k (f.text ++ f.shown name target) = ((k : ℤ), some e) ∧
    (if f.isLink then CutAt (f.blanks.drop k ++ f.shown name target) e.name
      else e.name = f.blanks.drop k ++ name) ∧
    e.slen = e.name.length ∧ e.size = f.size ∧ e.date = date ∧
    e.isDir = fileType f.perm.word ∧
    e.perms < 512 ∧ ∀ i < 9, e.perms.testBit i = (f.perm.word[9 - i]?).any (· != 45)

variable {f}

/-- The name begins after the blanks that are taken away. -/
theorem fileParse_text {F : LineFields} {before rest : List UInt8}
    (h : lineFields (f.text ++ rest) = some (F, before, f.blanks ++ rest)) (hrest : 0 ∉ rest)
    {k : ℕ} (hk : k ≤ f.blanks.length) :
    fileParse cvtTime k (f.text ++ rest) =
      ((k : ℤ), fileEntry cvtTime F (f.blanks.drop k ++ rest)) := by
  have hcount : k ≤ ((f.blanks ++ rest).takeWhile isGap).length := by
    rw [List.takeWhile_append_of_pos (show ∀ c ∈ f.blanks, isGap c = true from
      f.time.gap_tail_isGap), List.length_append]
    omega
  have hdrop : (before ++ (f.blanks ++ rest)).drop ((before.length : ℤ) + (k : ℤ)).toNat =
      f.blanks.drop k ++ rest := by
    rw [show ((before.length : ℤ) + (k : ℤ)).toNat = before.length + k by omega,
      ← List.drop_drop, List.drop_left, List.drop_append_of_le_length hk]
  have hstr : 0 ∉ f.blanks.drop k ++ rest := by
    intro h0
    rcases List.mem_append.mp h0 with h0 | h0
    · exact absurd (f.time.gap_tail_isGap 0 (List.mem_of_mem_drop h0)) (by decide)
    · exact hrest h0
  rw [fileParse, h]
  simp only
  rw [if_neg (by omega), if_neg (by omega), hdrop, cstr_of_notMem hstr]

variable {cvtTime}

theorem size_eq : u2dbSize f.middle.sizeText = some (min (2 ^ 31 - 1) f.size) := by
  have hzero : IsDecimal (bytes "0") := ⟨by decide +kernel, by decide +kernel⟩
  rw [LsFields.size]
  have hwritten := f.written
  cases hm : f.middle with
  | size s => exact u2dbSize_of_isDecimal (by rw [hm] at hwritten; exact hwritten)
  | groupSize g s => exact u2dbSize_of_isDecimal (by rw [hm] at hwritten; exact hwritten)
  | device major minor => exact u2dbSize_of_isDecimal hzero
  | joined numbers => exact u2dbSize_of_isDecimal hzero
  | groupDevice g major minor => exact u2dbSize_of_isDecimal hzero
  | groupJoined g numbers => exact u2dbSize_of_isDecimal hzero

theorem isDigit_head_of_mem_monthNames {w : List UInt8} (hw : w ∈ monthNames) :
    w.head?.any isDigit = false := by
  have hall : ∀ v ∈ monthNames, v.head?.any isDigit = false := by decide +kernel
  exact hall w hw

theorem mem_monthNames_of_u2dbTime {mon day tY : List UInt8} {date : ℤ}
    (h : u2dbTime cvtTime mon day tY = some date) : mon ∈ monthNames := by
  simp only [u2dbTime, Option.bind_eq_bind, Option.bind_eq_some_iff] at h
  obtain ⟨m, hm, -⟩ := h
  obtain ⟨hlt, heq, -⟩ := List.findIdx?_eq_some_iff_getElem.mp hm
  rw [← eq_of_beq heq]
  exact List.getElem_mem hlt

/-- A line is read as it was written exactly if the group of a device is told from its numbers, and
the size is an `int`. -/
theorem readBack_iff (f : LsFields) {name target : List UInt8} (hname : 0 ∉ name)
    (htarget : 0 ∉ target) (hne : name ≠ []) {k : ℕ} (hk : k ≤ f.blanks.length) {date : ℤ}
    (hdate : u2dbTime cvtTime f.month.word f.day.word f.time.word = some date) :
    f.ReadBack cvtTime k name target date ↔ f.middle.GroupTold ∧ f.size < 2 ^ 31 := by
  have hmonth := mem_monthNames_of_u2dbTime hdate
  have hshown : 0 ∉ f.shown name target := by
    have harrow : (0 : UInt8) ∉ bytes " -> " := by decide +kernel
    rw [shown]
    split <;> simp [hname, htarget, harrow]
  obtain ⟨perms, hperm, hlt, hbits⟩ := u2dbPerm_of_matchRow f.matchRow_perm
  by_cases htold : f.middle.GroupTold
  · obtain ⟨before, hfields⟩ := f.lineFields_of_groupTold htold
      (isDigit_head_of_mem_monthNames hmonth) (f.shown name target)
    have hparse := fileParse_text cvtTime hfields hshown hk
    have htext : f.blanks.drop k ++ f.shown name target ≠ [] := by simp [shown, hne]
    have hentry : fileEntry cvtTime ⟨f.perm.word, f.middle.sizeText, f.month.word, f.day.word,
        f.time.word⟩ (f.blanks.drop k ++ f.shown name target) = some {
          name := if f.isLink then beforeArrow (f.blanks.drop k ++ f.shown name target)
            else f.blanks.drop k ++ f.shown name target
          slen := (if f.isLink then beforeArrow (f.blanks.drop k ++ f.shown name target)
            else f.blanks.drop k ++ f.shown name target).length
          isDir := fileType f.perm.word
          size := min (2 ^ 31 - 1) f.size
          date
          perms } := by
      rw [fileEntry, if_neg htext]
      simp [hperm, f.size_eq, hdate, isLink]
    rw [hentry] at hparse
    constructor
    · rintro ⟨e, he, -, -, hsize, -⟩
      rw [hparse] at he
      obtain rfl := Option.some.inj (Prod.mk.inj he).2
      have hsize : min (2 ^ 31 - 1) f.size = f.size := hsize
      exact ⟨htold, by omega⟩
    · rintro ⟨-, hsize⟩
      refine ⟨_, hparse, ?_, rfl, ?_, rfl, rfl, hlt, hbits⟩
      · by_cases hlink : f.isLink = true
        · simp only [if_pos hlink]
          have hcut := cutAt_beforeArrow (f.blanks.drop k ++ name) target
          have hshow : f.blanks.drop k ++ f.shown name target =
              f.blanks.drop k ++ name ++ bytes " -> " ++ target := by
            rw [shown, if_pos hlink, ← List.append_assoc, ← List.append_assoc]
          rw [hshow]
          exact hcut
        · simp [hlink, shown]
      · show min (2 ^ 31 - 1) f.size = f.size
        omega
  · constructor
    · rintro ⟨e, he, -⟩
      rw [fileParse] at he
      cases hfields : lineFields (f.text ++ f.shown name target) with
      | none => simp [hfields] at he
      | some F =>
        obtain ⟨F, p⟩ := F
        have hnot := f.notMem_monthNames_of_not_groupTold htold hfields
        have hnone : ∀ text, fileEntry cvtTime F text = none := by
          intro text
          have htime : u2dbTime cvtTime F.month F.day F.time = none := by
            cases h : u2dbTime cvtTime F.month F.day F.time with
            | none => rfl
            | some d => exact absurd (mem_monthNames_of_u2dbTime h) hnot
          simp [fileEntry, htime]
        simp only [hfields, hnone] at he
        split at he <;> simp at he
    · exact fun h => absurd h.1 htold

end LsFields

/-- The fields `-rw-r--r--  1 news     news` with a size, and `Jul 11  1991 `. -/
def newsFields (size : LsField) (hsize : IsDecimal size.word) : LsFields where
  perm := ⟨bytes "-rw-r--r--", bytes "  ", by decide +kernel, by decide +kernel, by decide +kernel,
    by decide +kernel⟩
  links := ⟨bytes "1", bytes " ", by decide +kernel, by decide +kernel, by decide +kernel,
    by decide +kernel⟩
  owner := ⟨bytes "news", bytes "     ", by decide +kernel, by decide +kernel, by decide +kernel,
    by decide +kernel⟩
  middle := .groupSize ⟨bytes "news", bytes "  ", by decide +kernel, by decide +kernel,
    by decide +kernel, by decide +kernel⟩ size
  month := ⟨bytes "Jul", bytes " ", by decide +kernel, by decide +kernel, by decide +kernel,
    by decide +kernel⟩
  day := ⟨bytes "11", bytes "  ", by decide +kernel, by decide +kernel, by decide +kernel,
    by decide +kernel⟩
  time := ⟨bytes "1991", bytes " ", by decide +kernel, by decide +kernel, by decide +kernel,
    by decide +kernel⟩
  matchRow_perm := by decide +kernel
  isDevice_middle := (by decide +kernel : false = isDevice (bytes "-rw-r--r--"))
  written := hsize

/-- A size of 12 bytes. -/
def smallSize : LsField :=
  ⟨bytes "12", bytes " ", by decide +kernel, by decide +kernel, by decide +kernel, by decide +kernel⟩

/-- A size of 3000000000 bytes. -/
def largeSize : LsField :=
  ⟨bytes "3000000000", bytes " ", by decide +kernel, by decide +kernel, by decide +kernel,
    by decide +kernel⟩

theorem readBack_iff_rhosts :
    (newsFields smallSize (by decide +kernel)).ReadBack (fun m _ _ => some (m : ℤ)) 0
      (bytes ".rhosts") [] 6 ↔
    (newsFields smallSize (by decide +kernel)).middle.GroupTold ∧
      (newsFields smallSize (by decide +kernel)).size < 2 ^ 31 :=
  LsFields.readBack_iff _ (by decide +kernel) (by decide +kernel) (by decide +kernel) (Nat.zero_le _)
    (by decide +kernel)

/-- A size of three thousand million bytes is stored as the largest `int`. -/
theorem not_readBack_large :
    u2dbTime (fun m _ _ => some (m : ℤ)) (bytes "Jul") (bytes "11") (bytes "1991") = some 6 ∧
      ¬(newsFields largeSize (by decide +kernel)).ReadBack (fun m _ _ => some (m : ℤ)) 0
        (bytes ".rhosts") [] 6 := by
  refine ⟨by decide +kernel, ?_⟩
  rintro ⟨e, he, -, -, hsize, -⟩
  have hentry : (fileParse (fun m _ _ => some (m : ℤ)) 0
      ((newsFields largeSize (by decide +kernel)).text ++
        (newsFields largeSize (by decide +kernel)).shown (bytes ".rhosts") [])).2.map
          FileEntry.size = some (2 ^ 31 - 1) := by decide +kernel
  have hwritten : (newsFields largeSize (by decide +kernel)).size = 3000000000 := by decide +kernel
  have hcast : ((0 : ℕ) : ℤ) = 0 := rfl
  rw [hcast] at he
  rw [he, Option.map_some, hsize, hwritten] at hentry
  exact absurd (Option.some.inj hentry) (by decide)

end Archie
