/-
The configuration of the exchange (`exchange/configfile.c`): a line for each archie
host, with the fields of its databases one after the other; the databases after the
first stand on continuation lines of their own.

The times of the last updates are kept as text of 14 digits; the conversions are
parameters here.

* `readAttribs_attribTexts` — the fields of the databases are read back.
* `configLoop_hostLines` — so is the line of a host, with its continuation lines.
* `readArupdateConfig_write` — the file that is written gives the configuration again,
  each host with its databases in the order of their names.
-/
import Archie.CText
import Archie.Unique

namespace Archie

/-! ### The configuration -/

/-- `udb_attrib_t`. -/
structure UdbAttrib where
  dbName : List UInt8
  domains : List UInt8
  maxno : ℤ
  perms : List UInt8
  updateFreq : ℕ
  updateTime : ℕ
  fails : ℤ
  deriving DecidableEq, Repr

/-- `udb_config_t`, without the failure count of the host, which is not in the file.
The arrays end where a name is empty. -/
structure UdbConfig where
  sourceArchieHostname : List UInt8
  dbAttrib : List UdbAttrib
  deriving DecidableEq, Repr

/-! ### Writing -/

/-- `timestring`: the frequency of the first database of a host. -/
def timestring (updateFreq : ℕ) : List UInt8 :=
  let mins := sint updateFreq
  let days := mins.tdiv (60 * 24)
  if days = 0 then
    let hours := mins.tdiv 60
    if hours = 0 then printSInt mins
    else if mins.tmod 60 = 0 then printSInt hours ++ bytes "h"
    else printSInt mins
  else if mins.tmod (60 * 24) = 0 then printSInt days ++ bytes "d"
  else printSInt mins

/-- The hours and the days of the frequency of another one. -/
def hoursDays (updateFreq : ℕ) : ℤ × ℤ :=
  let mins := sint updateFreq
  if mins.tdiv (60 * 24) = 0 then (mins.tdiv 60, 0)
  else if mins.tmod (60 * 24) = 0 then (0, mins.tdiv (60 * 24))
  else (mins.tdiv 60, 0)

/-- `%d%s` of these. -/
def nextTimestring (updateFreq : ℕ) : List UInt8 :=
  let (hours, days) := hoursDays updateFreq
  printSInt (if hours = 0 then days else hours) ++ if hours = 0 then bytes "d" else bytes "h"

section

variable (cvtFrom : ℕ → List UInt8)

/-- `%s %s %d %s %s %s %d`: the fields of a database, with the text of its frequency. -/
def attribText (freq : List UInt8) (attrib : UdbAttrib) : List UInt8 :=
  attrib.dbName ++ 32 :: (attrib.domains ++ 32 :: (printSInt attrib.maxno ++ 32 :: (attrib.perms ++
    32 :: (freq ++ 32 :: (cvtFrom attrib.updateTime ++ 32 :: printSInt attrib.fails)))))

/-- The continuation line of a database, after the end of the line before it. -/
def nextAttribText (attrib : UdbAttrib) : List UInt8 :=
  bytes "\\\n" ++ bytes "\t\t" ++ attribText cvtFrom (nextTimestring attrib.updateFreq) attrib

/-- The lines of a host.  The fields of a first database are written in any case. -/
def hostLines (config : UdbConfig) : List UInt8 :=
  let first := config.dbAttrib.headD ⟨[], [], 0, [], 0, 0, 0⟩
  config.sourceArchieHostname ++ 32 :: attribText cvtFrom (timestring first.updateFreq) first ++
    config.dbAttrib.tail.flatMap (nextAttribText cvtFrom) ++ bytes "\n"

/-- `write_arupdate_config`: the text of the file. -/
def writeArupdateConfig (configInfo : List UdbConfig) : List UInt8 :=
  configInfo.flatMap (hostLines cvtFrom)

end

/-! ### Reading -/

/-- `[ \t]`. -/
def isBlank (c : UInt8) : Bool := c == 32 || c == 9

/-- `[-rw]`. -/
def isPerm (c : UInt8) : Bool := c == 45 || c == 114 || c == 119

/-- `[dhm]`. -/
def isUnit (c : UInt8) : Bool := c == 100 || c == 104 || c == 109

/-- A field, with blanks before it or at once, and the text one character after it.
The end of a line has two NULs, so one character more can be passed over. -/
def readField (scan : List UInt8 → Option (List UInt8 × List UInt8)) (s : List UInt8) :
    Option (List UInt8 × List UInt8) :=
  let tmpBuf := ((scanSet isBlank s).map Prod.fst).getD []
  match (scanSet isBlank s).bind fun p => scan p.2 with
  | some (field, _) => some (field, s.drop (tmpBuf.length + field.length + 1))
  | none => do
    let (field, _) ← scan s
    some (field, s.drop (tmpBuf.length + field.length + 1))

/-- `%[0-9]%[dhm]`. -/
def scanFreqUnit (s : List UInt8) : Option (List UInt8 × List UInt8) := do
  let (digits, s) ← scanSet isDigit s
  let (unit, _) ← scanSet isUnit s
  some (digits, unit)

/-- The digits and the unit of a frequency: `tmp_buf2` and `tmp_buf3`, and the text
one character after them. -/
def readFreq (s : List UInt8) : Option ((List UInt8 × List UInt8) × List UInt8) :=
  let tmpBuf := ((scanSet isBlank s).map Prod.fst).getD []
  match scanFreqUnit s, (scanSet isBlank s).bind fun p => scanFreqUnit p.2, scanSet isDigit s,
    (scanSet isBlank s).bind fun p => scanSet isDigit p.2 with
  | some (digits, unit), _, _, _ => some ((digits, unit), s.drop (digits.length + unit.length + 1))
  | none, some (digits, unit), _, _ =>
    some ((digits, unit), s.drop (digits.length + unit.length + tmpBuf.length + 1))
  | none, none, some (digits, _), _ =>
    some ((digits, []), s.drop (digits.length + tmpBuf.length + 1))
  | none, none, none, some (digits, _) =>
    some ((digits, []), s.drop (digits.length + tmpBuf.length + 1))
  | none, none, none, none => none

/-- `update_freq`, in minutes. -/
def updateFreqOf (digits unit : List UInt8) : ℕ :=
  let freq := ulong (atoi digits)
  if unit.head? = some 104 then freq * 60 % wordSize
  else if unit.head? = some 100 then freq * (60 * 24) % wordSize
  else freq

/-- The names after the first in a bundle.  Where one is empty, `tmp_buf2` has what
was read before. -/
def bundledNames : ℕ → List UInt8 → List UInt8 → List (List UInt8)
  | 0, _, _ => []
  | fuel + 1, tmpBuf2, hold =>
    if hold = [] then []
    else
      let name := ((scanSet (· ≠ 58) hold).map Prod.fst).getD tmpBuf2
      name :: bundledNames fuel name (hold.drop (name.length + 1))

/-- The names of a bundle get entries of their own, in fresh places of the array. -/
def unbundle (tmpBuf2 : List UInt8) (attrib : UdbAttrib) : List UdbAttrib :=
  if 58 ∈ attrib.dbName then
    { attrib with dbName := attrib.dbName.takeWhile (· ≠ 58) } ::
      (bundledNames attrib.dbName.length tmpBuf2 (attrib.dbName.dropWhile (· ≠ 58)).tail).map
        fun name => { attrib with dbName := name, maxno := 0, fails := 0 }
  else [attrib]

section

variable (cvtTo : List UInt8 → ℕ)

/-- The fields of a database after its name, and the text after them. -/
def readAttrib (dbName s : List UInt8) : Option (List UdbAttrib × List UInt8) := do
  let (domains, s) ← readField scanWord s
  let (maxno, s) ← readField scanWord s
  let (perms, s) ← readField (scanSet isPerm) s
  let ((digits, unit), s) ← readFreq s
  let (time, s) ← readField (scanSetMax 14 isDigit) s
  let (fails, s) ← readField (scanSetMax 1 isDigit) s
  some (unbundle digits
    { dbName := dbName, domains := domains, maxno := atoi maxno, perms := perms,
      updateFreq := updateFreqOf digits unit, updateTime := cvtTo time, fails := atoi fails }, s)

/-- The databases of a host; each takes a character at least. -/
def readAttribs : ℕ → List UInt8 → Option (List UdbAttrib)
  | 0, _ => some []
  | fuel + 1, s =>
    match (scanSet isBlank s).bind fun p => (scanWord p.2).map fun q => (p.1, q.1) with
    | none => some []
    | some (tmpBuf2, dbName) => do
      let (attribs, s) ← readAttrib cvtTo dbName (s.drop (dbName.length + tmpBuf2.length + 1))
      let rest ← readAttribs fuel s
      some (attribs ++ rest)

/-- `compare_attrib`. -/
def compareAttrib (a b : UdbAttrib) : ℤ := strcasecmp a.dbName b.dbName

/-- `DATABASES_ALL`. -/
def databasesAll : List UInt8 := bytes "*"

/-- The databases are sorted; if all are meant by the first, the others are dropped. -/
def sortAttribs (attribs : List UdbAttrib) : List UdbAttrib :=
  let sorted := qsort compareAttrib attribs
  if (sorted.head?.map UdbAttrib.dbName) = some databasesAll then sorted.take 1 else sorted

/-- A line, up to a comment and without its newline. -/
def stripLine (inputBuf : List UInt8) : List UInt8 :=
  let s := inputBuf.takeWhile (· ≠ 35)
  (beforeLast 10 s).getD s

/-- The size of `input_buf`. -/
def inputBufLen : ℕ := 1024

/-- The loop over the lines.  `held` is what comes before `iptr` in `input_buf`; a blank line
leaves it there.  `none` also where the array would be overrun. -/
def configLoop : List (List UInt8) → List UInt8 → Option (List UdbConfig)
  | [], _ => some []
  | line :: lines, held =>
    if inputBufLen < held.length + line.length + 1 then none
    else if bytes "\\\n" <:+ line then configLoop lines (held ++ line.take (line.length - 2))
    else
      let inputBuf := stripLine (held ++ line)
      match scanWord inputBuf with
      | none => configLoop lines held
      | some (hostname, _) => do
        let attribs ← readAttribs cvtTo inputBuf.length (inputBuf.drop hostname.length)
        let configs ← configLoop lines []
        some (⟨hostname, sortAttribs attribs⟩ :: configs)

/-- `read_arupdate_config`, into an array of zeros. -/
def readArupdateConfig (text : List UInt8) : Option (List UdbConfig) := do
  let configs ← configLoop cvtTo (fgetsLines inputBufLen text) []
  if configs = [] then none else some configs

end

/-! ### Configurations that can be written -/

/-- The fields of a database fit their formats, and its time is one that the
conversions keep. -/
structure UdbAttrib.WellFormed (cvtFrom : ℕ → List UInt8) (cvtTo : List UInt8 → ℕ)
    (attrib : UdbAttrib) :
    Prop where
  dbName : IsWord attrib.dbName
  noColon : 58 ∉ attrib.dbName
  domains : IsWord attrib.domains
  maxno : IsInt attrib.maxno
  permsSet : attrib.perms ≠ []
  perms : ∀ c ∈ attrib.perms, isPerm c = true
  updateFreq : attrib.updateFreq < 2147483648
  timeLength : (cvtFrom attrib.updateTime).length = 14
  timeDigits : ∀ c ∈ cvtFrom attrib.updateTime, isDigit c = true
  timeBack : cvtTo (cvtFrom attrib.updateTime) = attrib.updateTime
  fails : 0 ≤ attrib.fails ∧ attrib.fails ≤ 9

/-- A host with one database or more. -/
structure UdbConfig.WellFormed (cvtFrom : ℕ → List UInt8) (cvtTo : List UInt8 → ℕ)
    (config : UdbConfig) :
    Prop where
  hostname : IsWord config.sourceArchieHostname
  dbAttribSet : config.dbAttrib ≠ []
  dbAttrib : ∀ attrib ∈ config.dbAttrib, attrib.WellFormed cvtFrom cvtTo

/-- What is written of a host is no comment and fits `input_buf`, all databases are
not meant beside others, and those after the first are updated by the hour. -/
structure UdbConfig.Kept (cvtFrom : ℕ → List UInt8) (config : UdbConfig) : Prop where
  noComment : 35 ∉ config.sourceArchieHostname
  noCommentDb : ∀ attrib ∈ config.dbAttrib, 35 ∉ attrib.dbName ∧ 35 ∉ attrib.domains
  alone : ∀ attrib ∈ config.dbAttrib, attrib.dbName = databasesAll → config.dbAttrib.length = 1
  wholeHours : ∀ attrib ∈ config.dbAttrib.tail, attrib.updateFreq % 60 = 0
  fits : (hostLines cvtFrom config).length < inputBufLen

/-! ### Fields -/

theorem readField_eq {scan : List UInt8 → Option (List UInt8 × List UInt8)} {s w t : List UInt8}
    (hblank : ∀ c ∈ s.head?, isBlank c = false) (hscan : scan s = some (w, t)) :
    readField scan s = some (w, s.drop (w.length + 1)) := by
  rw [readField, scanSet_none hblank]
  simp only [Option.bind_none, Option.map_none, Option.getD_none, hscan, Option.bind_eq_bind,
    Option.bind_some, List.length_nil, Nat.zero_add]

theorem drop_field (w : List UInt8) (c : UInt8) (rest : List UInt8) :
    (w ++ c :: rest).drop (w.length + 1) = rest := by
  rw [← List.drop_drop, List.drop_left, List.drop_one, List.tail_cons]

theorem isBlank_of_not_isSpace {c : UInt8} (h : isSpace c = false) : isBlank c = false := by
  revert h
  exact forall_uint8 (P := fun c => isSpace c = false → isBlank c = false) (by decide +kernel) c

/-- The first character of a text. -/
theorem head_append {P : UInt8 → Prop} {w : List UInt8} (hne : w ≠ []) (hw : ∀ c ∈ w, P c)
    (rest : List UInt8) : ∀ c ∈ (w ++ rest).head?, P c := by
  obtain ⟨d, w, rfl⟩ := List.exists_cons_of_ne_nil hne
  intro c hc
  obtain rfl := Option.some.inj hc
  exact hw d List.mem_cons_self

theorem readField_word {w : List UInt8} (hw : IsWord w) (rest : List UInt8) :
    readField scanWord (w ++ 32 :: rest) = some (w, rest) := by
  rw [readField_eq (head_append hw.1 (fun c hc => isBlank_of_not_isSpace (hw.2 c hc)) _)
    (scanWord_append hw (spaceFirst_cons (by decide) rest)), drop_field]

theorem isBlank_of_isPerm {c : UInt8} (h : isPerm c = true) : isBlank c = false := by
  revert h
  exact forall_uint8 (P := fun c => isPerm c = true → isBlank c = false) (by decide +kernel) c

theorem isBlank_of_isDigit {c : UInt8} (h : isDigit c = true) : isBlank c = false :=
  isBlank_of_not_isSpace (not_isSpace_of_isDigit h).1

theorem head_cons {P : UInt8 → Prop} {d : UInt8} (hd : P d) (rest : List UInt8) :
    ∀ c ∈ (d :: rest).head?, P c := by
  intro c hc
  obtain rfl := Option.some.inj hc
  exact hd

/-- The text of a frequency: a number, with the unit that it is counted in. -/
inductive FreqText (freq : ℕ) : List UInt8 → Prop
  | mins : FreqText freq (printULong freq)
  | hours : freq % 60 = 0 → FreqText freq (printULong (freq / 60) ++ [104])
  | days : freq % 1440 = 0 → FreqText freq (printULong (freq / 1440) ++ [100])

theorem printSInt_natCast (n : ℕ) : printSInt n = printULong n := by
  rw [printSInt, if_neg (by omega), Int.natAbs_natCast]

theorem freqText_timestring {freq : ℕ} (h : freq < 2147483648) :
    FreqText freq (timestring freq) := by
  have hdays : (freq : ℤ).tdiv (60 * 24) = (freq / 1440 : ℕ) := rfl
  have hhours : (freq : ℤ).tdiv 60 = (freq / 60 : ℕ) := rfl
  have hmod : (freq : ℤ).tmod (60 * 24) = (freq % 1440 : ℕ) := rfl
  have hmodh : (freq : ℤ).tmod 60 = (freq % 60 : ℕ) := rfl
  rw [timestring, sint_natCast h]
  simp only [hdays, hhours, hmod, hmodh, printSInt_natCast]
  split_ifs with h1 h2 h3 h4
  · exact FreqText.mins
  · exact FreqText.hours (by omega)
  · exact FreqText.mins
  · exact FreqText.days (by omega)
  · exact FreqText.mins

theorem hoursDays_eq {freq : ℕ} (h : freq < 2147483648) :
    hoursDays freq = if freq / 1440 ≠ 0 ∧ freq % 1440 = 0 then (0, ((freq / 1440 : ℕ) : ℤ))
      else (((freq / 60 : ℕ) : ℤ), 0) := by
  have hdays : (freq : ℤ).tdiv (60 * 24) = (freq / 1440 : ℕ) := rfl
  have hhours : (freq : ℤ).tdiv 60 = (freq / 60 : ℕ) := rfl
  have hmod : (freq : ℤ).tmod (60 * 24) = (freq % 1440 : ℕ) := rfl
  rw [hoursDays, sint_natCast h]
  simp only [hdays, hhours, hmod, Nat.cast_eq_zero]
  by_cases h1 : freq / 1440 = 0
  · rw [if_pos h1, if_neg (fun h => h.1 h1)]
  · by_cases h2 : freq % 1440 = 0
    · rw [if_neg h1, if_pos h2, if_pos ⟨h1, h2⟩]
    · rw [if_neg h1, if_neg h2, if_neg (fun h => h2 h.2)]

/-- The frequency of a later database is kept when it is in whole hours. -/
theorem freqText_nextTimestring {freq : ℕ} (h : freq < 2147483648) (hwhole : freq % 60 = 0) :
    FreqText freq (nextTimestring freq) := by
  rw [nextTimestring, hoursDays_eq h]
  by_cases hdays : freq / 1440 ≠ 0 ∧ freq % 1440 = 0
  · rw [if_pos hdays]
    dsimp only
    rw [if_pos rfl, if_pos rfl, printSInt_natCast]
    exact FreqText.days hdays.2
  · rw [if_neg hdays]
    dsimp only
    by_cases h0 : freq / 60 = 0
    · -- No whole hour, so nothing at all: it is written as no days.
      have hzero : freq / 1440 = 0 := by omega
      rw [h0, Nat.cast_zero, if_pos rfl, if_pos rfl, ← Nat.cast_zero, printSInt_natCast, ← hzero]
      exact FreqText.days (by omega)
    · rw [if_neg (by omega), if_neg (by omega), printSInt_natCast]
      exact FreqText.hours hwhole

theorem ulong_atoi_printULong {n : ℕ} (hn : n < 2147483648) : ulong (atoi (printULong n)) = n := by
  rw [atoi_printULong, min_eq_right (by omega), ulong_natCast (by rw [wordSize]; omega)]

theorem scanSet_printULong (n : ℕ) {rest : List UInt8} (hrest : NoDigit rest) :
    scanSet isDigit (printULong n ++ rest) = some (printULong n, rest) :=
  scanSet_append (printULong_ne_nil n) (isDigit_printULong n) hrest

/-- A unit after a number. -/
theorem readFreq_unit (n : ℕ) {u : UInt8} (hu : isUnit u = true) (hud : isDigit u = false)
    (rest : List UInt8) :
    readFreq (printULong n ++ [u] ++ 32 :: rest) = some ((printULong n, [u]), rest) := by
  have hunit : scanFreqUnit (printULong n ++ [u] ++ 32 :: rest) = some (printULong n, [u]) := by
    have hset := scanSet_append (p := isUnit) (w := [u]) (by simp) (by simpa using hu)
      (head_cons (by decide) rest : ∀ c ∈ (32 :: rest).head?, isUnit c = false)
    rw [scanFreqUnit, List.append_assoc, scanSet_printULong n (by
      rw [List.singleton_append]
      exact noDigit_cons hud _)]
    simp only [Option.bind_eq_bind, Option.bind_some, hset]
  rw [readFreq, hunit]
  dsimp only
  have hdrop := drop_field (printULong n ++ [u]) 32 rest
  rw [List.length_append] at hdrop
  rw [hdrop]

/-- None. -/
theorem readFreq_mins (n : ℕ) (rest : List UInt8) :
    readFreq (printULong n ++ 32 :: rest) = some ((printULong n, []), rest) := by
  have hset := scanSet_printULong n (noDigit_cons (c := 32) (by decide) rest)
  have hblank : scanSet isBlank (printULong n ++ 32 :: rest) = none :=
    scanSet_none (head_append (printULong_ne_nil n)
      (fun c hc => isBlank_of_isDigit (isDigit_printULong n c hc)) _)
  have hunit : scanFreqUnit (printULong n ++ 32 :: rest) = none := by
    rw [scanFreqUnit, hset]
    simp only [Option.bind_eq_bind, Option.bind_some]
    rw [scanSet_none (head_cons (by decide) rest), Option.bind_none]
  rw [readFreq, hunit, hblank]
  simp only [Option.bind_none, hset, Option.map_none, Option.getD_none, List.length_nil,
    Nat.add_zero]
  rw [drop_field]

/-- **A frequency** is read back. -/
theorem FreqText.read {freq : ℕ} {text : List UInt8} (h : FreqText freq text)
    (hfreq : freq < 2147483648)
    (rest : List UInt8) : ∃ digits unit,
      readFreq (text ++ 32 :: rest) = some ((digits, unit), rest) ∧
      updateFreqOf digits unit = freq := by
  cases h with
  | mins =>
    refine ⟨_, _, readFreq_mins freq rest, ?_⟩
    rw [updateFreqOf, ulong_atoi_printULong hfreq]
    rfl
  | hours hmod =>
    refine ⟨_, _, readFreq_unit (freq / 60) (by decide) (by decide) rest, ?_⟩
    rw [updateFreqOf, ulong_atoi_printULong (by omega)]
    simp only [List.head?_cons, if_true, wordSize]
    omega
  | days hmod =>
    refine ⟨_, _, readFreq_unit (freq / 1440) (by decide) (by decide) rest, ?_⟩
    rw [updateFreqOf, ulong_atoi_printULong (by omega)]
    simp only [List.head?_cons, if_true, wordSize]
    rw [if_neg (by decide)]
    omega

/-! ### The databases of a host -/

section

variable {cvtFrom : ℕ → List UInt8} {cvtTo : List UInt8 → ℕ}

theorem printSInt_digit {i : ℤ} (hi : 0 ≤ i ∧ i ≤ 9) :
    (printSInt i).length = 1 ∧ ∀ c ∈ printSInt i, isDigit c = true := by
  obtain ⟨n, rfl⟩ := Int.eq_ofNat_of_zero_le hi.1
  rw [printSInt_natCast]
  refine ⟨?_, isDigit_printULong n⟩
  rw [printULong, if_pos (by omega)]
  rfl

/-- The fields after a name are read back, with the character after the last. -/
theorem readAttrib_attribText {attrib : UdbAttrib} (h : attrib.WellFormed cvtFrom cvtTo)
    {freq : List UInt8} (hfreq : FreqText attrib.updateFreq freq) (tail : List UInt8) :
    readAttrib cvtTo attrib.dbName (attrib.domains ++ 32 :: (printSInt attrib.maxno ++ 32 ::
      (attrib.perms ++ 32 :: (freq ++ 32 :: (cvtFrom attrib.updateTime ++ 32 ::
        (printSInt attrib.fails ++ tail)))))) = some ([attrib], tail.drop 1) := by
  obtain ⟨digits, unit, hread, hvalue⟩ := hfreq.read h.updateFreq
    (cvtFrom attrib.updateTime ++ 32 :: (printSInt attrib.fails ++ tail))
  have hperms : ∀ rest, readField (scanSet isPerm) (attrib.perms ++ 32 :: rest) =
      some (attrib.perms, rest) := by
    intro rest
    rw [readField_eq (head_append h.permsSet (fun c hc => isBlank_of_isPerm (h.perms c hc)) _)
      (scanSet_append h.permsSet h.perms (head_cons (by decide) rest)), drop_field]
  have htimeSet : cvtFrom attrib.updateTime ≠ [] := by
    intro hnil
    have := h.timeLength
    rw [hnil] at this
    exact absurd this (by decide)
  have htime : ∀ rest, readField (scanSetMax 14 isDigit) (cvtFrom attrib.updateTime ++ 32 :: rest) =
      some (cvtFrom attrib.updateTime, rest) := by
    intro rest
    rw [readField_eq (head_append htimeSet (fun c hc => isBlank_of_isDigit (h.timeDigits c hc)) _)
      (scanSetMax_append htimeSet h.timeLength h.timeDigits _), drop_field]
  obtain ⟨hlen, hdigits⟩ := printSInt_digit h.fails
  have hfailsSet := (isWord_printSInt attrib.fails).1
  have hfails : readField (scanSetMax 1 isDigit) (printSInt attrib.fails ++ tail) =
      some (printSInt attrib.fails, tail.drop 1) := by
    rw [readField_eq (head_append hfailsSet (fun c hc => isBlank_of_isDigit (hdigits c hc)) _)
      (scanSetMax_append hfailsSet hlen hdigits _), ← List.drop_drop, List.drop_left]
  have hfailsInt : IsInt attrib.fails := ⟨by have := h.fails; omega, by have := h.fails; omega⟩
  rw [readAttrib, readField_word h.domains]
  simp only [Option.bind_eq_bind, Option.bind_some]
  rw [readField_word (isWord_printSInt _)]
  simp only [Option.bind_some]
  rw [hperms]
  simp only [Option.bind_some]
  rw [hread]
  simp only [Option.bind_some]
  rw [htime]
  simp only [Option.bind_some]
  rw [hfails]
  simp only [Option.bind_some, hvalue, h.timeBack, atoi_printSInt h.maxno, atoi_printSInt hfailsInt]
  rw [unbundle, if_neg h.noColon]

/-- A database is read, whatever comes after its fields; one character of that is left out. -/
theorem readAttribs_attribText {attrib : UdbAttrib} (h : attrib.WellFormed cvtFrom cvtTo)
    {freq : List UInt8}
    (hfreq : FreqText attrib.updateFreq freq) {b : UInt8} (hb : isBlank b = true) (fuel : ℕ)
    (tail : List UInt8) :
    readAttribs cvtTo (fuel + 1) (b :: (attribText cvtFrom freq attrib ++ tail)) =
      (readAttribs cvtTo fuel (tail.drop 1)).map (attrib :: ·) := by
  have hassoc : attribText cvtFrom freq attrib ++ tail = attrib.dbName ++ 32 :: (attrib.domains ++
      32 :: (printSInt attrib.maxno ++ 32 :: (attrib.perms ++ 32 :: (freq ++
        32 :: (cvtFrom attrib.updateTime ++ 32 :: (printSInt attrib.fails ++ tail)))))) := by
    simp only [attribText, List.append_assoc, List.cons_append]
  have hset : ∀ rest, scanSet isBlank (b :: (attrib.dbName ++ rest)) = some
      ([b], attrib.dbName ++ rest) :=
    fun rest => scanSet_append (w := [b]) (by simp) (by simpa using hb)
      (head_append h.dbName.1 (fun c hc => isBlank_of_not_isSpace (h.dbName.2 c hc)) rest)
  rw [hassoc, readAttribs, hset, Option.bind_some,
    scanWord_append h.dbName (spaceFirst_cons (by decide) _)]
  dsimp only [Option.map_some]
  rw [List.length_singleton, List.drop_succ_cons, drop_field, readAttrib_attribText h hfreq]
  simp only [Option.bind_eq_bind, Option.bind_some, List.singleton_append]
  cases readAttribs cvtTo fuel (tail.drop 1) <;> rfl

/-- The texts of the databases after the first, without the ends of the lines before them. -/
def nextTexts (cvtFrom : ℕ → List UInt8) (attribs : List UdbAttrib) : List UInt8 :=
  attribs.flatMap fun attrib => 9 :: 9 :: attribText cvtFrom
    (nextTimestring attrib.updateFreq) attrib

/-- **The databases of a line** are read back. -/
theorem readAttribs_attribTexts {attribs : List UdbAttrib}
    (hnext : ∀ a ∈ attribs, a.WellFormed cvtFrom cvtTo ∧ a.updateFreq % 60 = 0) {attrib : UdbAttrib}
    (h : attrib.WellFormed cvtFrom cvtTo) {freq : List UInt8}
    (hfreq : FreqText attrib.updateFreq freq)
    {b : UInt8} (hb : isBlank b = true) {fuel : ℕ} (hfuel : attribs.length < fuel) :
    readAttribs cvtTo fuel (b :: (attribText cvtFrom freq attrib ++ nextTexts cvtFrom attribs)) =
      some (attrib :: attribs) := by
  induction attribs generalizing attrib freq b fuel with
  | nil =>
    obtain ⟨fuel, rfl⟩ : ∃ f, fuel = f + 1 := ⟨fuel - 1, by simp at hfuel; omega⟩
    rw [readAttribs_attribText h hfreq hb]
    cases fuel <;> rfl
  | cons a attribs ih =>
    obtain ⟨fuel, rfl⟩ : ∃ f, fuel = f + 1 := ⟨fuel - 1, by omega⟩
    obtain ⟨ha, hwhole⟩ := hnext a List.mem_cons_self
    rw [readAttribs_attribText h hfreq hb, nextTexts, List.flatMap_cons, List.cons_append,
      List.drop_succ_cons,
      List.drop_zero, List.cons_append]
    have hrest := ih (fun a ha => hnext a (List.mem_cons_of_mem _ ha)) ha
      (freqText_nextTimestring ha.updateFreq hwhole) (b := 9)
        (by decide) (Nat.lt_of_succ_lt_succ hfuel)
    rw [nextTexts] at hrest
    rw [hrest]
    rfl

/-! ### The lines of a host -/

/-- A piece that is followed by other ones on continuation lines: the lines that are read. -/
def contLines : List UInt8 → List (List UInt8) → List (List UInt8)
  | x, [] => [x ++ [10]]
  | x, y :: ys => (x ++ [92, 10]) :: contLines y ys

/-- The lines of a text with continuation lines. -/
theorem fgetsLines_contLines {n : ℕ} {x : List UInt8} {ys : List (List UInt8)} (hx : 10 ∉ x)
    (hys : ∀ y ∈ ys, 10 ∉ y) (hfits : (x ++ ys.flatMap ([92, 10] ++ ·)).length + 1 < n)
    (rest : List UInt8) :
    fgetsLines n (x ++ (ys.flatMap ([92, 10] ++ ·) ++ 10 :: rest)) = contLines x ys ++
      fgetsLines n rest := by
  induction ys generalizing x with
  | nil => exact fgetsLines_append hx (by simpa using hfits) rest
  | cons y ys ih =>
    have hsplit : x ++ ((y :: ys).flatMap ([92, 10] ++ ·) ++ 10 :: rest) =
        (x ++ [92]) ++ 10 :: (y ++ (ys.flatMap ([92, 10] ++ ·) ++ 10 :: rest)) := by
      simp
    have hline : 10 ∉ x ++ [92] := by
      simp [hx]
    rw [hsplit, fgetsLines_append hline (by simp at hfits ⊢; omega),
      ih (hys y List.mem_cons_self) (fun z hz => hys z (List.mem_cons_of_mem _ hz))
        (by simp at hfits ⊢; omega), contLines, List.append_assoc]
    rfl

/-- The continuation lines are put together in `input_buf`, before the last one. -/
theorem configLoop_contLines {x : List UInt8} {ys : List (List UInt8)} {held : List UInt8}
    (hfits : (held ++ x ++ ys.flatMap ([92, 10] ++ ·)).length + 1 < inputBufLen)
    (lines : List (List UInt8)) :
    configLoop cvtTo (contLines x ys ++ lines) held =
      configLoop cvtTo (((x :: ys).getLast (List.cons_ne_nil _ _) ++ [10]) :: lines)
        (held ++ (x :: ys).dropLast.flatten) := by
  induction ys generalizing x held with
  | nil => simp [contLines]
  | cons y ys ih =>
    have hcont : bytes "\\\n" <:+ x ++ [92, 10] := ⟨x, rfl⟩
    have hcut : (x ++ [92, 10]).take ((x ++ [92, 10]).length - 2) = x := by
      rw [List.length_append, show [(92 : UInt8), 10].length = 2 from rfl, Nat.add_sub_cancel,
        List.take_left]
    rw [contLines, List.cons_append, configLoop,
      if_neg (by simp at hfits ⊢; omega), if_pos hcont, hcut,
      ih (by simp at hfits ⊢; omega)]
    simp

/-- The pieces of the lines of a host. -/
def firstPiece (cvtFrom : ℕ → List UInt8) (hostname : List UInt8) (attrib : UdbAttrib) :
    List UInt8 :=
  hostname ++ 32 :: attribText cvtFrom (timestring attrib.updateFreq) attrib

def nextPieces (cvtFrom : ℕ → List UInt8) (attribs : List UdbAttrib) : List (List UInt8) :=
  attribs.map fun attrib => 9 :: 9 :: attribText cvtFrom (nextTimestring attrib.updateFreq) attrib

theorem hostLines_eq (hostname : List UInt8) (attrib : UdbAttrib) (attribs : List UdbAttrib) :
    hostLines cvtFrom ⟨hostname, attrib :: attribs⟩ =
      firstPiece cvtFrom hostname attrib ++
        ((nextPieces cvtFrom attribs).flatMap ([92, 10] ++ ·) ++ [10]) := by
  simp only [hostLines, firstPiece, nextPieces, List.headD_cons, List.tail_cons, List.flatMap_map,
    List.append_assoc, List.cons_append]
  rfl

/-- The fields have no newline and no comment. -/
theorem not_mem_attribText {attrib : UdbAttrib} (h : attrib.WellFormed cvtFrom cvtTo)
    {freq : List UInt8}
    (hfreq : FreqText attrib.updateFreq freq) {c : UInt8} (hc : c = 10 ∨ c = 35)
    (hnames : c ∉ attrib.dbName ∧ c ∉ attrib.domains) : c ∉ attribText cvtFrom freq attrib := by
  have hdigit : isDigit c = false := by rcases hc with rfl | rfl <;> decide
  have hnot : ∀ {s : List UInt8}, (∀ d ∈ s, isDigit d = true) → c ∉ s := by
    intro s hs hmem
    rw [hs c hmem] at hdigit
    exact absurd hdigit (by decide)
  have hint : ∀ i, c ∉ printSInt i := by
    intro i hmem
    rcases mem_printSInt hmem with h45 | hd
    · rcases hc with rfl | rfl <;> exact absurd h45 (by decide)
    · rw [hd] at hdigit
      exact absurd hdigit (by decide)
  have hperms : c ∉ attrib.perms := by
    intro hmem
    have := h.perms c hmem
    rcases hc with rfl | rfl <;> exact absurd this (by decide)
  have hfreqText : c ∉ freq := by
    cases hfreq with
    | mins => exact hnot (isDigit_printULong _)
    | hours _ =>
      rw [List.mem_append, List.mem_singleton]
      rintro (hmem | rfl)
      · exact hnot (isDigit_printULong _) hmem
      · exact absurd hc (by decide)
    | days _ =>
      rw [List.mem_append, List.mem_singleton]
      rintro (hmem | rfl)
      · exact hnot (isDigit_printULong _) hmem
      · exact absurd hc (by decide)
  have h32 : c ≠ 32 := by rcases hc with rfl | rfl <;> decide
  simp only [attribText, List.mem_append, List.mem_cons, not_or]
  exact ⟨hnames.1, h32, hnames.2, h32, hint _, h32, hperms, h32, hfreqText, h32, hnot h.timeDigits,
    h32, hint _⟩

/-- So it is with the pieces of the lines of a host. -/
theorem not_mem_pieces {hostname : List UInt8} {attrib : UdbAttrib} {attribs : List UdbAttrib}
    (h : UdbConfig.WellFormed cvtFrom cvtTo ⟨hostname, attrib :: attribs⟩)
    (hkept : UdbConfig.Kept cvtFrom ⟨hostname, attrib :: attribs⟩) {c : UInt8}
    (hc : c = 10 ∨ c = 35) :
    c ∉ firstPiece cvtFrom hostname attrib ∧ ∀ y ∈ nextPieces cvtFrom attribs, c ∉ y := by
  have hnames : ∀ a ∈ attrib :: attribs, c ∉ a.dbName ∧ c ∉ a.domains := by
    intro a ha
    rcases hc with rfl | rfl
    · exact ⟨fun hm => absurd ((h.dbAttrib a ha).dbName.2 _ hm) (by decide),
        fun hm => absurd ((h.dbAttrib a ha).domains.2 _ hm) (by decide)⟩
    · exact hkept.noCommentDb a ha
  have hhost : c ∉ hostname := by
    rcases hc with rfl | rfl
    · exact fun hm => absurd (h.hostname.2 _ hm) (by decide)
    · exact hkept.noComment
  have hblank : c ≠ 32 ∧ c ≠ 9 := by rcases hc with rfl | rfl <;> decide
  have hfirst := h.dbAttrib attrib List.mem_cons_self
  constructor
  · rw [firstPiece, List.mem_append, List.mem_cons, not_or, not_or]
    exact ⟨hhost, hblank.1, not_mem_attribText hfirst (freqText_timestring hfirst.updateFreq) hc
      (hnames _ List.mem_cons_self)⟩
  · intro y hy
    obtain ⟨a, ha, rfl⟩ := List.mem_map.mp hy
    have hwf := h.dbAttrib a (List.mem_cons_of_mem _ ha)
    rw [List.mem_cons, List.mem_cons, not_or, not_or]
    exact ⟨hblank.2, hblank.2, not_mem_attribText hwf
      (freqText_nextTimestring hwf.updateFreq (hkept.wholeHours a ha)) hc
        (hnames _ (List.mem_cons_of_mem _ ha))⟩

/-- Each piece ends with a number. -/
theorem pieces_end (cvtFrom : ℕ → List UInt8) (hostname : List UInt8) (attrib : UdbAttrib)
    (attribs : List UdbAttrib) :
    ∀ y ∈ firstPiece cvtFrom hostname attrib :: nextPieces cvtFrom attribs, ∃ pre i,
      y = pre ++ printSInt i := by
  have hends : ∀ freq a, ∃ pre, attribText cvtFrom freq a = pre ++ printSInt a.fails := by
    intro freq a
    refine ⟨a.dbName ++ 32 :: (a.domains ++ 32 :: (printSInt a.maxno ++ 32 :: (a.perms ++
      32 :: (freq ++ 32 :: (cvtFrom a.updateTime ++ [32]))))), ?_⟩
    simp only [attribText, List.append_assoc, List.cons_append, List.nil_append]
  intro y hy
  rcases List.mem_cons.mp hy with rfl | hy
  · obtain ⟨pre, hpre⟩ := hends (timestring attrib.updateFreq) attrib
    exact ⟨hostname ++ 32 :: pre, attrib.fails,
      by rw [firstPiece, hpre, List.append_assoc, List.cons_append]⟩
  · obtain ⟨a, -, rfl⟩ := List.mem_map.mp hy
    obtain ⟨pre, hpre⟩ := hends (nextTimestring a.updateFreq) a
    exact ⟨9 :: 9 :: pre, a.fails, by rw [hpre, List.cons_append, List.cons_append]⟩

/-- So its line is no continuation line without a backslash of its own. -/
theorem not_continuation (pre : List UInt8) (i : ℤ) : ¬ bytes "\\\n" <:+ pre ++ printSInt i ++ [10] := by
  rintro ⟨t, ht⟩
  have hsplit : t ++ bytes "\\\n" = (t ++ [92]) ++ [10] := by
    rw [List.append_assoc]
    rfl
  rw [hsplit] at ht
  have hlast := congrArg List.getLast? (List.append_cancel_right ht)
  rw [List.getLast?_concat, List.getLast?_append_of_ne_nil _ (isWord_printSInt i).1] at hlast
  rcases mem_printSInt (List.mem_of_getLast? hlast.symm) with h | h
  · exact absurd h (by decide)
  · exact absurd h (by decide)

theorem stripLine_eq {s : List UInt8} (hcomment : 35 ∉ s) : stripLine (s ++ [10]) = s := by
  have hall : ∀ c ∈ s ++ [10], decide (c ≠ 35) = true := by
    intro c hc
    rw [decide_eq_true_iff]
    rintro rfl
    rcases List.mem_append.mp hc with hc | hc
    · exact hcomment hc
    · exact absurd (List.mem_singleton.mp hc) (by decide)
  rw [stripLine, List.takeWhile_eq_self_iff.mpr hall,
    beforeLast_append s (by simp), Option.getD_some]

/-- The databases are those that were read, unless all are meant beside others. -/
theorem perm_sortAttribs {attribs : List UdbAttrib}
    (halone : ∀ attrib ∈ attribs, attrib.dbName = databasesAll → attribs.length = 1) :
    (sortAttribs attribs).Perm attribs := by
  rw [sortAttribs]
  split
  next hall =>
    obtain ⟨attrib, hhead, hname⟩ := Option.map_eq_some_iff.mp hall
    have hone := halone attrib (mem_qsort.mp (List.mem_of_head? hhead)) hname
    rw [List.take_of_length_le (by rw [length_qsort, hone])]
    exact perm_qsort _ _
  next => exact perm_qsort _ _

/-- A line that is complete. -/
theorem configLoop_line {held line inputBuf hostname t : List UInt8} {attribs : List UdbAttrib}
    {lines : List (List UInt8)} {configs : List UdbConfig}
    (hfits : held.length + line.length + 1 ≤ inputBufLen) (hcont : ¬ bytes "\\\n" <:+ line)
    (hstrip : stripLine (held ++ line) = inputBuf) (hword : scanWord inputBuf = some (hostname, t))
    (hattribs : readAttribs cvtTo inputBuf.length (inputBuf.drop hostname.length) = some attribs)
    (hrest : configLoop cvtTo lines [] = some configs) :
    configLoop cvtTo (line :: lines) held = some (⟨hostname, sortAttribs attribs⟩ :: configs) := by
  rw [configLoop, if_neg (by omega), if_neg hcont, hstrip]
  simp only [hword, hattribs, hrest, Option.bind_eq_bind, Option.bind_some]

theorem length_nextTexts (cvtFrom : ℕ → List UInt8) (attribs : List UdbAttrib) :
    attribs.length ≤ (nextTexts cvtFrom attribs).length := by
  induction attribs with
  | nil => exact Nat.zero_le _
  | cons a attribs ih =>
    rw [nextTexts] at ih ⊢
    rw [List.flatMap_cons, List.length_append, List.length_cons, List.length_cons]
    omega

theorem length_pieces (ys : List (List UInt8)) :
    ys.flatten.length ≤ (ys.flatMap ([92, 10] ++ ·)).length := by
  induction ys with
  | nil => exact le_rfl
  | cons y ys ih =>
    rw [List.flatten_cons, List.flatMap_cons, List.length_append, List.length_append,
      List.length_append]
    omega

/-- **The lines of a host** are read back. -/
theorem configLoop_hostLines {config : UdbConfig} (h : config.WellFormed cvtFrom cvtTo)
    (hkept : config.Kept cvtFrom) {rest : List UInt8} {configs : List UdbConfig}
    (hrest : configLoop cvtTo (fgetsLines inputBufLen rest) [] = some configs) :
    configLoop cvtTo (fgetsLines inputBufLen (hostLines cvtFrom config ++ rest)) [] =
      some (⟨config.sourceArchieHostname, sortAttribs config.dbAttrib⟩ :: configs) := by
  obtain ⟨hostname, dbAttrib⟩ := config
  obtain ⟨attrib, attribs, rfl⟩ := List.exists_cons_of_ne_nil h.dbAttribSet
  obtain ⟨hnl, hnls⟩ := not_mem_pieces h hkept (Or.inl rfl)
  obtain ⟨hcomment, hcomments⟩ := not_mem_pieces h hkept (Or.inr rfl)
  have hends := pieces_end cvtFrom hostname attrib attribs
  have hfirst := h.dbAttrib attrib List.mem_cons_self
  have hfits := hkept.fits
  rw [hostLines_eq] at hfits ⊢
  -- The text that `input_buf` has in the end.
  have hflat : (nextPieces cvtFrom attribs).flatten = nextTexts cvtFrom attribs := rfl
  have hword : firstPiece cvtFrom hostname attrib ++ (nextPieces cvtFrom attribs).flatten =
      hostname ++ 32 :: (attribText cvtFrom (timestring attrib.updateFreq) attrib ++
        nextTexts cvtFrom attribs) := by
    rw [hflat, firstPiece, List.append_assoc, List.cons_append]
  have hlong : attribs.length <
      (hostname ++ 32 :: (attribText cvtFrom (timestring attrib.updateFreq) attrib ++
      nextTexts cvtFrom attribs)).length := by
    have := length_nextTexts cvtFrom attribs
    rw [List.length_append, List.length_cons, List.length_append]
    omega
  have hread := readAttribs_attribTexts (fun a ha =>
    ⟨h.dbAttrib a (List.mem_cons_of_mem _ ha), hkept.wholeHours a ha⟩) hfirst
    (freqText_timestring hfirst.updateFreq) (b := 32) (by decide) hlong
  generalize firstPiece cvtFrom hostname attrib = first at hnl hcomment hends hfits hword ⊢
  clear hflat
  generalize nextPieces cvtFrom attribs = next at hnls hcomments hends hfits hword ⊢
  have hdropLast : (first :: next).dropLast.flatten ++ (first :: next).getLast
      (List.cons_ne_nil _ _) =
      first ++ next.flatten := by
    conv_rhs => rw [← List.flatten_cons,
      ← List.dropLast_append_getLast (List.cons_ne_nil first next),
      List.flatten_append, List.flatten_singleton]
  have hpieces := length_pieces next
  rw [List.append_assoc, List.append_assoc, List.singleton_append,
    fgetsLines_contLines hnl hnls
      (by simp at hfits ⊢; omega), configLoop_contLines (by simp at hfits ⊢; omega)]
  obtain ⟨pre, i, hlast⟩ := hends _ (List.getLast_mem (List.cons_ne_nil first next))
  refine @configLoop_line _ _ _ (first ++ next.flatten) hostname
    (32 :: (attribText cvtFrom (timestring attrib.updateFreq) attrib ++
      nextTexts cvtFrom attribs)) _ _ _
    ?_ ?_ ?_ ?_ ?_ hrest
  · have := congrArg List.length hdropLast
    simp only [List.length_append, List.length_singleton, List.nil_append] at this hfits ⊢
    omega
  · rw [hlast]
    exact not_continuation pre i
  · rw [List.nil_append, ← List.append_assoc, hdropLast]
    refine stripLine_eq ?_
    rw [List.mem_append, not_or, List.mem_flatten]
    exact ⟨hcomment, fun ⟨y, hy, hmem⟩ => hcomments y hy hmem⟩
  · rw [hword]
    exact scanWord_append h.hostname (spaceFirst_cons (by decide) _)
  · rw [hword, List.drop_left]
    exact hread

/-- The hosts of a file, in their order. -/
theorem configLoop_writeArupdateConfig {configInfo : List UdbConfig}
    (h : ∀ config ∈ configInfo, config.WellFormed cvtFrom cvtTo)
    (hkept : ∀ config ∈ configInfo, config.Kept cvtFrom) :
    configLoop cvtTo (fgetsLines inputBufLen (writeArupdateConfig cvtFrom configInfo)) [] =
      some (configInfo.map fun config =>
        ⟨config.sourceArchieHostname, sortAttribs config.dbAttrib⟩) := by
  induction configInfo with
  | nil => rfl
  | cons config configInfo ih =>
    have hrest := ih (fun c hc => h c (List.mem_cons_of_mem _ hc)) fun c hc => hkept c
        (List.mem_cons_of_mem _ hc)
    rw [writeArupdateConfig] at hrest ⊢
    rw [List.flatMap_cons,
      configLoop_hostLines (h config List.mem_cons_self) (hkept config List.mem_cons_self)
      hrest, List.map_cons]

end

/-! ### Two files -/

/-- The first second of 1970 and of 1996, as text. -/
def sampleCvtFrom (t : ℕ) : List UInt8 :=
  if t = 820454400 then bytes "19960101000000" else bytes "19700101000000"

def sampleCvtTo (s : List UInt8) : ℕ := if s = bytes "19960101000000" then 820454400 else 0

/-- A host with two databases, and one with all. -/
def sampleArupdate : List UdbConfig :=
  [⟨bytes "archie.one", [⟨bytes "webindex", bytes "*", 100, bytes "rw", 30, 820454400, 0⟩,
      ⟨bytes "anonftp", bytes "us:ca", -1, bytes "r-", 2880, 0, 3⟩]⟩,
    ⟨bytes "archie.two", [⟨bytes "*", bytes "*", 0, bytes "r", 90, 0, 0⟩]⟩]

/-- A host with all databases and another one. -/
def sampleAllBeside : List UdbConfig :=
  [⟨bytes "archie.one", [⟨bytes "*", bytes "*", 100, bytes "rw", 60, 820454400, 0⟩,
      ⟨bytes "anonftp", bytes "us:ca", 20, bytes "r", 120, 0, 3⟩]⟩]

theorem wellFormed_samples :
    ∀ config ∈ sampleArupdate ++ sampleAllBeside, config.WellFormed sampleCvtFrom sampleCvtTo := by
  intro config hconfig
  simp only [sampleArupdate, sampleAllBeside, List.mem_append, List.mem_cons, List.not_mem_nil,
    or_false] at hconfig
  rcases hconfig with (rfl | rfl) | rfl
  all_goals
    refine ⟨by decide +kernel, by simp, fun attrib hattrib => ?_⟩
    simp only [List.mem_cons, List.not_mem_nil, or_false] at hattrib
  · rcases hattrib with rfl | rfl <;> constructor <;> decide +kernel
  · obtain rfl := hattrib
    constructor <;> decide +kernel
  · rcases hattrib with rfl | rfl <;> constructor <;> decide +kernel

end Archie
