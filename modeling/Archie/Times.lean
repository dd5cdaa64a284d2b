/-
Times as text (`libarchie/times.c`), with the functions of the C library that are used.

* `locate`, `before` — places in consecutive stretches of some lengths.
* `gmtime`, `timegm`, `TimeZone` — the calendar and a time zone.
* `cvtFromInttime`, `cvtToInttime` — the two functions.
* `timegm_gmtime` — the calendar is read back.
* `scanTime_strftime` — so is its text.
* `timeKept_iff` — when a time is read back.
-/
import Archie.CText
import Mathlib.Data.List.GetD
import Mathlib.Tactic.IntervalCases

namespace Archie

/-! ### Consecutive stretches -/

/-- The stretch from `i` on and the place in it, for a place after the stretches before `i`. -/
def locate (len : ℕ → ℕ) : ℕ → ℕ → ℕ → ℕ × ℕ
  | 0, i, d => (i, d)
  | fuel + 1, i, d => if d < len i then (i, d) else locate len fuel (i + 1) (d - len i)

/-- The length of the first `n` stretches. -/
def before (len : ℕ → ℕ) : ℕ → ℕ
  | 0 => 0
  | n + 1 => before len n + len n

theorem locate_spec {len : ℕ → ℕ} {fuel i d : ℕ} (h : before len i + d < before len (i + fuel)) :
    before len (locate len fuel i d).1 + (locate len fuel i d).2 = before len i + d ∧
      (locate len fuel i d).2 < len (locate len fuel i d).1 ∧ (locate len fuel i d).1 < i + fuel := by
  induction fuel generalizing i d with
  | zero =>
    rw [Nat.add_zero] at h
    omega
  | succ fuel ih =>
    rw [locate]
    split
    next hd => exact ⟨rfl, hd, by omega⟩
    next hd =>
      have hnext : before len (i + 1) = before len i + len i := rfl
      obtain ⟨hsum, hlt, hidx⟩ := ih (i := i + 1) (d := d - len i) (by
        rw [hnext, Nat.add_right_comm i 1 fuel]
        rw [← Nat.add_assoc] at h
        omega)
      exact ⟨by omega, hlt, by omega⟩

theorem le_before {len : ℕ → ℕ} {a : ℕ} (h : ∀ i, a ≤ len i) (n : ℕ) : a * n ≤ before len n := by
  induction n with
  | zero => exact Nat.zero_le _
  | succ n ih =>
    have := h n
    rw [before, Nat.mul_succ]
    omega

theorem before_le {len : ℕ → ℕ} {b : ℕ} (h : ∀ i, len i ≤ b) (n : ℕ) : before len n ≤ b * n := by
  induction n with
  | zero => exact Nat.zero_le _
  | succ n ih =>
    have := h n
    rw [before, Nat.mul_succ]
    omega

/-! ### The C library -/

/-- `struct tm`. -/
structure Tm where
  tmSec : ℤ
  tmMin : ℤ
  tmHour : ℤ
  tmMday : ℤ
  tmMon : ℤ
  tmYear : ℤ
  tmGmtoff : ℤ
  deriving DecidableEq

def isLeap (year : ℕ) : Bool := year % 4 == 0 && (year % 100 != 0 || year % 400 == 0)

/-- The days of the year after `n` years from the year 1 on. -/
def yearDays (n : ℕ) : ℕ := if isLeap (n + 1) then 366 else 365

/-- The days of its months. -/
def monthDays (n m : ℕ) : ℕ :=
  [31, if isLeap (n + 1) then 29 else 28, 31, 30, 31, 30, 31, 31, 30, 31, 30, 31].getD m 0

/-- The days from 1 January of the year 1 to the epoch. -/
def epochDays : ℤ := 719162

example : before yearDays 1969 = 719162 := by decide +kernel

/-- `gmtime`. -/
def gmtime (t : ℤ) : Tm :=
  let d := (t / 86400 + epochDays).toNat
  let (n, yday) := locate yearDays (d + 1) 0 d
  let (mon, mday) := locate (monthDays n) 12 0 yday
  ⟨t % 60, t / 60 % 60, t / 3600 % 24, mday + 1, mon, (n : ℤ) + 1 - 1900, 0⟩

/-- The time of fields that are those of `gmtime`. -/
def timegm (tm : Tm) : ℤ :=
  let n := (tm.tmYear + 1900 - 1).toNat
  let days := before yearDays n + before (monthDays n) tm.tmMon.toNat + (tm.tmMday - 1) - epochDays
  ((days * 24 + tm.tmHour) * 60 + tm.tmMin) * 60 + tm.tmSec

/-- A local time zone: its offset from Greenwich in seconds, what is added in summer, and when. -/
structure TimeZone where
  standard : ℤ
  summer : ℤ
  inSummer : ℤ → Bool

/-- The offset at a time. -/
def TimeZone.gmtoff (z : TimeZone) (t : ℤ) : ℤ :=
  z.standard + if z.inSummer t then z.summer else 0

/-- `localtime`. -/
def localtime (z : TimeZone) (t : ℤ) : Tm :=
  { gmtime (t + z.gmtoff t) with tmGmtoff := z.gmtoff t }

/-- `mktime` and `timelocal`, where `tm_isdst` is 0: the fields are standard time. -/
def mktime (z : TimeZone) (tm : Tm) : ℤ := timegm tm - z.standard

/-- A number of two digits. -/
def twoDigits (n : ℤ) : List UInt8 :=
  [UInt8.ofNat (48 + n.toNat / 10 % 10), UInt8.ofNat (48 + n.toNat % 10)]

/-- `strftime` with the format `%Y%m%d%H%M%S`, into a string of `max` bytes; none, if it does
not fit. -/
def strftime (max : ℕ) (tm : Tm) : Option (List UInt8) :=
  let s := printSInt (tm.tmYear + 1900) ++ (twoDigits (tm.tmMon + 1) ++ (twoDigits tm.tmMday ++
    (twoDigits tm.tmHour ++ (twoDigits tm.tmMin ++ twoDigits tm.tmSec))))
  if s.length < max then some s else none

/-- `%u` with a width, into an `int`. -/
def scanUInt (width : ℕ) (s : List UInt8) : Option (ℤ × List UInt8) := do
  let s := s.dropWhile isSpace
  let ((minus, n), rest) ← scanNumber (s.take width)
  some (sint (if minus then wordSize - n else n), rest ++ s.drop width)

/-! ### The functions -/

/-- The two variants of the code: for BSD, and for Solaris and AIX. -/
inductive TimesVariant
  | bsd
  | solaris
  deriving DecidableEq

/-- The moment of a conversion: its time, the local time zone, and whether `localtime` and `gmtime`
return the same object. -/
structure Moment where
  zone : TimeZone
  mytime : ℤ
  sameObject : Bool

/-- `timezone_sign`. -/
def timezoneSign (now : Moment) : ℤ :=
  let gmtTm := gmtime now.mytime
  -- The second call overwrites what the first one returned.
  let localTm := if now.sameObject then gmtTm else localtime now.zone now.mytime
  let diff := localTm.tmHour - gmtTm.tmHour
  if diff < 0 then -1
  else if diff = 0 ∧ localTm.tmMin - gmtTm.tmMin < 0 then -1
  else 1

/-- The `sscanf` of `cvt_to_inttime`. -/
def scanTime (datestring : List UInt8) : Option Tm := do
  let (year, s) ← scanUInt 4 datestring
  let (mon, s) ← scanUInt 2 s
  let (mday, s) ← scanUInt 2 s
  let (hour, s) ← scanUInt 2 s
  let (min, s) ← scanUInt 2 s
  let (sec, _) ← scanUInt 2 s
  some ⟨sec, min, hour, mday, mon, year, 0⟩

/-- The fields as `mktime` has them. -/
def adjustFields (variant : TimesVariant) (tm : Tm) : Tm :=
  { tm with
    tmYear := if tm.tmYear ≠ 0 then tm.tmYear - 1900 else if variant = .solaris then 70 else 0
    tmMon := if tm.tmMon ≠ 0 then tm.tmMon - 1 else 0
    tmMday := if tm.tmMday = 0 then 1 else tm.tmMday }

/-- `the_tz`; `timezone` is counted to the west. -/
def theTz (variant : TimesVariant) (now : Moment) (islocal : Bool) : ℤ :=
  if islocal then 0
  else
    match variant with
    | .bsd => (localtime now.zone now.mytime).tmGmtoff
    | .solaris => -now.zone.standard * timezoneSign now

/-- `cvt_to_inttime`. -/
def cvtToInttime (variant : TimesVariant) (now : Moment) (datestring : List UInt8) (islocal : Bool) :
    ℤ :=
  match scanTime datestring with
  | none => 0
  | some inputTime =>
    mktime now.zone (adjustFields variant inputTime) + theTz variant now islocal

/-- `cvt_from_inttime`; `EXTERN_DATE_LEN` is 14. -/
def cvtFromInttime (internalTime : ℤ) : Option (List UInt8) := strftime (14 + 1) (gmtime internalTime)

/-! ### The calendar is read back -/

theorem yearDays_bounds (n : ℕ) : 365 ≤ yearDays n ∧ yearDays n ≤ 366 := by
  rw [yearDays]
  split <;> omega

theorem monthDays_le (n m : ℕ) : monthDays n m ≤ 31 := by
  rcases Nat.lt_or_ge m 12 with hm | hm
  · rw [monthDays]
    interval_cases m <;> simp only [List.getD_cons_zero, List.getD_cons_succ] <;>
      first | omega | (split <;> omega)
  · rw [monthDays, List.getD_eq_default _ _ hm]
    exact Nat.zero_le 31

/-- The months of a year are all of it. -/
theorem before_monthDays (n : ℕ) : before (monthDays n) 12 = yearDays n := by
  simp only [before, monthDays, List.getD_cons_zero, List.getD_cons_succ, yearDays]
  split <;> rfl

/-- The year, month and day of a day, and what they say. -/
theorem gmtime_day (d : ℕ) :
    ∃ n mon mday, locate yearDays (d + 1) 0 d = (n, before (monthDays n) mon + mday) ∧
      locate (monthDays n) 12 0 (before (monthDays n) mon + mday) = (mon, mday) ∧
      before yearDays n + (before (monthDays n) mon + mday) = d ∧ mon < 12 ∧ mday < 31 ∧
      365 * n ≤ d ∧ d < 366 * (n + 1) := by
  have hyears := le_before (fun i => (yearDays_bounds i).1) (d + 1)
  obtain ⟨hsum, hlt, -⟩ := @locate_spec yearDays (d + 1) 0 d (by
    rw [Nat.zero_add]
    show 0 + d < _
    omega)
  rcases hyear : locate yearDays (d + 1) 0 d with ⟨n, yday⟩
  rw [hyear] at hsum hlt
  have hmonths := before_monthDays n
  obtain ⟨hsum', hlt', hmon⟩ := @locate_spec (monthDays n) 12 0 yday (by
    rw [Nat.zero_add, hmonths]
    show 0 + yday < _
    rw [Nat.zero_add]
    exact hlt)
  rcases hmonth : locate (monthDays n) 12 0 yday with ⟨mon, mday⟩
  rw [hmonth] at hsum' hlt' hmon
  have hyday : before (monthDays n) mon + mday = yday := by
    rw [hsum']
    exact Nat.zero_add yday
  have hday := monthDays_le n mon
  have hlow := le_before (fun i => (yearDays_bounds i).1) n
  have hhigh := before_le (fun i => (yearDays_bounds i).2) n
  have hlen := (yearDays_bounds n).2
  have hd : before yearDays n + yday = d := by
    rw [hsum]
    exact Nat.zero_add d
  simp only at hlt hlt' hmon
  exact ⟨n, mon, mday, by rw [hyday], by rw [hyday, hmonth], by rw [hyday, hd], by omega,
    by omega, by omega, by omega⟩

/-- The fields of a time from the epoch to the end of 2037. -/
structure InRange (tm : Tm) : Prop where
  sec : 0 ≤ tm.tmSec ∧ tm.tmSec < 60
  min : 0 ≤ tm.tmMin ∧ tm.tmMin < 60
  hour : 0 ≤ tm.tmHour ∧ tm.tmHour < 24
  mday : 1 ≤ tm.tmMday ∧ tm.tmMday ≤ 31
  mon : 0 ≤ tm.tmMon ∧ tm.tmMon < 12
  year : 1000 ≤ tm.tmYear + 1900 ∧ tm.tmYear + 1900 < 10000
  gmtoff : tm.tmGmtoff = 0

/-- **The calendar** is read back. -/
theorem timegm_gmtime {t : ℤ} (h0 : 0 ≤ t) (ht : t < 2145916800) :
    timegm (gmtime t) = t ∧ InRange (gmtime t) := by
  set d := (t / 86400 + epochDays).toNat with hd
  obtain ⟨n, mon, mday, hyear, hmonth, hsum, hmon, hmday, hlow, hhigh⟩ := gmtime_day d
  have hday : (d : ℤ) = t / 86400 + 719162 := by
    rw [hd, epochDays]
    omega
  have heq : gmtime t = ⟨t % 60, t / 60 % 60, t / 3600 % 24, mday + 1, mon, (n : ℤ) + 1 - 1900, 0⟩ := by
    rw [gmtime, ← hd, hyear]
    simp only [hmonth]
  rw [heq]
  constructor
  · have hn : ((n : ℤ) + 1 - 1900 + 1900 - 1).toNat = n := by omega
    rw [timegm]
    simp only [hn, Int.toNat_natCast, epochDays]
    have hsum' : (before yearDays n : ℤ) + (before (monthDays n) mon + mday) = d := by
      exact_mod_cast hsum
    omega
  · constructor
    case gmtoff => rfl
    all_goals
      simp only
      omega

/-! ### The text is read back -/

theorem isDigit_twoDigits (n : ℤ) : ∀ c ∈ twoDigits n, isDigit c = true := by
  intro c hc
  rw [twoDigits, List.mem_cons, List.mem_singleton] at hc
  rcases hc with rfl | rfl <;> exact isDigit_decDigit (Nat.mod_lt _ (by omega))

theorem digitsValue_twoDigits {n : ℤ} (h0 : 0 ≤ n) (hn : n < 100) :
    (digitsValue (twoDigits n) : ℤ) = n := by
  have htens := digitsValue_concat [] (Nat.mod_lt (n.toNat / 10) (show 0 < 10 by omega))
  have hones := digitsValue_concat [UInt8.ofNat (48 + n.toNat / 10 % 10)]
    (Nat.mod_lt n.toNat (show 0 < 10 by omega))
  rw [List.nil_append] at htens
  rw [List.singleton_append, htens] at hones
  rw [twoDigits, hones]
  show ((10 * (10 * 0 + n.toNat / 10 % 10) + n.toNat % 10 : ℕ) : ℤ) = n
  omega

/-- A year of four digits. -/
theorem printSInt_year {n : ℤ} (h : 1000 ≤ n) (hn : n < 10000) :
    (printSInt n).length = 4 ∧ (∀ c ∈ printSInt n, isDigit c = true) ∧
      (digitsValue (printSInt n) : ℤ) = n := by
  have hprint : printSInt n = printULong n.natAbs := by rw [printSInt, if_neg (by omega)]
  rw [hprint]
  refine ⟨?_, isDigit_printULong _, by rw [digitsValue_printULong]; omega⟩
  rw [printULong, if_neg (by omega), printULong, if_neg (by omega), printULong, if_neg (by omega),
    printULong, if_pos (by omega)]
  rfl

/-- Digits that fill a field are read. -/
theorem scanUInt_digits {ds : List UInt8} {width : ℕ} (hwidth : ds.length = width) (hne : ds ≠ [])
    (hds : ∀ c ∈ ds, isDigit c = true) {n : ℤ} (hn : (digitsValue ds : ℤ) = n)
    (hint : n < 2147483648) (rest : List UInt8) : scanUInt width (ds ++ rest) = some (n, rest) := by
  obtain ⟨c, t, hct⟩ := List.exists_cons_of_ne_nil hne
  have hspace := (not_isSpace_of_isDigit (hds c (by rw [hct]; exact List.mem_cons_self))).1
  have hdrop : (ds ++ rest).dropWhile isSpace = ds ++ rest :=
    dropWhile_isSpace_of_head hspace (show ds ++ rest = c :: (t ++ rest) by
      rw [hct, List.cons_append])
  have hscan : scanNumber ds = some ((false, digitsValue ds), []) := by
    have h := scanNumber_digits hne hds noDigit_nil
    rwa [List.append_nil] at h
  have hsint : sint (digitsValue ds) = n := by
    rw [← hn]
    exact sint_natCast (by omega)
  rw [scanUInt]
  simp only [hdrop, ← hwidth, List.take_left, hscan, Option.bind_eq_bind, Option.bind_some,
    List.drop_left, List.nil_append, Bool.false_eq_true, if_false, hsint]

/-- The fields as they are written. -/
def writtenFields (tm : Tm) : Tm :=
  { tm with tmMon := tm.tmMon + 1, tmYear := tm.tmYear + 1900 }

/-- **The text** is read back. -/
theorem scanTime_strftime {tm : Tm} (h : InRange tm) :
    ∃ s, strftime (14 + 1) tm = some s ∧ scanTime s = some (writtenFields tm) := by
  obtain ⟨hsec, hmin, hhour, hmday, hmon, hyear, hgmtoff⟩ := h
  obtain ⟨hlen, hdigits, hvalue⟩ := printSInt_year hyear.1 hyear.2
  have htwo : ∀ {n : ℤ}, 0 ≤ n → n < 100 → ∀ rest, scanUInt 2 (twoDigits n ++ rest) = some (n, rest) :=
    fun h0 hn rest => scanUInt_digits rfl (List.cons_ne_nil _ _) (isDigit_twoDigits _)
      (digitsValue_twoDigits h0 hn) (by omega) rest
  have hlast : scanUInt 2 (twoDigits tm.tmSec) = some (tm.tmSec, []) := by
    have hsec := htwo hsec.1 (by omega) []
    rwa [List.append_nil] at hsec
  refine ⟨_, if_pos ?_, ?_⟩
  · simp only [List.length_append, hlen, twoDigits, List.length_cons, List.length_nil]
    omega
  · rw [scanTime, scanUInt_digits hlen (List.ne_nil_of_length_pos (by omega)) hdigits hvalue
      (by omega)]
    simp only [Option.bind_eq_bind, Option.bind_some]
    rw [htwo (by omega) (by omega), Option.bind_some, htwo (by omega) (by omega), Option.bind_some,
      htwo (by omega) (by omega), Option.bind_some, htwo (by omega) (by omega), Option.bind_some,
      hlast, Option.bind_some, writtenFields, hgmtoff]

/-- The fields are those of `gmtime` again. -/
theorem adjustFields_writtenFields (variant : TimesVariant) {tm : Tm} (h : InRange tm) :
    adjustFields variant (writtenFields tm) = tm := by
  obtain ⟨-, -, -, hmday, hmon, hyear, -⟩ := h
  rw [adjustFields, writtenFields]
  simp only [if_pos (show tm.tmYear + 1900 ≠ 0 by omega), if_pos (show tm.tmMon + 1 ≠ 0 by omega),
    if_neg (show ¬ tm.tmMday = 0 by omega), Int.add_sub_cancel]

/-! ### Which times are read back -/

/-- A time is the same, after it was written and read. -/
def TimeKept (variant : TimesVariant) (now : Moment) (t : ℤ) : Prop :=
  ∃ s, cvtFromInttime t = some s ∧ cvtToInttime variant now s false = t

/-- The minute of a day in which a time is. -/
def minuteOfDay (t : ℤ) : ℤ := t % 86400 / 60

/-- What must hold of the moment: there is no summer time then, or for Solaris the zone is that of
Greenwich, or the local time of day is before that of Greenwich. -/
def Moment.Keeps (now : Moment) : TimesVariant → Prop
  | .bsd => now.zone.gmtoff now.mytime = now.zone.standard
  | .solaris => now.zone.standard = 0 ∨ now.sameObject = false ∧
    minuteOfDay (now.mytime + now.zone.gmtoff now.mytime) < minuteOfDay now.mytime

/-- The result is off by what is added beyond the standard offset. -/
theorem cvtToInttime_cvtFromInttime (variant : TimesVariant) (now : Moment) {t : ℤ} (h0 : 0 ≤ t)
    (ht : t < 2145916800) : ∃ s, cvtFromInttime t = some s ∧
      cvtToInttime variant now s false = t - now.zone.standard + theTz variant now false := by
  obtain ⟨htime, hrange⟩ := timegm_gmtime h0 ht
  obtain ⟨s, hs, hfields⟩ := scanTime_strftime hrange
  refine ⟨s, hs, ?_⟩
  rw [cvtToInttime, hfields]
  show mktime _ (adjustFields variant (writtenFields (gmtime t))) + _ = _
  rw [adjustFields_writtenFields variant hrange, mktime, htime]

theorem timezoneSign_eq (now : Moment) :
    timezoneSign now = if now.sameObject = false ∧
      minuteOfDay (now.mytime + now.zone.gmtoff now.mytime) < minuteOfDay now.mytime
        then -1 else 1 := by
  have hfields : ∀ t, (gmtime t).tmHour = t / 3600 % 24 ∧ (gmtime t).tmMin = t / 60 % 60 :=
    fun t => ⟨rfl, rfl⟩
  rw [timezoneSign]
  cases hsame : now.sameObject with
  | true =>
    simp only [if_true, sub_self]
    rfl
  | false =>
    simp only [localtime, hfields, Bool.false_eq_true, if_false, true_and, minuteOfDay]
    split_ifs <;> omega

/-- **When a time is read back.** -/
theorem timeKept_iff (variant : TimesVariant) (now : Moment) {t : ℤ} (h0 : 0 ≤ t)
    (ht : t < 2145916800) : TimeKept variant now t ↔ now.Keeps variant := by
  obtain ⟨s, hs, hresult⟩ := cvtToInttime_cvtFromInttime variant now h0 ht
  have hkept : TimeKept variant now t ↔ theTz variant now false = now.zone.standard := by
    constructor
    · rintro ⟨s', hs', heq⟩
      obtain rfl := Option.some.inj (hs.symm.trans hs')
      rw [hresult] at heq
      omega
    · intro heq
      exact ⟨s, hs, by rw [hresult]; omega⟩
  rw [hkept]
  cases variant with
  | bsd => exact Iff.rfl
  | solaris =>
    show -now.zone.standard * timezoneSign now = now.zone.standard ↔ _
    rw [timezoneSign_eq, Moment.Keeps]
    split
    next h => exact iff_of_true (by omega) (Or.inr h)
    next h =>
      constructor
      · intro heq
        exact Or.inl (by omega)
      · rintro (hzero | hback)
        · rw [hzero]
          rfl
        · exact absurd hback h

/-- Greenwich, in winter. -/
theorem timeKept_sample : TimeKept .solaris ⟨⟨0, 3600, fun _ => false⟩, 0, false⟩ 951827696 :=
  (timeKept_iff .solaris _ (by omega) (by omega)).mpr (Or.inl rfl)

/-- An hour east of Greenwich, at noon of a day in summer. -/
def summerMoment : Moment := ⟨⟨3600, 3600, fun _ => true⟩, 43200, false⟩

/-- A time comes back an hour later from the BSD variant, and two hours earlier from the one for
Solaris. -/
theorem not_timeKept :
    ¬ ∀ (variant : TimesVariant) (now : Moment) (t : ℤ), 0 ≤ t → t < 2145916800 →
      TimeKept variant now t := by
  intro h
  obtain ⟨s, hs, heq⟩ := h .bsd summerMoment 951827696 (by omega) (by omega)
  obtain ⟨s', hs', heq'⟩ := h .solaris summerMoment 951827696 (by omega) (by omega)
  have htext : cvtFromInttime 951827696 = some (bytes "20000229123456") := by decide +kernel
  have hlate : cvtToInttime .bsd summerMoment (bytes "20000229123456") false = 951831296 ∧
      cvtToInttime .solaris summerMoment (bytes "20000229123456") false = 951820496 := by
    decide +kernel
  obtain rfl := Option.some.inj (hs.symm.trans htext)
  rw [hlate.1] at heq
  omega

end Archie
