/-
Who may see a restricted document (`ferretd/authorization.c`).

* `getpwent`, `verifyDates`, `verifyClasses`, `parseAuthorization` — the functions.
* `Date`, `PasswdEntry` — what the password file is about.
* `verifyDates_text` — the month of today is taken to be the one before.
* `getpwent_line`, `verifyClasses_tuples` — what is read of a line.
* `accessRight_iff` — when access is granted to the right users.
-/
import Archie.Base64
import Archie.Times

namespace Archie

/-! ### The functions -/

/-- `struct passwd`, without the fields that are always null. -/
structure Passwd where
  pwName : Option (List UInt8)
  pwPasswd : Option (List UInt8)
  pwUid : ℤ
  pwGid : ℤ
  pwGecos : Option (List UInt8)
  pwDir : Option (List UInt8)
  pwShell : Option (List UInt8)

/-- A search for a character: the text before it and after it; none, where it runs over the end of
the text. -/
def fieldUntil (c : UInt8) (tmp : List UInt8) : Option (List UInt8 × List UInt8) :=
  if c ∈ tmp then some (tmp.takeWhile (· ≠ c), (tmp.dropWhile (· ≠ c)).tail) else none

/-- A field as a string: null, if it is empty. -/
def passwdString (field : List UInt8) : Option (List UInt8) :=
  let s := field.takeWhile (· ≠ 0)
  if s = [] then none else some s

/-- A field as a number: -1, if it is empty. -/
def passwdNumber (field : List UInt8) : ℤ := ((passwdString field).map atoi).getD (-1)

/-- `my_getpwent`, after `fgets`; none, where it reads outside of the line. -/
def getpwent (passwdBuff : List UInt8) : Option Passwd := do
  let (name, tmp) ← fieldUntil 58 passwdBuff
  let (passwd, tmp) ← fieldUntil 58 tmp
  let (uid, tmp) ← fieldUntil 58 tmp
  let (gid, tmp) ← fieldUntil 58 tmp
  let (gecos, tmp) ← fieldUntil 58 tmp
  let (dir, tmp) ← fieldUntil 58 tmp
  let (shell, _) ← fieldUntil 10 tmp
  some ⟨passwdString name, passwdString passwd, passwdNumber uid, passwdNumber gid,
    passwdString gecos, passwdString dir, passwdString shell⟩

/-- The characters that `clean_tuples` takes away in front. -/
def isOpening (c : UInt8) : Bool := c == 40 || isBlankChar c

/-- `clean_tuples`. -/
def cleanTuples (cls date : List UInt8) : List UInt8 × List UInt8 :=
  (cls.dropWhile isOpening, (date.dropWhile isOpening).takeWhile (· ≠ 41))

/-- `verify_dates`; `localTime` is none, if the time is not known. -/
def verifyDates (localTime : Option Tm) (d : Option (List UInt8)) : Bool :=
  match d with
  | none => true
  | some [] => true
  | some d =>
    let date := atoi d
    if date = 0 then true
    else
      let day := date.tmod 100
      let month := ((date - day).tdiv 100).tmod 100
      let year := (date - month * 100 + day).tdiv 10000
      let year := if year > 100 then year - 1900 else year
      match localTime with
      | none => false
      | some tm =>
        if year < tm.tmYear then false
        else if year = tm.tmYear then
          if month < tm.tmMon then false
          else if month = tm.tmMon then
            if day < tm.tmMday then false else true
          else true
        else true

/-- The loop of `verify_classes`; none, where the program ends. -/
def tupleLoop (localTime : Option Tm) (classes : List (List UInt8)) :
    List (List UInt8) → Option Bool
  | cls :: date :: aptr =>
    if cls = [] then none
    else
      let (cls, date) := cleanTuples cls date
      if classes.any fun pval => pval == cls && verifyDates localTime (some date) then some true
      else tupleLoop localTime classes aptr
  | _ => some false

/-- `verify_classes`; `classes` is the value of the attribute. -/
def verifyClasses (localTime : Option Tm) (classStr : Option (List UInt8))
    (classes : List (List UInt8)) : Option Bool :=
  if classes = [] then some true
  else
    match classStr with
    | none => some true
    | some [] => some true
    | some s =>
      let aptr := strSepFields 44 [] s
      if aptr.length % 2 ≠ 0 then none else tupleLoop localTime classes aptr

/-- The loop of `verify_user` over the lines; none, where the program fails. -/
def userLoop (localTime : Option Tm) (u p : List UInt8) (classes : List (List UInt8)) :
    List (List UInt8) → Option Bool
  | [] => some false
  | passwdBuff :: lines => do
    let ptr ← getpwent passwdBuff
    let name ← ptr.pwName
    if u = name then
      let passwd ← ptr.pwPasswd
      if p = passwd ∧ verifyDates localTime ptr.pwDir = true then
        verifyClasses localTime ptr.pwShell classes
      else some false
    else userLoop localTime u p classes lines

/-- `verify_user`, where `passfile` is the text of the file, if it can be opened. -/
def verifyUser (localTime : Option Tm) (passfile : Option (List UInt8)) (u p : List UInt8)
    (classes : List (List UInt8)) : Option Bool :=
  match passfile with
  | none => some false
  | some text => userLoop localTime u p classes (fgetsLines 500 text)

/-- `authorized`. -/
def authorized (localTime : Option Tm) (passfile : Option (List UInt8)) (s e : List UInt8)
    (classes : List (List UInt8)) : Option Bool :=
  if s ≠ bytes "Basic" then some false
  else do
    let up ← decode e
    let u := up.takeWhile fun c => c ≠ 0 && c ≠ 58
    match up.drop (u.length + 1) with
    -- The password is outside of what was decoded.
    | [] => none
    | p => verifyUser localTime passfile u (p.takeWhile (· ≠ 0)) classes

/-- `PATTRIB`: an attribute with its name and its values. -/
structure Pattrib where
  aname : List UInt8
  sequence : List (List UInt8)

/-- `parseAuthorization`, for an attribute and those after it; none, where it fails. -/
def parseAuthorization (localTime : Option Tm) (passfile t : Option (List UInt8)) (p : Pattrib)
    (next : List Pattrib) : Option Bool :=
  match t with
  | none => some (((p :: next).find? (·.aname = bytes "BUNYIP-RESTRICTED-ACCESS")).isNone)
  | some t =>
    let t := t.dropWhile isBlankChar
    let s := t.takeWhile (!isBlankChar ·)
    match t.dropWhile (!isBlankChar ·) with
    -- It goes on after the end of the text.
    | [] => none
    | _ :: t =>
      let e := (t.dropWhile isBlankChar).takeWhile (!isBlankChar ·)
      authorized localTime passfile s e p.sequence

/-! ### The password file -/

/-- A day. -/
structure Date where
  year : ℕ
  month : ℕ
  day : ℕ
  year_le : 1900 ≤ year ∧ year ≤ 9999
  month_le : 1 ≤ month ∧ month ≤ 12
  day_le : 1 ≤ day ∧ day ≤ 31
  deriving DecidableEq

/-- The number `YYYYMMDD`. -/
def Date.number (d : Date) : ℕ := d.year * 10000 + d.month * 100 + d.day

/-- The text of a date, which may be absent. -/
def dateText (d : Option Date) : List UInt8 :=
  match d with
  | none => []
  | some d => printULong d.number

/-- The fields of `localtime` on a day. -/
def Date.localTime (d : Date) : Tm := ⟨0, 0, 0, d.day, (d.month : ℤ) - 1, (d.year : ℤ) - 1900, 0⟩

/-- A class with a date. -/
structure ClassTuple where
  opening : List UInt8
  name : List UInt8
  blanks : List UInt8
  date : Option Date
  opening_ok : opening ≠ [] ∧ ∀ c ∈ opening, isOpening c = true
  name_ok : (∀ c ∈ name.head?, isOpening c = false) ∧ ∀ c ∈ name, c ≠ 0 ∧ c ≠ 10 ∧ c ≠ 44 ∧ c ≠ 58
  blanks_ok : ∀ c ∈ blanks, isBlankChar c = true

/-- `(class,[date])`. -/
def ClassTuple.fields (t : ClassTuple) : List (List UInt8) :=
  [t.opening ++ t.name, t.blanks ++ (dateText t.date ++ [41])]

/-- The tuples with commas between them, and one after the last if `comma` says so. -/
def tuplesText (comma : Bool) : List ClassTuple → List UInt8
  | [] => []
  | [t] => [44].intercalate t.fields ++ if comma then [44] else []
  | t :: ts => [44].intercalate t.fields ++ 44 :: tuplesText comma ts

/-- A line of the password file. -/
structure PasswdEntry where
  name : List UInt8
  passwd : List UInt8
  uid : List UInt8
  gid : List UInt8
  gecos : List UInt8
  expiry : Option Date
  tuples : List ClassTuple
  comma : Bool
  name_ne : name ≠ []
  passwd_ne : passwd ≠ []
  plain : ∀ field ∈ [name, passwd, uid, gid, gecos], ∀ c ∈ field, c ≠ 0 ∧ c ≠ 10 ∧ c ≠ 58

namespace PasswdEntry

/-- The line, without its newline. -/
def line (e : PasswdEntry) : List UInt8 :=
  e.name ++ 58 :: (e.passwd ++ 58 :: (e.uid ++ 58 :: (e.gid ++ 58 :: (e.gecos ++ 58 ::
    (dateText e.expiry ++ 58 :: tuplesText e.comma e.tuples)))))

end PasswdEntry

/-- The text of the file. -/
def passwdText (entries : List PasswdEntry) : List UInt8 :=
  entries.flatMap fun e => e.line ++ [10]

/-- Whether the first line of a user has the password and opens the document, where `valid` says
which dates are not over. -/
def Grants (valid : Option Date → Prop) (entries : List PasswdEntry) (classes : List (List UInt8))
    (user password : List UInt8) : Prop :=
  ∃ e ∈ entries.find? (·.name = user), e.passwd = password ∧ valid e.expiry ∧
    (classes = [] ∨ e.tuples = [] ∨ ∃ t ∈ e.tuples, t.name ∈ classes ∧ valid t.date)

/-- A date is not before today. -/
def InDate (today : Date) (d : Option Date) : Prop := ∀ x ∈ d, today.number ≤ x.number

instance (today : Date) (d : Option Date) : Decidable (InDate today d) :=
  inferInstanceAs (Decidable (∀ x ∈ d, _))

/-- A date is over, but not before the same day of the last month, within the year. -/
def Lapsed (today : Date) (d : Option Date) : Prop :=
  ∃ x ∈ d, x.number < today.number ∧ today.number ≤ x.number + 100

/-! ### Dates -/

/-- What `verify_dates` takes to be not over. -/
def NotFoundOver (today : Date) (d : Option Date) : Prop :=
  ∀ x ∈ d, today.number ≤ x.number + 100

theorem notFoundOver_iff {today : Date} {d : Option Date} :
    NotFoundOver today d ↔ InDate today d ∨ Lapsed today d := by
  cases d with
  | none => exact iff_of_true (fun x hx => nomatch hx) (Or.inl fun x hx => nomatch hx)
  | some x =>
    constructor
    · intro h
      have hx := h x rfl
      rcases Nat.lt_or_ge x.number today.number with hlt | hge
      · exact Or.inr ⟨x, rfl, hlt, hx⟩
      · exact Or.inl fun y hy => Option.some.inj hy ▸ hge
    · rintro (h | ⟨y, hy, -, hle⟩) z hz
      · exact Nat.le_add_right_of_le (h z hz)
      · obtain rfl := Option.some.inj (hy.symm.trans hz)
        exact hle

theorem lapsed_not_inDate {today : Date} {d : Option Date} (h : Lapsed today d) :
    ¬ InDate today d := by
  obtain ⟨x, hx, hlt, -⟩ := h
  intro hin
  exact absurd (hin x hx) (not_le.mpr hlt)

/-- The month of today is taken to be the one before. -/
theorem verifyDates_number (today x : Date) :
    verifyDates (some today.localTime) (some (printULong x.number)) = true ↔
      today.number ≤ x.number + 100 := by
  have hyear := x.year_le
  have hmonth := x.month_le
  have hday := x.day_le
  have hyear' := today.year_le
  have hmonth' := today.month_le
  have hday' := today.day_le
  have hnumber : x.number = x.year * 10000 + x.month * 100 + x.day := rfl
  have htoday : today.number = today.year * 10000 + today.month * 100 + today.day := rfl
  have hatoi : atoi (printULong x.number) = x.number := by
    rw [atoi_printULong]
    omega
  have hd : (x.number : ℤ).tmod 100 = x.day := by
    rw [Int.tmod_eq_emod_of_nonneg (by omega)]
    omega
  have hm : (((x.number : ℤ) - x.day).tdiv 100).tmod 100 = x.month := by
    rw [Int.tdiv_eq_ediv_of_nonneg (by omega), Int.tmod_eq_emod_of_nonneg (by omega)]
    omega
  have hy : ((x.number : ℤ) - x.month * 100 + x.day).tdiv 10000 = x.year := by
    rw [Int.tdiv_eq_ediv_of_nonneg (by omega)]
    omega
  obtain ⟨c, t, hct⟩ := List.exists_cons_of_ne_nil (printULong_ne_nil x.number)
  rw [hct] at hatoi ⊢
  rw [verifyDates.eq_3 _ _ (List.cons_ne_nil c t)]
  have hlarge : (x.year : ℤ) > 100 := by omega
  simp only [hatoi, hd, hm, hy, if_pos hlarge, Date.localTime]
  rw [if_neg (by omega)]
  split_ifs <;> simp only [false_iff, true_iff] <;> omega

theorem verifyDates_text (today : Date) (d : Option Date) :
    verifyDates (some today.localTime) (some (dateText d)) = true ↔ NotFoundOver today d := by
  cases d with
  | none => exact iff_of_true rfl fun x hx => nomatch hx
  | some x =>
    rw [dateText, verifyDates_number]
    exact ⟨fun h y hy => Option.some.inj hy ▸ h, fun h => h x rfl⟩

/-- The characters of a date. -/
theorem mem_dateText {d : Option Date} {c : UInt8} (hc : c ∈ dateText d) : isDigit c = true := by
  cases d with
  | none => exact absurd hc List.not_mem_nil
  | some x => exact isDigit_printULong _ c hc

/-- A digit is no separator. -/
theorem isDigit_plain {c : UInt8} (hc : isDigit c = true) :
    c ≠ 0 ∧ c ≠ 10 ∧ c ≠ 44 ∧ c ≠ 58 ∧ c ≠ 41 ∧ isOpening c = false := by
  have hne : ∀ d : UInt8, isDigit d = false → c ≠ d := by
    rintro d hd rfl
    rw [hc] at hd
    exact Bool.false_ne_true hd.symm
  refine ⟨hne 0 rfl, hne 10 rfl, hne 44 rfl, hne 58 rfl, hne 41 rfl, ?_⟩
  rw [isOpening, isBlankChar, beq_false_of_ne (hne 40 rfl), beq_false_of_ne (hne 32 rfl),
    beq_false_of_ne (hne 9 rfl)]
  rfl

/-! ### The classes of a user -/

/-- A blank or an opening bracket is no separator. -/
theorem isOpening_plain {c : UInt8} (hc : isOpening c = true) :
    c ≠ 0 ∧ c ≠ 10 ∧ c ≠ 44 ∧ c ≠ 58 := by
  have hne : ∀ d : UInt8, isOpening d = false → c ≠ d := by
    rintro d hd rfl
    rw [hc] at hd
    exact Bool.false_ne_true hd.symm
  exact ⟨hne 0 rfl, hne 10 rfl, hne 44 rfl, hne 58 rfl⟩

theorem isOpening_of_isBlankChar {c : UInt8} (hc : isBlankChar c = true) : isOpening c = true := by
  rw [isOpening, hc, Bool.or_true]

namespace ClassTuple

variable (t : ClassTuple)

/-- The characters of the two parts. -/
theorem mem_fields {field : List UInt8} (hfield : field ∈ t.fields) {c : UInt8} (hc : c ∈ field) :
    c ≠ 0 ∧ c ≠ 10 ∧ c ≠ 44 ∧ c ≠ 58 := by
  rw [fields, List.mem_cons, List.mem_singleton] at hfield
  rcases hfield with rfl | rfl
  · rcases List.mem_append.mp hc with hopen | hname
    · exact isOpening_plain (t.opening_ok.2 c hopen)
    · exact t.name_ok.2 c hname
  · rcases List.mem_append.mp hc with hblank | hdate
    · exact isOpening_plain (isOpening_of_isBlankChar (t.blanks_ok c hblank))
    · rcases List.mem_append.mp hdate with hdigit | hclose
      · have hplain := isDigit_plain (mem_dateText hdigit)
        exact ⟨hplain.1, hplain.2.1, hplain.2.2.1, hplain.2.2.2.1⟩
      · obtain rfl := List.mem_singleton.mp hclose
        decide

/-- **Cleaning** leaves the class and the date. -/
theorem cleanTuples_fields : cleanTuples (t.opening ++ t.name) (t.blanks ++ (dateText t.date ++ [41])) =
    (t.name, dateText t.date) := by
  have hname := (takeWhile_run t.opening_ok.2 t.name_ok.1).2
  have hblanks := @takeWhile_run isOpening t.blanks (dateText t.date ++ [41])
    (fun c hc => isOpening_of_isBlankChar (t.blanks_ok c hc)) (by
      intro c hc
      cases hd : dateText t.date with
      | nil =>
        rw [hd] at hc
        obtain rfl := Option.some.inj hc
        rfl
      | cons d ds =>
        rw [hd] at hc
        obtain rfl := Option.some.inj hc
        have hmem : d ∈ dateText t.date := by
          rw [hd]
          exact List.mem_cons_self
        exact (isDigit_plain (mem_dateText hmem)).2.2.2.2.2)
  have hclose : (41 : UInt8) ∉ dateText t.date := by
    intro h
    exact (isDigit_plain (mem_dateText h)).2.2.2.2.1 rfl
  rw [cleanTuples, hname, hblanks.2, (takeWhile_until hclose []).1]

end ClassTuple

/-- The parts of a tuple are two fields. -/
theorem strSepFields_tuple (t : ClassTuple) (s : List UInt8) :
    strSepFields 44 [] ([44].intercalate t.fields ++ 44 :: s) =
      t.fields ++ strSepFields 44 [] s := by
  have hcls : (44 : UInt8) ∉ t.opening ++ t.name := fun h =>
    (t.mem_fields List.mem_cons_self h).2.2.1 rfl
  have hdate : (44 : UInt8) ∉ t.blanks ++ (dateText t.date ++ [41]) := fun h =>
    (t.mem_fields (List.mem_cons_of_mem _ List.mem_cons_self) h).2.2.1 rfl
  rw [ClassTuple.fields, List.intercalate_cons_cons, List.intercalate_singleton, List.append_assoc,
    List.append_assoc, strSepFields_append hcls, List.nil_append, List.singleton_append,
    strSepFields, if_pos rfl, strSepFields_append hdate, List.nil_append, strSepFields, if_pos rfl]
  rfl

/-- A last tuple without a comma. -/
theorem strSepFields_tuple_last (t : ClassTuple) :
    strSepFields 44 [] ([44].intercalate t.fields) = t.fields := by
  have hcls : (44 : UInt8) ∉ t.opening ++ t.name := fun h =>
    (t.mem_fields List.mem_cons_self h).2.2.1 rfl
  have hdate : (44 : UInt8) ∉ t.blanks ++ (dateText t.date ++ [41]) := fun h =>
    (t.mem_fields (List.mem_cons_of_mem _ List.mem_cons_self) h).2.2.1 rfl
  have hlast := strSepFields_append hdate [] []
  rw [List.append_nil, List.nil_append, strSepFields, if_neg (by simp)] at hlast
  rw [ClassTuple.fields, List.intercalate_cons_cons, List.intercalate_singleton, List.append_assoc,
    strSepFields_append hcls, List.nil_append, List.singleton_append, strSepFields, if_pos rfl,
    hlast]

/-- The tuples are split into their parts. -/
theorem strSepFields_tuples (comma : Bool) (ts : List ClassTuple) :
    strSepFields 44 [] (tuplesText comma ts) = ts.flatMap ClassTuple.fields := by
  induction ts using tuplesText.induct with
  | case1 => rfl
  | case2 t =>
    rw [tuplesText, List.flatMap_singleton]
    cases comma with
    | false => exact (congrArg _ (List.append_nil _)).trans (strSepFields_tuple_last t)
    | true => exact (strSepFields_tuple t []).trans (List.append_nil _)
  | case3 t ts hne ih =>
    rw [tuplesText.eq_3 _ _ _ hne, strSepFields_tuple, ih, List.flatMap_cons]

/-- The loop finds a class of the link whose date it takes to be not over. -/
theorem tupleLoop_tuples (today : Date) (classes : List (List UInt8)) (ts : List ClassTuple) :
    ∃ b, tupleLoop (some today.localTime) classes (ts.flatMap ClassTuple.fields) = some b ∧
      (b = true ↔ ∃ t ∈ ts, t.name ∈ classes ∧ NotFoundOver today t.date) := by
  induction ts with
  | nil => exact ⟨false, rfl, iff_of_false Bool.false_ne_true fun ⟨t, ht, _⟩ => nomatch ht⟩
  | cons t ts ih =>
    obtain ⟨b, hloop, hb⟩ := ih
    have hcls : t.opening ++ t.name ≠ [] := fun h =>
      t.opening_ok.1 (List.append_eq_nil_iff.mp h).1
    have hany : (classes.any fun pval =>
        pval == t.name && verifyDates (some today.localTime) (some (dateText t.date))) = true ↔
        t.name ∈ classes ∧ NotFoundOver today t.date := by
      rw [List.any_eq_true, ← verifyDates_text]
      constructor
      · rintro ⟨pval, hmem, hp⟩
        rw [Bool.and_eq_true, beq_iff_eq] at hp
        exact ⟨hp.1 ▸ hmem, hp.2⟩
      · rintro ⟨hmem, hdate⟩
        exact ⟨t.name, hmem, by rw [Bool.and_eq_true, beq_iff_eq]; exact ⟨rfl, hdate⟩⟩
    rw [List.flatMap_cons]
    show ∃ b, tupleLoop _ classes (_ :: _ :: _) = some b ∧ _
    rw [tupleLoop, if_neg hcls, t.cleanTuples_fields]
    simp only [List.mem_cons, exists_eq_or_imp]
    split
    next h => exact ⟨true, rfl, iff_of_true rfl (Or.inl (hany.mp h))⟩
    next h =>
      refine ⟨b, hloop, hb.trans ⟨Or.inr, ?_⟩⟩
      rintro (hfirst | hrest)
      · exact absurd (hany.mpr hfirst) h
      · exact hrest

theorem length_fields (ts : List ClassTuple) :
    (ts.flatMap ClassTuple.fields).length = 2 * ts.length := by
  induction ts with
  | nil => rfl
  | cons t ts ih =>
    rw [List.flatMap_cons, List.length_append, ih, List.length_cons]
    show 2 + _ = _
    omega

theorem tuplesText_ne_nil (comma : Bool) {ts : List ClassTuple} (h : ts ≠ []) :
    tuplesText comma ts ≠ [] := by
  intro hnil
  have hfields := strSepFields_tuples comma ts
  have hlen := length_fields ts
  rw [hnil, strSepFields, if_pos rfl] at hfields
  rw [← hfields] at hlen
  exact h (List.length_eq_zero_iff.mp (by rw [List.length_nil] at hlen; omega))

/-- The characters of the tuples. -/
theorem mem_tuplesText (comma : Bool) {ts : List ClassTuple} {c : UInt8}
    (hc : c ∈ tuplesText comma ts) : c ≠ 0 ∧ c ≠ 10 ∧ c ≠ 58 := by
  have htuple : ∀ t : ClassTuple, c ∈ [44].intercalate t.fields → c ≠ 0 ∧ c ≠ 10 ∧ c ≠ 58 := by
    intro t ht
    rw [ClassTuple.fields, List.intercalate_cons_cons, List.intercalate_singleton,
      List.append_assoc, List.singleton_append, List.mem_append, List.mem_cons] at ht
    rcases ht with hcls | rfl | hdate
    · have h := t.mem_fields List.mem_cons_self hcls
      exact ⟨h.1, h.2.1, h.2.2.2⟩
    · decide
    · have h := t.mem_fields (List.mem_cons_of_mem _ List.mem_cons_self) hdate
      exact ⟨h.1, h.2.1, h.2.2.2⟩
  induction ts using tuplesText.induct with
  | case1 => exact absurd hc List.not_mem_nil
  | case2 t =>
    rw [tuplesText, List.mem_append] at hc
    rcases hc with ht | hcomma
    · exact htuple t ht
    · cases comma with
      | false => exact absurd hcomma List.not_mem_nil
      | true =>
        obtain rfl := List.mem_singleton.mp hcomma
        decide
  | case3 t ts hne ih =>
    rw [tuplesText.eq_3 _ _ _ hne, List.mem_append, List.mem_cons] at hc
    rcases hc with ht | rfl | hrest
    · exact htuple t ht
    · decide
    · exact ih hrest

theorem passwdString_plain {s : List UInt8} (hs : 0 ∉ s) :
    passwdString s = if s = [] then none else some s := by
  have htake : s.takeWhile (· ≠ 0) = s :=
    List.takeWhile_eq_self_iff.mpr fun c hc => decide_eq_true fun h => hs (h ▸ hc)
  rw [passwdString, htake]

theorem verifyClasses_nil (localTime : Option Tm) (classStr : Option (List UInt8)) :
    verifyClasses localTime classStr [] = some true := by
  rw [verifyClasses.eq_def, if_pos rfl]

theorem verifyClasses_some (localTime : Option Tm) {s : List UInt8} (hs : s ≠ [])
    {classes : List (List UInt8)} (hclasses : classes ≠ []) :
    verifyClasses localTime (some s) classes =
      if (strSepFields 44 [] s).length % 2 ≠ 0 then none
      else tupleLoop localTime classes (strSepFields 44 [] s) := by
  obtain ⟨c, t, rfl⟩ := List.exists_cons_of_ne_nil hs
  rw [verifyClasses.eq_def, if_neg hclasses]

/-- **The classes** of a user. -/
theorem verifyClasses_tuples (today : Date) (classes : List (List UInt8)) (comma : Bool)
    (ts : List ClassTuple) :
    ∃ b, verifyClasses (some today.localTime) (passwdString (tuplesText comma ts)) classes = some b ∧
      (b = true ↔ classes = [] ∨ ts = [] ∨
        ∃ t ∈ ts, t.name ∈ classes ∧ NotFoundOver today t.date) := by
  rw [passwdString_plain fun h => (mem_tuplesText comma h).1 rfl]
  rcases eq_or_ne classes [] with rfl | hclasses
  · exact ⟨true, verifyClasses_nil _ _, iff_of_true rfl (Or.inl rfl)⟩
  rcases eq_or_ne ts [] with rfl | hts
  · exact ⟨true, if_neg hclasses, iff_of_true rfl (Or.inr (Or.inl rfl))⟩
  · obtain ⟨b, hloop, hb⟩ := tupleLoop_tuples today classes ts
    have hne := tuplesText_ne_nil comma hts
    have hlen := length_fields ts
    rw [if_neg hne, verifyClasses_some _ hne hclasses, strSepFields_tuples, if_neg (by omega)]
    refine ⟨b, hloop, hb.trans ⟨fun h => Or.inr (Or.inr h), ?_⟩⟩
    rintro (h | h | h)
    · exact absurd h hclasses
    · exact absurd h hts
    · exact h

/-! ### The lines of the file -/

theorem fieldUntil_append {c : UInt8} {w : List UInt8} (hw : c ∉ w) (rest : List UInt8) :
    fieldUntil c (w ++ c :: rest) = some (w, rest) := by
  obtain ⟨htake, hdrop⟩ := takeWhile_until hw rest
  rw [fieldUntil, if_pos (List.mem_append_right w List.mem_cons_self), htake, hdrop, List.tail_cons]

theorem fieldUntil_some {c : UInt8} {tmp w rest : List UInt8} (h : fieldUntil c tmp = some (w, rest)) :
    c ∈ tmp ∧ ∀ d ∈ rest, d ∈ tmp := by
  rw [fieldUntil] at h
  split at h
  next hc =>
    obtain ⟨-, rfl⟩ := Prod.mk.inj (Option.some.inj h)
    exact ⟨hc, fun d hd => (List.dropWhile_sublist _).subset (List.mem_of_mem_tail hd)⟩
  next => exact absurd h (Option.some_ne_none _).symm

/-- A line without a newline is read over its end. -/
theorem getpwent_none {passwdBuff : List UInt8} (h : 10 ∉ passwdBuff) :
    getpwent passwdBuff = none := by
  rw [Option.eq_none_iff_forall_ne_some]
  intro ptr hptr
  simp only [getpwent, Option.bind_eq_bind, Option.bind_eq_some_iff, Prod.exists] at hptr
  obtain ⟨_, _, h1, _, _, h2, _, _, h3, _, _, h4, _, _, h5, _, _, h6, _, _, h7, _⟩ := hptr
  have hnl := (fieldUntil_some h7).1
  have hall := (fieldUntil_some h1).2 10 ((fieldUntil_some h2).2 10 ((fieldUntil_some h3).2 10
    ((fieldUntil_some h4).2 10 ((fieldUntil_some h5).2 10 ((fieldUntil_some h6).2 10 hnl)))))
  exact h hall

namespace PasswdEntry

variable (e : PasswdEntry)

theorem plain_field {field : List UInt8} (h : field ∈ [e.name, e.passwd, e.uid, e.gid, e.gecos]) :
    0 ∉ field ∧ 10 ∉ field ∧ 58 ∉ field :=
  ⟨fun hc => (e.plain field h 0 hc).1 rfl, fun hc => (e.plain field h 10 hc).2.1 rfl,
    fun hc => (e.plain field h 58 hc).2.2 rfl⟩

theorem expiry_plain : 0 ∉ dateText e.expiry ∧ 10 ∉ dateText e.expiry ∧ 58 ∉ dateText e.expiry :=
  ⟨fun h => (isDigit_plain (mem_dateText h)).1 rfl, fun h => (isDigit_plain (mem_dateText h)).2.1 rfl,
    fun h => (isDigit_plain (mem_dateText h)).2.2.2.1 rfl⟩

/-- No newline is in the line. -/
theorem newline_not_mem_line : 10 ∉ e.line := by
  intro h
  simp only [line, List.mem_append, List.mem_cons] at h
  rcases h with h | h | h | h | h | h | h | h | h | h | h | h | h
  · exact (e.plain_field (by simp)).2.1 h
  · exact absurd h (by decide)
  · exact (e.plain_field (by simp)).2.1 h
  · exact absurd h (by decide)
  · exact (e.plain_field (by simp)).2.1 h
  · exact absurd h (by decide)
  · exact (e.plain_field (by simp)).2.1 h
  · exact absurd h (by decide)
  · exact (e.plain_field (by simp)).2.1 h
  · exact absurd h (by decide)
  · exact e.expiry_plain.2.1 h
  · exact absurd h (by decide)
  · exact (mem_tuplesText e.comma h).2.1 rfl

/-- **A line** is read field by field. -/
theorem getpwent_line : getpwent (e.line ++ [10]) = some ⟨some e.name, some e.passwd,
    passwdNumber e.uid, passwdNumber e.gid, passwdString e.gecos, passwdString (dateText e.expiry),
    passwdString (tuplesText e.comma e.tuples)⟩ := by
  have hname := @plain_field e e.name (by simp)
  have hpasswd := @plain_field e e.passwd (by simp)
  have huid := @plain_field e e.uid (by simp)
  have hgid := @plain_field e e.gid (by simp)
  have hgecos := @plain_field e e.gecos (by simp)
  have hshell : 10 ∉ tuplesText e.comma e.tuples := fun h => (mem_tuplesText e.comma h).2.1 rfl
  rw [getpwent, line]
  simp only [List.append_assoc, List.cons_append]
  rw [fieldUntil_append hname.2.2, Option.bind_eq_bind, Option.bind_some,
    fieldUntil_append hpasswd.2.2, Option.bind_some, fieldUntil_append huid.2.2, Option.bind_some,
    fieldUntil_append hgid.2.2, Option.bind_some, fieldUntil_append hgecos.2.2, Option.bind_some,
    fieldUntil_append e.expiry_plain.2.2, Option.bind_some, fieldUntil_append hshell,
    Option.bind_some, passwdString_plain hname.1, if_neg e.name_ne, passwdString_plain hpasswd.1,
    if_neg e.passwd_ne]

end PasswdEntry

/-- The lines that are read for a user. -/
def readEntries (user : List UInt8) : List PasswdEntry → List PasswdEntry
  | [] => []
  | e :: entries => if e.name = user then [e] else e :: readEntries user entries

/-- **The lines** are read to the first one of the user, if they fit. -/
theorem userLoop_entries (today : Date) (user password : List UInt8) (classes : List (List UInt8))
    {entries : List PasswdEntry} (hfit : ∀ e ∈ readEntries user entries, e.line.length + 1 < 500) :
    ∃ b, userLoop (some today.localTime) user password classes
        (fgetsLines 500 (passwdText entries)) = some b ∧
      (b = true ↔ Grants (NotFoundOver today) entries classes user password) := by
  induction entries with
  | nil => exact ⟨false, rfl, iff_of_false Bool.false_ne_true fun ⟨e, he, _⟩ => nomatch he⟩
  | cons e entries ih =>
    have hshort : e.line.length + 1 < 500 := by
      apply hfit e
      rw [readEntries]
      split <;> exact List.mem_cons_self
    have htext : passwdText (e :: entries) = e.line ++ 10 :: passwdText entries := by
      rw [passwdText, List.flatMap_cons, List.append_assoc, List.singleton_append]
      rfl
    rw [htext, fgetsLines_append e.newline_not_mem_line hshort, userLoop, e.getpwent_line]
    simp only [Option.bind_eq_bind, Option.bind_some]
    by_cases hname : user = e.name
    · have hfind : (e :: entries).find? (·.name = user) = some e :=
        List.find?_cons_of_pos (decide_eq_true hname.symm)
      have hgrants : Grants (NotFoundOver today) (e :: entries) classes user password ↔
          e.passwd = password ∧ NotFoundOver today e.expiry ∧ (classes = [] ∨ e.tuples = [] ∨
            ∃ t ∈ e.tuples, t.name ∈ classes ∧ NotFoundOver today t.date) := by
        rw [Grants, hfind]
        simp only [Option.mem_some_iff, exists_eq_left']
      have hexpiry : verifyDates (some today.localTime) (passwdString (dateText e.expiry)) = true ↔
          NotFoundOver today e.expiry := by
        rw [← verifyDates_text, passwdString_plain e.expiry_plain.1]
        split
        next hnil => rw [hnil]; exact Iff.rfl
        next => exact Iff.rfl
      rw [if_pos hname, hgrants]
      split
      next hok =>
        obtain ⟨b, hclasses, hb⟩ := verifyClasses_tuples today classes e.comma e.tuples
        refine ⟨b, hclasses, hb.trans ?_⟩
        exact ⟨fun h => ⟨hok.1.symm, hexpiry.mp hok.2, h⟩, fun h => h.2.2⟩
      next hbad =>
        refine ⟨false, rfl, iff_of_false Bool.false_ne_true ?_⟩
        rintro ⟨hpasswd, hdate, -⟩
        exact hbad ⟨hpasswd.symm, hexpiry.mpr hdate⟩
    · have hfind : (e :: entries).find? (·.name = user) = entries.find? (·.name = user) :=
        List.find?_cons_of_neg fun h => hname (of_decide_eq_true h).symm
      rw [readEntries, if_neg fun h => hname h.symm] at hfit
      rw [if_neg hname, Grants, hfind]
      exact ih fun x hx => hfit x (List.mem_cons_of_mem e hx)

/-- A line that does not fit is read over the end of the buffer. -/
theorem userLoop_long (localTime : Option Tm) (user password : List UInt8)
    (classes : List (List UInt8)) {entries : List PasswdEntry}
    (hlong : ¬ ∀ e ∈ readEntries user entries, e.line.length + 1 < 500) :
    userLoop localTime user password classes (fgetsLines 500 (passwdText entries)) = none := by
  induction entries with
  | nil => exact absurd (fun e he => nomatch he) hlong
  | cons e entries ih =>
    have htext : passwdText (e :: entries) = e.line ++ 10 :: passwdText entries := by
      rw [passwdText, List.flatMap_cons, List.append_assoc, List.singleton_append]
      rfl
    rw [htext]
    by_cases hshort : e.line.length + 1 < 500
    · have hname : ¬ e.name = user := by
        intro h
        apply hlong
        rw [readEntries, if_pos h]
        intro x hx
        rw [List.mem_singleton.mp hx]
        exact hshort
      rw [fgetsLines_append e.newline_not_mem_line hshort, userLoop, e.getpwent_line]
      simp only [Option.bind_eq_bind, Option.bind_some]
      rw [if_neg fun h => hname h.symm]
      apply ih
      intro hall
      apply hlong
      rw [readEntries, if_neg hname]
      intro x hx
      rcases List.mem_cons.mp hx with rfl | hx
      · exact hshort
      · exact hall x hx
    · -- The first 499 characters are the line, as far as the array goes.
      have hnl : 10 ∉ e.line.take 499 := fun h => e.newline_not_mem_line (List.mem_of_mem_take h)
      have hlen : (e.line.take 499).length + 1 = 500 := by
        rw [List.length_take]
        omega
      obtain ⟨lines, hlines⟩ : ∃ lines, fgetsLines 500 (e.line ++ 10 :: passwdText entries) =
          e.line.take 499 :: lines := by
        have hfull := fgetsLine_full hnl hlen (List.ne_nil_of_length_pos (by omega))
          (e.line.drop 499 ++ 10 :: passwdText entries)
        rw [← List.append_assoc, List.take_append_drop] at hfull
        rw [fgetsLines, List.length_append, List.length_cons, ← Nat.add_assoc, fgetsLoop, hfull]
        exact ⟨_, rfl⟩
      rw [hlines, userLoop, getpwent_none hnl]
      rfl

/-! ### The value of the header -/

/-- The value for a user and a password. -/
def basicValue (gap user password : List UInt8) : List UInt8 :=
  bytes "Basic" ++ (gap ++ base64Text (user ++ 58 :: password))

/-- The user and the password are what was decoded. -/
theorem authorized_basic (localTime : Option Tm) (passfile : Option (List UInt8))
    {user password : List UInt8} (huser : 0 ∉ user ∧ 58 ∉ user) (hpassword : 0 ∉ password)
    (classes : List (List UInt8)) :
    authorized localTime passfile (bytes "Basic") (base64Text (user ++ 58 :: password)) classes =
      verifyUser localTime passfile user password classes := by
  have hdecode := @decode_base64Text (user ++ 58 :: password) (by simp)
  have happend : user ++ 58 :: password ++ padding (user ++ 58 :: password) ++ [0] =
      user ++ 58 :: (password ++ (padding (user ++ 58 :: password) ++ [0])) := by simp
  have hu : (user ++ 58 :: (password ++ (padding (user ++ 58 :: password) ++ [0]))).takeWhile
      (fun c => c ≠ 0 && c ≠ 58) = user := by
    refine (takeWhile_run (fun c hc => ?_) fun c hc => ?_).1
    · have h0 : c ≠ 0 := fun h => huser.1 (h ▸ hc)
      have h58 : c ≠ 58 := fun h => huser.2 (h ▸ hc)
      simp [h0, h58]
    · obtain rfl := Option.some.inj hc
      rfl
  have hp : (password ++ (padding (user ++ 58 :: password) ++ [0])).takeWhile (· ≠ 0) = password := by
    refine (takeWhile_run (fun c hc => ?_) fun c hc => ?_).1
    · have h0 : c ≠ 0 := fun h => hpassword (h ▸ hc)
      exact decide_eq_true h0
    have hzero : c ∈ padding (user ++ 58 :: password) ++ [0] := List.mem_of_mem_head? hc
    have hc0 : c = 0 := by
      rcases List.mem_append.mp hzero with h | h
      · exact List.eq_of_mem_replicate h
      · exact List.mem_singleton.mp h
    rw [hc0]
    rfl
  have hdrop : (user ++ 58 :: (password ++ (padding (user ++ 58 :: password) ++ [0]))).drop
      (user.length + 1) = password ++ (padding (user ++ 58 :: password) ++ [0]) := by
    rw [← List.drop_drop, List.drop_left, List.drop_one, List.tail_cons]
  rw [authorized, if_neg (not_not.mpr rfl), hdecode, happend]
  simp only [Option.bind_eq_bind, Option.bind_some, hu, hdrop]
  split
  next hnil => exact absurd hnil (by simp)
  next => rw [hp]

/-- The scheme and the text are found. -/
theorem parseAuthorization_basic (localTime : Option Tm) (passfile : Option (List UInt8))
    {gap : List UInt8} (hgap : gap ≠ [] ∧ ∀ c ∈ gap, isBlankChar c = true)
    {user password : List UInt8} (huser : 0 ∉ user ∧ 58 ∉ user) (hpassword : 0 ∉ password)
    (p : Pattrib) (next : List Pattrib) :
    parseAuthorization localTime passfile (some (basicValue gap user password)) p next =
      verifyUser localTime passfile user password p.sequence := by
  obtain ⟨b, gap, rfl⟩ := List.exists_cons_of_ne_nil hgap.1
  have hblank : ∀ c ∈ base64Text (user ++ 58 :: password), isBlankChar c = false := by
    intro c hc
    obtain ⟨-, h32, h9⟩ := mem_base64Text hc
    rw [isBlankChar, beq_false_of_ne h32, beq_false_of_ne h9]
    rfl
  have hbasic : ∀ c ∈ bytes "Basic", (!isBlankChar c) = true := by decide +kernel
  have hfirst : (basicValue (b :: gap) user password).dropWhile isBlankChar =
      basicValue (b :: gap) user password := rfl
  obtain ⟨hs, hrest⟩ := @takeWhile_run (!isBlankChar ·) (bytes "Basic")
    (b :: (gap ++ base64Text (user ++ 58 :: password))) hbasic (by
      intro c hc
      obtain rfl := Option.some.inj hc
      rw [hgap.2 b List.mem_cons_self]
      rfl)
  have hskip := (@takeWhile_run isBlankChar gap (base64Text (user ++ 58 :: password))
    (fun c hc => hgap.2 c (List.mem_cons_of_mem b hc))
    fun c hc => hblank c (List.mem_of_mem_head? hc)).2
  have he : (base64Text (user ++ 58 :: password)).takeWhile (!isBlankChar ·) =
      base64Text (user ++ 58 :: password) := by
    rw [List.takeWhile_eq_self_iff]
    intro c hc
    rw [hblank c hc]
    rfl
  rw [parseAuthorization]
  simp only [hfirst]
  rw [basicValue, List.cons_append, hs, hrest]
  simp only [hskip, he]
  exact authorized_basic localTime passfile huser hpassword p.sequence

/-! ### When the right users get in -/

section

variable (today : Date) (entries : List PasswdEntry) (gap user password : List UInt8) (p : Pattrib)
  (next : List Pattrib)

/-- The text is decoded within its buffer, and access is granted to the right users. -/
def AccessRight : Prop :=
  (decode (base64Text (user ++ 58 :: password))).isSome ∧
    ∃ b, parseAuthorization (some today.localTime) (some (passwdText entries))
        (some (basicValue gap user password)) p next = some b ∧
      (b = true ↔ Grants (InDate today) entries p.sequence user password)

/-- No date of a line that was over for less than a month decides. -/
structure NoLapse (e : PasswdEntry) : Prop where
  expiry : Lapsed today e.expiry → p.sequence ≠ [] ∧ e.tuples ≠ [] ∧
    ∀ t ∈ e.tuples, t.name ∈ p.sequence → ¬ InDate today t.date ∧ ¬ Lapsed today t.date
  tuples : InDate today e.expiry → p.sequence = [] ∨ e.tuples = [] ∨
    (∃ t ∈ e.tuples, t.name ∈ p.sequence ∧ InDate today t.date) ∨
    ∀ t ∈ e.tuples, t.name ∈ p.sequence → ¬ Lapsed today t.date

/-- The lines that are read fit, and the user's line with the password has no such date. -/
def AccessClear : Prop :=
  (∀ e ∈ readEntries user entries, e.line.length + 1 < 500) ∧
    ∀ e ∈ entries.find? (·.name = user), e.passwd = password → NoLapse today p e

variable {today entries gap user password p next}

theorem grants_of_inDate (h : Grants (InDate today) entries p.sequence user password) :
    Grants (NotFoundOver today) entries p.sequence user password := by
  have hweak : ∀ {d}, InDate today d → NotFoundOver today d :=
    fun hd => notFoundOver_iff.mpr (Or.inl hd)
  obtain ⟨e, he, hpasswd, hexpiry, hclasses⟩ := h
  refine ⟨e, he, hpasswd, hweak hexpiry, ?_⟩
  rcases hclasses with h | h | ⟨t, ht, hname, hdate⟩
  · exact Or.inl h
  · exact Or.inr (Or.inl h)
  · exact Or.inr (Or.inr ⟨t, ht, hname, hweak hdate⟩)

/-- The dates decide as they should, if none was over for less than a month. -/
theorem grants_iff_noLapse :
    (Grants (NotFoundOver today) entries p.sequence user password ↔
      Grants (InDate today) entries p.sequence user password) ↔
    ∀ e ∈ entries.find? (·.name = user), e.passwd = password → NoLapse today p e := by
  constructor
  · intro hiff e he hpasswd
    have hstrict : Grants (NotFoundOver today) entries p.sequence user password →
        InDate today e.expiry ∧ (p.sequence = [] ∨ e.tuples = [] ∨
          ∃ t ∈ e.tuples, t.name ∈ p.sequence ∧ InDate today t.date) := by
      intro h
      obtain ⟨e', he', -, hexpiry, hclasses⟩ := hiff.mp h
      obtain rfl := Option.some.inj (he.symm.trans he')
      exact ⟨hexpiry, hclasses⟩
    constructor
    · intro hlapsed
      have hnot : ¬ Grants (NotFoundOver today) entries p.sequence user password := fun h =>
        lapsed_not_inDate hlapsed (hstrict h).1
      have hover := notFoundOver_iff.mpr (Or.inr hlapsed)
      refine ⟨fun h => hnot ⟨e, he, hpasswd, hover, Or.inl h⟩,
        fun h => hnot ⟨e, he, hpasswd, hover, Or.inr (Or.inl h)⟩, fun t ht hname => ?_⟩
      rw [← not_or, ← notFoundOver_iff]
      exact fun hdate => hnot ⟨e, he, hpasswd, hover, Or.inr (Or.inr ⟨t, ht, hname, hdate⟩)⟩
    · intro hin
      have hover := notFoundOver_iff.mpr (Or.inl hin)
      by_cases hsome : ∃ t ∈ e.tuples, t.name ∈ p.sequence ∧ Lapsed today t.date
      · obtain ⟨t, ht, hname, hlapsed⟩ := hsome
        have hdate := notFoundOver_iff.mpr (Or.inr hlapsed)
        rcases (hstrict ⟨e, he, hpasswd, hover, Or.inr (Or.inr ⟨t, ht, hname, hdate⟩)⟩).2 with
          h | h | h
        · exact Or.inl h
        · exact Or.inr (Or.inl h)
        · exact Or.inr (Or.inr (Or.inl h))
      · exact Or.inr (Or.inr (Or.inr fun t ht hname hlapsed => hsome ⟨t, ht, hname, hlapsed⟩))
  · intro hno
    refine ⟨?_, grants_of_inDate⟩
    rintro ⟨e, he, hpasswd, hexpiry, hclasses⟩
    obtain ⟨hlapsed, hin⟩ := hno e he hpasswd
    refine ⟨e, he, hpasswd, ?_⟩
    rcases notFoundOver_iff.mp hexpiry with hexpiry | hexpiry
    · refine ⟨hexpiry, ?_⟩
      rcases hclasses with h | h | ⟨t, ht, hname, hdate⟩
      · exact Or.inl h
      · exact Or.inr (Or.inl h)
      · rcases hin hexpiry with h | h | h | h
        · exact Or.inl h
        · exact Or.inr (Or.inl h)
        · exact Or.inr (Or.inr h)
        · have hdate := (notFoundOver_iff.mp hdate).resolve_right (h t ht hname)
          exact Or.inr (Or.inr ⟨t, ht, hname, hdate⟩)
    · obtain ⟨hsequence, htuples, hover⟩ := hlapsed hexpiry
      rcases hclasses with h | h | ⟨t, ht, hname, hdate⟩
      · exact absurd h hsequence
      · exact absurd h htuples
      · obtain ⟨hnot, hnot'⟩ := hover t ht hname
        exact ((notFoundOver_iff.mp hdate).elim hnot hnot').elim

theorem accessRight_of_fit (hgap : gap ≠ [] ∧ ∀ c ∈ gap, isBlankChar c = true)
    (huser : 0 ∉ user ∧ 58 ∉ user) (hpassword : 0 ∉ password)
    (hfit : ∀ e ∈ readEntries user entries, e.line.length + 1 < 500) :
    AccessRight today entries gap user password p next ↔
      (Grants (NotFoundOver today) entries p.sequence user password ↔
        Grants (InDate today) entries p.sequence user password) := by
  obtain ⟨b, hloop, hb⟩ := userLoop_entries today user password p.sequence hfit
  have hparse := parseAuthorization_basic (some today.localTime) (some (passwdText entries)) hgap
    huser hpassword p next
  rw [verifyUser, hloop] at hparse
  rw [AccessRight, decode_base64Text (by simp), hparse, ← hb]
  constructor
  · rintro ⟨-, b', hb', hiff⟩
    obtain rfl := Option.some.inj hb'
    exact hiff
  · exact fun hiff => ⟨rfl, b, rfl, hiff⟩

/-- **When access is granted to the right users.** -/
theorem accessRight_iff (hgap : gap ≠ [] ∧ ∀ c ∈ gap, isBlankChar c = true)
    (huser : 0 ∉ user ∧ 58 ∉ user) (hpassword : 0 ∉ password) :
    AccessRight today entries gap user password p next ↔
      AccessClear today entries user password p := by
  rw [AccessClear]
  by_cases hfit : ∀ e ∈ readEntries user entries, e.line.length + 1 < 500
  · rw [accessRight_of_fit hgap huser hpassword hfit, grants_iff_noLapse]
    exact ⟨fun h => ⟨hfit, h⟩, fun h => h.2⟩
  · refine iff_of_false ?_ fun h => hfit h.1
    rintro ⟨-, b, hb, -⟩
    rw [parseAuthorization_basic _ _ hgap huser hpassword, verifyUser,
      userLoop_long _ _ _ _ hfit] at hb
    exact absurd hb (Option.some_ne_none b).symm

end

/-- A user whose password is over after a day. -/
def mayUser : PasswdEntry where
  name := [117]
  passwd := [112]
  uid := []
  gid := []
  gecos := []
  expiry := some ⟨2024, 5, 19, by decide, by decide, by decide⟩
  tuples := []
  comma := false
  name_ne := by decide
  passwd_ne := by decide
  plain := by decide +kernel

/-- On that day, it is not over. -/
theorem accessRight_sample :
    AccessRight ⟨2024, 5, 19, by decide, by decide, by decide⟩ [mayUser] [32] [117] [112]
      ⟨bytes "BUNYIP-RESTRICTED-ACCESS", []⟩ [] := by
  refine (accessRight_iff (by decide +kernel) (by decide +kernel) (by decide +kernel)).mpr ⟨by decide +kernel, ?_⟩
  intro e he _
  obtain rfl := Option.some.inj he
  refine ⟨fun hlapsed => absurd hlapsed ?_, fun _ => Or.inl rfl⟩
  rintro ⟨x, hx, hlt, -⟩
  obtain rfl := Option.some.inj hx
  exact absurd hlt (by decide)

/-- A day later, the user still gets in. -/
theorem not_accessRight :
    ¬ ∀ (today : Date) (entries : List PasswdEntry) (gap user password : List UInt8) (p : Pattrib)
      (next : List Pattrib), (gap ≠ [] ∧ ∀ c ∈ gap, isBlankChar c = true) → (0 ∉ user ∧ 58 ∉ user) →
      0 ∉ password → AccessRight today entries gap user password p next := by
  intro h
  have hright := h ⟨2024, 5, 20, by decide, by decide, by decide⟩ [mayUser] [32] [117] [112]
    ⟨bytes "BUNYIP-RESTRICTED-ACCESS", []⟩ [] (by decide +kernel) (by decide +kernel) (by decide +kernel)
  rw [accessRight_of_fit (by decide +kernel) (by decide +kernel) (by decide +kernel)
    (by decide +kernel)] at hright
  have hexpiry : NotFoundOver ⟨2024, 5, 20, by decide, by decide, by decide⟩ mayUser.expiry := by
    intro x hx
    obtain rfl := Option.some.inj hx
    decide
  obtain ⟨e, he, -, hin, -⟩ := hright.mp ⟨mayUser, rfl, rfl, hexpiry, Or.inl rfl⟩
  obtain rfl := Option.some.inj he
  exact absurd (hin _ rfl) (by decide)

end Archie
