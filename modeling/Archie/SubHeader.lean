/-
The sub-header of a document in the file of a crawl (`webindex/lib/sub_header.c`): up to
ten optional fields between two marks, read and written like the header of a file.

* `subHeaderTable`, `writeSubHeader`, `readSubHeader` — the fields and the two functions.
* `readSubHeader_writeSubHeader` — what is read of a sub-header that has been written.
* `subHeaderRestored_iff` — it is what was written exactly if all fields are kept.
-/
import Archie.Header

namespace Archie

/-- `sub_header_t`.  The format is `none` where the record has been cleared. -/
structure SubHeaderRec where
  localUrl : List UInt8
  state : List UInt8
  server : List UInt8
  type : List UInt8
  size : ℕ
  fsize : ℕ
  recno : ℤ
  port : ℤ
  date : ℕ
  format : Option FileFormat
  subHeaderFlags : ℕ
  deriving DecidableEq, Repr

/-- A record of zeros. -/
def emptySubHeader : SubHeaderRec := ⟨[], [], [], [], 0, 0, 0, 0, 0, none, 0⟩

/-- The fields of a sub-header. -/
inductive SubHeaderField
  | localUrl
  | state
  | size
  | port
  | server
  | type
  | recno
  | date
  | format
  | fsize
  deriving DecidableEq, Repr

/-- `sub_header_fields`. -/
def subHeaderFields : List SubHeaderField :=
  [.localUrl, .state, .size, .port, .server, .type, .recno, .date, .format, .fsize]

def SubHeaderField.field : SubHeaderField → List UInt8
  | .localUrl => bytes "local_url"
  | .state => bytes "state"
  | .size => bytes "size"
  | .port => bytes "port"
  | .server => bytes "server"
  | .type => bytes "type"
  | .recno => bytes "recno"
  | .date => bytes "date"
  | .format => bytes "format"
  | .fsize => bytes "file_size"

/-- The number of the bit of `HDR_LOCAL_URL_ENTRY` (`0x1`) and so on. -/
def SubHeaderField.bit : SubHeaderField → ℕ
  | .localUrl => 0
  | .state => 1
  | .size => 2
  | .port => 3
  | .server => 4
  | .type => 5
  | .recno => 6
  | .date => 7
  | .format => 8
  | .fsize => 9

def SubHeaderRec.isSet (h : SubHeaderRec) (x : SubHeaderField) : Bool :=
  hdrGet x.bit h.subHeaderFlags

def SubHeaderRec.setFlag (r : SubHeaderRec) (x : SubHeaderField) : SubHeaderRec :=
  { r with subHeaderFlags := hdrSet x.bit r.subHeaderFlags }

def SubHeaderRec.unsetFlag (r : SubHeaderRec) (x : SubHeaderField) : SubHeaderRec :=
  { r with subHeaderFlags := hdrUnset x.bit r.subHeaderFlags }

section

variable (cvtFrom : ℕ → List UInt8) (cvtTo : List UInt8 → ℕ)

/-- The `switch` of `read_sub_header`. -/
def SubHeaderField.store (x : SubHeaderField) (arg : List UInt8) (r : SubHeaderRec) :
    SubHeaderRec × Bool :=
  match x with
  | .localUrl => ({ r with localUrl := arg }.setFlag x, true)
  | .size => ({ r with size := ulong (atoi arg) }.setFlag x, true)
  | .fsize => ({ r with fsize := ulong (atoi arg) }.setFlag x, true)
  | .date => ({ r with date := cvtTo arg }.setFlag x, true)
  | .recno => ({ r with recno := atoi arg }.setFlag x, true)
  | .port => ({ r with port := atoi arg }.setFlag x, true)
  | .server => ({ r with server := arg }.setFlag x, true)
  | .state => ({ r with state := arg }.setFlag x, true)
  | .type => ({ r with type := arg }.setFlag x, true)
  | .format =>
    match readEnum FileFormat.text
      [.fraw, .fxdr, .fcompressLz, .fcompressGzip, .fxdrCompressLz, .fxdrGzip] arg with
    | some e => ({ r with format := some e }.setFlag x, true)
    | none => ((r.setFlag x).unsetFlag x, false)

/-- The lines of `read_sub_header`. -/
def subHeaderTable : HeaderTable SubHeaderField SubHeaderRec where
  headerBegin := bytes "@sub_header_begin"
  headerEnd := bytes "@sub_header_end"
  fields := subHeaderFields
  field := SubHeaderField.field
  store x _ := x.store cvtTo

/-- `read_sub_header`: the record, and the text after the sub-header. -/
def readSubHeader (netcomm : Bool) (text : List UInt8) : Option (SubHeaderRec × List UInt8) :=
  (subHeaderTable cvtTo).readHeader netcomm emptySubHeader text

/-- The value that `write_sub_header` prints. -/
def SubHeaderField.value (h : SubHeaderRec) : SubHeaderField → List UInt8
  | .localUrl => h.localUrl
  | .state => h.state
  | .size => printULong h.size
  | .fsize => printULong h.fsize
  | .date => cvtFrom h.date
  | .recno => printULong (ulong h.recno)
  | .port => printULong (ulong h.port)
  | .server => h.server
  | .type => h.type
  | .format => (h.format.map FileFormat.text).getD []

/-- The order of the lines of `write_sub_header`. -/
def subHeaderWriteOrder : List SubHeaderField :=
  [.localUrl, .state, .size, .fsize, .date, .recno, .port, .server, .type, .format]

/-- The fields that are written, with their values. -/
def subHeaderLines (h : SubHeaderRec) : List (SubHeaderField × List UInt8) :=
  (subHeaderWriteOrder.filter h.isSet).map fun x => (x, x.value cvtFrom h)

/-- `write_sub_header`. -/
def writeSubHeader (netcomm : Bool) (h : SubHeaderRec) : List UInt8 :=
  (subHeaderTable cvtTo).writeLines netcomm (subHeaderLines cvtFrom h)

end

/-! ### The fields of a record -/

def SubHeaderField.get (x : SubHeaderField) (r : SubHeaderRec) : HeaderValue :=
  match x with
  | .localUrl => .text r.localUrl
  | .state => .text r.state
  | .size => .number r.size
  | .port => .number r.port
  | .server => .text r.server
  | .type => .text r.type
  | .recno => .number r.recno
  | .date => .number r.date
  | .format => .format r.format
  | .fsize => .number r.fsize

/-- The record with one field, and its flag, from another one. -/
def SubHeaderField.copy (h : SubHeaderRec) (x : SubHeaderField) (r : SubHeaderRec) : SubHeaderRec :=
  SubHeaderRec.setFlag (match x with
    | .localUrl => { r with localUrl := h.localUrl }
    | .state => { r with state := h.state }
    | .size => { r with size := h.size }
    | .port => { r with port := h.port }
    | .server => { r with server := h.server }
    | .type => { r with type := h.type }
    | .recno => { r with recno := h.recno }
    | .date => { r with date := h.date }
    | .format => { r with format := h.format }
    | .fsize => { r with fsize := h.fsize }) x

@[simp] theorem SubHeaderField.get_setFlag (x y : SubHeaderField) (r : SubHeaderRec) :
    x.get (r.setFlag y) = x.get r := by
  cases x <;> rfl

@[simp] theorem SubHeaderField.get_unsetFlag (x y : SubHeaderField) (r : SubHeaderRec) :
    x.get (r.unsetFlag y) = x.get r := by
  cases x <;> rfl

theorem subHeaderCopies (h : SubHeaderRec) :
    FieldCopies (SubHeaderField.copy h) SubHeaderField.get SubHeaderRec.subHeaderFlags SubHeaderField.bit h where
  get_copy x r := by cases x <;> rfl
  get_copy_of_ne x y hyx r := by
    unfold SubHeaderField.copy
    rw [SubHeaderField.get_setFlag]
    cases y <;> cases x <;> first | rfl | exact absurd rfl hyx
  flags_copy x r := by cases x <;> rfl

/-- A line changes no other field. -/
theorem SubHeaderField.get_store_of_ne (cvtTo : List UInt8 → ℕ) {x y : SubHeaderField} (hyx : y ≠ x)
    (arg : List UInt8) (r : SubHeaderRec) : x.get (y.store cvtTo arg r).1 = x.get r := by
  cases y with
  | format =>
    rw [SubHeaderField.store]
    split
    · cases x <;> first | rfl | exact absurd rfl hyx
    · rw [SubHeaderField.get_unsetFlag, SubHeaderField.get_setFlag]
  | _ => cases x <;> first | rfl | exact absurd rfl hyx

/-! ### Sub-headers that come back -/

/-- A string is a single token. -/
def IsStringToken (s : List UInt8) : Prop := IsWord s ∧ 0 ∉ s

/-- A field has a value of its type that has a text. -/
def SubHeaderField.Proper (cvtFrom : ℕ → List UInt8) (cvtTo : List UInt8 → ℕ) (h : SubHeaderRec) :
    SubHeaderField → Prop
  | .localUrl => IsStringToken h.localUrl ∧ h.localUrl.length < maxHostnameLen
  | .state => IsStringToken h.state ∧ h.state.length < maxHostnameLen
  | .size => h.size < wordSize
  | .port => IsInt h.port
  | .server => IsStringToken h.server ∧ h.server.length < maxHostnameLen
  | .type => IsStringToken h.type ∧ h.type.length < maxHostnameLen
  | .recno => IsInt h.recno
  | .date => IsTime cvtFrom cvtTo h.date
  | .format => h.format ≠ none
  | .fsize => h.fsize < wordSize

/-- What is kept by the line of a field: strings that fit the line, and numbers that are an
`int` and not negative. -/
def SubHeaderField.Kept (h : SubHeaderRec) : SubHeaderField → Prop
  | .localUrl => h.localUrl.length ≤ 245
  | .state => h.state.length ≤ 249
  | .size => h.size < 2147483648
  | .port => 0 ≤ h.port
  | .server => h.server.length ≤ 248
  | .type => h.type.length ≤ 250
  | .recno => 0 ≤ h.recno
  | .date => True
  | .format => True
  | .fsize => h.fsize < 2147483648

/-- The fields that are set have values. -/
def SubHeaderRec.WellFormed (cvtFrom : ℕ → List UInt8) (cvtTo : List UInt8 → ℕ) (h : SubHeaderRec) :
    Prop :=
  ∀ x, h.isSet x = true → x.Proper cvtFrom cvtTo h

/-- The flags are those of the fields that were set, and these have their values. -/
def SubHeaderRestored (h h' : SubHeaderRec) : Prop :=
  (∀ bit, hdrGet bit h'.subHeaderFlags = true ↔ ∃ x : SubHeaderField, x.bit = bit ∧
    h.isSet x = true) ∧
    ∀ x : SubHeaderField, h.isSet x = true → x.get h' = x.get h

theorem mem_subHeaderFields (x : SubHeaderField) : x ∈ subHeaderFields := by cases x <;> decide

theorem mem_subHeaderWriteOrder (x : SubHeaderField) :
    x ∈ subHeaderWriteOrder := by cases x <;> decide

theorem subHeaderField_spec : ∀ x ∈ subHeaderFields, IsWord x.field ∧ x.field.length ≤ 9 ∧
    startsWith (bytes "@sub_header_begin") x.field = false ∧ startsWith (bytes "@sub_header_end") x.field = false ∧
    ∀ y ∈ subHeaderFields, startsWith x.field y.field = true → x = y := by
  decide +kernel

theorem subMarks_spec : (IsWord (bytes "@sub_header_begin") ∧ (bytes "@sub_header_begin").length < 200) ∧
    (IsWord (bytes "@sub_header_end") ∧ (bytes "@sub_header_end").length < 200) ∧
    startsWith (bytes "@sub_header_begin") (bytes "@sub_header_end") = false ∧ subHeaderFields.Nodup := by
  decide +kernel

theorem subHeaderTable_lawful (cvtTo : List UInt8 → ℕ) : (subHeaderTable cvtTo).Lawful where
  isWord x := (subHeaderField_spec x (mem_subHeaderFields x)).1
  short x := (subHeaderField_spec x (mem_subHeaderFields x)).2.1.trans_lt (by decide)
  distinct x y := (subHeaderField_spec x (mem_subHeaderFields x)).2.2.2.2 y (mem_subHeaderFields y)
  notBegin x := (subHeaderField_spec x (mem_subHeaderFields x)).2.2.1
  notEnd x := (subHeaderField_spec x (mem_subHeaderFields x)).2.2.2.1
  isWordBegin := subMarks_spec.1
  isWordEnd := subMarks_spec.2.1
  endNotBegin := subMarks_spec.2.2.1
  mem := mem_subHeaderFields
  nodup := subMarks_spec.2.2.2

section

variable {cvtFrom : ℕ → List UInt8} {cvtTo : List UInt8 → ℕ} {netcomm : Bool} {h : SubHeaderRec}

theorem SubHeaderField.isWord_value {x : SubHeaderField} (hx : x.Proper cvtFrom cvtTo h) :
    IsWord (x.value cvtFrom h) := by
  cases x with
  | size | port | recno | fsize => exact isWord_printULong _
  | date => exact hx.1
  | format =>
    obtain ⟨e, he⟩ := Option.ne_none_iff_exists'.mp hx
    rw [SubHeaderField.value, he]
    exact (enumTexts.2.2.2.2.2.1 e (by cases e <;> decide)).1.1
  | _ => exact hx.1.1

/-- What comes of the values of a record by its lines: strings are cut off where the buffer
ends, and a number that is no `int`, or was negative, becomes the largest one. -/
def SubHeaderRec.asRead (h : SubHeaderRec) : SubHeaderRec :=
  { h with
    localUrl := h.localUrl.take 245
    state := h.state.take 249
    server := h.server.take 248
    type := h.type.take 250
    size := min h.size 2147483647
    fsize := min h.fsize 2147483647
    recno := if h.recno < 0 then 2147483647 else h.recno
    port := if h.port < 0 then 2147483647 else h.port }

/-- A field that is kept is read with its value, and only such a one. -/
theorem SubHeaderField.get_asRead_iff {x : SubHeaderField} (hx : x.Proper cvtFrom cvtTo h) :
    x.get h.asRead = x.get h ↔ x.Kept h := by
  have htake : ∀ (s : List UInt8) n, s.take n = s ↔ s.length ≤ n := by
    intro s n
    constructor
    · intro heq
      rw [← heq, List.length_take]
      exact min_le_left n s.length
    · exact List.take_of_length_le
  cases x with
  | localUrl | state | server | type =>
    simp only [SubHeaderField.get, SubHeaderRec.asRead, HeaderValue.text.injEq, SubHeaderField.Kept,
      htake]
  | size | fsize =>
    simp only [SubHeaderField.get, SubHeaderRec.asRead, HeaderValue.number.injEq,
      SubHeaderField.Kept]
    omega
  | port | recno =>
    have := hx.1
    simp only [SubHeaderField.get, SubHeaderRec.asRead, HeaderValue.number.injEq,
      SubHeaderField.Kept]
    omega
  | date | format => exact iff_of_true rfl trivial

theorem atoi_number : (∀ n < wordSize, ulong (atoi (printULong n)) = min n 2147483647) ∧
    ∀ i, IsInt i → atoi (printULong (ulong i)) = if i < 0 then 2147483647 else i := by
  constructor
  · intro n hn
    rw [wordSize] at hn
    rw [atoi_printULong, ulong]
    omega
  · intro i hi
    have hlo := hi.1
    have hhi := hi.2
    rw [atoi_printULong, ulong]
    omega

/-- The lengths of the names of the fields, and the longest values. -/
theorem SubHeaderField.length_value {x : SubHeaderField} (hx : x.Proper cvtFrom cvtTo h) :
    x.field.length ≤ 9 ∧ (x.value cvtFrom h).length ≤ 255 ∧
      (x ∉ [.localUrl, .state, .server, .type] → (x.value cvtFrom h).length ≤ 20) := by
  have hnumber : ∀ n < wordSize, (printULong n).length ≤ 10 := fun n hn =>
    length_printULong (by decide) (hn.trans (by decide))
  refine ⟨(subHeaderField_spec x (mem_subHeaderFields x)).2.1, ?_⟩
  cases x with
  | size | fsize =>
    have := hnumber _ hx
    simp only [SubHeaderField.value]
    omega
  | port =>
    have := hnumber _ (ulong_lt h.port)
    simp only [SubHeaderField.value]
    omega
  | recno =>
    have := hnumber _ (ulong_lt h.recno)
    simp only [SubHeaderField.value]
    omega
  | date =>
    have := hx.2.1
    simp only [SubHeaderField.value]
    omega
  | format =>
    obtain ⟨e, he⟩ := Option.ne_none_iff_exists'.mp hx
    have := (enumTexts.2.2.2.2.2.1 e (by cases e <;> decide)).1.2
    simp only [SubHeaderField.value, he, Option.map_some, Option.getD_some]
    omega
  | localUrl | state | server | type =>
    exact ⟨Nat.le_of_lt_succ hx.2, fun hmem => absurd (by decide) hmem⟩

/-- **The line of a field** stores what is read of its value. -/
theorem SubHeaderField.store_argOf {x : SubHeaderField} (hx : x.Proper cvtFrom cvtTo h)
    (r : SubHeaderRec) :
    x.store cvtTo ((subHeaderTable cvtTo).argOf netcomm x (x.value cvtFrom h)) r =
      (x.copy h.asRead r, true) := by
  obtain ⟨hname, -, hshort⟩ := length_value hx
  have hlength : (bytes "local_url").length = 9 ∧ (bytes "state").length = 5 ∧ (bytes "server").length = 6 ∧
    (bytes "type").length = 4 := by decide +kernel
  have hwhole : x ∉ [.localUrl, .state, .server, .type] →
      (x.value cvtFrom h).take (254 - x.field.length) = x.value cvtFrom h := fun hmem =>
    List.take_of_length_le (by have := hshort hmem; omega)
  rw [HeaderTable.argOf_isWord x (isWord_value hx),
    show (subHeaderTable cvtTo).field x = x.field from rfl]
  cases x with
  | localUrl | state | server | type =>
    simp only [SubHeaderField.field, hlength]
    rfl
  | size | fsize =>
    rw [hwhole (by decide)]
    simp only [SubHeaderField.store, SubHeaderField.value, atoi_number.1 _ hx]
    rfl
  | port | recno =>
    rw [hwhole (by decide)]
    simp only [SubHeaderField.store, SubHeaderField.value, atoi_number.2 _ hx]
    rfl
  | date =>
    rw [hwhole (by decide)]
    simp only [SubHeaderField.store, SubHeaderField.value, hx.2.2]
    rfl
  | format =>
    rw [hwhole (by decide)]
    obtain ⟨e, he⟩ := Option.ne_none_iff_exists'.mp hx
    have hread := (enumTexts.2.2.2.2.2.1 e (by cases e <;> decide)).2
    unfold SubHeaderField.copy
    simp only [SubHeaderField.store, SubHeaderField.value, SubHeaderRec.asRead, he, Option.map_some,
      Option.getD_some, hread]

/-! ### The sub-header as a whole -/

/-- What is read of a sub-header: the fields that are set. -/
def SubHeaderRec.restored (h : SubHeaderRec) : SubHeaderRec :=
  (subHeaderWriteOrder.filter h.isSet).foldl (fun r x => x.copy h.asRead r) emptySubHeader

theorem SubHeaderRec.restored_spec (h : SubHeaderRec) :
    (∀ bit, hdrGet bit h.restored.subHeaderFlags = true ↔
      ∃ x : SubHeaderField, x.bit = bit ∧ h.isSet x = true) ∧
    ∀ x : SubHeaderField, x.get h.restored = if h.isSet x = true then x.get h.asRead
      else x.get emptySubHeader := by
  obtain ⟨hflags, hget, hleft⟩ :=
    (subHeaderCopies h.asRead).foldl (subHeaderWriteOrder.filter h.isSet) emptySubHeader
  have hmem : ∀ x, x ∈ subHeaderWriteOrder.filter h.isSet ↔ h.isSet x = true := fun x =>
    List.mem_filter.trans (and_iff_right (mem_subHeaderWriteOrder x))
  refine ⟨fun bit => ?_, fun x => ?_⟩
  · rw [SubHeaderRec.restored, hflags]
    constructor
    · rintro (hzero | ⟨x, hx, hbit⟩)
      · exact absurd hzero (by rw [hdrGet, emptySubHeader, Nat.zero_testBit]; decide)
      · exact ⟨x, hbit, (hmem x).mp hx⟩
    · rintro ⟨x, hbit, hx⟩
      exact Or.inr ⟨x, (hmem x).mpr hx, hbit⟩
  · split
    next hx => exact hget x (Or.inl ((hmem x).mpr hx))
    next hx => exact hleft x fun h => hx ((hmem x).mp h)

/-- A sub-header is restored exactly if the fields that are set are kept. -/
theorem subHeaderRestored_iff (hwf : h.WellFormed cvtFrom cvtTo) :
    SubHeaderRestored h h.restored ↔ ∀ x : SubHeaderField, h.isSet x = true → x.Kept h := by
  obtain ⟨hflags, hget⟩ := h.restored_spec
  constructor
  · intro ⟨_, hsame⟩ x hx
    rw [← SubHeaderField.get_asRead_iff (hwf x hx), ← hsame x hx, hget, if_pos hx]
  · intro hkept
    refine ⟨hflags, fun x hx => ?_⟩
    rw [hget, if_pos hx, (SubHeaderField.get_asRead_iff (hwf x hx)).mpr (hkept x hx)]

theorem map_fst_subHeaderLines (cvtFrom : ℕ → List UInt8) (h : SubHeaderRec) :
    (subHeaderLines cvtFrom h).map Prod.fst = subHeaderWriteOrder.filter h.isSet := by
  rw [subHeaderLines, List.map_map]
  exact List.map_id _

/-- **A sub-header is read**, whatever its values, and what follows it is left. -/
theorem readSubHeader_writeSubHeader (hwf : h.WellFormed cvtFrom cvtTo) (netcomm : Bool)
    (rest : List UInt8) :
    readSubHeader cvtTo netcomm (writeSubHeader cvtFrom cvtTo netcomm h ++ rest) = some
      (h.restored, rest) := by
  have law := subHeaderTable_lawful cvtTo
  have hlines : ∀ l ∈ subHeaderLines cvtFrom h, HeaderTable.IsValue l.2 ∧
      (subHeaderTable cvtTo).Passed netcomm l.1 l.2 ∧ ∀ r, (subHeaderTable cvtTo).store l.1
        ((subHeaderTable cvtTo).inputBufOf netcomm l.1 l.2)
          ((subHeaderTable cvtTo).argOf netcomm l.1 l.2) r =
          (l.1.copy h.asRead r, true) := by
    intro l hl
    obtain ⟨x, hx, rfl⟩ := List.mem_map.mp hl
    have hproper := hwf x (List.mem_filter.mp hx).2
    have hword := SubHeaderField.isWord_value hproper
    obtain ⟨hname, hvalue, -⟩ := SubHeaderField.length_value hproper
    have hlen : ((subHeaderTable cvtTo).field x ++ 32 :: x.value cvtFrom h).length ≤ 265 := by
      rw [List.length_append, List.length_cons,
        show (subHeaderTable cvtTo).field x = x.field from rfl]
      omega
    -- What is left of a string is shorter than a mark.
    have hmarks : (bytes "@sub_header_begin").length = 17 ∧ (bytes "@sub_header_end").length = 15 := by
      decide +kernel
    refine ⟨HeaderTable.IsValue.of_isWord hword, HeaderTable.passed_of_isWord law hword ?_ ?_,
      SubHeaderField.store_argOf hproper⟩
    · exact hlen.trans_lt (by rw [subHeaderTable, hmarks.1]; decide)
    · exact hlen.trans_lt (by rw [subHeaderTable, hmarks.2]; decide)
  have hnodup : ((subHeaderLines cvtFrom h).map Prod.fst).Nodup := by
    rw [map_fst_subHeaderLines]
    exact (by decide : subHeaderWriteOrder.Nodup).filter _
  rw [readSubHeader, writeSubHeader,
    HeaderTable.readHeader_writeLines law (SubHeaderField.copy h.asRead) hlines hnodup,
    map_fst_subHeaderLines]
  rfl

end

end Archie
