/-
The header of the files and streams of archie (`libarchie/header.c`): up to twenty
optional fields, each on a line of its own, between two marks.

The times are text of 14 digits; the conversions are parameters here.

* `headerTable`, `writeHeader`, `readHeader` — the fields and the two functions.
* `storeLine_of_kept`, `storeLine_of_not_kept` — a field is restored from its line, if that fits,
  its number is not negative, and no carriage return has come into the comment; else it is not.
* `readHeader_writeHeader_iff` — a header comes back, with the fields that were set, exactly
  if all its lines are of that kind.
-/
import Archie.HeaderLines

namespace Archie

/-! ### The record -/

/-- `gen_prog_t`. -/
inductive GenProg
  | parser
  | retrieve
  | server
  | admin
  | insert
  | control
  deriving DecidableEq, Repr

/-- `os_type_t`. -/
inductive OsType
  | unixBsd
  | vmsStd
  | unixAix
  | novell
  deriving DecidableEq, Repr

/-- `current_status_t`. -/
inductive CurrentStatus
  | active
  | notSupported
  | delByAdmin
  | delByArchie
  | inactive
  | deleted
  | disabled
  deriving DecidableEq, Repr

/-- `update_status_t`. -/
inductive UpdateStatus
  | fail
  | succeed
  deriving DecidableEq, Repr

/-- `action_status_t`. -/
inductive ActionStatus
  | new
  | update
  | delete
  deriving DecidableEq, Repr

/-- `format_t`. -/
inductive FileFormat
  | fraw
  | fxdr
  | fcompressLz
  | fxdrCompressLz
  | fxdrGzip
  | fcompressGzip
  deriving DecidableEq, Repr

/-- `state_t`. -/
inductive YesNo
  | no
  | yes
  deriving DecidableEq, Repr

/-- `header_t`, without `site_no_recs`, which has no text.  An enumeration is `none` where
the record has been cleared. -/
structure HeaderRec where
  generatedBy : Option GenProg
  sourceArchieHostname : List UInt8
  primaryHostname : List UInt8
  preferredHostname : List UInt8
  primaryIpaddr : ℕ
  accessMethods : List UInt8
  accessCommand : List UInt8
  osType : Option OsType
  retrieveTime : ℕ
  parseTime : ℕ
  updateTime : ℕ
  noRecs : ℤ
  currentStatus : Option CurrentStatus
  updateStatus : Option UpdateStatus
  actionStatus : Option ActionStatus
  timezone : ℤ
  format : Option FileFormat
  prosperoHost : Option YesNo
  headerFlags : ℕ
  comment : List UInt8
  dataName : List UInt8
  deriving DecidableEq, Repr

/-- A record of zeros. -/
def emptyHeader : HeaderRec :=
  ⟨none, [], [], [], 0, [], [], none, 0, 0, 0, 0, none, none, none, 0, none, none, 0, [], []⟩

/-- The fields that have a text. -/
inductive HeaderField
  | generatedBy
  | sourceArchieHostname
  | primaryHostname
  | preferredHostname
  | primaryIpaddr
  | accessMethods
  | accessCommand
  | osType
  | timezone
  | retrieveTime
  | parseTime
  | updateTime
  | noRecs
  | currentStatus
  | updateStatus
  | actionStatus
  | format
  | prosperoHost
  | hcomment
  | dataName
  deriving DecidableEq, Repr

/-- `header_fields`. -/
def headerFields : List HeaderField :=
  [.generatedBy, .sourceArchieHostname, .primaryHostname, .preferredHostname, .primaryIpaddr,
    .accessMethods,
    .accessCommand, .osType, .timezone, .retrieveTime, .parseTime, .updateTime, .noRecs,
      .currentStatus,
    .updateStatus, .actionStatus, .format, .prosperoHost, .hcomment, .dataName]

/-- The names of the fields. -/
def HeaderField.field : HeaderField → List UInt8
  | .generatedBy => bytes "generated_by"
  | .sourceArchieHostname => bytes "source_archie_hostname"
  | .primaryHostname => bytes "primary_hostname"
  | .preferredHostname => bytes "preferred_hostname"
  | .primaryIpaddr => bytes "primary_ipaddr"
  | .accessMethods => bytes "access_method"
  | .accessCommand => bytes "access_command"
  | .osType => bytes "os_type"
  | .timezone => bytes "timezone"
  | .retrieveTime => bytes "retrieve_time"
  | .parseTime => bytes "parse_time"
  | .updateTime => bytes "update_time"
  | .noRecs => bytes "no_recs"
  | .currentStatus => bytes "current_status"
  | .updateStatus => bytes "update_status"
  | .actionStatus => bytes "action_status"
  | .format => bytes "format"
  | .prosperoHost => bytes "prospero_host"
  | .hcomment => bytes "comment"
  | .dataName => bytes "data_name"

/-- The number of the bit of `HDR_GENERATED_BY` (`0x1`), `HDR_TIMEZONE` (`0x2`) and so on. -/
def HeaderField.bit : HeaderField → ℕ
  | .generatedBy => 0
  | .timezone => 1
  | .sourceArchieHostname => 2
  | .primaryHostname => 3
  | .preferredHostname => 4
  | .primaryIpaddr => 5
  | .accessMethods => 6
  | .accessCommand => 7
  | .osType => 8
  | .retrieveTime => 9
  | .parseTime => 10
  | .updateTime => 11
  | .noRecs => 12
  | .currentStatus => 13
  | .updateStatus => 14
  | .actionStatus => 15
  | .format => 16
  | .prosperoHost => 17
  | .hcomment => 18
  | .dataName => 19

/-- The flag of a field is set. -/
def HeaderRec.isSet (h : HeaderRec) (x : HeaderField) : Bool := hdrGet x.bit h.headerFlags

/-! ### Texts -/

def GenProg.text : GenProg → List UInt8
  | .parser => bytes "parser"
  | .retrieve => bytes "retrieve"
  | .server => bytes "server"
  | .admin => bytes "admin"
  | .insert => bytes "insert"
  | .control => bytes "control"

/-- `UNIX_AIX` has a name, but neither function knows it. -/
def OsType.text : OsType → List UInt8
  | .unixBsd => bytes "unix_bsd"
  | .vmsStd => bytes "vms_std"
  | .unixAix => []
  | .novell => bytes "novell"

def CurrentStatus.text : CurrentStatus → List UInt8
  | .active => bytes "active"
  | .notSupported => bytes "not_supported"
  | .delByAdmin => bytes "del_by_admin"
  | .delByArchie => bytes "del_by_archie"
  | .inactive => bytes "inactive"
  | .deleted => bytes "deleted"
  | .disabled => bytes "disabled"

def UpdateStatus.text : UpdateStatus → List UInt8
  | .fail => bytes "fail"
  | .succeed => bytes "succeed"

def ActionStatus.text : ActionStatus → List UInt8
  | .new => bytes "new"
  | .update => bytes "update"
  | .delete => bytes "delete"

def FileFormat.text : FileFormat → List UInt8
  | .fraw => bytes "raw"
  | .fxdr => bytes "fxdr"
  | .fcompressLz => bytes "compress_lz"
  | .fxdrCompressLz => bytes "xdr_compress_lz"
  | .fxdrGzip => bytes "xdr_compress_gzip"
  | .fcompressGzip => bytes "compress_gzip"

def YesNo.text : YesNo → List UInt8
  | .no => bytes "no"
  | .yes => bytes "yes"

/-- The chain of `strcasecmp` for an enumeration. -/
def readEnum {ε : Type} (text : ε → List UInt8) (all : List ε) (arg : List UInt8) : Option ε :=
  all.find? fun e => strcasecmpEq (text e) arg

/-- `inet_ntoa`: the four bytes of an address. -/
def inetNtoa (ipaddr : ℕ) : List UInt8 :=
  printULong (ipaddr / 16777216) ++ 46 :: (printULong (ipaddr / 65536 % 256) ++
    46 :: (printULong (ipaddr / 256 % 256) ++ 46 :: printULong (ipaddr % 256)))

/-- The number of a text in base 8 or 16. -/
def basedValue (base : ℕ) (s : List UInt8) : Option ℕ :=
  s.foldl (fun n c => n.bind fun n =>
    let d := if isDigit c then c.toNat - 48 else (asciiLower c).toNat - 87
    if (isDigit c ∨ 97 ≤ asciiLower c ∧ asciiLower c ≤ 102) ∧ d < base then some (base * n + d)
      else none)
    (some 0)

/-- A part of an address: hexadecimal after `0x`, octal after `0`, decimal otherwise. -/
def inetPart (s : List UInt8) : Option ℕ :=
  match s with
  | 48 :: 120 :: t => if t = [] then none else basedValue 16 t
  | 48 :: 88 :: t => if t = [] then none else basedValue 16 t
  | 48 :: t => basedValue 8 t
  | s => if s ≠ [] ∧ s.all isDigit then some (digitsValue s) else none

/-- `inet_addr`: up to four parts, of which the last takes the bytes that are left. -/
def inetAddr (s : List UInt8) : ℕ :=
  let parts := (s.splitOn 46).map inetPart
  (match parts with
    | [some a] => if a < 2 ^ 32 then some a else none
    | [some a, some b] => if a < 256 ∧ b < 2 ^ 24 then some (a * 2 ^ 24 + b) else none
    | [some a, some b, some c] =>
      if a < 256 ∧ b < 256 ∧ c < 2 ^ 16 then some (a * 2 ^ 24 + b * 2 ^ 16 + c) else none
    | [some a, some b, some c, some d] =>
      if a < 256 ∧ b < 256 ∧ c < 256 ∧ d < 256 then some (a * 2 ^ 24 + b * 2 ^ 16 + c * 2 ^ 8 + d)
        else none
    | _ => none).getD (2 ^ 32 - 1)

/-- `sscanf(input_buf, "%*s%*[ ]%[^\n]", arg_buf)`. -/
def scanComment (inputBuf arg : List UInt8) : List UInt8 :=
  (do
    let (_, s) ← scanWord inputBuf
    let (_, s) ← scanSet (· == 32) s
    let (comment, _) ← scanSet (· ≠ 10) s
    some comment).getD arg

/-! ### Reading and writing -/

/-- `value` with its flag. -/
def HeaderRec.setFlag (r : HeaderRec) (x : HeaderField) : HeaderRec :=
  { r with headerFlags := hdrSet x.bit r.headerFlags }

def HeaderRec.unsetFlag (r : HeaderRec) (x : HeaderField) : HeaderRec :=
  { r with headerFlags := hdrUnset x.bit r.headerFlags }

/-- The result of a chain of `strcasecmp`: the field is set, or its flag taken away again. -/
def storeEnum {ε : Type} (x : HeaderField) (r : HeaderRec) (put : ε → HeaderRec) :
    Option ε → HeaderRec × Bool
  | some e => ((put e).setFlag x, true)
  | none => ((r.setFlag x).unsetFlag x, false)

section

variable (cvtFrom : ℕ → List UInt8) (cvtTo : List UInt8 → ℕ)

/-- The `switch` of `read_header`. -/
def HeaderField.store (x : HeaderField) (inputBuf arg : List UInt8) (r : HeaderRec) :
    HeaderRec × Bool :=
  match x with
  | .generatedBy => storeEnum x r (fun e => { r with generatedBy := some e })
      (readEnum GenProg.text [.parser, .retrieve, .server, .admin, .insert, .control] arg)
  | .sourceArchieHostname => ({ r with sourceArchieHostname := arg }.setFlag x, true)
  | .primaryHostname => ({ r with primaryHostname := arg }.setFlag x, true)
  | .preferredHostname => ({ r with preferredHostname := arg }.setFlag x, true)
  | .primaryIpaddr => ({ r with primaryIpaddr := inetAddr arg }.setFlag x, true)
  | .accessMethods => ({ r with accessMethods := arg }.setFlag x, true)
  | .accessCommand => ({ r with accessCommand := arg }.setFlag x, true)
  | .osType => storeEnum x r (fun e => { r with osType := some e })
      (readEnum OsType.text [.unixBsd, .vmsStd, .novell] arg)
  | .timezone => ({ r with timezone := atoi arg }.setFlag x, true)
  | .retrieveTime => ({ r with retrieveTime := cvtTo arg }.setFlag x, true)
  | .parseTime => ({ r with parseTime := cvtTo arg }.setFlag x, true)
  | .updateTime => ({ r with updateTime := cvtTo arg }.setFlag x, true)
  | .noRecs => ({ r with noRecs := atoi arg }.setFlag x, true)
  | .currentStatus => storeEnum x r (fun e => { r with currentStatus := some e })
      (readEnum CurrentStatus.text
        [.active, .notSupported, .delByAdmin, .delByArchie, .inactive, .deleted, .disabled] arg)
  | .updateStatus => storeEnum x r (fun e => { r with updateStatus := some e })
      (readEnum UpdateStatus.text [.succeed, .fail] arg)
  | .actionStatus => storeEnum x r (fun e => { r with actionStatus := some e })
      (readEnum ActionStatus.text [.new, .update, .delete] arg)
  | .format => storeEnum x r (fun e => { r with format := some e })
      (readEnum FileFormat.text
        [.fraw, .fxdr, .fcompressLz, .fcompressGzip, .fxdrCompressLz, .fxdrGzip] arg)
  | .prosperoHost => storeEnum x r (fun e => { r with prosperoHost := some e })
      (readEnum YesNo.text [.yes, .no] arg)
  | .hcomment =>
    if arg ≠ [] then ({ r with comment := scanComment inputBuf arg }.setFlag x, true)
      else (r, false)
  | .dataName => ({ r with dataName := arg }.setFlag x, true)

/-- The lines of `read_header`. -/
def headerTable : HeaderTable HeaderField HeaderRec where
  headerBegin := bytes "@header_begin"
  headerEnd := bytes "@header_end"
  fields := headerFields
  field := HeaderField.field
  store := HeaderField.store cvtTo

/-- `read_header`: the record, and the text after the header. -/
def readHeader (netcomm : Bool) (text : List UInt8) : Option (HeaderRec × List UInt8) :=
  (headerTable cvtTo).readHeader netcomm emptyHeader text

/-- The value that `write_header` prints.  Numbers are printed as unsigned ones, and a value of an
enumeration without a name as nothing. -/
def HeaderField.value (h : HeaderRec) : HeaderField → List UInt8
  | .generatedBy => (h.generatedBy.map GenProg.text).getD []
  | .sourceArchieHostname => h.sourceArchieHostname
  | .primaryHostname => h.primaryHostname
  | .preferredHostname => h.preferredHostname
  | .primaryIpaddr => inetNtoa h.primaryIpaddr
  | .accessMethods => h.accessMethods
  | .accessCommand => h.accessCommand
  | .osType => (h.osType.map OsType.text).getD []
  | .timezone => printULong (ulong h.timezone)
  | .retrieveTime => cvtFrom h.retrieveTime
  | .parseTime => cvtFrom h.parseTime
  | .updateTime => cvtFrom h.updateTime
  | .noRecs => printULong (ulong h.noRecs)
  | .currentStatus => (h.currentStatus.map CurrentStatus.text).getD []
  | .updateStatus => (h.updateStatus.map UpdateStatus.text).getD []
  | .actionStatus => (h.actionStatus.map ActionStatus.text).getD []
  | .format => (h.format.map FileFormat.text).getD []
  | .prosperoHost => if h.prosperoHost = some .yes then YesNo.text .yes else YesNo.text .no
  | .hcomment => h.comment
  | .dataName => h.dataName

/-- The order of the lines of `write_header`. -/
def headerWriteOrder : List HeaderField :=
  [.generatedBy, .sourceArchieHostname, .primaryHostname, .preferredHostname, .primaryIpaddr,
    .accessMethods,
    .accessCommand, .osType, .timezone, .retrieveTime, .parseTime, .updateTime, .noRecs,
      .currentStatus,
    .actionStatus, .updateStatus, .format, .prosperoHost, .hcomment, .dataName]

/-- The fields that are written, with their values. -/
def headerLines (h : HeaderRec) : List (HeaderField × List UInt8) :=
  (headerWriteOrder.filter h.isSet).map fun x => (x, x.value cvtFrom h)

/-- `write_header`. -/
def writeHeader (netcomm : Bool) (h : HeaderRec) : List UInt8 :=
  (headerTable cvtTo).writeLines netcomm (headerLines cvtFrom h)

end


/-! ### Texts of values -/

theorem mem_headerFields (x : HeaderField) : x ∈ headerFields := by cases x <;> decide

theorem mem_headerWriteOrder (x : HeaderField) : x ∈ headerWriteOrder := by cases x <;> decide

theorem field_spec : ∀ x ∈ headerFields, IsWord x.field ∧ x.field.length ≤ 22 ∧
    startsWith (bytes "@header_begin") x.field = false ∧ startsWith (bytes "@header_end") x.field = false ∧
    ∀ y ∈ headerFields, startsWith x.field y.field = true → x = y := by
  decide +kernel

theorem marks_spec : (IsWord (bytes "@header_begin") ∧ (bytes "@header_begin").length < 200) ∧
    (IsWord (bytes "@header_end") ∧ (bytes "@header_end").length < 200) ∧
    startsWith (bytes "@header_begin") (bytes "@header_end") = false ∧ headerFields.Nodup := by
  decide +kernel

theorem headerTable_lawful (cvtTo : List UInt8 → ℕ) : (headerTable cvtTo).Lawful where
  isWord x := (field_spec x (mem_headerFields x)).1
  short x := (field_spec x (mem_headerFields x)).2.1.trans_lt (by decide)
  distinct x y := (field_spec x (mem_headerFields x)).2.2.2.2 y (mem_headerFields y)
  notBegin x := (field_spec x (mem_headerFields x)).2.2.1
  notEnd x := (field_spec x (mem_headerFields x)).2.2.2.1
  isWordBegin := marks_spec.1
  isWordEnd := marks_spec.2.1
  endNotBegin := marks_spec.2.2.1
  mem := mem_headerFields
  nodup := marks_spec.2.2.2

theorem bit_injective {x y : HeaderField} (h : x.bit = y.bit) : x = y := by
  have hall : ∀ x ∈ headerFields, ∀ y ∈ headerFields, x.bit = y.bit → x = y := by decide +kernel
  exact hall x (mem_headerFields x) y (mem_headerFields y) h

theorem head_printULong {n : ℕ} (hn : 0 < n) : (printULong n).head? ≠ some 48 := by
  induction n using Nat.strong_induction_on with
  | _ n ih =>
    rw [printULong]
    split
    next hlt =>
      rw [List.head?_cons, Ne, Option.some.injEq]
      intro h
      have := congrArg UInt8.toNat h
      rw [toNat_decDigit hlt, show (48 : UInt8).toNat = 48 from rfl] at this
      omega
    next hge =>
      obtain ⟨c, t, hct⟩ := List.exists_cons_of_ne_nil (printULong_ne_nil (n / 10))
      have hhead := ih (n / 10) (by omega) (by omega)
      rw [hct] at hhead ⊢
      exact hhead

theorem inetPart_printULong (n : ℕ) : inetPart (printULong n) = some n := by
  rcases Nat.eq_zero_or_pos n with rfl | hn
  · rw [printULong, if_pos (by decide)]
    rfl
  · -- There is no zero in front, so the number is decimal.
    obtain ⟨c, t, hct⟩ := List.exists_cons_of_ne_nil (printULong_ne_nil n)
    have hhead := head_printULong hn
    have hdigits : (printULong n).all isDigit = true := List.all_eq_true.mpr (isDigit_printULong n)
    have hvalue := digitsValue_printULong n
    rw [hct] at hhead hdigits hvalue ⊢
    have hc : c ≠ 48 := fun h => hhead (congrArg some h)
    unfold inetPart
    split <;> first | exact absurd (List.cons.inj ‹_›).1 hc | skip
    rw [if_pos ⟨List.cons_ne_nil _ _, hdigits⟩, hvalue]

/-- An address is read as it was. -/
theorem inetAddr_inetNtoa {ipaddr : ℕ} (h : ipaddr < 2 ^ 32) :
    inetAddr (inetNtoa ipaddr) = ipaddr := by
  have hdot : ∀ n, (46 : UInt8) ∉ printULong n :=
    fun n hmem => absurd (isDigit_printULong n 46 hmem) (by decide)
  have hsplit : (inetNtoa ipaddr).splitOn 46 =
      [printULong (ipaddr / 16777216), printULong (ipaddr / 65536 % 256),
      printULong (ipaddr / 256 % 256), printULong (ipaddr % 256)] := by
    rw [inetNtoa, List.splitOn_append_cons_self_of_not_mem (hdot _),
      List.splitOn_append_cons_self_of_not_mem (hdot _),
        List.splitOn_append_cons_self_of_not_mem (hdot _),
      List.splitOn_eq_singleton (hdot _)]
  rw [inetAddr, hsplit]
  simp only [List.map_cons, List.map_nil, inetPart_printULong]
  rw [if_pos ⟨by omega, by omega, by omega, by omega⟩, Option.getD_some]
  omega

theorem isWord_inetNtoa (ipaddr : ℕ) : IsWord (inetNtoa ipaddr) := by
  have hspace : ∀ n, ∀ c ∈ printULong n, isSpace c = false := fun n => (isWord_printULong n).2
  refine ⟨by simp [inetNtoa, printULong_ne_nil], fun c hc => ?_⟩
  rw [inetNtoa] at hc
  simp only [List.mem_append, List.mem_cons] at hc
  rcases hc with hc | rfl | hc | rfl | hc | rfl | hc <;> first | exact hspace _ c hc | decide

theorem length_inetNtoa {ipaddr : ℕ} (h : ipaddr < 2 ^ 32) : (inetNtoa ipaddr).length ≤ 15 := by
  have hlen : ∀ n < 256, (printULong n).length ≤ 3 :=
    fun n hn => length_printULong (by decide) (by omega)
  have h₁ := hlen (ipaddr / 16777216) (by omega)
  have h₂ := hlen (ipaddr / 65536 % 256) (by omega)
  have h₃ := hlen (ipaddr / 256 % 256) (by omega)
  have h₄ := hlen (ipaddr % 256) (by omega)
  simp only [inetNtoa, List.length_append, List.length_cons]
  omega


/-! ### The fields of a record -/

/-- What a field holds. -/
inductive HeaderValue
  | genProg (v : Option GenProg)
  | osType (v : Option OsType)
  | currentStatus (v : Option CurrentStatus)
  | updateStatus (v : Option UpdateStatus)
  | actionStatus (v : Option ActionStatus)
  | format (v : Option FileFormat)
  | state (v : Option YesNo)
  | text (s : List UInt8)
  | number (i : ℤ)
  deriving DecidableEq

def HeaderField.get (x : HeaderField) (r : HeaderRec) : HeaderValue :=
  match x with
  | .generatedBy => .genProg r.generatedBy
  | .sourceArchieHostname => .text r.sourceArchieHostname
  | .primaryHostname => .text r.primaryHostname
  | .preferredHostname => .text r.preferredHostname
  | .primaryIpaddr => .number r.primaryIpaddr
  | .accessMethods => .text r.accessMethods
  | .accessCommand => .text r.accessCommand
  | .osType => .osType r.osType
  | .timezone => .number r.timezone
  | .retrieveTime => .number r.retrieveTime
  | .parseTime => .number r.parseTime
  | .updateTime => .number r.updateTime
  | .noRecs => .number r.noRecs
  | .currentStatus => .currentStatus r.currentStatus
  | .updateStatus => .updateStatus r.updateStatus
  | .actionStatus => .actionStatus r.actionStatus
  | .format => .format r.format
  | .prosperoHost => .state r.prosperoHost
  | .hcomment => .text r.comment
  | .dataName => .text r.dataName

/-- The record with one field, and its flag, from another one. -/
def HeaderField.copy (h : HeaderRec) (x : HeaderField) (r : HeaderRec) : HeaderRec :=
  HeaderRec.setFlag (match x with
    | .generatedBy => { r with generatedBy := h.generatedBy }
    | .sourceArchieHostname => { r with sourceArchieHostname := h.sourceArchieHostname }
    | .primaryHostname => { r with primaryHostname := h.primaryHostname }
    | .preferredHostname => { r with preferredHostname := h.preferredHostname }
    | .primaryIpaddr => { r with primaryIpaddr := h.primaryIpaddr }
    | .accessMethods => { r with accessMethods := h.accessMethods }
    | .accessCommand => { r with accessCommand := h.accessCommand }
    | .osType => { r with osType := h.osType }
    | .timezone => { r with timezone := h.timezone }
    | .retrieveTime => { r with retrieveTime := h.retrieveTime }
    | .parseTime => { r with parseTime := h.parseTime }
    | .updateTime => { r with updateTime := h.updateTime }
    | .noRecs => { r with noRecs := h.noRecs }
    | .currentStatus => { r with currentStatus := h.currentStatus }
    | .updateStatus => { r with updateStatus := h.updateStatus }
    | .actionStatus => { r with actionStatus := h.actionStatus }
    | .format => { r with format := h.format }
    | .prosperoHost => { r with prosperoHost := h.prosperoHost }
    | .hcomment => { r with comment := h.comment }
    | .dataName => { r with dataName := h.dataName }) x

@[simp] theorem get_setFlag (x y : HeaderField) (r : HeaderRec) :
  x.get (r.setFlag y) = x.get r := by
  cases x <;> rfl

@[simp] theorem get_unsetFlag (x y : HeaderField) (r : HeaderRec) :
  x.get (r.unsetFlag y) = x.get r := by
  cases x <;> rfl

theorem get_copy (h r : HeaderRec) (x : HeaderField) : x.get (x.copy h r) = x.get h := by
  cases x <;> rfl

theorem get_copy_of_ne (h r : HeaderRec) {x y : HeaderField} (hyx : y ≠ x) :
    x.get (y.copy h r) = x.get r := by
  unfold HeaderField.copy
  rw [get_setFlag]
  cases y <;> cases x <;> first | rfl | exact absurd rfl hyx

theorem get_storeEnum {ε : Type} {x y : HeaderField} {r : HeaderRec} {put : ε → HeaderRec}
    (hput : ∀ e, x.get (put e) = x.get r) (o : Option ε) :
    x.get (storeEnum y r put o).1 = x.get r := by
  cases o with
  | none => rw [storeEnum, get_unsetFlag, get_setFlag]
  | some e => rw [storeEnum, get_setFlag, hput]

/-- A line changes no other field. -/
theorem get_store_of_ne (cvtTo : List UInt8 → ℕ) {x y : HeaderField} (hyx : y ≠ x)
    (inputBuf arg : List UInt8)
    (r : HeaderRec) : x.get (y.store cvtTo inputBuf arg r).1 = x.get r := by
  cases y with
  | generatedBy | osType | currentStatus | updateStatus | actionStatus | format | prosperoHost =>
    refine get_storeEnum (fun e => ?_) _
    cases x <;> first | rfl | exact absurd rfl hyx
  | hcomment =>
    rw [HeaderField.store]
    split
    · cases x <;> first | rfl | exact absurd rfl hyx
    · rfl
  | _ => cases x <;> first | rfl | exact absurd rfl hyx


/-! ### Headers that come back -/

/-- `MAX_HOSTNAME_LEN` and `MAX_PATH_LEN`, `MAX_ACCESS_METHOD`, `MAX_ACCESS_COMM`. -/
def maxHostnameLen : ℕ := 256

def maxAccessMethod : ℕ := 128

def maxAccessComm : ℕ := 64

/-- A time has a text of 14 digits, from which it is found again. -/
def IsTime (cvtFrom : ℕ → List UInt8) (cvtTo : List UInt8 → ℕ) (t : ℕ) : Prop :=
  IsWord (cvtFrom t) ∧ (cvtFrom t).length = 14 ∧ cvtTo (cvtFrom t) = t

/-- A field has a value of its type that has a text. -/
def HeaderField.Proper (cvtFrom : ℕ → List UInt8) (cvtTo : List UInt8 → ℕ) (h : HeaderRec) :
    HeaderField → Prop
  | .generatedBy => h.generatedBy ≠ none
  | .sourceArchieHostname =>
    IsWord h.sourceArchieHostname ∧ h.sourceArchieHostname.length < maxHostnameLen
  | .primaryHostname => IsWord h.primaryHostname ∧ h.primaryHostname.length < maxHostnameLen
  | .preferredHostname => IsWord h.preferredHostname ∧ h.preferredHostname.length < maxHostnameLen
  | .primaryIpaddr => h.primaryIpaddr < 2 ^ 32
  | .accessMethods => IsWord h.accessMethods ∧ h.accessMethods.length < maxAccessMethod
  | .accessCommand => IsWord h.accessCommand ∧ h.accessCommand.length < maxAccessComm
  | .osType => h.osType ≠ none ∧ h.osType ≠ some .unixAix
  | .timezone => IsInt h.timezone
  | .retrieveTime => IsTime cvtFrom cvtTo h.retrieveTime
  | .parseTime => IsTime cvtFrom cvtTo h.parseTime
  | .updateTime => IsTime cvtFrom cvtTo h.updateTime
  | .noRecs => IsInt h.noRecs
  | .currentStatus => h.currentStatus ≠ none
  | .updateStatus => h.updateStatus ≠ none
  | .actionStatus => h.actionStatus ≠ none
  | .format => h.format ≠ none
  | .prosperoHost => h.prosperoHost ≠ none
  | .hcomment => HeaderTable.IsValue h.comment ∧ h.comment.length < maxHostnameLen
  | .dataName => IsWord h.dataName ∧ h.dataName.length < maxAccessComm

/-- What is kept by the line of a field: names up to the length of a line without the name of
the field, numbers that are not negative, and over a network no comment but one after which
there is no room for a carriage return. -/
def HeaderField.Kept (netcomm : Bool) (h : HeaderRec) : HeaderField → Prop
  | .sourceArchieHostname => h.sourceArchieHostname.length ≤ 232
  | .primaryHostname => h.primaryHostname.length ≤ 238
  | .preferredHostname => h.preferredHostname.length ≤ 236
  | .timezone => 0 ≤ h.timezone
  | .noRecs => 0 ≤ h.noRecs
  | .hcomment => if netcomm then h.comment.length = 247 else h.comment.length ≤ 247
  | _ => True

/-- The fields that are set have values. -/
def HeaderRec.WellFormed (cvtFrom : ℕ → List UInt8) (cvtTo : List UInt8 → ℕ) (h : HeaderRec) :
    Prop :=
  ∀ x, h.isSet x = true → x.Proper cvtFrom cvtTo h

/-- The flags are those of the fields that were set, and these have their values. -/
def HeaderRestored (h h' : HeaderRec) : Prop :=
  (∀ bit, hdrGet bit h'.headerFlags = true ↔ ∃ x : HeaderField, x.bit = bit ∧ h.isSet x = true) ∧
    ∀ x : HeaderField, h.isSet x = true → x.get h' = x.get h

section

variable {cvtFrom : ℕ → List UInt8} {cvtTo : List UInt8 → ℕ} {netcomm : Bool} {h : HeaderRec}

/-- The texts of an enumeration are words, and read as what they stand for. -/
def EnumTexts {ε : Type} (text : ε → List UInt8) (all : List ε) : Prop :=
  ∀ e ∈ all, (IsWord (text e) ∧ (text e).length ≤ 20) ∧ readEnum text all (text e) = some e

instance {ε : Type} [DecidableEq ε] (text : ε → List UInt8) (all : List ε) :
    Decidable (EnumTexts text all) :=
  inferInstanceAs (Decidable (∀ e ∈ all, _))

theorem enumTexts : EnumTexts GenProg.text
    [.parser, .retrieve, .server, .admin, .insert, .control] ∧
    EnumTexts OsType.text [.unixBsd, .vmsStd, .novell] ∧
    EnumTexts CurrentStatus.text
      [.active, .notSupported, .delByAdmin, .delByArchie, .inactive, .deleted, .disabled] ∧
    EnumTexts UpdateStatus.text [.succeed, .fail] ∧
    EnumTexts ActionStatus.text [.new, .update, .delete] ∧
    EnumTexts FileFormat.text
      [.fraw, .fxdr, .fcompressLz, .fcompressGzip, .fxdrCompressLz, .fxdrGzip] ∧
    EnumTexts YesNo.text [.yes, .no] := by
  decide +kernel

theorem EnumTexts.value {ε : Type} {text : ε → List UInt8} {all : List ε}
    (htexts : EnumTexts text all)
    {e : ε} (he : e ∈ all) (x : HeaderField) (r : HeaderRec) (put : ε → HeaderRec) :
    (IsWord (text e) ∧ (text e).length ≤ 20) ∧
      storeEnum x r put (readEnum text all (text e)) = ((put e).setFlag x, true) := by
  obtain ⟨hword, hread⟩ := htexts e he
  rw [hread]
  exact ⟨hword, rfl⟩

/-- The fields of an enumeration. -/
def enumFields : List HeaderField :=
  [.generatedBy, .osType, .currentStatus, .updateStatus, .actionStatus, .format, .prosperoHost]

/-- Their values are words, and come back from them. -/
theorem enum_value {x : HeaderField} (hmem : x ∈ enumFields) (hx : x.Proper cvtFrom cvtTo h) :
    (IsWord (x.value cvtFrom h) ∧ (x.value cvtFrom h).length ≤ 20) ∧
      ∀ inputBuf r, x.store cvtTo inputBuf (x.value cvtFrom h) r = (x.copy h r, true) := by
  suffices hstep : ∀ inputBuf r, (IsWord (x.value cvtFrom h) ∧ (x.value cvtFrom h).length ≤ 20) ∧
      x.store cvtTo inputBuf (x.value cvtFrom h) r = (x.copy h r, true) from
    ⟨(hstep [] emptyHeader).1, fun inputBuf r => (hstep inputBuf r).2⟩
  intro inputBuf r
  obtain ⟨hprog, hos, hcurrent, hupdate, haction, hformat, hyesno⟩ := enumTexts
  cases x with
  | generatedBy =>
    obtain ⟨e, he⟩ := Option.ne_none_iff_exists'.mp hx
    rw [HeaderField.value, HeaderField.copy, he]
    exact hprog.value (by cases e <;> decide) _ _ _
  | osType =>
    obtain ⟨e, he⟩ := Option.ne_none_iff_exists'.mp hx.1
    have haix : e ≠ .unixAix := fun h => hx.2 (h ▸ he)
    rw [HeaderField.value, HeaderField.copy, he]
    exact hos.value (by cases e <;> first | decide | exact absurd rfl haix) _ _ _
  | currentStatus =>
    obtain ⟨e, he⟩ := Option.ne_none_iff_exists'.mp hx
    rw [HeaderField.value, HeaderField.copy, he]
    exact hcurrent.value (by cases e <;> decide) _ _ _
  | updateStatus =>
    obtain ⟨e, he⟩ := Option.ne_none_iff_exists'.mp hx
    rw [HeaderField.value, HeaderField.copy, he]
    exact hupdate.value (by cases e <;> decide) _ _ _
  | actionStatus =>
    obtain ⟨e, he⟩ := Option.ne_none_iff_exists'.mp hx
    rw [HeaderField.value, HeaderField.copy, he]
    exact haction.value (by cases e <;> decide) _ _ _
  | format =>
    obtain ⟨e, he⟩ := Option.ne_none_iff_exists'.mp hx
    rw [HeaderField.value, HeaderField.copy, he]
    exact hformat.value (by cases e <;> decide) _ _ _
  | prosperoHost =>
    obtain ⟨e, he⟩ := Option.ne_none_iff_exists'.mp hx
    have htext : HeaderField.value cvtFrom h .prosperoHost = YesNo.text e := by
      rw [HeaderField.value, he]
      cases e <;> rfl
    rw [htext, HeaderField.copy, he]
    exact hyesno.value (by cases e <;> decide) _ _ _
  | _ => exact absurd hmem (by decide)

/-- A field other than the comment has a word for its value. -/
theorem isWord_value {x : HeaderField} (hx : x.Proper cvtFrom cvtTo h) (hcomment : x ≠ .hcomment) :
    IsWord (x.value cvtFrom h) := by
  cases x with
  | timezone | noRecs => exact isWord_printULong _
  | primaryIpaddr => exact isWord_inetNtoa _
  | hcomment => exact absurd rfl hcomment
  | generatedBy | osType | currentStatus | updateStatus | actionStatus | format | prosperoHost =>
    exact (enum_value (by decide) hx).1.1
  | _ => exact hx.1

theorem isValue_value {x : HeaderField} (hx : x.Proper cvtFrom cvtTo h) :
    HeaderTable.IsValue (x.value cvtFrom h) := by
  by_cases hcomment : x = .hcomment
  · rw [hcomment] at hx ⊢
    exact hx.1
  · exact HeaderTable.IsValue.of_isWord (isWord_value hx hcomment)

/-- The value of a field that is kept is found again in its text. -/
theorem store_value {x : HeaderField} (hx : x.Proper cvtFrom cvtTo h) (hcomment : x ≠ .hcomment)
    (hkept : x.Kept netcomm h) (inputBuf : List UInt8) (r : HeaderRec) :
    x.store cvtTo inputBuf (x.value cvtFrom h) r = (x.copy h r, true) := by
  have hnumber : ∀ i, IsInt i → 0 ≤ i → atoi (printULong (ulong i)) = i := by
    intro i hi hpos
    have := hi.2
    rw [atoi_printULong, ulong]
    omega
  cases x with
  | timezone | noRecs =>
    simp only [HeaderField.store, HeaderField.value, hnumber _ hx hkept]
    rfl
  | primaryIpaddr =>
    simp only [HeaderField.store, HeaderField.value, inetAddr_inetNtoa hx]
    rfl
  | retrieveTime | parseTime | updateTime =>
    simp only [HeaderField.store, HeaderField.value, hx.2.2]
    rfl
  | hcomment => exact absurd rfl hcomment
  | generatedBy | osType | currentStatus | updateStatus | actionStatus | format | prosperoHost =>
    exact (enum_value (by decide) hx).2 inputBuf r
  | _ => rfl

/-- The line of a field that is kept fits the buffer. -/
theorem fits_of_kept {x : HeaderField} (hx : x.Proper cvtFrom cvtTo h) (hkept : x.Kept netcomm h) :
    (x.field ++ 32 :: x.value cvtFrom h).length ≤ 255 := by
  have hfield := (field_spec x (mem_headerFields x)).2.1
  rw [List.length_append, List.length_cons]
  have hulong : ∀ i, (printULong (ulong i)).length ≤ 10 := fun i =>
    length_printULong (by decide) ((ulong_lt i).trans (by decide))
  cases x with
  | timezone =>
    have := hulong h.timezone
    simp only [HeaderField.value]
    omega
  | noRecs =>
    have := hulong h.noRecs
    simp only [HeaderField.value]
    omega
  | primaryIpaddr =>
    have := length_inetNtoa hx
    simp only [HeaderField.value]
    omega
  | retrieveTime | parseTime | updateTime =>
    have := hx.2.1
    simp only [HeaderField.value]
    omega
  | sourceArchieHostname | primaryHostname | preferredHostname =>
    have hname : (bytes "source_archie_hostname").length = 22 ∧ (bytes "primary_hostname").length = 16 ∧
      (bytes "preferred_hostname").length = 18 := by decide +kernel
    simp only [HeaderField.Kept, HeaderField.field, HeaderField.value] at hkept ⊢
    omega
  | hcomment =>
    have hname : (bytes "comment").length = 7 := by decide +kernel
    simp only [HeaderField.Kept, HeaderField.field, HeaderField.value] at hkept ⊢
    split at hkept <;> omega
  | accessMethods | accessCommand | dataName =>
    have := hx.2
    simp only [HeaderField.value, maxAccessMethod, maxAccessComm] at this ⊢
    omega
  | generatedBy | osType | currentStatus | updateStatus | actionStatus | format | prosperoHost =>
    have := (enum_value (by decide) hx).1.2
    omega

/-- The comment is all of its line that is in the buffer, without the end of the line. -/
theorem scanComment_inputBufOf (cvtTo : List UInt8 → ℕ) (netcomm : Bool) {value : List UInt8}
    (hvalue : HeaderTable.IsValue value) (arg : List UInt8) :
    scanComment ((headerTable cvtTo).inputBufOf netcomm .hcomment value) arg =
      ((value ++ lineEnd netcomm).take 247).takeWhile (· ≠ 10) := by
  have hfield : ((headerTable cvtTo).field .hcomment).length = 7 := by
    show (bytes "comment").length = 7
    decide +kernel
  obtain ⟨hnl, c, hc, hspace⟩ := hvalue
  obtain ⟨s, hs⟩ : ∃ s, (value ++ lineEnd netcomm).take 247 = c :: s := by
    cases value with
    | nil => exact absurd hc (by simp)
    | cons d value =>
      obtain rfl := Option.some.inj hc
      exact ⟨_, rfl⟩
  have hcnl : c ≠ 10 := by
    rintro rfl
    exact absurd hspace (by decide)
  have hblank : scanSet (· == 32) (32 :: c :: s) = some ([32], c :: s) := by
    refine scanSet_append (List.cons_ne_nil 32 []) (by simp) fun d hd => ?_
    obtain rfl := Option.some.inj hd
    rw [beq_eq_false_iff_ne]
    rintro rfl
    exact absurd hspace (by decide)
  have hrest : scanSet (fun d => decide (d ≠ 10)) (c :: s) =
      some ((c :: s).takeWhile (· ≠ 10), (c :: s).dropWhile (· ≠ 10)) := by
    rw [scanSet, List.takeWhile_cons_of_pos (by simpa using hcnl), if_neg (List.cons_ne_nil _ _)]
  have hword := scanWord_append ((headerTable_lawful cvtTo).isWord .hcomment)
    (spaceFirst_cons (c := 32) (by decide) (c :: s))
  rw [HeaderTable.inputBufOf_eq (headerTable_lawful cvtTo), hfield, hs, scanComment]
  simp only [hword, hblank, hrest, Option.bind_eq_bind, Option.bind_some, Option.getD_some]

theorem scanComment_eq_iff (cvtTo : List UInt8 → ℕ) (netcomm : Bool) {value : List UInt8}
    (hvalue : HeaderTable.IsValue value) (arg : List UInt8) :
    scanComment ((headerTable cvtTo).inputBufOf netcomm .hcomment value) arg = value ↔
      if netcomm then value.length = 247 else value.length ≤ 247 := by
  have hall : ∀ n, (value.take n).takeWhile (· ≠ 10) = value.take n := by
    intro n
    refine List.takeWhile_eq_self_iff.mpr fun c hc => ?_
    rw [decide_eq_true_iff]
    rintro rfl
    exact hvalue.1 (List.mem_of_mem_take hc)
  rw [scanComment_inputBufOf cvtTo netcomm hvalue]
  rcases Nat.lt_or_ge value.length 247 with hlt | hge
  · obtain ⟨n, hn⟩ : ∃ n, 247 - value.length = n + 1 := ⟨246 - value.length, by omega⟩
    rw [List.take_append, hn, List.takeWhile_append_of_pos fun c hc => by
      rw [decide_eq_true_iff]
      rintro rfl
      exact hvalue.1 (List.mem_of_mem_take hc), List.take_of_length_le hlt.le]
    cases netcomm with
    | false => simp [lineEnd, hlt.le]
    | true => simp [lineEnd, hlt.ne]
  · rw [List.take_append_of_le_length hge, hall]
    constructor
    · intro h
      have hlen := congrArg List.length h
      rw [List.length_take] at hlen
      split <;> omega
    · intro h
      refine List.take_of_length_le ?_
      split at h <;> omega

/-- What the line of a field does. -/
def HeaderField.storeLine (cvtFrom : ℕ → List UInt8) (cvtTo : List UInt8 → ℕ) (netcomm : Bool)
    (h : HeaderRec)
    (x : HeaderField) (r : HeaderRec) : HeaderRec × Bool :=
  x.store cvtTo ((headerTable cvtTo).inputBufOf netcomm x (x.value cvtFrom h))
    ((headerTable cvtTo).argOf netcomm x (x.value cvtFrom h)) r

/-- **A field that is kept** is restored from its line. -/
theorem storeLine_of_kept {x : HeaderField} (hx : x.Proper cvtFrom cvtTo h)
    (hkept : x.Kept netcomm h)
    (r : HeaderRec) : x.storeLine cvtFrom cvtTo netcomm h r = (x.copy h r, true) := by
  have law := headerTable_lawful cvtTo
  rw [HeaderField.storeLine]
  by_cases hcomment : x = .hcomment
  · subst hcomment
    have hne := (HeaderTable.argOf_eq netcomm law .hcomment (isValue_value hx)).1
    have hcomment := (scanComment_eq_iff cvtTo netcomm hx.1
      ((headerTable cvtTo).argOf netcomm .hcomment h.comment)).mpr hkept
    rw [HeaderField.store, if_pos hne]
    simp only [HeaderField.value, hcomment]
    rfl
  · have hword := isWord_value hx hcomment
    rw [(HeaderTable.argOf_eq_iff netcomm law x hword).mpr (fits_of_kept hx hkept)]
    exact store_value hx hcomment hkept _ r

/-- **A field that is not kept** gets a wrong value. -/
theorem storeLine_of_not_kept {x : HeaderField} (hx : x.Proper cvtFrom cvtTo h)
    (hkept : ¬ x.Kept netcomm h)
    (r : HeaderRec) :
    ∃ r', x.storeLine cvtFrom cvtTo netcomm h r = (r', true) ∧ x.get r' ≠ x.get h := by
  have law := headerTable_lawful cvtTo
  have hnumber : ∀ i, IsInt i → ¬ 0 ≤ i → atoi (printULong (ulong i)) ≠ i := by
    intro i hi hneg
    have := hi.1
    rw [atoi_printULong, ulong]
    omega
  have harg : x ≠ .hcomment →
      ((headerTable cvtTo).argOf netcomm x (x.value cvtFrom h) = x.value cvtFrom h ↔
      (x.field ++ 32 :: x.value cvtFrom h).length ≤ 255) := fun hcomment =>
    HeaderTable.argOf_eq_iff netcomm law x (isWord_value hx hcomment)
  have hulong : ∀ i, (printULong (ulong i)).length ≤ 10 := fun i =>
    length_printULong (by decide) ((ulong_lt i).trans (by decide))
  have hname : (bytes "source_archie_hostname").length = 22 ∧ (bytes "primary_hostname").length = 16 ∧
    (bytes "preferred_hostname").length = 18 ∧ (bytes "timezone").length = 8 ∧ (bytes "no_recs").length = 7 := by
    decide +kernel
  rw [HeaderField.storeLine]
  cases x with
  | sourceArchieHostname | primaryHostname | preferredHostname =>
    -- The name is cut off.
    refine ⟨_, rfl, fun heq => hkept ?_⟩
    have hfits := (harg (by decide)).mp (HeaderValue.text.inj heq)
    simp only [List.length_append, List.length_cons, HeaderField.field, HeaderField.value] at hfits
    simp only [HeaderField.Kept]
    omega
  | timezone | noRecs =>
    refine ⟨_, rfl, fun heq => ?_⟩
    have hfits := (harg (by decide)).mpr (by
      simp only [List.length_append, List.length_cons, HeaderField.field, HeaderField.value]
      have := hulong h.timezone
      have := hulong h.noRecs
      omega)
    rw [hfits] at heq
    exact hnumber _ hx hkept (HeaderValue.number.inj heq)
  | hcomment =>
    have hne := (HeaderTable.argOf_eq netcomm law .hcomment (isValue_value hx)).1
    rw [HeaderField.store, if_pos hne]
    refine ⟨_, rfl, fun heq => hkept ?_⟩
    exact (scanComment_eq_iff cvtTo netcomm hx.1 _).mp (HeaderValue.text.inj heq)
  | _ => exact absurd trivial hkept

/-! ### The header as a whole -/

theorem map_fst_headerLines (cvtFrom : ℕ → List UInt8) (h : HeaderRec) :
    (headerLines cvtFrom h).map Prod.fst = headerWriteOrder.filter h.isSet := by
  rw [headerLines, List.map_map]
  exact List.map_id _

theorem mem_headerLines {l : HeaderField × List UInt8} :
    l ∈ headerLines cvtFrom h ↔ h.isSet l.1 = true ∧ l.2 = l.1.value cvtFrom h := by
  rw [headerLines, List.mem_map]
  constructor
  · rintro ⟨x, hx, rfl⟩
    exact ⟨(List.mem_filter.mp hx).2, rfl⟩
  · intro ⟨hset, hvalue⟩
    exact ⟨l.1, List.mem_filter.mpr ⟨mem_headerWriteOrder l.1, hset⟩, Prod.ext rfl hvalue.symm⟩

theorem headerCopies (h : HeaderRec) :
    FieldCopies (HeaderField.copy h) HeaderField.get HeaderRec.headerFlags HeaderField.bit h where
  get_copy x r := get_copy h r x
  get_copy_of_ne _ _ hyx r := get_copy_of_ne h r hyx
  flags_copy x r := by cases x <;> rfl

/-- **A header comes back**, whatever its flags and whatever follows it, exactly if all fields
that are set are kept by their lines. -/
theorem readHeader_writeHeader_iff (hwf : h.WellFormed cvtFrom cvtTo) (netcomm : Bool)
    (rest : List UInt8) :
    (∃ h', readHeader cvtTo netcomm (writeHeader cvtFrom cvtTo netcomm h ++ rest) = some
      (h', rest) ∧
      HeaderRestored h h') ↔ ∀ x : HeaderField, h.isSet x = true → x.Kept netcomm h := by
  have law := headerTable_lawful cvtTo
  have hnodup : ((headerLines cvtFrom h).map Prod.fst).Nodup := by
    rw [map_fst_headerLines]
    exact (by decide : headerWriteOrder.Nodup).filter _
  have hproper : ∀ l ∈ headerLines cvtFrom h, l.1.Proper cvtFrom cvtTo h ∧
      l.2 = l.1.value cvtFrom h :=
    fun l hl => ⟨hwf l.1 (mem_headerLines.mp hl).1, (mem_headerLines.mp hl).2⟩
  constructor
  · rintro ⟨h', hread, -, hsame⟩ x hx
    refine HeaderTable.good_of_readHeader law (HeaderField.Kept netcomm h)
      (fun x r => x.get r = x.get h) (fun l hl => ?_) (fun l hl hgood => ?_)
        (fun l hl hbad r => ?_) ?_
      hnodup emptyHeader hread (fun l hl => hsame l.1 (mem_headerLines.mp hl).1)
      (x, x.value cvtFrom h) (mem_headerLines.mpr ⟨hx, rfl⟩)
    · rw [(hproper l hl).2]
      exact isValue_value (hproper l hl).1
    · rw [(hproper l hl).2]
      exact fits_of_kept (hproper l hl).1 hgood
    · rw [(hproper l hl).2]
      exact storeLine_of_not_kept (hproper l hl).1 hbad r
    · intro x y hyx inputBuf arg r hwrong
      rwa [show (headerTable cvtTo).store = HeaderField.store cvtTo from rfl,
        get_store_of_ne cvtTo hyx]
  · intro hkept
    refine ⟨_, HeaderTable.readHeader_writeLines law (HeaderField.copy h)
      (fun l hl => ?_) hnodup _ _, ?_⟩
    · obtain ⟨hx, hvalue⟩ := hproper l hl
      have hkeptl := hkept l.1 (mem_headerLines.mp hl).1
      rw [hvalue]
      exact ⟨isValue_value hx, HeaderTable.passed_of_fits (fits_of_kept hx hkeptl),
        storeLine_of_kept hx hkeptl⟩
    · rw [map_fst_headerLines]
      obtain ⟨hflags, hget, -⟩ :=
        (headerCopies h).foldl (headerWriteOrder.filter h.isSet) emptyHeader
      refine ⟨fun bit => ?_,
        fun x hx => hget x (Or.inl (List.mem_filter.mpr ⟨mem_headerWriteOrder x, hx⟩))⟩
      rw [hflags]
      constructor
      · rintro (hzero | ⟨x, hx, hbit⟩)
        · exact absurd hzero (by rw [hdrGet, emptyHeader, Nat.zero_testBit]; decide)
        · exact ⟨x, hbit, (List.mem_filter.mp hx).2⟩
      · rintro ⟨x, hbit, hx⟩
        exact Or.inr ⟨x, List.mem_filter.mpr ⟨mem_headerWriteOrder x, hx⟩, hbit⟩

end

/-- A header with all fields, east of Greenwich, and one with a timezone west of it. -/
def sampleHeader : HeaderRec where
  generatedBy := some .parser
  sourceArchieHostname := bytes "archie.one"
  primaryHostname := bytes "ftp.two"
  preferredHostname := bytes "ftp.three"
  primaryIpaddr := 2166226977
  accessMethods := bytes "anonftp"
  accessCommand := bytes "anonymous"
  osType := some .unixBsd
  retrieveTime := 828360000
  parseTime := 828360000
  updateTime := 828360000
  noRecs := 1200
  currentStatus := some .active
  updateStatus := some .succeed
  actionStatus := some .update
  timezone := 3600
  format := some .fxdr
  prosperoHost := some .no
  headerFlags := 1048575
  comment := bytes "mirrors of  many sites"
  dataName := bytes "listing"

def sampleWestern : HeaderRec := { emptyHeader with timezone := -3600, headerFlags := 2 }

theorem wellFormed_sampleHeader :
    sampleHeader.WellFormed (fun _ => bytes "19960401120000") (fun _ => 828360000) := by
  intro x _
  cases x <;> simp only [HeaderField.Proper, IsTime, HeaderTable.IsValue] <;> decide +kernel

theorem readHeader_writeHeader_sample :
    ∃ h', readHeader (fun _ => 828360000)
        false (writeHeader (fun _ => bytes "19960401120000") (fun _ => 828360000) false sampleHeader ++
          bytes "body") = some (h', bytes "body") ∧ HeaderRestored sampleHeader h' := by
  refine (readHeader_writeHeader_iff wellFormed_sampleHeader false (bytes "body")).mpr fun x _ => ?_
  cases x <;> simp only [HeaderField.Kept] <;> decide +kernel

/-- A timezone west of Greenwich is written as a number that is none. -/
theorem not_readHeader_writeHeader :
    sampleWestern.WellFormed (fun _ => []) (fun _ => 0) ∧
      ¬ ∃ h', readHeader (fun _ => 0) false
        (writeHeader (fun _ => []) (fun _ => 0) false sampleWestern ++ []) =
        some (h', []) ∧ HeaderRestored sampleWestern h' := by
  constructor
  · intro x hx
    have hall : ∀ x ∈ headerFields, sampleWestern.isSet x = true →
        x = .timezone := by decide +kernel
    obtain rfl := hall x (mem_headerFields x) hx
    exact (by decide : IsInt (-3600))
  · rintro ⟨h', hread, -, hsame⟩
    have heq : readHeader (fun _ => 0) false
        (writeHeader (fun _ => []) (fun _ => 0) false sampleWestern ++ []) =
        some ({ sampleWestern with timezone := 2147483647 }, []) := by decide +kernel
    rw [heq] at hread
    have hwrong := hsame .timezone (by decide +kernel)
    rw [← (Prod.mk.inj (Option.some.inj hread)).1] at hwrong
    exact absurd hwrong (by decide)

end Archie
