/-
The catalogs file (`archie_catalogs.c`).

Physical lines are joined in `input_buf` at `iptr`, which is never set back to its beginning: the
text of a continued line stays in front of all lines that follow.  A field that a line does not have
is what an earlier line left in its array.

* `readCatalogLine`, `readCatalogsList` — the first call of `read_catalogs_list`.
* `logicalLines`, `ownEntry` — the lines of a file, and the entry of one alone.
* `CatalogLinesFit` — no line is read with the text or the fields of another.
-/
import Archie.CText

namespace Archie

/-! ### The list -/

inductive CatType
  | notype
  | template
  | archie
  | freetext
  deriving DecidableEq, Repr

inductive CatAccess
  | noaccess
  | wais
  | anonftp
  | gopherindex
  | webindex
  deriving DecidableEq, Repr

/-- An entry of `catalogs_list`: the fields that `read_catalogs_list` writes. -/
structure CatalogEntry where
  catName : List UInt8
  catDb : List UInt8
  catType : CatType
  catAccess : CatAccess
  searchVector : ℕ
  ctemplateAux : List UInt8
  expand : ℕ
  deriving DecidableEq, Repr

/-- The list is zeroed out before it is passed. -/
def CatalogEntry.zero : CatalogEntry := ⟨[], [], .notype, .noaccess, 0, [], 0⟩

/-- The sizes of `input_buf`, `cat_name_t` and `pathname_t`. -/
def catalogBufLen : ℕ := 2048

def maxCatNameLength : ℕ := 64

def pathnameLen : ℕ := 256

/-- What does not come from the file: the home of archie, the directories there are, the size of the
list, and what the arrays of the last two fields hold at first. -/
structure CatalogEnv where
  archieHome : List UInt8
  isDir : List UInt8 → Bool
  maxCat : ℕ
  accesstr : List UInt8
  dirstring : List UInt8

/-! ### An entry -/

/-- A full pathname is taken as it is; another is `master_db_filename` of it. -/
def catalogDb (masterDir dirstring : List UInt8) : List UInt8 :=
  if dirstring.head? = some 47 then dirstring else masterDir ++ 47 :: dirstring

/-- The searches that the options of a type disable. -/
def searchVectorOf (opts : List (List UInt8)) : ℕ :=
  opts.foldl (fun v opt =>
    if strcasecmpEq opt (bytes "noregex") then v ||| 1
    else if strcasecmpEq opt (bytes "nosub") then v ||| 2
    else if strcasecmpEq opt (bytes "nosubcase") then v ||| 4
    else if strcasecmpEq opt (bytes "noexact") then v ||| 8
    else v) 0

def isArchie (typestring : List UInt8) : Bool := strncasecmpEq typestring (bytes "archie") 6

def isTemplate (typestring : List UInt8) : Bool := strncasecmpEq typestring (bytes "template") 8

def isFreetext (typestring : List UInt8) : Bool := strncasecmpEq typestring (bytes "freetext") 8

/-- The access method of a type `archie`, if it is known. -/
def archieAccess (accesstr : List UInt8) : Option CatAccess :=
  if strncasecmpEq accesstr (bytes "anonftp") 7 then some .anonftp
  else if strncasecmpEq accesstr (bytes "gopherindex") 11 then some .gopherindex
  else if strncasecmpEq accesstr (bytes "webindex") 8 then some .webindex
  else none

/-- The file of attributes of a template. -/
def templateAux (archieHome catName typestring : List UInt8) : List UInt8 :=
  let inEtc (name : List UInt8) := archieHome ++ bytes "/etc/" ++ name ++ bytes ".aux"
  match (strSepFields 44 [] typestring)[1]? with
  | none => inEtc catName
  | some aux => if aux.head? = some 47 then aux ++ bytes ".aux" else inEtc aux

/-- The access method `wais` with its option. -/
def CatalogEntry.setWais (e : CatalogEntry) (accesstr : List UInt8) : CatalogEntry :=
  match strSepFields 44 [] accesstr with
  | [] => e
  | access :: opts =>
    if strcasecmpEq access (bytes "wais") then
      { e with
        catAccess := .wais
        expand := if opts.any fun opt => strcasecmpEq opt (bytes "expand") then 1 else e.expand }
    else e

/-- The entry of a database, in a slot of the list. -/
def makeEntry (archieHome masterDir : List UInt8) (slot : CatalogEntry)
    (catName typestring accesstr dirstring : List UInt8) : CatalogEntry :=
  let e := { slot with catName := catName }
  if isArchie typestring then
    let opts := (strSepFields 44 [] typestring).drop 1
    let e := { e with
      catType := .archie
      searchVector := if opts = [] then slot.searchVector else searchVectorOf opts }
    match archieAccess accesstr with
    | some access => { e with catAccess := access, catDb := catalogDb masterDir dirstring }
    | none => e
  else if isTemplate typestring then
    CatalogEntry.setWais
      { e with
        catType := .template
        catDb := catalogDb masterDir dirstring
        ctemplateAux := templateAux archieHome catName typestring } accesstr
  else if isFreetext typestring then
    CatalogEntry.setWais
      { e with catType := .freetext, catDb := catalogDb masterDir dirstring } accesstr
  else e

/-- What is written fits the arrays of an entry. -/
def CatalogEntry.fits (e : CatalogEntry) : Bool :=
  e.catName.length < maxCatNameLength && e.catDb.length < pathnameLen &&
    e.ctemplateAux.length < pathnameLen

/-! ### The loop -/

/-- The text before the first occurrence of another: `strstr`. -/
def strBefore (pat : List UInt8) : List UInt8 → Option (List UInt8)
  | [] => if pat = [] then some [] else none
  | c :: s => if pat <+: c :: s then some [] else (strBefore pat s).map (c :: ·)

/-- `CONTINUATION_LINE`. -/
def continuationLine : List UInt8 := [92, 10]

/-- The words that a number of `%s` read. -/
def scanWords : ℕ → List UInt8 → List (List UInt8)
  | 0, _ => []
  | n + 1, s =>
    match scanWord s with
    | none => []
    | some (w, s) => w :: scanWords n s

/-- `front` is what comes before `iptr` in `input_buf`, and `slot` the entry that is written next. -/
structure CatalogState where
  front : List UInt8
  accesstr : List UInt8
  dirstring : List UInt8
  mdir : List UInt8
  hdir : List UInt8
  masterDir : List UInt8
  pastMasterHost : Bool
  slot : CatalogEntry
  entries : List CatalogEntry

/-- Before the first line. -/
def CatalogState.start (env : CatalogEnv) : CatalogState :=
  ⟨[], env.accesstr, env.dirstring, [], [], [], false, .zero, []⟩

/-- `set_master_db_dir`: the directory `db` of archie, if none is given. -/
def masterDbDir (env : CatalogEnv) (mdir : List UInt8) : List UInt8 :=
  if mdir = [] then env.archieHome ++ bytes "/db" else mdir

/-- `set_host_db_dir`. -/
def hostDbDir (masterDir hdir : List UInt8) : List UInt8 :=
  if hdir = [] then masterDir ++ bytes "/./host_db" else hdir

/-- Both directories are set before the first database; none, if there is no such directory. -/
def CatalogState.setDirs (env : CatalogEnv) (st : CatalogState) : Option CatalogState :=
  if st.pastMasterHost then some st
  else
    let masterDir := masterDbDir env st.mdir
    if env.isDir masterDir && env.isDir (hostDbDir masterDir st.hdir) then
      some { st with pastMasterHost := true, masterDir := masterDir }
    else none

def isMasterLine (catName : List UInt8) : Bool := strcasecmpEq catName (bytes "!masterdir")

def isHostLine (catName : List UInt8) : Bool := strcasecmpEq catName (bytes "!hostdir")

/-- A line with a name and a type, after the last two fields have been read. -/
def CatalogState.addLine (env : CatalogEnv) (st : CatalogState) (catName typestring : List UInt8) :
    Option CatalogState :=
  if isMasterLine catName || isHostLine catName then
    if st.pastMasterHost || typestring.head? ≠ some 47 then none
    else
      let st := { st with slot := { st.slot with catName := catName, catDb := typestring } }
      some (if isMasterLine catName then { st with mdir := typestring }
        else { st with hdir := typestring })
  else do
    let st ← st.setDirs env
    -- `str_sep` of an empty string has no first field
    if (isTemplate typestring || isFreetext typestring) && st.accesstr = [] then none
    else
      let e := makeEntry env.archieHome st.masterDir st.slot catName typestring st.accesstr
        st.dirstring
      if e.fits then some { st with slot := .zero, entries := st.entries ++ [e] } else none

/-- `sscanf` into the entry and the arrays. -/
def CatalogState.readFields (env : CatalogEnv) (st : CatalogState) (text : List UInt8) :
    Option CatalogState :=
  match scanWords 4 text with
  | [] => some st
  | catName :: fields =>
    if maxCatNameLength ≤ catName.length ∨ ∃ f ∈ fields, pathnameLen ≤ f.length then none
    else
      match fields with
      | [] => some { st with slot := { st.slot with catName := catName } }
      | typestring :: fields =>
        CatalogState.addLine env
          { st with
            accesstr := fields[0]?.getD st.accesstr
            dirstring := fields[1]?.getD st.dirstring } catName typestring

/-- A round of the loop, where `line` is what `fgets` reads to `iptr`.  None, if `ERROR` is returned,
an array is left, or the line does not fit. -/
def CatalogState.readCatalogLine (env : CatalogEnv) (st : CatalogState) (line : List UInt8) :
    Option CatalogState :=
  if catalogBufLen ≤ st.front.length + line.length then none
  else
    let inputBuf := (st.front ++ line).takeWhile (· ≠ 0)
    match strBefore continuationLine inputBuf with
    | some front => some { st with front := front }
    | none =>
      let text := inputBuf.takeWhile (· ≠ 35)
      let buf := st.front ++ line ++ [0]
      -- a NUL where the comment begins
      let buf := if 35 ∈ inputBuf then buf.set text.length 0 else buf
      let iptr := st.front.length
      let st := { st with front := buf.take iptr }
      if buf.getD iptr 0 = 0 then some st
      else if st.entries.length < env.maxCat then st.readFields env text
      else none

/-- The first call of `read_catalogs_list`, up to `initialize_databases`. -/
def readCatalogsList (env : CatalogEnv) (file : List UInt8) : Option (List CatalogEntry) := do
  let st ← (fgetsLines catalogBufLen file).foldlM (CatalogState.readCatalogLine env) (.start env)
  if st.entries.length < env.maxCat then some (st.entries ++ [{ st.slot with catName := [] }])
  else none

/-! ### Logical lines -/

/-- The parts of a line that were continued, joined, and the physical line that ends it. -/
structure LogicalLine where
  held : List UInt8
  last : List UInt8
  deriving DecidableEq, Repr

/-- The physical lines, joined at continuation marks. -/
def logicalLines : List (List UInt8) → List UInt8 → List LogicalLine
  | [], held => if held = [] then [] else [⟨held, []⟩]
  | line :: lines, held =>
    match strBefore continuationLine (held ++ line) with
    | some held => logicalLines lines held
    | none => ⟨held, line⟩ :: logicalLines lines []

namespace LogicalLine

/-- The first four fields, where a comment is cut off. -/
def words (l : LogicalLine) : List (List UInt8) :=
  scanWords 4 ((l.held ++ l.last).takeWhile (· ≠ 35))

def catName (l : LogicalLine) : List UInt8 := l.words.getD 0 []

def typestring (l : LogicalLine) : List UInt8 := l.words.getD 1 []

def accesstr (l : LogicalLine) : List UInt8 := l.words.getD 2 []

def dirstring (l : LogicalLine) : List UInt8 := l.words.getD 3 []

def isDirectory (l : LogicalLine) : Bool :=
  2 ≤ l.words.length && (isMasterLine l.catName || isHostLine l.catName)

def isDatabase (l : LogicalLine) : Bool :=
  2 ≤ l.words.length && !(isMasterLine l.catName || isHostLine l.catName)

end LogicalLine

/-- The directories of the last directory lines. -/
def lastMaster (mdir : List UInt8) (ls : List LogicalLine) : List UInt8 :=
  ls.foldl (fun mdir l =>
    if l.isDirectory && isMasterLine l.catName then l.typestring else mdir) mdir

def lastHost (hdir : List UInt8) (ls : List LogicalLine) : List UInt8 :=
  ls.foldl (fun hdir l =>
    if l.isDirectory && !isMasterLine l.catName then l.typestring else hdir) hdir

/-- The entry of a line alone: a field that it does not have is empty. -/
def ownEntry (archieHome masterDir : List UInt8) (l : LogicalLine) : CatalogEntry :=
  makeEntry archieHome masterDir .zero l.catName l.typestring l.accesstr l.dirstring

/-- The entries of the lines of at least two fields. -/
def catalogEntries (env : CatalogEnv) (ls : List LogicalLine) : List CatalogEntry :=
  (ls.filter LogicalLine.isDatabase).map
    (ownEntry env.archieHome (masterDbDir env (lastMaster [] ls)))

/-- The logical lines of a file. -/
def catalogLines (file : List UInt8) : List LogicalLine :=
  logicalLines (fgetsLines catalogBufLen file) []

/-- The list has the entries of the lines, and then one without a name. -/
def CatalogsRight (env : CatalogEnv) (file : List UInt8) : Prop :=
  ∃ last : CatalogEntry, last.catName = [] ∧
    readCatalogsList env file = some (catalogEntries env (catalogLines file) ++ [last])

/-- A file as it may be: the lines fit the buffer and the list, directory lines come before the
databases, and the directories exist. -/
structure CatalogsFile (env : CatalogEnv) (file : List UInt8) : Prop where
  linesFit : ∀ l ∈ catalogLines file, l.held.length + l.last.length < catalogBufLen
  directoriesFirst : (catalogLines file).Pairwise fun l l' => l.isDatabase → l'.isDirectory = false
  count : ((catalogLines file).filter LogicalLine.isDatabase).length < env.maxCat
  isDir : env.isDir (masterDbDir env (lastMaster [] (catalogLines file))) ∧
    env.isDir (hostDbDir (masterDbDir env (lastMaster [] (catalogLines file)))
      (lastHost [] (catalogLines file)))

/-! ### Lines that fit -/

/-- The type says what is done with the access method. -/
def usesAccess (typestring : List UInt8) : Bool :=
  isArchie typestring || isTemplate typestring || isFreetext typestring

/-- The type and the access method say that the directory is entered. -/
def usesDir (typestring accesstr : List UInt8) : Bool :=
  if isArchie typestring then (archieAccess accesstr).isSome
  else isTemplate typestring || isFreetext typestring

/-- A database line has the fields that are used of it.  After a directory line, which leaves its
directory in the slot, the directory is one of them. -/
structure DatabaseFits (archieHome masterDir : List UInt8) (dirs : Bool) (l : LogicalLine) :
    Prop where
  access : usesAccess l.typestring = true → 3 ≤ l.words.length
  dir : usesDir l.typestring l.accesstr = true → 4 ≤ l.words.length
  written : dirs = true → usesDir l.typestring l.accesstr = true
  fits : (ownEntry archieHome masterDir l).fits = true

/-- A line is read as it is, where `kept` is the text of earlier lines that stands in front.  It is
blank, unless the line is a comment; a last part that is a comment does not end a line of two
fields. -/
structure CatalogLineFits (archieHome masterDir kept : List UInt8) (dirs : Bool) (l : LogicalLine) :
    Prop where
  front : (∀ c ∈ kept, isSpace c = true) ∨
    (l.held = [] ∧ l.last.head? = some 35 ∧ 35 ∉ kept ∧ 10 ∉ kept)
  comment : 35 ∉ l.held → l.last.head? = some 35 → l.words.length < 2
  name : l.catName.length < maxCatNameLength
  fields : ∀ f ∈ l.words.tail, f.length < pathnameLen
  directory : l.isDirectory = true → l.typestring.head? = some 47
  database : l.isDatabase = true → DatabaseFits archieHome masterDir dirs l

/-- Whether a directory line has written to the slot. -/
def dirsAfter (dirs : Bool) (l : LogicalLine) : Bool := l.isDirectory || (dirs && !l.isDatabase)

/-- **The condition** on the lines of a file, where `kept` is what the continued parts of earlier
lines left in front, `held` what there is of a line, and `dirs` says that a directory line has written
to the slot. -/
def CatalogLinesFit (archieHome masterDir : List UInt8) :
    List UInt8 → List UInt8 → Bool → List (List UInt8) → Prop
  -- a line that is continued at the end of the file is not entered
  | _, held, _, [] => (LogicalLine.words ⟨held, []⟩).length < 2
  | kept, held, dirs, line :: lines =>
    0 ∉ line ∧ kept.length + held.length + line.length < catalogBufLen ∧
      match strBefore continuationLine (held ++ line) with
      | some held =>
        (∀ c ∈ kept, isSpace c = true) ∧ CatalogLinesFit archieHome masterDir kept held dirs lines
      | none =>
        CatalogLineFits archieHome masterDir kept dirs ⟨held, line⟩ ∧
          CatalogLinesFit archieHome masterDir (kept ++ held) [] (dirsAfter dirs ⟨held, line⟩) lines

end Archie
