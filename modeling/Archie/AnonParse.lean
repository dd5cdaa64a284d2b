/-
The parser of anonymous ftp listings (`anonftp/parse/parse.c`, `anonftp/parse/stack.c`,
`anonftp/parse/queue.c`).

A listing is read line by line; what is a file or a directory header is handed to `handle_file` or
`handle_dir_start`.  These never look a path up: a stack holds the directory that is read and those
above it, each with the queue of its directories whose listings are still expected.

* `listingEvents` — what the lines of a listing are handed on as.
* `handleFile`, `handleDirStart`, `initStack` — the functions.
* `tryQueue_eq_some_iff` — which directory is found for a header, and what is dropped on the way.
-/
import Archie.VmsLine

namespace Archie

/-! ### The two parsers of lines -/

/-- The conversions of times, at the moment of the parse. -/
structure Clock where
  unix : ℕ → List UInt8 → List UInt8 → Option ℤ
  vms : ℕ → ℤ → ℤ → ℤ → ℤ → Option ℤ

/-- The module that the parser is linked with. -/
inductive ListingSystem
  | unix
  | vms
  deriving DecidableEq, Repr

namespace ListingSystem

/-- `S_line_type`. -/
def lineType : ListingSystem → List UInt8 → LineType
  | unix => Archie.lineType
  | vms => Vms.lineType

/-- `S_split_dir`. -/
def splitDir (line : List UInt8) (prepDir : Option (List UInt8)) :
    ListingSystem → Except LineStop (List (List UInt8))
  | unix => splitDirAt line prepDir
  | vms => Vms.splitDir line

/-- `S_file_parse`, with `leading_blanks` before and after. -/
def fileParse (clock : Clock) (leadingBlanks : ℤ) (line : List UInt8) :
    ListingSystem → ℤ × Except LineStop FileEntry
  | unix => fileParseAt clock.unix leadingBlanks line
  | vms => (leadingBlanks, Vms.fileParse clock.vms line)

/-- `S_dup_dir_name`. -/
def dupDirName (name : List UInt8) : ListingSystem → Option (List UInt8)
  | unix => some name
  | vms => if 46 ∈ name then some (name.takeWhile (· ≠ 46)) else none

end ListingSystem

/-! ### The lines -/

/-- What a line is handed on as. -/
inductive ListingEvent
  | file (text : List UInt8)
  | dirStart (text : List UInt8)
  deriving DecidableEq, Repr

/-- The variables for reading lines: the text that stands before `lp`, `state` and `parse_error`. -/
structure ReadState where
  before : List UInt8
  state : LineType
  parseError : ℕ
  deriving DecidableEq, Repr

section

variable (sys : ListingSystem)

/-- What is done with a line, other than to continue one. -/
def takeLine (s : ReadState) (line : List UInt8) : ReadState × Option ListingEvent :=
  let next : ReadState := ⟨[], sys.lineType line, s.parseError⟩
  match sys.lineType line with
  | .blank | .error | .total | .unread => (next, none)
  | .cont | .unknown => ({ next with parseError := s.parseError + 1 }, none)
  | .part => ({ next with before := s.before ++ line ++ [32] }, none)
  | .file => (next, some (.file (s.before ++ line)))
  | .dirStart => (next, some (.dirStart (s.before ++ line)))

/-- What is done with the line that `get_line` has read at `lp`.  A continuation is taken again,
together with the text before it. -/
def readLine (s : ReadState) (line : List UInt8) : ReadState × Option ListingEvent :=
  if sys.lineType line = .cont ∧ s.state = .part then
    takeLine sys { s with before := [], state := .cont } (s.before ++ line)
  else takeLine sys s line

/-- What the lines of a listing are handed on as, until there are too many bad ones. -/
def listingEvents : ReadState → List (List UInt8) → List ListingEvent
  | _, [] => []
  | s, line :: lines =>
    if 5 < s.parseError then []
    else (readLine sys s line).2.toList ++ listingEvents (readLine sys s line).1 lines

end

/-! ### The stack -/

/-- `Info_cell`.  `addr` is the number of the record that it points to. -/
structure InfoCell where
  name : List UInt8
  idx : ℤ
  addr : Option ℕ
  deriving DecidableEq, Repr

/-- `Stack`, one element.  The head of the queue comes first. -/
structure StackElt where
  ident : InfoCell
  queue : List InfoCell
  deriving DecidableEq, Repr

/-- `stack_match`: the names on the stack, from its top, and those of a path, from its last one. -/
def stackMatch : List StackElt → List (List UInt8) → Bool
  | [], [] => true
  | e :: stack, name :: path => e.ident.name == name && stackMatch stack path
  | _, _ => false

/-- The part of `try_next_dir` for the queue of one directory. -/
def tryQueue (path : List (List UInt8)) (ident : InfoCell) (below : List StackElt) :
    List InfoCell → Option (List StackElt)
  | [] => none
  | cell :: queue =>
    let stack := ⟨cell, []⟩ :: ⟨ident, queue⟩ :: below
    if stackMatch stack path then some stack else tryQueue path ident below queue

/-- `try_next_dir`.  A directory whose queue is empty is popped. -/
def tryNextDir (path : List (List UInt8)) : List StackElt → Option (List StackElt)
  | [] => none
  | e :: below => (tryQueue path e.ident below e.queue).or (tryNextDir path below)

/-! ### The records -/

/-- `Pars_ent_holder`. -/
structure ParsEnt where
  entry : FileEntry
  parentIdx : ℤ
  childIdx : ℤ
  deriving DecidableEq, Repr

/-- A record of `new_elt`. -/
def zeroEnt : ParsEnt := ⟨⟨[], 0, false, 0, 0, 0⟩, 0, 0⟩

/-- What the parser keeps: the stack, the records and `leading_blanks`. -/
structure ParsState where
  stack : List StackElt
  elts : List ParsEnt
  leadingBlanks : ℤ
  deriving DecidableEq, Repr

namespace ParsState

/-- `push` of a component of the root directory. -/
def push (s : ParsState) (name : List UInt8) : ParsState :=
  { s with stack := ⟨⟨name, -1, none⟩, []⟩ :: s.stack }

/-- The record of a directory, and its place in the queue of the directory on top. -/
def addDir (s : ParsState) (top : StackElt) (below : List StackElt) (entry : FileEntry)
    (name : List UInt8) : ParsState :=
  { s with
    stack := { top with queue := top.queue ++ [⟨name, s.elts.length, some s.elts.length⟩] } :: below
    elts := s.elts ++ [⟨entry, top.ident.idx, 0⟩] }

end ParsState

section

variable (clock : Clock) (sys : ListingSystem) (prepDir : Option (List UInt8))

/-- `handle_file`: what it returns, and the state. -/
def handleFile (s : ParsState) (line : List UInt8) : Bool × ParsState :=
  let (blanks, parsed) := sys.fileParse clock s.leadingBlanks line
  let s := { s with leadingBlanks := blanks }
  match parsed, s.stack with
  | .ok entry, top :: below =>
    if entry.isDir then
      match sys.dupDirName entry.name with
      | some name => (true, s.addDir top below entry name)
      | none => (false, { s with elts := s.elts ++ [⟨entry, 0, 0⟩] })
    else (true, { s with elts := s.elts ++ [⟨entry, top.ident.idx, 0⟩] })
  -- the stack is never empty here
  | _, _ => (false, { s with elts := s.elts ++ [zeroEnt] })

/-- `handle_dir_start`. -/
def handleDirStart (s : ParsState) (line : List UInt8) : Bool × ParsState :=
  match sys.splitDir line prepDir with
  | .error _ => (false, s)
  | .ok path =>
    match tryNextDir path.reverse s.stack with
    | none => (false, { s with stack := [] })
    | some stack =>
      let elts := match stack.head?.bind fun top => top.ident.addr with
        | some addr => s.elts.modify addr fun e => { e with childIdx := s.elts.length }
        | none => s.elts
      (true, { s with stack, elts })

/-- What is done with a line that is a file or a directory header. -/
def handleEvent (s : ParsState) : ListingEvent → Bool × ParsState
  | .file line => handleFile clock sys s line
  | .dirStart line => handleDirStart sys prepDir s line

/-- The lines up to the first one that is not accepted. -/
def runEvents : ParsState → List ListingEvent → Bool × ParsState
  | s, [] => (true, s)
  | s, e :: events =>
    match handleEvent clock sys prepDir s e with
    | (true, s) => runEvents s events
    | (false, s) => (false, s)

/-- The loop of `init_stack` over the components that are left.  When there are several, the last one
has a record and is in the queue of the one before. -/
def pushPath (single : Bool) : List (List UInt8) → ParsState → ParsState
  | [], s => s
  | name :: path, s =>
    if path ≠ [] ∨ single then pushPath single path (s.push name)
    else match s.stack with
      | [] => s
      | top :: below =>
        (s.addDir top below ⟨name, name.length, true, 0, 0, 0⟩ name).push name

/-- `init_stack`. -/
def initStack (s : ParsState) (rootDir : List UInt8) : Bool × ParsState :=
  if sys.lineType rootDir ≠ .dirStart then (false, s)
  else match sys.splitDir rootDir none with
    | .error _ => (false, s)
    | .ok path => (true, pushPath (path.length = 1) path s)

end

/-! ### Looking for a directory -/

section

variable {path : List (List UInt8)} {ident : InfoCell} {below stack : List StackElt}

/-- The names on a stack, from its top. -/
def stackNames (stack : List StackElt) : List (List UInt8) := stack.map fun e => e.ident.name

@[simp] theorem stackNames_cons (e : StackElt) (stack : List StackElt) :
    stackNames (e :: stack) = e.ident.name :: stackNames stack := rfl

theorem stackMatch_iff : stackMatch stack path = true ↔ stackNames stack = path := by
  induction stack generalizing path with
  | nil => cases path <;> simp [stackMatch, stackNames]
  | cons e stack ih =>
    cases path with
    | nil => simp [stackMatch]
    | cons name path => simp [stackMatch, ih]

/-- The first directory of a queue that completes the path is found; those before it are dropped. -/
theorem tryQueue_eq_some_iff {queue : List InfoCell} :
    tryQueue path ident below queue = some stack ↔
      ∃ dropped cell rest, queue = dropped ++ cell :: rest ∧
        (∀ c ∈ dropped, c.name :: ident.name :: stackNames below ≠ path) ∧
        cell.name :: ident.name :: stackNames below = path ∧
        stack = ⟨cell, []⟩ :: ⟨ident, rest⟩ :: below := by
  induction queue with
  | nil => simp [tryQueue]
  | cons cell queue ih =>
    rw [tryQueue]
    split
    next hmatch =>
      have hpath := stackMatch_iff.mp hmatch
      constructor
      · intro h
        exact ⟨[], cell, queue, rfl, by simp, hpath, (Option.some.inj h).symm⟩
      · rintro ⟨dropped, c, rest, hqueue, hdropped, -, rfl⟩
        cases dropped with
        | nil =>
          obtain ⟨rfl, rfl⟩ := List.cons.inj hqueue
          rfl
        | cons d dropped =>
          obtain ⟨rfl, rfl⟩ := List.cons.inj hqueue
          exact absurd hpath (hdropped _ List.mem_cons_self)
    next hmatch =>
      have hpath : cell.name :: ident.name :: stackNames below ≠ path := fun h =>
        hmatch (stackMatch_iff.mpr h)
      rw [ih]
      constructor
      · rintro ⟨dropped, c, rest, rfl, hdropped, hc, rfl⟩
        refine ⟨cell :: dropped, c, rest, rfl, ?_, hc, rfl⟩
        rintro d (_ | ⟨_, hd⟩)
        · exact hpath
        · exact hdropped d hd
      · rintro ⟨dropped, c, rest, hqueue, hdropped, hc, rfl⟩
        cases dropped with
        | nil =>
          obtain ⟨rfl, rfl⟩ := List.cons.inj hqueue
          exact absurd hc hpath
        | cons d dropped =>
          obtain ⟨rfl, rfl⟩ := List.cons.inj hqueue
          exact ⟨dropped, c, rest, rfl, fun d hd => hdropped d (List.mem_cons_of_mem _ hd), hc, rfl⟩

/-- Nothing is found in a queue that does not complete the path. -/
theorem tryQueue_eq_none {queue : List InfoCell}
    (h : ∀ c ∈ queue, c.name :: ident.name :: stackNames below ≠ path) :
    tryQueue path ident below queue = none := by
  rw [Option.eq_none_iff_forall_ne_some]
  intro stack hstack
  obtain ⟨dropped, cell, rest, rfl, -, hpath, -⟩ := tryQueue_eq_some_iff.mp hstack
  exact h cell (by simp) hpath

/-- Nothing is found when nothing is expected. -/
theorem tryNextDir_of_empty (h : ∀ e ∈ stack, e.queue = []) : tryNextDir path stack = none := by
  induction stack with
  | nil => rfl
  | cons e stack ih =>
    rw [tryNextDir, h e List.mem_cons_self, tryQueue, Option.none_or,
      ih fun e he => h e (List.mem_cons_of_mem _ he)]

end

end Archie
