/-
Listings whose root header has several components (`init_stack` of `anonftp/parse/stack.c`).

`init_stack` makes a record for the last component, as if it were listed in the one before, and
pushes the component itself without it.

* `handleDirStart_start` — only the root header itself is accepted next, as a directory of its own.
* `rootOwned_iff` — when the record is the parent of what the header lists.
-/
import Archie.AnonParse

namespace Archie

/-- A root header of several components: a path, or a device and a path. -/
structure RootHeader (sys : ListingSystem) where
  text : List UInt8
  path : List (List UInt8)
  isHeader : sys.lineType text = .dirStart
  split : sys.splitDir text none = .ok path
  several : 2 ≤ path.length

/-- The number of records when the first later header comes, or the end of the listing. -/
def directElts (clock : Clock) (sys : ListingSystem) : ParsState → List ListingEvent → ℕ
  | s, .file line :: events =>
    match handleFile clock sys s line with
    | (true, s) => directElts clock sys s events
    | (false, s) => s.elts.length
  | s, _ => s.elts.length

/-- The first record is the parent of those before the number `direct`, and of no others; the first
of them is its child; and the directory that is read is not the one that the record is for. -/
structure OwnsDirect (direct : ℕ) (s : ParsState) : Prop where
  parent : ∀ j e, j ≠ 0 → s.elts[j]? = some e → (e.parentIdx = 0 ↔ j < direct)
  child : 1 < direct → ∃ e, s.elts[0]? = some e ∧ e.childIdx = 1
  notAgain : ∀ top ∈ s.stack.head?, top.ident.addr ≠ some 0

section

variable {sys : ListingSystem} (clock : Clock) (prepDir : Option (List UInt8)) (blanks : ℤ)
  (root : RootHeader sys)

namespace RootHeader

/-- What `init_stack` makes of the header. -/
def start : ParsState := (initStack sys ⟨[], [], blanks⟩ root.text).2

/-- The record of the last component is the parent of what the header lists, in every state that the
listing leads to. -/
def Owned (events : List ListingEvent) : Prop :=
  ∀ pre s, pre <+: events → runEvents clock sys prepDir (root.start blanks) pre = (true, s) →
    OwnsDirect (directElts clock sys (root.start blanks) pre) s

/-- The first file or header of the listing, if any, is a line that is no file, or another header
than that of the root. -/
def FirstRefused (events : List ListingEvent) : Prop :=
  match events.head? with
  | none => True
  | some (.file line) => ∀ entry, (sys.fileParse clock blanks line).2 = .ok entry →
      entry.isDir = true ∧ sys.dupDirName entry.name = none
  | some (.dirStart line) => sys.splitDir line prepDir ≠ .ok root.path

end RootHeader

/-- The components before the last one are pushed. -/
theorem pushPath_append (names : List (List UInt8)) {rest : List (List UInt8)} (hrest : rest ≠ [])
    (s : ParsState) : pushPath false (names ++ rest) s = pushPath false rest (names.foldl ParsState.push s) := by
  induction names generalizing s with
  | nil => rfl
  | cons name names ih =>
    rw [List.cons_append, pushPath, if_pos (.inl (by simp [hrest])), ih]
    rfl

theorem foldl_push (names : List (List UInt8)) (s : ParsState) : names.foldl ParsState.push s =
    { s with stack := (names.reverse.map fun name => ⟨⟨name, -1, none⟩, []⟩) ++ s.stack } := by
  induction names generalizing s with
  | nil => rfl
  | cons name names ih =>
    rw [List.foldl_cons, ih]
    simp [ParsState.push]

/-- The stack and the record at the start. -/
theorem RootHeader.exists_start : ∃ names mid last, root.path = names ++ [mid, last] ∧
    root.start blanks =
      ⟨⟨⟨last, -1, none⟩, []⟩ :: ⟨⟨mid, -1, none⟩, [⟨last, 0, some 0⟩]⟩ ::
        names.reverse.map fun name => ⟨⟨name, -1, none⟩, []⟩,
      [⟨⟨last, last.length, true, 0, 0, 0⟩, -1, 0⟩], blanks⟩ := by
  obtain ⟨text, path, hheader, hsplit, hpath⟩ := root
  obtain ⟨front, last, rfl⟩ := (List.eq_nil_or_concat path).resolve_left (by rintro rfl; simp at hpath)
  rw [List.concat_eq_append, List.length_append, List.length_singleton] at hpath
  obtain ⟨names, mid, rfl⟩ := (List.eq_nil_or_concat front).resolve_left (by rintro rfl; simp at hpath)
  simp only [List.concat_eq_append, List.append_assoc, List.singleton_append] at hsplit ⊢
  have hsingle : decide ((names ++ [mid, last]).length = 1) = false := by simp
  refine ⟨names, mid, last, rfl, ?_⟩
  rw [RootHeader.start, initStack, if_neg (not_not.mpr hheader), hsplit]
  dsimp only
  rw [hsingle, pushPath_append names (by simp), foldl_push, List.append_nil, pushPath,
    if_pos (.inl (by simp)), pushPath, if_neg (by simp)]
  rfl

/-- A file that is accepted has a record in the directory on top. -/
theorem handleFile_cases {s : ParsState} (line : List UInt8) {top : StackElt} {below : List StackElt}
    (hstack : s.stack = top :: below) :
    (∃ e s', handleFile clock sys s line = (true, s') ∧ s'.elts = s.elts ++ [e] ∧
        e.parentIdx = top.ident.idx ∧ ∃ entry, (sys.fileParse clock s.leadingBlanks line).2 = .ok entry ∧
          ¬(entry.isDir = true ∧ sys.dupDirName entry.name = none)) ∨
      (∃ s', handleFile clock sys s line = (false, s') ∧
        ∀ entry, (sys.fileParse clock s.leadingBlanks line).2 = .ok entry →
          entry.isDir = true ∧ sys.dupDirName entry.name = none) := by
  rw [handleFile]
  rcases hparse : sys.fileParse clock s.leadingBlanks line with ⟨blanks', parsed⟩
  dsimp only
  rw [hstack]
  cases parsed with
  | error e => exact .inr ⟨_, rfl, by simp⟩
  | ok entry =>
    dsimp only
    by_cases hdir : entry.isDir = true
    · rw [if_pos hdir]
      cases hname : sys.dupDirName entry.name with
      | none => exact .inr ⟨_, rfl, by simpa using ⟨hdir, hname⟩⟩
      | some name => exact .inl ⟨_, _, rfl, rfl, rfl, entry, rfl, by simp [hname]⟩
    · rw [if_neg hdir]
      exact .inl ⟨_, _, rfl, rfl, rfl, entry, rfl, by simp [hdir]⟩

/-- The directory that is expected at the start is the one that is being read. -/
theorem tryNextDir_start {names path : List (List UInt8)} {mid last : List UInt8} :
    tryNextDir path (⟨⟨last, -1, none⟩, []⟩ :: ⟨⟨mid, -1, none⟩, [⟨last, 0, some 0⟩]⟩ ::
        names.map fun name => ⟨⟨name, -1, none⟩, []⟩) =
      if path = last :: mid :: names then
        some (⟨⟨last, 0, some 0⟩, []⟩ :: ⟨⟨mid, -1, none⟩, []⟩ ::
          names.map fun name => ⟨⟨name, -1, none⟩, []⟩)
      else none := by
  have hnames : stackNames (names.map fun name => (⟨⟨name, -1, none⟩, []⟩ : StackElt)) = names := by
    rw [stackNames, List.map_map]
    exact List.map_id' names
  have hempty : ∀ e ∈ names.map fun name => (⟨⟨name, -1, none⟩, []⟩ : StackElt), e.queue = [] := by
    intro e he
    obtain ⟨name, -, rfl⟩ := List.mem_map.mp he
    rfl
  rw [tryNextDir, tryQueue, Option.none_or, tryNextDir, tryNextDir_of_empty hempty, Option.or_none]
  split
  next hpath =>
    exact tryQueue_eq_some_iff.mpr ⟨[], _, [], rfl, by simp, by rw [hnames, hpath], rfl⟩
  next hpath =>
    refine tryQueue_eq_none fun c hc => ?_
    rw [List.mem_singleton.mp hc, hnames]
    exact Ne.symm hpath

/-- The root header is accepted once more, as a directory of its own; no other header is. -/
theorem handleDirStart_start (prepDir : Option (List UInt8)) (line : List UInt8) :
    (sys.splitDir line prepDir = .ok root.path ∧ ∃ s top,
        handleDirStart sys prepDir (root.start blanks) line = (true, s) ∧ s.stack.head? = some top ∧
          top.ident.addr = some 0) ∨
      (sys.splitDir line prepDir ≠ .ok root.path ∧
        ∃ s, handleDirStart sys prepDir (root.start blanks) line = (false, s)) := by
  obtain ⟨names, mid, last, hpath, hstart⟩ := root.exists_start blanks
  rw [hpath, hstart, handleDirStart]
  cases hsplit : sys.splitDir line prepDir with
  | error e => exact .inr ⟨by simp, _, rfl⟩
  | ok path =>
    dsimp only
    rw [tryNextDir_start]
    by_cases hroot : path = names ++ [mid, last]
    · rw [hroot, if_pos (by simp)]
      exact .inl ⟨rfl, _, _, rfl, rfl, rfl⟩
    · have hrev : path.reverse ≠ last :: mid :: names.reverse := by
        intro h
        apply hroot
        rw [← List.reverse_reverse path, h]
        simp
      rw [if_neg hrev]
      exact .inr ⟨by simpa using hroot, _, rfl⟩

/-- At the start, the record has no entries. -/
theorem ownsDirect_start : OwnsDirect 1 (root.start blanks) := by
  obtain ⟨names, mid, last, -, hstart⟩ := root.exists_start blanks
  rw [hstart]
  refine ⟨fun j e hj he => ?_, fun h => absurd h (by simp), by simp⟩
  rw [List.getElem?_eq_none (by simp; omega)] at he
  simp at he

/-- The record is the parent of what the header lists when the listing has nothing at all that is
accepted. -/
theorem rootOwned_iff (prepDir : Option (List UInt8)) (events : List ListingEvent) :
    root.Owned clock prepDir blanks events ↔ root.FirstRefused clock prepDir blanks events := by
  obtain ⟨names, mid, last, hpath, hstart⟩ := root.exists_start blanks
  have helts : (root.start blanks).elts.length = 1 := by rw [hstart]; rfl
  have hblanks : (root.start blanks).leadingBlanks = blanks := by rw [hstart]
  have hstack : ∃ below, (root.start blanks).stack = ⟨⟨last, -1, none⟩, []⟩ :: below :=
    ⟨_, by rw [hstart]⟩
  obtain ⟨below, hstack⟩ := hstack
  -- before the first file or header, the state is the one at the start
  have hnil : ∀ s, runEvents clock sys prepDir (root.start blanks) [] = (true, s) →
      OwnsDirect (directElts clock sys (root.start blanks) []) s := by
    intro s hrun
    obtain rfl : root.start blanks = s := (Prod.mk.inj hrun).2
    rw [directElts, helts]
    · exact ownsDirect_start blanks root
    · simp
  cases events with
  | nil =>
    refine iff_of_true (fun pre s hpre hrun => ?_) trivial
    obtain rfl := List.prefix_nil.mp hpre
    exact hnil s hrun
  | cons event events =>
    -- a run through the first one begins with what is done with it
    have hcons : ∀ {s'}, handleEvent clock sys prepDir (root.start blanks) event = (false, s') →
        root.Owned clock prepDir blanks (event :: events) := by
      intro s' hfalse pre s hpre hrun
      cases pre with
      | nil => exact hnil s hrun
      | cons e pre =>
        obtain ⟨rfl, -⟩ := List.cons_prefix_cons.mp hpre
        rw [runEvents, hfalse] at hrun
        simp at hrun
    have hone : ∀ {s'}, handleEvent clock sys prepDir (root.start blanks) event = (true, s') →
        root.Owned clock prepDir blanks (event :: events) →
        OwnsDirect (directElts clock sys (root.start blanks) [event]) s' := by
      intro s' htrue howned
      refine howned [event] s' (List.prefix_append [event] events) ?_
      rw [runEvents, htrue]
      rfl
    cases event with
    | file line =>
      rcases handleFile_cases clock line hstack with
        ⟨e, s', htrue, helts', hparent, entry, hparse, hkept⟩ | ⟨s', hfalse, hrefused⟩
      · rw [hblanks] at hparse
        refine iff_of_false (fun howned => ?_) fun hfirst => hkept (hfirst entry hparse)
        have hdirect := hone htrue howned
        rw [directElts, htrue] at hdirect
        have hlen : s'.elts.length = 2 := by rw [helts', List.length_append, helts]; rfl
        have hlast : s'.elts[1]? = some e := by
          rw [helts', List.getElem?_append_right (by rw [helts]), helts]
          rfl
        have hzero := (hdirect.parent 1 e (by simp) hlast).mpr (by simp [directElts, hlen])
        rw [hparent] at hzero
        simp at hzero
      · refine iff_of_true (hcons hfalse) ?_
        rw [hblanks] at hrefused
        exact hrefused
    | dirStart line =>
      rcases handleDirStart_start blanks root prepDir line with
        ⟨hsplit, s', top, htrue, htop, haddr⟩ | ⟨hsplit, s', hfalse⟩
      · refine iff_of_false (fun howned => ?_) fun hfirst => hfirst hsplit
        exact (hone htrue howned).notAgain top (by rw [htop]; rfl) haddr
      · exact iff_of_true (hcons hfalse) hsplit

end

/-- The header `pub/x:`. -/
def twoComponents : RootHeader .unix where
  text := bytes "pub/x:"
  path := [bytes "pub", bytes "x"]
  isHeader := by decide +kernel
  split := by decide +kernel
  several := by decide

/-- A clock that stands still. -/
def zeroClock : Clock := ⟨fun _ _ _ => some 0, fun _ _ _ _ _ => some 0⟩

/-- A listing of one file. -/
def oneFile : List ListingEvent := [.file (bytes "-rw-r--r--  1 ftp 5 Jan  1 1990 README")]

/-- A file that is listed under the header is in the directory above. -/
theorem not_rootOwned : ¬∀ clock sys prepDir blanks (root : RootHeader sys) state lines,
    root.Owned clock prepDir blanks (listingEvents sys state lines) := by
  intro h
  have hevents : listingEvents .unix ⟨[], .dirStart, 0⟩
      [bytes "-rw-r--r--  1 ftp 5 Jan  1 1990 README"] = oneFile := by decide +kernel
  have hrun : (runEvents zeroClock .unix none (twoComponents.start (-1)) oneFile).1 = true := by
    decide +kernel
  have hdirect : directElts zeroClock .unix (twoComponents.start (-1)) oneFile = 2 := by
    decide +kernel
  have hchild : (runEvents zeroClock .unix none (twoComponents.start (-1)) oneFile).2.elts[0]?.map
      ParsEnt.childIdx = some 0 := by decide +kernel
  have howned := h zeroClock .unix none (-1) twoComponents ⟨[], .dirStart, 0⟩
    [bytes "-rw-r--r--  1 ftp 5 Jan  1 1990 README"]
  rw [hevents] at howned
  have howns := howned oneFile (runEvents zeroClock .unix none (twoComponents.start (-1)) oneFile).2
    (List.prefix_refl oneFile) (Prod.fst_eq_iff.mp hrun)
  rw [hdirect] at howns
  obtain ⟨e, he, hone⟩ := howns.child (by decide)
  rw [he, Option.map_some, hone] at hchild
  exact absurd hchild (by decide)

end Archie
