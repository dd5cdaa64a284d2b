/-
Robot exclusion: `robots.txt` as the retriever reads it (`webindex/retrieve/robot.c`), and
the paths that it does not fetch (`urlRestricted` of `webindex/retrieve/url.c`).

* `strSep`, `robotLine`, `parseRobotFile`, `urlRestricted` — the four functions.
* `RobotField`, `RobotRecord`, `RobotLine`, `RobotFile` — a file as it is written.
* `foldlM_records` — what the parser has after the records of a file.
* `parseRobotFile_text` — what it returns.
* `robotExclusion_iff` — when that excludes what the file says.
-/
import Archie.CText
import Mathlib.Data.FinEnum
import Mathlib.Data.List.Infix

namespace Archie

/-! ### Fields of a line -/

/-- The loop of `str_sep`, from a position on, where `w` is what there is of a field. -/
def strSepLoop (l : List UInt8) : List UInt8 → List UInt8 → List (List UInt8)
  | w, [] => if w = [] then [] else [w]
  | w, c :: s =>
    if c ∈ l then if w = [] then strSepLoop l [] s else w :: strSepLoop l [] s
    else strSepLoop l (w ++ [c]) s

/-- `str_sep`: no field is NULL.  The array grows by 256 at a separator, so that there is no
place for its end after 256 fields without one: none, then. -/
def strSep (s l : List UInt8) : Option (List (List UInt8)) :=
  let av := strSepLoop l [] s
  if av ≠ [] ∧ av.length % 256 = 0 ∧ ∀ c ∈ s.getLast?, c ∉ l then none else some av

theorem strSepLoop_append {l v : List UInt8} (hv : ∀ c ∈ v, c ∉ l) (w s : List UInt8) :
    strSepLoop l w (v ++ s) = strSepLoop l (w ++ v) s := by
  induction v generalizing w with
  | nil => rw [List.nil_append, List.append_nil]
  | cons c v ih =>
    rw [List.cons_append, strSepLoop, if_neg (hv c List.mem_cons_self),
      ih (fun d hd => hv d (List.mem_cons_of_mem c hd)), List.append_assoc, List.singleton_append]

/-- A field ends at a separator. -/
theorem strSepLoop_field {l v : List UInt8} (hv : ∀ c ∈ v, c ∉ l) (hne : v ≠ []) {c : UInt8}
    (hc : c ∈ l)
    (s : List UInt8) : strSepLoop l [] (v ++ c :: s) = v :: strSepLoop l [] s := by
  rw [strSepLoop_append hv, List.nil_append, strSepLoop, if_pos hc, if_neg hne]

theorem strSepLoop_sep {l : List UInt8} {c : UInt8} (hc : c ∈ l) (s : List UInt8) :
    strSepLoop l [] (c :: s) = strSepLoop l [] s := by
  rw [strSepLoop, if_pos hc, if_pos rfl]

/-- Separators before the first field do nothing. -/
theorem strSepLoop_seps {l v : List UInt8} (hv : ∀ c ∈ v, c ∈ l) (s : List UInt8) :
    strSepLoop l [] (v ++ s) = strSepLoop l [] s := by
  induction v with
  | nil => rfl
  | cons c v ih =>
    rw [List.cons_append, strSepLoop_sep (hv c List.mem_cons_self),
      ih fun d hd => hv d (List.mem_cons_of_mem c hd)]

/-- What a field consists of. -/
theorem mem_strSepLoop {l w s v : List UInt8} (hv : v ∈ strSepLoop l w s) :
    v ≠ [] ∧ ∀ c ∈ v, c ∈ w ∨ c ∈ s := by
  induction s generalizing w with
  | nil =>
    rw [strSepLoop] at hv
    split at hv
    next => exact absurd hv List.not_mem_nil
    next hw =>
      obtain rfl := List.mem_singleton.mp hv
      exact ⟨hw, fun c hc => Or.inl hc⟩
  | cons a s ih =>
    have hrest (hmem : v ∈ strSepLoop l [] s) : v ≠ [] ∧ ∀ c ∈ v, c ∈ w ∨ c ∈ a :: s := by
      obtain ⟨hne, hall⟩ := ih hmem
      refine ⟨hne, fun c hc => Or.inr (List.mem_cons_of_mem a ?_)⟩
      exact (hall c hc).resolve_left List.not_mem_nil
    rw [strSepLoop] at hv
    split at hv
    next =>
      split at hv
      next => exact hrest hv
      next hw =>
        rcases List.mem_cons.mp hv with rfl | hmem
        · exact ⟨hw, fun c hc => Or.inl hc⟩
        · exact hrest hmem
    next =>
      obtain ⟨hne, hall⟩ := ih hv
      refine ⟨hne, fun c hc => ?_⟩
      rcases hall c hc with hw | hs
      · rcases List.mem_append.mp hw with hw | ha
        · exact Or.inl hw
        · exact Or.inr (List.mem_singleton.mp ha ▸ List.mem_cons_self)
      · exact Or.inr (List.mem_cons_of_mem a hs)

/-- The first field goes on from what there is of it. -/
theorem head?_strSepLoop {l w : List UInt8} (hw : w ≠ []) (s : List UInt8) :
    ∃ t, (strSepLoop l w s).head? = some (w ++ t) := by
  induction s generalizing w with
  | nil => exact ⟨[], by rw [strSepLoop, if_neg hw, List.head?_cons, List.append_nil]⟩
  | cons a s ih =>
    rw [strSepLoop]
    split
    next => exact ⟨[], by rw [List.head?_cons, List.append_nil]⟩
    next =>
      obtain ⟨t, ht⟩ := ih (w := w ++ [a]) (by simp)
      exact ⟨a :: t, by rw [ht, List.append_assoc, List.singleton_append]⟩

/-- The first field begins with the first character that is no separator. -/
theorem strSepLoop_head {l s w : List UInt8} (h : (strSepLoop l [] s).head? = some w) :
    ∃ c t, w = c :: t ∧ c ∉ l ∧ s.find? (· ∉ l) = some c := by
  induction s with
  | nil => exact absurd h (by simp [strSepLoop])
  | cons a s ih =>
    by_cases ha : a ∈ l
    · rw [strSepLoop_sep ha] at h
      obtain ⟨c, t, hw, hc, hfind⟩ := ih h
      exact ⟨c, t, hw, hc, by rw [List.find?_cons_of_neg (by simpa using ha), hfind]⟩
    · rw [strSepLoop, if_neg ha, List.nil_append] at h
      obtain ⟨t, ht⟩ := head?_strSepLoop (l := l) (w := [a]) (by simp) s
      obtain rfl := Option.some.inj (h.symm.trans ht)
      exact ⟨a, t, rfl, ha, List.find?_cons_of_pos (by simpa using ha)⟩

/-- A line that ends with a separator finds its place. -/
theorem strSep_concat {l : List UInt8} {c : UInt8} (hc : c ∈ l) (s : List UInt8) :
    strSep (s ++ [c]) l = some (strSepLoop l [] (s ++ [c])) := by
  rw [strSep, if_neg]
  rintro ⟨-, -, hlast⟩
  exact hlast c (by simp) hc

/-! ### The parser -/

/-- The separators of `parse_robot_file`. -/
def robotSeps : List UInt8 := bytes ": \n"

/-- What `parse_robot_file` keeps from one line to the next.  `any` and `specified` are the bits
of `which_agent`. -/
structure RobotState where
  counter : ℕ
  rlist : List (List UInt8)
  rflag : Bool
  olist : List (List UInt8)
  oflag : Bool
  endRecord : Bool
  any : Bool
  specified : Bool
  deriving DecidableEq, Repr

def emptyRobot : RobotState := ⟨0, [], false, [], false, true, false, false⟩

/-- The beginning of a record. -/
def RobotState.begin (st : RobotState) : RobotState :=
  if st.endRecord then { st with endRecord := false, any := false, specified := false } else st

/-- A line of the file; none, where `av[1]` is read and there is none. -/
def robotLine (agent : Option (List UInt8)) (st : RobotState) (buff : List UInt8) :
    Option RobotState :=
  match strSep buff robotSeps with
  | none => none
  | some [] => some st
  | some (field :: av) =>
    let st := { st with counter := st.counter + 1 }
    if strcasecmpEq field (bytes "User-agent") then
      let st := st.begin
      match av.head? with
      | none => none
      | some value =>
        if agent.any (strcasecmpEq value) then some { st with specified := true }
        else if value.head? = some 42 then some { st with any := true }
        else some st
    else if (st.any || st.specified) && strcasecmpEq field (bytes "Disallow") then
      some { st with
        endRecord := true
        olist := if st.any then st.olist ++ av.head?.toList else st.olist
        oflag := st.oflag || st.any
        rlist := if st.specified then st.rlist ++ av.head?.toList else st.rlist
        rflag := st.rflag || st.specified }
    else some st

/-- `parse_robot_file`: the outer none is a crash, the inner one is NULL. -/
def parseRobotFile (agent : Option (List UInt8)) (text : List UInt8) :
    Option (Option (List (List UInt8))) :=
  ((fgetsLines 1024 text).foldlM (robotLine agent) emptyRobot).map fun st =>
    if st.counter = 0 then some []
    else if st.rflag then some st.rlist
    else if st.oflag then some st.olist
    else none

/-- `urlRestricted`. -/
def urlRestricted (localUrl : List UInt8) (rurls : Option (List (List UInt8))) (path : List UInt8) :
    Bool :=
  localUrl.take 9 == bytes "/cgi-bin/" || localUrl.take path.length != path ||
    (rurls.getD []).any fun rurl => strncasecmpEq localUrl rurl rurl.length

/-! ### A file -/

/-- A line with a field and a value, with the blanks around the value. -/
structure RobotField where
  field : List UInt8
  before : List UInt8
  value : List UInt8
  after : List UInt8
  crlf : Bool
  deriving DecidableEq, Repr

/-- The end of a line. -/
def robotEol (crlf : Bool) : List UInt8 := if crlf then [13, 10] else [10]

def IsBlank (c : UInt8) : Prop := c = 32 ∨ c = 9

instance (c : UInt8) : Decidable (IsBlank c) := inferInstanceAs (Decidable (_ ∨ _))

/-- What comes after the colon. -/
def RobotField.tail (f : RobotField) : List UInt8 :=
  f.before ++ f.value ++ f.after ++ robotEol f.crlf

def RobotField.text (f : RobotField) : List UInt8 := f.field ++ 58 :: f.tail

/-- A line with the field `name`, written in any case, that is shorter than the buffer. -/
structure RobotField.WellFormed (name : List UInt8) (f : RobotField) : Prop where
  field : strcasecmpEq f.field name = true
  before : ∀ c ∈ f.before, IsBlank c
  value : ∀ c ∈ f.value, c ≠ 0 ∧ c ≠ 10 ∧ c ≠ 13
  head : ∀ c ∈ f.value.head?, ¬ IsBlank c
  last : ∀ c ∈ f.value.getLast?, ¬ IsBlank c
  after : ∀ c ∈ f.after, IsBlank c
  length : f.text.length < 1024

instance (name : List UInt8) (f : RobotField) : Decidable (f.WellFormed name) :=
  decidable_of_iff
    (strcasecmpEq f.field name = true ∧ (∀ c ∈ f.before, IsBlank c) ∧
      (∀ c ∈ f.value, c ≠ 0 ∧ c ≠ 10 ∧ c ≠ 13) ∧
      (∀ c ∈ f.value.head?, ¬ IsBlank c) ∧ (∀ c ∈ f.value.getLast?, ¬ IsBlank c) ∧
        (∀ c ∈ f.after, IsBlank c) ∧
      f.text.length < 1024)
    ⟨fun ⟨h₁, h₂, h₃, h₄, h₅, h₆, h₇⟩ => ⟨h₁, h₂, h₃, h₄, h₅, h₆, h₇⟩,
      fun ⟨h₁, h₂, h₃, h₄, h₅, h₆, h₇⟩ => ⟨h₁, h₂, h₃, h₄, h₅, h₆, h₇⟩⟩

/-- A record: the lines that name agents, and what these may not visit. -/
structure RobotRecord where
  agents : List RobotField
  disallows : List RobotField
  deriving DecidableEq, Repr

def RobotRecord.lines (r : RobotRecord) : List RobotField := r.agents ++ r.disallows

structure RobotRecord.WellFormed (r : RobotRecord) : Prop where
  agents : ∀ f ∈ r.agents, f.WellFormed (bytes "User-agent")
  agents_ne : r.agents ≠ []
  disallows : ∀ f ∈ r.disallows, f.WellFormed (bytes "Disallow")
  disallows_ne : r.disallows ≠ []

instance (r : RobotRecord) : Decidable r.WellFormed :=
  decidable_of_iff
    ((∀ f ∈ r.agents, f.WellFormed (bytes "User-agent")) ∧ r.agents ≠ [] ∧
      (∀ f ∈ r.disallows, f.WellFormed (bytes "Disallow")) ∧ r.disallows ≠ [])
    ⟨fun ⟨h₁, h₂, h₃, h₄⟩ => ⟨h₁, h₂, h₃, h₄⟩, fun ⟨h₁, h₂, h₃, h₄⟩ => ⟨h₁, h₂, h₃, h₄⟩⟩

/-- A line: blanks or a comment, or one with a field. -/
inductive RobotLine
  | other (line : List UInt8) (crlf : Bool)
  | field (f : RobotField)
  deriving DecidableEq, Repr

def RobotLine.text : RobotLine → List UInt8
  | .other line crlf => line ++ robotEol crlf
  | .field f => f.text

def RobotLine.field? : RobotLine → Option RobotField
  | .other _ _ => none
  | .field f => some f

/-- A line of blanks, or one that begins with `#`. -/
def RobotLine.IsOther : RobotLine → Prop
  | .other line crlf =>
    ((∀ c ∈ line, IsBlank c) ∨ line.head? = some 35) ∧ (∀ c ∈ line, c ≠ 0 ∧ c ≠ 10) ∧
      (line ++ robotEol crlf).length < 1024
  | .field _ => True

instance : DecidablePred RobotLine.IsOther
  | .other line crlf => inferInstanceAs (Decidable
      (((∀ c ∈ line, IsBlank c) ∨ line.head? = some 35) ∧ (∀ c ∈ line, c ≠ 0 ∧ c ≠ 10) ∧
        (line ++ robotEol crlf).length < 1024))
  | .field _ => isTrue trivial

structure RobotFile where
  lines : List RobotLine
  records : List RobotRecord
  deriving DecidableEq, Repr

def RobotFile.text (file : RobotFile) : List UInt8 := file.lines.flatMap RobotLine.text

/-- The lines with a field are those of the records. -/
structure RobotFile.WellFormed (file : RobotFile) : Prop where
  lines : file.lines.filterMap RobotLine.field? = file.records.flatMap RobotRecord.lines
  others : ∀ l ∈ file.lines, l.IsOther
  records : ∀ r ∈ file.records, r.WellFormed

instance (file : RobotFile) : Decidable file.WellFormed :=
  decidable_of_iff
    (file.lines.filterMap RobotLine.field? = file.records.flatMap RobotRecord.lines ∧
      (∀ l ∈ file.lines, l.IsOther) ∧ ∀ r ∈ file.records, r.WellFormed)
    ⟨fun ⟨h₁, h₂, h₃⟩ => ⟨h₁, h₂, h₃⟩, fun ⟨h₁, h₂, h₃⟩ => ⟨h₁, h₂, h₃⟩⟩

/-! ### What a file says -/

/-- A record that names the agent. -/
def RobotRecord.names (agent : List UInt8) (r : RobotRecord) : Bool :=
  r.agents.any fun f => strcasecmpEq f.value agent

/-- A record that names `*`. -/
def RobotRecord.namesAny (r : RobotRecord) : Bool := r.agents.any fun f => f.value == [42]

/-- The records that an agent follows. -/
def RobotFile.applicable (file : RobotFile) (agent : List UInt8) : List RobotRecord :=
  if file.records.any (RobotRecord.names agent) then file.records.filter (RobotRecord.names agent)
  else file.records.filter RobotRecord.namesAny

/-- The values that it may not visit. -/
def RobotFile.disallowed (file : RobotFile) (agent : List UInt8) : List (List UInt8) :=
  (file.applicable agent).flatMap fun r => (r.disallows.map RobotField.value).filter (· ≠ [])

/-- A prefix up to case. -/
def CasePrefix (v path : List UInt8) : Prop := v.map asciiLower <+: path.map asciiLower

instance (v path : List UInt8) : Decidable (CasePrefix v path) :=
  inferInstanceAs (Decidable (_ <+: _))

/-- The paths that an agent is to leave out. -/
def RobotFile.Restricted (file : RobotFile) (agent start path : List UInt8) : Prop :=
  bytes "/cgi-bin/" <+: path ∨ ¬ start <+: path ∨ ∃ v ∈ file.disallowed agent, CasePrefix v path

/-- What is claimed: the file gives a list, and with it exactly these paths are left out. -/
def RobotExclusion (file : RobotFile) (agent : List UInt8) : Prop :=
  ∃ rurls, parseRobotFile (some agent) file.text = some (some rurls) ∧
    ∀ start path, 0 ∉ start → 0 ∉ path →
      (urlRestricted path (some rurls) start = true ↔ file.Restricted agent start path)

/-! ### Lines as the parser sees them -/

/-- The value of a line, as `str_sep` cuts it. -/
def RobotField.cut (f : RobotField) : Option (List UInt8) := (strSepLoop robotSeps [] f.tail).head?

theorem mem_robotSeps {c : UInt8} : c ∈ robotSeps ↔ c = 58 ∨ c = 32 ∨ c = 10 := by
  simp [robotSeps, bytes]

theorem not_mem_robotSeps_of_strcasecmpEq {field name : List UInt8}
    (h : strcasecmpEq field name = true)
    (hname : ∀ c ∈ robotSeps, c ∉ name.map asciiLower) : ∀ c ∈ field, c ∉ robotSeps := by
  intro c hc hsep
  have hlower : asciiLower c = c := by
    rcases mem_robotSeps.mp hsep with rfl | rfl | rfl <;> rfl
  refine hname c hsep ?_
  rw [← strcasecmpEq_iff.mp h, ← hlower]
  exact List.mem_map_of_mem hc

/-- The fields of a line that is written with a field and a value. -/
theorem strSep_text {f : RobotField} {name : List UInt8} (hf : strcasecmpEq f.field name = true)
    (hne : name ≠ []) (hname : ∀ c ∈ robotSeps, c ∉ name.map asciiLower) :
    strSep f.text robotSeps = some (f.field :: strSepLoop robotSeps [] f.tail) := by
  have hfield : f.field ≠ [] := by
    intro hnil
    rw [strcasecmpEq_iff, hnil, List.map_nil, eq_comm, List.map_eq_nil_iff] at hf
    exact hne hf
  have hend : ∃ s, f.text = s ++ [10] := by
    cases hcrlf : f.crlf with
    | false => exact ⟨f.field ++ 58 :: (f.before ++ f.value ++ f.after), by
        simp [RobotField.text, RobotField.tail, robotEol, hcrlf]⟩
    | true => exact ⟨f.field ++ 58 :: (f.before ++ f.value ++ f.after ++ [13]), by
        simp [RobotField.text, RobotField.tail, robotEol, hcrlf]⟩
  obtain ⟨s, hs⟩ := hend
  have hsep := strSep_concat (mem_robotSeps.mpr (Or.inr (Or.inr rfl))) s
  rw [← hs] at hsep
  rw [hsep, RobotField.text,
    strSepLoop_field (not_mem_robotSeps_of_strcasecmpEq hf hname) hfield
      (mem_robotSeps.mpr (Or.inl rfl))]

theorem head?_strSepLoop_tail (f : RobotField) : (strSepLoop robotSeps [] f.tail).head? = f.cut :=
  rfl

/-- The state counts more lines. -/
def RobotState.count (n : ℕ) (st : RobotState) : RobotState := { st with counter := st.counter + n }

/-- A line that names an agent, after `begin`. -/
def RobotState.addAgent (agent v : List UInt8) (st : RobotState) : RobotState :=
  { st with
    counter := st.counter + 1
    specified := st.specified || strcasecmpEq v agent
    any := st.any || (!strcasecmpEq v agent && v.head? == some 42) }

theorem robotLine_agent {f : RobotField} (hf : strcasecmpEq f.field (bytes "User-agent") = true)
    (agent : List UInt8) (st : RobotState) :
    robotLine (some agent) st f.text = f.cut.map fun v => st.begin.addAgent agent v := by
  have hbegin : RobotState.begin { st with counter := st.counter + 1 } =
      { st.begin with counter := st.begin.counter + 1 } := by
    simp only [RobotState.begin]
    split <;> rfl
  rw [robotLine, strSep_text hf (by decide +kernel) (by decide +kernel)]
  dsimp only
  rw [if_pos hf, head?_strSepLoop_tail]
  cases f.cut with
  | none => rfl
  | some v =>
    rw [hbegin]
    dsimp only
    rw [Option.any_some, Option.map_some]
    by_cases hv : strcasecmpEq v agent = true
    · rw [if_pos hv]
      simp [RobotState.addAgent, hv]
    · rw [if_neg hv]
      by_cases hstar : v.head? = some 42
      · rw [if_pos hstar]
        simp [RobotState.addAgent, hv, hstar]
      · rw [if_neg hstar]
        simp [RobotState.addAgent, hv, hstar]

/-- Lines with `n` values of which `cuts` are seen. -/
def RobotState.addDisallows (n : ℕ) (cuts : List (List UInt8)) (st : RobotState) : RobotState :=
  { st with
    counter := st.counter + n
    endRecord := st.endRecord || (st.any || st.specified)
    olist := if st.any then st.olist ++ cuts else st.olist
    oflag := st.oflag || st.any
    rlist := if st.specified then st.rlist ++ cuts else st.rlist
    rflag := st.rflag || st.specified }

theorem robotLine_disallow {f : RobotField} (hf : strcasecmpEq f.field (bytes "Disallow") = true)
    (agent : Option (List UInt8)) (st : RobotState) :
    robotLine agent st f.text = some (st.addDisallows 1 f.cut.toList) := by
  have hnot : ¬ strcasecmpEq f.field (bytes "User-agent") = true := by
    intro h
    rw [strcasecmpEq_iff] at h hf
    exact absurd (h.symm.trans hf) (by decide)
  rw [robotLine, strSep_text hf (by decide +kernel) (by decide +kernel)]
  dsimp only
  rw [if_neg hnot, hf, Bool.and_true, head?_strSepLoop_tail]
  -- Without an agent that is followed, only the line is counted.
  by_cases hwhich : (st.any || st.specified) = true
  · rw [if_pos hwhich]
    simp [RobotState.addDisallows, hwhich]
  · rw [if_neg hwhich]
    rw [Bool.or_eq_true, not_or, Bool.not_eq_true, Bool.not_eq_true] at hwhich
    simp [RobotState.addDisallows, hwhich.1, hwhich.2]

/-- The words of another line, which are not looked at. -/
def RobotLine.words : RobotLine → ℕ
  | .other line crlf => (strSepLoop robotSeps [] (line ++ robotEol crlf)).length
  | .field _ => 0

theorem not_strcasecmpEq_of_head {c : UInt8} {w name : List UInt8}
    (h : asciiLower c ∉ (name.map asciiLower).head?) :
    ¬ strcasecmpEq (c :: w) name = true := by
  intro heq
  rw [strcasecmpEq_iff, List.map_cons] at heq
  exact h (by rw [← heq, List.head?_cons]; rfl)

/-- A blank line or a comment is counted, if there is something in it. -/
theorem robotLine_other {line : List UInt8} {crlf : Bool} (h : (RobotLine.other line crlf).IsOther)
    (agent : Option (List UInt8)) (st : RobotState) :
    robotLine agent st (RobotLine.other line crlf).text =
      some (st.count (if (RobotLine.other line crlf).words = 0 then 0 else 1)) := by
  have hend : ∃ s, line ++ robotEol crlf = s ++ [10] := by
    cases crlf with
    | false => exact ⟨line, rfl⟩
    | true => exact ⟨line ++ [13], by simp [robotEol]⟩
  obtain ⟨s, hs⟩ := hend
  have hsep : strSep (line ++ robotEol crlf) robotSeps =
      some (strSepLoop robotSeps [] (line ++ robotEol crlf)) := by
    rw [hs]
    exact strSep_concat (mem_robotSeps.mpr (Or.inr (Or.inr rfl))) s
  rw [robotLine, RobotLine.text, hsep, RobotLine.words]
  cases hwords : strSepLoop robotSeps [] (line ++ robotEol crlf) with
  | nil => rfl
  | cons w ws =>
    obtain ⟨c, t, rfl, -, hfind⟩ := strSepLoop_head (congrArg List.head? hwords)
    -- The first word begins with `#`, a tab, or the CR at the end of the line.
    have hc : c = 35 ∨ c = 9 ∨ c = 13 := by
      rcases h.1 with hblank | hcomment
      · rcases List.mem_append.mp (List.mem_of_find?_eq_some hfind) with hmem | hmem
        · rcases hblank c hmem with rfl | rfl
          · exact absurd (List.find?_some hfind) (by decide)
          · exact Or.inr (Or.inl rfl)
        · cases crlf with
          | false =>
            obtain rfl := List.mem_singleton.mp hmem
            exact absurd (List.find?_some hfind) (by decide)
          | true =>
            rcases List.mem_cons.mp hmem with rfl | hmem
            · exact Or.inr (Or.inr rfl)
            · obtain rfl := List.mem_singleton.mp hmem
              exact absurd (List.find?_some hfind) (by decide)
      · obtain ⟨rest, rfl⟩ := List.head?_eq_some_iff.mp hcomment
        rw [List.cons_append, List.find?_cons_of_pos (by decide)] at hfind
        exact Or.inl (Option.some.inj hfind).symm
    have hagent : ¬ strcasecmpEq (c :: t) (bytes "User-agent") = true := by
      refine not_strcasecmpEq_of_head ?_
      rcases hc with rfl | rfl | rfl <;> decide
    have hdisallow : ¬ strcasecmpEq (c :: t) (bytes "Disallow") = true := by
      refine not_strcasecmpEq_of_head ?_
      rcases hc with rfl | rfl | rfl <;> decide
    dsimp only
    rw [if_neg hagent, Bool.eq_false_iff.mpr hdisallow, Bool.and_false, if_neg Bool.false_ne_true]
    rfl

/-! ### Runs of lines -/

theorem RobotState.count_count (m n : ℕ) (st : RobotState) :
    (st.count m).count n = st.count (m + n) := by
  simp [RobotState.count, Nat.add_assoc]

theorem RobotState.begin_count (n : ℕ) (st : RobotState) :
    (st.count n).begin = st.begin.count n := by
  cases h : st.endRecord <;> simp [RobotState.begin, RobotState.count, h]

theorem RobotState.addAgent_count (agent v : List UInt8) (n : ℕ) (st : RobotState) :
    (st.count n).addAgent agent v = (st.addAgent agent v).count n := by
  simp [RobotState.addAgent, RobotState.count, Nat.add_right_comm]

theorem RobotState.addDisallows_count (m : ℕ) (cuts : List (List UInt8)) (n : ℕ) (st : RobotState) :
    (st.count n).addDisallows m cuts = (st.addDisallows m cuts).count n := by
  unfold RobotState.addDisallows RobotState.count
  congr 1
  exact Nat.add_right_comm st.counter n m

/-- A line with one of the two fields. -/
def RobotField.IsLine (f : RobotField) : Prop :=
  strcasecmpEq f.field (bytes "User-agent") = true ∨ strcasecmpEq f.field (bytes "Disallow") = true

/-- The count is not looked at in between. -/
theorem robotLine_count {f : RobotField} (hf : f.IsLine) (agent : List UInt8) (n : ℕ)
    (st : RobotState) :
    robotLine (some agent) (st.count n) f.text =
      (robotLine (some agent) st f.text).map (RobotState.count n) := by
  rcases hf with hf | hf
  · rw [robotLine_agent hf, robotLine_agent hf, Option.map_map]
    congr 1
    funext v
    rw [Function.comp_apply, RobotState.begin_count, RobotState.addAgent_count]
  · rw [robotLine_disallow hf, robotLine_disallow hf, Option.map_some,
      RobotState.addDisallows_count]

theorem foldlM_count {fs : List RobotField} (hfs : ∀ f ∈ fs, f.IsLine) (agent : List UInt8) (n : ℕ)
    (st : RobotState) :
    (fs.map RobotField.text).foldlM (robotLine (some agent)) (st.count n) =
      ((fs.map RobotField.text).foldlM (robotLine (some agent)) st).map (RobotState.count n) := by
  induction fs generalizing st with
  | nil => rfl
  | cons f fs ih =>
    rw [List.map_cons, List.foldlM_cons, List.foldlM_cons,
      robotLine_count (hfs f List.mem_cons_self)]
    cases hline : robotLine (some agent) st f.text with
    | none => rfl
    | some st₁ => exact ih (fun g hg => hfs g (List.mem_cons_of_mem f hg)) st₁

/-- How many other lines there is something in. -/
def wordyLines (lines : List RobotLine) : ℕ := lines.countP fun l => l.words ≠ 0

/-- Only the count shows the other lines. -/
theorem foldlM_lines {lines : List RobotLine} (hothers : ∀ l ∈ lines, l.IsOther)
    (hfs : ∀ f ∈ lines.filterMap RobotLine.field?, f.IsLine) (agent : List UInt8)
    (st : RobotState) :
    (lines.map RobotLine.text).foldlM (robotLine (some agent)) st =
      (((lines.filterMap RobotLine.field?).map RobotField.text).foldlM
        (robotLine (some agent)) st).map
        (RobotState.count (wordyLines lines)) := by
  induction lines generalizing st with
  | nil => rfl
  | cons l lines ih =>
    have hothers' : ∀ k ∈ lines, k.IsOther := fun k hk => hothers k (List.mem_cons_of_mem l hk)
    rw [List.map_cons, List.foldlM_cons]
    cases l with
    | other line crlf =>
      have hk : wordyLines (RobotLine.other line crlf :: lines) =
          (if (RobotLine.other line crlf).words = 0 then 0 else 1) + wordyLines lines := by
        rw [wordyLines, List.countP_cons, Nat.add_comm, wordyLines]
        congr 1
        by_cases h0 : (RobotLine.other line crlf).words = 0 <;> simp [h0]
      rw [List.filterMap_cons_none rfl] at hfs ⊢
      rw [robotLine_other (hothers _ List.mem_cons_self), Option.bind_eq_bind, Option.bind_some,
        ih hothers' hfs, foldlM_count hfs, Option.map_map, hk]
      congr 1
      funext st'
      exact RobotState.count_count _ _ st'
    | field f =>
      have hk : wordyLines (RobotLine.field f :: lines) = wordyLines lines :=
        List.countP_cons_of_neg (by simp [RobotLine.words])
      have hfield : (RobotLine.field f :: lines).filterMap RobotLine.field? =
          f :: lines.filterMap RobotLine.field? := rfl
      rw [hfield] at hfs ⊢
      rw [List.map_cons, List.foldlM_cons, hk, RobotLine.text]
      cases robotLine (some agent) st f.text with
      | none => rfl
      | some st₁ => exact ih hothers' (fun g hg => hfs g (List.mem_cons_of_mem f hg)) st₁

/-! ### Records as the parser sees them -/

/-- A record that the parser takes for the agent. -/
def RobotRecord.takenFor (agent : List UInt8) (r : RobotRecord) : Bool :=
  r.agents.any fun f => f.cut.any fun v => strcasecmpEq v agent

/-- A record that it takes for any agent: a name that begins with `*` and is not the agent's. -/
def RobotRecord.takenForAny (agent : List UInt8) (r : RobotRecord) : Bool :=
  r.agents.any fun f => f.cut.any fun v => !strcasecmpEq v agent && v.head? == some 42

/-- The values that it finds. -/
def RobotRecord.cuts (r : RobotRecord) : List (List UInt8) := r.disallows.filterMap RobotField.cut

/-- Between two records: the next line with an agent begins one. -/
def RobotState.Between (st : RobotState) : Prop :=
  st.endRecord = true ∨ (st.any = false ∧ st.specified = false)

theorem RobotState.begin_begin (st : RobotState) : st.begin.begin = st.begin := by
  cases h : st.endRecord <;> simp [RobotState.begin, h]

theorem RobotState.endRecord_begin (st : RobotState) : st.begin.endRecord = false := by
  cases h : st.endRecord <;> simp [RobotState.begin, h]

theorem RobotState.Between.begin {st : RobotState} (h : st.Between) :
    st.begin = { st with endRecord := false, any := false, specified := false } := by
  cases hend : st.endRecord with
  | true => rw [RobotState.begin, if_pos hend]
  | false =>
    obtain ⟨hany, hspec⟩ := h.resolve_left (by rw [hend]; exact Bool.false_ne_true)
    rw [RobotState.begin, if_neg (by rw [hend]; exact Bool.false_ne_true)]
    obtain ⟨_, _, _, _, _, _, _, _⟩ := st
    simp only at hend hany hspec
    rw [hend, hany, hspec]

/-- The lines that name agents, one after the other within a record. -/
theorem foldlM_agents {fs : List RobotField} (hfs : ∀ f ∈ fs, strcasecmpEq f.field (bytes "User-agent") = true)
    (hcut : ∀ f ∈ fs, f.cut ≠ none) (agent : List UInt8) {st : RobotState}
    (hst : st.endRecord = false) :
    (fs.map RobotField.text).foldlM (robotLine (some agent)) st =
      some { st with
        counter := st.counter + fs.length
        any := st.any || RobotRecord.takenForAny agent ⟨fs, []⟩
        specified := st.specified || RobotRecord.takenFor agent ⟨fs, []⟩ } := by
  induction fs generalizing st with
  | nil => simp [RobotRecord.takenForAny, RobotRecord.takenFor]
  | cons f fs ih =>
    have hbegin : st.begin =
        st := by rw [RobotState.begin, if_neg (by rw [hst]; exact Bool.false_ne_true)]
    obtain ⟨v, hv⟩ := Option.ne_none_iff_exists'.mp (hcut f List.mem_cons_self)
    rw [List.map_cons, List.foldlM_cons, robotLine_agent (hfs f List.mem_cons_self), hv, hbegin,
      Option.map_some, Option.bind_eq_bind, Option.bind_some,
      ih (fun g hg => hfs g (List.mem_cons_of_mem f hg))
        (fun g hg => hcut g (List.mem_cons_of_mem f hg))
        (show (st.addAgent agent v).endRecord = false from hst)]
    simp [RobotState.addAgent, RobotRecord.takenForAny, RobotRecord.takenFor, hv, Bool.or_assoc,
      Nat.add_assoc, Nat.add_comm 1]

/-- A line that names no agent is a crash. -/
theorem foldlM_agents_none {fs : List RobotField}
    (hfs : ∀ f ∈ fs, strcasecmpEq f.field (bytes "User-agent") = true)
    (hcut : ∃ f ∈ fs, f.cut = none) (agent : List UInt8) (st : RobotState) :
    (fs.map RobotField.text).foldlM (robotLine (some agent)) st = none := by
  induction fs generalizing st with
  | nil => exact absurd hcut (by simp)
  | cons f fs ih =>
    rw [List.map_cons, List.foldlM_cons, robotLine_agent (hfs f List.mem_cons_self)]
    cases hv : f.cut with
    | none => rfl
    | some v =>
      obtain ⟨g, hg, hnone⟩ := hcut
      rcases List.mem_cons.mp hg with rfl | hg
      · exact absurd (hv.symm.trans hnone) (by simp)
      · exact ih (fun k hk => hfs k (List.mem_cons_of_mem f hk)) ⟨g, hg, hnone⟩ _

theorem RobotState.addDisallows_addDisallows (m n : ℕ) (cuts cuts' : List (List UInt8))
    (st : RobotState) :
    (st.addDisallows m cuts).addDisallows n cuts' = st.addDisallows (m + n) (cuts ++ cuts') := by
  cases hany : st.any <;> cases hspec : st.specified <;>
    simp [RobotState.addDisallows, hany, hspec, Nat.add_assoc]

/-- The lines with values. -/
theorem foldlM_disallows {fs : List RobotField} (hfs : ∀ f ∈ fs, strcasecmpEq f.field (bytes "Disallow") = true)
    (hne : fs ≠ []) (agent : Option (List UInt8)) (st : RobotState) :
    (fs.map RobotField.text).foldlM (robotLine agent) st =
      some (st.addDisallows fs.length (fs.filterMap RobotField.cut)) := by
  induction fs generalizing st with
  | nil => exact absurd rfl hne
  | cons f fs ih =>
    have hcuts : (f :: fs).filterMap RobotField.cut = f.cut.toList ++
        fs.filterMap RobotField.cut := by
      rw [List.filterMap_cons]
      cases f.cut <;> rfl
    rw [List.map_cons, List.foldlM_cons, robotLine_disallow (hfs f List.mem_cons_self), hcuts,
      Option.bind_eq_bind, Option.bind_some]
    rcases eq_or_ne fs [] with rfl | hfs'
    · rw [List.map_nil, List.foldlM_nil, List.filterMap_nil, List.append_nil]
      rfl
    · rw [ih (fun g hg => hfs g (List.mem_cons_of_mem f hg)) hfs',
        RobotState.addDisallows_addDisallows,
        List.length_cons, Nat.add_comm 1]

/-- A record of which every name is seen. -/
def RobotRecord.Named (r : RobotRecord) : Prop := ∀ f ∈ r.agents, f.cut ≠ none

instance (r : RobotRecord) : Decidable r.Named := inferInstanceAs (Decidable (∀ f ∈ r.agents, _))

/-- What the parser has after some records, apart from the count. -/
structure RobotState.After (agent : List UInt8) (records : List RobotRecord) (st : RobotState) :
    Prop where
  between : st.Between
  counter : st.counter = 0 ↔ records = []
  olist : st.olist = (records.filter (RobotRecord.takenForAny agent)).flatMap RobotRecord.cuts
  oflag : st.oflag = records.any (RobotRecord.takenForAny agent)
  rlist : st.rlist = (records.filter (RobotRecord.takenFor agent)).flatMap RobotRecord.cuts
  rflag : st.rflag = records.any (RobotRecord.takenFor agent)

/-- What a record does. -/
theorem foldlM_record {r : RobotRecord} (hr : r.WellFormed) (hnamed : r.Named) {agent : List UInt8}
    {records : List RobotRecord} {st : RobotState} (hst : st.After agent records) :
    ∃ st', (r.lines.map RobotField.text).foldlM (robotLine (some agent)) st = some st' ∧
      st'.After agent (records ++ [r]) := by
  have hagents : ∀ f ∈ r.agents, strcasecmpEq f.field (bytes "User-agent") = true := fun f hf => (hr.agents f hf).field
  have hbegin : (r.agents.map RobotField.text).foldlM (robotLine (some agent)) st =
      (r.agents.map RobotField.text).foldlM (robotLine (some agent)) st.begin := by
    obtain ⟨f, fs, hfs⟩ := List.exists_cons_of_ne_nil hr.agents_ne
    have hf := hagents f (hfs ▸ List.mem_cons_self)
    rw [hfs, List.map_cons, List.foldlM_cons, List.foldlM_cons, robotLine_agent hf,
      robotLine_agent hf,
      RobotState.begin_begin]
  have hrun := foldlM_agents hagents hnamed agent st.endRecord_begin
  rw [RobotRecord.lines, List.map_append, List.foldlM_append, hbegin, hrun, Option.bind_eq_bind,
    Option.bind_some,
    foldlM_disallows (fun f hf => (hr.disallows f hf).field) hr.disallows_ne]
  refine ⟨_, rfl, ?_⟩
  have hany : RobotRecord.takenForAny agent ⟨r.agents, []⟩ = r.takenForAny agent := rfl
  have hfor : RobotRecord.takenFor agent ⟨r.agents, []⟩ = r.takenFor agent := rfl
  have hlen : 0 < r.disallows.length := List.length_pos_of_ne_nil hr.disallows_ne
  rw [hany, hfor, hst.between.begin]
  constructor
  case between =>
    cases ha : r.takenForAny agent <;> cases hs : r.takenFor agent <;>
      simp [RobotState.Between, RobotState.addDisallows]
  case counter =>
    show _ + r.disallows.length = 0 ↔ records ++ [r] = []
    constructor
    · intro h0
      omega
    · intro hnil
      exact absurd (List.append_eq_nil_iff.mp hnil).2 (List.cons_ne_nil r [])
  case olist =>
    show (if (false || r.takenForAny agent) = true then st.olist ++ r.cuts else st.olist) = _
    rw [hst.olist, List.filter_append, List.flatMap_append]
    cases ha : r.takenForAny agent <;> simp [ha]
  case oflag =>
    show (st.oflag || (false || r.takenForAny agent)) = _
    rw [hst.oflag, List.any_append, Bool.false_or, List.any_cons, List.any_nil, Bool.or_false]
  case rlist =>
    show (if (false || r.takenFor agent) = true then st.rlist ++ r.cuts else st.rlist) = _
    rw [hst.rlist, List.filter_append, List.flatMap_append]
    cases ha : r.takenFor agent <;> simp [ha]
  case rflag =>
    show (st.rflag || (false || r.takenFor agent)) = _
    rw [hst.rflag, List.any_append, Bool.false_or, List.any_cons, List.any_nil, Bool.or_false]

/-- What all records do, one after the other. -/
theorem foldlM_records {records : List RobotRecord} (hrecords : ∀ r ∈ records, r.WellFormed)
    (hnamed : ∀ r ∈ records, r.Named) (agent : List UInt8) :
    ∃ st, ((records.flatMap RobotRecord.lines).map RobotField.text).foldlM
      (robotLine (some agent)) emptyRobot =
      some st ∧ st.After agent records := by
  induction records using List.reverseRecOn with
  | nil => exact ⟨emptyRobot, rfl, Or.inl rfl, ⟨fun _ => rfl, fun _ => rfl⟩, rfl, rfl, rfl, rfl⟩
  | append_singleton records r ih =>
    obtain ⟨st, hrun, hst⟩ := ih (fun q hq => hrecords q (List.mem_append_left _ hq))
      fun q hq => hnamed q (List.mem_append_left _ hq)
    have hr : r ∈ records ++ [r] := List.mem_append_right _ (List.mem_singleton_self r)
    obtain ⟨st', hrun', hst'⟩ := foldlM_record (hrecords r hr) (hnamed r hr) hst
    refine ⟨st', ?_, hst'⟩
    rw [List.flatMap_append, List.flatMap_singleton, List.map_append, List.foldlM_append, hrun]
    exact hrun'

/-- A record with a line that names no agent is a crash. -/
theorem foldlM_records_none {records : List RobotRecord} (hrecords : ∀ r ∈ records, r.WellFormed)
    (hnamed : ¬ ∀ r ∈ records, r.Named) (agent : List UInt8) (st : RobotState) :
    ((records.flatMap RobotRecord.lines).map RobotField.text).foldlM (robotLine (some agent)) st =
      none := by
  induction records generalizing st with
  | nil => exact absurd (fun r hr => absurd hr List.not_mem_nil) hnamed
  | cons r records ih =>
    have hagents : ∀ f ∈ r.agents, strcasecmpEq f.field (bytes "User-agent") = true :=
      fun f hf => ((hrecords r List.mem_cons_self).agents f hf).field
    rw [List.flatMap_cons, List.map_append, List.foldlM_append]
    by_cases hr : r.Named
    · have hrest : ¬ ∀ q ∈ records, q.Named := fun h => hnamed (List.forall_mem_cons.mpr ⟨hr, h⟩)
      cases (r.lines.map RobotField.text).foldlM (robotLine (some agent)) st with
      | none => rfl
      | some st₁ => exact ih (fun q hq => hrecords q (List.mem_cons_of_mem r hq)) hrest st₁
    · have hcut : ∃ f ∈ r.agents, f.cut = none := by simpa [RobotRecord.Named] using hr
      rw [RobotRecord.lines, List.map_append, List.foldlM_append, foldlM_agents_none hagents hcut]
      rfl

/-! ### What the parser returns -/

theorem newline_not_mem_tail {name : List UInt8} {f : RobotField} (hf : f.WellFormed name) :
    10 ∉ f.before ++ f.value ++ f.after := by
  intro h
  rcases List.mem_append.mp h with h | h
  · rcases List.mem_append.mp h with h | h
    · exact absurd (hf.before 10 h) (by decide)
    · exact (hf.value 10 h).2.1 rfl
  · exact absurd (hf.after 10 h) (by decide)

/-- A line without its newline. -/
theorem robotEol_eq (crlf : Bool) : ∃ s, 10 ∉ s ∧ robotEol crlf = s ++ [10] := by
  cases crlf with
  | false => exact ⟨[], by decide, rfl⟩
  | true => exact ⟨[13], by decide, rfl⟩

/-- `fgets` gives the lines of the file. -/
theorem fgetsLines_flatMap {lines : List RobotLine}
    (h : ∀ l ∈ lines, ∃ s, 10 ∉ s ∧ l.text = s ++ [10] ∧ l.text.length < 1024) :
    fgetsLines 1024 (lines.flatMap RobotLine.text) = lines.map RobotLine.text := by
  induction lines with
  | nil => rfl
  | cons l lines ih =>
    obtain ⟨s, hs, htext, hlen⟩ := h l List.mem_cons_self
    rw [List.flatMap_cons, List.map_cons, htext, List.append_assoc, List.singleton_append,
      fgetsLines_append hs (by simpa [htext] using hlen), ih fun k hk => h k (List.mem_cons_of_mem l hk)]

theorem RobotFile.WellFormed.field {file : RobotFile} (h : file.WellFormed) {f : RobotField}
    (hf : f ∈ file.lines.filterMap RobotLine.field?) :
    ∃ name ∈ [bytes "User-agent", bytes "Disallow"], f.WellFormed name := by
  rw [h.lines] at hf
  obtain ⟨r, hr, hmem⟩ := List.mem_flatMap.mp hf
  rcases List.mem_append.mp hmem with hmem | hmem
  · exact ⟨bytes "User-agent", by simp, (h.records r hr).agents f hmem⟩
  · exact ⟨bytes "Disallow", by simp, (h.records r hr).disallows f hmem⟩

theorem RobotField.WellFormed.isLine {f : RobotField} {name : List UInt8} (hf : f.WellFormed name)
    (hname : name ∈ [bytes "User-agent", bytes "Disallow"]) : f.IsLine := by
  rcases List.mem_cons.mp hname with rfl | hname
  · exact Or.inl hf.field
  · obtain rfl := List.mem_singleton.mp hname
    exact Or.inr hf.field

theorem fgetsLines_text {file : RobotFile} (h : file.WellFormed) :
    fgetsLines 1024 file.text = file.lines.map RobotLine.text := by
  refine fgetsLines_flatMap fun l hl => ?_
  cases l with
  | other line crlf =>
    obtain ⟨-, hline, hlen⟩ := h.others _ hl
    obtain ⟨s, hs, hend⟩ := robotEol_eq crlf
    refine ⟨line ++ s, ?_, by rw [RobotLine.text, hend, List.append_assoc], hlen⟩
    intro hmem
    rcases List.mem_append.mp hmem with hmem | hmem
    · exact (hline 10 hmem).2 rfl
    · exact hs hmem
  | field f =>
    obtain ⟨name, hname, hf⟩ := h.field (List.mem_filterMap.mpr ⟨_, hl, rfl⟩)
    obtain ⟨s, hs, hend⟩ := robotEol_eq f.crlf
    have hfield : 10 ∉ f.field := by
      intro hmem
      have hsep : (10 : UInt8) ∈ robotSeps := mem_robotSeps.mpr (Or.inr (Or.inr rfl))
      refine not_mem_robotSeps_of_strcasecmpEq hf.field ?_ 10 hmem hsep
      rcases List.mem_cons.mp hname with rfl | hname
      · decide +kernel
      · obtain rfl := List.mem_singleton.mp hname
        decide +kernel
    refine ⟨f.field ++ 58 :: (f.before ++ f.value ++ f.after ++ s), ?_, ?_, hf.length⟩
    · intro hmem
      rcases List.mem_append.mp hmem with hmem | hmem
      · exact hfield hmem
      · rcases List.mem_append.mp
          ((List.mem_cons.mp hmem).resolve_left (by decide)) with hmem | hmem
        · exact newline_not_mem_tail hf hmem
        · exact hs hmem
    · rw [RobotLine.text, RobotField.text, RobotField.tail, hend]
      simp only [List.append_assoc, List.cons_append]

/-- The records that the parser follows. -/
def RobotFile.taken (file : RobotFile) (agent : List UInt8) : List RobotRecord :=
  if file.records.any (RobotRecord.takenFor agent)
    then file.records.filter (RobotRecord.takenFor agent)
  else file.records.filter (RobotRecord.takenForAny agent)

/-- There is nothing in any line. -/
def RobotFile.IsBlank (file : RobotFile) : Prop := file.records = [] ∧ ∀ l ∈ file.lines, l.words = 0

instance (file : RobotFile) : Decidable file.IsBlank := inferInstanceAs (Decidable (_ ∧ _))

/-- Every line that is to name an agent names one. -/
def RobotFile.Named (file : RobotFile) : Prop := ∀ r ∈ file.records, r.Named

instance (file : RobotFile) : Decidable file.Named :=
  inferInstanceAs (Decidable (∀ r ∈ file.records, _))

theorem wordyLines_eq_zero_iff {lines : List RobotLine} : wordyLines lines = 0 ↔ ∀ l ∈ lines,
    l.words = 0 := by
  rw [wordyLines, List.countP_eq_zero]
  simp

/-- **The list of a file.** -/
theorem parseRobotFile_text {file : RobotFile} (h : file.WellFormed) (agent : List UInt8) :
    parseRobotFile (some agent) file.text =
      if file.Named then
        some (if file.IsBlank ∨ file.taken agent ≠ []
          then some ((file.taken agent).flatMap RobotRecord.cuts)
          else none)
      else none := by
  have hlines : ∀ f ∈ file.lines.filterMap RobotLine.field?, f.IsLine := by
    intro f hf
    obtain ⟨name, hname, hwf⟩ := h.field hf
    exact hwf.isLine hname
  rw [parseRobotFile, fgetsLines_text h, foldlM_lines h.others hlines, h.lines]
  by_cases hnamed : file.Named
  · rw [if_pos hnamed]
    obtain ⟨st, hrun, hst⟩ := foldlM_records h.records hnamed agent
    rw [hrun, Option.map_some, Option.map_some]
    congr 1
    have hcounter : (st.count (wordyLines file.lines)).counter = 0 ↔ file.IsBlank := by
      show st.counter + wordyLines file.lines = 0 ↔ _
      rw [Nat.add_eq_zero_iff, hst.counter, wordyLines_eq_zero_iff, RobotFile.IsBlank]
    show (if _ then some [] else if st.rflag then some st.rlist else if st.oflag then some st.olist
        else none) = _
    rw [hst.rflag, hst.rlist, hst.oflag, hst.olist]
    by_cases hblank : file.IsBlank
    · rw [if_pos (hcounter.mpr hblank), if_pos (Or.inl hblank), RobotFile.taken, hblank.1]
      rfl
    · rw [if_neg (mt hcounter.mp hblank), RobotFile.taken]
      by_cases hfor : file.records.any (RobotRecord.takenFor agent) = true
      · have hne : file.records.filter (RobotRecord.takenFor agent) ≠ [] := by
          rw [Ne, List.filter_eq_nil_iff]
          simpa using hfor
        rw [if_pos hfor, if_pos hfor, if_pos (Or.inr hne)]
      · rw [if_neg hfor, if_neg hfor]
        by_cases hany : file.records.any (RobotRecord.takenForAny agent) = true
        · have hne : file.records.filter (RobotRecord.takenForAny agent) ≠ [] := by
            rw [Ne, List.filter_eq_nil_iff]
            simpa using hany
          rw [if_pos hany, if_pos (Or.inr hne)]
        · have hnil : file.records.filter (RobotRecord.takenForAny agent) = [] := by
            rw [List.filter_eq_nil_iff]
            simpa using hany
          rw [if_neg hany, if_neg (by rw [hnil]; simp [hblank])]
  · rw [if_neg hnamed, foldlM_records_none h.records hnamed]
    rfl

/-! ### The paths that are left out -/

theorem strncasecmpEq_iff_casePrefix {path v : List UInt8} :
    strncasecmpEq path v v.length = true ↔ CasePrefix v path := by
  rw [strncasecmpEq, strcasecmpEq_iff, List.take_length, CasePrefix, List.prefix_iff_eq_take,
    List.length_map,
    List.map_take, eq_comm]

theorem urlRestricted_iff {path start : List UInt8} {rurls : List (List UInt8)} :
    urlRestricted path (some rurls) start = true ↔
      bytes "/cgi-bin/" <+: path ∨ ¬ start <+: path ∨ ∃ v ∈ rurls, CasePrefix v path := by
  rw [urlRestricted, Bool.or_eq_true, Bool.or_eq_true, or_assoc, beq_iff_eq, bne_iff_ne,
    Option.getD_some,
    List.any_eq_true]
  simp only [strncasecmpEq_iff_casePrefix]
  rw [List.prefix_iff_eq_take, List.prefix_iff_eq_take, eq_comm, Ne,
    eq_comm (a := path.take start.length)]
  rfl

/-- Every value of one list has a value of another as its prefix. -/
def CoveredBy (values covers : List (List UInt8)) : Prop :=
  ∀ v ∈ values, ∃ w ∈ covers, CasePrefix w v

instance (values covers : List (List UInt8)) : Decidable (CoveredBy values covers) :=
  inferInstanceAs (Decidable (∀ v ∈ values, _))

theorem CasePrefix.trans {u v w : List UInt8} (huv : CasePrefix u v) (hvw : CasePrefix v w) :
    CasePrefix u w :=
  List.IsPrefix.trans huv hvw

theorem CoveredBy.exists {values covers : List (List UInt8)} (h : CoveredBy values covers)
    {path : List UInt8}
    (hpath : ∃ v ∈ values, CasePrefix v path) : ∃ w ∈ covers, CasePrefix w path := by
  obtain ⟨v, hv, hprefix⟩ := hpath
  obtain ⟨w, hw, hwv⟩ := h v hv
  exact ⟨w, hw, hwv.trans hprefix⟩

/-- A path to which a value applies, and which is not excluded anyway: another case will do. -/
theorem exists_path_of_value {v : List UInt8} (hv : 0 ∉ v) :
    ∃ path, 0 ∉ path ∧ ¬ bytes "/cgi-bin/" <+: path ∧ path.map asciiLower = v.map asciiLower := by
  by_cases hcgi : bytes "/cgi-bin/" <+: v
  · obtain ⟨t, rfl⟩ := hcgi
    have ht : 0 ∉ t := fun h => hv (List.mem_append_right _ h)
    refine ⟨bytes "/Cgi-bin/" ++ t, ?_, ?_, ?_⟩
    · intro h
      exact (List.mem_append.mp h).elim (by decide) ht
    · rintro ⟨u, hu⟩
      exact absurd (congrArg (fun s => s.take 2) hu) (by simp [bytes])
    · rw [List.map_append, List.map_append]
      congr 1
  · exact ⟨v, hv, hcgi, rfl⟩

theorem coveredBy_of_forall {values covers : List (List UInt8)} (hvalues : ∀ v ∈ values, 0 ∉ v)
    (h : ∀ path, 0 ∉ path → ¬ bytes "/cgi-bin/" <+: path →
      (∃ v ∈ values, CasePrefix v path) → ∃ w ∈ covers,
        CasePrefix w path) : CoveredBy values covers := by
  intro v hv
  obtain ⟨path, hpath, hcgi, hlower⟩ := exists_path_of_value (hvalues v hv)
  obtain ⟨w, hw, hprefix⟩ := h path hpath hcgi ⟨v, hv, by rw [CasePrefix, hlower]⟩
  exact ⟨w, hw, by rw [CasePrefix, ← hlower]; exact hprefix⟩

theorem zero_not_mem_tail {name : List UInt8} {f : RobotField} (hf : f.WellFormed name) :
    0 ∉ f.tail := by
  intro h
  rcases List.mem_append.mp h with h | h
  · rcases List.mem_append.mp h with h | h
    · rcases List.mem_append.mp h with h | h
      · exact absurd (hf.before 0 h) (by decide)
      · exact (hf.value 0 h).1 rfl
    · exact absurd (hf.after 0 h) (by decide)
  · obtain ⟨s, -, hend⟩ := robotEol_eq f.crlf
    cases hcrlf : f.crlf <;> rw [hcrlf] at h <;> exact absurd h (by decide)

theorem zero_not_mem_cuts {r : RobotRecord} (hr : r.WellFormed) {v : List UInt8} (hv : v ∈ r.cuts) :
    0 ∉ v := by
  obtain ⟨f, hf, hcut⟩ := List.mem_filterMap.mp hv
  intro h0
  have hmem := (mem_strSepLoop (List.mem_of_mem_head? hcut)).2 0 h0
  exact zero_not_mem_tail (hr.disallows f hf) (hmem.resolve_left List.not_mem_nil)

theorem zero_not_mem_disallowed {file : RobotFile} (h : file.WellFormed) {agent v : List UInt8}
    (hv : v ∈ file.disallowed agent) : 0 ∉ v := by
  obtain ⟨r, hr, hmem⟩ := List.mem_flatMap.mp hv
  obtain ⟨f, hf, rfl⟩ := List.mem_map.mp (List.mem_of_mem_filter hmem)
  have hrecord : r ∈ file.records := by
    rw [RobotFile.applicable] at hr
    split at hr <;> exact List.mem_of_mem_filter hr
  intro h0
  exact (((h.records r hrecord).disallows f hf).value 0 h0).1 rfl

theorem RobotFile.mem_records_of_taken {file : RobotFile} {agent : List UInt8} {r : RobotRecord}
    (hr : r ∈ file.taken agent) : r ∈ file.records := by
  rw [RobotFile.taken] at hr
  split at hr <;> exact List.mem_of_mem_filter hr

/-- The parser takes of a file what is written in it: every name is there, a record is found, and
the values as they are cut exclude what the values as they are written exclude. -/
structure RobotFile.TakenAsWritten (file : RobotFile) (agent : List UInt8) : Prop where
  named : file.Named
  found : file.IsBlank ∨ file.taken agent ≠ []
  sound : CoveredBy ((file.taken agent).flatMap RobotRecord.cuts) (file.disallowed agent)
  complete : CoveredBy (file.disallowed agent) ((file.taken agent).flatMap RobotRecord.cuts)

instance (file : RobotFile) (agent : List UInt8) : Decidable (file.TakenAsWritten agent) :=
  decidable_of_iff
    (file.Named ∧ (file.IsBlank ∨ file.taken agent ≠ []) ∧
      CoveredBy ((file.taken agent).flatMap RobotRecord.cuts) (file.disallowed agent) ∧
      CoveredBy (file.disallowed agent) ((file.taken agent).flatMap RobotRecord.cuts))
    ⟨fun ⟨h₁, h₂, h₃, h₄⟩ => ⟨h₁, h₂, h₃, h₄⟩, fun ⟨h₁, h₂, h₃, h₄⟩ => ⟨h₁, h₂, h₃, h₄⟩⟩

/-- **Robot exclusion.** -/
theorem robotExclusion_iff {file : RobotFile} (h : file.WellFormed) (agent : List UInt8) :
    RobotExclusion file agent ↔ file.TakenAsWritten agent := by
  rw [RobotExclusion, parseRobotFile_text h]
  constructor
  · rintro ⟨rurls, hparse, hrestricted⟩
    have hnamed : file.Named := by
      by_contra hnot
      rw [if_neg hnot] at hparse
      exact Option.some_ne_none _ hparse.symm
    rw [if_pos hnamed] at hparse
    have hfound : file.IsBlank ∨ file.taken agent ≠ [] := by
      by_contra hnot
      rw [if_neg hnot] at hparse
      exact Option.some_ne_none _ (Option.some.inj hparse).symm
    rw [if_pos hfound] at hparse
    obtain rfl := Option.some.inj (Option.some.inj hparse)
    -- From the root, only the values exclude paths other than `/cgi-bin/`.
    have hvalues : ∀ path, 0 ∉ path → ¬ bytes "/cgi-bin/" <+: path →
        ((∃ v ∈ (file.taken agent).flatMap RobotRecord.cuts, CasePrefix v path) ↔
          ∃ v ∈ file.disallowed agent, CasePrefix v path) := by
      intro path hpath hcgi
      have hpath := hrestricted [] path List.not_mem_nil hpath
      rw [urlRestricted_iff, RobotFile.Restricted] at hpath
      simpa [hcgi] using hpath
    constructor
    case named => exact hnamed
    case found => exact hfound
    case sound =>
      refine coveredBy_of_forall (fun v hv => ?_) fun path hpath hcgi =>
        (hvalues path hpath hcgi).mp
      obtain ⟨r, hr, hmem⟩ := List.mem_flatMap.mp hv
      exact zero_not_mem_cuts (h.records r (RobotFile.mem_records_of_taken hr)) hmem
    case complete =>
      exact coveredBy_of_forall (fun v hv => zero_not_mem_disallowed h hv)
        fun path hpath hcgi => (hvalues path hpath hcgi).mpr
  · intro htaken
    refine ⟨_, by rw [if_pos htaken.named, if_pos htaken.found], ?_⟩
    intro start path _ _
    rw [urlRestricted_iff, RobotFile.Restricted]
    refine or_congr_right (or_congr_right ⟨htaken.sound.exists, htaken.complete.exists⟩)

/-- A line of which the parser sees the value that is written: no CR, and neither a blank nor a
colon in the value. -/
def RobotField.IsPlain (f : RobotField) : Prop :=
  f.crlf = false ∧ (∀ c ∈ f.before ++ f.after, c = 32) ∧ ∀ c ∈ f.value, c ∉ robotSeps

theorem RobotField.IsPlain.cut {f : RobotField} (h : f.IsPlain) :
    f.cut = if f.value = [] then none else some f.value := by
  obtain ⟨hcrlf, hblanks, hvalue⟩ := h
  have hsep : ∀ c ∈ f.before ++ f.after, c ∈ robotSeps := by
    intro c hc
    rw [hblanks c hc]
    exact mem_robotSeps.mpr (Or.inr (Or.inl rfl))
  have hend : ∀ c ∈ f.after ++ [10], c ∈ robotSeps := by
    intro c hc
    rcases List.mem_append.mp hc with hc | hc
    · exact hsep c (List.mem_append_right _ hc)
    · exact mem_robotSeps.mpr (Or.inr (Or.inr (List.mem_singleton.mp hc)))
  have htail : f.tail = f.before ++ (f.value ++ (f.after ++ [10])) := by
    rw [RobotField.tail, hcrlf, List.append_assoc, List.append_assoc]
    rfl
  rw [RobotField.cut, htail, strSepLoop_seps fun c hc => hsep c (List.mem_append_left _ hc)]
  split
  next hnil =>
    have hnone := strSepLoop_seps (l := robotSeps) hend []
    rw [List.append_nil] at hnone
    rw [hnil, List.nil_append, hnone]
    rfl
  next hne =>
    obtain ⟨c, s, hs⟩ := List.exists_cons_of_ne_nil (show f.after ++ [10] ≠ [] by simp)
    rw [hs, strSepLoop_field hvalue hne (hend c (hs ▸ List.mem_cons_self))]
    rfl

theorem asciiLower_eq_star {c : UInt8} (h : asciiLower c = 42) : c = 42 := by
  rw [asciiLower] at h
  split at h
  next hc =>
    have hnat := congrArg UInt8.toNat h
    rw [UInt8.le_iff_toNat_le, UInt8.le_iff_toNat_le] at hc
    rw [UInt8.toNat_add] at hnat
    simp at hc hnat
    omega
  next => exact h

/-- A record of such lines, in which a name that begins with `*` is `*`. -/
structure RobotRecord.IsPlain (r : RobotRecord) : Prop where
  agents : ∀ f ∈ r.agents, f.IsPlain ∧ f.value ≠ [] ∧ (f.value.head? = some 42 → f.value = [42])
  disallows : ∀ f ∈ r.disallows, f.IsPlain

theorem RobotRecord.IsPlain.takenFor {r : RobotRecord} (h : r.IsPlain) (agent : List UInt8) :
    r.takenFor agent = r.names agent := by
  rw [Bool.eq_iff_iff, RobotRecord.takenFor, RobotRecord.names, List.any_eq_true, List.any_eq_true]
  refine exists_congr fun f => and_congr_right fun hf => ?_
  obtain ⟨hplain, hne, -⟩ := h.agents f hf
  rw [hplain.cut, if_neg hne, Option.any_some]

theorem RobotRecord.IsPlain.takenForAny {r : RobotRecord} (h : r.IsPlain) {agent : List UInt8}
    (hagent : agent.head? ≠ some 42) : r.takenForAny agent = r.namesAny := by
  rw [Bool.eq_iff_iff, RobotRecord.takenForAny, RobotRecord.namesAny, List.any_eq_true,
    List.any_eq_true]
  refine exists_congr fun f => and_congr_right fun hf => ?_
  obtain ⟨hplain, hne, hstar⟩ := h.agents f hf
  rw [hplain.cut, if_neg hne, Option.any_some, Bool.and_eq_true, beq_iff_eq, beq_iff_eq]
  constructor
  · rintro ⟨-, hhead⟩
    exact hstar hhead
  · intro hvalue
    refine ⟨?_, by rw [hvalue]; rfl⟩
    -- Only `*` is equal to `*` up to case.
    rw [Bool.not_eq_true', Bool.eq_false_iff, hvalue, Ne, strcasecmpEq_iff]
    intro heq
    obtain ⟨c, rfl⟩ : ∃ c, agent = [c] :=
      List.length_eq_one_iff.mp (by simpa using (congrArg List.length heq).symm)
    refine hagent (congrArg some (asciiLower_eq_star ?_))
    exact (List.cons.inj heq).1.symm

theorem RobotRecord.IsPlain.cuts {r : RobotRecord} (h : r.IsPlain) :
    r.cuts = (r.disallows.map RobotField.value).filter (· ≠ []) := by
  have hplain := h.disallows
  rw [RobotRecord.cuts]
  generalize r.disallows = fs at hplain
  induction fs with
  | nil => rfl
  | cons f fs ih =>
    rw [List.filterMap_cons, List.map_cons, List.filter_cons, (hplain f List.mem_cons_self).cut,
      ih fun g hg => hplain g (List.mem_cons_of_mem f hg)]
    by_cases hf : f.value = [] <;> simp [hf]

/-- A file of such records with one that applies is read as it is written. -/
theorem takenAsWritten_of_isPlain {file : RobotFile} {agent : List UInt8}
    (hagent : agent.head? ≠ some 42)
    (hplain : ∀ r ∈ file.records, r.IsPlain) (hfound : file.IsBlank ∨ file.applicable agent ≠ []) :
    file.TakenAsWritten agent := by
  have hfor : ∀ r ∈ file.records, r.takenFor agent = r.names agent :=
    fun r hr => (hplain r hr).takenFor agent
  have hany : ∀ r ∈ file.records, r.takenForAny agent = r.namesAny :=
    fun r hr => (hplain r hr).takenForAny hagent
  have htaken : file.taken agent = file.applicable agent := by
    have hsome : file.records.any (RobotRecord.takenFor agent) = file.records.any
        (RobotRecord.names agent) := by
      rw [Bool.eq_iff_iff, List.any_eq_true, List.any_eq_true]
      exact exists_congr fun r => and_congr_right fun hr => by rw [hfor r hr]
    rw [RobotFile.taken, RobotFile.applicable, hsome, List.filter_congr hfor,
      List.filter_congr hany]
  have hvalues : (file.taken agent).flatMap RobotRecord.cuts = file.disallowed agent := by
    rw [RobotFile.disallowed, ← htaken, List.flatMap_def, List.flatMap_def]
    congr 1
    exact List.map_congr_left fun r hr => (hplain r (RobotFile.mem_records_of_taken hr)).cuts
  have hself : CoveredBy (file.disallowed agent) (file.disallowed agent) :=
    fun v hv => ⟨v, hv, List.prefix_refl _⟩
  constructor
  case named =>
    intro r hr f hf
    obtain ⟨hf', hne, -⟩ := (hplain r hr).agents f hf
    rw [hf'.cut, if_neg hne]
    exact Option.some_ne_none _
  case found => rw [htaken]; exact hfound
  case sound => rw [hvalues]; exact hself
  case complete => rw [hvalues]; exact hself

/-- Lines `field: value`. -/
def robotField (field value : String) (crlf : Bool) : RobotField :=
  ⟨bytes field, [32], bytes value, [], crlf⟩

/-- A file of one record. -/
def robotSample (agent value : String) (crlf : Bool) : RobotFile :=
  let r : RobotRecord := ⟨[robotField "User-agent" agent crlf], [robotField "Disallow" value crlf]⟩
  ⟨r.lines.map RobotLine.field, [r]⟩

theorem robotExclusion_sample :
    RobotExclusion (robotSample "*" "/private" false) (bytes "Archie") ∧
      ¬ RobotExclusion (robotSample "*" "/private" true) (bytes "Archie") :=
  ⟨(robotExclusion_iff (by decide +kernel) _).mpr (by decide +kernel),
    fun h => absurd ((robotExclusion_iff (by decide +kernel) _).mp h) (by decide +kernel)⟩

/-- With a CR at the end of its lines a file keeps nothing from the agent, and one that speaks of
another agent only is not read. -/
theorem not_robotExclusion :
    ¬ (∀ (file : RobotFile) (agent : List UInt8), file.WellFormed → RobotExclusion file agent) ∧
      parseRobotFile (some (bytes "Archie")) (robotSample "Lycos" "/private" false).text = some none := by
  refine ⟨fun h => ?_, by decide +kernel⟩
  obtain ⟨rurls, hparse, hrestricted⟩ :=
    h (robotSample "*" "/private" true) (bytes "Archie") (by decide +kernel)
  have hcut : parseRobotFile (some (bytes "Archie")) (robotSample "*" "/private" true).text =
      some (some [bytes "/private\r"]) := by decide +kernel
  obtain rfl := Option.some.inj (Option.some.inj (hcut.symm.trans hparse))
  have hpath := hrestricted (bytes "/") (bytes "/private/a") (by decide) (by decide)
  have hvalue : (robotSample "*" "/private" true).Restricted (bytes "Archie") (bytes "/") (bytes "/private/a") :=
    Or.inr (Or.inr ⟨bytes "/private", by decide +kernel, by decide +kernel⟩)
  exact absurd (hpath.mpr hvalue) (by decide +kernel)

end Archie
