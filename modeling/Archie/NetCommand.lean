/-
The commands of an exchange connection (`exchange/net.c`, `exchange/command.c`).

A command is a line of words.  What `read_net_command` returns is a static structure: a
parameter that the line does not have is one that an earlier line had.

* `readNetCommand_line` — a line that was written is read as its command, with the
  parameters that it has stored over those of the lines before.
* `received_iff` — a sequence of commands is received as it was sent exactly if its lines
  fit and each parameter that is not stored is there already.
-/
import Archie.CText
import Mathlib.Data.List.GetD
import Mathlib.Logic.Function.Basic

namespace Archie

/-! ### The commands -/

/-- `net_icommand_t`. -/
inductive NetCommand
  | error
  | quit
  | listSites
  | sendHeader
  | updateList
  | tupleList
  | siteFile
  | sendSite
  | siteList
  | header
  | dumpConfig
  | endDump
  | version
  | authErr
  | sendExcerpt
  deriving DecidableEq, Repr

/-- `command_set`.  The last entry is met when no other one is. -/
def commandSet : List (List UInt8 × NetCommand) :=
  [(bytes "ERROR", .error), (bytes "QUIT", .quit), (bytes "LISTSITES", .listSites),
    (bytes "SENDHEADER", .sendHeader), (bytes "UPDATELIST", .updateList),
    (bytes "TUPLELIST", .tupleList), (bytes "SITEFILE", .siteFile), (bytes "SENDSITE", .sendSite),
    (bytes "SITELIST", .siteList), (bytes "HEADER", .header), (bytes "DUMPCONFIG", .dumpConfig),
    (bytes "ENDDUMP", .endDump), (bytes "VERSION", .version), (bytes "AUTH_ERR", .authErr),
    (bytes "SENDEXCERPT", .sendExcerpt), ([], .error)]

/-- `command_set[command_no].scommand`. -/
def NetCommand.scommand : NetCommand → List UInt8
  | .error => bytes "ERROR"
  | .quit => bytes "QUIT"
  | .listSites => bytes "LISTSITES"
  | .sendHeader => bytes "SENDHEADER"
  | .updateList => bytes "UPDATELIST"
  | .tupleList => bytes "TUPLELIST"
  | .siteFile => bytes "SITEFILE"
  | .sendSite => bytes "SENDSITE"
  | .siteList => bytes "SITELIST"
  | .header => bytes "HEADER"
  | .dumpConfig => bytes "DUMPCONFIG"
  | .endDump => bytes "ENDDUMP"
  | .version => bytes "VERSION"
  | .authErr => bytes "AUTH_ERR"
  | .sendExcerpt => bytes "SENDEXCERPT"

/-- `MAX_COMMAND_LEN`. -/
def maxCommandLen : ℕ := 512

/-- `CR` and `LF`. -/
def cr : UInt8 := 13

def lf : UInt8 := 10

/-! ### Writing -/

/-- A parameter: a string, or a number that is printed by `%d`. -/
inductive NetParam
  | string (s : List UInt8)
  | number (n : ℤ)
  deriving DecidableEq, Repr

def NetParam.text : NetParam → List UInt8
  | .string s => s
  | .number n => printSInt n

/-- What a command prints after its name: for each parameter whether it is a number.
Some commands are never written. -/
def NetCommand.printed : NetCommand → Option (List Bool)
  | .header | .quit | .endDump | .version | .authErr => some []
  | .error | .sendHeader => some [false]
  | .tupleList | .siteFile | .siteList => some [true]
  | .listSites => some [false, false, false, false]
  | .sendExcerpt | .sendSite => some [false, false]
  | .updateList | .dumpConfig => none

def NetParam.isNumber : NetParam → Bool
  | .string _ => false
  | .number _ => true

/-- A command with its parameters. -/
structure NetMessage where
  command : NetCommand
  params : List NetParam
  deriving DecidableEq, Repr

/-- The parameters as they are read. -/
def NetMessage.texts (m : NetMessage) : List (List UInt8) := m.params.map NetParam.text

/-- `outbuf`. -/
def NetMessage.outbuf (m : NetMessage) : List UInt8 :=
  m.command.scommand ++ m.texts.flatMap (32 :: ·)

/-- `write_net_command`; `none` is `ERROR`, or a text that `outbuf` has no room for. -/
def writeNetCommand (m : NetMessage) : Option (List UInt8) :=
  if m.command.printed = some (m.params.map NetParam.isNumber) ∧ m.outbuf.length < maxCommandLen
    then
    some (m.outbuf ++ [cr, lf])
  else none

/-! ### Reading -/

/-- The search for the command in `command_set`. -/
def lookupCommand (inScommand : List UInt8) : NetCommand :=
  ((commandSet.find? fun e => strncasecmpEq e.1 inScommand e.1.length).map Prod.snd).getD .error

/-- The parameters that are read. -/
def NetCommand.scanned : NetCommand → ℕ
  | .sendHeader | .tupleList | .siteList => 1
  | .listSites => 4
  | .sendExcerpt | .sendSite => 2
  | _ => 0

/-- `n` conversions of `sscanf` by `%s`, into the parameters from the `k`-th on. -/
def scanParams : ℕ → ℕ → List UInt8 → (ℕ → List UInt8) → ℕ → List UInt8
  | 0, _, _, params => params
  | n + 1, k, s, params =>
    match scanWord s with
    | none => params
    | some (w, s) => scanParams n (k + 1) s (Function.update params k w)

/-- `read_net_command`, with the parameters of the lines before, and the text that is
left; `none` is a null pointer. -/
def readNetCommand (params : ℕ → List UInt8) (text : List UInt8) :
    Option (NetCommand × (ℕ → List UInt8) × List UInt8) := do
  let (line, rest) ← fgetsLine maxCommandLen text
  let inScommand ← beforeLast cr line
  let command := lookupCommand inScommand
  -- `%*s` reads the name of the command
  let params := match scanWord inScommand with
    | none => params
    | some (_, s) => scanParams command.scanned 0 s params
  some (command, params, rest)

/-! ### Sequences of commands -/

def writeAll : List NetMessage → Option (List UInt8)
  | [] => some []
  | m :: ms => do
    let line ← writeNetCommand m
    let text ← writeAll ms
    some (line ++ text)

/-- The number of parameters of a command. -/
def NetCommand.numParams (c : NetCommand) : ℕ := (c.printed.getD []).length

/-- A number of commands, each with its parameters. -/
def readAll : ℕ → (ℕ → List UInt8) → List UInt8 → Option (List (NetCommand × List (List UInt8)))
  | 0, _, _ => some []
  | n + 1, params, text => do
    let (command, params, rest) ← readNetCommand params text
    let received ← readAll n params rest
    some ((command, (List.range command.numParams).map params) :: received)

/-- The commands are received as they were sent, by a reader with these parameters. -/
def ReceivedFrom (params : ℕ → List UInt8) (ms : List NetMessage) : Prop :=
  ∃ text, writeAll ms = some text ∧
    readAll ms.length params text = some (ms.map fun m => (m.command, m.texts))

/-- The commands are received as they were sent. -/
def Received (ms : List NetMessage) : Prop := ReceivedFrom (fun _ => []) ms

/-! ### Messages -/

/-- No white space, and no character that ends a string. -/
def IsToken (s : List UInt8) : Prop := ∀ c ∈ s, isSpace c = false ∧ c ≠ 0

/-- A message as it is meant to be sent: the parameters are those of the command, tokens
of which the last one only may be empty. -/
structure NetMessage.WellFormed (m : NetMessage) : Prop where
  printed : m.command.printed = some (m.params.map NetParam.isNumber)
  token : ∀ s ∈ m.texts, IsToken s
  ne_nil : ∀ s ∈ m.texts.dropLast, s ≠ []

/-- The parameters that reading a message stores. -/
def NetMessage.Stores (m : NetMessage) (k : ℕ) : Prop :=
  k < m.command.scanned ∧ m.texts.getD k [] ≠ []

instance (m : NetMessage) (k : ℕ) : Decidable (m.Stores k) := inferInstanceAs (Decidable (_ ∧ _))

/-- The parameters after a message. -/
def NetMessage.store (m : NetMessage) (params : ℕ → List UInt8) (k : ℕ) : List UInt8 :=
  if m.Stores k then m.texts.getD k [] else params k

/-- Each parameter that is not stored is what an earlier message has stored in its place. -/
def Unstale : (ℕ → List UInt8) → List NetMessage → Prop
  | _, [] => True
  | params, m :: ms =>
    (∀ k < m.texts.length, ¬ m.Stores k → params k = m.texts.getD k []) ∧
      Unstale (m.store params) ms

/-- Each line fits the array that it is read into; the last one may leave its newline. -/
def LinesFit : List NetMessage → Prop
  | [] => True
  | m :: ms =>
    m.outbuf.length < maxCommandLen - 1 ∧ (ms ≠ [] → m.outbuf.length + 2 < maxCommandLen) ∧
    LinesFit ms

/-! ### One line -/

/-- The name of a command is not the beginning of another one, whatever comes after it. -/
theorem strncasecmpEq_append {e s : List UInt8} (rest : List UInt8)
    (hdiffer : (e.zip s).any (fun p => asciiLower p.1 != asciiLower p.2) = true) :
    strncasecmpEq e (s ++ rest) e.length = false := by
  rw [strncasecmpEq, List.take_length, Bool.eq_false_iff, Ne, strcasecmpEq_iff]
  intro heq
  obtain ⟨⟨a, b⟩, hmem, hne⟩ := List.any_eq_true.mp hdiffer
  obtain ⟨i, hi⟩ := List.mem_iff_getElem?.mp hmem
  obtain ⟨ha, hb⟩ := List.getElem?_zip_eq_some.mp hi
  have hlt := (List.getElem?_eq_some_iff.mp ha).1
  have hcell := congrArg (fun l => l[i]?) heq
  simp only [List.getElem?_map, ha, List.getElem?_take, hlt, if_true,
    List.getElem?_append_left (List.getElem?_eq_some_iff.mp hb).1, hb, Option.map_some] at hcell
  rw [Option.some.inj hcell] at hne
  simp at hne

theorem strncasecmpEq_self (s rest : List UInt8) : strncasecmpEq s (s ++ rest) s.length = true := by
  rw [strncasecmpEq, List.take_length, List.take_left, strcasecmpEq_iff]

/-- The command is found by its name. -/
theorem lookupCommand_scommand (c : NetCommand) (rest : List UInt8) :
    lookupCommand (c.scommand ++ rest) = c := by
  have hsplit : ∃ before after, commandSet = before ++ (c.scommand, c) :: after ∧
      ∀ e ∈ before, (e.1.zip c.scommand).any (fun p => asciiLower p.1 != asciiLower p.2) =
        true := by
    refine ⟨commandSet.take (commandSet.idxOf (c.scommand, c)),
      commandSet.drop (commandSet.idxOf (c.scommand, c) + 1), ?_⟩
    cases c <;> exact ⟨by decide +kernel, by decide +kernel⟩
  obtain ⟨before, after, hset, hbefore⟩ := hsplit
  have hnone : before.find? (fun e => strncasecmpEq e.1 (c.scommand ++ rest) e.1.length) =
      none := by
    refine List.find?_eq_none.mpr fun e he => ?_
    rw [strncasecmpEq_append rest (hbefore e he)]
    exact Bool.false_ne_true
  rw [lookupCommand, hset, List.find?_append, hnone, Option.none_or, List.find?_cons]
  dsimp only
  rw [strncasecmpEq_self c.scommand rest]
  rfl

theorem isWord_scommand (c : NetCommand) : IsWord c.scommand := by
  cases c <;> exact ⟨by decide +kernel, by decide +kernel⟩

theorem spaceFirst_params (ps : List (List UInt8)) : SpaceFirst (ps.flatMap (32 :: ·)) := by
  cases ps with
  | nil => exact spaceFirst_nil
  | cons p ps => exact spaceFirst_cons (by decide) _

/-- **The parameters of a line** are stored, up to an empty one. -/
theorem scanParams_eq {ps : List (List UInt8)} (htoken : ∀ s ∈ ps, IsToken s)
    (hne : ∀ s ∈ ps.dropLast, s ≠ []) (n k : ℕ) (params : ℕ → List UInt8) :
    scanParams n k (ps.flatMap (32 :: ·)) params = fun j =>
      if k ≤ j ∧ j < k + n ∧ ps.getD (j - k) [] ≠ [] then ps.getD (j - k) [] else params j := by
  induction n generalizing ps k params with
  | zero =>
    funext j
    rw [if_neg (by omega)]
    rfl
  | succ n ih =>
    rw [scanParams]
    cases ps with
    | nil =>
      rw [List.flatMap_nil, scanWord_nil]
      funext j
      simp
    | cons p ps =>
      obtain ⟨hp, hps⟩ := List.forall_mem_cons.mp htoken
      rw [List.flatMap_cons, List.cons_append, scanWord_space (by decide)]
      by_cases hnil : p = []
      · -- only the last one may be empty
        have hlast : ps = [] := by
          by_contra hmore
          obtain ⟨q, ps, rfl⟩ := List.exists_cons_of_ne_nil hmore
          exact hne p (by rw [List.dropLast_cons_cons]; exact List.mem_cons_self) hnil
        subst hnil hlast
        rw [List.flatMap_nil, List.append_nil, scanWord_nil]
        funext j
        rw [if_neg]
        rintro ⟨-, -, hj⟩
        cases hjk : j - k with
        | zero => simp [hjk] at hj
        | succ i => simp [hjk] at hj
      · have hword : IsWord p := ⟨hnil, fun c hc => (hp c hc).1⟩
        have hne' : ∀ s ∈ ps.dropLast, s ≠ [] := by
          intro s hs
          cases ps with
          | nil => simp at hs
          | cons q ps =>
            exact hne s (by rw [List.dropLast_cons_cons]; exact List.mem_cons_of_mem _ hs)
        rw [scanWord_append hword (spaceFirst_params ps)]
        dsimp only
        rw [ih hps hne']
        funext j
        rcases lt_trichotomy j k with hlt | rfl | hgt
        · rw [if_neg (by omega), if_neg (by omega), Function.update_of_ne (by omega)]
        · rw [if_neg (by omega), Function.update_self, Nat.sub_self, List.getD_cons_zero,
            if_pos ⟨le_refl _, by omega, hnil⟩]
        · obtain ⟨i, hi⟩ : ∃ i, j - k = i + 1 := ⟨j - k - 1, by omega⟩
          have hi' : j - (k + 1) = i := by omega
          rw [hi, hi', List.getD_cons_succ, Function.update_of_ne (by omega)]
          have hiff : (k + 1 ≤ j ∧ j < k + 1 + n ∧ ps.getD i [] ≠ []) ↔
              (k ≤ j ∧ j < k + (n + 1) ∧ ps.getD i [] ≠ []) := by
            constructor
            · rintro ⟨h1, h2, h3⟩
              exact ⟨by omega, by omega, h3⟩
            · rintro ⟨h1, h2, h3⟩
              exact ⟨by omega, by omega, h3⟩
          by_cases hc : k ≤ j ∧ j < k + (n + 1) ∧ ps.getD i [] ≠ []
          · rw [if_pos (hiff.mpr hc), if_pos hc]
          · rw [if_neg (fun h => hc (hiff.mp h)), if_neg hc]

namespace NetMessage.WellFormed

variable {m : NetMessage}

theorem not_mem_outbuf (h : m.WellFormed) {c : UInt8} (hc : isSpace c = true) (hne : c ≠ 32) :
    c ∉ m.outbuf := by
  rw [NetMessage.outbuf, List.mem_append, List.mem_flatMap]
  rintro (hmem | ⟨s, hs, hmem⟩)
  · rw [(isWord_scommand m.command).2 c hmem] at hc
    exact absurd hc (by simp)
  · rcases List.mem_cons.mp hmem with rfl | hmem
    · exact hne rfl
    · rw [(h.token s hs c hmem).1] at hc
      exact absurd hc (by simp)

theorem numParams_eq (h : m.WellFormed) : m.command.numParams = m.texts.length := by
  rw [NetCommand.numParams, h.printed, Option.getD_some, List.length_map, NetMessage.texts,
    List.length_map]

theorem writeNetCommand_eq (h : m.WellFormed) : writeNetCommand m =
    if m.outbuf.length < maxCommandLen then some (m.outbuf ++ [cr, lf]) else none := by
  rw [writeNetCommand]
  simp only [h.printed, true_and]

/-- Reading what stands before the carriage return. -/
theorem parse_outbuf (h : m.WellFormed) (params : ℕ → List UInt8) :
    lookupCommand m.outbuf = m.command ∧ (match scanWord m.outbuf with
      | none => params
      | some (_, s) => scanParams m.command.scanned 0 s params) = m.store params := by
  have hword : scanWord m.outbuf = some (m.command.scommand, m.texts.flatMap (32 :: ·)) :=
    scanWord_append (isWord_scommand _) (spaceFirst_params _)
  refine ⟨lookupCommand_scommand _ _, ?_⟩
  rw [hword]
  dsimp only
  rw [scanParams_eq h.token h.ne_nil]
  funext k
  have hiff : (0 ≤ k ∧ k < 0 + m.command.scanned ∧ m.texts.getD (k - 0) [] ≠ []) ↔ m.Stores k := by
    rw [NetMessage.Stores, Nat.sub_zero, Nat.zero_add]
    exact and_iff_right (Nat.zero_le k)
  rw [NetMessage.store]
  by_cases hstores : m.Stores k
  · rw [if_pos (hiff.mpr hstores), if_pos hstores, Nat.sub_zero]
  · rw [if_neg (fun h => hstores (hiff.mp h)), if_neg hstores]

/-- A line with a carriage return after what was written is read as its command. -/
theorem readNetCommand_of_fgets (h : m.WellFormed) {text line rest : List UInt8}
    (hline : fgetsLine maxCommandLen text = some (line, rest))
    (hcr : beforeLast cr line = some m.outbuf) (params : ℕ → List UInt8) :
    readNetCommand params text = some (m.command, m.store params, rest) := by
  obtain ⟨hcommand, hparams⟩ := h.parse_outbuf params
  rw [readNetCommand, hline]
  simp only [Option.bind_eq_bind, Option.bind_some, hcr, hcommand]
  rw [hparams]

theorem lf_notMem_outbuf (h : m.WellFormed) : 10 ∉ m.outbuf ++ [cr] := by
  rw [List.mem_append, List.mem_singleton]
  rintro (hmem | heq)
  · exact h.not_mem_outbuf (by decide) (by decide) hmem
  · exact absurd heq (by decide)

/-- **A line that fits** is read as its command. -/
theorem readNetCommand_line (h : m.WellFormed) (hfit : m.outbuf.length + 2 < maxCommandLen)
    (params : ℕ → List UInt8) (rest : List UInt8) :
    readNetCommand params (m.outbuf ++ [cr, lf] ++ rest) = some
      (m.command, m.store params, rest) := by
  have hline : m.outbuf ++ [cr, lf] ++ rest = (m.outbuf ++ [cr]) ++ 10 :: rest := by
    simp [lf]
  have hcr : beforeLast cr (m.outbuf ++ [cr] ++ [10]) = some m.outbuf := by
    rw [List.append_assoc]
    exact beforeLast_append m.outbuf (by decide)
  rw [hline]
  refine h.readNetCommand_of_fgets (fgetsLine_append h.lf_notMem_outbuf ?_ rest) hcr params
  rw [List.length_append, List.length_singleton]
  omega

/-- A line of 510 characters leaves its newline to be read. -/
theorem readNetCommand_newline (h : m.WellFormed) (hlen : m.outbuf.length + 2 = maxCommandLen)
    (params : ℕ → List UInt8) (rest : List UInt8) :
    readNetCommand params (m.outbuf ++ [cr, lf] ++ rest) =
      some (m.command, m.store params, lf :: rest) := by
  have hline : m.outbuf ++ [cr, lf] ++ rest = (m.outbuf ++ [cr]) ++ lf :: rest := by simp
  have hcr : beforeLast cr (m.outbuf ++ [cr]) = some m.outbuf :=
    beforeLast_append m.outbuf (by simp)
  rw [hline]
  refine h.readNetCommand_of_fgets (fgetsLine_full h.lf_notMem_outbuf ?_ (by simp) _) hcr params
  rw [List.length_append, List.length_singleton]
  omega

/-- A line of 511 characters has no carriage return when it is read. -/
theorem readNetCommand_long (h : m.WellFormed) (hlen : m.outbuf.length + 1 = maxCommandLen)
    (params : ℕ → List UInt8) (rest : List UInt8) :
    readNetCommand params (m.outbuf ++ [cr, lf] ++ rest) = none := by
  have hne : m.outbuf ≠ [] := by
    intro hnil
    rw [hnil, List.length_nil, maxCommandLen] at hlen
    omega
  rw [readNetCommand, List.append_assoc,
    fgetsLine_full (h.not_mem_outbuf (by decide) (by decide)) (by omega) hne]
  simp only [Option.bind_eq_bind, Option.bind_some,
    beforeLast_none (h.not_mem_outbuf (c := cr) (by decide) (by decide)), Option.bind_none]

/-- The parameters are those that were sent, if what is not stored is there already. -/
theorem map_store_eq_iff (h : m.WellFormed) (params : ℕ → List UInt8) :
    (List.range m.command.numParams).map (m.store params) = m.texts ↔
      ∀ k < m.texts.length, ¬ m.Stores k → params k = m.texts.getD k [] := by
  rw [h.numParams_eq]
  constructor
  · intro heq k hk hnot
    have hcell : ((List.range m.texts.length).map (m.store params)).getD k [] = m.texts.getD k
        [] := by
      rw [heq]
    rw [List.getD_eq_getElem _ _ (by simpa using hk), List.getElem_map, List.getElem_range,
      NetMessage.store, if_neg hnot] at hcell
    exact hcell
  · intro hall
    refine List.ext_getElem (by simp) ?_
    intro k _ hk
    rw [List.getElem_map, List.getElem_range, NetMessage.store, ← List.getD_eq_getElem _ [] hk]
    split
    next => rfl
    next hnot => exact hall k hk hnot

end NetMessage.WellFormed

/-! ### Sequences of lines -/

theorem readNetCommand_lf (params : ℕ → List UInt8) (rest : List UInt8) :
    readNetCommand params (lf :: rest) = none := by
  have hline : fgetsLine maxCommandLen (lf :: rest) = some ([lf], rest) :=
    @fgetsLine_append maxCommandLen [] (by simp) (by decide) rest
  rw [readNetCommand, hline]
  rfl

theorem receivedFrom_cons {m : NetMessage} (h : m.WellFormed) {ms : List NetMessage}
    {params : ℕ → List UInt8} (hfit : m.outbuf.length + 2 < maxCommandLen) :
    ReceivedFrom params (m :: ms) ↔
      (List.range m.command.numParams).map (m.store params) = m.texts ∧
        ReceivedFrom (m.store params) ms := by
  have hwrite : writeNetCommand m = some (m.outbuf ++ [cr, lf]) := by
    rw [h.writeNetCommand_eq, if_pos (by omega)]
  have hread : ∀ text, readAll (ms.length + 1) params (m.outbuf ++ [cr, lf] ++ text) =
      (readAll ms.length (m.store params) text).map
        (((m.command, (List.range m.command.numParams).map (m.store params))) :: ·) := by
    intro text
    rw [readAll, h.readNetCommand_line hfit]
    simp only [Option.bind_eq_bind, Option.bind_some]
    cases readAll ms.length (m.store params) text <;> rfl
  rw [ReceivedFrom, ReceivedFrom, writeAll, hwrite]
  simp only [Option.bind_eq_bind, Option.bind_some]
  constructor
  · rintro ⟨text, hall, hreceived⟩
    obtain ⟨text', htext', rfl⟩ := Option.map_eq_some_iff.mp
      (show (writeAll ms).map (m.outbuf ++ [cr, lf] ++ ·) = some text by
        rw [← hall]
        cases writeAll ms <;> rfl)
    rw [List.length_cons, hread, List.map_cons] at hreceived
    obtain ⟨received, hrest, heq⟩ := Option.map_eq_some_iff.mp hreceived
    obtain ⟨hhead, htail⟩ := List.cons.inj heq
    exact ⟨(Prod.mk.inj hhead).2, text', htext', by rw [hrest, htail]⟩
  · rintro ⟨hparams, text, htext, hreceived⟩
    refine ⟨m.outbuf ++ [cr, lf] ++ text, by simp [htext], ?_⟩
    rw [List.length_cons, hread, hreceived, Option.map_some, hparams, List.map_cons]

/-- **What is received**, by a reader with any parameters. -/
theorem receivedFrom_iff {ms : List NetMessage} (hms : ∀ m ∈ ms, m.WellFormed)
    (params : ℕ → List UInt8) : ReceivedFrom params ms ↔ LinesFit ms ∧ Unstale params ms := by
  induction ms generalizing params with
  | nil => exact ⟨fun _ => ⟨trivial, trivial⟩, fun _ => ⟨[], rfl, rfl⟩⟩
  | cons m ms ih =>
    obtain ⟨hm, hms'⟩ := List.forall_mem_cons.mp hms
    by_cases hfit : m.outbuf.length + 2 < maxCommandLen
    · rw [receivedFrom_cons hm hfit, ih hms', hm.map_store_eq_iff, LinesFit, Unstale]
      constructor
      · rintro ⟨hstale, hlines, hrest⟩
        exact ⟨⟨by omega, fun _ => hfit, hlines⟩, hstale, hrest⟩
      · rintro ⟨⟨-, -, hlines⟩, hstale, hrest⟩
        exact ⟨hstale, hlines, hrest⟩
    · by_cases hone : m.outbuf.length + 2 = maxCommandLen ∧ ms = []
      · -- the last line, of 510 characters
        obtain ⟨hlen, rfl⟩ := hone
        have hwrite : writeNetCommand m = some (m.outbuf ++ [cr, lf]) := by
          rw [hm.writeNetCommand_eq, if_pos (by omega)]
        have hread := hm.readNetCommand_newline hlen params []
        rw [List.append_nil] at hread
        have hiff : ReceivedFrom params [m] ↔
            (List.range m.command.numParams).map (m.store params) = m.texts := by
          rw [ReceivedFrom]
          simp [writeAll, readAll, hwrite, hread]
        rw [hiff, hm.map_store_eq_iff, LinesFit, Unstale]
        constructor
        · intro hstale
          exact ⟨⟨by omega, fun hne => absurd rfl hne, trivial⟩, hstale, trivial⟩
        · rintro ⟨-, hstale, -⟩
          exact hstale
      · -- a line that is too long: it or what comes after it is not read
        constructor
        · rintro ⟨text, hwrite, hreceived⟩
          exfalso
          rw [writeAll, hm.writeNetCommand_eq] at hwrite
          split at hwrite
          next hlt =>
            obtain ⟨text', htext', rfl⟩ := Option.map_eq_some_iff.mp
              (show (writeAll ms).map (m.outbuf ++ [cr, lf] ++ ·) = some text by
                rw [← hwrite]
                cases writeAll ms <;> rfl)
            rw [List.length_cons, readAll] at hreceived
            by_cases hlen : m.outbuf.length + 1 = maxCommandLen
            · rw [hm.readNetCommand_long hlen] at hreceived
              simp at hreceived
            · have hlen' : m.outbuf.length + 2 = maxCommandLen := by omega
              have hmore : ms ≠ [] := fun hnil => hone ⟨hlen', hnil⟩
              obtain ⟨m', ms', rfl⟩ := List.exists_cons_of_ne_nil hmore
              rw [hm.readNetCommand_newline hlen'] at hreceived
              simp [readAll, readNetCommand_lf] at hreceived
          next => simp at hwrite
        · rintro ⟨⟨hlt, hmore, -⟩, -⟩
          exfalso
          by_cases hnil : ms = []
          · exact hone ⟨by omega, hnil⟩
          · exact hfit (hmore hnil)

/-- **The commands of a connection** are received as they were sent exactly if their lines
fit, and each parameter that a line does not store is one that an earlier line has left. -/
theorem received_iff {ms : List NetMessage} (hms : ∀ m ∈ ms, m.WellFormed) :
    Received ms ↔ LinesFit ms ∧ Unstale (fun _ => []) ms :=
  receivedFrom_iff hms _

/-- A site is asked for, and then another one; the mode is given both times. -/
def sampleCommands : List NetMessage :=
  [⟨.sendSite, [.string (bytes "h"), .string (bytes "compress")]⟩, ⟨.siteList, [.number 2711]⟩,
    ⟨.sendSite, [.string (bytes "k"), .string (bytes "compress")]⟩, ⟨.quit, []⟩]

theorem sampleCommands_wellFormed : ∀ m ∈ sampleCommands, m.WellFormed := by
  have htoken : ∀ m ∈ sampleCommands, ∀ s ∈ m.texts, IsToken s := by
    simp only [IsToken]
    decide +kernel
  have hparams : ∀ m ∈ sampleCommands, m.command.printed = some (m.params.map NetParam.isNumber) ∧
      ∀ s ∈ m.texts.dropLast, s ≠ [] := by decide +kernel
  exact fun m hm => ⟨(hparams m hm).1, htoken m hm, (hparams m hm).2⟩

theorem received_sampleCommands : Received sampleCommands := by
  refine (received_iff sampleCommands_wellFormed).mpr ⟨?_, ?_⟩
  · simp only [sampleCommands, LinesFit]
    decide +kernel
  · simp only [sampleCommands, Unstale]
    decide +kernel

/-- A site is asked for without a mode, after one that was asked for with it. -/
theorem not_received : (∀ m ∈ [(⟨.sendSite, [.string (bytes "h"), .string (bytes "compress")]⟩ : NetMessage),
      ⟨.sendSite, [.string (bytes "k"), .string []]⟩], m.WellFormed) ∧
    ¬ Received [⟨.sendSite, [.string (bytes "h"), .string (bytes "compress")]⟩,
      ⟨.sendSite, [.string (bytes "k"), .string []]⟩] := by
  have htoken : ∀ m ∈ [(⟨.sendSite, [.string (bytes "h"), .string (bytes "compress")]⟩ : NetMessage),
      ⟨.sendSite, [.string (bytes "k"), .string []]⟩], ∀ s ∈ m.texts, IsToken s := by
    simp only [IsToken]
    decide +kernel
  have hparams : ∀ m ∈ [(⟨.sendSite, [.string (bytes "h"), .string (bytes "compress")]⟩ : NetMessage),
      ⟨.sendSite, [.string (bytes "k"), .string []]⟩],
      m.command.printed = some (m.params.map NetParam.isNumber) ∧
        ∀ s ∈ m.texts.dropLast, s ≠ [] := by decide +kernel
  refine ⟨fun m hm => ⟨(hparams m hm).1, htoken m hm, (hparams m hm).2⟩, ?_⟩
  intro hreceived
  obtain ⟨-, hstale⟩ := (receivedFrom_iff
    (fun m hm => ⟨(hparams m hm).1, htoken m hm, (hparams m hm).2⟩) _).mp hreceived
  revert hstale
  simp only [Unstale]
  decide +kernel

end Archie
