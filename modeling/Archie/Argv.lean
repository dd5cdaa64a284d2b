/-
Command lines split into words (`argvify` of `libparchie/argv.c`).

* `argvStep`, `argvify` — the scanner, over strings that move as they grow.
* `Token`, `LineTokens`, `wordsOf` — the grammar of a command line.
* `wordStep`, `HoldsScan` — the scanner without its memory, and that it is represented by the other.
* `LineTokens.scansTo`, `IsClosed.exists_tokens` — what the scanner makes of a command line.
* `argvify_words` — the words, and the words of a line in which strings are quoted.
-/
import Archie.CText
import Archie.NewStr
import Archie.Rmem

namespace Archie

/-! ### The scanner -/

/-- `State`. -/
inductive AvState
  | outStr
  | inStr
  | inQuote
  | qInStr
  | qInQuote
  | done
  | error
  deriving DecidableEq

/-- The variables of `argvify`, with the memory of the strings; `av` holds their addresses. -/
structure ArgvScan where
  state : AvState
  heap : Heap UInt8
  s : Option ℕ
  av : Rmem ℕ

/-- The state is changed before the call, or after it. -/
def ArgvScan.goto (a : ArgvScan) (state : AvState) : ArgvScan := { a with state }

/-- `new_str`, with `INIT_STR_ELTS`. -/
def ArgvScan.newStr (a : ArgvScan) : ArgvScan :=
  { a with heap := (a.heap.malloc 32).1, s := some (a.heap.malloc 32).2 }

/-- `insert_char`; none, if `s` is no string that is allocated. -/
def ArgvScan.insertChar (c : UInt8) (a : ArgvScan) : Option ArgvScan := do
  let (heap, ts) ← a.heap.append (← a.s) c
  return { a with heap, s := some ts }

/-- `end_current_str`, which leaves `s` as it was. -/
def ArgvScan.endCurrentStr (a : ArgvScan) : Option ArgvScan := do
  let (heap, ts) ← a.heap.append (← a.s) 0
  return { a with heap, av := a.av.append ts }

/-- A round of the loop, at a character of the string or its NUL. -/
def argvStep (c : UInt8) (a : ArgvScan) : Option ArgvScan :=
  match a.state with
  | .outStr =>
    if isBlankChar c then some a
    else if c = 92 then some (a.goto .qInStr).newStr
    else if c = 34 then some (a.goto .inQuote).newStr
    else if c = 0 then some (a.goto .done)
    else (a.goto .inStr).newStr.insertChar c
  | .inStr =>
    if isBlankChar c then (a.goto .outStr).endCurrentStr
    else if c = 92 then some (a.goto .qInStr)
    else if c = 34 then some (a.goto .inQuote)
    else if c = 0 then (a.goto .done).endCurrentStr
    else (a.goto .inStr).insertChar c
  | .inQuote =>
    if c = 92 then some (a.goto .qInQuote)
    else if c = 34 then some (a.goto .inStr)
    else if c = 0 then some (a.goto .error)
    else (a.goto .inQuote).insertChar c
  | .qInStr => if c = 0 then some (a.goto .error) else (a.goto .inStr).insertChar c
  | .qInQuote => if c = 0 then some (a.goto .error) else (a.goto .inQuote).insertChar c
  | .done => some a
  | .error => some a

/-- The loop, on what is left of the string and its NUL; none, where it reads behind that. -/
def argvLoop : List UInt8 → ArgvScan → Option ArgvScan
  | [], a => if a.state = .done ∨ a.state = .error then some a else none
  | c :: p, a =>
    if a.state = .done ∨ a.state = .error then some a else (argvStep c a).bind (argvLoop p)

/-- A string as it is read. -/
def readString (h : Heap UInt8) (s : ℕ) : Option (List UInt8) := do
  let r ← h.rowAt s
  if 0 ∈ r.mem then some (r.mem.takeWhile (· ≠ 0)) else none

/-- The result of `argvify`, `*argc`, and the strings of `*argv`. -/
structure ArgvResult where
  ret : ℤ
  argc : ℤ
  argv : List (List UInt8)
  deriving DecidableEq

/-- `argvfree`, for the strings. -/
def freeStrings : List ℕ → Heap UInt8 → Option (Heap UInt8)
  | [], h => some h
  | s :: av, h => (h.free s).bind (freeStrings av)

/-- What follows the loop; none, if a string is freed twice, or read but not allocated. -/
def argvEnd (a : ArgvScan) : Option ArgvResult :=
  match a.state with
  | .done => do return ⟨1, a.av.lastIndex + 1, ← a.av.mem.mapM (readString a.heap)⟩
  | .error => do
    let heap ← match a.s with
      | some s => a.heap.free s
      | none => some a.heap
    let _ ← freeStrings a.av.mem heap
    return ⟨0, 0, []⟩
  | _ => some ⟨0, 0, []⟩

/-- `argvify`; `INIT_ARGV_ELTS` is 16. -/
def argvify (str : List UInt8) : Option ArgvResult :=
  (argvLoop (str ++ [0]) ⟨.outStr, [], none, Rmem.malloc ℕ 16⟩).bind argvEnd

/-! ### The grammar -/

/-- A blank that separates words, or a part of a word with the characters that it stands for. -/
inductive Token
  | blank
  | part (chars : List UInt8)
  deriving DecidableEq

/-- Text between quotes, with the characters that it stands for. -/
inductive QuotedText : List UInt8 → List UInt8 → Prop
  | nil : QuotedText [] []
  | char {s w : List UInt8} (c : UInt8) (hc : c ≠ 92 ∧ c ≠ 34) :
    QuotedText s w → QuotedText (c :: s) (c :: w)
  | escape {s w : List UInt8} (c : UInt8) : QuotedText s w → QuotedText (92 :: c :: s) (c :: w)

/-- The tokens of a command line. -/
inductive LineTokens : List UInt8 → List Token → Prop
  | nil : LineTokens [] []
  | blank {t : List UInt8} {toks : List Token} (c : UInt8) (hc : isBlankChar c = true) :
    LineTokens t toks → LineTokens (c :: t) (.blank :: toks)
  | char {t : List UInt8} {toks : List Token} (c : UInt8)
      (hc : isBlankChar c = false ∧ c ≠ 92 ∧ c ≠ 34) :
    LineTokens t toks → LineTokens (c :: t) (.part [c] :: toks)
  | escape {t : List UInt8} {toks : List Token} (c : UInt8) :
    LineTokens t toks → LineTokens (92 :: c :: t) (.part [c] :: toks)
  | quotes {s w t : List UInt8} {toks : List Token} (h : QuotedText s w) :
    LineTokens t toks → LineTokens (34 :: s ++ 34 :: t) (.part w :: toks)

/-- What a token adds to a word. -/
def Token.chars : Token → List UInt8
  | .blank => []
  | .part chars => chars

/-- The words of the groups of parts between blanks. -/
def groupWords (groups : List (List Token)) : List (List UInt8) :=
  (groups.filter (· ≠ [])).map fun g => (g.map Token.chars).flatten

/-- Adjacent parts join. -/
def wordsOf (toks : List Token) : List (List UInt8) := groupWords (toks.splitOnP (· = .blank))

/-- Whether text ends inside of quotes, and right after a backslash that is not escaped. -/
def openMarks : Bool × Bool → UInt8 → Bool × Bool
  | (quotes, true), _ => (quotes, false)
  | (quotes, false), c =>
    if c = 92 then (quotes, true) else if c = 34 then (!quotes, false) else (quotes, false)

/-- Neither is the case for a string. -/
def IsClosed (str : List UInt8) : Prop := str.foldl openMarks (false, false) = (false, false)

instance (str : List UInt8) : Decidable (IsClosed str) := by unfold IsClosed; infer_instance

/-- A string in quotes, in which its quotes and backslashes are escaped. -/
def quoteWord (w : List UInt8) : List UInt8 :=
  34 :: w.flatMap (fun c => if c = 92 ∨ c = 34 then [92, c] else [c]) ++ [34]

/-- Strings joined with blanks. -/
def joinWords (ws : List (List UInt8)) : List UInt8 := [32].intercalate (ws.map quoteWord)

/-! ### The scanner without its memory -/

/-- The state, the characters of the word that is read, and the words before it. -/
structure WordScan where
  state : AvState
  cur : List UInt8
  words : List (List UInt8)

/-- A round of the loop. -/
def wordStep (w : WordScan) (c : UInt8) : WordScan :=
  match w.state with
  | .outStr =>
    if isBlankChar c then w
    else if c = 92 then ⟨.qInStr, [], w.words⟩
    else if c = 34 then ⟨.inQuote, [], w.words⟩
    else if c = 0 then { w with state := .done }
    else ⟨.inStr, [c], w.words⟩
  | .inStr =>
    if isBlankChar c then ⟨.outStr, w.cur, w.words ++ [w.cur]⟩
    else if c = 92 then { w with state := .qInStr }
    else if c = 34 then { w with state := .inQuote }
    else if c = 0 then ⟨.done, w.cur, w.words ++ [w.cur]⟩
    else ⟨.inStr, w.cur ++ [c], w.words⟩
  | .inQuote =>
    if c = 92 then { w with state := .qInQuote }
    else if c = 34 then { w with state := .inStr }
    else if c = 0 then { w with state := .error }
    else ⟨.inQuote, w.cur ++ [c], w.words⟩
  | .qInStr => if c = 0 then { w with state := .error } else ⟨.inStr, w.cur ++ [c], w.words⟩
  | .qInQuote => if c = 0 then { w with state := .error } else ⟨.inQuote, w.cur ++ [c], w.words⟩
  | .done => w
  | .error => w

/-- The strings of `av` are the words, and no two of them are one. -/
structure OwnsWords (a : ArgvScan) (words : List (List UInt8)) : Prop where
  holds : List.Forall₂ (fun s w => 0 ∉ w ∧ a.heap.Holds s (w ++ [0])) a.av.mem words
  nodup : a.av.mem.Nodup

/-- The string `s` is another one, and has these characters. -/
def OwnsCur (a : ArgvScan) (cur : List UInt8) : Prop :=
  ∃ s, a.s = some s ∧ s ∉ a.av.mem ∧ 0 ∉ cur ∧ a.heap.Holds s cur

/-- A word is read, or was when the string ended. -/
def AvState.inWord : AvState → Bool
  | .outStr => false
  | .done => false
  | _ => true

/-- How the memory holds what is read. -/
structure HoldsScan (a : ArgvScan) (w : WordScan) : Prop where
  state : a.state = w.state
  words : OwnsWords a w.words
  cur : w.state.inWord = true → OwnsCur a w.cur

section

variable {a : ArgvScan} {words : List (List UInt8)} {cur : List UInt8} {c : UInt8}

/-- The words stay, if the memory of their strings does. -/
theorem OwnsWords.frame (h : OwnsWords a words) {a' : ArgvScan} (hav : a'.av = a.av)
    (hheap : ∀ s ∈ a.av.mem, ∀ mem, a.heap.Holds s mem → a'.heap.Holds s mem) :
    OwnsWords a' words := by
  refine ⟨?_, hav ▸ h.nodup⟩
  rw [hav]
  refine List.forall₂_iff_get.mpr ⟨h.holds.length_eq, fun i hi hi' => ?_⟩
  obtain ⟨hzero, hold⟩ := (List.forall₂_iff_get.mp h.holds).2 i hi hi'
  exact ⟨hzero, hheap _ (List.get_mem _ _) _ hold⟩

theorem OwnsWords.exists_holds (h : OwnsWords a words) {s : ℕ} (hs : s ∈ a.av.mem) :
    ∃ mem, a.heap.Holds s mem := by
  obtain ⟨i, hi, rfl⟩ := List.mem_iff_getElem.mp hs
  have hi' : i < words.length := by rwa [← h.holds.length_eq]
  exact ⟨_, ((List.forall₂_iff_get.mp h.holds).2 i hi hi').2⟩

theorem newStr_owns (h : OwnsWords a words) : OwnsWords a.newStr words ∧ OwnsCur a.newStr [] := by
  refine ⟨h.frame rfl fun s _ mem hold => (Heap.malloc_frame hold 32).1,
    (a.heap.malloc 32).2, rfl, fun hmem => ?_, List.not_mem_nil, Heap.malloc_holds a.heap 32⟩
  obtain ⟨mem, hold⟩ := h.exists_holds hmem
  exact (Heap.malloc_frame hold 32).2 rfl

theorem insertChar_owns (h : OwnsWords a words) (hcur : OwnsCur a cur) (hc : c ≠ 0) :
    ∃ a', a.insertChar c = some a' ∧ a'.state = a.state ∧ OwnsWords a' words ∧
      OwnsCur a' (cur ++ [c]) := by
  obtain ⟨s, hs, hnot, hzero, hold⟩ := hcur
  obtain ⟨heap, ts, happend, hnew, hframe⟩ := Heap.append_eq hold c
  have hothers : ∀ t ∈ a.av.mem, t ≠ s := fun t ht heq => hnot (heq ▸ ht)
  refine ⟨{ a with heap, s := some ts }, ?_, rfl,
    h.frame rfl fun t ht mem hmem => (hframe t mem (hothers t ht) hmem).1,
    ts, rfl, fun hmem => ?_, ?_, hnew⟩
  · simp [ArgvScan.insertChar, hs, happend]
  · obtain ⟨mem, hmem'⟩ := h.exists_holds hmem
    exact (hframe ts mem (hothers ts hmem) hmem').2 rfl
  · rw [List.mem_append, List.mem_singleton]
    exact fun hor => hor.elim hzero (Ne.symm hc)

theorem endCurrentStr_owns (h : OwnsWords a words) (hcur : OwnsCur a cur) :
    ∃ a', a.endCurrentStr = some a' ∧ a'.state = a.state ∧ OwnsWords a' (words ++ [cur]) := by
  obtain ⟨s, hs, hnot, hzero, hold⟩ := hcur
  obtain ⟨heap, ts, happend, hnew, hframe⟩ := Heap.append_eq hold 0
  have hothers : ∀ t ∈ a.av.mem, t ≠ s := fun t ht heq => hnot (heq ▸ ht)
  have hfresh : ts ∉ a.av.mem := by
    intro hmem
    obtain ⟨mem, hmem'⟩ := h.exists_holds hmem
    exact (hframe ts mem (hothers ts hmem) hmem').2 rfl
  have hkept : OwnsWords { a with heap } words :=
    h.frame rfl fun t ht mem hmem => (hframe t mem (hothers t ht) hmem).1
  refine ⟨{ a with heap, av := a.av.append ts }, ?_, rfl, ?_, ?_⟩
  · simp [ArgvScan.endCurrentStr, hs, happend]
  · show List.Forall₂ _ (a.av.append ts).mem _
    rw [Rmem.mem_append]
    exact List.rel_append hkept.holds (.cons ⟨hzero, hnew⟩ .nil)
  · show (a.av.append ts).mem.Nodup
    rw [Rmem.mem_append, List.nodup_append]
    refine ⟨h.nodup, List.nodup_singleton ts, fun t ht u hu heq => hfresh ?_⟩
    rw [← List.mem_singleton.mp hu, ← heq]
    exact ht

/-- The state is changed, and the memory stays. -/
theorem OwnsWords.goto (h : OwnsWords a words) (state : AvState)
    (hcur : state.inWord = true → OwnsCur a cur) : HoldsScan (a.goto state) ⟨state, cur, words⟩ :=
  ⟨rfl, ⟨h.holds, h.nodup⟩, hcur⟩

/-- A word begins. -/
theorem goto_newStr_holdsScan (h : OwnsWords a words) (state : AvState) :
    HoldsScan (a.goto state).newStr ⟨state, [], words⟩ := by
  have hgoto : OwnsWords (a.goto state) words := ⟨h.holds, h.nodup⟩
  obtain ⟨hwords, hcur⟩ := newStr_owns hgoto
  exact ⟨rfl, hwords, fun _ => hcur⟩

/-- A character is stored. -/
theorem goto_insertChar_holdsScan (h : OwnsWords a words) (hcur : OwnsCur a cur) (hc : c ≠ 0)
    (state : AvState) :
    ∃ a', (a.goto state).insertChar c = some a' ∧ HoldsScan a' ⟨state, cur ++ [c], words⟩ := by
  have hgoto : OwnsWords (a.goto state) words := ⟨h.holds, h.nodup⟩
  obtain ⟨a', heq, hstate, hwords, hcur⟩ := insertChar_owns hgoto
    (show OwnsCur (a.goto state) cur from hcur) hc
  exact ⟨a', heq, hstate, hwords, fun _ => hcur⟩

/-- A word ends. -/
theorem goto_endCurrentStr_holdsScan (h : OwnsWords a words) (hcur : OwnsCur a cur)
    {state : AvState} (hstate : state.inWord = false) :
    ∃ a', (a.goto state).endCurrentStr = some a' ∧
      HoldsScan a' ⟨state, cur, words ++ [cur]⟩ := by
  have hgoto : OwnsWords (a.goto state) words := ⟨h.holds, h.nodup⟩
  obtain ⟨a', heq, hstate', hwords⟩ := endCurrentStr_owns hgoto
    (show OwnsCur (a.goto state) cur from hcur)
  exact ⟨a', heq, hstate', hwords, fun hin => absurd (hin.symm.trans hstate) Bool.noConfusion⟩

end

/-- **A round of the loop**, and the same round without the memory. -/
theorem HoldsScan.step {a : ArgvScan} {w : WordScan} (h : HoldsScan a w) (c : UInt8) :
    ∃ a', argvStep c a = some a' ∧ HoldsScan a' (wordStep w c) := by
  obtain ⟨hstate, hwords, hcur⟩ := h
  obtain ⟨state, cur, words⟩ := w
  obtain rfl : a.state = state := hstate
  rw [argvStep, wordStep]
  cases hs : a.state with
  | outStr =>
    simp only
    split_ifs with hblank hback hquote hnul
    · exact ⟨a, rfl, hs, hwords, fun hin => Bool.noConfusion hin⟩
    · exact ⟨_, rfl, goto_newStr_holdsScan hwords _⟩
    · exact ⟨_, rfl, goto_newStr_holdsScan hwords _⟩
    · exact ⟨_, rfl, hwords.goto _ fun hin => Bool.noConfusion hin⟩
    · -- A word begins with its first character.
      have hbegin := goto_newStr_holdsScan hwords .inStr
      exact goto_insertChar_holdsScan hbegin.words (hbegin.cur rfl) hnul .inStr
  | inStr =>
    have hcur := hcur (by rw [hs]; rfl)
    simp only
    split_ifs with hblank hback hquote hnul
    · exact goto_endCurrentStr_holdsScan hwords hcur rfl
    · exact ⟨_, rfl, hwords.goto _ fun _ => hcur⟩
    · exact ⟨_, rfl, hwords.goto _ fun _ => hcur⟩
    · exact goto_endCurrentStr_holdsScan hwords hcur rfl
    · exact goto_insertChar_holdsScan hwords hcur hnul _
  | inQuote =>
    have hcur := hcur (by rw [hs]; rfl)
    simp only
    split_ifs with hback hquote hnul
    · exact ⟨_, rfl, hwords.goto _ fun _ => hcur⟩
    · exact ⟨_, rfl, hwords.goto _ fun _ => hcur⟩
    · exact ⟨_, rfl, hwords.goto _ fun _ => hcur⟩
    · exact goto_insertChar_holdsScan hwords hcur hnul _
  | qInStr =>
    have hcur := hcur (by rw [hs]; rfl)
    simp only
    split_ifs with hnul
    · exact ⟨_, rfl, hwords.goto _ fun _ => hcur⟩
    · exact goto_insertChar_holdsScan hwords hcur hnul _
  | qInQuote =>
    have hcur := hcur (by rw [hs]; rfl)
    simp only
    split_ifs with hnul
    · exact ⟨_, rfl, hwords.goto _ fun _ => hcur⟩
    · exact goto_insertChar_holdsScan hwords hcur hnul _
  | done => exact ⟨a, rfl, hs, hwords, fun hin => Bool.noConfusion hin⟩
  | error => exact ⟨a, rfl, hs, hwords, fun _ => hcur (by rw [hs]; rfl)⟩

/-! ### The loop and what follows it -/

/-- The loop goes on. -/
def AvState.running : AvState → Bool
  | .done => false
  | .error => false
  | _ => true

theorem AvState.running_iff {state : AvState} :
    state.running = true ↔ ¬ (state = .done ∨ state = .error) := by
  cases state <;> decide

theorem wordStep_running {w : WordScan} (h : w.state.running = true) {c : UInt8} (hc : c ≠ 0) :
    (wordStep w c).state.running = true := by
  obtain ⟨state, cur, words⟩ := w
  cases state with
  | done => exact h
  | error => exact h
  | qInStr =>
    simp only [wordStep, hc, if_false]
    rfl
  | qInQuote =>
    simp only [wordStep, hc, if_false]
    rfl
  | _ =>
    simp only [wordStep, hc, if_false]
    split_ifs <;> rfl

theorem wordStep_nul (w : WordScan) : (wordStep w 0).state.running = false := by
  obtain ⟨state, cur, words⟩ := w
  cases state <;> rfl

/-- **The loop** over a string. -/
theorem argvLoop_holdsScan {str : List UInt8} (hstr : 0 ∉ str) {a : ArgvScan} {w : WordScan}
    (h : HoldsScan a w) (hrun : w.state.running = true) :
    ∃ a', argvLoop (str ++ [0]) a = some a' ∧
      HoldsScan a' (wordStep (str.foldl wordStep w) 0) := by
  induction str generalizing a w with
  | nil =>
    obtain ⟨a', hstep, hrep⟩ := h.step 0
    have hend : ¬ a'.state.running = true := by
      rw [hrep.state, wordStep_nul]
      exact Bool.false_ne_true
    refine ⟨a', ?_, hrep⟩
    rw [List.nil_append, argvLoop, if_neg (by rw [h.state]; exact AvState.running_iff.mp hrun), hstep, Option.bind_some,
      argvLoop, if_pos (not_not.mp (mt AvState.running_iff.mpr hend))]
  | cons c str ih =>
    have hc : c ≠ 0 := fun heq => hstr (heq ▸ List.mem_cons_self)
    obtain ⟨a', hstep, hrep⟩ := h.step c
    obtain ⟨b, hloop, hb⟩ := ih (fun hmem => hstr (List.mem_cons_of_mem c hmem)) hrep
      (wordStep_running hrun hc)
    refine ⟨b, ?_, hb⟩
    rw [List.cons_append, argvLoop, if_neg (by rw [h.state]; exact AvState.running_iff.mp hrun), hstep, Option.bind_some,
      hloop]

theorem readString_eq {h : Heap UInt8} {s : ℕ} {w : List UInt8} (hw : 0 ∉ w)
    (hold : h.Holds s (w ++ [0])) : readString h s = some w := by
  obtain ⟨r, hr, hmem⟩ := hold
  have hall : ∀ c ∈ w, decide (c ≠ 0) = true := fun c hc => decide_eq_true fun heq => hw (heq ▸ hc)
  rw [readString, hr, Option.bind_eq_bind, Option.bind_some, hmem,
    if_pos (List.mem_append_right w List.mem_cons_self), List.takeWhile_append_of_pos hall]
  simp

theorem mapM_readString {h : Heap UInt8} {av : List ℕ} {words : List (List UInt8)}
    (hold : List.Forall₂ (fun s w => 0 ∉ w ∧ h.Holds s (w ++ [0])) av words) :
    av.mapM (readString h) = some words := by
  induction hold with
  | nil => rfl
  | cons hw _ ih =>
    rw [List.mapM_cons, readString_eq hw.1 hw.2, ih]
    rfl

/-- Strings that are allocated, no two of them one, are freed. -/
theorem freeStrings_eq {av : List ℕ} {h : Heap UInt8} (hnodup : av.Nodup)
    (hold : ∀ s ∈ av, ∃ mem, h.Holds s mem) : ∃ h', freeStrings av h = some h' := by
  induction av generalizing h with
  | nil => exact ⟨h, rfl⟩
  | cons s av ih =>
    obtain ⟨hs, hav⟩ := List.nodup_cons.mp hnodup
    obtain ⟨mem, hmem⟩ := hold s List.mem_cons_self
    obtain ⟨h₁, hfree, hframe⟩ := Heap.free_eq hmem
    obtain ⟨h', heq⟩ := @ih h₁ hav fun t ht => by
      obtain ⟨mem', hmem'⟩ := hold t (List.mem_cons_of_mem s ht)
      exact ⟨mem', hframe t mem' (fun hts => hs (hts ▸ ht)) hmem'⟩
    exact ⟨h', by rw [freeStrings, hfree, Option.bind_some, heq]⟩

/-- The result for the words that were read, and where the string has ended too early. -/
def wordsResult (words : List (List UInt8)) : ArgvResult := ⟨1, words.length, words⟩

def failedResult : ArgvResult := ⟨0, 0, []⟩

theorem argvEnd_eq {a : ArgvScan} {w : WordScan} (h : HoldsScan a w)
    (hend : w.state.running = false) :
    argvEnd a = some (if w.state = .done then wordsResult w.words else failedResult) := by
  obtain ⟨hstate, hwords, hcur⟩ := h
  rcases not_not.mp (mt AvState.running_iff.mpr (by rw [hend]; exact Bool.false_ne_true))
    with hdone | herror
  · have hargc : a.av.lastIndex + 1 = w.words.length := by
      rw [Rmem.lastIndex, hwords.holds.length_eq, Int.sub_add_cancel]
    rw [argvEnd, hstate, hdone]
    simp only [mapM_readString hwords.holds, Option.bind_eq_bind, Option.bind_some, if_true, hargc]
    rfl
  · obtain ⟨s, hs, hnot, -, hold⟩ := hcur (by rw [herror]; rfl)
    obtain ⟨h₁, hfree, hframe⟩ := Heap.free_eq hold
    obtain ⟨h₂, hstrings⟩ := freeStrings_eq (h := h₁) hwords.nodup fun t ht => by
      obtain ⟨mem, hmem⟩ := hwords.exists_holds ht
      exact ⟨mem, hframe t mem (fun hts => hnot (hts ▸ ht)) hmem⟩
    rw [argvEnd, hstate, herror]
    simp only [hs, hfree, Option.bind_eq_bind, Option.bind_some, hstrings]
    rfl

/-- The scanner at its start. -/
def WordScan.start : WordScan := ⟨.outStr, [], []⟩

/-- **The function** is the scanner without its memory. -/
theorem argvify_eq {str : List UInt8} (hstr : 0 ∉ str) :
    argvify str = some (if (wordStep (str.foldl wordStep .start) 0).state = .done then
      wordsResult (wordStep (str.foldl wordStep .start) 0).words else failedResult) := by
  have hstart : HoldsScan ⟨.outStr, [], none, Rmem.malloc ℕ 16⟩ .start :=
    ⟨rfl, ⟨.nil, List.nodup_nil⟩, fun hin => Bool.noConfusion hin⟩
  have hrun : WordScan.start.state.running = true := rfl
  obtain ⟨a, hloop, hrep⟩ := argvLoop_holdsScan hstr hstart hrun
  rw [argvify, hloop, Option.bind_some, argvEnd_eq hrep (wordStep_nul _)]

/-! ### The scanner on a line of the grammar -/

section

variable {s u t : List UInt8} {toks : List Token} {cur : List UInt8} {words : List (List UInt8)}
  {c : UInt8}

theorem wordStep_quote_char (hc : c ≠ 92 ∧ c ≠ 34) (h0 : c ≠ 0) :
    wordStep ⟨.inQuote, cur, words⟩ c = ⟨.inQuote, cur ++ [c], words⟩ := by
  simp only [wordStep, hc, h0, if_false]

/-- Between quotes. -/
theorem QuotedText.scan (h : QuotedText s u) (hs : 0 ∉ s) (cur : List UInt8) :
    s.foldl wordStep ⟨.inQuote, cur, words⟩ = ⟨.inQuote, cur ++ u, words⟩ := by
  induction h generalizing cur with
  | nil => rw [List.append_nil]; rfl
  | char c hc _ ih =>
    rw [List.mem_cons, not_or] at hs
    rw [List.foldl_cons, wordStep_quote_char hc (Ne.symm hs.1), ih hs.2, List.append_assoc,
      List.singleton_append]
  | escape c _ ih =>
    simp only [List.mem_cons, not_or] at hs
    have hesc : wordStep (wordStep ⟨.inQuote, cur, words⟩ 92) c =
        ⟨.inQuote, cur ++ [c], words⟩ := by
      show (if c = 0 then _ else _) = _
      rw [if_neg (Ne.symm hs.2.1)]
      rfl
    rw [List.foldl_cons, List.foldl_cons, hesc, ih hs.2.2, List.append_assoc,
      List.singleton_append]

/-- Text that is part of a word: the characters are added to the word, or begin one. -/
structure IsPart (s u : List UInt8) : Prop where
  out : ∀ cur words, s.foldl wordStep ⟨.outStr, cur, words⟩ = ⟨.inStr, u, words⟩
  inside : ∀ cur words, s.foldl wordStep ⟨.inStr, cur, words⟩ = ⟨.inStr, cur ++ u, words⟩

theorem isPart_char (hc : isBlankChar c = false ∧ c ≠ 92 ∧ c ≠ 34) (h0 : c ≠ 0) :
    IsPart [c] [c] := by
  constructor <;> intro cur words <;>
    simp only [List.foldl_cons, List.foldl_nil, wordStep, hc, h0, if_false, Bool.false_eq_true]

theorem isPart_escape (h0 : c ≠ 0) : IsPart [92, c] [c] := by
  constructor <;> intro cur words
  · show (if c = 0 then _ else _) = _
    rw [if_neg h0]
    rfl
  · show (if c = 0 then _ else _) = _
    rw [if_neg h0]
    rfl

theorem isPart_quotes (h : QuotedText s u) (hs : 0 ∉ s) : IsPart (34 :: s ++ [34]) u := by
  constructor <;> intro cur words
  · rw [List.cons_append, List.foldl_cons, List.foldl_append]
    show [34].foldl wordStep (s.foldl wordStep ⟨.inQuote, [], words⟩) = _
    rw [h.scan hs, List.nil_append]
    rfl
  · rw [List.cons_append, List.foldl_cons, List.foldl_append]
    show [34].foldl wordStep (s.foldl wordStep ⟨.inQuote, cur, words⟩) = _
    rw [h.scan hs]
    rfl

/-- The words that are read, unless a string ends here too early. -/
def WordScan.finish (w : WordScan) : Option (List (List UInt8)) :=
  match w.state with
  | .outStr => some w.words
  | .inStr => some (w.words ++ [w.cur])
  | _ => none

/-- What the scanner makes of the text of tokens, outside of a word and inside. -/
structure ScansTo (t : List UInt8) (toks : List Token) : Prop where
  out : ∀ cur words, (t.foldl wordStep ⟨.outStr, cur, words⟩).finish =
    some (words ++ wordsOf toks)
  inside : ∀ cur words g gs, toks.splitOnP (· = .blank) = g :: gs →
    (t.foldl wordStep ⟨.inStr, cur, words⟩).finish =
      some (words ++ (cur ++ (g.map Token.chars).flatten) :: groupWords gs)

theorem splitOnP_part (v : List UInt8) (toks : List Token) {g : List Token}
    {gs : List (List Token)} (h : toks.splitOnP (· = .blank) = g :: gs) :
    (Token.part v :: toks).splitOnP (· = .blank) = (.part v :: g) :: gs := by
  rw [List.splitOnP_cons_eq_if_modifyHead, if_neg (by simp), h]
  rfl

theorem splitOnP_blank (toks : List Token) :
    (Token.blank :: toks).splitOnP (· = .blank) = [] :: toks.splitOnP (· = .blank) := by
  rw [List.splitOnP_cons_eq_if_modifyHead, if_pos (by simp)]

theorem exists_splitOnP (toks : List Token) : ∃ g gs, toks.splitOnP (· = .blank) = g :: gs :=
  List.exists_cons_of_ne_nil (List.splitOnP_ne_nil _ _)

/-- Another part. -/
theorem ScansTo.part (h : ScansTo t toks) (hpart : IsPart s u) :
    ScansTo (s ++ t) (.part u :: toks) := by
  obtain ⟨g, gs, hsplit⟩ := exists_splitOnP toks
  have hcons := splitOnP_part u toks hsplit
  constructor
  · intro cur words
    rw [List.foldl_append, hpart.out, h.inside u words g gs hsplit, wordsOf, hcons]
    rfl
  · intro cur words g' gs' hsplit'
    obtain ⟨rfl, rfl⟩ := List.cons.inj (hcons.symm.trans hsplit')
    rw [List.foldl_append, hpart.inside, h.inside (cur ++ u) words g gs hsplit, List.map_cons,
      List.flatten_cons, ← List.append_assoc]
    rfl

/-- Another blank. -/
theorem ScansTo.blank (h : ScansTo t toks) (hc : isBlankChar c = true) :
    ScansTo (c :: t) (.blank :: toks) := by
  constructor
  · intro cur words
    have hstep : wordStep ⟨.outStr, cur, words⟩ c = ⟨.outStr, cur, words⟩ := by
      simp only [wordStep, hc, if_true]
    rw [List.foldl_cons, hstep, h.out, wordsOf, wordsOf, splitOnP_blank]
    rfl
  · intro cur words g gs hsplit
    have hstep : wordStep ⟨.inStr, cur, words⟩ c = ⟨.outStr, cur, words ++ [cur]⟩ := by
      simp only [wordStep, hc, if_true]
    rw [splitOnP_blank] at hsplit
    obtain ⟨rfl, rfl⟩ := List.cons.inj hsplit
    rw [List.foldl_cons, hstep, h.out, List.map_nil, List.flatten_nil, List.append_nil,
      List.append_assoc]
    rfl

/-- **A line of the grammar** is split into its words. -/
theorem LineTokens.scansTo (h : LineTokens t toks) (ht : 0 ∉ t) : ScansTo t toks := by
  induction h with
  | nil =>
    constructor
    · intro cur words
      exact congrArg some (List.append_nil words).symm
    · intro cur words g gs hsplit
      obtain ⟨rfl, rfl⟩ := List.cons.inj (List.splitOnP_nil.symm.trans hsplit)
      exact congrArg (fun w => some (words ++ [w])) (List.append_nil cur).symm
  | blank c hc _ ih => exact (ih fun h => ht (List.mem_cons_of_mem c h)).blank hc
  | char c hc _ ih =>
    rw [List.mem_cons, not_or] at ht
    exact (ih ht.2).part (isPart_char hc (Ne.symm ht.1))
  | escape c _ ih =>
    simp only [List.mem_cons, not_or] at ht
    exact (ih ht.2.2).part (isPart_escape (Ne.symm ht.2.1))
  | @quotes s w t toks hquoted _ ih =>
    have hs : 0 ∉ s := fun h => ht (List.mem_append_left _ (List.mem_cons_of_mem 34 h))
    have ht' : 0 ∉ t := fun h => ht (List.mem_append_right _ (List.mem_cons_of_mem 34 h))
    have hpart := (ih ht').part (isPart_quotes hquoted hs)
    rwa [List.append_assoc] at hpart

end

/-! ### Lines that are closed -/

/-- What is left of a closed line, where these marks are left open before it. -/
def Closes : Bool × Bool → List UInt8 → Prop
  | (false, false), t => ∃ toks, LineTokens t toks
  | (false, true), t => ∃ c t' toks, t = c :: t' ∧ LineTokens t' toks
  | (true, false), t => ∃ s u t' toks, t = s ++ 34 :: t' ∧ QuotedText s u ∧ LineTokens t' toks
  | (true, true), t =>
    ∃ c s u t' toks, t = c :: (s ++ 34 :: t') ∧ QuotedText s u ∧ LineTokens t' toks

theorem closes_of_foldl {t : List UInt8} {m : Bool × Bool}
    (h : t.foldl openMarks m = (false, false)) : Closes m t := by
  induction t generalizing m with
  | nil =>
    obtain rfl : m = (false, false) := h
    exact ⟨[], .nil⟩
  | cons c t ih =>
    have hrest := ih (m := openMarks m c) h
    match m with
    | (false, false) =>
      by_cases hback : c = 92
      · subst hback
        obtain ⟨c, t', toks, rfl, htoks⟩ := hrest
        exact ⟨_, .escape c htoks⟩
      by_cases hquote : c = 34
      · subst hquote
        obtain ⟨s, u, t', toks, rfl, hs, htoks⟩ := hrest
        exact ⟨_, .quotes hs htoks⟩
      have hmarks : openMarks (false, false) c = (false, false) := by
        simp only [openMarks, hback, hquote, if_false]
      rw [hmarks] at hrest
      obtain ⟨toks, htoks⟩ := hrest
      cases hblank : isBlankChar c with
      | true => exact ⟨_, .blank c hblank htoks⟩
      | false => exact ⟨_, .char c ⟨hblank, hback, hquote⟩ htoks⟩
    | (false, true) =>
      obtain ⟨toks, htoks⟩ := hrest
      exact ⟨c, t, toks, rfl, htoks⟩
    | (true, false) =>
      by_cases hback : c = 92
      · subst hback
        obtain ⟨c, s, u, t', toks, rfl, hs, htoks⟩ := hrest
        exact ⟨92 :: c :: s, _, t', toks, rfl, .escape c hs, htoks⟩
      by_cases hquote : c = 34
      · subst hquote
        obtain ⟨toks, htoks⟩ := hrest
        exact ⟨[], [], t, toks, rfl, .nil, htoks⟩
      have hmarks : openMarks (true, false) c = (true, false) := by
        simp only [openMarks, hback, hquote, if_false]
      rw [hmarks] at hrest
      obtain ⟨s, u, t', toks, rfl, hs, htoks⟩ := hrest
      exact ⟨c :: s, _, t', toks, rfl, .char c ⟨hback, hquote⟩ hs, htoks⟩
    | (true, true) =>
      obtain ⟨s, u, t', toks, rfl, hs, htoks⟩ := hrest
      exact ⟨c, s, u, t', toks, rfl, hs, htoks⟩

/-- A closed string is a line of the grammar. -/
theorem IsClosed.exists_tokens {str : List UInt8} (h : IsClosed str) :
    ∃ toks, LineTokens str toks := closes_of_foldl h

/-- The marks that are open in a state. -/
def AvState.marks : AvState → Bool × Bool
  | .inQuote => (true, false)
  | .qInStr => (false, true)
  | .qInQuote => (true, true)
  | _ => (false, false)

theorem marks_wordStep {w : WordScan} (hrun : w.state.running = true) {c : UInt8} (hc : c ≠ 0) :
    (wordStep w c).state.marks = openMarks w.state.marks c := by
  obtain ⟨state, cur, words⟩ := w
  have hblank : isBlankChar c = true → c ≠ 92 ∧ c ≠ 34 := by
    intro h
    rcases (Bool.or_eq_true _ _).mp h with h | h <;> rw [beq_iff_eq.mp h] <;> decide
  cases state with
  | outStr =>
    by_cases hb : isBlankChar c = true
    · simp only [wordStep, hb, if_true, AvState.marks, openMarks, (hblank hb).1, (hblank hb).2,
        if_false]
    · simp only [wordStep, hb, hc, AvState.marks, openMarks, if_false, Bool.false_eq_true]
      split_ifs <;> rfl
  | inStr =>
    by_cases hb : isBlankChar c = true
    · simp only [wordStep, hb, if_true, AvState.marks, openMarks, (hblank hb).1, (hblank hb).2,
        if_false]
    · simp only [wordStep, hb, hc, AvState.marks, openMarks, if_false, Bool.false_eq_true]
      split_ifs <;> rfl
  | inQuote =>
    simp only [wordStep, AvState.marks, openMarks]
    simp only [hc, if_false]
    split_ifs <;> rfl
  | qInStr =>
    simp only [wordStep, if_neg hc]
    rfl
  | qInQuote =>
    simp only [wordStep, if_neg hc]
    rfl
  | done => exact Bool.noConfusion hrun
  | error => exact Bool.noConfusion hrun

theorem marks_foldl {str : List UInt8} (hstr : 0 ∉ str) {w : WordScan}
    (hrun : w.state.running = true) :
    (str.foldl wordStep w).state.running = true ∧
      (str.foldl wordStep w).state.marks = str.foldl openMarks w.state.marks := by
  induction str generalizing w with
  | nil => exact ⟨hrun, rfl⟩
  | cons c str ih =>
    rw [List.mem_cons, not_or] at hstr
    have hc : c ≠ 0 := Ne.symm hstr.1
    rw [List.foldl_cons, List.foldl_cons, ← marks_wordStep hrun hc]
    exact ih hstr.2 (wordStep_running hrun hc)

/-- The NUL. -/
theorem wordStep_zero {w : WordScan} (hrun : w.state.running = true) :
    (if (wordStep w 0).state = .done then wordsResult (wordStep w 0).words else failedResult) =
      (w.finish.map wordsResult).getD failedResult ∧
    (w.finish.isSome = true ↔ w.state.marks = (false, false)) := by
  obtain ⟨state, cur, words⟩ := w
  cases state with
  | done => exact Bool.noConfusion hrun
  | error => exact Bool.noConfusion hrun
  | outStr => exact ⟨rfl, iff_of_true rfl rfl⟩
  | inStr => exact ⟨rfl, iff_of_true rfl rfl⟩
  | inQuote => exact ⟨rfl, iff_of_false Bool.false_ne_true
    (by decide : (true, false) ≠ (false, false))⟩
  | qInStr => exact ⟨rfl, iff_of_false Bool.false_ne_true
    (by decide : (false, true) ≠ (false, false))⟩
  | qInQuote => exact ⟨rfl, iff_of_false Bool.false_ne_true
    (by decide : (true, true) ≠ (false, false))⟩

/-- **The function on a string**, that is closed and has these tokens, or is not closed. -/
theorem argvify_tokens {str : List UInt8} (hstr : 0 ∉ str) :
    (∀ toks, LineTokens str toks → argvify str = some (wordsResult (wordsOf toks))) ∧
    (¬ IsClosed str → argvify str = some failedResult) := by
  obtain ⟨hrun, hmarks⟩ := marks_foldl hstr (w := .start) rfl
  obtain ⟨hres, hsome⟩ := wordStep_zero hrun
  constructor
  · intro toks htoks
    have hfinish : (str.foldl wordStep .start).finish = some ([] ++ wordsOf toks) :=
      (htoks.scansTo hstr).out [] []
    rw [argvify_eq hstr, hres, hfinish]
    rfl
  · intro hopen
    have hnone : ¬ (str.foldl wordStep .start).finish.isSome = true := by
      rw [hsome, hmarks]
      exact hopen
    rw [argvify_eq hstr, hres, Option.not_isSome_iff_eq_none.mp hnone]
    rfl

/-! ### Strings in quotes -/

theorem quotedText_escaped (w : List UInt8) :
    QuotedText (w.flatMap fun c => if c = 92 ∨ c = 34 then [92, c] else [c]) w := by
  induction w with
  | nil => exact .nil
  | cons c w ih =>
    rw [List.flatMap_cons]
    split
    next => exact .escape c ih
    next hc => exact .char c (not_or.mp hc) ih

theorem wordsOf_part_blank (w : List UInt8) (toks : List Token) :
    wordsOf (.part w :: .blank :: toks) = w :: wordsOf toks := by
  rw [wordsOf, splitOnP_part w _ (splitOnP_blank toks)]
  show [w].flatten :: _ = _
  rw [List.flatten_singleton]
  rfl

/-- **The line of quoted strings** has them as its words. -/
theorem joinWords_tokens (ws : List (List UInt8)) :
    ∃ toks, LineTokens (joinWords ws) toks ∧ wordsOf toks = ws := by
  induction ws with
  | nil => exact ⟨[], .nil, rfl⟩
  | cons w ws ih =>
    cases ws with
    | nil =>
      refine ⟨[.part w], ?_, ?_⟩
      · have hquotes := LineTokens.quotes (quotedText_escaped w) .nil
        show LineTokens [quoteWord w].flatten _
        rwa [List.flatten_singleton]
      · show [[w].flatten] = [w]
        rw [List.flatten_singleton]
    | cons v ws =>
      obtain ⟨toks, htoks, hwords⟩ := ih
      refine ⟨.part w :: .blank :: toks, ?_, by rw [wordsOf_part_blank, hwords]⟩
      have hquotes := LineTokens.quotes (quotedText_escaped w) (.blank 32 rfl htoks)
      have hline : joinWords (w :: v :: ws) = quoteWord w ++ 32 :: joinWords (v :: ws) := rfl
      rw [hline, quoteWord, List.append_assoc]
      exact hquotes

theorem not_mem_joinWords {ws : List (List UInt8)} (h : ∀ w ∈ ws, 0 ∉ w) : 0 ∉ joinWords ws := by
  have hquote : ∀ w ∈ ws, 0 ∉ quoteWord w := by
    intro w hw hmem
    rw [quoteWord, List.mem_append, List.mem_cons, List.mem_flatMap] at hmem
    rcases hmem with (h0 | ⟨c, hc, hmem⟩) | h0
    · exact absurd h0 (by decide)
    · have hcne : (0 : UInt8) ≠ c := fun heq => h w hw (heq ▸ hc)
      split at hmem <;> simp [hcne] at hmem
    · exact absurd h0 (by decide)
  induction ws with
  | nil => exact List.not_mem_nil
  | cons w ws ih =>
    have hw := hquote w List.mem_cons_self
    cases ws with
    | nil =>
      show 0 ∉ [quoteWord w].flatten
      rwa [List.flatten_singleton]
    | cons v ws =>
      have hline : joinWords (w :: v :: ws) = quoteWord w ++ 32 :: joinWords (v :: ws) := rfl
      rw [hline, List.mem_append, List.mem_cons, not_or, not_or]
      exact ⟨hw, by decide, ih (fun x hx => h x (List.mem_cons_of_mem w hx))
        fun x hx => hquote x (List.mem_cons_of_mem w hx)⟩

/-- **Command lines are split** into the words of the grammar, unless a string ends inside quotes or
after a backslash that is not escaped; strings that are quoted and joined are split again. -/
theorem argvify_words :
    (∀ str : CString, ∃ r, argvify str.1 = some r ∧ (r.ret = 1 ↔ IsClosed str.1) ∧
      (¬ IsClosed str.1 → r = ⟨0, 0, []⟩) ∧
      ∀ ws, (∃ toks, LineTokens str.1 toks ∧ wordsOf toks = ws) ↔ r = ⟨1, ws.length, ws⟩) ∧
    ∀ args : List CString, argvify (joinWords (args.map (·.1))) =
      some ⟨1, args.length, args.map (·.1)⟩ := by
  constructor
  · rintro ⟨str, hstr⟩
    obtain ⟨htokens, hopen⟩ := argvify_tokens hstr
    by_cases hclosed : IsClosed str
    · obtain ⟨toks, htoks⟩ := hclosed.exists_tokens
      have heq := htokens toks htoks
      refine ⟨_, heq, iff_of_true rfl hclosed, fun h => absurd hclosed h, fun ws => ?_⟩
      constructor
      · rintro ⟨toks', htoks', rfl⟩
        exact Option.some.inj (heq.symm.trans (htokens toks' htoks'))
      · intro hws
        exact ⟨toks, htoks, congrArg ArgvResult.argv hws⟩
    · have heq := hopen hclosed
      refine ⟨_, heq, iff_of_false (by decide) hclosed, fun _ => rfl, fun ws => ?_⟩
      constructor
      · rintro ⟨toks, htoks, rfl⟩
        exact Option.some.inj (heq.symm.trans (htokens toks htoks))
      · intro hws
        exact absurd (congrArg ArgvResult.ret hws) (by decide : (0 : ℤ) ≠ 1)
  · intro args
    have hzero : ∀ w ∈ args.map (·.1), 0 ∉ w := by
      intro w hw
      obtain ⟨arg, -, rfl⟩ := List.mem_map.mp hw
      exact arg.2
    obtain ⟨toks, htoks, hwords⟩ := joinWords_tokens (args.map (·.1))
    rw [(argvify_tokens (not_mem_joinWords hzero)).1 toks htoks, hwords, wordsResult,
      List.length_map]

example : argvify (bytes "find a\\ b \"c d\"e \"\"") =
    some ⟨1, 4, [bytes "find", bytes "a b", bytes "c de", []]⟩ := by decide +kernel

end Archie
