/-
Headers of lines `name value` between two marks, as the readers of archie take them:
lines of unknown names and marks that come again are passed over, and of a field that
comes twice the first line counts.

The names of the fields and what a value is stored as are parameters.

* `readFrom_step` — one line after the other, whatever the count of rounds.
* `readFrom_fieldLine` — a line that has been written is read into its field, as far
  as it fits the buffer.
* `readHeader_writeLines` — the lines of a header are read back, and the text after it is left.
* `kept_of_readFrom` — what a line stores is what its field has in the end.
-/
import Archie.CText
import Mathlib.Logic.Function.Basic

namespace Archie

/-- `MAX_ASCII_HEADER_LEN`. -/
def maxAsciiHeaderLen : ℕ := 256

/-- A kind of header: its marks, its fields in the order of their table, the names of
these, and how the argument of a line, or the line itself, is stored.  A field whose argument
makes no sense is not set by it. -/
structure HeaderTable (φ ρ : Type) where
  headerBegin : List UInt8
  headerEnd : List UInt8
  fields : List φ
  field : φ → List UInt8
  store : φ → List UInt8 → List UInt8 → ρ → ρ × Bool

/-- What has been read: whether the header has begun, the fields that are set, the record. -/
structure HeaderState (φ ρ : Type) where
  begun : Bool
  set : φ → Bool
  headerRec : ρ

/-- The state after a line; the header has ended; or it is refused. -/
inductive HeaderLine (φ ρ : Type)
  | next (st : HeaderState φ ρ)
  | finished
  | error

/-- `strncasecmp(s, name, strlen(s))` is 0. -/
def startsWith (s name : List UInt8) : Bool := strncasecmpEq s name s.length

/-- The end of a line, on a network connection and in a file. -/
def lineEnd (netcomm : Bool) : List UInt8 := if netcomm then [13, 10] else [10]

namespace HeaderTable

variable {φ ρ : Type} [DecidableEq φ] (tbl : HeaderTable φ ρ)

/-- An argument for one of the fields. -/
def storeField (inputBuf fieldName arg : List UInt8) (st : HeaderState φ ρ) (x : φ) :
    HeaderState φ ρ :=
  if startsWith (tbl.field x) fieldName then
    if st.set x then st
    else
      let stored := tbl.store x inputBuf arg st.headerRec
      { st with set := Function.update st.set x stored.2, headerRec := stored.1 }
  else st

/-- What is done with a line. -/
def readLine (netcomm : Bool) (inputBuf : List UInt8) (st : HeaderState φ ρ) : HeaderLine φ ρ :=
  match scanWord inputBuf with
  | none => .next st
  | some (fieldName, s) =>
    let arg := ((scanWord s).map Prod.fst).getD []
    if st.begun = false ∧ startsWith tbl.headerBegin fieldName then .next { st with begun := true }
    else if st.begun = false ∧ startsWith tbl.headerEnd fieldName then .error
    else if st.begun = true ∧ startsWith tbl.headerBegin fieldName then .next st
    else if st.begun = true ∧ startsWith tbl.headerEnd fieldName then .finished
    else if arg = [] then .next st
    else
      let arg := if netcomm then arg.takeWhile (· ≠ 13) else arg
      .next (tbl.fields.foldl (tbl.storeField inputBuf fieldName arg) st)

/-- The loop over the lines.  The text after the header is left; none, where there is no end. -/
def readLoop (netcomm : Bool) : ℕ → HeaderState φ ρ → List UInt8 → Option (ρ × List UInt8)
  | 0, _, _ => none
  | fuel + 1, st, text =>
    match fgetsLine maxAsciiHeaderLen text with
    | none => none
    | some (inputBuf, rest) =>
      match tbl.readLine netcomm inputBuf st with
      | .next st => readLoop netcomm fuel st rest
      | .finished => some (st.headerRec, rest)
      | .error => none

/-- The lines of a text, from a given state on. -/
def readFrom (netcomm : Bool) (st : HeaderState φ ρ) (text : List UInt8) :
    Option (ρ × List UInt8) :=
  tbl.readLoop netcomm text.length st text

/-- A header, into a record that is empty at first. -/
def readHeader (netcomm : Bool) (empty : ρ) (text : List UInt8) : Option (ρ × List UInt8) :=
  tbl.readFrom netcomm ⟨false, fun _ => false, empty⟩ text

/-- A line of a header. -/
def fieldLine (netcomm : Bool) (x : φ) (value : List UInt8) : List UInt8 :=
  tbl.field x ++ 32 :: (value ++ lineEnd netcomm)

/-- A header that is written: each field with its value, between the marks. -/
def writeLines (netcomm : Bool) (lines : List (φ × List UInt8)) : List UInt8 :=
  tbl.headerBegin ++ lineEnd netcomm ++ lines.flatMap (fun l => tbl.fieldLine netcomm l.1 l.2) ++
    tbl.headerEnd ++ lineEnd netcomm

/-! ### One line after the other -/

theorem readLoop_eq (netcomm : Bool) {fuel : ℕ} {st : HeaderState φ ρ} {text : List UInt8}
    (h : text.length ≤ fuel) :
    tbl.readLoop netcomm fuel st text = tbl.readFrom netcomm st text := by
  rw [readFrom]
  induction fuel using Nat.strong_induction_on generalizing text st with
  | _ fuel ih =>
    cases hline : fgetsLine maxAsciiHeaderLen text with
    | none => cases fuel <;> cases text <;> simp [readLoop, hline]
    | some p =>
      obtain ⟨inputBuf, rest⟩ := p
      have hrest := length_fgetsLine (by decide) hline
      obtain ⟨f, rfl⟩ : ∃ f, fuel = f + 1 := ⟨fuel - 1, by omega⟩
      obtain ⟨k, hk⟩ : ∃ k, text.length = k + 1 := ⟨text.length - 1, by omega⟩
      rw [hk, readLoop, readLoop, hline]
      dsimp only
      cases tbl.readLine netcomm inputBuf st with
      | next st =>
        dsimp only
        rw [ih f (by omega) (by omega)]
        rcases Nat.lt_or_ge k (f + 1) with hlt | hge
        · rw [ih k hlt (by omega)]
        · omega
      | finished => rfl
      | error => rfl

/-- The next line. -/
theorem readFrom_step (netcomm : Bool) (st : HeaderState φ ρ) {text inputBuf rest : List UInt8}
    (hline : fgetsLine maxAsciiHeaderLen text = some (inputBuf, rest)) :
    tbl.readFrom netcomm st text =
      match tbl.readLine netcomm inputBuf st with
      | .next st => tbl.readFrom netcomm st rest
      | .finished => some (st.headerRec, rest)
      | .error => none := by
  have hrest := length_fgetsLine (by decide) hline
  obtain ⟨k, hk⟩ : ∃ k, text.length = k + 1 := ⟨text.length - 1, by omega⟩
  rw [readFrom, hk, readLoop, hline]
  dsimp only
  cases tbl.readLine netcomm inputBuf st with
  | next st => exact tbl.readLoop_eq netcomm (by omega)
  | finished => rfl
  | error => rfl

/-! ### A line that has been written -/

/-- The names are words of which none begins another one, and they leave room in the buffer. -/
structure Lawful : Prop where
  isWord : ∀ x, IsWord (tbl.field x)
  short : ∀ x, (tbl.field x).length < 200
  distinct : ∀ x y, startsWith (tbl.field x) (tbl.field y) = true → x = y
  notBegin : ∀ x, startsWith tbl.headerBegin (tbl.field x) = false
  notEnd : ∀ x, startsWith tbl.headerEnd (tbl.field x) = false
  isWordBegin : IsWord tbl.headerBegin ∧ tbl.headerBegin.length < 200
  isWordEnd : IsWord tbl.headerEnd ∧ tbl.headerEnd.length < 200
  endNotBegin : startsWith tbl.headerBegin tbl.headerEnd = false
  mem : ∀ x, x ∈ tbl.fields
  nodup : tbl.fields.Nodup

end HeaderTable

theorem startsWith_self (s : List UInt8) : startsWith s s = true := by
  rw [startsWith, strncasecmpEq, strcasecmpEq_iff]

theorem not_mem_lineEnd (netcomm : Bool) {s : List UInt8} (hs : 10 ∉ s) :
    ∃ m, 10 ∉ m ∧ s ++ lineEnd netcomm = m ++ [10] := by
  cases netcomm with
  | false => exact ⟨s, hs, rfl⟩
  | true => exact ⟨s ++ [13], by simpa using hs, by rw [List.append_assoc]; rfl⟩

/-- As much of a line as the buffer holds is read. -/
theorem fgetsLine_lineEnd (netcomm : Bool) {s : List UInt8} (hs : 10 ∉ s) (rest : List UInt8) :
    fgetsLine maxAsciiHeaderLen (s ++ lineEnd netcomm ++ rest) =
      some ((s ++ lineEnd netcomm).take 255, (s ++ lineEnd netcomm).drop 255 ++ rest) := by
  obtain ⟨m, hm, heq⟩ := not_mem_lineEnd netcomm hs
  rw [heq]
  by_cases hfits : m.length < 255
  · rw [List.append_assoc, List.singleton_append,
      fgetsLine_append hm (by rw [maxAsciiHeaderLen]; omega),
      List.take_of_length_le
        (by simp; omega), List.drop_of_length_le (by simp; omega), List.nil_append]
  · -- The buffer is full before the end of the line.
    have hlen : 255 ≤ m.length := by omega
    rw [List.take_append_of_le_length hlen, List.drop_append_of_le_length hlen, List.append_assoc]
    conv_lhs => rw [← List.take_append_drop 255 m, List.append_assoc]
    have htake : (m.take 255).length = 255 := List.length_take_of_le hlen
    rw [fgetsLine_full (fun h => hm (List.mem_of_mem_take h)) (by rw [htake, maxAsciiHeaderLen])
      (List.ne_nil_of_length_pos (by omega)), ← List.append_assoc]

namespace HeaderTable

variable {φ ρ : Type} [DecidableEq φ] {tbl : HeaderTable φ ρ} {netcomm : Bool}

/-- What comes after a line that just fits is a line end at most. -/
theorem readFrom_drop {s : List UInt8} (hs : s.length ≤ 255) (st : HeaderState φ ρ)
    (rest : List UInt8) :
    tbl.readFrom netcomm st ((s ++ lineEnd netcomm).drop 255 ++ rest) =
      tbl.readFrom netcomm st rest := by
  have hend : ∀ n, ((lineEnd netcomm).drop n = [] ∨ ∃ w, 10 ∉ w ∧
      (lineEnd netcomm).drop n = w ++ [10] ∧
      w.length < 2 ∧ scanWord (w ++ [10]) = none) := by
    intro n
    cases netcomm with
    | false =>
      rcases n with _ | n
      · exact Or.inr ⟨[], by simp, rfl, by decide, rfl⟩
      · exact Or.inl List.drop_nil
    | true =>
      rcases n with _ | _ | n
      · exact Or.inr ⟨[13], by decide, rfl, by decide, rfl⟩
      · exact Or.inr ⟨[], by simp, rfl, by decide, rfl⟩
      · exact Or.inl List.drop_nil
  rw [List.drop_append, List.drop_of_length_le hs, List.nil_append]
  rcases hend (255 - s.length) with hnil | ⟨w, hw, hdrop, hlen, hscan⟩
  · rw [hnil, List.nil_append]
  · rw [hdrop, List.append_assoc, List.singleton_append, tbl.readFrom_step netcomm st
      (fgetsLine_append hw (by rw [maxAsciiHeaderLen]; omega) rest), readLine, hscan]

theorem storeField_of_ne (law : tbl.Lawful) {x y : φ} (hxy : y ≠ x) (inputBuf arg : List UInt8)
    (st : HeaderState φ ρ) : tbl.storeField inputBuf (tbl.field x) arg st y = st :=
  if_neg fun h => hxy (law.distinct y x h)

/-- Only the field of a line is looked for among all of them. -/
theorem foldl_storeField (law : tbl.Lawful) (x : φ) (inputBuf arg : List UInt8)
    (st : HeaderState φ ρ) :
    tbl.fields.foldl (tbl.storeField inputBuf (tbl.field x) arg) st =
      tbl.storeField inputBuf (tbl.field x) arg st x := by
  have hnone : ∀ (l : List φ) st, x ∉ l →
      l.foldl (tbl.storeField inputBuf (tbl.field x) arg) st = st := by
    intro l
    induction l with
    | nil => exact fun st _ => rfl
    | cons y l ih =>
      intro st hx
      obtain ⟨hxy, hxl⟩ := List.ne_and_not_mem_of_not_mem_cons hx
      rw [List.foldl_cons, storeField_of_ne law hxy.symm, ih st hxl]
  obtain ⟨before, after, hsplit⟩ := List.append_of_mem (law.mem x)
  have hnodup := law.nodup
  rw [hsplit] at hnodup ⊢
  obtain ⟨-, hafter, hdisjoint⟩ := List.nodup_append.mp hnodup
  have hbefore : x ∉ before := fun hx => hdisjoint x hx x List.mem_cons_self rfl
  rw [List.foldl_append, List.foldl_cons, hnone before _ hbefore,
    hnone after _ (List.nodup_cons.mp hafter).1]

/-- The line that is in the buffer, and its argument. -/
def inputBufOf (tbl : HeaderTable φ ρ) (netcomm : Bool) (x : φ) (value : List UInt8) : List UInt8 :=
  (tbl.fieldLine netcomm x value).take 255

def argOf (tbl : HeaderTable φ ρ) (netcomm : Bool) (x : φ) (value : List UInt8) : List UInt8 :=
  ((value ++ lineEnd netcomm).take (254 - (tbl.field x).length)).takeWhile fun c => !isSpace c

/-- A value that a line can have: it begins with something to be read, and has no newline. -/
def IsValue (value : List UInt8) : Prop := 10 ∉ value ∧ ∃ c ∈ value.head?, isSpace c = false

theorem IsValue.of_isWord {w : List UInt8} (h : IsWord w) : IsValue w := by
  refine ⟨fun hmem => absurd (h.2 10 hmem) (by decide), ?_⟩
  obtain ⟨c, w, rfl⟩ := List.exists_cons_of_ne_nil h.1
  exact ⟨c, rfl, h.2 c List.mem_cons_self⟩

theorem not_mem_line (law : tbl.Lawful) {x : φ} {value : List UInt8} (hv : IsValue value) :
    10 ∉ tbl.field x ++ 32 :: value := by
  rw [List.mem_append, List.mem_cons, not_or, not_or]
  exact ⟨fun h => absurd ((law.isWord x).2 10 h) (by decide), by decide, hv.1⟩

theorem fieldLine_eq (x : φ) (value : List UInt8) :
    tbl.fieldLine netcomm x value = tbl.field x ++ 32 :: value ++ lineEnd netcomm := by
  rw [fieldLine, List.append_assoc, List.cons_append]

theorem inputBufOf_eq (law : tbl.Lawful) (x : φ) (value : List UInt8) :
    tbl.inputBufOf netcomm x value =
    tbl.field x ++ 32 :: (value ++ lineEnd netcomm).take (254 - (tbl.field x).length) := by
  have hshort := law.short x
  rw [inputBufOf, fieldLine, List.take_append, List.take_of_length_le (by omega),
    show 255 - (tbl.field x).length =
        (254 - (tbl.field x).length) + 1 by omega, List.take_succ_cons]

/-- The argument of a line is not empty. -/
theorem argOf_eq (netcomm : Bool) (law : tbl.Lawful) (x : φ) {value : List UInt8}
    (hv : IsValue value) :
    tbl.argOf netcomm x value ≠ [] ∧ (∀ c ∈ tbl.argOf netcomm x value, isSpace c = false) ∧
      ((scanWord (32 :: (value ++ lineEnd netcomm).take
        (254 - (tbl.field x).length))).map Prod.fst).getD [] =
        tbl.argOf netcomm x value := by
  obtain ⟨-, c, hc, hspace⟩ := hv
  have hshort := law.short x
  obtain ⟨s, hs⟩ : ∃ s, (value ++ lineEnd netcomm).take (254 - (tbl.field x).length) = c :: s := by
    cases value with
    | nil => exact absurd hc (by simp)
    | cons d value =>
      obtain rfl := Option.some.inj hc
      refine ⟨(value ++ lineEnd netcomm).take (254 - (tbl.field x).length - 1), ?_⟩
      rw [show 254 - (tbl.field x).length =
        (254 - (tbl.field x).length - 1) + 1 by omega, List.cons_append,
        List.take_succ_cons]
      rfl
  refine ⟨?_, ?_, ?_⟩
  · rw [argOf, hs, List.takeWhile_cons_of_pos (by simp [hspace])]
    exact List.cons_ne_nil _ _
  · intro d hd
    have := List.mem_takeWhile_imp hd
    simpa using this
  · rw [argOf, hs, scanWord,
      List.dropWhile_cons_of_pos (by decide), List.dropWhile_cons_of_neg (by simp [hspace])]
    rfl

/-- Of a word as much is read as the buffer holds. -/
theorem argOf_isWord (x : φ) {value : List UInt8} (hv : IsWord value) :
    tbl.argOf netcomm x value = value.take (254 - (tbl.field x).length) := by
  have hend : ((lineEnd netcomm).take (254 - (tbl.field x).length - value.length)).takeWhile
      (fun c => !isSpace c) = [] := by
    cases (254 - (tbl.field x).length - value.length) with
    | zero => rfl
    | succ n => cases netcomm <;> rfl
  rw [argOf, List.take_append, List.takeWhile_append_of_pos fun c hc => by
    rw [hv.2 c (List.mem_of_mem_take hc)]; rfl, hend, List.append_nil]

theorem argOf_eq_iff (netcomm : Bool) (law : tbl.Lawful) (x : φ) {value : List UInt8}
    (hv : IsWord value) :
    tbl.argOf netcomm x value = value ↔ (tbl.field x ++ 32 :: value).length ≤ 255 := by
  have hshort := law.short x
  rw [argOf_isWord x hv, List.length_append, List.length_cons]
  constructor
  · intro htake
    have hlen := congrArg List.length htake
    rw [List.length_take] at hlen
    omega
  · intro hfits
    exact List.take_of_length_le (by omega)

/-- **A line that has been written** is read into its field. -/
theorem readLine_inputBufOf (netcomm : Bool) (law : tbl.Lawful) (x : φ) {value : List UInt8}
    (hv : IsValue value)
    {st : HeaderState φ ρ} (hst : st.begun = true) :
    tbl.readLine netcomm (tbl.inputBufOf netcomm x value) st =
      .next (tbl.storeField (tbl.inputBufOf netcomm x value) (tbl.field x)
        (tbl.argOf netcomm x value) st x) := by
  obtain ⟨hne, hspace, harg⟩ := argOf_eq netcomm law x hv
  have hcr : (tbl.argOf netcomm x value).takeWhile (fun c => decide (c ≠ 13)) =
      tbl.argOf netcomm x value := by
    refine List.takeWhile_eq_self_iff.mpr fun c hc => ?_
    rw [decide_eq_true_iff]
    rintro rfl
    exact absurd (hspace 13 hc) (by decide)
  have hword := scanWord_append (law.isWord x) (spaceFirst_cons (c := 32) (by decide)
    ((value ++ lineEnd netcomm).take (254 - (tbl.field x).length)))
  rw [← inputBufOf_eq law] at hword
  rw [readLine, hword]
  simp only [harg, hst, law.notBegin x, law.notEnd x, Bool.true_eq_false, Bool.false_eq_true,
    and_false, if_false, if_neg hne, hcr, ite_self, foldl_storeField law]

/-- The text after what the buffer takes of a line. -/
theorem readFrom_fieldLine (law : tbl.Lawful) (x : φ) {value : List UInt8} (hv : IsValue value)
    {st : HeaderState φ ρ} (hst : st.begun = true) (rest : List UInt8) :
    tbl.readFrom netcomm st (tbl.fieldLine netcomm x value ++ rest) =
      tbl.readFrom netcomm (tbl.storeField (tbl.inputBufOf netcomm x value) (tbl.field x)
        (tbl.argOf netcomm x value) st x) ((tbl.fieldLine netcomm x value).drop 255 ++ rest) := by
  have hline := fgetsLine_lineEnd netcomm (not_mem_line law hv (x := x)) rest
  rw [← fieldLine_eq] at hline
  rw [tbl.readFrom_step netcomm st hline]
  have hread := readLine_inputBufOf netcomm law x hv hst
  rw [inputBufOf] at hread ⊢
  rw [hread]

theorem scanWord_mark (netcomm : Bool) {mark : List UInt8} (hmark : IsWord mark) :
    scanWord (mark ++ lineEnd netcomm) = some (mark, lineEnd netcomm) ∧
      ((scanWord (lineEnd netcomm)).map Prod.fst).getD [] = [] := by
  cases netcomm with
  | false => exact ⟨scanWord_append hmark (spaceFirst_cons (by decide) _), rfl⟩
  | true => exact ⟨scanWord_append hmark (spaceFirst_cons (by decide) _), rfl⟩

/-- What the buffer does not take of a line is passed over. -/
def Passed (tbl : HeaderTable φ ρ) (netcomm : Bool) (x : φ) (value : List UInt8) : Prop :=
  ∀ st rest, st.begun = true →
    tbl.readFrom netcomm st ((tbl.fieldLine netcomm x value).drop 255 ++ rest) =
    tbl.readFrom netcomm st rest

/-- So it is if the line fits. -/
theorem passed_of_fits {x : φ} {value : List UInt8}
    (hfits : (tbl.field x ++ 32 :: value).length ≤ 255) :
    tbl.Passed netcomm x value := by
  intro st rest _
  rw [fieldLine_eq, readFrom_drop hfits]

theorem startsWith_short {s name : List UInt8} (h : name.length < s.length) :
    startsWith s name = false := by
  rw [startsWith, strncasecmpEq, Bool.eq_false_iff, Ne, strcasecmpEq_iff]
  intro heq
  have hlen := congrArg List.length heq
  rw [List.length_map, List.length_map, List.length_take, List.length_take] at hlen
  omega

/-- And if a word is left that is shorter than the marks: it has no argument. -/
theorem passed_of_isWord (law : tbl.Lawful) {x : φ} {value : List UInt8} (hv : IsWord value)
    (hbegin : (tbl.field x ++ 32 :: value).length < 255 + tbl.headerBegin.length)
    (hend : (tbl.field x ++ 32 :: value).length < 255 + tbl.headerEnd.length) :
    tbl.Passed netcomm x value := by
  by_cases hfits : (tbl.field x ++ 32 :: value).length ≤ 255
  · exact passed_of_fits hfits
  · intro st rest hst
    have hlong := law.short x
    have hlen : (tbl.field x ++ 32 :: value).length = (tbl.field x).length + 1 + value.length := by
      rw [List.length_append, List.length_cons]
      omega
    rw [hlen] at hbegin hend hfits
    have hsplit : (tbl.fieldLine netcomm x value).drop 255 =
        value.drop (254 - (tbl.field x).length) ++ lineEnd netcomm := by
      rw [fieldLine_eq, List.drop_append_of_le_length (by rw [hlen]; omega), List.drop_append,
        List.drop_of_length_le (by omega), List.nil_append,
        show 255 - (tbl.field x).length =
            (254 - (tbl.field x).length) + 1 by omega, List.drop_succ_cons]
    have hword : IsWord (value.drop (254 - (tbl.field x).length)) :=
      ⟨List.ne_nil_of_length_pos
        (by rw [List.length_drop]; omega), fun c hc => hv.2 c (List.mem_of_mem_drop hc)⟩
    have hshort : (value.drop (254 - (tbl.field x).length)).length < tbl.headerBegin.length ∧
        (value.drop (254 - (tbl.field x).length)).length < tbl.headerEnd.length := by
      rw [List.length_drop]
      omega
    have hmark := law.isWordEnd.2
    generalize value.drop (254 - (tbl.field x).length) = w at hsplit hword hshort
    have hnl : 10 ∉ w := fun h => absurd (hword.2 10 h) (by decide)
    have hlineEnd : (lineEnd netcomm).length ≤ 2 := by cases netcomm <;> decide
    have hline := fgetsLine_lineEnd netcomm hnl rest
    have hall : (w ++ lineEnd netcomm).length ≤ 255 := by
      rw [List.length_append]
      omega
    rw [List.take_of_length_le hall, List.drop_of_length_le hall, List.nil_append] at hline
    obtain ⟨hscan, harg⟩ := scanWord_mark netcomm hword
    rw [hsplit, tbl.readFrom_step netcomm st hline, readLine, hscan]
    simp only [hst, startsWith_short hshort.1, startsWith_short hshort.2, harg, Bool.true_eq_false,
      Bool.false_eq_true, false_and, and_false, if_false, if_true]

/-- A mark. -/
theorem readFrom_mark {mark : List UInt8} (hmark : IsWord mark ∧ mark.length < 200)
    (st : HeaderState φ ρ)
    (rest : List UInt8) :
    tbl.readFrom netcomm st (mark ++ lineEnd netcomm ++ rest) =
      match tbl.readLine netcomm (mark ++ lineEnd netcomm) st with
      | .next st => tbl.readFrom netcomm st rest
      | .finished => some (st.headerRec, rest)
      | .error => none := by
  have hnl : 10 ∉ mark := fun h => absurd (hmark.1.2 10 h) (by decide)
  have hlen : (mark ++ lineEnd netcomm).length ≤ 255 := by
    have := hmark.2
    have : (lineEnd netcomm).length ≤ 2 := by cases netcomm <;> decide
    rw [List.length_append]
    omega
  have hline := fgetsLine_lineEnd netcomm hnl rest
  rw [List.take_of_length_le hlen, List.drop_of_length_le hlen, List.nil_append] at hline
  exact tbl.readFrom_step netcomm st hline

theorem readFrom_begin (law : tbl.Lawful) (empty : ρ) (rest : List UInt8) :
    tbl.readHeader netcomm empty (tbl.headerBegin ++ lineEnd netcomm ++ rest) =
      tbl.readFrom netcomm ⟨true, fun _ => false, empty⟩ rest := by
  obtain ⟨hword, -⟩ := scanWord_mark netcomm law.isWordBegin.1
  rw [readHeader, readFrom_mark law.isWordBegin, readLine, hword]
  simp only [startsWith_self, and_self, if_true]

theorem readFrom_end (law : tbl.Lawful) {st : HeaderState φ ρ} (hst : st.begun = true)
    (rest : List UInt8) :
    tbl.readFrom netcomm st (tbl.headerEnd ++ lineEnd netcomm ++ rest) = some
      (st.headerRec, rest) := by
  obtain ⟨hword, harg⟩ := scanWord_mark netcomm law.isWordEnd.1
  rw [readFrom_mark law.isWordEnd, readLine, hword]
  simp only [hst, startsWith_self, law.endNotBegin, Bool.true_eq_false, false_and, and_false,
    and_self, if_false,
    if_true, Bool.false_eq_true]

/-! ### The lines of a header -/

theorem storeField_unset {x : φ} (inputBuf arg : List UInt8) {st : HeaderState φ ρ}
    (hx : st.set x = false) :
    tbl.storeField inputBuf (tbl.field x) arg st x =
      { st with set := Function.update st.set x (tbl.store x inputBuf arg st.headerRec).2
                headerRec := (tbl.store x inputBuf arg st.headerRec).1 } := by
  rw [storeField, if_pos (startsWith_self _), hx]
  rfl

/-- **The lines that have been written** are read, each into its field. -/
theorem readFrom_lines (law : tbl.Lawful) {copy : φ → ρ → ρ} {lines : List (φ × List UInt8)}
    (hlines : ∀ l ∈ lines, IsValue l.2 ∧ tbl.Passed netcomm l.1 l.2 ∧ ∀ r,
      tbl.store l.1 (tbl.inputBufOf netcomm l.1 l.2) (tbl.argOf netcomm l.1 l.2) r =
        (copy l.1 r, true))
    (hnodup : (lines.map Prod.fst).Nodup) {st : HeaderState φ ρ} (hst : st.begun = true)
    (hset : ∀ l ∈ lines, st.set l.1 = false) (rest : List UInt8) :
    ∃ st' : HeaderState φ ρ, st'.begun = true ∧
      st'.headerRec = (lines.map Prod.fst).foldl (fun r x => copy x r) st.headerRec ∧
      tbl.readFrom netcomm st (lines.flatMap (fun l => tbl.fieldLine netcomm l.1 l.2) ++ rest) =
        tbl.readFrom netcomm st' rest := by
  induction lines generalizing st with
  | nil => exact ⟨st, hst, rfl, rfl⟩
  | cons l lines ih =>
    obtain ⟨hvalue, hpassed, hstore⟩ := hlines l List.mem_cons_self
    obtain ⟨hl, hnodup⟩ := List.nodup_cons.mp hnodup
    have hother : ∀ l' ∈ lines, l'.1 ≠ l.1 := fun l' hl' heq => hl (List.mem_map.mpr ⟨l', hl', heq⟩)
    rw [List.flatMap_cons, List.append_assoc, readFrom_fieldLine law l.1 hvalue hst,
      storeField_unset _ _ (hset l List.mem_cons_self), hstore, hpassed _ _ (by exact hst)]
    have hset' : ∀ l' ∈ lines, Function.update st.set l.1 true l'.1 = false := fun l' hl' =>
      (Function.update_of_ne (hother l' hl') _ _).trans (hset l' (List.mem_cons_of_mem _ hl'))
    exact @ih (fun l' hl' => hlines l' (List.mem_cons_of_mem _ hl')) hnodup
      ⟨st.begun, Function.update st.set l.1 true, copy l.1 st.headerRec⟩ hst hset'

theorem writeLines_append (tbl : HeaderTable φ ρ) (netcomm : Bool) (lines : List (φ × List UInt8))
    (rest : List UInt8) :
    tbl.writeLines netcomm lines ++ rest = tbl.headerBegin ++ lineEnd netcomm ++
      (lines.flatMap (fun l => tbl.fieldLine netcomm l.1 l.2) ++
        (tbl.headerEnd ++ lineEnd netcomm ++ rest)) := by
  rw [writeLines]
  simp only [List.append_assoc]

/-- **A header that has been written** is read back, and the text after it is left. -/
theorem readHeader_writeLines (law : tbl.Lawful) (copy : φ → ρ → ρ) {lines : List (φ × List UInt8)}
    (hlines : ∀ l ∈ lines, IsValue l.2 ∧ tbl.Passed netcomm l.1 l.2 ∧ ∀ r,
      tbl.store l.1 (tbl.inputBufOf netcomm l.1 l.2) (tbl.argOf netcomm l.1 l.2) r =
        (copy l.1 r, true))
    (hnodup : (lines.map Prod.fst).Nodup) (empty : ρ) (rest : List UInt8) :
    tbl.readHeader netcomm empty (tbl.writeLines netcomm lines ++ rest) =
      some ((lines.map Prod.fst).foldl (fun r x => copy x r) empty, rest) := by
  have hbegun : (⟨true, fun _ => false, empty⟩ : HeaderState φ ρ).begun = true := rfl
  obtain ⟨st', hst', hrec, hread⟩ := readFrom_lines law hlines hnodup hbegun (fun _ _ => rfl)
    (tbl.headerEnd ++ lineEnd netcomm ++ rest)
  rw [readFrom_end law hst', hrec] at hread
  rw [writeLines_append, readFrom_begin law empty, hread]

/-- A line end that is left before a header is passed over. -/
theorem readHeader_newline (tbl : HeaderTable φ ρ) (netcomm : Bool) (empty : ρ)
    (text : List UInt8) :
    tbl.readHeader netcomm empty (10 :: text) = tbl.readHeader netcomm empty text := by
  have hline : fgetsLine maxAsciiHeaderLen (10 :: text) = some ([10], text) :=
    @fgetsLine_append maxAsciiHeaderLen [] List.not_mem_nil (by decide) text
  rw [readHeader, tbl.readFrom_step netcomm _ hline]
  rfl

/-- What holds of a record when a field is set, and does not depend on the other fields, holds
in the end. -/
theorem kept_of_readFrom {x : φ} {P : ρ → Prop}
    (hframe : ∀ y, y ≠ x → ∀ inputBuf arg r, P r → P (tbl.store y inputBuf arg r).1)
    {st : HeaderState φ ρ} (hset : st.set x = true) (hP : P st.headerRec) {text rest : List UInt8}
    {r : ρ}
    (hread : tbl.readFrom netcomm st text = some (r, rest)) : P r := by
  have hfield : ∀ inputBuf fieldName arg (st : HeaderState φ ρ) y, st.set x = true ∧
      P st.headerRec →
      (tbl.storeField inputBuf fieldName arg st y).set x = true ∧
        P (tbl.storeField inputBuf fieldName arg st y).headerRec := by
    intro inputBuf fieldName arg st y h
    rw [storeField]
    split
    · split
      next => exact h
      next hy =>
        -- The field is set, so it is another one that is stored.
        have hyx : y ≠ x := by
          rintro rfl
          exact hy h.1
        exact ⟨by rw [← h.1]; exact Function.update_of_ne hyx.symm _ _, hframe y hyx _ _ _ h.2⟩
    · exact h
  have hfields : ∀ inputBuf fieldName arg (l : List φ) (st : HeaderState φ ρ), st.set x = true ∧
      P st.headerRec →
      (l.foldl (tbl.storeField inputBuf fieldName arg) st).set x = true ∧
        P (l.foldl (tbl.storeField inputBuf fieldName arg) st).headerRec := by
    intro inputBuf fieldName arg l
    induction l with
    | nil => exact fun st h => h
    | cons y l ih => exact fun st h => ih _ (hfield inputBuf fieldName arg st y h)
  have hline : ∀ inputBuf (st st' : HeaderState φ ρ), st.set x = true ∧ P st.headerRec →
      tbl.readLine netcomm inputBuf st = .next st' → st'.set x = true ∧ P st'.headerRec := by
    intro inputBuf st st' h hnext
    rw [readLine] at hnext
    split at hnext
    · exact HeaderLine.next.inj hnext ▸ h
    · dsimp only at hnext
      split_ifs at hnext <;> first | exact HeaderLine.next.inj hnext ▸ h | skip
      · exact HeaderLine.next.inj hnext ▸ hfields _ _ _ _ _ h
      · exact HeaderLine.next.inj hnext ▸ hfields _ _ _ _ _ h
  rw [readFrom] at hread
  revert hread
  generalize text.length = fuel
  intro hread
  induction fuel generalizing st text with
  | zero => exact absurd hread (by simp [readLoop])
  | succ fuel ih =>
    rw [readLoop] at hread
    split at hread
    · exact absurd hread (by simp)
    next inputBuf rest' _ =>
      cases hstep : tbl.readLine netcomm inputBuf st with
      | next st' =>
        rw [hstep] at hread
        obtain ⟨hset', hP'⟩ := hline _ _ _ ⟨hset, hP⟩ hstep
        exact ih hset' hP' hread
      | finished =>
        rw [hstep] at hread
        rw [← (Prod.mk.inj (Option.some.inj hread)).1]
        exact hP
      | error =>
        rw [hstep] at hread
        exact absurd hread (by simp)

/-- If all fields are as they were written, no line is one that its field is not kept by. -/
theorem good_of_readFrom (law : tbl.Lawful) (Good : φ → Prop) (Same : φ → ρ → Prop)
    {lines : List (φ × List UInt8)} (hvalue : ∀ l ∈ lines, IsValue l.2)
    (hgood : ∀ l ∈ lines, Good l.1 → (tbl.field l.1 ++ 32 :: l.2).length ≤ 255)
    (hbad : ∀ l ∈ lines, ¬ Good l.1 → ∀ r, ∃ r', tbl.store l.1 (tbl.inputBufOf netcomm l.1 l.2)
      (tbl.argOf netcomm l.1 l.2) r = (r', true) ∧ ¬ Same l.1 r')
    (hframe : ∀ x y, y ≠ x → ∀ inputBuf arg r, ¬ Same x r → ¬ Same x (tbl.store y inputBuf arg r).1)
    (hnodup : (lines.map Prod.fst).Nodup) {st : HeaderState φ ρ} (hst : st.begun = true)
    (hset : ∀ l ∈ lines, st.set l.1 = false) {rest rest' : List UInt8} {r : ρ}
    (hread : tbl.readFrom netcomm st
      (lines.flatMap (fun l => tbl.fieldLine netcomm l.1 l.2) ++ rest) = some (r, rest'))
    (hsame : ∀ l ∈ lines, Same l.1 r) : ∀ l ∈ lines, Good l.1 := by
  induction lines generalizing st with
  | nil => exact fun l hl => absurd hl List.not_mem_nil
  | cons l lines ih =>
    obtain ⟨hl, hnodup⟩ := List.nodup_cons.mp hnodup
    have hother : ∀ l' ∈ lines, l'.1 ≠ l.1 := fun l' hl' heq => hl (List.mem_map.mpr ⟨l', hl', heq⟩)
    have hmem : ∀ l' ∈ lines, l' ∈ l :: lines := fun l' hl' => List.mem_cons_of_mem _ hl'
    have hunset := hset l List.mem_cons_self
    have hlgood : Good l.1 := by
      -- A wrong value would stay to the end.
      by_contra hnot
      obtain ⟨r', hstore, hwrong⟩ := hbad l List.mem_cons_self hnot st.headerRec
      rw [List.flatMap_cons, List.append_assoc,
        readFrom_fieldLine law l.1 (hvalue l List.mem_cons_self) hst,
        storeField_unset _ _ hunset, hstore] at hread
      exact kept_of_readFrom (P := fun r => ¬ Same l.1 r) (fun y hy => hframe l.1 y hy)
        (Function.update_self l.1 true st.set) hwrong hread (hsame l List.mem_cons_self)
    intro l' hl'
    rcases List.mem_cons.mp hl' with rfl | hl'
    · exact hlgood
    · have hpassed : tbl.Passed netcomm l.1 l.2 :=
        passed_of_fits (hgood l List.mem_cons_self hlgood)
      rw [List.flatMap_cons, List.append_assoc,
        readFrom_fieldLine law l.1 (hvalue l List.mem_cons_self) hst,
        storeField_unset _ _ hunset, hpassed _ _ (by exact hst)] at hread
      refine ih (fun a ha => hvalue a (hmem a ha)) (fun a ha => hgood a (hmem a ha))
        (fun a ha => hbad a (hmem a ha)) hnodup ?_ ?_ hread (fun a ha => hsame a (hmem a ha)) l' hl'
      · exact hst
      · exact fun a ha => (Function.update_of_ne (hother a ha) _ _).trans (hset a (hmem a ha))

/-- **Only then**: a header comes back with all its values only if each line keeps its field. -/
theorem good_of_readHeader (law : tbl.Lawful) (Good : φ → Prop) (Same : φ → ρ → Prop)
    {lines : List (φ × List UInt8)} (hvalue : ∀ l ∈ lines, IsValue l.2)
    (hgood : ∀ l ∈ lines, Good l.1 → (tbl.field l.1 ++ 32 :: l.2).length ≤ 255)
    (hbad : ∀ l ∈ lines, ¬ Good l.1 → ∀ r, ∃ r', tbl.store l.1 (tbl.inputBufOf netcomm l.1 l.2)
      (tbl.argOf netcomm l.1 l.2) r = (r', true) ∧ ¬ Same l.1 r')
    (hframe : ∀ x y, y ≠ x → ∀ inputBuf arg r, ¬ Same x r → ¬ Same x (tbl.store y inputBuf arg r).1)
    (hnodup : (lines.map Prod.fst).Nodup) (empty : ρ) {rest rest' : List UInt8} {r : ρ}
    (hread : tbl.readHeader netcomm empty (tbl.writeLines netcomm lines ++ rest) = some (r, rest'))
    (hsame : ∀ l ∈ lines, Same l.1 r) : ∀ l ∈ lines, Good l.1 := by
  rw [writeLines_append, readFrom_begin law] at hread
  exact good_of_readFrom law Good Same hvalue hgood hbad hframe hnodup rfl
    (fun _ _ => rfl) hread hsame

end HeaderTable

/-! ### Fields that are copied -/

/-- `HDR_GET_...`, `HDR_SET_...` and `HDR_UNSET_...`, for the flag with a given bit. -/
def hdrGet (bit flags : ℕ) : Bool := flags.testBit bit

def hdrSet (bit flags : ℕ) : ℕ := flags ||| 2 ^ bit

def hdrUnset (bit flags : ℕ) : ℕ := if flags.testBit bit then flags - 2 ^ bit else flags

/-- A field can be copied from one record into another, and then its flag is set. -/
structure FieldCopies {φ ρ ν : Type} (copy : φ → ρ → ρ) (get : φ → ρ → ν) (flags : ρ → ℕ)
    (bit : φ → ℕ)
    (h : ρ) : Prop where
  get_copy : ∀ x r, get x (copy x r) = get x h
  get_copy_of_ne : ∀ x y, y ≠ x → ∀ r, get x (copy y r) = get x r
  flags_copy : ∀ x r, flags (copy x r) = hdrSet (bit x) (flags r)

/-- Fields that are copied one after the other: these flags are set, these values are
there, and the other ones are left. -/
theorem FieldCopies.foldl {φ ρ ν : Type} [DecidableEq φ] {copy : φ → ρ → ρ} {get : φ → ρ → ν}
    {flags : ρ → ℕ}
    {bit : φ → ℕ} {h : ρ} (hcopy : FieldCopies copy get flags bit h) (xs : List φ) (r : ρ) :
    (∀ i, hdrGet i (flags (xs.foldl (fun r x => copy x r) r)) = true ↔
      hdrGet i (flags r) = true ∨ ∃ x ∈ xs, bit x = i) ∧
    (∀ y, (y ∈ xs ∨ get y r = get y h) → get y (xs.foldl (fun r x => copy x r) r) = get y h) ∧
    ∀ y, y ∉ xs → get y (xs.foldl (fun r x => copy x r) r) = get y r := by
  induction xs generalizing r with
  | nil => exact ⟨fun i => by simp, fun y hy => hy.resolve_left List.not_mem_nil, fun y _ => rfl⟩
  | cons x xs ih =>
    obtain ⟨hflags, hget, hleft⟩ := ih (copy x r)
    refine ⟨fun i => ?_, fun y hy => hget y ?_, fun y hy => ?_⟩
    · rw [List.foldl_cons, hflags, hcopy.flags_copy, hdrGet, hdrSet, Nat.testBit_or,
        Nat.testBit_two_pow]
      simp only [hdrGet, Bool.or_eq_true, decide_eq_true_iff, List.mem_cons, exists_eq_or_imp,
        or_assoc]
    · by_cases hyx : y = x
      · exact Or.inr (hyx ▸ hcopy.get_copy x r)
      · rw [hcopy.get_copy_of_ne y x (Ne.symm hyx) r]
        exact hy.imp_left fun hmem => (List.mem_cons.mp hmem).resolve_left hyx
    · obtain ⟨hyx, hy⟩ := List.ne_and_not_mem_of_not_mem_cons hy
      rw [List.foldl_cons, hleft y hy, hcopy.get_copy_of_ne y x hyx.symm r]

end Archie
