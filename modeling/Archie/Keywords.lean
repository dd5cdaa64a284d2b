/-
The keywords of a document (`webindex/parse/keywords.c`, with `charset.c` and `stoplist.c`).

* `KeyTable`, `keyScanLoop`, `computeWeight`, `keywordExtract` — the functions.
* `words`, `keywords` — the words of a document.
* `keyScanLoop_plain` — a block gives the words that something comes after in it.
* `keys_addAll` — the table takes so many keywords.
* `computeWeight_spec` — the keywords once each, of which the last one is not counted.
* `keywordsRight_iff` — for which documents the keywords are written.
-/
import Mathlib.Data.List.Dedup
import Mathlib.Data.List.Lex
import Archie.CText
import Archie.Unique

namespace Archie

/-! ### The characters -/

/-- `html_isalnum`: where `iso8859_alnum` is 1. -/
def htmlIsalnum (c : UInt8) : Bool :=
  c == 45 || isDigit c || (65 ≤ c && c ≤ 90) || (97 ≤ c && c ≤ 122) ||
    (192 ≤ c && c != 215 && c != 247)

/-- `iso8859_char_table`. -/
def iso8859CharTable : List (List UInt8 × ℤ) :=
  [(bytes "quot", 34), (bytes "amp", 38), (bytes "lt", 60), (bytes "gt", 62),
   (bytes "Agrave", 192), (bytes "Aacute", 193), (bytes "Acirc", 194), (bytes "Atilde", 195),
   (bytes "Auml", 196), (bytes "Aring", 197), (bytes "AElig", 198), (bytes "Ccedil", 199),
   (bytes "Egrave", 200), (bytes "Eacute", 201), (bytes "Ecirc", 202), (bytes "Euml", 203),
   (bytes "Igrave", 204), (bytes "Iacute", 205), (bytes "Icirc", 206), (bytes "Iuml", 207),
   (bytes "Ntilde", 209), (bytes "Ograve", 210), (bytes "Oacute", 211), (bytes "Ocirc", 212),
   (bytes "Otilde", 213), (bytes "Ouml", 214), (bytes "Oslash", 216), (bytes "Ugrave", 217),
   (bytes "Uacute", 218), (bytes "Ucirc", 219), (bytes "Uuml", 220), (bytes "Yacute", 221),
   (bytes "THORN", 222), (bytes "szlig", 223), (bytes "agrave", 224), (bytes "aacute", 225),
   (bytes "acirc", 226), (bytes "atilde", 227), (bytes "auml", 228), (bytes "aring", 229),
   (bytes "aelig", 230), (bytes "ccedil", 231), (bytes "egrave", 232), (bytes "eacute", 233),
   (bytes "ecirc", 234), (bytes "euml", 235), (bytes "igrave", 236), (bytes "iacute", 237),
   (bytes "icirc", 238), (bytes "iuml", 239), (bytes "eth", 240), (bytes "ntilde", 241),
   (bytes "ograve", 242), (bytes "oacute", 243), (bytes "ocirc", 244), (bytes "otilde", 245),
   (bytes "ouml", 246), (bytes "oslash", 248), (bytes "ugrave", 249), (bytes "uacute", 250),
   (bytes "ucirc", 251), (bytes "uuml", 252), (bytes "yacute", 253), (bytes "thorn", 254)]

/-- `find_char`; `UNDEFINED_CHAR` is -1. -/
def findCharName (name : List UInt8) : ℤ :=
  ((iso8859CharTable.find? fun ch => ch.1 == name).map Prod.snd).getD (-1)

/-- The loop of `html_char`, where `t` is what there is of the name; `INVALID_CODED_CHAR` is -2. -/
def htmlCharLoop (t : List UInt8) : List UInt8 → ℤ
  | [] => -2
  | c :: s =>
    if c = 0 then -2
    else if c = 59 then
      if t.head? = some 35 then atoi t.tail else findCharName t
    else if isSpace c then -2
    else htmlCharLoop (t ++ [c]) s

/-- `html_char`. -/
def htmlChar : List UInt8 → ℤ
  | [] => -2
  | c :: s => if c ≠ 38 then -2 else htmlCharLoop [] s

/-! ### The table of keywords -/

/-- The table, with the size of its memory: it is 0 or 100, and grows by 500. -/
structure KeyTable where
  keys : List (List UInt8)
  max : ℕ
  inv : (max = 0 ∧ keys = []) ∨ ∃ k ≤ 20, max = 100 + 500 * k ∧ keys.length < max

/-- `add_keyword`; `max_keys` is 10000. -/
def KeyTable.addKeyword (t : KeyTable) (str : List UInt8) : KeyTable :=
  if h0 : t.max = 0 then
    ⟨t.keys ++ [str], 100, by
      rcases t.inv with ⟨-, hkeys⟩ | ⟨k, -, hmax, -⟩
      · exact Or.inr ⟨0, by omega, rfl, by rw [hkeys]; show 1 < 100; omega⟩
      · omega⟩
  else if hfull : t.keys.length ≥ t.max - 1 then
    if hmax : t.max + 10 > 10000 then t
    else
      ⟨t.keys ++ [str], t.max + 500, by
        obtain ⟨k, -, hk, hlen⟩ := t.inv.resolve_left fun h => h0 h.1
        refine Or.inr ⟨k + 1, by omega, by omega, ?_⟩
        rw [List.length_append, List.length_singleton]
        omega⟩
  else
    ⟨t.keys ++ [str], t.max, by
      obtain ⟨k, hle, hk, hlen⟩ := t.inv.resolve_left fun h => h0 h.1
      refine Or.inr ⟨k, hle, hk, ?_⟩
      rw [List.length_append, List.length_singleton]
      omega⟩

/-- `free_table`: the memory of the table stays. -/
def KeyTable.freeTable (t : KeyTable) : KeyTable :=
  ⟨[], t.max, t.inv.imp (fun h => ⟨h.1, rfl⟩) fun ⟨k, hle, hk, hlen⟩ =>
    ⟨k, hle, hk, Nat.zero_lt_of_lt hlen⟩⟩

/-- `stoplist_keyword`: the list is sorted without regard to case, and so is the search. -/
def stoplistKeyword (stop : List (List UInt8)) (str : List UInt8) : Bool :=
  stop.any (strcasecmpEq str)

/-- `valid_keyword`; `MAX_KEY_LEN` is 50. -/
def validKeyword (key : List UInt8) : Bool :=
  let counter := key.countP (128 ≤ ·)
  if key.length > 50 || 4 * counter > key.length then false else true

/-- A word that was read. -/
def KeyTable.addWord (stop : List (List UInt8)) (t : KeyTable) (w : List UInt8) : KeyTable :=
  if stoplistKeyword stop w = false ∧ validKeyword w = true then t.addKeyword w else t

/-! ### The scan of a block -/

/-- The variables of the loop of `keyword_extract`: the word from `t` to `u`, if `in_word`. -/
structure KeyScan where
  inTag : Bool
  inComment : Bool
  word : Option (List UInt8)
  table : KeyTable

/-- The word ends. -/
def KeyScan.closeWord (stop : List (List UInt8)) (σ : KeyScan) : KeyScan :=
  match σ.word with
  | none => σ
  | some t => { σ with word := none, table := σ.table.addWord stop t }

/-- The word goes on, or begins. -/
def KeyScan.push (σ : KeyScan) (c : UInt8) : KeyScan :=
  { σ with word := some (σ.word.getD [] ++ [c]) }

/-- The loop over a block, where `junk` is what is in the memory after it. -/
def keyScanLoop (stop : List (List UInt8)) (junk : List UInt8) :
    ℕ → KeyScan → List UInt8 → KeyScan
  | 0, σ, _ => σ
  | _, σ, [] => σ
  | fuel + 1, σ, c :: s =>
    let ahead := c :: s ++ junk
    if c = 60 then
      let σ := if strncasecmpEq ahead (bytes "<!--") 4 then { σ with inComment := true }
        else { σ with inTag := true }
      keyScanLoop stop junk fuel (σ.closeWord stop) s
    -- Three characters are skipped, and the loop skips one more.
    else if c = 45 ∧ strncasecmpEq ahead (bytes "-->") 3 = true then
      keyScanLoop stop junk fuel { σ with inComment := false } (s.drop 3)
    else if c = 62 ∧ σ.inTag = true then keyScanLoop stop junk fuel { σ with inTag := false } s
    else if σ.inTag || σ.inComment then keyScanLoop stop junk fuel σ s
    else if c = 38 ∧ 0 ≤ htmlChar ahead then
      let cret := UInt8.ofNat (htmlChar ahead).toNat
      let σ := if htmlIsalnum cret then σ.push cret else σ
      keyScanLoop stop junk fuel σ (s.dropWhile fun d => d != 59 && d != 0).tail
    else if c = 45 then
      keyScanLoop stop junk fuel (if σ.word.isSome then σ.push c else σ) s
    else if htmlIsalnum c = false then keyScanLoop stop junk fuel (σ.closeWord stop) s
    else keyScanLoop stop junk fuel (σ.push c) s

/-- The blocks that `fread` reads one after the other. -/
def freadLoop (n : ℕ) : ℕ → List UInt8 → List (List UInt8)
  | 0, _ => []
  | fuel + 1, text => if text = [] then [] else text.take n :: freadLoop n fuel (text.drop n)

/-- All blocks of a file. -/
def freadBlocks (n : ℕ) (text : List UInt8) : List (List UInt8) := freadLoop n text.length text

/-! ### The keywords that are written -/

/-- `keyword_elmt_t`, as far as it decides which keywords are written. -/
structure KeywordElmt where
  num : ℕ
  key : List UInt8

/-- The loop that makes the sorted items unique, from one of them on. -/
def uniqueKeys : KeywordElmt → List (List UInt8) → List KeywordElmt
  | e, [] => [e]
  | e, key :: keys =>
    if strcasecmpEq e.key key then uniqueKeys { e with num := e.num + 1 } keys
    else e :: uniqueKeys ⟨1, key⟩ keys

/-- The comparisons by stem and by weight.  A weight is a `double` that depends on the stems and on
the databases. -/
structure WeightOrder where
  stemcmp : KeywordElmt → KeywordElmt → ℤ
  weightcmp : KeywordElmt → KeywordElmt → ℤ

/-- `compute_weight`: `tablelist`, and `num_keys`. -/
def computeWeight (order : WeightOrder) (table : List (List UInt8)) : List KeywordElmt × ℕ :=
  match qsort strcasecmp table with
  | [] => ([], 0)
  | key :: keys =>
    let tablelist := uniqueKeys ⟨1, key⟩ keys
    -- The index of the last one.
    let numKeys := tablelist.length - 1
    (qsort order.weightcmp (qsort order.stemcmp (tablelist.take numKeys)) ++
      tablelist.drop numKeys, numKeys)

/-- The scan of all blocks; the variables of the loop are new for each of them. -/
def keyScanBlocks (stop : List (List UInt8)) (junk : ℕ → List UInt8) :
    ℕ → KeyTable → List (List UInt8) → KeyTable
  | _, t, [] => t
  | i, t, b :: bs =>
    keyScanBlocks stop junk (i + 1) (keyScanLoop stop (junk i) b.length ⟨false, false, none, t⟩ b).table bs

/-- `keyword_extract`: the keywords that are written, and `rec_no`. -/
def keywordExtract (stop : List (List UInt8)) (junk : ℕ → List UInt8) (order : WeightOrder)
    (table : KeyTable) (recNo : ℕ) (doc : List UInt8) : List (List UInt8) × ℕ :=
  let table := keyScanBlocks stop junk 0 table.freeTable (freadBlocks (16 * 1024) doc)
  let (tablelist, numKeys) := computeWeight order table.keys
  let keys := (tablelist.take (min 500 numKeys)).map KeywordElmt.key
  (keys, recNo + keys.length)

/-! ### The words of a document -/

/-- The characters outside of tags, with blanks in the places of the others. -/
def blankTags : Bool → List UInt8 → List UInt8
  | _, [] => []
  | inTag, c :: s =>
    if c = 60 then 32 :: blankTags true s
    else if c = 62 then 32 :: blankTags false s
    else (if inTag then 32 else c) :: blankTags inTag s

/-- A letter or a digit. -/
def isAlphanumeric (c : UInt8) : Bool :=
  isDigit c || (65 ≤ c && c ≤ 90) || (97 ≤ c && c ≤ 122)

/-- The maximal runs of letters and digits that something comes after, and the one at the end,
where `w` is what there is of a run. -/
def wordRuns : List UInt8 → List UInt8 → List (List UInt8) × List UInt8
  | w, [] => ([], w)
  | w, c :: s =>
    if isAlphanumeric c then wordRuns (w ++ [c]) s
    else ((if w = [] then [] else [w]) ++ (wordRuns [] s).1, (wordRuns [] s).2)

/-- The words of a text. -/
def words (doc : List UInt8) : List (List UInt8) :=
  let (ws, last) := wordRuns [] (blankTags false doc)
  if last = [] then ws else ws ++ [last]

/-- A word that is no keyword is too long or in the list. -/
def isKeyword (stop : List (List UInt8)) (w : List UInt8) : Bool :=
  decide (w.length ≤ 50) && !stop.any (strcasecmpEq w)

/-- The keywords of a document. -/
def keywords (stop : List (List UInt8)) (doc : List UInt8) : List (List UInt8) :=
  (words doc).filter (isKeyword stop)

/-- The keywords of the blocks of a document, each read alone, without a word at its end; the table
takes 10099. -/
def blockKeywords (stop : List (List UInt8)) (doc : List UInt8) : List (List UInt8) :=
  (((freadBlocks (16 * 1024) doc).flatMap fun b => (wordRuns [] (blankTags false b)).1).filter
    (isKeyword stop)).take 10099

/-- A document of plain text and tags: without characters of entities and comments, and hyphens. -/
def PlainDoc (doc : List UInt8) : Prop := ∀ c ∈ doc, c < 128 ∧ c ≠ 0 ∧ c ≠ 38 ∧ c ≠ 45

/-! ### The scan of a block -/

theorem htmlIsalnum_plain {c : UInt8} (h128 : c < 128) (h45 : c ≠ 45) :
    htmlIsalnum c = isAlphanumeric c := by
  have h192 : ¬ 192 ≤ c := fun h =>
    absurd (UInt8.lt_of_le_of_lt h h128) (by decide)
  rw [htmlIsalnum, isAlphanumeric, beq_false_of_ne h45, decide_eq_false h192, Bool.false_or,
    Bool.false_and, Bool.false_and, Bool.or_false]

/-- What is added of the words of a block. -/
def KeyTable.addAll (stop : List (List UInt8)) (t : KeyTable) (ws : List (List UInt8)) : KeyTable :=
  ws.foldl (KeyTable.addWord stop) t

/-- Nothing is read where there are only characters within a tag or a comment. -/
theorem keyScanLoop_hidden (stop : List (List UInt8)) (junk : List UInt8) {σ : KeyScan}
    (hhidden : (σ.inTag || σ.inComment) = true) (hword : σ.word = none) :
    ∀ (fuel : ℕ) {s : List UInt8}, (∀ c ∈ s, c ≠ 60 ∧ c ≠ 62 ∧ c ≠ 45) →
      (keyScanLoop stop junk fuel σ s).table = σ.table
  | 0, _, _ => by rw [keyScanLoop]
  | fuel + 1, [], _ => by rw [keyScanLoop]; exact fun h => nomatch h
  | fuel + 1, c :: s, hs => by
    obtain ⟨h60, h62, h45⟩ := hs c List.mem_cons_self
    rw [keyScanLoop, if_neg h60, if_neg (fun h => h45 h.1), if_neg (fun h => h62 h.1), if_pos hhidden]
    exact keyScanLoop_hidden stop junk hhidden hword fuel fun d hd => hs d (List.mem_cons_of_mem c hd)

/-- A comment seems to begin only where the block ends, by what is in the memory after it. -/
theorem comment_end {s junk : List UInt8} (hs : PlainDoc s)
    (h : strncasecmpEq (60 :: s ++ junk) (bytes "<!--") 4 = true) : ∀ c ∈ s, c = 33 := by
  have hlower : ∀ c : UInt8, (asciiLower c = 33 → c = 33) ∧ (asciiLower c = 45 → c = 45) :=
    forall_uint8 (by decide +kernel)
  rw [strncasecmpEq, strcasecmpEq_iff, show (bytes "<!--").take 4 = [60, 33, 45, 45] by decide +kernel]
    at h
  cases s with
  | nil => exact fun c hc => nomatch hc
  | cons c s =>
    simp only [List.cons_append, List.take_succ_cons, List.map_cons, List.cons.injEq] at h
    have hc := (hlower c).1 h.2.1
    cases s with
    | nil =>
      intro d hd
      rw [List.mem_singleton.mp hd]
      exact hc
    | cons d s =>
      simp only [List.cons_append, List.take_succ_cons, List.map_cons, List.cons.injEq] at h
      have hd := hs d (List.mem_cons_of_mem c List.mem_cons_self)
      exact absurd ((hlower d).2 h.2.2.1) hd.2.2.2

theorem wordRuns_sep {c : UInt8} (hc : isAlphanumeric c = false) (w s : List UInt8) :
    wordRuns w (c :: s) = ((if w = [] then [] else [w]) ++ (wordRuns [] s).1, (wordRuns [] s).2) := by
  rw [wordRuns, if_neg (by rw [hc]; exact Bool.false_ne_true)]

theorem wordRuns_char {c : UInt8} (hc : isAlphanumeric c = true) (w s : List UInt8) :
    wordRuns w (c :: s) = wordRuns (w ++ [c]) s := by
  rw [wordRuns, if_pos hc]

theorem wordRuns_blanks (n : ℕ) : (wordRuns [] (List.replicate n 32)).1 = [] := by
  induction n with
  | zero => rfl
  | succ n ih =>
    rw [List.replicate_succ, wordRuns_sep rfl, ih]
    rfl

theorem blankTags_hidden {s : List UInt8} (hs : ∀ c ∈ s, c ≠ 60 ∧ c ≠ 62) :
    blankTags true s = List.replicate s.length 32 := by
  induction s with
  | nil => rfl
  | cons c s ih =>
    obtain ⟨h60, h62⟩ := hs c List.mem_cons_self
    rw [blankTags, if_neg h60, if_neg h62, ih fun d hd => hs d (List.mem_cons_of_mem c hd)]
    rfl

/-- The end of a word, where there is one. -/
theorem closeWord_table (stop : List (List UInt8)) (σ : KeyScan) (hword : σ.word ≠ some []) :
    (σ.closeWord stop).table = σ.table.addAll stop
        (if σ.word.getD [] = [] then [] else [σ.word.getD []]) ∧
      (σ.closeWord stop).word = none ∧ (σ.closeWord stop).inTag = σ.inTag ∧
      (σ.closeWord stop).inComment = σ.inComment := by
  rw [KeyScan.closeWord]
  cases hw : σ.word with
  | none => exact ⟨rfl, hw, rfl, rfl⟩
  | some t =>
    have ht : t ≠ [] := fun h => hword (by rw [hw, h])
    rw [Option.getD_some, if_neg ht]
    exact ⟨rfl, rfl, rfl, rfl⟩

/-- **The scan** of plain text adds the words that something comes after. -/
theorem keyScanLoop_plain (stop : List (List UInt8)) (junk : List UInt8) {fuel : ℕ} {s : List UInt8}
    (hs : PlainDoc s) {σ : KeyScan} (hfuel : s.length ≤ fuel) (hcomment : σ.inComment = false)
    (hword : σ.word ≠ some []) (htag : σ.inTag = true → σ.word = none) :
    (keyScanLoop stop junk fuel σ s).table =
      σ.table.addAll stop (wordRuns (σ.word.getD []) (blankTags σ.inTag s)).1 := by
  induction s generalizing σ fuel with
  | nil => cases fuel <;> rfl
  | cons c s ih =>
    obtain ⟨fuel, rfl⟩ : ∃ f, fuel = f + 1 := ⟨fuel - 1, by rw [List.length_cons] at hfuel; omega⟩
    have hfuel : s.length ≤ fuel := Nat.le_of_succ_le_succ hfuel
    have hplain : PlainDoc s := fun d hd => hs d (List.mem_cons_of_mem c hd)
    obtain ⟨h128, -, h38, h45⟩ := hs c List.mem_cons_self
    -- After a separator, the rest is read without a word.
    have hclose : ∀ τ : KeyScan, τ.word = σ.word → τ.table = σ.table → τ.inComment = false →
        (keyScanLoop stop junk fuel (τ.closeWord stop) s).table = σ.table.addAll stop
          ((if σ.word.getD [] = [] then [] else [σ.word.getD []]) ++
            (wordRuns [] (blankTags τ.inTag s)).1) := by
      intro τ hτword hτtable hτcomment
      obtain ⟨htable, hnone, hinTag, hinComment⟩ := closeWord_table stop τ (by rw [hτword]; exact hword)
      rw [ih hplain hfuel (hinComment.trans hτcomment) (by rw [hnone]; exact nofun) fun _ => hnone,
        htable, hnone, hinTag, hτword, hτtable]
      exact (List.foldl_append ..).symm
    rw [keyScanLoop]
    by_cases h60 : c = 60
    · subst h60
      rw [if_pos rfl, blankTags, if_pos rfl, wordRuns_sep rfl]
      split
      next hstart =>
        have hrest : ∀ d ∈ s, d ≠ 60 ∧ d ≠ 62 ∧ d ≠ 45 := by
          intro d hd
          rw [comment_end hplain hstart d hd]
          decide
        obtain ⟨htable, hnone, -, hinComment⟩ :=
          closeWord_table stop { σ with inComment := true } hword
        rw [keyScanLoop_hidden stop junk (by rw [hinComment, Bool.or_true]) hnone fuel hrest, htable,
          blankTags_hidden fun d hd => ⟨(hrest d hd).1, (hrest d hd).2.1⟩, wordRuns_blanks,
          List.append_nil]
      next => exact hclose { σ with inTag := true } rfl rfl hcomment
    · rw [if_neg h60, if_neg (fun h => h45 h.1)]
      cases htagged : σ.inTag with
      | true =>
        -- There is no word within a tag.
        have hnone := htag htagged
        have hsep : ∀ b : Bool, (wordRuns (σ.word.getD []) (32 :: blankTags b s)).1 =
            (wordRuns [] (blankTags b s)).1 := by
          intro b
          rw [wordRuns_sep rfl, hnone]
          rfl
        by_cases h62 : c = 62
        · rw [if_pos ⟨h62, rfl⟩, blankTags, if_neg h60, if_pos h62, hsep,
            @ih fuel hplain { σ with inTag := false } hfuel hcomment hword fun _ => hnone, hnone]
          rfl
        · rw [if_neg (fun h => h62 h.1), if_pos (by rw [Bool.true_or]), blankTags, if_neg h60,
            if_neg h62, if_pos rfl, hsep, ih hplain hfuel hcomment hword htag, hnone, htagged]
          rfl
      | false =>
        rw [if_neg (fun h => Bool.false_ne_true h.2), hcomment,
          if_neg (by rw [Bool.or_false]; exact Bool.false_ne_true), if_neg (fun h => h38 h.1),
          if_neg h45, htmlIsalnum_plain h128 h45]
        have hblank : blankTags false (c :: s) = (if c = 62 then 32 else c) :: blankTags false s := by
          rw [blankTags, if_neg h60]
          split <;> rfl
        have hgt : isAlphanumeric (if c = 62 then 32 else c) = isAlphanumeric c := by
          split
          next h62 => rw [h62]; rfl
          next => rfl
        rw [hblank]
        cases halnum : isAlphanumeric c with
        | false =>
          rw [if_pos rfl, wordRuns_sep (hgt.trans halnum)]
          have h := hclose σ rfl rfl hcomment
          rw [htagged] at h
          exact h
        | true =>
          have hne : c ≠ 62 := by
            rintro rfl
            exact absurd halnum (by decide)
          have hpush : (σ.push c).word = some (σ.word.getD [] ++ [c]) := rfl
          rw [if_neg Bool.noConfusion, wordRuns_char (hgt.trans halnum), if_neg hne,
            @ih fuel hplain (σ.push c) hfuel hcomment (by rw [hpush]; simp) fun h =>
              absurd (h.symm.trans htagged) Bool.noConfusion, hpush, Option.getD_some]
          show KeyTable.addAll stop σ.table (wordRuns _ (blankTags σ.inTag s)).1 = _
          rw [htagged]

/-! ### The table -/

/-- A keyword is added, if fewer than 10099 are in the table. -/
theorem keys_addKeyword (t : KeyTable) (str : List UInt8) : (t.addKeyword str).keys =
    if t.keys.length < 10099 then t.keys ++ [str] else t.keys := by
  rw [KeyTable.addKeyword]
  rcases t.inv with ⟨h0, hkeys⟩ | ⟨k, hle, hk, hlen⟩
  · rw [dif_pos h0, if_pos (by rw [hkeys]; show 0 < 10099; omega)]
  · rw [dif_neg (by omega)]
    split
    next hfull =>
      split
      next hmax => rw [if_neg (by omega)]
      next hmax => rw [if_pos (by omega)]
    next hfull => rw [if_pos (by omega)]

theorem validKeyword_plain {w : List UInt8} (hw : ∀ c ∈ w, c < 128) :
    validKeyword w = decide (w.length ≤ 50) := by
  have hcount : w.countP (128 ≤ ·) = 0 := by
    rw [List.countP_eq_zero]
    intro c hc h
    exact absurd (hw c hc) (UInt8.not_lt.mpr (of_decide_eq_true h))
  rw [validKeyword]
  simp only [hcount]
  by_cases hlen : w.length ≤ 50
  · rw [decide_eq_true hlen, if_neg (by simp; omega)]
  · rw [decide_eq_false hlen, if_pos (by simp; omega)]

/-- **The table** takes the first 10099 keywords. -/
theorem keys_addAll (stop : List (List UInt8)) {ws : List (List UInt8)}
    (hws : ∀ w ∈ ws, ∀ c ∈ w, c < 128) {t : KeyTable} (ht : t.keys.length ≤ 10099) :
    (t.addAll stop ws).keys = (t.keys ++ ws.filter (isKeyword stop)).take 10099 := by
  induction ws generalizing t with
  | nil => rw [List.filter_nil, List.append_nil, List.take_of_length_le ht]; rfl
  | cons w ws ih =>
    have hrest : ∀ v ∈ ws, ∀ c ∈ v, c < 128 := fun v hv => hws v (List.mem_cons_of_mem w hv)
    have hkeyword : (stoplistKeyword stop w = false ∧ validKeyword w = true) ↔
        isKeyword stop w = true := by
      rw [validKeyword_plain (hws w List.mem_cons_self), isKeyword, stoplistKeyword, Bool.and_eq_true,
        Bool.not_eq_true', and_comm]
    show ((t.addWord stop w).addAll stop ws).keys = _
    rw [KeyTable.addWord]
    by_cases hw : isKeyword stop w = true
    · rw [if_pos (hkeyword.mpr hw), List.filter_cons_of_pos hw]
      have hkeys := keys_addKeyword t w
      split at hkeys
      next hlt =>
        rw [ih hrest (by rw [hkeys, List.length_append, List.length_singleton]; omega), hkeys,
          List.append_assoc, List.singleton_append]
      next hge =>
        have hlen : t.keys.length = 10099 := by omega
        rw [ih hrest (by rw [hkeys]; exact ht), hkeys, ← hlen, List.take_left, List.take_left]
    · rw [if_neg fun h => hw (hkeyword.mp h), List.filter_cons_of_neg hw]
      exact ih hrest ht

theorem mem_freadLoop {n : ℕ} {c : UInt8} : ∀ (fuel : ℕ) {text b : List UInt8},
    b ∈ freadLoop n fuel text → c ∈ b → c ∈ text
  | 0, _, _, hb, _ => absurd hb List.not_mem_nil
  | fuel + 1, text, b, hb, hc => by
    rw [freadLoop] at hb
    split at hb
    next => exact absurd hb List.not_mem_nil
    next =>
      rcases List.mem_cons.mp hb with rfl | hb
      · exact List.mem_of_mem_take hc
      · exact List.mem_of_mem_drop (mem_freadLoop fuel hb hc)

/-- Runs are made of letters and digits. -/
theorem mem_wordRuns {w s : List UInt8} (hw : ∀ c ∈ w, isAlphanumeric c = true) :
    (∀ v ∈ (wordRuns w s).1, ∀ c ∈ v, isAlphanumeric c = true) ∧
      ∀ c ∈ (wordRuns w s).2, isAlphanumeric c = true := by
  induction s generalizing w with
  | nil => exact ⟨fun v hv => absurd hv List.not_mem_nil, hw⟩
  | cons c s ih =>
    cases hc : isAlphanumeric c with
    | true =>
      rw [wordRuns_char hc]
      apply ih
      intro d hd
      rcases List.mem_append.mp hd with hd | hd
      · exact hw d hd
      · rw [List.mem_singleton.mp hd]
        exact hc
    | false =>
      obtain ⟨hruns, hlast⟩ := @ih [] fun d hd => nomatch hd
      rw [wordRuns_sep hc]
      refine ⟨fun v hv => ?_, hlast⟩
      rcases List.mem_append.mp hv with hv | hv
      · split at hv
        next => exact absurd hv List.not_mem_nil
        next => exact List.mem_singleton.mp hv ▸ hw
      · exact hruns v hv

theorem lt_of_isAlphanumeric {c : UInt8} (hc : isAlphanumeric c = true) : c < 128 ∧ c ≠ 0 := by
  revert hc
  exact forall_uint8 (P := fun c => isAlphanumeric c = true → c < 128 ∧ c ≠ 0) (by decide +kernel) c

theorem take_take_append {α : Type*} (n : ℕ) (a b : List α) :
    (a.take n ++ b).take n = (a ++ b).take n := by
  rcases Nat.le_total a.length n with h | h
  · rw [List.take_of_length_le h]
  · have hlen : (a.take n).length = n := by rw [List.length_take, Nat.min_eq_left h]
    rw [List.take_append_of_le_length h, List.take_append_of_le_length hlen.ge, List.take_take,
      Nat.min_self]

/-- **All blocks.** -/
theorem keys_keyScanBlocks (stop : List (List UInt8)) (junk : ℕ → List UInt8) {bs : List (List UInt8)}
    (hbs : ∀ b ∈ bs, PlainDoc b) (i : ℕ) {t : KeyTable} (ht : t.keys.length ≤ 10099) :
    (keyScanBlocks stop junk i t bs).keys =
      (t.keys ++ (bs.flatMap fun b => (wordRuns [] (blankTags false b)).1).filter
        (isKeyword stop)).take 10099 := by
  induction bs generalizing i t with
  | nil => rw [List.flatMap_nil, List.filter_nil, List.append_nil, List.take_of_length_le ht]; rfl
  | cons b bs ih =>
    have hb : (keyScanLoop stop (junk i) b.length ⟨false, false, none, t⟩ b).table =
        t.addAll stop (wordRuns [] (blankTags false b)).1 :=
      keyScanLoop_plain stop (junk i) (hbs b List.mem_cons_self) le_rfl rfl nofun nofun
    have hchars : ∀ w ∈ (wordRuns [] (blankTags false b)).1, ∀ c ∈ w, c < 128 := fun w hw c hc =>
      (lt_of_isAlphanumeric ((@mem_wordRuns [] _ fun d hd => nomatch hd).1 w hw c hc)).1
    have hkeys := keys_addAll stop hchars ht
    rw [keyScanBlocks, hb, ih (fun c hc => hbs c (List.mem_cons_of_mem b hc)) (i + 1)
      (by rw [hkeys]; exact List.length_take_le _ _), hkeys, List.flatMap_cons, List.filter_append,
      ← List.append_assoc, take_take_append]

/-! ### What is written -/

/-- The keywords once each, in their order. -/
theorem pairwise_uniqueKeys {e : KeywordElmt} {keys : List (List UInt8)}
    (h : (e.key :: keys).Pairwise fun a b => lowerCodes a ≤ lowerCodes b) :
    ((uniqueKeys e keys).map fun e => lowerCodes e.key).Pairwise (· < ·) ∧
      (∀ c, c ∈ (uniqueKeys e keys).map (fun e => lowerCodes e.key) ↔
        c ∈ (e.key :: keys).map lowerCodes) := by
  induction keys generalizing e with
  | nil => exact ⟨List.pairwise_singleton _ _, fun c => Iff.rfl⟩
  | cons key keys ih =>
    obtain ⟨hfirst, hrest⟩ := List.pairwise_cons.mp h
    rw [uniqueKeys]
    split
    next hsame =>
      have heq := lowerCodes_eq_iff.mpr hsame
      obtain ⟨hsorted, hmem⟩ := @ih { e with num := e.num + 1 } (List.pairwise_cons.mpr
        ⟨fun k hk => hfirst k (List.mem_cons_of_mem key hk), (List.pairwise_cons.mp hrest).2⟩)
      refine ⟨hsorted, fun c => (hmem c).trans ?_⟩
      simp only [List.map_cons, List.mem_cons, heq, or_self_left]
    next hdiff =>
      have hne : lowerCodes e.key ≠ lowerCodes key := fun heq => hdiff (lowerCodes_eq_iff.mp heq)
      have hlt : lowerCodes e.key < lowerCodes key :=
        lt_of_le_of_ne (hfirst key List.mem_cons_self) hne
      obtain ⟨hsorted, hmem⟩ := @ih ⟨1, key⟩ hrest
      refine ⟨?_, fun c => ?_⟩
      · rw [List.map_cons, List.pairwise_cons]
        refine ⟨fun c hc => lt_of_lt_of_le hlt ?_, hsorted⟩
        obtain ⟨k, hk, rfl⟩ := List.mem_map.mp ((hmem c).mp hc)
        rcases List.mem_cons.mp hk with rfl | hk
        · exact le_rfl
        · exact (List.pairwise_cons.mp hrest).1 k hk
      · simp only [List.map_cons, List.mem_cons, hmem]

/-- **The keywords that are written**: the last of them is missing. -/
theorem computeWeight_spec {table : List (List UInt8)} (htable : ∀ key ∈ table, 0 ∉ key)
    (hne : table ≠ []) :
    ∃ (kept : List KeywordElmt) (last : KeywordElmt),
      (∀ order, computeWeight order table =
        (qsort order.weightcmp (qsort order.stemcmp kept) ++ [last], kept.length)) ∧
      ((kept ++ [last]).map fun e => lowerCodes e.key).Pairwise (· < ·) ∧
      (∀ c, c ∈ (kept ++ [last]).map (fun e => lowerCodes e.key) ↔ c ∈ table.map lowerCodes) := by
  have horder : ∀ s ∈ table, ∀ t ∈ table, strcasecmp s t ≤ 0 ↔ lowerCodes s ≤ lowerCodes t :=
    fun s hs t ht => (strcasecmp_nonpos_iff (htable s hs) (htable t ht)).trans
      (not_lt (a := lowerCodes t) (b := lowerCodes s))
  have hsorted := pairwise_qsort lowerCodes horder
  have hmemq : ∀ c, c ∈ (qsort strcasecmp table).map lowerCodes ↔ c ∈ table.map lowerCodes :=
    fun c => ((perm_qsort strcasecmp table).map lowerCodes).mem_iff
  cases hq : qsort strcasecmp table with
  | nil => exact absurd (qsort_eq_nil.mp hq) hne
  | cons key keys =>
    rw [hq] at hsorted hmemq
    obtain ⟨hunique, hmem⟩ := @pairwise_uniqueKeys ⟨1, key⟩ keys hsorted
    have hlist : uniqueKeys ⟨1, key⟩ keys ≠ [] := by
      intro hnil
      have h := (hmem (lowerCodes key)).mpr List.mem_cons_self
      rw [hnil] at h
      exact absurd h List.not_mem_nil
    obtain ⟨kept, last, hkept⟩ : ∃ kept last, uniqueKeys ⟨1, key⟩ keys = kept ++ [last] :=
      ⟨_, _, (List.dropLast_append_getLast hlist).symm⟩
    rw [hkept] at hunique hmem
    refine ⟨kept, last, fun order => ?_, hunique, fun c => (hmem c).trans (hmemq c)⟩
    simp only [computeWeight, hq, hkept, List.length_append, List.length_singleton, Nat.add_sub_cancel, List.take_left,
      List.drop_left]

/-! ### When the keywords are written -/

section

variable (stop : List (List UInt8)) (table : KeyTable) (doc : List UInt8)

/-- Each keyword of the document is written once, without regard to case, and counted. -/
def KeywordsRight : Prop :=
  ∀ (junk : ℕ → List UInt8) (order : WeightOrder) (recNo : ℕ),
    let out := keywordExtract stop junk order table recNo doc
    (out.1.map lowerCodes).Nodup ∧
      (∀ c, c ∈ out.1.map lowerCodes ↔ c ∈ (keywords stop doc).map lowerCodes) ∧
      out.2 = recNo + ((keywords stop doc).map lowerCodes).dedup.length

/-- There are no keywords, or the blocks have one more than the document, greater than all others. -/
def KeywordsClear : Prop :=
  (blockKeywords stop doc = [] ∧ keywords stop doc = []) ∨
    ∃ m ∈ (blockKeywords stop doc).map lowerCodes,
      (∀ c ∈ (keywords stop doc).map lowerCodes, c < m) ∧
      ∀ c, c ∈ (blockKeywords stop doc).map lowerCodes ↔
        c = m ∨ c ∈ (keywords stop doc).map lowerCodes

variable {stop table doc}

theorem keys_keyScanBlocks_doc (hdoc : PlainDoc doc) (junk : ℕ → List UInt8) :
    (keyScanBlocks stop junk 0 table.freeTable (freadBlocks (16 * 1024) doc)).keys =
      blockKeywords stop doc :=
  keys_keyScanBlocks stop junk (fun _ hb c hc => hdoc c (mem_freadLoop _ hb hc)) 0
    (Nat.zero_le 10099)

theorem mem_blockKeywords {w : List UInt8} (hw : w ∈ blockKeywords stop doc) : 0 ∉ w := by
  obtain ⟨b, -, hb⟩ := List.mem_flatMap.mp (List.mem_filter.mp (List.mem_of_mem_take hw)).1
  intro h0
  exact (lt_of_isAlphanumeric ((@mem_wordRuns [] _ fun d hd => absurd hd List.not_mem_nil).1 w hb 0
    h0)).2 rfl

/-- What is written: keywords of the table but the last one, at most 500. -/
theorem keywordExtract_spec (hdoc : PlainDoc doc) (hne : blockKeywords stop doc ≠ []) :
    ∃ (kept : List KeywordElmt) (m : List ℕ),
      (∀ junk order recNo, keywordExtract stop junk order table recNo doc =
        let keys := ((qsort order.weightcmp (qsort order.stemcmp kept)).take 500).map KeywordElmt.key
        (keys, recNo + keys.length)) ∧
      (kept.map fun e => lowerCodes e.key).Pairwise (· < ·) ∧
      (∀ c ∈ kept.map (fun e => lowerCodes e.key), c < m) ∧
      ∀ c, c ∈ (blockKeywords stop doc).map lowerCodes ↔
        c = m ∨ c ∈ kept.map fun e => lowerCodes e.key := by
  obtain ⟨kept, last, hweight, hpair, hmem⟩ :=
    computeWeight_spec (fun _ hkey => @mem_blockKeywords stop doc _ hkey) hne
  rw [List.map_append, List.map_singleton, List.pairwise_append] at hpair
  refine ⟨kept, lowerCodes last.key, fun junk order recNo => ?_, hpair.1,
    fun c hc => hpair.2.2 c hc _ List.mem_cons_self, fun c => ?_⟩
  · have hlen : (qsort order.weightcmp (qsort order.stemcmp kept)).length = kept.length := by
      rw [length_qsort, length_qsort]
    have htake : (qsort order.weightcmp (qsort order.stemcmp kept) ++ [last]).take
        (min 500 kept.length) = (qsort order.weightcmp (qsort order.stemcmp kept)).take 500 := by
      rw [List.take_append_of_le_length (by omega), ← hlen, ← List.take_eq_take_min]
    rw [keywordExtract, keys_keyScanBlocks_doc hdoc, hweight]
    simp only [htake]
  · rw [← hmem c, List.map_append, List.mem_append, List.map_singleton, List.mem_singleton, or_comm]

/-- Where there are more than 500, the weights can choose a keyword. -/
theorem exists_weightOrder {kept : List KeywordElmt} {k : List ℕ}
    (hk : k ∈ kept.map fun e => lowerCodes e.key) :
    ∃ order : WeightOrder, k ∈ ((qsort order.weightcmp (qsort order.stemcmp kept)).take 500).map
      fun e => lowerCodes e.key := by
  let rank : KeywordElmt → ℕ := fun e => if lowerCodes e.key = k then 0 else 1
  let cmp : KeywordElmt → KeywordElmt → ℤ := fun a b => (rank a : ℤ) - rank b
  refine ⟨⟨fun _ _ => 0, cmp⟩, ?_⟩
  obtain ⟨e, he, hek⟩ := List.mem_map.mp hk
  have hsorted := @pairwise_qsort _ _ _ rank cmp (qsort (fun _ _ => 0) kept) fun a _ b _ => by
    show (rank a : ℤ) - rank b ≤ 0 ↔ _
    omega
  cases hq : qsort cmp (qsort (fun _ _ => 0) kept) with
  | nil => exact absurd (qsort_eq_nil.mp (qsort_eq_nil.mp hq) ▸ he) List.not_mem_nil
  | cons x rest =>
    have hmem : e ∈ x :: rest := by
      rw [← hq, mem_qsort, mem_qsort]
      exact he
    have hzero : rank e = 0 := if_pos hek
    have hrank : rank x = 0 := by
      rw [hq] at hsorted
      rcases List.mem_cons.mp hmem with rfl | hrest
      · exact hzero
      · have := (List.pairwise_cons.mp hsorted).1 e hrest
        omega
    have hx : lowerCodes x.key = k := by
      by_contra hne
      have hone : rank x = 1 := if_neg hne
      omega
    rw [List.take_succ_cons, List.map_cons, hx]
    exact List.mem_cons_self

/-- **When the keywords are written.** -/
theorem keywordsRight_iff (hdoc : PlainDoc doc)
    (hfew : ((keywords stop doc).map lowerCodes).dedup.length ≤ 500) :
    KeywordsRight stop table doc ↔ KeywordsClear stop doc := by
  rcases eq_or_ne (blockKeywords stop doc) [] with hnil | hne
  · have hout : ∀ junk order recNo, keywordExtract stop junk order table recNo doc =
        ([], recNo) := by
      intro junk order recNo
      rw [keywordExtract, keys_keyScanBlocks_doc hdoc, hnil]
      rfl
    rw [KeywordsRight, KeywordsClear, hnil]
    simp only [hout]
    constructor
    · intro h
      obtain ⟨-, hmem, -⟩ := h (fun _ => []) ⟨fun _ _ => 0, fun _ _ => 0⟩ 0
      refine Or.inl ⟨trivial, List.eq_nil_iff_forall_not_mem.mpr fun w hw => ?_⟩
      exact absurd ((hmem _).mpr (List.mem_map_of_mem hw)) List.not_mem_nil
    · rintro (⟨-, hkeys⟩ | ⟨m, hm, -⟩)
      · intro junk order recNo
        rw [hkeys]
        exact ⟨List.nodup_nil, fun c => Iff.rfl, rfl⟩
      · exact absurd hm List.not_mem_nil
  · obtain ⟨kept, m, hout, hpair, hlt, hmem⟩ := @keywordExtract_spec stop table doc hdoc hne
    have hnodup : (kept.map fun e => lowerCodes e.key).Nodup := hpair.imp fun h => h.ne
    have hkeys : ∀ order : WeightOrder,
        (((qsort order.weightcmp (qsort order.stemcmp kept)).take 500).map KeywordElmt.key).map
          lowerCodes = ((qsort order.weightcmp (qsort order.stemcmp kept)).take 500).map
            fun e => lowerCodes e.key := fun order => List.map_map
    have hall : kept.length ≤ 500 → ∀ order : WeightOrder,
        (((qsort order.weightcmp (qsort order.stemcmp kept)).take 500).map
          fun e => lowerCodes e.key).Perm (kept.map fun e => lowerCodes e.key) := by
      intro hlen order
      rw [List.take_of_length_le (by rw [length_qsort, length_qsort]; exact hlen)]
      exact ((perm_qsort _ _).trans (perm_qsort _ _)).map _
    constructor
    · intro hright
      have hlen : kept.length ≤ 500 := by
        by_contra hlong
        -- A keyword of the blocks is none of the document, and its weight can be the greatest.
        obtain ⟨k, hk, hnot⟩ : ∃ k ∈ kept.map (fun e => lowerCodes e.key),
            k ∉ (keywords stop doc).map lowerCodes := by
          by_contra hsub
          have hsubset : kept.map (fun e => lowerCodes e.key) ⊆
              ((keywords stop doc).map lowerCodes).dedup := by
            intro k hk
            rw [List.mem_dedup]
            by_contra hnot
            exact hsub ⟨k, hk, hnot⟩
          have hle := (List.subperm_of_subset hnodup hsubset).length_le
          rw [List.length_map] at hle
          omega
        obtain ⟨order, horder⟩ := exists_weightOrder hk
        obtain ⟨-, hmem, -⟩ := hright (fun _ => []) order 0
        rw [hout] at hmem
        simp only [hkeys] at hmem
        exact hnot ((hmem k).mp horder)
      have order : WeightOrder := ⟨fun _ _ => 0, fun _ _ => 0⟩
      obtain ⟨-, hsame, -⟩ := hright (fun _ => []) order 0
      rw [hout] at hsame
      simp only [hkeys, (hall hlen order).mem_iff] at hsame
      refine Or.inr ⟨m, (hmem m).mpr (Or.inl rfl), fun c hc => hlt c ((hsame c).mpr hc), fun c => ?_⟩
      rw [hmem c, hsame c]
    · rintro (⟨hnil, -⟩ | ⟨m', hm', hlt', hmem'⟩)
      · exact absurd hnil hne
      have hm : m' = m := by
        rcases (hmem m').mp hm' with h | h
        · exact h
        · have hgt := hlt m' h
          rcases (hmem' m).mp ((hmem m).mpr (Or.inl rfl)) with h | h
          · exact h.symm
          · exact absurd (hlt' m h) (not_lt.mpr hgt.le)
      subst hm
      have hsame : ∀ c, c ∈ kept.map (fun e => lowerCodes e.key) ↔
          c ∈ (keywords stop doc).map lowerCodes := by
        intro c
        constructor
        · intro hc
          exact ((hmem' c).mp ((hmem c).mpr (Or.inr hc))).resolve_left (hlt c hc).ne
        · intro hc
          exact ((hmem c).mp ((hmem' c).mpr (Or.inr hc))).resolve_left (hlt' c hc).ne
      have hperm : (kept.map fun e => lowerCodes e.key).Perm
          ((keywords stop doc).map lowerCodes).dedup :=
        (List.perm_ext_iff_of_nodup hnodup (List.nodup_dedup _)).mpr fun c => by
          rw [List.mem_dedup, hsame c]
      have hlen : kept.length ≤ 500 := by
        have := hperm.length_eq
        rw [List.length_map] at this
        omega
      intro junk order recNo
      rw [hout]
      simp only [hkeys]
      refine ⟨(hall hlen order).nodup_iff.mpr hnodup, fun c => ?_, ?_⟩
      · rw [(hall hlen order).mem_iff, hsame c]
      · have hlength := (hall hlen order).length_eq
        rw [List.length_map] at hlength ⊢
        rw [hlength, hperm.length_eq]

end

/-- The table before the first document. -/
def noKeys : KeyTable := ⟨[], 0, Or.inl ⟨rfl, rfl⟩⟩

/-- A document without words. -/
theorem keywordsRight_sample : KeywordsRight [bytes "the"] noKeys (bytes "<b>the the.</b>") := by
  have hplain : ∀ c ∈ bytes "<b>the the.</b>", c < 128 ∧ c ≠ 0 ∧ c ≠ 38 ∧ c ≠ 45 := by
    decide +kernel
  have hkeywords : keywords [bytes "the"] (bytes "<b>the the.</b>") = [] ∧
      blockKeywords [bytes "the"] (bytes "<b>the the.</b>") = [] := by decide +kernel
  refine (keywordsRight_iff hplain ?_).mpr (Or.inl ⟨hkeywords.2, hkeywords.1⟩)
  rw [hkeywords.1]
  exact Nat.zero_le 500

/-- A document with a single word gives no keyword. -/
theorem not_keywordsRight :
    ¬ ∀ (stop : List (List UInt8)) (table : KeyTable) (doc : List UInt8), PlainDoc doc →
      ((keywords stop doc).map lowerCodes).dedup.length ≤ 500 → KeywordsRight stop table doc := by
  intro h
  have hplain : ∀ c ∈ bytes "archie ", c < 128 ∧ c ≠ 0 ∧ c ≠ 38 ∧ c ≠ 45 := by decide +kernel
  have hkeywords : keywords [] (bytes "archie ") = [bytes "archie"] := by decide +kernel
  have hout : keywordExtract [] (fun _ => []) ⟨fun _ _ => 0, fun _ _ => 0⟩ noKeys 0
      (bytes "archie ") = ([], 0) := by decide +kernel
  have hright := h [] noKeys (bytes "archie ") hplain (by rw [hkeywords]; show 1 ≤ 500; omega)
  obtain ⟨-, hmem, -⟩ := hright (fun _ => []) ⟨fun _ _ => 0, fun _ _ => 0⟩ 0
  rw [hout, hkeywords] at hmem
  exact absurd ((hmem (lowerCodes (bytes "archie"))).mpr List.mem_cons_self) List.not_mem_nil

end Archie
