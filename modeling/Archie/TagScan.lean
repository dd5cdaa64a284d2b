/-
The tags of a document (`webindex/retrieve/parse.c`).

`find_tag` copies what stands between a `<` and the next `>` to a buffer, while the file comes in
blocks.

* `findTag_spec` — a call goes by the rest of the file only, not by its blocks.
* `allTags_eq` — what the calls return, if they stay in the buffer.
* `tagRun_iff` — when these are the tags of the document with one of the four names.
-/
import Archie.RegexSub
import Archie.UnixLine

namespace Archie

/-! ### The functions -/

/-- `BUFFER_SIZE`. -/
def bufferSize : ℕ := 8192

/-- An element of `tag_table`; `isEnd` says whether the tag has one that ends it. -/
structure TagElement where
  name : List UInt8
  isEnd : Bool
  tagNum : ℕ
  deriving DecidableEq, Repr

/-- `tag_table`. -/
def tagTable : List TagElement :=
  [⟨bytes "A", false, 1⟩, ⟨bytes "BASE", false, 2⟩, ⟨bytes "AREA", false, 3⟩,
    ⟨bytes "FRAME", false, 4⟩]

/-- The text after `<` or `</`. -/
def afterSlash (tag : List UInt8) : List UInt8 :=
  if tag.tail.head? = some 47 then tag.tail.tail else tag.tail

/-- The letters after `<` or `</`. -/
def tagName (tag : List UInt8) : List UInt8 := (afterSlash tag).takeWhile isAlpha

/-- `interesting_tag`. -/
def interestingTag (tag : List UInt8) : ℕ :=
  if tag.head? ≠ some 60 then 0
  else if (afterSlash tag).dropWhile isAlpha = [] then 0
  else if (tagName tag).length = 0 then 0
  else
    match tagTable.find? fun e => strncasecmpEq (afterSlash tag) e.name (tagName tag).length with
    | some e => e.tagNum
    | none => 0

/-- `end_tag`. -/
def endTag (tagNum : ℕ) : Bool := (tagTable[tagNum - 1]?).any TagElement.isEnd

/-- What the loop over a block comes to: a character outside of the buffer, a tag and the text after
it, or the end of the block, with the text that has been copied, if `copy` is set. -/
inductive ScanEnd
  | outside
  | found (tagNum : ℕ) (tag rest : List UInt8)
  | more (copied : Option (List UInt8))
  deriving DecidableEq, Repr

/-- The loop of `find_a_tag` over a block.  `copied` is the buffer up to `tmp`, if `copy` is set. -/
def scanBlock : Option (List UInt8) → List UInt8 → ScanEnd
  | copied, [] => .more copied
  | copied, c :: s =>
    match if c = 60 then some [] else copied with
    | none => scanBlock none s
    | some text =>
      if bufferSize ≤ text.length then .outside
      else if bufferSize < (text ++ [c]).length then scanBlock none s
      else if c = 62 then
        if bufferSize ≤ (text ++ [c]).length then .outside
        else if interestingTag (text ++ [c]) ≠ 0 then
          .found (interestingTag (text ++ [c])) (text ++ [c]) s
        else scanBlock none s
      else scanBlock (some (text ++ [c])) s

/-- `bptr`, of which `NULL` is `none` and anything else the text from it on, and the blocks that
`fread` has yet to return. -/
structure TagReader where
  bptr : Option (List UInt8)
  blocks : List (List UInt8)
  deriving DecidableEq, Repr

/-- The loop of `find_a_tag` over the blocks; `none` for a character outside of the buffer. -/
def scanBlocks : Option (List UInt8) → List UInt8 → List (List UInt8) →
    Option (ℕ × List UInt8 × TagReader)
  | copied, s, [] =>
    match scanBlock copied s with
    | .outside => none
    | .found tagNum tag rest => some (tagNum, tag, ⟨some rest, []⟩)
    | .more _ => some (0, [], ⟨some [], []⟩)
  | copied, s, block :: blocks =>
    match scanBlock copied s with
    | .outside => none
    | .found tagNum tag rest => some (tagNum, tag, ⟨some rest, block :: blocks⟩)
    | .more copied =>
      if block = [] then some (0, [], ⟨some [], blocks⟩) else scanBlocks copied (cstr block) blocks

/-- `find_a_tag`. -/
def findATag (copied : Option (List UInt8)) (r : TagReader) :
    Option (ℕ × List UInt8 × TagReader) :=
  match r.bptr, r.blocks with
  | some s, blocks => scanBlocks copied s blocks
  | none, [] => some (0, [], r)
  | none, block :: blocks =>
    if block = [] then some (0, [], ⟨none, blocks⟩) else scanBlocks copied (cstr block) blocks

/-- `find_tag`. -/
def findTag (r : TagReader) : Option (ℕ × List UInt8 × TagReader) := do
  let (whichTag, tag, r) ← findATag none r
  if whichTag ≠ 0 ∧ endTag whichTag = true then
    let (ret, tagBuffer, r) ← findATag (some []) r
    if ret ≠ 0 then some (whichTag, tag ++ tagBuffer, r) else some (0, tag, r)
  else some (whichTag, tag, r)

/-- The calls of `find_tag` until one returns 0. -/
inductive TagRun : TagReader → List (ℕ × List UInt8) → Prop
  | stop {r r' tag} : findTag r = some (0, tag, r') → TagRun r []
  | next {r r' tagNum tag tags} : findTag r = some (tagNum, tag, r') → tagNum ≠ 0 → TagRun r' tags →
    TagRun r ((tagNum, tag) :: tags)

/-! ### The tags of a document -/

/-- The characters that begin and end a tag. -/
def isAngle (c : UInt8) : Bool := c == 60 || c == 62

/-- The stretches from a `<` to the next `>`, without another `<` between. -/
def stretches : List UInt8 → List (List UInt8)
  | [] => []
  | c :: s =>
    if c = 60 then
      let body := s.takeWhile (!isAngle ·)
      if (s.drop body.length).head? = some 62 then (60 :: body ++ [62]) :: stretches s
      else stretches s
    else stretches s

/-- The number of the tag with that name, or 0. -/
def tagNumber (tag : List UInt8) : ℕ :=
  match tagTable.find? fun e => strcasecmpEq (tagName tag) e.name with
  | some e => e.tagNum
  | none => 0

/-- The stretches that have a number. -/
def numbered (number : List UInt8 → ℕ) (tags : List (List UInt8)) : List (ℕ × List UInt8) :=
  tags.filterMap fun tag => if number tag = 0 then none else some (number tag, tag)

/-- The tags of a text with one of the four names, as far as they fit the buffer with a NUL. -/
def tagsOf (s : List UInt8) : List (ℕ × List UInt8) :=
  numbered tagNumber ((stretches s).filter fun tag => tag.length < bufferSize)

/-- What follows a `<` has an end in the buffer: the `>` and the NUL after it fit, or the next `<` or
the end of the text comes when the buffer is full at the latest. -/
def InBuffer : List UInt8 → Prop
  | [] => True
  | c :: s =>
    (c = 60 →
      let body := s.takeWhile (!isAngle ·)
      if (s.drop body.length).head? = some 62 then body.length + 2 < bufferSize
      else body.length < bufferSize) ∧ InBuffer s

instance decidableInBuffer : ∀ s, Decidable (InBuffer s)
  | [] => isTrue trivial
  | c :: s =>
    have := decidableInBuffer s
    inferInstanceAs (Decidable ((c = 60 →
      if (s.drop (s.takeWhile (!isAngle ·)).length).head? = some 62 then
        (s.takeWhile (!isAngle ·)).length + 2 < bufferSize
      else (s.takeWhile (!isAngle ·)).length < bufferSize) ∧ InBuffer s))

/-- A name that is only the beginning of one of the table. -/
def ShortName (name : List UInt8) : Prop :=
  name ≠ [] ∧ (∃ e ∈ tagTable, name.map asciiLower <+: e.name.map asciiLower) ∧
    ∀ e ∈ tagTable, strcasecmpEq name e.name = false

/-! ### The names -/

/-- The first element of the table that begins with a name. -/
theorem interestingTag_stretch {body : List UInt8} :
    interestingTag (60 :: body ++ [62]) =
      if tagName (60 :: body ++ [62]) = [] then 0
      else match tagTable.find? fun e =>
        ((tagName (60 :: body ++ [62])).map asciiLower).isPrefixOf (e.name.map asciiLower) with
        | some e => e.tagNum
        | none => 0 := by
  set tag := 60 :: body ++ [62] with htag
  have hend : (afterSlash tag).dropWhile isAlpha ≠ [] := by
    have hmem : (62 : UInt8) ∈ afterSlash tag := by
      rw [afterSlash, htag]
      cases body with
      | nil => decide
      | cons c body =>
        show (62 : UInt8) ∈ if (some c : Option UInt8) = some 47 then body ++ [62]
          else c :: body ++ [62]
        split <;> simp
    intro hnil
    rw [List.dropWhile_eq_nil_iff] at hnil
    exact absurd (hnil 62 hmem) (by decide)
  have htake : (afterSlash tag).take (tagName tag).length = tagName tag :=
    (List.prefix_iff_eq_take.mp (List.takeWhile_prefix _)).symm
  have hfind : (fun e : TagElement => strncasecmpEq (afterSlash tag) e.name (tagName tag).length) =
      fun e => ((tagName tag).map asciiLower).isPrefixOf (e.name.map asciiLower) := by
    funext e
    rw [Bool.eq_iff_iff, strncasecmpEq, strcasecmpEq_iff, htake, List.isPrefixOf_iff_prefix,
      List.prefix_iff_eq_take, List.length_map, List.map_take]
  rw [interestingTag, if_neg (by simp [htag]), if_neg hend, hfind]
  simp only [List.length_eq_zero_iff]

/-- The name of a tag is only the beginning of one in the table, or the number is the right one. -/
theorem interestingTag_cases (body : List UInt8) :
    (ShortName (tagName (60 :: body ++ [62])) ∧ interestingTag (60 :: body ++ [62]) ≠ 0 ∧
      tagNumber (60 :: body ++ [62]) = 0) ∨
    (¬ShortName (tagName (60 :: body ++ [62])) ∧
      interestingTag (60 :: body ++ [62]) = tagNumber (60 :: body ++ [62])) := by
  rw [interestingTag_stretch, tagNumber]
  set name := tagName (60 :: body ++ [62])
  by_cases hnil : name = []
  · refine .inr ⟨fun h => h.1 hnil, ?_⟩
    rw [if_pos hnil, hnil]
    rfl
  rw [if_neg hnil]
  have hnum : ∀ e ∈ tagTable, e.tagNum ≠ 0 := by decide
  by_cases hfull : ∃ e ∈ tagTable, strcasecmpEq name e.name = true
  · -- each name is found where the table has it
    refine .inr ⟨fun ⟨_, _, h⟩ => ?_, ?_⟩
    · obtain ⟨e, he, heq⟩ := hfull
      exact absurd heq (by simp [h e he])
    · obtain ⟨e, he, heq⟩ := hfull
      simp only [strcasecmpEq]
      rw [strcasecmpEq_iff] at heq
      rw [heq]
      clear heq hnil
      revert e
      decide
  · simp only [not_exists, not_and, Bool.not_eq_true] at hfull
    have hnone : tagTable.find? (fun e => strcasecmpEq name e.name) = none :=
      List.find?_eq_none.mpr fun e he => by simp [hfull e he]
    rw [hnone]
    cases hfind : tagTable.find? fun e =>
        (name.map asciiLower).isPrefixOf (e.name.map asciiLower) with
    | none =>
      refine .inr ⟨?_, rfl⟩
      rintro ⟨-, ⟨e, he, hprefix⟩, -⟩
      exact absurd (List.isPrefixOf_iff_prefix.mpr hprefix) (List.find?_eq_none.mp hfind e he)
    | some e =>
      have hmem := List.mem_of_find?_eq_some hfind
      have hprefix := List.find?_eq_some_iff_append.mp hfind
      exact .inl ⟨⟨hnil, ⟨e, hmem, List.isPrefixOf_iff_prefix.mp hprefix.1⟩, hfull⟩,
        hnum e hmem, rfl⟩

/-! ### The calls -/

/-- A tag that is found, before those that are found after it. -/
def emitTag (tag : List UInt8) (tags : Option (List (ℕ × List UInt8))) :
    Option (List (ℕ × List UInt8)) :=
  if interestingTag tag ≠ 0 then tags.map ((interestingTag tag, tag) :: ·) else tags

/-- The tags that are found in a text, or `none` for a character outside of the buffer. -/
def allTags : Option (List UInt8) → List UInt8 → Option (List (ℕ × List UInt8))
  | _, [] => some []
  | copied, c :: s =>
    match if c = 60 then some [] else copied with
    | none => allTags none s
    | some text =>
      if bufferSize ≤ text.length then none
      else if c = 62 then
        if bufferSize ≤ text.length + 1 then none else emitTag (text ++ [c]) (allTags none s)
      else allTags (some (text ++ [c])) s

theorem scanBlock_append (copied : Option (List UInt8)) (s t : List UInt8) :
    scanBlock copied (s ++ t) = match scanBlock copied s with
      | .outside => .outside
      | .found tagNum tag rest => .found tagNum tag (rest ++ t)
      | .more copied => scanBlock copied t := by
  induction s generalizing copied with
  | nil => rfl
  | cons c s ih =>
    rw [List.cons_append, scanBlock, scanBlock]
    cases (if c = 60 then some [] else copied : Option (List UInt8)) with
    | none => exact ih none
    | some text =>
      dsimp only
      split
      · rfl
      · split
        · exact ih none
        · split
          · split
            · rfl
            · split
              · rfl
              · exact ih none
          · exact ih _

/-- A tag that is found has a number. -/
theorem tagNum_ne_zero {copied : Option (List UInt8)} {s tag rest : List UInt8} {tagNum : ℕ}
    (h : scanBlock copied s = .found tagNum tag rest) : tagNum ≠ 0 := by
  induction s generalizing copied with
  | nil => exact absurd h (by simp [scanBlock])
  | cons c s ih =>
    rw [scanBlock] at h
    cases hc : (if c = 60 then some [] else copied : Option (List UInt8)) with
    | none =>
      rw [hc] at h
      exact ih h
    | some text =>
      rw [hc] at h
      dsimp only at h
      split at h
      · exact absurd h (by simp)
      · split at h
        · exact ih h
        · split at h
          · split at h
            · exact absurd h (by simp)
            · split at h
              next hnum =>
                rw [← (ScanEnd.found.inj h).1]
                exact hnum
              next => exact ih h
          · exact ih h

theorem allTags_scanBlock (copied : Option (List UInt8)) (s : List UInt8) :
    allTags copied s = match scanBlock copied s with
      | .outside => none
      | .found tagNum tag rest => (allTags none rest).map ((tagNum, tag) :: ·)
      | .more _ => some [] := by
  induction s generalizing copied with
  | nil => rfl
  | cons c s ih =>
    rw [allTags, scanBlock]
    cases (if c = 60 then some [] else copied : Option (List UInt8)) with
    | none => exact ih none
    | some text =>
      dsimp only
      by_cases hfull : bufferSize ≤ text.length
      · rw [if_pos hfull, if_pos hfull]
      · rw [if_neg hfull, if_neg hfull, List.length_append, List.length_singleton,
          if_neg (by omega : ¬bufferSize < text.length + 1)]
        split
        · split
          · rfl
          · rw [emitTag]
            split
            · rfl
            · exact ih none
        · exact ih _

/-- What is left of the file. -/
def TagReader.content (r : TagReader) : List UInt8 := r.bptr.getD [] ++ r.blocks.flatten

/-- A file without NUL bytes.  A block that is read has something in it. -/
def BlocksGood (blocks : List (List UInt8)) : Prop := ∀ b ∈ blocks, b ≠ [] ∧ 0 ∉ b

theorem cstr_eq_self {s : List UInt8} (h : 0 ∉ s) : cstr s = s :=
  List.takeWhile_eq_self_iff.mpr fun c hc => decide_eq_true fun h0 : c = 0 => h (h0 ▸ hc)

theorem scanBlocks_spec {blocks : List (List UInt8)} (hgood : BlocksGood blocks)
    (copied : Option (List UInt8)) (s : List UInt8) :
    match scanBlock copied (s ++ blocks.flatten) with
    | .outside => scanBlocks copied s blocks = none
    | .found tagNum tag rest => ∃ r, scanBlocks copied s blocks = some (tagNum, tag, r) ∧
        BlocksGood r.blocks ∧ r.content = rest
    | .more _ => ∃ r, scanBlocks copied s blocks = some (0, [], r) := by
  induction blocks generalizing copied s with
  | nil =>
    rw [List.flatten_nil, List.append_nil, scanBlocks]
    cases scanBlock copied s with
    | outside => rfl
    | found tagNum tag rest => exact ⟨_, rfl, hgood, by simp [TagReader.content]⟩
    | more copied => exact ⟨_, rfl⟩
  | cons block blocks ih =>
    obtain ⟨hne, hnul⟩ := hgood block (by simp)
    have hgood' : BlocksGood blocks := fun b hb => hgood b (by simp [hb])
    rw [List.flatten_cons, scanBlock_append, scanBlocks]
    cases scanBlock copied s with
    | outside => rfl
    | found tagNum tag rest => exact ⟨_, rfl, hgood, by simp [TagReader.content]⟩
    | more copied =>
      dsimp only
      rw [if_neg hne, cstr_eq_self hnul]
      exact ih hgood' copied block

/-- A call goes by what is left of the file. -/
theorem findTag_spec {r : TagReader} (hgood : BlocksGood r.blocks) :
    match scanBlock none r.content with
    | .outside => findTag r = none
    | .found tagNum tag rest => ∃ r', findTag r = some (tagNum, tag, r') ∧ BlocksGood r'.blocks ∧
        r'.content = rest
    | .more _ => ∃ r', findTag r = some (0, [], r') := by
  have hend : ∀ n, endTag n = false := fun n => by
    have hall : ∀ e ∈ tagTable, e.isEnd = false := by decide
    rw [endTag]
    cases h : tagTable[n - 1]? with
    | none => rfl
    | some e => exact hall e (List.mem_of_getElem? h)
  have hfind : findTag r = findATag none r := by
    rw [findTag]
    cases findATag none r with
    | none => rfl
    | some res => simp [hend]
  rw [hfind]
  obtain ⟨bptr, blocks⟩ := r
  cases bptr with
  | some s => exact scanBlocks_spec hgood none s
  | none =>
    cases blocks with
    | nil => exact ⟨_, rfl⟩
    | cons block blocks =>
      obtain ⟨hne, hnul⟩ := hgood block (by simp)
      have hgood' : BlocksGood blocks := fun b hb => hgood b (by simp [hb])
      have hread : findATag none ⟨none, block :: blocks⟩ = scanBlocks none block blocks := by
        rw [findATag]
        dsimp only
        rw [if_neg hne, cstr_eq_self hnul]
      rw [hread]
      exact scanBlocks_spec hgood' none block

/-- So do the calls until one returns 0. -/
theorem tagRun_iff_allTags {r : TagReader} (hgood : BlocksGood r.blocks)
    {tags : List (ℕ × List UInt8)} : TagRun r tags ↔ allTags none r.content = some tags := by
  constructor
  · intro h
    induction h with
    | stop hfind =>
      have hspec := findTag_spec hgood
      rw [allTags_scanBlock]
      cases hs : scanBlock none (TagReader.content _) with
      | outside =>
        rw [hs] at hspec
        exact absurd (hspec.symm.trans hfind) (by simp)
      | found tagNum tag rest =>
        rw [hs] at hspec
        obtain ⟨r', hr', -⟩ := hspec
        have h0 := congrArg Prod.fst (Option.some.inj (hr'.symm.trans hfind))
        exact absurd h0 (tagNum_ne_zero hs)
      | more copied => rfl
    | next hfind hne _ ih =>
      have hspec := findTag_spec hgood
      rw [allTags_scanBlock]
      cases hs : scanBlock none (TagReader.content _) with
      | outside =>
        rw [hs] at hspec
        exact absurd (hspec.symm.trans hfind) (by simp)
      | found tagNum tag rest =>
        rw [hs] at hspec
        obtain ⟨r', hr', hgood', hrest⟩ := hspec
        obtain ⟨rfl, rfl, rfl⟩ : tagNum = _ ∧ tag = _ ∧ r' = _ := by
          simpa using hr'.symm.trans hfind
        dsimp only
        rw [← hrest, ih hgood']
        rfl
      | more copied =>
        rw [hs] at hspec
        obtain ⟨r', hr'⟩ := hspec
        have h0 := congrArg Prod.fst (Option.some.inj (hr'.symm.trans hfind))
        exact absurd h0.symm hne
  · intro h
    induction tags generalizing r with
    | nil =>
      have hspec := findTag_spec hgood
      rw [allTags_scanBlock] at h
      cases hs : scanBlock none r.content with
      | outside => simp [hs] at h
      | found tagNum tag rest => simp [hs] at h
      | more copied =>
        rw [hs] at hspec
        obtain ⟨r', hr'⟩ := hspec
        exact .stop hr'
    | cons tag tags ih =>
      have hspec := findTag_spec hgood
      rw [allTags_scanBlock] at h
      cases hs : scanBlock none r.content with
      | outside => simp [hs] at h
      | more copied => simp [hs] at h
      | found tagNum text rest =>
        rw [hs] at h hspec
        obtain ⟨r', hr', hgood', rfl⟩ := hspec
        obtain ⟨rest', hrest, hcons⟩ := Option.map_eq_some_iff.mp h
        obtain ⟨rfl, rfl⟩ := List.cons.inj hcons
        exact .next hr' (tagNum_ne_zero hs) (ih hgood' hrest)

/-! ### What is found -/

theorem numbered_cons (number : List UInt8 → ℕ) (tag : List UInt8) (tags : List (List UInt8)) :
    numbered number (tag :: tags) =
      if number tag = 0 then numbered number tags else (number tag, tag) :: numbered number tags := by
  by_cases h : number tag = 0 <;> simp [numbered, h]

theorem emitTag_numbered (tag : List UInt8) (tags : List (List UInt8)) :
    emitTag tag (some (numbered interestingTag tags)) =
      some (numbered interestingTag (tag :: tags)) := by
  rw [emitTag, numbered_cons]
  by_cases h : interestingTag tag = 0 <;> simp [h]

section

variable {body s : List UInt8}

/-- Nothing starts where there is no `<`. -/
theorem stretches_append (h : ∀ c ∈ body, isAngle c = false) :
    stretches (body ++ s) = stretches s ∧ (InBuffer (body ++ s) ↔ InBuffer s) := by
  induction body with
  | nil => exact ⟨rfl, Iff.rfl⟩
  | cons c body ih =>
    have hc : c ≠ 60 := by
      rintro rfl
      exact absurd (h 60 (by simp)) (by decide)
    obtain ⟨hstretch, hbuffer⟩ := ih fun d hd => h d (by simp [hd])
    rw [List.cons_append, stretches, if_neg hc, InBuffer]
    exact ⟨hstretch, by rw [hbuffer]; simp [hc]⟩

/-- The copying goes on to the next `<` or `>`, if the buffer is long enough. -/
theorem allTags_copying (text : List UInt8) (hbody : ∀ c ∈ body, isAngle c = false)
    (hs : ∀ c, s.head? = some c → isAngle c = true) :
    allTags (some text) (body ++ s) =
      if body ≠ [] ∧ bufferSize < text.length + body.length then none
      else allTags (some (text ++ body)) s := by
  induction body generalizing text with
  | nil => simp
  | cons c body ih =>
    have hc := hbody c (by simp)
    have hlt : c ≠ 60 := by
      rintro rfl
      exact absurd hc (by decide)
    have hgt : c ≠ 62 := by
      rintro rfl
      exact absurd hc (by decide)
    rw [List.cons_append, allTags, if_neg hlt]
    dsimp only
    rw [if_neg hgt, ih _ fun d hd => hbody d (by simp [hd]), List.append_assoc,
      List.singleton_append]
    simp only [List.length_append, List.length_cons, List.length_nil]
    by_cases hfull : bufferSize ≤ text.length
    · rw [if_pos hfull, if_pos ⟨by simp, by omega⟩]
    · rw [if_neg hfull]
      by_cases hnil : body = []
      · subst hnil
        rw [if_neg (by simp), if_neg]
        simp only [List.length_nil]
        omega
      · simp only [hnil, ne_eq, not_false_eq_true, true_and, List.cons_ne_nil]
        have hiff : bufferSize < text.length + (0 + 1) + body.length ↔
            bufferSize < text.length + (body.length + 1) := by omega
        simp only [hiff]

/-- What the calls return, when the rest of the file is `s`. -/
theorem allTags_eq (s : List UInt8) :
    (InBuffer s → allTags none s = some (numbered interestingTag (stretches s))) ∧
      (¬InBuffer s → allTags none s = none) := by
  induction hlen : s.length using Nat.strong_induction_on generalizing s with
  | _ n ih =>
    cases s with
    | nil => exact ⟨fun _ => rfl, fun h => absurd trivial h⟩
    | cons c s =>
      rw [List.length_cons] at hlen
      by_cases hc : c = 60
      · subst hc
        -- the text between the `<` and what ends the copying
        set body := s.takeWhile (!isAngle ·) with hbodyDef
        have hdrop : s.drop body.length = s.dropWhile (!isAngle ·) := by
          conv_lhs => rw [← List.takeWhile_append_dropWhile (p := (!isAngle ·)) (l := s)]
          rw [hbodyDef, List.drop_left]
        have hsplit : s = body ++ s.drop body.length := by
          rw [hdrop, hbodyDef, List.takeWhile_append_dropWhile]
        have hbody : ∀ c ∈ body, isAngle c = false := fun c hc => by
          simpa using List.mem_takeWhile_imp hc
        have hrest : ∀ c, (s.drop body.length).head? = some c → isAngle c = true := fun c hc => by
          have hhead := List.head?_dropWhile_not (!isAngle ·) s
          rw [← hdrop, hc] at hhead
          simpa using hhead
        have hone : allTags none (60 :: s) = allTags (some [60]) s := by
          rw [allTags, if_pos rfl]
          rfl
        have hcopy := allTags_copying [60] hbody hrest
        rw [← hsplit] at hcopy
        rw [hone, hcopy, InBuffer, stretches, if_pos rfl]
        dsimp only
        rw [← hbodyDef]
        have hstretch := stretches_append (s := s.drop body.length) hbody
        rw [← hsplit] at hstretch
        rw [hstretch.1, hstretch.2]
        have hle : (s.drop body.length).length ≤ s.length := by
          rw [List.length_drop]
          exact Nat.sub_le _ _
        have hlong : (body ≠ [] ∧ bufferSize < [(60 : UInt8)].length + body.length) ↔
            bufferSize ≤ body.length := by
          rw [List.length_singleton, ← List.length_pos_iff, bufferSize]
          omega
        simp only [hlong, forall_const]
        cases hcase : s.drop body.length with
        | nil =>
          refine ⟨fun h => ?_, fun h => ?_⟩
          · rw [if_neg (not_le.mpr (by simpa using h.1))]
            rfl
          · rw [if_pos (by simpa [InBuffer] using h)]
        | cons d rest =>
          rw [hcase] at hle hrest
          rw [List.length_cons] at hle
          have hd := hrest d rfl
          by_cases hgt : d = 62
          · subst hgt
            -- the `>` and the NUL are written too
            have hend : allTags (some ([60] ++ body)) (62 :: rest) =
                if bufferSize ≤ body.length + 2 then none
                else emitTag (60 :: body ++ [62]) (allTags none rest) := by
              rw [allTags, if_neg (by decide)]
              dsimp only
              rw [if_pos rfl, List.length_append, List.length_singleton]
              by_cases hfull : bufferSize ≤ body.length + 2
              · rw [if_pos hfull]
                split
                · rfl
                · rw [if_pos (by omega)]
              · rw [if_neg (by omega), if_neg (by omega), if_neg hfull]
                rfl
            have hih := ih rest.length (by omega) rest rfl
            have hbuf : InBuffer (62 :: rest) ↔ InBuffer rest := by
              rw [InBuffer]
              simp
            have hstr : stretches (62 :: rest) = stretches rest := by
              rw [stretches, if_neg (by decide)]
            rw [hend, hbuf, hstr]
            simp only [List.head?_cons, if_true]
            refine ⟨fun h => ?_, fun h => ?_⟩
            · rw [if_neg (by omega), if_neg (by omega), hih.1 h.2, emitTag_numbered]
            · by_cases hfull : bufferSize ≤ body.length + 2
              · rw [if_pos hfull, ite_self]
              · rw [if_neg (by omega), if_neg hfull, hih.2 fun hr => h ⟨by omega, hr⟩, emitTag]
                simp
          · have h60 : d = 60 := by
              simpa [isAngle, hgt] using hd
            subst h60
            have hagain : allTags (some ([60] ++ body)) (60 :: rest) = allTags none (60 :: rest) := by
              rw [allTags, allTags, if_pos rfl, if_pos rfl]
            have hih := ih (60 :: rest).length (by rw [List.length_cons]; omega) (60 :: rest) rfl
            rw [hagain]
            simp only [List.head?_cons, Option.some.injEq, hgt, if_false]
            refine ⟨fun h => ?_, fun h => ?_⟩
            · rw [if_neg (by omega), hih.1 h.2]
            · by_cases hfull : bufferSize ≤ body.length
              · rw [if_pos hfull]
              · rw [if_neg hfull, hih.2 fun hr => h ⟨by omega, hr⟩]
      · rw [allTags, if_neg hc, InBuffer, stretches, if_neg hc]
        have hs := ih s.length (by omega) s rfl
        simpa [hc] using hs

/-- A stretch begins with the `<` and ends with the `>`; in the buffer it has room for the NUL. -/
theorem mem_stretches {s tag : List UInt8} (h : tag ∈ stretches s) :
    (∃ body, tag = 60 :: body ++ [62]) ∧ (InBuffer s → tag.length < bufferSize) := by
  induction s with
  | nil => exact absurd h List.not_mem_nil
  | cons c s ih =>
    rw [stretches] at h
    split at h
    next hc =>
      dsimp only at h
      split at h
      next hend =>
        rcases List.mem_cons.mp h with rfl | h
        · refine ⟨⟨_, rfl⟩, fun hbuf => ?_⟩
          have hroom := hbuf.1 hc
          rw [if_pos hend] at hroom
          simpa using hroom
        · exact ⟨(ih h).1, fun hbuf => (ih h).2 hbuf.2⟩
      next => exact ⟨(ih h).1, fun hbuf => (ih h).2 hbuf.2⟩
    next => exact ⟨(ih h).1, fun hbuf => (ih h).2 hbuf.2⟩

theorem length_numbered_le {number number' : List UInt8 → ℕ} {tags : List (List UInt8)}
    (h : ∀ tag ∈ tags, number tag = number' tag ∨ number' tag = 0) :
    (numbered number' tags).length ≤ (numbered number tags).length := by
  induction tags with
  | nil => rfl
  | cons tag tags ih =>
    have ih := ih fun t ht => h t (by simp [ht])
    rw [numbered_cons, numbered_cons]
    rcases h tag (by simp) with heq | hzero
    · rw [heq]
      split <;> simpa using ih
    · rw [if_pos hzero]
      split
      · exact ih
      · rw [List.length_cons]
        omega

/-- A number more or less shows, if one of the two ways of numbering only leaves tags out. -/
theorem numbered_eq_iff {number number' : List UInt8 → ℕ} {tags : List (List UInt8)}
    (h : ∀ tag ∈ tags, number tag = number' tag ∨ number' tag = 0) :
    numbered number tags = numbered number' tags ↔
      ∀ tag ∈ tags, number tag = number' tag := by
  induction tags with
  | nil => simp [numbered]
  | cons tag tags ih =>
    have htags : ∀ t ∈ tags, number t = number' t ∨ number' t = 0 := fun t ht => h t (by simp [ht])
    rw [numbered_cons, numbered_cons, List.forall_mem_cons, ← ih htags]
    by_cases heq : number tag = number' tag
    · rw [heq]
      split <;> simp
    · have hzero := (h tag (by simp)).resolve_left heq
      rw [hzero] at heq
      rw [if_neg heq, if_pos hzero, hzero]
      refine iff_of_false (fun hcons => ?_) fun hboth => heq hboth.1
      have hlen := length_numbered_le htags
      rw [← hcons, List.length_cons] at hlen
      omega

/-- **The tags that the calls return** are those of the document exactly if all of it goes into the
buffer, and no tag has only the beginning of one of the names. -/
theorem tagRun_iff (blocks : List (List UInt8)) (hgood : BlocksGood blocks) :
    TagRun ⟨none, blocks⟩ (tagsOf blocks.flatten) ↔
      InBuffer blocks.flatten ∧ ∀ tag ∈ stretches blocks.flatten, ¬ShortName (tagName tag) := by
  rw [tagRun_iff_allTags hgood]
  show allTags none ([] ++ blocks.flatten) = _ ↔ _
  rw [List.nil_append, tagsOf]
  set s := blocks.flatten
  obtain ⟨hin, hout⟩ := allTags_eq s
  by_cases hbuf : InBuffer s
  · have hall : (stretches s).filter (fun tag => tag.length < bufferSize) = stretches s :=
      List.filter_eq_self.mpr fun tag htag => decide_eq_true ((mem_stretches htag).2 hbuf)
    have hcases : ∀ tag ∈ stretches s,
        interestingTag tag = tagNumber tag ∨ tagNumber tag = 0 := by
      intro tag htag
      obtain ⟨body, rfl⟩ := (mem_stretches htag).1
      rcases interestingTag_cases body with h | h
      · exact .inr h.2.2
      · exact .inl h.2
    rw [hin hbuf, hall, Option.some.injEq, numbered_eq_iff hcases]
    simp only [hbuf, true_and]
    refine forall₂_congr fun tag htag => ?_
    obtain ⟨body, rfl⟩ := (mem_stretches htag).1
    rcases interestingTag_cases body with ⟨hshort, hne, hzero⟩ | ⟨hshort, heq⟩
    · exact iff_of_false (fun h => hne (h.trans hzero)) fun h => h hshort
    · exact iff_of_true heq hshort
  · rw [hout hbuf]
    simp [hbuf]

/-- A file of two blocks, the second of which begins in a tag. -/
theorem tagRun_twoBlocks : TagRun ⟨none, [bytes "x<a hr", bytes "ef=y>"]⟩
    (tagsOf [bytes "x<a hr", bytes "ef=y>"].flatten) := by
  refine (tagRun_iff _ ?_).mpr ⟨?_, ?_⟩
  · unfold BlocksGood
    decide
  · decide +kernel
  · have hstretch : stretches [bytes "x<a hr", bytes "ef=y>"].flatten = [bytes "<a href=y>"] := by
      decide +kernel
    intro tag htag
    rw [hstretch, List.mem_singleton] at htag
    subst htag
    rintro ⟨-, -, hno⟩
    exact absurd (hno ⟨bytes "A", false, 1⟩ (by decide)) (by decide)

/-- The tag `<B>` is taken for one with the name `BASE`. -/
theorem not_tagRun : ¬∀ blocks : List (List UInt8), BlocksGood blocks →
    TagRun ⟨none, blocks⟩ (tagsOf blocks.flatten) := by
  intro h
  have hgood : BlocksGood [bytes "<B>"] := by
    unfold BlocksGood
    decide
  have hrun := (tagRun_iff_allTags hgood).mp (h [bytes "<B>"] hgood)
  exact absurd hrun (by decide +kernel)

end

end Archie
