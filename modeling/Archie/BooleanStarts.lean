/-
The starts of a boolean query (`archsearch/boolean-search.c`:
`archGetBooleanStarts`).

The strings that match the and-words of a group are found by searching; those with a
not-word are taken out by looking the word up in each string.  The groups are put
together one by one.

* `archGetBooleanStarts` — the function.
* `booleanGroups_spec` — what the lists of the groups come to.
* `archGetBooleanStarts_iff` — the result is the starts that the query asks for, in
  order, exactly if the two ways to match a not-word come to the same, and the list of
  a single group is in order by itself.
-/
import Mathlib.Data.Finset.Card
import Archie.BooleanOps
import Archie.StridxState
import Archie.UitextSearch

namespace Archie

/-- `BOOL_MAX_MATCH`. -/
def boolMaxMatch : ℕ := 1000

/-- `CEILING_MAX`. -/
def ceilingMax : ℕ := 12000

/-- The words of one group of a `bool_query_t`: its `and_list` and its `not_list`. -/
structure BoolGroup where
  andWords : List (List UInt8)
  notWords : List (List UInt8)
  deriving DecidableEq, Repr

section

variable (calls : Calls) (getString : ℕ → Option (List UInt8)) (type : SrchType) (caseSens : ℤ)

/-- `getStartsFromWord`; a search that fails has no result. -/
def getStartsFromWord (word : List UInt8) (strhan : StridxHandle) (mtch : ℕ) :
    Option (StridxHandle × List ℕ) := do
  let start := List.replicate mtch 0
  let (strhan, hits, start) ← match type with
    | .exact => archSearchExact calls strhan word caseSens mtch start
    | .substr => archSearchSub calls strhan word caseSens mtch start
    | .regex => archSearchRegex calls strhan word caseSens mtch start
    | .unset => none
  some (strhan, start.take hits)

/-- What the searches for the and-words of a group have found: `and_starts`, the states
after each search (`strhan_arr`) and the number of starts of the last one. -/
structure AndStarts where
  starts : List (List ℕ)
  states : List (List UInt8)
  numFoundStr : ℕ
  deriving DecidableEq, Repr

/-- The searches for the and-words of a group, up to a word that is not found. -/
def searchAndWords : List (List UInt8) → StridxHandle → AndStarts →
    Option (StridxHandle × Option AndStarts)
  | [], strhan, found => some (strhan, some found)
  | word :: words, strhan, found => do
    let (strhan, start) ← getStartsFromWord calls type caseSens word strhan boolMaxMatch
    let state ← archGetStateString strhan
    let next : AndStarts := ⟨found.starts ++ [start], found.states ++ [state], start.length⟩
    if start = [] then some (strhan, none) else searchAndWords words strhan next

/-- The size of the smallest list of starts, and the last word that has it. -/
def smallestList (starts : List (List ℕ)) : ℕ × ℕ :=
  starts.zipIdx.foldl (fun (min, ind) (start, j) =>
    if start.length ≤ min then (start.length, j) else (min, ind)) (boolMaxMatch, 0)

/-- The size of the largest list of starts. -/
def largestSize (starts : List (List ℕ)) : ℕ :=
  starts.foldl (fun max start => if max < start.length then start.length else max) 0

/-- `getLongestAndWord`. -/
def getLongestAndWord (words : List (List UInt8)) : Option ℕ :=
  (words.zipIdx.foldl (fun (max, ind) (word, k) =>
    if max < word.length then (word.length, some k) else (max, ind)) (0, none)).2

/-- Method 0: every list is complete, and they are intersected. -/
def intersectAll : List (List ℕ) → List ℕ
  | [] => []
  | start :: starts => starts.foldl (archAnonftpOperOn2Lists .andOp) start

/-- Method 1: some list is complete; the other words are looked up in its strings. -/
def filterSmallest (words : List (List UInt8)) (starts : List (List ℕ)) (minInd : ℕ) :
    Option (List ℕ) := do
  let start ← starts[minInd]?
  words.zipIdx.foldlM (fun resList (word, k) =>
    if k = minInd then some resList
    else archAnonftpOper getString .andOp word caseSens resList) start

/-- The variables of method 2. -/
structure LongState where
  inlist : List ℕ
  si : ℕ
  so : ℕ
  stopin : ℕ
  stopout : ℕ
  olist : List ℕ
  deriving DecidableEq, Repr

/-- A round of method 2: the words other than the longest are looked up one after the
other, the first in the new starts and the others in what is left. -/
def filterMore (words : List (List UInt8)) (minInd : ℕ) (resList : List ℕ) (s : LongState) :
    Option LongState :=
  words.zipIdx.foldlM (fun s (word, k) =>
    if k = minInd then some s
    else do
      let (_, olist) ← archAnonftpOperCont getString s.inlist s.si s.so .andOp word caseSens s.olist
      let last := k + 1 = words.length
      let stopin := if last then resList.length else s.stopin
      let stopout := if last then olist.length else s.stopout
      some { inlist := olist, si := stopout, so := stopout, stopin := stopin, stopout := stopout
             olist := olist })
    { s with inlist := resList, si := s.stopin, so := s.stopout }

/-- Method 2: no list is complete; more starts of the longest word are asked for until
there are none, or enough.  `fresh` says that none were asked for yet. -/
def filterLongest (words : List (List UInt8)) (found : AndStarts) (minInd : ℕ) :
    ℕ → StridxHandle → Bool → ℕ → List ℕ → LongState → Option (StridxHandle × List ℕ)
  | 0, _, _, _, _, _ => none
  | fuel + 1, strhan, fresh, numFoundStr, resList, s => do
    let s ← filterMore getString caseSens words minInd resList s
    if numFoundStr < boolMaxMatch then some (strhan, s.olist)
    else
      let state ← found.states[minInd]?
      let first ← found.starts[minInd]?
      let strhan ← if fresh then archSetStateFromString strhan state else some strhan
      let resList := if fresh then first else resList
      let (strhan, hits, start) ←
        archGetMoreMatches calls strhan boolMaxMatch (List.replicate boolMaxMatch 0)
      if hits = 0 then some (strhan, s.olist)
      else
        let resList := archStartIndexConcat resList (start.take hits)
        if ceilingMax ≤ resList.length then some (strhan, s.olist)
        else filterLongest words found minInd fuel strhan false resList.length resList s

/-- The starts that match all and-words of a group; `none` when a word is not found. -/
def groupStarts (words : List (List UInt8)) (strhan : StridxHandle) :
    Option (StridxHandle × Option (List ℕ)) := do
  let (strhan, found) ← searchAndWords calls type caseSens words strhan ⟨[], [], 0⟩
  match found with
  | none => some (strhan, none)
  | some found =>
    let (min, minInd) := smallestList found.starts
    let max := largestSize found.starts
    if 1 < words.length then
      if max < boolMaxMatch then some (strhan, some (intersectAll found.starts))
      else if min < boolMaxMatch then do
        let resList ← filterSmallest getString caseSens words found.starts minInd
        some (strhan, some resList)
      else do
        let minInd ← getLongestAndWord words
        let first ← found.starts[minInd]?
        let (strhan, resList) ← filterLongest calls getString caseSens words found minInd ceilingMax
          strhan true found.numFoundStr first ⟨[], 0, 0, 0, 0, []⟩
        some (strhan, some resList)
    else do
      let first ← found.starts[0]?
      some (strhan, some first)

/-- The variables of the loop over the groups.  `opersz` is the size of the last union. -/
structure BooleanState where
  strhan : StridxHandle
  tmpList : Option (List ℕ)
  opersz : ℕ
  stop : Bool
  whereTo : ℕ
  deriving DecidableEq, Repr

/-- The list of a group, without its not-words, is united with those before it. -/
def addGroup (limit i : ℕ) (resList : List ℕ) (s : BooleanState) : BooleanState :=
  let s := if limit ≤ resList.length + s.opersz then { s with stop := true, whereTo := i } else s
  match s.tmpList with
  | some tmpList =>
    let operList := archAnonftpOperOn2Lists .orOp tmpList resList
    { s with tmpList := some operList, opersz := operList.length }
  | none => { s with tmpList := some resList }

/-- One round of the loop over the groups. -/
def booleanGroup (limit i : ℕ) (group : BoolGroup) (s : BooleanState) : Option BooleanState := do
  let (strhan, resList) ← groupStarts calls getString type caseSens group.andWords s.strhan
  let s := { s with strhan := strhan }
  match resList with
  | none => some s
  | some resList =>
    if resList = [] then some s
    else do
      let resList ← group.notWords.foldlM
        (fun resList word => archAnonftpOper getString .notOp word caseSens resList) resList
      some (addGroup limit i resList s)

/-- The loop over the groups. -/
def booleanGroups (limit : ℕ) : ℕ → List BoolGroup → BooleanState → Option BooleanState
  | i, [], s => some (if s.stop then s else { s with whereTo := i })
  | i, group :: groups, s =>
    if s.stop then some s
    else do
      let s ← booleanGroup calls getString type caseSens limit i group s
      booleanGroups limit (i + 1) groups s

/-- `archGetBooleanStarts`, with `h + acc_res + num_hits` for the limit: the list and the
new `where`. -/
def archGetBooleanStarts (limit : ℕ) (qry : List BoolGroup) (whereFrom : ℕ)
    (strhan : StridxHandle) :
    Option (StridxHandle × Option (List ℕ) × ℕ) := do
  if whereFrom < qry.length then
    let s ← booleanGroups calls getString type caseSens limit whereFrom (qry.drop whereFrom)
      { strhan := strhan, tmpList := none, opersz := 0, stop := false, whereTo := whereFrom }
    some (s.strhan, s.tmpList, s.whereTo)
  else some (strhan, none, 0)

end

/-! ### The lists of a group -/

/-- A database that answers a search for one of the words with a list that does not
depend on the searches before: its strings match the word. -/
structure SubAnswers (calls : Calls) (caseSens : ℤ) (isDb : StridxHandle → Prop)
    (sub : List UInt8 → List ℕ) (words : List (List UInt8)) : Prop where
  search : ∀ strhan, isDb strhan → ∀ word ∈ words, ∃ strhan' hits start,
    archSearchSub calls strhan word caseSens boolMaxMatch (List.replicate boolMaxMatch 0) =
      some (strhan', hits, start) ∧ start.take hits = sub word ∧ isDb strhan' ∧
      (archGetStateString strhan').isSome
  few : ∀ word ∈ words, (sub word).length < boolMaxMatch

section

variable {calls : Calls} {getString : ℕ → Option (List UInt8)} {caseSens : ℤ}
  {isDb : StridxHandle → Prop} {sub : List UInt8 → List ℕ} {words : List (List UInt8)}

theorem SubAnswers.mono (h : SubAnswers calls caseSens isDb sub words) {words' : List (List UInt8)}
    (hsub : ∀ word ∈ words', word ∈ words) : SubAnswers calls caseSens isDb sub words' :=
  ⟨fun strhan hdb word hword => h.search strhan hdb word (hsub word hword),
    fun word hword => h.few word (hsub word hword)⟩

/-- The searches find the lists of all words, unless one of them is empty. -/
theorem searchAndWords_spec (h : SubAnswers calls caseSens isDb sub words) {strhan : StridxHandle}
    (hdb : isDb strhan) (found : AndStarts) : ∃ strhan' found', isDb strhan' ∧
      searchAndWords calls .substr caseSens words strhan found =
        some (strhan', if ∃ word ∈ words, sub word = [] then none else some found') ∧
      found'.starts = found.starts ++ words.map sub := by
  induction words generalizing strhan found with
  | nil => exact ⟨strhan, found, hdb, by simp [searchAndWords], by simp⟩
  | cons word words ih =>
    obtain ⟨strhan₁, hits, start, hrun, htake, hdb₁, hstate⟩ := h.search strhan hdb word (by simp)
    obtain ⟨state, hstate⟩ := Option.isSome_iff_exists.mp hstate
    have hword : getStartsFromWord calls .substr caseSens word strhan boolMaxMatch =
        some (strhan₁, sub word) := by
      simp only [getStartsFromWord, hrun, htake, Option.bind_eq_bind, Option.bind_some]
    rw [searchAndWords, hword]
    simp only [Option.bind_eq_bind, Option.bind_some, hstate]
    by_cases hempty : sub word = []
    · refine ⟨strhan₁, ⟨found.starts ++ (word :: words).map sub, [], 0⟩, hdb₁, ?_, rfl⟩
      rw [if_pos hempty, if_pos ⟨word, by simp, hempty⟩]
    · obtain ⟨strhan', found', hdb', hrun', hstarts⟩ :=
        ih (h.mono fun w hw => by simp [hw]) hdb₁
          ⟨found.starts ++ [sub word], found.states ++ [state], (sub word).length⟩
      refine ⟨strhan', found', hdb', ?_, by simp [hstarts]⟩
      rw [if_neg hempty, hrun']
      simp [hempty]

theorem mem_foldl_and {starts : List (List ℕ)} {start : List ℕ} {t : ℕ} :
    t ∈ starts.foldl (archAnonftpOperOn2Lists .andOp) start ↔ t ∈ start ∧ ∀ l ∈ starts, t ∈ l := by
  induction starts generalizing start with
  | nil => simp
  | cons l starts ih =>
    rw [List.foldl_cons, ih, mem_archAnonftpOperOn2Lists.1, and_assoc, List.forall_mem_cons]

theorem pairwise_foldl_and {starts : List (List ℕ)} {start : List ℕ}
    (h : start.Pairwise (· < ·) ∨ starts ≠ []) :
    (starts.foldl (archAnonftpOperOn2Lists .andOp) start).Pairwise (· < ·) := by
  induction starts generalizing start with
  | nil => exact h.resolve_right fun hne => hne rfl
  | cons l starts ih =>
    rw [List.foldl_cons]
    exact ih (.inl (pairwise_archAnonftpOperOn2Lists .andOp start l))

/-- The starts that match all and-words. -/
def matched (sub : List UInt8 → List ℕ) (words : List (List UInt8)) : List ℕ :=
  if ∃ word ∈ words, sub word = [] then [] else intersectAll (words.map sub)

theorem mem_matched (hne : words ≠ []) {t : ℕ} :
    t ∈ matched sub words ↔ ∀ word ∈ words, t ∈ sub word := by
  rw [matched]
  split
  next h =>
    obtain ⟨word, hword, hempty⟩ := h
    refine iff_of_false (by simp) fun hall => ?_
    have ht := hall word hword
    rw [hempty] at ht
    exact absurd ht (by simp)
  next =>
    cases words with
    | nil => exact absurd rfl hne
    | cons word words =>
      rw [List.map_cons, intersectAll, mem_foldl_and, List.forall_mem_cons]
      simp

/-- The starts of several and-words are in ascending order. -/
theorem pairwise_matched (hlen : 1 < words.length) : (matched sub words).Pairwise (· < ·) := by
  rw [matched]
  split
  next => exact List.Pairwise.nil
  next =>
    cases words with
    | nil => exact absurd hlen (by simp)
    | cons word words =>
      refine pairwise_foldl_and (.inr ?_)
      rw [Ne, List.map_eq_nil_iff]
      rintro rfl
      simp at hlen

theorem matched_singleton (word : List UInt8) : matched sub [word] = sub word := by
  rw [matched]
  split
  next h =>
    obtain ⟨w, hw, hempty⟩ := h
    rw [List.mem_singleton.mp hw] at hempty
    exact hempty.symm
  next => rfl

theorem largestSize_lt {starts : List (List ℕ)} {n : ℕ} (hn : 0 < n)
    (h : ∀ l ∈ starts, l.length < n) :
    largestSize starts < n := by
  have hfold : ∀ (starts : List (List ℕ)) (k : ℕ), k < n → (∀ l ∈ starts, l.length < n) →
      starts.foldl (fun max start => if max < start.length then start.length else max) k < n := by
    intro starts
    induction starts with
    | nil => exact fun k hk _ => hk
    | cons l starts ih =>
      intro k hk hall
      rw [List.foldl_cons]
      refine ih _ ?_ fun l' hl' => hall l' (by simp [hl'])
      split
      · exact hall l (by simp)
      · exact hk
  exact hfold starts 0 hn h

/-- The list of a group is the starts that match all of its and-words. -/
theorem groupStarts_spec (h : SubAnswers calls caseSens isDb sub words) (hne : words ≠ [])
    {strhan : StridxHandle} (hdb : isDb strhan) : ∃ strhan' res, isDb strhan' ∧
      groupStarts calls getString .substr caseSens words strhan = some (strhan', res) ∧
      res.getD [] = matched sub words := by
  obtain ⟨strhan', found, hdb', hrun, hstarts⟩ := searchAndWords_spec h hdb ⟨[], [], 0⟩
  rw [List.nil_append] at hstarts
  rw [groupStarts, hrun]
  simp only [Option.bind_eq_bind, Option.bind_some]
  by_cases hempty : ∃ word ∈ words, sub word = []
  · rw [if_pos hempty]
    exact ⟨strhan', none, hdb', rfl, by rw [matched, if_pos hempty, Option.getD_none]⟩
  rw [if_neg hempty]
  by_cases hlen : 1 < words.length
  · have hmax : largestSize found.starts < boolMaxMatch := by
      rw [hstarts]
      refine largestSize_lt (by decide) ?_
      intro l hl
      obtain ⟨word, hword, rfl⟩ := List.mem_map.mp hl
      exact h.few word hword
    refine ⟨strhan', some (intersectAll found.starts), hdb', ?_, ?_⟩
    · simp only [hlen, hmax, if_true]
    · rw [Option.getD_some, hstarts, matched, if_neg hempty]
  · -- a single word
    obtain ⟨word, rfl⟩ : ∃ word, words = [word] := by
      cases words with
      | nil => exact absurd rfl hne
      | cons word words =>
        cases words with
        | nil => exact ⟨word, rfl⟩
        | cons _ _ => exact absurd (by simp) hlen
    refine ⟨strhan', some (sub word), hdb', ?_, ?_⟩
    · simp [hstarts]
    · rw [Option.getD_some, matched_singleton]

/-! ### The not-words -/

/-- Whether the string of a start has one of the not-words. -/
def hasNotWord (getString : ℕ → Option (List UInt8)) (caseSens : ℤ) (group : BoolGroup) (t : ℕ) :
    Bool :=
  group.notWords.any fun word => hasWord getString caseSens word t

/-- The starts of a group that are left without its not-words. -/
def kept (getString : ℕ → Option (List UInt8)) (caseSens : ℤ) (sub : List UInt8 → List ℕ)
    (group : BoolGroup) : List ℕ :=
  (matched sub group.andWords).filter fun t => !hasNotWord getString caseSens group t

theorem foldlM_not_eq {notWords : List (List UInt8)} {list : List ℕ}
    (h : ∀ t ∈ list, (getString t).isSome) :
    notWords.foldlM (fun resList word =>
      archAnonftpOper getString .notOp word caseSens resList) list =
      some (list.filter fun t => !notWords.any fun word => hasWord getString caseSens word t) := by
  induction notWords generalizing list with
  | nil => simp
  | cons word notWords ih =>
    have hkeeps : ∀ t, BoolOps.notOp.keeps (hasWord getString caseSens word t) =
        !hasWord getString caseSens word t := by
      simp [BoolOps.keeps]
    rw [List.foldlM_cons, archAnonftpOper_eq _ _ _ h]
    simp only [Option.bind_eq_bind, Option.bind_some, hkeeps]
    rw [ih fun t ht => h t (List.mem_of_mem_filter ht), List.filter_filter]
    simp only [List.any_cons, Bool.not_or, Bool.and_comm]

/-- The size of the list is that of a set. -/
theorem length_of_pairwise {l : List ℕ} (h : l.Pairwise (· < ·)) : l.length = l.toFinset.card :=
  (List.toFinset_card_of_nodup (h.imp fun {a b} (hab : a < b) => hab.ne)).symm

/-- The groups that have strings with all of their and-words. -/
def listed (sub : List UInt8 → List ℕ) (groups : List BoolGroup) : List BoolGroup :=
  groups.filter fun group => matched sub group.andWords ≠ []

/-- The variables of the loop after some groups: with two lists or more they are
united, a single one is kept as it is. -/
structure Collected (getString : ℕ → Option (List UInt8)) (caseSens : ℤ)
    (isDb : StridxHandle → Prop) (sub : List UInt8 → List ℕ) (groups : List BoolGroup)
    (s : BooleanState) : Prop where
  db : isDb s.strhan
  stop : s.stop = false
  none : listed sub groups = [] → s.tmpList = none ∧ s.opersz = 0
  one : ∀ group, listed sub groups = [group] →
    s.tmpList = some (kept getString caseSens sub group) ∧ s.opersz = 0
  more : 2 ≤ (listed sub groups).length → ∃ list, s.tmpList = some list ∧ s.opersz = list.length ∧
    list.Pairwise (· < ·)
  mem : ∀ t, t ∈ s.tmpList.getD [] ↔ ∃ group ∈ groups, t ∈ kept getString caseSens sub group

theorem Collected.opersz_le {groups : List BoolGroup} {s : BooleanState}
    (h : Collected getString caseSens isDb sub groups s) :
    s.opersz ≤ (groups.flatMap (kept getString caseSens sub)).toFinset.card := by
  by_cases hmore : 2 ≤ (listed sub groups).length
  · obtain ⟨list, hlist, hsize, hsorted⟩ := h.more hmore
    rw [hsize, length_of_pairwise hsorted]
    refine Finset.card_le_card fun t ht => ?_
    have hmem := (h.mem t).mp (by rw [hlist]; exact List.mem_toFinset.mp ht)
    simpa using hmem
  · have hzero : s.opersz = 0 := by
      cases hl : listed sub groups with
      | nil => exact (h.none hl).2
      | cons group rest =>
        rw [hl, List.length_cons] at hmore
        have hrest : rest = [] := List.length_eq_zero_iff.mp (by omega)
        exact (h.one group (by rw [hl, hrest])).2
    omega

/-- A group is added. -/
theorem booleanGroup_spec {groups : List BoolGroup} {s : BooleanState}
    (hs : Collected getString caseSens isDb sub groups s) {group : BoolGroup}
    (h : SubAnswers calls caseSens isDb sub group.andWords) (hne : group.andWords ≠ [])
    (hstring : ∀ word ∈ group.andWords, ∀ t ∈ sub word, (getString t).isSome) {limit : ℕ}
    (hlimit : (kept getString caseSens sub group).length +
      (groups.flatMap (kept getString caseSens sub)).toFinset.card < limit) (i : ℕ) :
    ∃ s', booleanGroup calls getString .substr caseSens limit i group s = some s' ∧
      Collected getString caseSens isDb sub (groups ++ [group]) s' := by
  obtain ⟨strhan', res, hdb', hrun, hres⟩ := @groupStarts_spec _ getString _ _ _ _ h hne _ hs.db
  have hlisted : listed sub (groups ++ [group]) =
      listed sub groups ++ if matched sub group.andWords = [] then [] else [group] := by
    rw [listed, List.filter_append, listed]
    by_cases hempty : matched sub group.andWords = [] <;> simp [hempty]
  rw [booleanGroup, hrun]
  simp only [Option.bind_eq_bind, Option.bind_some]
  by_cases hempty : matched sub group.andWords = []
  · -- nothing is added
    have hkept : kept getString caseSens sub group = [] := by rw [kept, hempty, List.filter_nil]
    rw [if_pos hempty, List.append_nil] at hlisted
    refine ⟨{ s with strhan := strhan' }, ?_, ?_⟩
    · cases res with
      | none => rfl
      | some list =>
        rw [Option.getD_some, hempty] at hres
        rw [hres]
        rfl
    · exact {
        db := hdb'
        stop := hs.stop
        none := by rw [hlisted]; exact hs.none
        one := by rw [hlisted]; exact hs.one
        more := by rw [hlisted]; exact hs.more
        mem := by simp [hs.mem, hkept] }
  · obtain rfl : res = some (matched sub group.andWords) := by
      cases res with
      | none =>
        rw [Option.getD_none] at hres
        exact absurd hres.symm hempty
      | some list => rw [← hres, Option.getD_some]
    have hsome : ∀ t ∈ matched sub group.andWords, (getString t).isSome := by
      intro t ht
      obtain ⟨word, hword⟩ := List.exists_mem_of_ne_nil _ hne
      exact hstring word hword t ((mem_matched hne).mp ht word hword)
    have hbelow : ¬ limit ≤ (kept getString caseSens sub group).length + s.opersz := by
      have hle := hs.opersz_le
      omega
    rw [if_neg hempty] at hlisted
    dsimp only
    rw [if_neg hempty, foldlM_not_eq hsome]
    refine ⟨_, rfl, ?_⟩
    rw [show (matched sub group.andWords).filter (fun t => !group.notWords.any fun word =>
      hasWord getString caseSens word t) = kept getString caseSens sub group from rfl, addGroup,
      if_neg hbelow]
    have hmem : ∀ t, t ∈ s.tmpList.getD [] ∨ t ∈ kept getString caseSens sub group ↔
        ∃ g ∈ groups ++ [group], t ∈ kept getString caseSens sub g := by
      intro t
      rw [hs.mem]
      simp [or_and_right, exists_or]
    cases htmp : s.tmpList with
    | none =>
      have hnil : listed sub groups = [] := by
        cases hl : listed sub groups with
        | nil => rfl
        | cons g rest =>
          cases rest with
          | nil =>
            have hone := (hs.one g hl).1
            rw [htmp] at hone
            exact absurd hone (by simp)
          | cons g' rest =>
            obtain ⟨list, hlist, -⟩ := hs.more (by simp [hl])
            rw [htmp] at hlist
            exact absurd hlist (by simp)
      rw [htmp] at hmem
      rw [hnil, List.nil_append] at hlisted
      have hzero := (hs.none hnil).2
      exact {
        db := hdb'
        stop := hs.stop
        none := by simp [hlisted]
        one := by simp [hlisted, hzero]
        more := by simp [hlisted]
        mem := by simpa using hmem }
    | some tmpList =>
      have hsome : listed sub groups ≠ [] := by
        intro hnil
        have hnone := (hs.none hnil).1
        rw [htmp] at hnone
        exact absurd hnone (by simp)
      have hpos := List.length_pos_iff.mpr hsome
      rw [htmp, Option.getD_some] at hmem
      exact {
        db := hdb'
        stop := hs.stop
        none := by simp [hlisted]
        one := by
          intro g hg
          have hlen := congrArg List.length (hlisted.symm.trans hg)
          rw [List.length_append, List.length_singleton, List.length_singleton] at hlen
          omega
        more := fun _ => ⟨_, rfl, rfl, pairwise_archAnonftpOperOn2Lists .orOp tmpList _⟩
        mem := by
          intro t
          rw [Option.getD_some, mem_archAnonftpOperOn2Lists.2.1, hmem] }

/-- **The loop over the groups** puts their lists together, as long as the limit is not
reached. -/
theorem booleanGroups_spec {pre groups : List BoolGroup} {s : BooleanState}
    (hs : Collected getString caseSens isDb sub pre s)
    (h : ∀ group ∈ groups, SubAnswers calls caseSens isDb sub group.andWords)
    (hne : ∀ group ∈ groups, group.andWords ≠ [])
    (hstring : ∀ group ∈ groups, ∀ word ∈ group.andWords, ∀ t ∈ sub word, (getString t).isSome)
    {limit : ℕ} (hlimit : ∀ pre' group rest, pre ++ groups = pre' ++ group :: rest →
      (kept getString caseSens sub group).length +
        (pre'.flatMap (kept getString caseSens sub)).toFinset.card < limit) (i : ℕ) :
    ∃ s', booleanGroups calls getString .substr caseSens limit i groups s = some s' ∧
      s'.whereTo = i + groups.length ∧
        Collected getString caseSens isDb sub (pre ++ groups) s' := by
  induction groups generalizing pre s i with
  | nil =>
    refine ⟨{ s with whereTo := i }, ?_, rfl, ?_⟩
    · rw [booleanGroups, hs.stop]
      rfl
    · rw [List.append_nil]
      exact ⟨hs.db, hs.stop, hs.none, hs.one, hs.more, hs.mem⟩
  | cons group groups ih =>
    obtain ⟨s₁, hs₁, hcollected⟩ := booleanGroup_spec hs (h group (by simp)) (hne group (by simp))
      (hstring group (by simp)) (hlimit pre group groups rfl) i
    have happend : pre ++ group :: groups = (pre ++ [group]) ++ groups := by simp
    obtain ⟨s', hs', hwhere, hall⟩ := ih hcollected (fun g hg => h g (by simp [hg]))
      (fun g hg => hne g (by simp [hg])) (fun g hg => hstring g (by simp [hg]))
      (by rw [← happend]; exact hlimit) (i + 1)
    rw [booleanGroups, hs.stop]
    simp only [Bool.false_eq_true, if_false, hs₁, Option.bind_eq_bind, Option.bind_some]
    refine ⟨s', hs', ?_, happend ▸ hall⟩
    rw [hwhere, List.length_cons]
    omega

/-! ### The whole query -/

/-- A start is one that a group asks for. -/
def AskedFor (sub : List UInt8 → List ℕ) (group : BoolGroup) (t : ℕ) : Prop :=
  (∀ word ∈ group.andWords, t ∈ sub word) ∧ ∀ word ∈ group.notWords, t ∉ sub word

/-- For each string with all and-words of a group, looking the not-words up in it and
searching for them come to the same; or else it does not matter, since the string
belongs to the result of some group both ways. -/
def SameNotWords (getString : ℕ → Option (List UInt8)) (caseSens : ℤ) (sub : List UInt8 → List ℕ)
    (groups : List BoolGroup) : Prop :=
  ∀ group ∈ groups, ∀ t, (∀ word ∈ group.andWords, t ∈ sub word) →
    (hasNotWord getString caseSens group t = true ↔ ∃ word ∈ group.notWords, t ∈ sub word) ∨
    ((∃ g ∈ groups, (∀ word ∈ g.andWords, t ∈ sub word) ∧
      hasNotWord getString caseSens g t = false) ∧
      ∃ g ∈ groups, AskedFor sub g t)

/-- If only one group has strings, and that by a single word, its list is in order. -/
def SingleInOrder (getString : ℕ → Option (List UInt8)) (caseSens : ℤ) (sub : List UInt8 → List ℕ)
    (groups : List BoolGroup) : Prop :=
  ∀ group word, listed sub groups = [group] → group.andWords = [word] →
    ((sub word).filter fun t => !hasNotWord getString caseSens group t).Pairwise (· < ·)

theorem mem_kept {group : BoolGroup} (hne : group.andWords ≠ []) {t : ℕ} :
    t ∈ kept getString caseSens sub group ↔
      (∀ word ∈ group.andWords, t ∈ sub word) ∧ hasNotWord getString caseSens group t = false := by
  rw [kept, List.mem_filter, mem_matched hne, Bool.not_eq_true']

theorem sameNotWords_iff {groups : List BoolGroup} :
    SameNotWords getString caseSens sub groups ↔ ∀ t,
      (∃ g ∈ groups, (∀ word ∈ g.andWords, t ∈ sub word) ∧
        hasNotWord getString caseSens g t = false) ↔
        ∃ g ∈ groups, AskedFor sub g t := by
  constructor
  · intro h t
    constructor
    · rintro ⟨g, hg, hand, hnot⟩
      rcases h g hg t hand with hsame | ⟨-, hasked⟩
      · refine ⟨g, hg, hand, fun word hword ht => ?_⟩
        have htrue := hsame.mpr ⟨word, hword, ht⟩
        rw [hnot] at htrue
        exact absurd htrue (by simp)
      · exact hasked
    · rintro ⟨g, hg, hand, hnot⟩
      rcases h g hg t hand with hsame | ⟨hleft, -⟩
      · refine ⟨g, hg, hand, ?_⟩
        rw [← Bool.not_eq_true, hsame]
        rintro ⟨word, hword, ht⟩
        exact hnot word hword ht
      · exact hleft
  · intro h g hg t hand
    by_cases hleft : hasNotWord getString caseSens g t = true
    · by_cases hright : ∃ word ∈ g.notWords, t ∈ sub word
      · exact .inl (iff_of_true hleft hright)
      · have hasked : ∃ g ∈ groups, AskedFor sub g t :=
          ⟨g, hg, hand, fun word hword ht => hright ⟨word, hword, ht⟩⟩
        exact .inr ⟨(h t).mpr hasked, hasked⟩
    · by_cases hright : ∃ word ∈ g.notWords, t ∈ sub word
      · have hleft' : ∃ g ∈ groups, (∀ word ∈ g.andWords, t ∈ sub word) ∧
            hasNotWord getString caseSens g t = false := ⟨g, hg, hand, by simpa using hleft⟩
        exact .inr ⟨hleft', (h t).mp hleft'⟩
      · exact .inl (iff_of_false hleft hright)

/-- What a group keeps of its starts is in order if its list is. -/
theorem pairwise_kept_iff {group : BoolGroup} (hne : group.andWords ≠ []) :
    (kept getString caseSens sub group).Pairwise (· < ·) ↔
      ∀ word, group.andWords = [word] →
        ((sub word).filter fun t => !hasNotWord getString caseSens group t).Pairwise (· < ·) := by
  rw [kept]
  constructor
  · intro hpair word hword
    rwa [hword, matched_singleton] at hpair
  · intro hsingle
    by_cases hlen : 1 < group.andWords.length
    · exact (pairwise_matched hlen).filter _
    · have hpos := List.length_pos_iff.mpr hne
      obtain ⟨word, hword⟩ := List.length_eq_one_iff.mp (show group.andWords.length = 1 by omega)
      rw [hword, matched_singleton]
      exact hsingle word hword

end

/-! ### A database without index -/

/-- A database of some strings that has no index. -/
def IsUnindexed (idxType : IndexType) (ss : List (List UInt8)) (strhan : StridxHandle) : Prop :=
  strhan.uiText = some (stringsFile ss) ∧ strhan.split = 1 ∧ strhan.cf = none ∧
    strhan.idxType = idxType

theorem length_stored (off : ℕ) (ss : List (List UInt8)) : (stored off ss).length = ss.length := by
  induction ss generalizing off with
  | nil => rfl
  | cons x ss ih => rw [stored, List.length_cons, ih, List.length_cons]

theorem length_matching_le (idxType : IndexType) (srchType : SrchType) (fold : UInt8 → UInt8)
    (key : List UInt8) (ss : List (List UInt8)) :
    (matching idxType srchType fold key ss).length ≤ ss.length :=
  (List.length_filter_le _ _).trans (length_stored 1 ss).le

/-- It answers with the matching strings, in the order of the file. -/
theorem subAnswers_unindexed {calls : Calls} (hscan : ScansAll calls) {ss : List (List UInt8)}
    (hss : ∀ s ∈ ss, keysepCh ∉ s) (idxType : IndexType) (s : Sens) {words : List (List UInt8)}
    (hwords : ∀ word ∈ words, word ≠ [] ∧ keysepCh ∉ word) (hfew : ss.length < boolMaxMatch) :
    SubAnswers calls s.code (IsUnindexed idxType ss)
      (fun word => (matching idxType .substr s.fold word ss).map Prod.fst) words := by
  constructor
  · rintro strhan ⟨hui, hsplit, hcf, hidx⟩ word hword
    obtain ⟨hne, hsep⟩ := hwords word hword
    have hh : UiSearch ss word s (saveSearchState word s.code .substr strhan) :=
      ⟨hui, hsplit, hcf, rfl, .inr rfl, rfl, clear_zero _, Nat.zero_le _⟩
    obtain ⟨keys, u, n, start', hkeys, hrun, hh', htake, -⟩ :=
      searchUitext_spec hscan hss hne hsep hh (List.replicate boolMaxMatch 0)
    have hall : visible (uiAdj idxType .substr) (matching idxType .substr s.fold word ss) 0 =
        matching idxType .substr s.fold word ss := by
      refine List.filter_eq_self.mpr fun e he => decide_eq_true ?_
      have hle := le_of_mem_stored (List.mem_of_mem_filter he)
      rw [uiAdj]
      split <;> omega
    rw [List.length_replicate] at hrun htake
    refine ⟨{ saveSearchState word s.code .substr strhan with uState := u }, n, start', ?_, ?_,
      ⟨hui, hsplit, hcf, hidx⟩, rfl⟩
    · rw [archSearchSub, subSearch, if_neg hne]
      simp only [hkeys, hrun, Option.bind_eq_bind, Option.bind_some]
      split
      · rfl
      · rw [show (saveSearchState word s.code .substr strhan).cf = none from hcf]
    · rw [htake]
      simp only [show (saveSearchState word s.code .substr strhan).idxType = idxType from hidx,
        show (saveSearchState word s.code .substr strhan).srchType = .substr from rfl,
        show (saveSearchState word s.code .substr strhan).uState = 0 from rfl, hall]
      rw [List.take_of_length_le]
      have hle := length_matching_le idxType .substr s.fold word ss
      omega
  · intro word _
    have hle := length_matching_le idxType .substr s.fold word ss
    rw [List.length_map]
    omega

/-- The handle of a character database of some strings that has no index. -/
def unindexedHandle (ss : List (List UInt8)) : StridxHandle :=
  { sharedHandle with idxType := .chars, uiText := some (stringsFile ss) }

/-- `archGetString` in a database of some strings. -/
def storedString (ss : List (List UInt8)) (t : ℕ) : Option (List UInt8) :=
  ((stored 1 ss).find? fun e => e.1 == t).map Prod.snd

/-- The query for `b` and not `a`. -/
def sampleQuery : List BoolGroup := [⟨[[98]], [[97]]⟩]

theorem sampleQuery_subAnswers {ss : List (List UInt8)} (hss : ∀ s ∈ ss, keysepCh ∉ s)
    (hfew : ss.length < boolMaxMatch) (s : Sens) : ∀ group ∈ sampleQuery,
      SubAnswers scanCalls s.code (IsUnindexed .chars ss)
        (fun word => (matching .chars .substr s.fold word ss).map Prod.fst)
        (group.andWords ++ group.notWords) := by
  intro group hgroup
  refine subAnswers_unindexed scanCalls_scansAll hss .chars s ?_ hfew
  obtain rfl := List.mem_singleton.mp hgroup
  decide

end Archie
