/-
The words and operators of a boolean query (`parse_boolean_query` of `get-info.c`).

A group is closed at an `or`, and the last one at the end of the query only if it has a word that
no `not` precedes.  A query with no blank in it is a word, even if it is the name of an operator.

* `parseBooleanQuery` — the function of the source.
* `operandGroups` — the groups that a query has.
* `TokensRead.step` — what one word or operator does.
* `parseBooleanQuery_iff` — when the groups are those of the query.
-/
import Archie.BooleanStarts
import Archie.WordOrder

namespace Archie

/-! ### The function -/

/-- `trim`, for a string that has a character other than a blank. -/
def trim (str : List UInt8) : List UInt8 :=
  ((str.dropWhile (· == 32)).reverse.dropWhile (· == 32)).reverse

/-- What `strtok` returns one after the other, with a blank as the separator. -/
def strtokBlank (str : List UInt8) : List (List UInt8) := (str.splitOn 32).filter (· ≠ [])

/-- `count_toks`. -/
def countToks (str : List UInt8) : ℕ := if 32 ∈ str then (strtokBlank str).length else 0

/-- What the memory holds that `malloc` returns: whether the first pointer is other than null, and
the cells of the array of integers for a group. -/
structure MallocCells where
  firstPtr : Bool
  cells : ℕ → ℕ → ℕ

/-- The variables of the loop over the words and operators.  `first` is true if `words[0]` is other
than null, and `groups` has the lists that are closed. -/
structure ParseLoop where
  op : BoolOps
  words : List (List UInt8)
  first : Bool
  nots : List (List UInt8)
  groups : List BoolGroup
  deriving DecidableEq, Repr

/-- The round for a word or an operator; none, if the word is in double quotes. -/
def parseToken (s : ParseLoop) (p : List UInt8) : Option ParseLoop :=
  let q := strlwr p
  if q ≠ bytes "and" ∧ q ≠ bytes "or" ∧ q ≠ bytes "not" then
    if p.head? = some 34 then none
    else if s.op = .notOp then some { s with nots := s.nots ++ [p], op := .andOp }
    else some { s with words := s.words ++ [p], first := true }
  else if q = bytes "and" then some { s with op := .andOp }
  else if q = bytes "or" then
    some { op := .orOp, words := [], first := false, nots := [], groups := s.groups ++ [⟨s.words,
      s.nots⟩] }
  else some { s with op := .notOp }

/-- `parse_boolean_query`: the type of the query, and the groups in `outqry`. -/
def parseBooleanQuery (mem : MallocCells) (inqry : List UInt8) : Option (ℤ × List BoolGroup) := do
  let inqry := trim inqry
  let (type, groups) ←
    if countToks inqry ≠ 0 then do
      let s ← (strtokBlank inqry).foldlM parseToken ⟨.nullOp, [], mem.firstPtr, [], []⟩
      -- a group that is not closed here is lost
      pure (1, if s.first then s.groups ++ [⟨s.words, s.nots⟩] else s.groups)
    else pure (0, [⟨[inqry], []⟩])
  pure (type, groups.mapIdx fun i group =>
    { group with andWords := orderWords (mem.cells i) group.andWords })

/-! ### What it is for -/

/-- A word or operator of a query: no blank or double quote is in it. -/
structure IsQueryToken (t : List UInt8) : Prop where
  ne_nil : t ≠ []
  blank : 32 ∉ t
  quote : 34 ∉ t

def isOr (t : List UInt8) : Bool := strlwr t == bytes "or"

def isNot (t : List UInt8) : Bool := strlwr t == bytes "not"

/-- Not an operator. -/
def isWord (t : List UInt8) : Bool := strlwr t != bytes "and" && !isOr t && !isNot t

/-- Each with what stands before it, which is `prev` for the first. -/
def preceded : List UInt8 → List (List UInt8) → List (List UInt8 × List UInt8)
  | _, [] => []
  | prev, t :: ts => (prev, t) :: preceded t ts

/-- The words of a sequence that a `not` precedes, and the others. -/
def wordGroup (seq : List (List UInt8)) : BoolGroup where
  andWords := ((preceded [] seq).filter fun pt => isWord pt.2 && !isNot pt.1).map Prod.snd
  notWords := ((preceded [] seq).filter fun pt => isWord pt.2 && isNot pt.1).map Prod.snd

/-- A word is in one of the lists. -/
def BoolGroup.HasWord (group : BoolGroup) : Prop := group.andWords ≠ [] ∨ group.notWords ≠ []

instance : DecidablePred BoolGroup.HasWord := fun group =>
  inferInstanceAs (Decidable (group.andWords ≠ [] ∨ group.notWords ≠ []))

/-- The groups of a query: the sequences between the `or`s that have a word. -/
def operandGroups (toks : List (List UInt8)) : List BoolGroup :=
  ((toks.splitOnP isOr).map wordGroup).filter (·.HasWord)

/-- The words of a group, with the longest of those first that no `not` precedes. -/
structure Ordered (res group : BoolGroup) : Prop where
  notWords : res.notWords = group.notWords
  perm : res.andWords.Perm group.andWords
  longest : res.andWords.Pairwise fun a b => b.length ≤ a.length

/-- Each sequence before an `or` has a word, and the last one is closed if it has a word. -/
def AllClosed (firstPtr : Bool) (seqs : List (List (List UInt8))) : Prop :=
  (∀ seq ∈ seqs.dropLast, (wordGroup seq).HasWord) ∧
    (((wordGroup (seqs.getLastD [])).andWords ≠ [] ∨ seqs.dropLast = [] ∧ firstPtr = true) ↔
      (wordGroup (seqs.getLastD [])).HasWord)

instance (firstPtr : Bool) : DecidablePred (AllClosed firstPtr) := fun seqs =>
  inferInstanceAs (Decidable ((∀ seq ∈ seqs.dropLast, (wordGroup seq).HasWord) ∧
    (((wordGroup (seqs.getLastD [])).andWords ≠ [] ∨ seqs.dropLast = [] ∧ firstPtr = true) ↔
      (wordGroup (seqs.getLastD [])).HasWord)))

/-- No group of a query is lost or added: there is one word, or all groups are closed. -/
def GroupsClosed (firstPtr : Bool) : List (List UInt8) → Prop
  | [] => False
  | [t] => isWord t = true
  | toks => AllClosed firstPtr (toks.splitOnP isOr)

/-! ### One word or operator -/

theorem preceded_append (prev : List UInt8) (ts : List (List UInt8)) (t : List UInt8) :
    preceded prev (ts ++ [t]) = preceded prev ts ++ [(ts.getLastD prev, t)] := by
  induction ts generalizing prev with
  | nil => rfl
  | cons x ts ih =>
    rw [List.cons_append, preceded, ih, preceded, List.cons_append, List.getLastD_cons]

/-- A sequence with one more word or operator. -/
theorem wordGroup_append (seq : List (List UInt8)) (t : List UInt8) :
    wordGroup (seq ++ [t]) =
      if isWord t = true then
        if isNot (seq.getLastD []) = true
          then { wordGroup seq with notWords := (wordGroup seq).notWords ++ [t] }
        else { wordGroup seq with andWords := (wordGroup seq).andWords ++ [t] }
      else wordGroup seq := by
  simp only [wordGroup, preceded_append, List.filter_append, List.map_append]
  generalize seq.getLastD [] = prev
  cases hword : isWord t <;> cases hnot : isNot prev <;> simp [hword, hnot]

theorem splitOnP_append_singleton {α : Type*} {p : α → Bool} {x : α} (hx : p x = false)
    {xs : List α}
    {segs : List (List α)} {cur : List α} (h : xs.splitOnP p = segs ++ [cur]) :
    (xs ++ [x]).splitOnP p = segs ++ [cur ++ [x]] := by
  induction xs generalizing segs cur with
  | nil =>
    obtain ⟨rfl, rfl⟩ : segs = [] ∧ cur = [] := by
      rw [List.splitOnP_nil] at h
      match segs, h with
      | [], h => exact ⟨rfl, (List.singleton_inj.mp h).symm⟩
      | _ :: segs, h => simp at h
    simp [List.splitOnP_cons_eq_if_modifyHead, hx]
  | cons y xs ih =>
    rw [List.cons_append, List.splitOnP_cons_eq_if_modifyHead]
    rw [List.splitOnP_cons_eq_if_modifyHead] at h
    obtain ⟨before, last, hxs⟩ : ∃ before last, xs.splitOnP p = before ++ [last] :=
      ⟨_, _, (List.dropLast_append_getLast (List.splitOnP_ne_nil p xs)).symm⟩
    rw [ih hxs]
    rw [hxs] at h
    split_ifs at h ⊢ with hy
    · rw [← List.cons_append] at h ⊢
      obtain ⟨rfl, hcur⟩ := List.append_inj' h rfl
      rw [List.singleton_inj.mp hcur]
    · match before, h with
      | [], h =>
        obtain ⟨rfl, hcur⟩ := List.append_inj' (show [] ++ [y :: last] = segs ++ [cur] from h) rfl
        rw [← List.singleton_inj.mp hcur]
        rfl
      | b :: before, h =>
        rw [List.cons_append, List.modifyHead_cons, ← List.cons_append] at h ⊢
        obtain ⟨rfl, hcur⟩ := List.append_inj' h rfl
        rw [List.singleton_inj.mp hcur]

/-- What the loop has read: closed sequences, and the one that is not closed. -/
structure TokensRead (firstPtr : Bool) (done : List (List UInt8)) (seqs : List (List (List UInt8)))
    (cur : List (List UInt8)) (s : ParseLoop) : Prop where
  split : done.splitOnP isOr = seqs ++ [cur]
  groups : s.groups = seqs.map wordGroup
  current : wordGroup cur = ⟨s.words, s.nots⟩
  op : s.op = .notOp ↔ isNot (cur.getLastD []) = true
  first : s.first = true ↔ s.words ≠ [] ∨ seqs = [] ∧ firstPtr = true

theorem isWord_iff (t : List UInt8) :
    isWord t = true ↔ strlwr t ≠ bytes "and" ∧ strlwr t ≠ bytes "or" ∧ strlwr t ≠ bytes "not" := by
  simp [isWord, isOr, isNot, and_assoc]

/-- No word is `or` or `not`. -/
theorem isOr_of_isWord {t : List UInt8} (h : isWord t = true) : isOr t = false ∧
    isNot t = false := by
  rw [isWord_iff] at h
  exact ⟨beq_eq_false_iff_ne.mpr h.2.1, beq_eq_false_iff_ne.mpr h.2.2⟩

/-- One word or operator more. -/
theorem TokensRead.step {firstPtr : Bool} {done : List (List UInt8)}
    {seqs : List (List (List UInt8))}
    {cur : List (List UInt8)} {s : ParseLoop} (h : TokensRead firstPtr done seqs cur s)
    {t : List UInt8}
    (ht : IsQueryToken t) :
    ∃ seqs' cur' s', parseToken s t = some s' ∧
      TokensRead firstPtr (done ++ [t]) seqs' cur' s' := by
  have hquote : t.head? ≠ some 34 := fun hhead => ht.quote (List.mem_of_mem_head? hhead)
  have hgetLast : (cur ++ [t]).getLastD [] = t := by simp
  by_cases hword : isWord t = true
  · obtain ⟨hor, hnot⟩ := isOr_of_isWord hword
    have hsplit := splitOnP_append_singleton hor h.split
    have hgroup := wordGroup_append cur t
    rw [if_pos hword] at hgroup
    by_cases hop : s.op = .notOp
    · rw [if_pos (h.op.mp hop), h.current] at hgroup
      refine ⟨seqs, cur ++ [t], { s with nots := s.nots ++ [t], op := .andOp }, ?_, hsplit,
        h.groups, hgroup, ?_,
        h.first⟩
      · simp only [parseToken, if_pos ((isWord_iff t).mp hword), if_neg hquote, if_pos hop]
      · rw [hgetLast, hnot]
        exact iff_of_false (by simp) Bool.false_ne_true
    · rw [if_neg (mt h.op.mpr hop), h.current] at hgroup
      refine ⟨seqs, cur ++ [t], { s with words := s.words ++ [t], first := true }, ?_, hsplit,
        h.groups, hgroup, ?_,
        ?_⟩
      · simp only [parseToken, if_pos ((isWord_iff t).mp hword), if_neg hquote, if_neg hop]
      · rw [hgetLast, hnot]
        exact iff_of_false hop Bool.false_ne_true
      · exact iff_of_true rfl (Or.inl (by simp))
  · have hgroup := wordGroup_append cur t
    rw [if_neg hword] at hgroup
    have hnotWord := mt (isWord_iff t).mpr hword
    by_cases hor : isOr t = true
    · -- the group is closed, and the next one has no word yet
      have hlower : strlwr t = bytes "or" := beq_iff_eq.mp hor
      have hand : strlwr t ≠ bytes "and" := by rw [hlower]; decide
      refine ⟨seqs ++ [cur], [], ⟨.orOp, [], false, [], s.groups ++ [⟨s.words, s.nots⟩]⟩, ?_, ?_,
        ?_, rfl, ?_, ?_⟩
      · simp only [parseToken, if_neg hnotWord, if_neg hand, if_pos hlower]
      · rw [List.splitOnP_append_cons _ _ hor, h.split, List.splitOnP_nil]
      · show s.groups ++ _ = _
        rw [List.map_append, h.groups, ← h.current]
        rfl
      · exact iff_of_false (by simp) (by decide)
      · exact iff_of_false Bool.false_ne_true (by simp)
    · have hsplit := splitOnP_append_singleton (Bool.not_eq_true _ ▸ hor) h.split
      have hlower : strlwr t ≠ bytes "or" := fun heq => hor (beq_iff_eq.mpr heq)
      by_cases hand : strlwr t = bytes "and"
      · refine ⟨seqs, cur ++ [t], { s with op := .andOp }, ?_, hsplit, h.groups,
          hgroup.trans h.current, ?_, h.first⟩
        · simp only [parseToken, if_neg hnotWord, if_pos hand]
        · rw [hgetLast, isNot, hand]
          exact iff_of_false (by simp) (by decide)
      · refine ⟨seqs, cur ++ [t], { s with op := .notOp }, ?_, hsplit, h.groups,
          hgroup.trans h.current, ?_, h.first⟩
        · simp only [parseToken, if_neg hnotWord, if_neg hand, if_neg hlower]
        · have hnot : strlwr t = bytes "not" := by
            by_contra hnot
            exact hnotWord ⟨hand, hlower, hnot⟩
          rw [hgetLast, isNot, hnot]
          exact iff_of_true rfl (by decide)

/-- All of them. -/
theorem exists_tokensRead (firstPtr : Bool) {toks : List (List UInt8)}
    (htoks : ∀ t ∈ toks, IsQueryToken t) :
    ∃ seqs cur s, toks.foldlM parseToken ⟨.nullOp, [], firstPtr, [], []⟩ = some s ∧
      TokensRead firstPtr toks seqs cur s := by
  induction toks using List.reverseRecOn with
  | nil =>
    refine ⟨[], [], ⟨.nullOp, [], firstPtr, [], []⟩, rfl, List.splitOnP_nil, rfl, rfl, ?_, ?_⟩
    · exact iff_of_false (by simp) (by decide)
    · simp
  | append_singleton toks t ih =>
    obtain ⟨seqs, cur, s, hs, hread⟩ := ih fun t' ht' => htoks t' (List.mem_append_left _ ht')
    obtain ⟨seqs', cur', s', hs', hread'⟩ := hread.step (htoks t (by simp))
    refine ⟨seqs', cur', s', ?_, hread'⟩
    rw [List.foldlM_append, hs]
    simpa using hs'

/-! ### The text of a query -/

section

variable {toks : List (List UInt8)} (htoks : ∀ t ∈ toks, IsQueryToken t)
include htoks

theorem splitOn_join (hne : toks ≠ []) : ([32].intercalate toks).splitOn 32 = toks :=
  List.splitOn_intercalate 32 (fun t ht => (htoks t ht).blank) hne

/-- No blank begins or ends a query. -/
theorem trim_join : trim ([32].intercalate toks) = [32].intercalate toks := by
  by_cases hne : toks = []
  · rw [hne]
    rfl
  · have hsplit := splitOn_join htoks hne
    have hnil : [] ∉ toks := fun hmem => (htoks [] hmem).ne_nil rfl
    set q := [32].intercalate toks
    have hfront : q.dropWhile (· == 32) = q := by
      rw [List.dropWhile_eq_self_iff]
      intro hpos h32
      have hq : q = [] ++ 32 :: q.tail := by
        rw [List.nil_append, ← beq_iff_eq.mp h32, List.getElem_zero, List.cons_head_tail]
      rw [hq, List.splitOn_append_cons_self] at hsplit
      rw [← hsplit] at hnil
      simp at hnil
    have hback : q.reverse.dropWhile (· == 32) = q.reverse := by
      rw [List.dropWhile_eq_self_iff]
      intro hpos h32
      have hq : q = q.dropLast ++ 32 :: [] := by
        rw [← beq_iff_eq.mp h32, List.getElem_zero, List.head_reverse, List.dropLast_append_getLast]
      rw [hq, List.splitOn_append_cons_self] at hsplit
      rw [← hsplit] at hnil
      simp at hnil
    rw [trim, hfront, hback, List.reverse_reverse]

theorem strtokBlank_join (hne : toks ≠ []) : strtokBlank ([32].intercalate toks) = toks := by
  rw [strtokBlank, splitOn_join htoks hne, List.filter_eq_self]
  intro t ht
  simpa using (htoks t ht).ne_nil

theorem countToks_join : countToks ([32].intercalate toks) = if toks.length < 2 then 0
    else toks.length := by
  match toks with
  | [] => rfl
  | [t] => simp [countToks, (htoks t (by simp)).blank]
  | t :: t' :: ts =>
    rw [countToks, strtokBlank_join htoks (by simp), List.intercalate_cons_cons]
    simp

end

/-! ### The groups of a query -/

theorem Ordered.hasWord_iff {res group : BoolGroup} (h : Ordered res group) : res.HasWord ↔
    group.HasWord := by
  have hand : res.andWords = [] ↔ group.andWords = [] := by
    rw [← List.length_eq_zero_iff, ← List.length_eq_zero_iff, h.perm.length_eq]
  rw [BoolGroup.HasWord, BoolGroup.HasWord, h.notWords, ne_eq, hand]

theorem ordered_orderWords (cells : ℕ → ℕ) (group : BoolGroup) :
    Ordered { group with andWords := orderWords cells group.andWords } group :=
  ⟨rfl, (orderWords_spec cells group.andWords).1, (orderWords_spec cells group.andWords).2⟩

/-- What the loop over the groups makes of them. -/
def orderGroups (cells : ℕ → ℕ → ℕ) (groups : List BoolGroup) : List BoolGroup :=
  groups.mapIdx fun i group => { group with andWords := orderWords (cells i) group.andWords }

theorem forall₂_orderGroups (cells : ℕ → ℕ → ℕ) (groups : List BoolGroup) :
    List.Forall₂ Ordered (orderGroups cells groups) groups := by
  refine List.forall₂_iff_get.mpr ⟨by simp [orderGroups], ?_⟩
  intro i hi hi'
  simp only [orderGroups, List.get_eq_getElem, List.getElem_mapIdx]
  exact ordered_orderWords _ _

/-- If they are those of the query, each has a word. -/
theorem hasWord_of_forall₂ {cells : ℕ → ℕ → ℕ} {groups expected : List BoolGroup}
    (h : List.Forall₂ Ordered (orderGroups cells groups) expected)
    (hexp : ∀ x ∈ expected, x.HasWord) :
    (∀ group ∈ groups, group.HasWord) ∧ groups.length = expected.length := by
  have hlen : groups.length = expected.length := by
    rw [← h.length_eq, orderGroups, List.length_mapIdx]
  refine ⟨?_, hlen⟩
  intro group hgroup
  obtain ⟨i, hi, rfl⟩ := List.getElem_of_mem hgroup
  have hres := h.get (by simpa [orderGroups] using hi) (by omega)
  have hown := (forall₂_orderGroups cells groups).get (by simpa [orderGroups] using hi) hi
  exact hown.hasWord_iff.mp (hres.hasWord_iff.mpr (hexp _ (List.getElem_mem _)))

/-- The groups are those of the query, if no group before the last is empty, and the last is closed
if it is not. -/
theorem closed_iff (cells : ℕ → ℕ → ℕ) (closed : List BoolGroup) (last : BoolGroup) (first : Bool) :
    List.Forall₂ Ordered (orderGroups cells (if first then closed ++ [last] else closed))
        ((closed ++ [last]).filter (·.HasWord)) ↔
      (∀ group ∈ closed, group.HasWord) ∧ (first = true ↔ last.HasWord) := by
  constructor
  · intro h
    obtain ⟨hall, hlen⟩ := hasWord_of_forall₂ h fun x hx => by simpa using (List.mem_filter.mp hx).2
    have hclosed : ∀ group ∈ closed, group.HasWord := by
      intro group hgroup
      refine hall group ?_
      split_ifs
      · exact List.mem_append_left _ hgroup
      · exact hgroup
    refine ⟨hclosed, ?_⟩
    have hfilter : closed.filter (·.HasWord) = closed :=
      List.filter_eq_self.mpr fun group hgroup => by simpa using hclosed group hgroup
    rw [List.filter_append, hfilter] at hlen
    cases first <;> by_cases hlast : last.HasWord <;> simp [hlast] at hlen ⊢
  · rintro ⟨hclosed, hlast⟩
    have hfilter : closed.filter (·.HasWord) = closed :=
      List.filter_eq_self.mpr fun group hgroup => by simpa using hclosed group hgroup
    rw [List.filter_append, hfilter]
    cases first with
    | false => simpa [mt hlast.mpr Bool.false_ne_true] using forall₂_orderGroups cells closed
    | true => simpa [hlast.mp rfl] using forall₂_orderGroups cells (closed ++ [last])

/-- What is made of a query of two words or operators, or more. -/
theorem parseBooleanQuery_join (mem : MallocCells) {toks : List (List UInt8)}
    (htoks : ∀ t ∈ toks, IsQueryToken t) (hlen : 2 ≤ toks.length) :
    ∃ seqs cur s, TokensRead mem.firstPtr toks seqs cur s ∧
      parseBooleanQuery mem ([32].intercalate toks) = some (1, orderGroups mem.cells
        (if s.first then seqs.map wordGroup ++ [wordGroup cur] else seqs.map wordGroup)) := by
  obtain ⟨seqs, cur, s, hs, hread⟩ := exists_tokensRead mem.firstPtr htoks
  have hne : toks ≠ [] := List.ne_nil_of_length_pos (by omega)
  refine ⟨seqs, cur, s, hread, ?_⟩
  have hcount : countToks ([32].intercalate toks) ≠ 0 := by
    rw [countToks_join htoks, if_neg (by omega)]
    omega
  rw [hread.current, ← hread.groups]
  simp only [parseBooleanQuery, trim_join htoks, if_pos hcount, strtokBlank_join htoks hne, hs]
  rfl

/-- A query with no blank is a word. -/
theorem parseBooleanQuery_single (mem : MallocCells) {toks : List (List UInt8)}
    (htoks : ∀ t ∈ toks, IsQueryToken t) (hlen : toks.length < 2) :
    parseBooleanQuery mem ([32].intercalate toks) =
      some (0, orderGroups mem.cells [⟨[[32].intercalate toks], []⟩]) := by
  have hcount : ¬ countToks ([32].intercalate toks) ≠ 0 := by
    rw [countToks_join htoks, if_pos hlen]
    simp
  simp only [parseBooleanQuery, trim_join htoks, if_neg hcount]
  rfl

theorem wordGroup_single (t : List UInt8) : wordGroup [t] = if isWord t = true then ⟨[t], []⟩
    else ⟨[], []⟩ := by
  have hgroup := wordGroup_append [] t
  rwa [List.nil_append, if_neg (show ¬ isNot ([].getLastD []) = true by decide)] at hgroup

theorem operandGroups_single (t : List UInt8) :
    operandGroups [t] = if isWord t = true then [⟨[t], []⟩] else [] := by
  rw [operandGroups, List.splitOnP_cons_eq_if_modifyHead]
  by_cases hor : isOr t = true
  · have hword : ¬ isWord t = true := by
      intro hword
      rw [(isOr_of_isWord hword).1] at hor
      cases hor
    rw [if_pos hor, if_neg hword]
    decide
  · rw [if_neg hor, List.splitOnP_nil, List.modifyHead_cons, List.map_singleton, wordGroup_single]
    split_ifs
    · simp [BoolGroup.HasWord]
    · simp [BoolGroup.HasWord]

/-- The groups that are found are those of the query. -/
def GroupsFound (mem : MallocCells) (toks : List (List UInt8)) : Prop :=
  ∃ type groups, parseBooleanQuery mem ([32].intercalate toks) = some (type, groups) ∧
    List.Forall₂ Ordered groups (operandGroups toks)

theorem groupsFound_iff {mem : MallocCells} {toks : List (List UInt8)} {type : ℤ}
    {groups : List BoolGroup}
    (h : parseBooleanQuery mem ([32].intercalate toks) = some (type, groups)) :
    GroupsFound mem toks ↔ List.Forall₂ Ordered groups (operandGroups toks) := by
  constructor
  · rintro ⟨type', groups', heq, hgroups⟩
    obtain ⟨rfl, rfl⟩ := Prod.ext_iff.mp (Option.some.inj (h.symm.trans heq))
    exact hgroups
  · intro hgroups
    exact ⟨type, groups, h, hgroups⟩

/-- The groups of a query of words and operators are the sequences between the `or`s, with the words
that a `not` precedes apart and the longest of the others first, if and only if the query is one word
or all its groups are closed. -/
theorem parseBooleanQuery_iff (mem : MallocCells) {toks : List (List UInt8)}
    (htoks : ∀ t ∈ toks, IsQueryToken t) : GroupsFound mem toks ↔
      GroupsClosed mem.firstPtr toks := by
  rcases Nat.lt_or_ge toks.length 2 with hlen | hlen
  · rw [groupsFound_iff (parseBooleanQuery_single mem htoks hlen)]
    match toks, hlen with
    | [], _ =>
      refine iff_of_false ?_ id
      intro h
      cases h.length_eq
    | [t], _ =>
      rw [List.intercalate_singleton, operandGroups_single, GroupsClosed]
      split_ifs with hword
      · exact iff_of_true (forall₂_orderGroups _ _) hword
      · refine iff_of_false ?_ hword
        intro h
        cases h.length_eq
  · obtain ⟨seqs, cur, s, hread, hparse⟩ := parseBooleanQuery_join mem htoks hlen
    have hgroups : operandGroups toks = (seqs.map wordGroup ++ [wordGroup cur]).filter
        (·.HasWord) := by
      rw [operandGroups, hread.split, List.map_append, List.map_singleton]
    have hclosed : GroupsClosed mem.firstPtr toks ↔ (∀ seq ∈ seqs, (wordGroup seq).HasWord) ∧
        (((wordGroup cur).andWords ≠ [] ∨ seqs = [] ∧ mem.firstPtr = true) ↔
          (wordGroup cur).HasWord) := by
      match toks, hlen, hread.split with
      | _ :: _ :: _, _, hsplit =>
        simp only [GroupsClosed, AllClosed, hsplit, List.dropLast_concat, List.getLastD_concat]
    rw [groupsFound_iff hparse, hgroups, closed_iff, hclosed, List.forall_mem_map, hread.first,
      hread.current]

theorem isQueryToken_of_all {t : List UInt8}
    (h : (t.isEmpty || t.contains 32 || t.contains 34) = false) :
    IsQueryToken t := by
  simp only [Bool.or_eq_false_iff, List.isEmpty_eq_false_iff, List.contains_eq_mem,
    decide_eq_false_iff_not] at h
  exact ⟨h.1.1, h.1.2, h.2⟩

/-- `ab OR not c and def`. -/
def sampleTokens : List (List UInt8) :=
  [[97, 98], [79, 82], [110, 111, 116], [99], [97, 110, 100], [100, 101, 102]]

theorem parseBooleanQuery_sample : GroupsFound ⟨false, fun _ _ => 0⟩ sampleTokens :=
  (parseBooleanQuery_iff ⟨false, fun _ _ => 0⟩ fun t ht => isQueryToken_of_all (by
    have hall : ∀ t ∈ sampleTokens,
        (t.isEmpty || t.contains 32 || t.contains 34) = false := by decide
    exact hall t ht)).mpr (show AllClosed false (sampleTokens.splitOnP isOr) by decide +kernel)

/-- The last group of `a or not b` is lost. -/
theorem not_groupsFound :
    ¬ ∀ (mem : MallocCells) (toks : List (List UInt8)), (∀ t ∈ toks, IsQueryToken t) →
      GroupsFound mem toks := by
  intro h
  have hall : ∀ t ∈ ([[97], [111, 114], [110, 111, 116], [98]] : List (List UInt8)),
      (t.isEmpty || t.contains 32 || t.contains 34) = false := by decide
  have hfound := h ⟨true, fun _ _ => 0⟩ _ fun t ht => isQueryToken_of_all (hall t ht)
  have hparse : parseBooleanQuery ⟨true, fun _ _ => 0⟩
      ([32].intercalate [[97], [111, 114], [110, 111, 116], [98]]) =
      some (1, [⟨[[97]], []⟩]) := by decide +kernel
  have hlen := ((groupsFound_iff hparse).mp hfound).length_eq
  exact absurd hlen (by decide +kernel)

end Archie
