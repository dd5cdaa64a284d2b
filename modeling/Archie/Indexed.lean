/-
Searching a database whose strings file is entirely indexed.

The PaTrie is assumed to hand out the index points that begin with its key, in
some fixed order.  A match becomes the start of its string, and starts that are
equal are removed among those of one call only.

* `Serves` — a search of the PaTrie that hands out a list of starts.
* `serves_pending` — a correct PaTrie searched by its own comparison does.
* `searches_indexed` — the batches, when no call meets a string twice.
* `indexed_iff` — exactly when all sequences of batches are right.
-/
import Archie.SearchSame
import Archie.UitextSearch

namespace Archie

/-! ### The index points -/

/-- `index_words`, from an offset on; the flag is `prevnl`. -/
def indexWords : ℕ → Bool → List UInt8 → List ℕ
  | _, _, [] => []
  | i, true, _ :: text => i :: indexWords (i + 1) false text
  | i, false, c :: text => indexWords (i + 1) (c = keysepCh) text

/-- The index points of a text: all characters, or what `index_words` marks. -/
def indexPoints (idxType : IndexType) (text : List UInt8) : List ℕ :=
  match idxType with
  | .chars => List.range text.length
  | .words => indexWords 0 false text

theorem indexWords_inside {s : List UInt8} (hs : keysepCh ∉ s) (i : ℕ) (post : List UInt8) :
    indexWords i false (s ++ keysepCh :: post) = indexWords (i + s.length + 1) true post := by
  induction s generalizing i with
  | nil => simp [indexWords]
  | cons c s ih =>
    have hc : c ≠ keysepCh := fun h => hs (by rw [h]; exact List.mem_cons_self)
    rw [List.cons_append, indexWords, decide_eq_false hc,
      ih (fun h => hs (List.mem_cons_of_mem c h)), List.length_cons]
    congr 1
    omega

theorem indexWords_fileBody {ss : List (List UInt8)} (hss : ∀ s ∈ ss, s ≠ [] ∧ keysepCh ∉ s)
    (i : ℕ) : indexWords i true (fileBody ss) = (stored i ss).map Prod.fst := by
  induction ss generalizing i with
  | nil => rfl
  | cons s ss ih =>
    obtain ⟨hne, hsep⟩ := hss s List.mem_cons_self
    obtain ⟨c, s, rfl⟩ := List.exists_cons_of_ne_nil hne
    rw [fileBody_cons, List.cons_append, indexWords,
      indexWords_inside (fun h => hsep (List.mem_cons_of_mem c h)),
      ih fun x hx => hss x (List.mem_cons_of_mem _ hx), stored, List.map_cons, List.length_cons]
    congr 3
    omega

/-- The words are the strings. -/
theorem indexPoints_words {ss : List (List UInt8)} (hss : ∀ s ∈ ss, s ≠ [] ∧ keysepCh ∉ s) :
    indexPoints .words (stringsFile ss) = (stored 1 ss).map Prod.fst := by
  rw [indexPoints, stringsFile, indexWords, decide_eq_true rfl]
  exact indexWords_fileBody hss 1

/-! ### What the PaTrie hands out -/

/-- The index points at which the key matches, each once. -/
structure SuffixMatches (idxType : IndexType) (text : List UInt8) (fold : UInt8 → UInt8)
    (key : List UInt8) (l : List ℕ) : Prop where
  nodup : l.Nodup
  mem_iff : ∀ o, o ∈ l ↔
    o ∈ indexPoints idxType text ∧ keyMatchesWith fold key (text.drop o) = true

/-- A search of the PaTrie for a key hands out the starts `l`, and after `R l' st`
those of `l'` are still to come. -/
structure Serves (calls : Calls) (cf : PatrieConfig) (caseAccentSens : ℤ) (key : List UInt8)
    (l : List ℕ) (R : List ℕ → PatrieState → TriePage → Prop) : Prop where
  first : ∀ page b, 0 < b → ∃ st page',
    patrieSearchSub cf calls.fuel key caseAccentSens b page = some (l.take b, st, page') ∧
      R (l.drop b) st page'
  more : ∀ l' st page b, R l' st page → 0 < b → ∃ st' page',
    patrieGetMoreStarts cf calls.fuel b st page = some (l'.take b, st', page') ∧
      R (l'.drop b) st' page'

/-- A correct PaTrie searched by its own comparison hands out the matches in index
order. -/
theorem serves_pending {calls : Calls} {cf : PatrieConfig} {points : List ℕ}
    {t : Patricia.Trie ℕ} (ht : IsPaTrie cf.text cf.buildCaseAccentSens points t)
    (hrep : Represents cf.trie t) {key : List UInt8} (hkey : ∀ c ∈ key, c ≠ 0)
    (hfuel : t.size ≤ calls.fuel) :
    Serves calls cf cf.buildCaseAccentSens.code key
      (t.leaves.filter fun o => keyMatchesIdxType cf key o) (Pending cf calls.fuel) where
  first := fun page _ hb => patrieSearchSub_pending ht hrep hkey hb page hfuel
  more := fun _ _ _ b h _ => h.more b

/-- The leaves of a correct PaTrie that match are the matches. -/
theorem IsPaTrie.suffixMatches {cf : PatrieConfig} {idxType : IndexType} {t : Patricia.Trie ℕ}
    (ht : IsPaTrie cf.text cf.buildCaseAccentSens (indexPoints idxType cf.text) t)
    (key : List UInt8) :
    SuffixMatches idxType cf.text cf.buildCaseAccentSens.fold key
      (t.leaves.filter fun o => keyMatchesIdxType cf key o) where
  nodup := by
    have hne : t.leaves.Pairwise (· ≠ ·) := (Patricia.Trie.pairwise_leaves ht.correct).imp <| by
      rintro x y ⟨b, -, hx, hy⟩ rfl
      rw [hx] at hy
      exact Bool.false_ne_true hy
    exact List.Pairwise.filter _ hne
  mem_iff := by
    intro o
    rw [List.mem_filter, ht.perm.mem_iff]
    exact Iff.rfl

/-! ### From matches to strings -/

/-- The start of the string in which a match is. -/
def startOf (text : List UInt8) (adj o : ℕ) : ℕ := (patrieFixOneStart text (o + adj)).getD 0

/-- Every match is in a matching string, and every matching string has a match. -/
structure Found (text : List UInt8) (adj : ℕ) (l : List ℕ) (matched : List (ℕ × List UInt8)) :
    Prop where
  fix : ∀ o ∈ l, patrieFixOneStart text (o + adj) = some (startOf text adj o)
  mem_iff : ∀ x, x ∈ l.map (startOf text adj) ↔ x ∈ matched.map Prod.fst

theorem found_of {text : List UInt8} {adj : ℕ} {l : List ℕ} {matched : List (ℕ × List UInt8)}
    (hin : ∀ o ∈ l, ∃ e ∈ matched, patrieFixOneStart text (o + adj) = some e.1)
    (hall : ∀ e ∈ matched, ∃ o ∈ l, patrieFixOneStart text (o + adj) = some e.1) :
    Found text adj l matched where
  fix := by
    intro o ho
    obtain ⟨e, -, he⟩ := hin o ho
    rw [startOf, he, Option.getD_some]
  mem_iff := by
    intro x
    rw [List.mem_map, List.mem_map]
    constructor
    · rintro ⟨o, ho, rfl⟩
      obtain ⟨e, hmem, he⟩ := hin o ho
      exact ⟨e, hmem, by rw [startOf, he, Option.getD_some]⟩
    · rintro ⟨e, he, rfl⟩
      obtain ⟨o, ho, hfix⟩ := hall e he
      exact ⟨o, ho, by rw [startOf, hfix, Option.getD_some]⟩

/-- Inside a string, the fix leads to its start. -/
theorem StoredAt.patrieFix {text s : List UInt8} {off : ℕ} (h : StoredAt text off s) {i : ℕ}
    (hi : off ≤ i) (hlt : i ≤ off + s.length) : patrieFixOneStart text i = some off := by
  have hpos := h.pos
  obtain ⟨i, rfl⟩ : ∃ k, i = k + 1 := ⟨i - 1, by omega⟩
  rw [patrieFixOneStart, h.prevSep hi (by omega), Option.map_some, Nat.sub_add_cancel hpos]

/-- The matches in a character index. -/
theorem Places.mem_iff {fold : UInt8 → UInt8} {key text : List UInt8} {adj : ℕ}
    {matched : List (ℕ × List UInt8)} (hP : Places fold key text adj matched) {l : List ℕ}
    (hl : SuffixMatches .chars text fold key l) (o : ℕ) :
    o ∈ l ↔ ∃ e ∈ matched, o ∈ placesIn fold key text adj e := by
  rw [hl.mem_iff, ← List.mem_flatMap, ← hP.places, placesFrom, List.mem_filter, indexPoints,
    List.range_eq_range', Nat.sub_zero]

theorem Places.patrieFix {fold : UInt8 → UInt8} {key text : List UInt8} {adj : ℕ}
    {matched : List (ℕ × List UInt8)} (hP : Places fold key text adj matched)
    {e : ℕ × List UInt8} (he : e ∈ matched) {o : ℕ} (ho : o ∈ placesIn fold key text adj e) :
    patrieFixOneStart text (o + adj) = some e.1 :=
  (hP.storedAt e he).patrieFix (le_of_mem_placesIn ho) (le_of_lt (hP.inside e he o ho))

theorem Places.found {fold : UInt8 → UInt8} {key text : List UInt8} {adj : ℕ}
    {matched : List (ℕ × List UInt8)} (hP : Places fold key text adj matched) {l : List ℕ}
    (hl : SuffixMatches .chars text fold key l) : Found text adj l matched := by
  refine found_of (fun o ho => ?_) fun e he => ?_
  · obtain ⟨e, he, hoe⟩ := (hP.mem_iff hl o).mp ho
    exact ⟨e, he, hP.patrieFix he hoe⟩
  · obtain ⟨o, ho⟩ := List.exists_mem_of_ne_nil _ (hP.ne_nil e he)
    exact ⟨o, (hP.mem_iff hl o).mpr ⟨e, he, ho⟩, hP.patrieFix he ho⟩

section Words

variable {fold : UInt8 → UInt8} {key : List UInt8} {p : List UInt8 → Bool}
  {ss : List (List UInt8)} (hss : ∀ s ∈ ss, s ≠ [] ∧ keysepCh ∉ s) {l : List ℕ}
  (hl : SuffixMatches .words (stringsFile ss) fold key l)

include hss

theorem patrieFix_words {e : ℕ × List UInt8} (he : e ∈ stored 1 ss) :
    patrieFixOneStart (stringsFile ss) (e.1 + 0) = some e.1 :=
  (storedAt_of_mem [] (fun s hs => (hss s hs).2) (stringsFile_eq ss) he).patrieFix
    (le_refl _) (by omega)

include hl

/-- In a word index a match is the start of its string. -/
theorem startOf_words {o : ℕ} (ho : o ∈ l) : startOf (stringsFile ss) 0 o = o := by
  have hpoint := ((hl.mem_iff o).mp ho).1
  rw [indexPoints_words hss] at hpoint
  obtain ⟨e, he, rfl⟩ := List.mem_map.mp hpoint
  rw [startOf, patrieFix_words hss he, Option.getD_some]

theorem found_words
    (hp : ∀ s post, keysepCh ∉ s → keyMatchesWith fold key (s ++ keysepCh :: post) = p s) :
    Found (stringsFile ss) 0 l ((stored 1 ss).filter fun e => p e.2) := by
  have hat : ∀ e ∈ stored 1 ss, keyMatchesWith fold key ((stringsFile ss).drop e.1) = p e.2 := by
    intro e he
    obtain ⟨hpos, post, hdrop⟩ := drop_of_mem_stored [] (stringsFile_eq ss) he
    rw [show e.1 = e.1 - 1 + 1 by omega, ← List.drop_drop, hdrop, List.drop_one, List.tail_cons]
    exact hp e.2 post (hss e.2 (mem_of_mem_stored he)).2
  refine found_of (fun o ho => ?_) fun e he => ?_
  · obtain ⟨hpoint, hmatch⟩ := (hl.mem_iff o).mp ho
    rw [indexPoints_words hss] at hpoint
    obtain ⟨e, he, rfl⟩ := List.mem_map.mp hpoint
    rw [hat e he] at hmatch
    exact ⟨e, List.mem_filter.mpr ⟨he, hmatch⟩, patrieFix_words hss he⟩
  · obtain ⟨he, hpe⟩ := List.mem_filter.mp he
    refine ⟨e.1, (hl.mem_iff e.1).mpr ⟨?_, by rw [hat e he]; exact hpe⟩, patrieFix_words hss he⟩
    rw [indexPoints_words hss]
    exact List.mem_map_of_mem he

end Words

section Keys

variable {key : List UInt8} {h : StridxHandle} {keys : SearchKeys}
  (hkind : h.srchType = .exact ∨ h.srchType = .substr)
  (hkeys : makeSearchKeys h key = some keys)

include hkind hkeys

/-- In a character database both keys are the same. -/
theorem makeSearchKeys_chars (hidx : h.idxType = .chars) :
    keys.patKey = keys.uiKey ∧ keys.pAdj = keys.uAdj := by
  rcases hkind with hkind | hkind <;> rw [makeSearchKeys, hkind, hidx] at hkeys <;>
    obtain rfl := (Option.some.inj hkeys).symm <;> exact ⟨rfl, rfl⟩

theorem makeSearchKeys_words_pAdj (hidx : h.idxType = .words) : keys.pAdj = 0 := by
  rcases hkind with hkind | hkind <;> rw [makeSearchKeys, hkind] at hkeys <;>
    obtain rfl := (Option.some.inj hkeys).symm
  · exact if_neg (by rw [hidx]; exact IndexType.noConfusion)
  · rfl

/-- For the key that a search makes for the PaTrie. -/
theorem makeSearchKeys_found {ss : List (List UInt8)} (hss : ∀ s ∈ ss, s ≠ [] ∧ keysepCh ∉ s)
    (hkey : key ≠ []) (hsep : keysepCh ∉ key) (s : Sens) {l : List ℕ}
    (hl : SuffixMatches h.idxType (stringsFile ss) s.fold keys.patKey l) :
    Found (stringsFile ss) keys.pAdj l (matching h.idxType h.srchType s.fold key ss) := by
  have hfold := sepOnly_fold s
  cases hidx : h.idxType with
  | chars =>
    obtain ⟨keys', hkeys', -, hP⟩ :=
      makeSearchKeys_places (fun x hx => (hss x hx).2) hkey hsep s hkind
    obtain rfl := Option.some.inj (hkeys'.symm.trans hkeys)
    obtain ⟨hpat, hadj⟩ := makeSearchKeys_chars hkind hkeys hidx
    rw [hidx, hpat] at hl
    rw [hidx] at hP
    rw [hadj]
    exact hP.found hl
  | words =>
    rw [makeSearchKeys_words_pAdj hkind hkeys hidx]
    rw [hidx] at hl
    rcases hkind with hkind | hkind
    · rw [makeSearchKeys, hkind, hidx] at hkeys
      obtain rfl := (Option.some.inj hkeys).symm
      rw [hkind]
      exact found_words hss hl fun x post hx => keyMatchesWith_exact hfold hsep hx post
    · rw [makeSearchKeys, hkind] at hkeys
      obtain rfl := (Option.some.inj hkeys).symm
      rw [hkind]
      refine found_words hss hl fun x post _ => ?_
      rw [keyMatchesWith_string hfold hsep]
      exact Bool.eq_iff_iff.mpr (keyMatchesWith_iff.trans decide_eq_true_iff.symm)

end Keys

/-! ### One call -/

/-- A list without duplicates is only sorted. -/
theorem removeDuplicateStarts_of_nodup {l : List ℕ} (hl : l.Nodup) :
    removeDuplicateStarts l = (l.mergeSort (· ≤ ·), l.length) := by
  have hperm : (l.mergeSort (· ≤ ·)).Perm l := List.mergeSort_perm l _
  have hself : (l.mergeSort (· ≤ ·)).destutter (· ≠ ·) = l.mergeSort (· ≤ ·) :=
    List.destutter_of_isChain _ _ (List.Pairwise.isChain (hperm.nodup_iff.mpr hl))
  rw [removeDuplicateStarts, removeDuplicates, hself, List.drop_length, List.append_nil,
    hperm.length_eq]

/-- The starts that a call returns for the matches `l`. -/
def sortedStarts (text : List UInt8) (adj : ℕ) (l : List ℕ) : List ℕ :=
  (l.map (startOf text adj)).mergeSort (· ≤ ·)

theorem sortedStarts_perm (text : List UInt8) (adj : ℕ) (l : List ℕ) :
    (sortedStarts text adj l).Perm (l.map (startOf text adj)) :=
  List.mergeSort_perm _ _

theorem length_sortedStarts (text : List UInt8) (adj : ℕ) (l : List ℕ) :
    (sortedStarts text adj l).length = l.length := by
  rw [(sortedStarts_perm text adj l).length_eq, List.length_map]

/-- Written to the front of an array. -/
theorem take_write_sortedStarts (text : List UInt8) (adj : ℕ) (l start : List ℕ) :
    (writeStarts start 0 (sortedStarts text adj l)).take l.length = sortedStarts text adj l := by
  rw [writeStarts, List.take_zero, List.nil_append,
    List.take_append_of_le_length (le_of_eq (length_sortedStarts text adj l).symm),
    List.take_of_length_le (le_of_eq (length_sortedStarts text adj l))]

section Calls

variable {calls : Calls} {cf : PatrieConfig} {m : ℤ} {patKey : List UInt8} {l₀ : List ℕ}
  {R : List ℕ → PatrieState → TriePage → Prop} (hserves : Serves calls cf m patKey l₀ R)
  {adj : ℕ} {l : List ℕ}
  (hfix : ∀ o ∈ l, patrieFixOneStart cf.text (o + adj) = some (startOf cf.text adj o))

theorem mapM_fix {f : ℕ → Option ℕ} {g : ℕ → ℕ} (h : ∀ o ∈ l, f (o + adj) = some (g o)) :
    (l.map (· + adj)).mapM f = some (l.map g) := by
  rw [List.mapM_map, mapM_eq_some_map]
  exact h

include hserves

variable (adj) in
theorem moreStartsLoop_nil {h : StridxHandle} {ps : PatrieState} (hR : R [] ps h.page)
    {tot maxhits : ℕ} (hlt : tot < maxhits) (fuel : ℕ) (start : List ℕ) :
    ∃ ps' page', moreStartsLoop calls cf adj maxhits (fuel + 1) h ps tot start =
        some ({ h with pState := some ps', page := page' }, tot, start) ∧ R [] ps' page' := by
  obtain ⟨ps', page', hmore, hR'⟩ := hserves.more [] ps h.page (maxhits - tot) hR (by omega)
  rw [List.take_nil] at hmore
  rw [List.drop_nil] at hR'
  refine ⟨ps', page', ?_, hR'⟩
  rw [moreStartsLoop, if_pos hlt]
  simp only [hmore, Option.bind_eq_bind, Option.bind_some, if_true]

include hfix

/-- A call for more starts that meets no string twice. -/
theorem moreStartsLoop_spec {h : StridxHandle} {ps : PatrieState} (hR : R l ps h.page) {b : ℕ}
    (hb : 0 < b) (hnodup : ((l.take b).map (startOf cf.text adj)).Nodup) (start : List ℕ) :
    ∃ ps' page' start', moreStartsLoop calls cf adj b (b + 1) h ps 0 start =
        some ({ h with pState := some ps', page := page' }, (l.take b).length, start') ∧
      R (l.drop b) ps' page' ∧
      start'.take (l.take b).length = sortedStarts cf.text adj (l.take b) := by
  by_cases hl : l = []
  · subst hl
    obtain ⟨ps', page', hrun, hR'⟩ := moreStartsLoop_nil hserves adj hR hb b start
    rw [List.take_nil, List.drop_nil]
    exact ⟨ps', page', start, hrun, hR', by simp [sortedStarts]⟩
  · obtain ⟨ps', page', hmore, hR'⟩ := hserves.more l ps h.page b hR hb
    have hne : l.take b ≠ [] := fun hnil => by
      rcases List.take_eq_nil_iff.mp hnil with h0 | h0
      · omega
      · exact hl h0
    have hfixed : ((l.take b).map (· + adj)).mapM (patrieFixOneStart cf.text) =
        some ((l.take b).map (startOf cf.text adj)) :=
      mapM_fix fun o ho => hfix o (List.mem_of_mem_take ho)
    have hstep : moreStartsLoop calls cf adj b (b + 1) h ps 0 start =
        moreStartsLoop calls cf adj b b { h with pState := some ps', page := page' } ps'
          (l.take b).length (writeStarts start 0 (sortedStarts cf.text adj (l.take b))) := by
      rw [moreStartsLoop, if_pos hb]
      simp only [Nat.sub_zero, hmore, Option.bind_eq_bind, Option.bind_some, if_neg hne,
        List.take_length, List.drop_length, List.append_nil, hfixed,
        removeDuplicateStarts_of_nodup hnodup, Nat.zero_add, List.length_map]
      rfl
    have hfront := take_write_sortedStarts cf.text adj (l.take b) start
    rcases Nat.lt_or_ge (l.take b).length b with hlt | hge
    · -- the starts are used up
      have hdrop : l.drop b = [] := by
        rw [List.length_take] at hlt
        exact List.drop_eq_nil_of_le (by omega)
      rw [hdrop] at hR' ⊢
      obtain ⟨k, rfl⟩ : ∃ k, b = k + 1 := ⟨b - 1, by omega⟩
      obtain ⟨ps₂, page₂, hrun, hR₂⟩ := moreStartsLoop_nil hserves adj
        (h := { h with pState := some ps', page := page' }) hR' hlt k
        (writeStarts start 0 (sortedStarts cf.text adj (l.take (k + 1))))
      exact ⟨ps₂, page₂, _, hstep.trans hrun, hR₂, hfront⟩
    · refine ⟨ps', page', _, hstep.trans ?_, hR', hfront⟩
      obtain ⟨k, rfl⟩ : ∃ k, b = k + 1 := ⟨b - 1, by omega⟩
      rw [moreStartsLoop, if_neg (by omega)]

end Calls

/-- A search in an entirely indexed database, between two calls. -/
structure PatSearch (cf : PatrieConfig) (key : List UInt8) (m : ℤ) (h : StridxHandle) : Prop where
  uiText : h.uiText = none
  cf : h.cf = some cf
  keyEq : h.key = some key
  srchType : h.srchType = .exact ∨ h.srchType = .substr
  sens : h.caseAccentSens = m

theorem PatSearch.step {cf : PatrieConfig} {key : List UInt8} {m : ℤ} {h : StridxHandle}
    (hh : PatSearch cf key m h) (ps : Option PatrieState) (page : TriePage) :
    PatSearch cf key m { h with pState := ps, page := page } :=
  ⟨hh.uiText, hh.cf, hh.keyEq, hh.srchType, hh.sens⟩

theorem PatSearch.keys {cf : PatrieConfig} {key : List UInt8} {m : ℤ} {h : StridxHandle}
    (hh : PatSearch cf key m h) : ∃ keys, makeSearchKeys h key = some keys := by
  rcases hh.srchType with hk | hk <;> rw [makeSearchKeys, hk] <;> exact ⟨_, rfl⟩

/-- `archGetMoreMatches` on a search with a state is its last loop. -/
theorem PatSearch.getMoreMatches_eq {cf : PatrieConfig} {key : List UInt8} {m : ℤ}
    {h : StridxHandle} (hh : PatSearch cf key m h) {keys : SearchKeys}
    (hkeys : makeSearchKeys h key = some keys) {ps : PatrieState} (hps : h.pState = some ps)
    (calls : Calls) (depth : ℕ) {b : ℕ} (hb : 0 < b) (start : List ℕ) :
    getMoreMatches calls (depth + 1) h b start =
      moreStartsLoop calls cf keys.pAdj b (b + 1) h ps 0 start := by
  have hregex : h.srchType ≠ .regex := by
    rcases hh.srchType with hk | hk <;> rw [hk] <;> exact SrchType.noConfusion
  rw [getMoreMatches, if_neg hb.ne', if_neg hregex]
  simp only [hh.keyEq, hkeys, searchUitext, hh.uiText, hh.cf, Option.bind_eq_bind,
    Option.bind_some, if_pos hb, moreFromPatrie, hps]

section Search

variable {calls : Calls} {cf : PatrieConfig} {m : ℤ} {key : List UInt8} {keys : SearchKeys}
  {l₀ : List ℕ} {R : List ℕ → PatrieState → TriePage → Prop}
  (hserves : Serves calls cf m keys.patKey l₀ R)
  (hfix : ∀ o ∈ l₀, patrieFixOneStart cf.text (o + keys.pAdj) =
    some (startOf cf.text keys.pAdj o))

include hserves hfix

/-- The first call: the refill finds nothing to add. -/
theorem patrieSubSearch_spec {h : StridxHandle} (hh : PatSearch cf key m h)
    (hkeys : makeSearchKeys h key = some keys) {b : ℕ} (hb : 0 < b)
    (hnodup : ((l₀.take b).map (startOf cf.text keys.pAdj)).Nodup) (start : List ℕ) :
    ∃ ps page start', patrieSubSearch calls (getMoreMatches calls 1) cf h keys.patKey keys.pAdj b
        start = some ({ h with pState := some ps, page := page }, (l₀.take b).length, start') ∧
      R (l₀.drop b) ps page ∧
      start'.take (l₀.take b).length = sortedStarts cf.text keys.pAdj (l₀.take b) := by
  obtain ⟨ps, page, hsub, hR⟩ := hserves.first h.page b hb
  have hfixed : ((l₀.take b).map (· + keys.pAdj)).mapM (patrieFixOneStart cf.text) =
      some ((l₀.take b).map (startOf cf.text keys.pAdj)) :=
    mapM_fix fun o ho => hfix o (List.mem_of_mem_take ho)
  have hstep : patrieSubSearch calls (getMoreMatches calls 1) cf h keys.patKey keys.pAdj b start =
      (getMoreMatches calls 1 { h with pState := some ps, page := page } (b - (l₀.take b).length)
        (writeStarts start 0 (sortedStarts cf.text keys.pAdj (l₀.take b)))).map
        fun r => (r.1, (l₀.take b).length + r.2.1, r.2.2) := by
    rw [patrieSubSearch, hh.sens]
    simp only [hsub, Option.bind_eq_bind, Option.bind_some, hfixed,
      removeDuplicateStarts_of_nodup hnodup, List.length_map]
    rw [show ((l₀.take b).map (startOf cf.text keys.pAdj)).mergeSort (· ≤ ·) =
      sortedStarts cf.text keys.pAdj (l₀.take b) from rfl]
    cases getMoreMatches calls 1 _ _ _ <;> rfl
  have hfront := take_write_sortedStarts cf.text keys.pAdj (l₀.take b) start
  rcases Nat.eq_zero_or_pos (b - (l₀.take b).length) with hzero | hpos
  · refine ⟨ps, page, _, hstep.trans ?_, hR, hfront⟩
    rw [hzero, getMoreMatches, if_pos rfl]
    rfl
  · have hdrop : l₀.drop b = [] := by
      rw [List.length_take] at hpos
      exact List.drop_eq_nil_of_le (by omega)
    rw [hdrop] at hR ⊢
    obtain ⟨ps', page', hrun, hR'⟩ := moreStartsLoop_nil hserves keys.pAdj
      (h := { h with pState := some ps, page := page }) hR hpos (b - (l₀.take b).length)
      (writeStarts start 0 (sortedStarts cf.text keys.pAdj (l₀.take b)))
    refine ⟨ps', page', _, hstep.trans ?_, hR', hfront⟩
    rw [(hh.step (some ps) page).getMoreMatches_eq hkeys rfl calls 0 hpos, hrun]
    rfl

/-- Later calls, when none meets a string twice. -/
theorem moreSearches_indexed {h : StridxHandle} (hh : PatSearch cf key m h)
    (hkeys : makeSearchKeys h key = some keys) {l : List ℕ} (hsub : ∀ o ∈ l, o ∈ l₀)
    {ps : PatrieState} (hps : h.pState = some ps) (hR : R l ps h.page) {arrays : List (List ℕ)}
    (harrays : ∀ a ∈ arrays, a ≠ [])
    (hnodup : ∀ c ∈ batches l (arrays.map List.length), (c.map (startOf cf.text keys.pAdj)).Nodup) :
    moreSearches calls arrays h =
      some ((batches l (arrays.map List.length)).map (sortedStarts cf.text keys.pAdj)) := by
  induction arrays generalizing h l ps with
  | nil => rfl
  | cons a arrays ih =>
    have hpos : 0 < a.length := List.length_pos_of_ne_nil (harrays a List.mem_cons_self)
    rw [List.map_cons, batches] at hnodup ⊢
    obtain ⟨ps', page', start', hrun, hR', htake⟩ :=
      moreStartsLoop_spec hserves (fun o ho => hfix o (hsub o ho)) (h := h) hR hpos
        (hnodup _ List.mem_cons_self) a
    have hrest := ih (hh.step (some ps') page') hkeys
      (fun o ho => hsub o (List.mem_of_mem_drop ho)) rfl hR'
      (fun b hb => harrays b (List.mem_cons_of_mem a hb))
      (fun c hc => hnodup c (List.mem_cons_of_mem _ hc))
    rw [moreSearches, archGetMoreMatches, hh.getMoreMatches_eq hkeys hps calls 1 hpos, hrun]
    simp only [Option.bind_eq_bind, Option.bind_some, hrest, hitsOf, htake, List.map_cons]

/-- **The batches of a search, when no call meets a string twice.** -/
theorem searches_indexed {h : StridxHandle} (hui : h.uiText = none) (hcf : h.cf = some cf)
    {kind : SrchType} (hkind : kind = .exact ∨ kind = .substr) (hkey : key ≠ [])
    (hkeys : makeSearchKeys (saveSearchState key m kind h) key = some keys) {a : List ℕ}
    {arrays : List (List ℕ)} (ha : a ≠ []) (harrays : ∀ b ∈ arrays, b ≠ [])
    (hnodup : ∀ c ∈ batches l₀ ((a :: arrays).map List.length),
      (c.map (startOf cf.text keys.pAdj)).Nodup) :
    searches calls kind h key m a arrays =
      some ((batches l₀ ((a :: arrays).map List.length)).map (sortedStarts cf.text keys.pAdj)) := by
  have hh : PatSearch cf key m (saveSearchState key m kind h) := ⟨hui, hcf, rfl, hkind, rfl⟩
  have hpos : 0 < a.length := List.length_pos_of_ne_nil ha
  rw [List.map_cons, batches] at hnodup ⊢
  obtain ⟨ps, page, start', hrun, hR, htake⟩ :=
    patrieSubSearch_spec hserves hfix hh hkeys hpos (hnodup _ List.mem_cons_self) a
  have hfirst : subSearch calls (saveSearchState key m kind h) key a.length a =
      some ({ saveSearchState key m kind h with pState := some ps, page := page },
        (l₀.take a.length).length, start') := by
    rw [subSearch, if_neg hkey]
    simp only [hkeys, searchUitext, hh.uiText, hh.cf, Option.bind_eq_bind, Option.bind_some,
      if_neg hpos.ne, Nat.sub_zero, List.drop_zero, hrun, Nat.zero_add, List.take_zero,
      List.nil_append]
  have hrest := moreSearches_indexed hserves hfix (hh.step (some ps) page) hkeys
    (fun o ho => List.mem_of_mem_drop ho) rfl hR harrays
    (fun c hc => hnodup c (List.mem_cons_of_mem _ hc))
  rw [searches, hfirst]
  simp only [Option.bind_eq_bind, Option.bind_some, hrest, hitsOf, htake, List.map_cons]

end Search

/-! ### When all sequences of batches are right -/

/-- A string has a key at two places. -/
def Twice (fold : UInt8 → UInt8) (key s : List UInt8) : Prop :=
  ∃ i j, i < j ∧ keyMatchesWith fold key (s.drop i) = true ∧
    keyMatchesWith fold key (s.drop j) = true

/-- The starts returned, in batches that ask for `n` together: each string once,
no other offset, and as many as asked for. -/
structure Delivers (starts : List (List ℕ)) (matched : List (ℕ × List UInt8)) (n : ℕ) : Prop where
  nodup : starts.flatten.Nodup
  sub : ∀ o ∈ starts.flatten, o ∈ matched.map Prod.fst
  length : starts.flatten.length = min n matched.length

theorem nodup_matching (idxType : IndexType) (srchType : SrchType) (fold : UInt8 → UInt8)
    (key : List UInt8) (ss : List (List UInt8)) :
    ((matching idxType srchType fold key ss).map Prod.fst).Nodup := by
  have hgap : (matching idxType srchType fold key ss).Pairwise
      fun e e' => e.1 + e.2.length + 1 ≤ e'.1 := (gap_stored 1 ss).sublist List.filter_sublist
  refine List.pairwise_map.mpr (hgap.imp ?_)
  intro e e' hle heq
  omega

/-- The matches are in different strings, unless a string of a character database
has the key at two places. -/
theorem nodup_startOf_iff {ss : List (List UInt8)} (hss : ∀ s ∈ ss, s ≠ [] ∧ keysepCh ∉ s)
    {key : List UInt8} (hkey : key ≠ []) (hsep : keysepCh ∉ key) (s : Sens) {h : StridxHandle}
    (hkind : h.srchType = .exact ∨ h.srchType = .substr) {keys : SearchKeys}
    (hkeys : makeSearchKeys h key = some keys) {l : List ℕ}
    (hl : SuffixMatches h.idxType (stringsFile ss) s.fold keys.patKey l) :
    (l.map (startOf (stringsFile ss) keys.pAdj)).Nodup ↔
      h.srchType = .exact ∨ h.idxType = .words ∨ ∀ x ∈ ss, ¬ Twice s.fold key x := by
  rw [List.nodup_map_iff_inj_on hl.nodup]
  cases hidx : h.idxType with
  | words =>
    rw [makeSearchKeys_words_pAdj hkind hkeys hidx]
    rw [hidx] at hl
    refine ⟨fun _ => .inr (.inl rfl), fun _ x hx y hy hxy => ?_⟩
    rw [startOf_words hss hl hx, startOf_words hss hl hy] at hxy
    exact hxy
  | chars =>
    obtain ⟨keys', hkeys', hadj, hP⟩ :=
      makeSearchKeys_places (fun x hx => (hss x hx).2) hkey hsep s hkind
    obtain rfl := Option.some.inj (hkeys'.symm.trans hkeys)
    obtain ⟨hpat, hpadj⟩ := makeSearchKeys_chars hkind hkeys hidx
    rw [hidx, hpat] at hl
    rw [hpadj]
    have hstart : ∀ e ∈ matching h.idxType h.srchType s.fold key ss, ∀ o ∈
        placesIn s.fold keys'.uiKey (stringsFile ss) keys'.uAdj e,
        startOf (stringsFile ss) keys'.uAdj o = e.1 := fun e he o ho => by
      rw [startOf, hP.patrieFix he ho, Option.getD_some]
    have heq : ∀ e ∈ matching h.idxType h.srchType s.fold key ss,
        ∀ e' ∈ matching h.idxType h.srchType s.fold key ss, e.1 = e'.1 → e = e' :=
      (List.nodup_map_iff_inj_on (List.Nodup.of_map Prod.fst
        (nodup_matching _ _ _ _ _))).mp (nodup_matching _ _ _ _ _)
    rcases hkind with hkind | hkind
    · -- an exact match is one place
      refine ⟨fun _ => .inl hkind, fun _ x hx y hy hxy => ?_⟩
      obtain ⟨e, he, hxe⟩ := (hP.mem_iff hl x).mp hx
      obtain ⟨e', he', hye⟩ := (hP.mem_iff hl y).mp hy
      rw [hstart e he x hxe, hstart e' he' y hye] at hxy
      obtain rfl := heq e he e' he' hxy
      have hone : keys'.uAdj = 1 := by
        rw [hadj, uiAdj, if_neg (fun hc => by rw [hkind] at hc; exact SrchType.noConfusion hc.1)]
      rw [hP.single hone e he, List.mem_singleton] at hxe hye
      rw [hxe, hye]
    · have hkey0 : keys'.uiKey = key ∧ keys'.uAdj = 0 := by
        rw [makeSearchKeys, hkind, hidx] at hkeys
        obtain rfl := (Option.some.inj hkeys).symm
        exact ⟨rfl, rfl⟩
      rw [hkey0.1, hkey0.2] at hP hstart
      rw [hkey0.1] at hl
      rw [hkey0.2]
      have hfold := sepOnly_fold s
      simp only [hkind, reduceCtorEq, false_or]
      constructor
      · rintro hinj x hx ⟨i, j, hij, hi, hj⟩
        -- two places in one string have the same start
        obtain ⟨o, ho⟩ := exists_mem_stored 1 hx
        have hjlen : j < x.length := by
          by_contra hge
          rw [List.drop_eq_nil_of_le (by omega), keyMatchesWith_iff, List.map_nil,
            List.prefix_nil, List.map_eq_nil_iff] at hj
          exact hkey hj
        have hmem : (o, x) ∈ matching h.idxType h.srchType s.fold key ss := by
          rw [hkind, hidx]
          refine List.mem_filter.mpr ⟨ho, decide_eq_true ?_⟩
          rw [keyMatchesWith_iff, List.map_drop] at hi
          exact hi.isInfix.trans (List.drop_suffix i _).isInfix
        have hpi := (mem_placesIn_zero hfold hkey hsep ho).mpr ⟨i, lt_trans hij hjlen, rfl, hi⟩
        have hpj := (mem_placesIn_zero hfold hkey hsep ho).mpr ⟨j, hjlen, rfl, hj⟩
        have hsame := hinj _ ((hP.mem_iff hl _).mpr ⟨_, hmem, hpi⟩) _
          ((hP.mem_iff hl _).mpr ⟨_, hmem, hpj⟩)
          ((hstart _ hmem _ hpi).trans (hstart _ hmem _ hpj).symm)
        omega
      · intro hnot x hx y hy hxy
        obtain ⟨e, he, hxe⟩ := (hP.mem_iff hl x).mp hx
        obtain ⟨e', he', hye⟩ := (hP.mem_iff hl y).mp hy
        rw [hstart e he x hxe, hstart e' he' y hye] at hxy
        obtain rfl := heq e he e' he' hxy
        have hstored := List.mem_of_mem_filter he
        obtain ⟨i, -, rfl, hi⟩ := (mem_placesIn_zero hfold hkey hsep hstored).mp hxe
        obtain ⟨j, -, rfl, hj⟩ := (mem_placesIn_zero hfold hkey hsep hstored).mp hye
        have hnot' := hnot e.2 (mem_of_mem_stored hstored)
        rcases lt_trichotomy i j with hlt | rfl | hgt
        · exact absurd ⟨i, j, hlt, hi, hj⟩ hnot'
        · rfl
        · exact absurd ⟨j, i, hgt, hj, hi⟩ hnot'

/-- Sorting the starts of each batch changes only the order. -/
theorem flatten_sortedStarts_perm (text : List UInt8) (adj : ℕ) (cs : List (List ℕ)) :
    (cs.map (sortedStarts text adj)).flatten.Perm (cs.flatten.map (startOf text adj)) := by
  induction cs with
  | nil => exact List.Perm.refl _
  | cons c cs ih =>
    rw [List.map_cons, List.flatten_cons, List.flatten_cons, List.map_append]
    exact (sortedStarts_perm text adj c).append ih

theorem sublist_of_mem_batches {l c : List ℕ} {sizes : List ℕ} (hc : c ∈ batches l sizes) :
    c.Sublist l := by
  induction sizes generalizing l with
  | nil => exact absurd hc List.not_mem_nil
  | cons b bs ih =>
    rw [batches] at hc
    rcases List.mem_cons.mp hc with rfl | hc
    · exact List.take_sublist b l
    · exact (ih hc).trans (List.drop_sublist b l)

theorem length_le_of_mem_batches {l c : List ℕ} {sizes : List ℕ} (hc : c ∈ batches l sizes) :
    ∃ b ∈ sizes, c.length ≤ b := by
  induction sizes generalizing l with
  | nil => exact absurd hc List.not_mem_nil
  | cons b bs ih =>
    rw [batches] at hc
    rcases List.mem_cons.mp hc with rfl | hc
    · exact ⟨b, List.mem_cons_self, List.length_take_le b l⟩
    · obtain ⟨b', hb', hle⟩ := ih hc
      exact ⟨b', List.mem_cons_of_mem b hb', hle⟩

/-- **A search of an indexed database returns each matching string once, for all
sequences of batches, exactly when it is an exact search, or the index is by words, or
no stored string has the key at two places.** -/
theorem indexed_iff {calls : Calls} {cf : PatrieConfig} {ss : List (List UInt8)}
    (hss : ∀ s ∈ ss, s ≠ [] ∧ keysepCh ∉ s) {key : List UInt8} (hkey : key ≠ [])
    (hsep : keysepCh ∉ key) {s : Sens} {h : StridxHandle} (hui : h.uiText = none)
    (hcf : h.cf = some cf) (htext : cf.text = stringsFile ss) {kind : SrchType}
    (hkind : kind = .exact ∨ kind = .substr) {keys : SearchKeys}
    (hkeys : makeSearchKeys (saveSearchState key s.code kind h) key = some keys) {l : List ℕ}
    (hl : SuffixMatches h.idxType cf.text s.fold keys.patKey l)
    {R : List ℕ → PatrieState → TriePage → Prop}
    (hserves : Serves calls cf s.code keys.patKey l R) :
    (∀ a arrays, a ≠ [] → (∀ b ∈ arrays, b ≠ []) →
      ∃ starts, searches calls kind h key s.code a arrays = some starts ∧
        Delivers starts (matching h.idxType kind s.fold key ss)
          ((a :: arrays).map List.length).sum) ↔
      kind = .exact ∨ h.idxType = .words ∨ ∀ x ∈ ss, ¬ Twice s.fold key x := by
  rw [htext] at hl
  have hfound := makeSearchKeys_found (h := saveSearchState key s.code kind h) hkind hkeys hss
    hkey hsep s hl
  have hnodup := nodup_startOf_iff (h := saveSearchState key s.code kind h) hss hkey hsep s hkind
    hkeys hl
  refine Iff.trans ?_ hnodup
  rw [← htext] at hfound ⊢
  have hrun : ∀ a arrays, a ≠ [] → (∀ b ∈ arrays, b ≠ []) →
      (∀ c ∈ batches l ((a :: arrays).map List.length),
        (c.map (startOf cf.text keys.pAdj)).Nodup) → _ := fun a arrays ha harrays hc =>
    searches_indexed hserves hfound.fix hui hcf hkind hkey hkeys ha harrays hc
  have hperm : ∀ sizes : List ℕ, ((batches l sizes).map
      (sortedStarts cf.text keys.pAdj)).flatten.Perm
        ((l.take sizes.sum).map (startOf cf.text keys.pAdj)) := fun sizes => by
    rw [← flatten_batches]
    exact flatten_sortedStarts_perm _ _ _
  constructor
  · intro hall
    -- batches of size 1, as many as there are matches
    by_cases hnil : l = []
    · rw [hnil]
      exact List.nodup_nil
    obtain ⟨n, hn⟩ : ∃ n, l.length = n + 1 :=
      ⟨l.length - 1, by have := List.length_pos_of_ne_nil hnil; omega⟩
    have hsizes : ([0] :: List.replicate n [0]).map List.length = List.replicate (n + 1) 1 := by
      rw [List.map_cons, List.map_replicate, List.replicate_succ]
      rfl
    have hone : ∀ b ∈ List.replicate n [0], b ≠ [] := fun b hb => by
      rw [List.eq_of_mem_replicate hb]
      exact List.cons_ne_nil _ _
    obtain ⟨starts, hstarts, hdel⟩ := hall [0] (List.replicate n [0]) (List.cons_ne_nil _ _) hone
    have heq := hrun [0] (List.replicate n [0]) (List.cons_ne_nil _ _) hone fun c hc => by
      rw [hsizes] at hc
      obtain ⟨b, hb, hle⟩ := length_le_of_mem_batches hc
      rw [List.eq_of_mem_replicate hb] at hle
      match c, hle with
      | [], _ => exact List.nodup_nil
      | [x], _ => exact List.nodup_singleton _
    rw [hstarts, Option.some.injEq] at heq
    have hp := hperm (([0] :: List.replicate n [0]).map List.length)
    rw [← heq, hsizes, List.sum_replicate_nat, Nat.mul_one,
      List.take_of_length_le (le_of_eq hn)] at hp
    exact hp.nodup_iff.mp hdel.nodup
  · intro hnd a arrays ha harrays
    have hlen : l.length = (matching h.idxType kind s.fold key ss).length := by
      have hp : (l.map (startOf cf.text keys.pAdj)).Perm
          ((matching h.idxType kind s.fold key ss).map Prod.fst) :=
        (List.perm_ext_iff_of_nodup hnd (nodup_matching _ _ _ _ _)).mpr hfound.mem_iff
      have hle := hp.length_eq
      rwa [List.length_map, List.length_map] at hle
    refine ⟨_, hrun a arrays ha harrays fun c hc =>
      hnd.sublist ((sublist_of_mem_batches hc).map _), ?_, fun o ho => ?_, ?_⟩
    · exact (hperm _).nodup_iff.mpr (hnd.sublist ((List.take_sublist _ _).map _))
    · refine (hfound.mem_iff o).mp ?_
      obtain ⟨x, hx, rfl⟩ := List.mem_map.mp ((hperm _).mem_iff.mp ho)
      exact List.mem_map_of_mem (List.mem_of_mem_take hx)
    · rw [(hperm _).length_eq, List.length_map, List.length_take, hlen]

/-! ### A string with the key at two places -/

/-- A character database of the string `aa`, entirely indexed. -/
def twiceConfig : PatrieConfig where
  text := stringsFile [[97, 97]]
  buildCaseAccentSens := .csas
  trie :=
    { pages := [[0, 0, 0, 2, 7, 7, 2147483652, 2147483649, 2147483651, 2147483650]]
      levelsPerPage := 3 }

/-- The only page of its PaTrie. -/
def twicePage : TriePage where
  bCount := 0
  nTCounts := 0
  firstChildPage := 0
  tCount := []
  nodeBitOff := 96
  bits := [0, 0, 0, 2, 7, 7, 2147483652, 2147483649, 2147483651, 2147483650]
  pageNum := 0

theorem twicePage_loaded : twicePage.Loaded twiceConfig.trie := rfl

/-- Its trie: separators before letters, and ends before letters. -/
def twiceTrie : Patricia.Trie ℕ :=
  .node 1 (.node 7 (.leaf 3) (.leaf 0)) (.node 7 (.leaf 2) (.leaf 1))

theorem twiceTrie_isPaTrie : IsPaTrie twiceConfig.text .csas
    (indexPoints .chars twiceConfig.text) twiceTrie where
  perm := by decide
  correct := by
    simp only [Patricia.Trie.Correct, twiceTrie, Patricia.Agree]
    decide

theorem twiceConfig_represents : Represents twiceConfig.trie twiceTrie := by
  have hleft : Reads twiceConfig.trie (.node 7 (.leaf 4) (.leaf 1)) 2
      ⟨7, 1, 2, 9, 128, 1, 0, 2, 0⟩ :=
    reads_node (by decide) rfl (by decide) twicePage_loaded
      ⟨⟨4, 0, 3, 10, 192, 0, 1, 4, 0⟩, twicePage, by decide, twicePage_loaded, rfl, rfl⟩
      ⟨⟨1, 0, 3, 10, 224, 0, 2, 4, 0⟩, twicePage, by decide, twicePage_loaded, rfl, rfl⟩
  have hright : Reads twiceConfig.trie (.node 7 (.leaf 3) (.leaf 2)) 2
      ⟨7, 1, 2, 9, 160, 2, 0, 2, 0⟩ :=
    reads_node (by decide) rfl (by decide) twicePage_loaded
      ⟨⟨3, 0, 3, 10, 256, 0, 3, 4, 0⟩, twicePage, by decide, twicePage_loaded, rfl, rfl⟩
      ⟨⟨2, 0, 3, 10, 288, 0, 4, 4, 0⟩, twicePage, by decide, twicePage_loaded, rfl, rfl⟩
  exact ⟨⟨2, 1, 1, 1, 96, 1, 0, 1, 0⟩, twicePage, by decide, twicePage_loaded,
    reads_node (by decide) rfl (by decide) twicePage_loaded
      ⟨_, twicePage, by decide, twicePage_loaded, hleft⟩
      ⟨_, twicePage, by decide, twicePage_loaded, hright⟩⟩

/-- A handle of it. -/
def twiceHandle : StridxHandle where
  idxType := .chars
  uiText := none
  split := 5
  cf := some twiceConfig
  page := ⟨0, 0, 0, [], 0, [], -1⟩
  key := none
  srchType := .unset
  caseAccentSens := 0
  rState := 0
  uState := 0
  pState := none

/-- Calls that can walk its PaTrie. -/
def twiceCalls : Calls := { scanCalls with fuel := 7 }

/-- The search for `a` with batches of size 1 returns the string in both, although the
PaTrie hands out the two suffixes correctly. -/
theorem twiceHandle_not_once :
    (∃ R, Serves twiceCalls twiceConfig Sens.csas.code [97] [2, 1] R) ∧
      SuffixMatches .chars twiceConfig.text Sens.csas.fold [97] [2, 1] ∧
      ¬ ∃ starts, searches twiceCalls .substr twiceHandle [97] Sens.csas.code [0] [[0]] =
          some starts ∧
        Delivers starts (matching .chars .substr Sens.csas.fold [97] [[97, 97]]) 2 := by
  refine ⟨⟨_, serves_pending twiceTrie_isPaTrie twiceConfig_represents (by simp) (by decide)⟩,
    twiceTrie_isPaTrie.suffixMatches [97], ?_⟩
  rintro ⟨starts, hstarts, hdel⟩
  have hrun : searches twiceCalls .substr twiceHandle [97] Sens.csas.code [0] [[0]] =
      some [[1], [1]] := by decide +kernel
  rw [hrun, Option.some.injEq] at hstarts
  have hnodup := hdel.nodup
  rw [← hstarts] at hnodup
  revert hnodup
  decide

theorem indexed_iff_twiceHandle :
    (∀ a arrays, a ≠ [] → (∀ b ∈ arrays, b ≠ []) →
      ∃ starts, searches twiceCalls .substr twiceHandle [97] Sens.csas.code a arrays =
          some starts ∧
        Delivers starts (matching .chars .substr Sens.csas.fold [97] [[97, 97]])
          ((a :: arrays).map List.length).sum) ↔
      SrchType.substr = .exact ∨ IndexType.chars = .words ∨
        ∀ x ∈ [[97, 97]], ¬ Twice Sens.csas.fold [97] x :=
  indexed_iff (by decide) (by decide) (by decide) rfl (rfl : twiceHandle.cf = some twiceConfig) rfl
    (.inr rfl) (show makeSearchKeys _ _ = some ⟨[97], 0, [97], 0⟩ by decide)
    (twiceTrie_isPaTrie.suffixMatches [97])
    (serves_pending twiceTrie_isPaTrie twiceConfig_represents (by simp) (by decide))

end Archie
