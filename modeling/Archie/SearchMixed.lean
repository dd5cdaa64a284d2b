/-
A resumable search by another comparison than that of the index.

The walk compares each start with the key by the entry of `MatchMap` for the two
comparisons.  Two things go wrong.  The table of `NoAccent` maps `H`, `P` and `X`
to small letters, so a comparison through it does not see the case of these
letters.  And when the first start does not match, its siblings stay on the stack
and the next calls return those that pass the entry of the table alone.

* `CaseSlip` — the letters that the table confuses.
* `searchBatches_mixed` — what the batches of a mixed search are.
* `exactMixed_iff` — exactly when they are the answer.
-/
import Archie.SearchSame

namespace Archie

open Patricia

/-! ### Folding as it is meant -/

/-- `NoAccent` without its slip: a letter that has no accent stands for itself. -/
def plainLetter (c : UInt8) : UInt8 := if c ∈ [72, 80, 88] then c else noAccent c

/-- What each comparison is meant to treat alike. -/
def Sens.meantFold : Sens → UInt8 → UInt8
  | ciai => fun c => toLower (plainLetter c)
  | cias => toLower
  | csai => plainLetter
  | csas => id

/-- The two cases of a letter that the table of `NoAccent` confuses. -/
def CaseSlip (a b : UInt8) : Prop :=
  a ∈ [72, 80, 88] ∧ b = toLower a ∨ b ∈ [72, 80, 88] ∧ a = toLower b

instance (a b : UInt8) : Decidable (CaseSlip a b) :=
  inferInstanceAs (Decidable (_ ∨ _))

theorem noAccent_plainLetter (c : UInt8) : noAccent (plainLetter c) = noAccent c := by
  refine forall_uint8 (P := fun c => noAccent (plainLetter c) = noAccent c) ?_ c
  decide +kernel

/-- The letters that become one of the slipped small letters. -/
theorem noAccent_slip {a c : UInt8} (ha : a ∈ [72, 80, 88]) (h : noAccent c = noAccent a) :
    c = a ∨ c = toLower a := by
  have hall : ∀ a ∈ ([72, 80, 88] : List UInt8), ∀ n < 256,
      noAccent (UInt8.ofNat n) = noAccent a → UInt8.ofNat n = a ∨ UInt8.ofNat n = toLower a := by
    decide +kernel
  exact forall_uint8 (P := fun c => noAccent c = noAccent a → c = a ∨ c = toLower a) (hall a ha) c h

/-- A letter whose small form it does not differ from in the table. -/
theorem toLower_slip {c : UInt8} (hne : toLower c ≠ c) :
    toLower c = c + 32 ∧ (noAccent (toLower c) = noAccent c → c ∈ [72, 80, 88]) := by
  refine forall_uint8 (P := fun c => toLower c ≠ c →
    toLower c = c + 32 ∧ (noAccent (toLower c) = noAccent c → c ∈ [72, 80, 88])) ?_ c hne
  decide +kernel

/-- The slip, and nothing else, makes `NoAccent` differ from what is meant. -/
theorem plainLetter_eq_iff {a b : UInt8} (h : noAccent a = noAccent b) :
    plainLetter a = plainLetter b ↔ a = b ∨ ¬ CaseSlip a b := by
  by_cases ha : a ∈ [72, 80, 88]
  · rcases noAccent_slip ha h.symm with rfl | rfl
    · exact ⟨fun _ => Or.inl rfl, fun _ => rfl⟩
    · have hne : ∀ a ∈ ([72, 80, 88] : List UInt8), plainLetter a ≠ plainLetter (toLower a) ∧
          a ≠ toLower a := by decide +kernel
      have hslip : CaseSlip a (toLower a) := Or.inl ⟨ha, rfl⟩
      exact ⟨fun heq => absurd heq (hne a ha).1,
        fun hor => hor.elim (fun heq => absurd heq (hne a ha).2) fun hno => absurd hslip hno⟩
  · by_cases hb : b ∈ [72, 80, 88]
    · rcases noAccent_slip hb h with rfl | rfl
      · exact absurd hb ha
      · have hne : ∀ a ∈ ([72, 80, 88] : List UInt8), plainLetter (toLower a) ≠ plainLetter a ∧
            toLower a ≠ a := by decide +kernel
        have hslip : CaseSlip (toLower b) b := Or.inr ⟨hb, rfl⟩
        exact ⟨fun heq => absurd heq (hne b hb).1,
          fun hor => hor.elim (fun heq => absurd heq (hne b hb).2) fun hno => absurd hslip hno⟩
    · rw [plainLetter, plainLetter, if_neg ha, if_neg hb]
      refine ⟨fun _ => Or.inr ?_, fun _ => h⟩
      rintro (⟨ha', -⟩ | ⟨hb', -⟩)
      · exact ha ha'
      · exact hb hb'

/-- Letters alike but for case and alike but for accents are equal, or slip. -/
theorem eq_or_caseSlip {a b : UInt8} (hl : toLower a = toLower b) (hn : noAccent a = noAccent b) :
    a = b ∨ CaseSlip a b := by
  by_cases ha : toLower a = a
  · by_cases hb : toLower b = b
    · exact Or.inl (by rw [← ha, hl, hb])
    · have hab : a = toLower b := ha.symm.trans hl
      exact Or.inr (Or.inr ⟨(toLower_slip hb).2 (by rw [← hab, hn]), hab⟩)
  · by_cases hb : toLower b = b
    · have hba : b = toLower a := hb.symm.trans hl.symm
      exact Or.inr (Or.inl ⟨(toLower_slip ha).2 (by rw [← hba, hn]), hba⟩)
    · have hsum : a + 32 = b + 32 := by
        rw [← (toLower_slip ha).1, ← (toLower_slip hb).1, hl]
      exact Or.inl (by simpa using hsum)

theorem CaseSlip.ne {a b : UInt8} (h : CaseSlip a b) : a ≠ b := by
  have hall : ∀ a ∈ ([72, 80, 88] : List UInt8), a ≠ toLower a := by decide +kernel
  rcases h with ⟨ha, rfl⟩ | ⟨hb, rfl⟩
  · exact hall a ha
  · exact (hall b hb).symm

/-- The searches that differ from the index, with their entries of `MatchMap`. -/
theorem mixed_cases {s p f : Sens} (hne : s ≠ p) (h : matchType s.code p.code = some (some f)) :
    (s, p, f) ∈ [(Sens.cias, Sens.ciai, Sens.cias), (.csai, .ciai, .csai), (.csas, .ciai, .csas),
      (.csas, .cias, .csai), (.csas, .csai, .cias)] := by
  revert hne h
  cases s <;> cases p <;> cases f <;> decide

/-- What is meant to match, matches by the index and by the entry of the table. -/
theorem fold_eq_of_meantFold {s p f : Sens} (hne : s ≠ p)
    (h : matchType s.code p.code = some (some f)) {a b : UInt8}
    (hab : s.meantFold a = s.meantFold b) : p.fold a = p.fold b ∧ f.fold a = f.fold b := by
  have hcases := mixed_cases hne h
  simp only [List.mem_cons, Prod.mk.injEq, List.not_mem_nil, or_false] at hcases
  have hplain : plainLetter a = plainLetter b → noAccent a = noAccent b := fun hp => by
    rw [← noAccent_plainLetter a, hp, noAccent_plainLetter]
  rcases hcases with ⟨rfl, rfl, rfl⟩ | ⟨rfl, rfl, rfl⟩ | ⟨rfl, rfl, rfl⟩ | ⟨rfl, rfl, rfl⟩ |
    ⟨rfl, rfl, rfl⟩
  · refine ⟨?_, hab⟩
    show toLower (noAccent a) = toLower (noAccent b)
    rw [lower_noAccent, lower_noAccent]
    exact congrArg noAccent hab
  · exact ⟨congrArg toLower (hplain hab), hplain hab⟩
  all_goals
    obtain rfl : a = b := hab
    exact ⟨rfl, rfl⟩

/-- What matches by the index and by the entry of the table is meant to match,
unless the case of a slipped letter matters. -/
theorem meantFold_eq_iff {s p f : Sens} (hne : s ≠ p)
    (h : matchType s.code p.code = some (some f)) {a b : UInt8} (hp : p.fold a = p.fold b)
    (hf : f.fold a = f.fold b) :
    s.meantFold a = s.meantFold b ↔ s = .cias ∨ ¬ CaseSlip a b := by
  have hcases := mixed_cases hne h
  simp only [List.mem_cons, Prod.mk.injEq, List.not_mem_nil, or_false] at hcases
  -- a search that minds both sees two letters alike for the index and for the table
  have hboth : toLower a = toLower b → noAccent a = noAccent b → (a = b ↔ ¬ CaseSlip a b) :=
    fun hl hn => ⟨fun heq hslip => hslip.ne heq,
      fun hno => (eq_or_caseSlip hl hn).resolve_right hno⟩
  rcases hcases with ⟨rfl, rfl, rfl⟩ | ⟨rfl, rfl, rfl⟩ | ⟨rfl, rfl, rfl⟩ | ⟨rfl, rfl, rfl⟩ |
    ⟨rfl, rfl, rfl⟩
  · exact ⟨fun _ => Or.inl rfl, fun _ => hf⟩
  · refine (plainLetter_eq_iff hf).trans ⟨?_, ?_⟩
    · rintro (rfl | hno)
      · exact Or.inr fun hslip => hslip.ne rfl
      · exact Or.inr hno
    · rintro (hs | hno)
      · contradiction
      · exact Or.inr hno
  · obtain rfl : a = b := hf
    exact ⟨fun _ => Or.inr fun hslip => hslip.ne rfl, fun _ => rfl⟩
  · refine (hboth hp hf).trans ⟨Or.inr, ?_⟩
    rintro (hs | hno)
    · contradiction
    · exact hno
  · refine (hboth hf hp).trans ⟨Or.inr, ?_⟩
    rintro (hs | hno)
    · contradiction
    · exact hno

/-! ### Keys -/

/-- The start begins with the key under the comparison that is meant. -/
def MeantMatch (text : List UInt8) (s : Sens) (key : List UInt8) (offset : ℕ) : Prop :=
  key.map s.meantFold <+: (text.drop offset).map s.meantFold

instance (text : List UInt8) (s : Sens) (key : List UInt8) (offset : ℕ) :
    Decidable (MeantMatch text s key offset) :=
  inferInstanceAs (Decidable (_ <+: _))

/-- At some place of the start stands the other case of a slipped letter. -/
def Slips (text key : List UInt8) (offset : ℕ) : Prop :=
  ∃ q ∈ key.zip (text.drop offset), CaseSlip q.1 q.2

instance (text key : List UInt8) (offset : ℕ) : Decidable (Slips text key offset) :=
  inferInstanceAs (Decidable (∃ q ∈ _, _))

/-- A prefix up to folding, one pair of characters at a time. -/
theorem map_prefix_iff {fold : UInt8 → UInt8} {key text : List UInt8} :
    key.map fold <+: text.map fold ↔
      key.length ≤ text.length ∧ ∀ q ∈ key.zip text, fold q.1 = fold q.2 := by
  induction key generalizing text with
  | nil => simp
  | cons k key ih =>
    cases text with
    | nil => simp
    | cons c text =>
      rw [List.map_cons, List.map_cons, List.cons_prefix_cons, ih, List.zip_cons_cons,
        List.forall_mem_cons, List.length_cons, List.length_cons, Nat.add_le_add_iff_right]
      exact and_left_comm

section Mixed

variable {cf : PatrieConfig} {s f : Sens} {key : List UInt8}

/-- What is meant to match passes both comparisons of the code. -/
theorem matches_of_meantMatch (hne : s ≠ cf.buildCaseAccentSens)
    (hmap : matchType s.code cf.buildCaseAccentSens.code = some (some f)) {o : ℕ}
    (h : MeantMatch cf.text s key o) :
    keyMatchesIdxType cf key o = true ∧ keyTypeMatch cf key o (some f) = true := by
  obtain ⟨hlen, hall⟩ := map_prefix_iff.mp h
  constructor
  · exact keyTypeMatch_iff.mpr
      (map_prefix_iff.mpr ⟨hlen, fun q hq => (fold_eq_of_meantFold hne hmap (hall q hq)).1⟩)
  · exact keyTypeMatch_iff.mpr
      (map_prefix_iff.mpr ⟨hlen, fun q hq => (fold_eq_of_meantFold hne hmap (hall q hq)).2⟩)

/-- What passes both comparisons is meant to match, unless a case slips. -/
theorem meantMatch_iff (hne : s ≠ cf.buildCaseAccentSens)
    (hmap : matchType s.code cf.buildCaseAccentSens.code = some (some f)) {o : ℕ}
    (hp : keyMatchesIdxType cf key o = true) (hf : keyTypeMatch cf key o (some f) = true) :
    MeantMatch cf.text s key o ↔ s = .cias ∨ ¬ Slips cf.text key o := by
  obtain ⟨hlen, hpall⟩ := map_prefix_iff.mp (keyTypeMatch_iff.mp hp)
  obtain ⟨-, hfall⟩ := map_prefix_iff.mp (keyTypeMatch_iff.mp hf)
  rw [MeantMatch, map_prefix_iff]
  constructor
  · rintro ⟨-, hall⟩
    by_cases hs : s = .cias
    · exact Or.inl hs
    · refine Or.inr ?_
      rintro ⟨q, hq, hslip⟩
      exact ((meantFold_eq_iff hne hmap (hpall q hq) (hfall q hq)).mp (hall q hq)).elim hs
        fun hno => hno hslip
  · intro hor
    refine ⟨hlen, fun q hq => (meantFold_eq_iff hne hmap (hpall q hq) (hfall q hq)).mpr ?_⟩
    exact hor.imp_right fun hno hslip => hno ⟨q, hq, hslip⟩

end Mixed

/-! ### The batches -/

/-- Resuming a mixed search: the first start does not matter. -/
theorem moreBatches_mixed {cf : PatrieConfig} {fuel : ℕ} {s f : Sens} (key : List UInt8)
    (hne : s ≠ cf.buildCaseAccentSens)
    (hmap : matchType s.code cf.buildCaseAccentSens.code = some (some f)) (bs : List ℕ)
    {ts : List (Trie ℕ)} {state : PatrieState} {page : TriePage}
    (hstate : Stacks cf.trie state ts) (hpage : page.Loaded cf.trie) (hfuel : stackSize ts ≤ fuel)
    (hsens : state.matchCaseAccSens = s.code) (hkey : state.key = some key) :
    moreBatches cf fuel bs state page =
      some (batches ((remaining ts).filter fun o => keyTypeMatch cf key o (some f)) bs) := by
  have hcode : s.code ≠ cf.buildCaseAccentSens.code := by
    revert hne
    cases s <;> cases cf.buildCaseAccentSens <;> decide
  induction bs generalizing ts state page with
  | nil => rfl
  | cons b bs ih =>
    have hmore : patrieGetMoreStarts cf fuel b state page =
        loadMatchingStarts cf key fuel b state page := by
      have hs : state.matchCaseAccSens ≠ cf.buildCaseAccentSens.code := by rwa [hsens]
      rw [patrieGetMoreStarts, if_neg hs, hkey]
      by_cases hstop : b = 0 ∨ patrieStateEmpty state = true
      · rw [if_pos hstop, loadMatchingStarts, loadStarts, if_pos hstop]
      · rw [if_neg hstop]
        rfl
    have haccept : ∀ o, keyMatchesIdxSearchType cf state.matchCaseAccSens
        cf.buildCaseAccentSens.code key o = some (keyTypeMatch cf key o (some f)) := by
      intro o
      rw [keyMatchesIdxSearchType, hsens, hmap]
      rfl
    obtain ⟨start, state', page', ts', hload, hw⟩ :=
      loadStarts_spec haccept b hstate hpage hfuel
    have htail := ih hw.onStack hw.loaded (le_trans hw.size_le hfuel)
      (hw.same.matchCaseAccSens.trans hsens) (hw.same.key.trans hkey)
    rw [moreBatches, hmore, loadMatchingStarts, hload, batches, hw.start_eq, ← hw.rest_eq]
    simp only [Option.bind_eq_bind, Option.bind_some, htail]

/-- What a mixed search returns, all batches together: the starts below the
subtrie of the key that pass the table, without the first start when it does not
match by the index. -/
def mixedStarts (cf : PatrieConfig) (f : Sens) (key : List UInt8) (t : Trie ℕ) : List ℕ :=
  let below := (keySubtrie cf key t).leaves
  if keyMatchesIdxType cf key (below.headD 0) then
    below.filter fun o => keyTypeMatch cf key o (some f)
  else below.tail.filter fun o => keyTypeMatch cf key o (some f)

/-- **The batches of a mixed search.**  When the first start does not match by
the index the first batch is empty, and the walk goes on in the next. -/
theorem searchBatches_mixed {cf : PatrieConfig} {s f : Sens} {t : Trie ℕ} {key : List UInt8}
    (hrep : Represents cf.trie t) (hne : s ≠ cf.buildCaseAccentSens)
    (hmap : matchType s.code cf.buildCaseAccentSens.code = some (some f)) {b : ℕ} (hb : 0 < b)
    (bs : List ℕ) (page : TriePage) {fuel : ℕ} (hfuel : t.size ≤ fuel) :
    searchBatches cf fuel key s.code b bs page =
      some (if keyMatchesIdxType cf key ((keySubtrie cf key t).leaves.headD 0) then
        batches (mixedStarts cf f key t) (b :: bs)
      else [] :: batches (mixedStarts cf f key t) bs) := by
  have hguard : ¬ (s.code = 0 ∧ cf.buildCaseAccentSens.code ≠ 0) := by
    revert hne hmap
    cases s <;> cases cf.buildCaseAccentSens <;> cases f <;> decide
  have hcode : s.code ≠ cf.buildCaseAccentSens.code := by
    revert hne
    cases s <;> cases cf.buildCaseAccentSens <;> decide
  obtain ⟨node, d, first, rest, state, page', ts, hsub, hnode, hleaves, hstate, hrem, hsize,
    hpage', hkey, hsens⟩ := patrieSearchSub_first key hrep hguard hb page hfuel
  rw [searchBatches, hsub, searchRest, mixedStarts, hleaves, List.headD_cons, List.tail_cons]
  simp only [List.head?_cons, Option.bind_eq_bind, Option.bind_some]
  cases hfirst : keyMatchesIdxType cf key first with
  | false =>
    have hmore := moreBatches_mixed key hne hmap bs (hstate.setFirstMatched 0) hpage'
      hsize hsens hkey
    rw [hrem] at hmore
    simp only [if_true, Option.bind_some, hmore, Bool.false_eq_true, if_false]
  | true =>
    -- the walk starts again at the root of the subtrie
    have hreset : Stacks cf.trie (patrieStateResetStack { state with firstMatched := 1 }) [] :=
      ⟨patrieStateResetStack_wellFormed (hstate.setFirstMatched 1).wellFormed, by
        rw [patrieStateResetStack_live]
        exact .nil⟩
    have hpush := hreset.push (t := keySubtrie cf key t) hnode
    have hall : remaining ([] ++ [keySubtrie cf key t]) = first :: rest := by
      rw [remaining_concat, remaining_nil, List.append_nil, hleaves]
    have hstack : stackSize ([] ++ [keySubtrie cf key t]) ≤ fuel := by
      have hle : (keySubtrie cf key t).size ≤ fuel := le_trans (Trie.size_blind_le _ _ _ _) hfuel
      rw [stackSize_concat]
      simpa [stackSize] using hle
    have hsame := sameSearch_push node (patrieStateResetStack { state with firstMatched := 1 })
    have haccept : ∀ o, keyMatchesIdxSearchType cf
        (patrieStatePush node
          (patrieStateResetStack { state with firstMatched := 1 })).matchCaseAccSens
        cf.buildCaseAccentSens.code key o = some (keyTypeMatch cf key o (some f)) := by
      intro o
      rw [keyMatchesIdxSearchType, hsame.matchCaseAccSens]
      show (matchType state.matchCaseAccSens _).map _ = _
      rw [hsens, hmap]
      rfl
    obtain ⟨start, state', page'', ts', hload, hw⟩ :=
      loadStarts_spec haccept b hpush hpage' hstack
    have hmore := moreBatches_mixed key hne hmap bs hw.onStack hw.loaded
      (le_trans hw.size_le hstack)
      ((hw.same.matchCaseAccSens.trans hsame.matchCaseAccSens).trans hsens)
      ((hw.same.key.trans hsame.key).trans hkey)
    have hstart := hw.start_eq
    have hrest := hw.rest_eq
    rw [hall] at hstart hrest
    rw [hrest] at hmore
    simp only [Bool.true_eq_false, if_false, hcode, if_true, loadMatchingStarts, hload,
      Option.bind_some, hmore, hstart, batches]

/-! ### When the answer is right -/

/-- The batches are the answer as far as their sizes reach. -/
def ExactMixed (cf : PatrieConfig) (s : Sens) (t : Trie ℕ) (key : List UInt8) (b : ℕ)
    (bs : List ℕ) (page : TriePage) (fuel : ℕ) : Prop :=
  ∃ rs, searchBatches cf fuel key s.code b bs page = some rs ∧
    rs.flatten = (t.leaves.filter fun o => MeantMatch cf.text s key o).take (b + bs.sum)

/-- The condition under which they are: when some index point begins with the
key under the comparison of the index, none of those to be returned has the
other case of a slipped letter; when none does, either there is one batch only
or no further start below the subtrie of the key passes the table. -/
def MixedCondition (cf : PatrieConfig) (s f : Sens) (t : Trie ℕ) (key : List UInt8) (b : ℕ)
    (bs : List ℕ) : Prop :=
  if t.leaves.any (keyMatchesIdxType cf key) then
    s = .cias ∨ ∀ o ∈ (t.leaves.filter fun o =>
      keyMatchesIdxType cf key o && keyTypeMatch cf key o (some f)).take (b + bs.sum),
        ¬ Slips cf.text key o
  else bs = [] ∨ ∀ o ∈ (keySubtrie cf key t).leaves.tail, keyTypeMatch cf key o (some f) = false

/-- The front of a list is the front of a filtered part of it when it passes. -/
theorem take_eq_take_filter_iff {α : Type*} {p : α → Bool} {l : List α} {n : ℕ} :
    l.take n = (l.filter p).take n ↔ ∀ x ∈ l.take n, p x = true := by
  constructor
  · intro h x hx
    rw [h] at hx
    exact (List.mem_filter.mp (List.mem_of_mem_take hx)).2
  · intro h
    have hsplit : l.filter p = l.take n ++ (l.drop n).filter p := by
      conv_lhs => rw [← List.take_append_drop n l, List.filter_append]
      rw [List.filter_eq_self.mpr h]
    rw [hsplit]
    by_cases hn : n ≤ l.length
    · rw [List.take_left' (List.length_take_of_le hn)]
    · rw [List.drop_eq_nil_of_le (by omega), List.filter_nil, List.append_nil, List.take_take,
        Nat.min_self]

/-- **A mixed search is exact under this condition and no other.** -/
theorem exactMixed_iff {cf : PatrieConfig} {points : List ℕ} {t : Trie ℕ}
    (ht : IsPaTrie cf.text cf.buildCaseAccentSens points t) (hrep : Represents cf.trie t)
    {s f : Sens} (hne : s ≠ cf.buildCaseAccentSens)
    (hmap : matchType s.code cf.buildCaseAccentSens.code = some (some f)) {key : List UInt8}
    (hkey : ∀ c ∈ key, c ≠ 0) {b : ℕ} {bs : List ℕ} (hb : ∀ n ∈ b :: bs, 0 < n) (page : TriePage)
    {fuel : ℕ} (hfuel : t.size ≤ fuel) :
    ExactMixed cf s t key b bs page fuel ↔ MixedCondition cf s f t key b bs := by
  have hpos : 0 < b := hb b List.mem_cons_self
  obtain ⟨first, rest, hleaves⟩ := List.exists_cons_of_ne_nil (keySubtrie cf key t).leaves_ne_nil
  have hall : ∀ o ∈ (keySubtrie cf key t).leaves,
      keyMatchesIdxType cf key o = keyMatchesIdxType cf key first := fun o ho =>
    keyMatchesIdxType_eq ht hkey ho (by rw [hleaves]; exact List.mem_cons_self)
  have hmeant : ∀ o, MeantMatch cf.text s key o → keyMatchesIdxType cf key o = true :=
    fun o ho => (matches_of_meantMatch hne hmap ho).1
  rw [ExactMixed, searchBatches_mixed hrep hne hmap hpos bs page hfuel, MixedCondition,
    mixedStarts, hleaves, List.headD_cons, List.tail_cons]
  simp only [Option.some.injEq, exists_eq_left']
  cases hfirst : keyMatchesIdxType cf key first with
  | true =>
    have hany : t.leaves.any (keyMatchesIdxType cf key) = true :=
      List.any_eq_true.mpr ⟨first, Trie.blind_subset (by
        show first ∈ (keySubtrie cf key t).leaves
        rw [hleaves]
        exact List.mem_cons_self), hfirst⟩
    -- all starts below match by the index, and no others do
    have hboth : (first :: rest).filter (fun o => keyTypeMatch cf key o (some f)) =
        t.leaves.filter fun o => keyMatchesIdxType cf key o && keyTypeMatch cf key o (some f) := by
      rw [← filter_keySubtrie ht hkey fun o ho => (Bool.and_eq_true_iff.mp ho).1, ← hleaves]
      refine List.filter_congr fun o ho => ?_
      rw [hall o ho, hfirst, Bool.true_and]
    have hsub : (t.leaves.filter fun o => MeantMatch cf.text s key o) =
        (t.leaves.filter fun o =>
          keyMatchesIdxType cf key o && keyTypeMatch cf key o (some f)).filter
            fun o => MeantMatch cf.text s key o := by
      rw [List.filter_filter]
      refine List.filter_congr fun o _ => ?_
      by_cases ho : MeantMatch cf.text s key o
      · obtain ⟨hp, hf⟩ := matches_of_meantMatch hne hmap ho
        simp [ho, hp, hf]
      · simp [ho]
    rw [if_pos hany, if_pos rfl, if_pos rfl, flatten_batches, List.sum_cons, hboth, hsub,
      take_eq_take_filter_iff]
    have hone : ∀ o ∈ (t.leaves.filter fun o =>
        keyMatchesIdxType cf key o && keyTypeMatch cf key o (some f)).take (b + bs.sum),
        decide (MeantMatch cf.text s key o) = true ↔ s = .cias ∨ ¬ Slips cf.text key o := by
      intro o ho
      have hpass := (List.mem_filter.mp (List.mem_of_mem_take ho)).2
      obtain ⟨hp, hf⟩ := Bool.and_eq_true_iff.mp hpass
      rw [decide_eq_true_iff]
      exact meantMatch_iff hne hmap hp hf
    constructor
    · intro h
      by_cases hs : s = .cias
      · exact Or.inl hs
      · exact Or.inr fun o ho => ((hone o ho).mp (h o ho)).resolve_left hs
    · intro h o ho
      exact (hone o ho).mpr (h.imp_right fun hno => hno o ho)
  | false =>
    -- no start matches by the index
    have hnone : ∀ o ∈ t.leaves, keyMatchesIdxType cf key o = false := by
      have hfilter := filter_keySubtrie ht hkey (p := keyMatchesIdxType cf key) fun o ho => ho
      have hnil : (keySubtrie cf key t).leaves.filter (keyMatchesIdxType cf key) = [] := by
        rw [List.filter_eq_nil_iff]
        intro o ho hmatch
        rw [hall o ho, hfirst] at hmatch
        contradiction
      rw [hnil] at hfilter
      intro o ho
      exact Bool.eq_false_iff.mpr (List.filter_eq_nil_iff.mp hfilter.symm o ho)
    have hany : t.leaves.any (keyMatchesIdxType cf key) = false := by
      rw [List.any_eq_false]
      intro o ho
      rw [hnone o ho]
      exact Bool.false_ne_true
    have hempty : (t.leaves.filter fun o => MeantMatch cf.text s key o) = [] := by
      rw [List.filter_eq_nil_iff]
      intro o ho hmatch
      have hp := hmeant o (of_decide_eq_true hmatch)
      rw [hnone o ho] at hp
      contradiction
    have hsum : bs.sum = 0 ↔ bs = [] := by
      cases bs with
      | nil => simp
      | cons n bs =>
        have hn := hb n (List.mem_cons_of_mem b List.mem_cons_self)
        rw [List.sum_cons]
        exact iff_of_false (by omega) (List.cons_ne_nil n bs)
    rw [hany, hempty]
    simp only [Bool.false_eq_true, if_false, List.flatten_cons, List.nil_append, flatten_batches,
      List.take_nil, List.take_eq_nil_iff, hsum, List.filter_eq_nil_iff, Bool.not_eq_true]

/-! ### A file with one start -/

/-- The text `h`, indexed without regard to case and accents. -/
def slipConfig : PatrieConfig where
  text := [104]
  buildCaseAccentSens := .ciai
  trie :=
    { pages := [[0, 0, 0, 2147483649]]
      levelsPerPage := 1 }

/-- Its only page. -/
def slipPage : TriePage where
  bCount := 0
  nTCounts := 0
  firstChildPage := 0
  tCount := []
  nodeBitOff := 96
  bits := [0, 0, 0, 2147483649]
  pageNum := 0

theorem slipConfig_isPaTrie : IsPaTrie slipConfig.text .ciai [0] (.leaf 0) where
  perm := List.Perm.refl _
  correct := trivial

theorem slipConfig_represents : Represents slipConfig.trie (.leaf 0) :=
  ⟨⟨1, 0, 1, 0, 96, 0, 1, 1, 0⟩, slipPage, by decide, rfl, rfl, rfl⟩

/-- A search that minds case finds `h` for `H`. -/
theorem slipConfig_not_exact : ¬ ExactMixed slipConfig .csai (.leaf 0) [72] 1 [] slipPage 1 := by
  rintro ⟨rs, hrs, hflat⟩
  have hcode : searchBatches slipConfig 1 [72] Sens.csai.code 1 [] slipPage = some [[0]] := by
    decide +kernel
  rw [hcode] at hrs
  rw [← Option.some.inj hrs] at hflat
  revert hflat
  decide +kernel

theorem exactMixed_iff_slipConfig :
    ExactMixed slipConfig .csas (.leaf 0) [104] 1 [1] slipPage 1 ↔
      MixedCondition slipConfig .csas .csas (.leaf 0) [104] 1 [1] :=
  exactMixed_iff slipConfig_isPaTrie slipConfig_represents (by decide) (by decide) (by simp)
    (by simp) slipPage (by decide)

end Archie
