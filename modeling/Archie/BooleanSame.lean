/-
The two ways to combine a list of starts with a word of a boolean query: looking the word up
in the string of each start (`archAnonftpOper`), and intersecting the list with what a search
for the word returns (`archAnonftpOperOn2Lists`).

* `formCaseSens` — the comparison that the form of a query asks for.
* `CompleteSearch` — a complete list of starts that `archSearchSub` has returned.
* `completeSearch_unindexed`, `completeSearch_indexed` — with room for all places of the word
  a call returns such a list.
* `booleanSame_iff` — exactly when the two ways come to the same.
-/
import Archie.BooleanStarts
import Archie.CText
import Archie.Indexed

namespace Archie

/-! ### The comparison of a query -/

/-- `CMP_CASE_SENS`. -/
def cmpCaseSens : ℕ := 2

/-- `CMP_ACCENT_SENS`. -/
def cmpAccentSens : ℕ := 1

/-- `case_sens`, as `parse_entries` sets it from the value of `FORM_CASE`. -/
def formCaseSens (val : List UInt8) : ℤ :=
  (((if val = bytes "Sensitive" then cmpCaseSens else 0) ||| cmpAccentSens : ℕ) : ℤ)

/-- The comparison of the search. -/
def formSens (val : List UInt8) : Sens := if val = bytes "Sensitive" then .csas else .cias

theorem formCaseSens_eq (val : List UInt8) : formCaseSens val = (formSens val).code := by
  rw [formCaseSens, formSens]
  split <;> rfl

/-- The filter is always by case. -/
theorem formCaseSens_ne_zero (val : List UInt8) : formCaseSens val ≠ 0 := by
  rw [formCaseSens_eq, formSens]
  split <;> decide

/-! ### The strings of starts -/

theorem nodup_starts (off : ℕ) (ss : List (List UInt8)) : ((stored off ss).map Prod.fst).Nodup := by
  rw [List.Nodup, List.pairwise_map]
  refine (gap_stored off ss).imp ?_
  intro e e' hgap
  omega

/-- A start has the string that is stored there. -/
theorem storedString_of_mem {ss : List (List UInt8)} {e : ℕ × List UInt8} (he : e ∈ stored 1 ss) :
    storedString ss e.1 = some e.2 := by
  have hsome : ((stored 1 ss).find? fun e' => e'.1 == e.1).isSome :=
    List.find?_isSome.mpr ⟨e, he, beq_self_eq_true e.1⟩
  obtain ⟨e', he'⟩ := Option.isSome_iff_exists.mp hsome
  have hfst : e'.1 = e.1 := by
    have hbeq := List.find?_some he'
    exact eq_of_beq hbeq
  have hsame : e' = e :=
    List.inj_on_of_nodup_map (nodup_starts 1 ss) (List.mem_of_find?_eq_some he') he hfst
  rw [storedString, he', hsame, Option.map_some]

/-! ### Complete lists -/

/-- `S` is a complete list of starts that `archSearchSub` has returned for a word: the strings
that match it, as far as strings can match it at all. -/
structure CompleteSearch (calls : Calls) (h : StridxHandle) (ss : List (List UInt8))
    (val word : List UInt8)
    (S : List ℕ) : Prop where
  returned : ∃ maxhits start h' hits start',
    archSearchSub calls h word (formCaseSens val) maxhits start = some (h', hits, start') ∧
      S = start'.take hits
  complete : keysepCh ∉ word → ∀ t,
    t ∈ S ↔ t ∈ (matching h.idxType .substr (formSens val).fold word ss).map Prod.fst

/-- A database without index. -/
theorem completeSearch_unindexed {calls : Calls} (hscan : ScansAll calls) {ss : List (List UInt8)}
    (hss : ∀ x ∈ ss, keysepCh ∉ x) {h : StridxHandle} {idxType : IndexType}
    (hdb : IsUnindexed idxType ss h)
    (val : List UInt8) {word : List UInt8} (hword : word ≠ []) (hsep : keysepCh ∉ word) {a : List ℕ}
    (ha : ss.length ≤ a.length) :
    CompleteSearch calls h ss val word
      ((matching h.idxType .substr (formSens val).fold word ss).map Prod.fst) := by
  obtain ⟨hui, hsplit, hcf, -⟩ := hdb
  have hsearch := searches_uitext hscan hss hword hsep hui hsplit hcf (s := formSens val)
    (show SrchType.substr = .exact ∨ SrchType.substr = .substr from .inr rfl) (a := a)
    (show ∀ b ∈ ([] : List (List ℕ)), b ≠ [] from fun b hb => absurd hb List.not_mem_nil)
  have hall := length_matching_le h.idxType .substr (formSens val).fold word ss
  rw [List.map_cons, List.map_nil, visibleBatches, visibleBatches,
    List.take_of_length_le (hall.trans ha),
    searches] at hsearch
  obtain ⟨r, hr, hrest⟩ := Option.bind_eq_some_iff.mp hsearch
  have hhits : hitsOf r = (matching h.idxType .substr (formSens val).fold word ss).map Prod.fst :=
    (List.cons.inj (Option.some.inj hrest)).1
  refine ⟨⟨a.length, a, r.1, r.2.1, r.2.2, ?_, hhits.symm⟩, fun _ t => Iff.rfl⟩
  rw [archSearchSub, formCaseSens_eq]
  exact hr

/-- What is in front of an array after equal starts have been removed. -/
theorem mem_take_removeDuplicateStarts {l : List ℕ} {t : ℕ} :
    t ∈ (removeDuplicateStarts l).1.take (removeDuplicateStarts l).2 ↔ t ∈ l := by
  rw [removeDuplicateStarts, take_removeDuplicates, mem_destutter_ne]
  exact (List.mergeSort_perm l _).mem_iff

theorem removeDuplicateStarts_le (l : List ℕ) :
    (removeDuplicateStarts l).2 ≤ (removeDuplicateStarts l).1.length ∧
      (removeDuplicateStarts l).2 ≤ l.length := by
  have hle := (List.destutter_sublist (· ≠ ·) (l.mergeSort (· ≤ ·))).length_le
  rw [List.length_mergeSort] at hle
  refine ⟨?_, hle⟩
  rw [removeDuplicateStarts, removeDuplicates, List.length_append]
  exact Nat.le_add_right _ _

/-- A call that has room for all places asks the index for more, and gets nothing. -/
theorem patrieSubSearch_all {calls : Calls} {cf : PatrieConfig} {m : ℤ} {key : List UInt8}
    {keys : SearchKeys}
    {l : List ℕ} {R : List ℕ → PatrieState → TriePage → Prop}
    (hserves : Serves calls cf m keys.patKey l R)
    (hfix : ∀ o ∈ l, patrieFixOneStart cf.text (o + keys.pAdj) = some (startOf cf.text keys.pAdj o))
    {h : StridxHandle} (hh : PatSearch cf key m h) (hkeys : makeSearchKeys h key = some keys)
    {b : ℕ}
    (hb : l.length < b) (start : List ℕ) :
    ∃ h', patrieSubSearch calls (getMoreMatches calls 1) cf h keys.patKey keys.pAdj b start =
      some (h', (removeDuplicateStarts (l.map (startOf cf.text keys.pAdj))).2,
        writeStarts start 0 (removeDuplicateStarts (l.map (startOf cf.text keys.pAdj))).1) := by
  obtain ⟨ps, page, hsub, hR⟩ := hserves.first h.page b (by omega)
  rw [List.take_of_length_le hb.le, ← hh.sens] at hsub
  rw [List.drop_eq_nil_of_le hb.le] at hR
  set u := removeDuplicateStarts (l.map (startOf cf.text keys.pAdj)) with hu
  have hle : u.2 ≤ l.length := by
    have hmap := (removeDuplicateStarts_le (l.map (startOf cf.text keys.pAdj))).2
    rwa [List.length_map] at hmap
  have hfixed : (l.map (· + keys.pAdj)).mapM (patrieFixOneStart cf.text) =
      some (l.map (startOf cf.text keys.pAdj)) := mapM_fix hfix
  obtain ⟨ps', page', hmore, -⟩ := moreStartsLoop_nil hserves keys.pAdj
    (h := { h with pState := some ps, page := page }) hR (show 0 < b - u.2 by omega) (b - u.2)
    (writeStarts start 0 u.1)
  refine ⟨{ h with pState := some ps', page := page' }, ?_⟩
  rw [patrieSubSearch]
  simp only [hsub, Option.bind_eq_bind, Option.bind_some, hfixed, ← hu]
  rw [(hh.step (some ps) page).getMoreMatches_eq hkeys rfl calls 0
    (show 0 < b - u.2 by omega), hmore]
  rfl

/-- An entirely indexed database, whose index hands out the places of the word. -/
theorem completeSearch_indexed {calls : Calls} {cf : PatrieConfig} {ss : List (List UInt8)}
    (hss : ∀ x ∈ ss, x ≠ [] ∧ keysepCh ∉ x) {h : StridxHandle} (hui : h.uiText = none)
    (hcf : h.cf = some cf)
    (htext : cf.text = stringsFile ss) (val : List UInt8) {word : List UInt8} (hword : word ≠ [])
    (hsep : keysepCh ∉ word) {l : List ℕ}
    (hl : SuffixMatches h.idxType cf.text (formSens val).fold word l)
    {R : List ℕ → PatrieState → TriePage → Prop}
    (hserves : Serves calls cf (formSens val).code word l R) {a : List ℕ}
    (ha : l.length < a.length) :
    ∃ S, CompleteSearch calls h ss val word S := by
  set m := (formSens val).code with hm
  set h₁ := saveSearchState word m .substr h with hh₁
  have hh : PatSearch cf word m h₁ := ⟨hui, hcf, rfl, .inr rfl, rfl⟩
  obtain ⟨keys, hkeys⟩ := hh.keys
  have hpat : keys.patKey = word ∧ keys.pAdj = 0 := by
    rw [makeSearchKeys, show h₁.srchType = .substr from rfl] at hkeys
    obtain rfl := Option.some.inj hkeys
    exact ⟨rfl, rfl⟩
  have hfound : Found (stringsFile ss) keys.pAdj l
      (matching h.idxType .substr (formSens val).fold word ss) := by
    refine makeSearchKeys_found (.inr rfl) hkeys hss hword hsep (formSens val) ?_
    rw [hpat.1, ← htext]
    exact hl
  rw [← htext] at hfound
  rw [← hpat.1] at hserves
  obtain ⟨h', hrun⟩ := patrieSubSearch_all hserves hfound.fix hh hkeys ha a
  set u := removeDuplicateStarts (l.map (startOf cf.text keys.pAdj)) with hu
  refine ⟨(writeStarts a 0 u.1).take u.2,
    ⟨⟨a.length, a, h', u.2, writeStarts a 0 u.1, ?_, rfl⟩, fun _ t => ?_⟩⟩
  · rw [archSearchSub, formCaseSens_eq, ← hm, ← hh₁, subSearch, if_neg hword]
    simp only [hkeys, searchUitext, hh.uiText, hh.cf, Option.bind_eq_bind, Option.bind_some,
      if_neg (Nat.ne_of_lt (Nat.zero_lt_of_lt ha)), Nat.sub_zero, List.drop_zero, hrun,
        Nat.zero_add,
      List.take_zero, List.nil_append]
  · rw [← hfound.mem_iff, ← mem_take_removeDuplicateStarts (l := l.map _), ← hu, writeStarts,
      List.take_zero, List.nil_append,
      List.take_append_of_le_length (removeDuplicateStarts_le _).1]

/-! ### The two ways -/

/-- Looking the word up in the strings of a list, and combining the list with the starts of a
search, come to the same sets. -/
def BooleanSame (ss : List (List UInt8)) (val word : List UInt8) (list starts : List ℕ) : Prop :=
  ∀ oper, oper = .andOp ∨ oper = .notOp →
    ∃ kept, archAnonftpOper (storedString ss) oper word (formCaseSens val) list = some kept ∧
      ∀ t, t ∈ kept ↔ t ∈ archAnonftpOperOn2Lists oper list starts

/-- What has to hold for the strings of a list. -/
structure SameForStrings (idxType : IndexType) (ss : List (List UInt8)) (fold : UInt8 → UInt8)
    (word : List UInt8) (list starts : List ℕ) : Prop where
  lineFeed : keysepCh ∈ word → ∀ t ∈ list, t ∉ starts
  otherCase : keysepCh ∉ word → ∀ e ∈ stored 1 ss, e.1 ∈ list →
    Matches idxType .substr fold word e.2 = true → word <:+: e.2
  inside : keysepCh ∉ word → idxType = .words → ∀ e ∈ stored 1 ss, e.1 ∈ list →
    word <:+: e.2 → word.map fold <+: e.2.map fold

/-- The two ways are the same if they are for each string. -/
theorem booleanSame_iff_forall {ss : List (List UInt8)} {val word : List UInt8}
    {list starts : List ℕ}
    (hlist : ∀ t ∈ list, ∃ x, (t, x) ∈ stored 1 ss) :
    BooleanSame ss val word list starts ↔
      ∀ e ∈ stored 1 ss, e.1 ∈ list → (word <:+: e.2 ↔ e.1 ∈ starts) := by
  have hstring : ∀ t ∈ list, (storedString ss t).isSome := by
    intro t ht
    obtain ⟨x, hx⟩ := hlist t ht
    rw [storedString_of_mem hx]
    rfl
  have hhas : ∀ e ∈ stored 1 ss,
      hasWord (storedString ss) (formCaseSens val) word e.1 = decide (word <:+: e.2) := by
    intro e he
    rw [hasWord, storedString_of_mem he, Option.any_some, wordIn, if_neg (formCaseSens_ne_zero val),
      strstr]
  constructor
  · intro hsame e he hmem
    obtain ⟨kept, hkept, hiff⟩ := hsame .andOp (.inl rfl)
    rw [archAnonftpOper_eq _ _ _ hstring] at hkept
    obtain rfl := Option.some.inj hkept
    have h := hiff e.1
    rw [List.mem_filter, mem_archAnonftpOperOn2Lists.1, hhas e he] at h
    simpa [BoolOps.keeps, hmem] using h
  · rintro hall oper hoper
    refine ⟨_, archAnonftpOper_eq oper word (formCaseSens val) hstring, ?_⟩
    intro t
    rw [List.mem_filter]
    by_cases ht : t ∈ list
    · obtain ⟨x, hx⟩ := hlist t ht
      have hiff := hall (t, x) hx ht
      rw [hhas (t, x) hx]
      rcases hoper with rfl | rfl
      · rw [mem_archAnonftpOperOn2Lists.1]
        simp [BoolOps.keeps, ht, hiff]
      · rw [mem_archAnonftpOperOn2Lists.2.2]
        simp [BoolOps.keeps, ht, hiff]
    · refine iff_of_false (fun h => ht h.1) fun h => ht ?_
      rcases hoper with rfl | rfl
      · exact (mem_archAnonftpOperOn2Lists.1.mp h).1
      · exact (mem_archAnonftpOperOn2Lists.2.2.mp h).1

/-- **The two ways come to the same** exactly if no string of the list has the word in another
case only, or, in a word database, inside it but not at its begin; a word with a line feed, which
no string has, must not be found at a start of the list. -/
theorem booleanSame_iff {calls : Calls} {h : StridxHandle} {ss : List (List UInt8)}
    (hss : ∀ x ∈ ss, keysepCh ∉ x) {val word : List UInt8} {list starts : List ℕ}
    (hlist : ∀ t ∈ list, ∃ x, (t, x) ∈ stored 1 ss)
    (hstarts : CompleteSearch calls h ss val word starts) :
    BooleanSame ss val word list starts ↔
      SameForStrings h.idxType ss (formSens val).fold word list starts := by
  rw [booleanSame_iff_forall hlist]
  by_cases hsep : keysepCh ∈ word
  · -- No string has the word.
    have hno : ∀ e ∈ stored 1 ss, ¬ word <:+: e.2 := fun e he hin =>
      hss e.2 (mem_of_mem_stored he) (hin.mem hsep)
    constructor
    · intro hall
      refine ⟨fun _ t ht hmem => ?_, fun h => absurd hsep h, fun h => absurd hsep h⟩
      obtain ⟨x, hx⟩ := hlist t ht
      exact hno _ hx ((hall (t, x) hx ht).mpr hmem)
    · intro hsame e he hmem
      exact iff_of_false (hno e he) (hsame.lineFeed hsep e.1 hmem)
  · have hfound : ∀ e ∈ stored 1 ss,
        (e.1 ∈ starts ↔ Matches h.idxType .substr (formSens val).fold word e.2 = true) := by
      intro e he
      rw [hstarts.complete hsep]
      constructor
      · intro hmem
        obtain ⟨e', he', hfst⟩ := List.mem_map.mp hmem
        obtain ⟨hstored, hmatch⟩ := List.mem_filter.mp he'
        rwa [List.inj_on_of_nodup_map (nodup_starts 1 ss) hstored he hfst] at hmatch
      · intro hmatch
        exact List.mem_map_of_mem (List.mem_filter.mpr ⟨he, hmatch⟩)
    constructor
    · intro hall
      refine ⟨fun h => absurd h hsep, fun _ e he hmem hmatch => ?_,
        fun _ hwords e he hmem hin => ?_⟩
      · exact (hall e he hmem).mpr ((hfound e he).mpr hmatch)
      · have hmatch := (hfound e he).mp ((hall e he hmem).mp hin)
        rw [hwords] at hmatch
        exact matches_words_iff.mp hmatch
    · intro hsame e he hmem
      rw [hfound e he]
      refine ⟨fun hin => ?_, hsame.otherCase hsep e he hmem⟩
      cases hidx : h.idxType with
      | chars => exact matches_chars_iff.mpr (hin.map _)
      | words =>
        exact matches_words_iff.mpr (hsame.inside hsep hidx e he hmem hin)

/-- Of `bA` and `a` only the second has the word `a` as it is written; both are found. -/
theorem completeSearch_sample :
    CompleteSearch scanCalls (unindexedHandle [[98, 65], [97]]) [[98, 65], [97]]
    (bytes "Insensitive") [97] [1, 4] := by
  have hdb : IsUnindexed .chars [[98, 65], [97]] (unindexedHandle [[98, 65], [97]]) :=
    ⟨rfl, rfl, rfl, rfl⟩
  have hword : ([97] : List UInt8) ≠ [] ∧ keysepCh ∉ ([97] : List UInt8) := by decide
  have hsearch := completeSearch_unindexed scanCalls_scansAll (by decide) hdb (bytes "Insensitive") hword.1 hword.2
    (a := [0, 0]) (by decide)
  have hlist : (matching .chars .substr (formSens (bytes "Insensitive")).fold [97] [[98, 65], [97]]).map Prod.fst =
      [1, 4] := by
    decide +kernel
  rwa [show (unindexedHandle [[98, 65], [97]]).idxType = .chars from rfl, hlist] at hsearch

theorem booleanSame_iff_sample : BooleanSame [[98, 65], [97]] (bytes "Insensitive") [97] [4] [1, 4] := by
  refine (booleanSame_iff (by decide) ?_ completeSearch_sample).mpr ?_
  · intro t ht
    rw [List.mem_singleton.mp ht]
    exact ⟨[97], by decide⟩
  · refine ⟨fun h => absurd h
      (by decide), fun _ e he hmem _ => ?_, fun _ h => IndexType.noConfusion h⟩
    have hcases : e = (1, [98, 65]) ∨ e = (4, [97]) := by simpa [stored] using he
    rcases hcases with rfl | rfl
    · exact absurd hmem (by decide)
    · exact List.infix_rfl

/-- For the other start the search without regard to case keeps it, and the filter does not. -/
theorem not_booleanSame :
    (¬ ∀ (calls : Calls) (h : StridxHandle) (ss : List (List UInt8)) (val word : List UInt8)
        (list starts : List ℕ), (∀ x ∈ ss, keysepCh ∉ x) → word ≠ [] → list.Nodup →
      (∀ t ∈ list, ∃ x, (t, x) ∈ stored 1 ss) → CompleteSearch calls h ss val word starts →
        BooleanSame ss val word list starts) ∧
    archAnonftpOper (storedString [[98, 65], [97]]) .andOp [97] (formCaseSens (bytes "Insensitive")) [1] = some [] ∧
    archAnonftpOperOn2Lists .andOp [1] [1, 4] = [1] := by
  refine ⟨fun h => ?_, by decide +kernel, by decide +kernel⟩
  have hlist : ∀ t ∈ [1], ∃ x, (t, x) ∈ stored 1 [[98, 65], [97]] := by
    intro t ht
    rw [List.mem_singleton.mp ht]
    exact ⟨[98, 65], by decide⟩
  have hsame := h scanCalls (unindexedHandle [[98, 65], [97]]) [[98, 65], [97]] (bytes "Insensitive") [97] [1] [1, 4]
    (by decide) (by decide) (by decide) hlist completeSearch_sample
  have hiff := (booleanSame_iff_forall hlist).mp hsame (1, [98, 65]) (by decide) (by decide)
  exact absurd (hiff.mpr (by decide)) (by decide)

end Archie
