/-
A boolean query on one web site (`archWebBooleanQueryMore` in
`archsearch/boolean-search.c`).

The loop takes the and-words and the not-words of a group in step, intersects the
documents of the former and joins those of the latter, and what is left after it is
taken away.

* `wordLoop_spec` — the documents that every and-word has, and those that a
  not-word has.
* `siteAndTuples_iff` — they are the documents that match, exactly if the site has
  no index, or no record that stands for a directory holds, as its record number,
  a start of every and-word and of no not-word.
-/
import Mathlib.Tactic.IntervalCases
import Archie.SiteTuples

namespace Archie

section

variable (reallocNull : Bool) (file : List SiteEntry) (index? : Option (List SiteIndex)) (site : ℤ)

/-- A round of the loop for the and-word `k`: the tuples and the next `k`, or none
where the query ends.  When a word has no tuple, no more and-words are looked at. -/
def andStep (lnum k : ℕ) (andTuples andstartsTuples : List SiteTuple) :
    Option (List SiteTuple × ℕ) :=
  if k < lnum then
    if andstartsTuples = [] then some ([], lnum)
    else if k = 0 then some (andstartsTuples, k)
    else (archTupleOper reallocNull andTuples andstartsTuples .andOp).map fun res => (res, k)
  else some (andTuples, k)

/-- A round of the loop for the not-word `l`. -/
def notStep (l : ℕ) (notTuples notstartsTuples : List SiteTuple) : Option (List SiteTuple) :=
  if notstartsTuples = [] then some notTuples
  else if l = 0 ∨ notTuples = [] then some notstartsTuples
  else archTupleOper reallocNull notTuples notstartsTuples .orOp

/-- The loop over the and-words (`k`) and not-words (`l`) of a group. -/
def wordLoop (andList notList : List (List ℤ)) :
    ℕ → ℕ → ℕ → List SiteTuple → List SiteTuple → Option (List SiteTuple × List SiteTuple)
  | 0, _, _, andTuples, notTuples => some (andTuples, notTuples)
  | fuel + 1, k, l, andTuples, notTuples =>
    if andList.length ≤ k ∧ notList.length ≤ l then some (andTuples, notTuples)
    else do
      let found := findParentsForAllStarts reallocNull file index? site (andList.getD k [])
        (notList.getD l [])
      let (andTuples, k) ← andStep reallocNull andList.length k andTuples found.1
      let notTuples ← notStep reallocNull l notTuples found.2
      wordLoop andList notList fuel (k + 1) (l + 1) andTuples notTuples

/-- The `and_tuples` that are left for the site, after the not-words are taken
away.  None are left where the query ends early. -/
def siteAndTuples (andList notList : List (List ℤ)) : List SiteTuple :=
  match wordLoop reallocNull file index? site andList notList
      (max andList.length notList.length + 1) 0 0 [] [] with
  | none => []
  | some (andTuples, notTuples) =>
    if andTuples = [] then []
    else if notTuples = [] then andTuples
    else (archTupleOper reallocNull andTuples notTuples .notOp).getD []

end

/-! ### The loop -/

/-- The documents of the tuples. -/
def filesOf (l : List SiteTuple) : List ℤ := l.map SiteTuple.file

section

variable {reallocNull : Bool} {file : List SiteEntry} {index? : Option (List SiteIndex)} {site : ℤ}
variable {andList notList : List (List ℤ)}

/-- Where the loop stands with the and-words; `tuples` are those of a word.  Either
all words up to `k` had tuples, or one had none and nothing is left. -/
def AndInv (tuples : List ℤ → List SiteTuple) (andList : List (List ℤ)) (k l : ℕ)
    (andTuples : List SiteTuple) : Prop :=
  (k = l ∧ (0 < l → ∀ f, f ∈ filesOf andTuples ↔ ∀ w ∈ andList.take k, f ∈ filesOf (tuples w))) ∨
    (andList.length ≤ k ∧ andTuples = [] ∧ ∃ w ∈ andList, tuples w = [])

/-- Where the loop stands with the not-words. -/
def NotInv (tuples : List ℤ → List SiteTuple) (notList : List (List ℤ)) (l : ℕ)
    (notTuples : List SiteTuple) : Prop :=
  ∀ f, f ∈ filesOf notTuples ↔ ∃ w ∈ notList.take l, f ∈ filesOf (tuples w)

theorem mem_filesOf_andOp {old new : List SiteTuple} {f : ℤ} :
    f ∈ filesOf (tupleOper old new .andOp) ↔ f ∈ filesOf old ∧ f ∈ filesOf new := by
  rw [filesOf, mem_tupleOper_files (by simp)]
  simp [BoolOps.keeps, filesOf]

theorem mem_filesOf_notOp {old new : List SiteTuple} {f : ℤ} :
    f ∈ filesOf (tupleOper old new .notOp) ↔ f ∈ filesOf old ∧ f ∉ filesOf new := by
  rw [filesOf, mem_tupleOper_files (by simp)]
  simp [BoolOps.keeps, filesOf]

/-- The words up to the next one. -/
theorem forall_mem_take_succ {α : Type} {l : List α} {k : ℕ} (hk : k < l.length) {p : α → Prop} :
    (∀ w ∈ l.take (k + 1), p w) ↔ (∀ w ∈ l.take k, p w) ∧ p l[k] := by
  rw [List.take_succ_eq_append_getElem hk]
  simp only [List.forall_mem_append, List.forall_mem_singleton]

theorem exists_mem_take_succ {α : Type} {l : List α} {k : ℕ} (hk : k < l.length) {p : α → Prop} :
    (∃ w ∈ l.take (k + 1), p w) ↔ (∃ w ∈ l.take k, p w) ∨ p l[k] := by
  rw [List.take_succ_eq_append_getElem hk]
  simp only [List.mem_append, List.mem_singleton, or_and_right, exists_or, exists_eq_left]

theorem AndInv.done {tuples : List ℤ → List SiteTuple} {k l : ℕ} {andTuples : List SiteTuple}
    (h : AndInv tuples andList k l andTuples) (hpos : 0 < andList.length)
    (hk : andList.length ≤ k) :
    ∀ f, f ∈ filesOf andTuples ↔ ∀ w ∈ andList, f ∈ filesOf (tuples w) := by
  intro f
  rcases h with ⟨rfl, hfiles⟩ | ⟨-, rfl, w, hw, hempty⟩
  · rw [hfiles (by omega), List.take_of_length_le hk]
  · refine ⟨fun h => absurd h List.not_mem_nil, fun h => ?_⟩
    have hin := h w hw
    rw [hempty] at hin
    exact hin

theorem AndInv.length_le {tuples : List ℤ → List SiteTuple} {k l : ℕ} {andTuples : List SiteTuple}
    (h : AndInv tuples andList k l andTuples) (hl : andList.length ≤ l) : andList.length ≤ k := by
  rcases h with ⟨rfl, -⟩ | ⟨hk, -⟩
  · exact hl
  · exact hk

theorem NotInv.done {tuples : List ℤ → List SiteTuple} {l : ℕ} {notTuples : List SiteTuple}
    (h : NotInv tuples notList l notTuples) (hl : notList.length ≤ l) :
    ∀ f, f ∈ filesOf notTuples ↔ ∃ w ∈ notList, f ∈ filesOf (tuples w) := by
  intro f
  rw [h, List.take_of_length_le hl]

/-- A not-word adds its documents. -/
theorem notStep_spec {tuples : List ℤ → List SiteTuple}
    (htuples : ∀ w ∈ notList, TupleList site (tuples w))
    (hnil : tuples [] = []) {l : ℕ} {notTuples : List SiteTuple} (hlist : TupleList site notTuples)
    (hnots : NotInv tuples notList l notTuples) :
    ∃ notTuples', notStep reallocNull l notTuples (tuples (notList.getD l [])) = some notTuples' ∧
      TupleList site notTuples' ∧ NotInv tuples notList (l + 1) notTuples' := by
  rcases lt_or_ge l notList.length with hl | hl
  · have hget : notList.getD l [] = notList[l] := by
      rw [List.getD_eq_getElem?_getD, List.getElem?_eq_getElem hl, Option.getD_some]
    rw [hget]
    have hword := htuples _ (List.getElem_mem hl)
    rw [notStep]
    split
    next hempty =>
      refine ⟨notTuples, rfl, hlist, fun f => ?_⟩
      rw [hnots, exists_mem_take_succ hl, hempty]
      simp [filesOf]
    next hne =>
      split
      next hfirst =>
        refine ⟨_, rfl, hword, fun f => ?_⟩
        rw [exists_mem_take_succ hl, ← hnots]
        rcases hfirst with rfl | hempty
        · -- before the first word there is no document
          have hnone : f ∉ filesOf notTuples := by
            rw [hnots]
            simp
          simp [hnone]
        · simp [hempty, filesOf]
      next hfirst =>
        obtain ⟨hor, hmem⟩ := tupleOper_or hlist hword
        have hneor : tupleOper notTuples (tuples notList[l]) .orOp ≠ [] := by
          obtain ⟨t, ht⟩ := List.exists_mem_of_ne_nil _ hne
          exact List.ne_nil_of_mem ((hmem t).mpr (Or.inr ht))
        refine ⟨_, archTupleOper_eq_some hneor, hor, fun f => ?_⟩
        rw [exists_mem_take_succ hl, ← hnots]
        simp only [filesOf, List.mem_map, hmem, or_and_right, exists_or]
  · have hget : notList.getD l [] = [] := by
      rw [List.getD_eq_getElem?_getD, List.getElem?_eq_none hl, Option.getD_none]
    refine ⟨notTuples, ?_, hlist, fun f => ?_⟩
    · rw [hget, hnil, notStep, if_pos rfl]
    · rw [hnots, List.take_of_length_le hl, List.take_of_length_le (by omega)]

/-- An and-word keeps the documents that it has too.  Where the query ends, there is
no document that all and-words have. -/
theorem andStep_spec {tuples : List ℤ → List SiteTuple}
    (htuples : ∀ w ∈ andList, TupleList site (tuples w))
    (hpos : 0 < andList.length) {k l : ℕ} {andTuples : List SiteTuple}
    (hlist : TupleList site andTuples) (hands : AndInv tuples andList k l andTuples) :
    (andStep reallocNull andList.length k andTuples (tuples (andList.getD k [])) = none ∧
      ∀ f, ∃ w ∈ andList, f ∉ filesOf (tuples w)) ∨
    ∃ andTuples' k', andStep reallocNull andList.length k andTuples (tuples (andList.getD k [])) =
        some (andTuples', k') ∧ TupleList site andTuples' ∧
      AndInv tuples andList (k' + 1) (l + 1) andTuples' := by
  rcases lt_or_ge k andList.length with hk | hk
  · have hget : andList.getD k [] = andList[k] := by
      rw [List.getD_eq_getElem?_getD, List.getElem?_eq_getElem hk, Option.getD_some]
    rw [hget]
    have hmem := List.getElem_mem hk
    obtain ⟨rfl, hfiles⟩ := hands.resolve_right fun h => by omega
    rw [andStep, if_pos hk]
    split
    next hempty =>
      exact Or.inr ⟨[], _, rfl, TupleList.nil site, Or.inr ⟨by omega, rfl, _, hmem, hempty⟩⟩
    next hne =>
      split
      next hzero =>
        subst hzero
        refine Or.inr ⟨_, _, rfl, htuples _ hmem, Or.inl ⟨rfl, fun _ f => ?_⟩⟩
        rw [forall_mem_take_succ hk]
        simp
      next hzero =>
        have hboth : ∀ f, f ∈ filesOf (tupleOper andTuples (tuples andList[k]) .andOp) ↔
            ∀ w ∈ andList.take (k + 1), f ∈ filesOf (tuples w) := by
          intro f
          rw [mem_filesOf_andOp, forall_mem_take_succ hk, hfiles (by omega)]
        rw [archTupleOper]
        split
        next hnull =>
          -- the result is empty, and giving back its room counts as an error
          refine Or.inl ⟨rfl, fun f => ?_⟩
          by_contra hall
          push Not at hall
          have hin := (hboth f).mpr fun w hw => hall w (List.mem_of_mem_take hw)
          rw [hnull.1] at hin
          exact absurd hin List.not_mem_nil
        next hnull =>
          exact Or.inr ⟨_, _, rfl, hlist.tupleOper (by simp), Or.inl ⟨rfl, fun _ => hboth⟩⟩
  · refine Or.inr ⟨andTuples, k, ?_, hlist, ?_⟩
    · rw [andStep, if_neg (by omega)]
    · rcases hands with ⟨rfl, hfiles⟩ | ⟨-, hempty, hword⟩
      · refine Or.inl ⟨rfl, fun _ f => ?_⟩
        rw [hfiles (by omega), List.take_of_length_le hk, List.take_of_length_le (by omega)]
      · exact Or.inr ⟨by omega, hempty, hword⟩

/-- **The loop.**  Either the query ends, and there is no document that all and-words
have, or what is left are the documents that all and-words have and those that a
not-word has. -/
theorem wordLoop_spec
    (hand : ∀ w ∈ andList, TupleList site (wordTuples reallocNull file index? site w))
    (hnot : ∀ w ∈ notList, TupleList site (wordTuples reallocNull file index? site w))
    (hnil : wordTuples reallocNull file index? site [] = []) (hpos : 0 < andList.length)
    {fuel k l : ℕ} (hfuel : max andList.length notList.length < l + fuel)
    {andTuples notTuples : List SiteTuple} (hlistand : TupleList site andTuples)
    (hlistnot : TupleList site notTuples)
    (hands : AndInv (wordTuples reallocNull file index? site) andList k l andTuples)
    (hnots : NotInv (wordTuples reallocNull file index? site) notList l notTuples) :
    (wordLoop reallocNull file index? site andList notList fuel k l andTuples notTuples = none ∧
      ∀ f, ∃ w ∈ andList, f ∉ filesOf (wordTuples reallocNull file index? site w)) ∨
    ∃ andTuples' notTuples',
      wordLoop reallocNull file index? site andList notList fuel k l andTuples notTuples =
        some (andTuples', notTuples') ∧
      (∀ f, f ∈ filesOf andTuples' ↔
        ∀ w ∈ andList, f ∈ filesOf (wordTuples reallocNull file index? site w)) ∧
      ∀ f, f ∈ filesOf notTuples' ↔
        ∃ w ∈ notList, f ∈ filesOf (wordTuples reallocNull file index? site w) := by
  induction fuel generalizing k l andTuples notTuples with
  | zero =>
    exact Or.inr ⟨_, _, rfl, hands.done hpos (hands.length_le (by omega)), hnots.done (by omega)⟩
  | succ fuel ih =>
    rw [wordLoop]
    by_cases hend : andList.length ≤ k ∧ notList.length ≤ l
    · rw [if_pos hend]
      exact Or.inr ⟨_, _, rfl, hands.done hpos hend.1, hnots.done hend.2⟩
    · rw [if_neg hend]
      dsimp only [findParentsForAllStarts]
      rcases @andStep_spec reallocNull site andList _ hand hpos k l _ hlistand hands with
        ⟨hnone, hmissing⟩ | ⟨and', k', hand', hlistand', hands'⟩
      · rw [hnone]
        exact Or.inl ⟨rfl, hmissing⟩
      · obtain ⟨not', hnot', hlistnot', hnots'⟩ :=
          @notStep_spec reallocNull site notList _ hnot hnil l _ hlistnot hnots
        rw [hand', Option.bind_eq_bind, Option.bind_some]
        dsimp only
        rw [hnot', Option.bind_eq_bind, Option.bind_some]
        exact ih (by omega) hlistand' hlistnot' hands' hnots'

/-- What is left for the site: the documents that all and-words and no not-word have. -/
theorem mem_siteAndTuples
    (hand : ∀ w ∈ andList, TupleList site (wordTuples reallocNull file index? site w))
    (hnot : ∀ w ∈ notList, TupleList site (wordTuples reallocNull file index? site w))
    (hnil : wordTuples reallocNull file index? site [] = []) (hpos : 0 < andList.length) (f : ℤ) :
    f ∈ filesOf (siteAndTuples reallocNull file index? site andList notList) ↔
      (∀ w ∈ andList, f ∈ filesOf (wordTuples reallocNull file index? site w)) ∧
        ∀ w ∈ notList, f ∉ filesOf (wordTuples reallocNull file index? site w) := by
  rw [siteAndTuples]
  have hstart : AndInv (wordTuples reallocNull file index? site) andList 0 0 [] :=
    Or.inl ⟨rfl, fun h => absurd h (lt_irrefl 0)⟩
  have hstartnot : NotInv (wordTuples reallocNull file index? site) notList 0 [] := by
    intro f
    simp [filesOf]
  rcases wordLoop_spec hand hnot hnil hpos
    (show max andList.length notList.length < 0 + (max andList.length notList.length + 1) by omega)
    (TupleList.nil site) (TupleList.nil site) hstart hstartnot with
    ⟨hnone, hmissing⟩ | ⟨andTuples, notTuples, hsome, hands, hnots⟩
  · rw [hnone]
    refine ⟨fun h => absurd h List.not_mem_nil, fun h => ?_⟩
    obtain ⟨w, hw, hf⟩ := hmissing f
    exact absurd (h.1 w hw) hf
  · have hboth : (∀ w ∈ andList, f ∈ filesOf (wordTuples reallocNull file index? site w)) ∧
        (∀ w ∈ notList, f ∉ filesOf (wordTuples reallocNull file index? site w)) ↔
        f ∈ filesOf andTuples ∧ f ∉ filesOf notTuples := by
      rw [hands, hnots]
      push Not
      rfl
    rw [hsome, hboth]
    dsimp only
    split
    next hempty => simp [hempty, filesOf]
    next =>
      split
      next hempty => simp [hempty, filesOf]
      next => rw [archTupleOper_getD, mem_filesOf_notOp]

/-! ### The documents of a word -/

/-- A record of a document stands for no directory. -/
theorem IsSiteFile.not_parent (h : IsSiteFile file) {d r : ℕ} (hb : Belongs file d r)
    {e : SiteEntry}
    (he : file[r]? = some e) : cseIsParent e.flags = false := by
  obtain ⟨⟨e₀, he₀, hparent, -⟩, hle, hbetween⟩ := hb
  rcases hle.lt_or_eq with hlt | rfl
  · obtain ⟨e', he', hkey⟩ := hbetween r hlt le_rfl
    rw [he] at he'
    obtain rfl := Option.some.inj he'
    by_contra hc
    have hnokey := h.kind e (List.mem_of_getElem? he) (by simpa using hc)
    rw [hkey] at hnokey
    exact absurd hnokey (by simp)
  · rw [he] at he₀
    rw [Option.some.inj he₀]
    exact hparent

/-- The documents that a list of starts leads to; with an index, the records that
stand for a directory and hold a start as well. -/
theorem mem_filesOf_wordTuples (h : IsSiteFile file)
    (hindex : ∀ index ∈ index?, IsSiteIndex file index)
    {starts : List ℤ} (hstarts : ∀ s ∈ starts, 0 ≤ s) (f : ℤ) :
    f ∈ filesOf (wordTuples reallocNull file index? site starts) ↔
      (∃ d r e, f = (d : ℕ) ∧ Belongs file d r ∧ file[r]? = some e ∧ e.strt1 ∈ starts) ∨
        index? ≠ none ∧ ∃ p e, f = (p : ℕ) ∧ file[p]? = some e ∧ cseIsParent e.flags = true ∧
          e.strt1 ∈ starts := by
  rw [wordTuples_eq h hindex reallocNull hstarts, filesOf, List.mem_map]
  simp only [(findParentsForStarts_spec h hindex reallocNull hstarts).2]
  constructor
  · rintro ⟨t, ⟨r, e, he, hnot, hin, rfl⟩, rfl⟩
    cases hparent : cseIsParent e.flags with
    | false =>
      obtain ⟨d, hb⟩ := h.exists_belongs he hparent
      exact Or.inl ⟨d, r, e, fileFrom_of_belongs hb, hb, he, hin⟩
    | true =>
      refine Or.inr ⟨fun hnone => ?_, r, e, ?_, he, hparent, hin⟩
      · rw [hnot hnone] at hparent
        exact absurd hparent (by simp)
      · exact fileFrom_of_not_key he (h.kind e (List.mem_of_getElem? he) hparent)
  · rintro (⟨d, r, e, rfl, hb, he, hin⟩ | ⟨hsome, p, e, rfl, he, hparent, hin⟩)
    · refine ⟨_, ⟨r, e, he, fun _ => h.not_parent hb he, hin, rfl⟩, ?_⟩
      exact fileFrom_of_belongs hb
    · refine ⟨_, ⟨p, e, he, fun hnone => absurd hnone hsome, hin, rfl⟩, ?_⟩
      exact fileFrom_of_not_key he (h.kind e (List.mem_of_getElem? he) hparent)

end

/-! ### The query -/

section

variable (getString : ℕ → Option (List UInt8)) (matchesWord : List UInt8 → List UInt8 → Prop)

/-- The start of a string that the word matches. -/
def IsHit (word : List UInt8) (start : ℤ) : Prop :=
  ∃ off : ℕ, start = off ∧ ∃ str, getString off = some str ∧ matchesWord word str

/-- The complete list of the starts of a word. -/
def CompleteStarts (word : List UInt8) (starts : List ℤ) : Prop :=
  ∀ s, s ∈ starts ↔ IsHit getString matchesWord word s

/-- The word matches the name of the document or one of its keywords. -/
def DocMatches (file : List SiteEntry) (word : List UInt8) (d : ℕ) : Prop :=
  ∃ r e, Belongs file d r ∧ file[r]? = some e ∧ IsHit getString matchesWord word e.strt1

variable {getString matchesWord}

theorem CompleteStarts.nonneg {word : List UInt8} {starts : List ℤ}
    (h : CompleteStarts getString matchesWord word starts) : ∀ s ∈ starts, 0 ≤ s := by
  intro s hs
  obtain ⟨off, rfl, -⟩ := (h s).mp hs
  exact Int.natCast_nonneg off

/-- **A group of a boolean query on one site.**  The documents left are those that
every and-word and no not-word matches, exactly if the site has no index or no record
that stands for a directory holds, read as a start, a hit of every and-word and of no
not-word. -/
theorem siteAndTuples_iff {file : List SiteEntry} (h : IsSiteFile file)
    {index? : Option (List SiteIndex)} (hindex : ∀ index ∈ index?, IsSiteIndex file index)
    {ands nots : List (List UInt8)} (hands : ands ≠ []) {starts : List UInt8 → List ℤ}
    (hstarts : ∀ w ∈ ands ++ nots, CompleteStarts getString matchesWord w (starts w))
    (reallocNull : Bool) (site : ℤ) :
    (∀ f : ℤ, f ∈ filesOf (siteAndTuples reallocNull file index? site (ands.map starts)
        (nots.map starts)) ↔
      ∃ d : ℕ, f = d ∧ IsDocument file d ∧ (∀ w ∈ ands, DocMatches getString matchesWord file w d) ∧
        ∀ w ∈ nots, ¬ DocMatches getString matchesWord file w d) ↔
    (index? = none ∨ ∀ e ∈ file, cseIsParent e.flags = true →
      ¬ ((∀ w ∈ ands, IsHit getString matchesWord w e.strt1) ∧
        ∀ w ∈ nots, ¬ IsHit getString matchesWord w e.strt1)) := by
  have hand : ∀ w ∈ ands, CompleteStarts getString matchesWord w (starts w) := fun w hw =>
    hstarts w (List.mem_append_left _ hw)
  have hnot : ∀ w ∈ nots, CompleteStarts getString matchesWord w (starts w) := fun w hw =>
    hstarts w (List.mem_append_right _ hw)
  have hlist : ∀ w, CompleteStarts getString matchesWord w (starts w) →
      TupleList site (wordTuples reallocNull file index? site (starts w)) := by
    intro w hw
    rw [wordTuples_eq h hindex reallocNull hw.nonneg]
    exact (findParentsForStarts_spec h hindex reallocNull hw.nonneg).1
  have hnil : wordTuples reallocNull file index? site [] = [] := by
    rw [wordTuples_eq h hindex reallocNull (by simp)]
    refine List.eq_nil_iff_forall_not_mem.mpr fun t ht => ?_
    obtain ⟨r, e, -, -, hin, -⟩ :=
      ((findParentsForStarts_spec h hindex reallocNull (by simp)).2 t).mp ht
    exact absurd hin List.not_mem_nil
  have hfiles : ∀ f : ℤ, f ∈ filesOf (siteAndTuples reallocNull file index? site (ands.map starts)
        (nots.map starts)) ↔
      (∀ w ∈ ands, f ∈ filesOf (wordTuples reallocNull file index? site (starts w))) ∧
        ∀ w ∈ nots, f ∉ filesOf (wordTuples reallocNull file index? site (starts w)) := by
    intro f
    rw [mem_siteAndTuples (by simpa using fun w hw => hlist w (hand w hw))
      (by simpa using fun w hw => hlist w (hnot w hw)) hnil
      (by simpa using List.length_pos_iff.mpr hands)]
    simp
  -- a document has a tuple for a word exactly if the word matches it
  have hdoc : ∀ (d : ℕ) (w : List UInt8), IsDocument file d →
      CompleteStarts getString matchesWord w (starts w) →
      ((d : ℤ) ∈ filesOf (wordTuples reallocNull file index? site (starts w)) ↔
        DocMatches getString matchesWord file w d) := by
    intro d w hd hw
    rw [mem_filesOf_wordTuples h hindex hw.nonneg]
    constructor
    · rintro (⟨d', r, e, heq, hb, he, hin⟩ | ⟨-, p, e, heq, he, hparent, -⟩)
      · obtain rfl : d = d' := by exact_mod_cast heq
        exact ⟨r, e, hb, he, (hw _).mp hin⟩
      · obtain rfl : d = p := by exact_mod_cast heq
        obtain ⟨e', he', hnot, -⟩ := hd
        rw [he] at he'
        rw [← Option.some.inj he', hparent] at hnot
        exact absurd hnot (by simp)
    · rintro ⟨r, e, hb, he, hhit⟩
      exact Or.inl ⟨d, r, e, rfl, hb, he, (hw _).mpr hhit⟩
  -- so has such a record, in the index, exactly if it holds a start of the word
  have hdir : ∀ (p : ℕ) (e : SiteEntry) (w : List UInt8), file[p]? = some e →
      cseIsParent e.flags = true → CompleteStarts getString matchesWord w (starts w) →
      ((p : ℤ) ∈ filesOf (wordTuples reallocNull file index? site (starts w)) ↔
        index? ≠ none ∧ IsHit getString matchesWord w e.strt1) := by
    intro p e w he hparent hw
    rw [mem_filesOf_wordTuples h hindex hw.nonneg]
    constructor
    · rintro (⟨d, r, e', heq, hb, -⟩ | ⟨hsome, p', e', heq, he', -, hin⟩)
      · obtain rfl : p = d := by exact_mod_cast heq
        obtain ⟨e', he', hnot, -⟩ := hb.1
        rw [he] at he'
        rw [← Option.some.inj he', hparent] at hnot
        exact absurd hnot (by simp)
      · obtain rfl : p = p' := by exact_mod_cast heq
        rw [he] at he'
        rw [← Option.some.inj he'] at hin
        exact ⟨hsome, (hw _).mp hin⟩
    · rintro ⟨hsome, hhit⟩
      exact Or.inr ⟨hsome, p, e, rfl, he, hparent, (hw _).mpr hhit⟩
  constructor
  · intro hall
    rw [or_iff_not_imp_left]
    rintro hsome e he hparent ⟨hhit, hno⟩
    obtain ⟨p, hp⟩ := List.mem_iff_getElem?.mp he
    have hin := (hfiles p).mpr ⟨fun w hw => (hdir p e w hp hparent (hand w hw)).mpr
      ⟨hsome, hhit w hw⟩, fun w hw hc => hno w hw ((hdir p e w hp hparent (hnot w hw)).mp hc).2⟩
    obtain ⟨d, heq, ⟨e', he', hnotparent, -⟩, -⟩ := (hall p).mp hin
    obtain rfl : p = d := by exact_mod_cast heq
    rw [hp] at he'
    rw [← Option.some.inj he', hparent] at hnotparent
    exact absurd hnotparent (by simp)
  · intro hnone f
    rw [hfiles]
    constructor
    · rintro ⟨hin, hout⟩
      obtain ⟨w₀, hw₀⟩ := List.exists_mem_of_ne_nil _ hands
      rcases (mem_filesOf_wordTuples h hindex (hand w₀ hw₀).nonneg f).mp (hin w₀ hw₀) with
        ⟨d, r, e, rfl, hb, -⟩ | ⟨hsome, p, e, rfl, he, hparent, -⟩
      · exact ⟨d, rfl, hb.1, fun w hw => (hdoc d w hb.1 (hand w hw)).mp (hin w hw),
          fun w hw hc => hout w hw ((hdoc d w hb.1 (hnot w hw)).mpr hc)⟩
      · refine absurd ⟨fun w hw => ?_, fun w hw hc => ?_⟩
          (hnone.resolve_left hsome e (List.mem_of_getElem? he) hparent)
        · exact ((hdir p e w he hparent (hand w hw)).mp (hin w hw)).2
        · exact hout w hw ((hdir p e w he hparent (hnot w hw)).mpr ⟨hsome, hc⟩)
    · rintro ⟨d, rfl, hd, hin, hout⟩
      exact ⟨fun w hw => (hdoc d w hd (hand w hw)).mpr (hin w hw),
        fun w hw hc => hout w hw ((hdoc d w hd (hnot w hw)).mp hc)⟩

end

/-! ### A site whose sub-path holds the number of a string -/

/-- The strings `ab`, `k`, `host`, `80`, `docs` and `a` of a strings file. -/
def webString (off : ℕ) : Option (List UInt8) :=
  match off with
  | 1 => some [97, 98]
  | 4 => some [107]
  | 6 => some [104, 111, 115, 116]
  | 11 => some [56, 48]
  | 14 => some [100, 111, 99, 115]
  | 19 => some [97]
  | _ => none

/-- The directory `docs` of port 80 of a host, with a document `a` that has the keyword
`k`.  The record of the sub-path is the seventh; the directory `docs` is in the
directory of the fifth, whose number is that of the string `k`. -/
def webSite : List SiteEntry :=
  [⟨4, -1, .prntEntry (-1)⟩, ⟨1, 6, .entry 0 0 0 0⟩, ⟨0x20, 0, .prntEntry 1⟩,
    ⟨1, 11, .entry 0 0 0 0⟩, ⟨0x10, 2, .prntEntry 3⟩, ⟨1, 14, .entry 0 0 0 0⟩,
    ⟨4, 4, .prntEntry 5⟩, ⟨0x40, 19, .entry 7 0 0 0⟩, ⟨8, 4, .kwrd 1⟩]

theorem webSite_isSiteFile : IsSiteFile webSite := by
  refine ⟨?_, by decide, by decide, ?_⟩
  · rintro e ⟨⟩
    exact ⟨by decide, by decide⟩
  intro i e e' he he' hkey
  have hi : i < 8 := Nat.succ_lt_succ_iff.mp (List.getElem?_eq_some_iff.mp he').1
  interval_cases i <;> cases he <;> cases he' <;> first | rfl | exact absurd hkey (by decide)

theorem webString_complete :
    CompleteStarts webString (fun word str => strstr str word) [107] [4] ∧
      CompleteStarts webString (fun word str => strstr str word) [97] [1, 19] := by
  constructor
  · intro s
    constructor
    · intro hs
      obtain rfl := List.mem_singleton.mp hs
      exact ⟨4, rfl, [107], rfl, by decide⟩
    · rintro ⟨off, rfl, str, hstr, hmatch⟩
      revert hmatch
      unfold webString at hstr
      split at hstr <;> cases hstr <;> decide
  · intro s
    constructor
    · intro hs
      simp only [List.mem_cons, List.not_mem_nil, or_false] at hs
      rcases hs with rfl | rfl
      · exact ⟨1, rfl, [97, 98], rfl, by decide⟩
      · exact ⟨19, rfl, [97], rfl, by decide⟩
    · rintro ⟨off, rfl, str, hstr, hmatch⟩
      revert hmatch
      unfold webString at hstr
      split at hstr <;> cases hstr <;> decide

/-- The query `a` finds the document. -/
theorem siteAndTuples_webSite : IsSiteFile webSite ∧ ∀ f : ℤ,
    f ∈ filesOf (siteAndTuples true webSite (some (createSiteIndex webSite)) 0 [[1, 19]] []) ↔
      ∃ d : ℕ, f = d ∧ IsDocument webSite d ∧
        DocMatches webString (fun word str => strstr str word) webSite [97] d := by
  refine ⟨webSite_isSiteFile, fun f => ?_⟩
  have hindex : ∀ index ∈ some (createSiteIndex webSite), IsSiteIndex webSite index := by
    rintro index ⟨⟩
    exact isSiteIndex_createSiteIndex webSite
  -- the records that stand for a directory hold -1, 0, 2 and 4
  have hdirs : ∀ e ∈ webSite, cseIsParent e.flags = true → e.strt1 ∉ [1, 19] := by decide
  have hnone : ∀ e ∈ webSite, cseIsParent e.flags = true →
      ¬ ((∀ w ∈ [[97]], IsHit webString (fun word str => strstr str word) w e.strt1) ∧
        ∀ w ∈ [], ¬ IsHit webString (fun word str => strstr str word) w e.strt1) := by
    rintro e he hparent ⟨hhit, -⟩
    exact hdirs e he hparent ((webString_complete.2 e.strt1).mpr (hhit [97] (by simp)))
  have hstarts : ∀ w ∈ [[97]] ++ [], CompleteStarts webString (fun word str => strstr str word) w
      ((fun _ => [1, 19]) w) := by
    simpa using webString_complete.2
  have hfound := (siteAndTuples_iff webSite_isSiteFile hindex (show [[97]] ≠ [] by simp) hstarts
    true 0).mpr (Or.inr hnone) f
  simpa using hfound

/-- The query `k` finds the sub-path beside the document. -/
theorem siteAndTuples_subpath :
    IsSiteFile webSite ∧ CompleteStarts webString (fun word str => strstr str word) [107] [4] ∧
    ¬ ∀ f : ℤ, f ∈ filesOf
      (siteAndTuples true webSite (some (createSiteIndex webSite)) 0 [[4]] []) ↔
      ∃ d : ℕ, f = d ∧ IsDocument webSite d ∧
        DocMatches webString (fun word str => strstr str word) webSite [107] d := by
  refine ⟨webSite_isSiteFile, webString_complete.1, fun h => ?_⟩
  have hin : (6 : ℤ) ∈
      filesOf (siteAndTuples true webSite (some (createSiteIndex webSite)) 0 [[4]] []) := by
    decide
  obtain ⟨d, heq, ⟨e, he, hparent, -⟩, -⟩ := (h 6).mp hin
  obtain rfl : d = 6 := by exact_mod_cast heq.symm
  cases he
  exact absurd hparent (by decide)

end Archie
