/-
The tuples of a site for the starts of a word (`archsearch/boolean-search.c`).

For each record that a start belongs to there is a tuple with the record and its
document, the nearest record before it that is no keyword.  The records are
found in the index of the site or, where there is none, by going through the site
file.

* `findParentsForStarts_spec` — the tuples, each once.  Without an index the
  records that stand for a directory are passed over, with an index they are not.
* `findParentsForStarts_iff` — the two ways agree exactly if no such record holds,
  as its record number, one of the starts.
-/
import Archie.SiteIndex
import Archie.TupleOps

namespace Archie

/-! ### The document of a record -/

/-- The loop of `find_parent`: down from the record before `cnt` to one that is no
keyword, or to -1. -/
def fileFrom (file : List SiteEntry) : ℕ → ℤ
  | 0 => -1
  | cnt + 1 =>
    if (file[cnt]?.map fun e => cseIsKey e.flags) = some true then fileFrom file cnt else cnt

/-- `find_parent`; the site is put in by its callers. -/
def SiteTuple.findParent (file : List SiteEntry) (site : ℤ) (index : ℕ) : SiteTuple :=
  { site, child := index, file := fileFrom file (index + 1) }

/-- A site file: the first record opens it, a record that stands for a directory is
no keyword, the others have a string, and before a keyword is its document or
another keyword of it. -/
structure IsSiteFile (file : List SiteEntry) : Prop where
  first : ∀ e, file[0]? = some e → cseIsParent e.flags = true ∧ e.strt1 < 0
  kind : ∀ e ∈ file, cseIsParent e.flags = true → cseIsKey e.flags = false
  string : ∀ e ∈ file, cseIsParent e.flags = false → 0 ≤ e.strt1
  keyword : ∀ (i : ℕ) (e e' : SiteEntry), file[i]? = some e → file[i + 1]? = some e' →
    cseIsKey e'.flags = true → cseIsParent e.flags = false

/-- A record of a document: neither a keyword nor one that stands for a directory. -/
def IsDocument (file : List SiteEntry) (d : ℕ) : Prop :=
  ∃ e, file[d]? = some e ∧ cseIsParent e.flags = false ∧ cseIsKey e.flags = false

/-- A record belongs to a document: it is the document or one of its keywords, with
nothing but keywords in between. -/
def Belongs (file : List SiteEntry) (d r : ℕ) : Prop :=
  IsDocument file d ∧ d ≤ r ∧
    ∀ i, d < i → i ≤ r → ∃ e, file[i]? = some e ∧ cseIsKey e.flags = true

theorem fileFrom_of_not_key {file : List SiteEntry} {r : ℕ} {e : SiteEntry} (he : file[r]? = some e)
    (hkey : cseIsKey e.flags = false) : fileFrom file (r + 1) = r := by
  rw [fileFrom, he, Option.map_some, hkey, if_neg (by simp)]

theorem fileFrom_of_key {file : List SiteEntry} {r : ℕ} {e : SiteEntry} (he : file[r]? = some e)
    (hkey : cseIsKey e.flags = true) : fileFrom file (r + 1) = fileFrom file r := by
  rw [fileFrom, he, Option.map_some, hkey, if_pos rfl]

/-- The document that `find_parent` finds is the one that the record belongs to. -/
theorem fileFrom_of_belongs {file : List SiteEntry} {d r : ℕ} (h : Belongs file d r) :
    fileFrom file (r + 1) = d := by
  obtain ⟨hdoc, hle, hbetween⟩ := h
  induction r with
  | zero =>
    obtain rfl : d = 0 := by omega
    obtain ⟨e, he, -, hkey⟩ := hdoc
    exact fileFrom_of_not_key he hkey
  | succ r ih =>
    rcases hle.lt_or_eq with hlt | rfl
    · obtain ⟨e, he, hkey⟩ := hbetween (r + 1) hlt le_rfl
      rw [fileFrom_of_key he hkey]
      exact ih (by omega) fun i hi hir => hbetween i hi (by omega)
    · obtain ⟨e, he, -, hkey⟩ := hdoc
      exact fileFrom_of_not_key he hkey

/-- In a site file each record that stands for no directory belongs to a document. -/
theorem IsSiteFile.exists_belongs {file : List SiteEntry} (h : IsSiteFile file) {r : ℕ}
    {e : SiteEntry}
    (he : file[r]? = some e) (hparent : cseIsParent e.flags = false) : ∃ d, Belongs file d r := by
  induction r generalizing e with
  | zero =>
    rw [(h.first e he).1] at hparent
    exact absurd hparent (by simp)
  | succ r ih =>
    cases hkey : cseIsKey e.flags with
    | false =>
      exact ⟨r + 1, ⟨e, he, hparent, hkey⟩, le_rfl, fun i hi hir => by omega⟩
    | true =>
      have hr : r < file.length := by
        have := (List.getElem?_eq_some_iff.mp he).1
        omega
      have hprev : file[r]? = some file[r] := List.getElem?_eq_getElem hr
      obtain ⟨d, hdoc, hle, hbetween⟩ := ih hprev (h.keyword r _ e hprev he hkey)
      refine ⟨d, hdoc, by omega, fun i hi hir => ?_⟩
      rcases Nat.le_succ_iff.mp hir with hle' | rfl
      · exact hbetween i hi hle'
      · exact ⟨e, he, hkey⟩

/-! ### `findParentsForStarts` and `findParentsForAllStarts` -/

/-- The loop over the starts of a list in the index.  A start that the index does
not have is passed over. -/
def indexTuples (reallocNull : Bool) (file : List SiteEntry) (index : List SiteIndex) (site : ℤ) :
    List ℤ → List SiteTuple → List SiteTuple
  | [], new => new
  | start :: starts, new =>
    match searchSiteIndex index start with
    | none => indexTuples reallocNull file index site starts new
    | some recs =>
      let tuples := recs.map (SiteTuple.findParent file site)
      if new = [] then indexTuples reallocNull file index site starts tuples
      else
        indexTuples reallocNull file index site starts
          ((archTupleOper reallocNull new tuples .orOp).getD [])

/-- The loop over the records of the site file: `currCount` is the number of the
record, `currFile` that of the last one that is no keyword.  A record has one tuple
at most, so that the room for `act_size` tuples is enough. -/
def scanTuples (site : ℤ) (starts : List ℤ) : List SiteEntry → ℕ → ℕ → List SiteTuple
  | [], _, _ => []
  | currEnt :: rest, currCount, currFile =>
    if 0 ≤ currEnt.strt1 then
      if cseIsParent currEnt.flags then scanTuples site starts rest (currCount + 1) currCount
      else
        let currFile := if cseIsKey currEnt.flags then currFile else currCount
        if currEnt.strt1 ∈ starts then
          ⟨site, currCount, currFile⟩ :: scanTuples site starts rest (currCount + 1) currFile
        else scanTuples site starts rest (currCount + 1) currFile
    else scanTuples site starts rest (currCount + 1) currFile

/-- `findParentsForStarts`, for a site whose file can be read. -/
def findParentsForStarts (reallocNull : Bool) (file : List SiteEntry)
    (index? : Option (List SiteIndex))
    (site : ℤ) (start : List ℤ) : List SiteTuple :=
  match index? with
  | some index => indexTuples reallocNull file index site start []
  | none => scanTuples site start file 0 0

/-- What `findParentsForAllStarts` gives for one of its two lists. -/
def wordTuples (reallocNull : Bool) (file : List SiteEntry) (index? : Option (List SiteIndex))
    (site : ℤ) (start : List ℤ) : List SiteTuple :=
  match index? with
  | some index => uniqueTuple (indexTuples reallocNull file index site start [])
  | none => scanTuples site start file 0 0

/-- `findParentsForAllStarts`.  Without an index it goes through the file once, for
both lists; neither has to do with what is found for the other. -/
def findParentsForAllStarts (reallocNull : Bool) (file : List SiteEntry)
    (index? : Option (List SiteIndex)) (site : ℤ) (andstart notstart : List ℤ) :
    List SiteTuple × List SiteTuple :=
  (wordTuples reallocNull file index? site andstart,
    wordTuples reallocNull file index? site notstart)

/-! ### With an index -/

section

variable {file : List SiteEntry} {site : ℤ}

theorem findParent_injective : Function.Injective (SiteTuple.findParent file site) := by
  intro r r' h
  simpa [SiteTuple.findParent] using congrArg SiteTuple.child h

/-- The tuples of records other than the first. -/
theorem tupleList_map_findParent {recs : List ℕ} (hnodup : recs.Nodup) (hpos : 0 ∉ recs) :
    TupleList site (recs.map (SiteTuple.findParent file site)) := by
  refine ⟨?_, hnodup.map findParent_injective, ?_⟩
  · intro t ht
    obtain ⟨r, -, rfl⟩ := List.mem_map.mp ht
    rfl
  · intro t ht hchild
    obtain ⟨r, hr, rfl⟩ := List.mem_map.mp ht
    obtain rfl : r = 0 := by simpa [SiteTuple.findParent] using hchild
    exact hpos hr

/-- The first record has no start. -/
theorem IsSiteFile.zero_notMem (h : IsSiteFile file) {start : ℤ} (hstart : 0 ≤ start) :
    0 ∉ recordsWith file start := by
  intro hmem
  obtain ⟨e, he, hs⟩ := mem_recordsWith.mp hmem
  have hneg := (h.first e he).2
  omega

/-- The tuples found in the index, beside those that were there before. -/
theorem indexTuples_spec (h : IsSiteFile file) {index : List SiteIndex}
    (hindex : IsSiteIndex file index)
    (reallocNull : Bool) {starts : List ℤ} (hstarts : ∀ s ∈ starts, 0 ≤ s) {new : List SiteTuple}
    (hnew : TupleList site new) :
    TupleList site (indexTuples reallocNull file index site starts new) ∧
      ∀ t, t ∈ indexTuples reallocNull file index site starts new ↔
        t ∈ new ∨ ∃ s ∈ starts, ∃ r ∈ recordsWith file s, t = SiteTuple.findParent file site r := by
  induction starts generalizing new with
  | nil => exact ⟨hnew, by simp [indexTuples]⟩
  | cons start starts ih =>
    obtain ⟨hstart, hrest⟩ := List.forall_mem_cons.mp hstarts
    rw [indexTuples]
    rcases searchSiteIndex_perm hindex start with ⟨hnil, hnone⟩ | ⟨recs, hne, hperm, hsome⟩
    · rw [hnone]
      obtain ⟨hlist, hmem⟩ := ih hrest hnew
      refine ⟨hlist, fun t => ?_⟩
      simp [hmem, hnil]
    · rw [hsome]
      dsimp only
      have htuples : TupleList site (recs.map (SiteTuple.findParent file site)) := by
        refine tupleList_map_findParent (hperm.nodup_iff.mpr (nodup_recordsWith file start)) ?_
        rw [hperm.mem_iff]
        exact h.zero_notMem hstart
      have hmap : ∀ t, t ∈ recs.map (SiteTuple.findParent file site) ↔
          ∃ r ∈ recordsWith file start, t = SiteTuple.findParent file site r := by
        intro t
        simp only [List.mem_map, hperm.mem_iff, eq_comm]
      split
      next hnewnil =>
        obtain ⟨hlist, hmem⟩ := ih hrest htuples
        refine ⟨hlist, fun t => ?_⟩
        simp [hmem, hmap, hnewnil]
      next hnewnil =>
        obtain ⟨hor, hmemor⟩ := tupleOper_or hnew htuples
        rw [archTupleOper_getD]
        obtain ⟨hlist, hmem⟩ := ih hrest hor
        refine ⟨hlist, fun t => ?_⟩
        simp [hmem, hmemor, hmap, or_assoc]

/-! ### Without an index -/

/-- What `currFile` is when the record `n` is read: the document that the next
keyword belongs to. -/
def CurrFile (file : List SiteEntry) (n currFile : ℕ) : Prop :=
  ∀ e e', file[n - 1]? = some e → file[n]? = some e' → 0 < n → cseIsKey e'.flags = true →
    (currFile : ℤ) = fileFrom file n

/-- The tuples of the records from `n` on. -/
theorem scanTuples_spec (h : IsSiteFile file) (starts : List ℤ) {rest : List SiteEntry}
    {n currFile : ℕ}
    (hrest : file.drop n = rest) (hcurr : CurrFile file n currFile) :
    TupleList site (scanTuples site starts rest n currFile) ∧
      ∀ t, t ∈ scanTuples site starts rest n currFile ↔ ∃ r e, n ≤ r ∧ file[r]? = some e ∧
        cseIsParent e.flags = false ∧ e.strt1 ∈ starts ∧ t = SiteTuple.findParent file site r := by
  induction rest generalizing n currFile with
  | nil =>
    have hlen : file.length ≤ n := List.drop_eq_nil_iff.mp hrest
    refine ⟨TupleList.nil site, fun t => ?_⟩
    simp only [scanTuples, List.not_mem_nil, false_iff]
    rintro ⟨r, e, hnr, he, -⟩
    have := (List.getElem?_eq_some_iff.mp he).1
    omega
  | cons e rest ih =>
    have he : file[n]? = some e := by
      rw [← Nat.add_zero n, ← List.getElem?_drop, hrest]
      rfl
    have hmem : e ∈ file := List.mem_of_getElem? he
    have hdrop : file.drop (n + 1) = rest := by
      rw [← List.drop_drop, hrest]
      rfl
    -- the records from `n` on are the record `n` and those after it
    have hsplit : ∀ (p : ℕ → SiteEntry → Prop), (∃ r e, n ≤ r ∧ file[r]? = some e ∧ p r e) ↔
        p n e ∨ ∃ r e, n + 1 ≤ r ∧ file[r]? = some e ∧ p r e := by
      intro p
      constructor
      · rintro ⟨r, e', hnr, he', hp⟩
        rcases hnr.eq_or_lt with rfl | hlt
        · rw [he] at he'
          rw [Option.some.inj he']
          exact Or.inl hp
        · exact Or.inr ⟨r, e', hlt, he', hp⟩
      · rintro (hp | ⟨r, e', hnr, he', hp⟩)
        · exact ⟨n, e, le_rfl, he, hp⟩
        · exact ⟨r, e', by omega, he', hp⟩
    -- what the next keyword belongs to, if this record is one or none
    have hnext : ∀ k : ℕ, (cseIsParent e.flags = false → (k : ℤ) = fileFrom file (n + 1)) →
        CurrFile file (n + 1) k := by
      intro k hk e₁ e₂ he₁ he₂ _ hkey
      rw [Nat.add_sub_cancel] at he₁
      exact hk (by
        have hprev := h.keyword n e₁ e₂ he₁ he₂ hkey
        rw [he] at he₁
        rwa [← Option.some.inj he₁] at hprev)
    rw [scanTuples]
    cases hparent : cseIsParent e.flags with
    | true =>
      have hskip : ∀ k, TupleList site (scanTuples site starts rest (n + 1) k) ∧
          ∀ t, t ∈ scanTuples site starts rest (n + 1) k ↔ ∃ r e, n ≤ r ∧ file[r]? = some e ∧
            cseIsParent e.flags = false ∧ e.strt1 ∈ starts ∧
              t = SiteTuple.findParent file site r := by
        intro k
        obtain ⟨hlist, hiff⟩ := ih hdrop (hnext k fun hc => by simp [hparent] at hc)
        refine ⟨hlist, fun t => ?_⟩
        rw [hiff, hsplit]
        simp [hparent]
      split
      · exact hskip n
      · exact hskip currFile
    | false =>
      have hfile : ((if cseIsKey e.flags = true then currFile else n : ℕ) : ℤ) =
          fileFrom file (n + 1) := by
        cases hkey : cseIsKey e.flags with
        | false => rw [if_neg (by simp), fileFrom_of_not_key he hkey]
        | true =>
          rw [if_pos rfl, fileFrom_of_key he hkey]
          cases n with
          | zero =>
            rw [(h.first e he).1] at hparent
            exact absurd hparent (by simp)
          | succ n =>
            have hn : n < file.length := by
              have := (List.getElem?_eq_some_iff.mp he).1
              omega
            exact hcurr _ e (List.getElem?_eq_getElem hn) he (by omega) hkey
      obtain ⟨hlist, hiff⟩ := ih hdrop (hnext _ fun _ => hfile)
      rw [if_pos (h.string e hmem hparent), if_neg (by simp)]
      dsimp only
      split
      next hin =>
        have htuple : (⟨site, n,
            (if cseIsKey e.flags = true then currFile else n : ℕ)⟩ : SiteTuple) =
            SiteTuple.findParent file site n := by
          rw [SiteTuple.findParent, hfile]
        rw [htuple]
        refine ⟨⟨?_, ?_, ?_⟩, fun t => ?_⟩
        · intro t ht
          rcases List.mem_cons.mp ht with rfl | ht
          · rfl
          · exact hlist.site t ht
        · refine List.nodup_cons.mpr ⟨fun hc => ?_, hlist.nodup⟩
          obtain ⟨r, -, hnr, -, -, -, heq⟩ := (hiff _).mp hc
          have := findParent_injective heq
          omega
        · intro t ht
          rcases List.mem_cons.mp ht with rfl | ht
          · intro hzero
            obtain rfl : n = 0 := by simpa [SiteTuple.findParent] using hzero
            rw [(h.first e he).1] at hparent
            exact absurd hparent (by simp)
          · exact hlist.child t ht
        · rw [List.mem_cons, hiff, hsplit]
          simp [hparent, hin]
      next hin =>
        refine ⟨hlist, fun t => ?_⟩
        rw [hiff, hsplit]
        simp [hin]

variable {index? : Option (List SiteIndex)} {starts : List ℤ}

/-- What `findParentsForStarts` gives. -/
theorem findParentsForStarts_spec (h : IsSiteFile file)
    (hindex : ∀ index ∈ index?, IsSiteIndex file index)
    (reallocNull : Bool) (hstarts : ∀ s ∈ starts, 0 ≤ s) :
    TupleList site (findParentsForStarts reallocNull file index? site starts) ∧
      ∀ t, t ∈ findParentsForStarts reallocNull file index? site starts ↔
        ∃ r e, file[r]? = some e ∧ (index? = none → cseIsParent e.flags = false) ∧
          e.strt1 ∈ starts ∧
          t = SiteTuple.findParent file site r := by
  cases index? with
  | none =>
    obtain ⟨hlist, hmem⟩ := scanTuples_spec (n := 0) h starts rfl
      (show CurrFile file 0 0 from fun _ _ _ _ hpos => absurd hpos (lt_irrefl 0))
    refine ⟨hlist, fun t => (hmem t).trans ?_⟩
    simp
  | some index =>
    obtain ⟨hlist, hmem⟩ := indexTuples_spec h (hindex index rfl) reallocNull hstarts
      (TupleList.nil site)
    refine ⟨hlist, fun t => (hmem t).trans ?_⟩
    simp only [List.not_mem_nil, false_or, mem_recordsWith, reduceCtorEq, false_imp_iff, true_and]
    constructor
    · rintro ⟨s, hs, r, ⟨e, he, rfl⟩, ht⟩
      exact ⟨r, e, he, hs, ht⟩
    · rintro ⟨r, e, he, hs, ht⟩
      exact ⟨_, hs, r, ⟨e, he, rfl⟩, ht⟩

/-- The tuples of a word are those that `findParentsForStarts` gives. -/
theorem wordTuples_eq (h : IsSiteFile file) (hindex : ∀ index ∈ index?, IsSiteIndex file index)
    (reallocNull : Bool) (hstarts : ∀ s ∈ starts, 0 ≤ s) :
    wordTuples reallocNull file index? site starts =
      findParentsForStarts reallocNull file index? site starts := by
  cases index? with
  | none => rfl
  | some index =>
    exact uniqueTuple_eq (findParentsForStarts_spec h hindex reallocNull hstarts).1

/-- **With and without an index.**  The tuples are the same exactly if no record that
stands for a directory holds one of the starts. -/
theorem findParentsForStarts_iff (h : IsSiteFile file) {index : List SiteIndex}
    (hindex : IsSiteIndex file index) (reallocNull : Bool) (hstarts : ∀ s ∈ starts, 0 ≤ s) :
    (∀ t, t ∈ findParentsForStarts reallocNull file (some index) site starts ↔
      t ∈ findParentsForStarts reallocNull file none site starts) ↔
    ∀ e ∈ file, cseIsParent e.flags = true → e.strt1 ∉ starts := by
  have hwith := (@findParentsForStarts_spec file site (some index) starts h
    (by simpa using hindex) reallocNull hstarts).2
  have hwithout := (@findParentsForStarts_spec file site none starts h
    (by simp) reallocNull hstarts).2
  constructor
  · intro hsame e he hparent hin
    obtain ⟨r, hr⟩ := List.mem_iff_getElem?.mp he
    have hmem := (hsame _).mp ((hwith (SiteTuple.findParent file site r)).mpr
      ⟨r, e, hr, by simp, hin, rfl⟩)
    obtain ⟨r', e', hr', hnot, -, heq⟩ := (hwithout _).mp hmem
    rw [← findParent_injective heq, hr] at hr'
    have hnot := hnot rfl
    rw [← Option.some.inj hr', hparent] at hnot
    exact absurd hnot (by simp)
  · intro hnone t
    rw [hwith, hwithout]
    constructor
    · rintro ⟨r, e, he, -, hin, ht⟩
      refine ⟨r, e, he, fun _ => ?_, hin, ht⟩
      by_contra hparent
      exact hnone e (List.mem_of_getElem? he) (by simpa using hparent) hin
    · rintro ⟨r, e, he, hnot, hin, ht⟩
      exact ⟨r, e, he, by simp, hin, ht⟩

end

end Archie
