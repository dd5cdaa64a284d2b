/-
The site files that `setup_insert` makes, for either kind of site, and their index.

* `BuiltSite.entry`, `BuiltSite.directory` — what is preserved when a record is
  added to a site file.
* `MadeBySetupInsert.soundSite` — the links of the finished files.
* `indexSame_iff` — when a site file gives the same hits, and the same tuples, with
  its index as without one.
-/
import Mathlib.Tactic.IntervalCases
import Archie.IndexScan
import Archie.WebInsert

namespace Archie

variable {db : StringsDb} {web : Bool} {file : List SiteEntry} {mains : List ℤ} {main : ℕ}

/-! ### Adding records -/

/-- A site file that is not finished, with the record of the directory that each of
its records is in and that of the directory that the next one is in. -/
structure BuiltSite (db : StringsDb) (web : Bool) (file : List SiteEntry) (mains : List ℤ)
    (main : ℕ) :
    Prop extends SoundSite db web file where
  length : mains.length = file.length
  main : ∃ e, file[main]? = some e ∧ cseIsParent e.flags = true
  mains : ∀ (k : ℕ) (e : SiteEntry), file[k]? = some e → cseIsParent e.flags = false →
    ∃ (q : ℕ) (e' : SiteEntry), mains[k]? = some (q : ℤ) ∧ file[q]? = some e' ∧
      cseIsParent e'.flags = true

/-- The last place of a list, and those before it. -/
theorem getElem?_append_singleton_eq_some {α : Type*} {l : List α} {a b : α} {k : ℕ} :
    (l ++ [a])[k]? = some b ↔ l[k]? = some b ∨ k = l.length ∧ b = a := by
  rcases lt_trichotomy k l.length with hlt | rfl | hgt
  · rw [List.getElem?_append_left hlt]
    simp [hlt.ne]
  · simp [eq_comm]
  · rw [List.getElem?_eq_none (by simp; omega), List.getElem?_eq_none hgt.le]
    simp [hgt.ne']

theorem getElem?_append_of_eq_some {α : Type*} {l : List α} {b : α} {k : ℕ} (h : l[k]? = some b)
    (t : List α) : (l ++ t)[k]? = some b := by
  rw [List.getElem?_append_left (List.getElem?_eq_some_iff.mp h).1, h]

/-- The record of the root alone. -/
theorem builtSite_root (db : StringsDb) (web : Bool) :
    BuiltSite db web [subpathRec (-1) (-1)] [-1] 0 where
  first := by
    rintro e ⟨⟩
    exact ⟨cseIsParent_subpathRec _ _, by simp [subpathRec]⟩
  kind := by simp [subpathRec, cseIsKey]
  string := by simp
  keyword := by simp
  name := by simp
  plain := by simp [subpathRec, cseIsDoc]
  document := by simp
  up := by
    intro p e he _ hp
    have := (List.getElem?_eq_some_iff.mp he).1
    simp at this
    omega
  length := rfl
  main := ⟨_, rfl, cseIsParent_subpathRec _ _⟩
  mains := by
    intro k e he hnot
    obtain rfl := List.mem_singleton.mp (List.mem_of_getElem? he)
    simp at hnot

/-- What an added record has to do with the last one, if it is a keyword. -/
def FollowsDocument (web : Bool) (file : List SiteEntry) (e : SiteEntry) : Prop :=
  cseIsKey e.flags = true → web = true ∧ ∃ (k : ℕ) (last : SiteEntry), file.length = k + 1 ∧
    file[k]? = some last ∧ cseIsParent last.flags = false ∧
    (cseIsDoc last.flags = true ∨ cseIsFile last.flags = true ∨ cseIsKey last.flags = true)

/-- What an added record for a directory has to do with the others. -/
def LinksUp (file : List SiteEntry) (e : SiteEntry) : Prop :=
  ∃ (q d : ℕ) (e' ent : SiteEntry), e.strt1 = q ∧ file[q]? = some e' ∧ cseIsParent e'.flags = true ∧
    e.core = .prntEntry d ∧ file[d]? = some ent ∧ cseIsParent ent.flags = false

/-- A record is added. -/
theorem SoundSite.append (h : SoundSite db web file) (hpos : 0 < file.length) {e : SiteEntry}
    (hdir : cseIsParent e.flags = true →
      cseIsKey e.flags = false ∧ cseIsDoc e.flags = false ∧ LinksUp file e)
    (hentry : cseIsParent e.flags = false →
      0 ≤ e.strt1 ∧ ∃ name, name ≠ [] ∧ db.getString e.strt1 = some name)
    (hkey : FollowsDocument web file e) : SoundSite db web (file ++ [e]) := by
  -- two records next to each other, of which the second is a keyword
  have hpair : ∀ (i : ℕ) (e₁ e₂ : SiteEntry), (file ++ [e])[i]? = some e₁ →
      (file ++ [e])[i + 1]? = some e₂ → cseIsKey e₂.flags = true →
      cseIsParent e₁.flags = false ∧ web = true ∧
        (cseIsDoc e₁.flags = true ∨ cseIsFile e₁.flags = true ∨ cseIsKey e₁.flags = true) := by
    intro i e₁ e₂ he₁ he₂ hk
    rcases getElem?_append_singleton_eq_some.mp he₂ with he₂ | ⟨hi, rfl⟩
    · have hlt := (List.getElem?_eq_some_iff.mp he₂).1
      rw [List.getElem?_append_left (by omega)] at he₁
      exact ⟨h.keyword i e₁ e₂ he₁ he₂ hk, h.document i e₁ e₂ he₁ he₂ hk⟩
    · obtain ⟨hweb, k, last, hlen, hlast, hnot, hdoc⟩ := hkey hk
      obtain rfl : i = k := by omega
      rw [getElem?_append_of_eq_some hlast] at he₁
      rw [← Option.some.inj he₁]
      exact ⟨hnot, hweb, hdoc⟩
  constructor
  · constructor
    · intro e' he'
      rw [List.getElem?_append_left hpos] at he'
      exact h.first e' he'
    · intro e' he' hp
      rcases List.mem_append.mp he' with he' | he'
      · exact h.kind e' he' hp
      · obtain rfl := List.mem_singleton.mp he'
        exact (hdir hp).1
    · intro e' he' hp
      rcases List.mem_append.mp he' with he' | he'
      · exact h.string e' he' hp
      · obtain rfl := List.mem_singleton.mp he'
        exact (hentry hp).1
    · intro i e₁ e₂ he₁ he₂ hk
      exact (hpair i e₁ e₂ he₁ he₂ hk).1
  · intro e' he' hp
    rcases List.mem_append.mp he' with he' | he'
    · exact h.name e' he' hp
    · obtain rfl := List.mem_singleton.mp he'
      exact (hentry hp).2
  · intro e' he' hp
    rcases List.mem_append.mp he' with he' | he'
    · exact h.plain e' he' hp
    · obtain rfl := List.mem_singleton.mp he'
      exact (hdir hp).2.1
  · intro i e₁ e₂ he₁ he₂ hk
    exact (hpair i e₁ e₂ he₁ he₂ hk).2
  · intro p e' he' hp hne
    rcases getElem?_append_singleton_eq_some.mp he' with he' | ⟨rfl, rfl⟩
    · obtain ⟨q, d, e₁, ent, hstrt1, hlt, he₁, hp₁, hcore, hent, hnot⟩ := h.up p e' he' hp hne
      exact ⟨q, d, e₁, ent, hstrt1, hlt, getElem?_append_of_eq_some he₁ _, hp₁, hcore,
        getElem?_append_of_eq_some hent _, hnot⟩
    · obtain ⟨q, d, e₁, ent, hstrt1, he₁, hp₁, hcore, hent, hnot⟩ := (hdir hp).2.2
      exact ⟨q, d, e₁, ent, hstrt1, (List.getElem?_eq_some_iff.mp he₁).1,
        getElem?_append_of_eq_some he₁ _, hp₁, hcore, getElem?_append_of_eq_some hent _, hnot⟩

theorem BuiltSite.pos (h : BuiltSite db web file mains main) : 0 < file.length := by
  obtain ⟨e, he, -⟩ := h.main
  have := (List.getElem?_eq_some_iff.mp he).1
  omega

/-- An entry or a keyword is added. -/
theorem BuiltSite.entry (h : BuiltSite db web file mains main) {e : SiteEntry}
    (hparent : cseIsParent e.flags = false) (hstring : 0 ≤ e.strt1)
    (hname : ∃ name, name ≠ [] ∧ db.getString e.strt1 = some name)
    (hkey : FollowsDocument web file e) :
    BuiltSite db web (file ++ [e]) (mains ++ [(main : ℤ)]) main := by
  obtain ⟨em, hem, hpm⟩ := h.main
  constructor
  · exact h.toSoundSite.append h.pos
      (fun hp => by simp [hparent] at hp) (fun _ => ⟨hstring, hname⟩) hkey
  · simp [h.length]
  · exact ⟨em, getElem?_append_of_eq_some hem _, hpm⟩
  · intro k e' he' hnot
    rcases getElem?_append_singleton_eq_some.mp he' with he' | ⟨rfl, rfl⟩
    · obtain ⟨q, e₁, hq, he₁, hp₁⟩ := h.mains k e' he' hnot
      exact ⟨q, e₁, getElem?_append_of_eq_some hq _, getElem?_append_of_eq_some he₁ _, hp₁⟩
    · exact ⟨main, em, by simp [← h.length], getElem?_append_of_eq_some hem _, hpm⟩

/-- A record for the directory with the entry `d` is added, and gone to. -/
theorem BuiltSite.directory (h : BuiltSite db web file mains main) {e ent : SiteEntry} {d : ℕ}
    (hparent : cseIsParent e.flags = true) (hkey : cseIsKey e.flags = false)
    (hdoc : cseIsDoc e.flags = false) (hent : file[d]? = some ent)
    (hnot : cseIsParent ent.flags = false)
    (hstrt1 : e.strt1 = mains.getD d 0) (hcore : e.core = .prntEntry d) (m : ℤ) :
    BuiltSite db web (file ++ [e]) (mains ++ [m]) file.length := by
  have hup : LinksUp file e := by
    obtain ⟨q, e', hq, he', hp'⟩ := h.mains d ent hent hnot
    exact ⟨q, d, e', ent,
      by rw [hstrt1, List.getD_eq_getElem?_getD, hq]; rfl, he', hp', hcore, hent, hnot⟩
  constructor
  · exact h.toSoundSite.append h.pos (fun _ => ⟨hkey, hdoc, hup⟩)
      (fun hp => by simp [hparent] at hp)
      (fun hk => by simp [hkey] at hk)
  · simp [h.length]
  · exact ⟨e, by simp, hparent⟩
  · intro k e' he' hnot'
    rcases getElem?_append_singleton_eq_some.mp he' with he' | ⟨rfl, rfl⟩
    · obtain ⟨q, e₁, hq, he₁, hp₁⟩ := h.mains k e' he' hnot'
      exact ⟨q, e₁, getElem?_append_of_eq_some hq _, getElem?_append_of_eq_some he₁ _, hp₁⟩
    · simp [hparent] at hnot'

/-! ### The file of an anonymous FTP site -/

variable {host : List UInt8} {recs : List ParserEntry}

theorem faithful_name {name : List UInt8} (h : db.Faithful name) (hne : name ≠ []) :
    0 ≤ db.appendKey name ∧ ∃ str, str ≠ [] ∧ db.getString (db.appendKey name) = some str :=
  ⟨h.1, name, hne, h.2⟩

theorem cseIsKey_plain {flags : ℕ} (h : flags < 4) : cseIsKey flags = false := by
  have hcases : flags = 0 ∨ flags = 1 ∨ flags = 2 ∨ flags = 3 := by omega
  rcases hcases with rfl | rfl | rfl | rfl <;> rfl

theorem builtSite_start (hhost : db.Faithful host) (hne : host ≠ []) :
    BuiltSite db false (Layout.start db host).file (Layout.start db host).mains
      (Layout.start db host).main := by
  obtain ⟨hstring, hname⟩ := faithful_name hhost hne
  have hentry := (builtSite_root db false).entry
    (e := ⟨0x01, db.appendKey host, .entry 0 0 0 0⟩)
    (show cseIsParent 0x01 = false by decide) hstring hname (fun hk => by simp [cseIsKey] at hk)
  exact hentry.directory (e := ⟨0x20, 0, .prntEntry 1⟩) (d := 1) (by decide) (by decide) (by decide)
    rfl (show cseIsParent 0x01 = false by decide) rfl rfl 0

/-- The file of the first records. -/
theorem builtSite_layout (hwf : WellFormed recs) (hhost : db.Faithful host) (hne : host ≠ [])
    (hnames : ∀ r ∈ recs, db.Faithful r.name) {pre rest : List ParserEntry}
    (hrecs : recs = pre ++ rest) :
    BuiltSite db false (layout db host pre).file (layout db host pre).mains
      (layout db host pre).main := by
  induction pre using List.reverseRecOn generalizing rest with
  | nil => exact builtSite_start hhost hne
  | append_singleton pre r ih =>
    have hmem : r ∈ recs := by simp [hrecs]
    have hrecs' : recs = pre ++ r :: rest := by simp [hrecs]
    have hbuilt := ih hrecs'
    have hlinked := linked_layout db hwf host hrecs'
    have hok := layoutOk_layout db host pre
    set L := layout db host pre with hL
    -- the directory of the record is gone to first
    have henter : BuiltSite db false (L.enter r.core.parentIdx).file
        (L.enter r.core.parentIdx).mains
        (L.enter r.core.parentIdx).main := by
      rw [Layout.enter]
      split
      next => exact hbuilt
      next hnew =>
        obtain ⟨j, hj, hp, -⟩ :=
          (hwf.next hrecs').resolve_left fun heq => hnew (heq.trans hok.prev.symm)
        rw [hp, Int.toNat_natCast]
        have hplain := (plain_flags (hwf.plain pre[j] (by simp [hrecs']))).1
        exact hbuilt.directory (cseIsParent_subpathRec _ _) (by simp [subpathRec, cseIsKey])
          (by simp [subpathRec, cseIsDoc]) (hlinked.entry j hj) hplain rfl rfl _
    obtain ⟨hstring, hname⟩ := faithful_name (hnames r hmem) (hwf.name r hmem).1
    rw [layout_append_singleton, Layout.add]
    refine henter.entry (plain_flags (hwf.plain r hmem)).1 hstring hname fun hk => ?_
    -- no record of such a site is a keyword
    have hnot : cseIsKey (entryOf db r).flags = false := cseIsKey_plain (hwf.plain r hmem)
    rw [hnot] at hk
    exact absurd hk (by simp)

/-! ### The file of a web site -/

@[simp] theorem flags_recOf (L : WebLayout) (r : ParserEntry) :
  (L.recOf db r).flags = r.core.flags := by
  rw [WebLayout.recOf]
  split
  · rfl
  · split <;> rfl

/-- The records of the file have the flags of those of the input. -/
theorem flags_webLayout (pre : List ParserEntry) (i : ℕ) :
    (webLayout db pre).file[i + 1]?.map SiteEntry.flags = pre[i]?.map fun r => r.core.flags := by
  induction pre using List.reverseRecOn with
  | nil => rfl
  | append_singleton pre r ih =>
    have hlen := length_file_webLayout db pre
    rw [webLayout_append_singleton, WebLayout.add]
    rcases lt_trichotomy i pre.length with hlt | rfl | hgt
    · rw [List.getElem?_append_left (by omega), List.getElem?_append_left hlt, ih]
    · rw [← hlen]
      simp
    · rw [List.getElem?_eq_none (by simp; omega), List.getElem?_eq_none (by simp; omega)]
      rfl

/-- The file of the first records. -/
theorem builtSite_webLayout (hwf : WellFormedWeb recs) (hnames : ∀ r ∈ recs, db.Faithful r.name)
    {pre rest : List ParserEntry} (hrecs : recs = pre ++ rest) :
    BuiltSite db true (webLayout db pre).file (webLayout db pre).mains (webLayout db pre).main := by
  induction pre using List.reverseRecOn generalizing rest with
  | nil => exact builtSite_root db true
  | append_singleton pre r ih =>
    have hmem : r ∈ recs := by simp [hrecs]
    have hrecs' : recs = pre ++ r :: rest := by simp [hrecs]
    have hbuilt := ih hrecs'
    have hr : recs[pre.length]? = some r := by simp [hrecs]
    have hlen := length_file_webLayout db pre
    -- the record of an earlier record of the input
    have hearlier : ∀ {j : ℕ} {r' : ParserEntry}, j < pre.length → recs[j]? = some r' →
        ∃ e, (webLayout db pre).file[j + 1]? = some e ∧ e.flags = r'.core.flags := by
      intro j r' hj hr'
      have hflags := @flags_webLayout db pre j
      rw [hrecs', List.getElem?_append_left hj] at hr'
      rw [hr', Option.map_some, Option.map_eq_some_iff] at hflags
      exact hflags
    rw [webLayout_append_singleton, WebLayout.add, WebLayout.mainWith]
    cases hp : cseIsParent r.core.flags with
    | true =>
      obtain ⟨j, r', hj, hidx, hr', hnot⟩ := hwf.parent _ r hr hp
      obtain ⟨ent, hent, hflags⟩ := hearlier hj hr'
      have hkind := (hwf.kind r hmem).parent_flags hp
      have hplace : WebLayout.place r = j + 1 := by rw [WebLayout.place, hidx, Int.toNat_natCast]
      simp only [if_true]
      exact hbuilt.directory (d := j + 1) (by simpa using hp) (by simpa using hkind.2.1)
        (by simpa using hkind.2.2) hent (by rw [hflags]; exact hnot)
        (by simp [WebLayout.recOf, hp, hplace]) (by simp [WebLayout.recOf, hp, hplace]) _
    | false =>
      have hstrt1 : ((webLayout db pre).recOf db r).strt1 = db.appendKey r.name := by
        rw [WebLayout.recOf, hp, if_neg (by simp)]
        split <;> rfl
      obtain ⟨hstring, hname⟩ := faithful_name (hnames r hmem) (hwf.name r hmem)
      simp only [Bool.false_eq_true, if_false]
      refine hbuilt.entry (by simpa using hp) (by rw [hstrt1]; exact hstring)
        (by rw [hstrt1]; exact hname) fun hk => ⟨rfl, ?_⟩
      rw [flags_recOf] at hk
      obtain ⟨j, r', hj, hr', hnot, hdoc⟩ := hwf.keyword _ r hr hk
      obtain ⟨last, hlast, hflags⟩ := hearlier (show j < pre.length by omega) hr'
      refine ⟨j + 1, last, by omega, hlast, by rw [hflags]; exact hnot, ?_⟩
      rw [hflags]
      rcases hdoc with hdoc | hkey
      · exact .inl hdoc
      · exact .inr (.inr hkey)

/-! ### The site files that are made -/

/-- A site file that `setup_insert` has made of well-formed records, in a new array
of the size that `count_extra_recs` has found, as far as the array is used. -/
inductive MadeBySetupInsert (db : StringsDb) : Bool → List SiteEntry → Prop
  | anonftp {recs : List ParserEntry} {header : Header} {host unset : List UInt8}
      {out : List SiteEntry} {outRecNo : ℕ} {rest : List ParserEntry} :
      WellFormed recs → HeaderFor recs header host → db.Faithful host →
      (∀ r ∈ recs, db.Faithful r.name) →
      setupInsert db unset (countExtraRecs recs header) recs
        (List.replicate (countExtraRecs recs header).siteNoRecs zeroEntry) = some
          (out, outRecNo, rest) →
      MadeBySetupInsert db false (out.take outRecNo)
  | web {recs : List ParserEntry} {header : Header} {unset : List UInt8} {out : List SiteEntry}
      {outRecNo : ℕ} {rest : List ParserEntry} :
      WellFormedWeb recs → header.noRecs = recs.length → (∀ r ∈ recs, db.Faithful r.name) →
      WebSetup.setupInsert db unset (WebSetup.countExtraRecs header).siteNoRecs recs
        (List.replicate (WebSetup.countExtraRecs header).siteNoRecs zeroEntry) =
        some (out, outRecNo, rest) →
      MadeBySetupInsert db true (out.take outRecNo)

theorem soundSite_nil : SoundSite db web [] where
  first := by simp
  kind := by simp
  string := by simp
  keyword := by simp
  name := by simp
  plain := by simp
  document := by simp
  up := by simp

/-- **The links of a site file**, whichever `setup_insert` has made it. -/
theorem MadeBySetupInsert.soundSite (h : MadeBySetupInsert db web file) :
    SoundSite db web file := by
  cases h with
  | @anonftp recs header host unset out outRecNo rest hwf hheader hhost hnames hmade =>
    rw [(setupInsert_siteFile hwf hheader unset).2] at hmade
    simp only [Option.some.injEq, Prod.mk.injEq] at hmade
    obtain ⟨rfl, rfl, -⟩ := hmade
    rw [List.take_left, siteFile]
    split
    · exact soundSite_nil
    · exact (builtSite_layout hwf hhost hheader.hostname_ne hnames
        (List.append_nil recs).symm).toSoundSite
  | @web recs header unset out outRecNo rest hwf hheader hnames hmade =>
    obtain ⟨t, ht⟩ := @WebSetup.setupInsert_webFile db recs hwf header hheader unset
    rw [ht] at hmade
    simp only [Option.some.injEq, Prod.mk.injEq] at hmade
    obtain ⟨rfl, rfl, -⟩ := hmade
    rw [List.take_left, webFile]
    split
    · exact soundSite_nil
    · exact (builtSite_webLayout hwf hnames (List.append_nil recs).symm).toSoundSite

/-! ### The index and the scan -/

/-- **The index of a site against the scan of its file.**  The hits of a start are the
same exactly if the site is one of the web, or no record that stands for a directory
holds the start as its record number and has a path that is asked for; the tuples of
a list of starts are the same exactly if no such record holds one of them. -/
theorem indexSame_iff {site : SiteData} (hmade : MadeBySetupInsert db site.web site.file)
    {index : List SiteIndex} (hindex : IsSiteIndex site.file index) (accept : List UInt8 → Bool)
    {start : ℤ} (hstart : 0 ≤ start) {siteRecord : StartReturn} (hfresh : siteRecord.Fresh)
    {maxHits : ℤ}
    (hwith : ((getResultFromStart db { site with index? := some index } accept start siteRecord
      maxHits).hits.length : ℤ) < maxHits)
    (hwithout : ((getResultFromStart db { site with index? := none } accept start siteRecord
      maxHits).hits.length : ℤ) < maxHits)
    (reallocNull : Bool) (siteNo : ℤ) {starts : List ℤ} (hstarts : ∀ s ∈ starts, 0 ≤ s) :
    ((getResultFromStart db { site with index? := some index } accept start siteRecord
          maxHits).hits.Perm
        (getResultFromStart db { site with index? := none } accept start siteRecord maxHits).hits ↔
      site.web = true ∨ ∀ (p : ℕ) (e : SiteEntry), site.file[p]? = some e →
        cseIsParent e.flags = true → e.strt1 = start →
        ∀ str ∈ dirPath db site p e.flags start, accept str = false) ∧
    ((∀ t, t ∈ findParentsForStarts reallocNull site.file (some index) siteNo starts ↔
        t ∈ findParentsForStarts reallocNull site.file none siteNo starts) ↔
      ∀ e ∈ site.file, cseIsParent e.flags = true → e.strt1 ∉ starts) :=
  ⟨hits_index_iff hmade.soundSite hindex hstart hfresh hwith hwithout,
    findParentsForStarts_iff hmade.soundSite.toIsSiteFile hindex reallocNull hstarts⟩

/-- A database with the strings `hh`, `d`, `e` and `f`, under their places in its text. -/
def textDb : StringsDb where
  appendKey name :=
    if name = [104, 104] then 1 else if name = [100] then 4 else if name = [101] then 6 else 8
  getString k :=
    if k = 1 then some [104, 104] else if k = 4 then some [100] else if k = 6 then some [101]
    else if k = 8 then some [102] else none

/-- A directory `d`, a directory `e` in it and a file `f` in that. -/
def textRecs : List ParserEntry :=
  [⟨⟨0, 0, -1, 1, 0, 1, 0⟩, [100]⟩, ⟨⟨0, 0, 0, 2, 0, 1, 0⟩, [101]⟩, ⟨⟨5, 0, 1, -1, 0, 0, 0⟩, [102]⟩]

theorem textRecs_wellFormed : WellFormed textRecs where
  plain := by decide
  name := by simp [textRecs]
  parent := by
    intro i hi
    have hlt : i < 3 := hi
    interval_cases i
    · exact .inl rfl
    · exact .inr ⟨0, by omega, rfl, (by decide : cseIsDir 1 = true)⟩
    · exact .inr ⟨1, by omega, rfl, (by decide : cseIsDir 1 = true)⟩
  contiguous := by
    intro i j k hij hjk hk heq
    have hlt : k < 3 := hk
    -- the three records are in three directories
    have hcases : i = j ∨ j = k ∨ (i = 0 ∧ k = 2) := by omega
    rcases hcases with rfl | rfl | ⟨rfl, rfl⟩
    · rfl
    · exact heq.symm
    · simp [textRecs] at heq

theorem text_headerFor : HeaderFor textRecs ⟨8, 3, 0, [104, 104], []⟩ [104, 104] where
  noRecs := rfl
  notCounted := by simp [hdrGetSiteNoRecs]
  hostname := by simp [hostString, hdrGetPreferredHostname, hdrGetPrimaryHostname]
  hostname_ne := by simp
  length_hostname := by simp

/-- The site of these records. -/
def textSite : SiteData where
  web := false
  ip := 1
  port := 21
  file := siteFile textDb [104, 104] textRecs
  index? := none
  excerpts? := none
  past := zeroEntry

theorem textSite_made : MadeBySetupInsert textDb textSite.web textSite.file := by
  have hmade := (@setupInsert_siteFile textDb _ textRecs_wellFormed _ _ text_headerFor []).2
  have hfile := MadeBySetupInsert.anonftp textRecs_wellFormed text_headerFor
    (by simp [StringsDb.Faithful, textDb]) (by simp [StringsDb.Faithful, textDb, textRecs]) hmade
  rw [List.take_left] at hfile
  exact hfile

/-- For the file `f` there are the same hits and the same tuples. -/
theorem indexSame_textSite :
    (getResultFromStart textDb { textSite with index? := some (createSiteIndex textSite.file) }
        (fun _ => true) 8 ⟨0, 0, 0, 0, 0⟩ 100).hits.Perm
      (getResultFromStart textDb { textSite with index? := none } (fun _ => true) 8
        ⟨0, 0, 0, 0, 0⟩ 100).hits ∧
    ∀ t, t ∈ findParentsForStarts false textSite.file (some (createSiteIndex textSite.file)) 0 [8] ↔
      t ∈ findParentsForStarts false textSite.file none 0 [8] := by
  obtain ⟨hhits, htuples⟩ := @indexSame_iff textDb textSite textSite_made _
    (isSiteIndex_createSiteIndex _) (fun _ => true) 8 (by decide) ⟨0, 0, 0, 0, 0⟩
    (Or.inr ⟨rfl, rfl, rfl⟩) 100 (by decide +kernel) (by decide +kernel) false 0 [8] (by decide)
  have hnone : ∀ e ∈ textSite.file, cseIsParent e.flags = true → e.strt1 ≠ 8 := by decide
  refine ⟨hhits.mpr (.inr fun p e he hp hs => absurd hs (hnone e (List.mem_of_getElem? he) hp)),
    htuples.mpr fun e he hp hs => hnone e he hp (List.mem_singleton.mp hs)⟩

/-- The record for the directory `e` is under the number of that for `d`, which is the
place of the string `d`: with the index it is a hit, and a tuple, for `d`. -/
theorem not_indexSame : MadeBySetupInsert textDb textSite.web textSite.file ∧
    ¬ (getResultFromStart textDb { textSite with index? := some (createSiteIndex textSite.file) }
        (fun _ => true) 4 ⟨0, 0, 0, 0, 0⟩ 100).hits.Perm
      (getResultFromStart textDb { textSite with index? := none } (fun _ => true) 4
        ⟨0, 0, 0, 0, 0⟩ 100).hits ∧
    ¬ ∀ t, t ∈ findParentsForStarts false textSite.file (some (createSiteIndex textSite.file)) 0
      [4] ↔
      t ∈ findParentsForStarts false textSite.file none 0 [4] := by
  refine ⟨textSite_made, fun hperm => ?_, fun htuples => ?_⟩
  · have hlen := hperm.length_eq
    revert hlen
    decide +kernel
  · have hnot := (htuples ⟨0, 6, 6⟩).mp (by decide +kernel)
    revert hnot
    decide +kernel

end Archie
