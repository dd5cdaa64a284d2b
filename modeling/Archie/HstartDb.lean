/-
Bringing the start database up to date with a new site file
(`anonftp/update/insert_anonftp.c`: `intcompare`, `unique`,
`insert_compare_hstart_db`).

The starts of the two files are sorted, freed of repetitions and merged: a start
of the new file only gets the host, a start of the old file only loses it.

* `compareLoop_spec` — the merge of two ascending lists moves every start to the
  membership that the new list says.
* `insertCompareHstartDb_spec` — the lists that hold the host change from the
  starts of the old file to those of the new one, and no other host is touched.
-/
import Archie.SiteFile
import Archie.StartDb
import Archie.Unique

namespace Archie

/-! ### The starts of a site file -/

/-- `intcompare`. -/
def intcompare (i j : ℤ) : ℤ := sint (ulong (i - j))

/-- The starts that `insert_compare_hstart_db` takes from a site file. -/
def startsOf (fp : List SiteEntry) : List ℤ :=
  (fp.filter fun e => cseHasString e.flags).map SiteEntry.strt1

/-- `unique` of `insert_anonftp.c`.  Of an empty array it makes one of size 1, with
a cell that was never written; there is no result then. -/
def unique (list : List ℤ) : Option (List ℤ) :=
  if list = [] then none
  else some (uniqueKept (fun a b => a == b) (fun a b => decide (a < b)) list)

/-- The sorted starts of a site file. -/
def siteStarts (fp : List SiteEntry) : Option (List ℤ) := unique (qsort intcompare (startsOf fp))

/-- A start is an offset in the strings file. -/
def IsStart (s : ℤ) : Prop := 0 ≤ s ∧ s < 2147483648

/-- The starts of a site file are offsets. -/
def StartsValid (fp : List SiteEntry) : Prop :=
  ∀ e ∈ fp, cseHasString e.flags = true → IsStart e.strt1

/-- A start occurs in a record of the site file. -/
def OccursIn (s : ℤ) (fp : List SiteEntry) : Prop :=
  ∃ e ∈ fp, cseHasString e.flags = true ∧ e.strt1 = s

theorem mem_startsOf {s : ℤ} {fp : List SiteEntry} : s ∈ startsOf fp ↔ OccursIn s fp := by
  simp only [startsOf, OccursIn, List.mem_map, List.mem_filter, and_assoc]

theorem intcompare_eq {i j : ℤ} (hi : IsStart i) (hj : IsStart j) : intcompare i j = i - j := by
  obtain ⟨hi0, hi1⟩ := hi
  obtain ⟨hj0, hj1⟩ := hj
  exact sint_ulong ⟨by omega, by omega⟩

/-- The sorted starts: ascending, and those of the file. -/
theorem siteStarts_spec {fp : List SiteEntry} (hvalid : StartsValid fp)
    (hne : ∃ e ∈ fp, cseHasString e.flags = true) :
    ∃ ar, siteStarts fp = some ar ∧ ar.Pairwise (· < ·) ∧ ∀ s, s ∈ ar ↔ OccursIn s fp := by
  have hstart : ∀ s ∈ startsOf fp, IsStart s := by
    intro s hs
    obtain ⟨e, he, hstr, rfl⟩ := mem_startsOf.mp hs
    exact hvalid e he hstr
  have hcmp : ∀ a ∈ startsOf fp, ∀ b ∈ startsOf fp, intcompare a b ≤ 0 ↔ id a ≤ id b := by
    intro a ha b hb
    rw [intcompare_eq (hstart a ha) (hstart b hb), id, id]
    omega
  have hsorted := pairwise_qsort id hcmp
  obtain ⟨x, l, hxl⟩ : ∃ x l, qsort intcompare (startsOf fp) = x :: l := by
    refine List.exists_cons_of_ne_nil ?_
    intro hnil
    obtain ⟨e, he, hstr⟩ := hne
    have hmem := mem_startsOf.mpr ⟨e, he, hstr, rfl⟩
    rw [qsort_eq_nil.mp hnil] at hmem
    simp at hmem
  rw [hxl] at hsorted
  have hord : (x :: l).Pairwise fun a b => a = b ∨ (decide (a < b) = true) := by
    refine hsorted.imp ?_
    intro a b hab
    have hab' : a ≤ b := hab
    rw [decide_eq_true_iff]
    omega
  refine ⟨squeeze x l, ?_, ?_, ?_⟩
  · rw [siteStarts, unique, hxl, if_neg (by simp), uniqueKept_cons (by simp) hord]
  · refine pairwise_squeeze (fun (a b c : ℤ) (hab : a < b) (hbc : b ≤ c) => lt_of_lt_of_le hab hbc)
      ?_ hsorted
    intro a b hab hne
    exact lt_of_le_of_ne hab hne
  · intro s
    rw [mem_squeeze, ← List.mem_cons, ← hxl, mem_qsort, mem_startsOf]

/-! ### The merge -/

variable {σ : Type} (dbm : Dbm σ)

/-- A loop that makes one kind of update for each start that is left. -/
def updateAll (cmp : ℤ → ℤ → ℤ) (hin : ℤ) (what : SiteOp) : List ℤ → StartDbs σ →
    Option (StartDbs σ)
  | [], st => some st
  | s :: ar, st => do
    let st ← updateStartDbs dbm cmp s hin what st
    updateAll cmp hin what ar st

/-- The loops of `insert_compare_hstart_db` over the starts of the new file,
`ar1`, and of the old file, `ar2`. -/
def compareLoop (cmp : ℤ → ℤ → ℤ) (hin : ℤ) : List ℤ → List ℤ → StartDbs σ → Option (StartDbs σ)
  | i :: ar1, k :: ar2, st =>
    if i < k then do
      let st ← updateStartDbs dbm cmp i hin .addSite st
      compareLoop cmp hin ar1 (k :: ar2) st
    else if i > k then do
      let st ← updateStartDbs dbm cmp k hin .deleteSite st
      compareLoop cmp hin (i :: ar1) ar2 st
    else compareLoop cmp hin ar1 ar2 st
  | ar1, [], st => updateAll dbm cmp hin .addSite ar1 st
  | [], ar2, st => updateAll dbm cmp hin .deleteSite ar2 st
termination_by ar1 ar2 => ar1.length + ar2.length

/-- The fields of the header that say which host is meant. -/
structure SiteHeader where
  primaryIpaddr : ℕ
  primaryHostname : List UInt8
  deriving DecidableEq, Repr

/-- `insert_compare_hstart_db`; `none` is `ERROR`.  The index `hin` of the host is
not set before it is looked up. -/
def insertCompareHstartDb (table : List HostTableEntry) (cmp : ℤ → ℤ → ℤ) (unset : ℤ)
    (fp1 fp2 : List SiteEntry) (header : SiteHeader) (port : ℤ) (st : StartDbs σ) :
    Option (StartDbs σ) := do
  let ar1 ← siteStarts fp1
  let ar2 ← siteStarts fp2
  let hin ← hostTableFind table header.primaryIpaddr header.primaryHostname port unset
  compareLoop dbm cmp hin ar1 ar2 st

/-! ### The memberships after the merge -/

variable {dbm} {cmp : ℤ → ℤ → ℤ} {hin : ℤ}

/-- The database after the starts with a property were given the host or lost it. -/
structure UpdatedAll (dbm : Dbm σ) (hin : ℤ) (P member : ℤ → Prop) (st st' : StartDbs σ) :
    Prop where
  startDb : StartDb dbm st'.db
  changed : ∀ s, P s → (hin ∈ getIndexStartDbs dbm s st' ↔ member s)
  kept : ∀ s h, (h = hin → ¬ P s) →
    (h ∈ getIndexStartDbs dbm s st' ↔ h ∈ getIndexStartDbs dbm s st)

theorem updatedAll_none {st : StartDbs σ} (hdb : StartDb dbm st.db) {P member : ℤ → Prop}
    (hP : ∀ s, ¬ P s) : UpdatedAll dbm hin P member st st :=
  ⟨hdb, fun s hs => absurd hs (hP s), fun _ _ _ => Iff.rfl⟩

theorem UpdatedAll.congr {st st' : StartDbs σ} {P Q member member' : ℤ → Prop}
    (h : UpdatedAll dbm hin P member st st') (hQ : ∀ s, Q s ↔ P s)
    (hmember : ∀ s, Q s → (member' s ↔ member s)) : UpdatedAll dbm hin Q member' st st' := by
  refine ⟨h.startDb, ?_, ?_⟩
  · intro s hs
    rw [hmember s hs]
    exact h.changed s ((hQ s).mp hs)
  · intro s k hk
    exact h.kept s k fun he hs => hk he ((hQ s).mpr hs)

/-- One update, and then those of the other starts. -/
theorem UpdatedAll.cons {st st₁ st' : StartDbs σ} {x : ℤ} {p : Prop} {P Q member : ℤ → Prop}
    (hone : Updated dbm x hin p st st₁) (hrest : UpdatedAll dbm hin P member st₁ st')
    (hx : member x ↔ p) (hnot : ¬ P x) (hQ : ∀ s, Q s ↔ s = x ∨ P s) :
    UpdatedAll dbm hin Q member st st' := by
  refine ⟨hrest.startDb, ?_, ?_⟩
  · intro s hs
    rcases (hQ s).mp hs with rfl | hP
    · -- the start of this update is none of the others
      rw [hrest.kept s hin (fun _ => hnot), hone.2, if_pos ⟨rfl, rfl⟩, hx]
    · exact hrest.changed s hP
  · intro s h hk
    have hs : h = hin → ¬ P s := fun he hP => hk he ((hQ s).mpr (.inr hP))
    rw [hrest.kept s h hs, hone.2, if_neg]
    rintro ⟨rfl, he⟩
    exact hk he ((hQ s).mpr (.inl rfl))

/-- A loop over the starts that are left. -/
theorem updateAll_spec (hhin : 0 ≤ hin ∧ hin < 32768) {what : SiteOp} (member : ℤ → Prop)
    {ar : List ℤ} (hord : ar.Pairwise (· < ·)) (hmember : ∀ s ∈ ar, (member s ↔ what = .addSite))
    {st st' : StartDbs σ} (hdb : StartDb dbm st.db)
    (h : updateAll dbm cmp hin what ar st = some st') :
    UpdatedAll dbm hin (· ∈ ar) member st st' := by
  induction ar generalizing st with
  | nil =>
    obtain rfl := Option.some.inj h
    exact updatedAll_none hdb (by simp)
  | cons x ar ih =>
    obtain ⟨hx, hord'⟩ := List.pairwise_cons.mp hord
    obtain ⟨st₁, hst₁, hrest⟩ := Option.bind_eq_some_iff.mp h
    have hone := updateStartDbs_spec hdb hhin hst₁
    have hall := ih hord' (fun s hs => hmember s (List.mem_cons_of_mem x hs)) hone.1 hrest
    refine UpdatedAll.cons hone hall (hmember x (by simp)) ?_ (fun s => List.mem_cons)
    intro hmem
    exact lt_irrefl x (hx x hmem)

theorem not_mem_of_lt {x : ℤ} {ar : List ℤ} (h : ∀ y ∈ ar, x < y) : x ∉ ar :=
  fun hmem => lt_irrefl x (h x hmem)

/-- **The merge.**  Of two ascending lists, the starts of one of them only change
to the membership that the first list says. -/
theorem compareLoop_spec (hhin : 0 ≤ hin ∧ hin < 32768) {ar1 ar2 : List ℤ} {st st' : StartDbs σ}
    (h1 : ar1.Pairwise (· < ·)) (h2 : ar2.Pairwise (· < ·)) (hdb : StartDb dbm st.db)
    (h : compareLoop dbm cmp hin ar1 ar2 st = some st') :
    UpdatedAll dbm hin (fun s => ¬ (s ∈ ar1 ↔ s ∈ ar2)) (· ∈ ar1) st st' := by
  induction ar1, ar2, st using compareLoop.induct with
  | case1 i ar1 k ar2 st hik ih =>
    -- the new file has a start that the old one has not
    rw [compareLoop, if_pos hik] at h
    obtain ⟨st₁, hst₁, hrest⟩ := Option.bind_eq_some_iff.mp h
    obtain ⟨hi, h1'⟩ := List.pairwise_cons.mp h1
    have hi1 : i ∉ ar1 := not_mem_of_lt hi
    have hi2 : i ∉ k :: ar2 := by
      refine not_mem_of_lt ?_
      intro y hy
      rcases List.mem_cons.mp hy with rfl | hy
      · exact hik
      · exact hik.trans ((List.pairwise_cons.mp h2).1 y hy)
    have hone := updateStartDbs_spec hdb hhin hst₁
    have hall := ih st₁ h1' h2 hone.1 hrest
    have hne : ∀ s, ¬ (s ∈ ar1 ↔ s ∈ k :: ar2) → s ≠ i := by
      rintro s hs rfl
      exact hs (iff_of_false hi1 hi2)
    have hall' := hall.congr (fun s => Iff.rfl) (fun s hs => show s ∈ i :: ar1 ↔ s ∈ ar1 by
      simp [hne s hs])
    refine UpdatedAll.cons hone hall' (by simp) (fun hP => hne i hP rfl) ?_
    intro s
    by_cases hs : s = i
    · subst hs
      simp [hi2]
    · rw [List.mem_cons, or_iff_right hs]
      exact (or_iff_right hs).symm
  | case2 i ar1 k ar2 st hik hki ih =>
    -- the old file has a start that the new one has not
    rw [compareLoop, if_neg hik, if_pos hki] at h
    obtain ⟨st₁, hst₁, hrest⟩ := Option.bind_eq_some_iff.mp h
    obtain ⟨hk, h2'⟩ := List.pairwise_cons.mp h2
    have hk2 : k ∉ ar2 := not_mem_of_lt hk
    have hk1 : k ∉ i :: ar1 := by
      refine not_mem_of_lt ?_
      intro y hy
      rcases List.mem_cons.mp hy with rfl | hy
      · exact hki
      · exact lt_trans hki ((List.pairwise_cons.mp h1).1 y hy)
    have hone := updateStartDbs_spec hdb hhin hst₁
    have hall := ih st₁ h1 h2' hone.1 hrest
    refine UpdatedAll.cons hone hall (by simpa using hk1) ?_ ?_
    · intro hP
      exact hP (iff_of_false hk1 hk2)
    · intro s
      by_cases hs : s = k
      · subst hs
        simp only [List.mem_cons, true_or, iff_true, true_or, iff_true]
        simpa using hk1
      · rw [List.mem_cons (a := s) (b := k), or_iff_right hs]
        exact (or_iff_right hs).symm
  | case3 i ar1 k ar2 st hik hki ih =>
    -- a start of both files
    obtain rfl : i = k := by omega
    rw [compareLoop, if_neg hik, if_neg hki] at h
    obtain ⟨hi, h1'⟩ := List.pairwise_cons.mp h1
    obtain ⟨hk, h2'⟩ := List.pairwise_cons.mp h2
    have hall := ih h1' h2' hdb h
    have hP : ∀ s, ¬ (s ∈ i :: ar1 ↔ s ∈ i :: ar2) ↔ ¬ (s ∈ ar1 ↔ s ∈ ar2) := by
      intro s
      by_cases hs : s = i
      · subst hs
        simp [not_mem_of_lt hi, not_mem_of_lt hk]
      · simp [hs]
    refine hall.congr hP ?_
    intro s hs
    have hsi : s ≠ i := by
      rintro rfl
      exact hs (by simp)
    simp [hsi]
  | case4 ar1 st =>
    rw [compareLoop] at h
    have hall := updateAll_spec hhin (· ∈ ar1) h1 (fun s hs => by simpa using hs) hdb h
    exact hall.congr (fun s => by simp) (fun s _ => Iff.rfl)
  | case5 ar2 st hne =>
    rw [compareLoop] at h
    · have hall := updateAll_spec hhin (fun _ => False) h2 (fun s _ => by simp) hdb h
      exact hall.congr (fun s => by simp) (fun s _ => by simp)
    · exact hne

/-! ### `insert_compare_hstart_db` -/

/-- **The start database follows the site files.**  In a database whose lists hold
the host for the starts of the old file, a successful `insert_compare_hstart_db`
makes them hold it for the starts of the new file, and every other host stays
in the same lists. -/
theorem insertCompareHstartDb_spec (dbm : Dbm σ) {table : List HostTableEntry}
    (htable : table.length ≤ 32768) (cmp : ℤ → ℤ → ℤ) (unset : ℤ) {fp1 fp2 : List SiteEntry}
    (hne1 : ∃ e ∈ fp1, cseHasString e.flags = true) (hne2 : ∃ e ∈ fp2, cseHasString e.flags = true)
    (hvalid1 : StartsValid fp1) (hvalid2 : StartsValid fp2) {header : SiteHeader} {port hin : ℤ}
    (hfind : hostTableFind table header.primaryIpaddr header.primaryHostname port unset = some hin)
    {st st' : StartDbs σ} (hdb : StartDb dbm st.db)
    (hold : ∀ s, hin ∈ getIndexStartDbs dbm s st ↔ OccursIn s fp2)
    (hrun : insertCompareHstartDb dbm table cmp unset fp1 fp2 header port st = some st') :
    StartDb dbm st'.db ∧ (∀ s, hin ∈ getIndexStartDbs dbm s st' ↔ OccursIn s fp1) ∧
      ∀ s h, h ≠ hin → (h ∈ getIndexStartDbs dbm s st' ↔ h ∈ getIndexStartDbs dbm s st) := by
  obtain ⟨ar1, har1, hord1, hmem1⟩ := siteStarts_spec hvalid1 hne1
  obtain ⟨ar2, har2, hord2, hmem2⟩ := siteStarts_spec hvalid2 hne2
  have hhin : 0 ≤ hin ∧ hin < 32768 := by
    have hlt := hostTableFind_lt hfind
    omega
  have hloop : compareLoop dbm cmp hin ar1 ar2 st = some st' := by
    simpa [insertCompareHstartDb, har1, har2, hfind] using hrun
  have hall := compareLoop_spec hhin hord1 hord2 hdb hloop
  refine ⟨hall.startDb, ?_, fun s h hne => hall.kept s h fun he => absurd he hne⟩
  intro s
  by_cases hs : s ∈ ar1 ↔ s ∈ ar2
  · -- the merge passes by this start
    rw [hall.kept s hin (fun _ hP => hP hs), hold, ← hmem2, ← hs, hmem1]
  · rw [hall.changed s hs, hmem1]

/-! ### An update -/

/-- The old file has the starts 3 and 7, the new one 5 and twice 7. -/
def sampleOldFile : List SiteEntry := [⟨4, -1, .prntEntry (-1)⟩, ⟨1, 7, .entry 0 0 0 0⟩,
  ⟨0, 3, .entry 0 0 0 0⟩]

def sampleNewFile : List SiteEntry := [⟨4, -1, .prntEntry (-1)⟩, ⟨0, 7, .entry 0 0 0 0⟩,
  ⟨1, 5, .entry 0 0 0 0⟩, ⟨0, 7, .entry 0 0 0 0⟩]

/-- Host 1 has the strings of the old file, host 0 one of them. -/
def sampleStartDbs : StartDbs (ℤ → Option (List ℤ)) where
  indexList := fun _ => 0
  db := fun s => if s = 3 then some [1, -1] else if s = 7 then some [0, 1, -1] else none

def sampleHosts : List HostTableEntry := [⟨1, [97], 21⟩, ⟨2, [98], 21⟩]

theorem startDb_sample : StartDb mapDbm sampleStartDbs.db := by
  intro s entry h
  simp only [mapDbm, sampleStartDbs] at h
  split_ifs at h
  · obtain rfl := Option.some.inj h
    exact ⟨[1], rfl, by simp, by simp, by simp⟩
  · obtain rfl := Option.some.inj h
    exact ⟨[0, 1], rfl, by simp, by simp, by simp⟩

theorem mem_sample (s : ℤ) :
    1 ∈ getIndexStartDbs mapDbm s sampleStartDbs ↔ OccursIn s sampleOldFile := by
  have hocc : OccursIn s sampleOldFile ↔ s = 7 ∨ s = 3 := by
    rw [← mem_startsOf, show startsOf sampleOldFile = [7, 3] from rfl]
    simp
  rw [hocc]
  by_cases h3 : s = 3
  · subst h3
    simpa using show 1 ∈ getIndexStartDbs mapDbm 3 sampleStartDbs by decide
  · by_cases h7 : s = 7
    · subst h7
      simpa using show 1 ∈ getIndexStartDbs mapDbm 7 sampleStartDbs by decide
    · rw [getIndexStartDbs_none (by simp [mapDbm, sampleStartDbs, h3, h7])]
      simp [h3, h7]

/-- The update, with the starts sorted and freed of repetitions. -/
theorem sample_runs : ∃ st', insertCompareHstartDb mapDbm sampleHosts (fun _ _ => 0) 0
    sampleNewFile sampleOldFile ⟨2, [98]⟩ 21 sampleStartDbs = some st' := by
  rw [← Option.isSome_iff_exists]
  have h1 : siteStarts sampleNewFile = some [5, 7] := by decide
  have h2 : siteStarts sampleOldFile = some [3, 7] := by decide
  have hfind : hostTableFind sampleHosts 2 [98] 21 0 = some 1 := by decide
  simp only [insertCompareHstartDb, h1, h2, hfind, Option.bind_eq_bind, Option.bind_some,
    compareLoop]
  rfl

theorem insertCompareHstartDb_sample : ∃ st',
    insertCompareHstartDb mapDbm sampleHosts (fun _ _ => 0) 0 sampleNewFile sampleOldFile
      ⟨2, [98]⟩ 21
      sampleStartDbs = some st' ∧
    StartDb mapDbm st'.db ∧ (∀ s, 1 ∈ getIndexStartDbs mapDbm s st' ↔ OccursIn s sampleNewFile) ∧
    ∀ s h, h ≠ 1 →
      (h ∈ getIndexStartDbs mapDbm s st' ↔ h ∈ getIndexStartDbs mapDbm s sampleStartDbs) := by
  obtain ⟨st', hst'⟩ := sample_runs
  refine ⟨st', hst', ?_⟩
  exact insertCompareHstartDb_spec mapDbm
    (show sampleHosts.length ≤ 32768 by simp [sampleHosts]) _ _
    ⟨⟨0, 7, .entry 0 0 0 0⟩, by simp [sampleNewFile], rfl⟩
    ⟨⟨1, 7, .entry 0 0 0 0⟩, by simp [sampleOldFile], rfl⟩
    (by
      simp [StartsValid, sampleNewFile, IsStart, cseHasString, cseIsDir, cseIsFile, cseIsLink,
        cseIsDoc, cseIsKey])
    (by
      simp [StartsValid, sampleOldFile, IsStart, cseHasString, cseIsDir, cseIsFile, cseIsLink,
        cseIsDoc, cseIsKey])
    (show hostTableFind sampleHosts 2 [98] 21 0 = some 1 by decide) startDb_sample mem_sample hst'

end Archie
