/-
The lines of the catalogs file, read one after the other.

* `CatalogPending`, `Buffered` — what is known of the state between two lines.
* `CatalogPending.ended`, `Buffered.continued` — one physical line.
* `readCatalogsList_eq` — the whole file.
* `Buffered.adds_front` — the name that a text in front gives to an entry.
-/
import Archie.Catalogs

namespace Archie

/-! ### Reading -/

theorem strBefore_isPrefix {pat s p : List UInt8} (h : strBefore pat s = some p) : p <+: s := by
  induction s generalizing p with
  | nil =>
    rw [strBefore] at h
    split_ifs at h with hpat
    obtain rfl := Option.some.inj h
    exact List.nil_prefix
  | cons c s ih =>
    rw [strBefore] at h
    split_ifs at h with hpat
    · obtain rfl := Option.some.inj h
      exact List.nil_prefix
    · obtain ⟨p', hp', rfl⟩ := Option.map_eq_some_iff.mp h
      exact List.cons_prefix_cons.mpr ⟨rfl, ih hp'⟩

/-- A text in front has no mark, if it has no `\` or no line feed, and one does not begin the rest. -/
theorem strBefore_append {kept s : List UInt8}
    (h : 92 ∉ kept ∨ (10 ∉ kept ∧ s.head? ≠ some 10)) :
    strBefore continuationLine (kept ++ s) = (strBefore continuationLine s).map (kept ++ ·) := by
  induction kept with
  | nil =>
    show strBefore continuationLine s = (strBefore continuationLine s).map id
    rw [Option.map_id_fun, id]
  | cons c kept ih =>
    have hmark : ¬ continuationLine <+: c :: (kept ++ s) := by
      rintro ⟨t, ht⟩
      obtain ⟨hc, hline⟩ := List.cons.inj (show 92 :: 10 :: t = c :: (kept ++ s) from ht)
      rcases h with h | ⟨hkept, hhead⟩
      · exact h (hc ▸ List.mem_cons_self)
      · cases kept with
        | nil =>
          apply hhead
          rw [show s = 10 :: t from hline.symm]
          rfl
        | cons d kept =>
          have hd : d = 10 := (List.cons.inj hline).1.symm
          exact hkept (List.mem_cons_of_mem c (hd ▸ List.mem_cons_self))
    have hrest : 92 ∉ kept ∨ (10 ∉ kept ∧ s.head? ≠ some 10) := by
      rcases h with h | ⟨hkept, hhead⟩
      · exact Or.inl fun hc => h (List.mem_cons_of_mem c hc)
      · exact Or.inr ⟨fun hc => hkept (List.mem_cons_of_mem c hc), hhead⟩
    rw [List.cons_append, strBefore, if_neg hmark, ih hrest]
    cases strBefore continuationLine s <;> rfl

theorem scanWords_blank {k : List UInt8} (hk : ∀ c ∈ k, isSpace c = true) (n : ℕ) (s : List UInt8) :
    scanWords n (k ++ s) = scanWords n s := by
  cases n with
  | zero => rfl
  | succ n =>
    have hscan : scanWord (k ++ s) = scanWord s := by
      induction k with
      | nil => rfl
      | cons c k ih =>
        rw [List.cons_append, scanWord_space (hk c List.mem_cons_self),
          ih fun d hd => hk d (List.mem_cons_of_mem c hd)]
    rw [scanWords, scanWords, hscan]

theorem scanWord_ne_nil {s w s' : List UInt8} (h : scanWord s = some (w, s')) : w ≠ [] := by
  simp only [scanWord] at h
  split_ifs at h with hs
  obtain ⟨c, t, ht⟩ := List.exists_cons_of_ne_nil hs
  have hc : isSpace c = false := by
    have hhead := List.head_dropWhile_not isSpace hs
    simpa only [ht, List.head_cons] using hhead
  have hw : (s.dropWhile isSpace).takeWhile (fun c => !isSpace c) = w :=
    (Prod.mk.inj (Option.some.inj h)).1
  rw [← hw, ht, List.takeWhile_cons_of_pos (by rw [hc]; rfl)]
  exact List.cons_ne_nil c _

theorem scanWords_ne_nil {n : ℕ} {s w : List UInt8} (h : w ∈ scanWords n s) : w ≠ [] := by
  induction n generalizing s with
  | zero => exact absurd h List.not_mem_nil
  | succ n ih =>
    rw [scanWords] at h
    rcases hw : scanWord s with _ | ⟨v, s'⟩
    · rw [hw] at h
      exact absurd h List.not_mem_nil
    · rw [hw] at h
      rcases List.mem_cons.mp h with rfl | h
      · exact scanWord_ne_nil hw
      · exact ih h

theorem usesAccess_of_usesDir {typestring accesstr : List UInt8}
    (h : usesDir typestring accesstr = true) : usesAccess typestring = true := by
  rw [usesDir] at h
  rw [usesAccess, Bool.or_assoc]
  by_cases harchie : isArchie typestring = true
  · rw [harchie, Bool.true_or]
  · rw [if_neg harchie] at h
    rw [h, Bool.or_true]

/-- The access method and the directory make no difference where they are not used, nor does the
slot. -/
theorem makeEntry_eq {archieHome masterDir name db catName typestring acc acc' dir dir' : List UInt8}
    (hacc : usesAccess typestring = true → acc = acc')
    (hdir : usesDir typestring acc = true → dir = dir')
    (hdb : usesDir typestring acc = false → db = []) :
    makeEntry archieHome masterDir { CatalogEntry.zero with catName := name, catDb := db } catName
        typestring acc dir =
      makeEntry archieHome masterDir .zero catName typestring acc' dir' := by
  by_cases hused : usesAccess typestring = true
  · obtain rfl := hacc hused
    cases hwritten : usesDir typestring acc with
    | true =>
      obtain rfl := hdir hwritten
      rw [usesDir] at hwritten
      by_cases harchie : isArchie typestring = true
      · rw [if_pos harchie] at hwritten
        obtain ⟨access, haccess⟩ := Option.isSome_iff_exists.mp hwritten
        simp only [makeEntry, if_pos harchie, haccess, CatalogEntry.zero]
      · rw [usesAccess, Bool.or_assoc, Bool.or_eq_true, or_iff_right harchie, Bool.or_eq_true] at hused
        by_cases htemplate : isTemplate typestring = true
        · simp only [makeEntry, if_neg harchie, if_pos htemplate, CatalogEntry.zero]
        · have hfree := hused.resolve_left htemplate
          simp only [makeEntry, if_neg harchie, if_neg htemplate, if_pos hfree, CatalogEntry.zero]
    | false =>
      obtain rfl := hdb hwritten
      rw [usesDir] at hwritten
      by_cases harchie : isArchie typestring = true
      · rw [if_pos harchie] at hwritten
        have haccess : archieAccess acc = none :=
          Option.isNone_iff_eq_none.mp (Option.isSome_eq_false_iff.mp hwritten)
        simp only [makeEntry, if_pos harchie, haccess, CatalogEntry.zero]
      · rw [if_neg harchie, Bool.or_eq_false_iff] at hwritten
        simp only [usesAccess, Bool.or_eq_true, harchie, hwritten.1, hwritten.2] at hused
        exact absurd hused (by simp)
  · simp only [usesAccess, Bool.or_eq_true, not_or] at hused
    obtain ⟨⟨harchie, htemplate⟩, hfree⟩ := hused
    have hwritten : usesDir typestring acc = false := by
      simp only [usesDir, harchie, htemplate, hfree]
      rfl
    obtain rfl := hdb hwritten
    simp only [makeEntry, if_neg harchie, if_neg htemplate, if_neg hfree, CatalogEntry.zero]

/-! ### A line -/

theorem lastMaster_of_none {ls : List LogicalLine} (h : ∀ l ∈ ls, l.isDirectory = false)
    (mdir : List UInt8) : lastMaster mdir ls = mdir := by
  induction ls with
  | nil => rfl
  | cons l ls ih =>
    rw [lastMaster, List.foldl_cons, h l List.mem_cons_self]
    exact ih fun l' hl' => h l' (List.mem_cons_of_mem l hl')

theorem lastHost_of_none {ls : List LogicalLine} (h : ∀ l ∈ ls, l.isDirectory = false)
    (hdir : List UInt8) : lastHost hdir ls = hdir := by
  induction ls with
  | nil => rfl
  | cons l ls ih =>
    rw [lastHost, List.foldl_cons, h l List.mem_cons_self]
    exact ih fun l' hl' => h l' (List.mem_cons_of_mem l hl')

/-- What is known of the state when the lines `ls` are left, but for `input_buf`.  `mdir` and `hdir`
are the directories that the whole file gives. -/
structure CatalogPending (env : CatalogEnv) (mdir hdir : List UInt8) (dirs : Bool)
    (ls : List LogicalLine) (st : CatalogState) : Prop where
  slot : ∃ name db, st.slot = { CatalogEntry.zero with catName := name, catDb := db } ∧
    (dirs = false → db = [])
  master : lastMaster st.mdir ls = mdir
  host : lastHost st.hdir ls = hdir
  past : st.pastMasterHost = true →
    st.masterDir = masterDbDir env mdir ∧ ∀ l ∈ ls, l.isDirectory = false
  directoriesFirst : ls.Pairwise fun l l' => l.isDatabase → l'.isDirectory = false
  count : st.entries.length + (ls.filter LogicalLine.isDatabase).length < env.maxCat

section

variable {env : CatalogEnv} {mdir hdir : List UInt8} {dirs : Bool} {l : LogicalLine}
  {ls : List LogicalLine} {st : CatalogState}

theorem LogicalLine.isDatabase_eq_false_of_isDirectory (h : l.isDirectory = true) :
    l.isDatabase = false := by
  rw [isDirectory, Bool.and_eq_true] at h
  rw [isDatabase, h.2]
  simp

/-- A line that is no database and no directory. -/
theorem CatalogPending.skip (h : CatalogPending env mdir hdir dirs (l :: ls) st) (hdb : l.isDatabase = false)
    (hdirectory : l.isDirectory = false) : CatalogPending env mdir hdir dirs ls st where
  slot := h.slot
  master := by
    have hm := h.master
    rwa [lastMaster, List.foldl_cons, hdirectory] at hm
  host := by
    have hh := h.host
    rwa [lastHost, List.foldl_cons, hdirectory] at hh
  past := fun hp => ⟨(h.past hp).1, fun l' hl' => (h.past hp).2 l' (List.mem_cons_of_mem l hl')⟩
  directoriesFirst := h.directoriesFirst.of_cons
  count := by
    have hc := h.count
    rwa [List.filter_cons_of_neg (by rw [hdb]; exact Bool.false_ne_true)] at hc

/-- A directory line is entered in the slot, which it leaves. -/
theorem CatalogPending.addLine_directory (h : CatalogPending env mdir hdir dirs (l :: ls) st)
    (hl : l.isDirectory = true) (habs : l.typestring.head? = some 47) :
    ∃ st', st.addLine env l.catName l.typestring = some st' ∧ st'.front = st.front ∧
      st'.entries = st.entries ∧ CatalogPending env mdir hdir true ls st' := by
  have hpast : st.pastMasterHost = false := by
    rw [← Bool.not_eq_true]
    intro hp
    have hno := (h.past hp).2 l List.mem_cons_self
    rw [hl] at hno
    cases hno
  have hname : (isMasterLine l.catName || isHostLine l.catName) = true := by
    rw [LogicalLine.isDirectory, Bool.and_eq_true] at hl
    exact hl.2
  have hdb : l.isDatabase = false := LogicalLine.isDatabase_eq_false_of_isDirectory hl
  have hrest := h.directoriesFirst.of_cons
  have hcount := h.count
  rw [List.filter_cons_of_neg (by rw [hdb]; exact Bool.false_ne_true)] at hcount
  have hm := h.master
  have hh := h.host
  rw [lastMaster, List.foldl_cons, hl] at hm
  rw [lastHost, List.foldl_cons, hl] at hh
  obtain ⟨name, db, hslot, -⟩ := h.slot
  have hadd : st.addLine env l.catName l.typestring =
      some (if isMasterLine l.catName then
        { st with
          slot := { st.slot with catName := l.catName, catDb := l.typestring }
          mdir := l.typestring }
      else
        { st with
          slot := { st.slot with catName := l.catName, catDb := l.typestring }
          hdir := l.typestring }) := by
    rw [CatalogState.addLine, if_pos hname, hpast, habs]
    rfl
  cases hmaster : isMasterLine l.catName with
  | true =>
    rw [hmaster] at hadd hm hh
    refine ⟨_, hadd, rfl, rfl, ⟨⟨l.catName, l.typestring, ?_, fun hd => ?_⟩, hm, hh, ?_, hrest, hcount⟩⟩
    · simp only [if_true, hslot]
    · cases hd
    · intro hp
      exact absurd (hpast.symm.trans hp) Bool.false_ne_true
  | false =>
    rw [hmaster] at hadd hm hh
    refine ⟨_, hadd, rfl, rfl, ⟨⟨l.catName, l.typestring, ?_, fun hd => ?_⟩, hm, hh, ?_, hrest, hcount⟩⟩
    · simp only [Bool.false_eq_true, if_false, hslot]
    · cases hd
    · intro hp
      exact absurd (hpast.symm.trans hp) Bool.false_ne_true

/-- The directories are those that the whole file gives. -/
theorem CatalogPending.setDirs_eq (h : CatalogPending env mdir hdir dirs (l :: ls) st) (hl : l.isDatabase = true)
    (hisdir : env.isDir (masterDbDir env mdir) = true ∧
      env.isDir (hostDbDir (masterDbDir env mdir) hdir) = true) :
    st.setDirs env = some { st with pastMasterHost := true, masterDir := masterDbDir env mdir } := by
  have hnone : ∀ l' ∈ l :: ls, l'.isDirectory = false := by
    intro l' hl'
    rcases List.mem_cons.mp hl' with rfl | hl'
    · rw [← Bool.not_eq_true]
      intro hd
      rw [LogicalLine.isDatabase_eq_false_of_isDirectory hd] at hl
      cases hl
    · exact List.rel_of_pairwise_cons h.directoriesFirst hl' hl
  rw [CatalogState.setDirs]
  cases hpast : st.pastMasterHost with
  | true =>
    rw [if_pos rfl, ← (h.past hpast).1]
    exact congrArg some (congrArg (fun b => { st with pastMasterHost := b }) hpast)
  | false =>
    have hm := h.master
    have hh := h.host
    rw [lastMaster_of_none hnone] at hm
    rw [lastHost_of_none hnone] at hh
    simp only [hm, hh, hisdir.1, hisdir.2, Bool.and_self, if_true, Bool.false_eq_true, if_false]

/-- A database line is entered as it is alone. -/
theorem CatalogPending.addLine_database (h : CatalogPending env mdir hdir dirs (l :: ls) st)
    (hl : l.isDatabase = true) (hfits : DatabaseFits env.archieHome (masterDbDir env mdir) dirs l)
    (hisdir : env.isDir (masterDbDir env mdir) = true ∧
      env.isDir (hostDbDir (masterDbDir env mdir) hdir) = true)
    (hacc : usesAccess l.typestring = true → st.accesstr = l.accesstr ∧ l.accesstr ≠ [])
    (hdirs : usesDir l.typestring st.accesstr = true → st.dirstring = l.dirstring) :
    ∃ st', st.addLine env l.catName l.typestring = some st' ∧ st'.front = st.front ∧
      st'.entries = st.entries ++ [ownEntry env.archieHome (masterDbDir env mdir) l] ∧
      CatalogPending env mdir hdir false ls st' := by
  obtain ⟨name, db, hslot, hdb⟩ := h.slot
  have hname : ¬ (isMasterLine l.catName || isHostLine l.catName) = true := by
    rw [LogicalLine.isDatabase, Bool.and_eq_true, Bool.not_eq_true'] at hl
    rw [hl.2]
    exact Bool.false_ne_true
  have hcrash : ¬ ((isTemplate l.typestring || isFreetext l.typestring) &&
      decide (st.accesstr = [])) = true := by
    intro hcrash
    rw [Bool.and_eq_true, decide_eq_true_iff] at hcrash
    have hused : usesAccess l.typestring = true := by
      rw [usesAccess, Bool.or_assoc, hcrash.1, Bool.or_true]
    obtain ⟨hsame, hne⟩ := hacc hused
    exact hne (hsame.symm.trans hcrash.2)
  -- What is not written of the slot is empty.
  have hentry : makeEntry env.archieHome (masterDbDir env mdir) st.slot l.catName l.typestring
      st.accesstr st.dirstring = ownEntry env.archieHome (masterDbDir env mdir) l := by
    rw [hslot, ownEntry]
    refine makeEntry_eq (fun hu => (hacc hu).1) hdirs fun hno => hdb ?_
    rw [← Bool.not_eq_true]
    intro hd
    have hwritten := hfits.written hd
    rw [(hacc (usesAccess_of_usesDir hwritten)).1, hwritten] at hno
    cases hno
  have hnone : ∀ l' ∈ ls, l'.isDirectory = false := fun l' hl' =>
    List.rel_of_pairwise_cons h.directoriesFirst hl' hl
  have hown : l.isDirectory = false := by
    rw [← Bool.not_eq_true]
    intro hd
    rw [LogicalLine.isDatabase_eq_false_of_isDirectory hd] at hl
    cases hl
  have hm := h.master
  have hh := h.host
  rw [lastMaster, List.foldl_cons, hown] at hm
  rw [lastHost, List.foldl_cons, hown] at hh
  have hcount := h.count
  rw [List.filter_cons_of_pos hl, List.length_cons] at hcount
  refine ⟨{ st with
    pastMasterHost := true
    masterDir := masterDbDir env mdir
    slot := .zero
    entries := st.entries ++ [ownEntry env.archieHome (masterDbDir env mdir) l] }, ?_, rfl, rfl, ?_⟩
  · rw [CatalogState.addLine, if_neg hname, h.setDirs_eq hl hisdir]
    simp only [Option.bind_eq_bind, Option.bind_some, if_neg hcrash, hentry, hfits.fits, if_true]
  · refine ⟨⟨[], [], rfl, fun _ => rfl⟩, hm, hh, fun _ => ⟨rfl, hnone⟩, h.directoriesFirst.of_cons, ?_⟩
    rw [List.length_append, List.length_singleton]
    omega

/-- The entries that a line gives. -/
def lineEntries (env : CatalogEnv) (mdir : List UInt8) (l : LogicalLine) : List CatalogEntry :=
  if l.isDatabase then [ownEntry env.archieHome (masterDbDir env mdir) l] else []

theorem getD_of_drop {fields : List (List UInt8)} {i : ℕ} (hi : i < fields.length) (d : List UInt8) :
    fields[i]?.getD d = fields.getD i [] := by
  rw [List.getD_eq_getElem?_getD, List.getElem?_eq_getElem hi]
  rfl

/-- **A line that is read as it is** gives its own entry. -/
theorem CatalogPending.readFields (h : CatalogPending env mdir hdir dirs (l :: ls) st) {text : List UInt8}
    (hwords : l.words = scanWords 4 text) {kept : List UInt8}
    (hfits : CatalogLineFits env.archieHome (masterDbDir env mdir) kept dirs l)
    (hisdir : env.isDir (masterDbDir env mdir) = true ∧
      env.isDir (hostDbDir (masterDbDir env mdir) hdir) = true) :
    ∃ st', st.readFields env text = some st' ∧ st'.front = st.front ∧
      st'.entries = st.entries ++ lineEntries env mdir l ∧
      CatalogPending env mdir hdir (dirsAfter dirs l) ls st' := by
  rw [CatalogState.readFields, ← hwords]
  match hl : l.words with
  | [] =>
    have hfew : l.isDatabase = false ∧ l.isDirectory = false := by
      simp [LogicalLine.isDatabase, LogicalLine.isDirectory, hl]
    refine ⟨st, rfl, rfl, ?_, ?_⟩
    · rw [lineEntries, hfew.1, if_neg Bool.false_ne_true, List.append_nil]
    · rw [dirsAfter, hfew.1, hfew.2]
      simpa using h.skip hfew.1 hfew.2
  | [name] =>
    have hfew : l.isDatabase = false ∧ l.isDirectory = false := by
      simp [LogicalLine.isDatabase, LogicalLine.isDirectory, hl]
    have hname : l.catName = name := by rw [LogicalLine.catName, hl, List.getD_cons_zero]
    have hlen : ¬ (maxCatNameLength ≤ name.length ∨
        ∃ f ∈ ([] : List (List UInt8)), pathnameLen ≤ f.length) := by
      rintro (hlen | ⟨f, hf, -⟩)
      · exact absurd hfits.name (Nat.not_lt.mpr (hname ▸ hlen))
      · exact absurd hf List.not_mem_nil
    have hskip := h.skip hfew.1 hfew.2
    obtain ⟨name', db, hslot, hdb⟩ := h.slot
    refine ⟨{ st with slot := { st.slot with catName := name } }, by simp only [if_neg hlen], rfl, ?_,
      ?_⟩
    · rw [lineEntries, hfew.1, if_neg Bool.false_ne_true, List.append_nil]
    · rw [dirsAfter, hfew.1, hfew.2, Bool.not_false, Bool.and_true, Bool.false_or]
      exact ⟨⟨name, db, by rw [hslot], hdb⟩, hskip.master, hskip.host, hskip.past,
        hskip.directoriesFirst, hskip.count⟩
  | name :: typ :: fields =>
    have hname : l.catName = name := by rw [LogicalLine.catName, hl, List.getD_cons_zero]
    have htyp : l.typestring = typ := by
      rw [LogicalLine.typestring, hl, List.getD_cons_succ, List.getD_cons_zero]
    have hlen : ¬ (maxCatNameLength ≤ name.length ∨
        ∃ f ∈ typ :: fields, pathnameLen ≤ f.length) := by
      rintro (hlen | ⟨f, hf, hlen⟩)
      · exact absurd hfits.name (Nat.not_lt.mpr (hname ▸ hlen))
      · exact absurd (hfits.fields f (by rw [hl]; exact hf)) (Nat.not_lt.mpr hlen)
    simp only [if_neg hlen]
    set st₁ : CatalogState := { st with
      accesstr := fields[0]?.getD st.accesstr
      dirstring := fields[1]?.getD st.dirstring } with hst₁
    have h₁ : CatalogPending env mdir hdir dirs (l :: ls) st₁ :=
      ⟨h.slot, h.master, h.host, h.past, h.directoriesFirst, h.count⟩
    have htwo : decide (2 ≤ l.words.length) = true := by
      rw [hl]
      exact decide_eq_true (Nat.le_add_left 2 _)
    rw [← hname, ← htyp]
    cases hdirectory : l.isDirectory with
    | true =>
      obtain ⟨st', hadd, hfront, hentries, hpend⟩ :=
        h₁.addLine_directory hdirectory (hfits.directory hdirectory)
      have hdb := LogicalLine.isDatabase_eq_false_of_isDirectory hdirectory
      refine ⟨st', hadd, hfront, ?_, ?_⟩
      · rw [lineEntries, hdb, if_neg Bool.false_ne_true, List.append_nil]
        exact hentries
      · rw [dirsAfter, hdirectory, Bool.true_or]
        exact hpend
    | false =>
      have hdb : l.isDatabase = true := by
        rw [LogicalLine.isDirectory, htwo, Bool.true_and] at hdirectory
        rw [LogicalLine.isDatabase, htwo, hdirectory]
        rfl
      have hdbfits := hfits.database hdb
      -- The fields that are used are there, and are not those of an earlier line.
      have hacc : usesAccess l.typestring = true →
          st₁.accesstr = l.accesstr ∧ l.accesstr ≠ [] := by
        intro hu
        have hmany := hdbfits.access hu
        rw [hl, List.length_cons, List.length_cons] at hmany
        have hsame : st₁.accesstr = l.accesstr := by
          rw [LogicalLine.accesstr, hl, List.getD_cons_succ, List.getD_cons_succ]
          exact getD_of_drop (by omega) _
        refine ⟨hsame, ?_⟩
        have hmem : l.accesstr ∈ l.words := by
          obtain ⟨acc, rest, rfl⟩ := List.exists_cons_of_length_pos (show 0 < fields.length by omega)
          rw [LogicalLine.accesstr, hl]
          exact List.mem_cons_of_mem name (List.mem_cons_of_mem typ List.mem_cons_self)
        rw [hwords] at hmem
        exact scanWords_ne_nil hmem
      have hdirs : usesDir l.typestring st₁.accesstr = true → st₁.dirstring = l.dirstring := by
        intro hu
        have hused := usesAccess_of_usesDir hu
        rw [(hacc hused).1] at hu
        have hmany := hdbfits.dir hu
        rw [hl, List.length_cons, List.length_cons] at hmany
        rw [LogicalLine.dirstring, hl, List.getD_cons_succ, List.getD_cons_succ]
        exact getD_of_drop (by omega) _
      obtain ⟨st', hadd, hfront, hentries, hpend⟩ :=
        h₁.addLine_database hdb hdbfits hisdir hacc hdirs
      refine ⟨st', hadd, hfront, ?_, ?_⟩
      · rw [lineEntries, if_pos hdb]
        exact hentries
      · rw [dirsAfter, hdirectory, hdb, Bool.not_true, Bool.and_false, Bool.or_false]
        exact hpend

/-! ### The buffer -/

/-- What is known of `input_buf`: the text that is left in front, and what there is of a line. -/
structure Buffered (kept held : List UInt8) (st : CatalogState) : Prop where
  front : 35 ∉ kept → st.front = kept ++ held
  noNul : 0 ∉ kept ∧ 0 ∉ held

theorem Buffered.takeWhile {kept held line : List UInt8} (h : Buffered kept held st)
    (hline : 0 ∉ line) : (kept ++ held ++ line).takeWhile (· ≠ 0) = kept ++ (held ++ line) := by
  rw [List.append_assoc, List.takeWhile_eq_self_iff]
  intro c hc
  refine decide_eq_true ?_
  rintro rfl
  rcases List.mem_append.mp hc with hc | hc
  · exact h.noNul.1 hc
  · exact (List.mem_append.mp hc).elim h.noNul.2 hline

/-- A blank text has none of the characters that mark something. -/
theorem not_mem_of_blank {kept : List UInt8} (h : ∀ c ∈ kept, isSpace c = true) {c : UInt8}
    (hc : isSpace c = false) : c ∉ kept := by
  intro hmem
  rw [h c hmem] at hc
  cases hc

/-- A line that is continued is held. -/
theorem Buffered.continued {kept held line held' : List UInt8} (h : Buffered kept held st)
    (hblank : ∀ c ∈ kept, isSpace c = true) (hline : 0 ∉ line)
    (hfits : kept.length + held.length + line.length < catalogBufLen)
    (hmark : strBefore continuationLine (held ++ line) = some held') :
    st.readCatalogLine env line = some { st with front := kept ++ held' } ∧
      Buffered kept held' { st with front := kept ++ held' } := by
  have hfront := h.front (not_mem_of_blank hblank (by decide))
  constructor
  · have hshort : ¬ catalogBufLen ≤ (kept ++ held).length + line.length := by
      rw [List.length_append]
      omega
    have hbefore : strBefore continuationLine (kept ++ (held ++ line)) = some (kept ++ held') := by
      rw [strBefore_append (Or.inl (not_mem_of_blank hblank (by decide))), hmark]
      rfl
    rw [CatalogState.readCatalogLine, hfront, if_neg hshort, h.takeWhile hline]
    simp only [hbefore]
  · refine ⟨fun _ => rfl, h.noNul.1, ?_⟩
    intro hmem
    rcases List.mem_append.mp ((strBefore_isPrefix hmark).subset hmem) with hmem | hmem
    · exact h.noNul.2 hmem
    · exact hline hmem

/-- A comment is skipped, whatever stands in front. -/
theorem Buffered.skipped {kept held line : List UInt8} (h : Buffered kept held st) (hline : 0 ∉ line)
    (hfits : kept.length + held.length + line.length < catalogBufLen)
    (hfront : 35 ∉ kept ++ held)
    (hmark : strBefore continuationLine (kept ++ (held ++ line)) = none)
    (hcomment : line.head? = some 35) : st.readCatalogLine env line = some st := by
  obtain ⟨line, rfl⟩ : ∃ t, line = 35 :: t := by
    cases line with
    | nil => cases hcomment
    | cons c line => exact ⟨line, by rw [Option.some.inj hcomment]⟩
  have heq : st.front = kept ++ held :=
    h.front fun hmem => hfront (List.mem_append_left held hmem)
  have hshort : ¬ catalogBufLen ≤ (kept ++ held).length + (35 :: line).length := by
    rw [List.length_append]
    omega
  have htext : (kept ++ (held ++ 35 :: line)).takeWhile (· ≠ 35) = kept ++ held := by
    rw [← List.append_assoc, List.takeWhile_append_of_pos, List.takeWhile_cons_of_neg (by simp),
      List.append_nil]
    intro c hc
    refine decide_eq_true ?_
    rintro rfl
    exact hfront hc
  have hmem : 35 ∈ kept ++ (held ++ 35 :: line) := by simp
  rw [CatalogState.readCatalogLine, heq, if_neg hshort, h.takeWhile hline]
  simp only [hmark, if_pos hmem, htext]
  have htake : ((kept ++ held ++ 35 :: line ++ [0]).set (kept ++ held).length 0).take
      (kept ++ held).length = kept ++ held := by
    rw [List.take_set_of_le (Nat.le_refl _), List.append_assoc, List.take_left]
  have hzero : ((kept ++ held ++ 35 :: line ++ [0]).set (kept ++ held).length 0).getD
      (kept ++ held).length 0 = 0 := by
    rw [List.getD_eq_getElem?_getD, List.getElem?_set_self (by simp)]
    rfl
  rw [if_pos hzero, htake, ← heq]

/-- A line that ends is read, but for a last part that is a comment. -/
theorem Buffered.ended {kept held line : List UInt8} (h : Buffered kept held st)
    (hblank : ∀ c ∈ kept, isSpace c = true) (hline : 0 ∉ line) (hne : line ≠ [])
    (hfits : kept.length + held.length + line.length < catalogBufLen)
    (hmark : strBefore continuationLine (held ++ line) = none)
    (hcomment : 35 ∈ held ∨ line.head? ≠ some 35) (hcount : st.entries.length < env.maxCat) :
    ∃ front, (35 ∉ kept ++ held → front = kept ++ held) ∧
      st.readCatalogLine env line = CatalogState.readFields env { st with front := front }
        (kept ++ (held ++ line).takeWhile (· ≠ 35)) := by
  have hkept : 35 ∉ kept := not_mem_of_blank hblank (by decide)
  have heq : st.front = kept ++ held := h.front hkept
  have hshort : ¬ catalogBufLen ≤ (kept ++ held).length + line.length := by
    rw [List.length_append]
    omega
  have hbefore : strBefore continuationLine (kept ++ (held ++ line)) = none := by
    rw [strBefore_append (Or.inl (not_mem_of_blank hblank (by decide))), hmark]
    rfl
  have htext : (kept ++ (held ++ line)).takeWhile (· ≠ 35) =
      kept ++ (held ++ line).takeWhile (· ≠ 35) := by
    rw [List.takeWhile_append_of_pos]
    intro c hc
    refine decide_eq_true ?_
    rintro rfl
    exact hkept hc
  set text := (held ++ line).takeWhile (· ≠ 35) with ht
  obtain ⟨c, rest, rfl⟩ := List.exists_cons_of_ne_nil hne
  have hc : c ≠ 0 := fun hc => hline (hc ▸ List.mem_cons_self)
  -- The comment begins before or behind `iptr`.
  have hlen : (35 ∈ held → text.length < held.length) ∧ (35 ∉ held → held.length < text.length) := by
    constructor
    · intro hmem
      obtain ⟨s, t, rfl, hs⟩ := List.eq_append_cons_of_mem hmem
      rw [ht, List.append_assoc, List.cons_append, (takeWhile_until hs _).1, List.length_append,
        List.length_cons]
      omega
    · intro hmem
      have hheld : (held ++ c :: rest).takeWhile (fun c => decide (c ≠ 35)) =
          held ++ (c :: rest).takeWhile (fun c => decide (c ≠ 35)) := by
        rw [List.takeWhile_append_of_pos]
        intro d hd
        refine decide_eq_true ?_
        rintro rfl
        exact hmem hd
      have hc35 : c ≠ 35 := by
        rintro rfl
        exact (hcomment.resolve_left hmem) rfl
      have hfirst : (c :: rest).takeWhile (fun c => decide (c ≠ 35)) =
          c :: rest.takeWhile (fun c => decide (c ≠ 35)) :=
        List.takeWhile_cons_of_pos (by simpa using hc35)
      rw [ht, hheld, hfirst, List.length_append, List.length_cons]
      omega
  set buf := if 35 ∈ kept ++ (held ++ c :: rest) then
      (kept ++ held ++ c :: rest ++ [0]).set (kept ++ text).length 0
    else kept ++ held ++ c :: rest ++ [0] with hbuf
  have hiptr : buf.getD (kept ++ held).length 0 = c := by
    have hget : (kept ++ held ++ c :: rest ++ [0])[(kept ++ held).length]? = some c := by
      rw [List.append_assoc, List.getElem?_append_right (Nat.le_refl _), Nat.sub_self]
      rfl
    have hne : (kept ++ text).length ≠ (kept ++ held).length := by
      rw [List.length_append, List.length_append]
      by_cases hmem : 35 ∈ held
      · have := hlen.1 hmem
        omega
      · have := hlen.2 hmem
        omega
    rw [List.getD_eq_getElem?_getD, hbuf]
    split_ifs
    · rw [List.getElem?_set_ne hne, hget]
      rfl
    · rw [hget]
      rfl
  refine ⟨buf.take (kept ++ held).length, ?_, ?_⟩
  · intro hmem
    have hle : (kept ++ held).length ≤ (kept ++ text).length := by
      have := hlen.2 fun h => hmem (List.mem_append_right kept h)
      rw [List.length_append, List.length_append]
      omega
    rw [hbuf]
    split_ifs
    · rw [List.take_set_of_le hle, List.append_assoc, List.take_left]
    · rw [List.append_assoc, List.take_left]
  · rw [CatalogState.readCatalogLine, heq, if_neg hshort, h.takeWhile hline]
    simp only [hbefore, htext, ← hbuf, hiptr, if_neg hc, if_pos hcount]

/-! ### The file -/

/-- The text in front makes no difference to a line that ends. -/
theorem Buffered.after {kept held : List UInt8} {st' : CatalogState} (h : Buffered kept held st)
    (hfront : 35 ∉ kept ++ held → st'.front = kept ++ held) : Buffered (kept ++ held) [] st' := by
  refine ⟨fun hmem => by rw [List.append_nil, hfront hmem], ?_, List.not_mem_nil⟩
  intro hmem
  exact (List.mem_append.mp hmem).elim h.noNul.1 h.noNul.2

/-- **One line** that ends adds its own entry, and keeps what is known. -/
theorem CatalogPending.ended {held line kept : List UInt8}
    (h : CatalogPending env mdir hdir dirs (⟨held, line⟩ :: ls) st) (hbuf : Buffered kept held st)
    (hline : 0 ∉ line) (hne : line ≠ [])
    (hshort : kept.length + held.length + line.length < catalogBufLen)
    (hmark : strBefore continuationLine (held ++ line) = none)
    (hfits : CatalogLineFits env.archieHome (masterDbDir env mdir) kept dirs ⟨held, line⟩)
    (hisdir : env.isDir (masterDbDir env mdir) = true ∧
      env.isDir (hostDbDir (masterDbDir env mdir) hdir) = true) :
    ∃ st', st.readCatalogLine env line = some st' ∧ Buffered (kept ++ held) [] st' ∧
      st'.entries = st.entries ++ lineEntries env mdir ⟨held, line⟩ ∧
      CatalogPending env mdir hdir (dirsAfter dirs ⟨held, line⟩) ls st' := by
  by_cases hcomment : 35 ∉ held ∧ line.head? = some 35
  · -- The last part is a comment: the line is skipped, and has no two fields.
    have hfew := hfits.comment hcomment.1 hcomment.2
    have hno : LogicalLine.isDatabase ⟨held, line⟩ = false ∧
        LogicalLine.isDirectory ⟨held, line⟩ = false := by
      have htwo : decide (2 ≤ (LogicalLine.words ⟨held, line⟩).length) = false :=
        decide_eq_false (Nat.not_le.mpr hfew)
      rw [LogicalLine.isDatabase, LogicalLine.isDirectory, htwo]
      exact ⟨rfl, rfl⟩
    have hkept : 35 ∉ kept := by
      rcases hfits.front with hblank | hfront
      · exact not_mem_of_blank hblank (by decide)
      · exact hfront.2.2.1
    have hbefore : strBefore continuationLine (kept ++ (held ++ line)) = none := by
      rw [strBefore_append, hmark]
      · rfl
      · rcases hfits.front with hblank | ⟨hheld, -, -, h10⟩
        · exact Or.inl (not_mem_of_blank hblank (by decide))
        · refine Or.inr ⟨h10, ?_⟩
          rw [show held = [] from hheld, List.nil_append, hcomment.2]
          decide
    have hfront : 35 ∉ kept ++ held := fun hmem =>
      (List.mem_append.mp hmem).elim hkept hcomment.1
    refine ⟨st, hbuf.skipped hline hshort hfront hbefore hcomment.2,
      hbuf.after fun _ => hbuf.front hkept, ?_, ?_⟩
    · rw [lineEntries, hno.1, if_neg Bool.false_ne_true, List.append_nil]
    · rw [dirsAfter, hno.1, hno.2, Bool.not_false, Bool.and_true, Bool.false_or]
      exact h.skip hno.1 hno.2
  · have hblank : ∀ c ∈ kept, isSpace c = true := by
      rcases hfits.front with hblank | ⟨hheld, hhead, -⟩
      · exact hblank
      · refine absurd ⟨?_, hhead⟩ hcomment
        rw [show held = [] from hheld]
        exact List.not_mem_nil
    have hcomment' : 35 ∈ held ∨ line.head? ≠ some 35 := by
      by_cases hmem : 35 ∈ held
      · exact Or.inl hmem
      · exact Or.inr fun hhead => hcomment ⟨hmem, hhead⟩
    have hcount : st.entries.length < env.maxCat := Nat.lt_of_le_of_lt (Nat.le_add_right _ _) h.count
    obtain ⟨front, hfront, hread⟩ := hbuf.ended hblank hline hne hshort hmark hcomment' hcount
    have hpend : CatalogPending env mdir hdir dirs (⟨held, line⟩ :: ls) { st with front := front } :=
      ⟨h.slot, h.master, h.host, h.past, h.directoriesFirst, h.count⟩
    have hwords : LogicalLine.words ⟨held, line⟩ =
        scanWords 4 (kept ++ (held ++ line).takeWhile (· ≠ 35)) := (scanWords_blank hblank 4 _).symm
    obtain ⟨st', hst', hfront', hentries, hpend'⟩ := hpend.readFields hwords hfits hisdir
    refine ⟨st', hread.trans hst', hbuf.after fun hmem => ?_, hentries, hpend'⟩
    rw [hfront']
    exact hfront hmem

/-- **The whole file.** -/
theorem readLines_entries (hisdir : env.isDir (masterDbDir env mdir) = true ∧
      env.isDir (hostDbDir (masterDbDir env mdir) hdir) = true) {lines : List (List UInt8)}
    (hlines : ∀ line ∈ lines, line ≠ []) {kept held : List UInt8}
    (hfits : CatalogLinesFit env.archieHome (masterDbDir env mdir) kept held dirs lines)
    (hbuf : Buffered kept held st) (h : CatalogPending env mdir hdir dirs (logicalLines lines held) st) :
    ∃ st', lines.foldlM (CatalogState.readCatalogLine env) st = some st' ∧
      st'.entries = st.entries ++ ((logicalLines lines held).filter LogicalLine.isDatabase).map
        (ownEntry env.archieHome (masterDbDir env mdir)) ∧
      st'.entries.length < env.maxCat := by
  induction lines generalizing kept held dirs st with
  | nil =>
    have hnone : (logicalLines [] held).filter LogicalLine.isDatabase = [] := by
      rw [logicalLines]
      split_ifs
      · rfl
      · have hno : LogicalLine.isDatabase ⟨held, []⟩ = false := by
          rw [LogicalLine.isDatabase, decide_eq_false (Nat.not_le.mpr hfits)]
          rfl
        rw [List.filter_cons_of_neg (by rw [hno]; exact Bool.false_ne_true), List.filter_nil]
    have hcount := h.count
    rw [hnone] at hcount ⊢
    exact ⟨st, rfl, (List.append_nil _).symm, hcount⟩
  | cons line lines ih =>
    obtain ⟨hline, hshort, hrest⟩ := hfits
    have hlines' : ∀ line ∈ lines, line ≠ [] := fun l hl => hlines l (List.mem_cons_of_mem line hl)
    rw [logicalLines] at h ⊢
    rw [List.foldlM_cons]
    cases hmark : strBefore continuationLine (held ++ line) with
    | some held' =>
      simp only [hmark] at hrest h ⊢
      have hread : st.readCatalogLine env line = _ ∧ _ :=
        hbuf.continued hrest.1 hline hshort hmark
      obtain ⟨hread, hbuf'⟩ := hread
      rw [hread]
      exact ih hlines' hrest.2 hbuf'
        ⟨h.slot, h.master, h.host, h.past, h.directoriesFirst, h.count⟩
    | none =>
      simp only [hmark] at hrest h ⊢
      have hne := hlines line List.mem_cons_self
      obtain ⟨st₁, hread, hbuf', hentries, hpend⟩ :=
        h.ended hbuf hline hne hshort hmark hrest.1 hisdir
      obtain ⟨st', hst', hall, hlt⟩ := ih hlines' hrest.2 hbuf' hpend
      rw [hread]
      refine ⟨st', hst', ?_, hlt⟩
      rw [hall, hentries, List.append_assoc, lineEntries]
      cases hdb : LogicalLine.isDatabase ⟨held, line⟩ with
      | true => rw [if_pos rfl, List.filter_cons_of_pos hdb]; rfl
      | false =>
        rw [if_neg Bool.false_ne_true,
          List.filter_cons_of_neg (by rw [hdb]; exact Bool.false_ne_true), List.nil_append]

end

theorem fgetsLine_ne_nil {n : ℕ} (hn : 2 ≤ n) {text line rest : List UInt8}
    (h : fgetsLine n text = some (line, rest)) : line ≠ [] := by
  rintro rfl
  have hlt := length_fgetsLine hn h
  rw [fgetsLine] at h
  split_ifs at h
  obtain ⟨hline, hrest⟩ := Prod.mk.inj (Option.some.inj h)
  rw [← hrest, hline, List.length_nil, List.drop_zero] at hlt
  exact absurd hlt (Nat.lt_irrefl _)

theorem ne_nil_of_mem_fgetsLines {n : ℕ} (hn : 2 ≤ n) {text line : List UInt8}
    (h : line ∈ fgetsLines n text) : line ≠ [] := by
  rw [fgetsLines] at h
  generalize text.length = fuel at h
  induction fuel generalizing text with
  | zero => exact absurd h List.not_mem_nil
  | succ fuel ih =>
    rw [fgetsLoop] at h
    cases hget : fgetsLine n text with
    | none =>
      rw [hget] at h
      exact absurd h List.not_mem_nil
    | some p =>
      obtain ⟨first, rest⟩ := p
      rw [hget] at h
      rcases List.mem_cons.mp h with rfl | h
      · exact fgetsLine_ne_nil hn hget
      · exact ih h

/-- **The catalogs file.**  If each line of it is read as it is, the list has one entry for each line
of two fields, made of that line. -/
theorem readCatalogsList_eq {env : CatalogEnv} {file : List UInt8} (h : CatalogsFile env file)
    (hfits : CatalogLinesFit env.archieHome (masterDbDir env (lastMaster [] (catalogLines file))) [] [] false
      (fgetsLines catalogBufLen file)) : CatalogsRight env file := by
  have hstart : CatalogPending env (lastMaster [] (catalogLines file)) (lastHost [] (catalogLines file)) false
      (catalogLines file) (.start env) := by
    refine ⟨⟨[], [], rfl, fun _ => rfl⟩, rfl, rfl, fun hp => ?_, h.directoriesFirst, ?_⟩
    · cases hp
    · have hcount := h.count
      rw [← Nat.zero_add (List.length _)] at hcount
      exact hcount
  have hbuf : Buffered [] [] (CatalogState.start env) :=
    ⟨fun _ => rfl, List.not_mem_nil, List.not_mem_nil⟩
  have hlines : ∀ line ∈ fgetsLines catalogBufLen file, line ≠ [] := fun line hline =>
    ne_nil_of_mem_fgetsLines (by decide) hline
  obtain ⟨st, hst, hentries, hlt⟩ := readLines_entries h.isDir hlines hfits hbuf hstart
  refine ⟨{ st.slot with catName := [] }, rfl, ?_⟩
  rw [readCatalogsList, hst]
  show (if st.entries.length < env.maxCat then _ else _) = _
  rw [if_pos hlt, hentries]
  rfl

/-! ### Text that is left in front -/

theorem makeEntry_catName (archieHome masterDir : List UInt8) (slot : CatalogEntry)
    (catName typestring accesstr dirstring : List UInt8) :
    (makeEntry archieHome masterDir slot catName typestring accesstr dirstring).catName = catName := by
  have hwais : ∀ e : CatalogEntry, (e.setWais accesstr).catName = e.catName := by
    intro e
    rw [CatalogEntry.setWais]
    split
    · rfl
    · split <;> rfl
  rw [makeEntry]
  split_ifs
  · cases archieAccess accesstr <;> rfl
  · exact hwais _
  · exact hwais _
  · rfl

theorem scanWord_front {k w rest : List UInt8} {c : UInt8} (h : scanWord k = some (w, c :: rest))
    (s : List UInt8) : ∃ rest', scanWord (k ++ s) = some (w, rest') := by
  simp only [scanWord] at h ⊢
  split_ifs at h with hnil
  obtain ⟨hw, hrest⟩ := Prod.mk.inj (Option.some.inj h)
  have hdrop : (k ++ s).dropWhile isSpace = k.dropWhile isSpace ++ s := by
    rw [List.dropWhile_append, if_neg (by rw [List.isEmpty_iff]; exact hnil)]
  have hne : (k.dropWhile isSpace ++ s) ≠ [] := fun h => hnil (List.append_eq_nil_iff.mp h).1
  have htake : (k.dropWhile isSpace ++ s).takeWhile (fun c => !isSpace c) = w := by
    have hlen : ((k.dropWhile isSpace).takeWhile fun c => !isSpace c).length ≠
        (k.dropWhile isSpace).length := by
      intro hlen
      have hall := (List.takeWhile_prefix (fun c => !isSpace c)).eq_of_length hlen
      have hempty := List.dropWhile_eq_nil_iff.mpr (List.takeWhile_eq_self_iff.mp hall)
      exact List.cons_ne_nil c rest (hrest.symm.trans hempty)
    rw [List.takeWhile_append, if_neg hlen, hw]
  rw [hdrop, if_neg hne, htake]
  exact ⟨_, rfl⟩

/-- What one line adds to the list: nothing, or an entry of the given name. -/
def AddsNamed (st st' : CatalogState) (name : List UInt8) : Prop :=
  st'.entries = st.entries ∨ ∃ e : CatalogEntry, e.catName = name ∧ st'.entries = st.entries ++ [e]

theorem CatalogState.setDirs_entries {env : CatalogEnv} {st st' : CatalogState}
    (h : st.setDirs env = some st') : st'.entries = st.entries := by
  simp only [CatalogState.setDirs] at h
  split_ifs at h
  · rw [Option.some.inj h]
  · rw [← Option.some.inj h]

theorem CatalogState.addLine_adds {env : CatalogEnv} {st st' : CatalogState}
    {name typ : List UInt8} (h : st.addLine env name typ = some st') : AddsNamed st st' name := by
  by_cases hname : (isMasterLine name || isHostLine name) = true
  · simp only [CatalogState.addLine, if_pos hname] at h
    left
    split_ifs at h
    · rw [← Option.some.inj h]
    · rw [← Option.some.inj h]
  · rw [CatalogState.addLine, if_neg hname] at h
    obtain ⟨st₁, hst₁, h⟩ := Option.bind_eq_some_iff.mp h
    right
    split_ifs at h
    obtain ⟨-, h⟩ := Option.ite_none_right_eq_some.mp h
    refine ⟨makeEntry env.archieHome st₁.masterDir st₁.slot name typ st₁.accesstr st₁.dirstring,
      makeEntry_catName _ _ _ _ _ _ _, ?_⟩
    rw [← Option.some.inj h, ← CatalogState.setDirs_entries hst₁]

theorem CatalogState.readFields_adds {env : CatalogEnv} {st st' : CatalogState}
    {text w rest : List UInt8} (hw : scanWord text = some (w, rest))
    (h : st.readFields env text = some st') : AddsNamed st st' w := by
  rw [CatalogState.readFields, scanWords, hw] at h
  dsimp only at h
  split_ifs at h
  cases hfields : scanWords 3 rest with
  | nil =>
    rw [hfields] at h
    rw [← Option.some.inj h]
    exact Or.inl rfl
  | cons typ fields =>
    rw [hfields] at h
    have hadds := CatalogState.addLine_adds h
    exact hadds

/-- **The text in front** of a line names its entry: after a continued line that has a name, all
entries have that name. -/
theorem Buffered.adds_front {env : CatalogEnv} {st st' : CatalogState} {kept held line : List UInt8}
    (h : Buffered kept held st) (hkept : 35 ∉ kept) {w rest : List UInt8} {c : UInt8}
    (hw : scanWord kept = some (w, c :: rest)) (hread : st.readCatalogLine env line = some st') :
    AddsNamed st st' w := by
  have hbuf : (st.front ++ line).takeWhile (· ≠ 0) =
      kept ++ (held ++ line).takeWhile (· ≠ 0) := by
    rw [h.front hkept, List.append_assoc, List.takeWhile_append_of_pos]
    intro d hd
    refine decide_eq_true ?_
    rintro rfl
    exact h.noNul.1 hd
  have htext : ∀ t : List UInt8, (kept ++ t).takeWhile (· ≠ 35) = kept ++ t.takeWhile (· ≠ 35) := by
    intro t
    rw [List.takeWhile_append_of_pos]
    intro d hd
    refine decide_eq_true ?_
    rintro rfl
    exact hkept hd
  rw [CatalogState.readCatalogLine] at hread
  split_ifs at hread
  simp only [hbuf, htext] at hread
  split at hread
  · rw [← Option.some.inj hread]
    exact Or.inl rfl
  · obtain ⟨rest', hfront⟩ :=
      scanWord_front hw (((held ++ line).takeWhile (· ≠ 0)).takeWhile (· ≠ 35))
    split_ifs at hread
    -- The line is skipped, or its fields are read.
    all_goals first
      | (have hadds := CatalogState.readFields_adds hfront hread
         exact hadds)
      | exact Or.inl (congrArg CatalogState.entries (Option.some.inj hread)).symm

/-! ### Examples of files -/

def sampleEnv : CatalogEnv := ⟨bytes "/h", fun _ => true, 4, [], []⟩

/-- A comment and a database. -/
def sampleCatalogs : List UInt8 := bytes "# c\na archie anonftp d\n"

theorem readCatalogsList_sample : CatalogsRight sampleEnv sampleCatalogs := by
  have hlines : fgetsLines catalogBufLen sampleCatalogs =
      [bytes "# c\n", bytes "a archie anonftp d\n"] := by decide +kernel
  have hcat : catalogLines sampleCatalogs =
      [⟨[], bytes "# c\n"⟩, ⟨[], bytes "a archie anonftp d\n"⟩] := by
    decide +kernel
  have hfile : CatalogsFile sampleEnv sampleCatalogs := by
    refine ⟨?_, ?_, ?_, rfl, rfl⟩
    · rw [hcat]
      decide +kernel
    · rw [hcat]
      decide +kernel
    · rw [hcat]
      decide +kernel
  refine readCatalogsList_eq hfile ?_
  have hmark : strBefore continuationLine ([] ++ bytes "# c\n") = none ∧
      strBefore continuationLine ([] ++ bytes "a archie anonftp d\n") = none := by decide +kernel
  have hblank : ∀ c ∈ ([] : List UInt8), isSpace c = true := fun c hc => absurd hc List.not_mem_nil
  rw [hlines, hcat]
  simp only [CatalogLinesFit, hmark]
  refine ⟨by decide +kernel, by decide +kernel, ?_, by decide +kernel, by decide +kernel, ?_,
    by decide +kernel⟩
  · refine ⟨Or.inl hblank, ?_, ?_, ?_, ?_, ?_⟩
    all_goals first
      | decide +kernel
      | exact fun hdb => absurd hdb (by decide +kernel)
  · refine ⟨Or.inl hblank, ?_, ?_, ?_, ?_, fun _ => ⟨?_, ?_, ?_, ?_⟩⟩
    all_goals decide +kernel

/-- The second database is entered with the name of the first, whose line is continued. -/
theorem not_catalogsRight :
    ¬ ∀ (env : CatalogEnv) (file : List UInt8), CatalogsFile env file → CatalogsRight env file := by
  intro h
  set file := bytes "a archie \\\nanonftp d\nb archie anonftp e\n" with hfile
  have hcat : catalogLines file =
      [⟨bytes "a archie ", bytes "anonftp d\n"⟩, ⟨[], bytes "b archie anonftp e\n"⟩] := by
    decide +kernel
  have hok : CatalogsFile sampleEnv file := by
    refine ⟨?_, ?_, ?_, rfl, rfl⟩
    · rw [hcat]
      decide +kernel
    · rw [hcat]
      decide +kernel
    · rw [hcat]
      decide +kernel
  obtain ⟨last, -, hread⟩ := h sampleEnv file hok
  have hnames : (readCatalogsList sampleEnv file).map (fun l => (l.map CatalogEntry.catName)[1]?) =
      some (some (bytes "a")) := by decide +kernel
  have hown : (catalogEntries sampleEnv (catalogLines file)).map CatalogEntry.catName =
      [bytes "a", bytes "b"] := by decide +kernel
  rw [hread, Option.map_some, List.map_append, hown] at hnames
  have hsame : some (bytes "b") = some (bytes "a") := Option.some.inj hnames
  exact absurd hsame (by decide +kernel)

end Archie
