/-
Which urls `init_url_db` finds in a site file whose records lead up to its directories.

* `TableHolds`, `HoldsUrls` — the variables of the loop, when the records from some on have been read.
* `initRecord_holds`, `initLoop_holds` — a round, and the rounds that are left.
* `initUrlDb_leadsUp` — which records have an entry in the table in the end.
-/
import Archie.UrlDb

namespace Archie

namespace UrlDb

section

variable (file : List SiteEntry) (db : StringsDb) (gethostbyname : List UInt8 → Option (List UInt8))

/-- A record with a string that is no keyword. -/
def HasText (i : ℕ) : Prop :=
  ∃ e, file[i]? = some e ∧ cseIsKey e.flags = false ∧ (stringAt db e.strt1).isSome = true

/-- The record is followed by a keyword. -/
def HasKeys (i : ℕ) : Prop := (file[i + 1]?.any fun e => cseIsKey e.flags) = true

/-- The record is the entry of a directory that a later record lies in, or is its heading. -/
def Used (i : ℕ) : Prop := ∃ j > i, HasText file db j ∧ OnWay file j i

/-- The records that get an url. -/
def Shown (i : ℕ) : Prop := HasText file db i ∧ (HasKeys file i ∨ ¬Used file db i)

/-- The canonical url of a record. -/
def address (i : ℕ) : Option (List UInt8) :=
  (urlParse gethostbyname (recordUrl file db i)).bind fun u => u.curl

/-- The records whose urls are new when they are reached. -/
def Stored (i : ℕ) : Prop :=
  Shown file db i ∧ ∃ curl, address file db gethostbyname i = some curl ∧
    ∀ j > i, Shown file db j → address file db gethostbyname j ≠ some curl

/-- The retrieve time of a record. -/
def rdateAt (i : ℕ) : ℕ := (file[i]?.map fun e => e.core.rdate).getD 0

/-- The entry for a record. -/
def recordEntry (i : ℕ) : Option UrlEntry :=
  (urlParse gethostbyname (recordUrl file db i)).map fun u =>
    ⟨u, i, if rdateAt file i = 0 then 0 else 1, some (rdateAt file i)⟩

/-- The entries of the table for a record. -/
def entriesOf (table : List UrlEntry) (i : ℕ) : List UrlEntry := table.filter fun ue => ue.recno = i

/-- The table, when the records from `k` on have been read. -/
structure TableHolds (k : ℕ) (t : UrlTable) : Prop where
  dbm : ∀ curl, curl ∈ t.dbm ↔ ∃ j ≥ k, Shown file db j ∧ address file db gethostbyname j = some curl
  recno : ∀ ue ∈ t.table, (k : ℤ) ≤ ue.recno
  stored : ∀ j ≥ k, Stored file db gethostbyname j →
    ∃ ue, recordEntry file db gethostbyname j = some ue ∧ entriesOf t.table j = [ue]
  notStored : ∀ j ≥ k, ¬Stored file db gethostbyname j → entriesOf t.table j = []

/-- The variables of the loop. -/
structure HoldsUrls (k : ℕ) (s : InitState) : Prop where
  length : s.visited.length = file.length
  visited : ∀ m < k, s.visited.getD m false = true ↔ ∃ j ≥ k, HasText file db j ∧ OnWay file j m
  flag : s.flag = true ↔ (file[k]?.any fun e => cseIsKey e.flags) = true
  known : TableHolds file db gethostbyname k s.known

end

section

variable {file : List SiteEntry} {db : StringsDb} {gethostbyname : List UInt8 → Option (List UInt8)}
  {k i : ℕ} {t : UrlTable} {s : InitState} {e : SiteEntry}

theorem entriesOf_append_singleton (table : List UrlEntry) (ue : UrlEntry) (j : ℕ) :
    entriesOf (table ++ [ue]) j = entriesOf table j ++ if ue.recno = j then [ue] else [] := by
  rw [entriesOf, List.filter_append, entriesOf, List.filter_singleton, Bool.cond_decide]

/-- There is no entry yet for the next record. -/
theorem TableHolds.fresh (ht : TableHolds file db gethostbyname (k + 1) t) : entriesOf t.table k = [] := by
  rw [entriesOf, List.filter_eq_nil_iff]
  intro ue hue
  have hle := ht.recno ue hue
  rw [decide_eq_true_eq]
  omega

/-- A record without an url leaves the table as it is. -/
theorem TableHolds.keep (ht : TableHolds file db gethostbyname (k + 1) t)
    (hshown : Shown file db k → ∀ curl, address file db gethostbyname k = some curl → curl ∈ t.dbm) :
    TableHolds file db gethostbyname k t := by
  have hnot : ¬Stored file db gethostbyname k := by
    rintro ⟨hk, curl, hcurl, hnew⟩
    obtain ⟨j, hj, hjshown, hjaddress⟩ := (ht.dbm curl).mp (hshown hk curl hcurl)
    exact hnew j hj hjshown hjaddress
  constructor
  · intro curl
    rw [ht.dbm]
    constructor
    · rintro ⟨j, hj, hrest⟩
      exact ⟨j, by omega, hrest⟩
    · rintro ⟨j, hj, hjshown, hjaddress⟩
      obtain rfl | hlt : j = k ∨ k + 1 ≤ j := by omega
      · exact (ht.dbm curl).mp (hshown hjshown curl hjaddress)
      · exact ⟨j, hlt, hjshown, hjaddress⟩
  · intro ue hue
    have := ht.recno ue hue
    omega
  · intro j hj hstored
    obtain rfl | hlt : j = k ∨ k + 1 ≤ j := by omega
    · exact absurd hstored hnot
    · exact ht.stored j hlt hstored
  · intro j hj hstored
    obtain rfl | hlt : j = k ∨ k + 1 ≤ j := by omega
    · exact ht.fresh
    · exact ht.notStored j hlt hstored

/-- A record with an url adds it, unless it is there. -/
theorem TableHolds.store (ht : TableHolds file db gethostbyname (k + 1) t) (hshown : Shown file db k)
    {date : ℕ} (hdate : date = rdateAt file k) :
    TableHolds file db gethostbyname k
      (storeRecord gethostbyname k date (some (recordUrl file db k)) t) := by
  rw [storeRecord, Option.bind_some]
  cases hu : urlParse gethostbyname (recordUrl file db k) with
  | none => exact ht.keep fun _ curl hcurl => by simp [address, hu] at hcurl
  | some u =>
    dsimp only
    rw [storeUrl]
    dsimp only
    have haddress : address file db gethostbyname k = u.curl := by rw [address, hu, Option.bind_some]
    cases hcurl : u.curl with
    | none =>
      rw [hcurl] at haddress
      exact ht.keep fun _ curl h => by simp [haddress] at h
    | some curl =>
      rw [hcurl] at haddress
      dsimp only
      split
      next hmem =>
        refine ht.keep fun _ curl' h => ?_
        rw [haddress, Option.some.injEq] at h
        exact h ▸ hmem
      next hmem =>
        have hstored : Stored file db gethostbyname k :=
          ⟨hshown, curl, haddress, fun j hj hjshown hjaddress =>
            hmem ((ht.dbm curl).mpr ⟨j, hj, hjshown, hjaddress⟩)⟩
        let ue : UrlEntry := ⟨u, k, if date = 0 then 0 else 1, some date⟩
        have hentries := entriesOf_append_singleton t.table ue
        constructor
        · intro c
          rw [List.mem_cons, ht.dbm]
          constructor
          · rintro (rfl | ⟨j, hj, hrest⟩)
            · exact ⟨k, le_rfl, hshown, haddress⟩
            · exact ⟨j, by omega, hrest⟩
          · rintro ⟨j, hj, hjshown, hjaddress⟩
            obtain rfl | hlt : j = k ∨ k + 1 ≤ j := by omega
            · rw [haddress, Option.some.injEq] at hjaddress
              exact .inl hjaddress.symm
            · exact .inr ⟨j, hlt, hjshown, hjaddress⟩
        · intro ue' hue'
          rcases List.mem_append.mp hue' with hue' | hue'
          · have := ht.recno ue' hue'
            omega
          · rw [List.mem_singleton.mp hue']
        · intro j hj hjstored
          rw [hentries]
          obtain rfl | hlt : j = k ∨ k + 1 ≤ j := by omega
          · refine ⟨ue, ?_, by rw [ht.fresh, if_pos (show (j : ℤ) = j from rfl), List.nil_append]⟩
            rw [recordEntry, hu, Option.map_some, ← hdate]
          · rw [if_neg (show (k : ℤ) ≠ j by omega), List.append_nil]
            exact ht.stored j hlt hjstored
        · intro j hj hjstored
          rw [hentries]
          obtain rfl | hlt : j = k ∨ k + 1 ≤ j := by omega
          · exact absurd hstored hjstored
          · rw [if_neg (show (k : ℤ) ≠ j by omega), List.append_nil]
            exact ht.notStored j hlt hjstored

/-! ### The loop -/

/-- The url of a record fits in the array that it is made in, if it is made. -/
def Fits (file : List SiteEntry) (db : StringsDb) (i : ℕ) : Prop :=
  Shown file db i → (recordUrl file db i).length < pathnameLen

/-- What has been marked does not change at a record whose way up has been marked, or that has none. -/
theorem HoldsUrls.marks_keep (hs : HoldsUrls file db gethostbyname (k + 1) s)
    (hused : HasText file db k → Used file db k) : ∀ m < k,
    s.visited.getD m false = true ↔ ∃ j ≥ k, HasText file db j ∧ OnWay file j m := by
  intro m hm
  rw [hs.visited m (by omega)]
  constructor
  · rintro ⟨j, hj, hrest⟩
    exact ⟨j, by omega, hrest⟩
  · rintro ⟨j, hj, htext, honWay⟩
    obtain rfl | hlt : j = k ∨ k + 1 ≤ j := by omega
    · obtain ⟨i, hi, hitext, hik⟩ := hused htext
      exact ⟨i, hi, hitext, onWay_trans hik honWay⟩
    · exact ⟨j, hlt, htext, honWay⟩

/-- Whether a record has been marked when it is reached. -/
theorem HoldsUrls.used_iff (hs : HoldsUrls file db gethostbyname (k + 1) s) :
    s.visited.getD k false = true ↔ Used file db k := by
  rw [hs.visited k (Nat.lt_succ_self k)]
  rfl

theorem HoldsUrls.hasKeys_iff (hs : HoldsUrls file db gethostbyname (k + 1) s) :
    s.flag = true ↔ HasKeys file k := hs.flag

theorem not_hasText_of_key (he : file[k]? = some e) (hkey : cseIsKey e.flags = true) :
    ¬HasText file db k := by
  rintro ⟨e', he', hnot, -⟩
  rw [he, Option.some.injEq] at he'
  rw [he', hnot] at hkey
  exact absurd hkey Bool.false_ne_true

theorem not_hasText_of_none (he : file[k]? = some e) (hstring : stringAt db e.strt1 = none) :
    ¬HasText file db k := by
  rintro ⟨e', he', -, hsome⟩
  rw [he, Option.some.injEq] at he'
  rw [← he', hstring] at hsome
  exact absurd hsome (by decide)

/-- A round that goes on to the next record. -/
theorem HoldsUrls.skip (hs : HoldsUrls file db gethostbyname (k + 1) s)
    (hflag : s.flag = true ↔ (file[k]?.any fun e => cseIsKey e.flags) = true)
    (hused : HasText file db k → Used file db k) (hshown : ¬Shown file db k) :
    HoldsUrls file db gethostbyname k s :=
  ⟨hs.length, hs.marks_keep hused, hflag, hs.known.keep fun hk => absurd hk hshown⟩

/-- A round at a keyword. -/
theorem HoldsUrls.key (hs : HoldsUrls file db gethostbyname (k + 1) s) (he : file[k]? = some e)
    (hkey : cseIsKey e.flags = true) :
    HoldsUrls file db gethostbyname k { s with visited := s.visited.set k true, flag := true } := by
  obtain ⟨hlt, -⟩ := List.getElem?_eq_some_iff.mp he
  have hnotext : ¬HasText file db k := not_hasText_of_key he hkey
  constructor
  · simpa using hs.length
  · intro m hm
    rw [getD_set_true (by rw [hs.length]; omega), or_iff_left (by omega)]
    exact hs.marks_keep (fun htext => absurd htext hnotext) m hm
  · simp [he, hkey]
  · exact hs.known.keep fun hk => absurd hk.1 hnotext

/-- A record with keywords is a document, since they come behind one. -/
theorem LeadsUp.doc_of_hasKeys (h : LeadsUp file db) (he : file[k]? = some e)
    (hkey : cseIsKey e.flags = false) (hkeys : HasKeys file k) : cseIsDoc e.flags = true := by
  obtain ⟨e', he', hkey'⟩ := Option.any_eq_true _ _ |>.mp hkeys
  obtain ⟨-, j, e'', hj, he'', hor⟩ := h.keyword (k + 1) e' he' hkey'
  obtain rfl : k = j := by omega
  rw [he, Option.some.injEq] at he''
  rw [← he''] at hor
  exact hor.resolve_right (by simp [hkey])

/-- A record with keywords has a string. -/
theorem LeadsUp.text_of_hasKeys (h : LeadsUp file db) (he : file[k]? = some e)
    (hkey : cseIsKey e.flags = false) (hkeys : HasKeys file k) :
    ∃ name, stringAt db e.strt1 = some name := by
  have hdoc := h.doc_of_hasKeys he hkey hkeys
  cases hparent : cseIsParent e.flags with
  | true =>
    have hnot := (h.parent e (List.mem_of_getElem? he) hparent).2
    rw [hdoc] at hnot
    exact absurd hnot (by decide)
  | false => exact h.string k e he hparent hkey

/-- What a round does with a record that gets its url. -/
def madeUrl (file : List SiteEntry) (db : StringsDb) (gethostbyname : List UInt8 → Option (List UInt8))
    (k : ℕ) (s : InitState) : InitState where
  visited := markAll file s.visited (headings file (findHeading file k))
  flag := false
  known := storeRecord gethostbyname k (rdateAt file k) (some (recordUrl file db k)) s.known

/-- A round at a record that gets its url. -/
theorem HoldsUrls.made (hs : HoldsUrls file db gethostbyname (k + 1) s) (he : file[k]? = some e)
    (hkey : cseIsKey e.flags = false) (hshown : Shown file db k) :
    HoldsUrls file db gethostbyname k (madeUrl file db gethostbyname k s) := by
  obtain ⟨hlt, -⟩ := List.getElem?_eq_some_iff.mp he
  constructor
  · simpa [madeUrl] using hs.length
  · intro m hm
    rw [madeUrl]
    dsimp only
    rw [markAll_getD (by rw [hs.length]; omega), hs.visited m (by omega)]
    constructor
    · rintro (⟨j, hj, hrest⟩ | hway)
      · exact ⟨j, by omega, hrest⟩
      · exact ⟨k, le_rfl, hshown.1, hway⟩
    · rintro ⟨j, hj, hjtext, hway⟩
      obtain rfl | hjk : j = k ∨ k + 1 ≤ j := by omega
      · exact .inr hway
      · exact .inl ⟨j, hjk, hjtext, hway⟩
  · rw [he, Option.any_some, hkey]
    rfl
  · exact hs.known.store hshown rfl

/-- The last branch of a round. -/
theorem initRecord_text (h : LeadsUp file db) (he : file[k]? = some e) {name : List UInt8}
    (hstring : stringAt db e.strt1 = some name) :
    (if pathnameLen ≤ name.length then none
      else (do
        let (visited, text) ← climb file db file.length (findHeading file k) name s.visited
        some (⟨visited, false, storeRecord gethostbyname k e.core.rdate text s.known⟩ : InitState))) =
      if (recordUrl file db k).length < pathnameLen then some (madeUrl file db gethostbyname k s)
      else none := by
  obtain ⟨hlt, -⟩ := List.getElem?_eq_some_iff.mp he
  have hurl : recordUrl file db k = dirText file db (findHeading file k) ++ name := by
    rw [recordUrl, nameAt, he, Option.bind_some, hstring, Option.getD_some]
  have hheading : findHeading file k ≤ k := findHeading_le file k
  by_cases hlong : pathnameLen ≤ name.length
  · rw [if_pos hlong, if_neg]
    rw [hurl, List.length_append]
    omega
  · have hclimb := @climb_eq file db (findHeading file k) h name (not_le.mp hlong) s.visited
      file.length (by omega) (findHeading_findHeading file k) (by omega)
    rw [← hurl] at hclimb
    rw [if_neg hlong, hclimb]
    split
    · rw [madeUrl, rdateAt, he]
      rfl
    · rfl

/-- **A round of the loop.** -/
theorem initRecord_holds (h : LeadsUp file db) (he : file[k]? = some e)
    (hs : HoldsUrls file db gethostbyname (k + 1) s) :
    (Fits file db k → ∃ s', initRecord file db gethostbyname k e s = some s' ∧
      HoldsUrls file db gethostbyname k s') ∧
    (¬Fits file db k → initRecord file db gethostbyname k e s = none) := by
  rw [initRecord]
  cases hkey : cseIsKey e.flags with
  | true =>
    exact ⟨fun _ => ⟨_, rfl, hs.key he hkey⟩,
      fun hnot => absurd (fun hk => absurd hk.1 (not_hasText_of_key he hkey)) hnot⟩
  | false =>
    rw [if_neg Bool.false_ne_true]
    have hflag : (file[k]?.any fun e => cseIsKey e.flags) = false := by rw [he, Option.any_some, hkey]
    by_cases hmarked : Used file db k ∧ ¬HasKeys file k
    · have hvisited := hs.used_iff.mpr hmarked.1
      have hnoflag : s.flag = false := by
        rw [← Bool.not_eq_true, hs.hasKeys_iff]
        exact hmarked.2
      have hnotShown : ¬Shown file db k := fun hk => hk.2.elim hmarked.2 fun hnot => hnot hmarked.1
      rw [hvisited, hnoflag]
      exact ⟨fun _ => ⟨s, rfl, hs.skip (by rw [hflag, hnoflag]) (fun _ => hmarked.1) hnotShown⟩,
        fun hnot => absurd (fun hk => absurd hk hnotShown) hnot⟩
    · have hor : HasKeys file k ∨ ¬Used file db k := by
        by_contra hnot
        rw [not_or, not_not] at hnot
        exact hmarked ⟨hnot.2, hnot.1⟩
      have hpass : (s.visited.getD k false && !s.flag) = false := by
        rw [Bool.and_eq_false_iff, ← Bool.not_eq_true, hs.used_iff, Bool.not_eq_false', hs.hasKeys_iff]
        exact hor.symm
      have hgo : (cseIsDoc e.flags || !s.flag) = true := by
        cases hf : s.flag with
        | true => rw [h.doc_of_hasKeys he hkey (hs.hasKeys_iff.mp hf), Bool.true_or]
        | false => rw [Bool.not_false, Bool.or_true]
      rw [hpass, if_neg Bool.false_ne_true, hgo, if_pos rfl]
      cases hstring : stringAt db e.strt1 with
      | none =>
        have hnotext : ¬HasText file db k := not_hasText_of_none he hstring
        have hnoflag : s.flag = false := by
          rw [← Bool.not_eq_true, hs.hasKeys_iff]
          intro hkeys
          obtain ⟨name, hname⟩ := h.text_of_hasKeys he hkey hkeys
          rw [hname] at hstring
          exact absurd hstring (by simp)
        exact ⟨fun _ => ⟨s, rfl, hs.skip (by rw [hflag, hnoflag]) (fun htext => absurd htext hnotext)
            fun hk => hnotext hk.1⟩,
          fun hnot => absurd (fun hk => absurd hk.1 hnotext) hnot⟩
      | some name =>
        have hshown : Shown file db k := ⟨⟨e, he, hkey, by rw [hstring]; rfl⟩, hor⟩
        dsimp only
        rw [initRecord_text h he hstring]
        refine ⟨fun hfits => ⟨_, if_pos (hfits hshown), hs.made he hkey hshown⟩, fun hnot => ?_⟩
        exact if_neg fun hfits => hnot fun _ => hfits

/-- **The rounds that are left.** -/
theorem initLoop_holds (h : LeadsUp file db) (hk : k ≤ file.length)
    (hs : HoldsUrls file db gethostbyname k s) :
    ((∀ j < k, Fits file db j) → ∃ s', initLoop file db gethostbyname k s = some s' ∧
      HoldsUrls file db gethostbyname 0 s') ∧
    (¬(∀ j < k, Fits file db j) → initLoop file db gethostbyname k s = none) := by
  induction k generalizing s with
  | zero => exact ⟨fun _ => ⟨s, rfl, hs⟩, fun hnot => absurd (fun j hj => absurd hj j.not_lt_zero) hnot⟩
  | succ k ih =>
    obtain ⟨e, he⟩ : ∃ e, file[k]? = some e := ⟨file[k], List.getElem?_eq_getElem hk⟩
    have hround := initRecord_holds h he hs
    rw [initLoop, he, Option.bind_eq_bind, Option.bind_some]
    constructor
    · intro hfits
      obtain ⟨s', hs', hholds⟩ := hround.1 (hfits k (Nat.lt_succ_self k))
      rw [hs', Option.bind_eq_bind, Option.bind_some]
      exact (ih (by omega) hholds).1 fun j hj => hfits j (by omega)
    · intro hnot
      by_cases hfit : Fits file db k
      · obtain ⟨s', hs', hholds⟩ := hround.1 hfit
        rw [hs', Option.bind_eq_bind, Option.bind_some]
        refine (ih (by omega) hholds).2 fun hall => hnot fun j hj => ?_
        obtain rfl | hlt : j = k ∨ j < k := by omega
        · exact hfit
        · exact hall j hlt
      · rw [hround.2 hfit]
        rfl

theorem hasText_lt (h : HasText file db i) : i < file.length := by
  obtain ⟨e, he, -⟩ := h
  exact (List.getElem?_eq_some_iff.mp he).1

/-- The variables before the loop. -/
theorem holdsUrls_start (file : List SiteEntry) (db : StringsDb)
    (gethostbyname : List UInt8 → Option (List UInt8)) : HoldsUrls file db gethostbyname file.length
      ⟨List.replicate file.length false, false, ⟨[], []⟩⟩ := by
  have hnone : ∀ j ≥ file.length, ¬HasText file db j := fun j hj htext =>
    absurd (hasText_lt htext) (by omega)
  constructor
  · exact List.length_replicate
  · intro m hm
    rw [List.getD_eq_getElem?_getD, List.getElem?_replicate, if_pos hm]
    exact ⟨fun h => absurd h (by decide), fun ⟨j, hj, htext, _⟩ => absurd htext (hnone j hj)⟩
  · rw [List.getElem?_eq_none le_rfl]
    rfl
  · constructor
    · exact fun curl => ⟨fun h => absurd h List.not_mem_nil,
        fun ⟨j, hj, hshown, _⟩ => absurd hshown.1 (hnone j hj)⟩
    · exact fun ue hue => absurd hue List.not_mem_nil
    · exact fun j hj hstored => absurd hstored.1.1 (hnone j hj)
    · exact fun j _ _ => rfl

theorem entriesOf_storeUrlDb (u : ParsedUrl) (t : UrlTable) (i : ℕ) :
    entriesOf (storeUrlDb u t).table i = entriesOf t.table i := by
  rw [storeUrlDb, storeUrl]
  split
  · rfl
  · split
    · rfl
    · rw [entriesOf_append_singleton, if_neg (show (-2 : ℤ) ≠ i by omega), List.append_nil]

/-- The entries for a record, in a table that `qsort` has sorted. -/
theorem perm_entriesOf_qsort (table : List UrlEntry) (i : ℕ) :
    (entriesOf (qsort tableCmp table) i).Perm (entriesOf table i) :=
  (perm_qsort tableCmp table).filter _

/-- The entries of the table in the end. -/
structure TableOf (file : List SiteEntry) (db : StringsDb)
    (gethostbyname : List UInt8 → Option (List UInt8)) (table : List UrlEntry) : Prop where
  stored : ∀ i, Stored file db gethostbyname i →
    ∃ ue, recordEntry file db gethostbyname i = some ue ∧ entriesOf table i = [ue]
  notStored : ∀ i, ¬Stored file db gethostbyname i → entriesOf table i = []

/-- **`init_url_db` stores the records whose urls are new**, as long as these fit in their array. -/
theorem initUrlDb_leadsUp (h : LeadsUp file db) (server port path : List UInt8) :
    ((∀ i, Fits file db i) → ∃ table,
      initUrlDb gethostbyname server port path (some (file, db)) = some table ∧
        TableOf file db gethostbyname table) ∧
    (¬(∀ i, Fits file db i) →
      initUrlDb gethostbyname server port path (some (file, db)) = none) := by
  have hloop := initLoop_holds h le_rfl (holdsUrls_start file db gethostbyname)
  rw [initUrlDb]
  constructor
  · intro hfits
    obtain ⟨s, hs, hholds⟩ := hloop.1 fun j _ => hfits j
    rw [hs, Option.bind_eq_bind, Option.bind_some]
    split
    next hempty =>
      refine ⟨_, rfl, fun i hstored => ?_, fun i hnot => ?_⟩
      · obtain ⟨ue, -, hentries⟩ := hholds.known.stored i i.zero_le hstored
        rw [hempty] at hentries
        exact absurd hentries (List.cons_ne_nil _ _).symm
      · rw [entriesOf_storeUrlDb]
        exact hholds.known.notStored i i.zero_le hnot
    next =>
      refine ⟨_, rfl, fun i hstored => ?_, fun i hnot => ?_⟩
      · obtain ⟨ue, hue, hentries⟩ := hholds.known.stored i i.zero_le hstored
        exact ⟨ue, hue, List.perm_singleton.mp (hentries ▸ perm_entriesOf_qsort s.known.table i)⟩
      · exact List.perm_nil.mp (hholds.known.notStored i i.zero_le hnot ▸
          perm_entriesOf_qsort s.known.table i)
  · intro hnot
    rw [hloop.2 fun hall => hnot fun i => ?_]
    · rfl
    · by_cases hi : i < file.length
      · exact hall i hi
      · exact fun hshown => absurd (hasText_lt hshown.1) hi

end

end UrlDb

end Archie
