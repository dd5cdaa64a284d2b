/-
The index of a site against the scan of its file.

* `indexLoop_gives`, `scanLoop_gives` — either loop gives the hits of the records
  that it takes.
* `chainLoop_isSome` — from a record that stands for a directory the path is always
  made.
* `hits_index_iff` — with an index there are the same hits as without one, exactly
  if no record that stands for a directory holds, as its record number, the start
  that is looked for, and has a path that is asked for.
-/
import Mathlib.Data.List.Perm.Basic
import Archie.SiteHits

namespace Archie

/-- A site file whose links lead somewhere: an entry has a string, a record that stands
for a directory is linked to its entry and to that of the directory above, and only in
a web site are there keywords, each after a document or another keyword. -/
structure SoundSite (db : StringsDb) (web : Bool) (file : List SiteEntry) : Prop
    extends IsSiteFile file where
  name : ∀ e ∈ file, cseIsParent e.flags = false →
    ∃ name, name ≠ [] ∧ db.getString e.strt1 = some name
  plain : ∀ e ∈ file, cseIsParent e.flags = true → cseIsDoc e.flags = false
  document : ∀ (i : ℕ) (e e' : SiteEntry), file[i]? = some e → file[i + 1]? = some e' →
    cseIsKey e'.flags = true →
    web = true ∧ (cseIsDoc e.flags = true ∨ cseIsFile e.flags = true ∨ cseIsKey e.flags = true)
  up : ∀ (p : ℕ) (e : SiteEntry), file[p]? = some e → cseIsParent e.flags = true → p ≠ 0 →
    ∃ (q d : ℕ) (e' ent : SiteEntry), e.strt1 = q ∧ q < p ∧ file[q]? = some e' ∧
      cseIsParent e'.flags = true ∧ e.core = .prntEntry d ∧ file[d]? = some ent ∧
      cseIsParent ent.flags = false

section

variable {db : StringsDb} {site : SiteData} {accept : List UInt8 → Bool}

/-! ### The hits of a list of records -/

variable (db site accept)

/-- The hit of a record, by the index. -/
def hitAt (r : ℕ) : Option QueryResult := do
  let e ← site.file[r]?
  let hit ← indexHit db site r e
  some { hit.1 with ipaddr := site.ip }

/-- The hits of records that have a path that is asked for. -/
def acceptedHits (l : List ℕ) : List QueryResult :=
  (l.filterMap (hitAt db site)).filter fun q => accept q.str

/-- What a loop gives for the records that it takes: if it fails, one of them has no
hit; if it ends before the room is used up, it has added their hits. -/
def Gives (maxHits : ℤ) (l : List ℕ) (before : List QueryResult) (o : Option HitState) : Prop :=
  (o = none → ∃ r ∈ l, hitAt db site r = none) ∧
    ∀ s, o = some s → (s.hits.length : ℤ) < maxHits →
      (∀ r ∈ l, (hitAt db site r).isSome) ∧ s.hits = before ++ acceptedHits db site accept l

variable {db site accept}

section

variable {maxHits : ℤ} {l : List ℕ} {before : List QueryResult} {r : ℕ}

theorem Gives.nil {s : HitState} (hs : s.hits = before) :
    Gives db site accept maxHits [] before (some s) := by
  refine ⟨fun h => absurd h (by simp), ?_⟩
  rintro s' ⟨⟩ -
  simp [acceptedHits, hs]

/-- A record with a hit. -/
theorem Gives.cons {o : Option HitState} {q : QueryResult} (hq : hitAt db site r = some q)
    (h : Gives db site accept maxHits l (if accept q.str then before ++ [q] else before) o) :
    Gives db site accept maxHits (r :: l) before o := by
  refine ⟨fun hnone => ?_, fun s hs hroom => ?_⟩
  · obtain ⟨r', hr', hno⟩ := h.1 hnone
    exact ⟨r', List.mem_cons_of_mem r hr', hno⟩
  · obtain ⟨hall, hhits⟩ := h.2 s hs hroom
    refine ⟨List.forall_mem_cons.mpr ⟨by simp [hq], hall⟩, ?_⟩
    rw [hhits, acceptedHits, acceptedHits, List.filterMap_cons_some hq, List.filter_cons]
    split <;> simp

/-- A record whose hit is an error. -/
theorem Gives.error (hr : hitAt db site r = none) :
    Gives db site accept maxHits (r :: l) before none :=
  ⟨fun _ => ⟨r, by simp, hr⟩, fun s hs => absurd hs (by simp)⟩

/-- The room is used up. -/
theorem Gives.full {s : HitState} (hs : maxHits ≤ s.hits.length) :
    Gives db site accept maxHits l before (some s) := by
  refine ⟨fun h => absurd h (by simp), ?_⟩
  rintro s' ⟨⟩ hroom
  omega

end

/-- The records of a list that the loop over the index takes. -/
def SiteData.taken (site : SiteData) (recs : List ℕ) : List ℕ :=
  recs.filter fun r => site.file[r]?.any site.shows

/-- **The loop over the index.** -/
theorem indexLoop_gives {recs : List ℕ} (hrecs : ∀ r ∈ recs, r < site.file.length) (maxHits : ℤ)
    (s : HitState) :
    Gives db site accept maxHits (site.taken recs) s.hits
      (indexLoop db site accept 0 maxHits recs s) := by
  induction recs generalizing s with
  | nil => exact Gives.nil rfl
  | cons r recs ih =>
    obtain ⟨hr, hrest⟩ := List.forall_mem_cons.mp hrecs
    have hget : site.file[r]? = some site.file[r] := List.getElem?_eq_getElem hr
    rw [indexLoop, if_neg (by simp), hget, Option.bind_eq_bind, Option.bind_some, SiteData.taken,
      List.filter_cons, hget, Option.any_some]
    cases hshows : site.shows site.file[r] with
    | false => exact ih hrest _
    | true =>
      rw [if_pos rfl, if_neg (by simp)]
      cases hhit : indexHit db site r site.file[r] with
      | none => exact Gives.error (by simp [hitAt, hget, hhit])
      | some hit =>
        obtain ⟨result, currFile, currPrnt⟩ := hit
        refine Gives.cons (q := { result with ipaddr := site.ip }) (by simp [hitAt, hget, hhit]) ?_
        simp only [Option.bind_eq_bind, Option.bind_some]
        generalize (if accept result.str = true then s.hits ++ [{ result with ipaddr := site.ip }]
          else s.hits) = hits
        by_cases hfull : maxHits ≤ (hits.length : ℤ)
        · rw [if_pos hfull]
          exact Gives.full hfull
        · rw [if_neg hfull]
          exact ih hrest ⟨hits, r, currFile, currPrnt⟩

/-! ### The directory of a record -/

theorem findParent_of_parent {file : List SiteEntry} {p : ℕ} {e : SiteEntry}
    (he : file[p]? = some e)
    (hparent : cseIsParent e.flags = true) : findParent file p = p :=
  findParent_spec he hparent le_rfl fun j hj hjp => absurd hj (by omega)

theorem findParent_succ_of_not_parent {file : List SiteEntry} {p : ℕ} {e : SiteEntry}
    (he : file[p + 1]? = some e) (hparent : cseIsParent e.flags = false) :
    findParent file ((p + 1 : ℕ) : ℤ) = findParent file p := by
  rw [findParent, findParent, if_pos (Int.natCast_nonneg _), if_pos (Int.natCast_nonneg _),
    Int.toNat_natCast, Int.toNat_natCast, findParentFrom, he, Option.any_some, hparent]
  rfl

/-- The directory of a record is at or before it. -/
theorem IsSiteFile.findParent_le {file : List SiteEntry} (h : IsSiteFile file) {r : ℕ}
    (hr : r < file.length) : ∃ (p : ℕ) (e : SiteEntry), findParent file r = p ∧ p ≤ r ∧
      file[p]? = some e ∧ cseIsParent e.flags = true := by
  induction r with
  | zero =>
    have he : file[0]? = some file[0] := List.getElem?_eq_getElem hr
    have hparent := (h.first _ he).1
    exact ⟨0, _, findParent_of_parent he hparent, le_rfl, he, hparent⟩
  | succ r ih =>
    have he : file[r + 1]? = some file[r + 1] := List.getElem?_eq_getElem hr
    cases hparent : cseIsParent file[r + 1].flags with
    | true => exact ⟨r + 1, _, findParent_of_parent he hparent, le_rfl, he, hparent⟩
    | false =>
      obtain ⟨p, e, hfind, hle, hp⟩ := ih (by omega)
      exact ⟨p, e, by rw [findParent_succ_of_not_parent he hparent, hfind], by omega, hp⟩

/-! ### A path can be made -/

/-- From the record of a directory the loop of `handle_chain` goes up to the first
record. -/
theorem chainLoop_isSome {web : Bool} {file : List SiteEntry} (h : SoundSite db web file)
    (web' : Bool) (port : ℤ) {p : ℕ} {e : SiteEntry} (he : file[p]? = some e)
    (hparent : cseIsParent e.flags = true) {s : ChainState} (hprnt : s.currPrnt = p)
    (hdoc : s.doc = false) (hstring : (db.getString s.currStrings).isSome) {fuel : ℕ}
    (hfuel : p + 2 ≤ fuel) : (chainLoop db file web' port fuel s).isSome := by
  induction p using Nat.strong_induction_on generalizing e s fuel with
  | _ p ih =>
    obtain ⟨fuel, rfl⟩ : ∃ n, fuel = n + 1 := ⟨fuel - 1, by omega⟩
    rw [chainLoop]
    split
    next hgo =>
      obtain ⟨res, hres⟩ := Option.isSome_iff_exists.mp hstring
      rw [chainStep, hres, hprnt, fileAt_of_getElem? he]
      simp only [Option.bind_eq_bind, Option.bind_some, hparent, Bool.not_true, Bool.false_and,
        Bool.false_eq_true, if_false, chainWrite_doc, hdoc]
      rw [chainUp]
      by_cases hzero : p = 0
      · -- the first record leads nowhere
        subst hzero
        have hneg := (h.first e he).2
        obtain ⟨fuel, rfl⟩ : ∃ n, fuel = n + 1 := ⟨fuel - 1, by omega⟩
        rw [if_neg (by omega), Option.bind_some, chainLoop, if_neg (by simp; omega)]
        rfl
      · obtain ⟨q, d, e', ent, hstrt1, hlt, he', hparent', hcore, hent, hentry⟩ :=
          h.up p e he hparent hzero
        obtain ⟨name, -, hname⟩ := h.name ent (List.mem_of_getElem? hent) hentry
        rw [if_pos (by omega), hcore, SiteCore.strt2]
        simp only [Option.bind_eq_bind, Option.bind_some, fileAt_of_getElem? hent]
        refine ih q hlt he' hparent' ?_ ?_ ?_ (by omega)
        · exact hstrt1
        · simp
        · simp [hname]
    next => rfl

/-! ### The scan -/

theorem chainResult_noting {name : List UInt8} (hname : name ≠ []) (currPrnt currStrings : ℤ)
    (result : QueryResult) :
    chainResult db site currPrnt currStrings { result with qrystr := name } =
      (chainResult db site currPrnt currStrings result).map fun q => { q with qrystr := name } := by
  rw [chainResult, chainResult, handleChain_noting hname _ _ _ _ _ result.qrystr]
  cases handleChain db site.file site.fuel site.web site.port result.flags result.qrystr currPrnt
    currStrings <;> rfl

theorem docExcerpt_isNone (ent : SiteEntry) (excerpt : Excerpt) :
    docExcerpt site ent (!site.excerpts.isNone) excerpt = docExcerpt site ent true excerpt := by
  cases hexc : site.excerpts with
  | none =>
    have hperms : ¬ ((ent.core.fileInfo.2.2 : ℤ) < -1) := by omega
    simp [docExcerpt, SiteData.noExcerpts, hexc, hperms]
  | some l => rfl

/-- The keyword's directory comes before its document. -/
theorem SoundSite.findParent_lt (h : SoundSite db site.web site.file) {d r : ℕ}
    (hb : Belongs site.file d r) (hr : r < site.file.length) : findParent site.file r < d := by
  obtain ⟨p, e, hfind, hle, he, hparent⟩ := h.findParent_le hr
  rw [hfind]
  obtain ⟨⟨ed, hed, hdparent, -⟩, -, hbetween⟩ := hb
  by_contra hge
  rcases Nat.eq_or_lt_of_le (show d ≤ p by omega) with rfl | hlt
  · rw [he] at hed
    rw [← Option.some.inj hed, hparent] at hdparent
    exact absurd hdparent (by simp)
  · obtain ⟨e', he', hkey⟩ := hbetween p hlt hle
    rw [he] at he'
    rw [← Option.some.inj he', h.kind e (List.mem_of_getElem? he) hparent] at hkey
    exact absurd hkey (by simp)

/-- The hit of a record that the scan has come to is the one by the index. -/
theorem scanHit_eq (h : SoundSite db site.web site.file) {r : ℕ} {e : SiteEntry}
    (he : site.file[r]? = some e) (hparent : cseIsParent e.flags = false) {name : List UInt8}
    (hname : name ≠ []) (hstring : db.getString e.strt1 = some name) {currFile : ℤ}
    (hfile : cseIsKey e.flags = true → currFile = fileFrom site.file (r + 1)) :
    hitAt db site r = (scanHit db site r e currFile (findParent site.file r)).map fun q =>
      { q with qrystr := name, ipaddr := site.ip } := by
  have hr : r < site.file.length := (List.getElem?_eq_some_iff.mp he).1
  rw [hitAt, he, Option.bind_eq_bind, Option.bind_some, indexHit, scanHit, hstring]
  simp only [Option.bind_eq_bind, Option.bind_some]
  cases hkey : cseIsKey e.flags with
  | false =>
    rw [Bool.and_false, if_neg (by simp), if_neg (by simp)]
    have hchain := @chainResult_noting db site name hname (findParent site.file r) e.strt1
      (setIndexability site r (handleEntry site e .blank))
    have hset : setIndexability site r { handleEntry site e .blank with qrystr := name } =
        { setIndexability site r (handleEntry site e .blank) with qrystr := name } := rfl
    rw [hset, hchain]
    cases chainResult db site (findParent site.file r) e.strt1
      (setIndexability site r (handleEntry site e .blank)) <;> rfl
  | true =>
    obtain ⟨d, hb⟩ := h.exists_belongs he hparent
    have hd : fileFrom site.file (r + 1) = d := fileFrom_of_belongs hb
    have hlt := h.findParent_lt hb hr
    obtain ⟨⟨ent, hent, -, -⟩, -, -⟩ := hb
    have hweb : site.web = true := by
      cases r with
      | zero =>
        rw [(h.first e he).1] at hparent
        exact absurd hparent (by simp)
      | succ r =>
        exact (h.document r _ e (List.getElem?_eq_getElem (by omega)) he hkey).1
    rw [hweb, hfile hkey, hd, Bool.true_and, if_pos rfl, if_pos rfl, Bool.true_and,
      if_pos (by simpa using hlt)]
    simp only [fileAt_of_getElem? hent, Option.bind_some]
    have hcopy : handleKeyPrntEntry site ent
        { handleEntry site e .blank with qrystr := name, type := .indx } =
        { copyDocInfo site ent site.excerpts.isNone { handleEntry site e .blank with type := .indx } with
          qrystr := name } := by
      simp only [handleKeyPrntEntry, copyDocInfo, hweb, Bool.not_true, Bool.not_false,
        docExcerpt_isNone]
    rw [hcopy, chainResult_noting hname]
    cases chainResult db site d ent.strt1
      (copyDocInfo site ent site.excerpts.isNone { handleEntry site e .blank with type := .indx })
        <;> rfl

/-- The records whose hits the scan gives. -/
def SiteData.matching (site : SiteData) (start : ℤ) (r : ℕ) : Bool :=
  site.file[r]?.any fun e => decide (e.strt1 = start) && !cseIsParent e.flags && site.shows e

/-- What the scan remembers when it comes to the record `n`. -/
structure ScanInv (site : SiteData) (n : ℕ) (s : HitState) : Prop where
  prnt : s.currPrnt = if n = 0 then 0 else findParent site.file (n - 1 : ℕ)
  file : ∀ m e, n = m + 1 → site.file[m]? = some e → cseIsParent e.flags = false →
    site.shows e = true → s.currFile = fileFrom site.file n

theorem ScanInv.start {s : HitState} (hs : s.currPrnt = 0) : ScanInv site 0 s :=
  ⟨by rw [hs, if_pos rfl], fun m e hm => absurd hm (by omega)⟩

/-- A record that stands for a directory becomes the current one. -/
theorem ScanInv.parent {n : ℕ} {e : SiteEntry} (he : site.file[n]? = some e)
    (hparent : cseIsParent e.flags = true) {s : HitState} (hs : s.currPrnt = n) :
    ScanInv site (n + 1) s := by
  refine ⟨?_, ?_⟩
  · rw [hs, if_neg (by omega), Nat.add_sub_cancel, findParent_of_parent he hparent]
  · intro m e' hm he' hnot
    obtain rfl : m = n := by omega
    rw [he] at he'
    rw [← Option.some.inj he', hparent] at hnot
    exact absurd hnot (by simp)

/-- At an entry the directory is that of the record before it. -/
theorem ScanInv.prnt_entry {n : ℕ} {s : HitState} (hinv : ScanInv site n s)
    (h : IsSiteFile site.file) {e : SiteEntry} (he : site.file[n]? = some e)
    (hparent : cseIsParent e.flags = false) : s.currPrnt = findParent site.file n := by
  cases n with
  | zero =>
    rw [(h.first e he).1] at hparent
    exact absurd hparent (by simp)
  | succ n =>
    rw [hinv.prnt, if_neg (by omega), Nat.add_sub_cancel, findParent_succ_of_not_parent he hparent]

/-- An entry that is not shown leaves the state as it is. -/
theorem ScanInv.hidden {n : ℕ} {s : HitState} (hinv : ScanInv site n s) (h : IsSiteFile site.file)
    {e : SiteEntry} (he : site.file[n]? = some e) (hparent : cseIsParent e.flags = false)
    (hshows : site.shows e = false) : ScanInv site (n + 1) s := by
  refine ⟨?_, ?_⟩
  · rw [if_neg (by omega), Nat.add_sub_cancel]
    exact hinv.prnt_entry h he hparent
  · intro m e' hm he' _ hshows'
    obtain rfl : m = n := by omega
    rw [he] at he'
    rw [← Option.some.inj he', hshows] at hshows'
    exact absurd hshows' (by simp)

/-- At an entry that is shown, the document of the record is remembered. -/
theorem ScanInv.file_entry {n : ℕ} {s : HitState} (hinv : ScanInv site n s)
    (h : SoundSite db site.web site.file) {e : SiteEntry} (he : site.file[n]? = some e) :
    (if cseIsKey e.flags = true then s.currFile else (n : ℤ)) = fileFrom site.file (n + 1) := by
  cases hkey : cseIsKey e.flags with
  | false => rw [if_neg (by simp), fileFrom_of_not_key he hkey]
  | true =>
    rw [if_pos rfl, fileFrom_of_key he hkey]
    cases n with
    | zero =>
      have hnokey := h.kind e (List.mem_of_getElem? he) (h.first e he).1
      rw [hkey] at hnokey
      exact absurd hnokey (by simp)
    | succ n =>
      have hn : n < site.file.length := by
        have := (List.getElem?_eq_some_iff.mp he).1
        omega
      have hprev : site.file[n]? = some site.file[n] := List.getElem?_eq_getElem hn
      obtain ⟨-, hkind⟩ := h.document n _ e hprev he hkey
      refine hinv.file n _ rfl hprev (h.keyword n _ e hprev he hkey) ?_
      rcases hkind with hkind | hkind | hkind <;> simp [SiteData.shows, hkind]

/-- What the scan remembers of the record it is at, if this is an entry that is shown. -/
structure ScanAt (site : SiteData) (n : ℕ) (e : SiteEntry) (s : HitState) : Prop where
  prnt : s.currPrnt = findParent site.file n
  file : (if cseIsKey e.flags = true then s.currFile else (n : ℤ)) = fileFrom site.file (n + 1)

theorem ScanInv.at_entry {n : ℕ} {s : HitState} (hinv : ScanInv site n s)
    (h : SoundSite db site.web site.file) {e : SiteEntry} (he : site.file[n]? = some e)
    (hparent : cseIsParent e.flags = false) : ScanAt site n e s :=
  ⟨hinv.prnt_entry h.toIsSiteFile he hparent, hinv.file_entry h he⟩

/-- A round for an entry that is shown: the document is remembered, and nothing else. -/
theorem ScanAt.next {n : ℕ} {e : SiteEntry} {s s' : HitState} (hat : ScanAt site n e s)
    (hfile : s'.currFile = if cseIsKey e.flags = true then s.currFile else (n : ℤ))
    (hprnt : s'.currPrnt = s.currPrnt) : ScanInv site (n + 1) s' := by
  refine ⟨?_, fun m e' _ _ _ _ => ?_⟩
  · rw [hprnt, hat.prnt, if_neg (by omega), Nat.add_sub_cancel]
  · rw [hfile, hat.file]

/-- **A round of the scan for a record with a hit.** -/
theorem scanStep_matching (h : SoundSite db site.web site.file) {start : ℤ} {n : ℕ} {e : SiteEntry}
    (he : site.file[n]? = some e) (hmatch : site.matching start n = true) {s : HitState}
    (hat : ScanAt site n e s) :
    (hitAt db site n = none ∧ scanStep db site accept start n e s = none) ∨
      ∃ q s', hitAt db site n = some q ∧ scanStep db site accept start n e s = some s' ∧
        s'.hits = (if accept q.str then s.hits ++ [q] else s.hits) ∧ ScanInv site (n + 1) s' := by
  rw [SiteData.matching, he, Option.any_some] at hmatch
  simp only [Bool.and_eq_true, decide_eq_true_eq, Bool.not_eq_true'] at hmatch
  obtain ⟨⟨hstart, hparent⟩, hshows⟩ := hmatch
  obtain ⟨name, hname, hstring⟩ := h.name e (List.mem_of_getElem? he) hparent
  rw [scanStep, hparent, if_neg (by simp), if_pos hshows]
  set s₁ : HitState := if cseIsKey e.flags = true then s else { s with currFile := n } with hs₁
  have hhits : s₁.hits = s.hits := by
    rw [hs₁]
    split <;> rfl
  have hfile : s₁.currFile = if cseIsKey e.flags = true then s.currFile else (n : ℤ) := by
    rw [hs₁]
    split <;> rfl
  have hprnt : s₁.currPrnt = s.currPrnt := by
    rw [hs₁]
    split <;> rfl
  have hhit := @scanHit_eq db site h _ _ he hparent _ hname hstring s₁.currFile
    fun _ => hfile.trans hat.file
  rw [if_pos hstart, hprnt, hat.prnt]
  cases hres : scanHit db site n e s₁.currFile (findParent site.file n) with
  | none =>
    rw [hres] at hhit
    exact Or.inl ⟨hhit, rfl⟩
  | some result =>
    rw [hres] at hhit
    simp only [Option.bind_eq_bind, Option.bind_some, ← hstart, hstring]
    cases haccept : accept result.str with
    | true =>
      refine Or.inr ⟨_, _, hhit, rfl, ?_, hat.next hfile hat.prnt.symm⟩
      simp [haccept, hhits]
    | false =>
      refine Or.inr ⟨_, _, hhit, rfl, ?_, hat.next hfile hprnt⟩
      simp [haccept, hhits]

/-- **A round of the scan for any other record** that has an offset. -/
theorem scanStep_other (h : SoundSite db site.web site.file) {start : ℤ} {n : ℕ} {e : SiteEntry}
    (he : site.file[n]? = some e) (hno : site.matching start n = false) {s : HitState}
    (hinv : ScanInv site n s) :
    ∃ s', scanStep db site accept start n e s = some s' ∧ s'.hits = s.hits ∧
      ScanInv site (n + 1) s' := by
  rw [scanStep]
  cases hparent : cseIsParent e.flags with
  | true => exact ⟨_, rfl, rfl, ScanInv.parent he hparent rfl⟩
  | false =>
    cases hshows : site.shows e with
    | false => exact ⟨s, rfl, rfl, hinv.hidden h.toIsSiteFile he hparent hshows⟩
    | true =>
      have hstart : e.strt1 ≠ start := by
        intro hstart
        simp [SiteData.matching, he, hparent, hshows, hstart] at hno
      rw [if_neg (by simp), if_pos rfl, if_neg hstart]
      have hat := hinv.at_entry h he hparent
      refine ⟨_, rfl, ?_, hat.next ?_ ?_⟩
      all_goals split <;> rfl

/-- A record without an offset is the first one, and the scan begins after it. -/
theorem ScanInv.first {n : ℕ} {s : HitState} (hinv : ScanInv site n s)
    (h : SoundSite db site.web site.file) {e : SiteEntry} (he : site.file[n]? = some e)
    (hneg : ¬ 0 ≤ e.strt1) (start : ℤ) :
    site.matching start n = false ∧ ScanInv site (n + 1) s := by
  cases hparent : cseIsParent e.flags with
  | false => exact absurd (h.string e (List.mem_of_getElem? he) hparent) hneg
  | true =>
    have hn : n = 0 := by
      by_contra hne
      obtain ⟨q, -, -, -, hq, -⟩ := h.up n e he hparent hne
      omega
    refine ⟨by simp [SiteData.matching, he, hparent], ScanInv.parent he hparent ?_⟩
    rw [hinv.prnt, if_pos hn, hn]
    rfl

/-- **The scan.** -/
theorem scanLoop_gives (h : SoundSite db site.web site.file) (start maxHits : ℤ)
    {rest : List SiteEntry}
    {n : ℕ} (hrest : site.file.drop n = rest) {s : HitState} (hinv : ScanInv site n s) :
    Gives db site accept maxHits ((List.range' n rest.length).filter (site.matching start)) s.hits
      (scanLoop db site accept start maxHits rest n s) := by
  induction rest generalizing n s with
  | nil => exact Gives.nil rfl
  | cons e rest ih =>
    have he : site.file[n]? = some e := by
      rw [← Nat.add_zero n, ← List.getElem?_drop, hrest]
      rfl
    have hdrop : site.file.drop (n + 1) = rest := by
      rw [← List.drop_drop, hrest]
      rfl
    -- the loop goes on after this record, unless the room is used up
    have hgo : ∀ s', ScanInv site (n + 1) s' → Gives db site accept maxHits
        ((List.range' (n + 1) rest.length).filter (site.matching start)) s'.hits
        (if maxHits ≤ (s'.hits.length : ℤ) then some { s' with currCount := n }
        else scanLoop db site accept start maxHits rest (n + 1) s') := by
      intro s' hinv'
      split
      next hfull => exact Gives.full hfull
      next => exact ih hdrop hinv'
    rw [scanLoop, List.length_cons, List.range'_succ]
    by_cases hpos : 0 ≤ e.strt1
    · rw [if_pos hpos]
      cases hmatch : site.matching start n with
      | true =>
        rw [List.filter_cons_of_pos hmatch]
        rcases @scanStep_matching db site accept h _ _ _ he hmatch _
          (hinv.at_entry h he (by
            simp [SiteData.matching, he] at hmatch
            exact hmatch.1.2)) with ⟨hnone, hstep⟩ | ⟨q, s', hq, hstep, hhits, hinv'⟩
        · rw [hstep]
          exact Gives.error hnone
        · rw [hstep, Option.bind_eq_bind, Option.bind_some]
          refine Gives.cons hq ?_
          rw [← hhits]
          exact hgo s' hinv'
      | false =>
        obtain ⟨s', hstep, hhits, hinv'⟩ := @scanStep_other db site accept h _ _ _ he hmatch _ hinv
        rw [List.filter_cons_of_neg
          (by simp [hmatch]), hstep, Option.bind_eq_bind, Option.bind_some,
          ← hhits]
        exact hgo s' hinv'
    · obtain ⟨hno, hinv'⟩ := hinv.first h he hpos start
      rw [if_neg hpos, List.filter_cons_of_neg (by simp [hno])]
      exact ih hdrop hinv'

/-! ### The two together -/

theorem acceptedHits_perm {l l' : List ℕ} (h : l.Perm l') :
    (acceptedHits db site accept l).Perm (acceptedHits db site accept l') :=
  (h.filterMap _).filter _

theorem acceptedHits_append (l l' : List ℕ) : acceptedHits db site accept (l ++ l') =
    acceptedHits db site accept l ++ acceptedHits db site accept l' := by
  rw [acceptedHits, List.filterMap_append, List.filter_append]
  rfl

/-- A `site_record` from which a site is looked at from its beginning. -/
def StartReturn.Fresh (r : StartReturn) : Prop :=
  r.stop < 0 ∨ r.siteStop = 0 ∧ r.siteFile = 0 ∧ r.sitePrnt = 0

theorem getResultFromStart_fresh {siteRecord : StartReturn} (hfresh : siteRecord.Fresh)
    (start maxHits : ℤ) : getResultFromStart db site accept start siteRecord maxHits =
      finishResult siteRecord
        (match site.index?.bind fun index => searchSiteIndex index start with
          | some recs => indexLoop db site accept 0 maxHits recs ⟨[], 0, 0, 0⟩
          | none => scanLoop db site accept start maxHits site.file 0 ⟨[], 0, 0, 0⟩) := by
  have hzero : recordIn site.file.length 0 = 0 := by simp [recordIn]
  rw [getResultFromStart]
  rcases hfresh with hneg | ⟨hstop, hfile, hprnt⟩
  · have hres : decide (0 ≤ siteRecord.stop ∧ 0 ≤ siteRecord.siteStop ∧
        siteRecord.siteStop < site.file.length) = false := by
      rw [decide_eq_false_iff_not]
      omega
    simp only [hres, Bool.false_eq_true, if_false, Int.toNat_zero, List.drop_zero] <;> rfl
  · simp only [hstop, hfile, hprnt, hzero, ite_self, Int.toNat_zero, List.drop_zero] <;> rfl

/-- The two outcomes of a loop over some records. -/
def LoopOutcome (db : StringsDb) (site : SiteData) (accept : List UInt8 → Bool) (l : List ℕ)
    (hits : List QueryResult) : Prop :=
  (∃ r ∈ l, hitAt db site r = none) ∧ hits = [] ∨
    (∀ r ∈ l, (hitAt db site r).isSome) ∧ hits = acceptedHits db site accept l

/-- The hits that are returned, if there is room for more. -/
theorem Gives.hits {maxHits : ℤ} {l : List ℕ} {o : Option HitState} {siteRecord : StartReturn}
    (h : Gives db site accept maxHits l [] o)
    (hroom : ((finishResult siteRecord o).hits.length : ℤ) < maxHits) :
    LoopOutcome db site accept l (finishResult siteRecord o).hits := by
  cases o with
  | none => exact Or.inl ⟨h.1 rfl, rfl⟩
  | some s => exact Or.inr (h.2 s rfl hroom)

/-- The records that stand for a directory and hold the start. -/
def SiteData.dirsWith (site : SiteData) (start : ℤ) : List ℕ :=
  (recordsWith site.file start).filter fun r =>
    site.file[r]?.any fun e => cseIsParent e.flags && site.shows e

/-- The records that the index gives are those of the scan and these. -/
theorem taken_perm {recs : List ℕ} {start : ℤ} (hrecs : recs.Perm (recordsWith site.file start)) :
    (site.taken recs).Perm ((List.range' 0 site.file.length).filter (site.matching start) ++
      site.dirsWith start) := by
  have hnodup := nodup_recordsWith site.file start
  refine (List.perm_ext_iff_of_nodup ((hrecs.nodup_iff.mpr hnodup).filter _) ?_).mpr fun r => ?_
  · refine List.Nodup.append (List.Nodup.filter _ List.nodup_range')
      (hnodup.filter _) fun r hr hr' => ?_
    obtain ⟨-, hmatch⟩ := List.mem_filter.mp hr
    obtain ⟨-, hdir⟩ := List.mem_filter.mp hr'
    rw [SiteData.matching, Option.any_eq_true] at hmatch
    rw [Option.any_eq_true] at hdir
    obtain ⟨e, he, hmatch⟩ := hmatch
    obtain ⟨e', he', hdir⟩ := hdir
    rw [he] at he'
    obtain rfl := Option.some.inj he'
    simp only [Bool.and_eq_true, Bool.not_eq_true', decide_eq_true_eq] at hmatch hdir
    rw [hdir.1] at hmatch
    exact absurd hmatch.1.2 (by simp)
  · rw [SiteData.dirsWith, List.mem_append, List.mem_filter, List.mem_filter,
      List.mem_filter, hrecs.mem_iff, mem_recordsWith, List.mem_range'_1]
    simp only [SiteData.matching, Option.any_eq_true]
    constructor
    · rintro ⟨⟨e, he, hstart⟩, e', he', hshows⟩
      rw [he] at he'
      obtain rfl := Option.some.inj he'
      cases hparent : cseIsParent e.flags with
      | false =>
        refine Or.inl ⟨⟨by omega, ?_⟩, e, he, by simp [hstart, hparent, hshows]⟩
        have := (List.getElem?_eq_some_iff.mp he).1
        omega
      | true => exact Or.inr ⟨⟨e, he, hstart⟩, e, he, by simp [hparent, hshows]⟩
    · rintro (⟨-, e, he, hmatch⟩ | ⟨hin, e, he, hdir⟩)
      · simp only [Bool.and_eq_true, decide_eq_true_eq] at hmatch
        exact ⟨⟨e, he, hmatch.1.1⟩, e, he, hmatch.2⟩
      · simp only [Bool.and_eq_true] at hdir
        exact ⟨hin, e, he, hdir.2⟩

/-- In a web site no record that stands for a directory is looked at. -/
theorem SoundSite.dirsWith_web (h : SoundSite db site.web site.file) (hweb : site.web = true)
    (start : ℤ) : site.dirsWith start = [] := by
  refine List.filter_eq_nil_iff.mpr fun r _ hany => ?_
  rw [Option.any_eq_true] at hany
  obtain ⟨e, he, hdir⟩ := hany
  simp only [Bool.and_eq_true] at hdir
  have hmem := List.mem_of_getElem? he
  have hfile : cseIsFile e.flags = false := by
    by_contra hc
    have hzero : e.flags = 0 := by simpa [cseIsFile] using hc
    have hparent := hdir.1
    rw [hzero] at hparent
    exact absurd hparent (by decide)
  simp [SiteData.shows, hweb, h.plain e hmem hdir.1, h.kind e hmem hdir.1, hfile] at hdir

/-- The path does not depend on the string that a hit is noted with. -/
theorem handleChain_str (file : List SiteEntry) (fuel : ℕ) (web : Bool) (port : ℤ) (flags : ℕ)
    (q q' : List UInt8) (currPrnt currStrings : ℤ) :
    (handleChain db file fuel web port flags q currPrnt currStrings).map Prod.snd =
      (handleChain db file fuel web port flags q' currPrnt currStrings).map Prod.snd := by
  have hnine : ∀ r, (handleChain db file fuel web port flags
      [57] currPrnt currStrings).map Prod.snd =
      (handleChain db file fuel web port flags r currPrnt currStrings).map Prod.snd := by
    intro r
    rw [handleChain_noting (by simp) file fuel web port flags r]
    cases handleChain db file fuel web port flags r currPrnt currStrings <;> rfl
  rw [← hnine q, ← hnine q']

variable (db site) in
/-- The path that `handle_chain` makes for a record that stands for a directory and is
taken for a hit. -/
def dirPath (p : ℕ) (flags : ℕ) (start : ℤ) : Option (List UInt8) :=
  (handleChain db site.file site.fuel site.web site.port flags [] p start).map Prod.snd

theorem flags_handleEntry (e : SiteEntry) (result : QueryResult) :
    (handleEntry site e result).flags = e.flags := by
  simp only [handleEntry]
  split <;> rfl

theorem str_chainResult (currPrnt currStrings : ℤ) (result : QueryResult) (q : List UInt8) :
    (chainResult db site currPrnt currStrings result).map QueryResult.str =
      (handleChain db site.file site.fuel site.web site.port result.flags q currPrnt
        currStrings).map Prod.snd := by
  rw [@handleChain_str db site.file site.fuel site.web site.port result.flags q result.qrystr,
    chainResult]
  cases handleChain db site.file site.fuel site.web site.port result.flags result.qrystr currPrnt
    currStrings <;> rfl

/-- The path of the hit of a record that has no document, by the index. -/
theorem hitAt_str {r : ℕ} {e : SiteEntry} (he : site.file[r]? = some e) (hweb : site.web = false) :
    (hitAt db site r).map QueryResult.str = (db.getString e.strt1).bind fun _ =>
      (handleChain db site.file site.fuel site.web site.port e.flags [] (findParent site.file r)
        e.strt1).map Prod.snd := by
  rw [hitAt, he, Option.bind_eq_bind, Option.bind_some, indexHit]
  cases db.getString e.strt1 with
  | none => rfl
  | some name =>
    simp only [hweb, Bool.false_and, Bool.false_eq_true, if_false, Option.bind_eq_bind,
      Option.bind_some]
    have hflags : (setIndexability site r { handleEntry site e .blank with qrystr := name }).flags =
        e.flags := flags_handleEntry e .blank
    have hstr := @str_chainResult db site (findParent site.file r) e.strt1
      (setIndexability site r { handleEntry site e .blank with qrystr := name }) []
    rw [hflags, hweb] at hstr
    rw [← hstr]
    cases chainResult db site (findParent site.file r) e.strt1
      (setIndexability site r { handleEntry site e .blank with qrystr := name }) <;> rfl

/-- `handle_chain` succeeds from the record of a directory with any string. -/
theorem SoundSite.handleChain_isSome (h : SoundSite db site.web site.file) (hweb : site.web = false)
    {p : ℕ} {e : SiteEntry} (he : site.file[p]? = some e) (hparent : cseIsParent e.flags = true)
    {currStrings : ℤ} (hstring : (db.getString currStrings).isSome) (flags : ℕ) (q : List UInt8) :
    (handleChain db site.file site.fuel site.web site.port flags q p currStrings).isSome := by
  have hp : p < site.file.length := (List.getElem?_eq_some_iff.mp he).1
  have hfuel : p + 2 ≤ site.fuel := by
    rw [SiteData.fuel]
    omega
  have hloop := chainLoop_isSome h site.web site.port he hparent
    (s := { currPrnt := p, currStrings := currStrings, oldPrntEnt := none
            key := site.web && cseIsKey flags, document := false, doc := false
            tmp := [], tot := [], maxLength := maxPathLen, qrystr := q }) rfl rfl hstring hfuel
  obtain ⟨t, ht⟩ := Option.isSome_iff_exists.mp hloop
  rw [handleChain, hweb]
  simp only [Bool.false_eq_true, if_false, Option.bind_eq_bind, Option.bind_some]
  rw [hweb] at ht
  rw [ht]
  rfl

/-- In an anonftp site a record has a hit if it has a string. -/
theorem SoundSite.hitAt_isSome (h : SoundSite db site.web site.file) (hweb : site.web = false)
    {r : ℕ}
    {e : SiteEntry} (he : site.file[r]? = some e) :
    (hitAt db site r).isSome = (db.getString e.strt1).isSome := by
  have hr : r < site.file.length := (List.getElem?_eq_some_iff.mp he).1
  obtain ⟨p, ep, hfind, -, hep, hparent⟩ := h.findParent_le hr
  have hstr := @hitAt_str db site r e he hweb
  rw [hfind] at hstr
  have hsome : (hitAt db site r).isSome = ((hitAt db site r).map QueryResult.str).isSome := by simp
  rw [hsome, hstr]
  cases hget : db.getString e.strt1 with
  | none => rfl
  | some name =>
    have hchain := h.handleChain_isSome hweb hep hparent (by rw [hget]; rfl) e.flags []
    simpa using hchain

/-- The hit of a record that stands for a directory has this path. -/
theorem hitAt_dir {p : ℕ} {e : SiteEntry} (he : site.file[p]? = some e) (hweb : site.web = false)
    (hparent : cseIsParent e.flags = true) (hstring : (db.getString e.strt1).isSome) :
    (hitAt db site p).map QueryResult.str = dirPath db site p e.flags e.strt1 := by
  obtain ⟨name, hname⟩ := Option.isSome_iff_exists.mp hstring
  rw [hitAt_str he hweb, hname, findParent_of_parent he hparent]
  rfl

theorem mem_dirsWith {start : ℤ} (hweb : site.web = false) {p : ℕ} : p ∈ site.dirsWith start ↔
    ∃ e, site.file[p]? = some e ∧ cseIsParent e.flags = true ∧ e.strt1 = start := by
  rw [SiteData.dirsWith, List.mem_filter, mem_recordsWith, Option.any_eq_true]
  simp only [SiteData.shows, hweb, Bool.not_false, Bool.true_or, Bool.and_true]
  constructor
  · rintro ⟨⟨e, he, hstart⟩, e', he', hparent⟩
    rw [he] at he'
    obtain rfl := Option.some.inj he'
    exact ⟨e, he, hparent, hstart⟩
  · rintro ⟨e, he, hparent, hstart⟩
    exact ⟨⟨e, he, hstart⟩, e, he, hparent⟩

/-- No hit of such a record counts, exactly if none of them has a path that is asked for. -/
theorem acceptedHits_dirsWith {start : ℤ} (hweb : site.web = false)
    (hstring : (db.getString start).isSome) :
    acceptedHits db site accept (site.dirsWith start) = [] ↔ ∀ (p : ℕ) (e : SiteEntry),
      site.file[p]? = some e → cseIsParent e.flags = true → e.strt1 = start →
        ∀ str ∈ dirPath db site p e.flags start, accept str = false := by
  rw [acceptedHits, List.filter_eq_nil_iff]
  simp only [List.mem_filterMap]
  constructor
  · intro hnone p e he hparent hstart str hstr
    subst hstart
    rw [← hitAt_dir he hweb hparent hstring] at hstr
    obtain ⟨q, hq, rfl⟩ := Option.mem_map.mp hstr
    simpa using hnone q ⟨p, (mem_dirsWith hweb).mpr ⟨e, he, hparent, rfl⟩, hq⟩
  · rintro hnone q ⟨p, hp, hq⟩
    obtain ⟨e, he, hparent, rfl⟩ := (mem_dirsWith hweb).mp hp
    have hstr : q.str ∈ dirPath db site p e.flags e.strt1 := by
      rw [← hitAt_dir he hweb hparent hstring, hq]
      rfl
    simpa using hnone p e he hparent rfl q.str hstr

theorem loopOutcome_perm {l l' : List ℕ} (hperm : l.Perm l') {hits hits' : List QueryResult}
    (h : LoopOutcome db site accept l hits) (h' : LoopOutcome db site accept l' hits') :
    hits.Perm hits' := by
  rcases h with ⟨⟨r, hr, hbad⟩, rfl⟩ | ⟨hall, rfl⟩
  · rcases h' with ⟨-, rfl⟩ | ⟨hall', -⟩
    · exact List.Perm.refl _
    · have hsome := hall' r (hperm.mem_iff.mp hr)
      rw [hbad] at hsome
      exact absurd hsome (by simp)
  · rcases h' with ⟨⟨r, hr, hbad⟩, -⟩ | ⟨-, rfl⟩
    · have hsome := hall r (hperm.mem_iff.mpr hr)
      rw [hbad] at hsome
      exact absurd hsome (by simp)
    · exact acceptedHits_perm hperm

/-- Without the string, no record of an anonftp site has a hit. -/
theorem SoundSite.outcome_nil (h : SoundSite db site.web site.file) (hweb : site.web = false)
    {l : List ℕ} {start : ℤ} (hl : ∀ r ∈ l, r ∈ recordsWith site.file start)
    (hstring : db.getString start = none) {hits : List QueryResult}
    (ho : LoopOutcome db site accept l hits) : hits = [] := by
  rcases ho with ⟨-, hnil⟩ | ⟨hall, rfl⟩
  · exact hnil
  · cases l with
    | nil => rfl
    | cons r l =>
      obtain ⟨e, he, hstart⟩ := mem_recordsWith.mp (hl r (by simp))
      have hsome := hall r (by simp)
      rw [h.hitAt_isSome hweb he, hstart, hstring] at hsome
      exact absurd hsome (by simp)

/-- With the string, each record of an anonftp site that has it has a hit. -/
theorem SoundSite.outcome_all (h : SoundSite db site.web site.file) (hweb : site.web = false)
    {l : List ℕ} {start : ℤ} (hl : ∀ r ∈ l, r ∈ recordsWith site.file start)
    (hstring : (db.getString start).isSome) {hits : List QueryResult}
    (ho : LoopOutcome db site accept l hits) : hits = acceptedHits db site accept l := by
  rcases ho with ⟨⟨r, hr, hbad⟩, -⟩ | ⟨-, heq⟩
  · obtain ⟨e, he, hstart⟩ := mem_recordsWith.mp (hl r hr)
    have hsome := h.hitAt_isSome hweb he
    rw [hbad, hstart, hstring] at hsome
    exact absurd hsome (by simp)
  · exact heq

theorem dirPath_of_getString_none {start : ℤ} (hstart : 0 ≤ start) (hweb : site.web = false)
    (hstring : db.getString start = none) (p : ℕ) (flags : ℕ) :
    dirPath db site p flags start = none := by
  rw [dirPath, handleChain, hweb]
  simp only [Bool.false_eq_true, if_false, Option.bind_eq_bind, Option.bind_some]
  rw [SiteData.fuel, chainLoop, if_pos ⟨by simp, hstart⟩, chainStep]
  simp [hstring]

/-- The records of the scan and those of the index, at the level of the loops. -/
theorem outcome_perm_iff (h : SoundSite db site.web site.file) {start : ℤ} (hstart : 0 ≤ start)
    {recs : List ℕ} (hperm : recs.Perm (recordsWith site.file start))
    {hits hits' : List QueryResult}
    (ho : LoopOutcome db site accept (site.taken recs) hits)
    (ho' : LoopOutcome db site accept
      ((List.range' 0 site.file.length).filter (site.matching start)) hits') :
    hits.Perm hits' ↔ site.web = true ∨ ∀ (p : ℕ) (e : SiteEntry), site.file[p]? = some e →
      cseIsParent e.flags = true → e.strt1 = start →
        ∀ str ∈ dirPath db site p e.flags start, accept str = false := by
  have htaken := taken_perm hperm
  by_cases hweb : site.web = true
  · rw [h.dirsWith_web hweb start, List.append_nil] at htaken
    exact iff_of_true (loopOutcome_perm htaken ho ho') (Or.inl hweb)
  · rw [Bool.not_eq_true] at hweb
    have hT : ∀ r ∈ site.taken recs, r ∈ recordsWith site.file start := fun r hr =>
      hperm.mem_iff.mp (List.mem_filter.mp hr).1
    have hS : ∀ r ∈ (List.range' 0 site.file.length).filter (site.matching start),
        r ∈ recordsWith site.file start := by
      intro r hr
      exact hT r (htaken.mem_iff.mpr (List.mem_append_left _ hr))
    rw [hweb]
    simp only [Bool.false_eq_true, false_or]
    cases hstring : db.getString start with
    | none =>
      rw [h.outcome_nil hweb hT hstring ho, h.outcome_nil hweb hS hstring ho']
      refine iff_of_true (List.Perm.refl _) fun p e _ _ _ str hstr => ?_
      rw [dirPath_of_getString_none hstart hweb hstring] at hstr
      exact absurd hstr (by simp)
    | some name =>
      have hsome : (db.getString start).isSome := by rw [hstring]; rfl
      rw [h.outcome_all hweb hT hsome ho, h.outcome_all hweb hS hsome ho',
        ← acceptedHits_dirsWith hweb hsome]
      have hsplit := @acceptedHits_perm db site accept _ _ htaken
      rw [acceptedHits_append] at hsplit
      constructor
      · intro hsame
        have hlen := (hsplit.symm.trans hsame).length_eq
        rw [List.length_append] at hlen
        exact List.length_eq_zero_iff.mp (by omega)
      · intro hnil
        rw [hnil, List.append_nil] at hsplit
        exact hsplit

/-- **The index against the scan.**  The hits are the same, up to their order, exactly
if the site is a web site or no record that stands for a directory holds the start and
has a path that is asked for. -/
theorem hits_index_iff (h : SoundSite db site.web site.file) {index : List SiteIndex}
    (hindex : IsSiteIndex site.file index) {start : ℤ} (hstart : 0 ≤ start)
    {siteRecord : StartReturn} (hfresh : siteRecord.Fresh) {maxHits : ℤ}
    (hwith : ((getResultFromStart db { site with index? := some index } accept start siteRecord
      maxHits).hits.length : ℤ) < maxHits)
    (hwithout : ((getResultFromStart db { site with index? := none } accept start siteRecord
      maxHits).hits.length : ℤ) < maxHits) :
    (getResultFromStart db
      { site with index? := some index } accept start siteRecord maxHits).hits.Perm
        (getResultFromStart db { site with index? := none } accept start siteRecord maxHits).hits ↔
      site.web = true ∨ ∀ (p : ℕ) (e : SiteEntry), site.file[p]? = some e →
        cseIsParent e.flags = true → e.strt1 = start →
        ∀ str ∈ dirPath db site p e.flags start, accept str = false := by
  rw [getResultFromStart_fresh hfresh] at hwith hwithout ⊢
  rw [getResultFromStart_fresh hfresh]
  simp only [Option.bind_some, Option.bind_none] at hwith hwithout ⊢
  set S := (List.range' 0 site.file.length).filter (site.matching start) with hS
  -- what the scan gives, be it that there is no index or that the index fails
  have hscan : ∀ index?, Gives db { site with index? := index? } accept maxHits S []
      (scanLoop db { site with index? := index? } accept start maxHits site.file 0 ⟨[], 0, 0, 0⟩) :=
    fun index? => @scanLoop_gives db { site with index? := index? } accept h start maxHits _ _
      List.drop_zero _ (ScanInv.start rfl)
  have hN := (hscan none).hits hwithout
  rcases searchSiteIndex_perm hindex start with ⟨hnil, hnone⟩ | ⟨recs, -, hperm, hsome⟩
  · -- no record at all has the start
    rw [hnone] at hwith ⊢
    have hempty : S = [] := by
      refine List.filter_eq_nil_iff.mpr fun r _ hmatch => ?_
      rw [SiteData.matching, Option.any_eq_true] at hmatch
      obtain ⟨e, he, hmatch⟩ := hmatch
      have hmem : r ∈ recordsWith site.file start := mem_recordsWith.mpr ⟨e, he, by
        simp only [Bool.and_eq_true, decide_eq_true_eq] at hmatch
        exact hmatch.1.1⟩
      rw [hnil] at hmem
      exact absurd hmem List.not_mem_nil
    have hI := (hscan (some index)).hits hwith
    rw [hempty] at hI hN
    have hnoI := hI.resolve_left (by simp)
    have hnoN := hN.resolve_left (by simp)
    rw [hnoI.2, hnoN.2]
    refine iff_of_true (List.Perm.refl _) (Or.inr fun p e he _ hs => ?_)
    have hmem := mem_recordsWith.mpr ⟨e, he, hs⟩
    rw [hnil] at hmem
    exact absurd hmem List.not_mem_nil
  · rw [hsome] at hwith ⊢
    have hlt : ∀ r ∈ recs, r < site.file.length := by
      intro r hr
      obtain ⟨e, he, -⟩ := mem_recordsWith.mp (hperm.mem_iff.mp hr)
      exact (List.getElem?_eq_some_iff.mp he).1
    have hI := (@indexLoop_gives db { site with index? := some index } accept recs hlt maxHits
      ⟨[], 0, 0, 0⟩).hits hwith
    exact outcome_perm_iff h hstart hperm hI hN

end

end Archie
