/-
The links of a site file that `setup_insert` has made.

An entry is in the directory of the last record before it that stands for one.
That record points to the entry of the directory and to the record of the
directory above.

* `linked_layout` — each of these links, for the site file of any records.
* `linked_addEntry` — what is preserved when an entry is added.
-/
import Archie.SetupInsert

namespace Archie

variable {db : StringsDb}

/-- A layout that another one begins with. -/
structure Layout.Extends (L' L : Layout) : Prop where
  file : ∃ t, L'.file = L.file ++ t
  mains : ∃ t, L'.mains = L.mains ++ t
  places : ∃ t, L'.places = L.places ++ t

theorem Layout.extends_enter (L : Layout) (p : ℤ) : (L.enter p).Extends L := by
  rw [Layout.enter]
  split
  · exact ⟨⟨[], by simp⟩, ⟨[], by simp⟩, ⟨[], by simp⟩⟩
  · exact ⟨⟨_, rfl⟩, ⟨_, rfl⟩, ⟨[], by simp⟩⟩

variable (db) in
theorem Layout.extends_addEntry (L : Layout) (r : ParserEntry) : (L.addEntry db r).Extends L :=
  ⟨⟨_, rfl⟩, ⟨_, rfl⟩, ⟨_, rfl⟩⟩

namespace Layout.Extends

variable {L L' : Layout}

theorem getElem? (h : L'.Extends L) {k : ℕ} (hk : k < L.file.length) :
    L'.file[k]? = L.file[k]? := by
  obtain ⟨t, ht⟩ := h.file
  rw [ht, List.getElem?_append_left hk]

theorem place (h : L'.Extends L) {i : ℕ} (hi : i < L.places.length) : L'.place i = L.place i := by
  obtain ⟨t, ht⟩ := h.places
  rw [Layout.place, ht, List.getD_append _ _ _ _ hi, Layout.place]

theorem mainOf (h : L'.Extends L) {k : ℕ} (hk : k < L.mains.length) : L'.mainOf k = L.mainOf k := by
  obtain ⟨t, ht⟩ := h.mains
  rw [Layout.mainOf, ht, List.getD_append _ _ _ _ hk, Layout.mainOf]

theorem length_places_le (h : L'.Extends L) : L.places.length ≤ L'.places.length := by
  obtain ⟨t, ht⟩ := h.places
  simp [ht]

end Layout.Extends

/-- A record stands for the directory with a given index: that of the name of the
site for the root, a sub-path record for an entry. -/
def EnteredAt (L : Layout) (p : ℤ) (m : ℕ) : Prop :=
  (p = -1 ∧ m = 2) ∨ ∃ i : ℕ, p = i ∧ i < L.places.length ∧ L.place i < L.file.length ∧ 2 < m ∧
    L.file[m]? = some (subpathRec (L.mainOf (L.place i)) (L.place i))

/-- No record in a range stands for a directory. -/
def NoParent (file : List SiteEntry) (m k : ℕ) : Prop :=
  ∀ j, m < j → j ≤ k → ∀ e, file[j]? = some e → cseIsParent e.flags = false

/-- The links of the site file of some records. -/
structure Linked (db : StringsDb) (host : List UInt8) (pre : List ParserEntry) (L : Layout) :
    Prop where
  head : ∃ t, L.file = hostRecs db host ++ t
  entry : ∀ (i : ℕ) (hi : i < pre.length), L.file[L.place i]? = some (entryOf db pre[i])
  dir : ∀ (i : ℕ) (hi : i < pre.length), ∃ m : ℕ, L.mainOf (L.place i) = m ∧
    EnteredAt L pre[i].core.parentIdx m ∧ m < L.place i ∧ NoParent L.file m (L.place i)
  last : EnteredAt L L.prev L.main ∧ L.main < L.file.length ∧ NoParent L.file L.main L.file.length
  link : ∀ (k : ℕ) (e : SiteEntry), L.file[k]? = some e → cseIsParent e.flags = true →
    ∃ s2, e.core = .prntEntry s2 ∧ e.strt1 < k ∧ s2 < k

theorem EnteredAt.extends {L L' : Layout} (h : L'.Extends L)
    (hmains : L.mains.length = L.file.length)
    {p : ℤ} {m : ℕ} (he : EnteredAt L p m) : EnteredAt L' p m := by
  rcases he with hroot | ⟨i, hp, hi, hlt, h2, hm⟩
  · exact .inl hroot
  · have hm' : m < L.file.length := (List.getElem?_eq_some_iff.mp hm).1
    refine .inr ⟨i, hp, lt_of_lt_of_le hi h.length_places_le, ?_, h2, ?_⟩
    · obtain ⟨t, ht⟩ := h.file
      rw [h.place hi, ht, List.length_append]
      omega
    · rw [h.getElem? hm', h.place hi, h.mainOf (by omega)]
      exact hm

theorem EnteredAt.two_le {L : Layout} {p : ℤ} {m : ℕ} (h : EnteredAt L p m) : 2 ≤ m := by
  rcases h with ⟨_, rfl⟩ | ⟨_, _, _, _, h2, _⟩ <;> omega

theorem linked_start (host : List UInt8) : Linked db host [] (Layout.start db host) where
  head := ⟨[], by simp [Layout.start]⟩
  entry := by simp
  dir := by simp
  last := by
    refine ⟨.inl ⟨rfl, rfl⟩, by simp [Layout.start, hostRecs], ?_⟩
    intro j hj _ e he
    have hlt := (List.getElem?_eq_some_iff.mp he).1
    simp only [Layout.start, hostRecs, List.length_cons, List.length_nil] at hj hlt
    omega
  link := by
    intro k e he hparent
    simp only [Layout.start, hostRecs] at he
    rcases k with _ | _ | _ | k
    · obtain rfl := Option.some.inj he
      exact ⟨-1, rfl, by decide, by decide⟩
    · obtain rfl := Option.some.inj he
      simp [cseIsParent, cseIsSubpath, cseIsPort, cseIsName] at hparent
    · obtain rfl := Option.some.inj he
      exact ⟨1, rfl, by decide, by decide⟩
    · simp at he

/-- Going to another directory. -/
theorem linked_enter {host : List UInt8} {pre : List ParserEntry} {L : Layout}
    (h : Linked db host pre L) (hok : LayoutOk pre L) {p : ℤ} (hne : p ≠ L.prev)
    (henter : L.CanEnter p) : Linked db host pre (L.enter p) := by
  obtain ⟨i, hp, hi, hlt⟩ := henter.resolve_left hne
  have hext := L.extends_enter p
  have hlink : Layout.mainOf L (L.place i) < L.place i := by
    obtain ⟨m, hm, _, hmlt, _⟩ := h.dir i (by rw [← hok.places]; exact hi)
    omega
  have hfile : (L.enter p).file = L.file ++ [subpathRec (L.mainOf (L.place i)) (L.place i)] := by
    rw [Layout.enter, if_neg hne]
    simp [hp]
  have hnew : ∀ k e, (L.enter p).file[k]? = some e → L.file[k]? = some e ∨
      k = L.file.length ∧ e = subpathRec (L.mainOf (L.place i)) (L.place i) := by
    intro k e he
    rw [hfile] at he
    rcases Nat.lt_or_ge k L.file.length with hk | hk
    · rw [List.getElem?_append_left hk] at he
      exact .inl he
    · rw [List.getElem?_append_right hk, List.getElem?_singleton] at he
      split at he
      next h0 => exact .inr ⟨by omega, (Option.some.inj he).symm⟩
      next => simp at he
  have hhead : 3 ≤ L.file.length := by
    obtain ⟨t, ht⟩ := h.head
    simp [ht, hostRecs]
  refine ⟨?_, ?_, ?_, ?_, ?_⟩
  · obtain ⟨t, ht⟩ := h.head
    exact ⟨t ++ [subpathRec (L.mainOf (L.place i)) (L.place i)],
      by rw [hfile, ht, List.append_assoc]⟩
  · intro j hj
    rw [hext.place (by rw [hok.places]; exact hj), hext.getElem? (hok.lt j hj)]
    exact h.entry j hj
  · intro j hj
    obtain ⟨m, hm, he, hmlt, hno⟩ := h.dir j hj
    have hj' := hok.lt j hj
    refine ⟨m, ?_, he.extends hext hok.mains, ?_, ?_⟩
    · rw [hext.place (by rw [hok.places]; exact hj), hext.mainOf (by rw [hok.mains]; exact hj'), hm]
    · rw [hext.place (by rw [hok.places]; exact hj)]
      exact hmlt
    · intro k hmk hk e hke
      rw [hext.place (by rw [hok.places]; exact hj)] at hk
      rw [hext.getElem? (by omega)] at hke
      exact hno k hmk hk e hke
  · -- the new record stands for the directory
    rw [Layout.prev_enter, hfile]
    have hmain : (L.enter p).main = L.file.length := by rw [Layout.enter, if_neg hne]
    refine ⟨.inr ⟨i, hp, ?_, ?_, by omega, ?_⟩, by rw [hmain]; simp, ?_⟩
    · rw [Layout.places_enter]
      exact hi
    · rw [hext.place hi, hfile, List.length_append]
      omega
    · rw [hmain, hfile, hext.place hi, hext.mainOf (by rw [hok.mains]; exact hlt)]
      simp
    · intro k hk _ e he
      have hklt := (List.getElem?_eq_some_iff.mp he).1
      rw [hmain] at hk
      rw [List.length_append, List.length_singleton] at hklt
      omega
  · intro k e hke hparent
    rcases hnew k e hke with hold | ⟨rfl, rfl⟩
    · exact h.link k e hold hparent
    · refine ⟨L.place i, rfl, ?_, by omega⟩
      simp only [subpathRec]
      omega

/-- An entry is added to the directory that the file is in. -/
theorem linked_addEntry {host : List UInt8} {pre : List ParserEntry} {L : Layout}
    (h : Linked db host pre L) (hplaces : L.places.length = pre.length)
    (hmains : L.mains.length = L.file.length) (hlt : ∀ i < pre.length, L.place i < L.file.length)
    {r : ParserEntry} (hflags : r.core.flags < 4) (hprev : L.prev = r.core.parentIdx) :
    Linked db host (pre ++ [r]) (L.addEntry db r) := by
  have hext := L.extends_addEntry db r
  have hplain := (plain_flags hflags).1
  have hold : ∀ i (hi : i < pre.length), (L.addEntry db r).place i = L.place i := fun i hi =>
    hext.place (by rw [hplaces]; exact hi)
  have hself : (L.addEntry db r).place pre.length = L.file.length := by
    rw [← hplaces]
    simp [Layout.addEntry, Layout.place]
  have hnew : ∀ (k : ℕ) (e : SiteEntry), (L.addEntry db r).file[k]? = some e →
      L.file[k]? = some e ∨ cseIsParent e.flags = false := by
    intro k e he
    simp only [Layout.addEntry] at he
    rcases Nat.lt_or_ge k L.file.length with hk | hk
    · rw [List.getElem?_append_left hk] at he
      exact .inl he
    · rw [List.getElem?_append_right hk, List.getElem?_singleton] at he
      split at he
      next =>
        obtain rfl := Option.some.inj he
        exact .inr hplain
      next => simp at he
  obtain ⟨hentered, hmain, hno⟩ := h.last
  have hnoLast : NoParent (L.addEntry db r).file L.main (L.file.length + 1) := by
    intro k hk _ e he
    rcases hnew k e he with hL | hparent
    · exact hno k hk (Nat.le_of_lt (List.getElem?_eq_some_iff.mp hL).1) e hL
    · exact hparent
  refine ⟨?_, ?_, ?_, ?_, ?_⟩
  · obtain ⟨t, ht⟩ := h.head
    exact ⟨t ++ [entryOf db r], by simp [Layout.addEntry, ht]⟩
  · intro i hi
    rw [List.length_append, List.length_singleton] at hi
    rcases Nat.lt_or_eq_of_le (Nat.le_of_lt_succ hi) with hi | rfl
    · rw [hold i hi, hext.getElem? (hlt i hi), List.getElem_append_left hi]
      exact h.entry i hi
    · rw [hself]
      simp [Layout.addEntry]
  · intro i hi
    rw [List.length_append, List.length_singleton] at hi
    rcases Nat.lt_or_eq_of_le (Nat.le_of_lt_succ hi) with hi | rfl
    · obtain ⟨m, hm, he, hmlt, hnoi⟩ := h.dir i hi
      refine ⟨m, ?_, ?_, by rw [hold i hi]; exact hmlt, ?_⟩
      · rw [hold i hi, hext.mainOf (by rw [hmains]; exact hlt i hi), hm]
      · rw [List.getElem_append_left hi]
        exact he.extends hext hmains
      · intro k hmk hk e hke
        rw [hold i hi] at hk
        have hki := hlt i hi
        rw [hext.getElem? (by omega)] at hke
        exact hnoi k hmk hk e hke
    · refine ⟨L.main, ?_, ?_, by rw [hself]; exact hmain, ?_⟩
      · rw [hself, ← hmains]
        simp [Layout.addEntry, Layout.mainOf]
      · rw [List.getElem_concat_length rfl, ← hprev]
        exact hentered.extends hext hmains
      · intro k hmk hk e hke
        rw [hself] at hk
        exact hnoLast k hmk (by omega) e hke
  · refine ⟨hentered.extends hext hmains, ?_, ?_⟩
    · simp only [Layout.addEntry, List.length_append, List.length_singleton]
      omega
    · simpa [Layout.addEntry] using hnoLast
  · intro k e hke hparent
    rcases hnew k e hke with hL | hfalse
    · exact h.link k e hL hparent
    · rw [hfalse] at hparent
      exact absurd hparent (by simp)

variable (db) in
/-- **The links of the site file of well-formed records.** -/
theorem linked_layout {recs : List ParserEntry} (h : WellFormed recs) (host : List UInt8)
    {pre rest : List ParserEntry} (hrecs : recs = pre ++ rest) :
    Linked db host pre (layout db host pre) := by
  induction pre using List.reverseRecOn generalizing rest with
  | nil => exact linked_start host
  | append_singleton pre r ih =>
    rw [List.append_assoc] at hrecs
    have hok := layoutOk_layout db host pre
    have hpre := ih hrecs
    have hflags := h.plain r (by simp [hrecs])
    rw [layout_append_singleton, Layout.add]
    by_cases hp : r.core.parentIdx = (layout db host pre).prev
    · rw [Layout.enter, if_pos hp]
      exact linked_addEntry hpre hok.places hok.mains hok.lt hflags hp.symm
    · have henter : (layout db host pre).CanEnter r.core.parentIdx := by
        rcases h.next hrecs with heq | ⟨j, hj, hpj, _⟩
        · exact .inl (heq.trans hok.prev.symm)
        · exact .inr ⟨j, hpj, by rw [hok.places]; exact hj, hok.lt j hj⟩
      refine linked_addEntry (linked_enter hpre hok hp henter) (by simp [hok.places])
        (Layout.length_mains_enter hok.mains _) ?_ hflags (by simp)
      intro i hi
      have hlen := (layout db host pre).length_file_enter r.core.parentIdx
      have hplace := hok.lt i hi
      rw [((layout db host pre).extends_enter _).place (by rw [hok.places]; exact hi)]
      omega

end Archie
