/-
The host lists of a start database over a run (`startdb/start_db.c`).

All starts share the array `index_list`: each read overwrites the beginning of it, and
between two calls it may hold anything.

* `SiteOp.sorted_apply` — an update keeps the order of a list.
* `Reached.storedHosts` — after any updates the list of each start has, in order and
  once each, the hosts that were added and not taken out since.
-/
import Archie.StartDb

namespace Archie

variable {σ : Type} {dbm : Dbm σ} {priority : ℤ → ℤ}

/-! ### The order of a list -/

/-- `host_table_cmp`, for the priorities in `priority_table`. -/
def hostTableCmp (priority : ℤ → ℤ) (ind1 ind2 : ℤ) : ℤ := priority ind1 - priority ind2

/-- The list is in the order of `host_table_cmp`. -/
def HostsSorted (priority : ℤ → ℤ) (l : List ℤ) : Prop :=
  l.Pairwise fun a b => hostTableCmp priority a b ≤ 0

theorem hostsSorted_insert {l : List ℤ} (hl : HostsSorted priority l) (index : ℤ) :
    HostsSorted priority (l.orderedInsert (fun a b => hostTableCmp priority a b < 0) index) := by
  induction l with
  | nil => exact List.pairwise_singleton _ _
  | cons b l ih =>
    obtain ⟨hb, hl'⟩ := List.pairwise_cons.mp hl
    rw [List.orderedInsert_cons]
    split
    next hlt =>
      -- it comes before `b`, and so before all that `b` comes before
      refine List.pairwise_cons.mpr ⟨?_, hl⟩
      intro a ha
      rcases List.mem_cons.mp ha with rfl | ha
      · exact le_of_lt hlt
      · have hba := hb a ha
        rw [hostTableCmp] at hlt hba ⊢
        omega
    next hge =>
      refine List.pairwise_cons.mpr ⟨?_, ih hl'⟩
      intro a ha
      rcases (List.mem_orderedInsert _).mp ha with rfl | ha
      · rw [hostTableCmp] at hge ⊢
        omega
      · exact hb a ha

theorem SiteOp.sorted_apply (what : SiteOp) (index : ℤ) {l : List ℤ} (hl : HostsSorted priority l) :
    HostsSorted priority (what.apply (hostTableCmp priority) index l) := by
  cases what with
  | addSite =>
    rw [SiteOp.apply]
    split
    next => exact hl
    next => exact hostsSorted_insert hl index
  | deleteSite => exact List.Pairwise.sublist List.erase_sublist hl

/-! ### Runs -/

/-- A call of `update_start_dbs`.  The index is that of a host. -/
structure HostUpdate where
  what : SiteOp
  start : ℤ
  index : ℤ
  range : 0 ≤ index ∧ index < 32768

/-- The states of a database that was empty, after some updates, the last one first.
A call that fails leaves the database as it was, and any call the array as it likes. -/
inductive Reached (dbm : Dbm σ) (priority : ℤ → ℤ) : List HostUpdate → StartDbs σ → Prop
  | empty {st : StartDbs σ} : (∀ start, dbm.fetch st.db start = none) → Reached dbm priority [] st
  | update {us : List HostUpdate} {st st' : StartDbs σ} (u : HostUpdate) : Reached dbm priority us st →
      updateStartDbs dbm (hostTableCmp priority) u.start u.index u.what st = some st' →
      Reached dbm priority (u :: us) st'
  | array {us : List HostUpdate} {st : StartDbs σ} (mem : ℕ → ℤ) : Reached dbm priority us st →
      Reached dbm priority us { st with indexList := mem }

/-- The host was added for the start, and not deleted since. -/
def IsAdded (start h : ℤ) : List HostUpdate → Prop
  | [] => False
  | u :: us => if u.start = start ∧ u.index = h then u.what = .addSite else IsAdded start h us

/-- What the database has for a start. -/
structure StoredHosts (dbm : Dbm σ) (priority : ℤ → ℤ) (st : StartDbs σ) (start : ℤ) (l : List ℤ) :
    Prop where
  entry : dbm.fetch st.db start = if l = [] then none else some (l ++ [endList])
  noEnd : endList ∉ l
  nodup : l.Nodup
  sorted : HostsSorted priority l
  read : getIndexStartDbs dbm start st = l

/-- The lists of a database, in order, with the hosts that the updates left. -/
structure SortedLists (dbm : Dbm σ) (priority : ℤ → ℤ) (us : List HostUpdate) (db : σ)
    (lists : ℤ → List ℤ) : Prop extends Lists dbm db lists where
  sorted : ∀ start, HostsSorted priority (lists start)
  mem : ∀ start h, h ∈ lists start ↔ IsAdded start h us

theorem SortedLists.update {us : List HostUpdate} {st st' : StartDbs σ} {lists : ℤ → List ℤ}
    (h : SortedLists dbm priority us st.db lists) (u : HostUpdate)
    (hupdate : updateStartDbs dbm (hostTableCmp priority) u.start u.index u.what st = some st') :
    SortedLists dbm priority (u :: us) st'.db (Function.update lists u.start
      (u.what.apply (hostTableCmp priority) u.index (lists u.start))) where
  toLists := updateStartDbs_lists h.toLists u.range hupdate
  sorted start := by
    by_cases hstart : start = u.start
    · rw [hstart, Function.update_self]
      exact u.what.sorted_apply u.index (h.sorted u.start)
    · rw [Function.update_of_ne hstart]
      exact h.sorted start
  mem start k := by
    rw [IsAdded]
    by_cases hstart : u.start = start
    · rw [← hstart, Function.update_self, u.what.mem_apply _ (h.nodup u.start), h.mem]
      by_cases hk : u.index = k
      · rw [if_pos hk.symm, if_pos ⟨rfl, hk⟩]
      · rw [if_neg (fun hc => hk hc.symm), if_neg (fun hc => hk hc.2)]
    · rw [Function.update_of_ne (fun hc => hstart hc.symm), if_neg (fun hc => hstart hc.1), h.mem]

theorem Reached.sortedLists {us : List HostUpdate} {st : StartDbs σ}
    (h : Reached dbm priority us st) :
    ∃ lists, SortedLists dbm priority us st.db lists := by
  induction h with
  | @empty st hempty =>
    refine ⟨fun _ => [], ⟨⟨?_, fun _ => List.nodup_nil,
      by simp⟩, fun _ => List.Pairwise.nil, by simp [IsAdded]⟩⟩
    intro start
    rw [hempty, if_pos rfl]
  | update u _ hupdate ih =>
    obtain ⟨lists, hlists⟩ := ih
    exact ⟨_, hlists.update u hupdate⟩
  | array _ _ ih => exact ih

/-- **The list of each start**, after any updates. -/
theorem Reached.storedHosts {us : List HostUpdate} {st : StartDbs σ}
    (h : Reached dbm priority us st)
    (start : ℤ) : ∃ l, StoredHosts dbm priority st start l ∧ ∀ k, k ∈ l ↔ IsAdded start k us := by
  obtain ⟨lists, hlists⟩ := h.sortedLists
  refine ⟨lists start, ⟨hlists.fetch start, ?_, hlists.nodup start, hlists.sorted start,
    hlists.getIndexStartDbs_eq start⟩, hlists.mem start⟩
  intro hend
  have hneg := (hlists.range start _ hend).1
  exact absurd hneg (by decide)

/-- Two hosts of a start, one of them deleted again. -/
theorem storedHosts_sample : ∃ st l, StoredHosts mapDbm (fun _ => 0) st 5 l ∧
    ∀ k, k ∈ l ↔ IsAdded 5 k [⟨.deleteSite, 5, 1, by decide⟩, ⟨.addSite, 5, 2, by decide⟩,
      ⟨.addSite, 5, 1, by decide⟩] := by
  have hempty : Reached mapDbm (fun _ => 0) [] ⟨fun _ => 0, fun _ => none⟩ :=
    Reached.empty fun _ => rfl
  have hfirst := Reached.update ⟨.addSite, 5, 1, by decide⟩ hempty rfl
  have hsecond := Reached.update ⟨.addSite, 5, 2, by decide⟩ hfirst rfl
  have hthird := Reached.update ⟨.deleteSite, 5, 1, by decide⟩ hsecond rfl
  exact ⟨_, hthird.storedHosts 5⟩

end Archie
