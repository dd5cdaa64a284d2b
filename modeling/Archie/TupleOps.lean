/-
Operations on the tuples of a boolean query over web sites
(`archsearch/boolean-ops.c`).

A tuple names a record that a word matches and the record of the document that it
belongs to.  `archTupleOper` sorts two lists of tuples and merges them, or keeps
those of the first whose document is, or is not, one of the second's.

* `tupleOper_or` — the merge is the union, each tuple once.
* `mem_tupleOper_files` — the other two go by the documents alone.
* `uniqueTuple_eq` — a list that has each tuple once is left as it is.
-/
import Mathlib.Data.Prod.Lex
import Archie.BooleanOps

namespace Archie

/-- `site_tuple_t`: a record (`child`) and the document it belongs to. -/
structure SiteTuple where
  site : ℤ
  child : ℤ
  file : ℤ
  deriving DecidableEq, Repr

/-- `tuplecompare`: by the documents, then by the records. -/
def tuplecompare (i j : SiteTuple) : ℤ :=
  if i.file - j.file ≠ 0 then i.file - j.file else i.child - j.child

/-- `parentcompare`. -/
def parentcompare (i j : SiteTuple) : ℤ := i.file - j.file

/-- `unique_tuple`. -/
def uniqueTuple (tuple : List SiteTuple) : List SiteTuple :=
  if tuple = [] then []
  else uniqueKept (fun b a => b.site == a.site && tuplecompare b a == 0)
    (fun b a => b.site == a.site && decide (tuplecompare b a < 0)) tuple

/-- The loop of `archTupleOper` for `OR_OP`.  `prev` is the tuple written last; it
is only compared with when the heads of the lists differ, and `c2` and `c3` keep
the result of the comparison until the next one.  The room for `osz + nsz` tuples
is enough, since none is written without one being read. -/
def orLoop : ℕ → SiteTuple → ℤ → ℤ → List SiteTuple → List SiteTuple → List SiteTuple
  | _, _, _, _, [], new => new
  | _, _, _, _, old, [] => old
  | 0, _, _, _, _ :: _, _ :: _ => []
  | fuel + 1, prev, c2, c3, o :: old, n :: new =>
    if tuplecompare o n < 0 then
      let c2 := tuplecompare o prev
      if c2 ≠ 0 then o :: orLoop fuel o c2 c3 old (n :: new)
      else orLoop fuel prev c2 c3 old (n :: new)
    else if 0 < tuplecompare o n then
      let c3 := tuplecompare n prev
      if c3 ≠ 0 then n :: orLoop fuel n c2 c3 (o :: old) new
      else if c2 = 0 then orLoop fuel prev c2 c3 old (n :: new)
      else orLoop fuel prev c2 c3 (o :: old) new
    else if c2 ≠ 0 then o :: orLoop fuel o c2 c3 old new
    else orLoop fuel prev c2 c3 old (n :: new)

/-- The tuples that `archTupleOper` writes, before it gives back the unused room. -/
def tupleOper (old new : List SiteTuple) (oper : BoolOps) : List SiteTuple :=
  let old := qsort tuplecompare old
  let new := qsort tuplecompare new
  if oper = .orOp then orLoop (old.length + new.length) ⟨0, 0, 0⟩ 0 0 old new
  else old.filter fun o => oper.keeps (new.any fun n => parentcompare o n == 0)

/-- `archTupleOper`.  It ends with a `realloc` to the number of tuples written; for
none, the C library may give `NULL` (`reallocNull`), which is taken for an error. -/
def archTupleOper (reallocNull : Bool) (old new : List SiteTuple) (oper : BoolOps) :
    Option (List SiteTuple) :=
  let res := tupleOper old new oper
  if res = [] ∧ reallocNull = true then none else some res

/-! ### The order of the tuples -/

/-- What the tuples are ordered by. -/
def SiteTuple.key (t : SiteTuple) : ℤ ×ₗ ℤ := toLex (t.file, t.child)

theorem tuplecompare_neg {i j : SiteTuple} : tuplecompare i j < 0 ↔ i.key < j.key := by
  rw [tuplecompare, SiteTuple.key, SiteTuple.key, Prod.Lex.toLex_lt_toLex]
  split <;> omega

theorem tuplecompare_eq_zero {i j : SiteTuple} : tuplecompare i j = 0 ↔ i.key = j.key := by
  rw [tuplecompare, SiteTuple.key, SiteTuple.key, toLex_inj, Prod.mk.injEq]
  split <;> omega

theorem tuplecompare_pos {i j : SiteTuple} : 0 < tuplecompare i j ↔ j.key < i.key := by
  have hneg := @tuplecompare_neg i j
  have hzero := @tuplecompare_eq_zero i j
  constructor
  · intro h
    rcases lt_trichotomy i.key j.key with hlt | heq | hgt
    · have := hneg.mpr hlt
      omega
    · have := hzero.mpr heq
      omega
    · exact hgt
  · intro h
    have hge : ¬ tuplecompare i j < 0 := fun hc => lt_asymm h (hneg.mp hc)
    have hne : tuplecompare i j ≠ 0 := fun hc => h.ne' (hzero.mp hc)
    omega

theorem tuplecompare_nonpos {i j : SiteTuple} : tuplecompare i j ≤ 0 ↔ i.key ≤ j.key := by
  rw [← not_lt, tuplecompare_pos, not_lt]

/-! ### The lists of tuples -/

/-- A list of tuples of one site, each once; the first record of the site, which
only opens it, is not in it. -/
structure TupleList (site : ℤ) (l : List SiteTuple) : Prop where
  site : ∀ t ∈ l, t.site = site
  nodup : l.Nodup
  child : ∀ t ∈ l, t.child ≠ 0

theorem TupleList.nil (site : ℤ) : TupleList site [] := ⟨by simp, List.nodup_nil, by simp⟩

theorem key_inj {s t : SiteTuple} (hsite : s.site = t.site) : s.key = t.key ↔ s = t := by
  cases s
  cases t
  simp only [SiteTuple.key, toLex_inj, Prod.mk.injEq, SiteTuple.mk.injEq] at *
  tauto

theorem TupleList.filter {site : ℤ} {l : List SiteTuple} (h : TupleList site l)
    (p : SiteTuple → Bool) :
    TupleList site (l.filter p) :=
  ⟨fun t ht => h.site t (List.mem_filter.mp ht).1, h.nodup.filter p,
    fun t ht => h.child t (List.mem_filter.mp ht).1⟩

theorem TupleList.qsort {site : ℤ} {l : List SiteTuple} (h : TupleList site l) :
    TupleList site (qsort tuplecompare l) :=
  ⟨fun t ht => h.site t (mem_qsort.mp ht), (perm_qsort _ _).nodup_iff.mpr h.nodup,
    fun t ht => h.child t (mem_qsort.mp ht)⟩

/-- A sorted list of tuples ascends. -/
theorem TupleList.pairwise_qsort {site : ℤ} {l : List SiteTuple} (h : TupleList site l) :
    (Archie.qsort tuplecompare l).Pairwise fun a b => a.key < b.key := by
  have hle := Archie.pairwise_qsort SiteTuple.key (l := l) fun a _ b _ => tuplecompare_nonpos
  refine (hle.and h.qsort.nodup).imp_of_mem fun {a b} ha hb hab => ?_
  refine lt_of_le_of_ne hab.1 fun heq => hab.2 ?_
  exact (key_inj ((h.qsort.site a ha).trans (h.qsort.site b hb).symm)).mp heq

theorem nodup_of_ascending {l : List SiteTuple} (h : l.Pairwise fun a b => a.key < b.key) :
    l.Nodup :=
  h.imp fun {a b} hab heq => by
    rw [heq] at hab
    exact lt_irrefl _ hab

/-- **The merge.**  What is left of the two lists ascends, and no tuple left is
equal to the one written last.  Whatever `c2` is left from an earlier comparison, an
equal head of the two lists is written once. -/
theorem orLoop_spec {site : ℤ} (fuel : ℕ) (prev : SiteTuple) (c2 c3 : ℤ) (old new : List SiteTuple)
    (hfuel : old.length + new.length ≤ fuel)
    (hsite : ∀ t ∈ old ++ new, t.site = site) (hprev : ∀ t ∈ old ++ new, t.key ≠ prev.key)
    (hold : old.Pairwise fun a b => a.key < b.key) (hnew : new.Pairwise fun a b => a.key < b.key) :
    (∀ t, t ∈ orLoop fuel prev c2 c3 old new ↔ t ∈ old ∨ t ∈ new) ∧
      (orLoop fuel prev c2 c3 old new).Pairwise fun a b => a.key < b.key := by
  induction fuel generalizing prev c2 c3 old new with
  | zero =>
    obtain rfl : old = [] := List.length_eq_zero_iff.mp (by omega)
    simpa [orLoop] using hnew
  | succ fuel ih =>
    match old, new with
    | [], new => simpa [orLoop] using hnew
    | o :: old, [] => simpa [orLoop] using hold
    | o :: old, n :: new =>
      simp only [List.length_cons] at hfuel
      obtain ⟨ho, hold'⟩ := List.pairwise_cons.mp hold
      obtain ⟨hn, hnew'⟩ := List.pairwise_cons.mp hnew
      have hsite' : ∀ t, t ∈ old ∨ t ∈ n :: new → t.site = site := fun t ht => hsite t (by
        simp only [List.mem_append, List.mem_cons] at ht ⊢; tauto)
      rw [orLoop]
      by_cases hlt : tuplecompare o n < 0
      · -- the head of the first list comes first
        have hkey := tuplecompare_neg.mp hlt
        have hne : tuplecompare o prev ≠ 0 := fun h =>
          hprev o (by simp) (tuplecompare_eq_zero.mp h)
        have hafter : ∀ t, t ∈ old ∨ t ∈ n :: new → o.key < t.key := by
          rintro t (ht | ht)
          · exact ho t ht
          · rcases List.mem_cons.mp ht with rfl | ht
            · exact hkey
            · exact hkey.trans (hn t ht)
        obtain ⟨hmem, hpair⟩ := ih o (tuplecompare o prev) c3 old (n :: new)
          (by simp only [List.length_cons]; omega) (fun t ht => hsite' t (List.mem_append.mp ht))
          (fun t ht => (hafter t (List.mem_append.mp ht)).ne') hold' hnew
        rw [if_pos hlt]
        dsimp only
        rw [if_pos hne]
        refine ⟨fun t => ?_, List.pairwise_cons.mpr ⟨fun t ht => hafter t ((hmem t).mp ht), hpair⟩⟩
        simp only [List.mem_cons, hmem, or_assoc]
      · rw [if_neg hlt]
        by_cases hgt : 0 < tuplecompare o n
        · have hkey := tuplecompare_pos.mp hgt
          have hne : tuplecompare n prev ≠ 0 := fun h =>
            hprev n (by simp) (tuplecompare_eq_zero.mp h)
          have hafter : ∀ t, t ∈ o :: old ∨ t ∈ new → n.key < t.key := by
            rintro t (ht | ht)
            · rcases List.mem_cons.mp ht with rfl | ht
              · exact hkey
              · exact hkey.trans (ho t ht)
            · exact hn t ht
          obtain ⟨hmem, hpair⟩ := ih n c2 (tuplecompare n prev) (o :: old) new
            (by simp only [List.length_cons]; omega)
            (fun t ht => hsite t (by simp only [List.mem_append, List.mem_cons] at ht ⊢; tauto))
            (fun t ht => (hafter t (List.mem_append.mp ht)).ne') hold hnew'
          rw [if_pos hgt]
          dsimp only
          rw [if_pos hne]
          refine ⟨fun t => ?_, List.pairwise_cons.mpr
            ⟨fun t ht => hafter t ((hmem t).mp ht), hpair⟩⟩
          simp only [List.mem_cons, hmem]
          tauto
        · -- the heads are equal
          have hon : o = n := by
            have hsame : o.site = n.site := (hsite o (by simp)).trans (hsite n (by simp)).symm
            exact (key_inj hsame).mp (tuplecompare_eq_zero.mp (by omega))
          subst hon
          rw [if_neg hgt]
          by_cases hc2 : c2 ≠ 0
          · have hafter : ∀ t, t ∈ old ∨ t ∈ new → o.key < t.key := by
              rintro t (ht | ht)
              · exact ho t ht
              · exact hn t ht
            obtain ⟨hmem, hpair⟩ := ih o c2 c3 old new (by omega)
              (fun t ht => hsite t (by simp only [List.mem_append, List.mem_cons] at ht ⊢; tauto))
              (fun t ht => (hafter t (List.mem_append.mp ht)).ne') hold' hnew'
            rw [if_pos hc2]
            refine ⟨fun t => ?_, List.pairwise_cons.mpr
              ⟨fun t ht => hafter t ((hmem t).mp ht), hpair⟩⟩
            simp only [List.mem_cons, hmem]
            tauto
          · -- the first one is passed over, and the second one written next
            obtain ⟨hmem, hpair⟩ := ih prev c2 c3 old (o :: new)
              (by simp only [List.length_cons]; omega)
              (fun t ht => hsite' t (List.mem_append.mp ht))
              (fun t ht => hprev t (by simp only [List.mem_append, List.mem_cons] at ht ⊢; tauto))
              hold' hnew
            rw [if_neg hc2]
            refine ⟨fun t => ?_, hpair⟩
            simp only [List.mem_cons, hmem]
            tauto

/-! ### The operations -/

theorem archTupleOper_getD (reallocNull : Bool) (old new : List SiteTuple) (oper : BoolOps) :
    (archTupleOper reallocNull old new oper).getD [] = tupleOper old new oper := by
  rw [archTupleOper]
  split
  next h => exact h.1.symm
  next => rfl

theorem archTupleOper_eq_some {reallocNull : Bool} {old new : List SiteTuple} {oper : BoolOps}
    (h : tupleOper old new oper ≠ []) :
    archTupleOper reallocNull old new oper = some (tupleOper old new oper) :=
  if_neg fun hc => h hc.1

section

variable {site : ℤ} {old new : List SiteTuple}

/-- **`OR_OP`.** -/
theorem tupleOper_or (hold : TupleList site old) (hnew : TupleList site new) :
    TupleList site (tupleOper old new .orOp) ∧
      ∀ t, t ∈ tupleOper old new .orOp ↔ t ∈ old ∨ t ∈ new := by
  have hmem : ∀ t, t ∈ qsort tuplecompare old ++ qsort tuplecompare new ↔ t ∈ old ∨ t ∈ new := by
    simp
  have hchild : ∀ t, t ∈ old ∨ t ∈ new → t.child ≠ 0 := by
    rintro t (ht | ht)
    · exact hold.child t ht
    · exact hnew.child t ht
  have hsite : ∀ t, t ∈ old ∨ t ∈ new → t.site = site := by
    rintro t (ht | ht)
    · exact hold.site t ht
    · exact hnew.site t ht
  obtain ⟨hin, hpair⟩ := @orLoop_spec site _ ⟨0, 0, 0⟩ 0 0 (qsort tuplecompare old)
    (qsort tuplecompare new) le_rfl (fun t ht => hsite t ((hmem t).mp ht))
    (fun t ht hkey => hchild t ((hmem t).mp ht) (by
      simp only [SiteTuple.key, toLex_inj, Prod.mk.injEq] at hkey; exact hkey.2))
    hold.pairwise_qsort hnew.pairwise_qsort
  have hiff : ∀ t, t ∈ tupleOper old new .orOp ↔ t ∈ old ∨ t ∈ new := by
    intro t
    rw [tupleOper, if_pos rfl, hin, mem_qsort, mem_qsort]
  refine ⟨⟨fun t ht => hsite t ((hiff t).mp ht), ?_, fun t ht => hchild t ((hiff t).mp ht)⟩, hiff⟩
  rw [tupleOper, if_pos rfl]
  exact nodup_of_ascending hpair

theorem mem_tupleOper {oper : BoolOps} (hoper : oper ≠ .orOp) {t : SiteTuple} :
    t ∈ tupleOper old new oper ↔
      t ∈ old ∧ oper.keeps (decide (t.file ∈ new.map SiteTuple.file)) = true := by
  have hany : ((qsort tuplecompare new).any fun n => parentcompare t n == 0) =
      decide (t.file ∈ new.map SiteTuple.file) := by
    rw [Bool.eq_iff_iff, List.any_eq_true, decide_eq_true_eq, List.mem_map]
    refine exists_congr fun n => and_congr mem_qsort ?_
    rw [parentcompare, beq_iff_eq]
    omega
  rw [tupleOper, if_neg hoper, List.mem_filter, mem_qsort, hany]

theorem TupleList.tupleOper (hold : TupleList site old) {oper : BoolOps} (hoper : oper ≠ .orOp) :
    TupleList site (tupleOper old new oper) := by
  rw [Archie.tupleOper, if_neg hoper]
  exact hold.qsort.filter _

/-- **`AND_OP`** and **`NOT_OP`** keep the documents of the first list that are, or
are not, in the second. -/
theorem mem_tupleOper_files {oper : BoolOps} (hoper : oper ≠ .orOp) {f : ℤ} :
    f ∈ (tupleOper old new oper).map SiteTuple.file ↔ f ∈ old.map SiteTuple.file ∧
      oper.keeps (decide (f ∈ new.map SiteTuple.file)) = true := by
  constructor
  · intro h
    obtain ⟨t, ht, rfl⟩ := List.mem_map.mp h
    obtain ⟨hin, hkeep⟩ := (mem_tupleOper hoper).mp ht
    exact ⟨List.mem_map_of_mem hin, hkeep⟩
  · rintro ⟨h, hkeep⟩
    obtain ⟨t, ht, rfl⟩ := List.mem_map.mp h
    exact List.mem_map_of_mem ((mem_tupleOper hoper).mpr ⟨ht, hkeep⟩)

/-- **`unique_tuple`** finds nothing to remove in a list that has each tuple once. -/
theorem uniqueTuple_eq (h : TupleList site old) : uniqueTuple old = old := by
  rw [uniqueTuple]
  split
  next hnil => exact hnil.symm
  next hne =>
    refine uniqueKept_of_pairwise hne (h.nodup.imp_of_mem fun {a b} ha hb hab => ?_)
    rw [Bool.and_eq_false_iff, beq_eq_false_iff_ne (b := (0 : ℤ))]
    right
    intro heq
    exact hab ((key_inj ((h.site a ha).trans (h.site b hb).symm)).mp (tuplecompare_eq_zero.mp heq))

end

end Archie
