/-
The domain of a host (`hostdb/domain.c`, `startdb/domain.c`).

`find_in_domains` looks for a host by `bsearch` with `strrcmp`, which takes a name for equal to
its suffixes, but not to the suffix that lacks one character only.

* `strrcmp_eq_zero_iff` — which names compare equal.
* `searchable_of_suffixFree` — a sorted list without nested domains can be searched.
* `findInDomains_iff` — when a host is found exactly if a domain of the list is its suffix.
-/
import Archie.SiteUnion
import Archie.HostPriority

namespace Archie

/-! ### The comparison -/

theorem charVal_inj {a b : UInt8} (h : charVal a = charVal b) : a = b := by
  have ha := a.toNat_lt
  have hb := b.toNat_lt
  apply UInt8.toNat_inj.mp
  unfold charVal at h
  split at h <;> split at h <;> omega

/-- The loop ends with 0 where one of the texts is the start of the other, except that the key
has one character more. -/
theorem strrcmpLoop_eq_zero_iff : ∀ key element : List UInt8,
    strrcmpLoop key element = 0 ↔
      element <+: key ∧ element.length + 1 ≠ key.length ∨ key <+: element
  | [], element => by
    have h : strrcmpLoop [] element = 0 := by cases element <;> rfl
    exact iff_of_true h (.inr List.nil_prefix)
  | k :: key, [] => by
    have h : strrcmpLoop (k :: key) [] = if (k :: key).length = 1 then -1 else 0 := rfl
    rw [h]
    split <;> simp_all
  | k :: key, e :: element => by
    rw [strrcmpLoop, List.cons_prefix_cons, List.cons_prefix_cons]
    split
    next hne =>
      have hval : charVal k - charVal e ≠ 0 := fun h => hne (charVal_inj (by omega))
      refine iff_of_false hval ?_
      rintro (⟨⟨rfl, -⟩, -⟩ | ⟨rfl, -⟩) <;> exact hne rfl
    next heq =>
      rw [not_not.mp heq, strrcmpLoop_eq_zero_iff key element]
      simp

/-- The names that compare equal to a key. -/
theorem strrcmp_eq_zero_iff {key element : List UInt8} :
    strrcmp key element = 0 ↔
      element <:+ key ∧ element.length + 1 ≠ key.length ∨ key <:+ element := by
  rw [strrcmp, strrcmpLoop_eq_zero_iff, List.length_reverse, List.length_reverse,
    List.reverse_prefix, List.reverse_prefix]

/-- What is not above `a` is not above `b` either, when `a` comes first and none is the start of
the other. -/
theorem strrcmpLoop_trans : ∀ a b h : List UInt8, ¬a <+: b → ¬b <+: a →
    strrcmpLoop a b ≤ 0 → strrcmpLoop h a ≤ 0 →
    strrcmpLoop h b ≤ 0 ∧ (strrcmpLoop h a < 0 → strrcmpLoop h b < 0)
  | [], _, _, hab, _, _, _ => absurd List.nil_prefix hab
  | _ :: _, [], _, _, hba, _, _ => absurd List.nil_prefix hba
  | x :: a, y :: b, [], _, _, _, _ => by
    show (if ([] : List UInt8).length = 1 then (-1 : ℤ) else 0) ≤ 0 ∧
      ((if ([] : List UInt8).length = 1 then (-1 : ℤ) else 0) < 0 → _)
    simp
  | x :: a, y :: b, z :: h, hab, hba, hle, hh => by
    rw [List.cons_prefix_cons] at hab hba
    rw [strrcmpLoop] at hle hh ⊢
    rw [strrcmpLoop]
    by_cases hxy : x = y
    · subst hxy
      rw [if_neg (not_not.mpr rfl)] at hle
      by_cases hzx : z = x
      · subst hzx
        rw [if_neg (not_not.mpr rfl)] at hh
        rw [if_neg (not_not.mpr rfl), if_neg (not_not.mpr rfl)]
        exact strrcmpLoop_trans a b h (fun hp => hab ⟨rfl, hp⟩) (fun hp => hba ⟨rfl, hp⟩) hle hh
      · rw [if_pos hzx] at hh
        rw [if_pos hzx, if_pos hzx]
        exact ⟨hh, id⟩
    · -- the two differ here, so what decides about the key is here or before
      rw [if_pos hxy] at hle
      have hxy' : charVal x ≠ charVal y := fun h => hxy (charVal_inj h)
      have hzx : charVal z ≤ charVal x := by
        split at hh
        · omega
        next heq => rw [not_not.mp heq]
      have hzy : z ≠ y := by
        rintro rfl
        omega
      rw [if_pos hzy]
      omega

/-! ### Sorted lists -/

/-- No domain of the list is a suffix of another one. -/
def SuffixFree (domains : List (List UInt8)) : Prop :=
  domains.Pairwise fun d e => ¬d <:+ e ∧ ¬e <:+ d

/-- On a list without nested domains that is sorted with `strrcmp`, the comparison with a host is
one that `bsearch` can go by. -/
theorem searchable_of_suffixFree {domains : List (List UInt8)} (hfree : SuffixFree domains)
    (hsorted : domains.Pairwise fun d e => strrcmp d e ≤ 0) (hostname : List UInt8) :
    Searchable (strrcmp hostname) domains := by
  refine List.Pairwise.imp ?_ (List.pairwise_and_iff.mpr ⟨hfree, hsorted⟩)
  rintro d e ⟨⟨hde, hed⟩, hle⟩
  rw [← List.reverse_prefix] at hde hed
  have htrans := strrcmpLoop_trans d.reverse e.reverse hostname.reverse hde hed hle
  exact ⟨fun h => (htrans h).1, fun h => (htrans h.le).2 h⟩

/-! ### The search -/

/-- A `bsearch` that is right for each list in an order that the comparison respects. -/
structure Bsearch (α : Type) where
  find : (α → ℤ) → List α → Option ℕ
  spec : ∀ (cmp : α → ℤ) (base : List α), Searchable cmp base →
    ((find cmp base).isSome = true ↔ ∃ a ∈ base, cmp a = 0)

/-- The one that halves the list. -/
def halvingBsearch (α : Type) : Bsearch α where
  find := bsearch
  spec cmp base h := by
    rcases bsearch_spec h with ⟨n, hn, hfound, hzero⟩ | ⟨hnone, hne⟩
    · exact iff_of_true (by rw [hfound]; rfl) ⟨_, List.getElem_mem hn, hzero⟩
    · rw [hnone]
      exact iff_of_false (by simp) fun ⟨a, ha, hzero⟩ => hne a ha hzero

/-- `find_in_domains`, with any `bsearch`. -/
def findInDomainsBy (B : Bsearch (List UInt8)) (hostname : List UInt8)
    (domainList : List (List UInt8)) : ℤ :=
  if domainList = [] then -1
  else if domainList.head? = some domainAll then 1
  else if (B.find (strrcmp hostname) domainList).isSome then 1 else 0

/-- A host is found exactly if the list is that of all domains, or has a suffix of the name; and
the suffixes are the domains that `domain_priority` goes by. -/
def FoundBySuffix (hostname : List UInt8) (domainList : List (List UInt8)) : Prop :=
  (∀ B, findInDomainsBy B hostname domainList ≠ 0 ↔
    domainList = [domainAll] ∨ ∃ d ∈ domainList, d <:+ hostname) ∧
  ((∃ d ∈ domainList, d <:+ hostname) ↔ ∃ d ∈ domainList, endsInDomain hostname d = true)

/-- The list is not empty; a `*` is alone in it, unless a domain is found anyway.  A list of
domains can be searched for the host, and has a suffix of the name that is not only one character
shorter, or else such a suffix goes together with a domain that ends in the whole name.  No
domain is at the end of the name up to the case of the letters only. -/
structure SuffixShows (hostname : List UInt8) (domainList : List (List UInt8)) : Prop where
  ne_nil : domainList ≠ []
  all : domainList.head? = some domainAll →
    domainList = [domainAll] ∨ ∃ d ∈ domainList, d <:+ hostname
  searchable : domainList.head? ≠ some domainAll → Searchable (strrcmp hostname) domainList
  shorter : domainList.head? ≠ some domainAll →
    (∃ d ∈ domainList, d <:+ hostname ∧ d.length + 1 ≠ hostname.length) ∨
      ((∃ d ∈ domainList, d <:+ hostname) ↔ ∃ d ∈ domainList, hostname <:+ d)
  sameCase : ∀ d ∈ domainList, endsInDomain hostname d = true → ∃ e ∈ domainList, e <:+ hostname

section

variable {hostname : List UInt8} {domainList : List (List UInt8)}

theorem endsInDomain_of_suffix {d : List UInt8} (h : d <:+ hostname) :
    endsInDomain hostname d = true := by
  rw [endsInDomain, Bool.and_eq_true, decide_eq_true_eq, strcasecmpEq_iff]
  exact ⟨h.length_le, by rw [← List.suffix_iff_eq_drop.mp h]⟩

/-- An element that compares equal is found, if the list can be searched. -/
theorem findInDomainsBy_ne_zero (B : Bsearch (List UInt8)) (hne : domainList ≠ [])
    (hall : domainList.head? ≠ some domainAll) :
    findInDomainsBy B hostname domainList ≠ 0 ↔
      (B.find (strrcmp hostname) domainList).isSome = true := by
  rw [findInDomainsBy, if_neg hne, if_neg hall]
  split <;> simp_all

/-- A list that cannot be searched: nothing says what is found. -/
theorem exists_bsearch_of_not_searchable (cmp : List UInt8 → ℤ)
    (h : ¬Searchable cmp domainList) (p : Prop) :
    ∃ B : Bsearch (List UInt8), ¬((B.find cmp domainList).isSome = true ↔ p) := by
  classical
  refine ⟨⟨fun c base => if Searchable c base then bsearch c base
    else if p then none else some 0, fun c base hs => ?_⟩, ?_⟩
  · rw [if_pos hs]
    exact (halvingBsearch _).spec c base hs
  · show ¬((if Searchable cmp domainList then bsearch cmp domainList
      else if p then none else some 0).isSome = true ↔ p)
    rw [if_neg h]
    by_cases hp : p <;> simp [hp]

/-- There is an element that compares equal exactly if there is a suffix. -/
theorem exists_zero_iff_suffix :
    ((∃ d ∈ domainList, strrcmp hostname d = 0) ↔ ∃ d ∈ domainList, d <:+ hostname) ↔
      (∃ d ∈ domainList, d <:+ hostname ∧ d.length + 1 ≠ hostname.length) ∨
        ((∃ d ∈ domainList, d <:+ hostname) ↔ ∃ d ∈ domainList, hostname <:+ d) := by
  have hzero : (∃ d ∈ domainList, strrcmp hostname d = 0) ↔
      (∃ d ∈ domainList, d <:+ hostname ∧ d.length + 1 ≠ hostname.length) ∨
        ∃ d ∈ domainList, hostname <:+ d := by
    simp only [strrcmp_eq_zero_iff, and_or_left, exists_or]
  rw [hzero]
  by_cases hfar : ∃ d ∈ domainList, d <:+ hostname ∧ d.length + 1 ≠ hostname.length
  · obtain ⟨d, hd, hsuf, -⟩ := id hfar
    exact iff_of_true (iff_of_true (.inl hfar) ⟨d, hd, hsuf⟩) (.inl hfar)
  · simp only [hfar, false_or]
    exact iff_comm

/-- **When `find_in_domains` is right**, whatever `bsearch` it is compiled with. -/
theorem findInDomains_iff (hostname : List UInt8) (domainList : List (List UInt8)) :
    FoundBySuffix hostname domainList ↔ SuffixShows hostname domainList := by
  have hcase : ((∃ d ∈ domainList, d <:+ hostname) ↔
      ∃ d ∈ domainList, endsInDomain hostname d = true) ↔
      ∀ d ∈ domainList, endsInDomain hostname d = true → ∃ e ∈ domainList, e <:+ hostname := by
    constructor
    · exact fun h d hd hends => h.mpr ⟨d, hd, hends⟩
    · refine fun h => ⟨?_, fun ⟨d, hd, hends⟩ => h d hd hends⟩
      rintro ⟨d, hd, hsuf⟩
      exact ⟨d, hd, endsInDomain_of_suffix hsuf⟩
  rw [FoundBySuffix, hcase]
  constructor
  · rintro ⟨hfound, hsame⟩
    have hne : domainList ≠ [] := by
      rintro rfl
      have h := (hfound (halvingBsearch _)).mp (show (-1 : ℤ) ≠ 0 by decide)
      simp at h
    refine ⟨hne, fun hall => ?_, fun hall => ?_, fun hall => ?_, hsame⟩
    · have hone : findInDomainsBy (halvingBsearch _) hostname domainList = 1 := by
        rw [findInDomainsBy, if_neg hne, if_pos hall]
      exact (hfound (halvingBsearch _)).mp (by rw [hone]; decide)
    all_goals
      have hnotAll : domainList ≠ [domainAll] := by
        rintro rfl
        exact hall rfl
      have hsome := fun B => (findInDomainsBy_ne_zero B hne hall).symm.trans (hfound B)
      simp only [hnotAll, false_or] at hsome
    · by_contra hs
      obtain ⟨B, hB⟩ := exists_bsearch_of_not_searchable _ hs (∃ d ∈ domainList, d <:+ hostname)
      exact hB (hsome B)
    · rw [← exists_zero_iff_suffix]
      by_cases hs : Searchable (strrcmp hostname) domainList
      · exact ((halvingBsearch _).spec _ _ hs).symm.trans (hsome (halvingBsearch _))
      · obtain ⟨B, hB⟩ := exists_bsearch_of_not_searchable _ hs (∃ d ∈ domainList, d <:+ hostname)
        exact absurd (hsome B) hB
  · rintro ⟨hne, hall, hsearch, hshort, hsame⟩
    refine ⟨fun B => ?_, hsame⟩
    by_cases h : domainList.head? = some domainAll
    · refine iff_of_true ?_ (hall h)
      rw [findInDomainsBy, if_neg hne, if_pos h]
      decide
    · have hnotAll : domainList ≠ [domainAll] := by
        rintro rfl
        exact h rfl
      simp only [hnotAll, false_or]
      rw [findInDomainsBy_ne_zero B hne h, B.spec _ _ (hsearch h)]
      exact exists_zero_iff_suffix.mpr (hshort h)

/-- The list of the one domain `.ca`, and the host `x.ca`. -/
theorem not_foundBySuffix : ¬∀ (hostname : List UInt8) (domains : List (List UInt8)),
    domains.Nodup → [] ∉ domains → FoundBySuffix hostname (qsort strrcmp domains) := by
  intro h
  have hfound := h (bytes "x.ca") [bytes ".ca"] (by decide) (by decide)
  have hzero : findInDomainsBy (halvingBsearch _) (bytes "x.ca") (qsort strrcmp [bytes ".ca"]) = 0 := by
    decide +kernel
  refine (hfound.1 (halvingBsearch _)).mpr (.inr ⟨bytes ".ca", ?_, ?_⟩) hzero
  · decide
  · decide

end

end Archie
