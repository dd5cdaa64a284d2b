/-
The compilation of domains (`hostdb/domain.c`).

`domain_construct` unfolds the definitions of the pseudo-domains.  Against cycles it has one
counter, raised for each item of a definition and lowered for each name that is no pseudo-domain.

* `run_compile` — a compilation is a walk along the definitions, and always ends.
* `compilesRight_iff` — when the names of the list are those that it stands for.
-/
import Archie.DomainSearch
import Archie.HandleChain
import Mathlib.Logic.Relation

namespace Archie

/-! ### The functions -/

/-- `MAX_NO_DOMAINS`. -/
def maxNoDomains : ℕ := 257

/-- `MAX_DOMAIN_LEN`. -/
def maxDomainLen : ℕ := 128

/-- `MAX_DOMAIN_DEPTH`. -/
def maxDomainDepth : ℕ := 20

/-- The definitions of the pseudo-domains.  A `domain_t` fits in the buffers that it is copied to. -/
abbrev DomainDb := List UInt8 → Option (List UInt8)

/-- What ends a compilation early: a domain outside of the list (or of its element), and a
recursion deeper than the model follows it. -/
inductive CompileStop
  | outside
  | fuel
  deriving DecidableEq, Repr

/-- The list of the caller, and the two variables of the module. -/
structure DomainSet where
  domainList : List (List UInt8)
  sanityCount : ℤ
  myabort : Bool
  deriving DecidableEq, Repr

/-- What ends an item. -/
def isDomainSep (c : UInt8) : Bool := c == 58 || c == 9 || c == 32

/-- The items that `sscanf` reads.  Where it reads nothing, the item before it stays in
`domain_str`, and its length is skipped. -/
def itemsFrom : ℕ → List UInt8 → List UInt8 → List (List UInt8)
  | 0, _, _ => []
  | n + 1, tmpDomain, domainStr =>
    if tmpDomain = [] then []
    else
      let word := tmpDomain.takeWhile (!isDomainSep ·)
      let domainStr := if word = [] then domainStr else word
      domainStr :: itemsFrom n (tmpDomain.drop (domainStr.length + 1)) domainStr

/-- The items of a definition. -/
def domainItems (domainDef : List UInt8) : List (List UInt8) :=
  itemsFrom domainDef.length domainDef []

/-- `strcpy(domain_list[(*count)++], domain)`. -/
def storeDomain (domain : List UInt8) (st : DomainSet) : Except CompileStop DomainSet :=
  if st.domainList.length < maxNoDomains ∧ domain.length < maxDomainLen then
    .ok { st with domainList := st.domainList ++ [domain] }
  else .error .outside

/-- The loop over the items of a definition. -/
def constructItems (construct : List UInt8 → DomainSet → Except CompileStop DomainSet) :
    List (List UInt8) → DomainSet → Except CompileStop DomainSet
  | [], st => .ok st
  | item :: items, st =>
    if st.myabort then .ok st
    else do
      let st ← construct item { st with sanityCount := st.sanityCount + 1 }
      constructItems construct items st

/-- `domain_construct`. -/
def domainConstruct (db : DomainDb) : ℕ → List UInt8 → DomainSet → Except CompileStop DomainSet
  | 0, _, _ => .error .fuel
  | fuel + 1, domain, st =>
    let st := if maxDomainDepth < st.sanityCount then { st with myabort := true } else st
    match db domain with
    | none => storeDomain domain { st with sanityCount := st.sanityCount - 1 }
    | some domainDef => constructItems (domainConstruct db fuel) (domainItems domainDef) st

/-- The domains of a list, as `strtok` finds them.  (The first one starts where the list does, even
if that is a colon.) -/
def topNames (domains : List UInt8) : List (List UInt8) :=
  let s := domains.dropWhile (· == 58)
  (domains.takeWhile (· == 58) ++ s.takeWhile (· ≠ 58)) ::
    ((s.dropWhile (· ≠ 58)).splitOn 58).filter (· ≠ [])

/-- The loop of `compile_domains`. -/
def constructDomains (construct : List UInt8 → DomainSet → Except CompileStop DomainSet) :
    List (List UInt8) → DomainSet → Except CompileStop DomainSet
  | [], st => .ok st
  | domain :: domains, st => do
    let st ← construct domain st
    if st.myabort then .ok st else constructDomains construct domains st

/-- How deep the recursion is followed: the domains of the list lower the counter at most so far. -/
def domainFuel (domains : List UInt8) : ℕ := maxDomainDepth + 2 + (topNames domains).length

/-- `compile_domains`: the list, or `none` for `ERROR`. -/
def compileDomains (db : DomainDb) (domains : List UInt8) :
    Except CompileStop (Option (List (List UInt8))) :=
  if domains = domainAll then .ok (some [domainAll])
  else if maxPathLen ≤ domains.length then .error .outside
  else do
    let st ← constructDomains (domainConstruct db (domainFuel domains)) (topNames domains)
      ⟨[], 0, false⟩
    .ok (if st.myabort then none else some (qsort strrcmp st.domainList))

/-! ### The walk along the definitions -/

/-- One call of `domain_construct`: for an item of a definition, or for a domain of the list. -/
structure Visit where
  inner : Bool
  name : List UInt8
  deriving DecidableEq, Repr

/-- What is added to the counter before the call. -/
def Visit.raise (v : Visit) : ℤ := if v.inner then 1 else 0

section

variable (db : DomainDb)

/-- A name that is no pseudo-domain. -/
def Visit.atomic (v : Visit) : Bool := (db v.name).isNone

/-- The counter after the call. -/
def Visit.counter (v : Visit) (s : ℤ) : ℤ := s + v.raise - if v.atomic db then 1 else 0

/-- The calls that one leads to, to a depth of `n`. -/
def visits : ℕ → Bool → List UInt8 → List Visit
  | 0, inner, name => [⟨inner, name⟩]
  | n + 1, inner, name =>
    ⟨inner, name⟩ :: match db name with
      | none => []
      | some domainDef => (domainItems domainDef).flatMap (visits n true)

/-- The names in the walk that are stored. -/
def atoms (walk : List Visit) : List (List UInt8) := (walk.filter (Visit.atomic db)).map Visit.name

/-- What a call does by itself. -/
def visit (st : DomainSet) (v : Visit) : Except CompileStop DomainSet :=
  if st.myabort then .ok st
  else
    let st := { st with sanityCount := st.sanityCount + v.raise,
                        myabort := decide (maxDomainDepth < st.sanityCount + v.raise) }
    if v.atomic db then storeDomain v.name { st with sanityCount := st.sanityCount - 1 }
    else .ok st

/-- The counter does not pass `MAX_DOMAIN_DEPTH`. -/
def NeverOver : ℤ → List Visit → Prop
  | _, [] => True
  | s, v :: walk => s + v.raise ≤ maxDomainDepth ∧ NeverOver (v.counter db s) walk

/-- Each name that is stored finds room, after `n` others, as long as the counter does not pass
`MAX_DOMAIN_DEPTH`. -/
def Fits : ℤ → ℕ → List Visit → Prop
  | _, _, [] => True
  | s, n, v :: walk =>
    (v.atomic db = true → n < maxNoDomains ∧ v.name.length < maxDomainLen) ∧
      (s + v.raise ≤ maxDomainDepth →
        Fits (v.counter db s) (if v.atomic db then n + 1 else n) walk)

end

section

variable {db : DomainDb}

theorem visit_aborted {st : DomainSet} (h : st.myabort = true) (v : Visit) :
    visit db st v = .ok st := by
  rw [visit, if_pos h]

theorem foldlM_visit_aborted {st : DomainSet} (h : st.myabort = true) (walk : List Visit) :
    walk.foldlM (visit db) st = .ok st := by
  induction walk with
  | nil => rfl
  | cons v walk ih =>
    rw [List.foldlM_cons, visit_aborted h]
    exact ih

theorem constructItems_aborted {construct : List UInt8 → DomainSet → Except CompileStop DomainSet}
    {st : DomainSet} (h : st.myabort = true) (items : List (List UInt8)) :
    constructItems construct items st = .ok st := by
  cases items with
  | nil => rfl
  | cons item items => rw [constructItems, if_pos h]

/-- The state after a call that is made. -/
theorem visit_ok {st st' : DomainSet} {v : Visit} (h : st.myabort = false)
    (hv : visit db st v = .ok st') :
    st'.sanityCount = v.counter db st.sanityCount ∧
      (st'.myabort = false → st.sanityCount + v.raise ≤ maxDomainDepth) := by
  rw [visit, if_neg (by simp [h])] at hv
  dsimp only at hv
  split at hv
  next hatomic =>
    rw [storeDomain] at hv
    split at hv
    · obtain rfl := Except.ok.inj hv
      exact ⟨by rw [Visit.counter, if_pos hatomic], fun h => not_lt.mp (of_decide_eq_false h)⟩
    · exact absurd hv (by simp)
  next hatomic =>
    obtain rfl := Except.ok.inj hv
    exact ⟨by rw [Visit.counter, if_neg hatomic, sub_zero], fun h => not_lt.mp (of_decide_eq_false h)⟩

theorem counter_le (db : DomainDb) (v : Visit) (s : ℤ) : v.counter db s ≤ s + v.raise := by
  rw [Visit.counter]
  split <;> omega

/-- A call for an item of a definition does not lower the counter. -/
theorem le_counter (db : DomainDb) (v : Visit) (s : ℤ) : s + v.raise - 1 ≤ v.counter db s := by
  rw [Visit.counter]
  split <;> omega

/-- Only the domains of the list lower the counter. -/
theorem le_sanityCount {walk : List Visit} {st st' : DomainSet} (h : st.myabort = false)
    (hbound : st.sanityCount ≤ maxDomainDepth) (hwalk : walk.foldlM (visit db) st = .ok st')
    (hst' : st'.myabort = false) :
    st.sanityCount - walk.countP (!·.inner) ≤ st'.sanityCount ∧
      st'.sanityCount ≤ maxDomainDepth := by
  induction walk generalizing st with
  | nil =>
    obtain rfl := Except.ok.inj hwalk
    exact ⟨by simp, hbound⟩
  | cons v walk ih =>
    rw [List.foldlM_cons] at hwalk
    cases hv : visit db st v with
    | error e =>
      rw [hv] at hwalk
      exact absurd hwalk (by simp [bind, Except.bind])
    | ok st₁ =>
      rw [hv] at hwalk
      replace hwalk : walk.foldlM (visit db) st₁ = .ok st' := hwalk
      obtain ⟨hcount, habort⟩ := visit_ok h hv
      cases h₁ : st₁.myabort with
      | true =>
        rw [foldlM_visit_aborted h₁] at hwalk
        obtain rfl := Except.ok.inj hwalk
        exact absurd (h₁.symm.trans hst') (by simp)
      | false =>
        have hle := habort h₁
        have hcle := counter_le db v st.sanityCount
        have hlec := le_counter db v st.sanityCount
        obtain ⟨hlow, hhigh⟩ := ih h₁ (by omega) hwalk
        refine ⟨?_, hhigh⟩
        rw [List.countP_cons]
        cases hinner : v.inner <;> simp only [Visit.raise, hinner] at hlec hle ⊢ <;> push_cast <;>
          simp at hlec ⊢ <;> omega

theorem inner_visits (n : ℕ) (name : List UInt8) : ∀ v ∈ visits db n true name, v.inner = true := by
  induction n generalizing name with
  | zero => simp [visits]
  | succ n ih =>
    intro v hv
    rw [visits] at hv
    rcases List.mem_cons.mp hv with rfl | hv
    · rfl
    · cases hdb : db name with
      | none => simp [hdb] at hv
      | some domainDef =>
        rw [hdb] at hv
        obtain ⟨item, -, hv⟩ := List.mem_flatMap.mp hv
        exact ih item v hv

theorem countP_visits (n : ℕ) (inner : Bool) (name : List UInt8) :
    (visits db n inner name).countP (!·.inner) = if inner then 0 else 1 := by
  have hrest : ∀ l : List Visit, (∀ v ∈ l, v.inner = true) → l.countP (!·.inner) = 0 := fun l hl =>
    List.countP_eq_zero.mpr fun v hv => by simp [hl v hv]
  cases n with
  | zero => cases inner <;> rfl
  | succ n =>
    rw [visits, List.countP_cons, hrest]
    · cases inner <;> rfl
    · intro v hv
      cases hdb : db name with
      | none => simp [hdb] at hv
      | some domainDef =>
        rw [hdb] at hv
        obtain ⟨item, -, hv⟩ := List.mem_flatMap.mp hv
        exact inner_visits n item v hv

/-- The items of a definition, when each is followed as far as the counter lets it go. -/
theorem constructItems_eq {construct : List UInt8 → DomainSet → Except CompileStop DomainSet}
    {n : ℕ} (hconstruct : ∀ name (st : DomainSet), st.myabort = false →
      st.sanityCount ≤ maxDomainDepth → (maxDomainDepth : ℤ) + 1 ≤ st.sanityCount + n →
      construct name { st with sanityCount := st.sanityCount + 1 } =
        (visits db n true name).foldlM (visit db) st)
    (items : List (List UInt8)) {st : DomainSet} (h : st.myabort = false)
    (hbound : st.sanityCount ≤ maxDomainDepth) (hn : (maxDomainDepth : ℤ) + 1 ≤ st.sanityCount + n) :
    constructItems construct items st =
      (items.flatMap (visits db n true)).foldlM (visit db) st := by
  induction items generalizing st with
  | nil => rfl
  | cons item items ih =>
    rw [constructItems, if_neg (by simp [h]), hconstruct item st h hbound hn, List.flatMap_cons,
      List.foldlM_append]
    cases hfold : (visits db n true item).foldlM (visit db) st with
    | error e => rfl
    | ok st₁ =>
      show constructItems construct items st₁ = (items.flatMap _).foldlM (visit db) st₁
      cases h₁ : st₁.myabort with
      | true => rw [constructItems_aborted h₁, foldlM_visit_aborted h₁]
      | false =>
        obtain ⟨hlow, hhigh⟩ := le_sanityCount h hbound hfold h₁
        rw [countP_visits] at hlow
        refine ih h₁ hhigh ?_
        simp at hlow
        omega

/-- `domain_construct` is a walk, when the recursion goes as far as the counter lets it. -/
theorem domainConstruct_eq (db : DomainDb) (n : ℕ) (inner : Bool) (name : List UInt8) {st : DomainSet}
    (h : st.myabort = false) (hbound : st.sanityCount ≤ maxDomainDepth)
    (hn : (maxDomainDepth : ℤ) + 2 ≤ st.sanityCount + (Visit.mk inner name).raise + n) :
    domainConstruct db n name
        { st with sanityCount := st.sanityCount + (Visit.mk inner name).raise } =
      (visits db n inner name).foldlM (visit db) st := by
  induction n generalizing inner name st with
  | zero =>
    have : (Visit.mk inner name).raise ≤ 1 := by
      rw [Visit.raise]
      split <;> omega
    omega
  | succ n ih =>
    set s := st.sanityCount + (Visit.mk inner name).raise with hs
    have hif : (if (maxDomainDepth : ℤ) < s then
        ({ st with sanityCount := s, myabort := true } : DomainSet) else { st with sanityCount := s }) =
        { st with sanityCount := s, myabort := decide ((maxDomainDepth : ℤ) < s) } := by
      split
      next hlt => rw [decide_eq_true hlt]
      next hlt => rw [decide_eq_false hlt, ← h]
    rw [domainConstruct]
    dsimp only
    rw [hif, visits, List.foldlM_cons, visit, if_neg (by simp [h])]
    dsimp only
    rw [Visit.atomic, ← hs]
    cases hdb : db name with
    | none =>
      simp only [Option.isNone_none, if_true]
      exact (bind_pure _).symm
    | some domainDef =>
      show constructItems (domainConstruct db n) (domainItems domainDef) _ =
        List.foldlM (visit db) { st with sanityCount := s, myabort := decide (_ < s) } _
      by_cases hlt : (maxDomainDepth : ℤ) < s
      · rw [decide_eq_true hlt, constructItems_aborted rfl, foldlM_visit_aborted rfl]
      · rw [decide_eq_false hlt]
        refine constructItems_eq (fun name' st' h' hb' hn' => ?_) _ rfl (not_lt.mp hlt) ?_
        · refine ih true name' h' hb' ?_
          show (maxDomainDepth : ℤ) + 2 ≤ st'.sanityCount + 1 + n
          omega
        · show (maxDomainDepth : ℤ) + 1 ≤ s + n
          push_cast at hn
          omega

/-- So is the loop over the list. -/
theorem constructDomains_eq (n : ℕ) (names : List (List UInt8)) {st : DomainSet}
    (h : st.myabort = false) (hbound : st.sanityCount ≤ maxDomainDepth)
    (hn : (maxDomainDepth : ℤ) + 2 + names.length ≤ st.sanityCount + n) :
    constructDomains (domainConstruct db n) names st =
      (names.flatMap (visits db n false)).foldlM (visit db) st := by
  induction names generalizing st with
  | nil => rfl
  | cons name names ih =>
    rw [List.length_cons] at hn
    push_cast at hn
    have hst : { st with sanityCount := st.sanityCount + (Visit.mk false name).raise } = st := by
      rw [show (Visit.mk false name).raise = 0 from rfl, add_zero]
    have hone := domainConstruct_eq db n false name h hbound (by
      rw [show (Visit.mk false name).raise = 0 from rfl]
      omega)
    rw [hst] at hone
    rw [constructDomains, hone, List.flatMap_cons, List.foldlM_append]
    cases hfold : (visits db n false name).foldlM (visit db) st with
    | error e => rfl
    | ok st₁ =>
      show (if st₁.myabort = true then Except.ok st₁ else constructDomains _ names st₁) =
        (names.flatMap _).foldlM (visit db) st₁
      cases h₁ : st₁.myabort with
      | true => rw [if_pos rfl, foldlM_visit_aborted h₁]
      | false =>
        obtain ⟨hlow, hhigh⟩ := le_sanityCount h hbound hfold h₁
        rw [countP_visits] at hlow
        rw [if_neg (by simp)]
        refine ih h₁ hhigh ?_
        simp at hlow
        omega

/-- What a walk leaves in the list: everything that it meets, if the counter lets it. -/
theorem foldlM_visit_spec (db : DomainDb) (walk : List Visit) (st : DomainSet)
    (h : st.myabort = false) :
    (Fits db st.sanityCount st.domainList.length walk → ∃ st',
      walk.foldlM (visit db) st = .ok st' ∧
      (st'.myabort = true ↔ ¬NeverOver db st.sanityCount walk) ∧
      (NeverOver db st.sanityCount walk → st'.domainList = st.domainList ++ atoms db walk)) ∧
    (¬Fits db st.sanityCount st.domainList.length walk →
      walk.foldlM (visit db) st = .error .outside) := by
  induction walk generalizing st with
  | nil => exact ⟨fun _ => ⟨st, rfl, by simp [h, NeverOver], fun _ => by simp [atoms]⟩,
      fun hf => absurd trivial hf⟩
  | cons v walk ih =>
    have hstep : ∀ st₁ : DomainSet, visit db st v = .ok st₁ →
        st₁.domainList.length = (if v.atomic db then st.domainList.length + 1
          else st.domainList.length) → st₁.sanityCount = v.counter db st.sanityCount →
        st₁.domainList = st.domainList ++ atoms db [v] →
        st₁.myabort = decide ((maxDomainDepth : ℤ) < st.sanityCount + v.raise) →
        (v.atomic db = true → st.domainList.length < maxNoDomains ∧ v.name.length < maxDomainLen) →
        (Fits db st.sanityCount st.domainList.length (v :: walk) → ∃ st',
          (v :: walk).foldlM (visit db) st = .ok st' ∧
          (st'.myabort = true ↔ ¬NeverOver db st.sanityCount (v :: walk)) ∧
          (NeverOver db st.sanityCount (v :: walk) →
            st'.domainList = st.domainList ++ atoms db (v :: walk))) ∧
        (¬Fits db st.sanityCount st.domainList.length (v :: walk) →
          (v :: walk).foldlM (visit db) st = .error .outside) := by
      intro st₁ hv hlen hcount hlist habort hroom
      have hfold : (v :: walk).foldlM (visit db) st = walk.foldlM (visit db) st₁ := by
        rw [List.foldlM_cons, hv]
        rfl
      rw [hfold, Fits, NeverOver]
      by_cases hle : st.sanityCount + v.raise ≤ maxDomainDepth
      · rw [decide_eq_false (not_lt.mpr hle)] at habort
        obtain ⟨hfits, hnot⟩ := ih st₁ habort
        rw [hcount, hlen] at hfits hnot
        refine ⟨fun hf => ?_, fun hf => hnot fun hwalk => hf ⟨hroom, fun _ => hwalk⟩⟩
        obtain ⟨st', hst', habort', hnever⟩ := hfits (hf.2 hle)
        refine ⟨st', hst', by simpa [hle] using habort', fun hn => ?_⟩
        rw [hnever hn.2, hlist, List.append_assoc, atoms, atoms, ← List.map_append,
          ← List.filter_append]
        rfl
      · -- the counter has passed the bound: nothing more is done
        rw [decide_eq_true (not_le.mp hle)] at habort
        rw [foldlM_visit_aborted habort]
        exact ⟨fun _ => ⟨st₁, rfl, by simp [habort, hle], fun hn => absurd hn.1 hle⟩,
          fun hf => absurd ⟨hroom, fun h => absurd h hle⟩ hf⟩
    have hvisit : visit db st v = if v.atomic db then storeDomain v.name
        ⟨st.domainList, st.sanityCount + v.raise - 1,
          decide ((maxDomainDepth : ℤ) < st.sanityCount + v.raise)⟩
        else .ok ⟨st.domainList, st.sanityCount + v.raise,
          decide ((maxDomainDepth : ℤ) < st.sanityCount + v.raise)⟩ := by
      rw [visit, if_neg (by simp [h])]
    by_cases hatomic : v.atomic db = true
    · rw [if_pos hatomic, storeDomain] at hvisit
      by_cases hroom : st.domainList.length < maxNoDomains ∧ v.name.length < maxDomainLen
      · rw [if_pos hroom] at hvisit
        refine hstep _ hvisit ?_ ?_ ?_ rfl fun _ => hroom
        · rw [if_pos hatomic, List.length_append, List.length_singleton]
        · rw [Visit.counter, if_pos hatomic]
        · rw [atoms, List.filter_cons_of_pos hatomic]
          rfl
      · rw [if_neg hroom] at hvisit
        refine ⟨fun hf => absurd (hf.1 hatomic) hroom, fun _ => ?_⟩
        rw [List.foldlM_cons, hvisit]
        rfl
    · rw [if_neg hatomic] at hvisit
      refine hstep _ hvisit ?_ ?_ ?_ rfl fun h => absurd h hatomic
      · rw [if_neg hatomic]
      · rw [Visit.counter, if_neg hatomic, sub_zero]
      · rw [atoms, List.filter_cons_of_neg hatomic]
        simp

end

/-! ### What the definitions stand for -/

section

variable (db : DomainDb)

/-- The definitions below a name are nested at most `n` deep. -/
def depthLE : ℕ → List UInt8 → Bool
  | 0, name => (db name).isNone
  | n + 1, name =>
    match db name with
    | none => true
    | some domainDef => (domainItems domainDef).all (depthLE n)

/-- The atomic domains that the definitions lead to, each as often as they do, to a depth of `n`. -/
def atomsBelow : ℕ → List UInt8 → List (List UInt8)
  | 0, name => if (db name).isNone then [name] else []
  | n + 1, name =>
    match db name with
    | none => [name]
    | some domainDef => (domainItems domainDef).flatMap (atomsBelow n)

/-- `item` is in the definition of `name`. -/
def DefinedBy (name item : List UInt8) : Prop :=
  ∃ domainDef, db name = some domainDef ∧ item ∈ domainItems domainDef

/-- The definitions lead from the name to one that is defined by itself. -/
def ReachesCycle (name : List UInt8) : Prop :=
  ∃ x, Relation.ReflTransGen (DefinedBy db) name x ∧ Relation.TransGen (DefinedBy db) x x

/-- There is a path of `m` definitions from the name. -/
def Deep : ℕ → List UInt8 → Prop
  | 0, _ => True
  | m + 1, name => ∃ item, DefinedBy db name item ∧ Deep m item

/-- The walk of a compilation. -/
def compileWalk (domains : List UInt8) : List Visit :=
  (topNames domains).flatMap (visits db (domainFuel domains) false)

/-- The compilation ends, without a domain outside of the list.  Where the definitions are nested
at most `MAX_DOMAIN_DEPTH` deep, the list has the domains that they lead to; where they lead to a
cycle, the result is `ERROR`. -/
structure CompilesRight (domains : List UInt8) : Prop where
  ends : ∃ r, compileDomains db domains = .ok r
  shallow : (∀ name ∈ topNames domains, depthLE db maxDomainDepth name = true) →
    ∃ l, compileDomains db domains = .ok (some l) ∧
      l.Perm ((topNames domains).flatMap (atomsBelow db maxDomainDepth))
  cycle : (∃ name ∈ topNames domains, ReachesCycle db name) →
    compileDomains db domains = .ok none

/-- `*` is no pseudo-domain, as far as the definitions below it are shallow or have a cycle.  Any
other list is no longer than a path.  Along the definitions, the names find room in the list until
the counter passes `MAX_DOMAIN_DEPTH`, and that it does not, if the definitions are shallow. -/
structure CounterAllows (domains : List UInt8) : Prop where
  all : domains = domainAll → depthLE db maxDomainDepth domainAll = true ∨
    ReachesCycle db domainAll → db domainAll = none
  short : domains ≠ domainAll → domains.length < maxPathLen
  fits : domains ≠ domainAll → Fits db 0 0 (compileWalk db domains)
  neverOver : domains ≠ domainAll →
    (∀ name ∈ topNames domains, depthLE db maxDomainDepth name = true) →
      NeverOver db 0 (compileWalk db domains)

end

section

variable {db : DomainDb}

theorem atoms_flatMap {α : Type} (f : α → List Visit) (l : List α) :
    atoms db (l.flatMap f) = l.flatMap fun a => atoms db (f a) := by
  rw [atoms, List.filter_flatMap, List.map_flatMap]
  rfl

theorem atoms_visits (n : ℕ) (inner : Bool) (name : List UInt8) :
    atoms db (visits db n inner name) = atomsBelow db n name := by
  induction n generalizing inner name with
  | zero =>
    rw [visits, atomsBelow, atoms]
    cases h : db name <;> simp [Visit.atomic, h]
  | succ n ih =>
    rw [visits, atomsBelow]
    cases h : db name with
    | none => simp [atoms, Visit.atomic, h]
    | some domainDef =>
      have hcons : ∀ w, atoms db (⟨inner, name⟩ :: w) = atoms db w := fun w => by
        simp [atoms, Visit.atomic, h]
      show atoms db (⟨inner, name⟩ :: (domainItems domainDef).flatMap (visits db n true)) = _
      rw [hcons, atoms_flatMap]
      exact List.flatMap_congr fun item _ => ih true item

/-- Nothing is below the depth of the definitions. -/
theorem atomsBelow_of_depthLE {n m : ℕ} (hnm : n ≤ m) {name : List UInt8}
    (h : depthLE db n name = true) : atomsBelow db m name = atomsBelow db n name := by
  induction n generalizing m name with
  | zero =>
    rw [depthLE, Option.isNone_iff_eq_none] at h
    cases m <;> simp [atomsBelow, h]
  | succ n ih =>
    obtain ⟨m, rfl⟩ : ∃ k, m = k + 1 := ⟨m - 1, by omega⟩
    rw [atomsBelow, atomsBelow]
    rw [depthLE] at h
    cases hdb : db name with
    | none => rfl
    | some domainDef =>
      rw [hdb] at h
      exact List.flatMap_congr fun item hitem =>
        ih (by omega) (List.all_eq_true.mp h item hitem)

theorem mem_atomsBelow {n : ℕ} {name a : List UInt8} (h : a ∈ atomsBelow db n name) :
    db a = none := by
  induction n generalizing name with
  | zero =>
    rw [atomsBelow] at h
    split at h
    next hnone =>
      rw [List.mem_singleton.mp h]
      exact Option.isNone_iff_eq_none.mp hnone
    next => exact absurd h List.not_mem_nil
  | succ n ih =>
    rw [atomsBelow] at h
    cases hdb : db name with
    | none =>
      rw [hdb] at h
      rw [List.mem_singleton.mp h, hdb]
    | some domainDef =>
      rw [hdb] at h
      obtain ⟨item, -, ha⟩ := List.mem_flatMap.mp h
      exact ih ha

/-- From a name that leads to a cycle, some item of its definition does as well. -/
theorem ReachesCycle.step {name : List UInt8} (h : ReachesCycle db name) :
    ∃ item, DefinedBy db name item ∧ ReachesCycle db item := by
  obtain ⟨x, hreach, hcycle⟩ := h
  rcases hreach.cases_head with rfl | ⟨item, hitem, hrest⟩
  · obtain ⟨item, hitem, hrest⟩ := Relation.TransGen.head'_iff.mp hcycle
    exact ⟨item, hitem, _, hrest, hcycle⟩
  · exact ⟨item, hitem, x, hrest, hcycle⟩

theorem ReachesCycle.deep (m : ℕ) {name : List UInt8} (h : ReachesCycle db name) :
    Deep db m name := by
  induction m generalizing name with
  | zero => trivial
  | succ m ih =>
    obtain ⟨item, hitem, hcycle⟩ := h.step
    exact ⟨item, hitem, ih hcycle⟩

theorem NeverOver.append_right {w₁ w₂ : List Visit} {s : ℤ} (h : NeverOver db s (w₁ ++ w₂)) :
    ∃ s', s - w₁.countP (!·.inner) ≤ s' ∧ NeverOver db s' w₂ := by
  induction w₁ generalizing s with
  | nil => exact ⟨s, by simp, h⟩
  | cons v w₁ ih =>
    obtain ⟨s', hs', h'⟩ := ih h.2
    have hle := le_counter db v s
    refine ⟨s', ?_, h'⟩
    rw [List.countP_cons]
    cases hinner : v.inner <;> simp only [Visit.raise, hinner] at hle ⊢ <;> push_cast <;>
      simp at hle ⊢ <;> omega

/-- The counter passes the number of definitions on a path. -/
theorem NeverOver.depth_le {m n : ℕ} (hmn : m ≤ n) {inner : Bool} {name : List UInt8}
    (hdeep : Deep db m name) {s : ℤ} {rest : List Visit}
    (h : NeverOver db s (visits db n inner name ++ rest)) :
    s + (Visit.mk inner name).raise + m ≤ maxDomainDepth := by
  induction m generalizing n inner name s rest with
  | zero =>
    have hhead : ∃ w, visits db n inner name ++ rest = ⟨inner, name⟩ :: w := by
      cases n <;> exact ⟨_, rfl⟩
    obtain ⟨w, hw⟩ := hhead
    rw [hw] at h
    simpa using h.1
  | succ m ih =>
    obtain ⟨n, rfl⟩ : ∃ k, n = k + 1 := ⟨n - 1, by omega⟩
    obtain ⟨item, ⟨domainDef, hdb, hitem⟩, hdeep⟩ := hdeep
    obtain ⟨before, after, hitems⟩ := List.append_of_mem hitem
    rw [visits, hdb] at h
    dsimp only at h
    rw [List.cons_append, hitems, List.flatMap_append, List.flatMap_cons, List.append_assoc,
      List.append_assoc] at h
    obtain ⟨s', hs', h'⟩ := h.2.append_right
    have hzero : (before.flatMap (visits db n true)).countP (!·.inner) = 0 :=
      List.countP_eq_zero.mpr fun v hv => by
        obtain ⟨b, -, hv⟩ := List.mem_flatMap.mp hv
        simp [inner_visits n b v hv]
    have hcounter : (Visit.mk inner name).counter db s = s + (Visit.mk inner name).raise := by
      rw [Visit.counter, Visit.atomic, hdb]
      simp
    have hle := ih (by omega) hdeep h'
    rw [hzero, hcounter] at hs'
    rw [show (Visit.mk true item).raise = 1 from rfl] at hle
    push_cast at hs' hle ⊢
    omega

theorem countP_flatMap_visits (n : ℕ) (names : List (List UInt8)) :
    (names.flatMap (visits db n false)).countP (!·.inner) = names.length := by
  induction names with
  | nil => rfl
  | cons name names ih =>
    rw [List.flatMap_cons, List.countP_append, countP_visits, ih, List.length_cons]
    simp [add_comm]

/-- A cycle makes the counter pass its bound. -/
theorem not_neverOver_of_cycle {domains : List UInt8}
    (h : ∃ name ∈ topNames domains, ReachesCycle db name) :
    ¬NeverOver db 0 (compileWalk db domains) := by
  obtain ⟨name, hname, hcycle⟩ := h
  obtain ⟨before, after, hnames⟩ := List.append_of_mem hname
  intro hnever
  rw [compileWalk, hnames, List.flatMap_append, List.flatMap_cons] at hnever
  obtain ⟨s, hs, hnever⟩ := hnever.append_right
  rw [countP_flatMap_visits] at hs
  have hlen : before.length < (topNames domains).length := by
    rw [hnames, List.length_append, List.length_cons]
    omega
  have hle := hnever.depth_le (by rw [domainFuel]; omega)
    (hcycle.deep (maxDomainDepth + 1 + (topNames domains).length))
  rw [show (Visit.mk false name).raise = 0 from rfl] at hle
  push_cast at hle
  omega

/-- A compilation is a walk along the definitions. -/
theorem run_compile (db : DomainDb) (domains : List UInt8) :
    constructDomains (domainConstruct db (domainFuel domains)) (topNames domains) ⟨[], 0, false⟩ =
      (compileWalk db domains).foldlM (visit db) ⟨[], 0, false⟩ := by
  refine constructDomains_eq _ _ rfl (by simp) ?_
  rw [domainFuel]
  push_cast
  omega

/-- What comes of a list. -/
theorem compileDomains_spec (db : DomainDb) {domains : List UInt8} (hall : domains ≠ domainAll)
    (hshort : domains.length < maxPathLen) :
    (Fits db 0 0 (compileWalk db domains) → ∃ r, compileDomains db domains = .ok r ∧
      (r = none ↔ ¬NeverOver db 0 (compileWalk db domains)) ∧
      ∀ l, r = some l → l.Perm ((topNames domains).flatMap (atomsBelow db (domainFuel domains)))) ∧
    (¬Fits db 0 0 (compileWalk db domains) → compileDomains db domains = .error .outside) := by
  have hspec := foldlM_visit_spec db (compileWalk db domains) ⟨[], 0, false⟩ rfl
  rw [compileDomains, if_neg hall, if_neg (not_le.mpr hshort), run_compile]
  refine ⟨fun hfits => ?_, fun hfits => by rw [hspec.2 hfits]; rfl⟩
  obtain ⟨st, hst, habort, hlist⟩ := hspec.1 hfits
  rw [hst]
  refine ⟨_, rfl, ?_, fun l hl => ?_⟩
  · rw [← habort]
    cases st.myabort <;> simp
  · have hnever : NeverOver db 0 (compileWalk db domains) := by
      by_contra hn
      rw [if_pos (habort.mpr hn)] at hl
      exact absurd hl (by simp)
    have hatoms : atoms db (compileWalk db domains) =
        (topNames domains).flatMap (atomsBelow db (domainFuel domains)) := by
      rw [compileWalk, atoms_flatMap]
      exact List.flatMap_congr fun name _ => atoms_visits _ _ name
    have hfalse : ¬st.myabort = true := fun h => habort.mp h hnever
    rw [if_neg hfalse] at hl
    rw [← Option.some.inj hl, hlist hnever, List.nil_append, hatoms]
    exact perm_qsort _ _

/-- **When the domains are compiled right.** -/
theorem compilesRight_iff (db : DomainDb) (domains : List UInt8) :
    CompilesRight db domains ↔ CounterAllows db domains := by
  by_cases hall : domains = domainAll
  · subst hall
    have hrun : compileDomains db domainAll = .ok (some [domainAll]) := by
      rw [compileDomains, if_pos rfl]
    have htop : topNames domainAll = [domainAll] := by decide
    constructor
    · rintro ⟨-, hshallow, hcycle⟩
      refine ⟨fun _ h => ?_, fun h => absurd rfl h, fun h => absurd rfl h, fun h => absurd rfl h⟩
      rcases h with h | h
      · obtain ⟨l, hl, hperm⟩ := hshallow (by simpa [htop] using h)
        obtain rfl := Option.some.inj (Except.ok.inj (hl.symm.trans hrun))
        have hmem : domainAll ∈ (topNames domainAll).flatMap (atomsBelow db maxDomainDepth) :=
          hperm.mem_iff.mp (by simp)
        obtain ⟨name, -, hmem⟩ := List.mem_flatMap.mp hmem
        exact mem_atomsBelow hmem
      · have hnone := hcycle ⟨domainAll, by simp [htop], h⟩
        rw [hrun] at hnone
        exact absurd (Except.ok.inj hnone) (by simp)
    · rintro ⟨hnone, -, -, -⟩
      refine ⟨⟨_, hrun⟩, fun h => ⟨_, hrun, ?_⟩, ?_⟩
      · rw [htop] at h ⊢
        have hdb := hnone rfl (.inl (h domainAll (by simp)))
        rw [List.flatMap_singleton, maxDomainDepth, atomsBelow, hdb]
      · rintro ⟨name, hname, hcycle⟩
        rw [htop, List.mem_singleton] at hname
        subst hname
        have hdb := hnone rfl (.inr hcycle)
        obtain ⟨item, ⟨domainDef, hsome, -⟩, -⟩ := hcycle.step
        exact absurd (hdb.symm.trans hsome) (by simp)
  · have hdepth : (∀ name ∈ topNames domains, depthLE db maxDomainDepth name = true) →
        (topNames domains).flatMap (atomsBelow db (domainFuel domains)) =
          (topNames domains).flatMap (atomsBelow db maxDomainDepth) := fun h =>
      List.flatMap_congr fun name hname =>
        atomsBelow_of_depthLE (by rw [domainFuel]; omega) (h name hname)
    constructor
    · rintro ⟨⟨r, hr⟩, hshallow, -⟩
      have hshort : domains.length < maxPathLen := by
        by_contra hlong
        rw [compileDomains, if_neg hall, if_pos (not_lt.mp hlong)] at hr
        exact absurd hr (by simp)
      obtain ⟨hfits, hnot⟩ := compileDomains_spec db hall hshort
      have hfit : Fits db 0 0 (compileWalk db domains) := by
        by_contra hf
        rw [hnot hf] at hr
        exact absurd hr (by simp)
      refine ⟨fun h => absurd h hall, fun _ => hshort, fun _ => hfit, fun _ hd => ?_⟩
      obtain ⟨r', hr', hnone, -⟩ := hfits hfit
      obtain ⟨l, hl, -⟩ := hshallow hd
      by_contra hover
      rw [hnone.mpr hover, hl] at hr'
      exact absurd (Except.ok.inj hr') (by simp)
    · rintro ⟨-, hshort, hfit, hnever⟩
      obtain ⟨r, hr, hnone, hperm⟩ := (compileDomains_spec db hall (hshort hall)).1 (hfit hall)
      refine ⟨⟨r, hr⟩, fun hd => ?_, fun hcycle => ?_⟩
      · cases r with
        | none => exact absurd (hnever hall hd) (hnone.mp rfl)
        | some l => exact ⟨l, hr, hdepth hd ▸ hperm l rfl⟩
      · rw [hr, hnone.mpr (not_neverOver_of_cycle hcycle)]

/-- A group of 20 references to a group of one domain. -/
def wideDb : DomainDb := fun name =>
  if name = bytes "a" then some ([58].intercalate (List.replicate 20 (bytes "g")))
  else if name = bytes "g" then some (bytes "x")
  else none

/-- Its definitions are two deep, but they are not compiled. -/
theorem not_compilesRight : ¬∀ (db : DomainDb) (domains : List UInt8), CompilesRight db domains := by
  intro h
  have hdepth : ∀ name ∈ topNames (bytes "a"), depthLE wideDb maxDomainDepth name = true := by
    decide +kernel
  obtain ⟨l, hl, -⟩ := (h wideDb (bytes "a")).shallow hdepth
  have hrun : compileDomains wideDb (bytes "a") = .ok none := by decide +kernel
  rw [hrun] at hl
  exact absurd (Except.ok.inj hl) (by simp)

end

end Archie
