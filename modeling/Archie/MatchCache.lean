/-
The cache of search results (`libparchie/parchie_cache.c`): at most fifteen entries, each
with the links that answer a request and, cut off behind them, more links for requests that
ask for more.

* `LinkHeap`, `MatchCache`, `CacheState` — links and entries in memory.
* `cacheLoop`, `checkCache`, `addToCache` — the functions.
* `cacheLoop_spec` — what the loop over the links of an entry does to its two lists.
* `addToCache_spec` — what an addition does to the entries.
* `cacheRun_good`, `cacheRun_kept` — the cache through a run of requests.
* `not_kept_firstAgain`, `not_kept_cutTwice` — runs that lose entries and links.
-/
import Archie.HeapList
import Mathlib.Algebra.Group.Int.Defs
import Mathlib.Algebra.Group.Nat.Defs
import Mathlib.Data.List.Nodup
import Mathlib.Data.List.Perm.Subperm

namespace Archie

/-! ### Memory -/

/-- The links that have been allocated, by number: `VLINK` as far as the cache sets its fields. -/
structure LinkHeap where
  size : ℕ
  next : ℕ → Option ℕ
  previous : ℕ → Option ℕ
  expanded : ℕ → Bool
  dontfree : ℕ → Bool

def LinkHeap.setNext (h : LinkHeap) (a : ℕ) (p : Option ℕ) : LinkHeap :=
  { h with next := Function.update h.next a p }

def LinkHeap.setPrevious (h : LinkHeap) (a : ℕ) (p : Option ℕ) : LinkHeap :=
  { h with previous := Function.update h.previous a p }

def LinkHeap.setExpanded (h : LinkHeap) (a : ℕ) (b : Bool) : LinkHeap :=
  { h with expanded := Function.update h.expanded a b }

def LinkHeap.setDontfree (h : LinkHeap) (a : ℕ) (b : Bool) : LinkHeap :=
  { h with dontfree := Function.update h.dontfree a b }

section

variable (h : LinkHeap) (a c : ℕ) (p : Option ℕ) (b : Bool)

@[simp] theorem LinkHeap.setNext_next_self :
  (h.setNext a p).next a = p := by simp [LinkHeap.setNext]

@[simp] theorem LinkHeap.setNext_previous : (h.setNext a p).previous = h.previous := rfl

@[simp] theorem LinkHeap.setPrevious_next : (h.setPrevious a p).next = h.next := rfl

@[simp] theorem LinkHeap.setPrevious_previous_self : (h.setPrevious a p).previous a = p := by
  simp [LinkHeap.setPrevious]

@[simp] theorem LinkHeap.setExpanded_next : (h.setExpanded a b).next = h.next := rfl

@[simp] theorem LinkHeap.setExpanded_previous : (h.setExpanded a b).previous = h.previous := rfl

variable {a c}

theorem LinkHeap.setNext_next_of_ne (hca : c ≠ a) : (h.setNext a p).next c = h.next c := by
  simp [LinkHeap.setNext, hca]

theorem LinkHeap.setPrevious_previous_of_ne (hca : c ≠ a) :
    (h.setPrevious a p).previous c = h.previous c := by
  simp [LinkHeap.setPrevious, hca]

end

/-- `match_cache_t`; `matched` is its `matches`. -/
structure MatchCache where
  arg : List UInt8
  domains : List UInt8
  compRest : List UInt8
  maxhits : ℤ
  maxmatch : ℤ
  maxhitpm : ℤ
  offset : ℤ
  searchType : ℕ
  reqType : ℕ
  matched : Option ℕ
  more : Option ℕ
  archiedir : Bool
  next : Option ℕ

/-- `search_req_t`, as far as the cache reads it, with the two strings that come with it. -/
structure SearchReq where
  searchStr : List UInt8
  origType : ℕ
  currType : ℕ
  origOffset : ℤ
  maxhits : ℤ
  maxmatch : ℤ
  maxhitpm : ℤ
  archieDir : Bool
  domains : List UInt8
  compRest : List UInt8

/-- The cache: its links and its entries, which are never freed, and the two variables. -/
structure CacheState where
  links : LinkHeap
  entry : ℕ → MatchCache
  mcache : Option ℕ
  cachecount : ℕ

def CacheState.setEntry (st : CacheState) (c : ℕ) (e : MatchCache) : CacheState :=
  { st with entry := Function.update st.entry c e }

section

variable (st : CacheState) (e : MatchCache) {c d : ℕ}

@[simp] theorem CacheState.setEntry_entry_self :
  (st.setEntry c e).entry c = e := by simp [CacheState.setEntry]

theorem CacheState.setEntry_entry_of_ne (h : d ≠ c) : (st.setEntry c e).entry d = st.entry d := by
  simp [CacheState.setEntry, h]

end

/-! ### Looking up -/

/-- `maxmatch * maxhitpm`, as an `int`. -/
def SearchReq.product (req : SearchReq) : ℤ := (req.maxmatch * req.maxhitpm).bmod (2 ^ 32)

/-- `count` at first. -/
def SearchReq.count (req : SearchReq) : ℤ :=
  if req.maxhits > req.product then req.product else req.maxhits

/-- An entry that can answer a request. -/
def MatchCache.answers (e : MatchCache) (req : SearchReq) : Bool :=
  (req.currType == e.searchType || req.currType == e.reqType) && e.offset == req.origOffset &&
    (e.maxhits < 0 || req.maxhits ≤ e.maxhits) && (e.maxmatch < 0 || req.maxmatch ≤ e.maxmatch) &&
    (e.maxhitpm < 0 || req.maxhitpm ≤
      e.maxhitpm) && e.arg == req.searchStr && e.domains == req.domains &&
    e.compRest == req.compRest

/-- The loop over the links of an entry; none, if a pointer is followed that is NULL. -/
def cacheLoop : ℕ → LinkHeap → MatchCache → ℤ → Option ℕ → Option (LinkHeap × MatchCache)
  | _, h, e, _, none => some (h, e)
  | 0, _, _, _, some _ => none
  | fuel + 1, h, e, count, some cur =>
    let h := h.setExpanded cur false
    let count := count - 1
    match h.next cur with
    | some n =>
      if count = 0 then
        match e.matched with
        | none => none
        | some m =>
          match e.more with
          | some r =>
            let h := h.setPrevious n (h.previous r)
            let h := h.setPrevious r (h.previous m)
            match h.previous m with
            | none => none
            | some last =>
              -- The old end of the matches now leads to the links behind, but `more` stays.
              let h := h.setNext last (some r)
              let h := h.setNext cur none
              let h := h.setPrevious m (some cur)
              cacheLoop fuel h e count (h.next cur)
          | none =>
            let e := { e with more := some n }
            let h := h.setPrevious n (h.previous m)
            let h := h.setNext cur none
            let h := h.setPrevious m (some cur)
            cacheLoop fuel h e count (h.next cur)
      else cacheLoop fuel h e count (some n)
    | none =>
      match e.more with
      | some r =>
        if count ≠ 0 then
          match e.matched with
          | none => none
          | some m =>
            let h := h.setPrevious m (h.previous r)
            let h := h.setNext cur (some r)
            let h := h.setPrevious r (some cur)
            cacheLoop fuel h { e with more := none } count (h.next cur)
        else cacheLoop fuel h e count none
      | none => cacheLoop fuel h e count none

/-- The loop of `check_cache` over the entries: where the links begin, if there is an entry.  The
entry is moved to the front of the list that begins with the parameter. -/
def checkCacheLoop (req : SearchReq) (st : CacheState) :
    ℕ → Option ℕ → Option ℕ → Option (Option (Option ℕ) × CacheState)
  | _, _, none => some (none, st)
  | 0, _, some _ => none
  | fuel + 1, pcachep, some c =>
    if (st.entry c).answers req then
      let st := match pcachep with
        | none => st
        | some p =>
          let st := st.setEntry p { st.entry p with next := (st.entry c).next }
          st.setEntry c { st.entry c with next := st.mcache }
      match cacheLoop (st.links.size + 1) st.links (st.entry c) req.count (st.entry c).matched with
      | none => none
      | some (links, e) => some (some e.matched, { st.setEntry c e with links })
    else checkCacheLoop req st fuel (some c) (st.entry c).next

/-- `check_cache`. -/
def checkCache (req : SearchReq) (st : CacheState) : Option (Option (Option ℕ) × CacheState) :=
  checkCacheLoop req st (st.cachecount + 1) none st.mcache

/-! ### Adding -/

/-- `MATCH_CACHE_SIZE`. -/
def matchCacheSize : ℕ := 15

/-- What both cases of `add_to_cache` set; `stcopy` copies. -/
def MatchCache.fill (e : MatchCache) (req : SearchReq) (nmatches : ℕ) (vl : Option ℕ) :
    MatchCache :=
  { e with
    arg := req.searchStr
    domains := req.domains
    compRest := req.compRest
    maxhits := if (nmatches : ℤ) < req.maxhits then -1 else nmatches
    maxhitpm := req.maxhitpm
    maxmatch := req.maxmatch
    offset := req.origOffset
    searchType := req.origType
    reqType := req.currType
    archiedir := req.archieDir
    matched := vl
    more := none }

/-- `while(pcachep->next) pcachep = pcachep->next`. -/
def lastEntry (entry : ℕ → MatchCache) : ℕ → ℕ → Option ℕ
  | 0, _ => none
  | fuel + 1, p =>
    match (entry p).next with
    | none => some p
    | some q => lastEntry entry fuel q

/-- `while(pcachep->next != newresults) pcachep = pcachep->next`. -/
def entryBefore (entry : ℕ → MatchCache) (c : ℕ) : ℕ → ℕ → Option ℕ
  | 0, _ => none
  | fuel + 1, p =>
    if (entry p).next = some c then some p
    else
      match (entry p).next with
      | none => none
      | some q => entryBefore entry c fuel q

/-- `vl -> dontfree = TRUE`. -/
def keepLinks (h : LinkHeap) (vl : Option ℕ) : LinkHeap :=
  match vl with
  | none => h
  | some a => h.setDontfree a true

/-- Freeing the links of an entry; what is freed is not used again. -/
def freeLinks (h : LinkHeap) (p : Option ℕ) : LinkHeap :=
  match p with
  | none => h
  | some a => h.setDontfree a false

/-- `add_to_cache`. -/
def addToCache (vl : Option ℕ) (req : SearchReq) (st : CacheState) : Option CacheState :=
  let nmatches := (walk st.links.next st.links.size vl).length
  if st.cachecount < matchCacheSize then
    let c := st.cachecount
    let st := st.setEntry c ({ st.entry c with next := st.mcache }.fill req nmatches vl)
    some { st with mcache := some c, cachecount := c + 1, links := keepLinks st.links vl }
  else do
    let head ← st.mcache
    let c ← lastEntry st.entry (st.cachecount + 1) head
    let st := st.setEntry c { st.entry c with next := st.mcache }
    let st := { st with mcache := some c }
    let p ← entryBefore st.entry c (st.cachecount + 1) c
    let st := st.setEntry p { st.entry p with next := none }
    let links := freeLinks (freeLinks st.links (st.entry c).matched) (st.entry c).more
    let st := st.setEntry c ((st.entry c).fill req nmatches vl)
    some { st with links := keepLinks links vl }

/-! ### Requests -/

/-- The links that answer a request are new, and linked as the search links them. -/
def LinkHeap.answer (h : LinkHeap) (n : ℕ) : LinkHeap × Option ℕ :=
  ({ size := h.size + n
     next := fun a => if h.size ≤ a ∧ a + 1 < h.size + n then some (a + 1) else if h.size ≤ a then none else h.next a
     previous := fun a => if a = h.size then some (h.size + n - 1) else if h.size < a then some (a - 1) else h.previous a
     expanded := fun a => if h.size ≤ a then false else h.expanded a
     dontfree := fun a => if h.size ≤ a then false else h.dontfree a },
    if n = 0 then none else some h.size)

/-- The cache through a run, with the links that every entry was made with and the number of
additions. -/
structure CacheRun where
  st : CacheState
  stored : ℕ → List ℕ
  adds : ℕ

/-- The cache at first. -/
def CacheRun.start : CacheRun :=
  { st :=
      { links :=
          { size := 0, next := fun _ => none, previous := fun _ => none, expanded := fun _ => false
            dontfree := fun _ => false }
        entry := fun _ =>
          { arg := [], domains := [], compRest := [], maxhits := 0, maxmatch := 0, maxhitpm := 0, offset := 0
            searchType := 0, reqType := 0, matched := none, more := none, archiedir := false, next := none }
        mcache := none
        cachecount := 0 }
    stored := fun _ => []
    adds := 0 }

/-- A request: it is looked up, and answered by some number of links if it is not in the cache,
which are then added.  Given back is what a hit gives. -/
def CacheRun.step (x : SearchReq × ℕ) (g : CacheRun) : Option (Option (Option ℕ) × CacheRun) :=
  match checkCache x.1 g.st with
  | none => none
  | some (some p, st) => some (some p, { g with st })
  | some (none, st) =>
    let found := st.links.answer x.2
    match addToCache found.2 x.1 { st with links := found.1 } with
    | none => none
    | some st' =>
      let stored := match st'.mcache with
        | none => g.stored
        | some c => Function.update g.stored c (List.range' st.links.size x.2)
      some (none, { st := st', stored, adds := g.adds + 1 })

/-! ### The links of an entry -/

/-- An entry holds its links in two lists. -/
structure Held (h : LinkHeap) (e : MatchCache) (m r : List ℕ) : Prop where
  matched : IsList h.next h.previous e.matched m
  more : IsList h.next h.previous e.more r
  nodup : (m ++ r).Nodup

/-- Only the links of a list have been changed. -/
def LinkHeap.SameOutside (h h' : LinkHeap) (l : List ℕ) : Prop :=
  h'.size = h.size ∧ ∀ a ∉ l, h'.next a = h.next a ∧ h'.previous a = h.previous a

theorem LinkHeap.SameOutside.refl (h : LinkHeap) (l : List ℕ) : h.SameOutside h l :=
  ⟨rfl, fun _ _ => ⟨rfl, rfl⟩⟩

theorem LinkHeap.SameOutside.trans {h h' h'' : LinkHeap} {l : List ℕ} (h₁ : h.SameOutside h' l)
    (h₂ : h'.SameOutside h'' l) : h.SameOutside h'' l :=
  ⟨h₂.1.trans h₁.1, fun a ha =>
    ⟨(h₂.2 a ha).1.trans (h₁.2 a ha).1, (h₂.2 a ha).2.trans (h₁.2 a ha).2⟩⟩

theorem LinkHeap.SameOutside.mono {h h' : LinkHeap} {l l' : List ℕ} (h₁ : h.SameOutside h' l)
    (hl : l ⊆ l') :
    h.SameOutside h' l' :=
  ⟨h₁.1, fun a ha => h₁.2 a fun hm => ha (hl hm)⟩

section

variable {h : LinkHeap} {e : MatchCache} {pre w r : List ℕ} {a b m : ℕ}

/-- Where the links are is found at the head of the list. -/
theorem Held.head {m r : List ℕ} (hh : Held h e m r) : e.matched = m.head? := hh.matched.head?

/-- The first of the links points back to the last one. -/
theorem IsList.previous_head {next prev : ℕ → Option ℕ} {p : Option ℕ} {l : List ℕ}
    (hl : IsList next prev p l)
    (hp : p = some m) : prev m = l.getLast? :=
  hl.tail m (hl.head? ▸ hp)

/-- The three assignments with which a list is cut or put together are inside it. -/
theorem LinkHeap.sameOutside_set (h : LinkHeap) {l : List ℕ} {x a y : ℕ} (hx : x ∈ l) (ha : a ∈ l)
    (hy : y ∈ l) (p n q : Option ℕ) :
    h.SameOutside (((h.setPrevious x p).setNext a n).setPrevious y q) l := by
  refine ⟨rfl, ?_⟩
  intro c hc
  have hcx : c ≠ x := fun hcx => hc (hcx ▸ hx)
  have hca : c ≠ a := fun hca => hc (hca ▸ ha)
  have hcy : c ≠ y := fun hcy => hc (hcy ▸ hy)
  constructor
  · rw [LinkHeap.setPrevious_next, LinkHeap.setNext_next_of_ne _ _ hca, LinkHeap.setPrevious_next]
  · rw [LinkHeap.setPrevious_previous_of_ne _ _ hcy, LinkHeap.setNext_previous,
      LinkHeap.setPrevious_previous_of_ne _ _ hcx]

/-- Truncating: the list ends at `a`, and the links from `b` on are put behind it. -/
theorem Held.truncate (hh : Held h e (pre ++ a :: b :: w) []) (hm : e.matched = some m) :
    Held (((h.setPrevious b (h.previous m)).setNext a none).setPrevious m (some a))
      { e with more := some b }
        (pre ++ [a]) (b :: w) ∧
      h.SameOutside (((h.setPrevious b (h.previous m)).setNext a none).setPrevious m (some a))
        (pre ++ a :: b :: w) := by
  have hsplit : pre ++ a :: b :: w = (pre ++ [a]) ++ b :: w := by simp
  have hnd : ((pre ++ [a]) ++ b :: w).Nodup := by simpa using hh.nodup
  have hhead : (pre ++ [a]).head? = some m := by
    have h := hh.head
    rw [hm, hsplit] at h
    cases pre <;> simpa using h.symm
  have hmem : m ∈ pre ++ [a] := List.mem_of_mem_head? hhead
  have hdisj := (List.nodup_append.mp hnd).2.2
  have hbm : b ≠ m := fun hb => hdisj m hmem b List.mem_cons_self hb.symm
  have hpa : ∀ c ∈ pre, c ≠ a :=
    fun c hc hca => (List.nodup_append.mp (List.nodup_append.mp hnd).1).2.2 c hc a
    (List.mem_singleton.mpr rfl) hca
  have hwa : ∀ c ∈ b :: w, c ≠ a := fun c hc hca => hdisj a (by simp) c hc hca.symm
  have hseg := hh.matched.seg
  rw [hsplit] at hseg ⊢
  obtain ⟨q, hpre, hw⟩ := Seg.append_iff.mp hseg
  obtain rfl : q = some b := hw.1
  refine ⟨⟨⟨?_, ?_⟩, ⟨?_, ?_⟩, hnd⟩,
    h.sameOutside_set (by simp) (by simp) (List.mem_append_left _ hmem) _ _ _⟩
  · refine hpre.set_last (fun c hc => ?_) ?_
    · rw [LinkHeap.setPrevious_next, LinkHeap.setNext_next_of_ne _ _ (hpa c hc),
        LinkHeap.setPrevious_next]
    · rw [LinkHeap.setPrevious_next, LinkHeap.setNext_next_self]
  · intro c hc
    obtain rfl : m = c := Option.some.inj (hhead.symm.trans hc)
    rw [LinkHeap.setPrevious_previous_self, List.getLast?_concat]
  · refine hw.congr fun c hc => ?_
    rw [LinkHeap.setPrevious_next, LinkHeap.setNext_next_of_ne _ _ (hwa c hc),
      LinkHeap.setPrevious_next]
  · -- The last of all links was known at the head.
    intro c hc
    obtain rfl : b = c := Option.some.inj hc
    have hlast : h.previous m = (pre ++ a :: b :: w).getLast? := hh.matched.previous_head hm
    rw [LinkHeap.setPrevious_previous_of_ne _ _ hbm, LinkHeap.setNext_previous,
      LinkHeap.setPrevious_previous_self,
      hlast, hsplit, List.getLast?_append_of_ne_nil _ (List.cons_ne_nil b w)]

/-- Merging: the links behind are put at the end again. -/
theorem Held.merge (hh : Held h e (pre ++ [a]) (b :: r)) (hm : e.matched = some m) :
    Held (((h.setPrevious m (h.previous b)).setNext a (some b)).setPrevious b (some a))
      { e with more := none }
        ((pre ++ [a]) ++ b :: r) [] ∧
      h.SameOutside (((h.setPrevious m (h.previous b)).setNext a (some b)).setPrevious b (some a))
        ((pre ++ [a]) ++ b :: r) := by
  have hnd := hh.nodup
  have hhead : (pre ++ [a]).head? = some m := hh.head ▸ hm
  have hmem : m ∈ pre ++ [a] := List.mem_of_mem_head? hhead
  have hdisj := (List.nodup_append.mp hnd).2.2
  have hmb : m ≠ b := fun hb => hdisj m hmem b List.mem_cons_self hb
  have hpa : ∀ c ∈ pre, c ≠ a :=
    fun c hc hca => (List.nodup_append.mp (List.nodup_append.mp hnd).1).2.2 c hc a
    (List.mem_singleton.mpr rfl) hca
  have hra : ∀ c ∈ b :: r, c ≠ a := fun c hc hca => hdisj a (by simp) c hc hca.symm
  have hb : e.more = some b := hh.more.head?
  have hmore := hh.more.seg
  rw [hb] at hmore
  refine ⟨⟨⟨?_, ?_⟩, isList_nil, by simpa using hnd⟩,
    h.sameOutside_set (List.mem_append_left _ hmem) (by simp) (by simp) _ _ _⟩
  · refine Seg.append_iff.mpr
      ⟨some b, hh.matched.seg.set_last (fun c hc => ?_) ?_, hmore.congr fun c hc => ?_⟩
    · rw [LinkHeap.setPrevious_next, LinkHeap.setNext_next_of_ne _ _ (hpa c hc),
        LinkHeap.setPrevious_next]
    · rw [LinkHeap.setPrevious_next, LinkHeap.setNext_next_self]
    · rw [LinkHeap.setPrevious_next, LinkHeap.setNext_next_of_ne _ _ (hra c hc),
        LinkHeap.setPrevious_next]
  · intro c hc
    obtain rfl : m = c := by
      cases pre <;> simpa using hhead.symm.trans hc
    rw [LinkHeap.setPrevious_previous_of_ne _ _ hmb, LinkHeap.setNext_previous,
      LinkHeap.setPrevious_previous_self,
      hh.more.previous_head hb, List.getLast?_append_of_ne_nil _ (List.cons_ne_nil b r)]

theorem Held.setExpanded {m r : List ℕ} (hh : Held h e m r) (a : ℕ) (b : Bool) :
    Held (h.setExpanded a b) e m r :=
  ⟨hh.matched, hh.more, hh.nodup⟩

/-- Where a link leads to. -/
theorem Held.next (hh : Held h e (pre ++ a :: w) r) : h.next a = w.head? := by
  obtain ⟨_, -, hw⟩ := Seg.append_iff.mp hh.matched.seg
  exact hw.2.head?

theorem Held.matched_isSome (hh : Held h e (pre ++ a :: w) r) : ∃ m, e.matched = some m := by
  rw [hh.head]
  cases pre with
  | nil => exact ⟨a, rfl⟩
  | cons b pre => exact ⟨b, rfl⟩

theorem cacheLoop_none (fuel : ℕ) (h : LinkHeap) (e : MatchCache) (count : ℤ) :
    cacheLoop fuel h e count none = some (h, e) := by
  cases fuel <;> rfl

/-- The loop when there are no links behind: the list is cut after as many links as are asked for. -/
theorem cacheLoop_whole {k fuel : ℕ} (hh : Held h e (pre ++ w) []) (hfuel : w.length ≤ fuel) :
    ∃ h' e', cacheLoop fuel h e ((k + 1 : ℕ) : ℤ) w.head? = some (h', e') ∧
      Held h' e' (pre ++ w.take (k + 1)) (w.drop (k + 1)) ∧ h.SameOutside h' (pre ++ w) ∧
      e' = { e with more := e'.more } := by
  induction w generalizing h pre k fuel with
  | nil => exact ⟨h, e, cacheLoop_none fuel h e _, by simpa using hh, .refl h _, rfl⟩
  | cons a w ih =>
    obtain ⟨fuel, rfl⟩ : ∃ f, fuel = f + 1 := ⟨fuel - 1, by rw [List.length_cons] at hfuel; omega⟩
    rw [List.length_cons] at hfuel
    have hnext := hh.next
    have hmore : e.more = none := hh.more.head?
    obtain ⟨m, hm⟩ := hh.matched_isSome
    have hcount : ((k + 1 : ℕ) : ℤ) - 1 = (k : ℤ) := by omega
    cases w with
    | nil =>
      refine ⟨h.setExpanded a false, e, ?_, by simpa using hh.setExpanded a false, .refl h _, rfl⟩
      simp [cacheLoop, hnext, hmore, cacheLoop_none]
    | cons b w =>
      cases k with
      | zero =>
        obtain ⟨hheld, hsame⟩ := (hh.setExpanded a false).truncate hm
        refine ⟨_, _, ?_, by simpa using hheld, hsame, rfl⟩
        simp [cacheLoop, hnext, hm, hmore, cacheLoop_none]
      | succ k =>
        have hh' : Held (h.setExpanded a false) e ((pre ++ [a]) ++ b :: w)
            [] := by simpa using hh.setExpanded a false
        obtain ⟨h', e', hloop, hheld, hsame, he⟩ :=
          @ih (h.setExpanded a false) (pre ++ [a]) k fuel hh' (by omega)
        rw [List.append_assoc] at hsame
        refine ⟨h', e', ?_, by simpa using hheld, hsame, he⟩
        have hne : ((k : ℤ) + 1) ≠ 0 := by omega
        simpa [cacheLoop, hnext, hcount, hne] using hloop

/-- The loop when there are links behind, and at least all links before them are asked for. -/
theorem cacheLoop_merged {k fuel : ℕ} (hh : Held h e (pre ++ a :: w) (b :: r)) (hk : w.length ≤ k)
    (hfuel : (a :: w).length + (b :: r).length ≤ fuel) :
    ∃ h' e', cacheLoop fuel h e ((k + 1 : ℕ) : ℤ) (some a) = some (h', e') ∧
      Held h' e' (pre ++ (a :: w ++ b :: r).take (k + 1)) ((a :: w ++ b :: r).drop (k + 1)) ∧
      h.SameOutside h' (pre ++ (a :: w ++ b :: r)) ∧ e' = { e with more := e'.more } := by
  induction w generalizing h pre a k fuel with
  | nil =>
    obtain ⟨fuel, rfl⟩ : ∃ f, fuel = f + 1 := ⟨fuel - 1, by rw [List.length_cons] at hfuel; omega⟩
    rw [List.length_singleton] at hfuel
    have hnext := hh.next
    have hmore : e.more = some b := hh.more.head?
    obtain ⟨m, hm⟩ := hh.matched_isSome
    have hcount : ((k + 1 : ℕ) : ℤ) - 1 = (k : ℤ) := by omega
    cases k with
    | zero =>
      refine ⟨h.setExpanded a false, e, ?_, hh.setExpanded a false, .refl h _, rfl⟩
      simp [cacheLoop, hnext, hmore, cacheLoop_none]
    | succ k =>
      -- Now the list is whole again, and the loop goes on over what was behind.
      obtain ⟨hheld, hsame⟩ := (hh.setExpanded a false).merge hm
      obtain ⟨h', e', hloop, hheld', hsame', he⟩ :=
        @cacheLoop_whole _ _ (pre ++ [a]) (b :: r) k fuel hheld (by omega)
      have hsame := hsame.trans hsame'
      rw [List.append_assoc] at hsame
      refine ⟨h', e', ?_, by simpa using hheld', hsame, by rw [he]⟩
      have hne : ((k : ℤ) + 1) ≠ 0 := by omega
      have hab : a ≠ b := fun hab => (List.nodup_append.mp hh.nodup).2.2 a
          (by simp) b List.mem_cons_self hab
      simpa [cacheLoop, hnext, hcount, hne, hm, hmore] using hloop
  | cons c w ih =>
    obtain ⟨fuel, rfl⟩ : ∃ f, fuel = f + 1 := ⟨fuel - 1, by rw [List.length_cons] at hfuel; omega⟩
    obtain ⟨k, rfl⟩ : ∃ j, k = j + 1 := ⟨k - 1, by rw [List.length_cons] at hk; omega⟩
    simp only [List.length_cons] at hfuel hk
    have hnext := hh.next
    have hh' : Held (h.setExpanded a false) e ((pre ++ [a]) ++ c :: w)
        (b :: r) := by simpa using hh.setExpanded a false
    obtain ⟨h', e', hloop, hheld, hsame, he⟩ :=
      @ih (h.setExpanded a false) (pre ++ [a]) c k fuel hh' (by omega)
      (by simp only [List.length_cons]; omega)
    rw [List.append_assoc] at hsame
    refine ⟨h', e', ?_, by simpa using hheld, hsame, he⟩
    have hcount : ((k + 1 + 1 : ℕ) : ℤ) - 1 = (k : ℤ) + 1 := by omega
    have hne : ((k : ℤ) + 1) ≠ 0 := by omega
    simpa [cacheLoop, hnext, hcount, hne] using hloop

/-- The loop over the links of an entry: it is left with the links that are asked for, and
those behind them, unless it would have to cut while there are links behind. -/
theorem cacheLoop_spec {m r : List ℕ} {count : ℤ} {fuel : ℕ} (hh : Held h e m r)
    (hnil : m = [] → r = [])
    (hcount : m ≠ [] → 1 ≤ count) (hcut : r = [] ∨ (m.length : ℤ) ≤ count)
    (hfuel : (m ++ r).length ≤ fuel) :
    ∃ h' e', cacheLoop fuel h e count e.matched = some (h', e') ∧
      Held h' e' ((m ++ r).take count.toNat) ((m ++ r).drop count.toNat) ∧
        h.SameOutside h' (m ++ r) ∧
      e' = { e with more := e'.more } := by
  cases m with
  | nil =>
    obtain rfl := hnil rfl
    refine ⟨h, e, ?_, by simpa using hh, .refl h _, rfl⟩
    rw [hh.head]
    exact cacheLoop_none fuel h e count
  | cons a w =>
    have hpos := hcount (List.cons_ne_nil a w)
    obtain ⟨k, rfl⟩ : ∃ k : ℕ, count = ((k + 1 : ℕ) : ℤ) := ⟨(count - 1).toNat, by omega⟩
    rw [Int.toNat_natCast]
    cases r with
    | nil =>
      rw [List.append_nil] at hfuel ⊢
      obtain ⟨h', e', hloop, hrest⟩ := @cacheLoop_whole h e [] (a :: w) k fuel hh hfuel
      exact ⟨h', e', by rw [hh.head]; exact hloop, hrest⟩
    | cons b r =>
      have hk : w.length ≤ k := by
        obtain h | h := hcut
        · exact absurd h (List.cons_ne_nil b r)
        · rw [List.length_cons] at h
          omega
      rw [List.length_append] at hfuel
      obtain ⟨h', e', hloop, hrest⟩ := @cacheLoop_merged h e [] w r a b k fuel hh hk hfuel
      exact ⟨h', e', by rw [hh.head]; exact hloop, hrest⟩

end

/-! ### The entries -/

/-- Where an entry leads to. -/
def CacheState.entryNext (st : CacheState) (c : ℕ) : Option ℕ := (st.entry c).next

/-- The entries that can be reached from the head. -/
def CacheState.entries (st : CacheState) : List ℕ := walk st.entryNext st.cachecount st.mcache

/-- The entry that a lookup comes to. -/
def CacheState.answering (st : CacheState) (req : SearchReq) : Option ℕ :=
  st.entries.find? fun c => (st.entry c).answers req

/-- A list of entries that is the whole cache. -/
structure CacheState.Lists (st : CacheState) (es : List ℕ) : Prop where
  seg : Seg st.entryNext st.mcache es none
  nodup : es.Nodup
  length : es.length = st.cachecount
  bound : ∀ c ∈ es, c < st.cachecount

/-- An addition: an entry `c` at the head, and behind it entries that were there before. -/
structure CacheState.Added (st st' : CacheState) (vl : Option ℕ) (c : ℕ) (es es' : List ℕ) :
    Prop where
  lists : st'.Lists (c :: es')
  old : es' ⊆ es
  count : st'.cachecount = min (st.cachecount + 1) matchCacheSize
  matched : (st'.entry c).matched = vl
  more : (st'.entry c).more = none
  kept : ∀ d ∈ es', (st'.entry d).matched = (st.entry d).matched ∧
    (st'.entry d).more = (st.entry d).more
  links : st'.links.next = st.links.next ∧ st'.links.previous = st.links.previous ∧
    st'.links.size = st.links.size

theorem keepLinks_same (h : LinkHeap) (vl : Option ℕ) :
    (keepLinks h vl).next = h.next ∧ (keepLinks h vl).previous = h.previous ∧
      (keepLinks h vl).size = h.size := by
  cases vl <;> exact ⟨rfl, rfl, rfl⟩

theorem freeLinks_same (h : LinkHeap) (p : Option ℕ) :
    (freeLinks h p).next = h.next ∧ (freeLinks h p).previous = h.previous ∧
      (freeLinks h p).size = h.size := by
  cases p <;> exact ⟨rfl, rfl, rfl⟩

section

variable {st : CacheState} {es l : List ℕ} {a c p : ℕ} {fuel : ℕ}

theorem CacheState.Lists.entries_eq (h : st.Lists es) : st.entries = es := walk_eq h.seg h.length.le

/-- The last entry is found. -/
theorem lastEntry_eq (h : Seg st.entryNext (some p) (l ++ [a]) none) (hfuel : l.length < fuel) :
    lastEntry st.entry fuel p = some a := by
  induction l generalizing p fuel with
  | nil =>
    obtain ⟨fuel, rfl⟩ : ∃ f, fuel = f + 1 := ⟨fuel - 1, by rw [List.length_nil] at hfuel; omega⟩
    obtain ⟨hp, hnext⟩ := h
    obtain rfl : p = a := Option.some.inj hp
    have hnext : (st.entry p).next = none := hnext
    rw [lastEntry, hnext]
  | cons b l ih =>
    obtain ⟨fuel, rfl⟩ : ∃ f, fuel = f + 1 := ⟨fuel - 1, by rw [List.length_cons] at hfuel; omega⟩
    rw [List.length_cons] at hfuel
    obtain ⟨rfl, q, -, hq, hl⟩ := Seg.uncons h
    have hnext : (st.entry p).next = some q := hq
    rw [lastEntry, hnext]
    exact ih hl (by omega)

/-- The entry before another one is found. -/
theorem entryBefore_eq (h : Seg st.entryNext (some p) (l ++ [a]) (some c))
    (hc : c ∉ (l ++ [a]).tail)
    (hfuel : l.length < fuel) : entryBefore st.entry c fuel p = some a := by
  induction l generalizing p fuel with
  | nil =>
    obtain ⟨fuel, rfl⟩ : ∃ f, fuel = f + 1 := ⟨fuel - 1, by rw [List.length_nil] at hfuel; omega⟩
    obtain ⟨hp, hnext⟩ := h
    obtain rfl : p = a := Option.some.inj hp
    have hnext : (st.entry p).next = some c := hnext
    rw [entryBefore, if_pos hnext]
  | cons b l ih =>
    obtain ⟨fuel, rfl⟩ : ∃ f, fuel = f + 1 := ⟨fuel - 1, by rw [List.length_cons] at hfuel; omega⟩
    rw [List.length_cons] at hfuel
    obtain ⟨rfl, q, hqmem, hq, hl⟩ := Seg.uncons h
    rw [List.cons_append, List.tail_cons] at hc
    have hqc : q ≠ c := fun h => hc (h ▸ List.mem_of_mem_head? hqmem)
    have hnext : (st.entry p).next = some q := hq
    rw [entryBefore, hnext, if_neg (fun h => hqc (Option.some.inj h))]
    exact ih hl (fun h => hc (List.mem_of_mem_tail h)) (by omega)

variable {vl : Option ℕ} {req : SearchReq}

/-- While there is room, an entry is made. -/
theorem addToCache_new (h : st.Lists es) (hroom : st.cachecount < matchCacheSize) :
    ∃ st', addToCache vl req st = some st' ∧ st'.mcache = some st.cachecount ∧
      st.Added st' vl st.cachecount es es := by
  have hne : ∀ d ∈ es, d ≠ st.cachecount := fun d hd => (h.bound d hd).ne
  let st₁ := st.setEntry st.cachecount ({ st.entry st.cachecount with next := st.mcache }.fill req
    (walk st.links.next st.links.size vl).length vl)
  let st₂ : CacheState :=
    { st₁ with mcache := some st.cachecount, cachecount := st.cachecount + 1, links := keepLinks st.links vl }
  have hself : st₂.entry st.cachecount = { st.entry st.cachecount with next := st.mcache }.fill req
      (walk st.links.next st.links.size vl).length vl := CacheState.setEntry_entry_self _ _
  have hold : ∀ d ∈ es, st₂.entry d = st.entry d :=
    fun d hd => CacheState.setEntry_entry_of_ne _ _ (hne d hd)
  refine ⟨st₂, if_pos hroom, rfl, ⟨⟨rfl, ?_⟩, ?_, ?_, ?_⟩, fun d hd => hd, ?_, ?_, ?_,
    fun d hd => ?_, keepLinks_same _ _⟩
  · -- The new entry leads to the old head.
    have hnext : st₂.entryNext st.cachecount = st.mcache := congrArg MatchCache.next hself
    rw [hnext]
    exact h.seg.congr fun d hd => congrArg MatchCache.next (hold d hd)
  · exact List.nodup_cons.mpr ⟨fun hmem => hne _ hmem rfl, h.nodup⟩
  · exact congrArg (· + 1) h.length
  · intro d hd
    obtain rfl | hd := List.mem_cons.mp hd
    · exact Nat.lt_succ_self _
    · exact (h.bound d hd).trans (Nat.lt_succ_self _)
  · exact (min_eq_left hroom).symm
  · exact congrArg MatchCache.matched hself
  · exact congrArg MatchCache.more hself
  · rw [hold d hd]
    exact ⟨rfl, rfl⟩

/-- When there is no room, the last entry is made the first one. -/
theorem addToCache_last (h : st.Lists (l ++ [p, a])) (hfull : st.cachecount = matchCacheSize) :
    ∃ st', addToCache vl req st = some st' ∧ st'.mcache = some a ∧
      st.Added st' vl a (l ++ [p, a]) (l ++ [p]) := by
  have hsplit : l ++ [p, a] = (l ++ [p]) ++ [a] := by simp
  have hlength := h.length
  have hnd := h.nodup
  rw [hsplit] at hnd
  have hane : ∀ d ∈ l ++ [p], d ≠ a :=
    fun d hd hda => (List.nodup_append.mp hnd).2.2 d hd a (List.mem_singleton.mpr rfl) hda
  have hpne : ∀ d ∈ l, d ≠ p :=
    fun d hd hdp => (List.nodup_append.mp (List.nodup_append.mp hnd).1).2.2 d hd p
    (List.mem_singleton.mpr rfl) hdp
  have hpa : p ≠ a := hane p (by simp)
  have hseg := h.seg
  rw [hsplit] at hseg
  obtain ⟨head, hhead⟩ : ∃ x, st.mcache = some x := by
    rw [h.seg.head?]
    cases l <;> exact ⟨_, rfl⟩
  -- The last entry now leads to the head, which makes a cycle.
  let st₁ := st.setEntry a { st.entry a with next := st.mcache }
  let st₂ : CacheState := { st₁ with mcache := some a }
  have hlast : lastEntry st.entry (st.cachecount + 1) head = some a := by
    rw [hhead] at hseg
    refine lastEntry_eq hseg ?_
    rw [hsplit, List.length_append, List.length_singleton] at hlength
    omega
  have hnext₂ : st₂.entryNext a = st.mcache := by
    simp only [CacheState.entryNext, st₂, st₁, CacheState.setEntry_entry_self]
  have hcycle : Seg st₂.entryNext (some a) ((a :: l) ++ [p]) (some a) := by
    obtain ⟨q, hl, hq, -⟩ := Seg.append_iff.mp hseg
    refine ⟨rfl, ?_⟩
    rw [hnext₂]
    refine Seg.congr (hq ▸ hl) fun d hd => ?_
    simp only [CacheState.entryNext, st₂, st₁, CacheState.setEntry_entry_of_ne _ _ (hane d hd)]
  have hbefore : entryBefore st₂.entry a (st.cachecount + 1) a = some p := by
    refine entryBefore_eq hcycle (fun hmem => hane a hmem rfl) ?_
    rw [hsplit, List.length_append, List.length_append] at hlength
    simp only [List.length_cons, List.length_nil] at hlength ⊢
    omega
  let st₃ := st₂.setEntry p { st₂.entry p with next := none }
  let links := freeLinks (freeLinks st₃.links (st₃.entry a).matched) (st₃.entry a).more
  let st₄ := st₃.setEntry a ((st₃.entry a).fill req (walk st.links.next st.links.size vl).length vl)
  have hadd : addToCache vl req st = some { st₄ with links := keepLinks links vl } := by
    have hlast' := hlast
    simp only [addToCache, hfull, lt_irrefl, if_false, hhead, Option.bind_eq_bind, Option.bind_some]
    rw [← hfull, hlast', Option.bind_some, ← hhead]
    show (entryBefore st₂.entry a (st.cachecount + 1) a).bind _ = _
    rw [hbefore]
    rfl
  have hentry₄ : ∀ d, d ≠ a → d ≠ p → st₄.entry d = st.entry d := by
    intro d hda hdp
    simp only [st₄, st₃, st₂, st₁, CacheState.setEntry_entry_of_ne _ _ hda,
      CacheState.setEntry_entry_of_ne _ _ hdp]
  have hentryp : st₄.entry p = { st.entry p with next := none } := by
    simp only [st₄, st₃, st₂, st₁, CacheState.setEntry_entry_of_ne _ _ hpa,
      CacheState.setEntry_entry_self]
  have hnext₄ : ∀ d, d ≠ p → st₄.entryNext d = st₂.entryNext d := by
    intro d hdp
    by_cases hda : d = a
    · subst hda
      simp only [CacheState.entryNext, st₄, CacheState.setEntry_entry_self]
      simp only [MatchCache.fill, st₃, CacheState.setEntry_entry_of_ne _ _ hpa.symm]
    · simp only [CacheState.entryNext, st₄, st₃, CacheState.setEntry_entry_of_ne _ _ hda,
        CacheState.setEntry_entry_of_ne _ _ hdp]
  refine ⟨_, hadd, rfl, ⟨⟨?_, ?_, ?_, ?_⟩, ?_, ?_, ?_, ?_, ?_, ?_⟩⟩
  · refine hcycle.set_last (fun d hd => hnext₄ d ?_) ?_
    · obtain rfl | hd := List.mem_cons.mp hd
      · exact hpa.symm
      · exact hpne d hd
    · exact congrArg MatchCache.next hentryp
  · rw [← List.perm_append_singleton a (l ++ [p]) |>.nodup_iff]
    exact hnd
  · show (a :: (l ++ [p])).length = st.cachecount
    rw [← hlength]
    simp
  · intro d hd
    refine h.bound d ?_
    rw [hsplit]
    exact (List.perm_append_singleton a (l ++ [p])).mem_iff.mpr hd
  · rw [hsplit]
    exact List.subset_append_left _ _
  · show st.cachecount = _
    omega
  · simp only [st₄, CacheState.setEntry_entry_self]
    rfl
  · simp only [st₄, CacheState.setEntry_entry_self]
    rfl
  · intro d hd
    show (st₄.entry d).matched = _ ∧ (st₄.entry d).more = _
    by_cases hdp : d = p
    · subst hdp
      rw [hentryp]
      exact ⟨rfl, rfl⟩
    · rw [hentry₄ d (hane d hd) hdp]
      exact ⟨rfl, rfl⟩
  · obtain ⟨h₁, h₂, h₃⟩ := keepLinks_same links vl
    obtain ⟨h₄, h₅, h₆⟩ :=
      freeLinks_same (freeLinks st₃.links (st₃.entry a).matched) (st₃.entry a).more
    obtain ⟨h₇, h₈, h₉⟩ := freeLinks_same st₃.links (st₃.entry a).matched
    exact ⟨h₁.trans (h₄.trans h₇), h₂.trans (h₅.trans h₈), h₃.trans (h₆.trans h₉)⟩

/-- What an addition does: the new entry is at the head, and at most the last one is gone. -/
theorem addToCache_spec (vl : Option ℕ) (req : SearchReq) (h : st.Lists es)
    (hcount : st.cachecount ≤ matchCacheSize) :
    ∃ st' c es', addToCache vl req st = some st' ∧ st'.mcache = some c ∧
      st.Added st' vl c es es' := by
  obtain hroom | hfull := hcount.lt_or_eq
  · obtain ⟨st', hadd, hc, hst'⟩ := @addToCache_new st es vl req h hroom
    exact ⟨st', _, _, hadd, hc, hst'⟩
  · obtain ⟨l, p, a, rfl⟩ : ∃ l p a, es = l ++ [p, a] := by
      have hlen : es.length = matchCacheSize := h.length.trans hfull
      refine ⟨es.take 13, es.get ⟨13, by rw [hlen]; decide⟩, es.get ⟨14, by rw [hlen]; decide⟩, ?_⟩
      conv_lhs => rw [← List.take_append_drop 13 es]
      congr 1
      refine List.ext_get (by simp [hlen, matchCacheSize]) fun i h₁ h₂ => ?_
      simp only [List.length_cons, List.length_nil] at h₂
      obtain rfl | rfl : i = 0 ∨ i = 1 := by omega
      · simp
      · simp
    obtain ⟨st', hadd, hc, hst'⟩ := @addToCache_last st l a p vl req h hfull
    exact ⟨st', _, _, hadd, hc, hst'⟩

end

/-! ### Runs -/

/-- The entries and their links are as they should be: nothing is lost and nothing is there twice. -/
def CacheRun.Sound (g : CacheRun) : Prop :=
  ∃ es, Seg g.st.entryNext g.st.mcache es none ∧ es.Nodup ∧ es.length = min g.adds matchCacheSize ∧
    ∀ c ∈ es, ∃ m r, Seg g.st.links.next (g.st.entry c).matched m none ∧
      Seg g.st.links.next (g.st.entry c).more r none ∧ m ++ r = g.stored c ∧ (g.stored c).Nodup

/-- A hit gives the first links of those stored, as many as the request allows. -/
def CacheRun.Serves (g : CacheRun) (req : SearchReq) (p : Option ℕ) (g' : CacheRun) : Prop :=
  ∃ c, g.st.answering req = some c ∧
    Seg g'.st.links.next p
      ((g.stored c).take (min req.maxhits (req.maxmatch * req.maxhitpm)).toNat) none

/-- All requests are answered as they should be, and the cache is sound before and after each. -/
def CacheRun.Kept : List (SearchReq × ℕ) → CacheRun → Prop
  | [], g => g.Sound
  | x :: xs, g =>
    g.Sound ∧ ∃ reply g', g.step x = some (reply, g') ∧ (∀ p, reply = some p → g.Serves x.1 p g') ∧
      g'.Kept xs

/-- A request that the lookup can take: if it comes to an entry, that is the front one; if links are
stored there, some are asked for; and if links are behind, at least all before them are asked for. -/
def CacheRun.Allows (g : CacheRun) (req : SearchReq) : Prop :=
  ∀ c ∈ g.st.answering req, g.st.mcache = some c ∧
    ((g.st.entry c).matched ≠ none → 1 ≤ req.maxhits ∧ 1 ≤ req.maxmatch * req.maxhitpm ∧
      req.maxmatch * req.maxhitpm < 2 ^ 31) ∧
    ((g.st.entry c).more ≠ none →
      ((walk g.st.links.next g.st.links.size (g.st.entry c).matched).length : ℤ) ≤ req.count)

instance CacheRun.decidableAllows (g : CacheRun) (req : SearchReq) : Decidable (g.Allows req) :=
  inferInstanceAs (Decidable (∀ c ∈ _, _))

/-- Requests that can all be taken where they come. -/
def CacheRun.Meets : List (SearchReq × ℕ) → CacheRun → Prop
  | [], _ => True
  | x :: xs, g => g.Allows x.1 ∧ ∀ p ∈ g.step x, p.2.Meets xs

instance CacheRun.decidableMeets : (xs : List (SearchReq × ℕ)) → (g : CacheRun) →
    Decidable (g.Meets xs)
  | [], _ => isTrue trivial
  | x :: xs, g =>
    have (g' : CacheRun) : Decidable (g'.Meets xs) := CacheRun.decidableMeets xs g'
    inferInstanceAs (Decidable (g.Allows x.1 ∧ ∀ p ∈ g.step x, p.2.Meets xs))

/-- What holds through such a run. -/
structure CacheRun.Good (g : CacheRun) (es : List ℕ) : Prop where
  lists : g.st.Lists es
  count : g.st.cachecount = min g.adds matchCacheSize
  held : ∀ c ∈ es, ∃ m r, Held g.st.links (g.st.entry c) m r ∧ m ++ r = g.stored c ∧
    (m = [] → r = [])
  fresh : ∀ c ∈ es, ∀ a ∈ g.stored c, a < g.st.links.size
  disjoint : ∀ c ∈ es, ∀ d ∈ es, c ≠ d → List.Disjoint (g.stored c) (g.stored d)

theorem CacheRun.Good.sound {g : CacheRun} {es : List ℕ} (h : g.Good es) : g.Sound := by
  refine ⟨es, h.lists.seg, h.lists.nodup, h.lists.length.trans h.count, fun c hc => ?_⟩
  obtain ⟨m, r, hheld, hstored, -⟩ := h.held c hc
  exact ⟨m, r, hheld.matched.seg, hheld.more.seg, hstored, hstored ▸ hheld.nodup⟩

theorem CacheRun.start_good : CacheRun.start.Good [] :=
  ⟨⟨rfl, List.nodup_nil, rfl, fun _ h => absurd h List.not_mem_nil⟩, rfl,
    fun _ h => absurd h List.not_mem_nil,
    fun _ h => absurd h List.not_mem_nil, fun _ h => absurd h List.not_mem_nil⟩

/-- The links that answer a request are linked from the first to the last. -/
theorem LinkHeap.answer_seg (h : LinkHeap) (n k s : ℕ) (hs : h.size ≤ s) (hk : s + k = h.size + n) :
    Seg (h.answer n).1.next (if k = 0 then none else some s) (List.range' s k) none := by
  induction k generalizing s with
  | zero => rfl
  | succ k ih =>
    rw [if_neg k.succ_ne_zero, List.range'_succ]
    refine ⟨rfl, ?_⟩
    have hnext : (h.answer n).1.next s = if k = 0 then none else some (s + 1) := by
      simp only [LinkHeap.answer]
      split_ifs <;> first | rfl | omega
    rw [hnext]
    exact ih (s + 1) (by omega) (by omega)

theorem LinkHeap.answer_isList (h : LinkHeap) (n : ℕ) :
    IsList (h.answer n).1.next (h.answer n).1.previous (h.answer n).2 (List.range' h.size n) := by
  refine ⟨h.answer_seg n n h.size le_rfl rfl, fun a ha => ?_⟩
  cases n with
  | zero => exact absurd ha (by simp)
  | succ n =>
    rw [List.range'_succ] at ha
    obtain rfl : h.size = a := Option.some.inj ha
    rw [List.getLast?_range', if_neg n.succ_ne_zero]
    simp [LinkHeap.answer]

/-- Old links stay as they are. -/
theorem LinkHeap.answer_old (h : LinkHeap) (n : ℕ) {a : ℕ} (ha : a < h.size) :
    (h.answer n).1.next a = h.next a ∧ (h.answer n).1.previous a = h.previous a := by
  constructor
  · simp only [LinkHeap.answer]
    rw [if_neg (by omega), if_neg (by omega)]
  · simp only [LinkHeap.answer]
    rw [if_neg (by omega), if_neg (by omega)]

/-- An entry keeps its links as long as nothing is done to them. -/
theorem Held.congr {h h' : LinkHeap} {e e' : MatchCache} {m r : List ℕ} (hh : Held h e m r)
    (hm : e'.matched = e.matched) (hr : e'.more = e.more)
    (hsame : ∀ a ∈ m ++ r, h'.next a = h.next a ∧ h'.previous a = h.previous a) :
    Held h' e' m r := by
  refine ⟨?_, ?_, hh.nodup⟩
  · rw [hm]
    exact hh.matched.congr (fun a ha => (hsame a (List.mem_append_left r ha)).1)
      fun a ha => (hsame a (List.mem_append_left r (List.mem_of_mem_head? ha))).2
  · rw [hr]
    exact hh.more.congr (fun a ha => (hsame a (List.mem_append_right m ha)).1)
      fun a ha => (hsame a (List.mem_append_right m (List.mem_of_mem_head? ha))).2

/-- The number of links that a request asks for. -/
theorem SearchReq.count_eq {req : SearchReq} (h : 1 ≤ req.maxmatch * req.maxhitpm)
    (h' : req.maxmatch * req.maxhitpm < 2 ^ 31) :
    req.count = min req.maxhits (req.maxmatch * req.maxhitpm) := by
  have hproduct : req.product = req.maxmatch * req.maxhitpm := by
    exact Int.bmod_eq_of_le_mul_two (by omega) (by omega)
  rw [SearchReq.count, hproduct]
  split_ifs with h
  · exact (min_eq_right h.lt.le).symm
  · exact (min_eq_left (not_lt.mp h)).symm

section

variable {st : CacheState} {req : SearchReq} {c : ℕ}

/-- Without an entry that answers nothing happens. -/
theorem checkCacheLoop_none {l : List ℕ} {p pcachep : Option ℕ} {fuel : ℕ}
    (h : Seg st.entryNext p l none)
    (hl : ∀ c ∈ l, ¬(st.entry c).answers req) (hfuel : l.length ≤ fuel) :
    checkCacheLoop req st fuel pcachep p = some (none, st) := by
  induction l generalizing p pcachep fuel with
  | nil =>
    obtain rfl : p = none := h
    cases fuel <;> rfl
  | cons a l ih =>
    obtain ⟨rfl, hnext⟩ := h
    obtain ⟨fuel, rfl⟩ : ∃ f, fuel = f + 1 := ⟨fuel - 1, by rw [List.length_cons] at hfuel; omega⟩
    have hno := hl a List.mem_cons_self
    simp only [checkCacheLoop, hno, Bool.false_eq_true, if_false]
    exact ih hnext (fun c hc => hl c (List.mem_cons_of_mem a hc))
      (by rw [List.length_cons] at hfuel; omega)

/-- An answer at the front. -/
theorem checkCache_front (hc : st.mcache = some c) (hans : (st.entry c).answers req)
    {links : LinkHeap}
    {e : MatchCache} (hloop : cacheLoop (st.links.size + 1) st.links (st.entry c) req.count
      (st.entry c).matched =
      some (links, e)) :
    checkCache req st = some (some e.matched, { st.setEntry c e with links }) := by
  rw [checkCache, hc]
  simp only [checkCacheLoop, hans, if_true, hloop]

end

section

variable {g : CacheRun} {es : List ℕ} {req : SearchReq} {c : ℕ}

/-- Numbers below a bound, told apart. -/
theorem length_le_of_nodup {l : List ℕ} {n : ℕ} (hl : l.Nodup) (h : ∀ a ∈ l, a < n) :
    l.length ≤ n := by
  have hsub : l ⊆ List.range n := fun a ha => List.mem_range.mpr (h a ha)
  simpa using (hl.subperm hsub).length_le

/-- A hit gives what it should, and keeps everything. -/
theorem CacheRun.Good.hit (hg : g.Good es) (hallows : g.Allows req)
    (hc : g.st.answering req = some c) :
    ∃ p st', checkCache req g.st = some (some p, st') ∧ CacheRun.Good { g with st := st' } es ∧
      g.Serves req p { g with st := st' } := by
  obtain ⟨hfront, hasked, hbehind⟩ := hallows c hc
  have hans : (g.st.entry c).answers req := by
    have h := List.find?_some hc
    exact h
  have hmem : c ∈ es := by
    have h := List.mem_of_find?_eq_some hc
    rwa [hg.lists.entries_eq] at h
  obtain ⟨m, r, hheld, hstored, hnil⟩ := hg.held c hmem
  have hsize : (m ++ r).length ≤ g.st.links.size :=
    length_le_of_nodup hheld.nodup fun a ha => hg.fresh c hmem a (hstored ▸ ha)
  have hcount : m ≠ [] → 1 ≤ req.count ∧
      req.count = min req.maxhits (req.maxmatch * req.maxhitpm) := by
    intro hm
    obtain ⟨h₁, h₂, h₃⟩ := hasked (by rw [hheld.head]; exact mt List.head?_eq_none_iff.mp hm)
    rw [SearchReq.count_eq h₂ h₃]
    exact ⟨le_min h₁ h₂, rfl⟩
  have hcut : r = [] ∨ (m.length : ℤ) ≤ req.count := by
    by_cases hr : r = []
    · exact .inl hr
    · right
      have h := hbehind (by rw [hheld.more.head?]; exact mt List.head?_eq_none_iff.mp hr)
      rw [List.length_append] at hsize
      rwa [walk_eq hheld.matched.seg (by omega)] at h
  obtain ⟨links, e, hloop, hheld', hsame, he⟩ :=
    @cacheLoop_spec g.st.links (g.st.entry c) m r req.count
    (g.st.links.size + 1) hheld hnil (fun hm => (hcount hm).1) hcut (by omega)
  rw [hstored] at hheld' hsame
  refine ⟨e.matched, _, checkCache_front hfront hans hloop,
    ⟨⟨?_, hg.lists.nodup, hg.lists.length, hg.lists.bound⟩,
    hg.count, ?_, ?_, hg.disjoint⟩, c, hc, ?_⟩
  · -- The entries lead on as they did.
    refine hg.lists.seg.congr fun d hd => ?_
    by_cases hdc : d = c
    · subst hdc
      show ((g.st.setEntry d e).entry d).next = _
      rw [CacheState.setEntry_entry_self, he]
      rfl
    · exact congrArg MatchCache.next (CacheState.setEntry_entry_of_ne g.st e hdc)
  · intro d hd
    by_cases hdc : d = c
    · subst hdc
      refine ⟨(g.stored d).take req.count.toNat, (g.stored d).drop req.count.toNat, ?_,
        List.take_append_drop _ _, ?_⟩
      · exact hheld'.congr (congrArg _ (CacheState.setEntry_entry_self g.st e))
          (congrArg _ (CacheState.setEntry_entry_self g.st e)) fun _ _ => ⟨rfl, rfl⟩
      · intro htake
        by_cases hm : m = []
        · rw [← hstored, hm, hnil hm]
          exact List.drop_nil
        · have hpos := (hcount hm).1
          obtain h | h := List.take_eq_nil_iff.mp htake
          · omega
          · rw [h]
            exact List.drop_nil
    · obtain ⟨m', r', hheld₂, hstored₂, hnil₂⟩ := hg.held d hd
      refine ⟨m', r', ?_, hstored₂, hnil₂⟩
      have hentry := CacheState.setEntry_entry_of_ne g.st e hdc
      refine hheld₂.congr (congrArg _ hentry) (congrArg _ hentry) fun a ha => hsame.2 a fun hac =>
        ?_
      exact hg.disjoint d hd c hmem hdc (hstored₂ ▸ ha) hac
  · intro d hd a ha
    exact (hg.fresh d hd a ha).trans_eq hsame.1.symm
  · by_cases hm : m = []
    · have hnone : g.stored c = [] := by rw [← hstored, hm, hnil hm]; rfl
      have hseg := hheld'.matched.seg
      rw [hnone, List.take_nil] at hseg ⊢
      exact hseg
    · rw [← (hcount hm).2]
      exact hheld'.matched.seg

/-- A miss adds an entry. -/
theorem CacheRun.Good.miss (hg : g.Good es) (hc : g.st.answering req = none) (n : ℕ) :
    ∃ g' es', g.step (req, n) = some (none, g') ∧ g'.Good es' := by
  have hno : ∀ c ∈ es, ¬(g.st.entry c).answers req := by
    rw [CacheState.answering, hg.lists.entries_eq, List.find?_eq_none] at hc
    exact hc
  have hcheck : checkCache req g.st = some (none, g.st) :=
    checkCacheLoop_none hg.lists.seg hno (hg.lists.length.le.trans (Nat.le_succ _))
  let found := g.st.links.answer n
  have hlists : CacheState.Lists { g.st with links := found.1 } es :=
    ⟨hg.lists.seg, hg.lists.nodup, hg.lists.length, hg.lists.bound⟩
  obtain ⟨st', c, es', hadd, hhead, hst'⟩ := addToCache_spec found.2 req hlists (by
    show g.st.cachecount ≤ matchCacheSize
    rw [hg.count]
    exact min_le_right _ _)
  let g' : CacheRun :=
    { st := st', stored := Function.update g.stored c (List.range' g.st.links.size n), adds := g.adds + 1 }
  have hstep : g.step (req, n) = some (none, g') := by
    have hadd : addToCache (g.st.links.answer n).2 req
        { g.st with links := (g.st.links.answer n).1 } = some st' := hadd
    simp only [CacheRun.step, hcheck, hadd, hhead]
    rfl
  have hself : g'.stored c = List.range' g.st.links.size n := by simp [g']
  have hne : ∀ d ∈ es', d ≠ c := fun d hd hdc => (List.nodup_cons.mp hst'.lists.nodup).1 (hdc ▸ hd)
  have hother : ∀ d ∈ es', g'.stored d = g.stored d := fun d hd => by simp [g', hne d hd]
  have hsize : st'.links.size = g.st.links.size + n := hst'.links.2.2
  refine ⟨g', c :: es', hstep, hst'.lists, ?_, fun d hd => ?_, fun d hd a ha => ?_,
    fun d hd d' hd' hdd => ?_⟩
  · have hcount := hst'.count
    have hold := hg.count
    show st'.cachecount = min (g.adds + 1) matchCacheSize
    simp only at hcount
    omega
  · obtain rfl | hd := List.mem_cons.mp hd
    · refine ⟨_, [], ⟨?_, ?_, ?_⟩, by rw [hself, List.append_nil], fun _ => rfl⟩
      · show IsList st'.links.next st'.links.previous (st'.entry d).matched _
        rw [hst'.matched, hst'.links.1, hst'.links.2.1]
        exact g.st.links.answer_isList n
      · show IsList _ _ (st'.entry d).more _
        rw [hst'.more]
        exact isList_nil
      · rw [List.append_nil]
        exact List.nodup_range'
    · obtain ⟨m, r, hheld, hstored, hnil⟩ := hg.held d (hst'.old hd)
      refine ⟨m, r, hheld.congr (hst'.kept d hd).1 (hst'.kept d hd).2 fun a ha => ?_,
        by rw [hother d hd, hstored], hnil⟩
      show st'.links.next a = _ ∧ st'.links.previous a = _
      rw [hst'.links.1, hst'.links.2.1]
      exact g.st.links.answer_old n (hg.fresh d (hst'.old hd) a (hstored ▸ ha))
  · show a < st'.links.size
    rw [hsize]
    obtain rfl | hd := List.mem_cons.mp hd
    · rw [hself, List.mem_range'_1] at ha
      exact ha.2
    · rw [hother d hd] at ha
      exact (hg.fresh d (hst'.old hd) a ha).trans_le (Nat.le_add_right _ _)
  · -- The new links are told apart from all old ones by their numbers.
    have hnew : ∀ d ∈ es', List.Disjoint (List.range' g.st.links.size n) (g'.stored d) := by
      intro d hd a ha ha'
      rw [List.mem_range'_1] at ha
      rw [hother d hd] at ha'
      exact absurd (hg.fresh d (hst'.old hd) a ha') (by omega)
    obtain rfl | hold := List.mem_cons.mp hd
    · obtain rfl | hold' := List.mem_cons.mp hd'
      · exact absurd rfl hdd
      · rw [hself]
        exact hnew d' hold'
    · obtain rfl | hold' := List.mem_cons.mp hd'
      · rw [hself]
        exact fun a ha ha' => hnew d hold ha' ha
      · rw [hother d hold, hother d' hold']
        exact hg.disjoint d (hst'.old hold) d' (hst'.old hold') hdd

end

/-- In every run all of whose requests can be taken, every hit gives the first links of those that
were stored, no link is lost or there twice, and the entries are the last that were added, at
most fifteen. -/
theorem cacheRun_good (xs : List (SearchReq × ℕ)) (g : CacheRun) (es : List ℕ) (hg : g.Good es)
    (h : g.Meets xs) :
    g.Kept xs := by
  induction xs generalizing g es with
  | nil => exact hg.sound
  | cons x xs ih =>
    obtain ⟨hallows, hrest⟩ := h
    refine ⟨hg.sound, ?_⟩
    cases hc : g.st.answering x.1 with
    | none =>
      obtain ⟨g', es', hstep, hg'⟩ := hg.miss hc x.2
      refine ⟨none, g', hstep, fun p hp => absurd hp.symm (Option.some_ne_none p), ?_⟩
      exact ih g' es' hg' (hrest (none, g') hstep)
    | some c =>
      obtain ⟨p, st', hcheck, hg', hserves⟩ := hg.hit hallows hc
      have hstep : g.step x = some (some p, { g with st := st' }) := by
        simp only [CacheRun.step, hcheck]
      refine ⟨some p, { g with st := st' }, hstep, ?_, ih _ es hg' (hrest _ hstep)⟩
      intro q hq
      obtain rfl : p = q := Option.some.inj hq
      exact hserves

/-- The cache from its beginning on. -/
theorem cacheRun_kept (xs : List (SearchReq × ℕ)) (h : CacheRun.start.Meets xs) :
    CacheRun.start.Kept xs :=
  cacheRun_good xs CacheRun.start [] CacheRun.start_good h

/-- A request that asks for some hits of a string. -/
def askFor (searchStr : List UInt8) (maxhits : ℤ) : SearchReq :=
  { searchStr, origType := 0, currType := 0, origOffset := 0, maxhits, maxmatch := 100, maxhitpm := 20
    archieDir := false, domains := [], compRest := [] }

/-- An answer that is cut and made whole again, and then another one. -/
theorem cacheRun_sample :
    CacheRun.start.Kept [(askFor [97] 10, 3), (askFor [97] 2, 0), (askFor [97] 3, 0),
      (askFor [98] 10, 1)] :=
  cacheRun_kept _ (by decide +kernel)

/-! ### Runs that go wrong -/

/-- The cache after some requests. -/
def CacheRun.after : List (SearchReq × ℕ) → CacheRun → Option CacheRun
  | [], g => some g
  | x :: xs, g => (g.step x).bind fun p => p.2.after xs

section

variable {xs : List (SearchReq × ℕ)} {x : SearchReq × ℕ} {g g₁ g₂ : CacheRun} {p : Option ℕ}

theorem CacheRun.Kept.after (h : g.Kept xs) (h₁ : g.after xs = some g₁) : g₁.Sound := by
  induction xs generalizing g with
  | nil =>
    obtain rfl := Option.some.inj h₁
    exact h
  | cons x xs ih =>
    obtain ⟨-, reply, g', hstep, -, hrest⟩ := h
    rw [CacheRun.after, hstep] at h₁
    exact ih hrest h₁

theorem CacheRun.Kept.reply (h : g.Kept (xs ++ [x])) (h₁ : g.after xs = some g₁)
    (h₂ : g₁.step x = some (some p, g₂)) : g₁.Serves x.1 p g₂ := by
  induction xs generalizing g with
  | nil =>
    obtain rfl := Option.some.inj h₁
    obtain ⟨-, reply, g', hstep, hserves, -⟩ := h
    obtain ⟨rfl, rfl⟩ := Prod.mk.inj (Option.some.inj (hstep.symm.trans h₂))
    exact hserves p rfl
  | cons y xs ih =>
    obtain ⟨-, reply, g', hstep, -, hrest⟩ := h
    rw [CacheRun.after, hstep] at h₁
    exact ih hrest h₁

/-- How many entries can be reached. -/
theorem CacheRun.Sound.length (h : g.Sound) :
    (walk g.st.entryNext matchCacheSize g.st.mcache).length = min g.adds matchCacheSize := by
  obtain ⟨es, hseg, -, hlength, -⟩ := h
  rw [walk_eq hseg (hlength ▸ min_le_right _ _), hlength]

end

/-- Two strings, and the first of them again. -/
def firstAgain : List (SearchReq × ℕ) :=
  [(askFor [97] 10, 1), (askFor [98] 10, 1), (askFor [97] 10, 0)]

/-- A hit on an entry that is not the front one loses entries. -/
theorem not_kept_firstAgain : ¬CacheRun.start.Kept firstAgain := by
  intro h
  have hrun : (CacheRun.start.after firstAgain).map
      (fun g => ((walk g.st.entryNext matchCacheSize g.st.mcache).length, g.adds)) = some
        (1, 2) := by decide +kernel
  obtain ⟨g, hg, hlength⟩ := Option.map_eq_some_iff.mp hrun
  obtain ⟨hwalk, hadds⟩ := Prod.mk.inj hlength
  have hcount := (h.after hg).length
  rw [hwalk, hadds] at hcount
  exact absurd hcount (by decide)

/-- One string, for fewer and fewer hits. -/
def cutTwice : List (SearchReq × ℕ) := [(askFor [97] 10, 3), (askFor [97] 2, 0), (askFor [97] 1, 0)]

/-- An answer that is cut twice loses links. -/
theorem not_kept_cutTwice : ¬CacheRun.start.Kept (cutTwice ++ [(askFor [97] 3, 0)]) := by
  intro h
  have hrun : ((CacheRun.start.after cutTwice).bind fun g =>
      (g.step (askFor [97] 3, 0)).map fun p =>
        (p.1.map (walk p.2.st.links.next 3), g.st.answering (askFor [97] 3), g.stored 0)) =
      some (some [0, 2], some 0, [0, 1, 2]) := by decide +kernel
  obtain ⟨g, hg, hstep⟩ := Option.bind_eq_some_iff.mp hrun
  obtain ⟨⟨reply, g'⟩, hg', hvalue⟩ := Option.map_eq_some_iff.mp hstep
  obtain ⟨hreply, hvalue⟩ := Prod.mk.inj hvalue
  obtain ⟨hans, hstored⟩ := Prod.mk.inj hvalue
  obtain ⟨p, rfl, hwalk⟩ := Option.map_eq_some_iff.mp hreply
  obtain ⟨c, hc, hseg⟩ := h.reply hg hg'
  obtain rfl : 0 = c := Option.some.inj (hans.symm.trans hc)
  rw [hstored] at hseg
  have hthree : walk g'.st.links.next 3 p = [0, 1, 2] := walk_eq hseg (by decide)
  rw [hwalk] at hthree
  exact absurd hthree (by decide)

/-- Not all requests keep the cache as it should be, though each asks for something and no more
links are found for it than that. -/
theorem not_cacheRun_kept :
    (∀ x ∈ firstAgain ++ cutTwice ++ [(askFor [97] 3, 0)],
      (x.2 : ℤ) ≤ x.1.maxhits ∧ 1 ≤ x.1.maxhits ∧ 1 ≤ x.1.maxmatch ∧ 1 ≤ x.1.maxhitpm) ∧
      ¬CacheRun.start.Kept firstAgain ∧ ¬CacheRun.start.Kept (cutTwice ++ [(askFor [97] 3, 0)]) :=
  ⟨by decide, not_kept_firstAgain, not_kept_cutTwice⟩

end Archie
