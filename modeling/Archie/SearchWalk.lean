/-
The steps of a search on a paged file that represents a trie.

* `keyMatchesWith_iff_agree` — a key matches where its bits are those of the text.
* `searchLoop_spec` — the descent reaches the subtrie of the blind descent.
* `loadStarts_spec` — a walk returns the next starts that it accepts, and leaves
  on the stack those that follow.
-/
import Archie.Search

namespace Archie

open Patricia

/-! ### Keys and bits -/

theorem keyMatchesWith_iff {fold : UInt8 → UInt8} {key text : List UInt8} :
    keyMatchesWith fold key text = true ↔ key.map fold <+: text.map fold := by
  induction key generalizing text with
  | nil => simp [keyMatchesWith]
  | cons k key ih =>
    cases text with
    | nil => simp [keyMatchesWith]
    | cons c text =>
      rw [keyMatchesWith, List.map_cons, List.map_cons, List.cons_prefix_cons, ← ih]
      by_cases hkc : fold k = fold c
      · simp [hkc]
      · simp [hkc]

/-- A key without NUL matches where its bits are those of the text. -/
theorem keyMatchesWith_iff_agree {fold : UInt8 → UInt8} (hfold : ∀ c, fold c = 0 ↔ c = 0)
    {key : List UInt8} (hkey : ∀ c ∈ key, c ≠ 0) {text : List UInt8} :
    keyMatchesWith fold key text = true ↔
      Agree (8 * key.length) (textBits fold text) (textBits fold key) := by
  refine keyMatchesWith_iff.trans (Iff.trans ?_ textBits_agree_iff.symm)
  constructor
  · rintro ⟨rest, hrest⟩ j hj
    have hjt : j < text.length := by
      have hlen := congrArg List.length hrest
      simp only [List.length_append, List.length_map] at hlen
      omega
    have hget := congrArg (fun l => l[j]?) hrest
    simp only [List.getElem?_append_left (by simpa using hj : j < (key.map fold).length),
      List.getElem?_map, List.getElem?_eq_getElem hj, List.getElem?_eq_getElem hjt,
      Option.map_some, Option.some.injEq] at hget
    rw [List.getD_eq_getElem _ _ hj, List.getD_eq_getElem _ _ hjt, hget]
  · intro h
    -- the characters of the key are not NUL, so the text does not end before them
    have hlt : ∀ j < key.length, j < text.length := by
      intro j hj
      by_contra hge
      have hfj := h j hj
      rw [List.getD_eq_default _ _ (Nat.le_of_not_lt hge), (hfold 0).mpr rfl] at hfj
      rw [List.getD_eq_getElem _ _ hj] at hfj
      exact hkey _ (List.getElem_mem hj) ((hfold _).mp hfj.symm)
    have hlen : key.length ≤ text.length := by
      by_contra hlt'
      exact absurd (hlt text.length (by omega)) (lt_irrefl _)
    rw [List.prefix_iff_eq_take]
    refine List.ext_getElem (by simp [hlen]) ?_
    intro j hj hj'
    have hjk : j < key.length := by simpa using hj
    have hfj := h j hjk
    rw [List.getD_eq_getElem _ _ hjk, List.getD_eq_getElem _ _ (hlt j hjk)] at hfj
    simp [hfj]

/-- The descent uses the folded key. -/
theorem searchKey_eq (cf : PatrieConfig) (key : List UInt8) :
    searchKey cf key = key.map cf.buildCaseAccentSens.fold := by
  rw [searchKey]
  cases cf.buildCaseAccentSens with
  | ciai =>
    refine List.map_congr_left fun c _ => ?_
    exact (lower_noAccent c).symm
  | cias => rfl
  | csai => rfl
  | csas => exact (List.map_id key).symm

/-- The bits that the descent sees are those of the folded key. -/
theorem bit_searchKey (cf : PatrieConfig) {key : List UInt8} {i : ℕ} (hi : i < key.length * 8) :
    bit i (searchKey cf key) = some (textBits cf.buildCaseAccentSens.fold key i) := by
  have hlt : i / 8 < key.length := by omega
  rw [searchKey_eq, bit, if_neg (by omega), Int.toNat_natCast, List.getElem?_map,
    List.getElem?_eq_getElem hlt, textBits, List.getD_eq_getElem _ _ hlt]
  rfl

/-! ### Nodes and tries -/

/-- The reader finds the starts of `t` below `node`, with its root at depth `d`. -/
def Finds (cf : PagedTrie) : Trie ℕ → ℕ → PatrieNode → Prop
  | .leaf s, _, node => node.isSkip = 0 ∧ node.val - 1 = s
  | .node skip l r, d, node =>
    node.isSkip ≠ 0 ∧ node.height = (d + skip : ℕ) ∧
    ∀ page : TriePage, page.Loaded cf →
      (∃ n p, getPagedTrieChild cf .left node page = some (n, p) ∧ p.Loaded cf ∧
        Finds cf l (d + skip + 1) n) ∧
      (∃ n p, getPagedTrieChild cf .right node page = some (n, p) ∧ p.Loaded cf ∧
        Finds cf r (d + skip + 1) n)

theorem Reads.finds {cf : PagedTrie} {t : Trie ℕ} {d : ℕ} {node : PatrieNode}
    (h : Reads cf (t.map (· + 1)) d node) : Finds cf t d node := by
  induction t generalizing d node with
  | leaf s =>
    obtain ⟨hskip, hval⟩ := h
    exact ⟨hskip, by rw [hval]; rfl⟩
  | node skip l r ihl ihr =>
    obtain ⟨hskip, -, hheight, hchild⟩ := h
    refine ⟨hskip, by rw [hheight]; push_cast; rfl, fun page hpage => ?_⟩
    obtain ⟨⟨nl, pl, hl, hpl, hrl⟩, nr, pr, hr, hpr, hrr⟩ := hchild page hpage
    have hd : ((d + skip + 1 : ℕ) : ℤ) = (d : ℤ) + skip + 1 := by push_cast; rfl
    exact ⟨⟨nl, pl, hl, hpl, ihl (hd ▸ hrl)⟩, nr, pr, hr, hpr, ihr (hd ▸ hrr)⟩

/-- The root of a file that represents a trie. -/
theorem Represents.finds {cf : PagedTrie} {t : Trie ℕ} (h : Represents cf t) :
    ∃ root page, getTrieRoot cf = some (root, page) ∧ page.Loaded cf ∧ Finds cf t 0 root := by
  obtain ⟨root, page, hroot, hpage, hreads⟩ := h
  refine ⟨root, page, hroot, hpage, ?_⟩
  cases t with
  | leaf s => exact ⟨hreads.1, by rw [hreads.2]; rfl⟩
  | node skip l r =>
    obtain ⟨hskip, -, hheight, hchild⟩ := hreads
    refine ⟨hskip, by rw [hheight]; push_cast; omega, fun page hpage => ?_⟩
    obtain ⟨⟨nl, pl, hl, hpl, hrl⟩, nr, pr, hr, hpr, hrr⟩ := hchild page hpage
    have hd : (-1 + ((skip + 1 : ℕ) : ℤ) + 1) = ((0 + skip + 1 : ℕ) : ℤ) := by push_cast; omega
    rw [hd] at hrl hrr
    exact ⟨⟨nl, pl, hl, hpl, hrl.finds⟩, nr, pr, hr, hpr, hrr.finds⟩

/-- The descent reaches the subtrie of the blind descent. -/
theorem searchLoop_spec {cf : PatrieConfig} (key : List UInt8) {t : Trie ℕ} {d fuel : ℕ}
    {node : PatrieNode} {page : TriePage} (h : Finds cf.trie t d node)
    (hpage : page.Loaded cf.trie) (hfuel : t.size ≤ fuel) :
    ∃ n p d', searchLoop cf (searchKey cf key) fuel node page = some (n, p) ∧ p.Loaded cf.trie ∧
      Finds cf.trie
        (t.blind (textBits cf.buildCaseAccentSens.fold key) (8 * key.length) d) d' n := by
  induction t generalizing d fuel node page with
  | leaf s =>
    obtain ⟨fuel, rfl⟩ : ∃ f, fuel = f + 1 := ⟨fuel - 1, by rw [Trie.size] at hfuel; omega⟩
    exact ⟨node, page, d, by rw [searchLoop, if_neg (not_not.mpr h.1)], hpage, h⟩
  | node skip l r ihl ihr =>
    have hall := h
    obtain ⟨hskip, hheight, hchild⟩ := h
    rw [Trie.size] at hfuel
    obtain ⟨fuel, rfl⟩ : ∃ f, fuel = f + 1 := ⟨fuel - 1, by omega⟩
    have hlen : (searchKey cf key).length = key.length := by
      rw [searchKey_eq, List.length_map]
    rw [searchLoop, if_pos hskip, Trie.blind, hheight, hlen, Nat.mul_comm 8]
    by_cases hn : key.length * 8 ≤ d + skip
    · rw [if_pos (by exact_mod_cast hn), if_pos hn]
      exact ⟨node, page, d, rfl, hpage, hall⟩
    · rw [if_neg (by exact_mod_cast hn), if_neg hn, bit_searchKey cf (by omega),
        Option.bind_eq_bind, Option.bind_some]
      obtain ⟨⟨nl, pl, hl, hpl, hfl⟩, nr, pr, hr, hpr, hfr⟩ := hchild page hpage
      rw [Nat.mul_comm 8] at ihl ihr
      by_cases hb : textBits cf.buildCaseAccentSens.fold key (d + skip) = true
      · rw [if_pos hb, if_pos hb, hr]
        exact ihr hfr hpr (by omega)
      · rw [if_neg hb, if_neg hb, hl]
        exact ihl hfl hpl (by omega)

/-! ### The walk -/

/-- The starts still to come from a stack of subtries, the top of the stack last. -/
def remaining (ts : List (Trie ℕ)) : List ℕ := ts.reverse.flatMap Trie.leaves

@[simp] theorem remaining_nil : remaining [] = [] := rfl

@[simp] theorem remaining_concat (ts : List (Trie ℕ)) (t : Trie ℕ) :
    remaining (ts ++ [t]) = t.leaves ++ remaining ts := by
  simp [remaining]

/-- The number of nodes in a stack of subtries. -/
def stackSize (ts : List (Trie ℕ)) : ℕ := (ts.map Trie.size).sum

@[simp] theorem stackSize_concat (ts : List (Trie ℕ)) (t : Trie ℕ) :
    stackSize (ts ++ [t]) = stackSize ts + t.size := by
  simp [stackSize]

/-- The nodes on the stack of a state stand for the subtries `ts`. -/
structure Stacks (cf : PagedTrie) (state : PatrieState) (ts : List (Trie ℕ)) : Prop where
  wellFormed : state.WellFormed
  finds : List.Forall₂ (fun n t => ∃ d, Finds cf t d n) state.live ts

/-- The stack operations leave the rest of a state as it is. -/
structure SameSearch (state state' : PatrieState) : Prop where
  key : state'.key = state.key
  matchCaseAccSens : state'.matchCaseAccSens = state.matchCaseAccSens
  firstMatched : state'.firstMatched = state.firstMatched

theorem SameSearch.refl (state : PatrieState) : SameSearch state state := ⟨rfl, rfl, rfl⟩

theorem SameSearch.trans {s₁ s₂ s₃ : PatrieState} (h : SameSearch s₁ s₂) (h' : SameSearch s₂ s₃) :
    SameSearch s₁ s₃ :=
  ⟨h'.key.trans h.key, h'.matchCaseAccSens.trans h.matchCaseAccSens,
    h'.firstMatched.trans h.firstMatched⟩

theorem sameSearch_push (node : PatrieNode) (state : PatrieState) :
    SameSearch state (patrieStatePush node state) := by
  unfold patrieStatePush
  split <;> exact ⟨rfl, rfl, rfl⟩

theorem Stacks.push {cf : PagedTrie} {state : PatrieState} {ts : List (Trie ℕ)}
    (h : Stacks cf state ts) {node : PatrieNode} {t : Trie ℕ} {d : ℕ} (hnode : Finds cf t d node) :
    Stacks cf (patrieStatePush node state) (ts ++ [t]) where
  wellFormed := patrieStatePush_wellFormed h.wellFormed node
  finds := by
    rw [patrieStatePush_live h.wellFormed]
    exact List.rel_append h.finds (.cons ⟨d, hnode⟩ .nil)

theorem Stacks.setFirstMatched {cf : PagedTrie} {state : PatrieState} {ts : List (Trie ℕ)}
    (h : Stacks cf state ts) (n : ℤ) : Stacks cf { state with firstMatched := n } ts :=
  ⟨⟨h.wellFormed.top_ge, h.wellFormed.top_lt, h.wellFormed.length_stack⟩, h.finds⟩

theorem Stacks.empty_iff {cf : PagedTrie} {state : PatrieState} {ts : List (Trie ℕ)}
    (h : Stacks cf state ts) : patrieStateEmpty state = true ↔ ts = [] := by
  rw [patrieStateEmpty_iff h.wellFormed, ← List.length_eq_zero_iff, h.finds.length_eq,
    List.length_eq_zero_iff]

/-- Popping a stack that is not empty. -/
theorem Stacks.pop {cf : PagedTrie} {state : PatrieState} {ts : List (Trie ℕ)} {t : Trie ℕ}
    (h : Stacks cf state (ts ++ [t])) :
    ∃ node state' d, patrieStatePop state = some (node, state') ∧ Finds cf t d node ∧
      Stacks cf state' ts ∧ SameSearch state state' := by
  have hrest := List.forall₂_take_append _ _ _ h.finds
  have hlast := List.forall₂_drop_append _ _ _ h.finds
  obtain ⟨node, ⟨d, hfinds⟩, hnode⟩ :
      ∃ node, (∃ d, Finds cf t d node) ∧ state.live.drop ts.length = [node] := by
    generalize state.live.drop ts.length = last at hlast
    cases hlast with
    | cons hn hnil =>
      cases hnil
      exact ⟨_, hn, rfl⟩
  have hlive : state.live = state.live.take ts.length ++ [node] := by
    rw [← hnode, List.take_append_drop]
  obtain ⟨state', hpop, hwf, hlive', heq⟩ := patrieStatePop_eq h.wellFormed hlive
  exact ⟨node, state', d, hpop, hfinds, ⟨hwf, hlive' ▸ hrest⟩, by rw [heq]; exact ⟨rfl, rfl, rfl⟩⟩

/-- What a walk leaves behind: the starts of `all` that `p` lets through, up to
`n` of them, were returned, and the stack holds what follows. -/
structure Walked (cf : PagedTrie) (p : ℕ → Bool) (all : List ℕ) (n size : ℕ) (state : PatrieState)
    (start : List ℕ) (state' : PatrieState) (page' : TriePage) (ts' : List (Trie ℕ)) : Prop where
  start_eq : start = (all.filter p).take n
  rest_eq : (remaining ts').filter p = (all.filter p).drop n
  onStack : Stacks cf state' ts'
  size_le : stackSize ts' ≤ size
  loaded : page'.Loaded cf
  same : SameSearch state state'

/-- The loop of a walk: it adds to `start` the next starts that `p` lets through. -/
theorem loadStartsLoop_spec {cf : PatrieConfig} {accept : ℕ → Option Bool} {p : ℕ → Bool}
    (hp : ∀ s, accept s = some (p s)) {maxhits fuel : ℕ} {t : Trie ℕ} {ts : List (Trie ℕ)} {d : ℕ}
    {node : PatrieNode} {start : List ℕ} {state : PatrieState} {page : TriePage}
    (hnode : Finds cf.trie t d node) (hstate : Stacks cf.trie state ts)
    (hpage : page.Loaded cf.trie) (hstart : start.length < maxhits)
    (hfuel : t.size + stackSize ts ≤ fuel) :
    ∃ more state' page' ts',
      loadStartsLoop cf accept maxhits fuel node start state page =
        some (start ++ more, state', page') ∧
      Walked cf.trie p (t.leaves ++ remaining ts) (maxhits - start.length) (t.size + stackSize ts)
        state more state' page' ts' := by
  induction fuel generalizing t ts d node start state page with
  | zero => exact absurd hfuel (by have := t.size_pos; omega)
  | succ fuel ih =>
    rw [loadStartsLoop]
    cases t with
    | node skip l r =>
      -- the right child goes on the stack, the walk goes on with the left one
      obtain ⟨hskip, -, hchild⟩ := hnode
      obtain ⟨-, nr, pr, hr, hpr, hfr⟩ := hchild page hpage
      obtain ⟨⟨nl, pl, hl, hpl, hfl⟩, -⟩ := hchild pr hpr
      rw [if_pos hskip, hr, Option.bind_eq_bind, Option.bind_some]
      dsimp only
      rw [hl, Option.bind_some]
      rw [Trie.size] at hfuel
      have hsize : l.size + stackSize (ts ++ [r]) ≤ fuel := by
        rw [stackSize_concat]
        omega
      obtain ⟨more, state', page', ts', heq, hw⟩ := ih hfl (hstate.push hfr) hpl hstart hsize
      rw [remaining_concat, ← List.append_assoc] at hw
      have hle : stackSize ts' ≤ (Trie.node skip l r).size + stackSize ts := by
        have hsl := hw.size_le
        rw [stackSize_concat] at hsl
        rw [Trie.size]
        omega
      exact ⟨more, state', page', ts', heq,
        { hw with
          size_le := hle
          same := (sameSearch_push nr state).trans hw.same }⟩
    | leaf s =>
      obtain ⟨hskip, hval⟩ := hnode
      rw [if_neg (not_not.mpr hskip), hval, hp, Option.bind_eq_bind, Option.bind_some]
      dsimp only
      rw [Trie.leaves, List.singleton_append]
      rw [Trie.size] at hfuel ⊢
      -- one start less is wanted when this one is taken
      have htaken : ∃ taken : List ℕ, (if p s then start ++ [s] else start) = start ++ taken ∧
          taken.length ≤ 1 ∧ ∀ l : List ℕ, (s :: l).filter p = taken ++ l.filter p := by
        by_cases hs : p s = true
        · exact ⟨[s], by rw [if_pos hs], le_refl _, fun l => by rw [List.filter_cons_of_pos hs]; rfl⟩
        · exact ⟨[], by rw [if_neg hs, List.append_nil], Nat.zero_le _,
            fun l => by rw [List.filter_cons_of_neg hs]; rfl⟩
      obtain ⟨taken, htk, hlen, hfilter⟩ := htaken
      have htakenle : taken.length ≤ maxhits - start.length := by omega
      rw [htk, List.length_append]
      by_cases hstop : start.length + taken.length ≥ maxhits ∨ patrieStateEmpty state = true
      · rw [if_pos hstop]
        refine ⟨taken, state, page, ts, rfl, ?_, ?_, hstate, by omega, hpage, SameSearch.refl _⟩
        · rw [hfilter]
          rcases hstop with hfull | hempty
          · rw [List.take_left' (by omega)]
          · rw [hstate.empty_iff.mp hempty, remaining_nil, List.filter_nil, List.append_nil,
              List.take_of_length_le htakenle]
        · rw [hfilter]
          rcases hstop with hfull | hempty
          · rw [List.drop_left' (by omega)]
          · rw [hstate.empty_iff.mp hempty, remaining_nil, List.filter_nil, List.append_nil,
              List.drop_eq_nil_of_le htakenle]
      · rw [if_neg hstop]
        obtain ⟨hless, hne⟩ := not_or.mp hstop
        have hts : ts ≠ [] := fun h => hne (hstate.empty_iff.mpr h)
        obtain ⟨ts₀, t₀, rfl⟩ : ∃ ts₀ t₀, ts = ts₀ ++ [t₀] :=
          ⟨ts.dropLast, ts.getLast hts, (List.dropLast_append_getLast hts).symm⟩
        obtain ⟨node', state₁, d', hpop, hnode', hstate₁, hsame⟩ := hstate.pop
        rw [hpop]
        rw [stackSize_concat] at hfuel
        have hless' : (start ++ taken).length < maxhits := by
          rw [List.length_append]
          omega
        obtain ⟨more, state', page', ts', heq, hw⟩ := ih hnode' hstate₁ hpage hless' (by omega)
        have hcount : maxhits - (start ++ taken).length =
            maxhits - start.length - taken.length := by
          rw [List.length_append]
          omega
        rw [hcount, ← remaining_concat] at hw
        refine ⟨taken ++ more, state', page', ts', by rw [← List.append_assoc]; exact heq, ?_, ?_,
          hw.onStack, ?_, hw.loaded, hsame.trans hw.same⟩
        · rw [hfilter, List.take_append, List.take_of_length_le htakenle, hw.start_eq]
        · rw [hfilter, List.drop_append, List.drop_eq_nil_of_le htakenle, List.nil_append,
            hw.rest_eq]
        · have hle := hw.size_le
          rw [stackSize_concat]
          omega

/-- **A walk returns the next starts that it accepts.** -/
theorem loadStarts_spec {cf : PatrieConfig} {accept : ℕ → Option Bool} {p : ℕ → Bool}
    (hp : ∀ s, accept s = some (p s)) (maxhits : ℕ) {fuel : ℕ} {ts : List (Trie ℕ)}
    {state : PatrieState} {page : TriePage} (hstate : Stacks cf.trie state ts)
    (hpage : page.Loaded cf.trie) (hfuel : stackSize ts ≤ fuel) :
    ∃ start state' page' ts',
      loadStarts cf accept fuel maxhits state page = some (start, state', page') ∧
      Walked cf.trie p (remaining ts) maxhits (stackSize ts) state start state' page' ts' := by
  rw [loadStarts]
  by_cases hstop : maxhits = 0 ∨ patrieStateEmpty state = true
  · rw [if_pos hstop]
    refine ⟨[], state, page, ts, rfl, ?_, ?_, hstate, le_refl _, hpage, SameSearch.refl _⟩
    · rcases hstop with h0 | hempty
      · rw [h0, List.take_zero]
      · rw [hstate.empty_iff.mp hempty, remaining_nil, List.filter_nil, List.take_nil]
    · rcases hstop with h0 | hempty
      · rw [h0, List.drop_zero]
      · rw [hstate.empty_iff.mp hempty, remaining_nil, List.filter_nil, List.drop_nil]
  · rw [if_neg hstop]
    obtain ⟨hpos, hne⟩ := not_or.mp hstop
    have hts : ts ≠ [] := fun h => hne (hstate.empty_iff.mpr h)
    obtain ⟨ts₀, t₀, rfl⟩ : ∃ ts₀ t₀, ts = ts₀ ++ [t₀] :=
      ⟨ts.dropLast, ts.getLast hts, (List.dropLast_append_getLast hts).symm⟩
    obtain ⟨node, state₁, d, hpop, hnode, hstate₁, hsame⟩ := hstate.pop
    rw [stackSize_concat] at hfuel
    have hstart : ([] : List ℕ).length < maxhits := Nat.pos_of_ne_zero hpos
    obtain ⟨start, state', page', ts', heq, hw⟩ := loadStartsLoop_spec hp hnode hstate₁ hpage hstart
      (show t₀.size + stackSize ts₀ ≤ fuel by omega)
    rw [← remaining_concat] at hw
    refine ⟨start, state', page', ts', ?_, ?_⟩
    · rw [hpop, Option.bind_eq_bind, Option.bind_some]
      exact heq
    · exact
        { hw with
          size_le := by
            have hle := hw.size_le
            rw [stackSize_concat]
            omega
          same := hsame.trans hw.same }

end Archie
