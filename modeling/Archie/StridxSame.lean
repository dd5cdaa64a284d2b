/-
Resuming a search from a copy of its state.

A copy may have other memory behind the nodes in use, and another page in the
buffer, as long as that page is not taken for the page of a node on the stack.
Then both searches return the same starts from there on.

* `SameState`, `SamePage`, `SameHandle` — when two searches are in the same state.
* `patrieGetMoreStarts_same` — the PaTrie returns the same starts.
* `getMoreMatches_same` — the database returns the same starts.
-/
import Archie.Stridx

namespace Archie

/-- Related results of a computation that may fail. -/
theorem rel_bind {α α' β β' : Type*} {R : α → α' → Prop} {S : β → β' → Prop} {x : Option α}
    {x' : Option α'} {f : α → Option β} {f' : α' → Option β'} (hx : Option.Rel R x x')
    (hf : ∀ a a', R a a' → Option.Rel S (f a) (f' a')) :
    Option.Rel S (x.bind f) (x'.bind f') := by
  cases hx with
  | none => exact .none
  | some h => exact hf _ _ h

theorem rel_refl {α : Type*} {R : α → α → Prop} (hR : ∀ a, R a a) (x : Option α) :
    Option.Rel R x x := by
  cases x with
  | none => exact .none
  | some a => exact .some (hR a)

/-! ### States -/

/-- Two states with the same nodes in use and the same search. -/
structure SameState (st st' : PatrieState) : Prop where
  wellFormed : st.WellFormed
  wellFormed' : st'.WellFormed
  top : st'.top = st.top
  live : st'.live = st.live
  key : st'.key = st.key
  matchCaseAccSens : st'.matchCaseAccSens = st.matchCaseAccSens
  firstMatched : st'.firstMatched = st.firstMatched

theorem SameState.empty {st st' : PatrieState} (h : SameState st st') :
    patrieStateEmpty st' = patrieStateEmpty st := by
  rw [patrieStateEmpty, patrieStateEmpty, h.top]

theorem top_push (node : PatrieNode) (st : PatrieState) :
    (patrieStatePush node st).top = st.top + 1 := by
  unfold patrieStatePush
  split <;> rfl

theorem SameState.push {st st' : PatrieState} (h : SameState st st') (node : PatrieNode) :
    SameState (patrieStatePush node st) (patrieStatePush node st') where
  wellFormed := patrieStatePush_wellFormed h.wellFormed node
  wellFormed' := patrieStatePush_wellFormed h.wellFormed' node
  top := by rw [top_push, top_push, h.top]
  live := by
    rw [patrieStatePush_live h.wellFormed, patrieStatePush_live h.wellFormed', h.live]
  key := by unfold patrieStatePush; split <;> split <;> exact h.key
  matchCaseAccSens := by unfold patrieStatePush; split <;> split <;> exact h.matchCaseAccSens
  firstMatched := by unfold patrieStatePush; split <;> split <;> exact h.firstMatched

/-- Popping gives the same node, one of those in use. -/
theorem SameState.pop {st st' : PatrieState} (h : SameState st st') :
    Option.Rel (fun r r' => r'.1 = r.1 ∧ SameState r.2 r'.2 ∧ st.live = r.2.live ++ [r.1])
      (patrieStatePop st) (patrieStatePop st') := by
  rcases List.eq_nil_or_concat st.live with hnil | ⟨rest, node, hlive⟩
  · have hempty := (patrieStateEmpty_iff h.wellFormed).mpr hnil
    rw [patrieStatePop, patrieStatePop, if_pos hempty, if_pos (h.empty.trans hempty)]
    exact .none
  · rw [List.concat_eq_append] at hlive
    obtain ⟨st₁, hpop, hwf, hlive₁, heq⟩ := patrieStatePop_eq h.wellFormed hlive
    obtain ⟨st₁', hpop', hwf', hlive₁', heq'⟩ :=
      patrieStatePop_eq h.wellFormed' (h.live.trans hlive)
    rw [hpop, hpop']
    refine .some ⟨rfl, ⟨hwf, hwf', ?_, by rw [hlive₁, hlive₁'], ?_, ?_, ?_⟩, ?_⟩
    · rw [heq, heq']
      exact congrArg (· - 1) h.top
    · rw [heq, heq']
      exact h.key
    · rw [heq, heq']
      exact h.matchCaseAccSens
    · rw [heq, heq']
      exact h.firstMatched
    · simp only [hlive₁, hlive]

/-! ### Pages -/

/-- The buffer is not taken for another page than it holds by one of the nodes. -/
def Serving (cf : PagedTrie) (page : TriePage) (nodes : List PatrieNode) : Prop :=
  ∀ n ∈ nodes, nodePage cf n page = loadPage cf n.pageNum

/-- Two buffers that some nodes cannot tell apart. -/
def SamePage (cf : PagedTrie) (nodes : List PatrieNode) (page page' : TriePage) : Prop :=
  page' = page ∨ Serving cf page nodes ∧ Serving cf page' nodes

theorem SamePage.mono {cf : PagedTrie} {nodes nodes' : List PatrieNode} {page page' : TriePage}
    (h : SamePage cf nodes page page') (hsub : ∀ n ∈ nodes', n ∈ nodes) :
    SamePage cf nodes' page page' :=
  h.imp_right fun h => ⟨fun n hn => h.1 n (hsub n hn), fun n hn => h.2 n (hsub n hn)⟩

/-- A child is read alike, and then the buffers are the same. -/
theorem SamePage.getPagedTrieChild {cf : PagedTrie} {nodes : List PatrieNode}
    {page page' : TriePage} (h : SamePage cf nodes page page') {n : PatrieNode} (hn : n ∈ nodes)
    (child : Child) :
    Archie.getPagedTrieChild cf child n page' = Archie.getPagedTrieChild cf child n page := by
  rcases h with rfl | ⟨h, h'⟩
  · rfl
  · rw [Archie.getPagedTrieChild, Archie.getPagedTrieChild, h n hn, h' n hn]

/-! ### The PaTrie -/

/-- Results of a walk that differ in the copy of the state only. -/
structure SameWalk (cf : PatrieConfig) (r r' : List ℕ × PatrieState × TriePage) : Prop where
  start : r'.1 = r.1
  state : SameState r.2.1 r'.2.1
  page : SamePage cf.trie r.2.1.live r.2.2 r'.2.2

theorem loadStartsLoop_same {cf : PatrieConfig} {accept : ℕ → Option Bool} {maxhits fuel : ℕ}
    {node : PatrieNode} {start : List ℕ} {st st' : PatrieState} {page page' : TriePage}
    (hst : SameState st st') (hpage : SamePage cf.trie (node :: st.live) page page') :
    Option.Rel (SameWalk cf) (loadStartsLoop cf accept maxhits fuel node start st page)
      (loadStartsLoop cf accept maxhits fuel node start st' page') := by
  induction fuel generalizing node start st st' page page' with
  | zero => exact .none
  | succ fuel ih =>
    rw [loadStartsLoop, loadStartsLoop]
    by_cases hskip : node.isSkip ≠ 0
    · rw [if_pos hskip, if_pos hskip, hpage.getPagedTrieChild List.mem_cons_self]
      -- from here on both have the same page
      refine rel_bind (rel_refl (R := Eq) (fun _ => rfl) _) ?_
      rintro ⟨child, p⟩ _ rfl
      refine rel_bind (rel_refl (R := Eq) (fun _ => rfl) _) ?_
      rintro ⟨node', p'⟩ _ rfl
      exact ih (hst.push child) (.inl rfl)
    · rw [if_neg hskip, if_neg hskip]
      refine rel_bind (rel_refl (R := Eq) (fun _ => rfl) _) ?_
      rintro ok _ rfl
      dsimp only
      generalize (if ok = true then start ++ [node.val - 1] else start) = start
      rw [hst.empty]
      split
      · exact .some ⟨rfl, hst, hpage.mono fun n hn => List.mem_cons_of_mem _ hn⟩
      · refine rel_bind hst.pop ?_
        rintro ⟨n, s⟩ ⟨n', s'⟩ ⟨hn, hs, hlive⟩
        dsimp only at hn hs hlive ⊢
        subst hn
        refine ih hs (hpage.mono fun x hx => List.mem_cons_of_mem _ ?_)
        rw [hlive]
        rcases List.mem_cons.mp hx with rfl | hx
        · exact List.mem_append_right _ List.mem_cons_self
        · exact List.mem_append_left _ hx

theorem loadStarts_same {cf : PatrieConfig} {accept : ℕ → Option Bool} {fuel maxhits : ℕ}
    {st st' : PatrieState} {page page' : TriePage} (hst : SameState st st')
    (hpage : SamePage cf.trie st.live page page') :
    Option.Rel (SameWalk cf) (loadStarts cf accept fuel maxhits st page)
      (loadStarts cf accept fuel maxhits st' page') := by
  rw [loadStarts, loadStarts, hst.empty]
  split
  · exact .some ⟨rfl, hst, hpage⟩
  · refine rel_bind hst.pop ?_
    rintro ⟨n, s⟩ ⟨n', s'⟩ ⟨hn, hs, hlive⟩
    dsimp only at hn hs hlive ⊢
    subst hn
    refine loadStartsLoop_same hs (hpage.mono fun x hx => ?_)
    rw [hlive]
    rcases List.mem_cons.mp hx with rfl | hx
    · exact List.mem_append_right _ List.mem_cons_self
    · exact List.mem_append_left _ hx

/-- The PaTrie returns the same starts from a copy of a state. -/
theorem patrieGetMoreStarts_same {cf : PatrieConfig} {fuel maxhits : ℕ} {st st' : PatrieState}
    {page page' : TriePage} (hst : SameState st st')
    (hpage : SamePage cf.trie st.live page page') :
    Option.Rel (SameWalk cf) (patrieGetMoreStarts cf fuel maxhits st page)
      (patrieGetMoreStarts cf fuel maxhits st' page') := by
  rw [patrieGetMoreStarts, patrieGetMoreStarts, hst.empty, hst.matchCaseAccSens,
    hst.firstMatched, hst.key]
  split
  · exact .some ⟨rfl, hst, hpage⟩
  split
  · split
    · exact loadStarts_same hst hpage
    · exact .some ⟨rfl, hst, hpage⟩
  · refine rel_bind (rel_refl (R := Eq) (fun _ => rfl) _) ?_
    rintro key _ rfl
    rw [loadMatchingStarts, loadMatchingStarts, hst.matchCaseAccSens]
    exact loadStarts_same hst hpage

/-- A new search does not look at the buffer. -/
theorem patrieSearchSub_page (cf : PatrieConfig) (fuel : ℕ) (key : List UInt8) (m : ℤ)
    {maxhits : ℕ} (hm : maxhits ≠ 0) (page page' : TriePage) :
    patrieSearchSub cf fuel key m maxhits page' = patrieSearchSub cf fuel key m maxhits page := by
  rw [patrieSearchSub, patrieSearchSub, if_neg hm, if_neg hm]

/-! ### Handles -/

/-- Two handles in the same state of a search. -/
inductive SameHandle : StridxHandle → StridxHandle → Prop
  | refl (h : StridxHandle) : SameHandle h h
  | unsearched {h : StridxHandle} (state : h.pState = none) (page' : TriePage) :
      SameHandle h { h with page := page' }
  | resumed {h : StridxHandle} {ps ps' : PatrieState} {page' : TriePage}
      (state : h.pState = some ps) (same : SameState ps ps')
      (page : ∀ cf, h.cf = some cf → SamePage cf.trie ps.live h.page page') :
      SameHandle h { h with page := page', pState := some ps' }

theorem SameHandle.setUState {h h' : StridxHandle} (hh : SameHandle h h') (u : ℕ) :
    SameHandle { h with uState := u } { h' with uState := u } := by
  cases hh with
  | refl => exact .refl _
  | unsearched state page' => exact .unsearched (h := { h with uState := u }) state page'
  | resumed state same page => exact .resumed (h := { h with uState := u }) state same page

theorem SameHandle.setRState {h h' : StridxHandle} (hh : SameHandle h h') (r : ℕ) :
    SameHandle { h with rState := r } { h' with rState := r } := by
  cases hh with
  | refl => exact .refl _
  | unsearched state page' => exact .unsearched (h := { h with rState := r }) state page'
  | resumed state same page => exact .resumed (h := { h with rState := r }) state same page

/-- Results of a call that differ in the copy of the state only. -/
structure SameRun (r r' : StridxHandle × ℕ × List ℕ) : Prop where
  handle : SameHandle r.1 r'.1
  starts : r'.2 = r.2

theorem SameRun.refl (r : StridxHandle × ℕ × List ℕ) : SameRun r r := ⟨.refl _, rfl⟩

/-- Only the page and the copy of the PaTrie state may differ. -/
theorem SameHandle.eq_with {h h' : StridxHandle} (hh : SameHandle h h') :
    ∃ page' ps', h' = { h with page := page', pState := ps' } := by
  cases hh with
  | refl => exact ⟨h.page, h.pState, rfl⟩
  | unsearched state page' => exact ⟨page', h.pState, rfl⟩
  | resumed => exact ⟨_, _, rfl⟩

section Calls

variable {calls : Calls}

theorem uitextLoop_same {s : Sens} {text key : List UInt8} {startAdj maxhits fuel : ℕ}
    {h h' : StridxHandle} (hh : SameHandle h h') {tothits : ℕ} {start : List ℕ} :
    Option.Rel SameRun (uitextLoop calls s text key startAdj maxhits fuel h tothits start)
      (uitextLoop calls s text key startAdj maxhits fuel h' tothits start) := by
  induction fuel generalizing h h' tothits start with
  | zero => exact .none
  | succ fuel ih =>
    obtain ⟨page', ps', rfl⟩ := hh.eq_with
    rw [uitextLoop, uitextLoop]
    split
    · dsimp only
      split
      · exact .some ⟨hh, rfl⟩
      · refine rel_bind (rel_refl (R := Eq) (fun _ => rfl) _) ?_
        rintro last _ rfl
        refine rel_bind (rel_refl (R := Eq) (fun _ => rfl) _) ?_
        rintro sep _ rfl
        refine rel_bind (rel_refl (R := Eq) (fun _ => rfl) _) ?_
        rintro fixed _ rfl
        exact ih (hh.setUState _)
    · exact .some ⟨hh, rfl⟩

theorem searchUitext_same {keys : SearchKeys} {maxhits : ℕ} {h h' : StridxHandle}
    (hh : SameHandle h h') {start : List ℕ} :
    Option.Rel SameRun (searchUitext calls h keys maxhits start)
      (searchUitext calls h' keys maxhits start) := by
  obtain ⟨page', ps', rfl⟩ := hh.eq_with
  rw [searchUitext, searchUitext]
  dsimp only
  split
  · exact .some ⟨hh, rfl⟩
  · rw [uitextSubSearch, uitextSubSearch]
    dsimp only
    split
    · exact .some ⟨hh, rfl⟩
    · refine rel_bind (rel_refl (R := Eq) (fun _ => rfl) _) ?_
      rintro s _ rfl
      exact uitextLoop_same hh

theorem moreStartsLoop_same {cf : PatrieConfig} {patAdj maxhits fuel : ℕ} {h : StridxHandle}
    (hcf : h.cf = some cf) {ps ps' : PatrieState} {page' : TriePage}
    (hps : h.pState = some ps) (hst : SameState ps ps')
    (hpage : SamePage cf.trie ps.live h.page page') {tothits : ℕ} {start : List ℕ} :
    Option.Rel SameRun (moreStartsLoop calls cf patAdj maxhits fuel h ps tothits start)
      (moreStartsLoop calls cf patAdj maxhits fuel { h with page := page', pState := some ps' }
        ps' tothits start) := by
  induction fuel generalizing h ps ps' page' tothits start with
  | zero => exact .none
  | succ fuel ih =>
    rw [moreStartsLoop, moreStartsLoop]
    have hsame : ∀ {p p' : TriePage} {s s' : PatrieState}, SameState s s' →
        SamePage cf.trie s.live p p' →
        SameHandle { h with page := p, pState := some s }
          { h with page := p', pState := some s' } := by
      intro p p' s s' hs hp
      refine .resumed (h := { h with page := p, pState := some s }) rfl hs fun cf' hcf' => ?_
      rw [Option.some.inj (hcf.symm.trans hcf')] at hp
      exact hp
    split
    · refine rel_bind (patrieGetMoreStarts_same hst hpage) ?_
      rintro ⟨hits, s, p⟩ ⟨hits', s', p'⟩ ⟨hhits, hs, hp⟩
      dsimp only at hhits hs hp ⊢
      subst hhits
      split
      · exact .some ⟨hsame hs hp, rfl⟩
      · refine rel_bind (rel_refl (R := Eq) (fun _ => rfl) _) ?_
        rintro fixed _ rfl
        exact ih (h := { h with pState := some s, page := p }) hcf rfl hs hp
    · refine .some ⟨.resumed hps hst fun cf' hcf' => ?_, rfl⟩
      rw [← Option.some.inj (hcf.symm.trans hcf')]
      exact hpage

/-- A search of the PaTrie from its begin does not look at the copy. -/
theorem patrieSubSearch_same {more : StridxHandle → ℕ → List ℕ →
    Option (StridxHandle × ℕ × List ℕ)} {cf : PatrieConfig} {h : StridxHandle} {key : List UInt8}
    {startAdj maxhits : ℕ} (hm : maxhits ≠ 0) {start : List ℕ} (page' : TriePage) :
    patrieSubSearch calls more cf { h with page := page' } key startAdj maxhits start =
      patrieSubSearch calls more cf h key startAdj maxhits start := by
  rw [patrieSubSearch, patrieSubSearch, patrieSearchSub_page _ _ _ _ hm]

theorem moreFromPatrie_none {more : StridxHandle → ℕ → List ℕ →
    Option (StridxHandle × ℕ × List ℕ)} {cf : PatrieConfig} {keys : SearchKeys}
    {maxhits tothits : ℕ} {h : StridxHandle} {start : List ℕ} (hps : h.pState = none) :
    moreFromPatrie calls more cf keys maxhits h tothits start =
      (patrieSubSearch calls more cf h keys.patKey keys.uAdj (maxhits - tothits)
        (start.drop tothits)).bind fun r => r.1.pState.bind fun ps =>
          moreStartsLoop calls cf keys.pAdj maxhits (maxhits + 1) r.1 ps (tothits + r.2.1)
            (start.take tothits ++ r.2.2) := by
  rw [moreFromPatrie, hps]
  rfl

/-- **A database returns the same starts from a copy of the state of a search.** -/
theorem getMoreMatches_same (depth : ℕ) {h h' : StridxHandle} (hh : SameHandle h h')
    (maxhits : ℕ) (start : List ℕ) :
    Option.Rel SameRun (getMoreMatches calls depth h maxhits start)
      (getMoreMatches calls depth h' maxhits start) := by
  cases depth with
  | zero => exact .none
  | succ depth =>
    obtain ⟨page', ps', rfl⟩ := hh.eq_with
    rw [getMoreMatches, getMoreMatches]
    dsimp only
    split
    · exact .some ⟨hh, rfl⟩
    split
    · refine rel_bind (rel_refl (R := Eq) (fun _ => rfl) _) ?_
      rintro key _ rfl
      refine rel_bind (rel_refl (R := Eq) (fun _ => rfl) _) ?_
      rintro ⟨hits, r⟩ _ rfl
      exact .some ⟨hh.setRState r, rfl⟩
    · refine rel_bind (rel_refl (R := Eq) (fun _ => rfl) _) ?_
      rintro key _ rfl
      refine rel_bind (R := Eq) (rel_refl (R := Eq) (fun _ => rfl) (makeSearchKeys h key)) ?_
      rintro keys _ rfl
      refine rel_bind (searchUitext_same hh) ?_
      rintro ⟨h₁, tothits, start₁⟩ ⟨h₁', _⟩ ⟨hh₁, hstarts⟩
      dsimp only at hh₁ hstarts ⊢
      subst hstarts
      have hcf' : h₁'.cf = h₁.cf := by
        obtain ⟨_, _, rfl⟩ := hh₁.eq_with
        rfl
      rw [hcf']
      cases hcf : h₁.cf with
      | none => exact .some ⟨hh₁, rfl⟩
      | some cf =>
        dsimp only
        split
        next hlt =>
          cases hh₁ with
          | refl => exact rel_refl SameRun.refl _
          | unsearched state page₁ =>
            rw [moreFromPatrie_none state,
              moreFromPatrie_none (h := { h₁ with page := page₁ }) state,
              patrieSubSearch_same (h := h₁) (by omega) page₁]
            exact rel_refl SameRun.refl _
          | resumed state same page =>
            rw [moreFromPatrie, moreFromPatrie, state]
            exact moreStartsLoop_same hcf state same (page cf hcf)
        next => exact .some ⟨hh₁, rfl⟩

/-- All later calls return the same starts. -/
theorem moreSearches_same {arrays : List (List ℕ)} {h h' : StridxHandle} (hh : SameHandle h h') :
    moreSearches calls arrays h' = moreSearches calls arrays h := by
  induction arrays generalizing h h' with
  | nil => rfl
  | cons a arrays ih =>
    have hcall : Option.Rel SameRun (getMoreMatches calls 2 h a.length a)
        (getMoreMatches calls 2 h' a.length a) := getMoreMatches_same 2 hh a.length a
    rw [moreSearches, moreSearches, archGetMoreMatches, archGetMoreMatches]
    cases hr : getMoreMatches calls 2 h a.length a with
    | none =>
      rw [hr] at hcall
      cases hr' : getMoreMatches calls 2 h' a.length a with
      | none => rfl
      | some r' =>
        rw [hr'] at hcall
        contradiction
    | some r =>
      rw [hr] at hcall
      cases hr' : getMoreMatches calls 2 h' a.length a with
      | none =>
        rw [hr'] at hcall
        contradiction
      | some r' =>
        rw [hr'] at hcall
        cases hcall with
        | some hrun =>
          simp only [Option.bind_eq_bind, Option.bind_some, ih hrun.handle, hitsOf, hrun.starts]

end Calls

end Archie
