/-
Restoring a search of a database from its text.

* `Restored` — what a restored handle has in common with the original one.
* `restored_of_same` — a key that is read back as it was written gives all of it.
* `archSetStateFromString_iff` — exactly when the text restores the search.
-/
import Archie.StridxSame
import Archie.StridxState
import Archie.Uitext

namespace Archie

/-- A handle on which a search for a key has been done. -/
structure SearchDone (key : List UInt8) (h : StridxHandle) : Prop where
  keyEq : h.key = some key
  key_ne_nil : key ≠ []
  key_nul : 0 ∉ key
  key_sep : keysepCh ∉ key
  srchType : h.srchType ≠ .unset
  rState : h.rState < wordSize
  uState : h.uState < wordSize
  caseAccentSens : IsInt h.caseAccentSens
  pState : ∀ ps, h.pState = some ps → ps.Valid

/-- Another handle of the same database. -/
structure SameDatabase (h h₀ : StridxHandle) : Prop where
  idxType : h₀.idxType = h.idxType
  uiText : h₀.uiText = h.uiText
  split : h₀.split = h.split
  cf : h₀.cf = h.cf

/-- The restored handle has the search of the original one, and all later calls
return the same starts. -/
structure Restored (calls : Calls) (h h' : StridxHandle) : Prop where
  rState : h'.rState = h.rState
  uState : h'.uState = h.uState
  srchType : h'.srchType = h.srchType
  caseAccentSens : h'.caseAccentSens = h.caseAccentSens
  key : h'.key = h.key
  pState : Option.Rel SameState h.pState h'.pState
  more : ∀ arrays, moreSearches calls arrays h' = moreSearches calls arrays h

/-! ### The text -/

/-- What follows the key. -/
def stateTail : Option PatrieState → List UInt8
  | none => []
  | some ps => blank :: quoteState ps

theorem ends_stateTail (ps : Option PatrieState) : Ends (stateTail ps) := by
  cases ps with
  | none => exact .inl rfl
  | some ps => exact .inr ⟨_, rfl⟩

theorem getSearchTypeChar_spec {h : StridxHandle} (hs : h.srchType ≠ .unset) :
    ∃ c, getSearchTypeChar h = some c ∧ isSpace c = false ∧ c ≠ blank ∧
      setSearchTypeFromChar c = some h.srchType := by
  rw [getSearchTypeChar]
  cases hk : h.srchType with
  | exact => exact ⟨69, rfl, by decide, by decide, by decide⟩
  | regex => exact ⟨82, rfl, by decide, by decide, by decide⟩
  | substr => exact ⟨83, rfl, by decide, by decide, by decide⟩
  | unset => exact absurd hk hs

/-- The text of a search, and what is read from it before the key. -/
theorem archSetStateFromString_eq {key : List UInt8} {h : StridxHandle} (h₀ : StridxHandle)
    (hdone : SearchDone key h) :
    ∃ str, archGetStateString h = some str ∧ archSetStateFromString h₀ str =
      (dequoteKey (skipBlanks (key ++ stateTail h.pState))).bind fun r =>
        (readPState r.2).map fun ps =>
          { h₀ with
            rState := h.rState
            uState := h.uState
            srchType := h.srchType
            caseAccentSens := h.caseAccentSens
            key := some r.1
            pState := ps } := by
  obtain ⟨c, hchar, hspace, hblank, htype⟩ := getSearchTypeChar_spec hdone.srchType
  refine ⟨printFields h.rState h.uState c h.caseAccentSens ++ (key ++ stateTail h.pState), ?_, ?_⟩
  · rw [archGetStateString, hchar, hdone.keyEq]
    cases hps : h.pState with
    | none => simp only [Option.bind_eq_bind, Option.bind_some, stateTail, List.append_nil]
    | some ps =>
      simp only [Option.bind_eq_bind, Option.bind_some,
        patrieGetStateString_eq (hdone.pState ps hps), stateTail]
  · rw [archSetStateFromString,
      scanFields_printFields hdone.rState hdone.uState hspace hdone.caseAccentSens]
    simp only [Option.bind_eq_bind, Option.bind_some, htype, skipFields_printFields _ _ hblank]
    cases dequoteKey (skipBlanks (key ++ stateTail h.pState)) with
    | none => rfl
    | some r =>
      simp only [Option.bind_some]
      cases readPState r.2 <;> rfl

/-- The PaTrie state is read back, with memory for just the nodes in use. -/
theorem readPState_stateTail {ps : Option PatrieState} (hvalid : ∀ st, ps = some st → st.Valid) :
    readPState (stateTail ps) =
      some (ps.map fun st => { st with nelts := st.top + 1, stack := st.live }) := by
  cases ps with
  | none => rfl
  | some st =>
    rw [stateTail, readPState, if_pos rfl, patrieSetStateFromString_quoteState (hvalid st rfl)]
    rfl

theorem PatrieState.Valid.sameState {st : PatrieState} (h : st.Valid) :
    SameState st { st with nelts := st.top + 1, stack := st.live } := by
  have hlen := h.length_live
  refine ⟨h.toWellFormed, ⟨h.top_ge, by simp only; omega, hlen⟩, rfl, ?_, rfl, rfl, rfl⟩
  exact List.take_of_length_le (show st.live.length ≤ (st.top + 1).toNat by omega)

/-- A key that is read back gives the search back. -/
theorem restored_of_same (calls : Calls) {h h₀ : StridxHandle} (hdb : SameDatabase h h₀)
    (hvalid : ∀ st, h.pState = some st → st.Valid)
    (hpage : ∀ cf ps, h.cf = some cf → h.pState = some ps →
      SamePage cf.trie ps.live h.page h₀.page) :
    Restored calls h
      { h₀ with
        rState := h.rState
        uState := h.uState
        srchType := h.srchType
        caseAccentSens := h.caseAccentSens
        key := h.key
        pState := h.pState.map fun st => { st with nelts := st.top + 1, stack := st.live } } where
  rState := rfl
  uState := rfl
  srchType := rfl
  caseAccentSens := rfl
  key := rfl
  pState := by
    cases hps : h.pState with
    | none => exact .none
    | some st => exact .some (hvalid st hps).sameState
  more := by
    intro arrays
    rw [hdb.idxType, hdb.uiText, hdb.split, hdb.cf]
    refine moreSearches_same ?_
    cases hps : h.pState with
    | none =>
      have hsame := SameHandle.unsearched hps h₀.page
      rw [hps] at hsame
      exact hsame
    | some st =>
      exact .resumed hps (hvalid st hps).sameState fun cf hcf => hpage cf st hcf hps

/-! ### Reading the key -/

theorem exists_skipBlanks (s : List UInt8) :
    ∃ j, s = List.replicate j blank ++ skipBlanks s := by
  induction s with
  | nil => exact ⟨0, rfl⟩
  | cons c s ih =>
    by_cases hc : c = blank
    · obtain ⟨j, hj⟩ := ih
      refine ⟨j + 1, ?_⟩
      rw [hc, skipBlanks_blank, List.replicate_succ, List.cons_append, ← hj]
    · refine ⟨0, ?_⟩
      rw [skipBlanks, List.dropWhile_cons_of_neg (by simpa using hc), List.replicate_zero,
        List.nil_append]

/-- Two ends of a text that begin with a blank and have as many blanks are the same. -/
theorem ends_unique {a b t t' : List UInt8} (ht : Ends t) (ht' : Ends t')
    (hcount : t.count blank = t'.count blank) (h : a ++ t = b ++ t') : t = t' := by
  have key : ∀ {x t t' : List UInt8}, Ends t → t = x ++ t' → t.count blank = t'.count blank →
      t = t' := by
    intro x t t' ht heq hcount
    cases x with
    | nil => exact heq
    | cons c x =>
      -- the longer end has one blank more
      exfalso
      rcases ht with rfl | ⟨u, rfl⟩
      · exact absurd heq.symm (List.cons_ne_nil _ _)
      · rw [List.cons_append, List.cons.injEq] at heq
        rw [List.count_cons_self, heq.2, List.count_append] at hcount
        omega
  rcases List.append_eq_append_iff.mp h with ⟨x, -, hx⟩ | ⟨x, -, hx⟩
  · exact key ht hx hcount
  · exact (key ht' hx hcount.symm).symm

/-- A key that is read back from before the same end has no blank and no percent
sign. -/
theorem plain_of_read {key tail s' : List UInt8}
    (hread : dequoteKeyLoop (skipBlanks (key ++ tail)) = some (key, s')) (htail : Ends tail)
    (hcount : s'.count blank = tail.count blank) : blank ∉ key ∧ quoteCh ∉ key := by
  obtain ⟨j, hj⟩ := exists_skipBlanks (key ++ tail)
  obtain ⟨w, hw, hblank, hends, hle, hlt, -⟩ := dequoteKeyLoop_spec hread
  rw [hw, ← List.append_assoc] at hj
  obtain rfl := ends_unique htail hends hcount.symm hj
  rw [List.append_cancel_right_eq] at hj
  have hlen := congrArg List.length hj
  rw [List.length_append, List.length_replicate] at hlen
  obtain rfl : j = 0 := by omega
  rw [List.replicate_zero, List.nil_append] at hj
  refine ⟨by rw [hj]; exact hblank, fun hq => ?_⟩
  have := hlt (by rw [← hj]; exact hq)
  omega

/-- The restored PaTrie state tells where its text begins. -/
theorem count_of_readPState {ps pst : Option PatrieState} {s' : List UInt8}
    (hvalid : ∀ st, ps = some st → st.Valid) (hends : Ends s')
    (hread : readPState s' = some pst) (hsame : Option.Rel SameState ps pst) :
    s'.count blank = (stateTail ps).count blank := by
  cases hsame with
  | none =>
    rcases hends with rfl | ⟨t, rfl⟩
    · rfl
    · rw [readPState, if_pos rfl] at hread
      obtain ⟨st, -, hst⟩ := Option.map_eq_some_iff.mp hread
      contradiction
  | @some st st' hstate =>
    rcases hends with rfl | ⟨t, rfl⟩
    · have hnone := Option.some.inj hread
      contradiction
    · rw [readPState, if_pos rfl] at hread
      obtain ⟨st'', hst'', heq⟩ := Option.map_eq_some_iff.mp hread
      rw [Option.some.inj heq] at hst''
      rw [stateTail, List.count_cons_self, List.count_cons_self,
        count_patrieSetStateFromString hst'', hstate.top,
        count_patrieSetStateFromString (patrieSetStateFromString_quoteState (hvalid st rfl))]

/-- **The text of a search restores it exactly when the key has no blank and no
percent sign.** -/
theorem archSetStateFromString_iff {calls : Calls} {key : List UInt8} {h h₀ : StridxHandle}
    (hdone : SearchDone key h) (hdb : SameDatabase h h₀)
    (hpage : ∀ cf ps, h.cf = some cf → h.pState = some ps →
      SamePage cf.trie ps.live h.page h₀.page) :
    (∃ str h', archGetStateString h = some str ∧ archSetStateFromString h₀ str = some h' ∧
      Restored calls h h') ↔ blank ∉ key ∧ quoteCh ∉ key := by
  obtain ⟨str, hget, hset⟩ := archSetStateFromString_eq h₀ hdone
  constructor
  · rintro ⟨str', h', hget', hset', hrestored⟩
    obtain rfl := Option.some.inj (hget.symm.trans hget')
    rw [hset, Option.bind_eq_some_iff] at hset'
    obtain ⟨⟨k, s'⟩, hread, hrest⟩ := hset'
    obtain ⟨pst, hps, rfl⟩ := Option.map_eq_some_iff.mp hrest
    have hloop := dequoteKey_eq_some hread
    obtain ⟨-, -, -, hends, -⟩ := dequoteKeyLoop_spec hloop
    have hk : some k = some key := hrestored.key.trans hdone.keyEq
    rw [Option.some.inj hk] at hloop
    exact plain_of_read hloop (ends_stateTail _)
      (count_of_readPState hdone.pState hends hps hrestored.pState)
  · rintro ⟨hblank, hquote⟩
    have hfield : IsField key := ⟨hdone.key_ne_nil, hblank⟩
    have hread : dequoteKey (key ++ stateTail h.pState) = some (key, stateTail h.pState) := by
      obtain ⟨c, t, rfl⟩ := List.exists_cons_of_ne_nil hdone.key_ne_nil
      have hc : c ≠ blank := fun h => hblank (by rw [h]; exact List.mem_cons_self)
      rw [dequoteKey, if_neg, dequoteKeyLoop_plain hblank hquote (ends_stateTail _)]
      simp [hc]
    have hrestored := restored_of_same calls hdb hdone.pState hpage
    refine ⟨str, _, hget, ?_, hrestored⟩
    rw [hset, skipBlanks_field hfield, hread, Option.bind_some,
      readPState_stateTail hdone.pState, Option.map_some, hdone.keyEq]

/-- A handle with a search for a key and the state of the PaTrie. -/
def searchedHandle (key : List UInt8) (ps : Option PatrieState) : StridxHandle where
  idxType := .chars
  uiText := none
  split := 1
  cf := none
  page := ⟨0, 0, 0, [], 0, [], -1⟩
  key := some key
  srchType := .substr
  caseAccentSens := 3
  rState := 0
  uState := 7
  pState := ps

/-- The key `a b` is not restored: it is read as `a` and the rest as a state. -/
theorem searchedHandle_not_restored :
    ¬ ∃ str h', archGetStateString (searchedHandle [97, 32, 98] none) = some str ∧
      archSetStateFromString (searchedHandle [97, 32, 98] none) str = some h' ∧
      Restored scanCalls (searchedHandle [97, 32, 98] none) h' := by
  rintro ⟨str, h', hget, hset, -⟩
  have hstr : archGetStateString (searchedHandle [97, 32, 98] none) =
      some [48, 32, 55, 32, 83, 32, 51, 32, 97, 32, 98] := by decide +kernel
  rw [hstr, Option.some.injEq] at hget
  have hnone : archSetStateFromString (searchedHandle [97, 32, 98] none)
      [48, 32, 55, 32, 83, 32, 51, 32, 97, 32, 98] = none := by decide +kernel
  rw [← hget, hnone] at hset
  contradiction

theorem archSetStateFromString_iff_sample :
    (∃ str h', archGetStateString (searchedHandle [97] (some sampleState)) = some str ∧
      archSetStateFromString (searchedHandle [98] none) str = some h' ∧
      Restored scanCalls (searchedHandle [97] (some sampleState)) h') ↔
      blank ∉ ([97] : List UInt8) ∧ quoteCh ∉ ([97] : List UInt8) :=
  archSetStateFromString_iff
    ⟨rfl, by decide, by decide, by decide, by decide, by decide, by decide, by decide,
      fun _ hps => Option.some.inj hps ▸ sampleState_valid⟩
    ⟨rfl, rfl, rfl, rfl⟩ (fun _ _ hcf => nomatch hcf)

end Archie
