/-
An exchange client that polls a server for the sites which are newer than its last
update (`exchange/client.c`, `exchange/db_functs.c`).

The server answers with the tuples of its entries in the order of their retrieve times;
the client takes those at the front of which it has no version as recent.  Where it
resumes is a single time.

* `processTuples_eq` — the tuples that are asked for, and the latest time of all.
* `Tracked.poll`, `Tracked.insert` — an entry has been asked for, or is later than the
  time from which the next poll resumes.
* `polls_complete` — so when a poll returns no tuple, nothing is missing.
-/
import Archie.Header
import Archie.Unique

namespace Archie

/-! ### The server -/

/-- The part of an auxiliary entry that becomes a tuple; `key` is what tells the
host and the database. -/
structure ServerEntry (κ : Type) where
  key : κ
  retrieveTime : ℕ
  currentStatus : CurrentStatus
  forceUpdate : Bool
  deriving DecidableEq, Repr

variable {κ : Type}

/-- `sort_retrieve`. -/
def sortRetrieve (a b : ServerEntry κ) : ℤ :=
  if a.retrieveTime < b.retrieveTime then -1 else if a.retrieveTime > b.retrieveTime then 1 else 0

/-- The relation of the command `LISTSITES`: `>` or `<`. -/
inductive TupleRelation
  | newer
  | older
  deriving DecidableEq, Repr

/-- The test for a tuple that is sent; the times are compared as `int`. -/
def selectTuple (relation : TupleRelation) (fromdate : ℕ) (e : ServerEntry κ) : Bool :=
  (match relation with
    | .newer => decide (sint fromdate < sint e.retrieveTime)
    | .older => decide (sint fromdate > sint e.retrieveTime)) || e.forceUpdate

/-- `compose_tuples`, for the entries of the domains and databases that are asked for,
in the order in which the databases give them. -/
def composeTuples (relation : TupleRelation) (fromdate : ℕ) (entries : List (ServerEntry κ)) :
    List (ServerEntry κ) :=
  (qsort sortRetrieve (entries.filter fun e =>
    e.currentStatus ≠ .disabled ∧ e.currentStatus ≠ .notSupported)).filter
      (selectTuple relation fromdate)

/-! ### The client -/

/-- The entries of the client: retrieve time and status. -/
abbrev OwnEntries (κ : Type) := κ → Option (ℕ × CurrentStatus)

/-- A site that there is no entry of, or an older one that is not disabled or deleted. -/
def wanted (own : OwnEntries κ) (tuple : ServerEntry κ) : Bool :=
  match own tuple.key with
  | none => true
  | some (retrieveTime, status) => retrieveTime < tuple.retrieveTime ∧ status ≠ .disabled ∧
      status ≠ .delByArchie ∧ status ≠ .delByAdmin

/-- The loop of `process_tuples`, without hosts that are forced: the new list and `max_date`. -/
def processTuplesFrom (own : OwnEntries κ) :
    List (ServerEntry κ) → List (ServerEntry κ) → ℕ → List (ServerEntry κ) × ℕ
  | [], newTlist, maxDate => (newTlist, maxDate)
  | tuple :: tuples, newTlist, maxDate =>
    processTuplesFrom own tuples (if wanted own tuple then newTlist ++ [tuple] else newTlist)
      (if tuple.retrieveTime > maxDate then tuple.retrieveTime else maxDate)

/-- `process_tuples`. -/
def processTuples (own : OwnEntries κ) (tuples : List (ServerEntry κ)) : List (ServerEntry κ) × ℕ :=
  processTuplesFrom own tuples [] 0

/-- The client: the time that it has stored, its entries, and what it has asked for. -/
structure PollClient (κ : Type) where
  updateTime : ℕ
  own : OwnEntries κ
  requested : List (ServerEntry κ)

variable [DecidableEq κ]

/-- `get_sites`: each site arrives and becomes an entry. -/
def getSites (own : OwnEntries κ) (newTlist : List (ServerEntry κ)) : OwnEntries κ :=
  newTlist.foldl (fun own tuple k =>
    if k = tuple.key then some (tuple.retrieveTime, .active) else own k) own

/-- A poll of `do_client` that is answered with a list of tuples: at most `maxno` of them
are kept, unless it is 0.  Without tuples nothing is stored. -/
def doClient (maxno currTime : ℕ) (tupleList : List (ServerEntry κ)) (client : PollClient κ) :
    PollClient κ :=
  if tupleList.length = 0 then client
  else
    let tupleNum := if maxno ≠ 0 ∧ tupleList.length > maxno then maxno else tupleList.length
    let (newTlist, maxDate) := processTuples client.own (tupleList.take tupleNum)
    { updateTime := if tupleList.length ≥ maxno then maxDate else currTime
      own := getSites client.own newTlist
      requested := client.requested ++ newTlist }

/-! ### Runs -/

/-- The clock, which both sides go by, the entries of the server and the client. -/
structure PollState (κ : Type) where
  now : ℕ
  server : List (ServerEntry κ)
  client : PollClient κ

/-- The clock goes on; an entry comes in or replaces the one of its key, which leaves the
entries in a given order; or the client, which has read the clock before, polls the server. -/
inductive PollEvent (κ : Type)
  | tick (now : ℕ)
  | insert (e : ServerEntry κ) (server : List (ServerEntry κ))
  | poll (currTime : ℕ)

/-- What a poll returns. -/
def PollState.answer (s : PollState κ) : List (ServerEntry κ) :=
  composeTuples .newer s.client.updateTime s.server

/-- What an event does. -/
def PollState.next (maxno : ℕ) (s : PollState κ) : PollEvent κ → PollState κ
  | .tick now => { s with now := now }
  | .insert _ server => { s with server := server }
  | .poll currTime => { s with client := doClient maxno currTime s.answer s.client }

/-- The state after some events. -/
def PollState.run (maxno : ℕ) (s : PollState κ) (events : List (PollEvent κ)) : PollState κ :=
  events.foldl (PollState.next maxno) s

/-- The clock does not go back and fits `time_t`, a site has been retrieved before its
entry comes in, and none is disabled. -/
def PollState.Allows (s : PollState κ) : PollEvent κ → Prop
  | .tick now => s.now ≤ now ∧ now < 2147483648
  | .insert e server => e.retrieveTime ≤ s.now ∧ e.currentStatus = .active ∧
      server.Perm (e :: s.server.filter fun e' => e'.key ≠ e.key)
  | .poll currTime => currTime ≤ s.now

/-- An entry comes in later than the time that the client has stored, and the tuples that
a poll leaves out are later than those that it keeps. -/
def PollState.InTime (maxno : ℕ) (s : PollState κ) : PollEvent κ → Prop
  | .tick _ => True
  | .insert e _ => s.client.updateTime < e.retrieveTime
  | .poll _ => maxno ≠ 0 → ∀ a ∈ s.answer.take maxno, ∀ b ∈ s.answer.drop maxno,
      a.retrieveTime < b.retrieveTime

/-- All events of a run are possible. -/
def PollState.AllowsAll (maxno : ℕ) : PollState κ → List (PollEvent κ) → Prop
  | _, [] => True
  | s, event :: events => s.Allows event ∧ (s.next maxno event).AllowsAll maxno events

/-- All events of a run are in time. -/
def PollState.AllInTime (maxno : ℕ) : PollState κ → List (PollEvent κ) → Prop
  | _, [] => True
  | s, event :: events => s.InTime maxno event ∧ (s.next maxno event).AllInTime maxno events

instance (s : PollState κ) : (event : PollEvent κ) → Decidable (s.Allows event)
  | .tick _ => inferInstanceAs (Decidable (_ ∧ _))
  | .insert _ _ => inferInstanceAs (Decidable (_ ∧ _ ∧ _))
  | .poll _ => inferInstanceAs (Decidable (_ ≤ _))

instance (maxno : ℕ) (s : PollState κ) : (event : PollEvent κ) → Decidable (s.InTime maxno event)
  | .tick _ => isTrue trivial
  | .insert _ _ => inferInstanceAs (Decidable (_ < _))
  | .poll _ => inferInstanceAs (Decidable (_ → _))

instance decidableAllowsAll (maxno : ℕ) :
    (s : PollState κ) → (events : List (PollEvent κ)) → Decidable (s.AllowsAll maxno events)
  | _, [] => isTrue trivial
  | s, event :: events =>
    have := decidableAllowsAll maxno (s.next maxno event) events
    inferInstanceAs (Decidable (_ ∧ _))

instance decidableAllInTime (maxno : ℕ) :
    (s : PollState κ) → (events : List (PollEvent κ)) → Decidable (s.AllInTime maxno events)
  | _, [] => isTrue trivial
  | s, event :: events =>
    have := decidableAllInTime maxno (s.next maxno event) events
    inferInstanceAs (Decidable (_ ∧ _))

/-- Nothing has come in or been asked for. -/
def PollState.init (κ : Type) : PollState κ := ⟨0, [], ⟨0, fun _ => none, []⟩⟩

/-! ### The tuples that are asked for -/

omit [DecidableEq κ] in
theorem processTuplesFrom_eq (own : OwnEntries κ) (tuples newTlist : List (ServerEntry κ))
    (maxDate : ℕ) :
    processTuplesFrom own tuples newTlist maxDate =
      (newTlist ++ tuples.filter (wanted own),
        tuples.foldl (fun m t => max m t.retrieveTime) maxDate) := by
  induction tuples generalizing newTlist maxDate with
  | nil => rw [processTuplesFrom, List.filter_nil, List.append_nil, List.foldl_nil]
  | cons tuple tuples ih =>
    have hmax : (if tuple.retrieveTime > maxDate then tuple.retrieveTime else maxDate) =
        max maxDate tuple.retrieveTime := by
      split <;> omega
    rw [processTuplesFrom, ih, List.foldl_cons, hmax, List.filter_cons]
    split
    · rw [List.append_assoc, List.singleton_append]
    · rfl

omit [DecidableEq κ] in
/-- The new list, and the latest of the times. -/
theorem processTuples_eq (own : OwnEntries κ) (tuples : List (ServerEntry κ)) :
    processTuples own tuples =
      (tuples.filter (wanted own), tuples.foldl (fun m t => max m t.retrieveTime) 0) := by
  rw [processTuples, processTuplesFrom_eq, List.nil_append]

omit [DecidableEq κ] in
theorem foldl_max_le {tuples : List (ServerEntry κ)} {m n : ℕ} :
    tuples.foldl (fun m t => max m t.retrieveTime) m ≤ n ↔ m ≤ n ∧ ∀ t ∈ tuples,
      t.retrieveTime ≤ n := by
  induction tuples generalizing m with
  | nil => simp
  | cons t tuples ih =>
    rw [List.foldl_cons, ih, max_le_iff, List.forall_mem_cons, and_assoc]

omit [DecidableEq κ] in
theorem mem_composeTuples {fromdate : ℕ} (hfrom : fromdate < 2147483648)
    {entries : List (ServerEntry κ)}
    (hentries : ∀ e ∈ entries, e.currentStatus = .active ∧ e.retrieveTime < 2147483648)
    {e : ServerEntry κ} :
    e ∈ composeTuples .newer fromdate entries ↔
      e ∈ entries ∧ (fromdate < e.retrieveTime ∨ e.forceUpdate = true) := by
  rw [composeTuples, List.mem_filter, mem_qsort, List.mem_filter, and_assoc]
  refine and_congr_right fun he => ?_
  obtain ⟨hactive, htime⟩ := hentries e he
  rw [selectTuple, hactive, sint_natCast hfrom, sint_natCast htime]
  simp

/-! ### What is kept -/

/-- A version of the entry has been asked for that is as recent. -/
def Asked (requested : List (ServerEntry κ)) (e : ServerEntry κ) : Prop :=
  ∃ r ∈ requested, r.key = e.key ∧ e.retrieveTime ≤ r.retrieveTime

instance (requested : List (ServerEntry κ)) (e : ServerEntry κ) : Decidable (Asked requested e) :=
  inferInstanceAs (Decidable (∃ r ∈ requested, _))

omit [DecidableEq κ] in
theorem Asked.append {requested : List (ServerEntry κ)} {e : ServerEntry κ} (h : Asked requested e)
    (newTlist : List (ServerEntry κ)) : Asked (requested ++ newTlist) e := by
  obtain ⟨r, hr, hkey, htime⟩ := h
  exact ⟨r, List.mem_append_left _ hr, hkey, htime⟩

/-- What the client has of a site it has asked for, and each entry of the server has been
asked for or is later than the time that is stored. -/
structure Tracked (s : PollState κ) : Prop where
  clock : s.now < 2147483648
  updateTime : s.client.updateTime ≤ s.now
  server : ∀ e ∈ s.server, e.currentStatus = .active ∧ e.retrieveTime ≤ s.now
  own : ∀ k t status, s.client.own k = some (t, status) →
    status = .active ∧ ∃ r ∈ s.client.requested, r.key = k ∧ t ≤ r.retrieveTime
  asked : ∀ e ∈ s.server, s.client.updateTime < e.retrieveTime ∨ Asked s.client.requested e

section

variable {s : PollState κ}

omit [DecidableEq κ] in
theorem Tracked.mem_answer (h : Tracked s) {e : ServerEntry κ} :
    e ∈ s.answer ↔ e ∈ s.server ∧ (s.client.updateTime < e.retrieveTime ∨ e.forceUpdate = true) :=
  mem_composeTuples (lt_of_le_of_lt h.updateTime h.clock) fun e he =>
    ⟨(h.server e he).1, lt_of_le_of_lt (h.server e he).2 h.clock⟩

/-- The entries that arrive are among those asked for. -/
theorem getSites_own {own : OwnEntries κ} {requested newTlist : List (ServerEntry κ)}
    (hown : ∀ k t status, own k = some (t, status) →
      status = .active ∧ ∃ r ∈ requested, r.key = k ∧ t ≤ r.retrieveTime) :
    ∀ k t status, getSites own newTlist k = some (t, status) →
      status = .active ∧ ∃ r ∈ requested ++ newTlist, r.key = k ∧ t ≤ r.retrieveTime := by
  rw [getSites]
  induction newTlist generalizing own requested with
  | nil => simpa using hown
  | cons tuple newTlist ih =>
    rw [List.foldl_cons, ← List.singleton_append, ← List.append_assoc]
    refine ih fun k t status hk => ?_
    split at hk
    next hkey =>
      obtain ⟨rfl, rfl⟩ := Prod.mk.inj (Option.some.inj hk)
      exact ⟨rfl, tuple, by simp, hkey.symm, le_rfl⟩
    next =>
      obtain ⟨hactive, r, hr, hrk⟩ := hown k t status hk
      exact ⟨hactive, r, List.mem_append_left _ hr, hrk⟩

omit [DecidableEq κ] in
/-- A tuple that is processed has been asked for then, if it was not before. -/
theorem Tracked.asked_processed (h : Tracked s) {tuples : List (ServerEntry κ)} {e : ServerEntry κ}
    (he : e ∈ tuples) : Asked (s.client.requested ++ tuples.filter (wanted s.client.own)) e := by
  by_cases hwanted : wanted s.client.own e = true
  · exact ⟨e, List.mem_append_right _ (List.mem_filter.mpr ⟨he, hwanted⟩), rfl, le_rfl⟩
  · rw [wanted] at hwanted
    cases hown : s.client.own e.key with
    | none =>
      rw [hown] at hwanted
      exact absurd rfl hwanted
    | some entry =>
      obtain ⟨t, status⟩ := entry
      rw [hown] at hwanted
      obtain ⟨rfl, r, hr, hkey, htime⟩ := h.own _ _ _ hown
      -- The entry of the client is active, so it is as recent.
      have hle : e.retrieveTime ≤ t := by
        simpa using hwanted
      exact ⟨r, List.mem_append_left _ hr, hkey, hle.trans htime⟩

/-- **A poll** that leaves out only later tuples loses track of no entry. -/
theorem Tracked.poll (h : Tracked s) {maxno currTime : ℕ} (hcurr : currTime ≤ s.now)
    (htie : s.InTime maxno (.poll currTime)) : Tracked (s.next maxno (.poll currTime)) := by
  rw [PollState.next, doClient]
  split
  next => exact h
  next hne =>
    simp only [processTuples_eq]
    set tupleNum := if maxno ≠ 0 ∧ s.answer.length > maxno then maxno else s.answer.length with hnum
    -- Times of tuples are times of entries.
    have htimes : ∀ e ∈ s.answer, e.retrieveTime ≤ s.now :=
      fun e he => (h.server e (h.mem_answer.mp he).1).2
    have hmax : (s.answer.take tupleNum).foldl (fun m t => max m t.retrieveTime) 0 ≤ s.now :=
      foldl_max_le.mpr ⟨Nat.zero_le _, fun t ht => htimes t (List.mem_of_mem_take ht)⟩
    refine ⟨h.clock, ?_, h.server, getSites_own h.own, fun e he => ?_⟩
    · dsimp only
      split
      · exact hmax
      · exact hcurr
    · dsimp only
      by_cases hsel : e ∈ s.answer
      · rw [← List.take_append_drop tupleNum s.answer, List.mem_append] at hsel
        rcases hsel with hkept | hleft
        · exact Or.inr (h.asked_processed hkept)
        · -- It is left out, so it is later than all that are kept.
          have hcut : maxno ≠ 0 ∧ s.answer.length > maxno := by
            by_contra hall
            rw [hnum, if_neg hall, List.drop_length] at hleft
            exact absurd hleft List.not_mem_nil
          rw [hnum, if_pos hcut] at hleft ⊢
          have hlater := fun a ha => htie hcut.1 a ha e hleft
          have hfirst : ∃ a, a ∈ s.answer.take maxno := by
            refine List.exists_mem_of_ne_nil _ fun hnil => ?_
            rcases List.take_eq_nil_iff.mp hnil with h0 | h0
            · exact hcut.1 h0
            · exact hne (by rw [h0]; rfl)
          obtain ⟨a, ha⟩ := hfirst
          have hpos := hlater a ha
          have hlt : (s.answer.take maxno).foldl (fun m t => max m t.retrieveTime) 0 ≤
              e.retrieveTime - 1 :=
            foldl_max_le.mpr ⟨Nat.zero_le _, fun t ht => Nat.le_sub_one_of_lt (hlater t ht)⟩
          rw [if_pos (le_of_lt hcut.2)]
          exact Or.inl (by omega)
      · rcases h.asked e he with hlate | hasked
        · exact absurd (h.mem_answer.mpr ⟨he, Or.inl hlate⟩) hsel
        · exact Or.inr (hasked.append _)

/-- **An entry that comes in** in time is later than the time stored. -/
theorem Tracked.insert (h : Tracked s) {maxno : ℕ} {e : ServerEntry κ}
    {server : List (ServerEntry κ)}
    (hallows : s.Allows (.insert e server)) (htime : s.InTime maxno (.insert e server)) :
    Tracked (s.next maxno (.insert e server)) := by
  obtain ⟨hpast, hactive, hperm⟩ := hallows
  have hmem : ∀ e' ∈ server, e' = e ∨ e' ∈ s.server := by
    intro e' he'
    rcases List.mem_cons.mp (hperm.mem_iff.mp he') with rfl | he'
    · exact Or.inl rfl
    · exact Or.inr (List.mem_filter.mp he').1
  refine ⟨h.clock, h.updateTime, fun e' he' => ?_, h.own, fun e' he' => ?_⟩
  · rcases hmem e' he' with rfl | he'
    · exact ⟨hactive, hpast⟩
    · exact h.server e' he'
  · rcases hmem e' he' with rfl | he'
    · exact Or.inl htime
    · exact h.asked e' he'

theorem Tracked.next (h : Tracked s) {maxno : ℕ} {event : PollEvent κ} (hallows : s.Allows event)
    (htime : s.InTime maxno event) : Tracked (s.next maxno event) := by
  cases event with
  | tick now =>
    exact ⟨hallows.2, h.updateTime.trans hallows.1,
      fun e he => ⟨(h.server e he).1, (h.server e he).2.trans hallows.1⟩, h.own, h.asked⟩
  | insert e server => exact h.insert hallows htime
  | poll currTime => exact h.poll hallows htime

/-- A run loses track of no entry. -/
theorem Tracked.run (h : Tracked s) {maxno : ℕ} {events : List (PollEvent κ)}
    (hallows : s.AllowsAll maxno events) (htime : s.AllInTime maxno events) :
    Tracked (s.run maxno events) := by
  induction events generalizing s with
  | nil => exact h
  | cons event events ih => exact ih (h.next hallows.1 htime.1) hallows.2 htime.2

end

omit [DecidableEq κ] in
theorem tracked_init : Tracked (PollState.init κ) where
  clock := Nat.zero_lt_succ _
  updateTime := le_rfl
  server e he := absurd he List.not_mem_nil
  own k t status h := absurd h (by simp [PollState.init])
  asked e he := absurd he List.not_mem_nil

/-- **No site is lost**: after a run in time, a poll that returns no tuple leaves no entry of
the server of which a version as recent has not been asked for. -/
theorem polls_complete {maxno : ℕ} {events : List (PollEvent κ)}
    (hallows : (PollState.init κ).AllowsAll maxno events)
    (htime : (PollState.init κ).AllInTime maxno events)
    (hnone : ((PollState.init κ).run maxno events).answer = []) :
    ∀ e ∈ ((PollState.init κ).run maxno events).server,
      Asked ((PollState.init κ).run maxno events).client.requested e := by
  intro e he
  have h := tracked_init.run hallows htime
  rcases h.asked e he with hlate | hasked
  · -- A later entry would have been in the answer.
    have hmem := h.mem_answer.mpr ⟨he, Or.inl hlate⟩
    rw [hnone] at hmem
    exact absurd hmem List.not_mem_nil
  · exact hasked

/-! ### Two runs -/

/-- Three sites, of which a poll takes two at most. -/
def sampleEntry (key time : ℕ) : ServerEntry ℕ := ⟨key, time, .active, false⟩

def sampleEvents : List (PollEvent ℕ) :=
  [.tick 10, .insert (sampleEntry 1 5) [sampleEntry 1 5],
    .insert (sampleEntry 2 7) [sampleEntry 1 5, sampleEntry 2 7],
    .insert (sampleEntry 3 9) [sampleEntry 3 9, sampleEntry 1 5, sampleEntry 2 7], .poll 10,
      .tick 20, .poll 20]

theorem polls_complete_sample : sampleEntry 2 7 ∈ ((PollState.init ℕ).run 2 sampleEvents).server ∧
    Asked ((PollState.init ℕ).run 2 sampleEvents).client.requested (sampleEntry 2 7) := by
  have hmem : sampleEntry 2 7 ∈ ((PollState.init ℕ).run 2 sampleEvents).server := by decide +kernel
  exact ⟨hmem, polls_complete (by decide +kernel) (by decide +kernel) (by decide +kernel) _ hmem⟩

/-- A site that was retrieved before a poll and comes in after it is never asked for. -/
def lateEvents : List (PollEvent ℕ) :=
  [.tick 10, .insert (sampleEntry 1 5) [sampleEntry 1 5], .poll 10, .tick 20,
    .insert (sampleEntry 2 8) [sampleEntry 1 5, sampleEntry 2 8], .poll 20]

theorem not_polls_complete : (PollState.init ℕ).AllowsAll 2 lateEvents ∧
    ((PollState.init ℕ).run 2 lateEvents).answer = [] ∧
      ∃ e ∈ ((PollState.init ℕ).run 2 lateEvents).server,
        ¬ Asked ((PollState.init ℕ).run 2 lateEvents).client.requested e := by
  decide +kernel

end Archie
