/-
The search that the Prospero server makes for a request (`parchie_search_files_db`).

A `.*` at the beginning or the end of a regular expression is stripped, and a less expensive search
is made if it seems to do: `archQuery` gets a substring and 1 for `case_sens`, which is `CMP_CIAS`,
or finds one itself by `reg2sci`.  A request of type `S_E_X_REGEX` is searched for as a substring
whatever its characters.

* `stripStars`, `chooseType`, `performedSearch` — what `parchie_search_files_db` does.
* `Remains` — what `stripStars` leaves of a regular expression.
* `searchRight_iff` — when the search that is made finds what the regular expression matches.
-/
import Archie.EgrepParts
import Archie.Layout
import Archie.RegexSub

namespace Archie

/-! ### The functions -/

/-- The search methods `search_sel_t`. -/
inductive SearchSel
  | fullRegex
  | subCaseStr
  | subNcaseStr
  | exact
  | eFullRegex
  | eSubCaseStr
  | eSubNcaseStr
  | zubNcase
  | eZubNcase
  | subKase
  | eSubKase
  | xRegex
  | eXRegex
  | noattribExact
  deriving DecidableEq, Repr

/-- The four regular-expression types. -/
def SearchSel.isRegex (sel : SearchSel) : Bool :=
  sel = .fullRegex || sel = .eFullRegex || sel = .xRegex || sel = .eXRegex

/-- `.*`. -/
def dotStar : List UInt8 := [46, 42]

/-- A leading and a trailing `.*` are stripped; none, if nothing is left and no search is made.  The
trailing one is looked for at `slen - 2`, where `slen` is the length before. -/
def stripStars (searchStr : List UInt8) : Option (List UInt8) :=
  let slen := searchStr.length
  if slen < 2 then some searchStr
  else
    let searchStr := if searchStr.take 2 = dotStar then searchStr.drop 2 else searchStr
    if searchStr = [] then none
    else if searchStr.drop (slen - 2) = dotStar then
      let searchStr := searchStr.take (slen - 2)
      if searchStr = [] then none else some searchStr
    else some searchStr

/-- The characters that `strpbrk` looks for: `\^$.,[]<>*+?|(){}/`. -/
def specials : List UInt8 :=
  [92, 94, 36, 46, 44, 91, 93, 60, 62, 42, 43, 63, 124, 40, 41, 123, 125, 47]

/-- `strpbrk` returns `NULL`. -/
def noSpecial (searchStr : List UInt8) : Bool := searchStr.all fun c => c ∉ specials

/-- `curr_type`: a less expensive search method. -/
def chooseType (origType : SearchSel) (searchStr : List UInt8) : SearchSel :=
  let currType :=
    if origType = .fullRegex && noSpecial searchStr then .subCaseStr
    else if origType = .eFullRegex && noSpecial searchStr then .eSubCaseStr
    else origType
  if origType = .xRegex && noSpecial searchStr then .subKase
  -- the second test was to be of the characters
  else if origType = .eXRegex && origType = .eXRegex then .eSubKase
  else currType

/-- The arguments of the last call of `archQuery`, if an exact search has hits or not. -/
def lastQuery (exactHits : Bool) (currType : SearchSel) (searchStr : List UInt8) : QueryArgs :=
  match currType with
  | .eFullRegex | .eXRegex => if exactHits then ⟨searchStr, .exact, 0⟩ else ⟨searchStr, .regex, 0⟩
  | .eSubCaseStr | .eSubKase => if exactHits then ⟨searchStr, .exact, 0⟩ else ⟨searchStr, .sub, 1⟩
  | .eSubNcaseStr | .eZubNcase =>
    if exactHits then ⟨searchStr, .exact, 0⟩ else ⟨searchStr, .sub, 0⟩
  | .exact | .noattribExact => ⟨searchStr, .exact, 0⟩
  | .xRegex | .fullRegex => ⟨searchStr, .regex, 0⟩
  | .subKase | .subCaseStr => ⟨searchStr, .sub, 1⟩
  | .zubNcase | .subNcaseStr => ⟨searchStr, .sub, 0⟩

/-- `parchie_search_files_db` up to the last call of `archQuery`; none, if there is none. -/
def parchieSearchFilesDb (exactHits : Bool) (origType : SearchSel) (searchStr : List UInt8) :
    Option QueryArgs :=
  if searchStr = [] then none
  else
    (if origType.isRegex then stripStars searchStr else some searchStr).map fun searchStr =>
      lastQuery exactHits (chooseType origType searchStr) searchStr

section

-- Whether there is something other than 0 where a character above 127 is looked up.
variable (outside : UInt8 → Bool)

/-- How many characters `reg2sci` writes to `dest`, with the NUL at the end. -/
def reg2sciWrites : List UInt8 → ℕ
  | [] => 1
  | c :: s =>
    if c = 91 then
      match s with
      | a :: b :: z :: s =>
        if z ≠ 93 then 0
        else if !isAlpha a || !isAlpha b || asciiLower a != asciiLower b then 0
        else reg2sciWrites s + 1
      | _ => 0
    else if c = 92 then
      match s with
      | [] => 0
      | _ :: s => reg2sciWrites s + 1
    else if isOperator outside c then 0
    else reg2sciWrites s + 1

/-- The size of `output` in `archQuery`. -/
def outputSize : ℕ := 100

/-- The search that `archQuery` makes; none, if it writes behind `output`. -/
def archQuerySearch (q : QueryArgs) : Option QueryArgs :=
  if q.type = .regex ∧ outputSize < reg2sciWrites outside q.qry then none
  else some (chooseSearch outside q)

/-- The search that is made for a request in the end, when there is no exact hit. -/
def performedSearch (origType : SearchSel) (searchStr : List UInt8) : Option QueryArgs :=
  (parchieSearchFilesDb false origType searchStr).bind (archQuerySearch outside)

end

/-- A search in the strings of the anonymous FTP database, which are indexed by characters, has a
string as a hit.  `archSearchRegex` ignores `case_sens`, and reads regular expressions as egrep
does. -/
def QueryArgs.Hits (q : QueryArgs) (t : List UInt8) : Prop :=
  match q.type with
  | .exact => ∃ sens, sensOfCode q.caseSens = some sens ∧ Matches .chars .exact sens.fold q.qry t
  | .sub => ∃ sens, sensOfCode q.caseSens = some sens ∧ Matches .chars .substr sens.fold q.qry t
  | .regex => ∃ e, Spells .whole q.qry e ∧ e.Found t

/-- The search that is made for a request finds the stored strings in which the regular expression
matches. -/
def SearchRight (outside : UInt8 → Bool) (origType : SearchSel) (r : List UInt8)
    (e : Regex UInt8) : Prop :=
  ∃ q, performedSearch outside origType r = some q ∧
    ∀ t, StoredString t → (q.Hits t ↔ e.Found t)

/-- Characters that one comparison takes for the same are the same for another. -/
def SameForms (fold fold' : UInt8 → UInt8) (c : UInt8) : Prop :=
  ∀ d, fold d = fold c → fold' d = fold' c

/-- No stored string matches. -/
def FoundNowhere (e : Regex UInt8) : Prop := ∀ t, StoredString t → ¬ e.Found t

/-- **The condition** on what is left of a regular expression.  A substring has to be a row of
characters that stand for themselves and have no other case; what `reg2sci` accepts has to have each
letter with its other case, and no accents. -/
def ChoiceFits (outside : UInt8 → Bool) (origType : SearchSel) (s : List UInt8)
    (e : Regex UInt8) : Prop :=
  if origType = .eXRegex ∨ noSpecial s = true then
    (∀ c ∈ s, c ∉ operators ∧ SameForms (Sens.fold .cias) id c) ∨ (10 ∈ s ∧ FoundNowhere e)
  else
    reg2sciWrites outside s ≤ outputSize ∧
      if (reg2sci outside s).isSome then
        bothCases s = true ∧ ∀ c ∈ s, SameForms (Sens.fold .ciai) asciiLower c
      else (∃ e', Spells .whole s e') ∨ FoundNowhere e

/-! ### Two comparisons -/

theorem fold_mem_iff (sens : Sens) (c : UInt8) : sens.fold c ∈ [0, 10] ↔ c ∈ [0, 10] := by
  refine forall_uint8 (P := fun c => sens.fold c ∈ [0, 10] ↔ c ∈ [0, 10]) ?_ c
  cases sens <;> decide +kernel

theorem fold_asciiLower (c : UInt8) : Sens.fold .ciai (asciiLower c) = Sens.fold .ciai c :=
  forall_uint8 (P := fun c => Sens.fold .ciai (asciiLower c) = Sens.fold .ciai c)
    (by decide +kernel) c

theorem fold_eq_of_asciiLower_eq {c d : UInt8} (h : asciiLower c = asciiLower d) :
    Sens.fold .ciai c = Sens.fold .ciai d := by
  rw [← fold_asciiLower c, h, fold_asciiLower]

/-- An operator is no form of `a`. -/
theorem fold_operator_ne {c : UInt8} (hc : c ∈ operators) : Sens.fold .cias c ≠ Sens.fold .cias 97 := by
  have hall : ∀ c ∈ operators, Sens.fold .cias c ≠ Sens.fold .cias 97 := by decide +kernel
  exact hall c hc

theorem not_line_of_fold_infix {sens : Sens} {s t : List UInt8} (ht : StoredString t)
    (h : s.map sens.fold <:+: t.map sens.fold) : 10 ∉ s := by
  intro hmem
  obtain ⟨c, hc, hline⟩ := List.mem_map.mp (h.subset (List.mem_map_of_mem hmem))
  have hc' : c ∈ [0, 10] := by
    rw [← fold_mem_iff sens c, hline, fold_mem_iff]
    decide
  exact absurd hc' (by simpa [keysepCh] using ht.chars c hc)

section

variable {fold fold' : UInt8 → UInt8}

theorem map_eq_of_coarse (hcoarse : ∀ c d, fold' c = fold' d → fold c = fold d) {s m : List UInt8}
    (h : s.map fold' = m.map fold') : s.map fold = m.map fold := by
  rw [← List.forall₂_eq_eq_eq, List.forall₂_map_left_iff, List.forall₂_map_right_iff] at h ⊢
  exact h.imp hcoarse

theorem map_eq_of_sameForms {s m : List UInt8} (hs : ∀ c ∈ s, SameForms fold fold' c)
    (h : s.map fold = m.map fold) : s.map fold' = m.map fold' := by
  rw [← List.forall₂_eq_eq_eq, List.forall₂_map_left_iff, List.forall₂_map_right_iff] at h ⊢
  refine ((List.forall₂_and_left _ _).mpr ⟨hs, h⟩).imp ?_
  intro c d hcd
  exact (hcd.1 d hcd.2.symm).symm

/-- A substring is found by both comparisons in the same strings if its characters have the same
forms. -/
theorem infix_iff_of_sameForms (hcoarse : ∀ c d, fold' c = fold' d → fold c = fold d)
    {s : List UInt8} (hs : ∀ c ∈ s, SameForms fold fold' c) (t : List UInt8) :
    s.map fold <:+: t.map fold ↔ s.map fold' <:+: t.map fold' := by
  rw [List.infix_map_iff, List.infix_map_iff]
  constructor
  · rintro ⟨m, hm, heq⟩
    exact ⟨m, hm, map_eq_of_sameForms hs heq⟩
  · rintro ⟨m, hm, heq⟩
    exact ⟨m, hm, map_eq_of_coarse hcoarse heq⟩

/-- If it is found in the same strings, it has the same forms: otherwise another form stands in one
of them. -/
theorem sameForms_of_infix_iff (hsep : ∀ c, fold c ∈ [0, 10] ↔ c ∈ [0, 10]) {s : List UInt8}
    (hs : ∀ c ∈ s, c ∉ [0, 10])
    (hsame : ∀ t, StoredString t → s.map fold <:+: t.map fold → s.map fold' <:+: t.map fold') :
    ∀ c ∈ s, SameForms fold fold' c := by
  intro c hc d hd
  set other : UInt8 → UInt8 := fun x => if x = c then d else x with hother
  have hfold : ∀ x, fold (other x) = fold x := by
    intro x
    rw [hother]
    by_cases hx : x = c
    · simp only [hx, if_true, hd]
    · simp only [if_neg hx]
  have hmap : (s.map other).map fold = s.map fold := by
    rw [List.map_map]
    exact List.map_congr_left fun x _ => hfold x
  have hstored : StoredString (s.map other) := by
    refine storedString_of_forall ?_ ?_
    · rw [ne_eq, List.map_eq_nil_iff]
      exact List.ne_nil_of_mem hc
    · intro y hy
      obtain ⟨x, hx, rfl⟩ := List.mem_map.mp hy
      rw [← hsep, hfold, hsep]
      exact hs x hx
  have hinfix := hsame _ hstored (hmap ▸ List.infix_rfl)
  have heq : s.map fold' = (s.map other).map fold' := hinfix.eq_of_length (by simp)
  rw [List.map_map] at heq
  have hc' := List.map_inj_left.mp heq c hc
  simpa [hother] using hc'.symm

end

/-! ### What is left of a regular expression -/

/-- What `stripStars` leaves of a text, where `s₀` is found wherever the whole is: operators that
repeated the leading `.*` are left over, or the `\` before a dot. -/
inductive Remains (s₀ : List UInt8) : List UInt8 → Prop
  | all : Remains s₀ s₀
  | repeated {c ops} (hops : ∀ d ∈ c :: ops, IsRepeat d) : Remains s₀ (c :: (ops ++ s₀))
  | escape : Remains s₀ (s₀ ++ [92])

theorem Remains.eq_or_lt {s₀ s : List UInt8} (h : Remains s₀ s) : s = s₀ ∨ s₀.length < s.length := by
  cases h with
  | all => exact Or.inl rfl
  | repeated hops =>
    right
    rw [List.length_cons, List.length_append]
    omega
  | escape =>
    right
    rw [List.length_append]
    exact Nat.lt_succ_self _

theorem Spells.whole_start {s : List UInt8} {e : Regex UInt8} (h : Spells .whole s e) {c : UInt8}
    {t : List UInt8} (hs : s = c :: t) : ¬ IsRepeat c := by
  intro hc
  cases h with
  | branch h => exact not_isAtomStart_of_isRepeat hc (h.branch_start hs)
  | @alt b b' f g d h hd h' =>
    cases b with
    | nil =>
      obtain ⟨rfl, -⟩ := List.cons.inj hs
      rcases hd with rfl | rfl <;> exact absurd hc (by decide)
    | cons d' b =>
      obtain ⟨rfl, -⟩ := List.cons.inj hs
      exact not_isAtomStart_of_isRepeat hc (h.branch_start rfl)

/-- What is left is a regular expression only if nothing is left over. -/
theorem Remains.eq_of_spells {s₀ s : List UInt8} (h : Remains s₀ s) {e₀ e : Regex UInt8}
    (h₀ : Spells .whole s₀ e₀) (hs : Spells .whole s e) : s = s₀ := by
  cases h with
  | all => rfl
  | repeated hops => exact absurd (hops _ List.mem_cons_self) (hs.whole_start rfl)
  | escape => exact absurd rfl (hs.ne_backslash s₀ (h₀.scan 0))

/-- The text of a row is all that is left. -/
theorem Remains.eq_of_plain {s₀ s : List UInt8} (h : Remains s₀ s) (hs : ∀ c ∈ s, c ∉ operators) :
    s = s₀ := by
  cases h with
  | all => rfl
  | @repeated c ops hops =>
    have hc : IsRepeat c := hops c List.mem_cons_self
    refine absurd ?_ (hs c List.mem_cons_self)
    simp only [IsRepeat, List.mem_cons, List.not_mem_nil, or_false] at hc
    rcases hc with rfl | rfl | rfl <;> decide
  | escape => exact absurd (by decide) (hs 92 (List.mem_append_right s₀ List.mem_cons_self))

theorem stripStars_eq_some {r s : List UInt8} (hr : r ≠ []) (h : stripStars r = some s) :
    s ≠ [] ∧ (s = r ∨ r = 46 :: 42 :: s ∨ r = s ++ [46, 42]) := by
  simp only [stripStars] at h
  by_cases hlen : r.length < 2
  · rw [if_pos hlen] at h
    obtain rfl := Option.some.inj h
    exact ⟨hr, Or.inl rfl⟩
  rw [if_neg hlen] at h
  by_cases hfront : r.take 2 = dotStar
  · simp only [if_pos hfront] at h
    split_ifs at h with hnil hback
    · -- The tail of what is left, where the text was longer, is empty.
      have hshort : r.length ≤ 2 + (r.length - 2) := by omega
      rw [List.drop_drop, List.drop_eq_nil_of_le hshort] at hback
      exact absurd hback (by decide)
    · obtain rfl := Option.some.inj h
      refine ⟨hnil, Or.inr (Or.inl ?_)⟩
      have hsplit := List.take_append_drop 2 r
      rw [hfront] at hsplit
      exact hsplit.symm
  · simp only [if_neg hfront, if_neg hr] at h
    split_ifs at h with hback hnil
    · obtain rfl := Option.some.inj h
      refine ⟨hnil, Or.inr (Or.inr ?_)⟩
      have hsplit := List.take_append_drop (r.length - 2) r
      rw [hback] at hsplit
      exact hsplit.symm
    · obtain rfl := Option.some.inj h
      exact ⟨hr, Or.inl rfl⟩

/-- **What is left** of a regular expression, but for an operator or a `\`, is found in the same
texts. -/
theorem stripStars_spells {r s : List UInt8} (hr : r ≠ []) (h : stripStars r = some s)
    {e : Regex UInt8} (hspells : Spells .whole r e) :
    ∃ s₀ e₀, Spells .whole s₀ e₀ ∧ (∀ t, e.Found t ↔ e₀.Found t) ∧ Remains s₀ s := by
  rcases (stripStars_eq_some hr h).2 with rfl | rfl | rfl
  · exact ⟨s, e, hspells, fun _ => Iff.rfl, .all⟩
  · obtain ⟨ops, u, e', rfl, hops, hu, hfound⟩ := hspells.drop_start
    refine ⟨u, e', hu, hfound, ?_⟩
    cases ops with
    | nil => exact .all
    | cons c ops => exact .repeated hops
  · obtain ⟨u, e', hu, hu', hext⟩ := hspells.drop_end rfl rfl
    refine ⟨u, e', hu', hext.found_iff, ?_⟩
    rcases hu with rfl | rfl
    · exact .all
    · exact .escape

/-- No character of a regular expression is NUL. -/
theorem Spells.zero_not_mem {lvl : Level} {s : List UInt8} {e : Regex UInt8} (h : Spells lvl s e) :
    0 ∉ s := by
  induction h with
  | @char c hc =>
    intro hmem
    rw [← List.mem_singleton.mp hmem] at hc
    exact hc (by decide)
  | @escape c hc => simpa using hc.1.symm
  | any | lineStart | lineEnd | nil => decide
  | @brackets x s hx hs | @complement x s hx hs =>
    have hx0 : 0 ≠ x := by
      rintro rfl
      exact hx (by decide)
    have hs0 : 0 ∉ s := fun h => hs 0 h (by decide)
    simp [hx0, hs0]
  | group h ih | star h ih | plus h ih | opt h ih => simpa using ih
  | atom h ih | branch h ih => exact ih
  | cons h h' ih ih' => simp [ih, ih']
  | @alt s s' e e' c h hc h' ih ih' =>
    have hc0 : 0 ≠ c := by rcases hc with rfl | rfl <;> decide
    simp [ih, ih', hc0]

/-! ### A substring search -/

/-- A row of characters that stand for themselves is found where it occurs. -/
theorem found_plain_iff {s : List UInt8} {e : Regex UInt8} (hs : ∀ c ∈ s, c ∉ operators)
    (h : Spells .whole s e) (t : List UInt8) : e.Found t ↔ s <:+: t := by
  have hrow : IsRow s := fun c hc => Or.inl (hs c hc)
  rw [h.unique (spells_row hrow)]
  have hmatch : ∀ l m r, (Regex.seq ((s.map rowSet).map .set)).Matches l m r ↔ s = m := by
    intro l m r
    rw [Regex.matches_row_iff, List.forall₂_map_left_iff, ← List.forall₂_eq_eq_eq]
    constructor
    all_goals
      intro h
      refine ((List.forall₂_and_left _ _).mpr ⟨hs, h⟩).imp ?_
      rintro c d ⟨hc, hd⟩
      have hdot : c ≠ 46 := fun h => hc (by rw [h]; decide)
      simp only [rowSet, if_neg hdot, beq_iff_eq] at hd ⊢
      exact hd.symm
  constructor
  · rintro ⟨l, m, r, rfl, hm⟩
    rw [(hmatch l m r).mp hm]
    exact ⟨l, r, rfl⟩
  · rintro ⟨l, r, rfl⟩
    exact ⟨l, s, r, rfl, (hmatch l s r).mpr rfl⟩

/-- A row with a dot is found where another character stands for the dot. -/
theorem found_row {s : List UInt8} {e : Regex UInt8} (hs : IsRow s) (h : Spells .whole s e) :
    e.Found (s.map fun c => if c = 46 then 97 else c) := by
  rw [h.unique (spells_row hs)]
  refine ⟨[], _, [], by simp; rfl, ?_⟩
  rw [Regex.matches_row_iff, List.forall₂_map_left_iff, List.forall₂_map_right_iff]
  refine List.forall₂_same.mpr ?_
  intro c hc
  by_cases hdot : c = 46
  · subst hdot
    decide
  · simp [rowSet, if_neg hdot]

/-- Where a regular expression matches in its own text, it matches in a string that is shorter, or
has no more characters and no dot. -/
theorem exists_found_not_infix {s₀ s : List UInt8} {e₀ : Regex UInt8} (h₀ : Spells .whole s₀ e₀)
    (hrest : Remains s₀ s) (hs : StoredString s) (hfound : e₀.Found s) {c : UInt8} (hc : c ∈ s)
    (hop : c ∈ operators) : ∃ t, StoredString t ∧ e₀.Found t ∧
      ¬ s.map (Sens.fold .cias) <:+: t.map (Sens.fold .cias) := by
  obtain ⟨l, m, r, hsplit, hm⟩ := hfound
  obtain ⟨m', hshort, hlen⟩ := h₀.shorten hm
  have hle : s₀.length ≤ s.length := by
    rcases hrest.eq_or_lt with rfl | hlt
    · exact Nat.le_refl _
    · exact Nat.le_of_lt hlt
  have hstored : ∀ d ∈ s, d ∉ [0, 10] := fun d hd => by simpa [keysepCh] using hs.chars d hd
  rcases eq_or_ne m' [] with rfl | hne
  · -- The empty string is matched beside a character.
    have hm : m = [] := not_not.mp fun h => hshort.ne_nil h rfl
    subst hm
    have hfound : e₀.Found [97] := by
      by_cases hl : l = []
      · have hr : r ≠ [] := by
          rintro rfl
          exact hs.ne_nil (by simpa [hl] using hsplit)
        exact ⟨[], [], [97], rfl, hshort.stands [] [97] (fun _ => rfl) fun h => absurd h hr⟩
      · exact ⟨[97], [], [], rfl, hshort.stands [97] [] (fun h => absurd h hl) fun _ => rfl⟩
    refine ⟨[97], storedString_of_forall (by simp) (by decide +kernel), hfound, ?_⟩
    intro hinfix
    have hmem : Sens.fold .cias c ∈ [(97 : UInt8)].map (Sens.fold .cias) :=
      hinfix.subset (List.mem_map_of_mem hc)
    exact fold_operator_ne hop (List.mem_singleton.mp hmem)
  · by_cases hshorter : m'.length < s.length
    · refine ⟨m', storedString_of_forall hne ?_, ⟨[], m', [], by simp, ?_⟩, ?_⟩
      · intro d hd
        refine hstored d ?_
        rw [hsplit]
        exact List.mem_append_left r (List.mem_append_right l (hshort.sublist.subset hd))
      · exact hshort.stands [] [] (fun _ => rfl) fun _ => rfl
      · intro hinfix
        have := hinfix.length_le
        rw [List.length_map, List.length_map] at this
        omega
    · -- The text is a row, and has a dot.
      have hlong : ¬ s₀.length < s.length := fun h => hshorter (Nat.lt_of_le_of_lt hlen.1 h)
      obtain rfl : s = s₀ := hrest.eq_or_lt.resolve_right hlong
      have hrow : IsRow s := hlen.2.resolve_left hshorter
      have hdot : c = 46 := (hrow c hc).resolve_left fun h => h hop
      subst hdot
      refine ⟨s.map fun c => if c = 46 then 97 else c, storedString_of_forall ?_ ?_,
        found_row hrow h₀, ?_⟩
      · rw [ne_eq, List.map_eq_nil_iff]
        exact hs.ne_nil
      · intro d hd
        obtain ⟨x, hx, rfl⟩ := List.mem_map.mp hd
        by_cases hx' : x = 46
        · rw [if_pos hx']
          decide
        · rw [if_neg hx']
          exact hstored x hx
      · intro hinfix
        have heq := hinfix.eq_of_length (by simp)
        rw [List.map_map] at heq
        have h46 := List.map_inj_left.mp heq 46 hc
        exact fold_operator_ne hop (by simpa using h46)

/-- **The substring that is searched for** in place of a regular expression. -/
theorem substring_iff {s₀ s : List UInt8} {e e₀ : Regex UInt8} (h₀ : Spells .whole s₀ e₀)
    (hfound : ∀ t, e.Found t ↔ e₀.Found t) (hrest : Remains s₀ s) (hne : s ≠ []) (hzero : 0 ∉ s) :
    (∀ t, StoredString t →
        (s.map (Sens.fold .cias) <:+: t.map (Sens.fold .cias) ↔ e.Found t)) ↔
      (∀ c ∈ s, c ∉ operators ∧ SameForms (Sens.fold .cias) id c) ∨ (10 ∈ s ∧ FoundNowhere e) := by
  have hcoarse : ∀ c d : UInt8, id c = id d → Sens.fold .cias c = Sens.fold .cias d := by
    rintro c _ rfl
    rfl
  have hplain : (∀ c ∈ s, c ∉ operators) → ∀ t, e.Found t ↔ s.map id <:+: t.map id := by
    intro hs t
    have h : Spells .whole s e₀ := hrest.eq_of_plain hs ▸ h₀
    rw [List.map_id, List.map_id, hfound, found_plain_iff hs h]
  constructor
  · intro hsame
    by_cases hline : 10 ∈ s
    · refine Or.inr ⟨hline, ?_⟩
      intro t ht hmatch
      exact not_line_of_fold_infix ht ((hsame t ht).mpr hmatch) hline
    · have hchars : ∀ c ∈ s, c ∉ [0, 10] := by
        intro c hc hmem
        simp only [List.mem_cons, List.not_mem_nil, or_false] at hmem
        rcases hmem with rfl | rfl
        · exact hzero hc
        · exact hline hc
      have hstored := storedString_of_forall hne hchars
      have hops : ∀ c ∈ s, c ∉ operators := by
        intro c hc hop
        have hown : e₀.Found s := (hfound s).mp ((hsame s hstored).mp List.infix_rfl)
        obtain ⟨t, ht, hmatch, hno⟩ := exists_found_not_infix h₀ hrest hstored hown hc hop
        exact hno ((hsame t ht).mpr ((hfound t).mpr hmatch))
      have hforms := sameForms_of_infix_iff (fold_mem_iff .cias) hchars fun t ht hinfix =>
        (hplain hops t).mp ((hsame t ht).mp hinfix)
      exact Or.inl fun c hc => ⟨hops c hc, hforms c hc⟩
  · rintro (hs | ⟨hline, hnowhere⟩) t ht
    · rw [hplain (fun c hc => (hs c hc).1) t]
      exact infix_iff_of_sameForms hcoarse (fun c hc => (hs c hc).2) t
    · exact iff_of_false (fun h => not_line_of_fold_infix ht h hline) (hnowhere t ht)

/-! ### A substring that `reg2sci` finds -/

section

variable {outside : UInt8 → Bool}

/-- A regular expression that `reg2sci` accepts, it accepts with what follows it. -/
theorem Spells.reg2sci_rest {lvl : Level} {s : List UInt8} {e : Regex UInt8} (h : Spells lvl s e)
    (hlvl : lvl = .whole) {rest d : List UInt8} (hd : reg2sci outside (s ++ rest) = some d) :
    ∃ d', reg2sci outside rest = some d' := by
  induction h generalizing d with
  | branch h =>
    obtain ⟨-, -, -, ⟨d', hd', -⟩, -⟩ := h.branch_places hd
    exact ⟨d', hd'⟩
  | @alt s s' e e' c h hc h' _ ih =>
    rw [List.append_assoc] at hd
    obtain ⟨-, -, -, ⟨d', hd', -⟩, -⟩ := h.branch_places hd
    rcases hc with rfl | rfl
    · cases (reg2sci_operator (by simp) _).symm.trans hd'
    · obtain ⟨-, d'', hd'', -⟩ := reg2sci_plain (by decide) hd'
      exact ih rfl hd''
  | _ => cases hlvl

/-- A `\` that is left over is not accepted. -/
theorem reg2sci_escape_end {s : List UInt8} {e : Regex UInt8} (h : Spells .whole s e) :
    reg2sci outside (s ++ [92]) = none := by
  rw [← Option.not_isSome_iff_eq_none, Option.isSome_iff_exists]
  rintro ⟨d, hd⟩
  obtain ⟨d', hd'⟩ := h.reg2sci_rest rfl hd
  simp [reg2sci] at hd'

/-- Of the operators that are left over, `?` is accepted. -/
theorem reg2sci_repeated {ops s d : List UInt8} (hops : ∀ c ∈ ops, IsRepeat c)
    (hd : reg2sci outside (ops ++ s) = some d) :
    ∃ d', reg2sci outside s = some d' ∧ d = ops ++ d' ∧ ∀ c ∈ ops, c = 63 := by
  induction ops generalizing d with
  | nil => exact ⟨d, hd, rfl, fun c hc => absurd hc List.not_mem_nil⟩
  | cons c ops ih =>
    have hc : c = 63 := by
      have hc := hops c List.mem_cons_self
      simp only [IsRepeat, List.mem_cons, List.not_mem_nil, or_false] at hc
      rcases hc with rfl | rfl | rfl
      · cases (reg2sci_operator (by simp) _).symm.trans hd
      · cases (reg2sci_operator (by simp) _).symm.trans hd
      · rfl
    subst hc
    obtain ⟨d₁, hd₁, rfl⟩ := reg2sci_question hd
    obtain ⟨d', hd', rfl, hall⟩ := ih (fun c hc => hops c (List.mem_cons_of_mem 63 hc)) hd₁
    exact ⟨d', hd', rfl, List.forall_mem_cons.mpr ⟨rfl, hall⟩⟩

theorem storedString_concat {w : List UInt8} (hw : ∀ c ∈ w, c ∉ [0, 10]) :
    StoredString (w ++ [97]) := by
  refine storedString_of_forall (by simp) ?_
  intro c hc
  rcases List.mem_append.mp hc with hc | hc
  · exact hw c hc
  · rw [List.mem_singleton.mp hc]
    decide

/-- With a `?` in front, what is written is not found where the regular expression matches. -/
theorem exists_found_not_question {s d : List UInt8} {e : Regex UInt8} (h : Spells .whole s e)
    (hd : reg2sci outside s = some d) (ops : List UInt8) : ∃ t, StoredString t ∧ e.Found t ∧
      ¬ (63 :: (ops ++ d)).map (Sens.fold .ciai) <:+: t.map (Sens.fold .ciai) := by
  rcases h.places hd with ⟨ps, rfl, hgood, rfl, -⟩ | ⟨hmem, -, w, hstored, hw⟩
  · obtain ⟨w, hlen, hstored, hw⟩ := exists_matches hgood
    rcases eq_or_ne w [] with rfl | hne
    · refine ⟨[97], storedString_of_forall (by simp) (by decide +kernel), ⟨[], [], [97], rfl, hw _ _⟩, ?_⟩
      intro hinfix
      have hmem : Sens.fold .ciai 63 ∈ [(97 : UInt8)].map (Sens.fold .ciai) :=
        hinfix.subset (List.mem_map_of_mem List.mem_cons_self)
      exact absurd hmem (by decide +kernel)
    · refine ⟨w, storedString_of_forall hne hstored, ⟨[], w, [], by simp, hw _ _⟩, ?_⟩
      intro hinfix
      have hle := hinfix.length_le
      rw [List.length_map, List.length_map, List.length_cons, List.length_append] at hle
      omega
  · have ht := storedString_concat hstored
    refine ⟨w ++ [97], ht, ⟨[], w, [97], by simp, hw _ _⟩, ?_⟩
    intro hinfix
    exact not_line_of_fold_infix ht hinfix
      (List.mem_cons_of_mem 63 (List.mem_append_right ops hmem))

theorem sameForms_congr {fold fold' : UInt8 → UInt8} {c d : UInt8} (h : fold c = fold d)
    (h' : fold' c = fold' d) : SameForms fold fold' c ↔ SameForms fold fold' d := by
  rw [SameForms, SameForms, h, h']

/-- No other character folds to one that marks a pair of letters or another character. -/
theorem fold_mark (d : UInt8) :
    Sens.fold .ciai d ∈ ([91, 92, 93] : List UInt8) → d = Sens.fold .ciai d :=
  forall_uint8 (P := fun d => Sens.fold .ciai d ∈ ([91, 92, 93] : List UInt8) →
    d = Sens.fold .ciai d) (by decide +kernel) d

/-- Such a character has one form. -/
theorem sameForms_mark {c : UInt8} (hc : c ∈ ([91, 92, 93] : List UInt8)) :
    SameForms (Sens.fold .ciai) asciiLower c := by
  have hfold : ∀ c ∈ ([91, 92, 93] : List UInt8), Sens.fold .ciai c = c := by decide +kernel
  intro d hd
  rw [hfold c hc] at hd
  rw [fold_mark d (hd ▸ hc), hd]

/-- What is written has the same forms as what it was read from. -/
theorem reg2sci_sameForms {s d : List UInt8} (hd : reg2sci outside s = some d) :
    (∀ c ∈ d, SameForms (Sens.fold .ciai) asciiLower c) ↔
      ∀ c ∈ s, SameForms (Sens.fold .ciai) asciiLower c := by
  induction hlen : s.length using Nat.strong_induction_on generalizing s d with
  | _ n ih =>
    subst hlen
    match s with
    | [] =>
      obtain rfl : [] = d := Option.some.inj hd
      rfl
    | c :: s =>
      by_cases h91 : c = 91
      · -- Both letters between brackets have the forms of the one that is written.
        subst h91
        obtain ⟨a, b, s', d', rfl, -, -, hab, hd', rfl⟩ := reg2sci_open hd
        have ha : SameForms (Sens.fold .ciai) asciiLower (asciiLower a) ↔
            SameForms (Sens.fold .ciai) asciiLower a :=
          sameForms_congr (fold_asciiLower a) (asciiLower_asciiLower a)
        have hb : SameForms (Sens.fold .ciai) asciiLower b ↔
            SameForms (Sens.fold .ciai) asciiLower a :=
          sameForms_congr (fold_eq_of_asciiLower_eq hab.symm) hab.symm
        have hopen := sameForms_mark (c := 91) (by decide)
        have hclose := sameForms_mark (c := 93) (by decide)
        have hrest := ih s'.length (by simp only [List.length_cons]; omega) hd' rfl
        simp only [List.forall_mem_cons, ha, hb, hrest, hopen, hclose, true_and, and_self_left]
      · by_cases h92 : c = 92
        · subst h92
          match s with
          | [] => simp [reg2sci] at hd
          | x :: s =>
            obtain ⟨d', hd', rfl⟩ := reg2sci_escape hd
            have hback := sameForms_mark (c := 92) (by decide)
            have hrest := ih s.length (by simp only [List.length_cons]; omega) hd' rfl
            simp only [List.forall_mem_cons, hrest, hback, true_and]
        · obtain ⟨-, d', hd', rfl⟩ := reg2sci_plain ⟨h91, h92⟩ hd
          have hrest := ih s.length (Nat.lt_succ_self _) hd' rfl
          simp only [List.forall_mem_cons, hrest]

/-- **The substring that `reg2sci` finds**, of a text that is a regular expression. -/
theorem reg2sci_fold_iff {s d : List UInt8} {e : Regex UInt8} (h : Spells .whole s e)
    (hd : reg2sci outside s = some d) :
    (∀ t, StoredString t →
        (d.map (Sens.fold .ciai) <:+: t.map (Sens.fold .ciai) ↔ e.Found t)) ↔
      bothCases s = true ∧ ∀ c ∈ s, SameForms (Sens.fold .ciai) asciiLower c := by
  have hcoarse : ∀ c d : UInt8, asciiLower c = asciiLower d →
      Sens.fold .ciai c = Sens.fold .ciai d := fun c d => fold_eq_of_asciiLower_eq
  rcases h.places hd with ⟨ps, rfl, hgood, rfl, hfits⟩ | ⟨hmem, hcond, w, hstored, hw⟩
  · rw [← reg2sci_sameForms hd, hfits]
    constructor
    · intro hsame
      have hreq : ∀ p ∈ ps, p.optional = 0 := by
        intro p hp
        by_contra hopt
        obtain ⟨t, ht, hmatch, hlt⟩ := exists_found_short hgood hp hopt
        have hle := ((hsame t ht).mpr hmatch).length_le
        rw [List.length_map, List.length_map] at hle
        omega
      have hall : ∀ p ∈ ps, p.Fits := by
        intro p hp
        by_contra hno
        obtain ⟨t, ht, hmatch, hocc⟩ := exists_occurs_not_found hgood hreq hp hno
        obtain ⟨m, hm, heq⟩ := List.infix_map_iff.mp hocc
        refine hmatch ((hsame t ht).mp (List.infix_map_iff.mpr ⟨m, hm, ?_⟩))
        exact map_eq_of_coarse hcoarse heq
      have hchars : ∀ c ∈ placesDest ps, c ∉ [0, 10] := by
        intro c hc
        rw [placesDest_of_required hreq] at hc
        obtain ⟨p, hp, rfl⟩ := List.mem_map.mp hc
        exact (hgood p hp).not_mem rfl
      refine ⟨hall, sameForms_of_infix_iff (fold_mem_iff .ciai) hchars ?_⟩
      intro t ht hinfix
      exact ((places_iff hgood).mpr hall t ht).mp ((hsame t ht).mp hinfix)
    · rintro ⟨hall, hforms⟩ t ht
      rw [(places_iff hgood).mpr hall t ht]
      exact infix_iff_of_sameForms hcoarse hforms t
  · rw [hcond]
    refine iff_of_false ?_ fun h => Bool.false_ne_true h.1
    intro hsame
    have ht := storedString_concat hstored
    have hinfix := (hsame _ ht).mpr ⟨[], w, [97], by simp, hw _ _⟩
    exact not_line_of_fold_infix ht hinfix hmem

/-- What is left over makes no regular expression that `reg2sci` treats rightly. -/
theorem remains_fold_iff {s₀ s d : List UInt8} {e e₀ : Regex UInt8} (h₀ : Spells .whole s₀ e₀)
    (hfound : ∀ t, e.Found t ↔ e₀.Found t) (hrest : Remains s₀ s)
    (hd : reg2sci outside s = some d) :
    (∀ t, StoredString t →
        (d.map (Sens.fold .ciai) <:+: t.map (Sens.fold .ciai) ↔ e.Found t)) ↔
      bothCases s = true ∧ ∀ c ∈ s, SameForms (Sens.fold .ciai) asciiLower c := by
  simp only [hfound]
  cases hrest with
  | all => exact reg2sci_fold_iff h₀ hd
  | @repeated c ops hops =>
    obtain ⟨d', hd', rfl, hall⟩ := reg2sci_repeated hops hd
    obtain rfl := hall c List.mem_cons_self
    refine iff_of_false ?_ ?_
    · intro hsame
      obtain ⟨t, ht, hmatch, hno⟩ := exists_found_not_question h₀ hd' ops
      exact hno ((hsame t ht).mpr hmatch)
    · rw [bothCases_missed (Or.inl rfl)]
      exact fun h => Bool.false_ne_true h.1
  | escape => exact absurd ((reg2sci_escape_end h₀).symm.trans hd) (by simp)

/-! ### The choice -/

theorem hits_sub_iff (sens : Sens) (s t : List UInt8) :
    (QueryArgs.mk s .sub sens.code).Hits t ↔ s.map sens.fold <:+: t.map sens.fold := by
  constructor
  · rintro ⟨sens', hsens, hmatch⟩
    obtain rfl : sens = sens' := Option.some.inj ((sensOfCode_code sens).symm.trans hsens)
    exact matches_chars_iff.mp hmatch
  · intro h
    exact ⟨sens, sensOfCode_code sens, matches_chars_iff.mpr h⟩

/-- What is searched for is what is left. -/
theorem performedSearch_eq {origType : SearchSel} (htype : origType.isRegex = true)
    {r s : List UInt8} (hr : r ≠ []) (hs : stripStars r = some s) :
    performedSearch outside origType r =
      if origType = .eXRegex ∨ noSpecial s = true then some ⟨s, .sub, 1⟩
      else archQuerySearch outside ⟨s, .regex, 0⟩ := by
  rw [performedSearch, parchieSearchFilesDb, if_neg hr, if_pos htype, hs]
  show archQuerySearch outside (lastQuery false (chooseType origType s) s) = _
  cases hspecial : noSpecial s <;> cases origType <;>
    first
      | exact absurd htype (by decide)
      | simp [chooseType, hspecial, lastQuery, archQuerySearch, chooseSearch]

theorem searchRight_of_eq_some {origType : SearchSel} {r : List UInt8} {e : Regex UInt8}
    {q : QueryArgs} (h : performedSearch outside origType r = some q) :
    SearchRight outside origType r e ↔ ∀ t, StoredString t → (q.Hits t ↔ e.Found t) := by
  constructor
  · rintro ⟨q', hq', hsame⟩
    obtain rfl : q = q' := Option.some.inj (h.symm.trans hq')
    exact hsame
  · intro hsame
    exact ⟨q, h, hsame⟩

/-- A search by the regular expression library for what is left. -/
theorem regex_hits_iff {s₀ s : List UInt8} {e e₀ : Regex UInt8} (h₀ : Spells .whole s₀ e₀)
    (hfound : ∀ t, e.Found t ↔ e₀.Found t) (hrest : Remains s₀ s) (caseSens : ℤ) :
    (∀ t, StoredString t → ((QueryArgs.mk s .regex caseSens).Hits t ↔ e.Found t)) ↔
      (∃ e', Spells .whole s e') ∨ FoundNowhere e := by
  by_cases hs : ∃ e', Spells .whole s e'
  · refine iff_of_true ?_ (Or.inl hs)
    intro t _
    obtain ⟨e', he'⟩ := hs
    obtain rfl := hrest.eq_of_spells h₀ he'
    rw [hfound]
    constructor
    · rintro ⟨e'', he'', hmatch⟩
      rwa [he''.unique h₀] at hmatch
    · intro hmatch
      exact ⟨e₀, h₀, hmatch⟩
  · have hno : ∀ t, ¬ (QueryArgs.mk s .regex caseSens).Hits t := by
      rintro t ⟨e', he', -⟩
      exact hs ⟨e', he'⟩
    simp only [hno, false_iff, hs, false_or, FoundNowhere]

/-- **The choice of search.**  What is searched for is found where the regular expression matches
if and only if something is left of it, and that fits the search that is made for it. -/
theorem searchRight_iff {origType : SearchSel} (htype : origType.isRegex = true) {r : List UInt8}
    {e : Regex UInt8} (h : Spells .whole r e) :
    SearchRight outside origType r e ↔
      r ≠ [] ∧ ∃ s, stripStars r = some s ∧ ChoiceFits outside origType s e := by
  by_cases hr : r = []
  · refine iff_of_false ?_ fun h => h.1 hr
    rintro ⟨q, hq, -⟩
    rw [performedSearch, parchieSearchFilesDb, if_pos hr] at hq
    cases hq
  rcases hs : stripStars r with _ | s
  · refine iff_of_false ?_ ?_
    · rintro ⟨q, hq, -⟩
      rw [performedSearch, parchieSearchFilesDb, if_neg hr, if_pos htype, hs] at hq
      cases hq
    · rintro ⟨-, s, hs', -⟩
      cases hs'
  obtain ⟨s₀, e₀, h₀, hfound, hrest⟩ := stripStars_spells hr hs h
  obtain ⟨hne, hparts⟩ := stripStars_eq_some hr hs
  have hzero : 0 ∉ s := by
    intro hmem
    refine h.zero_not_mem ?_
    rcases hparts with rfl | rfl | rfl <;> simp [hmem]
  have hsearch : performedSearch outside origType r = _ := performedSearch_eq htype hr hs
  have hcond : (r ≠ [] ∧ ∃ s', some s = some s' ∧ ChoiceFits outside origType s' e) ↔
      ChoiceFits outside origType s e := by simp [hr]
  rw [hcond, ChoiceFits]
  by_cases hsub : origType = .eXRegex ∨ noSpecial s = true
  · rw [if_pos hsub] at hsearch ⊢
    rw [searchRight_of_eq_some hsearch, ← substring_iff h₀ hfound hrest hne hzero]
    simp only [← hits_sub_iff .cias, Sens.code]
  · rw [if_neg hsub] at hsearch ⊢
    by_cases hfits : reg2sciWrites outside s ≤ outputSize
    · rw [archQuerySearch, if_neg fun h => absurd h.2 (Nat.not_lt.mpr hfits)] at hsearch
      rw [searchRight_of_eq_some hsearch, and_iff_right hfits]
      rcases hd : reg2sci outside s with _ | d
      · simp only [chooseSearch, if_true, hd]
        exact regex_hits_iff h₀ hfound hrest 0
      · simp only [chooseSearch, if_true, hd, Option.isSome_some]
        rw [← remains_fold_iff h₀ hfound hrest hd]
        simp only [← hits_sub_iff .ciai, Sens.code]
    · rw [archQuerySearch, if_pos ⟨rfl, Nat.lt_of_not_le hfits⟩] at hsearch
      refine iff_of_false ?_ fun h => hfits h.1
      rintro ⟨q, hq, -⟩
      cases hsearch.symm.trans hq

end

/-- `.*1` is searched for as the substring `1`. -/
theorem searchRight_sample :
    SearchRight (fun _ => false) .xRegex [46, 42, 49]
      (.cat (Regex.star (.set (· != 10))) (.cat (.set (· == 49)) .empty)) := by
  have hspells : Spells .whole [46, 42, 49]
      (.cat (Regex.star (.set (· != 10))) (.cat (.set (· == 49)) .empty)) :=
    .branch (.cons (.star (.atom .any)) (.cons (.atom (.char (by decide))) .nil))
  refine (searchRight_iff rfl hspells).mpr ⟨by decide, [49], by decide, ?_⟩
  rw [ChoiceFits, if_pos (Or.inr (by decide))]
  refine Or.inl ?_
  intro c hc
  obtain rfl := List.mem_singleton.mp hc
  refine ⟨by decide, ?_⟩
  intro d
  exact forall_uint8 (P := fun d => Sens.fold .cias d = Sens.fold .cias 49 → id d = id 49)
    (by decide +kernel) d

/-- `S_E_X_REGEX` of `a.` does not find `ab`. -/
theorem not_searchRight :
    ¬ ∀ (outside : UInt8 → Bool) (origType : SearchSel) (r : List UInt8) (e : Regex UInt8),
      origType.isRegex = true → Spells .whole r e → SearchRight outside origType r e := by
  intro h
  obtain ⟨q, hq, hsame⟩ := h (fun _ => false) .eXRegex [97, 46] _ rfl
    (.branch (.cons (.atom (.char (c := 97) (by decide))) (.cons (.atom .any) .nil)))
  obtain rfl : (⟨[97, 46], .sub, 1⟩ : QueryArgs) = q := Option.some.inj hq
  have hstored : StoredString [97, 98] := storedString_of_forall (by simp) (by decide +kernel)
  have hhits := (hsame [97, 98] hstored).mpr
    ⟨[], [97, 98], [], rfl, .cat (.set rfl) (@Regex.Matches.cat _ _ _ _ [98] [] _ (.set rfl) .empty)⟩
  have hinfix := (hits_sub_iff .cias _ _).mp hhits
  exact absurd hinfix (by decide +kernel)

end Archie
