/-
Parts of regular expressions of egrep that may be left out, and short matches.

* `Spells.drop_start`, `Spells.drop_end` — a text that begins or ends with `.*`.
* `Regex.Matches.shorten` — a match has a short one that stands where it stood.
* `spells_row` — a text of characters and dots.
-/
import Archie.EgrepUnique

namespace Archie

namespace Regex

variable {α : Type*}

/-! ### Parts that match nothing -/

/-- It matches the empty text, wherever it stands. -/
def Nullable (e : Regex α) : Prop := ∀ l r, e.Matches l [] r

theorem nullable_star (e : Regex α) : e.star.Nullable := fun _ _ => .starNil

theorem nullable_opt (e : Regex α) : e.opt.Nullable := fun _ _ => .altRight .empty

theorem Nullable.plus {e : Regex α} (h : e.Nullable) : e.plus.Nullable := fun l _ =>
  matches_cat_iff.mpr ⟨[], [], rfl, h l _, .starNil⟩

theorem found_cat_nullable {e f : Regex α} (he : e.Nullable) (t : List α) :
    (cat e f).Found t ↔ f.Found t := by
  constructor
  · rintro ⟨l, m, r, rfl, h⟩
    obtain ⟨m₁, m₂, rfl, -, hf⟩ := matches_cat_iff.mp h
    exact ⟨l ++ m₁, m₂, r, by simp, hf⟩
  · rintro ⟨l, m, r, rfl, h⟩
    refine ⟨l, m, r, rfl, matches_cat_iff.mpr ⟨[], m, rfl, he l _, ?_⟩⟩
    rwa [List.append_nil]

theorem found_alt {e f : Regex α} (t : List α) : (alt e f).Found t ↔ e.Found t ∨ f.Found t := by
  constructor
  · rintro ⟨l, m, r, rfl, h⟩
    cases h with
    | altLeft h => exact Or.inl ⟨l, m, r, rfl, h⟩
    | altRight h => exact Or.inr ⟨l, m, r, rfl, h⟩
  · rintro (⟨l, m, r, rfl, h⟩ | ⟨l, m, r, rfl, h⟩)
    · exact ⟨l, m, r, rfl, .altLeft h⟩
    · exact ⟨l, m, r, rfl, .altRight h⟩

/-- What `e` matches begins with what `f` matches, and may be no more. -/
structure Extends (e f : Regex α) : Prop where
  of_matches : ∀ {l m r}, f.Matches l m r → e.Matches l m r
  begins : ∀ {l m r}, e.Matches l m r → ∃ m₁ m₂, m = m₁ ++ m₂ ∧ f.Matches l m₁ (m₂ ++ r)

theorem Extends.found_iff {e f : Regex α} (h : e.Extends f) (t : List α) : e.Found t ↔ f.Found t := by
  constructor
  · rintro ⟨l, m, r, rfl, hm⟩
    obtain ⟨m₁, m₂, rfl, hf⟩ := h.begins hm
    exact ⟨l, m₁, m₂ ++ r, by simp, hf⟩
  · rintro ⟨l, m, r, rfl, hm⟩
    exact ⟨l, m, r, rfl, h.of_matches hm⟩

theorem Nullable.extends {e : Regex α} (h : e.Nullable) : (cat e empty).Extends empty where
  of_matches := by
    intro l m r hm
    rw [matches_empty_iff.mp hm]
    exact matches_cat_iff.mpr ⟨[], [], rfl, h l _, .empty⟩
  begins := fun {l m r} _ => ⟨[], m, rfl, .empty⟩

theorem Extends.cat {e f : Regex α} (h : e.Extends f) (g : Regex α) : (cat g e).Extends (cat g f) where
  of_matches := by
    intro l m r hm
    obtain ⟨m₁, m₂, rfl, hg, hf⟩ := matches_cat_iff.mp hm
    exact .cat hg (h.of_matches hf)
  begins := by
    intro l m r hm
    obtain ⟨m₁, m₂, rfl, hg, he⟩ := matches_cat_iff.mp hm
    obtain ⟨m₃, m₄, rfl, hf⟩ := h.begins he
    refine ⟨m₁ ++ m₃, m₄, by simp, .cat ?_ hf⟩
    rwa [List.append_assoc] at hg

theorem Extends.alt {e f : Regex α} (h : e.Extends f) (g : Regex α) : (alt g e).Extends (alt g f) where
  of_matches := by
    intro l m r hm
    cases hm with
    | altLeft hg => exact .altLeft hg
    | altRight hf => exact .altRight (h.of_matches hf)
  begins := by
    intro l m r hm
    cases hm with
    | altLeft hg => exact ⟨m, [], by simp, .altLeft hg⟩
    | altRight he =>
      obtain ⟨m₁, m₂, rfl, hf⟩ := h.begins he
      exact ⟨m₁, m₂, rfl, .altRight hf⟩

end Regex

/-! ### A text that begins or ends with `.*` -/

/-- What repeats `.*` matches the empty text. -/
theorem Spells.nullable_of_star {lvl : Level} {s : List UInt8} {e : Regex UInt8} (h : Spells lvl s e)
    (hlvl : lvl = .piece) {ops : List UInt8} (hs : s = 46 :: 42 :: ops) (hops : ∀ c ∈ ops, IsRepeat c) :
    e.Nullable := by
  induction h generalizing ops with
  | atom h =>
    rcases h.atom_inv with ⟨c, -, hc, -⟩ | ⟨c, hc, -⟩ | ⟨hc, -⟩ | ⟨hc, -⟩ | ⟨hc, -⟩ | ⟨x, t, -, hc, -⟩ |
      ⟨x, t, hc, -⟩ | ⟨t, hc, -⟩
    all_goals simp [hs] at hc
  | star h ih => exact Regex.nullable_star _
  | opt h ih => exact Regex.nullable_opt _
  | @plus s e h ih =>
    rcases List.eq_nil_or_concat ops with rfl | ⟨ops, c, rfl⟩
    · have hlast := List.append_inj' (show s ++ [43] = [46] ++ [42] from hs) rfl
      exact absurd hlast.2 (by decide)
    · have hlast := List.append_inj' (show s ++ [43] = (46 :: 42 :: ops) ++ [c] by
        rw [hs, List.concat_eq_append]; rfl) rfl
      refine (ih rfl hlast.1 fun d hd => hops d ?_).plus
      rw [List.concat_eq_append]
      exact List.mem_append_left [c] hd
  | _ => cases hlvl

/-- A branch that begins with `.*`. -/
theorem Spells.branch_drop_start {s : List UInt8} {e : Regex UInt8}
    (h : Spells .branch (46 :: 42 :: s) e) :
    ∃ ops u e', s = ops ++ u ∧ (∀ c ∈ ops, IsRepeat c) ∧ Spells .branch u e' ∧
      ∀ t, e.Found t ↔ e'.Found t := by
  generalize hs : 46 :: 42 :: s = w at h
  cases h with
  | nil => cases hs
  | @cons p u f g hp hu =>
    obtain ⟨a, ea, ops, rfl, ha, hops⟩ := hp.piece_parts rfl
    obtain ⟨c, t, rfl, -⟩ := ha.atom_start
    obtain ⟨rfl, hrest⟩ := List.cons.inj hs
    -- The atom that begins with a dot is the dot.
    have ht : t = [] := by
      rcases ha.atom_inv with ⟨c, hc', hc, -⟩ | ⟨c, hc, -⟩ | ⟨hc, -⟩ | ⟨hc, -⟩ | ⟨hc, -⟩ |
        ⟨x, t, -, hc, -⟩ | ⟨x, t, hc, -⟩ | ⟨t, hc, -⟩
      · exact (List.cons.inj hc).2
      on_goal 2 => exact (List.cons.inj hc).2
      all_goals exact absurd (List.cons.inj hc).1 (by decide)
    subst ht
    cases ops with
    | nil =>
      exact absurd (hu.branch_start hrest.symm) (by decide)
    | cons c ops =>
      obtain ⟨rfl, rfl⟩ := List.cons.inj hrest
      have hnull := hp.nullable_of_star rfl (show _ = 46 :: 42 :: ops from rfl) fun d hd =>
        hops d (List.mem_cons_of_mem 42 hd)
      exact ⟨ops, u, g, rfl, fun d hd => hops d (List.mem_cons_of_mem 42 hd), hu,
        Regex.found_cat_nullable hnull⟩

/-- **A text that begins with `.*`**: what is left is found where it was, after operators that
repeat the `.*`. -/
theorem Spells.drop_start {s : List UInt8} {e : Regex UInt8} (h : Spells .whole (46 :: 42 :: s) e) :
    ∃ ops u e', s = ops ++ u ∧ (∀ c ∈ ops, IsRepeat c) ∧ Spells .whole u e' ∧
      ∀ t, e.Found t ↔ e'.Found t := by
  generalize hs : 46 :: 42 :: s = w at h
  cases h with
  | branch h =>
    subst hs
    obtain ⟨ops, u, e', rfl, hops, hu, hfound⟩ := h.branch_drop_start
    exact ⟨ops, u, e', rfl, hops, .branch hu, hfound⟩
  | @alt b b' f g c h hc h' =>
    match b, hs with
    | [], hs => exact absurd ((List.cons.inj hs).1 ▸ hc) (by decide)
    | [d], hs => exact absurd ((List.cons.inj (List.cons.inj hs).2).1 ▸ hc) (by decide)
    | d :: d' :: b, hs =>
      obtain ⟨rfl, hs'⟩ := List.cons.inj hs
      obtain ⟨rfl, rfl⟩ := List.cons.inj hs'
      obtain ⟨ops, u, e', rfl, hops, hu, hfound⟩ := h.branch_drop_start
      refine ⟨ops, u ++ c :: b', .alt e' g, List.append_assoc _ _ _, hops, .alt hu hc h', fun t => ?_⟩
      rw [Regex.found_alt, Regex.found_alt, hfound]

/-- What is left of a text whose last `.*` is cut off: a regular expression that is found where the
whole was, perhaps before a `\`. -/
def LeftOver (lvl : Level) (s : List UInt8) (e : Regex UInt8) : Prop :=
  ∃ u e', (s = u ∨ s = u ++ [92]) ∧ Spells lvl u e' ∧ e.Extends e'

/-- Where a part that is not empty ends with `.*`, or is the last character of it. -/
theorem dotStar_append {s u v : List UInt8} (h : s ++ [46, 42] = u ++ v) (hv : v ≠ []) :
    v = [42] ∨ ∃ w, v = w ++ [46, 42] ∧ s = u ++ w := by
  rcases append_cases h with ⟨w, rfl, rfl⟩ | ⟨w, -, hw⟩
  · exact Or.inr ⟨w, rfl, rfl⟩
  · match w, hw with
    | [], hw =>
      refine Or.inr ⟨[], hw.symm, ?_⟩
      rw [List.nil_append] at hw
      rw [← hw] at h
      rw [List.append_nil]
      exact List.append_cancel_right h
    | [_], hw => exact Or.inl (List.cons.inj hw).2.symm
    | _ :: _ :: w, hw =>
      have hnil := (List.cons.inj (List.cons.inj hw).2).2
      exact absurd (List.append_eq_nil_iff.mp hnil.symm).2 hv

/-- A piece that ends with a dot is a dot, or a dot after a `\`. -/
theorem Spells.piece_dot {s : List UInt8} {e : Regex UInt8} (h : Spells .piece (s ++ [46]) e) :
    s = [] ∨ s = [92] := by
  have hlast : ∀ {r : List UInt8} {d : UInt8}, s ++ [46] = r ++ [d] → 46 = d := by
    intro r d hr
    exact (List.cons.inj (List.append_inj' hr rfl).2).1
  generalize hs : s ++ [46] = w at h
  cases h with
  | star | plus | opt => exact absurd (hlast hs) (by decide)
  | atom h =>
    subst hs
    rcases h.atom_inv with ⟨c, hc', hc, -⟩ | ⟨c, hc, -⟩ | ⟨hc, -⟩ | ⟨hc, -⟩ | ⟨hc, -⟩ |
      ⟨x, t, -, hc, -⟩ | ⟨x, t, hc, -⟩ | ⟨t, hc, -⟩
    · rw [← hlast (r := []) hc] at hc'
      exact absurd (by decide) hc'
    · exact Or.inr (List.append_inj' (show s ++ [46] = [92] ++ [c] from hc) rfl).1
    · exact Or.inl (List.append_inj' (show s ++ [46] = [] ++ [46] from hc) rfl).1
    · exact absurd (hlast (r := []) hc) (by decide)
    · exact absurd (hlast (r := []) hc) (by decide)
    · exact absurd (hlast (r := 91 :: x :: t) hc) (by decide)
    · exact absurd (hlast (r := 91 :: 94 :: x :: t) hc) (by decide)
    · exact absurd (hlast (r := 40 :: t) hc) (by decide)

/-- A piece that ends with `.*` is no more than that, but for a `\`. -/
theorem Spells.piece_drop_end {s : List UInt8} {e : Regex UInt8}
    (h : Spells .piece (s ++ [46, 42]) e) : LeftOver .branch s (.cat e .empty) := by
  have hlast : ∀ {r : List UInt8} {d : UInt8}, s ++ [46, 42] = r ++ [d] → s ++ [46] = r ∧ 42 = d := by
    intro r d hr
    rw [show s ++ [46, 42] = (s ++ [46]) ++ [42] by simp] at hr
    exact ⟨(List.append_inj' hr rfl).1, (List.cons.inj (List.append_inj' hr rfl).2).1⟩
  generalize hs : s ++ [46, 42] = w at h
  cases h with
  | plus | opt => exact absurd (hlast hs).2 (by decide)
  | atom h =>
    have hback := h.atom_end (t := s ++ [46]) (c := 42) (by rw [← hs]; simp) (by decide)
    exact absurd (List.append_inj' (show s ++ [46] = [] ++ [92] from hback) rfl).2 (by decide)
  | @star u e h =>
    obtain ⟨rfl, -⟩ := hlast hs
    refine ⟨[], .empty, ?_, .nil, (Regex.nullable_star e).extends⟩
    rcases h.piece_dot with rfl | rfl
    · exact Or.inl rfl
    · exact Or.inr rfl

theorem Spells.branch_drop_end {lvl : Level} {w : List UInt8} {e : Regex UInt8} (h : Spells lvl w e)
    (hlvl : lvl = .branch) {s : List UInt8} (hw : s ++ [46, 42] = w) : LeftOver .branch s e := by
  induction h generalizing s with
  | nil => exact absurd (List.append_eq_nil_iff.mp hw).2 (by decide)
  | @cons p b f g hp hb _ ih =>
    rcases eq_or_ne b [] with rfl | hne
    · -- The last piece of the branch.
      obtain rfl : g = .empty := hb.unique .nil
      rw [List.append_nil] at hw
      subst hw
      exact hp.piece_drop_end
    · rcases dotStar_append hw hne with rfl | ⟨b', rfl, rfl⟩
      · exact absurd (hb.branch_start rfl) (by decide)
      · obtain ⟨u, g', hu, hspells, hext⟩ := ih rfl rfl
        refine ⟨p ++ u, .cat f g', ?_, .cons hp hspells, hext.cat f⟩
        rcases hu with rfl | rfl
        · exact Or.inl rfl
        · exact Or.inr (List.append_assoc p u [92]).symm
  | _ => cases hlvl

/-- **A text that ends with `.*`**: what is left is found where it was, but for a `\` that stood
before the dot. -/
theorem Spells.drop_end {lvl : Level} {w : List UInt8} {e : Regex UInt8} (h : Spells lvl w e)
    (hlvl : lvl = .whole) {s : List UInt8} (hw : s ++ [46, 42] = w) : LeftOver .whole s e := by
  induction h generalizing s with
  | branch h =>
    obtain ⟨u, e', hu, hspells, hext⟩ := h.branch_drop_end rfl hw
    exact ⟨u, e', hu, .branch hspells, hext⟩
  | @alt b b' f g c h hc h' _ ih =>
    rcases dotStar_append hw (List.cons_ne_nil c b') with hb | ⟨v, hb, hs⟩
    · rw [(List.cons.inj hb).1] at hc
      exact absurd hc (by decide)
    · cases v with
      | nil =>
        rw [(List.cons.inj hb).1] at hc
        exact absurd hc (by decide)
      | cons d v =>
        obtain ⟨rfl, rfl⟩ := List.cons.inj hb
        subst hs
        obtain ⟨u, g', hu, hspells, hext⟩ := ih rfl rfl
        refine ⟨b ++ c :: u, .alt f g', ?_, .alt h hc hspells, hext.alt f⟩
        rcases hu with rfl | rfl
        · exact Or.inl rfl
        · exact Or.inr (by simp)
  | _ => cases hlvl

/-! ### Short matches -/

/-- A text of characters that stand for themselves, and of dots. -/
def IsRow (s : List UInt8) : Prop := ∀ c ∈ s, c ∉ operators ∨ c = 46

theorem isRow_append {s t : List UInt8} (hs : IsRow s) (ht : IsRow t) : IsRow (s ++ t) :=
  fun c hc => (List.mem_append.mp hc).elim (hs c) (ht c)

/-- What a character of such a text matches. -/
def rowSet (c : UInt8) : UInt8 → Bool := if c = 46 then (· != 10) else (· == c)

theorem spells_row {s : List UInt8} (hs : IsRow s) :
    Spells .whole s (Regex.seq ((s.map rowSet).map .set)) := by
  refine .branch ?_
  induction s with
  | nil => exact .nil
  | cons c s ih =>
    refine @Spells.cons [c] s _ _ (.atom ?_) (ih fun d hd => hs d (List.mem_cons_of_mem c hd))
    rw [rowSet]
    split_ifs with hdot
    · rw [hdot]
      exact .any
    · exact .char ((hs c List.mem_cons_self).resolve_right hdot)

namespace Regex

variable {α : Type*}

/-- Of what is repeated, one time at which it matches something, if there is one. -/
theorem Matches.star_once {e : Regex α} {l m r : List α} (h : e.star.Matches l m r) (hm : m ≠ []) :
    ∃ l' m' r', e.Matches l' m' r' ∧ m' ≠ [] ∧ m'.Sublist m ∧ (l' = [] → l = []) ∧
      (r' = [] → r = []) := by
  generalize hf : e.star = f at h
  induction h with
  | starNil => exact absurd rfl hm
  | @starCons f l m m' r he _ _ ih =>
    obtain rfl : e = f := by injection hf
    by_cases hfirst : m = []
    · -- Nothing is matched the first time.
      subst hfirst
      obtain ⟨l₁, m₁, r₁, hmatch, hne, hsub, hl, hr⟩ := ih hm rfl
      exact ⟨l₁, m₁, r₁, hmatch, hne, hsub, fun h => (List.append_eq_nil_iff.mp (hl h)).1, hr⟩
    · exact ⟨l, m, m' ++ r, he, hfirst, List.sublist_append_left m m', id,
        fun h => (List.append_eq_nil_iff.mp h).2⟩
  | _ => cases hf

theorem Matches.star_one {e : Regex α} {l m r : List α} (h : e.Matches l m r) :
    e.star.Matches l m r := by
  have h' : e.star.Matches l (m ++ []) r := .starCons h .starNil
  rwa [List.append_nil] at h'

theorem Matches.plus_one {e : Regex α} {l m r : List α} (h : e.Matches l m r) :
    e.plus.Matches l m r := by
  have h' : e.plus.Matches l (m ++ []) r := .cat h .starNil
  rwa [List.append_nil] at h'

theorem Matches.plus_once {e : Regex α} {l m r : List α} (h : e.plus.Matches l m r) :
    ∃ l' m' r', e.Matches l' m' r' ∧ (m ≠ [] → m' ≠ []) ∧ m'.Sublist m ∧ (l' = [] → l = []) ∧
      (r' = [] → r = []) := by
  obtain ⟨m₁, m₂, rfl, he, hs⟩ := matches_cat_iff.mp h
  by_cases hm₂ : m₁ = [] ∧ m₂ ≠ []
  · obtain ⟨rfl, hne⟩ := hm₂
    obtain ⟨l', m', r', hmatch, hm', hsub, hl, hr⟩ := hs.star_once hne
    exact ⟨l', m', r', hmatch, fun _ => hm', hsub, fun h => (List.append_eq_nil_iff.mp (hl h)).1, hr⟩
  · refine ⟨l, m₁, m₂ ++ r, he, ?_, List.sublist_append_left m₁ m₂, id,
      fun h => (List.append_eq_nil_iff.mp h).2⟩
    rintro hm rfl
    exact hm (by simpa using hm₂)

end Regex

/-- `m'` is matched wherever `m` was, if a line does not begin or end there for the first time. -/
structure Shortens (e : Regex UInt8) (l m r : List UInt8) (m' : List UInt8) : Prop where
  sublist : m'.Sublist m
  ne_nil : m ≠ [] → m' ≠ []
  stands : ∀ l' r', (l = [] → l' = []) → (r = [] → r' = []) → e.Matches l' m' r'

/-- It is not longer than the text, and shorter if the text is no row. -/
def NotLonger (m s : List UInt8) : Prop := m.length ≤ s.length ∧ (m.length < s.length ∨ IsRow s)

theorem notLonger_of_lt {m s : List UInt8} (h : m.length < s.length) : NotLonger m s :=
  ⟨Nat.le_of_lt h, Or.inl h⟩

theorem NotLonger.append {m m' s s' : List UInt8} (h : NotLonger m s) (h' : NotLonger m' s') :
    NotLonger (m ++ m') (s ++ s') := by
  have hle := h.1
  have hle' := h'.1
  refine ⟨?_, ?_⟩
  · rw [List.length_append, List.length_append]
    exact Nat.add_le_add hle hle'
  · by_cases hboth : IsRow s ∧ IsRow s'
    · exact Or.inr (isRow_append hboth.1 hboth.2)
    · left
      rw [List.length_append, List.length_append]
      rcases not_and_or.mp hboth with hs | hs
      · exact Nat.add_lt_add_of_lt_of_le (h.2.resolve_right hs) hle'
      · exact Nat.add_lt_add_of_le_of_lt hle (h'.2.resolve_right hs)

/-- Where one character is matched. -/
theorem shortens_set {chars : UInt8 → Bool} {l m r : List UInt8} (h : (Regex.set chars).Matches l m r) :
    Shortens (.set chars) l m r m ∧ m.length = 1 := by
  obtain ⟨c, hc, rfl⟩ := Regex.matches_set_iff.mp h
  exact ⟨⟨List.Sublist.refl _, id, fun _ _ _ _ => .set hc⟩, rfl⟩

/-- A match of a part, where the whole matches what the part does. -/
theorem Shortens.lift {e f : Regex UInt8} {l m r l₁ m₁ r₁ m' : List UInt8}
    (h : Shortens e l₁ m₁ r₁ m') (hsub : m₁.Sublist m) (hne : m ≠ [] → m₁ ≠ [])
    (hl : l₁ = [] → l = []) (hr : r₁ = [] → r = [])
    (hf : ∀ l' r', e.Matches l' m' r' → f.Matches l' m' r') : Shortens f l m r m' where
  sublist := h.sublist.trans hsub
  ne_nil := fun hm => h.ne_nil (hne hm)
  stands := fun l' r' hl' hr' => hf l' r' (h.stands l' r' (fun h => hl' (hl h)) fun h => hr' (hr h))

theorem shortens_nil {e : Regex UInt8} {l r : List UInt8}
    (h : ∀ l' r', (l = [] → l' = []) → (r = [] → r' = []) → e.Matches l' [] r') :
    Shortens e l [] r [] := ⟨List.Sublist.refl _, id, h⟩

/-- **A short match** for each match of a regular expression. -/
theorem Spells.shorten {lvl : Level} {s : List UInt8} {e : Regex UInt8} (h : Spells lvl s e)
    {l m r : List UInt8} (hm : e.Matches l m r) : ∃ m', Shortens e l m r m' ∧ NotLonger m' s := by
  induction h generalizing l m r with
  | @char c hc =>
    obtain ⟨hshort, hlen⟩ := shortens_set hm
    refine ⟨m, hshort, Nat.le_of_eq hlen, Or.inr ?_⟩
    intro d hd
    rw [List.mem_singleton.mp hd]
    exact Or.inl hc
  | any =>
    obtain ⟨hshort, hlen⟩ := shortens_set hm
    refine ⟨m, hshort, Nat.le_of_eq hlen, Or.inr ?_⟩
    intro d hd
    exact Or.inr (List.mem_singleton.mp hd)
  | escape hc =>
    obtain ⟨hshort, hlen⟩ := shortens_set hm
    refine ⟨m, hshort, notLonger_of_lt ?_⟩
    rw [hlen]
    exact Nat.one_lt_two
  | brackets hx hs | complement hx hs =>
    obtain ⟨hshort, hlen⟩ := shortens_set hm
    refine ⟨m, hshort, notLonger_of_lt ?_⟩
    rw [hlen]
    simp
  | lineStart =>
    cases hm
    refine ⟨[], shortens_nil ?_, notLonger_of_lt (by decide)⟩
    intro l' r' hl' _
    rw [hl' rfl]
    exact .lineStart
  | lineEnd =>
    cases hm
    refine ⟨[], shortens_nil ?_, notLonger_of_lt (by decide)⟩
    intro l' r' _ hr'
    rw [hr' rfl]
    exact .lineEnd
  | group h ih =>
    obtain ⟨m', hshort, hlen⟩ := ih hm
    refine ⟨m', hshort, notLonger_of_lt ?_⟩
    have := hlen.1
    rw [List.length_cons, List.length_append]
    omega
  | atom h ih | branch h ih => exact ih hm
  | @star s e h ih =>
    rcases eq_or_ne m [] with rfl | hne
    · exact ⟨[], shortens_nil fun _ _ _ _ => .starNil, notLonger_of_lt (by simp)⟩
    · obtain ⟨l₁, m₁, r₁, hmatch, hne₁, hsub, hl, hr⟩ := hm.star_once hne
      obtain ⟨m', hshort, hlen⟩ := ih hmatch
      refine ⟨m', hshort.lift hsub (fun _ => hne₁) hl hr fun _ _ h => h.star_one, ?_⟩
      apply notLonger_of_lt
      rw [List.length_append]
      exact Nat.lt_succ_of_le hlen.1
  | @plus s e h ih =>
    obtain ⟨l₁, m₁, r₁, hmatch, hne₁, hsub, hl, hr⟩ := hm.plus_once
    obtain ⟨m', hshort, hlen⟩ := ih hmatch
    refine ⟨m', hshort.lift hsub hne₁ hl hr fun _ _ h => h.plus_one, ?_⟩
    apply notLonger_of_lt
    rw [List.length_append]
    exact Nat.lt_succ_of_le hlen.1
  | @opt s e h ih =>
    cases hm with
    | altLeft he =>
      obtain ⟨m', hshort, hlen⟩ := ih he
      refine ⟨m', hshort.lift (List.Sublist.refl m) id id id fun _ _ h => .altLeft h, ?_⟩
      apply notLonger_of_lt
      rw [List.length_append]
      exact Nat.lt_succ_of_le hlen.1
    | altRight he =>
      rw [Regex.matches_empty_iff.mp he]
      exact ⟨[], shortens_nil fun _ _ _ _ => .altRight .empty, notLonger_of_lt (by simp)⟩
  | nil =>
    rw [Regex.matches_empty_iff.mp hm]
    exact ⟨[], shortens_nil fun _ _ _ _ => .empty, Nat.le_refl 0,
      Or.inr fun c hc => absurd hc List.not_mem_nil⟩
  | cons h h' ih ih' =>
    obtain ⟨m₁, m₂, rfl, he, hf⟩ := Regex.matches_cat_iff.mp hm
    obtain ⟨m₁', hshort, hlen⟩ := ih he
    obtain ⟨m₂', hshort', hlen'⟩ := ih' hf
    refine ⟨m₁' ++ m₂', ⟨hshort.sublist.append hshort'.sublist, ?_, ?_⟩, hlen.append hlen'⟩
    · intro hne hnil
      obtain ⟨hnil₁, hnil₂⟩ := List.append_eq_nil_iff.mp hnil
      have hm₁ : m₁ = [] := not_not.mp fun h => hshort.ne_nil h hnil₁
      have hm₂ : m₂ = [] := not_not.mp fun h => hshort'.ne_nil h hnil₂
      exact hne (by rw [hm₁, hm₂, List.append_nil])
    · intro l' r' hl' hr'
      -- What is beside each of the two parts is empty if it was.
      refine .cat (hshort.stands l' (m₂' ++ r') hl' ?_) (hshort'.stands (l' ++ m₁') r' ?_ hr')
      · intro hnil
        obtain ⟨hnil, hr⟩ := List.append_eq_nil_iff.mp hnil
        have hm₂' : m₂' = [] := List.sublist_nil.mp (hnil ▸ hshort'.sublist)
        rw [hm₂', hr' hr, List.append_nil]
      · intro hnil
        obtain ⟨hl, hnil⟩ := List.append_eq_nil_iff.mp hnil
        have hm₁' : m₁' = [] := List.sublist_nil.mp (hnil ▸ hshort.sublist)
        rw [hm₁', hl' hl, List.append_nil]
  | @alt s s' e e' c h hc h' ih ih' =>
    cases hm with
    | altLeft he =>
      obtain ⟨m', hshort, hlen⟩ := ih he
      refine ⟨m', hshort.lift (List.Sublist.refl m) id id id fun _ _ h => .altLeft h, ?_⟩
      apply notLonger_of_lt
      have := hlen.1
      rw [List.length_append, List.length_cons]
      omega
    | altRight he =>
      obtain ⟨m', hshort, hlen⟩ := ih' he
      refine ⟨m', hshort.lift (List.Sublist.refl m) id id id fun _ _ h => .altRight h, ?_⟩
      apply notLonger_of_lt
      have := hlen.1
      rw [List.length_append, List.length_cons]
      omega

end Archie
