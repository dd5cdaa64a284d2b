/-
The layout of a strings file: a key separator, then the strings, each with a
separator after it.

* `stored` — the strings with their offsets.
* `StoredAt.prevSep`, `StoredAt.nextSep` — the separators around a place in a
  string.
* `keyMatchesWith_string` and the lemmas after it — what it means for a key with
  or without separators to match at a place of the file.
-/
import Mathlib.Data.List.Infix
import Archie.SearchWalk
import Archie.Stridx

namespace Archie

/-- The strings, each with a separator after it. -/
def fileBody (ss : List (List UInt8)) : List UInt8 := ss.flatMap (· ++ [keysepCh])

/-- The strings file. -/
def stringsFile (ss : List (List UInt8)) : List UInt8 := keysepCh :: fileBody ss

/-- The strings with their offsets, from an offset on. -/
def stored : ℕ → List (List UInt8) → List (ℕ × List UInt8)
  | _, [] => []
  | off, s :: ss => (off, s) :: stored (off + s.length + 1) ss

theorem fileBody_cons (s : List UInt8) (ss : List (List UInt8)) :
    fileBody (s :: ss) = s ++ keysepCh :: fileBody ss := by
  simp [fileBody]

theorem fileBody_append (ss ss' : List (List UInt8)) :
    fileBody (ss ++ ss') = fileBody ss ++ fileBody ss' := by
  simp [fileBody]

/-- Offsets grow. -/
theorem le_of_mem_stored {off : ℕ} {ss : List (List UInt8)} {e : ℕ × List UInt8}
    (he : e ∈ stored off ss) : off ≤ e.1 := by
  induction ss generalizing off with
  | nil => exact absurd he List.not_mem_nil
  | cons s ss ih =>
    rcases List.mem_cons.mp he with rfl | he
    · exact le_refl _
    · have h := ih he
      omega

theorem mem_of_mem_stored {off : ℕ} {ss : List (List UInt8)} {e : ℕ × List UInt8}
    (he : e ∈ stored off ss) : e.2 ∈ ss := by
  induction ss generalizing off with
  | nil => exact absurd he List.not_mem_nil
  | cons s ss ih =>
    rcases List.mem_cons.mp he with rfl | he
    · exact List.mem_cons_self
    · exact List.mem_cons_of_mem s (ih he)

theorem exists_mem_stored (off : ℕ) {ss : List (List UInt8)} {s : List UInt8} (hs : s ∈ ss) :
    ∃ o, (o, s) ∈ stored off ss := by
  induction ss generalizing off with
  | nil => exact absurd hs List.not_mem_nil
  | cons x ss ih =>
    rcases List.mem_cons.mp hs with rfl | hs
    · exact ⟨off, List.mem_cons_self⟩
    · obtain ⟨o, ho⟩ := ih _ hs
      exact ⟨o, List.mem_cons_of_mem _ ho⟩

/-- A string of the file with the separators around it. -/
structure StoredAt (text : List UInt8) (off : ℕ) (s : List UInt8) : Prop where
  pos : 0 < off
  before : text[off - 1]? = some keysepCh
  inside : ∀ i, off ≤ i → i < off + s.length → text[i]? ≠ some keysepCh
  after : text[off + s.length]? = some keysepCh

theorem storedAt_of_eq {pre s post text : List UInt8} (hs : keysepCh ∉ s)
    (htext : text = pre ++ [keysepCh] ++ s ++ keysepCh :: post) :
    StoredAt text (pre.length + 1) s where
  pos := Nat.succ_pos _
  before := by
    rw [htext]
    simp
  inside := by
    intro i hi hlt hsep
    obtain ⟨j, rfl⟩ : ∃ j, i = pre.length + 1 + j := ⟨i - (pre.length + 1), by omega⟩
    have hj : j < s.length := by omega
    have hget : text[pre.length + 1 + j]? = s[j]? := by
      rw [htext, List.append_assoc _ s, List.getElem?_append_right (by simp),
        List.length_append, List.length_singleton, Nat.add_sub_cancel_left,
        List.getElem?_append_left hj]
    rw [hget] at hsep
    exact hs (List.mem_of_getElem? hsep)
  after := by
    have hlen : (pre ++ [keysepCh] ++ s).length = pre.length + 1 + s.length := by
      simp only [List.length_append, List.length_singleton]
    rw [htext, List.getElem?_append_right (by omega), hlen, Nat.sub_self]
    rfl

/-- Every stored string is where its offset says. -/
theorem storedAt_of_mem (pre : List UInt8) {text : List UInt8} {rest : List (List UInt8)}
    (hrest : ∀ s ∈ rest, keysepCh ∉ s) (htext : text = pre ++ [keysepCh] ++ fileBody rest)
    {e : ℕ × List UInt8} (he : e ∈ stored (pre.length + 1) rest) : StoredAt text e.1 e.2 := by
  induction rest generalizing pre with
  | nil => exact absurd he List.not_mem_nil
  | cons s rest ih =>
    have hs := hrest s List.mem_cons_self
    rw [fileBody_cons, ← List.append_assoc] at htext
    rcases List.mem_cons.mp he with rfl | he
    · exact storedAt_of_eq hs htext
    · have hpre : text = (pre ++ [keysepCh] ++ s) ++ [keysepCh] ++ fileBody rest := by
        rw [htext]
        simp
      have hlen : (pre ++ [keysepCh] ++ s).length + 1 = pre.length + 1 + s.length + 1 := by
        simp only [List.length_append, List.length_singleton]
      exact ih _ (fun s' hs' => hrest s' (List.mem_cons_of_mem _ hs')) hpre (hlen ▸ he)

/-- Reading backwards from a place in a string, or from the separator before it. -/
theorem StoredAt.prevSep {text s : List UInt8} {off : ℕ} (h : StoredAt text off s) {i : ℕ}
    (hi : off ≤ i + 1) (hlt : i < off + s.length) : prevSep text i = some (off - 1) := by
  have hpos := h.pos
  induction i with
  | zero =>
    have hoff : off = 1 := by omega
    have hb := h.before
    rw [hoff] at hb ⊢
    rw [Archie.prevSep, if_pos hb]
  | succ i ih =>
    by_cases hin : off ≤ i + 1
    · rw [Archie.prevSep, if_neg (h.inside (i + 1) hin hlt)]
      exact ih hin (by omega)
    · have hoff : off - 1 = i + 1 := by omega
      have hb := h.before
      rw [hoff] at hb ⊢
      rw [Archie.prevSep, if_pos hb]

/-- Reading forwards from a place in a string, or from the separator after it. -/
theorem StoredAt.nextSep {text s : List UInt8} {off : ℕ} (h : StoredAt text off s) {i : ℕ}
    (hi : off ≤ i) (hle : i ≤ off + s.length) : nextSep text i = some (off + s.length) := by
  have hidx : (text.drop i).findIdx? (· = keysepCh) = some (off + s.length - i) := by
    have hlt : off + s.length - i < (text.drop i).length := by
      have hafter := List.getElem?_eq_some_iff.mp h.after
      obtain ⟨hlen, -⟩ := hafter
      rw [List.length_drop]
      omega
    rw [List.findIdx?_eq_some_iff_getElem]
    refine ⟨hlt, ?_, ?_⟩
    · obtain ⟨hlen, hget⟩ := List.getElem?_eq_some_iff.mp h.after
      rw [List.getElem_drop]
      simp only [decide_eq_true_iff]
      rw [← hget]
      congr 1
      omega
    · intro j hj
      have hne := h.inside (i + j) (by omega) (by omega)
      rw [List.getElem_drop]
      simp only [decide_eq_true_iff]
      intro hsep
      rw [List.getElem?_eq_getElem (by rw [List.length_drop] at hlt; omega), hsep] at hne
      exact hne rfl
  rw [Archie.nextSep, hidx, Option.map_some]
  congr 1
  omega

/-! ### Keys at a place of the file -/

/-- A comparison under which only a separator is like a separator. -/
def SepOnly (fold : UInt8 → UInt8) : Prop := ∀ c, fold c = fold keysepCh ↔ c = keysepCh

theorem sepOnly_fold (s : Sens) : SepOnly s.fold := by
  have hl : SepOnly toLower := by
    intro c
    refine forall_uint8 (P := fun c => toLower c = toLower keysepCh ↔ c = keysepCh) ?_ c
    decide +kernel
  have hn : SepOnly noAccent := by
    intro c
    refine forall_uint8 (P := fun c => noAccent c = noAccent keysepCh ↔ c = keysepCh) ?_ c
    decide +kernel
  intro c
  cases s with
  | ciai =>
    refine Iff.trans ?_ (hn c)
    have hkey : noAccent keysepCh = keysepCh := by decide +kernel
    show toLower (noAccent c) = toLower (noAccent keysepCh) ↔ _
    rw [hkey]
    exact hl (noAccent c)
  | cias => exact hl c
  | csai => exact hn c
  | csas => exact Iff.rfl

section Keys

variable {fold : UInt8 → UInt8} (hfold : SepOnly fold)

include hfold

/-- A key without separator matches inside one string only. -/
theorem keyMatchesWith_string {k s : List UInt8} (hk : keysepCh ∉ k) (post : List UInt8) :
    keyMatchesWith fold k (s ++ keysepCh :: post) = keyMatchesWith fold k s := by
  induction k generalizing s with
  | nil => cases s <;> rfl
  | cons c k ih =>
    have hc : fold c ≠ fold keysepCh := fun h =>
      hk (by rw [(hfold c).mp h]; exact List.mem_cons_self)
    have hk' : keysepCh ∉ k := fun h => hk (List.mem_cons_of_mem c h)
    cases s with
    | nil => simp [keyMatchesWith, hc]
    | cons d s =>
      rw [List.cons_append, keyMatchesWith, keyMatchesWith, ih hk']

/-- A key that ends with a separator matches a whole string. -/
theorem keyMatchesWith_exact {k s : List UInt8} (hk : keysepCh ∉ k) (hs : keysepCh ∉ s)
    (post : List UInt8) :
    keyMatchesWith fold (k ++ [keysepCh]) (s ++ keysepCh :: post) =
      decide (k.map fold = s.map fold) := by
  induction k generalizing s with
  | nil =>
    cases s with
    | nil => simp [keyMatchesWith]
    | cons d s =>
      have hd : fold keysepCh ≠ fold d := fun h =>
        hs (by rw [(hfold d).mp h.symm]; exact List.mem_cons_self)
      simp [keyMatchesWith, hd]
  | cons c k ih =>
    have hc : fold c ≠ fold keysepCh := fun h =>
      hk (by rw [(hfold c).mp h]; exact List.mem_cons_self)
    have hk' : keysepCh ∉ k := fun h => hk (List.mem_cons_of_mem c h)
    cases s with
    | nil => simp [keyMatchesWith, hc]
    | cons d s =>
      have hs' : keysepCh ∉ s := fun h => hs (List.mem_cons_of_mem d h)
      rw [List.cons_append, List.cons_append, keyMatchesWith, ih hk' hs']
      by_cases hcd : fold c = fold d <;> simp [hcd]

/-- A key that begins with a separator does not match inside a string. -/
theorem keyMatchesWith_sep_string {k s : List UInt8} {c : UInt8} (hc : c ≠ keysepCh) :
    keyMatchesWith fold (keysepCh :: k) (c :: s) = false := by
  have h : fold keysepCh ≠ fold c := fun h => hc ((hfold c).mp h.symm)
  rw [keyMatchesWith, if_pos h]

end Keys

/-! ### What a search should find -/

/-- A string matches a key: it contains the key, or begins with it when only
words are looked at, or equals it. -/
def Matches (idxType : IndexType) (srchType : SrchType) (fold : UInt8 → UInt8)
    (key s : List UInt8) : Bool :=
  match srchType, idxType with
  | .substr, .chars => decide (key.map fold <:+: s.map fold)
  | .substr, .words => decide (key.map fold <+: s.map fold)
  | .exact, _ => decide (key.map fold = s.map fold)
  | _, _ => false

theorem matches_chars_iff {fold : UInt8 → UInt8} {key s : List UInt8} :
    Matches .chars .substr fold key s = true ↔ key.map fold <:+: s.map fold := decide_eq_true_iff

theorem matches_words_iff {fold : UInt8 → UInt8} {key s : List UInt8} :
    Matches .words .substr fold key s = true ↔ key.map fold <+: s.map fold := decide_eq_true_iff

/-- The matching strings of a file with their offsets, in file order. -/
def matching (idxType : IndexType) (srchType : SrchType) (fold : UInt8 → UInt8)
    (key : List UInt8) (ss : List (List UInt8)) : List (ℕ × List UInt8) :=
  (stored 1 ss).filter fun e => Matches idxType srchType fold key e.2

end Archie
