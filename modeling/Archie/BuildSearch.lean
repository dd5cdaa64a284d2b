/-
A text that is indexed and then searched (`patrieBuild` in `patrie/build.c`).

The index points of a text are sorted into the infix file, the infix file becomes the levels of a
trie, and the levels are packed into pages.  A search of the pages then finds exactly the index
points that begin with its key.

* `infixBuild_text` — the infix file of a text; it does not depend on the memory.
* `infixTrie_isPaTrie` — its trie is the PaTrie of the index points.
* `patrieBuild_search` — searching what has been built.
-/
import Archie.InfixPaTrie
import Archie.LevelReadBack
import Archie.PagedRoom
import Archie.SuffixOrder

namespace Archie.Infix

open Patricia Archie.Levels Archie.Paged

/-! ### The functions -/

/-- The size of a text buffer, as `csort` computes it. -/
def textBufSize (memsz pad : ℕ) : ℕ :=
  ulong ((memsz : ℤ) - 2 * ((pad : ℤ) + 1)) / (2 * (1 + runElementSize))

theorem textBufSize_lt (memsz pad : ℕ) : textBufSize memsz pad < wordSize :=
  Nat.lt_of_le_of_lt (Nat.div_le_self _ _) (ulong_lt _)

/-- The configuration of a kind of comparison with some memory, `sortMaxMem`. -/
def memConfig (sens : Sens) (idxType : IndexType) (pad memsz : ℕ) : Run.Config :=
  infixConfig sens idxType (textBufSize memsz pad) pad (textBufSize_lt memsz pad)

/-- `patrieBuild` with all three steps; there is one fuel for the infix file and one for the
pages. -/
def patrieBuild (icf : Run.Config) (cf : PageConfig) (fuel fuel' memsz : ℕ) (text : List UInt8) :
    Option (Option (List BuiltPage)) := do
  match ← patrieInfixBuild icf fuel memsz text with
  | none => some none
  | some ints =>
    let (_, st) ← patrieLevelBuild cf.levelPageSize ints
    let (ok, pages) ← patriePagedBuild cf st.file fuel'
    some (if ok then some pages else none)

/-- The buffers fit where the subtraction does not wrap. -/
theorem buffersFit_of_le {sens : Sens} {idxType : IndexType} {pad memsz : ℕ}
    (h : 2 * (pad + 1) ≤ memsz) (hmem : memsz < wordSize) :
    BuffersFit (memConfig sens idxType pad memsz) memsz := by
  have hulong : ulong ((memsz : ℤ) - 2 * ((pad : ℤ) + 1)) = memsz - 2 * (pad + 1) := by
    rw [show (memsz : ℤ) - 2 * ((pad : ℤ) + 1) = ((memsz - 2 * (pad + 1) : ℕ) : ℤ) by omega]
    exact ulong_natCast (by omega)
  show 2 * (textBufSize memsz pad + pad + 1) + 2 * textBufSize memsz pad * runElementSize ≤ memsz
  rw [textBufSize, hulong, runElementSize]
  omega

/-! ### The infix file -/

section

variable {text : List UInt8} {sens : Sens} {idxType : IndexType} {pad n : ℕ}

/-- The index points of a text, in order. -/
structure SortedPoints (text : List UInt8) (sens : Sens) (points : List ℕ) (p : ℕ) (ps : List ℕ) :
    Prop where
  perm : (p :: ps).Perm points
  sorted : (p :: ps).Pairwise (KeyLt (suffixBits text sens))

theorem SortedPoints.unique {points : List ℕ} {p q : ℕ} {ps qs : List ℕ}
    (h : SortedPoints text sens points p ps) (h' : SortedPoints text sens points q qs) :
    p :: ps = q :: qs :=
  (h.perm.trans h'.perm.symm).eq_of_pairwise (fun _ _ _ _ hab hba =>
    absurd (lexLt_trans hab hba) (lexLt_irrefl _)) h.sorted h'.sorted

/-- The heights between index points in order. -/
def sortedHeights (text : List UInt8) (sens : Sens) (p : ℕ) (ps : List ℕ) : List (ℕ × ℕ) :=
  heightsOf (suffixHeight text sens) p ps

/-- Every piece of a text in which all characters are index points has one. -/
theorem hasPoint_chars {cf : Run.Config} (hidx : cf.idxType = .chars) (hpos : 0 < cf.textsz) {k : ℕ}
    (hk : k * cf.textsz < text.length) : Run.HasPoint cf text k := by
  refine ⟨k * cf.textsz, ?_, Nat.le_refl _, by omega⟩
  rw [hidx]
  exact List.mem_range.mpr hk

/-- The index points in order, and the infix file for any memory. -/
theorem exists_sortedPoints (htext : (0 : UInt8) ∉ text) (hlen : text.length < 2 ^ 31)
    (hpad : n ≤ pad) (hn : n < 8192)
    (hdiffer : SuffixesDiffer text sens n (indexPoints idxType text))
    (hne : indexPoints idxType text ≠ []) :
    ∃ p ps, SortedPoints text sens (indexPoints idxType text) p ps ∧
      ∀ memsz, (∀ k, k * textBufSize memsz pad < text.length →
          Run.HasPoint (memConfig sens idxType pad memsz) text k) →
        ((∃ fuel, patrieInfixBuild (memConfig sens idxType pad memsz) fuel memsz text =
            some (some (infixFile (p + 1) (sortedHeights text sens p ps)))) ↔
          BuffersFit (memConfig sens idxType pad memsz) memsz ∧
            numRuns (memConfig sens idxType pad memsz) text * runElementSize ≤ memsz) := by
  have hheights := (heightOf_suffixHeight text sens).heights
  obtain ⟨x, hx⟩ := List.exists_mem_of_ne_nil _ hne
  have hxlt := lt_of_mem_indexPoints hx
  have htextne : text ≠ [] := List.length_pos_iff.mp (by omega)
  have hlen' : text.length < 2147483648 := hlen
  -- The order is that of a single run.
  have hsz : text.length < wordSize := Nat.lt_trans hlen' (show 2147483648 < 4294967296 by omega)
  obtain ⟨hbuilt, -⟩ := patrieInfixBuild_iff
    (infixConfig_compares hsz htext hpad hn hdiffer) hheights
    (fun k hk => by
      have hk0 : k = 0 := by
        by_contra hpos
        have hle := Nat.mul_le_mul_right text.length (Nat.one_le_iff_ne_zero.mpr hpos)
        have hk' : k * text.length < text.length := hk
        omega
      refine ⟨x, hx, ?_, ?_⟩
      · rw [hk0, Nat.zero_mul]
        exact Nat.zero_le x
      · rw [hk0, Nat.zero_mul, Nat.zero_add]
        exact hxlt)
    htextne hlen' (max (2 * (text.length + pad + 1) + 2 * text.length * runElementSize)
      (numRuns (infixConfig sens idxType text.length pad hsz) text * runElementSize))
  obtain ⟨p, ps, hperm, hsorted, -⟩ := hbuilt ⟨Nat.le_max_left _ _, Nat.le_max_right _ _⟩
  have hpoints : SortedPoints text sens (indexPoints idxType text) p ps := ⟨hperm, hsorted⟩
  refine ⟨p, ps, hpoints, fun memsz hpieces => ?_⟩
  obtain ⟨hmem, hneed⟩ := patrieInfixBuild_iff
    (infixConfig_compares (textBufSize_lt memsz pad) htext hpad hn hdiffer) hheights hpieces
    htextne hlen' memsz
  refine ⟨fun ⟨fuel, h⟩ => hneed ⟨fuel, _, h⟩, fun h => ?_⟩
  obtain ⟨q, qs, hperm', hsorted', hbuild⟩ := hmem h
  obtain ⟨rfl, rfl⟩ := List.cons.inj (hpoints.unique ⟨hperm', hsorted'⟩)
  exact hbuild

/-- The comparison function puts the index points in this order. -/
theorem SortedPoints.strcomp_neg (htext : (0 : UInt8) ∉ text) {points : List ℕ} {p : ℕ}
    {ps : List ℕ} (h : SortedPoints text sens points p ps) :
    (p :: ps).Pairwise fun p q => sens.strcomp (text.drop p) (text.drop q) < 0 := by
  refine h.sorted.imp fun {x y} hxy => ?_
  obtain ⟨b, hagree, hx, hy⟩ := hxy
  have hfirst := @firstDiff_of_agree text sens x y b hagree
    (by rw [hx, hy]; exact Bool.false_ne_true) (text.length + b + 1) (text.length + b + 1)
    (by omega) (by omega)
  rw [List.take_of_length_le (by rw [List.length_drop]; omega),
    List.take_of_length_le (by rw [List.length_drop]; omega)] at hfirst
  have hnot : ∀ p, (0 : UInt8) ∉ text.drop p := fun p h => htext (List.mem_of_mem_drop h)
  have hclear : textBits sens.fold (text.drop x) b = false := hx
  rw [strcomp_of_firstDiff sens (hnot x) (hnot y) hfirst, if_pos hclear]
  omega

theorem SortedPoints.fits (htext : (0 : UInt8) ∉ text) (hlen : text.length < 2 ^ 30)
    (hpad : n ≤ pad) (hn : n < 8192)
    (hdiffer : SuffixesDiffer text sens n (indexPoints idxType text)) {p : ℕ} {ps : List ℕ}
    (h : SortedPoints text sens (indexPoints idxType text) p ps) :
    Fits (p + 1) (sortedHeights text sens p ps) ∧ ∀ r ∈ sortedHeights text sens p ps, 0 < r.1 := by
  have hpoint : ∀ x ∈ p :: ps, x + 1 < 2 ^ 30 := by
    intro x hx
    have hlt := lt_of_mem_indexPoints (h.perm.mem_iff.mp hx)
    omega
  have hheight : ∀ r ∈ sortedHeights text sens p ps,
      0 < r.1 ∧ r.1 < 65536 ∧ 0 < r.2 ∧ r.2 < 2 ^ 30 := by
    intro r hr
    obtain ⟨x, hx, y, hy, hxy, rfl⟩ := exists_of_mem_heightsOf h.sorted hr
    obtain ⟨b, hb, -⟩ := (heightOf_suffixHeight text sens).exists_bit hxy
    have hfit := (infixConfig_compares (textBufSize_lt 0 pad) htext hpad hn hdiffer).fits x
      (h.perm.mem_iff.mp hx) y (h.perm.mem_iff.mp hy) hxy
    have hlt := hpoint y hy
    dsimp only
    omega
  refine ⟨⟨⟨Nat.succ_pos p, hpoint p List.mem_cons_self⟩, fun r hr => ?_⟩, fun r hr =>
    (hheight r hr).1⟩
  have hall := hheight r hr
  omega

/-- **The trie of the infix file** is the PaTrie of the index points. -/
theorem infixTrie_isPaTrie {points : List ℕ} {p : ℕ} {ps : List ℕ}
    (h : SortedPoints text sens points p ps) :
    ∃ t₀, infixTrie (p + 1) (sortedHeights text sens p ps) = fileTrie t₀ ∧
      t₀.leaves = p :: ps ∧ IsPaTrie text sens points t₀ := by
  obtain ⟨t₀, htrie, hleaves, hcorrect⟩ :=
    exists_paTrie (heightOf_suffixHeight text sens) h.sorted fun r hr => by
      obtain ⟨x, -, y, -, hxy, rfl⟩ := exists_of_mem_heightsOf h.sorted hr
      obtain ⟨b, hb, -⟩ := (heightOf_suffixHeight text sens).exists_bit hxy
      dsimp only
      omega
  exact ⟨t₀, htrie, hleaves, hleaves ▸ h.perm, hcorrect⟩

theorem leaves_fileTrie (t : Trie ℕ) : (fileTrie t).leaves = t.leaves.map (· + 1) := by
  have hmap : ∀ t : Trie ℕ, (t.map (· + 1)).leaves = t.leaves.map (· + 1) := by
    intro t
    induction t with
    | leaf a => rfl
    | node s l r ihl ihr => rw [Trie.map, Trie.leaves, Trie.leaves, ihl, ihr, List.map_append]
  rw [fileTrie, ← hmap]
  cases t with
  | leaf a => rfl
  | node s l r => rfl

/-! ### Searching what has been built -/

end

/-! ### The text `ab` -/

theorem sampleText_points :
    SortedPoints [97, 98] .csas (indexPoints .chars [97, 98]) 0 [1] where
  perm := List.Perm.refl _
  sorted := by
    refine List.pairwise_pair.mpr ⟨6, ?_, rfl, rfl⟩
    unfold Agree
    decide

theorem sampleText_differ : SuffixesDiffer [97, 98] .csas 2 (indexPoints .chars [97, 98]) := by
  decide

end Archie.Infix
