/-
The list of addresses that may use the server (`libparchie/restrict.c`).

* `readAclFile`, `verifyAclList` — the file, sorted, and the scan that ends at a greater entry.
* `verifyLoop_iff` — the scan of a sorted list.
* `compareFrom_neg_iff`, `entry_lt_iff` — which entries end it before another one.
* `readAclFile_text`, `ipOf_inAddrText` — what is read of a file and of an address.
* `verified_iff` — for which files and addresses the list does what its lines say.
-/
import Archie.CText
import Mathlib.Data.List.Forall2
import Mathlib.Data.List.GetD
import Mathlib.Data.List.Lex

namespace Archie

/-! ### The functions -/

/-- `IP_STAR`. -/
def ipStar : ℤ := 257

/-- `ip_t`. -/
abbrev Ip := {ip : List ℤ // ip.length = 4}

/-- `qcompare_ip`, from a component on. -/
def qcompareFrom : List ℤ → List ℤ → ℤ
  | a :: as, b :: bs => if a ≠ b then a - b else qcompareFrom as bs
  | _, _ => 0

def qcompareIp (a b : Ip) : ℤ := qcompareFrom a.1 b.1

/-- `compare_ip`, from a component on; the second one may have stars. -/
def compareFrom : List ℤ → List ℤ → ℤ
  | a :: as, b :: bs => if b = ipStar then 0 else if a ≠ b then a - b else compareFrom as bs
  | _, _ => 0

def compareIp (a b : Ip) : ℤ := compareFrom a.1 b.1

/-- The two loops over the components of a line, for those that are left. -/
def aclFields : ℕ → List (List UInt8) → List ℤ
  | 0, _ => []
  | n + 1, [] => List.replicate (n + 1) ipStar
  | n + 1, f :: av =>
    if f.head? = some 42 then List.replicate (n + 1) ipStar else atoi f :: aclFields n av

theorem length_aclFields : ∀ (n : ℕ) (av : List (List UInt8)), (aclFields n av).length = n
  | 0, _ => rfl
  | n + 1, [] => List.length_replicate
  | n + 1, f :: av => by
    rw [aclFields]
    split
    · exact List.length_replicate
    · rw [List.length_cons, length_aclFields n av]

/-- The entry of a line. -/
def aclEntry (buff : List UInt8) : Ip :=
  ⟨aclFields 4 (strSepFields 46 [] (buff.takeWhile (· ≠ 0))), length_aclFields 4 _⟩

/-- `read_acl_file`; none, where it sets `acl_not_present`. -/
def readAclFile (text : List UInt8) : Option (List Ip) :=
  match fgetsLines 99 text with
  | [] => none
  | lines => some ((lines.map aclEntry).mergeSort fun a b => qcompareIp a b ≤ 0)

/-- `inet_ntoa`. -/
def inAddrText (addr : Vector UInt8 4) : List UInt8 :=
  [46].intercalate (addr.toList.map fun b => printULong b.toNat)

/-- The components of the text of an address. -/
def ipOf (ipAddr : List UInt8) : Ip :=
  let av := strSepFields 46 [] ipAddr
  ⟨(List.range 4).map fun i => atoi (av.getD i []), by rw [List.length_map, List.length_range]⟩

/-- The loop of `verify_acl_list`. -/
def verifyLoop (ip : Ip) : List Ip → Bool
  | [] => false
  | entry :: aclList =>
    if compareIp ip entry = 0 then true
    else if compareIp ip entry < 0 then false
    else verifyLoop ip aclList

/-- `verify_acl_list`, after the file was read. -/
def verifyAclList (acl : Option (List Ip)) (addr : Vector UInt8 4) : Bool :=
  match acl with
  | none => true
  | some aclList =>
    let ip := ipOf (inAddrText addr)
    if ip.1 = [127, 0, 0, 1] then true else verifyLoop ip aclList

/-! ### The scan of a sorted list -/

theorem qcompareFrom_nonpos {a b : List ℤ} (h : a.length = b.length) :
    qcompareFrom a b ≤ 0 ↔ a ≤ b := by
  rw [← @not_lt (List ℤ) _ b a]
  induction a generalizing b with
  | nil =>
    rw [qcompareFrom.eq_def]
    exact iff_of_true le_rfl (List.not_lt_nil b)
  | cons x a ih =>
    cases b with
    | nil => exact absurd h (Nat.succ_ne_zero _)
    | cons y b =>
      have hrest := ih (b := b) (Nat.succ.inj h)
      rw [qcompareFrom, List.cons_lt_cons_iff]
      split
      next hxy =>
        constructor
        · rintro hle (hlt | ⟨heq, -⟩)
          · omega
          · exact hxy heq.symm
        · intro hnot
          have := mt Or.inl hnot
          omega
      next hxy =>
        obtain rfl := not_not.mp hxy
        rw [hrest]
        exact ⟨fun hle hor => hor.elim (lt_irrefl x) fun h => hle h.2,
          fun hnot hlt => hnot (Or.inr ⟨rfl, hlt⟩)⟩

theorem qcompareIp_nonpos {a b : Ip} : qcompareIp a b ≤ 0 ↔ a.1 ≤ b.1 :=
  qcompareFrom_nonpos (a.2.trans b.2.symm)

/-- **The scan** finds an entry, unless a smaller one is greater than the address. -/
theorem verifyLoop_iff {ip : Ip} {aclList : List Ip} (hsorted : aclList.Pairwise (·.1 ≤ ·.1)) :
    verifyLoop ip aclList = true ↔ ∃ entry ∈ aclList, compareIp ip entry = 0 ∧
      ∀ other ∈ aclList, other.1 < entry.1 → ¬ compareIp ip other < 0 := by
  induction aclList with
  | nil => simp [verifyLoop]
  | cons e aclList ih =>
    obtain ⟨hle, hsorted⟩ := List.pairwise_cons.mp hsorted
    rw [verifyLoop]
    split
    next hzero =>
      refine iff_of_true rfl ⟨e, List.mem_cons_self, hzero, fun other hother hlt => ?_⟩
      rcases List.mem_cons.mp hother with rfl | hmem
      · exact absurd hlt (lt_irrefl _)
      · exact absurd hlt (not_lt.mpr (hle other hmem))
    next hne =>
      split
      next hneg =>
        -- Every entry that is found comes after this one.
        refine iff_of_false Bool.false_ne_true ?_
        rintro ⟨entry, hentry, hzero, hno⟩
        rcases List.mem_cons.mp hentry with rfl | hmem
        · exact hne hzero
        · have hlt : e.1 < entry.1 := lt_of_le_of_ne (hle entry hmem) fun heq =>
            hne (by rw [Subtype.ext heq]; exact hzero)
          exact hno e List.mem_cons_self hlt hneg
      next hpos =>
        rw [ih hsorted]
        constructor
        · rintro ⟨entry, hentry, hzero, hno⟩
          refine ⟨entry, List.mem_cons_of_mem e hentry, hzero, fun other hother hlt => ?_⟩
          rcases List.mem_cons.mp hother with rfl | hmem
          · exact hpos
          · exact hno other hmem hlt
        · rintro ⟨entry, hentry, hzero, hno⟩
          rcases List.mem_cons.mp hentry with rfl | hmem
          · exact absurd hzero hne
          · exact ⟨entry, hmem, hzero, fun other hother => hno other (List.mem_cons_of_mem e hother)⟩

/-! ### Entries -/

section

variable {ip nums nums' : List ℤ} {k k' : ℕ}

/-- The numbers of an entry are no star. -/
def NoStar (nums : List ℤ) : Prop := ∀ n ∈ nums, n < ipStar

theorem compareFrom_eq_zero_iff (hnums : NoStar nums) (hlen : nums.length ≤ ip.length) :
    compareFrom ip (nums ++ List.replicate k ipStar) = 0 ↔ nums <+: ip := by
  induction nums generalizing ip with
  | nil =>
    refine iff_of_true ?_ List.nil_prefix
    cases ip <;> cases k <;> simp [compareFrom, List.replicate_succ]
  | cons n nums ih =>
    cases ip with
    | nil => exact absurd hlen (Nat.not_succ_le_zero _)
    | cons a ip =>
      have hn := hnums n List.mem_cons_self
      rw [List.cons_append, compareFrom, if_neg hn.ne, List.cons_prefix_cons]
      split
      next hne => exact iff_of_false (by omega) fun h => hne h.1.symm
      next heq =>
        rw [ih (fun m hm => hnums m (List.mem_cons_of_mem n hm)) (Nat.le_of_succ_le_succ hlen)]
        exact ⟨fun h => ⟨(not_not.mp heq).symm, h⟩, And.right⟩

/-- Up to a place the address is that of the line, and there it has a smaller number. -/
def SmallerAt (ip nums : List ℤ) (d : ℕ) : Prop :=
  ∃ pre a as n ns, ip = pre ++ a :: as ∧ nums = pre ++ n :: ns ∧ a < n ∧ pre.length = d

theorem compareFrom_neg_iff (hnums : NoStar nums) :
    compareFrom ip (nums ++ List.replicate k ipStar) < 0 ↔ ∃ d, SmallerAt ip nums d := by
  induction nums generalizing ip with
  | nil =>
    refine iff_of_false ?_ ?_
    · cases ip <;> cases k <;> simp [compareFrom, List.replicate_succ]
    · rintro ⟨d, pre, a, as, n, ns, -, h, -⟩
      exact absurd h (by simp)
  | cons n nums ih =>
    cases ip with
    | nil =>
      refine iff_of_false (by simp [compareFrom]) ?_
      rintro ⟨d, pre, a, as, m, ns, h, -⟩
      exact absurd h (by simp)
    | cons a ip =>
      have hn := hnums n List.mem_cons_self
      rw [List.cons_append, compareFrom, if_neg hn.ne]
      split
      next hne =>
        constructor
        · intro hlt
          exact ⟨0, [], a, ip, n, nums, rfl, rfl, by omega, rfl⟩
        · rintro ⟨d, pre, b, as, m, ns, h, h', hlt, -⟩
          cases pre with
          | nil =>
            obtain ⟨rfl, -⟩ := List.cons.inj h
            obtain ⟨rfl, -⟩ := List.cons.inj h'
            omega
          | cons p pre => exact absurd ((List.cons.inj h).1.trans (List.cons.inj h').1.symm) hne
      next heq =>
        obtain rfl := not_not.mp heq
        rw [ih fun m hm => hnums m (List.mem_cons_of_mem a hm)]
        constructor
        · rintro ⟨d, pre, b, as, m, ns, rfl, rfl, hlt, rfl⟩
          exact ⟨_, a :: pre, b, as, m, ns, rfl, rfl, hlt, rfl⟩
        · rintro ⟨d, pre, b, as, m, ns, h, h', hlt, -⟩
          cases pre with
          | nil =>
            obtain ⟨rfl, -⟩ := List.cons.inj h
            obtain ⟨rfl, -⟩ := List.cons.inj h'
            exact absurd hlt (lt_irrefl _)
          | cons p pre =>
            exact ⟨_, pre, b, as, m, ns, (List.cons.inj h).2, (List.cons.inj h').2, hlt, rfl⟩

/-- **Which entries come before one that the address agrees with**, of those that are greater
than the address. -/
theorem entry_lt_iff {d : ℕ} (hnums : NoStar nums') (hagree : nums <+: ip)
    (hsmaller : SmallerAt ip nums' d) (hlen : nums.length + k = nums'.length + k') :
    nums' ++ List.replicate k' ipStar < nums ++ List.replicate k ipStar ↔ nums.length ≤ d := by
  obtain ⟨pre, a, as, n, ns, rfl, rfl, hlt, rfl⟩ := hsmaller
  have hpre : pre <+: pre ++ a :: as := List.prefix_append _ _
  constructor
  · intro hless
    by_contra hshort
    -- The line has the number of the address, which is smaller.
    obtain ⟨r, rfl⟩ := List.prefix_of_prefix_length_le hpre hagree (by omega)
    rw [List.prefix_append_right_inj] at hagree
    cases r with
    | nil => simp at hshort
    | cons b r =>
      obtain ⟨rfl, -⟩ := List.cons_prefix_cons.mp hagree
      have hmore : pre ++ (b :: r ++ List.replicate k ipStar) <
          pre ++ (n :: ns ++ List.replicate k' ipStar) :=
        List.append_left_lt (List.cons_lt_cons_iff.mpr (Or.inl hlt))
      rw [← List.append_assoc, ← List.append_assoc] at hmore
      exact lt_asymm hless hmore
  · intro hlong
    obtain ⟨r, rfl⟩ := List.prefix_of_prefix_length_le hagree hpre hlong
    obtain ⟨j, rfl⟩ : ∃ j, k = j + 1 := ⟨k - 1, by
      simp only [List.length_append, List.length_cons] at hlen
      omega⟩
    rw [List.append_assoc, List.append_assoc, List.replicate_succ]
    apply List.append_left_lt
    cases r with
    | nil => exact List.cons_lt_cons_iff.mpr (Or.inl (hnums n (by simp)))
    | cons b r => exact List.cons_lt_cons_iff.mpr (Or.inl (hnums b (by simp)))

end

/-! ### The lines of a file -/

/-- A line of one to four components, each a number or, if there is none, a star. -/
structure AclLine where
  comps : List (Option UInt8)
  nonempty : comps ≠ []
  atMost : comps.length ≤ 4

/-- A component as it is written. -/
def compText : Option UInt8 → List UInt8
  | none => [42]
  | some n => printULong n.toNat

def AclLine.text (l : AclLine) : List UInt8 := [46].intercalate (l.comps.map compText)

/-- The numbers before the first star. -/
def givenOf : List (Option UInt8) → List ℤ
  | some n :: comps => n.toNat :: givenOf comps
  | _ => []

def AclLine.given (l : AclLine) : List ℤ := givenOf l.comps

/-- A file of one or more lines, the last one with its newline or without. -/
structure AclFile where
  lines : List AclLine
  nonempty : lines ≠ []
  newline : Bool

def AclFile.text (file : AclFile) : List UInt8 :=
  [10].intercalate (file.lines.map AclLine.text) ++ if file.newline then [10] else []

theorem length_givenOf_le : ∀ comps : List (Option UInt8), (givenOf comps).length ≤ comps.length
  | [] => le_rfl
  | none :: _ => Nat.zero_le _
  | some _ :: comps => Nat.succ_le_succ (length_givenOf_le comps)

theorem noStar_givenOf : ∀ comps : List (Option UInt8), NoStar (givenOf comps)
  | [] => fun _ h => absurd h List.not_mem_nil
  | none :: _ => fun _ h => absurd h List.not_mem_nil
  | some n :: comps => by
    intro m hm
    rcases List.mem_cons.mp hm with rfl | hm
    · have := n.toNat_lt
      unfold ipStar
      omega
    · exact noStar_givenOf comps m hm

theorem compText_ne_nil (c : Option UInt8) : compText c ≠ [] := by
  cases c with
  | none => exact List.cons_ne_nil _ _
  | some n => exact printULong_ne_nil n.toNat

/-- A component has neither a dot, a newline nor a NUL. -/
theorem not_mem_compText {c : Option UInt8} {b : UInt8} (hb : isDigit b = false) (hstar : b ≠ 42) :
    b ∉ compText c := by
  intro hmem
  cases c with
  | none => exact hstar (List.mem_singleton.mp hmem)
  | some n =>
    have := isDigit_printULong n.toNat b hmem
    rw [hb] at this
    exact Bool.noConfusion this

theorem length_compText (c : Option UInt8) : (compText c).length ≤ 3 := by
  cases c with
  | none => exact Nat.le_add_left 1 2
  | some n =>
    have := n.toNat_lt
    exact length_printULong (by omega) (by omega)

/-- A number is read, also before a newline. -/
theorem atoi_compText (n : UInt8) {f : List UInt8}
    (hf : f = compText (some n) ∨ f = compText (some n) ++ [10]) : atoi f = n.toNat := by
  have hlt := n.toNat_lt
  have hread : ∀ rest, NoDigit rest → atoi (printULong n.toNat ++ rest) = n.toNat := by
    intro rest hrest
    rw [atoi_digits (printULong_ne_nil _) (isDigit_printULong _) hrest, digitsValue_printULong]
    omega
  rcases hf with rfl | rfl
  · have hend := hread [] noDigit_nil
    rwa [List.append_nil] at hend
  · exact hread [10] (noDigit_cons rfl [])

theorem head?_compText (n : UInt8) {f : List UInt8}
    (hf : f = compText (some n) ∨ f = compText (some n) ++ [10]) : f.head? ≠ some 42 := by
  obtain ⟨c, t, hct⟩ := List.exists_cons_of_ne_nil (printULong_ne_nil n.toNat)
  have hc := isDigit_printULong n.toNat c (by rw [hct]; exact List.mem_cons_self)
  have hne : c ≠ 42 := by
    rintro rfl
    exact absurd hc (by decide)
  rw [compText, hct] at hf
  rcases hf with rfl | rfl <;> exact fun h => hne (Option.some.inj h)

/-- **What is read of a line.** -/
theorem aclFields_eq {comps : List (Option UInt8)} {av : List (List UInt8)} {n : ℕ}
    (h : List.Forall₂ (fun c f => f = compText c ∨ f = compText c ++ [10]) comps av)
    (hlen : comps.length ≤ n) :
    aclFields n av = givenOf comps ++ List.replicate (n - (givenOf comps).length) ipStar := by
  induction h generalizing n with
  | nil => cases n <;> rfl
  | @cons c f comps av hf _ ih =>
    obtain ⟨n, rfl⟩ : ∃ m, n = m + 1 := ⟨n - 1, by
      rw [List.length_cons] at hlen
      omega⟩
    cases c with
    | none =>
      have hhead : f.head? = some 42 := by rcases hf with rfl | rfl <;> rfl
      rw [aclFields, if_pos hhead]
      rfl
    | some m =>
      rw [aclFields, if_neg (head?_compText m hf), atoi_compText m hf,
        ih (Nat.le_of_succ_le_succ hlen), givenOf, List.cons_append, List.length_cons,
        Nat.add_sub_add_right]

/-- The entry of a line. -/
def AclLine.entry (l : AclLine) : List ℤ :=
  l.given ++ List.replicate (4 - l.given.length) ipStar

theorem AclLine.not_mem_text (l : AclLine) {b : UInt8} (hb : isDigit b = false) (hstar : b ≠ 42)
    (hdot : b ≠ 46) : b ∉ l.text := by
  have hall : ∀ comps : List (Option UInt8), b ∉ [46].intercalate (comps.map compText) := by
    intro comps
    induction comps with
    | nil => exact List.not_mem_nil
    | cons c comps ih =>
      cases comps with
      | nil =>
        rw [List.map_cons, List.map_nil, List.intercalate_singleton]
        exact not_mem_compText hb hstar
      | cons c' comps =>
        rw [List.map_cons, List.map_cons, List.intercalate_cons_cons, List.mem_append,
          List.mem_append, List.mem_singleton]
        exact fun h => h.elim (fun h => h.elim (not_mem_compText hb hstar) hdot) ih
  exact hall l.comps

theorem AclLine.length_text (l : AclLine) : l.text.length ≤ 16 := by
  have hall : ∀ comps : List (Option UInt8),
      ([46].intercalate (comps.map compText)).length ≤ 4 * comps.length := by
    intro comps
    induction comps with
    | nil => exact le_rfl
    | cons c comps ih =>
      have hc := length_compText c
      cases comps with
      | nil =>
        rw [List.map_cons, List.map_nil, List.intercalate_singleton, List.length_singleton]
        omega
      | cons c' comps =>
        rw [List.map_cons] at ih
        rw [List.map_cons, List.map_cons, List.intercalate_cons_cons]
        simp only [List.length_append, List.length_cons, List.length_nil] at ih ⊢
        omega
  have := hall l.comps
  have := l.atMost
  rw [AclLine.text]
  omega

theorem aclEntry_text (l : AclLine) {buff : List UInt8}
    (hbuff : buff = l.text ∨ buff = l.text ++ [10]) : (aclEntry buff).1 = l.entry := by
  obtain ⟨e, he, hsplit⟩ : ∃ e, (e = [] ∨ e = [10]) ∧ buff = l.text ++ e := by
    rcases hbuff with rfl | rfl
    · exact ⟨[], Or.inl rfl, (List.append_nil _).symm⟩
    · exact ⟨[10], Or.inr rfl, rfl⟩
  have hend : ∀ c ∈ e, c = 10 := by
    rcases he with rfl | rfl
    · exact fun c hc => absurd hc List.not_mem_nil
    · exact fun c hc => List.mem_singleton.mp hc
  have hnul : buff.takeWhile (· ≠ 0) = buff := by
    rw [List.takeWhile_eq_self_iff]
    intro c hc
    rw [hsplit, List.mem_append] at hc
    refine decide_eq_true ?_
    rintro rfl
    rcases hc with hc | hc
    · exact l.not_mem_text (by decide) (by decide) (by decide) hc
    · exact absurd (hend 0 hc) (by decide)
  have hjoin := @strSepFields_join 46 (l.comps.map compText)
    (by rw [Ne, List.map_eq_nil_iff]; exact l.nonempty)
    (fun f hf => by
      obtain ⟨c, -, rfl⟩ := List.mem_map.mp hf
      exact ⟨compText_ne_nil c, not_mem_compText (by decide) (by decide)⟩)
    e (fun h => absurd (hend 46 h) (by decide))
  show aclFields 4 (strSepFields 46 [] (buff.takeWhile (· ≠ 0))) = _
  rw [hnul, hsplit, AclLine.text, AclLine.entry, AclLine.given]
  refine aclFields_eq ?_ l.atMost
  refine (List.forall₂_map_left_iff.mp hjoin).imp fun c f hf => ?_
  rcases he with rfl | rfl
  · rw [List.append_nil] at hf
    exact Or.inl (hf.elim id id)
  · exact hf

/-- **What is read of a file**: its entries, in their order. -/
theorem readAclFile_text (file : AclFile) : ∃ aclList, readAclFile file.text = some aclList ∧
    aclList.Pairwise (·.1 ≤ ·.1) ∧
    ∀ entry : List ℤ, (∃ e ∈ aclList, e.1 = entry) ↔ ∃ l ∈ file.lines, entry = l.entry := by
  -- Each line is read with its newline, or the last one without.
  have hlines : ∀ lines : List AclLine, lines ≠ [] →
      List.Forall₂ (fun l buff => buff = l.text ∨ buff = l.text ++ [10]) lines
        (fgetsLines 99 ([10].intercalate (lines.map AclLine.text) ++
          if file.newline then [10] else [])) := by
    intro lines
    induction lines with
    | nil => exact fun h => absurd rfl h
    | cons l lines ih =>
      intro _
      have hnl : 10 ∉ l.text := l.not_mem_text (by decide) (by decide) (by decide)
      have hlen := l.length_text
      cases lines with
      | nil =>
        have hne : l.text ≠ [] := by
          obtain ⟨c, comps, hcomps⟩ := List.exists_cons_of_ne_nil l.nonempty
          rw [AclLine.text, hcomps, List.map_cons]
          cases comps with
          | nil =>
            rw [List.map_nil, List.intercalate_singleton]
            exact compText_ne_nil c
          | cons c' comps =>
            rw [List.map_cons, List.intercalate_cons_cons]
            simp [compText_ne_nil c]
        rw [List.map_cons, List.map_nil, List.intercalate_singleton]
        split
        · rw [fgetsLines_append hnl (by omega)]
          exact .cons (Or.inr rfl) .nil
        · rw [List.append_nil, fgetsLines_last hne hnl (by omega)]
          exact .cons (Or.inl rfl) .nil
      | cons l' lines =>
        rw [List.map_cons, List.map_cons, List.intercalate_cons_cons, List.append_assoc,
          List.append_assoc, List.singleton_append, fgetsLines_append hnl (by omega), ← List.map_cons]
        exact .cons (Or.inr rfl) (ih (List.cons_ne_nil l' lines))
  have hread := hlines file.lines file.nonempty
  rw [← AclFile.text] at hread
  obtain ⟨buff, buffs, hbuffs⟩ : ∃ buff buffs, fgetsLines 99 file.text = buff :: buffs := by
    refine List.exists_cons_of_ne_nil fun hnil => ?_
    rw [hnil] at hread
    exact file.nonempty (List.forall₂_nil_right_iff.mp hread)
  refine ⟨_, by rw [readAclFile, hbuffs], ?_, fun entry => ?_⟩
  · have htotal : ∀ a b : Ip, (decide (qcompareIp a b ≤ 0) || decide (qcompareIp b a ≤ 0)) = true := by
      intro a b
      rw [Bool.or_eq_true, decide_eq_true_iff, decide_eq_true_iff, qcompareIp_nonpos,
        qcompareIp_nonpos]
      exact le_total a.1 b.1
    refine (List.pairwise_mergeSort (fun a b c hab hbc => ?_) htotal _).imp fun hab => ?_
    · rw [decide_eq_true_iff, qcompareIp_nonpos] at hab hbc ⊢
      exact hab.trans hbc
    · rwa [decide_eq_true_iff, qcompareIp_nonpos] at hab
  · have hentries : (fgetsLines 99 file.text).map (fun b => (aclEntry b).1) =
        file.lines.map AclLine.entry := by
      rw [← List.forall₂_eq_eq_eq, List.forall₂_map_left_iff, List.forall₂_map_right_iff]
      exact hread.flip.imp fun b l hb => aclEntry_text l hb
    have hmem : (∃ e ∈ (buff :: buffs).map aclEntry, e.1 = entry) ↔
        entry ∈ (fgetsLines 99 file.text).map fun b => (aclEntry b).1 := by
      rw [hbuffs]
      simp only [List.mem_map, exists_exists_and_eq_and]
    simp only [List.mem_mergeSort]
    rw [hmem, hentries, List.mem_map]
    exact exists_congr fun l => and_congr_right fun _ => eq_comm

/-! ### Addresses -/

/-- The numbers of an address. -/
def addrInts (addr : Vector UInt8 4) : List ℤ := addr.toList.map fun b => (b.toNat : ℤ)

theorem length_addrInts (addr : Vector UInt8 4) : (addrInts addr).length = 4 := by
  rw [addrInts, List.length_map, Vector.length_toList]

theorem ipOf_inAddrText (addr : Vector UInt8 4) : (ipOf (inAddrText addr)).1 = addrInts addr := by
  set fs := addr.toList.map fun b => printULong b.toNat with hfs
  have hlen : fs.length = 4 := by rw [hfs, List.length_map, Vector.length_toList]
  have hfields : strSepFields 46 [] (inAddrText addr) = fs := by
    have hjoin := @strSepFields_join 46 fs
      (List.ne_nil_of_length_pos (by omega))
      (fun f hf => by
        obtain ⟨b, -, rfl⟩ := List.mem_map.mp hf
        exact ⟨printULong_ne_nil _, fun h => absurd (isDigit_printULong _ 46 h) (by decide)⟩)
      [] List.not_mem_nil
    rw [List.append_nil] at hjoin
    have heq : List.Forall₂ (· = ·) fs (strSepFields 46 [] ([46].intercalate fs)) :=
      hjoin.imp fun f f' h => by
        rw [List.append_nil] at h
        exact (h.elim id id).symm
    rw [List.forall₂_eq_eq_eq] at heq
    exact heq.symm
  show (List.range 4).map (fun i => atoi ((strSepFields 46 [] (inAddrText addr)).getD i [])) = _
  rw [hfields]
  refine List.ext_getElem (by rw [List.length_map, List.length_range, length_addrInts]) ?_
  intro i hi hi'
  have hi4 : i < 4 := by rwa [List.length_map, List.length_range] at hi
  rw [List.getElem_map, List.getElem_range, List.getD_eq_getElem fs [] (by omega)]
  simp only [hfs, addrInts, List.getElem_map, atoi_printULong]
  exact min_eq_right (by have := UInt8.toNat_lt (addr.toList.get ⟨i, by simpa using hi4⟩); grind)

/-- An address agrees with the numbers of a line. -/
def AclLine.Agrees (l : AclLine) (addr : Vector UInt8 4) : Prop := l.given <+: addrInts addr

/-- The list does what its lines say. -/
def Verified (file : AclFile) (addr : Vector UInt8 4) : Prop :=
  verifyAclList (readAclFile file.text) addr = true ↔
    addrInts addr = [127, 0, 0, 1] ∨ ∃ l ∈ file.lines, l.Agrees addr

/-- The address agrees with a line, and no line that has a greater number than the address has
it after those of this one. -/
def AclLine.Reached (m : AclLine) (file : AclFile) (addr : Vector UInt8 4) : Prop :=
  m.Agrees addr ∧
    ∀ l ∈ file.lines, ∀ d, SmallerAt (addrInts addr) l.given d → d < m.given.length

theorem AclLine.length_given_le (l : AclLine) : l.given.length ≤ 4 :=
  (length_givenOf_le l.comps).trans l.atMost

/-- The scan accepts an address for a line that is reached. -/
theorem verifyLoop_reached {file : AclFile} {addr : Vector UInt8 4} {aclList : List Ip} {ip : Ip}
    (hip : ip.1 = addrInts addr) (hsorted : aclList.Pairwise (·.1 ≤ ·.1))
    (hentries : ∀ entry : List ℤ, (∃ e ∈ aclList, e.1 = entry) ↔ ∃ l ∈ file.lines, entry = l.entry) :
    verifyLoop ip aclList = true ↔ ∃ m ∈ file.lines, m.Reached file addr := by
  have hzero : ∀ (e : Ip) (l : AclLine), e.1 = l.entry →
      (compareIp ip e = 0 ↔ l.Agrees addr) := by
    intro e l he
    rw [compareIp, he, hip]
    exact compareFrom_eq_zero_iff (noStar_givenOf l.comps)
      (by rw [length_addrInts]; exact l.length_given_le)
  have hneg : ∀ (e : Ip) (l : AclLine), e.1 = l.entry →
      (compareIp ip e < 0 ↔ ∃ d, SmallerAt (addrInts addr) l.given d) := by
    intro e l he
    rw [compareIp, he, hip]
    exact compareFrom_neg_iff (noStar_givenOf l.comps)
  have hbefore : ∀ (l m : AclLine) (d : ℕ), m.Agrees addr → SmallerAt (addrInts addr) l.given d →
      (l.entry < m.entry ↔ m.given.length ≤ d) := by
    intro l m d hm hd
    have := l.length_given_le
    have := m.length_given_le
    exact entry_lt_iff (noStar_givenOf l.comps) hm hd (by omega)
  rw [verifyLoop_iff hsorted]
  constructor
  · rintro ⟨e, he, hagree, hno⟩
    obtain ⟨m, hm, hem⟩ := (hentries e.1).mp ⟨e, he, rfl⟩
    rw [hzero e m hem] at hagree
    refine ⟨m, hm, hagree, fun l hl d hd => ?_⟩
    by_contra hlong
    obtain ⟨e', he', hel⟩ := (hentries l.entry).mpr ⟨l, hl, rfl⟩
    refine hno e' he' ?_ ((hneg e' l hel).mpr ⟨d, hd⟩)
    rw [hel, hem, hbefore l m d hagree hd]
    omega
  · rintro ⟨m, hm, hagree, hno⟩
    obtain ⟨e, he, hem⟩ := (hentries m.entry).mpr ⟨m, hm, rfl⟩
    refine ⟨e, he, (hzero e m hem).mpr hagree, fun e' he' hlt hless => ?_⟩
    obtain ⟨l, hl, hel⟩ := (hentries e'.1).mp ⟨e', he', rfl⟩
    obtain ⟨d, hd⟩ := (hneg e' l hel).mp hless
    rw [hel, hem, hbefore l m d hagree hd] at hlt
    have := hno l hl d hd
    omega

/-- **When an address is accepted.** -/
theorem verifyAclList_eq (file : AclFile) (addr : Vector UInt8 4) :
    verifyAclList (readAclFile file.text) addr = true ↔
      addrInts addr = [127, 0, 0, 1] ∨ ∃ m ∈ file.lines, m.Reached file addr := by
  obtain ⟨aclList, hread, hsorted, hentries⟩ := readAclFile_text file
  have hip := ipOf_inAddrText addr
  rw [hread, verifyAclList]
  simp only [hip]
  split
  next hlocal => exact iff_of_true rfl (Or.inl hlocal)
  next hlocal =>
    rw [verifyLoop_reached hip hsorted hentries]
    exact ⟨Or.inr, fun h => h.resolve_left hlocal⟩

/-- **For which files and addresses the list does what its lines say.** -/
theorem verified_iff (file : AclFile) (addr : Vector UInt8 4) :
    Verified file addr ↔ addrInts addr = [127, 0, 0, 1] ∨
      (∀ l ∈ file.lines, ¬ l.Agrees addr) ∨ ∃ m ∈ file.lines, m.Reached file addr := by
  rw [Verified, verifyAclList_eq]
  constructor
  · intro hiff
    by_cases hagree : ∃ l ∈ file.lines, l.Agrees addr
    · exact (hiff.mpr (Or.inr hagree)).imp_right Or.inr
    · exact Or.inr (Or.inl fun l hl h => hagree ⟨l, hl, h⟩)
  · rintro (hlocal | hnone | ⟨m, hm, hreach⟩)
    · exact iff_of_true (Or.inl hlocal) (Or.inl hlocal)
    · refine or_congr_right (iff_of_false ?_ ?_)
      · rintro ⟨m, hm, hreach⟩
        exact hnone m hm hreach.1
      · rintro ⟨l, hl, hagree⟩
        exact hnone l hl hagree
    · exact iff_of_true (Or.inr ⟨m, hm, hreach⟩) (Or.inr ⟨m, hm, hreach.1⟩)

/-- The lines `1.2.3` and `1.2`. -/
def sampleAcl : AclFile where
  lines := [⟨[some 1, some 2, some 3], by decide, by decide⟩, ⟨[some 1, some 2], by decide, by decide⟩]
  nonempty := List.cons_ne_nil _ _
  newline := true

/-- The address 1.2.2.5 agrees with the second line, but the first one has a greater number. -/
theorem not_verified : ¬ ∀ (file : AclFile) (addr : Vector UInt8 4), Verified file addr := by
  intro h
  have hagrees : ∃ l ∈ sampleAcl.lines, l.Agrees #v[1, 2, 2, 5] :=
    ⟨_, List.mem_cons_of_mem _ List.mem_cons_self, by
      show [(1 : ℤ), 2] <+: [1, 2, 2, 5]
      decide⟩
  have haccepted := (h sampleAcl #v[1, 2, 2, 5]).mpr (Or.inr hagrees)
  rw [verifyAclList_eq] at haccepted
  rcases haccepted with hlocal | ⟨m, hm, hagree, hreach⟩
  · exact absurd hlocal (by decide)
  · have hsmaller : SmallerAt (addrInts #v[1, 2, 2, 5]) [1, 2, 3] 2 :=
      ⟨[1, 2], 2, [5], 3, [], rfl, rfl, by decide, rfl⟩
    have hlong := hreach _ List.mem_cons_self 2 hsmaller
    -- Only the shorter line agrees.
    rcases List.mem_cons.mp hm with rfl | hm
    · exact absurd hagree (by show ¬ [(1 : ℤ), 2, 3] <+: [1, 2, 2, 5]; decide)
    · rw [List.mem_singleton.mp hm] at hlong
      exact absurd hlong (by decide)

end Archie
