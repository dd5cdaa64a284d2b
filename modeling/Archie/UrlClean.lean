/-
The urls of the links of a document (`webindex/retrieve/parse.c`, `webindex/retrieve/url.c`).

`clean_url` splits a url with `urlscan` and takes the dot segments out of the path in place, with one
pointer behind the other.

* `cleanLoop_eq_keptRun` — while it never climbs from two characters, the loop keeps segments.
* `deeper_of_two` — after that, there is a segment too many to the end.
* `cleansRight_iff` — when the url is the right one, and stays as it is.
-/
import Archie.CText
import Archie.DotSegments

namespace Archie

/-! ### The functions -/

/-- What `urlscan` gives. -/
structure UrlScan where
  method : List UInt8
  server : List UInt8
  port : ℤ
  path : List UInt8
  ret : ℕ
  deriving DecidableEq, Repr

/-- `urlscan`. -/
def urlscan (url : List UInt8) : UrlScan :=
  if 58 ∉ url then ⟨[], [], -1, url, if url = [] then 0 else 1⟩
  else if (url.dropWhile (· ≠ 58)).take 3 ≠ bytes "://" then ⟨[], [], -1, [], 0⟩
  else
    let method := url.takeWhile (· ≠ 58)
    let s := (url.dropWhile (· ≠ 58)).drop 3
    if 58 ∉ s then
      if 47 ∉ s then ⟨method, s, -1, [], 2⟩
      else ⟨method, s.takeWhile (· ≠ 47), -1, (s.dropWhile (· ≠ 47)).tail, 3⟩
    else
      let t := (s.dropWhile (· ≠ 58)).tail
      if 47 ∉ t then ⟨method, s.takeWhile (· ≠ 58), atoi t, [], 3⟩
      else ⟨method, s.takeWhile (· ≠ 58), atoi t, (t.dropWhile (· ≠ 47)).tail, 4⟩

/-- `*t` goes back to a `/` or to the start of the path.  The first text is what stands before `t`,
from `t` back; the second one what stands from `t` to `s`.  (When there is nothing between, `*t` is
the dot at `s`.) -/
def retreat : List UInt8 → List UInt8 → List UInt8 × List UInt8
  | [], gap => ([], gap)
  | c :: before, gap => if gap.head? = some 47 then (c :: before, gap) else retreat before (c :: gap)

/-- `if (*t == '/') t++`. -/
def passSlash (out gap : List UInt8) : List UInt8 × List UInt8 :=
  if gap.head? = some 47 then (out ++ [47], gap.tail) else (out, gap)

/-- The steps at `/../`: the text before `t`, and the one from `t` to `s`. -/
def backUp (out gap : List UInt8) : List UInt8 × List UInt8 :=
  let start := if 2 < out.length then (out.reverse.drop 2, (out.reverse.take 2).reverse ++ gap)
    else (out.reverse, gap)
  let stop := retreat start.1 start.2
  passSlash stop.1.reverse stop.2

/-- The loop of `clean_url`.  The path is the text before `t`, that from `t` to `s`, and that from `s`
on, of which some characters may be jumped over first.  The result is the path up to `t`, or `none`
where the character before the path is read. -/
def cleanLoop : ℕ → List UInt8 → List UInt8 → List UInt8 → Option (List UInt8)
  | _, out, _, [] => some out
  | jump + 1, out, gap, c :: s => cleanLoop jump out (gap ++ [c]) s
  | 0, out, gap, c :: s =>
    if c = 32 then cleanLoop 0 out (gap ++ [c]) s
    else if c = 46 then
      match (out ++ gap).getLast? with
      | none => none
      | some d =>
        if d = 47 ∧ s.take 2 = [46, 47] then
          cleanLoop 2 (backUp out gap).1 ((backUp out gap).2 ++ [c]) s
        else if d = 47 ∧ s.take 1 = [47] then cleanLoop 1 out (gap ++ [c]) s
        else cleanLoop 0 (out ++ [c]) (gap ++ [c]).tail s
    else cleanLoop 0 (out ++ [c]) (gap ++ [c]).tail s

/-- What the tests before the loop leave of the path. -/
def leadPath (path : List UInt8) : List UInt8 :=
  let path := if path = [] then [47] else path
  let path := if path.take 2 = [46, 46] then path.drop 2 else path
  if path.head? = some 46 then path.tail else path

/-- What is added to the url for the path. -/
def cleanPath (path : List UInt8) : Option (List UInt8) :=
  (cleanLoop 0 [] [] (leadPath path)).map fun path =>
    if path.head? = some 47 then path else 47 :: path

/-- `clean_url`: what it returns, and the url. -/
def cleanUrl (url : List UInt8) : Option (ℤ × List UInt8) :=
  let u := urlscan url
  if strcasecmpEq u.method (bytes "http") = false then some (0, url)
  else (cleanPath u.path).map fun path =>
    (1, u.method ++ bytes "://" ++ u.server ++
      (if u.port = -1 ∨ u.port = 80 then [] else 58 :: printSInt u.port) ++ path)

/-- A `URL`.  The method is always `http_method`. -/
structure ParsedUrl where
  server : Option (List UInt8)
  port : Option (List UInt8)
  localUrl : List UInt8
  curl : Option (List UInt8)
  deriving DecidableEq, Repr

/-- `urlStrBuild`. -/
def urlStrBuild (server : List UInt8) (port : Option (List UInt8)) (localUrl : List UInt8) :
    List UInt8 :=
  bytes "http://" ++ server ++
    (match port with
      | some port => if port = bytes "80" then [] else 58 :: port
      | none => []) ++ localUrl

section

variable (gethostbyname : List UInt8 → Option (List UInt8))

/-- `urlCanonical`. -/
def urlCanonical (u : ParsedUrl) : ParsedUrl :=
  match u.server with
  | none => u
  | some server =>
    match gethostbyname server with
    | none => u
    | some name =>
      { u with server := some (server.map asciiLower)
               curl := some (urlStrBuild (name.map asciiLower) u.port u.localUrl) }

/-- `urlParse`. -/
def urlParse (urlStr : List UInt8) : Option ParsedUrl :=
  let method := urlStr.takeWhile (· ≠ 58)
  let s := urlStr.dropWhile (· ≠ 58)
  if s = [] then some (urlCanonical gethostbyname ⟨none, none, urlStr, none⟩)
  else if strncasecmpEq urlStr (bytes "http") method.length = false ∨ s.take 3 ≠ bytes "://" then none
  else
    let t := s.drop 3
    let server := t.takeWhile fun c => c ≠ 58 ∧ c ≠ 47
    let s := t.dropWhile fun c => c ≠ 58 ∧ c ≠ 47
    let localUrl (s : List UInt8) := if s = [] then [47] else s
    if s.head? = some 58 then
      let port := s.tail.takeWhile isDigit
      let s := s.tail.dropWhile isDigit
      if s ≠ [] ∧ s.head? ≠ some 47 then none
      else some (urlCanonical gethostbyname ⟨some server, some port, localUrl s, none⟩)
    else some (urlCanonical gethostbyname ⟨some server, some (bytes "80"), localUrl s, none⟩)

end

/-! ### What a url should become -/

/-- The path without its dot segments. -/
def removeDots (path : List UInt8) : List UInt8 :=
  [47].intercalate (climb [46] [46, 46] [] [] (path.splitOn 47))

/-- A url `http://server[:port]/path`. -/
structure HttpUrl where
  server : List UInt8
  port : Option (List UInt8)
  path : List UInt8
  serverPlain : 58 ∉ server ∧ 47 ∉ server
  portDecimal : ∀ ds ∈ port, ds ≠ [] ∧ ∀ c ∈ ds, isDigit c = true
  pathFilled : 32 ∉ path

/-- The text of a url. -/
def urlText (server : List UInt8) (port : Option (List UInt8)) (path : List UInt8) : List UInt8 :=
  bytes "http://" ++ server ++ (match port with | some ds => 58 :: ds | none => []) ++ 47 :: path

/-- The number of the port. -/
def portNumber (port : Option (List UInt8)) : ℕ :=
  match port with
  | some ds => digitsValue ds
  | none => 80

/-- The port, without leading zeros, if it is not 80. -/
def cleanPort (port : Option (List UInt8)) : Option (List UInt8) :=
  if portNumber port = 80 then none else some (printULong (portNumber port))

/-! ### The loop over the segments -/

/-- The path up to the directory that it is in. -/
def parentText (kept : List UInt8) : List UInt8 :=
  if kept.length ≤ 1 then kept else (kept.dropLast.reverse.dropWhile (· ≠ 47)).reverse

/-- The text that is kept of the segments, after a text that has been kept before. -/
def keptRun : List UInt8 → List (List UInt8) → List UInt8
  | kept, [] => kept
  | kept, [s] => kept ++ s
  | kept, s :: s' :: segs =>
    if s = [46] then keptRun kept (s' :: segs)
    else if s = [46, 46] then keptRun (parentText kept) (s' :: segs)
    else keptRun (kept ++ s ++ [47]) (s' :: segs)

/-- No `..` climbs from a text of two characters. -/
def NeverTwo : List UInt8 → List (List UInt8) → Prop
  | kept, s :: s' :: segs =>
    if s = [46] then NeverTwo kept (s' :: segs)
    else if s = [46, 46] then kept.length ≠ 2 ∧ NeverTwo (parentText kept) (s' :: segs)
    else NeverTwo (kept ++ s ++ [47]) (s' :: segs)
  | _, _ => True

/-- A segment of a path. -/
def IsSegment (s : List UInt8) : Prop := 47 ∉ s ∧ 32 ∉ s

section

variable {out gap rest s : List UInt8} {c : UInt8}

theorem getLast?_copied : (out ++ [c] ++ (gap ++ [c]).tail).getLast? = some c := by
  cases gap with
  | nil => simp
  | cons d gap => rw [List.cons_append, List.tail_cons, ← List.append_assoc, List.getLast?_concat]

/-- What lies between the two pointers moves along. -/
theorem drop_copied (w : List UInt8) :
    ((gap ++ [c]).tail ++ w).drop w.length = (gap ++ c :: w).drop (w.length + 1) := by
  cases gap with
  | nil => simp
  | cons d gap => simp

/-- A character is copied that is no dot, or is not after a slash, or has something else behind it. -/
theorem cleanLoop_copy (hblank : c ≠ 32)
    (hdot : c = 46 → ∃ d, (out ++ gap).getLast? = some d ∧
      (d = 47 → rest.take 2 ≠ [46, 47] ∧ rest.take 1 ≠ [47])) :
    cleanLoop 0 out gap (c :: rest) = cleanLoop 0 (out ++ [c]) (gap ++ [c]).tail rest := by
  rw [cleanLoop, if_neg hblank]
  split
  next heq =>
    obtain ⟨d, hd, hnext⟩ := hdot heq
    rw [hd]
    dsimp only
    rw [if_neg fun h => (hnext h.1).1 h.2, if_neg fun h => (hnext h.1).2 h.2]
  next => rfl

/-- In the middle of a segment everything is copied. -/
theorem cleanLoop_word (hs : IsSegment s) {d : UInt8} (hd : (out ++ gap).getLast? = some d)
    (hne : d ≠ 47) :
    cleanLoop 0 out gap (s ++ rest) =
      cleanLoop 0 (out ++ s) ((gap ++ s).drop s.length) rest := by
  induction s generalizing out gap d with
  | nil => simp
  | cons c s ih =>
    obtain ⟨hslash, hblank⟩ := hs
    have hc : c ≠ 47 := fun h => hslash (by simp [h])
    rw [List.cons_append, cleanLoop_copy (fun h => hblank (by simp [h]))
      fun _ => ⟨d, hd, fun h => absurd h hne⟩, ih ⟨fun h => hslash (by simp [h]),
      fun h => hblank (by simp [h])⟩ getLast?_copied hc, drop_copied, List.append_assoc,
      List.singleton_append, List.length_cons]

/-- So is the whole of one that is neither `.` nor `..`, or is not followed by a slash. -/
theorem cleanLoop_segment (hs : IsSegment s) (hstart : s.head? = some 46 → out ++ gap ≠ [])
    (hrest : rest = [] ∨ s ≠ [46] ∧ s ≠ [46, 46]) :
    cleanLoop 0 out gap (s ++ rest) =
      cleanLoop 0 (out ++ s) ((gap ++ s).drop s.length) rest := by
  cases s with
  | nil => simp
  | cons c s =>
    obtain ⟨hslash, hblank⟩ := hs
    have hc : c ≠ 47 := fun h => hslash (by simp [h])
    have hs : IsSegment s := ⟨fun h => hslash (by simp [h]), fun h => hblank (by simp [h])⟩
    have hnext : c = 46 → (s ++ rest).take 2 ≠ [46, 47] ∧ (s ++ rest).take 1 ≠ [47] := by
      rintro rfl
      rcases s with _ | ⟨a, _ | ⟨b, s⟩⟩
      · rcases hrest with rfl | ⟨hne, -⟩
        · simp
        · exact absurd rfl hne
      · have ha : a ≠ 47 := fun h => hs.1 (by simp [h])
        rcases hrest with rfl | ⟨-, hne⟩
        · simp [ha]
        · have ha' : a ≠ 46 := fun h => hne (by rw [h])
          cases rest <;> simp [ha, ha']
      · have ha : a ≠ 47 := fun h => hs.1 (by simp [h])
        have hb : b ≠ 47 := fun h => hs.1 (by simp [h])
        simp [ha, hb]
    rw [List.cons_append, cleanLoop_copy (fun h => hblank (by simp [h])) fun h => ?_,
      cleanLoop_word hs getLast?_copied hc, drop_copied, List.append_assoc, List.singleton_append,
      List.length_cons]
    obtain ⟨d, hd⟩ := Option.isSome_iff_exists.mp
      (List.getLast?_isSome.mpr (hstart (by rw [List.head?_cons, h])))
    exact ⟨d, hd, fun _ => hnext h⟩

/-- The slash after a segment is copied too. -/
theorem cleanLoop_push (hs : IsSegment s) (hstart : s.head? = some 46 → out ++ gap ≠ [])
    (hne : s ≠ [46] ∧ s ≠ [46, 46]) :
    cleanLoop 0 out gap (s ++ 47 :: rest) =
      cleanLoop 0 (out ++ s ++ [47]) ((gap ++ s ++ [47]).drop (s.length + 1)) rest := by
  rw [cleanLoop_segment hs hstart (.inr hne), cleanLoop_copy (by decide) fun h => absurd h (by decide)]
  congr 1
  rw [← List.drop_one, ← List.drop_append_of_le_length (by simp), List.drop_drop]

/-- The last segment is copied, whatever it is. -/
theorem cleanLoop_last (hs : IsSegment s) (hstart : s.head? = some 46 → out ++ gap ≠ []) :
    cleanLoop 0 out gap s = some (out ++ s) := by
  have h : cleanLoop 0 out gap (s ++ []) = _ := cleanLoop_segment hs hstart (.inl rfl)
  rwa [List.append_nil, cleanLoop] at h

/-- A `.` is jumped over. -/
theorem cleanLoop_dot (hprev : (out ++ gap).getLast? = some 47) :
    cleanLoop 0 out gap ([46] ++ 47 :: rest) = cleanLoop 0 out (gap ++ [46, 47]) rest := by
  show cleanLoop 0 out gap (46 :: 47 :: rest) = _
  rw [cleanLoop, if_neg (by decide), if_pos rfl, hprev]
  dsimp only
  rw [if_neg (by simp), if_pos ⟨rfl, rfl⟩, cleanLoop, List.append_assoc]
  rfl

/-- At a `..`, the first pointer goes back. -/
theorem cleanLoop_up (hprev : (out ++ gap).getLast? = some 47) :
    cleanLoop 0 out gap ([46, 46] ++ 47 :: rest) =
      cleanLoop 0 (backUp out gap).1 ((backUp out gap).2 ++ [46, 46, 47]) rest := by
  show cleanLoop 0 out gap (46 :: 46 :: 47 :: rest) = _
  rw [cleanLoop, if_neg (by decide), if_pos rfl, hprev]
  dsimp only
  rw [if_pos ⟨rfl, rfl⟩, cleanLoop, cleanLoop, List.append_assoc, List.append_assoc]
  rfl

/-! ### Going back -/

/-- The pointer passes the characters of a segment. -/
theorem retreat_word {w before gap : List UInt8} (hw : 47 ∉ w) (hgap : gap.head? ≠ some 47) :
    retreat (w ++ before) gap = retreat before (w.reverse ++ gap) := by
  induction w generalizing gap with
  | nil => rfl
  | cons c w ih =>
    have hc : c ≠ 47 := fun h => hw (by simp [h])
    rw [List.cons_append, retreat, if_neg hgap, ih (fun h => hw (by simp [h])) (by simpa using hc),
      List.reverse_cons, List.append_assoc, List.singleton_append]

/-- From a longer text, it goes to where the last segment starts. -/
theorem backUp_segment {pre : List UInt8} (hpre : pre = [] ∨ pre.getLast? = some 47) (hs : 47 ∉ s)
    (hlen : 2 < (pre ++ s ++ [47]).length) (gap : List UInt8) :
    backUp (pre ++ s ++ [47]) gap = (pre, s ++ 47 :: gap) := by
  have hrev : (pre ++ s ++ [47]).reverse = 47 :: (s.reverse ++ pre.reverse) := by simp
  rcases List.eq_nil_or_concat s with rfl | ⟨y, z, rfl⟩
  · -- an empty segment: `*t` is the slash before it
    rcases hpre with rfl | hpre
    · simp at hlen
    · obtain ⟨pre, rfl⟩ := List.getLast?_eq_some_iff.mp hpre
      rw [backUp, if_pos hlen, hrev]
      cases hr : pre.reverse with
      | nil =>
        obtain rfl := List.reverse_eq_nil_iff.mp hr
        rfl
      | cons d r =>
        obtain rfl : pre = r.reverse ++ [d] := by
          rw [← List.reverse_reverse pre, hr, List.reverse_cons]
        simp [retreat, passSlash]
  · rw [List.concat_eq_append] at hs hlen hrev ⊢
    have hz : z ≠ 47 := fun h => hs (by simp [h])
    have hy : 47 ∉ y.reverse := fun h => hs (by simp [List.mem_reverse.mp h])
    have hback : retreat (y.reverse ++ pre.reverse) ([z, 47] ++ gap) =
        retreat pre.reverse (y ++ z :: 47 :: gap) := by
      rw [retreat_word hy (by simpa using hz), List.reverse_reverse]
      rfl
    have hhead : (y ++ z :: 47 :: gap).head? ≠ some 47 := by
      cases y with
      | nil => simpa using hz
      | cons a y =>
        have ha : a ≠ 47 := fun h => hs (by simp [h])
        simpa using ha
    have hstart : ((pre ++ (y ++ [z]) ++ [47]).reverse.drop 2,
        ((pre ++ (y ++ [z]) ++ [47]).reverse.take 2).reverse ++ gap) =
        (y.reverse ++ pre.reverse, [z, 47] ++ gap) := by
      rw [hrev]
      simp
    rw [backUp, if_pos hlen, hstart]
    dsimp only
    rw [hback]
    rcases hpre with rfl | hpre
    · rw [List.reverse_nil, retreat]
      rw [passSlash, if_neg hhead]
      simp
    · obtain ⟨pre, rfl⟩ := List.getLast?_eq_some_iff.mp hpre
      have hstop : retreat (pre ++ [47]).reverse (y ++ z :: 47 :: gap) =
          (pre.reverse, 47 :: (y ++ z :: 47 :: gap)) := by
        rw [List.reverse_append, List.reverse_singleton, List.singleton_append, retreat,
          if_neg hhead]
        cases pre.reverse with
        | nil => rfl
        | cons d r =>
          rw [retreat]
          exact if_pos rfl
      rw [hstop]
      simp [passSlash]

/-- From a text of at most one character, it does not go. -/
theorem backUp_short (hgap : gap.head? ≠ some 47) (hout : out = [] ∨ out = [47]) :
    backUp out gap = (out, gap) := by
  rcases hout with rfl | rfl
  · exact if_neg hgap
  · have hretreat : retreat [47] gap = ([], 47 :: gap) := if_neg hgap
    rw [backUp, if_neg (by simp), List.reverse_singleton, hretreat]
    rfl

/-- From two characters, it does not go either; a slash that is left from before is taken up. -/
theorem backUp_two (c : UInt8) (gap : List UInt8) :
    (backUp [c, 47] gap).1 = [c, 47] ∨ (backUp [c, 47] gap).1 = [c, 47, 47] := by
  have hback : backUp [c, 47] gap =
      passSlash (retreat [47, c] gap).1.reverse (retreat [47, c] gap).2 := by
    rw [backUp, if_neg (by simp)]
    rfl
  rw [hback]
  by_cases h : gap.head? = some 47
  · have hretreat : retreat [47, c] gap = ([47, c], gap) := if_pos h
    rw [hretreat, passSlash, if_pos h]
    exact .inr rfl
  · have hretreat : retreat [47, c] gap = ([c], 47 :: gap) := (if_neg h).trans (if_pos rfl)
    rw [hretreat]
    exact .inl rfl

/-- A text up to a directory is one before the last segment, that segment and a slash. -/
theorem exists_parent (h : out.getLast? = some 47) : ∃ pre s, out = pre ++ s ++ [47] ∧ 47 ∉ s ∧
    (pre = [] ∨ pre.getLast? = some 47) ∧ (1 < out.length → parentText out = pre) := by
  obtain ⟨o, rfl⟩ := List.getLast?_eq_some_iff.mp h
  refine ⟨(o.reverse.dropWhile (· ≠ 47)).reverse, (o.reverse.takeWhile (· ≠ 47)).reverse, ?_, ?_, ?_,
    fun hlen => ?_⟩
  · rw [← List.reverse_append, List.takeWhile_append_dropWhile, List.reverse_reverse]
  · intro hmem
    simpa using List.mem_takeWhile_imp (List.mem_reverse.mp hmem)
  · rw [List.getLast?_reverse, List.reverse_eq_nil_iff]
    have hhead := List.head?_dropWhile_not (· ≠ 47) o.reverse
    cases hd : o.reverse.dropWhile (· ≠ 47) with
    | nil => exact .inl rfl
    | cons d r =>
      rw [hd] at hhead
      exact .inr (by simpa using hhead)
  · rw [parentText, if_neg (by omega), List.dropLast_concat]

/-- What has been copied, and what lies between the two pointers, at the start of a segment. -/
structure AtSegment (out gap : List UInt8) : Prop where
  start : out = [] → gap = [] ∨ ∃ a b g, gap = a :: b :: g ∧ a ≠ 47 ∧ b ≠ 47
  root : out = [47] → gap.head? ≠ some 47
  ends : out = [] ∨ out.getLast? = some 47
  prev : out ++ gap = [] ∨ (out ++ gap).getLast? = some 47

theorem AtSegment.dot (h : AtSegment out gap) (hne : out ++ gap ≠ []) :
    AtSegment out (gap ++ [46, 47]) where
  start hout := by
    rcases h.start hout with rfl | ⟨a, b, g, rfl, ha, hb⟩
    · exact absurd (by simp [hout]) hne
    · exact .inr ⟨a, b, _, rfl, ha, hb⟩
  root hout := by
    have hroot := h.root hout
    cases gap with
    | nil => simp
    | cons a g => simpa using hroot
  ends := h.ends
  prev := .inr (by simp)

theorem getLast?_push (out gap s : List UInt8) :
    List.getLast? (out ++ s ++ [(47 : UInt8)] ++ (gap ++ s ++ [(47 : UInt8)]).drop (s.length + 1)) =
      some 47 := by
  rcases Nat.lt_or_ge (s.length + 1) (gap ++ s ++ [(47 : UInt8)]).length with hlt | hge
  · have hne : (gap ++ s ++ [(47 : UInt8)]).drop (s.length + 1) ≠ [] := fun hnil =>
      absurd (List.drop_eq_nil_iff.mp hnil) (not_le.mpr hlt)
    rw [List.getLast?_append_of_ne_nil _ hne, List.getLast?_drop, if_neg (not_le.mpr hlt),
      List.getLast?_concat]
  · rw [List.drop_eq_nil_of_le hge, List.append_nil, List.getLast?_concat]

theorem AtSegment.push (h : AtSegment out gap) :
    AtSegment (out ++ s ++ [47]) ((gap ++ s ++ [47]).drop (s.length + 1)) where
  start hout := absurd hout (by simp)
  root hout := by
    obtain ⟨rfl, rfl⟩ : out = [] ∧ s = [] := by
      have hlen := congrArg List.length hout
      simp only [List.length_append, List.length_singleton] at hlen
      exact ⟨List.eq_nil_of_length_eq_zero (by omega), List.eq_nil_of_length_eq_zero (by omega)⟩
    rcases h.start rfl with rfl | ⟨a, b, g, rfl, ha, hb⟩
    · simp
    · simpa using hb
  ends := .inr (by simp)
  prev := .inr (getLast?_push out gap s)

theorem AtSegment.up (h : AtSegment out gap) (hne : out ++ gap ≠ []) (htwo : out.length ≠ 2) :
    (backUp out gap).1 = parentText out ∧
      AtSegment (parentText out) ((backUp out gap).2 ++ [46, 46, 47]) := by
  have hprev : ∀ o g : List UInt8, (o ++ (g ++ [46, 46, 47])).getLast? = some 47 := fun o g => by simp
  rcases Nat.lt_or_ge out.length 2 with hshort | hlong
  · -- at the root, or where the path starts
    have hout : out = [] ∨ out = [47] := by
      rcases h.ends with hnil | hlast
      · exact .inl hnil
      · obtain ⟨o, rfl⟩ := List.getLast?_eq_some_iff.mp hlast
        rw [List.length_append, List.length_singleton] at hshort
        exact .inr (by rw [List.eq_nil_of_length_eq_zero (by omega : o.length = 0), List.nil_append])
    have hgap : gap.head? ≠ some 47 := by
      rcases hout with rfl | rfl
      · rcases h.start rfl with rfl | ⟨a, b, g, rfl, ha, hb⟩
        · exact absurd rfl hne
        · simpa using ha
      · exact h.root rfl
    have hparent : parentText out = out := if_pos (by omega)
    rw [backUp_short hgap hout, hparent]
    refine ⟨rfl, fun hnil => ?_, fun hroot => ?_, h.ends, .inr (hprev _ _)⟩
    · rcases h.start hnil with rfl | ⟨a, b, g, rfl, ha, hb⟩
      · exact absurd (by simp [hnil]) hne
      · exact .inr ⟨a, b, _, rfl, ha, hb⟩
    · cases gap with
      | nil => simp
      | cons a g => simpa using hgap
  · have hlast : out.getLast? = some 47 := h.ends.resolve_left fun hnil => by
      rw [hnil] at hlong
      simp at hlong
    obtain ⟨pre, s, rfl, hs, hpre, hparent⟩ := exists_parent hlast
    rw [backUp_segment hpre hs (by omega), hparent (by omega)]
    refine ⟨rfl, fun hnil => .inr ?_, fun hroot => ?_, hpre, .inr (hprev _ _)⟩
    · subst hnil
      rcases s with _ | ⟨a, _ | ⟨b, s⟩⟩
      · simp at hlong
      · simp at htwo
      · exact ⟨a, b, _, rfl, fun h => hs (by simp [h]), fun h => hs (by simp [h])⟩
    · subst hroot
      cases s with
      | nil => simp at htwo
      | cons a s =>
        have ha : a ≠ 47 := fun h => hs (by simp [h])
        simpa using ha

theorem intercalate_slash (s s' : List UInt8) (segs : List (List UInt8)) :
    [47].intercalate (s :: s' :: segs) = s ++ 47 :: [47].intercalate (s' :: segs) := by
  rw [List.intercalate_cons_cons, List.append_assoc, List.singleton_append]

/-- **The loop keeps segments**, as long as no `..` climbs from two characters. -/
theorem cleanLoop_eq_keptRun {segs : List (List UInt8)} (hsegs : ∀ s ∈ segs, IsSegment s)
    (hne : segs ≠ []) (hstart : out ++ gap = [] → ∀ s, segs.head? = some s → s.head? ≠ some 46)
    (h : AtSegment out gap) (hnever : NeverTwo out segs) :
    cleanLoop 0 out gap ([47].intercalate segs) = some (keptRun out segs) := by
  induction segs generalizing out gap with
  | nil => exact absurd rfl hne
  | cons s segs ih =>
    have hs := hsegs s (by simp)
    have hhead : s.head? = some 46 → out ++ gap ≠ [] := fun hdot hnil => hstart hnil s rfl hdot
    cases segs with
    | nil =>
      rw [List.intercalate_singleton]
      exact cleanLoop_last hs hhead
    | cons s' segs =>
      have hrest : ∀ t ∈ s' :: segs, IsSegment t := fun t ht => hsegs t (by simp [ht])
      rw [intercalate_slash, keptRun]
      rw [NeverTwo] at hnever
      by_cases hdot : s = [46]
      · rw [if_pos hdot] at hnever ⊢
        have hfull := hhead (by rw [hdot]; rfl)
        rw [hdot, cleanLoop_dot (h.prev.resolve_left hfull)]
        exact ih hrest (by simp) (fun hnil => absurd hnil (by simp)) (h.dot hfull) hnever
      · rw [if_neg hdot] at hnever ⊢
        by_cases hup : s = [46, 46]
        · rw [if_pos hup] at hnever ⊢
          have hfull := hhead (by rw [hup]; rfl)
          obtain ⟨hparent, hat⟩ := h.up hfull hnever.1
          rw [hup, cleanLoop_up (h.prev.resolve_left hfull), hparent]
          exact ih hrest (by simp) (fun hnil => absurd hnil (by simp)) hat hnever.2
        · rw [if_neg hup] at hnever ⊢
          rw [cleanLoop_push hs hhead ⟨hdot, hup⟩]
          exact ih hrest (by simp) (fun hnil => absurd hnil (by simp)) h.push hnever

/-! ### The segments that should be kept -/

/-- The text of directories, the last of which comes first. -/
def dirText (st : List (List UInt8)) : List UInt8 := st.reverse.flatMap (· ++ [47])

theorem dirText_cons (s : List UInt8) (st : List (List UInt8)) :
    dirText (s :: st) = dirText st ++ s ++ [47] := by
  simp [dirText]

theorem dirText_concat (st : List (List UInt8)) (s : List UInt8) :
    dirText (st ++ [s]) = s ++ 47 :: dirText st := by
  simp [dirText]

theorem intercalate_concat (st : List (List UInt8)) (s : List UInt8) :
    [47].intercalate (st.reverse ++ [s]) = dirText st ++ s := by
  rw [dirText]
  generalize st.reverse = l
  induction l with
  | nil => simp
  | cons a l ih =>
    cases l with
    | nil => simp [intercalate_slash]
    | cons b l =>
      rw [List.cons_append, List.cons_append, intercalate_slash, ← List.cons_append, ih]
      simp

theorem dirText_ends (st : List (List UInt8)) : dirText st = [] ∨ (dirText st).getLast? = some 47 := by
  cases st with
  | nil => exact .inl rfl
  | cons s st =>
    rw [dirText_cons]
    exact .inr (by simp)

theorem count_dirText {st : List (List UInt8)} (h : ∀ s ∈ st, 47 ∉ s) :
    (dirText st).count 47 = st.length := by
  induction st with
  | nil => rfl
  | cons s st ih =>
    rw [dirText_cons, List.count_append, List.count_append, ih fun t ht => h t (by simp [ht]),
      List.count_eq_zero_of_not_mem (h s (by simp))]
    simp

theorem parentText_segment {pre : List UInt8} (hpre : pre = [] ∨ pre.getLast? = some 47) (hs : 47 ∉ s)
    (hlen : 1 < (pre ++ s ++ [47]).length) : parentText (pre ++ s ++ [47]) = pre := by
  rw [parentText, if_neg (by omega), List.dropLast_concat, List.reverse_append]
  have hall : ∀ c ∈ s.reverse, decide (c ≠ 47) = true := fun c hc =>
    decide_eq_true fun h => hs (h ▸ List.mem_reverse.mp hc)
  rw [List.dropWhile_append_of_pos hall]
  rcases hpre with rfl | hpre
  · rfl
  · obtain ⟨pre, rfl⟩ := List.getLast?_eq_some_iff.mp hpre
    rw [List.reverse_append, List.reverse_singleton, List.singleton_append,
      List.dropWhile_cons_of_neg (by simp), List.reverse_cons, List.reverse_reverse]

/-- How a text that is kept goes with the directories that should be: it is theirs, or theirs under
the root, or its first one is what is left of one that began with a dot. -/
inductive KeptFor (kept : List UInt8) (st : List (List UInt8)) : Prop
  | same (h : kept = dirText st)
  | root (h : kept = 47 :: dirText st)
  | cut (st' : List (List UInt8)) (a f : List UInt8) (hst : st = st' ++ [a])
      (ha : a.head? = some 46) (hf : 47 ∉ f) (h : kept = dirText (st' ++ [f]))

section

variable {kept : List UInt8} {st : List (List UInt8)}

theorem KeptFor.push (h : KeptFor kept st) (s : List UInt8) :
    KeptFor (kept ++ s ++ [47]) (s :: st) := by
  cases h with
  | same h => exact .same (by rw [h, dirText_cons])
  | root h => exact .root (by rw [h, dirText_cons, List.cons_append, List.cons_append])
  | cut st' a f hst ha hf h =>
    exact .cut (s :: st') a f (by rw [hst, List.cons_append]) ha hf
      (by rw [h, List.cons_append, dirText_cons])

theorem KeptFor.up (h : KeptFor kept st) (hst : ∀ s ∈ st, 47 ∉ s) :
    KeptFor (parentText kept) st.tail := by
  cases h with
  | same h =>
    cases st with
    | nil => exact .same (by rw [h]; rfl)
    | cons s st =>
      rw [dirText_cons] at h
      rcases Nat.lt_or_ge 1 kept.length with hlen | hlen
      · rw [h] at hlen ⊢
        exact .same (parentText_segment (dirText_ends st) (hst s (by simp)) hlen)
      · -- the directory is the empty one: its slash stays, as the root
        have hparts := congrArg List.length h
        simp only [List.length_append, List.length_singleton] at hparts
        obtain rfl : s = [] := List.eq_nil_of_length_eq_zero (by omega)
        have hnil : dirText st = [] := List.eq_nil_of_length_eq_zero (by omega)
        exact .root (by rw [parentText, if_pos hlen, h, hnil, List.tail_cons, hnil]; rfl)
  | root h =>
    cases st with
    | nil => exact .root (by rw [h]; rfl)
    | cons s st =>
      have hends : (47 :: dirText st).getLast? = some 47 := by
        rcases dirText_ends st with hnil | hlast
        · rw [hnil]
          rfl
        · rw [List.getLast?_cons, hlast]
          rfl
      rw [dirText_cons, ← List.cons_append, ← List.cons_append] at h
      rw [h]
      refine .root (parentText_segment (.inr hends) (hst s (by simp)) ?_)
      simp
  | cut st' a f hcut ha hf h =>
    cases st' with
    | nil =>
      have hkept : kept = [] ++ f ++ [47] := by
        rw [h, List.nil_append, dirText_cons]
        rfl
      rw [hcut]
      rcases Nat.lt_or_ge 1 kept.length with hlen | hlen
      · rw [hkept] at hlen ⊢
        exact .same (parentText_segment (.inl rfl) hf hlen)
      · exact .root (by
          rw [parentText, if_pos hlen, hkept]
          rw [hkept] at hlen
          obtain rfl : f = [] := List.eq_nil_of_length_eq_zero (by simpa using hlen)
          rfl)
    | cons s st' =>
      rw [List.cons_append, dirText_cons] at h
      refine .cut st' a f (by rw [hcut, List.cons_append, List.tail_cons]) ha hf ?_
      rw [h]
      refine parentText_segment (dirText_ends _) (hst s (by simp [hcut])) ?_
      rw [dirText_concat]
      simp only [List.length_append, List.length_cons]
      omega

/-- There are as many slashes as there should be directories. -/
theorem KeptFor.length_le (h : KeptFor kept st) (hst : ∀ s ∈ st, 47 ∉ s) :
    st.length ≤ kept.count 47 := by
  cases h with
  | same h => rw [h, count_dirText hst]
  | root h => rw [h, List.count_cons_self, count_dirText hst]; omega
  | cut st' a f hcut ha hf h =>
    have hst' : ∀ s ∈ st' ++ [f], 47 ∉ s := by
      intro s hs
      rcases List.mem_append.mp hs with hs | hs
      · exact hst s (by simp [hcut, hs])
      · rwa [List.mem_singleton.mp hs]
    rw [h, count_dirText hst', hcut]
    simp

/-- The last of the segments is no dot segment. -/
def EndsPlain (segs : List (List UInt8)) : Prop :=
  ∀ s, segs.getLast? = some s → s ≠ [46] ∧ s ≠ [46, 46]

/-- The path that is added to the url. -/
def rooted (path : List UInt8) : List UInt8 := if path.head? = some 47 then path else 47 :: path

/-- The path without its dot segments, after some directories. -/
def dotFree (st segs : List (List UInt8)) : List UInt8 :=
  [47].intercalate (climb [46] [46, 46] [] st segs)

theorem removeDots_eq (path : List UInt8) : removeDots path = dotFree [] (path.splitOn 47) := rfl

/-- The text that is kept is the one that should be, if this begins with an ordinary name. -/
theorem KeptFor.rooted_eq {segs : List (List UInt8)} (h : KeptFor kept st) (hst : ∀ s ∈ st, 47 ∉ s)
    (hsegs : ∀ s ∈ segs, 47 ∉ s) (hne : segs ≠ []) (hends : EndsPlain segs)
    (hslash : (dotFree st segs).head? ≠ some 47) (hdot : (dotFree st segs).head? ≠ some 46) :
    rooted (keptRun kept segs) = 47 :: dotFree st segs := by
  induction segs generalizing kept st with
  | nil => exact absurd rfl hne
  | cons s segs ih =>
    cases segs with
    | nil =>
      obtain ⟨hd, hu⟩ := hends s rfl
      have hfree : dotFree st [s] = dirText st ++ s := by
        rw [dotFree, climb, if_neg hd, if_neg hu, List.reverse_cons, intercalate_concat]
      rw [hfree] at hslash hdot ⊢
      rw [keptRun]
      cases h with
      | same h => rw [h, rooted, if_neg hslash]
      | root h =>
        rw [h, List.cons_append]
        exact if_pos rfl
      | cut st' a f hcut ha hf h =>
        rw [hcut, dirText_concat] at hdot
        cases a with
        | nil => simp at ha
        | cons c a => exact absurd (by simpa using ha) hdot
    | cons s' segs =>
      have hrest : ∀ t ∈ s' :: segs, 47 ∉ t := fun t ht => hsegs t (by simp [ht])
      have hends' : EndsPlain (s' :: segs) := fun t ht => hends t (by rwa [List.getLast?_cons_cons])
      have htail : ∀ t ∈ st.tail, 47 ∉ t := fun t ht => hst t (List.mem_of_mem_tail ht)
      have hpush : ∀ t ∈ s :: st, 47 ∉ t := by
        intro t ht
        rcases List.mem_cons.mp ht with rfl | ht
        · exact hsegs t (by simp)
        · exact hst t ht
      rw [dotFree, climb] at hslash hdot ⊢
      rw [keptRun]
      split
      next hd =>
        rw [if_pos hd] at hslash hdot
        exact ih h hst hrest (by simp) hends' hslash hdot
      next hd =>
        rw [if_neg hd] at hslash hdot
        split
        next hu =>
          rw [if_pos hu] at hslash hdot
          exact ih (h.up hst) htail hrest (by simp) hends' hslash hdot
        next hu =>
          rw [if_neg hu] at hslash hdot
          exact ih (h.push s) hpush hrest (by simp) hends' hslash hdot

theorem dotFree_single {s : List UInt8} (h : s ≠ [46] ∧ s ≠ [46, 46]) (st : List (List UInt8)) :
    dotFree st [s] = dirText st ++ s := by
  rw [dotFree, climb, if_neg h.1, if_neg h.2, List.reverse_cons, intercalate_concat]

/-- A text that begins with a character and a slash keeps them when the pointer goes back. -/
theorem backUp_keeps {c : UInt8} (hpre : [c, 47] <+: out) (hlast : out.getLast? = some 47)
    (gap : List UInt8) : [c, 47] <+: (backUp out gap).1 ∧ (backUp out gap).1.getLast? = some 47 ∧
      out.count 47 ≤ (backUp out gap).1.count 47 + 1 := by
  obtain ⟨t, rfl⟩ := hpre
  cases t with
  | nil =>
    rw [List.append_nil]
    rcases backUp_two c gap with h | h
    · rw [h]
      exact ⟨⟨[], by simp⟩, rfl, by omega⟩
    · rw [h]
      refine ⟨⟨[47], rfl⟩, rfl, ?_⟩
      rw [List.count_cons, List.count_cons, List.count_cons]
      simp only [List.count_nil, beq_iff_eq, if_true]
      omega
  | cons d t =>
    obtain ⟨pre, s, hout, hs, hpre, -⟩ := exists_parent hlast
    have hlen := congrArg List.length hout
    simp only [List.length_append, List.length_cons, List.length_nil] at hlen
    rw [hout, backUp_segment hpre hs (by simp; omega)]
    -- the last segment is not the first one: this has only one character
    have hpair : ∃ p, pre = c :: 47 :: p := by
      rcases pre with _ | ⟨a, _ | ⟨b, p⟩⟩
      · exfalso
        rcases s with _ | ⟨a, _ | ⟨b, s⟩⟩
        · simp at hout
        · simp at hout
        · have hb : (47 : UInt8) = b := by
            have := congrArg (fun l => l[1]?) hout
            simpa using this
          exact hs (by simp [hb])
      · exfalso
        cases s with
        | nil => simp at hout
        | cons b s =>
          have hb : (47 : UInt8) = b := by
            have := congrArg (fun l => l[1]?) hout
            simpa using this
          exact hs (by simp [hb])
      · have ha := congrArg (fun l => l[0]?) hout
        have hb := congrArg (fun l => l[1]?) hout
        simp only [List.cons_append, List.nil_append, List.getElem?_cons_zero, List.getElem?_cons_succ,
          Option.some.injEq] at ha hb
        exact ⟨p, by rw [ha, hb]⟩
    obtain ⟨p, rfl⟩ := hpair
    refine ⟨⟨p, rfl⟩, hpre.resolve_left (by simp), ?_⟩
    rw [List.count_append, List.count_append, List.count_eq_zero_of_not_mem hs]
    simp

/-- After it has climbed from two characters, the loop keeps these, and has a slash too many. -/
theorem deeper_of_two {segs st : List (List UInt8)} (hsegs : ∀ s ∈ segs, IsSegment s) (hne : segs ≠ [])
    (hends : EndsPlain segs) (hst : ∀ s ∈ st, 47 ∉ s) {c : UInt8} (hpre : [c, 47] <+: out)
    (hlast : out.getLast? = some 47) (hprev : (out ++ gap).getLast? = some 47)
    (hcount : st.length + 1 ≤ out.count 47) {res : List UInt8}
    (hres : cleanLoop 0 out gap ([47].intercalate segs) = some res) :
    [c, 47] <+: res ∧ (dotFree st segs).count 47 + 1 ≤ res.count 47 := by
  induction segs generalizing out gap st with
  | nil => exact absurd rfl hne
  | cons s segs ih =>
    have hs := hsegs s (by simp)
    have hfull : out ++ gap ≠ [] := fun hnil => by
      rw [hnil] at hprev
      simp at hprev
    cases segs with
    | nil =>
      rw [List.intercalate_singleton, cleanLoop_last hs fun _ => hfull] at hres
      obtain rfl := Option.some.inj hres
      rw [dotFree_single (hends s rfl), List.count_append, List.count_append, count_dirText hst,
        List.count_eq_zero_of_not_mem hs.1]
      exact ⟨hpre.trans (List.prefix_append _ _), by omega⟩
    | cons s' segs =>
      have hrest : ∀ t ∈ s' :: segs, IsSegment t := fun t ht => hsegs t (by simp [ht])
      have hends' : EndsPlain (s' :: segs) := fun t ht => hends t (by rwa [List.getLast?_cons_cons])
      rw [intercalate_slash] at hres
      rw [dotFree, climb]
      by_cases hdot : s = [46]
      · rw [if_pos hdot]
        rw [hdot, cleanLoop_dot hprev] at hres
        exact ih hrest (by simp) hends' hst hpre hlast (by simp) hcount hres
      · rw [if_neg hdot]
        by_cases hup : s = [46, 46]
        · rw [if_pos hup]
          rw [hup, cleanLoop_up hprev] at hres
          obtain ⟨hpre', hlast', hcount'⟩ := backUp_keeps hpre hlast gap
          refine ih hrest (by simp) hends' (fun t ht => hst t (List.mem_of_mem_tail ht)) hpre' hlast'
            (by simp) ?_ hres
          have hone : 0 < (backUp out gap).1.count 47 :=
            List.count_pos_iff.mpr (hpre'.subset (by simp))
          rw [List.length_tail]
          omega
        · rw [if_neg hup]
          rw [cleanLoop_push hs (fun _ => hfull) ⟨hdot, hup⟩] at hres
          refine ih hrest (by simp) hends' ?_ ?_ (by simp) (getLast?_push out gap s) ?_ hres
          · intro t ht
            rcases List.mem_cons.mp ht with rfl | ht
            · exact hs.1
            · exact hst t ht
          · rw [List.append_assoc]
            exact hpre.trans (List.prefix_append _ _)
          · rw [List.count_append, List.count_append, List.length_cons]
            simp only [List.count_singleton_self]
            omega

/-- So the path is another one than it should be. -/
theorem KeptFor.head_of_two {segs st : List (List UInt8)} (h : KeptFor out st)
    (hst : ∀ s ∈ st, 47 ∉ s) (hsegs : ∀ s ∈ segs, IsSegment s) (hends : EndsPlain segs)
    (hstart : out ++ gap = [] → ∀ s, segs.head? = some s → s.head? ≠ some 46)
    (hat : AtSegment out gap) (htwo : ¬NeverTwo out segs) {res : List UInt8}
    (hres : cleanLoop 0 out gap ([47].intercalate segs) = some res)
    (heq : rooted res = 47 :: dotFree st segs) : (dotFree st segs).head? = some 47 := by
  induction segs generalizing out gap st with
  | nil => exact absurd trivial htwo
  | cons s segs ih =>
    have hs := hsegs s (by simp)
    have hhead : s.head? = some 46 → out ++ gap ≠ [] := fun hdot hnil => hstart hnil s rfl hdot
    cases segs with
    | nil => exact absurd trivial htwo
    | cons s' segs =>
      have hrest : ∀ t ∈ s' :: segs, IsSegment t := fun t ht => hsegs t (by simp [ht])
      have hends' : EndsPlain (s' :: segs) := fun t ht => hends t (by rwa [List.getLast?_cons_cons])
      rw [intercalate_slash] at hres
      rw [NeverTwo] at htwo
      rw [dotFree, climb] at heq ⊢
      by_cases hdot : s = [46]
      · rw [if_pos hdot] at htwo heq ⊢
        have hfull := hhead (by rw [hdot]; rfl)
        rw [hdot, cleanLoop_dot (hat.prev.resolve_left hfull)] at hres
        exact ih h hst hrest hends' (fun hnil => absurd hnil (by simp)) (hat.dot hfull) htwo hres heq
      · rw [if_neg hdot] at htwo heq ⊢
        by_cases hup : s = [46, 46]
        · rw [if_pos hup] at htwo heq ⊢
          have hfull := hhead (by rw [hup]; rfl)
          have hst' : ∀ t ∈ st.tail, 47 ∉ t := fun t ht => hst t (List.mem_of_mem_tail ht)
          have hprev := hat.prev.resolve_left hfull
          rw [hup, cleanLoop_up hprev] at hres
          by_cases hlen : out.length = 2
          · -- here the pointer stays where it is
            obtain ⟨c, rfl⟩ : ∃ c, out = [c, 47] := by
              rcases hat.ends with hnil | hlast
              · rw [hnil] at hlen
                simp at hlen
              · obtain ⟨o, rfl⟩ := List.getLast?_eq_some_iff.mp hlast
                obtain ⟨c, rfl⟩ := List.length_eq_one_iff.mp (show o.length = 1 by simpa using hlen)
                exact ⟨c, rfl⟩
            have hle := h.length_le hst
            have hkept : [c, 47] <+: (backUp [c, 47] gap).1 ∧
                (backUp [c, 47] gap).1.getLast? = some 47 ∧
                [c, 47].count 47 ≤ (backUp [c, 47] gap).1.count 47 := by
              rcases backUp_two c gap with hb | hb
              · rw [hb]
                exact ⟨⟨[], by simp⟩, rfl, le_rfl⟩
              · rw [hb]
                exact ⟨⟨[47], rfl⟩, rfl, List.Sublist.count_le 47 (by simp)⟩
            obtain ⟨hpre, hlast, hcount⟩ := hkept
            have hone : 0 < (backUp [c, 47] gap).1.count 47 :=
              List.count_pos_iff.mpr (hpre.subset (by simp))
            obtain ⟨⟨t, rfl⟩, hdeep⟩ := deeper_of_two hrest (by simp) hends' hst' hpre hlast
              (by simp) (by rw [List.length_tail]; omega) hres
            by_cases hc : c = 47
            · subst hc
              have hroot : rooted ([47, 47] ++ t) = 47 :: 47 :: t := if_pos rfl
              rw [hroot] at heq
              show (dotFree st.tail (s' :: segs)).head? = _
              rw [← show _ = dotFree st.tail (s' :: segs) from List.tail_eq_of_cons_eq heq]
              rfl
            · have hroot : rooted ([c, 47] ++ t) = 47 :: ([c, 47] ++ t) := if_neg (by simpa using hc)
              rw [hroot] at heq
              rw [show [c, 47] ++ t = dotFree st.tail (s' :: segs) from List.tail_eq_of_cons_eq heq]
                at hdeep
              omega
          · obtain ⟨hparent, hat'⟩ := hat.up hfull hlen
            rw [hparent] at hres
            exact ih (h.up hst) hst' hrest hends' (fun hnil => absurd hnil (by simp)) hat'
              (fun hnever => htwo ⟨hlen, hnever⟩) hres heq
        · rw [if_neg hup] at htwo heq ⊢
          rw [cleanLoop_push hs hhead ⟨hdot, hup⟩] at hres
          refine ih (h.push s) ?_ hrest hends' (fun hnil => absurd hnil (by simp)) hat.push htwo hres heq
          intro t ht
          rcases List.mem_cons.mp ht with rfl | ht
          · exact hs.1
          · exact hst t ht

/-! ### The tests before the loop -/

/-- At most three dots are taken from the start of a path. -/
theorem exists_leadPath {path : List UInt8} (hne : path ≠ []) (hfour : ¬bytes "...." <+: path) :
    ∃ d ≤ 3, path = List.replicate d 46 ++ leadPath path ∧ (leadPath path).head? ≠ some 46 := by
  have hfour' : ¬[46, 46, 46, 46] <+: path := hfour
  rcases path with _ | ⟨a, path⟩
  · exact absurd rfl hne
  by_cases ha : a = 46
  · subst ha
    rcases path with _ | ⟨b, path⟩
    · exact ⟨1, by omega, rfl, by simp [leadPath]⟩
    by_cases hb : b = 46
    · subst hb
      rcases path with _ | ⟨c, path⟩
      · exact ⟨2, by omega, rfl, by simp [leadPath]⟩
      by_cases hc : c = 46
      · subst hc
        refine ⟨3, by omega, rfl, ?_⟩
        cases path with
        | nil => simp [leadPath]
        | cons e path =>
          have he : e ≠ 46 := fun h => hfour' ⟨path, by simp [h]⟩
          simpa [leadPath] using he
      · have hlead : leadPath (46 :: 46 :: c :: path) = c :: path := by
          simp [leadPath, hc]
        exact ⟨2, by omega, by rw [hlead]; rfl, by rw [hlead]; simpa using hc⟩
    · have hlead : leadPath (46 :: b :: path) = b :: path := by
        simp [leadPath, hb]
      exact ⟨1, by omega, by rw [hlead]; rfl, by rw [hlead]; simpa using hb⟩
  · have hlead : leadPath (a :: path) = a :: path := by
      simp [leadPath, ha]
    exact ⟨0, by omega, by rw [hlead]; rfl, by rw [hlead]; simpa using ha⟩

theorem splitOn_replicate {path f : List UInt8} {fs : List (List UInt8)}
    (h : path.splitOn 47 = f :: fs) (d : ℕ) :
    (List.replicate d 46 ++ path).splitOn 47 = (List.replicate d 46 ++ f) :: fs := by
  induction d with
  | zero => exact h
  | succ d ih =>
    rw [List.replicate_succ, List.cons_append, List.splitOn_cons_eq_if_modifyHead, ih]
    rfl

/-- With four dots at the start, the loop reads what is before the path. -/
theorem cleanPath_four {path : List UInt8} (h : bytes "...." <+: path) : cleanPath path = none := by
  obtain ⟨t, rfl⟩ := h
  show (cleanLoop 0 [] [] (46 :: t)).map _ = none
  rw [cleanLoop, if_neg (by decide), if_pos rfl]
  rfl

/-- A path that `clean_url` cleans: it begins with at most three dots and does not end with a dot
segment, and no `..` in it climbs from a text of two characters (a segment of one, usually).
Without its dot segments, it begins with an ordinary name. -/
structure PathClean (path : List UInt8) : Prop where
  noFour : ¬bytes "...." <+: path
  ends : ¬bytes "/." <:+ path ∧ ¬bytes "/.." <:+ path
  neverTwo : NeverTwo [] ((leadPath path).splitOn 47)
  first : (removeDots path).head? ≠ some 47 ∧ (removeDots path).head? ≠ some 46

theorem mem_splitOn_slash (path : List UInt8) :
    ∀ s ∈ path.splitOn 47, 47 ∉ s ∧ ∀ c ∈ s, c ∈ path := by
  induction path with
  | nil => simp
  | cons c path ih =>
    rw [List.splitOn_cons_eq_if_modifyHead]
    intro s hs
    split at hs
    next =>
      rcases List.mem_cons.mp hs with rfl | hs
      · simp
      · exact ⟨(ih s hs).1, fun d hd => List.mem_cons_of_mem _ ((ih s hs).2 d hd)⟩
    next hc =>
      cases hsplit : path.splitOn 47 with
      | nil => exact absurd hsplit (List.splitOn_ne_nil 47 path)
      | cons f fs =>
        rw [hsplit, List.modifyHead_cons] at hs
        rw [hsplit] at ih
        rcases List.mem_cons.mp hs with rfl | hs
        · obtain ⟨hf, hmem⟩ := ih f (by simp)
          have hc' : c ≠ 47 := by simpa using hc
          refine ⟨by simp [hf, hc'.symm], fun d hd => ?_⟩
          rcases List.mem_cons.mp hd with rfl | hd
          · simp
          · exact List.mem_cons_of_mem _ (hmem d hd)
        · obtain ⟨hf, hmem⟩ := ih s (by simp [hs])
          exact ⟨hf, fun d hd => List.mem_cons_of_mem _ (hmem d hd)⟩

theorem segment_of_mem_splitOn {path : List UInt8} (h : 32 ∉ path) :
    ∀ s ∈ path.splitOn 47, IsSegment s := fun s hs =>
  ⟨(mem_splitOn_slash path s hs).1, fun hmem => h ((mem_splitOn_slash path s hs).2 32 hmem)⟩

/-- What stands after the last slash. -/
theorem eq_of_append_slash {a b c d : List UInt8} (h : a ++ 47 :: b = c ++ 47 :: d) (hb : 47 ∉ b)
    (hd : 47 ∉ d) : b = d := by
  have htake : ∀ x y : List UInt8, 47 ∉ y →
      (x ++ 47 :: y).reverse.takeWhile (· ≠ 47) = y.reverse := by
    intro x y hy
    have hall : ∀ c ∈ y.reverse, decide (c ≠ 47) = true := fun c hc =>
      decide_eq_true fun h => hy (h ▸ List.mem_reverse.mp hc)
    rw [List.reverse_append, List.reverse_cons, List.append_assoc, List.singleton_append,
      List.takeWhile_append_of_pos hall, List.takeWhile_cons_of_neg (by simp), List.append_nil]
  have hrev := htake a b hb
  rw [h, htake c d hd] at hrev
  exact (List.reverse_injective hrev).symm

/-- A path of several segments ends in the last one, after a slash. -/
theorem exists_last_segment {path f f' : List UInt8} {fs : List (List UInt8)}
    (h : path.splitOn 47 = f :: f' :: fs) :
    ∃ pre init last, path = pre ++ 47 :: last ∧ f' :: fs = init ++ [last] ∧ 47 ∉ last := by
  obtain ⟨init, last, hinit⟩ := (List.eq_nil_or_concat (f' :: fs)).resolve_left (by simp)
  rw [List.concat_eq_append] at hinit
  have hpath : [47].intercalate (path.splitOn 47) = path := List.intercalate_splitOn 47
  rw [h, hinit, ← List.cons_append, ← List.reverse_reverse (f :: init), intercalate_concat] at hpath
  obtain ⟨s, st, hst⟩ : ∃ s st, (f :: init).reverse = s :: st := by
    cases hr : (f :: init).reverse with
    | nil => simp at hr
    | cons s st => exact ⟨s, st, rfl⟩
  rw [hst, dirText_cons, List.append_assoc, List.singleton_append] at hpath
  refine ⟨_, init, last, hpath.symm, hinit, (mem_splitOn_slash path last ?_).1⟩
  rw [h, hinit]
  simp

theorem endsPlain_iff {path f f' : List UInt8} {fs : List (List UInt8)}
    (h : path.splitOn 47 = f :: f' :: fs) :
    EndsPlain (f' :: fs) ↔ ¬bytes "/." <:+ path ∧ ¬bytes "/.." <:+ path := by
  obtain ⟨pre, init, last, rfl, hinit, hlast⟩ := exists_last_segment h
  have hends : EndsPlain (f' :: fs) ↔ last ≠ [46] ∧ last ≠ [46, 46] := by
    rw [EndsPlain, hinit, List.getLast?_concat]
    exact ⟨fun h => h last rfl, fun h s hs => Option.some.inj hs ▸ h⟩
  have hsuffix : ∀ s : List UInt8, 47 ∉ s → (47 :: s <:+ pre ++ 47 :: last ↔ last = s) := by
    intro s hs
    constructor
    · rintro ⟨t, ht⟩
      exact (eq_of_append_slash ht hs hlast).symm
    · rintro rfl
      exact ⟨pre, rfl⟩
  have hone := hsuffix [46] (by decide)
  have htwo := hsuffix [46, 46] (by decide)
  rw [hends, show bytes "/." = [47, 46] by decide, show bytes "/.." = [47, 46, 46] by decide, hone,
    htwo]

theorem retreat_length (before gap : List UInt8) :
    (retreat before gap).1.length + (retreat before gap).2.length = before.length + gap.length := by
  induction before generalizing gap with
  | nil => rfl
  | cons c before ih =>
    rw [retreat]
    split
    · rfl
    · rw [ih, List.length_cons, List.length_cons]
      omega

theorem backUp_length (out gap : List UInt8) :
    (backUp out gap).1.length + (backUp out gap).2.length = out.length + gap.length := by
  have hpass : ∀ o g : List UInt8,
      (passSlash o g).1.length + (passSlash o g).2.length = o.length + g.length := by
    intro o g
    rw [passSlash]
    split
    next h =>
      cases g with
      | nil => simp at h
      | cons c g =>
        simp only [List.length_append, List.length_cons, List.length_nil, List.tail_cons]
        omega
    · rfl
  rw [backUp, hpass, List.length_reverse, retreat_length]
  split
  · simp
    omega
  · rw [List.length_reverse]

/-- The path does not grow. -/
theorem cleanLoop_length {jump : ℕ} {path res : List UInt8}
    (h : cleanLoop jump out gap path = some res) :
    res.length ≤ out.length + gap.length + path.length := by
  induction path generalizing jump out gap with
  | nil =>
    rw [cleanLoop] at h
    rw [← Option.some.inj h]
    omega
  | cons c path ih =>
    rw [List.length_cons]
    have hcopy : cleanLoop 0 (out ++ [c]) (gap ++ [c]).tail path = some res →
        res.length ≤ out.length + gap.length + (path.length + 1) := fun h => by
      have hle := ih h
      rw [List.length_append, List.length_tail, List.length_append, List.length_singleton] at hle
      omega
    have hskip : ∀ jump, cleanLoop jump out (gap ++ [c]) path = some res →
        res.length ≤ out.length + gap.length + (path.length + 1) := fun jump h => by
      have hle := ih h
      rw [List.length_append, List.length_singleton] at hle
      omega
    cases jump with
    | succ jump =>
      rw [cleanLoop] at h
      exact hskip jump h
    | zero =>
      rw [cleanLoop] at h
      split at h
      · exact hskip 0 h
      · split at h
        · split at h
          · exact absurd h (by simp)
          · split at h
            · have hle := ih h
              have hback := backUp_length out gap
              rw [List.length_append, List.length_singleton] at hle
              omega
            · split at h
              · exact hskip 1 h
              · exact hcopy h
        · exact hcopy h

/-! ### The paths -/

theorem plain_nil : Plain ([46] : List UInt8) [46, 46] [] := ⟨by simp, by simp⟩

theorem removeDots_splitOn (path : List UInt8) :
    (removeDots path).splitOn 47 = climb [46] [46, 46] [] [] (path.splitOn 47) :=
  List.splitOn_intercalate 47
    (forall_mem_climb (by simp) (by simp) fun s hs _ => (mem_splitOn_slash path s hs).1)
    (climb_ne_nil (List.splitOn_ne_nil 47 path) [])

/-- Nothing is left to remove. -/
theorem removeDots_removeDots (path : List UInt8) : removeDots (removeDots path) = removeDots path := by
  rw [removeDots, removeDots_splitOn, climb_climb plain_nil]
  rfl

theorem mem_intercalate_slash {c : UInt8} : ∀ {l : List (List UInt8)}, c ∈ [47].intercalate l →
    c = 47 ∨ ∃ s ∈ l, c ∈ s
  | [], h => by simp at h
  | [s], h => .inr ⟨s, by simp, by simpa using h⟩
  | s :: s' :: l, h => by
    rw [intercalate_slash] at h
    rcases List.mem_append.mp h with h | h
    · exact .inr ⟨s, by simp, h⟩
    · rcases List.mem_cons.mp h with rfl | h
      · exact .inl rfl
      · rcases mem_intercalate_slash h with rfl | ⟨t, ht, hc⟩
        · exact .inl rfl
        · exact .inr ⟨t, List.mem_cons_of_mem _ ht, hc⟩

/-- The characters without the dot segments are some of those with them. -/
theorem mem_removeDots {c : UInt8} {path : List UInt8} (h : c ∈ removeDots path) :
    c = 47 ∨ c ∈ path := by
  rcases mem_intercalate_slash h with rfl | ⟨s, hs, hc⟩
  · exact .inl rfl
  · have hall : ∀ s ∈ climb [46] [46, 46] [] [] (path.splitOn 47), ∀ c ∈ s, c ∈ path :=
      forall_mem_climb (by simp) (by simp) fun s hs _ => (mem_splitOn_slash path s hs).2
    exact .inr (hall s hs c hc)

theorem neverTwo_of_plain {segs : List (List UInt8)} (h : ∀ s ∈ segs, s ≠ [46] ∧ s ≠ [46, 46])
    (kept : List UInt8) :
    NeverTwo kept segs ∧ keptRun kept segs = kept ++ [47].intercalate segs := by
  induction segs generalizing kept with
  | nil => exact ⟨trivial, by simp [keptRun]⟩
  | cons s segs ih =>
    cases segs with
    | nil => exact ⟨trivial, by rw [keptRun, List.intercalate_singleton]⟩
    | cons s' segs =>
      obtain ⟨hd, hu⟩ := h s (by simp)
      obtain ⟨hnever, hkept⟩ := ih (fun t ht => h t (List.mem_cons_of_mem _ ht)) (kept ++ s ++ [47])
      rw [NeverTwo, keptRun, if_neg hd, if_neg hu, if_neg hd, if_neg hu, intercalate_slash, hkept]
      exact ⟨hnever, by simp⟩

/-- A path that begins as it should, without dot segments, is not changed. -/
theorem cleanLoop_of_plain {path : List UInt8} (hblank : 32 ∉ path)
    (hplain : ∀ s ∈ path.splitOn 47, s ≠ [46] ∧ s ≠ [46, 46]) (hfirst : path.head? ≠ some 46) :
    cleanLoop 0 [] [] path = some path := by
  obtain ⟨hnever, hkept⟩ := neverTwo_of_plain hplain []
  have hjoin : [47].intercalate (path.splitOn 47) = path := List.intercalate_splitOn 47
  have hstart : ∀ s, (path.splitOn 47).head? = some s → s.head? ≠ some 46 := by
    intro s hs hdot
    cases hsplit : path.splitOn 47 with
    | nil => exact absurd hsplit (List.splitOn_ne_nil 47 path)
    | cons f fs =>
      rw [hsplit] at hs hjoin
      obtain rfl := Option.some.inj hs
      cases f with
      | nil => simp at hdot
      | cons c f =>
        refine hfirst ?_
        rw [← hjoin]
        cases fs with
        | nil => simpa using hdot
        | cons f' fs =>
          rw [intercalate_slash]
          simpa using hdot
  have hat : AtSegment [] [] := ⟨fun _ => .inl rfl, fun h => absurd h (by simp), .inl rfl, .inl rfl⟩
  have hloop := cleanLoop_eq_keptRun (segment_of_mem_splitOn hblank) (List.splitOn_ne_nil 47 path)
    (fun _ => hstart) hat hnever
  rwa [hkept, hjoin, List.nil_append] at hloop

theorem first_eq_nil {d : ℕ} {f : List UInt8} (hdot : f.head? ≠ some 46)
    (h : List.replicate d 46 ++ f = [46] ∨ List.replicate d 46 ++ f = [46, 46]) : f = [] := by
  have hall : ∀ c ∈ List.replicate d 46 ++ f, c = 46 := by
    rcases h with h | h <;> simp [h]
  cases f with
  | nil => rfl
  | cons c f => exact absurd (congrArg some (hall c (by simp))) hdot

/-- The first of several segments, with the dots before it and without them. -/
theorem exists_first_dirs {d : ℕ} (hd : d ≤ 3) {f : List UInt8} (hf : 47 ∉ f)
    (hdot : f.head? ≠ some 46) : ∃ st, (∀ s ∈ st, 47 ∉ s) ∧ KeptFor (f ++ [47]) st ∧
      ∀ f' fs, dotFree [] ((List.replicate d 46 ++ f) :: f' :: fs) = dotFree st (f' :: fs) := by
  have hslash : 47 ∉ List.replicate d 46 ++ f := by simp [hf]
  have hone : ∀ s : List UInt8, (∀ t ∈ [s], 47 ∉ t) ↔ 47 ∉ s := fun s => by simp
  have hcut : KeptFor (f ++ [47]) [f] := .same (by rw [dirText_cons]; rfl)
  by_cases hplain : List.replicate d 46 ++ f = [46] ∨ List.replicate d 46 ++ f = [46, 46]
  · -- the segment is `.` or `..`: its slash stays, as the root
    obtain rfl := first_eq_nil hdot hplain
    refine ⟨[], by simp, .root rfl, fun f' fs => ?_⟩
    rw [dotFree, climb]
    rcases hplain with h | h
    · rw [if_pos h]
      rfl
    · rw [if_neg (by rw [h]; decide), if_pos h]
      rfl
  · rw [not_or] at hplain
    refine ⟨[List.replicate d 46 ++ f], (hone _).mpr hslash, ?_, fun f' fs => ?_⟩
    · cases d with
      | zero => exact hcut
      | succ d =>
        refine .cut [] _ f rfl (by simp [List.replicate_succ]) hf ?_
        rw [List.nil_append, dirText_cons]
        rfl
    · rw [dotFree, climb, if_neg hplain.1, if_neg hplain.2]
      rfl

theorem cleanPath_eq (path : List UInt8) :
    cleanPath path = (cleanLoop 0 [] [] (leadPath path)).map rooted := rfl

theorem leadPath_of_head {path : List UInt8} (hne : path ≠ []) (h : path.head? ≠ some 46) :
    leadPath path = path := by
  cases path with
  | nil => exact absurd rfl hne
  | cons c path =>
    have hc : c ≠ 46 := by simpa using h
    simp [leadPath, hc]

/-- The loop after the first of several segments. -/
theorem cleanLoop_first {path f f' : List UInt8} {fs : List (List UInt8)} (hblank : 32 ∉ path)
    (hsplit : path.splitOn 47 = f :: f' :: fs) (hfirst : path.head? ≠ some 46) :
    f.head? ≠ some 46 ∧ AtSegment (f ++ [47]) [] ∧
      cleanLoop 0 [] [] path = cleanLoop 0 (f ++ [47]) [] ([47].intercalate (f' :: fs)) := by
  have hjoin : [47].intercalate (path.splitOn 47) = path := List.intercalate_splitOn 47
  rw [hsplit, intercalate_slash] at hjoin
  have hf : f.head? ≠ some 46 := fun hdot => by
    cases f with
    | nil => simp at hdot
    | cons c f =>
      rw [← hjoin] at hfirst
      exact hfirst (by simpa using hdot)
  have hat : AtSegment [] [] := ⟨fun _ => .inl rfl, fun h => absurd h (by simp), .inl rfl, .inl rfl⟩
  have hseg : IsSegment f := segment_of_mem_splitOn hblank f (by rw [hsplit]; simp)
  have hgap : (([] : List UInt8) ++ f ++ [47]).drop (f.length + 1) = [] := by simp
  have hpush := hat.push (s := f)
  rw [hgap] at hpush
  refine ⟨hf, by simpa using hpush, ?_⟩
  conv_lhs => rw [← hjoin]
  rw [cleanLoop_push hseg (fun h => absurd h hf) ⟨fun h => hf (by rw [h]; rfl),
    fun h => hf (by rw [h]; rfl)⟩, hgap, List.nil_append]

theorem removeDots_plain (path : List UInt8) :
    ∀ s ∈ (removeDots path).splitOn 47, s ≠ [46] ∧ s ≠ [46, 46] := by
  rw [removeDots_splitOn]
  exact plain_of_mem_climb plain_nil _

/-- A path that begins with an ordinary name and has no dot segments is only put after a slash. -/
theorem cleanPath_removeDots {path : List UInt8} (hblank : 32 ∉ path)
    (hslash : (removeDots path).head? ≠ some 47) (hdot : (removeDots path).head? ≠ some 46) :
    cleanPath (removeDots path) = some (47 :: removeDots path) := by
  have hblank' : 32 ∉ removeDots path := fun h => by
    rcases mem_removeDots h with h | h
    · exact absurd h (by decide)
    · exact hblank h
  by_cases hnil : removeDots path = []
  · rw [hnil]
    decide
  · rw [cleanPath_eq, leadPath_of_head hnil hdot,
      cleanLoop_of_plain hblank' (removeDots_plain path) hdot, Option.map_some, rooted, if_neg hslash]

/-- **The path is cleaned.** -/
theorem PathClean.cleanPath {path : List UInt8} (h : PathClean path) (hblank : 32 ∉ path) :
    cleanPath path = some (47 :: removeDots path) := by
  by_cases hnil : path = []
  · rw [hnil]
    decide
  obtain ⟨d, hd, hpath, hlead⟩ := exists_leadPath hnil h.noFour
  set q := leadPath path with hq
  have hblankq : 32 ∉ q := fun hmem => hblank (by rw [hpath]; simp [hmem])
  have hfirst := h.first
  have hnever := h.neverTwo
  rw [← hq] at hnever
  rw [removeDots_eq] at hfirst ⊢
  cases hsplit : q.splitOn 47 with
  | nil => exact absurd hsplit (List.splitOn_ne_nil 47 q)
  | cons f fs =>
    have hseg := segment_of_mem_splitOn hblankq
    have hjoin : [47].intercalate (q.splitOn 47) = q := List.intercalate_splitOn 47
    have hsplit' := splitOn_replicate hsplit d
    rw [← hpath] at hsplit'
    rw [hsplit] at hnever hseg hjoin
    rw [cleanPath_eq, ← hq]
    rw [hsplit'] at hfirst ⊢
    cases fs with
    | nil =>
      -- there is no slash
      rw [List.intercalate_singleton] at hjoin
      rw [hjoin] at hfirst hseg ⊢
      have hf := hseg q (by simp)
      rw [cleanLoop_last hf fun h => absurd h hlead, List.nil_append, Option.map_some]
      by_cases hplain : List.replicate d 46 ++ q = [46] ∨ List.replicate d 46 ++ q = [46, 46]
      · have hempty := first_eq_nil hlead hplain
        rw [hempty] at hplain ⊢
        rcases hplain with h | h <;> rw [h] <;> decide
      · rw [not_or] at hplain
        rw [dotFree_single hplain] at hfirst ⊢
        cases d with
        | zero => exact congrArg some (if_neg hfirst.1)
        | succ d => exact absurd rfl hfirst.2
    | cons f' fs =>
      obtain ⟨hf, hat, hloop⟩ := cleanLoop_first hblankq hsplit hlead
      obtain ⟨st, hst, hkept, hfree⟩ := exists_first_dirs hd (hseg f (by simp)).1 hf
      rw [hfree] at hfirst ⊢
      rw [NeverTwo, if_neg fun h => hf (by rw [h]; rfl), if_neg fun h => hf (by rw [h]; rfl),
        List.nil_append] at hnever
      have hrest : ∀ s ∈ f' :: fs, IsSegment s := fun s hs => hseg s (List.mem_cons_of_mem _ hs)
      rw [hloop, cleanLoop_eq_keptRun hrest (by simp) (fun h => absurd h (by simp)) hat hnever,
        Option.map_some, hkept.rooted_eq hst (fun s hs => (hrest s hs).1) (by simp)
          ((endsPlain_iff hsplit').mpr h.ends) hfirst.1 hfirst.2]

/-- The path ends with its last segment, whatever that is. -/
theorem getLast?_cleanLoop {segs : List (List UInt8)} (hsegs : ∀ s ∈ segs, IsSegment s)
    (hprev : (out ++ gap).getLast? = some 47) {last : List UInt8} (hlast : segs.getLast? = some last)
    (hne : last ≠ []) {res : List UInt8}
    (hres : cleanLoop 0 out gap ([47].intercalate segs) = some res) :
    res.getLast? = last.getLast? := by
  induction segs generalizing out gap with
  | nil => simp at hlast
  | cons s segs ih =>
    have hs := hsegs s (by simp)
    have hfull : out ++ gap ≠ [] := fun hnil => by
      rw [hnil] at hprev
      simp at hprev
    cases segs with
    | nil =>
      rw [List.intercalate_singleton, cleanLoop_last hs fun _ => hfull] at hres
      obtain rfl : s = last := Option.some.inj hlast
      rw [← Option.some.inj hres, List.getLast?_append_of_ne_nil _ hne]
    | cons s' segs =>
      have hrest : ∀ t ∈ s' :: segs, IsSegment t := fun t ht => hsegs t (by simp [ht])
      rw [List.getLast?_cons_cons] at hlast
      rw [intercalate_slash] at hres
      by_cases hdot : s = [46]
      · rw [hdot, cleanLoop_dot hprev] at hres
        exact ih hrest (by simp) hlast hres
      · by_cases hup : s = [46, 46]
        · rw [hup, cleanLoop_up hprev] at hres
          exact ih hrest (by simp) hlast hres
        · rw [cleanLoop_push hs (fun _ => hfull) ⟨hdot, hup⟩] at hres
          exact ih hrest (getLast?_push out gap s) hlast hres

/-- A dot segment at the end leaves a directory. -/
theorem exists_dirText {segs : List (List UInt8)} (st : List (List UInt8))
    (h : segs.getLast? = some [46] ∨ segs.getLast? = some [46, 46]) :
    ∃ st', dotFree st segs = dirText st' := by
  induction segs generalizing st with
  | nil => simp at h
  | cons s segs ih =>
    cases segs with
    | nil =>
      have hlast : ∀ st' : List (List UInt8), [47].intercalate ([] :: st').reverse = dirText st' :=
        fun st' => by rw [List.reverse_cons, intercalate_concat, List.append_nil]
      rcases h with h | h
      · obtain rfl : s = [46] := Option.some.inj h
        exact ⟨st, by rw [dotFree, climb, if_pos rfl, hlast]⟩
      · obtain rfl : s = [46, 46] := Option.some.inj h
        exact ⟨st.tail, by rw [dotFree, climb, if_neg (by decide), if_pos rfl, hlast]⟩
    | cons s' segs =>
      rw [List.getLast?_cons_cons] at h
      rw [dotFree, climb]
      split
      · exact ih st h
      · split
        · exact ih st.tail h
        · exact ih (s :: st) h

/-- A path that is not added after another slash begins with an ordinary name. -/
theorem first_of_cleanPath {path : List UInt8} (hblank : 32 ∉ path)
    (h : cleanPath (removeDots path) = some (47 :: removeDots path)) :
    (removeDots path).head? ≠ some 47 ∧ (removeDots path).head? ≠ some 46 := by
  have hblank' : 32 ∉ removeDots path := fun h => by
    rcases mem_removeDots h with h | h
    · exact absurd h (by decide)
    · exact hblank h
  constructor
  · intro hslash
    have hne : removeDots path ≠ [] := fun hnil => by simp [hnil] at hslash
    have hdot : (removeDots path).head? ≠ some 46 := by rw [hslash]; simp
    rw [cleanPath_eq, leadPath_of_head hne hdot,
      cleanLoop_of_plain hblank' (removeDots_plain path) hdot, Option.map_some, rooted,
      if_pos hslash] at h
    have hlen := congrArg List.length (Option.some.inj h)
    simp at hlen
  · intro hdot
    have hne : removeDots path ≠ [] := fun hnil => by simp [hnil] at hdot
    by_cases hfour : bytes "...." <+: removeDots path
    · rw [cleanPath_four hfour] at h
      exact absurd h (by simp)
    · obtain ⟨d, -, hpath, hlead⟩ := exists_leadPath hne hfour
      rw [cleanPath_eq] at h
      obtain ⟨res, hres, hroot⟩ := Option.map_eq_some_iff.mp h
      have hle := cleanLoop_length hres
      have hlen := congrArg List.length hpath
      have hpos : d ≠ 0 := by
        rintro rfl
        rw [List.replicate_zero, List.nil_append] at hpath
        exact hlead (by rw [← hpath, hdot])
      have hroot' : (rooted res).length ≤ res.length + 1 := by
        rw [rooted]
        split
        · omega
        · rw [List.length_cons]
      rw [hroot, List.length_cons] at hroot'
      rw [List.length_append, List.length_replicate] at hlen
      simp only [List.length_nil] at hle
      omega

/-- **Which paths are cleaned**, and then left as they are. -/
theorem cleanPath_iff {path : List UInt8} (hblank : 32 ∉ path) :
    cleanPath path = some (47 :: removeDots path) ∧
        cleanPath (removeDots path) = some (47 :: removeDots path) ↔ PathClean path := by
  constructor
  · rintro ⟨hclean, hagain⟩
    have hfirst := first_of_cleanPath hblank hagain
    have hfour : ¬bytes "...." <+: path := fun h4 => by
      rw [cleanPath_four h4] at hclean
      exact absurd hclean (by simp)
    by_cases hnil : path = []
    · subst hnil
      exact ⟨by decide, by decide, trivial, by decide⟩
    obtain ⟨d, hd, hpath, hlead⟩ := exists_leadPath hnil hfour
    set q := leadPath path with hq
    have hblankq : 32 ∉ q := fun hmem => hblank (by rw [hpath]; simp [hmem])
    cases hsplit : q.splitOn 47 with
    | nil => exact absurd hsplit (List.splitOn_ne_nil 47 q)
    | cons f fs =>
      have hseg := segment_of_mem_splitOn hblankq
      have hsplit' := splitOn_replicate hsplit d
      rw [← hpath] at hsplit'
      rw [hsplit] at hseg
      cases fs with
      | nil =>
        have hjoin : [47].intercalate (path.splitOn 47) = path := List.intercalate_splitOn 47
        rw [hsplit', List.intercalate_singleton] at hjoin
        have hslash : 47 ∉ path := by
          rw [← hjoin]
          simp [(hseg f (by simp)).1]
        exact ⟨hfour, ⟨fun h => hslash (h.subset (by decide)), fun h => hslash (h.subset (by decide))⟩,
          by rw [← hq, hsplit]; trivial, hfirst⟩
      | cons f' fs =>
        obtain ⟨hf, hat, hloop⟩ := cleanLoop_first hblankq hsplit hlead
        obtain ⟨st, hst, hkept, hfree⟩ := exists_first_dirs hd (hseg f (by simp)).1 hf
        have hrest : ∀ s ∈ f' :: fs, IsSegment s := fun s hs => hseg s (List.mem_cons_of_mem _ hs)
        have hdots : removeDots path = dotFree st (f' :: fs) := by
          rw [removeDots_eq, hsplit', hfree]
        rw [cleanPath_eq, ← hq, hloop, hdots] at hclean
        rw [hdots] at hfirst
        obtain ⟨res, hres, hroot⟩ := Option.map_eq_some_iff.mp hclean
        have hends : EndsPlain (f' :: fs) := by
          intro last hlast
          by_contra hdot
          have hdot' : last = [46] ∨ last = [46, 46] := by
            by_contra h
            rw [not_or] at h
            exact hdot h
          have hresLast : res.getLast? = some 46 := by
            rw [getLast?_cleanLoop hrest (by simp) hlast (by rcases hdot' with h | h <;> simp [h]) hres]
            rcases hdot' with h | h <;> rw [h] <;> rfl
          obtain ⟨st', hst'⟩ := exists_dirText st
            (show (f' :: fs).getLast? = some [46] ∨ (f' :: fs).getLast? = some [46, 46] by
              rcases hdot' with h | h <;> simp [hlast, h])
          have hrootLast : (rooted res).getLast? = some 46 := by
            rw [rooted]
            split
            · exact hresLast
            · rw [List.getLast?_cons, hresLast]
              rfl
          rw [hroot, hst', List.getLast?_cons] at hrootLast
          rcases dirText_ends st' with h | h <;> rw [h] at hrootLast <;> simp at hrootLast
        refine ⟨hfour, (endsPlain_iff hsplit').mp hends, ?_, by rwa [hdots]⟩
        rw [← hq, hsplit, NeverTwo, if_neg fun h => hf (by rw [h]; rfl),
          if_neg fun h => hf (by rw [h]; rfl), List.nil_append]
        by_contra htwo
        exact hfirst.1 (hkept.head_of_two hst hrest hends (fun h => absurd h (by simp)) hat htwo hres
          hroot)
  · exact fun h => ⟨h.cleanPath hblank, cleanPath_removeDots hblank h.first.1 h.first.2⟩

end

end

/-! ### The urls -/

section

variable {gethostbyname : List UInt8 → Option (List UInt8)} {server : List UInt8}

theorem takeWhile_http (rest : List UInt8) :
    (bytes "http" ++ 58 :: rest).takeWhile (· ≠ 58) = bytes "http" ∧
      (bytes "http" ++ 58 :: rest).dropWhile (· ≠ 58) = 58 :: rest := by
  have hall : ∀ c ∈ bytes "http", decide (c ≠ 58) = true := by decide +kernel
  rw [List.takeWhile_append_of_pos hall, List.dropWhile_append_of_pos hall,
    List.takeWhile_cons_of_neg (by simp), List.dropWhile_cons_of_neg (by simp), List.append_nil]
  exact ⟨rfl, rfl⟩

/-- The name of the server ends at a colon or at the path. -/
theorem takeWhile_server (hserver : 58 ∉ server ∧ 47 ∉ server) {c : UInt8} (hc : c = 58 ∨ c = 47)
    (rest : List UInt8) :
    (server ++ c :: rest).takeWhile (fun c => c ≠ 58 ∧ c ≠ 47) = server ∧
      (server ++ c :: rest).dropWhile (fun c => c ≠ 58 ∧ c ≠ 47) = c :: rest := by
  have hall : ∀ d ∈ server, decide (d ≠ 58 ∧ d ≠ 47) = true := fun d hd =>
    decide_eq_true ⟨fun h => hserver.1 (h ▸ hd), fun h => hserver.2 (h ▸ hd)⟩
  rw [List.takeWhile_append_of_pos hall, List.dropWhile_append_of_pos hall]
  rcases hc with rfl | rfl
  · rw [List.takeWhile_cons_of_neg (by decide), List.dropWhile_cons_of_neg (by decide), List.append_nil]
    exact ⟨rfl, rfl⟩
  · rw [List.takeWhile_cons_of_neg (by decide), List.dropWhile_cons_of_neg (by decide), List.append_nil]
    exact ⟨rfl, rfl⟩

/-- What `urlParse` does after `http://`. -/
theorem urlParse_http (t : List UInt8) : urlParse gethostbyname (bytes "http" ++ 58 :: 47 :: 47 :: t) =
    let server := t.takeWhile fun c => c ≠ 58 ∧ c ≠ 47
    let s := t.dropWhile fun c => c ≠ 58 ∧ c ≠ 47
    let localUrl (s : List UInt8) := if s = [] then [47] else s
    if s.head? = some 58 then
      let port := s.tail.takeWhile isDigit
      let s := s.tail.dropWhile isDigit
      if s ≠ [] ∧ s.head? ≠ some 47 then none
      else some (urlCanonical gethostbyname ⟨some server, some port, localUrl s, none⟩)
    else some (urlCanonical gethostbyname ⟨some server, some (bytes "80"), localUrl s, none⟩) := by
  have hmethod : strncasecmpEq (bytes "http" ++ 58 :: 47 :: 47 :: t) (bytes "http")
      (bytes "http").length = true := by
    rw [strncasecmpEq, List.take_left, List.take_length, strcasecmpEq_iff]
  have hthree : (58 :: 47 :: 47 :: t).take 3 = bytes "://" := by
    rw [show bytes "://" = [58, 47, 47] by decide +kernel]
    rfl
  obtain ⟨htake, hdrop⟩ := takeWhile_http (47 :: 47 :: t)
  rw [urlParse]
  dsimp only
  rw [htake, hdrop, if_neg (by simp), hmethod, hthree, if_neg (by simp)]
  rfl

/-- The parts of an url with a port. -/
theorem urlParse_port (hserver : 58 ∉ server ∧ 47 ∉ server) {ds : List UInt8}
    (hds : ∀ c ∈ ds, isDigit c = true) {rest : List UInt8} (hrest : rest = [] ∨ rest.head? = some 47) :
    urlParse gethostbyname (bytes "http" ++ 58 :: 47 :: 47 :: (server ++ 58 :: (ds ++ rest))) =
      some (urlCanonical gethostbyname
        ⟨some server, some ds, if rest = [] then [47] else rest, none⟩) := by
  have hnoDigit : NoDigit rest := by
    rcases hrest with rfl | hhead
    · exact fun c hc => absurd hc (by simp)
    · intro c hc
      rw [Option.mem_def, hhead, Option.some.injEq] at hc
      rw [← hc]
      rfl
  obtain ⟨hs, hr⟩ := takeWhile_server hserver (.inl rfl) (ds ++ rest)
  obtain ⟨hp, hq⟩ := takeWhile_digits hds hnoDigit
  rw [urlParse_http]
  dsimp only
  rw [hs, hr, List.head?_cons, if_pos rfl, List.tail_cons, hp, hq,
    if_neg fun h => hrest.elim h.1 h.2]

end

namespace HttpUrl

variable (u : HttpUrl)

/-- The text of the url. -/
def text : List UInt8 := urlText u.server u.port u.path

/-- The url without its dot segments, and without the port 80. -/
def cleaned : HttpUrl where
  server := u.server
  port := cleanPort u.port
  path := removeDots u.path
  serverPlain := u.serverPlain
  portDecimal ds hds := by
    rw [cleanPort] at hds
    split at hds
    · simp at hds
    · rw [← Option.some.inj hds]
      exact ⟨printULong_ne_nil _, isDigit_printULong _⟩
  pathFilled h := by
    rcases mem_removeDots h with h | h
    · exact absurd h (by decide)
    · exact u.pathFilled h

variable (gethostbyname : List UInt8 → Option (List UInt8))

/-- `urlscan` and `urlParse` find the server, the port and the path of the url. -/
structure SplitAlike : Prop where
  method : (urlscan u.text).method = bytes "http"
  server : (urlscan u.text).server = u.server
  port : (if (urlscan u.text).port = -1 then 80 else (urlscan u.text).port) = portNumber u.port
  path : (urlscan u.text).path = u.path
  parsed : ∃ v, urlParse gethostbyname u.text = some v ∧ v.server = some u.server ∧
    v.port.map digitsValue = some (portNumber u.port) ∧ v.localUrl = 47 :: u.path

/-- The url is split as it should be and made the one that it should become, and so is this, which
then stays as it is. -/
structure CleansRight : Prop where
  split : u.SplitAlike gethostbyname
  clean : cleanUrl u.text = some (1, u.cleaned.text)
  splitAgain : u.cleaned.SplitAlike gethostbyname
  cleanAgain : cleanUrl u.cleaned.text = some (1, u.cleaned.text)

/-- No colon is in the path, unless a port is before it (also when the port 80 has been left out);
the port is an `int`; the name of the server has no capital letters, or is not found; and the path
is one that is cleaned. -/
structure Cleanable : Prop where
  colon : u.port = none → 58 ∉ u.path
  port : portNumber u.port < 2147483648
  server : gethostbyname u.server = none ∨ u.server.map asciiLower = u.server
  colonAgain : cleanPort u.port = none → 58 ∉ removeDots u.path
  path : PathClean u.path

variable {u gethostbyname}

/-- The text after `http://`. -/
theorem text_eq (rest : List UInt8) :
    urlText u.server u.port rest = bytes "http" ++ 58 :: 47 :: 47 :: (u.server ++
      ((match u.port with | some ds => 58 :: ds | none => []) ++ 47 :: rest)) := by
  have hhttp : bytes "http://" = bytes "http" ++ [58, 47, 47] := by decide +kernel
  cases u.port <;> simp only [urlText, hhttp] <;> simp

/-- What `urlscan` does after `http://`. -/
theorem urlscan_http (rest : List UInt8) : urlscan (bytes "http" ++ 58 :: 47 :: 47 :: rest) =
    if 58 ∉ rest then
      if 47 ∉ rest then ⟨bytes "http", rest, -1, [], 2⟩
      else ⟨bytes "http", rest.takeWhile (· ≠ 47), -1, (rest.dropWhile (· ≠ 47)).tail, 3⟩
    else
      let t := (rest.dropWhile (· ≠ 58)).tail
      if 47 ∉ t then ⟨bytes "http", rest.takeWhile (· ≠ 58), atoi t, [], 3⟩
      else ⟨bytes "http", rest.takeWhile (· ≠ 58), atoi t, (t.dropWhile (· ≠ 47)).tail, 4⟩ := by
  obtain ⟨htake, hdrop⟩ := takeWhile_http (47 :: 47 :: rest)
  have hmethod : (58 :: 47 :: 47 :: rest).take 3 = bytes "://" := by
    rw [show bytes "://" = [58, 47, 47] by decide +kernel]
    rfl
  rw [urlscan, if_neg (by simp), hdrop, hmethod, if_neg (by simp), htake]
  rfl

/-- The port, as far as it is in the text. -/
theorem urlscan_port {ds : List UInt8} (hport : u.port = some ds) : urlscan u.text =
    ⟨bytes "http", u.server, min (2 ^ 31 - 1) (portNumber u.port : ℤ), u.path, 4⟩ := by
  obtain ⟨hne, hds⟩ := u.portDecimal ds hport
  have hslash : 47 ∉ ds := fun h => absurd (hds 47 h) (by decide)
  obtain ⟨htake, hdrop⟩ := takeWhile_until u.serverPlain.1 (ds ++ 47 :: u.path)
  have hatoi : atoi (ds ++ 47 :: u.path) = _ := atoi_digits hne hds (noDigit_cons (by decide) _)
  rw [text, text_eq, hport]
  dsimp only
  rw [List.cons_append, urlscan_http, if_neg (by simp), htake, hdrop, List.tail_cons]
  dsimp only
  rw [if_neg (by simp), hatoi, (takeWhile_until hslash u.path).2, List.tail_cons]
  rfl

theorem urlscan_noPort (hport : u.port = none) : urlscan u.text =
    if 58 ∉ u.path then ⟨bytes "http", u.server, -1, u.path, 3⟩
    else urlscan (bytes "http" ++ 58 :: 47 :: 47 :: (u.server ++ 47 :: u.path)) := by
  rw [text, text_eq, hport]
  dsimp only
  rw [List.nil_append]
  split
  next hcolon =>
    obtain ⟨htake, hdrop⟩ := takeWhile_until u.serverPlain.2 u.path
    rw [urlscan_http, if_pos (by simp [u.serverPlain.1, hcolon]), if_neg (by simp), htake, hdrop]
    rfl
  next => rfl

/-- A colon in the path is taken for that before a port. -/
theorem server_ne_of_colon (hport : u.port = none) (hcolon : 58 ∈ u.path) :
    (urlscan u.text).server ≠ u.server := by
  rw [urlscan_noPort hport, if_neg (not_not.mpr hcolon), urlscan_http, if_neg (by simp [hcolon])]
  have hall : ∀ c ∈ u.server, decide (c ≠ 58) = true := fun c hc =>
    decide_eq_true fun h => u.serverPlain.1 (h ▸ hc)
  have hmem : 47 ∈ (u.server ++ 47 :: u.path).takeWhile (· ≠ 58) := by
    rw [List.takeWhile_append_of_pos hall, List.takeWhile_cons_of_pos (by decide)]
    simp
  dsimp only
  intro heq
  split at heq <;> exact u.serverPlain.2 (heq ▸ hmem)

/-- What `urlParse` finds. -/
theorem urlParse_text : urlParse gethostbyname u.text =
    some (urlCanonical gethostbyname
      ⟨some u.server, some (u.port.getD (bytes "80")), 47 :: u.path, none⟩) := by
  rw [text, text_eq]
  cases hport : u.port with
  | none =>
    obtain ⟨hs, hr⟩ := takeWhile_server u.serverPlain (.inr rfl) u.path
    dsimp only
    rw [List.nil_append, urlParse_http]
    dsimp only
    rw [hs, hr, if_neg (by simp), if_neg (by simp)]
    rfl
  | some ds =>
    have hparse := @urlParse_port gethostbyname u.server u.serverPlain ds (u.portDecimal ds hport).2
      (47 :: u.path) (.inr rfl)
    rw [if_neg (by simp)] at hparse
    exact hparse

/-- The parts that `urlParse` gives. -/
theorem parsed_iff :
    (∃ v, urlParse gethostbyname u.text = some v ∧ v.server = some u.server ∧
      v.port.map digitsValue = some (portNumber u.port) ∧ v.localUrl = 47 :: u.path) ↔
      gethostbyname u.server = none ∨ u.server.map asciiLower = u.server := by
  have hport : digitsValue (u.port.getD (bytes "80")) = portNumber u.port := by
    cases u.port with
    | none => decide
    | some ds => rfl
  rw [urlParse_text, urlCanonical]
  dsimp only
  constructor
  · rintro ⟨v, hv, hserver, -, -⟩
    rw [← Option.some.inj hv] at hserver
    cases hhost : gethostbyname u.server with
    | none => exact .inl rfl
    | some name =>
      rw [hhost] at hserver
      exact .inr (Option.some.inj hserver)
  · intro h
    refine ⟨_, rfl, ?_⟩
    cases hhost : gethostbyname u.server with
    | none => exact ⟨rfl, congrArg some hport, rfl⟩
    | some name =>
      have hlower := h.resolve_left (by simp [hhost])
      exact ⟨congrArg some hlower, congrArg some hport, rfl⟩

/-- When the two find the parts of a url. -/
theorem splitAlike_iff : u.SplitAlike gethostbyname ↔
    (u.port = none → 58 ∉ u.path) ∧ portNumber u.port < 2147483648 ∧
      (gethostbyname u.server = none ∨ u.server.map asciiLower = u.server) := by
  constructor
  · rintro ⟨-, hserver, hport, -, hparsed⟩
    refine ⟨fun hnone hcolon => server_ne_of_colon hnone hcolon hserver, ?_, parsed_iff.mp hparsed⟩
    cases hp : u.port with
    | none => decide
    | some ds =>
      rw [urlscan_port hp] at hport
      rw [← hp]
      dsimp only at hport
      split at hport <;> omega
  · rintro ⟨hcolon, hport, hparsed⟩
    cases hp : u.port with
    | none =>
      have hscan := urlscan_noPort hp
      rw [if_pos (hcolon hp)] at hscan
      exact ⟨by rw [hscan], by rw [hscan], by rw [hscan, hp]; rfl, by rw [hscan],
        parsed_iff.mpr hparsed⟩
    | some ds =>
      have hscan := urlscan_port hp
      refine ⟨by rw [hscan], by rw [hscan], ?_, by rw [hscan], parsed_iff.mpr hparsed⟩
      rw [hscan]
      dsimp only
      rw [if_neg (by omega)]
      omega

/-- What `clean_url` makes of a url that is split well. -/
theorem cleanUrl_text (h : u.SplitAlike gethostbyname) :
    cleanUrl u.text = (cleanPath u.path).map fun path =>
      (1, bytes "http://" ++ u.server ++
        (match cleanPort u.port with | some ds => 58 :: ds | none => []) ++ path) := by
  have hmethod : strcasecmpEq (bytes "http") (bytes "http") = true := strcasecmpEq_iff.mpr rfl
  have hhttp : bytes "http" ++ bytes "://" = bytes "http://" := by decide +kernel
  have hport : (if (urlscan u.text).port = -1 ∨ (urlscan u.text).port = 80 then []
      else 58 :: printSInt (urlscan u.text).port) =
      match cleanPort u.port with | some ds => 58 :: ds | none => [] := by
    have hp := h.port
    by_cases hnone : (urlscan u.text).port = -1
    · rw [if_pos hnone] at hp
      rw [if_pos (.inl hnone), cleanPort, if_pos (by omega)]
    · rw [if_neg hnone] at hp
      by_cases h80 : portNumber u.port = 80
      · rw [if_pos (.inr (by omega)), cleanPort, if_pos h80]
      · rw [if_neg (by omega), cleanPort, if_neg h80, hp, printSInt, if_neg (by omega),
          Int.natAbs_natCast]
  rw [cleanUrl, h.method, hmethod, if_neg (by decide), h.server, h.path, hport, hhttp]

/-- So it is the path that decides. -/
theorem cleanUrl_iff (h : u.SplitAlike gethostbyname) :
    cleanUrl u.text = some (1, u.cleaned.text) ↔
      cleanPath u.path = some (47 :: removeDots u.path) := by
  have htext : u.cleaned.text = bytes "http://" ++ u.server ++
      (match cleanPort u.port with | some ds => 58 :: ds | none => []) ++ 47 :: removeDots u.path := rfl
  rw [cleanUrl_text h, htext]
  cases cleanPath u.path with
  | none => simp
  | some path => simp only [Option.map_some, Option.some.injEq, Prod.mk.injEq, true_and,
      List.append_cancel_left_eq]

theorem portNumber_cleanPort (port : Option (List UInt8)) :
    portNumber (cleanPort port) = portNumber port := by
  rw [cleanPort]
  split
  next h => rw [h]; rfl
  next => exact digitsValue_printULong _

/-- There is nothing left to clean. -/
theorem cleaned_cleaned : u.cleaned.cleaned.text = u.cleaned.text := by
  show urlText u.server (cleanPort (cleanPort u.port)) (removeDots (removeDots u.path)) =
    urlText u.server (cleanPort u.port) (removeDots u.path)
  rw [removeDots_removeDots, cleanPort, portNumber_cleanPort, ← cleanPort]

theorem cleanUrl_cleaned_iff (h : u.cleaned.SplitAlike gethostbyname) :
    cleanUrl u.cleaned.text = some (1, u.cleaned.text) ↔
      cleanPath (removeDots u.path) = some (47 :: removeDots u.path) := by
  have hagain := cleanUrl_iff h
  rw [cleaned_cleaned] at hagain
  rw [hagain]
  show cleanPath (removeDots u.path) = some (47 :: removeDots (removeDots u.path)) ↔ _
  rw [removeDots_removeDots]

end HttpUrl

/-- `http://s/a/../b`. -/
def upToRoot : HttpUrl where
  server := bytes "s"
  port := none
  path := bytes "a/../b"
  serverPlain := by decide
  portDecimal := by simp
  pathFilled := by decide

/-- The urls that are cleaned. -/
theorem cleansRight_iff (gethostbyname : List UInt8 → Option (List UInt8)) (u : HttpUrl) :
    u.CleansRight gethostbyname ↔ u.Cleanable gethostbyname := by
  constructor
  · rintro ⟨hsplit, hclean, hsplitAgain, hcleanAgain⟩
    rw [HttpUrl.cleanUrl_iff hsplit] at hclean
    rw [HttpUrl.cleanUrl_cleaned_iff hsplitAgain] at hcleanAgain
    obtain ⟨hcolon, hport, hserver⟩ := HttpUrl.splitAlike_iff.mp hsplit
    obtain ⟨hcolonAgain, -, -⟩ := HttpUrl.splitAlike_iff.mp hsplitAgain
    exact ⟨hcolon, hport, hserver, hcolonAgain,
      (cleanPath_iff u.pathFilled).mp ⟨hclean, hcleanAgain⟩⟩
  · rintro ⟨hcolon, hport, hserver, hcolonAgain, hpath⟩
    obtain ⟨hclean, hagain⟩ := (cleanPath_iff u.pathFilled).mpr hpath
    have hsplit : u.SplitAlike gethostbyname := HttpUrl.splitAlike_iff.mpr ⟨hcolon, hport, hserver⟩
    have hsplitAgain : u.cleaned.SplitAlike gethostbyname :=
      HttpUrl.splitAlike_iff.mpr
        ⟨hcolonAgain, by rw [← HttpUrl.portNumber_cleanPort] at hport; exact hport, hserver⟩
    exact ⟨hsplit, (HttpUrl.cleanUrl_iff hsplit).mpr hclean, hsplitAgain,
      (HttpUrl.cleanUrl_cleaned_iff hsplitAgain).mpr hagain⟩

/-- The segment before the dots is kept where it is the first one and has one character. -/
theorem not_cleansRight : ¬∀ gethostbyname u, HttpUrl.CleansRight u gethostbyname := by
  intro h
  have hclean := (h (fun _ => none) upToRoot).clean
  have hgives : cleanUrl upToRoot.text = some (1, bytes "http://s/a/b") := by decide +kernel
  rw [hgives] at hclean
  exact absurd hclean (by decide)

end Archie
