/-
The urls of the gateway: how the name of a Prospero link becomes part of a request line
(`ppc/ferretd/url.c`, `vlink_to_epath` of `ppc/lib/epath.c`), and how it is taken out of it
again (`ppc/ferretd/request.c`, `epath_split` of `ppc/lib/epath.c`).

* `wwwSafe`, `vlinkToEpath`, `vlinkToUrl` — from a link to an url.
* `splitwhite`, `checkForArg`, `parseMethod` — the request line.
* `epathSplit` — the name in a path.
* `gatewayUrl_restored` — the way there and back.
-/
import Archie.Quoting

namespace Archie

/-! ### From a link to an url -/

/-- `VLINK`, as far as an url is made of it. -/
structure Vlink where
  hosttype : List UInt8
  host : List UInt8
  hsonametype : List UInt8
  hsoname : List UInt8
  deriving DecidableEq, Repr

/-- `www_safe`. -/
def wwwSafe : List UInt8 :=
  [0, 0, 0, 0, 0, 0, 0, 0, 0, 0, 0, 0, 0, 0, 0, 0,
    0, 0, 0, 0, 0, 0, 0, 0, 0, 0, 0, 0, 0, 0, 0, 0,
    0, 1, 0, 0, 1, 0, 0, 1, 1, 1, 1, 0, 1, 1, 1, 1,
    1, 1, 1, 1, 1, 1, 1, 1, 1, 1, 1, 1, 0, 0, 0, 0,
    1, 1, 1, 1, 1, 1, 1, 1, 1, 1, 1, 1, 1, 1, 1, 1,
    1, 1, 1, 1, 1, 1, 1, 1, 1, 1, 1, 0, 0, 0, 0, 1,
    0, 1, 1, 1, 1, 1, 1, 1, 1, 1, 1, 1, 1, 1, 1, 1,
    1, 1, 1, 1, 1, 1, 1, 1, 1, 1, 1, 0, 0, 0, 0, 0,
    0, 0, 0, 0, 0, 0, 0, 0, 0, 0, 0, 0, 0, 0, 0, 0,
    0, 0, 0, 0, 0, 0, 0, 0, 0, 0, 0, 0, 0, 0, 0, 0,
    0, 0, 0, 0, 0, 0, 0, 0, 0, 0, 0, 0, 0, 0, 0, 0,
    0, 0, 0, 0, 0, 0, 0, 0, 0, 0, 0, 0, 0, 0, 0, 0,
    0, 0, 0, 0, 0, 0, 0, 0, 0, 0, 0, 0, 0, 0, 0, 0,
    0, 0, 0, 0, 0, 0, 0, 0, 0, 0, 0, 0, 0, 0, 0, 0,
    0, 0, 0, 0, 0, 0, 0, 0, 0, 0, 0, 0, 0, 0, 0, 0,
    0, 0, 0, 0, 0, 0, 0, 0, 0, 0, 0, 0, 0, 0, 0, 0]

/-- A character that need not be quoted. -/
def isWwwSafe (c : UInt8) : Bool := wwwSafe.getD c.toNat 0 != 0

/-- `vlink_to_epath`. -/
def vlinkToEpath (v : Vlink) : List UInt8 :=
  let t := if v.hosttype = bytes "INTERNET-D" ∧ v.hsonametype = bytes "ASCII" then []
    else v.hosttype ++ bytes "/" ++ v.hsonametype
  v.host ++ bytes ":" ++ t ++ bytes ":/" ++ v.hsoname

/-- `vlink_to_url`. -/
def vlinkToUrl (v : Vlink) : List UInt8 := quoteString (vlinkToEpath v) isWwwSafe

/-! ### The request line -/

/-- The values of `methods`. -/
inductive HttpMethod
  | checkin
  | checkout
  | get
  | head
  | post
  | put
  | reply
  | showmethod
  | spacejump
  | textsearch
  | fail
  deriving DecidableEq, Repr

/-- `methods`. -/
def methods : List (List UInt8 × HttpMethod) :=
  [(bytes "CHECKIN", .checkin), (bytes "CHECKOUT", .checkout), (bytes "GET", .get), (bytes "HEAD", .head),
    (bytes "POST", .post), (bytes "PUT", .put), (bytes "REPLY", .reply), (bytes "SHOWMETHOD", .showmethod),
    (bytes "SPACEJUMP", .spacejump), (bytes "TEXTSEARCH", .textsearch)]

/-- `sval`, which ends with `HTTP_FAIL`. -/
def svalMethod (p : List UInt8) : HttpMethod := (methods.lookup p).getD .fail

/-- `enum Status`, as far as `parse_method` sets it. -/
inductive HerrStatus
  | ok
  | badReq
  deriving DecidableEq, Repr

/-- The request part of `Request`, as far as `parse_method` sets it. -/
structure Request where
  mstr : Option (List UInt8)
  arg : Option (List UInt8)
  epath : Option (List UInt8)
  version : Option (List UInt8)
  method : HttpMethod
  errno : HerrStatus
  deriving DecidableEq, Repr

/-- `WHITESPACE`. -/
def isWhite (c : UInt8) : Bool := c == 32 || c == 9

/-- The loop of `splitwhite`, which ends at an empty word. -/
def splitwhiteLoop : ℕ → List UInt8 → List (List UInt8)
  | 0, _ => []
  | fuel + 1, s =>
    let s := s.dropWhile isWhite
    let word := s.takeWhile fun c => !isWhite c
    if word = [] then [] else word :: splitwhiteLoop fuel (s.drop word.length)

/-- `splitwhite`. -/
def splitwhite (src : List UInt8) : List (List UInt8) := splitwhiteLoop (src.length + 1) src

/-- `TERM_CHARS`. -/
def isTermChar (c : UInt8) : Bool := c == 38 || c == 63

/-- `url_dequote`. -/
def urlDequote (s : List UInt8) : Option (List UInt8) := dequoteString s

/-- `check_for_arg`. -/
def checkForArg (req : Request) (epath : List UInt8) : Request :=
  match epath.dropWhile fun c => !isTermChar c with
  | [] => { req with epath := some epath }
  | _ :: arg =>
    { req with
      arg := urlDequote (arg.map fun c => if c = 43 then 32 else c)
      epath := some (epath.takeWhile fun c => !isTermChar c) }

/-- `accepted_version`. -/
def acceptedVersion (s : List UInt8) : Bool := s == bytes "HTTP/1.0"

/-- `parse_method`: what it returns, and the request. -/
def parseMethod (line : List UInt8) (req : Request) : HttpMethod × Request :=
  let req := { req with errno := .ok }
  match splitwhite line with
  | [mstr, epath] =>
    if svalMethod mstr ≠ .get then (.fail, { req with errno := .badReq, method := .fail })
    else (.get, { checkForArg { req with mstr := some mstr } epath with method := .get })
  | [mstr, epath, version] =>
    let req := { checkForArg { req with mstr := some mstr } epath with version := some version }
    if !acceptedVersion version then (.fail, { req with errno := .badReq, method := .fail })
    else (svalMethod mstr, { req with method := svalMethod mstr })
  | _ => (.fail, { req with errno := .badReq, method := .fail })

/-! ### The name in a path -/

/-- `epath_split`: host, type and path. -/
def epathSplit (epath : List UInt8) : Option (List UInt8 × List UInt8 × List UInt8) := do
  let (h, t, start) ←
    match epath.dropWhile (· ≠ 58) with
    | [] => some ([], [], epath)
    | _ :: rest =>
      let upto := epath.takeWhile (· ≠ 58)
      let h := if epath.head? = some 47 then upto.drop 1 else upto
      match rest.dropWhile (· ≠ 58) with
      | [] => none
      | _ :: start => some (h, rest.takeWhile (· ≠ 58), start)
  let p :=
    if start = [] ∨ start = bytes "/" then bytes "."
    else
      let p := if start.head? = some 47 then start.drop 1 else start
      if p.getLast? = some 47 ∧ p.length ≠ 1 then p.dropLast else p
  some (h, t, p)

/-! ### The request line of an url -/

/-- A character of an url neither separates words nor begins an argument. -/
theorem of_mem_quoteLoop {s : List UInt8} {c : UInt8} (h : c ∈ quoteLoop isWwwSafe s) :
    isWhite c = false ∧ isTermChar c = false := by
  have hall : ∀ c, isWwwSafe c = true ∨ c = 37 ∨ isHex c = true → isWhite c = false ∧
      isTermChar c = false := by
    intro c
    refine forall_uint8 (P := fun c => isWwwSafe c = true ∨ c = 37 ∨ isHex c = true →
      isWhite c = false ∧ isTermChar c = false) ?_ c
    decide +kernel
  exact hall c (mem_quoteLoop h)

theorem splitwhiteLoop_white {c : UInt8} (hc : isWhite c = true) {fuel : ℕ} (s : List UInt8) :
    splitwhiteLoop fuel (c :: s) = splitwhiteLoop fuel s := by
  cases fuel with
  | zero => rfl
  | succ fuel => rw [splitwhiteLoop, splitwhiteLoop, List.dropWhile_cons_of_pos hc]

/-- A word is split off. -/
theorem splitwhiteLoop_word {w : List UInt8} (hne : w ≠ []) (hw : ∀ c ∈ w, isWhite c = false)
    {rest : List UInt8}
    (hrest : ∀ c ∈ rest.head?, isWhite c = true) (fuel : ℕ) :
    splitwhiteLoop (fuel + 1) (w ++ rest) = w :: splitwhiteLoop fuel rest := by
  obtain ⟨c, v, rfl⟩ := List.exists_cons_of_ne_nil hne
  have hdrop : (c :: v ++ rest).dropWhile isWhite = c :: v ++ rest := by
    rw [List.cons_append, List.dropWhile_cons_of_neg]
    rw [hw c List.mem_cons_self]
    exact Bool.false_ne_true
  have htake : (c :: v ++ rest).takeWhile (fun c => !isWhite c) = c :: v := by
    rw [List.takeWhile_append_of_pos fun d hd => by rw [hw d hd]; rfl]
    cases rest with
    | nil => rw [List.takeWhile_nil, List.append_nil]
    | cons d rest =>
      rw [List.takeWhile_cons_of_neg, List.append_nil]
      rw [hrest d rfl]
      exact Bool.false_ne_true
  rw [splitwhiteLoop, hdrop, htake, if_neg hne, List.drop_left]

/-- Three words with a blank between them. -/
theorem splitwhite_three {u v w : List UInt8} (hu : u ≠ [] ∧ ∀ c ∈ u, isWhite c = false)
    (hv : v ≠ [] ∧ ∀ c ∈ v, isWhite c = false) (hw : w ≠ [] ∧ ∀ c ∈ w, isWhite c = false) :
    splitwhite (u ++ 32 :: (v ++ 32 :: w)) = [u, v, w] := by
  have hblank : ∀ s : List UInt8, ∀ c ∈ (32 :: s).head?, isWhite c = true := by
    intro s c hc
    obtain rfl := Option.some.inj hc
    rfl
  have hlen : (u ++ 32 :: (v ++ 32 :: w)).length + 1 =
      (u.length + v.length + w.length) + 1 + 1 + 1 := by
    simp only [List.length_append, List.length_cons]
    omega
  have hlast : splitwhiteLoop (u.length + v.length + w.length + 1) w = [w] := by
    have hword := @splitwhiteLoop_word w hw.1 hw.2 [] (by simp) (u.length + v.length + w.length)
    rw [List.append_nil] at hword
    rw [hword]
    cases u.length + v.length + w.length <;> rfl
  rw [splitwhite, hlen, splitwhiteLoop_word hu.1 hu.2 (hblank _), splitwhiteLoop_white rfl,
    splitwhiteLoop_word hv.1 hv.2 (hblank _), splitwhiteLoop_white rfl, hlast]

/-- Without a character that begins an argument nothing is split off. -/
theorem checkForArg_of_forall {epath : List UInt8} (h : ∀ c ∈ epath, isTermChar c = false)
    (req : Request) :
    checkForArg req epath = { req with epath := some epath } := by
  have hdrop : epath.dropWhile (fun c => !isTermChar c) = [] := by
    rw [List.dropWhile_eq_nil_iff]
    intro c hc
    rw [h c hc]
    rfl
  rw [checkForArg, hdrop]

/-- The path of a link with its parts. -/
theorem epathSplit_epath {host name : List UInt8} (hhost : host ≠ [] ∧ 58 ∉ host)
    (hname : name ≠ [] ∧ (name = [47] ∨ name.getLast? ≠ some 47)) :
    epathSplit (47 :: (host ++ 58 :: 58 :: 47 :: name)) = some (host, [], name) := by
  have hbefore : ∀ c ∈ 47 :: host, decide (c ≠ 58) = true := by
    intro c hc
    rw [decide_eq_true_iff]
    rintro rfl
    rcases List.mem_cons.mp hc with h | h
    · exact absurd h (by decide)
    · exact hhost.2 h
  have hdrop : (47 :: (host ++ 58 :: 58 :: 47 :: name)).dropWhile (fun c => decide (c ≠ 58)) =
      58 :: 58 :: 47 :: name := by
    rw [← List.cons_append, List.dropWhile_append_of_pos hbefore,
      List.dropWhile_cons_of_neg (by simp)]
  have htake : (47 :: (host ++ 58 :: 58 :: 47 :: name)).takeWhile (fun c => decide (c ≠ 58)) =
      47 :: host := by
    rw [← List.cons_append, List.takeWhile_append_of_pos hbefore,
      List.takeWhile_cons_of_neg (by simp),
      List.append_nil]
  have hslash : ¬ (47 :: name = [] ∨ 47 :: name = bytes "/") := by
    rintro (h | h)
    · exact List.cons_ne_nil _ _ h
    · exact hname.1 (List.cons.inj h).2
  -- Only a name that is a single slash ends in one.
  have hlast : ¬ (name.getLast? = some 47 ∧ name.length ≠ 1) := by
    rintro ⟨hlast, hlen⟩
    rcases hname.2 with rfl | hnot
    · exact hlen rfl
    · exact hnot hlast
  rw [epathSplit, hdrop, htake]
  show some (host, [], if 47 :: name = [] ∨ 47 :: name = bytes "/" then bytes "." else
    if name.getLast? = some 47 ∧ name.length ≠ 1 then name.dropLast else name) = _
  rw [if_neg hslash, if_neg hlast]

/-- A link of the usual kind with a name that an url can carry. -/
structure Vlink.Plain (v : Vlink) : Prop where
  hosttype : v.hosttype = bytes "INTERNET-D"
  hsonametype : v.hsonametype = bytes "ASCII"
  host : v.host ≠ [] ∧ 0 ∉ v.host ∧ 58 ∉ v.host ∧ 47 ∉ v.host
  hsoname : v.hsoname ≠ [] ∧ 0 ∉ v.hsoname
  slash : v.hsoname = bytes "/" ∨ v.hsoname.getLast? ≠ some 47

/-- **Gateway urls.** -/
theorem gatewayUrl_restored {v : Vlink} (hv : v.Plain) (req : Request) :
    ∃ req' epath, parseMethod (bytes "GET /" ++ vlinkToUrl v ++ bytes " HTTP/1.0") req = (.get, req') ∧
      req'.errno = .ok ∧ req'.arg = req.arg ∧ req'.epath = some (bytes "/" ++ vlinkToUrl v) ∧
      dequoteString (bytes "/" ++ vlinkToUrl v) = some epath ∧
      epathSplit epath = some (v.host, [], v.hsoname) := by
  have hepath : vlinkToEpath v = v.host ++ 58 :: 58 :: 47 :: v.hsoname := by
    rw [vlinkToEpath, if_pos ⟨hv.hosttype, hv.hsonametype⟩]
    simp [bytes]
  have hurl : vlinkToUrl v = quoteLoop isWwwSafe
      (vlinkToEpath v) := by rw [vlinkToUrl, quoteString_eq]
  have hzero : 0 ∉ vlinkToEpath v := by
    rw [hepath]
    intro h
    rcases List.mem_append.mp h with h | h
    · exact hv.host.2.1 h
    · exact hv.hsoname.2 (by simpa using h)
  have hpath : ∀ c ∈ 47 :: vlinkToUrl v, isWhite c = false ∧ isTermChar c = false := by
    intro c hc
    rcases List.mem_cons.mp hc with rfl | hc
    · exact ⟨rfl, rfl⟩
    · exact of_mem_quoteLoop (hurl ▸ hc)
  have hline : bytes "GET /" ++ vlinkToUrl v ++ bytes " HTTP/1.0" =
      bytes "GET" ++ 32 :: ((47 :: vlinkToUrl v) ++ 32 :: bytes "HTTP/1.0") := by
    simp [bytes]
  have hsplit : splitwhite (bytes "GET /" ++ vlinkToUrl v ++ bytes " HTTP/1.0") =
      [bytes "GET", 47 :: vlinkToUrl v, bytes "HTTP/1.0"] := by
    rw [hline]
    exact splitwhite_three
      (by decide +kernel) ⟨List.cons_ne_nil _ _, fun c hc => (hpath c hc).1⟩ (by decide +kernel)
  refine ⟨⟨some (bytes "GET"), req.arg, some (47 :: vlinkToUrl v), some (bytes "HTTP/1.0"), .get, .ok⟩,
    47 :: vlinkToEpath v, ?_, ?_, ?_, ?_, ?_, ?_⟩
  case refine_1 =>
    rw [parseMethod, hsplit]
    dsimp only
    rw [checkForArg_of_forall fun c hc => (hpath c hc).2, if_neg (by decide)]
    rfl
  case refine_2 => rfl
  case refine_3 => rfl
  case refine_4 => rfl
  case refine_5 =>
    rw [hurl]
    exact dequoteString_quoteLoop (by decide) (by decide) hzero
  case refine_6 =>
    rw [hepath]
    exact epathSplit_epath ⟨hv.host.1, hv.host.2.2.1⟩ ⟨hv.hsoname.1, hv.slash⟩

/-- A link with characters of all kinds in its name. -/
def sampleVlink : Vlink := ⟨bytes "INTERNET-D", bytes "ftp.site", bytes "ASCII", [47, 97, 58, 37, 38, 63, 43, 32, 255]⟩

theorem gatewayUrl_sample : sampleVlink.Plain ∧
    vlinkToUrl sampleVlink = bytes "ftp.site::/" ++ bytes "/a:%25%26%3f%2b%20%ff" ∧
    ∃ req' epath, parseMethod (bytes "GET /" ++ vlinkToUrl sampleVlink ++ bytes " HTTP/1.0")
        ⟨none, none, none, none, .fail, .ok⟩ = (.get, req') ∧
      req'.errno = .ok ∧ req'.arg = none ∧ req'.epath = some (bytes "/" ++ vlinkToUrl sampleVlink) ∧
      dequoteString (bytes "/" ++ vlinkToUrl sampleVlink) = some epath ∧
      epathSplit epath = some (sampleVlink.host, [], sampleVlink.hsoname) := by
  have hplain : sampleVlink.Plain := by
    constructor <;> decide +kernel
  exact ⟨hplain, by decide +kernel, gatewayUrl_restored hplain _⟩

end Archie
