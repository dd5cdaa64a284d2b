/-
The urls of the documents of one server and port, in the site file of their records.

* `ServerFile` — the first records are the server and its heading, whose entry is the port.
* `dirText_placed`, `dirText_displaced` — the way up through that heading, and past it.
* `knownUrl_iff` — when a document has its entry in the table of `init_url_db`.
-/
import Archie.KnownUrls

namespace Archie

namespace UrlDb

section

variable (file : List SiteEntry) (db : StringsDb)

/-- The heading of the name of the server, or of another one. -/
def isNameAt (c : ℕ) : Bool := file[c]?.any fun e => cseIsName e.flags

/-- The path of a record: the names of its directories below the port, and its own. -/
def localPath (i : ℕ) : List UInt8 :=
  if entryOf file (findHeading file i) < i then
    if findHeading file i = 0 ∨ isNameAt file (findHeading file i) = true then []
    else localPath (entryOf file (findHeading file i)) ++ 47 :: nameAt file db i
  else []

/-- The url of a record. -/
def docUrl (server port : List UInt8) (i : ℕ) : List UInt8 :=
  bytes "http://" ++ server ++ 58 :: (port ++ localPath file db i)

/-- The way up from a record comes through the heading of the name of the server. -/
def Placed (i : ℕ) : Prop := ∃ c ∈ headings file (findHeading file i), isNameAt file c = true

/-- The table has one entry for a record: with the url and the retrieve time that it should have. -/
def KnownUrl (gethostbyname : List UInt8 → Option (List UInt8)) (server port : List UInt8)
    (table : List UrlEntry) (i : ℕ) : Prop :=
  ∃ ue, entriesOf table i = [ue] ∧ urlParse gethostbyname (docUrl file db server port i) = some ue.url ∧
    ue.url.curl.isSome = true ∧ ue.date = some (rdateAt file i)

/-- The server is found; the record lies below the name of it; it has keywords, or is no directory that
something lies in; and no record behind it has been given the same url. -/
structure GivenUrl (gethostbyname : List UInt8 → Option (List UInt8)) (server : List UInt8) (i : ℕ) :
    Prop where
  host : ∃ name, gethostbyname server = some name
  placed : Placed file i
  shown : HasKeys file i ∨ ¬Used file db i
  new : ∀ j > i, Shown file db j →
    address file db gethostbyname j ≠ address file db gethostbyname i

end

/-- The site file of a server and a port. -/
structure ServerFile (file : List SiteEntry) (db : StringsDb) (server port : List UInt8) : Prop
    extends LeadsUp file db where
  server : IsEntry file 1 ∧ nameAt file db 1 = server
  host : isNameAt file 2 = true ∧ entryOf file 2 = 1
  onlyHost : ∀ c, isNameAt file c = true → c = 2
  port : ∀ i, IsEntry file i → findHeading file i = 2 → nameAt file db i = port

section

variable {file : List SiteEntry} {db : StringsDb} {gethostbyname : List UInt8 → Option (List UInt8)}
  {server port : List UInt8} {c i : ℕ} {e : SiteEntry}

theorem cseIsParent_of_isName {flags : ℕ} (h : cseIsName flags = true) : cseIsParent flags = true := by
  rw [cseIsParent, h, Bool.or_true]

theorem parent_of_isNameAt (h : isNameAt file c = true) :
    ∃ e, file[c]? = some e ∧ cseIsParent e.flags = true := by
  obtain ⟨e, he, hname⟩ := Option.any_eq_true _ _ |>.mp h
  exact ⟨e, he, cseIsParent_of_isName hname⟩

/-- Behind a record for a directory, none before it is found. -/
theorem le_findHeading (he : file[c]? = some e) (hparent : cseIsParent e.flags = true) (hi : c ≤ i) :
    c ≤ findHeading file i := by
  induction i with
  | zero => omega
  | succ i ih =>
    rw [findHeading]
    split
    · exact hi
    next hnot =>
      refine ih (Nat.lt_succ_iff.mp (lt_of_le_of_ne hi ?_))
      rintro rfl
      rw [he, Option.any_some, hparent] at hnot
      exact hnot rfl

theorem findHeading_of_entry (h : IsEntry file (i + 1)) : findHeading file (i + 1) = findHeading file i := by
  obtain ⟨e, he, hparent, -⟩ := h
  exact findHeading_succ_of_not he hparent

/-- The path of the server, and of the port. -/
theorem localPath_top (h : findHeading file i = 0 ∨ isNameAt file (findHeading file i) = true) :
    localPath file db i = [] := by
  rw [localPath, if_pos h, ite_self]

/-- The path of a record in a directory below the port. -/
theorem localPath_below (hlt : entryOf file (findHeading file i) < i) (hzero : findHeading file i ≠ 0)
    (hname : ¬isNameAt file (findHeading file i) = true) : localPath file db i =
      localPath file db (entryOf file (findHeading file i)) ++ 47 :: nameAt file db i := by
  rw [localPath, if_pos hlt, if_neg (not_or.mpr ⟨hzero, hname⟩)]

theorem dirText_of_lt (h : above file c < c) : dirText file db c = dirText file db (above file c) ++
    if isNameAt file c = true then bytes "http://" ++ nameAt file db (entryOf file c) ++ [58]
      else nameAt file db (entryOf file c) ++ [47] := by
  rw [dirText, if_pos h]
  rfl

theorem dirText_zero (file : List SiteEntry) (db : StringsDb) : dirText file db 0 = [] := by
  rw [dirText, if_neg (Nat.not_lt_zero _)]

namespace ServerFile

/-- Only the server is in the root. -/
theorem entry_of_root (h : ServerFile file db server port) (hi : i ≠ 0)
    (hroot : findHeading file i = 0) : i = 1 := by
  obtain ⟨e, he, hparent⟩ := parent_of_isNameAt h.host.1
  by_contra hne
  have hle := le_findHeading he hparent (i := i) (by omega)
  omega

/-- What is above a record for a directory. -/
theorem step_up (h : ServerFile file db server port) (hc : c ≠ 0) (hfind : findHeading file c = c) :
    entryOf file c ≠ 0 ∧ entryOf file c < c ∧ above file c < c ∧ IsEntry file (entryOf file c) := by
  obtain ⟨e, he, hparent⟩ := @parent_of_findHeading file c (by omega)
  rw [hfind] at he
  obtain ⟨-, -, hne, hlt, habove, hentry⟩ := h.step he hparent hc
  exact ⟨hne, hlt, habove, hentry⟩

/-- The text of the way up through the heading of the name. -/
theorem dirText_placed (h : ServerFile file db server port) (hfind : findHeading file c = c) :
    2 ∈ headings file c → dirText file db c = bytes "http://" ++ server ++ 58 ::
      (if c = 2 then [] else port ++ localPath file db (entryOf file c) ++ [47]) := by
  induction c using Nat.strong_induction_on with
  | _ c ih =>
    intro hmem
    have hc : c ≠ 0 := by
      rintro rfl
      rw [headings_zero] at hmem
      exact absurd hmem List.not_mem_nil
    obtain ⟨hne, hlt, habove, hentry⟩ := h.step_up hc hfind
    rw [headings_of_lt habove, List.mem_cons] at hmem
    rw [dirText_of_lt habove]
    by_cases htwo : c = 2
    · subst htwo
      have hroot : above file 2 = 0 := by
        rw [above, h.host.2, findHeading_of_entry h.server.1]
        rfl
      rw [hroot, dirText_zero, h.host.1, if_pos rfl, if_pos rfl, h.host.2, h.server.2, List.nil_append]
    · have hrest := hmem.resolve_left (Ne.symm htwo)
      have hnot : ¬(isNameAt file c = true) := fun hname => htwo (h.onlyHost c hname)
      have hup := ih (above file c) habove (findHeading_findHeading file _) hrest
      have habove0 : above file c ≠ 0 := by
        intro hzero
        rw [hzero, headings_zero] at hrest
        exact absurd hrest List.not_mem_nil
      obtain ⟨-, hlt', -, -⟩ := h.step_up habove0 (findHeading_findHeading file _)
      have hle : above file c ≤ entryOf file c := findHeading_le file _
      rw [hup, if_neg hnot, if_neg htwo]
      by_cases htwo' : above file c = 2
      · -- the entry is the port
        have hpath : localPath file db (entryOf file c) = [] :=
          localPath_top (.inr (by rw [← above, htwo']; exact h.host.1))
        rw [if_pos htwo', hpath, h.port _ hentry htwo']
        simp
      · have hname : ¬(isNameAt file (above file c) = true) := fun hname =>
          htwo' (h.onlyHost _ hname)
        have hpath : localPath file db (entryOf file c) = localPath file db (entryOf file (above file c)) ++
            47 :: nameAt file db (entryOf file c) := localPath_below (hlt'.trans_le hle) habove0 hname
        rw [if_neg htwo', hpath]
        simp

/-- The text of a way up that does not come there. -/
theorem dirText_displaced (h : ServerFile file db server port) (hfind : findHeading file c = c)
    (hc : c ≠ 0) : 2 ∉ headings file c → ∃ rest, dirText file db c = server ++ 47 :: rest := by
  induction c using Nat.strong_induction_on with
  | _ c ih =>
    intro hmem
    obtain ⟨hne, hlt, habove, hentry⟩ := h.step_up hc hfind
    rw [headings_of_lt habove, List.mem_cons, not_or] at hmem
    have hnot : ¬(isNameAt file c = true) := fun hname => hmem.1 (h.onlyHost c hname).symm
    rw [dirText_of_lt habove, if_neg hnot]
    by_cases hzero : above file c = 0
    · have hone := h.entry_of_root hne hzero
      refine ⟨[], ?_⟩
      rw [hzero, hone, dirText_zero, h.server.2, List.nil_append]
    · obtain ⟨rest, hrest⟩ := ih _ habove (findHeading_findHeading file _) hzero hmem.2
      exact ⟨rest ++ (nameAt file db (entryOf file c) ++ [47]), by rw [hrest]; simp⟩

theorem placed_iff (h : ServerFile file db server port) :
    Placed file i ↔ 2 ∈ headings file (findHeading file i) := by
  constructor
  · rintro ⟨c, hc, hname⟩
    exact h.onlyHost c hname ▸ hc
  · exact fun hmem => ⟨2, hmem, h.host.1⟩

/-- The url that is made of a placed record is its own. -/
theorem recordUrl_placed (h : ServerFile file db server port) (hentry : IsEntry file i)
    (hplaced : Placed file i) : recordUrl file db i = docUrl file db server port i := by
  have hmem := h.placed_iff.mp hplaced
  have hzero : findHeading file i ≠ 0 := by
    intro hzero
    rw [hzero, headings_zero] at hmem
    exact absurd hmem List.not_mem_nil
  obtain ⟨-, hlt, -, -⟩ := h.step_up hzero (findHeading_findHeading file i)
  have hle := findHeading_le file i
  rw [recordUrl, h.dirText_placed (findHeading_findHeading file i) hmem, docUrl]
  by_cases htwo : findHeading file i = 2
  · rw [if_pos htwo, h.port i hentry htwo, localPath_top (.inr (by rw [htwo]; exact h.host.1))]
    simp
  · have hname : ¬(isNameAt file (findHeading file i) = true) := fun hname =>
      htwo (h.onlyHost _ hname)
    rw [if_neg htwo, localPath_below (hlt.trans_le hle) hzero hname]
    simp

/-- A record that is not placed gets the name of the server as the start of a path. -/
theorem recordUrl_displaced (h : ServerFile file db server port) (hi : i ≠ 0)
    (hplaced : ¬Placed file i) :
    ∃ rest, (rest = [] ∨ rest.head? = some 47) ∧ recordUrl file db i = server ++ rest := by
  rw [h.placed_iff] at hplaced
  rw [recordUrl]
  by_cases hzero : findHeading file i = 0
  · have hone := h.entry_of_root hi hzero
    refine ⟨[], .inl rfl, ?_⟩
    rw [hzero, dirText_zero, hone, h.server.2, List.nil_append, List.append_nil]
  · obtain ⟨rest, hrest⟩ := h.dirText_displaced (findHeading_findHeading file i) hzero hplaced
    exact ⟨47 :: (rest ++ nameAt file db i), .inr rfl, by rw [hrest]; simp⟩

end ServerFile

/-! ### The entries of the table -/

/-- The local part of an url. -/
def localUrl (path : List UInt8) : List UInt8 := if path = [] then [47] else path

theorem localPath_head (file : List SiteEntry) (db : StringsDb) (i : ℕ) :
    localPath file db i = [] ∨ (localPath file db i).head? = some 47 := by
  induction i using Nat.strong_induction_on with
  | _ i ih =>
    rw [localPath]
    split
    next hlt =>
      split
      · exact .inl rfl
      · rcases ih _ hlt with hnil | hhead
        · rw [hnil]
          exact .inr rfl
        · rw [List.head?_append, hhead]
          exact .inr rfl
    · exact .inl rfl

/-- The parts of the url of a record. -/
theorem urlParse_docUrl (hserver : 58 ∉ server ∧ 47 ∉ server) (hport : ∀ c ∈ port, isDigit c = true) :
    urlParse gethostbyname (docUrl file db server port i) = some (urlCanonical gethostbyname
      ⟨some server, some port, localUrl (localPath file db i), none⟩) := by
  have hhttp : bytes "http://" = bytes "http" ++ [58, 47, 47] := by decide +kernel
  have hparse := @urlParse_port gethostbyname server hserver port hport (localPath file db i)
    (localPath_head file db i)
  rw [docUrl, hhttp, localUrl, ← hparse]
  congr 1

/-- It is canonical if the server is found. -/
theorem urlCanonical_isSome (port : Option (List UInt8)) (path : List UInt8) :
    (urlCanonical gethostbyname ⟨some server, port, path, none⟩).curl.isSome = true ↔
      ∃ name, gethostbyname server = some name := by
  rw [urlCanonical]
  dsimp only
  cases gethostbyname server with
  | none => simp
  | some name => simp

/-- The name of the server, as the start of a path, is no url. -/
theorem address_displaced (hserver : 58 ∉ server ∧ 47 ∉ server) {rest : List UInt8}
    (hrest : rest = [] ∨ rest.head? = some 47) :
    ((urlParse gethostbyname (server ++ rest)).bind fun u => u.curl) = none := by
  have hall : ∀ c ∈ server, decide (c ≠ 58) = true := fun c hc =>
    decide_eq_true fun h => hserver.1 (h ▸ hc)
  rw [urlParse]
  dsimp only
  split
  · rfl
  next hcolon =>
    -- the text before the colon has a slash in it
    rw [if_pos]
    · rfl
    refine .inl ?_
    rcases hrest with rfl | hhead
    · rw [List.append_nil, List.dropWhile_eq_nil_iff.mpr hall] at hcolon
      exact absurd rfl hcolon
    · obtain ⟨rest, rfl⟩ : ∃ tail, rest = 47 :: tail := by
        cases rest with
        | nil => simp at hhead
        | cons c tail => exact ⟨tail, by rw [Option.some.inj hhead]⟩
      rw [strncasecmpEq, ← Bool.not_eq_true, strcasecmpEq_iff]
      intro heq
      have hprefix := List.takeWhile_prefix (· ≠ 58) (l := server ++ 47 :: rest)
      rw [← List.prefix_iff_eq_take.mp hprefix] at heq
      have hslash : 47 ∈ ((server ++ 47 :: rest).takeWhile (· ≠ 58)).map asciiLower := by
        rw [List.takeWhile_append_of_pos hall, List.takeWhile_cons_of_pos (by decide)]
        exact List.mem_map.mpr ⟨47, by simp, by decide⟩
      rw [heq] at hslash
      obtain ⟨c, hc, hlower⟩ := List.mem_map.mp hslash
      have hno : ∀ c ∈ bytes "http", asciiLower c ≠ 47 := by decide +kernel
      exact hno c (List.mem_of_mem_take hc) hlower

namespace ServerFile

/-- A record whose url is stored is placed. -/
theorem placed_of_stored (h : ServerFile file db server port) (hserver : 58 ∉ server ∧ 47 ∉ server)
    (hi : i ≠ 0) (hstored : Stored file db gethostbyname i) : Placed file i := by
  by_contra hnot
  obtain ⟨-, curl, hcurl, -⟩ := hstored
  obtain ⟨rest, hrest, hurl⟩ := h.recordUrl_displaced hi hnot
  rw [address, hurl, address_displaced hserver hrest] at hcurl
  exact absurd hcurl (by simp)

theorem hasText_of_entry (h : ServerFile file db server port) (hentry : IsEntry file i) :
    HasText file db i := by
  obtain ⟨e, he, hparent, hkey⟩ := hentry
  obtain ⟨name, hname⟩ := h.string i e he hparent hkey
  exact ⟨e, he, hkey, by rw [hname]; rfl⟩

/-- A record is stored, as it should be, exactly when these hold. -/
theorem stored_iff (h : ServerFile file db server port) (hserver : 58 ∉ server ∧ 47 ∉ server)
    (hport : ∀ c ∈ port, isDigit c = true) (hi : i ≠ 0) (hentry : IsEntry file i) :
    Stored file db gethostbyname i ↔ GivenUrl file db gethostbyname server i := by
  have haddress : Placed file i → address file db gethostbyname i = (urlCanonical gethostbyname
      ⟨some server, some port, localUrl (localPath file db i), none⟩).curl := by
    intro hplaced
    rw [address, h.recordUrl_placed hentry hplaced, urlParse_docUrl hserver hport, Option.bind_some]
  constructor
  · intro hstored
    have hplaced := h.placed_of_stored hserver hi hstored
    obtain ⟨⟨-, hor⟩, curl, hcurl, hnew⟩ := hstored
    refine ⟨?_, hplaced, hor, fun j hj hshown => by rw [hcurl]; exact hnew j hj hshown⟩
    rw [haddress hplaced] at hcurl
    exact (urlCanonical_isSome _ _).mp (by rw [hcurl]; rfl)
  · rintro ⟨hhost, hplaced, hor, hnew⟩
    obtain ⟨curl, hcurl⟩ := Option.isSome_iff_exists.mp
      ((urlCanonical_isSome (some port) (localUrl (localPath file db i))).mpr hhost)
    rw [← haddress hplaced] at hcurl
    exact ⟨⟨h.hasText_of_entry hentry, hor⟩, curl, hcurl, fun j hj hshown => hcurl ▸ hnew j hj hshown⟩

/-- **Which documents are known.** -/
theorem knownUrl_iff (h : ServerFile file db server port) (hserver : 58 ∉ server ∧ 47 ∉ server)
    (hport : ∀ c ∈ port, isDigit c = true) (hi : i ≠ 0) (hentry : IsEntry file i)
    (path : List UInt8) :
    (∃ table, initUrlDb gethostbyname server port path (some (file, db)) = some table ∧
      KnownUrl file db gethostbyname server port table i) ↔
    (∀ j, Fits file db j) ∧ GivenUrl file db gethostbyname server i := by
  have hinit := @initUrlDb_leadsUp file db gethostbyname h.toLeadsUp server port path
  rw [← h.stored_iff hserver hport hi hentry]
  constructor
  · rintro ⟨table, htable, ue, hentries, -⟩
    have hfits : ∀ j, Fits file db j := by
      by_contra hnot
      rw [hinit.2 hnot] at htable
      exact absurd htable (by simp)
    obtain ⟨table', htable', hof⟩ := hinit.1 hfits
    rw [htable, Option.some.injEq] at htable'
    refine ⟨hfits, by_contra fun hnot => ?_⟩
    rw [htable', hof.notStored i hnot] at hentries
    exact absurd hentries (List.cons_ne_nil _ _).symm
  · rintro ⟨hfits, hstored⟩
    obtain ⟨table, htable, hof⟩ := hinit.1 hfits
    obtain ⟨ue, hue, hentries⟩ := hof.stored i hstored
    have hplaced := h.placed_of_stored hserver hi hstored
    have hhost := ((h.stored_iff hserver hport hi hentry).mp hstored).host
    rw [recordEntry, h.recordUrl_placed hentry hplaced, urlParse_docUrl hserver hport, Option.map_some,
      Option.some.injEq] at hue
    refine ⟨table, htable, ue, hentries, ?_, ?_, ?_⟩
    · rw [urlParse_docUrl hserver hport, ← hue]
    · rw [← hue]
      exact (urlCanonical_isSome _ _).mpr hhost
    · rw [← hue]

end ServerFile

end

end UrlDb

end Archie
