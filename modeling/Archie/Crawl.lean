/-
The loop of the retriever over the urls of a site (`webindex/retrieve/do_retrieve.c`:
`do_retrieve`), with the links of a document (`parse.c`: `find_urls`), the functions on an url
(`url.c`) and the tables (`urldb.c`).

An url is asked for with `HEAD`, then with `GET`.  What the server answers is anything: an answer
comes with each round.

* `findUrls`, `urlClean`, `urlLocal` — the urls that a document leads to.
* `UrlTables`, `storeUrlDb` — the urls of the site, and the others.
* `headAction`, `getAction` — what follows from the head of an answer.
* `crawlRound` — a round of the loop.
-/
import Archie.CrawlFile
import Archie.Robot
import Archie.TagScan
import Archie.UrlDb
import Mathlib.Data.List.DropRight
import Mathlib.Logic.Relation

namespace Archie

/-! ### The links of a document -/

/-- The text after the name of an attribute. -/
def afterName (name : List UInt8) : List UInt8 → List UInt8
  | [] => []
  | c :: s =>
    if strncasecmpEq (c :: s) name name.length then (c :: s).drop name.length else afterName name s

/-- The value of an attribute; `none` where 1 is returned.  Blanks in it are left out, but a space
ends it. -/
def extractAttr (name tag : List UInt8) : Option (List UInt8) :=
  let s := ((afterName name tag).dropWhile (· ≠ 61)).tail.dropWhile isSpace
  match s with
  | [] => none
  | c :: t =>
    let s := if c = 34 then t else c :: t
    if c = 34 ∧ (t = [] ∨ t.head? = some 34) then none
    else some ((s.takeWhile fun d => d ≠ 34 ∧ d ≠ 32 ∧ d ≠ 62).filter fun d => !isSpace d)

/-- `extract_href`. -/
def extractHref (tag : List UInt8) : Option (List UInt8) := extractAttr (bytes "href") tag

/-- `extract_src`. -/
def extractSrc (tag : List UInt8) : Option (List UInt8) := extractAttr (bytes "src") tag

/-- The text of an url in a buffer; `none` for one that does not fit. -/
def buffered (url : List UInt8) : Option (List UInt8) :=
  if url.length < bufferSize then some url else none

section

variable (gethostbyname : List UInt8 → Option (List UInt8))

/-- The url of a path on the server of `base`; `none` for a `base` without one. -/
def composeAt (base : ParsedUrl) (path : List UInt8) : Option (List UInt8) := do
  let server ← base.server
  let port := match base.port with
    | some port => if port = bytes "-1" ∨ port = bytes "80" then [] else 58 :: port
    | none => []
  buffered (bytes "http://" ++ server ++ port ++ path)

/-- `compose_url`; the outer `none` is a crash, the inner one where 0 is returned. -/
def composeUrl (base : ParsedUrl) (href : List UInt8) : Option (Option (List UInt8)) :=
  match urlParse gethostbyname href with
  | none => some none
  | some u =>
    if u.server.isSome then some (some href)
    else if u.localUrl.head? = some 47 then (composeAt base u.localUrl).map some
    else if u.localUrl.head? = some 35 then
      if base.localUrl = [] then none
      else
        let tmp := if base.localUrl.getLast? = some 47 then base.localUrl.dropLast
          else base.localUrl
        (composeAt base (tmp ++ u.localUrl)).map some
    else do
      -- without a slash, `strrchr` returns NULL
      let dir ← beforeLast 47 base.localUrl
      (composeAt base (dir ++ 47 :: u.localUrl)).map some

/-- The url of the attribute of a tag, if it has one. -/
def linkOf (base : ParsedUrl) (href : Option (List UInt8)) : Option (List (List UInt8)) :=
  match href with
  | none => some []
  | some href => do
    match ← composeUrl gethostbyname base href with
    | none => some []
    | some url =>
      let (_, url) ← cleanUrl url
      let url ← buffered url
      some [url]

/-- The loop of `find_urls`, over what the calls of `find_tag` return.  A tag `BASE` changes `base`
for those behind it. -/
def findUrlsLoop (base : ParsedUrl) : List (ℕ × List UInt8) → Option (List (List UInt8))
  | [] => some []
  | (tagNum, tag) :: tags =>
    if tagNum = 2 then
      findUrlsLoop (((extractHref tag).bind (urlParse gethostbyname)).getD base) tags
    else do
      let urls ← linkOf gethostbyname base (if tagNum = 4 then extractSrc tag else extractHref tag)
      let rest ← findUrlsLoop base tags
      some (urls ++ rest)

/-- `find_urls`.  (The tags are those that `find_tag` returns, by `tagRun_iff_allTags`.) -/
def findUrls (base : ParsedUrl) (text : List UInt8) : Option (List (List UInt8)) :=
  (allTags none text).bind (findUrlsLoop gethostbyname base)

/-! ### Urls of the site -/

/-- The characters that the first loop of `urlClean` keeps, after the first one. -/
def keptSlashes : UInt8 → List UInt8 → List UInt8
  | _, [] => []
  | t, c :: s => if t = 47 ∧ c = 47 then keptSlashes t s else c :: keptSlashes c s

/-- The path after the first loop of `urlClean`: no NUL is put behind what has been kept, so the end
of the path stays there once more. -/
def collapsed : List UInt8 → List UInt8
  | [] => []
  | c :: s => c :: keptSlashes c s ++ s.drop (keptSlashes c s).length

/-- `urlClean`. -/
def urlClean (u : ParsedUrl) : ParsedUrl :=
  let path := collapsed u.localUrl
  if 35 ∈ path then
    urlCanonical gethostbyname { u with localUrl := path.takeWhile (· ≠ 35), curl := none }
  else { u with localUrl := path }

/-- `urlLocal`: whether the url is one of the host and the port; `none` for an url without a
server. -/
def urlLocal (host port : List UInt8) (u : ParsedUrl) : Option Bool := do
  let server ← u.server
  match gethostbyname server with
  | none => some false
  | some name => do
    let p ← u.port
    some (strcasecmpEq name host && port == p)

end

/-! ### The head of a document -/

/-- What `httpHeadfp` or `httpGetfp` comes to: whether it returns 1, `ret`, and the text in the
file, where `fprintf` has put no NUL. -/
structure HttpAnswer where
  ok : Bool
  ret : ℤ
  text : List UInt8
  plain : 0 ∉ text

/-- The lines that are read, each without its last character. -/
def HttpAnswer.lines (a : HttpAnswer) : List (List UInt8) :=
  (fgetsLines 80 a.text).map List.dropLast

/-- Whether a line is for that field, `name` with a colon and a blank. -/
def isField (name line : List UInt8) : Bool := strncasecmpEq line name name.length

/-- `is_ferretd`. -/
def isFerretd (lines : List (List UInt8)) : Bool :=
  (lines.find? (isField (bytes "Server: "))).any fun line =>
    strncasecmpEq (line.drop 8) (bytes "Ferretd") 7

/-- The lines that `is_ferretd` has not read. -/
def afterServer (lines : List (List UInt8)) : List (List UInt8) :=
  (lines.dropWhile fun line => !isField (bytes "Server: ") line).tail

/-- `modified_time`. -/
def modifiedTime (httptime : List UInt8 → ℕ) (lines : List (List UInt8)) : ℕ :=
  ((lines.find? (isField (bytes "Last-Modified: "))).map fun line => httptime (line.drop 15)).getD 0

/-- `size_allowed`, with `*size`. -/
def sizeAllowed : List (List UInt8) → ℤ → Bool × ℤ
  | [], size => (true, size)
  | line :: lines, size =>
    if isField (bytes "Content-length: ") line then
      if 1000000 < atoi (line.drop 16) then (false, atoi (line.drop 16))
      else sizeAllowed lines (atoi (line.drop 16))
    else sizeAllowed lines size

/-- `type_allowed`, with `type`. -/
def typeAllowed (ferretd : Bool) : List (List UInt8) → List UInt8 → Bool × List UInt8
  | [], type => (false, type)
  | line :: lines, type =>
    if isField (bytes "Content-Type: ") line then
      let type := line.drop 14
      if strncasecmpEq type (bytes "www/") 4 || strncasecmpEq type (bytes "text/html") 9 ||
          strncasecmpEq type (bytes "text/plain") 10 ||
          ferretd && strncasecmpEq type (bytes "application/octet-stream") 24 then (true, type)
      else typeAllowed ferretd lines type
    else typeAllowed ferretd lines type

/-- `old_doc`.  An entry without a date is not known. -/
def oldDoc (lastTime : Option ℕ) (modTime : ℕ) : Bool :=
  decide (sint modTime ≤ sint (lastTime.getD 0))

/-- `find_new_url`. -/
def findNewUrl (gethostbyname : List UInt8 → Option (List UInt8)) (a : HttpAnswer) :
    Option ParsedUrl :=
  let lines := (fgetsLines 80 a.text).map fun line => line.rdropWhile fun c => c == 10 || c == 13
  (lines.find? (isField (bytes "Location: "))).bind fun line =>
    urlParse gethostbyname (line.drop 10)

/-! ### The tables -/

/-- `table` with the data base, and `ext_table`. -/
structure UrlTables where
  known : UrlDb.UrlTable
  ext : List UrlEntry
  deriving DecidableEq, Repr

/-- The url, without a slash at its end. -/
def stripSlash (u : ParsedUrl) : ParsedUrl :=
  if 1 < u.localUrl.length ∧ u.localUrl.getLast? = some 47 then
    { u with localUrl := u.localUrl.dropLast, curl := u.curl.map List.dropLast }
  else u

/-- `store_url`, for an url that is not of the site if `ext` is set. -/
def UrlTables.storeUrl (ue : UrlEntry) (ext : Bool) (t : UrlTables) : UrlTables :=
  match ext, ue.url.curl with
  | false, _ => { t with known := UrlDb.storeUrl ue t.known }
  | true, none => t
  | true, some curl =>
    if curl ∈ t.known.dbm then t
    else ⟨{ t.known with dbm := curl :: t.known.dbm }, t.ext ++ [ue]⟩

/-- `store_url_db`.  A redirection keeps the slash. -/
def UrlTables.storeUrlDb (u : ParsedUrl) (ext redirect : Bool) (t : UrlTables) : UrlTables :=
  t.storeUrl ⟨if redirect then u else stripSlash u, -2, 0, none⟩ ext

/-! ### A round -/

/-- `hostname_t` has `MAX_HOSTNAME_LEN` characters. -/
def hostnameLen : ℕ := 256

/-- `max_number_errors`. -/
def maxNumberErrors : ℕ := 5

/-- What `do_retrieve` goes by.  `compress` is what the program for `compressFlag` makes of a
file. -/
structure CrawlConfig where
  gethostbyname : List UInt8 → Option (List UInt8)
  httptime : List UInt8 → ℕ
  compress : List UInt8 → Option (List UInt8)
  compressFlag : ℕ
  force : Bool
  retrieveTime : ℕ
  rurls : List (List UInt8)
  initpath : List UInt8
  maxRetrUrls : ℕ

/-- The variables of the loop, what has been written, and what has been asked for and answered;
`hell` is set when the loop is left with an error. -/
structure CrawlState where
  urls : UrlTables
  index : ℕ
  size : ℤ
  type : List UInt8
  numberErrors : ℕ
  numRetrUrls : ℕ
  docs : List CrawlDoc
  heads : List (ParsedUrl × HttpAnswer)
  gets : List (ParsedUrl × HttpAnswer)
  hell : Bool

/-- The fields of a sub-header that are set at once. -/
def urlSubHeader (u : ParsedUrl) : SubHeaderRec :=
  ((({ emptySubHeader with
      localUrl := u.localUrl, port := atoi (u.port.getD []), server := u.server.getD [] }).setFlag
        .localUrl).setFlag .port).setFlag .server

/-- `output_sub_header`. -/
def outputSubHeader (r : SubHeaderRec) (state : List UInt8) (size fsize : ℤ)
    (type : Option (List UInt8)) : SubHeaderRec :=
  let r := ((({ r with state := state, size := ulong size, fsize := ulong fsize }).setFlag
    .state).setFlag .size).setFlag .fsize
  match type with
  | some type => { r with type := type }.setFlag .type
  | none => r

namespace CrawlState

/-- An error is counted; after too many of them the loop is left. -/
def failed (s : CrawlState) : CrawlState :=
  if maxNumberErrors < s.numberErrors then { s with hell := true }
  else { s with numberErrors := s.numberErrors + 1 }

/-- A sub-header is written. -/
def output (s : CrawlState) (r : SubHeaderRec) (body : List UInt8) : CrawlState :=
  { s with docs := s.docs ++ [⟨r, body⟩] }

end CrawlState

section

variable (cfg : CrawlConfig)

/-- `sub_header_rec` before the url is asked for. -/
def CrawlConfig.subHeader (u : ParsedUrl) : SubHeaderRec :=
  { urlSubHeader u with
    format := some (match cfg.compressFlag with
      | 0 => .fraw
      | 1 => .fcompressLz
      | _ => .fcompressGzip) }.setFlag .format

/-- An url that a document leads to. -/
def storeLink (host port : List UInt8) (t : UrlTables) (url : List UInt8) : Option UrlTables :=
  match urlParse cfg.gethostbyname url with
  | none => some t
  | some u => do
    let u := urlClean cfg.gethostbyname u
    let isLocal ← urlLocal cfg.gethostbyname host port u
    some (t.storeUrlDb u (!isLocal) false)

/-- What comes after a `HEAD`: an error, nothing, a sub-header, a redirection or the `GET`. -/
inductive HeadAction
  | fail
  | skip
  | write (r : SubHeaderRec)
  | moved (u : ParsedUrl)
  | get (r : SubHeaderRec)

/-- `ret` of a server that says 500 for what it has not. -/
def answerCode (ferretd : Bool) (a : HttpAnswer) : ℤ :=
  if ferretd && a.ret == 500 then 404 else a.ret

/-- What is done about the answer to a `HEAD`, with `size` and `type` then. -/
def headAction (ue : UrlEntry) (head : HttpAnswer) (size : ℤ) (type : List UInt8) :
    HeadAction × ℤ × List UInt8 :=
  let ferretd := isFerretd head.lines
  let ret := answerCode ferretd head
  let r := cfg.subHeader ue.url
  if head.ok = false then (.fail, size, type)
  else if ret = 200 then
    let modTime := modifiedTime cfg.httptime (afterServer head.lines)
    let r := { r with date := if modTime = 0 then cfg.retrieveTime else modTime }.setFlag .date
    let allowed := sizeAllowed head.lines 0
    let typed := typeAllowed ferretd head.lines []
    if allowed.1 = false then (.write (outputSubHeader r (bytes "N/A") 0 0 type), allowed.2, type)
    else if typed.1 = false then
      (.write (outputSubHeader r (bytes "NoType") allowed.2 0 typed.2), allowed.2, typed.2)
    else if oldDoc ue.date modTime && ue.content != 0 && !cfg.force then
      let r := { r with recno := ue.recno }.setFlag .recno
      (.write (outputSubHeader r (bytes "Old") 0 0 typed.2), allowed.2, typed.2)
    else (.get r, allowed.2, typed.2)
  else if ret ∈ [201, 202, 204, 300, 304, 400, 500, 501, 502, 503] then (.fail, size, type)
  else if ret = 301 ∨ ret = 302 then
    match findNewUrl cfg.gethostbyname head with
    | none => (.fail, size, type)
    | some u => (.moved u, size, type)
  else if ret ∈ [401, 403, 404] then (.skip, size, type)
  else (.get r, size, type)

/-- What comes after a `GET`: an error, nothing, one more document, or one whose text has come. -/
inductive GetAction
  | fail
  | skip
  | count
  | page
  deriving DecidableEq, Repr

/-- What is done about the answer to a `GET`. -/
def getAction (ferretd : Bool) (get : HttpAnswer) : GetAction :=
  let ret := answerCode ferretd get
  if get.ok = false then .fail
  else if ret = 200 then .page
  else if ret ∈ [201, 202, 204, 304, 400, 500, 501, 502, 503] then .fail
  else if ret ∈ [401, 403, 404] then .skip
  else .count

/-- The part of a round from the `GET` on. -/
def crawlGet (host port : List UInt8) (u : ParsedUrl) (ferretd : Bool) (r : SubHeaderRec)
    (get : HttpAnswer) (s : CrawlState) : Option CrawlState :=
  let s := { s with gets := s.gets ++ [(u, get)] }
  match getAction ferretd get with
  | .fail => some s.failed
  | .skip => some s
  | .count => some { s with numRetrUrls := s.numRetrUrls + 1 }
  | .page => do
    let found ← findUrls cfg.gethostbyname u get.text
    let urls ← found.foldlM (storeLink cfg host port) s.urls
    let s := { s with urls := urls, size := if s.size = 0 then get.text.length else s.size }
    match if 0 < cfg.compressFlag then cfg.compress get.text else some get.text with
    | none => some { s with hell := true }
    | some body =>
      let s := s.output (outputSubHeader r (bytes "New") s.size body.length none) body
      some { s with numRetrUrls := s.numRetrUrls + 1 }

/-- The part of a round from the `HEAD` on. -/
def crawlHead (host port : List UInt8) (ue : UrlEntry) (head get : HttpAnswer) (s : CrawlState) :
    Option CrawlState :=
  let (action, size, type) := headAction cfg ue head s.size s.type
  let s := { s with heads := s.heads ++ [(ue.url, head)], size := size, type := type }
  match action with
  | .fail => some s.failed
  | .skip => some s
  | .write r => some (s.output r [])
  | .moved u => do
    let isLocal ← urlLocal cfg.gethostbyname host port u
    some { s with urls := s.urls.storeUrlDb u (!isLocal) true }
  | .get r => crawlGet cfg host port ue.url (isFerretd head.lines) r get s

/-- A round of the loop; `none` when the loop is over, or where C leaves open what happens: a text
that does not fit in its array, or an url without a server. -/
def crawlRound (head get : HttpAnswer) (s : CrawlState) : Option CrawlState :=
  if s.hell ∨ cfg.maxRetrUrls ≤ s.numRetrUrls then none
  else do
    let ue ← s.urls.known.table[s.index]?
    let s := { s with index := s.index + 1 }
    let server ← ue.url.server
    let port ← ue.url.port
    -- `char port[40]`
    if 40 ≤ port.length then none
    else if urlRestricted ue.url.localUrl (some cfg.rurls) cfg.initpath then some s
    else if hostnameLen ≤ ue.url.localUrl.length ∨ hostnameLen ≤ server.length then none
    else crawlHead cfg ((cfg.gethostbyname server).getD []) port ue head get s

/-- A round with some answers. -/
def CrawlStep (s s' : CrawlState) : Prop := ∃ head get, crawlRound cfg head get s = some s'

/-- The loop, from one state to another. -/
def CrawlRun : CrawlState → CrawlState → Prop := Relation.ReflTransGen (CrawlStep cfg)

end

/-- The state before the loop, with the table of `init_url_db`.  `size` and `type` have no value
yet. -/
def crawlStart (size : ℤ) (type : List UInt8) (table : List UrlEntry) : CrawlState where
  urls := ⟨⟨table, table.filterMap fun ue => ue.url.curl⟩, []⟩
  index := 0
  size := size
  type := type
  numberErrors := 0
  numRetrUrls := 0
  docs := []
  heads := []
  gets := []
  hell := false

end Archie
