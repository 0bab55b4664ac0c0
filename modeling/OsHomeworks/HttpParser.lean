import OsHomeworks.MarkedStream
import OsHomeworks.ServerModel

/-! The HTTP parser that the web server is linked with: `http_parser.c`, compiled with
`HTTP_PARSER_STRICT`. The switch over the states is given turn by turn; what its macros do with the
marks are actions, which the loop over a piece of data carries out. Callbacks return 0, as `on_path_cb`
does, except `on_headers_complete`, whose result is asked for. -/

namespace OsHomeworks.WebServer

open CallLog MarkedStream

/-- A character literal. -/
def chr (c : Char) : UInt8 := c.toNat.toUInt8

/-- `CR` -/
def cr : UInt8 := 13

/-- `LF` -/
def lf : UInt8 := 10

/-- `enum http_method` -/
inductive HttpMethod where
  | delete | get | head | post | put
  | connect | options | trace
  | copy | lock | mkcol | move | propfind | proppatch | unlock
  | report | mkactivity | checkout | merge
  | msearch | notify | subscribe | unsubscribe
  deriving DecidableEq

/-- `method_strings[m]`, without its NUL. -/
def HttpMethod.string : HttpMethod → List UInt8
  | .delete => bytes "DELETE"
  | .get => bytes "GET"
  | .head => bytes "HEAD"
  | .post => bytes "POST"
  | .put => bytes "PUT"
  | .connect => bytes "CONNECT"
  | .options => bytes "OPTIONS"
  | .trace => bytes "TRACE"
  | .copy => bytes "COPY"
  | .lock => bytes "LOCK"
  | .mkcol => bytes "MKCOL"
  | .move => bytes "MOVE"
  | .propfind => bytes "PROPFIND"
  | .proppatch => bytes "PROPPATCH"
  | .unlock => bytes "UNLOCK"
  | .report => bytes "REPORT"
  | .mkactivity => bytes "MKACTIVITY"
  | .checkout => bytes "CHECKOUT"
  | .merge => bytes "MERGE"
  | .msearch => bytes "M-SEARCH"
  | .notify => bytes "NOTIFY"
  | .subscribe => bytes "SUBSCRIBE"
  | .unsubscribe => bytes "UNSUBSCRIBE"

/-- `enum http_parser_type` -/
inductive HttpParserType where
  | request | response | both
  deriving DecidableEq

namespace HttpParser

/-- `enum state`, in its order. -/
inductive State where
  | dead
  | startReqOrRes | resOrRespH | startRes | resH | resHT | resHTT | resHTTP
  | resFirstHttpMajor | resHttpMajor | resFirstHttpMinor | resHttpMinor
  | resFirstStatusCode | resStatusCode | resStatus | resLineAlmostDone
  | startReq
  | reqMethod | reqSpacesBeforeUrl | reqSchema | reqSchemaSlash | reqSchemaSlashSlash
  | reqHost | reqPort | reqPath | reqQueryStringStart | reqQueryString
  | reqFragmentStart | reqFragment
  | reqHttpStart | reqHttpH | reqHttpHT | reqHttpHTT | reqHttpHTTP
  | reqFirstHttpMajor | reqHttpMajor | reqFirstHttpMinor | reqHttpMinor | reqLineAlmostDone
  | headerFieldStart | headerField | headerValueStart | headerValue
  | headerAlmostDone
  | chunkSizeStart | chunkSize | chunkParameters | chunkSizeAlmostDone
  | headersAlmostDone
  | chunkData | chunkDataAlmostDone | chunkDataDone
  | bodyIdentity | bodyIdentityEof
  deriving DecidableEq

/-- `PARSING_HEADER` -/
def State.parsingHeader (s : State) : Bool := s.ctorIdx ≤ State.headersAlmostDone.ctorIdx

/-- `enum header_states` -/
inductive HeaderState where
  | general | C | CO | CON
  | matchingConnection | matchingProxyConnection | matchingContentLength
  | matchingTransferEncoding | matchingUpgrade
  | connection | contentLength | transferEncoding | upgrade
  | matchingTransferEncodingChunked | matchingConnectionKeepAlive | matchingConnectionClose
  | transferEncodingChunked | connectionKeepAlive | connectionClose
  deriving DecidableEq

/-- `enum flags` -/
structure Flags where
  chunked : Bool
  connectionKeepAlive : Bool
  connectionClose : Bool
  trailing : Bool
  upgrade : Bool
  skipbody : Bool
  deriving DecidableEq

/-- `flags = 0` -/
def Flags.none : Flags := ⟨false, false, false, false, false, false⟩

end HttpParser

open HttpParser in
/-- `struct http_parser` without `nread`, with which few cases have to do. While the parser runs, `state`,
`headerState` and `index` are its local variables of these names; `contentLength` is a `size_t`. -/
structure HttpParser where
  type : HttpParserType
  flags : Flags
  state : State
  headerState : HeaderState
  index : ℕ
  contentLength : ℕ
  httpMajor : ℕ
  httpMinor : ℕ
  statusCode : ℕ
  method : HttpMethod
  upgrade : Bool
  deriving DecidableEq

namespace HttpParser

/-- `struct http_parser`; while the parser runs, `nread` is its local variable of this name. -/
structure Counted extends HttpParser where
  nread : ℕ
  deriving DecidableEq

/-- The callbacks that are given data. -/
inductive DataKind where
  | headerField | headerValue | fragment | queryString | path | url | body
  deriving DecidableEq

/-- The callbacks that are given none. -/
inductive Notice where
  | messageBegin | headersComplete | messageComplete
  deriving DecidableEq

/-- Why the parser returns before the end of the data; a failed assertion and an access outside of an
object are counted among the reasons. -/
inductive StopKind where
  | error | upgrade | headersComplete | assertion | undefined
  deriving DecidableEq

structure Stop where
  kind : StopKind
  parser : HttpParser
  deriving DecidableEq

/-- `tokens`: the character in lower case, or 0. -/
def token (ch : UInt8) : UInt8 :=
  if chr 'A' ≤ ch ∧ ch ≤ chr 'Z' then ch + 32
  else if chr 'a' ≤ ch ∧ ch ≤ chr 'z' then ch
  else if chr '0' ≤ ch ∧ ch ≤ chr '9' then ch
  else if ch ∈ bytes " !\"#$%&'*+-./^_`|\x7d~" then ch
  else 0

/-- `normal_url_char` -/
def normalUrlChar (ch : UInt8) : Bool := 33 ≤ ch ∧ ch ≤ 126 ∧ ch ≠ chr '#' ∧ ch ≠ chr '?'

/-- `unhex`, `none` for -1. The table has 128 entries, the others of its 256 are 0. -/
def unhex (ch : UInt8) : Option ℕ :=
  if chr '0' ≤ ch ∧ ch ≤ chr '9' then some (ch - chr '0').toNat
  else if chr 'A' ≤ ch ∧ ch ≤ chr 'F' then some (ch - chr 'A' + 10).toNat
  else if chr 'a' ≤ ch ∧ ch ≤ chr 'f' then some (ch - chr 'a' + 10).toNat
  else if 128 ≤ ch then some 0
  else none

/-- `LOWER` -/
def lower (ch : UInt8) : UInt8 := ch ||| 0x20

def isLetter (c : UInt8) : Bool := chr 'a' ≤ c ∧ c ≤ chr 'z'

/-- The value of a decimal digit. -/
def digit (ch : UInt8) : Option ℕ :=
  if chr '0' ≤ ch ∧ ch ≤ chr '9' then some (ch - chr '0').toNat else none

/-! ### The turns -/

abbrev ParserTurn := Turn HttpParser DataKind Notice Stop

abbrev CountedTurn := Turn Counted DataKind Notice Stop

/-- A turn after which `nread` is as given. -/
def keep (nread : ℕ) (t : ParserTurn) : CountedTurn :=
  ⟨t.actions, t.next.map fun p => ⟨p, nread⟩, t.advance⟩

/-- The switch is left by `break`. -/
def go (actions : List (Action DataKind Notice)) (p : HttpParser) : ParserTurn :=
  ⟨actions, .ok p, 1⟩

/-- The loop is left. -/
def halt (actions : List (Action DataKind Notice)) (kind : StopKind) (p : HttpParser) :
    ParserTurn :=
  ⟨actions, .error ⟨kind, p⟩, 1⟩

/-- `http_should_keep_alive` -/
def shouldKeepAlive (p : HttpParser) : Bool :=
  if p.httpMajor > 0 ∧ p.httpMinor > 0 then !p.flags.connectionClose
  else p.flags.connectionKeepAlive

/-- `start_state` -/
def startState (p : HttpParser) : State := if p.type = .request then .startReq else .startRes

/-- `NEW_MESSAGE` -/
def newMessage (p : HttpParser) : State := if p.shouldKeepAlive then p.startState else .dead

/-- `content_length = -1` -/
def noContentLength : ℕ := 2 ^ 64 - 1

/-- The statements with which a message begins. -/
def beginMessage (p : HttpParser) : HttpParser :=
  { p with flags := .none, contentLength := noContentLength }

/-- `STRICT_CHECK(ch != want)` -/
def expect (want : UInt8) (next : State) (p : HttpParser) (ch : UInt8) : ParserTurn :=
  if ch ≠ want then halt [] .error p else go [] { p with state := next }

def firstHttpMajor (next : State) (p : HttpParser) (ch : UInt8) : ParserTurn :=
  if ch < chr '1' ∨ ch > chr '9' then halt [] .error p
  else go [] { p with httpMajor := (ch - chr '0').toNat, state := next }

def httpMajorOrDot (next : State) (p : HttpParser) (ch : UInt8) : ParserTurn :=
  if ch = chr '.' then go [] { p with state := next }
  else match digit ch with
    | none => halt [] .error p
    | some d =>
        let p := { p with httpMajor := p.httpMajor * 10 + d }
        if p.httpMajor > 999 then halt [] .error p else go [] p

def firstHttpMinor (next : State) (p : HttpParser) (ch : UInt8) : ParserTurn :=
  match digit ch with
  | none => halt [] .error p
  | some d => go [] { p with httpMinor := d, state := next }

def httpMinorDigit (p : HttpParser) (ch : UInt8) : ParserTurn :=
  match digit ch with
  | none => halt [] .error p
  | some d =>
      let p := { p with httpMinor := p.httpMinor * 10 + d }
      if p.httpMinor > 999 then halt [] .error p else go [] p

/-- The first method that begins with a character. -/
def firstMethod (ch : UInt8) : Option HttpMethod :=
  if ch = chr 'C' then some .connect
  else if ch = chr 'D' then some .delete
  else if ch = chr 'G' then some .get
  else if ch = chr 'H' then some .head
  else if ch = chr 'L' then some .lock
  else if ch = chr 'M' then some .mkcol
  else if ch = chr 'N' then some .notify
  else if ch = chr 'O' then some .options
  else if ch = chr 'P' then some .post
  else if ch = chr 'R' then some .report
  else if ch = chr 'S' then some .subscribe
  else if ch = chr 'T' then some .trace
  else if ch = chr 'U' then some .unlock
  else none

/-- The label `start_req_method_assign`. -/
def startReqMethodAssign (p : HttpParser) (ch : UInt8) : ParserTurn :=
  match firstMethod ch with
  | some m => go [.notify .messageBegin] { p with method := m, index := 1, state := .reqMethod }
  | none => halt [.notify .messageBegin] .error { p with method := .delete, index := 1 }

def startReqOrRes (p : HttpParser) (ch : UInt8) : ParserTurn :=
  if ch = cr ∨ ch = lf then go [] p
  else
    let p := p.beginMessage
    if ch = chr 'H' then go [.notify .messageBegin] { p with state := .resOrRespH }
    else startReqMethodAssign { p with type := .request } ch

def resOrRespH (p : HttpParser) (ch : UInt8) : ParserTurn :=
  if ch = chr 'T' then go [] { p with type := .response, state := .resHT }
  else if ch ≠ chr 'E' then halt [] .error p
  else go [] { p with type := .request, method := .head, index := 2, state := .reqMethod }

def startRes (p : HttpParser) (ch : UInt8) : ParserTurn :=
  let p := p.beginMessage
  if ch = chr 'H' then go [.notify .messageBegin] { p with state := .resH }
  else if ch = cr ∨ ch = lf then go [.notify .messageBegin] p
  else halt [.notify .messageBegin] .error p

def resHttpMinor (p : HttpParser) (ch : UInt8) : ParserTurn :=
  if ch = chr ' ' then go [] { p with state := .resFirstStatusCode } else httpMinorDigit p ch

def resFirstStatusCode (p : HttpParser) (ch : UInt8) : ParserTurn :=
  match digit ch with
  | none => if ch = chr ' ' then go [] p else halt [] .error p
  | some d => go [] { p with statusCode := d, state := .resStatusCode }

def resStatusCode (p : HttpParser) (ch : UInt8) : ParserTurn :=
  match digit ch with
  | none =>
      if ch = chr ' ' then go [] { p with state := .resStatus }
      else if ch = cr then go [] { p with state := .resLineAlmostDone }
      else if ch = lf then go [] { p with state := .headerFieldStart }
      else halt [] .error p
  | some d =>
      let p := { p with statusCode := p.statusCode * 10 + d }
      if p.statusCode > 999 then halt [] .error p else go [] p

def resStatus (p : HttpParser) (ch : UInt8) : ParserTurn :=
  if ch = cr then go [] { p with state := .resLineAlmostDone }
  else if ch = lf then go [] { p with state := .headerFieldStart }
  else go [] p

def startReq (p : HttpParser) (ch : UInt8) : ParserTurn :=
  if ch = cr ∨ ch = lf then go [] p
  else
    let p := p.beginMessage
    if ch < chr 'A' ∨ chr 'Z' < ch then halt [.notify .messageBegin] .error p
    else startReqMethodAssign p ch

/-- The methods that share their first characters with another one, from `parser->method` at `index`;
not every character that does not match is an error. -/
def otherMethod (p : HttpParser) (ch : UInt8) : Option HttpMethod :=
  if p.method = .connect then
    if p.index = 1 ∧ ch = chr 'H' then some .checkout
    else if p.index = 2 ∧ ch = chr 'P' then some .copy
    else some p.method
  else if p.method = .mkcol then
    if p.index = 1 ∧ ch = chr 'O' then some .move
    else if p.index = 1 ∧ ch = chr 'E' then some .merge
    else if p.index = 1 ∧ ch = chr '-' then some .msearch
    else if p.index = 2 ∧ ch = chr 'A' then some .mkactivity
    else some p.method
  else if p.index = 1 ∧ p.method = .post ∧ ch = chr 'R' then some .propfind
  else if p.index = 1 ∧ p.method = .post ∧ ch = chr 'U' then some .put
  else if p.index = 2 ∧ p.method = .unlock ∧ ch = chr 'S' then some .unsubscribe
  else if p.index = 4 ∧ p.method = .propfind ∧ ch = chr 'P' then some .proppatch
  else none

/-- `matcher[index]` is in the string or its NUL, or the access is outside of it. -/
def reqMethod (p : HttpParser) (ch : UInt8) : ParserTurn :=
  if ch = 0 then halt [] .error p
  else match (p.method.string ++ [0])[p.index]? with
    | none => halt [] .undefined p
    | some c =>
        if ch = chr ' ' ∧ c = 0 then
          go [] { p with index := p.index + 1, state := .reqSpacesBeforeUrl }
        else if ch = c then go [] { p with index := p.index + 1 }
        else match otherMethod p ch with
          | some m => go [] { p with index := p.index + 1, method := m }
          | none => halt [] .error p

def reqSpacesBeforeUrl (p : HttpParser) (ch : UInt8) : ParserTurn :=
  if ch = chr ' ' then go [] p
  else if ch = chr '/' ∨ ch = chr '*' then
    go [.mark .url, .mark .path] { p with state := .reqPath }
  else if isLetter (lower ch) then go [.mark .url] { p with state := .reqSchema }
  else halt [] .error p

def reqSchema (p : HttpParser) (ch : UInt8) : ParserTurn :=
  if isLetter (lower ch) then go [] p
  else if ch = chr ':' then go [] { p with state := .reqSchemaSlash }
  else if ch = chr '.' then go [] { p with state := .reqHost }
  else if (digit ch).isSome then go [] { p with state := .reqHost }
  else halt [] .error p

/-- What may follow a host or a port. -/
def hostEnd (p : HttpParser) (ch : UInt8) : ParserTurn :=
  if ch = chr '/' then go [.mark .path] { p with state := .reqPath }
  else if ch = chr ' ' then go [.callback .url] { p with state := .reqHttpStart }
  else halt [] .error p

def reqHost (p : HttpParser) (ch : UInt8) : ParserTurn :=
  if isLetter (lower ch) then go [] p
  else if (digit ch).isSome ∨ ch = chr '.' ∨ ch = chr '-' then go [] p
  else if ch = chr ':' then go [] { p with state := .reqPort }
  else hostEnd p ch

def reqPort (p : HttpParser) (ch : UInt8) : ParserTurn :=
  if (digit ch).isSome then go [] p else hostEnd p ch

/-- What may end a URL, whose open parts are `parts`; a line without a version is taken for
HTTP/0.9. -/
def urlEnd (parts : List DataKind) (p : HttpParser) (ch : UInt8) : ParserTurn :=
  if ch = chr ' ' then go (parts.map .callback) { p with state := .reqHttpStart }
  else if ch = cr then
    go (parts.map .callback) { p with httpMajor := 0, httpMinor := 9, state := .reqLineAlmostDone }
  else if ch = lf then
    go (parts.map .callback) { p with httpMajor := 0, httpMinor := 9, state := .headerFieldStart }
  else halt [] .error p

def reqPath (p : HttpParser) (ch : UInt8) : ParserTurn :=
  if normalUrlChar ch then go [] p
  else if ch = chr '?' then go [.callback .path] { p with state := .reqQueryStringStart }
  else if ch = chr '#' then go [.callback .path] { p with state := .reqFragmentStart }
  else urlEnd [.url, .path] p ch

def reqQueryStringStart (p : HttpParser) (ch : UInt8) : ParserTurn :=
  if normalUrlChar ch then go [.mark .queryString] { p with state := .reqQueryString }
  else if ch = chr '?' then go [] p
  else if ch = chr '#' then go [] { p with state := .reqFragmentStart }
  else urlEnd [.url] p ch

def reqQueryString (p : HttpParser) (ch : UInt8) : ParserTurn :=
  if normalUrlChar ch then go [] p
  else if ch = chr '?' then go [] p
  else if ch = chr '#' then go [.callback .queryString] { p with state := .reqFragmentStart }
  else urlEnd [.url, .queryString] p ch

def reqFragmentStart (p : HttpParser) (ch : UInt8) : ParserTurn :=
  if normalUrlChar ch then go [.mark .fragment] { p with state := .reqFragment }
  else if ch = chr '?' then go [.mark .fragment] { p with state := .reqFragment }
  else if ch = chr '#' then go [] p
  else urlEnd [.url] p ch

def reqFragment (p : HttpParser) (ch : UInt8) : ParserTurn :=
  if normalUrlChar ch then go [] p
  else if ch = chr '?' ∨ ch = chr '#' then go [] p
  else urlEnd [.url, .fragment] p ch

def reqHttpStart (p : HttpParser) (ch : UInt8) : ParserTurn :=
  if ch = chr 'H' then go [] { p with state := .reqHttpH }
  else if ch = chr ' ' then go [] p
  else halt [] .error p

def reqHttpMinor (p : HttpParser) (ch : UInt8) : ParserTurn :=
  if ch = cr then go [] { p with state := .reqLineAlmostDone }
  else if ch = lf then go [] { p with state := .headerFieldStart }
  else httpMinorDigit p ch

/-- The label `headers_almost_done`, from where on the callback `on_headers_complete` has returned 0
or 1. -/
def headersDone (p : HttpParser) : ParserTurn :=
  if p.upgrade then halt [.notify .headersComplete, .notify .messageComplete] .upgrade p
  else if p.flags.skipbody then
    go [.notify .headersComplete, .notify .messageComplete] { p with state := p.newMessage }
  else if p.flags.chunked then go [.notify .headersComplete] { p with state := .chunkSizeStart }
  else if p.contentLength = 0 then
    go [.notify .headersComplete, .notify .messageComplete] { p with state := p.newMessage }
  else if p.contentLength > 0 then go [.notify .headersComplete] { p with state := .bodyIdentity }
  else if p.type = .request ∨ p.shouldKeepAlive then
    go [.notify .headersComplete, .notify .messageComplete] { p with state := p.newMessage }
  else go [.notify .headersComplete] { p with state := .bodyIdentityEof }

/-- The label `headers_almost_done` for the headers of a message; `settings` is what
`on_headers_complete` returns, 0 where there is no such callback. -/
def headersComplete (settings : HttpParser → Int) (p : HttpParser) : ParserTurn :=
  let p := if p.flags.upgrade ∨ p.method = .connect then { p with upgrade := true } else p
  if settings p = 0 then headersDone p
  else if settings p = 1 then headersDone { p with flags := { p.flags with skipbody := true } }
  else halt [.notify .headersComplete] .headersComplete p

/-- The label `headers_almost_done`, for the headers behind a chunked body too. -/
def headersAlmostDone (settings : HttpParser → Int) (p : HttpParser) (nread : ℕ) (ch : UInt8) :
    CountedTurn :=
  if ch ≠ lf then keep nread (halt [] .error p)
  else if p.flags.trailing then
    keep nread (go [.notify .messageComplete] { p with state := p.newMessage })
  else keep 0 (headersComplete settings p)

/-- The state in which the name of a header is compared from its first character on. -/
def headerStateOf (c : UInt8) : HeaderState :=
  if c = chr 'c' then .C
  else if c = chr 'p' then .matchingProxyConnection
  else if c = chr 't' then .matchingTransferEncoding
  else if c = chr 'u' then .matchingUpgrade
  else .general

def headerFieldStart (settings : HttpParser → Int) (p : HttpParser) (nread : ℕ) (ch : UInt8) :
    CountedTurn :=
  if ch = lf then headersAlmostDone settings { p with state := .headersAlmostDone } nread ch
  else
    keep nread <|
      if ch = cr then go [] { p with state := .headersAlmostDone }
      else if token ch = 0 then halt [] .error p
      else go [.mark .headerField]
        { p with index := 0, state := .headerField, headerState := headerStateOf (token ch) }

/-- One more character of a name or a value that is compared with `literal`. -/
def matching (literal : List UInt8) (found : HeaderState) (p : HttpParser) (c : UInt8) :
    HttpParser :=
  let p := { p with index := p.index + 1 }
  if p.index > literal.length ∨ c ≠ (literal ++ [0]).getD p.index 0 then
    { p with headerState := .general }
  else if p.index = literal.length - 1 then { p with headerState := found }
  else p

/-- One more character of a name. -/
def matchName (p : HttpParser) (ch c : UInt8) : Option HttpParser :=
  match p.headerState with
  | .general => some p
  | .C => some { p with
      index := p.index + 1, headerState := if c = chr 'o' then .CO else .general }
  | .CO => some { p with
      index := p.index + 1, headerState := if c = chr 'n' then .CON else .general }
  | .CON => some { p with
      index := p.index + 1
      headerState := if c = chr 'n' then .matchingConnection
        else if c = chr 't' then .matchingContentLength else .general }
  | .matchingConnection => some (matching (bytes "connection") .connection p c)
  | .matchingProxyConnection => some (matching (bytes "proxy-connection") .connection p c)
  | .matchingContentLength => some (matching (bytes "content-length") .contentLength p c)
  | .matchingTransferEncoding => some (matching (bytes "transfer-encoding") .transferEncoding p c)
  | .matchingUpgrade => some (matching (bytes "upgrade") .upgrade p c)
  | .connection | .contentLength | .transferEncoding | .upgrade =>
      some (if ch ≠ chr ' ' then { p with headerState := .general } else p)
  | _ => none

def headerField (p : HttpParser) (ch : UInt8) : ParserTurn :=
  if token ch ≠ 0 then
    match matchName p ch (token ch) with
    | some p => go [] p
    | none => halt [] .assertion p
  else if ch = chr ':' then go [.callback .headerField] { p with state := .headerValueStart }
  else if ch = cr then go [.callback .headerField] { p with state := .headerAlmostDone }
  else if ch = lf then go [.callback .headerField] { p with state := .headerFieldStart }
  else halt [] .error p

/-- The first character of a value. -/
def startValue (p : HttpParser) (ch : UInt8) : Option HttpParser :=
  match p.headerState with
  | .upgrade => some { p with flags := { p.flags with upgrade := true }, headerState := .general }
  | .transferEncoding => some { p with
      headerState := if lower ch = chr 'c' then .matchingTransferEncodingChunked else .general }
  | .contentLength =>
      match digit ch with
      | none => none
      | some d => some { p with contentLength := d }
  | .connection => some { p with
      headerState := if lower ch = chr 'k' then .matchingConnectionKeepAlive
        else if lower ch = chr 'c' then .matchingConnectionClose else .general }
  | _ => some { p with headerState := .general }

def headerValueStart (p : HttpParser) (ch : UInt8) : ParserTurn :=
  if ch = chr ' ' then go [] p
  else
    let p := { p with state := .headerValue, index := 0 }
    if ch = cr then go [.mark .headerValue, .callback .headerValue]
      { p with headerState := .general, state := .headerAlmostDone }
    else if ch = lf then
      go [.mark .headerValue, .callback .headerValue] { p with state := .headerFieldStart }
    else match startValue p ch with
      | some p => go [.mark .headerValue] p
      | none => halt [.mark .headerValue] .error p

/-- The label `header_almost_done`, after some actions. -/
def headerAlmostDone (actions : List (Action DataKind Notice)) (p : HttpParser) (ch : UInt8) :
    ParserTurn :=
  if ch ≠ lf then halt actions .error p
  else
    let p := { p with state := .headerFieldStart }
    match p.headerState with
    | .connectionKeepAlive =>
        go actions { p with flags := { p.flags with connectionKeepAlive := true } }
    | .connectionClose => go actions { p with flags := { p.flags with connectionClose := true } }
    | .transferEncodingChunked => go actions { p with flags := { p.flags with chunked := true } }
    | _ => go actions p

/-- One more character of a value. -/
def matchValue (p : HttpParser) (ch : UInt8) : ParserTurn :=
  match p.headerState with
  | .general => go [] p
  | .connection | .transferEncoding => halt [] .assertion p
  | .contentLength =>
      if ch = chr ' ' then go [] p
      else match digit ch with
        | none => halt [] .error p
        | some d => go [] { p with contentLength := (p.contentLength * 10 + d) % 2 ^ 64 }
  | .matchingTransferEncodingChunked =>
      go [] (matching (bytes "chunked") .transferEncodingChunked p (lower ch))
  | .matchingConnectionKeepAlive =>
      go [] (matching (bytes "keep-alive") .connectionKeepAlive p (lower ch))
  | .matchingConnectionClose => go [] (matching (bytes "close") .connectionClose p (lower ch))
  | .transferEncodingChunked | .connectionKeepAlive | .connectionClose =>
      go [] (if ch ≠ chr ' ' then { p with headerState := .general } else p)
  | _ => go [] { p with headerState := .general }

def headerValue (p : HttpParser) (ch : UInt8) : ParserTurn :=
  if ch = cr then go [.callback .headerValue] { p with state := .headerAlmostDone }
  else if ch = lf then headerAlmostDone [.callback .headerValue] p ch
  else matchValue p ch

/-- The assertions of the states of a chunked body. -/
def inChunked (p : HttpParser) (t : ParserTurn) : ParserTurn :=
  if p.flags.chunked then t else halt [] .assertion p

def chunkSizeStart (p : HttpParser) (nread : ℕ) (ch : UInt8) : ParserTurn :=
  if nread ≠ 1 then halt [] .assertion p
  else inChunked p <|
    match unhex ch with
    | none => halt [] .error p
    | some c => go [] { p with contentLength := c, state := .chunkSize }

def chunkSize (p : HttpParser) (ch : UInt8) : ParserTurn :=
  inChunked p <|
    if ch = cr then go [] { p with state := .chunkSizeAlmostDone }
    else match unhex ch with
      | none =>
          if ch = chr ';' ∨ ch = chr ' ' then go [] { p with state := .chunkParameters }
          else halt [] .error p
      | some c => go [] { p with contentLength := (p.contentLength * 16 + c) % 2 ^ 64 }

def chunkParameters (p : HttpParser) (ch : UInt8) : ParserTurn :=
  inChunked p <| if ch = cr then go [] { p with state := .chunkSizeAlmostDone } else go [] p

/-- What comes after a size; with it `nread` is 0. -/
def chunkSizeAlmostDone (p : HttpParser) (ch : UInt8) : ParserTurn :=
  inChunked p <|
    if ch ≠ lf then halt [] .error p
    else if p.contentLength = 0 then
      go [] { p with flags := { p.flags with trailing := true }, state := .headerFieldStart }
    else go [] { p with state := .chunkData }

def bodyIdentity (p : HttpParser) (left : ℕ) : ParserTurn :=
  let toRead := min left p.contentLength
  if toRead > 0 then
    let p := { p with contentLength := p.contentLength - toRead }
    if p.contentLength = 0 then
      ⟨[.report .body toRead, .notify .messageComplete], .ok { p with state := p.newMessage }, toRead⟩
    else ⟨[.report .body toRead], .ok p, toRead⟩
  else go [] p

/-- As an `int64_t` a size from `2 ^ 63` on is negative, and the bytes handed out do not end. -/
def chunkData (p : HttpParser) (left : ℕ) : ParserTurn :=
  inChunked p <|
    if 2 ^ 63 ≤ p.contentLength then halt [] .undefined p
    else
      let toRead := min left p.contentLength
      let p := { p with
        state := if toRead = p.contentLength then .chunkDataAlmostDone else p.state
        contentLength := p.contentLength - toRead }
      if toRead > 0 then ⟨[.report .body toRead], .ok p, toRead⟩ else go [] p

/-- The cases of the switch that leave `nread` alone; `left` is `pe - p`. -/
def plainCase (p : HttpParser) (left : ℕ) (ch : UInt8) : ParserTurn :=
  match p.state with
  | .dead => halt [] .error p
  | .startReqOrRes => startReqOrRes p ch
  | .resOrRespH => resOrRespH p ch
  | .startRes => startRes p ch
  | .resH => expect (chr 'T') .resHT p ch
  | .resHT => expect (chr 'T') .resHTT p ch
  | .resHTT => expect (chr 'P') .resHTTP p ch
  | .resHTTP => expect (chr '/') .resFirstHttpMajor p ch
  | .resFirstHttpMajor => firstHttpMajor .resHttpMajor p ch
  | .resHttpMajor => httpMajorOrDot .resFirstHttpMinor p ch
  | .resFirstHttpMinor => firstHttpMinor .resHttpMinor p ch
  | .resHttpMinor => resHttpMinor p ch
  | .resFirstStatusCode => resFirstStatusCode p ch
  | .resStatusCode => resStatusCode p ch
  | .resStatus => resStatus p ch
  | .resLineAlmostDone => expect lf .headerFieldStart p ch
  | .startReq => startReq p ch
  | .reqMethod => reqMethod p ch
  | .reqSpacesBeforeUrl => reqSpacesBeforeUrl p ch
  | .reqSchema => reqSchema p ch
  | .reqSchemaSlash => expect (chr '/') .reqSchemaSlashSlash p ch
  | .reqSchemaSlashSlash => expect (chr '/') .reqHost p ch
  | .reqHost => reqHost p ch
  | .reqPort => reqPort p ch
  | .reqPath => reqPath p ch
  | .reqQueryStringStart => reqQueryStringStart p ch
  | .reqQueryString => reqQueryString p ch
  | .reqFragmentStart => reqFragmentStart p ch
  | .reqFragment => reqFragment p ch
  | .reqHttpStart => reqHttpStart p ch
  | .reqHttpH => expect (chr 'T') .reqHttpHT p ch
  | .reqHttpHT => expect (chr 'T') .reqHttpHTT p ch
  | .reqHttpHTT => expect (chr 'P') .reqHttpHTTP p ch
  | .reqHttpHTTP => expect (chr '/') .reqFirstHttpMajor p ch
  | .reqFirstHttpMajor => firstHttpMajor .reqHttpMajor p ch
  | .reqHttpMajor => httpMajorOrDot .reqFirstHttpMinor p ch
  | .reqFirstHttpMinor => firstHttpMinor .reqHttpMinor p ch
  | .reqHttpMinor => reqHttpMinor p ch
  | .reqLineAlmostDone => expect lf .headerFieldStart p ch
  | .headerField => headerField p ch
  | .headerValueStart => headerValueStart p ch
  | .headerValue => headerValue p ch
  | .headerAlmostDone => headerAlmostDone [] p ch
  | .bodyIdentity => bodyIdentity p left
  | .bodyIdentityEof => ⟨[.report .body left], .ok p, left⟩
  | .chunkSize => chunkSize p ch
  | .chunkParameters => chunkParameters p ch
  | .chunkData => chunkData p left
  | .chunkDataAlmostDone => inChunked p (expect cr .chunkDataDone p ch)
  | .chunkDataDone => inChunked p (expect lf .chunkSizeStart p ch)
  | _ => halt [] .assertion p

/-- The switch. -/
def switch (settings : HttpParser → Int) (p : HttpParser) (nread left : ℕ) (ch : UInt8) :
    CountedTurn :=
  match p.state with
  | .headerFieldStart => headerFieldStart settings p nread ch
  | .headersAlmostDone => headersAlmostDone settings p nread ch
  | .chunkSizeStart => keep nread (chunkSizeStart p nread ch)
  | .chunkSizeAlmostDone => keep 0 (chunkSizeAlmostDone p ch)
  | _ => keep nread (plainCase p left ch)

/-! ### The loop -/

/-- `HTTP_MAX_HEADER_SIZE` -/
def httpMaxHeaderSize : ℕ := 80 * 1024

/-- The body of the loop. -/
def turn (settings : HttpParser → Int) : Machine Counted DataKind Notice Stop :=
  fun p left ch =>
    let nread := if p.state.parsingHeader then p.nread + 1 else p.nread
    if p.state.parsingHeader ∧ nread > httpMaxHeaderSize then keep nread (halt [] .error p.toHttpParser)
    else switch settings p.toHttpParser nread left ch

/-- The states in which a URL is open. -/
def inUrl : List State :=
  [.reqPath, .reqSchema, .reqSchemaSlash, .reqSchemaSlashSlash, .reqPort, .reqQueryStringStart,
    .reqQueryString, .reqHost, .reqFragmentStart, .reqFragment]

/-- The marks that are set to `data` at the beginning. -/
def opens (p : Counted) : DataKind → Bool
  | .headerField => p.state = .headerField
  | .headerValue => p.state = .headerValue
  | .fragment => p.state = .reqFragment
  | .queryString => p.state = .reqQueryString
  | .path => p.state = .reqPath
  | .url => p.state ∈ inUrl
  | .body => false

/-- The order of the callbacks behind the loop. -/
def callbackOrder : List DataKind := [.headerField, .headerValue, .fragment, .queryString, .path, .url]

/-- The local variables are written back; `index` and `nread` through `unsigned char`. -/
def save (p : Counted) : Counted := { p with index := p.index % 256, nread := p.nread % 256 }

/-- The parser that an early return leaves; the local variables are lost. -/
def Stop.saved (stop : Stop) (before : Counted) : Counted :=
  { stop.parser with
    state := match stop.kind with
      | .error => .dead
      | .headersComplete => stop.parser.state
      | _ => before.state
    headerState := before.headerState
    index := before.index
    nread := before.nread }

/-- What a call of `http_parser_execute` does: the callbacks it makes, the number it returns, the
parser it leaves, and why it returns early. -/
structure Execution where
  events : List (Event DataKind Notice)
  returned : ℕ
  parser : Counted
  stop : Option StopKind
  deriving DecidableEq

/-- `http_parser_execute` -/
def execute (settings : HttpParser → Int) (p : Counted) (data : List UInt8) : Execution :=
  if data = [] then
    match p.state with
    | .bodyIdentityEof => ⟨[.notify .messageComplete], 0, p, none⟩
    | .dead | .startReqOrRes | .startRes | .startReq => ⟨[], 0, p, none⟩
    | _ => ⟨[], 1, p, none⟩
  else
    let run := read (turn settings) opens callbackOrder data p
    match run.result with
    | .ok q => ⟨run.calls, data.length, save q, none⟩
    | .error (i, stop) => ⟨run.calls, i, stop.saved p, some stop.kind⟩

/-- `http_parser_init` on whatever is in memory. -/
def init (memory : Counted) (type : HttpParserType) : Counted :=
  { memory with
    type := type
    state := match type with
      | .request => .startReq
      | .response => .startRes
      | .both => .startReqOrRes
    nread := 0
    upgrade := false
    flags := .none
    method := .delete }

end HttpParser

end OsHomeworks.WebServer
