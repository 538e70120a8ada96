import Cczoe.Foundations.OrderedMap
import Mathlib.Data.List.Lex

/-!
# The parser callbacks of `HttpParser.cpp`

`HttpRequestParser` and `HttpResponseParser` hand callbacks to the vendored `http_parser` and store
what these report in a request or a response. The model has the messages (`HttpRequest`,
`HttpResponse`), the notifications of the vendored parser (`Callback`) and what the callbacks of the
two classes do with each.

The vendored parser is a parameter, `HttpParserLibrary`: `http_parser_init`, `http_parser_execute`
with the settings it calls back, the error number it leaves, and `http_parser_parse_url`.

Left out of the messages are `m_status` of a request and its `m_params` and `m_cookies`, which no
callback touches.
-/

set_option autoImplicit false
set_option relaxedAutoImplicit false

namespace Cczoe.Http

open Foundations

/-- `HttpMethod`. `enum http_method` of the vendored parser has the same names and numbers. -/
inductive HttpMethod
  | DELETE | GET | HEAD | POST | PUT
  | CONNECT | OPTIONS | TRACE
  | COPY | LOCK | MKCOL | MOVE | PROPFIND | PROPPATCH | SEARCH | UNLOCK | BIND | REBIND
  | UNBIND | ACL
  | REPORT | MKACTIVITY | CHECKOUT | MERGE
  | MSEARCH | NOTIFY | SUBSCRIBE | UNSUBSCRIBE
  | PATCH | PURGE
  | MKCALENDAR
  | LINK | UNLINK
  | SOURCE
  deriving DecidableEq, Repr

/-! ### Header maps -/

/-- `tolower` in the C locale. -/
def toLower (c : UInt8) : UInt8 := if 65 ≤ c ∧ c ≤ 90 then c + 32 else c

/-- What `strcasecmp` compares of a `c_str()`: the lower-case codes up to the first zero byte. -/
def foldedName (name : List UInt8) : List ℕ :=
  (name.takeWhile (· ≠ 0)).map fun c ↦ (toLower c).toNat

/-- `std::map<std::string, std::string, CaseInsensitiveLess>`. -/
abbrev MapType := OrderedMap (List UInt8) (List UInt8) foldedName

/-! ### Messages -/

structure HttpRequest where
  method : HttpMethod
  version : UInt8
  close : Bool
  path : List UInt8
  query : List UInt8
  fragment : List UInt8
  body : List UInt8
  headers : MapType

namespace HttpRequest

/-- `HttpRequest(version = 17, close = false)`. -/
def init : HttpRequest where
  method := .GET
  version := 17
  close := false
  path := [47]
  query := []
  fragment := []
  body := []
  headers := OrderedMap.empty

def setHeader (request : HttpRequest) (key value : List UInt8) : HttpRequest :=
  { request with headers := request.headers.assign key value }

def getHeader (request : HttpRequest) (key : List UInt8) : Option (List UInt8) :=
  request.headers.find key

end HttpRequest

structure HttpResponse where
  status : ℕ
  version : UInt8
  close : Bool
  body : List UInt8
  headers : MapType

namespace HttpResponse

/-- `HttpResponse(version = 17, close = false)`. -/
def init : HttpResponse where
  status := 200
  version := 17
  close := false
  body := []
  headers := OrderedMap.empty

def setHeader (response : HttpResponse) (key value : List UInt8) : HttpResponse :=
  { response with headers := response.headers.assign key value }

end HttpResponse

/-! ### The vendored parser -/

/-- The parts of a URL that `on_url` asks `http_parser_parse_url` for. -/
structure UrlFields where
  path : Option (List UInt8)
  query : Option (List UInt8)
  fragment : Option (List UInt8)
  deriving DecidableEq, Repr

/-- A notification of the vendored parser, with what the callbacks read of `http_parser` then. -/
inductive Callback
  | messageBegin
  | url (at_ : List UInt8)
  | status (at_ : List UInt8) (statusCode : ℕ)
  | headerField (at_ : List UInt8)
  | headerValue (at_ : List UInt8)
  | headersComplete (httpMajor httpMinor : ℕ) (method : HttpMethod)
  | body (at_ : List UInt8)
  | messageComplete
  | chunkHeader
  | chunkComplete
  deriving DecidableEq, Repr

/-- The vendored `http_parser`. `execute settings data (parser, user)` returns the number of bytes
parsed with the parser and the user data afterwards; `settings` is what the callbacks do to the user
data and the number they return. -/
structure HttpParserLibrary where
  Parser : Type
  init : Parser
  execute : {σ : Type} → (Callback → σ → ℕ × σ) → List UInt8 → Parser × σ → ℕ × Parser × σ
  errno : Parser → ℕ
  parseUrl : List UInt8 → Option UrlFields

/-! ### `HttpRequestParser` -/

/-- The members of `HttpRequestParser` that its callbacks change. -/
structure RequestTarget where
  data : HttpRequest
  finished : Bool
  currField : List UInt8

namespace RequestTarget

def init : RequestTarget := ⟨HttpRequest.init, false, []⟩

/-- The callback `on_url`. -/
def onUrl (parseUrl : List UInt8 → Option UrlFields) (at_ : List UInt8) (target : RequestTarget) :
    ℕ × RequestTarget :=
  match parseUrl at_ with
  | none => (1, target)
  | some fields =>
    (0, { target with
      data := { target.data with
        path := fields.path.getD target.data.path
        query := fields.query.getD target.data.query
        fragment := fields.fragment.getD target.data.fragment } })

/-- The callbacks of `HttpRequestParser`: the returned number and what they leave. -/
def onCallback (parseUrl : List UInt8 → Option UrlFields) (callback : Callback)
    (target : RequestTarget) : ℕ × RequestTarget :=
  match callback with
  | .url at_ => target.onUrl parseUrl at_
  | .headerField at_ => (0, { target with currField := at_ })
  | .headerValue at_ => (0, { target with data := target.data.setHeader target.currField at_ })
  | .body at_ => (0, { target with data := { target.data with body := at_ } })
  | .headersComplete httpMajor httpMinor method =>
    (0, { target with
      data := { target.data with
        version := UInt8.ofNat ((httpMajor <<< 4) ||| httpMinor)
        method := method } })
  | .messageComplete => (0, { target with finished := true })
  | .messageBegin | .status _ _ | .chunkHeader | .chunkComplete => (0, target)

end RequestTarget

/-- `HttpRequestParser`. -/
structure HttpRequestParser (lib : HttpParserLibrary) where
  parser : lib.Parser
  target : RequestTarget

namespace HttpRequestParser

variable (lib : HttpParserLibrary)

/-- The constructor. -/
def init : HttpRequestParser lib := ⟨lib.init, RequestTarget.init⟩

variable {lib}

/-- `execute(data, len)`. -/
def execute (parser : HttpRequestParser lib) (data : List UInt8) : ℕ × HttpRequestParser lib :=
  let (nparsed, state, target) :=
    lib.execute (RequestTarget.onCallback lib.parseUrl) data (parser.parser, parser.target)
  (nparsed, ⟨state, target⟩)

def getData (parser : HttpRequestParser lib) : HttpRequest := parser.target.data

def error (parser : HttpRequestParser lib) : ℕ := lib.errno parser.parser

def finished (parser : HttpRequestParser lib) : Bool := parser.target.finished

end HttpRequestParser

/-! ### `HttpResponseParser` -/

/-- The members of `HttpResponseParser` that its callbacks change. -/
structure ResponseTarget where
  data : HttpResponse
  currField : List UInt8

/-- `on_headers_complete` of `HttpResponseParser` casts the parser to `HttpRequestParser` and writes
to the `HttpResponse` as if it were an `HttpRequest`, which is undefined behaviour. -/
inductive TypeConfusion
  | responseAsRequest
  deriving DecidableEq, Repr

namespace ResponseTarget

def init : ResponseTarget := ⟨HttpResponse.init, []⟩

/-- The callbacks of `HttpResponseParser`. All of them that return, return zero. -/
def onCallback (callback : Callback) (target : ResponseTarget) :
    Except TypeConfusion ResponseTarget :=
  match callback with
  | .status _ statusCode => .ok { target with data := { target.data with status := statusCode } }
  | .headerField at_ => .ok { target with currField := at_ }
  | .headerValue at_ => .ok { target with data := target.data.setHeader target.currField at_ }
  | .body at_ => .ok { target with data := { target.data with body := at_ } }
  | .headersComplete _ _ _ => .error .responseAsRequest
  | .messageBegin | .url _ | .messageComplete | .chunkHeader | .chunkComplete => .ok target

end ResponseTarget

end Cczoe.Http
