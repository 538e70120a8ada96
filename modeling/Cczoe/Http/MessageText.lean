import Cczoe.Http.ParserCallbacks

/-!
# The text of HTTP messages

`HttpRequest::dump` and `HttpResponse::dump` of `http.cpp`, with the names of the methods and the
reason phrases they write. A dump is the list of bytes sent to the stream.

`lines` cuts a text at its line breaks, and `headerLines` are the lines between the first one and
the first empty one.
-/

set_option autoImplicit false
set_option relaxedAutoImplicit false

namespace Cczoe.Http

open Foundations

/-! ### Writing -/

/-- The bytes of an ASCII text. -/
def ascii (text : String) : List UInt8 := text.toList.map fun c ↦ UInt8.ofNat c.toNat

/-- A number as the stream writes it. -/
def decimal (n : ℕ) : List UInt8 := (Nat.toDigits 10 n).map fun c ↦ UInt8.ofNat c.toNat

def crlf : List UInt8 := [13, 10]

/-- `httpMethodToString` -/
def httpMethodToString : HttpMethod → String
  | .DELETE => "DELETE"
  | .GET => "GET"
  | .HEAD => "HEAD"
  | .POST => "POST"
  | .PUT => "PUT"
  | .CONNECT => "CONNECT"
  | .OPTIONS => "OPTIONS"
  | .TRACE => "TRACE"
  | .COPY => "COPY"
  | .LOCK => "LOCK"
  | .MKCOL => "MKCOL"
  | .MOVE => "MOVE"
  | .PROPFIND => "PROPFIND"
  | .PROPPATCH => "PROPPATCH"
  | .SEARCH => "SEARCH"
  | .UNLOCK => "UNLOCK"
  | .BIND => "BIND"
  | .REBIND => "REBIND"
  | .UNBIND => "UNBIND"
  | .ACL => "ACL"
  | .REPORT => "REPORT"
  | .MKACTIVITY => "MKACTIVITY"
  | .CHECKOUT => "CHECKOUT"
  | .MERGE => "MERGE"
  | .MSEARCH => "M-SEARCH"
  | .NOTIFY => "NOTIFY"
  | .SUBSCRIBE => "SUBSCRIBE"
  | .UNSUBSCRIBE => "UNSUBSCRIBE"
  | .PATCH => "PATCH"
  | .PURGE => "PURGE"
  | .MKCALENDAR => "MKCALENDAR"
  | .LINK => "LINK"
  | .UNLINK => "UNLINK"
  | .SOURCE => "SOURCE"

/-- `httpStatusToString`; nothing for a number that is no status, where it throws. -/
def httpStatusToString : ℕ → Option String
  | 100 => some "Continue"
  | 101 => some "Switching Protocols"
  | 102 => some "Processing"
  | 200 => some "OK"
  | 201 => some "Created"
  | 202 => some "Accepted"
  | 203 => some "Non-Authoritative Information"
  | 204 => some "No Content"
  | 205 => some "Reset Content"
  | 206 => some "Partial Content"
  | 207 => some "Multi-Status"
  | 208 => some "Already Reported"
  | 226 => some "IM Used"
  | 300 => some "Multiple Choices"
  | 301 => some "Moved Permanently"
  | 302 => some "Found"
  | 303 => some "See Other"
  | 304 => some "Not Modified"
  | 305 => some "Use Proxy"
  | 307 => some "Temporary Redirect"
  | 308 => some "Permanent Redirect"
  | 400 => some "Bad Request"
  | 401 => some "Unauthorized"
  | 402 => some "Payment Required"
  | 403 => some "Forbidden"
  | 404 => some "Not Found"
  | 405 => some "Method Not Allowed"
  | 406 => some "Not Acceptable"
  | 407 => some "Proxy Authentication Required"
  | 408 => some "Request Timeout"
  | 409 => some "Conflict"
  | 410 => some "Gone"
  | 411 => some "Length Required"
  | 412 => some "Precondition Failed"
  | 413 => some "Payload Too Large"
  | 414 => some "URI Too Long"
  | 415 => some "Unsupported Media Type"
  | 416 => some "Range Not Satisfiable"
  | 417 => some "Expectation Failed"
  | 421 => some "Misdirected Request"
  | 422 => some "Unprocessable Entity"
  | 423 => some "Locked"
  | 424 => some "Failed Dependency"
  | 426 => some "Upgrade Required"
  | 428 => some "Precondition Required"
  | 429 => some "Too Many Requests"
  | 431 => some "Request Header Fields Too Large"
  | 451 => some "Unavailable For Legal Reasons"
  | 500 => some "Internal Server Error"
  | 501 => some "Not Implemented"
  | 502 => some "Bad Gateway"
  | 503 => some "Service Unavailable"
  | 504 => some "Gateway Timeout"
  | 505 => some "HTTP Version Not Supported"
  | 506 => some "Variant Also Negotiates"
  | 507 => some "Insufficient Storage"
  | 508 => some "Loop Detected"
  | 510 => some "Not Extended"
  | 511 => some "Network Authentication Required"
  | _ => none

/-- `HttpRequest::dump` -/
def HttpRequest.dump (request : HttpRequest) : List UInt8 :=
  ascii (httpMethodToString request.method) ++ ascii " " ++ request.path ++
    (if request.query ≠ [] then ascii "?" ++ request.query else []) ++
    (if request.fragment ≠ [] then ascii "#" ++ request.fragment else []) ++
    ascii " HTTP/" ++ decimal (request.version >>> 4).toNat ++ ascii "." ++
    decimal (request.version &&& 0x0F).toNat ++ crlf ++
    (if request.close then ascii "connection: close" else ascii "connection: keep-alive") ++ crlf ++
    request.headers.entries.flatMap (fun header ↦ header.1 ++ ascii ": " ++ header.2 ++ crlf) ++
    if request.body ≠ [] then
      if request.headers.find (ascii "Content-Length") = none then
        ascii "Content-Length: " ++ decimal request.body.length ++ crlf ++ crlf ++ request.body
      else crlf ++ request.body
    else crlf

namespace HttpResponse

/-- `HttpResponse(version, close)` -/
def ofVersion (version : UInt8) (close : Bool) : HttpResponse :=
  { HttpResponse.init with version := version, close := close }

def setBody (response : HttpResponse) (body : List UInt8) : HttpResponse :=
  { response with body := body }

/-- `HttpResponse::dump`; nothing when the status has no reason phrase. -/
def dump (response : HttpResponse) : Option (List UInt8) :=
  (httpStatusToString response.status).map fun reason ↦
    ascii "HTTP/" ++ decimal (response.version >>> 4).toNat ++ ascii "." ++
      decimal (response.version &&& 0x0F).toNat ++ ascii " " ++ decimal response.status ++
      ascii " " ++ ascii reason ++ crlf ++
      (if response.headers.find (ascii "connection") = none then
        (if response.close then ascii "Connection: close"
          else ascii "Connection: keep-alive") ++ crlf
      else []) ++
      response.headers.entries.flatMap (fun header ↦ header.1 ++ ascii ": " ++ header.2 ++ crlf) ++
      if response.body ≠ [] then
        ascii "content-length: " ++ decimal response.body.length ++ crlf ++ crlf ++ response.body
      else crlf

end HttpResponse

/-! ### Reading lines -/

/-- The lines of a text, cut at every line break. -/
def lines : List UInt8 → List (List UInt8)
  | [] => [[]]
  | 13 :: 10 :: rest => [] :: lines rest
  | c :: rest =>
    match lines rest with
    | [] => [[c]]
    | first :: others => (c :: first) :: others

/-- The header lines of a message. -/
def headerLines (text : List UInt8) : List (List UInt8) :=
  (lines text).tail.takeWhile (· ≠ [])

/-- Assumes: a line without carriage return. It is the first line of a text that starts with it. -/
theorem lines_append {line : List UInt8} (hline : ∀ c ∈ line, c ≠ 13) (rest : List UInt8) :
    lines (line ++ (crlf ++ rest)) = line :: lines rest := by
  induction line with
  | nil => rfl
  | cons c others ih =>
    obtain ⟨hc, hothers⟩ := List.forall_mem_cons.mp hline
    have hcons : lines (c :: (others ++ (crlf ++ rest))) =
        match lines (others ++ (crlf ++ rest)) with
        | [] => [[c]]
        | first :: more => (c :: first) :: more := by
      rw [lines]
      intro tail hcr
      exact absurd hcr hc
    rw [List.cons_append, hcons, ih hothers]

/-- Assumes: every byte passes a test. So does every member. -/
theorem forall_mem_of_all {property : UInt8 → Prop} [DecidablePred property] {text : List UInt8}
    (hall : (text.all fun c ↦ decide (property c)) = true) : ∀ c ∈ text, property c :=
  fun c hc ↦ of_decide_eq_true (List.all_eq_true.mp hall c hc)

/-- A number is written with digits. -/
theorem digit_of_mem_decimal {n : ℕ} {c : UInt8} (hc : c ∈ decimal n) : 48 ≤ c ∧ c ≤ 57 := by
  obtain ⟨digit, hdigit, rfl⟩ := List.mem_map.mp hc
  have hrange : 48 ≤ digit.toNat ∧ digit.toNat ≤ 57 := by
    have hisDigit := Nat.isDigit_of_mem_toDigits (by decide) (by decide) hdigit
    simpa [Char.isDigit, UInt32.le_iff_toNat_le] using hisDigit
  have hnat : (UInt8.ofNat digit.toNat).toNat = digit.toNat := by
    rw [UInt8.toNat_ofNat']
    omega
  rw [UInt8.le_iff_toNat_le, UInt8.le_iff_toNat_le, hnat]
  exact hrange

end Cczoe.Http
