import Cczoe.Foundations.ByteNumerals
import Cczoe.Http.DumpRoundTrip
import Cczoe.Http.FragmentedMessages

/-!
# Responses read by `HttpResponseParser`

`HttpResponseParser` of `HttpParser.cpp` over the vendored parser. Its `on_headers_complete` is a
copy of that of `HttpRequestParser`, with the cast to `HttpRequestParser`. To the language the write
through it is undefined behaviour. What the compiled code writes follows from where the members of
the two classes lie: the version goes to the first byte of `m_body` and the method to `m_status`
(`headersCompleteAsRequest_effect`), and `m_version` keeps its default.

`response_never_parsed` says that no response is stored with its status and its version, by either
reading of that write.
-/

set_option autoImplicit false
set_option relaxedAutoImplicit false

namespace Cczoe.Http

open Foundations ByteNumerals

/-! ### `HttpResponseParser` -/

/-- `HttpResponseParser`. Behind undefined behaviour it has no members. -/
structure HttpResponseParser (lib : HttpParserLibrary) where
  parser : lib.Parser
  target : Except TypeConfusion ResponseTarget

namespace HttpResponseParser

variable (lib : HttpParserLibrary)

/-- The constructor. -/
def init : HttpResponseParser lib := ⟨lib.init, .ok ResponseTarget.init⟩

/-- The settings of the constructor: the number that a callback returns and what it leaves. -/
def settings (callback : Callback) (target : Except TypeConfusion ResponseTarget) :
    ℕ × Except TypeConfusion ResponseTarget :=
  (0, target >>= fun now ↦ now.onCallback callback)

variable {lib}

/-- `execute(data, len)`. -/
def execute (parser : HttpResponseParser lib) (data : List UInt8) : ℕ × HttpResponseParser lib :=
  let (nparsed, state, target) := lib.execute settings data (parser.parser, parser.target)
  (nparsed, ⟨state, target⟩)

/-- Consecutive buffers, one `execute` each. -/
def consume (parser : HttpResponseParser lib) (buffers : List (List UInt8)) :
    HttpResponseParser lib :=
  buffers.foldl (fun now data ↦ (now.execute data).2) parser

def getData (parser : HttpResponseParser lib) : Except TypeConfusion HttpResponse :=
  parser.target.map fun target ↦ target.data

end HttpResponseParser

/-- The number that stands for a version in a request and in a response. -/
def versionByte (httpMajor httpMinor : ℕ) : UInt8 := UInt8.ofNat ((httpMajor <<< 4) ||| httpMinor)

/-- Given the buffers one after the other, a new parser makes the callbacks of the response, in
their order and with what its status line says. -/
def Delivers (lib : HttpParserLibrary) (buffers : List (List UInt8)) (delivery : Delivery) : Prop :=
  ∀ (σ : Type) (settings : Callback → σ → ℕ × σ) (user after : σ),
    runCallbacks settings (delivery.callbacks .response) user = some after →
      (buffers.foldl (fun now data ↦ (lib.execute settings data now).2) (lib.init, user)).2 = after

/-- The response has the status code and the version of the status line, and the end of the header
block changes nothing else of it. -/
structure ResponseParsed (lib : HttpParserLibrary) (buffers : List (List UInt8))
    (delivery : Delivery) : Prop where
  status_line : ∃ response,
    ((HttpResponseParser.init lib).consume buffers).getData = .ok response ∧
      response.status = delivery.statusCode ∧
      response.version = versionByte delivery.httpMajor delivery.httpMinor
  frame : ∀ before, deliverResponse ResponseTarget.init
      (delivery.opening .response ++ Delivery.block delivery.headers) = .ok before →
    ∃ after, before.onCallback
        (.headersComplete delivery.httpMajor delivery.httpMinor delivery.method) = .ok after ∧
      after.currField = before.currField ∧
      after.data = { before.data with status := after.data.status, version := after.data.version }

/-! ### Objects in memory -/

/-- The bytes of an object, by their offsets. -/
abbrev ObjectBytes := ℕ → UInt8

namespace ObjectBytes

/-- `size` bytes from an offset on. -/
def read (bytes : ObjectBytes) (offset size : ℕ) : List UInt8 :=
  (List.range size).map fun i ↦ bytes (offset + i)

/-- The bytes of `stored` put at an offset. -/
def write (bytes : ObjectBytes) (offset : ℕ) (stored : List UInt8) : ObjectBytes := fun at_ ↦
  if offset ≤ at_ then (stored[at_ - offset]?).getD (bytes at_) else bytes at_

theorem length_read (bytes : ObjectBytes) (offset size : ℕ) :
    (bytes.read offset size).length = size := by
  rw [read, List.length_map, List.length_range]

/-- What was stored is read back. -/
theorem read_write (bytes : ObjectBytes) (offset : ℕ) (stored : List UInt8) :
    (bytes.write offset stored).read offset stored.length = stored := by
  apply List.ext_getElem
  · exact length_read _ _ _
  · intro i hread hstored
    simp only [read, List.getElem_map, List.getElem_range, write, Nat.le_add_right, if_true,
      Nat.add_sub_cancel_left, List.getElem?_eq_getElem hstored, Option.getD_some]

/-- Assumes: bytes beside the stored ones. They are as they were. -/
theorem read_write_of_disjoint {offset at_ size : ℕ} {stored : List UInt8}
    (hdisjoint : at_ + size ≤ offset ∨ offset + stored.length ≤ at_) (bytes : ObjectBytes) :
    (bytes.write offset stored).read at_ size = bytes.read at_ size := by
  apply List.map_congr_left
  intro i hi
  have hlt := List.mem_range.mp hi
  unfold write
  split_ifs with hle
  · have hnone : stored[at_ + i - offset]? = none := by
      apply List.getElem?_eq_none
      omega
    rw [hnone, Option.getD_none]
  · rfl

end ObjectBytes

/-- A member of a class, by its size and its alignment. -/
structure Member where
  size : ℕ
  align : ℕ

namespace Member

/-- An enumeration without a type of its own, which is an `int`. -/
def enumeration : Member := ⟨4, 4⟩

/-- A `uint8_t` or a `bool`. -/
def byte : Member := ⟨1, 1⟩

/-- A `std::string`: the pointer to its characters, its length and a buffer of sixteen bytes. -/
def string : Member := ⟨32, 8⟩

/-- A `std::map`. -/
def map : Member := ⟨48, 8⟩

end Member

/-- The members of a class in their order, from the first free byte on: each at the next multiple of
its alignment. -/
def offsets : ℕ → List Member → List ℕ
  | _, [] => []
  | free, member :: rest =>
    let offset := (free + member.align - 1) / member.align * member.align
    offset :: offsets (offset + member.size) rest

inductive RequestField
  | method | status | version | close | path | query | fragment | body | headers | params | cookies
  deriving DecidableEq, Repr

namespace RequestField

def member : RequestField → Member
  | method | status => Member.enumeration
  | version | close => Member.byte
  | path | query | fragment | body => Member.string
  | headers | params | cookies => Member.map

/-- The members in the order of `HttpRequest`. -/
def all : List RequestField :=
  [method, status, version, close, path, query, fragment, body, headers, params, cookies]

def offset (field : RequestField) : ℕ :=
  (offsets 0 (all.map member)).getD (all.idxOf field) 0

end RequestField

inductive ResponseField
  | status | version | close | body | reason | headers
  deriving DecidableEq, Repr

namespace ResponseField

def member : ResponseField → Member
  | status => Member.enumeration
  | version | close => Member.byte
  | body | reason => Member.string
  | headers => Member.map

/-- The members in the order of `HttpResponse`. -/
def all : List ResponseField := [status, version, close, body, reason, headers]

def offset (field : ResponseField) : ℕ :=
  (offsets 0 (all.map member)).getD (all.idxOf field) 0

/-- The bytes of a member. -/
def read (field : ResponseField) (bytes : ObjectBytes) : List UInt8 :=
  bytes.read field.offset field.member.size

end ResponseField

/-- The method of a request and the status of a response lie at one offset, and the version of a
request lies where the body of a response begins. -/
theorem offset_confused :
    RequestField.offset .method = ResponseField.offset .status ∧
      RequestField.offset .version = ResponseField.offset .body := ⟨rfl, rfl⟩

/-- `on_headers_complete` on the bytes of an `HttpResponse`, with `setVersion` and `setMethod` of
`HttpRequest`. -/
def headersCompleteAsRequest (httpMajor httpMinor : ℕ) (method : HttpMethod)
    (bytes : ObjectBytes) : ObjectBytes :=
  (bytes.write (RequestField.offset .version) [versionByte httpMajor httpMinor]).write
    (RequestField.offset .method) (littleEndian 4 method.ctorIdx)

/-- The status is the number of the method, the first byte of the body is the version, and all other
members are as they were, the version among them. -/
theorem headersCompleteAsRequest_effect (httpMajor httpMinor : ℕ) (method : HttpMethod)
    (bytes : ObjectBytes) :
    let after := headersCompleteAsRequest httpMajor httpMinor method bytes
    ResponseField.read .status after = littleEndian 4 method.ctorIdx ∧
      (ResponseField.read .body after).head? = some (versionByte httpMajor httpMinor) ∧
      ∀ field : ResponseField, field ≠ .status → field ≠ .body →
        field.read after = field.read bytes := by
  have hlength : (littleEndian 4 method.ctorIdx).length = 4 := length_littleEndian _ _
  refine ⟨?_, ?_, ?_⟩
  · have hread := ObjectBytes.read_write
      (bytes.write (RequestField.offset .version) [versionByte httpMajor httpMinor])
      (RequestField.offset .method) (littleEndian 4 method.ctorIdx)
    rw [hlength] at hread
    exact hread
  · have hbody : ResponseField.read .body
        (headersCompleteAsRequest httpMajor httpMinor method bytes) =
        ResponseField.read .body
          (bytes.write (RequestField.offset .version) [versionByte httpMajor httpMinor]) := by
      apply ObjectBytes.read_write_of_disjoint
      rw [hlength]
      decide
    rw [hbody]
    rfl
  · intro field hstatus hbody
    have hmethod : (headersCompleteAsRequest httpMajor httpMinor method bytes).read field.offset
        field.member.size =
        (bytes.write (RequestField.offset .version) [versionByte httpMajor httpMinor]).read
          field.offset field.member.size := by
      apply ObjectBytes.read_write_of_disjoint
      rw [hlength]
      revert hstatus
      cases field <;> decide
    have hversion : (bytes.write (RequestField.offset .version)
        [versionByte httpMajor httpMinor]).read field.offset field.member.size =
        bytes.read field.offset field.member.size := by
      apply ObjectBytes.read_write_of_disjoint
      rw [List.length_singleton]
      revert hbody
      cases field <;> decide
    exact hmethod.trans hversion

/-- An `HttpResponse` as it is when its header block is complete. No callback has touched its
version, which is the default of the constructor, nor its body: that is empty, so its pointer is the
address of a buffer in the object, which is a multiple of eight as that of the object. -/
structure ResponseObject where
  bytes : ObjectBytes
  version_default : ResponseField.read .version bytes = [17]
  body_aligned : ∀ low ∈ (ResponseField.read .body bytes).head?, 8 ∣ low.toNat

instance : Inhabited ResponseObject where
  default :=
    { bytes := ObjectBytes.write (fun _ ↦ 0) (ResponseField.offset .version) [17]
      version_default := rfl
      body_aligned := by
        intro low hlow
        obtain rfl : (0 : UInt8) = low := Option.some.inj hlow
        exact dvd_zero 8 }

/-- The end of the header block leaves the status code and the version of the status line, and all
other members as they were. -/
structure ResponseObject.KeptBy (object : ResponseObject) (delivery : Delivery) : Prop where
  status_eq : ResponseField.read .status (headersCompleteAsRequest delivery.httpMajor
    delivery.httpMinor delivery.method object.bytes) = littleEndian 4 delivery.statusCode
  version_eq : ResponseField.read .version (headersCompleteAsRequest delivery.httpMajor
    delivery.httpMinor delivery.method object.bytes) =
      [versionByte delivery.httpMajor delivery.httpMinor]
  frame : ∀ field : ResponseField, field ≠ .status → field ≠ .version →
    field.read (headersCompleteAsRequest delivery.httpMajor delivery.httpMinor delivery.method
      object.bytes) = field.read object.bytes

/-- The version is right only when its number is the default, that of HTTP/1.1. This is no multiple
of eight, so the body loses its pointer then. -/
theorem ResponseObject.not_keptBy (object : ResponseObject) (delivery : Delivery) :
    ¬ object.KeptBy delivery := by
  rintro ⟨_, hversion, hframe⟩
  obtain ⟨_, hpointer, hothers⟩ := headersCompleteAsRequest_effect delivery.httpMajor
    delivery.httpMinor delivery.method object.bytes
  rw [hothers .version nofun nofun, object.version_default] at hversion
  rw [hframe .body nofun nofun, ← List.head_eq_of_cons_eq hversion] at hpointer
  exact absurd (object.body_aligned 17 hpointer) (by decide)

/-! ### No response is parsed -/

/-- The callbacks never stop a response. -/
theorem runCallbacks_settings (callbacks : List Callback)
    (target : Except TypeConfusion ResponseTarget) :
    runCallbacks HttpResponseParser.settings callbacks target =
      some (target >>= fun now ↦ deliverResponse now callbacks) := by
  induction callbacks generalizing target with
  | nil => cases target <;> rfl
  | cons callback rest ih =>
    have hzero : (HttpResponseParser.settings callback target).1 = 0 := rfl
    rw [runCallbacks, if_pos hzero, ih]
    cases target <;> rfl

/-- Consecutive calls of `execute` are those of the vendored parser with the settings. -/
theorem target_consume {lib : HttpParserLibrary} (buffers : List (List UInt8))
    (parser : HttpResponseParser lib) :
    (parser.consume buffers).target =
      (buffers.foldl (fun now data ↦ (lib.execute HttpResponseParser.settings data now).2)
        (parser.parser, parser.target)).2 := by
  induction buffers generalizing parser with
  | nil => rfl
  | cons data rest ih => exact ih (parser.execute data).2

/-- Assumes: the response is delivered. Nothing is left of it. -/
theorem getData_consume {lib : HttpParserLibrary} {buffers : List (List UInt8)}
    {delivery : Delivery} (hdelivers : Delivers lib buffers delivery) :
    ((HttpResponseParser.init lib).consume buffers).getData = .error .responseAsRequest := by
  have hcomplete : Callback.headersComplete delivery.httpMajor delivery.httpMinor
      delivery.method ∈ delivery.callbacks .response := by
    simp [Delivery.callbacks, Delivery.middle]
  have hrun := runCallbacks_settings (delivery.callbacks .response) (.ok ResponseTarget.init)
  have htarget := hdelivers _ _ _ _ hrun
  have hconfused : (Except.ok ResponseTarget.init >>= fun now ↦
      deliverResponse now (delivery.callbacks .response)) = .error .responseAsRequest :=
    deliverResponse_headersComplete hcomplete ResponseTarget.init
  rw [HttpResponseParser.getData, target_consume]
  rw [hconfused] at htarget
  exact congrArg (Except.map fun target : ResponseTarget ↦ target.data) htarget

theorem not_responseParsed {lib : HttpParserLibrary} {buffers : List (List UInt8)}
    {delivery : Delivery} (hdelivers : Delivers lib buffers delivery) :
    ¬ ResponseParsed lib buffers delivery := by
  rintro ⟨⟨response, hresponse, _⟩, _⟩
  rw [getData_consume hdelivers] at hresponse
  cases hresponse

/-- Assumes: the vendored parser delivers the response. It is not parsed with its status line and
nothing else changed: to the language there is no response after the end of the header block, and
the bytes that the compiled code writes there are not those of the status line in any object. -/
theorem response_never_parsed {lib : HttpParserLibrary} {buffers : List (List UInt8)}
    {delivery : Delivery} (hdelivers : Delivers lib buffers delivery) :
    ¬ ResponseParsed lib buffers delivery ∧
      ∀ object : ResponseObject, ¬ object.KeptBy delivery :=
  ⟨not_responseParsed hdelivers, fun object ↦ object.not_keptBy delivery⟩

/-! ### A response with a body of two bytes -/

/-- A parser for one response and nothing else. -/
def scriptedResponse (text : List UInt8) (delivery : Delivery) : HttpParserLibrary where
  Parser := Bool
  init := false
  execute := fun settings data state ↦
    if data = text then
      match runCallbacks settings (delivery.callbacks .response) state.2 with
      | some after => (data.length, false, after)
      | none => (0, true, state.2)
    else (0, true, state.2)
  errno := fun failed ↦ if failed then 1 else 0
  parseUrl := fun _ ↦ none

theorem delivers_scriptedResponse (text : List UInt8) (delivery : Delivery) :
    Delivers (scriptedResponse text delivery) [text] delivery := by
  intro σ settings user after hcalls
  simp only [List.foldl_cons, List.foldl_nil, scriptedResponse, if_true, hcalls]

/-- A response `HTTP/1.1 200 OK`, as a text. -/
def okText : List UInt8 :=
  ascii "HTTP/1.1 200 OK" ++ crlf ++ ascii "Content-Length: 2" ++ crlf ++ crlf ++ ascii "hi"

/-- The same response, as it is delivered. -/
def okDelivery : Delivery where
  firstLine := [ascii "OK"]
  statusCode := 200
  headers := [⟨[ascii "Content-Length"], [ascii "2"], by decide, by decide⟩]
  httpMajor := 1
  httpMinor := 1
  method := .DELETE
  body := [.data (ascii "hi")]
  trailers := []

theorem okText_never_parsed :
    ¬ ResponseParsed (scriptedResponse okText okDelivery) [okText] okDelivery ∧
      ∀ object : ResponseObject, ¬ object.KeptBy okDelivery :=
  response_never_parsed (delivers_scriptedResponse okText okDelivery)

/-- The response is delivered and not parsed. -/
theorem okText_not_parsed :
    Delivers (scriptedResponse okText okDelivery) [okText] okDelivery ∧
      ¬ ResponseParsed (scriptedResponse okText okDelivery) [okText] okDelivery :=
  ⟨delivers_scriptedResponse okText okDelivery,
    not_responseParsed (delivers_scriptedResponse okText okDelivery)⟩

end Cczoe.Http
