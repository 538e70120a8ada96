import Cczoe.Http.ParserCallbacks

/-!
# Messages delivered in fragments

The vendored parser reports a URL, a header name, a header value or a body in one or more
consecutive fragments, one callback each. A `Delivery` is a message with its fragments: what a split
of the message over several `execute` calls, or a chunked body, makes of it.

The callbacks of `HttpRequestParser` treat every fragment as the whole element. `fragmentsKept_iff`
says exactly when nothing is lost by that: all fragments of an element but its last one are empty,
and every fragment of the URL is a URL, unless there is nothing behind the URL to lose. A response
is never delivered, since `on_headers_complete` of `HttpResponseParser` writes through the wrong
type.
-/

set_option autoImplicit false
set_option relaxedAutoImplicit false

namespace Cczoe.Http

open Foundations

/-! ### Deliveries -/

/-- `enum http_parser_type`, as far as the two parsers use it. -/
inductive MessageKind
  | request
  | response
  deriving DecidableEq, Repr

/-- A header with the fragments of its name and of its value. Each has a fragment, which is empty
when the element is. -/
structure HeaderFragments where
  name : List (List UInt8)
  value : List (List UInt8)
  name_ne : name ≠ []
  value_ne : value ≠ []

/-- The callbacks of a header. -/
def HeaderFragments.callbacks (header : HeaderFragments) : List Callback :=
  header.name.map .headerField ++ header.value.map .headerValue

/-- The header with one fragment for its name and one for its value. -/
def HeaderFragments.joined (header : HeaderFragments) : HeaderFragments :=
  ⟨[header.name.flatten], [header.value.flatten], List.cons_ne_nil _ _, List.cons_ne_nil _ _⟩

/-- A piece of a body: a fragment of its data, or a notification around a chunk. -/
inductive BodyPiece
  | chunkHeader
  | data (at_ : List UInt8)
  | chunkComplete
  deriving DecidableEq, Repr

namespace BodyPiece

def callback : BodyPiece → Callback
  | chunkHeader => .chunkHeader
  | data at_ => .body at_
  | chunkComplete => .chunkComplete

def fragment? : BodyPiece → Option (List UInt8)
  | data at_ => some at_
  | chunkHeader | chunkComplete => none

end BodyPiece

/-- A message as the vendored parser reports it. The first line brings fragments of the URL of a
request or of the status text of a response; trailers are the headers behind a chunked body. -/
structure Delivery where
  firstLine : List (List UInt8)
  statusCode : ℕ
  headers : List HeaderFragments
  httpMajor : ℕ
  httpMinor : ℕ
  method : HttpMethod
  body : List BodyPiece
  trailers : List HeaderFragments

namespace Delivery

/-- The callbacks in front of the header block. -/
def opening (kind : MessageKind) (delivery : Delivery) : List Callback :=
  .messageBegin :: delivery.firstLine.map fun at_ ↦
    match kind with
    | .request => .url at_
    | .response => .status at_ delivery.statusCode

/-- The callbacks between the header block and the trailers. -/
def middle (delivery : Delivery) : List Callback :=
  .headersComplete delivery.httpMajor delivery.httpMinor delivery.method ::
    delivery.body.map BodyPiece.callback

/-- The callbacks of a header block. -/
def block (headers : List HeaderFragments) : List Callback :=
  headers.flatMap HeaderFragments.callbacks

/-- All callbacks in order. -/
def callbacks (kind : MessageKind) (delivery : Delivery) : List Callback :=
  delivery.opening kind ++ block delivery.headers ++ delivery.middle ++ block delivery.trailers ++
    [.messageComplete]

/-- The fragments of the body. -/
def bodyFragments (delivery : Delivery) : List (List UInt8) :=
  delivery.body.filterMap BodyPiece.fragment?

/-- The header map of the message: every name and every value is the concatenation of its
fragments. -/
def headerMap (delivery : Delivery) : MapType :=
  (delivery.headers ++ delivery.trailers).foldl
    (fun map header ↦ map.assign header.name.flatten header.value.flatten) OrderedMap.empty

end Delivery

/-! ### Delivering -/

section Request

variable (parseUrl : List UInt8 → Option UrlFields)

/-- The callbacks of a request, up to the first one that returns an error. The state is the number
returned last and what the callbacks left. -/
def deliver (state : ℕ × RequestTarget) (callbacks : List Callback) : ℕ × RequestTarget :=
  callbacks.foldl
    (fun now callback ↦ if now.1 = 0 then now.2.onCallback parseUrl callback else now) state

/-- At the end of every header, the current field is the name of the header and its value is stored
under it. -/
def HeadersKept : ℕ × RequestTarget → List HeaderFragments → Prop
  | _, [] => True
  | state, header :: rest =>
    let after := deliver parseUrl state header.callbacks
    after.2.currField = header.name.flatten ∧
      after.2.data.getHeader header.name.flatten = some header.value.flatten ∧
      HeadersKept after rest

/-- What a request is when it has been delivered in fragments: every name, every value and the body
are the concatenations of their fragments. -/
structure RequestKept (delivery : Delivery) : Prop where
  headers_kept : HeadersKept parseUrl
    (deliver parseUrl (0, RequestTarget.init) (delivery.opening .request)) delivery.headers
  trailers_kept : HeadersKept parseUrl
    (deliver parseUrl (0, RequestTarget.init)
      (delivery.opening .request ++ Delivery.block delivery.headers ++ delivery.middle))
    delivery.trailers
  headers_eq : (deliver parseUrl (0, RequestTarget.init)
    (delivery.callbacks .request)).2.data.headers = delivery.headerMap
  body_eq : (deliver parseUrl (0, RequestTarget.init)
    (delivery.callbacks .request)).2.data.body = delivery.bodyFragments.flatten

end Request

/-- The callbacks of a response. -/
def deliverResponse (target : ResponseTarget) (callbacks : List Callback) :
    Except TypeConfusion ResponseTarget :=
  callbacks.foldlM (fun now callback ↦ now.onCallback callback) target

/-- What a response is when it has been delivered in fragments. -/
def ResponseKept (delivery : Delivery) : Prop :=
  ∃ final, deliverResponse ResponseTarget.init (delivery.callbacks .response) = .ok final ∧
    final.data.headers = delivery.headerMap ∧ final.data.body = delivery.bodyFragments.flatten

/-- Nothing is lost by the fragments of a message. -/
def FragmentsKept (parseUrl : List UInt8 → Option UrlFields) (kind : MessageKind)
    (delivery : Delivery) : Prop :=
  match kind with
  | .request => RequestKept parseUrl delivery
  | .response => ResponseKept delivery

/-- All fragments but the last one are empty. -/
def LastIsWhole (fragments : List (List UInt8)) : Prop :=
  ∀ fragment ∈ fragments.dropLast, fragment = []

/-- There is nothing behind the first line. -/
def Delivery.Bare (delivery : Delivery) : Prop :=
  delivery.headers = [] ∧ delivery.trailers = [] ∧ delivery.bodyFragments.flatten = []

/-! ### Fragments and concatenations -/

/-- Assumes: at least one fragment. The last one is the concatenation when all others are empty. -/
theorem getLast_eq_flatten_iff {fragments : List (List UInt8)} (hne : fragments ≠ []) :
    fragments.getLast hne = fragments.flatten ↔ LastIsWhole fragments := by
  have hsplit : fragments.flatten = fragments.dropLast.flatten ++ fragments.getLast hne := by
    conv_lhs => rw [← List.dropLast_append_getLast hne]
    rw [List.flatten_append, List.flatten_singleton]
  rw [hsplit, List.self_eq_append_left, List.flatten_eq_nil_iff]
  rfl

theorem getLastD_eq_flatten_iff (fragments : List (List UInt8)) :
    fragments.getLastD [] = fragments.flatten ↔ LastIsWhole fragments := by
  cases fragments with
  | nil => exact ⟨fun _ _ hmem ↦ absurd hmem List.not_mem_nil, fun _ ↦ rfl⟩
  | cons first rest =>
    rw [← getLast_eq_flatten_iff (List.cons_ne_nil first rest), List.getLastD_cons,
      List.getLast_eq_getLastD]

/-! ### What the callbacks leave -/

section Effects

variable (parseUrl : List UInt8 → Option UrlFields)

theorem deliver_append (state : ℕ × RequestTarget) (first second : List Callback) :
    deliver parseUrl state (first ++ second) =
      deliver parseUrl (deliver parseUrl state first) second := List.foldl_append

/-- Nothing is called after an error. -/
theorem deliver_stopped {state : ℕ × RequestTarget} (hstopped : state.1 ≠ 0)
    (callbacks : List Callback) : deliver parseUrl state callbacks = state := by
  induction callbacks with
  | nil => rfl
  | cons callback rest ih =>
    unfold deliver at ih ⊢
    rw [List.foldl_cons, if_neg hstopped]
    exact ih

/-- The fragments of a URL change neither the headers nor the body. They stop at the first one that
is not a URL. -/
theorem deliver_urls (fragments : List (List UInt8)) (target : RequestTarget) :
    ∃ rt after, deliver parseUrl (0, target) (fragments.map .url) = (rt, after) ∧
      after.data.headers = target.data.headers ∧ after.data.body = target.data.body ∧
      (rt = 0 ↔ ∀ fragment ∈ fragments, (parseUrl fragment).isSome) := by
  induction fragments generalizing target with
  | nil => exact ⟨0, target, rfl, rfl, rfl, by simp⟩
  | cons fragment rest ih =>
    have hcons : deliver parseUrl (0, target) ((fragment :: rest).map .url) =
        deliver parseUrl (target.onUrl parseUrl fragment) (rest.map .url) := rfl
    cases hurl : parseUrl fragment with
    | none =>
      have hfailed : target.onUrl parseUrl fragment = (1, target) := by
        simp only [RequestTarget.onUrl, hurl]
      refine ⟨1, target, ?_, rfl, rfl, ?_⟩
      · rw [hcons, hfailed]
        exact deliver_stopped parseUrl Nat.one_ne_zero _
      · simp [hurl]
    | some fields =>
      obtain ⟨rt, after, hrest, hheaders, hbody, hiff⟩ := ih (target.onUrl parseUrl fragment).2
      have hfields : target.onUrl parseUrl fragment = (0, (target.onUrl parseUrl fragment).2) := by
        simp only [RequestTarget.onUrl, hurl]
      refine ⟨rt, after, ?_, ?_, ?_, ?_⟩
      · rw [hcons, hfields, hrest]
      · rw [hheaders]
        simp only [RequestTarget.onUrl, hurl]
      · rw [hbody]
        simp only [RequestTarget.onUrl, hurl]
      · rw [hiff, List.forall_mem_cons, hurl]
        simp

theorem deliver_names (fragments : List (List UInt8)) (target : RequestTarget) :
    deliver parseUrl (0, target) (fragments.map .headerField) =
      (0, { target with currField := fragments.getLastD target.currField }) := by
  induction fragments generalizing target with
  | nil => rfl
  | cons fragment rest ih =>
    have hcons : deliver parseUrl (0, target) ((fragment :: rest).map .headerField) =
        deliver parseUrl (0, { target with currField := fragment }) (rest.map .headerField) := rfl
    rw [hcons, ih, List.getLastD_cons]

/-- Assumes: at least one fragment. The last one is the value stored. -/
theorem deliver_values {fragments : List (List UInt8)} (hne : fragments ≠ [])
    (target : RequestTarget) :
    deliver parseUrl (0, target) (fragments.map .headerValue) =
      (0, { target with
        data := target.data.setHeader target.currField (fragments.getLast hne) }) := by
  induction fragments generalizing target with
  | nil => exact absurd rfl hne
  | cons fragment rest ih =>
    have hcons : deliver parseUrl (0, target) ((fragment :: rest).map .headerValue) =
        deliver parseUrl
          (0, { target with data := target.data.setHeader target.currField fragment })
          (rest.map .headerValue) := rfl
    cases rest with
    | nil => rfl
    | cons next others =>
      rw [hcons, ih (List.cons_ne_nil next others), List.getLast_cons_cons]
      simp only [HttpRequest.setHeader, OrderedMap.assign_assign]

/-- A header is stored under the last fragment of its name, with the last fragment of its value. -/
theorem deliver_header (header : HeaderFragments) (target : RequestTarget) :
    deliver parseUrl (0, target) header.callbacks =
      (0, { target with
        currField := header.name.getLast header.name_ne
        data := target.data.setHeader (header.name.getLast header.name_ne)
          (header.value.getLast header.value_ne) }) := by
  have hlast : header.name.getLastD target.currField = header.name.getLast header.name_ne := by
    rw [List.getLastD_eq_getLast?, List.getLast?_eq_some_getLast header.name_ne, Option.getD_some]
  rw [HeaderFragments.callbacks, deliver_append, deliver_names, hlast,
    deliver_values parseUrl header.value_ne]

/-- A header block keeps the body and stores the last fragments. -/
theorem deliver_block (headers : List HeaderFragments) (target : RequestTarget) :
    ∃ after, deliver parseUrl (0, target) (Delivery.block headers) = (0, after) ∧
      after.data.body = target.data.body ∧
      after.data.headers = headers.foldl (fun map header ↦
        map.assign (header.name.getLast header.name_ne) (header.value.getLast header.value_ne))
        target.data.headers := by
  induction headers generalizing target with
  | nil => exact ⟨target, rfl, rfl, rfl⟩
  | cons header rest ih =>
    obtain ⟨after, hrest, hbody, hheaders⟩ :=
      ih (deliver parseUrl (0, target) header.callbacks).2
    rw [deliver_header] at hrest hbody hheaders
    refine ⟨after, ?_, hbody, hheaders⟩
    rw [Delivery.block, List.flatMap_cons, deliver_append, deliver_header]
    exact hrest

/-- The end of the header block and the body keep the headers; the last fragment of the body is what
stays of it. -/
theorem deliver_middle (delivery : Delivery) (target : RequestTarget) :
    ∃ after, deliver parseUrl (0, target) delivery.middle = (0, after) ∧
      after.data.headers = target.data.headers ∧
      after.data.body = delivery.bodyFragments.getLastD target.data.body := by
  have hpieces : ∀ (pieces : List BodyPiece) (now : RequestTarget),
      deliver parseUrl (0, now) (pieces.map BodyPiece.callback) =
        (0, { now with data := { now.data with
          body := (pieces.filterMap BodyPiece.fragment?).getLastD now.data.body } }) := by
    intro pieces
    induction pieces with
    | nil => intro now; rfl
    | cons piece rest ih =>
      intro now
      cases piece with
      | chunkHeader => exact ih now
      | chunkComplete => exact ih now
      | data at_ =>
        have hcons := ih { now with data := { now.data with body := at_ } }
        have hfragments : (BodyPiece.data at_ :: rest).filterMap BodyPiece.fragment? =
            at_ :: rest.filterMap BodyPiece.fragment? := rfl
        rw [hfragments, List.getLastD_cons]
        exact hcons
  exact ⟨_, hpieces delivery.body _, rfl, rfl⟩

/-- From a delivery without error, every header is kept when every one is its last fragments. -/
theorem headersKept_iff (headers : List HeaderFragments) (target : RequestTarget) :
    HeadersKept parseUrl (0, target) headers ↔
      ∀ header ∈ headers, LastIsWhole header.name ∧ LastIsWhole header.value := by
  induction headers generalizing target with
  | nil => exact ⟨fun _ _ hmem ↦ absurd hmem List.not_mem_nil, fun _ ↦ trivial⟩
  | cons header rest ih =>
    rw [List.forall_mem_cons, ← getLast_eq_flatten_iff header.name_ne,
      ← getLast_eq_flatten_iff header.value_ne, HeadersKept]
    simp only [deliver_header, ih]
    constructor
    · rintro ⟨hname, hvalue, hrest⟩
      rw [← hname, HttpRequest.getHeader, HttpRequest.setHeader, OrderedMap.find_assign] at hvalue
      exact ⟨⟨hname, Option.some.inj hvalue⟩, hrest⟩
    · rintro ⟨⟨hname, hvalue⟩, hrest⟩
      refine ⟨hname, ?_, hrest⟩
      rw [← hname, HttpRequest.getHeader, HttpRequest.setHeader, OrderedMap.find_assign, hvalue]

/-- Assumes: an error before the first header. No header is kept. -/
theorem headersKept_stopped_iff {state : ℕ × RequestTarget} (hstopped : state.1 ≠ 0)
    (hheaders : state.2.data.headers = OrderedMap.empty) (headers : List HeaderFragments) :
    HeadersKept parseUrl state headers ↔ headers = [] := by
  cases headers with
  | nil => exact ⟨fun _ ↦ rfl, fun _ ↦ trivial⟩
  | cons header rest =>
    refine ⟨?_, fun hnil ↦ absurd hnil (List.cons_ne_nil header rest)⟩
    rintro ⟨_, hvalue, _⟩
    rw [deliver_stopped parseUrl hstopped, HttpRequest.getHeader, hheaders] at hvalue
    cases hvalue

/-! ### When nothing is lost -/

/-- The condition on a delivery. -/
structure WholeFragments (delivery : Delivery) : Prop where
  urls : (∀ fragment ∈ delivery.firstLine, (parseUrl fragment).isSome) ∨ delivery.Bare
  headers : ∀ header ∈ delivery.headers, LastIsWhole header.name ∧ LastIsWhole header.value
  trailers : ∀ header ∈ delivery.trailers, LastIsWhole header.name ∧ LastIsWhole header.value
  body : LastIsWhole delivery.bodyFragments

/-- Assumes: headers that are their last fragments. Storing the last fragments is storing the
concatenations. -/
theorem foldl_assign_whole {headers : List HeaderFragments}
    (hwhole : ∀ header ∈ headers, LastIsWhole header.name ∧ LastIsWhole header.value)
    (map : MapType) :
    headers.foldl (fun map header ↦
        map.assign (header.name.getLast header.name_ne)
          (header.value.getLast header.value_ne)) map =
      headers.foldl (fun map header ↦ map.assign header.name.flatten header.value.flatten) map := by
  apply List.foldl_ext
  intro now header hmem
  obtain ⟨hname, hvalue⟩ := hwhole header hmem
  rw [(getLast_eq_flatten_iff header.name_ne).mpr hname,
    (getLast_eq_flatten_iff header.value_ne).mpr hvalue]

/-- Assumes: URL fragments that are all URLs. A request is kept when all else is its last fragments.
-/
theorem requestKept_iff_of_urls {delivery : Delivery}
    (hurls : ∀ fragment ∈ delivery.firstLine, (parseUrl fragment).isSome) :
    RequestKept parseUrl delivery ↔ WholeFragments parseUrl delivery := by
  obtain ⟨rt, opened, hopening, hheaders₀, hbody₀, hrt⟩ :=
    deliver_urls parseUrl delivery.firstLine RequestTarget.init
  obtain rfl : rt = 0 := hrt.mpr hurls
  have hopened : deliver parseUrl (0, RequestTarget.init) (delivery.opening .request) =
      (0, opened) := hopening
  obtain ⟨headed, hblock, hbody₁, hheaders₁⟩ := deliver_block parseUrl delivery.headers opened
  obtain ⟨embodied, hmiddle, hheaders₂, hbody₂⟩ := deliver_middle parseUrl delivery headed
  obtain ⟨trailed, htrailers, hbody₃, hheaders₃⟩ :=
    deliver_block parseUrl delivery.trailers embodied
  have hembodied : deliver parseUrl (0, RequestTarget.init) (delivery.opening .request ++
      Delivery.block delivery.headers ++ delivery.middle) = (0, embodied) := by
    rw [deliver_append, deliver_append, hopened, hblock, hmiddle]
  have hfinal : deliver parseUrl (0, RequestTarget.init) (delivery.callbacks .request) =
      (0, { trailed with finished := true }) := by
    rw [Delivery.callbacks, deliver_append, deliver_append, hembodied, htrailers]
    rfl
  have hbody : trailed.data.body = delivery.bodyFragments.getLastD [] := by
    rw [hbody₃, hbody₂, hbody₁, hbody₀]
    rfl
  constructor
  · rintro ⟨hkept, htkept, _, hbodyEq⟩
    rw [hopened, headersKept_iff] at hkept
    rw [hembodied, headersKept_iff] at htkept
    rw [hfinal] at hbodyEq
    refine ⟨Or.inl hurls, hkept, htkept, ?_⟩
    rw [← getLastD_eq_flatten_iff, ← hbody]
    exact hbodyEq
  · rintro ⟨_, hwhole, htwhole, hbodyWhole⟩
    refine ⟨?_, ?_, ?_, ?_⟩
    · rw [hopened, headersKept_iff]
      exact hwhole
    · rw [hembodied, headersKept_iff]
      exact htwhole
    · rw [hfinal, Delivery.headerMap, List.foldl_append]
      rw [foldl_assign_whole hwhole] at hheaders₁
      rw [foldl_assign_whole htwhole, hheaders₂, hheaders₁, hheaders₀] at hheaders₃
      exact hheaders₃
    · rw [hfinal, ← (getLastD_eq_flatten_iff _).mpr hbodyWhole]
      exact hbody

/-- Assumes: a URL fragment that is not a URL. The request ends there, so it is kept only when
nothing follows. -/
theorem requestKept_iff_of_bad_url {delivery : Delivery}
    (hurls : ¬ ∀ fragment ∈ delivery.firstLine, (parseUrl fragment).isSome) :
    RequestKept parseUrl delivery ↔ WholeFragments parseUrl delivery := by
  obtain ⟨rt, opened, hopening, hheaders₀, hbody₀, hrt⟩ :=
    deliver_urls parseUrl delivery.firstLine RequestTarget.init
  have hstopped : rt ≠ 0 := fun hzero ↦ hurls (hrt.mp hzero)
  have hopened : deliver parseUrl (0, RequestTarget.init) (delivery.opening .request) =
      (rt, opened) := hopening
  have hrest (callbacks : List Callback) :
      deliver parseUrl (rt, opened) callbacks = (rt, opened) :=
    deliver_stopped parseUrl hstopped callbacks
  have hembodied : deliver parseUrl (0, RequestTarget.init) (delivery.opening .request ++
      Delivery.block delivery.headers ++ delivery.middle) = (rt, opened) := by
    rw [deliver_append, deliver_append, hopened, hrest, hrest]
  have hfinal : deliver parseUrl (0, RequestTarget.init) (delivery.callbacks .request) =
      (rt, opened) := by
    rw [Delivery.callbacks, deliver_append, deliver_append, hembodied, hrest, hrest]
  constructor
  · rintro ⟨hkept, htkept, _, hbodyEq⟩
    rw [hopened, headersKept_stopped_iff parseUrl hstopped hheaders₀] at hkept
    rw [hembodied, headersKept_stopped_iff parseUrl hstopped hheaders₀] at htkept
    rw [hfinal] at hbodyEq
    have hempty : delivery.bodyFragments.flatten = [] := hbodyEq.symm.trans hbody₀
    refine ⟨Or.inr ⟨hkept, htkept, hempty⟩, ?_, ?_, ?_⟩
    · rw [hkept]
      exact fun _ hmem ↦ absurd hmem List.not_mem_nil
    · rw [htkept]
      exact fun _ hmem ↦ absurd hmem List.not_mem_nil
    · intro fragment hmem
      exact List.flatten_eq_nil_iff.mp hempty fragment ((List.dropLast_sublist _).subset hmem)
  · rintro ⟨hbare, _, _, _⟩
    obtain ⟨hheaders, htrailers, hempty⟩ := hbare.resolve_left hurls
    refine ⟨?_, ?_, ?_, ?_⟩
    · rw [hheaders]
      trivial
    · rw [htrailers]
      trivial
    · rw [hfinal, Delivery.headerMap, hheaders, htrailers]
      exact hheaders₀
    · rw [hfinal, hempty]
      exact hbody₀

/-- The message delivered in one call with an identity body: every element is one fragment. -/
def Delivery.inOneCall (delivery : Delivery) : Delivery :=
  { delivery with
    firstLine := [delivery.firstLine.flatten]
    headers := delivery.headers.map HeaderFragments.joined
    body := [.data delivery.bodyFragments.flatten]
    trailers := delivery.trailers.map HeaderFragments.joined }

/-- Assumes: a URL. The request of a message delivered in one call has the concatenations as its
headers and its body. -/
theorem requestKept_inOneCall {delivery : Delivery}
    (hurl : (parseUrl delivery.firstLine.flatten).isSome) :
    RequestKept parseUrl delivery.inOneCall ∧ delivery.inOneCall.headerMap = delivery.headerMap ∧
      delivery.inOneCall.bodyFragments.flatten = delivery.bodyFragments.flatten := by
  have hurls : ∀ fragment ∈ delivery.inOneCall.firstLine, (parseUrl fragment).isSome := by
    intro fragment hmem
    rw [List.mem_singleton.mp hmem]
    exact hurl
  have hsingle (fragment : List UInt8) : LastIsWhole [fragment] :=
    fun _ hmem ↦ absurd hmem List.not_mem_nil
  have hjoined (headers : List HeaderFragments) : ∀ header ∈ headers.map HeaderFragments.joined,
      LastIsWhole header.name ∧ LastIsWhole header.value := by
    intro header hmem
    obtain ⟨original, _, rfl⟩ := List.mem_map.mp hmem
    exact ⟨hsingle _, hsingle _⟩
  refine ⟨?_, ?_, List.flatten_singleton⟩
  · exact (requestKept_iff_of_urls parseUrl hurls).mpr
      ⟨Or.inl hurls, hjoined _, hjoined _, hsingle _⟩
  · unfold Delivery.headerMap Delivery.inOneCall
    rw [← List.map_append, List.foldl_map]
    simp only [HeaderFragments.joined, List.flatten_singleton]

/-- The callbacks of a response never return once the header block is complete. -/
theorem deliverResponse_headersComplete {callbacks : List Callback} {httpMajor httpMinor : ℕ}
    {method : HttpMethod} (hmem : .headersComplete httpMajor httpMinor method ∈ callbacks)
    (target : ResponseTarget) :
    deliverResponse target callbacks = .error .responseAsRequest := by
  induction callbacks generalizing target with
  | nil => exact absurd hmem List.not_mem_nil
  | cons callback rest ih =>
    have hcons : deliverResponse target (callback :: rest) =
        target.onCallback callback >>= fun now ↦ deliverResponse now rest := rfl
    rw [hcons]
    rcases List.mem_cons.mp hmem with rfl | hlater
    · rfl
    · cases hcallback : target.onCallback callback with
      | error confusion => cases confusion; rfl
      | ok now => exact ih hlater now

/-- Nothing is lost by the fragments exactly when the message is a request, every fragment of its
URL is a URL or nothing follows the URL, and all fragments but the last of every header name, of
every header value and of the body are empty. -/
theorem fragmentsKept_iff (kind : MessageKind) (delivery : Delivery) :
    FragmentsKept parseUrl kind delivery ↔
      kind = .request ∧ WholeFragments parseUrl delivery := by
  cases kind with
  | request =>
    rw [FragmentsKept, eq_self_iff_true, true_and]
    by_cases hurls : ∀ fragment ∈ delivery.firstLine, (parseUrl fragment).isSome
    · exact requestKept_iff_of_urls parseUrl hurls
    · exact requestKept_iff_of_bad_url parseUrl hurls
  | response =>
    refine ⟨?_, fun hcondition ↦ absurd hcondition.1 (by decide)⟩
    rintro ⟨final, hfinal, _⟩
    have hmem : Callback.headersComplete delivery.httpMajor delivery.httpMinor delivery.method ∈
        delivery.callbacks .response := by
      simp [Delivery.callbacks, Delivery.middle]
    rw [deliverResponse_headersComplete hmem] at hfinal
    cases hfinal

end Effects

/-! ### A header name in two fragments -/

/-- `GET / HTTP/1.1` with the header `Host: a`, split behind `Ho`. -/
def splitHost : Delivery where
  firstLine := [[47]]
  statusCode := 0
  headers := [⟨[[72, 111], [115, 116]], [[97]], by decide, by decide⟩]
  httpMajor := 1
  httpMinor := 1
  method := .GET
  body := []
  trailers := []

/-- The header is stored as `st: a`. -/
theorem splitHost_loses_host :
    ¬ FragmentsKept (fun url ↦ some ⟨some url, none, none⟩) .request splitHost ∧
      (deliver (fun url ↦ some ⟨some url, none, none⟩) (0, RequestTarget.init)
        (splitHost.callbacks .request)).2.data.headers.entries = [([115, 116], [97])] ∧
      splitHost.headerMap.entries = [([72, 111, 115, 116], [97])] := by
  refine ⟨?_, by decide, by decide⟩
  rintro ⟨⟨hname, _⟩, _⟩
  revert hname
  decide

end Cczoe.Http
