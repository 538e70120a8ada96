import Cczoe.Http.ParserCallbacks
import Mathlib.Logic.Function.Basic

/-!
# The parts of a URL

`parse_url_char` and `http_parser_parse_url` of the vendored parser, as `on_url` calls it. The
function walks the URL with a small state machine and notes for every part the offset and the length
of its run, both in sixteen bits. The host of an absolute URL is looked at by `http_parse_host`,
whose verdict is a parameter; a URL that starts with a slash has no host.

`parseUrl_urlText` is what comes out for a path with an optional query and fragment: the parts cut
out at their offsets and with their lengths modulo 65536.
-/

set_option autoImplicit false
set_option relaxedAutoImplicit false

namespace Cczoe.Http

/-! ### `parse_url_char` -/

/-- The states of `enum state` that a URL goes through. -/
inductive UrlState
  | dead
  | spacesBeforeUrl
  | schema
  | schemaSlash
  | schemaSlashSlash
  | serverStart
  | server
  | serverWithAt
  | path
  | queryStringStart
  | queryString
  | fragmentStart
  | fragment
  deriving DecidableEq, Repr

def isAlpha (c : UInt8) : Bool := (65 ≤ c && c ≤ 90) || (97 ≤ c && c ≤ 122)

def isNum (c : UInt8) : Bool := 48 ≤ c && c ≤ 57

/-- `IS_URL_CHAR` in strict mode: the visible characters but `#` and `?`. -/
def isUrlChar (c : UInt8) : Bool := 33 ≤ c && c ≤ 126 && c != 35 && c != 63

/-- `IS_USERINFO_CHAR`: letters, digits, marks, and the characters `%;:&=+$,`. -/
def isUserinfoChar (c : UInt8) : Bool :=
  isAlpha c || isNum c || c ∈ [45, 95, 46, 33, 126, 42, 39, 40, 41] ||
    c ∈ [37, 59, 58, 38, 61, 43, 36, 44]

/-- `parse_url_char` in strict mode. -/
def parseUrlChar (s : UrlState) (c : UInt8) : UrlState :=
  if c = 32 ∨ c = 13 ∨ c = 10 ∨ c = 9 ∨ c = 12 then .dead
  else
    match s with
    | .spacesBeforeUrl =>
      if c = 47 ∨ c = 42 then .path else if isAlpha c then .schema else .dead
    | .schema => if isAlpha c then .schema else if c = 58 then .schemaSlash else .dead
    | .schemaSlash => if c = 47 then .schemaSlashSlash else .dead
    | .schemaSlashSlash => if c = 47 then .serverStart else .dead
    | .serverWithAt | .serverStart | .server =>
      if s = .serverWithAt ∧ c = 64 then .dead
      else if c = 47 then .path
      else if c = 63 then .queryStringStart
      else if c = 64 then .serverWithAt
      else if isUserinfoChar c || c = 91 || c = 93 then .server
      else .dead
    | .path =>
      if isUrlChar c then .path
      else if c = 63 then .queryStringStart
      else if c = 35 then .fragmentStart
      else .dead
    | .queryStringStart | .queryString =>
      if isUrlChar c then .queryString
      else if c = 63 then .queryString
      else if c = 35 then .fragmentStart
      else .dead
    | .fragmentStart =>
      if isUrlChar c then .fragment
      else if c = 63 then .fragment
      else if c = 35 then .fragmentStart
      else .dead
    | .fragment => if isUrlChar c then .fragment else if c = 63 ∨ c = 35 then .fragment else .dead
    | .dead => .dead

/-! ### `http_parser_parse_url` -/

/-- The fields that the loop of `http_parser_parse_url` notes. -/
inductive UrlField
  | schema
  | host
  | path
  | query
  | fragment
  deriving DecidableEq, Repr

/-- `field_data`: the offset and the length of a field. -/
structure FieldData where
  off : UInt16
  len : UInt16
  deriving DecidableEq, Repr

/-- The state of the loop: the state of the machine, the field of the last character and the fields
noted. -/
structure UrlWalk where
  state : UrlState
  oldField : Option UrlField
  fields : UrlField → Option FieldData

/-- What the loop does in a state: stop, skip a delimiter, or count a character to a field. -/
def fieldOf : UrlState → Option (Option UrlField)
  | .dead | .spacesBeforeUrl => none
  | .schemaSlash | .schemaSlashSlash | .serverStart | .queryStringStart | .fragmentStart =>
    some none
  | .schema => some (some .schema)
  | .serverWithAt | .server => some (some .host)
  | .path => some (some .path)
  | .queryString => some (some .query)
  | .fragment => some (some .fragment)

/-- A character at position `p` is counted to a field: its run goes on, or it starts here. -/
def UrlWalk.count (walk : UrlWalk) (field : UrlField) (p : ℕ) : UrlWalk :=
  if walk.oldField = some field then
    { walk with
      fields := Function.update walk.fields field
        ((walk.fields field).map fun run ↦ { run with len := run.len + 1 }) }
  else
    { walk with
      oldField := some field
      fields := Function.update walk.fields field (some ⟨UInt16.ofNat p, 1⟩) }

/-- The loop of `http_parser_parse_url` from position `p` on. -/
def walkUrl : List UInt8 → ℕ → UrlWalk → Option UrlWalk
  | [], _, walk => some walk
  | c :: rest, p, walk =>
    let s := parseUrlChar walk.state c
    match fieldOf s with
    | none => none
    | some none => walkUrl rest (p + 1) { walk with state := s }
    | some (some field) => walkUrl rest (p + 1) ({ walk with state := s }.count field p)

/-- The bytes of a field that `on_url` copies out of the URL. -/
def slice (url : List UInt8) (run : FieldData) : List UInt8 :=
  (url.drop run.off.toNat).take run.len.toNat

/-- `http_parser_parse_url(at, length, 0, &urlParser)`, with the parts that `on_url` takes. `hostOk`
says whether `http_parse_host` and the conversion of the port accept the URL. -/
def httpParserParseUrl (hostOk : List UInt8 → Bool) (url : List UInt8) : Option UrlFields :=
  if url = [] then none
  else
    match walkUrl url 0 ⟨.spacesBeforeUrl, none, fun _ ↦ none⟩ with
    | none => none
    | some walk =>
      if (walk.fields .schema).isSome ∧ (walk.fields .host).isNone then none
      else if (walk.fields .host).isSome ∧ hostOk url = false then none
      else some
        { path := (walk.fields .path).map (slice url)
          query := (walk.fields .query).map (slice url)
          fragment := (walk.fields .fragment).map (slice url) }

/-! ### Walking through a part -/

/-- Assumes: a state that stays the same on every byte of a part and counts to a field, whose run
has begun. The walk through the part adds its length to the run. -/
theorem walkUrl_part {s : UrlState} {field : UrlField} (hfield : fieldOf s = some (some field))
    {part : List UInt8} (hstay : ∀ c ∈ part, parseUrlChar s c = s) (rest : List UInt8) :
    ∀ (p : ℕ) (fields : UrlField → Option FieldData) (run : FieldData),
      fields field = some run →
      walkUrl (part ++ rest) p ⟨s, some field, fields⟩ =
        walkUrl rest (p + part.length) ⟨s, some field,
          Function.update fields field
            (some { run with len := run.len + UInt16.ofNat part.length })⟩ := by
  induction part with
  | nil =>
    intro p fields run hrun
    have hsame : Function.update fields field
        (some { run with len := run.len + UInt16.ofNat ([] : List UInt8).length }) = fields := by
      rw [← Function.update_eq_self field fields]
      simp [hrun]
    rw [hsame]
    rfl
  | cons c others ih =>
    obtain ⟨hc, hothers⟩ := List.forall_mem_cons.mp hstay
    intro p fields run hrun
    have hstep : walkUrl (c :: (others ++ rest)) p ⟨s, some field, fields⟩ =
        walkUrl (others ++ rest) (p + 1) ⟨s, some field,
          Function.update fields field (some { run with len := run.len + 1 })⟩ := by
      rw [walkUrl]
      simp only [hc, hfield, UrlWalk.count, if_true, hrun, Option.map_some]
    have hlength : run.len + 1 + UInt16.ofNat others.length =
        run.len + UInt16.ofNat (c :: others).length := by
      rw [List.length_cons, UInt16.ofNat_add, UInt16.add_assoc, UInt16.add_comm 1]
      rfl
    have hposition : p + 1 + others.length = p + (c :: others).length := by
      rw [List.length_cons]
      omega
    rw [List.cons_append, hstep, ih hothers (p + 1) _ { run with len := run.len + 1 }
      (Function.update_self ..), Function.update_idem, hposition]
    simp only [hlength]

/-- Assumes: a first byte that leads to a state which counts to a field not counted before, and
further bytes that stay in it. The walk notes the run of the part. -/
theorem walkUrl_newPart {s next : UrlState} {field : UrlField} {old : Option UrlField}
    (hfield : fieldOf next = some (some field)) (hold : old ≠ some field) {c : UInt8}
    (hc : parseUrlChar s c = next) {others : List UInt8}
    (hstay : ∀ other ∈ others, parseUrlChar next other = next) (rest : List UInt8) (p : ℕ)
    (fields : UrlField → Option FieldData) :
    walkUrl (c :: others ++ rest) p ⟨s, old, fields⟩ =
      walkUrl rest (p + (c :: others).length) ⟨next, some field,
        Function.update fields field
          (some ⟨UInt16.ofNat p, UInt16.ofNat (c :: others).length⟩)⟩ := by
  have hstep : walkUrl (c :: (others ++ rest)) p ⟨s, old, fields⟩ =
      walkUrl (others ++ rest) (p + 1) ⟨next, some field,
        Function.update fields field (some ⟨UInt16.ofNat p, 1⟩)⟩ := by
    rw [walkUrl]
    simp only [hc, hfield, UrlWalk.count, if_neg hold]
  have hlength : 1 + UInt16.ofNat others.length = UInt16.ofNat (c :: others).length := by
    rw [List.length_cons, UInt16.ofNat_add, UInt16.add_comm]
    rfl
  have hposition : p + 1 + others.length = p + (c :: others).length := by
    rw [List.length_cons]
    omega
  rw [List.cons_append, hstep, walkUrl_part hfield hstay rest (p + 1) _ ⟨UInt16.ofNat p, 1⟩
    (Function.update_self ..), Function.update_idem, hposition]
  simp only [hlength]

/-- Assumes: a byte that leads to a state which counts to no field. It is skipped. -/
theorem walkUrl_skip {s next : UrlState} {c : UInt8} (hc : parseUrlChar s c = next)
    (hskip : fieldOf next = some none) (rest : List UInt8) (p : ℕ) (old : Option UrlField)
    (fields : UrlField → Option FieldData) :
    walkUrl (c :: rest) p ⟨s, old, fields⟩ = walkUrl rest (p + 1) ⟨next, old, fields⟩ := by
  rw [walkUrl]
  simp only [hc, hskip]

/-! ### A path with a query and a fragment -/

/-- The URL that a request line has for a path, a query and a fragment. -/
def urlText (path query fragment : List UInt8) : List UInt8 :=
  path ++ ((if query ≠ [] then 63 :: query else []) ++
    if fragment ≠ [] then 35 :: fragment else [])

/-- The characters of a query and of a fragment. -/
def isQueryChar (c : UInt8) : Bool := isUrlChar c || c == 63

theorem not_blank_of_isQueryChar {c : UInt8} (hc : isQueryChar c = true) :
    ¬ (c = 32 ∨ c = 13 ∨ c = 10 ∨ c = 9 ∨ c = 12) := by
  rintro (rfl | rfl | rfl | rfl | rfl) <;> exact absurd hc (by decide)

theorem isQueryChar_of_isUrlChar {c : UInt8} (hc : isUrlChar c = true) : isQueryChar c = true := by
  rw [isQueryChar, hc, Bool.true_or]

theorem parseUrlChar_path {c : UInt8} (hc : isUrlChar c = true) :
    parseUrlChar .path c = .path := by
  rw [parseUrlChar, if_neg (not_blank_of_isQueryChar (isQueryChar_of_isUrlChar hc))]
  exact if_pos hc

/-- A query goes on, or starts, with any of its characters. -/
theorem parseUrlChar_query {s : UrlState} (hs : s = .queryStringStart ∨ s = .queryString)
    {c : UInt8} (hc : isQueryChar c = true) : parseUrlChar s c = .queryString := by
  have hblank := not_blank_of_isQueryChar hc
  rw [isQueryChar, Bool.or_eq_true, beq_iff_eq] at hc
  rcases hs with rfl | rfl <;> rw [parseUrlChar, if_neg hblank] <;>
    rcases hc with hurl | hmark <;> simp [*]

/-- A fragment goes on, or starts, with any of its characters. -/
theorem parseUrlChar_fragment {s : UrlState} (hs : s = .fragmentStart ∨ s = .fragment)
    {c : UInt8} (hc : isQueryChar c = true) : parseUrlChar s c = .fragment := by
  have hblank := not_blank_of_isQueryChar hc
  rw [isQueryChar, Bool.or_eq_true, beq_iff_eq] at hc
  rcases hs with rfl | rfl <;> rw [parseUrlChar, if_neg hblank] <;>
    rcases hc with hurl | hmark <;> simp [*]

/-- The run of a part at an offset. -/
def runAt (offset : ℕ) (part : List UInt8) : FieldData :=
  ⟨UInt16.ofNat offset, UInt16.ofNat part.length⟩

/-- Assumes: a fragment of its characters, in front of which the walk stands in a path or in a
query. The fragment is noted, if there is one. -/
theorem walkUrl_fragment {s : UrlState} (hs : s = .path ∨ s = .queryString) {old : UrlField}
    (hold : old ≠ .fragment) {fragment : List UInt8} (hchars : ∀ c ∈ fragment, isQueryChar c = true)
    (p : ℕ) (fields : UrlField → Option FieldData) (hnone : fields .fragment = none) :
    (walkUrl (if fragment ≠ [] then 35 :: fragment else []) p ⟨s, some old, fields⟩).map
        UrlWalk.fields =
      some (Function.update fields .fragment
        (if fragment ≠ [] then some (runAt (p + 1) fragment) else none)) := by
  cases fragment with
  | nil =>
    rw [if_neg (by simp), if_neg (by simp), ← hnone, Function.update_eq_self]
    rfl
  | cons c others =>
    obtain ⟨hc, hothers⟩ := List.forall_mem_cons.mp hchars
    have hmark : parseUrlChar s 35 = .fragmentStart := by rcases hs with rfl | rfl <;> rfl
    have hpart := walkUrl_newPart (show fieldOf .fragment = some (some .fragment) from rfl)
      (show some old ≠ some .fragment from fun hsame ↦ hold (Option.some.inj hsame))
      (parseUrlChar_fragment (Or.inl rfl) hc)
      (fun other hother ↦ parseUrlChar_fragment (Or.inr rfl) (hothers other hother))
      [] (p + 1) fields
    rw [List.append_nil] at hpart
    rw [if_pos (List.cons_ne_nil _ _), if_pos (List.cons_ne_nil _ _), walkUrl_skip hmark rfl, hpart]
    rfl

/-- Where the query of a URL starts. -/
def queryOffset (path : List UInt8) : ℕ := path.length + 1

/-- Where the fragment of a URL starts. -/
def fragmentOffset (path query : List UInt8) : ℕ :=
  path.length + (if query ≠ [] then query.length + 1 else 0) + 1

/-- Assumes: a query and a fragment of their characters, in front of which the walk stands in a
path. Both are noted, if they are there. -/
theorem walkUrl_query {query fragment : List UInt8} (hquery : ∀ c ∈ query, isQueryChar c = true)
    (hfragment : ∀ c ∈ fragment, isQueryChar c = true) (path : List UInt8)
    (fields : UrlField → Option FieldData) (hnoQuery : fields .query = none)
    (hnoFragment : fields .fragment = none) :
    (walkUrl ((if query ≠ [] then 63 :: query else []) ++
        if fragment ≠ [] then 35 :: fragment else []) path.length
        ⟨.path, some .path, fields⟩).map UrlWalk.fields =
      some (Function.update (Function.update fields .query
        (if query ≠ [] then some (runAt (queryOffset path) query) else none)) .fragment
        (if fragment ≠ [] then some (runAt (fragmentOffset path query) fragment) else none)) := by
  cases query with
  | nil =>
    have hsame : Function.update fields .query (if ([] : List UInt8) ≠ [] then
        some (runAt (queryOffset path) []) else none) = fields := by
      rw [if_neg (by simp), ← hnoQuery, Function.update_eq_self]
    rw [hsame]
    exact walkUrl_fragment (Or.inl rfl) (by decide) hfragment path.length fields hnoFragment
  | cons c others =>
    obtain ⟨hc, hothers⟩ := List.forall_mem_cons.mp hquery
    have hpart := walkUrl_newPart (show fieldOf .queryString = some (some .query) from rfl)
      (show some UrlField.path ≠ some .query by decide)
      (parseUrlChar_query (Or.inl rfl) hc)
      (fun other hother ↦ parseUrlChar_query (Or.inr rfl) (hothers other hother))
      (if fragment ≠ [] then 35 :: fragment else []) (path.length + 1) fields
    have hoffset : path.length + 1 + (c :: others).length + 1 =
        fragmentOffset path (c :: others) := by
      rw [fragmentOffset, if_pos (List.cons_ne_nil _ _)]
      omega
    rw [if_pos (List.cons_ne_nil c others), if_pos (List.cons_ne_nil c others), List.cons_append,
      walkUrl_skip (show parseUrlChar .path 63 = .queryStringStart from rfl) rfl, hpart,
      walkUrl_fragment (Or.inr rfl) (by decide) hfragment _ _ (by
        rw [Function.update_of_ne (by decide)]
        exact hnoFragment), hoffset]
    rfl

/-- Assumes: a path that starts with a slash, and characters that belong where they stand. The parts
come out at their offsets and with their lengths, both in sixteen bits. -/
theorem parseUrl_urlText (hostOk : List UInt8 → Bool) {path query fragment : List UInt8}
    (hslash : path.head? = some 47) (hpath : ∀ c ∈ path, isUrlChar c = true)
    (hquery : ∀ c ∈ query, isQueryChar c = true)
    (hfragment : ∀ c ∈ fragment, isQueryChar c = true) :
    httpParserParseUrl hostOk (urlText path query fragment) =
      some
        { path := some (slice (urlText path query fragment) (runAt 0 path))
          query := if query ≠ [] then
            some (slice (urlText path query fragment) (runAt (queryOffset path) query)) else none
          fragment := if fragment ≠ [] then
            some (slice (urlText path query fragment)
              (runAt (fragmentOffset path query) fragment)) else none } := by
  obtain ⟨others, rfl⟩ : ∃ others, path = 47 :: others := by
    cases path with
    | nil => exact absurd hslash (by simp)
    | cons c others => exact ⟨others, by rw [Option.some.inj hslash]⟩
  have hothers := (List.forall_mem_cons.mp hpath).2
  obtain ⟨url, hurl⟩ : ∃ url, url = urlText (47 :: others) query fragment := ⟨_, rfl⟩
  have hwalk : (walkUrl url 0 ⟨.spacesBeforeUrl, none, fun _ ↦ none⟩).map UrlWalk.fields =
      some (Function.update (Function.update (Function.update (fun _ ↦ none) .path
        (some (runAt 0 (47 :: others)))) .query
        (if query ≠ [] then some (runAt (queryOffset (47 :: others)) query) else none)) .fragment
        (if fragment ≠ [] then some (runAt (fragmentOffset (47 :: others) query) fragment)
          else none)) := by
    have hpart := walkUrl_newPart (show fieldOf .path = some (some .path) from rfl)
      (show (none : Option UrlField) ≠ some .path by decide)
      (show parseUrlChar .spacesBeforeUrl 47 = .path from rfl)
      (fun other hother ↦ parseUrlChar_path (hothers other hother))
      ((if query ≠ [] then 63 :: query else []) ++ if fragment ≠ [] then 35 :: fragment else [])
      0 (fun _ ↦ none)
    rw [hurl, urlText, hpart, Nat.zero_add]
    exact walkUrl_query hquery hfragment (47 :: others) _ rfl rfl
  obtain ⟨walk, hdone, hfields⟩ := Option.map_eq_some_iff.mp hwalk
  have hne : url ≠ [] := by
    rw [hurl]
    exact List.cons_ne_nil _ _
  have hschema : ¬ ((walk.fields .schema).isSome = true ∧ (walk.fields .host).isNone = true) := by
    rw [hfields]
    exact fun hboth ↦ absurd hboth.1 Bool.false_ne_true
  have hhost : ¬ ((walk.fields .host).isSome = true ∧ hostOk url = false) := by
    rw [hfields]
    exact fun hboth ↦ absurd hboth.1 Bool.false_ne_true
  rw [← hurl, httpParserParseUrl, if_neg hne]
  simp only [hdone]
  rw [if_neg hschema, if_neg hhost, hfields]
  simp only [Function.update_self, Function.update_of_ne, ne_eq, reduceCtorEq, not_false_eq_true,
    Option.map_some]
  by_cases hq : query = [] <;> by_cases hf : fragment = [] <;> simp [hq, hf]

/-- A part is cut out whole exactly when it is shorter than 65536 bytes and stands in the URL at its
offset modulo 65536. -/
theorem slice_runAt_eq_iff (url : List UInt8) (offset : ℕ) (part : List UInt8) :
    slice url (runAt offset part) = part ↔
      part.length < 65536 ∧ (url.drop (offset % 65536)).take part.length = part := by
  have hslice : slice url (runAt offset part) =
      (url.drop (offset % 65536)).take (part.length % 65536) := by
    rw [slice, runAt]
    simp only [UInt16.toNat_ofNat', Nat.reducePow]
  rw [hslice]
  constructor
  · intro hwhole
    have hlength := congrArg List.length hwhole
    rw [List.length_take] at hlength
    have hmod := Nat.mod_lt part.length (show 0 < 65536 by decide)
    have hshort : part.length < 65536 := by omega
    rw [Nat.mod_eq_of_lt hshort] at hwhole
    exact ⟨hshort, hwhole⟩
  · rintro ⟨hshort, hwhole⟩
    rw [Nat.mod_eq_of_lt hshort]
    exact hwhole

end Cczoe.Http
