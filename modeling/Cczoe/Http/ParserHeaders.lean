import Cczoe.Http.ParserInvariant
import Cczoe.Http.HeaderLines

/-!
# Header names and values in the vendored parser

The parser recognises the headers it acts on letter by letter while it reads a name. `nameScan` is
what the letters of a name make of the header state; `Spells` is the invariant of it, so that a name
ends in the state of a header exactly when it is the name of that header, in any case
(`nameScan_contentLength_iff` and its siblings). `fieldLoop_name` is the loop over a name.

Behind a name, `valueLoop_harmless` is the loop over a value that says nothing about the framing of
a message, and `valueLoop_decimal` the one over a content length.
-/

set_option autoImplicit false
set_option relaxedAutoImplicit false

namespace Cczoe.Http

open Cczoe.Http.Parser

/-! ### Names -/

/-- A parser in the middle of a name. -/
def probe (h : HeaderState) (index : ℕ) : Parser :=
  { type := .request, state := .headerField, headerState := h, index := index }

/-- The header state and the index behind a letter of a name. -/
def nameStep (now : HeaderState × ℕ) (c : UInt8) : HeaderState × ℕ :=
  match (probe now.1 now.2).fieldStep 0 c with
  | some after => (after.headerState, after.index)
  | none => now

/-- The header state and the index behind a name, given its lower-case letters. -/
def nameScan : List UInt8 → HeaderState × ℕ
  | [] => (.general, 0)
  | c :: rest => rest.foldl nameStep (firstHeaderState c, 0)

theorem matchWord_ne {word : List UInt8} {index : ℕ} {c : UInt8}
    {other matched going s : HeaderState} (hother : other ≠ s) (hmatched : matched ≠ s)
    (hgoing : going ≠ s) : matchWord word index c other matched going ≠ s := by
  unfold matchWord
  split_ifs <;> assumption

/-- A letter of a name changes the header state and the index alone, but for the flag of a transfer
encoding behind the last letter of its name. -/
theorem fieldStep_eq {p : Parser} {ch c : UInt8} (hch : ch ≠ 32)
    (hname : p.headerState.inName = true) :
    p.fieldStep ch c = some { p with
      headerState := (nameStep (p.headerState, p.index) c).1
      index := (nameStep (p.headerState, p.index) c).2
      usesTransferEncoding := p.usesTransferEncoding ||
        (nameStep (p.headerState, p.index) c).1 == .transferEncoding } := by
  cases hh : p.headerState <;> rw [hh] at hname <;> first
    | exact absurd hname (by decide)
    | simp [nameStep, probe, fieldStep, hh, hch]
  case general =>
    cases p
    cases hh
    simp
  case c | co | con =>
    intro hencoding
    split_ifs at hencoding
  all_goals exact fun hencoding ↦ absurd hencoding (matchWord_ne nofun nofun nofun)

theorem nameStep_inName {now : HeaderState × ℕ} {c : UInt8} (hname : now.1.inName = true) :
    (nameStep now c).1.inName = true := by
  obtain ⟨after, hstep, -, hafter⟩ :=
    (probe now.1 now.2).fieldStep_sound 0 c hname
  rw [nameStep, hstep]
  exact hafter

/-! What the letters seen so far are, by the header state. -/

/-- The letters of a word up to an index. -/
def SeenOf (word : String) (seen : List UInt8) (index : ℕ) : Prop :=
  seen = (ascii word).take (index + 1) ∧ index + 1 < (ascii word).length

/-- The lower-case letters of a name that has led to a header state and an index. -/
def Spells (seen : List UInt8) (now : HeaderState × ℕ) : Prop :=
  match now.1 with
  | .c => seen = ascii "c" ∧ now.2 = 0
  | .co => seen = ascii "co" ∧ now.2 = 1
  | .con => seen = ascii "con" ∧ now.2 = 2
  | .matchingConnection => SeenOf "connection" seen now.2
  | .matchingProxyConnection => SeenOf "proxy-connection" seen now.2
  | .matchingContentLength => SeenOf "content-length" seen now.2
  | .matchingTransferEncoding => SeenOf "transfer-encoding" seen now.2
  | .matchingUpgrade => SeenOf "upgrade" seen now.2
  | .contentLength => seen = ascii "content-length"
  | .transferEncoding => seen = ascii "transfer-encoding"
  | .upgrade => seen = ascii "upgrade"
  | _ => True

theorem spells_first (c : UInt8) : Spells [c] (firstHeaderState c, 0) := by
  unfold firstHeaderState
  split_ifs with hc hp ht hu
  · exact ⟨by rw [hc]; rfl, rfl⟩
  · exact ⟨by rw [hp]; rfl, by decide⟩
  · exact ⟨by rw [ht]; rfl, by decide⟩
  · exact ⟨by rw [hu]; rfl, by decide⟩
  · trivial

/-- A letter against a word of which the letters so far are a part. -/
theorem SeenOf.next {word : String} {seen : List UInt8} {index : ℕ} (c : UInt8)
    (hseen : SeenOf word seen index) {matched going : HeaderState} :
    matchWord (ascii word) (index + 1) c .general matched going = .general ∨
    matchWord (ascii word) (index + 1) c .general matched going = matched ∧
      seen ++ [c] = ascii word ∨
    matchWord (ascii word) (index + 1) c .general matched going = going ∧
      SeenOf word (seen ++ [c]) (index + 1) := by
  obtain ⟨htake, hlt⟩ := hseen
  unfold matchWord
  split_ifs with hother hlast
  · exact Or.inl rfl
  all_goals
    have hc : (ascii word)[index + 1]? = some c := by
      rw [List.getElem?_eq_getElem hlt]
      have := not_not.mp (not_or.mp hother).2
      rw [List.getD_eq_getElem?_getD, List.getElem?_eq_getElem hlt] at this
      rw [this]
      rfl
    have happend : seen ++ [c] = (ascii word).take (index + 1 + 1) := by
      rw [List.take_add_one, hc, ← htake]
      rfl
  · exact Or.inr (Or.inl ⟨rfl, by rw [happend, hlast, List.take_length]⟩)
  · exact Or.inr (Or.inr ⟨rfl, happend, by omega⟩)

/-- A letter keeps the invariant. -/
theorem Spells.step {seen : List UInt8} {now : HeaderState × ℕ} {c : UInt8}
    (hspells : Spells seen now) (hname : now.1.inName = true) :
    Spells (seen ++ [c]) (nameStep now c) := by
  obtain ⟨h, index⟩ := now
  have hword {word : String} {matched going : HeaderState} (hseen : SeenOf word seen index)
      (hmatched : seen ++ [c] = ascii word → Spells (seen ++ [c]) (matched, index + 1))
      (hgoing : SeenOf word (seen ++ [c]) (index + 1) →
        Spells (seen ++ [c]) (going, index + 1)) :
      Spells (seen ++ [c])
        (matchWord (ascii word) (index + 1) c .general matched going, index + 1) := by
    rcases hseen.next c with heq | ⟨heq, hall⟩ | ⟨heq, hmore⟩ <;> rw [heq]
    · trivial
    · exact hmatched hall
    · exact hgoing hmore
  cases h with
  | general => trivial
  | c =>
    obtain ⟨rfl, hindex⟩ := hspells
    simp only [nameStep, probe, fieldStep] at hindex ⊢
    split_ifs with hc
    · exact ⟨by rw [hc]; rfl, by rw [hindex]⟩
    · trivial
  | co =>
    obtain ⟨rfl, hindex⟩ := hspells
    simp only [nameStep, probe, fieldStep] at hindex ⊢
    split_ifs with hc
    · exact ⟨by rw [hc]; rfl, by rw [hindex]⟩
    · trivial
  | con =>
    obtain ⟨rfl, hindex⟩ := hspells
    simp only [nameStep, probe, fieldStep] at hindex ⊢
    rw [hindex]
    split_ifs with hn ht
    · exact ⟨by rw [hn]; rfl, by decide⟩
    · exact ⟨by rw [ht]; rfl, by decide⟩
    · trivial
  | matchingConnection => exact hword hspells (fun _ ↦ trivial) id
  | matchingProxyConnection => exact hword hspells (fun _ ↦ trivial) id
  | matchingContentLength => exact hword hspells id id
  | matchingTransferEncoding => exact hword hspells id id
  | matchingUpgrade => exact hword hspells id id
  | connection | contentLength | transferEncoding | upgrade => trivial
  | _ => exact absurd hname (by simp [HeaderState.inName])

theorem inName_first (c : UInt8) : (firstHeaderState c).inName = true := by
  unfold firstHeaderState
  split_ifs <;> rfl

theorem inName_foldl {letters : List UInt8} : ∀ {now : HeaderState × ℕ}, now.1.inName = true →
    (letters.foldl nameStep now).1.inName = true := by
  induction letters with
  | nil => exact id
  | cons c letters ih => exact fun hname ↦ ih (nameStep_inName hname)

theorem Spells.foldl {letters : List UInt8} : ∀ {seen : List UInt8} {now : HeaderState × ℕ},
    Spells seen now → now.1.inName = true →
    Spells (seen ++ letters) (letters.foldl nameStep now) := by
  induction letters with
  | nil => exact fun hspells _ ↦ by simpa using hspells
  | cons c letters ih =>
    intro seen now hspells hname
    simpa using ih (hspells.step (c := c) hname) (nameStep_inName hname)

/-- The state behind a name is one of a name, and the invariant holds of it. -/
theorem spells_nameScan (name : List UInt8) :
    Spells name (nameScan name) ∧ (nameScan name).1.inName = true := by
  cases name with
  | nil => exact ⟨trivial, rfl⟩
  | cons c rest =>
    exact ⟨(spells_first c).foldl (inName_first c), inName_foldl (inName_first c)⟩

theorem nameScan_contentLength_iff {name : List UInt8} :
    (nameScan name).1 = .contentLength ↔ name = ascii "content-length" := by
  constructor
  · intro hstate
    have hspells := (spells_nameScan name).1
    rwa [Spells, hstate] at hspells
  · rintro rfl
    decide

theorem nameScan_transferEncoding_iff {name : List UInt8} :
    (nameScan name).1 = .transferEncoding ↔ name = ascii "transfer-encoding" := by
  constructor
  · intro hstate
    have hspells := (spells_nameScan name).1
    rwa [Spells, hstate] at hspells
  · rintro rfl
    decide

theorem nameScan_upgrade_ne {name : List UInt8} (hname : name ≠ ascii "upgrade") :
    (nameScan name).1 ≠ .upgrade := by
  intro hstate
  have hspells := (spells_nameScan name).1
  rw [Spells, hstate] at hspells
  exact hname hspells

/-! The loop over a name. -/

theorem isTokenChar_ne_blank {ch : UInt8} (htoken : isTokenChar ch = true) : ch ≠ 32 := by
  rintro rfl
  exact absurd htoken (by decide)

theorem token_of_isTokenChar {ch : UInt8} (htoken : isTokenChar ch = true) :
    token ch = some (toLower ch) := if_pos htoken

/-- What a name leaves in the parser: the flag of a transfer encoding is set as soon as the name
begins with `Transfer-Encoding`, whatever comes behind it. -/
def Parser.named (p : Parser) (seen : List UInt8) : Parser :=
  { p with
    headerState := (nameScan seen).1
    index := (nameScan seen).2
    usesTransferEncoding := p.usesTransferEncoding ||
      decide (ascii "transfer-encoding" <+: seen) }

theorem nameScan_append {seen : List UInt8} (hne : seen ≠ []) (c : UInt8) :
    nameScan (seen ++ [c]) = nameStep (nameScan seen) c := by
  cases seen with
  | nil => exact absurd rfl hne
  | cons d rest => exact List.foldl_append

/-- A letter behind the letters of a name. -/
theorem named_step {p : Parser} {seen : List UInt8} {ch : UInt8} (hne : seen ≠ [])
    (hch : ch ≠ 32) (c : UInt8) :
    (p.named seen).fieldStep ch c = some (p.named (seen ++ [c])) := by
  rw [fieldStep_eq hch (spells_nameScan seen).2]
  have hscan : nameStep ((p.named seen).headerState, (p.named seen).index) c =
      nameScan (seen ++ [c]) := (nameScan_append hne c).symm
  have hencoding : decide (ascii "transfer-encoding" <+: seen ++ [c]) =
      (decide (ascii "transfer-encoding" <+: seen) ||
        (nameScan (seen ++ [c])).1 == .transferEncoding) := by
    rw [Bool.eq_iff_iff]
    simp only [decide_eq_true_eq, Bool.or_eq_true, beq_iff_eq, nameScan_transferEncoding_iff]
    rw [List.prefix_concat_iff]
    exact or_comm.trans (or_congr_right eq_comm)
  rw [hscan]
  simp only [Parser.named, hencoding, Bool.or_assoc]

/-- The loop over the rest of a name up to a byte that is no token character. -/
theorem fieldLoop_name {p : Parser} {rest tail : List UInt8} {stop : UInt8}
    (hstop : token stop = none) (hrest : ∀ c ∈ rest, isTokenChar c = true) :
    ∀ {seen : List UInt8}, seen ≠ [] →
    fieldLoop (rest ++ stop :: tail) (p.named seen) =
      some (.stopped (stop :: tail) (p.named (seen ++ rest.map toLower))) := by
  induction rest with
  | nil =>
    intro seen _
    rw [List.nil_append, fieldLoop, hstop, List.map_nil, List.append_nil]
  | cons c rest ih =>
    intro seen hne
    have hc := hrest c List.mem_cons_self
    rw [List.cons_append, fieldLoop, token_of_isTokenChar hc]
    simp only [named_step hne (isTokenChar_ne_blank hc)]
    rw [ih (fun d hd ↦ hrest d (List.mem_cons_of_mem _ hd))
      (List.append_ne_nil_of_left_ne_nil hne _), List.append_assoc]
    rfl

/-! ### Values -/

/-- The header states in which a value says nothing about the framing of the message. -/
def HeaderState.harmless : HeaderState → Bool
  | .connection | .contentLength | .contentLengthNum | .contentLengthWs | .transferEncoding
  | .matchingTransferEncodingTokenStart | .matchingTransferEncodingChunked
  | .matchingTransferEncodingToken | .transferEncodingChunked | .upgrade => false
  | _ => true

/-- A parser without what the name and the value of a header without a meaning for the framing
change. -/
def Parser.framing (p : Parser) : Parser :=
  { p with
    headerState := .general
    index := 0
    flags := { p.flags with
      connectionKeepAlive := false
      connectionClose := false
      connectionUpgrade := false } }

/-- A byte of a value: no line break, and none that the parser refuses. -/
def IsValueByte (c : UInt8) : Prop := c ≠ 13 ∧ c ≠ 10 ∧ isHeaderChar c = true

theorem harmless_matchWord {word : List UInt8} {index : ℕ} {c : UInt8}
    {other matched going : HeaderState} (hother : other.harmless = true)
    (hmatched : matched.harmless = true) (hgoing : going.harmless = true) :
    (matchWord word index c other matched going).harmless = true := by
  unfold matchWord
  split_ifs <;> assumption

/-- A step in a harmless state leads to another and changes nothing of the framing. -/
theorem valueStep_harmless (p : Parser) (ch : UInt8) {h : HeaderState}
    (hharmless : h.harmless = true) :
    ∃ h' after, p.valueStep ch h = .going h' after ∧ h'.harmless = true ∧
      after.framing = p.framing := by
  have hconnection {flags : Flags}
      (hflags : ({ p with flags := flags } : Parser).framing = p.framing) :
      ∃ h' after, p.connectionWord ch h flags = .going h' after ∧ h'.harmless = true ∧
        after.framing = p.framing := by
    unfold connectionWord
    split_ifs
    · exact ⟨_, _, rfl, rfl, hflags⟩
    · exact ⟨_, _, rfl, rfl, rfl⟩
    · exact ⟨_, _, rfl, hharmless, rfl⟩
  cases h with
  | connection | contentLength | contentLengthNum | contentLengthWs | transferEncoding
  | matchingTransferEncodingTokenStart | matchingTransferEncodingChunked
  | matchingTransferEncodingToken | transferEncodingChunked | upgrade =>
    exact absurd hharmless (by decide)
  | general | c | co | con | matchingConnection | matchingProxyConnection
  | matchingContentLength | matchingTransferEncoding | matchingUpgrade =>
    exact ⟨_, _, rfl, rfl, rfl⟩
  | matchingConnectionTokenStart =>
    simp only [valueStep]
    split_ifs <;> exact ⟨_, _, rfl, rfl, rfl⟩
  | matchingConnectionKeepAlive | matchingConnectionClose | matchingConnectionUpgrade =>
    exact ⟨_, _, rfl, harmless_matchWord rfl rfl rfl, rfl⟩
  | matchingConnectionToken =>
    simp only [valueStep, otherToken]
    split_ifs <;> exact ⟨_, _, rfl, rfl, rfl⟩
  | connectionKeepAlive | connectionClose | connectionUpgrade => exact hconnection rfl

/-- The inner loop over a value that is not too long. -/
theorem valueLoop_inner {p : Parser} {tail : List UInt8} {value : List UInt8} :
    ∀ {left : ℕ}, (∀ c ∈ value, IsValueByte c) → value.length < left →
    valueLoop (value ++ 13 :: tail) (some left) .general p =
      some (.lineBreak (13 :: tail) .general p) := by
  induction value with
  | nil =>
    intro left _ hleft
    obtain ⟨left, rfl⟩ := Nat.exists_eq_succ_of_ne_zero hleft.ne'
    rw [List.nil_append, valueLoop, if_pos (Or.inl rfl)]
  | cons c value ih =>
    intro left hvalue hleft
    obtain ⟨left, rfl⟩ := Nat.exists_eq_succ_of_ne_zero (Nat.ne_zero_of_lt hleft)
    obtain ⟨hcr, hlf, hchar⟩ := hvalue c List.mem_cons_self
    rw [List.cons_append, valueLoop, if_neg (not_or_intro hcr hlf),
      if_neg (fun hbad ↦ absurd hbad.2 (by rw [hchar]; decide))]
    exact ih (fun d hd ↦ hvalue d (List.mem_cons_of_mem _ hd)) (Nat.lt_of_succ_lt_succ hleft)

/-- The loop over a value that says nothing about the framing. -/
theorem valueLoop_harmless (tail : List UInt8) {value : List UInt8}
    (hvalue : ∀ c ∈ value, IsValueByte c)
    (hlength : value.length < maxHeaderSize) : ∀ {h : HeaderState} {p : Parser},
    h.harmless = true →
    ∃ h' after, valueLoop (value ++ 13 :: tail) none h p =
      some (.lineBreak (13 :: tail) h' after) ∧ h'.harmless = true ∧
        after.framing = p.framing := by
  induction value with
  | nil =>
    intro h p hharmless
    exact ⟨h, p, by rw [List.nil_append, valueLoop, if_pos (Or.inl rfl)], hharmless, rfl⟩
  | cons c value ih =>
    intro h p hharmless
    obtain ⟨hcr, hlf, hchar⟩ := hvalue c List.mem_cons_self
    have hrest := fun d hd ↦ hvalue d (List.mem_cons_of_mem c hd)
    have hshort : value.length < maxHeaderSize := (Nat.lt_succ_self _).trans hlength
    rw [List.cons_append, valueLoop, if_neg (not_or_intro hcr hlf),
      if_neg (fun hbad ↦ absurd hbad.2 (by rw [hchar]; decide))]
    by_cases hgeneral : h = .general
    · rw [if_pos hgeneral]
      refine ⟨.general, p, valueLoop_inner hrest ?_, rfl, rfl⟩
      simp only [List.length_append, List.length_cons] at hlength ⊢
      omega
    · rw [if_neg hgeneral]
      obtain ⟨h', after, hstep, hharmless', hframing⟩ :=
        valueStep_harmless p c hharmless
      obtain ⟨h'', after', hloop, hharmless'', hframing'⟩ :=
        ih hrest hshort (p := after) hharmless'
      exact ⟨h'', after', by simp only [hstep, hloop], hharmless'', hframing'.trans hframing⟩

/-- The number that digits make behind a number. -/
def spelledFrom (n : ℕ) (digits : List UInt8) : ℕ :=
  digits.foldl (fun n c ↦ 10 * n + (c.toNat - 48)) n

theorem le_spelledFrom (digits : List UInt8) : ∀ n, n ≤ spelledFrom n digits := by
  induction digits with
  | nil => exact fun n ↦ le_rfl
  | cons c digits ih =>
    intro n
    have hstep : n ≤ 10 * n + (c.toNat - 48) := by omega
    exact hstep.trans (ih _)

theorem isHeaderChar_of_digit {c : UInt8} (hlow : 48 ≤ c) (hhigh : c ≤ 57) :
    isHeaderChar c = true := by
  have hlow' : 48 ≤ c.toNat := UInt8.le_iff_toNat_le.mp hlow
  have hhigh' : c.toNat ≤ 57 := UInt8.le_iff_toNat_le.mp hhigh
  have hgt : 31 < c := UInt8.lt_iff_toNat_lt.mpr (Nat.lt_of_lt_of_le (by decide) hlow')
  have hne : c ≠ 127 := by
    rintro rfl
    exact absurd hhigh' (by decide)
  simp [isHeaderChar, hgt, hne]

/-- The loop over the digits of a content length. -/
theorem valueLoop_decimal (tail : List UInt8) {digits : List UInt8}
    (hdigits : ∀ c ∈ digits, 48 ≤ c ∧ c ≤ 57) :
    ∀ {p : Parser}, spelledFrom p.contentLength digits < 2 ^ 63 →
    valueLoop (digits ++ 13 :: tail) none .contentLengthNum p =
      some (.lineBreak (13 :: tail) .contentLengthNum
        { p with contentLength := spelledFrom p.contentLength digits }) := by
  induction digits with
  | nil => exact fun {p} _ ↦ by rw [List.nil_append, valueLoop, if_pos (Or.inl rfl)]; rfl
  | cons c digits ih =>
    intro p hlt
    obtain ⟨hlow, hhigh⟩ := hdigits c List.mem_cons_self
    have hother (other : UInt8) (hless : ¬ 48 ≤ other) : c ≠ other := by
      rintro rfl
      exact hless hlow
    have hnum : isNum c = true := by simp [isNum, hlow, hhigh]
    have hchar : isHeaderChar c = true := isHeaderChar_of_digit hlow hhigh
    have hmore : spelledFrom (10 * p.contentLength + (c.toNat - 48)) digits < 2 ^ 63 := hlt
    have hle := le_spelledFrom digits (10 * p.contentLength + (c.toNat - 48))
    have hoverflow : ¬ (ullongMax - 10) / 10 < p.contentLength := by
      unfold ullongMax
      omega
    rw [List.cons_append, valueLoop, if_neg (not_or_intro (hother 13 (by decide))
        (hother 10 (by decide))), if_neg (fun hbad ↦ absurd hbad.2 (by rw [hchar]; decide)),
      if_neg (by decide)]
    simp only [valueStep, contentLengthDigit]
    rw [if_neg (hother 32 (by decide)), if_neg (by rw [hnum]; decide), if_neg hoverflow]
    have hcommute : p.contentLength * 10 = 10 * p.contentLength := Nat.mul_comm _ _
    simp only [hcommute]
    exact ih (fun d hd ↦ hdigits d (List.mem_cons_of_mem _ hd))
      (p := { p with contentLength := 10 * p.contentLength + (c.toNat - 48) }) hmore

end Cczoe.Http
