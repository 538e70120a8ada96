import Cczoe.Foundations.PrefixBits
import Cczoe.Net.TypedRoundTrip

/-!
# Address arithmetic of `IPAddress.cpp`

`IPv4Address` holds its address as a word in network byte order, `IPv6Address` as sixteen bytes. The
model follows the two representations, `htonl` included, with the byte order of the host as a
parameter. A shift by the width of its operand or more, and an access behind the end of `s6_addr`,
are undefined in the source and a `Fault` here. A result is `none` for a null pointer.

`IPv4Address.bits` and `IPv6Address.bits` are the bits of an address in the order in which they go
over the network.
-/

set_option autoImplicit false
set_option relaxedAutoImplicit false

namespace Cczoe.Addresses

open Foundations.ByteNumerals Foundations.PrefixBits
open Net (Endian store bswap)

/-- What the source leaves undefined: a shift count that is not below the width of the operand, or
an index behind the end of an array. -/
inductive Fault
  | shiftCount (count : ℕ)
  | index (i : ℕ)
  deriving DecidableEq, Repr

/-- `value << count`, for `int` and `unsigned int`. -/
def shiftLeft (value : BitVec 32) (count : ℕ) : Except Fault (BitVec 32) :=
  if count < 32 then .ok (value <<< count) else .error (.shiftCount count)

/-- `value >> count`, for an `int` that is not negative. -/
def shiftRight (value : BitVec 32) (count : ℕ) : Except Fault (BitVec 32) :=
  if count < 32 then .ok (value >>> count) else .error (.shiftCount count)

/-- `htonl` and `ntohl`. -/
def htonl (host : Endian) (value : BitVec 32) : BitVec 32 :=
  match host with
  | .little => bswap value
  | .big => value

/-- `htons` and `ntohs`. -/
def htons (host : Endian) (value : BitVec 16) : BitVec 16 :=
  match host with
  | .little => bswap value
  | .big => value

/-- `AF_INET`. -/
def afInet : BitVec 16 := 2

/-- `AF_INET6`. -/
def afInet6 : BitVec 16 := 10

/-! ### IPv4 -/

/-- `IPv4Address`: the members of its `sockaddr_in`. -/
structure IPv4Address where
  sinFamily : BitVec 16
  sinPort : BitVec 16
  sAddr : BitVec 32
  sinZero : BitVec 64
  deriving DecidableEq, Repr

namespace IPv4Address

variable (host : Endian)

/-- `IPv4Address(uint32_t ip, uint16_t port)`. -/
def ofHostOrder (ip : BitVec 32) (port : BitVec 16) : IPv4Address where
  sinFamily := afInet
  sinPort := htons host port
  sAddr := htonl host ip
  sinZero := 0

/-- `getPort`. -/
def getPort (a : IPv4Address) : BitVec 16 := htons host a.sinPort

/-- `htonl(0xffffffff << (32 - prefixLen))`, which the three functions share. -/
def maskWord (prefixLen : ℕ) : Except Fault (BitVec 32) := do
  let shifted ← shiftLeft 0xffffffff#32 (32 - prefixLen)
  return htonl host shifted

/-- `broadcastAddress`. -/
def broadcastAddress (prefixLen : ℕ) (a : IPv4Address) : Except Fault (Option IPv4Address) :=
  if 32 < prefixLen then .ok none
  else do
    let word ← maskWord host prefixLen
    return some { a with sAddr := a.sAddr ||| word }

/-- `networkAddress`. -/
def networkAddress (prefixLen : ℕ) (a : IPv4Address) : Except Fault (Option IPv4Address) :=
  if 32 < prefixLen then .ok none
  else do
    let word ← maskWord host prefixLen
    return some { a with sAddr := a.sAddr &&& word }

/-- `subnetMask`. -/
def subnetMask (prefixLen : ℕ) (a : IPv4Address) : Except Fault (Option IPv4Address) :=
  if 32 < prefixLen then .ok none
  else do
    let word ← maskWord host prefixLen
    return some { a with sAddr := word }

/-- The bits of the address in network order. -/
def bits (a : IPv4Address) : Bits 32 := fun i ↦ bitAt (store host a.sAddr) i

end IPv4Address

/-! ### IPv6 -/

/-- `IPv6Address`: the members of its `sockaddr_in6`. -/
structure IPv6Address where
  sin6Family : BitVec 16
  sin6Port : BitVec 16
  sin6Flowinfo : BitVec 32
  s6Addr : List UInt8
  sin6ScopeId : BitVec 32
  length_eq : s6Addr.length = 16
  deriving DecidableEq

namespace IPv6Address

/-- `getPort`. -/
def getPort (host : Endian) (a : IPv6Address) : BitVec 16 := htons host a.sin6Port

/-- The low byte of an `int`. -/
def toByte (value : BitVec 32) : UInt8 := ⟨value.setWidth 8⟩

/-- A byte as an `int`. -/
def ofByte (byte : UInt8) : BitVec 32 := byte.toBitVec.setWidth 32

/-- The loop of `networkAddress` over the bytes from `i` on. -/
def networkLoop : ℕ → List UInt8 → Except Fault (List UInt8)
  | _, [] => .ok []
  | prefixLen, byte :: rest =>
    if 8 < prefixLen then do
      let others ← networkLoop (prefixLen - 8) rest
      return toByte (ofByte byte &&& 0xff) :: others
    else do
      let shifted ← shiftLeft 0xff (8 - prefixLen)
      let others ← networkLoop 0 rest
      return toByte (ofByte byte &&& shifted) :: others

/-- The loop of `subnetMask` over the bytes from `i` on, whose old values it does not read. -/
def maskLoop : ℕ → List UInt8 → Except Fault (List UInt8)
  | _, [] => .ok []
  | prefixLen, _ :: rest =>
    if 8 < prefixLen then do
      let others ← maskLoop (prefixLen - 8) rest
      return 0xff :: others
    else do
      let shifted ← shiftLeft 0xff (8 - prefixLen)
      let others ← maskLoop 0 rest
      return toByte shifted :: others

/-- The loop of `broadcastAddress`, for `i` from `start` to the last byte. -/
def fillLoop (start : ℕ) (bytes : List UInt8) : List UInt8 :=
  (List.range' start (16 - start)).foldl (fun bytes i ↦ bytes.set i 0xff) bytes

/-- The bytes of the broadcast address. -/
def broadcastBytes (prefixLen : ℕ) (bytes : List UInt8) : Except Fault (List UInt8) :=
  match bytes[prefixLen / 8]? with
  | none => .error (.index (prefixLen / 8))
  | some byte => do
    let shifted ← shiftRight 0xff (prefixLen % 8)
    return fillLoop (prefixLen / 8 + 1)
      (bytes.set (prefixLen / 8) (toByte (ofByte byte ||| shifted)))

/-- The bytes that `maskLoop` writes over `count` others. -/
def maskBytes : ℕ → ℕ → List UInt8
  | _, 0 => []
  | prefixLen, count + 1 =>
    if 8 < prefixLen then 0xff :: maskBytes (prefixLen - 8) count
    else toByte (0xff#32 <<< (8 - prefixLen)) :: maskBytes 0 count

theorem length_maskBytes (prefixLen count : ℕ) : (maskBytes prefixLen count).length = count := by
  induction count generalizing prefixLen with
  | zero => rfl
  | succ count ih =>
    rw [maskBytes]
    split_ifs with hlarge
    · rw [List.length_cons, ih]
    · rw [List.length_cons, ih]

theorem shiftLeft_of_lt (value : BitVec 32) {count : ℕ} (hcount : count < 32) :
    shiftLeft value count = .ok (value <<< count) := if_pos hcount

theorem shiftRight_of_lt (value : BitVec 32) {count : ℕ} (hcount : count < 32) :
    shiftRight value count = .ok (value >>> count) := if_pos hcount

/-- The loop of `subnetMask` comes to its end: no shift count is above 8. -/
theorem maskLoop_eq (bytes : List UInt8) :
    ∀ prefixLen, maskLoop prefixLen bytes = .ok (maskBytes prefixLen bytes.length) := by
  induction bytes with
  | nil => exact fun prefixLen ↦ rfl
  | cons byte rest ih =>
    intro prefixLen
    rw [maskLoop, List.length_cons, maskBytes]
    split_ifs with hlarge
    · rw [ih]
      rfl
    · rw [shiftLeft_of_lt _ (by omega), ih]
      rfl

theorem toByte_ofByte_and (byte : UInt8) (value : BitVec 32) :
    toByte (ofByte byte &&& value) = byte &&& toByte value := by
  apply UInt8.eq_of_toBitVec_eq
  rw [toByte, ofByte, BitVec.setWidth_and, BitVec.setWidth_setWidth_of_le _ (by omega),
    BitVec.setWidth_eq]
  rfl

theorem toByte_ofByte_or (byte : UInt8) (value : BitVec 32) :
    toByte (ofByte byte ||| value) = byte ||| toByte value := by
  apply UInt8.eq_of_toBitVec_eq
  rw [toByte, ofByte, BitVec.setWidth_or, BitVec.setWidth_setWidth_of_le _ (by omega),
    BitVec.setWidth_eq]
  rfl

/-- The loop of `networkAddress` puts the bytes of the mask on the bytes of the address. -/
theorem networkLoop_eq (bytes : List UInt8) :
    ∀ prefixLen, networkLoop prefixLen bytes =
      .ok (List.zipWith (· &&& ·) bytes (maskBytes prefixLen bytes.length)) := by
  induction bytes with
  | nil => exact fun prefixLen ↦ rfl
  | cons byte rest ih =>
    intro prefixLen
    rw [networkLoop, List.length_cons, maskBytes]
    split_ifs with hlarge
    · rw [ih, List.zipWith_cons_cons, toByte_ofByte_and]
      rfl
    · rw [shiftLeft_of_lt _ (by omega), ih, List.zipWith_cons_cons, ← toByte_ofByte_and]
      rfl

theorem length_fillLoop (start : ℕ) (bytes : List UInt8) :
    (fillLoop start bytes).length = bytes.length := by
  rw [fillLoop]
  induction List.range' start (16 - start) generalizing bytes with
  | nil => rfl
  | cons i rest ih => rw [List.foldl_cons, ih, List.length_set]

/-- The bytes of the broadcast address, where there is a byte to start from. -/
theorem broadcastBytes_eq {prefixLen : ℕ} {bytes : List UInt8}
    (hinside : prefixLen / 8 < bytes.length) :
    broadcastBytes prefixLen bytes =
      .ok (fillLoop (prefixLen / 8 + 1) (bytes.set (prefixLen / 8)
        (bytes[prefixLen / 8] ||| toByte (0xff#32 >>> (prefixLen % 8))))) := by
  rw [broadcastBytes, List.getElem?_eq_getElem hinside]
  simp only
  rw [shiftRight_of_lt _ (by omega), ← toByte_ofByte_or]
  rfl

theorem length_of_broadcastBytes {prefixLen : ℕ} {bytes result : List UInt8}
    (hresult : broadcastBytes prefixLen bytes = .ok result) : result.length = bytes.length := by
  by_cases hinside : prefixLen / 8 < bytes.length
  · rw [broadcastBytes_eq hinside, Except.ok.injEq] at hresult
    rw [← hresult, length_fillLoop, List.length_set]
  · rw [broadcastBytes, List.getElem?_eq_none (by omega)] at hresult
    exact absurd hresult (by simp)

theorem length_of_networkLoop {prefixLen : ℕ} {bytes result : List UInt8}
    (hresult : networkLoop prefixLen bytes = .ok result) : result.length = bytes.length := by
  rw [networkLoop_eq, Except.ok.injEq] at hresult
  rw [← hresult, List.length_zipWith, length_maskBytes, Nat.min_self]

theorem length_of_maskLoop {prefixLen : ℕ} {bytes result : List UInt8}
    (hresult : maskLoop prefixLen bytes = .ok result) : result.length = bytes.length := by
  rw [maskLoop_eq, Except.ok.injEq] at hresult
  rw [← hresult, length_maskBytes]

/-- A copy of the address with other bytes, as a shared pointer. -/
def withBytes (a : IPv6Address) (outcome : Except Fault (List UInt8))
    (hlength : ∀ bytes, outcome = .ok bytes → bytes.length = a.s6Addr.length) :
    Except Fault (Option IPv6Address) :=
  match outcome, hlength with
  | .error fault, _ => .error fault
  | .ok bytes, hlength =>
    .ok (some { a with s6Addr := bytes, length_eq := (hlength bytes rfl).trans a.length_eq })

/-- `broadcastAddress`. -/
def broadcastAddress (prefixLen : ℕ) (a : IPv6Address) : Except Fault (Option IPv6Address) :=
  if 128 < prefixLen then .ok none
  else a.withBytes (broadcastBytes prefixLen a.s6Addr) fun _ ↦ length_of_broadcastBytes

/-- `networkAddress`. -/
def networkAddress (prefixLen : ℕ) (a : IPv6Address) : Except Fault (Option IPv6Address) :=
  if 128 < prefixLen then .ok none
  else a.withBytes (networkLoop prefixLen a.s6Addr) fun _ ↦ length_of_networkLoop

/-- `subnetMask`. -/
def subnetMask (prefixLen : ℕ) (a : IPv6Address) : Except Fault (Option IPv6Address) :=
  if 128 < prefixLen then .ok none
  else a.withBytes (maskLoop prefixLen a.s6Addr) fun _ ↦ length_of_maskLoop

/-- Assumes: the loop came to its end with these bytes. -/
theorem withBytes_of_ok {a : IPv6Address} {outcome : Except Fault (List UInt8)} {bytes : List UInt8}
    (hok : outcome = .ok bytes) (hlength) :
    a.withBytes outcome hlength = .ok (some { a with
      s6Addr := bytes
      length_eq := (hlength bytes hok).trans a.length_eq }) := by
  subst hok
  rfl

/-- The bits of the address in network order. -/
def bits (a : IPv6Address) : Bits 128 := fun i ↦ bitAt a.s6Addr i

end IPv6Address

end Cczoe.Addresses
