import Cczoe.Address.Ordering
import Cczoe.Foundations.BlockStorage
import Cczoe.Net.TypedRoundTrip

/-!
# The path constructor of `unixAddress.cpp`

`UnixAddress(path)` checks the address length against the 108 bytes of `sun_path`, a `socklen_t` of
32 bits that does not count the terminating NUL of an abstract path. It then copies
`path.size() + 1` bytes, with that NUL. The two differ for abstract paths, and for a path so long
that its length does not fit 32 bits.

`ofPath_sound_iff` is the exact condition under which the constructor throws or stores the path. An
address that was built is read by `Address::operator<` as its family, its path and, for an ordinary
path, a NUL (`bytes_ofPath`).
-/

set_option autoImplicit false
set_option relaxedAutoImplicit false

namespace Cczoe.Addresses

open Foundations.BlockStorage
open Net (Endian store)

/-- `AF_UNIX`. -/
def afUnix : BitVec 16 := 1

/-- `sizeof(sun_path)`. -/
def sunPathSize : ℕ := 108

/-- `offsetof(sockaddr_un, sun_path)`. -/
def sunPathOffset : ℕ := 2

/-- `UnixAddress`: the members of its `sockaddr_un`, and `m_addrLen`. -/
structure UnixAddress where
  sunFamily : BitVec 16
  sunPath : List UInt8
  addrLen : UInt32
  length_eq : sunPath.length = sunPathSize
  deriving DecidableEq

/-- How the constructor ends without an address: the exception it throws, or a `memcpy` of more
bytes than `sun_path` has. -/
inductive UnixAddress.Failure
  | runtimeError (what : String)
  | overrun (copied : ℕ)
  deriving DecidableEq, Repr

namespace UnixAddress

/-- An abstract path starts with a NUL. -/
def IsAbstract (path : List UInt8) : Prop := path.head? = some 0

instance (path : List UInt8) : Decidable (IsAbstract path) :=
  inferInstanceAs (Decidable (path.head? = some 0))

/-- `m_addrLen` when it is checked. -/
def checkedLen (path : List UInt8) : UInt32 :=
  if IsAbstract path then UInt32.ofNat (path.length + 1) - 1 else UInt32.ofNat (path.length + 1)

/-- `UnixAddress(path)`. -/
def ofPath (path : List UInt8) : Except Failure UnixAddress :=
  if sunPathSize < (checkedLen path).toNat then .error (.runtimeError "UnixAddress: path too long")
  else if hroom : path.length + 1 ≤ sunPathSize then
    .ok {
      sunFamily := afUnix
      sunPath := overwrite (List.replicate sunPathSize 0) 0 (path ++ [0])
      addrLen := checkedLen path + UInt32.ofNat sunPathOffset
      length_eq := by
        rw [length_overwrite, List.length_replicate]
        rwa [List.length_replicate, List.length_append, List.length_singleton, Nat.zero_add] }
  else .error (.overrun (path.length + 1))

/-- The bytes of `sun_path` that an address counts. -/
def neededLen (path : List UInt8) : ℕ :=
  if IsAbstract path then path.length else path.length + 1

/-- The checked length is the needed one in 32 bits. -/
theorem toNat_checkedLen (path : List UInt8) :
    (checkedLen path).toNat = neededLen path % 2 ^ 32 := by
  rw [checkedLen, neededLen]
  split_ifs with habstract
  · have hpred : UInt32.ofNat (path.length + 1) - 1 = UInt32.ofNat path.length := by
      rw [UInt32.ofNat_add]
      exact UInt32.add_sub_cancel _ _
    rw [hpred, UInt32.toNat_ofNat']
  · exact UInt32.toNat_ofNat'

/-- The constructor throws exactly when the path does not fit, and otherwise stores it at the
beginning of `sun_path` and counts it. -/
def Sound (path : List UInt8) : Prop :=
  match ofPath path with
  | .error (.runtimeError _) => sunPathSize < neededLen path
  | .error (.overrun _) => False
  | .ok a => neededLen path ≤ sunPathSize ∧ path.length + 1 ≤ sunPathSize ∧
      path <+: a.sunPath ∧ a.addrLen.toNat = sunPathOffset + neededLen path

/-- A path that is stored with its NUL is at the beginning of `sun_path`. -/
theorem sunPath_eq (path : List UInt8) :
    overwrite (List.replicate sunPathSize 0) 0 (path ++ [0]) =
      path ++ ([0] ++ (List.replicate sunPathSize 0).drop (path.length + 1)) := by
  rw [overwrite, List.take_zero, List.nil_append, List.append_assoc, Nat.zero_add,
    List.length_append, List.length_singleton]

/-- The constructor is sound for the paths that fit with their NUL, and for those whose length is
refused in 32 bits. -/
theorem ofPath_sound_iff (path : List UInt8) :
    Sound path ↔
      path.length + 1 ≤ sunPathSize ∨ sunPathSize < neededLen path % 2 ^ 32 := by
  have hneeded : neededLen path ≤ path.length + 1 := by
    rw [neededLen]
    split_ifs
    · exact Nat.le_succ _
    · exact le_refl _
  have hchecked := toNat_checkedLen path
  by_cases hlong : sunPathSize < neededLen path % 2 ^ 32
  · have hthrows : ofPath path = .error (.runtimeError "UnixAddress: path too long") := by
      rw [ofPath, hchecked, if_pos hlong]
    rw [Sound, hthrows]
    exact iff_of_true (hlong.trans_le (Nat.mod_le _ _)) (Or.inr hlong)
  · rw [or_iff_left hlong]
    by_cases hroom : path.length + 1 ≤ sunPathSize
    · have hsmall : neededLen path < 2 ^ 32 := by
        rw [sunPathSize] at hroom
        omega
      rw [Sound, ofPath, hchecked, if_neg hlong, dif_pos hroom]
      refine iff_of_true ⟨hneeded.trans hroom, hroom, ?_, ?_⟩ hroom
      · exact ⟨_, (sunPath_eq path).symm⟩
      · have hoffset : (UInt32.ofNat sunPathOffset).toNat = 2 := rfl
        change (checkedLen path + UInt32.ofNat sunPathOffset).toNat = 2 + neededLen path
        rw [UInt32.toNat_add, hchecked, hoffset, Nat.mod_eq_of_lt hsmall]
        rw [sunPathSize] at hroom
        omega
    · have hoverrun : ofPath path = .error (.overrun (path.length + 1)) := by
        rw [ofPath, hchecked, if_neg hlong, dif_neg hroom]
      rw [Sound, hoverrun]
      exact iff_of_false id hroom

/-- An abstract path of 108 bytes passes the check, and 109 bytes are copied. -/
theorem not_sound_abstract_108 : ¬ Sound (0 :: List.replicate 107 97) := by
  have hoverrun : ofPath (0 :: List.replicate 107 97) = .error (.overrun 109) := by decide
  rw [Sound, hoverrun]
  exact id

/-! ### As an address -/

/-- `getAddr` and `getAddrLen`. Assumes: a length inside the `sockaddr_un`. -/
def address (host : Endian) (a : UnixAddress) (hinside : a.addrLen.toNat ≤ 110) : Address where
  getAddr := store host a.sunFamily ++ a.sunPath
  getAddrLen := a.addrLen.toNat
  inside := by
    have hfamily : (store host a.sunFamily).length = 2 := Net.length_store host _
    have hpath : a.sunPath.length = 108 := a.length_eq
    rwa [List.length_append, hfamily, hpath]

/-- What is stored of a path. -/
theorem members_ofPath {path : List UInt8} {a : UnixAddress} (hbuilt : ofPath path = .ok a) :
    a.sunFamily = afUnix ∧
      a.sunPath = path ++ ([0] ++ (List.replicate sunPathSize 0).drop (path.length + 1)) := by
  rw [ofPath] at hbuilt
  split_ifs at hbuilt with hlong hroom
  rw [Except.ok.injEq] at hbuilt
  rw [← hbuilt]
  exact ⟨rfl, sunPath_eq path⟩

/-- Assumes: an address built from a path that fits with its NUL. Its length lies inside the
`sockaddr_un`, and its bytes are the family, the path and, for an ordinary path, a NUL. -/
theorem bytes_ofPath (host : Endian) {path : List UInt8} {a : UnixAddress}
    (hroom : path.length + 1 ≤ sunPathSize) (hbuilt : ofPath path = .ok a) :
    ∃ hinside : a.addrLen.toNat ≤ 110,
      (a.address host hinside).bytes =
        store host afUnix ++ path ++ if IsAbstract path then [] else [0] := by
  have hsound := (ofPath_sound_iff path).mpr (Or.inl hroom)
  rw [Sound, hbuilt] at hsound
  obtain ⟨hneeded, -, -, hlen⟩ := hsound
  rw [sunPathSize] at hneeded
  rw [sunPathOffset] at hlen
  obtain ⟨hfamily, hpath⟩ := members_ofPath hbuilt
  have hstore : (store host afUnix).length = 2 := Net.length_store host _
  refine ⟨by omega, ?_⟩
  change (store host a.sunFamily ++ a.sunPath).take a.addrLen.toNat = _
  rw [hfamily, hpath, hlen, List.append_assoc, ← hstore, List.take_length_add_append, neededLen]
  split_ifs with habstract
  · rw [List.take_left, List.append_nil]
  · rw [List.take_length_add_append, List.take_append_of_le_length (le_refl 1)]
    rfl

end UnixAddress

end Cczoe.Addresses
