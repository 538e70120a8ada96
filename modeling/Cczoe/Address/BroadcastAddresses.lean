import Cczoe.Address.SubnetMasks

/-!
# Broadcast addresses

The broadcast address of a prefix keeps the first bits and sets the others. `IPv6Address` does so
byte by byte, except for the prefix length 128, where it writes behind the sixteen bytes.
`IPv4Address` puts the subnet mask itself on the address, not its complement: it sets the first bits
and keeps the others. The result is right for one address only, the one with all bits set.

`broadcastAddress_right_iff` is the exact condition for both.
-/

set_option autoImplicit false
set_option relaxedAutoImplicit false

namespace Cczoe.Addresses

open Foundations.PrefixBits
open Net (Endian store)

/-! ### IPv4 -/

namespace IPv4Address

variable (host : Endian)

/-- For a prefix length up to 32 the result has the first bits of the address, all others set, and
its family and port. For a larger one there is none. -/
def Broadcasts (prefixLen : ℕ) (a : IPv4Address) : Prop :=
  (prefixLen ≤ 32 → ∃ broadcast, broadcastAddress host prefixLen a = .ok (some broadcast) ∧
    broadcast.bits host = broadcastOf prefixLen (a.bits host) ∧
    broadcast.sinFamily = a.sinFamily ∧ broadcast.sinPort = a.sinPort) ∧
  (32 < prefixLen → broadcastAddress host prefixLen a = .ok none)

theorem place_lt {i : ℕ} (hi : i < 32) : place host i < 32 := by
  cases host with
  | little =>
    rw [place]
    omega
  | big =>
    rw [place]
    omega

/-- All bits are set in 255.255.255.255 only. -/
theorem bits_eq_top_iff (a : IPv4Address) : a.bits host = ⊤ ↔ a.sAddr = 0xffffffff#32 := by
  have hones : 0xffffffff#32 = BitVec.allOnes 32 := rfl
  have hset : ∀ i < 32, bitAt (store host (0xffffffff#32)) i = true := by
    intro i hi
    rw [bitAt_store host _ hi, hones, BitVec.getLsbD_allOnes, decide_eq_true (place_lt host hi)]
  constructor
  · intro htop
    have hbytes : store host a.sAddr = store host (0xffffffff#32) := by
      have hlength (value : BitVec 32) : (store host value).length = 4 :=
        Net.length_store host value
      apply eq_of_bitAt_eq _ _ ((hlength _).trans (hlength _).symm)
      intro i hi
      rw [hlength] at hi
      rw [hset i hi]
      exact congrFun htop ⟨i, hi⟩
    rw [← Net.load_store host (by decide) a.sAddr, hbytes, Net.load_store host (by decide)]
  · intro hword
    funext i
    rw [bits, hword]
    exact hset i i.isLt

/-- Assumes: a prefix length from 1 to 32. The result has its first bits set and keeps the
others. -/
theorem broadcastAddress_eq {prefixLen : ℕ} (hpos : 0 < prefixLen) (hle : prefixLen ≤ 32)
    (a : IPv4Address) :
    ∃ broadcast, broadcastAddress host prefixLen a = .ok (some broadcast) ∧
      broadcast.bits host = a.bits host ⊔ firstBits prefixLen ∧
      broadcast.sinFamily = a.sinFamily ∧ broadcast.sinPort = a.sinPort := by
  have hword := maskWord_of_pos host hpos
  have hbits := bits_maskWord host hle a
  refine ⟨{ a with sAddr := a.sAddr ||| htonl host (0xffffffff#32 <<< (32 - prefixLen)) }, ?_, ?_,
    rfl, rfl⟩
  · rw [broadcastAddress, if_neg (by omega), hword]
    rfl
  · rw [bits_or, hbits]

theorem broadcasts_iff (prefixLen : ℕ) (a : IPv4Address) :
    Broadcasts host prefixLen a ↔
      32 < prefixLen ∨ prefixLen ≠ 0 ∧ a.sAddr = 0xffffffff#32 := by
  by_cases hlarge : 32 < prefixLen
  · exact iff_of_true ⟨fun hle ↦ absurd hle (by omega), fun _ ↦ if_pos hlarge⟩ (Or.inl hlarge)
  · have hle : prefixLen ≤ 32 := by omega
    rw [Broadcasts, or_iff_right hlarge]
    by_cases hzero : prefixLen = 0
    · -- the shift count is the width of the word
      have hfault : broadcastAddress host 0 a = .error (.shiftCount 32) := rfl
      subst hzero
      refine iff_of_false ?_ fun hcondition ↦ hcondition.1 rfl
      rintro ⟨hinside, -⟩
      obtain ⟨broadcast, hreturn, -⟩ := hinside hle
      rw [hfault] at hreturn
      exact absurd hreturn (by simp)
    · obtain ⟨broadcast, hreturn, hbits, hfamily, hport⟩ :=
        broadcastAddress_eq host (Nat.pos_of_ne_zero hzero) hle a
      rw [← bits_eq_top_iff host, ← sup_firstBits_eq_broadcastOf_iff prefixLen, ← hbits]
      constructor
      · rintro ⟨hinside, -⟩
        obtain ⟨other, hother, hotherBits, -⟩ := hinside hle
        rw [hreturn, Except.ok.injEq, Option.some.injEq] at hother
        rw [hother]
        exact ⟨hzero, hotherBits⟩
      · rintro ⟨-, hright⟩
        exact ⟨fun _ ↦ ⟨broadcast, hreturn, hright, hfamily, hport⟩,
          fun hmore ↦ absurd hmore hlarge⟩

end IPv4Address

/-! ### IPv6 -/

namespace IPv6Address

/-- For a prefix length up to 128 the result has the first bits of the address, all others set, and
its family and port. For a larger one there is none. -/
def Broadcasts (prefixLen : ℕ) (a : IPv6Address) : Prop :=
  (prefixLen ≤ 128 → ∃ broadcast, broadcastAddress prefixLen a = .ok (some broadcast) ∧
    broadcast.bits = broadcastOf prefixLen a.bits ∧
    broadcast.sin6Family = a.sin6Family ∧ broadcast.sin6Port = a.sin6Port) ∧
  (128 < prefixLen → broadcastAddress prefixLen a = .ok none)

/-- What setting a range of bytes does to one of them. -/
theorem getD_foldl_set (count : ℕ) :
    ∀ (start j : ℕ) (bytes : List UInt8), start + count ≤ bytes.length →
      ((List.range' start count).foldl (fun bytes i ↦ bytes.set i 0xff) bytes).getD j 0 =
        if start ≤ j ∧ j < start + count then 0xff else bytes.getD j 0 := by
  induction count with
  | zero =>
    intro start j bytes _
    rw [if_neg (by omega)]
    rfl
  | succ count ih =>
    intro start j bytes hinside
    rw [List.range'_succ, List.foldl_cons,
      ih (start + 1) j (bytes.set start 0xff) (by rw [List.length_set]; omega)]
    by_cases hfirst : j = start
    · rw [if_neg (by omega), if_pos (by omega), hfirst, List.getD_eq_getElem?_getD,
        List.getElem?_set_self (by omega)]
      rfl
    · have hother : (bytes.set start 0xff).getD j 0 = bytes.getD j 0 := by
        rw [List.getD_eq_getElem?_getD, List.getElem?_set_ne (Ne.symm hfirst),
          ← List.getD_eq_getElem?_getD]
      rw [hother]
      exact if_congr (by omega) rfl rfl

/-- The byte that the prefix ends in gets its low bits set. -/
theorem getMsbD_low {count i : ℕ} (hcount : count < 8) (hi : i < 8) :
    (toByte (0xff#32 >>> count)).toBitVec.getMsbD i = !decide (i < count) := by
  have hall : ∀ p < 8, ∀ k < 8,
      (toByte (0xff#32 >>> p)).toBitVec.getMsbD k = !decide (k < p) := by decide
  exact hall count hcount i hi

/-- Assumes: a prefix that ends in one of the sixteen bytes. The bits of the broadcast address. -/
theorem bitAt_broadcast (a : IPv6Address) {prefixLen : ℕ}
    (hinside : prefixLen / 8 < a.s6Addr.length) {i : ℕ} (hi : i < 128) :
    bitAt (fillLoop (prefixLen / 8 + 1) (a.s6Addr.set (prefixLen / 8)
        (a.s6Addr[prefixLen / 8] ||| toByte (0xff#32 >>> (prefixLen % 8))))) i =
      (bitAt a.s6Addr i || !decide (i < prefixLen)) := by
  have hlength := a.length_eq
  rw [bitAt, bitAt, fillLoop, getD_foldl_set _ _ _ _ (by rw [List.length_set]; omega)]
  rcases lt_trichotomy (i / 8) (prefixLen / 8) with hbefore | hat | hbehind
  · have hkept : i < prefixLen := by omega
    rw [if_neg (by omega), List.getD_eq_getElem?_getD, List.getElem?_set_ne (by omega),
      ← List.getD_eq_getElem?_getD, decide_eq_true hkept, Bool.not_true, Bool.or_false]
  · have hplace : i % 8 < prefixLen % 8 ↔ i < prefixLen := by omega
    rw [if_neg (by omega), hat, List.getD_eq_getElem?_getD, List.getElem?_set_self hinside,
      Option.getD_some, List.getD_eq_getElem _ _ hinside, UInt8.toBitVec_or, BitVec.getMsbD_or,
      getMsbD_low (Nat.mod_lt _ (by omega)) (Nat.mod_lt _ (by omega)),
      decide_eq_decide.mpr hplace]
  · have hset : ¬ i < prefixLen := by omega
    have hbyte : (0xff : UInt8).toBitVec = BitVec.allOnes 8 := rfl
    rw [if_pos (by omega), hbyte, BitVec.getMsbD_allOnes, decide_eq_false hset, Bool.not_false,
      Bool.or_true, decide_eq_true (Nat.mod_lt _ (by omega))]

/-- The prefix length 128 makes the function write behind the sixteen bytes. -/
theorem broadcastAddress_full (a : IPv6Address) :
    broadcastAddress 128 a = .error (.index 16) := by
  have hloop : broadcastBytes 128 a.s6Addr = .error (.index 16) := by
    rw [broadcastBytes, List.getElem?_eq_none (by rw [a.length_eq])]
  have hwith {outcome : Except Fault (List UInt8)} (houtcome : outcome = .error (.index 16))
      (hlength) : a.withBytes outcome hlength = .error (.index 16) := by
    subst houtcome
    rfl
  exact hwith hloop _

theorem broadcasts_iff (prefixLen : ℕ) (a : IPv6Address) :
    Broadcasts prefixLen a ↔ prefixLen ≠ 128 := by
  rcases lt_trichotomy prefixLen 128 with hless | hfull | hmore
  · refine iff_of_true ⟨fun _ ↦ ?_, fun hlarge ↦ absurd hlarge (by omega)⟩ (by omega)
    have hinside : prefixLen / 8 < a.s6Addr.length := by
      rw [a.length_eq]
      omega
    have hreturn := withBytes_of_ok (broadcastBytes_eq hinside) fun _ ↦ length_of_broadcastBytes
    refine ⟨_, (if_neg (by omega)).trans hreturn, ?_, rfl, rfl⟩
    funext i
    exact bitAt_broadcast a hinside i.isLt
  · subst hfull
    refine iff_of_false ?_ fun hother ↦ hother rfl
    rintro ⟨hinside, -⟩
    obtain ⟨broadcast, hreturn, -⟩ := hinside (le_refl 128)
    rw [broadcastAddress_full] at hreturn
    exact absurd hreturn (by simp)
  · exact iff_of_true ⟨fun hle ↦ absurd hle (by omega), fun _ ↦ if_pos hmore⟩ (by omega)

end IPv6Address

/-! ### Both -/

/-- Which broadcast addresses are right: of IPv4 only those of 255.255.255.255, with at least one
bit in the prefix, and of IPv6 all but those with the whole address in the prefix. -/
theorem broadcastAddress_right_iff (host : Endian) (prefixLen : ℕ) :
    (∀ a : IPv4Address, a.Broadcasts host prefixLen ↔
      32 < prefixLen ∨ prefixLen ≠ 0 ∧ a.sAddr = 0xffffffff#32) ∧
    ∀ a : IPv6Address, a.Broadcasts prefixLen ↔ prefixLen ≠ 128 :=
  ⟨IPv4Address.broadcasts_iff host prefixLen, IPv6Address.broadcasts_iff prefixLen⟩

/-- The broadcast address of 127.0.0.1/24 would be 127.0.0.255, but 255.255.255.1 is returned. -/
theorem not_broadcasts_loopback :
    ¬ (IPv4Address.ofHostOrder .little 0x7f000001#32 5000#16).Broadcasts .little 24 ∧
      IPv4Address.broadcastAddress .little 24
          (IPv4Address.ofHostOrder .little 0x7f000001#32 5000#16) =
        .ok (some (IPv4Address.ofHostOrder .little 0xffffff01#32 5000#16)) := by
  rw [IPv4Address.broadcasts_iff]
  exact ⟨by decide, by decide⟩

end Cczoe.Addresses
