import Cczoe.Address.IPAddress

/-!
# Subnet masks and network addresses

The bits of an IPv4 address are those of its word in the memory of the host, so `|=` and `&=` on
network-order words act bit by bit (`bits_or`, `bits_and`) and `htonl` puts the high bit first
(`bitAt_store_htonl`). The mask of the three IPv4 functions has exactly its first `prefixLen` bits
set, but its shift count is 32 for the prefix length 0, which is the width of the operand.
`subnetLaws_iff` is the exact condition.

The IPv6 loops consume the prefix length byte by byte. `bitAt_maskBytes` is what they have set at
any point, and `networkAddress_networkAddress` the law for two prefix lengths.
-/

set_option autoImplicit false
set_option relaxedAutoImplicit false

namespace Cczoe.Addresses

open Foundations.ByteNumerals Foundations.PrefixBits
open Net (Endian store bswap)

/-! ### IPv4 -/

namespace IPv4Address

variable (host : Endian)

/-- The place in a word of the bit that stands at place `i` in network order. -/
def place (i : ℕ) : ℕ :=
  match host with
  | .little => 8 * (i / 8) + (7 - i % 8)
  | .big => 31 - i

theorem bitAt_store (value : BitVec 32) {i : ℕ} (hi : i < 32) :
    bitAt (store host value) i = value.getLsbD (place host i) := by
  cases host with
  | little => exact bitAt_littleEndian 4 value.toNat i hi
  | big => exact bitAt_reverse_littleEndian 4 value.toNat i hi

/-- `|=` on the words acts bit by bit. -/
theorem bits_or (a : IPv4Address) (word : BitVec 32) :
    ({ a with sAddr := a.sAddr ||| word } : IPv4Address).bits host =
      a.bits host ⊔ ({ a with sAddr := word } : IPv4Address).bits host := by
  funext i
  change bitAt (store host (a.sAddr ||| word)) i =
    (bitAt (store host a.sAddr) i || bitAt (store host word) i)
  rw [bitAt_store host _ i.isLt, bitAt_store host _ i.isLt, bitAt_store host _ i.isLt,
    BitVec.getLsbD_or]

/-- `&=` on the words acts bit by bit. -/
theorem bits_and (a : IPv4Address) (word : BitVec 32) :
    ({ a with sAddr := a.sAddr &&& word } : IPv4Address).bits host =
      a.bits host ⊓ ({ a with sAddr := word } : IPv4Address).bits host := by
  funext i
  change bitAt (store host (a.sAddr &&& word)) i =
    (bitAt (store host a.sAddr) i && bitAt (store host word) i)
  rw [bitAt_store host _ i.isLt, bitAt_store host _ i.isLt, bitAt_store host _ i.isLt,
    BitVec.getLsbD_and]

/-- The bytes of a word in network order, most significant byte first. -/
theorem store_htonl (value : BitVec 32) :
    store host (htonl host value) = (littleEndian 4 value.toNat).reverse := by
  cases host with
  | little => exact Net.littleEndian_bswap (by decide) value
  | big => rfl

theorem bitAt_store_htonl (value : BitVec 32) {i : ℕ} (hi : i < 32) :
    bitAt (store host (htonl host value)) i = value.getMsbD i := by
  rw [store_htonl, bitAt_reverse_littleEndian 4 _ _ hi, BitVec.getMsbD]
  simp [hi]
  rfl

/-- The mask of a prefix length has its first bits set. -/
theorem getMsbD_mask {prefixLen : ℕ} (hle : prefixLen ≤ 32) (i : ℕ) :
    (0xffffffff#32 <<< (32 - prefixLen)).getMsbD i = decide (i < prefixLen) := by
  have hones : 0xffffffff#32 = BitVec.allOnes 32 := rfl
  rw [hones, BitVec.getMsbD_shiftLeft, BitVec.getMsbD_allOnes]
  exact decide_eq_decide.mpr (by omega)

theorem maskWord_of_pos {prefixLen : ℕ} (hpos : 0 < prefixLen) :
    maskWord host prefixLen = .ok (htonl host (0xffffffff#32 <<< (32 - prefixLen))) := by
  rw [maskWord, shiftLeft, if_pos (by omega)]
  rfl

/-- The shift count for the prefix length 0 is the width of the operand. -/
theorem maskWord_zero : maskWord host 0 = .error (.shiftCount 32) := rfl

/-- Assumes: a prefix length from 1 to 32. The word of the mask has exactly its first bits set. -/
theorem bits_maskWord {prefixLen : ℕ} (hle : prefixLen ≤ 32) (a : IPv4Address) :
    ({ a with sAddr := htonl host (0xffffffff#32 <<< (32 - prefixLen)) } : IPv4Address).bits host =
      firstBits prefixLen := by
  funext i
  exact (bitAt_store_htonl host _ i.isLt).trans (getMsbD_mask hle i)

/-- For a prefix length up to 32, both functions return an address: the mask with exactly the first
bits set, and the address with the others cleared, which is its own network address. -/
def SubnetLaws (prefixLen : ℕ) (a : IPv4Address) : Prop :=
  prefixLen ≤ 32 → ∃ mask network,
    subnetMask host prefixLen a = .ok (some mask) ∧
    networkAddress host prefixLen a = .ok (some network) ∧
    mask.bits host = firstBits prefixLen ∧
    network.bits host = networkPart prefixLen (a.bits host) ∧
    networkAddress host prefixLen network = .ok (some network)

/-- The functions meet their laws for every prefix length but 0, where they shift a word by its own
width. -/
theorem subnetLaws_iff (prefixLen : ℕ) (a : IPv4Address) :
    SubnetLaws host prefixLen a ↔ prefixLen ≠ 0 := by
  constructor
  · rintro hlaws rfl
    obtain ⟨mask, network, hmask, -⟩ := hlaws (Nat.zero_le 32)
    have hfault : subnetMask host 0 a = .error (.shiftCount 32) := rfl
    rw [hfault] at hmask
    exact absurd hmask (by simp)
  · intro hpos hle
    have hword := maskWord_of_pos host (Nat.pos_of_ne_zero hpos)
    have hbits := bits_maskWord host hle a
    generalize htonl host (0xffffffff#32 <<< (32 - prefixLen)) = word at hword hbits
    have hnetwork (b : IPv4Address) :
        networkAddress host prefixLen b = .ok (some { b with sAddr := b.sAddr &&& word }) := by
      rw [networkAddress, if_neg (by omega), hword]
      rfl
    refine ⟨{ a with sAddr := word }, { a with sAddr := a.sAddr &&& word }, ?_, hnetwork a, hbits,
      ?_, ?_⟩
    · rw [subnetMask, if_neg (by omega), hword]
      rfl
    · rw [bits_and, hbits, networkPart]
    · rw [hnetwork, BitVec.and_assoc, BitVec.and_self]

/-- The prefix length 0 has no defined mask. -/
theorem not_subnetLaws_zero :
    ¬ SubnetLaws .little 0 (ofHostOrder .little 0x7f000001#32 5000#16) := by
  intro hlaws
  obtain ⟨mask, network, hmask, -⟩ := hlaws (Nat.zero_le 32)
  rw [subnetMask, if_neg (by omega), maskWord_zero] at hmask
  exact absurd hmask (by simp [bind, Except.bind])

end IPv4Address

/-! ### IPv6 -/

namespace IPv6Address

/-- The partial byte of a mask. -/
theorem getMsbD_partial {prefixLen i : ℕ} (hle : prefixLen ≤ 8) (hi : i < 8) :
    (toByte (0xff#32 <<< (8 - prefixLen))).toBitVec.getMsbD i = decide (i < prefixLen) := by
  have hall : ∀ p ≤ 8, ∀ k < 8,
      (toByte (0xff#32 <<< (8 - p))).toBitVec.getMsbD k = decide (k < p) := by decide
  exact hall prefixLen hle i hi

/-- The mask has exactly its first bits set, however many bytes there are. -/
theorem bitAt_maskBytes (count : ℕ) :
    ∀ prefixLen i : ℕ, i < 8 * count →
      bitAt (maskBytes prefixLen count) i = decide (i < prefixLen) := by
  induction count with
  | zero => exact fun _ _ hi ↦ absurd hi (Nat.not_lt_zero _)
  | succ count ih =>
    intro prefixLen i hi
    rw [maskBytes]
    split_ifs with hlarge
    · by_cases hfirst : i < 8
      · rw [bitAt_cons_of_lt _ _ hfirst, decide_eq_true (by omega)]
        have hbyte : (0xff : UInt8).toBitVec = BitVec.allOnes 8 := rfl
        rw [hbyte, BitVec.getMsbD_allOnes, decide_eq_true hfirst]
      · rw [bitAt_cons_of_le _ _ (by omega), ih _ _ (by omega)]
        exact decide_eq_decide.mpr (by omega)
    · by_cases hfirst : i < 8
      · rw [bitAt_cons_of_lt _ _ hfirst, getMsbD_partial (by omega) hfirst]
      · -- nothing of the prefix is left behind the partial byte
        rw [bitAt_cons_of_le _ _ (by omega), ih _ _ (by omega)]
        exact decide_eq_decide.mpr (by omega)

/-- Bits of the bytes that two lists have in common. -/
theorem bitAt_zipWith_and (first : List UInt8) :
    ∀ (second : List UInt8) (i : ℕ), first.length = second.length →
      bitAt (List.zipWith (· &&& ·) first second) i = (bitAt first i && bitAt second i) := by
  induction first with
  | nil =>
    intro second i hlength
    rw [List.length_eq_zero_iff.mp hlength.symm]
    simp [bitAt]
  | cons byte rest ih =>
    intro second i hlength
    cases second with
    | nil => exact absurd hlength (Nat.succ_ne_zero _)
    | cons other others =>
      rw [List.zipWith_cons_cons]
      by_cases hfirst : i < 8
      · rw [bitAt_cons_of_lt _ _ hfirst, bitAt_cons_of_lt _ _ hfirst, bitAt_cons_of_lt _ _ hfirst]
        exact BitVec.getMsbD_and
      · rw [bitAt_cons_of_le _ _ (by omega), bitAt_cons_of_le _ _ (by omega),
          bitAt_cons_of_le _ _ (by omega), ih _ _ (Nat.succ_inj.mp hlength)]

/-- The two addresses agree in everything but their bytes. -/
structure SameFields (a b : IPv6Address) : Prop where
  family_eq : a.sin6Family = b.sin6Family
  port_eq : a.sin6Port = b.sin6Port
  flowinfo_eq : a.sin6Flowinfo = b.sin6Flowinfo
  scopeId_eq : a.sin6ScopeId = b.sin6ScopeId

theorem SameFields.trans {a b c : IPv6Address} (hab : a.SameFields b) (hbc : b.SameFields c) :
    a.SameFields c :=
  ⟨hab.family_eq.trans hbc.family_eq, hab.port_eq.trans hbc.port_eq,
    hab.flowinfo_eq.trans hbc.flowinfo_eq, hab.scopeId_eq.trans hbc.scopeId_eq⟩

theorem SameFields.symm {a b : IPv6Address} (hab : a.SameFields b) : b.SameFields a :=
  ⟨hab.family_eq.symm, hab.port_eq.symm, hab.flowinfo_eq.symm, hab.scopeId_eq.symm⟩

/-- Assumes: the same fields and the same bits. The addresses are the same. -/
theorem SameFields.eq_of_bits {a b : IPv6Address} (hsame : a.SameFields b)
    (hbits : a.bits = b.bits) : a = b := by
  have hbytes : a.s6Addr = b.s6Addr := by
    apply eq_of_bitAt_eq _ _ (a.length_eq.trans b.length_eq.symm)
    intro i hi
    rw [a.length_eq] at hi
    exact congrFun hbits ⟨i, hi⟩
  obtain ⟨hfamily, hport, hflowinfo, hscopeId⟩ := hsame
  cases a
  cases b
  simp only at hbytes hfamily hport hflowinfo hscopeId
  subst hbytes hfamily hport hflowinfo hscopeId
  rfl

/-- Assumes: a prefix length up to 128. `subnetMask` returns the address with exactly its first bits
set. -/
theorem subnetMask_spec (a : IPv6Address) {prefixLen : ℕ} (hle : prefixLen ≤ 128) :
    ∃ mask, subnetMask prefixLen a = .ok (some mask) ∧ mask.SameFields a ∧
      mask.s6Addr = maskBytes prefixLen 16 ∧ mask.bits = firstBits prefixLen := by
  have hloop := maskLoop_eq a.s6Addr prefixLen
  rw [a.length_eq] at hloop
  have hreturn := withBytes_of_ok hloop fun _ ↦ length_of_maskLoop
  refine ⟨_, (if_neg (by omega)).trans hreturn, ⟨rfl, rfl, rfl, rfl⟩, rfl, ?_⟩
  funext i
  exact bitAt_maskBytes 16 prefixLen i i.isLt

/-- Assumes: a prefix length up to 128. `networkAddress` returns the address with the other bits
cleared. -/
theorem networkAddress_spec (a : IPv6Address) {prefixLen : ℕ} (hle : prefixLen ≤ 128) :
    ∃ network, networkAddress prefixLen a = .ok (some network) ∧ network.SameFields a ∧
      network.s6Addr = List.zipWith (· &&& ·) a.s6Addr (maskBytes prefixLen 16) ∧
      network.bits = networkPart prefixLen a.bits := by
  have hloop := networkLoop_eq a.s6Addr prefixLen
  rw [a.length_eq] at hloop
  have hreturn := withBytes_of_ok hloop fun _ ↦ length_of_networkLoop
  refine ⟨_, (if_neg (by omega)).trans hreturn, ⟨rfl, rfl, rfl, rfl⟩, rfl, ?_⟩
  funext i
  have hlength : a.s6Addr.length = (maskBytes prefixLen 16).length := by
    rw [length_maskBytes, a.length_eq]
  change bitAt (List.zipWith (· &&& ·) a.s6Addr (maskBytes prefixLen 16)) i =
    (bitAt a.s6Addr i && decide (i.val < prefixLen))
  rw [bitAt_zipWith_and _ _ _ hlength, bitAt_maskBytes 16 prefixLen i i.isLt]

/-- Assumes: two prefix lengths up to 128. Network addresses of network addresses are network
addresses for the shorter prefix. -/
theorem networkAddress_networkAddress (a : IPv6Address) {p q : ℕ} (hp : p ≤ 128) (hq : q ≤ 128) :
    ∃ inner, networkAddress q a = .ok (some inner) ∧
      networkAddress p inner = networkAddress (min p q) a := by
  obtain ⟨inner, hinner, hinnerFields, -, hinnerBits⟩ := networkAddress_spec a hq
  obtain ⟨outer, houter, houterFields, -, houterBits⟩ := networkAddress_spec inner hp
  obtain ⟨least, hleast, hleastFields, -, hleastBits⟩ :=
    networkAddress_spec a (show min p q ≤ 128 by omega)
  refine ⟨inner, hinner, ?_⟩
  rw [hinnerBits, networkPart_networkPart, ← hleastBits] at houterBits
  have hsame : outer.SameFields least :=
    (houterFields.trans hinnerFields).trans hleastFields.symm
  rw [houter, hleast, hsame.eq_of_bits houterBits]

/-- Assumes: two prefix lengths up to 128. The mask has exactly its first bits set, the network
address is the address and the mask byte by byte, two network addresses compose to the one for the
smaller prefix length, and all of them keep port, scope and flow. -/
theorem subnetMask_networkAddress_laws (a : IPv6Address) {p q : ℕ} (hp : p ≤ 128) (hq : q ≤ 128) :
    ∃ mask network inner,
      subnetMask p a = .ok (some mask) ∧ networkAddress p a = .ok (some network) ∧
      networkAddress q a = .ok (some inner) ∧
      mask.bits = firstBits p ∧
      network.s6Addr = List.zipWith (· &&& ·) a.s6Addr mask.s6Addr ∧
      networkAddress p inner = networkAddress (min p q) a ∧
      mask.SameFields a ∧ network.SameFields a := by
  obtain ⟨mask, hmask, hmaskFields, hmaskBytes, hmaskBits⟩ := subnetMask_spec a hp
  obtain ⟨network, hnetwork, hnetworkFields, hnetworkBytes, -⟩ := networkAddress_spec a hp
  obtain ⟨inner, hinner, hcomposed⟩ := networkAddress_networkAddress a hp hq
  refine ⟨mask, network, inner, hmask, hnetwork, hinner, hmaskBits, ?_, hcomposed, hmaskFields,
    hnetworkFields⟩
  rw [hnetworkBytes, hmaskBytes]

/-- A link-local address with a scope. -/
def linkLocal : IPv6Address where
  sin6Family := afInet6
  sin6Port := 0x1388#16
  sin6Flowinfo := 7#32
  s6Addr := [0xfe, 0x80, 0, 0, 0, 0, 0, 0, 0x18, 0xaf, 0x46, 0xff, 0xfe, 0x7f, 0x22, 0x37]
  sin6ScopeId := 2#32
  length_eq := rfl

/-- A prefix length inside a byte, and the whole width. -/
theorem subnetMask_networkAddress_laws_linkLocal :
    ∃ mask network inner,
      subnetMask 9 linkLocal = .ok (some mask) ∧ networkAddress 9 linkLocal = .ok (some network) ∧
      networkAddress 128 linkLocal = .ok (some inner) ∧
      mask.bits = firstBits 9 ∧
      network.s6Addr = List.zipWith (· &&& ·) linkLocal.s6Addr mask.s6Addr ∧
      networkAddress 9 inner = networkAddress (min 9 128) linkLocal ∧
      mask.SameFields linkLocal ∧ network.SameFields linkLocal :=
  subnetMask_networkAddress_laws linkLocal (by decide) (by decide)

end IPv6Address

end Cczoe.Addresses
