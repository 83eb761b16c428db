import RanetLite.Lib.Bytes

/-!
# Addresses and prefixes

The part of `net/netip` the repository computes with: the zero address, IPv4, IPv6 with an optional zone, and prefixes. A
prefix keeps its address without a zone, and a positive `bitsPlusOne` only within the width of that address, as the package
itself guarantees of every value it hands out.
-/

namespace RanetLite.Netip

open BitPrefix

/-- An address: the invalid zero value, an IPv4 address, or an IPv6 address with its zone (empty when it has none). -/
inductive Addr where
  | zero
  | v4 (a : BitVec 32)
  | v6 (a : BitVec 128) (zone : String)
deriving DecidableEq, Repr

namespace Addr

variable {a : Addr}

/-- `Addr.IsValid`. -/
def isValid (a : Addr) : Bool := a ≠ .zero

/-- `Addr.BitLen`: zero for the zero address. -/
def bitLen : Addr → Nat
  | zero => 0
  | v4 _ => 32
  | v6 _ _ => 128

/-- `Addr.Zone`. -/
def zone : Addr → String
  | v6 _ z => z
  | _ => ""

/-- `Addr.Is4`. -/
def is4 : Addr → Bool
  | v4 _ => true
  | _ => false

/-- `Addr.Is6`: mapped addresses count. -/
def is6 : Addr → Bool
  | v6 _ _ => true
  | _ => false

/-- `Addr.WithZone("")`, which every prefix applies to its address. -/
def withoutZone : Addr → Addr
  | v6 a _ => v6 a ""
  | a => a

/-- An IPv4 address in its mapped 128-bit form, `::ffff:a.b.c.d`. -/
def mapped (a : BitVec 32) : BitVec 128 := 0xffff#96 ++ a

/-- `Addr.As16`, the bytes read as one big-endian word. -/
def as16 : Addr → BitVec 128
  | zero => 0
  | v4 a => mapped a
  | v6 a _ => a

/-- `Addr.Is4In6`: an IPv6 address of the mapped form. -/
def is4In6 : Addr → Bool
  | v6 a _ => a >>> 32 == 0xffff#128
  | _ => false

/-- `Addr.Unmap`: a mapped IPv6 address becomes the IPv4 address it maps. -/
def unmap (a : Addr) : Addr :=
  match a with
  | v6 w _ => if a.is4In6 then v4 (w.setWidth 32) else a
  | _ => a

/-- `Addr.IsLoopback`. -/
def isLoopback (a : Addr) : Bool :=
  match a.unmap with
  | zero => false
  | v4 w => w >>> 24 == 127#32
  | v6 w _ => w == 1#128

/-- `Addr.IsMulticast`. -/
def isMulticast (a : Addr) : Bool :=
  match a.unmap with
  | zero => false
  | v4 w => w >>> 28 == 0xe#32
  | v6 w _ => w >>> 120 == 0xff#128

/-- `Addr.IsLinkLocalUnicast`. -/
def isLinkLocalUnicast (a : Addr) : Bool :=
  match a.unmap with
  | zero => false
  | v4 w => w >>> 16 == 0xa9fe#32
  | v6 w _ => w >>> 118 == 0x3fa#128

/-- `Addr.IsGlobalUnicast`. -/
def isGlobalUnicast (a : Addr) : Bool :=
  match a.unmap with
  | zero => false
  | v4 w => w ≠ 0 ∧ w ≠ 0xffffffff#32 ∧ !a.isLoopback ∧ !a.isMulticast ∧ !a.isLinkLocalUnicast
  | v6 w zone => (w ≠ 0 ∨ zone ≠ "") ∧ !a.isLoopback ∧ !a.isMulticast ∧ !a.isLinkLocalUnicast

/-- `Addr.IsPrivate`. -/
def isPrivate (a : Addr) : Bool :=
  match a.unmap with
  | zero => false
  | v4 w => w >>> 24 == 10#32 || w >>> 20 == 0xac1#32 || w >>> 16 == 0xc0a8#32
  | v6 w _ => w >>> 121 == 0x7e#128

/-- `Addr.IsUnspecified`: the all-zero address of either family, without a zone. -/
def isUnspecified (a : Addr) : Bool := a = .v4 0 ∨ a = .v6 0 ""

/-- `Addr.AsSlice`: four bytes, sixteen, or none. -/
def asSlice : Addr → List UInt8
  | zero => []
  | v4 a => Bytes.toBytes a
  | v6 a _ => Bytes.toBytes a

@[simp] theorem zone_withoutZone (a : Addr) : a.withoutZone.zone = "" := by cases a <;> rfl

@[simp] theorem bitLen_withoutZone (a : Addr) : a.withoutZone.bitLen = a.bitLen := by cases a <;> rfl

@[simp] theorem as16_withoutZone (a : Addr) : a.withoutZone.as16 = a.as16 := by cases a <;> rfl

theorem withoutZone_of_zone (h : a.zone = "") : a.withoutZone = a := by
  cases a with
  | v6 a z => simp only [zone] at h; simp [withoutZone, h]
  | _ => rfl

theorem bitLen_le (a : Addr) : a.bitLen ≤ 128 := by cases a <;> simp [bitLen]

theorem bitLen_of_ne_zero (h : a ≠ .zero) : a.bitLen = if a.is4 then 32 else 128 := by
  cases a <;> simp_all [bitLen, is4]

theorem is4_eq_of_bitLen {b : Addr} (h : a.bitLen = b.bitLen) : a.is4 = b.is4 := by
  cases a <;> cases b <;> simp_all [bitLen, is4]

/-- The first 96 bits of a mapped address are the same for every IPv4 address, and its last 32 are the address. -/
theorem getMsbD_mapped (a : BitVec 32) (i : Nat) :
    (mapped a).getMsbD i = if i < 96 then (0xffff#96).getMsbD i else a.getMsbD (i - 96) := by
  rw [mapped, BitVec.getMsbD_append]
  by_cases h : i < 96
  · simp [h, Nat.not_le.mpr h]
  · simp [h, Nat.not_lt.mp h]

theorem agree_mapped {n : Nat} (a b : BitVec 32) : Agree (n + 96) (mapped a) (mapped b) ↔ Agree n a b := by
  constructor
  · intro h i hi
    have h' := h (i + 96) (by omega)
    rwa [getMsbD_mapped, getMsbD_mapped, if_neg (by omega), if_neg (by omega), Nat.add_sub_cancel] at h'
  · intro h i hi
    rw [getMsbD_mapped, getMsbD_mapped]
    split
    · rfl
    · exact h (i - 96) (by omega)

theorem mapped_keepHigh (a : BitVec 32) {n : Nat} (hn : n ≤ 32) : mapped (keepHigh a n) = keepHigh (mapped a) (n + 96) := by
  apply BitVec.eq_of_getMsbD_eq
  intro i hi
  rw [getMsbD_keepHigh _ (by omega), getMsbD_mapped, getMsbD_mapped]
  split
  · simp; omega
  · rw [getMsbD_keepHigh _ hn]
    congr 1
    simp; omega

/-- Two unzoned addresses of one family are equal when their 128-bit forms are. -/
theorem eq_of_as16 {b : Addr} (ha : a.zone = "") (hb : b.zone = "") (hl : a.bitLen = b.bitLen) (h : a.as16 = b.as16) : a = b := by
  cases a <;> cases b <;> simp_all [bitLen, zone, as16]
  next x y => exact ((agree_mapped (n := 32) x y).mp (h ▸ Agree.refl _ _)).eq (Nat.le_refl _)

/-- Being mapped is being an IPv6 address that agrees with `::ffff:0:0` on the first 96 bits. -/
theorem is4In6_iff (a : Addr) : a.is4In6 = true ↔ a.bitLen = 128 ∧ Agree 96 a.as16 (mapped 0) := by
  cases a with
  | v6 w z =>
    have hm : (mapped 0) >>> 32 = 0xffff#128 := by decide
    rw [as16, ← ushiftRight_xor_eq_zero_iff (by omega), BitVec.ushiftRight_xor_distrib, hm, is4In6, beq_iff_eq]
    refine ⟨fun h => ⟨rfl, ?_⟩, fun h => BitVec.xor_eq_zero_iff.mp h.2⟩
    rw [h]
    exact BitVec.xor_self
  | _ => simp [is4In6, bitLen]

end Addr

/-- `AddrFromSlice`: only four or sixteen bytes are an address. -/
def addrFromSlice (bs : List UInt8) : Option Addr :=
  if bs.length = 4 then some (.v4 (Bytes.ofBytes 32 bs))
  else if bs.length = 16 then some (.v6 (Bytes.ofBytes 128 bs) "")
  else none

/-- The first twelve bytes of a mapped address. -/
def mappedPrefix : List UInt8 := List.replicate 10 0 ++ [0xff, 0xff]

/-- `net.IP.To4`: empty when the bytes are not an IPv4 address. -/
def to4 (ip : List UInt8) : List UInt8 :=
  if ip.length = 4 then ip
  else if ip.length = 16 ∧ ip.take 12 = mappedPrefix then ip.drop 12
  else []

/-- `net.IP.To16`: empty when the bytes are not an address. -/
def to16 (ip : List UInt8) : List UInt8 :=
  if ip.length = 4 then mappedPrefix ++ ip
  else if ip.length = 16 then ip
  else []

/-- A prefix as `netip` keeps it. `bitsPlusOne` is zero for an invalid prefix, whatever its address. -/
structure Prefix where
  /-- The address, without a zone. -/
  ip : Addr
  /-- One more than the length, zero when the prefix is invalid. -/
  bitsPlusOne : Nat
  /-- A prefix carries no zone. -/
  noZone : ip.zone = ""
  /-- A valid prefix has a valid address and a length within its width. -/
  bounded : 0 < bitsPlusOne → ip ≠ .zero ∧ bitsPlusOne ≤ ip.bitLen + 1
deriving DecidableEq, Repr

namespace Prefix

/-- The zero prefix, which is invalid. -/
def none : Prefix := ⟨.zero, 0, rfl, fun h => absurd h (Nat.lt_irrefl 0)⟩

instance : Inhabited Prefix := ⟨none⟩

end Prefix

/-- `PrefixFrom`: out of range lengths and the zero address give an invalid prefix over the same address. -/
def prefixFrom (ip : Addr) (bits : Int) : Prefix :=
  if h : ip ≠ .zero ∧ 0 ≤ bits ∧ bits ≤ ip.bitLen then
    ⟨ip.withoutZone, bits.toNat + 1, ip.zone_withoutZone, fun _ =>
      ⟨by cases ip <;> simp_all [Addr.withoutZone], by rw [Addr.bitLen_withoutZone]; omega⟩⟩
  else ⟨ip.withoutZone, 0, ip.zone_withoutZone, fun h => absurd h (Nat.lt_irrefl 0)⟩

namespace Prefix

variable {p : Prefix}

/-- `Prefix.IsValid`. -/
def isValid (p : Prefix) : Bool := decide (0 < p.bitsPlusOne)

/-- `Prefix.Bits`: `-1` for an invalid prefix. -/
def bits (p : Prefix) : Int := p.bitsPlusOne - 1

/-- `Prefix.Addr`. -/
abbrev addr (p : Prefix) : Addr := p.ip

/-- `Prefix.Contains`. A zoned address is in no prefix, nor is one of the other family. -/
def contains (p : Prefix) (ip : Addr) : Bool :=
  p.isValid && ip.zone == "" &&
    match p.ip, ip with
    | .v4 a, .v4 b => (b ^^^ a) >>> (32 - p.bits.toNat) == 0
    | .v6 a _, .v6 b _ => keepHigh (b ^^^ a) p.bits.toNat == 0
    | _, _ => false

/-- `Prefix.Masked`: the bits past the length cleared; an invalid prefix becomes the zero one. -/
def masked (p : Prefix) : Prefix :=
  if 0 < p.bitsPlusOne then
    match p.ip with
    | .zero => none
    | .v4 a => prefixFrom (.v4 (keepHigh a p.bits.toNat)) p.bits
    | .v6 a z => prefixFrom (.v6 (keepHigh a p.bits.toNat) z) p.bits
  else none

/-- The length of a prefix counted on the 128-bit form of its address: an IPv4 length is 96 longer. -/
def len16 (p : Prefix) : Nat := p.bits.toNat + (128 - p.ip.bitLen)

theorem eq_of_ip {q : Prefix} (hi : p.ip = q.ip) (hb : p.bitsPlusOne = q.bitsPlusOne) : p = q := by
  cases p; cases q; simp_all

theorem bits_toNat_le : p.bits.toNat ≤ p.ip.bitLen := by
  by_cases h : 0 < p.bitsPlusOne
  · have := (p.bounded h).2
    simp only [bits]; omega
  · simp only [bits]; omega

theorem len16_le (p : Prefix) : p.len16 ≤ 128 := by
  have h1 := p.bits_toNat_le
  have h2 := p.ip.bitLen_le
  simp only [len16]; omega

theorem isValid_iff : p.isValid = true ↔ 0 < p.bitsPlusOne := by simp [isValid]

/-- What containment decides, for both families at once. -/
theorem contains_iff {a : Addr} : p.contains a = true ↔
    p.isValid = true ∧ a.zone = "" ∧ a.bitLen = p.ip.bitLen ∧ Agree p.len16 p.ip.as16 a.as16 := by
  have hb := p.bits_toNat_le
  unfold contains
  rw [Bool.and_eq_true, Bool.and_eq_true, and_assoc]
  refine and_congr_right fun hv => and_congr (by simp) ?_
  cases hp : p.ip with
  | zero => exact absurd hp (p.bounded (isValid_iff.mp hv)).1
  | v4 x =>
    rw [hp] at hb
    cases a with
    | v4 y =>
      rw [beq_iff_eq, BitVec.xor_comm]
      refine (ushiftRight_xor_eq_zero_iff hb x y).trans ?_
      rw [len16, hp]
      exact ⟨fun h => ⟨rfl, (Addr.agree_mapped x y).mpr h⟩, fun h => (Addr.agree_mapped x y).mp h.2⟩
    | _ => simp [Addr.bitLen]
  | v6 x z =>
    rw [hp] at hb
    cases a with
    | v6 y z' =>
      rw [beq_iff_eq, BitVec.xor_comm]
      refine (keepHigh_xor_eq_zero_iff hb x y).trans ?_
      rw [len16, hp]
      exact ⟨fun h => ⟨rfl, h⟩, fun h => h.2⟩
    | _ => simp [Addr.bitLen]

theorem addr_ne_zero (h : p.isValid = true) : p.ip ≠ .zero := (p.bounded (isValid_iff.mp h)).1

theorem bits_nonneg (h : p.isValid = true) : (p.bits.toNat : Int) = p.bits := by
  have := isValid_iff.mp h
  simp only [bits]; omega

end Prefix

/-- A prefix built over an address of its own width keeps the address and the length. -/
theorem prefixFrom_valid {a : Addr} {n : Int} (ha : a ≠ .zero) (hz : a.zone = "") (h0 : 0 ≤ n) (hn : n ≤ a.bitLen) :
    (prefixFrom a n).ip = a ∧ (prefixFrom a n).isValid = true ∧ (prefixFrom a n).bits = n := by
  rw [prefixFrom, dif_pos ⟨ha, h0, hn⟩]
  exact ⟨Addr.withoutZone_of_zone hz, by simp [Prefix.isValid], by simp [Prefix.bits, h0]⟩

namespace Prefix

variable {p : Prefix}

/-- Masking keeps the family and the length and clears the rest. -/
theorem masked_spec (h : p.isValid = true) :
    p.masked.isValid = true ∧ p.masked.bits = p.bits ∧ p.masked.ip.bitLen = p.ip.bitLen ∧
      p.masked.ip.as16 = keepHigh p.ip.as16 p.len16 := by
  have hb := p.bits_toNat_le
  have h0 := bits_nonneg h
  unfold masked
  rw [if_pos (isValid_iff.mp h)]
  cases hp : p.ip with
  | zero => exact absurd hp (addr_ne_zero h)
  | v4 x =>
    rw [hp] at hb
    simp only [Addr.bitLen] at hb
    obtain ⟨hip, hv, hbits⟩ := @prefixFrom_valid (.v4 (keepHigh x p.bits.toNat)) p.bits (by simp) rfl (by omega)
      (by simp only [Addr.bitLen]; omega)
    refine ⟨hv, hbits, by rw [hip]; rfl, ?_⟩
    rw [hip, len16, hp]
    exact Addr.mapped_keepHigh x hb
  | v6 x z =>
    rw [hp] at hb
    simp only [Addr.bitLen] at hb
    have hz : z = "" := by simpa [hp, Addr.zone] using p.noZone
    obtain ⟨hip, hv, hbits⟩ := @prefixFrom_valid (.v6 (keepHigh x p.bits.toNat) z) p.bits (by simp) hz (by omega)
      (by simp only [Addr.bitLen]; omega)
    refine ⟨hv, hbits, by rw [hip]; rfl, ?_⟩
    rw [hip, len16, hp]
    rfl

theorem masked_of_invalid (h : p.isValid = false) : p.masked = none := by
  rw [masked, if_neg (by simpa [isValid] using h)]

@[simp] theorem isValid_none : none.isValid = false := rfl

@[simp] theorem isValid_masked (p : Prefix) : p.masked.isValid = p.isValid := by
  cases h : p.isValid with
  | true => exact (masked_spec h).1
  | false => rw [masked_of_invalid h]; rfl

/-- Two valid prefixes mask to the same one exactly when they have one family, one length and agree up to it. -/
theorem masked_eq_masked_iff {q : Prefix} (hp : p.isValid = true) (hq : q.isValid = true) :
    p.masked = q.masked ↔ p.ip.bitLen = q.ip.bitLen ∧ p.bits = q.bits ∧ Agree p.len16 p.ip.as16 q.ip.as16 := by
  obtain ⟨-, hpb, hpl, hpa⟩ := masked_spec hp
  obtain ⟨-, hqb, hql, hqa⟩ := masked_spec hq
  constructor
  · intro h
    rw [h] at hpb hpl hpa
    have hb : p.bits = q.bits := hpb.symm.trans hqb
    have hl : p.ip.bitLen = q.ip.bitLen := hpl.symm.trans hql
    refine ⟨hl, hb, (agree_iff_keepHigh p.len16_le _ _).mpr ?_⟩
    have hlen : q.len16 = p.len16 := by rw [len16, len16, hb, hl]
    rw [← hpa, ← hlen, ← hqa]
  · rintro ⟨hl, hb, ha⟩
    have hlen : q.len16 = p.len16 := by rw [len16, len16, hb, hl]
    apply eq_of_ip
    · apply Addr.eq_of_as16 p.masked.noZone q.masked.noZone (by rw [hpl, hql, hl])
      rw [hpa, hqa, hlen]
      exact (agree_iff_keepHigh p.len16_le _ _).mp ha
    · have h : p.masked.bits = q.masked.bits := by rw [hpb, hqb, hb]
      simpa [bits] using h

theorem len16_masked (h : p.isValid = true) : p.masked.len16 = p.len16 := by
  obtain ⟨-, hb, hl, -⟩ := masked_spec h
  rw [len16, len16, hb, hl]

@[simp] theorem masked_masked (p : Prefix) : p.masked.masked = p.masked := by
  cases h : p.isValid with
  | false => rw [masked_of_invalid h]; rfl
  | true =>
    obtain ⟨hv, hb, hl, ha⟩ := masked_spec h
    refine (masked_eq_masked_iff hv h).mpr ⟨hl, hb, ?_⟩
    rw [len16_masked h, ha]
    exact agree_keepHigh _ p.len16_le

/-- A masked prefix contains an unzoned address exactly when it is the address cut to that length. -/
theorem contains_iff_eq_masked {a : Addr} (hv : p.isValid = true) (hm : p.masked = p) (hz : a.zone = "") :
    p.contains a = true ↔ (prefixFrom a p.bits).masked = p := by
  have h0 := bits_nonneg hv
  rw [contains_iff]
  by_cases hl : a ≠ .zero ∧ p.bits ≤ a.bitLen
  · obtain ⟨hip, hqv, hqb⟩ := prefixFrom_valid hl.1 hz (by omega) hl.2
    have key := masked_eq_masked_iff hqv hv
    rw [hm, hip] at key
    rw [key]
    constructor
    · rintro ⟨-, -, hbl, hag⟩
      refine ⟨hbl, hqb, ?_⟩
      rw [len16, hqb, hip, hbl]
      exact hag.symm
    · rintro ⟨hbl, -, hag⟩
      rw [len16, hqb, hip, hbl] at hag
      exact ⟨hv, hz, hbl, hag.symm⟩
  · have hinv : (prefixFrom a p.bits).isValid = false := by
      rw [prefixFrom, dif_neg (by tauto)]
      rfl
    have hbits := p.bits_toNat_le
    constructor
    · rintro ⟨-, -, hbl, -⟩
      refine absurd ⟨?_, by omega⟩ hl
      rintro rfl
      have hw := addr_ne_zero hv
      cases hip : p.ip <;> simp_all [Addr.bitLen]
    · intro h
      rw [masked_of_invalid hinv] at h
      rw [← h] at hv
      exact absurd hv (by simp)

end Prefix

/-- A valid prefix is what its address and length build. -/
theorem prefixFrom_self {p : Prefix} (hv : p.isValid = true) : prefixFrom p.ip p.bits = p := by
  have hb := p.bits_toNat_le
  have h0 := Prefix.bits_nonneg hv
  obtain ⟨hip, -, hbits⟩ := prefixFrom_valid (n := p.bits) (Prefix.addr_ne_zero hv) p.noZone (by omega) (by omega)
  exact Prefix.eq_of_ip hip (by simpa [Prefix.bits] using hbits)

end RanetLite.Netip
