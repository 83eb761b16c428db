import RanetLite.Babel.Envelope
import RanetLite.Babel.Ops
import RanetLite.Lemmas.Codec

/-!
# The envelope: round trip, lengths and checksum

The checksum of the code is taken in a 32-bit register whose carries are folded at the end. It is the one's-complement sum of the
pseudo-header and the segment, so a packet that is built is accepted, what is accepted sums to all ones, and no change of one word of
the addresses or the payload goes unnoticed, except to a word that is the same value.
-/

namespace RanetLite.Babel

open Netip Bytes OnesComplement CodecAux

/-- The IPv6 pseudo-header of a packet: its addresses, the length of what follows them, and the next header. -/
def pseudoHeader (raw : List UInt8) : List UInt8 :=
  (raw.drop 8).take 32 ++ (putUint32 (UInt32.ofNat (raw.length - ipv6HeaderLen)) ++ [0, 0, 0, nextHeaderUDP])

/-- A packet with the word at an offset replaced. -/
def replaceWord (raw : List UInt8) (i : Nat) (w : UInt16) : List UInt8 := raw.take i ++ (putUint16 w ++ raw.drop (i + 2))

/-- What `parsePacket` has checked of a packet it accepts. -/
structure Accepted (raw : List UInt8) (localAddr src : Addr) (payload : List UInt8) : Prop where
  long : ipv6HeaderLen + udpHeaderLen ≤ raw.length
  version : raw.getD 0 0 >>> 4 = 6
  nextHeader : raw.getD 6 0 = nextHeaderUDP
  ipv6Length : ipv6HeaderLen + (uint16At raw 4).toNat = raw.length
  source : src = .v6 (ofBytes 128 ((raw.drop 8).take 16)) ""
  linkLocal : src.isLinkLocalUnicast = true
  destination : Addr.v6 (ofBytes 128 ((raw.drop 24).take 16)) "" = multicastGroup ∨
    Addr.v6 (ofBytes 128 ((raw.drop 24).take 16)) "" = localAddr
  sourcePort : uint16At (raw.drop ipv6HeaderLen) 0 = port
  destinationPort : uint16At (raw.drop ipv6HeaderLen) 2 = port
  udpLength : uint16At (raw.drop ipv6HeaderLen) 4 = uint16At raw 4
  present : uint16At (raw.drop ipv6HeaderLen) 6 ≠ 0
  checksum : udpChecksum src (.v6 (ofBytes 128 ((raw.drop 24).take 16)) "") (raw.drop ipv6HeaderLen) = 0xffff
  payload : payload = raw.drop (ipv6HeaderLen + udpHeaderLen)

namespace EnvelopeAux

variable {udp raw : List UInt8}

/-! ## The checksum is a one's-complement sum -/

/-- The plain sum behind the checksum of a segment between two addresses. -/
def total (src dst : Addr) (udp : List UInt8) : Nat :=
  (words (toBytes src.as16)).sum + (words (toBytes dst.as16)).sum + (words (putUint32 (UInt32.ofNat udp.length))).sum + 17 +
    (words udp).sum

/-- The sum fits in 32 bits. -/
theorem total_lt (src dst : Addr) (hudp : udp.length ≤ 65535) : total src dst udp < 2 ^ 32 := by
  have h1 := sum_words_le (toBytes src.as16)
  have h2 := sum_words_le (toBytes dst.as16)
  have h3 := sum_words_le (putUint32 (UInt32.ofNat udp.length))
  have h4 := sum_words_le udp
  simp only [length_toBytes, length_putUint32] at h1 h2 h3
  unfold total
  omega

/-- The checksum is the complement of the folded sum. -/
theorem toNat_udpChecksum (src dst : Addr) (hudp : udp.length ≤ 65535) :
    (udpChecksum src dst udp).toNat =
      if norm 65535 (total src dst udp) = 65535 then 65535 else 65535 - norm 65535 (total src dst udp) := by
  have hnorm := norm_le (m := 65535) (by decide) (total src dst udp)
  have hnext : (words [0, 0, 0, nextHeaderUDP]).sum = 17 := by decide
  unfold udpChecksum
  dsimp only
  generalize hsum : addBytes (addBytes (addBytes (addBytes (addBytes 0 (toBytes src.as16)) (toBytes dst.as16))
    (putUint32 (UInt32.ofNat udp.length))) [0, 0, 0, nextHeaderUDP]) udp = sum
  have hvalue : sum.toNat = total src dst udp := by
    rw [← hsum]
    simp only [toNat_addBytes, UInt32.toNat_zero, hnext, Nat.mod_add_mod, Nat.zero_add]
    exact Nat.mod_eq_of_lt (total_lt src dst hudp)
  have hfold : (foldCarries 2 sum).toUInt16.toNat = norm 65535 (total src dst udp) := by
    rw [UInt32.toNat_toUInt16, toNat_foldCarries, hvalue]
    exact Nat.mod_eq_of_lt (by omega)
  have hcs : (~~~(foldCarries 2 sum).toUInt16).toNat = 65535 - norm 65535 (total src dst udp) := by
    rw [UInt16.toNat_not, hfold]
    rfl
  by_cases hzero : ~~~(foldCarries 2 sum).toUInt16 = 0
  · rw [if_pos hzero]
    rw [hzero, UInt16.toNat_zero] at hcs
    rw [if_pos (by omega)]
    rfl
  · rw [if_neg hzero, hcs, if_neg]
    intro htop
    refine hzero (UInt16.toNat_inj.1 ?_)
    rw [hcs, htop]
    rfl

/-- The sum is not zero. -/
theorem total_pos (src dst : Addr) (udp : List UInt8) : total src dst udp ≠ 0 := by
  unfold total
  omega

/-- A segment carries a valid checksum exactly when the plain sum is a multiple of all ones. -/
theorem udpChecksum_eq_top (src dst : Addr) (hudp : udp.length ≤ 65535) :
    udpChecksum src dst udp = 0xffff ↔ norm 65535 (total src dst udp) = 65535 := by
  have hpos := mt (norm_eq_zero (m := 65535)).1 (total_pos src dst udp)
  rw [← UInt16.toNat_inj, toNat_udpChecksum src dst hudp, show (0xffff : UInt16).toNat = 65535 from rfl]
  by_cases htop : norm 65535 (total src dst udp) = 65535
  · rw [if_pos htop]
    exact ⟨fun _ => htop, fun _ => rfl⟩
  · rw [if_neg htop]
    omega

/-! ## What is accepted -/

/-- Sixteen octets are an IPv6 address. -/
theorem addrFromSlice_sixteen {bs : List UInt8} (h : bs.length = 16) : addrFromSlice bs = some (.v6 (ofBytes 128 bs) "") := by
  unfold addrFromSlice
  rw [if_neg (by omega), if_pos h]

/-- What the UDP header is checked for. -/
theorem parseUDP_ok_iff {src dst : Addr} {payloadLen : Nat} {payload : List UInt8} :
    parseUDP src dst payloadLen udp = .ok payload ↔
      uint16At udp 0 = port ∧ uint16At udp 2 = port ∧ (uint16At udp 4).toNat = payloadLen ∧ uint16At udp 6 ≠ 0 ∧
      udpChecksum src dst udp = 0xffff ∧ payload = (udp.take payloadLen).drop udpHeaderLen := by
  unfold parseUDP
  split_ifs with h0 h2 h4 h6 hc
  · simp [h0]
  · simp [h2]
  · simp [h4]
  · simp [h6]
  · simp [hc]
  · simp only [ne_eq, not_not] at h0 h2 h4 h6 hc
    simp only [h0, h2, h4, hc, ne_eq, h6, not_false_eq_true, true_and, Except.ok.injEq]
    exact eq_comm

/-- A mapped result is that of an accepted one. -/
theorem map_ok_iff {ε α β : Type} {f : α → β} {x : Except ε α} {b : β} : x.map f = .ok b ↔ ∃ a, x = .ok a ∧ f a = b := by
  cases x with
  | error e => simp [Except.map]
  | ok a => simp [Except.map]

/-- What is accepted is what the checks say. -/
theorem parsePacket_ok_iff {localAddr src : Addr} {payload : List UInt8} :
    parsePacket raw localAddr = .ok (src, payload) ↔ Accepted raw localAddr src payload := by
  unfold parsePacket
  by_cases hlong : raw.length < ipv6HeaderLen + udpHeaderLen
  · rw [if_pos hlong]
    exact ⟨fun h => (by cases h), fun h => absurd h.long (Nat.not_le.2 hlong)⟩
  rw [if_neg hlong]
  by_cases hversion : raw.getD 0 0 >>> 4 ≠ 6
  · rw [if_pos hversion]
    exact ⟨fun h => (by cases h), fun h => absurd h.version hversion⟩
  rw [if_neg hversion]
  by_cases hnext : raw.getD 6 0 ≠ nextHeaderUDP
  · rw [if_pos hnext]
    exact ⟨fun h => (by cases h), fun h => absurd h.nextHeader hnext⟩
  rw [if_neg hnext]
  by_cases hlength : (uint16At raw 4).toNat < udpHeaderLen ∨ ipv6HeaderLen + (uint16At raw 4).toNat ≠ raw.length
  · rw [if_pos hlength]
    refine ⟨fun h => (by cases h), fun h => ?_⟩
    have := h.long
    have := h.ipv6Length
    omega
  rw [if_neg hlength]
  have hraw : 48 ≤ raw.length := Nat.le_of_not_lt hlong
  have hsrc : ((raw.drop 8).take 16).length = 16 := by simp; omega
  have hdst : ((raw.drop 24).take 16).length = 16 := by simp; omega
  simp only [addrFromSlice_sixteen hsrc, addrFromSlice_sixteen hdst]
  by_cases hlocal : (!(Addr.v6 (ofBytes 128 ((raw.drop 8).take 16)) "").is6 ||
      !(Addr.v6 (ofBytes 128 ((raw.drop 8).take 16)) "").isLinkLocalUnicast) = true
  · rw [if_pos hlocal]
    refine ⟨fun h => (by cases h), fun h => ?_⟩
    have hll := h.linkLocal
    rw [h.source] at hll
    simp [Addr.is6, hll] at hlocal
  rw [if_neg hlocal]
  by_cases hdest : Addr.v6 (ofBytes 128 ((raw.drop 24).take 16)) "" ≠ multicastGroup ∧
      Addr.v6 (ofBytes 128 ((raw.drop 24).take 16)) "" ≠ localAddr
  · rw [if_pos hdest]
    exact ⟨fun h => (by cases h), fun h => absurd h.destination (by rw [not_or]; exact hdest)⟩
  rw [if_neg hdest, map_ok_iff]
  have hlen : ipv6HeaderLen + (uint16At raw 4).toNat = raw.length := by omega
  have hall : (raw.drop ipv6HeaderLen).take (uint16At raw 4).toNat = raw.drop ipv6HeaderLen :=
    List.take_of_length_le (by rw [List.length_drop]; omega)
  have hpayload : ((raw.drop ipv6HeaderLen).take (uint16At raw 4).toNat).drop udpHeaderLen =
      raw.drop (ipv6HeaderLen + udpHeaderLen) := by
    rw [hall, List.drop_drop]
  constructor
  · rintro ⟨payload', hudp, hpair⟩
    obtain ⟨rfl, rfl⟩ := Prod.mk.inj hpair
    obtain ⟨hsport, hdport, hul, hpresent, hchecksum, rfl⟩ := parseUDP_ok_iff.1 hudp
    refine ⟨hraw, not_not.1 hversion, not_not.1 hnext, hlen, rfl, ?_, by rw [not_and_or, not_not, not_not] at hdest; exact hdest,
      hsport, hdport, UInt16.toNat_inj.1 hul, hpresent, hchecksum, hpayload⟩
    simpa [Addr.is6] using hlocal
  · intro h
    refine ⟨payload, parseUDP_ok_iff.2 ⟨h.sourcePort, h.destinationPort, by rw [h.udpLength], h.present, ?_, ?_⟩, ?_⟩
    · rw [← h.source]
      exact h.checksum
    · rw [hpayload]
      exact h.payload
    · rw [← h.source]

/-! ## Words of a packet -/

/-- A word written is one word. -/
theorem words_putUint16 (w : UInt16) : words (putUint16 w) = [w.toNat] := words_toBytes w.toBitVec

/-- A word is two octets. -/
theorem length_putUint16 (w : UInt16) : (putUint16 w).length = 2 := by simp [putUint16]

/-- A word written in front. -/
theorem words_putUint16_append (w : UInt16) (rest : List UInt8) : words (putUint16 w ++ rest) = w.toNat :: words rest := by
  rw [words_append (by rw [length_putUint16]), words_putUint16, List.singleton_append]

/-- The sum of a packet with pseudo-header, split into what its length decides and what stands from the addresses on. -/
theorem sum_packet (hraw : 40 ≤ raw.length) :
    (words (pseudoHeader raw ++ raw.drop ipv6HeaderLen)).sum =
      (words (raw.drop 8)).sum + ((words (putUint32 (UInt32.ofNat (raw.length - ipv6HeaderLen)))).sum + 17) := by
  have hnext : (words [0, 0, 0, nextHeaderUDP]).sum = 17 := by decide
  have haddr : ((raw.drop 8).take 32).length = 32 := by simp; omega
  have hsplit : words (raw.drop 8) = words ((raw.drop 8).take 32) ++ words (raw.drop ipv6HeaderLen) := by
    rw [← words_append (by rw [haddr])]
    congr 1
    rw [show raw.drop ipv6HeaderLen = (raw.drop 8).drop 32 by rw [List.drop_drop]; rfl, List.take_append_drop]
  have hlength : (pseudoHeader raw).length % 2 = 0 := by
    simp only [pseudoHeader, List.length_append, haddr, length_putUint32, List.length_cons, List.length_nil]
  rw [words_append hlength, pseudoHeader, words_append (by rw [haddr]), words_append (by rw [length_putUint32]), hsplit]
  simp only [List.sum_append, hnext]
  omega

/-- The same sum is the one the checksum is taken over. -/
theorem sum_packet_eq_total (hraw : 40 ≤ raw.length) :
    (words (pseudoHeader raw ++ raw.drop ipv6HeaderLen)).sum =
      total (.v6 (ofBytes 128 ((raw.drop 8).take 16)) "") (.v6 (ofBytes 128 ((raw.drop 24).take 16)) "")
        (raw.drop ipv6HeaderLen) := by
  have hsrc : ((raw.drop 8).take 16).length = 16 := by simp; omega
  have hdst : ((raw.drop 24).take 16).length = 16 := by simp; omega
  have hsplit : raw.drop 8 = (raw.drop 8).take 16 ++ ((raw.drop 24).take 16 ++ raw.drop ipv6HeaderLen) := by
    rw [show raw.drop ipv6HeaderLen = (raw.drop 24).drop 16 by rw [List.drop_drop]; rfl, List.take_append_drop,
      show raw.drop 24 = (raw.drop 8).drop 16 by rw [List.drop_drop], List.take_append_drop]
  have hsum : (words (raw.drop 8)).sum =
      (words ((raw.drop 8).take 16)).sum + ((words ((raw.drop 24).take 16)).sum + (words (raw.drop ipv6HeaderLen)).sum) := by
    have hwords := congrArg (fun bytes => (words bytes).sum) hsplit
    simpa only [words_append (show ((raw.drop 8).take 16).length % 2 = 0 by rw [hsrc]),
      words_append (show ((raw.drop 24).take 16).length % 2 = 0 by rw [hdst]), List.sum_append] using hwords
  rw [sum_packet hraw, hsum, total]
  simp only [Addr.as16, toBytes_ofBytes (show 128 = 8 * ((raw.drop 8).take 16).length by rw [hsrc]),
    toBytes_ofBytes (show 128 = 8 * ((raw.drop 24).take 16).length by rw [hdst]), List.length_drop]
  omega

end EnvelopeAux

open EnvelopeAux

namespace Accepted

variable {raw payload : List UInt8} {localAddr src : Addr}

/-- A segment that is accepted has at most 65535 octets. -/
theorem length_le (h : Accepted raw localAddr src payload) : (raw.drop ipv6HeaderLen).length ≤ 65535 := by
  have hlen := h.ipv6Length
  have hw : (uint16At raw 4).toNat < 65536 := (uint16At raw 4).toNat_lt
  rw [List.length_drop]
  omega

/-- Pseudo-header and segment of an accepted packet sum to all ones. -/
theorem sum_eq_top (h : Accepted raw localAddr src payload) :
    OnesComplement.sum 65535 (words (pseudoHeader raw ++ raw.drop ipv6HeaderLen)) = 65535 := by
  have hraw : 40 ≤ raw.length := by
    have := h.long
    simp only [ipv6HeaderLen, udpHeaderLen] at this
    omega
  have htop := (udpChecksum_eq_top _ _ h.length_le).1 h.checksum
  rw [h.source, ← sum_packet_eq_total hraw] at htop
  rw [sum_eq_norm (by decide) words_le, htop]

/-- So what stands from the addresses on determines the rest modulo all ones. -/
theorem dvd (h : Accepted raw localAddr src payload) :
    65535 ∣ (words (raw.drop 8)).sum + ((words (putUint32 (UInt32.ofNat (raw.length - ipv6HeaderLen)))).sum + 17) := by
  have hraw : 40 ≤ raw.length := by
    have := h.long
    simp only [ipv6HeaderLen, udpHeaderLen] at this
    omega
  have htop := h.sum_eq_top
  rw [sum_eq_norm (by decide) words_le, norm_eq_top (by decide), sum_packet hraw] at htop
  exact htop.2

/-- Two accepted packets of one length have sums from the addresses on that agree modulo all ones. -/
theorem modEq {raw' : List UInt8} {src' : Addr} {payload' : List UInt8} (h : Accepted raw localAddr src payload)
    (h' : Accepted raw' localAddr src' payload') (hlen : raw'.length = raw.length) :
    (words (raw'.drop 8)).sum ≡ (words (raw.drop 8)).sum [MOD 65535] := by
  have hd := (Nat.modEq_zero_iff_dvd).2 h.dvd
  have hd' := (Nat.modEq_zero_iff_dvd).2 h'.dvd
  rw [hlen] at hd'
  exact Nat.ModEq.add_right_cancel' _ (hd'.trans hd.symm)

end Accepted
namespace EnvelopeAux

variable {raw payload : List UInt8} {i : Nat} {localAddr src : Addr}

/-! ## One word changed -/

/-- Replacing a word keeps the length. -/
theorem length_replaceWord (hi : i + 2 ≤ raw.length) (w : UInt16) : (replaceWord raw i w).length = raw.length := by
  simp only [replaceWord, List.length_append, List.length_take, length_putUint16, List.length_drop]
  omega

/-- Replacing a word by itself changes nothing. -/
theorem replaceWord_uint16At (hi : i + 2 ≤ raw.length) : replaceWord raw i (uint16At raw i) = raw := by
  have hbytes : putUint16 (uint16At raw i) = (raw.drop i).take 2 := by
    rw [putUint16, uint16At]
    refine toBytes_ofBytes ?_
    rw [List.length_take, List.length_drop]
    omega
  rw [replaceWord, hbytes, ← List.drop_drop, List.take_append_drop, List.take_append_drop]

/-- A packet's sum from the addresses on, with one word singled out. -/
theorem sum_replaceWord (heven : i % 2 = 0) (hi : 8 ≤ i) (hlen : i + 2 ≤ raw.length) (w : UInt16) :
    (words ((replaceWord raw i w).drop 8)).sum =
      (words ((raw.take i).drop 8)).sum + (w.toNat + (words (raw.drop (i + 2))).sum) := by
  have hfront : (raw.take i).length = i := by rw [List.length_take]; omega
  have hdrop : ((raw.take i).drop 8).length % 2 = 0 := by rw [List.length_drop, hfront]; omega
  rw [replaceWord, List.drop_append_of_le_length (by rw [hfront]; exact hi), words_append hdrop, words_putUint16_append]
  simp only [List.sum_append, List.sum_cons]

/-- A packet that is accepted both before and after a word is replaced had the same value there. -/
theorem modEq_of_replaceWord {src' : Addr} {payload' : List UInt8} {w : UInt16} (heven : i % 2 = 0) (hi : 8 ≤ i)
    (hlen : i + 2 ≤ raw.length) (h : Accepted raw localAddr src payload) (h' : Accepted (replaceWord raw i w) localAddr src' payload') :
    w.toNat ≡ (uint16At raw i).toNat [MOD 65535] := by
  have hmod := h.modEq h' (length_replaceWord hlen w)
  have hraw := sum_replaceWord heven hi hlen (uint16At raw i)
  rw [replaceWord_uint16At hlen] at hraw
  rw [sum_replaceWord heven hi hlen w, hraw] at hmod
  exact Nat.ModEq.add_right_cancel' _ (Nat.ModEq.add_left_cancel' _ hmod)

/-- The same of an odd last byte, whose value is then the same byte. -/
theorem eq_of_last {front : List UInt8} {b b' : UInt8} {src' : Addr} {payload' : List UInt8} (heven : front.length % 2 = 0)
    (hfront : 8 ≤ front.length) (h : Accepted (front ++ [b]) localAddr src payload)
    (h' : Accepted (front ++ [b']) localAddr src' payload') : b' = b := by
  have hdrop : (front.drop 8).length % 2 = 0 := by rw [List.length_drop]; omega
  have hmod := h.modEq h' (by simp)
  simp only [List.drop_append_of_le_length hfront, words_append hdrop, List.sum_append, words, List.sum_singleton] at hmod
  have hwords := Nat.ModEq.add_left_cancel' _ hmod
  -- 256 is invertible modulo 65535, so the bytes agree modulo 65535 and hence are equal
  have hbytes : b'.toNat ≡ b.toNat [MOD 65535] := Nat.ModEq.cancel_left_of_coprime (by decide) hwords
  have hb : b.toNat < 256 := b.toNat_lt
  have hb' : b'.toNat < 256 := b'.toNat_lt
  exact UInt8.toNat_inj.1 (hbytes.eq_of_lt_of_lt (by omega) (by omega))

/-! ## The round trip -/

/-- Reading a word behind others. -/
theorem uint16At_append {front : List UInt8} {i : Nat} (hi : front.length = i) (w : UInt16) (rest : List UInt8) :
    uint16At (front ++ (putUint16 w ++ rest)) i = w := by
  rw [uint16At, List.drop_left' hi, List.take_left' (length_putUint16 w), putUint16, ofBytes_toBytes _ rfl]

/-- The length of a segment. -/
theorem length_udpSegment (payload : List UInt8) (checksum : UInt16) :
    (udpSegment payload checksum).length = udpHeaderLen + payload.length := by
  simp only [udpSegment, List.length_append, length_putUint16, udpHeaderLen]
  omega

/-- The segment's words: everything but the checksum, and the checksum. -/
theorem sum_udpSegment (payload : List UInt8) (checksum : UInt16) :
    (words (udpSegment payload checksum)).sum = (words (udpSegment payload 0)).sum + checksum.toNat := by
  simp only [udpSegment, words_putUint16_append, List.sum_cons, UInt16.toNat_zero]
  omega

/-- Filling in the checksum that was computed over a zero one makes the sum all ones, and it is never zero. -/
theorem udpChecksum_udpSegment (src dst : Addr) (hlen : payload.length ≤ 65527) :
    udpChecksum src dst (udpSegment payload 0) ≠ 0 ∧
    udpChecksum src dst (udpSegment payload (udpChecksum src dst (udpSegment payload 0))) = 0xffff := by
  have hle : ∀ checksum, (udpSegment payload checksum).length ≤ 65535 := by
    intro checksum
    rw [length_udpSegment, udpHeaderLen]
    omega
  have hvalue := toNat_udpChecksum src dst (hle 0)
  have hpos := mt (norm_eq_zero (m := 65535)).1 (total_pos src dst (udpSegment payload 0))
  have hnorm := norm_le (m := 65535) (by decide) (total src dst (udpSegment payload 0))
  have hmod := norm_modEq (m := 65535) (total src dst (udpSegment payload 0))
  generalize udpChecksum src dst (udpSegment payload 0) = checksum at hvalue
  constructor
  · intro hzero
    rw [hzero, UInt16.toNat_zero] at hvalue
    split at hvalue <;> omega
  · have htotal : total src dst (udpSegment payload checksum) = total src dst (udpSegment payload 0) + checksum.toNat := by
      simp only [total, length_udpSegment, sum_udpSegment payload checksum]
      omega
    rw [udpChecksum_eq_top src dst (hle checksum), norm_eq_top (by decide)]
    refine ⟨total_pos _ _ _, (Nat.modEq_zero_iff_dvd).1 ?_⟩
    rw [htotal]
    refine (hmod.symm.add_right checksum.toNat).trans ((Nat.modEq_zero_iff_dvd).2 ?_)
    split at hvalue <;> omega

/-- The octets of an address are copied whole. -/
theorem copy16_toBytes (a : BitVec 128) : copy16 (toBytes a) = toBytes a := by
  have hlen : (toBytes a).length = 16 := by simp
  rw [copy16, hlen, List.take_of_length_le hlen.le]
  simp

/-- The packet built between two IPv6 addresses, with its header as eight bytes. -/
theorem buildPacket_eq (a b : BitVec 128) (za zb : String) (payload : List UInt8) :
    ∃ header : List UInt8, header.length = 8 ∧ header.getD 0 0 >>> 4 = 6 ∧ header.getD 6 0 = nextHeaderUDP ∧
      buildPacket (.v6 a za) (.v6 b zb) payload =
        header ++ (toBytes a ++ (toBytes b ++
          udpSegment payload (udpChecksum (.v6 a za) (.v6 b zb) (udpSegment payload 0)))) ∧
      uint16At (buildPacket (.v6 a za) (.v6 b zb) payload) 4 = UInt16.ofNat (udpHeaderLen + payload.length) := by
  refine ⟨[0x60, 0, 0, 0] ++ (putUint16 (UInt16.ofNat (udpHeaderLen + payload.length)) ++ [nextHeaderUDP, babelHopLimit]), ?_, ?_, ?_, ?_,
    ?_⟩
  · simp [length_putUint16]
  · show (0x60 : UInt8) >>> 4 = 6
    decide
  · rfl
  · simp only [buildPacket, Addr.asSlice, copy16_toBytes, List.append_assoc]
  · exact uint16At_append rfl _ _

/-- The zones are not summed. -/
theorem udpChecksum_zone (src dst : Addr) (udp : List UInt8) : udpChecksum src.withoutZone dst.withoutZone udp = udpChecksum src dst udp := by
  simp only [udpChecksum, Addr.as16_withoutZone]

/-- A zone does not make an address link-local. -/
theorem isLinkLocalUnicast_zone (a : BitVec 128) (zone : String) :
    (Addr.v6 a "").isLinkLocalUnicast = (Addr.v6 a zone).isLinkLocalUnicast := by
  have hmapped : (Addr.v6 a zone).is4In6 = (Addr.v6 a "").is4In6 := rfl
  unfold Addr.isLinkLocalUnicast Addr.unmap
  dsimp only
  rw [hmapped]
  cases (Addr.v6 a "").is4In6 <;> rfl

/-- A built packet passes every check of the parser. -/
theorem accepted_buildPacket {dst : Addr} (hsrc : src.is6 = true) (hlocal : src.isLinkLocalUnicast = true) (hdst : dst.is6 = true)
    (hzone : dst.zone = "") (haddressed : dst = multicastGroup ∨ dst = localAddr) (hlen : payload.length ≤ 65527) :
    Accepted (buildPacket src dst payload) localAddr src.withoutZone payload := by
  match src, dst, hsrc, hdst with
  | .v6 a za, .v6 b zb, _, _ =>
    obtain rfl : zb = "" := hzone
    obtain ⟨hpresent, hchecksum⟩ := udpChecksum_udpSegment (.v6 a za) (.v6 b "") hlen
    obtain ⟨header, hheader, hversion, hnext, hbuilt, hlength⟩ := buildPacket_eq a b za "" payload
    generalize udpChecksum (.v6 a za) (.v6 b "") (udpSegment payload 0) = checksum at hpresent hchecksum hbuilt
    have hword : (UInt16.ofNat (udpHeaderLen + payload.length)).toNat = udpHeaderLen + payload.length :=
      UInt16.toNat_ofNat_of_lt' (by simp [UInt16.size, udpHeaderLen]; omega)
    have ha : (toBytes a).length = 16 := by simp
    have hb : (toBytes b).length = 16 := by simp
    have hsrcBytes : ((buildPacket (.v6 a za) (.v6 b "") payload).drop 8).take 16 = toBytes a := by
      rw [hbuilt, List.drop_left' hheader, List.take_left' ha]
    have hdstDrop : (buildPacket (.v6 a za) (.v6 b "") payload).drop 24 = toBytes b ++ udpSegment payload checksum := by
      rw [hbuilt, show 24 = 8 + 16 from rfl, ← List.drop_drop, List.drop_left' hheader, List.drop_left' ha]
    have hdstBytes : ((buildPacket (.v6 a za) (.v6 b "") payload).drop 24).take 16 = toBytes b := by
      rw [hdstDrop, List.take_left' hb]
    have hudp : (buildPacket (.v6 a za) (.v6 b "") payload).drop ipv6HeaderLen = udpSegment payload checksum := by
      rw [show ipv6HeaderLen = 24 + 16 from rfl, ← List.drop_drop, hdstDrop, List.drop_left' hb]
    have htotal : (buildPacket (.v6 a za) (.v6 b "") payload).length = ipv6HeaderLen + (udpHeaderLen + payload.length) := by
      rw [hbuilt]
      simp only [List.length_append, hheader, ha, hb, length_udpSegment, ipv6HeaderLen]
      omega
    have hget : ∀ i < 8, (buildPacket (.v6 a za) (.v6 b "") payload).getD i 0 = header.getD i 0 := by
      intro i hi
      rw [hbuilt, List.getD_append _ _ _ _ (by omega)]
    refine
      { long := by rw [htotal]; omega
        version := by rw [hget 0 (by decide)]; exact hversion
        nextHeader := by rw [hget 6 (by decide)]; exact hnext
        ipv6Length := by rw [hlength, hword, htotal]
        source := by rw [hsrcBytes, ofBytes_toBytes _ rfl]; rfl
        linkLocal := by rw [← hlocal]; exact isLinkLocalUnicast_zone a za
        destination := by rw [hdstBytes, ofBytes_toBytes _ rfl]; exact haddressed
        sourcePort := by rw [hudp]; exact @uint16At_append [] 0 rfl _ _
        destinationPort := by rw [hudp]; exact uint16At_append (length_putUint16 _) _ _
        udpLength := ?_
        present := ?_
        checksum := ?_
        payload := ?_ }
    · rw [hudp, hlength, udpSegment, ← List.append_assoc]
      exact uint16At_append (by simp [length_putUint16]) _ _
    · rw [hudp, udpSegment, ← List.append_assoc, ← List.append_assoc,
        uint16At_append (by simp [length_putUint16])]
      exact hpresent
    · rw [hudp, hdstBytes, ofBytes_toBytes _ rfl]
      exact (udpChecksum_zone (.v6 a za) (.v6 b "") _).trans hchecksum
    · rw [← List.drop_drop, hudp, udpSegment, ← List.append_assoc, ← List.append_assoc, ← List.append_assoc,
        List.drop_left' (by simp [length_putUint16, udpHeaderLen])]

/-- What the parser accepts has passed the filter in front of it. -/
theorem isBabelPacket_of_accepted (h : Accepted raw localAddr src payload) : isBabelPacket raw = true := by
  have hport := h.destinationPort
  rw [uint16At, List.drop_drop] at hport
  exact decide_eq_true ⟨h.long, h.version, h.nextHeader, hport⟩

end EnvelopeAux

/-- A raw packet is a call that `Reachable` allows, or changes nothing. -/
theorem Reachable.receiveRaw {s : Speaker} {sent : List ReservedPacket} (h : Reachable s sent) (peer : Peer) (raw : List UInt8)
    (now : Time) (rs : List Reservation) :
    Reachable (s.receiveRaw peer raw now rs).2.1 (sent ++ (s.receiveRaw peer raw now rs).2.2) := by
  rw [Speaker.receiveRaw]
  split_ifs
  · rwa [List.append_nil]
  · cases parsePacket raw s.cfg.linkLocal with
    | error e => rwa [List.append_nil]
    | ok out => exact .call h (.receive peer out.1 out.2 rs) now trivial

/-- A packet built from a link-local source to the group or to the receiver parses to its source (the zone, which no speaker's
address has, is not on the wire) and its payload. What is accepted has one length in all three places, a checksum, and a
one's-complement sum of all ones. Replacing one word of the addresses or of the payload by another value, or an odd last byte by
another, leaves a packet that is refused. -/
theorem envelope_exact (localAddr : Addr) :
    (∀ (src dst : Addr) (payload : List UInt8), isLinkLocal localAddr → src.is6 → src.isLinkLocalUnicast →
      dst = multicastGroup ∨ dst = localAddr → payload.length ≤ 65527 →
      parsePacket (buildPacket src dst payload) localAddr = .ok (src.withoutZone, payload) ∧
      (src.zone = "" → src.withoutZone = src) ∧ isBabelPacket (buildPacket src dst payload)) ∧
    (∀ (raw payload : List UInt8) (src : Addr), parsePacket raw localAddr = .ok (src, payload) →
      raw.length = ipv6HeaderLen + (uint16At raw 4).toNat ∧ uint16At (raw.drop ipv6HeaderLen) 4 = uint16At raw 4 ∧
      (uint16At raw 4).toNat = udpHeaderLen + payload.length ∧ payload = raw.drop (ipv6HeaderLen + udpHeaderLen) ∧
      uint16At (raw.drop ipv6HeaderLen) 6 ≠ 0 ∧
      OnesComplement.sum 65535 (words (pseudoHeader raw ++ raw.drop ipv6HeaderLen)) = 65535) ∧
    (∀ (raw payload : List UInt8) (src : Addr), parsePacket raw localAddr = .ok (src, payload) →
      (∀ (i : Nat) (w : UInt16), i % 2 = 0 → (8 ≤ i ∧ i < 40) ∨ 48 ≤ i → i + 2 ≤ raw.length →
        ¬ w.toNat ≡ (uint16At raw i).toNat [MOD 65535] → ∃ e, parsePacket (replaceWord raw i w) localAddr = .error e) ∧
      ∀ (front : List UInt8) (b b' : UInt8), raw = front ++ [b] → front.length % 2 = 0 → 48 ≤ front.length → b' ≠ b →
        ∃ e, parsePacket (front ++ [b']) localAddr = .error e) := by
  refine ⟨fun src dst payload hown hsrc hlocal haddressed hlen => ?_, fun raw payload src hok => ?_, fun raw payload src hok => ?_⟩
  · have hdst : dst.is6 = true ∧ dst.zone = "" := by
      simp only [isLinkLocal, Bool.and_eq_true, beq_iff_eq] at hown
      rcases haddressed with rfl | rfl
      · exact ⟨rfl, rfl⟩
      · exact ⟨hown.1.1, hown.2⟩
    have haccepted := accepted_buildPacket hsrc hlocal hdst.1 hdst.2 haddressed hlen
    exact ⟨parsePacket_ok_iff.2 haccepted, Addr.withoutZone_of_zone, isBabelPacket_of_accepted haccepted⟩
  · have h := parsePacket_ok_iff.1 hok
    have hlen := h.ipv6Length
    have hlong := h.long
    refine ⟨hlen.symm, h.udpLength, ?_, h.payload, h.present, h.sum_eq_top⟩
    rw [h.payload, List.length_drop]
    omega
  · have h := parsePacket_ok_iff.1 hok
    refine ⟨fun i w heven hwhere hi hne => ?_, fun front b b' hraw heven hfront hne => ?_⟩
    · cases hparsed : parsePacket (replaceWord raw i w) localAddr with
      | error e => exact ⟨e, rfl⟩
      | ok out =>
        have h' := parsePacket_ok_iff.1 hparsed
        exact absurd (modEq_of_replaceWord heven (by omega) hi h h') hne
    · subst hraw
      cases hparsed : parsePacket (front ++ [b']) localAddr with
      | error e => exact ⟨e, rfl⟩
      | ok out =>
        have h' := parsePacket_ok_iff.1 hparsed
        exact absurd (eq_of_last heven (by omega) h h') hne

/-- `fe80::1` to the group, heard by `fe80::2`, with a payload of odd length whose last byte is then flipped. -/
theorem envelope_exact_odd :
    parsePacket (buildPacket (.v6 0xfe800000000000000000000000000001 "") multicastGroup [42, 2, 0])
      (.v6 0xfe800000000000000000000000000002 "") = .ok (.v6 0xfe800000000000000000000000000001 "", [42, 2, 0]) ∧
    ∃ e, parsePacket ((buildPacket (.v6 0xfe800000000000000000000000000001 "") multicastGroup [42, 2, 0]).dropLast ++ [1])
      (.v6 0xfe800000000000000000000000000002 "") = .error e := by
  obtain ⟨hbuilt, -, hchanged⟩ := envelope_exact (.v6 0xfe800000000000000000000000000002 "")
  have hparsed := (hbuilt (.v6 0xfe800000000000000000000000000001 "") multicastGroup [42, 2, 0] (by decide) (by decide) (by decide)
    (.inl rfl) (by decide)).1
  exact ⟨hparsed, (hchanged _ _ _ hparsed).2 _ 0 1 (by decide +kernel) (by decide +kernel) (by decide +kernel) (by decide)⟩

end RanetLite.Babel
