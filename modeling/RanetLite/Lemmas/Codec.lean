import RanetLite.Babel.Routes
import RanetLite.Babel.Hello
import RanetLite.Babel.Request

/-!
# Frames and prefixes on the wire

What a written frame decodes to (`decodeTLVFrames_append`), that nothing but written frames decodes (`exists_tlvs_of_decode`), and
that the bytes of a prefix, cut at its length, carry the prefix (`masked_cut_v4`, `masked_cut_v6`).
-/

namespace RanetLite.Babel

open Bytes Netip BitPrefix

/-- Padding carries no information and is dropped by the framer. -/
def RawTLV.isPadding (t : RawTLV) : Bool := t.type == tlvPad1 || t.type == tlvPadN

/-- The frames of the TLVs that are not padding. -/
def framesOf (tlvs : List RawTLV) : List (UInt8 × List UInt8) :=
  (tlvs.filter fun t => !t.isPadding).map fun t => (t.type, t.body)

namespace CodecAux

/-- More fuel than the length changes nothing. -/
theorem decodeFrames_fuel (n fuel : Nat) (bs : List UInt8) (hn : bs.length ≤ n) (hf : bs.length ≤ fuel) :
    decodeFrames fuel bs = decodeFrames n bs := by
  induction n generalizing fuel bs with
  | zero =>
    obtain rfl := List.length_eq_zero_iff.mp (Nat.le_zero.mp hn)
    cases fuel <;> rfl
  | succ n ih =>
    cases bs with
    | nil => cases fuel <;> rfl
    | cons t rest =>
      simp only [List.length_cons] at hn hf
      obtain ⟨f, rfl⟩ : ∃ f, fuel = f + 1 := ⟨fuel - 1, by omega⟩
      simp only [decodeFrames]
      split
      · exact ih f rest (by omega) (by omega)
      · cases rest with
        | nil => rfl
        | cons len data =>
          simp only [List.length_cons] at hn hf
          dsimp only
          split
          · rfl
          · rw [ih f (data.drop len.toNat) (by rw [List.length_drop]; omega) (by rw [List.length_drop]; omega)]

theorem decodeTLVFrames_nil : decodeTLVFrames [] = .ok [] := rfl

/-- A TLV at the front of a run of frames; padding leaves no frame. -/
theorem decodeTLVFrames_append {t : RawTLV} (hlen : t.body.length < 256) (rest : List UInt8) :
    decodeTLVFrames (encodeTLV t ++ rest) =
      (decodeTLVFrames rest).map fun frames => if t.isPadding then frames else (t.type, t.body) :: frames := by
  have hn : (UInt8.ofNat t.body.length).toNat = t.body.length := UInt8.toNat_ofNat_of_lt' hlen
  have hdrop : (t.body ++ rest).drop t.body.length = rest := List.drop_left
  have htake : (t.body ++ rest).take t.body.length = t.body := List.take_left
  by_cases h0 : t.type = tlvPad1
  · have hpad : t.isPadding = true := by simp [RawTLV.isPadding, h0]
    rw [encodeTLV, if_pos h0, List.singleton_append, decodeTLVFrames, List.length_cons]
    simp only [decodeFrames, if_true, hpad]
    cases h : decodeFrames rest.length rest <;> simp [decodeTLVFrames, h, Except.map]
  · have hpad : t.isPadding = (t.type == tlvPadN) := by simp [RawTLV.isPadding, h0]
    rw [encodeTLV, if_neg h0, List.cons_append, List.cons_append, decodeTLVFrames, List.length_cons]
    simp only [decodeFrames, h0, if_false, hn, hdrop, htake, hpad, beq_iff_eq]
    rw [if_neg (by simp), decodeFrames_fuel rest.length _ rest (Nat.le_refl _) (by simp; omega)]
    rfl

/-- A run of TLVs decodes to the frames of those that are not padding. -/
theorem decodeTLVFrames_flatMap {tlvs : List RawTLV} (h : ∀ t ∈ tlvs, t.body.length < 256) :
    decodeTLVFrames (tlvs.flatMap encodeTLV) = .ok (framesOf tlvs) := by
  induction tlvs with
  | nil => rfl
  | cons t rest ih =>
    rw [List.flatMap_cons, decodeTLVFrames_append (h t List.mem_cons_self), ih fun t ht => h t (List.mem_cons_of_mem _ ht)]
    cases hp : t.isPadding <;> simp [framesOf, hp, Except.map]

/-- Whatever decodes is a run of TLVs. The induction is on the fuel, which the bytes do not exceed. -/
theorem exists_tlvs_of_decode (fuel : Nat) {bs : List UInt8} {frames : List (UInt8 × List UInt8)} (hf : bs.length ≤ fuel)
    (h : decodeFrames fuel bs = .ok frames) :
    ∃ tlvs : List RawTLV, (∀ t ∈ tlvs, t.body.length < 256) ∧ bs = tlvs.flatMap encodeTLV ∧ frames = framesOf tlvs := by
  induction fuel generalizing bs frames with
  | zero =>
    obtain rfl := List.length_eq_zero_iff.mp (Nat.le_zero.mp hf)
    exact ⟨[], by simp, rfl, (Except.ok.inj h).symm⟩
  | succ fuel ih =>
    cases bs with
    | nil => exact ⟨[], by simp, rfl, (Except.ok.inj h).symm⟩
    | cons t rest =>
      rw [List.length_cons] at hf
      rw [decodeFrames.eq_def] at h
      dsimp only at h
      split at h
      · next h0 =>
        obtain ⟨tlvs, hall, rfl, rfl⟩ := ih (by omega) h
        refine ⟨⟨t, []⟩ :: tlvs, by simpa using hall, ?_, ?_⟩
        · simp [encodeTLV, h0]
        · simp [framesOf, RawTLV.isPadding, h0]
      · next h0 =>
        cases rest with
        | nil => exact absurd h (by simp)
        | cons len data =>
          dsimp only at h
          split at h
          · exact absurd h (by simp)
          · next hlen =>
            rw [List.length_cons] at hf
            cases hd : decodeFrames fuel (data.drop len.toNat) with
            | error e => rw [hd] at h; exact absurd h (by simp [Except.map])
            | ok rest' =>
              obtain ⟨tlvs, hall, hbytes, rfl⟩ := ih (by rw [List.length_drop]; omega) hd
              rw [hd] at h
              have hl : (data.take len.toNat).length = len.toNat := by rw [List.length_take]; omega
              have hlt := len.toNat_lt
              refine ⟨⟨t, data.take len.toNat⟩ :: tlvs, ?_, ?_, ?_⟩
              · intro x hx
                rcases List.mem_cons.mp hx with rfl | hx
                · rw [hl]
                  exact hlt
                · exact hall x hx
              · rw [List.flatMap_cons, ← hbytes, encodeTLV, if_neg h0, hl, UInt8.ofNat_toNat, List.cons_append,
                  List.cons_append, List.take_append_drop]
              · rw [← Except.ok.inj h]
                by_cases h1 : t = tlvPadN <;> simp [framesOf, RawTLV.isPadding, h0, h1]

theorem decodeSubTLVs_nil : decodeSubTLVs [] = .ok [] := rfl

theorem decodeSubTLVs_encode_one {s : SubTLV} (h0 : s.type ≠ tlvPad1) (h1 : s.type ≠ tlvPadN) (hlen : s.body.length < 256) :
    decodeSubTLVs (encodeSubTLVs [s]) = .ok [s] := by
  have h := @decodeTLVFrames_append ⟨s.type, s.body⟩ hlen []
  rw [List.append_nil, decodeTLVFrames_nil, encodeTLV, if_neg h0] at h
  simp only [decodeSubTLVs, encodeSubTLVs, List.flatMap_cons, List.flatMap_nil, List.append_nil, h]
  simp [RawTLV.isPadding, h0, h1, Except.map]

/-- Two bytes carry a 16-bit number. -/
theorem putUint16_bytes (x : UInt16) : ∃ a b, putUint16 x = [a, b] ∧ (⟨ofBytes 16 [a, b]⟩ : UInt16) = x := by
  have hl : (putUint16 x).length = 2 := by simp [putUint16]
  obtain ⟨a, b, h⟩ := List.length_eq_two.mp hl
  refine ⟨a, b, h, ?_⟩
  rw [← h, putUint16, ofBytes_toBytes _ (by rfl)]

@[simp] theorem length_putUint32 (x : UInt32) : (putUint32 x).length = 4 := by simp [putUint32]

/-- Four bytes carry a 32-bit number, whatever follows them. -/
theorem uint32At_putUint32 (x : UInt32) (rest : List UInt8) : uint32At (putUint32 x ++ rest) 0 = x := by
  rw [uint32At, List.drop_zero, List.take_left' (length_putUint32 x), putUint32, ofBytes_toBytes _ rfl]

/-- A packet decodes to its TLVs, without padding. -/
theorem decodePacket_encodePacket {tlvs : List RawTLV} (h : ∀ t ∈ tlvs, t.body.length < 256)
    (hlen : (tlvs.flatMap encodeTLV).length < 65536) :
    decodePacket (encodePacket tlvs) = .ok (tlvs.filter fun t => !t.isPadding) := by
  obtain ⟨a, b, hab⟩ := List.length_eq_two.mp
    (by simp : (toBytes (BitVec.ofNat 16 (tlvs.flatMap encodeTLV).length)).length = 2)
  have hread : (ofBytes 16 [a, b]).toNat = (tlvs.flatMap encodeTLV).length := by
    rw [← hab, ofBytes_toBytes _ rfl, BitVec.toNat_ofNat, Nat.mod_eq_of_lt hlen]
  have heq : encodePacket tlvs = magic :: version :: a :: b :: tlvs.flatMap encodeTLV := by
    simp only [encodePacket, hab]
    rfl
  rw [heq, decodePacket, if_neg (by simp [headerLen])]
  simp only [List.getD_cons_zero, List.getD_cons_succ, ne_eq, not_true, if_false, List.drop_succ_cons, List.drop_zero,
    List.take_succ_cons, List.take_zero, headerLen, hread]
  rw [if_neg (by simp only [List.length_cons]; omega), List.take_length, decodeTLVFrames_flatMap h]
  simp [framesOf, Function.comp_def]

/-- A timestamp is found among the optional sub-TLVs. -/
theorem decodeOptionalSubTLVs_timestamp {ts : List UInt8} (hlen : ts.length < 256) :
    decodeOptionalSubTLVs (encodeSubTLVs [⟨subTLVTimestamp, ts⟩]) = some [⟨subTLVTimestamp, ts⟩] := by
  rw [decodeOptionalSubTLVs, decodeSubTLVs_encode_one (show subTLVTimestamp ≠ tlvPad1 by decide)
    (show subTLVTimestamp ≠ tlvPadN by decide) hlen]
  rfl

/-- A Hello decodes to itself; the stamp of one that carries none is not sent. -/
theorem decodeHello_encodeHello (h : Hello) :
    decodeHello (encodeHello h).body = some { h with txTS := if h.hasTS then h.txTS else 0 } := by
  obtain ⟨seqno, interval, unicast, ts, hasTS⟩ := h
  obtain ⟨f0, f1, hf, hf'⟩ := putUint16_bytes (if unicast then 0x8000 else 0)
  obtain ⟨s0, s1, hs, hs'⟩ := putUint16_bytes seqno
  obtain ⟨i0, i1, hi, hi'⟩ := putUint16_bytes interval
  have hflag : ((if unicast then 0x8000 else 0 : UInt16) &&& 0x8000 != 0) = unicast := by cases unicast <;> decide
  have hts : uint32At (putUint32 ts) 0 = ts := by simpa using uint32At_putUint32 ts []
  simp only [encodeHello, hf, hs, hi, List.cons_append, List.nil_append]
  rw [decodeHello, if_neg (by simp only [List.length_cons]; omega)]
  cases hasTS with
  | false =>
    simp [decodeOptionalSubTLVs, decodeSubTLVs_nil, findSubTLV, uint16At, hf', hs', hi', hflag]
  | true =>
    simp [decodeOptionalSubTLVs_timestamp, findSubTLV, uint16At, hf', hs', hi', hflag, hts]

/-- An IHU decodes to itself, with no address; the stamps of one that carries none are not sent. -/
theorem decodeIHU_encodeIHU (ihu : IHU) :
    decodeIHU (encodeIHU ihu).body = some ({ ihu with
      originTS := if ihu.hasTS then ihu.originTS else 0, receiveTS := if ihu.hasTS then ihu.receiveTS else 0 }, none) := by
  obtain ⟨rxCost, interval, origin, receive, hasTS⟩ := ihu
  obtain ⟨c0, c1, hc, hc'⟩ := putUint16_bytes rxCost
  obtain ⟨i0, i1, hi, hi'⟩ := putUint16_bytes interval
  have horigin : uint32At (putUint32 origin ++ putUint32 receive) 0 = origin := uint32At_putUint32 origin _
  have hreceive : uint32At (putUint32 origin ++ putUint32 receive) 4 = receive := by
    have h := uint32At_putUint32 receive []
    rw [uint32At, List.drop_left' (length_putUint32 origin)]
    rwa [uint32At, List.append_nil] at h
  simp only [encodeIHU, hc, hi, List.cons_append, List.nil_append]
  rw [decodeIHU, if_neg (by simp only [List.length_cons]; omega)]
  cases hasTS with
  | false =>
    simp [decodeIHUAddress, decodeOptionalSubTLVs, decodeSubTLVs_nil, findSubTLV, uint16At, hc', hi']
  | true =>
    simp [decodeIHUAddress, decodeOptionalSubTLVs_timestamp, findSubTLV, uint16At, hc', hi', horigin, hreceive]

theorem length_encodeRouterID (id : RouterID) : (encodeRouterID id).body.length = 10 := by simp [encodeRouterID]

theorem decodeRouterID_encode (id : RouterID) : decodeRouterID (encodeRouterID id).body = some (id, false) := by
  have hl : (toBytes id).length = 8 := by simp
  rw [decodeRouterID, if_neg (by rw [length_encodeRouterID]; omega)]
  have hdrop : (encodeRouterID id).body.drop 10 = [] := List.drop_of_length_le (by rw [length_encodeRouterID])
  have htake : ((encodeRouterID id).body.drop 2).take 8 = toBytes id := by
    show (toBytes id).take 8 = _
    exact List.take_of_length_le (by omega)
  rw [hdrop, htake, ofBytes_toBytes _ rfl]
  rfl

end CodecAux

end Babel

namespace Netip

open Bytes BitPrefix

variable {p : Prefix}

/-- The bytes of an IPv4 prefix up to its length carry it. -/
theorem masked_cut_v4 {a : BitVec 32} (hv : p.isValid = true) (hip : p.ip = .v4 a) :
    (prefixFrom (.v4 (ofBytes 32 ((toBytes a).take ((p.bits.toNat + 7) / 8) ++
      List.replicate (4 - (p.bits.toNat + 7) / 8) 0))) p.bits.toNat).masked = p.masked := by
  have hb := p.bits_toNat_le
  rw [hip] at hb
  have hag := agree_ofBytes_take a rfl hb
  generalize ofBytes 32 ((toBytes a).take ((p.bits.toNat + 7) / 8) ++ _) = y at hag ⊢
  obtain ⟨hy, hyv, hyb⟩ := @prefixFrom_valid (.v4 y) p.bits.toNat (by simp) rfl (by omega) (by
    simp only [Addr.bitLen] at hb ⊢; omega)
  refine (Prefix.masked_eq_masked_iff hyv hv).mpr ⟨by rw [hy, hip]; rfl, by rw [hyb, Prefix.bits_nonneg hv], ?_⟩
  rw [Prefix.len16, hy, hyb, hip]
  exact (Addr.agree_mapped _ _).mpr hag

/-- The bytes of an IPv6 prefix up to its length carry it. -/
theorem masked_cut_v6 {a : BitVec 128} {z : String} (hv : p.isValid = true) (hip : p.ip = .v6 a z) :
    (prefixFrom (.v6 (ofBytes 128 ((toBytes a).take ((p.bits.toNat + 7) / 8) ++
      List.replicate (16 - (p.bits.toNat + 7) / 8) 0)) "") p.bits.toNat).masked = p.masked := by
  have hb := p.bits_toNat_le
  rw [hip] at hb
  have hag := agree_ofBytes_take a rfl hb
  generalize ofBytes 128 ((toBytes a).take ((p.bits.toNat + 7) / 8) ++ _) = y at hag ⊢
  obtain ⟨hy, hyv, hyb⟩ := @prefixFrom_valid (.v6 y "") p.bits.toNat (by simp) rfl (by omega) (by
    simp only [Addr.bitLen] at hb ⊢; omega)
  refine (Prefix.masked_eq_masked_iff hyv hv).mpr ⟨by rw [hy, hip]; rfl, by rw [hyb, Prefix.bits_nonneg hv], ?_⟩
  rw [Prefix.len16, hy, hyb, hip]
  exact hag

/-- The two shapes of a valid masked prefix: the bits past its length are zero. -/
theorem masked_cases (hv : p.isValid = true) (hm : p.masked = p) :
    (∃ a : BitVec 32, p.ip = .v4 a ∧ p.bits.toNat ≤ 32 ∧ keepHigh a p.bits.toNat = a) ∨
      (∃ a : BitVec 128, p.ip = .v6 a "" ∧ p.bits.toNat ≤ 128 ∧ keepHigh a p.bits.toNat = a) := by
  have hb := p.bits_toNat_le
  have h0 := Prefix.bits_nonneg hv
  cases hp : p.ip with
  | zero => exact absurd hp (Prefix.addr_ne_zero hv)
  | v4 a =>
    rw [hp] at hb
    refine .inl ⟨a, rfl, hb, ?_⟩
    have hip := (@prefixFrom_valid (.v4 (keepHigh a p.bits.toNat)) p.bits (by simp) rfl (by omega)
      (by simp only [Addr.bitLen] at hb ⊢; omega)).1
    have hmask : p.masked.ip = .v4 (keepHigh a p.bits.toNat) := by
      unfold Prefix.masked
      rw [if_pos (Prefix.isValid_iff.mp hv), hp]
      exact hip
    rw [hm, hp] at hmask
    exact (Addr.v4.inj hmask).symm
  | v6 a z =>
    rw [hp] at hb
    have hz : z = "" := by simpa [hp, Addr.zone] using p.noZone
    refine .inr ⟨a, by rw [hz], hb, ?_⟩
    have hip := (@prefixFrom_valid (.v6 (keepHigh a p.bits.toNat) z) p.bits (by simp) hz (by omega)
      (by simp only [Addr.bitLen] at hb ⊢; omega)).1
    have hmask : p.masked.ip = .v6 (keepHigh a p.bits.toNat) z := by
      unfold Prefix.masked
      rw [if_pos (Prefix.isValid_iff.mp hv), hp]
      exact hip
    rw [hm, hp] at hmask
    exact (Addr.v6.inj hmask).1.symm

/-- The bytes of a valid masked prefix: cut at its length and padded they are the address's, and no bit past the length is set. -/
theorem asSlice_masked (hv : p.isValid = true) (hm : p.masked = p) :
    p.ip.asSlice.length = p.ip.bitLen / 8 ∧ (p.bits.toNat + 7) / 8 ≤ p.ip.bitLen / 8 ∧
      p.ip.asSlice.take ((p.bits.toNat + 7) / 8) ++ List.replicate (p.ip.bitLen / 8 - (p.bits.toNat + 7) / 8) 0 =
        p.ip.asSlice ∧
      clearTail p.ip.asSlice p.bits.toNat = p.ip.asSlice ∧ addrFromSlice p.ip.asSlice = some p.ip := by
  rcases masked_cases hv hm with ⟨a, hip, hb, hk⟩ | ⟨a, hip, hb, hk⟩
  · rw [hip]
    simp only [Addr.asSlice, Addr.bitLen, length_toBytes]
    refine ⟨trivial, by omega, (toBytes_eq_take_append rfl hb hk).symm, clearTail_toBytes rfl hb hk, ?_⟩
    rw [addrFromSlice, if_pos (by simp), ofBytes_toBytes a rfl]
  · rw [hip]
    simp only [Addr.asSlice, Addr.bitLen, length_toBytes]
    refine ⟨trivial, by omega, (toBytes_eq_take_append rfl hb hk).symm, clearTail_toBytes rfl hb hk, ?_⟩
    rw [addrFromSlice, if_neg (by simp), if_pos (by simp), ofBytes_toBytes a rfl]

theorem length_asSlice (a : Addr) : a.asSlice.length = a.bitLen / 8 := by
  cases a <;> simp [Addr.asSlice, Addr.bitLen]

end Netip

namespace Babel

open Bytes Netip BitPrefix

namespace CodecAux

/-- An address has the bytes its prefix's length covers. -/
theorem prefixByteLen_le (p : Prefix) : prefixByteLen p.bits.toNat ≤ p.ip.asSlice.length := by
  have hb := p.bits_toNat_le
  have h8 : p.ip.bitLen % 8 = 0 := by cases p.ip <;> simp [Addr.bitLen]
  rw [length_asSlice, prefixByteLen]
  omega

/-- A source prefix of the encoding's family survives its sub-TLV, the bits past its length cleared. -/
theorem sourcePrefix_roundtrip {ae : UInt8} {source : Prefix} (hv : source.isValid = true) (h0 : 0 < source.bits)
    (hf : source.addr.is4 = isIPv4AE ae) (hae : isIPv4AE ae = true ∨ ae = aeIPv6) :
    ∃ body, encodeSourcePrefix ae source = some (encodeSubTLVs [⟨subTLVSourcePrefix, body⟩]) ∧
      decodeSourcePrefix ae body = some source.masked ∧ body.length ≤ 17 := by
  have hlen := prefixByteLen_le source
  have hb := source.bits_toNat_le
  have hbl := source.ip.bitLen_le
  have hnat : (UInt8.ofNat source.bits.toNat).toNat = source.bits.toNat := UInt8.toNat_ofNat_of_lt' (by simp; omega)
  have htake : (source.addr.asSlice.take (prefixByteLen source.bits.toNat)).length = prefixByteLen source.bits.toNat := by
    rw [List.length_take, Prefix.addr, Nat.min_eq_left hlen]
  refine ⟨UInt8.ofNat source.bits.toNat :: source.addr.asSlice.take (prefixByteLen source.bits.toNat), ?_, ?_, ?_⟩
  · rw [encodeSourcePrefix, if_neg (by rw [hf]; simp; omega), sliceTo, if_neg (Nat.not_lt.mpr hlen),
      Option.map_some]
  · simp only [decodeSourcePrefix, hnat, htake]
    rw [if_neg (by omega), List.take_take, Nat.min_self, ← hf]
    cases hip : source.ip with
    | zero => exact absurd hip (Prefix.addr_ne_zero hv)
    | v4 a =>
      rw [hip] at hb
      simp only [Addr.bitLen] at hb
      simp only [Prefix.addr, hip, Addr.is4, if_true, Addr.asSlice, prefixByteLen]
      rw [if_neg (by omega), masked_cut_v4 hv hip]
    | v6 a z =>
      rw [hip] at hb
      simp only [Addr.bitLen] at hb
      have h6 : ae = aeIPv6 := hae.resolve_left (by rw [← hf, Prefix.addr, hip]; simp [Addr.is4])
      simp only [Prefix.addr, hip, Addr.is4, Bool.false_eq_true, if_false, h6, if_true, Addr.asSlice, prefixByteLen]
      rw [if_neg (by omega), masked_cut_v6 hv hip]
  · rw [length_asSlice] at hlen
    rw [List.length_cons, htake]
    omega

end CodecAux

end RanetLite.Babel
