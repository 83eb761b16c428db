import RanetLite.Theorems.Wire

/-!
# The packet format

Packets, Hellos, IHUs and Router-Ids decode to what was encoded. A request does exactly when its address encoding is one for the
family of its prefix and the prefix is not IPv4-mapped: the decoder takes the family from the encoding and refuses a mapped prefix.
The framer accepts a byte string exactly when it is a run of TLVs.
-/

namespace RanetLite.Babel

open Bytes Netip BitPrefix

/-- What a Route Request says: everything, or one masked prefix and source prefix. -/
def RouteRequest.normal (r : RouteRequest) : RouteRequest :=
  if r.ae = aeWildcard ∨ !r.dest.isValid then ⟨aeWildcard, .none, .none⟩
  else ⟨r.ae, r.dest.masked, r.sourcePrefix.masked⟩

/-- What a Seqno Request says, its prefixes masked. -/
def SeqnoRequest.normal (r : SeqnoRequest) : SeqnoRequest :=
  { r with dest := r.dest.masked, sourcePrefix := r.sourcePrefix.masked }

/-- The encoding is one for the prefix's family, and the prefix is not IPv4 space written as IPv6. -/
def Names (ae : UInt8) (p : Prefix) : Prop :=
  p.isValid = true ∧ (if p.addr.is4 then isIPv4AE ae = true else ae = aeIPv6) ∧ p.addr.is4In6 = false

instance (ae : UInt8) (p : Prefix) : Decidable (Names ae p) :=
  inferInstanceAs (Decidable (p.isValid = true ∧ (if p.addr.is4 then isIPv4AE ae = true else ae = aeIPv6) ∧
    p.addr.is4In6 = false))

namespace FramesAux

open CodecAux WireAux

variable {ae : UInt8} {p source : Prefix} {n : Int}

/-- An encoding that names a prefix is one of those requests are read under, and gives the prefix's family. -/
theorem Names.encoding (h : Names ae p) : (isIPv4AE ae = true ∨ ae = aeIPv6) ∧ isIPv4AE ae = p.addr.is4 ∧ ae ≠ aeWildcard := by
  obtain ⟨-, hae, -⟩ := h
  cases h4 : p.addr.is4 with
  | true =>
    rw [h4, if_pos rfl] at hae
    refine ⟨.inl hae, hae, ?_⟩
    rintro rfl
    exact absurd hae (by decide)
  | false =>
    rw [h4, if_neg (by simp)] at hae
    subst hae
    exact ⟨.inr rfl, rfl, by decide⟩

/-- The source prefix of a request survives its sub-TLVs. -/
theorem decodeRequestSubTLVs_encode {sub : List UInt8} (hae : isIPv4AE ae = true ∨ ae = aeIPv6)
    (h : encodeSource ae source = some sub) :
    decodeRequestSubTLVs ae sub = some source.masked ∧ (source.isValid = true → source.masked.addr.is4 = isIPv4AE ae) := by
  unfold encodeSource at h
  split at h
  · next hv =>
    have hguard : ¬(source.bits = 0 ∨ source.addr.is4 ≠ isIPv4AE ae) := by
      intro hbad
      rw [encodeSourcePrefix, if_pos hbad] at h
      exact absurd h (by simp)
    rw [not_or, not_not] at hguard
    have hbits := Prefix.bits_nonneg hv
    obtain ⟨body, henc, hdec, hlen⟩ := sourcePrefix_roundtrip hv (by have := hguard.1; omega) hguard.2 hae
    rw [henc] at h
    obtain rfl := Option.some.inj h
    refine ⟨?_, fun _ => ?_⟩
    · rw [decodeRequestSubTLVs, decodeSubTLVs_encode_one (show subTLVSourcePrefix ≠ tlvPad1 by decide)
        (show subTLVSourcePrefix ≠ tlvPadN by decide) (by dsimp only; omega)]
      simp [requestSubTLVs, subTLVSourcePrefix, hdec]
    · rw [← hguard.2, Prefix.addr, Prefix.addr, Addr.is4_eq_of_bitLen (Prefix.masked_spec hv).2.2.1]
  · next hv =>
    obtain rfl := Option.some.inj h
    rw [Prefix.masked_of_invalid (Bool.eq_false_iff.mpr hv)]
    exact ⟨rfl, fun hv' => absurd hv' hv⟩

/-- The prefixes of a request survive, when the encoding names the destination. -/
theorem decodeRequestPrefix_encode {sub : List UInt8} (hm : p.masked = p) (hn : Names ae p)
    (hsource : encodeSource ae source = some sub) :
    decodeRequestPrefix ae p.bits.toNat (p.addr.asSlice.take (prefixByteLen p.bits.toNat) ++ sub) =
      some (p, source.masked) := by
  obtain ⟨hae, hfam, hwild⟩ := Names.encoding hn
  obtain ⟨hv, -, hmap⟩ := hn
  obtain ⟨hlen, hle, hpad, -, haddr⟩ := asSlice_masked hv hm
  have hb := p.bits_toNat_le
  have hbl := Addr.bitLen_of_ne_zero (Prefix.addr_ne_zero hv)
  have hcut := prefixByteLen_le p
  have htake : (p.addr.asSlice.take (prefixByteLen p.bits.toNat)).length = prefixByteLen p.bits.toNat := by
    rw [List.length_take, Prefix.addr, Nat.min_eq_left hcut]
  obtain ⟨hsub, hfs⟩ := decodeRequestSubTLVs_encode hae hsource
  have hwidth : (if isIPv4AE ae then 32 else 128) = p.ip.bitLen := by rw [hfam, hbl]
  have hread : (!isIPv4AE ae && ae != aeIPv6) = false := by
    rcases hae with h | h <;> simp [h]
  rw [decodeRequestPrefix, if_neg hwild, hread, if_neg (by simp)]
  simp only [hwidth]
  rw [if_neg (by rw [List.length_append, htake]; omega), List.drop_left' htake, hsub, List.take_left' htake]
  simp only [prefixByteLen, Prefix.addr, hpad, haddr, Option.getD_some, unmap_of_not hmap, Prefix.bits_nonneg hv,
    prefixFrom_self hv, hm, hv, Bool.not_true, Bool.false_eq_true, if_false]
  rw [if_neg]
  intro hbad
  rw [Bool.and_eq_true, Prefix.isValid_masked, bne_iff_ne] at hbad
  exact hbad.2 (by rw [hfs hbad.1, hfam])

/-- Sixteen bytes of which at most the first four are not zero are not a mapped address. -/
theorem short_not_mapped {bs : List UInt8} {n : Nat} (hn : n ≤ 4) (hl : bs.length = n) :
    (Addr.v6 (ofBytes 128 (bs ++ List.replicate (16 - n) 0)) "").is4In6 = false := by
  refine Bool.eq_false_iff.mpr fun h => ?_
  have hbit := ((Addr.is4In6_iff _).mp h).2 80 (by omega)
  rw [Addr.as16, getMsbD_ofBytes (by simp; omega) (by omega), List.getD_append_right _ _ _ _ (by omega),
    List.getD_eq_getElem?_getD, List.getElem?_replicate, if_pos (by omega)] at hbit
  exact absurd hbit (by decide)

theorem bitLen_masked_prefixFrom {a : Addr} (hv : (prefixFrom a n).masked.isValid = true) :
    (prefixFrom a n).masked.ip.bitLen = a.bitLen := by
  rw [Prefix.isValid_masked] at hv
  have hip : (prefixFrom a n).ip = a.withoutZone := by
    unfold prefixFrom
    split <;> rfl
  rw [(Prefix.masked_spec hv).2.2.1, hip, Addr.bitLen_withoutZone]

theorem names_v4 {x : BitVec 32} (h4 : isIPv4AE ae = true) (hv : (prefixFrom (.v4 x) n).masked.isValid = true) :
    Names ae (prefixFrom (.v4 x) n).masked := by
  have hbl := bitLen_masked_prefixFrom hv
  refine ⟨hv, ?_, ?_⟩
  · rw [Prefix.addr, Addr.is4_eq_of_bitLen hbl]
    exact h4
  · refine Bool.eq_false_iff.mpr fun h => ?_
    rw [((Addr.is4In6_iff _).mp h).1] at hbl
    exact absurd hbl (by simp [Addr.bitLen])

theorem names_v6 {x : BitVec 128} (hmap : (Addr.v6 x "").is4In6 = false) (hv : (prefixFrom (.v6 x "") n).masked.isValid = true) :
    Names aeIPv6 (prefixFrom (.v6 x "") n).masked := by
  have hbl := bitLen_masked_prefixFrom hv
  refine ⟨hv, ?_, ?_⟩
  · rw [Prefix.addr, Addr.is4_eq_of_bitLen hbl]
    rfl
  · refine Bool.eq_false_iff.mpr fun h => ?_
    have hmapped := (is4In6_of_masked (by simpa using hv) h).1
    have hip : (prefixFrom (.v6 x "") n).ip = .v6 x "" := by
      unfold prefixFrom
      split <;> rfl
    rw [hip, hmap] at hmapped
    exact absurd hmapped (by simp)

/-- The prefix read from the bytes of a request, when it is valid, is one the encoding names. -/
theorem names_of_bytes {plen : Nat} {bs : List UInt8} {bits : Nat} (hae : isIPv4AE ae = true ∨ ae = aeIPv6)
    (hbits : bits = if isIPv4AE ae then 32 else 128) (hplen : plen ≤ bits) (hl : bs.length = prefixByteLen plen)
    (hv : (prefixFrom ((addrFromSlice (bs ++ List.replicate (bits / 8 - prefixByteLen plen) 0)).getD .zero).unmap
      plen).masked.isValid = true) :
    Names ae (prefixFrom ((addrFromSlice (bs ++ List.replicate (bits / 8 - prefixByteLen plen) 0)).getD .zero).unmap
      plen).masked := by
  have hcut : prefixByteLen plen = (plen + 7) / 8 := rfl
  by_cases h4 : isIPv4AE ae = true
  · rw [if_pos h4] at hbits
    subst hbits
    rw [addrFromSlice, if_pos (by rw [List.length_append, List.length_replicate]; omega)] at hv ⊢
    exact names_v4 h4 hv
  · obtain rfl := hae.resolve_left h4
    rw [if_neg h4] at hbits
    subst hbits
    have hlen : (bs ++ List.replicate (128 / 8 - prefixByteLen plen) 0).length = 16 := by
      rw [List.length_append, List.length_replicate]
      omega
    rw [addrFromSlice, if_neg (by omega), if_pos hlen] at hv ⊢
    rw [Option.getD_some] at hv ⊢
    have hmap : (Addr.v6 (ofBytes 128 (bs ++ List.replicate (128 / 8 - prefixByteLen plen) 0)) "").is4In6 = false := by
      by_cases h32 : plen ≤ 32
      · exact short_not_mapped (by omega) hl
      · -- an unmapped address is too short for this length
        refine Bool.eq_false_iff.mpr fun h => ?_
        rw [Addr.unmap, if_pos h, Prefix.isValid_masked, prefixFrom, dif_neg (by simp only [Addr.bitLen]; omega)] at hv
        exact absurd hv (by simp [Prefix.isValid])
    rw [unmap_of_not hmap] at hv ⊢
    exact names_v6 hmap hv

/-- A request that decodes asks for everything, or for a prefix its encoding names. -/
theorem decodeRequestPrefix_names {plen : Nat} {raw : List UInt8} {dest : Prefix}
    (h : decodeRequestPrefix ae plen raw = some (dest, source)) : dest.isValid = false ∨ Names ae dest := by
  unfold decodeRequestPrefix at h
  by_cases hwild : ae = aeWildcard
  · rw [if_pos hwild] at h
    split at h
    · exact absurd h (by simp)
    · simp only [Option.map_eq_some_iff, Prod.mk.injEq] at h
      obtain ⟨-, -, rfl, -⟩ := h
      exact .inl rfl
  · rw [if_neg hwild] at h
    by_cases hread : (!isIPv4AE ae && ae != aeIPv6) = true
    · rw [if_pos hread] at h
      exact absurd h (by simp)
    · rw [if_neg hread] at h
      have hae : isIPv4AE ae = true ∨ ae = aeIPv6 := by
        by_cases h4 : isIPv4AE ae = true
        · exact .inl h4
        · exact .inr (by simpa [Bool.eq_false_iff.mpr h4] using hread)
      generalize hbits : (if isIPv4AE ae then 32 else 128) = bits at h
      dsimp only at h
      by_cases hshort : bits < plen ∨ raw.length < prefixByteLen plen
      · rw [if_pos hshort] at h
        exact absurd h (by simp)
      · rw [if_neg hshort] at h
        rw [not_or] at hshort
        cases hsub : decodeRequestSubTLVs ae (raw.drop (prefixByteLen plen)) with
        | none => simp [hsub] at h
        | some src =>
          rw [hsub] at h
          dsimp only at h
          split at h
          · exact absurd h (by simp)
          · next hvalid =>
            split at h
            · exact absurd h (by simp)
            · obtain ⟨rfl, -⟩ := Prod.mk.inj (Option.some.inj h)
              exact .inr (names_of_bytes hae hbits.symm (by omega) (by rw [List.length_take]; omega) (by simpa using hvalid))

/-- The length byte of a valid prefix. -/
theorem toNat_ofInt_bits (hv : p.isValid = true) : (UInt8.ofInt p.bits).toNat = p.bits.toNat := by
  have hb := p.bits_toNat_le
  have hbl := p.ip.bitLen_le
  rw [← Prefix.bits_nonneg hv, UInt8.ofInt, Int.toNat_natCast]
  simp only [Int.reducePow, UInt8.toNat_ofNat']
  omega

theorem prefix_sliceTo (p : Prefix) :
    sliceTo p.addr.asSlice (prefixByteLen p.bits.toNat) = some (p.addr.asSlice.take (prefixByteLen p.bits.toNat)) := by
  rw [sliceTo, if_neg (Nat.not_lt.mpr (prefixByteLen_le p))]

/-- A Route Request decodes to what it says exactly when it asks for everything or its encoding names its prefix. -/
theorem routeRequest_roundtrip_iff {r : RouteRequest} {tlv : RawTLV} (h : encodeRouteRequest r = some tlv) :
    decodeRouteRequest tlv.body = some r.normal ↔
      r.ae = aeWildcard ∨ r.dest.isValid = false ∨ Names r.ae r.dest.masked := by
  unfold encodeRouteRequest at h
  by_cases hwild : r.ae = aeWildcard ∨ !r.dest.isValid
  · rw [if_pos hwild] at h
    obtain rfl := Option.some.inj h
    rw [RouteRequest.normal, if_pos hwild]
    exact ⟨fun _ => hwild.imp_right fun hv => .inl (by simpa using hv), fun _ => by decide⟩
  · rw [if_neg hwild] at h
    simp only [prefix_sliceTo, Option.bind_eq_bind, Option.bind_some, Option.bind_eq_some_iff, Option.some.injEq] at h
    obtain ⟨sub, hsub, rfl⟩ := h
    rw [RouteRequest.normal, if_neg hwild]
    rw [not_or] at hwild
    have hv : r.dest.masked.isValid = true := by simpa using hwild.2
    have hdec : decodeRouteRequest ([r.ae, UInt8.ofInt r.dest.masked.bits] ++
        r.dest.masked.addr.asSlice.take (prefixByteLen r.dest.masked.bits.toNat) ++ sub) =
        (decodeRequestPrefix r.ae r.dest.masked.bits.toNat (r.dest.masked.addr.asSlice.take
          (prefixByteLen r.dest.masked.bits.toNat) ++ sub)).map fun p => ⟨r.ae, p.1, p.2⟩ := by
      rw [List.append_assoc, List.cons_append, List.cons_append, List.nil_append, decodeRouteRequest,
        if_neg (by simp only [List.length_cons]; omega)]
      simp only [List.getD_cons_zero, List.getD_cons_succ, List.drop_succ_cons, List.drop_zero, toNat_ofInt_bits hv]
    rw [hdec]
    constructor
    · intro hsome
      obtain ⟨⟨dest, source⟩, hpref, heq⟩ := Option.map_eq_some_iff.mp hsome
      obtain ⟨-, rfl, -⟩ := RouteRequest.mk.inj heq
      rcases decodeRequestPrefix_names hpref with hbad | hnames
      · rw [hv] at hbad
        exact absurd hbad (by simp)
      · exact .inr (.inr hnames)
    · rintro (hae | hinv | hnames)
      · exact absurd hae hwild.1
      · exact absurd (by simpa using hinv) hwild.2
      · rw [decodeRequestPrefix_encode (Prefix.masked_masked _) hnames hsub]
        rfl

/-- A Seqno Request decodes to what it says exactly when its encoding names its prefix. -/
theorem seqnoRequest_roundtrip_iff {r : SeqnoRequest} {tlv : RawTLV} (h : encodeSeqnoRequest r = some tlv) :
    decodeSeqnoRequest tlv.body = some r.normal ↔ Names r.ae r.dest.masked := by
  simp only [encodeSeqnoRequest, prefix_sliceTo, Option.bind_eq_bind, Option.bind_some, Option.bind_eq_some_iff,
    Option.some.injEq] at h
  obtain ⟨sub, hsub, rfl⟩ := h
  obtain ⟨s0, s1, hs, hs'⟩ := putUint16_bytes r.seqno
  have hid : (toBytes r.routerID).length = 8 := by simp
  generalize hraw : r.dest.masked.addr.asSlice.take (prefixByteLen r.dest.masked.bits.toNat) = raw
  have hdrop : (toBytes r.routerID ++ (raw ++ sub)).drop 8 = raw ++ sub := List.drop_left' hid
  have htake : (toBytes r.routerID ++ (raw ++ sub)).take 8 = toBytes r.routerID := List.take_left' hid
  have hbody : [r.ae, UInt8.ofInt r.dest.masked.bits] ++ putUint16 r.seqno ++ [r.hopCount, 0] ++ toBytes r.routerID ++ raw ++
      sub = r.ae :: UInt8.ofInt r.dest.masked.bits :: s0 :: s1 :: r.hopCount :: 0 ::
        (toBytes r.routerID ++ (raw ++ sub)) := by
    simp [hs]
  rw [hbody, decodeSeqnoRequest, if_neg (by simp only [List.length_cons, List.length_append, hid]; omega)]
  simp only [List.getD_cons_zero, List.getD_cons_succ, List.drop_succ_cons, List.drop_zero, hdrop]
  constructor
  · intro hsome
    split at hsome
    · exact absurd hsome (by simp)
    · next dest source hpref =>
      split at hsome
      · exact absurd hsome (by simp)
      · next hv =>
        have hdest : dest = r.dest.masked := congrArg SeqnoRequest.dest (Option.some.inj hsome)
        rw [← hdest]
        exact (decodeRequestPrefix_names hpref).resolve_left (by simpa using hv)
  · intro hnames
    rw [toNat_ofInt_bits hnames.1, ← hraw, decodeRequestPrefix_encode (Prefix.masked_masked _) hnames hsub]
    dsimp only
    rw [hnames.1, hraw, htake, ofBytes_toBytes _ rfl]
    simp only [Bool.not_true, Bool.false_eq_true, if_false, uint16At, List.drop_succ_cons, List.drop_zero,
      List.take_succ_cons, List.take_zero, hs']
    rfl

end FramesAux

open CodecAux FramesAux

/-- The packet format. Packets decode to their TLVs without padding; Hellos, IHUs and Router-Ids to what was encoded, the stamp of
one that carries none not being sent; a request the encoder accepts to what it says, exactly when it asks for everything or its
encoding names its prefix. The framer accepts exactly the runs of TLVs. -/
theorem packet_format :
    (∀ tlvs : List RawTLV, (∀ t ∈ tlvs, t.body.length ≤ 255) → (tlvs.flatMap encodeTLV).length ≤ 65535 →
      decodePacket (encodePacket tlvs) = .ok (tlvs.filter fun t => !t.isPadding)) ∧
    (∀ h : Hello, decodeHello (encodeHello h).body = some { h with txTS := if h.hasTS then h.txTS else 0 }) ∧
    (∀ ihu : IHU, decodeIHU (encodeIHU ihu).body = some ({ ihu with
      originTS := if ihu.hasTS then ihu.originTS else 0, receiveTS := if ihu.hasTS then ihu.receiveTS else 0 }, none)) ∧
    (∀ id : RouterID, decodeRouterID (encodeRouterID id).body = some (id, false)) ∧
    (∀ (r : RouteRequest) (tlv : RawTLV), encodeRouteRequest r = some tlv →
      (decodeRouteRequest tlv.body = some r.normal ↔
        r.ae = aeWildcard ∨ r.dest.isValid = false ∨ Names r.ae r.dest.masked)) ∧
    (∀ (r : SeqnoRequest) (tlv : RawTLV), encodeSeqnoRequest r = some tlv →
      (decodeSeqnoRequest tlv.body = some r.normal ↔ Names r.ae r.dest.masked)) ∧
    (∀ (bs : List UInt8) (frames : List (UInt8 × List UInt8)), decodeTLVFrames bs = .ok frames ↔
      ∃ tlvs : List RawTLV, (∀ t ∈ tlvs, t.body.length ≤ 255) ∧ bs = tlvs.flatMap encodeTLV ∧ frames = framesOf tlvs) := by
  have hle : ∀ {tlvs : List RawTLV}, (∀ t ∈ tlvs, t.body.length ≤ 255) → ∀ t ∈ tlvs, t.body.length < 256 :=
    fun h t ht => Nat.lt_succ_of_le (h t ht)
  refine ⟨fun tlvs hbodies htotal => decodePacket_encodePacket (hle hbodies) (Nat.lt_succ_of_le htotal),
    decodeHello_encodeHello, decodeIHU_encodeIHU, decodeRouterID_encode, fun _ _ => routeRequest_roundtrip_iff,
    fun _ _ => seqnoRequest_roundtrip_iff, fun bs frames => ⟨fun h => ?_, ?_⟩⟩
  · obtain ⟨tlvs, hbodies, hbytes, hframes⟩ := exists_tlvs_of_decode bs.length (Nat.le_refl _) h
    exact ⟨tlvs, fun t ht => Nat.le_of_lt_succ (hbodies t ht), hbytes, hframes⟩
  · rintro ⟨tlvs, hbodies, rfl, rfl⟩
    exact decodeTLVFrames_flatMap (hle hbodies)

/-- A request for the seqno of `::ffff:10.0.0.0/104`. -/
def mappedRequest : SeqnoRequest :=
  { ae := aeIPv6, dest := prefixFrom (.v6 0xffff0a000000#128 "") 104, sourcePrefix := .none, seqno := 1, hopCount := 64
    routerID := 1 }

/-- The encoder accepts the request, and the decoder refuses what it wrote. -/
theorem mapped_request_refused :
    ∃ tlv, encodeSeqnoRequest mappedRequest = some tlv ∧ decodeSeqnoRequest tlv.body = none :=
  ⟨⟨tlvSeqnoRequest, [2, 104, 0, 1, 64, 0, 0, 0, 0, 0, 0, 0, 0, 1, 0, 0, 0, 0, 0, 0, 0, 0, 0, 0, 0xff, 0xff, 10]⟩,
    by decide +kernel, by decide +kernel⟩

/-- A request for the seqno of `2001:db8::/32` from `2001:db8:1::/48`. -/
def docRequest : SeqnoRequest :=
  { ae := aeIPv6, dest := prefixFrom (.v6 (0x20010db8#128 <<< 96) "") 32
    sourcePrefix := prefixFrom (.v6 (0x20010db80001#128 <<< 80) "") 48, seqno := 7, hopCount := 64, routerID := 1 }

/-- The request decodes to itself, and a packet of it and padding to the request. -/
theorem packet_format_doc :
    ∃ tlv, encodeSeqnoRequest docRequest = some tlv ∧ decodeSeqnoRequest tlv.body = some docRequest ∧
      decodePacket (encodePacket [⟨tlvPad1, []⟩, tlv, ⟨tlvPadN, [0, 0]⟩]) = .ok [tlv] := by
  obtain ⟨hpacket, -, -, -, -, hseqno, -⟩ := packet_format
  have henc : encodeSeqnoRequest docRequest = some ⟨tlvSeqnoRequest,
      [2, 32, 0, 7, 64, 0, 0, 0, 0, 0, 0, 0, 0, 1, 0x20, 1, 0xd, 0xb8, 128, 7, 48, 0x20, 1, 0xd, 0xb8, 0, 1]⟩ := by
    decide +kernel
  have hdec := (hseqno _ _ henc).mpr (by decide +kernel)
  have hnormal : docRequest.normal = docRequest := by decide +kernel
  rw [hnormal] at hdec
  refine ⟨_, henc, hdec, ?_⟩
  rw [hpacket _ (by decide) (by decide)]
  rfl

end RanetLite.Babel
