import RanetLite.Lemmas.Codec

/-!
# Announced keys on the wire

Every key a speaker holds is canonical: masked, of one family, its source absent or longer than zero (`holdable_canonical`). The
Update of a canonical key is always encoded, decodes under any compression state, and names the key again exactly when its
destination is not an IPv4-mapped IPv6 prefix.
-/

namespace RanetLite.Babel

open Bytes Netip BitPrefix

/-- The form every key of the speaker has. -/
structure RouteKey.Canonical (key : RouteKey) : Prop where
  destValid : key.dest.isValid = true
  destMasked : key.dest.masked = key.dest
  source : key.source = .none ∨ key.source.isValid = true ∧ key.source.masked = key.source ∧ 0 < key.source.bits ∧
    key.source.addr.is4 = key.dest.addr.is4

/-- A key the speaker can hold: originated by an announcement that validation accepts, or learned from an Update. -/
inductive Holdable : RouteKey → Prop
  | originated {entry : Announce} {key : RouteKey} (accepted : entry.validate = none)
      (origin : originatedKey entry.destination entry.source = some key) : Holdable key
  | learned {d d' : PrefixDecoder} {body : List UInt8} {u : Update} {key : RouteKey}
      (decoded : d.decode body = .ok (u, d')) (named : updateKey u = some key) : Holdable key

namespace WireAux

theorem originatedKey_canonical {dest source : Prefix} {key : RouteKey} (h : originatedKey dest source = some key) :
    key.Canonical := by
  unfold originatedKey at h
  split at h
  · exact absurd h (by simp)
  · next hd =>
    have hdv : dest.isValid = true := by simpa using hd
    split at h
    · next hs =>
      split at h
      · exact absurd h (by simp)
      · next hf =>
        obtain rfl := Option.some.inj h
        obtain ⟨hsv, hsb, hsl, -⟩ := Prefix.masked_spec hs.1
        obtain ⟨hv, -, hl, -⟩ := Prefix.masked_spec hdv
        refine ⟨hv, Prefix.masked_masked dest, .inr ⟨hsv, Prefix.masked_masked source, by rw [hsb]; exact hs.2, ?_⟩⟩
        have hf' : source.addr.is4 = dest.addr.is4 := by simpa using hf
        rw [Prefix.addr, Prefix.addr, Addr.is4_eq_of_bitLen hsl, Addr.is4_eq_of_bitLen hl]
        exact hf'
    · obtain rfl := Option.some.inj h
      exact ⟨by simpa using hdv, Prefix.masked_masked dest, .inl rfl⟩

/-- A decoded source prefix is masked, longer than zero and of the encoding's family. -/
theorem decodeSourcePrefix_spec {ae : UInt8} {body : List UInt8} {sp : Prefix} (h : decodeSourcePrefix ae body = some sp) :
    sp.isValid = true ∧ sp.masked = sp ∧ 0 < sp.bits := by
  have key : ∀ (a : Addr) (n : Nat), a ≠ .zero → a.zone = "" → 0 < n → n ≤ a.bitLen →
      (prefixFrom a n).masked.isValid = true ∧ (prefixFrom a n).masked.masked = (prefixFrom a n).masked ∧
        0 < (prefixFrom a n).masked.bits := by
    intro a n ha hz h0 hn
    obtain ⟨-, hv, hb⟩ := prefixFrom_valid (n := (n : Int)) ha hz (by omega) (by omega)
    refine ⟨by simpa using hv, Prefix.masked_masked _, ?_⟩
    rw [(Prefix.masked_spec hv).2.1, hb]
    omega
  cases body with
  | nil => exact absurd h (by simp [decodeSourcePrefix])
  | cons len rest =>
    simp only [decodeSourcePrefix] at h
    split at h
    · exact absurd h (by simp)
    · next h0 =>
      rw [not_or] at h0
      split at h
      · split at h
        · exact absurd h (by simp)
        · next h32 =>
          rw [← Option.some.inj h]
          exact key _ _ (by simp) rfl (by omega) (by simp only [Addr.bitLen]; omega)
      · split at h
        · split at h
          · exact absurd h (by simp)
          · next h128 =>
            rw [← Option.some.inj h]
            exact key _ _ (by simp) rfl (by omega) (by simp only [Addr.bitLen]; omega)
        · exact absurd h (by simp)

/-- The sub-TLV loop touches only the source prefix and whether the Update is ignored. -/
theorem updateSubTLVs_spec (ae : UInt8) (subs : List SubTLV) (seen : Nat) (u : Update) :
    ∃ sp ig, updateSubTLVs ae subs seen u = { u with sourcePrefix := sp, ignore := ig } ∧
      (sp = u.sourcePrefix ∨ sp.isValid = true ∧ sp.masked = sp ∧ 0 < sp.bits) := by
  induction subs generalizing seen u with
  | nil => exact ⟨u.sourcePrefix, u.ignore, rfl, .inl rfl⟩
  | cons s rest ih =>
    rw [updateSubTLVs]
    split
    · exact ih seen u
    · split
      · obtain ⟨sp, ig, h, hsp⟩ := ih seen { u with ignore := true }
        exact ⟨sp, ig, h, hsp⟩
      · split
        · obtain ⟨sp, ig, h, hsp⟩ := ih (seen + 1) { u with ignore := true }
          exact ⟨sp, ig, h, hsp⟩
        · split
          · next sp' hd =>
            obtain ⟨sp, ig, h, hsp⟩ := ih (seen + 1) { u with sourcePrefix := sp' }
            refine ⟨sp, ig, h, .inr ?_⟩
            rcases hsp with rfl | hsp
            · exact decodeSourcePrefix_spec hd
            · exact hsp
          · obtain ⟨sp, ig, h, hsp⟩ := ih (seen + 1) { u with ignore := true }
            exact ⟨sp, ig, h, hsp⟩

/-- The source prefix of a decoded Update. -/
theorem decode_sourcePrefix {d d' : PrefixDecoder} {body : List UInt8} {u : Update} (h : d.decode body = .ok (u, d')) :
    u.sourcePrefix = .none ∨ u.sourcePrefix.isValid = true ∧ u.sourcePrefix.masked = u.sourcePrefix ∧
      0 < u.sourcePrefix.bits := by
  unfold PrefixDecoder.decode at h
  split at h
  · exact absurd h (by simp)
  · dsimp only at h
    split at h
    · exact absurd h (by simp)
    · split at h
      · exact absurd h (by simp)
      · split at h
        · exact absurd h (by simp)
        · split at h
          · rw [← (Prod.mk.inj (Except.ok.inj h)).1]
            exact .inl rfl
          · next subs _ =>
            rw [← (Prod.mk.inj (Except.ok.inj h)).1]
            obtain ⟨sp, ig, heq, hsp⟩ := updateSubTLVs_spec (body.getD 0 0) subs 0 _
            rw [heq]
            exact hsp

/-- Decoding an Update sent without compression does not read the compression state. -/
theorem decode_plain (d : PrefixDecoder) (ae pl i0 i1 s0 s1 m0 m1 : UInt8) {sent sub : List UInt8} {subs : List SubTLV}
    (hcheck : checkUpdate d ae pl.toNat 0 = none) (hae : ae ≠ aeWildcard) (hsent : sent.length = prefixByteLen pl.toNat)
    (hsub : decodeSubTLVs sub = .ok subs) :
    ∃ d', d.decode (ae :: updateFlagPrefix :: pl :: 0 :: i0 :: i1 :: s0 :: s1 :: m0 :: m1 :: (sent ++ sub)) =
      .ok (updateSubTLVs ae subs 0 {
        ae := ae, plen := pl.toNat, interval := ⟨ofBytes 16 [i0, i1]⟩, seqno := ⟨ofBytes 16 [s0, s1]⟩
        metric := ⟨ofBytes 16 [m0, m1]⟩
        addr := clearTail (sent ++ List.replicate ((if isIPv4AE ae then 4 else 16) - prefixByteLen pl.toNat) 0) pl.toNat
        ignore := (⟨ofBytes 16 [i0, i1]⟩ : UInt16) == 0 && (⟨ofBytes 16 [m0, m1]⟩ : UInt16) != metricInfinity }, d') := by
  have hdrop : (sent ++ sub).drop (prefixByteLen pl.toNat) = sub := by rw [← hsent, List.drop_left]
  have htake : (sent ++ sub).take (prefixByteLen pl.toNat) = sent := by rw [← hsent, List.take_left]
  have hwild : (ae == aeWildcard) = false := by simpa using hae
  have hflag : (updateFlagPrefix &&& updateFlagRouterID != 0) = false := by decide
  have hflag' : (updateFlagPrefix &&& updateFlagPrefix != 0) = true := by decide
  refine ⟨d.remember ae (clearTail (sent ++
    List.replicate ((if isIPv4AE ae then 4 else 16) - prefixByteLen pl.toNat) 0) pl.toNat), ?_⟩
  unfold PrefixDecoder.decode
  rw [if_neg (by simp only [List.length_cons]; omega)]
  simp only [List.getD_cons_zero, List.getD_cons_succ, UInt8.toNat_zero, hcheck]
  rw [if_neg (Nat.not_lt_zero _), if_neg (by simp only [List.drop_succ_cons, List.drop_zero, List.length_append]; omega)]
  simp only [List.drop_succ_cons, List.drop_zero, Nat.sub_zero, hdrop, htake, hsub, hwild, hflag, hflag', Bool.false_and,
    Bool.or_false, Bool.not_false, Bool.true_and, Bool.false_eq_true, if_false, if_true, List.take_zero, List.nil_append,
    uint16At]
  rfl

/-- The encoding a prefix's family travels under. -/
theorem isIPv4AE_updateAE (p : Prefix) : isIPv4AE (updateAE p) = p.addr.is4 := by
  unfold updateAE
  split
  · next h => rw [h]; rfl
  · next h => rw [Bool.eq_false_iff.mpr h]; rfl

theorem updateAE_names (p : Prefix) : isIPv4AE (updateAE p) = true ∨ updateAE p = aeIPv6 := by
  unfold updateAE
  split
  · exact .inl rfl
  · exact .inr rfl

theorem bitLen_div {a : Addr} (h : a ≠ .zero) : a.bitLen / 8 = if a.is4 then 4 else 16 := by
  rw [Addr.bitLen_of_ne_zero h]
  split <;> rfl

theorem checkUpdate_key (d : PrefixDecoder) {p : Prefix} (hv : p.isValid = true) :
    checkUpdate d (updateAE p) p.bits.toNat 0 = none := by
  have hb := p.bits_toNat_le
  rw [Addr.bitLen_of_ne_zero (Prefix.addr_ne_zero hv)] at hb
  have hae := isIPv4AE_updateAE p
  have hwild : updateAE p ≠ aeWildcard := by
    unfold updateAE
    split <;> decide
  rw [checkUpdate, if_neg hwild, hae]
  split
  · next h4 =>
    rw [Prefix.addr] at h4
    rw [if_pos h4] at hb
    rw [if_neg (by omega), if_neg (by omega)]
  · next h4 =>
    have h6 : updateAE p = aeIPv6 := by rw [updateAE, if_neg h4]
    rw [Prefix.addr] at h4
    rw [if_neg h4] at hb
    rw [if_pos h6, if_neg (by omega), if_neg (by omega)]

/-- The bytes an Update takes its prefix from are the address's own. -/
theorem rawPrefix_key {p : Prefix} (hv : p.isValid = true) (hm : p.masked = p) :
    rawPrefix (updateAE p) p.addr.asSlice = some p.ip.asSlice := by
  have hl := (asSlice_masked hv hm).1
  rw [bitLen_div (Prefix.addr_ne_zero hv)] at hl
  rw [rawPrefix, isIPv4AE_updateAE, Prefix.addr]
  split
  · next h4 =>
    rw [if_pos h4] at hl
    rw [to4, if_pos hl]
  · next h4 =>
    rw [if_neg h4] at hl
    rw [if_pos (by rw [updateAE, Prefix.addr, if_neg h4]), to16, if_neg (by omega), if_pos hl]

end WireAux

open WireAux CodecAux

/-- The Update of a canonical key is encoded, and decodes under any compression state to what was encoded, ignored only for
an interval of zero with a finite metric. -/
theorem update_roundtrip {key : RouteKey} (hc : key.Canonical) (seqno metric interval : UInt16) :
    ∃ tlv, encodeUpdate (keyUpdate key seqno metric interval) = some tlv ∧ tlv.type = tlvUpdate ∧ tlv.body.length ≤ 45 ∧
      ∀ d : PrefixDecoder, ∃ d', d.decode tlv.body = .ok ({ keyUpdate key seqno metric interval with
        ignore := interval == 0 && metric != metricInfinity }, d') := by
  obtain ⟨hlen, hle, hpad, hclear, -⟩ := asSlice_masked hc.destValid hc.destMasked
  have hbl := key.dest.ip.bitLen_le
  have hb := key.dest.bits_toNat_le
  have hnat : (UInt8.ofNat key.dest.bits.toNat).toNat = key.dest.bits.toNat := UInt8.toNat_ofNat_of_lt' (by simp; omega)
  obtain ⟨i0, i1, hi, hi'⟩ := putUint16_bytes interval
  obtain ⟨s0, s1, hs, hs'⟩ := putUint16_bytes seqno
  obtain ⟨m0, m1, hm, hm'⟩ := putUint16_bytes metric
  -- the sub-TLVs: none, or the source prefix
  obtain ⟨sub, subs, henc, hdec, hsub, hlen'⟩ : ∃ sub subs,
      encodeSource (updateAE key.dest) key.source = some sub ∧ decodeSubTLVs sub = .ok subs ∧
      (∀ u : Update, u.sourcePrefix = .none →
        updateSubTLVs (updateAE key.dest) subs 0 u = { u with sourcePrefix := key.source }) ∧ sub.length ≤ 19 := by
    rcases hc.source with hnone | ⟨hv, hmask, h0, hf⟩
    · refine ⟨[], [], by rw [hnone]; rfl, rfl, fun u hu => ?_, by simp⟩
      rw [updateSubTLVs, hnone, ← hu]
    · obtain ⟨body, he, hd, hl⟩ := sourcePrefix_roundtrip hv h0 (by rw [isIPv4AE_updateAE]; exact hf) (updateAE_names key.dest)
      rw [hmask] at hd
      refine ⟨_, _, by rw [encodeSource, if_pos hv, he], decodeSubTLVs_encode_one (show subTLVSourcePrefix ≠ tlvPad1 by decide)
        (show subTLVSourcePrefix ≠ tlvPadN by decide) (by dsimp only; omega),
        fun u _ => ?_, ?_⟩
      · simp [updateSubTLVs, subTLVSourcePrefix, hd]
      · simp [encodeSubTLVs]
        omega
  have hsent : (key.dest.ip.asSlice.take (prefixByteLen key.dest.bits.toNat)).length =
      prefixByteLen (UInt8.ofNat key.dest.bits.toNat).toNat := by
    rw [List.length_take, hlen, hnat, prefixByteLen]
    omega
  have hraw : ¬key.dest.ip.asSlice.length < prefixByteLen key.dest.bits.toNat := by
    rw [hlen, prefixByteLen]
    omega
  refine ⟨⟨tlvUpdate, updateAE key.dest :: updateFlagPrefix :: UInt8.ofNat key.dest.bits.toNat :: 0 :: i0 :: i1 :: s0 ::
    s1 :: m0 :: m1 :: (key.dest.ip.asSlice.take (prefixByteLen key.dest.bits.toNat) ++ sub)⟩, ?_, rfl, ?_, fun d => ?_⟩
  · simp only [encodeUpdate, keyUpdate, rawPrefix_key hc.destValid hc.destMasked, Option.bind_eq_bind, Option.bind_some]
    simp only [sliceTo, if_neg hraw, Option.bind_some, henc, hi, hs, hm]
    rfl
  · simp only [List.length_cons, List.length_append]
    rw [hsent, hnat, prefixByteLen]
    omega
  · have hae : updateAE key.dest ≠ aeWildcard := by
      unfold updateAE
      split <;> decide
    obtain ⟨d', hd'⟩ := decode_plain d (updateAE key.dest) (UInt8.ofNat key.dest.bits.toNat) i0 i1 s0 s1 m0 m1
      (by rw [hnat]; exact checkUpdate_key d hc.destValid) hae hsent hdec
    refine ⟨d', hd'.trans ?_⟩
    rw [hsub _ rfl, hi', hs', hm', hnat, isIPv4AE_updateAE, Prefix.addr, ← bitLen_div (Prefix.addr_ne_zero hc.destValid),
      prefixByteLen, hpad, hclear]
    rfl

namespace WireAux

/-- A prefix is mapped after masking only if it was before, and is at least 96 long. -/
theorem is4In6_of_masked {p : Prefix} (hv : p.isValid = true) (h : p.masked.ip.is4In6 = true) :
    p.ip.is4In6 = true ∧ 96 ≤ p.len16 := by
  obtain ⟨-, -, hl, ha⟩ := Prefix.masked_spec hv
  obtain ⟨hbl, hag⟩ := (Addr.is4In6_iff _).mp h
  rw [hl] at hbl
  rw [ha] at hag
  have hle : 96 ≤ p.len16 := by
    by_contra hlt
    have hbit := hag 95 (by omega)
    rw [getMsbD_keepHigh _ p.len16_le, decide_eq_false (by omega), Bool.false_and] at hbit
    exact absurd hbit (by decide)
  exact ⟨(Addr.is4In6_iff _).mpr ⟨hbl, ((agree_keepHigh _ p.len16_le).mono hle).symm.trans hag⟩, hle⟩

/-- The unmapped form of an address is never mapped. -/
theorem is4In6_unmap (a : Addr) : a.unmap.is4In6 = false := by
  cases a with
  | v6 w z =>
    rw [Addr.unmap]
    split
    · rfl
    · next h => exact Bool.eq_false_iff.mpr h
  | _ => rfl

theorem unmap_of_not {a : Addr} (h : a.is4In6 = false) : a.unmap = a := by
  cases a with
  | v6 w z => rw [Addr.unmap, if_neg (Bool.eq_false_iff.mp h)]
  | _ => rfl

theorem is4In6_withoutZone (a : Addr) : a.withoutZone.is4In6 = a.is4In6 := by cases a <;> rfl

/-- A key learned from an Update is canonical, and its destination is not mapped. -/
theorem updateKey_spec {d d' : PrefixDecoder} {body : List UInt8} {u : Update} {key : RouteKey}
    (hd : d.decode body = .ok (u, d')) (hk : updateKey u = some key) :
    key.Canonical ∧ key.dest.addr.is4In6 = false := by
  have hsource := decode_sourcePrefix hd
  unfold updateKey at hk
  simp only [Option.bind_eq_bind, Option.bind_eq_some_iff] at hk
  obtain ⟨addr, -, hk⟩ := hk
  split at hk
  · exact absurd hk (by simp)
  · next hok =>
    obtain rfl := Option.some.inj hk
    simp only [Bool.or_eq_true, Bool.not_eq_true', Bool.and_eq_true, bne_iff_ne, not_or, Bool.not_eq_false, not_and,
      not_not] at hok
    have hv : (prefixFrom addr.unmap u.plen).isValid = true := by simpa using hok.1
    refine ⟨⟨hok.1, Prefix.masked_masked _, ?_⟩, ?_⟩
    · rcases hsource with h | ⟨h1, h2, h3⟩
      · exact .inl h
      · exact .inr ⟨h1, h2, h3, hok.2 h1⟩
    · refine Bool.eq_false_iff.mpr fun h => ?_
      have hmapped := (is4In6_of_masked hv h).1
      have hip : (prefixFrom addr.unmap u.plen).ip = addr.unmap.withoutZone := by
        unfold prefixFrom
        split <;> rfl
      rw [hip, is4In6_withoutZone, is4In6_unmap] at hmapped
      exact absurd hmapped (by simp)

/-- What a receiver makes of the Update of a canonical key. -/
theorem updateKey_of_key {key : RouteKey} (hc : key.Canonical) {u : Update} (hua : u.addr = key.dest.ip.asSlice)
    (hup : u.plen = key.dest.bits.toNat) (hus : u.sourcePrefix = key.source) :
    updateKey u = if key.dest.ip.is4In6 then none else some key := by
  obtain ⟨-, -, -, -, haddr⟩ := asSlice_masked hc.destValid hc.destMasked
  have hbits := Prefix.bits_nonneg hc.destValid
  rw [updateKey, hua, haddr, hup, hus]
  simp only [Option.bind_eq_bind, Option.bind_some, Prefix.addr]
  by_cases h4 : key.dest.ip.is4In6 = true
  · -- the length counts 128-bit prefixes, and is past the end of the IPv4 address it is paired with
    have hlong : 96 ≤ key.dest.len16 := by
      rw [← hc.destMasked] at h4
      exact (is4In6_of_masked hc.destValid h4).2
    have hbl : key.dest.ip.bitLen = 128 := ((Addr.is4In6_iff _).mp h4).1
    have hinv : (prefixFrom key.dest.ip.unmap key.dest.bits.toNat).isValid = false := by
      have hw : key.dest.ip.unmap.bitLen ≤ 32 := by
        cases hip : key.dest.ip with
        | v6 w z =>
          rw [hip] at h4
          rw [Addr.unmap, if_pos h4, Addr.bitLen]
        | _ => simp [hip, Addr.is4In6] at h4
      rw [Prefix.len16, hbl] at hlong
      rw [prefixFrom, dif_neg (by omega)]
      rfl
    rw [if_pos h4, if_pos]
    rw [Prefix.isValid_masked, hinv]
    rfl
  · have hun := unmap_of_not (Bool.eq_false_iff.mpr h4)
    rw [if_neg h4, hun, hbits, prefixFrom_self hc.destValid, hc.destMasked, if_neg]
    rw [hc.destValid]
    rcases hc.source with hnone | ⟨-, -, -, hf⟩
    · simp [hnone]
    · simpa using fun _ => hf

end WireAux

/-- Every key the speaker can hold is canonical. -/
theorem holdable_canonical {key : RouteKey} (h : Holdable key) : key.Canonical := by
  cases h with
  | originated _ origin => exact originatedKey_canonical origin
  | learned decoded named => exact (updateKey_spec decoded named).1

/-- For every key the speaker can hold, every seqno, metric and interval, and every state of the receiver's decoder: encoding does
not panic, and the peer's decoding recovers the sent numbers, and its key construction the key exactly when the destination is not
an IPv4-mapped IPv6 prefix. -/
theorem announced_key_survives_iff {key : RouteKey} (h : Holdable key) (seqno metric interval : UInt16) (d : PrefixDecoder) :
    ∃ tlv u d', encodeUpdate (keyUpdate key seqno metric interval) = some tlv ∧ d.decode tlv.body = .ok (u, d') ∧
      u.seqno = seqno ∧ u.metric = metric ∧ u.interval = interval ∧
      u.ignore = (interval == 0 && metric != metricInfinity) ∧
      (updateKey u = some key ↔ key.dest.addr.is4In6 = false) := by
  have hc := holdable_canonical h
  obtain ⟨tlv, henc, -, -, hdec⟩ := update_roundtrip hc seqno metric interval
  obtain ⟨d', hd⟩ := hdec d
  refine ⟨tlv, _, d', henc, hd, rfl, rfl, rfl, rfl, ?_⟩
  rw [updateKey_of_key hc rfl rfl rfl, Prefix.addr]
  split
  · next h4 => simp [h4]
  · next h4 => simp [h4]

/-- The announcement `::ffff:10.0.0.0/104`: IPv4 space written as IPv6. -/
def mappedAnnounce : Announce := { destination := prefixFrom (.v6 0xffff0a000000#128 "") 104 }

/-- Validation accepts the announcement and the Update is encoded, but a peer builds no key from it. -/
theorem mapped_announce_lost :
    mappedAnnounce.validate = none ∧
      ∃ key tlv u d', originatedKey mappedAnnounce.destination mappedAnnounce.source = some key ∧
        encodeUpdate (keyUpdate key 1 0 1600) = some tlv ∧ PrefixDecoder.new.decode tlv.body = .ok (u, d') ∧
        u.ignore = false ∧ updateKey u = none := by
  have hval : mappedAnnounce.validate = none := by decide +kernel
  have horigin : originatedKey mappedAnnounce.destination mappedAnnounce.source =
      some ⟨.none, mappedAnnounce.destination⟩ := by decide +kernel
  have hc := originatedKey_canonical horigin
  obtain ⟨tlv, henc, -, -, hdec⟩ := update_roundtrip hc 1 0 1600
  obtain ⟨d', hd⟩ := hdec PrefixDecoder.new
  refine ⟨hval, _, tlv, _, d', horigin, henc, hd, by decide, ?_⟩
  rw [updateKey_of_key hc rfl rfl rfl, if_pos (by decide +kernel)]

/-- `2001:db8::/32` announced from `2001:db8:1::/48` survives. -/
theorem announced_key_survives_doc :
    ∃ key tlv u d', originatedKey (prefixFrom (.v6 (0x20010db8#128 <<< 96) "") 32)
        (prefixFrom (.v6 (0x20010db80001#128 <<< 80) "") 48) = some key ∧
      encodeUpdate (keyUpdate key 7 96 1600) = some tlv ∧ PrefixDecoder.new.decode tlv.body = .ok (u, d') ∧
      updateKey u = some key := by
  have hh : Holdable ⟨prefixFrom (.v6 (0x20010db80001#128 <<< 80) "") 48, prefixFrom (.v6 (0x20010db8#128 <<< 96) "") 32⟩ :=
    @Holdable.originated
      ⟨prefixFrom (.v6 (0x20010db8#128 <<< 96) "") 32, prefixFrom (.v6 (0x20010db80001#128 <<< 80) "") 48⟩ _
      (by decide +kernel) (by decide +kernel)
  obtain ⟨tlv, u, d', henc, hdec, -, -, -, -, hkey⟩ := announced_key_survives_iff hh 7 96 1600 PrefixDecoder.new
  exact ⟨_, tlv, u, d', by decide +kernel, henc, hdec, hkey.mpr (by decide +kernel)⟩

end RanetLite.Babel
