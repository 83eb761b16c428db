import RanetLite.Lemmas.Messages

/-!
# The message codec

A message decodes to what was encoded, with the fields the encoder computes, as long as its length fits the header's 32 bits. Along a
chain without an Encrypted payload the two walkers agree, and re-encoding an accepted message clears reserved bits and the version
and changes nothing else.
-/

namespace RanetLite.Ike

open Bytes

namespace MessageAux

open MessagesAux

variable {b : List UInt8} {h : Header}

@[simp] theorem length_encode (h : Header) : h.encode.length = headerLen := by simp [Header.encode, headerLen]

/-- A header decodes to itself under version two, whatever follows it. -/
theorem decodeHeader_encode (h : Header) (rest : List UInt8) :
    decodeHeader (h.encode ++ rest) = .ok { h with majorVersion := 2, minorVersion := 0 } := by
  obtain ⟨spiI, spiR, next, major, minor, exchange, flags, messageID, length⟩ := h
  generalize hb : Header.encode ⟨spiI, spiR, next, major, minor, exchange, flags, messageID, length⟩ ++ rest = b
  have hI : b = [] ++ (toBytes spiI.toBitVec ++ (toBytes spiR.toBitVec ++ ([next, 0x20, exchange, flags] ++
      (toBytes messageID.toBitVec ++ (toBytes length.toBitVec ++ rest))))) := by
    simp [← hb, Header.encode]
  have hR : b = toBytes spiI.toBitVec ++ (toBytes spiR.toBitVec ++ ([next, 0x20, exchange, flags] ++
      (toBytes messageID.toBitVec ++ (toBytes length.toBitVec ++ rest)))) := hI
  have hbytes : b = (toBytes spiI.toBitVec ++ toBytes spiR.toBitVec) ++ ([next, 0x20, exchange, flags] ++
      (toBytes messageID.toBitVec ++ (toBytes length.toBitVec ++ rest))) := by
    rw [hR, List.append_assoc]
  have hID : b = ((toBytes spiI.toBitVec ++ toBytes spiR.toBitVec) ++ [next, 0x20, exchange, flags]) ++
      (toBytes messageID.toBitVec ++ (toBytes length.toBitVec ++ rest)) := by
    rw [hbytes]
    simp only [List.append_assoc]
  have hL : b = (((toBytes spiI.toBitVec ++ toBytes spiR.toBitVec) ++ [next, 0x20, exchange, flags]) ++
      toBytes messageID.toBitVec) ++ (toBytes length.toBitVec ++ rest) := by
    rw [hID, ← List.append_assoc]
  have hlen : ¬b.length < headerLen := by
    rw [← hb, List.length_append, length_encode]
    omega
  have hget : ∀ i < 4, b.getD (16 + i) 0 = [next, 0x20, exchange, flags].getD i 0 := by
    intro i hi
    rw [hbytes, List.getD_append_right _ _ _ _ (by simp), List.getD_append _ _ _ _ (by simpa using hi)]
    simp
  have w1 : wordAt 64 b 0 = spiI.toBitVec := by rw [hI]; exact wordAt_append _ rfl rfl _
  have w2 : wordAt 64 b 8 = spiR.toBitVec := by rw [hR]; exact wordAt_append _ rfl (by simp) _
  have w3 : wordAt 32 b 20 = messageID.toBitVec := by rw [hID]; exact wordAt_append _ rfl (by simp) _
  have w4 : wordAt 32 b 24 = length.toBitVec := by rw [hL]; exact wordAt_append _ rfl (by simp) _
  rw [decodeHeader, if_neg hlen, w1, w2, w3, w4, hget 0 (by omega), hget 1 (by omega), hget 2 (by omega), hget 3 (by omega)]
  have hmajor : (0x20 : UInt8) >>> 4 = 2 := by decide
  have hminor : (0x20 : UInt8) &&& 0x0f = 0 := by decide
  simp only [List.getD_cons_zero, List.getD_cons_succ, hmajor, hminor]

/-- Re-encoding a decoded header changes the version byte and nothing else. -/
theorem encode_of_decodeHeader (hd : decodeHeader b = .ok h) : h.encode = b.take 17 ++ ([0x20] ++ (b.drop 18).take 10) := by
  unfold decodeHeader at hd
  split at hd
  · exact absurd hd (by simp)
  · next hlen =>
    rw [headerLen] at hlen
    obtain rfl := Except.ok.inj hd
    have hone : ∀ i < b.length, (b.drop i).take 1 = [b.getD i 0] := by
      intro i hi
      rw [List.drop_eq_getElem_cons hi, List.take_succ_cons, List.take_zero, List.getD_eq_getElem _ _ hi]
    have htake : b.take 17 = (b.drop 0).take 8 ++ ((b.drop 8).take 8 ++ [b.getD 16 0]) := by
      rw [← hone 16 (by omega), List.drop_zero, ← List.append_assoc, ← List.take_add, ← List.take_add]
    have hdrop : (b.drop 18).take 10 = [b.getD 18 0] ++ ([b.getD 19 0] ++ ((b.drop 20).take 4 ++ (b.drop 24).take 4)) := by
      rw [← hone 18 (by omega), ← hone 19 (by omega)]
      rw [show (b.drop 20).take 4 ++ (b.drop 24).take 4 = (b.drop 20).take 8 by
        rw [show (8 : Nat) = 4 + 4 from rfl, List.take_add, List.drop_drop]]
      rw [show (b.drop 19).take 1 ++ (b.drop 20).take 8 = (b.drop 19).take 9 by
        rw [show (9 : Nat) = 1 + 8 from rfl, List.take_add, List.drop_drop]]
      rw [show (10 : Nat) = 1 + 9 from rfl, List.take_add, List.drop_drop]
    rw [htake, hdrop, Header.encode]
    simp only [toBytes_wordAt (show 64 % 8 = 0 from rfl) (show 0 + 64 / 8 ≤ b.length by omega),
      toBytes_wordAt (show 64 % 8 = 0 from rfl) (show 8 + 64 / 8 ≤ b.length by omega),
      toBytes_wordAt (show 32 % 8 = 0 from rfl) (show 20 + 32 / 8 ≤ b.length by omega),
      toBytes_wordAt (show 32 % 8 = 0 from rfl) (show 24 + 32 / 8 ≤ b.length by omega)]
    simp

/-- A message whose length fits the header decodes to its payloads. -/
theorem decodeMessage_encode (m : Message) (h : ∀ p ∈ m.payloads, p.type ≠ payloadNone ∧ p.body.length ≤ 65531)
    (hsk : ∀ p ∈ m.payloads.dropLast, p.type ≠ payloadSK)
    (hfits : headerLen + (encodePayloadChain m.payloads).length < 2 ^ 32) :
    decodeMessage m.encode = .ok {
      header := { m.header with
        nextPayload := firstType m.payloads, majorVersion := 2, minorVersion := 0
        length := UInt32.ofNat (headerLen + (encodePayloadChain m.payloads).length) }
      payloads := m.payloads
      skHeaderOffset := skOffset (headerLen + (encodePayloadChain m.payloads).length) m.payloads } := by
  have hlen : (UInt32.ofNat (headerLen + (encodePayloadChain m.payloads).length)).toNat =
      headerLen + (encodePayloadChain m.payloads).length := UInt32.toNat_ofNat_of_lt' hfits
  have hdrop : ∀ h : Header, (h.encode ++ encodePayloadChain m.payloads).drop headerLen = encodePayloadChain m.payloads :=
    fun h => List.drop_left' (length_encode h)
  have hwalk := walkMessage_encode (headerLen + (encodePayloadChain m.payloads).length) h hsk
    (headerLen + (encodePayloadChain m.payloads).length) (by omega)
  rw [decodeMessage, Message.encode]
  dsimp only
  rw [Nat.add_zero, decodeHeader_encode]
  dsimp only
  rw [hlen, if_neg (by omega), if_neg (by rw [List.length_append, length_encode]; simp), hdrop, List.length_append,
    length_encode, hwalk]

/-- What an accepted message says of its bytes. -/
theorem decodeMessage_spec {m : Message} (hd : decodeMessage b = .ok m) :
    decodeHeader b = .ok m.header ∧ m.header.length.toNat = b.length ∧
      walkMessage b.length b.length m.header.nextPayload (b.drop headerLen) = .ok (m.payloads, m.skHeaderOffset) := by
  unfold decodeMessage at hd
  cases hh : decodeHeader b with
  | error e => simp [hh] at hd
  | ok h =>
    simp only [hh] at hd
    split at hd
    · exact absurd hd (by simp)
    · split at hd
      · exact absurd hd (by simp)
      · next hlen =>
        rw [ne_eq, not_not] at hlen
        rw [hlen] at hd
        cases hw : walkMessage b.length b.length h.nextPayload (b.drop headerLen) with
        | error e => simp [hw] at hd
        | ok r =>
          rw [hw] at hd
          obtain rfl := Except.ok.inj hd
          exact ⟨rfl, hlen, hw⟩

theorem headerLen_le (hh : decodeHeader b = .ok h) : headerLen ≤ b.length := by
  unfold decodeHeader at hh
  split at hh
  · exact absurd hh (by simp)
  · next hb => exact Nat.not_lt.mp hb

/-- A message whose header is accepted decodes as its chain does, when that holds no Encrypted payload. -/
theorem decodeMessage_eq (hh : decodeHeader b = .ok h) (hlen : h.length.toNat = b.length)
    (hsk : payloadSK ∉ chainTypes (b.drop headerLen).length h.nextPayload (b.drop headerLen)) :
    decodeMessage b = (decodePayloadChain h.nextPayload (b.drop headerLen)).map fun ps => { header := h, payloads := ps } := by
  have hlong := headerLen_le hh
  rw [decodeMessage, hh]
  dsimp only
  rw [hlen, if_neg (by omega), if_neg (by simp),
    walkMessage_eq b.length b.length _ (by rw [List.length_drop]; omega) (Nat.le_refl _) hsk, decodePayloadChain]
  cases decodeChain (b.drop headerLen).length h.nextPayload (b.drop headerLen) <;> rfl

/-- Re-encoding an accepted message without an Encrypted payload. -/
theorem encode_of_decodeMessage {m : Message} (hd : decodeMessage b = .ok m) (hsk : ∀ p ∈ m.payloads, p.type ≠ payloadSK) :
    m.encode = b.take 17 ++ ([0x20] ++ ((b.drop 18).take 10 ++ clearReserved m.payloads (b.drop headerLen))) := by
  obtain ⟨hheader, hlen, hwalk⟩ := decodeMessage_spec hd
  obtain ⟨hfirst, hchain, henc⟩ := encode_of_decodeChain (decodeChain_of_walk hwalk hsk)
  have hlong := headerLen_le hheader
  have htotal : UInt32.ofNat (headerLen + (encodePayloadChain m.payloads).length + 0) = m.header.length := by
    rw [Nat.add_zero, hchain, List.length_drop, Nat.add_sub_cancel' hlong, ← hlen, UInt32.ofNat_toNat]
  rw [Message.encode]
  dsimp only
  rw [hfirst, htotal, encode_of_decodeHeader hheader, henc]
  simp only [List.append_assoc]

/-- The length of a chain of equal payloads. -/
theorem length_encodePayloadChain_replicate (n : Nat) (p : RawPayload) :
    (encodePayloadChain (List.replicate n p)).length = n * (genericPayloadHeaderLen + p.body.length) := by
  induction n with
  | zero => simp [encodePayloadChain]
  | succ n ih =>
    rw [List.replicate_succ, length_encodePayloadChain_cons, ih, Nat.succ_mul]
    omega

end MessageAux

open MessagesAux MessageAux

/-- The message codec. A message of payloads with a type and a body of at most 65531 bytes each, an Encrypted payload only in last
place, decodes to itself with the version, next payload and length the encoder writes, when that length fits 32 bits. On a chain
without an Encrypted payload `DecodeMessage` does what `decodePayloadChain` does. Re-encoding an accepted message without one gives
its bytes, the version byte and the reserved bits apart. -/
theorem message_codec :
    (∀ m : Message, (∀ p ∈ m.payloads, p.type ≠ payloadNone ∧ p.body.length ≤ 65531) →
      (∀ p ∈ m.payloads.dropLast, p.type ≠ payloadSK) →
      headerLen + (encodePayloadChain m.payloads).length < 2 ^ 32 →
      decodeMessage m.encode = .ok {
        header := { m.header with
          nextPayload := firstType m.payloads, majorVersion := 2, minorVersion := 0
          length := UInt32.ofNat (headerLen + (encodePayloadChain m.payloads).length) }
        payloads := m.payloads
        skHeaderOffset := skOffset (headerLen + (encodePayloadChain m.payloads).length) m.payloads }) ∧
    (∀ (b : List UInt8) (h : Header), decodeHeader b = .ok h → h.length.toNat = b.length →
      payloadSK ∉ chainTypes (b.drop headerLen).length h.nextPayload (b.drop headerLen) →
      decodeMessage b =
        (decodePayloadChain h.nextPayload (b.drop headerLen)).map fun ps => { header := h, payloads := ps }) ∧
    (∀ (b : List UInt8) (m : Message), decodeMessage b = .ok m → (∀ p ∈ m.payloads, p.type ≠ payloadSK) →
      m.encode = b.take 17 ++ ([0x20] ++ ((b.drop 18).take 10 ++ clearReserved m.payloads (b.drop headerLen)))) :=
  ⟨fun m h hsk hfits => decodeMessage_encode m h hsk hfits, fun _ _ hh hlen hsk => decodeMessage_eq hh hlen hsk,
    fun _ _ hd hsk => encode_of_decodeMessage hd hsk⟩

/-- 65537 payloads of the longest body: with the header 27 bytes more than 32 bits count. -/
def longMessage : Message := { header := {}, payloads := List.replicate 65537 ⟨33, false, List.replicate 65531 0⟩ }

/-- The length of the message wraps, and it does not decode. -/
theorem long_message_refused :
    (∀ p ∈ longMessage.payloads, p.type ≠ payloadNone ∧ p.body.length ≤ 65531) ∧
      (∀ p ∈ longMessage.payloads, p.type ≠ payloadSK) ∧ decodeMessage longMessage.encode = .error (.lengthBelowHeader 27) := by
  -- over any payload of that size: evaluating the bytes themselves is slow
  have hany : ∀ p : RawPayload, p.body.length = 65531 → (encodePayloadChain (List.replicate 65537 p)).length = 4294967295 := by
    intro p hp
    rw [length_encodePayloadChain_replicate, hp, genericPayloadHeaderLen]
  have hlen : (encodePayloadChain longMessage.payloads).length = 4294967295 := hany _ List.length_replicate
  have hmem : ∀ p ∈ longMessage.payloads, p = ⟨33, false, List.replicate 65531 0⟩ := fun p hp =>
    List.eq_of_mem_replicate hp
  refine ⟨fun p hp => ?_, fun p hp => ?_, ?_⟩
  · rw [hmem p hp]
    exact ⟨by decide, List.length_replicate.le⟩
  · rw [hmem p hp]
    decide
  · rw [Message.encode, decodeMessage]
    dsimp only
    rw [decodeHeader_encode, hlen]
    rfl

/-- A Notify payload behind the header of an INFORMATIONAL request, then an Encrypted payload. -/
def notifyMessage : Message :=
  { header := { spiInitiator := 1, spiResponder := 2, exchangeType := 37, flags := 8, messageID := 3 }
    payloads := [⟨41, true, [1, 2, 3]⟩, ⟨payloadSK, false, [9, 9]⟩] }

/-- The message decodes to itself, its Encrypted payload at offset 35. -/
theorem message_codec_notify :
    ∃ m, decodeMessage notifyMessage.encode = .ok m ∧ m.payloads = notifyMessage.payloads ∧ m.skHeaderOffset = 35 ∧
      m.header.messageID = 3 := by
  have h := message_codec.1 notifyMessage (by decide) (by decide) (by decide)
  exact ⟨_, h, rfl, by decide, rfl⟩

end RanetLite.Ike
