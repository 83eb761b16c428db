import RanetLite.Ike.Sk
import RanetLite.Theorems.Message

/-!
# Encrypted messages round trip

A message with no cleartext payloads decodes, its receiver authenticates the bytes its sender did, and decryption gives the inner
payloads. One with cleartext payloads does not decode: the last of them names no next payload, so the Encrypted payload behind it is
taken for trailing bytes.
-/

namespace RanetLite.Ike

open Bytes

/-- The sealed message decodes, decrypts to the inner payloads, and is authenticated over the bytes that were sealed with it. -/
def RoundTrips (newAEAD : UInt16 → List UInt8 → Aead) (suite : SASuite) (ap : AEADParams) (key : List UInt8) (hdr : Header)
    (cleartext inner : List RawPayload) (out : List UInt8) : Prop :=
  ∃ m, decodeMessage out = .ok m ∧ decryptMessage newAEAD suite key out m = .ok inner ∧
    receivedAAD out m = sentAAD ap hdr cleartext (firstType inner) (innerPlaintext inner)

namespace EncryptedAux

open MessagesAux MessageAux

theorem aeadParams_lengths {suite : SASuite} {ap : AEADParams} (h : aeadParams suite.encrID suite.encrKeyBits = .ok ap) :
    ap.icvLen = icvLen ∧ ap.ivLen = 8 := by
  unfold aeadParams at h
  split at h
  · dsimp only at h
    split at h
    · exact absurd h (by simp)
    · rw [← Except.ok.inj h]
      exact ⟨rfl, rfl⟩
  · split at h
    · split at h
      · exact absurd h (by simp)
      · rw [← Except.ok.inj h]
        exact ⟨rfl, rfl⟩
    · exact absurd h (by simp)

/-- A chain of cleartext payloads with bytes behind it is refused: it ends where its last payload does. -/
theorem walkMessage_trailing (length : Nat) {ps : List RawPayload} (hlen : ∀ p ∈ ps, p.body.length ≤ 65531)
    (hsk : ∀ p ∈ ps, p.type ≠ payloadSK) {tail : List UInt8} (htail : tail ≠ []) (fuel : Nat)
    (hfuel : (encodePayloadChain ps ++ tail).length ≤ fuel) :
    ∃ e, walkMessage length fuel (firstType ps) (encodePayloadChain ps ++ tail) = .error e := by
  induction ps generalizing fuel with
  | nil =>
    refine ⟨.trailingChain tail.length, ?_⟩
    unfold walkMessage
    rw [firstType, if_pos rfl, encodePayloadChain, List.nil_append, if_pos (by simpa using htail)]
  | cons p rest ih =>
    have hp := hlen p List.mem_cons_self
    have hpsk := hsk p List.mem_cons_self
    have hlength := length_encodePayloadChain_cons p rest
    have htotal : 0 < (encodePayloadChain (p :: rest) ++ tail).length := by
      rw [List.length_append, hlength, genericPayloadHeaderLen]
      omega
    unfold walkMessage
    rw [firstType]
    by_cases hnone : p.type = payloadNone
    · rw [if_pos hnone, if_pos (by omega)]
      exact ⟨_, rfl⟩
    · obtain ⟨fuel, rfl⟩ : ∃ n, fuel = n + 1 := ⟨fuel - 1, by omega⟩
      obtain ⟨e, he⟩ := ih (fun q hq => hlen q (List.mem_cons_of_mem _ hq)) (fun q hq => hsk q (List.mem_cons_of_mem _ hq)) fuel
        (by rw [List.length_append, hlength, genericPayloadHeaderLen] at hfuel; rw [List.length_append]; omega)
      have hchain : encodePayloadChain (p :: rest) ++ tail =
          genericHeader (firstType rest) p.critical p.body.length ++ (p.body ++ (encodePayloadChain rest ++ tail)) := by
        simp only [encodePayloadChain, List.append_assoc]
      rw [if_neg hnone, hchain, readPayload_written p hp]
      dsimp only
      rw [if_neg hpsk, he]
      exact ⟨e, rfl⟩

/-- The walk over an Encrypted payload alone. -/
theorem walkMessage_sk (length fuel : Nat) (next : UInt8) {body : List UInt8} (hlen : body.length ≤ 65531) :
    walkMessage length (fuel + 1) payloadSK (genericHeader next false body.length ++ body) =
      .ok ([⟨payloadSK, false, body⟩], length - (genericPayloadHeaderLen + body.length)) := by
  have hread := readPayload_written ⟨payloadSK, false, body⟩ hlen next []
  rw [List.append_nil] at hread
  unfold walkMessage
  rw [if_neg (by decide), hread]
  dsimp only
  rw [if_pos rfl, if_neg (by simp), List.length_append, length_genericHeader]

variable {newAEAD : UInt16 → List UInt8 → Aead} {suite : SASuite} {ap : AEADParams} {key iv : List UInt8} {hdr : Header}

/-- With cleartext payloads the message does not decode. -/
theorem not_decode_cleartext {cleartext : List RawPayload} {innerFirst : UInt8} {plain sealedBytes : List UInt8}
    (hne : cleartext ≠ []) (hlen : ∀ p ∈ cleartext, p.body.length ≤ 65531) (hsk : ∀ p ∈ cleartext, p.type ≠ payloadSK)
    {m : Message} : decodeMessage (sentAAD ap hdr cleartext innerFirst plain ++ sealedBytes) ≠ .ok m := by
  intro hd
  obtain ⟨hheader, -, hwalk⟩ := decodeMessage_spec hd
  simp only [sentAAD, List.append_assoc] at hheader hwalk
  generalize hh : (Header.mk hdr.spiInitiator _ _ _ _ _ _ _ _) = h at hheader hwalk
  have hnext : h.nextPayload = firstType cleartext := by
    rw [← hh]
    simp [hne]
  rw [decodeHeader_encode] at hheader
  rw [← Except.ok.inj hheader, List.drop_left' (length_encode h)] at hwalk
  dsimp only at hwalk
  rw [hnext] at hwalk
  have htail : genericHeader innerFirst false (ap.ivLen + (plain.length + ap.icvLen)) ++ sealedBytes ≠ [] := by
    simp [genericHeader]
  generalize genericHeader innerFirst false (ap.ivLen + (plain.length + ap.icvLen)) ++ sealedBytes = tail at hwalk htail
  obtain ⟨e, he⟩ := walkMessage_trailing (h.encode ++ (encodePayloadChain cleartext ++ tail)).length hlen hsk htail
    (h.encode ++ (encodePayloadChain cleartext ++ tail)).length (by
      simp only [List.length_append]
      omega)
  rw [hwalk] at he
  exact absurd he (by simp)

/-- Without cleartext payloads the message decodes to its Encrypted payload alone. -/
theorem decode_sealed {innerFirst : UInt8} {plain sealedBytes : List UInt8}
    (hsealed : sealedBytes.length = ap.ivLen + (plain.length + ap.icvLen))
    (hfits : genericPayloadHeaderLen + (ap.ivLen + (plain.length + ap.icvLen)) ≤ 65535) :
    ∃ h, decodeMessage (sentAAD ap hdr [] innerFirst plain ++ sealedBytes) =
      .ok { header := h, payloads := [⟨payloadSK, false, sealedBytes⟩], skHeaderOffset := headerLen } := by
  simp only [genericPayloadHeaderLen] at hfits
  simp only [sentAAD, encodePayloadChain, List.nil_append, List.append_assoc]
  generalize hh : (Header.mk hdr.spiInitiator _ _ _ _ _ _ _ _) = h
  have hnext : h.nextPayload = payloadSK := by rw [← hh]; rfl
  have hlen : h.length.toNat = headerLen + (genericPayloadHeaderLen + sealedBytes.length) := by
    rw [← hh]
    simp only [List.length_nil, length_genericHeader, headerLen, genericPayloadHeaderLen]
    rw [UInt32.toNat_ofNat_of_lt' (by simp only [UInt32.size]; omega)]
    omega
  have hsize : (h.encode ++ (genericHeader innerFirst false sealedBytes.length ++ sealedBytes)).length =
      headerLen + (genericPayloadHeaderLen + sealedBytes.length) := by
    rw [List.length_append, List.length_append, length_encode, length_genericHeader]
  obtain ⟨fuel, hfuel⟩ : ∃ n, headerLen + (genericPayloadHeaderLen + sealedBytes.length) = n + 1 :=
    ⟨27 + (genericPayloadHeaderLen + sealedBytes.length), by simp only [headerLen]; omega⟩
  refine ⟨{ h with majorVersion := 2, minorVersion := 0 }, ?_⟩
  rw [← hsealed, decodeMessage, decodeHeader_encode]
  dsimp only
  rw [hlen, if_neg (by omega), if_neg (by rw [hsize]; simp), hsize, hnext, List.drop_left' (length_encode h), hfuel,
    walkMessage_sk _ _ _ (by omega), ← hfuel, Nat.add_sub_cancel]

/-- The plaintext of inner payloads decodes to them. -/
theorem decodeMessagePlaintext_inner {inner : List RawPayload} (htype : ∀ p ∈ inner, p.type ≠ payloadNone)
    (hlen : ∀ p ∈ inner, p.body.length ≤ 65531) :
    decodeMessagePlaintext (firstType inner) (innerPlaintext inner) = .ok inner := by
  have hlast : (innerPlaintext inner).getLast? = some 0 := by simp [innerPlaintext]
  have hsize : (innerPlaintext inner).length = (encodePayloadChain inner).length + 1 := by simp [innerPlaintext]
  have htake : (innerPlaintext inner).take (encodePayloadChain inner).length = encodePayloadChain inner := by
    rw [innerPlaintext]
    exact List.take_left
  rw [decodeMessagePlaintext, hlast]
  dsimp only
  rw [hsize, if_neg (by simp), UInt8.toNat_zero, Nat.add_sub_cancel, Nat.sub_zero, htake, decodePayloadChain,
    decodeChain_encode (fun p hp => ⟨htype p hp, hlen p hp⟩) _ (Nat.le_refl _)]

theorem body_le_chain {inner : List RawPayload} {p : RawPayload} (hp : p ∈ inner) :
    p.body.length ≤ (encodePayloadChain inner).length := by
  induction inner with
  | nil => exact absurd hp (by simp)
  | cons q rest ih =>
    rw [length_encodePayloadChain_cons]
    rcases List.mem_cons.mp hp with rfl | hp
    · omega
    · have := ih hp
      omega

end EncryptedAux

open EncryptedAux MessagesAux MessageAux

/-- For every suite, key and IV of its lengths, header, cleartext payloads other than an Encrypted one and inner payloads that fit,
encryption gives a message. It round trips exactly when there are no cleartext payloads. -/
theorem encrypted_roundtrip_iff (newAEAD : UInt16 → List UInt8 → Aead) {suite : SASuite} {ap : AEADParams}
    (hap : aeadParams suite.encrID suite.encrKeyBits = .ok ap) {key iv : List UInt8}
    (hkey : key.length = ap.keyLen + ap.saltLen) (hiv : iv.length = ap.ivLen) (hdr : Header) {cleartext inner : List RawPayload}
    (hclear : ∀ p ∈ cleartext, p.type ≠ payloadSK ∧ p.body.length ≤ 65531) (hinner : ∀ p ∈ inner, p.type ≠ payloadNone)
    (hfits : genericPayloadHeaderLen + (ap.ivLen + ((innerPlaintext inner).length + ap.icvLen)) ≤ 65535) :
    ∃ out, encryptMessageIV newAEAD suite key hdr cleartext inner iv = .ok out ∧
      (RoundTrips newAEAD suite ap key hdr cleartext inner out ↔ cleartext = []) := by
  obtain ⟨hicv, -⟩ := aeadParams_lengths hap
  generalize haad : sentAAD ap hdr cleartext (firstType inner) (innerPlaintext inner) = aad
  generalize hcipher : (newAEAD suite.encrID (key.take ap.keyLen)).sealData (key.drop ap.keyLen ++ iv) (innerPlaintext inner) aad =
    cipher
  have hlength : cipher.length = (innerPlaintext inner).length + icvLen := by
    rw [← hcipher]
    exact Aead.length_sealData _ _ _ _
  refine ⟨aad ++ (iv ++ cipher), ?_, fun h => ?_, fun h => ?_⟩
  · rw [encryptMessageIV, encryptMessagePlaintextIV, hap]
    dsimp only
    rw [if_neg (by simpa using hkey), if_neg (by simpa using hiv), haad, hcipher]
  · by_contra hne
    obtain ⟨m, hd, -⟩ := h
    rw [← haad] at hd
    exact not_decode_cleartext hne (fun p hp => (hclear p hp).2) (fun p hp => (hclear p hp).1) hd
  · subst h
    have hsealed : (iv ++ cipher).length = ap.ivLen + ((innerPlaintext inner).length + ap.icvLen) := by
      rw [List.length_append, hiv, hlength, hicv]
    obtain ⟨h, hd⟩ := @decode_sealed ap hdr (firstType inner) _ _ hsealed hfits
    rw [haad] at hd
    have haadLen : aad.length = headerLen + genericPayloadHeaderLen := by
      rw [← haad]
      simp [sentAAD, encodePayloadChain]
    have hreceived : (aad ++ (iv ++ cipher)).take (headerLen + genericPayloadHeaderLen) = aad := List.take_left' haadLen
    have hfirst : (aad ++ (iv ++ cipher)).getD headerLen 0 = firstType inner := by
      rw [← haad]
      simp only [sentAAD, encodePayloadChain, List.nil_append, List.append_assoc]
      rw [List.getD_append_right _ _ _ _ (by rw [length_encode]), length_encode, Nat.sub_self]
      rfl
    refine ⟨_, hd, ?_, ?_⟩
    · have hbody : ∀ p ∈ inner, p.body.length ≤ 65531 := fun p hp => by
        have := body_le_chain hp
        simp only [innerPlaintext, List.length_append, genericPayloadHeaderLen] at hfits
        omega
      have hopen : decryptMessagePlaintext newAEAD suite key (aad ++ (iv ++ cipher))
          { header := h, payloads := [⟨payloadSK, false, iv ++ cipher⟩], skHeaderOffset := headerLen } =
          .ok (firstType inner, innerPlaintext inner) := by
        simp only [decryptMessagePlaintext, Message.find, List.find?_cons, decide_true, hap, receivedAAD, hreceived, hfirst]
        rw [if_neg (by simpa using hkey), if_neg (by rw [hsealed]; omega), List.take_left' hiv, List.drop_left' hiv,
          ← hcipher, Aead.openData_sealData]
      rw [decryptMessage, hopen]
      exact decodeMessagePlaintext_inner hinner hbody
    · rw [receivedAAD, haad]
      exact hreceived

/-- An AEAD that hides nothing and has a tag of zeros. -/
def clearAEAD : Aead where
  sealData _ plain _ := plain ++ List.replicate icvLen 0
  openData _ cipher _ := some (cipher.take (cipher.length - icvLen))
  length_sealData _ plain _ := by simp
  openData_sealData _ plain _ := by simp

/-- AES-GCM with a key of 128 bits, and a key and a salt for it. -/
def gcmSuite : SASuite := { encrID := encrAESGCM16, encrKeyBits := 128 }
def gcmParams : AEADParams := { keyLen := 16, saltLen := 4, ivLen := 8, icvLen := icvLen }
def gcmKey : List UInt8 := List.replicate 20 7

/-- An INFORMATIONAL request with one cleartext Notify and one inside: encryption gives a message that does not decode. -/
theorem cleartext_message_refused :
    ∃ out, encryptMessageIV (fun _ _ => clearAEAD) gcmSuite gcmKey { exchangeType := 37, messageID := 1 } [⟨41, false, [1]⟩]
        [⟨41, false, [2]⟩] (List.replicate 8 3) = .ok out ∧
      decodeMessage out = .error (.trailingChain 34) := by
  refine ⟨_, rfl, ?_⟩
  decide +kernel

/-- The same request without the cleartext Notify comes back as it went in. -/
theorem encrypted_roundtrip_notify :
    ∃ out, encryptMessageIV (fun _ _ => clearAEAD) gcmSuite gcmKey { exchangeType := 37, messageID := 1 } []
        [⟨41, false, [2]⟩] (List.replicate 8 3) = .ok out ∧
      RoundTrips (fun _ _ => clearAEAD) gcmSuite gcmParams gcmKey { exchangeType := 37, messageID := 1 } []
        [⟨41, false, [2]⟩] out := by
  have hap : aeadParams gcmSuite.encrID gcmSuite.encrKeyBits = .ok gcmParams := by decide
  obtain ⟨out, hout, hiff⟩ := @encrypted_roundtrip_iff (fun _ _ => clearAEAD) gcmSuite gcmParams hap gcmKey
    (List.replicate 8 3) rfl rfl { exchangeType := 37, messageID := 1 } [] [⟨41, false, [2]⟩] (by simp) (by decide) (by decide)
  exact ⟨out, hout, hiff.mpr rfl⟩

end RanetLite.Ike
