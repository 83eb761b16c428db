import RanetLite.Ike.Message

/-!
# Encrypted messages

`ike/sk.go` and the AEAD parameters of `ike/crypto.go`. An AEAD is a pair of functions that opens what it sealed under the same nonce
and associated data, and adds a tag of sixteen bytes. Where the initialization vector comes from is left to the caller.
-/

namespace RanetLite.Ike

open Bytes

/-- The transforms `aeadParams` knows. -/
def encrAESGCM16 : UInt16 := 20
def encrChaCha20Poly1305 : UInt16 := 28

/-- The part of `SASuite` encryption reads. -/
structure SASuite where
  encrID : UInt16
  encrKeyBits : UInt16
deriving DecidableEq, Repr

/-- `AEADParams`. -/
structure AEADParams where
  keyLen : Nat
  saltLen : Nat
  ivLen : Nat
  icvLen : Nat
deriving DecidableEq, Repr

/-- The tag both transforms add. -/
def icvLen : Nat := 16

/-- A `cipher.AEAD`. -/
structure Aead where
  sealData : (nonce plain aad : List UInt8) → List UInt8
  openData : (nonce cipher aad : List UInt8) → Option (List UInt8)
  /-- The tag is all it adds. -/
  length_sealData : ∀ nonce plain aad, (sealData nonce plain aad).length = plain.length + icvLen
  /-- It opens what it sealed. -/
  openData_sealData : ∀ nonce plain aad, openData nonce (sealData nonce plain aad) aad = some plain

/-- Why a message is not encrypted or decrypted. -/
inductive SkError where
  | aesKeyLength (bits : Nat)
  | chachaKeyLength (bits : Nat)
  | unsupportedTransform (id : Nat)
  | keyLength (length want : Nat)
  | ivLength (length : Nat)
  | noSK
  | tooShort
  | authentication
  | emptyPlaintext
  | invalidPadding
  | chain (err : MessageError)
deriving DecidableEq, Repr

/-- The text of the error; that of a failed authentication goes on with the AEAD's own. -/
def SkError.text : SkError → String
  | aesKeyLength bits => s!"ike: invalid AES-GCM key length {bits} bits"
  | chachaKeyLength bits => s!"ike: invalid ChaCha20-Poly1305 key length {bits} bits"
  | unsupportedTransform id => s!"ike: unsupported encryption transform {id}"
  | keyLength length want => s!"ike: key length {length} does not match suite (want {want})"
  | ivLength length => s!"ike: IV length {length} does not match suite"
  | noSK => "ike: message has no SK payload"
  | tooShort => "ike: SK payload too short"
  | authentication => "ike: SK payload authentication failed"
  | emptyPlaintext => "ike: empty SK plaintext"
  | invalidPadding => "ike: invalid SK padding"
  | chain err => err.text

/-- `aeadParams`. -/
def aeadParams (encrID keyLenBits : UInt16) : Except SkError AEADParams :=
  if encrID = encrAESGCM16 then
    let kl := keyLenBits.toNat / 8
    if kl ≠ 16 ∧ kl ≠ 24 ∧ kl ≠ 32 then .error (.aesKeyLength keyLenBits.toNat)
    else .ok { keyLen := kl, saltLen := 4, ivLen := 8, icvLen := icvLen }
  else if encrID = encrChaCha20Poly1305 then
    if keyLenBits ≠ 0 ∧ keyLenBits ≠ 256 then .error (.chachaKeyLength keyLenBits.toNat)
    else .ok { keyLen := 32, saltLen := 4, ivLen := 8, icvLen := icvLen }
  else .error (.unsupportedTransform encrID.toNat)

/-- What the sender authenticates: the header with its final length, the cleartext payloads and the Encrypted payload's own header. -/
def sentAAD (ap : AEADParams) (hdr : Header) (cleartext : List RawPayload) (innerFirst : UInt8) (plain : List UInt8) :
    List UInt8 :=
  let cleartextBytes := encodePayloadChain cleartext
  let ciphertextLen := plain.length + ap.icvLen
  let skHdr := genericHeader innerFirst false (ap.ivLen + ciphertextLen)
  let h : Header := { hdr with
    nextPayload := if cleartext.isEmpty then payloadSK else firstType cleartext
    length := UInt32.ofNat (headerLen + cleartextBytes.length + skHdr.length + ap.ivLen + ciphertextLen) }
  h.encode ++ (cleartextBytes ++ skHdr)

/-- The plaintext of inner payloads: their chain, no padding, and the octet that says so. -/
def innerPlaintext (inner : List RawPayload) : List UInt8 := encodePayloadChain inner ++ [0]

section

variable (newAEAD : UInt16 → List UInt8 → Aead)

/-- `encryptMessagePlaintextIV`. -/
def encryptMessagePlaintextIV (suite : SASuite) (key : List UInt8) (hdr : Header) (cleartext : List RawPayload)
    (innerFirst : UInt8) (plain iv : List UInt8) : Except SkError (List UInt8) :=
  match aeadParams suite.encrID suite.encrKeyBits with
  | .error e => .error e
  | .ok ap =>
    if key.length ≠ ap.keyLen + ap.saltLen then .error (.keyLength key.length (ap.keyLen + ap.saltLen))
    else
      let aead := newAEAD suite.encrID (key.take ap.keyLen)
      let salt := key.drop ap.keyLen
      if iv.length ≠ ap.ivLen then .error (.ivLength iv.length)
      else
        let aad := sentAAD ap hdr cleartext innerFirst plain
        .ok (aad ++ (iv ++ aead.sealData (salt ++ iv) plain aad))

/-- `encryptMessageIV`. -/
def encryptMessageIV (suite : SASuite) (key : List UInt8) (hdr : Header) (cleartext inner : List RawPayload)
    (iv : List UInt8) : Except SkError (List UInt8) :=
  encryptMessagePlaintextIV newAEAD suite key hdr cleartext (firstType inner) (innerPlaintext inner) iv

/-- What the receiver authenticates: the raw message up to the end of the Encrypted payload's header. -/
def receivedAAD (raw : List UInt8) (m : Message) : List UInt8 := raw.take (m.skHeaderOffset + genericPayloadHeaderLen)

/-- `decryptMessagePlaintext`: the type of the first inner payload, and the plaintext. -/
def decryptMessagePlaintext (suite : SASuite) (key raw : List UInt8) (m : Message) : Except SkError (UInt8 × List UInt8) :=
  match m.find payloadSK with
  | none => .error .noSK
  | some sk =>
    match aeadParams suite.encrID suite.encrKeyBits with
    | .error e => .error e
    | .ok ap =>
      if key.length ≠ ap.keyLen + ap.saltLen then .error (.keyLength key.length (ap.keyLen + ap.saltLen))
      else if sk.body.length < ap.ivLen + ap.icvLen then .error .tooShort
      else
        let aead := newAEAD suite.encrID (key.take ap.keyLen)
        let salt := key.drop ap.keyLen
        let iv := sk.body.take ap.ivLen
        match aead.openData (salt ++ iv) (sk.body.drop ap.ivLen) (receivedAAD raw m) with
        | none => .error .authentication
        | some plain => .ok (raw.getD m.skHeaderOffset 0, plain)

/-- `decodeMessagePlaintext`: the chain in front of the padding and its length octet. -/
def decodeMessagePlaintext (innerFirst : UInt8) (plain : List UInt8) : Except SkError (List RawPayload) :=
  match plain.getLast? with
  | none => .error .emptyPlaintext
  | some padLen =>
    if plain.length < padLen.toNat + 1 then .error .invalidPadding
    else match decodePayloadChain innerFirst (plain.take (plain.length - 1 - padLen.toNat)) with
      | .error e => .error (.chain e)
      | .ok inner => .ok inner

/-- `DecryptMessage`. -/
def decryptMessage (suite : SASuite) (key raw : List UInt8) (m : Message) : Except SkError (List RawPayload) :=
  match decryptMessagePlaintext newAEAD suite key raw m with
  | .error e => .error e
  | .ok (innerFirst, plain) => decodeMessagePlaintext innerFirst plain

end

end RanetLite.Ike
