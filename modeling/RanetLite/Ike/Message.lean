import RanetLite.Lib.Bytes

/-!
# IKE messages

`ike/header.go` and `ike/payload.go`: the message header, the chain of payloads behind it and the two functions that walk it. Byte
slices are lists. A chain is walked at least four bytes at a time, so a fuel of the length is enough; the walkers keep the texts of
their errors.
-/

namespace RanetLite.Ike

open Bytes

/-- `HeaderLen` and `genericPayloadHeaderLen`. -/
def headerLen : Nat := 28
def genericPayloadHeaderLen : Nat := 4

/-- The two payload types the chain itself knows: the end, and the Encrypted payload. -/
def payloadNone : UInt8 := 0
def payloadSK : UInt8 := 46

/-- `ProtocolID`: what a Delete, a Notify or a proposal is about. -/
def protoESP : UInt8 := 3

/-- `Header`. The encoder writes its own version, next payload and length. -/
structure Header where
  spiInitiator : UInt64 := 0
  spiResponder : UInt64 := 0
  nextPayload : UInt8 := 0
  majorVersion : UInt8 := 0
  minorVersion : UInt8 := 0
  exchangeType : UInt8 := 0
  flags : UInt8 := 0
  messageID : UInt32 := 0
  length : UInt32 := 0
deriving DecidableEq, Repr

/-- `RawPayload`: a type, the critical flag and the bytes behind the generic header. -/
structure RawPayload where
  type : UInt8
  critical : Bool := false
  body : List UInt8
deriving DecidableEq, Repr

/-- `Message`. `skHeaderOffset` is where the Encrypted payload's generic header starts, zero when there is none. -/
structure Message where
  header : Header
  payloads : List RawPayload
  skHeaderOffset : Nat := 0
deriving DecidableEq, Repr

/-- Why a message does not decode. -/
inductive MessageError where
  | shortHeader (size : Nat)
  | lengthBelowHeader (length : Nat)
  | lengthMismatch (length size : Nat)
  | truncatedHeader
  | invalidLength (length : Nat)
  | trailingSK (rest : Nat)
  | trailingChain (rest : Nat)
deriving DecidableEq, Repr

/-- The text of the error. -/
def MessageError.text : MessageError → String
  | shortHeader size => s!"ike: short header ({size} bytes)"
  | lengthBelowHeader length => s!"ike: header length {length} is smaller than header size"
  | lengthMismatch length size => s!"ike: header length {length} does not match packet size {size}"
  | truncatedHeader => "ike: truncated payload header"
  | invalidLength length => s!"ike: invalid payload length {length}"
  | trailingSK rest => s!"ike: {rest} trailing bytes after SK payload"
  | trailingChain rest => s!"ike: {rest} trailing bytes after payload chain"

/-- `Header.encode`: version two, whatever the header says. -/
def Header.encode (h : Header) : List UInt8 :=
  toBytes h.spiInitiator.toBitVec ++ (toBytes h.spiResponder.toBitVec ++
    ([h.nextPayload, 0x20, h.exchangeType, h.flags] ++ (toBytes h.messageID.toBitVec ++ (toBytes h.length.toBitVec ++ []))))

/-- `decodeHeader`. -/
def decodeHeader (b : List UInt8) : Except MessageError Header :=
  if b.length < headerLen then .error (.shortHeader b.length)
  else .ok {
    spiInitiator := ⟨wordAt 64 b 0⟩, spiResponder := ⟨wordAt 64 b 8⟩, nextPayload := b.getD 16 0
    majorVersion := b.getD 17 0 >>> 4, minorVersion := b.getD 17 0 &&& 0x0f, exchangeType := b.getD 18 0
    flags := b.getD 19 0, messageID := ⟨wordAt 32 b 20⟩, length := ⟨wordAt 32 b 24⟩ }

/-- The type a list of payloads starts with. -/
def firstType : List RawPayload → UInt8
  | [] => payloadNone
  | p :: _ => p.type

/-- The generic header of a payload: what follows, the critical bit, and the length with the header itself. -/
def genericHeader (next : UInt8) (critical : Bool) (length : Nat) : List UInt8 :=
  [next, if critical then 0x80 else 0] ++ toBytes (BitVec.ofNat 16 (genericPayloadHeaderLen + length))

/-- `encodePayloadChain`: each payload names the type of the next one, the last one none. -/
def encodePayloadChain : List RawPayload → List UInt8
  | [] => []
  | p :: rest => genericHeader (firstType rest) p.critical p.body.length ++ (p.body ++ encodePayloadChain rest)

/-- `Message.encode`. -/
def Message.encode (m : Message) (reserveTrailer : Nat := 0) : List UInt8 :=
  let body := encodePayloadChain m.payloads
  let h : Header := { m.header with
    nextPayload := firstType m.payloads, length := UInt32.ofNat (headerLen + body.length + reserveTrailer) }
  h.encode ++ body

/-- One payload of a chain: the payload, and the type and the bytes that follow it. -/
def readPayload (next : UInt8) (rest : List UInt8) : Except MessageError (RawPayload × UInt8 × List UInt8) :=
  if rest.length < genericPayloadHeaderLen then .error .truncatedHeader
  else
    let plLen := (wordAt 16 rest 2).toNat
    if plLen < genericPayloadHeaderLen ∨ rest.length < plLen then .error (.invalidLength plLen)
    else .ok (⟨next, rest.getD 1 0 &&& 0x80 != 0, (rest.take plLen).drop genericPayloadHeaderLen⟩, rest.getD 0 0,
      rest.drop plLen)

/-- The loop of `decodePayloadChain`. -/
def decodeChain : Nat → UInt8 → List UInt8 → Except MessageError (List RawPayload)
  | fuel, next, rest =>
    if next = payloadNone then if rest.length ≠ 0 then .error (.trailingChain rest.length) else .ok []
    else match readPayload next rest, fuel with
      | .error e, _ => .error e
      | .ok _, 0 => .error .truncatedHeader
      | .ok (p, following, rest'), fuel + 1 => (decodeChain fuel following rest').map fun ps => p :: ps

/-- `decodePayloadChain`. -/
def decodePayloadChain (first : UInt8) (b : List UInt8) : Except MessageError (List RawPayload) :=
  decodeChain b.length first b

/-- The loop of `DecodeMessage` over the bytes of a message of the given length: it ends at an Encrypted payload, whose next
payload is the first of those inside, and says where its generic header starts. -/
def walkMessage (length : Nat) : Nat → UInt8 → List UInt8 → Except MessageError (List RawPayload × Nat)
  | fuel, next, rest =>
    if next = payloadNone then if rest.length ≠ 0 then .error (.trailingChain rest.length) else .ok ([], 0)
    else match readPayload next rest, fuel with
      | .error e, _ => .error e
      | .ok _, 0 => .error .truncatedHeader
      | .ok (p, following, rest'), fuel + 1 =>
        if p.type = payloadSK then
          if rest'.length ≠ 0 then .error (.trailingSK rest'.length) else .ok ([p], length - rest.length)
        else (walkMessage length fuel following rest').map fun r => (p :: r.1, r.2)

/-- `DecodeMessage`. -/
def decodeMessage (b : List UInt8) : Except MessageError Message :=
  match decodeHeader b with
  | .error e => .error e
  | .ok h =>
    if h.length.toNat < headerLen then .error (.lengthBelowHeader h.length.toNat)
    else if h.length.toNat ≠ b.length then .error (.lengthMismatch h.length.toNat b.length)
    else match walkMessage h.length.toNat b.length h.nextPayload (b.drop headerLen) with
      | .error e => .error e
      | .ok (payloads, offset) => .ok { header := h, payloads := payloads, skHeaderOffset := offset }

/-- The types a walk along a chain meets. -/
def chainTypes : Nat → UInt8 → List UInt8 → List UInt8
  | fuel, next, rest =>
    if next = payloadNone then []
    else next :: match readPayload next rest, fuel with
      | .ok (_, following, rest'), fuel + 1 => chainTypes fuel following rest'
      | _, _ => []

/-- The bytes of a chain with the reserved bits of its payloads cleared. -/
def clearReserved : List RawPayload → List UInt8 → List UInt8
  | [], bs => bs
  | p :: rest, bs => bs.take 1 ++ ([bs.getD 1 0 &&& 0x80] ++ ((bs.drop 2).take (2 + p.body.length) ++
      clearReserved rest (bs.drop (genericPayloadHeaderLen + p.body.length))))

/-- `Message.find`. -/
def Message.find (m : Message) (t : UInt8) : Option RawPayload := m.payloads.find? fun p => p.type = t

end RanetLite.Ike
