import RanetLite.Netip

/-!
# Babel TLVs

`internal/babel/const.go` and `tlv.go`: the framing of packets and sub-TLVs. The source's byte slices are lists here; a
decoding error keeps the text the source gives it.
-/

namespace RanetLite.Babel

open Bytes

/-- `Magic`, `Version` and the header length. -/
def magic : UInt8 := 42
def version : UInt8 := 2
def headerLen : Nat := 4

/-- TLV types, RFC 8966 section 4.6. -/
def tlvPad1 : UInt8 := 0
def tlvPadN : UInt8 := 1
def tlvAckReq : UInt8 := 2
def tlvAck : UInt8 := 3
def tlvHello : UInt8 := 4
def tlvIHU : UInt8 := 5
def tlvRouterID : UInt8 := 6
def tlvNextHop : UInt8 := 7
def tlvUpdate : UInt8 := 8
def tlvRouteRequest : UInt8 := 9
def tlvSeqnoRequest : UInt8 := 10

/-- Sub-TLV types. -/
def subTLVTimestamp : UInt8 := 3
def subTLVSourcePrefix : UInt8 := 128

/-- Address encodings, RFC 8966 section 4.1.4 and RFC 9229. -/
def aeWildcard : UInt8 := 0
def aeIPv4 : UInt8 := 1
def aeIPv6 : UInt8 := 2
def aeIPv6LinkLocal : UInt8 := 3
def aeIPv4ViaIPv6 : UInt8 := 4

/-- `MetricInfinity`: unreachable, a retraction. -/
def metricInfinity : UInt16 := 0xffff

/-- A router id, eight bytes read as one word. -/
abbrev RouterID := BitVec 64

/-- `RawTLV`: a type and a body, without the two header bytes. -/
structure RawTLV where
  type : UInt8
  body : List UInt8
deriving DecidableEq, Repr

/-- `SubTLV`. -/
structure SubTLV where
  type : UInt8
  body : List UInt8
deriving DecidableEq, Repr

/-- Why a run of frames does not decode. -/
inductive FrameError where
  | truncatedHeader
  | exceedsEnclosing (type : UInt8) (length : Nat)
deriving DecidableEq, Repr

/-- The text the source gives the error. -/
def FrameError.text : FrameError → String
  | truncatedHeader => "babel: truncated TLV header"
  | exceedsEnclosing t length =>
    s!"babel: TLV type {t.toNat} length {length} exceeds enclosing data"

/-- The loop of `decodeTLVFrames`; every round consumes at least one byte, so a fuel of the length is enough. -/
def decodeFrames : Nat → List UInt8 → Except FrameError (List (UInt8 × List UInt8))
  | 0, _ => .ok []
  | _, [] => .ok []
  | fuel + 1, t :: rest =>
    if t = tlvPad1 then decodeFrames fuel rest
    else match rest with
      | [] => .error .truncatedHeader
      | len :: data =>
        if data.length < len.toNat then .error (.exceedsEnclosing t len.toNat)
        else (decodeFrames fuel (data.drop len.toNat)).map fun frames =>
          if t = tlvPadN then frames else (t, data.take len.toNat) :: frames

/-- `decodeTLVFrames`. -/
def decodeTLVFrames (body : List UInt8) : Except FrameError (List (UInt8 × List UInt8)) :=
  decodeFrames body.length body

/-- One TLV on the wire; `Pad1` is a single byte. -/
def encodeTLV (t : RawTLV) : List UInt8 :=
  if t.type = tlvPad1 then [tlvPad1] else t.type :: UInt8.ofNat t.body.length :: t.body

/-- `EncodePacket`: the header and the TLVs in order. -/
def encodePacket (tlvs : List RawTLV) : List UInt8 :=
  let body := tlvs.flatMap encodeTLV
  [magic, version] ++ toBytes (BitVec.ofNat 16 body.length) ++ body

/-- Why a packet does not decode. -/
inductive PacketError where
  | short (length : Nat)
  | badMagic (magic : UInt8)
  | unsupportedVersion (version : UInt8)
  | bodyExceedsPacket (bodyLen : Nat)
  | frame (err : FrameError)
deriving DecidableEq, Repr

/-- The text the source gives the error. -/
def PacketError.text : PacketError → String
  | short length => s!"babel: short packet ({length} bytes)"
  | badMagic m => s!"babel: bad magic {m.toNat}"
  | unsupportedVersion v => s!"babel: unsupported version {v.toNat}"
  | bodyExceedsPacket n => s!"babel: body length {n} exceeds packet size"
  | frame err => err.text

/-- `DecodePacket`. Bytes past the body length are not read. -/
def decodePacket (b : List UInt8) : Except PacketError (List RawTLV) :=
  if b.length < headerLen then .error (.short b.length)
  else if b.getD 0 0 ≠ magic then .error (.badMagic (b.getD 0 0))
  else if b.getD 1 0 ≠ version then .error (.unsupportedVersion (b.getD 1 0))
  else
    let bodyLen := (ofBytes 16 ((b.drop 2).take 2)).toNat
    if b.length < headerLen + bodyLen then .error (.bodyExceedsPacket bodyLen)
    else match decodeTLVFrames ((b.drop headerLen).take bodyLen) with
      | .error e => .error (.frame e)
      | .ok frames => .ok (frames.map fun f => ⟨f.1, f.2⟩)

/-- `encodeSubTLVs`. -/
def encodeSubTLVs (subs : List SubTLV) : List UInt8 :=
  subs.flatMap fun s => s.type :: UInt8.ofNat s.body.length :: s.body

/-- `decodeSubTLVs`. -/
def decodeSubTLVs (b : List UInt8) : Except FrameError (List SubTLV) :=
  (decodeTLVFrames b).map fun frames => frames.map fun f => ⟨f.1, f.2⟩

/-- `decodeOptionalSubTLVs` without its error text, which no caller reads: `none` when the bytes do not frame or a mandatory
sub-TLV is among them. -/
def decodeOptionalSubTLVs (b : List UInt8) : Option (List SubTLV) :=
  match decodeSubTLVs b with
  | .error _ => none
  | .ok subs => if subs.any (fun s => 128 ≤ s.type) then none else some subs

/-- `findSubTLV`. -/
def findSubTLV (subs : List SubTLV) (t : UInt8) : Option (List UInt8) :=
  (subs.find? (fun s => s.type = t)).map (·.body)

/-- `decodeAddress`: a full-length address under an encoding; a link-local one is completed with `fe80::/64`. -/
def decodeAddress (ae : UInt8) (body : List UInt8) : Option (List UInt8) :=
  if ae = aeIPv4 then if body.length < 4 then none else some (body.take 4)
  else if ae = aeIPv6 then if body.length < 16 then none else some (body.take 16)
  else if ae = aeIPv6LinkLocal then
    if body.length < 8 then none else some ([0xfe, 0x80] ++ List.replicate 6 0 ++ body.take 8)
  else none

/-- `binary.BigEndian.Uint16` of two bytes at an offset. -/
def uint16At (body : List UInt8) (i : Nat) : UInt16 := ⟨ofBytes 16 ((body.drop i).take 2)⟩

/-- `binary.BigEndian.Uint32` of four bytes at an offset. -/
def uint32At (body : List UInt8) (i : Nat) : UInt32 := ⟨ofBytes 32 ((body.drop i).take 4)⟩

/-- `binary.BigEndian.PutUint16`. -/
def putUint16 (x : UInt16) : List UInt8 := toBytes x.toBitVec

/-- `binary.BigEndian.PutUint32`. -/
def putUint32 (x : UInt32) : List UInt8 := toBytes x.toBitVec

end RanetLite.Babel
