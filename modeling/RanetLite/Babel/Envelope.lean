import RanetLite.Babel.Receive
import RanetLite.Lib.OnesComplement

/-!
# The envelope of a Babel packet

`internal/babel/rawpacket.go`: the IPv6 and UDP headers around a Babel payload, the filter in front of the parser, and `Receive` of
`speaker.go` from the raw packet on.
-/

namespace RanetLite.Babel

open Netip Bytes OnesComplement

def port : UInt16 := 6696
def nextHeaderUDP : UInt8 := 17
def ipv6HeaderLen : Nat := 40
def udpHeaderLen : Nat := 8
def babelHopLimit : UInt8 := 1

/-- `udpChecksum`. -/
def udpChecksum (src dst : Addr) (udp : List UInt8) : UInt16 :=
  let sum := addBytes (addBytes 0 (toBytes src.as16)) (toBytes dst.as16)
  let sum := addBytes sum (putUint32 (UInt32.ofNat udp.length))
  let sum := addBytes sum [0, 0, 0, nextHeaderUDP]
  let sum := addBytes sum udp
  let cs := ~~~(foldCarries 2 sum).toUInt16
  if cs = 0 then 0xffff else cs

/-- `copy` into a fresh slice of sixteen bytes. -/
def copy16 (bs : List UInt8) : List UInt8 := bs.take 16 ++ List.replicate (16 - bs.length) 0

/-- The UDP header and the payload, under a checksum. -/
def udpSegment (payload : List UInt8) (checksum : UInt16) : List UInt8 :=
  putUint16 port ++ (putUint16 port ++ (putUint16 (UInt16.ofNat (udpHeaderLen + payload.length)) ++ (putUint16 checksum ++ payload)))

/-- `buildPacket`. The checksum is taken over the segment while its own field is still zero. -/
def buildPacket (src dst : Addr) (payload : List UInt8) : List UInt8 :=
  [0x60, 0, 0, 0] ++ (putUint16 (UInt16.ofNat (udpHeaderLen + payload.length)) ++ ([nextHeaderUDP, babelHopLimit] ++
    (copy16 src.asSlice ++ (copy16 dst.asSlice ++ udpSegment payload (udpChecksum src dst (udpSegment payload 0))))))

/-- `isBabelPacket`. -/
def isBabelPacket (raw : List UInt8) : Bool :=
  ipv6HeaderLen + udpHeaderLen ≤ raw.length ∧ raw.getD 0 0 >>> 4 = 6 ∧ raw.getD 6 0 = nextHeaderUDP ∧ uint16At raw 42 = port

/-- Why `parsePacket` refuses a packet. -/
inductive EnvelopeError where
  | tooShort
  | notIPv6
  | notUDP
  | payloadLength
  | badSource
  | notLinkLocal
  | notAddressed
  | sourcePort
  | destinationPort
  | udpLength
  | missingChecksum
  | invalidChecksum
deriving DecidableEq, Repr

/-- The message of each refusal. -/
def EnvelopeError.text : EnvelopeError → String
  | .tooShort => "babel: packet too short"
  | .notIPv6 => "babel: not IPv6"
  | .notUDP => "babel: not UDP"
  | .payloadLength => "babel: invalid IPv6 payload length"
  | .badSource => "babel: bad source address"
  | .notLinkLocal => "babel: source is not IPv6 link-local"
  | .notAddressed => "babel: packet is not addressed to this speaker"
  | .sourcePort => "babel: wrong UDP source port"
  | .destinationPort => "babel: not addressed to the babel port"
  | .udpLength => "babel: invalid UDP length"
  | .missingChecksum => "babel: missing IPv6 UDP checksum"
  | .invalidChecksum => "babel: invalid UDP checksum"

/-- The part of `parsePacket` behind the addresses. -/
def parseUDP (src dst : Addr) (payloadLen : Nat) (udp : List UInt8) : Except EnvelopeError (List UInt8) :=
  if uint16At udp 0 ≠ port then .error .sourcePort
  else if uint16At udp 2 ≠ port then .error .destinationPort
  else if (uint16At udp 4).toNat ≠ payloadLen then .error .udpLength
  else if uint16At udp 6 = 0 then .error .missingChecksum
  else if udpChecksum src dst udp ≠ 0xffff then .error .invalidChecksum
  else .ok ((udp.take (uint16At udp 4).toNat).drop udpHeaderLen)

/-- `parsePacket`. -/
def parsePacket (raw : List UInt8) (localAddr : Addr) : Except EnvelopeError (Addr × List UInt8) :=
  if raw.length < ipv6HeaderLen + udpHeaderLen then .error .tooShort
  else if raw.getD 0 0 >>> 4 ≠ 6 then .error .notIPv6
  else if raw.getD 6 0 ≠ nextHeaderUDP then .error .notUDP
  else if (uint16At raw 4).toNat < udpHeaderLen ∨ ipv6HeaderLen + (uint16At raw 4).toNat ≠ raw.length then .error .payloadLength
  else match addrFromSlice ((raw.drop 8).take 16) with
    | none => .error .badSource
    | some src =>
      if !src.is6 || !src.isLinkLocalUnicast then .error .notLinkLocal
      else match addrFromSlice ((raw.drop 24).take 16) with
        | none => .error .notAddressed
        | some dst =>
          if dst ≠ multicastGroup ∧ dst ≠ localAddr then .error .notAddressed
          else (parseUDP src dst (uint16At raw 4).toNat (raw.drop ipv6HeaderLen)).map fun payload => (src, payload)

/-- `Receive`: whether the packet was taken off the path of ordinary traffic, and what it did. -/
def Speaker.receiveRaw (s : Speaker) (peer : Peer) (raw : List UInt8) (now : Time) (rs : List Reservation) :
    Bool × Speaker × List ReservedPacket :=
  if !isBabelPacket raw then (false, s, [])
  else match parsePacket raw s.cfg.linkLocal with
    | .error _ => (false, s, [])
    | .ok (src, payload) => (true, s.receive peer src payload now rs)

end RanetLite.Babel
