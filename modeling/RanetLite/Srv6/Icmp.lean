import RanetLite.Lib.OnesComplement
import RanetLite.Srv6.Header

/-!
# ICMPv6 errors

`srv6/icmp.go`: the two errors that answer a refused packet, Time Exceeded and Parameter Problem. No answer is `none`.
-/

namespace RanetLite.Srv6

open Bytes Netip OnesComplement

def icmpv6Next : UInt8 := 58
def icmpTimeExceeded : UInt8 := 3
def icmpHopLimitInTranst : UInt8 := 0
def icmpParameterProblem : UInt8 := 4
def icmpErroneousHeader : UInt8 := 0
def icmpHeaderLen : Nat := 8
def segmentsLeftInHeader : Nat := 3
def minimumIPv6MTU : Nat := 1280

/-- `carriesICMPError`. -/
def carriesICMPError (offending : List UInt8) : Bool :=
  let errorAt (next : UInt8) (payload : Nat) : Bool :=
    next = icmpv6Next ∧ payload < offending.length ∧ offending.getD payload 0 < 128
  match findRouting offending with
  | .ok offset =>
    if offending.length < offset + srhFixedLen then false
    else errorAt (offending.getD offset 0) (offset + srhFixedLen + extensionUnit * (offending.getD (offset + 1) 0).toNat)
  | .error _ => errorAt (offending.getD 6 0) ipv6HeaderLen

/-- `answerable`. -/
def answerable (offending : List UInt8) : Bool :=
  if offending.length < ipv6HeaderLen ∨ offending.getD 0 0 >>> 4 ≠ 6 then false
  else
    let sender : Addr := .v6 (wordAt 128 offending 8) ""
    let receiver : Addr := .v6 (wordAt 128 offending 24) ""
    if sender.isUnspecified || sender.isMulticast || receiver.isMulticast then false else !carriesICMPError offending

/-- `ones`. -/
def ones (carrying : UInt32) (b : List UInt8) : UInt32 := foldCarries 2 (addBytes carrying b)

/-- The pseudo-header of `icmpChecksum`. -/
def pseudoHeader (source destination : Addr) (size : Nat) : List UInt8 :=
  addr16 source ++ (addr16 destination ++ (toBytes (BitVec.ofNat 32 size) ++ [0, 0, 0, icmpv6Next]))

/-- `icmpChecksum`. -/
def icmpChecksum (source destination : Addr) (body : List UInt8) : UInt16 :=
  ~~~(ones (ones 0 (pseudoHeader source destination body.length)) body).toUInt16

/-- The message of `icmpError`, under a checksum. -/
def icmpMessage (kind code : UInt8) (checksum : UInt16) (pointer : Nat) (quoted : List UInt8) : List UInt8 :=
  kind :: code :: (toBytes checksum.toBitVec ++ (toBytes (BitVec.ofNat 32 pointer) ++ quoted))

/-- `icmpError`. The checksum is taken over the message while its own field is still zero. -/
def icmpError (offending : List UInt8) (source : Addr) (kind code : UInt8) (pointer : Nat) : Option (List UInt8) :=
  if !usable source || !answerable offending then none
  else
    let destination : Addr := .v6 (wordAt 128 offending 8) ""
    let quoted := offending.take (min offending.length (minimumIPv6MTU - ipv6HeaderLen - icmpHeaderLen))
    let body := icmpMessage kind code 0 pointer quoted
    some ([0x60, 0, 0, 0] ++ (toBytes (BitVec.ofNat 16 body.length) ++ (icmpv6Next :: defaultHopLimit ::
      (addr16 source ++ (addr16 destination ++
        icmpMessage kind code (icmpChecksum source destination body) pointer quoted)))))

/-- `TimeExceeded`. -/
def timeExceeded (offending : List UInt8) (source : Addr) : Option (List UInt8) :=
  icmpError offending source icmpTimeExceeded icmpHopLimitInTranst 0

/-- `ParameterProblem`. -/
def parameterProblem (offending : List UInt8) (source : Addr) : Option (List UInt8) :=
  if offending.length < ipv6HeaderLen then none
  else match findRouting offending with
    | .error _ => none
    | .ok offset => icmpError offending source icmpParameterProblem icmpErroneousHeader (offset + segmentsLeftInHeader)

end RanetLite.Srv6
