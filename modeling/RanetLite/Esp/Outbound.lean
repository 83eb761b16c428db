import Mathlib.Logic.Relation
import RanetLite.Lib.Bytes

/-!
# Outbound SAs

`esp/esp.go`, the sending half: the counter that gives out sequence numbers, the ranges reserved from it, and the packets sealed under
them. The AEAD is a function of the nonce, the plaintext and the additional data. Buffers that the source reuses are left out: what a
call returns is a value.

`Sending` is an SA with the calls on it under way. The counter is one atomic word and a call adds to it once, so a reservation is one
step. What follows in the call reads only what the addition returned. A range belongs to one worker, and the packets of its call are
sealed one by one, between any steps of the others.
-/

namespace RanetLite.Esp

open Bytes

def headerLen : Nat := 8
def ivLen : Nat := 8
def icvLen : Nat := 16

/-- The last number of an SA without extended sequence numbers. -/
def sequenceLimit : UInt64 := 0xffffffff

/-- `ProactiveRekeySequence`. -/
def proactiveRekeySequence : UInt64 := sequenceLimit - (1 : UInt64) <<< (28 : UInt64)

/-- `OutboundSA`: the AEAD, its salt and SPI, the counter, whether a rekey callback is installed and how often it was called. -/
structure OutboundSA where
  aeadSeal : (nonce plain aad : List UInt8) → List UInt8
  salt : List UInt8
  spi : UInt32
  seq : UInt64 := 0
  onRekey : Bool := false
  asked : Nat := 0

/-- Why nothing was reserved or sealed. -/
inductive SealError where
  | emptyRange
  | exhausted
  | rangeExhausted
  | invalidBatch
  | batchSize (packets : Nat) (range : UInt64)
deriving DecidableEq, Repr

/-- The text of the error. -/
def SealError.text : SealError → String
  | .emptyRange => "esp: sequence range must contain at least one packet"
  | .exhausted => "esp: sequence number space exhausted, SA must be re-established"
  | .rangeExhausted => "esp: reserved sequence range exhausted"
  | .invalidBatch => "esp: invalid sequence batch"
  | .batchSize packets range => s!"esp: sequence batch has {packets} packets, range has {range}"

namespace OutboundSA

/-- `reserveSequenceNumbers`: a reservation past the limit keeps nothing, and the counter keeps counting. -/
def reserveSequenceNumbers (o : OutboundSA) (count : Int64) : OutboundSA × Except SealError (UInt64 × UInt64) :=
  if count ≤ 0 then (o, .error .emptyRange)
  else
    let n := count.toUInt64
    let stop := o.seq + n
    let first := stop - n + 1
    let o := { o with seq := stop, asked := if proactiveRekeySequence ≤ stop ∧ o.onRekey then o.asked + 1 else o.asked }
    if sequenceLimit < stop then (o, .error .exhausted) else (o, .ok (first, stop))

/-- The padding and the trailer `appendSealed` puts behind a packet. -/
def trailer (innerLen : Nat) (nextHeader : UInt8) : List UInt8 :=
  let padLen := (4 - (innerLen + 2) % 4) % 4
  (List.range padLen).map (fun i => UInt8.ofNat (i + 1)) ++ [UInt8.ofNat padLen, nextHeader]

/-- `appendSealed`: the SPI and the number in clear, the number again as the IV, and the ciphertext. -/
def appendSealed (o : OutboundSA) (inner : List UInt8) (nextHeader : UInt8) (seq : UInt64) : List UInt8 :=
  let header := toBytes o.spi.toBitVec ++ toBytes seq.toUInt32.toBitVec
  let iv := toBytes seq.toBitVec
  header ++ iv ++ o.aeadSeal (o.salt ++ iv) (inner ++ trailer inner.length nextHeader) header

end OutboundSA

/-- A packet to seal, and its next header. -/
abbrev Inner := List UInt8 × UInt8

/-- `SequenceRange`. -/
structure SequenceRange where
  next : UInt64
  stop : UInt64
deriving DecidableEq, Repr

/-- What a worker asks of its range: `Seal`, or `SealBatchInto`. -/
inductive SealCall where
  | one (inner : Inner)
  | batch (packets : List (List UInt8)) (nextHeaders : List UInt8)

namespace SequenceRange

/-- The checks of `Seal` and `SealBatchInto`, and the packets a call that passes them seals. -/
def admitted (r : SequenceRange) : SealCall → Except SealError (List Inner)
  | .one inner => if r.stop < r.next then .error .rangeExhausted else .ok [inner]
  | .batch packets nextHeaders =>
    if packets.length ≠ nextHeaders.length then .error .invalidBatch
    else if r.stop < r.next ∨ packets.length ≠ (r.stop - r.next + 1).toNat then
      .error (.batchSize packets.length (r.stop - r.next + 1))
    else .ok (packets.zip nextHeaders)

/-- One packet sealed under the next number of the range. -/
def sealNext (o : OutboundSA) (r : SequenceRange) (inner : Inner) : SequenceRange × List UInt8 :=
  ({ r with next := r.next + 1 }, o.appendSealed inner.1 inner.2 r.next)

end SequenceRange

/-- A range in its worker's hands, and the packets its call has still to seal. -/
structure Lease where
  range : SequenceRange
  todo : List Inner := []

/-- A reservation: the count it asked for, and what it got. -/
abbrev Reservation := Int64 × Except SealError (UInt64 × UInt64)

/-- An SA with the calls on it under way: the reservations in the order of their additions, the ranges held, and the packets sealed. -/
structure Sending where
  sa : OutboundSA
  log : List Reservation := []
  leases : List Lease := []
  sealed : List (List UInt8) := []

namespace Sending

/-- A reservation of `count` numbers, for a worker that has `todo` to seal under them. -/
def reserve (s : Sending) (count : Int64) (todo : List Inner) : Sending :=
  let (sa, result) := s.sa.reserveSequenceNumbers count
  let lease := match result with
    | .ok (first, stop) => [⟨⟨first, stop⟩, todo⟩]
    | .error _ => []
  { s with sa := sa, log := s.log ++ [(count, result)], leases := s.leases ++ lease }

/-- One step of one caller: `ReserveSequenceRange` and the reservation of `OutboundSA.Seal`, a call on a range that passes its
checks, and one packet of a call sealed. A call that fails its checks changes nothing. -/
inductive Step : Sending → Sending → Prop
  | reserveSequenceRange (s : Sending) (count : Int64) : Step s (s.reserve count [])
  | sealReserve (s : Sending) (inner : Inner) : Step s (s.reserve 1 [inner])
  | call {s : Sending} {before after : List Lease} {range : SequenceRange} {call : SealCall} {todo : List Inner}
      (hleases : s.leases = before ++ ⟨range, []⟩ :: after) (hadmitted : range.admitted call = .ok todo) :
      Step s { s with leases := before ++ ⟨range, todo⟩ :: after }
  | sealPacket {s : Sending} {before after : List Lease} {range : SequenceRange} {inner : Inner} {rest : List Inner}
      (hleases : s.leases = before ++ ⟨range, inner :: rest⟩ :: after) :
      Step s { s with
        leases := before ++ ⟨(range.sealNext s.sa inner).1, rest⟩ :: after
        sealed := s.sealed ++ [(range.sealNext s.sa inner).2] }

/-- The states of a fresh SA under any calls. -/
def Reachable (sa : OutboundSA) (s : Sending) : Prop := Relation.ReflTransGen Step { sa := { sa with seq := 0 } } s

/-- The numbers asked for so far. -/
def requested (log : List Reservation) : Nat := (log.map fun entry => entry.1.toNatClampNeg).sum

/-- The ranges given out, in the order of their reservations. -/
def reserved (log : List Reservation) : List (UInt64 × UInt64) := log.filterMap fun entry => entry.2.toOption

end Sending

/-- The sequence number a packet carries. -/
def sequenceField (packet : List UInt8) : List UInt8 := (packet.drop 4).take 4

/-- The IV a packet carries. -/
def ivField (packet : List UInt8) : List UInt8 := (packet.drop headerLen).take ivLen

end RanetLite.Esp
