import Mathlib.Logic.Function.Basic
import RanetLite.Srv6.Local

/-!
# Segments in the receive path

`internal/netstack/segments.go`: a batch of decrypted packets, the packets of it that are addressed to this node's own segments, and
what becomes of them. Routes, the budgets of the peers and the transport are parameters. Peers are compared by identity.
-/

namespace RanetLite.Netstack

open Bytes Netip Srv6

/-- `packet.Version`: the version of a packet that is exactly as long as it says, and zero for any other. -/
def packetVersion (raw : List UInt8) : Nat :=
  if raw.getD 0 0 >>> 4 = 4 ∧ 20 ≤ raw.length then
    let headerLen := 4 * (raw.getD 0 0 &&& 0xf).toNat
    let total := (wordAt 16 raw 2).toNat
    if headerLen < 20 ∨ total < headerLen ∨ total ≠ raw.length then 0 else 4
  else if raw.getD 0 0 >>> 4 = 6 ∧ 40 ≤ raw.length then
    let length := (wordAt 16 raw 4).toNat
    if length = 0 ∧ 40 < raw.length ∨ 40 + length ≠ raw.length then 0 else 6
  else 0

/-- `addrsOf`: source, destination and the next header that announces the packet. -/
def addrsOf (raw : List UInt8) : Option (Addr × Addr × UInt8) :=
  if packetVersion raw = 4 then some (.v4 (wordAt 32 raw 12), .v4 (wordAt 32 raw 16), nextHeaderIPv4)
  else if packetVersion raw = 6 then some (.v6 (wordAt 128 raw 8) "", .v6 (wordAt 128 raw 24) "", nextHeaderIPv6)
  else none

/-- The loop of `actLocally`. -/
def actAgain (table : Option LocalTable) : Nat → List UInt8 → Result → List UInt8 × Result
  | 0, raw, result => (raw, result)
  | n + 1, raw, .forward next =>
    let again := handle table raw
    if again.2 = .pass then (raw, .forward next) else actAgain table n again.1 again.2
  | _ + 1, raw, .pass => (raw, .pass)
  | _ + 1, raw, .deliver inner family => (raw, .deliver inner family)
  | _ + 1, raw, .drop err => (raw, .drop err)

/-- `actLocally`: the packet as it is left, and what to do with it. -/
def actLocally (table : Option LocalTable) (raw : List UInt8) : List UInt8 × Result :=
  actAgain table maxSegments (handle table raw).1 (handle table raw).2

section

variable {Peer : Type} [DecidableEq Peer]

/-- The packets of a peer's batch, each with its next header. -/
abbrev Batch := List (List UInt8 × UInt8)

/-- The first pass of `forwardSegments`: how many packets each peer gets, the peers in the order they turned up, and the peer of each
packet. -/
structure Sorted (Peer : Type) where
  counts : Peer → Nat := fun _ => 0
  order : List Peer := []
  assigned : List (List UInt8 × Option (Peer × UInt8)) := []
  segmentsDropped : Nat := 0

def Sorted.sort (routes : Addr → Addr → Option Peer) (s : Sorted Peer) (raw : List UInt8) : Sorted Peer :=
  match addrsOf raw with
  | none => { s with assigned := s.assigned ++ [(raw, none)], segmentsDropped := s.segmentsDropped + 1 }
  | some (src, dst, nextHeader) => match routes src dst with
    | none => { s with assigned := s.assigned ++ [(raw, none)], segmentsDropped := s.segmentsDropped + 1 }
    | some peer => { s with
        counts := Function.update s.counts peer (s.counts peer + 1)
        order := if s.counts peer = 0 then s.order ++ [peer] else s.order
        assigned := s.assigned ++ [(raw, some (peer, nextHeader))] }

/-- What `forwardSegments` has done: the batches it handed to their peers, those the transport lost, and the counters. -/
structure Forwarding (Peer : Type) where
  sent : List (Peer × Batch) := []
  lost : List (Peer × Batch) := []
  segmentsForwarded : Nat := 0
  segmentsDropped : Nat := 0

/-- The second pass: one place on the budget of each peer, for all of its share. -/
def reservePeers (reserve : Peer → Nat → Bool) (counts : Peer → Nat) (order : List Peer) : (Peer → Option Batch) × Nat :=
  order.foldl (fun s peer => if reserve peer (counts peer) then (Function.update s.1 peer (some []), s.2)
    else (s.1, s.2 + counts peer)) (fun _ => none, 0)

/-- The third pass: each packet goes to the batch of its peer, if that has one. -/
def appendSegment (batches : Peer → Option Batch) (segment : List UInt8 × Option (Peer × UInt8)) : Peer → Option Batch :=
  match segment.2 with
  | none => batches
  | some (peer, nextHeader) => match batches peer with
    | none => batches
    | some batch => Function.update batches peer (some (batch ++ [(segment.1, nextHeader)]))

/-- The last pass. -/
def Forwarding.enqueue (accepts : Peer → Batch → Bool) (counts : Peer → Nat) (batches : Peer → Option Batch) (f : Forwarding Peer)
    (peer : Peer) : Forwarding Peer :=
  match batches peer with
  | none => f
  | some batch =>
    if accepts peer batch then { f with sent := f.sent ++ [(peer, batch)], segmentsForwarded := f.segmentsForwarded + counts peer }
    else { f with lost := f.lost ++ [(peer, batch)], segmentsDropped := f.segmentsDropped + counts peer }

variable (routes : Addr → Addr → Option Peer) (reserve : Peer → Nat → Bool) (accepts : Peer → Batch → Bool)

/-- `forwardSegments`. -/
def forwardSegments (segments : List (List UInt8)) : Forwarding Peer :=
  let s := segments.foldl (Sorted.sort routes) {}
  let reserved := reservePeers reserve s.counts s.order
  let batches := s.assigned.foldl appendSegment reserved.1
  s.order.foldl (Forwarding.enqueue accepts s.counts batches) { segmentsDropped := s.segmentsDropped + reserved.2 }

/-- The loop of `applySegments`: what is to be delivered once a packet of this node has turned up, the packets to send on, the refused
ones, and the counters. -/
structure Applying where
  deliver : Option (List (List UInt8)) := none
  forward : List (List UInt8) := []
  refused : List (List UInt8 × HandleError) := []
  segmentsDelivered : Nat := 0
  segmentsDropped : Nat := 0

/-- One packet of the batch, at its place in it, as `actLocally` has left it. -/
def Applying.act (s : Applying) (before : List (List UInt8)) (acted : List UInt8 × Result) : Applying :=
  -- `take`: the packets passed over so far are copied when the first one of ours turns up.
  let taken := s.deliver.getD before
  match acted.2 with
  | .pass => { s with deliver := s.deliver.map (· ++ [acted.1]) }
  | .deliver inner _ => { s with deliver := some (taken ++ [inner]), segmentsDelivered := s.segmentsDelivered + 1 }
  | .forward _ => { s with deliver := some taken, forward := s.forward ++ [acted.1] }
  | .drop err => { s with
      deliver := some taken, refused := s.refused ++ [(acted.1, err)], segmentsDropped := s.segmentsDropped + 1 }

/-- The loop works on the packets in place: what stands in the batch after it, and what it has gathered. -/
def applyLoop (table : Option LocalTable) : List (List UInt8) → List (List UInt8) → Applying → List (List UInt8) × Applying
  | before, [], s => (before, s)
  | before, packet :: rest, s =>
    let acted := actLocally table packet
    applyLoop table (before ++ [acted.1]) rest (s.act before acted)

/-- What `applySegments` does with a batch. -/
structure Applied (Peer : Type) where
  returned : List (List UInt8)
  forwarding : Forwarding Peer
  refused : List (List UInt8 × HandleError)
  segmentsDelivered : Nat
  segmentsForwarded : Nat
  segmentsDropped : Nat

/-- `applySegments`. -/
def applySegments (table : Option LocalTable) (raw : List (List UInt8)) : Applied Peer :=
  let (after, s) := applyLoop table [] raw {}
  let f := forwardSegments routes reserve accepts s.forward
  { returned := s.deliver.getD after, forwarding := f, refused := s.refused, segmentsDelivered := s.segmentsDelivered
    segmentsForwarded := f.segmentsForwarded, segmentsDropped := s.segmentsDropped + f.segmentsDropped }

end

end RanetLite.Netstack
