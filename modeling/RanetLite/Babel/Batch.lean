import Mathlib.Data.List.Sort
import RanetLite.Babel.Neighbor
import RanetLite.Babel.Parser

/-!
# From actions to packets

The assembly half of `internal/babel/send.go`: actions aimed at one target are merged, ordered by priority and split at the packet
size. A packet keeps the undos of the groups it carries. Whether a peer has a slot free, and the clock at each Hello, come from a
list of reservations, one for each packet in order.
-/

namespace RanetLite.Babel

open Netip

/-- `sendPriority`, in the order a pass takes places. -/
inductive SendPriority where
  | hello
  | request
  | dump
deriving DecidableEq, Repr

/-- The number a priority is compared by. -/
def SendPriority.rank : SendPriority → Nat
  | hello => 0
  | request => 1
  | dump => 2

/-- `tlvUndo`: the prefix a group advertised, and whether that spent the neighbor's record of it. -/
structure TlvUndo where
  firstTLV : Nat := 0
  key : RouteKey
  spent : Bool
deriving DecidableEq, Repr

/-- `sendAction`. `whenRefused` names the neighbors whose Hello counter a refusal gives back. -/
structure SendAction where
  neighbor : NeighborRef
  dest : Addr
  priority : SendPriority
  tlvs : List RawTLV
  rollback : List TlvUndo := []
  whenRefused : List NeighborRef := []
deriving DecidableEq, Repr

/-- What actions are merged by. -/
def SendAction.target (a : SendAction) : NeighborRef × Addr × SendPriority := (a.neighbor, a.dest, a.priority)

/-- `takeUndos`: the undos of the TLVs in `[first, past)`, and the rest. -/
def takeUndos (rollback : List TlvUndo) (first past : Nat) : List TlvUndo × List TlvUndo :=
  (rollback.dropWhile (fun u => u.firstTLV < first)).span (fun u => u.firstTLV < past)

/-- One action appended to another of the same target, its undos renumbered onto the end. -/
def SendAction.merge (a b : SendAction) : SendAction :=
  { a with
    tlvs := a.tlvs ++ b.tlvs
    rollback := a.rollback ++ b.rollback.map fun u => { u with firstTLV := u.firstTLV + a.tlvs.length }
    whenRefused := a.whenRefused ++ b.whenRefused }

/-- One round of `coalesce`. -/
def coalesceStep (merged : List SendAction) (action : SendAction) : List SendAction :=
  if action.tlvs.isEmpty then merged
  else match merged.findIdx? (fun a => a.target = action.target) with
    | none => merged ++ [action]
    | some i => merged.modify i (fun a => a.merge action)

/-- `coalesce`. -/
def coalesce (actions : List SendAction) : List SendAction :=
  if actions.length < 2 then actions else actions.foldl coalesceStep []

/-- `slices.SortStableFunc` by priority. -/
def sortByPriority (actions : List SendAction) : List SendAction :=
  actions.insertionSort (fun a b => a.priority.rank ≤ b.priority.rank)

/-- The bytes a run of TLVs takes in a packet, as `reserveBatchesTo` counts them. -/
def encodedLen (group : List RawTLV) : Nat := (group.map fun t => 2 + t.body.length).sum

/-- The loop state of `reserveBatchesTo`: the packets closed so far, and the one being built. -/
structure Batching where
  closed : List (List RawTLV × List TlvUndo) := []
  pending : List TlvUndo
  batch : List RawTLV := []
  size : Nat := headerLen
  inEffect : List UInt8 := []
  batchFrom : Nat := 0

/-- `take`: the packet being built is closed with the undos of its TLVs. -/
def Batching.take (b : Batching) (past : Nat) : Batching :=
  let (undo, pending) := takeUndos b.pending b.batchFrom past
  { b with closed := b.closed ++ [(b.batch, undo)], pending := pending }

/-- The router id of a group is left out when the packet has already set it. -/
def trimGroup (inEffect : List UInt8) (group : List RawTLV) : List RawTLV :=
  match group with
  | r :: rest => if r.type = tlvRouterID ∧ r.body = inEffect then rest else group
  | [] => []

/-- The router id in effect after a group. -/
def groupEffect (inEffect : List UInt8) (group : List RawTLV) : List UInt8 :=
  match group with
  | r :: _ => if r.type = tlvRouterID then r.body else inEffect
  | [] => inEffect

/-- One round of `reserveBatchesTo`: the group at index `i` goes into the packet being built, or into the next one. -/
def Batching.add (packetSize : Nat) (b : Batching) (i : Nat) (group : List RawTLV) : Batching :=
  let trimmed := trimGroup b.inEffect group
  if !b.batch.isEmpty && packetSize < b.size + encodedLen trimmed then
    { b.take i with batch := group, size := headerLen + encodedLen group, batchFrom := i
                    inEffect := groupEffect [] group }
  else
    { b with batch := b.batch ++ trimmed, size := b.size + encodedLen trimmed
             inEffect := groupEffect b.inEffect group }

/-- The loop of `reserveBatchesTo`: a Router-Id and the Update behind it are one group. -/
def Batching.run (packetSize : Nat) (b : Batching) (i : Nat) : List RawTLV → Batching
  | [] => b
  | [t] => b.add packetSize i [t]
  | t :: u :: rest =>
    if t.type = tlvRouterID ∧ u.type = tlvUpdate then (b.add packetSize i [t, u]).run packetSize (i + 2) rest
    else (b.add packetSize i [t]).run packetSize (i + 1) (u :: rest)

/-- The packets an action is split into, with the undos of each. -/
def splitBatches (packetSize : Nat) (action : SendAction) : List (List RawTLV × List TlvUndo) :=
  let b := Batching.run packetSize { pending := action.rollback } 0 action.tlvs
  if b.batch.isEmpty then b.closed else (b.take action.tlvs.length).closed

/-- What the transport answers one packet: whether it has a slot free, and the clock at each TLV. -/
structure Reservation where
  granted : Bool
  micros : Nat → UInt32

/-- The Hellos of a packet are stamped as it takes its place. -/
def stampHello (micros : UInt32) (t : RawTLV) : RawTLV :=
  if t.type = tlvHello then
    match decodeHello t.body with
    | some h => encodeHello { h with txTS := micros, hasTS := true }
    | none => t
  else t

/-- The TLVs `reserveTo` encodes. -/
def stampAll (micros : Nat → UInt32) (tlvs : List RawTLV) : List RawTLV := tlvs.mapIdx fun i t => stampHello (micros i) t

/-- A packet that holds a place in its peer's transmission order: its payload, and the undos of the TLVs it carries. -/
structure ReservedPacket where
  neighbor : NeighborRef
  dest : Addr
  payload : List UInt8
  undo : List TlvUndo
deriving DecidableEq, Repr

/-- `reserveTo`: the payload of one packet, stamped. -/
def packetPayload (r : Reservation) (batch : List RawTLV) : List UInt8 := encodePacket (stampAll r.micros batch)

/-- What `reserveBatchesTo` reports: the packets that took a place, the undos of those that did not, and whether every one did. -/
structure Reserved where
  packets : List ReservedPacket := []
  lost : List TlvUndo := []
  whole : Bool := true

/-- One packet of `reserveBatchesTo`. -/
def Reserved.add (action : SendAction) (out : Reserved) (r : Reservation) (batch : List RawTLV × List TlvUndo) : Reserved :=
  if r.granted then
    { out with packets := out.packets ++ [⟨action.neighbor, action.dest, packetPayload r batch.1, batch.2⟩] }
  else { out with lost := out.lost ++ batch.2, whole := false }

/-- A reservation of a transport that has run out of answers refuses. -/
def refusal : Reservation := ⟨false, fun _ => 0⟩

/-- The batches of one action, each with its reservation; the reservations left over are the next action's. -/
def reserveAll (action : SendAction) :
    Reserved → List (List RawTLV × List TlvUndo) → List Reservation → Reserved × List Reservation
  | out, [], rs => (out, rs)
  | out, batch :: rest, rs => reserveAll action (out.add action (rs.headD refusal) batch) rest rs.tail

/-- `reserveBatchesTo`. -/
def reserveBatchesTo (packetSize : Nat) (action : SendAction) (rs : List Reservation) : Reserved × List Reservation :=
  reserveAll action {} (splitBatches packetSize action) rs

/-- The actions of a pass in order, each with what its reservations gave. -/
def reserveEach (packetSize : Nat) : List SendAction → List Reservation → List (SendAction × Reserved)
  | [], _ => []
  | action :: rest, rs =>
    let (out, rs) := reserveBatchesTo packetSize action rs
    (action, out) :: reserveEach packetSize rest rs

/-- The reservations of `emitLocked`: merged, ordered by what a pass can least afford to lose, and split. -/
def emitReserved (packetSize : Nat) (actions : List SendAction) (rs : List Reservation) : List (SendAction × Reserved) :=
  reserveEach packetSize (sortByPriority (coalesce actions)) rs

end RanetLite.Babel
