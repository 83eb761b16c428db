import RanetLite.Babel.Receive

/-!
# What a speaker is asked to do

The calls the speaker's mutex serialises: the exported ones, a pass of the run loop, and the transport's reports on packets it could
not send. `Reachable` is every state they can lead to, with the packets sent on the way. A `range` over a Go map visits it in any
order, so the maps may be reordered between two calls.
-/

namespace RanetLite.Babel

open Netip

/-- A call on a speaker. `sweep` is the part of a pass that the timers drive. -/
inductive Op where
  | addPeer (peer : Peer)
  | removePeer (n : NeighborRef)
  | originateFrom (dest source : Prefix)
  | setOriginated (routes : List Announce)
  | start
  | sweep
  | receive (peer : Peer) (src : Addr) (payload : List UInt8) (rs : List Reservation)
  | pass (rs : List Reservation)
  | noteLost (n : NeighborRef) (undo : List TlvUndo)

/-- The state a call leaves, and the packets it places. -/
def Speaker.apply (s : Speaker) (now : Time) : Op → Speaker × List ReservedPacket
  | .addPeer peer => ((s.addPeer peer now).1, [])
  | .removePeer n => (s.removePeer n now, [])
  | .originateFrom dest source => (s.originateFrom dest source, [])
  | .setOriginated routes => (s.setOriginated routes, [])
  | .start => (s.start now, [])
  | .sweep => (s.sweepExpired now, [])
  | .receive peer src payload rs => s.receive peer src payload now rs
  | .pass rs => s.pass now rs
  | .noteLost n undo => (s.noteLost n undo now, [])

/-- A report is on a packet that was sent. -/
def Op.Allowed (sent : List ReservedPacket) : Op → Prop
  | .noteLost n undo => ∃ p ∈ sent, p.neighbor = n ∧ p.undo = undo
  | _ => True

/-- One content in another order. -/
def GoMap.Reordered {K V : Type} (m m' : GoMap K V) : Prop := m'.entries.Perm m.entries

/-- A neighbor with its sets reordered. -/
structure NeighborState.Reordered (n n' : NeighborState) : Prop where
  rest : n' = { n with owed := n'.owed, advertised := n'.advertised }
  owed : GoMap.Reordered n.owed n'.owed
  advertised : GoMap.Reordered n.advertised n'.advertised

/-- An entry with its routes reordered. -/
structure KeyEntry.Reordered (e e' : KeyEntry) : Prop where
  rest : e' = { e with routes := e'.routes }
  routes : GoMap.Reordered e.routes e'.routes

/-- A route table with its maps reordered. -/
structure RouteTable.Reordered (rt rt' : RouteTable) : Prop where
  rest : rt' = { rt with entries := rt'.entries, sources := rt'.sources, dirty := rt'.dirty }
  entries : ∀ key, Option.Rel KeyEntry.Reordered (rt.entries.lookup key) (rt'.entries.lookup key)
  sources : GoMap.Reordered rt.sources rt'.sources
  dirty : GoMap.Reordered rt.dirty rt'.dirty

/-- A speaker with its maps reordered. -/
structure Speaker.Reordered (s s' : Speaker) : Prop where
  rest : s' = { s with
    heap := s'.heap, neighbors := s'.neighbors, originate := s'.originate, routes := s'.routes
    pendingSeqno := s'.pendingSeqno, askedSeqno := s'.askedSeqno, starveRetries := s'.starveRetries }
  heap : ∀ n, (s.heap n).Reordered (s'.heap n)
  neighbors : GoMap.Reordered s.neighbors s'.neighbors
  originate : GoMap.Reordered s.originate s'.originate
  routes : s.routes.Reordered s'.routes
  pendingSeqno : GoMap.Reordered s.pendingSeqno s'.pendingSeqno
  askedSeqno : GoMap.Reordered s.askedSeqno s'.askedSeqno
  starveRetries : GoMap.Reordered s.starveRetries s'.starveRetries

/-- The states of a speaker and the packets it has sent, over any calls at any times. -/
inductive Reachable : Speaker → List ReservedPacket → Prop
  | new {cfg : Config} {routes : Routes} {rt drawn : Runtime} {damp : Damping} {s : Speaker}
      (h : Speaker.new cfg routes rt drawn damp = .ok s) : Reachable s []
  | call {s : Speaker} {sent : List ReservedPacket} (h : Reachable s sent) (op : Op) (now : Time) (allowed : op.Allowed sent) :
      Reachable (s.apply now op).1 (sent ++ (s.apply now op).2)
  | reorder {s s' : Speaker} {sent : List ReservedPacket} (h : Reachable s sent) (same : s.Reordered s') : Reachable s' sent

end RanetLite.Babel
