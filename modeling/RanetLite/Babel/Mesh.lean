import RanetLite.Babel.Ops
import RanetLite.Lib.Moves

/-!
# Speakers and the packets between them

Any number of speakers, over any links. `far i id` is the node that the peer `id` of node `i` is a session with. What a call of a node
places stays under way until it is lost, and may arrive late, out of order, more than once or not at all. Calls are serialised, as each
speaker's mutex does, and the calls of different nodes interleave in any way.
-/

namespace RanetLite.Babel

open Netip

/-- A packet under way, and when it was placed. -/
structure Flight where
  packet : ReservedPacket
  sentAt : Time
deriving DecidableEq

/-- The speakers, what each has sent, and what of it is under way. The clock is the time of the last call. -/
structure Mesh (ι : Type) where
  clock : Time
  node : ι → Speaker
  sent : ι → List ReservedPacket
  flights : ι → List Flight

/-- What can happen: a call on a node, the arrival of a packet, a loss, and a range over a node's maps in another order. -/
inductive Act (ι : Type) where
  | call (i : ι) (op : Op) (now : Time)
  | deliver (i : ι) (peer : Peer) (src : Addr) (f : Flight) (rs : List Reservation) (now : Time)
  | lose (i : ι) (f : Flight)
  | reorder (i : ι) (s : Speaker)

/-- Whether a call is one of a packet's arrival. -/
def Op.isReceive : Op → Bool
  | .receive _ _ _ _ => true
  | _ => false

/-- Whether a call sweeps what is due. -/
def Op.sweeps : Op → Bool
  | .sweep => true
  | .pass _ => true
  | _ => false

namespace Mesh

variable {ι : Type} [DecidableEq ι]

/-- The node a packet of node `j` goes to. -/
def toward (far : ι → String → ι) (w : Mesh ι) (j : ι) (f : Flight) : ι := far j ((w.node j).heap f.packet.neighbor).peer.id

/-- Node `i` made a call at `now`: its packets are under way. -/
def called (w : Mesh ι) (i : ι) (now : Time) (out : Speaker × List ReservedPacket) : Mesh ι where
  clock := now
  node := Function.update w.node i out.1
  sent := Function.update w.sent i (w.sent i ++ out.2)
  flights := Function.update w.flights i (w.flights i ++ out.2.map (⟨·, now⟩))

/-- The mesh. A packet arrives where it was sent to, from the session of the node that sent it. -/
def system (far : ι → String → ι) : Moves.System (Mesh ι) (Act ι) where
  enabled w
    | .call i op _ => op.isReceive = false ∧ op.Allowed (w.sent i)
    | .deliver i peer _ f _ _ => f ∈ w.flights (far i peer.id) ∧ w.toward far (far i peer.id) f = i
    | .lose _ _ => True
    | .reorder i s => (w.node i).Reordered s
  apply w
    | .call i op now => w.called i now ((w.node i).apply now op)
    | .deliver i peer src f rs now => w.called i now ((w.node i).apply now (.receive peer src f.packet.payload rs))
    | .lose i f => { w with flights := Function.update w.flights i ((w.flights i).erase f) }
    | .reorder i s => { w with node := Function.update w.node i s }

/-- New speakers, of any configurations they accept, and nothing sent. -/
structure Start (w : Mesh ι) : Prop where
  node : ∀ i, ∃ cfg routes rt drawn damp, Speaker.new cfg routes rt drawn damp = .ok (w.node i)
  sent : ∀ i, w.sent i = []
  flights : ∀ i, w.flights i = []

end Mesh

/-- The time of a call, when the act is one. -/
def Act.time {ι : Type} : Act ι → Option Time
  | .call _ _ now => some now
  | .deliver _ _ _ _ _ now => some now
  | _ => none

/-- Time does not go back. -/
def Act.Forward {ι : Type} (w : Mesh ι) (a : Act ι) : Prop := ∀ now ∈ a.time, w.clock ≤ now

end RanetLite.Babel
