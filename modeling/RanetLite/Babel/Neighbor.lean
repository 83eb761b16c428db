import Mathlib.Data.List.AList
import RanetLite.Babel.Cost
import RanetLite.Babel.Update

/-!
# Neighbors

`internal/babel/neighbor.go`: what the speaker keeps about one registered peer. A Go map is an association list with distinct keys,
its order the order a `range` over it takes; a set is a map to `Unit`.
-/

namespace RanetLite.Babel

open Netip

/-- A Go map. -/
abbrev GoMap (K V : Type) := AList fun _ : K => V

/-- A Go map to the empty struct. -/
abbrev GoSet (K : Type) := GoMap K Unit

/-- `netstack.Peer`: one ESP session, told apart from another of the same name by its handle. -/
structure Peer where
  handle : Nat
  id : String
deriving DecidableEq, Repr

/-- A pointer to a `neighborState`: two registrations of one peer are different neighbors. -/
abbrev NeighborRef := Nat

/-- `neighborState`. -/
structure NeighborState where
  peer : Peer
  addr : Addr := .zero
  alive : Bool := false
  lastHelloTime : Time := 0
  helloInterval : Duration := 0
  unicastHelloTime : Time := 0
  unicastHelloInterval : Duration := 0
  multicastHistory : HelloHistory := {}
  nextHelloDue : Time := 0
  heard : Bool := false
  theirHelloTxTS : UInt32 := 0
  theirHelloRxTS : UInt32 := 0
  haveTheirHello : Bool := false
  sentHello : Bool := false
  helloSeqno : UInt16 := 0
  owed : GoSet RouteKey := ∅
  reportedCost : UInt16 := 0
  haveReportedCost : Bool := false
  ihuExpiry : Time := 0
  measuredRTT : Duration := 0
  haveRTT : Bool := false
  rttExpiry : Time := 0
  lastFullDump : Time := 0
  advertised : GoSet RouteKey := ∅

/-- `multicastGroup`, `ff02::1:6`. -/
def multicastGroup : Addr := .v6 0xff020000000000000000000000010006 ""

/-- `deadTimeout`. -/
def deadTimeout (interval : Duration) : Duration := interval * 7 / 2

namespace NeighborState

/-- `destination`. -/
def destination (n : NeighborState) : Addr := if n.addr.isValid then n.addr else multicastGroup

/-- `helloExpiry`: either kind of Hello keeps the link alive. -/
def helloExpiry (n : NeighborState) : Time :=
  let deadline := if 0 < n.helloInterval then n.lastHelloTime + deadTimeout n.helloInterval else 0
  if 0 < n.unicastHelloInterval then
    let unicast := n.unicastHelloTime + deadTimeout n.unicastHelloInterval
    if deadline < unicast then unicast else deadline
  else deadline

/-- `isAlive`. -/
def isAlive (n : NeighborState) (now : Time) : Bool := n.alive && decide (now < n.helloExpiry)

/-- `forgetLink`. -/
def forgetLink (n : NeighborState) : NeighborState :=
  { n with
    multicastHistory := {}, nextHelloDue := 0, lastHelloTime := 0, helloInterval := 0
    unicastHelloTime := 0, unicastHelloInterval := 0 }

/-- `linkCost`. -/
def linkCost (n : NeighborState) (now : Time) (cost : CostParams) : UInt16 :=
  if !n.isAlive now || !n.haveReportedCost || decide (n.ihuExpiry ≤ now) then metricInfinity
  else saturatingAdd (cost.linkQualityCost n.multicastHistory n.reportedCost) (cost.rttPenalty n.measuredRTT n.haveRTT)

/-- One expected Hello that never came, the loop body of `sweepExpiredLocked`. -/
def missHello (n : NeighborState) : NeighborState :=
  { n with multicastHistory := n.multicastHistory.missed, nextHelloDue := n.nextHelloDue + n.helloInterval }

/-- The Hellos missed by now, at most as many as the history holds. -/
def missHellos (now : Time) : Nat → NeighborState → NeighborState
  | 0, n => n
  | fuel + 1, n =>
    if 0 < n.helloInterval ∧ n.nextHelloDue ≠ 0 ∧ n.nextHelloDue ≤ now then missHellos now fuel n.missHello else n

/-- One neighbor in the timer pass of `sweepExpiredLocked`. -/
def sweep (n : NeighborState) (now : Time) : NeighborState :=
  let n := missHellos now historyDepth n
  let n := if n.alive && !n.isAlive now then { n with alive := false, haveReportedCost := false }.forgetLink else n
  let n := if n.haveReportedCost && decide (n.ihuExpiry ≤ now) then { n with haveReportedCost := false } else n
  if n.haveRTT && decide (n.rttExpiry ≤ now) then { n with haveRTT := false } else n

end NeighborState
end RanetLite.Babel
