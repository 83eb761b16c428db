import Mathlib.Logic.Relation
import RanetLite.Babel.RouteTable
import RanetLite.Egress.Translator
import RanetLite.Sadr.Linear

/-!
# The route reconciler

`internal/kernel/capture.go` and the route half of `internal/kernel/kernel.go`: the gate that holds back the routes that would carry the
machine's own traffic, the projection of a snapshot onto the kernel, the diff, one pass, and the loop of `Run` with its timer. The kernel
is the list of the routes that carry the reconciler's marker, and times are nanoseconds. What is written to the log is left out, as are the counts of a pass.
-/

namespace RanetLite

namespace Netip.Addr

/-- `Addr.Compare`: by the length of the family, then by value, then by zone. -/
def compare : Addr → Addr → Ordering
  | v4 a, v4 b => Ord.compare a.toNat b.toNat
  | v6 a y, v6 b z => (Ord.compare a.toNat b.toNat).then (Ord.compare y z)
  | a, b => Ord.compare a.bitLen b.bitLen

end Netip.Addr

namespace Kernel

open Netip Babel

/-- `Route`: a route of the kernel, and the key of the diff. -/
structure Route where
  destination : Prefix
  source : Prefix := .none
  prefSrc : Addr := .zero
  metric : UInt32
  scoped_ : Bool := false
  unreachable : Bool := false
deriving DecidableEq, Repr

/-- `unspecifiedOf`. -/
def unspecifiedOf (a : Addr) : Addr := if a.is4 then .v4 0 else .v6 0 ""

/-- `capturesTheMachine`. -/
def capturesTheMachine (r : Route) : Bool := r.destination.bits ≤ 1 || r.destination.contains (unspecifiedOf r.destination.addr)

/-- `Covered`: the families the underlay can fall back on. -/
structure Covered where
  v4 : Bool
  v6 : Bool
deriving DecidableEq, Repr

/-- `Covered.Has`. -/
def Covered.has (c : Covered) (a : Addr) : Bool := if a.is4 then c.v4 else c.v6

/-- `captureGate`. -/
structure CaptureGate where
  grace : Int
  liveAt : Int := 0
  seen : Bool := false
  open_ : Bool := false
  waiting : Bool := false
deriving DecidableEq, Repr

namespace CaptureGate

/-- `captureGate.sample`. -/
def sample (g : CaptureGate) (now : Int) (live : Nat) : CaptureGate :=
  if 0 < live then { g with seen := true, liveAt := now, open_ := true, waiting := false }
  else if !g.seen then { g with open_ := false, waiting := false }
  else { g with open_ := now - g.liveAt < g.grace, waiting := now - g.liveAt < g.grace }

/-- `captureGate.deadline`. -/
def deadline (g : CaptureGate) : Option Int := if !g.open_ then none else some (g.liveAt + g.grace)

end CaptureGate

/-- The fields of the `Table` capability the routes depend on. -/
structure Table where
  metric : UInt32 := 0
  prefSrc4 : Addr := .zero
  captureGrace : Int := 0
deriving DecidableEq, Repr

/-- The grace a reconciler is made with: ten seconds where the table names none. -/
def Table.grace (t : Table) : Int := if t.captureGrace ≤ 0 then 10 * second else t.captureGrace

/-- Whether a session source, and coverage of the underlay to ask about, were handed to the reconciler. -/
structure Runtime where
  sessions : Bool
  capture : Bool
deriving DecidableEq, Repr

/-- The fields of `Reconciler` the routes depend on. -/
structure Reconciler where
  table : Table
  rt : Runtime
  gate : CaptureGate
  capture : Bool := false
  capturing : Bool := false
  enabled : Bool := true
  withdrawn : Bool := false
deriving DecidableEq, Repr

/-- `newReconciler`. -/
def newReconciler (t : Table) (rt : Runtime) : Reconciler := { table := t, rt := rt, gate := { grace := t.grace } }

/-- `canonicalPrefix`. -/
def canonicalPrefix (p : Prefix) : Option Prefix :=
  if !p.isValid then none
  else
    let canonical := prefixFrom p.addr.withoutZone p.bits
    if !canonical.isValid then none else some canonical.masked

def limitedBroadcast : Prefix := prefixFrom (.v4 0xffffffff#32) 32

/-- `unroutable`: whether a prefix names the link it sits on. -/
def unroutable (destination : Prefix) : Bool :=
  destination.addr.isMulticast || destination.addr.isLinkLocalUnicast || destination.addr.isLoopback || destination = limitedBroadcast

def holdMetric : UInt32 := 0xffffffff

/-- `routeMetric`. -/
def routeMetric (configured : UInt32) (destination : Prefix) (unreachable : Bool) : UInt32 :=
  if unreachable then holdMetric
  else if configured = 0 ∧ !destination.addr.is4 then 1024
  else configured

/-- The source a snapshot's entry is installed with: `none` for one the kernel cannot hold. -/
def sourceOf (destination source : Prefix) : Option Prefix :=
  let source := if source.isValid ∧ source.bits = 0 then .none else source
  if !source.isValid then some .none
  else match canonicalPrefix source with
    | none => none
    | some source => if source.addr.is4 ∨ destination.addr.is4 then none else some source

namespace Reconciler

/-- What `desired` makes of one entry. -/
def project (r : Reconciler) (entry : Sadr.Route FibTarget) : Option Route :=
  (canonicalPrefix entry.destination).bind fun destination =>
    if unroutable destination then none
    else
      let unreachable := entry.value = .unreachable
      let route : Route :=
        { destination := destination, metric := routeMetric r.table.metric destination unreachable, unreachable := unreachable }
      if capturesTheMachine route ∧ !r.capture then none
      else (sourceOf destination entry.source).map fun source =>
        { route with source := source, prefSrc := if destination.addr.is4 ∧ r.table.prefSrc4.isValid then r.table.prefSrc4 else .zero }

/-- `desired`. -/
def desired (r : Reconciler) (snapshot : List (Sadr.Route FibTarget)) : List Route := snapshot.filterMap r.project

end Reconciler

/-- `comparePrefixes`. -/
def comparePrefixes (a b : Prefix) : Ordering := (a.addr.compare b.addr).then (compare a.bits b.bits)

/-- `compareSourceSpecificity`: the longer source first. -/
def compareSourceSpecificity (a b : Prefix) : Ordering := (compare b.bits a.bits).then (a.addr.compare b.addr)

/-- `compareRoutes`. -/
def compareRoutes (a b : Route) : Ordering :=
  (comparePrefixes a.destination b.destination).then <| (compareSourceSpecificity a.source b.source).then <|
    (a.prefSrc.compare b.prefSrc).then <| (compare a.metric b.metric).then <| (compare a.unreachable b.unreachable).then <|
    compare a.scoped_ b.scoped_

/-- `slices.SortFunc` by `compareRoutes`. -/
def sorted (routes : List Route) : List Route := routes.mergeSort fun a b => compareRoutes a b ≠ .gt

/-- The routes of a list whose key is not among those given, the first of each key. -/
def missing (key : Route → Route) (among : List Route) : (emitted routes : List Route) → List Route
  | _, [] => []
  | emitted, route :: rest =>
    if key route ∉ among ∧ key route ∉ emitted then route :: missing key among (key route :: emitted) rest
    else missing key among emitted rest

/-- A route under the scope it is installed with. -/
def Route.wanted (scopes : Route → Bool) (r : Route) : Route := { r with scoped_ := scopes r }

/-- `diffRoutes`: what is to be added, and what is to be deleted. -/
def diffRoutes (desired actual : List Route) (scopes : Route → Bool) : List Route × List Route :=
  (sorted (missing (Route.wanted scopes) actual [] desired), sorted (missing id (desired.map (Route.wanted scopes)) [] actual))

/-- What one pass is told: the clock, the number of live sessions, the snapshot, what the underlay answers, which routes the platform
files under a scope, and which it does not take. -/
structure Answers where
  live : Nat
  snapshot : List (Sadr.Route FibTarget)
  ready : Covered
  scopes : Route → Bool
  skips : Route → Bool

/-- `DelRoute` of the platform. -/
def delRoute (kernel : List Route) (route : Route) : List Route := kernel.filter (· ≠ route)

/-- `AddRoute` of the platform: a route it does not take is skipped. -/
def addRoute (a : Answers) (kernel : List Route) (route : Route) : List Route :=
  if a.skips route then kernel else kernel ++ [route.wanted a.scopes]

namespace Reconciler

/-- `sampleCapture`. -/
def sampleCapture (r : Reconciler) (now : Int) (live : Nat) : Reconciler :=
  if !r.rt.sessions then { r with capture := true }
  else { r with gate := r.gate.sample now live, capture := (r.gate.sample now live).open_ }

/-- `covered`. -/
def covered (r : Reconciler) (ready : Covered) (desired : List Route) : List Route :=
  if !r.rt.capture ∨ !desired.any capturesTheMachine then desired
  else desired.filter fun route => !(capturesTheMachine route && !ready.has route.destination.addr)

/-- `applyRoutes`, where every call of the kernel succeeds. -/
def applyRoutes (r : Reconciler) (kernel : List Route) (a : Answers) : Reconciler × List Route :=
  let desired := r.covered a.ready (r.desired a.snapshot)
  let diff := diffRoutes desired kernel a.scopes
  ({ r with capturing := desired.any capturesTheMachine }, diff.1.foldl (addRoute a) (diff.2.foldl delRoute kernel))

/-- `reconcile`. -/
def reconcile (r : Reconciler) (kernel : List Route) (now : Int) (a : Answers) : Reconciler × List Route :=
  (r.sampleCapture now a.live).applyRoutes kernel a

/-- `captureDeadline`. -/
def captureDeadline (r : Reconciler) : Option Int := if !r.capturing then none else r.gate.deadline

end Reconciler

/-- A pass that ran: when, and how many sessions it found live. -/
structure Pass where
  at_ : Int
  live : Nat
deriving DecidableEq, Repr

/-- A machine with a running reconciler: the routes its kernel holds under the marker, the clock, the timer `grace` of `Run`, and the
passes made so far. -/
structure Machine where
  reconciler : Reconciler
  kernel : List Route
  now : Int
  running : Bool := true
  timer : Option Int := none
  passes : List Pass := []

namespace Machine

/-- A reconciler newly made, over the routes an earlier instance left. -/
def start (t : Table) (rt : Runtime) (kernel : List Route) (now : Int) : Machine :=
  { reconciler := newReconciler t rt, kernel := kernel, now := now }

/-- The routes after `withdraw`, which reads them back and deletes each. -/
def withdraw (kernel : List Route) : List Route := kernel.foldl delRoute kernel

/-- One turn of the loop of `Run`, up to its `select`. -/
def turn (s : Machine) (a : Answers) : Machine :=
  if !s.reconciler.enabled then
    if !s.reconciler.withdrawn then
      { s with kernel := withdraw s.kernel, reconciler := { s.reconciler with withdrawn := true }, timer := none }
    else s
  else
    let pass := { s.reconciler with withdrawn := false }.reconcile s.kernel s.now a
    { s with
      reconciler := pass.1
      kernel := pass.2
      timer := pass.1.captureDeadline
      passes := ⟨s.now, a.live⟩ :: s.passes }

/-- A step of the machine. A turn may be made at any time, for the timer or for any other wake-up; a route may leave the kernel by
another hand. With `woken` the clock never passes the timer before a turn is made. -/
inductive Step (woken : Bool) : Machine → Machine → Prop
  | turn {s : Machine} (hrunning : s.running = true) (a : Answers) : Step woken s (s.turn a)
  | setEnabled {s : Machine} (on : Bool) : Step woken s { s with reconciler := { s.reconciler with enabled := on } }
  | advance {s : Machine} {t : Int} (hle : s.now ≤ t) (hwoken : woken = true → ∀ at_, s.timer = some at_ → t ≤ at_) :
      Step woken s { s with now := t }
  | lose {s : Machine} {kernel : List Route} (hsub : kernel ⊆ s.kernel) : Step woken s { s with kernel := kernel }
  | cancel {s : Machine} (hrunning : s.running = true) :
      Step woken s { s with kernel := withdraw s.kernel, running := false, timer := none }

end Machine
end Kernel
end RanetLite
