import Mathlib.Data.Rat.Defs
import Mathlib.Algebra.Order.Ring.Rat
import RanetLite.Babel.Neighbor
import RanetLite.Sadr.Table

/-!
# The route table and the source table

`internal/babel/route.go` and `source.go`. The callbacks `install` and `forget` write the forwarding table, which is kept here beside
the entries. The table reads the state of neighbors and never writes it: each function takes the heap of neighbors it reads.

The smoothed metric is a 64-bit float in the source. Here it is rational, and the decay of it is whatever `damp` answers; selection
compares what comes out and nothing else depends on it. Warnings that are logged once leave no state.
-/

namespace RanetLite.Babel

open Netip

/-- `advertisement`. -/
structure Advertisement where
  routerID : RouterID := 0
  seqno : UInt16 := 0
  metric : UInt16 := 0
deriving DecidableEq, Repr

/-- `routeInfo`. -/
structure RouteInfo where
  routerID : RouterID := 0
  seqno : UInt16 := 0
  rxMetric : UInt16 := 0
  hold : Duration := 0
  expiresAt : Time := 0
  smoothed : ℚ := 0
  smoothedAt : Time := 0
deriving DecidableEq

/-- `routeSelection`. -/
structure RouteSelection where
  neighbor : Option NeighborRef := none
  cost : UInt16 := 0
  routerID : RouterID := 0
  seqno : UInt16 := 0
deriving DecidableEq, Repr

/-- `keyEntry`. The last field is not in the source: whether a route of this entry was ever selected. Nothing reads it; it is what a
held prefix is told apart by. -/
structure KeyEntry where
  routes : GoMap NeighborRef RouteInfo := ∅
  selected : RouteSelection := {}
  retractID : RouterID := 0
  retractSeqno : UInt16 := 0
  onceSelected : Bool := false

/-- `sourceKey`. -/
structure SourceKey where
  route : RouteKey
  routerID : RouterID
deriving DecidableEq, Repr

/-- `sourceEntry`. -/
structure SourceEntry where
  seqno : UInt16
  metric : UInt16
  gcAt : Time := 0
  owner : String
deriving DecidableEq, Repr

/-- `originShare`. -/
structure OriginShare where
  route : RouteKey
  peer : String
deriving DecidableEq, Repr

/-- `starveRequest`. -/
structure StarveRequest where
  key : RouteKey
  neighbor : NeighborRef
  routerID : RouterID
  seqno : UInt16
deriving DecidableEq, Repr

/-- What a forwarding entry points at: a peer, or `netstack.Unreachable`. -/
inductive FibTarget where
  | peer (p : Peer)
  | unreachable
deriving DecidableEq, Repr

def maxRouteKeys : Nat := 16384
def sourceGCTime : Duration := 180 * second
def maxSources : Nat := 2 ^ 16
def maxOriginsPerPrefix : Nat := 2 ^ 10
def maxOriginsPerPrefixPerNeighbor : Nat := 2 ^ 8
def maxSourcesPerNeighbor : Nat := 2 ^ 13

/-- The damped value of a smoothed metric: the cost, the smoothed metric, the time since it was smoothed and the time constant. -/
abbrev Damping := UInt16 → ℚ → Duration → Duration → ℚ

/-- `routeTable`, with the forwarding table its callbacks write. -/
structure RouteTable where
  entries : GoMap RouteKey KeyEntry := ∅
  sources : GoMap SourceKey SourceEntry := ∅
  retracted : GoSet NeighborRef := ∅
  originsPerKey : GoMap RouteKey Nat := ∅
  originsBy : GoMap OriginShare Nat := ∅
  sourcesByPeer : GoMap String Nat := ∅
  dirty : GoSet RouteKey := ∅
  starved : List StarveRequest := []
  tau : Duration
  trigger : UInt16
  cost : CostParams
  damp : Damping
  nextExpiryAt : Time := 0
  fib : Sadr.Table FibTarget := {}

/-- The heap of neighbors, as the route table reads it. -/
abbrev NeighborHeap := NeighborRef → NeighborState

/-- `seqnoGT`: sequence numbers wrap at 16 bits. -/
def seqnoGT (a b : UInt16) : Bool := 0 < (a - b).toNat && (a - b).toNat < 2 ^ 15

/-- A counter of a quota, zero when it has no entry. -/
def counter {K : Type} [DecidableEq K] (m : GoMap K Nat) (k : K) : Nat := (m.lookup k).getD 0

/-- `m[k]++`. -/
def increment {K : Type} [DecidableEq K] (m : GoMap K Nat) (k : K) : GoMap K Nat := m.insert k (counter m k + 1)

/-- A counter given back: an entry that reaches zero is dropped. -/
def decrement {K : Type} [DecidableEq K] (m : GoMap K Nat) (k : K) : GoMap K Nat :=
  if counter m k ≤ 1 then m.erase k else m.insert k (counter m k - 1)

/-- `better`. -/
def SourceEntry.better (e : SourceEntry) (seqno metric : UInt16) : Bool :=
  seqnoGT seqno e.seqno || (seqno = e.seqno && metric < e.metric)

/-- `advertised`. -/
def RouteInfo.advertised (r : RouteInfo) : Advertisement := ⟨r.routerID, r.seqno, r.rxMetric⟩

/-- `cost`: the link cost is clamped to one. -/
def RouteInfo.cost (r : RouteInfo) (n : NeighborState) (now : Time) (cost : CostParams) : UInt16 :=
  saturatingAdd (max 1 (n.linkCost now cost)) r.rxMetric

/-- `smooth`. -/
def RouteInfo.smooth (r : RouteInfo) (cost : UInt16) (now : Time) (tau : Duration) (damp : Damping) : RouteInfo :=
  let c : ℚ := cost.toNat
  let elapsed := now - r.smoothedAt
  let smoothed :=
    if r.smoothedAt = 0 ∨ tau ≤ 0 ∨ r.smoothed ≤ c then c
    else if 0 < elapsed then damp cost r.smoothed elapsed tau
    else r.smoothed
  { r with smoothed := max smoothed c, smoothedAt := now }

/-- A route in `selectRoute`: one past its expiry goes to infinity first and is flushed by the next expiry. -/
def RouteInfo.age (r : RouteInfo) (now : Time) : Option RouteInfo :=
  if now < r.expiresAt then some r
  else if r.rxMetric = metricInfinity then none
  else some { r with rxMetric := metricInfinity, expiresAt := now + r.hold }

/-- `selectionFor`. -/
def KeyEntry.selectionFor (entry : KeyEntry) (n : NeighborRef) (cost : UInt16) : RouteSelection :=
  let route := (entry.routes.lookup n).getD {}
  { neighbor := some n, cost := cost, routerID := route.routerID, seqno := route.seqno }

namespace RouteTable

/-- `feasible`: a distance never recorded is feasible while the quotas have room. -/
def feasible (rt : RouteTable) (key : RouteKey) (adv : Advertisement) (from_ : String) : Bool :=
  if adv.metric = metricInfinity then true
  else match rt.sources.lookup ⟨key, adv.routerID⟩ with
    | none => rt.sources.keys.length < maxSources && counter rt.originsPerKey key < maxOriginsPerPrefix &&
        counter rt.sourcesByPeer from_ < maxSourcesPerNeighbor &&
        counter rt.originsBy ⟨key, from_⟩ < maxOriginsPerPrefixPerNeighbor
    | some entry => entry.better adv.seqno adv.metric

/-- `releaseOrigin`. -/
def releaseOrigin (rt : RouteTable) (key : RouteKey) (owner : String) : RouteTable :=
  { rt with originsBy := decrement rt.originsBy ⟨key, owner⟩, sourcesByPeer := decrement rt.sourcesByPeer owner }

/-- The share of a new origin, or of one taken over. -/
def chargeOrigin (rt : RouteTable) (key : RouteKey) (owner : String) : RouteTable :=
  { rt with originsBy := increment rt.originsBy ⟨key, owner⟩, sourcesByPeer := increment rt.sourcesByPeer owner }

/-- `observe`. -/
def observe (rt : RouteTable) (key : RouteKey) (adv : Advertisement) (from_ : String) (now : Time) : RouteTable :=
  if adv.metric = metricInfinity then rt
  else
    let index : SourceKey := ⟨key, adv.routerID⟩
    match rt.sources.lookup index with
    | none =>
      let rt := { rt with originsPerKey := increment rt.originsPerKey key }.chargeOrigin key from_
      { rt with sources := rt.sources.insert index ⟨adv.seqno, adv.metric, now + sourceGCTime, from_⟩ }
    | some entry =>
      let entry := if entry.better adv.seqno adv.metric then { entry with seqno := adv.seqno, metric := adv.metric } else entry
      let rt := if entry.owner ≠ from_ then (rt.releaseOrigin key entry.owner).chargeOrigin key from_ else rt
      { rt with sources := rt.sources.insert index { entry with owner := from_, gcAt := now + sourceGCTime } }

/-- `requestSeqno`. -/
def requestSeqno (rt : RouteTable) (key : RouteKey) (adv : Advertisement) : UInt16 :=
  match rt.sources.lookup ⟨key, adv.routerID⟩ with
  | some entry => entry.seqno + 1
  | none => adv.seqno + 1

/-- One entry of `sweepSources`. -/
def sweepSource (now : Time) (rt : RouteTable) (index : SourceKey) : RouteTable :=
  match rt.sources.lookup index with
  | none => rt
  | some entry =>
    if now < entry.gcAt then rt
    else
      { rt with
        sources := rt.sources.erase index
        originsPerKey := decrement rt.originsPerKey index.route }.releaseOrigin index.route entry.owner

/-- `sweepSources`. -/
def sweepSources (rt : RouteTable) (now : Time) : RouteTable := rt.sources.keys.foldl (sweepSource now) rt

/-- `starve`. -/
def starve (rt : RouteTable) (key : RouteKey) (n : NeighborRef) (adv : Advertisement) : RouteTable :=
  { rt with starved := rt.starved ++ [⟨key, n, adv.routerID, rt.requestSeqno key adv⟩] }

/-- A key whose advertisement changed. -/
def markDirty (rt : RouteTable) (key : RouteKey) : RouteTable := { rt with dirty := rt.dirty.insert key () }

/-- `significant`: whether a selection change earns a triggered update. -/
def significant (rt : RouteTable) (old new : RouteSelection) : Bool :=
  if old.neighbor.isNone != new.neighbor.isNone then true
  else if new.neighbor.isNone then false
  else if old.neighbor ≠ new.neighbor ∨ old.routerID ≠ new.routerID ∨ old.seqno ≠ new.seqno then true
  else old.cost < new.cost && decide (rt.trigger.toNat ≤ new.cost.toNat - old.cost.toNat)

/-- `installRoute`, the forwarding half: a prefix with no selection is held unreachable. -/
def install (rt : RouteTable) (nb : NeighborHeap) (key : RouteKey) (sel : RouteSelection) : RouteTable :=
  let target := match sel.neighbor with
    | some n => .peer (nb n).peer
    | none => .unreachable
  { rt with fib := rt.fib.set key.source key.dest target }

/-- `flush`: the forwarding entry goes with the route table's. -/
def flush (rt : RouteTable) (key : RouteKey) : RouteTable := { rt with fib := rt.fib.remove key.source key.dest }

end RouteTable

/-- A route that `selectRoute` may choose. -/
structure Candidate where
  neighbor : NeighborRef
  cost : UInt16
  smoothed : ℚ

/-- The loop state of `selectRoute`. -/
structure Scan where
  routes : GoMap NeighborRef RouteInfo
  nextExpiryAt : Time
  best : Option Candidate := none
  incumbent : Option Candidate := none
  unfeasible : List NeighborRef := []

/-- The better of the best so far and a candidate: ties are broken by peer id. -/
def prefer (nb : NeighborHeap) (best : Option Candidate) (c : Candidate) : Option Candidate :=
  match best with
  | none => some c
  | some b =>
    if c.cost < b.cost ∨ (c.cost = b.cost ∧ (nb c.neighbor).peer.id < (nb b.neighbor).peer.id) then some c else some b

/-- A feasible route is compared with the best so far, and is the incumbent if it is the one selected. -/
def Scan.offer (sc : Scan) (nb : NeighborHeap) (selected : Option NeighborRef) (c : Candidate) : Scan :=
  { sc with
    incumbent := if selected = some c.neighbor then some c else sc.incumbent
    best := prefer nb sc.best c }

/-- The choice of `selectRoute`: the incumbent is left only for a challenger better on both metrics. -/
def Scan.choose (sc : Scan) : Option Candidate :=
  match sc.best, sc.incumbent with
  | none, _ => none
  | some b, none => some b
  | some b, some i =>
    if b.neighbor = i.neighbor then some b
    else if b.cost < i.cost ∧ b.smoothed < i.smoothed then some b
    else some i

/-- The selection made of an entry whose routes were scanned. -/
def Scan.select (sc : Scan) (scanned : KeyEntry) : RouteSelection :=
  match sc.choose with
  | none => {}
  | some c => scanned.selectionFor c.neighbor c.cost

namespace RouteTable

/-- One route in the loop of `selectRoute`. -/
def scanRoute (rt : RouteTable) (nb : NeighborHeap) (key : RouteKey) (selected : Option NeighborRef) (now : Time)
    (sc : Scan) (n : NeighborRef) : Scan :=
  match (sc.routes.lookup n).map (·.age now) with
  | none => sc
  | some none => { sc with routes := sc.routes.erase n }
  | some (some route) =>
    let expiry := earlier sc.nextExpiryAt route.expiresAt
    let cost := route.cost (nb n) now rt.cost
    if cost = metricInfinity then { sc with routes := sc.routes.insert n route, nextExpiryAt := expiry }
    else
      let route := route.smooth cost now rt.tau rt.damp
      let sc := { sc with routes := sc.routes.insert n route, nextExpiryAt := expiry }
      if rt.feasible key route.advertised (nb n).peer.id then sc.offer nb selected ⟨n, cost, route.smoothed⟩
      else { sc with unfeasible := sc.unfeasible ++ [n] }

/-- The loop of `selectRoute`. -/
def scan (rt : RouteTable) (nb : NeighborHeap) (key : RouteKey) (entry : KeyEntry) (now : Time) : Scan :=
  entry.routes.keys.foldl (rt.scanRoute nb key entry.selected.neighbor now)
    { routes := entry.routes, nextExpiryAt := rt.nextExpiryAt }

/-- An entry with its selection, and the origin a later retraction names. -/
def selectEntry (entry : KeyEntry) (selected : RouteSelection) : KeyEntry :=
  if selected.neighbor.isSome then
    { entry with
      selected := selected, retractID := selected.routerID, retractSeqno := selected.seqno, onceSelected := true }
  else { entry with selected := selected }

/-- The end of `selectRoute`: an entry with no route left is flushed. -/
def storeEntry (rt : RouteTable) (key : RouteKey) (entry : KeyEntry) : RouteTable :=
  if entry.routes.keys.isEmpty then ({ rt with entries := rt.entries.erase key }.markDirty key).flush key
  else { rt with entries := rt.entries.insert key entry }

/-- A changed next hop is installed, and a change worth a triggered update is marked. -/
def publish (rt : RouteTable) (nb : NeighborHeap) (key : RouteKey) (previous selected : RouteSelection) : RouteTable :=
  let rt := if selected.neighbor ≠ previous.neighbor then rt.install nb key selected else rt
  if rt.significant previous selected then rt.markDirty key else rt

/-- The requests of a key that has lost its last feasible route while unfeasible ones remain. -/
def starveAll (rt : RouteTable) (key : RouteKey) (entry : KeyEntry) (unfeasible : List NeighborRef) : RouteTable :=
  unfeasible.foldl (fun rt n => rt.starve key n ((entry.routes.lookup n).getD {}).advertised) rt

/-- `selectRoute`. -/
def selectRoute (rt : RouteTable) (nb : NeighborHeap) (key : RouteKey) (entry : KeyEntry) (now : Time) : RouteTable :=
  let sc := rt.scan nb key entry now
  let scanned := { entry with routes := sc.routes }
  let selected := sc.select scanned
  let rt := { rt with nextExpiryAt := sc.nextExpiryAt }.publish nb key entry.selected selected
  let rt :=
    if selected.neighbor.isNone ∧ entry.selected.neighbor.isSome then rt.starveAll key scanned sc.unfeasible else rt
  rt.storeEntry key (selectEntry scanned selected)

/-- The route `update` stores. The hold of a retraction starts when the route is retracted, and runs for the interval of the update
it replaces. -/
def acquired (route : RouteInfo) (adv : Advertisement) (hold : Duration) (now : Time) : RouteInfo :=
  let retracting := adv.metric = metricInfinity ∧ route.rxMetric ≠ metricInfinity
  let stored := { route with routerID := adv.routerID, seqno := adv.seqno, rxMetric := adv.metric }
  if adv.metric ≠ metricInfinity then { stored with hold := hold, expiresAt := now + hold }
  else if retracting ∧ 0 < route.hold then { stored with expiresAt := now + route.hold }
  else stored

/-- The second half of `update`, once the route to write is known. -/
def acquire (rt : RouteTable) (nb : NeighborHeap) (n : NeighborRef) (key : RouteKey) (entry : KeyEntry) (route : RouteInfo)
    (adv : Advertisement) (hold : Duration) (now : Time) : RouteTable :=
  let rt :=
    if !rt.feasible key adv (nb n).peer.id && entry.selected.neighbor = some n then rt.starve key n adv else rt
  rt.selectRoute nb key { entry with routes := entry.routes.insert n (acquired route adv hold now) } now

/-- `forgetRetraction`. -/
def forgetRetraction (rt : RouteTable) (n : NeighborRef) : RouteTable := { rt with retracted := rt.retracted.erase n }

/-- `update`: an unfeasible update, a retraction and one that expires on arrival create nothing. -/
def update (rt : RouteTable) (nb : NeighborHeap) (n : NeighborRef) (key : RouteKey) (adv : Advertisement) (hold : Duration)
    (now : Time) : RouteTable :=
  let rt := if adv.metric ≠ metricInfinity then rt.forgetRetraction n else rt
  let creates := rt.feasible key adv (nb n).peer.id && adv.metric ≠ metricInfinity && decide (0 < hold)
  match rt.entries.lookup key with
  | none =>
    if creates && rt.entries.keys.length < maxRouteKeys then rt.acquire nb n key {} {} adv hold now else rt
  | some entry =>
    match entry.routes.lookup n with
    | none => if creates then rt.acquire nb n key entry {} adv hold now else rt
    | some route => rt.acquire nb n key entry route adv hold now

/-- `route`. -/
def route (rt : RouteTable) (n : NeighborRef) (key : RouteKey) : Option RouteInfo :=
  (rt.entries.lookup key).bind (·.routes.lookup n)

/-- The selection of one key run again. -/
def reselect (nb : NeighborHeap) (now : Time) (rt : RouteTable) (key : RouteKey) : RouteTable :=
  match rt.entries.lookup key with
  | none => rt
  | some entry => rt.selectRoute nb key entry now

/-- `recomputeNeighbor`. -/
def recomputeNeighbor (rt : RouteTable) (nb : NeighborHeap) (n : NeighborRef) (now : Time) : RouteTable :=
  rt.entries.keys.foldl (fun rt key => if (rt.route n key).isSome then rt.reselect nb now key else rt) rt

/-- One key of `expireNeighbor`. -/
def expireRoute (nb : NeighborHeap) (n : NeighborRef) (now : Time) (rt : RouteTable) (key : RouteKey) : RouteTable :=
  match rt.entries.lookup key with
  | none => rt
  | some entry =>
    if n ∈ entry.routes then rt.selectRoute nb key { entry with routes := entry.routes.erase n } now else rt

/-- `expireNeighbor`. -/
def expireNeighbor (rt : RouteTable) (nb : NeighborHeap) (n : NeighborRef) (now : Time) : RouteTable :=
  rt.entries.keys.foldl (expireRoute nb n now) (rt.forgetRetraction n)

/-- A route taken to infinity by a wildcard retraction, its hold by the rule of `update`. -/
def retractedRoute (route : RouteInfo) (now : Time) : RouteInfo :=
  { route with
    rxMetric := metricInfinity
    expiresAt := if route.rxMetric ≠ metricInfinity ∧ 0 < route.hold then now + route.hold else route.expiresAt }

/-- One key of `retractNeighbor`. -/
def retractRoute (nb : NeighborHeap) (n : NeighborRef) (now : Time) (rt : RouteTable) (key : RouteKey) : RouteTable :=
  match rt.entries.lookup key with
  | none => rt
  | some entry =>
    match entry.routes.lookup n with
    | none => rt
    | some route =>
      rt.selectRoute nb key { entry with routes := entry.routes.insert n (retractedRoute route now) } now

/-- `retractNeighbor`. -/
def retractNeighbor (rt : RouteTable) (nb : NeighborHeap) (n : NeighborRef) (now : Time) : RouteTable :=
  if n ∈ rt.retracted then rt
  else rt.entries.keys.foldl (retractRoute nb n now) { rt with retracted := rt.retracted.insert n () }

/-- `sweepExpired`. -/
def sweepExpired (rt : RouteTable) (nb : NeighborHeap) (now : Time) : RouteTable :=
  (rt.entries.keys.foldl (reselect nb now) { rt with nextExpiryAt := 0 }).sweepSources now

/-- `takeDirty`. -/
def takeDirty (rt : RouteTable) : List RouteKey × RouteTable := (rt.dirty.keys, { rt with dirty := ∅ })

/-- `takeStarved`. -/
def takeStarved (rt : RouteTable) : List StarveRequest × RouteTable := (rt.starved, { rt with starved := [] })

end RouteTable
end RanetLite.Babel
