import RanetLite.Babel.Batch
import RanetLite.Babel.RouteTable
import RanetLite.Babel.Routes

/-!
# The speaker

`internal/babel/speaker.go`: the state `Speaker.mu` guards, the registration of peers, the originated set and the tables of seqno
requests. Neighbors live on a heap, because a retired one is still named by packets in flight. State that only bounds the log is
left out, and the clock does not move inside one operation.
-/

namespace RanetLite.Babel

open Netip

/-- `pendingSeqno`. -/
structure PendingSeqno where
  seqno : UInt16
  sentAt : Time
  asker : String
deriving DecidableEq, Repr

/-- `askedKey`. -/
structure AskedKey where
  source : SourceKey
  neighbor : NeighborRef
deriving DecidableEq, Repr

/-- `starveRetry`. -/
structure StarveRetry where
  key : RouteKey
  routerID : RouterID
  seqno : UInt16
  attempts : Nat := 0
  nextAt : Time
  asker : String
deriving DecidableEq, Repr

/-- `lostUndo`. -/
structure LostUndo where
  neighbor : NeighborRef
  undo : TlvUndo
deriving DecidableEq, Repr

def seqnoRequestSuppress : Duration := 2 * second
def maxPendingSeqno : Nat := 2 ^ 12
def maxPendingSeqnoPerNeighbor : Nat := 2 ^ 10
def maxStarveRetries : Nat := 2 ^ 12
def maxStarveRetriesPerNeighbor : Nat := 2 ^ 10
def seqnoRequestHopCount : UInt8 := 64
def seqnoRequestRetries : Nat := 4
def seqnoRetryInitial : Duration := 3 * second

/-- The fields of `Speaker` that `New` settles. -/
structure Settings where
  hello : Duration
  update : Duration
  cost : CostParams
  routerID : RouterID
  linkLocal : Addr
  packetSize : Nat
  noTransit : Bool
  damp : Damping

/-- `Speaker`. -/
structure Speaker where
  cfg : Settings
  heap : NeighborHeap
  nextRef : NeighborRef := 0
  neighbors : GoMap String NeighborRef := ∅
  originate : GoSet RouteKey := ∅
  routes : RouteTable
  pendingSeqno : GoMap SourceKey PendingSeqno := ∅
  pendingByAsker : GoMap String Nat := ∅
  askedSeqno : GoMap AskedKey Time := ∅
  starveRetries : GoMap SourceKey StarveRetry := ∅
  starveBy : GoMap String Nat := ∅
  originSeqno : UInt16 := 1
  raisedSeqno : Bool := false
  updatePending : Bool := false
  woken : Bool := false
  lost : List LostUndo := []
  lostWoke : Time := 0
  nextHello : Time := 0
  nextUpdate : Time := 0
  sleepUntil : Time := 0
  nextRequestSweep : Time := 0
  passes : Nat := 0
  retryAt : Time := 0
  nextStarveRetry : Time := 0

/-- `Runtime`: the router id, the address and the packet size, zero where the caller left one out. -/
structure Runtime where
  routerID : RouterID := 0
  linkLocalAddr : Addr := .zero
  packetSize : Nat := 0
deriving DecidableEq

/-- `Routes`, the `cap.route` capability. -/
structure Routes where
  announce : List Announce := []
  transit : Option Bool := none

/-- `Transits`: on unless the file says otherwise. -/
def Routes.transits (r : Routes) : Bool := r.transit.getD true

/-- Why `New` refuses. -/
inductive NewError where
  | config (e : ConfigError)
  | routes (e : RoutesError)
  | localAddress
  | packetSize
deriving DecidableEq

/-- An unzoned IPv6 link-local address, as `resolve` asks for. -/
def isLinkLocal (a : Addr) : Bool := a.is6 && a.isLinkLocalUnicast && a.zone == ""

/-- `Runtime.resolve`, with the router id and the address it would draw. -/
def Runtime.resolve (r drawn : Runtime) : Except NewError Runtime :=
  let r := { r with
    routerID := if r.routerID = 0 then drawn.routerID else r.routerID
    linkLocalAddr := if r.linkLocalAddr.isValid then r.linkLocalAddr else drawn.linkLocalAddr
    packetSize := if r.packetSize = 0 then 1400 - 40 - 8 else r.packetSize }
  if !isLinkLocal r.linkLocalAddr then .error .localAddress
  else if r.packetSize < 63 ∨ 65535 - 8 < r.packetSize then .error .packetSize
  else .ok r

namespace Speaker

/-- A write through a neighbor pointer. -/
def modify (s : Speaker) (n : NeighborRef) (f : NeighborState → NeighborState) : Speaker :=
  { s with heap := Function.update s.heap n (f (s.heap n)) }

/-- The neighbors a `range` over `s.neighbors` visits. -/
def registered (s : Speaker) : List NeighborRef := s.neighbors.entries.map (·.2)

/-- `wake`. -/
def wake (s : Speaker) : Speaker := { s with woken := true }

/-- `adoptOriginatedLocked`: what was learned of the prefix goes, and it is held unreachable. -/
def adoptOriginated (s : Speaker) (key : RouteKey) : Speaker :=
  { s with routes := { s.routes with
    entries := s.routes.entries.erase key, fib := s.routes.fib.set key.source key.dest .unreachable } }

/-- `releaseOriginatedLocked`. -/
def releaseOriginated (s : Speaker) (key : RouteKey) : Speaker :=
  { s with routes := { s.routes with fib := s.routes.fib.remove key.source key.dest } }

/-- `OriginateFrom`. -/
def originateFrom (s : Speaker) (dest source : Prefix) : Speaker :=
  match originatedKey dest source with
  | none => s
  | some key =>
    let s := { s with originate := s.originate.insert key () }.adoptOriginated key
    { s with updatePending := true }.wake

/-- The keys a list of announcements names, each once. -/
def wantedKeys (routes : List Announce) : GoSet RouteKey :=
  routes.foldl (fun wanted r => match originatedKey r.destination r.source with
    | none => wanted
    | some key => wanted.insert key ()) ∅

/-- `SetOriginated`. -/
def setOriginated (s : Speaker) (routes : List Announce) : Speaker :=
  let wanted := wantedKeys routes
  let gone := s.originate.keys.filter (· ∉ wanted)
  if wanted.keys.length = s.originate.keys.length ∧ gone = [] then s
  else
    let s := gone.foldl releaseOriginated s
    let s := wanted.keys.foldl adoptOriginated { s with originate := wanted }
    { s with updatePending := true }.wake

/-- The speaker of settled fields, before it has announced anything. -/
def empty (cfg : Settings) : Speaker :=
  { cfg := cfg, heap := fun _ => { peer := ⟨0, ""⟩ }
    routes := { tau := 3 * cfg.hello, trigger := cfg.cost.rxCost, cost := cfg.cost, damp := cfg.damp } }

/-- The settled fields of a configuration. -/
def settings (cfg : Config) (routes : Routes) (rt : Runtime) (damp : Damping) : Settings :=
  { hello := cfg.helloInterval, update := cfg.updateInterval, cost := cfg.costEffective, routerID := rt.routerID
    linkLocal := rt.linkLocalAddr, packetSize := rt.packetSize, noTransit := !routes.transits, damp := damp }

/-- `New`. -/
def new (cfg : Config) (routes : Routes) (rt drawn : Runtime) (damp : Damping) : Except NewError Speaker :=
  match cfg.validate with
  | some e => .error (.config e)
  | none =>
    match validateRoutes routes.announce with
    | some e => .error (.routes e)
    | none =>
      match rt.resolve drawn with
      | .error e => .error e
      | .ok rt => .ok ((empty (settings cfg routes rt damp)).setOriginated routes.announce)

/-- `AddPeer`: the registration replaces one of the same name, whose routes go first. -/
def addPeer (s : Speaker) (peer : Peer) (now : Time) : Speaker × NeighborRef :=
  let s := match s.neighbors.lookup peer.id with
    | some old => { s with routes := s.routes.expireNeighbor s.heap old now }
    | none => s
  let n := s.nextRef
  ({ s with
      heap := Function.update s.heap n { peer := peer }, nextRef := n + 1
      neighbors := s.neighbors.insert peer.id n, updatePending := true }.wake, n)

/-- `removePeer`: a stale handle changes nothing. -/
def removePeer (s : Speaker) (n : NeighborRef) (now : Time) : Speaker :=
  if s.neighbors.lookup (s.heap n).peer.id ≠ some n then s
  else
    { s with
      neighbors := s.neighbors.erase (s.heap n).peer.id
      askedSeqno := (s.askedSeqno.keys.filter fun index : AskedKey => index.neighbor = n).foldl (fun m index => m.erase index) s.askedSeqno
      routes := s.routes.expireNeighbor s.heap n now }.wake

/-- `sendRetryInterval`. -/
def sendRetryInterval (s : Speaker) : Duration := max (s.cfg.hello / 4) millisecond

/-- `noteSendRetryLocked`. -/
def noteSendRetry (s : Speaker) (now : Time) : Speaker :=
  { s with retryAt := earlier s.retryAt (now + s.sendRetryInterval) }

/-- `noteRequestSweep`. -/
def noteRequestSweep (s : Speaker) (at_ : Time) : Speaker :=
  { s with nextRequestSweep := earlier s.nextRequestSweep (at_ + seqnoRequestSuppress) }

/-- `releaseSeqnoRequest`. -/
def releaseSeqnoRequest (s : Speaker) (entry : PendingSeqno) : Speaker :=
  { s with pendingByAsker := decrement s.pendingByAsker entry.asker }

/-- `recordSeqnoRequest`. -/
def recordSeqnoRequest (s : Speaker) (index : SourceKey) (seqno : UInt16) (asker : String) (now : Time) : Speaker :=
  let s := match s.pendingSeqno.lookup index with
    | some previous => s.releaseSeqnoRequest previous
    | none => s
  { s with
    pendingSeqno := s.pendingSeqno.insert index ⟨seqno, now, asker⟩
    pendingByAsker := increment s.pendingByAsker asker }.noteRequestSweep now

/-- A request is redundant while a recent one for the same source carried a seqno that is no smaller. -/
def redundantRequest (s : Speaker) (index : SourceKey) (seqno : UInt16) (now : Time) : Bool :=
  match s.pendingSeqno.lookup index with
  | some pending => decide (now < pending.sentAt + seqnoRequestSuppress) && !seqnoGT seqno pending.seqno
  | none => false

/-- `allowSeqnoRequest`. -/
def allowSeqnoRequest (s : Speaker) (index : SourceKey) (seqno : UInt16) (asker : String) (now : Time) : Speaker × Bool :=
  let known := s.pendingSeqno.lookup index
  if s.redundantRequest index seqno now then (s, false)
  else if maxPendingSeqnoPerNeighbor ≤ counter s.pendingByAsker asker ∧ known.map (·.asker) ≠ some asker then (s, false)
  else if known = none ∧ maxPendingSeqno ≤ s.pendingSeqno.keys.length then (s, false)
  else (s.recordSeqnoRequest index seqno asker now, true)

/-- One suppression window of `sweepRequestsLocked`. -/
def sweepPending (now : Time) (s : Speaker) (index : SourceKey) : Speaker :=
  match s.pendingSeqno.lookup index with
  | none => s
  | some pending =>
    if pending.sentAt + seqnoRequestSuppress ≤ now then
      { s.releaseSeqnoRequest pending with pendingSeqno := s.pendingSeqno.erase index }
    else s.noteRequestSweep pending.sentAt

/-- One window of a request this node asked, in `sweepRequestsLocked`. -/
def sweepAsked (now : Time) (s : Speaker) (index : AskedKey) : Speaker :=
  match s.askedSeqno.lookup index with
  | none => s
  | some at_ =>
    if at_ + seqnoRequestSuppress ≤ now then { s with askedSeqno := s.askedSeqno.erase index } else s.noteRequestSweep at_

/-- `sweepRequestsLocked`. -/
def sweepRequests (s : Speaker) (now : Time) : Speaker :=
  let s := s.pendingSeqno.keys.foldl (sweepPending now) { s with nextRequestSweep := 0 }
  s.askedSeqno.keys.foldl (sweepAsked now) s

/-- `allowAsk`. -/
def allowAsk (s : Speaker) (n : NeighborRef) (key : RouteKey) (routerID : RouterID) (now : Time) : Speaker × Bool :=
  let index : AskedKey := ⟨⟨key, routerID⟩, n⟩
  if ((s.askedSeqno.lookup index).map fun at_ => decide (now < at_ + seqnoRequestSuppress)) = some true then (s, false)
  else ({ s with askedSeqno := s.askedSeqno.insert index now }.noteRequestSweep now, true)

/-- `rememberStarved`. -/
def rememberStarved (s : Speaker) (key : RouteKey) (routerID : RouterID) (seqno : UInt16) (asker : String) (now : Time) :
    Speaker :=
  let id : SourceKey := ⟨key, routerID⟩
  let nextAt := now + seqnoRetryInitial
  match s.starveRetries.lookup id with
  | some retry =>
    { s with
      starveRetries := s.starveRetries.insert id { retry with seqno := seqno, nextAt := nextAt }
      nextStarveRetry := earlier s.nextStarveRetry nextAt }
  | none =>
    if maxStarveRetries ≤ s.starveRetries.keys.length ∨ maxStarveRetriesPerNeighbor ≤ counter s.starveBy asker then s
    else
      { s with
        starveRetries := s.starveRetries.insert id
          { key := key, routerID := routerID, seqno := seqno, nextAt := nextAt, asker := asker }
        nextStarveRetry := earlier s.nextStarveRetry nextAt
        starveBy := increment s.starveBy asker }

/-- `forgetStarved`. -/
def forgetStarved (s : Speaker) (id : SourceKey) (retry : StarveRetry) : Speaker :=
  { s with starveRetries := s.starveRetries.erase id, starveBy := decrement s.starveBy retry.asker }

/-- `pendingWorkLocked`. -/
def pendingWork (s : Speaker) : Bool :=
  s.updatePending || !s.routes.dirty.keys.isEmpty || !s.routes.starved.isEmpty

/-- The deadlines one neighbor adds in `deadlineLocked`. -/
def neighborDeadline (deadline : Time) (n : NeighborState) : Time :=
  let deadline :=
    if n.alive then
      let deadline := earlier deadline n.helloExpiry
      if n.nextHelloDue ≠ 0 then earlier deadline n.nextHelloDue else deadline
    else deadline
  let deadline := if n.haveReportedCost then earlier deadline n.ihuExpiry else deadline
  if n.haveRTT then earlier deadline n.rttExpiry else deadline

/-- `deadlineLocked`. -/
def deadline (s : Speaker) : Time :=
  let deadline := earlier (earlier s.nextHello s.nextUpdate) s.routes.nextExpiryAt
  let deadline := earlier (earlier deadline s.nextStarveRetry) s.retryAt
  let deadline := earlier deadline s.nextRequestSweep
  s.registered.foldl (fun deadline n => neighborDeadline deadline (s.heap n)) deadline

/-- `wakeForPacketLocked`. -/
def wakeForPacket (s : Speaker) : Speaker :=
  if s.pendingWork || s.sleepUntil = 0 || s.deadline < s.sleepUntil then s.wake else s

/-- `sweepExpiredLocked`. -/
def sweepExpired (s : Speaker) (now : Time) : Speaker :=
  let s := s.registered.foldl (fun s n => s.modify n (·.sweep now)) s
  { s with routes := s.routes.sweepExpired s.heap now }.sweepRequests now

end Speaker
end RanetLite.Babel
