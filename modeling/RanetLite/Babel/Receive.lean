import RanetLite.Babel.Send

/-!
# Receiving packets, and the run loop

`internal/babel/receive.go`: what each TLV of a packet does to the speaker, and the packet as a whole. `Speaker.receive` starts at the
Babel payload and the sender's address, after the outer headers were checked. The body of the loop of `Run` in `speaker.go` is
`Speaker.pass`.
-/

namespace RanetLite.Babel

open Netip

def rttTimestampHorizon : Duration := 180 * second

/-- `microDelta`: the difference of two readings of a 32-bit microsecond clock. -/
def microDelta (b a : UInt32) : Duration := (b - a).toBitVec.toInt * microsecond

/-- `validTimestampGap`. -/
def validTimestampGap (gap : Duration) : Bool := 0 ≤ gap ∧ gap ≤ rttTimestampHorizon

/-- `uint32(now.UnixMicro())`. -/
def micros (now : Time) : UInt32 := UInt32.ofNat (now / microsecond).toNat

namespace NeighborState

/-- The promise a scheduled Hello makes about the next one. -/
def promised (n : NeighborState) (h : Hello) (now : Time) : NeighborState :=
  if h.interval = 0 then n
  else if h.unicast then { n with unicastHelloTime := now, unicastHelloInterval := centis h.interval }
  else
    { n with
      heard := true, lastHelloTime := now, helloInterval := centis h.interval
      nextHelloDue := now + (centis h.interval + centis h.interval / 2) }

/-- The history after a Hello; one past the window starts it again. -/
def recordHello (n : NeighborState) (h : Hello) : NeighborState :=
  if h.unicast then n
  else match n.multicastHistory.record h.seqno with
    | (true, history) => { n with multicastHistory := history }
    | (false, _) => { n with multicastHistory := (({} : HelloHistory).record h.seqno).2 }

/-- A Hello: `none` when it is unscheduled and no scheduled promise stands. -/
def hearHello (n : NeighborState) (h : Hello) (now : Time) : Option NeighborState :=
  if h.interval = 0 ∧ n.helloExpiry ≤ now then none
  else
    let n := ({ n with alive := true }.promised h now).recordHello h
    some (if h.hasTS then { n with theirHelloTxTS := h.txTS, theirHelloRxTS := micros now, haveTheirHello := true } else n)

/-- The round trip an IHU measures, with the transmit time of the Hello beside it. -/
def roundTrip (ihu : IHU) (helloTS : Option UInt32) (now : Time) : Option Duration :=
  match helloTS with
  | none => none
  | some tx =>
    let out := microDelta (micros now) ihu.originTS
    let back := microDelta tx ihu.receiveTS
    if ihu.hasTS ∧ validTimestampGap out ∧ validTimestampGap back ∧ 0 < out - back then some (out - back) else none

/-- An IHU that is for this node: `none` when its interval is zero. -/
def hearIHU (n : NeighborState) (ihu : IHU) (helloTS : Option UInt32) (now : Time) : Option NeighborState :=
  if ihu.interval = 0 then none
  else
    let expiry := now + deadTimeout (centis ihu.interval)
    let n := { n with reportedCost := ihu.rxCost, haveReportedCost := true, ihuExpiry := expiry }
    match roundTrip ihu helloTS now with
    | none => some n
    | some rtt =>
      let measured := if n.haveRTT then (836 * n.measuredRTT + 164 * rtt) / 1000 else rtt
      some { n with measuredRTT := measured, haveRTT := true, rttExpiry := expiry }

end NeighborState

namespace Speaker

/-- The advertisement an Update makes, when it is one to act on. A retraction without a router id keeps the origin of the route it
retracts; this node's own router id is a reflection. -/
def advertisementOf (s : Speaker) (n : NeighborRef) (key : RouteKey) (u : Update) (routerID : Option RouterID) :
    Option Advertisement :=
  match routerID with
  | some id => if id = s.cfg.routerID then none else some ⟨id, u.seqno, u.metric⟩
  | none =>
    if u.metric ≠ metricInfinity then none
    else match s.routes.route n key with
      | some route => some ⟨route.routerID, route.seqno, u.metric⟩
      | none => some ⟨0, u.seqno, u.metric⟩

/-- An Update for a key this node may learn. -/
def hearKey (s : Speaker) (n : NeighborRef) (key : RouteKey) (u : Update) (routerID : Option RouterID) (now : Time) : Speaker :=
  if key ∈ s.originate then s
  else match s.advertisementOf n key u routerID with
    | none => s
    | some adv =>
      { s with routes := s.routes.update s.heap n key adv (deadTimeout (centis u.interval)) now }

/-- The Update branch of `handlePacketLocked`. A retraction needs no next hop. -/
def hearUpdate (s : Speaker) (n : NeighborRef) (u : Update) (routerID : Option RouterID) (haveIPv4NextHop : Bool) (now : Time) :
    Speaker :=
  if u.ignore then s
  else if u.ae = aeWildcard then { s with routes := s.routes.retractNeighbor s.heap n now }
  else if u.ae = aeIPv4 ∧ !haveIPv4NextHop ∧ u.metric ≠ metricInfinity then s
  else match updateKey u with
    | none => s
    | some key => s.hearKey n key u routerID now

/-- The reply of one prefix, as `routeReply` and `sendTLVs` build it. -/
def replyFor (s : Speaker) (n : NeighborRef) (key : RouteKey) (now : Time) : Speaker × List SendAction :=
  let (s, tlvs, rollback) := s.advertiseTo n key true now 0
  if tlvs.isEmpty then (s, [])
  else (s, [{ neighbor := n, dest := (s.heap n).destination, priority := .request, tlvs := tlvs, rollback := rollback }])

/-- `routeReply`. A full dump is taken at most once in an update interval. -/
def routeReply (s : Speaker) (n : NeighborRef) (request : RouteRequest) (now : Time) : Speaker × List SendAction :=
  if request.ae = aeWildcard then
    if (s.heap n).lastFullDump ≠ 0 ∧ now - (s.heap n).lastFullDump < s.cfg.update then (s, [])
    else
      let s := s.modify n fun st => { st with lastFullDump := now }
      let (s, tlvs, rollback) := s.dumpFor n s.advertisableKeys now
      if tlvs.isEmpty then (s, [])
      else (s, [{ neighbor := n, dest := (s.heap n).destination, priority := .request, tlvs := tlvs, rollback := rollback }])
  else s.replyFor n ⟨request.sourcePrefix, request.dest⟩ now

/-- The raise of the origin seqno in `seqnoReply`: at most one for a packet, and everything originated is due again. -/
def raiseSeqno (s : Speaker) (request : SeqnoRequest) : Speaker :=
  if request.routerID = s.cfg.routerID ∧ seqnoGT request.seqno s.originSeqno ∧ !s.raisedSeqno then
    let s := { s with raisedSeqno := true, originSeqno := s.originSeqno + 1 }
    { s with routes := s.originate.keys.foldl RouteTable.markDirty s.routes }
  else s

/-- One candidate of `forwardTarget`, the smaller peer id first. -/
def preferTarget (s : Speaker) (best : Option NeighborRef) (n : NeighborRef) : Option NeighborRef :=
  match best with
  | none => some n
  | some b => if (s.heap n).peer.id < (s.heap b).peer.id then some n else some b

/-- `forwardTarget`. -/
def forwardTarget (s : Speaker) (key : RouteKey) (from_ : NeighborRef) : Option NeighborRef :=
  match s.routes.entries.lookup key with
  | none => none
  | some entry =>
    if entry.selected.neighbor ≠ none ∧ entry.selected.neighbor ≠ some from_ then entry.selected.neighbor
    else
      let finite := entry.routes.entries.filter fun r => r.1 ≠ from_ ∧ r.2.rxMetric ≠ metricInfinity
      let (feasible, unfeasible) := finite.partition fun r =>
        s.routes.feasible key r.2.advertised (s.heap r.1).peer.id
      ((feasible.map (·.1)).foldl s.preferTarget none).or ((unfeasible.map (·.1)).foldl s.preferTarget none)

/-- Whether the selected route satisfies a seqno request of a neighbor that is not its next hop. -/
def satisfies (s : Speaker) (n : NeighborRef) (key : RouteKey) (request : SeqnoRequest) : Bool :=
  match s.routes.entries.lookup key with
  | none => false
  | some entry =>
    let sel := entry.selected
    sel.neighbor.isSome && sel.neighbor ≠ some n && (sel.routerID ≠ request.routerID || !seqnoGT request.seqno sel.seqno)

/-- `seqnoReply`. -/
def seqnoReply (s : Speaker) (n : NeighborRef) (request : SeqnoRequest) (now : Time) : Speaker × List SendAction :=
  let key : RouteKey := ⟨request.sourcePrefix, request.dest⟩
  if key ∈ s.originate then (s.raiseSeqno request).replyFor n key now
  else if s.satisfies n key request then s.replyFor n key now
  else if request.routerID = s.cfg.routerID ∨ request.hopCount < 2 then (s, [])
  else match s.forwardTarget key n with
    | none => (s, [])
    | some target =>
      s.seqnoRequestAction target (s.heap n).peer.id key request.routerID request.seqno (request.hopCount - 1) now

/-- The loop state of `handlePacketLocked`. -/
structure Receiving where
  speaker : Speaker
  parser : Parser := {}
  actions : List SendAction := []
  linkChanged : Bool := false

/-- A write to the link state of a neighbor, when the TLV makes one. -/
def Receiving.link (r : Receiving) (n : NeighborRef) (st : Option NeighborState) : Receiving :=
  match st with
  | none => r
  | some st => { r with speaker := r.speaker.modify n fun _ => st, linkChanged := true }

/-- Whether an IHU is for this node: one with an address names this node's own. -/
def forThisNode (s : Speaker) (addr : Option (List UInt8)) : Bool :=
  match addr with
  | none => true
  | some bytes => addrFromSlice bytes = some s.cfg.linkLocal

/-- An acknowledgement, once the neighbor's address is known. -/
def ackReply (s : Speaker) (n : NeighborRef) (nonce : UInt16) : List SendAction :=
  if (s.heap n).addr.isValid then
    [{ neighbor := n, dest := (s.heap n).addr, priority := .request, tlvs := [encodeAck nonce] }]
  else []

/-- What one event does. -/
def Receiving.act (r : Receiving) (n : NeighborRef) (helloTS : Option UInt32) (now : Time) : Event → Receiving
  | .hello h => r.link n ((r.speaker.heap n).hearHello h now)
  | .ihu ihu addr =>
    if r.speaker.forThisNode addr then r.link n ((r.speaker.heap n).hearIHU ihu helloTS now) else r
  | .update u id nextHop => { r with speaker := r.speaker.hearUpdate n u id nextHop now }
  | .ackReq nonce => { r with actions := r.actions ++ r.speaker.ackReply n nonce }
  | .routeRequest request =>
    let (s, actions) := r.speaker.routeReply n request now
    { r with speaker := s, actions := r.actions ++ actions }
  | .seqnoRequest request =>
    let (s, actions) := r.speaker.seqnoReply n request now
    { r with speaker := s, actions := r.actions ++ actions }
  | .skip => r

/-- One TLV of a packet. -/
def Receiving.step (n : NeighborRef) (helloTS : Option UInt32) (now : Time) (r : Receiving) (t : RawTLV) : Receiving :=
  let (p, event) := r.parser.read t
  { r with parser := p }.act n helloTS now event

/-- The transmit time of the first Hello of a packet that has one. -/
def packetHelloTS (tlvs : List RawTLV) : Option UInt32 :=
  tlvs.findSome? fun t =>
    if t.type = tlvHello then (decodeHello t.body).bind fun h => if h.hasTS then some h.txTS else none else none

/-- The TLV loop of `handlePacketLocked`. -/
def readTLVs (s : Speaker) (n : NeighborRef) (helloTS : Option UInt32) (now : Time) (tlvs : List RawTLV) : Receiving :=
  tlvs.foldl (Receiving.step n helloTS now) { speaker := s }

/-- `handlePacketLocked`. -/
def handlePacket (s : Speaker) (n : NeighborRef) (payload : List UInt8) (now : Time) : Speaker × List SendAction :=
  match decodePacket payload with
  | .error _ => (s, [])
  | .ok tlvs =>
    let r := { s with raisedSeqno := false }.readTLVs n (packetHelloTS tlvs) now tlvs
    let s := if r.linkChanged then
        { r.speaker with routes := r.speaker.routes.recomputeNeighbor r.speaker.heap n now }
      else r.speaker
    let (s, starved) := s.starvedActions now
    (s, r.actions ++ starved)

/-- `Receive`, on a Babel payload from `src`: only the exact registered session is heard. -/
def receive (s : Speaker) (peer : Peer) (src : Addr) (payload : List UInt8) (now : Time) (rs : List Reservation) :
    Speaker × List ReservedPacket :=
  match s.neighbors.lookup peer.id with
  | none => (s, [])
  | some n =>
    if (s.heap n).peer ≠ peer then (s, [])
    else
      let (s, actions) := (s.modify n fun st => { st with addr := src }).handlePacket n payload now
      let (s, packets) := s.emitLocked actions now rs
      (s.wakeForPacket, packets)

/-- The start of `Run`: both timers are due at once. -/
def start (s : Speaker) (now : Time) : Speaker := { s with nextHello := now, nextUpdate := now }

/-- The Hellos of a pass. -/
def helloActions (s : Speaker) (due : Bool) (now : Time) : Speaker × List SendAction :=
  gather (fun s n =>
    if due || !(s.heap n).sentHello then
      let (s, action) := s.helloAction n now
      (s, [action])
    else (s, [])) s s.registered

/-- The dump of a pass, or its triggered updates. -/
def passUpdates (s : Speaker) (now : Time) : Speaker × List SendAction :=
  if s.nextUpdate ≤ now ∨ s.updatePending then
    let (s, actions) := s.updateActions now
    ({ s with updatePending := false, nextUpdate := if s.nextUpdate ≤ now then now + s.cfg.update else s.nextUpdate }, actions)
  else s.triggeredActions now

/-- What one pass of the loop of `Run` decides to say. -/
def passActions (s : Speaker) (now : Time) : Speaker × List SendAction :=
  let s := { s with woken := false, retryAt := 0, passes := s.passes + 1 }
  let s := s.applyLost.sweepExpired now
  let helloDue := decide (s.nextHello ≤ now)
  let s := if helloDue then { s with nextHello := now + s.cfg.hello } else s
  let (s, hellos) := s.helloActions helloDue now
  let (s, updates) := s.passUpdates now
  let (s, starved) := s.starvedActions now
  let (s, retries) := s.retryStarvedLocked now
  (s, hellos ++ updates ++ starved ++ retries)

/-- One pass of the loop of `Run`. -/
def pass (s : Speaker) (now : Time) (rs : List Reservation) : Speaker × List ReservedPacket :=
  let (s, actions) := s.passActions now
  let (s, packets) := s.emitLocked actions now rs
  ({ s with sleepUntil := s.deadline }, packets)

end Speaker
end RanetLite.Babel
