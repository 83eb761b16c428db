import RanetLite.Babel.Speaker

/-!
# Building and emitting actions

`internal/babel/send.go`, above the assembly of packets: what the speaker has to say about a prefix, the actions that say it, and the
emission that fixes their order and gives back what a refused packet consumed. Whether a peer has a slot free, and the clock at each
Hello, come with the emission as a list of reservations.
-/

namespace RanetLite.Babel

open Netip

/-- `updateTLVs`. An Update that does not encode would panic; the keys a speaker holds all encode. -/
def updateTLVs (key : RouteKey) (adv : Advertisement) (interval : Duration) : List RawTLV :=
  encodeRouterID adv.routerID :: (encodeUpdate (keyUpdate key adv.seqno adv.metric (toCentis interval))).toList

namespace Speaker

/-- `helloAction`: a Hello and its IHU. A refusal gives the Hello counter back. -/
def helloAction (s : Speaker) (n : NeighborRef) (now : Time) : Speaker × SendAction :=
  let interval := toCentis s.cfg.hello
  let s := s.modify n fun st => { st with sentHello := true, helloSeqno := st.helloSeqno + 1 }
  let st := s.heap n
  let rxcost := if st.heard && !st.isAlive now then metricInfinity else s.cfg.cost.advertisedRxCost st.multicastHistory
  let ihu : IHU :=
    if st.haveTheirHello then
      { rxCost := rxcost, interval := interval, originTS := st.theirHelloTxTS, receiveTS := st.theirHelloRxTS, hasTS := true }
    else { rxCost := rxcost, interval := interval }
  (s, { neighbor := n, dest := multicastGroup, priority := .hello
        tlvs := [encodeHello { seqno := st.helloSeqno, interval := interval, hasTS := true }, encodeIHU ihu]
        whenRefused := [n] })

/-- `advertisementFor`: what this node has to say about one prefix, and the next hop of the selected route. -/
def advertisementFor (s : Speaker) (key : RouteKey) : Option (Advertisement × Option NeighborRef) :=
  if key ∈ s.originate then some (⟨s.cfg.routerID, s.originSeqno, 0⟩, none)
  else if s.cfg.noTransit then none
  else match s.routes.entries.lookup key with
    | none => none
    | some entry =>
      if entry.selected.neighbor.isSome then
        some (⟨entry.selected.routerID, entry.selected.seqno, entry.selected.cost⟩, entry.selected.neighbor)
      else some (⟨entry.retractID, entry.retractSeqno, metricInfinity⟩, none)

/-- `selectedPeer`. -/
def selectedPeer (s : Speaker) (key : RouteKey) : String :=
  match (s.routes.entries.lookup key).bind (·.selected.neighbor) with
  | some n => (s.heap n).peer.id
  | none => ""

/-- The advertisement `advertiseTo` makes: split horizon retracts a route towards its own next hop, and a prefix nothing is known
about is retracted. -/
def advertisementTo (s : Speaker) (n : NeighborRef) (key : RouteKey) : Advertisement :=
  match s.advertisementFor key with
  | none => ⟨s.cfg.routerID, s.originSeqno, metricInfinity⟩
  | some (adv, nextHop) => if nextHop = some n then { adv with metric := metricInfinity } else adv

/-- The bookkeeping of `advertiseTo`: the advertisement made, if one is, and whether it spent the neighbor's record of the prefix. -/
def advertise (s : Speaker) (n : NeighborRef) (key : RouteKey) (force : Bool) (now : Time) :
    Speaker × Option (Advertisement × Bool) :=
  let adv := s.advertisementTo n key
  if adv.metric = metricInfinity then
    let sent := decide (key ∈ (s.heap n).advertised)
    if !sent && !force then (s, none)
    else if sent then (s.modify n fun st => { st with advertised := st.advertised.erase key }, some (adv, true))
    else (s, some (adv, false))
  else
    let s := { s with routes := s.routes.observe key adv (s.selectedPeer key) now }
    (s.modify n fun st => { st with advertised := st.advertised.insert key () }, some (adv, false))

/-- `advertiseTo`: the TLVs for one prefix, and the undo of its group at index `first`. -/
def advertiseTo (s : Speaker) (n : NeighborRef) (key : RouteKey) (force : Bool) (now : Time) (first : Nat) :
    Speaker × List RawTLV × List TlvUndo :=
  match s.advertise n key force now with
  | (s, none) => (s, [], [])
  | (s, some (adv, spent)) => (s, updateTLVs key adv s.cfg.update, [⟨first, key, spent⟩])

/-- The keys of a list, each once, in order. -/
def distinctKeys (keys : List RouteKey) : List RouteKey :=
  keys.foldl (fun seen key => if key ∈ seen then seen else seen ++ [key]) []

/-- `advertisableKeys`. -/
def advertisableKeys (s : Speaker) : List RouteKey :=
  distinctKeys (s.originate.keys ++ s.routes.entries.keys ++ s.registered.flatMap fun n => (s.heap n).advertised.keys)

/-- One key of `dumpFor`. -/
def dumpStep (n : NeighborRef) (now : Time) (out : Speaker × List RawTLV × List TlvUndo) (key : RouteKey) :
    Speaker × List RawTLV × List TlvUndo :=
  let (s, tlvs, rollback) := out
  let (s, advertised, undo) := s.advertiseTo n key false now tlvs.length
  (s, tlvs ++ advertised, rollback ++ undo)

/-- `dumpFor`. -/
def dumpFor (s : Speaker) (n : NeighborRef) (keys : List RouteKey) (now : Time) : Speaker × List RawTLV × List TlvUndo :=
  keys.foldl (dumpStep n now) (s, [], [])

/-- The action a dump makes, if it says anything. -/
def dumpAction (s : Speaker) (n : NeighborRef) (keys : List RouteKey) (now : Time) : Speaker × List SendAction :=
  let (s, tlvs, rollback) := s.dumpFor n keys now
  if tlvs.isEmpty then (s, [])
  else (s, [{ neighbor := n, dest := multicastGroup, priority := .dump, tlvs := tlvs, rollback := rollback }])

/-- Actions gathered over a list, the state threaded through. -/
def gather {α : Type} (f : Speaker → α → Speaker × List SendAction) (s : Speaker) (xs : List α) : Speaker × List SendAction :=
  xs.foldl (fun out x => let (s, actions) := f out.1 x; (s, out.2 ++ actions)) (s, [])

@[simp] theorem gather_nil {α : Type} (f : Speaker → α → Speaker × List SendAction) (s : Speaker) : gather f s [] = (s, []) := rfl

/-- The first round, and the rest from the state it leaves. -/
theorem gather_cons {α : Type} (f : Speaker → α → Speaker × List SendAction) (s : Speaker) (x : α) (xs : List α) :
    gather f s (x :: xs) = ((gather f (f s x).1 xs).1, (f s x).2 ++ (gather f (f s x).1 xs).2) := by
  have hfold : ∀ (xs : List α) (s : Speaker) (done : List SendAction),
      xs.foldl (fun out x => ((f out.1 x).1, out.2 ++ (f out.1 x).2)) (s, done) = ((gather f s xs).1, done ++ (gather f s xs).2) := by
    intro xs
    induction xs with
    | nil => exact fun s done => by rw [gather_nil, List.append_nil]; rfl
    | cons x rest ih =>
      intro s done
      have hrest : gather f s (x :: rest) = ((gather f (f s x).1 rest).1, (f s x).2 ++ (gather f (f s x).1 rest).2) :=
        ih (f s x).1 ([] ++ (f s x).2)
      rw [List.foldl_cons, ih, hrest, List.append_assoc]
  exact hfold xs (f s x).1 ([] ++ (f s x).2)

/-- `updateActionsFor`. -/
def updateActionsFor (s : Speaker) (keys : List RouteKey) (now : Time) : Speaker × List SendAction :=
  if keys.isEmpty then (s, []) else gather (fun s n => s.dumpAction n keys now) s s.registered

/-- `oweAgain`: a key nothing would rebuild is not owed. -/
def oweAgain (s : Speaker) (n : NeighborRef) (undo : TlvUndo) : Speaker :=
  let s := if undo.spent then s.modify n fun st => { st with advertised := st.advertised.insert undo.key () } else s
  if undo.key ∈ s.routes.entries ∨ undo.key ∈ s.originate ∨ undo.key ∈ (s.heap n).advertised then
    s.modify n fun st => { st with owed := st.owed.insert undo.key () }
  else s

/-- Every neighbor's owed set cleared. -/
def clearOwed (s : Speaker) (n : NeighborRef) : Speaker := s.modify n fun st => { st with owed := ∅ }

/-- `updateActions`. -/
def updateActions (s : Speaker) (now : Time) : Speaker × List SendAction :=
  let keys := s.advertisableKeys
  let s := { s with routes := s.routes.takeDirty.2 }
  let s := s.registered.foldl clearOwed s
  s.updateActionsFor keys now

/-- One neighbor of `triggeredActions`. -/
def triggerTo (now : Time) (s : Speaker) (n : NeighborRef) : Speaker × List SendAction :=
  (s.clearOwed n).dumpAction n (s.heap n).owed.keys now

/-- A changed key owed to every neighbor. -/
def oweAll (s : Speaker) (key : RouteKey) : Speaker :=
  s.registered.foldl (fun s n => s.modify n fun st => { st with owed := st.owed.insert key () }) s

/-- `triggeredActions`. -/
def triggeredActions (s : Speaker) (now : Time) : Speaker × List SendAction :=
  let (dirty, routes) := s.routes.takeDirty
  let s := dirty.foldl oweAll { s with routes := routes }
  gather (triggerTo now) s s.registered

/-- The TLV of a seqno request. A key that does not encode would panic; those of the route table and of decoded requests encode. -/
def seqnoRequestTLVs (key : RouteKey) (routerID : RouterID) (seqno : UInt16) (hops : UInt8) : List RawTLV :=
  (encodeSeqnoRequest { ae := aeFor key.dest, dest := key.dest, sourcePrefix := key.source, seqno := seqno, hopCount := hops
                        routerID := routerID }).toList

/-- The action of a seqno request. -/
def seqnoRequestSend (s : Speaker) (n : NeighborRef) (key : RouteKey) (routerID : RouterID) (seqno : UInt16) (hops : UInt8) :
    SendAction :=
  { neighbor := n, dest := (s.heap n).destination, priority := .request, tlvs := seqnoRequestTLVs key routerID seqno hops }

/-- `seqnoRequestTo`: charged to this node's own bucket, and sent whatever the bucket answers. -/
def seqnoRequestTo (s : Speaker) (n : NeighborRef) (key : RouteKey) (routerID : RouterID) (seqno : UInt16) (now : Time) :
    Speaker × SendAction :=
  let (s, _) := s.allowSeqnoRequest ⟨key, routerID⟩ seqno "" now
  (s, s.seqnoRequestSend n key routerID seqno seqnoRequestHopCount)

/-- `seqnoRequestAction`. -/
def seqnoRequestAction (s : Speaker) (n : NeighborRef) (asker : String) (key : RouteKey) (routerID : RouterID) (seqno : UInt16)
    (hops : UInt8) (now : Time) : Speaker × List SendAction :=
  let (s, allowed) := s.allowSeqnoRequest ⟨key, routerID⟩ seqno asker now
  if allowed then (s, [s.seqnoRequestSend n key routerID seqno hops]) else (s, [])

/-- One request of `starvedActions`: a neighbor replaced meanwhile is not asked. -/
def starvedAction (now : Time) (s : Speaker) (request : StarveRequest) : Speaker × List SendAction :=
  let id := (s.heap request.neighbor).peer.id
  if s.neighbors.lookup id ≠ some request.neighbor then (s, [])
  else
    let (s, allowed) := s.allowAsk request.neighbor request.key request.routerID now
    if !allowed then (s, [])
    else
      let (s, action) := s.seqnoRequestTo request.neighbor request.key request.routerID request.seqno now
      (s.rememberStarved request.key request.routerID request.seqno id now, [action])

/-- `starvedActions`. -/
def starvedActions (s : Speaker) (now : Time) : Speaker × List SendAction :=
  let (requests, routes) := s.routes.takeStarved
  gather (starvedAction now) { s with routes := routes } requests

/-- One neighbor asked again in `retryStarvedLocked`. -/
def retryAsk (now : Time) (retry : StarveRetry) (s : Speaker) (n : NeighborRef) : Speaker × List SendAction :=
  if !(s.heap n).alive || (s.routes.route n retry.key).isNone then (s, [])
  else
    let (s, allowed) := s.allowAsk n retry.key retry.routerID now
    if !allowed then (s, [])
    else
      let (s, action) := s.seqnoRequestTo n retry.key retry.routerID retry.seqno now
      (s, [action])

/-- One prefix of `retryStarvedLocked`. -/
def retryStarved (now : Time) (s : Speaker) (id : SourceKey) : Speaker × List SendAction :=
  match s.starveRetries.lookup id with
  | none => (s, [])
  | some retry =>
    if ((s.routes.entries.lookup retry.key).bind (·.selected.neighbor)).isSome then (s.forgetStarved id retry, [])
    else if now < retry.nextAt then ({ s with nextStarveRetry := earlier s.nextStarveRetry retry.nextAt }, [])
    else if seqnoRequestRetries ≤ retry.attempts then (s.forgetStarved id retry, [])
    else
      let nextAt := now + seqnoRetryInitial * 2 ^ retry.attempts
      let retry := { retry with attempts := retry.attempts + 1, nextAt := nextAt }
      let s := { s with
        starveRetries := s.starveRetries.insert id retry, nextStarveRetry := earlier s.nextStarveRetry nextAt }
      gather (retryAsk now retry) s s.registered

/-- `retryStarvedLocked`. -/
def retryStarvedLocked (s : Speaker) (now : Time) : Speaker × List SendAction :=
  gather (retryStarved now) { s with nextStarveRetry := 0 } s.starveRetries.keys

/-- What `emitLocked` does with the outcome of one action: refused prefixes are owed again, and a refused Hello was not sent. -/
def giveBack (s : Speaker) (result : SendAction × Reserved) : Speaker :=
  let (action, out) := result
  let s := out.lost.foldl (fun s undo => s.oweAgain action.neighbor undo) s
  if out.whole then s
  else action.whenRefused.foldl
    (fun s n => s.modify n fun st => { st with helloSeqno := st.helloSeqno - 1, sentHello := false }) s

/-- `emitLocked`: the packets that took a place, in their order. -/
def emitLocked (s : Speaker) (actions : List SendAction) (now : Time) (rs : List Reservation) :
    Speaker × List ReservedPacket :=
  let results := emitReserved s.cfg.packetSize actions rs
  let s := results.foldl giveBack s
  let s := if results.all (·.2.whole) then s else s.noteSendRetry now
  (s, results.flatMap (·.2.packets))

/-- `noteLost`: the transport's report on a packet it queued and could not send. -/
def noteLost (s : Speaker) (n : NeighborRef) (undo : List TlvUndo) (now : Time) : Speaker :=
  if undo.isEmpty then s
  else
    let soon := decide (now - s.lostWoke < s.sendRetryInterval)
    let s := { s with lost := s.lost ++ undo.map (⟨n, ·⟩), lostWoke := if soon then s.lostWoke else now }
    if soon then s else s.wake

/-- `applyLostLocked`. -/
def applyLost (s : Speaker) : Speaker :=
  s.lost.foldl (fun s entry => s.oweAgain entry.neighbor entry.undo) { s with lost := [] }

end Speaker
end RanetLite.Babel
