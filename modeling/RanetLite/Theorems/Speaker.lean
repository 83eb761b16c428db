import RanetLite.Lemmas.Speaking

/-!
# What holds of a speaker after every call

Selections are stored, finite and cheaper to receive than to use; every reachable prefix the speaker speaks of is its own or the
selected route's, and the source table backs it (`selections_and_updates_stand`). The forwarding table holds what the selections and
originations say, and nothing points at a neighbor that is no longer registered (`forwarding_agrees`).
-/

namespace RanetLite.Babel

open Netip BuildAux EmitAux HearAux OpAux SpeakAux

/-- A neighbor is registered while its peer's name points at it. -/
def Speaker.Registered (s : Speaker) (n : NeighborRef) : Prop := s.neighbors.lookup (s.heap n).peer.id = some n

/-- What the forwarding table is to hold for a key: unreachable for an originated one and for one held after its last route was lost,
the peer of the selected neighbor otherwise. -/
def Speaker.forwards (s : Speaker) (key : RouteKey) : Option FibTarget :=
  if key ∈ s.originate then some .unreachable
  else match s.routes.entries.lookup key with
    | none => none
    | some entry =>
      match entry.selected.neighbor with
      | some n => some (.peer (s.heap n).peer)
      | none => if entry.onceSelected then some .unreachable else none

namespace SpeakerAux

variable {s : Speaker} {id : Option RouterID} {u : Update}

/-- A selection is a stored, finite route. -/
theorem selection_spec (h : s.node.Sound) {key : RouteKey} {entry : KeyEntry} {n : NeighborRef}
    (hentry : s.routes.entries.lookup key = some entry) (hsel : entry.selected.neighbor = some n) :
    ∃ r, entry.routes.lookup n = some r ∧ r.rxMetric ≠ metricInfinity ∧ entry.selected.routerID = r.routerID ∧
      entry.selected.seqno = r.seqno ∧ r.rxMetric < entry.selected.cost := by
  have hnode : s.node.entries key = some entry.node := congrArg (Option.map KeyEntry.node) hentry
  obtain hnone | ⟨m, r, hm, hr, hfinite, hid, hseq, hlt, -⟩ := h.choice hnode
  · exact absurd (hsel.symm.trans hnone) (by simp)
  · obtain rfl : m = n := Option.some.inj (hm.symm.trans hsel)
    obtain ⟨route, hroute, rfl⟩ := Option.map_eq_some_iff.mp hr
    exact ⟨route, hroute, hfinite, hid, hseq, hlt⟩

/-- A timer pass vouches for its updates. -/
theorem vouches_pass (h : s.Good) (now : Time) (rs : List Reservation) {a : SendAction} (ha : a ∈ (s.passActions now).2)
    (hu : .update id u ∈ a.items) (hm : u.metric ≠ metricInfinity) : (s.pass now rs).1.Vouches a.neighbor id u := by
  obtain ⟨-, s0, -, -, -, hcfg, -, -, -, -, -, -, hbuilds⟩ :=
    @builds_passActions s h now (fun e => e.isTold = true) fun _ _ _ _ _ => rfl
  have hemits : Recalls now (s.passActions now).1 ((s.passActions now).1.emitLocked (s.passActions now).2 now rs).1 := by
    obtain ⟨effects, plan, hb⟩ := hbuilds
    have hsize : (s.passActions now).1.cfg = s.cfg := by rw [hb.frame.cfg, hcfg]
    have hspec := @emitLocked_spec (s.passActions now).1 (by rw [hsize]; exact h.minSize) (by rw [hsize]; exact h.maxSize) plan
      hb.built.built now rs
    rw [hb.actions] at hspec
    exact hspec.1
  have hsleeps : ∀ (t : Speaker) (deadline : Time), Quiet now t { t with sleepUntil := deadline } := fun _ _ => quiet_timers rfl
  exact vouches_of_builds hbuilds (recalls_trans hemits (recalls_quiet (hsleeps _ _))) ha hu hm

/-- So does a received packet. -/
theorem vouches_handlePacket (h : s.Good) {n : NeighborRef} (hreg : s.Registered n) (src : Addr) {payload : List UInt8}
    {tlvs : List RawTLV} (hdecode : decodePacket payload = .ok tlvs) (now : Time) {a : SendAction}
    (ha : a ∈ ((s.modify n fun st => { st with addr := src }).handlePacket n payload now).2) (hu : .update id u ∈ a.items)
    (hm : u.metric ≠ metricInfinity) : ∃ k < tlvs.length, (s.hearing n src tlvs now (k + 1)).speaker.Vouches a.neighbor id u := by
  have hnode : (s.modify n fun st => { st with addr := src }).node = s.node := node_modify_of_told rfl rfl
  have hs0 : ({ s.modify n fun st => { st with addr := src } with raisedSeqno := false } : Speaker).node = s.node := hnode
  have hsound : ({ s.modify n fun st => { st with addr := src } with raisedSeqno := false } : Speaker).node.Sound := by
    rw [hs0]
    exact h.sound
  have hregistered : ({ s.modify n fun st => { st with addr := src } with raisedSeqno := false } : Speaker).node.Registered n := by
    rw [hs0]
    exact hreg
  unfold Speaker.handlePacket at ha
  rw [hdecode] at ha
  dsimp only at ha
  unfold Speaker.hearing
  generalize ({ s.modify n fun st => { st with addr := src } with raisedSeqno := false } : Speaker) = s0 at ha hsound hregistered ⊢
  obtain ⟨more, -, hread⟩ := @builds_readTLVs now n _ (Speaker.packetHelloTS tlvs) tlvs { speaker := s0 } hsound hregistered rfl
  have hvouch := @vouches_readTLVs now n (Speaker.packetHelloTS tlvs) tlvs { speaker := s0 } hsound hregistered
  have hsound1 := builds_sound hread hsound
  unfold Speaker.readTLVs at ha ⊢
  generalize tlvs.foldl (Speaker.Receiving.step n (Speaker.packetHelloTS tlvs) now) { speaker := s0 } = r at ha hvouch hsound1
  rw [List.mem_append] at ha
  obtain ha | ha := ha
  · obtain hnil | hlater := hvouch a ha
    · exact absurd hnil List.not_mem_nil
    · exact hlater id u hu hm
  · have hlink : (if r.linkChanged = true then
        { r.speaker with routes := r.speaker.routes.recomputeNeighbor r.speaker.heap n now } else r.speaker : Speaker).node.Sound := by
      split_ifs
      · obtain ⟨_, -, hrun⟩ := run_recomputeNeighbor r.speaker n now
        exact Node.sound_run hrun hsound1
      · exact hsound1
    have hstarved := @builds_starvedActions now (fun _ => (multicastGroup, .request)) (fun _ => False) _ hlink
    exact absurd hu (silent_of_builds hstarved ha)

theorem untransited_apply (h : s.Good) (now : Time) (op : Op) (hno : s.cfg.noTransit = true) {p : ReservedPacket}
    (hp : p ∈ (s.apply now op).2) (hu : .update id u ∈ packetItems p.payload) (hm : u.metric ≠ metricInfinity) :
    ∃ key ∈ s.originate, ∃ seqno, id = some s.cfg.routerID ∧
      u = sentUpdate key ⟨s.cfg.routerID, seqno, 0⟩ (toCentis s.cfg.update) := by
  obtain ⟨effects, hacts, hshows, -, -⟩ := acts_apply h now op
  obtain ⟨key, adv, spent, htold, -, hid, rfl⟩ := hacts.said p hp id u hu
  have hchanged : ∀ e ∈ effects, e ≠ .changed := by
    intro e he hc
    have hshow := hshows e he
    rw [hc] at hshow
    cases op with
    | receive peer src payload rs =>
      obtain ⟨n, -, -, hfrom⟩ := hshow
      exact hfrom
    | pass | sweep => simp [Op.Shows, Node.Effect.isTold] at hshow
    | addPeer | removePeer | originateFrom | setOriginated | start | noteLost => exact absurd hp List.not_mem_nil
  obtain ⟨hkey, hown, hzero⟩ := hacts.run.untransited hchanged hno htold hm
  obtain ⟨routerID, seqno, metric⟩ := adv
  dsimp only [Speaker.node] at hown hzero
  subst hown hzero
  exact ⟨key, hkey, seqno, hid, rfl⟩

/-- Both models forward alike. -/
theorem forwarding_node (s : Speaker) (key : RouteKey) : s.node.forwarding key = s.forwards key := by
  by_cases hlocal : key ∈ s.originate
  · rw [Node.forwarding, if_pos (show key ∈ s.node.originate from hlocal), Speaker.forwards, if_pos hlocal]
  · rw [Node.forwarding, if_neg (show key ∉ s.node.originate from hlocal), Speaker.forwards, if_neg hlocal]
    have hentry : s.node.entries key = (s.routes.entries.lookup key).map KeyEntry.node := rfl
    rw [hentry]
    cases s.routes.entries.lookup key with
    | none => rfl
    | some entry =>
      dsimp only [Option.map_some, KeyEntry.node]
      cases entry.selected.neighbor <;> rfl

theorem forwards_peer {key : RouteKey} {peer : Peer} (h : s.forwards key = some (.peer peer)) :
    ∃ entry n, s.routes.entries.lookup key = some entry ∧ entry.selected.neighbor = some n ∧ (s.heap n).peer = peer := by
  unfold Speaker.forwards at h
  by_cases hlocal : key ∈ s.originate
  · rw [if_pos hlocal] at h
    exact absurd h (by simp)
  rw [if_neg hlocal] at h
  cases hentry : s.routes.entries.lookup key with
  | none => simp [hentry] at h
  | some entry =>
    rw [hentry] at h
    dsimp only at h
    cases hsel : entry.selected.neighbor with
    | none =>
      rw [hsel] at h
      dsimp only at h
      split_ifs at h
      exact absurd h (by simp)
    | some n =>
      rw [hsel] at h
      exact ⟨entry, n, rfl, hsel, FibTarget.peer.inj (Option.some.inj h)⟩

end SpeakerAux

open SpeakerAux

/-- The speaker of the default configuration, on `fe80::1` under router id 1. -/
def plainSpeaker : Speaker :=
  .empty (Speaker.settings {} {} ⟨1, .v6 0xfe800000000000000000000000000001 "", 1352⟩ fun _ smoothed _ _ => smoothed)

theorem plainSpeaker_new :
    Speaker.new {} {} ⟨1, .v6 0xfe800000000000000000000000000001 "", 0⟩ {} (fun _ smoothed _ _ => smoothed) = .ok plainSpeaker := rfl

theorem plainSpeaker_reachable : Reachable plainSpeaker [] := .new plainSpeaker_new

/-- A neighbor's packet: two Hellos, what it hears of this node, and a route for `2001:db8::/32` under router id 2. -/
def linkingPacket : List UInt8 :=
  encodePacket ([encodeHello { seqno := 1, interval := 400 }, encodeHello { seqno := 2, interval := 400 },
    encodeIHU { rxCost := 96, interval := 400 }] ++ updateTLVs docKey ⟨2, 7, 96⟩ (16 * second))

/-- The neighbor's address. -/
def linkingAddr : Addr := .v6 0xfe800000000000000000000000000002 ""

/-- The plain speaker after it heard that packet from its one peer. -/
def linkedSpeaker : Speaker :=
  ((plainSpeaker.apply second (.addPeer ⟨1, "b"⟩)).1.apply second (.receive ⟨1, "b"⟩ linkingAddr linkingPacket [])).1

theorem linkedSpeaker_reachable : Reachable linkedSpeaker ([] ++ [] ++
    ((plainSpeaker.apply second (.addPeer ⟨1, "b"⟩)).1.apply second (.receive ⟨1, "b"⟩ linkingAddr linkingPacket [])).2) :=
  .call (.call plainSpeaker_reachable (.addPeer ⟨1, "b"⟩) second trivial)
    (.receive ⟨1, "b"⟩ linkingAddr linkingPacket []) second trivial

/-- In every state a speaker can reach, a selection is a stored route with a finite metric below the selected cost, under the same
router id and seqno. Every finite Update a pass builds is backed by the state after the pass, and every one a packet asks for by the
state after the TLV that asked: it is an originated key at metric zero, or the selected route going to another neighbor than its next
hop, and the distance held for it is no worse. Without transit, what is sent finite is originated. -/
theorem selections_and_updates_stand {s : Speaker} {sent : List ReservedPacket} (h : Reachable s sent) :
    (∀ key entry n, s.routes.entries.lookup key = some entry → entry.selected.neighbor = some n →
      ∃ r, entry.routes.lookup n = some r ∧ r.rxMetric ≠ metricInfinity ∧ entry.selected.routerID = r.routerID ∧
        entry.selected.seqno = r.seqno ∧ r.rxMetric < entry.selected.cost) ∧
    (∀ now rs, ∀ a ∈ (s.passActions now).2, ∀ id u, .update id u ∈ a.items → u.metric ≠ metricInfinity →
      (s.pass now rs).1.Vouches a.neighbor id u) ∧
    (∀ n, s.Registered n → ∀ src payload tlvs now, decodePacket payload = .ok tlvs →
      ∀ a ∈ ((s.modify n fun st => { st with addr := src }).handlePacket n payload now).2, ∀ id u, .update id u ∈ a.items →
        u.metric ≠ metricInfinity → ∃ k < tlvs.length, (s.hearing n src tlvs now (k + 1)).speaker.Vouches a.neighbor id u) ∧
    (s.cfg.noTransit = true → ∀ now op, ∀ p ∈ (s.apply now op).2, ∀ id u, .update id u ∈ packetItems p.payload →
      u.metric ≠ metricInfinity → ∃ key ∈ s.originate, ∃ seqno, id = some s.cfg.routerID ∧
        u = sentUpdate key ⟨s.cfg.routerID, seqno, 0⟩ (toCentis s.cfg.update)) := by
  have hgood := (good_reachable h).1
  refine ⟨fun key entry n hentry hsel => selection_spec hgood.sound hentry hsel, ?_, ?_, ?_⟩
  · exact fun now rs a ha id u hu hm => vouches_pass hgood now rs ha hu hm
  · exact fun n hreg src payload tlvs now hdecode a ha id u hu hm => vouches_handlePacket hgood hreg src hdecode now ha hu hm
  · exact fun hno now op p hp id u hu hm => untransited_apply hgood now op hno hp hu hm

/-- The route a linked speaker learned is selected, at more than its neighbor advertised. -/
theorem selections_and_updates_stand_linked : (∃ entry r, linkedSpeaker.routes.entries.lookup docKey = some entry ∧
      entry.selected.neighbor = some 0 ∧ entry.routes.lookup 0 = some r ∧ r.rxMetric ≠ metricInfinity ∧
      r.rxMetric < entry.selected.cost) ∧
    ∀ now rs, ∀ a ∈ (linkedSpeaker.passActions now).2, ∀ id u, .update id u ∈ a.items → u.metric ≠ metricInfinity →
      (linkedSpeaker.pass now rs).1.Vouches a.neighbor id u := by
  obtain ⟨hselected, hupdates, -⟩ := selections_and_updates_stand linkedSpeaker_reachable
  have hlearned : (linkedSpeaker.routes.entries.lookup docKey).map (fun entry => entry.selected.neighbor) = some (some 0) := by
    decide +kernel
  obtain ⟨entry, hentry, hneighbor⟩ := Option.map_eq_some_iff.mp hlearned
  obtain ⟨r, hr, hfinite, -, -, hlt⟩ := hselected docKey entry 0 hentry hneighbor
  exact ⟨⟨entry, r, hentry, hneighbor, hr, hfinite, hlt⟩, hupdates⟩

/-- After every call the forwarding table holds, for every pair of a source and a destination, exactly what the selections and
originations say, and every stored route, selection and forwarding entry is of a registered neighbor. -/
theorem forwarding_agrees {s : Speaker} {sent : List ReservedPacket} (h : Reachable s sent) :
    (∀ dst : Prefix, dst.isValid = true → ∀ e, e ∈ s.routes.fib.entries dst ↔ s.forwards ⟨e.src, dst.masked⟩ = some e.value) ∧
    (∀ key entry, s.routes.entries.lookup key = some entry → (∀ n, n ∈ entry.routes → s.Registered n) ∧
      ∀ n, entry.selected.neighbor = some n → s.Registered n) ∧
    ∀ dst : Prefix, dst.isValid = true → ∀ e ∈ s.routes.fib.entries dst, ∀ peer, e.value = .peer peer →
      ∃ n, s.Registered n ∧ (s.heap n).peer = peer := by
  have hsound := (good_reachable h).1.sound
  have hroutes : ∀ {key entry n}, s.routes.entries.lookup key = some entry → n ∈ entry.routes → s.Registered n := by
    intro key entry n hentry hn
    obtain ⟨r, hr⟩ := Option.isSome_iff_exists.mp (AList.lookup_isSome.mpr hn)
    have hnode : s.node.entries key = some entry.node := congrArg (Option.map KeyEntry.node) hentry
    exact hsound.routes hnode (congrArg (Option.map RouteInfo.offer) hr)
  have hselected : ∀ {key entry n}, s.routes.entries.lookup key = some entry → entry.selected.neighbor = some n → s.Registered n := by
    intro key entry n hentry hsel
    obtain ⟨r, hr, -⟩ := selection_spec hsound hentry hsel
    exact hroutes hentry (AList.lookup_isSome.mp (by rw [hr]; rfl))
  have hlive : ∀ dst : Prefix, dst.isValid = true → ∀ e, e ∈ s.routes.fib.entries dst ↔
      s.forwards ⟨e.src, dst.masked⟩ = some e.value := by
    intro dst hv e
    rw [← forwarding_node]
    exact hsound.fib.live dst hv e
  refine ⟨hlive, fun key entry hentry => ⟨fun n hn => hroutes hentry hn, fun n hsel => hselected hentry hsel⟩, ?_⟩
  intro dst hv e he peer hpeer
  have hforwards := (hlive dst hv e).mp he
  rw [hpeer] at hforwards
  obtain ⟨entry, n, hentry, hsel, rfl⟩ := forwards_peer hforwards
  exact ⟨n, hselected hentry hsel, rfl⟩

/-- The forwarding table of a linked speaker sends what the learned route covers to its peer. -/
theorem forwarding_agrees_linked : ⟨.none, .peer ⟨1, "b"⟩⟩ ∈ linkedSpeaker.routes.fib.entries docKey.dest ∧
    ∃ n, linkedSpeaker.Registered n ∧ (linkedSpeaker.heap n).peer = ⟨1, "b"⟩ := by
  obtain ⟨hlive, -, hpeers⟩ := forwarding_agrees linkedSpeaker_reachable
  have hvalid : docKey.dest.isValid = true := by decide +kernel
  have hentry := (hlive docKey.dest hvalid ⟨.none, .peer ⟨1, "b"⟩⟩).mpr (by decide +kernel)
  exact ⟨hentry, hpeers docKey.dest hvalid _ hentry _ rfl⟩

/-- A speaker refines the protocol of its node: from every state it can reach, every call is a run of the node that shows nothing but
what the call can show, and every Update in a packet the call sends is one the run told the neighbor the packet is for. -/
theorem speaker_refines_node {s : Speaker} {sent : List ReservedPacket} (h : Reachable s sent) (now : Time) (op : Op) :
    ∃ effects, Node.Run now s.node effects (s.apply now op).1.node ∧ (∀ e ∈ effects, op.Shows s now e) ∧
      ∀ p ∈ (s.apply now op).2, ∀ id u, .update id u ∈ packetItems p.payload → ∃ key adv spent,
        .told p.neighbor key adv spent ∈ effects ∧ key.Canonical ∧ id = some adv.routerID ∧
          u = sentUpdate key adv (toCentis s.cfg.update) := by
  obtain ⟨effects, hacts, hshows, -⟩ := acts_apply (good_reachable h).1 now op
  exact ⟨effects, hacts.run, hshows, hacts.said⟩

/-- A pass of a linked speaker is a run of its node. -/
theorem speaker_refines_node_linked :
    ∃ effects, Node.Run second linkedSpeaker.node effects (linkedSpeaker.apply second (.pass [])).1.node := by
  obtain ⟨effects, hrun, -⟩ := speaker_refines_node linkedSpeaker_reachable second (.pass [])
  exact ⟨effects, hrun⟩

end RanetLite.Babel
