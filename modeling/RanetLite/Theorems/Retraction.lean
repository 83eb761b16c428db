import RanetLite.Theorems.Speaker

/-!
# Retractions heard

What an Update at infinity does to the route of the neighbor that sent it, at every TLV of every packet. A retraction takes effect
without a router id and without a next hop. One that comes under this node's own router id is dropped as a reflection, so it takes
effect only when there was nothing to retract (`retraction_takes_effect_iff`).
-/

namespace RanetLite.Babel

open Netip BuildAux HearAux SpeakerAux WireAux

/-- Nothing finite of a neighbor is stored for a key, and the neighbor is not selected for it. -/
def Speaker.Withdrawn (s : Speaker) (n : NeighborRef) (key : RouteKey) : Prop :=
  ∀ entry, s.routes.entries.lookup key = some entry →
    (∀ r, entry.routes.lookup n = some r → r.rxMetric = metricInfinity) ∧ entry.selected.neighbor ≠ some n

/-- TLV `k` of a packet accepted from a registered neighbor is an Update at infinity that counts, for a key this node does not
originate, with `id` the router id in effect. -/
structure Speaker.Retracting (s : Speaker) (n : NeighborRef) (src : Addr) (now : Time) (payload : List UInt8) (tlvs : List RawTLV)
    (k : Nat) (id : Option RouterID) (key : RouteKey) : Prop where
  registered : s.Registered n
  accepted : decodePacket payload = .ok tlvs
  reads : ∃ t u nextHop, tlvs[k]? = some t ∧ ((s.hearing n src tlvs now k).parser.read t).2 = .update u id nextHop ∧
    u.ignore = false ∧ u.metric = metricInfinity ∧ u.ae ≠ aeWildcard ∧ updateKey u = some key
  foreign : key ∉ s.originate

namespace RetractAux

/-- `Withdrawn`, of the abstract node. -/
def Withdrawn (v : Node) (n : NeighborRef) (key : RouteKey) : Prop :=
  ∀ e, v.entries key = some e → (∀ r, e.routes n = some r → r.metric = metricInfinity) ∧ e.selected.neighbor ≠ some n

theorem withdrawn_node {s : Speaker} {n : NeighborRef} {key : RouteKey} : Withdrawn s.node n key ↔ s.Withdrawn n key := by
  constructor
  · intro h entry hentry
    obtain ⟨hroutes, hsel⟩ := h entry.node (congrArg (Option.map KeyEntry.node) hentry)
    exact ⟨fun r hr => hroutes r.offer (congrArg (Option.map RouteInfo.offer) hr), hsel⟩
  · intro h e he
    obtain ⟨entry, hentry, rfl⟩ := Option.map_eq_some_iff.mp he
    obtain ⟨hroutes, hsel⟩ := h entry hentry
    refine ⟨fun r hr => ?_, hsel⟩
    obtain ⟨route, hroute, rfl⟩ := Option.map_eq_some_iff.mp hr
    exact hroutes route hroute

variable {s : Speaker} {n : NeighborRef} {key : RouteKey} {now : Time}

/-- A selection is finite, so a neighbor without a finite route is not selected. -/
theorem withdrawn_iff_route (h : s.node.Sound) :
    s.Withdrawn n key ↔ ∀ r, s.routes.route n key = some r → r.rxMetric = metricInfinity := by
  constructor
  · intro hw r hr
    obtain ⟨entry, hentry, hroute⟩ := Option.bind_eq_some_iff.mp hr
    exact (hw entry hentry).1 r hroute
  · intro hroutes entry hentry
    have hfinite : ∀ r, entry.routes.lookup n = some r → r.rxMetric = metricInfinity := fun r hr =>
      hroutes r (by rw [RouteTable.route, hentry, Option.bind_some, hr])
    refine ⟨hfinite, fun hsel => ?_⟩
    obtain ⟨r, hr, hne, -⟩ := selection_spec h hentry hsel
    exact hne (hfinite r hr)

/-- Hearing a retraction withdraws the route: a selection looks at it again, and picks no route at infinity. -/
theorem withdrawn_of_heard {v v' : Node} {adv : Advertisement} {hold : Duration} (hinf : adv.metric = metricInfinity)
    (h : Node.Step now v (some (.heard n key adv hold)) v') : Withdrawn v' n key := by
  cases h with
  | learn _ _ _ _ hlearned hsettles =>
    obtain ⟨routes, sel, empty, haged, hchoice, -⟩ := hsettles
    intro e he
    rw [Node.settled_entries, Function.update_self] at he
    cases empty with
    | true => exact absurd he (by simp)
    | false =>
      rw [← Option.some.inj he]
      have hroute : ∀ r, routes n = some r → r.metric = metricInfinity := by
        intro r hr
        obtain ⟨r0, hr0, ⟨-, -, -, hlost | ⟨hsame, -⟩⟩, -⟩ := haged n r hr
        · exact hlost
        · rw [Function.update_self, Option.some.injEq] at hr0
          rw [hsame, ← hr0, hlearned.2.2.1, hinf]
      refine ⟨hroute, fun hsel => ?_⟩
      obtain hnone | ⟨m, r, hm, hr, hfinite, -⟩ := hchoice
      · exact absurd (hsel.symm.trans hnone) (by simp)
      · obtain rfl : m = n := Option.some.inj (hm.symm.trans hsel)
        exact hfinite (hroute r hr)

/-- A retraction is acted on unless it comes under this node's own router id. -/
theorem advertisementOf_retraction {u : Update} (hinf : u.metric = metricInfinity) (id : Option RouterID) :
    id = some s.cfg.routerID ∧ s.advertisementOf n key u id = none ∨
      id ≠ some s.cfg.routerID ∧ ∃ adv, s.advertisementOf n key u id = some adv ∧ adv.metric = metricInfinity := by
  unfold Speaker.advertisementOf
  cases id with
  | none =>
    dsimp only
    rw [if_neg (not_not.mpr hinf)]
    refine .inr ⟨by simp, ?_⟩
    cases s.routes.route n key with
    | none => exact ⟨_, rfl, hinf⟩
    | some route => exact ⟨_, rfl, hinf⟩
  | some id =>
    dsimp only
    split_ifs with hown
    · exact .inl ⟨by rw [hown], rfl⟩
    · exact .inr ⟨by simpa using hown, _, rfl, hinf⟩

/-- One Update at infinity for a specific key: it is dropped under this node's own router id, and withdraws the route otherwise. -/
theorem hearUpdate_retraction (hs : s.node.Sound) (hreg : s.node.Registered n) (hcanonical : key.Canonical)
    (hlocal : key ∉ s.originate) {u : Update} (hheard : u.ignore = false) (hinf : u.metric = metricInfinity)
    (hspecific : u.ae ≠ aeWildcard) (hkey : updateKey u = some key) (id : Option RouterID) (nextHop : Bool) :
    id = some s.cfg.routerID ∧ s.hearUpdate n u id nextHop now = s ∨
      id ≠ some s.cfg.routerID ∧ (s.hearUpdate n u id nextHop now).Withdrawn n key := by
  have hear : s.hearUpdate n u id nextHop now = s.hearKey n key u id now := by
    unfold Speaker.hearUpdate
    rw [if_neg (by simp [hheard]), if_neg hspecific, if_neg (fun h => h.2.2 hinf), hkey]
  rw [hear, Speaker.hearKey, if_neg hlocal]
  obtain ⟨hown, hadv⟩ | ⟨hother, adv, hadv, hmetric⟩ := @advertisementOf_retraction s n key u hinf id
  · exact .inl ⟨hown, by rw [hadv]⟩
  · refine .inr ⟨hother, ?_⟩
    rw [hadv]
    dsimp only
    obtain ⟨hsame, hnone⟩ | hstep := step_update hreg hcanonical hlocal (fun hm => absurd hmetric hm)
      (deadTimeout (centis u.interval)) now
    · rw [← withdrawn_node, hsame, withdrawn_node, withdrawn_iff_route hs]
      intro r hr
      rw [hnone] at hr
      exact absurd hr (by simp)
    · exact withdrawn_node.mp (withdrawn_of_heard hmetric hstep)

/-- The state before each TLV is sound, and the owner's part of it is as before the packet. -/
theorem hearing_spec (hs : s.node.Sound) (hreg : s.Registered n) (src : Addr) (tlvs : List RawTLV) (k : Nat) :
    (s.hearing n src tlvs now k).speaker.node.Sound ∧ Speaker.Writes now s (s.hearing n src tlvs now k).speaker ∧
      (s.hearing n src tlvs now k).speaker.node.Registered n ∧
      (s.hearing n src tlvs now k).speaker.originate = s.originate ∧ (s.hearing n src tlvs now k).speaker.cfg = s.cfg := by
  have hnode : ({ s.modify n fun st => { st with addr := src } with raisedSeqno := false } : Speaker).node = s.node :=
    @node_modify_of_told s n (fun st => { st with addr := src }) rfl rfl
  have haddr : Speaker.Write now s (s.modify n fun st => { st with addr := src }) := .neighbor n (.rest rfl)
  obtain ⟨more, -, effects, plan, hread⟩ := @builds_readTLVs now n _ (Speaker.packetHelloTS tlvs) (tlvs.take k)
    { speaker := { s.modify n fun st => { st with addr := src } with raisedSeqno := false } } (by rw [hnode]; exact hs)
    (by rw [hnode]; exact hreg) rfl
  refine ⟨builds_sound ⟨effects, plan, hread⟩ (by rw [hnode]; exact hs), .head haddr (.head (.rest rfl) hread.writes),
    registered_frame hread.frame (by rw [hnode]; exact hreg), hread.frame.originate, hread.frame.cfg⟩

theorem hearing_succ (src : Addr) {tlvs : List RawTLV} {k : Nat} {t : RawTLV} (ht : tlvs[k]? = some t) :
    s.hearing n src tlvs now (k + 1) = (s.hearing n src tlvs now k).step n (Speaker.packetHelloTS tlvs) now t := by
  rw [Speaker.hearing, Speaker.readTLVs, List.take_add_one, ht, List.foldl_append]
  rfl

end RetractAux

open RetractAux

/-- At every TLV of every packet accepted from a registered neighbor, an Update at infinity for a key this node does not originate
leaves the neighbor's route at infinity or absent, and not selected, exactly when the router id in effect is not this node's own or
the neighbor had no finite route before it. -/
theorem retraction_takes_effect_iff {s : Speaker} {sent : List ReservedPacket} (h : Reachable s sent) {n : NeighborRef} {src : Addr}
    {now : Time} {payload : List UInt8} {tlvs : List RawTLV} {k : Nat} {id : Option RouterID} {key : RouteKey}
    (hretract : s.Retracting n src now payload tlvs k id key) :
    (s.hearing n src tlvs now (k + 1)).speaker.Withdrawn n key ↔
      id ≠ some s.cfg.routerID ∨
        ∀ r, (s.hearing n src tlvs now k).speaker.routes.route n key = some r → r.rxMetric = metricInfinity := by
  obtain ⟨hreg, -, ⟨t, u, nextHop, ht, hread, hheard, hinf, hspecific, hkey⟩, hlocal⟩ := hretract
  obtain ⟨hsound, -, hreg, horiginate, hcfg⟩ := @hearing_spec s n now (good_reachable h).1.sound hreg src tlvs k
  rw [hearing_succ src ht, ← withdrawn_iff_route hsound, ← hcfg]
  rw [← horiginate] at hlocal
  have hdecoded := read_decoded (s.hearing n src tlvs now k).parser t
  generalize s.hearing n src tlvs now k = r at *
  rw [hread] at hdecoded
  obtain ⟨d, hdecoded⟩ := hdecoded
  have hstep : (r.step n (Speaker.packetHelloTS tlvs) now t).speaker = r.speaker.hearUpdate n u id nextHop now := by
    rw [Speaker.Receiving.step]
    dsimp only
    rw [hread]
    rfl
  rw [hstep]
  obtain ⟨hown, hsame⟩ | ⟨hother, hwithdrawn⟩ := @hearUpdate_retraction r.speaker n key now hsound hreg
    (updateKey_spec hdecoded hkey).1 hlocal u hheard hinf hspecific hkey id nextHop
  · rw [hsame]
    exact ⟨.inr, fun h => h.resolve_left (not_not.mpr hown)⟩
  · exact ⟨fun _ => .inl hother, fun _ => hwithdrawn⟩

/-- The retraction of the route a linked speaker learned, under a router id. -/
def retractionTLVs (id : RouterID) : List RawTLV := updateTLVs docKey ⟨id, 7, metricInfinity⟩ (16 * second)

theorem linkedSpeaker_retracting {id : RouterID} (h : id = 1 ∨ id = 2) :
    linkedSpeaker.Retracting 0 linkingAddr second (encodePacket (retractionTLVs id)) (retractionTLVs id) 1 (some id) docKey := by
  have hreg : linkedSpeaker.Registered 0 := by
    rw [Speaker.Registered]
    decide +kernel
  have hforeign : docKey ∉ linkedSpeaker.originate := by decide +kernel
  obtain rfl | rfl := h
  · exact ⟨hreg, by decide +kernel,
      ⟨_, keyUpdate docKey 7 metricInfinity 1600, false, rfl, rfl, rfl, rfl, by decide, by decide +kernel⟩, hforeign⟩
  · exact ⟨hreg, by decide +kernel,
      ⟨_, keyUpdate docKey 7 metricInfinity 1600, false, rfl, rfl, rfl, rfl, by decide, by decide +kernel⟩, hforeign⟩

theorem retraction_takes_effect_linked :
    linkedSpeaker.Retracting 0 linkingAddr second (encodePacket (retractionTLVs 2)) (retractionTLVs 2) 1 (some 2) docKey ∧
      (linkedSpeaker.hearing 0 linkingAddr (retractionTLVs 2) second 2).speaker.Withdrawn 0 docKey :=
  ⟨linkedSpeaker_retracting (.inr rfl),
    (retraction_takes_effect_iff linkedSpeaker_reachable (linkedSpeaker_retracting (.inr rfl))).mpr (.inl (by decide +kernel))⟩

/-- The selected route of a neighbor, retracted by it under this node's own router id, stays finite and selected. -/
theorem own_id_retraction_dropped : ∃ s sent n src now payload tlvs k key, Reachable s sent ∧
    s.Retracting n src now payload tlvs k (some s.cfg.routerID) key ∧
      ∃ entry r, (s.hearing n src tlvs now (k + 1)).speaker.routes.entries.lookup key = some entry ∧
        entry.routes.lookup n = some r ∧ r.rxMetric ≠ metricInfinity ∧ entry.selected.neighbor = some n := by
  refine ⟨linkedSpeaker, _, 0, linkingAddr, second, _, _, 1, docKey, linkedSpeaker_reachable,
    linkedSpeaker_retracting (.inl rfl), ?_⟩
  have hfinal : (((linkedSpeaker.hearing 0 linkingAddr (retractionTLVs 1) second 2).speaker.routes.entries.lookup docKey).bind
      fun entry => (entry.routes.lookup 0).map fun r => (r.rxMetric, entry.selected.neighbor)) = some (96, some 0) := by
    decide +kernel
  obtain ⟨entry, hentry, hroute⟩ := Option.bind_eq_some_iff.mp hfinal
  obtain ⟨r, hr, hmetric⟩ := Option.map_eq_some_iff.mp hroute
  rw [Prod.mk.injEq] at hmetric
  exact ⟨entry, r, hentry, hr, by rw [hmetric.1]; decide, hmetric.2⟩

end RanetLite.Babel
