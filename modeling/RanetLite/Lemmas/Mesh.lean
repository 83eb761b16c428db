import RanetLite.Babel.Mesh
import RanetLite.Lemmas.Operations

/-!
# What a call changes in the mesh

`Mesh.Delta` says what a call of one node does to the mesh, as a run of its node: finite routes come from packets under way, packets
put under way say what was told, and everything else stays. Every act is such a call, or leaves the nodes alone (`delta_of_enabled`).
-/

namespace RanetLite.Babel

open Netip OpAux WireAux

namespace Node

variable {r : Offer} {now : Time} {v v' : Node} {n : NeighborRef}

/-- A route that is still finite after it was weakened is the same route. -/
theorem Weaker.eq {r' : Offer} (h : Weaker r r') (hm : r'.metric ≠ metricInfinity) : r' = r := by
  obtain ⟨hid, hseq, hhold, hinf | ⟨hmetric, hexp⟩⟩ := h
  · exact absurd hinf hm
  · cases r
    cases r'
    simp_all

/-- A finite route after a step was there before it, or was heard in it. -/
theorem Step.finite_route {effect : Option Effect} (h : Step now v effect v') {key : RouteKey} {e : NodeEntry}
    (he : v'.entries key = some e) (hr : e.routes n = some r) (hm : r.metric ≠ metricInfinity) :
    (∃ e0, v.entries key = some e0 ∧ e0.routes n = some r) ∨
      ∃ adv hold, effect = some (.heard n key adv hold) ∧ adv.metric ≠ metricInfinity ∧ Learned adv hold now r := by
  cases h with
  | @weaken _ k e0 routes hentry hweak hsettles =>
    left
    by_cases hk : key = k
    · subst hk
      obtain ⟨r1, hr1, haged⟩ := hsettles.entries.2 e he n r hr
      obtain rfl := haged.1.eq hm
      obtain ⟨r2, hr2, hweaker⟩ := hweak n r hr1
      obtain rfl := hweaker.eq hm
      exact ⟨e0, hentry, hr2⟩
    · rw [hsettles.entries.1 key hk] at he
      exact ⟨e, he, hr⟩
  | @learn _ m k adv hold r0 _ _ _ _ hlearned hsettles =>
    by_cases hk : key = k
    · subst hk
      obtain ⟨r1, hr1, haged⟩ := hsettles.entries.2 e he n r hr
      obtain rfl := haged.1.eq hm
      by_cases hn : n = m
      · subst hn
        rw [Function.update_self, Option.some.injEq] at hr1
        subst hr1
        exact .inr ⟨adv, hold, rfl, by rw [← hlearned.2.2.1]; exact hm, hlearned⟩
      · rw [Function.update_of_ne hn, entryOf] at hr1
        cases hentry : v.entries key with
        | none =>
          rw [hentry] at hr1
          exact absurd hr1 (by simp)
        | some e0 =>
          rw [hentry, Option.getD_some] at hr1
          exact .inl ⟨e0, rfl, hr1⟩
    · rw [hsettles.entries.1 key hk] at he
      exact .inl ⟨e, he, hr⟩
  | @adopt k _ =>
    by_cases hk : key = k
    · subst hk
      dsimp only at he
      rw [Function.update_self] at he
      exact absurd he (by simp)
    · dsimp only at he
      rw [Function.update_of_ne hk] at he
      exact .inl ⟨e, he, hr⟩
  | tell | retract | restore | collect | raise | disown | register | unregister => exact .inl ⟨e, he, hr⟩

/-- A finite route after a run was there before it, or was heard in it. -/
theorem Run.finite_route {effects : List Effect} (h : Run now v effects v') {key : RouteKey} {e : NodeEntry}
    (he : v'.entries key = some e) (hr : e.routes n = some r) (hm : r.metric ≠ metricInfinity) :
    (∃ e0, v.entries key = some e0 ∧ e0.routes n = some r) ∨
      ∃ adv hold, .heard n key adv hold ∈ effects ∧ adv.metric ≠ metricInfinity ∧ Learned adv hold now r := by
  induction h with
  | refl => exact .inl ⟨e, he, hr⟩
  | step hstep _ ih =>
    obtain ⟨e1, he1, hr1⟩ | ⟨adv, hold, hmem, hrest⟩ := ih he
    · obtain h0 | ⟨adv, hold, rfl, hrest⟩ := hstep.finite_route he1 hr1 hm
      · exact .inl h0
      · exact .inr ⟨adv, hold, List.mem_append_left _ (List.mem_singleton_self _), hrest⟩
    · exact .inr ⟨adv, hold, List.mem_append_right _ hmem, hrest⟩

/-- The peer of a neighbor that was made stays. -/
theorem Step.peer {effect : Option Effect} (h : Step now v effect v') : v.fresh ≤ v'.fresh ∧ ∀ n < v.fresh, v'.peer n = v.peer n := by
  cases h with
  | weaken _ _ hsettles | learn _ _ _ _ _ hsettles =>
    obtain ⟨routes, sel, empty, -, -, -⟩ := hsettles
    cases empty <;> exact ⟨Nat.le_refl _, fun _ _ => rfl⟩
  | register => exact ⟨Nat.le_succ _, fun n hn => Function.update_of_ne (Nat.ne_of_lt hn) _ _⟩
  | tell | retract | restore | collect | raise | adopt | disown | unregister => exact ⟨Nat.le_refl _, fun _ _ => rfl⟩

theorem Run.peer {effects : List Effect} (h : Run now v effects v') : v.fresh ≤ v'.fresh ∧ ∀ n < v.fresh, v'.peer n = v.peer n := by
  induction h with
  | refl => exact ⟨Nat.le_refl _, fun _ _ => rfl⟩
  | step hstep _ ih =>
    obtain ⟨hfresh, hpeer⟩ := hstep.peer
    exact ⟨hfresh.trans ih.1, fun n hn => (ih.2 n (Nat.lt_of_lt_of_le hn hfresh)).trans (hpeer n hn)⟩

/-- A registered neighbor was made. -/
theorem Sound.lt_fresh (h : v.Sound) (hreg : v.Registered n) : n < v.fresh := (h.names hreg).2

end Node

/-- A packet says that a prefix is reachable: a receiver reads a finite Update for the key from it. -/
def Flight.Says (f : Flight) (key : RouteKey) (adv : Advertisement) (interval : UInt16) : Prop :=
  adv.metric ≠ metricInfinity ∧ ∃ u, .update (some adv.routerID) u ∈ packetItems f.packet.payload ∧ updateKey u = some key ∧
    u.seqno = adv.seqno ∧ u.metric = adv.metric ∧ u.interval = interval

namespace Mesh

variable {ι : Type}

/-- Every node is in a state its own calls lead to. -/
def Good (w : Mesh ι) : Prop := ∀ i, Reachable (w.node i) (w.sent i)

theorem Good.sound {w : Mesh ι} (h : w.Good) (i : ι) : (w.node i).node.Sound := (good_reachable (h i)).1.sound

/-- What a call of node `i` at `now` does to the mesh. -/
structure Delta (far : ι → String → ι) (w : Mesh ι) (a : Act ι) (w' : Mesh ι) (i : ι) (now : Time) (effects : List Node.Effect) :
    Prop where
  time : a.time = some now
  clock : w'.clock = now
  nodes : ∀ j, j ≠ i → w'.node j = w.node j
  flights : ∀ j, j ≠ i → w'.flights j = w.flights j
  cfg : (w'.node i).cfg = (w.node i).cfg
  run : Node.Run now (w.node i).node effects (w'.node i).node
  raises : (effects.filter Node.Effect.isRaised).length ≤ 1
  heard : ∀ {n key adv hold}, .heard n key adv hold ∈ effects → adv.metric ≠ metricInfinity → (w.node i).node.Registered n ∧
    ∃ peer src f rs interval, a = .deliver i peer src f rs now ∧ f ∈ w.flights (far i ((w.node i).heap n).peer.id) ∧
      f.Says key adv interval ∧ hold = deadTimeout (centis interval)
  told : ∀ f ∈ w'.flights i, f ∈ w.flights i ∨ f.sentAt = now ∧ ∀ key adv interval, f.Says key adv interval →
    ∃ n spent, .told n key adv spent ∈ effects
  kept : ∀ f ∈ w.flights i, f ∈ w'.flights i
  collected : ∀ index, .collected index ∈ effects → ∃ op d, a = .call i op now ∧ op.sweeps = true ∧
    (w.node i).node.sources index = some d ∧ d.gcAt ≤ now
  steady : ∀ {n key adv spent}, .told n key adv spent ∈ effects → .changed ∉ effects

/-- An act that changes no node, and at most loses packets. -/
structure Same (w w' : Mesh ι) : Prop where
  clock : w'.clock = w.clock
  node : ∀ i, (w'.node i).node = (w.node i).node
  cfg : ∀ i, (w'.node i).cfg = (w.node i).cfg
  flights : ∀ i, ∀ f ∈ w'.flights i, f ∈ w.flights i

namespace MeshAux

variable [DecidableEq ι] {far : ι → String → ι} {w : Mesh ι} {i : ι} {now : Time} {s : Speaker} {a : Act ι}

/-- The key a receiver reads from an Update that was sent is the key it was sent for. -/
theorem updateKey_sentUpdate {key key' : RouteKey} (hc : key.Canonical) {adv : Advertisement} {interval : UInt16}
    (h : updateKey (sentUpdate key adv interval) = some key') : key' = key := by
  rw [@updateKey_of_key key hc (sentUpdate key adv interval) rfl rfl rfl] at h
  split_ifs at h
  exact (Option.some.inj h).symm

theorem said_of_acts {s' : Speaker} {packets : List ReservedPacket} {effects : List Node.Effect} (h : Acts now s s' packets effects)
    {f : Flight} (hf : f ∈ packets.map (⟨·, now⟩ : ReservedPacket → Flight)) :
    f.sentAt = now ∧ ∀ key adv interval, f.Says key adv interval → ∃ n spent, .told n key adv spent ∈ effects := by
  obtain ⟨p, hp, rfl⟩ := List.mem_map.mp hf
  refine ⟨rfl, ?_⟩
  rintro key adv interval ⟨-, u, hu, hkey, hseq, hmetric, -⟩
  obtain ⟨key', adv', spent, htold, hc, hid, rfl⟩ := h.said p hp _ u hu
  obtain rfl := updateKey_sentUpdate hc hkey
  obtain ⟨routerID, seqno, metric⟩ := adv
  obtain ⟨routerID', seqno', metric'⟩ := adv'
  obtain rfl : routerID = routerID' := Option.some.inj hid
  obtain rfl : seqno' = seqno := hseq
  obtain rfl : metric' = metric := hmetric
  exact ⟨_, spent, htold⟩

/-- What a call hears, tells and collects, from what it can show. -/
theorem shows_spec {op : Op} {effects : List Node.Effect} (hshows : ∀ e ∈ effects, op.Shows s now e) :
    (∀ index, .collected index ∈ effects → op.sweeps = true ∧ ∃ d, s.node.sources index = some d ∧ d.gcAt ≤ now) ∧
    (∀ {n key adv spent}, .told n key adv spent ∈ effects → .changed ∉ effects) ∧
    ∀ {n key adv hold}, .heard n key adv hold ∈ effects → ∃ peer src payload rs, op = .receive peer src payload rs ∧
      s.neighbors.lookup peer.id = some n ∧ (s.heap n).peer = peer ∧ FromPacket n (packetItems payload) (.heard n key adv hold) := by
  refine ⟨fun index h => ?_, fun {n key adv spent} htold hchanged => ?_, fun {n key adv hold} hheard => ?_⟩
  · have hshow := hshows _ h
    cases op with
    | receive =>
      obtain ⟨_, -, -, hfrom⟩ := hshow
      exact hfrom.elim
    | pass | sweep =>
      obtain htold | hsel | ⟨index', d, heq, hd⟩ := hshow
      · exact absurd htold (by simp [Node.Effect.isTold])
      · exact absurd hsel (by simp)
      · obtain rfl := Node.Effect.collected.inj heq
        exact ⟨rfl, d, hd⟩
    | addPeer | removePeer | originateFrom | setOriginated | start | noteLost => simp [Op.Shows] at hshow
  · have hshow := hshows _ htold
    have hshow' := hshows _ hchanged
    cases op with
    | receive =>
      obtain ⟨_, -, -, hfrom⟩ := hshow'
      exact hfrom
    | pass | sweep => simp [Op.Shows, Node.Effect.isTold] at hshow'
    | addPeer | removePeer | originateFrom | setOriginated | start | noteLost => simp [Op.Shows] at hshow
  · have hshow := hshows _ hheard
    cases op with
    | receive peer src payload rs =>
      obtain ⟨m, hlookup, hpeer, hfrom⟩ := hshow
      obtain rfl : n = m := hfrom.1
      exact ⟨peer, src, payload, rs, rfl, hlookup, hpeer, hfrom⟩
    | pass | sweep => simp [Op.Shows, Node.Effect.isTold] at hshow
    | addPeer | removePeer | originateFrom | setOriginated | start | noteLost => simp [Op.Shows] at hshow

/-- A call of a node, heard or not. -/
theorem delta_called (hgood : w.Good) (htime : a.time = some now) {op : Op} (hcall : op.isReceive = false → a = .call i op now)
    (hheard : ∀ peer src payload rs, op = .receive peer src payload rs →
      ∃ f ∈ w.flights (far i peer.id), f.packet.payload = payload ∧ a = .deliver i peer src f rs now) :
    ∃ effects, Delta far w a (w.called i now ((w.node i).apply now op)) i now effects := by
  obtain ⟨effects, hacts, hshows, -, -⟩ := acts_apply (good_reachable (hgood i)).1 now op
  obtain ⟨hcollected, hsteady, hhears⟩ := shows_spec hshows
  have hnode : (w.called i now ((w.node i).apply now op)).node i = ((w.node i).apply now op).1 := Function.update_self _ _ _
  have hflights : (w.called i now ((w.node i).apply now op)).flights i =
      w.flights i ++ ((w.node i).apply now op).2.map (⟨·, now⟩) := Function.update_self _ _ _
  refine ⟨effects, htime, rfl, fun j hj => Function.update_of_ne hj _ _, fun j hj => Function.update_of_ne hj _ _,
    by rw [hnode]; exact hacts.cfg, by rw [hnode]; exact hacts.run, hacts.raises, fun {n key adv hold} hmem hm => ?_,
    fun f hf => ?_, fun f hf => by rw [hflights]; exact List.mem_append_left _ hf, fun index hmem => ?_, hsteady⟩
  · obtain ⟨peer, src, payload, rs, hop, hlookup, rfl, hfrom⟩ := hhears hmem
    obtain ⟨f, hf, rfl, hact⟩ := hheard _ src payload rs hop
    obtain ⟨u, hu, -, hkey, hseq, hmetric, hhold⟩ := hfrom.2 hm
    exact ⟨hlookup, _, src, f, rs, u.interval, hact, hf, ⟨hm, u, hu, hkey, hseq, hmetric, rfl⟩, hhold⟩
  · rw [hflights, List.mem_append] at hf
    exact hf.imp_right (said_of_acts hacts)
  · obtain ⟨hsweeps, d, hd⟩ := hcollected index hmem
    refine ⟨op, d, hcall ?_, hsweeps, hd⟩
    cases op with
    | receive => exact absurd hsweeps (by simp [Op.sweeps])
    | _ => rfl

/-- Every act is a call of one node, or leaves the nodes alone. -/
theorem delta_of_enabled (hgood : w.Good) (hen : (system far).enabled w a) :
    Same w ((system far).apply w a) ∨ ∃ i now effects, Delta far w a ((system far).apply w a) i now effects := by
  cases a with
  | call i op now =>
    refine .inr ⟨i, now, delta_called hgood rfl (fun _ => rfl) fun peer src payload rs hop => ?_⟩
    obtain ⟨hno, -⟩ := hen
    rw [hop] at hno
    exact absurd hno (by simp [Op.isReceive])
  | deliver i peer src f rs now =>
    refine .inr ⟨i, now, delta_called hgood rfl (fun hno => absurd hno (by simp [Op.isReceive])) fun peer' src' payload rs' hop => ?_⟩
    obtain ⟨rfl, rfl, rfl, rfl⟩ := Op.receive.inj hop
    exact ⟨f, hen.1, rfl, rfl⟩
  | lose i f =>
    refine .inl ⟨rfl, fun _ => rfl, fun _ => rfl, fun j g hg => ?_⟩
    by_cases hj : j = i
    · subst hj
      exact List.mem_of_mem_erase ((congrArg (g ∈ ·) (Function.update_self j _ w.flights)).mp hg)
    · exact (congrArg (g ∈ ·) (Function.update_of_ne hj _ w.flights)).mp hg
  | reorder i s =>
    have hnode : ∀ j, ((((system far).apply w (.reorder i s)).node j).node = (w.node j).node) ∧
        (((system far).apply w (.reorder i s)).node j).cfg = (w.node j).cfg := by
      intro j
      show (Function.update w.node i s j).node = _ ∧ (Function.update w.node i s j).cfg = _
      by_cases hj : j = i
      · subst hj
        rw [Function.update_self]
        exact ⟨(node_reordered hen).1, (node_reordered hen).2.1⟩
      · rw [Function.update_of_ne hj]
        exact ⟨rfl, rfl⟩
    exact .inl ⟨rfl, fun j => (hnode j).1, fun j => (hnode j).2, fun _ _ hf => hf⟩

/-- Every act keeps the nodes reachable. -/
theorem good_of_enabled (hgood : w.Good) (hen : (system far).enabled w a) : ((system far).apply w a).Good := by
  have hcalled : ∀ {i now op}, op.Allowed (w.sent i) → (w.called i now ((w.node i).apply now op)).Good := by
    intro i now op hallowed j
    show Reachable (Function.update w.node i _ j) (Function.update w.sent i _ j)
    by_cases hj : j = i
    · subst hj
      rw [Function.update_self, Function.update_self]
      exact .call (hgood j) op now hallowed
    · rw [Function.update_of_ne hj, Function.update_of_ne hj]
      exact hgood j
  cases a with
  | call i op now => exact hcalled hen.2
  | deliver i peer src f rs now => exact hcalled trivial
  | lose => exact hgood
  | reorder i s =>
    exact (Function.forall_update_iff w.node fun j s => Reachable s (w.sent j)).2 ⟨.reorder (hgood i) hen, fun j _ => hgood j⟩

omit [DecidableEq ι] in
theorem good_start (h : w.Start) : w.Good := by
  intro i
  obtain ⟨cfg, routes, rt, drawn, damp, hnew⟩ := h.node i
  rw [h.sent i]
  exact .new hnew

/-- A new speaker is an empty one that announced what it was configured to. -/
theorem run_new {cfg : Config} {routes : Routes} {rt drawn : Runtime} {damp : Damping}
    (h : Speaker.new cfg routes rt drawn damp = .ok s) (now : Time) :
    ∃ settings effects, Owned effects ∧ Node.Run now (Speaker.empty settings).node effects s.node := by
  obtain ⟨rt', -, rfl⟩ := new_ok h
  exact ⟨_, run_setOriginated (Speaker.empty (Speaker.settings cfg routes rt' damp)) routes.announce now⟩

end MeshAux
end Mesh

end RanetLite.Babel
