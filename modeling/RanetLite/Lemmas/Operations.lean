import RanetLite.Babel.Ops
import RanetLite.Lemmas.Emission
import RanetLite.Lemmas.Hearing

/-!
# Every call is a run of the node

`Acts` says what a call on a speaker does: the state moves by a run of the node that shows only what the call can show, and the Updates
in the packets it places are ones the run told. `acts_apply` proves it for every call, and `good_reachable` the invariants of every
reachable state.
-/

namespace RanetLite.Babel

open Netip Speaker SimAux BuildAux EmitAux HearAux RouteTable.SelectAux WireAux FibAux

namespace OpAux

variable {s s' : Speaker} {now : Time} {n : NeighborRef}

/-- Hellos that were missed. -/
theorem keeps_missHellos (now : Time) : ∀ (fuel : Nat) (st : NeighborState), HelloKeeps st (NeighborState.missHellos now fuel st) := by
  intro fuel
  induction fuel with
  | zero => exact fun _ => ⟨⟨rfl, rfl, rfl⟩, rfl, rfl⟩
  | succ fuel ih =>
    intro st
    rw [NeighborState.missHellos]
    split_ifs
    · exact ⟨(ih st.missHello).keeps, (ih st.missHello).rtt⟩
    · exact ⟨⟨rfl, rfl, rfl⟩, rfl, rfl⟩

/-- The link timers of a sweep. -/
theorem keeps_sweep (st : NeighborState) (now : Time) : Keeps st (st.sweep now) := by
  have hkeep : ∀ {st1 st2 : NeighborState} {c : Bool}, Keeps st st1 → Keeps st1 st2 → Keeps st (if c then st2 else st1) := by
    intro st1 st2 c h h'
    cases c with
    | false => exact h
    | true => exact ⟨h'.1.trans h.1, h'.2.1.trans h.2.1, h'.2.2.trans h.2.2⟩
  exact hkeep (hkeep (hkeep (keeps_missHellos now historyDepth st).keeps ⟨rfl, rfl, rfl⟩) ⟨rfl, rfl, rfl⟩) ⟨rfl, rfl, rfl⟩

/-- The link timers are not the protocol's. -/
theorem quiet_sweepLinks (s : Speaker) (now : Time) :
    Quiet now s (s.registered.foldl (fun s n => s.modify n (·.sweep now)) s) :=
  quiet_foldl (fun _ _ => quiet_modify (keeps_sweep _ now).1 (keeps_sweep _ now).2.1 (keeps_sweep _ now).2.2 (.sweep _)) s.registered s

/-- A sweep of one request writes the tables of requests. -/
theorem requests_sweepPending (s : Speaker) (now : Time) (index : SourceKey) : OnlyRequests s (s.sweepPending now index) := by
  unfold Speaker.sweepPending
  split
  · exact rfl
  · split_ifs <;> exact rfl

/-- So does that of one question. -/
theorem requests_sweepAsked (s : Speaker) (now : Time) (index : AskedKey) : OnlyRequests s (s.sweepAsked now index) := by
  unfold Speaker.sweepAsked
  split
  · exact rfl
  · split_ifs <;> exact rfl

/-- The sweep of the requests is quiet. -/
theorem quiet_sweepRequests (s : Speaker) (now : Time) : Quiet now s (s.sweepRequests now) := by
  have hfirst : Quiet now s { s with nextRequestSweep := 0 } := OnlyRequests.quiet rfl (.rest rfl)
  exact hfirst.trans ((quiet_foldl (fun s index => (requests_sweepPending s now index).quiet (.pending index)) _ _).trans
    (quiet_foldl (fun s index => (requests_sweepAsked s now index).quiet (.asked index)) _ _))

/-- The sweep of a pass: every key is selected again, and the distances that are due are collected. -/
theorem run_sweepExpired (s : Speaker) (now : Time) : Frame s (s.sweepExpired now) ∧
    Speaker.Writes now s (s.sweepExpired now) ∧
    ∃ effects, Node.Run now s.node effects (s.sweepExpired now).node ∧ s.node.Collects now effects := by
  have hlinks := quiet_sweepLinks s now
  unfold Speaker.sweepExpired
  generalize s.registered.foldl (fun s n => s.modify n (·.sweep now)) s = s1 at hlinks ⊢
  obtain ⟨effects, hrun, hcollects⟩ := run_sweepTable s1 now
  have hrequests := quiet_sweepRequests { s1 with routes := s1.routes.sweepExpired s1.heap now } now
  have hsweep : Speaker.Write now s1 { s1 with routes := s1.routes.sweepExpired s1.heap now } := .table .sweepExpired trivial
  refine ⟨hlinks.frame.trans ((frame_routes s1 _).trans hrequests.frame), (hlinks.writes.tail hsweep).trans hrequests.writes, effects,
    ?_, ?_⟩
  · rw [hrequests.node, ← hlinks.node]
    exact hrun
  · rw [← hlinks.node]
    exact hcollects

/-- A sweep raises nothing. -/
theorem filter_raised_collects {v : Node} {effects : List Node.Effect} (h : v.Collects now effects) :
    effects.filter Node.Effect.isRaised = [] := by
  refine List.filter_eq_nil_iff.mpr fun e he => ?_
  obtain rfl | ⟨index, d, rfl, -⟩ := h e he <;> simp [Node.Effect.isRaised]

/-- A fresh neighbor in the place of a registration without routes. -/
theorem run_register (s : Speaker) (peer : Peer) (now : Time)
    (hgone : ∀ old, s.neighbors.lookup peer.id = some old → ∀ key e, s.node.entries key = some e → e.routes old = none) :
    Node.Run now s.node [.changed] ({ s with
      heap := Function.update s.heap s.nextRef { peer := peer }, nextRef := s.nextRef + 1
      neighbors := s.neighbors.insert peer.id s.nextRef, updatePending := true } : Speaker).wake.node := by
  have hneighbors : (fun id => (s.neighbors.insert peer.id s.nextRef).lookup id) =
      Function.update (fun id => s.neighbors.lookup id) peer.id (some s.nextRef) := by
    funext id
    by_cases hid : id = peer.id
    · rw [hid, AList.lookup_insert, Function.update_self]
    · rw [AList.lookup_insert_ne hid, Function.update_of_ne hid]
  have hheap : ∀ {β : Type} (g : NeighborState → β),
      (fun n => g (Function.update s.heap s.nextRef { peer := peer } n)) =
        Function.update (fun n => g (s.heap n)) s.nextRef (g { peer := peer }) := by
    intro β g
    funext n
    by_cases hn : n = s.nextRef
    · rw [hn, Function.update_self, Function.update_self]
    · rw [Function.update_of_ne hn, Function.update_of_ne hn]
  have hstep : Node.Run now s.node [.changed] _ := .shown (.register peer hgone)
  have hfresh : {key | key ∈ ({ peer := peer } : NeighborState).advertised} = ∅ := by
    ext key
    simp
  convert hstep using 1
  simp only [Speaker.node, Speaker.wake, hneighbors]
  rw [hheap (·.peer), hheap fun st => {key | key ∈ st.advertised}, hfresh]

/-- What a call of the owner shows. -/
def Owned (effects : List Node.Effect) : Prop := ∀ e ∈ effects, e = .changed ∨ e = .selected

/-- What only changes is the owner's. -/
theorem owned_changed {effects : List Node.Effect} (h : ∀ e ∈ effects, e = .changed) : Owned effects := fun e he => .inl (h e he)

/-- `AddPeer`: the routes of a registration it replaces go, and a fresh neighbor is registered. -/
theorem run_addPeer (s : Speaker) (peer : Peer) (now : Time) :
    ∃ effects, Owned effects ∧ Node.Run now s.node effects (s.addPeer peer now).1.node := by
  unfold Speaker.addPeer
  cases hold : s.neighbors.lookup peer.id with
  | none =>
    exact ⟨[.changed], owned_changed (by simp), run_register s peer now fun old h => absurd (hold.symm.trans h) (by simp)⟩
  | some old =>
    obtain ⟨⟨effects, heff, hrun⟩, hgone⟩ := run_expireNeighbor s old now
    refine ⟨effects ++ [.changed], List.forall_mem_append.mpr ⟨fun e he => .inr (heff e he), by simp⟩,
      hrun.trans (run_register { s with routes := s.routes.expireNeighbor s.heap old now } peer now fun old' h => ?_)⟩
    obtain rfl := Option.some.inj (hold.symm.trans h)
    exact hgone

/-- `removePeer`: a stale handle changes nothing; the routes of a registered neighbor go with it. -/
theorem run_removePeer (s : Speaker) (n : NeighborRef) (now : Time) :
    ∃ effects, Owned effects ∧ Node.Run now s.node effects (s.removePeer n now).node := by
  unfold Speaker.removePeer
  split_ifs with hreg
  · exact ⟨[], by simp [Owned], .refl _⟩
  · rw [not_not] at hreg
    obtain ⟨⟨effects, heff, hrun⟩, hgone⟩ := run_expireNeighbor s n now
    refine ⟨effects ++ [.changed], List.forall_mem_append.mpr ⟨fun e he => .inr (heff e he), by simp⟩, hrun.trans ?_⟩
    have hneighbors : (fun id => (s.neighbors.erase (s.heap n).peer.id).lookup id) =
        Function.update (fun id => s.neighbors.lookup id) (s.heap n).peer.id none := by
      funext id
      by_cases hid : id = (s.heap n).peer.id
      · rw [hid, AList.lookup_erase, Function.update_self]
      · rw [AList.lookup_erase_ne hid, Function.update_of_ne hid]
    have hreg' : ({ s with routes := s.routes.expireNeighbor s.heap n now } : Speaker).node.Registered n := hreg
    have hstep : Node.Run now _ [.changed] _ := .shown (.unregister hreg' hgone)
    convert hstep using 1
    simp only [Speaker.node, Speaker.wake, hneighbors]

/-- Adopting keys one after another. -/
theorem run_adopts (now : Time) {keys : List RouteKey} (hkeys : ∀ key ∈ keys, key.Canonical) : ∀ v : Node,
    ∃ effects, (∀ e ∈ effects, e = .changed) ∧ Node.Run now v effects { v with
      originate := {key | key ∈ keys} ∪ v.originate
      entries := fun key => if key ∈ keys then none else v.entries key
      fib := keys.foldl (fun fib key => fib.set key.source key.dest .unreachable) v.fib } := by
  induction keys with
  | nil => exact fun v => ⟨[], by simp, by simpa using .refl v⟩
  | cons key rest ih =>
    intro v
    have hstep : Node.Run now v [.changed] _ := .shown (.adopt (hkeys key List.mem_cons_self))
    obtain ⟨effects, hchanged, hrun⟩ := ih (fun k hk => hkeys k (List.mem_cons_of_mem _ hk)) _
    have hall : Node.Run now v (.changed :: effects) _ := hstep.trans hrun
    refine ⟨.changed :: effects, by simpa using hchanged, ?_⟩
    convert hall using 1
    refine Node.ext rfl rfl rfl rfl rfl rfl rfl ?_ ?_ rfl rfl
    · ext k
      simp only [List.mem_cons, Set.mem_union, Set.mem_ofPred_eq, Set.mem_insert_iff]
      tauto
    · funext k
      by_cases hk : k = key <;> simp [hk]

/-- Disowning keys one after another. -/
theorem run_disowns (now : Time) {keys : List RouteKey} : ∀ v : Node, (∀ key ∈ keys, key ∈ v.originate) → keys.Nodup →
    ∃ effects, (∀ e ∈ effects, e = .changed) ∧ Node.Run now v effects { v with
      originate := v.originate \ {key | key ∈ keys}
      fib := keys.foldl (fun fib key => fib.remove key.source key.dest) v.fib } := by
  induction keys with
  | nil => exact fun v _ _ => ⟨[], by simp, by simpa using .refl v⟩
  | cons key rest ih =>
    intro v hkeys hnodup
    rw [List.nodup_cons] at hnodup
    have hstep : Node.Run now v [.changed] _ := .shown (.disown (hkeys key List.mem_cons_self))
    obtain ⟨effects, hchanged, hrun⟩ := ih { v with
        originate := v.originate \ {key}, fib := v.fib.remove key.source key.dest }
      (fun k hk => ⟨hkeys k (List.mem_cons_of_mem _ hk), fun heq => hnodup.1 (heq ▸ hk)⟩) hnodup.2
    have hall : Node.Run now v (.changed :: effects) _ := hstep.trans hrun
    refine ⟨.changed :: effects, by simpa using hchanged, ?_⟩
    convert hall using 1
    refine Node.ext rfl rfl rfl rfl rfl rfl rfl ?_ rfl rfl rfl
    ext k
    simp only [List.mem_cons, Set.mem_sdiff, Set.mem_ofPred_eq, Set.mem_singleton_iff]
    tauto

/-- `OriginateFrom` adopts a key it accepts. -/
theorem run_originateFrom (s : Speaker) (dest source : Prefix) (now : Time) :
    ∃ effects, Owned effects ∧ Node.Run now s.node effects (s.originateFrom dest source).node := by
  unfold Speaker.originateFrom
  cases horigin : originatedKey dest source with
  | none => exact ⟨[], by simp [Owned], .refl _⟩
  | some key =>
    refine ⟨[.changed], owned_changed (by simp), ?_⟩
    have hstep : Node.Run now s.node [.changed] _ := .shown (.adopt (originatedKey_canonical horigin))
    convert hstep using 1
    simp only [Speaker.node, Speaker.wake, Speaker.adoptOriginated, mem_insert_set, lookup_erase_map]

/-- Releasing keys writes the forwarding table alone. -/
theorem foldl_releaseOriginated (keys : List RouteKey) : ∀ s : Speaker, keys.foldl Speaker.releaseOriginated s =
    { s with routes := { s.routes with
      fib := keys.foldl (fun fib key => fib.remove key.source key.dest) s.routes.fib } } := by
  induction keys with
  | nil => exact fun _ => rfl
  | cons key rest ih => exact fun s => ih (s.releaseOriginated key)

/-- Adopting keys writes the route table alone. -/
theorem foldl_adoptOriginated (keys : List RouteKey) : ∀ s : Speaker, keys.foldl Speaker.adoptOriginated s =
    { s with routes := keys.foldl RouteTable.adopt s.routes } := by
  induction keys with
  | nil => exact fun _ => rfl
  | cons key rest ih => exact fun s => ih (s.adoptOriginated key)

/-- What the protocol sees of keys that are adopted. -/
theorem node_foldl_adoptOriginated (keys : List RouteKey) : ∀ s : Speaker, (keys.foldl Speaker.adoptOriginated s).node =
    { s.node with
      entries := fun key => if key ∈ keys then none else s.node.entries key
      fib := keys.foldl (fun fib key => fib.set key.source key.dest .unreachable) s.node.fib } := by
  induction keys with
  | nil =>
    intro s
    simp
  | cons key rest ih =>
    intro s
    rw [List.foldl_cons, ih]
    refine Node.ext rfl rfl rfl rfl rfl rfl rfl rfl ?_ rfl rfl
    have hfirst : (s.adoptOriginated key).node.entries = Function.update s.node.entries key none :=
      lookup_erase_map s.routes.entries key KeyEntry.node
    funext k
    rw [hfirst]
    by_cases hk : k = key <;> simp [hk]

/-- The wanted keys are those of the announcements that are accepted. -/
theorem mem_wantedKeys {routes : List Announce} {key : RouteKey} :
    key ∈ Speaker.wantedKeys routes ↔ ∃ r ∈ routes, originatedKey r.destination r.source = some key := by
  refine Iff.trans ?_ (or_iff_right (a := key ∈ (∅ : GoSet RouteKey)) (AList.notMem_empty key))
  unfold Speaker.wantedKeys
  generalize (∅ : GoSet RouteKey) = wanted
  induction routes generalizing wanted with
  | nil => simp
  | cons r rest ih =>
    rw [List.foldl_cons, ih]
    cases hr : originatedKey r.destination r.source with
    | none => simp [hr]
    | some k =>
      simp only [AList.mem_insert, List.exists_mem_cons_iff, hr, Option.some.injEq, eq_comm (a := key), or_left_comm, or_assoc]

/-- A wanted key is canonical. -/
theorem wantedKeys_canonical {routes : List Announce} {key : RouteKey} (h : key ∈ Speaker.wantedKeys routes) : key.Canonical := by
  obtain ⟨r, -, hr⟩ := mem_wantedKeys.mp h
  exact originatedKey_canonical hr

/-- `SetOriginated` leaves exactly the wanted keys originated. -/
theorem mem_setOriginated (s : Speaker) (routes : List Announce) (key : RouteKey) :
    key ∈ (s.setOriginated routes).originate ↔ key ∈ Speaker.wantedKeys routes := by
  unfold Speaker.setOriginated
  generalize Speaker.wantedKeys routes = wanted
  dsimp only
  split_ifs with hsame
  · -- nothing is gone and the counts agree, so the two lists of distinct keys are one up to order
    have hsub : s.originate.keys ⊆ wanted.keys := fun k hk => by
      by_contra hgone
      have : k ∈ s.originate.keys.filter (· ∉ wanted) := List.mem_filter.mpr ⟨hk, decide_eq_true (mt AList.mem_keys.mp hgone)⟩
      rw [hsame.2] at this
      exact absurd this (by simp)
    have hperm := (s.originate.keys_nodup.subperm hsub).perm_of_length_le hsame.1.le
    rw [AList.mem_keys, AList.mem_keys, hperm.mem_iff]
  · rw [foldl_adoptOriginated]
    exact Iff.rfl

/-- `SetOriginated` disowns what is gone and adopts what is wanted. -/
theorem run_setOriginated (s : Speaker) (routes : List Announce) (now : Time) :
    ∃ effects, Owned effects ∧ Node.Run now s.node effects (s.setOriginated routes).node := by
  unfold Speaker.setOriginated
  have hcanonical := @wantedKeys_canonical routes
  generalize Speaker.wantedKeys routes = wanted at hcanonical ⊢
  dsimp only
  split_ifs
  · exact ⟨[], by simp [Owned], .refl _⟩
  · obtain ⟨first, hfirst, hrun⟩ := @run_disowns now (s.originate.keys.filter (· ∉ wanted)) s.node
      (fun key hk => List.mem_of_mem_filter hk) (s.originate.keys_nodup.filter _)
    obtain ⟨later, hlater, hrun'⟩ := @run_adopts now wanted.keys (fun key hk => hcanonical hk) { s.node with
      originate := s.node.originate \ {key | key ∈ s.originate.keys.filter (· ∉ wanted)}
      fib := (s.originate.keys.filter (· ∉ wanted)).foldl (fun fib key => fib.remove key.source key.dest) s.node.fib }
    refine ⟨first ++ later, owned_changed (List.forall_mem_append.mpr ⟨hfirst, hlater⟩), ?_⟩
    convert hrun.trans hrun' using 1
    have hnode : ∀ t : Speaker, ({ t with updatePending := true } : Speaker).wake.node = t.node := fun _ => rfl
    rw [hnode, node_foldl_adoptOriginated, foldl_releaseOriginated]
    refine Node.ext rfl rfl rfl rfl rfl rfl rfl ?_ rfl rfl rfl
    ext key
    have horiginate : key ∈ s.node.originate ↔ key ∈ s.originate.keys := Iff.rfl
    have hwanted : key ∈ wanted ↔ key ∈ wanted.keys := Iff.rfl
    simp only [Speaker.node, Set.mem_union, Set.mem_sdiff, Set.mem_ofPred_eq, List.mem_filter, decide_eq_true_eq] at *
    rw [horiginate, hwanted]
    tauto

/-! ### The writes of the owner's calls -/

/-- `AddPeer` expires what it replaces and registers. -/
theorem writes_addPeer (s : Speaker) (peer : Peer) (now : Time) : Writes now s (s.addPeer peer now).1 := by
  have hregister : ∀ s : Speaker, Writes now s { s with
      heap := Function.update s.heap s.nextRef { peer := peer }, nextRef := s.nextRef + 1
      neighbors := s.neighbors.insert peer.id s.nextRef, updatePending := true }.wake := fun s =>
    .head (.register peer) (.single (.rest rfl))
  unfold Speaker.addPeer
  cases s.neighbors.lookup peer.id with
  | none => exact hregister s
  | some old => exact .head (.table (.expireNeighbor old) trivial) (hregister { s with routes := s.routes.expireNeighbor s.heap old now })

/-- `removePeer` expires and unregisters. -/
theorem writes_removePeer (s : Speaker) (n : NeighborRef) (now : Time) : Writes now s (s.removePeer n now) := by
  unfold Speaker.removePeer
  split_ifs
  · exact .refl
  · exact .head (.table (.expireNeighbor n) trivial) (.single (.rest rfl))

/-- Adopting is a call on the route table. -/
theorem writes_adoptOriginated (s : Speaker) (key : RouteKey) : Writes now s (s.adoptOriginated key) := .single (.table (.adopt key) trivial)

/-- `OriginateFrom` owns and adopts. -/
theorem writes_originateFrom (s : Speaker) (dest source : Prefix) : Writes now s (s.originateFrom dest source) := by
  unfold Speaker.originateFrom
  cases originatedKey dest source with
  | none => exact .refl
  | some key =>
    have hown : Write now s { s with originate := s.originate.insert key () } := .rest rfl
    exact .head hown ((writes_adoptOriginated _ key).tail (.rest rfl))

/-- `SetOriginated` releases, owns and adopts. -/
theorem writes_setOriginated (s : Speaker) (routes : List Announce) : Writes now s (s.setOriginated routes) := by
  unfold Speaker.setOriginated
  dsimp only
  split_ifs
  · exact .refl
  · have hown : ∀ s : Speaker, Write now s { s with originate := wantedKeys routes } := fun s => .rest rfl
    exact (writes_foldl (fun s key => .single (.table (.release key) trivial)) _ s).trans
      (.head (hown _) ((writes_foldl writes_adoptOriginated _ _).tail (.rest rfl)))

/-- A report is queued. -/
theorem writes_noteLost (s : Speaker) (n : NeighborRef) (undo : List TlvUndo) : Writes now s (s.noteLost n undo now) := by
  unfold Speaker.noteLost
  split_ifs
  · exact .refl
  · dsimp only
    split_ifs <;> exact .single (.rest rfl)

/-- `applyLostLocked` puts the spent records of lost packets back. -/
theorem run_applyLost {s : Speaker} (h : ∀ entry ∈ s.lost, entry.undo.key.Canonical) (now : Time) :
    Recalls now { s with lost := [] } s.applyLost :=
  recalls_foldl (fun s entry hentry => recalls_oweAgain s entry.neighbor fun _ => h entry hentry) _

end OpAux

/-- The Update a receiver reads from an advertisement of a key. -/
def sentUpdate (key : RouteKey) (adv : Advertisement) (interval : UInt16) : Update :=
  { keyUpdate key adv.seqno adv.metric interval with ignore := interval == 0 && adv.metric != metricInfinity }

/-- What a call does: writes that are a run of the node, and packets whose Updates the run told. -/
structure Acts (now : Time) (s s' : Speaker) (packets : List ReservedPacket) (effects : List Node.Effect) : Prop where
  cfg : s'.cfg = s.cfg
  writes : Speaker.Writes now s s'
  run : Node.Run now s.node effects s'.node
  raises : (effects.filter Node.Effect.isRaised).length ≤ 1
  said : ∀ p ∈ packets, ∀ id u, Item.update id u ∈ packetItems p.payload → ∃ key adv spent,
    .told p.neighbor key adv spent ∈ effects ∧ key.Canonical ∧ id = some adv.routerID ∧
      u = sentUpdate key adv (toCentis s.cfg.update)
  undone : ∀ p ∈ packets, ∀ undo ∈ p.undo, undo.key.Canonical

/-- The fields that only registration and the owner change. -/
structure Steady (s s' : Speaker) : Prop where
  neighbors : s'.neighbors = s.neighbors
  originate : s'.originate = s.originate
  nextRef : s'.nextRef = s.nextRef
  peer : ∀ n, (s'.heap n).peer = (s.heap n).peer

namespace OpAux

variable {s s' : Speaker} {now : Time} {n : NeighborRef}

/-- A frame is steady. -/
theorem steady_frame (h : Frame s s') : Steady s s' := ⟨h.neighbors, h.originate, h.nextRef, h.peer⟩

/-- Steady changes compose. -/
theorem steady_trans {s'' : Speaker} (h : Steady s s') (h' : Steady s' s'') : Steady s s'' :=
  ⟨h'.neighbors.trans h.neighbors, h'.originate.trans h.originate, h'.nextRef.trans h.nextRef,
    fun n => (h'.peer n).trans (h.peer n)⟩

/-- A call that sends nothing. -/
theorem acts_silent {effects : List Node.Effect} (hcfg : s'.cfg = s.cfg) (hw : Speaker.Writes now s s')
    (hrun : Node.Run now s.node effects s'.node) (hraises : (effects.filter Node.Effect.isRaised).length ≤ 1) :
    Acts now s s' [] effects := ⟨hcfg, hw, hrun, hraises, by simp, by simp⟩

/-- The Update an item of a packet of groups is, and the group it is from. -/
theorem update_mem_items {p : ReservedPacket} {packetSize : Nat} {t : NeighborRef × Addr × SendPriority} {chunk : List Group}
    (h : p.Carries packetSize t chunk) {id : Option RouterID} {u : Update} (hmem : .update id u ∈ packetItems p.payload) :
    ∃ routerID key seqno metric interval spent, .update routerID key seqno metric interval spent ∈ chunk ∧ id = some routerID ∧
      u = sentUpdate key ⟨routerID, seqno, metric⟩ interval := by
  have hitem : Item.update id u ∈ (packetItems p.payload).map Item.eraseStamp := List.mem_map.mpr ⟨_, hmem, rfl⟩
  rw [h.2.2.2.1] at hitem
  obtain ⟨g, hg, hgi⟩ := List.mem_flatMap.mp hitem
  cases g with
  | update routerID key seqno metric interval spent =>
    obtain ⟨rfl, rfl⟩ := Item.update.inj (List.mem_singleton.mp hgi)
    exact ⟨routerID, key, seqno, metric, interval, spent, hg, rfl, rfl⟩
  | hello | other => exact absurd hgi (by simp [Group.items])

/-- Building actions after a run, and emitting them. -/
theorem acts_emit {s0 s1 : Speaker} {via : Via} {P : Node.Effect → Prop} {actions : List SendAction} {before : List Node.Effect}
    (hmin : 63 ≤ s.cfg.packetSize) (hmax : s.cfg.packetSize < headerLen + 65536) (hcfg : s0.cfg = s.cfg)
    (hw : Speaker.Writes now s s0) (hrun : Node.Run now s.node before s0.node) (hbefore : before.filter Node.Effect.isRaised = [])
    (hb : Builds now via P s0 s1 actions) (rs : List Reservation) :
    ∃ effects, Acts now s (s1.emitLocked actions now rs).1 (s1.emitLocked actions now rs).2 (before ++ effects) ∧
      (∀ e ∈ effects, P e) ∧ Frame s0 (s1.emitLocked actions now rs).1 := by
  obtain ⟨effects, plan, hb⟩ := hb
  have hsize : s1.cfg.packetSize = s.cfg.packetSize := by rw [hb.frame.cfg, hcfg]
  obtain ⟨hrecalls, hpackets⟩ := @emitLocked_spec s1 (by omega) (by omega) plan hb.built.built now rs
  rw [hb.actions] at hrecalls hpackets
  refine ⟨effects, ⟨by rw [hrecalls.frame.cfg, hb.frame.cfg, hcfg], hw.trans (hb.writes.trans hrecalls.writes), ?_, ?_, ?_, ?_⟩,
    hb.shows, hb.frame.trans hrecalls.frame⟩
  · have hall := hrun.trans (hb.run.trans hrecalls.run)
    rwa [List.append_nil] at hall
  · have hraises := hb.raises
    have hle := s1.raisedSeqno.toNat_le
    rw [List.filter_append, hbefore, List.nil_append]
    omega
  · intro p hp id u hu
    obtain ⟨t, chunk, hcarry, hsub⟩ := hpackets p hp
    obtain ⟨routerID, key, seqno, metric, interval, spent, hg, hid, hu⟩ := update_mem_items hcarry hu
    obtain ⟨a, ha, hat, hga⟩ := mem_groupsFor (hsub _ hg)
    have hneighbor : a.1.neighbor = p.neighbor := by rw [hcarry.1, ← hat]; rfl
    have hinterval : interval = toCentis s0.cfg.update := hb.built.promises a ha _ hga
    refine ⟨key, ⟨routerID, seqno, metric⟩, spent, ?_, (hb.built.built a ha).ok _ hga, hid, by rw [hu, hinterval, hcfg]⟩
    have htold : Node.Effect.told p.neighbor key ⟨routerID, seqno, metric⟩ spent ∈ planned plan := by
      refine List.mem_flatMap.mpr ⟨a, ha, List.mem_filterMap.mpr ⟨_, hga, ?_⟩⟩
      rw [hneighbor]
      rfl
    rw [hb.told] at htold
    exact List.mem_append_right _ (List.mem_of_mem_filter htold)
  · intro p hp undo hu
    obtain ⟨t, chunk, hcarry, hsub⟩ := hpackets p hp
    refine owed_canonical (fun g hg => ?_) (mem_owed_of_undo hcarry.2.2.2.2 hu)
    obtain ⟨a, ha, -, hga⟩ := mem_groupsFor (hsub g hg)
    exact (hb.built.built a ha).ok g hga

/-- Waking the loop is quiet. -/
theorem quiet_wakeForPacket (now : Time) (s : Speaker) : Quiet now s s.wakeForPacket := by
  unfold Speaker.wakeForPacket
  split_ifs
  · exact quiet_timers rfl
  · exact .refl s

/-- A call and a quiet change after it. -/
theorem acts_quiet {s'' : Speaker} {packets : List ReservedPacket} {effects : List Node.Effect}
    (h : Acts now s s' packets effects) (hq : Quiet now s' s'') : Acts now s s'' packets effects :=
  { h with cfg := hq.frame.cfg.trans h.cfg, writes := h.writes.trans hq.writes, run := by rw [hq.node]; exact h.run }

end OpAux

/-- The invariants of a speaker. -/
structure Speaker.Good (s : Speaker) : Prop where
  sound : s.node.Sound
  minSize : 63 ≤ s.cfg.packetSize
  maxSize : s.cfg.packetSize < headerLen + 65536
  lost : ∀ entry ∈ s.lost, entry.undo.key.Canonical

/-- What a call can show. A packet is heard only from the exact registered peer. -/
def Op.Shows (s : Speaker) (now : Time) (op : Op) (e : Node.Effect) : Prop :=
  match op with
  | .receive peer _ payload _ =>
    ∃ n, s.neighbors.lookup peer.id = some n ∧ (s.heap n).peer = peer ∧ FromPacket n (packetItems payload) e
  | .pass _ | .sweep =>
    e.isTold = true ∨ e = .selected ∨ ∃ index d, e = .collected index ∧ s.node.sources index = some d ∧ d.gcAt ≤ now
  | _ => e = .changed ∨ e = .selected

/-- A call that only hears and tells. -/
def Op.steady : Op → Bool
  | .receive _ _ _ _ => true
  | .pass _ => true
  | .sweep => true
  | .start => true
  | .noteLost _ _ => true
  | _ => false

namespace OpAux

variable {s : Speaker}

/-- A packet is dropped, or read, replied to and emitted. -/
theorem acts_receive (h : s.Good) (peer : Peer) (src : Addr) (payload : List UInt8) (now : Time) (rs : List Reservation) :
    ∃ effects, Acts now s (s.receive peer src payload now rs).1 (s.receive peer src payload now rs).2 effects ∧
      (∀ e ∈ effects, (Op.receive peer src payload rs).Shows s now e) ∧ Steady s (s.receive peer src payload now rs).1 ∧
      (s.receive peer src payload now rs).1.lost = s.lost := by
  have hnothing : ∃ effects, Acts now s s [] effects ∧ (∀ e ∈ effects, (Op.receive peer src payload rs).Shows s now e) ∧
      Steady s s ∧ s.lost = s.lost :=
    ⟨[], acts_silent rfl .refl (.refl _) (by simp), by simp, steady_frame (.refl s), rfl⟩
  unfold Speaker.receive
  cases hn : s.neighbors.lookup peer.id with
  | none => exact hnothing
  | some n =>
    dsimp only
    split_ifs with hpeer
    · exact hnothing
    · rw [ne_eq, not_not] at hpeer
      have hnode : (s.modify n fun st => { st with addr := src }).node = s.node := node_modify_of_told rfl rfl
      have hsteady : Steady s (s.modify n fun st => { st with addr := src }) :=
        ⟨rfl, rfl, rfl, heap_modify_keeps (·.peer) rfl⟩
      have hlost : (s.modify n fun st => { st with addr := src }).lost = s.lost := rfl
      have hcfg : (s.modify n fun st => { st with addr := src }).cfg = s.cfg := rfl
      have haddr : Speaker.Write now s (s.modify n fun st => { st with addr := src }) := .neighbor n (.rest rfl)
      generalize (s.modify n fun st => { st with addr := src }) = s0 at hnode hsteady hlost hcfg haddr ⊢
      have hreg : s0.node.Registered n := by
        rw [hnode, registered_iff, hpeer]
        exact hn
      obtain ⟨raised, hb⟩ := builds_handlePacket (by rw [hnode]; exact h.sound) hreg payload now
      have hrun : Node.Run now s.node [] ({ s0 with raisedSeqno := raised } : Speaker).node := by
        have heq : ({ s0 with raisedSeqno := raised } : Speaker).node = s.node := hnode
        rw [heq]
        exact .refl _
      have hcfg' : ({ s0 with raisedSeqno := raised } : Speaker).cfg = s.cfg := hcfg
      obtain ⟨effects, hacts, hshows, hframe⟩ := acts_emit h.minSize h.maxSize hcfg' (.head haddr (.single (.rest rfl))) hrun rfl hb rs
      refine ⟨effects, acts_quiet hacts (quiet_wakeForPacket now _), fun e he => ⟨n, hn, hpeer, hshows e he⟩, ?_, ?_⟩
      · have hall := steady_frame (hframe.trans (quiet_wakeForPacket now _).frame)
        exact steady_trans hsteady ⟨hall.neighbors, hall.originate, hall.nextRef, hall.peer⟩
      · rw [(quiet_wakeForPacket now _).frame.lost, hframe.lost]
        exact hlost

/-- The dump or the triggered updates of a pass. -/
theorem builds_passUpdates {now : Time} {via : Via} {P : Node.Effect → Prop} (hs : s.node.Sound)
    (hP : ∀ n ∈ s.registered, ∀ key adv spent, P (.told n key adv spent)) (hvia : ∀ n, (multicastGroup, .dump) = via n) :
    Builds now via P s (s.passUpdates now).1 (s.passUpdates now).2 := by
  unfold Speaker.passUpdates
  split_ifs
  · exact builds_before (builds_updateActions hs hP hvia) (quiet_timers rfl)
  · exact builds_triggeredActions hs hP hvia

/-- What a pass decides to say, after lost packets were given back and what was due was swept: Updates to registered neighbors. -/
theorem builds_passActions (h : s.Good) (now : Time) {P : Node.Effect → Prop}
    (hP : ∀ n ∈ s.registered, ∀ key adv spent, P (.told n key adv spent)) :
    ∃ t s0 before, t = ({ s with woken := false, retryAt := 0, passes := s.passes + 1 } : Speaker).applyLost ∧ Frame t s0 ∧
      s0.cfg = s.cfg ∧ s0.lost = [] ∧ Steady s s0 ∧ Node.Run now s.node [] t.node ∧ Node.Run now t.node before s0.node ∧
      s.node.Collects now before ∧ Speaker.Writes now s s0 ∧
      Builds now (fun _ => (multicastGroup, .dump)) P s0 (s.passActions now).1 (s.passActions now).2 := by
  have hrecalls := @run_applyLost { s with woken := false, retryAt := 0, passes := s.passes + 1 } h.lost now
  unfold Speaker.passActions
  dsimp only
  generalize ({ s with woken := false, retryAt := 0, passes := s.passes + 1 } : Speaker).applyLost = t at hrecalls ⊢
  have hrun : Node.Run now s.node [] t.node := hrecalls.run
  have hregistered : t.registered = s.registered := hrecalls.frame.registered
  obtain ⟨hframe, hswept, before, hsweep, hcollects⟩ := run_sweepExpired t now
  have hsound := Node.sound_run (hrun.trans hsweep) h.sound
  have hcollects' : s.node.Collects now before := by
    unfold Node.Collects at hcollects ⊢
    rwa [hrun.sources (by simp)] at hcollects
  refine ⟨t, t.sweepExpired now, before, rfl, hframe, by rw [hframe.cfg, hrecalls.frame.cfg],
    by rw [hframe.lost, hrecalls.frame.lost], ?_, hrun, hsweep, hcollects', .head (.rest rfl) (hrecalls.writes.trans hswept), ?_⟩
  · have hall := steady_frame (hrecalls.frame.trans hframe)
    exact ⟨hall.neighbors, hall.originate, hall.nextRef, hall.peer⟩
  · rw [← hregistered, ← hframe.registered] at hP
    generalize t.sweepExpired now = s0 at hsound hP ⊢
    have hdue : Quiet now s0 (if decide (s0.nextHello ≤ now) = true then { s0 with nextHello := now + s0.cfg.hello } else s0) := by
      split_ifs
      · exact quiet_timers rfl
      · exact .refl _
    generalize (if decide (s0.nextHello ≤ now) = true then { s0 with nextHello := now + s0.cfg.hello } else s0) = s1 at hdue ⊢
    have hsound1 : s1.node.Sound := by rw [hdue.node]; exact hsound
    have hhellos := @builds_helloActions now (fun _ => (multicastGroup, .dump)) P s1 hsound1 (decide (s0.nextHello ≤ now))
    have hsound2 := builds_sound hhellos hsound1
    have hframe2 : Frame s1 (s1.helloActions (decide (s0.nextHello ≤ now)) now).1 := by
      obtain ⟨_, _, hhellos⟩ := hhellos
      exact hhellos.frame
    rw [← hdue.frame.registered, ← hframe2.registered] at hP
    have hupdates := @builds_passUpdates _ now (fun _ => (multicastGroup, .dump)) P hsound2 hP fun _ => rfl
    have hsound3 := builds_sound hupdates hsound2
    have hstarved := @builds_starvedActions now (fun _ => (multicastGroup, .dump)) P _ hsound3
    have hsound4 := builds_sound hstarved hsound3
    exact builds_after hdue (builds_trans (builds_trans (builds_trans hhellos hupdates) hstarved)
      (builds_retryStarvedLocked hsound4))

/-- A pass sweeps, builds and emits. -/
theorem acts_pass (h : s.Good) (now : Time) (rs : List Reservation) :
    ∃ effects, Acts now s (s.pass now rs).1 (s.pass now rs).2 effects ∧ (∀ e ∈ effects, (Op.pass rs).Shows s now e) ∧
      Steady s (s.pass now rs).1 ∧ (s.pass now rs).1.lost = [] := by
  obtain ⟨t, s0, before, -, -, hcfg, hlost, hsteady, hback, hswept, hcollects, hwrites, hb⟩ :=
    @builds_passActions s h now (fun e => e.isTold = true) fun _ _ _ _ _ => rfl
  have hrun : Node.Run now s.node before s0.node := hback.trans hswept
  obtain ⟨effects, hacts, hshows, hframe⟩ := acts_emit h.minSize h.maxSize hcfg hwrites hrun (filter_raised_collects hcollects) hb rs
  unfold Speaker.pass
  generalize s.passActions now = out at *
  obtain ⟨s1, actions⟩ := out
  dsimp only at *
  generalize s1.emitLocked actions now rs = out at *
  obtain ⟨s2, packets⟩ := out
  refine ⟨before ++ effects, acts_quiet hacts (quiet_timers rfl), List.forall_mem_append.mpr ⟨fun e he => .inr (hcollects e he),
    fun e he => .inl (hshows e he)⟩, steady_trans hsteady (steady_frame (hframe.trans ⟨rfl, rfl, rfl, rfl, rfl, fun _ => rfl, fun _ => rfl⟩)), ?_⟩
  exact hframe.lost.trans hlost

/-- A lookup does not depend on the order. -/
theorem lookup_reordered {K V : Type} [DecidableEq K] {m m' : GoMap K V} (h : GoMap.Reordered m m') (k : K) :
    m'.lookup k = m.lookup k := AList.perm_lookup h

/-- Nor does membership. -/
theorem mem_reordered {K V : Type} {m m' : GoMap K V} (h : GoMap.Reordered m m') (k : K) : k ∈ m' ↔ k ∈ m :=
  AList.mem_of_perm h

/-- The order of the maps is not the protocol's. -/
theorem node_reordered {s' : Speaker} (h : s.Reordered s') : s'.node = s.node ∧ s'.cfg = s.cfg ∧ s'.lost = s.lost := by
  have hrest := h.rest
  have hroutes := h.routes.rest
  refine ⟨Node.ext ?_ ?_ ?_ ?_ ?_ ?_ ?_ ?_ ?_ ?_ ?_, by rw [hrest], by rw [hrest]⟩
  · show s'.cfg.routerID = _
    rw [hrest]
    rfl
  · show s'.cfg.noTransit = _
    rw [hrest]
    rfl
  · show s'.originSeqno = _
    rw [hrest]
    rfl
  · funext n
    show (s'.heap n).peer = (s.heap n).peer
    rw [(h.heap n).rest]
  · funext n
    ext key
    exact mem_reordered (h.heap n).advertised key
  · show s'.nextRef = _
    rw [hrest]
    rfl
  · funext id
    exact lookup_reordered h.neighbors id
  · ext key
    exact mem_reordered h.originate key
  · funext key
    show (s'.routes.entries.lookup key).map KeyEntry.node = (s.routes.entries.lookup key).map KeyEntry.node
    generalize hx : s.routes.entries.lookup key = x
    generalize hy : s'.routes.entries.lookup key = y
    have hentry := h.routes.entries key
    rw [hx, hy] at hentry
    cases hentry with
    | none => rfl
    | @some e e' he =>
      refine congrArg some (NodeEntry.ext ?_ ?_ ?_)
      · funext n
        exact congrArg (Option.map RouteInfo.offer) (lookup_reordered he.routes n)
      · show e'.selected = e.selected
        rw [he.rest]
      · show e'.onceSelected = e.onceSelected
        rw [he.rest]
  · funext index
    exact congrArg (Option.map SourceEntry.distance) (lookup_reordered h.routes.sources index)
  · show s'.routes.fib = s.routes.fib
    rw [hroutes]

/-- A speaker with no peers and nothing announced. -/
theorem sound_empty (cfg : Settings) : (Speaker.empty cfg).node.Sound := by
  have hneighbors : ∀ id, (Speaker.empty cfg).node.neighbors id = none := fun id => by
    show (∅ : GoMap String NeighborRef).lookup id = none
    exact AList.lookup_empty id
  have hentries : ∀ key, (Speaker.empty cfg).node.entries key = none := fun key => by
    show (((∅ : GoMap RouteKey KeyEntry).lookup key).map KeyEntry.node) = none
    rw [AList.lookup_empty]
    rfl
  have horiginate : ∀ key, key ∉ (Speaker.empty cfg).node.originate := fun key => AList.notMem_empty key
  have hadvertised : ∀ n key, key ∉ (Speaker.empty cfg).node.advertised n := fun n key => AList.notMem_empty key
  refine ⟨fun {id n} h => ?_, fun h => absurd h (horiginate _), fun h => absurd h (hadvertised _ _), fun {key e} h => ?_,
    fun {key e n r} h => ?_, fun {key e} h => ?_, fun {key e} h => ?_, ?_⟩
  · rw [hneighbors] at h
    exact absurd h (by simp)
  iterate 4
    · rw [hentries] at h
      exact absurd h (by simp)
  · have hforwarding : (Speaker.empty cfg).node.forwarding = fun _ => none := by
      funext key
      rw [Node.forwarding, if_neg (horiginate key), hentries]
    rw [hforwarding]
    exact holds_empty

/-- `SetOriginated` keeps the settings and what is lost. -/
theorem setOriginated_keeps (s : Speaker) (routes : List Announce) :
    (s.setOriginated routes).cfg = s.cfg ∧ (s.setOriginated routes).lost = s.lost := by
  unfold Speaker.setOriginated
  dsimp only
  split_ifs
  · exact ⟨rfl, rfl⟩
  · rw [foldl_adoptOriginated, foldl_releaseOriginated]
    exact ⟨rfl, rfl⟩

/-- The packet size of a resolved runtime is in its range. -/
theorem resolve_packetSize {rt drawn rt' : Runtime} (h : rt.resolve drawn = .ok rt') :
    63 ≤ rt'.packetSize ∧ rt'.packetSize ≤ 65535 - 8 := by
  unfold Runtime.resolve at h
  dsimp only at h
  generalize (if rt.linkLocalAddr.isValid = true then rt.linkLocalAddr else drawn.linkLocalAddr) = addr at h
  generalize (if rt.packetSize = 0 then 1400 - 40 - 8 else rt.packetSize) = size at h
  generalize (if rt.routerID = 0 then drawn.routerID else rt.routerID) = id at h
  split_ifs at h with _ hsize
  rw [not_or, not_lt, not_lt] at hsize
  rw [← Except.ok.inj h]
  exact hsize

/-- A new speaker is an empty one that was given its routes. -/
theorem new_ok {cfg : Config} {routes : Routes} {rt drawn : Runtime} {damp : Damping}
    (h : Speaker.new cfg routes rt drawn damp = .ok s) : ∃ rt', rt.resolve drawn = .ok rt' ∧
      s = (Speaker.empty (Speaker.settings cfg routes rt' damp)).setOriginated routes.announce := by
  unfold Speaker.new at h
  split at h
  · cases h
  split at h
  · cases h
  split at h
  · cases h
  · next rt' hrt => exact ⟨rt', hrt, (Except.ok.inj h).symm⟩

/-- A new speaker has the invariants. -/
theorem good_new {cfg : Config} {routes : Routes} {rt drawn : Runtime} {damp : Damping}
    (h : Speaker.new cfg routes rt drawn damp = .ok s) : s.Good := by
  obtain ⟨rt', hrt, rfl⟩ := new_ok h
  have hsize := resolve_packetSize hrt
  obtain ⟨hcfg, hlost⟩ := setOriginated_keeps (Speaker.empty (Speaker.settings cfg routes rt' damp)) routes.announce
  obtain ⟨effects, -, hrun⟩ := run_setOriginated (Speaker.empty (Speaker.settings cfg routes rt' damp)) routes.announce 0
  refine ⟨Node.sound_run hrun (sound_empty _), ?_, ?_, ?_⟩
  · rw [hcfg]
    exact hsize.1
  · rw [hcfg]
    exact Nat.lt_of_le_of_lt hsize.2 (by decide)
  · rw [hlost]
    intro entry hentry
    exact absurd hentry List.not_mem_nil

/-- The owner raises nothing. -/
theorem filter_raised_owned {effects : List Node.Effect} (h : Owned effects) :
    (effects.filter Node.Effect.isRaised).length ≤ 1 := by
  have hnil : effects.filter Node.Effect.isRaised = [] := by
    refine List.filter_eq_nil_iff.mpr fun e he => ?_
    obtain rfl | rfl := h e he <;> simp [Node.Effect.isRaised]
  rw [hnil]
  exact Nat.zero_le 1

/-- `AddPeer` keeps the settings and what is lost. -/
theorem addPeer_keeps (s : Speaker) (peer : Peer) (now : Time) :
    (s.addPeer peer now).1.cfg = s.cfg ∧ (s.addPeer peer now).1.lost = s.lost := by
  unfold Speaker.addPeer
  cases s.neighbors.lookup peer.id <;> exact ⟨rfl, rfl⟩

/-- So does `removePeer`. -/
theorem removePeer_keeps (s : Speaker) (n : NeighborRef) (now : Time) :
    (s.removePeer n now).cfg = s.cfg ∧ (s.removePeer n now).lost = s.lost := by
  unfold Speaker.removePeer
  split_ifs <;> exact ⟨rfl, rfl⟩

/-- So does `OriginateFrom`. -/
theorem originateFrom_keeps (s : Speaker) (dest source : Prefix) :
    (s.originateFrom dest source).cfg = s.cfg ∧ (s.originateFrom dest source).lost = s.lost := by
  unfold Speaker.originateFrom
  cases originatedKey dest source <;> exact ⟨rfl, rfl⟩

/-- A report leaves the protocol alone and queues its undos. -/
theorem noteLost_spec (s : Speaker) (n : NeighborRef) (undo : List TlvUndo) (now : Time) :
    (s.noteLost n undo now).cfg = s.cfg ∧ (s.noteLost n undo now).node = s.node ∧ Steady s (s.noteLost n undo now) ∧
      (s.noteLost n undo now).lost = s.lost ++ undo.map (⟨n, ·⟩) := by
  have hsteady : ∀ {s' : Speaker}, s'.neighbors = s.neighbors → s'.originate = s.originate → s'.nextRef = s.nextRef →
      s'.heap = s.heap → Steady s s' := fun h1 h2 h3 h4 => ⟨h1, h2, h3, fun n => by rw [h4]⟩
  unfold Speaker.noteLost
  dsimp only
  split_ifs with hempty hsoon
  · rw [List.isEmpty_iff.mp hempty]
    exact ⟨rfl, rfl, hsteady rfl rfl rfl rfl, (List.append_nil _).symm⟩
  · exact ⟨rfl, rfl, hsteady rfl rfl rfl rfl, rfl⟩
  · exact ⟨rfl, rfl, hsteady rfl rfl rfl rfl, rfl⟩

end OpAux

open OpAux

variable {s : Speaker}

/-- Every call is a run of the node that shows what the call can show. -/
theorem acts_apply (h : s.Good) (now : Time) (op : Op) :
    ∃ effects, Acts now s (s.apply now op).1 (s.apply now op).2 effects ∧ (∀ e ∈ effects, op.Shows s now e) ∧
      (op.steady = true → Steady s (s.apply now op).1) ∧
      ∀ entry ∈ (s.apply now op).1.lost, entry ∈ s.lost ∨ ∃ n undo, op = .noteLost n undo ∧ entry.undo ∈ undo := by
  have hsilent : ∀ {s' : Speaker}, s'.cfg = s.cfg ∧ s'.lost = s.lost → Speaker.Writes now s s' →
      (∃ effects, Owned effects ∧ Node.Run now s.node effects s'.node) →
      ∃ effects, Acts now s s' [] effects ∧ Owned effects ∧ (false = true → Steady s s') ∧
        ∀ entry ∈ s'.lost, entry ∈ s.lost ∨ ∃ n undo, op = .noteLost n undo ∧ entry.undo ∈ undo := by
    rintro s' ⟨hcfg, hlost⟩ hw ⟨effects, hchanged, hrun⟩
    refine ⟨effects, acts_silent hcfg hw hrun (filter_raised_owned hchanged), hchanged, by simp, fun entry he => .inl ?_⟩
    rwa [hlost] at he
  cases op with
  | addPeer peer => exact hsilent (addPeer_keeps s peer now) (writes_addPeer s peer now) (run_addPeer s peer now)
  | removePeer n => exact hsilent (removePeer_keeps s n now) (writes_removePeer s n now) (run_removePeer s n now)
  | originateFrom dest source =>
    exact hsilent (originateFrom_keeps s dest source) (writes_originateFrom s dest source) (run_originateFrom s dest source now)
  | setOriginated routes => exact hsilent (setOriginated_keeps s routes) (writes_setOriginated s routes) (run_setOriginated s routes now)
  | start =>
    exact ⟨[], acts_silent rfl (.single (.rest rfl)) (.refl _) (by simp), by simp, fun _ => ⟨rfl, rfl, rfl, fun _ => rfl⟩, fun _ he => .inl he⟩
  | sweep =>
    obtain ⟨hframe, hwrites, effects, hrun, hcollects⟩ := run_sweepExpired s now
    refine ⟨effects, acts_silent hframe.cfg hwrites hrun (by simp [filter_raised_collects hcollects]), fun e he => .inr (hcollects e he),
      fun _ => steady_frame hframe, fun entry he => .inl ?_⟩
    have hlost : (s.apply now .sweep).1.lost = s.lost := hframe.lost
    rwa [hlost] at he
  | receive peer src payload rs =>
    obtain ⟨effects, hacts, hshows, hsteady, hlost⟩ := acts_receive h peer src payload now rs
    exact ⟨effects, hacts, hshows, fun _ => hsteady, fun entry he => .inl (by rwa [← hlost])⟩
  | pass rs =>
    obtain ⟨effects, hacts, hshows, hsteady, hlost⟩ := acts_pass h now rs
    refine ⟨effects, hacts, hshows, fun _ => hsteady, fun entry he => ?_⟩
    have hnil : (s.apply now (.pass rs)).1.lost = [] := hlost
    rw [hnil] at he
    exact absurd he List.not_mem_nil
  | noteLost n undo =>
    obtain ⟨hcfg, hnode, hsteady, hlost⟩ := noteLost_spec s n undo now
    have hrun : Node.Run now s.node [] (s.noteLost n undo now).node := by
      rw [hnode]
      exact .refl _
    refine ⟨[], acts_silent hcfg (writes_noteLost s n undo) hrun (by simp), by simp, fun _ => hsteady, fun entry he => ?_⟩
    have heq : (s.apply now (.noteLost n undo)).1.lost = s.lost ++ undo.map (⟨n, ·⟩) := hlost
    rw [heq, List.mem_append, List.mem_map] at he
    obtain he | ⟨u, hu, rfl⟩ := he
    · exact .inl he
    · exact .inr ⟨n, undo, rfl, hu⟩

/-- A call keeps the invariants, and the undos of its packets are of canonical keys. -/
theorem good_apply (h : s.Good) {sent : List ReservedPacket} (hsent : ∀ p ∈ sent, ∀ undo ∈ p.undo, undo.key.Canonical) (now : Time)
    {op : Op} (allowed : op.Allowed sent) :
    (s.apply now op).1.Good ∧ ∀ p ∈ sent ++ (s.apply now op).2, ∀ undo ∈ p.undo, undo.key.Canonical := by
  obtain ⟨effects, hacts, -, -, hlost⟩ := acts_apply h now op
  refine ⟨⟨Node.sound_run hacts.run h.sound, by rw [hacts.cfg]; exact h.minSize, by rw [hacts.cfg]; exact h.maxSize,
    fun entry he => ?_⟩, List.forall_mem_append.mpr ⟨hsent, hacts.undone⟩⟩
  obtain he | ⟨n, undo, rfl, hu⟩ := hlost entry he
  · exact h.lost entry he
  · obtain ⟨p, hp, -, rfl⟩ := allowed
    exact hsent p hp _ hu

/-- Every reachable speaker has the invariants. -/
theorem good_reachable {sent : List ReservedPacket} (h : Reachable s sent) :
    s.Good ∧ ∀ p ∈ sent, ∀ undo ∈ p.undo, undo.key.Canonical := by
  induction h with
  | new hnew => exact ⟨good_new hnew, by simp⟩
  | call _ op now allowed ih => exact good_apply ih.1 ih.2 now allowed
  | reorder _ same ih =>
    obtain ⟨hnode, hcfg, hlost⟩ := node_reordered same
    exact ⟨⟨by rw [hnode]; exact ih.1.sound, by rw [hcfg]; exact ih.1.minSize, by rw [hcfg]; exact ih.1.maxSize,
      by rw [hlost]; exact ih.1.lost⟩, ih.2⟩

end RanetLite.Babel
