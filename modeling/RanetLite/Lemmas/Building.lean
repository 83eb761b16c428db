import RanetLite.Babel.Writes
import RanetLite.Lemmas.Batches
import RanetLite.Lemmas.Simulation
import RanetLite.Node.Invariant

/-!
# Building actions is a run of the node

The functions of the send path thread the speaker's state and gather actions. `Builds` says what each of them does: the state moves by
a chain of writes that is a run of the node, and the actions are made of groups that say exactly what the run told, in its order.
-/

namespace RanetLite.Babel

open Netip BatchAux SimAux RouteTable.SelectAux

/-- The fields no sending or receiving of Updates changes. -/
structure Frame (s s' : Speaker) : Prop where
  cfg : s'.cfg = s.cfg
  neighbors : s'.neighbors = s.neighbors
  originate : s'.originate = s.originate
  lost : s'.lost = s.lost
  nextRef : s'.nextRef = s.nextRef
  peer : ∀ n, (s'.heap n).peer = (s.heap n).peer
  addr : ∀ n, (s'.heap n).addr = (s.heap n).addr

/-- Nothing changed is a frame. -/
theorem Frame.refl (s : Speaker) : Frame s s := ⟨rfl, rfl, rfl, rfl, rfl, fun _ => rfl, fun _ => rfl⟩

variable {now : Time} {s s' : Speaker} {n : NeighborRef} {f : NeighborState → NeighborState}

/-- Frames compose. -/
theorem Frame.trans {s'' : Speaker} (h : Frame s s') (h' : Frame s' s'') : Frame s s'' :=
  ⟨h'.cfg.trans h.cfg, h'.neighbors.trans h.neighbors, h'.originate.trans h.originate, h'.lost.trans h.lost,
    h'.nextRef.trans h.nextRef, fun n => (h'.peer n).trans (h.peer n), fun n => (h'.addr n).trans (h.addr n)⟩

/-- The neighbors registered are those a frame keeps. -/
theorem Frame.registered (h : Frame s s') : s'.registered = s.registered := by
  rw [Speaker.registered, h.neighbors]
  rfl

/-- A change of what the protocol is not about. -/
structure Quiet (now : Time) (s s' : Speaker) : Prop where
  frame : Frame s s'
  node : s'.node = s.node
  raised : s'.raisedSeqno = s.raisedSeqno
  writes : Speaker.Writes now s s'

/-- Nothing changed is quiet. -/
theorem Quiet.refl (s : Speaker) : Quiet now s s := ⟨.refl s, rfl, rfl, .refl⟩

/-- Quiet changes compose. -/
theorem Quiet.trans {s'' : Speaker} (h : Quiet now s s') (h' : Quiet now s' s'') : Quiet now s s'' :=
  ⟨h.frame.trans h'.frame, h'.node.trans h.node, h'.raised.trans h.raised, h.writes.trans h'.writes⟩

/-- The neighbor a write is to. -/
theorem heap_modify_self (s : Speaker) (n : NeighborRef) (f : NeighborState → NeighborState) :
    (s.modify n f).heap n = f (s.heap n) := Function.update_self n _ _

/-- The neighbors a write is not to. -/
theorem heap_modify_of_ne (s : Speaker) {m : NeighborRef} (h : m ≠ n) (f : NeighborState → NeighborState) :
    (s.modify n f).heap m = s.heap m := Function.update_of_ne h _ _

/-- A part of the neighbors that a write keeps. -/
theorem heap_modify_keeps {β : Type} (g : NeighborState → β) (h : g (f (s.heap n)) = g (s.heap n)) (m : NeighborRef) :
    g ((s.modify n f).heap m) = g (s.heap m) := by
  by_cases hm : m = n
  · rw [hm, heap_modify_self, h]
  · rw [heap_modify_of_ne s hm]

/-- A write to a neighbor that keeps its peer and its address. -/
theorem frame_modify (hp : (f (s.heap n)).peer = (s.heap n).peer) (ha : (f (s.heap n)).addr = (s.heap n).addr) :
    Frame s (s.modify n f) :=
  ⟨rfl, rfl, rfl, rfl, rfl, heap_modify_keeps (·.peer) hp, heap_modify_keeps (·.addr) ha⟩

/-- The protocol sees of a write only what the neighbor was told. -/
theorem node_modify (hp : (f (s.heap n)).peer = (s.heap n).peer) :
    (s.modify n f).node = { s.node with
      advertised := Function.update s.node.advertised n {key | key ∈ (f (s.heap n)).advertised} } := by
  have hpeer := heap_modify_keeps (·.peer) hp
  have hadv : (fun m => {key | key ∈ ((s.modify n f).heap m).advertised}) =
      Function.update s.node.advertised n {key | key ∈ (f (s.heap n)).advertised} := by
    funext m
    by_cases hm : m = n
    · rw [hm, heap_modify_self, Function.update_self]
    · rw [heap_modify_of_ne s hm, Function.update_of_ne hm]
      rfl
  simp only [Speaker.node, hpeer, hadv]
  rfl

/-- The protocol does not see a write that keeps the peer and what it was told. -/
theorem node_modify_of_told (hp : (f (s.heap n)).peer = (s.heap n).peer)
    (hadv : (f (s.heap n)).advertised = (s.heap n).advertised) : (s.modify n f).node = s.node := by
  rw [node_modify hp, hadv]
  exact congrArg (fun a => { s.node with advertised := a }) (Function.update_eq_self n s.node.advertised)

/-- A write to a neighbor that keeps its peer, its address and what it was told. -/
theorem quiet_modify (hp : (f (s.heap n)).peer = (s.heap n).peer) (ha : (f (s.heap n)).addr = (s.heap n).addr)
    (hadv : (f (s.heap n)).advertised = (s.heap n).advertised) (hw : NeighborState.Write now (s.heap n) (f (s.heap n))) :
    Quiet now s (s.modify n f) := ⟨frame_modify hp ha, node_modify_of_told hp hadv, rfl, .single (.neighbor n hw)⟩

/-- The flags and the timers of the loop are not the protocol's. -/
theorem quiet_timers (h : s' = { s with
    updatePending := s'.updatePending, woken := s'.woken, nextHello := s'.nextHello, nextUpdate := s'.nextUpdate
    sleepUntil := s'.sleepUntil, retryAt := s'.retryAt }) : Quiet now s s' := by
  rw [h]
  exact ⟨⟨rfl, rfl, rfl, rfl, rfl, fun _ => rfl, fun _ => rfl⟩, rfl, rfl, .single (.rest rfl)⟩

/-- A write to the tables of requests alone. -/
def OnlyRequests (s s' : Speaker) : Prop :=
  s' = { s with
    pendingSeqno := s'.pendingSeqno, pendingByAsker := s'.pendingByAsker, askedSeqno := s'.askedSeqno
    starveRetries := s'.starveRetries, starveBy := s'.starveBy
    nextRequestSweep := s'.nextRequestSweep, nextStarveRetry := s'.nextStarveRetry }

/-- The tables of requests are not the protocol's. -/
theorem OnlyRequests.quiet (h : OnlyRequests s s') (hw : Speaker.Write now s s') : Quiet now s s' := by
  rw [h] at hw ⊢
  exact ⟨⟨rfl, rfl, rfl, rfl, rfl, fun _ => rfl, fun _ => rfl⟩, rfl, rfl, .single hw⟩

/-- The tables of requests are not the route table. -/
theorem OnlyRequests.routes (h : OnlyRequests s s') : s'.routes = s.routes := by rw [h]

/-- The tables of requests are not the neighbors. -/
theorem OnlyRequests.heap (h : OnlyRequests s s') : s'.heap = s.heap := by rw [h]

/-- A write of the route table is in the frame. -/
theorem frame_routes (s : Speaker) (rt : RouteTable) : Frame s { s with routes := rt } :=
  ⟨rfl, rfl, rfl, rfl, rfl, fun _ => rfl, fun _ => rfl⟩

/-- A change of the route table's bookkeeping is quiet. -/
theorem quiet_routes {s : Speaker} (op : TableOp) (asked : op.Asked) (h : SameCore s.routes (s.routes.apply s.heap now op)) :
    Quiet now s { s with routes := s.routes.apply s.heap now op } :=
  ⟨frame_routes s _, Speaker.node_sameCore h, rfl, .single (.table op asked)⟩

/-- A loop of quiet changes is quiet. -/
theorem quiet_foldl {α : Type} {f : Speaker → α → Speaker} (h : ∀ s x, Quiet now s (f s x)) (xs : List α) :
    ∀ s, Quiet now s (xs.foldl f s) := by
  induction xs with
  | nil => exact fun s => .refl s
  | cons x rest ih => exact fun s => (h s x).trans (ih (f s x))

/-- What telling a group to a neighbor shows. -/
def Group.told (n : NeighborRef) : Group → Option Node.Effect
  | update id key seqno metric _ spent => some (.told n key ⟨id, seqno, metric⟩ spent)
  | _ => none

/-- What a run of groups tells a neighbor. -/
def tellings (n : NeighborRef) (gs : List Group) : List Node.Effect := gs.filterMap (Group.told n)

/-- What a plan tells, in order. -/
def planned (plan : List (SendAction × List Group)) : List Node.Effect := plan.flatMap fun p => tellings p.1.neighbor p.2

/-- A group that, if it is an Update, promises the next one within `interval`. -/
def Group.Promises (interval : UInt16) : Group → Prop
  | update _ _ _ _ i _ => i = interval
  | _ => True

/-- How a target of a neighbor's Updates is addressed. -/
abbrev Via := NeighborRef → Addr × SendPriority

/-- Groups told to one neighbor, one after another. -/
structure Tells (now : Time) (n : NeighborRef) (s s' : Speaker) (gs : List Group) : Prop where
  frame : Frame s s'
  raised : s'.raisedSeqno = s.raisedSeqno
  writes : Speaker.Writes now s s'
  run : Node.Run now s.node (tellings n gs) s'.node
  ok : ∀ g ∈ gs, g.Ok
  promises : ∀ g ∈ gs, g.Promises (toCentis s.cfg.update)

/-- Actions built from groups that all promise one interval, those with Updates all addressed one way. -/
structure Planned (interval : UInt16) (via : Via) (plan : List (SendAction × List Group)) : Prop where
  built : ∀ p ∈ plan, p.1.Built p.2
  promises : ∀ p ∈ plan, ∀ g ∈ p.2, g.Promises interval
  via : ∀ p ∈ plan, tellings p.1.neighbor p.2 ≠ [] → (p.1.dest, p.1.priority) = via p.1.neighbor

/-- A function of the send path: writes that are a run of the node, and actions that say what the run told. A raise of the origin seqno
happens at most once, and sets the flag that says so. -/
structure Building (now : Time) (via : Via) (P : Node.Effect → Prop) (s s' : Speaker) (actions : List SendAction)
    (effects : List Node.Effect) (plan : List (SendAction × List Group)) : Prop where
  frame : Frame s s'
  writes : Speaker.Writes now s s'
  run : Node.Run now s.node effects s'.node
  shows : ∀ e ∈ effects, P e
  raises : (effects.filter Node.Effect.isRaised).length + s.raisedSeqno.toNat = s'.raisedSeqno.toNat
  actions : plan.map Prod.fst = actions
  built : Planned (toCentis s.cfg.update) via plan
  told : planned plan = effects.filter Node.Effect.isTold

/-- What a function of the send path does. -/
def Builds (now : Time) (via : Via) (P : Node.Effect → Prop) (s s' : Speaker) (actions : List SendAction) : Prop :=
  ∃ effects plan, Building now via P s s' actions effects plan

namespace BuildAux

variable {now : Time} {via : Via} {P Q : Node.Effect → Prop} {s s' s'' : Speaker} {actions actions' : List SendAction}

/-- What is built first comes first. -/
theorem builds_trans (h : Builds now via P s s' actions) (h' : Builds now via P s' s'' actions') :
    Builds now via P s s'' (actions ++ actions') := by
  obtain ⟨e, p, h⟩ := h
  obtain ⟨e', p', h'⟩ := h'
  refine ⟨e ++ e', p ++ p', h.frame.trans h'.frame, h.writes.trans h'.writes, h.run.trans h'.run,
    List.forall_mem_append.mpr ⟨h.shows, h'.shows⟩, ?_, ?_, ⟨List.forall_mem_append.mpr ⟨h.built.built, h'.built.built⟩, ?_, ?_⟩, ?_⟩
  · have h1 := h.raises
    have h2 := h'.raises
    rw [List.filter_append, List.length_append]
    omega
  · rw [List.map_append, h.actions, h'.actions]
  · refine List.forall_mem_append.mpr ⟨h.built.promises, ?_⟩
    rw [← h.frame.cfg]
    exact h'.built.promises
  · exact List.forall_mem_append.mpr ⟨h.built.via, h'.built.via⟩
  · rw [planned, List.flatMap_append, List.filter_append, ← h.told, ← h'.told]
    rfl

/-- A weaker property is shown too. -/
theorem builds_mono (hpq : ∀ e, P e → Q e) (h : Builds now via P s s' actions) : Builds now via Q s s' actions := by
  obtain ⟨e, p, h⟩ := h
  exact ⟨e, p, { h with shows := fun e he => hpq e (h.shows e he) }⟩

/-- Building keeps a node sound. -/
theorem builds_sound (h : Builds now via P s s' actions) (hs : s.node.Sound) : s'.node.Sound := by
  obtain ⟨e, p, h⟩ := h
  exact Node.sound_run h.run hs

/-- A quiet change builds nothing. -/
theorem builds_quiet (h : Quiet now s s') : Builds now via P s s' [] :=
  ⟨[], [], h.frame, h.writes, by rw [h.node]; exact .refl _, by simp, by simp [h.raised], rfl, ⟨by simp, by simp, by simp⟩, rfl⟩

/-- Selecting keys again builds nothing. -/
theorem builds_reselects (op : TableOp) (asked : op.Asked)
    (hr : Node.Reselects now s.node ({ s with routes := s.routes.apply s.heap now op } : Speaker).node) (hP : P .selected) :
    Builds now via P s { s with routes := s.routes.apply s.heap now op } [] := by
  obtain ⟨effects, heff, hrun⟩ := hr
  have hnone : ∀ p : Node.Effect → Bool, p .selected = false → effects.filter p = [] := by
    intro p hp
    refine List.filter_eq_nil_iff.mpr fun e he => ?_
    rw [heff e he, hp]
    exact Bool.false_ne_true
  refine ⟨effects, [], frame_routes s _, .single (.table op asked), hrun, fun e he => ?_, ?_, rfl, ⟨by simp, by simp, by simp⟩, (hnone _ rfl).symm⟩
  · rw [heff e he]
    exact hP
  · rw [hnone Node.Effect.isRaised rfl, List.length_nil, Nat.zero_add]

/-- An action of groups that are no Updates. -/
theorem builds_send (h : Quiet now s s') {a : SendAction} {gs : List Group} (hb : a.Built gs) (hg : ∀ g ∈ gs, ∀ n, g.told n = none) :
    Builds now via P s s' [a] := by
  have htell : ∀ n, tellings n gs = [] := fun n => List.filterMap_eq_nil_iff.mpr fun g hmem => hg g hmem n
  refine ⟨[], [(a, gs)], h.frame, h.writes, by rw [h.node]; exact .refl _, by simp, by simp [h.raised], rfl,
    ⟨by simpa using hb, ?_, by simp [htell]⟩, by simp [planned, htell]⟩
  intro p hp g hmem
  rw [List.mem_singleton.mp hp] at hmem
  have hnone := hg g hmem 0
  cases g with
  | update => exact absurd hnone (by simp [Group.told])
  | hello | other => trivial

/-- What every round builds, the whole gathering builds. -/
theorem builds_gather {α : Type} {f : Speaker → α → Speaker × List SendAction}
    (xs : List α) (h : ∀ s, ∀ x ∈ xs, s.node.Sound → Builds now via P s (f s x).1 (f s x).2) (hs : s.node.Sound) :
    Builds now via P s (Speaker.gather f s xs).1 (Speaker.gather f s xs).2 := by
  induction xs generalizing s with
  | nil => exact builds_quiet (.refl s)
  | cons x rest ih =>
    have hbuilds := h s x List.mem_cons_self hs
    rw [Speaker.gather_cons]
    exact builds_trans hbuilds (ih (fun s y hy => h s y (List.mem_cons_of_mem x hy)) (builds_sound hbuilds hs))

/-- What `advertiseTo` says when it says a prefix is reachable. -/
theorem speaks_advertisementTo {n : NeighborRef} {key : RouteKey} (h : (s.advertisementTo n key).metric ≠ metricInfinity) :
    s.node.Speaks n key (s.advertisementTo n key) := by
  unfold Speaker.advertisementTo Speaker.advertisementFor at h ⊢
  by_cases hlocal : key ∈ s.originate
  · rw [if_pos hlocal]
    exact .origin hlocal
  · rw [if_neg hlocal] at h ⊢
    by_cases htransit : s.cfg.noTransit = true
    · rw [if_pos htransit] at h
      exact absurd rfl h
    · rw [if_neg htransit] at h ⊢
      cases he : s.routes.entries.lookup key with
      | none =>
        rw [he] at h
        exact absurd rfl h
      | some entry =>
        rw [he] at h
        dsimp only at h ⊢
        cases hsel : entry.selected.neighbor with
        | none =>
          rw [hsel, if_neg (by simp)] at h
          exact absurd rfl h
        | some m =>
          rw [hsel, if_pos (by simp)] at h
          dsimp only at h
          by_cases hmn : m = n
          · rw [if_pos (by rw [hmn])] at h
            exact absurd rfl h
          · rw [if_pos (by simp)]
            dsimp only
            rw [if_neg (by simpa using hmn)]
            exact .transit hlocal (Bool.eq_false_iff.mpr htransit) (entryOf_some he).1 hsel hmn

/-- `observe` records the distance of a finite advertisement. -/
theorem observe_effect (rt : RouteTable) (key : RouteKey) {adv : Advertisement} (hm : adv.metric ≠ metricInfinity)
    (peer : String) (now : Time) : ∃ e : SourceEntry,
      (rt.observe key adv peer now).sources = rt.sources.insert ⟨key, adv.routerID⟩ e ∧
      e.distance = Node.observed ((rt.sources.lookup ⟨key, adv.routerID⟩).map SourceEntry.distance) adv now ∧
      (rt.observe key adv peer now).entries = rt.entries ∧ (rt.observe key adv peer now).fib = rt.fib := by
  unfold RouteTable.observe
  rw [if_neg hm]
  dsimp only
  cases rt.sources.lookup ⟨key, adv.routerID⟩ with
  | none => exact ⟨_, rfl, rfl, rfl, rfl⟩
  | some entry =>
    dsimp only
    have hbetter : entry.distance.better adv.seqno adv.metric = entry.better adv.seqno adv.metric := rfl
    generalize hbest : (if entry.better adv.seqno adv.metric = true then
      { entry with seqno := adv.seqno, metric := adv.metric } else entry) = best
    refine ⟨{ best with owner := peer, gcAt := now + sourceGCTime }, ?_, ?_, ?_, ?_⟩
    · split_ifs <;> rfl
    · rw [Option.map_some, Node.observed, hbetter, ← hbest]
      split_ifs <;> rfl
    · split_ifs <;> rfl
    · split_ifs <;> rfl

/-- Erasing from a Go set. -/
theorem mem_erase_set (m : GoSet RouteKey) (key : RouteKey) : {k | k ∈ m.erase key} = {k | k ∈ m} \ {key} := by
  ext k
  simp [and_comm]

/-- Inserting into a Go set. -/
theorem mem_insert_set (m : GoSet RouteKey) (key : RouteKey) : {k | k ∈ m.insert key ()} = insert key {k | k ∈ m} := by
  ext k
  simp

/-- The bookkeeping of `advertiseTo`: nothing is said and nothing changes, or the node takes the step of telling. -/
theorem advertise_spec (hs : s.node.Sound) {n : NeighborRef} {key : RouteKey} {force : Bool}
    (hforce : force = true → key.Canonical) :
    s.advertise n key force now = (s, none) ∨ ∃ s' adv spent, s.advertise n key force now = (s', some (adv, spent)) ∧
      Frame s s' ∧ s'.raisedSeqno = s.raisedSeqno ∧ Speaker.Writes now s s' ∧ key.Canonical ∧
      Node.Step now s.node (some (.told n key adv spent)) s'.node := by
  unfold Speaker.advertise
  dsimp only
  by_cases hm : (s.advertisementTo n key).metric = metricInfinity
  · rw [if_pos hm]
    by_cases hsent : key ∈ (s.heap n).advertised
    · right
      have hkey : key.Canonical := hs.advertisedKeys (n := n) hsent
      rw [decide_eq_true hsent, if_neg (by simp), if_pos rfl]
      refine ⟨_, _, _, rfl, frame_modify rfl rfl, rfl, .single (.neighbor n (.rest rfl)), hkey, ?_⟩
      rw [node_modify rfl, mem_erase_set]
      exact .retract hkey hm (iff_of_true rfl hsent)
    · rw [decide_eq_false hsent]
      cases force with
      | false => exact .inl rfl
      | true =>
        right
        rw [if_neg (by simp), if_neg (by simp)]
        refine ⟨_, _, _, rfl, .refl s, rfl, .refl, hforce rfl, ?_⟩
        have hstep : Node.Step now s.node (some (.told n key (s.advertisementTo n key) false)) _ :=
          .retract (hforce rfl) hm (iff_of_false (by simp) hsent)
        have hsame : s.node.advertised n \ {key} = s.node.advertised n := Set.sdiff_singleton_eq_self hsent
        rwa [hsame, Function.update_eq_self] at hstep
  · right
    rw [if_neg hm]
    have hspeaks := speaks_advertisementTo hm
    obtain ⟨e, hsources, hdist, hentries, hfib⟩ := observe_effect s.routes key hm (s.selectedPeer key) now
    have hobserve : Speaker.Write now s { s with routes := s.routes.observe key (s.advertisementTo n key) (s.selectedPeer key) now } :=
      .table (.observe key (s.advertisementTo n key) (s.selectedPeer key)) trivial
    refine ⟨_, _, _, rfl, (frame_routes s _).trans (frame_modify rfl rfl), rfl, .head hobserve (.single (.neighbor n (.rest rfl))),
      hspeaks.canonical hs, ?_⟩
    rw [node_modify rfl, mem_insert_set]
    generalize s.advertisementTo n key = adv at *
    have hnode : ({ s with routes := s.routes.observe key adv (s.selectedPeer key) now } : Speaker).node = { s.node with
        sources := Function.update s.node.sources ⟨key, adv.routerID⟩
          (some (Node.observed (s.node.sources ⟨key, adv.routerID⟩) adv now)) } := by
      simp only [Speaker.node, hsources, hentries, hfib, lookup_insert_map, hdist]
    rw [hnode]
    exact .tell hspeaks hm

variable {n : NeighborRef} {gs gs' : List Group}

/-- No group told. -/
theorem tells_refl (s : Speaker) : Tells now n s s [] := ⟨.refl s, rfl, .refl, .refl _, by simp, by simp⟩

/-- Groups told one after another. -/
theorem tells_trans (h : Tells now n s s' gs) (h' : Tells now n s' s'' gs') : Tells now n s s'' (gs ++ gs') := by
  refine ⟨h.frame.trans h'.frame, h'.raised.trans h.raised, h.writes.trans h'.writes, ?_,
    List.forall_mem_append.mpr ⟨h.ok, h'.ok⟩, List.forall_mem_append.mpr ⟨h.promises, ?_⟩⟩
  · rw [tellings, List.filterMap_append]
    exact h.run.trans h'.run
  · rw [← h.frame.cfg]
    exact h'.promises

/-- `advertiseTo` tells one group, or none. -/
theorem advertiseTo_spec (hs : s.node.Sound) {key : RouteKey} {force : Bool} (hforce : force = true → key.Canonical)
    (first : Nat) : ∃ s' gs, s.advertiseTo n key force now first = (s', gs.flatMap Group.tlvs, undosFrom first gs) ∧
      Tells now n s s' gs := by
  unfold Speaker.advertiseTo
  obtain h | ⟨s', adv, spent, h, hframe, hraised, hwrites, hkey, hstep⟩ := @advertise_spec now s hs n key force hforce
  · rw [h]
    exact ⟨s, [], rfl, tells_refl s⟩
  · rw [h]
    refine ⟨s', [.update adv.routerID key adv.seqno adv.metric (toCentis s'.cfg.update) spent], ?_, hframe, hraised, hwrites,
      ?_, ?_, ?_⟩
    · simp [updateTLVs, Group.tlvs, undosFrom, Group.undos]
    · exact .single hstep
    · simpa [Group.Ok] using hkey
    · simp [Group.Promises, hframe.cfg]

/-- `dumpFor` tells groups. -/
theorem dumpFor_spec (hs : s.node.Sound) (keys : List RouteKey) :
    ∃ s' gs, s.dumpFor n keys now = (s', gs.flatMap Group.tlvs, undosFrom 0 gs) ∧ Tells now n s s' gs := by
  have hfold : ∀ (keys : List RouteKey) (t : Speaker) (gs : List Group), Tells now n s t gs → ∃ s' gs',
      keys.foldl (Speaker.dumpStep n now) (t, gs.flatMap Group.tlvs, undosFrom 0 gs) =
        (s', gs'.flatMap Group.tlvs, undosFrom 0 gs') ∧ Tells now n s s' gs' := by
    intro keys
    induction keys with
    | nil => exact fun t gs h => ⟨t, gs, rfl, h⟩
    | cons key rest ih =>
      intro t gs h
      obtain ⟨t', more, heq, htells⟩ := @advertiseTo_spec now t n (Node.sound_run h.run hs) key false (by simp)
        (gs.flatMap Group.tlvs).length
      have hstep : Speaker.dumpStep n now (t, gs.flatMap Group.tlvs, undosFrom 0 gs) key =
          (t', (gs ++ more).flatMap Group.tlvs, undosFrom 0 (gs ++ more)) := by
        rw [Speaker.dumpStep, heq, List.flatMap_append, undosFrom_append, Nat.zero_add]
        rfl
      rw [List.foldl_cons, hstep]
      exact ih t' (gs ++ more) (tells_trans h htells)
  exact hfold keys s [] (tells_refl s)

/-- The one action of groups told to a neighbor, or none when nothing was said. -/
theorem builds_tells (h : Tells now n s s' gs) (hP : ∀ key adv spent, P (.told n key adv spent)) {dest : Addr}
    {priority : SendPriority} (hvia : (dest, priority) = via n) :
    Builds now via P s s' (if (gs.flatMap Group.tlvs).isEmpty then [] else
      [{ neighbor := n, dest := dest, priority := priority, tlvs := gs.flatMap Group.tlvs, rollback := undosFrom 0 gs }]) := by
  have hshows : ∀ e ∈ tellings n gs, ∃ key adv spent, e = .told n key adv spent := by
    intro e he
    obtain ⟨g, -, hg⟩ := List.mem_filterMap.mp he
    cases g with
    | update id key seqno metric interval spent => exact ⟨_, _, _, (Option.some.inj hg).symm⟩
    | hello | other => exact absurd hg (by simp [Group.told])
  have hfilter : ∀ p : Node.Effect → Bool, (∀ key adv spent, p (.told n key adv spent) = false) →
      (tellings n gs).filter p = [] := by
    intro p hp
    refine List.filter_eq_nil_iff.mpr fun e he => ?_
    obtain ⟨key, adv, spent, rfl⟩ := hshows e he
    simp [hp]
  have htold : (tellings n gs).filter Node.Effect.isTold = tellings n gs := by
    refine List.filter_eq_self.mpr fun e he => ?_
    obtain ⟨key, adv, spent, rfl⟩ := hshows e he
    rfl
  have hraises : ((tellings n gs).filter Node.Effect.isRaised).length + s.raisedSeqno.toNat = s'.raisedSeqno.toNat := by
    rw [hfilter Node.Effect.isRaised fun _ _ _ => rfl, h.raised, List.length_nil, Nat.zero_add]
  have hP' : ∀ e ∈ tellings n gs, P e := fun e he => by
    obtain ⟨key, adv, spent, rfl⟩ := hshows e he
    exact hP key adv spent
  by_cases hempty : (gs.flatMap Group.tlvs).isEmpty = true
  · rw [if_pos hempty]
    have hnil : gs = [] := built_nil (a := { neighbor := n, dest := dest, priority := priority, tlvs := gs.flatMap Group.tlvs
                                             rollback := undosFrom 0 gs }) ⟨rfl, rfl, h.ok⟩ hempty
    subst hnil
    exact ⟨_, [], h.frame, h.writes, h.run, hP', hraises, rfl, ⟨by simp, by simp, by simp⟩, rfl⟩
  · rw [if_neg hempty]
    refine ⟨_, [(_, gs)], h.frame, h.writes, h.run, hP', hraises, rfl, ⟨?_, ?_, ?_⟩, ?_⟩
    · simpa using (⟨rfl, rfl, h.ok⟩ : SendAction.Built _ gs)
    · simpa using h.promises
    · simpa using fun _ => hvia
    · simp [planned, htold]

/-- A dump tells one neighbor. -/
theorem builds_dumpAction (hs : s.node.Sound) (hP : ∀ key adv spent, P (.told n key adv spent))
    (hvia : (multicastGroup, .dump) = via n) (keys : List RouteKey) :
    Builds now via P s (s.dumpAction n keys now).1 (s.dumpAction n keys now).2 := by
  obtain ⟨s', gs, heq, htells⟩ := @dumpFor_spec now s n hs keys
  have hbuilds := builds_tells htells hP hvia
  rw [Speaker.dumpAction, heq]
  dsimp only
  split_ifs at hbuilds ⊢ <;> exact hbuilds

/-- What a neighbor is owed is not the protocol's. -/
theorem quiet_clearOwed (now : Time) (s : Speaker) (n : NeighborRef) : Quiet now s (s.clearOwed n) := quiet_modify rfl rfl rfl (.rest rfl)

/-- A key owed to every neighbor is quiet. -/
theorem quiet_oweAll (s : Speaker) (key : RouteKey) : Quiet now s (s.oweAll key) :=
  quiet_foldl (fun _ _ => quiet_modify rfl rfl rfl (.rest rfl)) s.registered s

/-- Taking the dirty keys is quiet. -/
theorem quiet_takeDirty (now : Time) (s : Speaker) : Quiet now s { s with routes := s.routes.takeDirty.2 } :=
  quiet_routes .takeDirty trivial ⟨rfl, rfl, rfl⟩

/-- Actions for quietly changed state. -/
theorem builds_after (hq : Quiet now s s') (h : Builds now via P s' s'' actions) : Builds now via P s s'' actions :=
  builds_trans (builds_quiet hq) h

/-- Quietly changed state after actions. -/
theorem builds_before (h : Builds now via P s s' actions) (hq : Quiet now s' s'') : Builds now via P s s'' actions := by
  have hall := builds_trans h (builds_quiet hq)
  rwa [List.append_nil] at hall

section Passing

variable (hs : s.node.Sound) (hP : ∀ n ∈ s.registered, ∀ key adv spent, P (.told n key adv spent)) (hvia : ∀ n, (multicastGroup, .dump) = via n)

include hs hP hvia

/-- A full dump tells the registered neighbors. -/
theorem builds_updateActions : Builds now via P s (s.updateActions now).1 (s.updateActions now).2 := by
  have hquiet := (quiet_takeDirty now s).trans
    (quiet_foldl (quiet_clearOwed now) s.registered { s with routes := s.routes.takeDirty.2 })
  unfold Speaker.updateActions Speaker.updateActionsFor
  dsimp only
  split_ifs
  · exact builds_quiet hquiet
  · refine builds_after hquiet (builds_gather _ (fun t n hn ht => builds_dumpAction ht (hP n ?_) (hvia n) _) ?_)
    · rwa [← hquiet.frame.registered]
    · rw [hquiet.node]
      exact hs

/-- A triggered update tells the registered neighbors what they are owed. -/
theorem builds_triggeredActions : Builds now via P s (s.triggeredActions now).1 (s.triggeredActions now).2 := by
  have hquiet := (quiet_takeDirty now s).trans
    (quiet_foldl quiet_oweAll s.routes.takeDirty.1 { s with routes := s.routes.takeDirty.2 })
  refine builds_after hquiet (builds_gather _ (fun t n hn ht => ?_) ?_)
  · refine builds_after (quiet_clearOwed now t n) (builds_dumpAction ?_ (hP n ?_) (hvia n) _)
    · rw [(quiet_clearOwed now t n).node]
      exact ht
    · rwa [← hquiet.frame.registered]
  · rw [hquiet.node]
    exact hs

end Passing

/-- A request is recorded in the tables of requests. -/
theorem requests_allowSeqnoRequest (s : Speaker) (index : SourceKey) (seqno : UInt16) (asker : String) (now : Time) :
    OnlyRequests s (s.allowSeqnoRequest index seqno asker now).1 := by
  unfold Speaker.allowSeqnoRequest
  dsimp only
  split_ifs
  · exact rfl
  · exact rfl
  · exact rfl
  · unfold Speaker.recordSeqnoRequest
    split <;> exact rfl

/-- So is what a neighbor was asked. -/
theorem requests_allowAsk (s : Speaker) (n : NeighborRef) (key : RouteKey) (routerID : RouterID) (now : Time) :
    OnlyRequests s (s.allowAsk n key routerID now).1 := by
  unfold Speaker.allowAsk
  dsimp only
  split_ifs <;> exact rfl

/-- So is a starved prefix. -/
theorem requests_rememberStarved (s : Speaker) (key : RouteKey) (routerID : RouterID) (seqno : UInt16) (asker : String)
    (now : Time) : OnlyRequests s (s.rememberStarved key routerID seqno asker now) := by
  unfold Speaker.rememberStarved
  dsimp only
  split
  · exact rfl
  · split_ifs <;> exact rfl

/-- A single TLV of a type that is not framed with others, short enough for any packet. -/
theorem built_other {a : SendAction} {t : RawTLV} (htlvs : a.tlvs = [t]) (hroll : a.rollback = [])
    (hok : (Group.other t).Ok) : a.Built [.other t] :=
  ⟨by simp [htlvs, Group.tlvs], by simp [hroll, undosFrom, Group.undos], by simpa using hok⟩

/-- A slice is no longer than what it is of. -/
theorem length_sliceTo {raw out : List UInt8} {n : Nat} (h : sliceTo raw n = some out) : out.length ≤ raw.length := by
  unfold sliceTo at h
  split_ifs at h
  rw [← Option.some.inj h]
  exact List.length_take_le' _ _

/-- An address has at most sixteen bytes. -/
theorem length_asSlice_le (a : Addr) : a.asSlice.length ≤ 16 := by
  cases a <;> simp [Addr.asSlice]

/-- An encoded source prefix has at most nineteen bytes. -/
theorem length_encodeSource {ae : UInt8} {source : Prefix} {out : List UInt8} (h : encodeSource ae source = some out) :
    out.length ≤ 19 := by
  unfold encodeSource encodeSourcePrefix at h
  split_ifs at h
  · obtain ⟨raw, hraw, rfl⟩ := Option.map_eq_some_iff.mp h
    have h1 := length_sliceTo hraw
    have h2 := length_asSlice_le source.addr
    simp [encodeSubTLVs]
    omega
  · rw [← Option.some.inj h]
    simp

/-- A request for a seqno is at most one TLV, and a short one. -/
theorem seqnoRequestTLVs_spec (key : RouteKey) (routerID : RouterID) (seqno : UInt16) (hops : UInt8) :
    Speaker.seqnoRequestTLVs key routerID seqno hops = [] ∨
      ∃ t, Speaker.seqnoRequestTLVs key routerID seqno hops = [t] ∧ (Group.other t).Ok := by
  unfold Speaker.seqnoRequestTLVs
  cases h : encodeSeqnoRequest { ae := aeFor key.dest, dest := key.dest, sourcePrefix := key.source, seqno := seqno
                                 hopCount := hops, routerID := routerID } with
  | none => exact .inl rfl
  | some t =>
    refine .inr ⟨t, rfl, ?_⟩
    simp only [encodeSeqnoRequest, Option.bind_eq_bind, Option.bind_eq_some_iff, Option.some.injEq] at h
    obtain ⟨raw, hraw, source, hsource, rfl⟩ := h
    have h1 := length_sliceTo hraw
    have h2 := length_asSlice_le key.dest.masked.addr
    have h3 := length_encodeSource hsource
    refine ⟨?_, ?_⟩
    · show tlvSeqnoRequest ∉ _
      decide
    · simp [putUint16, headerLen]
      omega

/-- An action of at most one other TLV. -/
theorem builds_request (hq : Quiet now s s') (t : Speaker) (n : NeighborRef) (key : RouteKey) (routerID : RouterID) (seqno : UInt16)
    (hops : UInt8) : Builds now via P s s' [t.seqnoRequestSend n key routerID seqno hops] := by
  obtain h | ⟨tlv, h, hok⟩ := seqnoRequestTLVs_spec key routerID seqno hops
  · have hbuilt : (t.seqnoRequestSend n key routerID seqno hops).Built [] :=
      ⟨by simp [Speaker.seqnoRequestSend, h], rfl, by simp⟩
    exact builds_send hq hbuilt (by simp)
  · exact builds_send hq (built_other (t := tlv) (by simp [Speaker.seqnoRequestSend, h]) rfl hok) (by simp [Group.told])

/-- One request for a newer seqno. -/
theorem builds_seqnoRequestTo (s : Speaker) (n : NeighborRef) (key : RouteKey) (routerID : RouterID) (seqno : UInt16) :
    Builds now via P s (s.seqnoRequestTo n key routerID seqno now).1 [(s.seqnoRequestTo n key routerID seqno now).2] :=
  builds_request ((requests_allowSeqnoRequest s _ _ _ _).quiet (.request ..)) _ _ _ _ _ _

/-- A request that is forwarded if it is allowed. -/
theorem builds_seqnoRequestAction (s : Speaker) (n : NeighborRef) (asker : String) (key : RouteKey) (routerID : RouterID)
    (seqno : UInt16) (hops : UInt8) :
    Builds now via P s (s.seqnoRequestAction n asker key routerID seqno hops now).1
      (s.seqnoRequestAction n asker key routerID seqno hops now).2 := by
  have hquiet := (requests_allowSeqnoRequest s ⟨key, routerID⟩ seqno asker now).quiet (.request ..)
  unfold Speaker.seqnoRequestAction
  generalize s.allowSeqnoRequest ⟨key, routerID⟩ seqno asker now = out at hquiet ⊢
  obtain ⟨s', allowed⟩ := out
  cases allowed with
  | false => exact builds_quiet hquiet
  | true => exact builds_request hquiet _ _ _ _ _ _

/-- A starved prefix is asked for once, and remembered. -/
theorem builds_starvedAction (s : Speaker) (request : StarveRequest) :
    Builds now via P s (Speaker.starvedAction now s request).1 (Speaker.starvedAction now s request).2 := by
  have hquiet := (requests_allowAsk s request.neighbor request.key request.routerID now).quiet (.ask ..)
  unfold Speaker.starvedAction
  dsimp only
  split
  · exact builds_quiet (.refl s)
  · generalize s.allowAsk request.neighbor request.key request.routerID now = out at hquiet ⊢
    obtain ⟨s', allowed⟩ := out
    cases allowed with
    | false => exact builds_quiet hquiet
    | true =>
      refine builds_after hquiet ?_
      exact builds_trans (builds_seqnoRequestTo s' request.neighbor request.key request.routerID request.seqno)
        (builds_quiet ((requests_rememberStarved _ _ _ _ _ _).quiet (.starve ..)))

/-- Every starved prefix is asked for. -/
theorem builds_starvedActions (hs : s.node.Sound) :
    Builds now via P s (s.starvedActions now).1 (s.starvedActions now).2 := by
  have hquiet : Quiet now s { s with routes := s.routes.takeStarved.2 } := quiet_routes .takeStarved trivial ⟨rfl, rfl, rfl⟩
  refine builds_after hquiet (builds_gather _ (fun t request _ _ => builds_starvedAction t request) ?_)
  rw [hquiet.node]
  exact hs

/-- A neighbor is asked again if it is allowed. -/
theorem builds_retryAsk (retry : StarveRetry) (s : Speaker) (n : NeighborRef) :
    Builds now via P s (Speaker.retryAsk now retry s n).1 (Speaker.retryAsk now retry s n).2 := by
  have hquiet := (requests_allowAsk s n retry.key retry.routerID now).quiet (.ask ..)
  unfold Speaker.retryAsk
  split_ifs
  · exact builds_quiet (.refl s)
  · generalize s.allowAsk n retry.key retry.routerID now = out at hquiet ⊢
    obtain ⟨s', allowed⟩ := out
    cases allowed with
    | false => exact builds_quiet hquiet
    | true => exact builds_after hquiet (builds_seqnoRequestTo s' n retry.key retry.routerID retry.seqno)

/-- A starved prefix is forgotten, left for later, or asked for again. -/
theorem builds_retryStarved (hs : s.node.Sound) (id : SourceKey) :
    Builds now via P s (Speaker.retryStarved now s id).1 (Speaker.retryStarved now s id).2 := by
  unfold Speaker.retryStarved
  cases h : s.starveRetries.lookup id with
  | none => exact builds_quiet (.refl s)
  | some retry =>
    dsimp only
    split_ifs
    · exact builds_quiet (OnlyRequests.quiet rfl (.forget h))
    · exact builds_quiet (OnlyRequests.quiet rfl (.rest rfl))
    · exact builds_quiet (OnlyRequests.quiet rfl (.forget h))
    · refine builds_after ?_ (builds_gather _ (fun t n _ _ => builds_retryAsk _ t n) hs)
      exact OnlyRequests.quiet rfl (.retry h)

/-- Every remembered prefix is looked at. -/
theorem builds_retryStarvedLocked (hs : s.node.Sound) :
    Builds now via P s (s.retryStarvedLocked now).1 (s.retryStarvedLocked now).2 := by
  refine builds_after ?_ (builds_gather _ (fun _ id _ ht => builds_retryStarved ht id) hs)
  exact OnlyRequests.quiet rfl (.rest rfl)

/-- An IHU is short enough for any packet. -/
theorem ok_encodeIHU (ihu : IHU) : (Group.other (encodeIHU ihu)).Ok := by
  refine ⟨?_, ?_⟩
  · show tlvIHU ∉ _
    decide
  · unfold encodeIHU
    split_ifs <;> simp [putUint16, putUint32, encodeSubTLVs, headerLen]

/-- A Hello and its IHU tell nothing. -/
theorem builds_helloAction (s : Speaker) (n : NeighborRef) :
    Builds now via P s (s.helloAction n now).1 [(s.helloAction n now).2] := by
  obtain ⟨seqno, interval, ihu, htlvs⟩ : ∃ seqno interval ihu,
      (s.helloAction n now).2.tlvs = [Group.helloTLV seqno interval, encodeIHU ihu] := ⟨_, _, _, rfl⟩
  have hok : ∀ g ∈ [Group.hello seqno interval, .other (encodeIHU ihu)], g.Ok := by
    simp only [List.forall_mem_cons, List.not_mem_nil, false_implies, implies_true, and_true]
    exact ⟨trivial, ok_encodeIHU ihu⟩
  have hbuilt : (s.helloAction n now).2.Built [.hello seqno interval, .other (encodeIHU ihu)] :=
    ⟨by rw [htlvs]; rfl, rfl, hok⟩
  have hquiet : Quiet now s (s.modify n fun st => { st with sentHello := true, helloSeqno := st.helloSeqno + 1 }) :=
    quiet_modify rfl rfl rfl (.rest rfl)
  exact builds_send hquiet hbuilt (by simp [Group.told])

/-- The Hellos of a pass tell nothing. -/
theorem builds_helloActions (hs : s.node.Sound) (due : Bool) :
    Builds now via P s (s.helloActions due now).1 (s.helloActions due now).2 := by
  refine builds_gather _ (fun t n _ _ => ?_) hs
  split_ifs
  · exact builds_helloAction t n
  · exact builds_quiet (.refl t)

end BuildAux

end RanetLite.Babel
