import Mathlib.Data.Set.Basic
import RanetLite.Babel.Receive
import RanetLite.Theorems.Wire

/-!
# The protocol a speaker runs

An abstract node: the state the routing protocol is about, with maps as functions, and the steps it can take. Timers, link estimation,
hysteresis, request suppression and the packets' bytes are not in it. A selection may pick any feasible route, or none.

`Speaker.node` is the abstraction of a speaker's state. Every operation of the speaker is a run of its node, so what every step keeps,
every operation keeps.
-/

namespace RanetLite.Babel

open Netip

/-- A stored route, without its smoothed metric. -/
structure Offer where
  routerID : RouterID
  seqno : UInt16
  metric : UInt16
  hold : Duration
  expiresAt : Time

/-- The routes of a key, and the one selected. -/
@[ext] structure NodeEntry where
  routes : NeighborRef → Option Offer
  selected : RouteSelection
  onceSelected : Bool

/-- A feasibility distance and the time it is collected. -/
structure Distance where
  seqno : UInt16
  metric : UInt16
  gcAt : Time

/-- A distance is bettered as a source entry is. -/
def Distance.better (d : Distance) (seqno metric : UInt16) : Bool :=
  seqnoGT seqno d.seqno || (seqno = d.seqno && metric < d.metric)

/-- A node of the mesh. -/
@[ext] structure Node where
  routerID : RouterID
  noTransit : Bool
  originSeqno : UInt16
  peer : NeighborRef → Peer
  advertised : NeighborRef → Set RouteKey
  fresh : NeighborRef
  neighbors : String → Option NeighborRef
  originate : Set RouteKey
  entries : RouteKey → Option NodeEntry
  sources : SourceKey → Option Distance
  fib : Sadr.Table FibTarget

namespace Node

variable {now : Time} {v v' : Node} {key : RouteKey} {n : NeighborRef}

/-- A neighbor is registered while its peer's name points at it. -/
def Registered (v : Node) (n : NeighborRef) : Prop := v.neighbors (v.peer n).id = some n

/-- The entry of a key, or the one a first route makes. -/
def entryOf (v : Node) (key : RouteKey) : NodeEntry := (v.entries key).getD ⟨fun _ => none, {}, false⟩

/-- The distance recorded when `(seqno, metric)` is advertised: the better of it and the one held. -/
def observed (d : Option Distance) (adv : Advertisement) (now : Time) : Distance :=
  match d with
  | none => ⟨adv.seqno, adv.metric, now + sourceGCTime⟩
  | some d =>
    if d.better adv.seqno adv.metric then ⟨adv.seqno, adv.metric, now + sourceGCTime⟩
    else ⟨d.seqno, d.metric, now + sourceGCTime⟩

/-- A route of which less is known than before: retracted, or the same. -/
def Weaker (r r' : Offer) : Prop :=
  r'.routerID = r.routerID ∧ r'.seqno = r.seqno ∧ r'.hold = r.hold ∧
    (r'.metric = metricInfinity ∨ r'.metric = r.metric ∧ r'.expiresAt = r.expiresAt)

/-- A route that a selection has looked at: one that is still finite has not expired. -/
def Aged (now : Time) (r r' : Offer) : Prop := Weaker r r' ∧ (r'.metric ≠ metricInfinity → now < r'.expiresAt)

/-- A selection over the routes of a key: none, or a feasible route with a finite metric below its cost. -/
def Choice (v : Node) (key : RouteKey) (routes : NeighborRef → Option Offer) (sel : RouteSelection) : Prop :=
  sel.neighbor = none ∨ ∃ n r, sel.neighbor = some n ∧ routes n = some r ∧ r.metric ≠ metricInfinity ∧
    sel.routerID = r.routerID ∧ sel.seqno = r.seqno ∧ r.metric < sel.cost ∧ sel.cost ≠ metricInfinity ∧
    ∀ d, v.sources ⟨key, r.routerID⟩ = some d → d.better r.seqno r.metric = true

/-- What the forwarding table holds for a selection. -/
def target (v : Node) (sel : RouteSelection) : FibTarget :=
  match sel.neighbor with
  | some n => .peer (v.peer n)
  | none => .unreachable

/-- The node after a key was settled on `routes` and `sel`, its entry being `e` before. -/
def settled (v : Node) (key : RouteKey) (e : NodeEntry) (routes : NeighborRef → Option Offer) (sel : RouteSelection)
    (empty : Bool) : Node :=
  let fib := if sel.neighbor ≠ e.selected.neighbor then v.fib.set key.source key.dest (v.target sel) else v.fib
  if empty then
    { v with entries := Function.update v.entries key none, fib := fib.remove key.source key.dest }
  else
    { v with
      entries := Function.update v.entries key (some ⟨routes, sel, e.onceSelected || sel.neighbor.isSome⟩), fib := fib }

/-- `selectRoute` on the entry of a key whose routes were changed to `routes`. -/
inductive Settles (now : Time) (v : Node) (key : RouteKey) (routes : NeighborRef → Option Offer) : Node → Prop
  | mk (routes' : NeighborRef → Option Offer) (sel : RouteSelection) (empty : Bool)
      (aged : ∀ n r', routes' n = some r' → ∃ r, routes n = some r ∧ Aged now r r')
      (choice : v.Choice key routes' sel) (hempty : empty = true ↔ ∀ n, routes' n = none) :
      Settles now v key routes (v.settled key (v.entryOf key) routes' sel empty)

/-- What a step shows: an Update acted on or built, a key selected again, a distance collected, the origin seqno raised, or a change
the owner asked for. An undo shows nothing. -/
inductive Effect where
  | heard (n : NeighborRef) (key : RouteKey) (adv : Advertisement) (hold : Duration)
  | told (n : NeighborRef) (key : RouteKey) (adv : Advertisement) (spent : Bool)
  | selected
  | collected (index : SourceKey)
  | raised
  | changed

/-- Whether an effect is an Update told. -/
def Effect.isTold : Effect → Bool
  | told _ _ _ _ => true
  | _ => false

/-- Whether an effect is a raise of the origin seqno. -/
def Effect.isRaised : Effect → Bool
  | raised => true
  | _ => false

/-- What a node says of a prefix when it says it is reachable. -/
inductive Speaks (v : Node) (n : NeighborRef) (key : RouteKey) : Advertisement → Prop
  | origin (h : key ∈ v.originate) : Speaks v n key ⟨v.routerID, v.originSeqno, 0⟩
  | transit {e : NodeEntry} {m : NeighborRef} (hlocal : key ∉ v.originate) (htransit : v.noTransit = false)
      (hentry : v.entries key = some e) (hsel : e.selected.neighbor = some m) (hsplit : m ≠ n) :
      Speaks v n key ⟨e.selected.routerID, e.selected.seqno, e.selected.cost⟩

/-- The route an advertisement leaves: a finite one starts its hold. -/
def Learned (adv : Advertisement) (hold : Duration) (now : Time) (r : Offer) : Prop :=
  r.routerID = adv.routerID ∧ r.seqno = adv.seqno ∧ r.metric = adv.metric ∧
    (adv.metric ≠ metricInfinity → r.hold = hold ∧ r.expiresAt = now + hold)

/-- One step of a node. -/
inductive Step (now : Time) : Node → Option Effect → Node → Prop
  | weaken {v v' : Node} {key : RouteKey} {e : NodeEntry} {routes : NeighborRef → Option Offer} (hentry : v.entries key = some e)
      (hweak : ∀ n r', routes n = some r' → ∃ r, e.routes n = some r ∧ Weaker r r')
      (hsettles : Settles now v key routes v') : Step now v (some .selected) v'
  | learn {v v' : Node} {n : NeighborRef} {key : RouteKey} {adv : Advertisement} {hold : Duration} {r : Offer}
      (hreg : v.Registered n) (hkey : key.Canonical) (hlocal : key ∉ v.originate)
      (hid : adv.metric ≠ metricInfinity → adv.routerID ≠ v.routerID) (hlearned : Learned adv hold now r)
      (hsettles : Settles now v key (Function.update (v.entryOf key).routes n (some r)) v') :
      Step now v (some (.heard n key adv hold)) v'
  | tell {v : Node} {n : NeighborRef} {key : RouteKey} {adv : Advertisement} (hspeaks : v.Speaks n key adv)
      (hfinite : adv.metric ≠ metricInfinity) :
      Step now v (some (.told n key adv false))
        { v with
          sources := Function.update v.sources ⟨key, adv.routerID⟩ (some (observed (v.sources ⟨key, adv.routerID⟩) adv now))
          advertised := Function.update v.advertised n (insert key (v.advertised n)) }
  | retract {v : Node} {n : NeighborRef} {key : RouteKey} {adv : Advertisement} {spent : Bool} (hkey : key.Canonical)
      (hinfinite : adv.metric = metricInfinity) (hspent : spent = true ↔ key ∈ v.advertised n) :
      Step now v (some (.told n key adv spent))
        { v with advertised := Function.update v.advertised n (v.advertised n \ {key}) }
  | restore {v : Node} (n : NeighborRef) {key : RouteKey} (hkey : key.Canonical) :
      Step now v none { v with advertised := Function.update v.advertised n (insert key (v.advertised n)) }
  | collect {v : Node} {index : SourceKey} {d : Distance} (hd : v.sources index = some d) (hgc : d.gcAt ≤ now) :
      Step now v (some (.collected index)) { v with sources := Function.update v.sources index none }
  | raise {v : Node} : Step now v (some .raised) { v with originSeqno := v.originSeqno + 1 }
  | adopt {v : Node} {key : RouteKey} (hkey : key.Canonical) :
      Step now v (some .changed)
        { v with
          originate := insert key v.originate, entries := Function.update v.entries key none
          fib := v.fib.set key.source key.dest .unreachable }
  | disown {v : Node} {key : RouteKey} (hkey : key ∈ v.originate) :
      Step now v (some .changed) { v with originate := v.originate \ {key}, fib := v.fib.remove key.source key.dest }
  | register {v : Node} (p : Peer)
      (hgone : ∀ old, v.neighbors p.id = some old → ∀ key e, v.entries key = some e → e.routes old = none) :
      Step now v (some .changed)
        { v with
          neighbors := Function.update v.neighbors p.id (some v.fresh), peer := Function.update v.peer v.fresh p
          advertised := Function.update v.advertised v.fresh ∅, fresh := v.fresh + 1 }
  | unregister {v : Node} {n : NeighborRef} (hreg : v.Registered n)
      (hgone : ∀ key e, v.entries key = some e → e.routes n = none) :
      Step now v (some .changed) { v with neighbors := Function.update v.neighbors (v.peer n).id none }

/-- Steps one after another at one time, and what they show. -/
inductive Run (now : Time) : Node → List Effect → Node → Prop
  | refl (v : Node) : Run now v [] v
  | step {v v' v'' : Node} {effect : Option Effect} {effects : List Effect} (hstep : Step now v effect v')
      (hrun : Run now v' effects v'') : Run now v (effect.toList ++ effects) v''

theorem Run.single {effect : Option Effect} (h : Step now v effect v') : Run now v effect.toList v' := by
  have hrun := Run.step h (.refl v')
  rwa [List.append_nil] at hrun

/-- One step that shows something. -/
theorem Run.shown {effect : Effect} (h : Step now v (some effect) v') : Run now v [effect] v' :=
  .single h

theorem Run.trans {v'' : Node} {a b : List Effect} (h : Run now v a v') (h' : Run now v' b v'') : Run now v (a ++ b) v'' := by
  induction h with
  | refl => exact h'
  | step hstep _ ih =>
    rw [List.append_assoc]
    exact .step hstep (ih h')

/-- What every step keeps, every run keeps. -/
theorem Run.preserves {P : Node → Prop} (hstep : ∀ {v v' : Node} {e : Option Effect}, Step now v e v' → P v → P v')
    {effects : List Effect} (h : Run now v effects v') : P v → P v' := by
  induction h with
  | refl => exact id
  | step hs _ ih => exact fun hp => ih (hstep hs hp)

/-- Keys selected again, and nothing else. -/
def Reselects (now : Time) (v v' : Node) : Prop := ∃ effects, (∀ e ∈ effects, e = .selected) ∧ Run now v effects v'

theorem Reselects.refl (v : Node) : Reselects now v v := ⟨[], by simp, .refl v⟩

theorem Reselects.trans {v'' : Node} (h : Reselects now v v') (h' : Reselects now v' v'') : Reselects now v v'' := by
  obtain ⟨a, ha, h⟩ := h
  obtain ⟨b, hb, h'⟩ := h'
  exact ⟨a ++ b, List.forall_mem_append.mpr ⟨ha, hb⟩, h.trans h'⟩

/-- Selecting keys again leaves the distances alone. -/
theorem Run.sources {effects : List Effect} (h : Run now v effects v') (heff : ∀ e ∈ effects, e = .selected) :
    v'.sources = v.sources := by
  induction h with
  | refl => rfl
  | @step v v' _ effect effects hstep _ ih =>
    rw [List.forall_mem_append] at heff
    rw [ih heff.2]
    have hfirst := heff.1
    cases hstep with
    | weaken hentry hweak hsettles =>
      obtain ⟨routes, sel, empty, -, -, -⟩ := hsettles
      cases empty <;> rfl
    | restore | retract | raise | adopt | disown | register | unregister => rfl
    | learn | tell | collect => exact absurd (hfirst _ (List.mem_singleton_self _)) (by simp)

/-- The effects of a sweep: keys selected again, and distances collected that are due. -/
def Collects (now : Time) (v : Node) (effects : List Effect) : Prop :=
  ∀ e ∈ effects, e = .selected ∨ ∃ index d, e = .collected index ∧ v.sources index = some d ∧ d.gcAt ≤ now

/-- No stored route of a key is from a neighbor. -/
def Absent (v : Node) (n : NeighborRef) (key : RouteKey) : Prop := ∀ e, v.entries key = some e → e.routes n = none

theorem settled_entries (v : Node) (key : RouteKey) (e : NodeEntry) (routes : NeighborRef → Option Offer)
    (sel : RouteSelection) (empty : Bool) :
    (v.settled key e routes sel empty).entries = Function.update v.entries key
      (if empty then none else some ⟨routes, sel, e.onceSelected || sel.neighbor.isSome⟩) := by
  cases empty <;> rfl

theorem Settles.entries {routes : NeighborRef → Option Offer} (h : Settles now v key routes v') :
    (∀ k, k ≠ key → v'.entries k = v.entries k) ∧
      ∀ e, v'.entries key = some e → ∀ n r', e.routes n = some r' → ∃ r, routes n = some r ∧ Aged now r r' := by
  obtain ⟨routes', sel, empty, haged, -, -⟩ := h
  rw [settled_entries]
  refine ⟨fun k hk => Function.update_of_ne hk _ _, fun e he => ?_⟩
  rw [Function.update_self] at he
  cases empty with
  | true => exact absurd he (by simp)
  | false =>
    rw [← Option.some.inj he]
    exact haged

/-- Settling a key on routes without a neighbor leaves none of it. -/
theorem Settles.absent {routes : NeighborRef → Option Offer} (h : Settles now v key routes v') (hn : routes n = none) :
    v'.Absent n key := by
  intro e he
  rw [Option.eq_none_iff_forall_ne_some]
  intro r hr
  obtain ⟨r', hr', -⟩ := h.entries.2 e he n r hr
  rw [hn] at hr'
  exact absurd hr' (by simp)

/-- Selecting a key again makes no route. -/
theorem Step.absent {effect : Option Effect} (h : Step now v effect v') (heff : ∀ e ∈ effect.toList, e = .selected)
    (habs : v.Absent n key) : v'.Absent n key := by
  cases h with
  | @weaken _ k e routes hentry hweak hsettles =>
    by_cases hk : key = k
    · subst hk
      refine hsettles.absent ?_
      rw [Option.eq_none_iff_forall_ne_some]
      intro r hr
      obtain ⟨r', hr', -⟩ := hweak n r hr
      rw [habs e hentry] at hr'
      exact absurd hr' (by simp)
    · intro e he
      rw [hsettles.entries.1 key hk] at he
      exact habs e he
  | restore => exact habs
  | learn | tell | retract | collect | raise | adopt | disown | register | unregister =>
    exact absurd (heff _ (List.mem_singleton_self _)) (by simp)

theorem Reselects.absent (h : Reselects now v v') (habs : v.Absent n key) : v'.Absent n key := by
  obtain ⟨effects, heff, hrun⟩ := h
  induction hrun with
  | refl => exact habs
  | step hstep _ ih =>
    rw [List.forall_mem_append] at heff
    exact ih (hstep.absent heff.1 habs) heff.2

end Node

/-- A stored route as an offer. -/
def RouteInfo.offer (r : RouteInfo) : Offer := ⟨r.routerID, r.seqno, r.rxMetric, r.hold, r.expiresAt⟩

/-- An entry of the route table. -/
def KeyEntry.node (e : KeyEntry) : NodeEntry :=
  ⟨fun n => (e.routes.lookup n).map RouteInfo.offer, e.selected, e.onceSelected⟩

/-- A feasibility distance. -/
def SourceEntry.distance (e : SourceEntry) : Distance := ⟨e.seqno, e.metric, e.gcAt⟩

/-- The node of a speaker. -/
def Speaker.node (s : Speaker) : Node where
  routerID := s.cfg.routerID
  noTransit := s.cfg.noTransit
  originSeqno := s.originSeqno
  peer n := (s.heap n).peer
  advertised n := {key | key ∈ (s.heap n).advertised}
  fresh := s.nextRef
  neighbors id := s.neighbors.lookup id
  originate := {key | key ∈ s.originate}
  entries key := (s.routes.entries.lookup key).map KeyEntry.node
  sources index := (s.routes.sources.lookup index).map SourceEntry.distance
  fib := s.routes.fib

end RanetLite.Babel
