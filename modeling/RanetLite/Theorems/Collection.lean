import RanetLite.Lemmas.Mesh
import RanetLite.Theorems.Speaker

/-!
# Collecting feasibility distances

A node may forget the distance of a source once nobody can hold a route from before. The source table forgets `sourceGCTime` after the
last advertisement; a route is held for three and a half times the interval its Update promised, from when the packet arrived. The
distance outlives every such route when each packet is heard early enough for that (`collection_safe`). The interval is a setting of up
to eleven minutes, and at ten the distance goes before the next Update is due, without any delay (`collection_unsafe`).
-/

namespace RanetLite.Babel

open Netip SpeakerAux

/-- A packet is heard early enough: the routes it leaves expire before its sender may forget having sent it. -/
def Act.Timely {ι : Type} : Act ι → Prop
  | .deliver _ _ _ f _ now => ∀ key adv interval, f.Says key adv interval →
      now + deadTimeout (centis interval) ≤ f.sentAt + sourceGCTime
  | _ => True

namespace Node

variable {v : Node} {now : Time}

/-- A time has come, or there is a distance that is collected no earlier. -/
def Lasts (v : Node) (now : Time) (index : SourceKey) (t : Time) : Prop := t ≤ now ∨ ∃ d, v.sources index = some d ∧ t ≤ d.gcAt

/-- No distance is kept for longer than `sourceGCTime`. -/
def Bounded (v : Node) (now : Time) : Prop := ∀ index d, v.sources index = some d → d.gcAt ≤ now + sourceGCTime

theorem Lasts.mono {now' : Time} {index : SourceKey} {t t' : Time} (h : v.Lasts now index t) (hnow : now ≤ now') (ht : t' ≤ t) :
    v.Lasts now' index t' := by
  obtain h | ⟨d, hd, hle⟩ := h
  · exact .inl (ht.trans (h.trans hnow))
  · exact .inr ⟨d, hd, ht.trans hle⟩

/-- Telling a prefix renews its distance, and only what is due is collected. -/
theorem Step.lasts {v' : Node} {effect : Option Effect} (h : Step now v effect v') (hbound : v.Bounded now) :
    v'.Bounded now ∧ (∀ index t, v.Lasts now index t → v'.Lasts now index t) ∧
      ∀ n key adv spent, effect = some (.told n key adv spent) → adv.metric ≠ metricInfinity →
        v'.Lasts now ⟨key, adv.routerID⟩ (now + sourceGCTime) := by
  have hframe : v'.sources = v.sources → v'.Bounded now ∧ ∀ index t, v.Lasts now index t → v'.Lasts now index t := by
    intro hs
    unfold Bounded Lasts
    rw [hs]
    exact ⟨hbound, fun _ _ h => h⟩
  cases h with
  | weaken _ _ hsettles | learn _ _ _ _ _ hsettles =>
    obtain ⟨routes, sel, empty, -, -, -⟩ := hsettles
    obtain ⟨hb, hl⟩ := hframe (by cases empty <;> rfl)
    exact ⟨hb, hl, fun _ _ _ _ heq => absurd heq (by simp)⟩
  | @tell n key adv hspeaks hfinite =>
    have hrenewed : ∀ d, (observed d adv now).gcAt = now + sourceGCTime := by
      intro d
      unfold observed
      split
      · rfl
      · split_ifs <;> rfl
    have hnew : ∀ t, t ≤ now + sourceGCTime → ∃ d, Function.update v.sources ⟨key, adv.routerID⟩
        (some (observed (v.sources ⟨key, adv.routerID⟩) adv now)) ⟨key, adv.routerID⟩ = some d ∧ t ≤ d.gcAt := fun t ht =>
      ⟨_, Function.update_self _ _ _, by rw [hrenewed]; exact ht⟩
    refine ⟨fun index d hd => ?_, fun index t hlasts => ?_, ?_⟩
    · dsimp only at hd
      by_cases hidx : index = ⟨key, adv.routerID⟩
      · rw [hidx, Function.update_self, Option.some.injEq] at hd
        rw [← hd, hrenewed]
      · rw [Function.update_of_ne hidx] at hd
        exact hbound index d hd
    · obtain hdue | ⟨d, hd, hle⟩ := hlasts
      · exact .inl hdue
      · by_cases hidx : index = ⟨key, adv.routerID⟩
        · rw [hidx] at hd ⊢
          exact .inr (hnew t (hle.trans (hbound _ d hd)))
        · exact .inr ⟨d, (Function.update_of_ne hidx _ _).trans hd, hle⟩
    · rintro n' key' adv' spent heq -
      obtain ⟨rfl, rfl, rfl, -⟩ := Effect.told.inj (Option.some.inj heq)
      exact .inr (hnew _ (le_refl _))
  | retract _ hinfinite =>
    obtain ⟨hb, hl⟩ := hframe rfl
    refine ⟨hb, hl, ?_⟩
    rintro n' key' adv' spent heq hm
    obtain ⟨-, -, rfl, -⟩ := Effect.told.inj (Option.some.inj heq)
    exact absurd hinfinite hm
  | @collect index d hd hgc =>
    refine ⟨fun index' d' hd' => ?_, fun index' t hlasts => ?_, fun _ _ _ _ heq => absurd heq (by simp)⟩
    · dsimp only at hd'
      by_cases hidx : index' = index
      · rw [hidx, Function.update_self] at hd'
        exact absurd hd' (by simp)
      · rw [Function.update_of_ne hidx] at hd'
        exact hbound index' d' hd'
    · obtain hdue | ⟨d', hd', hle⟩ := hlasts
      · exact .inl hdue
      · by_cases hidx : index' = index
        · rw [hidx, hd, Option.some.injEq] at hd'
          rw [← hd'] at hle
          exact .inl (hle.trans hgc)
        · exact .inr ⟨d', (Function.update_of_ne hidx _ _).trans hd', hle⟩
  | restore | raise | adopt | disown | register | unregister =>
    obtain ⟨hb, hl⟩ := hframe rfl
    exact ⟨hb, hl, fun _ _ _ _ heq => absurd heq (by simp)⟩

theorem Run.lasts {v' : Node} {effects : List Effect} (h : Run now v effects v') : v.Bounded now →
    v'.Bounded now ∧ (∀ index t, v.Lasts now index t → v'.Lasts now index t) ∧
      ∀ n key adv spent, .told n key adv spent ∈ effects → adv.metric ≠ metricInfinity →
        v'.Lasts now ⟨key, adv.routerID⟩ (now + sourceGCTime) := by
  induction h with
  | refl => exact fun hb => ⟨hb, fun _ _ h => h, fun _ _ _ _ h => absurd h (by simp)⟩
  | step hstep _ ih =>
    intro hb
    obtain ⟨hb', hkeeps, htells⟩ := hstep.lasts hb
    obtain ⟨hb'', hkeeps', htells'⟩ := ih hb'
    refine ⟨hb'', fun index t hl => hkeeps' index t (hkeeps index t hl), fun n key adv spent hmem hm => ?_⟩
    obtain hmem | hmem := List.mem_append.mp hmem
    · exact hkeeps' _ _ (htells n key adv spent (Option.mem_toList.mp hmem) hm)
    · exact htells' n key adv spent hmem hm

end Node

namespace Mesh

variable {ι : Type}

/-- The distances of the mesh outlive the routes learned from them, and the packets that may still leave one. -/
structure Timed (far : ι → String → ι) (w : Mesh ι) : Prop where
  good : w.Good
  bounded : ∀ i, (w.node i).node.Bounded w.clock
  flights : ∀ i, ∀ f ∈ w.flights i, ∀ key adv interval, f.Says key adv interval →
    (w.node i).node.Lasts w.clock ⟨key, adv.routerID⟩ (f.sentAt + sourceGCTime)
  routes : ∀ j key e n r, (w.node j).node.entries key = some e → e.routes n = some r → r.metric ≠ metricInfinity →
    (w.node (far j ((w.node j).node.peer n).id)).node.Lasts w.clock ⟨key, r.routerID⟩ r.expiresAt

namespace CollectAux

variable {far : ι → String → ι} {w w' : Mesh ι}

theorem timed_start (h : w.Start) : w.Timed far := by
  have hrun : ∀ i, ∃ settings effects, OpAux.Owned effects ∧
      Node.Run w.clock (Speaker.empty settings).node effects (w.node i).node := by
    intro i
    obtain ⟨cfg, routes, rt, drawn, damp, hnew⟩ := h.node i
    exact MeshAux.run_new hnew w.clock
  refine ⟨MeshAux.good_start h, fun i => ?_, fun i f hf => ?_, fun j key e n r he hr hm => ?_⟩
  · obtain ⟨settings, effects, -, hrun⟩ := hrun i
    refine (hrun.lasts fun index d hd => ?_).1
    exact absurd hd (by simp [Speaker.node, Speaker.empty])
  · rw [h.flights i] at hf
    exact absurd hf List.not_mem_nil
  · obtain ⟨settings, effects, howned, hrun⟩ := hrun j
    obtain ⟨e0, he0, -⟩ | ⟨adv, hold, hheard, -⟩ := hrun.finite_route he hr hm
    · exact absurd he0 (by simp [Speaker.node, Speaker.empty])
    · exact absurd (howned _ hheard) (by simp)

/-- An act that changes no node keeps the distances. -/
theorem timed_same (h : w.Timed far) (hsame : Same w w') (hgood : w'.Good) : w'.Timed far := by
  refine ⟨hgood, fun i => ?_, fun i f hf => ?_, fun j key e n r => ?_⟩
  · rw [hsame.node, hsame.clock]
    exact h.bounded i
  · rw [hsame.node, hsame.clock]
    exact h.flights i f (hsame.flights i f hf)
  · rw [hsame.node, hsame.node, hsame.clock]
    exact h.routes j key e n r

variable [DecidableEq ι]

/-- A call of one node keeps the distances. -/
theorem timed_delta (h : w.Timed far) {a : Act ι} (hforward : a.Forward w) (htimely : a.Timely) {i : ι} {now : Time}
    {effects : List Node.Effect} (hdelta : Delta far w a w' i now effects) (hgood : w'.Good) : w'.Timed far := by
  have hnow : w.clock ≤ now := hforward now hdelta.time
  have hbounded : ∀ j, (w.node j).node.Bounded now := fun j index d hd =>
    (h.bounded j index d hd).trans (Int.add_le_add_right hnow _)
  obtain ⟨hbound, hkeeps, htells⟩ := hdelta.run.lasts (hbounded i)
  -- what lasted at any node before the call lasts after it
  have hlasts : ∀ j index t, (w.node j).node.Lasts w.clock index t → (w'.node j).node.Lasts now index t := by
    intro j index t hl
    by_cases hj : j = i
    · rw [hj] at hl ⊢
      exact hkeeps index t (hl.mono hnow (le_refl t))
    · rw [hdelta.nodes j hj]
      exact hl.mono hnow (le_refl t)
  rw [← hdelta.clock] at hbounded hbound hlasts htells
  refine ⟨hgood, fun j => ?_, fun j f hf key adv interval hspoken => ?_, fun j key e n r he hr hm => ?_⟩
  · by_cases hj : j = i
    · rw [hj]
      exact hbound
    · rw [hdelta.nodes j hj]
      exact hbounded j
  · by_cases hj : j = i
    · subst hj
      obtain hold | ⟨hsent, hsaid⟩ := hdelta.told f hf
      · exact hlasts j _ _ (h.flights j f hold key adv interval hspoken)
      · obtain ⟨n, spent, htold⟩ := hsaid key adv interval hspoken
        rw [hsent, ← hdelta.clock]
        exact htells n key adv spent htold hspoken.1
    · rw [hdelta.flights j hj] at hf
      exact hlasts j _ _ (h.flights j f hf key adv interval hspoken)
  · by_cases hj : j = i
    · subst hj
      have hsound := h.good.sound j
      obtain ⟨e0, he0, hr0⟩ | ⟨adv, hold, hheard, hfinite, hid, -, -, hexpires⟩ := hdelta.run.finite_route he hr hm
      · rw [hdelta.run.peer.2 n (hsound.lt_fresh (hsound.routes he0 hr0))]
        exact hlasts _ _ _ (h.routes j key e0 n r he0 hr0 hm)
      · -- a route just heard expires before the sender's distance: its packet was in time
        obtain ⟨hreg, peer, src, f, rs, interval, rfl, hf, hspoken, rfl⟩ := hdelta.heard hheard hfinite
        rw [hdelta.run.peer.2 n (hsound.lt_fresh hreg), hid, (hexpires hfinite).2]
        exact (hlasts _ _ _ (h.flights _ f hf key adv interval hspoken)).mono (le_refl _) (htimely key adv interval hspoken)
    · rw [hdelta.nodes j hj] at he ⊢
      exact hlasts _ _ _ (h.routes j key e n r he hr hm)

/-- One act keeps the distances long enough. -/
theorem timed_act (h : w.Timed far) {a : Act ι} (hen : (system far).enabled w a) (hforward : a.Forward w) (htimely : a.Timely) :
    ((system far).apply w a).Timed far := by
  have hgood := MeshAux.good_of_enabled h.good hen
  obtain hsame | ⟨i, now, effects, hdelta⟩ := MeshAux.delta_of_enabled h.good hen
  · exact timed_same h hsame hgood
  · exact timed_delta h hforward htimely hdelta hgood

end CollectAux
end Mesh

open Mesh Mesh.CollectAux

/-- In every run of a mesh in which packets are heard early enough, whenever a sweep leaves a node without a distance for a key and a
router id, every finite route that another node holds for them from this one has expired. -/
theorem collection_safe {ι : Type} [DecidableEq ι] {far : ι → String → ι} {w0 w : Mesh ι} (hstart : w0.Start)
    (hrun : ((system far).restrict fun w a => a.Forward w ∧ a.Timely).Run w0 w) {i : ι} {key : RouteKey} {id : RouterID} {now : Time}
    (hnow : w.clock ≤ now) (hcollected : ((w.node i).routes.sweepSources now).sources.lookup ⟨key, id⟩ = none) {j : ι}
    {entry : KeyEntry} {n : NeighborRef} {r : RouteInfo} (hentry : (w.node j).routes.entries.lookup key = some entry)
    (hroute : entry.routes.lookup n = some r) (hfrom : far j ((w.node j).heap n).peer.id = i) (hid : r.routerID = id)
    (hfinite : r.rxMetric ≠ metricInfinity) : r.expiresAt ≤ now := by
  have htimed : w.Timed far := hrun.invariant (P := fun w => w.Timed far) (timed_start hstart)
    fun w a h hen => timed_act h hen.1 hen.2.1 hen.2.2
  have hlasts := htimed.routes j key entry.node n r.offer (congrArg (Option.map KeyEntry.node) hentry)
    (congrArg (Option.map RouteInfo.offer) hroute) hfinite
  obtain ⟨effects, hsweep, -⟩ := run_sweepSources (w.node i) now
  have hbounded : (w.node i).node.Bounded now := fun index d hd =>
    (htimed.bounded i index d hd).trans (Int.add_le_add_right hnow _)
  have hfrom' : far j ((w.node j).node.peer n).id = i := hfrom
  rw [hfrom'] at hlasts
  obtain hdue | ⟨d, hd, -⟩ := (hsweep.lasts hbounded).2.1 _ _ (hlasts.mono hnow (le_refl _))
  · exact hdue
  · have hnone : ({ w.node i with routes := (w.node i).routes.sweepSources now } : Speaker).node.sources ⟨key, id⟩ = none :=
      congrArg (Option.map SourceEntry.distance) hcollected
    rw [show (⟨key, r.offer.routerID⟩ : SourceKey) = ⟨key, id⟩ from by rw [← hid]; rfl, hnone] at hd
    exact absurd hd (by simp)

/-- A speaker with an update interval. -/
def pairSpeaker (update : Duration) (id : RouterID) : Speaker :=
  .empty (Speaker.settings { update := update } {} ⟨id, .v6 0xfe800000000000000000000000000001 "", 1352⟩
    fun _ smoothed _ _ => smoothed)

/-- Two speakers with one configuration. -/
def pairStart (update : Duration) : Mesh Bool where
  clock := second
  node i := pairSpeaker update (if i then 2 else 1)
  sent _ := []
  flights _ := []

/-- Each is the only peer of the other. -/
def pairFar (i : Bool) (_ : String) : Bool := !i

/-- `10.0.0.0/8`. -/
def tenKey : RouteKey := ⟨.none, prefixFrom (.v4 0x0a000000#32) 8⟩

/-- They meet, and the first announces a prefix in its next pass, with room for two packets. -/
def pairCalls : List (Bool × Op) :=
  [(false, .addPeer ⟨1, "b"⟩), (true, .addPeer ⟨1, "a"⟩), (false, .originateFrom tenKey.dest tenKey.source),
    (false, .pass [⟨true, fun _ => 0⟩, ⟨true, fun _ => 0⟩])]

/-- The mesh after these calls, all in one second. -/
def pairTold (update : Duration) : Mesh Bool :=
  pairCalls.foldl (fun w c => (system pairFar).apply w (.call c.1 c.2 second)) (pairStart update)

/-- The packet of that pass with the Updates in it. -/
def pairFlight (update : Duration) : Flight := (((pairTold update).flights false)[1]?).getD ⟨⟨0, .zero, [], []⟩, 0⟩

/-- Its arrival, at the time it was sent. -/
def pairArrival (update : Duration) : Act Bool :=
  .deliver true ⟨1, "a"⟩ (.v6 0xfe800000000000000000000000000002 "") (pairFlight update) [] second

/-- The mesh once the second has heard it. -/
def pairHeard (update : Duration) : Mesh Bool := (system pairFar).apply (pairTold update) (pairArrival update)

theorem pairStart_start {update : Duration} (hnew : ∀ i : Bool, Speaker.new { update := update } {}
    ⟨if i then 2 else 1, .v6 0xfe800000000000000000000000000001 "", 0⟩ {} (fun _ smoothed _ _ => smoothed) =
      .ok (pairSpeaker update (if i then 2 else 1))) : (pairStart update).Start :=
  ⟨fun i => ⟨_, _, _, _, _, hnew i⟩, fun _ => rfl, fun _ => rfl⟩

/-- Calls one after another are a run, under any condition they meet. -/
theorem run_calls {ι : Type} [DecidableEq ι] {far : ι → String → ι} {C : Mesh ι → Act ι → Prop} {now : Time}
    (hC : ∀ w i op, w.clock = now → C w (.call i op now)) (calls : List (ι × Op)) : ∀ w : Mesh ι, w.clock = now →
      (∀ c ∈ calls, c.2.isReceive = false ∧ ∀ sent, c.2.Allowed sent) →
      ((system far).restrict C).Run w (calls.foldl (fun w c => (system far).apply w (.call c.1 c.2 now)) w) := by
  induction calls with
  | nil => exact fun w _ _ => .refl
  | cons c rest ih =>
    intro w hclock hfree
    obtain ⟨hc, hrest⟩ := List.forall_mem_cons.mp hfree
    exact .head ⟨.call c.1 c.2 now, ⟨⟨hc.1, hc.2 _⟩, hC w c.1 c.2 hclock⟩, rfl⟩ (ih _ rfl hrest)

/-- The calls and the arrival are a run, under any condition they meet. -/
theorem pair_run {update : Duration} {C : Mesh Bool → Act Bool → Prop}
    (hflight : pairFlight update ∈ (pairTold update).flights false)
    (hC : ∀ w i op, w.clock = second → C w (.call i op second)) (harrival : C (pairTold update) (pairArrival update)) :
    ((system pairFar).restrict C).Run (pairStart update) (pairHeard update) := by
  refine .tail (run_calls hC pairCalls (pairStart update) rfl ?_) ⟨pairArrival update, ⟨⟨hflight, rfl⟩, harrival⟩, rfl⟩
  simp [pairCalls, Op.isReceive, Op.Allowed]

theorem pair_forward {w : Mesh Bool} {a : Act Bool} (hclock : w.clock = second) (ha : a.time = some second) : a.Forward w := by
  intro now hnow
  obtain rfl := Option.some.inj (ha.symm.trans hnow)
  rw [hclock]

/-- The route the second then holds, with its router id, metric and expiry. -/
def pairRoute (update : Duration) : Option (RouterID × UInt16 × Time) :=
  (((pairHeard update).node true).routes.entries.lookup tenKey).bind fun entry =>
    (entry.routes.lookup 0).map fun r => (r.routerID, r.rxMetric, r.expiresAt)

theorem pairRoute_spec {update : Duration} {id : RouterID} {metric : UInt16} {expiry : Time}
    (h : pairRoute update = some (id, metric, expiry)) :
    ∃ entry r, ((pairHeard update).node true).routes.entries.lookup tenKey = some entry ∧ entry.routes.lookup 0 = some r ∧
      r.routerID = id ∧ r.rxMetric = metric ∧ r.expiresAt = expiry := by
  obtain ⟨entry, hentry, hroute⟩ := Option.bind_eq_some_iff.mp h
  obtain ⟨r, hr, heq⟩ := Option.map_eq_some_iff.mp hroute
  rw [Prod.mk.injEq, Prod.mk.injEq] at heq
  exact ⟨entry, r, hentry, hr, heq⟩

/-- With the default interval the packet is heard in time. -/
theorem pair_timely : (pairArrival (16 * second)).Timely := by
  have hitems : packetItems (pairFlight (16 * second)).packet.payload =
      [.update (some 1) { keyUpdate tenKey 1 0 1600 with ignore := false }] := by decide +kernel
  rintro key adv interval ⟨-, u, hu, -, -, -, rfl⟩
  rw [hitems, List.mem_singleton] at hu
  obtain ⟨-, rfl⟩ := Item.update.inj hu
  decide +kernel

theorem collection_safe_pair : ∃ entry r, ((pairHeard (16 * second)).node true).routes.entries.lookup tenKey = some entry ∧
    entry.routes.lookup 0 = some r ∧ r.rxMetric ≠ metricInfinity ∧ r.expiresAt ≤ 181 * second := by
  obtain ⟨entry, r, hentry, hr, hid, hmetric, -⟩ := @pairRoute_spec (16 * second) 1 0 (57 * second) (by decide +kernel)
  have hfinite : r.rxMetric ≠ metricInfinity := by
    rw [hmetric]
    decide
  refine ⟨entry, r, hentry, hr, hfinite, ?_⟩
  exact @collection_safe Bool _ pairFar _ _ (pairStart_start fun i => by cases i <;> rfl)
    (pair_run (by decide +kernel) (fun w i op hclock => ⟨pair_forward hclock rfl, trivial⟩) ⟨pair_forward rfl rfl, pair_timely⟩)
    false _ 1 _ (by decide +kernel) (by decide +kernel) true entry 0 r hentry hr rfl hid hfinite

/-- At an update interval of ten minutes, which the configuration accepts, a packet that is heard at once leaves a route that is finite
and unexpired when the distance behind it is collected. -/
theorem collection_unsafe : ∃ (w0 w : Mesh Bool) (key : RouteKey) (now : Time), w0.Start ∧
    ((system pairFar).restrict fun w a => a.Forward w).Run w0 w ∧ w.clock ≤ now ∧
    ∃ entry r, ((w.node false).routes.sources.lookup ⟨key, r.routerID⟩).isSome = true ∧
      ((w.node false).routes.sweepSources now).sources.lookup ⟨key, r.routerID⟩ = none ∧
      (w.node true).routes.entries.lookup key = some entry ∧ entry.routes.lookup 0 = some r ∧
      pairFar true ((w.node true).heap 0).peer.id = false ∧ r.rxMetric ≠ metricInfinity ∧ now < r.expiresAt := by
  obtain ⟨entry, r, hentry, hr, hid, hmetric, hexpiry⟩ := @pairRoute_spec (600 * second) 1 0 (2101 * second) (by decide +kernel)
  refine ⟨pairStart (600 * second), pairHeard (600 * second), tenKey, 181 * second,
    pairStart_start fun i => by cases i <;> rfl,
    pair_run (by decide +kernel) (fun w i op hclock => pair_forward hclock rfl) (pair_forward rfl rfl), by decide +kernel,
    entry, r, ?_, ?_, hentry, hr, rfl, ?_, ?_⟩
  · rw [hid]
    decide +kernel
  · rw [hid]
    decide +kernel
  · rw [hmetric]
    decide
  · rw [hexpiry]
    decide +kernel

end RanetLite.Babel
