import RanetLite.Lemmas.Feasibility
import RanetLite.Theorems.Collection

/-!
# Following selected routes never loops

For a key originated under one router id, every node's feasibility distance is at least as good as whatever it told that is still under
way or held by another node. A node selects only what is strictly better than its own distance. So along selected next hops the distance
strictly improves, in every state of every run of the mesh, and no node is visited twice (`loop_free`).
-/

namespace RanetLite.Babel

open Netip SpeakerAux FeasAux

namespace Mesh

variable {ι : Type}

/-- A key is originated under one router id. -/
def Single (key : RouteKey) (id : RouterID) (w : Mesh ι) : Prop := ∀ i, key ∈ (w.node i).originate → (w.node i).cfg.routerID = id

/-- The seqnos the mesh has of a source: in source tables, in finite routes, in packets under way, and at its origin. -/
inductive Live (key : RouteKey) (id : RouterID) (w : Mesh ι) : UInt16 → Prop
  | distance {i : ι} {e : SourceEntry} (h : (w.node i).routes.sources.lookup ⟨key, id⟩ = some e) : Live key id w e.seqno
  | route {i : ι} {entry : KeyEntry} {n : NeighborRef} {r : RouteInfo} (hentry : (w.node i).routes.entries.lookup key = some entry)
      (hroute : entry.routes.lookup n = some r) (hid : r.routerID = id) (hfinite : r.rxMetric ≠ metricInfinity) : Live key id w r.seqno
  | flight {i : ι} {f : Flight} {adv : Advertisement} {interval : UInt16} (hf : f ∈ w.flights i) (hspoken : f.Says key adv interval)
      (hid : adv.routerID = id) : Live key id w adv.seqno
  | origin {i : ι} (hor : key ∈ (w.node i).originate) (hid : (w.node i).cfg.routerID = id) : Live key id w (w.node i).originSeqno

/-- What is assumed of a source in a state: one router id, and its seqnos within half the circle. -/
structure Assumed (key : RouteKey) (id : RouterID) (w : Mesh ι) : Prop where
  single : w.Single key id
  window : ∃ base, ∀ s, w.Live key id s → rank base s < 2 ^ 15

/-- Node `j` is the selected next hop of node `i`. -/
def Next (far : ι → String → ι) (key : RouteKey) (w : Mesh ι) (i j : ι) : Prop :=
  ∃ entry n, (w.node i).routes.entries.lookup key = some entry ∧ entry.selected.neighbor = some n ∧
    far i ((w.node i).heap n).peer.id = j

end Mesh

/-- An act collects no distance of a source: none is due when the act sweeps. -/
def Act.Keeps {ι : Type} (index : SourceKey) (w : Mesh ι) : Act ι → Prop
  | .call i op now => op.sweeps = true → ∀ e, (w.node i).routes.sources.lookup index = some e → now < e.gcAt
  | _ => True

namespace Mesh

variable {ι : Type}

/-- Everything told of the source that is under way or held is backed by the distance of the node that told it. -/
structure Ordered (far : ι → String → ι) (key : RouteKey) (id : RouterID) (w : Mesh ι) : Prop where
  good : w.Good
  assumed : w.Assumed key id
  flights : ∀ i, ∀ f ∈ w.flights i, ∀ adv interval, f.Says key adv interval → adv.routerID = id ∧ (w.node i).node.Backs key adv
  routes : ∀ j e n r, (w.node j).node.entries key = some e → e.routes n = some r → r.metric ≠ metricInfinity → r.routerID = id ∧
    (w.node (far j ((w.node j).node.peer n).id)).node.Backs key ⟨r.routerID, r.seqno, r.metric⟩

namespace LoopAux

variable {far : ι → String → ι} {key : RouteKey} {id : RouterID} {w w' : Mesh ι} {base : UInt16} {i : ι} {a : Act ι}

theorem ordered_start (h : w.Start) (hassumed : w.Assumed key id) : w.Ordered far key id := by
  refine ⟨MeshAux.good_start h, hassumed, fun i f hf => ?_, fun j e n r he hr hm => ?_⟩
  · rw [h.flights i] at hf
    exact absurd hf List.not_mem_nil
  · obtain ⟨cfg, routes, rt, drawn, damp, hnew⟩ := h.node j
    obtain ⟨settings, effects, howned, hrun⟩ := MeshAux.run_new hnew w.clock
    obtain ⟨e0, he0, -⟩ | ⟨adv, hold, hheard, -⟩ := hrun.finite_route he hr hm
    · exact absurd he0 (by simp [Speaker.node, Speaker.empty])
    · exact absurd (howned _ hheard) (by simp)

theorem ordered_same (h : w.Ordered far key id) (hsame : Same w w') (hgood : w'.Good) (hassumed : w'.Assumed key id) :
    w'.Ordered far key id := by
  refine ⟨hgood, hassumed, fun i f hf => ?_, fun j e n r => ?_⟩
  · rw [hsame.node]
    exact h.flights i f (hsame.flights i f hf)
  · rw [hsame.node, hsame.node]
    exact h.routes j e n r

/-- A distance of the source is a live seqno. -/
theorem rank_distance (hbase : ∀ s, w.Live key id s → rank base s < 2 ^ 15) {d : Distance}
    (hd : (w.node i).node.sources ⟨key, id⟩ = some d) : rank base d.seqno < 2 ^ 15 := by
  obtain ⟨e, he, rfl⟩ := Option.map_eq_some_iff.mp hd
  exact hbase _ (.distance he)

/-- So is the seqno of a finite route. -/
theorem rank_route (hbase : ∀ s, w.Live key id s → rank base s < 2 ^ 15) {e : NodeEntry} {n : NeighborRef} {r : Offer}
    (he : (w.node i).node.entries key = some e) (hr : e.routes n = some r) (hid : r.routerID = id) (hm : r.metric ≠ metricInfinity) :
    rank base r.seqno < 2 ^ 15 := by
  obtain ⟨entry, hentry, rfl⟩ := Option.map_eq_some_iff.mp he
  obtain ⟨route, hroute, rfl⟩ := Option.map_eq_some_iff.mp hr
  exact hbase _ (.route hentry hroute hid hm)

/-- What a node backs, its distance is at least as good as. -/
theorem held_of_backs (hbase : ∀ s, w.Live key id s → rank base s < 2 ^ 15) {adv : Advertisement} (hid : adv.routerID = id)
    (hrank : rank base adv.seqno < 2 ^ 15) (h : (w.node i).node.Backs key adv) :
    (w.node i).node.Held base key id adv.seqno adv.metric := by
  obtain ⟨d, hd, hb⟩ := h
  rw [hid] at hd
  obtain hbelow | ⟨htop, -⟩ := Distance.below_of_not_better (Nat.le_of_lt hrank) (Nat.le_of_lt (rank_distance hbase hd)) hb
  · exact ⟨d, hd, hbelow⟩
  · omega

/-- The seqnos of one node, in the window of the mesh. -/
theorem ranked_node (h : w.Ordered far key id) (hbase : ∀ s, w.Live key id s → rank base s < 2 ^ 15) (i : ι) {raises : Nat}
    (hraises : raises ≤ 1) : (w.node i).node.Ranked base key id raises where
  routes he hr hm := by
    obtain ⟨hid, -⟩ := h.routes i _ _ _ he hr hm
    exact ⟨hid, rank_route hbase he hr hid hm⟩
  distance hd := Nat.le_of_lt (rank_distance hbase hd)
  origin hor := by
    have hid := h.assumed.single i hor
    have hrank := hbase _ (.origin hor hid)
    exact ⟨hid, show rank base (w.node i).originSeqno + raises ≤ 2 ^ 15 by omega⟩

/-- No node is stuck in a state whose seqnos are in a window of their own. -/
theorem not_stuck (hassumed : w.Assumed key id) (i : ι) : ¬(w.node i).node.Stuck base key id := by
  rintro ⟨hor, htop, d, hd, hzero⟩
  obtain ⟨base', hbase'⟩ := hassumed.window
  exact rank_apart hzero htop (rank_distance hbase' hd) (hbase' _ (.origin hor (hassumed.single i hor)))

/-- What a call of node `i` leaves of its distance: as good as before, and as what it told. -/
theorem delta_held (h : w.Ordered far key id) (hkeeps : a.Keeps ⟨key, id⟩ w) {now : Time} {effects : List Node.Effect}
    (hdelta : Delta far w a w' i now effects) (hassumed : w'.Assumed key id) (hbase : ∀ s, w.Live key id s → rank base s < 2 ^ 15) :
    (∀ {d}, (w'.node i).node.sources ⟨key, id⟩ = some d → rank base d.seqno ≤ 2 ^ 15) ∧
      (∀ {s m}, (w.node i).node.Held base key id s m → (w'.node i).node.Held base key id s m) ∧
      ∀ {n adv spent}, .told n key adv spent ∈ effects → adv.metric ≠ metricInfinity →
        adv.routerID = id ∧ rank base adv.seqno ≤ 2 ^ 15 ∧ (w'.node i).node.Held base key id adv.seqno adv.metric := by
  have hkept : .collected ⟨key, id⟩ ∉ effects := by
    intro hmem
    obtain ⟨op, d, rfl, hsweeps, hd, hdue⟩ := hdelta.collected _ hmem
    obtain ⟨e, he, rfl⟩ := Option.map_eq_some_iff.mp hd
    exact absurd (hkeeps hsweeps e he) (not_lt.mpr hdue)
  by_cases hchanged : .changed ∈ effects
  · -- the owner's calls tell nothing
    have hsilent : ∀ e ∈ effects, e.isTold = false := by
      intro e he
      cases e with
      | told => exact absurd hchanged (hdelta.steady he)
      | _ => rfl
    have hsources := hdelta.run.sources_kept hsilent hkept
    refine ⟨fun hd => ?_, ?_, fun htold => absurd (hsilent _ htold) (by simp [Node.Effect.isTold])⟩
    · rw [hsources] at hd
      exact Nat.le_of_lt (rank_distance hbase hd)
    · rintro s m ⟨d, hd, hbelow⟩
      exact ⟨d, hsources.trans hd, hbelow⟩
  · have hraises : Node.raisesOf effects + 0 ≤ 1 := hdelta.raises
    have himproves := hdelta.run.ranked (h.good.sound i) (ranked_node h hbase i hraises) ⟨hchanged, hkept, fun hheard hm => by
      obtain ⟨-, peer, src, f, rs, interval, -, hf, hspoken, -⟩ := hdelta.heard hheard hm
      obtain ⟨hid, -⟩ := h.flights _ f hf _ _ hspoken
      exact ⟨hid, hbase _ (.flight hf hspoken hid)⟩⟩
    refine ⟨himproves.ranked.distance, himproves.held, fun htold hm => ?_⟩
    obtain ⟨hid, hrank, hheld⟩ := himproves.told htold hm
    exact ⟨hid, hrank, hheld.resolve_right (not_stuck hassumed i)⟩

variable [DecidableEq ι]

/-- A call of one node keeps everything told backed. -/
theorem ordered_delta (h : w.Ordered far key id) (hkeeps : a.Keeps ⟨key, id⟩ w) {now : Time} {effects : List Node.Effect}
    (hdelta : Delta far w a w' i now effects) (hgood : w'.Good) (hassumed : w'.Assumed key id) : w'.Ordered far key id := by
  obtain ⟨base, hbase⟩ := h.assumed.window
  obtain ⟨hdistance, hheld, htold⟩ := delta_held h hkeeps hdelta hassumed hbase
  have hbacks : ∀ {adv : Advertisement}, adv.routerID = id → rank base adv.seqno ≤ 2 ^ 15 →
      (w'.node i).node.Held base key id adv.seqno adv.metric → (w'.node i).node.Backs key adv := by
    rintro adv rfl hrank ⟨d, hd, hbelow⟩
    exact ⟨d, hd, hbelow.not_better hrank (hdistance hd)⟩
  -- what any node backed before the call it backs after it
  have hkept : ∀ j {adv : Advertisement}, adv.routerID = id → rank base adv.seqno < 2 ^ 15 → (w.node j).node.Backs key adv →
      (w'.node j).node.Backs key adv := by
    intro j adv hid hrank hb
    by_cases hj : j = i
    · subst hj
      exact hbacks hid (Nat.le_of_lt hrank) (hheld (held_of_backs hbase hid hrank hb))
    · rw [hdelta.nodes j hj]
      exact hb
  have hflight : ∀ j, ∀ f ∈ w.flights j, ∀ adv interval, f.Says key adv interval →
      adv.routerID = id ∧ (w'.node j).node.Backs key adv := by
    intro j f hf adv interval hspoken
    obtain ⟨hid, hb⟩ := h.flights j f hf adv interval hspoken
    exact ⟨hid, hkept j hid (hbase _ (.flight hf hspoken hid)) hb⟩
  refine ⟨hgood, hassumed, fun j f hf adv interval hspoken => ?_, fun j e n r he hr hm => ?_⟩
  · by_cases hj : j = i
    · subst hj
      obtain hf | ⟨-, hsaid⟩ := hdelta.told f hf
      · exact hflight j f hf adv interval hspoken
      · obtain ⟨n, spent, hmem⟩ := hsaid key adv interval hspoken
        obtain ⟨hid, hrank, hh⟩ := htold hmem hspoken.1
        exact ⟨hid, hbacks hid hrank hh⟩
    · rw [hdelta.flights j hj] at hf
      exact hflight j f hf adv interval hspoken
  · -- a route was held before and its sender still backs it, or it was just heard from a packet under way
    have hold : ∀ e0, (w.node j).node.entries key = some e0 → e0.routes n = some r → r.routerID = id ∧
        (w'.node (far j ((w.node j).node.peer n).id)).node.Backs key ⟨r.routerID, r.seqno, r.metric⟩ := by
      intro e0 he0 hr0
      obtain ⟨hid, hb⟩ := h.routes j e0 n r he0 hr0 hm
      exact ⟨hid, hkept _ hid (rank_route hbase he0 hr0 hid hm) hb⟩
    by_cases hj : j = i
    · subst hj
      have hsound := h.good.sound j
      obtain ⟨e0, he0, hr0⟩ | ⟨adv, hold', hheard, hfinite, hid, hseq, hmetric, -⟩ := hdelta.run.finite_route he hr hm
      · rw [hdelta.run.peer.2 n (hsound.lt_fresh (hsound.routes he0 hr0))]
        exact hold e0 he0 hr0
      · obtain ⟨hreg, peer, src, f, rs, interval, -, hf, hspoken, -⟩ := hdelta.heard hheard hfinite
        rw [hdelta.run.peer.2 n (hsound.lt_fresh hreg), hid, hseq, hmetric]
        exact hflight _ f hf adv interval hspoken
    · rw [hdelta.nodes j hj] at he ⊢
      exact hold e he hr

theorem ordered_act (h : w.Ordered far key id) (hen : (system far).enabled w a) (hkeeps : a.Keeps ⟨key, id⟩ w)
    (hassumed : ((system far).apply w a).Assumed key id) : ((system far).apply w a).Ordered far key id := by
  have hgood := MeshAux.good_of_enabled h.good hen
  obtain hsame | ⟨i, now, effects, hdelta⟩ := MeshAux.delta_of_enabled h.good hen
  · exact ordered_same h hsame hgood hassumed
  · exact ordered_delta h hkeeps hdelta hgood hassumed

omit [DecidableEq ι] in
/-- Along a selected next hop the distance strictly improves. -/
theorem next_improves (h : w.Ordered far key id) (hbase : ∀ s, w.Live key id s → rank base s < 2 ^ 15) {j : ι}
    (hnext : w.Next far key i j) : ∃ d, (w.node j).node.sources ⟨key, id⟩ = some d ∧
      ∀ d', (w.node i).node.sources ⟨key, id⟩ = some d' → d'.better d.seqno d.metric = true := by
  obtain ⟨entry, n, hentry, hsel, rfl⟩ := hnext
  have he : (w.node i).node.entries key = some entry.node := congrArg (Option.map KeyEntry.node) hentry
  obtain hnone | ⟨m, r, hm, hr, hfinite, -, -, -, -, hfeasible⟩ := (h.good.sound i).choice he
  · exact absurd (hsel.symm.trans hnone) (by simp)
  obtain rfl : m = n := Option.some.inj (hm.symm.trans hsel)
  obtain ⟨hid, hb⟩ := h.routes i entry.node m r he hr hfinite
  have hrank := rank_route hbase he hr hid hfinite
  obtain ⟨d, hd, hbelow⟩ := held_of_backs hbase hid hrank hb
  have hdrank := rank_distance hbase hd
  refine ⟨d, hd, fun d' hd' => ?_⟩
  have hd'rank := rank_distance hbase hd'
  rw [← hid] at hd'
  have hstrict := (Distance.better_iff_rank (Nat.le_of_lt hrank) (Nat.le_of_lt hd'rank)).mp (hfeasible d' hd')
  rw [Distance.better_iff_rank (Nat.le_of_lt hdrank) (Nat.le_of_lt hd'rank)]
  obtain hlt | ⟨heq, hle⟩ := hbelow
  · left
    obtain ⟨hlt', -⟩ | ⟨heq', -⟩ := hstrict
    · exact ⟨hlt'.trans hlt, by omega⟩
    · dsimp only at hlt
      rw [heq'] at hlt
      exact ⟨hlt, by omega⟩
  · dsimp only at heq hle
    rw [heq] at hstrict
    exact hstrict.imp_right fun hm => ⟨hm.1, UInt16.lt_of_le_of_lt hle hm.2⟩

omit [DecidableEq ι] in
/-- So does it along any number of them. -/
theorem nexts_improve (h : w.Ordered far key id) (hbase : ∀ s, w.Live key id s → rank base s < 2 ^ 15) {j : ι}
    (hnext : Relation.TransGen (w.Next far key) i j) : ∃ d, (w.node j).node.sources ⟨key, id⟩ = some d ∧
      ∀ d', (w.node i).node.sources ⟨key, id⟩ = some d' → d'.better d.seqno d.metric = true := by
  induction hnext with
  | single hnext => exact next_improves h hbase hnext
  | tail _ hnext ih =>
    obtain ⟨d1, hd1, hbetter1⟩ := ih
    obtain ⟨d2, hd2, hbetter2⟩ := next_improves h hbase hnext
    have hr1 := rank_distance hbase hd1
    have hr2 := rank_distance hbase hd2
    refine ⟨d2, hd2, fun d' hd' => ?_⟩
    have hr' := rank_distance hbase hd'
    have h1 := (Distance.better_iff_rank (Nat.le_of_lt hr1) (Nat.le_of_lt hr')).mp (hbetter1 d' hd')
    have h2 := (Distance.better_iff_rank (Nat.le_of_lt hr2) (Nat.le_of_lt hr1)).mp (hbetter2 d1 hd1)
    rw [Distance.better_iff_rank (Nat.le_of_lt hr2) (Nat.le_of_lt hr')]
    obtain ⟨hlt1, -⟩ | ⟨heq1, hm1⟩ := h1
    · left
      obtain ⟨hlt2, -⟩ | ⟨heq2, -⟩ := h2
      · exact ⟨hlt1.trans hlt2, by omega⟩
      · rw [heq2]
        exact ⟨hlt1, by omega⟩
    · rw [← heq1]
      exact h2.imp_right fun hm => ⟨hm.1, UInt16.lt_trans hm.2 hm1⟩

end LoopAux
end Mesh

open Mesh Mesh.LoopAux

/-- In every run of a mesh of speakers over any links, with packets lost, delayed, reordered and repeated, and peers and originations
changing, the selected next hops for a key originated under one router id visit no node twice, as long as no distance of the source is
collected and its seqnos stay within half the circle. -/
theorem loop_free {ι : Type} [DecidableEq ι] {far : ι → String → ι} {key : RouteKey} {id : RouterID} {w0 w : Mesh ι}
    (hstart : w0.Start) (hassumed : w0.Assumed key id)
    (hrun : ((system far).restrict fun w a => a.Keeps ⟨key, id⟩ w ∧ ((system far).apply w a).Assumed key id).Run w0 w) (i : ι) :
    ¬Relation.TransGen (w.Next far key) i i := by
  have hordered : w.Ordered far key id := hrun.invariant (P := fun w => w.Ordered far key id) (ordered_start hstart hassumed)
    fun w a h hen => ordered_act h hen.1 hen.2.1 hen.2.2
  intro hcycle
  obtain ⟨base, hbase⟩ := hordered.assumed.window
  obtain ⟨d, hd, hbetter⟩ := nexts_improve hordered hbase hcycle
  have hself := hbetter d hd
  rw [Node.better_self] at hself
  exact absurd hself (by simp)

/-- Every seqno a node holds, of any key and any source. -/
def Speaker.seqnos (s : Speaker) : List UInt16 :=
  s.originSeqno :: (s.routes.sources.entries.map fun e => e.2.seqno) ++
    s.routes.entries.entries.flatMap fun e => e.2.routes.entries.map fun r => r.2.seqno

/-- Every seqno in the Updates of a packet. -/
def Flight.seqnos (f : Flight) : List UInt16 :=
  (packetItems f.packet.payload).filterMap fun
    | .update _ u => some u.seqno
    | .other _ => none

/-- Two nodes announce the key under router id 1 only, and every seqno of theirs is below half the circle. -/
def pairChecks (w : Mesh Bool) : Bool :=
  [false, true].all fun i =>
    (tenKey ∉ (w.node i).originate || (w.node i).cfg.routerID = 1) &&
      ((w.node i).seqnos ++ (w.flights i).flatMap Flight.seqnos).all fun s => rank 0 s < 2 ^ 15

namespace PairAux

theorem mem_seqnos_flight {f : Flight} {key : RouteKey} {adv : Advertisement} {interval : UInt16} (h : f.Says key adv interval) :
    adv.seqno ∈ f.seqnos := by
  obtain ⟨-, u, hu, -, hseq, -⟩ := h
  exact List.mem_filterMap.mpr ⟨_, hu, congrArg some hseq⟩

theorem mem_entries {K V : Type} [DecidableEq K] {m : GoMap K V} {k : K} {v : V} (h : m.lookup k = some v) :
    (⟨k, v⟩ : Sigma fun _ : K => V) ∈ m.entries := AList.mem_lookup_iff.mp h

/-- The check is enough for what is assumed of the source. -/
theorem assumed_of_checks {w : Mesh Bool} (h : pairChecks w = true) : w.Assumed tenKey 1 := by
  have hall : ∀ i : Bool, (tenKey ∈ (w.node i).originate → (w.node i).cfg.routerID = 1) ∧
      ∀ s ∈ (w.node i).seqnos ++ (w.flights i).flatMap Flight.seqnos, rank 0 s < 2 ^ 15 := by
    intro i
    have hi := List.all_eq_true.mp h i (by cases i <;> simp)
    rw [Bool.and_eq_true, Bool.or_eq_true, decide_eq_true_iff, decide_eq_true_iff, List.all_eq_true] at hi
    exact ⟨fun hor => hi.1.resolve_left (not_not.mpr hor), fun s hs => of_decide_eq_true (hi.2 s hs)⟩
  refine ⟨fun i => (hall i).1, 0, fun s hlive => ?_⟩
  cases hlive with
  | @distance i e h =>
    refine (hall i).2 _ (List.mem_append_left _ (List.mem_append_left _ (List.mem_cons_of_mem _ ?_)))
    exact List.mem_map.mpr ⟨_, mem_entries h, rfl⟩
  | @route i entry n r hentry hroute _ _ =>
    refine (hall i).2 _ (List.mem_append_left _ (List.mem_append_right _ ?_))
    exact List.mem_flatMap.mpr ⟨_, mem_entries hentry, List.mem_map.mpr ⟨_, mem_entries hroute, rfl⟩⟩
  | @flight i f _ _ hf hspoken _ =>
    exact (hall i).2 _ (List.mem_append_right _ (List.mem_flatMap.mpr ⟨f, hf, mem_seqnos_flight hspoken⟩))
  | @origin i _ _ => exact (hall i).2 _ (List.mem_append_left _ (List.mem_append_left _ List.mem_cons_self))

end PairAux

/-- Registrations, originations, passes that find no distance due, and arrivals. -/
def Act.Plain (w : Mesh Bool) : Act Bool → Prop
  | .call i (.pass _) now => ∀ e ∈ (w.node i).routes.sources.lookup ⟨tenKey, 1⟩, now < e.gcAt
  | .call _ (.addPeer _) _ => True
  | .call _ (.originateFrom _ _) _ => True
  | .deliver i peer _ f _ _ => f ∈ w.flights (pairFar i peer.id) ∧ w.toward pairFar (pairFar i peer.id) f = i
  | _ => False

instance (w : Mesh Bool) : (a : Act Bool) → Decidable (a.Plain w)
  | .call i (.pass _) now => inferInstanceAs (Decidable (∀ e ∈ (w.node i).routes.sources.lookup ⟨tenKey, 1⟩, now < e.gcAt))
  | .call _ (.addPeer _) _ => .isTrue trivial
  | .call _ (.originateFrom _ _) _ => .isTrue trivial
  | .deliver _ _ _ _ _ _ => inferInstanceAs (Decidable (_ ∧ _))
  | .call _ (.removePeer _) _ => .isFalse id
  | .call _ (.setOriginated _) _ => .isFalse id
  | .call _ .start _ => .isFalse id
  | .call _ .sweep _ => .isFalse id
  | .call _ (.receive _ _ _ _) _ => .isFalse id
  | .call _ (.noteLost _ _) _ => .isFalse id
  | .lose _ _ => .isFalse id
  | .reorder _ _ => .isFalse id

/-- Two nodes and such acts, each checked to leave what is assumed. -/
def pairRehearsal : Moves.System (Mesh Bool) (Act Bool) where
  enabled w a := a.Plain w ∧ pairChecks ((system pairFar).apply w a) = true
  apply := (system pairFar).apply

instance (w : Mesh Bool) (a : Act Bool) : Decidable (pairRehearsal.enabled w a) := inferInstanceAs (Decidable (_ ∧ _))

theorem rehearsal_enabled {w : Mesh Bool} {a : Act Bool} (h : pairRehearsal.enabled w a) :
    ((system pairFar).restrict fun w a => a.Keeps ⟨tenKey, 1⟩ w ∧ ((system pairFar).apply w a).Assumed tenKey 1).enabled w a := by
  obtain ⟨hplain, hchecks⟩ := h
  have hassumed := PairAux.assumed_of_checks hchecks
  cases a with
  | call i op now =>
    cases op with
    | pass => exact ⟨⟨rfl, trivial⟩, fun _ e he => hplain e he, hassumed⟩
    | addPeer | originateFrom => exact ⟨⟨rfl, trivial⟩, fun h => absurd h (by simp [Op.sweeps]), hassumed⟩
    | removePeer | setOriginated | start | sweep | receive | noteLost => exact hplain.elim
  | deliver => exact ⟨hplain, trivial, hassumed⟩
  | lose | reorder => exact hplain.elim

/-- A packet of the first node's pass. -/
def pairFlightAt (k : Nat) : Flight := (((pairTold (16 * second)).flights false)[k]?).getD ⟨⟨0, .zero, [], []⟩, 0⟩

/-- They meet, the first announces, and the second hears both packets of its pass. -/
def pairHearing : List (Act Bool) :=
  (pairCalls.map fun c => .call c.1 c.2 second) ++
    [0, 1].map fun k => .deliver true ⟨1, "a"⟩ (.v6 0xfe800000000000000000000000000002 "") (pairFlightAt k) [] second

/-- In a run of two nodes the second comes to route by the first, and that is not a loop. -/
theorem loop_free_pair : ∃ w : Mesh Bool, w.Next pairFar tenKey true false ∧ ¬Relation.TransGen (w.Next pairFar tenKey) true true := by
  obtain ⟨w, hrun, hsel⟩ := @Moves.System.exists_run _ _ pairRehearsal _ pairHearing (pairStart (16 * second))
    (fun w => ((w.node true).routes.entries.lookup tenKey).map (·.selected.neighbor) = some (some 0)) _ (by decide +kernel)
  obtain ⟨entry, hentry, hsel⟩ := Option.map_eq_some_iff.mp hsel
  have hstart : (pairStart (16 * second)).Start := pairStart_start fun i => by cases i <;> rfl
  have hassumed : (pairStart (16 * second)).Assumed tenKey 1 := PairAux.assumed_of_checks (by decide +kernel)
  have hrun' : ((system pairFar).restrict fun w a => a.Keeps ⟨tenKey, 1⟩ w ∧ ((system pairFar).apply w a).Assumed tenKey 1).Run
      (pairStart (16 * second)) w := hrun.mono (by rfl) fun _ _ => rehearsal_enabled
  exact ⟨w, ⟨entry, 0, hentry, hsel, rfl⟩, loop_free hstart hassumed hrun' true⟩

end RanetLite.Babel
