import RanetLite.Node.Model

/-!
# The loop of `selectRoute`

The scan over the routes of an entry, read route by route: each route is aged and smoothed by itself (`passed`), and the candidates
are those of the routes that pass with a finite cost and are feasible (`candidate`). What is chosen is one of them.
-/

namespace RanetLite.Babel.RouteTable

variable (rt : RouteTable) (nb : NeighborHeap) (key : RouteKey) (now : Time)

/-- A route after a selection has looked at it: aged, and smoothed when its cost is finite. -/
def passed (n : NeighborRef) (r : RouteInfo) : Option RouteInfo :=
  (r.age now).map fun r =>
    let cost := r.cost (nb n) now rt.cost
    if cost = metricInfinity then r else r.smooth cost now rt.tau rt.damp

/-- The candidate a route is, when its cost is finite and it is feasible. -/
def candidate (n : NeighborRef) (r : RouteInfo) : Option Candidate :=
  (rt.passed nb now n r).bind fun r =>
    let cost := r.cost (nb n) now rt.cost
    if cost ≠ metricInfinity ∧ rt.feasible key r.advertised (nb n).peer.id = true then some ⟨n, cost, r.smoothed⟩ else none

/-- The candidates of a map of routes, in the order of a list of neighbors. -/
def candidates (routes : GoMap NeighborRef RouteInfo) (ns : List NeighborRef) : List Candidate :=
  ns.filterMap fun n => (routes.lookup n).bind (rt.candidate nb key now n)

namespace SelectAux

@[simp] theorem smooth_offer (r : RouteInfo) (cost : UInt16) (tau : Duration) (damp : Damping) :
    (r.smooth cost now tau damp).offer = r.offer := rfl

@[simp] theorem smooth_cost (r : RouteInfo) (cost : UInt16) (tau : Duration) (damp : Damping) (st : NeighborState)
    (p : CostParams) : (r.smooth cost now tau damp).cost st now p = r.cost st now p := rfl

/-- One round of the scan: the route of one neighbor passes or is flushed, and its candidate is offered. -/
theorem scanRoute_spec (selected : Option NeighborRef) (sc : Scan) (n : NeighborRef) :
    (∀ m, (rt.scanRoute nb key selected now sc n).routes.lookup m =
      if m = n then (sc.routes.lookup n).bind (rt.passed nb now n) else sc.routes.lookup m) ∧
    (rt.scanRoute nb key selected now sc n).best =
      (rt.candidates nb key now sc.routes [n]).foldl (prefer nb) sc.best ∧
    (rt.scanRoute nb key selected now sc n).incumbent =
      (rt.candidates nb key now sc.routes [n]).foldl
        (fun i c => if selected = some c.neighbor then some c else i) sc.incumbent := by
  have hlook : ∀ {m : NeighborRef} {routes : GoMap NeighborRef RouteInfo} {r : RouteInfo},
      (routes.insert n r).lookup m = if m = n then some r else routes.lookup m := by
    intro m routes r
    by_cases hm : m = n
    · rw [if_pos hm, hm, AList.lookup_insert]
    · rw [if_neg hm, AList.lookup_insert_ne hm]
  unfold scanRoute
  cases hr : sc.routes.lookup n with
  | none =>
    refine ⟨fun m => ?_, by simp [candidates, hr], by simp [candidates, hr]⟩
    by_cases hm : m = n
    · rw [if_pos hm, hm]
      exact hr
    · rw [if_neg hm]
      rfl
  | some r =>
    cases ha : r.age now with
    | none =>
      have hp : rt.passed nb now n r = none := by simp [passed, ha]
      simp only [Option.map_some, ha]
      refine ⟨fun m => ?_, by simp [candidates, hr, candidate, hp], by simp [candidates, hr, candidate, hp]⟩
      by_cases hm : m = n
      · rw [if_pos hm, hm, AList.lookup_erase, Option.bind_some, hp]
      · rw [if_neg hm, AList.lookup_erase_ne hm]
    | some r' =>
      simp only [Option.map_some, ha]
      by_cases hc : r'.cost (nb n) now rt.cost = metricInfinity
      · have hp : rt.passed nb now n r = some r' := by simp [passed, ha, hc]
        have hcand : rt.candidate nb key now n r = none := by simp [candidate, hp, hc]
        rw [if_pos hc]
        exact ⟨fun m => by rw [hlook, Option.bind_some, hp], by simp [candidates, hr, hcand], by simp [candidates, hr, hcand]⟩
      · have hp : rt.passed nb now n r = some (r'.smooth (r'.cost (nb n) now rt.cost) now rt.tau rt.damp) := by
          simp [passed, ha, hc]
        rw [if_neg hc]
        by_cases hf : rt.feasible key (r'.smooth (r'.cost (nb n) now rt.cost) now rt.tau rt.damp).advertised
            (nb n).peer.id = true
        · have hcand : rt.candidate nb key now n r = some ⟨n, r'.cost (nb n) now rt.cost,
              (r'.smooth (r'.cost (nb n) now rt.cost) now rt.tau rt.damp).smoothed⟩ := by
            simp [candidate, hp, hc, hf]
          rw [if_pos hf]
          exact ⟨fun m => by rw [Option.bind_some, hp]; exact hlook, by simp [candidates, hr, hcand, Scan.offer],
            by simp [candidates, hr, hcand, Scan.offer]⟩
        · have hcand : rt.candidate nb key now n r = none := by simp [candidate, hp, hc, hf]
          rw [if_neg hf]
          exact ⟨fun m => by rw [Option.bind_some, hp]; exact hlook, by simp [candidates, hr, hcand],
            by simp [candidates, hr, hcand]⟩

/-- The whole scan, over neighbors each visited once. -/
theorem foldl_scanRoute (selected : Option NeighborRef) {ns : List NeighborRef} (hn : ns.Nodup) : ∀ sc : Scan,
    (∀ m, (ns.foldl (rt.scanRoute nb key selected now) sc).routes.lookup m =
      if m ∈ ns then (sc.routes.lookup m).bind (rt.passed nb now m) else sc.routes.lookup m) ∧
    (ns.foldl (rt.scanRoute nb key selected now) sc).best =
      (rt.candidates nb key now sc.routes ns).foldl (prefer nb) sc.best ∧
    (ns.foldl (rt.scanRoute nb key selected now) sc).incumbent =
      (rt.candidates nb key now sc.routes ns).foldl
        (fun i c => if selected = some c.neighbor then some c else i) sc.incumbent := by
  induction ns with
  | nil => exact fun sc => ⟨fun m => by simp, rfl, rfl⟩
  | cons n rest ih =>
    intro sc
    rw [List.nodup_cons] at hn
    obtain ⟨hroutes, hbest, hinc⟩ := scanRoute_spec rt nb key now selected sc n
    obtain ⟨hroutes', hbest', hinc'⟩ := ih hn.2 (rt.scanRoute nb key selected now sc n)
    -- the rest of the scan does not see what the first round changed
    have hcands : rt.candidates nb key now (rt.scanRoute nb key selected now sc n).routes rest =
        rt.candidates nb key now sc.routes rest := by
      refine List.filterMap_congr fun m hm => ?_
      have hne : m ≠ n := fun h => hn.1 (h ▸ hm)
      rw [hroutes, if_neg hne]
    have happend : rt.candidates nb key now sc.routes (n :: rest) =
        rt.candidates nb key now sc.routes [n] ++ rt.candidates nb key now sc.routes rest := by
      rw [candidates, candidates, candidates, ← List.filterMap_append, List.singleton_append]
    rw [List.foldl_cons, hbest', hinc', hcands, hbest, hinc, happend, List.foldl_append, List.foldl_append]
    refine ⟨fun m => ?_, rfl, rfl⟩
    rw [hroutes', hroutes]
    by_cases hm : m = n
    · subst hm
      simp [hn.1]
    · simp [hm]

variable {nb}

theorem foldl_prefer_mem {l : List Candidate} : ∀ {best : Option Candidate} {c : Candidate},
    l.foldl (prefer nb) best = some c → best = some c ∨ c ∈ l := by
  induction l with
  | nil => exact fun h => .inl h
  | cons x rest ih =>
    intro best c h
    obtain h | h := ih h
    · have hx : best = some c ∨ x = c := by
        unfold prefer at h
        split at h
        · exact .inr (Option.some.inj h)
        · next b =>
          split at h
          · exact .inr (Option.some.inj h)
          · exact .inl h
      obtain hb | rfl := hx
      · exact .inl hb
      · exact .inr List.mem_cons_self
    · exact .inr (List.mem_cons_of_mem _ h)

theorem foldl_incumbent_mem {selected : Option NeighborRef} {l : List Candidate} : ∀ {i : Option Candidate} {c : Candidate},
    l.foldl (fun i c => if selected = some c.neighbor then some c else i) i = some c → i = some c ∨ c ∈ l := by
  induction l with
  | nil => exact fun h => .inl h
  | cons x rest ih =>
    intro i c h
    obtain h | h := ih h
    · dsimp only at h
      split_ifs at h
      · exact .inr (Option.some.inj h ▸ List.mem_cons_self)
      · exact .inl h
    · exact .inr (List.mem_cons_of_mem _ h)

variable {rt key now}

theorem scan_lookup (entry : KeyEntry) (m : NeighborRef) :
    (rt.scan nb key entry now).routes.lookup m = (entry.routes.lookup m).bind (rt.passed nb now m) := by
  have h := (foldl_scanRoute rt nb key now entry.selected.neighbor entry.routes.keys_nodup
    { routes := entry.routes, nextExpiryAt := rt.nextExpiryAt }).1 m
  rw [scan]
  refine h.trans ?_
  by_cases hm : m ∈ entry.routes.keys
  · rw [if_pos hm]
  · have hnone : entry.routes.lookup m = none := AList.lookup_eq_none.mpr hm
    rw [if_neg hm, hnone]
    rfl

/-- What is chosen is a candidate. -/
theorem choose_mem {entry : KeyEntry} {c : Candidate} (h : (rt.scan nb key entry now).choose = some c) :
    c ∈ rt.candidates nb key now entry.routes entry.routes.keys := by
  obtain ⟨-, hbest, hinc⟩ := foldl_scanRoute rt nb key now entry.selected.neighbor entry.routes.keys_nodup
    { routes := entry.routes, nextExpiryAt := rt.nextExpiryAt }
  have hb : ∀ {b}, (rt.scan nb key entry now).best = some b → b ∈ rt.candidates nb key now entry.routes entry.routes.keys := by
    intro b hb
    exact (foldl_prefer_mem (hbest.symm.trans hb)).resolve_left (by simp)
  have hi : ∀ {i}, (rt.scan nb key entry now).incumbent = some i →
      i ∈ rt.candidates nb key now entry.routes entry.routes.keys := by
    intro i hi
    exact (foldl_incumbent_mem (hinc.symm.trans hi)).resolve_left (by simp)
  unfold Scan.choose at h
  split at h
  · exact absurd h (by simp)
  · next b hbest' _ => exact Option.some.inj h ▸ hb hbest'
  · next b i hbest' hinc' =>
    split_ifs at h
    · exact Option.some.inj h ▸ hb hbest'
    · exact Option.some.inj h ▸ hb hbest'
    · exact Option.some.inj h ▸ hi hinc'

/-- The cost of a route is above its metric. -/
theorem lt_cost {r : RouteInfo} {st : NeighborState} {p : CostParams} (h : r.cost st now p ≠ metricInfinity) :
    r.rxMetric ≠ metricInfinity ∧ r.rxMetric < r.cost st now p := by
  rw [RouteInfo.cost, saturatingAdd] at h ⊢
  split_ifs at h ⊢ with h1 h2
  · exact absurd rfl h
  · exact absurd rfl h
  · rw [not_or] at h1
    refine ⟨h1.2, ?_⟩
    have hone : (1 : UInt16) ≤ max 1 (st.linkCost now p) := by
      show (1 : UInt16) ≤ if (1 : UInt16) ≤ st.linkCost now p then st.linkCost now p else 1
      split_ifs with hle
      · exact hle
      · exact le_refl 1
    rw [UInt16.le_iff_toNat_le, UInt16.toNat_one] at hone
    have hinf : metricInfinity.toNat = 65535 := rfl
    rw [UInt16.lt_iff_toNat_lt, UInt16.toNat_ofNat_of_lt' (by rw [UInt16.size]; omega)]
    omega

theorem passed_aged {n : NeighborRef} {r r' : RouteInfo} (h : rt.passed nb now n r = some r') :
    Node.Aged now r.offer r'.offer := by
  have hage : ∀ {a : RouteInfo}, r.age now = some a → Node.Aged now r.offer a.offer := by
    intro a ha
    unfold RouteInfo.age at ha
    split_ifs at ha with hnow hinf
    · rw [← Option.some.inj ha]
      exact ⟨⟨rfl, rfl, rfl, .inr ⟨rfl, rfl⟩⟩, fun _ => hnow⟩
    · rw [← Option.some.inj ha]
      exact ⟨⟨rfl, rfl, rfl, .inl rfl⟩, fun hne => absurd rfl hne⟩
  rw [passed, Option.map_eq_some_iff] at h
  obtain ⟨a, ha, rfl⟩ := h
  dsimp only
  split_ifs
  · exact hage ha
  · rw [smooth_offer]
    exact hage ha

/-- A candidate is a route that passes with a finite cost and is feasible. -/
theorem mem_candidates {routes : GoMap NeighborRef RouteInfo} {ns : List NeighborRef} {c : Candidate}
    (h : c ∈ rt.candidates nb key now routes ns) :
    ∃ r r', routes.lookup c.neighbor = some r ∧ rt.passed nb now c.neighbor r = some r' ∧
      r'.cost (nb c.neighbor) now rt.cost = c.cost ∧ c.cost ≠ metricInfinity ∧
      rt.feasible key r'.advertised (nb c.neighbor).peer.id = true := by
  obtain ⟨n, -, hn⟩ := List.mem_filterMap.mp h
  obtain ⟨r, hr, hc⟩ := Option.bind_eq_some_iff.mp hn
  obtain ⟨r', hr', hc'⟩ := Option.bind_eq_some_iff.mp hc
  dsimp only at hc'
  split_ifs at hc' with hcond
  rw [← Option.some.inj hc']
  exact ⟨r, r', hr, hr', rfl, hcond.1, hcond.2⟩

/-- A finite advertisement that is feasible betters the distance recorded for its origin. -/
theorem better_of_feasible {adv : Advertisement} {peer : String} (h : rt.feasible key adv peer = true)
    (hm : adv.metric ≠ metricInfinity) {e : SourceEntry} (he : rt.sources.lookup ⟨key, adv.routerID⟩ = some e) :
    e.better adv.seqno adv.metric = true := by
  rw [feasible, if_neg hm, he] at h
  exact h

/-- The parts of a table the protocol is about. -/
def SameCore (rt rt' : RouteTable) : Prop := rt'.sources = rt.sources ∧ rt'.entries = rt.entries ∧ rt'.fib = rt.fib

theorem sameCore_starveAll (entry : KeyEntry) (ns : List NeighborRef) :
    ∀ rt : RouteTable, SameCore rt (rt.starveAll key entry ns) := by
  induction ns with
  | nil => exact fun rt => ⟨rfl, rfl, rfl⟩
  | cons n rest ih => exact fun rt => ih (rt.starve key n _)

theorem storeEntry_effect (rt : RouteTable) (key : RouteKey) (entry : KeyEntry) :
    (rt.storeEntry key entry).sources = rt.sources ∧
    (rt.storeEntry key entry).entries =
      (if entry.routes.keys.isEmpty then rt.entries.erase key else rt.entries.insert key entry) ∧
    (rt.storeEntry key entry).fib = if entry.routes.keys.isEmpty then rt.fib.remove key.source key.dest else rt.fib := by
  unfold storeEntry
  split_ifs <;> exact ⟨rfl, rfl, rfl⟩

/-- What `selectRoute` writes of the tables the protocol is about. -/
theorem selectRoute_effect (rt : RouteTable) (nb : NeighborHeap) (key : RouteKey) (entry : KeyEntry) (now : Time) :
    let sc := rt.scan nb key entry now
    let scanned := { entry with routes := sc.routes }
    let selected := sc.select scanned
    let fib := if selected.neighbor ≠ entry.selected.neighbor then (rt.install nb key selected).fib else rt.fib
    (rt.selectRoute nb key entry now).sources = rt.sources ∧
    (rt.selectRoute nb key entry now).entries =
      (if sc.routes.keys.isEmpty then rt.entries.erase key else rt.entries.insert key (selectEntry scanned selected)) ∧
    (rt.selectRoute nb key entry now).fib =
      if sc.routes.keys.isEmpty then fib.remove key.source key.dest else fib := by
  intro sc scanned selected fib
  have hroutes : (selectEntry scanned selected).routes = sc.routes := by
    unfold selectEntry
    split_ifs <;> rfl
  have hpublish : ({ rt with nextExpiryAt := sc.nextExpiryAt }.publish nb key entry.selected selected).sources = rt.sources ∧
      ({ rt with nextExpiryAt := sc.nextExpiryAt }.publish nb key entry.selected selected).entries = rt.entries ∧
      ({ rt with nextExpiryAt := sc.nextExpiryAt }.publish nb key entry.selected selected).fib = fib := by
    unfold publish
    by_cases hne : selected.neighbor ≠ entry.selected.neighbor
    · simp only [fib, if_pos hne]
      split_ifs <;> exact ⟨rfl, rfl, rfl⟩
    · simp only [fib, if_neg hne]
      split_ifs <;> exact ⟨rfl, rfl, rfl⟩
  have hstarve : ∀ (rt : RouteTable) (b : Prop) [Decidable b],
      SameCore rt (if b then rt.starveAll key scanned sc.unfeasible else rt) := by
    intro rt b _
    split_ifs
    · exact sameCore_starveAll scanned sc.unfeasible rt
    · exact ⟨rfl, rfl, rfl⟩
  obtain ⟨hs, he, hf⟩ := hstarve ({ rt with nextExpiryAt := sc.nextExpiryAt }.publish nb key entry.selected selected)
    (selected.neighbor.isNone ∧ entry.selected.neighbor.isSome)
  obtain ⟨hs', he', hf'⟩ := storeEntry_effect (if selected.neighbor.isNone ∧ entry.selected.neighbor.isSome then
      ({ rt with nextExpiryAt := sc.nextExpiryAt }.publish nb key entry.selected selected).starveAll key scanned sc.unfeasible
    else { rt with nextExpiryAt := sc.nextExpiryAt }.publish nb key entry.selected selected) key (selectEntry scanned selected)
  rw [hs, hpublish.1] at hs'
  rw [he, hpublish.2.1, hroutes] at he'
  rw [hf, hpublish.2.2, hroutes] at hf'
  exact ⟨hs', he', hf'⟩

end SelectAux
end RanetLite.Babel.RouteTable
