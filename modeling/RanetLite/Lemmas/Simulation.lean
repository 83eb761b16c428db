import RanetLite.Lemmas.Selection

/-!
# The route table simulates the node

Every function of the route table is a run of the abstract node: a selection settles a key, an update learns a route, a retraction or
an expiry weakens one, and a sweep of the source table collects distances.
-/

namespace RanetLite.Babel

open RouteTable SelectAux

namespace SimAux

variable {K V W : Type} [DecidableEq K]

/-- Lookups after an insertion. -/
theorem lookup_insert_map (m : GoMap K V) (k : K) (x : V) (f : V → W) :
    (fun k' => ((m.insert k x).lookup k').map f) = Function.update (fun k' => (m.lookup k').map f) k (some (f x)) := by
  funext k'
  by_cases h : k' = k
  · subst h
    rw [AList.lookup_insert, Function.update_self]
    rfl
  · rw [AList.lookup_insert_ne h, Function.update_of_ne h]

/-- Lookups after a removal. -/
theorem lookup_erase_map (m : GoMap K V) (k : K) (f : V → W) :
    (fun k' => ((m.erase k).lookup k').map f) = Function.update (fun k' => (m.lookup k').map f) k none := by
  funext k'
  by_cases h : k' = k
  · subst h
    rw [AList.lookup_erase, Function.update_self]
    rfl
  · rw [AList.lookup_erase_ne h, Function.update_of_ne h]

/-- A map without keys has nothing. -/
theorem isEmpty_keys_iff (m : GoMap K V) : m.keys.isEmpty = true ↔ ∀ k, m.lookup k = none := by
  rw [List.isEmpty_iff]
  constructor
  · intro h k
    exact AList.lookup_eq_none.mpr fun hk => by
      rw [AList.mem_keys, h] at hk
      exact absurd hk (by simp)
  · intro h
    rw [List.eq_nil_iff_forall_not_mem]
    exact fun k hk => AList.lookup_eq_none.mp (h k) (AList.mem_keys.mpr hk)

/-- The entry a selection leaves, as the node has it. -/
theorem selectEntry_node (e : KeyEntry) (sel : RouteSelection) :
    (selectEntry e sel).node = ⟨e.node.routes, sel, e.onceSelected || sel.neighbor.isSome⟩ := by
  unfold selectEntry
  cases hs : sel.neighbor.isSome <;> simp [KeyEntry.node]

end SimAux

open SimAux

variable {s : Speaker}

/-- A table that differs only in what the protocol is not about leaves the node alone. -/
theorem Speaker.node_sameCore {rt : RouteTable} (h : SameCore s.routes rt) : ({ s with routes := rt } : Speaker).node = s.node := by
  obtain ⟨hs, he, hf⟩ := h
  simp only [Speaker.node, hs, he, hf]

/-- `selectRoute` settles the key. -/
theorem settles_selectRoute (s : Speaker) {key : RouteKey} {entry : KeyEntry} (now : Time)
    (hsel : entry.selected = (s.node.entryOf key).selected) (honce : entry.onceSelected = (s.node.entryOf key).onceSelected) :
    Node.Settles now s.node key entry.node.routes
      ({ s with routes := s.routes.selectRoute s.heap key entry now } : Speaker).node := by
  obtain ⟨hsources, hentries, hfib⟩ := selectRoute_effect s.routes s.heap key entry now
  generalize hsc : s.routes.scan s.heap key entry now = sc at hsources hentries hfib
  have hlook : ∀ n, sc.routes.lookup n = (entry.routes.lookup n).bind (s.routes.passed s.heap now n) := fun n => by
    rw [← hsc]
    exact scan_lookup entry n
  generalize hpick : sc.select { entry with routes := sc.routes } = sel at hsources hentries hfib
  have hnode : ({ s with routes := s.routes.selectRoute s.heap key entry now } : Speaker).node =
      s.node.settled key (s.node.entryOf key) (fun n => (sc.routes.lookup n).map RouteInfo.offer) sel sc.routes.keys.isEmpty := by
    have htarget : (s.routes.install s.heap key sel).fib = s.node.fib.set key.source key.dest (s.node.target sel) := rfl
    rw [Node.settled, ← hsel, ← honce, ← htarget]
    cases hempty : sc.routes.keys.isEmpty with
    | true =>
      simp only [hempty, if_true] at hentries hfib
      simp only [Speaker.node, hsources, hentries, hfib, lookup_erase_map, if_true]
    | false =>
      simp only [hempty, Bool.false_eq_true, if_false] at hentries hfib
      simp only [Speaker.node, hsources, hentries, hfib, lookup_insert_map, selectEntry_node, Bool.false_eq_true, if_false]
      rfl
  rw [hnode]
  refine .mk _ sel _ (fun n r' hr' => ?_) ?_ ?_
  · obtain ⟨r, hr, rfl⟩ := Option.map_eq_some_iff.mp hr'
    rw [hlook, Option.bind_eq_some_iff] at hr
    obtain ⟨r0, hr0, hpassed⟩ := hr
    exact ⟨r0.offer, by simp [KeyEntry.node, hr0], passed_aged hpassed⟩
  · cases hc : sc.choose with
    | none =>
      rw [Scan.select, hc] at hpick
      exact .inl (by rw [← hpick])
    | some c =>
      rw [Scan.select, hc] at hpick
      rw [← hsc] at hc
      obtain ⟨r, r', hr, hr', hcost, hfinite, hfeasible⟩ := mem_candidates (choose_mem hc)
      have hr'' : sc.routes.lookup c.neighbor = some r' := by rw [hlook, hr, Option.bind_some, hr']
      rw [← hcost] at hfinite
      obtain ⟨hmetric, hlt⟩ := lt_cost hfinite
      simp only [KeyEntry.selectionFor, hr'', Option.getD_some] at hpick
      refine .inr ⟨c.neighbor, r'.offer, by rw [← hpick], by simp [hr''], hmetric, by rw [← hpick]; rfl, by rw [← hpick]; rfl,
        by rw [← hpick, ← hcost]; exact hlt, by rw [← hpick, ← hcost]; exact hfinite, fun d hd => ?_⟩
      obtain ⟨e, he, rfl⟩ := Option.map_eq_some_iff.mp hd
      exact better_of_feasible hfeasible hmetric he
  · rw [isEmpty_keys_iff]
    simp

namespace SimAux

/-- An offer is no stronger than itself. -/
theorem weaker_refl (r : Offer) : Node.Weaker r r := ⟨rfl, rfl, rfl, .inr ⟨rfl, rfl⟩⟩

/-- The entry of a key, as the node has it. -/
theorem entryOf_some {s : Speaker} {key : RouteKey} {entry : KeyEntry} (h : s.routes.entries.lookup key = some entry) :
    s.node.entries key = some entry.node ∧ s.node.entryOf key = entry.node := by
  have hn : s.node.entries key = some entry.node := by simp [Speaker.node, h]
  exact ⟨hn, by rw [Node.entryOf, hn]; rfl⟩

/-- A route stored. -/
theorem node_routes_insert (entry : KeyEntry) (n : NeighborRef) (r : RouteInfo) :
    ({ entry with routes := entry.routes.insert n r } : KeyEntry).node.routes =
      Function.update entry.node.routes n (some r.offer) := lookup_insert_map _ _ _ _

/-- A route dropped. -/
theorem node_routes_erase (entry : KeyEntry) (n : NeighborRef) :
    ({ entry with routes := entry.routes.erase n } : KeyEntry).node.routes = Function.update entry.node.routes n none :=
  lookup_erase_map _ _ _

/-- An acquired route is learned from its Update. -/
theorem learned_acquired (route : RouteInfo) (adv : Advertisement) (hold : Duration) (now : Time) :
    Node.Learned adv hold now (acquired route adv hold now).offer := by
  unfold acquired
  dsimp only
  split_ifs with h1 h2
  · exact ⟨rfl, rfl, rfl, fun _ => ⟨rfl, rfl⟩⟩
  · exact ⟨rfl, rfl, rfl, fun h => absurd h h1⟩
  · exact ⟨rfl, rfl, rfl, fun h => absurd h h1⟩

variable {s : Speaker} {now : Time} {n : NeighborRef} {key : RouteKey} {adv : Advertisement} {hold : Duration}

/-- `acquire` learns a route. -/
theorem step_acquire {rt : RouteTable} (hcore : SameCore s.routes rt) (hreg : s.node.Registered n) (hkey : key.Canonical)
    (hlocal : key ∉ s.originate) (hid : adv.metric ≠ metricInfinity → adv.routerID ≠ s.cfg.routerID) {entry : KeyEntry}
    (hentry : s.node.entryOf key = entry.node) (route : RouteInfo) :
    Node.Step now s.node (some (.heard n key adv hold))
      ({ s with routes := rt.acquire s.heap n key entry route adv hold now } : Speaker).node := by
  unfold acquire
  generalize hrt : (if !rt.feasible key adv (s.heap n).peer.id && entry.selected.neighbor = some n then
    rt.starve key n adv else rt) = rt'
  have hcore' : SameCore s.routes rt' := by
    rw [← hrt]
    split_ifs <;> exact hcore
  have hnode := Speaker.node_sameCore hcore'
  refine .learn hreg hkey hlocal hid (learned_acquired route adv hold now) ?_
  have hsettles := @settles_selectRoute { s with routes := rt' } key
    { entry with routes := entry.routes.insert n (acquired route adv hold now) } now
    (by rw [hnode, hentry]; rfl) (by rw [hnode, hentry]; rfl)
  rw [hnode, node_routes_insert, ← hentry] at hsettles
  exact hsettles

end SimAux

/-- `update` learns a route, or leaves everything alone when there is no route to replace. -/
theorem step_update {n : NeighborRef} {key : RouteKey} {adv : Advertisement} (hreg : s.node.Registered n) (hkey : key.Canonical)
    (hlocal : key ∉ s.originate) (hid : adv.metric ≠ metricInfinity → adv.routerID ≠ s.cfg.routerID) (hold : Duration) (now : Time) :
    ({ s with routes := s.routes.update s.heap n key adv hold now } : Speaker).node = s.node ∧ s.routes.route n key = none ∨
      Node.Step now s.node (some (.heard n key adv hold))
        ({ s with routes := s.routes.update s.heap n key adv hold now } : Speaker).node := by
  unfold update
  generalize hrt : (if adv.metric ≠ metricInfinity then s.routes.forgetRetraction n else s.routes) = rt
  have hcore : SameCore s.routes rt := by
    rw [← hrt]
    split_ifs <;> exact ⟨rfl, rfl, rfl⟩
  dsimp only
  rw [hcore.2.1]
  cases he : s.routes.entries.lookup key with
  | none =>
    have hfresh : s.node.entryOf key = ({} : KeyEntry).node := by
      simp only [Node.entryOf, Speaker.node, he]
      rfl
    dsimp only
    split_ifs
    · exact .inr (step_acquire hcore hreg hkey hlocal hid hfresh _)
    · exact .inl ⟨Speaker.node_sameCore hcore, by simp [RouteTable.route, he]⟩
  | some entry =>
    dsimp only
    cases hr : entry.routes.lookup n with
    | none =>
      dsimp only
      split_ifs
      · exact .inr (step_acquire hcore hreg hkey hlocal hid (entryOf_some he).2 _)
      · exact .inl ⟨Speaker.node_sameCore hcore, by simp [RouteTable.route, he, hr]⟩
    | some route => exact .inr (step_acquire hcore hreg hkey hlocal hid (entryOf_some he).2 _)

/-- Selecting a key of weaker routes again is a run. -/
theorem run_weaken {key : RouteKey} {entry entry' : KeyEntry} (now : Time) (he : s.routes.entries.lookup key = some entry)
    (hsel : entry'.selected = entry.selected) (honce : entry'.onceSelected = entry.onceSelected)
    (hweak : ∀ n r', entry'.node.routes n = some r' → ∃ r, entry.node.routes n = some r ∧ Node.Weaker r r') :
    Node.Reselects now s.node ({ s with routes := s.routes.selectRoute s.heap key entry' now } : Speaker).node := by
  obtain ⟨hentry, hof⟩ := entryOf_some he
  exact ⟨[.selected], by simp,
    .shown (.weaken hentry hweak (settles_selectRoute s now (by rw [hof, hsel]; rfl) (by rw [hof, honce]; rfl)))⟩

/-- Selecting one key again. -/
theorem run_reselect (s : Speaker) (now : Time) (key : RouteKey) :
    Node.Reselects now s.node ({ s with routes := s.routes.reselect s.heap now key } : Speaker).node := by
  unfold RouteTable.reselect
  cases he : s.routes.entries.lookup key with
  | none => exact .refl _
  | some entry => exact run_weaken now he rfl rfl fun n r hr => ⟨r, hr, weaker_refl r⟩

/-- Dropping one route of a neighbor. -/
theorem run_expireRoute (s : Speaker) (n : NeighborRef) (now : Time) (key : RouteKey) :
    Node.Reselects now s.node ({ s with routes := expireRoute s.heap n now s.routes key } : Speaker).node := by
  unfold RouteTable.expireRoute
  cases he : s.routes.entries.lookup key with
  | none => exact .refl _
  | some entry =>
    dsimp only
    split_ifs
    · refine run_weaken now he rfl rfl fun m r hr => ?_
      rw [node_routes_erase] at hr
      by_cases hm : m = n
      · rw [hm, Function.update_self] at hr
        exact absurd hr (by simp)
      · rw [Function.update_of_ne hm] at hr
        exact ⟨r, hr, weaker_refl r⟩
    · exact .refl _

/-- The key a neighbor was expired from holds no route of it. -/
theorem absent_expireRoute (s : Speaker) (n : NeighborRef) (now : Time) (key : RouteKey) :
    ({ s with routes := expireRoute s.heap n now s.routes key } : Speaker).node.Absent n key := by
  unfold RouteTable.expireRoute
  cases he : s.routes.entries.lookup key with
  | none =>
    intro e hsome
    simp only [Speaker.node, he] at hsome
    exact absurd hsome (by simp)
  | some entry =>
    obtain ⟨hentry, hof⟩ := entryOf_some he
    dsimp only
    split_ifs with hn
    · refine Node.Settles.absent (settles_selectRoute s now (by rw [hof]; rfl) (by rw [hof]; rfl)) ?_
      rw [node_routes_erase, Function.update_self]
    · intro e hsome
      rw [hentry] at hsome
      rw [← Option.some.inj hsome]
      simp only [KeyEntry.node, AList.lookup_eq_none.mpr hn]
      rfl

/-- Retracting one route of a neighbor. -/
theorem run_retractRoute (s : Speaker) (n : NeighborRef) (now : Time) (key : RouteKey) :
    Node.Reselects now s.node ({ s with routes := retractRoute s.heap n now s.routes key } : Speaker).node := by
  unfold RouteTable.retractRoute
  cases he : s.routes.entries.lookup key with
  | none => exact .refl _
  | some entry =>
    cases hr : entry.routes.lookup n with
    | none =>
      dsimp only
      rw [hr]
      exact .refl _
    | some route =>
      dsimp only
      rw [hr]
      refine run_weaken now he rfl rfl fun m r' hr' => ?_
      rw [node_routes_insert] at hr'
      by_cases hm : m = n
      · rw [hm, Function.update_self] at hr'
        refine ⟨route.offer, by simp [hm, KeyEntry.node, hr], ?_⟩
        rw [← Option.some.inj hr']
        exact ⟨rfl, rfl, rfl, .inl rfl⟩
      · rw [Function.update_of_ne hm] at hr'
        exact ⟨r', hr', weaker_refl r'⟩

/-- Sweeping one source entry collects it when it is due, and adds no distance. -/
theorem run_sweepSource (s : Speaker) (now : Time) (index : SourceKey) :
    ∃ effects, Node.Run now s.node effects ({ s with routes := sweepSource now s.routes index } : Speaker).node ∧
      s.node.Collects now effects ∧
      ∀ i d, ({ s with routes := sweepSource now s.routes index } : Speaker).node.sources i = some d →
        s.node.sources i = some d := by
  unfold RouteTable.sweepSource
  cases he : s.routes.sources.lookup index with
  | none => exact ⟨[], .refl _, by simp [Node.Collects], fun _ _ h => h⟩
  | some entry =>
    dsimp only
    split_ifs with hgc
    · exact ⟨[], .refl _, by simp [Node.Collects], fun _ _ h => h⟩
    · have hd : s.node.sources index = some entry.distance := by simp [Speaker.node, he]
      have hsources := lookup_erase_map s.routes.sources index SourceEntry.distance
      have hnode : s.node.sources = fun index => (s.routes.sources.lookup index).map SourceEntry.distance := rfl
      have hrun : Node.Run now s.node _ { s.node with sources := Function.update s.node.sources index none } :=
        .single (.collect hd (not_lt.mp hgc))
      have hmono : ∀ i d, Function.update s.node.sources index none i = some d → s.node.sources i = some d := by
        intro i d hi
        by_cases hne : i = index
        · rw [hne, Function.update_self] at hi
          exact absurd hi (by simp)
        · rwa [Function.update_of_ne hne] at hi
      rw [hnode, ← hsources] at hrun hmono
      refine ⟨_, hrun, fun e hmem => .inr ⟨index, entry.distance, ?_, hd, not_lt.mp hgc⟩, hmono⟩
      simpa using hmem

/-- A fold of runs is a run. -/
theorem run_foldl {α : Type} {f : Speaker → α → Speaker} {now : Time} (h : ∀ s x, Node.Reselects now s.node (f s x).node)
    (xs : List α) : ∀ s : Speaker, Node.Reselects now s.node (xs.foldl f s).node := by
  induction xs with
  | nil => exact fun s => .refl _
  | cons x rest ih => exact fun s => (h s x).trans (ih (f s x))

/-- A loop over the table is a loop over the speaker. -/
theorem foldl_routes {α : Type} (f : NeighborHeap → RouteTable → α → RouteTable) (xs : List α) : ∀ s : Speaker,
    ({ s with routes := xs.foldl (f s.heap) s.routes } : Speaker) =
      xs.foldl (fun s x => { s with routes := f s.heap s.routes x }) s := by
  induction xs with
  | nil => exact fun s => rfl
  | cons x rest ih => exact fun s => ih { s with routes := f s.heap s.routes x }

/-- A fold over the route table is a run when each round is. -/
theorem run_foldl_routes {α : Type} {f : NeighborHeap → RouteTable → α → RouteTable} {now : Time}
    (h : ∀ (s : Speaker) x, Node.Reselects now s.node ({ s with routes := f s.heap s.routes x } : Speaker).node) (xs : List α)
    (s : Speaker) : Node.Reselects now s.node ({ s with routes := xs.foldl (f s.heap) s.routes } : Speaker).node := by
  rw [foldl_routes]
  exact run_foldl h xs s

/-- Selecting the keys of a neighbor again. -/
theorem run_recomputeNeighbor (s : Speaker) (n : NeighborRef) (now : Time) :
    Node.Reselects now s.node ({ s with routes := s.routes.recomputeNeighbor s.heap n now } : Speaker).node := by
  refine run_foldl_routes (f := fun nb rt key => if (rt.route n key).isSome then rt.reselect nb now key else rt)
    (fun s key => ?_) _ s
  split_ifs
  · exact run_reselect s now key
  · exact .refl _

/-- Retracting the routes of a neighbor. -/
theorem run_retractNeighbor (s : Speaker) (n : NeighborRef) (now : Time) :
    Node.Reselects now s.node ({ s with routes := s.routes.retractNeighbor s.heap n now } : Speaker).node := by
  unfold RouteTable.retractNeighbor
  split_ifs
  · exact .refl _
  · exact run_foldl_routes (f := fun nb rt key => retractRoute nb n now rt key) (fun s key => run_retractRoute s n now key) _
      { s with routes := { s.routes with retracted := s.routes.retracted.insert n () } }

/-- The sweep of the sources collects those that are due. -/
theorem run_sweepSources (s : Speaker) (now : Time) :
    ∃ effects, Node.Run now s.node effects ({ s with routes := s.routes.sweepSources now } : Speaker).node ∧
      s.node.Collects now effects := by
  have hfold : ∀ (indexes : List SourceKey) (t : Speaker), (∀ i d, t.node.sources i = some d → s.node.sources i = some d) →
      ∃ effects, Node.Run now t.node effects
        (indexes.foldl (fun t index => { t with routes := sweepSource now t.routes index }) t).node ∧
        s.node.Collects now effects := by
    intro indexes
    induction indexes with
    | nil => exact fun t _ => ⟨[], .refl _, by simp [Node.Collects]⟩
    | cons index rest ih =>
      intro t ht
      obtain ⟨first, hfirst, hcollects, hmono⟩ := run_sweepSource t now index
      obtain ⟨later, hlater, hcollects'⟩ := ih _ fun i d hd => ht i d (hmono i d hd)
      refine ⟨first ++ later, hfirst.trans hlater, List.forall_mem_append.mpr ⟨fun e he => ?_, hcollects'⟩⟩
      obtain hsel | ⟨i, d, rfl, hd, hgc⟩ := hcollects e he
      · exact .inl hsel
      · exact .inr ⟨i, d, rfl, ht i d hd, hgc⟩
  have heq := foldl_routes (fun _ rt index => sweepSource now rt index) s.routes.sources.keys s
  rw [RouteTable.sweepSources, heq]
  exact hfold _ s fun _ _ h => h

/-- A reselection leaves the source table alone. -/
theorem sources_reselect (rt : RouteTable) (nb : NeighborHeap) (now : Time) (key : RouteKey) :
    (rt.reselect nb now key).sources = rt.sources := by
  unfold RouteTable.reselect
  cases rt.entries.lookup key with
  | none => rfl
  | some entry => exact (selectRoute_effect rt nb key entry now).1

/-- A sweep of the table selects every key again, and collects the distances that are due. -/
theorem run_sweepTable (s : Speaker) (now : Time) :
    ∃ effects, Node.Run now s.node effects ({ s with routes := s.routes.sweepExpired s.heap now } : Speaker).node ∧
      s.node.Collects now effects := by
  obtain ⟨chosen, hchosen, hselect⟩ := run_foldl_routes (f := fun nb rt key => rt.reselect nb now key)
    (fun s key => run_reselect s now key) s.routes.entries.keys { s with routes := { s.routes with nextExpiryAt := 0 } }
  have hsources : ∀ (ks : List RouteKey) (rt : RouteTable),
      (ks.foldl (fun rt key => rt.reselect s.heap now key) rt).sources = rt.sources := by
    intro ks
    induction ks with
    | nil => exact fun _ => rfl
    | cons k rest ih => exact fun rt => (ih _).trans (sources_reselect rt s.heap now k)
  obtain ⟨effects, hrun, hcollects⟩ := run_sweepSources { s with
    routes := s.routes.entries.keys.foldl (fun rt key => rt.reselect s.heap now key) { s.routes with nextExpiryAt := 0 } } now
  refine ⟨chosen ++ effects, hselect.trans hrun, List.forall_mem_append.mpr ⟨fun e he => .inl (hchosen e he), fun e he => ?_⟩⟩
  obtain hsel | ⟨index, d, rfl, hd, hgc⟩ := hcollects e he
  · exact .inl hsel
  · refine .inr ⟨index, d, rfl, ?_, hgc⟩
    simpa only [Speaker.node, hsources] using hd

/-- Expiring a neighbor is a run that leaves no route of it. -/
theorem run_expireNeighbor (s : Speaker) (n : NeighborRef) (now : Time) :
    Node.Reselects now s.node ({ s with routes := s.routes.expireNeighbor s.heap n now } : Speaker).node ∧
      ∀ key e, ({ s with routes := s.routes.expireNeighbor s.heap n now } : Speaker).node.entries key = some e →
        e.routes n = none := by
  have hfold : ∀ (ks : List RouteKey) (s : Speaker),
      Node.Reselects now s.node (ks.foldl (fun s key => { s with routes := expireRoute s.heap n now s.routes key }) s).node ∧
      ∀ key, key ∈ ks ∨ s.node.Absent n key →
        (ks.foldl (fun s key => { s with routes := expireRoute s.heap n now s.routes key }) s).node.Absent n key := by
    intro ks
    induction ks with
    | nil => exact fun s => ⟨.refl _, fun key h => h.resolve_left (by simp)⟩
    | cons k rest ih =>
      intro s
      obtain ⟨hrun, habs⟩ := ih { s with routes := expireRoute s.heap n now s.routes k }
      have hfirst := run_expireRoute s n now k
      refine ⟨hfirst.trans hrun, fun key h => habs key ?_⟩
      by_cases hk : key = k
      · right
        rw [hk]
        exact absent_expireRoute s n now k
      · obtain h | h := h
        · exact .inl ((List.mem_cons.mp h).resolve_left hk)
        · exact .inr (hfirst.absent h)
  obtain ⟨hrun, habs⟩ := hfold s.routes.entries.keys { s with routes := s.routes.forgetRetraction n }
  rw [RouteTable.expireNeighbor]
  have heq := foldl_routes (fun nb rt key => expireRoute nb n now rt key) s.routes.entries.keys
    { s with routes := s.routes.forgetRetraction n }
  dsimp only at heq
  rw [heq]
  refine ⟨hrun, fun key => habs key ?_⟩
  by_cases hk : key ∈ s.routes.entries.keys
  · exact .inl hk
  · right
    intro e he
    have hnone : s.routes.entries.lookup key = none := AList.lookup_eq_none.mpr hk
    simp only [Speaker.node, RouteTable.forgetRetraction, hnone] at he
    exact absurd he (by simp)

end RanetLite.Babel
