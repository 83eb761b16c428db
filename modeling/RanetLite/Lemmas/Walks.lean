import RanetLite.Babel.TableOps
import RanetLite.Lemmas.Simulation

/-!
# What a call does to the routes of a table

A selection writes one key, and only reads the sources, the quotas and the parameters. So a walk over the entries visits each key as if
it were alone, and every call on a table says of each stored route what became of it: left alone, aged, retracted or acquired.
-/

namespace RanetLite.Babel

open RouteTable RouteTable.SelectAux SimAux

/-- What a walk over the entries only reads, or does not write. -/
structure SameRules (rt rt' : RouteTable) : Prop where
  sources : rt'.sources = rt.sources
  originsPerKey : rt'.originsPerKey = rt.originsPerKey
  originsBy : rt'.originsBy = rt.originsBy
  sourcesByPeer : rt'.sourcesByPeer = rt.sourcesByPeer
  retracted : rt'.retracted = rt.retracted
  tau : rt'.tau = rt.tau
  trigger : rt'.trigger = rt.trigger
  cost : rt'.cost = rt.cost
  damp : rt'.damp = rt.damp

namespace SameRules

variable {rt rt' rt'' : RouteTable}

/-- Every table has its own rules. -/
theorem refl (rt : RouteTable) : SameRules rt rt := ⟨rfl, rfl, rfl, rfl, rfl, rfl, rfl, rfl, rfl⟩

/-- Tables with the rules of one have the rules of each other. -/
theorem trans (h : SameRules rt rt') (h' : SameRules rt' rt'') : SameRules rt rt'' where
  sources := h'.sources.trans h.sources
  originsPerKey := h'.originsPerKey.trans h.originsPerKey
  originsBy := h'.originsBy.trans h.originsBy
  sourcesByPeer := h'.sourcesByPeer.trans h.sourcesByPeer
  retracted := h'.retracted.trans h.retracted
  tau := h'.tau.trans h.tau
  trigger := h'.trigger.trans h.trigger
  cost := h'.cost.trans h.cost
  damp := h'.damp.trans h.damp

/-- Under the same rules a route passes alike. -/
theorem passed (h : SameRules rt rt') : rt'.passed = rt.passed := by
  funext nb now n r
  simp only [RouteTable.passed, h.cost, h.tau, h.damp]

/-- Under the same rules the same is feasible. -/
theorem feasible (h : SameRules rt rt') : rt'.feasible = rt.feasible := by
  funext key adv from_
  simp only [RouteTable.feasible, h.sources, h.originsPerKey, h.sourcesByPeer, h.originsBy]

/-- Under the same rules the candidates are the same. -/
theorem candidate (h : SameRules rt rt') : rt'.candidate = rt.candidate := by
  funext nb key now n r
  simp only [RouteTable.candidate, h.passed, h.feasible, h.cost]

end SameRules

/-- What a selection of a key leaves of a table: its entry settled or flushed, the key marked if that is worth telling, and requests
for it added. -/
structure Selects (rt : RouteTable) (nb : NeighborHeap) (key : RouteKey) (entry : KeyEntry) (now : Time) (rt' : RouteTable) : Prop where
  rules : SameRules rt rt'
  entries : rt'.entries =
    let sc := rt.scan nb key entry now
    if sc.routes.keys.isEmpty then rt.entries.erase key
    else rt.entries.insert key (selectEntry { entry with routes := sc.routes } (sc.select { entry with routes := sc.routes }))
  dirty : ∀ k, k ∈ rt'.dirty ↔ k ∈ rt.dirty ∨ k = key ∧
    let sc := rt.scan nb key entry now
    (rt.significant entry.selected (sc.select { entry with routes := sc.routes }) = true ∨ sc.routes.keys.isEmpty = true)
  expiry : rt'.nextExpiryAt = (rt.scan nb key entry now).nextExpiryAt
  starved : ∃ requests : List StarveRequest, rt'.starved = rt.starved ++ requests ∧ ∀ request ∈ requests, request.key = key ∧
    request.neighbor ∈ entry.routes.keys

namespace WalkAux

variable {rt rt' : RouteTable} {nb : NeighborHeap} {key : RouteKey} {entry : KeyEntry} {now : Time}

/-- Inserting into a Go set. -/
theorem mem_insert_unit {K : Type} [DecidableEq K] (m : GoSet K) (k k' : K) : k' ∈ m.insert k () ↔ k' ∈ m ∨ k' = k := by
  rw [AList.mem_insert]
  exact or_comm

/-- Starving a key adds requests for it to neighbors of the list. -/
theorem starveAll_eq (rt : RouteTable) (key : RouteKey) (entry : KeyEntry) (ns : List NeighborRef) :
    ∃ requests : List StarveRequest, rt.starveAll key entry ns = { rt with starved := rt.starved ++ requests } ∧
      ∀ request ∈ requests, request.key = key ∧ request.neighbor ∈ ns := by
  unfold starveAll
  induction ns generalizing rt with
  | nil => exact ⟨[], by simp, by simp⟩
  | cons n rest ih =>
    obtain ⟨requests, heq, hkey⟩ := ih (rt.starve key n ((entry.routes.lookup n).getD {}).advertised)
    refine ⟨⟨key, n, ((entry.routes.lookup n).getD {}).advertised.routerID,
      rt.requestSeqno key ((entry.routes.lookup n).getD {}).advertised⟩ :: requests, ?_, ?_⟩
    · rw [List.foldl_cons, heq]
      simp [starve]
    · rintro request hrequest
      rcases List.mem_cons.1 hrequest with rfl | hrequest
      · exact ⟨rfl, List.mem_cons_self⟩
      · exact ⟨(hkey request hrequest).1, List.mem_cons_of_mem _ (hkey request hrequest).2⟩

/-- What a scan finds unfeasible is one of the neighbors it looks at. -/
theorem unfeasible_subset (selected : Option NeighborRef) (ns : List NeighborRef) : ∀ sc : Scan,
    ∀ n ∈ (ns.foldl (rt.scanRoute nb key selected now) sc).unfeasible, n ∈ sc.unfeasible ∨ n ∈ ns := by
  induction ns with
  | nil => exact fun sc n hn => .inl hn
  | cons m rest ih =>
    intro sc n hn
    have hround : ∀ n ∈ (rt.scanRoute nb key selected now sc m).unfeasible, n ∈ sc.unfeasible ∨ n = m := by
      intro n hn
      unfold scanRoute at hn
      split at hn
      · exact .inl hn
      · exact .inl hn
      · dsimp only at hn
        split_ifs at hn
        · exact .inl hn
        · exact .inl hn
        · rcases List.mem_append.1 hn with hn | hn
          · exact .inl hn
          · exact .inr (List.mem_singleton.1 hn)
    rcases ih _ n hn with hn | hn
    · rcases hround n hn with hn | rfl
      · exact .inl hn
      · exact .inr List.mem_cons_self
    · exact .inr (List.mem_cons_of_mem _ hn)

/-- Publishing writes the forwarding table, and marks the key if the change is worth telling. -/
theorem publish_eq (rt : RouteTable) (nb : NeighborHeap) (key : RouteKey) (previous selected : RouteSelection) :
    ∃ (fib : Sadr.Table FibTarget) (dirty : GoSet RouteKey), rt.publish nb key previous selected = { rt with fib := fib, dirty := dirty } ∧
      ∀ k, k ∈ dirty ↔ k ∈ rt.dirty ∨ k = key ∧ rt.significant previous selected = true := by
  have hstage : ∃ fib, (if selected.neighbor ≠ previous.neighbor then rt.install nb key selected else rt) = { rt with fib := fib } := by
    split_ifs
    · exact ⟨_, rfl⟩
    · exact ⟨rt.fib, rfl⟩
  obtain ⟨fib, hfib⟩ := hstage
  have hsame : ({ rt with fib := fib } : RouteTable).significant previous selected = rt.significant previous selected := rfl
  unfold publish
  dsimp only
  rw [hfib, hsame]
  by_cases hs : rt.significant previous selected = true
  · rw [if_pos hs]
    exact ⟨fib, rt.dirty.insert key (), rfl, fun k => by rw [mem_insert_unit]; simp [hs]⟩
  · rw [if_neg hs]
    exact ⟨fib, rt.dirty, rfl, fun k => by simp [hs]⟩

/-- Storing writes the entry, and marks the key if it is left without routes. -/
theorem storeEntry_eq (rt : RouteTable) (key : RouteKey) (entry : KeyEntry) :
    ∃ (entries : GoMap RouteKey KeyEntry) (fib : Sadr.Table FibTarget) (dirty : GoSet RouteKey),
      rt.storeEntry key entry = { rt with entries := entries, fib := fib, dirty := dirty } ∧
      ∀ k, k ∈ dirty ↔ k ∈ rt.dirty ∨ k = key ∧ entry.routes.keys.isEmpty = true := by
  unfold storeEntry
  by_cases hempty : entry.routes.keys.isEmpty = true
  · rw [if_pos hempty]
    exact ⟨_, _, rt.dirty.insert key (), rfl, fun k => by rw [mem_insert_unit]; simp [hempty]⟩
  · rw [if_neg hempty]
    exact ⟨_, rt.fib, rt.dirty, rfl, fun k => by simp [hempty]⟩

/-- Everything `selectRoute` writes, the entries as they come. -/
theorem selectRoute_record (rt : RouteTable) (nb : NeighborHeap) (key : RouteKey) (entry : KeyEntry) (now : Time) :
    ∃ (entries : GoMap RouteKey KeyEntry) (fib : Sadr.Table FibTarget) (dirty : GoSet RouteKey) (requests : List StarveRequest),
      rt.selectRoute nb key entry now =
        { rt with entries := entries, fib := fib, dirty := dirty, starved := rt.starved ++ requests
                  nextExpiryAt := (rt.scan nb key entry now).nextExpiryAt } ∧
      (∀ k, k ∈ dirty ↔ k ∈ rt.dirty ∨ k = key ∧
        let sc := rt.scan nb key entry now
        (rt.significant entry.selected (sc.select { entry with routes := sc.routes }) = true ∨ sc.routes.keys.isEmpty = true)) ∧
      ∀ request ∈ requests, request.key = key ∧ request.neighbor ∈ entry.routes.keys := by
  have hunfeasible : ∀ n ∈ (rt.scan nb key entry now).unfeasible, n ∈ entry.routes.keys :=
    fun n hn => (unfeasible_subset _ _ _ n hn).resolve_left List.not_mem_nil
  unfold selectRoute
  dsimp only
  generalize rt.scan nb key entry now = sc at hunfeasible
  generalize sc.select { entry with routes := sc.routes } = sel
  have hroutes : (selectEntry { entry with routes := sc.routes } sel).routes = sc.routes := by
    unfold selectEntry
    split_ifs <;> rfl
  obtain ⟨fib, dirty, hpublish, hdirty⟩ := publish_eq { rt with nextExpiryAt := sc.nextExpiryAt } nb key entry.selected sel
  rw [hpublish]
  -- the requests, if the key was just lost
  have hstarve : ∀ rt1 : RouteTable, ∃ requests : List StarveRequest,
      (if sel.neighbor.isNone ∧ entry.selected.neighbor.isSome then rt1.starveAll key { entry with routes := sc.routes } sc.unfeasible
        else rt1) = { rt1 with starved := rt1.starved ++ requests } ∧
      ∀ request ∈ requests, request.key = key ∧ request.neighbor ∈ entry.routes.keys := by
    intro rt1
    split_ifs
    · obtain ⟨requests, heq, hkey⟩ := starveAll_eq rt1 key { entry with routes := sc.routes } sc.unfeasible
      exact ⟨requests, heq, fun request hr => ⟨(hkey request hr).1, hunfeasible _ (hkey request hr).2⟩⟩
    · exact ⟨[], by simp, by simp⟩
  obtain ⟨requests, hrequests, hkeys⟩ := hstarve { rt with nextExpiryAt := sc.nextExpiryAt, fib := fib, dirty := dirty }
  rw [hrequests]
  obtain ⟨entries, fib', dirty', hstore, hdirty'⟩ := storeEntry_eq
    { rt with nextExpiryAt := sc.nextExpiryAt, fib := fib, dirty := dirty, starved := rt.starved ++ requests } key
    (selectEntry { entry with routes := sc.routes } sel)
  rw [hroutes] at hdirty'
  refine ⟨entries, fib', dirty', requests, hstore, fun k => ?_, hkeys⟩
  rw [hdirty', hdirty]
  constructor
  · rintro ((h | ⟨rfl, h⟩) | ⟨rfl, h⟩)
    · exact .inl h
    · exact .inr ⟨rfl, .inl h⟩
    · exact .inr ⟨rfl, .inr h⟩
  · rintro (h | ⟨rfl, h | h⟩)
    · exact .inl (.inl h)
    · exact .inl (.inr ⟨rfl, h⟩)
    · exact .inr ⟨rfl, h⟩

end WalkAux

open WalkAux

/-- `selectRoute` is a selection of its key. -/
theorem selects_selectRoute (rt : RouteTable) (nb : NeighborHeap) (key : RouteKey) (entry : KeyEntry) (now : Time) :
    Selects rt nb key entry now (rt.selectRoute nb key entry now) := by
  obtain ⟨-, hentries, -⟩ := selectRoute_effect rt nb key entry now
  obtain ⟨entries, fib, dirty, requests, hrecord, hdirty, hkeys⟩ := selectRoute_record rt nb key entry now
  refine ⟨?_, hentries, ?_, ?_, requests, ?_, hkeys⟩
  · rw [hrecord]
    exact ⟨rfl, rfl, rfl, rfl, rfl, rfl, rfl, rfl, rfl⟩
  · rw [hrecord]
    exact hdirty
  · rw [hrecord]
  · rw [hrecord]

namespace Selects

variable {rt rt' : RouteTable} {nb : NeighborHeap} {key : RouteKey} {entry : KeyEntry} {now : Time} {k : RouteKey}

/-- Other keys are left alone. -/
theorem lookup_other (h : Selects rt nb key entry now rt') (hk : k ≠ key) : rt'.entries.lookup k = rt.entries.lookup k := by
  rw [h.entries]
  dsimp only
  split_ifs
  · exact AList.lookup_erase_ne hk
  · exact AList.lookup_insert_ne hk

/-- Other keys keep their mark. -/
theorem dirty_other (h : Selects rt nb key entry now rt') (hk : k ≠ key) : k ∈ rt'.dirty ↔ k ∈ rt.dirty :=
  (h.dirty k).trans (or_iff_left fun hc => hk hc.1)

/-- The routes of other keys are left alone. -/
theorem route_other (h : Selects rt nb key entry now rt') (hk : k ≠ key) (n : NeighborRef) : rt'.route n k = rt.route n k := by
  rw [route, route, h.lookup_other hk]

/-- A route of the key passes the selection or is flushed. -/
theorem route_self (h : Selects rt nb key entry now rt') (n : NeighborRef) :
    rt'.route n key = (entry.routes.lookup n).bind (rt.passed nb now n) := by
  have hlook := @scan_lookup rt nb key now entry n
  rw [route, h.entries]
  dsimp only
  by_cases hempty : (rt.scan nb key entry now).routes.keys.isEmpty = true
  · rw [if_pos hempty, AList.lookup_erase, ← hlook, (isEmpty_keys_iff _).1 hempty n]
    rfl
  · rw [if_neg hempty, AList.lookup_insert, Option.bind_some, ← hlook]
    unfold selectEntry
    split_ifs <;> rfl

end Selects

namespace WalkAux

variable {rt rt' : RouteTable} {nb : NeighborHeap} {key : RouteKey} {entry : KeyEntry} {now : Time}

/-- The selection made of an entry. -/
def selection (rt : RouteTable) (nb : NeighborHeap) (key : RouteKey) (entry : KeyEntry) (now : Time) : RouteSelection :=
  (rt.scan nb key entry now).select { entry with routes := (rt.scan nb key entry now).routes }

/-- Whether an entry is left without a route. -/
def flushed (rt : RouteTable) (nb : NeighborHeap) (key : RouteKey) (entry : KeyEntry) (now : Time) : Bool :=
  (rt.scan nb key entry now).routes.keys.isEmpty

/-- When a selection marks its key. -/
theorem dirty_selects (h : Selects rt nb key entry now rt') :
    key ∈ rt'.dirty ↔ key ∈ rt.dirty ∨ rt.significant entry.selected (selection rt nb key entry now) = true ∨
      flushed rt nb key entry now = true :=
  (h.dirty key).trans (or_congr_right (and_iff_right rfl))

/-- What a selection leaves as the choice of its key. -/
theorem selected_selects (h : Selects rt nb key entry now rt') :
    (rt'.entries.lookup key).map (·.selected) =
      if flushed rt nb key entry now then none else some (selection rt nb key entry now) := by
  rw [h.entries]
  unfold flushed
  by_cases hempty : (rt.scan nb key entry now).routes.keys.isEmpty = true
  · rw [if_pos hempty, if_pos hempty, AList.lookup_erase]
    rfl
  · rw [if_neg hempty, if_neg hempty, AList.lookup_insert]
    unfold selectEntry
    split_ifs <;> rfl

end WalkAux

/-! ## What aging and acquiring leave of one route -/

namespace WalkAux

variable {r r' : RouteInfo} {now : Time}

/-- The fields of an offer. -/
theorem offer_inj (h : r'.offer = r.offer) : r'.rxMetric = r.rxMetric ∧ r'.hold = r.hold ∧ r'.expiresAt = r.expiresAt := by
  simp only [RouteInfo.offer, Offer.mk.injEq] at h
  exact ⟨h.2.2.1, h.2.2.2.1, h.2.2.2.2⟩

/-- What aging leaves of a route. -/
theorem age_cases (h : r.age now = some r') :
    (now < r.expiresAt ∧ r' = r) ∨
    (r.expiresAt ≤ now ∧ r.rxMetric ≠ metricInfinity ∧ r' = { r with rxMetric := metricInfinity, expiresAt := now + r.hold }) := by
  unfold RouteInfo.age at h
  split_ifs at h with hnow hinf
  · exact .inl ⟨hnow, (Option.some.inj h).symm⟩
  · exact .inr ⟨not_lt.1 hnow, hinf, (Option.some.inj h).symm⟩

/-- A route that aging flushes had expired at infinity. -/
theorem age_eq_none (h : r.age now = none) : r.expiresAt ≤ now ∧ r.rxMetric = metricInfinity := by
  unfold RouteInfo.age at h
  split_ifs at h with hnow hinf
  exact ⟨not_lt.1 hnow, hinf⟩

/-- A route with the offer of another there is. -/
theorem some_of_map_eq {o : Option RouteInfo} (h : (some r').map RouteInfo.offer = o.map RouteInfo.offer) :
    ∃ r, o = some r ∧ r'.offer = r.offer := by
  obtain ⟨r, hr, heq⟩ := Option.map_eq_some_iff.1 h.symm
  exact ⟨r, hr, heq.symm⟩

/-- An acquired route has the metric of its Update. -/
theorem acquired_rxMetric (r : RouteInfo) (adv : Advertisement) (hold : Duration) (now : Time) :
    (RouteTable.acquired r adv hold now).rxMetric = adv.metric := by
  unfold RouteTable.acquired
  dsimp only
  split_ifs <;> rfl

/-- Only a finite Update sets the hold. -/
theorem acquired_hold (r : RouteInfo) (adv : Advertisement) (hold : Duration) (now : Time) :
    (RouteTable.acquired r adv hold now).hold = if adv.metric ≠ metricInfinity then hold else r.hold := by
  unfold RouteTable.acquired
  dsimp only
  split_ifs <;> rfl

/-- The route an explicit retraction stores. -/
theorem acquired_retraction (r : RouteInfo) {adv : Advertisement} (hold : Duration) (now : Time) (hadv : adv.metric = metricInfinity) :
    (RouteTable.acquired r adv hold now).rxMetric = metricInfinity ∧ (RouteTable.acquired r adv hold now).hold = r.hold ∧
    (RouteTable.acquired r adv hold now).expiresAt =
      if r.rxMetric ≠ metricInfinity ∧ 0 < r.hold then now + r.hold else r.expiresAt := by
  unfold RouteTable.acquired
  dsimp only
  rw [if_neg (not_not.2 hadv)]
  simp only [hadv, true_and]
  split_ifs <;> exact ⟨rfl, rfl, rfl⟩

/-- A route at infinity is not retracted again. -/
theorem retractedRoute_expiresAt (hmetric : r.rxMetric = metricInfinity) :
    (RouteTable.retractedRoute r now).expiresAt = r.expiresAt :=
  if_neg fun hc => hc.1 hmetric

end WalkAux

/-! ## Walks over the entries -/

/-- A visit of a walk: it writes at most the entry and the mark of its key, and reads the rest. -/
structure Visit (rt : RouteTable) (key : RouteKey) (rt' : RouteTable) : Prop where
  rules : SameRules rt rt'
  other : ∀ k, k ≠ key → rt'.entries.lookup k = rt.entries.lookup k
  marks : ∀ k, k ≠ key → (k ∈ rt'.dirty ↔ k ∈ rt.dirty)

/-- A visit that writes nothing. -/
theorem Visit.refl (rt : RouteTable) (key : RouteKey) : Visit rt key rt := ⟨.refl rt, fun _ _ => rfl, fun _ _ => Iff.rfl⟩

/-- A selection visits its key. -/
theorem visit_selectRoute (rt : RouteTable) (nb : NeighborHeap) (key : RouteKey) (entry : KeyEntry) (now : Time) :
    Visit rt key (rt.selectRoute nb key entry now) :=
  have h := selects_selectRoute rt nb key entry now
  ⟨h.rules, fun _ => h.lookup_other, fun _ => h.dirty_other⟩

/-- Each call of a walk is a visit. -/
def Visits (f : RouteTable → RouteKey → RouteTable) : Prop := ∀ rt key, Visit rt key (f rt key)

namespace WalkAux

variable {f : RouteTable → RouteKey → RouteTable} {keys : List RouteKey} {k : RouteKey}

/-- A walk keeps the rules. -/
theorem rules_foldl (hf : Visits f) (keys : List RouteKey) (rt : RouteTable) : SameRules rt (keys.foldl f rt) := by
  induction keys generalizing rt with
  | nil => exact .refl rt
  | cons key keys ih => exact (hf rt key).rules.trans (ih (f rt key))

/-- A walk leaves the keys it does not visit. -/
theorem lookup_foldl_of_not_mem (hf : Visits f) (hk : k ∉ keys) (rt : RouteTable) :
    (keys.foldl f rt).entries.lookup k = rt.entries.lookup k := by
  induction keys generalizing rt with
  | nil => rfl
  | cons key keys ih =>
    rw [List.mem_cons, not_or] at hk
    rw [List.foldl_cons, ih hk.2, (hf rt key).other k hk.1]

/-- A walk does not mark the keys it does not visit. -/
theorem dirty_foldl_of_not_mem (hf : Visits f) (hk : k ∉ keys) (rt : RouteTable) : k ∈ (keys.foldl f rt).dirty ↔ k ∈ rt.dirty := by
  induction keys generalizing rt with
  | nil => exact Iff.rfl
  | cons key keys ih =>
    rw [List.mem_cons, not_or] at hk
    rw [List.foldl_cons, ih hk.2, (hf rt key).marks k hk.1]

/-- Each key of a walk is visited once, with its entry, its mark and the rules as they were at the start. -/
theorem lookup_foldl (hf : Visits f) (hnodup : keys.Nodup) (hk : k ∈ keys) (rt : RouteTable) :
    ∃ rt', SameRules rt rt' ∧ rt'.entries.lookup k = rt.entries.lookup k ∧
      (keys.foldl f rt).entries.lookup k = (f rt' k).entries.lookup k ∧
      (k ∈ rt'.dirty ↔ k ∈ rt.dirty) ∧ (k ∈ (keys.foldl f rt).dirty ↔ k ∈ (f rt' k).dirty) := by
  induction keys generalizing rt with
  | nil => exact absurd hk List.not_mem_nil
  | cons key keys ih =>
    rw [List.nodup_cons] at hnodup
    rcases List.mem_cons.1 hk with rfl | hmem
    · exact ⟨rt, .refl rt, rfl, lookup_foldl_of_not_mem hf hnodup.1 (f rt k), Iff.rfl, dirty_foldl_of_not_mem hf hnodup.1 (f rt k)⟩
    · have hne : k ≠ key := fun h => hnodup.1 (h ▸ hmem)
      obtain ⟨rt', hrules, hsame, hvisit, hmark, hmarked⟩ := ih hnodup.2 hmem (f rt key)
      exact ⟨rt', (hf rt key).rules.trans hrules, hsame.trans ((hf rt key).other k hne), hvisit, hmark.trans ((hf rt key).marks k hne),
        hmarked⟩

variable (nb : NeighborHeap) (n : NeighborRef) (now : Time)

/-- Selecting again visits the key. -/
theorem visits_reselect : Visits (reselect nb now) := by
  intro rt key
  unfold reselect
  split
  · exact .refl rt key
  · exact visit_selectRoute ..

/-- So does selecting again where a neighbor has a route. -/
theorem visits_recompute :
    Visits (fun rt key => if (rt.route n key).isSome then rt.reselect nb now key else rt) := by
  intro rt key
  dsimp only
  split_ifs
  · exact visits_reselect nb now rt key
  · exact .refl rt key

/-- So does dropping the route of a neighbor. -/
theorem visits_expireRoute : Visits (expireRoute nb n now) := by
  intro rt key
  unfold expireRoute
  split
  · exact .refl rt key
  · split_ifs
    · exact visit_selectRoute ..
    · exact .refl rt key

/-- So does retracting it. -/
theorem visits_retractRoute : Visits (retractRoute nb n now) := by
  intro rt key
  unfold retractRoute
  split
  · exact .refl rt key
  · split
    · exact .refl rt key
    · exact visit_selectRoute ..

/-! ## The fate of a stored route -/

variable {nb n now} {rt : RouteTable} {key : RouteKey}

/-- A route that passes keeps what aging leaves of its offer. -/
theorem offer_passed (m : NeighborRef) (r : RouteInfo) : (rt.passed nb now m r).map RouteInfo.offer = (r.age now).map RouteInfo.offer := by
  unfold passed
  rw [Option.map_map]
  refine congrArg (fun f => (r.age now).map f) (funext fun r' => ?_)
  simp only [Function.comp_apply]
  split_ifs <;> rfl

/-- So does a route there may be. -/
theorem offer_bind_passed (m : NeighborRef) (r : Option RouteInfo) :
    (r.bind (rt.passed nb now m)).map RouteInfo.offer = (r.bind (·.age now)).map RouteInfo.offer := by
  cases r with
  | none => rfl
  | some r => exact offer_passed m r

/-- A selection of an entry ages each route it holds. -/
theorem offer_selectRoute (entry : KeyEntry) (m : NeighborRef) :
    ((rt.selectRoute nb key entry now).route m key).map RouteInfo.offer =
      ((entry.routes.lookup m).bind (·.age now)).map RouteInfo.offer := by
  rw [(selects_selectRoute rt nb key entry now).route_self m]
  exact offer_bind_passed m _

/-- The routes of a key are those of its entry. -/
theorem route_of_entry {entry : KeyEntry} (h : rt.entries.lookup key = some entry) (m : NeighborRef) :
    rt.route m key = entry.routes.lookup m := by
  rw [route, h]
  rfl

/-- A key without an entry has no routes. -/
theorem route_of_none (h : rt.entries.lookup key = none) (m : NeighborRef) : rt.route m key = none := by
  rw [route, h]
  rfl

/-- Selecting a key again ages its routes. -/
theorem offer_reselect (m : NeighborRef) :
    ((rt.reselect nb now key).route m key).map RouteInfo.offer = ((rt.route m key).bind (·.age now)).map RouteInfo.offer := by
  unfold reselect
  cases h : rt.entries.lookup key with
  | none => simp [route_of_none h]
  | some entry => rw [route_of_entry h]; exact offer_selectRoute entry m

/-- The routes of a key depend on its entry alone. -/
theorem route_congr {rt' : RouteTable} (h : rt'.entries.lookup key = rt.entries.lookup key) (m : NeighborRef) :
    rt'.route m key = rt.route m key := by
  rw [route, route, h]

/-- A walk over the whole table, read at one key. -/
theorem walk_at (hf : Visits f) (rt0 rt : RouteTable) (hsame : rt.entries = rt0.entries) (key : RouteKey) :
    ((rt0.entries.keys.foldl f rt).entries.lookup key = none ∧ rt.entries.lookup key = none ∧
      (key ∈ (rt0.entries.keys.foldl f rt).dirty ↔ key ∈ rt.dirty)) ∨
    ∃ rt', SameRules rt rt' ∧ rt'.entries.lookup key = rt.entries.lookup key ∧
      (rt0.entries.keys.foldl f rt).entries.lookup key = (f rt' key).entries.lookup key ∧
      (key ∈ rt'.dirty ↔ key ∈ rt.dirty) ∧ (key ∈ (rt0.entries.keys.foldl f rt).dirty ↔ key ∈ (f rt' key).dirty) := by
  by_cases hk : key ∈ rt0.entries.keys
  · exact .inr (lookup_foldl hf rt0.entries.keys_nodup hk rt)
  · have hnone : rt.entries.lookup key = none := by rw [hsame]; exact AList.lookup_eq_none.2 hk
    exact .inl ⟨(lookup_foldl_of_not_mem hf hk rt).trans hnone, hnone, dirty_foldl_of_not_mem hf hk rt⟩

/-- A write to the sources and their quotas alone. -/
def OnlySources (rt rt' : RouteTable) : Prop :=
  rt' = { rt with sources := rt'.sources, originsPerKey := rt'.originsPerKey, originsBy := rt'.originsBy
                  sourcesByPeer := rt'.sourcesByPeer }

/-- The sweep of the sources writes them alone. -/
theorem sources_sweepSources (rt : RouteTable) (now : Time) : OnlySources rt (rt.sweepSources now) := by
  have hstep : ∀ rt index, OnlySources rt (sweepSource now rt index) := by
    intro rt index
    unfold sweepSource
    split
    · exact rfl
    · split_ifs <;> exact rfl
  unfold sweepSources
  generalize rt.sources.keys = keys
  induction keys generalizing rt with
  | nil => exact rfl
  | cons index keys ih =>
    have hrest := ih (sweepSource now rt index)
    unfold OnlySources at hrest hstep ⊢
    rw [List.foldl_cons, hrest, hstep]

/-- So does recording a distance. -/
theorem sources_observe (rt : RouteTable) (k : RouteKey) (adv : Advertisement) (from_ : String) (now : Time) :
    OnlySources rt (rt.observe k adv from_ now) := by
  unfold observe
  split_ifs
  · exact rfl
  · dsimp only
    split
    · exact rfl
    · split_ifs <;> exact rfl

/-- A sweep ages every route. -/
theorem offer_sweepExpired (m : NeighborRef) :
    ((rt.sweepExpired nb now).route m key).map RouteInfo.offer = ((rt.route m key).bind (·.age now)).map RouteInfo.offer := by
  have hroute : (rt.sweepExpired nb now).route m key =
      (rt.entries.keys.foldl (reselect nb now) { rt with nextExpiryAt := 0 }).route m key := by
    unfold sweepExpired
    rw [sources_sweepSources]
    rfl
  rw [hroute]
  rcases walk_at (visits_reselect nb now) rt { rt with nextExpiryAt := 0 } rfl key with ⟨hwalk, hnone, -⟩ | ⟨rt', hrules, hsame, hwalk, -⟩
  · have hnone' : rt.entries.lookup key = none := hnone
    rw [route_of_none hwalk, route_of_none hnone']
    rfl
  · rw [route_congr hwalk, offer_reselect, route_congr hsame]
    rfl

/-- The keys of a neighbor's routes are aged. -/
theorem offer_recomputeNeighbor (m n : NeighborRef) :
    ((rt.recomputeNeighbor nb n now).route m key).map RouteInfo.offer =
      if (rt.route n key).isSome then ((rt.route m key).bind (·.age now)).map RouteInfo.offer
      else (rt.route m key).map RouteInfo.offer := by
  unfold recomputeNeighbor
  rcases walk_at (visits_recompute nb n now) rt rt rfl key with ⟨hwalk, hnone, -⟩ | ⟨rt', hrules, hsame, hwalk, -⟩
  · rw [route_of_none hwalk, route_of_none hnone, route_of_none hnone]
    rfl
  · rw [route_congr hwalk, ← route_congr hsame n, ← route_congr hsame m]
    split_ifs
    · exact offer_reselect m
    · rfl

/-- The routes of an expired neighbor go, and those beside them are aged. -/
theorem offer_expireNeighbor (m n : NeighborRef) :
    ((rt.expireNeighbor nb n now).route m key).map RouteInfo.offer =
      if m = n then none
      else if (rt.route n key).isSome then ((rt.route m key).bind (·.age now)).map RouteInfo.offer
      else (rt.route m key).map RouteInfo.offer := by
  unfold expireNeighbor
  rcases walk_at (visits_expireRoute nb n now) rt (rt.forgetRetraction n) rfl key with ⟨hwalk, hnone, -⟩ | ⟨rt', hrules, hsame, hwalk, -⟩
  · have hnone' : rt.entries.lookup key = none := hnone
    rw [route_of_none hwalk, route_of_none hnone', route_of_none hnone']
    split_ifs <;> rfl
  · have hsame' : rt'.entries.lookup key = rt.entries.lookup key := hsame
    rw [route_congr hwalk, ← route_congr hsame' n, ← route_congr hsame' m]
    unfold expireRoute
    cases hentry : rt'.entries.lookup key with
    | none =>
      rw [route_of_none hentry, route_of_none hentry]
      split_ifs <;> rfl
    | some entry =>
      dsimp only
      rw [route_of_entry hentry n]
      by_cases hn : n ∈ entry.routes
      · rw [if_pos hn, if_pos (AList.lookup_isSome.2 hn), offer_selectRoute]
        by_cases hmn : m = n
        · subst hmn
          rw [if_pos rfl, AList.lookup_erase]
          rfl
        · rw [if_neg hmn, AList.lookup_erase_ne hmn, route_of_entry hentry m]
      · rw [if_neg hn, if_neg (mt AList.lookup_isSome.1 hn)]
        by_cases hmn : m = n
        · subst hmn
          rw [if_pos rfl, route_of_entry hentry, AList.lookup_eq_none.2 hn]
          rfl
        · rw [if_neg hmn]

/-- The routes of a retracted neighbor are retracted, and those beside them are aged. -/
theorem offer_retractNeighbor (m n : NeighborRef) :
    ((rt.retractNeighbor nb n now).route m key).map RouteInfo.offer =
      if n ∈ rt.retracted ∨ (rt.route n key).isNone then (rt.route m key).map RouteInfo.offer
      else if m = n then ((rt.route n key).bind fun r => (retractedRoute r now).age now).map RouteInfo.offer
      else ((rt.route m key).bind (·.age now)).map RouteInfo.offer := by
  unfold retractNeighbor
  by_cases hmemo : n ∈ rt.retracted
  · rw [if_pos hmemo, if_pos (.inl hmemo)]
  rw [if_neg hmemo]
  rcases walk_at (visits_retractRoute nb n now) rt { rt with retracted := rt.retracted.insert n () } rfl key with
    ⟨hwalk, hnone, -⟩ | ⟨rt', hrules, hsame, hwalk, -⟩
  · have hnone' : rt.entries.lookup key = none := hnone
    rw [route_of_none hwalk, route_of_none hnone', route_of_none hnone', if_pos (.inr rfl)]
  · have hsame' : rt'.entries.lookup key = rt.entries.lookup key := hsame
    rw [route_congr hwalk, ← route_congr hsame' n, ← route_congr hsame' m]
    unfold retractRoute
    cases hentry : rt'.entries.lookup key with
    | none => rw [route_of_none hentry, route_of_none hentry, if_pos (.inr rfl)]
    | some entry =>
      dsimp only
      rw [route_of_entry hentry n]
      cases hroute : entry.routes.lookup n with
      | none => rw [if_pos (.inr rfl)]
      | some route =>
        dsimp only
        rw [if_neg (by simp [hmemo]), offer_selectRoute]
        by_cases hmn : m = n
        · subst hmn
          rw [if_pos rfl, AList.lookup_insert]
          rfl
        · rw [if_neg hmn, AList.lookup_insert_ne hmn, route_of_entry hentry m]

end WalkAux

/-- What a call makes of the route a table holds of a neighbor for a key. -/
inductive Fate (now : Time) (n : NeighborRef) (key : RouteKey) : TableOp → Option RouteInfo → Option RouteInfo → Prop
  | untouched {op : TableOp} {r r' : Option RouteInfo} (hop : op ≠ .sweepExpired)
      (hown : ∀ adv hold, op = .update n key adv hold → r = none) (h : r'.map RouteInfo.offer = r.map RouteInfo.offer) :
      Fate now n key op r r'
  | aged {op : TableOp} {r r' : Option RouteInfo} (hown : ∀ adv hold, op ≠ .update n key adv hold) (hop : op ≠ .retractNeighbor n)
      (h : r'.map RouteInfo.offer = (r.bind (·.age now)).map RouteInfo.offer) : Fate now n key op r r'
  | retracted {r r' : Option RouteInfo}
      (h : r'.map RouteInfo.offer = (r.bind fun r => (retractedRoute r now).age now).map RouteInfo.offer) :
      Fate now n key (.retractNeighbor n) r r'
  | acquired {adv : Advertisement} {hold : Duration} {r r' : Option RouteInfo}
      (hcreates : r = none → adv.metric ≠ metricInfinity ∧ 0 < hold)
      (h : r'.map RouteInfo.offer = ((RouteTable.acquired (r.getD {}) adv hold now).age now).map RouteInfo.offer) :
      Fate now n key (.update n key adv hold) r r'
  | dropped {op : TableOp} {r : Option RouteInfo} (hop : op = .expireNeighbor n ∨ op = .adopt key) : Fate now n key op r none

namespace WalkAux

variable {nb : NeighborHeap} {n : NeighborRef} {now : Time} {rt : RouteTable} {key : RouteKey}

/-- An acquired route, those beside it and those of other keys. -/
theorem offer_acquire {rt0 : RouteTable} {m : NeighborRef} {k : RouteKey} {entry : KeyEntry} (route : RouteInfo) (adv : Advertisement)
    (hold : Duration) (hentry : k = key → ∀ m', entry.routes.lookup m' = rt0.route m' key)
    (hother : k ≠ key → rt.route n key = rt0.route n key) :
    ((rt.acquire nb m k entry route adv hold now).route n key).map RouteInfo.offer =
      if k ≠ key then (rt0.route n key).map RouteInfo.offer
      else if n = m then ((acquired route adv hold now).age now).map RouteInfo.offer
      else ((rt0.route n key).bind (·.age now)).map RouteInfo.offer := by
  unfold acquire
  dsimp only
  have hstarve : ∃ starved, (if !rt.feasible k adv (nb m).peer.id && entry.selected.neighbor = some m then rt.starve k m adv else rt) =
      { rt with starved := starved } := by
    split_ifs
    · exact ⟨_, rfl⟩
    · exact ⟨rt.starved, rfl⟩
  obtain ⟨starved, hstarved⟩ := hstarve
  rw [hstarved]
  by_cases hk : k = key
  · subst hk
    rw [if_neg (not_not.2 rfl), offer_selectRoute]
    by_cases hn : n = m
    · subst hn
      rw [if_pos rfl, AList.lookup_insert]
      rfl
    · rw [if_neg hn, AList.lookup_insert_ne hn, hentry rfl n]
  · rw [if_pos hk, (selects_selectRoute _ _ _ _ _).route_other (Ne.symm hk) n, ← hother hk]
    rfl

/-- What an Update leaves of each route. -/
theorem fate_update (m : NeighborRef) (k : RouteKey) (adv : Advertisement) (hold : Duration) :
    Fate now n key (.update m k adv hold) (rt.route n key) ((rt.update nb m k adv hold now).route n key) := by
  have hforget : ∃ retracted, (if adv.metric ≠ metricInfinity then rt.forgetRetraction m else rt) = { rt with retracted := retracted } := by
    split_ifs
    · exact ⟨_, rfl⟩
    · exact ⟨rt.retracted, rfl⟩
  obtain ⟨retracted, hretracted⟩ := hforget
  unfold update
  dsimp only
  rw [hretracted]
  generalize hrt1 : ({ rt with retracted := retracted } : RouteTable) = rt1
  have hentries : rt1.entries = rt.entries := by rw [← hrt1]
  have hroute : ∀ m' key', rt1.route m' key' = rt.route m' key' := by
    intro m' key'
    rw [route, route, hentries]
  -- whichever entry is written, the route is acquired, aged beside it, or of another key
  have hcases : ∀ (entry : KeyEntry) (route : RouteInfo), (k = key → ∀ m', entry.routes.lookup m' = rt.route m' key) →
      (k = key → n = m → route = (rt.route n key).getD {}) →
      (k = key → n = m → rt.route n key = none → adv.metric ≠ metricInfinity ∧ 0 < hold) →
      Fate now n key (.update m k adv hold) (rt.route n key) ((rt1.acquire nb m k entry route adv hold now).route n key) := by
    intro entry route hentry hr hcreates
    have hoffer := @offer_acquire nb n now rt1 key rt m k entry route adv hold hentry fun _ => hroute n key
    by_cases hk : k = key
    · rw [if_neg (not_not.2 hk)] at hoffer
      by_cases hn : n = m
      · rw [if_pos hn] at hoffer
        obtain rfl := hr hk hn
        subst hk hn
        exact .acquired (hcreates rfl rfl) hoffer
      · rw [if_neg hn] at hoffer
        exact .aged (fun _ _ h => hn (TableOp.update.inj h).1.symm) (by simp) hoffer
    · rw [if_pos hk] at hoffer
      exact .untouched (by simp) (fun _ _ h => absurd (TableOp.update.inj h).2.1 hk) hoffer
  have hnothing : (k = key → n = m → rt.route n key = none) →
      Fate now n key (.update m k adv hold) (rt.route n key) (rt1.route n key) := by
    intro hnone
    refine .untouched (by simp) (fun _ _ h => ?_) (by rw [hroute])
    obtain ⟨rfl, rfl, -⟩ := TableOp.update.inj h
    exact hnone rfl rfl
  rw [hentries]
  cases hentry : rt.entries.lookup k with
  | none =>
    dsimp only
    split_ifs with hcreates
    · simp only [Bool.and_eq_true, decide_eq_true_eq] at hcreates
      obtain ⟨⟨⟨-, hmetric⟩, hhold⟩, -⟩ := hcreates
      refine hcases {} {} ?_ ?_ ?_
      · rintro rfl m'
        rw [route_of_none hentry]
        rfl
      · rintro rfl -
        rw [route_of_none hentry]
        rfl
      · exact fun _ _ _ => ⟨hmetric, hhold⟩
    · exact hnothing fun hk _ => route_of_none (hk ▸ hentry) n
  | some entry =>
    dsimp only
    cases hlook : entry.routes.lookup m with
    | none =>
      dsimp only
      split_ifs with hcreates
      · simp only [Bool.and_eq_true, decide_eq_true_eq] at hcreates
        obtain ⟨⟨-, hmetric⟩, hhold⟩ := hcreates
        refine hcases entry {} ?_ ?_ ?_
        · rintro rfl m'
          rw [route_of_entry hentry]
        · rintro rfl rfl
          rw [route_of_entry hentry, hlook]
          rfl
        · exact fun _ _ _ => ⟨hmetric, hhold⟩
      · refine hnothing ?_
        rintro rfl rfl
        rw [route_of_entry hentry, hlook]
    | some route =>
      refine hcases entry route ?_ ?_ ?_
      · rintro rfl m'
        rw [route_of_entry hentry]
      · rintro rfl rfl
        rw [route_of_entry hentry, hlook]
        rfl
      · rintro rfl rfl hnone
        rw [route_of_entry hentry, hlook] at hnone
        cases hnone

end WalkAux

/-- Every call leaves each stored route to one of these fates. -/
theorem fate_apply (rt : RouteTable) (nb : NeighborHeap) (now : Time) (op : TableOp) (n : NeighborRef) (key : RouteKey) :
    Fate now n key op (rt.route n key) ((rt.apply nb now op).route n key) := by
  cases op with
  | update m k adv hold => exact fate_update m k adv hold
  | retractNeighbor m =>
    have h := @offer_retractNeighbor nb now rt key n m
    by_cases hskip : m ∈ rt.retracted ∨ (rt.route m key).isNone = true
    · rw [if_pos hskip] at h
      exact .untouched (by simp) (by simp) h
    · rw [if_neg hskip] at h
      by_cases hn : n = m
      · subst hn
        rw [if_pos rfl] at h
        exact .retracted h
      · rw [if_neg hn] at h
        exact .aged (by simp) (fun hop => hn (TableOp.retractNeighbor.inj hop).symm) h
  | recomputeNeighbor m =>
    have h := @offer_recomputeNeighbor nb now rt key n m
    by_cases hm : (rt.route m key).isSome = true
    · rw [if_pos hm] at h
      exact .aged (by simp) (by simp) h
    · rw [if_neg hm] at h
      exact .untouched (by simp) (by simp) h
  | expireNeighbor m =>
    have h := @offer_expireNeighbor nb now rt key n m
    by_cases hn : n = m
    · subst hn
      rw [if_pos rfl] at h
      rw [show (rt.apply nb now (.expireNeighbor n)).route n key = none from Option.map_eq_none_iff.1 h]
      exact .dropped (.inl rfl)
    · rw [if_neg hn] at h
      by_cases hm : (rt.route m key).isSome = true
      · rw [if_pos hm] at h
        exact .aged (by simp) (by simp) h
      · rw [if_neg hm] at h
        exact .untouched (by simp) (by simp) h
  | sweepExpired => exact .aged (by simp) (by simp) (offer_sweepExpired n)
  | observe k adv from_ =>
    refine .untouched (by simp) (by simp) ?_
    rw [apply, sources_observe]
    rfl
  | markDirty k => exact .untouched (by simp) (by simp) rfl
  | takeDirty => exact .untouched (by simp) (by simp) rfl
  | takeStarved => exact .untouched (by simp) (by simp) rfl
  | adopt k =>
    by_cases hk : key = k
    · subst hk
      rw [show (rt.apply nb now (.adopt key)).route n key = none from route_of_none (AList.lookup_erase ..) n]
      exact .dropped (.inr rfl)
    · exact .untouched (by simp) (by simp) (by rw [apply, adopt, route_congr (AList.lookup_erase_ne hk) n])
  | release k => exact .untouched (by simp) (by simp) rfl

end RanetLite.Babel
