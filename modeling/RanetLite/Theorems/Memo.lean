import RanetLite.Lemmas.Walks
import RanetLite.Lemmas.Writes
import RanetLite.Theorems.Choice
import RanetLite.Theorems.Retraction

/-!
# The memo of wildcard retractions

`retractNeighbor` remembers that it walked the table for a neighbor, and does not walk it again until the neighbor advertises a finite
metric. A marked neighbor has no finite route, so the walk it is spared would write none; it would still run the selection again for
the keys that hold one, and that has no effect only as long as nothing the selection reads has changed, the time included.
-/

namespace RanetLite.Babel

open RouteTable RouteTable.SelectAux WalkAux WriteAux ChoiceAux SpeakerAux

/-- The walk of `retractNeighbor`, made whether the neighbor is marked or not. -/
def RouteTable.walkRetraction (rt : RouteTable) (nb : NeighborHeap) (n : NeighborRef) (now : Time) : RouteTable :=
  rt.entries.keys.foldl (retractRoute nb n now) { rt with retracted := rt.retracted.insert n () }

/-- Two tables that hold the same routes and the same selection of a key, and have it marked alike. -/
structure RouteTable.AgreesAt (key : RouteKey) (rt rt' : RouteTable) : Prop where
  routes : ∀ n, rt.route n key = rt'.route n key
  selected : (rt.entries.lookup key).map (·.selected) = (rt'.entries.lookup key).map (·.selected)
  dirty : key ∈ rt.dirty ↔ key ∈ rt'.dirty

/-- Two tables that agree at every key. -/
def RouteTable.Agrees (rt rt' : RouteTable) : Prop := ∀ key, rt.AgreesAt key rt'

/-- Every route of a marked neighbor is at infinity. -/
def RouteTable.Memo (rt : RouteTable) : Prop :=
  ∀ n ∈ rt.retracted, ∀ key r, rt.route n key = some r → r.rxMetric = metricInfinity

/-- Every stored route has a hold. -/
def RouteTable.Held (rt : RouteTable) : Prop := ∀ n key r, rt.route n key = some r → 0 < r.hold

namespace MemoAux

variable {r r' : RouteInfo} {s : Speaker}

/-- A route the selection keeps has its expiry ahead of it. -/
theorem age_later {now : Time} (hhold : 0 < r.hold) (h : r.age now = some r') : r'.hold = r.hold ∧ now < r'.expiresAt := by
  unfold RouteInfo.age at h
  split_ifs at h with hlater hinf
  · obtain rfl := Option.some.inj h
    exact ⟨rfl, hlater⟩
  · obtain rfl := Option.some.inj h
    exact ⟨rfl, lt_add_of_pos_right now hhold⟩

variable {rt rt' : RouteTable} {nb : NeighborHeap} {now : Time} {n : NeighborRef} {key : RouteKey}

/-! ### Marks -/

/-- A finite Update takes the mark of its neighbor away. -/
theorem update_retracted (rt : RouteTable) (nb : NeighborHeap) (m : NeighborRef) (key : RouteKey) (adv : Advertisement) (hold : Duration)
    (now : Time) : (rt.update nb m key adv hold now).retracted =
      if adv.metric ≠ metricInfinity then rt.retracted.erase m else rt.retracted := by
  have hacquire : ∀ (rt : RouteTable) (entry : KeyEntry) (route : RouteInfo),
      (rt.acquire nb m key entry route adv hold now).retracted = rt.retracted := by
    intro rt entry route
    unfold RouteTable.acquire
    dsimp only
    rw [(selects_selectRoute _ _ _ _ _).rules.retracted]
    split_ifs <;> rfl
  have hforget : (if adv.metric ≠ metricInfinity then rt.forgetRetraction m else rt).retracted =
      if adv.metric ≠ metricInfinity then rt.retracted.erase m else rt.retracted := by
    split_ifs <;> rfl
  unfold RouteTable.update
  rw [← hforget]
  generalize (if adv.metric ≠ metricInfinity then rt.forgetRetraction m else rt) = rt1
  dsimp only
  split
  · split_ifs
    · exact hacquire rt1 {} {}
    · rfl
  · split
    · split_ifs
      · exact hacquire rt1 _ {}
      · rfl
    · exact hacquire rt1 _ _

/-- A call leaves a mark only on a neighbor it retracts, or on a marked one it hears nothing finite of. -/
theorem retracted_apply {op : TableOp} (h : n ∈ (rt.apply nb now op).retracted) :
    op = .retractNeighbor n ∨ n ∈ rt.retracted ∧ ∀ key adv hold, op = .update n key adv hold → adv.metric = metricInfinity := by
  cases op with
  | update m key adv hold =>
    have hmem : n ∈ (rt.update nb m key adv hold now).retracted := h
    rw [update_retracted] at hmem
    refine .inr ?_
    split_ifs at hmem with hfinite
    · obtain ⟨hne, hold'⟩ := AList.mem_erase.1 hmem
      refine ⟨hold', fun key' adv' hold'' heq => ?_⟩
      exact absurd (TableOp.update.inj heq).1.symm hne
    · refine ⟨hmem, fun key' adv' hold'' heq => ?_⟩
      rw [← (TableOp.update.inj heq).2.2.1]
      exact not_not.1 hfinite
  | retractNeighbor m =>
    have hmem : n ∈ (rt.retractNeighbor nb m now).retracted := h
    unfold RouteTable.retractNeighbor at hmem
    split_ifs at hmem
    · exact .inr ⟨hmem, fun _ _ _ heq => nomatch heq⟩
    · rw [(rules_foldl (visits_retractRoute nb m now) _ _).retracted] at hmem
      rcases (AList.mem_insert _).1 hmem with rfl | hmem
      · exact .inl rfl
      · exact .inr ⟨hmem, fun _ _ _ heq => nomatch heq⟩
  | recomputeNeighbor m =>
    have hmem : n ∈ (rt.recomputeNeighbor nb m now).retracted := h
    unfold RouteTable.recomputeNeighbor at hmem
    rw [(rules_foldl (visits_recompute nb m now) _ _).retracted] at hmem
    exact .inr ⟨hmem, fun _ _ _ heq => nomatch heq⟩
  | expireNeighbor m =>
    have hmem : n ∈ (rt.expireNeighbor nb m now).retracted := h
    unfold RouteTable.expireNeighbor at hmem
    rw [(rules_foldl (visits_expireRoute nb m now) _ _).retracted] at hmem
    exact .inr ⟨(AList.mem_erase.1 hmem).2, fun _ _ _ heq => nomatch heq⟩
  | sweepExpired =>
    have hmem : n ∈ (rt.sweepExpired nb now).retracted := h
    unfold RouteTable.sweepExpired at hmem
    rw [sources_sweepSources, (rules_foldl (visits_reselect nb now) _ _).retracted] at hmem
    exact .inr ⟨hmem, fun _ _ _ heq => nomatch heq⟩
  | observe key adv from_ =>
    have hmem : n ∈ (rt.observe key adv from_ now).retracted := h
    rw [sources_observe] at hmem
    exact .inr ⟨hmem, fun _ _ _ heq => nomatch heq⟩
  | markDirty | takeDirty | takeStarved | adopt | release => exact .inr ⟨h, fun _ _ _ heq => nomatch heq⟩

/-- No call leaves a marked neighbor with a finite route. -/
theorem memo_apply (h : rt.Memo) (op : TableOp) : (rt.apply nb now op).Memo := by
  intro n hn key r' hr'
  rcases retracted_apply hn with rfl | ⟨hmarked, hinfinite⟩
  · by_cases hmarked : n ∈ rt.retracted
    · have hsame : rt.apply nb now (.retractNeighbor n) = rt := if_pos hmarked
      rw [hsame] at hr'
      exact h n hmarked key r' hr'
    · have hoffer := @offer_retractNeighbor nb now rt key n n
      rw [show (rt.retractNeighbor nb n now).route n key = some r' from hr'] at hoffer
      cases hroute : rt.route n key with
      | none =>
        rw [hroute, if_pos (.inr rfl)] at hoffer
        cases hoffer
      | some r =>
        rw [hroute, if_neg (by simp [hmarked]), if_pos rfl] at hoffer
        obtain ⟨r1, hage, heq⟩ := some_of_map_eq hoffer
        rw [(offer_inj heq).1]
        rcases age_cases hage with ⟨-, rfl⟩ | ⟨-, -, rfl⟩ <;> rfl
  · have hfate := fate_apply rt nb now op n key
    rw [hr'] at hfate
    generalize hroute : rt.route n key = before at hfate
    cases hfate with
    | untouched _ _ heq =>
      obtain ⟨r, rfl, hoffer⟩ := some_of_map_eq heq
      rw [(offer_inj hoffer).1]
      exact h n hmarked key r hroute
    | aged _ _ heq =>
      obtain ⟨r1, hr1, hoffer⟩ := some_of_map_eq heq
      obtain ⟨r, rfl, hage⟩ := Option.bind_eq_some_iff.1 hr1
      rw [(offer_inj hoffer).1]
      rcases age_cases hage with ⟨-, rfl⟩ | ⟨-, -, rfl⟩
      · exact h n hmarked key r1 hroute
      · rfl
    | retracted heq =>
      obtain ⟨r1, hr1, hoffer⟩ := some_of_map_eq heq
      obtain ⟨r, rfl, hage⟩ := Option.bind_eq_some_iff.1 hr1
      rw [(offer_inj hoffer).1]
      rcases age_cases hage with ⟨-, rfl⟩ | ⟨-, -, rfl⟩ <;> rfl
    | @acquired adv hold _ _ _ heq =>
      obtain ⟨r1, hage, hoffer⟩ := some_of_map_eq heq
      rw [(offer_inj hoffer).1]
      rcases age_cases hage with ⟨-, rfl⟩ | ⟨-, -, rfl⟩
      · rw [acquired_rxMetric]
        exact hinfinite key adv hold rfl
      · rfl

/-- No call the speaker makes stores a route without a hold. -/
theorem held_apply {op : TableOp} (asked : op.Asked) (h : rt.Held) : (rt.apply nb now op).Held := by
  intro n key r' hr'
  have hfate := fate_apply rt nb now op n key
  rw [hr'] at hfate
  generalize hroute : rt.route n key = before at hfate
  have haged : ∀ {r r1 : RouteInfo}, r.age now = some r1 → r1.hold = r.hold := by
    intro r r1 hage
    rcases age_cases hage with ⟨-, rfl⟩ | ⟨-, -, rfl⟩ <;> rfl
  cases hfate with
  | untouched _ _ heq =>
    obtain ⟨r, rfl, hoffer⟩ := some_of_map_eq heq
    rw [(offer_inj hoffer).2.1]
    exact h n key r hroute
  | aged _ _ heq =>
    obtain ⟨r1, hr1, hoffer⟩ := some_of_map_eq heq
    obtain ⟨r, rfl, hage⟩ := Option.bind_eq_some_iff.1 hr1
    rw [(offer_inj hoffer).2.1, haged hage]
    exact h n key r hroute
  | retracted heq =>
    obtain ⟨r1, hr1, hoffer⟩ := some_of_map_eq heq
    obtain ⟨r, rfl, hage⟩ := Option.bind_eq_some_iff.1 hr1
    rw [(offer_inj hoffer).2.1, haged hage]
    exact h n key r hroute
  | @acquired adv hold _ _ hcreates heq =>
    obtain ⟨r1, hage, hoffer⟩ := some_of_map_eq heq
    rw [(offer_inj hoffer).2.1, haged hage, acquired_hold]
    split_ifs with hfinite
    · exact asked hfinite
    · cases before with
      | none => exact absurd (hcreates rfl).1 hfinite
      | some r => exact h n key r hroute

/-- No marked neighbor of a reachable speaker has a finite route. -/
theorem memo_reachable {sent : List ReservedPacket} (h : Reachable s sent) : s.routes.Memo := by
  refine h.table_invariant (fun cfg n hn => ?_) (fun _ hm => memo_apply hm _) fun same hm n hn key r hr => ?_
  · exact absurd hn (AList.notMem_empty n)
  · rw [route_reordered same] at hr
    rw [same.rest] at hn
    exact hm n hn key r hr

/-- Every finite route of a reachable speaker has a hold. -/
theorem held_reachable {sent : List ReservedPacket} (h : Reachable s sent) : s.routes.Held := by
  refine h.table_invariant (fun cfg n key r hr => ?_) (fun asked hm => held_apply asked hm) fun same hm n key r hr => ?_
  · rw [route_of_none (AList.lookup_empty key) n] at hr
    cases hr
  · rw [route_reordered same] at hr
    exact hm n key r hr

/-! ### The selection of one entry -/

/-- Two tables that judge routes alike. -/
structure Alike (rt rt' : RouteTable) : Prop where
  passed : rt'.passed = rt.passed
  candidate : rt'.candidate = rt.candidate
  significant : rt'.significant = rt.significant

/-- Tables with the same rules are alike. -/
theorem Alike.of_rules (h : SameRules rt rt') : Alike rt rt' := by
  refine ⟨h.passed, h.candidate, ?_⟩
  funext old new
  simp only [RouteTable.significant, h.trigger]

/-- The marks do not matter. -/
theorem Alike.marked (rt : RouteTable) (retracted : GoSet NeighborRef) : Alike rt { rt with retracted := retracted } := ⟨rfl, rfl, rfl⟩

/-- Being alike composes. -/
theorem Alike.trans {rt'' : RouteTable} (h : Alike rt rt') (h' : Alike rt' rt'') : Alike rt rt'' :=
  ⟨h'.passed.trans h.passed, h'.candidate.trans h.candidate, h'.significant.trans h.significant⟩

/-- A candidate chosen is usable. -/
theorem choose_usable {entry : KeyEntry} {c : Candidate} (h : (rt.scan nb key entry now).choose = some c) :
    rt.Usable nb key entry now c := mem_candidates_iff.1 (choose_mem h)

variable {entry entry' : KeyEntry}

/-- Scans that meet the same candidates and choose the same neighbor choose the same candidate. -/
theorem choose_congr (husable : rt'.Usable nb key entry' now = rt.Usable nb key entry now)
    (hchosen : rt'.chosen nb key entry' now = rt.chosen nb key entry now) :
    (rt'.scan nb key entry' now).choose = (rt.scan nb key entry now).choose := by
  rw [chosen_eq, chosen_eq] at hchosen
  cases hc : (rt.scan nb key entry now).choose with
  | none =>
    rw [hc] at hchosen
    exact Option.map_eq_none_iff.1 hchosen
  | some c =>
    rw [hc] at hchosen
    obtain ⟨c', hc', hn⟩ := Option.map_eq_some_iff.1 hchosen
    have hu := choose_usable hc'
    rw [husable] at hu
    rw [hc', usable_unique hu (choose_usable hc) hn]

/-- The same candidates give the same selection. -/
theorem selection_congr (hchoose : (rt'.scan nb key entry' now).choose = (rt.scan nb key entry now).choose)
    (hroutes : ∀ m, (rt'.scan nb key entry' now).routes.lookup m = (rt.scan nb key entry now).routes.lookup m) :
    selection rt' nb key entry' now = selection rt nb key entry now := by
  unfold selection Scan.select
  rw [hchoose]
  cases (rt.scan nb key entry now).choose with
  | none => rfl
  | some c =>
    dsimp only [KeyEntry.selectionFor]
    rw [hroutes]

/-- The same routes are left. -/
theorem flushed_congr (hroutes : ∀ m, (rt'.scan nb key entry' now).routes.lookup m = (rt.scan nb key entry now).routes.lookup m) :
    flushed rt' nb key entry' now = flushed rt nb key entry now := by
  unfold flushed
  rw [Bool.eq_iff_iff, SimAux.isEmpty_keys_iff, SimAux.isEmpty_keys_iff]
  simp only [hroutes]

/-- The neighbors of an entry are told apart by their peer ids. -/
def Apart (nb : NeighborHeap) (entry : KeyEntry) : Prop :=
  ∀ n ∈ entry.routes.keys, ∀ m ∈ entry.routes.keys, (nb n).peer.id = (nb m).peer.id → n = m

/-- An entry with no further routes. -/
theorem Apart.shrink (hids : Apart nb entry) (hroutes : ∀ m, (entry'.routes.lookup m).isSome → (entry.routes.lookup m).isSome) :
    Apart nb entry' := by
  have hkeys : ∀ m, m ∈ entry'.routes.keys → m ∈ entry.routes.keys := fun m hm =>
    AList.mem_keys.1 (AList.lookup_isSome.1 (hroutes m (AList.lookup_isSome.2 (AList.mem_keys.2 hm))))
  exact fun a ha b hb => hids a (hkeys a ha) b (hkeys b hb)

/-- The selection reads an entry's routes and next hop, and not the order of the routes. -/
theorem select_congr (halike : Alike rt rt') (hselected : entry'.selected = entry.selected)
    (hlook : ∀ m, entry'.routes.lookup m = entry.routes.lookup m) (hids : Apart nb entry) :
    selection rt' nb key entry' now = selection rt nb key entry now ∧ flushed rt' nb key entry' now = flushed rt nb key entry now := by
  have hroutes : ∀ m, (rt'.scan nb key entry' now).routes.lookup m = (rt.scan nb key entry now).routes.lookup m := by
    intro m
    rw [scan_lookup, scan_lookup, halike.passed, hlook]
  have husable : rt'.Usable nb key entry' now = rt.Usable nb key entry now := by
    funext c
    simp only [RouteTable.Usable, hlook, halike.candidate]
  have hchooses' := @chooses rt' nb key entry' now (hids.shrink fun m hm => by rwa [← hlook])
  rw [husable, hselected] at hchooses'
  have hchosen := Chooses.unique (fun c hc d hd => usable_unique hc hd) hchooses' (chooses hids)
  exact ⟨selection_congr (choose_congr husable hchosen) hroutes, flushed_congr hroutes⟩

/-- Selections of entries alike, in tables alike, agree. -/
theorem agreesAt_select {rt0 : RouteTable} (halike : Alike rt rt') (hselected : entry'.selected = entry.selected)
    (hlook : ∀ m, entry'.routes.lookup m = entry.routes.lookup m) (hids : Apart nb entry) (hdirty : key ∈ rt'.dirty ↔ key ∈ rt0.dirty)
    (halike0 : Alike rt rt0) :
    (rt'.selectRoute nb key entry' now).AgreesAt key (rt0.selectRoute nb key entry now) := by
  obtain ⟨hselection, hflushed⟩ := @select_congr rt rt' nb now key entry entry' halike hselected hlook hids
  obtain ⟨hselection0, hflushed0⟩ := @select_congr rt rt0 nb now key entry entry halike0 rfl (fun _ => rfl) hids
  have h' := selects_selectRoute rt' nb key entry' now
  have h0 := selects_selectRoute rt0 nb key entry now
  refine ⟨fun m => ?_, ?_, ?_⟩
  · rw [h'.route_self, h0.route_self, halike.passed, halike0.passed, hlook]
  · rw [selected_selects h', selected_selects h0, hselection, hflushed, hselection0, hflushed0]
  · rw [dirty_selects h', dirty_selects h0, hselection, hflushed, hselection0, hflushed0, hdirty, halike.significant,
      halike0.significant, hselected]

/-- Tables that agree on an entry and its mark. -/
theorem agreesAt_of (hlook : rt.entries.lookup key = rt'.entries.lookup key) (hdirty : key ∈ rt.dirty ↔ key ∈ rt'.dirty) :
    rt.AgreesAt key rt' := ⟨fun m => route_congr hlook m, by rw [hlook], hdirty⟩

/-- Agreement composes. -/
theorem agreesAt_trans {rt'' : RouteTable} (h : rt.AgreesAt key rt') (h' : rt'.AgreesAt key rt'') : rt.AgreesAt key rt'' :=
  ⟨fun m => (h.routes m).trans (h'.routes m), h.selected.trans h'.selected, h.dirty.trans h'.dirty⟩

/-- Agreement goes both ways. -/
theorem agreesAt_symm (h : rt.AgreesAt key rt') : rt'.AgreesAt key rt :=
  ⟨fun m => (h.routes m).symm, h.selected.symm, h.dirty.symm⟩

/-! ### The walk a marked neighbor is spared -/

/-- A route at infinity is not retracted again. -/
theorem retractedRoute_of_infinite (h : r.rxMetric = metricInfinity) : retractedRoute r now = r := by
  unfold RouteTable.retractedRoute
  rw [if_neg fun hc => hc.1 h, ← h]

/-- Storing a route again changes no lookup. -/
theorem lookup_insert_same (h : entry.routes.lookup n = some r) (m : NeighborRef) :
    (entry.routes.insert n r).lookup m = entry.routes.lookup m := by
  by_cases hm : m = n
  · rw [hm, AList.lookup_insert, h]
  · rw [AList.lookup_insert_ne hm]

/-- One key of the walk: its routes of the neighbor are at infinity already, so it is selected again or left alone. -/
theorem visit_agrees (hentry : rt.entries.lookup key = some entry) (hids : Apart nb entry)
    (hinfinite : ∀ r, entry.routes.lookup n = some r → r.rxMetric = metricInfinity) (halike : Alike rt rt')
    (hlook : rt'.entries.lookup key = rt.entries.lookup key) (hdirty : key ∈ rt'.dirty ↔ key ∈ rt.dirty) :
    (retractRoute nb n now rt' key).AgreesAt key (if (rt.route n key).isSome then rt.reselect nb now key else rt) := by
  rw [hentry] at hlook
  unfold RouteTable.retractRoute
  rw [hlook]
  dsimp only
  rw [route_of_entry hentry]
  cases hr : entry.routes.lookup n with
  | none => exact agreesAt_of (hlook.trans hentry.symm) hdirty
  | some r =>
    unfold RouteTable.reselect
    rw [hentry]
    dsimp only
    rw [Option.isSome_some, if_pos rfl, retractedRoute_of_infinite (hinfinite r hr)]
    exact agreesAt_select halike rfl (lookup_insert_same hr) hids hdirty ⟨rfl, rfl, rfl⟩

/-- The walk agrees with one that only selects again. -/
theorem walk_agrees (hinfinite : ∀ key r, rt.route n key = some r → r.rxMetric = metricInfinity)
    (hids : ∀ key entry, rt.entries.lookup key = some entry → Apart nb entry) :
    (rt.walkRetraction nb n now).Agrees (rt.recomputeNeighbor nb n now) := by
  intro key
  unfold RouteTable.walkRetraction RouteTable.recomputeNeighbor
  by_cases hk : key ∈ rt.entries.keys
  · obtain ⟨entry, hentry⟩ := Option.isSome_iff_exists.1 (AList.lookup_isSome.2 (AList.mem_keys.2 hk))
    obtain ⟨rt1, hrules1, hlook1, hwalk1, hdirty1, hmarks1⟩ := lookup_foldl (visits_retractRoute nb n now) rt.entries.keys_nodup hk
      { rt with retracted := rt.retracted.insert n () }
    obtain ⟨rt2, hrules2, hlook2, hwalk2, hdirty2, hmarks2⟩ := lookup_foldl (visits_recompute nb n now) rt.entries.keys_nodup hk rt
    have halike1 : Alike rt rt1 := (Alike.marked rt (rt.retracted.insert n ())).trans (.of_rules hrules1)
    have halike2 := Alike.of_rules hrules2
    refine agreesAt_trans (agreesAt_of hwalk1 hmarks1) (agreesAt_trans ?_ (agreesAt_symm (agreesAt_of hwalk2 hmarks2)))
    have hentry2 : rt2.entries.lookup key = some entry := hlook2.trans hentry
    refine visit_agrees hentry2 (hids key entry hentry) (fun r hr => hinfinite key r (by rw [route_of_entry hentry]; exact hr))
      ⟨?_, ?_, ?_⟩ ?_ ?_
    · rw [halike1.passed, halike2.passed]
    · rw [halike1.candidate, halike2.candidate]
    · rw [halike1.significant, halike2.significant]
    · rw [hentry2]
      exact hlook1.trans hentry
    · exact hdirty1.trans hdirty2.symm
  · refine agreesAt_of ?_ ?_
    · rw [lookup_foldl_of_not_mem (visits_retractRoute nb n now) hk, lookup_foldl_of_not_mem (visits_recompute nb n now) hk]
    · rw [dirty_foldl_of_not_mem (visits_retractRoute nb n now) hk, dirty_foldl_of_not_mem (visits_recompute nb n now) hk]

/-! ### A walk repeated at once -/

/-- Smoothing twice at one time is smoothing once. -/
theorem smooth_smooth (r : RouteInfo) (cost : UInt16) (hnow : now ≠ 0) (tau : Duration) (damp : Damping) :
    (r.smooth cost now tau damp).smooth cost now tau damp = r.smooth cost now tau damp := by
  have hge : (cost.toNat : ℚ) ≤ (r.smooth cost now tau damp).smoothed := le_max_right _ _
  have hat : (r.smooth cost now tau damp).smoothedAt = now := rfl
  have htau : tau ≤ 0 → (r.smooth cost now tau damp).smoothed = cost.toNat := by
    intro htau
    unfold RouteInfo.smooth
    dsimp only
    rw [if_pos (.inr (.inl htau)), max_self]
  generalize hr' : r.smooth cost now tau damp = r' at hge hat htau ⊢
  have hsmoothed : (if r'.smoothedAt = 0 ∨ tau ≤ 0 ∨ r'.smoothed ≤ (cost.toNat : ℚ) then (cost.toNat : ℚ)
      else if 0 < now - r'.smoothedAt then damp cost r'.smoothed (now - r'.smoothedAt) tau else r'.smoothed) = r'.smoothed := by
    split_ifs with hreset helapsed
    · rcases hreset with hzero | hflat | hle
      · exact absurd (hat.symm.trans hzero) hnow
      · exact (htau hflat).symm
      · exact le_antisymm hge hle
    · rw [hat, Int.sub_self] at helapsed
      exact absurd helapsed (lt_irrefl 0)
    · rfl
  show ({ r' with smoothed := max _ _, smoothedAt := now } : RouteInfo) = r'
  rw [hsmoothed, max_eq_left hge, ← hat]

/-- A route that passed a selection passes another at the same time as it is. -/
theorem passed_passed (hnow : now ≠ 0) (hhold : 0 < r.hold) (h : rt.passed nb now n r = some r') :
    rt.passed nb now n r' = some r' := by
  obtain ⟨r1, hage, hr'⟩ := Option.map_eq_some_iff.1 h
  have hlater := (age_later hhold hage).2
  dsimp only at hr'
  unfold RouteTable.passed
  split_ifs at hr' with hcost
  · subst hr'
    have hagain : r1.age now = some r1 := by
      unfold RouteInfo.age
      rw [if_pos hlater]
    rw [hagain, Option.map_some, if_pos hcost]
  · have hexpires : r'.expiresAt = r1.expiresAt := by rw [← hr']; rfl
    have hsame : r'.cost (nb n) now rt.cost = r1.cost (nb n) now rt.cost := by rw [← hr']; rfl
    have hagain : r'.age now = some r' := by
      unfold RouteInfo.age
      rw [hexpires, if_pos hlater]
    rw [hagain, Option.map_some]
    dsimp only
    rw [hsame, if_neg hcost, ← hr', smooth_smooth _ _ hnow]

/-- What was chosen stays chosen. -/
theorem chooses_again {usable : Candidate → Prop} {incumbent chosen : Option NeighborRef} (h : Chooses nb usable incumbent chosen) :
    Chooses nb usable chosen chosen := by
  rcases h with ⟨hnone, rfl⟩ | ⟨best, hbest, hleast, ⟨-, rfl⟩ | ⟨i, hi, -, rfl⟩⟩
  · exact .inl ⟨hnone, rfl⟩
  · exact .inr ⟨best, hbest, hleast, .inr ⟨best, hbest, rfl, by rw [ite_self]⟩⟩
  · refine .inr ⟨best, hbest, hleast, .inr ?_⟩
    split_ifs with hbeaten
    · exact ⟨best, hbest, rfl, by rw [ite_self]⟩
    · exact ⟨i, hi, rfl, by rw [if_neg hbeaten]⟩

/-- An entry that passed a selection has no further routes. -/
theorem Apart.passed (hids : Apart nb entry)
    (hlook : ∀ m, entry'.routes.lookup m = (entry.routes.lookup m).bind (rt.passed nb now m)) : Apart nb entry' := by
  refine hids.shrink fun m hm => ?_
  rw [hlook] at hm
  obtain ⟨r', hr'⟩ := Option.isSome_iff_exists.1 hm
  obtain ⟨r, hr, -⟩ := Option.bind_eq_some_iff.1 hr'
  exact Option.isSome_iff_exists.2 ⟨r, hr⟩

/-- An entry just selected is selected again as it is. -/
theorem settled (hnow : now ≠ 0) (hids : Apart nb entry) (hholds : ∀ m r, entry.routes.lookup m = some r → 0 < r.hold)
    (hlook : ∀ m, entry'.routes.lookup m = (entry.routes.lookup m).bind (rt.passed nb now m))
    (hselected : entry'.selected = selection rt nb key entry now) :
    (∀ m, (entry'.routes.lookup m).bind (rt.passed nb now m) = entry'.routes.lookup m) ∧
    selection rt nb key entry' now = entry'.selected := by
  have hpassed : ∀ m, (entry'.routes.lookup m).bind (rt.passed nb now m) = entry'.routes.lookup m := by
    intro m
    rw [hlook]
    cases hr : entry.routes.lookup m with
    | none => rfl
    | some r =>
      rw [Option.bind_some]
      cases hp : rt.passed nb now m r with
      | none => rfl
      | some r' => exact passed_passed hnow (hholds m r hr) hp
  have husable : rt.Usable nb key entry' now = rt.Usable nb key entry now := by
    funext c
    unfold RouteTable.Usable
    rw [hlook]
    cases hr : entry.routes.lookup c.neighbor with
    | none => rfl
    | some r =>
      rw [Option.bind_some, Option.bind_some]
      unfold RouteTable.candidate
      cases hp : rt.passed nb now c.neighbor r with
      | none => rfl
      | some r' => rw [Option.bind_some, passed_passed hnow (hholds _ r hr) hp]
  have hneighbor : entry'.selected.neighbor = rt.chosen nb key entry now := by
    rw [hselected, chosen_eq]
    unfold selection Scan.select
    cases (rt.scan nb key entry now).choose <;> rfl
  have hchooses' := @chooses rt nb key entry' now (hids.passed hlook)
  rw [husable, hneighbor] at hchooses'
  have hchosen := Chooses.unique (fun c hc d hd => usable_unique hc hd) hchooses' (chooses_again (chooses hids))
  refine ⟨hpassed, ?_⟩
  rw [hselected]
  refine selection_congr (choose_congr husable hchosen) fun m => ?_
  rw [scan_lookup, hpassed, hlook, scan_lookup]

/-- No change is worth telling. -/
theorem significant_self (rt : RouteTable) (sel : RouteSelection) : rt.significant sel sel = false := by
  unfold RouteTable.significant
  simp

/-- The routes of a retracted entry are those of the entry, one of them retracted. -/
theorem Apart.insert (hids : Apart nb entry) (hr : entry.routes.lookup n = some r) (r' : RouteInfo) :
    Apart nb { entry with routes := entry.routes.insert n r' } := by
  refine hids.shrink fun m hm => ?_
  by_cases hmn : m = n
  · subst hmn
    exact Option.isSome_iff_exists.2 ⟨r, hr⟩
  · rwa [AList.lookup_insert_ne hmn] at hm

/-- A route at infinity stays there. -/
theorem passed_infinite (hr : r.rxMetric = metricInfinity) (h : rt.passed nb now n r = some r') : r'.rxMetric = metricInfinity := by
  obtain ⟨r1, hage, hr'⟩ := Option.map_eq_some_iff.1 h
  have hr1 : r1.rxMetric = metricInfinity := by
    rcases age_cases hage with ⟨-, rfl⟩ | ⟨-, -, rfl⟩
    · exact hr
    · rfl
  dsimp only at hr'
  split_ifs at hr' <;> rw [← hr'] <;> exact hr1

/-- Where the walk leaves a route of the neighbor, it has just selected the entry. -/
theorem walked_entry (hids : ∀ key entry, rt.entries.lookup key = some entry → Apart nb entry) (hheld : rt.Held)
    (hentry' : (rt.walkRetraction nb n now).entries.lookup key = some entry') (hroute : (entry'.routes.lookup n).isSome) :
    ∃ entry, Apart nb entry ∧ (∀ m r, entry.routes.lookup m = some r → 0 < r.hold) ∧
      (∃ r, entry.routes.lookup n = some r ∧ r.rxMetric = metricInfinity) ∧
      (∀ m, entry'.routes.lookup m = (entry.routes.lookup m).bind (rt.passed nb now m)) ∧
      entry'.selected = selection rt nb key entry now := by
  unfold RouteTable.walkRetraction at hentry'
  by_cases hk : key ∈ rt.entries.keys
  swap
  · rw [lookup_foldl_of_not_mem (visits_retractRoute nb n now) hk] at hentry'
    exact absurd (AList.mem_keys.1 (AList.lookup_isSome.1 (by rw [hentry']; rfl))) hk
  obtain ⟨entry, hentry⟩ := Option.isSome_iff_exists.1 (AList.lookup_isSome.2 (AList.mem_keys.2 hk))
  obtain ⟨rt1, hrules, hlook, hwalk, -, -⟩ := lookup_foldl (visits_retractRoute nb n now) rt.entries.keys_nodup hk
    { rt with retracted := rt.retracted.insert n () }
  have halike : Alike rt rt1 := (Alike.marked rt (rt.retracted.insert n ())).trans (.of_rules hrules)
  have hlook : rt1.entries.lookup key = some entry := hlook.trans hentry
  rw [hwalk] at hentry'
  unfold RouteTable.retractRoute at hentry'
  rw [hlook] at hentry'
  dsimp only at hentry'
  cases hr : entry.routes.lookup n with
  | none =>
    rw [hr] at hentry'
    dsimp only at hentry'
    rw [hlook, Option.some.injEq] at hentry'
    rw [← hentry', hr] at hroute
    cases hroute
  | some r =>
    rw [hr] at hentry'
    dsimp only at hentry'
    have hids1 := (hids key entry hentry).insert hr (retractedRoute r now)
    generalize hentry1 : { entry with routes := entry.routes.insert n (retractedRoute r now) } = entry1 at hentry' hids1
    have hselects := selects_selectRoute rt1 nb key entry1 now
    refine ⟨entry1, hids1, fun m r' hr' => ?_, ⟨retractedRoute r now, ?_, rfl⟩, fun m => ?_, ?_⟩
    · rw [← hentry1] at hr'
      by_cases hm : m = n
      · subst hm
        rw [AList.lookup_insert] at hr'
        obtain rfl := Option.some.inj hr'
        exact hheld m key r (by rw [route_of_entry hentry]; exact hr)
      · rw [AList.lookup_insert_ne hm] at hr'
        exact hheld m key r' (by rw [route_of_entry hentry]; exact hr')
    · rw [← hentry1]
      exact AList.lookup_insert _
    · rw [← halike.passed, ← hselects.route_self, route_of_entry hentry']
    · have hselected := selected_selects hselects
      rw [hentry', Option.map_some, (select_congr halike rfl (fun _ => rfl) hids1).1] at hselected
      split_ifs at hselected
      exact Option.some.inj hselected

/-- An entry the walk left with a route of the neighbor stays as it is when it is visited again. -/
theorem visit_again (hnow : now ≠ 0) (hheld : rt.Held) (hids : ∀ key entry, rt.entries.lookup key = some entry → Apart nb entry)
    {w : RouteTable} (halike : Alike rt w) (hentry' : (rt.walkRetraction nb n now).entries.lookup key = some entry')
    (hlook' : w.entries.lookup key = some entry') (hroute : (entry'.routes.lookup n).isSome) :
    (retractRoute nb n now w key).AgreesAt key w := by
  obtain ⟨entry, hapart, hholds, ⟨r, hr, hinfinite⟩, hlook, hselected⟩ := walked_entry hids hheld hentry' hroute
  have hapart' : Apart nb entry' := hapart.passed hlook
  obtain ⟨hpassed, hsettled⟩ := settled hnow hapart hholds hlook hselected
  obtain ⟨r', hr'⟩ := Option.isSome_iff_exists.1 hroute
  have hinfinite' : r'.rxMetric = metricInfinity := by
    have hp := hlook n
    rw [hr', hr] at hp
    exact passed_infinite hinfinite hp.symm
  have hvisit : retractRoute nb n now w key =
      w.selectRoute nb key { entry' with routes := entry'.routes.insert n r' } now := by
    unfold RouteTable.retractRoute
    rw [hlook']
    dsimp only
    rw [hr']
    dsimp only
    rw [retractedRoute_of_infinite hinfinite']
  rw [hvisit]
  have hsame : (w.selectRoute nb key { entry' with routes := entry'.routes.insert n r' } now).AgreesAt key
      (w.selectRoute nb key entry' now) := agreesAt_select halike rfl (lookup_insert_same hr') hapart' Iff.rfl halike
  refine agreesAt_trans hsame ?_
  have hselects := selects_selectRoute w nb key entry' now
  obtain ⟨hselection, -⟩ := @select_congr rt w nb now key entry' entry' halike rfl (fun _ => rfl) hapart'
  have hkept : flushed w nb key entry' now = false := by
    rw [← Bool.not_eq_true]
    intro hempty
    have hnone := (SimAux.isEmpty_keys_iff _).1 hempty n
    rw [scan_lookup, halike.passed, hpassed, hr'] at hnone
    cases hnone
  refine ⟨fun m => ?_, ?_, ?_⟩
  · rw [hselects.route_self, halike.passed, hpassed, route_of_entry hlook']
  · rw [selected_selects hselects, hkept, hselection, hsettled, hlook']
    rfl
  · rw [dirty_selects hselects, hkept, hselection, hsettled, significant_self]
    simp

/-- A second walk at the time of the first has no effect. -/
theorem walk_again (hnow : now ≠ 0) (hheld : rt.Held) (hids : ∀ key entry, rt.entries.lookup key = some entry → Apart nb entry) :
    ((rt.walkRetraction nb n now).walkRetraction nb n now).Agrees (rt.walkRetraction nb n now) := by
  intro key
  have halike : Alike rt (rt.walkRetraction nb n now) :=
    (Alike.marked rt (rt.retracted.insert n ())).trans (.of_rules (rules_foldl (visits_retractRoute nb n now) _ _))
  generalize hw : rt.walkRetraction nb n now = w at halike ⊢
  unfold RouteTable.walkRetraction
  by_cases hk : key ∈ w.entries.keys
  · obtain ⟨entry', hentry'⟩ := Option.isSome_iff_exists.1 (AList.lookup_isSome.2 (AList.mem_keys.2 hk))
    obtain ⟨w1, hrules, hlook, hwalk, hdirty, hmarks⟩ := lookup_foldl (visits_retractRoute nb n now) w.entries.keys_nodup hk
      { w with retracted := w.retracted.insert n () }
    have halike1 : Alike rt w1 := halike.trans ((Alike.marked w (w.retracted.insert n ())).trans (.of_rules hrules))
    have hlook' : w1.entries.lookup key = some entry' := hlook.trans hentry'
    refine agreesAt_trans (agreesAt_of hwalk hmarks) (agreesAt_trans ?_ (agreesAt_of hlook hdirty))
    cases hr : entry'.routes.lookup n with
    | none =>
      unfold RouteTable.retractRoute
      rw [hlook']
      dsimp only
      rw [hr]
      exact agreesAt_of rfl Iff.rfl
    | some r => exact visit_again hnow hheld hids halike1 (by rw [hw]; exact hentry') hlook' (by rw [hr]; rfl)
  · exact agreesAt_of (lookup_foldl_of_not_mem (visits_retractRoute nb n now) hk _)
      (dirty_foldl_of_not_mem (visits_retractRoute nb n now) hk _)

/-- In a sound state the neighbors of an entry have peer ids of their own. -/
theorem apart_sound (h : s.node.Sound) {entry : KeyEntry} (hentry : s.routes.entries.lookup key = some entry) :
    Apart s.heap entry := by
  have hnode : s.node.entries key = some entry.node := congrArg (Option.map KeyEntry.node) hentry
  have hreg : ∀ m ∈ entry.routes.keys, s.Registered m := by
    intro m hm
    obtain ⟨r, hr⟩ := Option.isSome_iff_exists.1 (AList.lookup_isSome.2 (AList.mem_keys.2 hm))
    exact h.routes hnode (show entry.node.routes m = some r.offer from congrArg (Option.map RouteInfo.offer) hr)
  intro a ha b hb hid
  have hsame := hreg a ha
  rw [Speaker.Registered, hid] at hsame
  exact Option.some.inj (hsame.symm.trans (hreg b hb))

end MemoAux

open MemoAux

/-- The states `retractNeighbor` can be called in: a reachable one, and those within the packet of a neighbor. -/
inductive Speaker.Within (s : Speaker) : Speaker → Prop where
  | between : s.Within s
  | hearing (m : NeighborRef) (src : Netip.Addr) (tlvs : List RawTLV) (now : Time) (k : Nat) (registered : s.Registered m) :
      s.Within (s.hearing m src tlvs now k).speaker

/-- A neighbor that is marked has no finite route and is no next hop, in every state `retractNeighbor` can be called in. The walk it
is spared then only selects again the keys that hold a route of it, and repeated at the time of a walk it has no effect. -/
theorem marked_retraction {s s' : Speaker} {sent : List ReservedPacket} (h : Reachable s sent) (hwithin : s.Within s')
    (n : NeighborRef) :
    (n ∈ s'.routes.retracted →
      (∀ key r, s'.routes.route n key = some r → r.rxMetric = metricInfinity) ∧
      (∀ key entry, s'.routes.entries.lookup key = some entry → entry.selected.neighbor ≠ some n) ∧
      ∀ now, s'.routes.retractNeighbor s'.heap n now = s'.routes ∧
        (s'.routes.walkRetraction s'.heap n now).Agrees (s'.routes.recomputeNeighbor s'.heap n now)) ∧
    (n ∉ s'.routes.retracted → ∀ now, s'.routes.retractNeighbor s'.heap n now = s'.routes.walkRetraction s'.heap n now) ∧
    ∀ now ≠ 0, ((s'.routes.walkRetraction s'.heap n now).walkRetraction s'.heap n now).Agrees
      (s'.routes.walkRetraction s'.heap n now) := by
  have hstate : s'.node.Sound ∧ s'.routes.Memo ∧ s'.routes.Held := by
    have hsound := (good_reachable h).1.sound
    cases hwithin with
    | between => exact ⟨hsound, memo_reachable h, held_reachable h⟩
    | hearing m src tlvs now k hreg =>
      obtain ⟨hsound, hw, -⟩ := RetractAux.hearing_spec hsound hreg src tlvs k
      exact ⟨hsound, table_writes (fun _ hm => memo_apply hm _) hw (memo_reachable h), table_writes (fun asked hm => held_apply asked hm) hw (held_reachable h)⟩
  obtain ⟨hsound, hmemo, hheld⟩ := hstate
  have hids := fun key entry (hentry : s'.routes.entries.lookup key = some entry) => apart_sound hsound hentry
  refine ⟨fun hn => ⟨hmemo n hn, fun key entry hentry hsel => ?_, fun now => ⟨if_pos hn, walk_agrees (hmemo n hn) hids⟩⟩,
    fun hn now => if_neg hn, fun now hnow => walk_again hnow hheld hids⟩
  obtain ⟨r, hr, hfinite, -⟩ := selection_spec hsound hentry hsel
  exact hfinite (hmemo n hn key r (by rw [route_of_entry hentry]; exact hr))

/-- A wildcard retraction. -/
def wildcardRetraction : RawTLV := ⟨tlvUpdate, [0, 0, 0, 0, 6, 64, 0, 0, 255, 255]⟩

/-- The linked speaker after it heard one from its neighbor at two seconds. -/
def withdrawnSpeaker : Speaker :=
  (linkedSpeaker.apply (2 * second) (.receive ⟨1, "b"⟩ linkingAddr (encodePacket [wildcardRetraction]) [])).1

/-- The speaker is a reachable one. -/
theorem withdrawnSpeaker_reachable : ∃ sent, Reachable withdrawnSpeaker sent :=
  ⟨_, .call linkedSpeaker_reachable (.receive ⟨1, "b"⟩ linkingAddr (encodePacket [wildcardRetraction]) []) (2 * second) trivial⟩

theorem marked_retraction_withdrawn :
    0 ∈ withdrawnSpeaker.routes.retracted ∧
    withdrawnSpeaker.routes.retractNeighbor withdrawnSpeaker.heap 0 (60 * second) = withdrawnSpeaker.routes ∧
    (withdrawnSpeaker.routes.walkRetraction withdrawnSpeaker.heap 0 (60 * second)).Agrees
      (withdrawnSpeaker.routes.recomputeNeighbor withdrawnSpeaker.heap 0 (60 * second)) := by
  obtain ⟨sent, hreach⟩ := withdrawnSpeaker_reachable
  have hmarked : 0 ∈ withdrawnSpeaker.routes.retracted := by decide +kernel
  exact ⟨hmarked, ((marked_retraction hreach .between 0).1 hmarked).2.2 (60 * second)⟩

/-- A minute later the walk the neighbor is spared would flush the route it withdrew, which the memo leaves in the table. -/
theorem spared_walk_flushes : ∃ s sent n now key, Reachable s sent ∧ n ∈ s.routes.retracted ∧
    (s.routes.retractNeighbor s.heap n now).entries.lookup key ≠ none ∧
    (s.routes.walkRetraction s.heap n now).entries.lookup key = none := by
  obtain ⟨sent, hreach⟩ := withdrawnSpeaker_reachable
  have hkept : ((withdrawnSpeaker.routes.retractNeighbor withdrawnSpeaker.heap 0 (60 * second)).entries.lookup docKey).isSome = true := by
    decide +kernel
  have hgone : ((withdrawnSpeaker.routes.walkRetraction withdrawnSpeaker.heap 0 (60 * second)).entries.lookup docKey).isSome = false := by
    decide +kernel
  exact ⟨withdrawnSpeaker, sent, 0, 60 * second, docKey, hreach, by decide +kernel, Option.isSome_iff_ne_none.1 hkept,
    Option.not_isSome_iff_eq_none.1 (Bool.not_eq_true _ ▸ hgone)⟩

end RanetLite.Babel
