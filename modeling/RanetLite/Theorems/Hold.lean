import RanetLite.Lemmas.Walks

/-!
# The hold of a retracted route

A route that goes to infinity, by an explicit retraction, a wildcard one or its own expiry, is kept for the hold of its last finite
update and then flushed. A history of calls is watched for one neighbor and key: when the route went to infinity, and the hold of the
last finite update. What the table stores is the sum of the two, whatever is called in between.
-/

namespace RanetLite.Babel

/-- A call on a table, with the neighbors it reads and the time it is made at. -/
structure TableCall where
  op : TableOp
  nb : NeighborHeap
  now : Time

/-- The table after a call. -/
def RouteTable.call (rt : RouteTable) (c : TableCall) : RouteTable := rt.apply c.nb c.now c.op

/-- The hold of a finite update of the neighbor for the key, when the call is one. -/
def TableOp.finiteHold (n : NeighborRef) (key : RouteKey) : TableOp → Option Duration
  | .update m k adv hold => if m = n ∧ k = key ∧ adv.metric ≠ metricInfinity then some hold else none
  | _ => none

/-- Whether the call retracts the route, by name or with all others of the neighbor. -/
def TableOp.Retracts (n : NeighborRef) (key : RouteKey) (op : TableOp) : Prop :=
  op = .retractNeighbor n ∨ ∃ adv hold, op = .update n key adv hold ∧ adv.metric = metricInfinity

theorem TableOp.Retracts.finiteHold {n : NeighborRef} {key : RouteKey} {op : TableOp} (h : op.Retracts n key) :
    op.finiteHold n key = none := by
  rcases h with rfl | ⟨adv, hold, rfl, hadv⟩
  · rfl
  · exact if_neg fun hc => hc.2.2 hadv

/-- A table watched at one route: when the route went to infinity, if it is there, and the hold of the last finite update. -/
structure Watch where
  table : RouteTable
  since : Option Time := none
  last : Duration := 0

/-- One call watched. -/
def Watch.step (n : NeighborRef) (key : RouteKey) (w : Watch) (c : TableCall) : Watch :=
  let table := w.table.call c
  { table := table
    last := (c.op.finiteHold n key).getD w.last
    since := match table.route n key with
      | none => none
      | some r =>
        if r.rxMetric ≠ metricInfinity then none
        else if (c.op.finiteHold n key).isSome then some c.now
        else some (w.since.getD c.now) }

namespace HoldAux

open WalkAux

variable {n : NeighborRef} {key : RouteKey} {last : Duration} {since : Option Time} {r r' : RouteInfo} {now : Time} {w : Watch}
  {c : TableCall} {rt : RouteTable}

/-- A finite route has its hold ahead of it, and one at infinity is stored with the end of its hold. -/
structure Kept (last : Duration) (since : Option Time) (r : RouteInfo) : Prop where
  hold : r.hold = last
  finite : r.rxMetric ≠ metricInfinity → 0 < r.hold ∧ since = none
  held : r.rxMetric = metricInfinity → ∃ t, since = some t ∧ r.expiresAt = t + last

/-- Every route stored under a watch is kept so. -/
def Watched (n : NeighborRef) (key : RouteKey) (w : Watch) : Prop := ∀ r, w.table.route n key = some r → Kept w.last w.since r

theorem Kept.congr (h : Kept last since r) (heq : r'.offer = r.offer) : Kept last since r' := by
  obtain ⟨hmetric, hhold, hexpires⟩ := offer_inj heq
  exact ⟨by rw [hhold]; exact h.hold, by rw [hmetric, hhold]; exact h.finite, by rw [hmetric, hexpires]; exact h.held⟩

/-- Aging keeps a route at infinity as it was, and starts the hold of a finite one that has expired. -/
theorem Kept.age (h : Kept last since r) (hage : r.age now = some r') :
    Kept last (if r'.rxMetric ≠ metricInfinity then none else some (since.getD now)) r' := by
  rcases age_cases hage with ⟨-, rfl⟩ | ⟨-, hfinite, rfl⟩
  · refine ⟨h.hold, fun hne => ⟨(h.finite hne).1, if_pos hne⟩, fun heq => ?_⟩
    obtain ⟨t, ht, hexpires⟩ := h.held heq
    exact ⟨t, by rw [if_neg (not_not.2 heq), ht]; rfl, hexpires⟩
  · refine ⟨h.hold, fun hne => absurd rfl hne, fun _ => ⟨now, ?_, by rw [h.hold]⟩⟩
    rw [if_neg (not_not.2 rfl), (h.finite hfinite).2]
    rfl

/-- A retraction starts the hold of a finite route, and leaves a route at infinity as it was. -/
theorem retracted_cases {last : Duration} {since : Option Time} {r r' : RouteInfo} {now : Time} (h : Kept last since r)
    (hmetric : r'.rxMetric = metricInfinity) (hhold : r'.hold = r.hold)
    (hexpires : r'.expiresAt = if r.rxMetric ≠ metricInfinity ∧ 0 < r.hold then now + r.hold else r.expiresAt) :
    Kept last (some (since.getD now)) r' := by
  refine ⟨by rw [hhold]; exact h.hold, fun hne => absurd hmetric hne, fun _ => ⟨since.getD now, rfl, ?_⟩⟩
  rw [hexpires]
  by_cases hfinite : r.rxMetric ≠ metricInfinity
  · obtain ⟨hpos, hsince⟩ := h.finite hfinite
    rw [if_pos ⟨hfinite, hpos⟩, h.hold, hsince]
    rfl
  · obtain ⟨t, ht, heq⟩ := h.held (not_not.1 hfinite)
    rw [if_neg (fun hc => hfinite hc.1), ht]
    exact heq

/-- A retracted route that is aged in the same call is still held, or its hold was over. -/
theorem Kept.age_held {t : Time} (h : Kept last (some t) r) (hmetric : r.rxMetric = metricInfinity) (hage : r.age now = some r') :
    Kept last (some t) r' ∧ r'.rxMetric = metricInfinity := by
  rcases age_cases hage with ⟨-, rfl⟩ | ⟨-, hfinite, -⟩
  · exact ⟨h, hmetric⟩
  · exact absurd hmetric hfinite

/-- The watch after a call that leaves the route. -/
theorem step_watch (hr : (w.table.call c).route n key = some r) :
    (w.step n key c).last = (c.op.finiteHold n key).getD w.last ∧
    (w.step n key c).since = if r.rxMetric ≠ metricInfinity then none
      else if (c.op.finiteHold n key).isSome then some c.now else some (w.since.getD c.now) := by
  refine ⟨rfl, ?_⟩
  show (match (w.table.call c).route n key with
    | none => none
    | some r => if r.rxMetric ≠ metricInfinity then none
      else if (c.op.finiteHold n key).isSome then some c.now else some (w.since.getD c.now)) = _
  rw [hr]

theorem Kept.settle (h : Kept last since r) (now : Time) :
    Kept last (if r.rxMetric ≠ metricInfinity then none else some (since.getD now)) r := by
  refine ⟨h.hold, fun hne => ⟨(h.finite hne).1, if_pos hne⟩, fun heq => ?_⟩
  obtain ⟨t, ht, hexpires⟩ := h.held heq
  exact ⟨t, by rw [if_neg (not_not.2 heq), ht]; rfl, hexpires⟩

/-- A finite update stores its own hold, and one that is over at once starts the hold of the route at infinity. -/
theorem kept_of_finite {adv : Advertisement} {hold : Duration} (hadv : adv.metric ≠ metricInfinity)
    (hage : (RouteTable.acquired r adv hold now).age now = some r') :
    Kept hold (if r'.rxMetric ≠ metricInfinity then none else some now) r' := by
  have hacquired : RouteTable.acquired r adv hold now =
      { r with routerID := adv.routerID, seqno := adv.seqno, rxMetric := adv.metric, hold := hold, expiresAt := now + hold } := by
    unfold RouteTable.acquired
    rw [if_pos hadv]
  rw [hacquired] at hage
  rcases age_cases hage with ⟨hnow, rfl⟩ | ⟨-, -, rfl⟩
  · exact ⟨rfl, fun hne => ⟨lt_add_iff_pos_right _ |>.1 hnow, if_pos hne⟩, fun heq => absurd heq hadv⟩
  · exact ⟨rfl, fun hne => absurd rfl hne, fun _ => ⟨now, if_neg (not_not.2 rfl), rfl⟩⟩

/-- A call keeps the watch: a finite update starts over, and anything else leaves, ages or retracts the route. -/
theorem watched_step (h : Watched n key w) (c : TableCall) : Watched n key (w.step n key c) := by
  intro r' hr'
  have hcall : (w.table.call c).route n key = some r' := hr'
  have hfate := fate_apply w.table c.nb c.now c.op n key
  rw [show (w.table.apply c.nb c.now c.op).route n key = some r' from hcall] at hfate
  obtain ⟨hlast, hsince⟩ := step_watch hcall
  cases hop : c.op.finiteHold n key with
  | some hold =>
    rw [hop] at hlast hsince
    obtain ⟨adv, hadv, hupdate⟩ : ∃ adv, adv.metric ≠ metricInfinity ∧ c.op = .update n key adv hold := by
      unfold TableOp.finiteHold at hop
      split at hop
      · next m k adv hold' heq =>
        split_ifs at hop with hc
        obtain ⟨rfl, rfl, hmetric⟩ := hc
        obtain rfl := Option.some.inj hop
        exact ⟨adv, hmetric, heq⟩
      · cases hop
    rw [hlast, hsince]
    rw [hupdate] at hfate
    generalize hroute : w.table.route n key = before at hfate
    cases hfate with
    | untouched _ hown heq =>
      rw [hown adv hold rfl] at heq
      cases heq
    | aged hown => exact absurd rfl (hown adv hold)
    | acquired _ heq =>
      obtain ⟨r, hr, hoffer⟩ := some_of_map_eq heq
      have hkept := kept_of_finite hadv hr
      have hmetric := (offer_inj hoffer).1
      rw [hmetric]
      exact hkept.congr hoffer
  | none =>
    rw [hop] at hlast hsince
    rw [hlast, hsince]
    generalize hroute : w.table.route n key = before at hfate
    generalize hopc : c.op = op at hop hfate
    cases hfate with
    | untouched _ _ heq =>
      obtain ⟨r, rfl, hoffer⟩ := some_of_map_eq heq
      rw [(offer_inj hoffer).1]
      exact ((h r hroute).settle c.now).congr hoffer
    | aged _ _ heq =>
      obtain ⟨r1, hr1, hoffer⟩ := some_of_map_eq heq
      obtain ⟨r, rfl, hage⟩ := Option.bind_eq_some_iff.1 hr1
      rw [(offer_inj hoffer).1]
      exact ((h r hroute).age hage).congr hoffer
    | retracted heq =>
      obtain ⟨r1, hr1, hoffer⟩ := some_of_map_eq heq
      obtain ⟨r, rfl, hage⟩ := Option.bind_eq_some_iff.1 hr1
      obtain ⟨hkept, hmetric⟩ :=
        (@retracted_cases _ _ _ (RouteTable.retractedRoute r c.now) _ (h r hroute) rfl rfl rfl).age_held rfl hage
      rw [(offer_inj hoffer).1, if_neg (not_not.2 hmetric)]
      exact hkept.congr hoffer
    | @acquired adv hold _ _ hcreates heq =>
      have hadv : adv.metric = metricInfinity := by
        by_contra hne
        simp [TableOp.finiteHold, hne] at hop
      cases before with
      | none => exact absurd hadv (hcreates rfl).1
      | some r =>
        obtain ⟨r1, hage, hoffer⟩ := some_of_map_eq heq
        obtain ⟨hm, hh, he⟩ := acquired_retraction r hold c.now hadv
        obtain ⟨hkept, hmetric⟩ := (retracted_cases (h r hroute) hm hh he).age_held hm hage
        rw [(offer_inj hoffer).1, if_neg (not_not.2 hmetric)]
        exact hkept.congr hoffer

theorem watched_run (h : Watched n key w) (calls : List TableCall) : Watched n key (calls.foldl (Watch.step n key) w) := by
  induction calls generalizing w with
  | nil => exact h
  | cons c calls ih => exact ih (watched_step h c)

/-- A route at infinity is gone after a call only when its hold was over, the peer itself being dropped and the key being adopted apart. -/
theorem expired_of_gone (hr : rt.route n key = some r) (hmetric : r.rxMetric = metricInfinity) (hexpire : c.op ≠ .expireNeighbor n)
    (hadopt : c.op ≠ .adopt key) (hgone : (rt.call c).route n key = none) : r.expiresAt ≤ c.now := by
  have hfate := fate_apply rt c.nb c.now c.op n key
  rw [show (rt.apply c.nb c.now c.op).route n key = none from hgone, hr] at hfate
  generalize c.op = op at hfate hexpire hadopt
  cases hfate with
  | untouched _ _ heq => cases heq
  | aged _ _ heq => exact (age_eq_none (Option.map_eq_none_iff.1 heq.symm)).1
  | retracted heq =>
    have hage := (age_eq_none (Option.map_eq_none_iff.1 heq.symm)).1
    rwa [retractedRoute_expiresAt hmetric] at hage
  | @acquired adv hold _ _ _ heq =>
    obtain ⟨hage, hinfinite⟩ := age_eq_none (Option.map_eq_none_iff.1 heq.symm)
    by_cases hadv : adv.metric = metricInfinity
    · rwa [Option.getD_some, (acquired_retraction r hold c.now hadv).2.2, if_neg fun hc => hc.1 hmetric] at hage
    · exact absurd hinfinite (by rw [acquired_rxMetric]; exact hadv)
  | dropped hop => exact absurd hop (by rintro (h | h); exacts [hexpire h, hadopt h])

/-- A sweep flushes a route at infinity whose hold is over. -/
theorem gone_of_swept (hr : rt.route n key = some r) (hmetric : r.rxMetric = metricInfinity) (hsweep : c.op = .sweepExpired)
    (hover : r.expiresAt ≤ c.now) : (rt.call c).route n key = none := by
  have hfate := fate_apply rt c.nb c.now c.op n key
  show (rt.apply c.nb c.now c.op).route n key = none
  rw [hsweep, hr] at hfate
  rw [hsweep]
  have hage : r.age c.now = none := by
    unfold RouteInfo.age
    rw [if_neg (not_lt.2 hover), if_pos hmetric]
  generalize rt.apply c.nb c.now .sweepExpired = rt' at hfate
  generalize rt'.route n key = after at hfate
  cases hfate with
  | untouched hop => exact absurd rfl hop
  | aged _ _ heq =>
    rw [Option.bind_some, hage] at heq
    exact Option.map_eq_none_iff.1 heq
  | dropped => rfl

/-- A further retraction that leaves the route leaves its deadline. -/
theorem kept_of_retracts (hr : rt.route n key = some r) (hmetric : r.rxMetric = metricInfinity) (hretracts : c.op.Retracts n key)
    (hr' : (rt.call c).route n key = some r') : r'.rxMetric = metricInfinity ∧ r'.expiresAt = r.expiresAt := by
  have hfate := fate_apply rt c.nb c.now c.op n key
  rw [show (rt.apply c.nb c.now c.op).route n key = some r' from hr', hr] at hfate
  have hheld : ∀ {r1 r2 : RouteInfo}, r1.rxMetric = metricInfinity → r1.expiresAt = r.expiresAt →
      r1.age c.now = some r2 → r'.offer = r2.offer → r'.rxMetric = metricInfinity ∧ r'.expiresAt = r.expiresAt := by
    intro r1 r2 hinfinite hexpires hage hoffer
    obtain ⟨hm, -, he⟩ := offer_inj hoffer
    rcases age_cases hage with ⟨-, rfl⟩ | ⟨-, hfinite, -⟩
    · exact ⟨by rw [hm, hinfinite], by rw [he, hexpires]⟩
    · exact absurd hinfinite hfinite
  rcases hretracts with hop | ⟨adv, hold, hop, hadv⟩
  · rw [hop] at hfate
    cases hfate with
    | untouched _ _ heq =>
      obtain ⟨r1, hr1, hoffer⟩ := some_of_map_eq heq
      obtain rfl := Option.some.inj hr1
      obtain ⟨hm, -, he⟩ := offer_inj hoffer
      exact ⟨by rw [hm, hmetric], he⟩
    | aged _ hown => exact absurd rfl hown
    | retracted heq =>
      obtain ⟨r2, hage, hoffer⟩ := some_of_map_eq heq
      exact hheld rfl (retractedRoute_expiresAt hmetric) hage hoffer
  · rw [hop] at hfate
    cases hfate with
    | untouched _ hown => exact absurd (hown adv hold rfl) (Option.some_ne_none r)
    | aged hown => exact absurd rfl (hown adv hold)
    | acquired _ heq =>
      obtain ⟨r2, hage, hoffer⟩ := some_of_map_eq heq
      obtain ⟨hm, -, he⟩ := acquired_retraction r hold c.now hadv
      exact hheld hm (by rw [he, if_neg fun hc => hc.1 hmetric]) hage hoffer

end HoldAux

open HoldAux

/-- For every history of calls on a table that starts without the route, a route at infinity is stored with the end of its hold: the
hold of the last finite update, counted from the call that took the route to infinity. It is not flushed earlier, the peer being dropped
and the key being adopted apart; a sweep that finds the hold over flushes it; and a further retraction leaves both as they were. -/
theorem retraction_hold (n : NeighborRef) (key : RouteKey) (rt0 : RouteTable) (h0 : rt0.route n key = none) (calls : List TableCall)
    (c : TableCall) (r : RouteInfo) :
    let w := calls.foldl (Watch.step n key) { table := rt0 }
    w.table.route n key = some r → r.rxMetric = metricInfinity →
    ∃ t, w.since = some t ∧ r.expiresAt = t + w.last ∧
      (c.op ≠ .expireNeighbor n → c.op ≠ .adopt key → (w.table.call c).route n key = none → t + w.last ≤ c.now) ∧
      (c.op = .sweepExpired → t + w.last ≤ c.now → (w.table.call c).route n key = none) ∧
      (c.op.Retracts n key → ∀ r', (w.table.call c).route n key = some r' →
        r'.rxMetric = metricInfinity ∧ r'.expiresAt = t + w.last ∧ (w.step n key c).since = some t ∧ (w.step n key c).last = w.last) := by
  intro w hr hmetric
  have hwatched : Watched n key w := watched_run (fun r hr => absurd (h0.symm.trans hr) (Option.some_ne_none r).symm) calls
  obtain ⟨t, hsince, hexpires⟩ := (hwatched r hr).held hmetric
  refine ⟨t, hsince, hexpires, fun hexpire hadopt hgone => ?_, fun hsweep hover => ?_, fun hretracts r' hr' => ?_⟩
  · rw [← hexpires]
    exact expired_of_gone hr hmetric hexpire hadopt hgone
  · rw [← hexpires] at hover
    exact gone_of_swept hr hmetric hsweep hover
  · obtain ⟨hinfinite, hsame⟩ := kept_of_retracts hr hmetric hretracts hr'
    obtain ⟨hlast, hstart⟩ := step_watch (w := w) hr'
    rw [hretracts.finiteHold] at hlast hstart
    exact ⟨hinfinite, hsame.trans hexpires, by rw [hstart, if_neg (not_not.2 hinfinite), hsince]; rfl, hlast⟩

/-- An update heard with a hold of ten seconds, then a wildcard retraction and two by name. -/
def retractedThrice : List TableCall :=
  let key : RouteKey := ⟨.none, .none⟩
  let at_ (op : TableOp) (now : Time) : TableCall := ⟨op, fun _ => { peer := ⟨0, "a"⟩ }, now⟩
  [at_ (.update 0 key { metric := 96 } (10 * second)) second, at_ (.retractNeighbor 0) (2 * second),
    at_ (.update 0 key { metric := metricInfinity } (30 * second)) (5 * second),
    at_ (.update 0 key { metric := metricInfinity } (30 * second)) (9 * second)]

/-- The route retracted at two seconds is held to twelve, where a sweep flushes it, whatever the later retractions carry. -/
theorem retraction_hold_twelve :
    let rt0 : RouteTable := { tau := 12 * second, trigger := 96, cost := defaultCostParams, damp := fun cost _ _ _ => cost.toNat }
    let key : RouteKey := ⟨.none, .none⟩
    let w := retractedThrice.foldl (Watch.step 0 key) { table := rt0 }
    let sweep (now : Time) : TableCall := ⟨.sweepExpired, fun _ => { peer := ⟨0, "a"⟩ }, now⟩
    w.since = some (2 * second) ∧ w.last = 10 * second ∧
    (w.table.call (sweep (12 * second))).route 0 key = none ∧ (w.table.call (sweep (11 * second))).route 0 key ≠ none := by
  intro rt0 key w sweep
  have hroute : w.table.route 0 key = some { rxMetric := metricInfinity, hold := 10 * second, expiresAt := 12 * second } := by
    decide +kernel
  have hsince : w.since = some (2 * second) := by decide +kernel
  have hlast : w.last = 10 * second := by decide +kernel
  refine ⟨hsince, hlast, ?_, fun hgone => ?_⟩
  · obtain ⟨t, ht, -, -, hsweep, -⟩ := retraction_hold 0 key rt0 (by decide +kernel) retractedThrice (sweep (12 * second)) _ hroute rfl
    obtain rfl := Option.some.inj (hsince.symm.trans ht)
    exact hsweep rfl (by rw [hlast]; decide)
  · obtain ⟨t, ht, -, hkept, -⟩ := retraction_hold 0 key rt0 (by decide +kernel) retractedThrice (sweep (11 * second)) _ hroute rfl
    obtain rfl := Option.some.inj (hsince.symm.trans ht)
    have hover := hkept TableOp.noConfusion TableOp.noConfusion hgone
    rw [hlast] at hover
    exact absurd hover (by decide)

end RanetLite.Babel
