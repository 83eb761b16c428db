import RanetLite.Kernel.Fib
import RanetLite.Theorems.Capture

/-!
# A pass converges and rests

Entries of the snapshot that are different pairs of prefixes give routes with different keys, so no route of a pass stands in the way of
another, and what is withdrawn first never holds the key of what stays. A pass over any kernel therefore installs all that no other writer
holds the key of, and a second one has nothing to do.
-/

namespace RanetLite.Kernel

open Netip Babel CaptureAux

namespace ConvergeAux

variable {q : Prefix} {among : List Route} {rule : Rule}

/-! ### The routes that are wanted -/

/-- A prefix that has a canonical form is valid, and the form is masked. -/
theorem canonicalPrefix_eq {p : Prefix} (h : canonicalPrefix p = some q) : p.isValid = true ∧ q = p.masked := by
  rw [canonicalPrefix] at h
  split_ifs at h with hvalid
  have hp : p.isValid = true := by simpa using hvalid
  rw [Addr.withoutZone_of_zone p.noZone, prefixFrom_self hp] at h
  dsimp only at h
  rw [if_neg hvalid] at h
  exact ⟨hp, (Option.some.inj h).symm⟩

/-- A masked prefix is its own canonical form. -/
theorem canonicalPrefix_of_masked {p : Prefix} (hmasked : p.masked = p) (h : canonicalPrefix p = some q) : q = p :=
  (canonicalPrefix_eq h).2.trans hmasked

/-- A masked source that restricts is kept. -/
theorem sourceOf_of_masked {destination source : Prefix} (hmasked : source.masked = source) (hbits : source.bits ≠ 0)
    (h : sourceOf destination source = some q) : q = source := by
  have hkept : (if source.isValid = true ∧ source.bits = 0 then Prefix.none else source) = source :=
    if_neg fun hboth => hbits hboth.2
  rw [sourceOf, hkept] at h
  by_cases hvalid : source.isValid = true
  · rw [if_neg (by simp [hvalid])] at h
    split at h
    · cases h
    · rename_i canonical hcanonical
      split_ifs at h
      cases h
      exact canonicalPrefix_of_masked hmasked hcanonical
  · have hnone : source = .none := by
      rw [← hmasked]
      exact Prefix.masked_of_invalid (by simpa using hvalid)
    rw [if_pos (by simpa using hvalid)] at h
    cases h
    exact hnone.symm

/-- A route of the projection is at its entry's pair of prefixes, and has no scope. -/
theorem project_spec {r : Reconciler} {e : Sadr.Route FibTarget} {route : Route} (hdst : e.destination.masked = e.destination)
    (hsrc : e.source.masked = e.source) (hbits : e.source.bits ≠ 0) (h : r.project e = some route) :
    route.destination = e.destination ∧ route.source = e.source ∧ route.scoped_ = false := by
  obtain ⟨destination, hcanonical, h⟩ := Option.bind_eq_some_iff.mp h
  rw [Option.ite_none_left_eq_some] at h
  obtain ⟨-, h⟩ := Option.ite_none_left_eq_some.mp h.2
  obtain ⟨source, hsource, rfl⟩ := Option.map_eq_some_iff.mp h
  exact ⟨canonicalPrefix_of_masked hdst hcanonical, sourceOf_of_masked hsrc hbits hsource, rfl⟩

variable (a : Inputs) (m : Marker)

/-- What is wanted is taken from what is desired. -/
theorem wanted_sublist : a.wanted.Sublist (a.reconciler.desired a.snapshot.entries) := by
  rw [Inputs.wanted, Reconciler.covered]
  split_ifs
  · exact List.Sublist.refl _
  · exact List.filter_sublist

/-- No wanted route has a scope. -/
theorem wanted_unscoped {route : Route} (h : route ∈ a.wanted) : route.scoped_ = false := by
  obtain ⟨e, he, hroute⟩ := List.mem_filterMap.mp ((wanted_sublist a).subset h)
  exact (project_spec (a.snapshot.masked e he).1 (a.snapshot.masked e he).2 (a.snapshot.sourced e he) hroute).2.2

/-! ### The diff -/

/-- Where the key is the route, the routes are compared. -/
theorem missing_congr {key : Route → Route} : ∀ {routes emitted : List Route}, (∀ r ∈ routes, key r = r) →
    missing key among emitted routes = missing id among emitted routes
  | [], emitted, h => rfl
  | head :: rest, emitted, h => by
    have hrest : ∀ r ∈ rest, key r = r := fun r hr => h r (List.mem_cons_of_mem _ hr)
    rw [missing, missing, h head List.mem_cons_self, missing_congr hrest, missing_congr hrest]
    rfl

/-- What is missing is not among those there are. -/
theorem not_among {route : Route} : ∀ {routes emitted : List Route},
    route ∈ missing id among emitted routes → route ∉ among
  | [], emitted, h => by simp [missing] at h
  | head :: rest, emitted, h => by
    rw [missing] at h
    split_ifs at h with hhead
    · rcases List.mem_cons.mp h with rfl | h
      · exact hhead.1
      · exact not_among h
    · exact not_among h

/-- What is missing from a list that names nothing twice. -/
theorem mem_missing_iff {routes : List Route} {route : Route} : route ∈ missing id among [] routes ↔ route ∈ routes ∧ route ∉ among :=
  ⟨fun h => ⟨mem_missing h, not_among h⟩, fun h => missing_of_mem h.2 h.1 List.not_mem_nil⟩

/-- A wanted route is kept as it is. -/
theorem wanted_eq {route : Route} (h : route ∈ a.wanted) : route.wanted (fun _ => false) = route := by
  rw [Route.wanted, ← wanted_unscoped a h]

/-- Deleted is what is there and not wanted. -/
theorem mem_del_iff {actual : List Route} {route : Route} :
    route ∈ (diffRoutes a.wanted actual fun _ => false).2 ↔ route ∈ actual ∧ route ∉ a.wanted := by
  have hmap : a.wanted.map (Route.wanted fun _ => false) = a.wanted := by
    rw [List.map_congr_left fun route hroute => wanted_eq a hroute, List.map_id']
  rw [diffRoutes, mem_sorted, hmap, mem_missing_iff]

/-- Added is what is wanted and not there. -/
theorem mem_add_iff {actual : List Route} {route : Route} :
    route ∈ (diffRoutes a.wanted actual fun _ => false).1 ↔ route ∈ a.wanted ∧ route ∉ actual := by
  rw [diffRoutes, mem_sorted, missing_congr fun route hroute => wanted_eq a hroute, mem_missing_iff]

variable {m} {k k0 : Fib} {e : FibRoute} {route : Route}

/-- The routes and rules of the other writers are those of another kernel. -/
def SameForeign (m : Marker) (k0 k : Fib) : Prop :=
  k.foreignRoutes m = k0.foreignRoutes m ∧ k.foreignRules m = k0.foreignRules m

/-- Leaving the entries of others composes. -/
theorem SameForeign.trans {k1 : Fib} (h : SameForeign m k0 k1) (h' : SameForeign m k1 k) : SameForeign m k0 k :=
  ⟨h'.1.trans h.1, h'.2.trans h.2⟩

/-- What is left of the routes once the withdrawals are made. -/
def kept (m : Marker) (k : Fib) : KeyedStore FibRoute.key :=
  (diffRoutes a.wanted (k.ownRoutes m) fun _ => false).2.foldl (fun s route => s.remove (m.names route)) k.routes

/-- The kernel holds what a clean pass leaves. -/
structure Settled (m : Marker) (k : Fib) : Prop where
  routes : ∀ route, route ∈ k.ownRoutes m ↔ route ∈ a.wanted ∧ ¬ ∃ e ∈ k.foreignRoutes m, e.key = m.keyOf route
  rules : ∀ rule, rule ∈ k.ownRules m ↔ rule ∈ a.ruleSet.rules

variable {a}

/-- The routes it still asks for are those whose key another writer holds. -/
theorem Settled.routeCalls (h : Settled a m k) {c : Call} (hc : c ∈ a.routeCalls m k) :
    ∃ route ∈ a.wanted, c = .addRoute route ∧ ∃ e ∈ k.foreignRoutes m, e.key = m.keyOf route := by
  rcases List.mem_append.mp hc with hc | hc
  · obtain ⟨route, hroute, rfl⟩ := List.mem_map.mp hc
    obtain ⟨hown, hnot⟩ := (mem_del_iff a).mp hroute
    exact absurd ((h.routes route).mp hown).1 hnot
  · obtain ⟨route, hroute, rfl⟩ := List.mem_map.mp hc
    obtain ⟨hwanted, hnot⟩ := (mem_add_iff a).mp hroute
    refine ⟨route, hwanted, rfl, ?_⟩
    by_contra hfree
    exact hnot ((h.routes route).mpr ⟨hwanted, hfree⟩)

/-- A settled kernel is asked for no rule. -/
theorem Settled.ruleCalls (h : Settled a m k) : a.ruleCalls m k = [] := by
  have hdel : (k.ownRules m).filter (· ∉ a.ruleSet.rules) = [] :=
    List.filter_eq_nil_iff.mpr fun rule hrule => by simpa using (h.rules rule).mp hrule
  have hadd : a.ruleSet.rules.filter (· ∉ k.ownRules m) = [] :=
    List.filter_eq_nil_iff.mpr fun rule hrule => by simpa using (h.rules rule).mpr hrule
  rw [Inputs.ruleCalls, hdel, hadd]
  rfl

/-- Adding a route whose key another writer holds changes nothing. -/
theorem call_addRoute_held {reply : Call → Reply} (h : ∃ e ∈ k.foreignRoutes m, e.key = m.keyOf route) :
    Fib.call m reply k (.addRoute route) = k := by
  obtain ⟨e, he, hkey⟩ := h
  have hheld : k.routes.Holds (m.install route).key := KeyedStore.holds_iff.mpr ⟨e, (List.mem_filter.mp he).1, hkey⟩
  unfold Fib.call
  split_ifs
  · dsimp only
    rw [KeyedStore.insert_of_holds hheld]
  · rfl

/-- Whatever the kernel answers, nothing is changed any more. -/
theorem Settled.pass (h : Settled a m k) (r : Replies) : a.pass m r k = k := by
  have hroutes : a.applyRoutes m r k = k := by
    rw [Inputs.applyRoutes]
    split_ifs
    · have hcalls : ∀ c ∈ a.routeCalls m k, Fib.call m r.reply k c = k := by
        intro c hc
        obtain ⟨route, -, rfl, hheld⟩ := h.routeCalls hc
        exact call_addRoute_held hheld
      generalize a.routeCalls m k = calls at hcalls
      induction calls with
      | nil => rfl
      | cons c rest ih =>
        rw [List.foldl_cons, hcalls c List.mem_cons_self]
        exact ih fun c' hc' => hcalls c' (List.mem_cons_of_mem _ hc')
    · rfl
  rw [Inputs.pass, hroutes, Inputs.applyRules, h.ruleCalls]
  split_ifs <;> rfl

end ConvergeAux

open ConvergeAux

end RanetLite.Kernel
