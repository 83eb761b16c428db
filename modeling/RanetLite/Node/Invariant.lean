import RanetLite.Node.Model
import RanetLite.Theorems.Sadr

/-!
# What every step of a node keeps

`Node.Sound` gathers the invariants of one node: registrations name their neighbor, stored routes are of registered neighbors, every
selection is a stored, finite and feasible route, originated keys are not learned, and the forwarding table holds exactly what the
selections and originations say. It holds at the start (`sound_empty`) and every step keeps it (`sound_step`).
-/

namespace RanetLite.Babel

open Netip Sadr

/-- A forwarding table that holds exactly what `want` says, for every pair of a source and a destination. -/
structure Holds (fib : Table FibTarget) (want : RouteKey → Option FibTarget) : Prop where
  wf : fib.Wf
  live : ∀ dst : Prefix, dst.isValid = true → ∀ e, e ∈ fib.entries dst ↔ want ⟨e.src, dst.masked⟩ = some e.value

namespace FibAux

open RefineAux

variable {key : RouteKey} {fib : Table FibTarget} {want : RouteKey → Option FibTarget}

theorem canonical_valid (h : key.Canonical) : validPrefixes key.source.masked key.dest = true := by
  rw [validPrefixes_masked, validPrefixes, h.destValid, Bool.true_and]
  obtain hs | ⟨hv, -, -, hf⟩ := h.source
  · simp [hs]
  · rw [Bool.or_eq_true, beq_iff_eq]
    right
    have hs := Addr.bitLen_of_ne_zero (Prefix.addr_ne_zero hv)
    have hd := Addr.bitLen_of_ne_zero (Prefix.addr_ne_zero h.destValid)
    rw [Prefix.addr, Prefix.addr] at hf
    rw [Prefix.addr, Prefix.addr, hs, hd, hf]

theorem source_masked (h : key.Canonical) : key.source.masked = key.source := by
  obtain hs | ⟨-, hm, -, -⟩ := h.source
  · rw [hs, Prefix.masked_of_invalid rfl]
  · exact hm

theorem holds_empty : Holds ({} : Table FibTarget) fun _ => none where
  wf := refines_empty.wf
  live dst hv e := by
    rw [refines_empty.live dst hv e]
    simp

/-- A change of one canonical key is a change of one value. -/
theorem holds_change (h : Holds fib want) (hc : key.Canonical) {fn : List (SrcEntry FibTarget) → List (SrcEntry FibTarget)}
    {value : Option FibTarget} (hordered : ∀ srcs, Ordered srcs → Ordered (fn srcs))
    (hfn : ∀ srcs, Ordered srcs → ∀ e, e ∈ fn srcs ↔ if e.src = key.source then value = some e.value else e ∈ srcs) :
    Holds (fib.change key.source.masked key.dest fn) (Function.update want key value) where
  wf := wf_change h.wf hordered
  live dst hv e := by
    rw [entries_change h.wf fn (canonical_valid hc) hv, hc.destMasked]
    by_cases hd : dst.masked = key.dest
    · rw [if_pos hd, hfn _ (ordered_entries h.wf key.dest), hd]
      by_cases hs : e.src = key.source
      · rw [if_pos hs, hs, Function.update_self]
      · have hne : (⟨e.src, key.dest⟩ : RouteKey) ≠ key := fun he => hs (congrArg RouteKey.source he)
        rw [if_neg hs, Function.update_of_ne hne, h.live key.dest hc.destValid, hc.destMasked]
    · have hne : (⟨e.src, dst.masked⟩ : RouteKey) ≠ key := fun he => hd (congrArg RouteKey.dest he)
      rw [if_neg hd, Function.update_of_ne hne, h.live dst hv]

theorem holds_set (h : Holds fib want) (hc : key.Canonical) (target : FibTarget) :
    Holds (fib.set key.source key.dest target) (Function.update want key (some target)) := by
  refine holds_change h hc (fun srcs ho => ordered_setEntry (Prefix.masked_masked _) ho) fun srcs ho e => ?_
  rw [mem_setEntry, source_masked hc]
  by_cases hs : e.src = key.source
  · rw [if_pos hs]
    constructor
    · rintro (rfl | ⟨-, hne⟩)
      · rfl
      · exact absurd hs hne
    · intro hv
      left
      cases e
      simp_all
  · rw [if_neg hs]
    constructor
    · rintro (rfl | ⟨he, -⟩)
      · exact absurd rfl hs
      · exact he
    · exact fun he => .inr ⟨he, hs⟩

theorem holds_remove (h : Holds fib want) (hc : key.Canonical) :
    Holds (fib.remove key.source key.dest) (Function.update want key none) := by
  refine holds_change h hc (fun srcs ho => ho.sublist List.eraseP_sublist) fun srcs ho e => ?_
  rw [mem_removeEntry ho, source_masked hc]
  by_cases hs : e.src = key.source <;> simp [hs]

end FibAux

namespace Node

open FibAux

variable {v : Node}

open Classical in
/-- What the forwarding table is to hold for a key. -/
noncomputable def forwarding (v : Node) (key : RouteKey) : Option FibTarget :=
  if key ∈ v.originate then some .unreachable
  else match v.entries key with
    | none => none
    | some e =>
      match e.selected.neighbor with
      | some n => some (.peer (v.peer n))
      | none => if e.onceSelected then some .unreachable else none

/-- The invariants of a node. -/
structure Sound (v : Node) : Prop where
  names : ∀ {id : String} {n : NeighborRef}, v.neighbors id = some n → (v.peer n).id = id ∧ n < v.fresh
  originKeys : ∀ {key : RouteKey}, key ∈ v.originate → key.Canonical
  advertisedKeys : ∀ {n : NeighborRef} {key : RouteKey}, key ∈ v.advertised n → key.Canonical
  entryKeys : ∀ {key : RouteKey} {e : NodeEntry}, v.entries key = some e → key.Canonical ∧ key ∉ v.originate
  routes : ∀ {key : RouteKey} {e : NodeEntry} {n : NeighborRef} {r : Offer}, v.entries key = some e → e.routes n = some r →
    v.Registered n
  choice : ∀ {key : RouteKey} {e : NodeEntry}, v.entries key = some e → v.Choice key e.routes e.selected
  once : ∀ {key : RouteKey} {e : NodeEntry}, v.entries key = some e → e.selected.neighbor.isSome = true → e.onceSelected = true
  fib : Holds v.fib v.forwarding

/-- What a node says is reachable has a canonical key. -/
theorem Speaks.canonical {n : NeighborRef} {key : RouteKey} {adv : Advertisement} (hspeaks : v.Speaks n key adv) (h : v.Sound) :
    key.Canonical := by
  cases hspeaks with
  | origin hor => exact h.originKeys hor
  | transit _ _ hentry _ _ => exact (h.entryKeys hentry).1

namespace SoundAux

variable {now : Time} {v v' : Node} {key : RouteKey} {n : NeighborRef}

theorem forwarding_eq_at {k : RouteKey} (ho : k ∈ v'.originate ↔ k ∈ v.originate) (he : v'.entries k = v.entries k)
    (hp : v'.peer = v.peer) : v'.forwarding k = v.forwarding k := by
  by_cases h : k ∈ v.originate
  · rw [forwarding, forwarding, if_pos h, if_pos (ho.mpr h)]
  · rw [forwarding, forwarding, if_neg h, if_neg fun h' => h (ho.mp h'), he, hp]

theorem forwarding_congr (ho : v'.originate = v.originate) (he : v'.entries = v.entries) (hp : v'.peer = v.peer) :
    v'.forwarding = v.forwarding :=
  funext fun k => forwarding_eq_at (by rw [ho]) (by rw [he]) hp

/-- A step that leaves registrations, entries, originations and forwarding alone only has to keep the choices. -/
theorem sound_frame (h : v.Sound) (hn : v'.neighbors = v.neighbors) (hp : v'.peer = v.peer) (hf : v'.fresh = v.fresh)
    (ho : v'.originate = v.originate) (he : v'.entries = v.entries) (hb : v'.fib = v.fib)
    (hadv : ∀ {n key}, key ∈ v'.advertised n → key.Canonical)
    (hchoice : ∀ {key e}, v.entries key = some e → v'.Choice key e.routes e.selected) : v'.Sound where
  names hid := by
    rw [hn] at hid
    rw [hp, hf]
    exact h.names hid
  originKeys hk := h.originKeys (ho ▸ hk)
  advertisedKeys := hadv
  entryKeys hk := by
    rw [he] at hk
    rw [ho]
    exact h.entryKeys hk
  routes hk hr := by
    rw [he] at hk
    rw [Registered, hn, hp]
    exact h.routes hk hr
  choice hk := hchoice (he ▸ hk)
  once hk := h.once (he ▸ hk)
  fib := by
    rw [hb, forwarding_congr ho he hp]
    exact h.fib

theorem advertised_insert (h : v.Sound) (hc : key.Canonical) {m : NeighborRef} {k : RouteKey}
    (hk : k ∈ Function.update v.advertised n (insert key (v.advertised n)) m) : k.Canonical := by
  by_cases hm : m = n
  · rw [hm, Function.update_self] at hk
    obtain rfl | hk := hk
    · exact hc
    · exact h.advertisedKeys hk
  · rw [Function.update_of_ne hm] at hk
    exact h.advertisedKeys hk

/-- Fewer distances, or the same, keep a choice. -/
theorem choice_mono {routes : NeighborRef → Option Offer} {sel : RouteSelection}
    (hs : ∀ index d, v'.sources index = some d → v.sources index = some d) (h : v.Choice key routes sel) :
    v'.Choice key routes sel := by
  obtain h | ⟨n, r, hn, hr, hm, hid, hseq, hlt, hc, hd⟩ := h
  · exact .inl h
  · exact .inr ⟨n, r, hn, hr, hm, hid, hseq, hlt, hc, fun d he => hd d (hs _ d he)⟩

/-- Settling a key leaves everything but its entry and the forwarding table alone. -/
theorem settled_frame (e : NodeEntry) (routes : NeighborRef → Option Offer) (sel : RouteSelection) (empty : Bool) :
    ∃ entries fib, v.settled key e routes sel empty = { v with entries := entries, fib := fib } := by
  cases empty <;> exact ⟨_, _, rfl⟩

theorem entryOf_forwarding (hl : key ∉ v.originate) :
    v.forwarding key = match (v.entryOf key).selected.neighbor with
      | some n => some (.peer (v.peer n))
      | none => if (v.entryOf key).onceSelected then some .unreachable else none := by
  rw [forwarding, if_neg hl, entryOf]
  cases v.entries key <;> rfl

theorem entryOf_once (h : v.Sound) (hs : (v.entryOf key).selected.neighbor.isSome = true) : (v.entryOf key).onceSelected = true := by
  cases he : v.entries key with
  | none => rw [entryOf, he] at hs; exact absurd hs (by simp)
  | some e =>
    rw [entryOf, he, Option.getD_some] at hs ⊢
    exact h.once he hs

/-- A new selection writes the forwarding entry it is to have. -/
theorem settled_fib (h : v.Sound) (hc : key.Canonical) (hl : key ∉ v.originate) (routes : NeighborRef → Option Offer)
    (sel : RouteSelection) (empty : Bool) :
    Holds (v.settled key (v.entryOf key) routes sel empty).fib (v.settled key (v.entryOf key) routes sel empty).forwarding := by
  have hother : ∀ {entry : Option NodeEntry} {fib : Table FibTarget} {k : RouteKey}, k ≠ key →
      ({ v with entries := Function.update v.entries key entry, fib := fib } : Node).forwarding k = v.forwarding k := by
    intro entry fib k hk
    exact forwarding_eq_at Iff.rfl (Function.update_of_ne hk _ _) rfl
  -- the table once the selection is installed, before a flush
  have hmid : ∃ want, Holds (if sel.neighbor ≠ (v.entryOf key).selected.neighbor then
      v.fib.set key.source key.dest (v.target sel) else v.fib) want ∧ (∀ k, k ≠ key → want k = v.forwarding k) ∧
      want key = match sel.neighbor with
        | some n => some (.peer (v.peer n))
        | none => if (v.entryOf key).onceSelected then some .unreachable else none := by
    by_cases hne : sel.neighbor ≠ (v.entryOf key).selected.neighbor
    · rw [if_pos hne]
      refine ⟨_, holds_set h.fib hc _, fun k hk => Function.update_of_ne hk _ _, ?_⟩
      rw [Function.update_self]
      cases hs : sel.neighbor with
      | some n => simp [target, hs]
      | none =>
        rw [hs] at hne
        have hprev : (v.entryOf key).selected.neighbor.isSome = true := by
          rw [Option.isSome_iff_ne_none]
          exact fun hnone => hne hnone.symm
        rw [entryOf_once h hprev, target, hs]
        rfl
    · rw [if_neg hne]
      rw [ne_eq, not_not] at hne
      exact ⟨_, h.fib, fun k _ => rfl, by rw [entryOf_forwarding hl, hne]⟩
  obtain ⟨want, hwant, hw, hkey⟩ := hmid
  cases empty with
  | true =>
    have heq : (v.settled key (v.entryOf key) routes sel true).forwarding = Function.update want key none := by
      funext k
      by_cases hk : k = key
      · subst hk
        rw [Function.update_self]
        simp [settled, forwarding, hl]
      · rw [Function.update_of_ne hk, hw k hk]
        exact hother hk
    rw [heq]
    exact holds_remove hwant hc
  | false =>
    have heq : (v.settled key (v.entryOf key) routes sel false).forwarding = want := by
      funext k
      by_cases hk : k = key
      · subst hk
        rw [hkey]
        simp only [settled, forwarding, Bool.false_eq_true, if_false, Function.update_self]
        cases sel.neighbor <;> simp [hl]
      · rw [hw k hk]
        exact hother hk
    rw [heq]
    exact hwant

/-- Settling a key on routes of registered neighbors keeps the invariants. -/
theorem sound_settles (h : v.Sound) (hc : key.Canonical) (hl : key ∉ v.originate) {routes : NeighborRef → Option Offer}
    (hreg : ∀ n r, routes n = some r → v.Registered n) (hs : Settles now v key routes v') : v'.Sound := by
  obtain ⟨routes', sel, empty, haged, hchoice, -⟩ := hs
  have hfib := settled_fib h hc hl routes' sel empty
  have hentries := settled_entries v key (v.entryOf key) routes' sel empty
  obtain ⟨entries, fib, hframe⟩ := @settled_frame v key (v.entryOf key) routes' sel empty
  rw [hframe] at hfib hentries ⊢
  dsimp only at hfib hentries
  -- an entry is an old one, or the one just settled
  have hcases : ∀ {k : RouteKey} {e : NodeEntry}, entries k = some e → k ≠ key ∧ v.entries k = some e ∨
      k = key ∧ e = ⟨routes', sel, (v.entryOf key).onceSelected || sel.neighbor.isSome⟩ := by
    intro k e he
    rw [hentries] at he
    by_cases hk : k = key
    · subst hk
      rw [Function.update_self] at he
      cases empty with
      | true => exact absurd he (by simp)
      | false => exact .inr ⟨rfl, (Option.some.inj he).symm⟩
    · rw [Function.update_of_ne hk] at he
      exact .inl ⟨hk, he⟩
  refine ⟨h.names, h.originKeys, h.advertisedKeys, fun he => ?_, fun he hr => ?_, fun he => ?_, fun he hsel => ?_, hfib⟩
  · obtain ⟨-, he⟩ | ⟨rfl, -⟩ := hcases he
    · exact h.entryKeys he
    · exact ⟨hc, hl⟩
  · obtain ⟨-, he⟩ | ⟨rfl, rfl⟩ := hcases he
    · exact h.routes he hr
    · obtain ⟨r, hr', -⟩ := haged _ _ hr
      exact hreg _ _ hr'
  · obtain ⟨-, he⟩ | ⟨rfl, rfl⟩ := hcases he
    · exact h.choice he
    · exact hchoice
  · obtain ⟨-, he⟩ | ⟨rfl, rfl⟩ := hcases he
    · exact h.once he hsel
    · dsimp only at hsel ⊢
      rw [hsel, Bool.or_true]

/-- What a map holds after a key was taken out, it held before under another key. -/
theorem of_update_none {α β : Type} [DecidableEq α] {f : α → Option β} {a b : α} {y : β} (h : Function.update f a none b = some y) :
    b ≠ a ∧ f b = some y := by
  by_cases hb : b = a
  · rw [hb, Function.update_self] at h
    cases h
  · rw [Function.update_of_ne hb] at h
    exact ⟨hb, h⟩

/-- The routes of the entry of a key are of registered neighbors, and so they are with a route of another one. -/
theorem registered_update (h : v.Sound) {m : NeighborRef} {r r' : Offer} (hreg : v.Registered n)
    (hr : Function.update (v.entryOf key).routes n (some r) m = some r') : v.Registered m := by
  by_cases hm : m = n
  · rwa [hm]
  · rw [Function.update_of_ne hm, entryOf] at hr
    cases he : v.entries key with
    | none => rw [he] at hr; exact absurd hr (by simp)
    | some e =>
      rw [he] at hr
      exact h.routes he hr

/-- The distance recorded with the cost of a route is one the route betters, if it bettered the one before. -/
theorem better_observed {d : Option Distance} {r : Offer} {id : RouterID} {cost : UInt16} (hlt : r.metric < cost)
    (hd : ∀ d0, d = some d0 → d0.better r.seqno r.metric = true) :
    (observed d ⟨id, r.seqno, cost⟩ now).better r.seqno r.metric = true := by
  have hown : ∀ gc, (⟨r.seqno, cost, gc⟩ : Distance).better r.seqno r.metric = true := by simp [Distance.better, hlt]
  unfold observed
  split
  · exact hown _
  · next d0 =>
    split
    · exact hown _
    · exact hd d0 rfl

theorem sound_tell (h : v.Sound) {adv : Advertisement} (hspeaks : v.Speaks n key adv) :
    ({ v with
      sources := Function.update v.sources ⟨key, adv.routerID⟩ (some (observed (v.sources ⟨key, adv.routerID⟩) adv now))
      advertised := Function.update v.advertised n (insert key (v.advertised n)) } : Node).Sound := by
  refine sound_frame h rfl rfl rfl rfl rfl rfl (advertised_insert h (hspeaks.canonical h)) fun {k e} he => ?_
  obtain hnone | ⟨m, r, hm, hr, hfin, hid, hseq, hlt, hc, hd⟩ := h.choice he
  · exact .inl hnone
  refine .inr ⟨m, r, hm, hr, hfin, hid, hseq, hlt, hc, fun d hd' => ?_⟩
  dsimp only at hd'
  by_cases hidx : (⟨k, r.routerID⟩ : SourceKey) = ⟨key, adv.routerID⟩
  · -- the distance just recorded is the selected route's own, or one it already bettered
    rw [hidx, Function.update_self, Option.some.injEq] at hd'
    rw [hidx] at hd
    obtain ⟨rfl, -⟩ := SourceKey.mk.inj hidx
    cases hspeaks with
    | origin hor => exact absurd hor (h.entryKeys he).2
    | transit _ _ hentry _ _ =>
      obtain rfl := Option.some.inj (hentry.symm.trans he)
      rw [← hd', hseq]
      exact better_observed hlt hd
  · rw [Function.update_of_ne hidx] at hd'
    exact hd d hd'

theorem sound_retract (h : v.Sound) (n : NeighborRef) (key : RouteKey) :
    ({ v with advertised := Function.update v.advertised n (v.advertised n \ {key}) } : Node).Sound := by
  refine sound_frame h rfl rfl rfl rfl rfl rfl (fun {m k} hk => ?_) h.choice
  dsimp only at hk
  by_cases hm : m = n
  · rw [hm, Function.update_self] at hk
    exact h.advertisedKeys hk.1
  · rw [Function.update_of_ne hm] at hk
    exact h.advertisedKeys hk

theorem sound_adopt (h : v.Sound) (hkey : key.Canonical) :
    ({ v with
      originate := insert key v.originate, entries := Function.update v.entries key none
      fib := v.fib.set key.source key.dest .unreachable } : Node).Sound := by
  refine ⟨h.names, fun hk => ?_, h.advertisedKeys, fun he => ?_, fun he hr => h.routes (of_update_none he).2 hr,
    fun he => h.choice (of_update_none he).2, fun he => h.once (of_update_none he).2, ?_⟩
  · obtain rfl | hk := hk
    · exact hkey
    · exact h.originKeys hk
  · obtain ⟨hne, he⟩ := of_update_none he
    obtain ⟨hc, hl⟩ := h.entryKeys he
    exact ⟨hc, fun hk => hk.elim hne hl⟩
  · convert holds_set h.fib hkey .unreachable using 1
    funext k
    by_cases hk : k = key
    · subst hk
      simp [forwarding]
    · rw [Function.update_of_ne hk]
      exact forwarding_eq_at (by simp [hk]) (Function.update_of_ne hk _ _) rfl

theorem sound_disown (h : v.Sound) (hkey : key ∈ v.originate) :
    ({ v with originate := v.originate \ {key}, fib := v.fib.remove key.source key.dest } : Node).Sound := by
  have hnone : v.entries key = none := by
    rw [Option.eq_none_iff_forall_ne_some]
    exact fun e he => (h.entryKeys he).2 hkey
  refine ⟨h.names, fun hk => h.originKeys hk.1, h.advertisedKeys, fun he => ?_, h.routes, h.choice, h.once, ?_⟩
  · obtain ⟨hc, hl⟩ := h.entryKeys he
    exact ⟨hc, fun hk => hl hk.1⟩
  · convert holds_remove h.fib (h.originKeys hkey) using 1
    funext k
    by_cases hk : k = key
    · subst hk
      simp [forwarding, hnone]
    · rw [Function.update_of_ne hk]
      exact forwarding_eq_at (by simp [hk]) rfl rfl

section

variable {p : Peer} (h : v.Sound) (hgone : ∀ old, v.neighbors p.id = some old → ∀ key e, v.entries key = some e → e.routes old = none)

include h hgone

/-- A stored route's neighbor is not the fresh one, and its registration is not the one replaced. -/
theorem kept_of_register {e : NodeEntry} {n : NeighborRef} {r : Offer} (he : v.entries key = some e) (hr : e.routes n = some r) :
    n ≠ v.fresh ∧ (v.peer n).id ≠ p.id := by
  have hreg := h.routes he hr
  refine ⟨(h.names hreg).2.ne, fun hid => ?_⟩
  rw [Registered, hid] at hreg
  rw [hgone n hreg key e he] at hr
  exact absurd hr (by simp)

/-- Registering a peer under a fresh reference, once no route of the neighbor it replaces is stored, keeps the invariants. -/
theorem sound_register : ({ v with
    neighbors := Function.update v.neighbors p.id (some v.fresh), peer := Function.update v.peer v.fresh p
    advertised := Function.update v.advertised v.fresh ∅, fresh := v.fresh + 1 } : Node).Sound := by
  refine ⟨fun {id n} hid => ?_, h.originKeys, fun {n key} hk => ?_, h.entryKeys, fun he hr => ?_, h.choice, h.once, ?_⟩
  · dsimp only at hid ⊢
    by_cases hp : id = p.id
    · rw [hp, Function.update_self, Option.some.injEq] at hid
      rw [← hid, Function.update_self]
      exact ⟨hp.symm, Nat.lt_succ_self _⟩
    · rw [Function.update_of_ne hp] at hid
      obtain ⟨hpid, hlt⟩ := h.names hid
      rw [Function.update_of_ne hlt.ne]
      exact ⟨hpid, Nat.lt_succ_of_lt hlt⟩
  · dsimp only at hk
    by_cases hn : n = v.fresh
    · rw [hn, Function.update_self] at hk
      exact absurd hk (by simp)
    · rw [Function.update_of_ne hn] at hk
      exact h.advertisedKeys hk
  · obtain ⟨hne, hid⟩ := kept_of_register h hgone he hr
    rw [Registered]
    dsimp only
    rw [Function.update_of_ne hne, Function.update_of_ne hid]
    exact h.routes he hr
  · -- the neighbor of a selection has a route, so it is not the fresh one
    convert h.fib using 1
    funext k
    simp only [forwarding]
    cases he : v.entries k with
    | none => rfl
    | some e =>
      dsimp only
      obtain hnone | ⟨n, r, hn, hr, -⟩ := h.choice he
      · rw [hnone]
      · rw [hn]
        dsimp only
        rw [Function.update_of_ne (kept_of_register h hgone he hr).1]

end

theorem sound_unregister (h : v.Sound) (hreg : v.Registered n) (hgone : ∀ key e, v.entries key = some e → e.routes n = none) :
    ({ v with neighbors := Function.update v.neighbors (v.peer n).id none } : Node).Sound := by
  refine ⟨fun hid => h.names (of_update_none hid).2, h.originKeys, h.advertisedKeys, h.entryKeys, fun {key e m r} he hr => ?_,
    h.choice, h.once, h.fib⟩
  have hm := h.routes he hr
  have hne : (v.peer m).id ≠ (v.peer n).id := by
    intro hid
    rw [Registered, hid, hreg, Option.some.injEq] at hm
    rw [← hm, hgone key e he] at hr
    exact absurd hr (by simp)
  rw [Registered]
  dsimp only
  rw [Function.update_of_ne hne]
  exact hm

end SoundAux

open SoundAux

/-- Every step of a node keeps its invariants. -/
theorem sound_step {now : Time} {v' : Node} {effect : Option Effect} (hs : Step now v effect v') (h : v.Sound) : v'.Sound := by
  cases hs with
  | weaken hentry hweak hsettles =>
    obtain ⟨hc, hl⟩ := h.entryKeys hentry
    refine sound_settles h hc hl (fun n r hr => ?_) hsettles
    obtain ⟨r', hr', -⟩ := hweak n r hr
    exact h.routes hentry hr'
  | learn hreg hkey hlocal hid hlearned hsettles =>
    exact sound_settles h hkey hlocal (fun m r' hr => registered_update h hreg hr) hsettles
  | tell hspeaks hfinite => exact sound_tell h hspeaks
  | @retract n key => exact sound_retract h n key
  | restore n hkey => exact sound_frame h rfl rfl rfl rfl rfl rfl (advertised_insert h hkey) h.choice
  | collect hd hgc =>
    exact sound_frame h rfl rfl rfl rfl rfl rfl h.advertisedKeys
      fun he => choice_mono (fun i d hi => (of_update_none hi).2) (h.choice he)
  | raise => exact sound_frame h rfl rfl rfl rfl rfl rfl h.advertisedKeys h.choice
  | adopt hkey => exact sound_adopt h hkey
  | disown hkey => exact sound_disown h hkey
  | register p hgone => exact sound_register h hgone
  | unregister hreg hgone => exact sound_unregister h hreg hgone

/-- Every run of a node keeps its invariants. -/
theorem sound_run {now : Time} {v' : Node} {effects : List Effect} (h : Run now v effects v') : v.Sound → v'.Sound :=
  h.preserves fun hs hp => sound_step hs hp

end Node
end RanetLite.Babel
