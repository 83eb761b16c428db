import Mathlib.Data.Prod.Lex
import Mathlib.Data.String.Basic
import RanetLite.Lemmas.Selection

/-!
# What `selectRoute` chooses

The rule of selection, stated over the usable routes of an entry and not over the order they are visited in: the least by cost and
peer id, unless the route selected before is still usable and is not beaten on both metrics. The loop follows it in every order.
-/

namespace RanetLite.Babel

/-- The order of candidates: by cost, then by peer id. -/
def Candidate.rank (c : Candidate) (nb : NeighborHeap) : ℕ ×ₗ String := toLex (c.cost.toNat, (nb c.neighbor).peer.id)

/-- The rule of selection over the usable routes, given the next hop selected so far. -/
def Chooses (nb : NeighborHeap) (usable : Candidate → Prop) (incumbent chosen : Option NeighborRef) : Prop :=
  ((∀ c, ¬ usable c) ∧ chosen = none) ∨
  ∃ best, usable best ∧ (∀ c, usable c → c ≠ best → best.rank nb < c.rank nb) ∧
    ((∀ i, usable i → incumbent ≠ some i.neighbor) ∧ chosen = some best.neighbor ∨
      ∃ i, usable i ∧ incumbent = some i.neighbor ∧
        chosen = some (if best.cost < i.cost ∧ best.smoothed < i.smoothed then best.neighbor else i.neighbor))

namespace RouteTable

/-- A candidate is usable when the entry holds the route of its neighbor, and that route has a finite cost and is feasible. -/
def Usable (rt : RouteTable) (nb : NeighborHeap) (key : RouteKey) (entry : KeyEntry) (now : Time) (c : Candidate) : Prop :=
  (entry.routes.lookup c.neighbor).bind (rt.candidate nb key now c.neighbor) = some c

/-- The next hop of a key after `selectRoute` has run on its entry. -/
def chosen (rt : RouteTable) (nb : NeighborHeap) (key : RouteKey) (entry : KeyEntry) (now : Time) : Option NeighborRef :=
  ((rt.selectRoute nb key entry now).entries.lookup key).bind (·.selected.neighbor)

end RouteTable

namespace ChoiceAux

open RouteTable RouteTable.SelectAux

variable {rt : RouteTable} {nb : NeighborHeap} {key : RouteKey} {entry : KeyEntry} {now : Time} {c : Candidate}

theorem prefer_eq (b c : Candidate) : prefer nb (some b) c = if c.rank nb < b.rank nb then some c else some b := by
  have hiff : (c.cost < b.cost ∨ (c.cost = b.cost ∧ (nb c.neighbor).peer.id < (nb b.neighbor).peer.id)) ↔
      c.rank nb < b.rank nb := by
    rw [Candidate.rank, Candidate.rank, Prod.Lex.toLex_lt_toLex, UInt16.lt_iff_toNat_lt, UInt16.toNat_inj]
  simp only [prefer, hiff]

/-- The scan keeps the first of the least. -/
theorem foldl_prefer_le {l : List Candidate} : ∀ {b : Candidate}, ∃ r, l.foldl (prefer nb) (some b) = some r ∧
    r.rank nb ≤ b.rank nb ∧ ∀ c ∈ l, r.rank nb ≤ c.rank nb := by
  induction l with
  | nil => exact fun {b} => ⟨b, rfl, le_refl _, by simp⟩
  | cons x rest ih =>
    intro b
    rw [List.foldl_cons, prefer_eq]
    split
    · next hlt =>
      obtain ⟨r, hr, hx, hrest⟩ := @ih x
      exact ⟨r, hr, hx.trans hlt.le, List.forall_mem_cons.2 ⟨hx, hrest⟩⟩
    · next hge =>
      obtain ⟨r, hr, hb, hrest⟩ := @ih b
      exact ⟨r, hr, hb, List.forall_mem_cons.2 ⟨hb.trans (not_lt.1 hge), hrest⟩⟩

theorem foldl_prefer_none {l : List Candidate} :
    (l = [] ∧ l.foldl (prefer nb) none = none) ∨
    ∃ r ∈ l, l.foldl (prefer nb) none = some r ∧ ∀ c ∈ l, r.rank nb ≤ c.rank nb := by
  cases l with
  | nil => exact .inl ⟨rfl, rfl⟩
  | cons x rest =>
    obtain ⟨r, hr, hx, hrest⟩ := @foldl_prefer_le nb rest x
    have hmem : r ∈ x :: rest := by
      rcases foldl_prefer_mem hr with hb | hb
      · exact Option.some.inj hb ▸ List.mem_cons_self
      · exact List.mem_cons_of_mem _ hb
    exact .inr ⟨r, hmem, hr, List.forall_mem_cons.2 ⟨hx, hrest⟩⟩

theorem candidate_neighbor {n : NeighborRef} {r : RouteInfo} (h : rt.candidate nb key now n r = some c) : c.neighbor = n := by
  obtain ⟨r', -, hc⟩ := Option.bind_eq_some_iff.1 h
  dsimp only at hc
  split_ifs at hc
  rw [← Option.some.inj hc]

/-- The candidates the loop meets are the usable ones, whatever the order. -/
theorem mem_candidates_iff : c ∈ rt.candidates nb key now entry.routes entry.routes.keys ↔ rt.Usable nb key entry now c := by
  constructor
  · intro h
    obtain ⟨n, -, hn⟩ := List.mem_filterMap.1 h
    obtain ⟨r, hr, hc⟩ := Option.bind_eq_some_iff.1 hn
    obtain rfl := candidate_neighbor hc
    exact hn
  · intro h
    obtain ⟨r, hr, -⟩ := Option.bind_eq_some_iff.1 h
    exact List.mem_filterMap.2 ⟨c.neighbor, AList.mem_keys.1 (AList.lookup_isSome.1 (by rw [hr]; rfl)), h⟩

theorem usable_unique {d : Candidate} (hc : rt.Usable nb key entry now c) (hd : rt.Usable nb key entry now d)
    (hn : c.neighbor = d.neighbor) : c = d := by
  unfold Usable at hc hd
  rw [hn, hd] at hc
  exact (Option.some.inj hc).symm

theorem usable_mem_keys (h : rt.Usable nb key entry now c) : c.neighbor ∈ entry.routes.keys := by
  obtain ⟨r, hr, -⟩ := Option.bind_eq_some_iff.1 h
  exact AList.mem_keys.1 (AList.lookup_isSome.1 (by rw [hr]; rfl))

/-- The incumbent of the scan is the usable route of the next hop selected so far. -/
theorem foldl_incumbent {selected : Option NeighborRef} {l : List Candidate}
    (hl : ∀ c ∈ l, ∀ d ∈ l, c.neighbor = d.neighbor → c = d) :
    ((∀ i ∈ l, selected ≠ some i.neighbor) ∧
      l.foldl (fun i c => if selected = some c.neighbor then some c else i) none = none) ∨
    ∃ i ∈ l, selected = some i.neighbor ∧
      l.foldl (fun i c => if selected = some c.neighbor then some c else i) none = some i := by
  have hkeep : ∀ (l' : List Candidate) (acc : Option Candidate), (∀ i ∈ l', selected ≠ some i.neighbor) →
      l'.foldl (fun i c => if selected = some c.neighbor then some c else i) acc = acc := by
    intro l'
    induction l' with
    | nil => exact fun acc _ => rfl
    | cons x rest ih =>
      intro acc hx
      rw [List.foldl_cons, if_neg (hx x List.mem_cons_self)]
      exact ih acc fun i hi => hx i (List.mem_cons_of_mem _ hi)
  by_cases hnone : ∀ i ∈ l, selected ≠ some i.neighbor
  · exact .inl ⟨hnone, hkeep l none hnone⟩
  · push Not at hnone
    obtain ⟨i, hi, hsel⟩ := hnone
    refine .inr ⟨i, hi, hsel, ?_⟩
    -- every hit of the fold is this one candidate, and there is a hit
    have hhit : ∀ (l' : List Candidate) (acc : Option Candidate), (∀ c ∈ l', c ∈ l) → acc = some i ∨ i ∈ l' →
        l'.foldl (fun i c => if selected = some c.neighbor then some c else i) acc = some i := by
      intro l'
      induction l' with
      | nil => intro acc _ h; exact h.resolve_right List.not_mem_nil
      | cons x rest ih =>
        intro acc hsub h
        rw [List.foldl_cons]
        refine ih _ (fun c hc => hsub c (List.mem_cons_of_mem _ hc)) ?_
        by_cases hx : selected = some x.neighbor
        · have hxi : x = i := hl x (hsub x List.mem_cons_self) i hi (Option.some.inj (hx.symm.trans hsel))
          exact .inl (by rw [if_pos hx, hxi])
        · rw [if_neg hx]
          rcases h with h | h
          · exact .inl h
          · rcases List.mem_cons.1 h with rfl | h
            · exact absurd hsel hx
            · exact .inr h
    exact hhit l none (fun c hc => hc) (.inr hi)

/-- The next hop stored is the one the scan chose. -/
theorem chosen_eq : rt.chosen nb key entry now = ((rt.scan nb key entry now).choose).map (·.neighbor) := by
  obtain ⟨-, hentries, -⟩ := selectRoute_effect rt nb key entry now
  unfold chosen
  rw [hentries]
  by_cases hempty : (rt.scan nb key entry now).routes.keys.isEmpty = true
  · rw [if_pos hempty, AList.lookup_erase]
    cases hchoice : (rt.scan nb key entry now).choose with
    | none => rfl
    | some c =>
      -- a chosen route is still in the entry
      obtain ⟨r, r', hr, hp, -⟩ := mem_candidates (choose_mem hchoice)
      have hlook := @scan_lookup rt nb key now entry c.neighbor
      rw [hr, Option.bind_some, hp] at hlook
      have hmem : c.neighbor ∈ (rt.scan nb key entry now).routes.keys :=
        AList.mem_keys.1 (AList.lookup_isSome.1 (by rw [hlook]; rfl))
      rw [List.isEmpty_iff.1 hempty] at hmem
      exact absurd hmem List.not_mem_nil
  · rw [if_neg hempty, AList.lookup_insert, Option.bind_some]
    unfold Scan.select selectEntry
    cases (rt.scan nb key entry now).choose with
    | none => rfl
    | some c => rfl

/-- The loop follows the rule. -/
theorem chooses (hids : ∀ n ∈ entry.routes.keys, ∀ m ∈ entry.routes.keys, (nb n).peer.id = (nb m).peer.id → n = m) :
    Chooses nb (rt.Usable nb key entry now) entry.selected.neighbor (rt.chosen nb key entry now) := by
  obtain ⟨-, hbest, hinc⟩ := foldl_scanRoute rt nb key now entry.selected.neighbor entry.routes.keys_nodup
    { routes := entry.routes, nextExpiryAt := rt.nextExpiryAt }
  have hscan : (rt.scan nb key entry now).best = (rt.candidates nb key now entry.routes entry.routes.keys).foldl (prefer nb) none :=
    hbest
  have hscan' : (rt.scan nb key entry now).incumbent = (rt.candidates nb key now entry.routes entry.routes.keys).foldl
      (fun i c => if entry.selected.neighbor = some c.neighbor then some c else i) none := hinc
  have huniq : ∀ c ∈ rt.candidates nb key now entry.routes entry.routes.keys,
      ∀ d ∈ rt.candidates nb key now entry.routes entry.routes.keys, c.neighbor = d.neighbor → c = d :=
    fun c hc d hd => usable_unique (mem_candidates_iff.1 hc) (mem_candidates_iff.1 hd)
  rw [chosen_eq]
  unfold Scan.choose
  rw [hscan, hscan']
  rcases @foldl_prefer_none nb (rt.candidates nb key now entry.routes entry.routes.keys) with ⟨hnil, hnone⟩ | ⟨best, hmem, hr, hle⟩
  · rw [hnone]
    refine .inl ⟨fun c hc => ?_, rfl⟩
    have hc' := mem_candidates_iff.2 hc
    rw [hnil] at hc'
    exact absurd hc' List.not_mem_nil
  · rw [hr]
    have hstrict : ∀ c, rt.Usable nb key entry now c → c ≠ best → best.rank nb < c.rank nb := by
      intro c hc hne
      refine lt_of_le_of_ne (hle c (mem_candidates_iff.2 hc)) fun heq => hne ?_
      have hid : (nb c.neighbor).peer.id = (nb best.neighbor).peer.id := (Prod.mk.inj (toLex.injective heq)).2.symm
      exact usable_unique hc (mem_candidates_iff.1 hmem)
        (hids _ (usable_mem_keys hc) _ (usable_mem_keys (mem_candidates_iff.1 hmem)) hid)
    refine .inr ⟨best, mem_candidates_iff.1 hmem, hstrict, ?_⟩
    rcases foldl_incumbent huniq with ⟨hnone, hi⟩ | ⟨i, himem, hsel, hi⟩
    · rw [hi]
      exact .inl ⟨fun i hu => hnone i (mem_candidates_iff.2 hu), rfl⟩
    · rw [hi]
      refine .inr ⟨i, mem_candidates_iff.1 himem, hsel, ?_⟩
      dsimp only
      by_cases hsame : best.neighbor = i.neighbor
      · rw [if_pos hsame, hsame, ite_self, Option.map_some, hsame]
      · rw [if_neg hsame]
        split <;> rfl

/-- The rule settles the choice. -/
theorem Chooses.unique {usable : Candidate → Prop} {incumbent a b : Option NeighborRef}
    (huniq : ∀ c, usable c → ∀ d, usable d → c.neighbor = d.neighbor → c = d)
    (ha : Chooses nb usable incumbent a) (hb : Chooses nb usable incumbent b) : a = b := by
  rcases ha with ⟨hnone, rfl⟩ | ⟨best, hbest, hleast, ha⟩
  · rcases hb with ⟨-, rfl⟩ | ⟨best, hbest, -⟩
    · rfl
    · exact absurd hbest (hnone best)
  · rcases hb with ⟨hnone, -⟩ | ⟨best', hbest', hleast', hb⟩
    · exact absurd hbest (hnone best)
    · obtain rfl : best' = best := by
        by_contra hne
        exact lt_asymm (hleast best' hbest' hne) (hleast' best hbest (Ne.symm hne))
      rcases ha with ⟨hnone, rfl⟩ | ⟨i, hi, hsel, rfl⟩
      · rcases hb with ⟨-, rfl⟩ | ⟨i, hi, hsel, -⟩
        · rfl
        · exact absurd hsel (hnone i hi)
      · rcases hb with ⟨hnone, -⟩ | ⟨j, hj, hsel', rfl⟩
        · exact absurd hsel (hnone i hi)
        · obtain rfl := huniq i hi j hj (Option.some.inj (hsel.symm.trans hsel'))
          rfl

end ChoiceAux

open ChoiceAux

/-- The next hop `selectRoute` chooses does not depend on the order of the entry's routes, and is the one the rule names: the least
usable route by cost and peer id, or the next hop selected so far while it is usable and not beaten in cost and smoothed metric at
once. -/
theorem selection_exact (rt : RouteTable) (nb : NeighborHeap) (key : RouteKey) (entry : KeyEntry) (now : Time)
    (hids : ∀ n ∈ entry.routes.keys, ∀ m ∈ entry.routes.keys, (nb n).peer.id = (nb m).peer.id → n = m) :
    Chooses nb (rt.Usable nb key entry now) entry.selected.neighbor (rt.chosen nb key entry now) ∧
    ∀ entry' : KeyEntry, entry'.selected = entry.selected → entry'.routes.entries.Perm entry.routes.entries →
      rt.chosen nb key entry' now = rt.chosen nb key entry now := by
  refine ⟨chooses hids, fun entry' hselected hperm => ?_⟩
  have hlook : ∀ n, entry'.routes.lookup n = entry.routes.lookup n := fun n => AList.perm_lookup hperm
  have hkeys : ∀ n, n ∈ entry'.routes.keys ↔ n ∈ entry.routes.keys := fun n => (hperm.map Sigma.fst).mem_iff
  have husable : rt.Usable nb key entry' now = rt.Usable nb key entry now := by
    funext c
    simp only [RouteTable.Usable, hlook]
  have hchooses := @chooses rt nb key entry' now fun n hn m hm => hids n ((hkeys n).1 hn) m ((hkeys m).1 hm)
  rw [husable, hselected] at hchooses
  exact Chooses.unique (fun c hc d hd => usable_unique hc hd) hchooses (chooses hids)

/-- Two live neighbors that report the same cost, the first with the smaller peer id. -/
def twoNeighbors : NeighborHeap := fun n =>
  { peer := ⟨n, if n = 0 then "a" else "b"⟩, alive := true, lastHelloTime := second, helloInterval := 4 * second, reportedCost := 96
    haveReportedCost := true, ihuExpiry := 10 * second }

/-- An entry that holds one route of each, the second selected. -/
def twoRoutes : KeyEntry :=
  { routes := ((∅ : GoMap NeighborRef RouteInfo).insert 1 { rxMetric := 10, hold := second, expiresAt := 9 * second }).insert 0
      { rxMetric := 10, hold := second, expiresAt := 9 * second }
    selected := { neighbor := some 1, cost := 106 } }

/-- At equal cost the incumbent is kept although the other peer id is smaller, whichever route is visited first. -/
theorem selection_exact_incumbent :
    let rt : RouteTable := { tau := 12 * second, trigger := 96, cost := defaultCostParams, damp := fun cost _ _ _ => cost.toNat }
    let key : RouteKey := ⟨.none, .none⟩
    rt.chosen twoNeighbors key twoRoutes (2 * second) = some 1 ∧
    Chooses twoNeighbors (rt.Usable twoNeighbors key twoRoutes (2 * second)) (some 1)
      (rt.chosen twoNeighbors key twoRoutes (2 * second)) ∧
    ∀ entry' : KeyEntry, entry'.selected = twoRoutes.selected → entry'.routes.entries.Perm twoRoutes.routes.entries →
      rt.chosen twoNeighbors key entry' (2 * second) = rt.chosen twoNeighbors key twoRoutes (2 * second) := by
  intro rt key
  obtain ⟨hchooses, horder⟩ := selection_exact rt twoNeighbors key twoRoutes (2 * second) (by decide)
  exact ⟨by decide +kernel, hchooses, horder⟩

end RanetLite.Babel
