import RanetLite.Lemmas.SadrSources
import RanetLite.Lemmas.SadrTrie
import RanetLite.Sadr.Linear

/-!
# The source-specific table refines its linear model

`Refines` relates a table to a list of live routes: the tries keep their shape, every destination's entries their order, and
an entry is in the table exactly when its route is live. Every call keeps the relation (`refines_apply`), and related tables and
lists answer every lookup alike (`lookup_of_refines`).
-/

namespace RanetLite.Sadr

open Netip BitPrefix TrieAux SourcesAux

variable {V : Type} {t : Table V} {routes : Linear V}

/-- The trie of the family of an address. -/
def Table.root (t : Table V) (a : Addr) : Trie V := if a.is4 then t.ipv4 else t.ipv6

/-- The entries a table holds for a destination. -/
def Table.entries (t : Table V) (dst : Prefix) : List (SrcEntry V) := (t.root dst.ip).find dst.ip.as16 dst.len16

/-- The tries have their shape, every destination keeps its entries in order, and no IPv4 destination is shorter than the
mapped form allows. -/
structure Table.Wf (t : Table V) : Prop where
  shape4 : t.ipv4.Shape
  shape6 : t.ipv6.Shape
  ordered4 : ∀ a l, Ordered (t.ipv4.find a l)
  ordered6 : ∀ a l, Ordered (t.ipv6.find a l)
  long4 : ∀ a l, l < 96 → t.ipv4.find a l = []

/-- A table and a list of live routes hold the same routes. -/
structure Refines (t : Table V) (routes : Linear V) : Prop where
  wf : t.Wf
  canonical : ∀ r ∈ routes, r.destination.isValid = true ∧ r.destination.masked = r.destination
  live : ∀ dst : Prefix, dst.isValid = true → ∀ e, e ∈ t.entries dst ↔ ⟨e.src, dst.masked, e.value⟩ ∈ routes

namespace RefineAux

variable {src dst : Prefix} {srcs : List (SrcEntry V)}

/-- Setting a source replaces it and keeps the others. -/
theorem mem_setEntry [DecidableEq V] {value : V} {e : SrcEntry V} :
    e ∈ setEntry src value srcs ↔ e = ⟨src, value⟩ ∨ e ∈ srcs ∧ e.src ≠ src := by
  unfold setEntry
  split
  · next h =>
    obtain ⟨x, hx, hxs⟩ := List.any_eq_true.mp h
    simp only [List.mem_map]
    constructor
    · rintro ⟨y, hy, rfl⟩
      split
      · next hys => exact .inl (by rw [← hys])
      · next hys => exact .inr ⟨hy, hys⟩
    · rintro (rfl | ⟨he, hne⟩)
      · have hxs' : x.src = src := by simpa using hxs
        exact ⟨x, hx, by rw [if_pos hxs', ← hxs']⟩
      · exact ⟨e, he, if_neg hne⟩
  · next h =>
    have hne : ∀ x ∈ srcs, x.src ≠ src := by simpa using h
    dsimp only
    rw [List.mem_append, List.mem_cons, or_left_comm, ← List.mem_append, List.takeWhile_append_dropWhile]
    exact or_congr_right ⟨fun he => ⟨he, hne e he⟩, fun he => he.1⟩

/-- Past the first entry that is not longer, none is. -/
theorem not_longer_of_mem_dropWhile (src : Prefix) (hs : srcs.Pairwise (fun e e' => e'.src.bits ≤ e.src.bits)) :
    ∀ e ∈ srcs.dropWhile (fun e => decide (src.bits < e.src.bits)), e.src.bits ≤ src.bits := by
  induction srcs with
  | nil => simp
  | cons x rest ih =>
    rw [List.pairwise_cons] at hs
    intro e he
    rw [List.dropWhile_cons] at he
    split at he
    · exact ih hs.2 e he
    · next hx =>
      have hx' : x.src.bits ≤ src.bits := by simpa using hx
      rcases List.mem_cons.mp he with rfl | he
      · exact hx'
      · exact (hs.1 e he).trans hx'

/-- Setting keeps the order. -/
theorem ordered_setEntry [DecidableEq V] {value : V} (hm : src.masked = src) (ho : Ordered srcs) :
    Ordered (setEntry src value srcs) := by
  have hmasked : ∀ e ∈ setEntry src value srcs, e.src.masked = e.src := by
    intro e he
    obtain rfl | ⟨he, -⟩ := mem_setEntry.mp he
    · exact hm
    · exact ho.masked e he
  by_cases h : srcs.any (fun entry => entry.src = src) = true
  · -- a replacement leaves the sources as they are
    have hsrc : (setEntry src value srcs).map (·.src) = srcs.map (·.src) := by
      rw [setEntry, if_pos h, List.map_map]
      refine List.map_congr_left fun e _ => ?_
      simp only [Function.comp_apply]
      split <;> rfl
    refine ⟨hmasked, hsrc ▸ ho.nodup, ?_⟩
    have hs := ho.sorted
    rw [← List.pairwise_map (f := fun e : SrcEntry V => e.src) (R := fun p q => q.bits ≤ p.bits)] at hs ⊢
    rwa [hsrc]
  · have hne : ∀ x ∈ srcs, x.src ≠ src := by simpa using h
    have heq : setEntry src value srcs = srcs.takeWhile (fun e => decide (src.bits < e.src.bits)) ++
        ⟨src, value⟩ :: srcs.dropWhile (fun e => decide (src.bits < e.src.bits)) := by
      rw [setEntry, if_neg h]
    have hsplit := List.takeWhile_append_dropWhile (p := fun e : SrcEntry V => decide (src.bits < e.src.bits)) (l := srcs)
    refine ⟨hmasked, ?_, ?_⟩
    · rw [heq, (List.perm_middle.map _).nodup_iff, hsplit, List.map_cons, List.nodup_cons]
      refine ⟨fun hmem => ?_, ho.nodup⟩
      obtain ⟨x, hx, hxs⟩ := List.mem_map.mp hmem
      exact hne x hx hxs
    · have hs := ho.sorted
      rw [← hsplit, List.pairwise_append] at hs
      rw [heq, List.pairwise_append, List.pairwise_cons]
      have hlow := not_longer_of_mem_dropWhile src ho.sorted
      refine ⟨hs.1, ⟨hlow, hs.2.1⟩, fun e he e' he' => ?_⟩
      rcases List.mem_cons.mp he' with rfl | he'
      · have : src.bits < e.src.bits := by simpa using List.mem_takeWhile_imp he
        exact this.le
      · exact hs.2.2 e he e' he'

/-- Removing a source keeps the others. -/
theorem mem_removeEntry [DecidableEq V] (ho : Ordered srcs) {e : SrcEntry V} : e ∈ removeEntry src srcs ↔ e ∈ srcs ∧ e.src ≠ src := by
  rw [removeEntry]
  have hn := ho.nodup
  clear ho
  induction srcs with
  | nil => simp
  | cons x rest ih =>
    rw [List.map_cons, List.nodup_cons] at hn
    rw [List.eraseP_cons]
    by_cases hx : x.src = src
    · have hrest : ∀ y ∈ rest, y.src ≠ src := fun y hy hys => hn.1 (List.mem_map.mpr ⟨y, hy, hys.trans hx.symm⟩)
      simp only [hx, decide_true, cond_true, List.mem_cons]
      constructor
      · exact fun he => ⟨.inr he, hrest e he⟩
      · rintro ⟨rfl | he, hne⟩
        · exact absurd hx hne
        · exact he
    · simp only [hx, decide_false, cond_false, List.mem_cons, ih hn.2]
      constructor
      · rintro (rfl | he)
        · exact ⟨.inl rfl, hx⟩
        · exact ⟨.inr he.1, he.2⟩
      · rintro ⟨rfl | he, hne⟩
        · exact .inl rfl
        · exact .inr ⟨he, hne⟩

/-- A valid pair has a valid destination. -/
theorem isValid_of_validPrefixes (h : validPrefixes src dst = true) : dst.isValid = true := by
  rw [validPrefixes, Bool.and_eq_true] at h
  exact h.1

/-- One spelling for the two branches of a change: the edit is at the destination's length on the 128-bit form. -/
theorem change_root (t : Table V) (fn : List (SrcEntry V) → List (SrcEntry V)) (h : validPrefixes src dst = true) (a : Addr) :
    (t.change src dst fn).root a =
      if a.is4 = dst.ip.is4 then edit fn dst.ip.as16 dst.len16 (t.root a) else t.root a := by
  have hv := isValid_of_validPrefixes h
  have hne := Prefix.addr_ne_zero hv
  simp only [Table.change, h, Bool.not_true, Bool.false_eq_true, if_false, Table.root, Prefix.addr, Prefix.len16]
  by_cases ha : a.is4 = true <;> by_cases hd : dst.ip.is4 = true <;> simp [Addr.bitLen_of_ne_zero hne, ha, hd]

/-- A change touches the entries of one destination. -/
theorem entries_change {t : Table V} (hw : t.Wf) (fn : List (SrcEntry V) → List (SrcEntry V)) (h : validPrefixes src dst = true)
    {dst' : Prefix} (hv' : dst'.isValid = true) :
    (t.change src dst fn).entries dst' = if dst'.masked = dst.masked then fn (t.entries dst) else t.entries dst' := by
  have hv := isValid_of_validPrefixes h
  have hshape : (t.root dst'.ip).Shape := by
    unfold Table.root
    split
    · exact hw.shape4
    · exact hw.shape6
  simp only [Table.entries, change_root t fn h, Prefix.masked_eq_masked_iff hv' hv]
  by_cases hfam : dst'.ip.is4 = dst.ip.is4
  · have hbl : dst'.ip.bitLen = dst.ip.bitLen := by
      rw [Addr.bitLen_of_ne_zero (Prefix.addr_ne_zero hv'), Addr.bitLen_of_ne_zero (Prefix.addr_ne_zero hv), hfam]
    have hroot : t.root dst'.ip = t.root dst.ip := by rw [Table.root, Table.root, hfam]
    have hlen : dst'.len16 = dst.len16 ↔ dst'.bits = dst.bits := by
      rw [Prefix.len16, Prefix.len16, hbl, ← Prefix.bits_nonneg hv', ← Prefix.bits_nonneg hv]
      omega
    rw [if_pos hfam, find_edit fn dst.len16_le hshape, hroot]
    refine if_congr ?_ rfl rfl
    rw [hlen]
    constructor
    · rintro ⟨hb, hag⟩
      exact ⟨hbl, hb, by rw [hlen.mpr hb]; exact hag.symm⟩
    · rintro ⟨-, hb, hag⟩
      exact ⟨hb, by rw [← hlen.mpr hb]; exact hag.symm⟩
  · rw [if_neg hfam, if_neg]
    exact fun hk => hfam (Addr.is4_eq_of_bitLen hk.1)

/-- A change that keeps entries ordered keeps the table well-formed. -/
theorem wf_change {t : Table V} (hw : t.Wf) {fn : List (SrcEntry V) → List (SrcEntry V)}
    (hfn : ∀ srcs, Ordered srcs → Ordered (fn srcs)) : (t.change src dst fn).Wf := by
  by_cases h : validPrefixes src dst = true
  · have hedit : ∀ {r : Trie V} {l : Nat}, l ≤ 128 → r.Shape → (∀ a l, Ordered (r.find a l)) →
        ∀ a l', Ordered ((edit fn dst.addr.as16 l r).find a l') := by
      intro r l hl hs ho a l'
      rw [find_edit fn hl hs]
      split
      · exact hfn _ (ho _ _)
      · exact ho _ _
    have hb := dst.bits_toNat_le
    have hbl := dst.ip.bitLen_le
    simp only [Table.change, h, Bool.not_true, Bool.false_eq_true, if_false]
    split
    · next h4 =>
      have h32 : dst.bits.toNat + 96 ≤ 128 := by
        cases hip : dst.ip <;> simp_all [Prefix.addr, Addr.is4, Addr.bitLen]
      refine ⟨shape_edit fn h32 hw.shape4, hw.shape6, hedit h32 hw.shape4 hw.ordered4, hw.ordered6, fun a l hl => ?_⟩
      dsimp only
      rw [find_edit fn h32 hw.shape4, if_neg (by omega), hw.long4 a l hl]
    · have h128 : dst.bits.toNat ≤ 128 := by omega
      exact ⟨hw.shape4, shape_edit fn h128 hw.shape6, hw.ordered4, hedit h128 hw.shape6 hw.ordered6, hw.long4⟩
  · rwa [Table.change, if_pos (by simpa using h)]

/-- Masking the source does not matter. -/
theorem validPrefixes_masked (src dst : Prefix) : validPrefixes src.masked dst = validPrefixes src dst := by
  cases h : src.isValid with
  | true => simp [validPrefixes, Prefix.addr, h, (Prefix.masked_spec h).2.2.1]
  | false => simp [validPrefixes, h]

end RefineAux

open RefineAux

/-- The empty table holds no route. -/
theorem refines_empty : Refines ({} : Table V) [] where
  wf := ⟨.nil, .nil, fun _ _ => .nil, fun _ _ => .nil, fun _ _ _ => rfl⟩
  canonical := by simp
  live := by
    intro dst _ e
    have h : ({} : Table V).root dst.ip = .nil := by
      unfold Table.root
      split <;> rfl
    simp [Table.entries, h]

/-- A valid change that does to one destination's entries what it does to that destination's routes keeps the relation. -/
theorem refines_change {routes' : Linear V} (h : Refines t routes) {src dst : Prefix} {fn : List (SrcEntry V) → List (SrcEntry V)}
    (hv : validPrefixes src dst = true) (hfn : ∀ srcs, Ordered srcs → Ordered (fn srcs))
    (hcanon : ∀ r ∈ routes', r ∈ routes ∨ r.destination = dst.masked)
    (hother : ∀ r : Route V, r.destination ≠ dst.masked → (r ∈ routes' ↔ r ∈ routes))
    (hhere : ∀ e, e ∈ fn (t.entries dst) ↔ (⟨e.src, dst.masked, e.value⟩ : Route V) ∈ routes') :
    Refines (t.change src dst fn) routes' where
  wf := wf_change h.wf hfn
  canonical := by
    intro r hr
    have hdv := isValid_of_validPrefixes hv
    obtain hr | hr := hcanon r hr
    · exact h.canonical r hr
    · rw [hr]
      exact ⟨by simpa using hdv, Prefix.masked_masked dst⟩
  live := by
    intro dst' hv' e
    rw [entries_change h.wf fn hv hv']
    split
    · next heq => rw [heq, hhere]
    · next hne => rw [h.live dst' hv', hother _ hne]

/-- The entries of a destination are ordered. -/
theorem ordered_entries (hw : t.Wf) (dst : Prefix) : Ordered (t.entries dst) := by
  unfold Table.entries Table.root
  split
  · exact hw.ordered4 _ _
  · exact hw.ordered6 _ _

/-- The routes but one. -/
theorem mem_without {src dst : Prefix} {r : Route V} :
    r ∈ Linear.without routes src dst ↔ r ∈ routes ∧ ¬(r.source = src.masked ∧ r.destination = dst.masked) := by
  rw [Linear.without, List.mem_filter, Bool.not_eq_true', decide_eq_false_iff_not]

section Calls

variable [DecidableEq V] {t : Table V} {routes : Linear V}

/-- `Set` refines the list. -/
theorem refines_set (h : Refines t routes) (src dst : Prefix) (value : V) :
    Refines (t.set src dst value) (Linear.apply routes (.set src dst value)) := by
  rw [Table.set, Linear.apply]
  split
  · next hv =>
    have hdv := isValid_of_validPrefixes hv
    refine refines_change h (by rwa [validPrefixes_masked])
      (fun srcs ho => ordered_setEntry (Prefix.masked_masked src) ho) ?_ ?_ ?_
    · intro r hr
      rcases List.mem_cons.mp hr with rfl | hr
      · exact .inr rfl
      · exact .inl (mem_without.mp hr).1
    · intro r hne
      rw [List.mem_cons, mem_without]
      constructor
      · rintro (rfl | hr)
        · exact absurd rfl hne
        · exact hr.1
      · exact fun hr => .inr ⟨hr, fun hk => hne hk.2⟩
    · intro e
      rw [mem_setEntry, List.mem_cons, mem_without, h.live dst hdv]
      cases e
      simp
  · next hv =>
    rwa [Table.change, if_pos (by simpa [validPrefixes_masked] using hv)]

/-- So does `Remove`. -/
theorem refines_remove (h : Refines t routes) (src dst : Prefix) :
    Refines (t.remove src dst) (Linear.apply routes (.remove src dst)) := by
  rw [Table.remove, Linear.apply]
  split
  · next hv =>
    have hdv := isValid_of_validPrefixes hv
    refine refines_change h (by rwa [validPrefixes_masked])
      (fun srcs ho => ho.sublist List.eraseP_sublist) ?_ ?_ ?_
    · exact fun r hr => .inl (mem_without.mp hr).1
    · intro r hne
      rw [mem_without]
      exact ⟨fun hr => hr.1, fun hr => ⟨hr, fun hk => hne hk.2⟩⟩
    · intro e
      rw [mem_removeEntry (ordered_entries h.wf dst), mem_without, h.live dst hdv]
      simp
  · next hv =>
    rwa [Table.change, if_pos (by simpa [validPrefixes_masked] using hv)]

/-- So does `RemoveValue`. -/
theorem refines_removeValue (h : Refines t routes) (value : V) :
    Refines (t.removeValue value) (Linear.apply routes (.removeValue value)) where
  wf := by
    refine ⟨shape_removeValue value h.wf.shape4, shape_removeValue value h.wf.shape6, fun a l => ?_, fun a l => ?_,
      fun a l hl => ?_⟩ <;> dsimp only [Table.removeValue]
    · rw [find_removeValue value h.wf.shape4]
      exact (h.wf.ordered4 a l).sublist List.filter_sublist
    · rw [find_removeValue value h.wf.shape6]
      exact (h.wf.ordered6 a l).sublist List.filter_sublist
    · rw [find_removeValue value h.wf.shape4, h.wf.long4 a l hl, List.filter_nil]
  canonical := fun r hr => h.canonical r (List.mem_of_mem_filter hr)
  live := by
    intro dst hv e
    have hentries : (t.removeValue value).entries dst = (t.entries dst).filter (fun e => e.value ≠ value) := by
      unfold Table.entries Table.root
      split
      · exact find_removeValue value h.wf.shape4 _ _
      · exact find_removeValue value h.wf.shape6 _ _
    rw [hentries, Linear.apply, List.mem_filter, List.mem_filter, h.live dst hv]

/-- Every call keeps the relation. -/
theorem refines_apply (h : Refines t routes) (op : Op V) : Refines (t.apply op) (routes.apply op) := by
  cases op with
  | set src dst value => exact refines_set h src dst value
  | remove src dst => exact refines_remove h src dst
  | removeValue value => exact refines_removeValue h value

/-- Every sequence of calls keeps the relation. -/
theorem refines_foldl (h : Refines t routes) (ops : List (Op V)) :
    Refines (ops.foldl Table.apply t) (ops.foldl Linear.apply routes) := by
  induction ops generalizing t routes with
  | nil => exact h
  | cons op rest ih => exact ih (refines_apply h op)

end Calls

/-- What the linear scan answers: the route that no applying route beats, or that no route applies. -/
structure Best (routes : Linear V) (src dst : Addr) (r : Route V) : Prop where
  mem : r ∈ routes
  applies : r.applies src dst = true
  unbeaten : ∀ r' ∈ routes, r'.applies src dst = true → r'.beats r = false

namespace ScanAux

/-- The longer destination wins, then the longer source. -/
theorem beats_iff {r best : Route V} : r.beats best = true ↔ best.destination.bits < r.destination.bits ∨
    best.destination.bits = r.destination.bits ∧ best.source.bits < r.source.bits := by
  simp [Route.beats]

/-- When a route does not win. -/
theorem not_beats_iff {r best : Route V} : r.beats best = false ↔ r.destination.bits ≤ best.destination.bits ∧
    (best.destination.bits = r.destination.bits → r.source.bits ≤ best.source.bits) := by
  rw [← Bool.not_eq_true, beats_iff]
  omega

/-- The fold of a scan over routes: the best so far is unbeaten by every route seen. -/
theorem foldl_pick (routes : List (Route V)) (best : Option (Route V)) :
    (routes = [] ∧ best = none ∧ routes.foldl Linear.pick best = none) ∨
    ∃ r, routes.foldl Linear.pick best = some r ∧ (r ∈ routes ∨ best = some r) ∧
      (∀ r' ∈ routes, r'.beats r = false) ∧ (∀ b, best = some b → b.beats r = false) := by
  induction routes generalizing best with
  | nil =>
    cases best with
    | none => exact .inl ⟨rfl, rfl, rfl⟩
    | some b =>
      refine .inr ⟨b, rfl, .inr rfl, by simp, fun b' hb' => ?_⟩
      obtain rfl := Option.some.inj hb'
      rw [not_beats_iff]
      omega
  | cons x rest ih =>
    rw [List.foldl_cons]
    obtain ⟨-, hnone, -⟩ | ⟨r, hr, hmem, hrest, hbest⟩ := ih (Linear.pick best x)
    · cases best with
      | none => exact absurd hnone (by simp [Linear.pick])
      | some b =>
        simp only [Linear.pick] at hnone
        split at hnone <;> exact absurd hnone (by simp)
    · refine .inr ⟨r, hr, ?_, ?_, ?_⟩
      · cases best with
        | none =>
          rcases hmem with hmem | hmem
          · exact .inl (List.mem_cons_of_mem _ hmem)
          · exact .inl (List.mem_cons.mpr (.inl (Option.some.inj hmem).symm))
        | some b =>
          simp only [Linear.pick] at hmem
          split at hmem
          · exact hmem.elim (fun h => .inl (List.mem_cons_of_mem _ h))
              (fun h => .inl (List.mem_cons.mpr (.inl (Option.some.inj h).symm)))
          · exact hmem.elim (fun h => .inl (List.mem_cons_of_mem _ h)) .inr
      · intro r' hr'
        rcases List.mem_cons.mp hr' with rfl | hr'
        · cases best with
          | none => exact hbest r' rfl
          | some b =>
            simp only [Linear.pick] at hbest
            split at hbest
            · exact hbest r' rfl
            · next hnb =>
              have := hbest b rfl
              rw [Bool.not_eq_true, not_beats_iff] at hnb
              rw [not_beats_iff] at this ⊢
              omega
        · exact hrest r' hr'
      · rintro b rfl
        simp only [Linear.pick] at hbest
        split at hbest
        · next hb =>
          have := hbest x rfl
          rw [beats_iff] at hb
          rw [not_beats_iff] at this ⊢
          omega
        · exact hbest b rfl

end ScanAux

open ScanAux

/-- The linear scan finds the best applying route, and fails only when none applies. -/
theorem scan_spec (routes : Linear V) (src dst : Addr) :
    (∃ r, Best routes src dst r ∧ routes.lookup src dst = some r.value) ∨
      (∀ r ∈ routes, r.applies src dst = false) ∧ routes.lookup src dst = none := by
  rw [Linear.lookup]
  obtain ⟨hnil, -, hr⟩ | ⟨r, hr, hmem, hrest, -⟩ := foldl_pick (routes.filter fun r => r.applies src dst) none
  · refine .inr ⟨fun r hr => ?_, by rw [hr]; rfl⟩
    simpa using List.filter_eq_nil_iff.mp hnil r hr
  · have hmem' := List.mem_filter.mp (hmem.resolve_right (by simp))
    refine .inl ⟨r, ⟨hmem'.1, hmem'.2, fun r' hr' ha => hrest r' (List.mem_filter.mpr ⟨hr', ha⟩)⟩, by rw [hr]; rfl⟩

namespace LookupAux

variable {t : Table V} {routes : Linear V} {dst : Addr} {r : Route V}

/-- The roots are well-shaped. -/
theorem shape_root (hw : t.Wf) (a : Addr) : (t.root a).Shape := by
  unfold Table.root
  split
  · exact hw.shape4
  · exact hw.shape6

/-- What is found under a root is ordered. -/
theorem ordered_root (hw : t.Wf) (a a' : Addr) (l : Nat) : Ordered ((t.root a).find a'.as16 l) := by
  unfold Table.root
  split
  · exact hw.ordered4 _ _
  · exact hw.ordered6 _ _

/-- The entries on an address's path are the live routes to the address cut at their lengths. -/
theorem mem_path (h : Refines t routes) (hd : dst ≠ .zero) (hz : dst.zone = "") {l : Nat} {e : SrcEntry V}
    (he : e ∈ (t.root dst).find dst.as16 l) :
    ∃ p : Prefix, p.contains dst = true ∧ p.len16 = l ∧ (⟨e.src, p, e.value⟩ : Route V) ∈ routes := by
  have hbl := Addr.bitLen_of_ne_zero hd
  have hlo : 128 - dst.bitLen ≤ l := by
    by_contra hlt
    by_cases h4 : dst.is4 = true
    · rw [Table.root, if_pos h4, h.wf.long4 _ _ (by simp only [h4, if_true] at hbl; omega)] at he
      exact absurd he (by simp)
    · simp only [h4, Bool.false_eq_true, if_false] at hbl
      omega
  have hhi : l ≤ 128 := by
    by_contra hlt
    rw [find_eq_nil_of_length (shape_root h.wf dst) (by omega)] at he
    exact absurd he (by simp)
  have hle := dst.bitLen_le
  obtain ⟨hip, hv, hb⟩ := @prefixFrom_valid dst (l - (128 - dst.bitLen) : Nat) hd hz (by omega) (by omega)
  generalize prefixFrom dst (l - (128 - dst.bitLen) : Nat) = p at hip hv hb
  have hlen : p.len16 = l := by
    rw [Prefix.len16, hb, hip]
    omega
  refine ⟨p.masked, ?_, (Prefix.len16_masked hv).trans hlen, (h.live p hv e).mp ?_⟩
  · have hm : p.masked.bits = p.bits := (Prefix.masked_spec hv).2.1
    have hp : prefixFrom dst p.bits = p := by
      apply Prefix.eq_of_ip
      · rw [hb, (prefixFrom_valid hd hz (by omega) (by omega)).1, hip]
      · have := (@prefixFrom_valid dst p.bits hd hz (by omega) (by omega)).2.2
        simpa [Prefix.bits] using this
    rw [Prefix.contains_iff_eq_masked (by simpa using hv) (Prefix.masked_masked p) hz, hm, hp]
  · rwa [Table.entries, hip, hlen]

/-- A live route to an address is on the address's path. -/
theorem mem_path_of_live (h : Refines t routes) (hr : r ∈ routes) (hc : r.destination.contains dst = true) :
    (⟨r.source, r.value⟩ : SrcEntry V) ∈ (t.root dst).find dst.as16 r.destination.len16 := by
  obtain ⟨hv, hm⟩ := h.canonical r hr
  obtain ⟨-, -, hbl, hag⟩ := Prefix.contains_iff.mp hc
  have he := (h.live r.destination hv ⟨r.source, r.value⟩).mpr (by rwa [hm])
  have hroot : t.root dst = t.root r.destination.ip := by rw [Table.root, Table.root, Addr.is4_eq_of_bitLen hbl]
  rwa [hroot, ← find_congr hag]

/-- A route applies where its source answers. -/
theorem applies_iff {src : Addr} : r.applies src dst = true ↔
    r.destination.contains dst = true ∧ (⟨r.source, r.value⟩ : SrcEntry V).Answers src := by
  simp [Route.applies, SrcEntry.Answers]

/-- Two prefixes of one length that contain one address are equal once masked. -/
theorem masked_unique {p q : Prefix} {a : Addr} (hp : p.contains a = true) (hq : q.contains a = true) (hpm : p.masked = p)
    (hqm : q.masked = q) (hb : p.bits = q.bits) : p = q := by
  obtain ⟨hpv, hz, -⟩ := Prefix.contains_iff.mp hp
  obtain ⟨hqv, -⟩ := Prefix.contains_iff.mp hq
  rw [← (Prefix.contains_iff_eq_masked hpv hpm hz).mp hp, ← (Prefix.contains_iff_eq_masked hqv hqm hz).mp hq, hb]

/-- There is one masked source that restricts nothing. -/
theorem invalid_unique {p q : Prefix} (hp : p.isValid = false) (hpm : p.masked = p) (hqm : q.masked = q)
    (hb : p.bits = q.bits) : p = q := by
  have hq : q.isValid = false := by
    simp only [Prefix.isValid, Prefix.bits, decide_eq_false_iff_not] at hp hb ⊢
    omega
  rw [← hpm, ← hqm, Prefix.masked_of_invalid hp, Prefix.masked_of_invalid hq]

/-- The best route is unique, since no two live routes have one pair of prefixes. -/
theorem best_unique (h : Refines t routes) {src : Addr} {r' : Route V} (hr : Best routes src dst r) (hr' : Best routes src dst r') :
    r.value = r'.value := by
  obtain ⟨hd, hs⟩ := applies_iff.mp hr.applies
  obtain ⟨hd', hs'⟩ := applies_iff.mp hr'.applies
  have h1 := not_beats_iff.mp (hr.unbeaten r' hr'.mem hr'.applies)
  have h2 := not_beats_iff.mp (hr'.unbeaten r hr.mem hr.applies)
  have hdb : r.destination.bits = r'.destination.bits := by omega
  have hsb : r.source.bits = r'.source.bits := by omega
  obtain ⟨hv, hm⟩ := h.canonical r hr.mem
  have hdst : r.destination = r'.destination := masked_unique hd hd' hm (h.canonical r' hr'.mem).2 hdb
  have he := (h.live r.destination hv ⟨r.source, r.value⟩).mpr (by rw [hm]; exact hr.mem)
  have he' := (h.live r.destination hv ⟨r'.source, r'.value⟩).mpr (by rw [hm, hdst]; exact hr'.mem)
  have ho := ordered_entries h.wf r.destination
  have hsm := ho.masked _ he
  have hsm' := ho.masked _ he'
  have hsrc : r.source = r'.source := by
    rcases hs with hs | hs
    · exact invalid_unique hs hsm hsm' hsb
    · rcases hs' with hs' | hs'
      · exact (invalid_unique hs' hsm' hsm hsb.symm).symm
      · exact masked_unique hs hs' hsm hsm' hsb
  have := List.inj_on_of_nodup_map ho.nodup he he' hsrc
  exact congrArg SrcEntry.value this

end LookupAux

open LookupAux

/-- A lookup in the table finds the best applying live route, and fails only when none applies. -/
theorem lookup_spec (h : Refines t routes) {src dst : Addr} (hs : src.zone = "") (hd : dst.zone = "") :
    (∃ r, Best routes src dst r ∧ t.lookup src dst = some r.value) ∨
      (∀ r ∈ routes, r.applies src dst = false) ∧ t.lookup src dst = none := by
  by_cases hzero : dst = .zero
  · refine .inr ⟨fun r _ => Bool.eq_false_iff.mpr fun ha => ?_, by rw [hzero]; rfl⟩
    obtain ⟨hv, -, hbl, -⟩ := Prefix.contains_iff.mp (applies_iff.mp ha).1
    have := Addr.bitLen_of_ne_zero (Prefix.addr_ne_zero hv)
    rw [← hbl, hzero] at this
    split at this <;> exact absurd this (by decide)
  · have hlookup : t.lookup src dst = lookupLoop src dst.as16 (t.root dst) none := by
      simp [Table.lookup, Addr.isValid, hzero, Table.root]
    have ho := ordered_root h.wf dst dst
    rw [hlookup]
    obtain ⟨l, v, hl, hlong, hr⟩ | ⟨hnone, hr⟩ := lookupLoop_spec src dst.as16 (shape_root h.wf dst) none
    · obtain ⟨e, he, hans, hval, hmax⟩ := pickSource_some (ho l) hs hl
      obtain ⟨p, hc, hlen, hlive⟩ := mem_path h hzero hd he
      refine .inl ⟨⟨e.src, p, e.value⟩, ⟨hlive, applies_iff.mpr ⟨hc, hans⟩, fun r' hr' ha => ?_⟩, by rw [hr, ← hval]⟩
      obtain ⟨hc', hans'⟩ := applies_iff.mp ha
      have he' := mem_path_of_live h hr' hc'
      -- a longer destination would have answered, and at the same one the longest source does
      have hle : r'.destination.len16 ≤ l := by
        by_contra hlt
        exact pickSource_none (ho _) hs (hlong _ (by omega)) _ he' hans'
      obtain ⟨hv, -, hbl, -⟩ := Prefix.contains_iff.mp hc
      obtain ⟨hv', -, hbl', -⟩ := Prefix.contains_iff.mp hc'
      have hb := Prefix.bits_nonneg hv
      have hb' := Prefix.bits_nonneg hv'
      rw [Prefix.len16, ← hbl] at hlen
      rw [Prefix.len16, ← hbl'] at hle he'
      rw [not_beats_iff]
      dsimp only
      refine ⟨by omega, fun heq => hmax _ ?_ hans'⟩
      have : r'.destination.bits.toNat + (128 - dst.bitLen) = l := by omega
      rwa [this] at he'
    · refine .inr ⟨fun r hr' => Bool.eq_false_iff.mpr fun ha => ?_, hr⟩
      obtain ⟨hc, hans⟩ := applies_iff.mp ha
      exact pickSource_none (ho _) hs (hnone _) _ (mem_path_of_live h hr' hc) hans

/-- A table and the live routes it holds answer every unzoned pair alike. -/
theorem lookup_of_refines (h : Refines t routes) {src dst : Addr} (hs : src.zone = "") (hd : dst.zone = "") :
    t.lookup src dst = routes.lookup src dst := by
  obtain ⟨r, hbest, hr⟩ | ⟨hnone, hr⟩ := lookup_spec h hs hd
  · obtain ⟨r', hbest', hr'⟩ | ⟨hnone', -⟩ := scan_spec routes src dst
    · rw [hr, hr', best_unique h hbest hbest']
    · exact absurd hbest.applies (by simp [hnone' r hbest.mem])
  · obtain ⟨r', hbest', -⟩ | ⟨-, hr'⟩ := scan_spec routes src dst
    · exact absurd hbest'.applies (by simp [hnone r' hbest'.mem])
    · rw [hr, hr']

/-- After any sequence of calls, a lookup of any unzoned pair returns what the linear scan of the live routes returns: the value
of an applying route that no applying route beats, and nothing exactly when no route applies. -/
theorem table_refines_linear [DecidableEq V] (ops : List (Op V)) {src dst : Addr} (hs : src.zone = "") (hd : dst.zone = "") :
    (Table.run ops).lookup src dst = (Linear.run ops).lookup src dst ∧
      (∀ v, (Table.run ops).lookup src dst = some v → ∃ r, Best (Linear.run ops) src dst r ∧ r.value = v) ∧
      ((Table.run ops).lookup src dst = none ↔ ∀ r ∈ Linear.run ops, r.applies src dst = false) := by
  have href : Refines (Table.run ops) (Linear.run ops) := refines_foldl refines_empty ops
  refine ⟨lookup_of_refines href hs hd, fun v hv => ?_, ?_⟩
  · obtain ⟨r, hbest, hr⟩ | ⟨-, hr⟩ := lookup_spec href hs hd
    · exact ⟨r, hbest, Option.some.inj (hr.symm.trans hv)⟩
    · exact absurd (hr.symm.trans hv) (by simp)
  · obtain ⟨r, hbest, hr⟩ | ⟨hnone, hr⟩ := lookup_spec href hs hd
    · refine ⟨fun h => absurd (hr.symm.trans h) (by simp), fun h => ?_⟩
      exact absurd hbest.applies (by simp [h r hbest.mem])
    · exact ⟨fun _ => hnone, fun _ => hr⟩

/-- `10.0.0.0/8` for every source, and for sources in `10.1.0.0/16` another value. -/
def tenEight : List (Op Nat) :=
  [.set .none (prefixFrom (.v4 0x0a000000#32) 8) 1,
    .set (prefixFrom (.v4 0x0a010000#32) 16) (prefixFrom (.v4 0x0a0a0a0a#32) 8) 2]

theorem table_refines_linear_tenEight : (Linear.run tenEight).lookup (.v4 0x0a010203#32) (.v4 0x0a090909#32) = some 2 ∧
    (Table.run tenEight).lookup (.v4 0x0a010203#32) (.v4 0x0a090909#32) =
      (Linear.run tenEight).lookup (.v4 0x0a010203#32) (.v4 0x0a090909#32) :=
  ⟨by decide +kernel, (table_refines_linear tenEight rfl rfl).1⟩

/-- What a lookup answers depends on the live routes alone, not on the calls that left them. -/
theorem lookup_of_live [DecidableEq V] {ops ops' : List (Op V)} (h : ∀ r, r ∈ Linear.run ops ↔ r ∈ Linear.run ops') {src dst : Addr}
    (hs : src.zone = "") (hd : dst.zone = "") : (Table.run ops).lookup src dst = (Table.run ops').lookup src dst := by
  have href : Refines (Table.run ops) (Linear.run ops) := refines_foldl refines_empty ops
  have href' : Refines (Table.run ops') (Linear.run ops') := refines_foldl refines_empty ops'
  have hsame : Refines (Table.run ops) (Linear.run ops') :=
    ⟨href.wf, href'.canonical, fun dst hv e => (href.live dst hv e).trans (h _)⟩
  rw [lookup_of_refines hsame hs hd, lookup_of_refines href' hs hd]

theorem lookup_of_live_reversed : (Table.run tenEight).lookup (.v4 0x0a010203#32) (.v4 0x0a090909#32) =
    (Table.run tenEight.reverse).lookup (.v4 0x0a010203#32) (.v4 0x0a090909#32) := by
  have hperm : (Linear.run tenEight).Perm (Linear.run tenEight.reverse) := by decide +kernel
  exact lookup_of_live (fun _ => hperm.mem_iff) rfl rfl

end RanetLite.Sadr
