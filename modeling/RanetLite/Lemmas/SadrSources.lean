import Mathlib.Data.List.Find
import Mathlib.Data.List.TakeWhile
import RanetLite.Sadr.Table

/-!
# The sources of one destination

The entries of a node are kept masked, one per source and longest source first (`Ordered`). On such a list the per-length index
answers what the ordered scan answers for the address without its zone (`indexed_eq_scan`), so for an unzoned address a node answers
with its longest matching source and with the match-all entry last (`pickSource_some`, `pickSource_none`).
-/

namespace RanetLite.Sadr

open Netip

variable {V : Type}

/-- The order a node keeps its entries in: masked sources, no source twice, longest first. -/
structure Ordered (srcs : List (SrcEntry V)) : Prop where
  masked : ∀ e ∈ srcs, e.src.masked = e.src
  nodup : (srcs.map (·.src)).Nodup
  sorted : srcs.Pairwise (fun e e' => e'.src.bits ≤ e.src.bits)

/-- An entry answers for an address when its source contains it, or matches everything. -/
def SrcEntry.Answers (e : SrcEntry V) (src : Addr) : Prop := e.src.isValid = false ∨ e.src.contains src = true

theorem Ordered.nil : Ordered ([] : List (SrcEntry V)) := ⟨by simp, by simp, by simp⟩

theorem Ordered.sublist {l l' : List (SrcEntry V)} (h : Ordered l) (hs : l'.Sublist l) : Ordered l' :=
  ⟨fun e he => h.masked e (hs.subset he), h.nodup.sublist (hs.map _), h.sorted.sublist hs⟩

namespace SourcesAux

variable {srcs : List (SrcEntry V)} {src : Addr}

/-- Map assignment over entries of distinct sources finds the entry of a source. -/
theorem groupMap_eq {run : List (SrcEntry V)} (hn : (run.map (·.src)).Nodup) (p : Prefix) :
    groupMap run p = (run.find? (fun e => e.src = p)).map (·.value) := by
  have hfold : ∀ m : Prefix → Option V,
      run.foldl (fun m entry => fun p => if p = entry.src then some entry.value else m p) m p =
        ((run.find? (fun e => e.src = p)).map (·.value)).or (m p) := by
    induction run with
    | nil => intro m; rfl
    | cons e rest ih =>
      intro m
      simp only [List.map_cons, List.nodup_cons] at hn
      rw [List.foldl_cons, ih hn.2]
      by_cases he : e.src = p
      · have hrest : rest.find? (fun e => e.src = p) = none := by
          simp only [List.find?_eq_none, decide_eq_true_eq]
          rintro x hx rfl
          exact hn.1 (List.mem_map.mpr ⟨x, hx, he.symm⟩)
        simp [he, hrest]
      · simp [he, Ne.symm he]
  rw [groupMap, hfold]
  simp

/-- The ordered scan of a node's entries. -/
def scan (srcs : List (SrcEntry V)) (src : Addr) : Option V :=
  (srcs.find? (fun entry => entry.src.isValid && entry.src.contains src)).map (·.value)

theorem scan_append (l l' : List (SrcEntry V)) (src : Addr) : scan (l ++ l') src = (scan l src).or (scan l' src) := by
  rw [scan, List.find?_append, scan, scan]
  cases l.find? _ <;> rfl

/-- A prefix forgets the zone of the address it is built over. -/
theorem prefixFrom_withoutZone (src : Addr) (bits : Int) : prefixFrom src.withoutZone bits = prefixFrom src bits := by
  cases src with
  | zero | v4 => rfl
  | v6 => by_cases h : 0 ≤ bits ∧ bits ≤ 128 <;> simp [prefixFrom, Addr.withoutZone, Addr.bitLen, h]

/-- Within a run of one length the masked lookup is the scan for the address without its zone. -/
theorem groupMap_eq_scan {run : List (SrcEntry V)} {bits : Int} {src : Addr} (ho : Ordered run)
    (hrun : ∀ e ∈ run, e.src.isValid = true ∧ e.src.bits = bits) :
    groupMap run (prefixFrom src bits).masked = scan run src.withoutZone := by
  rw [groupMap_eq ho.nodup, scan, ← prefixFrom_withoutZone]
  congr 1
  refine List.find?_congr fun e he => ?_
  obtain ⟨hv, hb⟩ := hrun e he
  have h := Prefix.contains_iff_eq_masked hv (ho.masked e he) src.zone_withoutZone
  rw [hb] at h
  rw [hv, Bool.true_and, Bool.eq_iff_iff, h, decide_eq_true_eq]
  exact eq_comm

/-- The index, group by group, answers what the scan answers for the address without its zone. -/
theorem groupSrcs_eq_scan (ho : Ordered srcs) :
    (groupSrcs srcs).findSome? (fun group => group.m (prefixFrom src group.bits).masked) = scan srcs src.withoutZone := by
  induction srcs using groupSrcs.induct with
  | case1 => simp [groupSrcs, scan]
  | case2 entry rest hv ih =>
    rw [groupSrcs, if_pos hv, ih (ho.sublist (List.sublist_cons_self _ _))]
    have hv' : entry.src.isValid = false := by simpa using hv
    simp [scan, hv']
  | case3 entry rest hv same ih =>
    have hv' : entry.src.isValid = true := by simpa using hv
    have hsplit : entry :: rest = (entry :: rest.takeWhile same) ++ rest.dropWhile same := by
      rw [List.cons_append, List.takeWhile_append_dropWhile]
    have hrun : ∀ e ∈ entry :: rest.takeWhile same, e.src.isValid = true ∧ e.src.bits = entry.src.bits := by
      intro e he
      obtain rfl | he := List.mem_cons.mp he
      · exact ⟨hv', rfl⟩
      · simpa [same] using List.mem_takeWhile_imp he
    have hbits := Prefix.bits_nonneg hv'
    have hgroup := @groupMap_eq_scan _ _ _ src (ho.sublist (hsplit ▸ List.sublist_append_left _ _)) hrun
    rw [groupSrcs, if_neg hv, List.findSome?_cons]
    dsimp only
    rw [hbits, hgroup, ih (ho.sublist (hsplit ▸ List.sublist_append_right _ _))]
    conv_rhs => rw [hsplit, scan_append]
    cases scan (entry :: List.takeWhile same rest) src.withoutZone <;> rfl

/-- An index, where there is one, answers what the scan answers for the address without its zone. -/
theorem indexed_eq_scan {byLen : List (SrcIndex V)} (ho : Ordered srcs) (h : indexSrcs srcs = some byLen) :
    byLen.findSome? (fun group => group.m (prefixFrom src group.bits).masked) = scan srcs src.withoutZone := by
  rw [indexSrcs] at h
  dsimp only at h
  split at h
  · exact absurd h (by simp)
  · obtain rfl := Option.some.inj h
    exact groupSrcs_eq_scan ho

theorem matchSource_eq_scan (ho : Ordered srcs) (hz : src.zone = "") : matchSource srcs src = scan srcs src := by
  unfold matchSource
  split
  · next byLen h => rw [indexed_eq_scan ho h, Addr.withoutZone_of_zone hz]
  · rfl

/-- The first of entries sorted longest first that passes a test is the longest that does. -/
theorem find?_longest {q : SrcEntry V → Bool} {e : SrcEntry V} (hs : srcs.Pairwise (fun e e' => e'.src.bits ≤ e.src.bits))
    (hf : srcs.find? q = some e) : ∀ e' ∈ srcs, q e' = true → e'.src.bits ≤ e.src.bits := by
  intro e' he' hq'
  obtain ⟨-, l, r, rfl, hl⟩ := List.find?_eq_some_iff_append.mp hf
  rw [List.pairwise_append, List.pairwise_cons] at hs
  rcases List.mem_append.mp he' with h | h
  · exact absurd hq' (by simpa using hl e' h)
  · rcases List.mem_cons.mp h with rfl | h
    · exact Int.le_refl _
    · exact hs.2.1.1 e' h

theorem Answers.bits_of_invalid {p : Prefix} (h : p.isValid = false) (q : Prefix) : p.bits ≤ q.bits := by
  simp only [Prefix.isValid, decide_eq_false_iff_not, Prefix.bits] at h ⊢
  omega

end SourcesAux

open SourcesAux

/-- A node that answers, answers with its longest matching source. -/
theorem pickSource_some {srcs : List (SrcEntry V)} {src : Addr} {v : V} (ho : Ordered srcs) (hz : src.zone = "")
    (h : pickSource srcs src = some v) :
    ∃ e ∈ srcs, e.Answers src ∧ e.value = v ∧ ∀ e' ∈ srcs, e'.Answers src → e'.src.bits ≤ e.src.bits := by
  rw [pickSource, matchSource_eq_scan ho hz, scan] at h
  cases hf : srcs.find? (fun entry => entry.src.isValid && entry.src.contains src) with
  | some e =>
    rw [hf] at h
    have hq := List.find?_some hf
    simp only [Bool.and_eq_true] at hq
    refine ⟨e, List.mem_of_find?_eq_some hf, .inr hq.2, by simpa using h, fun e' he' ha => ?_⟩
    by_cases hv : e'.src.isValid = false
    · exact Answers.bits_of_invalid hv _
    · have hv' : e'.src.isValid = true := by simpa using hv
      exact find?_longest ho.sorted hf e' he' (by simp [hv', ha.resolve_left hv])
  | none =>
    rw [hf, Option.map_none, Option.none_or, matchAllSource, Option.map_eq_some_iff] at h
    obtain ⟨e, hfe, rfl⟩ := h
    have hinv : e.src.isValid = false := by simpa using List.find?_some hfe
    refine ⟨e, List.mem_of_find?_eq_some hfe, .inl hinv, rfl, fun e' he' ha => ?_⟩
    by_cases hv : e'.src.isValid = false
    · exact Answers.bits_of_invalid hv _
    · have hv' : e'.src.isValid = true := by simpa using hv
      exact absurd (ha.resolve_left hv) (by simpa [hv'] using List.find?_eq_none.mp hf e' he')

/-- A node that does not answer has no matching source. -/
theorem pickSource_none {srcs : List (SrcEntry V)} {src : Addr} (ho : Ordered srcs) (hz : src.zone = "")
    (h : pickSource srcs src = none) : ∀ e ∈ srcs, ¬e.Answers src := by
  rw [pickSource, matchSource_eq_scan ho hz, scan, Option.or_eq_none_iff, Option.map_eq_none_iff, matchAllSource,
    Option.map_eq_none_iff, List.find?_eq_none, List.find?_eq_none] at h
  rintro e he (hv | hc)
  · exact absurd hv (by simpa using h.2 e he)
  · have hv := (Prefix.contains_iff.mp hc).1
    exact absurd hc (by simpa [hv] using h.1 e he)

end RanetLite.Sadr
