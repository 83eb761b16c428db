import Mathlib.Data.List.TakeWhile
import RanetLite.Lemmas.Packets

/-!
# Splitting and merging actions

The loop of `reserveBatchesTo` keeps one invariant (`Splits`): the packets closed so far and the one being built carry the groups
seen so far, in order, each with its own undos. `coalesce` concatenates the groups of the actions with one target.
-/

namespace RanetLite.Babel

open Netip PacketAux

/-- The number of TLVs in a run of groups. -/
def tlvCount (gs : List Group) : Nat := (gs.flatMap Group.tlvs).length

/-- The router id in effect after a run of groups. -/
def effectAfter (id : Option RouterID) (gs : List Group) : Option RouterID := gs.foldl Group.effect id

/-- The bytes `reserveBatchesTo` compares a Router-Id with. -/
def effectBytes (id : Option RouterID) : List UInt8 := (id.map fun r => (encodeRouterID r).body).getD []

/-- A packet and its undos, as closed over a run of groups. -/
def Closes (packetSize : Nat) (chunk : List Group) (packet : List RawTLV × List TlvUndo) : Prop :=
  packet.1 = compress none chunk ∧ headerLen + encodedLen packet.1 ≤ packetSize ∧
    packet.2.map (fun u => (u.key, u.spent)) = chunk.flatMap Group.owed ∧ chunk ≠ []

/-- The invariant of the loop, after the groups of `seen` and before those of `rest`. -/
structure Splits (packetSize : Nat) (seen rest : List Group) (b : Batching) (chunks : List (List Group))
    (cur : List Group) : Prop where
  seen : chunks.flatten ++ cur = seen
  closed : List.Forall₂ (Closes packetSize) chunks b.closed
  batch : b.batch = compress none cur
  inEffect : b.inEffect = effectBytes (effectAfter none cur)
  size : b.size = headerLen + encodedLen b.batch
  fits : b.size ≤ packetSize
  batchFrom : b.batchFrom = tlvCount chunks.flatten
  pending : b.pending = undosFrom b.batchFrom (cur ++ rest)

namespace BatchAux

variable {packetSize : Nat}

/-- The TLVs of two runs. -/
theorem tlvCount_append (a b : List Group) : tlvCount (a ++ b) = tlvCount a + tlvCount b := by simp [tlvCount]

/-- The bytes of two runs. -/
theorem encodedLen_append (a b : List RawTLV) : encodedLen (a ++ b) = encodedLen a + encodedLen b := by simp [encodedLen]

/-- Every group has a TLV. -/
theorem tlvs_length_pos (g : Group) : 0 < g.tlvs.length := by cases g <;> simp [Group.tlvs]

/-- One more group, trimmed after the others. -/
theorem compress_append (gs : List Group) (g : Group) :
    ∀ id, compress id (gs ++ [g]) = compress id gs ++ g.trim (effectAfter id gs) := by
  induction gs with
  | nil => intro id; simp [compress, effectAfter]
  | cons h rest ih => intro id; simp [compress, ih, effectAfter]

/-- The undos of two runs. -/
theorem undosFrom_append (a b : List Group) : ∀ i, undosFrom i (a ++ b) = undosFrom i a ++ undosFrom (i + tlvCount a) b := by
  induction a with
  | nil => intro i; rfl
  | cons g rest ih =>
    intro i
    rw [List.cons_append, undosFrom, undosFrom, ih, List.append_assoc, tlvCount, tlvCount, List.flatMap_cons,
      List.length_append, Nat.add_assoc]

/-- Every undo of a run names a TLV of the run. -/
theorem undosFrom_range {gs : List Group} : ∀ {i : Nat} {u : TlvUndo}, u ∈ undosFrom i gs →
    i ≤ u.firstTLV ∧ u.firstTLV < i + tlvCount gs := by
  induction gs with
  | nil => intro i u h; cases h
  | cons g rest ih =>
    intro i u h
    have hpos := tlvs_length_pos g
    have hcount : tlvCount (g :: rest) = g.tlvs.length + tlvCount rest := by simp [tlvCount]
    rw [undosFrom, List.mem_append] at h
    obtain h | h := h
    · have hu : u.firstTLV = i := by
        cases g <;> simp only [Group.undos, List.mem_singleton, List.not_mem_nil] at h
        rw [h]
      omega
    · have := ih h
      omega

/-- The undos name what the groups owe. -/
theorem undosFrom_owed (gs : List Group) :
    ∀ i, (undosFrom i gs).map (fun u => (u.key, u.spent)) = gs.flatMap Group.owed := by
  induction gs with
  | nil => intro i; rfl
  | cons g rest ih =>
    intro i
    rw [undosFrom, List.map_append, ih, List.flatMap_cons]
    cases g <;> rfl

/-- The undos of a run are those between its first TLV and the one past its last. -/
theorem takeUndos_undosFrom (a b : List Group) (i : Nat) :
    takeUndos (undosFrom i (a ++ b)) i (i + tlvCount a) = (undosFrom i a, undosFrom (i + tlvCount a) b) := by
  have hlow : (undosFrom i (a ++ b)).dropWhile (fun u => u.firstTLV < i) = undosFrom i (a ++ b) := by
    rw [List.dropWhile_eq_self_iff]
    intro hpos
    have := (undosFrom_range (List.getElem_mem hpos)).1
    simp only [decide_eq_true_eq, not_lt]
    exact this
  have hin : ∀ u ∈ undosFrom i a, decide (u.firstTLV < i + tlvCount a) = true := fun u hu => by
    simpa using (undosFrom_range hu).2
  have hout : ∀ u ∈ undosFrom (i + tlvCount a) b, decide (u.firstTLV < i + tlvCount a) = false := fun u hu => by
    simpa using (undosFrom_range hu).1
  rw [takeUndos, hlow, List.span_eq_takeWhile_dropWhile, undosFrom_append, List.takeWhile_append_of_pos hin,
    List.dropWhile_append_of_pos hin]
  cases hb : undosFrom (i + tlvCount a) b with
  | nil => simp
  | cons u rest =>
    have hu := hout u (by rw [hb]; exact List.mem_cons_self)
    simp [hu]

/-- A run of groups is not compressed away. -/
theorem compress_ne_nil {cur : List Group} (h : cur ≠ []) : compress none cur ≠ [] := by
  obtain ⟨g, rest, rfl⟩ := List.exists_cons_of_ne_nil h
  have htrim : g.trim none = g.tlvs := by cases g <;> simp [Group.trim]
  have hpos := tlvs_length_pos g
  rw [compress, htrim]
  intro hnil
  rw [List.append_eq_nil_iff] at hnil
  rw [hnil.1] at hpos
  exact absurd hpos (Nat.lt_irrefl 0)

/-- The router id in effect decides what is elided. -/
theorem effectBytes_eq_iff {id : Option RouterID} {r : RouterID} :
    (encodeRouterID r).body = effectBytes id ↔ id = some r := by
  cases id with
  | none => simp [effectBytes, encodeRouterID]
  | some r' =>
    constructor
    · intro h
      rw [encodeRouterID_body_inj h]
    · intro h
      rw [Option.some.inj h]
      rfl

/-- The elision of `reserveBatchesTo` is `trim`, and its router id in effect that of the groups. -/
theorem trimGroup_tlvs {g : Group} (hg : g.Ok packetSize) (id : Option RouterID) :
    trimGroup (effectBytes id) g.tlvs = g.trim id ∧ groupEffect (effectBytes id) g.tlvs = effectBytes (g.effect id) := by
  cases g with
  | update r key seqno metric interval spent =>
    have htype : (encodeRouterID r).type = tlvRouterID := rfl
    simp only [Group.tlvs, Group.trim, Group.effect, trimGroup, groupEffect, htype, true_and, if_true, effectBytes_eq_iff,
      List.tail_cons]
  | hello seqno interval =>
    have htype : (Group.helloTLV seqno interval).type ≠ tlvRouterID := show tlvHello ≠ tlvRouterID by decide
    simp [Group.tlvs, Group.trim, Group.effect, trimGroup, groupEffect, htype]
  | other t =>
    have htype : t.type ≠ tlvRouterID := fun h => hg.1 (by simp [h])
    simp [Group.tlvs, Group.trim, Group.effect, trimGroup, groupEffect, htype]

/-- Trimming does not lengthen. -/
theorem encodedLen_trim_le (id : Option RouterID) (g : Group) : encodedLen (g.trim id) ≤ encodedLen g.tlvs := by
  cases g with
  | update r key seqno metric interval spent =>
    rw [Group.trim]
    split_ifs
    · simp [Group.tlvs, encodedLen]
    · exact Nat.le_refl _
  | hello | other => exact Nat.le_refl _

/-- One round of the loop takes the groups of one `Group`. -/
theorem run_group {g : Group} (hg : g.Ok packetSize) (b : Batching) (i : Nat) (rest : List RawTLV) :
    b.run packetSize i (g.tlvs ++ rest) = (b.add packetSize i g.tlvs).run packetSize (i + g.tlvs.length) rest := by
  have hsingle : ∀ t : RawTLV, t.type ≠ tlvRouterID →
      b.run packetSize i ([t] ++ rest) = (b.add packetSize i [t]).run packetSize (i + 1) rest := by
    intro t ht
    cases rest with
    | nil => rfl
    | cons u rest => rw [List.singleton_append, Batching.run, if_neg fun h => ht h.1]
  cases g with
  | update r key seqno metric interval spent =>
    obtain ⟨u, htlvs, htype, -, -⟩ := tlvs_update hg r seqno metric interval spent
    rw [htlvs, List.cons_append, List.cons_append, List.nil_append, Batching.run, if_pos ⟨rfl, htype⟩]
    rfl
  | hello seqno interval => exact hsingle _ (show tlvHello ≠ tlvRouterID by decide)
  | other t => exact hsingle t fun h => hg.1 (by simp [h])

variable {seen rest cur : List Group} {b : Batching} {chunks : List (List Group)} {g : Group}

/-- Closing the packet being built attaches the undos of its groups to it. -/
theorem closes_take (h : Splits packetSize seen rest b chunks cur) (hcur : cur ≠ []) :
    (b.take (tlvCount seen)).pending = undosFrom (tlvCount seen) rest ∧
      List.Forall₂ (Closes packetSize) (chunks ++ [cur]) (b.take (tlvCount seen)).closed := by
  have hcount : tlvCount seen = b.batchFrom + tlvCount cur := by rw [← h.seen, tlvCount_append, h.batchFrom]
  have htake : takeUndos b.pending b.batchFrom (tlvCount seen) =
      (undosFrom b.batchFrom cur, undosFrom (tlvCount seen) rest) := by
    rw [h.pending, hcount, takeUndos_undosFrom]
  have hbatch : Closes packetSize cur (b.batch, undosFrom b.batchFrom cur) :=
    ⟨h.batch, h.size ▸ h.fits, undosFrom_owed cur _, hcur⟩
  simp only [Batching.take, htake, true_and]
  exact List.rel_append h.closed (.cons hbatch .nil)

/-- One group keeps the invariant: it joins the packet being built, or starts the next one. -/
theorem splits_add (hsize : 63 ≤ packetSize) (hg : g.Ok packetSize) (h : Splits packetSize seen (g :: rest) b chunks cur) :
    ∃ chunks' cur', Splits packetSize (seen ++ [g]) rest (b.add packetSize (tlvCount seen) g.tlvs) chunks' cur' := by
  obtain ⟨htrim, heffect⟩ := trimGroup_tlvs hg (effectAfter none cur)
  have hlen := encodedLen_tlvs_le hsize hg
  have hcount : tlvCount seen = b.batchFrom + tlvCount cur := by rw [← h.seen, tlvCount_append, h.batchFrom]
  rw [Batching.add, h.inEffect, htrim, heffect]
  by_cases hover : (!b.batch.isEmpty && decide (packetSize < b.size + encodedLen (g.trim (effectAfter none cur)))) = true
  · -- the packet is full: it is closed, and the group opens the next one with its Router-Id
    rw [if_pos hover]
    have hcur : cur ≠ [] := by
      rintro rfl
      simp [h.batch, compress] at hover
    obtain ⟨hpending, hclosed⟩ := closes_take h hcur
    obtain ⟨htrim', heffect'⟩ := trimGroup_tlvs hg none
    have hopen : g.trim none = g.tlvs := by cases g <;> simp [Group.trim]
    refine ⟨chunks ++ [cur], [g], ?_, hclosed, ?_, ?_, rfl, ?_, ?_, ?_⟩
    · simp [← h.seen]
    · simp [compress, hopen]
    · exact heffect'
    · exact hlen
    · simp [← h.seen]
    · exact hpending
  · rw [if_neg hover]
    refine ⟨chunks, cur ++ [g], ?_, h.closed, ?_, ?_, ?_, ?_, h.batchFrom, ?_⟩
    · rw [← List.append_assoc, h.seen]
    · rw [compress_append, ← h.batch]
    · simp [effectAfter]
    · show b.size + _ = headerLen + encodedLen (b.batch ++ _)
      rw [encodedLen_append, h.size, Nat.add_assoc]
    · show b.size + encodedLen (g.trim (effectAfter none cur)) ≤ packetSize
      by_cases hcur : cur = []
      · have hb := h.batch
        have hs := h.size
        have hle := encodedLen_trim_le (effectAfter none cur) g
        rw [hb, hcur] at hs
        simp only [compress, encodedLen, List.map_nil, List.sum_nil] at hs hlen hle ⊢
        omega
      · have hne : b.batch.isEmpty = false := by
          rw [h.batch]
          simpa using compress_ne_nil hcur
        simpa [hne] using hover
    · rw [List.append_assoc]
      exact h.pending

/-- The whole loop keeps the invariant. -/
theorem splits_run (hsize : 63 ≤ packetSize) :
    ∀ {seen : List Group} {b : Batching} {chunks : List (List Group)} {cur : List Group}, (∀ g ∈ rest, g.Ok packetSize) →
      Splits packetSize seen rest b chunks cur → ∃ chunks' cur', Splits packetSize (seen ++ rest) []
        (b.run packetSize (tlvCount seen) (rest.flatMap Group.tlvs)) chunks' cur' := by
  induction rest with
  | nil =>
    intro seen b chunks cur _ h
    exact ⟨chunks, cur, by simpa [Batching.run] using h⟩
  | cons g rest ih =>
    intro seen b chunks cur hok h
    obtain ⟨chunks', cur', h'⟩ := splits_add hsize (hok g List.mem_cons_self) h
    have hcount : tlvCount seen + g.tlvs.length = tlvCount (seen ++ [g]) := by simp [tlvCount]
    rw [List.flatMap_cons, run_group (hok g List.mem_cons_self), hcount, List.append_cons]
    exact ih (fun g hg => hok g (List.mem_cons_of_mem _ hg)) h'

end BatchAux

open BatchAux

/-- The packets of a built action carry its groups in order, each packet with the undos of its own groups. -/
theorem splitBatches_spec {packetSize : Nat} (hsize : 63 ≤ packetSize) {a : SendAction} {gs : List Group}
    (h : a.Built gs packetSize) :
    ∃ chunks, chunks.flatten = gs ∧ List.Forall₂ (Closes packetSize) chunks (splitBatches packetSize a) := by
  have hinit : Splits packetSize [] gs { pending := a.rollback } [] [] :=
    ⟨rfl, .nil, rfl, rfl, rfl, by show headerLen ≤ packetSize; simp only [headerLen]; omega, rfl, h.rollback⟩
  obtain ⟨chunks, cur, hs⟩ := splits_run hsize h.ok hinit
  rw [List.nil_append, ← h.tlvs] at hs
  rw [splitBatches]
  by_cases hb : (Batching.run packetSize { pending := a.rollback } 0 a.tlvs).batch.isEmpty = true
  · have hcur : cur = [] := by
      by_contra hne
      have hnil := hs.batch
      rw [List.isEmpty_iff] at hb
      exact compress_ne_nil hne (hnil.symm.trans hb)
    refine ⟨chunks, ?_, ?_⟩
    · simpa [hcur] using hs.seen
    · simp only [hb, if_true]
      exact hs.closed
  · have hcur : cur ≠ [] := by
      rintro rfl
      exact hb (List.isEmpty_iff.mpr hs.batch)
    obtain ⟨-, hclosed⟩ := closes_take hs hcur
    refine ⟨chunks ++ [cur], by simpa using hs.seen, ?_⟩
    simp only [if_neg hb]
    rw [h.tlvs] at hclosed ⊢
    exact hclosed

/-- The groups of the actions with one target, in order. -/
def groupsFor (t : NeighborRef × Addr × SendPriority) (plan : List (SendAction × List Group)) : List Group :=
  (plan.filter fun p => p.1.target = t).flatMap Prod.snd

/-- Actions with their groups, no two of them for one target. -/
structure Merged (packetSize : Nat) (plan : List (SendAction × List Group)) : Prop where
  built : ∀ p ∈ plan, p.1.Built p.2 packetSize
  nodup : (plan.map fun p => p.1.target).Nodup

namespace BatchAux

variable {packetSize : Nat} {a : SendAction} {plan : List (SendAction × List Group)}

/-- The undos of a run placed further on. -/
theorem undosFrom_shift (n : Nat) (gs : List Group) :
    ∀ i, (undosFrom i gs).map (fun u => { u with firstTLV := u.firstTLV + n }) = undosFrom (i + n) gs := by
  induction gs with
  | nil => intro i; rfl
  | cons g rest ih =>
    intro i
    rw [undosFrom, undosFrom, List.map_append, ih, Nat.add_right_comm]
    cases g <;> rfl

/-- Merged actions are built from both. -/
theorem built_merge {b : SendAction} {gs hs : List Group} (ha : a.Built gs packetSize) (hb : b.Built hs packetSize) :
    (a.merge b).Built (gs ++ hs) packetSize where
  tlvs := by simp [SendAction.merge, ha.tlvs, hb.tlvs]
  rollback := by
    rw [undosFrom_append, ← ha.rollback]
    simp only [SendAction.merge, hb.rollback, undosFrom_shift, ha.tlvs]
    rfl
  ok g hg := (List.mem_append.mp hg).elim (ha.ok g) (hb.ok g)

/-- A built action with no TLV has no group. -/
theorem built_nil {gs : List Group} (h : a.Built gs packetSize) (hnil : a.tlvs.isEmpty = true) : gs = [] := by
  cases gs with
  | nil => rfl
  | cons g rest =>
    have hpos := tlvs_length_pos g
    rw [List.isEmpty_iff, h.tlvs, List.flatMap_cons, List.append_eq_nil_iff] at hnil
    rw [hnil.1] at hpos
    exact absurd hpos (Nat.lt_irrefl 0)

/-- The groups for a target in two plans. -/
theorem groupsFor_append (t : NeighborRef × Addr × SendPriority) (a b : List (SendAction × List Group)) :
    groupsFor t (a ++ b) = groupsFor t a ++ groupsFor t b := by simp [groupsFor]

/-- The groups of one more action. -/
theorem groupsFor_cons (t : NeighborRef × Addr × SendPriority) (p : SendAction × List Group)
    (l : List (SendAction × List Group)) :
    groupsFor t (p :: l) = (if p.1.target = t then p.2 else []) ++ groupsFor t l := by
  by_cases h : p.1.target = t <;> simp [groupsFor, h]

/-- No action to the target, no groups. -/
theorem groupsFor_eq_nil {t : NeighborRef × Addr × SendPriority} {l : List (SendAction × List Group)}
    (h : ∀ p ∈ l, p.1.target ≠ t) : groupsFor t l = [] := by
  have hnil : l.filter (fun p => p.1.target = t) = [] := List.filter_eq_nil_iff.mpr fun p hp => by simpa using h p hp
  rw [groupsFor, hnil, List.flatMap_nil]

/-- An action joins the one with its target. -/
theorem coalesceStep_merge {l r : List SendAction} {b : SendAction} (hb : b.tlvs.isEmpty = false) (ht : a.target = b.target)
    (hl : ∀ c ∈ l, c.target ≠ b.target) : coalesceStep (l ++ a :: r) b = l ++ a.merge b :: r := by
  have hidx : (l ++ a :: r).findIdx? (fun c => c.target = b.target) = some l.length := by
    have hnone : l.findIdx? (fun c => c.target = b.target) = none := List.findIdx?_eq_none_iff.mpr fun c hc => by
      simpa using hl c hc
    simp [List.findIdx?_append, hnone, List.findIdx?_cons, ht]
  rw [coalesceStep, hb, if_neg (by simp), hidx]
  simp [List.modify_eq_take_cons_drop]

/-- One round of `coalesce` appends the groups of the action to those of its target. -/
theorem merged_step (h : Merged packetSize plan) {p : SendAction × List Group} (hp : p.1.Built p.2 packetSize) :
    ∃ plan', Merged packetSize plan' ∧ plan'.map Prod.fst = coalesceStep (plan.map Prod.fst) p.1 ∧
      ∀ t, groupsFor t plan' = groupsFor t (plan ++ [p]) := by
  by_cases hempty : p.1.tlvs.isEmpty = true
  · refine ⟨plan, h, by rw [coalesceStep, if_pos hempty], fun t => ?_⟩
    rw [groupsFor_append, groupsFor_cons, built_nil hp hempty]
    simp [groupsFor]
  rw [Bool.not_eq_true] at hempty
  by_cases hmem : ∃ q ∈ plan, q.1.target = p.1.target
  · -- the targets are distinct, so the groups of this one are those of the entry it joins
    obtain ⟨q, hq, ht⟩ := hmem
    obtain ⟨l, r, rfl⟩ := List.append_of_mem hq
    have hnodup := h.nodup
    simp only [List.map_append, List.map_cons, List.nodup_append, List.nodup_cons, List.mem_map, List.mem_cons] at hnodup
    obtain ⟨-, ⟨hqr, -⟩, hdisj⟩ := hnodup
    have hl : ∀ c ∈ l, c.1.target ≠ p.1.target := fun c hc heq => hdisj _ ⟨c, hc, rfl⟩ _ (.inl rfl) (heq.trans ht.symm)
    have hr : ∀ c ∈ r, c.1.target ≠ p.1.target := fun c hc heq => hqr ⟨c, hc, heq.trans ht.symm⟩
    refine ⟨l ++ (q.1.merge p.1, q.2 ++ p.2) :: r, ⟨?_, ?_⟩, ?_, fun t => ?_⟩
    · intro c hc
      rw [List.mem_append, List.mem_cons] at hc
      obtain hc | rfl | hc := hc
      · exact h.built c (by simp [hc])
      · exact built_merge (h.built q hq) hp
      · exact h.built c (by simp [hc])
    · have hnd := h.nodup
      simp only [List.map_append, List.map_cons] at hnd ⊢
      exact hnd
    · simp only [List.map_append, List.map_cons]
      refine (coalesceStep_merge hempty ht fun c hc => ?_).symm
      obtain ⟨c', hc', rfl⟩ := List.mem_map.mp hc
      exact hl c' hc'
    · simp only [groupsFor_append, groupsFor_cons]
      by_cases htt : p.1.target = t
      · rw [groupsFor_eq_nil (l := r) fun c hc => htt ▸ hr c hc]
        have hm : (q.1.merge p.1).target = t := ht.trans htt
        simp [hm, ht.trans htt, htt, groupsFor]
      · have hm : (q.1.merge p.1).target ≠ t := fun he => htt (ht ▸ he)
        have hq' : q.1.target ≠ t := fun he => htt (ht ▸ he)
        simp [hm, hq', htt, groupsFor]
  · refine ⟨plan ++ [p], ⟨?_, ?_⟩, ?_, fun t => rfl⟩
    · intro c hc
      rw [List.mem_append, List.mem_singleton] at hc
      obtain hc | rfl := hc
      · exact h.built c hc
      · exact hp
    · rw [List.map_append, List.nodup_append]
      refine ⟨h.nodup, by simp, ?_⟩
      intro x hx y hy hxy
      obtain ⟨c, hc, rfl⟩ := List.mem_map.mp hx
      rw [List.map_singleton, List.mem_singleton] at hy
      exact hmem ⟨c, hc, hxy.trans hy⟩
    · have hnone : (plan.map Prod.fst).findIdx? (fun a => a.target = p.1.target) = none := by
        rw [List.findIdx?_eq_none_iff]
        intro a ha
        obtain ⟨c, hc, rfl⟩ := List.mem_map.mp ha
        simpa using fun he => hmem ⟨c, hc, he⟩
      rw [coalesceStep, hempty, if_neg (by simp), hnone]
      simp

/-- In a merged plan each target has one action. -/
theorem groupsFor_self (h : Merged packetSize plan) {p : SendAction × List Group} (hp : p ∈ plan) :
    groupsFor p.1.target plan = p.2 := by
  obtain ⟨l, r, rfl⟩ := List.append_of_mem hp
  have hnodup := h.nodup
  simp only [List.map_append, List.map_cons, List.nodup_append, List.nodup_cons, List.mem_map, List.mem_cons] at hnodup
  obtain ⟨-, ⟨hr, -⟩, hl⟩ := hnodup
  rw [groupsFor_append, groupsFor_cons, if_pos rfl, groupsFor_eq_nil fun c hc he => hl _ ⟨c, hc, rfl⟩ _ (.inl rfl) he,
    groupsFor_eq_nil fun c hc he => hr ⟨c, hc, he⟩, List.nil_append, List.append_nil]

/-- Coalescing merges the actions of each target. -/
theorem merged_foldl : ∀ {acc : List (SendAction × List Group)}, Merged packetSize acc →
    (∀ p ∈ plan, p.1.Built p.2 packetSize) → ∃ plan', Merged packetSize plan' ∧
      plan'.map Prod.fst = (plan.map Prod.fst).foldl coalesceStep (acc.map Prod.fst) ∧
      ∀ t, groupsFor t plan' = groupsFor t (acc ++ plan) := by
  induction plan with
  | nil => exact fun h _ => ⟨_, h, rfl, fun t => by rw [List.append_nil]⟩
  | cons p rest ih =>
    intro acc hacc hok
    obtain ⟨acc', hacc', hmap, hgroups⟩ := merged_step hacc (hok p List.mem_cons_self)
    obtain ⟨plan', hplan', hmap', hgroups'⟩ := ih hacc' fun p hp => hok p (List.mem_cons_of_mem _ hp)
    refine ⟨plan', hplan', ?_, fun t => ?_⟩
    · rw [hmap', hmap, List.map_cons, List.foldl_cons]
    · rw [hgroups', groupsFor_append, hgroups, ← groupsFor_append, List.append_assoc, List.singleton_append]

end BatchAux

/-- `coalesce` leaves one action for each target, with the groups of all the actions that had it. -/
theorem coalesce_spec {packetSize : Nat} {plan : List (SendAction × List Group)} (h : ∀ p ∈ plan, p.1.Built p.2 packetSize) :
    ((coalesce (plan.map Prod.fst)).map SendAction.target).Nodup ∧
      (∀ a ∈ coalesce (plan.map Prod.fst), a.Built (groupsFor a.target plan) packetSize) ∧
      ∀ t, (∀ a ∈ coalesce (plan.map Prod.fst), a.target ≠ t) → groupsFor t plan = [] := by
  obtain ⟨plan', hplan', hmap, hgroups⟩ : ∃ plan', Merged packetSize plan' ∧ plan'.map Prod.fst = coalesce (plan.map Prod.fst) ∧
      ∀ t, groupsFor t plan' = groupsFor t plan := by
    rw [coalesce]
    split_ifs with hlen
    · refine ⟨plan, ⟨h, ?_⟩, rfl, fun _ => rfl⟩
      rw [List.length_map] at hlen
      match plan, hlen with
      | [], _ => simp
      | [p], _ => simp
    · have hnil : Merged packetSize [] := ⟨by simp, by simp⟩
      obtain ⟨plan', hplan', hmap, hgroups⟩ := merged_foldl hnil h
      exact ⟨plan', hplan', hmap, fun t => by rw [hgroups, List.nil_append]⟩
  rw [← hmap]
  refine ⟨by simpa [Function.comp_def] using hplan'.nodup, fun a ha => ?_, fun t ht => ?_⟩
  · obtain ⟨p, hp, rfl⟩ := List.mem_map.mp ha
    have hone : groupsFor p.1.target plan' = p.2 := groupsFor_self hplan' hp
    rw [← hgroups, hone]
    exact hplan'.built p hp
  · rw [← hgroups]
    exact groupsFor_eq_nil fun p hp => ht p.1 (List.mem_map_of_mem hp)

end RanetLite.Babel
