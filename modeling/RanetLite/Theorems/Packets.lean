import RanetLite.Lemmas.Batches

/-!
# Packets mean what the actions said

`emitReserved` merges actions by target, leaves out the Router-Ids a packet has already set and splits at the packet size. For the
actions the speaker builds, the packets of a target still say, in order, what its actions said, and each carries the undos of its
own groups and no others (`emit_preserves`). The one difference is the transmit timestamp of a Hello, set as its packet takes a place.
-/

namespace RanetLite.Babel

open Netip PacketAux BatchAux

/-- A reserved packet that carries exactly a run of groups: it fits, it says what the groups say, and it owes what they owe. -/
def ReservedPacket.Carries (packetSize : Nat) (t : NeighborRef × Addr × SendPriority) (chunk : List Group)
    (p : ReservedPacket) : Prop :=
  p.neighbor = t.1 ∧ p.dest = t.2.1 ∧ p.payload.length ≤ packetSize ∧
    (packetItems p.payload).map Item.eraseStamp = chunk.flatMap Group.items ∧
    p.undo.map (fun u => (u.key, u.spent)) = chunk.flatMap Group.owed

/-- The runs of groups whose packet took a place. -/
def grantedChunks (chunks : List (Bool × List Group)) : List (List Group) := (chunks.filter (·.1)).map Prod.snd

/-- The runs of groups whose packet was refused. -/
def refusedChunks (chunks : List (Bool × List Group)) : List (List Group) := (chunks.filter (!·.1)).map Prod.snd

/-- What asks for a place, each with the answer of the transport to it, in order. -/
def answered {α : Type} : List Reservation → List α → List (Bool × α)
  | _, [] => []
  | rs, x :: rest => ((rs.headD refusal).granted, x) :: answered rs.tail rest

/-- The runs of a target, each with the answer to its packet, out of all runs of a pass. -/
def answersFor (rs : List Reservation) (runs : List ((NeighborRef × Addr × SendPriority) × List Group))
    (t : NeighborRef × Addr × SendPriority) : List (Bool × List Group) :=
  ((answered rs runs).filter fun r => r.2.1 = t).map fun r => (r.1, r.2.2)

/-- What became of the groups of a target, in runs with the answer to each: a granted run has a packet that carries exactly it, and
the undos given back are exactly those of the refused runs. -/
structure Delivers (packetSize : Nat) (t : NeighborRef × Addr × SendPriority) (gs : List Group) (chunks : List (Bool × List Group))
    (results : List Reserved) : Prop where
  groups : (chunks.map Prod.snd).flatten = gs
  packets : List.Forall₂ (ReservedPacket.Carries packetSize t) (grantedChunks chunks) (results.flatMap Reserved.packets)
  lost : (results.flatMap Reserved.lost).map (fun u => (u.key, u.spent)) = (refusedChunks chunks).flatten.flatMap Group.owed
  whole : results.all Reserved.whole = chunks.all (·.1)

namespace EmitAux

variable {packetSize : Nat} {t : NeighborRef × Addr × SendPriority} {rs : List Reservation} {a : SendAction}

/-- A packet closed over built groups carries them once it is reserved. -/
theorem carries_of_closes (hmax : packetSize < headerLen + 65536) {chunk : List Group} (hok : ∀ g ∈ chunk, g.Ok packetSize)
    {batch : List RawTLV × List TlvUndo} (h : Closes packetSize chunk batch) (r : Reservation) :
    ReservedPacket.Carries packetSize a.target chunk ⟨a.neighbor, a.dest, packetPayload r batch.1, batch.2⟩ := by
  obtain ⟨htlvs, hlen, howed, -⟩ := h
  rw [htlvs] at hlen
  obtain ⟨hpayload, hitems⟩ := packet_compress hok (by omega) r
  rw [← htlvs] at hpayload hitems hlen
  exact ⟨rfl, rfl, by rw [hpayload]; exact hlen, hitems, howed⟩

/-- No packet is closed over no group. -/
theorem nonempty_of_closes {chunks : List (List Group)} {batches : List (List RawTLV × List TlvUndo)}
    (h : List.Forall₂ (Closes packetSize) chunks batches) {c : List Group} (hc : c ∈ chunks) : c ≠ [] := by
  induction h with
  | nil => cases hc
  | cons hb _ ih =>
    obtain rfl | hc := List.mem_cons.mp hc
    · exact hb.2.2.2
    · exact ih hc

/-- Two parts of a pass have done what both have done. -/
theorem Delivers.append {gs gs' : List Group} {chunks chunks' : List (Bool × List Group)} {results results' : List Reserved}
    (h : Delivers packetSize t gs chunks results) (h' : Delivers packetSize t gs' chunks' results') :
    Delivers packetSize t (gs ++ gs') (chunks ++ chunks') (results ++ results') where
  groups := by rw [List.map_append, List.flatten_append, h.groups, h'.groups]
  packets := by
    rw [grantedChunks, List.filter_append, List.map_append, List.flatMap_append]
    exact List.rel_append h.packets h'.packets
  lost := by
    rw [List.flatMap_append, List.map_append, h.lost, h'.lost]
    simp [refusedChunks]
  whole := by rw [List.all_append, List.all_append, h.whole, h'.whole]

theorem map_answered {α : Type} (xs : List α) : ∀ rs : List Reservation, (answered rs xs).map Prod.snd = xs := by
  induction xs with
  | nil => exact fun _ => rfl
  | cons x xs ih => exact fun rs => by rw [answered, List.map_cons, ih]

/-- What asks second is answered by the reservations the first left. -/
theorem answered_append {α : Type} (xs ys : List α) : ∀ rs : List Reservation,
    answered rs (xs ++ ys) = answered rs xs ++ answered (rs.drop xs.length) ys := by
  induction xs with
  | nil => exact fun _ => rfl
  | cons x xs ih =>
    intro rs
    rw [List.cons_append, answered, ih, answered, List.cons_append, List.drop_tail, List.length_cons]

/-- The runs of one action answer for its target and for no other. -/
theorem answersFor_map (s : NeighborRef × Addr × SendPriority) (chunks : List (List Group)) :
    ∀ rs, answersFor rs (chunks.map (Prod.mk s)) t = if s = t then answered rs chunks else [] := by
  induction chunks with
  | nil => exact fun _ => by simp [answersFor, answered]
  | cons c chunks ih =>
    intro rs
    have hcons : answersFor rs ((c :: chunks).map (Prod.mk s)) t =
        (if s = t then [((rs.headD refusal).granted, c)] else []) ++ answersFor rs.tail (chunks.map (Prod.mk s)) t := by
      by_cases hs : s = t <;> simp [answersFor, answered, hs]
    rw [hcons, ih, answered]
    by_cases hs : s = t <;> simp [hs]

/-- Every packet of an action takes a place with what it carries, or gives back what it owes, as its reservation says. -/
theorem reserveAll_spec (hmax : packetSize < headerLen + 65536) {chunks : List (List Group)}
    {batches : List (List RawTLV × List TlvUndo)} (h : List.Forall₂ (Closes packetSize) chunks batches) :
    (∀ c ∈ chunks, ∀ g ∈ c, g.Ok packetSize) → ∀ (out : Reserved) (rs : List Reservation), ∃ packets lost,
      reserveAll a out batches rs =
        (⟨out.packets ++ packets, out.lost ++ lost, out.whole && (answered rs chunks).all (·.1)⟩, rs.drop chunks.length) ∧
      List.Forall₂ (ReservedPacket.Carries packetSize a.target) (grantedChunks (answered rs chunks)) packets ∧
      lost.map (fun u => (u.key, u.spent)) = (refusedChunks (answered rs chunks)).flatten.flatMap Group.owed := by
  induction h with
  | nil => exact fun _ out rs => ⟨[], [], by simp [reserveAll, answered], .nil, rfl⟩
  | @cons c b chunks batches hb _ ih =>
    intro hok out rs
    obtain ⟨packets, lost, hout, hcarry, hlost⟩ := ih (fun c hc => hok c (List.mem_cons_of_mem _ hc))
      (out.add a (rs.headD refusal) b) rs.tail
    rw [reserveAll, hout, answered, List.drop_tail, List.length_cons, Reserved.add]
    cases hg : (rs.headD refusal).granted with
    | true =>
      exact ⟨_ :: packets, lost, by simp,
        .cons (carries_of_closes hmax (hok c List.mem_cons_self) hb (rs.headD refusal)) hcarry, hlost⟩
    | false =>
      refine ⟨packets, b.2 ++ lost, by simp, hcarry, ?_⟩
      rw [List.map_append, hb.2.2.1, hlost]
      simp [refusedChunks]

/-- The actions of a pass ask for places in order, one for each of their runs, and what became of the groups of every target is as
these were answered. -/
theorem reserveEach_spec (hmin : 63 ≤ packetSize) (hmax : packetSize < headerLen + 65536) {G : SendAction → List Group}
    {l : List SendAction} : (∀ a ∈ l, a.Built (G a) packetSize) → ∀ rs : List Reservation, ∃ runs, (∀ r ∈ runs, r.2 ≠ []) ∧
      ∀ t, Delivers packetSize t ((l.filter fun a => a.target = t).flatMap G) (answersFor rs runs t)
        (((reserveEach packetSize l rs).filter fun r => r.1.target = t).map Prod.snd) := by
  induction l with
  | nil => exact fun _ rs => ⟨[], by simp, fun t => ⟨rfl, .nil, rfl, rfl⟩⟩
  | cons a rest ih =>
    intro hbuilt rs
    obtain ⟨ha, hrest⟩ := List.forall_mem_cons.mp hbuilt
    obtain ⟨chunks, hflat, hcloses⟩ := splitBatches_spec hmin ha
    have hok : ∀ c ∈ chunks, ∀ g ∈ c, g.Ok packetSize := fun c hc g hg =>
      ha.ok g (by rw [← hflat]; exact List.mem_flatten.mpr ⟨c, hc, hg⟩)
    obtain ⟨packets, lost, hout, hcarry, hlost⟩ := reserveAll_spec hmax (a := a) hcloses hok {} rs
    obtain ⟨runs, hruns, hdelivers⟩ := ih hrest (rs.drop chunks.length)
    refine ⟨chunks.map (Prod.mk a.target) ++ runs, fun r hr => ?_, fun t => ?_⟩
    · obtain hr | hr := List.mem_append.mp hr
      · obtain ⟨c, hc, rfl⟩ := List.mem_map.mp hr
        exact nonempty_of_closes hcloses hc
      · exact hruns r hr
    · have happend : answersFor rs (chunks.map (Prod.mk a.target) ++ runs) t =
          answersFor rs (chunks.map (Prod.mk a.target)) t ++ answersFor (rs.drop chunks.length) runs t := by
        simp [answersFor, answered_append]
      rw [happend, answersFor_map, reserveEach, reserveBatchesTo, hout]
      by_cases ht : a.target = t
      · subst ht
        have hfirst : Delivers packetSize a.target (G a) (answered rs chunks)
            [⟨packets, lost, (answered rs chunks).all (·.1)⟩] :=
          ⟨by rw [map_answered, hflat], by simpa using hcarry, by simpa using hlost, by simp⟩
        simpa using Delivers.append hfirst (hdelivers a.target)
      · simpa [ht] using hdelivers t

/-- Ordering by priority loses no action. -/
theorem sortByPriority_perm (actions : List SendAction) : (sortByPriority actions).Perm actions := List.perm_insertionSort _ _

/-- The groups of a target are those of its one merged action. -/
theorem flatMap_target {G : SendAction → List Group} {l : List SendAction} (hnodup : (l.map SendAction.target).Nodup) (ha : a ∈ l) :
    (l.filter fun b => b.target = a.target).flatMap G = G a := by
  induction l with
  | nil => cases ha
  | cons b rest ih =>
    rw [List.map_cons, List.nodup_cons] at hnodup
    obtain rfl | ha := List.mem_cons.mp ha
    · have hrest : rest.filter (fun b => b.target = a.target) = [] := List.filter_eq_nil_iff.mpr fun b hb he =>
        hnodup.1 (List.mem_map.mpr ⟨b, hb, of_decide_eq_true he⟩)
      simp [hrest]
    · have hb : b.target ≠ a.target := fun he => hnodup.1 (List.mem_map.mpr ⟨a, ha, he.symm⟩)
      simpa [hb] using ih hnodup.2 ha

end EmitAux

open EmitAux

/-- Merging, Router-Id elision and splitting preserve meaning: the groups of the actions are cut into runs, none of them empty, each
run asks for the next place of the transport, and for every target the runs are its groups in order, the packets are those of the
granted runs, each fits and carries exactly its run, and the undos given back are exactly those of the refused runs. -/
theorem emit_preserves {packetSize : Nat} (hmin : 63 ≤ packetSize) (hmax : packetSize < headerLen + 65536)
    {plan : List (SendAction × List Group)} (hbuilt : ∀ p ∈ plan, p.1.Built p.2 packetSize) (rs : List Reservation) :
    ∃ runs, (∀ r ∈ runs, r.2 ≠ []) ∧ ∀ t, Delivers packetSize t (groupsFor t plan) (answersFor rs runs t)
      (((emitReserved packetSize (plan.map Prod.fst) rs).filter fun r => r.1.target = t).map Prod.snd) := by
  obtain ⟨hnodup, hgroups, hnone⟩ := coalesce_spec hbuilt
  have hperm := sortByPriority_perm (coalesce (plan.map Prod.fst))
  obtain ⟨runs, hruns, hdelivers⟩ := reserveEach_spec hmin hmax (G := fun a => groupsFor a.target plan)
    (fun a ha => hgroups a (hperm.mem_iff.mp ha)) rs
  refine ⟨runs, hruns, fun t => ?_⟩
  have ht : ((sortByPriority (coalesce (plan.map Prod.fst))).filter fun a => a.target = t).flatMap
      (fun a => groupsFor a.target plan) = groupsFor t plan := by
    by_cases hmem : ∃ a ∈ coalesce (plan.map Prod.fst), a.target = t
    · obtain ⟨a, ha, rfl⟩ := hmem
      exact flatMap_target ((hperm.map SendAction.target).nodup_iff.mpr hnodup) (hperm.mem_iff.mpr ha)
    · rw [hnone t fun a ha he => hmem ⟨a, ha, he⟩, List.filter_eq_nil_iff.mpr, List.flatMap_nil]
      exact fun a ha he => hmem ⟨a, hperm.mem_iff.mp ha, of_decide_eq_true he⟩
  rw [← ht]
  exact hdelivers t

/-- The key `2001:db8::/32`, with no source. -/
def docKey : RouteKey := ⟨.none, prefixFrom (.v6 (0x20010db8#128 <<< 96) "") 32⟩

/-- An advertisement of `2001:db8::/32`. -/
def docGroup : Group := .update 1 docKey 7 96 1600 false

/-- The action of one advertisement of `2001:db8::/32`. -/
def docAction : SendAction :=
  { neighbor := 0, dest := .zero, priority := .dump, tlvs := docGroup.tlvs, rollback := docGroup.undos 0 }

/-- Two advertisements for one target arrive as two, in one packet, where the transport has a place. -/
theorem emit_preserves_doc : docAction.Built [docGroup] ∧ ∃ p, (((emitReserved 63 [docAction, docAction] [⟨true, fun _ => 7⟩]).filter
    fun r => r.1.target = docAction.target).map Prod.snd).flatMap Reserved.packets = [p] ∧
      p.Carries 63 docAction.target [docGroup, docGroup] := by
  have hb : docAction.Built [docGroup] := by
    refine ⟨by simp [docAction], rfl, fun g hg => ?_⟩
    rw [List.mem_singleton.mp hg]
    exact ⟨by decide +kernel, by decide +kernel, .inl rfl⟩
  have hplan : ∀ p ∈ [(docAction, [docGroup]), (docAction, [docGroup])], p.1.Built p.2 := by simpa using hb
  obtain ⟨runs, -, hruns⟩ := emit_preserves (Nat.le_refl 63) (by decide) hplan [⟨true, fun _ => 7⟩]
  obtain ⟨hgroups, hpackets, -, hwhole⟩ := hruns docAction.target
  -- nothing is refused, so the packets are those of all runs
  have hall : (answersFor [⟨true, fun _ => 7⟩] runs docAction.target).all (·.1) = true := hwhole.symm.trans (by decide +kernel)
  rw [grantedChunks, List.filter_eq_self.mpr (List.all_eq_true.mp hall)] at hpackets
  obtain ⟨p, hp⟩ := List.length_eq_one_iff.mp (show ((((emitReserved 63 [docAction, docAction] [⟨true, fun _ => 7⟩]).filter
    fun r => r.1.target = docAction.target).map Prod.snd).flatMap Reserved.packets).length = 1 by decide +kernel)
  rw [show [(docAction, [docGroup]), (docAction, [docGroup])].map Prod.fst = [docAction, docAction] from rfl, hp] at hpackets
  obtain ⟨chunk, rest, hcarries, hrest, hchunks⟩ := List.forall₂_cons_right_iff.mp hpackets
  obtain rfl := List.forall₂_nil_right_iff.mp hrest
  rw [hchunks, List.flatten_singleton] at hgroups
  obtain rfl : chunk = [docGroup, docGroup] := hgroups
  exact ⟨hb, p, hp, hcarries⟩

/-- An action made of any TLVs and undos, aimed at one target. -/
def rawAction (tlvs : List RawTLV) (rollback : List TlvUndo) : SendAction :=
  { neighbor := 0, dest := .zero, priority := .dump, tlvs := tlvs, rollback := rollback }

/-- The outcome of one raw action on a transport with two slots free, at clock 7. -/
def rawOutcome (packetSize : Nat) (tlvs : List RawTLV) (rollback : List TlvUndo) : List Reserved :=
  (emitReserved packetSize [rawAction tlvs rollback] (List.replicate 2 ⟨true, fun _ => 7⟩)).map Prod.snd

/-- What the packets of a raw action say. -/
def rawSaid (packetSize : Nat) (tlvs : List RawTLV) : List Item :=
  ((rawOutcome packetSize tlvs []).flatMap Reserved.packets).flatMap fun p => packetItems p.payload

/-- An Update for an IPv6 host route. -/
def hostUpdate : RawTLV := ⟨tlvUpdate, [2, 0, 128, 0, 0, 100, 0, 1, 0, 0] ++ List.replicate 16 1⟩

/-- A TLV of an unknown type that takes sixteen bytes. -/
def sixteenBytes : RawTLV := ⟨32, List.replicate 14 0⟩

namespace EmitAux

/-- A packet that has room takes a run of equal TLVs whole. -/
theorem run_replicate (packetSize n : Nat) : ∀ (b : Batching) (i : Nat), b.size + 16 * n ≤ packetSize →
    (b.run packetSize i (List.replicate n sixteenBytes)).batch = b.batch ++ List.replicate n sixteenBytes ∧
      (b.run packetSize i (List.replicate n sixteenBytes)).closed = b.closed ∧
      (b.run packetSize i (List.replicate n sixteenBytes)).pending = b.pending := by
  induction n with
  | zero => exact fun b i _ => by simp [Batching.run]
  | succ n ih =>
    intro b i hroom
    have hadd : b.add packetSize i [sixteenBytes] =
        { b with batch := b.batch ++ [sixteenBytes], size := b.size + 16 } := by
      have hlen : encodedLen [sixteenBytes] = 16 := by decide
      have htrim : trimGroup b.inEffect [sixteenBytes] = [sixteenBytes] := by
        simp [trimGroup, show sixteenBytes.type ≠ tlvRouterID by decide]
      have heffect : groupEffect b.inEffect [sixteenBytes] = b.inEffect := by
        simp [groupEffect, show sixteenBytes.type ≠ tlvRouterID by decide]
      rw [Batching.add, htrim, hlen, heffect, if_neg (by simp; omega)]
    have hrun : b.run packetSize i (List.replicate (n + 1) sixteenBytes) =
        (b.add packetSize i [sixteenBytes]).run packetSize (i + 1) (List.replicate n sixteenBytes) := by
      cases n with
      | zero => rfl
      | succ n =>
        rw [List.replicate_succ, List.replicate_succ, Batching.run, if_neg fun h => absurd h.1 (by decide)]
    obtain ⟨hbatch, hclosed, hpending⟩ := ih (b.add packetSize i [sixteenBytes]) (i + 1) (by rw [hadd]; dsimp only; omega)
    rw [hrun, hbatch, hclosed, hpending, hadd]
    simp [List.replicate_succ]

/-- A packet whose body is 65536 bytes long names a length of zero, and decodes to nothing. -/
theorem rawSaid_wraps {n : Nat} (hn : 16 * n = 65536) : rawSaid 65540 (List.replicate n sixteenBytes) = [] := by
  obtain ⟨hbatch, hclosed, hpending⟩ := run_replicate 65540 n { pending := [] } 0 (by simp only [headerLen]; omega)
  have hstamp : ∀ micros, stampAll micros (List.replicate n sixteenBytes) = List.replicate n sixteenBytes := by
    intro micros
    refine List.ext_getElem (by simp [stampAll]) fun i _ _ => ?_
    simp [stampAll, stampHello_of_ne (show sixteenBytes.type ≠ tlvHello by decide)]
  have hframed : ∀ t ∈ List.replicate n sixteenBytes, Framed t := fun t ht => by
    rw [List.eq_of_mem_replicate ht]
    exact ⟨by decide, by decide, by decide⟩
  have hlen : encodedLen (List.replicate n sixteenBytes) = 65536 := by
    rw [encodedLen, List.map_replicate, List.sum_replicate_nat, show sixteenBytes.body.length = 14 from rfl]
    omega
  have hdecode : decodePacket (encodePacket (List.replicate n sixteenBytes)) = .ok [] := by
    have heq : encodePacket (List.replicate n sixteenBytes) =
        magic :: version :: 0 :: 0 :: (List.replicate n sixteenBytes).flatMap encodeTLV := by
      have hzero : Bytes.toBytes (BitVec.ofNat 16 65536) = [0, 0] := by decide
      simp only [encodePacket, length_encode hframed, hlen, hzero]
      rfl
    rw [heq, decodePacket, if_neg (by simp [headerLen])]
    simp only [List.getD_cons_zero, List.getD_cons_succ, ne_eq, not_true, if_false, List.drop_succ_cons, List.drop_zero,
      List.take_succ_cons, List.take_zero, headerLen]
    rw [show (Bytes.ofBytes 16 [0, 0]).toNat = 0 by decide, if_neg (by simp)]
    rfl
  have hsplit : splitBatches 65540 (rawAction (List.replicate n sixteenBytes) []) =
      [(List.replicate n sixteenBytes, [])] := by
    have hempty : (List.replicate n sixteenBytes).isEmpty = false := by
      rw [List.isEmpty_eq_false_iff]
      intro h
      rw [List.replicate_eq_nil_iff] at h
      omega
    rw [splitBatches]
    simp only [rawAction, hbatch, List.nil_append, hempty, Batching.take, hclosed, hpending]
    rfl
  simp [rawSaid, rawOutcome, emitReserved, coalesce, sortByPriority, reserveEach, reserveBatchesTo, hsplit, reserveAll,
    Reserved.add, packetPayload, hstamp, packetItems, hdecode, Parser.items]

theorem rawSaid_wraps_ne {n : Nat} (hn : 16 * n = 65536) :
    rawSaid 65540 (List.replicate n sixteenBytes) ≠ ({} : Parser).items (List.replicate n sixteenBytes) := by
  rw [rawSaid_wraps hn]
  obtain ⟨m, rfl⟩ : ∃ m, n = m + 1 := ⟨n - 1, by omega⟩
  rw [List.replicate_succ, Parser.items,
    (read_other {} (show sixteenBytes.type ≠ tlvRouterID by decide) (show sixteenBytes.type ≠ tlvUpdate by decide)).2]
  exact (List.cons_ne_nil _ _).symm

end EmitAux

/-- Actions no builder makes lose their meaning: a TLV longer than the packet, a body longer than its length byte can name, a Hello
(stamped as it leaves), an Update that relies on the Router-Id of another, padding, a body whose length its header cannot name, and an undo that names no TLV. -/
theorem raw_actions_change_meaning :
    (∃ out ∈ rawOutcome 63 [⟨32, List.replicate 58 0⟩] [], ∃ p ∈ out.packets, 63 < p.payload.length) ∧
      rawSaid 1352 [⟨32, List.replicate 256 0⟩] ≠ ({} : Parser).items [⟨32, List.replicate 256 0⟩] ∧
      rawSaid 63 [Group.helloTLV 1 400] ≠ ({} : Parser).items [Group.helloTLV 1 400] ∧
      rawSaid 63 [encodeRouterID 1, hostUpdate, hostUpdate] ≠ ({} : Parser).items [encodeRouterID 1, hostUpdate, hostUpdate] ∧
      rawSaid 63 [⟨tlvPadN, [0]⟩] ≠ ({} : Parser).items [⟨tlvPadN, [0]⟩] ∧
      rawSaid 65540 (List.replicate 4096 sixteenBytes) ≠ ({} : Parser).items (List.replicate 4096 sixteenBytes) ∧
      ((rawOutcome 63 [sixteenBytes] [⟨1, docKey, true⟩]).flatMap fun out => out.lost ++ out.packets.flatMap (·.undo)) = [] := by
  refine ⟨by decide +kernel, by decide +kernel, by decide +kernel, by decide +kernel, by decide +kernel,
    rawSaid_wraps_ne (by decide), by decide +kernel⟩

end RanetLite.Babel
