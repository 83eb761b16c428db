import RanetLite.Lemmas.Building
import RanetLite.Theorems.Packets

/-!
# Emission is a run of the node

Emission changes what neighbors were told and are owed, and nothing else the protocol is about: an undo puts a spent record back. Every
packet it places carries groups of one target of the actions.
-/

namespace RanetLite.Babel

open Netip BatchAux SimAux BuildAux EmitAux

namespace EmitAux

variable {now : Time} {s s' : Speaker} {n : NeighborRef}

/-- A run that shows nothing and changes only what neighbors are told and owed. -/
structure Recalls (now : Time) (s s' : Speaker) : Prop where
  frame : Frame s s'
  raised : s'.raisedSeqno = s.raisedSeqno
  writes : Speaker.Writes now s s'
  run : Node.Run now s.node [] s'.node

/-- Nothing changed. -/
theorem recalls_refl (s : Speaker) : Recalls now s s := ⟨.refl s, rfl, .refl, .refl _⟩

/-- Recalls compose. -/
theorem recalls_trans {s'' : Speaker} (h : Recalls now s s') (h' : Recalls now s' s'') : Recalls now s s'' :=
  ⟨h.frame.trans h'.frame, h'.raised.trans h.raised, h.writes.trans h'.writes, h.run.trans h'.run⟩

/-- A quiet change recalls nothing. -/
theorem recalls_quiet (h : Quiet now s s') : Recalls now s s' :=
  ⟨h.frame, h.raised, h.writes, by rw [h.node]; exact .refl _⟩

/-- A loop of recalls is one. -/
theorem recalls_foldl {α : Type} {f : Speaker → α → Speaker} {xs : List α} (h : ∀ s, ∀ x ∈ xs, Recalls now s (f s x)) :
    ∀ s, Recalls now s (xs.foldl f s) := by
  induction xs with
  | nil => exact fun s => recalls_refl s
  | cons x rest ih =>
    intro s
    exact recalls_trans (h s x List.mem_cons_self) (ih (fun s y hy => h s y (List.mem_cons_of_mem _ hy)) (f s x))

/-- `oweAgain` puts a spent record back. -/
theorem recalls_oweAgain (s : Speaker) (n : NeighborRef) {undo : TlvUndo} (h : undo.spent = true → undo.key.Canonical) :
    Recalls now s (s.oweAgain n undo) := by
  have hback : Recalls now s (if undo.spent then
      s.modify n fun st => { st with advertised := st.advertised.insert undo.key () } else s) := by
    split_ifs with hspent
    · refine ⟨frame_modify rfl rfl, rfl, .single (.neighbor n (.rest rfl)), ?_⟩
      rw [node_modify rfl, mem_insert_set]
      exact .single (.restore n (h hspent))
    · exact recalls_refl s
  unfold Speaker.oweAgain
  dsimp only
  generalize (if undo.spent = true then
    s.modify n fun st => { st with advertised := st.advertised.insert undo.key () } else s) = s1 at hback ⊢
  split_ifs
  · exact recalls_trans hback (recalls_quiet (quiet_modify rfl rfl rfl (.rest rfl)))
  · exact hback

/-- What a refused packet gives back. -/
theorem recalls_giveBack (s : Speaker) {result : SendAction × Reserved}
    (h : ∀ undo ∈ result.2.lost, undo.spent = true → undo.key.Canonical) : Recalls now s (s.giveBack result) := by
  have hlost : Recalls now s (result.2.lost.foldl (fun s undo => s.oweAgain result.1.neighbor undo) s) :=
    recalls_foldl (fun s undo hu => recalls_oweAgain s result.1.neighbor (h undo hu)) s
  unfold Speaker.giveBack
  dsimp only
  split_ifs
  · exact hlost
  · exact recalls_trans hlost (recalls_quiet (quiet_foldl (fun _ _ => quiet_modify rfl rfl rfl (.rest rfl)) _ _))

/-- The undos of groups are those of canonical keys. -/
theorem owed_canonical {gs : List Group} (h : ∀ g ∈ gs, g.Ok) {key : RouteKey} {spent : Bool}
    (hmem : (key, spent) ∈ gs.flatMap Group.owed) : key.Canonical := by
  obtain ⟨g, hg, hg'⟩ := List.mem_flatMap.mp hmem
  cases g with
  | update id key' seqno metric interval spent' =>
    obtain ⟨rfl, rfl⟩ := Prod.mk.inj (List.mem_singleton.mp hg')
    exact h _ hg
  | hello | other => exact absurd hg' (by simp [Group.owed])

/-- A group for a target is of an action to it. -/
theorem mem_groupsFor {t : NeighborRef × Addr × SendPriority} {plan : List (SendAction × List Group)} {g : Group}
    (h : g ∈ groupsFor t plan) : ∃ p ∈ plan, p.1.target = t ∧ g ∈ p.2 := by
  obtain ⟨p, hp, hg⟩ := List.mem_flatMap.mp h
  rw [List.mem_filter] at hp
  exact ⟨p, hp.1, by simpa using hp.2, hg⟩

/-- A related partner of an element on the right. -/
theorem exists_of_forall₂_right {α β : Type} {R : α → β → Prop} {l : List α} {l' : List β} (h : List.Forall₂ R l l') {b : β}
    (hb : b ∈ l') : ∃ a ∈ l, R a b := by
  induction h with
  | nil => cases hb
  | cons hr _ ih =>
    obtain rfl | hb := List.mem_cons.mp hb
    · exact ⟨_, List.mem_cons_self, hr⟩
    · obtain ⟨a, ha, hr⟩ := ih hb
      exact ⟨a, List.mem_cons_of_mem _ ha, hr⟩

/-- What a run of groups owes is what each of its undos names. -/
theorem mem_owed_of_undo {undos : List TlvUndo} {gs : List Group}
    (h : undos.map (fun u => (u.key, u.spent)) = gs.flatMap Group.owed) {u : TlvUndo} (hu : u ∈ undos) :
    (u.key, u.spent) ∈ gs.flatMap Group.owed := by
  rw [← h]
  exact List.mem_map_of_mem (f := fun u : TlvUndo => (u.key, u.spent)) hu

/-- What a result of a target holds is among what the results of its target hold. -/
theorem mem_results {α : Type} {f : Reserved → List α} {results : List (SendAction × Reserved)} {r : SendAction × Reserved}
    (hr : r ∈ results) {x : α} (hx : x ∈ f r.2) :
    x ∈ ((results.filter fun r' => r'.1.target = r.1.target).map Prod.snd).flatMap f :=
  List.mem_flatMap.mpr ⟨r.2, List.mem_map_of_mem (List.mem_filter.mpr ⟨hr, by simp⟩), hx⟩

/-- The groups of some of the runs are groups of the runs. -/
theorem mem_flatten_filter {chunks : List (Bool × List Group)} {f : Bool × List Group → Bool} {g : Group}
    (hg : g ∈ ((chunks.filter f).map Prod.snd).flatten) : g ∈ (chunks.map Prod.snd).flatten := by
  obtain ⟨c, hc, hgc⟩ := List.mem_flatten.mp hg
  obtain ⟨m, hm, rfl⟩ := List.mem_map.mp hc
  exact List.mem_flatten.mpr ⟨m.2, List.mem_map_of_mem (List.mem_of_mem_filter hm), hgc⟩

end EmitAux

/-- `emitLocked` gives back what was refused, and its packets carry groups of the actions. -/
theorem emitLocked_spec {s : Speaker} (hmin : 63 ≤ s.cfg.packetSize) (hmax : s.cfg.packetSize < headerLen + 65536)
    {plan : List (SendAction × List Group)} (hbuilt : ∀ p ∈ plan, p.1.Built p.2) (now : Time) (rs : List Reservation) :
    Recalls now s (s.emitLocked (plan.map Prod.fst) now rs).1 ∧
      ∀ p ∈ (s.emitLocked (plan.map Prod.fst) now rs).2, ∃ t chunk, ReservedPacket.Carries s.cfg.packetSize t chunk p ∧
        ∀ g ∈ chunk, g ∈ groupsFor t plan := by
  obtain ⟨-, hgroups, -⟩ := coalesce_spec fun p hp => (hbuilt p hp).mono hmin
  obtain ⟨runs, -, hruns⟩ := reserveEach_spec hmin hmax (G := fun a => groupsFor a.target plan)
    (fun a ha => hgroups a ((sortByPriority_perm _).mem_iff.mp ha)) rs
  have hgroup : ∀ t g, g ∈ ((answersFor rs runs t).map Prod.snd).flatten → g ∈ groupsFor t plan := by
    intro t g hg
    rw [(hruns t).groups] at hg
    obtain ⟨a, ha, hg⟩ := List.mem_flatMap.mp hg
    rw [← of_decide_eq_true (List.mem_filter.mp ha).2]
    exact hg
  constructor
  · have hback : Recalls now s ((emitReserved s.cfg.packetSize (plan.map Prod.fst) rs).foldl Speaker.giveBack s) := by
      refine recalls_foldl (fun s r hr => recalls_giveBack s fun undo hu _ => ?_) s
      refine owed_canonical (fun g hg => ?_) (mem_owed_of_undo (hruns r.1.target).lost (mem_results hr hu))
      obtain ⟨p, hp, -, hg⟩ := mem_groupsFor (hgroup r.1.target g (mem_flatten_filter hg))
      exact (hbuilt p hp).ok g hg
    unfold Speaker.emitLocked
    dsimp only
    split_ifs
    · exact hback
    · exact recalls_trans hback (recalls_quiet (quiet_timers rfl))
  · intro p hp
    obtain ⟨r, hr, hpr⟩ := List.mem_flatMap.mp hp
    obtain ⟨chunk, hchunk, hcarries⟩ := exists_of_forall₂_right (hruns r.1.target).packets (mem_results hr hpr)
    refine ⟨r.1.target, chunk, hcarries, fun g hg => hgroup _ g ?_⟩
    exact mem_flatten_filter (List.mem_flatten.mpr ⟨chunk, hchunk, hg⟩)

end RanetLite.Babel
