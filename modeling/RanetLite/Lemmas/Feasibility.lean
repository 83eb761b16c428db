import RanetLite.Lemmas.Mesh
import RanetLite.Lemmas.Speaking

/-!
# The distance of a source only improves

Seqnos that lie in a window of half the circle are ordered by how far they are above its bottom, and there `seqnoGT` is that order. In
such a window, the distance a node holds for a source is at least as good as everything the node told of it, over whole runs of the
node (`Node.Run.ranked`). A raise of the origin seqno may take it one above the window's top; a distance from its bottom then compares
with nothing, which `Node.Stuck` records.
-/

namespace RanetLite.Babel

/-- How far a seqno is above the bottom of a window. -/
def rank (base seqno : UInt16) : Nat := (seqno - base).toNat

namespace FeasAux

variable {base base' a b : UInt16}

/-- In a window, a later seqno is a higher one; only its top and its bottom, half a circle apart, do not compare. -/
theorem seqnoGT_iff_rank (ha : rank base a ≤ 2 ^ 15) (hb : rank base b ≤ 2 ^ 15) :
    seqnoGT a b = true ↔ rank base b < rank base a ∧ ¬(rank base a = 2 ^ 15 ∧ rank base b = 0) := by
  have h1 := a.toNat_lt
  have h2 := b.toNat_lt
  have h3 := base.toNat_lt
  unfold rank at *
  rw [seqnoGT, Bool.and_eq_true, decide_eq_true_iff, decide_eq_true_iff]
  simp only [UInt16.toNat_sub] at *
  omega

theorem rank_inj (h : rank base a = rank base b) : a = b := by
  have heq : a - base = b - base := UInt16.toNat_inj.mp h
  rw [← UInt16.sub_add_cancel a base, heq, UInt16.sub_add_cancel]

theorem rank_succ (h : rank base a < 2 ^ 15) : rank base (a + 1) = rank base a + 1 := by
  have h1 := a.toNat_lt
  have h2 := base.toNat_lt
  have h3 : (1 : UInt16).toNat = 1 := rfl
  unfold rank at *
  simp only [UInt16.toNat_sub, UInt16.toNat_add] at *
  omega

/-- Two seqnos half a circle apart are in no window together. -/
theorem rank_apart (ha : rank base a = 0) (hb : rank base b = 2 ^ 15) (ha' : rank base' a < 2 ^ 15) : ¬rank base' b < 2 ^ 15 := by
  have h1 := a.toNat_lt
  have h2 := b.toNat_lt
  have h3 := base.toNat_lt
  have h4 := base'.toNat_lt
  unfold rank at *
  simp only [UInt16.toNat_sub] at *
  omega

end FeasAux

open FeasAux

namespace Distance

variable {base s m s' m' : UInt16} {d : Distance}

/-- A distance is at least as good as a seqno and a metric, in the order of a window. -/
def Below (base : UInt16) (d : Distance) (s m : UInt16) : Prop := rank base s < rank base d.seqno ∨ s = d.seqno ∧ d.metric ≤ m

theorem better_iff_rank (hs : rank base s ≤ 2 ^ 15) (hd : rank base d.seqno ≤ 2 ^ 15) :
    d.better s m = true ↔ rank base d.seqno < rank base s ∧ ¬(rank base s = 2 ^ 15 ∧ rank base d.seqno = 0) ∨
      s = d.seqno ∧ m < d.metric := by
  rw [better, Bool.or_eq_true, Bool.and_eq_true, decide_eq_true_iff, decide_eq_true_iff, seqnoGT_iff_rank hs hd]

/-- What does not better a distance is not above it, unless the two are the top and the bottom of the window. -/
theorem below_of_not_better (hs : rank base s ≤ 2 ^ 15) (hd : rank base d.seqno ≤ 2 ^ 15) (h : d.better s m = false) :
    d.Below base s m ∨ rank base s = 2 ^ 15 ∧ rank base d.seqno = 0 := by
  rw [← Bool.not_eq_true, better_iff_rank hs hd, not_or] at h
  by_cases heq : rank base s = rank base d.seqno
  · have hse := rank_inj heq
    exact .inl (.inr ⟨hse, UInt16.not_lt.mp fun hlt => h.2 ⟨hse, hlt⟩⟩)
  · by_cases htop : rank base s = 2 ^ 15 ∧ rank base d.seqno = 0
    · exact .inr htop
    · have hnot : ¬rank base d.seqno < rank base s := fun hlt => h.1 ⟨hlt, htop⟩
      exact .inl (.inl (by omega))

theorem Below.not_better (hs : rank base s ≤ 2 ^ 15) (hd : rank base d.seqno ≤ 2 ^ 15) (h : d.Below base s m) :
    d.better s m = false := by
  rw [← Bool.not_eq_true, better_iff_rank hs hd]
  rintro (⟨hlt, -⟩ | ⟨heq, hlt⟩)
  · obtain hlt' | ⟨rfl, -⟩ := h <;> omega
  · obtain hlt' | ⟨-, hle⟩ := h
    · rw [heq] at hlt'
      omega
    · exact UInt16.not_le.mpr hlt hle

/-- What betters a distance is at least as good as whatever the distance is. -/
theorem Below.of_better (hs' : rank base s' ≤ 2 ^ 15) (hd : rank base d.seqno ≤ 2 ^ 15) (hb : d.better s' m' = true)
    (h : d.Below base s m) (gc : Time) : (⟨s', m', gc⟩ : Distance).Below base s m := by
  rw [better_iff_rank hs' hd] at hb
  obtain ⟨hlt, -⟩ | ⟨rfl, hlt⟩ := hb
  · obtain hlt' | ⟨rfl, -⟩ := h
    · exact .inl (hlt'.trans hlt)
    · exact .inl hlt
  · obtain hlt' | ⟨rfl, hle⟩ := h
    · exact .inl hlt'
    · exact .inr ⟨rfl, UInt16.le_trans (UInt16.le_of_lt hlt) hle⟩

end Distance

namespace Node

variable {base : UInt16} {key : RouteKey} {id : RouterID} {now : Time} {v v' : Node} {raises : Nat} {effects : List Effect}

/-- The seqnos a node has of a source lie in a window, with room for the raises of the origin seqno that are to come. -/
structure Ranked (base : UInt16) (key : RouteKey) (id : RouterID) (v : Node) (raises : Nat) : Prop where
  routes : ∀ {e n r}, v.entries key = some e → e.routes n = some r → r.metric ≠ metricInfinity →
    r.routerID = id ∧ rank base r.seqno < 2 ^ 15
  distance : ∀ {d}, v.sources ⟨key, id⟩ = some d → rank base d.seqno ≤ 2 ^ 15
  origin : key ∈ v.originate → v.routerID = id ∧ rank base v.originSeqno + raises ≤ 2 ^ 15

/-- The distance held for a source is at least as good as a seqno and a metric. -/
def Held (base : UInt16) (key : RouteKey) (id : RouterID) (v : Node) (s m : UInt16) : Prop :=
  ∃ d, v.sources ⟨key, id⟩ = some d ∧ d.Below base s m

/-- The distance is from the bottom of the window, and the origin seqno has left its top. -/
def Stuck (base : UInt16) (key : RouteKey) (id : RouterID) (v : Node) : Prop :=
  key ∈ v.originate ∧ rank base v.originSeqno = 2 ^ 15 ∧ ∃ d, v.sources ⟨key, id⟩ = some d ∧ rank base d.seqno = 0

/-- What a node says of the source is in the window, and only its own seqno can be past it. -/
theorem Ranked.speaks (h : v.Ranked base key id raises) (hs : v.Sound) {n : NeighborRef} {adv : Advertisement}
    (hspeaks : v.Speaks n key adv) : adv.routerID = id ∧ (rank base adv.seqno < 2 ^ 15 ∨
      key ∈ v.originate ∧ adv.seqno = v.originSeqno ∧ rank base adv.seqno ≤ 2 ^ 15) := by
  cases hspeaks with
  | origin hor =>
    obtain ⟨hid, hrank⟩ := h.origin hor
    exact ⟨hid, .inr ⟨hor, rfl, Nat.le_of_add_right_le hrank⟩⟩
  | transit _ _ hentry hsel _ =>
    obtain hnone | ⟨m, r, hm, hr, hfinite, hid, hseq, -⟩ := hs.choice hentry
    · exact absurd (hsel.symm.trans hnone) (by simp)
    · obtain ⟨hown, hrank⟩ := h.routes hentry hr hfinite
      dsimp only
      rw [hid, hseq]
      exact ⟨hown, .inl hrank⟩

/-- Telling of the source: the distance stays at least as good as before, and is as good as what was told, or stuck. -/
theorem Ranked.tell {raises : Nat} (h : v.Ranked base key id raises) (hs : v.Sound) {n : NeighborRef} {adv : Advertisement}
    (hspeaks : v.Speaks n key adv) {d : Option Distance} (hd : v.sources ⟨key, id⟩ = d) :
    rank base (observed d adv now).seqno ≤ 2 ^ 15 ∧ (∀ s m d0, d = some d0 → d0.Below base s m → (observed d adv now).Below base s m) ∧
      (v.Stuck base key id → rank base (observed d adv now).seqno = 0) ∧
      ((observed d adv now).Below base adv.seqno adv.metric ∨
        key ∈ v.originate ∧ rank base v.originSeqno = 2 ^ 15 ∧ rank base (observed d adv now).seqno = 0) := by
  obtain ⟨-, hvoice⟩ := h.speaks hs hspeaks
  have hrank : rank base adv.seqno ≤ 2 ^ 15 := hvoice.elim Nat.le_of_lt fun ho => ho.2.2
  have hself : ∀ gc, (⟨adv.seqno, adv.metric, gc⟩ : Distance).Below base adv.seqno adv.metric := fun gc =>
    .inr ⟨rfl, UInt16.le_refl _⟩
  cases d with
  | none =>
    refine ⟨hrank, fun _ _ _ heq => absurd heq (by simp), ?_, .inl (hself _)⟩
    rintro ⟨-, -, d0, hd0, -⟩
    exact absurd (hd.symm.trans hd0) (by simp)
  | some d =>
    have hdrank := h.distance hd
    unfold observed
    dsimp only
    split_ifs with hb
    · refine ⟨hrank, ?_, ?_, .inl (hself _)⟩
      · rintro s m d0 heq hbelow
        obtain rfl := Option.some.inj heq
        exact hbelow.of_better hrank hdrank hb _
      · -- a stuck distance is bettered by nothing the origin says
        rintro ⟨hor, htop, d0, hd0, hzero⟩
        obtain rfl := Option.some.inj (hd.symm.trans hd0)
        have hadv : adv.seqno = v.originSeqno := by
          cases hspeaks with
          | origin => rfl
          | transit hlocal => exact absurd hor hlocal
        rw [Distance.better_iff_rank hrank hdrank, hadv, htop] at hb
        obtain ⟨-, hnot⟩ | ⟨heq, -⟩ := hb
        · exact absurd ⟨rfl, hzero⟩ hnot
        · rw [← heq] at hzero
          omega
    · refine ⟨hdrank, ?_, ?_, ?_⟩
      · rintro s m d0 heq hbelow
        obtain rfl := Option.some.inj heq
        exact hbelow
      · rintro ⟨-, -, d0, hd0, hzero⟩
        obtain rfl := Option.some.inj (hd.symm.trans hd0)
        exact hzero
      · obtain hbelow | ⟨htop, hzero⟩ := Distance.below_of_not_better hrank hdrank (Bool.eq_false_iff.mpr hb)
        · exact .inl hbelow
        · obtain hlt | ⟨hor, heq, -⟩ := hvoice
          · omega
          · exact .inr ⟨hor, by rw [← heq]; exact htop, hzero⟩

/-- How many raises a step shows. -/
def raisesOf (effects : List Effect) : Nat := (effects.filter Effect.isRaised).length

/-- What a step of a run may show, for the source to stay in its window. -/
structure Admits (base : UInt16) (key : RouteKey) (id : RouterID) (effects : List Effect) : Prop where
  changed : .changed ∉ effects
  kept : .collected ⟨key, id⟩ ∉ effects
  heard : ∀ {n adv hold}, .heard n key adv hold ∈ effects → adv.metric ≠ metricInfinity → adv.routerID = id ∧ rank base adv.seqno < 2 ^ 15

/-- What a run leaves of the source: the window, and a distance as good as before and as everything told, unless it is stuck. -/
structure Improves (base : UInt16) (key : RouteKey) (id : RouterID) (raises : Nat) (v : Node) (effects : List Effect) (v' : Node) :
    Prop where
  ranked : v'.Ranked base key id raises
  held : ∀ {s m}, v.Held base key id s m → v'.Held base key id s m
  stuck : v.Stuck base key id → v'.Stuck base key id
  told : ∀ {n adv spent}, .told n key adv spent ∈ effects → adv.metric ≠ metricInfinity →
    adv.routerID = id ∧ rank base adv.seqno ≤ 2 ^ 15 ∧ (v'.Held base key id adv.seqno adv.metric ∨ v'.Stuck base key id)

/-- A step that leaves the distance, the originations and the origin seqno alone. -/
theorem improves_frame (h : v.Ranked base key id raises) (hsources : v'.sources ⟨key, id⟩ = v.sources ⟨key, id⟩)
    (horiginate : v'.originate = v.originate) (hid : v'.routerID = v.routerID) (hseqno : v'.originSeqno = v.originSeqno)
    (hroutes : ∀ {e n r}, v'.entries key = some e → e.routes n = some r → r.metric ≠ metricInfinity →
      r.routerID = id ∧ rank base r.seqno < 2 ^ 15)
    (hsilent : ∀ {n adv spent}, .told n key adv spent ∈ effects → adv.metric = metricInfinity) :
    Improves base key id raises v effects v' := by
  refine ⟨⟨hroutes, fun hd => h.distance (hsources ▸ hd), ?_⟩, ?_, ?_, fun htold hm => absurd (hsilent htold) hm⟩
  · rw [horiginate, hid, hseqno]
    exact h.origin
  · rintro s m ⟨d, hd, hbelow⟩
    exact ⟨d, hsources.trans hd, hbelow⟩
  · rintro ⟨hor, htop, d, hd, hzero⟩
    exact ⟨horiginate ▸ hor, hseqno ▸ htop, d, hsources.trans hd, hzero⟩

theorem Step.ranked {effect : Option Effect} (h : Step now v effect v') (hs : v.Sound)
    (hr : v.Ranked base key id (raisesOf effect.toList + raises)) (hadmits : Admits base key id effect.toList) :
    Improves base key id raises v effect.toList v' := by
  have hrest : v.Ranked base key id raises := ⟨hr.routes, hr.distance, fun hor =>
    ⟨(hr.origin hor).1, by have := (hr.origin hor).2; omega⟩⟩
  have hroutes : ∀ {e n r}, v'.entries key = some e → e.routes n = some r → r.metric ≠ metricInfinity →
      r.routerID = id ∧ rank base r.seqno < 2 ^ 15 := by
    intro e n r he hr' hm
    obtain ⟨e0, he0, hr0⟩ | ⟨adv, hold, rfl, hfinite, hid, hseq, -⟩ := h.finite_route he hr' hm
    · exact hr.routes he0 hr0 hm
    · rw [hid, hseq]
      exact hadmits.heard (List.mem_singleton_self _) hfinite
  cases h with
  | weaken _ _ hsettles | learn _ _ _ _ _ hsettles =>
    obtain ⟨routes, sel, empty, -, -, -⟩ := hsettles
    refine improves_frame hrest ?_ ?_ ?_ ?_ hroutes (by simp) <;> cases empty <;> rfl
  | @tell n key' adv hspeaks hfinite =>
    by_cases hkey : key' = key
    · subst hkey
      obtain ⟨hid, -⟩ := hrest.speaks hs hspeaks
      rw [hid] at hroutes ⊢
      obtain ⟨hrank, hheld, hstuck, htold⟩ := @Ranked.tell base key' id now v raises hrest hs n adv hspeaks _ rfl
      have hself : ∀ x : Option Distance, Function.update v.sources ⟨key', id⟩ x ⟨key', id⟩ = x := fun x => Function.update_self _ _ _
      refine ⟨⟨hroutes, ?_, hrest.origin⟩, ?_, ?_, ?_⟩
      · intro d hd
        obtain rfl := Option.some.inj ((hself _).symm.trans hd)
        exact hrank
      · rintro s m ⟨d, hd, hbelow⟩
        exact ⟨_, hself _, hheld s m d hd hbelow⟩
      · rintro hst
        exact ⟨hst.1, hst.2.1, _, hself _, hstuck hst⟩
      · intro n' adv' spent hmem _
        obtain ⟨rfl, -, rfl, -⟩ := Effect.told.inj (List.mem_singleton.mp hmem)
        obtain ⟨-, hvoice⟩ := hrest.speaks hs hspeaks
        refine ⟨hid, hvoice.elim Nat.le_of_lt fun ho => ho.2.2, ?_⟩
        obtain hbelow | ⟨hor, htop, hzero⟩ := htold
        · exact .inl ⟨_, hself _, hbelow⟩
        · exact .inr ⟨hor, htop, _, hself _, hzero⟩
    · refine improves_frame hrest (Function.update_of_ne (fun heq => hkey (SourceKey.mk.inj heq).1.symm) _ _) rfl rfl rfl hroutes ?_
      intro n' adv' spent hmem
      obtain ⟨-, rfl, -, -⟩ := Effect.told.inj (List.mem_singleton.mp hmem)
      exact absurd rfl hkey
  | retract _ hinfinite =>
    refine improves_frame hrest rfl rfl rfl rfl hroutes fun hmem => ?_
    obtain ⟨-, -, rfl, -⟩ := Effect.told.inj (List.mem_singleton.mp hmem)
    exact hinfinite
  | restore => exact improves_frame hrest rfl rfl rfl rfl hroutes (by simp)
  | @collect index d hd hgc =>
    refine improves_frame hrest (Function.update_of_ne (fun heq => hadmits.kept ?_) _ _) rfl rfl rfl hroutes (by simp)
    rw [heq]
    exact List.mem_singleton_self _
  | raise =>
    have hroom : key ∈ v.originate → rank base v.originSeqno < 2 ^ 15 := fun hor => by
      have := (hr.origin hor).2
      have hone : raisesOf (some Effect.raised).toList = 1 := rfl
      omega
    refine ⟨⟨hroutes, hrest.distance, fun hor => ⟨(hr.origin hor).1, ?_⟩⟩, fun h => h, ?_, by simp⟩
    · have := (hr.origin hor).2
      have hone : raisesOf (some Effect.raised).toList = 1 := rfl
      dsimp only
      rw [rank_succ (hroom hor)]
      omega
    · rintro ⟨hor, htop, -⟩
      have := hroom hor
      omega
  | adopt | disown | register | unregister => exact absurd (List.mem_singleton_self _) hadmits.changed

/-- A run keeps the window, and the distance only improves. -/
theorem Run.ranked (h : Run now v effects v') : v.Sound → ∀ {raises : Nat},
    v.Ranked base key id (raisesOf effects + raises) → Admits base key id effects → Improves base key id raises v effects v' := by
  induction h with
  | refl => exact fun _ _ hr _ => ⟨by simpa [raisesOf] using hr, fun h => h, fun h => h, by simp⟩
  | @step v v' v'' effect effects hstep _ ih =>
    intro hs raises hr hadmits
    have hcount : raisesOf (effect.toList ++ effects) + raises = raisesOf effect.toList + (raisesOf effects + raises) := by
      simp only [raisesOf, List.filter_append, List.length_append]
      omega
    rw [hcount] at hr
    have hfirst := hstep.ranked hs hr ⟨fun hmem => hadmits.changed (List.mem_append_left _ hmem),
      fun hmem => hadmits.kept (List.mem_append_left _ hmem), fun hmem => hadmits.heard (List.mem_append_left _ hmem)⟩
    have hlater := ih (sound_step hstep hs) hfirst.ranked ⟨fun hmem => hadmits.changed (List.mem_append_right _ hmem),
      fun hmem => hadmits.kept (List.mem_append_right _ hmem), fun hmem => hadmits.heard (List.mem_append_right _ hmem)⟩
    refine ⟨hlater.ranked, fun hh => hlater.held (hfirst.held hh), fun hst => hlater.stuck (hfirst.stuck hst), fun hmem hm => ?_⟩
    obtain hmem | hmem := List.mem_append.mp hmem
    · obtain ⟨hid, hrank, hheld⟩ := hfirst.told hmem hm
      exact ⟨hid, hrank, hheld.imp hlater.held hlater.stuck⟩
    · exact hlater.told hmem hm

/-- A run that tells nothing and collects nothing of a source leaves its distance alone. -/
theorem Run.sources_kept (h : Run now v effects v') {index : SourceKey} :
    (∀ e ∈ effects, e.isTold = false) → .collected index ∉ effects → v'.sources index = v.sources index := by
  induction h with
  | refl => exact fun _ _ => rfl
  | step hstep _ ih =>
    intro htold hkept
    rw [List.forall_mem_append] at htold
    rw [ih htold.2 fun hmem => hkept (List.mem_append_right _ hmem)]
    cases hstep with
    | weaken _ _ hsettles | learn _ _ _ _ _ hsettles =>
      obtain ⟨routes, sel, empty, -, -, -⟩ := hsettles
      cases empty <;> rfl
    | tell => exact absurd (htold.1 _ (List.mem_singleton_self _)) (by simp [Effect.isTold])
    | collect =>
      refine Function.update_of_ne (fun heq => hkept ?_) _ _
      rw [heq]
      exact List.mem_append_left _ (List.mem_singleton_self _)
    | retract | restore | raise | adopt | disown | register | unregister => rfl

end Node

end RanetLite.Babel
