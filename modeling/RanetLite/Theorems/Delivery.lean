import RanetLite.Lemmas.Inbound

/-!
# A sequence number is delivered at most once

The numbers committed on the SAs are kept in a list without repetitions, and every plaintext that can be read is of a number in it
that no other result has (`Delivers`). Every step of a caller keeps that, so it holds however the calls of any number of workers and
emitters interleave.
-/

namespace RanetLite.Esp

open InboundAux

/-- A result that passed authentication: its packet has its number in the header, and opens to its plaintext. -/
def Authentic (sas : SaRef → InboundSA) (held : Held) : Prop :=
  held.result.err = none → held.result.committed = false → ∀ self, held.result.sa = some self →
    (sas self).checkHeader held.packet = .ok held.result.seq ∧ (sas self).decrypt held.packet = .ok held.result.plain

/-- A packet past the checks and before its decryption. -/
def Checked (sas : SaRef → InboundSA) (self : SaRef) (held : Held) : Prop :=
  held.result.sa = some self ∧ held.result.committed = false ∧
    (held.result.err = none → (sas self).checkHeader held.packet = .ok held.result.seq)

/-- The invariant of a set of SAs under calls. -/
structure Delivers (s : Inbound) (spent : List (SaRef × UInt32)) : Prop where
  spends : Spends s.sas spent
  once : s.yields.Nodup
  yielded : ∀ entry ∈ s.yields, entry ∈ spent
  readable : ∀ held ∈ s.results, ∀ x, held.result.plaintext = .ok x → ∃ entry ∈ s.yields, held.result.reads = some entry
  apart : ∀ (i j : Nat) (held held' : Held), s.results[i]? = some held → s.results[j]? = some held' → ∀ entry,
    held.result.reads = some entry → held'.result.reads = some entry → i = j
  authentic : ∀ held ∈ s.results, Authentic s.sas held
  calling : ∀ call ∈ s.calls, (∀ held ∈ call.done, Authentic s.sas held ∧ held.result.committed = false) ∧
    ∀ held ∈ call.todo, Checked s.sas call.sa held

namespace DeliveryAux

variable {s s' : Inbound} {spent : List (SaRef × UInt32)} {self : SaRef} {held : Held} {sas : SaRef → InboundSA} {i : Nat}

/-- Results that cannot be read yet may be handed to a caller. -/
theorem delivers_hand (h : Delivers s spent) {calls : List AuthCall} {more : List Held}
    (hcalls : ∀ call ∈ calls, (∀ held ∈ call.done, Authentic s.sas held ∧ held.result.committed = false) ∧
      ∀ held ∈ call.todo, Checked s.sas call.sa held)
    (hmore : ∀ held ∈ more, Authentic s.sas held ∧ held.result.committed = false) :
    Delivers { s with calls := calls, results := s.results ++ more } spent := by
  have hlate : ∀ (i : Nat) (held : Held) (entry : SaRef × UInt32), (s.results ++ more)[i]? = some held →
      held.result.reads = some entry → s.results[i]? = some held := by
    intro i held entry hheld hreads
    by_cases hi : i < s.results.length
    · rwa [List.getElem?_append_left hi] at hheld
    · rw [List.getElem?_append_right (Nat.le_of_not_lt hi)] at hheld
      rw [reads_of_error (plaintext_of_uncommitted (hmore held (List.mem_of_getElem? hheld)).2)] at hreads
      exact absurd hreads (by simp)
  refine ⟨h.spends, h.once, h.yielded, ?_, ?_, ?_, hcalls⟩
  · refine List.forall_mem_append.mpr ⟨h.readable, fun held hheld x hx => ?_⟩
    rw [plaintext_of_uncommitted (hmore held hheld).2] at hx
    exact absurd hx (by simp)
  · intro i j held held' hi hj entry hr hr'
    exact h.apart i j held held' (hlate i held entry hi hr) (hlate j held' entry hj hr') entry hr hr'
  · exact List.forall_mem_append.mpr ⟨h.authentic, fun held hheld => (hmore held hheld).1⟩

theorem checked_precheck {pkt : List UInt8} {p : AuthenticatedPacket} (h : (s.sas self).precheck self pkt = some p) :
    Checked s.sas self ⟨pkt, p⟩ := by
  unfold InboundSA.precheck at h
  cases hheader : (s.sas self).checkHeader pkt with
  | error e =>
    rw [hheader] at h
    rw [← Option.some.inj h]
    exact ⟨rfl, rfl, fun hnone => absurd hnone (by simp)⟩
  | ok seq =>
    rw [hheader] at h
    obtain ⟨r, -, hr⟩ := Option.map_eq_some_iff.mp h
    rw [← hr]
    cases r with
    | error e => exact ⟨rfl, rfl, fun hnone => absurd hnone (by simp)⟩
    | ok => exact ⟨rfl, rfl, fun _ => hheader⟩

theorem checked_precheckAll {packets : List (List UInt8)} : ∀ {todo : List Held},
    (s.sas self).precheckAll self packets = some todo → ∀ held ∈ todo, Checked s.sas self held := by
  unfold InboundSA.precheckAll
  induction packets with
  | nil =>
    intro todo h
    rw [← Option.some.inj h]
    simp
  | cons pkt rest ih =>
    intro todo h
    rw [List.mapM_cons] at h
    obtain ⟨first, hfirst, h⟩ := Option.bind_eq_some_iff.mp h
    obtain ⟨others, hothers, h⟩ := Option.bind_eq_some_iff.mp h
    obtain ⟨p, hp, rfl⟩ := Option.map_eq_some_iff.mp hfirst
    rw [← Option.some.inj h]
    exact List.forall_mem_cons.mpr ⟨checked_precheck hp, ih hothers⟩

theorem authentic_finish (h : Checked s.sas self held) :
    Authentic s.sas { held with result := (s.sas self).finish held.result held.packet } ∧
      ((s.sas self).finish held.result held.packet).committed = false := by
  obtain ⟨hsa, hcommitted, hheader⟩ := h
  unfold InboundSA.finish
  by_cases herr : held.result.err.isSome = true
  · rw [if_pos herr]
    refine ⟨fun hnone => ?_, hcommitted⟩
    dsimp only at hnone
    rw [hnone] at herr
    exact absurd herr (by simp)
  · rw [if_neg herr]
    have hnone := Option.not_isSome_iff_eq_none.mp herr
    cases hdecrypt : (s.sas self).decrypt held.packet with
    | error e => exact ⟨fun he => absurd he (by simp), hcommitted⟩
    | ok plain =>
      refine ⟨fun _ _ other hother => ?_, hcommitted⟩
      dsimp only at hother ⊢
      obtain rfl : self = other := Option.some.inj (hsa.symm.trans hother)
      exact ⟨hheader hnone, hdecrypt⟩

/-- What is known of packets depends on the keys alone. -/
theorem authentic_same {sas' : SaRef → InboundSA} (h : SameKeys sas sas') (ha : Authentic sas held) : Authentic sas' held := by
  intro herr hcommitted self hsa
  rw [checkHeader_same h, decrypt_same h]
  exact ha herr hcommitted self hsa

theorem checked_same {sas' : SaRef → InboundSA} (h : SameKeys sas sas') (hc : Checked sas self held) : Checked sas' self held := by
  obtain ⟨hsa, hcommitted, hheader⟩ := hc
  exact ⟨hsa, hcommitted, fun herr => by rw [checkHeader_same h]; exact hheader herr⟩

theorem getElem?_set_cases {α : Type} {l : List α} {j : Nat} {a b : α} (h : (l.set i a)[j]? = some b) :
    i = j ∧ b = a ∨ i ≠ j ∧ l[j]? = some b := by
  by_cases hij : i = j
  · subst hij
    rw [List.getElem?_set, if_pos rfl] at h
    split_ifs at h
    exact .inl ⟨rfl, (Option.some.inj h).symm⟩
  · rw [List.getElem?_set_ne hij] at h
    exact .inr ⟨hij, h⟩

/-- A result at one index exchanged for one that cannot be read. -/
theorem delivers_silent (h : Delivers s spent) {p : AuthenticatedPacket} (hcommitted : p.committed = true)
    (herr : p.err.isSome = true) :
    Delivers { s with results := s.results.set i { held with result := p }, yields := s.yields ++ p.reads.toList } spent := by
  obtain ⟨e, he⟩ := plaintext_of_err herr
  have hnone := reads_of_error he
  have hkeep : ∀ (j : Nat) (held' : Held) (entry : SaRef × UInt32), (s.results.set i ⟨held.packet, p⟩)[j]? = some held' →
      held'.result.reads = some entry → s.results[j]? = some held' := by
    intro j held' entry hj hr
    obtain ⟨-, rfl⟩ | ⟨-, hj⟩ := getElem?_set_cases hj
    · dsimp only at hr
      rw [hnone] at hr
      exact absurd hr (by simp)
    · exact hj
  rw [hnone, Option.toList_none, List.append_nil]
  refine ⟨h.spends, h.once, h.yielded, ?_, ?_, ?_, h.calling⟩
  · intro held' hheld' x hx
    obtain hmem | rfl := List.mem_or_eq_of_mem_set hheld'
    · exact h.readable held' hmem x hx
    · dsimp only at hx
      rw [he] at hx
      exact absurd hx (by simp)
  · intro j k a b hj hk entry ha hb
    exact h.apart j k a b (hkeep j a entry hj ha) (hkeep k b entry hk hb) entry ha hb
  · intro held' hheld'
    obtain hmem | rfl := List.mem_or_eq_of_mem_set hheld'
    · exact h.authentic held' hmem
    · intro _ huncommitted
      exact absurd hcommitted (by simp [show p.committed = false from huncommitted])

/-- A commit that spends a number makes at most its own result readable. -/
theorem delivers_spend (h : Delivers s spent) {i : Nat} {held : Held} {self : SaRef} {sas : SaRef → InboundSA}
    {p : AuthenticatedPacket} (hcommitted : p.committed = true) (hsa : p.sa = some self) (hkeys : SameKeys s.sas sas)
    (hspends : Spends sas ((self, p.seq) :: spent)) (hnew : (self, p.seq) ∉ spent) :
    Delivers { s with
      sas := sas, results := s.results.set i { held with result := p }, yields := s.yields ++ p.reads.toList }
      ((self, p.seq) :: spent) := by
  have hreads : ∀ entry, p.reads = some entry → entry = (self, p.seq) := by
    intro entry hr
    unfold AuthenticatedPacket.reads at hr
    rw [hsa] at hr
    cases hx : p.plaintext with
    | error e => simp [hx] at hr
    | ok x =>
      rw [hx] at hr
      exact (Option.some.inj hr).symm
  have hfresh : (self, p.seq) ∉ s.yields := fun hmem => hnew (h.yielded _ hmem)
  have hother : ∀ held' ∈ s.results, held'.result.reads ≠ some (self, p.seq) := by
    intro held' hmem hr
    cases hx : held'.result.plaintext with
    | error e =>
      rw [reads_of_error hx] at hr
      exact absurd hr (by simp)
    | ok x =>
      obtain ⟨entry, hentry, hr'⟩ := h.readable held' hmem x hx
      rw [hr] at hr'
      exact hfresh (Option.some.inj hr' ▸ hentry)
  refine ⟨hspends, ?_, ?_, ?_, ?_, ?_, ?_⟩
  · rw [List.nodup_append]
    refine ⟨h.once, by cases p.reads <;> simp, fun a ha b hb hab => ?_⟩
    rw [hreads b (Option.mem_toList.mp hb)] at hab
    exact hfresh (hab ▸ ha)
  · refine List.forall_mem_append.mpr ⟨fun entry hentry => List.mem_cons_of_mem _ (h.yielded entry hentry), fun entry hentry => ?_⟩
    rw [hreads entry (Option.mem_toList.mp hentry)]
    exact List.mem_cons_self
  · intro held' hheld' x hx
    obtain hmem | rfl := List.mem_or_eq_of_mem_set hheld'
    · obtain ⟨entry, hentry, hr⟩ := h.readable held' hmem x hx
      exact ⟨entry, List.mem_append_left _ hentry, hr⟩
    · dsimp only at hx ⊢
      have hr : p.reads = some (self, p.seq) := by simp [AuthenticatedPacket.reads, hx, hsa]
      exact ⟨_, List.mem_append_right _ (Option.mem_toList.mpr hr), hr⟩
  · intro j k a b hj hk entry ha hb
    obtain ⟨rfl, rfl⟩ | ⟨-, hj⟩ := getElem?_set_cases hj
    · obtain ⟨hjk, -⟩ | ⟨-, hk⟩ := getElem?_set_cases hk
      · exact hjk
      · rw [hreads entry ha] at hb
        exact absurd hb (hother b (List.mem_of_getElem? hk))
    · obtain ⟨rfl, rfl⟩ | ⟨-, hk⟩ := getElem?_set_cases hk
      · rw [hreads entry hb] at ha
        exact absurd ha (hother a (List.mem_of_getElem? hj))
      · exact h.apart j k a b hj hk entry ha hb
  · intro held' hheld'
    obtain hmem | rfl := List.mem_or_eq_of_mem_set hheld'
    · exact authentic_same hkeys (h.authentic held' hmem)
    · intro _ huncommitted
      exact absurd hcommitted (by simp [show p.committed = false from huncommitted])
  · intro call hcall
    obtain ⟨hdone, htodo⟩ := h.calling call hcall
    exact ⟨fun held hheld => ⟨authentic_same hkeys (hdone held hheld).1, (hdone held hheld).2⟩,
      fun held hheld => checked_same hkeys (htodo held hheld)⟩

/-- A commit does not panic. It leaves the windows alone, or spends the number of an authentic result. -/
theorem commit_spec (h : Delivers s spent) (hheld : s.results[i]? = some held) :
    (∃ s', s.commit i = some s' ∧ s'.sas = s.sas ∧ Delivers s' spent ∧ (held.result.committed = false → held.result.err = none →
      ∀ self, held.result.sa = some self → ¬Admits (s.sas self).window.window (spentOn self spent) held.result.seq)) ∨
    ∃ s' self, s.commit i = some s' ∧ held.result.sa = some self ∧ held.result.committed = false ∧ held.result.err = none ∧
      (∀ other, other ≠ self → s'.sas other = s.sas other) ∧ Delivers s' ((self, held.result.seq) :: spent) := by
  have hrun : ∀ sas p, held.result.commitLocked s.sas = some (sas, p) → s.commit i = some { s with
      sas := sas, results := s.results.set i { held with result := p }, yields := s.yields ++ p.reads.toList } := by
    intro sas p hp
    simp [Inbound.commit, hheld, hp]
  obtain ⟨p, hp, hcommitted, herr, hrefused⟩ | ⟨self, window, hp, hsa, huncommitted, herr, hadmits, -, hspends⟩ :=
    commitLocked_spec h.spends held.result
  · exact .inl ⟨_, hrun _ _ hp, rfl, delivers_silent h hcommitted herr, hrefused⟩
  · obtain ⟨hcommitted, hsa', hseq'⟩ := opened_fields held.result
    have hnew : (self, held.result.opened.seq) ∉ spent := by
      rw [hseq']
      exact fun hmem => hadmits.2.1 (mem_spentOn.mpr hmem)
    have hdelivers := @delivers_spend _ _ h i held self _ held.result.opened hcommitted (hsa'.trans hsa)
      (sameKeys_update s.sas self window) (by rw [hseq']; exact hspends) hnew
    rw [hseq'] at hdelivers
    exact .inr ⟨_, self, hrun _ _ hp, hsa, huncommitted, herr, fun other hother => Function.update_of_ne hother _ _, hdelivers⟩

/-- Every step keeps the invariant. A step that changes a window is the commit of a result that passed authentication. -/
theorem delivers_step (h : Delivers s spent) (hstep : s.Step s') :
    ∃ spent', Delivers s' spent' ∧ spent ⊆ spent' ∧ ∀ self, (s'.sas self).window ≠ (s.sas self).window →
      ∃ i held, s.results[i]? = some held ∧ s.commit i = some s' ∧ held.result.sa = some self ∧
        held.result.committed = false ∧ held.result.err = none := by
  have hsilent : s'.sas = s.sas → Delivers s' spent → ∃ spent', Delivers s' spent' ∧ spent ⊆ spent' ∧
      ∀ self, (s'.sas self).window ≠ (s.sas self).window → ∃ i held, s.results[i]? = some held ∧ s.commit i = some s' ∧
        held.result.sa = some self ∧ held.result.committed = false ∧ held.result.err = none := by
    intro hsas hdelivers
    exact ⟨spent, hdelivers, List.Subset.refl _, fun self hne => absurd (by rw [hsas]) hne⟩
  have hcall : ∀ calls, (∀ call ∈ calls, (∀ held ∈ call.done, Authentic s.sas held ∧ held.result.committed = false) ∧
      ∀ held ∈ call.todo, Checked s.sas call.sa held) → Delivers { s with calls := calls } spent := fun _ hcalls =>
    ⟨h.spends, h.once, h.yielded, h.readable, h.apart, h.authentic, hcalls⟩
  cases hstep with
  | @authenticate self pkt p hcheck hok =>
    refine hsilent rfl (hcall _ ?_)
    refine List.forall_mem_append.mpr ⟨h.calling, List.forall_mem_singleton.mpr ⟨by simp, ?_⟩⟩
    exact List.forall_mem_singleton.mpr (checked_precheck hcheck)
  | @authenticateBatch self packets todo hcheck =>
    refine hsilent rfl (hcall _ ?_)
    exact List.forall_mem_append.mpr ⟨h.calling, List.forall_mem_singleton.mpr ⟨by simp, checked_precheckAll hcheck⟩⟩
  | @decrypt before after call held rest hcalls htodo =>
    have hall := h.calling
    rw [hcalls, List.forall_mem_append, List.forall_mem_cons] at hall
    obtain ⟨hbefore, ⟨hdone, hcheck⟩, hafter⟩ := hall
    rw [htodo, List.forall_mem_cons] at hcheck
    refine hsilent rfl (hcall _ ?_)
    refine List.forall_mem_append.mpr ⟨hbefore, List.forall_mem_cons.mpr ⟨⟨?_, hcheck.2⟩, hafter⟩⟩
    exact List.forall_mem_append.mpr ⟨hdone, List.forall_mem_singleton.mpr (authentic_finish hcheck.1)⟩
  | @return_ before after call hcalls htodo =>
    have hall := h.calling
    rw [hcalls, List.forall_mem_append, List.forall_mem_cons] at hall
    obtain ⟨hbefore, ⟨hdone, -⟩, hafter⟩ := hall
    refine hsilent rfl (delivers_hand h (List.forall_mem_append.mpr ⟨hbefore, hafter⟩) ?_)
    intro held hheld
    unfold AuthCall.returned at hheld
    split_ifs at hheld
    · exact hdone held (List.mem_of_mem_filter hheld)
    · exact hdone held hheld
  | make err =>
    refine hsilent rfl (delivers_hand h h.calling (List.forall_mem_singleton.mpr ⟨?_, rfl⟩))
    intro _ _ self hself
    exact absurd hself (by simp)
  | @commit _ i hcommit =>
    obtain ⟨held, hheld⟩ : ∃ held, s.results[i]? = some held := by
      obtain ⟨held, hheld, -⟩ := Option.bind_eq_some_iff.mp hcommit
      exact ⟨held, hheld⟩
    obtain ⟨s1, hs1, hsas, hdelivers, -⟩ | ⟨s1, self, hs1, hsa, huncommitted, herr, hother, hdelivers⟩ := commit_spec h hheld
    · obtain rfl := Option.some.inj (hs1.symm.trans hcommit)
      exact hsilent hsas hdelivers
    · obtain rfl := Option.some.inj (hs1.symm.trans hcommit)
      refine ⟨_, hdelivers, List.subset_cons_self _ _, fun other hne => ⟨i, held, hheld, hcommit, ?_, huncommitted, herr⟩⟩
      by_cases h' : other = self
      · rw [h', hsa]
      · exact absurd (by rw [hother other h']) hne

/-- Along a run the numbers spent only grow. -/
theorem delivers_run (h : Delivers s spent) (hrun : Relation.ReflTransGen Inbound.Step s s') :
    ∃ spent', Delivers s' spent' ∧ spent ⊆ spent' := by
  induction hrun with
  | refl => exact ⟨spent, h, List.Subset.refl _⟩
  | tail _ hstep ih =>
    obtain ⟨spent1, h1, hsub1⟩ := ih
    obtain ⟨spent2, h2, hsub2, -⟩ := delivers_step h1 hstep
    exact ⟨spent2, h2, List.Subset.trans hsub1 hsub2⟩

theorem delivers_init (hnew : ∀ self, ∃ window, window ≠ 0 ∧ (sas self).window = newReplayWindow (min window maxReplayWindow)) :
    Delivers { sas := sas } [] := by
  refine ⟨fun self => ?_, List.nodup_nil, by simp, by simp, by simp, by simp, by simp⟩
  obtain ⟨window, hne, hwindow⟩ := hnew self
  have hpos : window.toNat ≠ 0 := fun e => hne (UInt32.toNat_inj.mp (by simpa using e))
  have hmax : maxReplayWindow.toNat = 2 ^ 20 := by decide
  have hmin : min window maxReplayWindow = if window ≤ maxReplayWindow then window else maxReplayWindow := rfl
  rw [hwindow, hmin]
  by_cases hle : window ≤ maxReplayWindow
  · rw [if_pos hle]
    have := UInt32.le_iff_toNat_le.mp hle
    exact tracks_new (by omega) (by omega)
  · rw [if_neg hle]
    exact tracks_new (by omega) (by omega)

/-- The checks of a packet under the lock stay inside the bitmap. -/
theorem precheck_isSome (h : Spends s.sas spent) (self : SaRef) (pkt : List UInt8) :
    ((s.sas self).precheck self pkt).isSome = true := by
  unfold InboundSA.precheck
  cases (s.sas self).checkHeader pkt with
  | error e => rfl
  | ok seq =>
    obtain ⟨r, hr, -⟩ := check_spec h self seq
    simp [hr]

end DeliveryAux

open DeliveryAux

/-- However calls and commits interleave, on any number of SAs and for any packets: the SA and number of a plaintext made readable are
never those of another one, now or earlier; what is readable was made so by a commit; only the commit of a result whose packet passed
authentication changes a window; a result that passed authentication and that the window admits spends its number when committed,
whatever its trailer, so that the number is refused from then on; and nothing indexes the bitmap out of bounds. -/
theorem delivered_once {sas : SaRef → InboundSA}
    (hnew : ∀ self, ∃ window, window ≠ 0 ∧ (sas self).window = newReplayWindow (min window maxReplayWindow))
    {s : Inbound} (hrun : Relation.ReflTransGen Inbound.Step { sas := sas } s) :
    s.yields.Nodup ∧
    (∀ (i j : Nat) (held held' : Held), s.results[i]? = some held → s.results[j]? = some held' → ∀ entry,
      held.result.reads = some entry → held'.result.reads = some entry → i = j) ∧
    (∀ held ∈ s.results, ∀ x, held.result.plaintext = .ok x →
      held.result.committed = true ∧ ∃ entry ∈ s.yields, held.result.reads = some entry) ∧
    (∀ s', s.Step s' → ∀ self, (s'.sas self).window ≠ (s.sas self).window →
      ∃ i held, s.results[i]? = some held ∧ s.commit i = some s' ∧ held.result.sa = some self ∧ held.result.err = none ∧
        (s.sas self).checkHeader held.packet = .ok held.result.seq ∧ (s.sas self).decrypt held.packet = .ok held.result.plain) ∧
    (∀ (i : Nat) (held : Held) self, s.results[i]? = some held → held.result.committed = false → held.result.err = none →
      held.result.sa = some self → (s.sas self).window.check held.result.seq = some (.ok ()) →
      ∃ s', s.commit i = some s' ∧ ∀ s'', Relation.ReflTransGen Inbound.Step s' s'' →
        ∃ e, (s''.sas self).window.check held.result.seq = some (.error e)) ∧
    (∀ self pkt, ((s.sas self).precheck self pkt).isSome = true) ∧ ∀ i < s.results.length, (s.commit i).isSome = true := by
  obtain ⟨spent, h, -⟩ := delivers_run (delivers_init hnew) hrun
  refine ⟨h.once, h.apart, ?_, ?_, ?_, precheck_isSome h.spends, ?_⟩
  · intro held hheld x hx
    refine ⟨?_, h.readable held hheld x hx⟩
    by_contra hc
    rw [plaintext_of_uncommitted (Bool.eq_false_iff.mpr hc)] at hx
    exact absurd hx (by simp)
  · intro s' hstep self hne
    obtain ⟨-, -, -, hchange⟩ := delivers_step h hstep
    obtain ⟨i, held, hheld, hcommit, hsa, huncommitted, herr⟩ := hchange self hne
    obtain ⟨hheader, hdecrypt⟩ := h.authentic held (List.mem_of_getElem? hheld) herr huncommitted self hsa
    exact ⟨i, held, hheld, hcommit, hsa, herr, hheader, hdecrypt⟩
  · intro i held self hheld huncommitted herr hsa hcheck
    obtain ⟨r, hr, hiff⟩ := check_spec h.spends self held.result.seq
    obtain rfl := Option.some.inj (hr.symm.trans hcheck)
    obtain ⟨-, -, -, -, hrefused⟩ | ⟨s', self', hs', hsa', -, -, -, hdelivers⟩ := commit_spec h hheld
    · exact absurd (hiff.mp rfl) (hrefused huncommitted herr self hsa)
    · obtain rfl := Option.some.inj (hsa.symm.trans hsa')
      refine ⟨s', hs', fun s'' hrun' => ?_⟩
      obtain ⟨spent'', h'', hsub⟩ := delivers_run hdelivers hrun'
      exact check_spent h''.spends (hsub List.mem_cons_self)
  · intro i hi
    obtain ⟨s', hs', -⟩ | ⟨s', -, hs', -⟩ := commit_spec h (List.getElem?_eq_getElem hi) <;> simp [hs']

/-- An SA whose AEAD takes everything and cuts the tag off. -/
def trustingSA : InboundSA :=
  InboundSA.withReplayWindow 64
    { aeadOpen := fun _ ciphertext _ => .ok (ciphertext.take (ciphertext.length - icvLen)), salt := [0, 0, 0, 0], spi := 7,
      window := newReplayWindow 4096 }

/-- A packet of sequence number 1 with two bytes inside. -/
def firstPacket : List UInt8 := [0, 0, 0, 7, 0, 0, 0, 1] ++ List.replicate 8 0 ++ [9, 9, 0, 4] ++ List.replicate 16 0

/-- The packet authenticated by two callers at once, each past its check before the other commits. -/
def authenticatedTwice : Inbound :=
  { sas := fun _ => trustingSA, results := List.replicate 2 ⟨firstPacket, { sa := some 0, seq := 1, plain := [9, 9, 0, 4] }⟩ }

theorem authenticatedTwice_reachable : Relation.ReflTransGen Inbound.Step { sas := fun _ => trustingSA } authenticatedTwice := by
  have hcheck : trustingSA.precheck 0 firstPacket = some { sa := some 0, seq := 1 } := rfl
  have hfinish : trustingSA.finish { sa := some 0, seq := 1 } firstPacket = { sa := some 0, seq := 1, plain := [9, 9, 0, 4] } :=
    rfl
  refine .head (@Inbound.Step.authenticate _ 0 firstPacket _ hcheck rfl) ?_
  refine .head (@Inbound.Step.authenticate _ 0 firstPacket _ hcheck rfl) ?_
  refine .head (@Inbound.Step.decrypt _ [] _ _ _ _ rfl rfl) ?_
  refine .head (@Inbound.Step.return_ _ [] _ _ rfl rfl) ?_
  refine .head (@Inbound.Step.decrypt _ [] _ _ _ _ rfl rfl) ?_
  refine .head (@Inbound.Step.return_ _ [] _ _ rfl rfl) ?_
  dsimp only [AuthCall.returned]
  rw [hfinish]
  exact .refl

/-- Both commits, in the order of the results. -/
def committedTwice : Option Inbound := (authenticatedTwice.commit 0).bind (·.commit 1)

/-- Of two results for one packet the first to commit is readable, and the second is refused as a replay. -/
theorem delivered_once_replayed : ∃ s, Relation.ReflTransGen Inbound.Step { sas := fun _ => trustingSA } s ∧ s.yields.Nodup ∧
    s.yields = [(0, 1)] ∧ s.results.map (fun held => held.result.plaintext.toOption) = [some ([9, 9], 4), none] := by
  obtain ⟨s, hs⟩ := Option.isSome_iff_exists.mp (show committedTwice.isSome = true by decide +kernel)
  obtain ⟨s1, hs1, hs2⟩ := Option.bind_eq_some_iff.mp hs
  have hrun := (authenticatedTwice_reachable.tail (.commit hs1)).tail (.commit hs2)
  have hyields : committedTwice.map Inbound.yields = some [(0, 1)] := by decide +kernel
  have hresults : (committedTwice.map fun s => s.results.map fun held => held.result.plaintext.toOption) =
      some [some ([9, 9], 4), none] := by decide +kernel
  rw [hs] at hyields hresults
  exact ⟨s, hrun, (delivered_once (fun _ => ⟨64, by decide, rfl⟩) hrun).1, Option.some.inj hyields, Option.some.inj hresults⟩

end RanetLite.Esp
