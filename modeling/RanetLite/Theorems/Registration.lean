import Mathlib.Data.List.Perm.Basic
import RanetLite.Ike.ChildState

/-!
# Registered inbound SPIs

The SPIs a session has on the hub are those of its slots, each once (`Registered`). An operation takes one SPI: a replacement registers a
new one in front of the others, and a retirement moves one of them to the end of those that drain or gives it back.
-/

namespace RanetLite.Ike.ChildState

open Transport Moves

namespace RegistrationAux

/-- What a mux has registered is the list, unless it is closed; the list has no SPI twice and no zero. -/
structure Owns (mux : Nat) (hub : Hub) (spis : List UInt32) : Prop where
  held : hub.closed mux = false → hub.esp.held mux = {spi | spi ∈ spis}
  nodup : spis.Nodup
  nonzero : 0 ∉ spis

section

variable {mux : Nat} {hub : Hub} {spi : UInt32} {spis : List UInt32}

/-- The order of the list does not matter. -/
theorem Owns.perm (h : Owns mux hub spis) {spis' : List UInt32} (hperm : spis.Perm spis') : Owns mux hub spis' where
  held hopen := by
    rw [h.held hopen]
    ext spi
    exact hperm.mem_iff
  nodup := hperm.nodup_iff.mp h.nodup
  nonzero := fun hmem => h.nonzero (hperm.mem_iff.mpr hmem)

/-- A new SPI in front. -/
theorem Owns.register (h : Owns mux hub spis) {hub' : Hub} (hreg : hub.registerESP mux spi = .ok hub') (hnew : spi ∉ spis) :
    Owns mux hub' (spi :: spis) := by
  obtain ⟨h0, hopen, esp, hclaim, rfl⟩ := Hub.registerESP_ok hreg
  refine ⟨fun _ => ?_, List.nodup_cons.mpr ⟨hnew, h.nodup⟩, fun hmem => ?_⟩
  · rw [Owners.held_claim hclaim, h.held hopen]
    ext spi
    simp
  · rcases List.mem_cons.mp hmem with heq | hmem
    · exact h0 heq.symm
    · exact h.nonzero hmem

/-- The first SPI given back. -/
theorem Owns.unregister (h : Owns mux hub (spi :: spis)) : Owns mux (hub.unregisterESP mux spi) spis := by
  have hnodup := List.nodup_cons.mp h.nodup
  refine ⟨fun hopen => ?_, hnodup.2, fun hmem => h.nonzero (List.mem_cons_of_mem _ hmem)⟩
  rw [Hub.unregisterESP, Owners.held_release, h.held hopen]
  ext i
  simp only [List.mem_cons, Set.mem_sdiff, Set.mem_ofPred_eq, Set.mem_singleton_iff]
  exact ⟨fun hi => hi.1.resolve_left hi.2, fun hi => ⟨.inr hi, fun heq => hnodup.1 (heq ▸ hi)⟩⟩

/-- What the hub does for others leaves this mux its SPIs. -/
theorem Owns.of_held (h : Owns mux hub spis) {hub' : Hub}
    (hsame : hub'.closed mux = false → hub.closed mux = false ∧ hub'.esp.held mux = hub.esp.held mux) : Owns mux hub' spis where
  held hopen := by
    rw [(hsame hopen).2]
    exact h.held (hsame hopen).1
  nodup := h.nodup
  nonzero := h.nonzero

end

/-- The invariant: the session has registered the SPIs of its slots. -/
def Registered (mux : Nat) (s : ChildState) : Prop := Owns mux s.hub s.inboundSPIs

variable {mux : Nat} {onChild : ChildSA → Option String} {onRetire : UInt32 → Option String} {clock : Int} {s s' : ChildState}

/-- What a retirement can do: fail, let the SPI drain, or give it back. -/
theorem retireInbound_cases (spi : UInt32) (replaced : Bool) :
    (∃ e, s.retireInbound mux onRetire clock spi replaced = (s, some e)) ∨
      (replaced = true ∧
        s.retireInbound mux onRetire clock spi replaced = ({ s with retired := s.retired ++ [⟨spi, clock + s.childRetireDelay⟩] }, none)) ∨
      s.retireInbound mux onRetire clock spi replaced = ({ s with hub := s.hub.unregisterESP mux spi }, none) := by
  rw [retireInbound]
  by_cases hdrain : replaced = true ∧ 0 < s.childRetireDelay
  · rw [if_pos hdrain]
    exact .inr (.inl ⟨hdrain.1, rfl⟩)
  · rw [if_neg hdrain]
    cases onRetire spi with
    | some err => exact .inl ⟨_, rfl⟩
    | none => exact .inr (.inr rfl)

/-- A retirement that fails changes nothing. -/
theorem retireInbound_error {spi : UInt32} {replaced : Bool} {e : ChildError}
    (h : s.retireInbound mux onRetire clock spi replaced = (s', some e)) : s' = s := by
  rcases @retireInbound_cases mux onRetire clock s spi replaced with ⟨e', he⟩ | ⟨-, he⟩ | he <;> rw [he] at h <;> cases h
  rfl

/-- A retirement of another slot. -/
theorem retireInbound_frame {spi : UInt32} {replaced : Bool} {e : Option ChildError}
    (h : s.retireInbound mux onRetire clock spi replaced = (s', e)) : s'.retiring = s.retiring ∧ s'.retiringBy = s.retiringBy := by
  rcases @retireInbound_cases mux onRetire clock s spi replaced with ⟨e', he⟩ | ⟨-, he⟩ | he <;> rw [he] at h <;> cases h <;>
    exact ⟨rfl, rfl⟩

/-- One slot given up: the SPI of the active Child SA, or of one that drained, goes back to the hub, and that of a replaced one drains or
goes back. The replaced one leaves only where `replaced` allows it. -/
inductive GivesUp (mux : Nat) (replaced : Prop) : ChildState → ChildState → Prop
  | child {s : ChildState} (h0 : s.child.localSPI ≠ 0) :
      GivesUp mux replaced s { s with hub := s.hub.unregisterESP mux s.child.localSPI, child := {} }
  | drains {s : ChildState} (h : replaced) (h0 : s.retiring.localSPI ≠ 0) (dueAt : Int) :
      GivesUp mux replaced s { s with retired := s.retired ++ [⟨s.retiring.localSPI, dueAt⟩], retiring := {} }
  | retiring {s : ChildState} (h : replaced) (h0 : s.retiring.localSPI ≠ 0) :
      GivesUp mux replaced s { s with hub := s.hub.unregisterESP mux s.retiring.localSPI, retiring := {} }
  | drained {s : ChildState} {r : ChildRetirement} {rest : List ChildRetirement} (h : s.retired = r :: rest) :
      GivesUp mux replaced s { s with hub := s.hub.unregisterESP mux r.spi, retired := rest }

section

variable {replaced : Prop}

/-- The active Child SA leaves its slot altogether: only a replaced one drains. -/
theorem givesUp_child (h0 : s.child.localSPI ≠ 0)
    (hret : s.retireInbound mux onRetire clock s.child.localSPI false = (s', none)) : GivesUp mux replaced s { s' with child := {} } := by
  rcases @retireInbound_cases mux onRetire clock s s.child.localSPI false with ⟨e, he⟩ | ⟨habs, -⟩ | he
  · rw [he] at hret
    cases hret
  · cases habs
  · rw [he] at hret
    cases hret
    exact .child h0

/-- The replaced Child SA leaves its slot for the ones that drain, or altogether. -/
theorem givesUp_retiring (h : replaced) (h0 : s.retiring.localSPI ≠ 0)
    (hret : s.retireInbound mux onRetire clock s.retiring.localSPI true = (s', none)) :
    GivesUp mux replaced s { s' with retiring := {} } := by
  rcases @retireInbound_cases mux onRetire clock s s.retiring.localSPI true with ⟨e, he⟩ | ⟨-, he⟩ | he <;> rw [he] at hret <;> cases hret
  · exact .drains h h0 _
  · exact .retiring h h0

/-- `retireChild` gives up the slot of the replaced Child SA that it names. -/
theorem givesUp_retireChild {remoteSPI : UInt32} (h : remoteSPI = s.retiring.remoteSPI → replaced) :
    Relation.ReflTransGen (GivesUp mux replaced) s (s.retireChild mux onRetire clock remoteSPI).1 := by
  rw [ChildState.retireChild]
  split
  · exact .refl
  · next h0 =>
    split
    · exact .refl
    · next hremote =>
      split
      · next he =>
        rw [retireInbound_error he]
      · next he => exact .single (givesUp_retiring (h (not_not.mp hremote).symm) h0 he)

/-- `forgetChild` gives up the slot of the active Child SA, if it is still the one. -/
theorem givesUp_forgetChild (child : ChildSA) :
    Relation.ReflTransGen (GivesUp mux replaced) s (s.forgetChild mux onRetire clock child).1 := by
  rw [ChildState.forgetChild]
  split
  · exact .refl
  · next h0 =>
    split
    · exact .refl
    · next hsame =>
      rw [not_or, not_not] at hsame
      rw [← hsame.1]
      split
      · next he =>
        rw [retireInbound_error he]
      · next he => exact .single (givesUp_child h0 he)

/-- The drained ones that are due are given up in order. -/
theorem givesUp_expireDrained (now : Int) (rs : List ChildRetirement) (hrs : s.retired = rs) :
    Relation.ReflTransGen (GivesUp mux replaced) s (expireDrained mux onRetire clock now rs s).1 := by
  induction rs generalizing s with
  | nil => exact .refl
  | cons r rest ih =>
    rw [ChildState.expireDrained]
    split
    · exact .refl
    · rcases @retireInbound_cases mux onRetire clock s r.spi false with ⟨e, he⟩ | ⟨habs, -⟩ | he
      · rw [he]
      · cases habs
      · rw [he]
        exact .head (.drained hrs) (ih rfl)

/-- The replaced Child SA is given up at its deadline, then the drained ones. -/
theorem givesUp_expireRetiredChildren {now : Int} (h : s.retiringBy ≤ now → replaced) :
    Relation.ReflTransGen (GivesUp mux replaced) s (s.expireRetiredChildren mux onRetire clock now).1 := by
  rw [ChildState.expireRetiredChildren]
  split
  · next hdue =>
    split
    · next he =>
      rw [retireInbound_error he]
    · next he => exact .head (givesUp_retiring (h hdue.2) hdue.1 he) (givesUp_expireDrained now _ rfl)
  · exact givesUp_expireDrained now _ rfl

/-- A Delete gives up the slots that it names. -/
theorem givesUp_deleteChildren {remoteSPIs : List UInt32} (h : s.retiring.remoteSPI ∈ remoteSPIs → replaced) :
    Relation.ReflTransGen (GivesUp mux replaced) s (deleteChildren mux onRetire clock remoteSPIs s).1 := by
  induction remoteSPIs generalizing s with
  | nil => exact .refl
  | cons remoteSPI rest ih =>
    rw [ChildState.deleteChildren]
    split
    · next hactive =>
      split
      · next he =>
        rw [retireInbound_error he]
      · next he =>
        refine .head (givesUp_child hactive.1 he) (ih fun hmem => h (List.mem_cons_of_mem _ ?_))
        rwa [← (retireInbound_frame he).1]
    · split
      · next hretiring =>
        split
        · next he =>
          rw [retireInbound_error he]
        · next he =>
          have hreplaced := h (hretiring.2 ▸ List.mem_cons_self)
          exact .head (givesUp_retiring hreplaced hretiring.1 he) (ih fun _ => hreplaced)
      · exact ih fun hmem => h (List.mem_cons_of_mem _ hmem)

end

/-- Giving up a slot gives up one SPI of the hub, or moves it to the end. -/
theorem Registered.givesUp {replaced : Prop} (h : Registered mux s) (hstep : GivesUp mux replaced s s') : Registered mux s' := by
  cases hstep with
  | child h0 =>
    rw [Registered, inboundSPIs, if_neg h0] at h
    exact h.unregister
  | drains _ h0 =>
    rw [Registered, inboundSPIs, if_neg h0] at h
    refine h.perm ?_
    simp only [inboundSPIs, if_true, List.map_append, List.map_cons, List.map_nil, List.nil_append]
    refine List.Perm.append_left _ ?_
    rw [List.singleton_append]
    exact (List.perm_append_singleton _ _).symm
  | retiring _ h0 =>
    rw [Registered, inboundSPIs, if_neg h0] at h
    exact (h.perm List.perm_middle : Owns mux s.hub (s.retiring.localSPI :: _)).unregister
  | @drained r rest hrs =>
    rw [Registered, inboundSPIs, hrs, List.map_cons] at h
    refine (h.perm ?_ : Owns mux s.hub (r.spi :: _)).unregister
    -- the SPI is behind those of the two slots
    rw [← List.append_assoc, inboundSPIs, ← List.append_assoc]
    exact List.perm_middle

/-- So does giving up slots one after another. -/
theorem Registered.givesUpAll {replaced : Prop} (h : Registered mux s) (hall : Relation.ReflTransGen (GivesUp mux replaced) s s') :
    Registered mux s' := keeps_chain hall h Registered.givesUp

/-- What allows a replacement: nothing retires, and the SPI is in no slot. -/
theorem canReplaceChild_none {localSPI : UInt32} (h : s.canReplaceChild localSPI = none) :
    s.retiring.localSPI = 0 ∧ localSPI ∉ s.inboundSPIs := by
  rw [canReplaceChild] at h
  by_cases hretiring : s.retiring.localSPI = 0
  · rw [if_neg (by simpa using hretiring)] at h
    by_cases hactive : localSPI = s.child.localSPI
    · rw [if_pos hactive] at h
      cases h
    · rw [if_neg hactive] at h
      by_cases hdrain : (s.retired.any fun r => r.spi = localSPI) = true
      · rw [if_pos hdrain] at h
        cases h
      · refine ⟨hretiring, fun hmem => ?_⟩
        rw [inboundSPIs, if_pos hretiring, List.nil_append, List.mem_append] at hmem
        rcases hmem with hmem | hmem
        · split at hmem
          · cases hmem
          · exact hactive (List.mem_singleton.mp hmem)
        · obtain ⟨r, hr, hspi⟩ := List.mem_map.mp hmem
          exact hdrain (List.any_eq_true.mpr ⟨r, hr, by simpa using hspi⟩)
  · rw [if_pos hretiring] at h
    cases h

/-- What a replacement can do: fail and leave everything as it was, or register its SPI and take the slot. -/
theorem replaceChild_cases (h : Registered mux s) (child : ChildSA) :
    (∃ e, s.replaceChild mux onChild clock child = (s, some e)) ∨
      ∃ hub, s.hub.registerESP mux child.localSPI = .ok hub ∧ s.retiring.localSPI = 0 ∧ child.localSPI ∉ s.inboundSPIs ∧
        s.replaceChild mux onChild clock child =
          (if s.child.localSPI ≠ 0 then
            { s with hub := hub, child := child, retiring := s.child, retiringBy := clock + retirementDeadline }
          else { s with hub := hub, child := child }, none) := by
  rw [replaceChild]
  cases hcan : s.canReplaceChild child.localSPI with
  | some e => exact .inl ⟨e, rfl⟩
  | none =>
    obtain ⟨hretiring, hnew⟩ := canReplaceChild_none hcan
    dsimp only
    cases hreg : s.hub.registerESP mux child.localSPI with
    | error e => exact .inl ⟨_, rfl⟩
    | ok hub =>
      dsimp only
      cases onChild child with
      | some err =>
        -- The SPI was nobody's before, so giving it back restores the hub.
        obtain ⟨-, hopen, esp, hclaim, rfl⟩ := Hub.registerESP_ok hreg
        have hback : esp.release child.localSPI mux = s.hub.esp :=
          Owners.release_claim hclaim (by rw [h.held hopen]; exact hnew)
        refine .inl ⟨.handler err, ?_⟩
        dsimp only
        rw [Hub.unregisterESP, hback]
      | none =>
        refine .inr ⟨hub, rfl, hretiring, hnew, ?_⟩
        dsimp only
        split <;> rfl

/-- A replacement registers the SPI of its slot. -/
theorem Registered.replaceChild (h : Registered mux s) (child : ChildSA) :
    Registered mux (s.replaceChild mux onChild clock child).1 := by
  rcases @replaceChild_cases mux onChild clock s h child with ⟨e, he⟩ | ⟨hub, hreg, hretiring, hnew, he⟩
  · rw [he]
    exact h
  · have hnext := Owns.register h hreg hnew
    have h0 : child.localSPI ≠ 0 := (Hub.registerESP_ok hreg).1
    rw [he]
    rw [inboundSPIs, if_pos hretiring] at hnext
    by_cases hold : s.child.localSPI = 0
    · rw [if_neg (by simpa using hold), Registered, inboundSPIs, if_neg h0, if_pos hretiring]
      rw [if_pos hold] at hnext
      exact hnext
    · rw [if_pos hold, Registered, inboundSPIs, if_neg h0, if_neg hold]
      rw [if_neg hold] at hnext
      exact hnext

/-- Every move keeps the invariant. -/
theorem Registered.move (h : Registered mux s) {m : Move} (hen : (system mux).enabled s m) : Registered mux ((system mux).apply s m) := by
  cases m with
  | replaceChild child onChild clock => exact h.replaceChild child
  | retireChild => exact h.givesUpAll (givesUp_retireChild fun _ => trivial)
  | expireRetiredChildren => exact h.givesUpAll (givesUp_expireRetiredChildren fun _ => trivial)
  | forgetChild child => exact h.givesUpAll (@givesUp_forgetChild mux _ _ s True child)
  | deleteChildren => exact h.givesUpAll (givesUp_deleteChildren fun _ => trivial)
  | otherRegisters other spi =>
    refine Owns.of_held h fun hopen => ?_
    simp only [system] at hopen ⊢
    cases hreg : s.hub.registerESP other spi with
    | error e =>
      rw [hreg] at hopen
      exact ⟨hopen, rfl⟩
    | ok hub =>
      rw [hreg] at hopen
      obtain ⟨-, -, esp, hclaim, rfl⟩ := Hub.registerESP_ok hreg
      exact ⟨hopen, Owners.held_claim_of_ne hclaim (Ne.symm hen)⟩
  | otherUnregisters other spi => exact Owns.of_held h fun hopen => ⟨hopen, Owners.held_release_of_ne (Ne.symm hen)⟩
  | close other =>
    refine Owns.of_held h fun hopen => ?_
    simp only [system, Hub.close] at hopen ⊢
    by_cases hmux : mux = other
    · rw [if_pos hmux] at hopen
      cases hopen
    · rw [if_neg hmux] at hopen
      exact ⟨hopen, Owners.held_clear_of_ne hmux⟩

end RegistrationAux

open RegistrationAux

end RanetLite.Ike.ChildState
