import RanetLite.Ike.ChildSPI
import RanetLite.Theorems.Registration

/-!
# Reserved SPIs

The loop of `randUint32Nonzero` passes over the reserved SPIs 1 to 255, and three of the four calls that make a Child SA draw from
it. `handleChildRekey` has a loop of its own, which passes over zero only.
-/

namespace RanetLite.Ike.Choosing

open ChildState ChildState.RegistrationAux Transport

/-- Every inbound SPI in a slot of a session has a property. -/
structure Slots (P : UInt32 → Prop) (s : ChildState) : Prop where
  child : s.child.localSPI ≠ 0 → P s.child.localSPI
  retiring : s.retiring.localSPI ≠ 0 → P s.retiring.localSPI
  retired : ∀ r ∈ s.retired, P r.spi

/-- What a session keeps: whatever it has drawn, installed or has in a slot is not reserved. -/
structure Unreserved (s : Choosing) : Prop where
  drawn : ∀ spi ∈ s.drawn, 255 < spi
  installed : ∀ spi ∈ s.installed, 255 < spi
  slots : Slots (255 < ·) s.children

namespace ChildSPIAux

variable {mux : Nat} {onChild : ChildSA → Option String} {onRetire : UInt32 → Option String} {clock : Int} {s s' : ChildState}
  {P : UInt32 → Prop} {draws : List Draw} {spi : UInt32}

/-! ### Draws -/

/-- The loop passes over the reserved SPIs. -/
theorem above_randUint32Nonzero {rest : List Draw} (h : randUint32Nonzero draws = some (spi, rest)) : 255 < spi := by
  induction draws with
  | nil => cases h
  | cons d more ih =>
    unfold randUint32Nonzero at h
    split_ifs at h with habove
    · obtain ⟨rfl, -⟩ := Prod.mk.inj (Option.some.inj h)
      exact habove
    · exact ih h

/-- So does the draw of a negotiation. -/
theorem above_negotiateSPI {old : Option ChildSA} (h : negotiateSPI old draws = some spi) : 255 < spi := by
  fun_induction negotiateSPI old draws with
  | case1 => cases h
  | case2 draws word rest hdraw _ _ ih => exact ih h
  | case3 draws word rest hdraw _ _ =>
    obtain rfl := Option.some.inj h
    exact above_randUint32Nonzero hdraw

/-- `handleChildRekey` draws the first word read that is not zero. -/
theorem handleChildRekeySPI_eq (draws : List Draw) : handleChildRekeySPI draws = draws.find? (· ≠ some 0) := by
  induction draws with
  | nil => rfl
  | cons d rest ih =>
    cases d with
    | none => rfl
    | some word =>
      unfold handleChildRekeySPI
      by_cases h0 : word = 0
      · rw [if_pos h0, h0, ih, List.find?_cons_of_neg (by simp)]
      · rw [if_neg h0, List.find?_cons_of_pos (by simpa using h0)]

/-- Whatever a call draws is not reserved, provided that the word `handleChildRekey` reads is not. -/
theorem above_localSPI {call : Creation} (h : call.localSPI draws = some spi)
    (hrekey : ∀ rekey, call = .handleChildRekey rekey → ∀ word ∈ (draws.find? (· ≠ some 0)).join, 255 < word) : 255 < spi := by
  have hfirst (hmap : (randUint32Nonzero draws).map Prod.fst = some spi) : 255 < spi := by
    obtain ⟨⟨word, rest⟩, hdraw, rfl⟩ := Option.map_eq_some_iff.1 hmap
    exact above_randUint32Nonzero hdraw
  cases call with
  | doIKEAuth => exact hfirst h
  | selectResponderChild => exact hfirst h
  | negotiateChild old => exact above_negotiateSPI h
  | handleChildRekey rekey =>
    rw [Creation.localSPI, handleChildRekeySPI_eq] at h
    exact hrekey rekey rfl spi h

/-! ### Slots -/

/-- The slots are the inbound SPIs. -/
theorem slots_iff : Slots P s ↔ ∀ spi ∈ s.inboundSPIs, P spi := by
  have hslot (spi : UInt32) : (∀ x ∈ (if spi = 0 then [] else [spi]), P x) ↔ (spi ≠ 0 → P spi) := by
    by_cases h0 : spi = 0 <;> simp [h0]
  have hsplit : (∀ spi ∈ s.inboundSPIs, P spi) ↔ (s.child.localSPI ≠ 0 → P s.child.localSPI) ∧
      (s.retiring.localSPI ≠ 0 → P s.retiring.localSPI) ∧ ∀ r ∈ s.retired, P r.spi := by
    rw [inboundSPIs, List.forall_mem_append, List.forall_mem_append, hslot, hslot, List.forall_mem_map]
  rw [hsplit]
  exact ⟨fun h => ⟨h.child, h.retiring, h.retired⟩, fun h => ⟨h.1, h.2.1, h.2.2⟩⟩

/-- A slot that is given up leaves the rest. -/
theorem slots_givesUp {replaced : Prop} (h : Slots P s) (hstep : GivesUp mux replaced s s') : Slots P s' := by
  cases hstep with
  | child => exact ⟨fun h0 => absurd rfl h0, h.retiring, h.retired⟩
  | drains _ h0 =>
    exact ⟨h.child, fun h0 => absurd rfl h0, List.forall_mem_append.2 ⟨h.retired, List.forall_mem_singleton.2 (h.retiring h0)⟩⟩
  | retiring => exact ⟨h.child, fun h0 => absurd rfl h0, h.retired⟩
  | drained hrs => exact ⟨h.child, h.retiring, fun r hr => h.retired r (hrs ▸ List.mem_cons_of_mem _ hr)⟩

/-- So do those given up one after another. -/
theorem slots_givesUpAll {replaced : Prop} (h : Slots P s) (hall : Relation.ReflTransGen (GivesUp mux replaced) s s') : Slots P s' :=
  Moves.keeps_chain hall h slots_givesUp

/-- An SA whose SPI has the property is installed. -/
theorem slots_replaceChild (h : Slots P s) {child : ChildSA} (hchild : P child.localSPI) :
    Slots P (s.replaceChild mux onChild clock child).1 := by
  unfold ChildState.replaceChild
  cases s.canReplaceChild child.localSPI with
  | some e => exact h
  | none =>
    dsimp only
    cases s.hub.registerESP mux child.localSPI with
    | error e => exact h
    | ok hub =>
      dsimp only
      cases onChild child with
      | some err => exact ⟨h.child, h.retiring, h.retired⟩
      | none =>
        dsimp only
        split_ifs with h0
        · exact ⟨fun _ => hchild, h.child, h.retired⟩
        · exact ⟨fun _ => hchild, h.retiring, h.retired⟩

/-- Every Child operation but a replacement fills no slot with another SPI. -/
theorem slots_move (h : Slots P s) {m : ChildState.Move} (hkeeping : Keeping m) : Slots P ((ChildState.system mux).apply s m) := by
  cases m with
  | replaceChild child onChild clock => exact hkeeping.elim
  | retireChild => exact slots_givesUpAll h (givesUp_retireChild fun _ => trivial)
  | expireRetiredChildren => exact slots_givesUpAll h (givesUp_expireRetiredChildren fun _ => trivial)
  | forgetChild child => exact slots_givesUpAll h (@givesUp_forgetChild mux _ _ s True child)
  | deleteChildren => exact slots_givesUpAll h (givesUp_deleteChildren fun _ => trivial)
  | otherRegisters other spi => exact ⟨h.child, h.retiring, h.retired⟩
  | otherUnregisters other spi => exact ⟨h.child, h.retiring, h.retired⟩
  | close other => exact ⟨h.child, h.retiring, h.retired⟩

/-! ### Sessions -/

variable {c : Choosing}

/-- A draw. -/
theorem unreserved_draw (h : Unreserved c) {call : Creation} (habove : ∀ spi, call.localSPI draws = some spi → 255 < spi) :
    Unreserved (c.applyDraw call draws) := by
  have hpush {spi : UInt32} (hspi : 255 < spi) : Unreserved { c with drawn := spi :: c.drawn } :=
    ⟨List.forall_mem_cons.2 ⟨hspi, h.drawn⟩, h.installed, h.slots⟩
  unfold applyDraw
  cases hdraw : call.localSPI draws with
  | none => exact h
  | some spi =>
    cases call with
    | negotiateChild old =>
      dsimp only
      split_ifs
      · exact h
      · exact hpush (habove spi hdraw)
    | doIKEAuth => exact hpush (habove spi hdraw)
    | selectResponderChild => exact hpush (habove spi hdraw)
    | handleChildRekey rekey => exact hpush (habove spi hdraw)

/-- An installation of what was drawn. -/
theorem unreserved_install (h : Unreserved c) (hspi : spi ∈ c.drawn) (settled : ChildSA) (onChild : ChildSA → Option String)
    (clock : Int) : Unreserved (c.applyInstall mux spi settled onChild clock) := by
  have habove := h.drawn spi hspi
  refine ⟨fun x hx => h.drawn x (List.mem_of_mem_erase hx), fun x hx => ?_, slots_replaceChild h.slots habove⟩
  unfold applyInstall at hx
  dsimp only at hx
  split_ifs at hx
  · rcases List.mem_cons.1 hx with rfl | hx
    · exact habove
    · exact h.installed x hx
  · exact h.installed x hx

/-- Every move of a session. -/
theorem unreserved_move (h : Unreserved c) {m : Move} (hen : ((system mux).restrict DrawsAbove).enabled c m) :
    Unreserved (((system mux).restrict DrawsAbove).apply c m) := by
  cases m with
  | draw call draws =>
    refine unreserved_draw h fun spi hspi => above_localSPI hspi fun rekey hcall => ?_
    subst hcall
    exact hen.2
  | install spi settled onChild clock => exact unreserved_install h hen.1 settled onChild clock
  | fail spi => exact ⟨fun x hx => h.drawn x (List.mem_of_mem_erase hx), h.installed, h.slots⟩
  | other m => exact ⟨h.drawn, h.installed, slots_move h.slots hen.1.1⟩

end ChildSPIAux

open ChildSPIAux

/-- When the first nonzero word that `handleChildRekey` reads is above 255 each time, no call of a session installs a reserved inbound SPI, and
the session has none in a slot. -/
theorem spis_unreserved {mux : Nat} {delay : Int} {hub : Hub} {c : Choosing}
    (hrun : ((system mux).restrict DrawsAbove).Run { children := { childRetireDelay := delay, hub := hub } } c) :
    (∀ spi ∈ c.installed, 255 < spi) ∧ ∀ spi ∈ c.children.inboundSPIs, 255 < spi := by
  have hstart : Unreserved { children := { childRetireDelay := delay, hub := hub } } :=
    ⟨fun _ h => (List.not_mem_nil h).elim, fun _ h => (List.not_mem_nil h).elim, fun h0 => absurd rfl h0, fun h0 => absurd rfl h0,
      fun _ h => (List.not_mem_nil h).elim⟩
  have h := hrun.invariant hstart fun _ _ h hen => unreserved_move h hen
  exact ⟨h.installed, slots_iff.1 h.slots⟩

instance (mux : Nat) (s : Choosing) : (m : Move) → Decidable ((system mux).enabled s m)
  | .draw call _ => inferInstanceAs (Decidable (s.Begins call))
  | .install spi _ _ _ | .fail spi => inferInstanceAs (Decidable (spi ∈ s.drawn))
  | .other (.replaceChild ..) => .isFalse fun h => h.1
  | .other (.otherRegisters other _) | .other (.otherUnregisters other _) =>
    decidable_of_iff (other ≠ mux) ⟨fun h => ⟨trivial, h⟩, fun h => h.2⟩
  | .other (.retireChild ..) | .other (.expireRetiredChildren ..) | .other (.forgetChild ..) | .other (.deleteChildren ..)
  | .other (.close _) => .isTrue ⟨trivial, trivial⟩

instance (s : Choosing) : (m : Move) → Decidable (DrawsAbove s m)
  | .draw (.handleChildRekey _) draws =>
    show Decidable (∀ word ∈ (draws.find? (· ≠ some 0)).join, 255 < word) from @Option.decidableForallMem _ _ (UInt32.decLt 255) _
  | .draw .doIKEAuth _ | .draw .selectResponderChild _ | .draw (.negotiateChild _) _ | .install .. | .fail _ | .other _ =>
    .isTrue trivial

/-- The moves of a session that the peer then asks to replace its first SA, the random source giving `word` for it. -/
def rekeyedMoves (word : UInt32) : List Move :=
  [.draw .doIKEAuth [some 200, some 0x1000], .install 0x1000 { remoteSPI := 0x2000 } (fun _ => none) 0,
    .draw (.handleChildRekey (some 0x2000)) [some 0, some word], .install word { remoteSPI := 0x3000 } (fun _ => none) 0]

theorem spis_unreserved_rekeyed :
    ∃ c, ((system 0).restrict DrawsAbove).Run { children := { childRetireDelay := 0 } } c ∧ c.installed = [0x1001, 0x1000] ∧
      ∀ spi ∈ c.children.inboundSPIs, 255 < spi := by
  have hplayed : ∃ c, ((system 0).restrict DrawsAbove).Run { children := { childRetireDelay := 0 } } c ∧
      c.installed = [0x1001, 0x1000] := Moves.System.exists_run (rekeyedMoves 0x1001) (by decide +kernel)
  obtain ⟨c, hrun, hinstalled⟩ := hplayed
  exact ⟨c, hrun, hinstalled, (spis_unreserved hrun).2⟩

/-- A peer's rekey is answered with the reserved SPI 7, on which the session then receives. -/
theorem spi_reserved : ∃ c, (system 0).Run { children := { childRetireDelay := 0 } } c ∧ c.children.child.localSPI = 7 ∧
    7 ∈ c.children.inboundSPIs ∧ 7 ∈ c.installed :=
  Moves.System.exists_run (rekeyedMoves 7) (by decide +kernel)

end RanetLite.Ike.Choosing
