import RanetLite.Esp.Inbound
import RanetLite.Theorems.Replay

/-!
# Checks and commits against the numbers spent

The windows of a set of SAs track the list of the numbers committed on each (`Spends`). A commit either changes no window and leaves
nothing to read, or spends a number that was not spent before (`commitLocked_spec`).
-/

namespace RanetLite.Esp

open ReplayAux

/-- The numbers spent on one SA. -/
def spentOn (self : SaRef) (spent : List (SaRef × UInt32)) : List UInt32 :=
  spent.filterMap fun entry => if entry.1 = self then some entry.2 else none

/-- The window of every SA tracks the numbers spent on it. -/
def Spends (sas : SaRef → InboundSA) (spent : List (SaRef × UInt32)) : Prop :=
  ∀ self, Tracks (sas self).window (spentOn self spent)

/-- SAs that differ in their windows only. -/
def SameKeys (sas sas' : SaRef → InboundSA) : Prop := ∀ self, ∃ window, sas' self = { sas self with window := window }

namespace InboundAux

variable {sas sas' : SaRef → InboundSA} {spent : List (SaRef × UInt32)} {p : AuthenticatedPacket} {self : SaRef} {seq : UInt32}

/-- A window moves, and the keys stay. -/
theorem sameKeys_update (sas : SaRef → InboundSA) (self : SaRef) (window : ReplayWindow) :
    SameKeys sas (Function.update sas self { sas self with window := window }) := by
  intro other
  by_cases h : other = self
  · subst h
    exact ⟨window, Function.update_self _ _ _⟩
  · exact ⟨(sas other).window, Function.update_of_ne h _ _⟩

/-- The header check reads the keys alone. -/
theorem checkHeader_same (h : SameKeys sas sas') (self : SaRef) (pkt : List UInt8) :
    (sas' self).checkHeader pkt = (sas self).checkHeader pkt := by
  obtain ⟨w, hw⟩ := h self
  rw [hw]
  rfl

/-- So does decryption. -/
theorem decrypt_same (h : SameKeys sas sas') (self : SaRef) (pkt : List UInt8) :
    (sas' self).decrypt pkt = (sas self).decrypt pkt := by
  obtain ⟨w, hw⟩ := h self
  rw [hw]
  rfl

/-- The numbers spent on an SA. -/
theorem mem_spentOn : seq ∈ spentOn self spent ↔ (self, seq) ∈ spent := by
  unfold spentOn
  rw [List.mem_filterMap]
  constructor
  · rintro ⟨⟨k, n⟩, hmem, heq⟩
    dsimp only at heq
    split_ifs at heq with hk
    rw [← hk, ← Option.some.inj heq]
    exact hmem
  · intro hmem
    exact ⟨(self, seq), hmem, if_pos rfl⟩

/-- One more, on the SA. -/
theorem spentOn_cons_self (self : SaRef) (seq : UInt32) : spentOn self ((self, seq) :: spent) = seq :: spentOn self spent := by
  simp [spentOn]

/-- One more, on another. -/
theorem spentOn_cons_of_ne {other : SaRef} (h : other ≠ self) (seq : UInt32) :
    spentOn self ((other, seq) :: spent) = spentOn self spent := by
  simp [spentOn, h]

/-- The window of an SA passes a number exactly when the specification admits it. -/
theorem check_spec (h : Spends sas spent) (self : SaRef) (seq : UInt32) :
    ∃ r, (sas self).window.check seq = some r ∧ (r = .ok () ↔ Admits (sas self).window.window (spentOn self spent) seq) :=
  check_iff_admits (h self) seq

/-- A spent number is refused. -/
theorem check_spent (h : Spends sas spent) (hmem : (self, seq) ∈ spent) : ∃ e, (sas self).window.check seq = some (.error e) := by
  obtain ⟨r, hr, hiff⟩ := check_spec h self seq
  cases r with
  | error e => exact ⟨e, hr⟩
  | ok =>
    have hadmits := hiff.mp rfl
    exact absurd (mem_spentOn.mpr hmem) hadmits.2.1

/-- A number the specification admits is committed. -/
theorem commit_admitted {w : ReplayWindow} {accepted : List UInt32} (h : Tracks w accepted) (hadmits : Admits w.window accepted seq) :
    ∃ w', w'.window = w.window ∧ w.commit seq = some w' ∧ Tracks w' (seq :: accepted) := by
  obtain ⟨hseq, -, hhigh | ⟨hle, hnear⟩⟩ := hadmits
  · obtain ⟨w', hcommit, hwindow, htracks⟩ := commit_ahead h hhigh
    exact ⟨w', hwindow, hcommit, htracks⟩
  · obtain ⟨w', hcommit, hwindow, htracks⟩ := commit_behind h hseq hle hnear
    exact ⟨w', hwindow, hcommit, htracks⟩

/-- A commit changes no window and leaves nothing to read, or spends a number not spent before. -/
theorem commitLocked_spec (h : Spends sas spent) (p : AuthenticatedPacket) :
    (∃ p', p.commitLocked sas = some (sas, p') ∧ p'.committed = true ∧ p'.err.isSome = true ∧
      (p.committed = false → p.err = none → ∀ self, p.sa = some self →
        ¬Admits (sas self).window.window (spentOn self spent) p.seq)) ∨
    ∃ self window, p.commitLocked sas = some (Function.update sas self { sas self with window := window }, p.opened) ∧
      p.sa = some self ∧ p.committed = false ∧ p.err = none ∧ Admits (sas self).window.window (spentOn self spent) p.seq ∧
      window.window = (sas self).window.window ∧
      Spends (Function.update sas self { sas self with window := window }) ((self, p.seq) :: spent) := by
  unfold AuthenticatedPacket.commitLocked
  by_cases hc : p.committed = true
  · rw [if_pos hc]
    exact .inl ⟨_, rfl, hc, rfl, fun h => absurd hc (by simp [h])⟩
  rw [if_neg hc]
  by_cases he : p.err.isSome = true
  · rw [if_pos he]
    exact .inl ⟨_, rfl, rfl, he, fun _ h => absurd he (by simp [h])⟩
  rw [if_neg he]
  cases hsa : p.sa with
  | none => exact .inl ⟨_, rfl, rfl, rfl, fun _ _ _ h => by simp at h⟩
  | some self =>
    dsimp only
    obtain ⟨r, hr, hiff⟩ := check_spec h self p.seq
    rw [hr]
    cases r with
    | error e =>
      refine .inl ⟨_, rfl, rfl, rfl, fun _ _ other hother hadmits => ?_⟩
      obtain rfl := Option.some.inj hother
      exact absurd (hiff.mpr hadmits) (by simp)
    | ok =>
      have hadmits := hiff.mp rfl
      obtain ⟨w', hwin, hcommit⟩ := commit_admitted (h self) hadmits
      refine .inr ⟨self, w', ?_, rfl, Bool.eq_false_iff.mpr hc, Option.not_isSome_iff_eq_none.mp he, hadmits, hwin,
        fun other => ?_⟩
      · simp [hcommit.1]
      · by_cases hother : other = self
        · subst hother
          rw [Function.update_self, spentOn_cons_self]
          exact hcommit.2
        · rw [Function.update_of_ne hother, spentOn_cons_of_ne fun e => hother e.symm]
          exact h other

/-- A packet that was opened is committed. -/
theorem opened_fields (p : AuthenticatedPacket) : p.opened.committed = true ∧ p.opened.sa = p.sa ∧ p.opened.seq = p.seq := by
  unfold AuthenticatedPacket.opened
  cases parseTrailer p.plain <;> exact ⟨rfl, rfl, rfl⟩

/-- A packet with an error has no plaintext. -/
theorem plaintext_of_err (h : p.err.isSome = true) : ∃ e, p.plaintext = .error e := by
  obtain ⟨e, he⟩ := Option.isSome_iff_exists.mp h
  unfold AuthenticatedPacket.plaintext
  split_ifs
  · exact ⟨_, rfl⟩
  · rw [he]
    exact ⟨e, rfl⟩

/-- Nor has one that is not committed. -/
theorem plaintext_of_uncommitted (h : p.committed = false) : p.plaintext = .error .uncommitted := by
  simp [AuthenticatedPacket.plaintext, h]

/-- Without a plaintext nothing is read. -/
theorem reads_of_error {e : OpenError} (h : p.plaintext = .error e) : p.reads = none := by
  simp [AuthenticatedPacket.reads, h]

end InboundAux

end RanetLite.Esp
