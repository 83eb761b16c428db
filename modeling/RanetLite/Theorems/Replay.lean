import RanetLite.Lemmas.ReplaySpan

/-!
# The replay window refines its specification

The specification keeps the list of the numbers accepted so far and nothing else: a number is admitted when it is not zero, was
not accepted before, and is above the highest accepted number or less than a window below it. The bitmap of the source tracks
that list (`Tracks`): within the window below `last` a slot is marked exactly when its number was accepted.
-/

namespace RanetLite.Esp

open WordBitmap

/-- The highest number accepted, zero when none was. -/
def highest (accepted : List UInt32) : Nat := accepted.foldr (fun s m => max s.toNat m) 0

/-- What the window is for: the numbers admitted after `accepted`. -/
def Admits (window : UInt32) (accepted : List UInt32) (seq : UInt32) : Prop :=
  seq ≠ 0 ∧ seq ∉ accepted ∧
    (highest accepted < seq.toNat ∨ seq.toNat ≤ highest accepted ∧ highest accepted - seq.toNat < window.toNat)

instance (window : UInt32) (accepted : List UInt32) (seq : UInt32) : Decidable (Admits window accepted seq) := by
  unfold Admits
  infer_instance

/-- The verdicts of the specification on a sequence of numbers, `accepted` being the numbers admitted before it. -/
def verdicts (window : UInt32) : List UInt32 → List UInt32 → List Bool
  | _, [] => []
  | accepted, seq :: rest =>
    if Admits window accepted seq then true :: verdicts window (seq :: accepted) rest
    else false :: verdicts window accepted rest

/-- The window tracks the numbers accepted so far. -/
structure Tracks (w : ReplayWindow) (accepted : List UInt32) : Prop where
  pos : 0 < w.window.toNat
  small : w.window.toNat ≤ 2 ^ 20
  room : w.window.toNat ≤ 64 * w.mask.length
  last : w.last.toNat = highest accepted
  fresh : w.last = 0 → ∀ i, bitAt w.mask i = false
  marked : ∀ s, 0 < s → s ≤ w.last.toNat → w.last.toNat < s + w.window.toNat →
    bitAt w.mask ((s - 1) % w.window.toNat) = decide (∃ a ∈ accepted, a.toNat = s)

namespace ReplayAux

theorem le_highest {accepted : List UInt32} {a : UInt32} (h : a ∈ accepted) : a.toNat ≤ highest accepted := by
  induction accepted with
  | nil => exact absurd h List.not_mem_nil
  | cons b rest ih =>
    simp only [highest, List.foldr_cons]
    rcases List.mem_cons.mp h with rfl | h
    · exact Nat.le_max_left _ _
    · exact Nat.le_trans (ih h) (Nat.le_max_right _ _)

theorem highest_cons (s : UInt32) (accepted : List UInt32) :
    highest (s :: accepted) = max s.toNat (highest accepted) := rfl

theorem toNat_ne_zero {s : UInt32} (h : s ≠ 0) : 0 < s.toNat :=
  Nat.pos_of_ne_zero fun e => h (UInt32.toNat_inj.mp e)

theorem toNat_pred {s : UInt32} (h : s ≠ 0) : (s - 1).toNat = s.toNat - 1 := by
  have h0 := toNat_ne_zero h
  have := s.toNat_lt
  rw [UInt32.toNat_sub]
  simp only [UInt32.reduceToNat]
  omega

/-- The membership test of the tracked list after one more number. -/
theorem mem_cons_toNat (seq : UInt32) (accepted : List UInt32) (s : Nat) :
    (∃ a ∈ seq :: accepted, a.toNat = s) ↔ seq.toNat = s ∨ ∃ a ∈ accepted, a.toNat = s := by
  simp

/-- Two numbers less than a window apart share a slot only when they are the same. -/
theorem slot_inj {s t W : Nat} (hs : 0 < s) (hle : s ≤ t) (hwin : t < s + W) : (s - 1) % W = (t - 1) % W ↔ s = t := by
  refine ⟨fun h => ?_, fun h => by rw [h]⟩
  have hr : (t - 1) % W < W := Nat.mod_lt _ (by omega)
  have e : s - 1 = t - 1 - (t - s) := by omega
  rw [e, ReplayWindow.slot_sub (by omega) (by omega)] at h
  split at h <;> omega

/-- The run a jump from `last` to `seq` clears, read on the numbers of the new window: it holds the slots of the numbers skipped
and of no number at or below `last`. -/
theorem jump_clears {last seq s W : Nat} (hl : 0 < last) (hlt : last < seq) (hjump : seq - last < W) (hs : 0 < s)
    (hs' : s < seq) (hwin : seq < s + W) :
    (((last - 1) % W + 1) % W ≤ (s - 1) % W ∧ (s - 1) % W < ((last - 1) % W + 1) % W + (seq - last - 1) ∨
      (s - 1) % W + W < ((last - 1) % W + 1) % W + (seq - last - 1)) ↔ last < s := by
  have hp := Nat.mod_lt (last - 1) (show 0 < W by omega)
  have hstart : ((last - 1) % W + 1) % W = if (last - 1) % W + 1 < W then (last - 1) % W + 1 else 0 := by
    split
    · next h => exact Nat.mod_eq_of_lt h
    · have e : (last - 1) % W + 1 = W := by omega
      rw [e, Nat.mod_self]
  rw [hstart]
  by_cases hsl : last < s
  · have hslot := ReplayWindow.slot_add (a := last - 1) (j := s - last) (W := W) (by omega)
    have e : last - 1 + (s - last) = s - 1 := by omega
    rw [e] at hslot
    split at hslot <;> split <;> omega
  · have hslot := ReplayWindow.slot_sub (a := last - 1) (k := last - s) (W := W) (by omega) (by omega)
    have e : last - 1 - (last - s) = s - 1 := by omega
    rw [e] at hslot
    split at hslot <;> split <;> omega

end ReplayAux

open ReplayAux

/-- A new window tracks nothing accepted. -/
theorem tracks_new {window : UInt32} (h : 1 ≤ window.toNat) (h' : window.toNat ≤ 2 ^ 20) :
    Tracks (newReplayWindow window) [] := by
  refine ⟨h, h', ?_, rfl, fun _ i => bitAt_replicate _ i, fun s hs hs' _ => ?_⟩
  · simp only [newReplayWindow, List.length_replicate]
    omega
  · simp only [newReplayWindow, UInt32.toNat_zero] at hs'
    omega

variable {w : ReplayWindow} {accepted : List UInt32} {seq : UInt32}

/-- The bit of a number within the window is that of its slot. -/
theorem slot_behind (h : Tracks w accepted) (hpos : 0 < seq.toNat) (hle : seq.toNat ≤ w.last.toNat)
    (hwin : w.last.toNat - seq.toNat < w.window.toNat) :
    (w.bit w.last (w.last - seq)).toNat = (seq.toNat - 1) % w.window.toNat := by
  have hdiff := UInt32.toNat_sub_of_le _ _ (UInt32.le_iff_toNat_le.mpr hle)
  rw [ReplayWindow.toNat_bit _ _ _ h.small (by omega) (by omega), hdiff]
  congr 1
  omega

/-- `check` stays in bounds and passes exactly the numbers the specification admits. -/
theorem check_iff_admits (h : Tracks w accepted) (seq : UInt32) :
    ∃ r, w.check seq = some r ∧ (r = .ok () ↔ Admits w.window accepted seq) := by
  have hw : w.window ≠ 0 := fun e => by have := h.pos; simp [e] at this
  by_cases h0 : seq = 0
  · exact ⟨.error .invalid, by simp [ReplayWindow.check, hw, h0], by simp [Admits, h0]⟩
  have hpos := toNat_ne_zero h0
  by_cases hgt : w.last = 0 ∨ w.last < seq
  · refine ⟨.ok (), by simp [ReplayWindow.check, hw, h0, hgt], ?_⟩
    have hhigh : highest accepted < seq.toNat := by
      rw [← h.last]
      rcases hgt with hgt | hgt
      · simpa [hgt] using hpos
      · exact UInt32.lt_iff_toNat_lt.mp hgt
    have hnew : seq ∉ accepted := fun hm => by have := le_highest hm; omega
    simp [Admits, h0, hnew, hhigh]
  have hle : seq.toNat ≤ w.last.toNat := by
    have : ¬w.last < seq := fun e => hgt (Or.inr e)
    exact Nat.le_of_not_lt fun e => this (UInt32.lt_iff_toNat_lt.mpr e)
  have hdiff := UInt32.toNat_sub_of_le _ _ (UInt32.le_iff_toNat_le.mpr hle)
  by_cases hold : w.window ≤ w.last - seq
  · refine ⟨.error (.tooOld seq w.window w.last), by simp [ReplayWindow.check, hw, h0, hgt, hold], ?_⟩
    have hold' := UInt32.le_iff_toNat_le.mp hold
    have : ¬Admits w.window accepted seq := by
      rintro ⟨-, -, h1 | ⟨-, h1⟩⟩ <;> rw [← h.last] at h1 <;> omega
    simp [this]
  have hwin : w.last.toNat - seq.toNat < w.window.toNat := by
    rw [← hdiff]
    exact Nat.lt_of_not_le fun e => hold (UInt32.le_iff_toNat_le.mpr e)
  have hslot := slot_behind h hpos hle hwin
  have hin : (w.bit w.last (w.last - seq)).toNat < 64 * w.mask.length := by
    have := Nat.mod_lt (seq.toNat - 1) h.pos
    have := h.room
    omega
  have hbit : bitAt w.mask (w.bit w.last (w.last - seq)).toNat = decide (seq ∈ accepted) := by
    rw [hslot, h.marked seq.toNat hpos hle (by omega), decide_eq_decide]
    exact ⟨fun ⟨a, ha, e⟩ => UInt32.toNat_inj.mp e ▸ ha, fun hm => ⟨seq, hm, rfl⟩⟩
  refine ⟨if seq ∈ accepted then .error (.replayed seq) else .ok (), ?_, ?_⟩
  · simp only [ReplayWindow.check, if_neg hw, if_neg h0, if_neg hgt, if_neg hold, ReplayWindow.set_spec _ _ hin, hbit,
      Option.bind_eq_bind, Option.bind_some, decide_eq_true_eq, pure]
    split <;> rfl
  · by_cases hm : seq ∈ accepted
    · simp [hm, Admits]
    · simp only [if_neg hm, true_iff]
      exact ⟨h0, hm, Or.inr ⟨by rw [← h.last]; exact hle, by rw [← h.last]; exact hwin⟩⟩

/-- Marking the new highest number, in a bitmap that holds what `accepted` asks for below it. -/
theorem mark_ahead (hseq : seq ≠ 0) (hpos : 0 < w.window.toNat) (hsmall : w.window.toNat ≤ 2 ^ 20)
    (hroom : w.window.toNat ≤ 64 * w.mask.length) (hhigh : highest accepted < seq.toNat)
    (hold : ∀ s, 0 < s → s < seq.toNat → seq.toNat < s + w.window.toNat →
      bitAt w.mask ((s - 1) % w.window.toNat) = decide (∃ a ∈ accepted, a.toNat = s)) :
    ∃ w', ReplayWindow.mark { w with last := seq } ((seq - 1) % w.window) = some w' ∧ w'.window = w.window ∧
      Tracks w' (seq :: accepted) := by
  have hslot : ((seq - 1) % w.window).toNat = (seq.toNat - 1) % w.window.toNat := by
    rw [UInt32.toNat_mod, toNat_pred hseq]
  have hlt := Nat.mod_lt (seq.toNat - 1) hpos
  obtain ⟨m, hm, hlen, hbits⟩ := ReplayWindow.mark_spec { w with last := seq } ((seq - 1) % w.window) (by
    rw [hslot]; exact Nat.lt_of_lt_of_le hlt hroom)
  refine ⟨_, hm, rfl, ⟨hpos, hsmall, by rw [hlen]; exact hroom, ?_, fun h0 => absurd h0 hseq, fun s hs hle hwin => ?_⟩⟩
  · rw [highest_cons, Nat.max_eq_left (Nat.le_of_lt hhigh)]
  · simp only at hle hwin ⊢
    rw [hbits, hslot, decide_eq_decide.mpr (slot_inj hs hle hwin)]
    rcases Nat.lt_or_eq_of_le hle with hlt' | heq
    · rw [hold s hs hlt' hwin, decide_eq_false (by omega), Bool.false_or, decide_eq_decide, mem_cons_toNat]
      exact ⟨Or.inr, fun h => h.resolve_left (by omega)⟩
    · rw [decide_eq_true heq, Bool.true_or]
      exact (decide_eq_true ⟨seq, List.mem_cons_self, heq.symm⟩).symm

/-- Committing a number above the highest one stays in bounds: the slots between the two are cleared, whether the jump is shorter
than the ring, wraps around it or is longer than it, and the new one is marked. -/
theorem commit_ahead (h : Tracks w accepted) (hhigh : highest accepted < seq.toNat) :
    ∃ w', w.commit seq = some w' ∧ w'.window = w.window ∧ Tracks w' (seq :: accepted) := by
  have hw : w.window ≠ 0 := fun e => by have := h.pos; simp [e] at this
  have hseq : seq ≠ 0 := fun e => by simp [e] at hhigh
  have hlt : w.last.toNat < seq.toNat := h.last ▸ hhigh
  -- a number above the highest one was not accepted
  have hnew : ∀ s, w.last.toNat < s → decide (∃ a ∈ accepted, a.toNat = s) = false := by
    intro s hs
    apply decide_eq_false
    rintro ⟨a, ha, rfl⟩
    have := le_highest ha
    rw [← h.last] at this
    omega
  by_cases hl0 : w.last = 0
  · obtain ⟨w', hm, hw', ht⟩ := mark_ahead hseq h.pos h.small h.room hhigh (fun s hs _ _ => by
      rw [h.fresh hl0, hnew s (by simpa [hl0] using hs)])
    exact ⟨w', by simp only [ReplayWindow.commit, if_neg hw, if_pos hl0]; exact hm, hw', ht⟩
  have hgt : w.last < seq := UInt32.lt_iff_toNat_lt.mpr hlt
  have hlpos := toNat_ne_zero hl0
  have hdiff : (seq - w.last).toNat = seq.toNat - w.last.toNat := by
    have := seq.toNat_lt
    rw [UInt32.toNat_sub]
    omega
  by_cases hjump : w.window ≤ seq - w.last
  · have hjump' := UInt32.le_iff_toNat_le.mp hjump
    obtain ⟨w', hm, hw', ht⟩ := mark_ahead (w := { w with mask := List.replicate w.mask.length 0 }) hseq h.pos h.small
      (by simpa using h.room) hhigh (fun s hs _ hwin => by
        simp only at hwin
        rw [bitAt_replicate, hnew s (by omega)])
    refine ⟨w', ?_, hw', ht⟩
    simp only [ReplayWindow.commit, if_neg hw, if_neg hl0, if_pos hgt, if_pos hjump, pure, Option.bind_eq_bind,
      Option.bind_some]
    exact hm
  · have hjump' : seq.toNat - w.last.toNat < w.window.toNat := by
      rw [← hdiff]
      exact Nat.lt_of_not_le fun e => hjump (UInt32.le_iff_toNat_le.mpr e)
    have hp := Nat.mod_lt (w.last.toNat - 1) h.pos
    have hsmall := h.small
    have hn : (seq - w.last - 1).toNat = seq.toNat - w.last.toNat - 1 := by
      rw [UInt32.toNat_sub, hdiff]
      simp only [UInt32.reduceToNat]
      have := seq.toNat_lt
      omega
    have hstart : ((w.last - 1) % w.window + 1).toNat = (w.last.toNat - 1) % w.window.toNat + 1 := by
      rw [UInt32.toNat_add, UInt32.toNat_mod, toNat_pred hl0]
      simp only [UInt32.reduceToNat]
      omega
    obtain ⟨m, hc, hlen, hbits⟩ := ReplayWindow.clearRange_spec w ((w.last - 1) % w.window + 1) (seq - w.last - 1)
      h.pos h.small h.room (by omega)
    rw [hstart, hn] at hbits
    obtain ⟨w', hm, hw', ht⟩ := mark_ahead (w := { w with mask := m }) hseq h.pos h.small (by rw [hlen]; exact h.room)
      hhigh (fun s hs hs' hwin => by
        simp only at hwin ⊢
        rw [hbits _ (Nat.mod_lt _ h.pos), decide_eq_decide.mpr (jump_clears hlpos hlt hjump' hs hs' hwin)]
        by_cases hsl : w.last.toNat < s
        · rw [hnew s hsl, decide_eq_true hsl, Bool.not_true, Bool.and_false]
        · rw [h.marked s hs (by omega) (by omega), decide_eq_false hsl, Bool.not_false, Bool.and_true])
    refine ⟨w', ?_, hw', ht⟩
    simp only [ReplayWindow.commit, if_neg hw, if_neg hl0, if_pos hgt, if_neg hjump, hc, Option.bind_eq_bind,
      Option.bind_some]
    exact hm

/-- Committing a number within the window below the highest one marks its slot. -/
theorem commit_behind (h : Tracks w accepted) (hseq : seq ≠ 0) (hle : seq.toNat ≤ highest accepted)
    (hwin : highest accepted - seq.toNat < w.window.toNat) :
    ∃ w', w.commit seq = some w' ∧ w'.window = w.window ∧ Tracks w' (seq :: accepted) := by
  rw [← h.last] at hle hwin
  have hw : w.window ≠ 0 := fun e => by have := h.pos; simp [e] at this
  have hpos := toNat_ne_zero hseq
  have hl0 : w.last ≠ 0 := fun e => by simp [e] at hle; omega
  have hgt : ¬w.last < seq := fun e => by have := UInt32.lt_iff_toNat_lt.mp e; omega
  have hslot := slot_behind h hpos hle hwin
  have hlt := Nat.mod_lt (seq.toNat - 1) h.pos
  obtain ⟨m, hm, hlen, hbits⟩ := ReplayWindow.mark_spec w (w.bit w.last (w.last - seq)) (by
    rw [hslot]; exact Nat.lt_of_lt_of_le hlt h.room)
  refine ⟨{ w with mask := m }, by simp only [ReplayWindow.commit, if_neg hw, if_neg hl0, if_neg hgt]; exact hm, rfl,
    ⟨h.pos, h.small, by rw [hlen]; exact h.room, ?_, fun e => absurd e hl0, fun s hs hs' hs'' => ?_⟩⟩
  · rw [highest_cons, ← h.last]
    exact (Nat.max_eq_right hle).symm
  · simp only at hs' hs'' ⊢
    rw [hbits, hslot, h.marked s hs hs' hs'', ← Bool.decide_or, decide_eq_decide, mem_cons_toNat]
    refine or_congr ?_ Iff.rfl
    rcases Nat.le_total s seq.toNat with hss | hss
    · rw [slot_inj hs hss (by omega)]
      exact eq_comm
    · rw [eq_comm, slot_inj hpos hss (by omega)]

/-- Offering a number: accepted exactly when the specification admits it, and the window tracks the longer list. -/
theorem offer_spec (h : Tracks w accepted) (seq : UInt32) :
    ∃ w', w'.window = w.window ∧
      ((Admits w.window accepted seq ∧ w.offer seq = some (w', true) ∧ Tracks w' (seq :: accepted)) ∨
        (¬Admits w.window accepted seq ∧ w.offer seq = some (w', false) ∧ Tracks w' accepted)) := by
  obtain ⟨r, hr, hiff⟩ := check_iff_admits h seq
  by_cases ha : Admits w.window accepted seq
  · have hok := hiff.mpr ha
    obtain ⟨hseq, -, hhigh⟩ := ha
    have hc : ∃ w', w.commit seq = some w' ∧ w'.window = w.window ∧ Tracks w' (seq :: accepted) := by
      rcases hhigh with hhigh | ⟨hle, hwin⟩
      · exact commit_ahead h hhigh
      · exact commit_behind h hseq hle hwin
    obtain ⟨w', hw', hwin, ht⟩ := hc
    exact ⟨w', hwin, Or.inl ⟨hiff.mp hok, by simp [ReplayWindow.offer, hr, hok, hw'], ht⟩⟩
  · cases r with
    | error e => exact ⟨w, rfl, Or.inr ⟨ha, by simp [ReplayWindow.offer, hr], h⟩⟩
    | ok u => exact absurd (hiff.mp rfl) ha

/-- A run of the window from a state that tracks `accepted` gives the verdicts of the specification. -/
theorem offerAll_of_tracks (seqs : List UInt32) : ∀ (w : ReplayWindow) (accepted : List UInt32), Tracks w accepted →
    ∃ w', w.offerAll seqs = some (w', verdicts w.window accepted seqs) := by
  induction seqs with
  | nil => intro w accepted _; exact ⟨w, rfl⟩
  | cons seq rest ih =>
    intro w accepted h
    obtain ⟨w1, hwin, ⟨ha, ho, ht⟩ | ⟨ha, ho, ht⟩⟩ := offer_spec h seq
    · obtain ⟨w', hw'⟩ := ih w1 (seq :: accepted) ht
      exact ⟨w', by simp [ReplayWindow.offerAll, ho, hw', verdicts, ha, hwin]⟩
    · obtain ⟨w', hw'⟩ := ih w1 accepted ht
      exact ⟨w', by simp [ReplayWindow.offerAll, ho, hw', verdicts, ha, hwin]⟩

/-- The replay window refines its specification: for every window from 1 to 2^20 and every sequence of numbers, each offered to
`check` and committed when the check passes, no index leaves the bitmap and the numbers accepted are exactly those the
specification admits. -/
theorem replay_window_refines (window : UInt32) (h : 1 ≤ window.toNat) (h' : window.toNat ≤ 2 ^ 20) (seqs : List UInt32) :
    ∃ w', (newReplayWindow window).offerAll seqs = some (w', verdicts window [] seqs) :=
  offerAll_of_tracks seqs _ [] (tracks_new h h')

/-- A window of three: a replay, a number a window behind, a jump longer than the ring and the zero. -/
theorem replay_window_refines_three :
    ∃ w', (newReplayWindow 3).offerAll [5, 4, 5, 2, 9, 8, 6, 0] =
      some (w', [true, true, false, false, true, true, false, false]) := by
  have h := replay_window_refines 3 (by decide) (by decide) [5, 4, 5, 2, 9, 8, 6, 0]
  have e : verdicts 3 [] [5, 4, 5, 2, 9, 8, 6, 0] = [true, true, false, false, true, true, false, false] := by decide
  rwa [e] at h

/-- New numbers that each come less than a window behind those before them are all admitted. -/
theorem verdicts_true {window : UInt32} {seqs : List UInt32} : ∀ {accepted : List UInt32},
    (∀ b ∈ seqs, b ≠ 0 ∧ b ∉ accepted ∧ highest accepted < b.toNat + window.toNat) →
    seqs.Pairwise (fun a b => a ≠ b ∧ a.toNat < b.toNat + window.toNat) →
    verdicts window accepted seqs = seqs.map fun _ => true := by
  induction seqs with
  | nil => exact fun _ _ => rfl
  | cons s rest ih =>
    intro accepted hall hpair
    obtain ⟨hfirst, hrest⟩ := List.pairwise_cons.mp hpair
    obtain ⟨h0, hnew, hhigh⟩ := hall s List.mem_cons_self
    rw [verdicts, if_pos ⟨h0, hnew, by omega⟩, List.map_cons, ih (fun b hb => ?_) hrest]
    obtain ⟨hb0, hbnew, hbhigh⟩ := hall b (List.mem_cons_of_mem _ hb)
    obtain ⟨hne, hnear⟩ := hfirst b hb
    refine ⟨hb0, by simp [hbnew, hne.symm], ?_⟩
    rw [highest_cons]
    omega

/-- The window loses nothing to reordering: distinct nonzero numbers are all accepted, in any order in which none comes after a number
that is a window or more above it. -/
theorem reordered_accepted {window : UInt32} (h : 1 ≤ window.toNat) (h' : window.toNat ≤ 2 ^ 20) {seqs : List UInt32}
    (hzero : 0 ∉ seqs) (hnodup : seqs.Nodup) (hnear : seqs.Pairwise fun a b => a.toNat < b.toNat + window.toNat) :
    ∃ w', (newReplayWindow window).offerAll seqs = some (w', seqs.map fun _ => true) := by
  have hall : verdicts window [] seqs = seqs.map fun _ => true :=
    verdicts_true (fun b hb => ⟨fun hb0 => hzero (hb0 ▸ hb), List.not_mem_nil, Nat.lt_add_left _ h⟩) (hnodup.and hnear)
  rw [← hall]
  exact offerAll_of_tracks seqs _ [] (tracks_new h h')

theorem reordered_accepted_three : ∃ w', (newReplayWindow 3).offerAll [3, 1, 2, 5, 4] = some (w', [true, true, true, true, true]) :=
  reordered_accepted (by decide) (by decide) (by decide) (by decide) (by decide)

end RanetLite.Esp
