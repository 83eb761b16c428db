import Mathlib.Data.Nat.Bitwise
import RanetLite.Babel.Receive

/-!
# The Hello history

The vector of Appendix A.1 under arrivals, misses the timer declares, and restarts. A timer that runs ahead of a lossless sender
writes zeros the next arrival takes back, so the history of such a sender reads no loss after any arrival. Whatever arrives, the
vector stays within the samples it claims, and the costs read off it are never below the nominal ones.
-/

namespace RanetLite.Babel

/-- What happens to the history of a link: a Hello arrives, the timer declares one missed, or the link is forgotten. -/
inductive LinkEvent where
  | hello (seqno : UInt16)
  | missed
  | forgotten
deriving DecidableEq, Repr

namespace HelloHistory

/-- A Hello on the receive path: one outside the window starts the history again. -/
def hear (h : HelloHistory) (seqno : UInt16) : HelloHistory :=
  match h.record seqno with
  | (true, h) => h
  | (false, _) => (({} : HelloHistory).record seqno).2

/-- The history after one event. -/
def step (h : HelloHistory) : LinkEvent → HelloHistory
  | .hello seqno => h.hear seqno
  | .missed => h.missed
  | .forgotten => {}

/-- The history after a sequence of events. -/
def run (h : HelloHistory) (events : List LinkEvent) : HelloHistory := events.foldl step h

/-- The history takes the Hello as the first of a stream: it has none yet, or the Hello is outside its window. -/
def Fresh (h : HelloHistory) (seqno : UInt16) : Prop := h.started = false ∨ (h.record seqno).1 = false

/-- The vector fits the samples it claims, and the samples fit the vector. -/
structure Fits (h : HelloHistory) : Prop where
  bits : h.bits.toNat < 2 ^ h.samples
  samples : h.samples ≤ historyDepth

/-- Every sample arrived, and `next` is expected; the timer has written `ahead` zeros on top. -/
structure Lossless (h : HelloHistory) (next : UInt16) (ahead : Nat) : Prop where
  started : h.started = true
  expected : h.expected = next + UInt16.ofNat ahead
  arrivals : ∃ kept, 0 < kept ∧ kept ≤ historyDepth ∧ h.samples = min (kept + ahead) historyDepth ∧
    ∀ i < historyDepth, h.bits.toNat.testBit i = decide (ahead ≤ i ∧ i < kept + ahead)

end HelloHistory

/-- A lossless stream from the sequence number on: before each Hello the timer has declared some misses. -/
def lossless (seqno : UInt16) : List Nat → List LinkEvent
  | [] => []
  | gap :: gaps => List.replicate gap .missed ++ .hello seqno :: lossless (seqno + 1) gaps

/-- The quotient of `scaleCost` is the one meant: no zero divisor, no product past 64 bits, no result cut to 16. -/
structure Divides (base : UInt16) (window received : Nat) : Prop where
  divisor : received ≠ 0
  product : base.toNat * window < 2 ^ 64
  result : (scaleCost base window received).toNat = min (base.toNat * window / received) metricInfinity.toNat

/-! ## The vector, bit by bit -/

namespace HelloHistory

variable {h : HelloHistory} {next : UInt16} {ahead : Nat}

/-- The bits after a shift: the newest, and the older ones moved up. -/
theorem testBit_shiftIn (h : HelloHistory) {bit : UInt16} {count i : Nat} (hcount : count < historyDepth) (hi : i < historyDepth) :
    (h.shiftIn bit count).bits.toNat.testBit i =
      ((decide (count ≤ i) && h.bits.toNat.testBit (i - count)) || bit.toNat.testBit i) := by
  have hcount' : count < 16 := hcount
  have hi' : i < 16 := hi
  have hmod : (UInt16.ofNat count).toNat % 16 = count := by
    rw [UInt16.toNat_ofNat_of_lt' (by simp [UInt16.size]; omega), Nat.mod_eq_of_lt hcount']
  unfold shiftIn
  rw [if_neg (by omega)]
  simp only [UInt16.toNat_or, UInt16.toNat_shiftLeft, Nat.testBit_or, hmod]
  rw [Nat.testBit_mod_two_pow, Nat.testBit_shiftLeft]
  simp [hi']

/-- A shift adds to the samples, up to the depth. -/
theorem samples_shiftIn (h : HelloHistory) (bit : UInt16) {count : Nat} (hcount : count < historyDepth) :
    (h.shiftIn bit count).samples = min (h.samples + count) historyDepth := by
  unfold shiftIn
  rw [if_neg (by omega)]

/-- There is no bit past the word. -/
theorem testBit_past_word (h : HelloHistory) {i : Nat} (hi : historyDepth ≤ i) : h.bits.toNat.testBit i = false := by
  have hword : h.bits.toNat < 2 ^ 16 := h.bits.toNat_lt
  exact Nat.testBit_lt_two_pow (hword.trans_le (Nat.pow_le_pow_right (by decide) hi))

/-- Within the samples means no bit at or above their number. -/
theorem fits_iff : h.Fits ↔ h.samples ≤ historyDepth ∧ ∀ i < historyDepth, h.samples ≤ i → h.bits.toNat.testBit i = false := by
  constructor
  · rintro ⟨hbits, hsamples⟩
    exact ⟨hsamples, fun i _ hle => Nat.testBit_lt_two_pow (hbits.trans_le (Nat.pow_le_pow_right (by decide) hle))⟩
  · rintro ⟨hsamples, hclear⟩
    refine ⟨Nat.lt_pow_two_of_testBit _ fun i hi => ?_, hsamples⟩
    by_cases hlt : i < historyDepth
    · exact hclear i hlt hi
    · exact testBit_past_word h (Nat.le_of_not_lt hlt)

/-- An empty history fits. -/
theorem fits_empty : ({} : HelloHistory).Fits := ⟨by decide, by decide⟩

/-- Shifting in zeros keeps the fit, however many. -/
theorem Fits.shiftIn_zero (hf : h.Fits) (count : Nat) : (h.shiftIn 0 count).Fits := by
  by_cases hcount : count < historyDepth
  · obtain ⟨hsamples, hclear⟩ := fits_iff.1 hf
    refine fits_iff.2 ⟨?_, fun i hi hle => ?_⟩
    · rw [samples_shiftIn h 0 hcount]
      exact Nat.min_le_right _ _
    · rw [samples_shiftIn h 0 hcount] at hle
      rw [testBit_shiftIn h hcount hi]
      have hbelow : h.bits.toNat.testBit (i - count) = false := hclear _ (by omega) (by omega)
      simp [hbelow]
  · unfold shiftIn
    rw [if_pos (by omega)]
    exact ⟨Nat.two_pow_pos _, Nat.le_refl _⟩

/-- So does shifting in one arrival, and there is a sample then. -/
theorem Fits.shiftIn_one (hf : h.Fits) : (h.shiftIn 1 1).Fits := by
  have hone : 1 < historyDepth := by decide
  obtain ⟨hsamples, hclear⟩ := fits_iff.1 hf
  refine fits_iff.2 ⟨?_, fun i hi hle => ?_⟩
  · rw [samples_shiftIn h 1 hone]
    exact Nat.min_le_right _ _
  · rw [samples_shiftIn h 1 hone] at hle
    have hpos : i ≠ 0 := by rintro rfl; simp [historyDepth] at hle
    have hbelow : h.bits.toNat.testBit (i - 1) = false := hclear _ (by omega) (by omega)
    have hbit : (1 : UInt16).toNat.testBit i = false := by
      cases i with
      | zero => exact absurd rfl hpos
      | succ i => simp [Nat.testBit_succ]
    rw [testBit_shiftIn h hone hi, hbelow, hbit]
    simp

/-- The vector after the zeros written too early are taken back. -/
theorem testBit_takeBack (h : HelloHistory) (behind : UInt16) (i : Nat) :
    (if historyDepth ≤ behind.toNat then 0 else h.bits >>> behind).toNat.testBit i =
      (decide (behind.toNat < historyDepth) && h.bits.toNat.testBit (behind.toNat + i)) := by
  by_cases hle : historyDepth ≤ behind.toNat
  · rw [if_pos hle]
    simp [Nat.not_lt.2 hle]
  · have hlt : behind.toNat < 16 := Nat.lt_of_not_le hle
    rw [if_neg hle, UInt16.toNat_shiftRight, Nat.mod_eq_of_lt hlt, Nat.testBit_shiftRight]
    simp [historyDepth, hlt]

/-- A history with its newest entries taken back fits. -/
theorem Fits.takeBack (hf : h.Fits) (behind : UInt16) :
    ({ h with bits := if historyDepth ≤ behind.toNat then 0 else h.bits >>> behind,
              samples := h.samples - behind.toNat } : HelloHistory).Fits := by
  obtain ⟨hsamples, hclear⟩ := fits_iff.1 hf
  refine fits_iff.2 ⟨(Nat.sub_le _ _).trans hsamples, fun i hi hle => ?_⟩
  rw [testBit_takeBack]
  dsimp only at hle
  by_cases hdeep : behind.toNat + i < historyDepth
  · rw [hclear _ hdeep (by omega), Bool.and_false]
  · rw [testBit_past_word h (Nat.le_of_not_lt hdeep), Bool.and_false]

/-- What is expected next does not matter to the fit. -/
theorem Fits.of_expected (hf : h.Fits) (expected : UInt16) :
    ({ h with expected := expected } : HelloHistory).Fits := ⟨hf.bits, hf.samples⟩

/-- Recording a Hello keeps the fit. -/
theorem Fits.record (hf : h.Fits) (seqno : UInt16) : (h.record seqno).2.Fits := by
  unfold HelloHistory.record
  by_cases hstarted : (!h.started) = true
  · rw [if_pos hstarted]
    exact ⟨Nat.one_lt_two, by simp [historyDepth]⟩
  rw [if_neg hstarted]
  by_cases hahead : seqno - h.expected ≤ rebootDrift
  · simp only [hahead, if_true]
    exact ((hf.shiftIn_zero _).shiftIn_one).of_expected _
  by_cases hbehind : h.expected - seqno ≤ rebootDrift
  · simp only [hahead, if_false, hbehind, if_true]
    exact ((hf.takeBack _).shiftIn_one).of_expected _
  · simp only [hahead, if_false, hbehind]
    exact hf

/-- Hearing one keeps it. -/
theorem Fits.hear (hf : h.Fits) (seqno : UInt16) : (h.hear seqno).Fits := by
  unfold HelloHistory.hear
  have hrecorded := hf.record seqno
  match hr : h.record seqno with
  | (true, h') => rw [hr] at hrecorded; exact hrecorded
  | (false, _) => exact fits_empty.record seqno

/-- So does missing one. -/
theorem Fits.missed (hf : h.Fits) : h.missed.Fits := by
  unfold HelloHistory.missed
  split
  · exact (hf.shiftIn_zero 1).of_expected _
  · exact hf

/-- So does every event. -/
theorem Fits.step {h : HelloHistory} (hf : h.Fits) (event : LinkEvent) : (h.step event).Fits := by
  cases event with
  | hello seqno => exact hf.hear seqno
  | missed => exact hf.missed
  | forgotten => exact fits_empty

/-- So does every run of events. -/
theorem Fits.run (hf : h.Fits) (events : List LinkEvent) : (h.run events).Fits := by
  induction events generalizing h with
  | nil => exact hf
  | cons event events ih => exact ih (hf.step event)

/-! ## A stream without loss -/

/-- The first Hello of a sender leaves nothing lost. -/
theorem Lossless.of_fresh {seqno : UInt16} (hfresh : h.Fresh seqno) : (h.hear seqno).Lossless (seqno + 1) 0 := by
  have hfirst : (({} : HelloHistory).record seqno).2.Lossless (seqno + 1) 0 := by
    refine ⟨rfl, by simp [HelloHistory.record], 1, by decide, by decide, rfl, fun i hi => ?_⟩
    cases i with
    | zero => simp [HelloHistory.record]
    | succ i => simp [HelloHistory.record, Nat.testBit_succ]
  unfold HelloHistory.hear
  rcases hfresh with hstarted | hflushed
  · have hr : h.record seqno = (true, { bits := 1, expected := seqno + 1, started := true, samples := 1 }) := by
      simp [HelloHistory.record, hstarted]
    rw [hr]
    exact hfirst
  · match hr : h.record seqno with
    | (true, _) => rw [hr] at hflushed; cases hflushed
    | (false, _) => exact hfirst

/-- A miss the timer declares is one more zero ahead of the sender. -/
theorem Lossless.missed (hl : h.Lossless next ahead) : h.missed.Lossless next (ahead + 1) := by
  obtain ⟨hstarted, hexpected, kept, hpos, hkept, hsamples, hbits⟩ := hl
  have hone : 1 < historyDepth := by decide
  have hmissed : h.missed = { h.shiftIn 0 1 with expected := h.expected + 1 } := by
    simp [HelloHistory.missed, hstarted]
  rw [hmissed]
  refine ⟨?_, ?_, kept, hpos, hkept, ?_, fun i hi => ?_⟩
  · simpa [shiftIn, historyDepth] using hstarted
  · dsimp only
    rw [hexpected, UInt16.ofNat_add, UInt16.add_assoc]
    rfl
  · dsimp only
    rw [samples_shiftIn h 0 hone, hsamples]
    omega
  · dsimp only
    rw [testBit_shiftIn h hone hi]
    by_cases hi0 : i = 0
    · subst hi0
      simp
    · rw [hbits (i - 1) (by omega)]
      have hiff : (ahead ≤ i - 1 ∧ i - 1 < kept + ahead) ↔ (ahead + 1 ≤ i ∧ i < kept + (ahead + 1)) := by omega
      have hle : 1 ≤ i := by omega
      simp [hiff, hle]

/-- Timeouts run ahead of the sender. -/
theorem Lossless.misses (hl : h.Lossless next ahead) (count : Nat) :
    (h.run (List.replicate count .missed)).Lossless next (ahead + count) := by
  induction count generalizing h ahead with
  | zero => exact hl
  | succ count ih =>
    have := ih hl.missed
    rwa [Nat.add_right_comm, Nat.add_assoc] at this

/-- An arrival on top of a vector that is full leaves one that is. -/
theorem Lossless.of_full {h : HelloHistory} {kept : Nat} (hstarted : h.started = true) (hkept : kept ≤ historyDepth)
    (hsamples : h.samples = kept) (hbits : ∀ i < historyDepth, h.bits.toNat.testBit i = decide (i < kept)) (next : UInt16) :
    ({ h.shiftIn 1 1 with expected := next } : HelloHistory).Lossless next 0 := by
  have hone : 1 < historyDepth := by decide
  refine ⟨?_, by simp, min (kept + 1) historyDepth, by simp [historyDepth], Nat.min_le_right _ _, ?_, fun i hi => ?_⟩
  · simpa [shiftIn, historyDepth] using hstarted
  · dsimp only
    rw [samples_shiftIn h 1 hone, hsamples]
    omega
  · dsimp only
    rw [testBit_shiftIn h hone hi]
    cases i with
    | zero => simp [historyDepth]
    | succ i =>
      rw [Nat.add_sub_cancel, hbits i (by omega)]
      have hiff : (0 ≤ i + 1 ∧ i + 1 < min (kept + 1) historyDepth + 0) ↔ i < kept := by omega
      simp only [hiff]
      simp [Nat.testBit_succ]

/-- Behind the zeros the timer wrote, the arrival the sender meant lands on the samples that were there. -/
theorem Lossless.arrives (hl : h.Lossless next ahead) (hahead : ahead ≤ 16) : (h.hear next).Lossless (next + 1) 0 := by
  obtain ⟨hstarted, hexpected, kept, -, hkept, hsamples, hbits⟩ := hl
  have hdepth : historyDepth = 16 := rfl
  have hdrift : rebootDrift.toNat = 16 := rfl
  have hnat : (UInt16.ofNat ahead).toNat = ahead := UInt16.toNat_ofNat_of_lt' (by simp [UInt16.size]; omega)
  have hbehind : (h.expected - next).toNat = ahead := by
    rw [hexpected, UInt16.add_comm, UInt16.add_sub_cancel, hnat]
  by_cases hzero : ahead = 0
  · -- the timer declared nothing, so the arrival is the one expected
    subst hzero
    have hsame : next - h.expected = 0 := by rw [hexpected]; simp
    have hrecord : h.record next = (true, { (h.shiftIn 0 0).shiftIn 1 1 with expected := next + 1 }) := by
      simp [HelloHistory.record, hstarted, hsame, rebootDrift]
    unfold HelloHistory.hear
    rw [hrecord]
    refine Lossless.of_full (by simpa [shiftIn, historyDepth] using hstarted) hkept ?_ (fun i hi => ?_) (next + 1)
    · rw [samples_shiftIn h 0 (by decide), hsamples]
      omega
    · rw [testBit_shiftIn h (by decide) hi, Nat.sub_zero, hbits i hi]
      simp
  · -- the zeros are shifted out again, with the samples they had claimed
    have hnotAhead : ¬ next - h.expected ≤ rebootDrift := by
      have hneg : next - h.expected = 0 - (h.expected - next) := by simp
      rw [UInt16.le_iff_toNat_le, hneg, UInt16.toNat_sub, hbehind, hdrift]
      simp only [UInt16.toNat_zero]
      omega
    have hle : h.expected - next ≤ rebootDrift := by
      rw [UInt16.le_iff_toNat_le, hbehind, hdrift]
      exact hahead
    have hrecord : h.record next = (true,
        { ({ h with bits := if historyDepth ≤ (h.expected - next).toNat then 0 else h.bits >>> (h.expected - next),
                    samples := h.samples - (h.expected - next).toNat } : HelloHistory).shiftIn 1 1 with
          expected := next + 1 }) := by
      simp [HelloHistory.record, hstarted, hnotAhead, hle]
    unfold HelloHistory.hear
    rw [hrecord]
    dsimp only
    refine @Lossless.of_full _ (min kept (historyDepth - ahead)) ?_ (by omega) ?_ (fun i hi => ?_) (next + 1)
    · exact hstarted
    · dsimp only
      omega
    · rw [testBit_takeBack, hbehind]
      by_cases hdeep : ahead + i < historyDepth
      · rw [hbits _ hdeep]
        have hiff : (ahead ≤ ahead + i ∧ ahead + i < kept + ahead) ↔ i < min kept (historyDepth - ahead) := by omega
        have hlt : ahead < historyDepth := by omega
        simp only [hiff, hlt, decide_true, Bool.true_and]
      · have hnot : ¬ i < min kept (historyDepth - ahead) := by omega
        rw [testBit_past_word h (Nat.le_of_not_lt hdeep), Bool.and_false, decide_eq_false hnot]

/-- A stream without loss stays so, whatever timed out in between. -/
theorem Lossless.stream (hl : h.Lossless next 0) {gaps : List Nat} (hgaps : ∀ gap ∈ gaps, gap ≤ 16) :
    ∃ last, (h.run (lossless next gaps)).Lossless last 0 := by
  induction gaps generalizing h next with
  | nil => exact ⟨next, hl⟩
  | cons gap gaps ih =>
    have hmissed := hl.misses gap
    rw [Nat.zero_add] at hmissed
    have harrived := hmissed.arrives (hgaps gap List.mem_cons_self)
    obtain ⟨last, hlast⟩ := ih harrived fun gap hgap => hgaps gap (List.mem_cons_of_mem _ hgap)
    refine ⟨last, ?_⟩
    rw [lossless, HelloHistory.run, List.foldl_append, List.foldl_cons]
    exact hlast

/-! ## The costs -/

/-- After a lossless arrival every Hello of the window counts. -/
theorem Lossless.beta (hl : h.Lossless next 0) : ∃ window, 0 < window ∧ window ≤ historyDepth ∧ h.beta = some (window, window) := by
  obtain ⟨hstarted, -, kept, hpos, hkept, hsamples, hbits⟩ := hl
  have hwindow : min betaWindow h.samples = kept := by
    rw [hsamples, betaWindow]
    omega
  refine ⟨kept, hpos, hkept, ?_⟩
  have hall : (List.range kept).filter (fun i => h.bits.toNat.testBit i) = List.range kept := by
    refine List.filter_eq_self.2 fun i hi => ?_
    have hlt := List.mem_range.1 hi
    rw [hbits i (by omega)]
    exact decide_eq_true ⟨Nat.zero_le _, hlt⟩
  unfold HelloHistory.beta
  rw [if_pos hstarted]
  simp only [hwindow, hall, List.length_range]

/-- No more is received than the window holds. -/
theorem beta_le {received window : Nat} (hb : h.beta = some (received, window)) : received ≤ window ∧ window ≤ historyDepth := by
  unfold HelloHistory.beta at hb
  split at hb
  · simp only [Option.some.injEq, Prod.mk.injEq] at hb
    obtain ⟨rfl, rfl⟩ := hb
    refine ⟨?_, Nat.min_le_left _ _⟩
    exact (List.length_filter_le _ _).trans_eq (List.length_range)
  · cases hb

end HelloHistory

namespace HistoryAux

open HelloHistory

variable {window : Nat}

/-- A window of sixteen keeps the product of `scaleCost` far from 64 bits. -/
theorem divides_of_beta {h : HelloHistory} {received : Nat} (hb : h.beta = some (received, window)) (hne : received ≠ 0)
    (base : UInt16) : Divides base window received := by
  have hwindow : window ≤ 16 := (beta_le hb).2
  have hbase : base.toNat < 65536 := base.toNat_lt
  refine ⟨hne, ?_, (toNat_scaleCost base window received).trans (Nat.min_comm _ _)⟩
  calc base.toNat * window ≤ 65536 * 16 := Nat.mul_le_mul hbase.le hwindow
    _ < 2 ^ 64 := by decide

/-- Without loss the cost is the nominal one. -/
theorem scaleCost_self (hpos : 0 < window) (base : UInt16) : scaleCost base window window = base := by
  have hbase : base.toNat < 65536 := base.toNat_lt
  refine UInt16.toNat_inj.1 ?_
  rw [toNat_scaleCost, Nat.mul_div_cancel _ hpos]
  exact Nat.min_eq_right (Nat.le_of_lt_succ hbase)

/-- Loss does not lower a cost. -/
theorem le_scaleCost {received : Nat} (hle : received ≤ window) (hne : received ≠ 0) (base : UInt16) :
    base ≤ scaleCost base window received := by
  have hbase : base.toNat < 65536 := base.toNat_lt
  rw [UInt16.le_iff_toNat_le, toNat_scaleCost]
  refine Nat.le_min.2 ⟨Nat.le_of_lt_succ hbase, ?_⟩
  rw [Nat.le_div_iff_mul_le (Nat.pos_of_ne_zero hne)]
  exact Nat.mul_le_mul_left _ hle

/-- Either direction's cost on the vector is its base, infinity, or the base scaled up. -/
theorem le_scaled (h : HelloHistory) (quality : LinkQuality) (base : UInt16) :
    base ≤ (match quality, h.beta with
      | .etx, some (received, window) => if received = 0 then metricInfinity else scaleCost base window received
      | _, _ => base) := by
  split
  · rename_i received window hb
    split
    · exact le_metricInfinity base
    · rename_i hne
      exact le_scaleCost (beta_le hb).1 hne base
  · exact UInt16.le_refl base

/-- The cost that is advertised is at least the nominal one. -/
theorem le_advertisedRxCost (p : CostParams) (h : HelloHistory) : p.rxCost ≤ p.advertisedRxCost h :=
  le_scaled h p.quality p.rxCost

/-- The quality of a link does not lower its cost. -/
theorem le_linkQualityCost (p : CostParams) (h : HelloHistory) (txcost : UInt16) : txcost ≤ p.linkQualityCost h txcost := by
  unfold CostParams.linkQualityCost
  split
  · exact le_metricInfinity txcost
  · exact le_scaled h p.quality txcost

/-- A sum that saturates is no less than its first term. -/
theorem le_saturatingAdd (a b : UInt16) : a ≤ saturatingAdd a b := by
  rw [UInt16.le_iff_toNat_le, toNat_saturatingAdd]
  exact Nat.le_min.2 ⟨Nat.le_of_lt_succ a.toNat_lt, Nat.le_add_right _ _⟩

/-- The cost of a link is at least what the neighbor reported. -/
theorem le_linkCost (n : NeighborState) (now : Time) (p : CostParams) : n.reportedCost ≤ n.linkCost now p := by
  unfold NeighborState.linkCost
  split
  · exact le_metricInfinity _
  · exact UInt16.le_trans (le_linkQualityCost p n.multicastHistory n.reportedCost) (le_saturatingAdd _ _)

/-! ## What the speaker does to the history of a link -/

/-- A run of events, then another. -/
theorem run_append (h : HelloHistory) (before after : List LinkEvent) : h.run (before ++ after) = (h.run before).run after :=
  List.foldl_append

/-- A multicast Hello is an event of the history. -/
theorem history_recordHello (n : NeighborState) (hello : Hello) :
    (n.recordHello hello).multicastHistory =
      n.multicastHistory.run (if hello.unicast then [] else [.hello hello.seqno]) := by
  unfold NeighborState.recordHello
  by_cases hunicast : hello.unicast = true
  · rw [if_pos hunicast, if_pos hunicast]
    rfl
  · rw [if_neg hunicast, if_neg hunicast]
    show _ = n.multicastHistory.hear hello.seqno
    unfold HelloHistory.hear
    match n.multicastHistory.record hello.seqno with
    | (true, _) => rfl
    | (false, _) => rfl

/-- The promise of a Hello is none. -/
theorem history_promised (n : NeighborState) (hello : Hello) (now : Time) :
    (n.promised hello now).multicastHistory = n.multicastHistory := by
  unfold NeighborState.promised
  split_ifs <;> rfl

/-- A Hello heard is a run of events. -/
theorem history_hearHello {n n' : NeighborState} {hello : Hello} {now : Time} (hn : n.hearHello hello now = some n') :
    ∃ events, n'.multicastHistory = n.multicastHistory.run events := by
  refine ⟨if hello.unicast then [] else [.hello hello.seqno], ?_⟩
  unfold NeighborState.hearHello at hn
  split at hn
  · cases hn
  · obtain rfl := Option.some.inj hn
    have hrecorded := history_recordHello ({ n with alive := true }.promised hello now) hello
    rw [history_promised] at hrecorded
    split <;> exact hrecorded

/-- An IHU is none. -/
theorem history_hearIHU {n n' : NeighborState} {ihu : IHU} {helloTS : Option UInt32} {now : Time}
    (hn : n.hearIHU ihu helloTS now = some n') : n'.multicastHistory = n.multicastHistory := by
  unfold NeighborState.hearIHU at hn
  split at hn
  · cases hn
  · dsimp only at hn
    split at hn <;> obtain rfl := Option.some.inj hn <;> rfl

/-- The sweep misses a number of Hellos. -/
theorem history_missHellos (now : Time) (fuel : Nat) (n : NeighborState) :
    ∃ count, (NeighborState.missHellos now fuel n).multicastHistory = n.multicastHistory.run (List.replicate count .missed) := by
  induction fuel generalizing n with
  | zero => exact ⟨0, rfl⟩
  | succ fuel ih =>
    unfold NeighborState.missHellos
    split
    · obtain ⟨count, hcount⟩ := ih n.missHello
      exact ⟨count + 1, hcount⟩
    · exact ⟨0, rfl⟩

/-- A timer pass declares some misses, and forgets a link whose Hellos have lapsed. -/
theorem history_sweep (n : NeighborState) (now : Time) :
    ∃ events, (n.sweep now).multicastHistory = n.multicastHistory.run events := by
  obtain ⟨count, hcount⟩ := history_missHellos now historyDepth n
  unfold NeighborState.sweep
  set missed := NeighborState.missHellos now historyDepth n
  by_cases hlapsed : (missed.alive && !missed.isAlive now) = true
  · refine ⟨List.replicate count .missed ++ [.forgotten], ?_⟩
    simp only [hlapsed, if_true, run_append]
    split_ifs <;> rfl
  · refine ⟨List.replicate count .missed, ?_⟩
    simp only [hlapsed, Bool.false_eq_true, if_false]
    split_ifs <;> exact hcount

end HistoryAux

/-- What the speaker does to a link: a Hello or an IHU of a packet, or a timer pass. -/
inductive LinkCall where
  | hello (hello : Hello) (now : Time)
  | ihu (ihu : IHU) (helloTS : Option UInt32) (now : Time)
  | sweep (now : Time)

/-- The neighbor after one such call; a TLV that is not acted on changes nothing. -/
def NeighborState.link (n : NeighborState) : LinkCall → NeighborState
  | .hello hello now => (n.hearHello hello now).getD n
  | .ihu ihu helloTS now => (n.hearIHU ihu helloTS now).getD n
  | .sweep now => n.sweep now

namespace HistoryAux

open HelloHistory

/-- Every call on a link is a run of events. -/
theorem history_link (n : NeighborState) (call : LinkCall) :
    ∃ events, (n.link call).multicastHistory = n.multicastHistory.run events := by
  cases call with
  | hello hello now =>
    show ∃ events, ((n.hearHello hello now).getD n).multicastHistory = _
    cases hn : n.hearHello hello now with
    | none => exact ⟨[], rfl⟩
    | some n' => exact history_hearHello hn
  | ihu ihu helloTS now =>
    show ∃ events, ((n.hearIHU ihu helloTS now).getD n).multicastHistory = _
    cases hn : n.hearIHU ihu helloTS now with
    | none => exact ⟨[], rfl⟩
    | some n' => exact ⟨[], history_hearIHU hn⟩
  | sweep now => exact history_sweep n now

/-- So are calls one after another. -/
theorem history_links (n : NeighborState) (calls : List LinkCall) :
    ∃ events, (calls.foldl NeighborState.link n).multicastHistory = n.multicastHistory.run events := by
  induction calls generalizing n with
  | nil => exact ⟨[], rfl⟩
  | cons call calls ih =>
    obtain ⟨first, hfirst⟩ := history_link n call
    obtain ⟨rest, hrest⟩ := ih (n.link call)
    refine ⟨first ++ rest, ?_⟩
    rw [run_append, ← hfirst]
    exact hrest

end HistoryAux

open HistoryAux

/-- The history of a lossless sender reads no loss after any arrival, wherever its counter stands and whatever the timer declared in
between, up to the width of the vector; so both costs are then the nominal ones. Under any events at all the vector fits its samples,
neither cost is below its base, and the division that scales them is exact. Every link the speaker keeps is such a history. -/
theorem hello_history_exact (p : CostParams) :
    (∀ (h : HelloHistory) (first : UInt16) (gaps : List Nat), h.Fresh first → (∀ gap ∈ gaps, gap ≤ 16) →
      ∃ window, 0 < window ∧ (h.run (.hello first :: lossless (first + 1) gaps)).beta = some (window, window) ∧
        p.advertisedRxCost (h.run (.hello first :: lossless (first + 1) gaps)) = p.rxCost ∧
        ∀ txcost, p.linkQualityCost (h.run (.hello first :: lossless (first + 1) gaps)) txcost = txcost) ∧
    (∀ events : List LinkEvent, (({} : HelloHistory).run events).Fits ∧
      p.rxCost ≤ p.advertisedRxCost (({} : HelloHistory).run events) ∧
      (∀ txcost, txcost ≤ p.linkQualityCost (({} : HelloHistory).run events) txcost) ∧
      ∀ received window, (({} : HelloHistory).run events).beta = some (received, window) →
        received ≤ window ∧ window ≤ 16 ∧
        (received = 0 ∨ ∀ base, Divides base window received)) ∧
    ∀ (peer : Peer) (calls : List LinkCall), ∃ events,
      (calls.foldl NeighborState.link { peer := peer }).multicastHistory = ({} : HelloHistory).run events ∧
      ∀ now, (calls.foldl NeighborState.link { peer := peer }).reportedCost ≤
        (calls.foldl NeighborState.link { peer := peer }).linkCost now p := by
  refine ⟨fun h first gaps hfresh hgaps => ?_, fun events => ?_, fun peer calls => ?_⟩
  · obtain ⟨last, hlast⟩ := (HelloHistory.Lossless.of_fresh hfresh).stream hgaps
    obtain ⟨window, hpos, -, hbeta⟩ := hlast.beta
    have hne : window ≠ 0 := hpos.ne'
    have hrun : (h.run (.hello first :: lossless (first + 1) gaps)).beta = some (window, window) := hbeta
    refine ⟨window, hpos, hrun, ?_, fun txcost => ?_⟩
    · unfold CostParams.advertisedRxCost
      rw [hrun]
      cases p.quality with
      | etx => simp only [hne, if_false, scaleCost_self hpos]
      | none => rfl
    · unfold CostParams.linkQualityCost
      rw [hrun]
      by_cases hinf : txcost = metricInfinity
      · rw [if_pos hinf, hinf]
      · rw [if_neg hinf]
        cases p.quality with
        | etx => simp only [hne, if_false, scaleCost_self hpos]
        | none => rfl
  · refine ⟨HelloHistory.fits_empty.run events, le_advertisedRxCost p _, le_linkQualityCost p _, fun received window hbeta => ?_⟩
    obtain ⟨hreceived, hwindow⟩ := HelloHistory.beta_le hbeta
    refine ⟨hreceived, hwindow, ?_⟩
    by_cases hzero : received = 0
    · exact .inl hzero
    · exact .inr (divides_of_beta hbeta hzero)
  · obtain ⟨events, hevents⟩ := history_links { peer := peer } calls
    exact ⟨events, hevents, fun now => le_linkCost _ now p⟩

/-- The counter wraps behind a first Hello at its end, with sixteen misses declared before the second Hello and three before the third. -/
theorem hello_history_exact_wrapping :
    (({} : HelloHistory).run (.hello 65535 :: lossless 0 [16, 3])).bits = 3 ∧
    defaultCostParams.advertisedRxCost (({} : HelloHistory).run (.hello 65535 :: lossless 0 [16, 3])) = 96 := by
  refine ⟨by decide, ?_⟩
  obtain ⟨_, _, _, hcost, _⟩ := (hello_history_exact defaultCostParams).1 {} 65535 [16, 3] (.inl rfl) (by decide)
  exact hcost

end RanetLite.Babel
