import Mathlib.Tactic.Linarith
import RanetLite.Netstack.IcmpToken

/-!
# The rate of ICMP errors

While calls do not overlap, every interval sees at most the burst and what the bucket got back in it. What carries this is the sum of
the tokens granted since a time and those still in the bucket. Two calls that overlap can spend one token twice: both read the bucket,
and the second swap of `icmpFilled` finds the value it read, because the first one put the same time there.
-/

namespace RanetLite.Netstack.Bucket
namespace IcmpTokenAux

/-- The books of a bucket that was filled at a time: granted since then and still held, against the burst and the time passed. -/
structure Books (granted : List Int) (tokens filled : Int) : Prop where
  held : 0 ≤ tokens
  last : ∀ t ∈ granted, t ≤ filled
  since : ∀ start, (∃ t ∈ granted, start ≤ t) →
    icmpRefill * (granted.countP (start ≤ ·) + tokens - icmpBurst) ≤ filled - start
  within : ∀ start stop, start ≤ stop →
    icmpRefill * (granted.countP (fun t => start ≤ t ∧ t ≤ stop) - icmpBurst) ≤ stop - start

variable {granted : List Int} {tokens filled now : Int}

/-- What a call counts is no more than was held and has come back. -/
theorem count_le (h : filled ≤ now) : icmpRefill * (count tokens now filled - tokens) ≤ now - filled := by
  have hmin : count tokens now filled ≤ tokens + (now - filled).tdiv icmpRefill := min_le_right _ _
  have hback : icmpRefill * (now - filled).tdiv icmpRefill ≤ now - filled := by
    rw [Int.tdiv_eq_ediv_of_nonneg (by omega)]
    exact Int.mul_ediv_self_le (by decide)
  calc icmpRefill * (count tokens now filled - tokens) ≤ icmpRefill * (now - filled).tdiv icmpRefill :=
        mul_le_mul_of_nonneg_left (by omega) (by decide)
    _ ≤ now - filled := hback

/-- Granted since a time, with one more that is no earlier than the time the bucket was filled at. -/
theorem since_grant (h : Books granted tokens filled) (hnow : filled ≤ now) {start : Int} (hstart : start ≤ now) :
    icmpRefill * ((now :: granted).countP (start ≤ ·) + (count tokens now filled - 1) - icmpBurst) ≤ now - start := by
  rw [List.countP_cons_of_pos (by simpa using hstart)]
  push_cast
  by_cases hany : ∃ t ∈ granted, start ≤ t
  · have hbefore := h.since start hany
    have hcount : icmpRefill * (count tokens now filled - tokens) ≤ now - filled := count_le hnow
    linarith
  · -- The first one since then comes out of a bucket that holds no more than the burst.
    have hzero : granted.countP (start ≤ ·) = 0 :=
      List.countP_eq_zero.mpr fun t ht hle => hany ⟨t, ht, by simpa using hle⟩
    have hburst : count tokens now filled ≤ icmpBurst := min_le_left _ _
    have hbound : icmpRefill * (count tokens now filled - icmpBurst) ≤ 0 :=
      mul_nonpos_of_nonneg_of_nonpos (by decide) (by omega)
    rw [hzero]
    push_cast
    linarith

theorem Books.grant (h : Books granted tokens filled) (hnow : filled ≤ now) (hone : 1 ≤ count tokens now filled) :
    Books (now :: granted) (count tokens now filled - 1) now where
  held := by omega
  last := List.forall_mem_cons.mpr ⟨le_refl now, fun t ht => (h.last t ht).trans hnow⟩
  since start := by
    rintro ⟨t, ht, hle⟩
    refine since_grant h hnow (hle.trans ?_)
    rcases List.mem_cons.mp ht with rfl | ht
    · exact le_refl t
    · exact (h.last t ht).trans hnow
  within start stop hle := by
    by_cases hin : start ≤ now ∧ now ≤ stop
    · -- Nothing was granted after the interval yet, so what was granted in it was granted since its start.
      have hall : (now :: granted).countP (fun t => start ≤ t ∧ t ≤ stop) = (now :: granted).countP (start ≤ ·) := by
        refine List.countP_congr fun t ht => ?_
        have hlaterp : t ≤ stop := by
          rcases List.mem_cons.mp ht with rfl | ht
          · exact hin.2
          · exact ((h.last t ht).trans hnow).trans hin.2
        simp [hlaterp]
      have hsince := since_grant h hnow hin.1
      have hheld : 0 ≤ icmpRefill * (count tokens now filled - 1) := mul_nonneg (by decide) (by omega)
      rw [hall]
      linarith
    · rw [List.countP_cons_of_neg (by simpa using hin)]
      exact h.within start stop hle

/-- What the only call under way knows is still so. -/
def Current (s : Bucket) : TokenCall → Prop
  | .entered now => Books s.granted s.icmpTokens s.icmpFilled ∧ s.icmpFilled ≤ now ∧ now ≤ s.clock
  | .loaded now last => last = s.icmpFilled ∧ Books s.granted s.icmpTokens s.icmpFilled ∧ s.icmpFilled ≤ now ∧ now ≤ s.clock
  | .counted now last tokens => last = s.icmpFilled ∧ tokens = count s.icmpTokens now s.icmpFilled ∧ 1 ≤ tokens ∧
      Books s.granted s.icmpTokens s.icmpFilled ∧ s.icmpFilled ≤ now ∧ now ≤ s.clock
  -- The books already have the token that is about to be stored as spent.
  | .swapped now tokens => Books (now :: s.granted) (tokens - 1) now ∧ s.icmpFilled = now

/-- What a bucket keeps while calls do not overlap. -/
structure Sound (s : Bucket) : Prop where
  filled : s.icmpFilled ≤ s.clock
  calls : s.calls = [] ∧ Books s.granted s.icmpTokens s.icmpFilled ∨ ∃ call, s.calls = [call] ∧ Current s call

variable {s : Bucket}

theorem sound_tick (h : Sound s) {later : Int} (hlater : s.clock ≤ later) : Sound { s with clock := later } := by
  refine ⟨h.filled.trans hlater, h.calls.imp_right ?_⟩
  rintro ⟨call, hcalls, hcurrent⟩
  refine ⟨call, hcalls, ?_⟩
  cases call with
  | entered now =>
    obtain ⟨hbooks, hfilled, hnow⟩ := hcurrent
    exact ⟨hbooks, hfilled, hnow.trans hlater⟩
  | loaded now last =>
    obtain ⟨hlast, hbooks, hfilled, hnow⟩ := hcurrent
    exact ⟨hlast, hbooks, hfilled, hnow.trans hlater⟩
  | counted now last tokens =>
    obtain ⟨hlast, htokens, hone, hbooks, hfilled, hnow⟩ := hcurrent
    exact ⟨hlast, htokens, hone, hbooks, hfilled, hnow.trans hlater⟩
  | swapped now tokens => exact hcurrent

theorem sound_enter (h : Sound s) (halone : s.calls = []) : Sound { s with calls := s.calls ++ [.entered s.clock] } := by
  refine ⟨h.filled, .inr ⟨.entered s.clock, by rw [halone]; rfl, ?_⟩⟩
  rcases h.calls with ⟨-, hbooks⟩ | ⟨call, hcalls, -⟩
  · exact ⟨hbooks, h.filled, le_refl s.clock⟩
  · rw [halone] at hcalls
    cases hcalls

/-- One atomic operation of the only call. -/
theorem sound_step (h : Sound s) {call : TokenCall} (hcalls : s.calls = [call]) (hcurrent : Current s call) :
    Sound (s.stepCall 0 call) := by
  cases call with
  | entered now =>
    refine ⟨h.filled, .inr ⟨.loaded now s.icmpFilled, ?_, rfl, hcurrent⟩⟩
    rw [stepCall, hcalls, List.set_cons_zero]
  | loaded now last =>
    obtain ⟨rfl, hbooks, hrest⟩ := hcurrent
    rw [stepCall]
    by_cases htokens : count s.icmpTokens now s.icmpFilled < 1
    · rw [if_pos htokens]
      exact ⟨h.filled, .inl ⟨by rw [hcalls]; rfl, hbooks⟩⟩
    · rw [if_neg htokens]
      exact ⟨h.filled, .inr ⟨.counted now s.icmpFilled _, by rw [hcalls, List.set_cons_zero], rfl, rfl, Int.not_lt.mp htokens, hbooks, hrest⟩⟩
  | counted now last tokens =>
    obtain ⟨rfl, rfl, hone, hbooks, hfilled, hnow⟩ := hcurrent
    rw [stepCall, if_pos rfl]
    exact ⟨hnow, .inr ⟨.swapped now _, by rw [hcalls, List.set_cons_zero], hbooks.grant hfilled hone, rfl⟩⟩
  | swapped now tokens =>
    obtain ⟨hbooks, rfl⟩ := hcurrent
    exact ⟨h.filled, .inl ⟨by rw [stepCall, hcalls]; rfl, hbooks⟩⟩

theorem sound_move (h : Sound s) {m : Move} (hen : (system.restrict Alone).enabled s m) :
    Sound ((system.restrict Alone).apply s m) := by
  cases m with
  | tick later => exact sound_tick h hen.1
  | enter => exact sound_enter h hen.2
  | step i =>
    have hi : i < s.calls.length := hen.1
    rcases h.calls with ⟨hnone, -⟩ | ⟨call, hcalls, hcurrent⟩
    · rw [hnone] at hi
      exact absurd hi (Nat.not_lt_zero i)
    · obtain rfl : i = 0 := by rw [hcalls, List.length_singleton] at hi; omega
      have hstep : (system.restrict Alone).apply s (.step 0) = s.stepCall 0 call := by
        show (s.calls[0]?).elim s (s.stepCall 0) = _
        rw [hcalls]
        rfl
      rw [hstep]
      exact sound_step h hcalls hcurrent

theorem books_start : Books [] icmpBurst 0 where
  held := by decide
  last := by simp
  since := by simp
  within start stop hle := by
    have hnone : icmpRefill * ((0 : Int) - icmpBurst) ≤ 0 := by decide
    exact hnone.trans (by omega)

/-- The books of the tokens that were granted, whatever the call under way has got to. -/
theorem Sound.within (h : Sound s) {start stop : Int} (hle : start ≤ stop) :
    icmpRefill * (s.grantedIn start stop - icmpBurst) ≤ stop - start := by
  rcases h.calls with ⟨-, hbooks⟩ | ⟨call, -, hcurrent⟩
  · exact hbooks.within start stop hle
  cases call with
  | entered now => exact hcurrent.1.within start stop hle
  | loaded now last => exact hcurrent.2.1.within start stop hle
  | counted now last tokens => exact hcurrent.2.2.2.1.within start stop hle
  | swapped now tokens =>
    have hwith := hcurrent.1.within start stop hle
    have hmore : s.granted.countP (fun t => start ≤ t ∧ t ≤ stop) ≤ (now :: s.granted).countP fun t => start ≤ t ∧ t ≤ stop :=
      (List.sublist_cons_self now s.granted).countP_le
    have hscaled : icmpRefill * (s.grantedIn start stop - icmpBurst) ≤
        icmpRefill * ((now :: s.granted).countP (fun t => start ≤ t ∧ t ≤ stop) - icmpBurst) :=
      mul_le_mul_of_nonneg_left (sub_le_sub_right (Int.ofNat_le.mpr hmore) icmpBurst) (by decide)
    exact hscaled.trans hwith

end IcmpTokenAux

open IcmpTokenAux

/-- When no call is made while another one is under way, the tokens granted in an interval are at most the burst and one for each
refill interval in it. -/
theorem tokens_bounded {s : Bucket} (hrun : (system.restrict Alone).Run {} s) (start : Int) {length : Int} (hlength : 0 ≤ length) :
    s.grantedIn start (start + length) ≤ icmpBurst + length / icmpRefill := by
  have hsound := hrun.invariant (P := Sound) ⟨le_refl 0, .inl ⟨rfl, books_start⟩⟩ fun _ _ h hen => sound_move h hen
  have hwithin := hsound.within (show start ≤ start + length by omega)
  have hdiv : s.grantedIn start (start + length) - icmpBurst ≤ length / icmpRefill := by
    rw [Int.le_ediv_iff_mul_le (by decide), mul_comm]
    linarith
  omega

instance (s : Bucket) : (m : Move) → Decidable (system.enabled s m)
  | .tick later => inferInstanceAs (Decidable (s.clock ≤ later))
  | .enter => instDecidableTrue
  | .step i => inferInstanceAs (Decidable (i < s.calls.length))

instance (s : Bucket) : (m : Move) → Decidable (s.Alone m)
  | .enter => inferInstanceAs (Decidable (s.calls = []))
  | .tick _ | .step _ => instDecidableTrue

/-- A call that nobody else gets in the way of. -/
def wholeCall : List Move := [.enter, .step 0, .step 0, .step 0, .step 0]

theorem tokens_bounded_spent : ∃ s, (system.restrict Alone).Run {} s ∧ s.grantedIn 0 icmpRefill = icmpBurst + 1 ∧
    s.grantedIn 0 (0 + icmpRefill) ≤ icmpBurst + icmpRefill / icmpRefill := by
  have hplayed : ∃ s, (system.restrict Alone).Run {} s ∧ s.grantedIn 0 icmpRefill = icmpBurst + 1 :=
    Moves.System.exists_run ((List.replicate 8 wholeCall).flatten ++ .tick icmpRefill :: wholeCall) (by decide +kernel)
  obtain ⟨s, hrun, hgranted⟩ := hplayed
  exact ⟨s, hrun, hgranted, tokens_bounded hrun 0 (by decide)⟩

/-- Two calls count the same token, and one more than the burst is granted without any time passing. -/
theorem token_spent_twice : ∃ s, system.Run {} s ∧ s.clock = 0 ∧ ¬s.grantedIn 0 (0 + 0) ≤ icmpBurst + 0 / icmpRefill :=
  Moves.System.exists_run
    ([.enter, .enter, .step 0, .step 0, .step 1, .step 1, .step 0, .step 0, .step 0, .step 0] ++ (List.replicate 7 wholeCall).flatten)
    (by decide +kernel)

end RanetLite.Netstack.Bucket
