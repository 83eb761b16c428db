import RanetLite.Esp.Replay
import Mathlib.Tactic.Ring

/-!
# What the replay window's bitmap operations change

One statement for each function of `esp/replay.go` that reads or writes the bitmap: that no index leaves it, and which bits it
changes. The clears are stated in slots (`clearSpan_spec`) and in positions around the ring (`clearRange_spec`).
-/

namespace RanetLite.Esp.ReplayWindow

open WordBitmap

variable {m : List (BitVec 64)} {j : Nat}

/-- A slot below 64 times the number of words is a bit of some word. -/
theorem word_of_lt {k : Nat} (h : k < m.length) : m[k]? = some (m.getD k 0) := by
  rw [List.getD_eq_getElem?_getD, List.getElem?_eq_getElem h]
  rfl

/-- The word masks of `clearSpan`: a run inside a word, the top of a word, the bottom of a word. -/
theorem getLsbD_run {n off : Nat} (hn : n ≤ 64) (hj : j < 64) :
    ((BitVec.allOnes 64 >>> (64 - n)) <<< off).getLsbD j = decide (off ≤ j ∧ j < off + n) := by
  rw [BitVec.getLsbD_shiftLeft, BitVec.getLsbD_ushiftRight, BitVec.getLsbD_allOnes, Bool.eq_iff_iff]
  simp only [Bool.and_eq_true, Bool.not_eq_true', decide_eq_true_eq, decide_eq_false_iff_not]
  omega

theorem getLsbD_top {off : Nat} (hj : j < 64) : (BitVec.allOnes 64 <<< off).getLsbD j = decide (off ≤ j) := by
  rw [BitVec.getLsbD_shiftLeft, BitVec.getLsbD_allOnes, Bool.eq_iff_iff]
  simp only [Bool.and_eq_true, Bool.not_eq_true', decide_eq_true_eq, decide_eq_false_iff_not]
  omega

theorem getLsbD_bottom {n : Nat} (hn : n ≤ 64) : (BitVec.allOnes 64 >>> (64 - n)).getLsbD j = decide (j < n) := by
  rw [BitVec.getLsbD_ushiftRight, BitVec.getLsbD_allOnes, Bool.eq_iff_iff]
  simp only [decide_eq_true_eq]
  omega

/-- Clearing some bits of one word of the bitmap stays in bounds and clears those bits. -/
theorem clearWord_spec {k : UInt32} (bits : BitVec 64) (hk : k.toNat < m.length) :
    ∃ m', clearWord m k bits = some m' ∧ m'.length = m.length ∧
      ∀ i, bitAt m' i = (bitAt m i && !(decide (i / 64 = k.toNat) && bits.getLsbD (i % 64))) := by
  refine ⟨m.set k.toNat (m.getD k.toNat 0 &&& ~~~bits), ?_, List.length_set, ?_⟩
  · rw [clearWord, word_of_lt hk]
    rfl
  · intro i
    rw [bitAt_set _ _ _ _ hk]
    by_cases h : i / 64 = k.toNat
    · have hj : i % 64 < 64 := Nat.mod_lt _ (by decide)
      simp [h, bitAt, hj]
    · simp [h]

/-- The head of a span that starts at `start`: every bit from `start` to the end of its word is cleared, and the whole words
start at the next word boundary. -/
theorem clearHead_spec {m : List (BitVec 64)} {start : UInt32} (hin : start.toNat / 64 < m.length)
    (h32 : start.toNat + 64 < 2 ^ 32) :
    ∃ m' first, clearHead m start (start / 64) = some (m', first) ∧ m'.length = m.length ∧
      first.toNat = (start.toNat + 63) / 64 ∧
      ∀ i, bitAt m' i = (bitAt m i && !decide (start.toNat ≤ i ∧ i < 64 * ((start.toNat + 63) / 64))) := by
  have hfirst : (start / 64).toNat = start.toNat / 64 := by simp
  have hoff : (start % 64).toNat = start.toNat % 64 := by simp
  by_cases ho : start % 64 = 0
  · have ho' : start.toNat % 64 = 0 := by rw [← hoff, ho]; rfl
    refine ⟨m, start / 64, by simp [clearHead, ho], rfl, by omega, fun i => ?_⟩
    rw [decide_eq_false (by omega), Bool.not_false, Bool.and_true]
  · have ho' : start.toNat % 64 ≠ 0 := by
      intro h
      exact ho (UInt32.toNat_inj.mp (by rw [hoff, h]; rfl))
    obtain ⟨m', hm, hlen, hbits⟩ := clearWord_spec (m := m) (k := start / 64)
      (BitVec.allOnes 64 <<< (start % 64).toNat) (by omega)
    refine ⟨m', start / 64 + 1, by rw [clearHead, if_pos ho, hm]; rfl, hlen, ?_, fun i => ?_⟩
    · rw [UInt32.toNat_add, hfirst]
      simp only [UInt32.reduceToNat]
      omega
    · rw [hbits i, hfirst, hoff, getLsbD_top (Nat.mod_lt _ (by decide)), ← Bool.decide_and]
      congr 2
      rw [decide_eq_decide]
      omega

/-- The tail of a span that stops at `stop`: every bit from the last word boundary up to `stop` is cleared, and the whole words
stop there. -/
theorem clearTail_spec {m : List (BitVec 64)} {stop : UInt32} (hpos : 64 ≤ stop.toNat) (hin : stop.toNat ≤ 64 * m.length) :
    ∃ m' last, clearTail m stop ((stop - 1) / 64) = some (m', last) ∧ m'.length = m.length ∧
      last.toNat + 1 = stop.toNat / 64 ∧
      ∀ i, bitAt m' i = (bitAt m i && !decide (64 * (stop.toNat / 64) ≤ i ∧ i < stop.toNat)) := by
  have h32 := stop.toNat_lt
  have hlast : ((stop - 1) / 64).toNat = (stop.toNat - 1) / 64 := by
    rw [UInt32.toNat_div, UInt32.toNat_sub]
    simp only [UInt32.reduceToNat]
    omega
  have htail : (stop % 64).toNat = stop.toNat % 64 := by simp
  by_cases ht : stop % 64 = 0
  · have ht' : stop.toNat % 64 = 0 := by rw [← htail, ht]; rfl
    refine ⟨m, (stop - 1) / 64, by simp [clearTail, ht], rfl, by omega, fun i => ?_⟩
    rw [decide_eq_false (by omega), Bool.not_false, Bool.and_true]
  · have ht' : stop.toNat % 64 ≠ 0 := by
      intro h
      exact ht (UInt32.toNat_inj.mp (by rw [htail, h]; rfl))
    obtain ⟨m', hm, hlen, hbits⟩ := clearWord_spec (m := m) (k := (stop - 1) / 64)
      (BitVec.allOnes 64 >>> (64 - stop % 64).toNat) (by omega)
    have hsub : (64 - stop % 64).toNat = 64 - stop.toNat % 64 := by
      rw [UInt32.toNat_sub, htail]
      simp only [UInt32.reduceToNat]
      omega
    refine ⟨m', (stop - 1) / 64 - 1, by rw [clearTail, if_pos ht, hm]; rfl, hlen, ?_, fun i => ?_⟩
    · rw [UInt32.toNat_sub, hlast]
      simp only [UInt32.reduceToNat]
      omega
    · rw [hbits i, hlast, hsub, getLsbD_bottom (by omega), ← Bool.decide_and]
      congr 2
      rw [decide_eq_decide]
      omega

/-- Clearing the whole words between two word boundaries. -/
theorem clearWords_spec {m : List (BitVec 64)} {first last : UInt32} (hle : first.toNat ≤ last.toNat + 1)
    (hin : last.toNat + 1 ≤ m.length) (h32 : last.toNat + 1 < 2 ^ 32) :
    ∃ m', clearWords m first last = some m' ∧ m'.length = m.length ∧
      ∀ i, bitAt m' i = (bitAt m i && !decide (64 * first.toNat ≤ i ∧ i < 64 * (last.toNat + 1))) := by
  have hlast : (last + 1).toNat = last.toNat + 1 := by
    rw [UInt32.toNat_add]
    simp only [UInt32.reduceToNat]
    omega
  by_cases hfl : first ≤ last
  · refine ⟨zeroWords m first.toNat (last.toNat + 1), ?_, length_zeroWords m hle hin, fun i => ?_⟩
    · rw [clearWords, if_pos hfl, hlast, if_neg (by omega)]
    · rw [bitAt_zeroWords m hle hin]
      congr 2
      rw [decide_eq_decide]
      omega
  · refine ⟨m, by rw [clearWords, if_neg hfl], rfl, fun i => ?_⟩
    have : ¬first.toNat ≤ last.toNat := fun h => hfl (UInt32.le_iff_toNat_le.mpr h)
    rw [decide_eq_false (by omega), Bool.not_false, Bool.and_true]

/-- `clearSpan` stays in bounds on a run inside the bitmap, and clears the bits of that run and no other. -/
theorem clearSpan_spec (w : ReplayWindow) (start n : UInt32) (h32 : start.toNat + n.toNat + 64 < 2 ^ 32)
    (hin : start.toNat + n.toNat ≤ 64 * w.mask.length) :
    ∃ m, w.clearSpan start n = some { w with mask := m } ∧ m.length = w.mask.length ∧
      ∀ i, bitAt m i = (bitAt w.mask i && !decide (start.toNat ≤ i ∧ i < start.toNat + n.toNat)) := by
  by_cases hn : n = 0
  · subst hn
    refine ⟨w.mask, by simp [clearSpan], rfl, fun i => ?_⟩
    rw [decide_eq_false (by simp), Bool.not_false, Bool.and_true]
  have hn0 : n.toNat ≠ 0 := fun h => hn (UInt32.toNat_inj.mp h)
  have hstop : (start + n).toNat = start.toNat + n.toNat := by rw [UInt32.toNat_add]; omega
  have hfirst : (start / 64).toNat = start.toNat / 64 := by simp
  have hlast : ((start + n - 1) / 64).toNat = (start.toNat + n.toNat - 1) / 64 := by
    rw [UInt32.toNat_div, UInt32.toNat_sub, hstop]
    simp only [UInt32.reduceToNat]
    omega
  by_cases hfl : start / 64 = (start + n - 1) / 64
  · have hfl' : start.toNat / 64 = (start.toNat + n.toNat - 1) / 64 := by rw [← hfirst, hfl, hlast]
    have hsub : (64 - n).toNat = 64 - n.toNat := by
      rw [UInt32.toNat_sub]
      simp only [UInt32.reduceToNat]
      omega
    have hoff : (start % 64).toNat = start.toNat % 64 := by simp
    obtain ⟨m, hm, hlen, hbits⟩ := clearWord_spec (m := w.mask) (k := start / 64)
      ((BitVec.allOnes 64 >>> (64 - n).toNat) <<< (start % 64).toNat) (by omega)
    refine ⟨m, ?_, hlen, fun i => ?_⟩
    · simp only [clearSpan, if_neg hn, if_pos hfl, hm]
      rfl
    · rw [hbits i, hfirst, hsub, hoff, getLsbD_run (by omega) (Nat.mod_lt _ (by decide)), ← Bool.decide_and]
      congr 2
      rw [decide_eq_decide]
      omega
  · have hfl' : start.toNat / 64 ≠ (start.toNat + n.toNat - 1) / 64 := by
      intro h
      exact hfl (UInt32.toNat_inj.mp (by rw [hfirst, hlast, h]))
    obtain ⟨m1, first, h₁, hlen1, hf, hbits1⟩ := @clearHead_spec w.mask start (by omega) (by omega)
    obtain ⟨m2, last, h₂, hlen2, hl, hbits2⟩ := @clearTail_spec m1 (start + n) (by omega) (by omega)
    obtain ⟨m3, h₃, hlen3, hbits3⟩ := @clearWords_spec m2 first last (by omega) (by omega)
      (by omega)
    refine ⟨m3, ?_, by omega, fun i => ?_⟩
    · simp only [clearSpan, if_neg hn, if_neg hfl, h₁, h₂, h₃, Option.bind_eq_bind, Option.bind_some]
      rfl
    · rw [hbits3, hbits2, hbits1, hf, hl, hstop, Bool.and_assoc, Bool.and_assoc]
      congr 1
      rw [← Bool.not_or, ← Bool.not_or, ← Bool.decide_or, ← Bool.decide_or]
      congr 1
      rw [decide_eq_decide]
      omega

/-- `clearRange` stays in bounds and clears the `n` slots from `start` around the ring, and no other slot of the window. -/
theorem clearRange_spec (w : ReplayWindow) (start n : UInt32) (hw : 0 < w.window.toNat) (hw' : w.window.toNat ≤ 2 ^ 20)
    (hlen : w.window.toNat ≤ 64 * w.mask.length) (hn : n.toNat ≤ w.window.toNat) :
    ∃ m, w.clearRange start n = some { w with mask := m } ∧ m.length = w.mask.length ∧
      ∀ i, i < w.window.toNat → bitAt m i = (bitAt w.mask i &&
        !decide (start.toNat % w.window.toNat ≤ i ∧ i < start.toNat % w.window.toNat + n.toNat ∨
          i + w.window.toNat < start.toNat % w.window.toNat + n.toNat)) := by
  have hs : start.toNat % w.window.toNat < w.window.toNat := Nat.mod_lt _ hw
  have hstart : (start % w.window).toNat = start.toNat % w.window.toNat := UInt32.toNat_mod _ _
  have hadd : (start % w.window + n).toNat = start.toNat % w.window.toNat + n.toNat := by
    rw [UInt32.toNat_add, hstart]
    omega
  by_cases hn0 : n = 0
  · subst hn0
    refine ⟨w.mask, by simp [clearRange], rfl, fun i hi => ?_⟩
    have h0 : (0 : UInt32).toNat = 0 := rfl
    rw [decide_eq_false (by omega), Bool.not_false, Bool.and_true]
  by_cases hwrap : w.window < start % w.window + n
  · have hwrap' := UInt32.lt_iff_toNat_lt.mp hwrap
    have hhead : (w.window - start % w.window).toNat = w.window.toNat - start.toNat % w.window.toNat := by
      rw [UInt32.toNat_sub, hstart]
      omega
    have hrest : (n - (w.window - start % w.window)).toNat =
        start.toNat % w.window.toNat + n.toNat - w.window.toNat := by
      rw [UInt32.toNat_sub, hhead]
      omega
    obtain ⟨m1, h₁, hlen1, hbits1⟩ := clearSpan_spec w (start % w.window) (w.window - start % w.window) (by omega)
      (by omega)
    obtain ⟨m2, h₂, hlen2, hbits2⟩ := clearSpan_spec { w with mask := m1 } 0 (n - (w.window - start % w.window))
      (by simp only [UInt32.toNat_zero]; omega) (by simp only [UInt32.toNat_zero]; omega)
    refine ⟨m2, ?_, by simpa [hlen1] using hlen2, fun i hi => ?_⟩
    · simp only [clearRange, if_neg hn0, if_pos hwrap, h₁, h₂, Option.bind_eq_bind, Option.bind_some]
    · rw [hbits2, hbits1, hstart, hhead, hrest, UInt32.toNat_zero, Bool.and_assoc]
      congr 1
      rw [← Bool.not_or, ← Bool.decide_or]
      congr 1
      rw [decide_eq_decide]
      omega
  · have hwrap' : ¬w.window.toNat < (start % w.window + n).toNat := fun h => hwrap (UInt32.lt_iff_toNat_lt.mpr h)
    obtain ⟨m, h, hlen', hbits⟩ := clearSpan_spec w (start % w.window) n (by omega) (by omega)
    refine ⟨m, ?_, hlen', fun i hi => ?_⟩
    · simp only [clearRange, if_neg hn0, if_neg hwrap, h]
    · rw [hbits, hstart]
      congr 2
      rw [decide_eq_decide]
      omega

/-! ## Slots around the ring -/

/-- The slot `j` places after that of `a`. -/
theorem slot_add {a W : Nat} (hj : j < W) : (a + j) % W = if a % W + j < W then a % W + j else a % W + j - W := by
  have hr : a % W < W := Nat.mod_lt _ (by omega)
  rw [Nat.add_mod, Nat.mod_eq_of_lt hj]
  split
  · next h => exact Nat.mod_eq_of_lt h
  · rw [Nat.mod_eq_sub_mod (by omega), Nat.mod_eq_of_lt (by omega)]

/-- The slot `k` places before that of `a`. -/
theorem slot_sub {a k W : Nat} (hk : k < W) (hka : k ≤ a) : (a - k) % W = if k ≤ a % W then a % W - k else a % W + W - k := by
  have hr : a % W < W := Nat.mod_lt _ (by omega)
  have h := slot_add (a := a - k) hk
  rw [Nat.sub_add_cancel hka] at h
  have hs : (a - k) % W < W := Nat.mod_lt _ (by omega)
  split at h <;> split <;> omega

/-- The slot `bit` computes is the slot of the number `diff` behind `last`. -/
theorem toNat_bit (w : ReplayWindow) (last diff : UInt32) (hw : w.window.toNat ≤ 2 ^ 20) (hd : diff.toNat < w.window.toNat)
    (hl : diff.toNat < last.toNat) : (w.bit last diff).toNat = (last.toNat - diff.toNat - 1) % w.window.toNat := by
  have hl1 : (last - 1).toNat = last.toNat - 1 := by
    rw [UInt32.toNat_sub]
    simp only [UInt32.reduceToNat]
    have := last.toNat_lt
    omega
  have hr : (last.toNat - 1) % w.window.toNat < w.window.toNat := Nat.mod_lt _ (by omega)
  have e : last.toNat - diff.toNat - 1 = last.toNat - 1 - diff.toNat := by omega
  rw [bit, UInt32.toNat_mod, UInt32.toNat_sub, UInt32.toNat_add, UInt32.toNat_mod, hl1, e, slot_sub hd (by omega)]
  have h1 : (2 ^ 32 - diff.toNat + ((last.toNat - 1) % w.window.toNat + w.window.toNat) % 2 ^ 32) % 2 ^ 32 =
      (last.toNat - 1) % w.window.toNat + w.window.toNat - diff.toNat := by omega
  rw [h1]
  split
  · rw [Nat.mod_eq_sub_mod (by omega), Nat.mod_eq_of_lt (by omega)]
    omega
  · rw [Nat.mod_eq_of_lt (by omega)]

/-! ## Reading and marking a slot -/

/-- A single bit of a word, tested with a mask. -/
theorem and_bit_ne_zero (word : BitVec 64) (hj : j < 64) : (word &&& 1#64 <<< j != 0#64) = word.getLsbD j := by
  have hne : BitVec.twoPow 64 j ≠ 0#64 := by
    intro h
    have h' := congrArg (fun x : BitVec 64 => x.getLsbD j) h
    simp [hj] at h'
  rw [← BitVec.twoPow_eq, BitVec.and_twoPow]
  split
  · next h => rw [h]; simpa using hne
  · next h => simp [h]

/-- The word and the bit of a slot of the window. -/
theorem slot_word {b : UInt32} (hb : b.toNat < 64 * m.length) :
    (b / 64).toNat = b.toNat / 64 ∧ (b % 64).toNat = b.toNat % 64 ∧ b.toNat / 64 < m.length := by
  refine ⟨by simp, by simp, by omega⟩

/-- Reading a slot of the window stays in bounds. -/
theorem set_spec (w : ReplayWindow) (b : UInt32) (hb : b.toNat < 64 * w.mask.length) :
    w.set b = some (bitAt w.mask b.toNat) := by
  obtain ⟨h1, h2, h3⟩ := slot_word hb
  rw [set, h1, h2, word_of_lt h3]
  simp only [Option.bind_eq_bind, Option.bind_some, pure, bitAt]
  rw [and_bit_ne_zero _ (Nat.mod_lt _ (by decide))]

/-- Marking a slot of the window stays in bounds and sets that bit and no other. -/
theorem mark_spec (w : ReplayWindow) (b : UInt32) (hb : b.toNat < 64 * w.mask.length) :
    ∃ m, w.mark b = some { w with mask := m } ∧ m.length = w.mask.length ∧
      ∀ i, bitAt m i = (decide (i = b.toNat) || bitAt w.mask i) := by
  obtain ⟨h1, h2, h3⟩ := slot_word hb
  refine ⟨w.mask.set (b.toNat / 64) (w.mask.getD (b.toNat / 64) 0 ||| 1#64 <<< (b.toNat % 64)), ?_, List.length_set, ?_⟩
  · rw [mark, h1, h2, word_of_lt h3]
    rfl
  · intro i
    have hj : i % 64 < 64 := Nat.mod_lt _ (by decide)
    have hb' : b.toNat % 64 < 64 := Nat.mod_lt _ (by decide)
    rw [bitAt_set _ _ _ _ h3]
    by_cases h : i / 64 = b.toNat / 64
    · rw [if_pos h, BitVec.getLsbD_or, ← BitVec.twoPow_eq, BitVec.getLsbD_twoPow, bitAt, h, Bool.or_comm]
      congr 1
      rw [decide_eq_true hb', Bool.true_and, decide_eq_decide]
      omega
    · rw [if_neg h, decide_eq_false (by rintro rfl; exact h rfl), Bool.false_or]

end RanetLite.Esp.ReplayWindow
