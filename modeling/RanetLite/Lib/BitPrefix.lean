import Mathlib.Data.BitVec

/-!
# Prefixes of bit vectors

Bits are counted from the most significant one, as an address is read. `Agree n x y` says two words share their first `n` bits;
`keepHigh x n` is the word with every bit from the `n`-th on cleared; `leadingZeros` counts the zeros a word starts with.
-/

namespace RanetLite.BitPrefix

variable {w : Nat} {n : Nat} {x y : BitVec w}

/-- Two words agree on their first `n` bits. -/
def Agree (n : Nat) (x y : BitVec w) : Prop := ∀ i, i < n → x.getMsbD i = y.getMsbD i

/-- The first `n` bits of a word, the others cleared. -/
def keepHigh (x : BitVec w) (n : Nat) : BitVec w := (x >>> (w - n)) <<< (w - n)

/-- How many zeros a word starts with; all of them when the word is zero. -/
def leadingZeros (x : BitVec w) : Nat := (List.range w).findIdx (fun i => x.getMsbD i)

theorem Agree.refl (n : Nat) (x : BitVec w) : Agree n x x := fun _ _ => rfl

theorem Agree.symm (h : Agree n x y) : Agree n y x := fun i hi => (h i hi).symm

theorem Agree.trans {z : BitVec w} (h : Agree n x y) (h' : Agree n y z) : Agree n x z :=
  fun i hi => (h i hi).trans (h' i hi)

theorem Agree.mono {m : Nat} (hmn : m ≤ n) (h : Agree n x y) : Agree m x y :=
  fun i hi => h i (Nat.lt_of_lt_of_le hi hmn)

/-- Words that agree on all their bits are equal. -/
theorem Agree.eq (hn : w ≤ n) (h : Agree n x y) : x = y := by
  apply BitVec.eq_of_getMsbD_eq
  intro i hi
  exact h i (by omega)

theorem getMsbD_keepHigh (x : BitVec w) (hn : n ≤ w) (i : Nat) : (keepHigh x n).getMsbD i = (decide (i < n) && x.getMsbD i) := by
  simp only [keepHigh, BitVec.getMsbD_eq_getLsbD, BitVec.getLsbD_shiftLeft, BitVec.getLsbD_ushiftRight]
  by_cases hi : i < w
  · by_cases hin : i < n
    · have e : w - n + (w - 1 - i - (w - n)) = w - 1 - i := by omega
      have h1 : w - 1 - i < w := by omega
      have h2 : ¬w - 1 - i < w - n := by omega
      simp [hi, hin, e, h1, h2]
    · have h2 : w - 1 - i < w - n := by omega
      simp [hin, h2]
  · simp [hi]

/-- Clearing below the first `n` bits is idempotent, and leaves the first `n` bits as they are. -/
theorem agree_keepHigh (x : BitVec w) (hn : n ≤ w) : Agree n (keepHigh x n) x := by
  intro i hi
  rw [getMsbD_keepHigh x hn, decide_eq_true hi, Bool.true_and]

theorem agree_iff_keepHigh (hn : n ≤ w) (x y : BitVec w) : Agree n x y ↔ keepHigh x n = keepHigh y n := by
  constructor
  · intro h
    apply BitVec.eq_of_getMsbD_eq
    intro i _
    rw [getMsbD_keepHigh x hn, getMsbD_keepHigh y hn]
    by_cases hi : i < n
    · rw [h i hi]
    · simp [hi]
  · intro h
    exact (agree_keepHigh x hn).symm.trans (h ▸ agree_keepHigh y hn)

/-- Comparing by shifting away the bits past the prefix. -/
theorem ushiftRight_xor_eq_zero_iff (hn : n ≤ w) (x y : BitVec w) : (x ^^^ y) >>> (w - n) = 0#w ↔ Agree n x y := by
  constructor
  · intro h i hi
    have h' := congrArg (fun z : BitVec w => z.getLsbD (n - 1 - i)) h
    simp only [BitVec.getLsbD_ushiftRight, BitVec.getLsbD_xor, BitVec.getLsbD_zero] at h'
    have e : w - n + (n - 1 - i) = w - 1 - i := by omega
    rw [e] at h'
    simp only [BitVec.getMsbD_eq_getLsbD]
    revert h'
    cases x.getLsbD (w - 1 - i) <;> cases y.getLsbD (w - 1 - i) <;> simp
  · intro h
    apply BitVec.eq_of_getLsbD_eq
    intro i hi
    simp only [BitVec.getLsbD_ushiftRight, BitVec.getLsbD_xor, BitVec.getLsbD_zero]
    by_cases hin : i < n
    · have h' := h (n - 1 - i) (by omega)
      simp only [BitVec.getMsbD_eq_getLsbD] at h'
      have e : w - 1 - (n - 1 - i) = w - n + i := by omega
      have hlt : n - 1 - i < w := by omega
      rw [e] at h'
      simpa [hlt] using h'
    · rw [BitVec.getLsbD_of_ge _ _ (by omega), BitVec.getLsbD_of_ge _ _ (by omega)]
      rfl

/-- Comparing by masking the bits past the prefix. -/
theorem keepHigh_xor_eq_zero_iff (hn : n ≤ w) (x y : BitVec w) : keepHigh (x ^^^ y) n = 0#w ↔ Agree n x y := by
  have hz : keepHigh (0#w) n = 0#w := by simp [keepHigh]
  have hxy : Agree n (x ^^^ y) 0#w ↔ Agree n x y := by
    refine forall_congr' fun i => imp_congr_right fun _ => ?_
    simp
  rw [← hxy, agree_iff_keepHigh hn, hz]

theorem leadingZeros_le (x : BitVec w) : leadingZeros x ≤ w := by
  have h : (List.range w).findIdx (fun i => x.getMsbD i) ≤ (List.range w).length := List.findIdx_le_length
  simpa [leadingZeros] using h

/-- The bits before the count are zero. -/
theorem getMsbD_of_lt_leadingZeros {i : Nat} (h : i < leadingZeros x) : x.getMsbD i = false := by
  have hw := leadingZeros_le x
  have h' := List.not_of_lt_findIdx h
  simpa using h'

/-- The bit at the count is one, unless the word is zero. -/
theorem getMsbD_leadingZeros (h : leadingZeros x < w) : x.getMsbD (leadingZeros x) = true := by
  have hlt : (List.range w).findIdx (fun i => x.getMsbD i) < (List.range w).length := by simpa [leadingZeros] using h
  simpa [leadingZeros] using List.findIdx_getElem (w := hlt)

end RanetLite.BitPrefix
