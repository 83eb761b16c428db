import Mathlib.Data.List.Basic

/-!
# Bitmaps kept in 64-bit words

A bitmap is a list of words; bit `i` is bit `i % 64` of word `i / 64`. Bits past the last word read as clear. The lemmas say
which bits the three ways of writing such a bitmap change: one word replaced, a run of whole words zeroed, all of it zeroed.
-/

namespace RanetLite.WordBitmap

/-- Bit `i` of a bitmap. -/
def bitAt (m : List (BitVec 64)) (i : Nat) : Bool := (m.getD (i / 64) 0).getLsbD (i % 64)

/-- A bitmap with the words from `first` up to but not including `stop` zeroed. -/
def zeroWords (m : List (BitVec 64)) (first stop : Nat) : List (BitVec 64) :=
  m.take first ++ List.replicate (stop - first) 0 ++ m.drop stop

/-- A bitmap of zero words has no bit set. -/
theorem bitAt_replicate (n i : Nat) : bitAt (List.replicate n 0) i = false := by
  simp only [bitAt, List.getD_eq_getElem?_getD, List.getElem?_replicate]
  split <;> simp

/-- Replacing one word changes the bits of that word and no other. -/
theorem bitAt_set (m : List (BitVec 64)) (k : Nat) (w : BitVec 64) (i : Nat) (hk : k < m.length) :
    bitAt (m.set k w) i = if i / 64 = k then w.getLsbD (i % 64) else bitAt m i := by
  simp only [bitAt, List.getD_eq_getElem?_getD]
  by_cases h : i / 64 = k
  · rw [if_pos h, h, List.getElem?_set_self hk]
    rfl
  · rw [if_neg h, List.getElem?_set_ne (Ne.symm h)]

theorem length_zeroWords (m : List (BitVec 64)) {first stop : Nat} (h : first ≤ stop) (hs : stop ≤ m.length) :
    (zeroWords m first stop).length = m.length := by
  simp only [zeroWords, List.length_append, List.length_take, List.length_replicate, List.length_drop]
  omega

/-- Zeroing a run of words clears their bits and no other. -/
theorem bitAt_zeroWords (m : List (BitVec 64)) {first stop : Nat} (h : first ≤ stop) (hs : stop ≤ m.length) (i : Nat) :
    bitAt (zeroWords m first stop) i = (bitAt m i && !decide (first ≤ i / 64 ∧ i / 64 < stop)) := by
  have hlen : (m.take first).length = first := by rw [List.length_take]; omega
  simp only [bitAt, zeroWords, List.getD_eq_getElem?_getD, List.append_assoc]
  by_cases h1 : i / 64 < first
  · rw [List.getElem?_append_left (by omega), List.getElem?_take_of_lt h1]
    have : ¬(first ≤ i / 64 ∧ i / 64 < stop) := by omega
    simp [this]
  · rw [List.getElem?_append_right (by omega), hlen]
    by_cases h2 : i / 64 < stop
    · rw [List.getElem?_append_left (by rw [List.length_replicate]; omega), List.getElem?_replicate_of_lt (by omega)]
      have : first ≤ i / 64 ∧ i / 64 < stop := by omega
      simp [this]
    · rw [List.getElem?_append_right (by rw [List.length_replicate]; omega), List.length_replicate, List.getElem?_drop]
      have e : stop + (i / 64 - first - (stop - first)) = i / 64 := by omega
      have : ¬(first ≤ i / 64 ∧ i / 64 < stop) := by omega
      simp [e, this]

end RanetLite.WordBitmap
