import Mathlib.Data.List.Basic

/-!
# Buffers written in place

`write` puts bytes into a buffer at an index and leaves the rest, as a copy into a slice does: what would not fit is cut off, and the
length never changes. Writes that follow one another are one write, and what lies outside a write is read as before.
-/

namespace RanetLite.Buffer

variable {α : Type} {buf : List α} {i : Nat}

/-- The buffer with `new` at index `i`, as far as it fits. -/
def write (buf : List α) (i : Nat) (new : List α) : List α :=
  buf.take i ++ (new.take (buf.length - i) ++ buf.drop (i + new.length))

/-- The `n` elements from index `i` on. -/
def read (buf : List α) (i n : Nat) : List α := (buf.drop i).take n

@[simp] theorem length_write (buf : List α) (i : Nat) (new : List α) : (write buf i new).length = buf.length := by
  simp only [write, List.length_append, List.length_take, List.length_drop]
  omega

theorem getElem?_write (buf : List α) (i : Nat) (new : List α) (j : Nat) :
    (write buf i new)[j]? = if i ≤ j ∧ j < i + new.length ∧ j < buf.length then new[j - i]? else buf[j]? := by
  unfold write
  by_cases hi : j < i
  · rw [if_neg (by omega), List.getElem?_append]
    split_ifs with hj
    · rw [List.getElem?_take_of_lt hi]
    · rw [List.length_take] at hj
      refine (List.getElem?_eq_none_iff.2 ?_).trans (List.getElem?_eq_none_iff.2 (by omega)).symm
      simp only [List.length_append, List.length_take, List.length_drop]
      omega
  · rw [List.getElem?_append_right (by rw [List.length_take]; omega), List.length_take]
    by_cases hlen : j < buf.length
    · rw [show j - min i buf.length = j - i by omega]
      by_cases hnew : j < i + new.length
      · rw [if_pos ⟨by omega, hnew, hlen⟩, List.getElem?_append_left (by rw [List.length_take]; omega),
          List.getElem?_take_of_lt (by omega)]
      · rw [if_neg (by omega), List.getElem?_append_right (by rw [List.length_take]; omega), List.length_take, List.getElem?_drop,
          show i + new.length + (j - i - min (buf.length - i) new.length) = j by omega]
    · rw [if_neg (by omega)]
      refine (List.getElem?_eq_none_iff.2 ?_).trans (List.getElem?_eq_none_iff.2 (by omega)).symm
      simp only [List.length_append, List.length_take, List.length_drop]
      omega

/-- What lies outside a write is as before. -/
theorem getElem?_write_of_outside {new : List α} {j : Nat} (h : j < i ∨ i + new.length ≤ j) : (write buf i new)[j]? = buf[j]? := by
  rw [getElem?_write, if_neg (by omega)]

theorem getElem?_read (buf : List α) (i n j : Nat) : (read buf i n)[j]? = if j < n then buf[i + j]? else none := by
  unfold read
  rw [List.getElem?_take, List.getElem?_drop]

theorem length_read {n : Nat} (h : i + n ≤ buf.length) : (read buf i n).length = n := by
  rw [read, List.length_take, List.length_drop]
  omega

/-- Two writes, the second right behind the first, are one. -/
theorem write_write (buf : List α) (i : Nat) (a b : List α) : write (write buf i a) (i + a.length) b = write buf i (a ++ b) := by
  refine List.ext_getElem? fun j => ?_
  rw [getElem?_write, getElem?_write, getElem?_write, length_write, List.length_append]
  by_cases hb : i + a.length ≤ j ∧ j < i + a.length + b.length ∧ j < buf.length
  · rw [if_pos hb, if_pos (by omega), List.getElem?_append_right (by omega), show j - i - a.length = j - (i + a.length) by omega]
  · rw [if_neg hb]
    by_cases ha : i ≤ j ∧ j < i + a.length ∧ j < buf.length
    · rw [if_pos ha, if_pos (by omega), List.getElem?_append_left (by omega)]
    · rw [if_neg ha, if_neg (by omega)]

/-- The same, with the length of the first under another name. -/
theorem write_next {front more : List α} {k : Nat} (h : front.length = k) :
    write (write buf i front) (i + k) more = write buf i (front ++ more) := by
  rw [← h, write_write]

theorem write_nil (buf : List α) (i : Nat) : write buf i [] = buf := by
  refine List.ext_getElem? fun j => ?_
  rw [getElem?_write, if_neg (by simp only [List.length_nil]; omega)]

/-- What was written is read back. -/
theorem read_write_self {buf : List α} {i : Nat} {new : List α} (h : i + new.length ≤ buf.length) :
    read (write buf i new) i new.length = new := by
  refine List.ext_getElem? fun j => ?_
  rw [getElem?_read, getElem?_write]
  by_cases hj : j < new.length
  · rw [if_pos hj, if_pos ⟨by omega, by omega, by omega⟩, show i + j - i = j by omega]
  · rw [if_neg hj, List.getElem?_eq_none_iff.2 (by omega)]

/-- Writing over a part of the same length puts the new one in its place. -/
theorem write_middle {front old new back : List α} (hi : front.length = i) (hlen : old.length = new.length) :
    write (front ++ (old ++ back)) i new = front ++ (new ++ back) := by
  have htake : new.take ((front ++ (old ++ back)).length - i) = new :=
    List.take_of_length_le (by simp only [List.length_append]; omega)
  rw [write, htake, List.take_left' hi, ← List.append_assoc front old back,
    List.drop_left' (by rw [List.length_append, hi, hlen])]

end RanetLite.Buffer
