import Mathlib.Data.List.GetD
import RanetLite.Lib.BitPrefix

/-!
# Words as big-endian bytes

`toBytes` writes a word most significant byte first and `ofBytes` reads one back. Both are described bit by bit, counted from
the most significant bit, so that a prefix of a word's bits is a prefix of its bytes.
-/

namespace RanetLite.Bytes

open BitPrefix

variable {w : Nat} {i n : Nat} {bs : List UInt8}

/-- The `i`-th byte of a word, from the most significant one. -/
def byteAt (x : BitVec w) (i : Nat) : UInt8 := ⟨x.extractLsb' (w - 8 * (i + 1)) 8⟩

/-- The bytes of a word, most significant first. -/
def toBytes (x : BitVec w) : List UInt8 := (List.range (w / 8)).map (byteAt x)

/-- A word with one more byte at its end. -/
def push (acc : BitVec w) (b : UInt8) : BitVec w := acc <<< 8 ||| b.toBitVec.setWidth w

/-- The word a list of bytes spells, most significant first. -/
def ofBytes (w : Nat) (bs : List UInt8) : BitVec w := bs.foldl push 0

/-- The word in the bytes from an offset on. -/
def wordAt (w : Nat) (bs : List UInt8) (i : Nat) : BitVec w := ofBytes w ((bs.drop i).take (w / 8))

/-- `clearPrefixTail`: the bits of the byte a length ends in, past that length, cleared. -/
def clearTail (bs : List UInt8) (n : Nat) : List UInt8 :=
  if n % 8 = 0 then bs else bs.modify (n / 8) (fun b => b &&& (0xff : UInt8) <<< UInt8.ofNat (8 - n % 8))

@[simp] theorem length_toBytes (x : BitVec w) : (toBytes x).length = w / 8 := by simp [toBytes]

theorem getMsbD_byteAt (x : BitVec w) {j : Nat} (hi : 8 * (i + 1) ≤ w) (hj : j < 8) :
    (byteAt x i).toBitVec.getMsbD j = x.getMsbD (8 * i + j) := by
  simp only [byteAt, BitVec.getMsbD_eq_getLsbD, BitVec.getLsbD_extractLsb']
  have e : w - 8 * (i + 1) + (8 - 1 - j) = w - 1 - (8 * i + j) := by omega
  simp [hj, e, show 8 - 1 - j < 8 by omega, show 8 * i + j < w by omega]

theorem getD_toBytes (x : BitVec w) (hi : i < w / 8) : (toBytes x).getD i 0 = byteAt x i := by
  simp [toBytes, hi]

/-- The fold behind `ofBytes`, bit by bit from the least significant one. -/
theorem getLsbD_foldl (bs : List UInt8) (acc : BitVec w) {k : Nat} (hk : k < w) :
    (bs.foldl push acc).getLsbD k =
      if k < 8 * bs.length then (bs.getD (bs.length - 1 - k / 8) 0).toBitVec.getLsbD (k % 8)
      else acc.getLsbD (k - 8 * bs.length) := by
  induction bs generalizing acc with
  | nil => simp
  | cons b rest ih =>
    rw [List.foldl_cons, ih]
    by_cases h : k < 8 * rest.length
    · have e : (b :: rest).length - 1 - k / 8 = (rest.length - 1 - k / 8) + 1 := by
        rw [List.length_cons]
        omega
      rw [if_pos h, if_pos (by rw [List.length_cons]; omega), e, List.getD_cons_succ]
    · rw [if_neg h, push, BitVec.getLsbD_or, BitVec.getLsbD_shiftLeft, BitVec.getLsbD_setWidth, List.length_cons]
      have hlt : k - 8 * rest.length < w := by omega
      by_cases h8 : k - 8 * rest.length < 8
      · have e : rest.length + 1 - 1 - k / 8 = 0 := by omega
        have e' : k - 8 * rest.length = k % 8 := by omega
        rw [if_pos (by omega), e, List.getD_cons_zero, e']
        simp [show k % 8 < 8 by omega, show k % 8 < w by omega]
      · rw [if_neg (by omega), BitVec.getLsbD_of_ge _ _ (by omega : 8 ≤ k - 8 * rest.length)]
        simp [hlt, h8, show k - 8 * rest.length - 8 = k - 8 * (rest.length + 1) by omega]

/-- Bit `i` of a word is in byte `i / 8`. -/
theorem getMsbD_ofBytes (hw : w = 8 * bs.length) (hi : i < w) :
    (ofBytes w bs).getMsbD i = (bs.getD (i / 8) 0).toBitVec.getMsbD (i % 8) := by
  rw [BitVec.getMsbD_eq_getLsbD, ofBytes, getLsbD_foldl _ _ (by omega), if_pos (by omega), BitVec.getMsbD_eq_getLsbD]
  have e1 : bs.length - 1 - (w - 1 - i) / 8 = i / 8 := by omega
  have e2 : (w - 1 - i) % 8 = 8 - 1 - i % 8 := by omega
  rw [e1, e2]
  simp [hi, show i % 8 < 8 by omega]

/-- Two byte strings of one length that agree bit by bit are equal. -/
theorem eq_of_getMsbD {cs : List UInt8} (hl : bs.length = cs.length)
    (h : ∀ i, i < bs.length → ∀ j, j < 8 → (bs.getD i 0).toBitVec.getMsbD j = (cs.getD i 0).toBitVec.getMsbD j) : bs = cs := by
  refine List.ext_getElem hl fun i hi hi' => ?_
  have hb := BitVec.eq_of_getMsbD_eq (h i hi)
  rw [List.getD_eq_getElem _ _ hi, List.getD_eq_getElem _ _ hi'] at hb
  exact UInt8.eq_of_toBitVec_eq hb

/-- Reading back a written word. -/
theorem ofBytes_toBytes (x : BitVec w) (hw : w % 8 = 0) : ofBytes w (toBytes x) = x := by
  apply BitVec.eq_of_getMsbD_eq
  intro i hi
  have hlen : w = 8 * (toBytes x).length := by
    rw [length_toBytes]
    omega
  rw [getMsbD_ofBytes hlen hi, getD_toBytes x (by omega), getMsbD_byteAt x (by omega) (by omega),
    show 8 * (i / 8) + i % 8 = i by omega]

/-- A word written behind some bytes is read back at their length. -/
theorem wordAt_append (x : BitVec w) (hw : w % 8 = 0) {front : List UInt8} (hi : front.length = i) (rest : List UInt8) :
    wordAt w (front ++ (toBytes x ++ rest)) i = x := by
  rw [wordAt, List.drop_left' hi, List.take_left' (length_toBytes x), ofBytes_toBytes x hw]

/-- Writing back a read word. -/
theorem toBytes_ofBytes (hw : w = 8 * bs.length) : toBytes (ofBytes w bs) = bs := by
  refine eq_of_getMsbD (by rw [length_toBytes]; omega) fun i hi j hj => ?_
  rw [length_toBytes] at hi
  rw [getD_toBytes _ hi, getMsbD_byteAt _ (by omega) hj, getMsbD_ofBytes hw (by omega)]
  rw [show (8 * i + j) / 8 = i by omega, show (8 * i + j) % 8 = j by omega]

/-- Writing back a word read within the bytes. -/
theorem toBytes_wordAt (hw : w % 8 = 0) (hi : i + w / 8 ≤ bs.length) : toBytes (wordAt w bs i) = (bs.drop i).take (w / 8) := by
  apply toBytes_ofBytes
  rw [List.length_take, List.length_drop]
  omega

@[simp] theorem length_clearTail (bs : List UInt8) (n : Nat) : (clearTail bs n).length = bs.length := by
  unfold clearTail
  split <;> simp

/-- Clearing past a length reads only the bytes that length covers. -/
theorem clearTail_append (hn : n ≤ 8 * bs.length) (cs : List UInt8) : clearTail (bs ++ cs) n = clearTail bs n ++ cs := by
  unfold clearTail
  split
  · rfl
  · next hr =>
    obtain ⟨b, rest, hdrop⟩ := List.exists_cons_of_ne_nil (show bs.drop (n / 8) ≠ [] by
      rw [Ne, List.drop_eq_nil_iff]
      omega)
    rw [List.modify_eq_take_drop, List.modify_eq_take_drop, List.take_append_of_le_length (by omega),
      List.drop_append_of_le_length (by omega), hdrop, List.append_assoc]
    rfl

@[simp] theorem clearTail_clearTail (bs : List UInt8) (n : Nat) : clearTail (clearTail bs n) n = clearTail bs n := by
  unfold clearTail
  split
  · rfl
  · rw [List.modify_modify_eq]
    congr 1
    funext b
    rw [Function.comp_apply, UInt8.and_assoc, UInt8.and_self]

/-- The mask of a partial byte keeps its first bits. -/
theorem getMsbD_mask (b : UInt8) {r j : Nat} (hr : r ≤ 8) (hj : j < 8) :
    (b &&& (0xff : UInt8) <<< UInt8.ofNat (8 - r)).toBitVec.getMsbD j =
      (if r = 0 then b.toBitVec.getMsbD j else decide (j < r) && b.toBitVec.getMsbD j) := by
  have key : ∀ r < 9, ∀ j < 8, ((0xff : UInt8) <<< UInt8.ofNat (8 - r)).toBitVec.getMsbD j = (r = 0 || decide (j < r)) := by
    decide
  rw [UInt8.toBitVec_and, BitVec.getMsbD_and, key r (by omega) j hj]
  by_cases h : r = 0
  · simp [h]
  · simp [h, Bool.and_comm]

/-- A word whose bits past the first `n` are zero has zero bytes past the byte that `n` ends in. -/
theorem toBytes_eq_take_append {x : BitVec w} (hw : w % 8 = 0) (hn : n ≤ w) (hx : keepHigh x n = x) :
    toBytes x = (toBytes x).take ((n + 7) / 8) ++ List.replicate (w / 8 - (n + 7) / 8) 0 := by
  have hzero : ∀ i, n ≤ i → x.getMsbD i = false := by
    intro i hi
    rw [← hx, getMsbD_keepHigh x hn]
    simp [Nat.not_lt.mpr hi]
  refine eq_of_getMsbD (by simp; omega) fun i hi j hj => ?_
  rw [length_toBytes] at hi
  by_cases h : i < (n + 7) / 8
  · rw [List.getD_append _ _ _ _ (by simp; omega), List.getD_eq_getElem?_getD, List.getD_eq_getElem?_getD,
      List.getElem?_take_of_lt h]
  · rw [List.getD_append_right _ _ _ _ (by simp; omega), getD_toBytes x hi, getMsbD_byteAt x (by omega) hj,
      hzero _ (by omega), List.getD_eq_getElem?_getD, List.getElem?_replicate]
    split <;> simp

/-- The bytes of a word up to the one that `n` ends in carry its first `n` bits. -/
theorem agree_ofBytes_take (x : BitVec w) (hw : w % 8 = 0) (hn : n ≤ w) :
    Agree n (ofBytes w ((toBytes x).take ((n + 7) / 8) ++ List.replicate (w / 8 - (n + 7) / 8) 0)) x := by
  intro i hi
  rw [getMsbD_ofBytes (by simp; omega) (by omega), List.getD_append _ _ _ _ (by simp; omega),
    List.getD_eq_getElem?_getD, List.getElem?_take_of_lt (by omega), ← List.getD_eq_getElem?_getD,
    getD_toBytes x (by omega), getMsbD_byteAt x (by omega) (by omega), show 8 * (i / 8) + i % 8 = i by omega]

/-- Clearing the tail of such a word changes nothing. -/
theorem clearTail_toBytes {x : BitVec w} (hw : w % 8 = 0) (hn : n ≤ w) (hx : keepHigh x n = x) :
    clearTail (toBytes x) n = toBytes x := by
  unfold clearTail
  split
  · rfl
  · next hr =>
    refine eq_of_getMsbD (by simp) fun i hi j hj => ?_
    rw [List.length_modify, length_toBytes] at hi
    have hget : (toBytes x)[i]? = some (byteAt x i) := by simp [toBytes, hi]
    rw [List.getD_eq_getElem?_getD, List.getElem?_modify, getD_toBytes x hi, hget]
    by_cases hb : n / 8 = i
    · simp only [hb, if_true, Option.map_eq_map, Option.map_some, Option.getD_some]
      rw [getMsbD_mask _ (by omega) hj, if_neg hr, getMsbD_byteAt x (by omega) hj]
      by_cases hlt : j < n % 8
      · simp [hlt]
      · have hz : x.getMsbD (8 * i + j) = false := by
          rw [← hx, getMsbD_keepHigh x hn]
          simp; omega
        simp [hz]
    · simp [hb]

end RanetLite.Bytes
