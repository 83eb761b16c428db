import RanetLite.Lib.Bytes

/-!
# Attributes

Values with a kind and a length in front of them, padded to four bytes, in the byte order of the machine. Whatever follows, an attribute
is read back as it was written.
-/

namespace RanetLite

open Bytes

/-- The byte order of a machine. -/
inductive Endian where
  | little
  | big
deriving DecidableEq, Repr

namespace Endian

variable {w : Nat}

/-- A word in the order of the machine. -/
def put (e : Endian) (x : BitVec w) : List UInt8 :=
  match e with
  | little => (toBytes x).reverse
  | big => toBytes x

/-- The word some bytes spell in the order of the machine. -/
def get (e : Endian) (w : Nat) (bs : List UInt8) : BitVec w :=
  match e with
  | little => ofBytes w bs.reverse
  | big => ofBytes w bs

@[simp] theorem length_put (e : Endian) (x : BitVec w) : (e.put x).length = w / 8 := by cases e <;> simp [put]

theorem get_put (e : Endian) (x : BitVec w) (hw : w % 8 = 0) : e.get w (e.put x) = x := by
  cases e
  · rw [get, put, List.reverse_reverse, ofBytes_toBytes x hw]
  · exact ofBytes_toBytes x hw

end Endian

namespace Attributes

/-- A length padded to four bytes. -/
def align (n : Nat) : Nat := (n + 3) / 4 * 4

/-- One attribute: its length, its kind and its value, padded. -/
def put (e : Endian) (kind : UInt16) (value : List UInt8) : List UInt8 :=
  e.put (UInt16.ofNat (4 + value.length)).toBitVec ++ e.put kind.toBitVec ++ value ++
    List.replicate (align (4 + value.length) - (4 + value.length)) 0

/-- Attributes one after the other. -/
def putAll (e : Endian) (attrs : List (UInt16 × List UInt8)) : List UInt8 := attrs.flatMap fun a => put e a.1 a.2

/-- The attributes of a buffer. One that is malformed ends them. -/
def split (e : Endian) (buf : List UInt8) : List (UInt16 × List UInt8) :=
  if buf.length < 4 then []
  else
    let length := (e.get 16 (buf.take 2)).toNat
    let kind := UInt16.ofBitVec (e.get 16 ((buf.drop 2).take 2))
    if _ : length < 4 ∨ buf.length < length then []
    else (kind, (buf.take length).drop 4) :: if buf.length ≤ align length then [] else split e (buf.drop (align length))
termination_by buf.length
decreasing_by
  rw [List.length_drop, align]
  omega

theorem split_nil (e : Endian) : split e [] = [] := by
  rw [split]
  rfl

theorem length_put (e : Endian) (kind : UInt16) (value : List UInt8) : (put e kind value).length = align (4 + value.length) := by
  simp only [put, List.length_append, Endian.length_put, List.length_replicate, align]
  omega

theorem split_put (e : Endian) (kind : UInt16) {value : List UInt8} (h : 4 + value.length < 65536) (rest : List UInt8) :
    split e (put e kind value ++ rest) = (kind, value) :: split e rest := by
  have hlen := length_put e kind value
  have halign : 4 + value.length ≤ align (4 + value.length) := by
    rw [align]
    omega
  have htwo : ∀ x : BitVec 16, (e.put x).length = 2 := fun x => e.length_put x
  have hlength : (e.get 16 ((put e kind value ++ rest).take 2)).toNat = 4 + value.length := by
    rw [put, List.append_assoc, List.append_assoc, List.append_assoc, List.take_left' (htwo _), Endian.get_put e _ rfl]
    simp only [UInt16.toNat_toBitVec, UInt16.toNat_ofNat']
    omega
  have hkind : UInt16.ofBitVec (e.get 16 (((put e kind value ++ rest).drop 2).take 2)) = kind := by
    rw [put, List.append_assoc, List.append_assoc, List.append_assoc, List.drop_left' (htwo _),
      List.take_left' (htwo _), Endian.get_put e _ rfl]
  have hvalue : ((put e kind value ++ rest).take (4 + value.length)).drop 4 = value := by
    rw [put, List.append_assoc, List.append_assoc, ← List.append_assoc _ value, List.take_left' (by simp; omega),
      List.drop_left' (by simp)]
  rw [split, if_neg (by rw [List.length_append]; omega)]
  dsimp only
  rw [hlength, hkind, hvalue, dif_neg (by rw [List.length_append]; omega), List.length_append, hlen]
  congr 1
  split_ifs with hlast
  · rw [List.length_eq_zero_iff.mp (by omega : rest.length = 0), split_nil]
  · rw [List.drop_left' hlen]

/-- What was written is read back. -/
theorem split_putAll (e : Endian) {attrs : List (UInt16 × List UInt8)} (h : ∀ a ∈ attrs, 4 + a.2.length < 65536) :
    split e (putAll e attrs) = attrs := by
  induction attrs with
  | nil => exact split_nil e
  | cons a rest ih =>
    rw [putAll, List.flatMap_cons, split_put e a.1 (h a List.mem_cons_self), ← putAll,
      ih fun b hb => h b (List.mem_cons_of_mem _ hb)]

end Attributes
end RanetLite
