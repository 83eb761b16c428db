import RanetLite.Lib.Buffer

/-!
# Slices that are checked

Reading and writing slices as a language with bounds checks does: an index or a bound that is out of range stops the program, which is
`none` here. Within its bounds each operation is the plain one on lists.
-/

namespace RanetLite.Checked

open Buffer

variable {α : Type}

/-- `bs[i]`. -/
def index (bs : List α) (i : Nat) : Option α := bs[i]?

/-- `bs[i:]`. -/
def sliceFrom (bs : List α) (i : Nat) : Option (List α) := if i ≤ bs.length then some (bs.drop i) else none

/-- `bs[:j]`. -/
def sliceTo (bs : List α) (j : Nat) : Option (List α) := if j ≤ bs.length then some (bs.take j) else none

/-- `bs[i:j]`. -/
def slice (bs : List α) (i j : Nat) : Option (List α) := if i ≤ j ∧ j ≤ bs.length then some (read bs i (j - i)) else none

/-- `bs[i] = x`. -/
def store (bs : List α) (i : Nat) (x : α) : Option (List α) := if i < bs.length then some (bs.set i x) else none

/-- Some values stored from an index on, all of which must be there. -/
def put (bs : List α) (i : Nat) (new : List α) : Option (List α) :=
  if i + new.length ≤ bs.length then some (write bs i new) else none

/-- `copy(bs[i:], new)`, which stops at the end of the slice. -/
def copyFrom (bs : List α) (i : Nat) (new : List α) : Option (List α) := if i ≤ bs.length then some (write bs i new) else none

variable {bs new : List α} {i j : Nat}

theorem index_of_lt (h : i < bs.length) (x : α) : index bs i = some (bs.getD i x) := by
  rw [index, List.getD_eq_getElem?_getD, List.getElem?_eq_getElem h, Option.getD_some]

theorem sliceFrom_of_le (h : i ≤ bs.length) : sliceFrom bs i = some (bs.drop i) := if_pos h

theorem sliceTo_of_le (h : j ≤ bs.length) : sliceTo bs j = some (bs.take j) := if_pos h

theorem slice_of_le (hi : i ≤ j) (hj : j ≤ bs.length) : slice bs i j = some (read bs i (j - i)) := if_pos ⟨hi, hj⟩

theorem store_of_lt (h : i < bs.length) (x : α) : store bs i x = some (bs.set i x) := if_pos h

theorem put_of_le (h : i + new.length ≤ bs.length) : put bs i new = some (write bs i new) := if_pos h

theorem copyFrom_of_le (h : i ≤ bs.length) : copyFrom bs i new = some (write bs i new) := if_pos h

/-- The program goes on from a step that does not stop. -/
theorem bind_of_eq {β : Type} {o : Option α} {x : α} {f : α → Option β} (h : o = some x) : (o >>= f) = f x := by
  rw [h]
  rfl

/-- A branch that returns, and the rest of the program where it is not taken. -/
theorem ite_of_not {c : Prop} [Decidable c] {x y : α} {f : Option α} (h : ¬c → f = some y) :
    (if c then some x else f) = some (if c then x else y) := by
  split_ifs with hc
  · rfl
  · exact h hc

/-- A step that cannot stop, for every element of a list. -/
theorem mapM_eq_some {β : Type} {f : α → Option β} {g : α → β} {xs : List α} (h : ∀ x ∈ xs, f x = some (g x)) :
    xs.mapM f = some (xs.map g) := by
  induction xs with
  | nil => rfl
  | cons x rest ih =>
    obtain ⟨hx, hrest⟩ := List.forall_mem_cons.mp h
    rw [List.mapM_cons, hx, ih hrest]
    rfl

end RanetLite.Checked
