import Mathlib.Data.Set.Insert

/-!
# Tables of owners

A table says which owner, if any, has a key. An owner claims a key that nobody else has and releases only what it has. What an owner
holds is a set of keys, and every operation says what it does to that set.
-/

namespace RanetLite

/-- Which owner has each key. -/
structure Owners (Key Owner : Type) where
  owner : Key → Option Owner := fun _ => none

namespace Owners

variable {Key Owner : Type} [DecidableEq Key] [DecidableEq Owner]

/-- The table with one entry changed. -/
def set (t : Owners Key Owner) (k : Key) (v : Option Owner) : Owners Key Owner := ⟨fun i => if i = k then v else t.owner i⟩

/-- The table with the key given to the owner, unless another one has it. -/
def claim (t : Owners Key Owner) (k : Key) (o : Owner) : Option (Owners Key Owner) :=
  if (t.owner k).any (· ≠ o) then none else some (t.set k (some o))

/-- The table without the key, if it is the owner's. -/
def release (t : Owners Key Owner) (k : Key) (o : Owner) : Owners Key Owner := if t.owner k = some o then t.set k none else t

/-- The table without everything the owner has. -/
def clear (t : Owners Key Owner) (o : Owner) : Owners Key Owner := ⟨fun k => if t.owner k = some o then none else t.owner k⟩

/-- The keys an owner has. -/
def held (t : Owners Key Owner) (o : Owner) : Set Key := {k | t.owner k = some o}

variable {t t' : Owners Key Owner} {k i : Key} {o o' : Owner}

omit [DecidableEq Key] [DecidableEq Owner] in
@[simp] theorem mem_held : k ∈ t.held o ↔ t.owner k = some o := Iff.rfl

omit [DecidableEq Owner] in
@[simp] theorem owner_set {v : Option Owner} : (t.set k v).owner i = if i = k then v else t.owner i := rfl

/-- A claim that succeeds found the key free or the owner's own. -/
theorem claim_cases (h : t.claim k o = some t') : (t.owner k = none ∨ t.owner k = some o) ∧ t' = t.set k (some o) := by
  rw [claim] at h
  split at h
  · cases h
  · next hany =>
    refine ⟨?_, (Option.some.inj h).symm⟩
    cases hk : t.owner k with
    | none => exact .inl rfl
    | some o' =>
      rw [hk] at hany
      exact .inr (by simpa using hany)

theorem held_claim (h : t.claim k o = some t') : t'.held o = insert k (t.held o) := by
  obtain ⟨-, rfl⟩ := claim_cases h
  ext i
  by_cases hi : i = k <;> simp [hi]

theorem held_claim_of_ne (h : t.claim k o = some t') (ho : o' ≠ o) : t'.held o' = t.held o' := by
  obtain ⟨hk, rfl⟩ := claim_cases h
  ext i
  by_cases hi : i = k
  · subst hi
    rcases hk with hk | hk <;> simp [hk, ho.symm]
  · simp [hi]

theorem held_release : (t.release k o).held o = t.held o \ {k} := by
  ext i
  rw [release]
  by_cases hk : t.owner k = some o
  · rw [if_pos hk]
    by_cases hi : i = k <;> simp [hi]
  · rw [if_neg hk]
    by_cases hi : i = k <;> simp [hi, hk]

theorem held_release_of_ne (ho : o' ≠ o) : (t.release k o).held o' = t.held o' := by
  ext i
  rw [release]
  by_cases hk : t.owner k = some o
  · rw [if_pos hk]
    by_cases hi : i = k
    · subst hi
      simp [hk, ho.symm]
    · simp [hi]
  · rw [if_neg hk]

/-- Giving back a key that was free restores the table. -/
theorem release_claim (h : t.claim k o = some t') (hk : k ∉ t.held o) : t'.release k o = t := by
  obtain ⟨hfree | hmine, rfl⟩ := claim_cases h
  · rw [release, if_pos (by simp)]
    have hsame : (fun i => if i = k then none else (t.set k (some o)).owner i) = t.owner := by
      funext i
      by_cases hi : i = k <;> simp [hi, hfree]
    exact congrArg Owners.mk hsame
  · exact absurd hmine hk

omit [DecidableEq Key] in
theorem held_clear_of_ne (ho : o' ≠ o) : (t.clear o).held o' = t.held o' := by
  ext i
  rw [mem_held, mem_held, clear]
  dsimp only
  split
  · next h => simp [h, ho.symm]
  · rfl

end Owners
end RanetLite
