import Mathlib.Data.Nat.Digits.Lemmas

/-!
# Numbers in as few octets as they need

`octets` writes a number most significant octet first with no leading zero, and `value` reads any octets back. The digits are
those of Mathlib in base 256, so each number has one spelling and its length is the number of digits. `bind_eq_ok_iff` takes a
fallible reader apart.
-/

namespace RanetLite.Octets

/-- The octets of a number, most significant first; zero has none. -/
def octets (n : Nat) : List UInt8 := ((Nat.digits 256 n).map UInt8.ofNat).reverse

/-- The number that octets spell, most significant first. -/
def value (bs : List UInt8) : Nat := Nat.ofDigits 256 (bs.map UInt8.toNat).reverse

theorem value_eq_foldl (bs : List UInt8) : value bs = bs.foldl (fun acc b => acc * 256 + b.toNat) 0 := by
  rw [value, Nat.ofDigits_eq_foldr, List.foldr_reverse, List.foldl_map]
  congr 1
  funext acc b
  rw [Nat.cast_id]
  omega

theorem octets_zero : octets 0 = [] := by simp [octets]

variable {n : Nat}

theorem octets_of_ne_zero (h : n ≠ 0) : octets n = octets (n / 256) ++ [UInt8.ofNat n] := by
  rw [octets, Nat.digits_def' (by decide) (Nat.pos_of_ne_zero h), List.map_cons, List.reverse_cons, octets]
  congr 2
  exact UInt8.toNat.inj (by simp)

theorem value_octets (n : Nat) : value (octets n) = n := by
  have hdigits : ((Nat.digits 256 n).map UInt8.ofNat).map UInt8.toNat = Nat.digits 256 n := by
    rw [List.map_map]
    refine (List.map_congr_left fun d hd => ?_).trans (List.map_id _)
    exact UInt8.toNat_ofNat_of_lt' (Nat.digits_lt_base (by decide) hd)
  rw [value, octets, List.map_reverse, List.reverse_reverse, hdigits, Nat.ofDigits_digits]

/-- Octets with no leading zero are the ones of their number. -/
theorem octets_value {bs : List UInt8} (h : bs.head? ≠ some 0) : octets (value bs) = bs := by
  have hdigits : Nat.digits 256 (value bs) = (bs.map UInt8.toNat).reverse := by
    refine Nat.digits_ofDigits 256 (by decide) _ (fun d hd => ?_) fun hne hzero => h ?_
    · obtain ⟨b, -, rfl⟩ := List.mem_map.1 (List.mem_reverse.1 hd)
      exact b.toNat_lt
    · cases bs with
      | nil => exact absurd rfl hne
      | cons b rest =>
        simp only [List.map_cons, List.reverse_cons, List.getLast_append_singleton] at hzero
        rw [List.head?_cons, UInt8.toNat.inj (hzero.trans UInt8.toNat_zero.symm)]
  rw [octets, hdigits, ← List.map_reverse, List.reverse_reverse, List.map_map]
  exact (List.map_congr_left fun b _ => UInt8.ofNat_toNat).trans (List.map_id bs)

theorem head?_octets (n : Nat) : (octets n).head? ≠ some 0 := by
  rcases eq_or_ne n 0 with rfl | hn
  · simp [octets_zero]
  · rw [octets, List.head?_reverse, List.getLast?_map, List.getLast?_eq_some_getLast (Nat.digits_ne_nil_iff_ne_zero.2 hn)]
    intro hzero
    have hlt := Nat.digits_lt_base (b := 256) (by decide) (List.getLast_mem (Nat.digits_ne_nil_iff_ne_zero.2 hn))
    refine Nat.getLast_digit_ne_zero 256 hn ?_
    rw [← UInt8.toNat_ofNat_of_lt' hlt, Option.some.inj hzero]
    rfl

theorem length_octets_le_iff {k : Nat} : (octets n).length ≤ k ↔ n < 256 ^ k := by
  rw [octets, List.length_reverse, List.length_map, Nat.digits_length_le_iff (by decide)]

theorem length_octets_mono {m : Nat} (h : n ≤ m) : (octets n).length ≤ (octets m).length :=
  length_octets_le_iff.2 (lt_of_le_of_lt h (length_octets_le_iff.1 le_rfl))

theorem bind_eq_ok_iff {ε α β : Type} {x : Except ε α} {f : α → Except ε β} {b : β} :
    (x >>= f) = .ok b ↔ ∃ a, x = .ok a ∧ f a = .ok b := by
  cases x with
  | error e =>
    constructor
    · intro h
      cases h
    · rintro ⟨a, h, -⟩
      cases h
  | ok a =>
    constructor
    · intro h
      exact ⟨a, rfl, h⟩
    · rintro ⟨a', h, hf⟩
      cases h
      exact hf

end RanetLite.Octets
