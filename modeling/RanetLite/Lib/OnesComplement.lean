import Mathlib.Data.Nat.ModEq
import Mathlib.Algebra.BigOperators.Group.List.Basic
import RanetLite.Lib.Bytes

/-!
# One's-complement sums

Addition of words with the carry brought round to the low end, for words up to `m` (`2 ^ w - 1` for words of `w` bits). Zero and `m`
are the same value in it. A sum taken in a wider register, with its carries folded in at the end, is the same sum: both are the
representative of the plain sum modulo `m`, which is `m` and not zero whenever something was added.
-/

namespace RanetLite.OnesComplement

variable {m : Nat} {n : Nat}

/-- The representative of a number modulo `m`: `m` stands for its multiples, and only zero itself gives zero. -/
def norm (m n : Nat) : Nat := if n = 0 then 0 else (n - 1) % m + 1

/-- Addition with the end-around carry. -/
def add (m a b : Nat) : Nat := if a + b ≤ m then a + b else a + b - m

/-- The one's-complement sum of some words. -/
def sum (m : Nat) (words : List Nat) : Nat := words.foldl (add m) 0

/-- One round of folding: the part above the word is added to the word. -/
def carry (m n : Nat) : Nat := n % (m + 1) + n / (m + 1)

@[simp] theorem norm_zero : norm m 0 = 0 := rfl

theorem norm_modEq (n : Nat) : norm m n ≡ n [MOD m] := by
  unfold norm
  split
  · next h => rw [h]
  · next h =>
    have hmod : (n - 1) % m + 1 ≡ n - 1 + 1 [MOD m] := (Nat.mod_modEq (n - 1) m).add_right 1
    rwa [Nat.sub_add_cancel (Nat.pos_of_ne_zero h)] at hmod

theorem norm_le (hm : 0 < m) (n : Nat) : norm m n ≤ m := by
  unfold norm
  split
  · exact hm.le
  · exact Nat.mod_lt _ hm

theorem norm_eq_zero : norm m n = 0 ↔ n = 0 := by
  unfold norm
  split <;> simp_all

theorem norm_of_le (h : n ≤ m) : norm m n = n := by
  unfold norm
  split
  · next h0 => exact h0.symm
  · rw [Nat.mod_eq_of_lt (by omega)]
    omega

/-- Congruent numbers that are both zero or both not have one representative. -/
theorem norm_congr {a b : Nat} (hmod : a ≡ b [MOD m]) (hzero : a = 0 ↔ b = 0) : norm m a = norm m b := by
  unfold norm
  by_cases ha : a = 0
  · rw [if_pos ha, if_pos (hzero.1 ha)]
  · have hb : b ≠ 0 := fun hb => ha (hzero.2 hb)
    rw [if_neg ha, if_neg hb]
    have hpred : a - 1 ≡ b - 1 [MOD m] := by
      refine Nat.ModEq.add_right_cancel' 1 ?_
      rwa [Nat.sub_add_cancel (Nat.pos_of_ne_zero ha), Nat.sub_add_cancel (Nat.pos_of_ne_zero hb)]
    rw [hpred]

theorem norm_eq_top (hm : 0 < m) : norm m n = m ↔ n ≠ 0 ∧ m ∣ n := by
  constructor
  · intro h
    refine ⟨fun hn => ?_, ?_⟩
    · rw [hn, norm_zero] at h
      omega
    · have hmod := norm_modEq (m := m) n
      rw [h] at hmod
      exact (Nat.modEq_zero_iff_dvd).1 (hmod.symm.trans (by simp [Nat.ModEq]))
  · rintro ⟨hn, hdvd⟩
    have hcongr : norm m n = norm m m :=
      norm_congr (((Nat.modEq_zero_iff_dvd).2 hdvd).trans (by simp [Nat.ModEq])) ⟨fun h => absurd h hn, fun h => absurd h hm.ne'⟩
    rw [hcongr, norm_of_le (Nat.le_refl m)]

theorem add_eq_norm {a b : Nat} (ha : a ≤ m) (hb : b ≤ m) : add m a b = norm m (a + b) := by
  unfold add
  split
  · next h => exact (norm_of_le h).symm
  · next h =>
    have hcongr : norm m (a + b) = norm m (a + b - m) := by
      refine norm_congr ?_ (by omega)
      have hself : a + b - m + m ≡ a + b - m [MOD m] := by simp [Nat.ModEq]
      rwa [Nat.sub_add_cancel (by omega)] at hself
    rw [hcongr, norm_of_le (by omega)]

theorem norm_norm_add (a b : Nat) : norm m (norm m a + b) = norm m (a + b) := by
  refine norm_congr ((norm_modEq a).add_right b) ?_
  have := norm_eq_zero (m := m) (n := a)
  omega

/-- The sum of words is the representative of their plain sum. -/
theorem sum_eq_norm (hm : 0 < m) {words : List Nat} (hwords : ∀ w ∈ words, w ≤ m) : sum m words = norm m words.sum := by
  have hfrom : ∀ (ws : List Nat), (∀ w ∈ ws, w ≤ m) → ∀ acc, acc ≤ m → ws.foldl (add m) acc = norm m (acc + ws.sum) := by
    intro ws
    induction ws with
    | nil => intro _ acc hacc; exact (norm_of_le hacc).symm
    | cons w ws ih =>
      intro hws acc hacc
      have hw := hws w List.mem_cons_self
      rw [List.foldl_cons, add_eq_norm hacc hw,
        ih (fun w' hw' => hws w' (List.mem_cons_of_mem _ hw')) _ (norm_le hm _), norm_norm_add, List.sum_cons, Nat.add_assoc]
  rw [sum, hfrom words hwords 0 (Nat.zero_le _), Nat.zero_add]

/-- Folding a carry keeps the representative. -/
theorem norm_carry (n : Nat) : norm m (carry m n) = norm m n := by
  have hdiv := Nat.div_add_mod n (m + 1)
  refine norm_congr ?_ ?_
  · have hround : carry m n + m * (n / (m + 1)) = n := by
      unfold carry
      rw [Nat.add_mul, Nat.one_mul] at hdiv
      omega
    calc carry m n ≡ carry m n + m * (n / (m + 1)) [MOD m] := (Nat.ModEq.symm (by simp [Nat.ModEq]))
      _ = n := hround
  · constructor
    · intro h
      obtain ⟨hrem, hquot⟩ := Nat.add_eq_zero_iff.1 h
      rw [hrem, hquot] at hdiv
      simpa using hdiv.symm
    · rintro rfl
      simp [carry]

/-! ## Bytes as words -/

/-- The 16-bit words of some bytes, most significant byte first, an odd last byte padded with zeros. -/
def words : List UInt8 → List Nat
  | [] => []
  | [b] => [256 * b.toNat]
  | a :: b :: rest => (256 * a.toNat + b.toNat) :: words rest

theorem words_le {bytes : List UInt8} : ∀ w ∈ words bytes, w ≤ 65535 := by
  fun_induction words bytes with
  | case1 => simp
  | case2 b =>
    have hb : b.toNat < 256 := b.toNat_lt
    simp only [List.mem_singleton, forall_eq]
    omega
  | case3 a b rest ih =>
    have ha : a.toNat < 256 := a.toNat_lt
    have hb : b.toNat < 256 := b.toNat_lt
    intro w hw
    rcases List.mem_cons.1 hw with rfl | hw
    · omega
    · exact ih w hw

theorem sum_words_le (bytes : List UInt8) : (words bytes).sum ≤ 65535 * ((bytes.length + 1) / 2) := by
  fun_induction words bytes with
  | case1 => simp
  | case2 b =>
    have hb : b.toNat < 256 := b.toNat_lt
    simp only [List.sum_singleton, List.length_singleton]
    omega
  | case3 a b rest ih =>
    have ha : a.toNat < 256 := a.toNat_lt
    have hb : b.toNat < 256 := b.toNat_lt
    simp only [List.sum_cons, List.length_cons]
    omega

/-- Words do not straddle a boundary at an even offset. -/
theorem words_append {front : List UInt8} (heven : front.length % 2 = 0) (rest : List UInt8) :
    words (front ++ rest) = words front ++ words rest := by
  fun_induction words front with
  | case1 => rfl
  | case2 b => simp at heven
  | case3 a b front ih =>
    rw [List.cons_append, List.cons_append, words, ih (by simp only [List.length_cons] at heven; omega), List.cons_append]

theorem words_toBytes (x : BitVec 16) : words (Bytes.toBytes x) = [x.toNat] := by
  have hx : x.toNat < 2 ^ 16 := x.isLt
  have hbytes : Bytes.toBytes x = [Bytes.byteAt x 0, Bytes.byteAt x 1] := rfl
  have hhigh : (Bytes.byteAt x 0).toNat = x.toNat / 256 := by
    show (x.extractLsb' 8 8).toNat = _
    rw [BitVec.extractLsb'_toNat, Nat.shiftRight_eq_div_pow]
    omega
  have hlow : (Bytes.byteAt x 1).toNat = x.toNat % 256 := by
    show (x.extractLsb' 0 8).toNat = _
    rw [BitVec.extractLsb'_toNat]
    rfl
  rw [hbytes, words, words, hhigh, hlow]
  congr 1
  omega

/-! ## Sums in a wider register -/

/-- Bytes added in pairs to a sum in a register of 32 bits, an odd last one in the high half. -/
def addBytes (sum : UInt32) : List UInt8 → UInt32
  | [] => sum
  | [b] => sum + b.toUInt32 <<< 8
  | a :: b :: rest => addBytes (sum + (a.toUInt32 <<< 8 ||| b.toUInt32)) rest

/-- The loop that folds the carries of such a sum in. Two rounds bring any 32-bit sum into 16 bits. -/
def foldCarries : Nat → UInt32 → UInt32
  | 0, sum => sum
  | rounds + 1, sum => if sum >>> (16 : UInt32) = 0 then sum else foldCarries rounds ((sum &&& (0xffff : UInt32)) + (sum >>> (16 : UInt32)))

theorem toNat_pair (a b : UInt8) : (a.toUInt32 <<< 8 ||| b.toUInt32).toNat = 256 * a.toNat + b.toNat := by
  have ha : a.toNat < 256 := a.toNat_lt
  have hb : b.toNat < 2 ^ 8 := b.toNat_lt
  have hshift : (a.toUInt32 <<< 8).toNat = a.toNat <<< 8 := by
    simp only [UInt32.toNat_shiftLeft, UInt8.toNat_toUInt32]
    rw [show (8 : UInt32).toNat % 32 = 8 from rfl, Nat.shiftLeft_eq]
    exact Nat.mod_eq_of_lt (by omega)
  rw [UInt32.toNat_or, hshift, UInt8.toNat_toUInt32, ← Nat.shiftLeft_add_eq_or_of_lt hb, Nat.shiftLeft_eq]
  omega

theorem toNat_addBytes (sum : UInt32) (bytes : List UInt8) :
    (addBytes sum bytes).toNat = (sum.toNat + (words bytes).sum) % 2 ^ 32 := by
  fun_induction addBytes sum bytes with
  | case1 sum => simp [words, Nat.mod_eq_of_lt sum.toNat_lt]
  | case2 sum b =>
    have hb : b.toUInt32 <<< 8 = (b.toUInt32 <<< 8 ||| (0 : UInt8).toUInt32) := by simp
    rw [UInt32.toNat_add, hb, toNat_pair]
    simp [words]
  | case3 sum a b rest ih =>
    rw [ih, UInt32.toNat_add, toNat_pair, words, List.sum_cons, Nat.mod_add_mod, Nat.add_assoc]

theorem toNat_carry (sum : UInt32) : ((sum &&& (0xffff : UInt32)) + (sum >>> (16 : UInt32))).toNat = carry 65535 sum.toNat := by
  have hs : sum.toNat < 2 ^ 32 := sum.toNat_lt
  have hlow : (sum &&& (0xffff : UInt32)).toNat = sum.toNat % 65536 := by
    rw [UInt32.toNat_and]
    exact Nat.and_two_pow_sub_one_eq_mod _ 16
  have hhigh : (sum >>> (16 : UInt32)).toNat = sum.toNat / 65536 := by
    rw [UInt32.toNat_shiftRight, show (16 : UInt32).toNat % 32 = 16 from rfl, Nat.shiftRight_eq_div_pow]
  rw [UInt32.toNat_add, hlow, hhigh, carry]
  omega

theorem shiftRight_eq_zero_iff (sum : UInt32) : sum >>> (16 : UInt32) = 0 ↔ sum.toNat ≤ 65535 := by
  rw [← UInt32.toNat_inj, UInt32.toNat_shiftRight, show (16 : UInt32).toNat % 32 = 16 from rfl, Nat.shiftRight_eq_div_pow]
  simp only [UInt32.toNat_zero]
  omega

/-- Two rounds fold any 32-bit sum to its representative. -/
theorem toNat_foldCarries (sum : UInt32) : (foldCarries 2 sum).toNat = norm 65535 sum.toNat := by
  have hs : sum.toNat < 2 ^ 32 := sum.toNat_lt
  rw [foldCarries]
  by_cases h1 : sum >>> (16 : UInt32) = 0
  · rw [if_pos h1, norm_of_le ((shiftRight_eq_zero_iff sum).1 h1)]
  rw [if_neg h1, ← norm_carry, ← toNat_carry]
  have hround : ((sum &&& (0xffff : UInt32)) + (sum >>> (16 : UInt32))).toNat ≤ 131070 := by
    rw [toNat_carry, carry]
    omega
  generalize (sum &&& (0xffff : UInt32)) + (sum >>> (16 : UInt32)) = round at hround
  rw [foldCarries]
  by_cases h2 : round >>> (16 : UInt32) = 0
  · rw [if_pos h2, norm_of_le ((shiftRight_eq_zero_iff round).1 h2)]
  · have hlarge := mt (shiftRight_eq_zero_iff round).2 h2
    rw [if_neg h2, foldCarries, ← norm_carry, ← toNat_carry, norm_of_le]
    rw [toNat_carry, carry]
    omega

end RanetLite.OnesComplement
