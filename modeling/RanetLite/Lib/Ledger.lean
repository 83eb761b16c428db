import Mathlib.Data.List.AList

/-!
# Ledgers: counters that count the entries of a table

A table is a finite map whose entries each carry a label, and a ledger beside it keeps a counter for each label. The ledger is exact when
each counter is the number of entries with its label, and a label without entries has no counter. An entry added is charged to its
label, an entry removed is given back, and an entry whose label changes is given back and charged again.
-/

namespace RanetLite

variable {K V L : Type} [DecidableEq L]

/-- The number of entries of a table with a label. -/
def tally (label : K → V → L) (m : AList fun _ : K => V) (l : L) : Nat := m.entries.countP fun e => label e.1 e.2 = l

/-- The counter of each label is the number of entries that have it, and a label of no entry has none. -/
def Ledger (label : K → V → L) (m : AList fun _ : K => V) (c : AList fun _ : L => Nat) : Prop :=
  ∀ l, c.lookup l = if tally label m l = 0 then none else some (tally label m l)

namespace Ledger

variable {label : K → V → L} {m : AList fun _ : K => V} {c : AList fun _ : L => Nat} {k : K} {v v' : V} {l : L}
  {m' : AList fun _ : K => V}

/-- One more under a label. -/
def charge (c : AList fun _ : L => Nat) (l : L) : AList fun _ : L => Nat := c.insert l ((c.lookup l).getD 0 + 1)

/-- One less under a label, which is dropped with its last. -/
def release (c : AList fun _ : L => Nat) (l : L) : AList fun _ : L => Nat :=
  if (c.lookup l).getD 0 ≤ 1 then c.erase l else c.insert l ((c.lookup l).getD 0 - 1)

theorem tally_perm (h : m'.entries.Perm m.entries) : tally label m' l = tally label m l := h.countP_eq _

theorem counter_eq (h : Ledger label m c) (l : L) : (c.lookup l).getD 0 = tally label m l := by
  rw [h l]
  split_ifs with hzero
  · exact hzero.symm
  · rfl

theorem empty (label : K → V → L) : Ledger label ∅ ∅ := fun _ => rfl

theorem perm (h : Ledger label m c) (hperm : m'.entries.Perm m.entries) : Ledger label m' c := by
  intro l
  rw [tally_perm hperm]
  exact h l

/-- A counter charged, when one entry more has its label. -/
theorem charged (h : Ledger label m c) (htally : ∀ x, tally label m' x = tally label m x + if l = x then 1 else 0) :
    Ledger label m' (charge c l) := by
  intro x
  unfold charge
  rw [htally x, h.counter_eq]
  by_cases hx : l = x
  · subst hx
    rw [AList.lookup_insert, if_pos rfl, if_neg (by omega)]
  · rw [AList.lookup_insert_ne (Ne.symm hx), if_neg hx, Nat.add_zero]
    exact h x

/-- A counter given back, when one entry less has its label. -/
theorem released (h : Ledger label m c) (htally : ∀ x, tally label m' x + (if l = x then 1 else 0) = tally label m x) :
    Ledger label m' (release c l) := by
  intro x
  unfold release
  rw [h.counter_eq]
  by_cases hx : l = x
  · subst hx
    have hone := htally l
    rw [if_pos rfl] at hone
    split_ifs with hlast hzero hzero
    · exact AList.lookup_erase _ _
    · omega
    · omega
    · rw [AList.lookup_insert, ← hone, Nat.add_sub_cancel]
  · have hsame := htally x
    rw [if_neg hx, Nat.add_zero] at hsame
    rw [hsame]
    split_ifs with hlast hzero hzero
    · rw [AList.lookup_erase_ne (Ne.symm hx), h x, if_pos hzero]
    · rw [AList.lookup_erase_ne (Ne.symm hx), h x, if_neg hzero]
    · rw [AList.lookup_insert_ne (Ne.symm hx), h x, if_pos hzero]
    · rw [AList.lookup_insert_ne (Ne.symm hx), h x, if_neg hzero]

variable [DecidableEq K]

/-- The entries of a table are those left when one is removed, and that one. -/
theorem entries_perm_of_lookup (h : m.lookup k = some v) : m.entries.Perm (⟨k, v⟩ :: (m.erase k).entries) := by
  have hmem : k ∈ m.entries.keys := AList.lookup_isSome.1 (by rw [h]; rfl)
  obtain ⟨v1, l1, l2, -, hsplit, herase⟩ := List.exists_of_kerase hmem
  obtain rfl : v1 = v := by
    have hlookup : m.lookup k = some v1 := AList.mem_lookup_iff.2 (by rw [hsplit]; simp)
    exact Option.some.inj (hlookup.symm.trans h)
  rw [show (m.erase k).entries = m.entries.kerase k from rfl, herase, hsplit]
  exact List.perm_middle

theorem entries_insert (m : AList fun _ : K => V) (k : K) (v : V) : (m.insert k v).entries = ⟨k, v⟩ :: (m.erase k).entries := rfl

theorem entries_erase_of_none (h : m.lookup k = none) : (m.erase k).entries = m.entries :=
  List.kerase_of_notMem_keys (AList.lookup_eq_none.1 h)

/-- An entry removed leaves its label one entry less. -/
theorem tally_erase (label : K → V → L) (h : m.lookup k = some v) (l : L) :
    tally label (m.erase k) l + (if label k v = l then 1 else 0) = tally label m l := by
  unfold tally
  rw [(entries_perm_of_lookup h).countP_eq, List.countP_cons]
  simp only [decide_eq_true_eq]

/-- A new entry counts under its label. -/
theorem tally_insert (label : K → V → L) (h : m.lookup k = none) (v : V) (l : L) :
    tally label (m.insert k v) l = tally label m l + if label k v = l then 1 else 0 := by
  unfold tally
  rw [entries_insert, List.countP_cons, entries_erase_of_none h]
  simp only [decide_eq_true_eq]

/-- An entry written over counts under its new label instead of its old one. -/
theorem tally_replace (label : K → V → L) (h : m.lookup k = some v) (v' : V) (l : L) :
    tally label (m.insert k v') l + (if label k v = l then 1 else 0) = tally label m l + if label k v' = l then 1 else 0 := by
  have herase := tally_erase label h l
  have hinsert : tally label (m.insert k v') l = tally label (m.erase k) l + if label k v' = l then 1 else 0 := by
    unfold tally
    rw [entries_insert, List.countP_cons]
    simp only [decide_eq_true_eq]
  omega

theorem length_insert (h : m.lookup k = none) (v : V) : (m.insert k v).keys.length = m.keys.length + 1 := by
  rw [AList.keys_insert, List.length_cons, List.erase_of_not_mem (AList.lookup_eq_none.1 h)]

theorem length_replace (h : m.lookup k = some v) (v' : V) : (m.insert k v').keys.length = m.keys.length := by
  have hmem : k ∈ m.keys := AList.lookup_isSome.1 (by rw [h]; rfl)
  rw [AList.keys_insert, List.length_cons, List.length_erase_of_mem hmem]
  have := List.length_pos_of_mem hmem
  omega

theorem length_erase_le (m : AList fun _ : K => V) (k : K) : (m.erase k).keys.length ≤ m.keys.length := by
  rw [AList.keys_erase]
  exact List.length_erase_le

/-- A new entry is charged to its label. -/
theorem add (h : Ledger label m c) (hnew : m.lookup k = none) (v : V) : Ledger label (m.insert k v) (charge c (label k v)) :=
  h.charged fun l => tally_insert label hnew v l

/-- An entry removed is given back. -/
theorem remove (h : Ledger label m c) (hold : m.lookup k = some v) : Ledger label (m.erase k) (release c (label k v)) :=
  h.released fun l => tally_erase label hold l

/-- An entry written over under the same label. -/
theorem keep (h : Ledger label m c) (hold : m.lookup k = some v) (hlabel : label k v' = label k v) : Ledger label (m.insert k v') c := by
  intro l
  have htally := tally_replace label hold v' l
  rw [hlabel] at htally
  rw [Nat.add_right_cancel htally]
  exact h l

/-- An entry written over is given back under its old label and charged to its new one. -/
theorem move (h : Ledger label m c) (hold : m.lookup k = some v) (v' : V) :
    Ledger label (m.insert k v') (charge (release c (label k v)) (label k v')) := by
  refine (h.remove hold).charged fun x => ?_
  have herase := tally_erase label hold x
  have hreplace := tally_replace label hold v' x
  omega

end Ledger
end RanetLite
