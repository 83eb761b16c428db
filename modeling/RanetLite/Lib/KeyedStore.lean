import Mathlib.Data.List.Nodup

/-!
# Stores with an exclusive key

Entries of which no two have the same key. One is put in only where its key is free, and entries are taken out by what they are.
-/

namespace RanetLite

/-- Entries with different keys, in the order they were put in. -/
structure KeyedStore {E K : Type} (key : E → K) where
  entries : List E
  exclusive : (entries.map key).Nodup

namespace KeyedStore

variable {E K R : Type} {key : E → K} {s : KeyedStore key} {e : E}

/-- The key of some entry. -/
def Holds (s : KeyedStore key) (k : K) : Prop := k ∈ s.entries.map key

theorem holds_iff {k : K} : s.Holds k ↔ ∃ e ∈ s.entries, key e = k := List.mem_map

/-- The store without the entries that are named. -/
def remove (s : KeyedStore key) (named : E → Bool) : KeyedStore key :=
  ⟨s.entries.filter fun e => !named e, s.exclusive.sublist (List.filter_sublist.map key)⟩

variable [DecidableEq K]

instance (s : KeyedStore key) (k : K) : Decidable (s.Holds k) := inferInstanceAs (Decidable (k ∈ s.entries.map key))

/-- The store with an entry more, if its key is free. -/
def insert (s : KeyedStore key) (e : E) : KeyedStore key :=
  if h : s.Holds (key e) then s
  else ⟨s.entries ++ [e], by
    rw [List.map_append, List.map_singleton]
    exact s.exclusive.append (List.nodup_singleton _) fun k hk he => h (List.mem_singleton.mp he ▸ hk)⟩

theorem insert_of_holds (h : s.Holds (key e)) : s.insert e = s := dif_pos h

theorem entries_insert (h : ¬ s.Holds (key e)) : (s.insert e).entries = s.entries ++ [e] := by
  rw [insert, dif_neg h]

end KeyedStore
end RanetLite
