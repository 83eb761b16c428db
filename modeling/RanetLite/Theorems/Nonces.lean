import Mathlib.Data.List.Chain
import RanetLite.Esp.Outbound

/-!
# No nonce is used twice

Reservations are read off the counter alone: the one that finds `base` numbers asked for before it gets `base + 1` to `base + count`,
or nothing when that passes the limit (`Grants`). Every range in a worker's hands is one of those, and every packet sealed has a number
that its range has given out (`Uses`). The counter does not wrap while fewer than `2 ^ 64` numbers were asked for.
-/

namespace RanetLite.Esp

open Bytes Sending

/-- What a reservation gets when `base` numbers were asked for before it. -/
def granted (base : Nat) (count : Int64) : Except SealError (UInt64 × UInt64) :=
  if count ≤ 0 then .error .emptyRange
  else if base + count.toNatClampNeg ≤ sequenceLimit.toNat then
    .ok (UInt64.ofNat (base + 1), UInt64.ofNat (base + count.toNatClampNeg))
  else .error .exhausted

/-- A log whose reservations each got what the counter gave them. -/
def Grants : Nat → List Reservation → Prop
  | _, [] => True
  | base, (count, result) :: rest => result = granted base count ∧ Grants (base + count.toNatClampNeg) rest

/-- A lease on a range given out: the numbers below `next` are used, and there are numbers left for what it has to seal. -/
structure Holds (grant : UInt64 × UInt64) (lease : Lease) : Prop where
  stop : lease.range.stop = grant.2
  first : grant.1.toNat ≤ lease.range.next.toNat
  room : lease.range.next.toNat + lease.todo.length ≤ grant.2.toNat + 1

/-- A number used: one of a range given out, below the next number of its lease. -/
def Used (grants : List (UInt64 × UInt64)) (leases : List Lease) (number : Nat) : Prop :=
  ∃ (i : Nat) (grant : UInt64 × UInt64) (lease : Lease), grants[i]? = some grant ∧ leases[i]? = some lease ∧ grant.1.toNat ≤ number ∧ number < lease.range.next.toNat

/-- The invariant of an SA under calls: its log is what the counter gave, its leases are the ranges given out, and the packets
sealed have each a number of their own that is used. -/
structure Uses (s : Sending) (numbers : List UInt64) : Prop where
  counter : s.sa.seq.toNat = requested s.log
  grants : Grants 0 s.log
  leases : List.Forall₂ Holds (reserved s.log) s.leases
  sealed : List.Forall₂ (fun packet number => ∃ o inner nextHeader, packet = OutboundSA.appendSealed o inner nextHeader number)
    s.sealed numbers
  used : ∀ n ∈ numbers, Used (reserved s.log) s.leases n.toNat
  nodup : numbers.Nodup

namespace NonceAux

variable {count : Int64} {log : List Reservation} {todo : List Inner}

theorem count_pos (h : ¬count ≤ 0) : 0 < count.toNatClampNeg ∧ count.toUInt64.toNat = count.toNatClampNeg := by
  have hpos : 0 < count.toBitVec.toInt := by
    rw [Int64.le_iff_toInt_le] at h
    simpa using h
  have hnat : count.toUInt64.toNat = count.toBitVec.toNat := rfl
  have hclamp : count.toNatClampNeg = count.toBitVec.toInt.toNat := rfl
  have hcond := BitVec.toInt_eq_toNat_cond count.toBitVec
  have hlt := count.toBitVec.isLt
  rw [hnat, hclamp]
  split at hcond
  · rw [hcond]
    omega
  · omega

theorem count_neg (h : count ≤ 0) : count.toNatClampNeg = 0 := by
  have hneg : count.toBitVec.toInt ≤ 0 := by
    rw [Int64.le_iff_toInt_le] at h
    simpa using h
  exact Int.toNat_eq_zero.mpr hneg

/-- A call adds its count to the total. -/
theorem requested_append (log : List Reservation) (count : Int64) (result : Except SealError (UInt64 × UInt64)) :
    requested (log ++ [(count, result)]) = requested log + count.toNatClampNeg := by
  simp [requested]

/-- A reservation gets what the counter gives it, while the counter does not wrap. -/
theorem reserve_spec {o : OutboundSA} {count : Int64} (h : o.seq.toNat + count.toNatClampNeg < 2 ^ 64) :
    (o.reserveSequenceNumbers count).2 = granted o.seq.toNat count ∧
      (o.reserveSequenceNumbers count).1.seq.toNat = o.seq.toNat + count.toNatClampNeg := by
  unfold OutboundSA.reserveSequenceNumbers granted
  by_cases hc : count ≤ 0
  · rw [if_pos hc, if_pos hc, count_neg hc]
    exact ⟨rfl, rfl⟩
  obtain ⟨hpos, hcount⟩ := count_pos hc
  have hstop : (o.seq + count.toUInt64).toNat = o.seq.toNat + count.toNatClampNeg := by
    rw [UInt64.toNat_add, hcount, Nat.mod_eq_of_lt h]
  have hofNat : o.seq + count.toUInt64 = UInt64.ofNat (o.seq.toNat + count.toNatClampNeg) := by
    rw [← hstop, UInt64.ofNat_toNat]
  have hfirst : o.seq + count.toUInt64 - count.toUInt64 + 1 = UInt64.ofNat (o.seq.toNat + 1) := by
    rw [UInt64.add_sub_cancel]
    simp
  rw [if_neg hc, if_neg hc]
  dsimp only
  by_cases hlimit : sequenceLimit < o.seq + count.toUInt64
  · have hover : ¬o.seq.toNat + count.toNatClampNeg ≤ sequenceLimit.toNat := by
      rw [UInt64.lt_iff_toNat_lt, hstop] at hlimit
      omega
    rw [if_pos hlimit, if_neg hover]
    exact ⟨rfl, hstop⟩
  · have hunder : o.seq.toNat + count.toNatClampNeg ≤ sequenceLimit.toNat := by
      rw [UInt64.lt_iff_toNat_lt, hstop] at hlimit
      omega
    rw [if_neg hlimit, if_pos hunder, hfirst, ← hofNat]
    exact ⟨rfl, hstop⟩

/-- A log grows by the next grant. -/
theorem grants_append {result : Except SealError (UInt64 × UInt64)} :
    ∀ {base : Nat}, Grants base log → result = granted (base + requested log) count → Grants base (log ++ [(count, result)]) := by
  induction log with
  | nil => exact fun _ h => ⟨h, trivial⟩
  | cons entry rest ih =>
    rintro base ⟨hentry, hrest⟩ h
    refine ⟨hentry, ih hrest ?_⟩
    rw [h, requested, List.map_cons, List.sum_cons, Nat.add_assoc]
    rfl

/-- The range of a reservation that got one. -/
theorem granted_ok {base : Nat} {grant : UInt64 × UInt64} (h : granted base count = .ok grant) :
    grant.1.toNat = base + 1 ∧ grant.2.toNat = base + count.toNatClampNeg ∧ 0 < count.toNatClampNeg ∧
      grant.2.toNat ≤ sequenceLimit.toNat := by
  unfold granted at h
  split_ifs at h with hc hlimit
  obtain rfl := Except.ok.inj h
  have hpos := (count_pos hc).1
  have hsmall : sequenceLimit.toNat < 2 ^ 64 := sequenceLimit.toNat_lt
  have hfirst : (UInt64.ofNat (base + 1)).toNat = base + 1 := by
    rw [UInt64.toNat_ofNat_of_lt']
    exact Nat.lt_of_le_of_lt (by omega) hsmall
  have hstop : (UInt64.ofNat (base + count.toNatClampNeg)).toNat = base + count.toNatClampNeg := by
    rw [UInt64.toNat_ofNat_of_lt']
    exact Nat.lt_of_le_of_lt hlimit hsmall
  exact ⟨hfirst, hstop, hpos, by rw [hstop]; exact hlimit⟩

/-- The ranges given out from `base` on lie above it, one after another. -/
theorem reserved_spec : ∀ {base : Nat}, Grants base log →
    (∀ g ∈ reserved log, base < g.1.toNat ∧ g.1.toNat ≤ g.2.toNat ∧ g.2.toNat ≤ sequenceLimit.toNat) ∧
      (reserved log).Pairwise fun a b => a.2.toNat < b.1.toNat := by
  induction log with
  | nil => exact fun _ => ⟨by simp [reserved], by simp [reserved]⟩
  | cons entry rest ih =>
    obtain ⟨count, result⟩ := entry
    rintro base ⟨hentry, hrest⟩
    obtain ⟨hbounds, hpair⟩ := ih hrest
    cases hresult : result with
    | error e =>
      have hnone : reserved ((count, .error e) :: rest) = reserved rest := rfl
      rw [hnone]
      refine ⟨fun g hg => ?_, hpair⟩
      have := hbounds g hg
      omega
    | ok grant =>
      rw [hresult] at hentry
      obtain ⟨hfirst, hstop, hpos, hlimit⟩ := granted_ok hentry.symm
      have hcons : reserved ((count, .ok grant) :: rest) = grant :: reserved rest := rfl
      rw [hcons]
      refine ⟨List.forall_mem_cons.mpr ⟨by omega, fun g hg => ?_⟩, List.pairwise_cons.mpr ⟨fun g hg => ?_, hpair⟩⟩
      · have := hbounds g hg
        omega
      · have := hbounds g hg
        omega

/-- A reservation refused for exhaustion would have passed the limit. -/
theorem granted_exhausted {base : Nat} (h : granted base count = .error .exhausted) :
    sequenceLimit.toNat < base + count.toNatClampNeg := by
  unfold granted at h
  by_cases hc : count ≤ 0
  · rw [if_pos hc] at h
    exact absurd h (by simp)
  · rw [if_neg hc] at h
    by_contra hle
    rw [if_pos (by omega)] at h
    exact absurd h (by simp)

/-- Past the limit nothing is given out. -/
theorem exhausted_spec : ∀ {base : Nat}, Grants base log → sequenceLimit.toNat < base →
    reserved log = [] ∧ ∀ entry ∈ log, 0 < entry.1 → entry.2 = .error .exhausted := by
  induction log with
  | nil => exact fun _ _ => ⟨rfl, by simp⟩
  | cons entry rest ih =>
    obtain ⟨count, result⟩ := entry
    rintro base ⟨rfl, hrest⟩ hbase
    obtain ⟨hnone, hall⟩ := ih hrest (by omega)
    have hrefused : granted base count = if count ≤ 0 then .error .emptyRange else .error .exhausted := by
      unfold granted
      rw [if_neg (show ¬base + count.toNatClampNeg ≤ sequenceLimit.toNat by omega)]
    constructor
    · have hcons : reserved ((count, granted base count) :: rest) =
          ((granted base count).toOption.toList ++ reserved rest) := by
        unfold reserved
        rw [List.filterMap_cons]
        cases (granted base count).toOption <;> rfl
      rw [hcons, hnone, hrefused]
      split_ifs <;> rfl
    · refine List.forall_mem_cons.mpr ⟨fun hpos => ?_, hall⟩
      rw [hrefused, if_neg (Int64.not_le.mpr hpos)]

/-- The ranges given out follow one another without a gap. -/
theorem consecutive_spec : ∀ {base : Nat}, Grants base log →
    (∀ g ∈ (reserved log).head?, g.1.toNat = base + 1) ∧
      (reserved log).IsChain fun a b => b.1.toNat = a.2.toNat + 1 := by
  induction log with
  | nil => exact fun _ => ⟨by simp [reserved], .nil⟩
  | cons entry rest ih =>
    obtain ⟨count, result⟩ := entry
    rintro base ⟨hentry, hrest⟩
    cases hresult : result with
    | error e =>
      have hnone : reserved ((count, .error e) :: rest) = reserved rest := rfl
      rw [hnone]
      by_cases hc : count ≤ 0
      · rw [count_neg hc] at hrest
        exact ih hrest
      · -- a refused reservation was past the limit, and so is everything after it
        have hover : sequenceLimit.toNat < base + count.toNatClampNeg := by
          refine granted_exhausted (hentry.symm.trans (hresult.trans ?_))
          rw [hresult] at hentry
          unfold granted at hentry
          rw [if_neg hc] at hentry
          split_ifs at hentry
          exact hentry
        rw [(exhausted_spec hrest hover).1]
        exact ⟨by simp, .nil⟩
    | ok grant =>
      rw [hresult] at hentry
      obtain ⟨hfirst, hstop, -, -⟩ := granted_ok hentry.symm
      have hcons : reserved ((count, .ok grant) :: rest) = grant :: reserved rest := rfl
      obtain ⟨hhead, hchain⟩ := ih hrest
      rw [hcons]
      refine ⟨fun g hg => by rw [← Option.some.inj hg, hfirst], hchain.cons fun g hg => ?_⟩
      rw [hhead g hg, hstop]

/-- One element of the right list exchanged for another that its partner is related to as well. -/
theorem forall₂_exchange {α β : Type} {R : α → β → Prop} {before after : List β} {b : β} :
    ∀ {l : List α}, List.Forall₂ R l (before ++ b :: after) →
      ∃ a, l[before.length]? = some a ∧ R a b ∧ ∀ b', R a b' → List.Forall₂ R l (before ++ b' :: after) := by
  induction before with
  | nil =>
    intro l h
    obtain ⟨a, rest, hab, hrest, rfl⟩ := List.forall₂_cons_right_iff.mp h
    exact ⟨a, rfl, hab, fun b' hb => .cons hb hrest⟩
  | cons c before ih =>
    intro l h
    obtain ⟨a, rest, hac, hrest, rfl⟩ := List.forall₂_cons_right_iff.mp h
    obtain ⟨a', ha', hab, hex⟩ := ih hrest
    exact ⟨a', ha', hab, fun b' hb => .cons hac (hex b' hb)⟩

theorem getElem?_exchange {α : Type} (before after : List α) (a b : α) {i : Nat} {x : α}
    (h : (before ++ a :: after)[i]? = some x) :
    i = before.length ∧ x = a ∨ i ≠ before.length ∧ (before ++ b :: after)[i]? = some x := by
  by_cases hi : i = before.length
  · subst hi
    simp only [List.getElem?_append_right (Nat.le_refl _), Nat.sub_self, List.getElem?_cons_zero, Option.some.injEq] at h
    exact .inl ⟨rfl, h.symm⟩
  · refine .inr ⟨hi, ?_⟩
    rw [List.getElem?_append] at h ⊢
    split_ifs at h ⊢ with hlt
    · exact h
    · obtain ⟨k, hk⟩ : ∃ k, i - before.length = k + 1 := ⟨i - before.length - 1, by omega⟩
      rw [hk, List.getElem?_cons_succ] at h ⊢
      exact h

/-- A lease exchanged for one further on keeps what is used used. -/
theorem used_exchange {grants : List (UInt64 × UInt64)} {before after : List Lease} {lease lease' : Lease} {n : Nat}
    (hle : lease.range.next.toNat ≤ lease'.range.next.toNat) (h : Used grants (before ++ lease :: after) n) :
    Used grants (before ++ lease' :: after) n := by
  obtain ⟨i, grant, held, hgrant, hheld, hfirst, hnext⟩ := h
  obtain ⟨rfl, rfl⟩ | ⟨-, hother⟩ := getElem?_exchange before after lease lease' hheld
  · exact ⟨_, grant, lease', hgrant, by simp, hfirst, Nat.lt_of_lt_of_le hnext hle⟩
  · exact ⟨i, grant, held, hgrant, hother, hfirst, hnext⟩

/-- A used number stays used. -/
theorem used_append {grants : List (UInt64 × UInt64)} {leases : List Lease} {n : Nat} (h : Used grants leases n)
    (grants' : List (UInt64 × UInt64)) (leases' : List Lease) : Used (grants ++ grants') (leases ++ leases') n := by
  obtain ⟨i, grant, held, hgrant, hheld, hbounds⟩ := h
  refine ⟨i, grant, held, ?_, ?_, hbounds⟩
  · rw [List.getElem?_append_left (List.getElem?_eq_some_iff.mp hgrant).1]
    exact hgrant
  · rw [List.getElem?_append_left (List.getElem?_eq_some_iff.mp hheld).1]
    exact hheld

theorem reserved_append (log : List Reservation) (count : Int64) (result : Except SealError (UInt64 × UInt64)) :
    reserved (log ++ [(count, result)]) = reserved log ++ result.toOption.toList := by
  unfold reserved
  rw [List.filterMap_append]
  cases result <;> rfl

variable {s : Sending} {numbers : List UInt64}

/-- A reservation keeps the count. -/
theorem uses_reserve (h : Uses s numbers) (htodo : todo.length ≤ count.toNatClampNeg)
    (hsum : requested s.log + count.toNatClampNeg < 2 ^ 64) : Uses (s.reserve count todo) numbers := by
  obtain ⟨hresult, hseq⟩ := @reserve_spec s.sa count (by rw [h.counter]; exact hsum)
  rw [h.counter] at hresult hseq
  unfold Sending.reserve
  generalize s.sa.reserveSequenceNumbers count = out at hresult hseq ⊢
  obtain ⟨sa, result⟩ := out
  dsimp only at hresult hseq ⊢
  refine ⟨?_, grants_append h.grants (by rw [Nat.zero_add]; exact hresult), ?_, h.sealed, fun n hn => ?_, h.nodup⟩
  · rw [requested_append]
    exact hseq
  · rw [reserved_append]
    refine List.rel_append h.leases ?_
    cases hres : result with
    | error e => exact .nil
    | ok grant =>
      rw [hres] at hresult
      obtain ⟨hfirst, hstop, -, -⟩ := granted_ok hresult.symm
      exact .cons ⟨rfl, Nat.le_refl _, by dsimp only; omega⟩ .nil
  · rw [reserved_append]
    exact used_append (h.used n hn) _ _

/-- Two ranges given out that share a number are one. -/
theorem grant_unique (h : Grants 0 log) {i j : Nat} {g g' : UInt64 × UInt64} (hi : (reserved log)[i]? = some g)
    (hj : (reserved log)[j]? = some g') {n : Nat} (hg : g.1.toNat ≤ n ∧ n ≤ g.2.toNat) (hg' : g'.1.toNat ≤ n ∧ n ≤ g'.2.toNat) :
    i = j := by
  have hpair := (reserved_spec h).2
  rw [List.pairwise_iff_getElem] at hpair
  obtain ⟨hi', rfl⟩ := List.getElem?_eq_some_iff.mp hi
  obtain ⟨hj', rfl⟩ := List.getElem?_eq_some_iff.mp hj
  rcases Nat.lt_trichotomy i j with hlt | heq | hgt
  · have := hpair i j hi' hj' hlt
    omega
  · exact heq
  · have := hpair j i hj' hi' hgt
    omega

/-- A sealed packet uses the next number. -/
theorem uses_sealPacket (h : Uses s numbers) {before after : List Lease} {range : SequenceRange} {inner : Inner} {rest : List Inner}
    (hleases : s.leases = before ++ ⟨range, inner :: rest⟩ :: after) :
    Uses { s with
      leases := before ++ ⟨(range.sealNext s.sa inner).1, rest⟩ :: after
      sealed := s.sealed ++ [(range.sealNext s.sa inner).2] } (numbers ++ [range.next]) := by
  have hold := h.leases
  rw [hleases] at hold
  obtain ⟨grant, hgrant, hheld, hexchange⟩ := forall₂_exchange hold
  have hroom := hheld.room
  have hfirst := hheld.first
  rw [List.length_cons] at hroom
  dsimp only at hroom hfirst
  have hlimit := ((reserved_spec h.grants).1 grant (List.mem_of_getElem? hgrant)).2.2
  have hsmall : sequenceLimit.toNat = 2 ^ 32 - 1 := rfl
  have hnext : (range.next + 1).toNat = range.next.toNat + 1 := by
    rw [UInt64.toNat_add]
    exact Nat.mod_eq_of_lt (by rw [UInt64.toNat_one]; omega)
  have hused : ∀ m ∈ numbers, m ≠ range.next := by
    rintro m hm rfl
    have hm' := h.used _ hm
    rw [hleases] at hm'
    obtain ⟨j, grant', held, hgrant', hheld', hlow, hhigh⟩ := hm'
    -- the number is in the range of another lease, so the two leases are one
    have hpartner : Holds grant' held := by
      obtain ⟨hj, hheldj⟩ := List.getElem?_eq_some_iff.mp hheld'
      obtain ⟨hj', hgrantj⟩ := List.getElem?_eq_some_iff.mp hgrant'
      have := (List.forall₂_iff_get.mp hold).2 j hj' hj
      rwa [List.get_eq_getElem, List.get_eq_getElem, hgrantj, hheldj] at this
    have hbound := hpartner.room
    have hij : before.length = j := grant_unique h.grants hgrant hgrant' ⟨hfirst, by omega⟩ ⟨hlow, by omega⟩
    rw [← hij, List.getElem?_append_right (Nat.le_refl _), Nat.sub_self, List.getElem?_cons_zero, Option.some.injEq] at hheld'
    rw [← hheld'] at hhigh
    exact Nat.lt_irrefl _ hhigh
  refine ⟨h.counter, h.grants, hexchange _ ⟨hheld.stop, ?_, ?_⟩, List.rel_append h.sealed (.cons ⟨_, _, _, rfl⟩ .nil), ?_, ?_⟩
  · show _ ≤ (range.next + 1).toNat
    omega
  · show (range.next + 1).toNat + rest.length ≤ _
    omega
  · refine List.forall_mem_append.mpr ⟨fun n hn => ?_, ?_⟩
    · have hn' := h.used n hn
      rw [hleases] at hn'
      refine used_exchange ?_ hn'
      show range.next.toNat ≤ (range.next + 1).toNat
      omega
    · rw [List.forall_mem_singleton]
      refine ⟨before.length, grant, ⟨(range.sealNext s.sa inner).1, rest⟩, hgrant, by simp, hfirst, ?_⟩
      show _ < (range.next + 1).toNat
      omega
  · rw [List.nodup_append]
    exact ⟨h.nodup, List.nodup_singleton _, fun a ha b hb => by rw [List.mem_singleton.mp hb]; exact hused a ha⟩

/-- A call that passes its checks has a number for each of its packets. -/
theorem admit_length {range : SequenceRange} {call : SealCall} (h : range.admitted call = .ok todo) :
    range.next.toNat + todo.length ≤ range.stop.toNat + 1 := by
  unfold SequenceRange.admitted at h
  cases call with
  | one inner =>
    dsimp only at h
    split_ifs at h with hempty
    rw [UInt64.lt_iff_toNat_lt] at hempty
    rw [← Except.ok.inj h, List.length_singleton]
    omega
  | batch packets nextHeaders =>
    dsimp only at h
    split_ifs at h with hlen hsize
    rw [not_or, UInt64.lt_iff_toNat_lt, not_lt, not_not] at hsize
    obtain ⟨hle, hcount⟩ := hsize
    have hsub : (range.stop - range.next).toNat = range.stop.toNat - range.next.toNat := UInt64.toNat_sub_of_le _ _ hle
    have hadd := UInt64.toNat_add (range.stop - range.next) 1
    have hmod : (range.stop - range.next + 1).toNat ≤ range.stop.toNat - range.next.toNat + 1 := by
      rw [hadd, hsub]
      exact Nat.mod_le _ _
    rw [← Except.ok.inj h, List.length_zip]
    omega

/-- A next call on a lease uses nothing. -/
theorem uses_call (h : Uses s numbers) {before after : List Lease} {range : SequenceRange}
    (hleases : s.leases = before ++ ⟨range, []⟩ :: after) (htodo : range.next.toNat + todo.length ≤ range.stop.toNat + 1) :
    Uses { s with leases := before ++ ⟨range, todo⟩ :: after } numbers := by
  have hold := h.leases
  rw [hleases] at hold
  obtain ⟨grant, -, hheld, hexchange⟩ := forall₂_exchange hold
  have hstop := hheld.stop
  dsimp only at hstop
  refine ⟨h.counter, h.grants, hexchange _ ⟨hstop, hheld.first, by rw [← hstop]; exact htodo⟩, h.sealed, fun n hn => ?_, h.nodup⟩
  have hn' := h.used n hn
  rw [hleases] at hn'
  exact @used_exchange _ _ _ ⟨range, []⟩ ⟨range, todo⟩ _ (Nat.le_refl _) hn'

theorem requested_step {s s' : Sending} (h : Step s s') : requested s.log ≤ requested s'.log := by
  have hreserve : ∀ count todo, requested s.log ≤ requested (s.reserve count todo).log := by
    intro count todo
    unfold Sending.reserve
    dsimp only
    rw [requested_append]
    exact Nat.le_add_right _ _
  cases h with
  | reserveSequenceRange count => exact hreserve count []
  | sealReserve inner => exact hreserve 1 [inner]
  | call | sealPacket => exact Nat.le_refl _

/-- Each step keeps the numbers apart. -/
theorem uses_step {s' : Sending} (hstep : Step s s') (h : Uses s numbers) (hsum : requested s'.log < 2 ^ 64) :
    ∃ numbers', Uses s' numbers' := by
  have hreserve : ∀ {count : Int64} {todo : List Inner}, requested (s.reserve count todo).log < 2 ^ 64 →
      requested s.log + count.toNatClampNeg < 2 ^ 64 := by
    intro count todo hlt
    unfold Sending.reserve at hlt
    rwa [requested_append] at hlt
  cases hstep with
  | reserveSequenceRange count => exact ⟨numbers, uses_reserve h (Nat.zero_le _) (hreserve hsum)⟩
  | sealReserve inner => exact ⟨numbers, uses_reserve h (Nat.le_of_eq rfl) (hreserve hsum)⟩
  | call hleases hadmitted => exact ⟨numbers, uses_call h hleases (admit_length hadmitted)⟩
  | @sealPacket _ _ range _ _ hleases => exact ⟨numbers ++ [range.next], uses_sealPacket h hleases⟩

/-- The numbers of a run are apart. -/
theorem uses_reachable {sa : OutboundSA} {s : Sending} (h : Sending.Reachable sa s) (hsum : requested s.log < 2 ^ 64) :
    ∃ numbers, Uses s numbers := by
  induction h with
  | refl => exact ⟨[], rfl, trivial, .nil, .nil, by simp, List.nodup_nil⟩
  | tail _ hstep ih =>
    obtain ⟨numbers, hn⟩ := ih (Nat.lt_of_le_of_lt (requested_step hstep) hsum)
    exact uses_step hstep hn hsum

/-- The fields of a sealed packet are its number. -/
theorem sealed_fields (o : OutboundSA) (inner : List UInt8) (nextHeader : UInt8) (seq : UInt64) :
    sequenceField (o.appendSealed inner nextHeader seq) = toBytes seq.toUInt32.toBitVec ∧
      ivField (o.appendSealed inner nextHeader seq) = toBytes seq.toBitVec := by
  have hspi : (toBytes o.spi.toBitVec).length = 4 := by simp
  have hseq : (toBytes seq.toUInt32.toBitVec).length = 4 := by simp
  have hiv : (toBytes seq.toBitVec).length = 8 := by simp
  unfold sequenceField ivField OutboundSA.appendSealed headerLen ivLen
  dsimp only
  constructor
  · rw [List.append_assoc, List.append_assoc, List.drop_left' hspi, List.take_left' hseq]
  · rw [List.append_assoc, List.drop_left' (by rw [List.length_append]; omega), List.take_left' hiv]

/-- Packets sealed under distinct numbers within the limit carry distinct fields. -/
theorem fields_nodup {packets : List (List UInt8)}
    (h : List.Forall₂ (fun packet number => ∃ o inner nextHeader, packet = OutboundSA.appendSealed o inner nextHeader number)
      packets numbers) (hlimit : ∀ n ∈ numbers, n.toNat ≤ sequenceLimit.toNat) (hnodup : numbers.Nodup) :
    (packets.map sequenceField).Nodup ∧ (packets.map ivField).Nodup := by
  have hfields : packets.map sequenceField = numbers.map (fun n => toBytes n.toUInt32.toBitVec) ∧
      packets.map ivField = numbers.map (fun n => toBytes n.toBitVec) := by
    clear hlimit hnodup
    induction h with
    | nil => exact ⟨rfl, rfl⟩
    | cons hhead _ ih =>
      obtain ⟨o, inner, nextHeader, rfl⟩ := hhead
      obtain ⟨hseq, hiv⟩ := sealed_fields o inner nextHeader ‹_›
      exact ⟨by rw [List.map_cons, List.map_cons, hseq, ih.1], by rw [List.map_cons, List.map_cons, hiv, ih.2]⟩
  rw [hfields.1, hfields.2]
  constructor
  · refine hnodup.map_on fun a ha b hb hab => ?_
    have hword : a.toUInt32 = b.toUInt32 := by
      rw [← UInt32.toBitVec_inj, ← ofBytes_toBytes a.toUInt32.toBitVec rfl, hab, ofBytes_toBytes _ rfl]
    have hmod := congrArg UInt32.toNat hword
    have ha' := hlimit a ha
    have hb' := hlimit b hb
    have hsmall : sequenceLimit.toNat = 2 ^ 32 - 1 := rfl
    rw [UInt64.toNat_toUInt32, UInt64.toNat_toUInt32, Nat.mod_eq_of_lt (by omega), Nat.mod_eq_of_lt (by omega)] at hmod
    exact UInt64.toNat_inj.mp hmod
  · refine hnodup.map fun a b hab => ?_
    rw [← UInt64.toBitVec_inj, ← ofBytes_toBytes a.toBitVec rfl, hab, ofBytes_toBytes _ rfl]

/-- What the reservations before and after one found of the counter. -/
theorem grants_split {before after : List Reservation} {entry : Reservation} : ∀ {base : Nat},
    Grants base (before ++ entry :: after) → entry.2 = granted (base + requested before) entry.1 ∧
      Grants (base + requested before + entry.1.toNatClampNeg) after := by
  induction before with
  | nil => exact fun h => h
  | cons first rest ih =>
    rintro base ⟨-, h⟩
    have hsum : base + first.1.toNatClampNeg + requested rest = base + requested (first :: rest) := by
      simp [requested, Nat.add_assoc]
    rw [← hsum]
    exact ih h

end NonceAux

open NonceAux

/-- For any calls on one SA that ask for fewer than `2 ^ 64` numbers in all: the ranges given out start at one, follow one another
without a gap, do not overlap and stay within the limit; no two sealed packets carry one sequence number or one IV; a reservation that
would pass the limit gets nothing, and after one was refused for that every later one is. -/
theorem nonces_unique {sa : OutboundSA} {s : Sending} (h : Sending.Reachable sa s) (hsum : requested s.log < 2 ^ 64) :
    (∀ g ∈ reserved s.log, 1 ≤ g.1.toNat ∧ g.1.toNat ≤ g.2.toNat ∧ g.2.toNat ≤ 2 ^ 32 - 1) ∧
    ((reserved s.log).Pairwise fun a b => a.2.toNat < b.1.toNat) ∧
    ((∀ g ∈ (reserved s.log).head?, g.1.toNat = 1) ∧ (reserved s.log).IsChain fun a b => b.1.toNat = a.2.toNat + 1) ∧
    ((s.sealed.map sequenceField).Nodup ∧ (s.sealed.map ivField).Nodup) ∧
    (∀ before entry after, s.log = before ++ entry :: after → 0 < entry.1 →
      2 ^ 32 - 1 < requested before + entry.1.toNatClampNeg → entry.2 = .error .exhausted) ∧
    ∀ before entry after, s.log = before ++ entry :: after → entry.2 = .error .exhausted →
      ∀ later ∈ after, 0 < later.1 → later.2 = .error .exhausted := by
  obtain ⟨numbers, huses⟩ := uses_reachable h hsum
  obtain ⟨hbounds, hpair⟩ := reserved_spec huses.grants
  obtain ⟨hhead, hchain⟩ := consecutive_spec huses.grants
  have hlimit : sequenceLimit.toNat = 2 ^ 32 - 1 := rfl
  refine ⟨hbounds, hpair, ⟨hhead, hchain⟩, fields_nodup huses.sealed (fun n hn => ?_) huses.nodup, ?_, ?_⟩
  · obtain ⟨i, grant, lease, hgrant, hlease, -, hlt⟩ := huses.used n hn
    obtain ⟨hi, rfl⟩ := List.getElem?_eq_some_iff.mp hgrant
    obtain ⟨hi', rfl⟩ := List.getElem?_eq_some_iff.mp hlease
    have hroom := ((List.forall₂_iff_get.mp huses.leases).2 i hi hi').room
    have hle := (hbounds _ (List.getElem_mem hi)).2.2
    simp only [List.get_eq_getElem] at hroom
    omega
  · intro before entry after hlog hpos hover
    obtain ⟨hentry, -⟩ := grants_split (hlog ▸ huses.grants)
    rw [hentry, granted, if_neg (Int64.not_le.mpr hpos), if_neg (by omega)]
  · intro before entry after hlog hrefused later hlater hpos
    obtain ⟨hentry, hafter⟩ := grants_split (hlog ▸ huses.grants)
    refine (exhausted_spec hafter ?_).2 later hlater hpos
    exact granted_exhausted (hentry.symm.trans hrefused)

/-- An SA whose AEAD leaves the plaintext as it is, for a look at the headers. -/
def clearSA : OutboundSA := { aeadSeal := fun _ plain _ => plain, salt := [1, 2, 3, 4], spi := 7 }

/-- Two packets sealed at once: the second reservation is made before the first packet is sealed, and sealed first. -/
def twoSealed : Sending :=
  let s := (Sending.reserve { sa := clearSA } 1 [([1], 4)]).reserve 1 [([2], 4)]
  { s with
    leases := [⟨⟨2, 1⟩, []⟩, ⟨⟨3, 2⟩, []⟩]
    sealed := [clearSA.appendSealed [2] 4 2, clearSA.appendSealed [1] 4 1] }

/-- It is reached by two reservations. -/
theorem twoSealed_reachable : Sending.Reachable clearSA twoSealed := by
  have hfirst : Step { sa := clearSA } (Sending.reserve { sa := clearSA } 1 [([1], 4)]) := .sealReserve _ _
  have hsecond : Step _ ((Sending.reserve { sa := clearSA } 1 [([1], 4)]).reserve 1 [([2], 4)]) := .sealReserve _ _
  have hlater := @Step.sealPacket ((Sending.reserve { sa := clearSA } 1 [([1], 4)]).reserve 1 [([2], 4)])
    [⟨⟨1, 1⟩, [([1], 4)]⟩] [] ⟨2, 2⟩ ([2], 4) [] rfl
  have hearlier := @Step.sealPacket { (Sending.reserve { sa := clearSA } 1 [([1], 4)]).reserve 1 [([2], 4)] with
      leases := [⟨⟨1, 1⟩, [([1], 4)]⟩, ⟨⟨3, 2⟩, []⟩], sealed := [clearSA.appendSealed [2] 4 2] }
    [] [⟨⟨3, 2⟩, []⟩] ⟨1, 1⟩ ([1], 4) [] rfl
  exact (((Relation.ReflTransGen.single hfirst).tail hsecond).tail hlater).tail hearlier

theorem nonces_unique_twoSealed : requested twoSealed.log < 2 ^ 64 ∧ (twoSealed.sealed.map ivField).Nodup :=
  ⟨by decide, (nonces_unique twoSealed_reachable (by decide)).2.2.2.1.2⟩

end RanetLite.Esp
