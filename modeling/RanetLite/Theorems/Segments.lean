import RanetLite.Netstack.Segments
import RanetLite.Theorems.Srv6Safety

/-!
# Segments of this node

`actLocally` acts on every segment of this node that comes in a row: each one it acts on as a waypoint takes one off Segments Left,
which is at most the number of rounds it allows itself. So a packet that it hands back to be sent on is addressed to somebody else.
-/

namespace RanetLite.Netstack

open Bytes Netip Srv6 Srv6.SafetyAux

/-- A packet is moved on by some waypoints of this node in turn. -/
inductive Consumes (table : Option LocalTable) : Nat → List UInt8 → List UInt8 → Prop where
  | none (raw : List UInt8) : Consumes table 0 raw raw
  | one {n : Nat} {raw raw' raw'' : List UInt8} {next : Addr} (hlocal : behaviorOf table raw = some .endpoint)
      (hend : endSegment raw = .ok (raw', next)) (hrest : Consumes table n raw' raw'') : Consumes table (n + 1) raw raw''

/-- No waypoint of this node moves the packet on. -/
def Stays (table : Option LocalTable) (raw : List UInt8) : Prop :=
  behaviorOf table raw = some .endpoint → ∀ moved, endSegment raw ≠ .ok moved

/-- What `actLocally` comes to at the packet it has got to: it is sent on to an address that is not of this node, or this is the last
thing `Handle` says. -/
inductive Settled (table : Option LocalTable) (raw' : List UInt8) : List UInt8 × Result → Prop where
  | forward {next : Addr} (hnext : next = .v6 (wordAt 128 raw' 24) "") (hforeign : ∀ t ∈ table, t.entries next = none) :
      Settled table raw' (raw', .forward next)
  | last (hlast : ∀ next, (handle table raw').2 ≠ .forward next) : Settled table raw' (handle table raw')

namespace SegmentsAux

variable {table : Option LocalTable} {raw raw' : List UInt8} {n : Nat} {k : Nat} {raw'' : List UInt8}

/-- Each waypoint consumed takes one from the hop limit. -/
theorem hop_consumes (h : Consumes table n raw raw') : (raw'.getD 7 0).toNat + n = (raw.getD 7 0).toNat := by
  induction h with
  | none raw => rfl
  | one hlocal hend hrest ih =>
    obtain ⟨header, hmoved⟩ := endSegment_moved hend
    have := hmoved.hop_moved
    omega

/-- A packet for no local segment passes. -/
theorem handle_of_none (h : behaviorOf table raw = none) : handle table raw = (raw, .pass) := by rw [handle, h]

/-- A packet that moves on is forwarded. -/
theorem handle_of_moved {next : Addr} (h : behaviorOf table raw = some .endpoint) (hend : endSegment raw = .ok (raw', next)) :
    handle table raw = (raw', .forward next) := by rw [handle, h, hend]

/-- Apart from a waypoint that moves the packet on, `Handle` leaves it alone, and it passes over it only if it is not ours. -/
theorem handle_cases (table : Option LocalTable) (raw : List UInt8) :
    (behaviorOf table raw = some .endpoint ∧ ∃ raw' next, endSegment raw = .ok (raw', next)) ∨
      ∃ result, handle table raw = (raw, result) ∧ (∀ next, result ≠ .forward next) ∧
        (result = .pass ↔ behaviorOf table raw = none) := by
  cases hlocal : behaviorOf table raw with
  | none => exact .inr ⟨.pass, handle_of_none hlocal, by simp, by simp⟩
  | some behavior =>
    cases behavior with
    | endpoint =>
      cases hend : endSegment raw with
      | error e => exact .inr ⟨.drop (.segment e), by rw [handle, hlocal, hend], by simp, by simp⟩
      | ok moved => exact .inl ⟨rfl, moved.1, moved.2, rfl⟩
    | endDT46 =>
      cases hdecap : decap raw with
      | error e => exact .inr ⟨.drop (.segment e), by rw [handle, hlocal, hdecap], by simp, by simp⟩
      | ok inner => exact .inr ⟨.deliver inner.1 inner.2, by rw [handle, hlocal, hdecap], by simp, by simp⟩
    | other code => exact .inr ⟨_, by rw [handle, hlocal], by simp, by simp⟩

/-- Only a packet that is forwarded is looked at again. -/
theorem actAgain_done {result : Result} (h : ∀ next, result ≠ .forward next) (n : Nat) :
    actAgain table n raw result = (raw, result) := by
  cases n with
  | zero => rfl
  | succ n =>
    cases result with
    | forward next => exact absurd rfl (h next)
    | pass => rfl
    | deliver inner family => rfl
    | drop err => rfl

/-- A packet that `Parse` accepts is IPv6, so what is not ours is not in the table. -/
theorem foreign_of_none {header : Header} (hparse : parse raw = .ok header) (h : behaviorOf table raw = none) :
    ∀ t ∈ table, t.entries (.v6 (wordAt 128 raw 24) "") = none := by
  intro t ht
  obtain rfl : table = some t := ht
  rwa [behaviorOf, if_neg (parse_ok hparse).1] at h

/-- The rounds of the loop, while there are more of them than segments left. -/
theorem actAgain_settles (table : Option LocalTable) {header : Header}
    (hparse : parse raw = .ok header) (hleft : header.segmentsLeft.toNat < n) :
    ∃ k raw', Consumes table k raw raw' ∧ k ≤ header.segmentsLeft.toNat ∧
      Settled table raw' (actAgain table n raw (.forward (.v6 (wordAt 128 raw 24) ""))) ∧
      (actAgain table n raw (.forward (.v6 (wordAt 128 raw 24) ""))).2 ≠ .pass := by
  induction n generalizing raw header with
  | zero => omega
  | succ n ih =>
    rw [actAgain]
    rcases handle_cases table raw with ⟨hlocal, raw1, next, hend⟩ | ⟨result, hhandle, hresult, hpass⟩
    · obtain ⟨header, hmoved⟩ := endSegment_moved hend
      obtain rfl : header = _ := Except.ok.inj (hmoved.parsed.symm.trans hparse)
      have hpos : 0 < header.segmentsLeft.toNat := Nat.pos_of_ne_zero fun h0 => hmoved.left (UInt8.toNat_inj.mp h0)
      have hless : (header.segmentsLeft - 1).toNat = header.segmentsLeft.toNat - 1 := toNat_pred hmoved.left
      rw [handle_of_moved hlocal hend, if_neg (by simp), ← hmoved.destination_moved]
      obtain ⟨k, raw', hconsumes, hk, hsettled⟩ := ih hmoved.parse_moved (by dsimp only; omega)
      exact ⟨k + 1, raw', .one hlocal hend hconsumes, by dsimp only at hk; omega, hsettled⟩
    · rw [hhandle]
      by_cases hnone : result = .pass
      · rw [if_pos hnone]
        exact ⟨0, raw, .none raw, Nat.zero_le _, .forward rfl (foreign_of_none hparse (hpass.mp hnone)), by simp⟩
      · rw [if_neg hnone, actAgain_done hresult]
        refine ⟨0, raw, .none raw, Nat.zero_le _, ?_, hnone⟩
        rw [← hhandle]
        exact .last (by rw [hhandle]; exact hresult)

/-- Where `actLocally` gets to. It passes over a packet exactly when that is not ours. -/
theorem actLocally_settles (table : Option LocalTable) (raw : List UInt8) :
    ∃ k raw', Consumes table k raw raw' ∧ k ≤ maxSegments ∧ Settled table raw' (actLocally table raw) ∧
      (k = 0 → ∀ next, (actLocally table raw).2 ≠ .forward next) ∧
      ((actLocally table raw).2 = .pass ↔ behaviorOf table raw = none) := by
  rw [actLocally]
  rcases handle_cases table raw with ⟨hlocal, raw1, next, hend⟩ | ⟨result, hhandle, hresult, hpass⟩
  · obtain ⟨header, hmoved⟩ := endSegment_moved hend
    obtain ⟨-, -, hrouting⟩ := parse_ok hmoved.parsed
    obtain ⟨-, hmost, hcount, -⟩ := parseRouting_ok hrouting
    have hpos : 0 < header.segmentsLeft.toNat := Nat.pos_of_ne_zero fun h0 => hmoved.left (UInt8.toNat_inj.mp h0)
    have hless : (header.segmentsLeft - 1).toNat = header.segmentsLeft.toNat - 1 := toNat_pred hmoved.left
    rw [handle_of_moved hlocal hend, ← hmoved.destination_moved]
    obtain ⟨k, raw', hconsumes, hk, hsettled, hours⟩ := actAgain_settles table (n := maxSegments) hmoved.parse_moved
      (by dsimp only; omega)
    dsimp only at hk
    refine ⟨k + 1, raw', .one hlocal hend hconsumes, by omega, hsettled, by simp, ?_⟩
    rw [hlocal]
    exact iff_of_false hours (by simp)
  · rw [hhandle, actAgain_done hresult]
    refine ⟨0, raw, .none raw, Nat.zero_le _, ?_, fun _ => hresult, hpass⟩
    rw [← hhandle]
    exact .last (by rw [hhandle]; exact hresult)

/-! ### Where a packet gets to -/

/-- The waypoints left after some were consumed. -/
theorem consumes_rest (h : Consumes table n raw raw') (hk : Consumes table k raw raw'') (hle : n ≤ k) :
    Consumes table (k - n) raw' raw'' := by
  induction h generalizing k with
  | none raw => exact hk
  | one hlocal hend hrest ih =>
    cases hk with
    | none => omega
    | one hlocal' hend' hrest' =>
      obtain rfl := (Prod.mk.inj (Except.ok.inj (hend.symm.trans hend'))).1
      rw [Nat.succ_sub_succ]
      exact ih hrest' (Nat.le_of_succ_le_succ hle)

/-- The packet at which the waypoints stop. -/
theorem consumes_eq (h : Consumes table n raw raw') (hk : Consumes table k raw raw'') (hle : n ≤ k) (hstays : Stays table raw') :
    raw' = raw'' := by
  have hrest := consumes_rest h hk hle
  generalize k - n = j at hrest
  cases hrest with
  | none => rfl
  | one hlocal hend hrest => exact absurd hend (hstays hlocal _)

/-- There is one packet at which it stays. -/
theorem consumes_unique (h : Consumes table n raw raw') (hstays : Stays table raw') (hk : Consumes table k raw raw'')
    (hstays' : Stays table raw'') : raw' = raw'' := by
  rcases Nat.le_total n k with hle | hle
  · exact consumes_eq h hk hle hstays
  · exact (consumes_eq hk h hle hstays').symm

/-- A destination that no table has is no local segment. -/
theorem behaviorOf_of_foreign (h : ∀ t ∈ table, t.entries (.v6 (wordAt 128 raw 24) "") = none) : behaviorOf table raw = none := by
  cases table with
  | none => rfl
  | some t =>
    rw [behaviorOf, h t rfl]
    exact ite_self _

/-- A packet that is settled stays. -/
theorem settled_stays {result : List UInt8 × Result} (h : Settled table raw result) : Stays table raw := by
  intro hlocal moved hend
  cases h with
  | forward hnext hforeign =>
    subst hnext
    rw [behaviorOf_of_foreign hforeign] at hlocal
    cases hlocal
  | last hlast => exact hlast moved.2 (by rw [handle_of_moved hlocal hend])

/-- What `actLocally` says is settled at the packet where the waypoints of this node stop. -/
theorem actLocally_at (h : Consumes table n raw raw') (hstays : Stays table raw') : Settled table raw' (actLocally table raw) := by
  obtain ⟨k, raw'', hconsumes, -, hsettled, -⟩ := actLocally_settles table raw
  rwa [consumes_unique h hstays hconsumes (settled_stays hsettled)]

/-- Only a packet for no local segment passes. -/
theorem actLocally_pass_iff : (actLocally table raw).2 = .pass ↔ behaviorOf table raw = none := by
  obtain ⟨-, -, -, -, -, -, h⟩ := actLocally_settles table raw
  exact h

/-- It passes as it is. -/
theorem actLocally_of_none (h : behaviorOf table raw = none) : actLocally table raw = (raw, .pass) := by
  rw [actLocally, handle_of_none h, actAgain_done (by simp)]

/-- A packet is delivered at a decapsulating segment. -/
theorem handle_deliver_iff {inner : List UInt8} {family : UInt8} :
    (handle table raw).2 = .deliver inner family ↔ behaviorOf table raw = some .endDT46 ∧ decap raw = .ok (inner, family) := by
  rw [handle]
  constructor
  · intro h
    split at h
    · cases h
    · split at h <;> cases h
    · rename_i hlocal
      split at h
      · cases h
      · rename_i hdecap
        cases h
        exact ⟨hlocal, hdecap⟩
    · cases h
  · rintro ⟨hlocal, hdecap⟩
    rw [hlocal, hdecap]

/-- A packet ends here when the waypoints of this node take it to a segment of this node that delivers. -/
theorem actLocally_deliver_iff {inner : List UInt8} {family : UInt8} : (actLocally table raw).2 = .deliver inner family ↔
    ∃ n raw', Consumes table n raw raw' ∧ behaviorOf table raw' = some .endDT46 ∧ decap raw' = .ok (inner, family) := by
  constructor
  · intro h
    obtain ⟨k, raw', hconsumes, -, hsettled, -⟩ := actLocally_settles table raw
    refine ⟨k, raw', hconsumes, ?_⟩
    rw [← handle_deliver_iff]
    generalize actLocally table raw = result at h hsettled
    cases hsettled with
    | forward hnext hforeign => cases h
    | last hlast => exact h
  · rintro ⟨n, raw', hconsumes, hlocal, hdecap⟩
    have hstays : Stays table raw' := fun hend => by simp [hlocal] at hend
    have hsettled := actLocally_at hconsumes hstays
    generalize actLocally table raw = result at hsettled ⊢
    cases hsettled with
    | forward hnext hforeign =>
      subst hnext
      rw [behaviorOf_of_foreign hforeign] at hlocal
      cases hlocal
    | last hlast => exact handle_deliver_iff.mpr ⟨hlocal, hdecap⟩

/-- A packet is sent on when the waypoints of this node, one at least, take it to an address that is not of this node. -/
theorem actLocally_forward_iff : (∃ next, actLocally table raw = (raw', .forward next)) ↔
    ∃ n, 0 < n ∧ Consumes table n raw raw' ∧ behaviorOf table raw' = none := by
  constructor
  · rintro ⟨next, h⟩
    obtain ⟨k, raw'', hconsumes, -, hsettled, hzero, -⟩ := actLocally_settles table raw
    have hpos : 0 < k := Nat.pos_of_ne_zero fun h0 => hzero h0 next (by rw [h])
    generalize actLocally table raw = result at h hsettled
    cases hsettled with
    | forward hnext hforeign =>
      obtain ⟨rfl, heq⟩ := Prod.mk.inj h
      subst hnext
      exact ⟨k, hpos, hconsumes, behaviorOf_of_foreign hforeign⟩
    | last hlast => exact absurd (by rw [h]) (hlast next)
  · rintro ⟨n, hpos, hconsumes, hnone⟩
    have hsettled := actLocally_at hconsumes fun hend => by simp [hnone] at hend
    generalize hresult : actLocally table raw = result at hsettled
    cases hsettled with
    | forward hnext hforeign => exact ⟨_, rfl⟩
    | last hlast =>
      rw [handle_of_none hnone] at hresult
      have hpass : behaviorOf table raw = none := actLocally_pass_iff.mp (by rw [hresult])
      cases hconsumes with
      | none => omega
      | one hlocal hend hrest =>
        rw [hpass] at hlocal
        cases hlocal

end SegmentsAux

open SegmentsAux

/-- For every table and packet: a number of waypoints of this node that follow each other move the packet on, each of them taking one
off its hop limit, until none of them would, and what `actLocally` returns is settled at the packet they leave. One it hands back to be
sent on has passed at least one of them and goes to an address that is not a segment of this node. -/
theorem local_segments_progress (table : Option LocalTable) (raw : List UInt8) :
    ∃ n raw', Consumes table n raw raw' ∧ Stays table raw' ∧ n ≤ maxSegments ∧ (raw'.getD 7 0).toNat + n = (raw.getD 7 0).toNat ∧
      Settled table raw' (actLocally table raw) ∧
      ∀ out next, actLocally table raw = (out, .forward next) → 0 < n ∧ out = raw' ∧ next = .v6 (wordAt 128 out 24) "" ∧
        (∀ t ∈ table, t.entries next = none) ∧ (out.getD 7 0).toNat + n = (raw.getD 7 0).toNat := by
  obtain ⟨n, raw', hconsumes, hn, hsettled, hzero, -⟩ := actLocally_settles table raw
  have hhop := hop_consumes hconsumes
  refine ⟨n, raw', hconsumes, settled_stays hsettled, hn, hhop, hsettled, fun out next hforward => ?_⟩
  have hpos : 0 < n := Nat.pos_of_ne_zero fun h0 => hzero h0 next (by rw [hforward])
  rw [hforward] at hsettled
  generalize hresult : (out, Result.forward next) = result at hsettled
  cases hsettled with
  | forward hnext hforeign =>
    obtain ⟨rfl, heq⟩ := Prod.mk.inj hresult
    obtain rfl := Result.forward.inj heq
    exact ⟨hpos, rfl, hnext, hforeign, hhop⟩
  | last hlast => exact absurd (by rw [← hresult]) (hlast next)

/-- A node whose waypoints are `::2` and `::3`. -/
def twoWaypoints : LocalTable := ⟨fun a => if a = .v6 2#128 "" ∨ a = .v6 3#128 "" then some .endpoint else none⟩

/-- A packet from `::1` on its way over `::2` and `::3` to `::4`, at a segment of it, with some hop limit. -/
def steeredOver (destination : BitVec 128) (left hopLimit : UInt8) : List UInt8 :=
  [0x60, 0, 0, 0, 0, 56, nextHeaderRouting, hopLimit] ++ (toBytes 1#128 ++ (toBytes destination ++
    ([59, 6, routingTypeSegment, left, 2, 0, 0, 0] ++ (toBytes 4#128 ++ (toBytes 3#128 ++ toBytes 2#128)))))

/-- Two segments of this node in a row are acted on in one call. -/
theorem local_segments_progress_twice : Consumes (some twoWaypoints) 2 (steeredOver 2 2 64) (steeredOver 4 0 62) ∧
    Stays (some twoWaypoints) (steeredOver 4 0 62) ∧
    actLocally (some twoWaypoints) (steeredOver 2 2 64) = (steeredOver 4 0 62, .forward (.v6 4#128 "")) := by
  have hresult : actLocally (some twoWaypoints) (steeredOver 2 2 64) = (steeredOver 4 0 62, .forward (.v6 4#128 "")) := by
    decide +kernel
  obtain ⟨n, raw', hconsumes, hstays, -, -, -, hforward⟩ := local_segments_progress (some twoWaypoints) (steeredOver 2 2 64)
  obtain ⟨-, rfl, -, -, hhop⟩ := hforward _ _ hresult
  -- the hop limit tells how many waypoints there were
  obtain rfl : n = 2 := by
    have hbefore : ((steeredOver 2 2 64).getD 7 0).toNat = 64 := by decide
    have hafter : ((steeredOver 4 0 62).getD 7 0).toNat = 62 := by decide
    omega
  exact ⟨hconsumes, hstays, hresult⟩

/-! ## A whole batch -/

/-- What of a packet is returned to be written to the tun. -/
def delivery (table : Option LocalTable) (raw : List UInt8) : Option (List UInt8) :=
  match (actLocally table raw).2 with
  | .pass => some raw
  | .deliver inner _ => some inner
  | .forward _ | .drop _ => none

/-- The packet as the waypoints of this node send it on, if they do. -/
def sentOn (table : Option LocalTable) (raw : List UInt8) : Option (List UInt8) :=
  match (actLocally table raw).2 with
  | .forward _ => some (actLocally table raw).1
  | .pass | .deliver .. | .drop _ => none

section

variable {Peer : Type} [DecidableEq Peer] (routes : Addr → Addr → Option Peer)

/-- The peer that the addresses of a packet select, and the next header it is sent under. -/
def selected (raw : List UInt8) : Option (Peer × UInt8) :=
  (addrsOf raw).bind fun addrs => (routes addrs.1 addrs.2.1).map fun peer => (peer, addrs.2.2)

/-- A packet as it stands in the batch of a peer, if it selects that. -/
def placed (peer : Peer) (raw : List UInt8) : Option (List UInt8 × UInt8) :=
  (selected routes raw).bind fun target => if target.1 = peer then some (raw, target.2) else none

/-- The packets that select a peer, in order. -/
def share (segments : List (List UInt8)) (peer : Peer) : Batch := segments.filterMap (placed routes peer)

namespace SegmentsAux

variable {routes} {segments : List (List UInt8)} {s : Sorted Peer} {raw : List UInt8} {order : List Peer}

/-- What the first pass knows of the packets it has seen. -/
structure Seen (routes : Addr → Addr → Option Peer) (segments : List (List UInt8)) (s : Sorted Peer) : Prop where
  assigned : s.assigned = segments.map fun raw => (raw, selected routes raw)
  counts : ∀ peer, s.counts peer = (share routes segments peer).length
  order : s.order.Nodup
  mem_order : ∀ peer, peer ∈ s.order ↔ s.counts peer ≠ 0
  dropped : s.segmentsDropped = segments.countP fun raw => (selected routes raw).isNone

/-- The share of a peer with one more segment. -/
theorem share_append (raw : List UInt8) (peer : Peer) :
    share routes (segments ++ [raw]) peer = share routes segments peer ++ (placed routes peer raw).toList := by
  rw [share, List.filterMap_append, share]
  cases hplaced : placed routes peer raw <;> simp [hplaced]

/-- A segment without a peer is dropped. -/
theorem seen_unselected (h : Seen routes segments s) (hnone : selected routes raw = none) :
    Seen routes (segments ++ [raw])
      { s with assigned := s.assigned ++ [(raw, none)], segmentsDropped := s.segmentsDropped + 1 } where
  assigned := by rw [h.assigned, List.map_append, List.map_singleton, hnone]
  counts peer := by rw [share_append, placed, hnone, h.counts peer]; simp
  order := h.order
  mem_order := h.mem_order
  dropped := by rw [h.dropped, List.countP_append, List.countP_singleton, hnone]; rfl

/-- A segment with a peer is counted for it. -/
theorem seen_selected (h : Seen routes segments s) {peer : Peer} {nextHeader : UInt8}
    (hsome : selected routes raw = some (peer, nextHeader)) :
    Seen routes (segments ++ [raw]) { s with
      counts := Function.update s.counts peer (s.counts peer + 1)
      order := if s.counts peer = 0 then s.order ++ [peer] else s.order
      assigned := s.assigned ++ [(raw, some (peer, nextHeader))] } where
  assigned := by rw [h.assigned, List.map_append, List.map_singleton, hsome]
  counts q := by
    dsimp only
    rw [share_append, placed, hsome, List.length_append]
    by_cases hq : peer = q
    · subst hq
      rw [Function.update_self, h.counts]
      simp
    · rw [Function.update_of_ne (Ne.symm hq), h.counts]
      simp [hq]
  order := by
    split_ifs with h0
    · refine List.nodup_append.mpr ⟨h.order, List.nodup_singleton peer, fun q hq q' hq' => ?_⟩
      rintro rfl
      rw [List.mem_singleton.mp hq'] at hq
      exact (h.mem_order peer).mp hq h0
    · exact h.order
  mem_order q := by
    dsimp only
    by_cases hq : q = peer
    · subst hq
      rw [Function.update_self]
      refine iff_of_true ?_ (Nat.succ_ne_zero _)
      split_ifs with h0
      · exact List.mem_append_right _ (List.mem_singleton_self q)
      · exact (h.mem_order q).mpr h0
    · rw [Function.update_of_ne hq, ← h.mem_order q]
      split_ifs with h0
      · simp [hq]
      · exact Iff.rfl
  dropped := by rw [h.dropped, List.countP_append, List.countP_singleton, hsome]; rfl

/-- Sorting one segment. -/
theorem seen_sort (h : Seen routes segments s) (raw : List UInt8) : Seen routes (segments ++ [raw]) (s.sort routes raw) := by
  rw [Sorted.sort]
  cases haddrs : addrsOf raw with
  | none => exact seen_unselected h (by rw [selected, haddrs]; rfl)
  | some addrs =>
    obtain ⟨src, dst, nextHeader⟩ := addrs
    dsimp only
    cases hroute : routes src dst with
    | none => exact seen_unselected h (by rw [selected, haddrs, Option.bind_some, hroute]; rfl)
    | some peer => exact seen_selected h (by rw [selected, haddrs, Option.bind_some, hroute]; rfl)

/-- Sorting them all. -/
theorem seen_all (segments : List (List UInt8)) : Seen routes segments (segments.foldl (Sorted.sort routes) {}) := by
  induction segments using List.reverseRecOn with
  | nil => exact ⟨rfl, fun _ => rfl, List.nodup_nil, by simp, rfl⟩
  | append_singleton segments raw ih =>
    rw [List.foldl_append]
    exact seen_sort ih raw

/-! ### The peers' shares -/

/-- A segment is placed with one peer. -/
theorem length_placed {q : Peer} {nextHeader : UInt8} (h : selected routes raw = some (q, nextHeader)) (peer : Peer) :
    (placed routes peer raw).toList.length = if peer = q then 1 else 0 := by
  rw [placed, h, Option.bind_some]
  by_cases hq : q = peer
  · simp [hq]
  · simp [hq, Ne.symm hq]

/-- One peer of the order is counted. -/
theorem sum_indicator (hnodup : order.Nodup) {q : Peer} (hq : q ∈ order) :
    (order.map fun peer => if peer = q then 1 else 0).sum = 1 := by
  induction order with
  | nil => cases hq
  | cons peer rest ih =>
    obtain ⟨hnot, hrest⟩ := List.nodup_cons.mp hnodup
    rw [List.map_cons, List.sum_cons]
    rcases List.mem_cons.mp hq with rfl | hmem
    · have hzero : (rest.map fun peer => if peer = q then 1 else 0).sum = 0 :=
        List.sum_eq_zero fun x hx => by
          obtain ⟨peer, hpeer, rfl⟩ := List.mem_map.mp hx
          have hne : peer ≠ q := fun heq => hnot (heq ▸ hpeer)
          exact if_neg hne
      rw [if_pos rfl, hzero]
    · have hne : peer ≠ q := fun heq => hnot (heq ▸ hmem)
      rw [if_neg hne, ih hrest hmem]

/-- Every packet is in one share, or selects no peer. -/
theorem sum_shares (hnodup : order.Nodup) (segments : List (List UInt8))
    (hall : ∀ raw ∈ segments, ∀ target ∈ selected routes raw, target.1 ∈ order) :
    (order.map fun peer => (share routes segments peer).length).sum + segments.countP (fun raw => (selected routes raw).isNone) =
      segments.length := by
  induction segments using List.reverseRecOn with
  | nil => simp [share]
  | append_singleton segments raw ih =>
    have hbefore := ih fun raw hraw => hall raw (List.mem_append_left _ hraw)
    have hsplit : (order.map fun peer => (share routes (segments ++ [raw]) peer).length).sum =
        (order.map fun peer => (share routes segments peer).length).sum +
          (order.map fun peer => (placed routes peer raw).toList.length).sum := by
      rw [← List.sum_map_add]
      simp only [share_append, List.length_append]
    rw [hsplit, List.countP_append, List.countP_singleton, List.length_append, List.length_singleton]
    cases hselected : selected routes raw with
    | none =>
      have hzero : (order.map fun peer => (placed routes peer raw).toList.length).sum = 0 := by simp [placed, hselected]
      rw [hzero, Option.isNone_none, if_pos rfl]
      omega
    | some target =>
      have hone : (order.map fun peer => (placed routes peer raw).toList.length).sum = 1 := by
        simp only [length_placed hselected]
        exact sum_indicator hnodup (hall raw (List.mem_append_right _ (List.mem_singleton_self raw)) target hselected)
      rw [hone, Option.isNone_some, if_neg (by simp)]
      omega

/-- Every segment is counted once, or dropped. -/
theorem seen_total (h : Seen routes segments s) : (s.order.map s.counts).sum + s.segmentsDropped = segments.length := by
  have hall : ∀ raw ∈ segments, ∀ target ∈ selected routes raw, target.1 ∈ s.order := by
    intro raw hraw target htarget
    rw [h.mem_order, h.counts, Ne, List.length_eq_zero_iff, share, List.filterMap_eq_nil_iff]
    intro hnone
    have hplaced := hnone raw hraw
    rw [placed, show selected routes raw = some target from htarget, Option.bind_some, if_pos rfl] at hplaced
    cases hplaced
  rw [h.dropped, show s.counts = fun peer => (share routes segments peer).length from funext h.counts]
  exact sum_shares h.order segments hall

/-! ### The other passes -/

variable {reserve : Peer → Nat → Bool} {accepts : Peer → Batch → Bool} {counts : Peer → Nat}

/-- What is reserved for each peer, and what was refused. -/
theorem reservePeers_eq (reserve : Peer → Nat → Bool) (counts : Peer → Nat) (order : List Peer) :
    (∀ peer, (reservePeers reserve counts order).1 peer =
        if peer ∈ order ∧ reserve peer (counts peer) = true then some [] else none) ∧
      (reservePeers reserve counts order).2 = ((order.filter fun peer => !reserve peer (counts peer)).map counts).sum := by
  induction order using List.reverseRecOn with
  | nil => exact ⟨fun peer => by simp [reservePeers], rfl⟩
  | append_singleton order q ih =>
    obtain ⟨hbatches, hdropped⟩ := ih
    rw [reservePeers, List.foldl_append, ← reservePeers, List.foldl_cons, List.foldl_nil]
    by_cases hq : reserve q (counts q) = true
    · rw [if_pos hq]
      refine ⟨fun peer => ?_, by simp [List.filter_append, hq, hdropped]⟩
      dsimp only
      by_cases hpeer : peer = q
      · subst hpeer
        rw [Function.update_self, if_pos ⟨by simp, hq⟩]
      · rw [Function.update_of_ne hpeer, hbatches]
        simp [hpeer]
    · rw [if_neg hq]
      refine ⟨fun peer => ?_, by simp [List.filter_append, hq, hdropped]⟩
      dsimp only
      rw [hbatches]
      by_cases hpeer : peer = q
      · simp [hpeer, hq]
      · simp [hpeer]

/-- A batch that was reserved gets the share of its peer. -/
theorem appendSegments_eq (segments : List (List UInt8)) (batches : Peer → Option Batch) (peer : Peer) :
    (segments.map fun raw => (raw, selected routes raw)).foldl appendSegment batches peer =
      (batches peer).map (· ++ share routes segments peer) := by
  induction segments using List.reverseRecOn generalizing peer with
  | nil => simp [share]
  | append_singleton segments raw ih =>
    rw [List.map_append, List.foldl_append, List.map_singleton, List.foldl_cons, List.foldl_nil, share_append, appendSegment]
    dsimp only
    cases hselected : selected routes raw with
    | none => simp [placed, hselected, ih]
    | some target =>
      obtain ⟨q, nextHeader⟩ := target
      dsimp only
      by_cases hpeer : peer = q
      · subst hpeer
        rw [ih peer]
        cases hbatch : batches peer with
        | none => simp [ih, hbatch]
        | some batch => simp [placed, hselected]
      · have hplaced : placed routes peer raw = none := by simp [placed, hselected, Ne.symm hpeer]
        cases hq : (segments.map fun raw => (raw, selected routes raw)).foldl appendSegment batches q with
        | none => simp [ih, hplaced]
        | some batch => simp [Function.update_of_ne hpeer, ih, hplaced]

/-- The batches that were reserved are enqueued or dropped. -/
theorem enqueueAll_eq (accepts : Peer → Batch → Bool) {batches : Peer → Option Batch}
    (h : ∀ peer ∈ order, batches peer = if reserve peer (counts peer) = true then some (share routes segments peer) else none)
    (f : Forwarding Peer) :
    let on := order.filter fun peer => reserve peer (counts peer) && accepts peer (share routes segments peer)
    let off := order.filter fun peer => reserve peer (counts peer) && !accepts peer (share routes segments peer)
    order.foldl (Forwarding.enqueue accepts counts batches) f =
      { sent := f.sent ++ on.map fun peer => (peer, share routes segments peer)
        lost := f.lost ++ off.map fun peer => (peer, share routes segments peer)
        segmentsForwarded := f.segmentsForwarded + (on.map counts).sum
        segmentsDropped := f.segmentsDropped + (off.map counts).sum } := by
  induction order generalizing f with
  | nil => simp
  | cons peer rest ih =>
    have hrest := ih fun q hq => h q (List.mem_cons_of_mem _ hq)
    have hpeer := h peer List.mem_cons_self
    dsimp only at hrest ⊢
    rw [List.foldl_cons, hrest, Forwarding.enqueue, hpeer]
    cases hreserve : reserve peer (counts peer) with
    | false => simp [hreserve]
    | true =>
      cases haccepts : accepts peer (share routes segments peer) <;> simp [hreserve, haccepts, Nat.add_assoc]

/-- Each peer is refused a place, or its batch is sent, or lost. -/
theorem sum_three {α : Type} (f : α → Nat) (a b : α → Bool) (order : List α) :
    ((order.filter fun peer => !a peer).map f).sum + ((order.filter fun peer => a peer && b peer).map f).sum +
      ((order.filter fun peer => a peer && !b peer).map f).sum = (order.map f).sum := by
  induction order with
  | nil => rfl
  | cons peer rest ih => cases ha : a peer <;> cases hb : b peer <;> simp [ha, hb] <;> omega

variable (routes reserve accepts)

/-- What `forwardSegments` sends, loses and counts. -/
theorem forwardSegments_eq (segments : List (List UInt8)) :
    ∃ order : List Peer, order.Nodup ∧ (∀ peer, peer ∈ order ↔ share routes segments peer ≠ []) ∧
      let count := fun peer => (share routes segments peer).length
      let on := order.filter fun peer => reserve peer (count peer) && accepts peer (share routes segments peer)
      let off := order.filter fun peer => reserve peer (count peer) && !accepts peer (share routes segments peer)
      let f := forwardSegments routes reserve accepts segments
      f.sent = on.map (fun peer => (peer, share routes segments peer)) ∧
        f.lost = off.map (fun peer => (peer, share routes segments peer)) ∧
        f.segmentsForwarded = (on.map count).sum ∧ f.segmentsForwarded + f.segmentsDropped = segments.length := by
  have hseen : Seen routes segments (segments.foldl (Sorted.sort routes) {}) := seen_all segments
  rw [forwardSegments]
  generalize segments.foldl (Sorted.sort routes) {} = s at hseen ⊢
  have hcounts : s.counts = fun peer => (share routes segments peer).length := funext hseen.counts
  obtain ⟨hreserved, hrefused⟩ := reservePeers_eq reserve s.counts s.order
  have htotal := seen_total hseen
  refine ⟨s.order, hseen.order, fun peer => ?_, ?_⟩
  · rw [hseen.mem_order, hseen.counts, Ne, List.length_eq_zero_iff]
  have hbatches : ∀ peer ∈ s.order, s.assigned.foldl appendSegment (reservePeers reserve s.counts s.order).1 peer =
      if reserve peer (s.counts peer) = true then some (share routes segments peer) else none := by
    intro peer hpeer
    rw [hseen.assigned, appendSegments_eq, hreserved]
    by_cases hreserve : reserve peer (s.counts peer) = true
    · rw [if_pos ⟨hpeer, hreserve⟩, if_pos hreserve]
      rfl
    · rw [if_neg fun h => hreserve h.2, if_neg hreserve]
      rfl
  have hall := enqueueAll_eq accepts hbatches
    { segmentsDropped := s.segmentsDropped + (reservePeers reserve s.counts s.order).2 }
  have hsplit := sum_three s.counts (fun peer => reserve peer (s.counts peer))
    (fun peer => accepts peer (share routes segments peer)) s.order
  dsimp only at hall hsplit ⊢
  rw [hall, hrefused]
  rw [hcounts] at hsplit htotal ⊢
  refine ⟨by simp, by simp, by simp, ?_⟩
  dsimp only at hsplit htotal ⊢
  omega

/-! ### The loop over the batch -/

variable {table : Option LocalTable} {packets before : List (List UInt8)} {s : Applying}

/-- What the loop of `applySegments` knows after some packets of the batch. -/
structure Kept (table : Option LocalTable) (packets before : List (List UInt8)) (s : Applying) : Prop where
  deliver : s.deliver.getD before = packets.filterMap (delivery table)
  forward : s.forward = packets.filterMap (sentOn table)
  counted : s.segmentsDelivered + s.segmentsDropped + s.forward.length =
    packets.countP fun packet => (behaviorOf table packet).isSome

/-- One packet of a batch. -/
theorem kept_act (h : Kept table packets before s) (packet : List UInt8) :
    Kept table (packets ++ [packet]) (before ++ [(actLocally table packet).1]) (s.act before (actLocally table packet)) := by
  have hpass : (actLocally table packet).2 = .pass ↔ behaviorOf table packet = none := actLocally_pass_iff
  have hsome : ∀ result, (actLocally table packet).2 = result → result ≠ .pass → (behaviorOf table packet).isSome = true := by
    intro result hresult hne
    rw [Option.isSome_iff_ne_none]
    intro hnone
    exact hne (hresult ▸ hpass.mpr hnone)
  have hdeliver := h.deliver
  have hforward := h.forward
  have hcounted := h.counted
  cases hresult : (actLocally table packet).2 with
  | pass =>
    have hnone : behaviorOf table packet = none := hpass.mp hresult
    have hpacket : (actLocally table packet).1 = packet := by rw [actLocally_of_none hnone]
    refine ⟨?_, ?_, ?_⟩
    · cases hs : s.deliver <;> simp_all [Applying.act, delivery]
    · simp [Applying.act, sentOn, hresult, hforward]
    · simp [Applying.act, hresult, hnone, hcounted]
  | deliver | forward | drop =>
    have hlocal := hsome _ hresult (by simp)
    refine ⟨?_, ?_, ?_⟩
    · simp [Applying.act, delivery, hresult, hdeliver]
    · simp [Applying.act, sentOn, hresult, hforward]
    · simp [Applying.act, hresult, hlocal, ← hcounted]
      omega

/-- The packets of a batch. -/
theorem kept_loop (h : Kept table packets before s) (rest : List (List UInt8)) :
    Kept table (packets ++ rest) (applyLoop table before rest s).1 (applyLoop table before rest s).2 := by
  induction rest generalizing packets before s with
  | nil => rwa [List.append_nil]
  | cons packet rest ih =>
    rw [applyLoop, List.append_cons]
    exact ih (kept_act h packet)

/-- What is delivered locally of a packet. -/
theorem delivery_iff {packet out : List UInt8} : delivery table packet = some out ↔ behaviorOf table packet = none ∧ out = packet ∨
    ∃ n raw' family, Consumes table n packet raw' ∧ behaviorOf table raw' = some .endDT46 ∧ decap raw' = .ok (out, family) := by
  have hends : (∃ n raw' family, Consumes table n packet raw' ∧ behaviorOf table raw' = some .endDT46 ∧
      decap raw' = .ok (out, family)) ↔ ∃ family, (actLocally table packet).2 = .deliver out family := by
    constructor
    · rintro ⟨n, raw', family, h⟩
      exact ⟨family, actLocally_deliver_iff.mpr ⟨n, raw', h⟩⟩
    · rintro ⟨family, h⟩
      obtain ⟨n, raw', h⟩ := actLocally_deliver_iff.mp h
      exact ⟨n, raw', family, h⟩
  rw [hends, ← actLocally_pass_iff, delivery]
  cases (actLocally table packet).2 <;> simp [eq_comm]

/-- What is sent on of a packet. -/
theorem sentOn_iff {packet out : List UInt8} :
    sentOn table packet = some out ↔ ∃ n, 0 < n ∧ Consumes table n packet out ∧ behaviorOf table out = none := by
  rw [← actLocally_forward_iff, sentOn]
  generalize actLocally table packet = result
  obtain ⟨raw', result⟩ := result
  cases result <;> simp

/-- The batches of the peers that are kept. -/
theorem mem_batches (hmem : ∀ peer, peer ∈ order ↔ share routes segments peer ≠ []) (keep : Peer → Batch → Bool)
    (entry : Peer × Batch) :
    entry ∈ (order.filter fun peer => keep peer (share routes segments peer)).map (fun peer => (peer, share routes segments peer)) ↔
      entry.2 = share routes segments entry.1 ∧ entry.2 ≠ [] ∧ keep entry.1 entry.2 = true := by
  rw [List.mem_map]
  constructor
  · rintro ⟨peer, hpeer, rfl⟩
    obtain ⟨hin, hkeep⟩ := List.mem_filter.mp hpeer
    exact ⟨rfl, (hmem peer).mp hin, hkeep⟩
  · rintro ⟨hbatch, hne, hkeep⟩
    rw [hbatch] at hne hkeep
    exact ⟨entry.1, List.mem_filter.mpr ⟨(hmem entry.1).mpr hne, hkeep⟩, Prod.ext rfl hbatch.symm⟩

end SegmentsAux

variable (reserve : Peer → Nat → Bool) (accepts : Peer → Batch → Bool)

/-- For every table, routes, budgets, transport and batch: what is returned is, in order, each packet that is not of this node and
the inner packet of each one that ends here, so the batch itself if none is of this node. A packet that waypoints of this node send on
goes, in order, to the one batch of the peer it selects; a peer's batch is all of that, and it is sent or lost as a whole, if there
was a place for it. The counters together grow by the number of packets of this node. -/
theorem segments_conserved (table : Option LocalTable) (raw : List (List UInt8)) :
    let applied := applySegments routes reserve accepts table raw
    let onward := raw.filterMap (sentOn table)
    let batch := share routes onward
    applied.returned = raw.filterMap (delivery table) ∧
      (∀ packet out, delivery table packet = some out ↔ behaviorOf table packet = none ∧ out = packet ∨
        ∃ n raw' family, Consumes table n packet raw' ∧ behaviorOf table raw' = some .endDT46 ∧ decap raw' = .ok (out, family)) ∧
      ((∀ packet ∈ raw, behaviorOf table packet = none) → applied.returned = raw) ∧
      (∀ packet out, sentOn table packet = some out ↔ ∃ n, 0 < n ∧ Consumes table n packet out ∧ behaviorOf table out = none) ∧
      ((applied.forwarding.sent ++ applied.forwarding.lost).map Prod.fst).Nodup ∧
      (∀ entry, entry ∈ applied.forwarding.sent ↔ entry.2 = batch entry.1 ∧ entry.2 ≠ [] ∧
        reserve entry.1 entry.2.length = true ∧ accepts entry.1 entry.2 = true) ∧
      (∀ entry, entry ∈ applied.forwarding.lost ↔ entry.2 = batch entry.1 ∧ entry.2 ≠ [] ∧
        reserve entry.1 entry.2.length = true ∧ accepts entry.1 entry.2 = false) ∧
      applied.segmentsForwarded = (applied.forwarding.sent.map fun entry => entry.2.length).sum ∧
      applied.segmentsDelivered + applied.segmentsForwarded + applied.segmentsDropped =
        raw.countP fun packet => (behaviorOf table packet).isSome := by
  intro applied onward batch
  have hkept : Kept table raw (applyLoop table [] raw {}).1 (applyLoop table [] raw {}).2 := by
    have hstart : Kept table [] [] {} := ⟨rfl, rfl, rfl⟩
    exact kept_loop hstart raw
  have hforwarding : applied.forwarding = forwardSegments routes reserve accepts onward := by
    rw [show onward = (applyLoop table [] raw {}).2.forward from hkept.forward.symm]
    rfl
  obtain ⟨order, hnodup, hmem, hsent, hlost, hcount, htotal⟩ := forwardSegments_eq routes reserve accepts onward
  rw [← hforwarding] at hsent hlost hcount htotal
  have hreturned : applied.returned = raw.filterMap (delivery table) := hkept.deliver
  refine ⟨hreturned, fun packet out => delivery_iff, ?_, fun packet out => sentOn_iff, ?_, ?_, ?_, ?_, ?_⟩
  · intro hforeign
    rw [hreturned]
    have hself : ∀ packet ∈ raw, delivery table packet = some packet := fun packet hpacket =>
      delivery_iff.mpr (.inl ⟨hforeign packet hpacket, rfl⟩)
    rw [List.filterMap_congr hself, List.filterMap_some]
  · rw [hsent, hlost, List.map_append, List.map_map, List.map_map, List.nodup_append]
    refine ⟨?_, ?_, ?_⟩
    · exact (hnodup.filter _).map fun peer peer' h => h
    · exact (hnodup.filter _).map fun peer peer' h => h
    · intro peer hpeer peer' hpeer'
      simp only [List.mem_map, List.mem_filter, Function.comp_apply, exists_eq_right] at hpeer hpeer'
      rintro rfl
      simp_all
  · intro entry
    rw [hsent, mem_batches routes hmem (fun peer batch => reserve peer batch.length && accepts peer batch) entry, Bool.and_eq_true]
  · intro entry
    rw [hlost, mem_batches routes hmem (fun peer batch => reserve peer batch.length && !accepts peer batch) entry, Bool.and_eq_true,
      Bool.not_eq_true']
  · rw [hsent, List.map_map]
    exact hcount
  · have hcounted := hkept.counted
    rw [show (applyLoop table [] raw {}).2.forward = onward from hkept.forward] at hcounted
    rw [← hcounted, ← htotal]
    show (applyLoop table [] raw {}).2.segmentsDelivered + applied.forwarding.segmentsForwarded +
      ((applyLoop table [] raw {}).2.segmentsDropped + applied.forwarding.segmentsDropped) = _
    omega

end

end RanetLite.Netstack
