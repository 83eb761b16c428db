import RanetLite.Srv6.Header

/-!
# The walk of a segment routed packet

A packet in flight differs from the one that was sent in three places: the hop limit, the destination and the count of segments left.
End moves it to the next segment as long as its hop limit is above one, and at the last segment Decap gives back what was inside. So
a packet whose hop limit is at least the number of segments visits its path in order and is delivered; with less, the waypoint that
finds the hop limit at one refuses it.
-/

namespace RanetLite.Srv6

open Bytes Netip

/-- The outer destination address. -/
def destination (raw : List UInt8) : Addr := .v6 (wordAt 128 raw 24) ""

/-- End applied at a number of waypoints in turn: where each sends the packet, and the packet at the end or the refusal. -/
def walk : Nat → List UInt8 → List Addr × Except SegmentError (List UInt8)
  | 0, raw => ([], .ok raw)
  | n + 1, raw => match endSegment raw with
    | .error e => ([], .error e)
    | .ok (raw', next) => (next :: (walk n raw').1, (walk n raw').2)

namespace Srv6Aux

/-- What stays the same of a packet along its walk. -/
structure Steered where
  /-- Version, traffic class and flow label. -/
  first : List UInt8
  size : List UInt8
  source : BitVec 128
  next : UInt8
  /-- The segments in wire order. -/
  segments : List (BitVec 128)
  inner : List UInt8
  first_length : first.length = 4
  version : first.getD 0 0 >>> 4 = 6
  size_length : size.length = 2
  some_segment : segments ≠ []
  most : segments.length ≤ maxSegments
  payload : inner ≠ []
  family : next = nextHeaderIPv4 ∨ next = nextHeaderIPv6

namespace Steered

/-- The routing header and what is behind it. -/
def routing (p : Steered) (left : UInt8) : List UInt8 :=
  p.next :: UInt8.ofNat (2 * p.segments.length) :: routingTypeSegment :: left :: UInt8.ofNat (p.segments.length - 1) :: 0 :: 0 ::
    0 :: (p.segments.flatMap toBytes ++ p.inner)

/-- The packet in flight, with its hop limit, destination and segments left. -/
def flight (p : Steered) (hop : UInt8) (dest : BitVec 128) (left : UInt8) : List UInt8 :=
  p.first ++ (p.size ++ (nextHeaderRouting :: hop :: (toBytes p.source ++ (toBytes dest ++ p.routing left))))

end Steered

theorem getD_middle {a b : List UInt8} {x : UInt8} {i : Nat} (h : a.length = i) : (a ++ x :: b).getD i 0 = x := by
  rw [List.getD_append_right _ _ _ _ (by omega), h, Nat.sub_self, List.getD_cons_zero]

theorem set_middle {a b : List UInt8} {x y : UInt8} {i : Nat} (h : a.length = i) : (a ++ x :: b).set i y = a ++ y :: b := by
  subst h
  rw [List.set_append_right _ _ (Nat.le_refl _), Nat.sub_self, List.set_cons_zero]

/-- The segments read back from the bytes behind the fixed part. -/
theorem segments_read (segments : List (BitVec 128)) {front : List UInt8} {n : Nat} (hfront : front.length = n)
    (rest : List UInt8) :
    ((List.range segments.length).map fun i => wordAt 128 (front ++ (segments.flatMap toBytes ++ rest)) (n + addrLen * i)) =
      segments := by
  induction segments generalizing front n with
  | nil => rfl
  | cons s segments ih =>
    have hhead : wordAt 128 (front ++ ((s :: segments).flatMap toBytes ++ rest)) (n + addrLen * 0) = s := by
      rw [List.flatMap_cons, List.append_assoc]
      exact wordAt_append s rfl hfront _
    have htail : (front ++ ((s :: segments).flatMap toBytes ++ rest)) =
        (front ++ toBytes s) ++ (segments.flatMap toBytes ++ rest) := by
      simp only [List.flatMap_cons, List.append_assoc]
    have hlen : (front ++ toBytes s).length = n + addrLen := by rw [List.length_append, hfront, length_toBytes, addrLen]
    have hih := ih hlen
    rw [List.length_cons, List.range_succ_eq_map, List.map_cons, hhead, List.map_map, htail]
    congr 1
    refine (List.map_congr_left fun i _ => ?_).trans hih
    rw [Function.comp_apply, Nat.succ_eq_add_one, Nat.mul_add, Nat.mul_one, Nat.add_comm (addrLen * i), Nat.add_assoc]

namespace Steered

variable (p : Steered) (hop : UInt8) (dest : BitVec 128) (left : UInt8) {k : Nat}

/-- The routing header follows. -/
theorem drop_flight : (p.flight hop dest left).drop ipv6HeaderLen = p.routing left := by
  have hsplit : p.flight hop dest left =
      (p.first ++ (p.size ++ (nextHeaderRouting :: hop :: (toBytes p.source ++ toBytes dest)))) ++ p.routing left := by
    simp [flight]
  rw [hsplit]
  exact List.drop_left' (by simp [p.first_length, p.size_length, ipv6HeaderLen])

theorem getD_six : (p.flight hop dest left).getD 6 0 = nextHeaderRouting := by
  rw [flight, ← List.append_assoc]
  exact getD_middle (by rw [List.length_append, p.first_length, p.size_length])

/-- The packet around its hop limit. -/
theorem flight_hop : p.flight hop dest left =
    (p.first ++ (p.size ++ [nextHeaderRouting])) ++ hop :: (toBytes p.source ++ (toBytes dest ++ p.routing left)) := by
  simp [flight]

theorem getD_hop : (p.flight hop dest left).getD 7 0 = hop := by
  rw [flight_hop]
  exact getD_middle (by simp [p.first_length, p.size_length])

/-- A hop rewrites its one byte. -/
theorem set_hop (hop' : UInt8) : (p.flight hop dest left).set 7 hop' = p.flight hop' dest left := by
  rw [flight_hop, flight_hop]
  exact set_middle (by simp [p.first_length, p.size_length])

/-- The packet around its segments left. -/
theorem flight_left : p.flight hop dest left =
    (p.first ++ (p.size ++ (nextHeaderRouting :: hop :: (toBytes p.source ++ (toBytes dest ++
      [p.next, UInt8.ofNat (2 * p.segments.length), routingTypeSegment]))))) ++
      left :: (UInt8.ofNat (p.segments.length - 1) :: 0 :: 0 :: 0 :: (p.segments.flatMap toBytes ++ p.inner)) := by
  simp [flight, routing]

/-- Segments left is one byte too. -/
theorem set_left (left' : UInt8) : (p.flight hop dest left).set (ipv6HeaderLen + 3) left' = p.flight hop dest left' := by
  rw [flight_left, flight_left]
  exact set_middle (by simp [p.first_length, p.size_length, ipv6HeaderLen])

/-- The packet around its destination. -/
theorem flight_dest : p.flight hop dest left =
    (p.first ++ (p.size ++ (nextHeaderRouting :: hop :: toBytes p.source))) ++ (toBytes dest ++ p.routing left) := by
  simp [flight]

theorem length_before_dest : (p.first ++ (p.size ++ (nextHeaderRouting :: hop :: toBytes p.source))).length = 24 := by
  simp [p.first_length, p.size_length]

/-- The destination is overwritten in place. -/
theorem write_dest (dest' : BitVec 128) :
    Buffer.write (p.flight hop dest left) 24 (toBytes dest') = p.flight hop dest' left := by
  rw [flight_dest, flight_dest]
  exact Buffer.write_middle (p.length_before_dest hop) (by rw [length_toBytes, length_toBytes])

/-- The destination reads back. -/
theorem destination_flight : destination (p.flight hop dest left) = .v6 dest "" := by
  rw [destination, flight_dest, wordAt_append dest rfl (p.length_before_dest hop)]

/-- The packet is long enough and of version six. -/
theorem flight_ipv6 : ¬((p.flight hop dest left).length < ipv6HeaderLen ∨ (p.flight hop dest left).getD 0 0 >>> 4 ≠ 6) := by
  rw [not_or, not_not]
  refine ⟨?_, ?_⟩
  · simp [flight, p.first_length, p.size_length, ipv6HeaderLen]
    omega
  · rw [flight, List.getD_append _ _ _ _ (by rw [p.first_length]; omega)]
    exact p.version

theorem toNat_ext : (UInt8.ofNat (2 * p.segments.length)).toNat = 2 * p.segments.length := by
  have hmost := p.most
  rw [maxSegments] at hmost
  exact UInt8.toNat_ofNat_of_lt' (by simp only [UInt8.size]; omega)

/-- The packet parses to its segments. -/
theorem parse_flight (hleft : left.toNat ≤ p.segments.length) :
    ∃ h, parse (p.flight hop dest left) = .ok h ∧ h.segmentsLeft = left ∧ h.segments = (p.segments.map fun a => .v6 a "") ∧
      h.nextHeader = p.next ∧ h.offset = ipv6HeaderLen := by
  have hpos : 0 < p.segments.length := List.length_pos_iff.mpr p.some_segment
  have hmost := p.most
  have hfind : findRouting (p.flight hop dest left) = .ok ipv6HeaderLen := by
    rw [findRouting, getD_six, maxExtensionHeaders, walkHeaders, if_pos rfl]
  have hext := p.toNat_ext
  have hlast : (UInt8.ofNat (p.segments.length - 1)).toNat + 1 = p.segments.length := by
    rw [maxSegments] at hmost
    rw [UInt8.toNat_ofNat_of_lt' (by simp only [UInt8.size]; omega)]
    omega
  have hbytes := length_flatMap16 (fun a : BitVec 128 => length_toBytes a) p.segments
  have hread := @segments_read p.segments [p.next, UInt8.ofNat (2 * p.segments.length), routingTypeSegment, left,
    UInt8.ofNat (p.segments.length - 1), 0, 0, 0] srhFixedLen rfl p.inner
  rw [parse, if_neg (p.flight_ipv6 hop dest left), hfind]
  dsimp only
  rw [drop_flight, parseRouting, routing]
  simp only [List.getD_cons_zero, List.getD_cons_succ, hext, hlast]
  rw [addrLen] at hbytes
  rw [if_neg (by simp [srhFixedLen]), if_neg (by simp),
    if_neg (by simp only [List.length_cons, List.length_append, hbytes, srhFixedLen]; omega), if_neg (by omega),
    if_neg (by omega), if_neg (by omega)]
  refine ⟨_, rfl, rfl, ?_, rfl, rfl⟩
  have hsegments := congrArg (List.map fun a => Addr.v6 a "") hread
  rw [List.map_map] at hsegments
  exact hsegments

/-- End moves the packet to the next segment, when its hop limit is above one. -/
theorem endSegment_flight (hk : k < p.segments.length) :
    endSegment (p.flight hop dest (UInt8.ofNat (k + 1))) =
      if hop ≤ 1 then .error .hopLimit
      else .ok (p.flight (hop - 1) (p.segments.getD k 0) (UInt8.ofNat k), .v6 (p.segments.getD k 0) "") := by
  have hmost := p.most
  rw [maxSegments] at hmost
  have hnat : (UInt8.ofNat (k + 1)).toNat = k + 1 := UInt8.toNat_ofNat_of_lt' (by simp only [UInt8.size]; omega)
  have hnat' : (UInt8.ofNat k).toNat = k := UInt8.toNat_ofNat_of_lt' (by simp only [UInt8.size]; omega)
  have h0 : UInt8.ofNat (k + 1) ≠ 0 := fun h => by
    rw [h] at hnat
    exact absurd hnat (by simp)
  have hpred : UInt8.ofNat (k + 1) - 1 = UInt8.ofNat k := by
    apply UInt8.toNat_inj.mp
    rw [UInt8.toNat_sub_of_le _ _ (UInt8.le_iff_toNat_le.mpr (by rw [hnat]; simp)), hnat, hnat']
    rfl
  obtain ⟨h, hparse, hl, hsegs, -, hoff⟩ := p.parse_flight hop dest (UInt8.ofNat (k + 1)) (by omega)
  have hnext : (p.segments.map fun a => Addr.v6 a "").getD k .zero = .v6 (p.segments.getD k 0) "" := by
    rw [List.getD_eq_getElem _ _ (by rw [List.length_map]; exact hk), List.getElem_map, List.getD_eq_getElem _ _ hk]
  rw [endSegment, hparse]
  simp only [hl, hoff, hsegs, hpred, hnat', hnext, addr16, Addr.as16, getD_hop, set_hop, set_left, write_dest]
  rw [if_neg h0]

/-- Decap at the last segment gives back the inner packet and its family. -/
theorem decap_flight : decap (p.flight hop dest 0) = .ok (p.inner, p.next) := by
  obtain ⟨h, hparse, hl, -, hn, hoff⟩ := p.parse_flight hop dest 0 (Nat.zero_le _)
  have hext : (p.flight hop dest 0).getD (ipv6HeaderLen + 1) 0 = UInt8.ofNat (2 * p.segments.length) := by
    have hdrop := congrArg (fun bs => bs.getD 1 0) (p.drop_flight hop dest 0)
    simp only [List.getD_eq_getElem?_getD, List.getElem?_drop] at hdrop ⊢
    exact hdrop
  have hbehind : (p.flight hop dest 0).drop (ipv6HeaderLen + (srhFixedLen + extensionUnit * (2 * p.segments.length))) = p.inner := by
    rw [← List.drop_drop, drop_flight, routing]
    have hlen : (p.next :: UInt8.ofNat (2 * p.segments.length) :: routingTypeSegment :: 0 ::
        UInt8.ofNat (p.segments.length - 1) :: 0 :: 0 :: 0 :: p.segments.flatMap toBytes).length =
        srhFixedLen + extensionUnit * (2 * p.segments.length) := by
      have hbytes := length_flatMap16 (fun a : BitVec 128 => length_toBytes a) p.segments
      rw [addrLen] at hbytes
      simp only [List.length_cons, hbytes, srhFixedLen, extensionUnit]
      omega
    exact List.drop_left' hlen
  have hpayload : ¬(p.flight hop dest 0).length ≤ ipv6HeaderLen + (srhFixedLen + extensionUnit * (2 * p.segments.length)) := by
    intro hle
    rw [List.drop_of_length_le hle] at hbehind
    exact p.payload hbehind.symm
  rw [decap, if_neg (p.flight_ipv6 hop dest 0), hparse]
  simp only [hl, hoff, hn, hext, p.toNat_ext]
  rw [if_neg (by simp), deliver, if_neg (by rcases p.family with h | h <;> simp [h]), Nat.add_assoc, if_neg hpayload, hbehind]

/-- The waypoints still ahead of a packet with enough hop limit are visited in order. -/
theorem walk_flight (hk : k < p.segments.length) (hhop : k < hop.toNat) :
    ∃ hop' dest', walk k (p.flight hop dest (UInt8.ofNat k)) =
      ((p.segments.take k).reverse.map fun a => .v6 a "", .ok (p.flight hop' dest' 0)) := by
  induction k generalizing hop dest with
  | zero => exact ⟨hop, dest, rfl⟩
  | succ k ih =>
    have hstep := p.endSegment_flight hop dest (show k < p.segments.length by omega)
    have hsub : (hop - 1).toNat = hop.toNat - 1 := UInt8.toNat_sub_of_le _ _ (UInt8.le_iff_toNat_le.mpr (by simp; omega))
    rw [if_neg (by rw [UInt8.le_iff_toNat_le]; simp; omega)] at hstep
    obtain ⟨hop', dest', hwalk⟩ := ih (hop - 1) (p.segments.getD k 0) (by omega) (by omega)
    refine ⟨hop', dest', ?_⟩
    rw [walk, hstep]
    dsimp only
    rw [hwalk, List.take_succ_eq_append_getElem (by omega), List.reverse_append, List.getD_eq_getElem _ _ (by omega)]
    rfl

/-- With less, the waypoint that finds the hop limit at one refuses the packet, and none before it does. -/
theorem walk_flight_refused (hk : k < p.segments.length) (hpos : 0 < k) (hhop : hop.toNat ≤ k) :
    walk k (p.flight hop dest (UInt8.ofNat k)) =
      (((p.segments.take k).reverse.take (hop.toNat - 1)).map fun a => .v6 a "", .error .hopLimit) := by
  induction k generalizing hop dest with
  | zero => exact absurd hpos (by simp)
  | succ k ih =>
    have hstep := p.endSegment_flight hop dest (show k < p.segments.length by omega)
    by_cases hone : hop.toNat ≤ 1
    · rw [if_pos (by rw [UInt8.le_iff_toNat_le]; simpa using hone)] at hstep
      rw [walk, hstep, Nat.sub_eq_zero_of_le hone]
      rfl
    · have hsub : (hop - 1).toNat = hop.toNat - 1 := UInt8.toNat_sub_of_le _ _ (UInt8.le_iff_toNat_le.mpr (by simp; omega))
      rw [if_neg (by rw [UInt8.le_iff_toNat_le]; simpa using hone)] at hstep
      have hwalk := ih (hop - 1) (p.segments.getD k 0) (by omega) (by omega) (by omega)
      rw [walk, hstep]
      dsimp only
      rw [hwalk, hsub, List.take_succ_eq_append_getElem (by omega), List.reverse_append,
        List.getD_eq_getElem _ _ (show k < p.segments.length by omega)]
      obtain ⟨n, hn⟩ : ∃ n, hop.toNat - 1 = n + 1 := ⟨hop.toNat - 2, by omega⟩
      rw [hn]
      rfl

end Steered

/-- A usable address is a plain IPv6 one. -/
theorem usable_v6 {a : Addr} (h : usable a = true) : ∃ b, a = .v6 b "" := by
  cases a with
  | zero => cases h
  | v4 b => cases h
  | v6 b z =>
    simp only [usable, Bool.and_eq_true, beq_iff_eq] at h
    exact ⟨b, by rw [h.1.1.2]⟩

theorem path_v6 {path : List Addr} (h : ∀ a ∈ path, usable a = true) : ∃ bs : List (BitVec 128), path = bs.map fun b => .v6 b "" := by
  induction path with
  | nil => exact ⟨[], rfl⟩
  | cons a path ih =>
    obtain ⟨b, rfl⟩ := usable_v6 (h a (by simp))
    obtain ⟨bs, rfl⟩ := ih fun c hc => h c (by simp [hc])
    exact ⟨b :: bs, rfl⟩

/-- A usable path passes its check. -/
theorem checkPath_none {source : Addr} {path : List Addr} (hsource : usable source = true) (hne : path ≠ [])
    (hmost : path.length ≤ maxSegments) (hpath : ∀ a ∈ path, usable a = true) : checkPath source path = none := by
  rw [checkPath, if_neg (by simpa using hne), if_neg (by omega), if_neg (by simp [hsource]), Option.map_eq_none_iff, List.find?_eq_none]
  intro a ha
  simp [hpath a ha]

/-- The hop limit an inner packet gets. -/
def outerHop (inner : List UInt8) (family : UInt8) : UInt8 := if family = nextHeaderIPv6 then inner.getD 7 0 else defaultHopLimit

/-- The first four bytes of the outer header are of version six. -/
theorem outer_first {inner : List UInt8} {family : UInt8}
    (h : family = nextHeaderIPv4 ∨ family = nextHeaderIPv6 ∧ inner.getD 0 0 >>> 4 = 6 ∧ ipv6HeaderLen ≤ inner.length) :
    (if family = nextHeaderIPv6 then inner.take 4 else [0x60, 0, 0, 0]).length = 4 ∧
      (if family = nextHeaderIPv6 then inner.take 4 else [0x60, 0, 0, 0]).getD 0 0 >>> 4 = 6 := by
  rcases h with rfl | ⟨rfl, hsix, hlen⟩
  · rw [if_neg (by decide)]
    decide
  · rw [if_pos rfl, ← hsix]
    rw [ipv6HeaderLen] at hlen
    refine ⟨by rw [List.length_take]; omega, ?_⟩
    cases inner with
    | nil => exact absurd hlen (by simp)
    | cons b bs => rfl

/-- The packet that is sent is a packet in flight to its first waypoint. -/
theorem encapsulate_flight {inner : List UInt8} {family : UInt8} {source first : BitVec 128} {rest : List (BitVec 128)}
    (hcheck : checkPath (.v6 source "") ((first :: rest).map fun b => .v6 b "") = none) (hmost : rest.length < maxSegments)
    (hinner : innerNextHeader inner = .ok family) (hfit : srhFixedLen + addrLen * (rest.length + 1) + inner.length ≤ 0xffff) :
    ∃ p : Steered, p.segments = (first :: rest).reverse ∧ p.inner = inner ∧ p.next = family ∧
      encapsulate inner (.v6 source "") ((first :: rest).map fun b => .v6 b "") =
        .ok (p.flight (outerHop inner family) first (UInt8.ofNat rest.length)) := by
  have hsend : encapsulate inner (.v6 source "") ((first :: rest).map fun b => .v6 b "") =
      .ok (writeOuter inner family (.v6 source "") ((first :: rest).map fun b => .v6 b "") ++ inner) := by
    rw [encapsulate, hcheck, hinner]
    dsimp only
    rw [if_neg (by rw [List.length_map, List.length_cons]; omega)]
  have hlast : (UInt8.ofNat rest.length).toNat = rest.length := by
    rw [maxSegments] at hmost
    exact UInt8.toNat_ofNat_of_lt' (by simp only [UInt8.size]; omega)
  have hdest : ((first :: rest).map fun b => Addr.v6 b "").reverse.getD rest.length .zero = .v6 first "" := by
    rw [List.map_cons, List.reverse_cons, List.getD_append_right _ _ _ _ (by simp)]
    simp
  have hbytes : ((first :: rest).map fun b => Addr.v6 b "").reverse.flatMap addr16 = (first :: rest).reverse.flatMap toBytes := by
    rw [← List.map_reverse, List.flatMap_map]
    rfl
  obtain ⟨hpayload, hfamily⟩ := innerNextHeader_ok hinner
  refine ⟨{
    first := if family = nextHeaderIPv6 then inner.take 4 else [0x60, 0, 0, 0]
    size := toBytes (BitVec.ofNat 16 (srhFixedLen + addrLen * (rest.length + 1) + inner.length))
    source := source, next := family, segments := (first :: rest).reverse, inner := inner
    first_length := (outer_first hfamily).1, version := (outer_first hfamily).2, size_length := length_toBytes _
    some_segment := by simp
    most := by rw [List.length_reverse]; exact hmost
    payload := hpayload, family := hfamily.imp_right And.left }, rfl, rfl, rfl, ?_⟩
  rw [hsend, writeOuter]
  simp only [List.length_reverse, List.length_map, List.length_cons, Nat.add_sub_cancel, hlast, hdest, hbytes, Steered.flight,
    Steered.routing, outerHop, addr16, Addr.as16, List.append_assoc, List.cons_append]

end Srv6Aux

open Srv6Aux

/-- A packet steered over a path of usable segments visits them in order and is delivered with its family, when its hop limit is at
least their number. With less, a waypoint of a path of two or more refuses it with the hop limit, the ones before it having been
visited in order. -/
theorem segment_walk (inner : List UInt8) (family : UInt8) (source : Addr) (path : List Addr) (hsource : usable source = true)
    (hne : path ≠ []) (hmost : path.length ≤ maxSegments) (hpath : ∀ a ∈ path, usable a = true)
    (hinner : innerNextHeader inner = .ok family) (hfit : srhFixedLen + addrLen * path.length + inner.length ≤ 0xffff) :
    ∃ out, encapsulate inner source path = .ok out ∧
      out.getD 7 0 = (if family = nextHeaderIPv6 then inner.getD 7 0 else defaultHopLimit) ∧
      (path.length ≤ (out.getD 7 0).toNat →
        destination out :: (walk (path.length - 1) out).1 = path ∧
        ∃ last, (walk (path.length - 1) out).2 = .ok last ∧ decap last = .ok (inner, family)) ∧
      ((out.getD 7 0).toNat < path.length → 2 ≤ path.length →
        destination out :: (walk (path.length - 1) out).1 = path.take (max 1 (out.getD 7 0).toNat) ∧
        (walk (path.length - 1) out).2 = .error .hopLimit) := by
  have hcheck := checkPath_none hsource hne hmost hpath
  obtain ⟨source, rfl⟩ := usable_v6 hsource
  obtain ⟨bs, rfl⟩ := path_v6 hpath
  cases bs with
  | nil => exact absurd rfl hne
  | cons first rest =>
    simp only [List.length_map, List.length_cons, Nat.add_sub_cancel] at hmost hfit ⊢
    obtain ⟨p, hsegments, hpi, hpn, hout⟩ := encapsulate_flight hcheck (by omega) hinner hfit
    have hlen : rest.length < p.segments.length := by simp [hsegments]
    -- The waypoints ahead of the first are the rest of the path.
    have hahead : (p.segments.take rest.length).reverse = rest := by
      rw [hsegments, List.reverse_cons, List.take_left' (by simp), List.reverse_reverse]
    refine ⟨_, hout, p.getD_hop .., ?_, ?_⟩
    · intro hhop
      rw [p.getD_hop] at hhop
      obtain ⟨hop', dest', hwalk⟩ := p.walk_flight (outerHop inner family) first hlen (by omega)
      rw [hwalk, hahead, p.destination_flight]
      refine ⟨rfl, _, rfl, ?_⟩
      rw [p.decap_flight, hpi, hpn]
    · intro hhop htwo
      rw [p.getD_hop] at hhop ⊢
      rw [p.walk_flight_refused (outerHop inner family) first hlen (by omega) (by omega), hahead, p.destination_flight]
      refine ⟨?_, rfl⟩
      obtain ⟨n, hn⟩ : ∃ n, max 1 (outerHop inner family).toNat = n + 1 ∧ (outerHop inner family).toNat - 1 = n :=
        ⟨(outerHop inner family).toNat - 1, by omega, rfl⟩
      rw [hn.1, hn.2, List.map_cons, List.take_succ_cons, List.map_take]

/-- An IPv4 packet over two segments is delivered, and an IPv6 packet with one hop left is refused at the first of them. -/
theorem segment_walk_two :
    (∃ out last, encapsulate (0x45 :: List.replicate 19 0) (.v6 1#128 "") [.v6 2#128 "", .v6 3#128 ""] = .ok out ∧
      destination out :: (walk 1 out).1 = [.v6 2#128 "", .v6 3#128 ""] ∧ (walk 1 out).2 = .ok last ∧
      decap last = .ok (0x45 :: List.replicate 19 0, nextHeaderIPv4)) ∧
    ∃ out, encapsulate (0x60 :: List.replicate 6 0 ++ 1 :: List.replicate 32 0) (.v6 1#128 "") [.v6 2#128 "", .v6 3#128 ""] = .ok out ∧
      (walk 1 out).2 = .error .hopLimit := by
  constructor
  · obtain ⟨out, hout, hhop, henough, -⟩ := segment_walk (0x45 :: List.replicate 19 0) nextHeaderIPv4 (.v6 1#128 "")
      [.v6 2#128 "", .v6 3#128 ""] (by decide) (by decide) (by decide) (by decide) (by rfl) (by decide)
    obtain ⟨hvisited, last, hlast, hdecap⟩ := henough (by rw [hhop]; decide)
    exact ⟨out, last, hout, hvisited, hlast, hdecap⟩
  · obtain ⟨out, hout, hhop, -, hless⟩ := segment_walk (0x60 :: List.replicate 6 0 ++ 1 :: List.replicate 32 0) nextHeaderIPv6
      (.v6 1#128 "") [.v6 2#128 "", .v6 3#128 ""] (by decide) (by decide) (by decide) (by decide) (by rfl) (by decide)
    exact ⟨out, hout, (hless (by rw [hhop]; decide) (by decide)).2⟩

end RanetLite.Srv6
