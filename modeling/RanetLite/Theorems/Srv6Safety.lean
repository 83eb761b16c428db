import RanetLite.Srv6.Checked

/-!
# Packets of a peer are read within their bounds

Every function with its bounds checks is the plain function, so no packet makes one of them panic. A waypoint that refuses a packet has
not touched it, and one that sends it on has changed three fields and nothing that `Parse` goes by. An exit delivers what is behind
the headers it has read.
-/

namespace RanetLite.Srv6

open Bytes Netip Buffer OnesComplement RanetLite.Checked

/-- What `End` returns, beside the packet as it is left. -/
def endResult (raw : List UInt8) : Except SegmentError (List UInt8 × Addr) → List UInt8 × Except SegmentError Addr
  | .error e => (raw, .error e)
  | .ok (raw', next) => (raw', .ok next)

/-- How long the headers are that `Decap` takes off a packet: the fixed one, and everything up to the end of a routing header it acts
on. -/
def outerLen (raw : List UInt8) : Nat :=
  match parse raw with
  | .ok header => header.offset + srhFixedLen + extensionUnit * (raw.getD (header.offset + 1) 0).toNat
  | .error _ => ipv6HeaderLen

namespace SafetyAux

variable {raw srh : List UInt8} {n offset i : Nat}

/-! ## Nothing panics -/

/-- The walk over the extension headers stays within the packet. -/
theorem walkHeaders_checked (raw : List UInt8) (n : Nat) (next : UInt8) (offset : Nat) :
    Checked.walkHeaders raw n next offset = some (walkHeaders raw n next offset) := by
  induction n generalizing next offset with
  | zero => rfl
  | succ n ih =>
    rw [Checked.walkHeaders, walkHeaders]
    refine ite_of_not fun _ => ite_of_not fun _ => ite_of_not fun _ => ite_of_not fun hshort => ?_
    have hin : offset + 8 ≤ raw.length := Nat.le_of_not_lt hshort
    rw [bind_of_eq (index_of_lt (show offset < raw.length by omega) 0),
      bind_of_eq (index_of_lt (show offset + 1 < raw.length by omega) 0)]
    exact ite_of_not fun _ => ih _ _

/-- Finding the routing header stays within it. -/
theorem findRouting_checked (h : ipv6HeaderLen ≤ raw.length) : Checked.findRouting raw = some (findRouting raw) := by
  rw [ipv6HeaderLen] at h
  rw [Checked.findRouting, index_of_lt (show 6 < raw.length by omega) 0]
  exact walkHeaders_checked raw _ _ _

/-- The routing header starts inside the packet, behind the fixed header. -/
theorem walkHeaders_ok {next : UInt8} {found : Nat} (h : walkHeaders raw n next offset = .ok found) (hin : offset ≤ raw.length) :
    offset ≤ found ∧ found ≤ raw.length := by
  induction n generalizing next offset with
  | zero => cases h
  | succ n ih =>
    rw [walkHeaders] at h
    dsimp only at h
    split_ifs at h
    · cases h
      exact ⟨Nat.le_refl _, hin⟩
    · have hrest := ih h (by omega)
      omega

/-- A routing header is found behind the IPv6 header. -/
theorem findRouting_ok (h : findRouting raw = .ok offset) (hin : ipv6HeaderLen ≤ raw.length) :
    ipv6HeaderLen ≤ offset ∧ offset ≤ raw.length := walkHeaders_ok h hin

/-- A segment of the list lies within the header. -/
theorem segmentAt_checked (h : srhFixedLen + addrLen * (i + 1) ≤ srh.length) :
    Checked.segmentAt srh i = some (.v6 (wordAt 128 srh (srhFixedLen + addrLen * i)) "") := by
  rw [addrLen] at h
  have hlen : ((srh.drop (srhFixedLen + addrLen * i)).take 16).length = 16 := by
    rw [List.length_take, List.length_drop, addrLen]
    omega
  have hcopy : write (List.replicate addrLen 0) 0 (srh.drop (srhFixedLen + addrLen * i)) =
      (srh.drop (srhFixedLen + addrLen * i)).take 16 := by
    have hdrop : (List.replicate addrLen (0 : UInt8)).drop (0 + (srh.drop (srhFixedLen + addrLen * i)).length) = [] := by
      rw [List.drop_eq_nil_iff, List.length_replicate, List.length_drop, addrLen]
      omega
    rw [write, hdrop, List.append_nil, List.take_zero, List.nil_append, List.length_replicate]
    rfl
  rw [Checked.segmentAt, sliceFrom_of_le (by rw [addrLen]; omega)]
  show some (Addr.v6 (ofBytes 128 (write _ 0 _)) "") = _
  rw [hcopy]
  rfl

/-- Reading the routing header stays within it. -/
theorem parseRouting_checked (srh : List UInt8) (offset : Nat) :
    Checked.parseRouting srh offset = some (parseRouting srh offset) := by
  rw [Checked.parseRouting, parseRouting]
  refine ite_of_not fun hfixed => ?_
  have hin : 8 ≤ srh.length := Nat.le_of_not_lt hfixed
  simp only [index_of_lt (show 2 < srh.length by omega) 0, index_of_lt (show 1 < srh.length by omega) 0,
    index_of_lt (show 4 < srh.length by omega) 0, index_of_lt (show 0 < srh.length by omega) 0,
    index_of_lt (show 3 < srh.length by omega) 0, index_of_lt (show 5 < srh.length by omega) 0,
    slice_of_le (show 6 ≤ 8 by omega) hin, Option.bind_eq_bind, Option.bind_some]
  refine ite_of_not fun _ => ite_of_not fun htotal => ite_of_not fun hentry => ite_of_not fun _ => ?_
  -- The list fits into what Hdr Ext Len covers, and that is in the packet.
  have hsegments : (List.range ((srh.getD 4 0).toNat + 1)).mapM (Checked.segmentAt srh) =
      some ((List.range ((srh.getD 4 0).toNat + 1)).map fun i => .v6 (wordAt 128 srh (srhFixedLen + addrLen * i)) "") := by
    refine mapM_eq_some fun i hi => segmentAt_checked ?_
    have hlt := List.mem_range.mp hi
    rw [srhFixedLen] at htotal ⊢
    rw [addrLen]
    omega
  rw [hsegments, Option.bind_some, apply_ite some]
  rfl

/-- The first checks of every function: the packet holds a header, and its version is six. -/
theorem version_checked {α : Type} {a b : α} {f : Option α} (h : ¬(raw.length < ipv6HeaderLen ∨ raw.getD 0 0 >>> 4 ≠ 6) → f = some b) :
    (if raw.length < ipv6HeaderLen then some a else (index raw 0).bind fun v => if v >>> 4 ≠ 6 then some a else f) =
      some (if raw.length < ipv6HeaderLen ∨ raw.getD 0 0 >>> 4 ≠ 6 then a else b) := by
  rw [ite_or]
  refine ite_of_not fun hlen => ?_
  rw [index_of_lt (show 0 < raw.length by rw [ipv6HeaderLen] at hlen; omega) 0, Option.bind_some]
  exact ite_of_not fun hversion => h (not_or.mpr ⟨hlen, hversion⟩)

/-- `Parse` indexes nothing out of range. -/
theorem parse_checked (raw : List UInt8) : Checked.parse raw = some (parse raw) := by
  refine version_checked fun h => ?_
  have hlen : ipv6HeaderLen ≤ raw.length := Nat.le_of_not_lt (not_or.mp h).1
  rw [findRouting_checked hlen, Option.bind_eq_bind, Option.bind_some]
  cases hfind : findRouting raw with
  | error e => rfl
  | ok offset =>
    dsimp only
    rw [sliceFrom_of_le (findRouting_ok hfind hlen).2]
    exact parseRouting_checked _ _

/-! ## What a waypoint writes -/

/-- The packet that `End` leaves, byte by byte. -/
theorem getElem?_rewritten {new : List UInt8} {hop left : UInt8} (hnew : new.length = 16) (hoffset : ipv6HeaderLen ≤ offset)
    (hin : offset + 3 < raw.length) (i : Nat) :
    (write ((raw.set 7 hop).set (offset + 3) left) 24 new)[i]? =
      if i = 7 then some hop else if 24 ≤ i ∧ i < 40 then new[i - 24]? else if i = offset + 3 then some left else raw[i]? := by
  rw [ipv6HeaderLen] at hoffset
  rw [getElem?_write, List.length_set, List.length_set, hnew, List.getElem?_set, List.getElem?_set, List.length_set]
  split_ifs <;> first | rfl | omega

/-- What the routing header of a packet has been checked for. -/
theorem parseRouting_ok {h : Header} (hparse : parseRouting srh offset = .ok h) :
    srhFixedLen + 8 * (srh.getD 1 0).toNat ≤ srh.length ∧ h.segments.length ≤ maxSegments ∧
      h.segmentsLeft.toNat ≤ h.segments.length ∧ h.segmentsLeft = srh.getD 3 0 ∧ h.offset = offset ∧
      ∀ a ∈ h.segments, ∃ w, a = .v6 w "" := by
  unfold parseRouting at hparse
  dsimp only at hparse
  split_ifs at hparse with hfixed hkind htotal hentry hmany hleft
  obtain rfl := Except.ok.inj hparse
  have hsegments : ∀ a ∈ (List.range ((srh.getD 4 0).toNat + 1)).map
      (fun i => Addr.v6 (wordAt 128 srh (srhFixedLen + addrLen * i)) ""), ∃ w, a = .v6 w "" := by
    intro a ha
    obtain ⟨i, -, rfl⟩ := List.mem_map.mp ha
    exact ⟨_, rfl⟩
  refine ⟨Nat.le_of_not_lt htotal, ?_, ?_, rfl, rfl, hsegments⟩ <;> rw [List.length_map, List.length_range]
  · exact Nat.le_of_not_lt hmany
  · exact Nat.le_of_not_lt hleft

/-- A word behind an octet that is set. -/
theorem wordAt_set {bs : List UInt8} {w k : Nat} (h : i < k) (x : UInt8) : wordAt w (bs.set i x) k = wordAt w bs k := by
  rw [wordAt, List.drop_set_of_lt h, wordAt]

/-- Another Segments Left that is no larger is all that `Parse` sees of a change to it. -/
theorem parseRouting_set {h : Header} {left : UInt8} (hparse : parseRouting srh offset = .ok h)
    (hle : left.toNat ≤ h.segmentsLeft.toNat) : parseRouting (srh.set 3 left) offset = .ok { h with segmentsLeft := left } := by
  unfold parseRouting at hparse
  dsimp only at hparse
  split_ifs at hparse with hfixed hkind htotal hentry hmany hleft
  obtain rfl := Except.ok.inj hparse
  have hother : ∀ k, k ≠ 3 → (srh.set 3 left).getD k 0 = srh.getD k 0 := by
    intro k hk
    rw [List.getD_eq_getElem?_getD, List.getElem?_set_ne (Ne.symm hk), ← List.getD_eq_getElem?_getD]
  have hset : (srh.set 3 left).getD 3 0 = left := by
    rw [srhFixedLen] at hfixed
    rw [List.getD_eq_getElem?_getD, List.getElem?_set_self (by omega), Option.getD_some]
  have hfits : ¬(srh.getD 4 0).toNat + 1 < left.toNat := by
    dsimp only at hle
    omega
  have hword : ∀ w i, wordAt w (srh.set 3 left) (srhFixedLen + i) = wordAt w srh (srhFixedLen + i) :=
    fun w i => wordAt_set (by rw [srhFixedLen]; omega) left
  rw [parseRouting]
  simp only [List.length_set, hother 0 (by decide), hother 1 (by decide), hother 2 (by decide), hother 4 (by decide),
    hother 5 (by decide), hset, if_neg hfixed, if_neg hkind, if_neg htotal, if_neg hentry, if_neg hmany, if_neg hfits, hword,
    wordAt_set (show 3 < 6 by decide) left]

/-- The walk to the routing header reads only what is in front of it. -/
theorem walkHeaders_congr {raw' : List UInt8} (hlen : raw'.length = raw.length) {next : UInt8} {found : Nat}
    (hwalk : walkHeaders raw n next offset = .ok found) (hin : offset ≤ raw.length)
    (hsame : ∀ i, offset ≤ i → i < found → raw'.getD i 0 = raw.getD i 0) : walkHeaders raw' n next offset = .ok found := by
  induction n generalizing next offset with
  | zero => cases hwalk
  | succ n ih =>
    have hfound := (walkHeaders_ok hwalk hin).1
    rw [walkHeaders] at hwalk ⊢
    dsimp only at hwalk ⊢
    split_ifs at hwalk with hrouting hfragment hother hshort hpast
    · rw [if_pos hrouting]
      exact hwalk
    · have hbehind := (walkHeaders_ok hwalk (Nat.le_of_not_lt hpast)).1
      rw [extensionUnit] at hbehind
      rw [if_neg hrouting, if_neg hfragment, if_neg hother, hlen, if_neg hshort, hsame offset (Nat.le_refl _) (by omega),
        hsame (offset + 1) (by omega) (by omega), if_neg hpast]
      exact ih hwalk (Nat.le_of_not_lt hpast) fun i hi hlt => hsame i (by rw [extensionUnit] at hi; omega) hlt

/-- What `Parse` has found out about a packet it accepts. -/
theorem parse_ok {header : Header} (h : parse raw = .ok header) :
    ¬(raw.length < ipv6HeaderLen ∨ raw.getD 0 0 >>> 4 ≠ 6) ∧ findRouting raw = .ok header.offset ∧
      parseRouting (raw.drop header.offset) header.offset = .ok header := by
  unfold parse at h
  split_ifs at h with hsix
  cases hfind : findRouting raw with
  | error e =>
    rw [hfind] at h
    cases h
  | ok offset =>
    rw [hfind] at h
    obtain ⟨-, -, -, -, rfl, -⟩ := parseRouting_ok h
    exact ⟨hsix, rfl, h⟩

/-- A packet before and after a waypoint. -/
structure Moved (raw raw' : List UInt8) (next : Addr) (header : Header) : Prop where
  parsed : parse raw = .ok header
  left : header.segmentsLeft ≠ 0
  hop : ¬raw.getD 7 0 ≤ 1
  found : header.segments[(header.segmentsLeft - 1).toNat]? = some next
  length : raw'.length = raw.length
  bytes : ∀ i, raw'[i]? = if i = 7 then some (raw.getD 7 0 - 1) else if 24 ≤ i ∧ i < 40 then (addr16 next)[i - 24]?
    else if i = header.offset + 3 then some (header.segmentsLeft - 1) else raw[i]?

/-- One less than a number above zero. -/
theorem toNat_pred {x : UInt8} (h : x ≠ 0) : (x - 1).toNat = x.toNat - 1 := by
  have hpos : (1 : UInt8) ≤ x := by
    rw [UInt8.le_iff_toNat_le]
    exact Nat.pos_of_ne_zero fun h0 => h (UInt8.toNat_inj.mp h0)
  exact UInt8.toNat_sub_of_le _ _ hpos

/-- The entry that becomes the destination is in the list. -/
theorem next_lt {header : Header} (hcount : header.segmentsLeft.toNat ≤ header.segments.length) (hleft : header.segmentsLeft ≠ 0) :
    (header.segmentsLeft - 1).toNat < header.segments.length := by
  have hpos : header.segmentsLeft.toNat ≠ 0 := fun h0 => hleft (UInt8.toNat_inj.mp h0)
  rw [toNat_pred hleft]
  omega

/-- What a segment end leaves has moved one segment on. -/
theorem endSegment_moved {raw' : List UInt8} {next : Addr} (h : endSegment raw = .ok (raw', next)) :
    ∃ header, Moved raw raw' next header := by
  unfold endSegment at h
  cases hparse : parse raw with
  | error e =>
    rw [hparse] at h
    cases h
  | ok header =>
    rw [hparse] at h
    dsimp only at h
    split_ifs at h with hleft hhop
    obtain ⟨hraw, hnext⟩ := Prod.mk.inj (Except.ok.inj h)
    obtain ⟨hsix, hfind, hrouting⟩ := parse_ok hparse
    have hlong : ipv6HeaderLen ≤ raw.length := Nat.le_of_not_lt (not_or.mp hsix).1
    obtain ⟨hoffset, -⟩ := findRouting_ok hfind hlong
    obtain ⟨hext, -, hcount, -⟩ := parseRouting_ok hrouting
    rw [List.length_drop, srhFixedLen] at hext
    have hlt := next_lt hcount hleft
    have hsize : (addr16 (header.segments.getD (header.segmentsLeft - 1).toNat .zero)).length = 16 := by simp [addr16]
    refine ⟨header, hparse, hleft, hhop, ?_, ?_, ?_⟩
    · rw [← hnext, List.getD_eq_getElem?_getD, List.getElem?_eq_getElem hlt, Option.getD_some]
    · rw [← hraw, length_write, List.length_set, List.length_set]
    · intro i
      rw [← hraw, ← hnext]
      exact getElem?_rewritten hsize hoffset (by omega) i

namespace Moved

variable {raw raw' : List UInt8} {next : Addr} {header : Header}

/-- The octets a move does not write. -/
theorem getD_same (h : Moved raw raw' next header) {i : Nat} (h7 : i ≠ 7) (hdest : ¬(24 ≤ i ∧ i < 40)) (hleft : i ≠ header.offset + 3) :
    raw'.getD i 0 = raw.getD i 0 := by
  rw [List.getD_eq_getElem?_getD, h.bytes, if_neg h7, if_neg hdest, if_neg hleft, ← List.getD_eq_getElem?_getD]

/-- The routing header is behind the IPv6 header. -/
theorem offset_ge (h : Moved raw raw' next header) : ipv6HeaderLen ≤ header.offset := by
  obtain ⟨hsix, hfind, -⟩ := parse_ok h.parsed
  exact (findRouting_ok hfind (Nat.le_of_not_lt (not_or.mp hsix).1)).1

/-- `Parse` accepts what a waypoint has sent on, and finds the same header with one segment less to go. -/
theorem parse_moved (h : Moved raw raw' next header) :
    parse raw' = .ok { header with segmentsLeft := header.segmentsLeft - 1 } := by
  obtain ⟨hsix, hfind, hrouting⟩ := parse_ok h.parsed
  have hoffset := h.offset_ge
  rw [ipv6HeaderLen] at hoffset
  have hlong : ipv6HeaderLen ≤ raw.length := Nat.le_of_not_lt (not_or.mp hsix).1
  have hfind' : findRouting raw' = .ok header.offset := by
    rw [findRouting, h.getD_same (by decide) (by decide) (by omega)]
    refine walkHeaders_congr h.length hfind hlong fun i hi hlt => ?_
    rw [ipv6HeaderLen] at hi
    exact h.getD_same (by omega) (by omega) (by omega)
  have hdrop : raw'.drop header.offset = (raw.drop header.offset).set 3 (header.segmentsLeft - 1) := by
    obtain ⟨hext, -⟩ := parseRouting_ok hrouting
    rw [List.length_drop, srhFixedLen] at hext
    refine List.ext_getElem? fun i => ?_
    rw [List.getElem?_drop, h.bytes, List.getElem?_set, List.getElem?_drop, List.length_drop]
    split_ifs <;> first | rfl | omega
  rw [parse, h.length, h.getD_same (by decide) (by decide) (by omega), if_neg hsix, hfind']
  dsimp only
  rw [hdrop]
  exact parseRouting_set hrouting (by rw [toNat_pred h.left]; omega)

/-- The packet is addressed to where it is sent. -/
theorem destination_moved (h : Moved raw raw' next header) : .v6 (wordAt 128 raw' 24) "" = next := by
  obtain ⟨hsix, -, hrouting⟩ := parse_ok h.parsed
  obtain ⟨-, -, -, -, -, hsegments⟩ := parseRouting_ok hrouting
  obtain ⟨w, rfl⟩ := hsegments next (List.mem_of_getElem? h.found)
  have hdest : (raw'.drop 24).take 16 = toBytes w := by
    refine List.ext_getElem? fun i => ?_
    rw [List.getElem?_take, List.getElem?_drop, h.bytes]
    by_cases hi : i < 16
    · rw [if_pos hi, if_neg (by omega), if_pos (by omega), Nat.add_sub_cancel_left]
      rfl
    · rw [if_neg hi, List.getElem?_eq_none (by rw [length_toBytes]; omega)]
  rw [wordAt, show 128 / 8 = 16 from rfl, hdest, ofBytes_toBytes w rfl]

/-- A move takes one from the hop limit. -/
theorem hop_moved (h : Moved raw raw' next header) : (raw'.getD 7 0).toNat + 1 = (raw.getD 7 0).toNat := by
  have hhop := h.hop
  rw [UInt8.le_iff_toNat_le, show (1 : UInt8).toNat = 1 from rfl] at hhop
  rw [List.getD_eq_getElem?_getD, h.bytes, if_pos rfl, Option.getD_some, toNat_pred]
  · omega
  · intro h0
    rw [h0] at hhop
    exact hhop (Nat.zero_le 1)

end Moved

/-! ## Nothing panics, continued -/

/-- Setting an octet of the rest sets it in the whole. -/
theorem take_append_set {bs : List UInt8} {k : Nat} (h : k ≤ bs.length) (x : UInt8) :
    bs.take k ++ (bs.drop k).set i x = bs.set (k + i) x := by
  have hlen : (bs.take k).length = k := by rw [List.length_take]; omega
  calc bs.take k ++ (bs.drop k).set i x = (bs.take k ++ bs.drop k).set (k + i) x := by
        rw [List.set_append_right _ _ (by omega), hlen, Nat.add_sub_cancel_left]
    _ = bs.set (k + i) x := by rw [List.take_append_drop]

/-- `End` indexes nothing out of range. -/
theorem endSegment_checked (raw : List UInt8) : Checked.endSegment raw = some (endResult raw (endSegment raw)) := by
  rw [Checked.endSegment, parse_checked, Option.bind_eq_bind, Option.bind_some, endSegment]
  cases hparse : parse raw with
  | error e => rfl
  | ok header =>
    dsimp only
    rw [apply_ite (endResult raw), apply_ite (endResult raw)]
    refine ite_of_not fun hleft => ?_
    obtain ⟨hsix, hfind, hrouting⟩ := parse_ok hparse
    have hlong : 40 ≤ raw.length := Nat.le_of_not_lt (not_or.mp hsix).1
    obtain ⟨hoffset, -⟩ := findRouting_ok hfind hlong
    obtain ⟨hext, -, hcount, -⟩ := parseRouting_ok hrouting
    rw [List.length_drop, srhFixedLen] at hext
    rw [bind_of_eq (index_of_lt (show 7 < raw.length by omega) 0)]
    refine ite_of_not fun _ => ?_
    have hlt := next_lt hcount hleft
    have hsize : (addr16 (header.segments.getD (header.segmentsLeft - 1).toNat .zero)).length = 16 := by simp [addr16]
    have hset : (raw.set 7 (raw.getD 7 0 - 1)).length = raw.length := List.length_set
    rw [bind_of_eq (store_of_lt (by omega) _), bind_of_eq (sliceFrom_of_le (by omega)),
      bind_of_eq (store_of_lt (by rw [List.length_drop]; omega) _), take_append_set (by omega),
      bind_of_eq (index_of_lt hlt .zero), bind_of_eq (copyFrom_of_le (by rw [List.length_set]; omega))]
    rfl

/-- Nor does the delivery. -/
theorem deliver_checked (raw : List UInt8) (offset : Nat) (upper : UInt8) :
    Checked.deliver raw offset upper = some (deliver raw offset upper) := by
  refine ite_of_not fun _ => ite_of_not fun hshort => ?_
  rw [sliceFrom_of_le (by omega)]
  rfl

/-- Nor does `Decap`. -/
theorem decap_checked (raw : List UInt8) : Checked.decap raw = some (decap raw) := by
  refine version_checked fun h => ?_
  have hlong : 40 ≤ raw.length := Nat.le_of_not_lt (not_or.mp h).1
  rw [index_of_lt (show 6 < raw.length by omega) 0, parse_checked]
  simp only [Option.bind_eq_bind, Option.bind_some]
  cases hparse : parse raw with
  | error e => cases e <;> first | rfl | exact deliver_checked _ _ _
  | ok header =>
    dsimp only
    refine ite_of_not fun _ => ?_
    obtain ⟨-, -, hrouting⟩ := parse_ok hparse
    obtain ⟨hext, -⟩ := parseRouting_ok hrouting
    rw [List.length_drop, srhFixedLen] at hext
    rw [index_of_lt (show header.offset + 1 < raw.length by omega) 0]
    exact deliver_checked _ _ _

/-- An address lies within the packet. -/
theorem addrAt_checked (h : i + 16 ≤ raw.length) : Checked.addrAt raw i (i + 16) = some (.v6 (wordAt 128 raw i) "") := by
  rw [Checked.addrAt, slice_of_le (Nat.le_add_right i 16) h, Nat.add_sub_cancel_left]
  rfl

/-- `Handle` indexes nothing out of range. -/
theorem handle_checked (table : Option LocalTable) (raw : List UInt8) : Checked.handle table raw = some (handle table raw) := by
  cases table with
  | none => rfl
  | some t =>
    have hhandle : handle (some t) raw = if raw.length < ipv6HeaderLen ∨ raw.getD 0 0 >>> 4 ≠ 6 then (raw, .pass)
        else handle (some t) raw := by
      by_cases hsix : raw.length < ipv6HeaderLen ∨ raw.getD 0 0 >>> 4 ≠ 6
      · rw [if_pos hsix, handle, behaviorOf, if_pos hsix]
      · rw [if_neg hsix]
    rw [hhandle]
    refine version_checked fun hsix => ?_
    have hlong : 40 ≤ raw.length := Nat.le_of_not_lt (not_or.mp hsix).1
    rw [addrAt_checked (show 24 + 16 ≤ raw.length by omega), handle, behaviorOf, if_neg hsix, endSegment_checked, decap_checked]
    simp only [Option.bind_eq_bind, Option.bind_some]
    rcases t.entries (.v6 (wordAt 128 raw 24) "") with _ | _ | _ | code
    · rfl
    · dsimp only
      cases endSegment raw <;> rfl
    · dsimp only
      cases decap raw <;> rfl
    · rfl

/-- Looking for an ICMPv6 error stays within the packet. -/
theorem carriesICMPError_checked {offending : List UInt8} (h : ipv6HeaderLen ≤ offending.length) :
    Checked.carriesICMPError offending = some (carriesICMPError offending) := by
  have hlong : 40 ≤ offending.length := h
  have herror : ∀ (next : UInt8) (payload : Nat),
      (if next = icmpv6Next ∧ payload < offending.length then do some (decide ((← index offending payload) < 128)) else some false) =
        some (decide (next = icmpv6Next ∧ payload < offending.length ∧ offending.getD payload 0 < 128)) := by
    intro next payload
    by_cases hin : next = icmpv6Next ∧ payload < offending.length
    · rw [if_pos hin, bind_of_eq (index_of_lt hin.2 0)]
      simp [hin.1, hin.2]
    · rw [if_neg hin]
      simp only [← and_assoc, hin, false_and, decide_false]
  rw [Checked.carriesICMPError, carriesICMPError]
  simp only [herror]
  rw [bind_of_eq (index_of_lt (show 6 < offending.length by omega) 0), bind_of_eq (findRouting_checked h)]
  cases hfind : findRouting offending with
  | error e => rfl
  | ok offset =>
    dsimp only
    refine ite_of_not fun hshort => ?_
    have hfixed : offset + 8 ≤ offending.length := Nat.le_of_not_lt hshort
    rw [bind_of_eq (index_of_lt (show offset < offending.length by omega) 0),
      bind_of_eq (index_of_lt (show offset + 1 < offending.length by omega) 0)]

/-- So does asking whether to answer. -/
theorem answerable_checked (offending : List UInt8) : Checked.answerable offending = some (answerable offending) := by
  refine version_checked fun h => ?_
  have hlong : 40 ≤ offending.length := Nat.le_of_not_lt (not_or.mp h).1
  rw [bind_of_eq (addrAt_checked (show 8 + 16 ≤ offending.length by omega)),
    bind_of_eq (addrAt_checked (show 24 + 16 ≤ offending.length by omega)), bind_of_eq (carriesICMPError_checked hlong)]
  simp only [apply_ite some]

/-- The sum over pairs of octets stays within the bytes. -/
theorem addPairs_checked (b : List UInt8) (i : Nat) (carrying : UInt32) (hi : i ≤ b.length) (heven : i % 2 = 0) :
    (Checked.addPairs b i carrying >>= fun sum => if b.length % 2 = 1 then do
      let last ← index b (b.length - 1)
      some (foldCarries 2 (sum + last.toUInt32 <<< 8)) else some (foldCarries 2 sum)) =
      some (foldCarries 2 (addBytes carrying (b.drop i))) := by
  fun_induction Checked.addPairs b i carrying with
  | case1 i carrying hlt ih =>
    -- the two bytes at the index, and what is behind them
    have hdrop : b.drop i = b.getD i 0 :: b.getD (i + 1) 0 :: b.drop (i + 2) := by
      rw [List.drop_eq_getElem_cons (by omega), List.drop_eq_getElem_cons hlt, List.getD_eq_getElem?_getD, List.getD_eq_getElem?_getD,
        List.getElem?_eq_getElem (by omega), List.getElem?_eq_getElem hlt, Option.getD_some, Option.getD_some]
    rw [bind_of_eq (sliceFrom_of_le hi), hdrop]
    exact ih _ _ (by omega) (by omega)
  | case2 i carrying hlt =>
    by_cases hodd : b.length % 2 = 1
    · obtain rfl : i = b.length - 1 := by omega
      have hlast : b.drop (b.length - 1) = [b.getD (b.length - 1) 0] := by
        rw [List.drop_eq_getElem_cons (by omega), List.drop_of_length_le (by omega), List.getD_eq_getElem?_getD,
          List.getElem?_eq_getElem (by omega), Option.getD_some]
      rw [hlast, bind_of_eq rfl, if_pos hodd, bind_of_eq (index_of_lt (by omega) 0)]
      rfl
    · rw [List.drop_of_length_le (by omega), bind_of_eq rfl, if_neg hodd]
      rfl

/-- So does the sum with its last octet. -/
theorem ones_checked (carrying : UInt32) (b : List UInt8) : Checked.ones carrying b = some (ones carrying b) :=
  addPairs_checked b 0 carrying (Nat.zero_le _) rfl

/-- A word of 32 bits is four octets. -/
theorem length_toBytes32 (x : BitVec 32) : (toBytes x).length = 4 := by simp

/-- The checksum reads within its input. -/
theorem icmpChecksum_checked (source destination : Addr) (body : List UInt8) :
    Checked.icmpChecksum source destination body = some (icmpChecksum source destination body) := by
  have h1 := length_addr16 source
  have h2 := length_addr16 destination
  have h3 := length_toBytes32 (BitVec.ofNat 32 body.length)
  have hfirst : write (List.replicate 40 0) 0 (addr16 source) = addr16 source ++ (List.replicate 16 0 ++ List.replicate 8 0) :=
    write_middle (show ([] : List UInt8).length = 0 from rfl) (show (List.replicate 16 (0 : UInt8)).length = _ by rw [h1]; rfl)
  have hsecond : write (addr16 source ++ (List.replicate 16 0 ++ List.replicate 8 0)) 16 (addr16 destination) =
      (addr16 source ++ addr16 destination) ++ (List.replicate 4 0 ++ [0, 0, 0, 0]) := by
    rw [write_middle h1 (by rw [h2]; rfl), List.append_assoc]
    rfl
  have hthird : write ((addr16 source ++ addr16 destination) ++ (List.replicate 4 0 ++ [0, 0, 0, 0])) 32
      (toBytes (BitVec.ofNat 32 body.length)) =
      (addr16 source ++ addr16 destination ++ toBytes (BitVec.ofNat 32 body.length)) ++ [0, 0, 0, 0] := by
    rw [write_middle (by rw [List.length_append, h1, h2]) (by rw [h3]; rfl)]
    simp only [List.append_assoc]
  have hlength : (addr16 source ++ addr16 destination ++ toBytes (BitVec.ofNat 32 body.length)).length = 36 := by
    simp only [List.length_append, h1, h2, h3]
  have hlast : ((addr16 source ++ addr16 destination ++ toBytes (BitVec.ofNat 32 body.length)) ++ [0, 0, 0, 0]).set 39 icmpv6Next =
      pseudoHeader source destination body.length := by
    rw [List.set_append_right _ _ (by omega), hlength, pseudoHeader]
    simp only [List.append_assoc]
    rfl
  rw [Checked.icmpChecksum, bind_of_eq (copyFrom_of_le (Nat.zero_le _)), hfirst,
    bind_of_eq (copyFrom_of_le (by rw [List.length_append]; omega)), hsecond,
    bind_of_eq (put_of_le (by simp only [List.length_append, List.length_replicate, h1, h2, h3]; decide)), hthird,
    bind_of_eq (store_of_lt (by rw [List.length_append, hlength]; decide) _), hlast, bind_of_eq (ones_checked _ _),
    bind_of_eq (ones_checked _ _)]
  rfl

/-- The message as `icmpError` writes it, before its checksum is in. -/
theorem message_written (kind code : UInt8) (pointer : Nat) (quoted : List UInt8) :
    write (write (((List.replicate (icmpHeaderLen + quoted.length) 0).set 0 kind).set 1 code) 4 (toBytes (BitVec.ofNat 32 pointer)))
      icmpHeaderLen quoted = icmpMessage kind code 0 pointer quoted := by
  have hpointer := length_toBytes32 (BitVec.ofNat 32 pointer)
  have hzeros : ((List.replicate (icmpHeaderLen + quoted.length) 0).set 0 kind).set 1 code =
      [kind, code, 0, 0] ++ ([0, 0, 0, 0] ++ List.replicate quoted.length 0) := by
    rw [List.replicate_add]
    rfl
  have hquoted : write (([kind, code, 0, 0] ++ toBytes (BitVec.ofNat 32 pointer)) ++ (List.replicate quoted.length 0 ++ []))
      icmpHeaderLen quoted = ([kind, code, 0, 0] ++ toBytes (BitVec.ofNat 32 pointer)) ++ (quoted ++ []) :=
    write_middle (by rw [List.length_append, hpointer]; rfl) List.length_replicate
  rw [hzeros, write_middle (show [kind, code, 0, 0].length = 4 from rfl) (by rw [hpointer]; rfl), ← List.append_assoc,
    ← List.append_nil (List.replicate quoted.length 0), hquoted, List.append_nil, List.append_assoc]
  rfl

/-- The length of a message. -/
theorem length_icmpMessage (kind code : UInt8) (checksum : UInt16) (pointer : Nat) (quoted : List UInt8) :
    (icmpMessage kind code checksum pointer quoted).length = icmpHeaderLen + quoted.length := by
  simp only [icmpMessage, List.length_cons, List.length_append, length_toBytes, icmpHeaderLen]
  omega

/-- The first eight bytes of an answer, over the zeros of the rest. -/
theorem header_written (size n : Nat) :
    ((write ((List.replicate (ipv6HeaderLen + n) 0).set 0 0x60) 4 (toBytes (BitVec.ofNat 16 size))).set 6 icmpv6Next).set 7
      defaultHopLimit = ([0x60, 0, 0, 0] ++ (toBytes (BitVec.ofNat 16 size) ++ [icmpv6Next, defaultHopLimit])) ++
        (List.replicate 16 0 ++ (List.replicate 16 0 ++ List.replicate n 0)) := by
  have hzeros : (List.replicate (ipv6HeaderLen + n) (0 : UInt8)).set 0 0x60 =
      [0x60, 0, 0, 0] ++ ([0, 0] ++ ([0, 0] ++ (List.replicate 16 0 ++ (List.replicate 16 0 ++ List.replicate n 0)))) := by
    rw [List.replicate_add]
    rfl
  rw [hzeros, write_middle (show [(0x60 : UInt8), 0, 0, 0].length = 4 from rfl) (by simp)]
  rfl

/-- The rest of an answer, over a header of eight bytes. -/
theorem packet_written {header a b : List UInt8} {kind code : UInt8} {pointer : Nat} {quoted : List UInt8}
    (hheader : header.length = 8) (ha : a.length = 16) (hb : b.length = 16) (hn : n = icmpHeaderLen + quoted.length)
    (checksum : UInt16) :
    write (write (write (write (header ++ (List.replicate 16 0 ++ (List.replicate 16 0 ++ List.replicate n 0))) 8 a) 24 b) ipv6HeaderLen
      (icmpMessage kind code 0 pointer quoted)) (ipv6HeaderLen + 2) (toBytes checksum.toBitVec) =
      header ++ (a ++ (b ++ icmpMessage kind code checksum pointer quoted)) := by
  have hmessage : write ((header ++ a ++ b) ++ (List.replicate n 0 ++ [])) ipv6HeaderLen (icmpMessage kind code 0 pointer quoted) =
      (header ++ a ++ b) ++ (icmpMessage kind code 0 pointer quoted ++ []) :=
    write_middle (by simp only [List.length_append, hheader, ha, hb]; rfl) (by rw [length_icmpMessage, List.length_replicate, hn])
  have hsplit : (header ++ a ++ b) ++ icmpMessage kind code 0 pointer quoted =
      (header ++ a ++ b ++ [kind, code]) ++ ([0, 0] ++ (toBytes (BitVec.ofNat 32 pointer) ++ quoted)) := by
    rw [List.append_assoc _ [kind, code]]
    rfl
  rw [write_middle hheader (by rw [ha]; rfl), ← List.append_assoc header a, write_middle (by rw [List.length_append, hheader, ha])
    (by rw [hb]; rfl), ← List.append_assoc _ b, ← List.append_nil (List.replicate n 0), hmessage, List.append_nil, hsplit,
    write_middle (by simp only [List.length_append, hheader, ha, hb]; rfl) (by simp)]
  simp only [icmpMessage, List.append_assoc, List.cons_append, List.nil_append]

/-- Building an error indexes nothing out of range. -/
theorem icmpError_checked (offending : List UInt8) (source : Addr) (kind code : UInt8) (pointer : Nat) :
    Checked.icmpError offending source kind code pointer = some (icmpError offending source kind code pointer) := by
  rw [Checked.icmpError, icmpError]
  by_cases husable : usable source = true
  · rw [husable, bind_of_eq (answerable_checked offending)]
    by_cases hanswer : answerable offending = true
    · have hlong : 40 ≤ offending.length := by
        rw [answerable] at hanswer
        split_ifs at hanswer with hsix
        exact Nat.le_of_not_lt (not_or.mp hsix).1
      generalize hq : min offending.length (minimumIPv6MTU - ipv6HeaderLen - icmpHeaderLen) = q
      have hslice : sliceTo offending q = some (offending.take q) := sliceTo_of_le (by omega)
      have hlen : (offending.take q).length = q := by rw [List.length_take]; omega
      generalize offending.take q = quoted at hslice hlen
      subst hlen
      simp only [hanswer, hslice, Bool.not_true, Bool.or_self, Bool.false_eq_true, if_false]
      rw [bind_of_eq (addrAt_checked (show 8 + 16 ≤ offending.length by omega))]
      have hbody : (List.replicate (icmpHeaderLen + quoted.length) (0 : UInt8)).length = 8 + quoted.length := List.length_replicate
      rw [bind_of_eq (store_of_lt (by omega) _), bind_of_eq (store_of_lt (by rw [List.length_set]; omega) _),
        bind_of_eq (put_of_le (by rw [List.length_set, List.length_set, length_toBytes32]; omega)), bind_of_eq rfl,
        bind_of_eq (copyFrom_of_le (by rw [length_write, List.length_set, List.length_set, hbody]; exact Nat.le_add_right 8 _)),
        message_written]
      have hmessage := length_icmpMessage kind code 0 pointer quoted
      generalize hn : (icmpMessage kind code 0 pointer quoted).length = n
      have hout : (List.replicate (ipv6HeaderLen + n) (0 : UInt8)).length = 40 + n := List.length_replicate
      have hsize : (toBytes (BitVec.ofNat 16 n)).length = 2 := by simp
      have hsource := length_addr16 source
      have hdestination := length_addr16 (.v6 (wordAt 128 offending 8) "")
      rw [hn] at hmessage
      have hrest : ([0x60, 0, 0, 0] ++ (toBytes (BitVec.ofNat 16 n) ++ [icmpv6Next, defaultHopLimit]) ++
          (List.replicate 16 0 ++ (List.replicate 16 0 ++ List.replicate n 0))).length = 40 + n := by
        simp only [List.length_append, List.length_replicate, hsize, List.length_cons, List.length_nil]
        omega
      rw [bind_of_eq (store_of_lt (by omega) _), bind_of_eq (put_of_le (by rw [List.length_set, hsize]; omega)),
        bind_of_eq (store_of_lt (by rw [length_write, List.length_set]; omega) _),
        bind_of_eq (store_of_lt (by rw [List.length_set, length_write, List.length_set]; omega) _), header_written,
        bind_of_eq (copyFrom_of_le (by omega)), bind_of_eq (copyFrom_of_le (by rw [length_write]; omega)),
        bind_of_eq (copyFrom_of_le (by rw [length_write, length_write, hrest]; exact Nat.le_add_right 40 n)),
        bind_of_eq (icmpChecksum_checked _ _ _),
        bind_of_eq (put_of_le (by
          rw [length_write, length_write, length_write, hrest, ipv6HeaderLen, length_toBytes]
          rw [icmpHeaderLen] at hmessage
          omega)),
        packet_written (by simp [hsize]) hsource hdestination hmessage]
      simp only [List.append_assoc, List.cons_append, List.nil_append]
    · rw [Bool.not_eq_true] at hanswer
      rw [hanswer]
      rfl
  · rw [Bool.not_eq_true] at husable
    rw [husable]
    rfl

/-- Nor does building a parameter problem. -/
theorem parameterProblem_checked (offending : List UInt8) (source : Addr) :
    Checked.parameterProblem offending source = some (parameterProblem offending source) := by
  refine ite_of_not fun hshort => ?_
  rw [bind_of_eq (findRouting_checked (Nat.le_of_not_lt hshort))]
  cases findRouting offending with
  | error e => rfl
  | ok offset => exact icmpError_checked _ _ _ _ _

/-! ## What an exit delivers -/

/-- What is delivered is the rest of the packet, and not empty. -/
theorem deliver_ok {inner : List UInt8} {upper family : UInt8} (h : deliver raw offset upper = .ok (inner, family)) :
    inner ≠ [] ∧ inner = raw.drop offset := by
  unfold deliver at h
  split_ifs at h with hfamily hshort
  obtain ⟨rfl, -⟩ := Prod.mk.inj (Except.ok.inj h)
  exact ⟨fun hnil => hshort (List.drop_eq_nil_iff.mp hnil), rfl⟩

/-- What `Decap` delivers is behind the outer headers. -/
theorem decap_ok {inner : List UInt8} {family : UInt8} (h : decap raw = .ok (inner, family)) :
    inner ≠ [] ∧ inner = raw.drop (outerLen raw) ∧ ipv6HeaderLen ≤ outerLen raw := by
  unfold decap at h
  rw [outerLen]
  split_ifs at h with hsix
  cases hparse : parse raw with
  | ok header =>
    rw [hparse] at h
    dsimp only at h ⊢
    split_ifs at h with hleft
    obtain ⟨hne, hdrop⟩ := deliver_ok h
    obtain ⟨-, hfind, -⟩ := parse_ok hparse
    have hoffset := (findRouting_ok hfind (Nat.le_of_not_lt (not_or.mp hsix).1)).1
    exact ⟨hne, hdrop, by omega⟩
  | error e =>
    rw [hparse] at h
    dsimp only at h ⊢
    split at h
    · next heq => cases heq
    · obtain ⟨hne, hdrop⟩ := deliver_ok h
      exact ⟨hne, hdrop, Nat.le_refl _⟩
    · cases h

end SafetyAux

open SafetyAux

/-- For every packet and every table of segments: none of the functions indexes or slices out of range; an `End` that refuses the
packet leaves it as it was; one that sends it on changes the hop limit, the destination and Segments Left of the routing header that
`Parse` found, and `Parse` accepts the result; and what `Decap` delivers is all there is behind the outer headers, and something. -/
theorem packets_handled_safely (raw : List UInt8) (table : Option LocalTable) (source : Addr) :
    (Checked.parse raw = some (parse raw) ∧ Checked.endSegment raw = some (endResult raw (endSegment raw)) ∧
      Checked.decap raw = some (decap raw) ∧ Checked.handle table raw = some (handle table raw) ∧
      Checked.timeExceeded raw source = some (timeExceeded raw source) ∧
      Checked.parameterProblem raw source = some (parameterProblem raw source)) ∧
    (∀ raw' e, Checked.endSegment raw = some (raw', .error e) → raw' = raw) ∧
    (∀ raw' next, Checked.endSegment raw = some (raw', .ok next) → ∃ header, parse raw = .ok header ∧ raw'.length = raw.length ∧
      (∀ i, i ≠ 7 → ¬(24 ≤ i ∧ i < 40) → i ≠ header.offset + 3 → raw'[i]? = raw[i]?) ∧
      parse raw' = .ok { header with segmentsLeft := header.segmentsLeft - 1 }) ∧
    ∀ inner family, Checked.decap raw = some (.ok (inner, family)) →
      inner ≠ [] ∧ inner = raw.drop (outerLen raw) ∧ ipv6HeaderLen ≤ outerLen raw := by
  refine ⟨⟨parse_checked raw, endSegment_checked raw, decap_checked raw, handle_checked table raw,
    icmpError_checked _ _ _ _ _, parameterProblem_checked raw source⟩, fun raw' e h => ?_, fun raw' next h => ?_, fun inner family h => ?_⟩
  · rw [endSegment_checked, Option.some.injEq] at h
    cases hend : endSegment raw with
    | error e' =>
      rw [hend] at h
      exact (Prod.mk.inj h).1.symm
    | ok moved =>
      rw [hend] at h
      cases (Prod.mk.inj h).2
  · rw [endSegment_checked, Option.some.injEq] at h
    cases hend : endSegment raw with
    | error e =>
      rw [hend] at h
      cases (Prod.mk.inj h).2
    | ok moved =>
      obtain ⟨moved, next'⟩ := moved
      rw [hend] at h
      obtain ⟨rfl, hnext⟩ := Prod.mk.inj h
      obtain ⟨header, hmoved⟩ := endSegment_moved hend
      refine ⟨header, hmoved.parsed, hmoved.length, fun i h7 hdest hleft => ?_, hmoved.parse_moved⟩
      rw [hmoved.bytes, if_neg h7, if_neg hdest, if_neg hleft]
  · rw [decap_checked, Option.some.injEq] at h
    exact decap_ok h

end RanetLite.Srv6
