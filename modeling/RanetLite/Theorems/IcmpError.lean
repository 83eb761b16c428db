import RanetLite.Theorems.Srv6Safety

/-!
# Which packets are answered, and with what

An ICMPv6 error is not answered when `carriesICMPError` finds it, which it does behind the headers that `findRouting` walks and one
routing header. A Destination Options header behind the routing header hides it. What is answered gets a packet of at most the minimum
MTU whose checksum verifies.
-/

namespace RanetLite.Srv6

open Bytes Netip OnesComplement

def nextHeaderAuthentication : UInt8 := 51
def nextHeaderMobility : UInt8 := 135

/-- How long an IPv6 extension header is, from its kind and its second byte. Any other kind is an upper-layer header. -/
def extensionLen (kind units : UInt8) : Option Nat :=
  if kind = nextHeaderHopByHop ∨ kind = nextHeaderRouting ∨ kind = nextHeaderDestOpts ∨ kind = nextHeaderMobility then
    some (8 * (1 + units.toNat))
  else if kind = nextHeaderFragment then some 8
  else if kind = nextHeaderAuthentication then some (4 * (units.toNat + 2))
  else none

/-- The chain of extension headers from an offset on, each of them fully present, and the upper-layer header it ends at. -/
inductive Chain (raw : List UInt8) : UInt8 → Nat → List UInt8 → UInt8 → Nat → Prop where
  | upper {kind : UInt8} {offset : Nat} (h : ∀ units, extensionLen kind units = none) : Chain raw kind offset [] kind offset
  | extension {kind upper : UInt8} {offset size payload : Nat} {kinds : List UInt8}
      (hsize : extensionLen kind (raw.getD (offset + 1) 0) = some size) (hin : offset + size ≤ raw.length)
      (hrest : Chain raw (raw.getD offset 0) (offset + size) kinds upper payload) : Chain raw kind offset (kind :: kinds) upper payload

/-- The upper-layer header of a packet is an ICMPv6 error, behind extension headers of some kinds. -/
structure CarriesError (raw : List UInt8) (kinds : List UInt8) : Prop where
  error : ∃ payload, Chain raw (raw.getD 6 0) ipv6HeaderLen kinds icmpv6Next payload ∧ payload < raw.length ∧ raw.getD payload 0 < 128

/-- The kinds of headers an error is found behind: none, or options that `findRouting` walks over and then one routing header. -/
def Plain (kinds : List UInt8) : Prop :=
  kinds = [] ∨ ∃ front, kinds = front ++ [nextHeaderRouting] ∧ front.length < maxExtensionHeaders ∧
    ∀ kind ∈ front, kind = nextHeaderHopByHop ∨ kind = nextHeaderDestOpts

/-- The source address of a packet. -/
def sender (raw : List UInt8) : Addr := .v6 (wordAt 128 raw 8) ""

/-- What `answerable` refuses before it looks for an error: what is not an IPv6 packet, comes from nobody or from a group, or goes to a
group. -/
def Refused (raw : List UInt8) : Prop :=
  raw.length < ipv6HeaderLen ∨ raw.getD 0 0 >>> 4 ≠ 6 ∨ (sender raw).isUnspecified = true ∨ (sender raw).isMulticast = true ∨
    (Addr.v6 (wordAt 128 raw 24) "").isMulticast = true

/-- Neither error is built for a packet. -/
def Unanswered (raw : List UInt8) (source : Addr) : Prop := timeExceeded raw source = none ∧ parameterProblem raw source = none

namespace IcmpErrorAux

variable {raw : List UInt8} {source : Addr} {kind upper : UInt8} {offset payload : Nat} {kinds : List UInt8}

theorem extensionLen_options {units : UInt8} (h : kind = nextHeaderHopByHop ∨ kind = nextHeaderDestOpts) :
    extensionLen kind units = some (8 * (1 + units.toNat)) := by
  rcases h with rfl | rfl <;> rfl

/-- `findRouting` walks to the routing header at the end of such a chain. -/
theorem walkHeaders_chain {front : List UInt8} {n : Nat} (hchain : Chain raw kind offset (front ++ [nextHeaderRouting]) upper payload)
    (hn : front.length < n) (hfront : ∀ k ∈ front, k = nextHeaderHopByHop ∨ k = nextHeaderDestOpts) :
    ∃ o, walkHeaders raw n kind offset = .ok o ∧ o + 8 * (1 + (raw.getD (o + 1) 0).toNat) = payload ∧ payload ≤ raw.length ∧
      raw.getD o 0 = upper := by
  induction front generalizing kind offset n with
  | nil =>
    cases hchain with
    | extension hsize hin hrest =>
      obtain ⟨m, rfl⟩ := Nat.exists_eq_succ_of_ne_zero (Nat.ne_of_gt hn)
      rw [extensionLen, if_pos (.inr (.inl rfl)), Option.some.injEq] at hsize
      refine ⟨offset, by rw [walkHeaders, if_pos rfl], ?_⟩
      generalize hfollowing : raw.getD offset 0 = following at hrest
      cases hrest with
      | upper h =>
        rw [← hsize] at hin
        exact ⟨by rw [hsize], by rw [← hsize]; exact hin, rfl⟩
  | cons k front ih =>
    obtain ⟨hk, hfront⟩ := List.forall_mem_cons.mp hfront
    cases hchain with
    | extension hsize hin hrest =>
      obtain ⟨m, rfl⟩ := Nat.exists_eq_succ_of_ne_zero (Nat.ne_of_gt (Nat.zero_lt_of_lt hn))
      obtain rfl := Option.some.inj ((extensionLen_options hk).symm.trans hsize)
      obtain ⟨o, hwalk, hrest⟩ := ih hrest (by simpa using hn) hfront
      refine ⟨o, ?_, hrest⟩
      have hrouting : k ≠ nextHeaderRouting := by rcases hk with rfl | rfl <;> decide
      have hfragment : k ≠ nextHeaderFragment := by rcases hk with rfl | rfl <;> decide
      rw [walkHeaders, if_neg hrouting, if_neg hfragment, if_neg (by rcases hk with rfl | rfl <;> simp), extensionUnit,
        if_neg (by omega)]
      dsimp only
      rw [if_neg (by omega)]
      exact hwalk

/-- Behind a header that names it, the ICMPv6 message is the upper-layer header. -/
theorem kinds_of_icmp (h : Chain raw icmpv6Next offset kinds upper payload) : kinds = [] := by
  generalize hkind : icmpv6Next = kind at h
  cases h with
  | upper h => rfl
  | extension hsize hin hrest =>
    subst hkind
    cases hsize

theorem carriesICMPError_of_plain (h : CarriesError raw kinds) (hplain : Plain kinds) : carriesICMPError raw = true := by
  obtain ⟨payload, hchain, hin, herror⟩ := h.error
  rw [carriesICMPError]
  rcases hplain with rfl | ⟨front, rfl, hfew, hfront⟩
  · generalize hkind : raw.getD 6 0 = kind at hchain
    cases hchain with
    | upper h =>
      have hwalk : findRouting raw = .error .notSegmentRouted := by
        rw [findRouting, hkind]
        rfl
      rw [hwalk]
      exact decide_eq_true ⟨rfl, hin, herror⟩
  · obtain ⟨o, hwalk, rfl, hle, hupper⟩ := walkHeaders_chain hchain hfew hfront
    have hfind : findRouting raw = .ok o := hwalk
    have hfixed : ¬raw.length < o + srhFixedLen := by rw [srhFixedLen]; omega
    have hpayload : o + 8 * (1 + (raw.getD (o + 1) 0).toNat) = o + srhFixedLen + extensionUnit * (raw.getD (o + 1) 0).toNat := by
      rw [srhFixedLen, extensionUnit]
      omega
    rw [hpayload] at hin herror
    rw [hfind]
    dsimp only
    rw [if_neg hfixed]
    exact decide_eq_true ⟨hupper, hin, herror⟩

/-- Where `findRouting` finds a routing header in front of an ICMPv6 message, the chain is the one it walked. -/
theorem plain_of_walked {n o : Nat} (hwalk : walkHeaders raw n kind offset = .ok o) (hnext : raw.getD o 0 = icmpv6Next)
    (hchain : Chain raw kind offset kinds upper payload) :
    ∃ front, kinds = front ++ [nextHeaderRouting] ∧ front.length < n ∧
      ∀ k ∈ front, k = nextHeaderHopByHop ∨ k = nextHeaderDestOpts := by
  induction n generalizing kind offset kinds with
  | zero => cases hwalk
  | succ n ih =>
    rw [walkHeaders] at hwalk
    dsimp only at hwalk
    split_ifs at hwalk with hrouting _ hoptions
    · -- at the routing header itself, which names the ICMPv6 message
      obtain rfl := Except.ok.inj hwalk
      subst hrouting
      cases hchain with
      | upper h => cases h 0
      | extension hsize hin hrest =>
        rw [hnext] at hrest
        obtain rfl := kinds_of_icmp hrest
        exact ⟨[], rfl, Nat.succ_pos n, by simp⟩
    · have hkind : kind = nextHeaderHopByHop ∨ kind = nextHeaderDestOpts := by
        by_contra h
        exact hoptions (not_or.1 h)
      cases hchain with
      | upper h => rcases hkind with rfl | rfl <;> cases h 0
      | extension hsize hin hrest =>
        rw [extensionLen_options hkind] at hsize
        obtain rfl := Option.some.inj hsize
        obtain ⟨front, rfl, hfew, hfront⟩ := ih hwalk hrest
        exact ⟨kind :: front, rfl, Nat.succ_lt_succ hfew, List.forall_mem_cons.2 ⟨hkind, hfront⟩⟩

/-- An error is found exactly behind the headers that are plain. -/
theorem carriesICMPError_iff (h : CarriesError raw kinds) : carriesICMPError raw = true ↔ Plain kinds := by
  refine ⟨fun hcarries => ?_, carriesICMPError_of_plain h⟩
  obtain ⟨payload, hchain, -, -⟩ := h.error
  rw [carriesICMPError] at hcarries
  cases hfind : findRouting raw with
  | error e =>
    rw [hfind] at hcarries
    rw [(of_decide_eq_true hcarries).1] at hchain
    exact .inl (kinds_of_icmp hchain)
  | ok o =>
    rw [hfind] at hcarries
    dsimp only at hcarries
    split_ifs at hcarries
    exact .inr (plain_of_walked hfind (of_decide_eq_true hcarries).1 hchain)

/-- The checks of `answerable`, in order. -/
theorem answerable_iff : answerable raw = true ↔ ¬Refused raw ∧ carriesICMPError raw = false := by
  rw [answerable, Refused, sender]
  dsimp only
  by_cases hheader : raw.length < ipv6HeaderLen ∨ raw.getD 0 0 >>> 4 ≠ 6
  · rw [if_pos hheader]
    tauto
  · rw [if_neg hheader]
    split_ifs with hends
    · simp only [Bool.or_eq_true] at hends
      tauto
    · simp only [Bool.or_eq_true, not_or] at hends
      simp only [Bool.not_eq_true', not_or, not_not] at hheader ⊢
      tauto

theorem icmpError_eq_none_iff {code : UInt8} {pointer : Nat} :
    icmpError raw source kind code pointer = none ↔ usable source = false ∨ answerable raw = false := by
  rw [icmpError]
  split_ifs with h <;> simpa using h

/-- The one check that both errors make. -/
theorem unanswered_iff : Unanswered raw source ↔ usable source = false ∨ answerable raw = false := by
  rw [Unanswered, timeExceeded, icmpError_eq_none_iff, and_iff_left_iff_imp]
  intro h
  rw [parameterProblem]
  split_ifs
  · rfl
  · cases findRouting raw with
    | error e => rfl
    | ok offset => exact icmpError_eq_none_iff.2 h

end IcmpErrorAux

open IcmpErrorAux

/-- No error is built for a packet whose upper-layer header is an ICMPv6 error exactly when the answer would have no usable source, or
the packet is one that `answerable` refuses for its header, or the error stands behind no extension header or behind at most seven
Hop-by-Hop and Destination Options headers and a routing header. None is built for a packet sent from the unspecified address or a
group. -/
theorem errors_not_answered (raw : List UInt8) (source : Addr) :
    (∀ kinds, CarriesError raw kinds → (Unanswered raw source ↔ usable source = false ∨ Refused raw ∨ Plain kinds)) ∧
      ((sender raw).isUnspecified = true ∨ (sender raw).isMulticast = true → Unanswered raw source) := by
  have hanswerable : answerable raw = false ↔ Refused raw ∨ carriesICMPError raw = true := by
    rw [← Bool.not_eq_true, answerable_iff, ← Bool.not_eq_true]
    tauto
  refine ⟨fun kinds herror => ?_, fun hsender => ?_⟩
  · rw [unanswered_iff, hanswerable, carriesICMPError_iff herror]
  · rw [unanswered_iff, hanswerable, Refused]
    tauto

/-- A packet from `::1` to the segment `::2`, its hop limit used up, with a segment list and some bytes behind it. -/
def steeredPacket (next : UInt8) (payload : List UInt8) : List UInt8 :=
  [0x60, 0, 0, 0, 0, UInt8.ofNat (24 + payload.length), nextHeaderRouting, 1] ++ (toBytes 1#128 ++ (toBytes 2#128 ++
    ([next, 2, routingTypeSegment, 1, 0, 0, 0, 0] ++ (toBytes 3#128 ++ payload))))

theorem errors_not_answered_routed : CarriesError (steeredPacket icmpv6Next [1, 0, 0, 0]) [nextHeaderRouting] ∧
    Unanswered (steeredPacket icmpv6Next [1, 0, 0, 0]) (.v6 2#128 "") := by
  have hcarries : CarriesError (steeredPacket icmpv6Next [1, 0, 0, 0]) [nextHeaderRouting] :=
    ⟨64, .extension (show extensionLen _ _ = some 24 by decide) (by decide) (.upper fun _ => rfl), by decide, by decide⟩
  exact ⟨hcarries, ((errors_not_answered _ _).1 _ hcarries).2 (.inr (.inr (.inr ⟨[], rfl, by decide, by simp⟩)))⟩

/-- Behind the routing header and a Destination Options header stands an ICMPv6 error. The waypoint refuses the packet for its hop
limit, and Time Exceeded is built for it. -/
theorem error_answered : ∃ raw kinds, CarriesError raw kinds ∧ endSegment raw = .error .hopLimit ∧
    (timeExceeded raw (.v6 2#128 "")).isSome = true := by
  refine ⟨steeredPacket nextHeaderDestOpts [icmpv6Next, 0, 1, 4, 0, 0, 0, 0, 1, 0, 0, 0], [nextHeaderRouting, nextHeaderDestOpts],
    ⟨72, ?_, by decide, by decide⟩, by decide +kernel, by decide +kernel⟩
  exact .extension (show extensionLen _ _ = some 24 by decide) (by decide)
    (.extension (show extensionLen _ _ = some 8 by decide) (by decide) (.upper fun _ => rfl))

/-! ## What an answer is -/

/-- The pseudo-header that a receiver checks an answer with. -/
def receivedPseudoHeader (answer : List UInt8) : List UInt8 :=
  (answer.drop 8).take 32 ++ (toBytes (BitVec.ofNat 32 (answer.length - ipv6HeaderLen)) ++ [0, 0, 0, icmpv6Next])

/-- An answer to a packet is well formed: it fits the minimum MTU, is as long as it says, goes from the segment to the sender of the
packet, quotes as much of the packet as fits, and its checksum verifies. -/
structure WellFormed (raw answer : List UInt8) (source : Addr) : Prop where
  fits : answer.length ≤ minimumIPv6MTU
  version : answer.getD 0 0 >>> 4 = 6
  length : ipv6HeaderLen + (wordAt 16 answer 4).toNat = answer.length
  next : answer.getD 6 0 = icmpv6Next
  source : wordAt 128 answer 8 = source.as16
  destination : wordAt 128 answer 24 = wordAt 128 raw 8
  quoted : answer.drop (ipv6HeaderLen + icmpHeaderLen) = raw.take (minimumIPv6MTU - ipv6HeaderLen - icmpHeaderLen)
  whole : raw.length ≤ minimumIPv6MTU - ipv6HeaderLen - icmpHeaderLen → answer.drop (ipv6HeaderLen + icmpHeaderLen) = raw
  checksum : sum 65535 (words (receivedPseudoHeader answer ++ answer.drop ipv6HeaderLen)) = 65535

namespace IcmpErrorAux

/-- The sum of a short run of bytes, folded. -/
theorem toNat_ones {carrying : UInt32} {b : List UInt8} (hcarrying : carrying.toNat ≤ 65535) (hb : b.length ≤ 1280) :
    (ones carrying b).toNat = norm 65535 (carrying.toNat + (words b).sum) := by
  have hsum := sum_words_le b
  rw [ones, toNat_foldCarries, toNat_addBytes, Nat.mod_eq_of_lt (by omega)]

/-- The checksum of a message makes the sum a multiple of all ones. -/
theorem toNat_icmpChecksum (source destination : Addr) {body : List UInt8} (hbody : body.length ≤ 1280) :
    (icmpChecksum source destination body).toNat =
      65535 - norm 65535 ((words (pseudoHeader source destination body.length)).sum + (words body).sum) := by
  have hpseudo : (pseudoHeader source destination body.length).length ≤ 1280 := by simp [pseudoHeader, addr16]
  have hfirst : (ones 0 (pseudoHeader source destination body.length)).toNat =
      norm 65535 (words (pseudoHeader source destination body.length)).sum := by
    rw [toNat_ones (by decide) hpseudo]
    exact congrArg _ (Nat.zero_add _)
  have hboth : (ones (ones 0 (pseudoHeader source destination body.length)) body).toNat =
      norm 65535 ((words (pseudoHeader source destination body.length)).sum + (words body).sum) := by
    rw [toNat_ones (by rw [hfirst]; exact norm_le (by decide) _) hbody, hfirst, norm_norm_add]
  have hle := norm_le (m := 65535) (by decide) ((words (pseudoHeader source destination body.length)).sum + (words body).sum)
  rw [icmpChecksum, UInt16.toNat_not, UInt32.toNat_toUInt16, hboth, Nat.mod_eq_of_lt (by omega)]
  rfl

/-- The words of a message: its checksum, and what they are without it. -/
theorem sum_icmpMessage (kind code : UInt8) (checksum : UInt16) (pointer : Nat) (quoted : List UInt8) :
    (words (icmpMessage kind code checksum pointer quoted)).sum =
      (words (icmpMessage kind code 0 pointer quoted)).sum + checksum.toNat := by
  have hsplit : ∀ c : UInt16, (words (icmpMessage kind code c pointer quoted)).sum =
      (words [kind, code]).sum + (c.toNat + (words (toBytes (BitVec.ofNat 32 pointer) ++ quoted)).sum) := by
    intro c
    have happend : icmpMessage kind code c pointer quoted =
        [kind, code] ++ (toBytes c.toBitVec ++ (toBytes (BitVec.ofNat 32 pointer) ++ quoted)) := rfl
    rw [happend, words_append (by simp), words_append (by simp), words_toBytes, List.sum_append, List.sum_append, List.sum_singleton]
    rfl
  rw [hsplit checksum, hsplit 0, UInt16.toNat_zero]
  omega

theorem drop_icmpMessage (kind code : UInt8) (checksum : UInt16) (pointer : Nat) (quoted : List UInt8) :
    (icmpMessage kind code checksum pointer quoted).drop icmpHeaderLen = quoted := rfl

/-- What is built, with its first eight bytes apart. -/
theorem icmpError_some {raw answer : List UInt8} {source : Addr} {kind code : UInt8} {pointer : Nat}
    (h : icmpError raw source kind code pointer = some answer) :
    ∃ quoted, quoted = raw.take (minimumIPv6MTU - ipv6HeaderLen - icmpHeaderLen) ∧
      answer = ([0x60, 0, 0, 0] ++ (toBytes (BitVec.ofNat 16 (icmpHeaderLen + quoted.length)) ++ [icmpv6Next, defaultHopLimit])) ++
        (addr16 source ++ (addr16 (sender raw) ++
          icmpMessage kind code (icmpChecksum source (sender raw) (icmpMessage kind code 0 pointer quoted)) pointer quoted)) := by
  unfold icmpError at h
  split_ifs at h
  have hquoted : raw.take (min raw.length (minimumIPv6MTU - ipv6HeaderLen - icmpHeaderLen)) =
      raw.take (minimumIPv6MTU - ipv6HeaderLen - icmpHeaderLen) := by
    rw [Nat.min_comm, ← List.take_take, List.take_length]
  rw [hquoted] at h
  refine ⟨_, rfl, ?_⟩
  rw [← Option.some.inj h, SafetyAux.length_icmpMessage]
  simp only [sender, List.append_assoc, List.cons_append, List.nil_append]

/-- The sum over what a receiver checks is all ones, whatever is quoted. -/
theorem checksum_verifies (source destination : Addr) (kind code : UInt8) (pointer : Nat) {quoted : List UInt8}
    (hquoted : quoted.length ≤ 1232) :
    sum 65535 (words (pseudoHeader source destination (icmpHeaderLen + quoted.length) ++
      icmpMessage kind code (icmpChecksum source destination (icmpMessage kind code 0 pointer quoted)) pointer quoted)) = 65535 := by
  have hlength := SafetyAux.length_icmpMessage kind code 0 pointer quoted
  have hchecksum := toNat_icmpChecksum source destination (show (icmpMessage kind code 0 pointer quoted).length ≤ 1280 by
    rw [hlength, icmpHeaderLen]; omega)
  have heven : (pseudoHeader source destination (icmpHeaderLen + quoted.length)).length % 2 = 0 := by simp [pseudoHeader, addr16]
  -- the protocol number is in it, so the sum is not zero
  have hpos : (words (pseudoHeader source destination (icmpHeaderLen + quoted.length))).sum ≠ 0 := by
    have hnext : (words [0, 0, 0, icmpv6Next]).sum = 58 := by decide
    rw [pseudoHeader, words_append (by simp [addr16]), words_append (by simp [addr16]), words_append (by simp)]
    simp only [List.sum_append, hnext]
    omega
  rw [hlength] at hchecksum
  rw [sum_eq_norm (by decide) words_le, norm_eq_top (by decide), words_append heven, List.sum_append, sum_icmpMessage, hchecksum]
  generalize (words (pseudoHeader source destination (icmpHeaderLen + quoted.length))).sum = p at hpos ⊢
  generalize (words (icmpMessage kind code 0 pointer quoted)).sum = b
  have hmod := norm_modEq (m := 65535) (p + b)
  have hle := norm_le (m := 65535) (by decide) (p + b)
  refine ⟨by omega, (Nat.modEq_zero_iff_dvd).1 ?_⟩
  calc p + (b + (65535 - norm 65535 (p + b))) = p + b + (65535 - norm 65535 (p + b)) := by omega
    _ ≡ norm 65535 (p + b) + (65535 - norm 65535 (p + b)) [MOD 65535] := hmod.symm.add_right _
    _ = 65535 := by omega
    _ ≡ 0 [MOD 65535] := by decide

theorem wellFormed_icmpError {raw answer : List UInt8} {source : Addr} {kind code : UInt8} {pointer : Nat}
    (h : icmpError raw source kind code pointer = some answer) : WellFormed raw answer source := by
  obtain ⟨quoted, hquoted, hanswer⟩ := icmpError_some h
  have hfew : quoted.length ≤ 1232 := by
    rw [hquoted, List.length_take]
    exact Nat.min_le_left _ _
  have hsize : (toBytes (BitVec.ofNat 16 (icmpHeaderLen + quoted.length))).length = 2 := by simp
  have hsource := length_addr16 source
  have hsender := length_addr16 (sender raw)
  have hmessage := SafetyAux.length_icmpMessage kind code
    (icmpChecksum source (sender raw) (icmpMessage kind code 0 pointer quoted)) pointer quoted
  have hchecksum := checksum_verifies source (sender raw) kind code pointer hfew
  have hquote := drop_icmpMessage kind code (icmpChecksum source (sender raw) (icmpMessage kind code 0 pointer quoted)) pointer quoted
  generalize icmpMessage kind code (icmpChecksum source (sender raw) (icmpMessage kind code 0 pointer quoted)) pointer quoted = message
    at hanswer hmessage hchecksum hquote
  have hlength : answer.length = 48 + quoted.length := by
    rw [hanswer]
    simp only [List.length_append, List.length_cons, List.length_nil, hsize, hsource, hsender, hmessage]
    rw [icmpHeaderLen]
    omega
  have haddrs : answer.drop 8 = addr16 source ++ (addr16 (sender raw) ++ message) := by
    rw [hanswer]
    exact List.drop_left' (by simp [hsize])
  have hdrop : answer.drop ipv6HeaderLen = message := by
    have hforty : answer.drop ipv6HeaderLen = (answer.drop 8).drop (16 + 16) := by rw [List.drop_drop, ipv6HeaderLen]
    rw [hforty, haddrs, ← List.append_assoc]
    exact List.drop_left' (by rw [List.length_append, hsource, hsender])
  have hpseudo : receivedPseudoHeader answer = pseudoHeader source (sender raw) (icmpHeaderLen + quoted.length) := by
    have htake : (answer.drop 8).take 32 = addr16 source ++ addr16 (sender raw) := by
      rw [haddrs, ← List.append_assoc]
      exact List.take_left' (by rw [List.length_append, hsource, hsender])
    have hpayload : answer.length - ipv6HeaderLen = icmpHeaderLen + quoted.length := by
      rw [hlength, ipv6HeaderLen, icmpHeaderLen]
      omega
    rw [receivedPseudoHeader, htake, hpayload, pseudoHeader, List.append_assoc]
  have hbody : answer.drop (ipv6HeaderLen + icmpHeaderLen) = quoted := by rw [← List.drop_drop, hdrop, hquote]
  refine ⟨?_, ?_, ?_, ?_, ?_, ?_, ?_, ?_, ?_⟩
  · rw [hlength, minimumIPv6MTU]
    omega
  · rw [hanswer]
    show (0x60 : UInt8) >>> 4 = 6
    decide
  · have hword : wordAt 16 answer 4 = BitVec.ofNat 16 (icmpHeaderLen + quoted.length) := by
      rw [hanswer, List.append_assoc, List.append_assoc]
      exact wordAt_append _ rfl rfl _
    rw [hword, BitVec.toNat_ofNat, hlength, Nat.mod_eq_of_lt (by rw [icmpHeaderLen]; omega), ipv6HeaderLen, icmpHeaderLen]
    omega
  · rw [hanswer]
    rfl
  · rw [hanswer]
    exact wordAt_append source.as16 rfl (by simp [hsize]) _
  · rw [hanswer, ← List.append_assoc]
    exact wordAt_append (sender raw).as16 rfl (by simp [hsize, hsource]) _
  · rw [hbody, hquoted]
  · intro hwhole
    rw [hbody, hquoted, List.take_of_length_le hwhole]
  · rw [hpseudo, hdrop]
    exact hchecksum

end IcmpErrorAux

/-- Every answer is well formed. -/
theorem answers_well_formed {raw answer : List UInt8} {source : Addr}
    (h : timeExceeded raw source = some answer ∨ parameterProblem raw source = some answer) : WellFormed raw answer source := by
  rcases h with h | h
  · exact wellFormed_icmpError h
  · unfold parameterProblem at h
    split_ifs at h
    cases hfind : findRouting raw with
    | error e =>
      rw [hfind] at h
      cases h
    | ok offset =>
      rw [hfind] at h
      exact wellFormed_icmpError h

theorem answers_well_formed_odd : ∃ answer, timeExceeded (steeredPacket 59 [7]) (.v6 2#128 "") = some answer ∧
    WellFormed (steeredPacket 59 [7]) answer (.v6 2#128 "") := by
  have hsome : (timeExceeded (steeredPacket 59 [7]) (.v6 2#128 "")).isSome = true := by decide +kernel
  obtain ⟨answer, hanswer⟩ := Option.isSome_iff_exists.mp hsome
  exact ⟨answer, hanswer, answers_well_formed (.inl hanswer)⟩

end RanetLite.Srv6
