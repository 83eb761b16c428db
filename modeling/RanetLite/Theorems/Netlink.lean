import RanetLite.Kernel.Netlink
import RanetLite.Theorems.Converge

/-!
# What is installed reads back equal

Every attribute of a message is written at most once, so what a fold over them gathers is what stood in the route or the rule, or the
zero value it is left out for. What is read of any other message carries the marker of the reconciler.
-/

namespace RanetLite.Kernel

open Bytes Netip ConvergeAux

/-- The value of the last attribute of a kind. -/
def lastValue (kind : UInt16) (attrs : List (UInt16 × List UInt8)) : Option (List UInt8) :=
  (attrs.filter fun a => a.1 = kind).getLast?.map Prod.snd

/-- The number in the last attribute of a kind that has four bytes. -/
def lastU32 (e : Endian) (kind : UInt16) (attrs : List (UInt16 × List UInt8)) : Option UInt32 :=
  (attrs.filter fun a => a.1 = kind ∧ a.2.length = 4).getLast?.map fun a => UInt32.ofBitVec (e.get 32 a.2)

/-- The table a dumped route is in: what its attribute carries, or else the byte of the header. -/
def Message.table (e : Endian) (msg : Message) : UInt32 := (lastU32 e rtaTable (msg.attributes e)).getD (msg.data.getD 4 0).toUInt32

/-- The device a dumped route leaves by. -/
def Message.device (e : Endian) (msg : Message) : UInt32 := (lastU32 e rtaOif (msg.attributes e)).getD 0

namespace NetlinkAux

variable {e : Endian} {m : Marker} {p : Prefix} {route : Route} {rule : Rule} {dstLen srcLen : UInt8}

/-- An address without a zone is read back from its bytes. -/
theorem addressFromBytes_addressBytes {a : Addr} (h : a.isValid = true) (hz : a.zone = "") :
    addressFromBytes (addressBytes a) = a := by
  cases a with
  | zero => cases h
  | v4 x => rw [addressBytes, addressFromBytes, if_pos (length_toBytes x), ofBytes_toBytes x rfl]
  | v6 x z =>
    obtain rfl : z = "" := hz
    have hlen : (toBytes x).length = 16 := length_toBytes x
    rw [addressBytes, addressFromBytes, if_neg (by omega), if_pos hlen, ofBytes_toBytes x rfl]

/-- So is the address of a prefix. -/
theorem address_addr (h : p.isValid = true) : addressFromBytes (addressBytes p.addr) = p.addr :=
  addressFromBytes_addressBytes (by simpa [Addr.isValid] using Prefix.addr_ne_zero h) p.noZone

theorem address_valid (h : p.isValid = true) : (addressFromBytes (addressBytes p.addr)).isValid = true := by
  rw [address_addr h]
  simpa [Addr.isValid] using Prefix.addr_ne_zero h

/-- An address takes at most sixteen bytes. -/
theorem length_addressBytes (a : Addr) : (addressBytes a).length ≤ 16 := by
  cases a <;> simp [addressBytes]

/-- A number takes four bytes. -/
theorem length_putU32_le (x : UInt32) : (putU32 e x).length ≤ 16 := by
  rw [putU32, Endian.length_put]
  decide

/-- A number is read back from its attribute. -/
theorem readU32_putU32 (x before : UInt32) : readU32 e (putU32 e x) before = x := by
  rw [readU32, putU32, if_pos (e.length_put _), Endian.get_put e _ rfl]

/-- The length of a prefix fits its byte. -/
theorem toNat_bits (h : p.isValid = true) : ((UInt8.ofInt p.bits).toNat : Int) = p.bits := by
  have hnonneg := Prefix.bits_nonneg h
  have hle := p.bits_toNat_le
  have hwidth := p.ip.bitLen_le
  rw [← hnonneg, UInt8.ofInt, UInt8.toNat_ofNat']
  omega

/-- A masked prefix is canonical already. -/
theorem canonicalPrefix_self (hvalid : p.isValid = true) (hmasked : p.masked = p) :
    canonicalPrefix (prefixFrom p.addr p.bits) = some p := by
  have hneg : ¬ (!p.isValid) = true := by simp [hvalid]
  rw [prefixFrom_self hvalid, canonicalPrefix, if_neg hneg, Addr.withoutZone_of_zone p.noZone, prefixFrom_self hvalid]
  dsimp only
  rw [if_neg hneg, hmasked]

/-- The attributes of a message are those put behind its header. -/
theorem attributes_message {kind : UInt16} {header : List UInt8} {attrs : List (UInt16 × List UInt8)} (hlen : header.length = headerLen)
    (h : ∀ a ∈ attrs, a.2.length ≤ 16) : (Message.mk kind (header ++ Attributes.putAll e attrs)).attributes e = attrs := by
  rw [Message.attributes, List.drop_left' hlen, Attributes.split_putAll]
  intro a ha
  have := h a ha
  omega

/-- An attribute that may be left out is folded in where it is there. -/
theorem foldl_ite {α β : Type} {c : Prop} [Decidable c] (f : β → α → β) (s : β) (a : α) :
    (if c then [a] else []).foldl f s = if c then f s a else s := by split_ifs <;> rfl

/-! ### Routes -/

/-- What the codec asks of a route. Every route that is wanted is such a one. -/
structure Encodable (route : Route) : Prop where
  destination : route.destination.isValid = true ∧ route.destination.masked = route.destination
  source : route.source = .none ∨ route.source.isValid = true ∧ route.source.masked = route.source ∧ route.source.bits ≠ 0
  prefSrc : route.prefSrc.zone = ""
  unscoped : route.scoped_ = false

/-- A canonical prefix is valid and masked, and no shorter or longer. -/
theorem canonicalPrefix_spec {q : Prefix} (h : canonicalPrefix p = some q) : q.isValid = true ∧ q.masked = q ∧ q.bits = p.bits := by
  obtain ⟨hp, rfl⟩ := canonicalPrefix_eq h
  exact ⟨by rw [Prefix.isValid_masked]; exact hp, Prefix.masked_masked p, (Prefix.masked_spec hp).2.1⟩

/-- A source prefix that is there restricts something. -/
theorem sourceOf_spec {destination source q : Prefix} (h : sourceOf destination source = some q) :
    q = .none ∨ q.isValid = true ∧ q.masked = q ∧ q.bits ≠ 0 := by
  rw [sourceOf] at h
  by_cases hzero : source.isValid = true ∧ source.bits = 0
  · rw [if_pos hzero] at h
    cases h
    exact .inl rfl
  · rw [if_neg hzero] at h
    split_ifs at h with hvalid
    · cases h
      exact .inl rfl
    · split at h
      · cases h
      · rename_i canonical hcanonical
        split_ifs at h
        cases h
        obtain ⟨hq, hmasked, hbits⟩ := canonicalPrefix_spec hcanonical
        exact .inr ⟨hq, hmasked, fun h0 => hzero ⟨by simpa using hvalid, hbits ▸ h0⟩⟩

/-- Every route that is wanted can be encoded. -/
theorem encodable_of_desired {r : Reconciler} (hprefSrc : r.table.prefSrc4.isValid = true → r.table.prefSrc4.is4 = true)
    {entries : List (Sadr.Route Babel.FibTarget)} (h : route ∈ r.desired entries) : Encodable route := by
  obtain ⟨entry, -, h⟩ := List.mem_filterMap.mp h
  obtain ⟨destination, hcanonical, h⟩ := Option.bind_eq_some_iff.mp h
  rw [Option.ite_none_left_eq_some] at h
  obtain ⟨-, h⟩ := Option.ite_none_left_eq_some.mp h.2
  obtain ⟨source, hsource, rfl⟩ := Option.map_eq_some_iff.mp h
  obtain ⟨hvalid, hmasked, -⟩ := canonicalPrefix_spec hcanonical
  refine ⟨⟨hvalid, hmasked⟩, sourceOf_spec hsource, ?_, rfl⟩
  dsimp only
  split_ifs with h4
  · have h4' := hprefSrc h4.2
    generalize r.table.prefSrc4 = a at h4'
    cases a <;> first | rfl | cases h4'
  · rfl

/-- What each attribute of a route is taken for. -/
theorem take_values (s : RouteAttributes) (value : List UInt8) :
    s.take e (rtaTable, value) = { s with table := readU32 e value s.table } ∧
    s.take e (rtaDst, value) = { s with destination := addressFromBytes value } ∧
    s.take e (rtaSrc, value) = { s with source := addressFromBytes value } ∧
    s.take e (rtaPrefSrc, value) = { s with prefSrc := addressFromBytes value } ∧
    s.take e (rtaOif, value) = { s with oif := readU32 e value s.oif } ∧
    s.take e (rtaPriority, value) = { s with metric := readU32 e value s.metric } :=
  ⟨rfl, rfl, rfl, rfl, rfl, rfl⟩

/-- What the fold gathers from a message of ours. -/
theorem foldl_route (e : Endian) (m : Marker) (h : Encodable route) (table : UInt32) :
    (routeAttributes e m route).foldl (RouteAttributes.take e) { table := table } =
    { table := m.table
      destination := if 0 < route.destination.bits then route.destination.addr else .zero
      source := if route.source.isValid ∧ 0 < route.source.bits then route.source.addr else .zero
      prefSrc := route.prefSrc
      oif := if !route.unreachable then m.index else 0
      metric := route.metric } := by
  have hsource : addressFromBytes (addressBytes route.source.addr) = route.source.addr ∨ ¬ route.source.isValid = true := by
    rcases h.source with hnone | ⟨hvalid, -⟩
    · exact .inr (by rw [hnone]; simp [Prefix.none, Prefix.isValid])
    · exact .inl (address_addr hvalid)
  have hprefSrc : route.prefSrc.isValid = false → route.prefSrc = .zero := by simp [Addr.isValid]
  simp only [routeAttributes, List.foldl_append, foldl_ite, List.foldl_cons, List.foldl_nil, take_values,
    readU32_putU32, address_addr h.destination.1]
  cases hpref : route.prefSrc.isValid with
  | false =>
    rw [hprefSrc hpref]
    split_ifs <;> simp_all
  | true =>
    rw [addressFromBytes_addressBytes hpref h.prefSrc]
    split_ifs <;> simp_all

/-- The attributes of a route message are those of the route. -/
theorem attributes_route (e : Endian) (m : Marker) (route : Route) (del : Bool) :
    (Message.mk rtmNewRoute (routeMessage e m route del)).attributes e = routeAttributes e m route := by
  refine attributes_message rfl ?_
  intro a ha
  simp only [routeAttributes, List.mem_append, List.mem_ite_nil_right, List.mem_singleton] at ha
  rcases ha with ((((rfl | ⟨-, rfl⟩) | ⟨-, rfl⟩) | ⟨-, rfl⟩) | ⟨-, rfl⟩) | rfl <;>
    first | exact length_putU32_le _ | exact length_addressBytes _

/-- A masked prefix of length zero is at the unspecified address. -/
theorem addr_of_default (hvalid : p.isValid = true) (hmasked : p.masked = p) (h0 : p.bits = 0) :
    p.addr = unspecified (if p.addr.is4 then afInet else afInet6) := by
  have hip : p.masked.ip = p.ip := by rw [hmasked]
  rw [Prefix.masked, if_pos (Prefix.isValid_iff.mp hvalid), h0] at hip
  have hne := Prefix.addr_ne_zero hvalid
  rw [Prefix.addr]
  generalize p.ip = a at hip hne
  cases a with
  | zero => exact absurd rfl hne
  | v4 x =>
    simp [prefixFrom, Addr.bitLen, Addr.withoutZone, BitPrefix.keepHigh] at hip
    simp [unspecified, Addr.is4, hip]
  | v6 x z =>
    simp [prefixFrom, Addr.bitLen, Addr.withoutZone, BitPrefix.keepHigh] at hip
    simp [unspecified, Addr.is4, hip, afInet, afInet6]

/-- The header carries the length of a prefix that is there. -/
theorem bitsByte_of_valid (h : p.isValid = true) : ((bitsByte p).toNat : Int) = p.bits := by
  rw [bitsByte, if_pos h, toNat_bits h]

/-- A route is read back from the message that installs it. -/
theorem decodeRoute_routeMessage (e : Endian) (m : Marker) (h : Encodable route) :
    decodeRoute e m ⟨rtmNewRoute, routeMessage e m route false⟩ = some route := by
  obtain ⟨hdst, hmasked⟩ := h.destination
  have hlen : ¬ (rtmNewRoute ≠ rtmNewRoute ∨ (routeMessage e m route false).length < headerLen) := by
    simp [routeMessage, routeHeader, headerLen]
  have haddr : (if (if 0 < route.destination.bits then route.destination.addr else .zero).isValid = true then
      if 0 < route.destination.bits then route.destination.addr else .zero
      else unspecified (if route.destination.addr.is4 then afInet else afInet6)) = route.destination.addr := by
    by_cases hbits : 0 < route.destination.bits
    · rw [if_pos hbits, if_pos (by simpa [Addr.isValid] using Prefix.addr_ne_zero hdst)]
    · have hzero : route.destination.bits = 0 := by
        have := Prefix.bits_nonneg hdst
        omega
      rw [if_neg hbits, if_neg (by simp [Addr.isValid]), ← addr_of_default hdst hmasked hzero]
  have hkind : ((if route.unreachable = true then rtnUnreachable else rtnUnicast) == rtnUnreachable) = route.unreachable := by
    cases route.unreachable <;> rfl
  have hheader : decodeRoute e m ⟨rtmNewRoute, routeMessage e m route false⟩ =
      ((routeAttributes e m route).foldl (RouteAttributes.take e) { table := ((routeHeader m route false).getD 4 0).toUInt32 }).route m
        (if route.destination.addr.is4 then afInet else afInet6) (UInt8.ofInt route.destination.bits) (bitsByte route.source)
        (if route.unreachable then rtnUnreachable else rtnUnicast) := by
    have hours : ¬ (m.proto ≠ m.proto ∨ (if route.unreachable then rtnUnreachable else rtnUnicast) ≠ rtnUnicast ∧
        (if route.unreachable then rtnUnreachable else rtnUnicast) ≠ rtnUnreachable) := by
      cases route.unreachable <;> simp
    have hfamily : ¬ ((if route.destination.addr.is4 then afInet else afInet6) ≠ afInet ∧
        (if route.destination.addr.is4 then afInet else afInet6) ≠ afInet6) := by
      cases route.destination.addr.is4 <;> simp
    rw [decodeRoute, attributes_route]
    exact (if_neg hlen).trans ((if_neg hours).trans (if_neg hfamily))
  rw [hheader, foldl_route e m h, RouteAttributes.route, if_neg (by cases route.unreachable <;> simp [rtnUnicast, rtnUnreachable])]
  dsimp only
  rw [haddr, if_neg (by cases route.destination.addr.is4 <;> simp [afInet, afInet6]), toNat_bits hdst,
    canonicalPrefix_self hdst hmasked, Option.bind_some, hkind]
  rcases h.source with hnone | ⟨hvalid, hsrc, hbits⟩
  · rw [if_pos (by rw [hnone]; rfl), ← hnone, ← h.unscoped]
  · have hpos : 0 < route.source.bits := by
      have := Prefix.bits_nonneg hvalid
      omega
    have hsome := bitsByte_of_valid hvalid
    rw [if_pos (⟨hvalid, hpos⟩ : route.source.isValid = true ∧ 0 < route.source.bits),
      if_neg (fun hzero => hbits (by rw [← hsome, hzero]; rfl)),
      if_neg (by simpa [Addr.isValid] using Prefix.addr_ne_zero hvalid), hsome, canonicalPrefix_self hvalid hsrc, ← h.unscoped]
    rfl

/-! ### Rules -/

/-- The attributes of a rule message are those of the rule. -/
theorem attributes_rule (e : Endian) (m : Marker) (kind : UInt16) (rule : Rule) :
    (Message.mk kind (ruleMessage e m rule)).attributes e = ruleAttributes e m rule := by
  refine attributes_message rfl ?_
  intro a ha
  simp only [ruleAttributes, List.mem_append, List.mem_ite_nil_right, List.mem_cons, List.not_mem_nil, or_false] at ha
  rcases ha with ((((rfl | rfl | rfl) | ⟨-, rfl⟩) | ⟨-, rfl⟩) | ⟨-, rfl⟩) | ⟨-, rfl⟩ <;>
    first | exact length_putU32_le _ | exact length_addressBytes _ | exact Nat.le_add_left 1 15

section

variable (s : Rule × Bool)

/-- What each attribute of a rule is taken for, but for the selectors. -/
theorem takeRule_values (dstLen srcLen : UInt8) (value : List UInt8) :
    takeRule e m dstLen srcLen s (fraProtocol, value) = (s.1, decide (value = [m.proto])) ∧
    takeRule e m dstLen srcLen s (fraTable, value) = ({ s.1 with table := readU32 e value s.1.table }, s.2) ∧
    takeRule e m dstLen srcLen s (fraPriority, value) = ({ s.1 with priority := readU32 e value s.1.priority }, s.2) ∧
    takeRule e m dstLen srcLen s (fraFwMark, value) = ({ s.1 with fwMark := readU32 e value s.1.fwMark }, s.2) ∧
    takeRule e m dstLen srcLen s (fraFwMask, value) = ({ s.1 with fwMask := readU32 e value s.1.fwMask }, s.2) :=
  ⟨rfl, rfl, rfl, rfl, rfl⟩

/-- The destination selector, where a rule has one, is read back. -/
theorem takeRule_dst (srcLen : UInt8) (h : p.isValid = true ∨ p = .none) (hs : s.1.to_ = .none) :
    (if p.isValid = true then takeRule e m (bitsByte p) srcLen s (fraDst, addressBytes p.addr) else s) = ({ s.1 with to_ := p }, s.2) := by
  rcases h with h | rfl
  · refine (if_pos h).trans ((congrArg (·, s.2) (if_pos (address_valid h))).trans ?_)
    rw [address_addr h, bitsByte_of_valid h, prefixFrom_self h]
  · rw [if_neg (by decide), ← hs]

/-- The source selector, where a rule has one, is read back. -/
theorem takeRule_src (dstLen : UInt8) (h : p.isValid = true ∨ p = .none) (hs : s.1.from_ = .none) :
    (if p.isValid = true then takeRule e m dstLen (bitsByte p) s (fraSrc, addressBytes p.addr) else s) = ({ s.1 with from_ := p }, s.2) := by
  rcases h with h | rfl
  · refine (if_pos h).trans ((congrArg (·, s.2) (if_pos (address_valid h))).trans ?_)
    rw [address_addr h, bitsByte_of_valid h, prefixFrom_self h]
  · rw [if_neg (by decide), ← hs]

end

/-- A selector that is not there is the zero prefix, as it is when the file names none. -/
def Configured (rule : Rule) : Prop :=
  (rule.to_.isValid = true ∨ rule.to_ = .none) ∧ (rule.from_.isValid = true ∨ rule.from_ = .none)

/-- What the fold gathers from a rule message of ours is the rule, marked as ours. -/
theorem foldl_rule (e : Endian) (m : Marker) (hvalid : rule.Valid) (hconfigured : Configured rule) :
    (ruleAttributes e m rule).foldl (takeRule e m (bitsByte rule.to_) (bitsByte rule.from_))
      ({ table := 0, priority := 0, family := rule.family }, false) = (rule, true) := by
  obtain ⟨to_, from_, fwMark, fwMask, table, priority, family⟩ := rule
  have hmask := hvalid.mask
  simp only [ruleAttributes, List.foldl_append, foldl_ite, List.foldl_cons, List.foldl_nil, takeRule_values, readU32_putU32, decide_true]
  rw [takeRule_dst _ _ hconfigured.1 rfl, takeRule_src _ _ hconfigured.2 rfl]
  by_cases hmark : fwMark = 0
  · obtain rfl : fwMask = 0 := hmask hmark
    simp [hmark]
  · by_cases hzero : fwMask = 0 <;> simp [hmark, hzero]

/-- A rule is read back from the message that installs it. -/
theorem decodeRule_ruleMessage (e : Endian) (m : Marker) (kind : UInt16) (hvalid : rule.Valid) (hcanonical : rule.canonical = rule)
    (hconfigured : Configured rule) : decodeRule e m ⟨kind, ruleMessage e m rule⟩ = some rule := by
  have hlen : ¬ (ruleMessage e m rule).length < headerLen := by simp [ruleMessage, headerLen]
  have hfamily : ¬ (rule.family.af ≠ afInet ∧ rule.family.af ≠ afInet6) := by
    rw [Family.af]
    split_ifs <;> simp
  have hstart : (if rule.family.af = afInet then Family.ipv4 else .ipv6) = rule.family := by
    rcases hvalid.family with h | h <;> rw [h] <;> rfl
  have hours : ¬ ((!true) = true ∨ rule.table = 0 ∨ rule.priority = 0) := by simp [hvalid.table, hvalid.priority]
  rw [decodeRule, attributes_rule]
  refine (if_neg hlen).trans ((if_neg hfamily).trans ((if_neg (not_not.mpr rfl)).trans ?_))
  have hbytes : ∀ start : Rule, (ruleAttributes e m rule).foldl (takeRule e m ((ruleMessage e m rule).getD 1 0)
      ((ruleMessage e m rule).getD 2 0)) (start, false) =
      (ruleAttributes e m rule).foldl (takeRule e m (bitsByte rule.to_) (bitsByte rule.from_)) (start, false) := fun _ => rfl
  have hhead : (ruleMessage e m rule).getD 0 0 = rule.family.af := rfl
  simp only [hbytes, hhead, hstart, foldl_rule e m hvalid hconfigured]
  rw [if_neg hours, hcanonical]

/-! ### Other messages -/

/-- A field that one kind of attribute sets is what the last of that kind carries. -/
theorem foldl_lastU32 {S : Type} {step : S → UInt16 × List UInt8 → S} {field : S → UInt32} {kind : UInt16}
    (h : ∀ s a, field (step s a) = if a.1 = kind then readU32 e a.2 (field s) else field s) (attrs : List (UInt16 × List UInt8)) (s : S) :
    field (attrs.foldl step s) = (lastU32 e kind attrs).getD (field s) := by
  induction attrs using List.reverseRecOn with
  | nil => rfl
  | append_singleton attrs a ih =>
    rw [List.foldl_append, List.foldl_cons, List.foldl_nil, h, ih, lastU32, lastU32, List.filter_append, List.filter_singleton]
    by_cases hkind : a.1 = kind
    · by_cases hlen : a.2.length = 4 <;> simp [hkind, hlen, readU32]
    · simp [hkind]

/-- A rule counts as ours only if its last protocol attribute names ours. -/
theorem foldl_protocol (attrs : List (UInt16 × List UInt8)) (h : (attrs.foldl (takeRule e m dstLen srcLen) (rule, false)).2 = true) :
    lastValue fraProtocol attrs = some [m.proto] := by
  induction attrs using List.reverseRecOn with
  | nil => cases h
  | append_singleton attrs a ih =>
    rw [List.foldl_append, List.foldl_cons, List.foldl_nil] at h
    rw [lastValue, List.filter_append, List.filter_singleton]
    by_cases hkind : a.1 = fraProtocol
    · obtain ⟨kind, value⟩ := a
      obtain rfl : kind = fraProtocol := hkind
      rw [(takeRule_values _ dstLen srcLen value).1, decide_eq_true_eq] at h
      simp [h]
    · have hsame : (takeRule e m dstLen srcLen (attrs.foldl (takeRule e m dstLen srcLen) (rule, false)) a).2 =
          (attrs.foldl (takeRule e m dstLen srcLen) (rule, false)).2 := by
        rw [takeRule, if_neg hkind]
        split_ifs <;> rfl
      have hlast := ih (hsame ▸ h)
      rw [lastValue] at hlast
      simpa [hkind] using hlast

/-- The table of a dumped route is that of its last attribute. -/
theorem table_foldl (attrs : List (UInt16 × List UInt8)) (s : RouteAttributes) :
    (attrs.foldl (RouteAttributes.take e) s).table = (lastU32 e rtaTable attrs).getD s.table := by
  refine foldl_lastU32 (fun s a => ?_) attrs s
  rw [RouteAttributes.take]
  split_ifs <;> rfl

/-- So is the device of a dumped route. -/
theorem oif_foldl (attrs : List (UInt16 × List UInt8)) (s : RouteAttributes) :
    (attrs.foldl (RouteAttributes.take e) s).oif = (lastU32 e rtaOif attrs).getD s.oif := by
  refine foldl_lastU32 (fun s a => ?_) attrs s
  rw [RouteAttributes.take]
  split_ifs <;> simp_all [rtaTable, rtaDst, rtaSrc, rtaPrefSrc, rtaOif]

/-- So is the table of a dumped rule. -/
theorem ruleTable_foldl (attrs : List (UInt16 × List UInt8)) (s : Rule × Bool) :
    (attrs.foldl (takeRule e m dstLen srcLen) s).1.table = (lastU32 e fraTable attrs).getD s.1.table := by
  refine @foldl_lastU32 e _ _ (fun s => s.1.table) fraTable (fun s a => ?_) attrs s
  rw [takeRule]
  split_ifs <;> simp_all [fraProtocol, fraTable]

/-- What becomes a route has the table, and a unicast one the device. -/
theorem route_owned {s : RouteAttributes} {family kind : UInt8} (h : s.route m family dstLen srcLen kind = some route) :
    s.table = m.table ∧ (kind = rtnUnicast → s.oif = m.index) ∧ route.unreachable = (kind == rtnUnreachable) := by
  obtain ⟨hmarked, h⟩ := Option.ite_none_left_eq_some.mp h
  rw [not_or, not_not] at hmarked
  refine ⟨hmarked.1, fun hunicast => by_contra fun hne => hmarked.2 ⟨hunicast, hne⟩, ?_⟩
  obtain ⟨-, h⟩ := Option.ite_none_left_eq_some.mp h
  obtain ⟨dst, -, h⟩ := Option.bind_eq_some_iff.mp h
  by_cases hsrc : srcLen = 0
  · rw [if_pos hsrc] at h
    cases h
    rfl
  · rw [if_neg hsrc, Option.ite_none_left_eq_some] at h
    obtain ⟨src, -, rfl⟩ := Option.map_eq_some_iff.mp h.2
    rfl

/-- A message that is read as a route of ours carries the protocol, the table and, unless it holds a prefix back, the device. -/
theorem decodeRoute_owned {msg : Message} (h : decodeRoute e m msg = some route) :
    msg.data.getD 5 0 = m.proto ∧ msg.table e = m.table ∧ (route.unreachable = false → msg.device e = m.index) := by
  obtain ⟨-, h⟩ := Option.ite_none_left_eq_some.mp h
  obtain ⟨hours, h⟩ := Option.ite_none_left_eq_some.mp h
  obtain ⟨-, h⟩ := Option.ite_none_left_eq_some.mp h
  rw [not_or, not_not, not_and_or, not_not, not_not] at hours
  obtain ⟨htable, hoif, hkind⟩ := route_owned h
  rw [table_foldl] at htable
  rw [oif_foldl] at hoif
  refine ⟨hours.1, htable, fun hreachable => hoif (hours.2.resolve_right fun hun => ?_)⟩
  rw [hreachable, hun] at hkind
  cases hkind

theorem table_canonical (rule : Rule) : rule.canonical.table = rule.table := by
  rw [Rule.canonical]
  split_ifs <;> rfl

/-- A message that is read as a rule of ours carries the protocol, and the table that the rule looks up. -/
theorem decodeRule_owned {msg : Message} (h : decodeRule e m msg = some rule) :
    lastValue fraProtocol (msg.attributes e) = some [m.proto] ∧ lastU32 e fraTable (msg.attributes e) = some rule.table := by
  obtain ⟨-, h⟩ := Option.ite_none_left_eq_some.mp h
  obtain ⟨-, h⟩ := Option.ite_none_left_eq_some.mp h
  obtain ⟨-, h⟩ := Option.ite_none_left_eq_some.mp h
  obtain ⟨hours, h⟩ := Option.ite_none_left_eq_some.mp h
  rw [not_or, not_or] at hours
  obtain ⟨hprotocol, htable, -⟩ := hours
  refine ⟨foldl_protocol _ (by simpa using hprotocol), ?_⟩
  obtain rfl := Option.some.inj h
  rw [ruleTable_foldl] at htable
  rw [table_canonical, ruleTable_foldl]
  cases hlast : lastU32 e fraTable (msg.attributes e) with
  | none => exact absurd (by rw [hlast]; rfl) htable
  | some table => rfl

end NetlinkAux

open NetlinkAux

/-- For every byte order, table, protocol and device. Of a table whose preferred source is an IPv4 address, as `Validate` asks, every
route the reconciler can desire is read back from the message that installs it, and so is every rule that is accepted and spelled
canonically. A message that is read as a route of ours carries our protocol and our table, and our device unless it holds a prefix
back; one that is read as a rule of ours carries our protocol and the table of that rule. -/
theorem installed_reads_back (e : Endian) (m : Marker) (r : Reconciler)
    (hprefSrc : r.table.prefSrc4.isValid = true → r.table.prefSrc4.is4 = true) :
    (∀ entries, ∀ route ∈ r.desired entries, decodeRoute e m ⟨rtmNewRoute, routeMessage e m route false⟩ = some route) ∧
      (∀ kind rule, rule.Valid → rule.canonical = rule → Configured rule →
        decodeRule e m ⟨kind, ruleMessage e m rule⟩ = some rule) ∧
      (∀ msg route, decodeRoute e m msg = some route →
        msg.data.getD 5 0 = m.proto ∧ msg.table e = m.table ∧ (route.unreachable = false → msg.device e = m.index)) ∧
      ∀ msg rule, decodeRule e m msg = some rule → lastValue fraProtocol (msg.attributes e) = some [m.proto] ∧
        lastU32 e fraTable (msg.attributes e) = some rule.table :=
  ⟨fun _ _ hroute => decodeRoute_routeMessage e m (encodable_of_desired hprefSrc hroute),
    fun kind _ hvalid hcanonical hconfigured => decodeRule_ruleMessage e m kind hvalid hcanonical hconfigured,
    fun _ _ h => decodeRoute_owned h, fun _ _ h => decodeRule_owned h⟩

/-- A node with a preferred source, table 51820 and a hold at 10.0.0.0/8. -/
def sampleReconciler : Reconciler :=
  { newReconciler { metric := 32, prefSrc4 := .v4 0x0a000001#32 } ⟨false, false⟩ with capture := true }

def sampleHold : Route :=
  { destination := prefixFrom (.v4 0x0a000000#32) 8, prefSrc := .v4 0x0a000001#32, metric := 0xffffffff, unreachable := true }

/-- The hold of a prefix, on a little-endian machine. -/
theorem hold_reads_back : sampleHold ∈ sampleReconciler.desired [⟨.none, prefixFrom (.v4 0x0a000000#32) 8, .unreachable⟩] ∧
    decodeRoute .little ⟨51820, 155, 7⟩ ⟨rtmNewRoute, routeMessage .little ⟨51820, 155, 7⟩ sampleHold false⟩ = some sampleHold :=
  have hdesired : sampleHold ∈ sampleReconciler.desired [⟨.none, prefixFrom (.v4 0x0a000000#32) 8, .unreachable⟩] := by decide +kernel
  ⟨hdesired, (installed_reads_back .little ⟨51820, 155, 7⟩ sampleReconciler fun _ => rfl).1 _ _ hdesired⟩

end RanetLite.Kernel
