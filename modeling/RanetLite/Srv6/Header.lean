import RanetLite.Lib.Buffer
import RanetLite.Netip

/-!
# Segment routing headers

`srv6/srv6.go`: H.Encaps, the waypoint behavior End and the exit behavior End.DT46. Packets are lists of bytes. `End` rewrites its
packet in place and only once nothing can fail any more; here it returns the rewritten packet, and an error returns none.
-/

namespace RanetLite.Srv6

open Bytes Netip

def ipv6HeaderLen : Nat := 40
def ipv4HeaderLen : Nat := 20
def srhFixedLen : Nat := 8
def addrLen : Nat := 16
def nextHeaderRouting : UInt8 := 43
def nextHeaderHopByHop : UInt8 := 0
def nextHeaderDestOpts : UInt8 := 60
def nextHeaderFragment : UInt8 := 44
def extensionUnit : Nat := 8
def maxExtensionHeaders : Nat := 8
def nextHeaderIPv4 : UInt8 := 4
def nextHeaderIPv6 : UInt8 := 41
def routingTypeSegment : UInt8 := 4
def maxSegments : Nat := 16
def defaultHopLimit : UInt8 := 64

/-- Why a packet is refused. -/
inductive SegmentError where
  | notSegmentRouted
  | exhausted
  | hopLimit
  | noSegments
  | tooManyToBuild (segments : Nat)
  | unusableSource (source : Addr)
  | unusableSegment (segment : Addr)
  | nothing
  | shortIPv4 (size : Nat)
  | shortIPv6 (size : Nat)
  | version (version : Nat)
  | payloadOverflow (size segments : Nat)
  | shortFixedPart
  | claims (total present : Nat)
  | lastEntry (entry need carries : Nat)
  | tooManyToAct (segments : Nat)
  | segmentsLeft (left last : Nat)
  | fragment
  | tooManyHeaders
  | exitEarly (left : Nat)
  | cannotDeliver (upper : Nat)
  | noPayload
deriving DecidableEq, Repr

/-- The text of the error, over a rendering of addresses. -/
def SegmentError.text (render : Addr → String) : SegmentError → String
  | notSegmentRouted => "srv6: packet carries no segment routing header"
  | exhausted => "srv6: End reached the last segment and there is nowhere to forward to"
  | hopLimit => "srv6: the hop limit reached zero at this waypoint"
  | noSegments => "srv6: a segment list needs at least one segment"
  | tooManyToBuild n => s!"srv6: {n} segments is more than the {maxSegments} this node will build"
  | unusableSource a => "srv6: tunnel source " ++ render a ++ " cannot address a segment routed packet"
  | unusableSegment a => "srv6: segment " ++ render a ++ " cannot address a segment routed packet"
  | nothing => "srv6: nothing to encapsulate"
  | shortIPv4 n => s!"srv6: {n} bytes is shorter than the IPv4 header it claims to be"
  | shortIPv6 n => s!"srv6: {n} bytes is shorter than the IPv6 header it claims to be"
  | version v => s!"srv6: the packet to encapsulate is IP version {v}"
  | payloadOverflow size n => s!"srv6: {size} bytes behind {n} segments is more than an IPv6 payload length can carry"
  | shortFixedPart => "srv6: the routing header is shorter than its fixed part"
  | claims total present => s!"srv6: the routing header claims {total} bytes and {present} are present"
  | lastEntry entry need carries =>
    s!"srv6: the routing header does not describe itself: last entry {entry} needs {need} bytes of segments and " ++
      s!"the header carries {carries}"
  | tooManyToAct n => s!"srv6: {n} segments is more than the {maxSegments} this node will act on"
  | segmentsLeft left last =>
    s!"srv6: the routing header does not describe itself: segments left {left} is past the last entry {last}"
  | fragment =>
    "srv6: the routing header does not describe itself: a fragment carries no segment list this node can act on"
  | tooManyHeaders => "srv6: the routing header does not describe itself: more extension headers than this node walks"
  | exitEarly left => s!"srv6: an exit was reached with {left} segments still to go"
  | cannotDeliver upper =>
    s!"srv6: an exit cannot deliver next header {upper}, only an encapsulated IPv4 or IPv6 packet"
  | noPayload => "srv6: the packet ends where its payload should start"

/-- `Header`: segments in wire order, the reverse of the path. -/
structure Header where
  segmentsLeft : UInt8
  segments : List Addr
  flags : UInt8
  tag : UInt16
  nextHeader : UInt8
  offset : Nat
deriving DecidableEq, Repr

/-- `Addr.IsMulticast` of an IPv6 address. -/
def isMulticast6 (a : BitVec 128) : Bool := a >>> 120 == 0xff#128

/-- `Usable`: an IPv6 address without a zone, not mapped, not unspecified and not a group. -/
def usable : Addr → Bool
  | .v6 a z => !(Addr.v6 a z).is4In6 && z == "" && !(Addr.v6 a z).isUnspecified && !isMulticast6 a
  | _ => false

/-- `Overhead`. -/
def overhead (segments : Nat) : Nat := ipv6HeaderLen + srhFixedLen + addrLen * segments

/-- `CheckPath`. -/
def checkPath (source : Addr) (path : List Addr) : Option SegmentError :=
  if path.length = 0 then some .noSegments
  else if maxSegments < path.length then some (.tooManyToBuild path.length)
  else if !usable source then some (.unusableSource source)
  else (path.find? fun a => !usable a).map .unusableSegment

/-- `innerNextHeader`. -/
def innerNextHeader (inner : List UInt8) : Except SegmentError UInt8 :=
  if inner.length = 0 then .error .nothing
  else if inner.getD 0 0 >>> 4 = 4 then
    if inner.length < ipv4HeaderLen then .error (.shortIPv4 inner.length) else .ok nextHeaderIPv4
  else if inner.getD 0 0 >>> 4 = 6 then
    if inner.length < ipv6HeaderLen then .error (.shortIPv6 inner.length) else .ok nextHeaderIPv6
  else .error (.version (inner.getD 0 0 >>> 4).toNat)

/-- What `innerNextHeader` accepts: a first half byte of four or six and a whole header behind it. -/
theorem innerNextHeader_ok {inner : List UInt8} {family : UInt8} (h : innerNextHeader inner = .ok family) :
    inner ≠ [] ∧ (family = nextHeaderIPv4 ∨ family = nextHeaderIPv6 ∧ inner.getD 0 0 >>> 4 = 6 ∧ ipv6HeaderLen ≤ inner.length) := by
  unfold innerNextHeader at h
  split_ifs at h with hempty hfour hshort hsix hshort
  · exact ⟨fun hnil => hempty (by rw [hnil]; rfl), .inl (Except.ok.inj h).symm⟩
  · exact ⟨fun hnil => hempty (by rw [hnil]; rfl), .inr ⟨(Except.ok.inj h).symm, hsix, Nat.le_of_not_lt hshort⟩⟩

/-- `addr16`. -/
def addr16 (a : Addr) : List UInt8 := toBytes a.as16

@[simp] theorem length_addr16 (a : Addr) : (addr16 a).length = 16 := by simp [addr16]

/-- The length of a list of addresses, however each is written. -/
theorem length_flatMap16 {α : Type} {f : α → List UInt8} (h : ∀ a, (f a).length = 16) (l : List α) :
    (l.flatMap f).length = addrLen * l.length := by
  induction l with
  | nil => rfl
  | cons a rest ih =>
    rw [List.flatMap_cons, List.length_append, ih, h, List.length_cons, addrLen]
    omega

/-- `writeOuter`: the outer header and the routing header. An IPv6 inner packet lends its version, traffic class, flow label and hop
limit. -/
def writeOuter (inner : List UInt8) (innerNext : UInt8) (source : Addr) (path : List Addr) : List UInt8 :=
  let hopLimit := if innerNext = nextHeaderIPv6 then inner.getD 7 0 else defaultHopLimit
  let segments := path.reverse
  let last := UInt8.ofNat (segments.length - 1)
  let srhLen := srhFixedLen + addrLen * segments.length
  (if innerNext = nextHeaderIPv6 then inner.take 4 else [0x60, 0, 0, 0]) ++
    (toBytes (BitVec.ofNat 16 (srhLen + inner.length)) ++ (nextHeaderRouting :: hopLimit ::
    (addr16 source ++ (addr16 (segments.getD last.toNat .zero) ++
    (innerNext :: UInt8.ofNat (2 * segments.length) :: routingTypeSegment :: last :: last :: 0 :: 0 :: 0 ::
    segments.flatMap addr16)))))

/-- `checkEncapsulation` and the header it allows, `Encapsulate`. -/
def encapsulate (inner : List UInt8) (source : Addr) (path : List Addr) : Except SegmentError (List UInt8) :=
  match checkPath source path with
  | some e => .error e
  | none =>
    match innerNextHeader inner with
    | .error e => .error e
    | .ok innerNext =>
      if 0xffff < srhFixedLen + addrLen * path.length + inner.length then .error (.payloadOverflow inner.length path.length)
      else .ok (writeOuter inner innerNext source path ++ inner)

/-- The loop of `findRouting`, over the headers still to walk. -/
def walkHeaders (raw : List UInt8) : Nat → UInt8 → Nat → Except SegmentError Nat
  | 0, _, _ => .error .tooManyHeaders
  | n + 1, next, offset =>
    if next = nextHeaderRouting then .ok offset
    else if next = nextHeaderFragment then .error .fragment
    else if next ≠ nextHeaderHopByHop ∧ next ≠ nextHeaderDestOpts then .error .notSegmentRouted
    else if raw.length < offset + extensionUnit then .error .notSegmentRouted
    else
      let following := offset + extensionUnit * (1 + (raw.getD (offset + 1) 0).toNat)
      if raw.length < following then .error .notSegmentRouted else walkHeaders raw n (raw.getD offset 0) following

/-- `findRouting`. -/
def findRouting (raw : List UInt8) : Except SegmentError Nat :=
  walkHeaders raw maxExtensionHeaders (raw.getD 6 0) ipv6HeaderLen

/-- The part of `Parse` behind `findRouting`: the routing header that starts at an offset. -/
def parseRouting (srh : List UInt8) (offset : Nat) : Except SegmentError Header :=
  if srh.length < srhFixedLen then .error .shortFixedPart
  else if srh.getD 2 0 ≠ routingTypeSegment then .error .notSegmentRouted
  else
    let extLen := (srh.getD 1 0).toNat
    let total := srhFixedLen + 8 * extLen
    if srh.length < total then .error (.claims total srh.length)
    else
      let count := (srh.getD 4 0).toNat + 1
      if extLen < 2 * count then .error (.lastEntry (srh.getD 4 0).toNat (addrLen * count) (8 * extLen))
      else if maxSegments < count then .error (.tooManyToAct count)
      else if count < (srh.getD 3 0).toNat then .error (.segmentsLeft (srh.getD 3 0).toNat (count - 1))
      else .ok {
        nextHeader := srh.getD 0 0, segmentsLeft := srh.getD 3 0, flags := srh.getD 5 0, tag := ⟨wordAt 16 srh 6⟩
        offset := offset
        segments := (List.range count).map fun i => .v6 (wordAt 128 srh (srhFixedLen + addrLen * i)) "" }

/-- `Parse`. -/
def parse (raw : List UInt8) : Except SegmentError Header :=
  if raw.length < ipv6HeaderLen ∨ raw.getD 0 0 >>> 4 ≠ 6 then .error .notSegmentRouted
  else match findRouting raw with
    | .error e => .error e
    | .ok offset => parseRouting (raw.drop offset) offset

/-- `End`: the rewritten packet, and where it goes. -/
def endSegment (raw : List UInt8) : Except SegmentError (List UInt8 × Addr) :=
  match parse raw with
  | .error e => .error e
  | .ok header =>
    if header.segmentsLeft = 0 then .error .exhausted
    else if raw.getD 7 0 ≤ 1 then .error .hopLimit
    else
      let left := header.segmentsLeft - 1
      let next := header.segments.getD left.toNat .zero
      .ok (Buffer.write ((raw.set 7 (raw.getD 7 0 - 1)).set (header.offset + 3) left) 24 (addr16 next), next)

/-- The end of `Decap`: what is behind an offset, delivered as the family the upper header names. -/
def deliver (raw : List UInt8) (offset : Nat) (upper : UInt8) : Except SegmentError (List UInt8 × UInt8) :=
  if upper ≠ nextHeaderIPv4 ∧ upper ≠ nextHeaderIPv6 then .error (.cannotDeliver upper.toNat)
  else if raw.length ≤ offset then .error .noPayload
  else .ok (raw.drop offset, upper)

/-- `Decap`: a packet without a routing header is delivered too. -/
def decap (raw : List UInt8) : Except SegmentError (List UInt8 × UInt8) :=
  if raw.length < ipv6HeaderLen ∨ raw.getD 0 0 >>> 4 ≠ 6 then .error .notSegmentRouted
  else match parse raw with
    | .ok header =>
      if header.segmentsLeft ≠ 0 then .error (.exitEarly header.segmentsLeft.toNat)
      else deliver raw (header.offset + srhFixedLen + extensionUnit * (raw.getD (header.offset + 1) 0).toNat) header.nextHeader
    | .error .notSegmentRouted => deliver raw ipv6HeaderLen (raw.getD 6 0)
    | .error e => .error e

end RanetLite.Srv6
