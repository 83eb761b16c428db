import RanetLite.Lib.Checked
import RanetLite.Srv6.Icmp
import RanetLite.Srv6.Local

/-!
# The packet functions with their bounds checks

The functions of `srv6/srv6.go`, `srv6/local.go` and `srv6/icmp.go` that read packets a peer has sent, once more, with every index and
slice expression of the source checked. `none` is a panic. What a function writes into its packet is in its result whether it refuses
the packet or not.
-/

namespace RanetLite.Srv6.Checked

open Bytes Netip Buffer OnesComplement RanetLite.Checked

/-- The loop of `findRouting`. -/
def walkHeaders (raw : List UInt8) : Nat → UInt8 → Nat → Option (Except SegmentError Nat)
  | 0, _, _ => some (.error .tooManyHeaders)
  | n + 1, next, offset =>
    if next = nextHeaderRouting then some (.ok offset)
    else if next = nextHeaderFragment then some (.error .fragment)
    else if next ≠ nextHeaderHopByHop ∧ next ≠ nextHeaderDestOpts then some (.error .notSegmentRouted)
    else if raw.length < offset + extensionUnit then some (.error .notSegmentRouted)
    else do
      let following ← index raw offset
      let units ← index raw (offset + 1)
      let offset := offset + extensionUnit * (1 + units.toNat)
      if raw.length < offset then some (.error .notSegmentRouted) else walkHeaders raw n following offset

/-- `findRouting`. -/
def findRouting (raw : List UInt8) : Option (Except SegmentError Nat) := do
  walkHeaders raw maxExtensionHeaders (← index raw 6) ipv6HeaderLen

/-- One segment of the list that `Parse` copies into an array of its own. -/
def segmentAt (srh : List UInt8) (i : Nat) : Option Addr := do
  let rest ← sliceFrom srh (srhFixedLen + addrLen * i)
  some (.v6 (ofBytes 128 (write (List.replicate addrLen 0) 0 rest)) "")

/-- The part of `Parse` behind `findRouting`. -/
def parseRouting (srh : List UInt8) (offset : Nat) : Option (Except SegmentError Header) :=
  if srh.length < srhFixedLen then some (.error .shortFixedPart)
  else do
    if (← index srh 2) ≠ routingTypeSegment then some (.error .notSegmentRouted)
    else
      let extLen := (← index srh 1).toNat
      let total := srhFixedLen + 8 * extLen
      if srh.length < total then some (.error (.claims total srh.length))
      else
        let entry ← index srh 4
        let count := entry.toNat + 1
        if extLen < 2 * count then some (.error (.lastEntry entry.toNat (addrLen * count) (8 * extLen)))
        else if maxSegments < count then some (.error (.tooManyToAct count))
        else
          let nextHeader ← index srh 0
          let segmentsLeft ← index srh 3
          let flags ← index srh 5
          let tag ← slice srh 6 8
          let segments ← (List.range count).mapM (segmentAt srh)
          if count < segmentsLeft.toNat then some (.error (.segmentsLeft segmentsLeft.toNat (count - 1)))
          else some (.ok {
            nextHeader := nextHeader, segmentsLeft := segmentsLeft, flags := flags, tag := ⟨ofBytes 16 tag⟩, offset := offset
            segments := segments })

/-- `Parse`. -/
def parse (raw : List UInt8) : Option (Except SegmentError Header) :=
  if raw.length < ipv6HeaderLen then some (.error .notSegmentRouted)
  else do
    if (← index raw 0) >>> 4 ≠ 6 then some (.error .notSegmentRouted)
    else match ← findRouting raw with
      | .error e => some (.error e)
      | .ok offset => parseRouting (← sliceFrom raw offset) offset

/-- `End`: the packet as it leaves it, and where it goes or why not. -/
def endSegment (raw : List UInt8) : Option (List UInt8 × Except SegmentError Addr) := do
  match ← parse raw with
  | .error e => some (raw, .error e)
  | .ok header =>
    if header.segmentsLeft = 0 then some (raw, .error .exhausted)
    else
      let hop ← index raw 7
      if hop ≤ 1 then some (raw, .error .hopLimit)
      else
        let raw ← store raw 7 (hop - 1)
        -- `srh` shares the bytes of the packet, so what is stored in it is stored there.
        let srh ← sliceFrom raw header.offset
        let srh ← store srh 3 (header.segmentsLeft - 1)
        let raw := raw.take header.offset ++ srh
        let next ← index header.segments (header.segmentsLeft - 1).toNat
        let raw ← copyFrom raw 24 (addr16 next)
        some (raw, .ok next)

/-- The end of `Decap`. -/
def deliver (raw : List UInt8) (offset : Nat) (upper : UInt8) : Option (Except SegmentError (List UInt8 × UInt8)) :=
  if upper ≠ nextHeaderIPv4 ∧ upper ≠ nextHeaderIPv6 then some (.error (.cannotDeliver upper.toNat))
  else if raw.length ≤ offset then some (.error .noPayload)
  else do some (.ok (← sliceFrom raw offset, upper))

/-- `Decap`. -/
def decap (raw : List UInt8) : Option (Except SegmentError (List UInt8 × UInt8)) :=
  if raw.length < ipv6HeaderLen then some (.error .notSegmentRouted)
  else do
    if (← index raw 0) >>> 4 ≠ 6 then some (.error .notSegmentRouted)
    else
      let upper ← index raw 6
      match ← parse raw with
      | .ok header =>
        if header.segmentsLeft ≠ 0 then some (.error (.exitEarly header.segmentsLeft.toNat))
        else
          let units ← index raw (header.offset + 1)
          deliver raw (header.offset + srhFixedLen + extensionUnit * units.toNat) header.nextHeader
      | .error .notSegmentRouted => deliver raw ipv6HeaderLen upper
      | .error e => some (.error e)

/-- `netip.AddrFrom16([16]byte(raw[i:j]))`. -/
def addrAt (raw : List UInt8) (i j : Nat) : Option Addr := do some (.v6 (ofBytes 128 (← slice raw i j)) "")

/-- `Handle`. -/
def handle (table : Option LocalTable) (raw : List UInt8) : Option (List UInt8 × Result) :=
  match table with
  | none => some (raw, .pass)
  | some t =>
    if raw.length < ipv6HeaderLen then some (raw, .pass)
    else do
      if (← index raw 0) >>> 4 ≠ 6 then some (raw, .pass)
      else
        let destination ← addrAt raw 24 40
        match t.entries destination with
        | none => some (raw, .pass)
        | some .endpoint => match ← endSegment raw with
          | (raw, .error e) => some (raw, .drop (.segment e))
          | (raw, .ok next) => some (raw, .forward next)
        | some .endDT46 => match ← decap raw with
          | .error e => some (raw, .drop (.segment e))
          | .ok (inner, family) => some (raw, .deliver inner family)
        | some (.other _) => some (raw, .drop (.unimplemented destination))

/-- `carriesICMPError`. -/
def carriesICMPError (offending : List UInt8) : Option Bool := do
  let errorAt (next : UInt8) (payload : Nat) : Option Bool :=
    if next = icmpv6Next ∧ payload < offending.length then do some (decide ((← index offending payload) < 128)) else some false
  let next ← index offending 6
  match ← findRouting offending with
  | .ok offset =>
    if offending.length < offset + srhFixedLen then some false
    else
      let next ← index offending offset
      let units ← index offending (offset + 1)
      errorAt next (offset + srhFixedLen + extensionUnit * units.toNat)
  | .error _ => errorAt next ipv6HeaderLen

/-- `answerable`. -/
def answerable (offending : List UInt8) : Option Bool :=
  if offending.length < ipv6HeaderLen then some false
  else do
    if (← index offending 0) >>> 4 ≠ 6 then some false
    else
      let sender ← addrAt offending 8 24
      let receiver ← addrAt offending 24 40
      if sender.isUnspecified || sender.isMulticast || receiver.isMulticast then some false
      else do some (!(← carriesICMPError offending))

/-- The loop of `ones`, from an index on. -/
def addPairs (b : List UInt8) (i : Nat) (carrying : UInt32) : Option UInt32 :=
  if i + 1 < b.length then do
    let rest ← sliceFrom b i
    let low ← index rest 1
    let high ← index rest 0
    addPairs b (i + 2) (carrying + (high.toUInt32 <<< 8 ||| low.toUInt32))
  else some carrying
termination_by b.length - i

/-- `ones`. -/
def ones (carrying : UInt32) (b : List UInt8) : Option UInt32 := do
  let carrying ← addPairs b 0 carrying
  if b.length % 2 = 1 then do
    let last ← index b (b.length - 1)
    some (foldCarries 2 (carrying + last.toUInt32 <<< 8))
  else some (foldCarries 2 carrying)

/-- `icmpChecksum`. -/
def icmpChecksum (source destination : Addr) (body : List UInt8) : Option UInt16 := do
  let pseudo := List.replicate 40 0
  let pseudo ← copyFrom pseudo 0 (addr16 source)
  let pseudo ← copyFrom pseudo 16 (addr16 destination)
  let pseudo ← put pseudo 32 (toBytes (BitVec.ofNat 32 body.length))
  let pseudo ← store pseudo 39 icmpv6Next
  let sum ← ones 0 pseudo
  let sum ← ones sum body
  some (~~~sum.toUInt16)

/-- `icmpError`. -/
def icmpError (offending : List UInt8) (source : Addr) (kind code : UInt8) (pointer : Nat) : Option (Option (List UInt8)) :=
  if !usable source then some none
  else do
    if !(← answerable offending) then some none
    else
      let destination ← addrAt offending 8 24
      let quoted := min offending.length (minimumIPv6MTU - ipv6HeaderLen - icmpHeaderLen)
      let body := List.replicate (icmpHeaderLen + quoted) 0
      let body ← store body 0 kind
      let body ← store body 1 code
      let body ← put body 4 (toBytes (BitVec.ofNat 32 pointer))
      let body ← copyFrom body icmpHeaderLen (← sliceTo offending quoted)
      let out := List.replicate (ipv6HeaderLen + body.length) 0
      let out ← store out 0 0x60
      let out ← put out 4 (toBytes (BitVec.ofNat 16 body.length))
      let out ← store out 6 icmpv6Next
      let out ← store out 7 defaultHopLimit
      let out ← copyFrom out 8 (addr16 source)
      let out ← copyFrom out 24 (addr16 destination)
      let out ← copyFrom out ipv6HeaderLen body
      let out ← put out (ipv6HeaderLen + 2) (toBytes (← icmpChecksum source destination body).toBitVec)
      some (some out)

/-- `TimeExceeded`. -/
def timeExceeded (offending : List UInt8) (source : Addr) : Option (Option (List UInt8)) :=
  icmpError offending source icmpTimeExceeded icmpHopLimitInTranst 0

/-- `ParameterProblem`. -/
def parameterProblem (offending : List UInt8) (source : Addr) : Option (Option (List UInt8)) :=
  if offending.length < ipv6HeaderLen then some none
  else do
    match ← findRouting offending with
    | .error _ => some none
    | .ok offset => icmpError offending source icmpParameterProblem icmpErroneousHeader (offset + segmentsLeftInHeader)

end RanetLite.Srv6.Checked
