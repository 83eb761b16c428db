import RanetLite.Babel.Tlv

/-!
# Update TLVs

`internal/babel/update.go`, and the key a receiver builds from a decoded Update. Updates are sent without prefix compression and
decoded with it; the compression state is per packet and per address encoding. A slice expression out of range and an explicit
panic are `none`.
-/

namespace RanetLite.Babel

open Bytes Netip

/-- `routeKey`: an invalid source denotes an ordinary route. -/
structure RouteKey where
  source : Prefix
  dest : Prefix
deriving DecidableEq, Repr

/-- `Update`, RFC 8966 section 4.6.9. `routerID` is present when the R flag derived one from the prefix. -/
structure Update where
  ae : UInt8
  plen : Nat
  interval : UInt16
  seqno : UInt16
  metric : UInt16
  addr : List UInt8
  routerID : Option RouterID := none
  ignore : Bool := false
  sourcePrefix : Prefix := .none
deriving DecidableEq, Repr

def updateFlagPrefix : UInt8 := 0x80
def updateFlagRouterID : UInt8 := 0x40

/-- `prefixByteLen`. -/
def prefixByteLen (plen : Nat) : Nat := (plen + 7) / 8

/-- Whether an encoding carries IPv4 prefixes. -/
def isIPv4AE (ae : UInt8) : Bool := ae == aeIPv4 || ae == aeIPv4ViaIPv6

/-- The slice expression `bs[:n]`, which panics past the end. -/
def sliceTo (bs : List UInt8) (n : Nat) : Option (List UInt8) := if bs.length < n then none else some (bs.take n)

/-- `encodeSourcePrefix`. A zero-length source and one of another family are programming errors. -/
def encodeSourcePrefix (ae : UInt8) (source : Prefix) : Option (List UInt8) :=
  if source.bits = 0 ∨ source.addr.is4 ≠ isIPv4AE ae then none
  else (sliceTo source.addr.asSlice (prefixByteLen source.bits.toNat)).map fun raw =>
    encodeSubTLVs [⟨subTLVSourcePrefix, UInt8.ofNat source.bits.toNat :: raw⟩]

/-- The sub-TLV a valid source prefix adds to a TLV. -/
def encodeSource (ae : UInt8) (source : Prefix) : Option (List UInt8) :=
  if source.isValid then encodeSourcePrefix ae source else some []

/-- The address bytes an encoding takes its prefix from. -/
def rawPrefix (ae : UInt8) (addr : List UInt8) : Option (List UInt8) :=
  if isIPv4AE ae then some (to4 addr)
  else if ae = aeIPv6 then some (to16 addr)
  else none

/-- `EncodeUpdate`. -/
def encodeUpdate (u : Update) : Option RawTLV := do
  let total := prefixByteLen u.plen
  let raw ← rawPrefix u.ae u.addr
  let sent ← sliceTo raw total
  let body := [u.ae, updateFlagPrefix, UInt8.ofNat u.plen, 0] ++ putUint16 u.interval ++ putUint16 u.seqno ++
    putUint16 u.metric ++ sent
  let source ← encodeSource u.ae u.sourcePrefix
  some ⟨tlvUpdate, body ++ source⟩

/-- `prefixState`: the previous prefix of one address encoding, sixteen bytes. -/
structure PrefixState where
  last : List UInt8 := List.replicate 16 0
  haveLast : Bool := false
  len : last.length = 16 := by simp

/-- `PrefixDecoder`: the per-packet compression state, one for each address encoding. -/
abbrev PrefixDecoder := UInt8 → PrefixState

/-- The state at the start of a packet. -/
def PrefixDecoder.new : PrefixDecoder := fun _ => {}

/-- Why an Update does not decode. -/
inductive UpdateError where
  | short
  | wildcardPrefix
  | ipv4Plen (plen : Nat)
  | ipv4NoDefault
  | ipv6Plen (plen : Nat)
  | ipv6NoDefault
  | unsupportedAE (ae : UInt8)
  | omittedExceeds (omitted : Nat)
  | truncated
deriving DecidableEq, Repr

/-- The text the source gives the error. -/
def UpdateError.text : UpdateError → String
  | short => "babel: short Update TLV"
  | wildcardPrefix => "babel: wildcard Update has a nonzero prefix length"
  | ipv4Plen plen => s!"babel: IPv4 Update prefix length {plen} exceeds 32"
  | ipv4NoDefault => "babel: compressed IPv4 Update has no default prefix"
  | ipv6Plen plen => s!"babel: IPv6 Update prefix length {plen} exceeds 128"
  | ipv6NoDefault => "babel: compressed IPv6 Update has no default prefix"
  | unsupportedAE ae => s!"babel: Update: unsupported AE {ae.toNat}"
  | omittedExceeds omitted => s!"babel: Update Omitted {omitted} exceeds prefix length"
  | truncated => "babel: Update prefix truncated"

/-- `decodeSourcePrefix`: under the enclosing TLV's encoding, `none` when malformed. -/
def decodeSourcePrefix (ae : UInt8) (body : List UInt8) : Option Prefix :=
  match body with
  | [] => none
  | len :: rest =>
    let plen := len.toNat
    let n := prefixByteLen plen
    if plen = 0 ∨ rest.length < n then none
    else if isIPv4AE ae then
      if 32 < plen then none
      else some (prefixFrom (.v4 (ofBytes 32 (rest.take n ++ List.replicate (4 - n) 0))) plen).masked
    else if ae = aeIPv6 then
      if 128 < plen then none
      else some (prefixFrom (.v6 (ofBytes 128 (rest.take n ++ List.replicate (16 - n) 0)) "") plen).masked
    else none

/-- The checks of `Decode` on the encoding, the length and the bytes left out. -/
def checkUpdate (d : PrefixDecoder) (ae : UInt8) (plen omitted : Nat) : Option UpdateError :=
  if ae = aeWildcard then if plen ≠ 0 ∨ omitted ≠ 0 then some .wildcardPrefix else none
  else if isIPv4AE ae then
    if 32 < plen then some (.ipv4Plen plen)
    else if 0 < omitted ∧ (d ae).haveLast = false then some .ipv4NoDefault else none
  else if ae = aeIPv6 then
    if 128 < plen then some (.ipv6Plen plen)
    else if 0 < omitted ∧ (d ae).haveLast = false then some .ipv6NoDefault else none
  else some (.unsupportedAE ae)

/-- The sub-TLV loop of `Decode`: a source prefix once, any other mandatory sub-TLV makes the Update ignored. -/
def updateSubTLVs (ae : UInt8) : List SubTLV → Nat → Update → Update
  | [], _, u => u
  | s :: rest, seen, u =>
    if s.type < 128 then updateSubTLVs ae rest seen u
    else if s.type ≠ subTLVSourcePrefix then updateSubTLVs ae rest seen { u with ignore := true }
    else if 1 ≤ seen then updateSubTLVs ae rest (seen + 1) { u with ignore := true }
    else match decodeSourcePrefix ae s.body with
      | some sp => updateSubTLVs ae rest (seen + 1) { u with sourcePrefix := sp }
      | none => updateSubTLVs ae rest (seen + 1) { u with ignore := true }

/-- The router id the R flag derives: the last eight bytes of the address, zero-extended. -/
def derivedRouterID (addr : List UInt8) : RouterID :=
  ofBytes 64 (List.replicate (8 - min 8 addr.length) 0 ++ addr.drop (addr.length - 8))

/-- The decoder's state after a prefix that became the default. -/
def PrefixDecoder.remember (d : PrefixDecoder) (ae : UInt8) (buf : List UInt8) : PrefixDecoder :=
  Function.update d ae
    { last := (buf ++ List.replicate 16 0).take 16, haveLast := true, len := by simp }

/-- `PrefixDecoder.Decode`. An error leaves the compression state alone; an Update that is to be ignored still moves it. -/
def PrefixDecoder.decode (d : PrefixDecoder) (body : List UInt8) : Except UpdateError (Update × PrefixDecoder) :=
  if body.length < 10 then .error .short
  else
    let ae := body.getD 0 0
    let flags := body.getD 1 0
    let plen := (body.getD 2 0).toNat
    let omitted := (body.getD 3 0).toNat
    let interval := uint16At body 4
    let seqno := uint16At body 6
    let metric := uint16At body 8
    let sent := body.drop 10
    match checkUpdate d ae plen omitted with
    | some e => .error e
    | none =>
      let total := prefixByteLen plen
      if total < omitted then .error (.omittedExceeds omitted)
      else
        let sentLen := total - omitted
        if sent.length < sentLen then .error .truncated
        else
          let size := if isIPv4AE ae then 4 else 16
          let buf := clearTail ((d ae).last.take omitted ++ sent.take sentLen ++ List.replicate (size - total) 0) plen
          let wildcard := ae == aeWildcard
          let addr := if wildcard then mappedPrefix ++ List.replicate 4 0 else buf
          let d' := if !wildcard && flags &&& updateFlagPrefix != 0 then d.remember ae buf else d
          let u : Update := {
            ae := ae, plen := plen, interval := interval, seqno := seqno, metric := metric, addr := addr
            routerID := if flags &&& updateFlagRouterID != 0 && !wildcard then some (derivedRouterID addr) else none
            ignore := interval == 0 && metric != metricInfinity || wildcard && metric != metricInfinity }
          match decodeSubTLVs (sent.drop sentLen) with
          | .error _ => .ok ({ u with ignore := true }, d')
          | .ok subs => .ok (updateSubTLVs ae subs 0 u, d')

/-- Decoding with the compression state in place, as the source does it. -/
abbrev Decoding := ExceptT UpdateError (StateM PrefixDecoder)

/-- An early return with an error. -/
def Decoding.reject (c : Prop) [Decidable c] (e : UpdateError) : Decoding Unit := if c then throw e else pure ()

/-- The switch of `Decode` on the address encoding. -/
def Decoding.checkAE (ae : UInt8) (plen omitted : Nat) : Decoding Unit :=
  if ae = aeWildcard then reject (plen ≠ 0 ∨ omitted ≠ 0) .wildcardPrefix
  else if isIPv4AE ae then do
    reject (32 < plen) (.ipv4Plen plen)
    reject (0 < omitted ∧ ((← get) ae).haveLast = false) .ipv4NoDefault
  else if ae = aeIPv6 then do
    reject (128 < plen) (.ipv6Plen plen)
    reject (0 < omitted ∧ ((← get) ae).haveLast = false) .ipv6NoDefault
  else throw (.unsupportedAE ae)

/-- The address of `Decode`: the bytes left out come from the previous prefix, and the P flag makes this one the previous. -/
def Decoding.readPrefix (ae flags : UInt8) (plen omitted : Nat) (sent : List UInt8) : Decoding (List UInt8) :=
  if ae = aeWildcard then pure (mappedPrefix ++ List.replicate 4 0)
  else do
    let size := if isIPv4AE ae then 4 else 16
    let total := prefixByteLen plen
    let buf := clearTail (((← get) ae).last.take omitted ++ sent.take (total - omitted) ++ List.replicate (size - total) 0) plen
    if flags &&& updateFlagPrefix ≠ 0 then modify fun d => d.remember ae buf
    pure buf

/-- `PrefixDecoder.Decode` in the order of the source: the state has moved by the time the sub-TLVs are read. -/
def Decoding.decode (body : List UInt8) : Decoding Update := do
  reject (body.length < 10) .short
  let ae := body.getD 0 0
  let flags := body.getD 1 0
  let plen := (body.getD 2 0).toNat
  let omitted := (body.getD 3 0).toNat
  let interval := uint16At body 4
  let metric := uint16At body 8
  let sent := body.drop 10
  checkAE ae plen omitted
  let total := prefixByteLen plen
  reject (total < omitted) (.omittedExceeds omitted)
  let sentLen := total - omitted
  reject (sent.length < sentLen) .truncated
  let ip ← readPrefix ae flags plen omitted sent
  let wildcard := ae == aeWildcard
  let u : Update := {
    ae := ae, plen := plen, interval := interval, seqno := uint16At body 6, metric := metric, addr := ip
    routerID := if flags &&& updateFlagRouterID != 0 && !wildcard then some (derivedRouterID ip) else none
    ignore := interval == 0 && metric != metricInfinity || wildcard && metric != metricInfinity }
  match decodeSubTLVs (sent.drop sentLen) with
  | .error _ => pure { u with ignore := true }
  | .ok subs => pure (updateSubTLVs ae subs 0 u)

/-- One call of `Decode`: its result and the compression state it leaves. -/
def PrefixDecoder.call (d : PrefixDecoder) (body : List UInt8) : Except UpdateError Update × PrefixDecoder :=
  (Decoding.decode body).run.run d

/-- The key a receiver builds from a decoded Update, in `handlePacketLocked`; `none` when the pair names no route. -/
def updateKey (u : Update) : Option RouteKey := do
  let addr ← addrFromSlice u.addr
  let dest := (prefixFrom addr.unmap u.plen).masked
  if !dest.isValid || u.sourcePrefix.isValid && u.sourcePrefix.addr.is4 != dest.addr.is4 then none
  else some ⟨u.sourcePrefix, dest⟩

/-- `updateAE`: IPv4 prefixes travel with an IPv6 next hop. -/
def updateAE (p : Prefix) : UInt8 := if p.addr.is4 then aeIPv4ViaIPv6 else aeIPv6

/-- The Update `updateTLVs` builds for a key; the interval is in centiseconds. -/
def keyUpdate (key : RouteKey) (seqno metric interval : UInt16) : Update :=
  { ae := updateAE key.dest, plen := key.dest.bits.toNat, addr := key.dest.addr.asSlice, interval := interval,
    seqno := seqno, metric := metric, sourcePrefix := key.source }

end RanetLite.Babel
