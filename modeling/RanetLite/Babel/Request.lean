import RanetLite.Babel.Update

/-!
# Router-Id, next hop, acknowledgement and request TLVs

`internal/babel/misc.go` and `request.go`. The decoding errors carry texts no caller reads; here they are `none`.
-/

namespace RanetLite.Babel

open Bytes Netip

/-- `EncodeRouterID`: two reserved bytes and the id. -/
def encodeRouterID (id : RouterID) : RawTLV := ⟨tlvRouterID, [0, 0] ++ toBytes id⟩

/-- `DecodeRouterID`: the id, and whether the TLV is otherwise to be ignored. -/
def decodeRouterID (body : List UInt8) : Option (RouterID × Bool) :=
  if body.length < 10 then none
  else some (ofBytes 64 ((body.drop 2).take 8), (decodeOptionalSubTLVs (body.drop 10)).isNone)

/-- `DecodeNextHop`: the address, the encoding that named it, and whether the TLV is otherwise to be ignored. -/
def decodeNextHop (body : List UInt8) : Option (List UInt8 × UInt8 × Bool) :=
  if body.length < 2 then none
  else
    let ae := body.getD 0 0
    (decodeAddress ae (body.drop 2)).map fun addr =>
      let length := if ae = aeIPv6LinkLocal then 8 else addr.length
      (addr, ae, (decodeOptionalSubTLVs (body.drop (2 + length))).isNone)

/-- `DecodeAckReq`: the nonce. -/
def decodeAckReq (body : List UInt8) : Option UInt16 :=
  if body.length < 6 then none
  else (decodeOptionalSubTLVs (body.drop 6)).map fun _ => uint16At body 2

/-- `EncodeAck`. -/
def encodeAck (nonce : UInt16) : RawTLV := ⟨tlvAck, putUint16 nonce⟩

/-- `RouteRequest`: an invalid prefix under the wildcard encoding asks for everything. -/
structure RouteRequest where
  ae : UInt8
  dest : Prefix
  sourcePrefix : Prefix
deriving DecidableEq, Repr

/-- `SeqnoRequest`. -/
structure SeqnoRequest where
  ae : UInt8
  dest : Prefix
  sourcePrefix : Prefix
  seqno : UInt16
  hopCount : UInt8
  routerID : RouterID
deriving DecidableEq, Repr

/-- The loop of `decodeRequestSubTLVs`: only one source prefix may be mandatory. -/
def requestSubTLVs (ae : UInt8) : List SubTLV → Prefix → Option Prefix
  | [], source => some source
  | s :: rest, source =>
    if s.type < 128 then requestSubTLVs ae rest source
    else if s.type ≠ subTLVSourcePrefix ∨ source.isValid then none
    else match decodeSourcePrefix ae s.body with
      | some decoded => requestSubTLVs ae rest decoded
      | none => none

/-- `decodeRequestSubTLVs`. -/
def decodeRequestSubTLVs (ae : UInt8) (raw : List UInt8) : Option Prefix :=
  match decodeSubTLVs raw with
  | .error _ => none
  | .ok subs => requestSubTLVs ae subs .none

/-- `decodeRequestPrefix`: the prefix and the source prefix a request names. -/
def decodeRequestPrefix (ae : UInt8) (plen : Nat) (raw : List UInt8) : Option (Prefix × Prefix) :=
  if ae = aeWildcard then
    if plen ≠ 0 then none else (decodeRequestSubTLVs ae raw).map fun _ => (.none, .none)
  else if !isIPv4AE ae && ae != aeIPv6 then none
  else
    let bits := if isIPv4AE ae then 32 else 128
    let n := prefixByteLen plen
    if bits < plen ∨ raw.length < n then none
    else match decodeRequestSubTLVs ae (raw.drop n) with
      | none => none
      | some source =>
        let addr := (addrFromSlice (raw.take n ++ List.replicate (bits / 8 - n) 0)).getD .zero
        let dest := (prefixFrom addr.unmap plen).masked
        if !dest.isValid then none
        else if source.isValid && source.addr.is4 != dest.addr.is4 then none
        else some (dest, source)

/-- `DecodeRouteRequest`. -/
def decodeRouteRequest (body : List UInt8) : Option RouteRequest :=
  if body.length < 2 then none
  else (decodeRequestPrefix (body.getD 0 0) (body.getD 1 0).toNat (body.drop 2)).map fun (dest, source) =>
    ⟨body.getD 0 0, dest, source⟩

/-- `EncodeRouteRequest`: a wildcard request carries no source prefix. -/
def encodeRouteRequest (r : RouteRequest) : Option RawTLV :=
  if r.ae = aeWildcard ∨ !r.dest.isValid then some ⟨tlvRouteRequest, [aeWildcard, 0]⟩
  else do
    let p := r.dest.masked
    let raw ← sliceTo p.addr.asSlice (prefixByteLen p.bits.toNat)
    let source ← encodeSource r.ae r.sourcePrefix
    some ⟨tlvRouteRequest, [r.ae, UInt8.ofInt p.bits] ++ raw ++ source⟩

/-- `EncodeSeqnoRequest`. The length byte of an invalid prefix, whose length is `-1`, is 255. -/
def encodeSeqnoRequest (r : SeqnoRequest) : Option RawTLV := do
  let p := r.dest.masked
  let raw ← sliceTo p.addr.asSlice (prefixByteLen p.bits.toNat)
  let source ← encodeSource r.ae r.sourcePrefix
  some ⟨tlvSeqnoRequest, [r.ae, UInt8.ofInt p.bits] ++ putUint16 r.seqno ++ [r.hopCount, 0] ++ toBytes r.routerID ++
    raw ++ source⟩

/-- `DecodeSeqnoRequest`. -/
def decodeSeqnoRequest (body : List UInt8) : Option SeqnoRequest :=
  if body.length < 14 then none
  else match decodeRequestPrefix (body.getD 0 0) (body.getD 1 0).toNat (body.drop 14) with
    | none => none
    | some (dest, source) =>
      if !dest.isValid then none
      else some {
        ae := body.getD 0 0, dest := dest, sourcePrefix := source, seqno := uint16At body 2, hopCount := body.getD 4 0
        routerID := ofBytes 64 ((body.drop 6).take 8) }

/-- `aeFor`: the encoding of a request, which needs no next hop. -/
def aeFor (p : Prefix) : UInt8 := if p.addr.is4 then aeIPv4 else aeIPv6

end RanetLite.Babel
