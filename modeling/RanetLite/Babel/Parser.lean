import RanetLite.Babel.Hello
import RanetLite.Babel.Request

/-!
# The parser of a packet

The decoding half of the TLV loop of `handlePacketLocked` in `internal/babel/receive.go`: the state one TLV of a packet leaves for
the next ones, and what the TLV asks of the speaker. The state is created for each packet and dropped with it.
-/

namespace RanetLite.Babel

/-- The parser state of a packet: prefix compression, the router id in effect, and whether IPv4 has a next hop. -/
structure Parser where
  prefixDec : PrefixDecoder := PrefixDecoder.new
  routerID : Option RouterID := none
  haveIPv4NextHop : Bool := false

/-- What one TLV asks of the speaker. An Update comes with the router id and the IPv4 next hop in effect. -/
inductive Event where
  | hello (h : Hello)
  | ihu (i : IHU) (addr : Option (List UInt8))
  | update (u : Update) (routerID : Option RouterID) (haveIPv4NextHop : Bool)
  | ackReq (nonce : UInt16)
  | routeRequest (r : RouteRequest)
  | seqnoRequest (r : SeqnoRequest)
  | skip

/-- An Update moves the compression state, and the router id when its R flag is set. -/
def Parser.readUpdate (p : Parser) (body : List UInt8) : Parser × Event :=
  match p.prefixDec.decode body with
  | .error _ => (p, .skip)
  | .ok (u, d) =>
    let p := { p with prefixDec := d, routerID := u.routerID.or p.routerID }
    (p, .update u p.routerID p.haveIPv4NextHop)

/-- One TLV of a packet. A malformed TLV is skipped; an unknown type is too. -/
def Parser.read (p : Parser) (t : RawTLV) : Parser × Event :=
  if t.type = tlvHello then (p, ((decodeHello t.body).map .hello).getD .skip)
  else if t.type = tlvIHU then (p, ((decodeIHU t.body).map fun (i, addr) => .ihu i addr).getD .skip)
  else if t.type = tlvNextHop then
    match decodeNextHop t.body with
    | some (_, ae, _) => (if ae = aeIPv4 then { p with haveIPv4NextHop := true } else p, .skip)
    | none => (p, .skip)
  else if t.type = tlvRouterID then
    match decodeRouterID t.body with
    | some (id, _) => ({ p with routerID := some id }, .skip)
    | none => (p, .skip)
  else if t.type = tlvUpdate then p.readUpdate t.body
  else if t.type = tlvAckReq then (p, ((decodeAckReq t.body).map .ackReq).getD .skip)
  else if t.type = tlvRouteRequest then (p, ((decodeRouteRequest t.body).map .routeRequest).getD .skip)
  else if t.type = tlvSeqnoRequest then (p, ((decodeSeqnoRequest t.body).map .seqnoRequest).getD .skip)
  else (p, .skip)

/-- What a packet says: its Updates with the router id in effect at each, and its other TLVs, in order. -/
inductive Item where
  | update (routerID : Option RouterID) (u : Update)
  | other (t : RawTLV)
deriving DecidableEq, Repr

/-- What one TLV contributes, under a parser state. A Router-Id only sets the state. -/
def Parser.item (p : Parser) (t : RawTLV) : Option Item :=
  match (p.read t).2 with
  | .update u id _ => some (.update id u)
  | _ => if t.type = tlvRouterID ∨ t.type = tlvUpdate then none else some (.other t)

/-- What a run of TLVs says, from a parser state. -/
def Parser.items (p : Parser) : List RawTLV → List Item
  | [] => []
  | t :: rest => (p.item t).toList ++ (p.read t).1.items rest

/-- What a packet's payload says to a receiver; nothing when it does not decode. -/
def packetItems (payload : List UInt8) : List Item :=
  match decodePacket payload with
  | .error _ => []
  | .ok tlvs => ({} : Parser).items tlvs

end RanetLite.Babel
