import RanetLite.Kernel.Fib
import RanetLite.Lib.Attributes

/-!
# Routes and rules as netlink messages

The codec of `internal/kernel/platform_linux.go` and `rules_linux.go`: the body of the message that installs or deletes a route or a
rule, and what is read out of a dumped one. The byte order of the machine is a parameter. A message is its type and its body.
-/

namespace RanetLite.Kernel

open Bytes Netip

def rtmNewRoute : UInt16 := 24

/-- The size of `rtmsg` and of `fib_rule_hdr`. -/
def headerLen : Nat := 12

def afInet : UInt8 := 2
def afInet6 : UInt8 := 10
def rtnUnicast : UInt8 := 1
def rtnUnreachable : UInt8 := 7
def frActToTbl : UInt8 := 1

def rtaDst : UInt16 := 1
def rtaSrc : UInt16 := 2
def rtaOif : UInt16 := 4
def rtaPriority : UInt16 := 6
def rtaPrefSrc : UInt16 := 7
def rtaTable : UInt16 := 15

def fraDst : UInt16 := 1
def fraSrc : UInt16 := 2
def fraPriority : UInt16 := 6
def fraFwMark : UInt16 := 10
def fraTable : UInt16 := 15
def fraFwMask : UInt16 := 16
def fraProtocol : UInt16 := 21

/-- `nlMessage`. -/
structure Message where
  kind : UInt16
  data : List UInt8
deriving DecidableEq, Repr

/-- `addressBytes`. -/
def addressBytes (a : Addr) : List UInt8 :=
  match a with
  | .zero => toBytes (0 : BitVec 128)
  | .v4 x => toBytes x
  | .v6 x _ => toBytes x

/-- `addressFromBytes`: the zero address where the length is of no family. -/
def addressFromBytes (raw : List UInt8) : Addr :=
  if raw.length = 4 then .v4 (ofBytes 32 raw) else if raw.length = 16 then .v6 (ofBytes 128 raw) "" else .zero

/-- `unspecified`. -/
def unspecified (family : UInt8) : Addr := if family = afInet then .v4 0 else .v6 0 ""

section

variable (e : Endian) (m : Marker)

/-- The value of an attribute of four bytes. -/
def putU32 (value : UInt32) : List UInt8 := e.put value.toBitVec

/-- A number of four bytes, or the one there was. -/
def readU32 (value : List UInt8) (before : UInt32) : UInt32 :=
  if value.length = 4 then UInt32.ofBitVec (e.get 32 value) else before

/-- `nlMessage.attributes`, behind the header. -/
def Message.attributes (msg : Message) : List (UInt16 × List UInt8) := Attributes.split e (msg.data.drop headerLen)

/-- The number of bits of a prefix that is there, as the header carries it. -/
def bitsByte (p : Prefix) : UInt8 := if p.isValid then UInt8.ofInt p.bits else 0

def routeHeader (route : Route) (del : Bool) : List UInt8 :=
  let is4 := route.destination.addr.is4
  let family := if is4 then afInet else afInet6
  let scope : UInt8 := if del then 255 else if route.unreachable then 0 else if is4 then 253 else 0
  let kind := if del then 0 else if route.unreachable then rtnUnreachable else rtnUnicast
  let table := if m.table ≤ 255 then UInt8.ofNat m.table.toNat else 0
  [family, UInt8.ofInt route.destination.bits, bitsByte route.source, 0, table, m.proto, scope, kind, 0, 0, 0, 0]

def routeAttributes (route : Route) : List (UInt16 × List UInt8) :=
  [(rtaTable, putU32 e m.table)] ++
    (if 0 < route.destination.bits then [(rtaDst, addressBytes route.destination.addr)] else []) ++
    (if route.source.isValid ∧ 0 < route.source.bits then [(rtaSrc, addressBytes route.source.addr)] else []) ++
    (if !route.unreachable then [(rtaOif, putU32 e m.index)] else []) ++
    (if route.prefSrc.isValid then [(rtaPrefSrc, addressBytes route.prefSrc)] else []) ++
    [(rtaPriority, putU32 e route.metric)]

/-- `routeMessage`. -/
def routeMessage (route : Route) (del : Bool) : List UInt8 :=
  routeHeader m route del ++ Attributes.putAll e (routeAttributes e m route)

/-- What `decodeRoute` gathers from the attributes. -/
structure RouteAttributes where
  table : UInt32
  destination : Addr := .zero
  source : Addr := .zero
  prefSrc : Addr := .zero
  oif : UInt32 := 0
  metric : UInt32 := 0

def RouteAttributes.take (s : RouteAttributes) (attr : UInt16 × List UInt8) : RouteAttributes :=
  if attr.1 = rtaTable then { s with table := readU32 e attr.2 s.table }
  else if attr.1 = rtaDst then { s with destination := addressFromBytes attr.2 }
  else if attr.1 = rtaSrc then { s with source := addressFromBytes attr.2 }
  else if attr.1 = rtaPrefSrc then { s with prefSrc := addressFromBytes attr.2 }
  else if attr.1 = rtaOif then { s with oif := readU32 e attr.2 s.oif }
  else if attr.1 = rtaPriority then { s with metric := readU32 e attr.2 s.metric }
  else s

/-- The rest of `decodeRoute`, from the fields of the header and what the attributes gave. -/
def RouteAttributes.route (s : RouteAttributes) (family dstLen srcLen kind : UInt8) : Option Route :=
  if s.table ≠ m.table ∨ kind = rtnUnicast ∧ s.oif ≠ m.index then none
  else
    -- A destination that is left out is the default.
    let destination := if s.destination.isValid then s.destination else unspecified family
    if destination.is4 ≠ (family == afInet) then none
    else (canonicalPrefix (prefixFrom destination dstLen.toNat)).bind fun dst =>
      let decoded : Route := { destination := dst, prefSrc := s.prefSrc, metric := s.metric, unreachable := kind == rtnUnreachable }
      if srcLen = 0 then some decoded
      else if !s.source.isValid then none
      else (canonicalPrefix (prefixFrom s.source srcLen.toNat)).map fun src => { decoded with source := src }

/-- `decodeRoute`: what of a dumped route is the reconciler's own. -/
def decodeRoute (msg : Message) : Option Route :=
  let byte := fun i => msg.data.getD i 0
  if msg.kind ≠ rtmNewRoute ∨ msg.data.length < headerLen then none
  else if byte 5 ≠ m.proto ∨ byte 7 ≠ rtnUnicast ∧ byte 7 ≠ rtnUnreachable then none
  else if byte 0 ≠ afInet ∧ byte 0 ≠ afInet6 then none
  else ((msg.attributes e).foldl (RouteAttributes.take e) { table := (byte 4).toUInt32 }).route m (byte 0) (byte 1) (byte 2) (byte 7)

/-- `Family.af`. -/
def Family.af (f : Family) : UInt8 := if f = .ipv4 then afInet else afInet6

def ruleAttributes (rule : Rule) : List (UInt16 × List UInt8) :=
  [(fraPriority, putU32 e rule.priority), (fraTable, putU32 e rule.table), (fraProtocol, [m.proto])] ++
    (if rule.to_.isValid then [(fraDst, addressBytes rule.to_.addr)] else []) ++
    (if rule.from_.isValid then [(fraSrc, addressBytes rule.from_.addr)] else []) ++
    (if rule.fwMark ≠ 0 then [(fraFwMark, putU32 e rule.fwMark)] else []) ++
    (if rule.fwMark ≠ 0 ∧ rule.fwMask ≠ 0 then [(fraFwMask, putU32 e rule.fwMask)] else [])

/-- `ruleMessage`: the table goes in an attribute, the byte of the header stays unset. -/
def ruleMessage (rule : Rule) : List UInt8 :=
  [rule.family.af, bitsByte rule.to_, bitsByte rule.from_, 0, 0, 0, 0, frActToTbl, 0, 0, 0, 0] ++
    Attributes.putAll e (ruleAttributes e m rule)

/-- One attribute of `decodeRule`: the rule so far, and whether the protocol is ours. -/
def takeRule (dstLen srcLen : UInt8) (s : Rule × Bool) (attr : UInt16 × List UInt8) : Rule × Bool :=
  let rule := s.1
  let address := addressFromBytes attr.2
  if attr.1 = fraProtocol then (rule, attr.2 = [m.proto])
  else if attr.1 = fraTable then ({ rule with table := readU32 e attr.2 rule.table }, s.2)
  else if attr.1 = fraPriority then ({ rule with priority := readU32 e attr.2 rule.priority }, s.2)
  else if attr.1 = fraFwMark then ({ rule with fwMark := readU32 e attr.2 rule.fwMark }, s.2)
  else if attr.1 = fraFwMask then ({ rule with fwMask := readU32 e attr.2 rule.fwMask }, s.2)
  else if attr.1 = fraDst then (if address.isValid then { rule with to_ := prefixFrom address dstLen.toNat } else rule, s.2)
  else if attr.1 = fraSrc then (if address.isValid then { rule with from_ := prefixFrom address srcLen.toNat } else rule, s.2)
  else s

/-- `decodeRule`. -/
def decodeRule (msg : Message) : Option Rule :=
  let byte := fun i => msg.data.getD i 0
  let family := byte 0
  if msg.data.length < headerLen then none
  else if family ≠ afInet ∧ family ≠ afInet6 then none
  else if byte 7 ≠ frActToTbl then none
  else
    let start : Rule := { table := 0, priority := 0, family := if family = afInet then .ipv4 else .ipv6 }
    let s := (msg.attributes e).foldl (takeRule e m (byte 1) (byte 2)) (start, false)
    if !s.2 ∨ s.1.table = 0 ∨ s.1.priority = 0 then none else some s.1.canonical

end

end RanetLite.Kernel
