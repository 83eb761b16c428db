import RanetLite.Babel.Tlv

/-!
# Hello and IHU TLVs

`internal/babel/hello_ihu.go`. The decoding errors carry texts no caller reads; here they are `none`.
-/

namespace RanetLite.Babel

open Bytes

/-- `Hello`, RFC 8966 section 4.6.5, with the transmit timestamp of RFC 9616. -/
structure Hello where
  seqno : UInt16
  interval : UInt16
  unicast : Bool := false
  txTS : UInt32 := 0
  hasTS : Bool := false
deriving DecidableEq, Repr

/-- `EncodeHello`. -/
def encodeHello (h : Hello) : RawTLV :=
  let flags : UInt16 := if h.unicast then 0x8000 else 0
  let body := putUint16 flags ++ putUint16 h.seqno ++ putUint16 h.interval
  let subs := if h.hasTS then encodeSubTLVs [⟨subTLVTimestamp, putUint32 h.txTS⟩] else []
  ⟨tlvHello, body ++ subs⟩

/-- `DecodeHello`. -/
def decodeHello (body : List UInt8) : Option Hello :=
  if body.length < 6 then none
  else match decodeOptionalSubTLVs (body.drop 6) with
    | none => none
    | some subs =>
      let h : Hello := {
        seqno := uint16At body 2, interval := uint16At body 4
        unicast := uint16At body 0 &&& 0x8000 != 0 }
      match findSubTLV subs subTLVTimestamp with
      | some ts => if 4 ≤ ts.length then some { h with txTS := uint32At ts 0, hasTS := true } else some h
      | none => some h

/-- `IHU`, RFC 8966 section 4.6.6, with the timestamps of RFC 9616. -/
structure IHU where
  rxCost : UInt16
  interval : UInt16
  originTS : UInt32 := 0
  receiveTS : UInt32 := 0
  hasTS : Bool := false
deriving DecidableEq, Repr

/-- `EncodeIHU`: always under the wildcard encoding. -/
def encodeIHU (ihu : IHU) : RawTLV :=
  let body := [aeWildcard, 0] ++ putUint16 ihu.rxCost ++ putUint16 ihu.interval
  let subs :=
    if ihu.hasTS then encodeSubTLVs [⟨subTLVTimestamp, putUint32 ihu.originTS ++ putUint32 ihu.receiveTS⟩] else []
  ⟨tlvIHU, body ++ subs⟩

/-- How many bytes an address takes under an encoding, in `DecodeIHU`. -/
def addressLen (ae : UInt8) : Nat := if ae = aeIPv6 then 16 else if ae = aeIPv6LinkLocal then 8 else 4

/-- The address part of `DecodeIHU`: the address, when the encoding has one, and the bytes after it. -/
def decodeIHUAddress (ae : UInt8) (rest : List UInt8) : Option (Option (List UInt8) × List UInt8) :=
  if ae = aeWildcard then some (none, rest)
  else (decodeAddress ae rest).map fun addr => (some addr, rest.drop (addressLen ae))

/-- `DecodeIHU`. -/
def decodeIHU (body : List UInt8) : Option (IHU × Option (List UInt8)) :=
  if body.length < 6 then none
  else match decodeIHUAddress (body.getD 0 0) (body.drop 6) with
    | none => none
    | some (addr, rest) =>
      match decodeOptionalSubTLVs rest with
      | none => none
      | some subs =>
        let ihu : IHU := { rxCost := uint16At body 2, interval := uint16At body 4 }
        match findSubTLV subs subTLVTimestamp with
        | some ts =>
          if 8 ≤ ts.length then
            some ({ ihu with originTS := uint32At ts 0, receiveTS := uint32At ts 4, hasTS := true }, addr)
          else some (ihu, addr)
        | none => some (ihu, addr)

end RanetLite.Babel
