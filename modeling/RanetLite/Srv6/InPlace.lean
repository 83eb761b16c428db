import RanetLite.Srv6.Header

/-!
# Encapsulation in place

`srv6/srv6.go`: `EncapsulateInPlace`, and `writeOuter` as the run of writes it is. The packet is moved along within its own buffer,
and the header is then written over the bytes it left, from the packet where it now lies.

An `int` is an `Int64` and its sums wrap. A slice expression out of bounds panics.
-/

namespace RanetLite.Srv6

open Bytes Netip Buffer

/-- The most bytes one allocation holds. -/
def maxAlloc : Nat := 2 ^ 48

/-- A slice of bytes. -/
structure Slice where
  bytes : List UInt8
  fits : bytes.length ≤ maxAlloc

/-- `len`. -/
def Slice.len (buf : Slice) : Int64 := Int64.ofNat buf.bytes.length

/-- Why an encapsulation in place is refused. -/
inductive InPlaceError where
  | outside (offset size length : Int64)
  | segment (e : SegmentError)
  | noRoom (size overhead room : Int64)
deriving DecidableEq, Repr

/-- The text of the error. -/
def InPlaceError.text (render : Addr → String) : InPlaceError → String
  | outside offset size length => s!"srv6: a packet at {offset}+{size} is not inside a {length} byte buffer"
  | segment e => e.text render
  | noRoom size overhead room => s!"srv6: encapsulating {size} bytes needs {overhead} more and the buffer has {room}"

/-- `checkEncapsulation`. -/
def checkEncapsulation (inner : List UInt8) (source : Addr) (path : List Addr) : Except SegmentError Nat :=
  match checkPath source path with
  | some e => .error e
  | none =>
    match innerNextHeader inner with
    | .error e => .error e
    | .ok _ =>
      if 0xffff < srhFixedLen + addrLen * path.length + inner.length then .error (.payloadOverflow inner.length path.length)
      else .ok (overhead path.length)

/-- The loop of `writeOuter` over the segments, the first of them at index `at_`. -/
def writeSegments (buf : List UInt8) (at_ : Nat) : List Addr → List UInt8
  | [] => buf
  | segment :: rest => writeSegments (write buf at_ (addr16 segment)) (at_ + addrLen) rest

/-- `writeOuter` on the header at index `out` of a buffer, the inner packet lying at `at_` in it. -/
def writeOuterInto (buf : List UInt8) (out at_ size : Nat) (source : Addr) (path : List Addr) : List UInt8 :=
  let inner := read buf at_ size
  let innerNext := (innerNextHeader inner).toOption.getD 0
  let hopLimit := if innerNext = nextHeaderIPv6 then inner.getD 7 0 else defaultHopLimit
  let segments := path.reverse
  let last := UInt8.ofNat (segments.length - 1)
  let srhLen := srhFixedLen + addrLen * segments.length
  let buf :=
    if innerNext = nextHeaderIPv6 then write buf out (inner.take 4)
    else write (write buf out [0x60, 0]) (out + 2) [0, 0]
  let buf := write buf (out + 4) (toBytes (BitVec.ofNat 16 (srhLen + size)))
  let buf := write buf (out + 6) [nextHeaderRouting]
  let buf := write buf (out + 7) [hopLimit]
  let buf := write buf (out + 8) (addr16 source)
  let buf := write buf (out + 24) (addr16 (segments.getD last.toNat .zero))
  let buf := write buf (out + 40) [innerNext]
  let buf := write buf (out + 41) [UInt8.ofNat (2 * segments.length)]
  let buf := write buf (out + 42) [routingTypeSegment]
  let buf := write buf (out + 43) [last]
  let buf := write buf (out + 44) [last]
  let buf := write buf (out + 45) [0, 0, 0]
  writeSegments buf (out + 48) segments

/-- A buffer after a call and what the call returned, `none` for a panic. -/
structure InPlace where
  bytes : List UInt8
  result : Option (Except InPlaceError Int64)

/-- `EncapsulateInPlace`. -/
def encapsulateInPlace (buf : Slice) (offset size : Int64) (source : Addr) (path : List Addr) : InPlace :=
  if offset < 0 ∨ size < 0 ∨ buf.len < offset + size then ⟨buf.bytes, some (.error (.outside offset size buf.len))⟩
  else if offset + size < offset then ⟨buf.bytes, none⟩
  else
    let inner := read buf.bytes offset.toNatClampNeg size.toNatClampNeg
    match checkEncapsulation inner source path with
    | .error e => ⟨buf.bytes, some (.error (.segment e))⟩
    | .ok overhead =>
      if buf.len < offset + Int64.ofNat overhead + size then
        ⟨buf.bytes, some (.error (.noRoom size (Int64.ofNat overhead) (buf.len - offset - size)))⟩
      else
        let at_ := (offset + Int64.ofNat overhead).toNatClampNeg
        let moved := write buf.bytes at_ inner
        ⟨writeOuterInto moved offset.toNatClampNeg at_ size.toNatClampNeg source path, some (.ok (Int64.ofNat overhead + size))⟩

end RanetLite.Srv6
