import RanetLite.Ike.Message
import RanetLite.Lib.Octets

/-!
# Proposals of an SA payload

`ike/payloads_sa.go`: transforms with their attributes, proposals with their transforms, and the body of an SA payload. A list of
substructures marks its last one; the readers keep the texts of their errors.
-/

namespace RanetLite.Ike

open Bytes

/-- `TransformType` and the one attribute of a transform that is supported. -/
def transEncr : UInt8 := 1
def transESN : UInt8 := 5
def attrKeyLength : UInt16 := 14

/-- `Transform`: a key length of zero is no Key Length attribute. -/
structure Transform where
  type : UInt8
  id : UInt16 := 0
  keyLengthBits : UInt16 := 0
  unsupportedAttributes : Bool := false
deriving DecidableEq, Repr

/-- `Proposal`. -/
structure Proposal where
  number : UInt8
  protocol : UInt8
  spi : List UInt8 := []
  transforms : List Transform := []
deriving DecidableEq, Repr

/-- A word in two bytes, and the word of two bytes. -/
def putUint16 (x : UInt16) : List UInt8 := toBytes x.toBitVec
def uint16 (hi lo : UInt8) : UInt16 := ⟨ofBytes 16 [hi, lo]⟩

/-- A list of substructures, the last one marked. -/
def chain {α : Type} (encode : α → Bool → List UInt8) : List α → List UInt8
  | [] => []
  | a :: rest => encode a rest.isEmpty ++ chain encode rest

/-- The attributes `Transform.encode` writes. -/
def Transform.attrs (t : Transform) : List UInt8 :=
  if t.keyLengthBits ≠ 0 then putUint16 (0x8000 ||| attrKeyLength) ++ putUint16 t.keyLengthBits else []

/-- `Transform.encode`. -/
def Transform.encode (t : Transform) (last : Bool) : List UInt8 :=
  [if last then 0 else 3, 0] ++ putUint16 (UInt16.ofNat (8 + t.attrs.length)) ++ [t.type, 0] ++ putUint16 t.id ++ t.attrs

/-- `Proposal.encode`. -/
def Proposal.encode (p : Proposal) (last : Bool) : List UInt8 :=
  let tbody := chain Transform.encode p.transforms
  [if last then 0 else 2, 0] ++ putUint16 (UInt16.ofNat (8 + p.spi.length + tbody.length)) ++
    [p.number, p.protocol, UInt8.ofNat p.spi.length, UInt8.ofNat p.transforms.length] ++ p.spi ++ tbody

/-- `EncodeSA`. -/
def encodeSA (proposals : List Proposal) : List UInt8 := chain Proposal.encode proposals

/-- Why an SA payload does not decode. -/
inductive SAError where
  | shortTransform
  | transformLast (value : UInt8)
  | transformLength (length : Nat)
  | truncatedAttribute
  | attributeLength (length : Nat)
  | shortProposal
  | proposalLast (value : UInt8)
  | proposalLength (length : Nat)
  | truncatedSPI
  | endedEarly
  | moreThanDeclared
  | trailingProposal
  | trailingSA
  | endsWithMore
deriving DecidableEq, Repr

/-- The text of the error. -/
def SAError.text : SAError → String
  | shortTransform => "ike: short transform"
  | transformLast value => s!"ike: invalid transform last/more value {value}"
  | transformLength length => s!"ike: invalid transform length {length}"
  | truncatedAttribute => "ike: truncated transform attribute"
  | attributeLength length => s!"ike: invalid transform attribute length {length}"
  | shortProposal => "ike: short proposal"
  | proposalLast value => s!"ike: invalid proposal last/more value {value}"
  | proposalLength length => s!"ike: invalid proposal length {length}"
  | truncatedSPI => "ike: proposal SPI truncated"
  | endedEarly => "ike: proposal ended before transform count"
  | moreThanDeclared => "ike: proposal has more transforms than declared"
  | trailingProposal => "ike: trailing bytes in proposal"
  | trailingSA => "ike: trailing bytes after last proposal"
  | endsWithMore => "ike: proposal chain ends with more flag"

/-- The loop of `decodeTransform` over the attributes: a Key Length in two bytes is kept once, anything else is unsupported. -/
def decodeAttributes (t : Transform) (haveKeyLength : Bool) : List UInt8 → Except SAError Transform
  | [] => .ok t
  | a1 :: a0 :: v1 :: v0 :: attrs =>
    if uint16 a1 a0 &&& 0x8000 ≠ 0 then
      if uint16 a1 a0 &&& 0x7fff ≠ attrKeyLength ∨ haveKeyLength then
        decodeAttributes { t with unsupportedAttributes := true } haveKeyLength attrs
      else
        let bits := uint16 v1 v0
        decodeAttributes
          { t with keyLengthBits := bits, unsupportedAttributes := t.unsupportedAttributes || decide (bits = 0) } true attrs
    else
      let valueLength := (uint16 v1 v0).toNat
      if attrs.length < valueLength then .error (.attributeLength valueLength)
      else decodeAttributes { t with unsupportedAttributes := true } haveKeyLength (attrs.drop valueLength)
  | _ => .error .truncatedAttribute
termination_by attrs => attrs.length

/-- `decodeTransform`: the transform, whether more follow, and the bytes behind it. -/
def decodeTransform : List UInt8 → Except SAError (Transform × Bool × List UInt8)
  | last :: _ :: l1 :: l0 :: type :: _ :: id1 :: id0 :: body =>
    if last ≠ 0 ∧ last ≠ 3 then .error (.transformLast last)
    else
      let tlen := (uint16 l1 l0).toNat
      if tlen < 8 ∨ 8 + body.length < tlen then .error (.transformLength tlen)
      else do
        let t ← decodeAttributes { type := type, id := uint16 id1 id0 } false (body.take (tlen - 8))
        .ok (t, decide (last = 3), body.drop (tlen - 8))
  | _ => .error .shortTransform

/-- The loop of `decodeProposal` over the declared number of transforms. -/
def decodeTransforms : Nat → List UInt8 → Except SAError (List Transform × List UInt8)
  | 0, rest => .ok ([], rest)
  | n + 1, rest => do
    let (t, more, next) ← decodeTransform rest
    if 0 < n ∧ !more then .error .endedEarly
    else if n = 0 ∧ more then .error .moreThanDeclared
    else
      let (ts, rest) ← decodeTransforms n next
      .ok (t :: ts, rest)

/-- `decodeProposal`: the proposal, whether more follow, and the bytes behind it. -/
def decodeProposal : List UInt8 → Except SAError (Proposal × Bool × List UInt8)
  | last :: _ :: l1 :: l0 :: number :: protocol :: spiSize :: numTrans :: body =>
    if last ≠ 0 ∧ last ≠ 2 then .error (.proposalLast last)
    else
      let plen := (uint16 l1 l0).toNat
      if plen < 8 ∨ 8 + body.length < plen then .error (.proposalLength plen)
      else
        let rest := body.take (plen - 8)
        if rest.length < spiSize.toNat then .error .truncatedSPI
        else do
          let (ts, trailing) ← decodeTransforms numTrans.toNat (rest.drop spiSize.toNat)
          if trailing ≠ [] then .error .trailingProposal
          else .ok (⟨number, protocol, rest.take spiSize.toNat, ts⟩, decide (last = 2), body.drop (plen - 8))
  | _ => .error .shortProposal

/-- A proposal takes at least its header. -/
theorem length_lt_of_decodeProposal {b next : List UInt8} {p : Proposal} {more : Bool}
    (h : decodeProposal b = .ok (p, more, next)) : next.length < b.length := by
  unfold decodeProposal at h
  split at h
  · dsimp only at h
    split_ifs at h
    obtain ⟨⟨ts, trailing⟩, -, h⟩ := Octets.bind_eq_ok_iff.1 h
    dsimp only at h
    split_ifs at h
    cases h
    simp only [List.length_cons, List.length_drop]
    omega
  · cases h

/-- `DecodeSA`. -/
def decodeSA (rest : List UInt8) : Except SAError (List Proposal) :=
  if rest = [] then .ok []
  else
    match h : decodeProposal rest with
    | .error e => .error e
    | .ok (p, more, next) =>
      have := length_lt_of_decodeProposal h
      if !more ∧ next ≠ [] then .error .trailingSA
      else if more ∧ next = [] then .error .endsWithMore
      else do
        let ps ← decodeSA next
        .ok (p :: ps)
termination_by rest.length

end RanetLite.Ike
