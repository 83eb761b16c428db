import RanetLite.Lib.Octets

/-!
# Identity names in DER

`ike/der.go`: the encoder of tag, length and content, the reader that splits one element off, and the identity name built from
three attributes. Byte slices and Go strings are lists of bytes.
-/

namespace RanetLite.Ike

/-- The loop of `derLen`: octets put in front while something is left. -/
def lengthOctets (n : Nat) (b : List UInt8) : List UInt8 :=
  if n = 0 then b else lengthOctets (n >>> 8) (UInt8.ofNat (n &&& 0xff) :: b)
termination_by n
decreasing_by
  rw [Nat.shiftRight_eq_div_pow]
  omega

/-- `derLen`. -/
def derLen (n : Nat) : List UInt8 :=
  if n < 128 then [UInt8.ofNat n]
  else
    let b := lengthOctets n []
    (0x80 ||| UInt8.ofNat b.length) :: b

/-- `derTLV`. -/
def derTLV (tag : UInt8) (content : List UInt8) : List UInt8 := tag :: (derLen content.length ++ content)

def derUTF8String (s : List UInt8) : List UInt8 := derTLV 0x0c s
def derPrintableString (s : List UInt8) : List UInt8 := derTLV 0x13 s
def derSequence (parts : List (List UInt8)) : List UInt8 := derTLV 0x30 parts.flatten
def derSet (parts : List (List UInt8)) : List UInt8 := derTLV 0x31 parts.flatten

/-- The attribute types of an identity, as encoded elements. -/
def oidOrganizationName : List UInt8 := [0x06, 0x03, 0x55, 0x04, 0x0a]
def oidCommonName : List UInt8 := [0x06, 0x03, 0x55, 0x04, 0x03]
def oidSerialNumber : List UInt8 := [0x06, 0x03, 0x55, 0x04, 0x05]

/-- The attributes of an identity. -/
inductive Attribute where
  | organizationName
  | commonName
  | serialNumber
deriving DecidableEq, Repr

def Attribute.oid : Attribute → List UInt8
  | organizationName => oidOrganizationName
  | commonName => oidCommonName
  | serialNumber => oidSerialNumber

/-- An identity: what `EncodeIdentityDN` takes and `DecodeIdentityDN` returns. -/
structure IdentityDN where
  organization : List UInt8 := []
  commonName : List UInt8 := []
  serialNumber : List UInt8 := []
deriving DecidableEq, Repr

def IdentityDN.get (id : IdentityDN) : Attribute → List UInt8
  | .organizationName => id.organization
  | .commonName => id.commonName
  | .serialNumber => id.serialNumber

def IdentityDN.set (id : IdentityDN) (a : Attribute) (value : List UInt8) : IdentityDN :=
  match a with
  | .organizationName => { id with organization := value }
  | .commonName => { id with commonName := value }
  | .serialNumber => { id with serialNumber := value }

/-- `EncodeIdentityDN`. -/
def encodeIdentityDN (organization commonName serialNumber : List UInt8) : List UInt8 :=
  let atv := fun oid value => derSequence [oid, value]
  let rdn := fun a => derSet [a]
  derSequence [
    rdn (atv oidOrganizationName (derUTF8String organization)),
    rdn (atv oidCommonName (derUTF8String commonName)),
    rdn (atv oidSerialNumber (derPrintableString serialNumber))]

/-- Why an identity does not decode. -/
inductive DerError where
  | truncatedElement
  | unsupportedLength
  | nonMinimalLength
  | truncatedContent
  | notSingleSet
  | notOneAttribute
  | trailingData
  | stringType (tag : UInt8)
  | notSequence
  | repeated
  | unknownAttribute
  | attributeCount (count : Nat)
deriving DecidableEq, Repr

/-- The text of the error. -/
def DerError.text : DerError → String
  | truncatedElement => "ike: truncated DER element"
  | unsupportedLength => "ike: unsupported DER length"
  | nonMinimalLength => "ike: non-minimal DER length"
  | truncatedContent => "ike: truncated DER content"
  | notSingleSet => "ike: identity RDN is not a single SET"
  | notOneAttribute => "ike: identity RDN does not hold exactly one attribute"
  | trailingData => "ike: identity attribute has trailing data"
  | stringType tag => "ike: identity attribute has string type 0x" ++ String.ofList (Nat.toDigits 16 tag.toNat)
  | notSequence => "ike: identity is not a single RDNSequence"
  | repeated => "ike: identity repeats an attribute"
  | unknownAttribute => "ike: identity carries an attribute type this profile does not use"
  | attributeCount count => s!"ike: identity has {count} attributes, want 3"

/-- What `derElement` returns: the tag, the content and what follows. -/
structure Element where
  tag : UInt8
  content : List UInt8
  rest : List UInt8
deriving DecidableEq, Repr

/-- The end of `derElement`, where the length is known. -/
def splitContent (tag : UInt8) (length : Nat) (b : List UInt8) : Except DerError Element :=
  if b.length < length then .error .truncatedContent else .ok ⟨tag, b.take length, b.drop length⟩

/-- `derElement`. The length octets are at most four, so the accumulator stays below `2 ^ 32`. -/
def derElement : List UInt8 → Except DerError Element
  | tag :: first :: b =>
    if first &&& 0x80 ≠ 0 then
      let count := (first &&& 0x7f).toNat
      if count = 0 ∨ 4 < count ∨ b.length < count then .error .unsupportedLength
      else if b.head? = some 0 then .error .nonMinimalLength
      else
        let value := (b.take count).foldl (fun value octet => value <<< 8 ||| octet.toNat) 0
        let b := b.drop count
        if value < 128 then .error .nonMinimalLength
        else if b.length < value then .error .truncatedContent
        else splitContent tag value b
    else splitContent tag first.toNat b
  | _ => .error .truncatedElement

/-- `derElementRaw`: the element as it stands in the bytes, its content and what follows. -/
def derElementRaw (b : List UInt8) : Except DerError (List UInt8 × List UInt8 × List UInt8) := do
  let e ← derElement b
  .ok (b.take (b.length - e.rest.length), e.content, e.rest)

/-- `derAttribute`: the attribute type as an encoded element, and the string. -/
def derAttribute (rdn : List UInt8) : Except DerError (List UInt8 × List UInt8) := do
  let set ← derElement rdn
  if set.tag ≠ 0x31 ∨ set.rest ≠ [] then .error .notSingleSet
  else
    let seq ← derElement set.content
    if seq.tag ≠ 0x30 ∨ seq.rest ≠ [] then .error .notOneAttribute
    else
      let (oid, _, seq) ← derElementRaw seq.content
      let value ← derElement seq
      if value.rest ≠ [] then .error .trailingData
      else if value.tag = 0x0c ∨ value.tag = 0x13 then .ok (oid, value.content)
      else .error (.stringType value.tag)

/-- One of the attributes `DecodeIdentityDN` expects, the result it goes to and whether it was seen. -/
structure Target where
  oid : List UInt8
  value : Attribute
  seen : Bool := false
deriving DecidableEq, Repr

/-- The loop over the targets for one attribute: whether one matched, the targets and the identity after it. -/
def matchTargets (oid value : List UInt8) : List Target → IdentityDN → Except DerError (Bool × List Target × IdentityDN)
  | [], id => .ok (false, [], id)
  | t :: ts, id =>
    if oid ≠ t.oid then do
      let (matched, ts, id) ← matchTargets oid value ts id
      .ok (matched, t :: ts, id)
    else if t.seen then .error .repeated
    else do
      let (_, ts, id) ← matchTargets oid value ts (id.set t.value value)
      .ok (true, { t with seen := true } :: ts, id)

/-- What `splitContent` leaves is part of what it was given. -/
theorem length_rest_splitContent {tag : UInt8} {length : Nat} {b : List UInt8} {e : Element}
    (h : splitContent tag length b = .ok e) : e.rest.length ≤ b.length := by
  unfold splitContent at h
  split_ifs at h
  obtain rfl := Except.ok.inj h
  exact (List.length_drop ▸ Nat.sub_le _ _)

/-- An element takes at least its tag and its length. -/
theorem length_rest_lt {b : List UInt8} {e : Element} (h : derElement b = .ok e) : e.rest.length < b.length := by
  unfold derElement at h
  split at h
  · dsimp only at h
    split_ifs at h
    · have hrest := length_rest_splitContent h
      rw [List.length_drop] at hrest
      simp only [List.length_cons]
      omega
    · have hrest := length_rest_splitContent h
      simp only [List.length_cons]
      omega
  · cases h

/-- The loop of `DecodeIdentityDN` over the attributes: the identity and how many there were. -/
def readAttributes (seq : List UInt8) (targets : List Target) (id : IdentityDN) (count : Nat) :
    Except DerError (IdentityDN × Nat) :=
  if seq = [] then .ok (id, count)
  else
    match h : derElement seq with
    | .error e => .error e
    | .ok e => do
      have := length_rest_lt h
      let (oid, value) ← derAttribute (seq.take (seq.length - e.rest.length))
      let (matched, targets, id) ← matchTargets oid value targets id
      if matched then readAttributes e.rest targets id (count + 1) else .error .unknownAttribute
termination_by seq.length

/-- The targets `DecodeIdentityDN` starts with. -/
def identityTargets : List Target :=
  [⟨oidOrganizationName, .organizationName, false⟩, ⟨oidCommonName, .commonName, false⟩, ⟨oidSerialNumber, .serialNumber, false⟩]

/-- `DecodeIdentityDN`. -/
def decodeIdentityDN (b : List UInt8) : Except DerError IdentityDN := do
  let e ← derElement b
  if e.tag ≠ 0x30 ∨ e.rest ≠ [] then .error .notSequence
  else
    let (id, count) ← readAttributes e.content identityTargets {} 0
    if count ≠ identityTargets.length then .error (.attributeCount count) else .ok id

end RanetLite.Ike
