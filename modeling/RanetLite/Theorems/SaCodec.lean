import RanetLite.Ike.Proposal

/-!
# SA payloads on the wire

The bodies `DecodeSA` accepts are the ones written from attributes, transforms and proposals level by level: every length, count
and last flag is the one of what it is about, and what the reader ignores (reserved bytes, unsupported attributes) stands in the
wire form beside what it returns. What `EncodeSA` writes is such a body.
-/

namespace RanetLite.Ike

open Bytes Octets

/-- An attribute on the wire: two bytes of value, or a length and that many. -/
inductive WireAttribute where
  | tv (type value : UInt16) (short : type &&& 0x8000 ≠ 0)
  | tlv (type : UInt16) (value : List UInt8) (long : ¬type &&& 0x8000 ≠ 0) (fits : value.length < 65536)

def WireAttribute.encode : WireAttribute → List UInt8
  | tv type value _ => putUint16 type ++ putUint16 value
  | tlv type value _ _ => putUint16 type ++ (putUint16 (UInt16.ofNat value.length) ++ value)

/-- The value of a Key Length attribute. -/
def WireAttribute.keyLength? : WireAttribute → Option UInt16
  | tv type value _ => if type &&& 0x7fff ≠ attrKeyLength then none else some value
  | tlv _ _ _ _ => none

/-- Attributes that are supported: none, or one Key Length that is not zero. -/
def supportedAttributes : List WireAttribute → Bool
  | [] => true
  | [a] => a.keyLength?.any fun bits => bits ≠ 0
  | _ => false

/-- A transform on the wire. -/
structure WireTransform where
  reserved₁ : UInt8
  type : UInt8
  reserved₂ : UInt8
  id : UInt16
  attrs : List WireAttribute
  fits : 8 + (attrs.flatMap WireAttribute.encode).length < 65536

def WireTransform.encode (w : WireTransform) (last : Bool) : List UInt8 :=
  [if last then 0 else 3, w.reserved₁] ++ putUint16 (UInt16.ofNat (8 + (w.attrs.flatMap WireAttribute.encode).length)) ++
    [w.type, w.reserved₂] ++ putUint16 w.id ++ w.attrs.flatMap WireAttribute.encode

/-- What is read of it: the first Key Length, and whether there was anything else. -/
def WireTransform.transform (w : WireTransform) : Transform where
  type := w.type
  id := w.id
  keyLengthBits := (w.attrs.findSome? WireAttribute.keyLength?).getD 0
  unsupportedAttributes := !supportedAttributes w.attrs

/-- A proposal on the wire. -/
structure WireProposal where
  reserved : UInt8
  number : UInt8
  protocol : UInt8
  spi : List UInt8
  transforms : List WireTransform
  spi_fits : spi.length < 256
  count_fits : transforms.length < 256
  fits : 8 + spi.length + (chain WireTransform.encode transforms).length < 65536

def WireProposal.encode (w : WireProposal) (last : Bool) : List UInt8 :=
  [if last then 0 else 2, w.reserved] ++
    putUint16 (UInt16.ofNat (8 + w.spi.length + (chain WireTransform.encode w.transforms).length)) ++
    [w.number, w.protocol, UInt8.ofNat w.spi.length, UInt8.ofNat w.transforms.length] ++ w.spi ++
    chain WireTransform.encode w.transforms

def WireProposal.proposal (w : WireProposal) : Proposal :=
  ⟨w.number, w.protocol, w.spi, w.transforms.map WireTransform.transform⟩

namespace SaAux

variable {t : Transform} {b next : List UInt8} {more : Bool}

/-! ### Words -/

/-- Two octets read and written again. -/
theorem putUint16_uint16 (hi lo : UInt8) : putUint16 (uint16 hi lo) = [hi, lo] := toBytes_ofBytes rfl

/-- A word is two octets. -/
theorem exists_putUint16 (x : UInt16) : ∃ hi lo, putUint16 x = [hi, lo] ∧ uint16 hi lo = x := by
  have hlen : (putUint16 x).length = 2 := length_toBytes _
  obtain ⟨hi, lo, heq⟩ := List.length_eq_two.1 hlen
  refine ⟨hi, lo, heq, ?_⟩
  rw [uint16, ← heq, putUint16, ofBytes_toBytes _ rfl]

/-- A number below 65536 is kept. -/
theorem toNat_ofNat {n : Nat} (h : n < 65536) : (UInt16.ofNat n).toNat = n := UInt16.toNat_ofNat_of_lt' h

/-- A flag byte that is one of its two values is the one written for what it was read as. -/
theorem flag_of_last {last more : UInt8} (h : last ≠ 0 → last = more) :
    (if (!decide (last = more)) = true then 0 else more) = last := by
  by_cases hmore : last = more
  · simp [hmore]
  · have hzero : last = 0 := by
      by_contra hne
      exact hmore (h hne)
    rw [decide_eq_false hmore, hzero]
    rfl

/-! ### Attributes -/

/-- What one attribute does to the transform that is being read. -/
def readAttribute : Transform × Bool → WireAttribute → Transform × Bool
  | (t, haveKeyLength), .tv type value _ =>
    if type &&& 0x7fff ≠ attrKeyLength ∨ haveKeyLength then ({ t with unsupportedAttributes := true }, haveKeyLength)
    else ({ t with keyLengthBits := value, unsupportedAttributes := t.unsupportedAttributes || decide (value = 0) }, true)
  | (t, haveKeyLength), .tlv _ _ _ _ => ({ t with unsupportedAttributes := true }, haveKeyLength)

/-- One attribute is read, then the rest. -/
theorem decodeAttributes_append (t : Transform) (haveKeyLength : Bool) (a : WireAttribute) (rest : List UInt8) :
    decodeAttributes t haveKeyLength (a.encode ++ rest) =
      decodeAttributes (readAttribute (t, haveKeyLength) a).1 (readAttribute (t, haveKeyLength) a).2 rest := by
  cases a with
  | tv type value short =>
    obtain ⟨a1, a0, htype, rfl⟩ := exists_putUint16 type
    obtain ⟨v1, v0, hvalue, rfl⟩ := exists_putUint16 value
    rw [WireAttribute.encode, htype, hvalue]
    simp only [List.cons_append, List.nil_append]
    rw [decodeAttributes, if_pos short]
    unfold readAttribute
    dsimp only
    split_ifs <;> rfl
  | tlv type value long fits =>
    obtain ⟨a1, a0, htype, rfl⟩ := exists_putUint16 type
    obtain ⟨v1, v0, hvalue, hlen⟩ := exists_putUint16 (UInt16.ofNat value.length)
    rw [WireAttribute.encode, htype, hvalue]
    simp only [List.cons_append, List.nil_append]
    rw [decodeAttributes, if_neg long]
    dsimp only
    rw [hlen, toNat_ofNat fits, if_neg (by simp), List.drop_left]
    rfl

/-- Attributes that are accepted begin with one. -/
theorem exists_attribute {t' : Transform} {haveKeyLength : Bool} (hne : b ≠ []) (h : decodeAttributes t haveKeyLength b = .ok t') :
    ∃ (a : WireAttribute) (rest : List UInt8), b = a.encode ++ rest := by
  unfold decodeAttributes at h
  split at h
  · exact absurd rfl hne
  next a1 a0 v1 v0 attrs =>
    by_cases hshort : uint16 a1 a0 &&& 0x8000 ≠ 0
    · refine ⟨.tv (uint16 a1 a0) (uint16 v1 v0) hshort, attrs, ?_⟩
      rw [WireAttribute.encode, putUint16_uint16, putUint16_uint16]
      rfl
    · rw [if_neg hshort] at h
      dsimp only at h
      split_ifs at h with hlen
      have htake := List.length_take_of_le (not_lt.1 hlen)
      refine ⟨.tlv (uint16 a1 a0) (attrs.take (uint16 v1 v0).toNat) hshort (by rw [htake]; exact UInt16.toNat_lt _),
        attrs.drop (uint16 v1 v0).toNat, ?_⟩
      rw [WireAttribute.encode, htake, UInt16.ofNat_toNat, putUint16_uint16, putUint16_uint16]
      simp only [List.cons_append, List.nil_append, List.take_append_drop]
  next => cases h

/-- No attribute is written as nothing. -/
theorem attribute_ne_nil (a : WireAttribute) : a.encode ≠ [] := by
  cases a with
  | tv type value short =>
    obtain ⟨a1, a0, htype, -⟩ := exists_putUint16 type
    rw [WireAttribute.encode, htype]
    exact List.cons_ne_nil _ _
  | tlv type value long fits =>
    obtain ⟨a1, a0, htype, -⟩ := exists_putUint16 type
    rw [WireAttribute.encode, htype]
    exact List.cons_ne_nil _ _

/-- What is accepted is a list of attributes. -/
theorem decodeAttributes_ok_iff {t' : Transform} {haveKeyLength : Bool} :
    decodeAttributes t haveKeyLength b = .ok t' ↔
      ∃ attrs : List WireAttribute, b = attrs.flatMap WireAttribute.encode ∧
        t' = (attrs.foldl readAttribute (t, haveKeyLength)).1 := by
  constructor
  · intro h
    induction hk : b.length using Nat.strongRecOn generalizing b t haveKeyLength with
    | ind k ih =>
      by_cases hne : b = []
      · subst hne
        unfold decodeAttributes at h
        exact ⟨[], rfl, (Except.ok.inj h).symm⟩
      · obtain ⟨a, rest, rfl⟩ := exists_attribute hne h
        have hpos := List.length_pos_iff.2 (attribute_ne_nil a)
        rw [List.length_append] at hk
        rw [decodeAttributes_append] at h
        obtain ⟨attrs, rfl, rfl⟩ := ih rest.length (by omega) h rfl
        exact ⟨a :: attrs, rfl, rfl⟩
  · rintro ⟨attrs, rfl, rfl⟩
    induction attrs generalizing t haveKeyLength with
    | nil =>
      unfold decodeAttributes
      rfl
    | cons a attrs ih =>
      rw [List.flatMap_cons, decodeAttributes_append]
      exact ih

/-- Once a Key Length was read, any further attribute is unsupported. -/
theorem foldl_readAttribute_have (t : Transform) (attrs : List WireAttribute) :
    (attrs.foldl readAttribute (t, true)).1 =
      { t with unsupportedAttributes := t.unsupportedAttributes || !attrs.isEmpty } := by
  induction attrs generalizing t with
  | nil => simp
  | cons a attrs ih =>
    have hstep : readAttribute (t, true) a = ({ t with unsupportedAttributes := true }, true) := by
      cases a with
      | tv type value short => simp [readAttribute]
      | tlv type value long fits => rfl
    rw [List.foldl_cons, hstep, ih]
    simp

/-- What the attributes of a transform make of it. -/
theorem foldl_readAttribute (t : Transform) (hbits : t.keyLengthBits = 0) (attrs : List WireAttribute) :
    (attrs.foldl readAttribute (t, false)).1 =
      { t with keyLengthBits := (attrs.findSome? WireAttribute.keyLength?).getD 0,
               unsupportedAttributes := t.unsupportedAttributes || !supportedAttributes attrs } := by
  induction attrs generalizing t with
  | nil =>
    obtain ⟨type, id, bits, unsupported⟩ := t
    obtain rfl : bits = 0 := hbits
    simp [supportedAttributes]
  | cons a attrs ih =>
    rw [List.foldl_cons, List.findSome?_cons]
    cases hkey : a.keyLength? with
    | some bits =>
      have hstep : readAttribute (t, false) a =
          ({ t with keyLengthBits := bits, unsupportedAttributes := t.unsupportedAttributes || decide (bits = 0) }, true) := by
        cases a with
        | tv type value short =>
          rw [WireAttribute.keyLength?] at hkey
          split_ifs at hkey with htype
          cases hkey
          simp [readAttribute, htype]
        | tlv type value long fits => cases hkey
      rw [hstep, foldl_readAttribute_have]
      cases attrs with
      | nil => simp [supportedAttributes, hkey]
      | cons a' attrs => simp [supportedAttributes]
    | none =>
      have hstep : readAttribute (t, false) a = ({ t with unsupportedAttributes := true }, false) := by
        cases a with
        | tv type value short =>
          rw [WireAttribute.keyLength?] at hkey
          split_ifs at hkey with htype
          simp [readAttribute, htype]
        | tlv type value long fits => rfl
      rw [hstep, ih { t with unsupportedAttributes := true } hbits]
      cases attrs with
      | nil => simp [supportedAttributes, hkey]
      | cons a' attrs => simp [supportedAttributes]

/-! ### Transforms -/

/-- A transform is read, with what is behind it. -/
theorem decodeTransform_append (w : WireTransform) (last : Bool) (rest : List UInt8) :
    decodeTransform (w.encode last ++ rest) = .ok (w.transform, !last, rest) := by
  obtain ⟨r1, type, r2, id, attrs, fits⟩ := w
  obtain ⟨l1, l0, hlen, hval⟩ := exists_putUint16 (UInt16.ofNat (8 + (attrs.flatMap WireAttribute.encode).length))
  obtain ⟨i1, i0, hid, rfl⟩ := exists_putUint16 id
  have hread : decodeAttributes { type := type, id := uint16 i1 i0 } false (attrs.flatMap WireAttribute.encode) =
      .ok (WireTransform.transform ⟨r1, type, r2, uint16 i1 i0, attrs, fits⟩) := by
    refine decodeAttributes_ok_iff.2 ⟨attrs, rfl, ?_⟩
    rw [foldl_readAttribute _ rfl]
    simp [WireTransform.transform]
  rw [WireTransform.encode]
  dsimp only
  rw [hlen, hid]
  simp only [List.cons_append, List.nil_append]
  rw [decodeTransform, if_neg (by cases last <;> decide)]
  dsimp only
  rw [hval, toNat_ofNat fits, if_neg (by rw [List.length_append]; omega), Nat.add_sub_cancel_left, List.take_left, List.drop_left]
  refine bind_eq_ok_iff.2 ⟨_, hread, ?_⟩
  cases last <;> rfl

/-- What is accepted begins with a transform. -/
theorem exists_transform (h : decodeTransform b = .ok (t, more, next)) : ∃ w : WireTransform, b = w.encode (!more) ++ next := by
  unfold decodeTransform at h
  split at h
  next last r1 l1 l0 type r2 i1 i0 body =>
    dsimp only at h
    split_ifs at h with hlast hlen
    obtain ⟨t', hattrs, h⟩ := bind_eq_ok_iff.1 h
    cases h
    obtain ⟨attrs, hbytes, -⟩ := decodeAttributes_ok_iff.1 hattrs
    push Not at hlast hlen
    have hcard : (attrs.flatMap WireAttribute.encode).length = (uint16 l1 l0).toNat - 8 := by
      rw [← hbytes, List.length_take_of_le (by omega)]
    have htotal : 8 + (attrs.flatMap WireAttribute.encode).length = (uint16 l1 l0).toNat := by omega
    refine ⟨⟨r1, type, r2, uint16 i1 i0, attrs, ?_⟩, ?_⟩
    · rw [htotal]
      exact UInt16.toNat_lt _
    · rw [WireTransform.encode]
      dsimp only
      rw [htotal, UInt16.ofNat_toNat, putUint16_uint16, putUint16_uint16, flag_of_last hlast, ← hbytes]
      simp only [List.cons_append, List.nil_append, List.take_append_drop]
  next => cases h

/-- A transform is accepted exactly as it is written. -/
theorem decodeTransform_ok_iff :
    decodeTransform b = .ok (t, more, next) ↔ ∃ w : WireTransform, b = w.encode (!more) ++ next ∧ t = w.transform := by
  constructor
  · intro h
    obtain ⟨w, rfl⟩ := exists_transform h
    rw [decodeTransform_append] at h
    exact ⟨w, rfl, (Prod.mk.inj (Except.ok.inj h)).1.symm⟩
  · rintro ⟨w, rfl, rfl⟩
    rw [decodeTransform_append, Bool.not_not]

/-- So is a chain of them. -/
theorem decodeTransforms_ok_iff {n : Nat} {rest : List UInt8} {ts : List Transform} :
    decodeTransforms n b = .ok (ts, rest) ↔ ∃ ws : List WireTransform, ws.length = n ∧
      b = chain WireTransform.encode ws ++ rest ∧ ts = ws.map WireTransform.transform := by
  induction n generalizing b ts with
  | zero =>
    rw [decodeTransforms]
    constructor
    · intro h
      cases h
      exact ⟨[], rfl, rfl, rfl⟩
    · rintro ⟨ws, hlen, rfl, rfl⟩
      rw [List.length_eq_zero_iff.1 hlen]
      rfl
  | succ n ih =>
    rw [decodeTransforms, bind_eq_ok_iff]
    constructor
    · rintro ⟨⟨t, more, next⟩, ht, h⟩
      dsimp only at h
      split_ifs at h with hearly hextra
      obtain ⟨⟨ts', rest'⟩, hts, h⟩ := bind_eq_ok_iff.1 h
      cases h
      obtain ⟨w, rfl, rfl⟩ := decodeTransform_ok_iff.1 ht
      obtain ⟨ws, rfl, rfl, rfl⟩ := ih.1 hts
      refine ⟨w :: ws, rfl, ?_, rfl⟩
      -- the flag read is the one of the last transform
      have hflag : (!more) = ws.isEmpty := by
        cases ws with
        | nil => simpa using hextra
        | cons w' ws => simpa using hearly
      rw [chain, hflag, List.append_assoc]
    · rintro ⟨ws, hlen, rfl, rfl⟩
      cases ws with
      | nil => cases hlen
      | cons w ws =>
        obtain rfl : ws.length = n := by simpa using hlen
        refine ⟨(w.transform, !ws.isEmpty, chain WireTransform.encode ws ++ rest), ?_, ?_⟩
        · rw [chain, List.append_assoc]
          exact decodeTransform_append w ws.isEmpty _
        · dsimp only
          rw [if_neg (by cases ws <;> simp), if_neg (by cases ws <;> simp)]
          exact bind_eq_ok_iff.2 ⟨_, ih.2 ⟨ws, rfl, rfl, rfl⟩, rfl⟩

/-! ### Proposals -/

/-- A proposal is read, with what is behind it. -/
theorem decodeProposal_append (w : WireProposal) (last : Bool) (rest : List UInt8) :
    decodeProposal (w.encode last ++ rest) = .ok (w.proposal, !last, rest) := by
  obtain ⟨r, number, protocol, spi, ws, hspi, hcount, fits⟩ := w
  obtain ⟨l1, l0, hlen, hval⟩ := exists_putUint16 (UInt16.ofNat (8 + spi.length + (chain WireTransform.encode ws).length))
  have hspi' : (UInt8.ofNat spi.length).toNat = spi.length := UInt8.toNat_ofNat_of_lt' hspi
  have hcount' : (UInt8.ofNat ws.length).toNat = ws.length := UInt8.toNat_ofNat_of_lt' hcount
  have hread : decodeTransforms ws.length (chain WireTransform.encode ws) = .ok (ws.map WireTransform.transform, []) :=
    decodeTransforms_ok_iff.2 ⟨ws, rfl, (List.append_nil _).symm, rfl⟩
  have hbody : (spi ++ chain WireTransform.encode ws).length =
      8 + spi.length + (chain WireTransform.encode ws).length - 8 := by
    rw [List.length_append]
    omega
  rw [WireProposal.encode]
  dsimp only
  rw [hlen]
  simp only [List.cons_append, List.nil_append]
  rw [decodeProposal, if_neg (by cases last <;> decide)]
  dsimp only
  rw [hval, toNat_ofNat fits, if_neg (by simp only [List.length_append]; omega), List.take_left' hbody, List.drop_left' hbody,
    hspi', hcount', if_neg (by simp), List.drop_left, List.take_left]
  refine bind_eq_ok_iff.2 ⟨_, hread, ?_⟩
  cases last <;> rfl

/-- What is accepted begins with a proposal. -/
theorem exists_proposal {p : Proposal} (h : decodeProposal b = .ok (p, more, next)) :
    ∃ w : WireProposal, b = w.encode (!more) ++ next := by
  unfold decodeProposal at h
  split at h
  next last r l1 l0 number protocol spiSize numTrans body =>
    dsimp only at h
    split_ifs at h with hlast hlen hspi
    obtain ⟨⟨ts, trailing⟩, hts, h⟩ := bind_eq_ok_iff.1 h
    dsimp only at h
    split_ifs at h with htrailing
    cases h
    obtain ⟨ws, hcount, hbytes, -⟩ := decodeTransforms_ok_iff.1 hts
    obtain rfl := not_not.1 htrailing
    rw [List.append_nil] at hbytes
    push Not at hlast hlen
    have hrest : (body.take ((uint16 l1 l0).toNat - 8)).length = (uint16 l1 l0).toNat - 8 := List.length_take_of_le (by omega)
    have hspi' : ((body.take ((uint16 l1 l0).toNat - 8)).take spiSize.toNat).length = spiSize.toNat :=
      List.length_take_of_le (not_lt.1 hspi)
    have htotal : 8 + ((body.take ((uint16 l1 l0).toNat - 8)).take spiSize.toNat).length +
        (chain WireTransform.encode ws).length = (uint16 l1 l0).toNat := by
      rw [hspi', ← hbytes, List.length_drop, hrest]
      omega
    refine ⟨⟨r, number, protocol, (body.take ((uint16 l1 l0).toNat - 8)).take spiSize.toNat, ws, ?_, ?_, ?_⟩, ?_⟩
    · rw [hspi']
      exact spiSize.toNat_lt
    · rw [hcount]
      exact numTrans.toNat_lt
    · rw [htotal]
      exact UInt16.toNat_lt _
    · rw [WireProposal.encode]
      dsimp only
      rw [htotal, UInt16.ofNat_toNat, putUint16_uint16, flag_of_last hlast, hspi', hcount, UInt8.ofNat_toNat, UInt8.ofNat_toNat, ← hbytes]
      simp only [List.cons_append, List.nil_append, List.take_append_drop]
  next => cases h

/-- No proposal is written as nothing. -/
theorem proposal_ne_nil (w : WireProposal) (last : Bool) : w.encode last ≠ [] := List.cons_ne_nil _ _

/-- Only no proposal is written as nothing. -/
theorem chain_eq_nil_iff {ws : List WireProposal} : chain WireProposal.encode ws = [] ↔ ws = [] := by
  cases ws with
  | nil => exact ⟨fun _ => rfl, fun _ => rfl⟩
  | cons w ws =>
    rw [chain, List.append_eq_nil_iff]
    exact ⟨fun h => absurd h.1 (proposal_ne_nil w _), fun h => by cases h⟩

/-- One round of the loop. -/
theorem decodeSA_append (w : WireProposal) (last : Bool) (next : List UInt8) (props : List Proposal) :
    decodeSA (w.encode last ++ next) = .ok props ↔
      (last = true ↔ next = []) ∧ ∃ ps, decodeSA next = .ok ps ∧ props = w.proposal :: ps := by
  rw [decodeSA, if_neg fun h => proposal_ne_nil w last (List.append_eq_nil_iff.1 h).1]
  split
  next e h =>
    rw [decodeProposal_append] at h
    cases h
  next p more next' h =>
    rw [decodeProposal_append] at h
    cases h
    constructor
    · intro h
      dsimp only at h
      split_ifs at h with htrailing hmore
      obtain ⟨ps, hps, h⟩ := bind_eq_ok_iff.1 h
      cases h
      refine ⟨?_, ps, hps, rfl⟩
      cases last with
      | false => simpa using hmore
      | true => simpa using htrailing
    · rintro ⟨hlast, ps, hps, rfl⟩
      dsimp only
      rw [if_neg (by cases last <;> simp_all), if_neg (by cases last <;> simp_all)]
      exact bind_eq_ok_iff.2 ⟨ps, hps, rfl⟩

/-- An SA payload that is accepted begins with a proposal. -/
theorem exists_proposal_of_decodeSA {props : List Proposal} (hne : b ≠ []) (h : decodeSA b = .ok props) :
    ∃ (w : WireProposal) (last : Bool) (next : List UInt8), b = w.encode last ++ next := by
  rw [decodeSA, if_neg hne] at h
  split at h
  · cases h
  next p more next hp =>
    obtain ⟨w, rfl⟩ := exists_proposal hp
    exact ⟨w, !more, next, rfl⟩

/-- The bodies accepted are the chains of proposals on the wire. -/
theorem decodeSA_ok_iff {props : List Proposal} : decodeSA b = .ok props ↔
    ∃ ws : List WireProposal, b = chain WireProposal.encode ws ∧ props = ws.map WireProposal.proposal := by
  constructor
  · intro h
    induction hk : b.length using Nat.strongRecOn generalizing b props with
    | ind k ih =>
      by_cases hne : b = []
      · subst hne
        rw [decodeSA, if_pos rfl] at h
        cases h
        exact ⟨[], rfl, rfl⟩
      · obtain ⟨w, last, next, rfl⟩ := exists_proposal_of_decodeSA hne h
        have hpos := List.length_pos_iff.2 (proposal_ne_nil w last)
        rw [List.length_append] at hk
        obtain ⟨hlast, ps, hps, rfl⟩ := (decodeSA_append w last next props).1 h
        obtain ⟨ws, rfl, rfl⟩ := ih next.length (by omega) hps rfl
        refine ⟨w :: ws, ?_, rfl⟩
        have hflag : last = ws.isEmpty := by
          rw [Bool.eq_iff_iff, hlast, chain_eq_nil_iff, List.isEmpty_iff]
        rw [chain, hflag]
  · rintro ⟨ws, rfl, rfl⟩
    induction ws with
    | nil => rw [chain, decodeSA, if_pos rfl]; rfl
    | cons w ws ih =>
      rw [chain, decodeSA_append]
      exact ⟨by rw [chain_eq_nil_iff, List.isEmpty_iff], _, ih, rfl⟩

/-! ### What the encoder writes -/

/-- A transform with supported attributes on the wire. -/
theorem exists_wireTransform (t : Transform) (h : t.unsupportedAttributes = false) :
    ∃ w : WireTransform, w.transform = t ∧ (∀ last, w.encode last = t.encode last) ∧ ∀ last, (t.encode last).length ≤ 12 := by
  obtain ⟨type, id, bits, unsupported⟩ := t
  obtain rfl : unsupported = false := h
  by_cases hbits : bits = 0
  · subst hbits
    refine ⟨⟨0, type, 0, id, [], by decide⟩, rfl, fun last => rfl, fun last => ?_⟩
    simp [Transform.encode, Transform.attrs, putUint16]
  · refine ⟨⟨0, type, 0, id, [.tv (0x8000 ||| attrKeyLength) bits (by decide)], ?_⟩, ?_, fun last => ?_, fun last => ?_⟩
    · simp [WireAttribute.encode, putUint16]
    · have hkey : (0x8000 ||| attrKeyLength) &&& 0x7fff = attrKeyLength := by decide
      simp [WireTransform.transform, supportedAttributes, WireAttribute.keyLength?, hkey, hbits]
    · simp [WireTransform.encode, Transform.encode, Transform.attrs, hbits, WireAttribute.encode]
    · simp [Transform.encode, Transform.attrs, hbits, putUint16]

/-- The encoder's transforms, as they are on the wire. -/
theorem exists_wireTransforms (ts : List Transform) (h : ∀ t ∈ ts, t.unsupportedAttributes = false) :
    ∃ ws : List WireTransform, ws.map WireTransform.transform = ts ∧
      chain WireTransform.encode ws = chain Transform.encode ts ∧ (chain Transform.encode ts).length ≤ 12 * ts.length := by
  induction ts with
  | nil => exact ⟨[], rfl, rfl, le_rfl⟩
  | cons t ts ih =>
    obtain ⟨w, rfl, hw, hlen⟩ := exists_wireTransform t (h t List.mem_cons_self)
    obtain ⟨ws, rfl, hws, hlens⟩ := ih fun t ht => h t (List.mem_cons_of_mem _ ht)
    refine ⟨w :: ws, rfl, ?_, ?_⟩
    · rw [chain, chain, hw, hws, List.isEmpty_map]
    · have := hlen (ws.map WireTransform.transform).isEmpty
      rw [chain, List.length_append, List.length_cons]
      omega

/-- The encoder's proposal, as it is on the wire. -/
theorem exists_wireProposal (p : Proposal) (hspi : p.spi.length ≤ 255) (hcount : p.transforms.length ≤ 255)
    (h : ∀ t ∈ p.transforms, t.unsupportedAttributes = false) :
    ∃ w : WireProposal, w.proposal = p ∧ ∀ last, w.encode last = p.encode last := by
  obtain ⟨number, protocol, spi, ts⟩ := p
  dsimp only at hspi hcount h
  obtain ⟨ws, rfl, hws, hlen⟩ := exists_wireTransforms ts h
  rw [List.length_map] at hcount hlen
  refine ⟨⟨0, number, protocol, spi, ws, by omega, by omega, by rw [hws]; omega⟩, rfl, fun last => ?_⟩
  rw [WireProposal.encode, Proposal.encode]
  dsimp only
  rw [hws, List.length_map]

/-- The encoder's payload, as it is on the wire. -/
theorem exists_wireSA (props : List Proposal) (h : ∀ p ∈ props, p.spi.length ≤ 255 ∧ p.transforms.length ≤ 255 ∧
    ∀ t ∈ p.transforms, t.unsupportedAttributes = false) :
    ∃ ws : List WireProposal, ws.map WireProposal.proposal = props ∧ chain WireProposal.encode ws = encodeSA props := by
  induction props with
  | nil => exact ⟨[], rfl, rfl⟩
  | cons p props ih =>
    obtain ⟨hspi, hcount, hattrs⟩ := h p List.mem_cons_self
    obtain ⟨w, rfl, hw⟩ := exists_wireProposal p hspi hcount hattrs
    obtain ⟨ws, rfl, hws⟩ := ih fun p hp => h p (List.mem_cons_of_mem _ hp)
    refine ⟨w :: ws, rfl, ?_⟩
    rw [encodeSA, chain, chain, hw, hws, encodeSA, List.isEmpty_map]

end SaAux

open SaAux

/-- Proposals with short SPIs, not too many transforms and supported attributes decode to themselves; and a body is accepted
exactly when it is a chain of proposals on the wire, with what stands in them returned. -/
theorem sa_codec :
    (∀ props : List Proposal, (∀ p ∈ props, p.spi.length ≤ 255 ∧ p.transforms.length ≤ 255 ∧
      ∀ t ∈ p.transforms, t.unsupportedAttributes = false) → decodeSA (encodeSA props) = .ok props) ∧
    (∀ (body : List UInt8) (props : List Proposal), decodeSA body = .ok props ↔
      ∃ ws : List WireProposal, body = chain WireProposal.encode ws ∧ props = ws.map WireProposal.proposal) := by
  refine ⟨fun props h => ?_, fun body props => decodeSA_ok_iff⟩
  obtain ⟨ws, hprops, hbytes⟩ := exists_wireSA props h
  exact decodeSA_ok_iff.2 ⟨ws, hbytes.symm, hprops.symm⟩

/-- The ESP proposal an initiator offers. -/
def offeredProposal : Proposal := ⟨1, protoESP, [1, 2, 3, 4], [⟨transEncr, 20, 256, false⟩, ⟨transESN, 0, 0, false⟩]⟩

theorem sa_codec_esp : decodeSA (encodeSA [offeredProposal]) = .ok [offeredProposal] :=
  sa_codec.1 [offeredProposal] (by decide)

end RanetLite.Ike
