import RanetLite.Ike.Der

/-!
# One name, one encoding up to order and string type

`derElement` undoes `derTLV` and accepts nothing else, so an accepted identity is what the encoder writes for three attributes in
some order with some string types.
-/

namespace RanetLite.Ike

open Octets

/-- The string types an attribute may have. -/
inductive StringType where
  | utf8
  | printable
deriving DecidableEq, Repr

def StringType.tag : StringType → UInt8
  | utf8 => 0x0c
  | printable => 0x13

/-- The RDN of one attribute: a set of one sequence of its type and its value. -/
def rdn (a : Attribute) (t : StringType) (value : List UInt8) : List UInt8 := derSet [derSequence [a.oid, derTLV t.tag value]]

/-- What is free in the encoding of an identity: the order of the attributes, each of them once, and the type of each string. -/
structure Spelling where
  order : List Attribute
  once : order.Perm [.organizationName, .commonName, .serialNumber]
  type : Attribute → StringType

/-- The RDNs of an identity in one spelling. -/
def Spelling.content (sp : Spelling) (id : IdentityDN) : List UInt8 := sp.order.flatMap fun a => rdn a (sp.type a) (id.get a)

def Spelling.encode (sp : Spelling) (id : IdentityDN) : List UInt8 := derTLV 0x30 (sp.content id)

/-- The spelling `EncodeIdentityDN` writes. -/
def ranetSpelling : Spelling where
  order := [.organizationName, .commonName, .serialNumber]
  once := List.Perm.refl _
  type
    | .organizationName => .utf8
    | .commonName => .utf8
    | .serialNumber => .printable

namespace DerAux

variable {n : Nat} {b : List UInt8} {id : IdentityDN}

/-! ### Lengths -/

/-- The octets of a length are written in front. -/
theorem lengthOctets_eq (n : Nat) (b : List UInt8) : lengthOctets n b = octets n ++ b := by
  induction n using Nat.strongRecOn generalizing b with
  | ind n ih =>
    rw [lengthOctets]
    split_ifs with h
    · rw [h, octets_zero, List.nil_append]
    · have hshift : n >>> 8 = n / 256 := Nat.shiftRight_eq_div_pow n 8
      have hmask : UInt8.ofNat (n &&& 0xff) = UInt8.ofNat n := by
        rw [show (0xff : Nat) = 2 ^ 8 - 1 from rfl, Nat.and_two_pow_sub_one_eq_mod]
        exact UInt8.toNat.inj (by simp)
      rw [hshift, hmask, ih (n / 256) (by omega), octets_of_ne_zero h, List.append_assoc, List.singleton_append]

/-- A length below 128 is one octet. -/
theorem derLen_short (h : n < 128) : derLen n = [UInt8.ofNat n] := if_pos h

/-- A longer one is its octets behind their number. -/
theorem derLen_long (h : 128 ≤ n) : derLen n = (0x80 ||| UInt8.ofNat (octets n).length) :: octets n := by
  unfold derLen
  rw [if_neg (by omega), lengthOctets_eq, List.append_nil]

/-- Shifting octets in reads their value. -/
theorem foldl_shift (bs : List UInt8) : bs.foldl (fun value octet => value <<< 8 ||| octet.toNat) 0 = value bs := by
  rw [value_eq_foldl]
  congr 1
  funext acc b
  rw [← Nat.shiftLeft_add_eq_or_of_lt (by exact b.toNat_lt), Nat.shiftLeft_eq]

/-- A first octet with the high bit set is the long form of the count in its low bits. -/
theorem first_long (b : UInt8) (h : b &&& 0x80 ≠ 0) : 0x80 ||| UInt8.ofNat (b &&& 0x7f).toNat = b := by
  obtain ⟨⟨i⟩⟩ := b
  revert i
  decide +kernel

/-- A first octet without its top bit is a short length. -/
theorem first_short (b : UInt8) (h : ¬b &&& 0x80 ≠ 0) : b.toNat < 128 := by
  obtain ⟨⟨i⟩⟩ := b
  revert i
  decide +kernel

/-- A short length has no top bit. -/
theorem short_first (n : Nat) (h : n < 128) : ¬UInt8.ofNat n &&& 0x80 ≠ 0 := by
  revert n
  decide

/-- The number of octets behind the top bit. -/
theorem long_first (k : Nat) (h : k < 5) :
    (0x80 ||| UInt8.ofNat k) &&& 0x80 ≠ 0 ∧ ((0x80 ||| UInt8.ofNat k) &&& 0x7f).toNat = k := by
  revert k
  decide

/-! ### One element -/

/-- The content is cut off exactly where it ends. -/
theorem splitContent_ok_iff {tag : UInt8} {e : Element} :
    splitContent tag n b = .ok e ↔ e.tag = tag ∧ e.content.length = n ∧ b = e.content ++ e.rest := by
  unfold splitContent
  constructor
  · intro h
    split_ifs at h with hlen
    obtain rfl := Except.ok.inj h
    exact ⟨rfl, List.length_take_of_le (by omega), (List.take_append_drop n b).symm⟩
  · obtain ⟨tag', content, rest⟩ := e
    rintro ⟨rfl, rfl, rfl⟩
    rw [if_neg (by simp), List.take_left, List.drop_left]

/-- `derElement` accepts what the encoder writes, with anything behind it, and nothing else. -/
theorem derElement_ok_iff {e : Element} :
    derElement b = .ok e ↔ e.content.length < 2 ^ 32 ∧ b = derTLV e.tag e.content ++ e.rest := by
  constructor
  · intro h
    unfold derElement at h
    split at h
    next tag first b =>
      dsimp only at h
      rw [foldl_shift] at h
      split_ifs at h with hlong hcount hzero hsmall
      · -- the long form: its octets are the ones of their number, which fits four of them
        obtain ⟨htag, hlen, hb⟩ := splitContent_ok_iff.1 h
        push Not at hcount
        have hhead : (b.take (first &&& 0x7f).toNat).head? ≠ some 0 := by
          rw [List.head?_take, if_neg hcount.1]
          exact hzero
        have hoctets : octets e.content.length = b.take (first &&& 0x7f).toNat := by rw [hlen, octets_value hhead]
        have hcard : (octets e.content.length).length = (first &&& 0x7f).toNat := by
          rw [hoctets, List.length_take_of_le hcount.2.2]
        refine ⟨?_, ?_⟩
        · have hlt := length_octets_le_iff.1 (hcard.le.trans hcount.2.1)
          norm_num at hlt ⊢
          exact hlt
        · rw [derTLV, derLen_long (by omega), hcard, first_long first hlong, hoctets, htag]
          simp only [List.cons_append, List.append_assoc, ← hb, List.take_append_drop]
      · obtain ⟨htag, hlen, hb⟩ := splitContent_ok_iff.1 h
        have hshort := first_short first hlong
        refine ⟨by omega, ?_⟩
        rw [derTLV, derLen_short (by omega), hlen, UInt8.ofNat_toNat, htag, hb]
        rfl
    next => cases h
  · obtain ⟨tag, content, rest⟩ := e
    rintro ⟨hlt, rfl⟩
    dsimp only at hlt ⊢
    by_cases hshort : content.length < 128
    · rw [derTLV, derLen_short hshort]
      show (if _ then _ else _) = _
      rw [if_neg (short_first _ hshort)]
      refine splitContent_ok_iff.2 ⟨rfl, ?_, rfl⟩
      exact (UInt8.toNat_ofNat_of_lt' (lt_trans hshort (by decide))).symm
    · have hcard : (octets content.length).length ≤ 4 := length_octets_le_iff.2 (by norm_num at hlt ⊢; exact hlt)
      have hne : octets content.length ≠ [] := by
        intro hnil
        have hzero := value_octets content.length
        rw [hnil] at hzero
        change 0 = content.length at hzero
        omega
      have hpos : (octets content.length).length ≠ 0 := fun h => hne (List.length_eq_zero_iff.1 h)
      obtain ⟨hhigh, hlow⟩ := long_first _ (by omega : (octets content.length).length < 5)
      rw [derTLV, derLen_long (by omega), List.cons_append, List.cons_append, List.cons_append, List.append_assoc]
      show (if _ then _ else _) = _
      rw [if_pos hhigh]
      dsimp only
      rw [hlow, foldl_shift, List.take_left, List.drop_left, value_octets]
      have hhead : (octets content.length ++ (content ++ rest)).head? ≠ some 0 := by
        rw [List.head?_append_of_ne_nil _ hne]
        exact head?_octets _
      rw [if_neg (by simp only [List.length_append]; omega), if_neg hhead, if_neg hshort, if_neg (by simp)]
      exact splitContent_ok_iff.2 ⟨rfl, rfl, rfl⟩

/-- The length of an element. -/
theorem length_derTLV (tag : UInt8) (content : List UInt8) :
    (derTLV tag content).length = 1 + (derLen content.length).length + content.length := by
  rw [derTLV, List.length_cons, List.length_append]
  omega

/-- An element is no shorter than its content. -/
theorem length_le_derTLV (tag : UInt8) (content : List UInt8) : content.length ≤ (derTLV tag content).length := by
  rw [length_derTLV]
  omega

/-- A greater length is not written in fewer octets. -/
theorem derLen_mono {m : Nat} (h : n ≤ m) : (derLen n).length ≤ (derLen m).length := by
  by_cases hm : m < 128
  · rw [derLen_short hm, derLen_short (by omega)]
    exact le_rfl
  · rw [derLen_long (by omega : 128 ≤ m), List.length_cons]
    by_cases hn : n < 128
    · rw [derLen_short hn, List.length_singleton]
      omega
    · rw [derLen_long (by omega : 128 ≤ n), List.length_cons]
      exact Nat.add_le_add_right (length_octets_mono h) 1

/-- Two elements with equal encodings have contents of one length. -/
theorem length_content_of_eq {tag tag' : UInt8} {content content' : List UInt8} (h : derTLV tag content = derTLV tag' content') :
    content.length = content'.length := by
  have hlen := congrArg List.length h
  rw [length_derTLV, length_derTLV] at hlen
  rcases Nat.lt_trichotomy content.length content'.length with hlt | heq | hlt
  · have := derLen_mono hlt.le
    omega
  · exact heq
  · have := derLen_mono hlt.le
    omega

/-! ### One attribute -/

/-- An encoded element reads back, with what is behind it. -/
theorem derElement_derTLV {tag : UInt8} {content : List UInt8} (h : content.length < 2 ^ 32) (rest : List UInt8) :
    derElement (derTLV tag content ++ rest) = .ok ⟨tag, content, rest⟩ :=
  derElement_ok_iff.2 ⟨h, rfl⟩

/-- An encoded element alone reads back. -/
theorem derElement_single {tag : UInt8} {content : List UInt8} (h : content.length < 2 ^ 32) :
    derElement (derTLV tag content) = .ok ⟨tag, content, []⟩ := by
  rw [← List.append_nil (derTLV tag content)]
  exact derElement_derTLV h []

/-- The raw bytes of an element are its encoding. -/
theorem derElementRaw_ok_iff {oid content rest : List UInt8} : derElementRaw b = .ok (oid, content, rest) ↔
    ∃ tag, content.length < 2 ^ 32 ∧ oid = derTLV tag content ∧ b = oid ++ rest := by
  unfold derElementRaw
  rw [bind_eq_ok_iff]
  constructor
  · rintro ⟨⟨tag, content', rest'⟩, he, hout⟩
    obtain ⟨hlt, rfl⟩ := derElement_ok_iff.1 he
    cases hout
    refine ⟨tag, hlt, ?_⟩
    dsimp only
    rw [List.length_append, Nat.add_sub_cancel, List.take_left]
    exact ⟨rfl, rfl⟩
  · rintro ⟨tag, hlt, rfl, rfl⟩
    refine ⟨⟨tag, content, rest⟩, derElement_derTLV hlt rest, ?_⟩
    dsimp only
    rw [List.length_append, Nat.add_sub_cancel, List.take_left]

/-- The two tags that are accepted are those of the string types. -/
theorem stringTag_iff {tag : UInt8} : (tag = 0x0c ∨ tag = 0x13) ↔ ∃ t : StringType, tag = t.tag := by
  constructor
  · rintro (rfl | rfl)
    · exact ⟨.utf8, rfl⟩
    · exact ⟨.printable, rfl⟩
  · rintro ⟨t, rfl⟩
    cases t with
    | utf8 => exact .inl rfl
    | printable => exact .inr rfl

/-- A set of one sequence of two elements, as `derAttribute` takes it apart. -/
def single (oid value : List UInt8) : List UInt8 := derSet [derSequence [oid, value]]

/-- A set of one attribute, as elements. -/
theorem single_eq (oid value : List UInt8) : single oid value = derTLV 0x31 (derTLV 0x30 (oid ++ value)) := by
  simp [single, derSet, derSequence]

/-- The relative name the encoder writes is a set of one attribute. -/
theorem rdn_eq (a : Attribute) (t : StringType) (value : List UInt8) : rdn a t value = single a.oid (derTLV t.tag value) := rfl

/-- What reads as an attribute is a set of that one attribute. -/
theorem derAttribute_eq {oid value : List UInt8} (h : derAttribute b = .ok (oid, value)) :
    ∃ t : StringType, b = single oid (derTLV t.tag value) := by
  unfold derAttribute at h
  obtain ⟨⟨setTag, set, setRest⟩, hset, h⟩ := bind_eq_ok_iff.1 h
  dsimp only at h
  split_ifs at h with hset'
  push Not at hset'
  obtain ⟨⟨seqTag, seq, seqRest⟩, hseq, h⟩ := bind_eq_ok_iff.1 h
  dsimp only at h
  split_ifs at h with hseq'
  push Not at hseq'
  obtain ⟨⟨oid', oidContent, seq'⟩, hoid, h⟩ := bind_eq_ok_iff.1 h
  obtain ⟨⟨valueTag, content, valueRest⟩, hvalue, h⟩ := bind_eq_ok_iff.1 h
  dsimp only at h
  split_ifs at h with hrest htag
  obtain ⟨rfl, rfl⟩ := Prod.mk.inj (Except.ok.inj h)
  obtain ⟨t, rfl⟩ := stringTag_iff.1 htag
  obtain ⟨-, rfl⟩ := derElement_ok_iff.1 hset
  obtain ⟨-, rfl⟩ := derElement_ok_iff.1 hseq
  obtain ⟨-, -, -, rfl⟩ := derElementRaw_ok_iff.1 hoid
  obtain ⟨-, rfl⟩ := derElement_ok_iff.1 hvalue
  refine ⟨t, ?_⟩
  obtain ⟨rfl, rfl⟩ := hset'
  obtain ⟨rfl, rfl⟩ := hseq'
  obtain rfl := not_not.1 hrest
  simp only [single_eq, List.append_nil]

/-- A set of one attribute reads back. -/
theorem derAttribute_single {tag : UInt8} {content value : List UInt8} {t : StringType}
    (h : (single (derTLV tag content) (derTLV t.tag value)).length < 2 ^ 32) :
    derAttribute (single (derTLV tag content) (derTLV t.tag value)) = .ok (derTLV tag content, value) := by
  rw [single_eq] at h ⊢
  have hset := lt_of_le_of_lt (length_le_derTLV _ _) h
  have hseq := lt_of_le_of_lt (length_le_derTLV _ _) hset
  have hparts := hseq
  rw [List.length_append] at hparts
  have hoid : content.length < 2 ^ 32 := by
    have := length_le_derTLV tag content
    omega
  have hvalue : value.length < 2 ^ 32 := by
    have := length_le_derTLV t.tag value
    omega
  unfold derAttribute
  refine bind_eq_ok_iff.2 ⟨_, derElement_single hset, ?_⟩
  rw [if_neg (by simp)]
  refine bind_eq_ok_iff.2 ⟨_, derElement_single hseq, ?_⟩
  rw [if_neg (by simp)]
  refine bind_eq_ok_iff.2 ⟨_, derElementRaw_ok_iff.2 ⟨tag, hoid, rfl, rfl⟩, ?_⟩
  refine bind_eq_ok_iff.2 ⟨_, derElement_single hvalue, ?_⟩
  rw [if_neg (by simp), if_pos (stringTag_iff.2 ⟨t, rfl⟩)]

/-! ### The targets -/

/-- The targets when some attributes were seen. -/
def targetsWith (seen : Attribute → Bool) : List Target := identityTargets.map fun t => { t with seen := seen t.value }

/-- A known attribute is stored once, and refused when it is repeated. -/
theorem matchTargets_oid (a : Attribute) (value : List UInt8) (seen : Attribute → Bool) (id : IdentityDN) :
    matchTargets a.oid value (targetsWith seen) id =
      if seen a then .error .repeated else .ok (true, targetsWith (Function.update seen a true), id.set a value) := by
  cases a <;> (split_ifs with h <;> simp [targetsWith, identityTargets, matchTargets, Attribute.oid, oidOrganizationName,
    oidCommonName, oidSerialNumber, h, Function.update, bind, Except.bind])

/-- An unknown attribute is not stored. -/
theorem matchTargets_other {oid : List UInt8} (h : ∀ a : Attribute, oid ≠ a.oid) (value : List UInt8) (seen : Attribute → Bool)
    (id : IdentityDN) : matchTargets oid value (targetsWith seen) id = .ok (false, targetsWith seen, id) := by
  have hO := h .organizationName
  have hCN := h .commonName
  have hS := h .serialNumber
  simp only [Attribute.oid] at hO hCN hS
  simp [targetsWith, identityTargets, matchTargets, hO, hCN, hS, bind, Except.bind]

/-- An object identifier is an element. -/
theorem oid_eq_derTLV (a : Attribute) : ∃ content, a.oid = derTLV 0x06 content := by
  cases a with
  | organizationName => exact ⟨[0x55, 0x04, 0x0a], rfl⟩
  | commonName => exact ⟨[0x55, 0x04, 0x03], rfl⟩
  | serialNumber => exact ⟨[0x55, 0x04, 0x05], rfl⟩

/-! ### The attributes of a name -/

/-- One attribute of a name on the wire. -/
structure Item where
  attr : Attribute
  type : StringType
  value : List UInt8

def Item.encode (i : Item) : List UInt8 := rdn i.attr i.type i.value

/-- An identity once some attributes were read. -/
def readInto (id : IdentityDN) (items : List Item) : IdentityDN := items.foldl (fun id i => id.set i.attr i.value) id

/-- An encoded item reads back. -/
theorem derAttribute_item {i : Item} (h : i.encode.length < 2 ^ 32) : derAttribute i.encode = .ok (i.attr.oid, i.value) := by
  obtain ⟨content, hoid⟩ := oid_eq_derTLV i.attr
  rw [Item.encode, rdn_eq, hoid] at h ⊢
  exact derAttribute_single h

/-- One round of the loop. -/
theorem readAttributes_step {seq : List UInt8} (hne : seq ≠ []) (hlen : seq.length < 2 ^ 32) {seen : Attribute → Bool} {count : Nat}
    {r : IdentityDN × Nat} : readAttributes seq (targetsWith seen) id count = .ok r ↔
      ∃ i : Item, ∃ rest, seq = i.encode ++ rest ∧ seen i.attr = false ∧
        readAttributes rest (targetsWith (Function.update seen i.attr true)) (id.set i.attr i.value) (count + 1) = .ok r := by
  rw [readAttributes, if_neg hne]
  constructor
  · intro h
    split at h
    · cases h
    next e he =>
      obtain ⟨-, hseq⟩ := derElement_ok_iff.1 he
      have htake : seq.take (seq.length - e.rest.length) = derTLV e.tag e.content := by
        rw [hseq, List.length_append, Nat.add_sub_cancel, List.take_left]
      rw [htake] at h
      obtain ⟨⟨oid, value⟩, hattr, h⟩ := bind_eq_ok_iff.1 h
      obtain ⟨t, hsingle⟩ := derAttribute_eq hattr
      obtain ⟨⟨matched, targets, id'⟩, hmatch, h⟩ := bind_eq_ok_iff.1 h
      dsimp only at hmatch h
      by_cases hknown : ∃ a : Attribute, oid = a.oid
      · obtain ⟨a, rfl⟩ := hknown
        rw [matchTargets_oid] at hmatch
        split_ifs at hmatch with hseen
        cases hmatch
        refine ⟨⟨a, t, value⟩, e.rest, ?_, by simpa using hseen, h⟩
        rw [hseq, hsingle]
        rfl
      · push Not at hknown
        rw [matchTargets_other hknown] at hmatch
        cases hmatch
        cases h
  · rintro ⟨i, rest, rfl, hseen, h⟩
    have hitem : i.encode.length < 2 ^ 32 := by
      rw [List.length_append] at hlen
      omega
    have he : derElement (i.encode ++ rest) = .ok ⟨0x31, derTLV 0x30 (i.attr.oid ++ derTLV i.type.tag i.value), rest⟩ := by
      rw [Item.encode, rdn_eq, single_eq] at hitem ⊢
      exact derElement_derTLV (lt_of_le_of_lt (length_le_derTLV _ _) hitem) rest
    split
    next e he' =>
      rw [he] at he'
      cases he'
    next e he' =>
      rw [he] at he'
      cases he'
      dsimp only
      rw [List.length_append, Nat.add_sub_cancel, List.take_left]
      refine bind_eq_ok_iff.2 ⟨_, derAttribute_item hitem, ?_⟩
      refine bind_eq_ok_iff.2 ⟨(true, targetsWith (Function.update seen i.attr true), id.set i.attr i.value), ?_, h⟩
      dsimp only
      rw [matchTargets_oid, hseen]
      rfl

/-- No item is written as nothing. -/
theorem encode_ne_nil (i : Item) : i.encode ≠ [] := by
  rw [Item.encode, rdn_eq, single_eq]
  exact List.cons_ne_nil _ _

/-- The loop reads the encodings of attributes it has not seen, each at most once, and nothing else. -/
theorem readAttributes_ok_iff {seq : List UInt8} (hlen : seq.length < 2 ^ 32) (seen : Attribute → Bool) {id' : IdentityDN}
    {count : Nat} : readAttributes seq (targetsWith seen) id count = .ok (id', n) ↔
      ∃ items : List Item, (items.map Item.attr).Nodup ∧ (∀ i ∈ items, seen i.attr = false) ∧
        seq = items.flatMap Item.encode ∧ id' = readInto id items ∧ n = count + items.length := by
  induction hk : seq.length using Nat.strongRecOn generalizing seq seen id count with
  | ind k ih =>
    by_cases hne : seq = []
    · subst hne
      rw [readAttributes, if_pos rfl]
      constructor
      · intro h
        cases h
        exact ⟨[], List.nodup_nil, fun i hi => (List.not_mem_nil hi).elim, rfl, rfl, rfl⟩
      · rintro ⟨items, -, -, hnil, rfl, rfl⟩
        cases items with
        | nil => rfl
        | cons i items => exact absurd (List.append_eq_nil_iff.1 hnil.symm).1 (encode_ne_nil i)
    · rw [readAttributes_step hne hlen]
      constructor
      · rintro ⟨i, rest, rfl, hseen, h⟩
        have hpos := List.length_pos_iff.2 (encode_ne_nil i)
        rw [List.length_append] at hlen hk
        obtain ⟨items, hnodup, hfresh, rfl, rfl, rfl⟩ := (ih rest.length (by omega) (by omega) _ rfl).1 h
        refine ⟨i :: items, ?_, ?_, rfl, rfl, ?_⟩
        · rw [List.map_cons, List.nodup_cons]
          refine ⟨fun hmem => ?_, hnodup⟩
          obtain ⟨j, hj, heq⟩ := List.mem_map.1 hmem
          have := hfresh j hj
          rw [heq, Function.update_self] at this
          cases this
        · intro j hj
          rcases List.mem_cons.1 hj with rfl | hj
          · exact hseen
          · have := hfresh j hj
            rwa [Function.update_of_ne] at this
            rintro heq
            rw [heq, Function.update_self] at this
            cases this
        · rw [List.length_cons]
          omega
      · rintro ⟨items, hnodup, hfresh, rfl, rfl, rfl⟩
        cases items with
        | nil => exact absurd rfl hne
        | cons i items =>
          have hpos := List.length_pos_iff.2 (encode_ne_nil i)
          rw [List.flatMap_cons, List.length_append] at hlen hk
          rw [List.map_cons, List.nodup_cons] at hnodup
          refine ⟨i, items.flatMap Item.encode, rfl, hfresh i List.mem_cons_self, ?_⟩
          refine (ih _ (by omega) (by omega) _ rfl).2 ⟨items, hnodup.2, fun j hj => ?_, rfl, rfl, ?_⟩
          · rw [Function.update_of_ne]
            · exact hfresh j (List.mem_cons_of_mem _ hj)
            · rintro heq
              exact hnodup.1 (List.mem_map.2 ⟨j, hj, heq⟩)
          · rw [List.length_cons]
            omega

/-! ### The whole name -/

/-- The part that is set. -/
theorem get_set_self (id : IdentityDN) (a : Attribute) (value : List UInt8) : (id.set a value).get a = value := by
  cases a <;> rfl

/-- The parts that are not. -/
theorem get_set_of_ne (id : IdentityDN) {a a' : Attribute} (h : a' ≠ a) (value : List UInt8) :
    (id.set a value).get a' = id.get a' := by
  cases a <;> cases a' <;> first | rfl | exact absurd rfl h

/-- An identity is its three parts. -/
theorem identity_ext {id' : IdentityDN} (h : ∀ a, id.get a = id'.get a) : id = id' := by
  obtain ⟨o, c, s⟩ := id
  obtain ⟨o', c', s'⟩ := id'
  obtain rfl : o = o' := h .organizationName
  obtain rfl : c = c' := h .commonName
  obtain rfl : s = s' := h .serialNumber
  rfl

/-- A part that no item names is as it was. -/
theorem get_readInto_of_not_mem {items : List Item} {a : Attribute} (h : a ∉ items.map Item.attr) (id : IdentityDN) :
    (readInto id items).get a = id.get a := by
  induction items generalizing id with
  | nil => rfl
  | cons i items ih =>
    rw [List.map_cons, List.mem_cons, not_or] at h
    exact (ih h.2 (id.set i.attr i.value)).trans (get_set_of_ne id h.1 i.value)

/-- A part that one item names is what it says. -/
theorem get_readInto {items : List Item} (hnodup : (items.map Item.attr).Nodup) {i : Item} (hi : i ∈ items) (id : IdentityDN) :
    (readInto id items).get i.attr = i.value := by
  induction items generalizing id with
  | nil => exact (List.not_mem_nil hi).elim
  | cons j items ih =>
    rw [List.map_cons, List.nodup_cons] at hnodup
    rcases List.mem_cons.1 hi with rfl | hi
    · exact (get_readInto_of_not_mem hnodup.1 _).trans (get_set_self id i.attr i.value)
    · exact ih hnodup.2 hi _

/-- There are three attributes. -/
theorem mem_attributes (a : Attribute) : a ∈ [Attribute.organizationName, .commonName, .serialNumber] := by
  cases a <;> decide

/-- Three attributes without a repetition are all of them. -/
theorem perm_attributes {order : List Attribute} (hnodup : order.Nodup) (hlen : order.length = 3) :
    order.Perm [.organizationName, .commonName, .serialNumber] := by
  refine (List.subperm_of_subset hnodup fun a _ => mem_attributes a).perm_of_length_le ?_
  rw [hlen]
  rfl

/-- The attributes of a spelling of an identity. -/
def Spelling.items (sp : Spelling) (id : IdentityDN) : List Item := sp.order.map fun a => ⟨a, sp.type a, id.get a⟩

/-- The items of a spelling are written as its content. -/
theorem flatMap_items (sp : Spelling) (id : IdentityDN) : (Spelling.items sp id).flatMap Item.encode = sp.content id := by
  rw [Spelling.items, List.flatMap_map]
  rfl

/-- The items of a spelling come in its order. -/
theorem map_attr_items (sp : Spelling) (id : IdentityDN) : (Spelling.items sp id).map Item.attr = sp.order := by
  rw [Spelling.items, List.map_map]
  exact (List.map_congr_left fun a _ => rfl).trans (List.map_id _)

/-- Items of distinct attributes are those of a spelling of what they are read into. -/
theorem exists_spelling {items : List Item} (hnodup : (items.map Item.attr).Nodup) (hlen : items.length = 3) (id : IdentityDN) :
    ∃ sp : Spelling, items = Spelling.items sp (readInto id items) := by
  have hinj := List.inj_on_of_nodup_map hnodup
  have htype : ∀ a, ∃ t : StringType, ∀ i ∈ items, i.attr = a → i.type = t := by
    intro a
    by_cases ha : ∃ i ∈ items, i.attr = a
    · obtain ⟨i, hi, rfl⟩ := ha
      exact ⟨i.type, fun j hj heq => congrArg Item.type (hinj hj hi heq)⟩
    · exact ⟨.utf8, fun i hi heq => absurd ⟨i, hi, heq⟩ ha⟩
  choose type htype using htype
  refine ⟨⟨items.map Item.attr, perm_attributes hnodup (by rw [List.length_map, hlen]), type⟩, ?_⟩
  rw [Spelling.items, List.map_map]
  refine ((List.map_congr_left fun i hi => ?_).trans (List.map_id items)).symm
  show (⟨i.attr, type i.attr, (readInto id items).get i.attr⟩ : Item) = i
  rw [get_readInto hnodup hi, ← htype i.attr i hi rfl]

/-- The names accepted are the spellings of an identity. -/
theorem decodeIdentityDN_ok_iff : decodeIdentityDN b = .ok id ↔
    ∃ sp : Spelling, (sp.content id).length < 2 ^ 32 ∧ b = sp.encode id := by
  unfold decodeIdentityDN
  rw [bind_eq_ok_iff]
  constructor
  · rintro ⟨⟨tag, seq, rest⟩, he, h⟩
    obtain ⟨hlen, rfl⟩ := derElement_ok_iff.1 he
    dsimp only at h hlen ⊢
    split_ifs at h with htag
    push Not at htag
    obtain ⟨rfl, rfl⟩ := htag
    obtain ⟨⟨id', n⟩, hread, h⟩ := bind_eq_ok_iff.1 h
    dsimp only at h
    split_ifs at h with hcount
    cases h
    obtain ⟨items, hnodup, -, rfl, rfl, hn⟩ := (readAttributes_ok_iff hlen fun _ => false).1 hread
    have hthree : items.length = 3 := by
      have hcount' : n = 3 := not_not.1 hcount
      omega
    obtain ⟨sp, hsp⟩ := exists_spelling hnodup hthree {}
    have hcontent : items.flatMap Item.encode = sp.content (readInto {} items) := by
      rw [← flatMap_items, ← hsp]
    refine ⟨sp, hcontent ▸ hlen, ?_⟩
    rw [List.append_nil, Spelling.encode, hcontent]
  · rintro ⟨sp, hlen, rfl⟩
    have hnodup : ((Spelling.items sp id).map Item.attr).Nodup := by
      rw [map_attr_items]
      exact sp.once.nodup_iff.2 (by decide)
    have hid : readInto {} (Spelling.items sp id) = id := by
      refine identity_ext fun a => ?_
      have hmem : (⟨a, sp.type a, id.get a⟩ : Item) ∈ Spelling.items sp id :=
        List.mem_map.2 ⟨a, sp.once.mem_iff.2 (mem_attributes a), rfl⟩
      exact get_readInto hnodup hmem {}
    have hread : readAttributes (sp.content id) identityTargets {} 0 = .ok (id, 3) :=
      (readAttributes_ok_iff hlen fun _ => false).2 ⟨Spelling.items sp id, hnodup, fun _ _ => rfl,
        (flatMap_items sp id).symm, hid.symm, by rw [Spelling.items, List.length_map, sp.once.length_eq]; rfl⟩
    refine ⟨_, derElement_single hlen, ?_⟩
    rw [if_neg (by simp)]
    exact bind_eq_ok_iff.2 ⟨_, hread, rfl⟩

/-- The encoder writes one of the spellings. -/
theorem encodeIdentityDN_eq (o c s : List UInt8) : encodeIdentityDN o c s = ranetSpelling.encode ⟨o, c, s⟩ := by
  simp [encodeIdentityDN, Spelling.encode, Spelling.content, ranetSpelling, rdn, derUTF8String, derPrintableString, derSequence,
    StringType.tag, Attribute.oid, IdentityDN.get]

end DerAux

open DerAux

/-- `derElement` accepts exactly an encoded element with something behind it; an encoded identity decodes to itself as long as its
length fits the four octets `derElement` reads; and the names accepted are exactly the spellings of an identity, so that two
encodings of one identity differ in the order of the attributes or in the type of a string. -/
theorem identity_dn_canonical :
    (∀ (b : List UInt8) (e : Element), derElement b = .ok e ↔ e.content.length < 2 ^ 32 ∧ b = derTLV e.tag e.content ++ e.rest) ∧
    (∀ o c s : List UInt8, decodeIdentityDN (encodeIdentityDN o c s) = .ok ⟨o, c, s⟩ ↔
      (ranetSpelling.content ⟨o, c, s⟩).length < 2 ^ 32) ∧
    (∀ (b : List UInt8) (id : IdentityDN), decodeIdentityDN b = .ok id ↔
      ∃ sp : Spelling, (sp.content id).length < 2 ^ 32 ∧ b = sp.encode id) ∧
    (∀ (b b' : List UInt8) (id : IdentityDN), decodeIdentityDN b = .ok id → decodeIdentityDN b' = .ok id → b ≠ b' →
      ∃ sp sp' : Spelling, b = sp.encode id ∧ b' = sp'.encode id ∧ (sp.order ≠ sp'.order ∨ sp.type ≠ sp'.type)) := by
  refine ⟨fun b e => derElement_ok_iff, fun o c s => ?_, fun b id => decodeIdentityDN_ok_iff, fun b b' id h h' hne => ?_⟩
  · rw [encodeIdentityDN_eq, decodeIdentityDN_ok_iff]
    constructor
    · rintro ⟨sp, hlen, heq⟩
      rw [length_content_of_eq heq]
      exact hlen
    · intro hlen
      exact ⟨ranetSpelling, hlen, rfl⟩
  · obtain ⟨sp, -, rfl⟩ := decodeIdentityDN_ok_iff.1 h
    obtain ⟨sp', -, rfl⟩ := decodeIdentityDN_ok_iff.1 h'
    refine ⟨sp, sp', rfl, rfl, ?_⟩
    by_contra hsame
    push Not at hsame
    obtain ⟨order, once, type⟩ := sp
    obtain ⟨order', once', type'⟩ := sp'
    obtain ⟨rfl, rfl⟩ : order = order' ∧ type = type' := hsame
    exact hne rfl

theorem identity_dn_canonical_ranet :
    decodeIdentityDN (encodeIdentityDN [0x61] [0x62] [0x63]) = .ok ⟨[0x61], [0x62], [0x63]⟩ :=
  (identity_dn_canonical.2.1 [0x61] [0x62] [0x63]).2 (by decide)

end RanetLite.Ike
