import RanetLite.Ike.Message

/-!
# Chains of payloads

What reading one payload gives of what was written, and what it says of the bytes it was given; from these, by induction along the
chain, what the two walkers make of a chain.
-/

namespace RanetLite.Ike

open Bytes

namespace MessagesAux

variable {next : UInt8} {rest : List UInt8} {ps : List RawPayload} {fuel : Nat}

@[simp] theorem length_genericHeader (next : UInt8) (critical : Bool) (length : Nat) :
    (genericHeader next critical length).length = genericPayloadHeaderLen := by
  simp [genericHeader, genericPayloadHeaderLen]

theorem length_encodePayloadChain_cons (p : RawPayload) (rest : List RawPayload) :
    (encodePayloadChain (p :: rest)).length =
      genericPayloadHeaderLen + p.body.length + (encodePayloadChain rest).length := by
  simp [encodePayloadChain, Nat.add_assoc]

/-- A written payload reads back, whatever follows it. -/
theorem readPayload_written (p : RawPayload) (hlen : p.body.length ≤ 65531) (next : UInt8) (rest : List UInt8) :
    readPayload p.type (genericHeader next p.critical p.body.length ++ (p.body ++ rest)) = .ok (p, next, rest) := by
  obtain ⟨type, critical, body⟩ := p
  dsimp only at hlen ⊢
  have hword : wordAt 16 (genericHeader next critical body.length ++ (body ++ rest)) 2 =
      BitVec.ofNat 16 (genericPayloadHeaderLen + body.length) := by
    rw [genericHeader, List.append_assoc]
    exact wordAt_append _ rfl rfl _
  have hpl : (BitVec.ofNat 16 (genericPayloadHeaderLen + body.length)).toNat = genericPayloadHeaderLen + body.length := by
    rw [BitVec.toNat_ofNat, Nat.mod_eq_of_lt]
    simp only [genericPayloadHeaderLen]
    omega
  have hhead := length_genericHeader next critical body.length
  have htake : (genericHeader next critical body.length ++ (body ++ rest)).take (genericPayloadHeaderLen + body.length) =
      genericHeader next critical body.length ++ body := by
    rw [← List.append_assoc]
    exact List.take_left' (by rw [List.length_append, hhead])
  have hdrop : (genericHeader next critical body.length ++ (body ++ rest)).drop (genericPayloadHeaderLen + body.length) =
      rest := by
    rw [← List.append_assoc]
    exact List.drop_left' (by rw [List.length_append, hhead])
  rw [readPayload, if_neg (by rw [List.length_append, hhead]; omega)]
  simp only [hword, hpl]
  rw [if_neg (by rw [List.length_append, List.length_append, hhead]; omega), htake, hdrop, List.drop_left' hhead]
  have hflag : ((if critical then 0x80 else 0 : UInt8) &&& 0x80 != 0) = critical := by cases critical <;> decide
  simp only [genericHeader, List.cons_append, List.getD_cons_zero, List.getD_cons_succ, hflag]

/-- What reading a payload says of the bytes. -/
theorem readPayload_bytes {following : UInt8} {rest' : List UInt8} {p : RawPayload}
    (h : readPayload next rest = .ok (p, following, rest')) :
    p.type = next ∧ p.body.length ≤ 65531 ∧ ∃ reserved, p.critical = (reserved &&& 0x80 != 0) ∧
      rest = [following, reserved] ++ (toBytes (BitVec.ofNat 16 (genericPayloadHeaderLen + p.body.length)) ++
        (p.body ++ rest')) := by
  unfold readPayload at h
  split at h
  · exact absurd h (by simp)
  · next hshort =>
    dsimp only at h
    split at h
    · exact absurd h (by simp)
    · next hbad =>
      simp only [Except.ok.injEq, Prod.mk.injEq] at h
      obtain ⟨rfl, rfl, rfl⟩ := h
      simp only [genericPayloadHeaderLen] at hshort hbad
      have hlt := (wordAt 16 rest 2).isLt
      have hlen : ((rest.take (wordAt 16 rest 2).toNat).drop genericPayloadHeaderLen).length =
          (wordAt 16 rest 2).toNat - 4 := by
        rw [List.length_drop, List.length_take, genericPayloadHeaderLen]
        omega
      refine ⟨rfl, by dsimp only; omega, rest.getD 1 0, rfl, ?_⟩
      have hword : BitVec.ofNat 16 (genericPayloadHeaderLen + ((rest.take (wordAt 16 rest 2).toNat).drop
          genericPayloadHeaderLen).length) = wordAt 16 rest 2 := by
        rw [hlen, genericPayloadHeaderLen, Nat.add_sub_cancel' (by omega), BitVec.ofNat_toNat, BitVec.setWidth_eq]
      rw [hword, toBytes_wordAt rfl (by omega)]
      have htail : (rest.take (wordAt 16 rest 2).toNat).drop genericPayloadHeaderLen ++ rest.drop (wordAt 16 rest 2).toNat =
          rest.drop genericPayloadHeaderLen := by
        rw [← List.drop_append_of_le_length (by rw [List.length_take, genericPayloadHeaderLen]; omega),
          List.take_append_drop]
      rw [htail]
      match rest, hshort with
      | a :: b :: c :: d :: tail, _ => rfl
      | [], hs | [_], hs | [_, _], hs | [_, _, _], hs => simp at hs

theorem length_of_readPayload {following : UInt8} {rest' : List UInt8} {p : RawPayload}
    (h : readPayload next rest = .ok (p, following, rest')) :
    rest.length = genericPayloadHeaderLen + p.body.length + rest'.length := by
  obtain ⟨-, -, reserved, -, hrest⟩ := readPayload_bytes h
  rw [hrest]
  simp [genericPayloadHeaderLen]
  omega

/-- The chain of a list of payloads walks back to the list. -/
theorem decodeChain_encode (h : ∀ p ∈ ps, p.type ≠ payloadNone ∧ p.body.length ≤ 65531) (fuel : Nat)
    (hfuel : (encodePayloadChain ps).length ≤ fuel) : decodeChain fuel (firstType ps) (encodePayloadChain ps) = .ok ps := by
  induction ps generalizing fuel with
  | nil => unfold decodeChain; rfl
  | cons p rest ih =>
    obtain ⟨htype, hlen⟩ := h p List.mem_cons_self
    rw [length_encodePayloadChain_cons, genericPayloadHeaderLen] at hfuel
    obtain ⟨fuel, rfl⟩ : ∃ n, fuel = n + 1 := ⟨fuel - 1, by omega⟩
    unfold decodeChain
    rw [firstType, if_neg htype, encodePayloadChain, readPayload_written p hlen]
    dsimp only
    rw [ih (fun q hq => h q (List.mem_cons_of_mem _ hq)) fuel (by omega)]
    rfl

/-- Where the Encrypted payload's header starts, when the last payload is one. -/
def skOffset (length : Nat) (ps : List RawPayload) : Nat :=
  match ps.getLast? with
  | some p => if p.type = payloadSK then length - (genericPayloadHeaderLen + p.body.length) else 0
  | none => 0

/-- The walk of a message, when no Encrypted payload comes before the last. -/
theorem walkMessage_encode (length : Nat) (h : ∀ p ∈ ps, p.type ≠ payloadNone ∧ p.body.length ≤ 65531)
    (hsk : ∀ p ∈ ps.dropLast, p.type ≠ payloadSK) (fuel : Nat) (hfuel : (encodePayloadChain ps).length ≤ fuel) :
    walkMessage length fuel (firstType ps) (encodePayloadChain ps) = .ok (ps, skOffset length ps) := by
  induction ps generalizing fuel with
  | nil => unfold walkMessage; rfl
  | cons p rest ih =>
    obtain ⟨htype, hlen⟩ := h p List.mem_cons_self
    have hlength := length_encodePayloadChain_cons p rest
    rw [hlength, genericPayloadHeaderLen] at hfuel
    obtain ⟨fuel, rfl⟩ : ∃ n, fuel = n + 1 := ⟨fuel - 1, by omega⟩
    unfold walkMessage
    rw [hlength, firstType, if_neg htype, encodePayloadChain, readPayload_written p hlen]
    dsimp only
    cases rest with
    | nil =>
      by_cases hp : p.type = payloadSK
      · simp [hp, encodePayloadChain, skOffset]
      · rw [if_neg hp]
        unfold walkMessage
        simp [firstType, encodePayloadChain, skOffset, hp, Except.map]
    | cons q rest =>
      have hp : p.type ≠ payloadSK := hsk p (by simp)
      have hlast : skOffset length (p :: q :: rest) = skOffset length (q :: rest) := by
        rw [skOffset, List.getLast?_cons_cons, skOffset]
      rw [if_neg hp, ih (fun x hx => h x (List.mem_cons_of_mem _ hx)) (fun x hx => hsk x (by
        rw [List.dropLast_cons_cons]
        exact List.mem_cons_of_mem _ hx)) fuel (by omega), hlast]
      rfl

/-- Along a chain without an Encrypted payload the two walkers do the same. The induction is on the fuel of the one. -/
theorem walkMessage_eq (length fuel fuel' : Nat) (hf : rest.length ≤ fuel) (hf' : rest.length ≤ fuel')
    (hsk : payloadSK ∉ chainTypes fuel' next rest) :
    walkMessage length fuel next rest = (decodeChain fuel' next rest).map fun ps => (ps, 0) := by
  induction fuel' generalizing fuel next rest with
  | zero =>
    obtain rfl := List.length_eq_zero_iff.mp (Nat.le_zero.mp hf')
    unfold walkMessage decodeChain
    by_cases hnone : next = payloadNone
    · simp [hnone, Except.map]
    · rw [if_neg hnone, if_neg hnone]
      have hread : readPayload next [] = .error .truncatedHeader := rfl
      rw [hread]
      rfl
  | succ fuel' ih =>
    unfold chainTypes at hsk
    unfold walkMessage decodeChain
    by_cases hnone : next = payloadNone
    · rw [if_pos hnone, if_pos hnone]
      split <;> rfl
    · rw [if_neg hnone] at hsk ⊢
      rw [if_neg hnone]
      cases hread : readPayload next rest with
      | error e => rfl
      | ok r =>
        obtain ⟨p, following, rest'⟩ := r
        have hlen := length_of_readPayload hread
        rw [genericPayloadHeaderLen] at hlen
        obtain ⟨fuel, rfl⟩ : ∃ n, fuel = n + 1 := ⟨fuel - 1, by omega⟩
        rw [hread] at hsk
        dsimp only at hsk ⊢
        rw [List.mem_cons, not_or] at hsk
        rw [if_neg (by rw [(readPayload_bytes hread).1]; exact Ne.symm hsk.1), ih fuel (by omega) (by omega) hsk.2]
        cases decodeChain fuel' following rest' <;> rfl

/-- How an accepted chain was walked: to its end at once, or over one payload first. -/
theorem decodeChain_cases (h : decodeChain fuel next rest = .ok ps) :
    (next = payloadNone ∧ rest = [] ∧ ps = []) ∨ ∃ n p following rest' ps', fuel = n + 1 ∧ next ≠ payloadNone ∧
      readPayload next rest = .ok (p, following, rest') ∧ decodeChain n following rest' = .ok ps' ∧ ps = p :: ps' := by
  unfold decodeChain at h
  by_cases hnone : next = payloadNone
  · rw [if_pos hnone] at h
    split at h
    · exact absurd h (by simp)
    · next hrest => exact .inl ⟨hnone, by simpa using hrest, (Except.ok.inj h).symm⟩
  · rw [if_neg hnone] at h
    cases hread : readPayload next rest with
    | error e => simp [hread] at h
    | ok r =>
      cases fuel with
      | zero => simp [hread] at h
      | succ n =>
        obtain ⟨p, following, rest'⟩ := r
        simp only [hread] at h
        cases hd : decodeChain n following rest' with
        | error e => simp [hd, Except.map] at h
        | ok ps' =>
          rw [hd] at h
          exact .inr ⟨n, p, following, rest', ps', rfl, hnone, rfl, hd, (Except.ok.inj h).symm⟩

/-- How an accepted message was walked when it holds no Encrypted payload. -/
theorem walkMessage_cases {length : Nat} {offset : Nat} (h : walkMessage length fuel next rest = .ok (ps, offset))
    (hsk : ∀ p ∈ ps, p.type ≠ payloadSK) :
    (next = payloadNone ∧ rest = [] ∧ ps = []) ∨ ∃ n p following rest' ps', fuel = n + 1 ∧ next ≠ payloadNone ∧
      readPayload next rest = .ok (p, following, rest') ∧ walkMessage length n following rest' = .ok (ps', offset) ∧
        ps = p :: ps' := by
  unfold walkMessage at h
  by_cases hnone : next = payloadNone
  · rw [if_pos hnone] at h
    split at h
    · exact absurd h (by simp)
    · next hrest => exact .inl ⟨hnone, by simpa using hrest, (Prod.mk.inj (Except.ok.inj h)).1.symm⟩
  · rw [if_neg hnone] at h
    cases hread : readPayload next rest with
    | error e => simp [hread] at h
    | ok r =>
      cases fuel with
      | zero => simp [hread] at h
      | succ n =>
        obtain ⟨p, following, rest'⟩ := r
        simp only [hread] at h
        by_cases hp : p.type = payloadSK
        · rw [if_pos hp] at h
          split at h
          · exact absurd h (by simp)
          · exact absurd hp (hsk p (by simp [← (Prod.mk.inj (Except.ok.inj h)).1]))
        · rw [if_neg hp] at h
          cases hw : walkMessage length n following rest' with
          | error e => simp [hw, Except.map] at h
          | ok r =>
            rw [hw] at h
            obtain ⟨rfl, rfl⟩ := Prod.mk.inj (Except.ok.inj h)
            exact .inr ⟨n, p, following, rest', r.1, rfl, hnone, rfl, hw, rfl⟩

/-- A walk that ends without an Encrypted payload is one `decodePayloadChain` makes too. -/
theorem decodeChain_of_walk {length : Nat} {offset : Nat} (h : walkMessage length fuel next rest = .ok (ps, offset))
    (hsk : ∀ p ∈ ps, p.type ≠ payloadSK) : decodeChain fuel next rest = .ok ps := by
  induction fuel generalizing next rest ps offset with
  | zero =>
    rcases walkMessage_cases h hsk with ⟨rfl, rfl, rfl⟩ | ⟨n, -, -, -, -, hn, -⟩
    · rfl
    · exact absurd hn (by simp)
  | succ fuel ih =>
    rcases walkMessage_cases h hsk with ⟨rfl, rfl, rfl⟩ | ⟨n, p, following, rest', ps', hn, hnone, hread, hw, rfl⟩
    · rfl
    · obtain rfl := Nat.succ.inj hn
      unfold decodeChain
      rw [if_neg hnone, hread]
      dsimp only
      rw [ih hw fun q hq => hsk q (List.mem_cons_of_mem _ hq)]
      rfl

theorem critical_byte (b : UInt8) : (if b &&& 0x80 != 0 then 0x80 else 0) = b &&& 0x80 := by
  have hbit : ∀ x : BitVec 8, x &&& 0x80#8 = 0#8 ∨ x &&& 0x80#8 = 0x80#8 := by decide
  have hb : b &&& 0x80 = 0 ∨ b &&& 0x80 = 0x80 :=
    (hbit b.toBitVec).imp UInt8.eq_of_toBitVec_eq UInt8.eq_of_toBitVec_eq
  rcases hb with h | h <;> rw [h] <;> decide

/-- Re-encoding an accepted chain clears its reserved bits and changes nothing else. -/
theorem encode_of_decodeChain (h : decodeChain fuel next rest = .ok ps) :
    firstType ps = next ∧ (encodePayloadChain ps).length = rest.length ∧ encodePayloadChain ps = clearReserved ps rest := by
  induction fuel generalizing next rest ps with
  | zero =>
    rcases decodeChain_cases h with ⟨rfl, rfl, rfl⟩ | ⟨n, -, -, -, -, hn, -⟩
    · exact ⟨rfl, rfl, rfl⟩
    · exact absurd hn (by simp)
  | succ fuel ih =>
    rcases decodeChain_cases h with ⟨rfl, rfl, rfl⟩ | ⟨n, p, following, rest', ps', hn, -, hread, hd, rfl⟩
    · exact ⟨rfl, rfl, rfl⟩
    · obtain rfl := Nat.succ.inj hn
      obtain ⟨hfirst, hlen, henc⟩ := ih hd
      obtain ⟨htype, -, reserved, hcrit, hrest⟩ := readPayload_bytes hread
      refine ⟨htype, by rw [length_encodePayloadChain_cons, hlen, length_of_readPayload hread], ?_⟩
      have hbytes : (toBytes (BitVec.ofNat 16 (genericPayloadHeaderLen + p.body.length)) ++ p.body).length =
          2 + p.body.length := by
        simp
      have hdrop : rest.drop (genericPayloadHeaderLen + p.body.length) = rest' := by
        rw [hrest, ← List.append_assoc, ← List.append_assoc]
        exact List.drop_left' (by simp [genericPayloadHeaderLen]; omega)
      have hmid : (rest.drop 2).take (2 + p.body.length) =
          toBytes (BitVec.ofNat 16 (genericPayloadHeaderLen + p.body.length)) ++ p.body := by
        rw [hrest, ← List.append_assoc, ← List.append_assoc, List.append_assoc, List.append_assoc]
        exact List.take_left' hbytes
      have h0 : rest.take 1 = [following] := by rw [hrest]; rfl
      have h1 : rest.getD 1 0 = reserved := by rw [hrest]; rfl
      rw [encodePayloadChain, clearReserved, hdrop, hmid, ← henc, hfirst, genericHeader, h0, h1, hcrit, critical_byte]
      simp

end MessagesAux

end RanetLite.Ike
