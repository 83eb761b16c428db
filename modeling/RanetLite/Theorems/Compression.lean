import RanetLite.Theorems.Wire

/-!
# Prefix compression

An Update may leave out the bytes it shares with the previous prefix of its address encoding. A decoder keeps that prefix, and
nothing else: what it makes of a run of bodies is what it makes of the bodies with every prefix written out, and each encoding's
bodies are decoded as if no others had been sent.
-/

namespace RanetLite.Babel

open Bytes Netip

/-- The encoding a body names. -/
def encodingOf (body : List UInt8) : UInt8 := body.getD 0 0

/-- A body with its decoded prefix written out: no bytes left out, the header and the sub-TLVs as they are. -/
def writtenOut (body : List UInt8) (u : Update) : List UInt8 :=
  if u.ae = aeWildcard then body
  else body.take 3 ++ [0] ++ (body.drop 4).take 6 ++ u.addr.take (prefixByteLen u.plen) ++
    body.drop (10 + (prefixByteLen u.plen - (body.getD 3 0).toNat))

/-- The results of one decoder over a run of bodies. -/
def PrefixDecoder.calls (d : PrefixDecoder) : List (List UInt8) → List (Except UpdateError Update)
  | [] => []
  | body :: rest => (d.call body).1 :: (d.call body).2.calls rest

/-- The run of bodies with every accepted one written out. -/
def PrefixDecoder.writeOut (d : PrefixDecoder) : List (List UInt8) → List (List UInt8)
  | [] => []
  | body :: rest =>
    (match (d.call body).1 with
      | .ok u => writtenOut body u
      | .error _ => body) :: (d.call body).2.writeOut rest

/-- What an accepted body leaves: under the P flag its own prefix becomes the previous one of its encoding. -/
def PrefixDecoder.after (d : PrefixDecoder) (body : List UInt8) (u : Update) : PrefixDecoder :=
  if u.ae ≠ aeWildcard ∧ body.getD 1 0 &&& updateFlagPrefix ≠ 0 then d.remember u.ae u.addr else d

namespace CompressionAux

open Decoding

variable {α : Type} (d : PrefixDecoder)

theorem run_reject_bind (c : Prop) [Decidable c] (e : UpdateError) (f : Unit → Decoding α) :
    (reject c e >>= f).run.run d = if c then (.error e, d) else (f ()).run.run d := by
  unfold reject
  split <;> rfl

theorem run_get_bind (f : PrefixDecoder → Decoding α) : (get >>= f).run.run d = (f d).run.run d := rfl

theorem run_checkAE_bind (ae : UInt8) (plen omitted : Nat) (f : Unit → Decoding α) :
    (checkAE ae plen omitted >>= f).run.run d = match checkUpdate d ae plen omitted with
      | some e => (.error e, d)
      | none => (f ()).run.run d := by
  unfold checkAE checkUpdate
  split
  · rw [run_reject_bind]
    split <;> rfl
  · split
    · rw [bind_assoc, run_reject_bind]
      split
      · rfl
      · rw [bind_assoc, run_get_bind, run_reject_bind]
        split <;> rfl
    · split
      · rw [bind_assoc, run_reject_bind]
        split
        · rfl
        · rw [bind_assoc, run_get_bind, run_reject_bind]
          split <;> rfl
      · rfl

/-- The address part: its value, and the state it leaves. -/
theorem run_readPrefix_bind (ae flags : UInt8) (plen omitted : Nat) (sent : List UInt8) (f : List UInt8 → Decoding α) :
    (readPrefix ae flags plen omitted sent >>= f).run.run d =
      let buf := clearTail ((d ae).last.take omitted ++ sent.take (prefixByteLen plen - omitted) ++
        List.replicate ((if isIPv4AE ae then 4 else 16) - prefixByteLen plen) 0) plen
      (f (if ae == aeWildcard then mappedPrefix ++ List.replicate 4 0 else buf)).run.run
        (if !(ae == aeWildcard) && flags &&& updateFlagPrefix != 0 then d.remember ae buf else d) := by
  unfold readPrefix
  by_cases hwild : ae = aeWildcard
  · simp only [hwild, if_true, beq_self_eq_true]
    rfl
  · have hw : (ae == aeWildcard) = false := by simpa using hwild
    simp only [hwild, if_false, hw, Bool.false_eq_true, Bool.not_false, Bool.true_and, bne_iff_ne]
    rw [bind_assoc, run_get_bind]
    by_cases hflag : flags &&& updateFlagPrefix ≠ 0
    · rw [if_pos hflag, if_pos hflag]
      rfl
    · rw [if_neg hflag, if_neg hflag]
      rfl

/-- Decoding in place is `decode`: an error leaves the state, and an accepted body leaves the one it returns. -/
theorem call_eq (body : List UInt8) :
    d.call body = match d.decode body with
      | .error e => (.error e, d)
      | .ok (u, d') => (.ok u, d') := by
  unfold PrefixDecoder.call Decoding.decode PrefixDecoder.decode
  rw [run_reject_bind]
  by_cases hshort : body.length < 10
  · rw [if_pos hshort, if_pos hshort]
  · rw [if_neg hshort, if_neg hshort]
    dsimp only
    rw [run_checkAE_bind]
    cases checkUpdate d (body.getD 0 0) (body.getD 2 0).toNat (body.getD 3 0).toNat with
    | some e => rfl
    | none =>
      dsimp only
      rw [run_reject_bind]
      split
      · rfl
      · rw [run_reject_bind]
        split
        · rfl
        · rw [run_readPrefix_bind]
          dsimp only
          cases decodeSubTLVs ((body.drop 10).drop (prefixByteLen (body.getD 2 0).toNat - (body.getD 3 0).toNat)) with
          | error e => rfl
          | ok subs => rfl

/-- Why a body is refused. -/
def verdict (body : List UInt8) : Option UpdateError :=
  if body.length < 10 then some .short
  else match checkUpdate d (encodingOf body) (body.getD 2 0).toNat (body.getD 3 0).toNat with
    | some e => some e
    | none =>
      if prefixByteLen (body.getD 2 0).toNat < (body.getD 3 0).toNat then some (.omittedExceeds (body.getD 3 0).toNat)
      else if (body.drop 10).length < prefixByteLen (body.getD 2 0).toNat - (body.getD 3 0).toNat then some .truncated
      else none

/-- The address an accepted body decodes to. -/
def address (body : List UInt8) : List UInt8 :=
  if encodingOf body == aeWildcard then mappedPrefix ++ List.replicate 4 0
  else clearTail ((d (encodingOf body)).last.take (body.getD 3 0).toNat ++
    (body.drop 10).take (prefixByteLen (body.getD 2 0).toNat - (body.getD 3 0).toNat) ++
    List.replicate ((if isIPv4AE (encodingOf body) then 4 else 16) - prefixByteLen (body.getD 2 0).toNat) 0)
      (body.getD 2 0).toNat

/-- The bytes behind the prefix. -/
def subTLVBytes (body : List UInt8) : List UInt8 :=
  (body.drop 10).drop (prefixByteLen (body.getD 2 0).toNat - (body.getD 3 0).toNat)

/-- The Update of an accepted body, from its fields, its address and the bytes behind the prefix. -/
def updateOf (ae flags plen : UInt8) (interval seqno metric : UInt16) (addr sub : List UInt8) : Update :=
  let u : Update := {
    ae := ae, plen := plen.toNat, interval := interval, seqno := seqno, metric := metric, addr := addr
    routerID := if flags &&& updateFlagRouterID != 0 && !(ae == aeWildcard) then some (derivedRouterID addr) else none
    ignore := interval == 0 && metric != metricInfinity || ae == aeWildcard && metric != metricInfinity }
  match decodeSubTLVs sub with
  | .error _ => { u with ignore := true }
  | .ok subs => updateSubTLVs ae subs 0 u

theorem updateOf_spec (ae flags plen : UInt8) (interval seqno metric : UInt16) (addr sub : List UInt8) :
    (updateOf ae flags plen interval seqno metric addr sub).ae = ae ∧
      (updateOf ae flags plen interval seqno metric addr sub).plen = plen.toNat ∧
      (updateOf ae flags plen interval seqno metric addr sub).addr = addr := by
  unfold updateOf
  cases decodeSubTLVs sub with
  | error e => exact ⟨rfl, rfl, rfl⟩
  | ok subs =>
    dsimp only
    obtain ⟨sp, ig, h, -⟩ := WireAux.updateSubTLVs_spec ae subs 0 _
    rw [h]
    exact ⟨rfl, rfl, rfl⟩

/-- The Update a body decodes to when it is accepted. -/
def accepted (body : List UInt8) : Update :=
  updateOf (encodingOf body) (body.getD 1 0) (body.getD 2 0) (uint16At body 4) (uint16At body 6) (uint16At body 8)
    (address d body) (subTLVBytes body)

/-- What a call does: refuse and leave the state, or accept and move it. -/
theorem call_cases (body : List UInt8) :
    d.call body = match verdict d body with
      | some e => (.error e, d)
      | none => (.ok (accepted d body), d.after body (accepted d body)) := by
  have hafter : d.after body (accepted d body) =
      if !(encodingOf body == aeWildcard) && body.getD 1 0 &&& updateFlagPrefix != 0 then
        d.remember (encodingOf body) (address d body) else d := by
    obtain ⟨hae, -, haddr⟩ := updateOf_spec (encodingOf body) (body.getD 1 0) (body.getD 2 0) (uint16At body 4)
      (uint16At body 6) (uint16At body 8) (address d body) (subTLVBytes body)
    rw [PrefixDecoder.after, accepted, hae, haddr]
    simp
  rw [call_eq, hafter]
  unfold PrefixDecoder.decode verdict
  by_cases hshort : body.length < 10
  · rw [if_pos hshort, if_pos hshort]
  · rw [if_neg hshort, if_neg hshort]
    dsimp only [encodingOf]
    cases checkUpdate d (body.getD 0 0) (body.getD 2 0).toNat (body.getD 3 0).toNat with
    | some e => rfl
    | none =>
      dsimp only
      by_cases homit : prefixByteLen (body.getD 2 0).toNat < (body.getD 3 0).toNat
      · rw [if_pos homit, if_pos homit]
      · rw [if_neg homit, if_neg homit]
        by_cases hsent : (body.drop 10).length < prefixByteLen (body.getD 2 0).toNat - (body.getD 3 0).toNat
        · rw [if_pos hsent, if_pos hsent]
        · rw [if_neg hsent, if_neg hsent]
          unfold accepted updateOf subTLVBytes address encodingOf
          cases body.getD 0 0 == aeWildcard <;> cases decodeSubTLVs _ <;> rfl

/-- A body of at least ten bytes, its header taken apart. -/
theorem exists_header {body : List UInt8} (h : ¬body.length < 10) :
    ∃ b0 b1 b2 b3 b4 b5 b6 b7 b8 b9 rest, body = b0 :: b1 :: b2 :: b3 :: b4 :: b5 :: b6 :: b7 :: b8 :: b9 :: rest := by
  match body, h with
  | b0 :: b1 :: b2 :: b3 :: b4 :: b5 :: b6 :: b7 :: b8 :: b9 :: rest, _ =>
    exact ⟨b0, b1, b2, b3, b4, b5, b6, b7, b8, b9, rest, rfl⟩
  | [], h | [_], h | [_, _], h | [_, _, _], h | [_, _, _, _], h | [_, _, _, _, _], h | [_, _, _, _, _, _], h
  | [_, _, _, _, _, _, _], h | [_, _, _, _, _, _, _, _], h | [_, _, _, _, _, _, _, _, _], h => simp at h

/-- The checks on an encoding and a length, when no bytes are left out, do not read the state. -/
theorem checkUpdate_plain {ae : UInt8} {plen omitted : Nat} (h : checkUpdate d ae plen omitted = none) (d' : PrefixDecoder) :
    checkUpdate d' ae plen 0 = none ∧ (ae ≠ aeWildcard → plen ≤ if isIPv4AE ae then 32 else 128) ∧
      (ae = aeWildcard → plen = 0 ∧ omitted = 0) := by
  unfold checkUpdate at h ⊢
  split_ifs at h with hwild hbad h4 hlong homit h6 hlong homit
  · simp only [ne_eq, not_or, not_not] at hbad
    exact ⟨by simp [hwild, hbad.1], fun hne => absurd hwild hne, fun _ => hbad⟩
  · exact ⟨by simp [hwild, h4, hlong], fun _ => by rw [if_pos h4]; omega, fun hw => absurd hw hwild⟩
  · exact ⟨by rw [if_neg hwild, if_neg h4, if_pos h6]; simp [hlong], fun _ => by rw [if_neg h4]; omega, fun hw => absurd hw hwild⟩

/-- The prefix of an accepted body, written out, fills its length and clears to itself. -/
theorem clearTail_writtenOut {raw : List UInt8} {plen size : Nat} (hraw : raw.length = prefixByteLen plen) :
    let addr := clearTail (raw ++ List.replicate (size - prefixByteLen plen) 0) plen
    (addr.take (prefixByteLen plen)).length = prefixByteLen plen ∧
      clearTail (addr.take (prefixByteLen plen) ++ List.replicate (size - prefixByteLen plen) 0) plen = addr := by
  have hn : plen ≤ 8 * raw.length := by
    rw [hraw, prefixByteLen]
    omega
  have hlen : (clearTail raw plen).length = prefixByteLen plen := by rw [length_clearTail, hraw]
  dsimp only
  rw [clearTail_append hn, List.take_left' hlen]
  exact ⟨hlen, by rw [clearTail_append (by rw [hlen, ← hraw]; exact hn), clearTail_clearTail]⟩

theorem verdict_eq_none_iff (body : List UInt8) : verdict d body = none ↔
    10 ≤ body.length ∧ checkUpdate d (encodingOf body) (body.getD 2 0).toNat (body.getD 3 0).toNat = none ∧
      (body.getD 3 0).toNat ≤ prefixByteLen (body.getD 2 0).toNat ∧
      prefixByteLen (body.getD 2 0).toNat - (body.getD 3 0).toNat ≤ (body.drop 10).length := by
  unfold verdict
  by_cases hshort : body.length < 10
  · rw [if_pos hshort]
    exact ⟨fun h => absurd h (by simp), fun h => absurd h.1 (by omega)⟩
  · rw [if_neg hshort]
    cases checkUpdate d (encodingOf body) (body.getD 2 0).toNat (body.getD 3 0).toNat with
    | some e => exact ⟨fun h => absurd h (by simp), fun h => absurd h.2.1 (by simp)⟩
    | none =>
      dsimp only
      by_cases homit : prefixByteLen (body.getD 2 0).toNat < (body.getD 3 0).toNat
      · rw [if_pos homit]
        exact ⟨fun h => absurd h (by simp), fun h => absurd h.2.2.1 (by omega)⟩
      · rw [if_neg homit]
        by_cases hsent : (body.drop 10).length < prefixByteLen (body.getD 2 0).toNat - (body.getD 3 0).toNat
        · rw [if_pos hsent]
          exact ⟨fun h => absurd h (by simp), fun h => absurd h.2.2.2 (by omega)⟩
        · rw [if_neg hsent]
          exact ⟨fun _ => ⟨by omega, rfl, by omega, by omega⟩, fun _ => rfl⟩

/-- An accepted body with its prefix written out decodes under any state to the same Update. -/
theorem call_writtenOut {body : List UInt8} (h : verdict d body = none) (d' : PrefixDecoder) :
    d'.call (writtenOut body (accepted d body)) = (.ok (accepted d body), d'.after body (accepted d body)) := by
  obtain ⟨hae, hplen, haddr⟩ := updateOf_spec (encodingOf body) (body.getD 1 0) (body.getD 2 0) (uint16At body 4)
    (uint16At body 6) (uint16At body 8) (address d body) (subTLVBytes body)
  rw [← accepted] at hae hplen haddr
  obtain ⟨hlong, hcheck, homit, hsent⟩ := (verdict_eq_none_iff d body).mp h
  obtain ⟨hplain, hwidth, hzero⟩ := checkUpdate_plain d hcheck d'
  by_cases hwild : encodingOf body = aeWildcard
  · -- a wildcard body carries no prefix and does not read the state
    have hbody : writtenOut body (accepted d body) = body := by rw [writtenOut, if_pos (by rw [hae, hwild])]
    have haccept : accepted d' body = accepted d body := by simp [accepted, address, hwild]
    have hnone : verdict d' body = none := by
      rw [← (hzero hwild).2] at hplain
      exact (verdict_eq_none_iff d' body).mpr ⟨hlong, hplain, homit, hsent⟩
    rw [hbody, call_cases, hnone, haccept]
  · have haddr' : address d body = clearTail (((d (encodingOf body)).last.take (body.getD 3 0).toNat ++
        (body.drop 10).take (prefixByteLen (body.getD 2 0).toNat - (body.getD 3 0).toNat)) ++
        List.replicate ((if isIPv4AE (encodingOf body) then 4 else 16) - prefixByteLen (body.getD 2 0).toNat) 0)
          (body.getD 2 0).toNat := by
      rw [address, if_neg (by simpa using hwild)]
    have hlast := (d (encodingOf body)).len
    have hraw : ((d (encodingOf body)).last.take (body.getD 3 0).toNat ++
        (body.drop 10).take (prefixByteLen (body.getD 2 0).toNat - (body.getD 3 0).toNat)).length =
        prefixByteLen (body.getD 2 0).toNat := by
      have hw := hwidth hwild
      have hmost : prefixByteLen (body.getD 2 0).toNat ≤ 16 := by
        rw [prefixByteLen]
        split at hw <;> omega
      rw [List.length_append, List.length_take, List.length_take]
      omega
    obtain ⟨hfull, hclear⟩ := @clearTail_writtenOut _ (body.getD 2 0).toNat (if isIPv4AE (encodingOf body) then 4 else 16) hraw
    rw [← haddr'] at hfull hclear
    generalize hsub : subTLVBytes body = sub
    generalize haddrE : address d body = addr at *
    obtain ⟨b0, b1, b2, b3, b4, b5, b6, b7, b8, b9, rest, rfl⟩ := exists_header (Nat.not_lt.mpr hlong)
    have hout : writtenOut (b0 :: b1 :: b2 :: b3 :: b4 :: b5 :: b6 :: b7 :: b8 :: b9 :: rest) (accepted d
        (b0 :: b1 :: b2 :: b3 :: b4 :: b5 :: b6 :: b7 :: b8 :: b9 :: rest)) =
        b0 :: b1 :: b2 :: 0 :: b4 :: b5 :: b6 :: b7 :: b8 :: b9 :: (addr.take (prefixByteLen b2.toNat) ++ sub) := by
      rw [writtenOut, if_neg (by rw [hae]; exact hwild), hplen, haddr, ← hsub, subTLVBytes, List.drop_drop]
      rfl
    replace hfull : (addr.take (prefixByteLen b2.toNat)).length = prefixByteLen b2.toNat := hfull
    replace hwild : (b0 == aeWildcard) = false := by simpa [encodingOf] using hwild
    have hnone : verdict d' (b0 :: b1 :: b2 :: 0 :: b4 :: b5 :: b6 :: b7 :: b8 :: b9 ::
        (addr.take (prefixByteLen b2.toNat) ++ sub)) = none := by
      refine (verdict_eq_none_iff d' _).mpr ⟨by simp only [List.length_cons]; omega, hplain, Nat.zero_le _, ?_⟩
      show prefixByteLen b2.toNat - 0 ≤ (addr.take (prefixByteLen b2.toNat) ++ sub).length
      rw [List.length_append]
      exact Nat.le_trans (Nat.le_of_eq hfull.symm) (Nat.le_add_right _ _)
    have haddrOut : address d' (b0 :: b1 :: b2 :: 0 :: b4 :: b5 :: b6 :: b7 :: b8 :: b9 ::
        (addr.take (prefixByteLen b2.toNat) ++ sub)) = addr := by
      rw [address, if_neg (by rw [encodingOf, List.getD_cons_zero, hwild]; simp)]
      show clearTail ([] ++ (addr.take (prefixByteLen b2.toNat) ++ sub).take (prefixByteLen b2.toNat) ++ _) _ = _
      rw [List.take_left' hfull, List.nil_append]
      exact hclear
    have hsubOut : subTLVBytes (b0 :: b1 :: b2 :: 0 :: b4 :: b5 :: b6 :: b7 :: b8 :: b9 ::
        (addr.take (prefixByteLen b2.toNat) ++ sub)) = sub := List.drop_left' hfull
    have hsame : accepted d' (b0 :: b1 :: b2 :: 0 :: b4 :: b5 :: b6 :: b7 :: b8 :: b9 ::
        (addr.take (prefixByteLen b2.toNat) ++ sub)) = accepted d
        (b0 :: b1 :: b2 :: b3 :: b4 :: b5 :: b6 :: b7 :: b8 :: b9 :: rest) := by
      rw [accepted, accepted, haddrOut, haddrE, hsubOut, hsub]
      rfl
    rw [hout, call_cases, hnone, hsame]
    rfl

/-- A call reads and moves only the state of the encoding its body names. -/
theorem call_frame {a : UInt8} {d' : PrefixDecoder} (ha : d a = d' a) (body : List UInt8) :
    (encodingOf body = a → (d.call body).1 = (d'.call body).1 ∧ (d.call body).2 a = (d'.call body).2 a) ∧
      (encodingOf body ≠ a → (d.call body).2 a = d a) := by
  have hafter : ∀ {d : PrefixDecoder}, (accepted d body).ae = encodingOf body := (updateOf_spec _ _ _ _ _ _ _ _).1
  refine ⟨fun he => ?_, fun he => ?_⟩
  · have hrefuse : verdict d body = verdict d' body := by
      simp only [verdict, checkUpdate, he, ha]
    have haccept : accepted d body = accepted d' body := by
      simp only [accepted, address, he, ha]
    rw [call_cases, call_cases, hrefuse, haccept]
    cases verdict d' body with
    | some e => exact ⟨rfl, ha⟩
    | none =>
      refine ⟨rfl, ?_⟩
      simp only [PrefixDecoder.after, hafter, he]
      split
      · simp [PrefixDecoder.remember]
      · exact ha
  · rw [call_cases]
    cases verdict d body with
    | some e => rfl
    | none =>
      simp only [PrefixDecoder.after, hafter]
      split
      · exact Function.update_of_ne (Ne.symm he) _ _
      · rfl

end CompressionAux

open CompressionAux

/-- Decompression is transparent. Writing out the prefix of every accepted body of a run changes no result; a written-out body
decodes to its Update under any state. A refused body leaves the state; an accepted one leaves its own prefix under the P flag,
whether or not its sub-TLVs make it ignored. The bodies of one encoding are decoded as if no others had been sent. -/
theorem decompression_transparent :
    (∀ (d : PrefixDecoder) (bodies : List (List UInt8)), d.calls (d.writeOut bodies) = d.calls bodies) ∧
    (∀ (d d' : PrefixDecoder) (body : List UInt8) (u : Update), (d.call body).1 = .ok u →
      (d'.call (writtenOut body u)).1 = .ok u) ∧
    (∀ (d : PrefixDecoder) (body : List UInt8) (e : UpdateError), (d.call body).1 = .error e → (d.call body).2 = d) ∧
    (∀ (d : PrefixDecoder) (body : List UInt8) (u : Update), (d.call body).1 = .ok u → (d.call body).2 = d.after body u) ∧
    (∀ (d d' : PrefixDecoder) (a : UInt8) (bodies : List (List UInt8)), d a = d' a →
      ((bodies.zip (d.calls bodies)).filter fun p => encodingOf p.1 = a).map Prod.snd =
        d'.calls (bodies.filter fun body => encodingOf body = a)) := by
  refine ⟨fun d bodies => ?_, fun d d' body u h => ?_, fun d body e h => ?_, fun d body u h => ?_,
    fun d d' a bodies ha => ?_⟩
  · induction bodies generalizing d with
    | nil => rfl
    | cons body rest ih =>
      simp only [PrefixDecoder.writeOut, PrefixDecoder.calls]
      have hcall := call_cases d body
      cases hr : verdict d body with
      | some e =>
        rw [hr] at hcall
        simp only [hcall, ih]
      | none =>
        rw [hr] at hcall
        simp only [hcall, call_writtenOut d hr, ih]
  · have hcall := call_cases d body
    cases hr : verdict d body with
    | some e => simp [hcall, hr] at h
    | none =>
      rw [hcall, hr] at h
      rw [← Except.ok.inj h, call_writtenOut d hr]
  · rw [call_cases] at h ⊢
    cases hr : verdict d body with
    | some e => rfl
    | none => simp [hr] at h
  · rw [call_cases] at h ⊢
    cases hr : verdict d body with
    | some e => simp [hr] at h
    | none =>
      rw [hr] at h
      rw [← Except.ok.inj h]
  · induction bodies generalizing d d' with
    | nil => rfl
    | cons body rest ih =>
      obtain ⟨hsame, hother⟩ := call_frame d ha body
      by_cases he : encodingOf body = a
      · obtain ⟨hres, hstate⟩ := hsame he
        simp only [PrefixDecoder.calls, List.zip_cons_cons, List.filter_cons, he, decide_true, if_true, List.map_cons, hres,
          ih _ _ hstate]
      · simp only [PrefixDecoder.calls, List.zip_cons_cons, List.filter_cons, he, decide_false, Bool.false_eq_true, if_false]
        exact ih _ _ ((hother he).trans ha)

/-- Under the IPv4 encoding: `10.99.1.1/32` with an unknown mandatory sub-TLV, `10.99.1.2/32` with three bytes left out, and a
length past the family. -/
def compressedBodies : List (List UInt8) :=
  [[1, 0x80, 32, 0, 1, 0x90, 0, 0, 0, 128, 10, 99, 1, 1, 200, 0], [1, 0, 32, 3, 1, 0x90, 0, 0, 0, 128, 2],
    [1, 0x80, 33, 0, 1, 0x90, 0, 0, 0, 128, 10, 99, 1, 1, 0]]

/-- The first is ignored and moves the state all the same, the second is written out whole, the third is refused. -/
theorem decompression_transparent_run :
    (PrefixDecoder.new.calls compressedBodies).map (fun r => r.toOption.map fun u => (u.addr, u.ignore)) =
        [some ([10, 99, 1, 1], true), some ([10, 99, 1, 2], false), none] ∧
      PrefixDecoder.new.writeOut compressedBodies =
        [[1, 0x80, 32, 0, 1, 0x90, 0, 0, 0, 128, 10, 99, 1, 1, 200, 0], [1, 0, 32, 0, 1, 0x90, 0, 0, 0, 128, 10, 99, 1, 2],
          [1, 0x80, 33, 0, 1, 0x90, 0, 0, 0, 128, 10, 99, 1, 1, 0]] ∧
      PrefixDecoder.new.calls (PrefixDecoder.new.writeOut compressedBodies) = PrefixDecoder.new.calls compressedBodies :=
  ⟨by decide +kernel, by decide +kernel, decompression_transparent.1 _ _⟩

end RanetLite.Babel
