import RanetLite.Ike.Context
import RanetLite.Theorems.Encrypted

/-!
# Local Message IDs

Every request on the wire carries an ID below the counter, so a request that takes the counter's value is the only one to carry it, as
long as the counter does not wrap. `startRequest` stops short of the last value. `sendUnansweredRequest` does not look: called there,
it sends under the last value and the counter starts again at zero.
-/

namespace RanetLite.Ike

open Bytes Moves

/-- The Message ID a message on the wire carries. -/
def messageID (raw : List UInt8) : Option UInt32 := (decodeHeader raw).toOption.map Header.messageID

namespace Requests

/-- No two different requests carry one ID. -/
def Distinct (wire : List (List UInt8)) : Prop := ∀ a ∈ wire, ∀ b ∈ wire, messageID a = messageID b → a = b

/-- A context that can encrypt: its IVs are not used up, and its transform takes a key of the length it has. -/
def Encrypts (ctx : IkeContext) : Prop :=
  ctx.sendIV + 1 ≠ 0 ∧ (aeadParams ctx.suite.encrID ctx.suite.encrKeyBits).toOption.any
    (fun ap => ctx.localEncryptionKey.length = ap.keyLen + ap.saltLen) = true

instance (ctx : IkeContext) : Decidable (Encrypts ctx) := inferInstanceAs (Decidable (ctx.sendIV + 1 ≠ 0 ∧ _ = true))

/-- No unanswered request is sent by a context that can encrypt and whose counter is at its last value. -/
def Spared (s : Requests) : Move → Prop
  | .unanswered .. => s.ctx.nextLocalMID = maxMessageID → ¬Encrypts s.ctx
  | _ => True

instance (s : Requests) : (m : Move) → Decidable (Spared s m)
  | .start .. => isTrue trivial
  | .retransmit .. => isTrue trivial
  | .unanswered .. => inferInstanceAs (Decidable (s.ctx.nextLocalMID = maxMessageID → ¬Encrypts s.ctx))
  | .respond .. => isTrue trivial
  | .replace => isTrue trivial

namespace MessageIDsAux

open EncryptedAux MessagesAux MessageAux

variable (newAEAD : UInt16 → List UInt8 → Aead)

/-- What encryption can do: it takes an IV, and builds a message that carries its header exactly when the context can encrypt. -/
theorem encrypt_cases (ctx : IkeContext) (hdr : Header) (inner : List RawPayload) :
    (∃ e, ctx.encrypt newAEAD hdr inner = ({ ctx with sendIV := ctx.sendIV + 1 }, .error e) ∧ ¬Encrypts ctx) ∨
      ∃ raw h, ctx.encrypt newAEAD hdr inner = ({ ctx with sendIV := ctx.sendIV + 1 }, .ok raw) ∧ Encrypts ctx ∧
        decodeHeader raw = .ok h ∧ h.messageID = hdr.messageID ∧ h.exchangeType = hdr.exchangeType := by
  rw [IkeContext.encrypt, Encrypts]
  dsimp only
  by_cases hiv : ctx.sendIV + 1 = 0
  · rw [if_pos hiv]
    exact .inl ⟨_, rfl, fun h => h.1 hiv⟩
  · rw [if_neg hiv, encryptMessageIV, encryptMessagePlaintextIV]
    cases hap : aeadParams ctx.suite.encrID ctx.suite.encrKeyBits with
    | error e => exact .inl ⟨_, rfl, fun h => by cases h.2⟩
    | ok ap =>
      have hlocal : ({ ctx with sendIV := ctx.sendIV + 1 } : IkeContext).localEncryptionKey = ctx.localEncryptionKey := rfl
      dsimp only
      rw [hlocal]
      by_cases hkey : ctx.localEncryptionKey.length = ap.keyLen + ap.saltLen
      · rw [if_neg (not_not.mpr hkey), if_neg (not_not.mpr (by rw [length_toBytes, (aeadParams_lengths hap).2])), sentAAD]
        dsimp only
        rw [List.append_assoc]
        exact .inr ⟨_, _, rfl, ⟨hiv, decide_eq_true hkey⟩, decodeHeader_encode _ _, rfl, rfl⟩
      · rw [if_pos hkey]
        exact .inl ⟨_, rfl, fun h => hkey (of_decide_eq_true h.2)⟩

/-- What `startRequest` can do: nothing but take an IV, or send a message under the counter's value and move the counter. -/
theorem startRequest_cases (ctx : IkeContext) (retired : Bool) (req : LocalRequest) (failure : Option String) :
    (∃ e iv, ctx.startRequest newAEAD retired req failure = ({ ctx with sendIV := iv }, .error e)) ∨
      ∃ raw iv, ctx.startRequest newAEAD retired req failure =
          ({ ctx with sendIV := iv, nextLocalMID := ctx.nextLocalMID + 1 }, .ok ⟨req, ctx.nextLocalMID, raw⟩) ∧
        failure = none ∧ ctx.nextLocalMID ≠ maxMessageID ∧ messageID raw = some ctx.nextLocalMID := by
  rw [IkeContext.startRequest]
  by_cases hchanged : req.exchange = createChildSA ∧ retired = true
  · rw [if_pos hchanged]
    exact .inl ⟨_, ctx.sendIV, rfl⟩
  · rw [if_neg hchanged]
    by_cases hmax : ctx.nextLocalMID = maxMessageID
    · rw [if_pos hmax]
      exact .inl ⟨_, ctx.sendIV, rfl⟩
    · rw [if_neg hmax]
      dsimp only
      rcases encrypt_cases newAEAD ctx (ctx.header 0 req.exchange ctx.nextLocalMID) req.inner with
        ⟨e, he, -⟩ | ⟨raw, h, he, -, hd, hid, -⟩ <;> rw [he]
      · exact .inl ⟨_, _, rfl⟩
      · cases failure with
        | some err => exact .inl ⟨_, _, rfl⟩
        | none => exact .inr ⟨raw, _, rfl, rfl, hmax, by rw [messageID, hd]; exact congrArg some hid⟩

/-- What `sendUnansweredRequest` can do: the same, but for the look at the counter. -/
theorem sendUnansweredRequest_cases (ctx : IkeContext) (inner : List RawPayload) :
    (∃ e iv, ctx.sendUnansweredRequest newAEAD inner = ({ ctx with sendIV := iv }, .error e) ∧ ¬Encrypts ctx) ∨
      ∃ raw iv, ctx.sendUnansweredRequest newAEAD inner =
          ({ ctx with sendIV := iv, nextLocalMID := ctx.nextLocalMID + 1 }, .ok raw) ∧ Encrypts ctx ∧
        messageID raw = some ctx.nextLocalMID := by
  rw [IkeContext.sendUnansweredRequest]
  rcases encrypt_cases newAEAD ctx (ctx.header 0 informational ctx.nextLocalMID) inner with
    ⟨e, he, hunable⟩ | ⟨raw, h, he, hable, hd, hid, -⟩ <;> rw [he]
  · exact .inl ⟨_, _, rfl, hunable⟩
  · exact .inr ⟨raw, _, rfl, hable, by rw [messageID, hd]; exact congrArg some hid⟩

theorem response_ctx (ctx : IkeContext) (msgID : UInt32) (exchange : UInt8) (inner : List RawPayload) :
    (ctx.response newAEAD msgID exchange inner).1 = { ctx with sendIV := ctx.sendIV + 1 } := by
  rw [IkeContext.response]
  rcases encrypt_cases newAEAD ctx (ctx.header flagResponse exchange msgID) inner with ⟨e, he, -⟩ | ⟨raw, h, he, -⟩ <;>
    rw [he]

variable {newAEAD} {s : Requests}

theorem toNat_succ {n : UInt32} (h : n ≠ maxMessageID) : (n + 1).toNat = n.toNat + 1 := by
  have hne : n.toNat ≠ 4294967295 := fun hn => h (UInt32.toNat_inj.mp hn)
  have hlt := n.toNat_lt
  simp only [UInt32.toNat_add, UInt32.reduceToNat]
  omega

/-- The IDs on the wire are below the counter and each is carried by one request; what may be retransmitted is on the wire. -/
structure Counted (s : Requests) : Prop where
  below : ∀ raw ∈ s.wire, ∃ id, messageID raw = some id ∧ id < s.ctx.nextLocalMID
  distinct : Distinct s.wire
  pending : ∀ p ∈ s.pending, p.raw ∈ s.wire

/-- The invariant depends on the context through its counter alone. -/
theorem Counted.of_counter (h : Counted s) {s' : Requests} (hwire : s'.wire = s.wire) (hpending : s'.pending = s.pending)
    (hnext : s'.ctx.nextLocalMID = s.ctx.nextLocalMID) : Counted s' where
  below := by rw [hwire, hnext]; exact h.below
  distinct := by rw [hwire]; exact h.distinct
  pending := by rw [hpending, hwire]; exact h.pending

/-- A request under the counter's value is a new one, and stays below the counter when that moves without wrapping. -/
theorem Counted.take (h : Counted s) {raw : List UInt8} (hid : messageID raw = some s.ctx.nextLocalMID)
    (hmax : s.ctx.nextLocalMID ≠ maxMessageID) {s' : Requests} (hnext : s'.ctx.nextLocalMID = s.ctx.nextLocalMID + 1)
    (failure : Option String) (hwire : s'.wire = s.transmit raw failure) (hpending : ∀ p ∈ s'.pending, p.raw ∈ s'.wire) :
    Counted s' := by
  have hsucc := toNat_succ hmax
  have hold : ∀ a ∈ s.wire, ∃ id, messageID a = some id ∧ id < s'.ctx.nextLocalMID := fun a ha => by
    obtain ⟨id, hid', hlt⟩ := h.below a ha
    exact ⟨id, hid', by rw [hnext, UInt32.lt_iff_toNat_lt, hsucc]; have := UInt32.lt_iff_toNat_lt.mp hlt; omega⟩
  have hnew : ∀ a ∈ s.wire, messageID a ≠ messageID raw := fun a ha heq => by
    obtain ⟨id, hid', hlt⟩ := h.below a ha
    rw [hid', hid] at heq
    rw [Option.some.inj heq] at hlt
    exact absurd hlt (UInt32.lt_irrefl _)
  rw [transmit] at hwire
  cases failure with
  | some err =>
    rw [Option.isSome_some, if_pos rfl] at hwire
    exact ⟨by rw [hwire]; exact hold, by rw [hwire]; exact h.distinct, hpending⟩
  | none =>
    rw [if_neg (by simp)] at hwire
    refine ⟨?_, ?_, hpending⟩
    · intro a ha
      rw [hwire] at ha
      rcases List.mem_cons.mp ha with rfl | ha
      · exact ⟨_, hid, by rw [hnext, UInt32.lt_iff_toNat_lt, hsucc]; omega⟩
      · exact hold a ha
    · intro a ha b hb heq
      rw [hwire] at ha hb
      rcases List.mem_cons.mp ha with rfl | ha' <;> rcases List.mem_cons.mp hb with rfl | hb'
      · rfl
      · exact absurd heq.symm (hnew b hb')
      · exact absurd heq (hnew a ha')
      · exact h.distinct a ha' b hb' heq

/-- Every move but an unanswered request at the counter's last value keeps the invariant. -/
theorem Counted.move (h : Counted s) {m : Move} (hen : (system newAEAD).enabled s m) (hspared : Spared s m) :
    Counted ((system newAEAD).apply s m) := by
  cases m with
  | start req failure =>
    simp only [system]
    rcases startRequest_cases newAEAD s.ctx (!s.current) req failure with ⟨e, iv, he⟩ | ⟨raw, iv, he, rfl, hmax, hid⟩ <;>
      rw [he]
    · exact h.of_counter rfl rfl rfl
    · refine h.take hid hmax rfl none rfl fun p hp => ?_
      rcases List.mem_cons.mp hp with rfl | hp
      · exact List.mem_cons_self
      · exact List.mem_cons_of_mem _ (h.pending p hp)
  | retransmit request failure =>
    -- Its bytes are on the wire already.
    have hmem := h.pending request hen
    cases failure with
    | some err => exact h.of_counter rfl rfl rfl
    | none =>
      have hsame : ∀ a, a ∈ request.raw :: s.wire ↔ a ∈ s.wire := fun a =>
        ⟨fun ha => (List.mem_cons.mp ha).elim (fun heq => heq ▸ hmem) id, List.mem_cons_of_mem _⟩
      exact ⟨fun a ha => h.below a ((hsame a).mp ha),
        fun a ha b hb => h.distinct a ((hsame a).mp ha) b ((hsame b).mp hb), fun p hp => (hsame _).mpr (h.pending p hp)⟩
  | unanswered inner failure =>
    simp only [system]
    rcases sendUnansweredRequest_cases newAEAD s.ctx inner with ⟨e, iv, he, -⟩ | ⟨raw, iv, he, hable, hid⟩ <;> rw [he]
    · exact h.of_counter rfl rfl rfl
    · refine h.take hid (fun hmax => hspared hmax hable) rfl failure rfl fun p hp => ?_
      have := h.pending p hp
      cases failure with
      | some err => exact this
      | none => exact List.mem_cons_of_mem _ this
  | respond msgID exchange inner => exact h.of_counter rfl rfl (by simp only [system]; rw [response_ctx newAEAD])
  | replace => exact h.of_counter rfl rfl rfl

/-- A move wraps the counter exactly when it is an unanswered request of a context that can encrypt, at its last value. -/
theorem counter_move (s : Requests) (m : Move) :
    s.ctx.nextLocalMID ≤ ((system newAEAD).apply s m).ctx.nextLocalMID ↔ Spared s m := by
  have hup : s.ctx.nextLocalMID ≠ maxMessageID → s.ctx.nextLocalMID ≤ s.ctx.nextLocalMID + 1 := fun hmax => by
    rw [UInt32.le_iff_toNat_le, toNat_succ hmax]
    omega
  cases m with
  | start req failure =>
    simp only [system, Spared, iff_true]
    rcases startRequest_cases newAEAD s.ctx (!s.current) req failure with ⟨e, iv, he⟩ | ⟨raw, iv, he, -, hmax, -⟩ <;> rw [he]
    · exact UInt32.le_refl _
    · exact hup hmax
  | retransmit request failure => exact iff_of_true (UInt32.le_refl _) trivial
  | unanswered inner failure =>
    simp only [system, Spared]
    rcases sendUnansweredRequest_cases newAEAD s.ctx inner with ⟨e, iv, he, hunable⟩ | ⟨raw, iv, he, hable, -⟩ <;> rw [he]
    · exact iff_of_true (UInt32.le_refl _) fun _ => hunable
    · by_cases hmax : s.ctx.nextLocalMID = maxMessageID
      · refine iff_of_false ?_ fun h => h hmax hable
        dsimp only
        rw [hmax]
        decide
      · exact iff_of_true (hup hmax) fun h => absurd h hmax
  | respond msgID exchange inner =>
    simp only [system, Spared, iff_true]
    rw [response_ctx newAEAD]
    exact UInt32.le_refl _
  | replace => exact iff_of_true (UInt32.le_refl _) trivial

end MessageIDsAux

open MessageIDsAux

/-- In every run in which no context that can encrypt sends an unanswered request at the counter's last value, no two different requests
on the wire carry one Message ID. A move wraps the counter exactly when it is such a request. -/
theorem message_ids_unique_iff (newAEAD : UInt16 → List UInt8 → Aead) (ctx : IkeContext) :
    (∀ s, ((system newAEAD).restrict Spared).Run { ctx := ctx } s → Distinct s.wire) ∧
      ∀ s m, s.ctx.nextLocalMID ≤ ((system newAEAD).apply s m).ctx.nextLocalMID ↔ Spared s m := by
  refine ⟨fun s hrun => ?_, counter_move⟩
  have hstart : Counted { ctx := ctx } := ⟨by simp, by simp [Distinct], by simp⟩
  exact (System.Run.invariant hrun hstart fun s m hs hen => hs.move hen.1 hen.2).distinct

/-- A context that encrypts with AES-GCM, after a number of requests. -/
def gcmContext (n : Nat) : IkeContext where
  suite := gcmSuite
  skei := gcmKey
  sker := gcmKey
  spiI := 1
  spiR := 2
  sendIV := UInt64.ofNat n
  nextLocalMID := UInt32.ofNat n

/-- A request of the kind a number says: every one but the first is a probe. -/
def requestNumber : Nat → LocalRequest
  | 0 => ⟨createChildSA, []⟩
  | _ + 1 => ⟨informational, []⟩

namespace MessageIDsAux

theorem encrypt_gcm {ctx : IkeContext} (hsuite : ctx.suite = gcmSuite) (hkey : ctx.localEncryptionKey = gcmKey) (hiv : ctx.sendIV + 1 ≠ 0)
    (hdr : Header) (inner : List RawPayload) : ∃ raw h, ctx.encrypt (fun _ _ => clearAEAD) hdr inner =
      ({ ctx with sendIV := ctx.sendIV + 1 }, .ok raw) ∧ decodeHeader raw = .ok h ∧ h.messageID = hdr.messageID ∧
        h.exchangeType = hdr.exchangeType := by
  have hable : Encrypts ctx := ⟨hiv, by rw [hsuite, hkey]; decide⟩
  rcases encrypt_cases (fun _ _ => clearAEAD) ctx hdr inner with ⟨e, -, hunable⟩ | ⟨raw, h, he, -, hrest⟩
  · exact absurd hable hunable
  · exact ⟨raw, h, he, hrest⟩

/-- Any number of requests below the counter's last value can be sent one after the other. -/
theorem run_requests (n : Nat) (hn : n < 4294967296) :
    ∃ s, (system fun _ _ => clearAEAD).Run { ctx := gcmContext 0 } s ∧ s.current = true ∧ s.ctx = gcmContext n ∧
      (0 < n → ∃ raw ∈ s.wire, ∃ h, decodeHeader raw = .ok h ∧ h.messageID = 0 ∧ h.exchangeType = createChildSA) := by
  induction n with
  | zero => exact ⟨_, .refl, rfl, rfl, fun h => absurd h (by simp)⟩
  | succ n ih =>
    obtain ⟨s, hrun, hcurrent, hctx, hfirst⟩ := ih (by omega)
    have hnext : s.ctx.nextLocalMID = UInt32.ofNat n := by rw [hctx]; rfl
    have hsend : s.ctx.sendIV = UInt64.ofNat n := by rw [hctx]; rfl
    have hmax : s.ctx.nextLocalMID ≠ maxMessageID := fun h => by
      have := congrArg UInt32.toNat (hnext ▸ h)
      rw [UInt32.toNat_ofNat_of_lt' (by simp only [UInt32.size]; omega)] at this
      simp only [maxMessageID, UInt32.reduceToNat] at this
      omega
    have hiv : s.ctx.sendIV + 1 ≠ 0 := fun h => by
      have := congrArg UInt64.toNat h
      rw [hsend, UInt64.toNat_add, UInt64.toNat_ofNat_of_lt' (by simp only [UInt64.size]; omega)] at this
      simp only [UInt64.reduceToNat] at this
      omega
    obtain ⟨raw, h, henc, hd, hid, hex⟩ := encrypt_gcm (by rw [hctx]; rfl) (by rw [hctx]; rfl) hiv
      (s.ctx.header 0 (requestNumber n).exchange s.ctx.nextLocalMID) (requestNumber n).inner
    have hstart : s.ctx.startRequest (fun _ _ => clearAEAD) (!s.current) (requestNumber n) none =
        ({ s.ctx with sendIV := s.ctx.sendIV + 1, nextLocalMID := s.ctx.nextLocalMID + 1 },
          .ok ⟨requestNumber n, s.ctx.nextLocalMID, raw⟩) := by
      rw [IkeContext.startRequest, if_neg (by simp [hcurrent]), if_neg hmax]
      dsimp only
      rw [henc]
    refine ⟨_, hrun.tail ⟨.start (requestNumber n) none, trivial, rfl⟩, ?_⟩
    simp only [system]
    rw [hstart]
    refine ⟨hcurrent, ?_, fun _ => ?_⟩
    · simp only [hctx, gcmContext, UInt64.ofNat_add, UInt32.ofNat_add]
      rfl
    · rcases Nat.eq_zero_or_pos n with rfl | hpos
      · refine ⟨raw, List.mem_cons_self, h, hd, ?_, hex⟩
        rw [hid]
        exact hnext
      · obtain ⟨first, hmem, hfirst⟩ := hfirst hpos
        exact ⟨first, List.mem_cons_of_mem _ hmem, hfirst⟩

/-- An unanswered request always goes out of a context with IVs left. -/
theorem run_unanswered {s0 s : Requests} (hrun : (system fun _ _ => clearAEAD).Run s0 s) (hcurrent : s.current = true)
    (hsuite : s.ctx.suite = gcmSuite) (hkey : s.ctx.localEncryptionKey = gcmKey) (hiv : s.ctx.sendIV + 1 ≠ 0) :
    ∃ s' raw h, (system fun _ _ => clearAEAD).Run s0 s' ∧
      s' = { s with ctx := { s.ctx with sendIV := s.ctx.sendIV + 1, nextLocalMID := s.ctx.nextLocalMID + 1 }, wire := raw :: s.wire } ∧
      decodeHeader raw = .ok h ∧ h.messageID = s.ctx.nextLocalMID ∧ h.exchangeType = informational := by
  obtain ⟨raw, h, henc, hd, hid, hex⟩ := encrypt_gcm hsuite hkey hiv (s.ctx.header 0 informational s.ctx.nextLocalMID) []
  refine ⟨_, raw, h, hrun.tail ⟨.unanswered [] none, hcurrent, rfl⟩, ?_, hd, hid, hex⟩
  simp only [system]
  rw [IkeContext.sendUnansweredRequest, henc]
  rfl

end MessageIDsAux

/-- A context that has sent all the requests `startRequest` allows and then two unanswered ones has wrapped its counter and used an ID
for two different requests. -/
theorem message_id_reused : ∃ s, (system fun _ _ => clearAEAD).Run { ctx := gcmContext 0 } s ∧
    s.ctx.nextLocalMID = 1 ∧ ¬Distinct s.wire := by
  obtain ⟨s, hrun, hcurrent, hctx, hfirst⟩ := run_requests 4294967295 (by omega)
  obtain ⟨first, hmem, h, hd, hid, hex⟩ := hfirst (by omega)
  obtain ⟨s1, last, h1, hrun1, hs1, -⟩ := run_unanswered hrun hcurrent (by rw [hctx]; rfl) (by rw [hctx]; rfl) (by rw [hctx]; decide)
  have hctx1 : s1.ctx = { gcmContext 0 with sendIV := 4294967296 } := by
    rw [hs1]
    dsimp only
    rw [hctx]
    decide
  have hcurrent1 : s1.current = true := by rw [hs1]; exact hcurrent
  obtain ⟨s2, again, h2, hrun2, hs2, hd2, hid2, hex2⟩ := run_unanswered hrun1 hcurrent1 (by rw [hctx1]; rfl) (by rw [hctx1]; rfl)
    (by rw [hctx1]; decide)
  refine ⟨s2, hrun2, ?_, fun hdistinct => ?_⟩
  · rw [hs2, hctx1]
    rfl
  · have hsame : again = first := by
      refine hdistinct again (by rw [hs2]; exact List.mem_cons_self) first ?_ ?_
      · rw [hs2, hs1]
        exact List.mem_cons_of_mem _ (List.mem_cons_of_mem _ hmem)
      · rw [messageID, messageID, hd, hd2]
        simp only [Except.toOption, Option.map_some]
        rw [hid, hid2, hctx1]
        rfl
    rw [hsame, hd] at hd2
    rw [← Except.ok.inj hd2, hex] at hex2
    exact absurd hex2 (by decide)

/-- What a request puts on the wire after one send of it has failed. -/
def retried : PendingRequest :=
  (IkeContext.startRequest (fun _ _ => clearAEAD) { gcmContext 0 with sendIV := 1 } false (requestNumber 0) none).2.toOption.getD
    ⟨requestNumber 0, 0, []⟩

/-- A request whose first send failed, the same one again, a retransmission and an unanswered one: three messages, two IDs. -/
theorem message_ids_unique_retry : ∃ s, (system fun _ _ => clearAEAD).Run { ctx := gcmContext 0 } s ∧ s.wire.length = 3 ∧
    s.ctx.nextLocalMID = 2 ∧ Distinct s.wire := by
  have hplay : ∃ s, ((system fun _ _ => clearAEAD).restrict Spared).Run { ctx := gcmContext 0 } s ∧
      s.wire.length = 3 ∧ s.ctx.nextLocalMID = 2 :=
    System.exists_run [.start (requestNumber 0) (some "network is unreachable"), .start (requestNumber 0) none,
      .retransmit retried none, .unanswered [] none] (by decide +kernel)
  obtain ⟨s, hrun, hlen, hnext⟩ := hplay
  exact ⟨s, hrun.of_restrict, hlen, hnext, (message_ids_unique_iff _ _).1 s hrun⟩

end Requests
end RanetLite.Ike
