import RanetLite.Ike.Responder

/-!
# Cookies

A cookie is one octet of version and a keyed hash. A secret is replaced only when it is older than a lifetime, and the one before it
is kept, so a cookie outlives its issue by a lifetime. What is hashed is the nonce, the SPI and the text of the endpoint without
their lengths, so attempts whose nonces differ in length can share a cookie.
-/

namespace RanetLite.Ike.Responder

open Bytes Netip

def decimal (n : Nat) : List UInt8 := (Nat.toDigits 10 n).map fun c => UInt8.ofNat c.toNat

/-- The text `netip` gives an IPv4 endpoint: four numbers with dots and the port after a colon. -/
def v4Text (a : BitVec 32) (port : UInt16) : List UInt8 :=
  decimal (a.extractLsb' 24 8).toNat ++ [0x2e] ++ decimal (a.extractLsb' 16 8).toNat ++ [0x2e] ++
    decimal (a.extractLsb' 8 8).toNat ++ [0x2e] ++ decimal (a.extractLsb' 0 8).toNat ++ [0x3a] ++ decimal port.toNat

/-- Endpoint texts for runs in which every address is an IPv4 one. -/
def endpointText : Endpoint → List UInt8
  | ⟨.v4 a, port⟩ => v4Text a port
  | _ => []

namespace CookiesAux

variable {mac : Secret → List UInt8 → List UInt8} {text : Endpoint → List UInt8} {w w' : World} {c c' : Call}

/-! ### The life of a secret -/

/-- A secret that was in use at a time is the current one, or the one before a secret that came later, or a lifetime has passed. -/
structure Kept (secret : Secret) (version : UInt8) (t : Int) (r : State) (clock : Int) : Prop where
  since : t ≤ clock
  kept : (r.cookieSecret = secret ∧ r.cookieVersion = version) ∨
    (r.previousSecret = secret ∧ r.previousValid = true ∧ r.cookieVersion = version + 1 ∧ t ≤ r.cookieRotated) ∨
    t + cookieLifetime < clock

variable {secret : Secret} {version : UInt8} {t clock : Int} {r : State}

/-- One call keeps the secret, or its own reading is a lifetime later. -/
theorem kept_rotate (h : Kept secret version t r clock) (hnow : clock ≤ c.now) (hstamp : c.now ≤ c.stamp)
    (hover : c.stamp ≤ c.ended) : Kept secret version t (rotate r c) c.ended := by
  obtain ⟨hsince, hkept⟩ := h
  refine ⟨by omega, ?_⟩
  unfold rotate
  rcases hkept with ⟨hsecret, hversion⟩ | ⟨hsecret, hvalid, hversion, hrotated⟩ | hgone
  · split_ifs
    · exact .inr (.inl ⟨hsecret, rfl, by dsimp only; rw [hversion], by show t ≤ c.stamp; omega⟩)
    · exact .inl ⟨hsecret, hversion⟩
  · split_ifs with hold
    · exact .inr (.inr (by omega))
    · exact .inr (.inl ⟨hsecret, hvalid, hversion, hrotated⟩)
  · exact .inr (.inr (by omega))

/-- The cookie of a challenge is the one of the secret in use. -/
theorem issued_eq {cookie : List UInt8} (h : (cookieRequired mac text r c).1 = some cookie) :
    cookie = cookieValue mac text (rotate r c).cookieSecret (rotate r c).cookieVersion c.attempt := by
  unfold cookieRequired at h
  dsimp only at h
  split_ifs at h
  exact (Option.some.inj h).symm

/-- Admissions and their ends leave the secrets alone. -/
theorem kept_enter (h : Kept secret version t w.responder w.clock) (g : Handshake) :
    Kept secret version t (applyEnter w g).responder (applyEnter w g).clock := by
  unfold applyEnter enterHalfOpen
  dsimp only
  split_ifs with hfull hok
  · exact h
  · exact h
  · exact ⟨h.since, h.kept⟩
  · exact h

theorem kept_move (h : Kept secret version t w.responder w.clock) (m : Move) (hen : (system mac text).enabled w m) :
    Kept secret version t ((system mac text).apply w m).responder ((system mac text).apply w m).clock := by
  cases m with
  | decide c =>
    show Kept secret version t (cookieRequired mac text w.responder c).2 c.ended
    rw [cookieRequired_state]
    exact kept_rotate h hen.1 hen.2.1 hen.2.2
  | enter g => exact kept_enter h g
  | leave g => exact ⟨h.since, h.kept⟩

/-- A cookie of a secret that is kept is accepted within a lifetime, also by a call that rotates. -/
theorem accepted_of_kept (h : Kept secret version t r clock) (hclock : clock ≤ c.now)
    (htime : c.now ≤ t + cookieLifetime) (a : Attempt) :
    cookieValue mac text secret version a ∈ acceptedCookies mac text (rotate r c) a := by
  obtain ⟨hsince, hkept⟩ := h
  unfold rotate acceptedCookies
  rcases hkept with ⟨rfl, rfl⟩ | ⟨rfl, hvalid, hversion, hrotated⟩ | hgone
  · split_ifs with hrotates hprevious
    · dsimp only
      rw [UInt8.add_sub_cancel]
      exact List.mem_cons_of_mem _ (List.mem_singleton_self _)
    · exact absurd rfl hprevious
    · exact List.mem_cons_self
    · exact List.mem_cons_self
  · rw [if_neg (by omega), if_pos hvalid, hversion, UInt8.add_sub_cancel]
    exact List.mem_cons_of_mem _ (List.mem_singleton_self _)
  · omega

/-- A request with a cookie that is accepted is not challenged. -/
theorem not_challenged {cookie : List UInt8} (hpresented : cookie ∈ presentedCookies c.payloads)
    (haccepted : cookie ∈ acceptedCookies mac text (rotate r c) c.attempt) : (cookieRequired mac text r c).1 = none := by
  have hpresents : presents mac text (rotate r c) c = true :=
    List.any_eq_true.2 ⟨cookie, hpresented, decide_eq_true haccepted⟩
  unfold cookieRequired
  dsimp only
  rw [hpresents, Bool.or_true, if_pos rfl]

/-! ### What is hashed -/

variable {a b : Attempt}

/-- Between nonces of one length what is hashed tells the three parts apart. -/
theorem cookieInput_inj (hlen : a.ni.length = b.ni.length) (htext : text a.endpoint = text b.endpoint → a.endpoint = b.endpoint)
    (h : cookieInput text a = cookieInput text b) : a = b := by
  obtain ⟨hni, hrest⟩ := List.append_inj h hlen
  obtain ⟨hspi, hend⟩ := List.append_inj hrest (by rw [length_toBytes, length_toBytes])
  have hword := congrArg (ofBytes 64) hspi
  rw [ofBytes_toBytes _ rfl, ofBytes_toBytes _ rfl] at hword
  obtain ⟨ni, spiI, endpoint⟩ := a
  obtain ⟨ni', spiI', endpoint'⟩ := b
  obtain rfl : ni = ni' := hni
  obtain rfl : endpoint = endpoint' := htext hend
  obtain rfl : spiI = spiI' := UInt64.toBitVec_inj.1 hword
  rfl

theorem input_of_mem_accepted (hmac : ∀ k k' m m', mac k m = mac k' m' → m = m') {k : Secret} {v : UInt8}
    (h : cookieValue mac text k v a ∈ acceptedCookies mac text r b) : cookieInput text a = cookieInput text b := by
  have hequal : ∀ {k' : Secret} {v' : UInt8}, cookieValue mac text k v a = cookieValue mac text k' v' b →
      cookieInput text a = cookieInput text b := fun heq => hmac _ _ _ _ (List.cons.inj heq).2
  unfold acceptedCookies at h
  rcases List.mem_cons.1 h with h | h
  · exact hequal h
  · split_ifs at h
    · exact hequal (List.mem_singleton.1 h)
    · exact (List.not_mem_nil h).elim

theorem cookieValue_eq (h : cookieInput text a = cookieInput text b) (k : Secret) (v : UInt8) :
    cookieValue mac text k v a = cookieValue mac text k v b := by
  rw [cookieValue, cookieValue, h]

end CookiesAux

open CookiesAux

/-- A cookie that a challenge hands out is accepted for the same attempt at any time within a lifetime of the challenge, whatever
the handshakes in between do and whether or not the secret is replaced, by them or by the call that brings the cookie back. -/
theorem cookie_lives {mac : Secret → List UInt8 → List UInt8} {text : Endpoint → List UInt8} {w w' : World} {c c' : Call}
    {cookie : List UInt8} (hissued : (cookieRequired mac text w.responder c).1 = some cookie)
    (hrun : (system mac text).Run ((system mac text).apply w (.decide c)) w')
    (hcall' : (system mac text).enabled w' (.decide c')) (hattempt : c'.attempt = c.attempt)
    (hecho : cookie ∈ presentedCookies c'.payloads) (htime : c'.now ≤ c.ended + cookieLifetime) :
    (cookieRequired mac text w'.responder c').1 = none := by
  have hissue : Kept (rotate w.responder c).cookieSecret (rotate w.responder c).cookieVersion c.ended
      ((system mac text).apply w (.decide c)).responder ((system mac text).apply w (.decide c)).clock := by
    show Kept _ _ _ (cookieRequired mac text w.responder c).2 c.ended
    rw [cookieRequired_state]
    exact ⟨le_rfl, .inl ⟨rfl, rfl⟩⟩
  have hkept := hrun.invariant
    (P := fun v => Kept (rotate w.responder c).cookieSecret (rotate w.responder c).cookieVersion c.ended v.responder v.clock)
    hissue fun v m hv hen => kept_move hv m hen
  refine not_challenged hecho ?_
  rw [issued_eq hissued, hattempt]
  exact accepted_of_kept hkept hcall'.1 htime _

/-- A request without a cookie, all of whose readings of the clock agree. -/
def bareCall (a : Attempt) (t : Int) : Call := { payloads := [], attempt := a, now := t, stamp := t, next := 5, ended := t }

/-- The request of an attempt with a cookie. -/
def echoCall (cookie : List UInt8) (a : Attempt) (t : Int) : Call :=
  { bareCall a t with payloads := notifyPayload notifyCookie cookie }

/-- What takes one of the slots of the address of an attempt. -/
def slotFor (a : Attempt) : Handshake := ⟨a.endpoint.addr, false, 0⟩

def leftAttempt : Attempt := ⟨List.replicate 16 7, 1, ⟨.v4 0x0b020304#32, 500⟩⟩

-- The cookie comes back two seconds after its issue, in a call that replaces the secret it was made with.
theorem cookie_lives_rotated : ∃ w cookie, (system (fun _ m => m) fun _ => []).Run (start 3 0) w ∧
    (cookieRequired (fun _ m => m) (fun _ => []) w.responder (bareCall leftAttempt 119000000000)).1 = some cookie ∧
    (cookieRequired (fun _ m => m) (fun _ => [])
      (applyDecide (fun _ m => m) (fun _ => []) w (bareCall leftAttempt 119000000000)).responder
      (echoCall cookie leftAttempt 121000000000)).1 = none := by
  have hplayed : ∃ w, (system (fun _ m => m) fun _ => []).Run (start 3 0) w ∧
      ((cookieRequired (fun _ m => m) (fun _ => []) w.responder (bareCall leftAttempt 119000000000)).1 =
        some (0 :: (List.replicate 16 7 ++ [0, 0, 0, 0, 0, 0, 0, 1])) ∧
      (system (fun _ m => m) fun _ => []).enabled
        ((system (fun _ m => m) fun _ => []).apply w (.decide (bareCall leftAttempt 119000000000)))
        (.decide (echoCall (0 :: (List.replicate 16 7 ++ [0, 0, 0, 0, 0, 0, 0, 1])) leftAttempt 121000000000))) :=
    Moves.System.exists_run [.decide (bareCall leftAttempt 0), .decide (bareCall leftAttempt 0), .enter (slotFor leftAttempt),
      .enter (slotFor leftAttempt)] (by decide +kernel)
  obtain ⟨w, hrun, hissued, hcall'⟩ := hplayed
  exact ⟨w, _, hrun, hissued, cookie_lives hissued .refl hcall' rfl (by decide +kernel) (by decide)⟩

/-- With a keyed hash without collisions, a cookie for one attempt is accepted for another, in some state or other, exactly when the
two hash one byte string; attempts whose nonces have one length never do. -/
theorem cookie_bound (mac : Secret → List UInt8 → List UInt8) (hmac : ∀ k k' m m', mac k m = mac k' m' → m = m')
    (text : Endpoint → List UInt8) {a b : Attempt} (htext : text a.endpoint = text b.endpoint → a.endpoint = b.endpoint)
    (hne : a ≠ b) :
    ((∀ r r' : State, cookieValue mac text r.cookieSecret r.cookieVersion a ∉ acceptedCookies mac text r' b) ↔
      cookieInput text a ≠ cookieInput text b) ∧
    (a.ni.length = b.ni.length → cookieInput text a ≠ cookieInput text b) := by
  refine ⟨⟨fun hnever heq => ?_, fun hinput r r' h => hinput (input_of_mem_accepted hmac h)⟩, fun hlen heq => ?_⟩
  · refine hnever (new 0 0) (new 0 0) ?_
    rw [cookieValue_eq heq]
    exact List.mem_cons_self
  · exact hne (cookieInput_inj hlen htext heq)

theorem cookie_bound_lengths : leftAttempt ≠ { leftAttempt with spiI := 2 } ∧
    ∀ r r' : State, cookieValue (fun _ m => m) (fun _ => []) r.cookieSecret r.cookieVersion leftAttempt ∉
      acceptedCookies (fun _ m => m) (fun _ => []) r' { leftAttempt with spiI := 2 } :=
  have h := cookie_bound (fun _ m => m) (fun _ _ _ _ h => h) (fun _ => []) (a := leftAttempt)
    (b := { leftAttempt with spiI := 2 }) (fun _ => rfl) (by decide)
  ⟨by decide, h.1.2 (h.2 rfl)⟩

/-- An attempt from another address that hashes the same bytes: the first octet of the SPI is the last of the nonce, and the first
digit of the address the last octet of the SPI. -/
def rightAttempt : Attempt := ⟨List.replicate 16 7 ++ [0], 0x0000000000000131, ⟨.v4 0x01020304#32, 500⟩⟩

/-- Two slots of each of the two addresses are taken, so both are challenged; the cookie of the challenge to the first is accepted
from the second. -/
theorem cookie_replayed : leftAttempt.endpoint.addr ≠ rightAttempt.endpoint.addr ∧ ∃ w cookie,
    (system (fun _ m => m) endpointText).Run (start 3 0) w ∧
    (cookieRequired (fun _ m => m) endpointText w.responder (bareCall leftAttempt 1)).1 = some cookie ∧
    (cookieRequired (fun _ m => m) endpointText w.responder (bareCall rightAttempt 1)).1 ≠ none ∧
    (cookieRequired (fun _ m => m) endpointText w.responder (echoCall cookie rightAttempt 1)).1 = none := by
  have hplayed : ∃ w, (system (fun _ m => m) endpointText).Run (start 3 0) w ∧
      ((cookieRequired (fun _ m => m) endpointText w.responder (bareCall leftAttempt 1)).1 =
        some (cookieValue (fun _ m => m) endpointText 3 0 leftAttempt) ∧
      (cookieRequired (fun _ m => m) endpointText w.responder (bareCall rightAttempt 1)).1 ≠ none ∧
      (cookieRequired (fun _ m => m) endpointText w.responder
        (echoCall (cookieValue (fun _ m => m) endpointText 3 0 leftAttempt) rightAttempt 1)).1 = none) :=
    Moves.System.exists_run [.decide (bareCall leftAttempt 0), .decide (bareCall leftAttempt 0),
      .decide (bareCall rightAttempt 0), .decide (bareCall rightAttempt 0), .enter (slotFor leftAttempt),
      .enter (slotFor leftAttempt), .enter (slotFor rightAttempt), .enter (slotFor rightAttempt)] (by decide +kernel)
  obtain ⟨w, hrun, hissued, hpressed, haccepted⟩ := hplayed
  exact ⟨by decide, w, _, hrun, hissued, hpressed, haccepted⟩

end RanetLite.Ike.Responder
