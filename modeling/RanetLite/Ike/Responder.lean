import RanetLite.Ike.Message
import RanetLite.Lib.Moves
import RanetLite.Netip

/-!
# The responder before authentication

`cookieRequired`, `cookieValue`, `enterHalfOpen` and `leaveHalfOpen` of `ike/responder.go`, and the handshakes that call them. A
handshake takes the responder's lock three times: for its cookie decision, to be admitted, and when it ends; what it does in between
reads nothing they write. So a system of handshakes is a system of these three moves, in any order. Times are nanoseconds in `Int`.
The keyed hash and the text of an endpoint are parameters. `rand.Read` never fails in the Go version the repository requires.
-/

namespace RanetLite.Ike

open Bytes Netip

def payloadN : UInt8 := 41

/-- `EncodeNotify` of a notify with no protocol and no SPI. -/
def encodeNotify (type : UInt16) (data : List UInt8) : List UInt8 := 0 :: 0 :: (toBytes type.toBitVec ++ data)

/-- A Notify payload, as the cookie of a challenge goes out and comes back. -/
def notifyPayload (type : UInt16) (data : List UInt8) : List RawPayload := [{ type := payloadN, body := encodeNotify type data }]

/-- `Notify`. -/
structure Notify where
  protocol : UInt8
  spi : List UInt8
  type : UInt16
  data : List UInt8
deriving DecidableEq, Repr

/-- Why a Notify payload does not decode. -/
inductive NotifyError where
  | short
  | truncatedSPI
deriving DecidableEq, Repr

/-- The text of the error. -/
def NotifyError.text : NotifyError → String
  | short => "ike: short notify payload"
  | truncatedSPI => "ike: notify SPI truncated"

/-- `DecodeNotify`. -/
def decodeNotify (body : List UInt8) : Except NotifyError Notify :=
  if body.length < 4 then .error .short
  else
    let spiSize := (body.getD 1 0).toNat
    if body.length < 4 + spiSize then .error .truncatedSPI
    else .ok ⟨body.getD 0 0, (body.drop 4).take spiSize, ⟨wordAt 16 body 2⟩, body.drop (4 + spiSize)⟩

def notifyCookie : UInt16 := 16390

namespace Responder

def cookieThreshold : Nat := 32
def halfOpenLimit : Nat := 256
def halfOpenPerSource : Nat := 16
def halfOpenPerSourceWithoutCookie : Nat := 2
def cookieLifetime : Int := 120000000000

/-- The secret of a keyed hash. -/
abbrev Secret := BitVec 256

/-- `transport.Endpoint`: what `AddrPort` returns. -/
structure Endpoint where
  addr : Addr
  port : UInt16
deriving DecidableEq, Repr

/-- The part of `Responder` its lock guards. -/
structure State where
  halfOpen : Nat := 0
  halfOpenBySource : Addr → Nat := fun _ => 0
  cookieSecret : Secret
  previousSecret : Secret := 0
  previousValid : Bool := false
  cookieVersion : UInt8 := 0
  cookieRotated : Int

/-- `NewResponder`. -/
def new (secret : Secret) (now : Int) : State := { cookieSecret := secret, cookieRotated := now }

/-- `enterHalfOpen`. -/
def enterHalfOpen (r : State) (source : Addr) : Bool × State :=
  if halfOpenLimit ≤ r.halfOpen ∨ halfOpenPerSource ≤ r.halfOpenBySource source then (false, r)
  else (true, { r with halfOpen := r.halfOpen + 1
                       halfOpenBySource := Function.update r.halfOpenBySource source (r.halfOpenBySource source + 1) })

/-- `leaveHalfOpen`: both counts stop at zero. -/
def leaveHalfOpen (r : State) (source : Addr) : State :=
  { r with halfOpen := r.halfOpen - 1
           halfOpenBySource := Function.update r.halfOpenBySource source (r.halfOpenBySource source - 1) }

/-- What a cookie is for. -/
structure Attempt where
  ni : List UInt8
  spiI : UInt64
  endpoint : Endpoint
deriving DecidableEq, Repr

variable (mac : Secret → List UInt8 → List UInt8) (text : Endpoint → List UInt8)

/-- What `cookieValue` hashes: the nonce, the SPI and the text of the endpoint, one after the other. -/
def cookieInput (a : Attempt) : List UInt8 := a.ni ++ (toBytes a.spiI.toBitVec ++ text a.endpoint)

/-- `cookieValue`. -/
def cookieValue (secret : Secret) (version : UInt8) (a : Attempt) : List UInt8 := version :: mac secret (cookieInput text a)

/-- One call of `cookieRequired`: the request, the two readings of the clock, the secret drawn when one is, and when the call is
over. -/
structure Call where
  payloads : List RawPayload
  attempt : Attempt
  now : Int
  stamp : Int
  next : Secret
  ended : Int
deriving DecidableEq, Repr

/-- The rotation in `cookieRequired`. -/
def rotate (r : State) (c : Call) : State :=
  if cookieLifetime < c.now - r.cookieRotated then
    { r with previousSecret := r.cookieSecret, previousValid := true, cookieSecret := c.next, cookieVersion := r.cookieVersion + 1,
             cookieRotated := c.stamp }
  else r

/-- The cookies `cookieRequired` takes for an attempt. -/
def acceptedCookies (r : State) (a : Attempt) : List (List UInt8) :=
  cookieValue mac text r.cookieSecret r.cookieVersion a ::
    if r.previousValid then [cookieValue mac text r.previousSecret (r.cookieVersion - 1) a] else []

/-- The cookies a request carries. -/
def presentedCookies (payloads : List RawPayload) : List (List UInt8) :=
  payloads.filterMap fun p =>
    if p.type ≠ payloadN then none
    else match decodeNotify p.body with
      | .error _ => none
      | .ok n => if n.type = notifyCookie then some n.data else none

/-- A request carries a cookie that is taken. -/
def presents (r : State) (c : Call) : Bool :=
  (presentedCookies c.payloads).any fun cookie => cookie ∈ acceptedCookies mac text r c.attempt

/-- The pressure `cookieRequired` reads. -/
def pressure (r : State) (source : Addr) : Bool :=
  cookieThreshold ≤ r.halfOpen ∨ halfOpenPerSourceWithoutCookie ≤ r.halfOpenBySource source

/-- `cookieRequired`: the cookie of a challenge when one is sent, and the state after the call. -/
def cookieRequired (r : State) (c : Call) : Option (List UInt8) × State :=
  let pressed := pressure r c.attempt.endpoint.addr
  let r := rotate r c
  if !pressed || presents mac text r c then (none, r)
  else (some (cookieValue mac text r.cookieSecret r.cookieVersion c.attempt), r)

/-- Whatever is decided, the call only rotates the secrets. -/
theorem cookieRequired_state (r : State) (c : Call) : (cookieRequired mac text r c).2 = rotate r c := by
  unfold cookieRequired
  dsimp only
  split_ifs <;> rfl

/-- A handshake past its cookie decision: its source, whether it presented a cookie that is taken, and how many handshakes of its
source had been admitted when the decision was made. -/
structure Handshake where
  source : Addr
  cookie : Bool
  seen : Nat
deriving DecidableEq, Repr

/-- The responder with the handshakes that wait to be admitted and those that hold a slot; how many of each source were admitted,
and the latest time of a call. -/
structure World where
  responder : State
  waiting : List Handshake := []
  held : List Handshake := []
  admitted : Addr → Nat := fun _ => 0
  clock : Int

/-- What a handshake does under the lock. -/
inductive Move where
  | decide (c : Call)
  | enter (h : Handshake)
  | leave (h : Handshake)
deriving DecidableEq, Repr

def Enabled (w : World) : Move → Prop
  | .decide c => w.clock ≤ c.now ∧ c.now ≤ c.stamp ∧ c.stamp ≤ c.ended
  | .enter h => h ∈ w.waiting
  | .leave h => h ∈ w.held

instance (w : World) : (m : Move) → Decidable (Enabled w m)
  | .decide c => inferInstanceAs (Decidable (w.clock ≤ c.now ∧ c.now ≤ c.stamp ∧ c.stamp ≤ c.ended))
  | .enter h => inferInstanceAs (Decidable (h ∈ w.waiting))
  | .leave h => inferInstanceAs (Decidable (h ∈ w.held))

/-- A handshake that is not challenged goes on to be admitted. -/
def applyDecide (w : World) (c : Call) : World :=
  let source := c.attempt.endpoint.addr
  let answer := cookieRequired mac text w.responder c
  { w with
    responder := answer.2
    clock := c.ended
    waiting := if answer.1.isSome then w.waiting
      else ⟨source, presents mac text (rotate w.responder c) c, w.admitted source⟩ :: w.waiting }

/-- A handshake that is refused ends. -/
def applyEnter (w : World) (h : Handshake) : World :=
  let answer := enterHalfOpen w.responder h.source
  if answer.1 then
    { w with responder := answer.2, waiting := w.waiting.erase h, held := h :: w.held,
             admitted := Function.update w.admitted h.source (w.admitted h.source + 1) }
  else { w with waiting := w.waiting.erase h }

def applyLeave (w : World) (h : Handshake) : World :=
  { w with responder := leaveHalfOpen w.responder h.source, held := w.held.erase h }

/-- Concurrent handshakes of one responder. -/
def system : Moves.System World Move where
  enabled := Enabled
  apply w
    | .decide c => applyDecide mac text w c
    | .enter h => applyEnter w h
    | .leave h => applyLeave w h

instance (w : World) (m : Move) : Decidable ((system mac text).enabled w m) := inferInstanceAs (Decidable (Enabled w m))

/-- A responder nobody has called. -/
def start (secret : Secret) (now : Int) : World := { responder := new secret now, clock := now }

/-- No other handshake of a source is admitted between the decision that lets one through without a cookie and its admission. -/
def Undisturbed (w : World) : Move → Prop
  | .enter h => h.cookie = false → w.admitted h.source = h.seen
  | _ => True

instance (w : World) : (m : Move) → Decidable (Undisturbed w m)
  | .decide _ => isTrue trivial
  | .enter h => inferInstanceAs (Decidable (h.cookie = false → w.admitted h.source = h.seen))
  | .leave _ => isTrue trivial

end Responder
end RanetLite.Ike
