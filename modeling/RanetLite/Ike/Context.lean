import RanetLite.Lib.Moves
import RanetLite.Ike.Sk

/-!
# IKE SA contexts and their local requests

`ikeContext` of `ike/initiator.go`, the messages it encrypts, and the two functions of `ike/liveness.go` that put a local request on
the wire. A send is the transport's: whether it went out is given, and a send that failed put nothing on the wire.

`Requests` is one context with everything it has sent. Both senders hold the context's lock from the read of the counter to the end,
so a call is one step.
-/

namespace RanetLite.Ike

open Bytes

def flagInitiator : UInt8 := 0x08
def flagResponse : UInt8 := 0x20
def createChildSA : UInt8 := 36
def informational : UInt8 := 37

/-- The value the counter stops at. -/
def maxMessageID : UInt32 := 0xffffffff

/-- `ikeContext`: the suite and the keys of both directions, the SPIs, the IV counter, and the Message ID of the next local request. -/
structure IkeContext where
  suite : SASuite
  skei : List UInt8
  sker : List UInt8
  spiI : UInt64
  spiR : UInt64
  responder : Bool := false
  sendIV : UInt64 := 0
  nextLocalMID : UInt32 := 0
deriving DecidableEq, Repr

/-- Why a local message is not sent. -/
inductive LocalError where
  | saChanged
  | exhausted
  | ivExhausted
  | sk (err : SkError)
  | transport (err : String)
deriving DecidableEq, Repr

/-- The text of the error. -/
def LocalError.text : LocalError → String
  | saChanged => "ike: IKE SA changed before Child SA exchange started"
  | exhausted => "ike: Message ID space exhausted"
  | ivExhausted => "ike: AEAD IV space exhausted"
  | sk err => err.text
  | transport err => err

/-- `localRequest`: what is asked of the peer. -/
structure LocalRequest where
  exchange : UInt8
  inner : List RawPayload
deriving DecidableEq, Repr

/-- `pendingRequest`: the bytes on the wire and the ID they own. -/
structure PendingRequest where
  request : LocalRequest
  msgID : UInt32
  raw : List UInt8
deriving DecidableEq, Repr

namespace IkeContext

/-- `localEncryptionKey`. -/
def localEncryptionKey (ctx : IkeContext) : List UInt8 := if ctx.responder then ctx.sker else ctx.skei

/-- The header of a message of this end; `kind` is the response flag or nothing. -/
def header (ctx : IkeContext) (kind exchange : UInt8) (msgID : UInt32) : Header where
  spiInitiator := ctx.spiI
  spiResponder := ctx.spiR
  exchangeType := exchange
  flags := if ctx.responder then kind else kind ||| flagInitiator
  messageID := msgID

variable (newAEAD : UInt16 → List UInt8 → Aead)

/-- `encrypt`: every message takes the next IV, also one that is not built. -/
def encrypt (ctx : IkeContext) (hdr : Header) (inner : List RawPayload) : IkeContext × Except LocalError (List UInt8) :=
  let value := ctx.sendIV + 1
  let ctx := { ctx with sendIV := value }
  if value = 0 then (ctx, .error .ivExhausted)
  else match encryptMessageIV newAEAD ctx.suite ctx.localEncryptionKey hdr [] inner (toBytes value.toBitVec) with
    | .error e => (ctx, .error (.sk e))
    | .ok raw => (ctx, .ok raw)

/-- `response`. -/
def response (ctx : IkeContext) (msgID : UInt32) (exchange : UInt8) (inner : List RawPayload) :
    IkeContext × Except LocalError (List UInt8) :=
  ctx.encrypt newAEAD (ctx.header flagResponse exchange msgID) inner

/-- `startRequest`, with the outcome of its send. A first send that failed gives its Message ID back. -/
def startRequest (ctx : IkeContext) (retired : Bool) (req : LocalRequest) (failure : Option String) :
    IkeContext × Except LocalError PendingRequest :=
  if req.exchange = createChildSA ∧ retired then (ctx, .error .saChanged)
  else if ctx.nextLocalMID = maxMessageID then (ctx, .error .exhausted)
  else
    let msgID := ctx.nextLocalMID
    match ctx.encrypt newAEAD (ctx.header 0 req.exchange msgID) req.inner, failure with
    | (ctx, .error e), _ => (ctx, .error e)
    | (ctx, .ok _), some err => (ctx, .error (.transport err))
    | (ctx, .ok raw), none => ({ ctx with nextLocalMID := ctx.nextLocalMID + 1 }, .ok ⟨req, msgID, raw⟩)

/-- `sendUnansweredRequest`: the bytes it gives to the transport. The counter moves whatever the send does, and is not looked at. -/
def sendUnansweredRequest (ctx : IkeContext) (inner : List RawPayload) : IkeContext × Except LocalError (List UInt8) :=
  match ctx.encrypt newAEAD (ctx.header 0 informational ctx.nextLocalMID) inner with
  | (ctx, .error e) => (ctx, .error e)
  | (ctx, .ok request) => ({ ctx with nextLocalMID := ctx.nextLocalMID + 1 }, .ok request)

end IkeContext

/-- A context of a session, whether it is the current one, the requests that may be retransmitted and every request that went out. -/
structure Requests where
  ctx : IkeContext
  current : Bool := true
  pending : List PendingRequest := []
  wire : List (List UInt8) := []
deriving DecidableEq, Repr

namespace Requests

/-- What happens on a context. -/
inductive Move where
  /-- `startRequest`, and the error of its send if it failed. -/
  | start (req : LocalRequest) (failure : Option String)
  /-- `sendPending` of a request that was sent before. -/
  | retransmit (request : PendingRequest) (failure : Option String)
  /-- `sendUnansweredRequest`, which is for the current context. -/
  | unanswered (inner : List RawPayload) (failure : Option String)
  /-- A response, which takes an IV. -/
  | respond (msgID : UInt32) (exchange : UInt8) (inner : List RawPayload)
  /-- A rekey makes another context the current one. -/
  | replace
deriving DecidableEq, Repr

/-- A message that was given to the transport is on the wire unless its send failed. -/
def transmit (s : Requests) (raw : List UInt8) (failure : Option String) : List (List UInt8) :=
  if failure.isSome then s.wire else raw :: s.wire

/-- The context and the wire as the moves change them. -/
def system (newAEAD : UInt16 → List UInt8 → Aead) : Moves.System Requests Move where
  enabled s
    | .retransmit request _ => request ∈ s.pending
    | .unanswered .. => s.current = true
    | _ => True
  apply s
    | .start req failure =>
      match s.ctx.startRequest newAEAD (!s.current) req failure with
      | (ctx, .error _) => { s with ctx := ctx }
      | (ctx, .ok p) => { s with ctx := ctx, pending := p :: s.pending, wire := s.transmit p.raw failure }
    | .retransmit request failure => { s with wire := s.transmit request.raw failure }
    | .unanswered inner failure =>
      match s.ctx.sendUnansweredRequest newAEAD inner with
      | (ctx, .error _) => { s with ctx := ctx }
      | (ctx, .ok raw) => { s with ctx := ctx, wire := s.transmit raw failure }
    | .respond msgID exchange inner => { s with ctx := (s.ctx.response newAEAD msgID exchange inner).1 }
    | .replace => { s with current := false }

instance (newAEAD : UInt16 → List UInt8 → Aead) (s : Requests) : (m : Move) → Decidable ((system newAEAD).enabled s m)
  | .start .. => isTrue trivial
  | .retransmit request _ => inferInstanceAs (Decidable (request ∈ s.pending))
  | .unanswered .. => inferInstanceAs (Decidable (s.current = true))
  | .respond .. => isTrue trivial
  | .replace => isTrue trivial

end Requests
end RanetLite.Ike
