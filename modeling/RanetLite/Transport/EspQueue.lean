import RanetLite.Lib.Moves

/-!
# The ESP queue of a mux

`dispatchESP` and `takeESP` of `transport/mux.go`: the receive loops of a hub put batches into the channel `espCh` under a ticket, and the
receivers of a mux take them out. The dispatchers exclude each other by `espDispatchMu`; a receiver holds no lock they know of, so it may
take a batch out between the send and the addition to `espQueued`. A move is one operation on the shared state.
-/

namespace RanetLite.Transport

/-- `espChanSize` and `espQueueBytes`. -/
def espChanSize : Nat := 1024
def espQueueBytes : Nat := 8 <<< 20

/-- `espDatagramBatch`. -/
structure EspBatch where
  ticket : UInt64
  packets : List (List UInt8)
  bytes : Nat
deriving DecidableEq, Repr

/-- A size added up over a list. -/
def addUp {α : Type} (size : α → Nat) (l : List α) : Nat := l.foldr (fun x n => size x + n) 0

/-- The bytes of packets, which the receive loop adds up. -/
def total (packets : List (List UInt8)) : Nat := addUp List.length packets

/-- Where the dispatcher that holds `espDispatchMu` is. -/
inductive Dispatch where
  /-- Nobody holds the lock. -/
  | idle
  /-- It has locked. -/
  | locked (packets : List (List UInt8)) (bytes : Nat)
  /-- It has found room in the byte budget. -/
  | admitted (packets : List (List UInt8)) (bytes : Nat)
  /-- It has sent the batch. -/
  | sent (bytes : Nat)
  /-- It has added the batch to `espQueued`. -/
  | counted
deriving DecidableEq, Repr

/-- The queue, the dispatcher at work, and the batches received whose bytes are still to be given back. `accepted` are the batches the
channel took, in the order of their dispatch. The numbers are those of an `int64`, which `espQueued` stays far inside. -/
structure EspQueue where
  espCh : List EspBatch := []
  espQueued : Int := 0
  espTicket : UInt64 := 0
  dispatch : Dispatch := .idle
  taking : List EspBatch := []
  accepted : List EspBatch := []
deriving DecidableEq, Repr

namespace EspQueue

/-- `hasRoomForESP`, which a receive loop asks before it copies the packets. -/
def hasRoomForESP (q : EspQueue) (bytes : Nat) : Bool := q.espCh.length < espChanSize ∧ q.espQueued + bytes ≤ espQueueBytes

/-- The next operation of `dispatchESP`, in the dispatcher that holds the lock. -/
def step (q : EspQueue) : EspQueue :=
  match q.dispatch with
  | .idle => q
  | .locked packets bytes =>
    if q.espQueued + bytes > espQueueBytes then { q with dispatch := .idle } else { q with dispatch := .admitted packets bytes }
  | .admitted packets bytes =>
    let batch : EspBatch := { ticket := q.espTicket, packets := packets, bytes := bytes }
    if q.espCh.length < espChanSize then
      { q with espCh := q.espCh ++ [batch], dispatch := .sent bytes, accepted := q.accepted ++ [batch] }
    else { q with dispatch := .idle }
  | .sent bytes => { q with espQueued := q.espQueued + bytes, dispatch := .counted }
  | .counted => { q with espTicket := q.espTicket + 1, dispatch := .idle }

/-- What happens to a queue. -/
inductive Move where
  /-- A receive loop is told that there is no room, and drops its batch. -/
  | turnAway (packets : List (List UInt8))
  /-- A receive loop calls `dispatchESP`, and gets the lock. -/
  | lock (packets : List (List UInt8))
  /-- The dispatcher makes its next operation. -/
  | step
  /-- A receiver takes the next batch from the channel. -/
  | receive
  /-- A receiver makes the `takeESP` of a batch it has. -/
  | take (batch : EspBatch)
deriving DecidableEq, Repr

/-- The moves of a queue. -/
def system : Moves.System EspQueue Move where
  enabled q
    | .turnAway packets => q.hasRoomForESP (total packets) = false
    | .lock _ => q.dispatch = .idle
    | .step => q.dispatch ≠ .idle
    | .receive => q.espCh ≠ []
    | .take batch => batch ∈ q.taking
  apply q
    | .turnAway _ => q
    | .lock packets => { q with dispatch := .locked packets (total packets) }
    | .step => q.step
    | .receive => { q with espCh := q.espCh.tail, taking := q.espCh.head?.toList ++ q.taking }
    | .take batch => { q with espQueued := q.espQueued - batch.bytes, taking := q.taking.erase batch }

instance : ∀ q m, Decidable (system.enabled q m)
  | q, .turnAway packets => inferInstanceAs (Decidable (q.hasRoomForESP (total packets) = false))
  | q, .lock _ => inferInstanceAs (Decidable (q.dispatch = .idle))
  | q, .step => inferInstanceAs (Decidable (q.dispatch ≠ .idle))
  | q, .receive => inferInstanceAs (Decidable (q.espCh ≠ []))
  | q, .take batch => inferInstanceAs (Decidable (batch ∈ q.taking))

end EspQueue
end RanetLite.Transport
