import Mathlib.Logic.Function.Basic
import RanetLite.Esp.Outbound
import RanetLite.Esp.Replay

/-!
# Inbound SAs

`esp/inbound.go`: a packet is checked against the replay window and authenticated first, and committed to the window later. The AEAD
is a function of the nonce, the ciphertext and the additional data that refuses or answers the plaintext. An index outside the replay
bitmap panics in the source; a function that reads or writes the window returns an `Option`, and `none` is that panic.

`Inbound` is a set of SAs with the calls on them under way. `Authenticate` and `AuthenticateBatchInPlace` hold the lock of an SA while
they check, and decrypt without it, one packet after another. A commit holds the lock. `CommitBatch` holds it over a run of packets of
one SA; here every packet is a step of its own, so that more can happen between two of them than the lock lets through.
-/

namespace RanetLite.Esp

open Bytes

/-- Why a packet is refused. -/
inductive OpenError where
  | unauthenticated
  | uncommitted
  | committed
  | unknownSPI
  | tooShort
  | spiMismatch (got want : UInt32)
  | replay (e : ReplayError)
  | authentication (cause : String)
  | plaintextTooShort
  | unaligned (length : Nat)
  | padding
  | paddingContents
deriving DecidableEq, Repr

/-- A 32-bit number as `%08x` prints it. -/
def hex8 (x : UInt32) : String :=
  String.ofList ((List.range 8).map fun i => Nat.digitChar ((x.toNat / 16 ^ (7 - i)) % 16))

/-- The text of the error. -/
def OpenError.text : OpenError → String
  | .unauthenticated => "esp: packet was not authenticated"
  | .uncommitted => "esp: packet replay check was not committed"
  | .committed => "esp: packet was already committed"
  | .unknownSPI => "no matching inbound ESP SA"
  | .tooShort => "esp: packet too short"
  | .spiMismatch got want => "esp: SPI mismatch (got " ++ hex8 got ++ ", want " ++ hex8 want ++ ")"
  | .replay e => e.text
  | .authentication cause => "esp: authentication failed: " ++ cause
  | .plaintextTooShort => "esp: plaintext too short"
  | .unaligned length => s!"esp: plaintext length {length} is not four-byte aligned"
  | .padding => "esp: invalid padding"
  | .paddingContents => "esp: invalid padding contents"

/-- `InboundSA`. -/
structure InboundSA where
  aeadOpen : (nonce ciphertext aad : List UInt8) → Except String (List UInt8)
  salt : List UInt8
  spi : UInt32
  window : ReplayWindow

/-- `MaxReplayWindow`. -/
def maxReplayWindow : UInt32 := (1 : UInt32) <<< (20 : UInt32)

/-- `WithReplayWindow`: an SA with a new window, clamped to the widest one. -/
def InboundSA.withReplayWindow (window : UInt32) (sa : InboundSA) : InboundSA :=
  { sa with window := newReplayWindow (min window maxReplayWindow) }

/-- The name of an SA, a pointer in the source. -/
abbrev SaRef := Nat

/-- `AuthenticatedPacket`. -/
structure AuthenticatedPacket where
  sa : Option SaRef := none
  seq : UInt32 := 0
  committed : Bool := false
  nextHeader : UInt8 := 0
  plain : List UInt8 := []
  err : Option OpenError := none
deriving DecidableEq, Repr

/-- A result and the packet it is of. -/
structure Held where
  packet : List UInt8
  result : AuthenticatedPacket

namespace InboundSA

/-- `checkHeader`. -/
def checkHeader (sa : InboundSA) (pkt : List UInt8) : Except OpenError UInt32 :=
  if pkt.length < headerLen + ivLen + icvLen then .error .tooShort
  else if (⟨ofBytes 32 (pkt.take 4)⟩ : UInt32) ≠ sa.spi then .error (.spiMismatch ⟨ofBytes 32 (pkt.take 4)⟩ sa.spi)
  else .ok ⟨ofBytes 32 ((pkt.drop 4).take 4)⟩

/-- `decrypt`. -/
def decrypt (sa : InboundSA) (pkt : List UInt8) : Except OpenError (List UInt8) :=
  match sa.aeadOpen (sa.salt ++ (pkt.drop headerLen).take ivLen) (pkt.drop (headerLen + ivLen)) (pkt.take headerLen) with
  | .error cause => .error (.authentication cause)
  | .ok plain => .ok plain

/-- The checks made under the lock, before decryption: what one packet of `AuthenticateBatchInPlace` starts from. -/
def precheck (sa : InboundSA) (self : SaRef) (pkt : List UInt8) : Option AuthenticatedPacket :=
  match sa.checkHeader pkt with
  | .error e => some { sa := some self, err := some e }
  | .ok seq =>
    (sa.window.check seq).map fun
      | .error e => { sa := some self, seq := seq, err := some (.replay e) }
      | .ok () => { sa := some self, seq := seq }

/-- The checks of a list of packets under one hold of the lock. -/
def precheckAll (sa : InboundSA) (self : SaRef) (packets : List (List UInt8)) : Option (List Held) :=
  packets.mapM fun pkt => (sa.precheck self pkt).map (⟨pkt, ·⟩)

/-- The decryption of a packet that passed the checks. -/
def finish (sa : InboundSA) (p : AuthenticatedPacket) (pkt : List UInt8) : AuthenticatedPacket :=
  if p.err.isSome then p
  else match sa.decrypt pkt with
    | .error e => { p with err := some e }
    | .ok plain => { p with plain := plain }

end InboundSA

/-- `parseTrailer`. -/
def parseTrailer (plain : List UInt8) : Except OpenError (List UInt8 × UInt8) :=
  if plain.length < 2 then .error .plaintextTooShort
  else if plain.length % 4 ≠ 0 then .error (.unaligned plain.length)
  else
    let padLen := (plain.getD (plain.length - 2) 0).toNat
    let nextHeader := plain.getD (plain.length - 1) 0
    if plain.length < padLen + 2 then .error .padding
    else if (plain.drop (plain.length - 2 - padLen)).take padLen ≠ (List.range padLen).map fun i => UInt8.ofNat (i + 1) then
      .error .paddingContents
    else .ok (plain.take (plain.length - 2 - padLen), nextHeader)

namespace AuthenticatedPacket

/-- A result whose sequence number has been committed, with its trailer read. -/
def opened (p : AuthenticatedPacket) : AuthenticatedPacket :=
  match parseTrailer p.plain with
  | .error e => { p with committed := true, plain := [], nextHeader := 0, err := some e }
  | .ok (inner, nextHeader) => { p with committed := true, plain := inner, nextHeader := nextHeader, err := none }

/-- `commitLocked`: the windows of the SAs and the result after it. -/
def commitLocked (sas : SaRef → InboundSA) (p : AuthenticatedPacket) : Option ((SaRef → InboundSA) × AuthenticatedPacket) :=
  if p.committed then some (sas, { p with err := some .committed })
  else if p.err.isSome then some (sas, { p with committed := true })
  else match p.sa with
    | none => some (sas, { p with committed := true, err := some .unauthenticated })
    | some self => do
      match ← (sas self).window.check p.seq with
      | .error e => return (sas, { p with committed := true, err := some (.replay e) })
      | .ok () =>
        let window ← (sas self).window.commit p.seq
        -- an authenticated packet with a malformed trailer has its number committed all the same
        return (Function.update sas self { sas self with window := window }, p.opened)

/-- `Plaintext`. -/
def plaintext (p : AuthenticatedPacket) : Except OpenError (List UInt8 × UInt8) :=
  if !p.committed then .error .uncommitted
  else match p.err with
    | some e => .error e
    | none => .ok (p.plain, p.nextHeader)

/-- The SA and the number a result can be read for. -/
def reads (p : AuthenticatedPacket) : Option (SaRef × UInt32) :=
  match p.plaintext with
  | .ok _ => p.sa.map (·, p.seq)
  | .error _ => none

end AuthenticatedPacket

/-- A call of `Authenticate` or `AuthenticateBatchInPlace` past its checks: the packets decrypted, and those to decrypt. -/
structure AuthCall where
  sa : SaRef
  single : Bool
  done : List Held := []
  todo : List Held

/-- What a call hands back: `Authenticate` hands back nothing but an error when its packet is refused. -/
def AuthCall.returned (call : AuthCall) : List Held :=
  if call.single then call.done.filter fun held => held.result.err.isNone else call.done

/-- A set of SAs with the calls on them under way: the calls past their checks, the results in callers' hands, and the SA and number
of every commit that made a plaintext readable. -/
structure Inbound where
  sas : SaRef → InboundSA
  calls : List AuthCall := []
  results : List Held := []
  yields : List (SaRef × UInt32) := []

namespace Inbound

/-- A commit of the result at index `i`. -/
def commit (s : Inbound) (i : Nat) : Option Inbound := do
  let held ← s.results[i]?
  let (sas, p) ← held.result.commitLocked s.sas
  return { s with sas := sas, results := s.results.set i { held with result := p }, yields := s.yields ++ p.reads.toList }

/-- One step of one caller: the checks of an `Authenticate` call that passes them, those of a batch, one packet decrypted, a call
returning, a result the caller made itself, and a commit. -/
inductive Step : Inbound → Inbound → Prop
  | authenticate {s : Inbound} {self : SaRef} {pkt : List UInt8} {p : AuthenticatedPacket}
      (hcheck : (s.sas self).precheck self pkt = some p) (hok : p.err = none) :
      Step s { s with calls := s.calls ++ [{ sa := self, single := true, todo := [⟨pkt, p⟩] }] }
  | authenticateBatch {s : Inbound} {self : SaRef} {packets : List (List UInt8)} {todo : List Held}
      (hcheck : (s.sas self).precheckAll self packets = some todo) :
      Step s { s with calls := s.calls ++ [{ sa := self, single := false, todo := todo }] }
  | decrypt {s : Inbound} {before after : List AuthCall} {call : AuthCall} {held : Held} {rest : List Held}
      (hcalls : s.calls = before ++ call :: after) (htodo : call.todo = held :: rest) :
      Step s { s with calls := before ++
        { call with
          todo := rest
          done := call.done ++ [{ held with result := (s.sas call.sa).finish held.result held.packet }] } :: after }
  | return_ {s : Inbound} {before after : List AuthCall} {call : AuthCall}
      (hcalls : s.calls = before ++ call :: after) (htodo : call.todo = []) :
      Step s { s with calls := before ++ after, results := s.results ++ call.returned }
  | make (s : Inbound) (err : Option OpenError) : Step s { s with results := s.results ++ [⟨[], { err := err }⟩] }
  | commit {s s' : Inbound} {i : Nat} (hcommit : s.commit i = some s') : Step s s'

end Inbound
end RanetLite.Esp
