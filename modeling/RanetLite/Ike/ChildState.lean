import RanetLite.Lib.Moves
import RanetLite.Transport.Mux

/-!
# The Child SAs of a session

`ike/child_state.go`: the active Child SA, the replaced one that waits for its Delete, and the inbound SPIs that drain after theirs.
Every function holds `childMu` from its first line to its last, so a call is one step. A function that fails returns the state it leaves
behind with the error. The two handlers are the dataplane's: what they return is given. Times are nanoseconds; `clock` is what
`time.Now` returns in the call.
-/

namespace RanetLite.Ike

open Transport

/-- `esp.ChildSA`; an SPI of zero is none. -/
structure ChildSA where
  encrID : UInt16 := 0
  encrKeyBits : UInt16 := 0
  localSPI : UInt32 := 0
  remoteSPI : UInt32 := 0
  inboundKey : List UInt8 := []
  outboundKey : List UInt8 := []
deriving DecidableEq, Repr

/-- `childRetirement`. -/
structure ChildRetirement where
  spi : UInt32
  expiresAt : Int
deriving DecidableEq, Repr

/-- The Child part of `Session`, and the hub its mux registers on. -/
structure ChildState where
  child : ChildSA := {}
  retiring : ChildSA := {}
  retiringBy : Int := 0
  retired : List ChildRetirement := []
  childRetireDelay : Int
  hub : Hub := {}

/-- `retirementDeadline`: thirty seconds. -/
def retirementDeadline : Int := 30000000000

/-- Why a Child operation fails. -/
inductive ChildError where
  | awaiting (spi : UInt32)
  | active (spi : UInt32)
  | draining (spi : UInt32)
  | register (err : RegisterError)
  | handler (err : String)
  | noRetiring (remoteSPI : UInt32)
  | changed
  | undeleted (err : ChildError)
  | expire (err : ChildError)
deriving DecidableEq, Repr

/-- The text of the error. -/
def ChildError.text : ChildError → String
  | awaiting spi => "ike: Child SA " ++ hex 8 spi.toNat ++ " is still awaiting retirement"
  | active spi => "ike: Child SA SPI " ++ hex 8 spi.toNat ++ " is already active"
  | draining spi => "ike: Child SA SPI " ++ hex 8 spi.toNat ++ " is still draining"
  | register err => err.text
  | handler err => err
  | noRetiring remoteSPI => "ike: no retiring Child SA with remote SPI " ++ hex 8 remoteSPI.toNat
  | changed => "ike: Child SA changed while handling CHILD_SA_NOT_FOUND"
  | undeleted err => "ike: retire an undeleted Child SA: " ++ err.text
  | expire err => "ike: expire retired Child SA: " ++ err.text

namespace ChildState

/-- `canReplaceChildLocked`. -/
def canReplaceChild (s : ChildState) (localSPI : UInt32) : Option ChildError :=
  if s.retiring.localSPI ≠ 0 then some (.awaiting s.retiring.localSPI)
  else if localSPI = s.child.localSPI then some (.active localSPI)
  else if s.retired.any fun r => r.spi = localSPI then some (.draining localSPI)
  else none

section

variable (mux : Nat) (onChild : ChildSA → Option String) (onRetire : UInt32 → Option String) (clock : Int)

/-- `replaceChild`. -/
def replaceChild (s : ChildState) (child : ChildSA) : ChildState × Option ChildError :=
  match s.canReplaceChild child.localSPI with
  | some e => (s, some e)
  | none =>
    match s.hub.registerESP mux child.localSPI with
    | .error e => (s, some (.register e))
    | .ok hub =>
      match onChild child with
      | some err => ({ s with hub := hub.unregisterESP mux child.localSPI }, some (.handler err))
      | none =>
        if s.child.localSPI ≠ 0 then
          ({ s with hub := hub, child := child, retiring := s.child, retiringBy := clock + retirementDeadline }, none)
        else ({ s with hub := hub, child := child }, none)

/-- `retireInboundLocked`: a replaced SA drains first, if there is a delay. -/
def retireInbound (s : ChildState) (spi : UInt32) (replaced : Bool) : ChildState × Option ChildError :=
  if replaced ∧ 0 < s.childRetireDelay then
    ({ s with retired := s.retired ++ [⟨spi, clock + s.childRetireDelay⟩] }, none)
  else match onRetire spi with
    | some err => (s, some (.handler err))
    | none => ({ s with hub := s.hub.unregisterESP mux spi }, none)

/-- `retireChild`. -/
def retireChild (s : ChildState) (remoteSPI : UInt32) : ChildState × Option ChildError :=
  if s.retiring.localSPI = 0 then (s, none)
  else if s.retiring.remoteSPI ≠ remoteSPI then (s, some (.noRetiring remoteSPI))
  else match s.retireInbound mux onRetire clock s.retiring.localSPI true with
    | (s, some e) => (s, some e)
    | (s, none) => ({ s with retiring := {} }, none)

/-- The loop of `expireRetiredChildren` over the SPIs that drain. -/
def expireDrained (now : Int) : List ChildRetirement → ChildState → ChildState × Option ChildError
  | [], s => (s, none)
  | r :: rest, s =>
    if now < r.expiresAt then (s, none)
    else match s.retireInbound mux onRetire clock r.spi false with
      | (s, some e) => (s, some (.expire e))
      | (s, none) => expireDrained now rest { s with retired := rest }

/-- `expireRetiredChildren`. -/
def expireRetiredChildren (s : ChildState) (now : Int) : ChildState × Option ChildError :=
  if s.retiring.localSPI ≠ 0 ∧ s.retiringBy ≤ now then
    match s.retireInbound mux onRetire clock s.retiring.localSPI true with
    | (s, some e) => (s, some (.undeleted e))
    | (s, none) => expireDrained mux onRetire clock now s.retired { s with retiring := {} }
  else expireDrained mux onRetire clock now s.retired s

/-- `forgetChild`. -/
def forgetChild (s : ChildState) (child : ChildSA) : ChildState × Option ChildError :=
  if s.child.localSPI = 0 then (s, none)
  else if s.child.localSPI ≠ child.localSPI ∨ s.child.remoteSPI ≠ child.remoteSPI then (s, some .changed)
  else match s.retireInbound mux onRetire clock child.localSPI false with
    | (s, some e) => (s, some e)
    | (s, none) => ({ s with child := {} }, none)

/-- `deleteChildren`: the local SPIs for the response. An error ends it with what was deleted before. -/
def deleteChildren : List UInt32 → ChildState → ChildState × Except ChildError (List UInt32)
  | [], s => (s, .ok [])
  | remoteSPI :: rest, s =>
    if s.child.localSPI ≠ 0 ∧ s.child.remoteSPI = remoteSPI then
      match s.retireInbound mux onRetire clock s.child.localSPI false with
      | (s, some e) => (s, .error e)
      | (s', none) => (deleteChildren rest { s' with child := {} }).map id fun r => r.map fun spis => s.child.localSPI :: spis
    else if s.retiring.localSPI ≠ 0 ∧ s.retiring.remoteSPI = remoteSPI then
      match s.retireInbound mux onRetire clock s.retiring.localSPI true with
      | (s, some e) => (s, .error e)
      | (s', none) => (deleteChildren rest { s' with retiring := {} }).map id fun r => r.map fun spis => s.retiring.localSPI :: spis
    else deleteChildren rest s

end

/-- The inbound SPIs of the session: of the active Child SA, the retiring one and the ones that drain. -/
def inboundSPIs (s : ChildState) : List UInt32 :=
  (if s.child.localSPI = 0 then [] else [s.child.localSPI]) ++
    ((if s.retiring.localSPI = 0 then [] else [s.retiring.localSPI]) ++ s.retired.map ChildRetirement.spi)

/-- What happens to a session's Child SAs and to the hub they are registered on. -/
inductive Move where
  | replaceChild (child : ChildSA) (onChild : ChildSA → Option String) (clock : Int)
  | retireChild (remoteSPI : UInt32) (onRetire : UInt32 → Option String) (clock : Int)
  | expireRetiredChildren (now : Int) (onRetire : UInt32 → Option String) (clock : Int)
  | forgetChild (child : ChildSA) (onRetire : UInt32 → Option String) (clock : Int)
  | deleteChildren (remoteSPIs : List UInt32) (onRetire : UInt32 → Option String) (clock : Int)
  /-- Another mux of the hub registers an ESP SPI, or fails to. -/
  | otherRegisters (other : Nat) (spi : UInt32)
  | otherUnregisters (other : Nat) (spi : UInt32)
  /-- A mux of the hub is closed, this one or another. -/
  | close (mux : Nat)

/-- The Child operations of a session on a mux, between those of the other muxes. -/
def system (mux : Nat) : Moves.System ChildState Move where
  enabled _
    | .otherRegisters other _ => other ≠ mux
    | .otherUnregisters other _ => other ≠ mux
    | _ => True
  apply s
    | .replaceChild child onChild clock => (s.replaceChild mux onChild clock child).1
    | .retireChild remoteSPI onRetire clock => (s.retireChild mux onRetire clock remoteSPI).1
    | .expireRetiredChildren now onRetire clock => (s.expireRetiredChildren mux onRetire clock now).1
    | .forgetChild child onRetire clock => (s.forgetChild mux onRetire clock child).1
    | .deleteChildren remoteSPIs onRetire clock => (deleteChildren mux onRetire clock remoteSPIs s).1
    | .otherRegisters other spi => { s with hub := (s.hub.registerESP other spi).toOption.getD s.hub }
    | .otherUnregisters other spi => { s with hub := s.hub.unregisterESP other spi }
    | .close other => { s with hub := s.hub.close other }

end ChildState
end RanetLite.Ike
