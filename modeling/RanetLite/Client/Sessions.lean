import Mathlib.Logic.Relation
import RanetLite.Client.Registry

/-!
# The session set

`sessionSet` of `internal/client/session.go`, which keeps one live SA a path, with the names and identities `acceptPeers` and
`connectPeer` give it, and the trust checks of `internal/client/accept.go`. What a session registers with Babel under its path is left
out: it follows the entry of the path. A session that is closed is told to the peer and then dropped; here a call returns the sessions
it closes.
-/

namespace RanetLite.Client

/-- `ike.Identity`. -/
structure Identity where
  organization : String := ""
  commonName : String := ""
  serialNumber : String := ""
deriving DecidableEq, Repr

/-- The name of a session, a pointer in the source. -/
abbrev SessionRef := Nat

/-- `liveSession`. -/
structure LiveSession where
  session : SessionRef
  preferred : Bool
  peer : Identity
deriving DecidableEq, Repr

/-- `sessionSet`: the map of live sessions, and whether the node is going. -/
structure SessionSet where
  live : List (String × LiveSession) := []
  shut : Bool := false
deriving DecidableEq, Repr

/-- `identityOrder`. -/
def identityOrder (id : Identity) : String := id.organization ++ "/" ++ id.commonName ++ "/" ++ id.serialNumber

/-- `preferInitiator`. -/
def preferInitiator (initiator responder : Identity) : Bool := identityOrder initiator < identityOrder responder

/-- The path name of a session with a peer over one local endpoint: `sessionName` of `connectPeer` and of `acceptPeers`. -/
def sessionName (peer : Identity) (localSerial : String) : String :=
  peer.organization ++ "/" ++ peer.commonName ++ "/" ++ peer.serialNumber ++ "@" ++ localSerial

/-- What an adoption came to: the set afterwards, whether the session was adopted, and the sessions closed. -/
structure Adoption where
  set : SessionSet
  adopted : Bool
  closed : List SessionRef
deriving DecidableEq, Repr

namespace SessionSet

/-- The session of a path. -/
def get (s : SessionSet) (path : String) : Option LiveSession := s.live.lookup path

/-- The entry of a path dropped. -/
def drop (s : SessionSet) (path : String) : SessionSet := { s with live := s.live.filter (·.1 ≠ path) }

/-- The entry of a path set. -/
def put (s : SessionSet) (path : String) (l : LiveSession) : SessionSet := { s with live := (path, l) :: (s.drop path).live }

/-- `adoptFor`. -/
def adoptFor (s : SessionSet) (path : String) (sess : SessionRef) (preferred : Bool) (remote : Identity) : Adoption :=
  if s.shut then { set := s, adopted := false, closed := [sess] }
  else
    let set := s.put path { session := sess, preferred := preferred, peer := remote }
    match s.get path with
    | none => { set := set, adopted := true, closed := [] }
    | some previous =>
      if previous.session ≠ sess ∧ previous.preferred = true ∧ preferred = false then { set := s, adopted := false, closed := [sess] }
      else { set := set, adopted := true, closed := if previous.session ≠ sess then [previous.session] else [] }

/-- `adopt`. -/
def adopt (s : SessionSet) (path : String) (sess : SessionRef) (initiator responder remote : Identity) : Adoption :=
  s.adoptFor path sess (preferInitiator initiator responder) remote

/-- The release an adoption returns: it drops the entry, if it is still the session's own. -/
def release (s : SessionSet) (path : String) (sess : SessionRef) : SessionSet :=
  if (s.get path).map (·.session) = some sess then s.drop path else s

/-- `revoke`: the set afterwards and the sessions closed. -/
def revoke (s : SessionSet) (trusted : Identity → Bool) : SessionSet × List SessionRef :=
  let stays := fun (entry : String × LiveSession) => entry.2.peer = {} ∨ trusted entry.2.peer = true
  ({ s with live := s.live.filter (stays ·) }, (s.live.filter (¬stays ·)).map (·.2.session))

end SessionSet

/-- `peerKey`, for a node named `self`: the key that must verify a peer's AUTH, and the peer's node. -/
def peerKey (parse : String → Option (List UInt8)) (self : Identity) (reg : Registry) (peer : Identity) :
    Option (List UInt8 × RegistryNode) := do
  let (organization, node) ← reg.findNode peer.organization peer.commonName
  if peer.organization = self.organization ∧ peer.commonName = self.commonName then none
  let publicKey ← parse organization.publicKey
  return (publicKey, node)

/-- `lookupPeerKey`. -/
def lookupPeerKey (parse : String → Option (List UInt8)) (self : Identity) (reg : Registry) (peer : Identity) :
    Option (List UInt8) := do
  let (key, node) ← peerKey parse self reg peer
  let _ ← node.findEndpoint peer.serialNumber
  return key

/-- `stillTrusted`. -/
def stillTrusted (parse : String → Option (List UInt8)) (self : Identity) (reg : Registry) (peer : Identity) : Bool :=
  (peerKey parse self reg peer).isSome

/-! ## Two ends of one endpoint pair -/

/-- One end: its session set, the SAs that came up and are not adopted yet, and the SAs it has closed or seen closed. -/
structure End where
  set : SessionSet := {}
  waiting : List SessionRef
  closed : List SessionRef := []

/-- Which of two ends. -/
inductive Side where
  | left
  | right
deriving DecidableEq

/-- The other end. -/
def Side.other : Side → Side
  | left => right
  | right => left

/-- The SA a side opened: the session's name at both ends. -/
def Side.opened : Side → SessionRef
  | left => 0
  | right => 1

/-- Two nodes that each opened an SA to the other over one pair of endpoints. `ids` are their identities on it. -/
structure Collision where
  ends : Side → End

namespace Collision

variable (ids : Side → Identity)

/-- The path name at one side. -/
def path (side : Side) : String := sessionName (ids side.other) (ids side).serialNumber

/-- The adoption at `side` of the SA `opener` opened. -/
def adoption (c : Collision) (side opener : Side) : Adoption :=
  (c.ends side).set.adopt (path ids side) opener.opened (ids opener) (ids opener.other) (ids side.other)

/-- One end exchanged. -/
def withEnd (c : Collision) (side : Side) (e : End) : Collision := ⟨fun s => if s = side then e else c.ends s⟩

/-- One end after it adopted the SA `opener` opened. -/
def adoptAt (c : Collision) (side opener : Side) : Collision :=
  c.withEnd side
    { set := (c.adoption ids side opener).set
      waiting := (c.ends side).waiting.erase opener.opened
      closed := (c.ends side).closed ++ (c.adoption ids side opener).closed }

/-- A step at one end: an SA adopted; one that either end closed unwound, which the other end's Delete brings about as well; or some
other session adopted or released under a path of another name. -/
inductive Step : Collision → Collision → Prop
  | adopt {c : Collision} {side opener : Side} (hwaiting : opener.opened ∈ (c.ends side).waiting) :
      Step c (c.adoptAt ids side opener)
  | unwind {c : Collision} {side opener : Side} (hclosed : ∃ s, opener.opened ∈ (c.ends s).closed)
      (hadopted : opener.opened ∉ (c.ends side).waiting) :
      Step c (c.withEnd side
        { c.ends side with
          set := (c.ends side).set.release (path ids side) opener.opened
          closed := opener.opened :: (c.ends side).closed })
  | adoptOther {c : Collision} {side : Side} {name : String} (hname : name ≠ path ids side) (sess : SessionRef) (preferred : Bool)
      (remote : Identity) :
      Step c (c.withEnd side { c.ends side with set := ((c.ends side).set.adoptFor name sess preferred remote).set })
  | releaseOther {c : Collision} {side : Side} {name : String} (hname : name ≠ path ids side) (sess : SessionRef) :
      Step c (c.withEnd side { c.ends side with set := (c.ends side).set.release name sess })

/-- Both SAs are up, and neither end holds anything under the path. -/
structure Starts (c : Collision) : Prop where
  waiting : ∀ side, (c.ends side).waiting = [Side.left.opened, Side.right.opened]
  closed : ∀ side, (c.ends side).closed = []
  vacant : ∀ side, (c.ends side).set.get (path ids side) = none
  serving : ∀ side, (c.ends side).set.shut = false

/-- Both ends hold the SA `keep` opened, and both have closed the other one. -/
def Kept (c : Collision) (keep : Side) : Prop :=
  ∀ side, ((c.ends side).set.get (path ids side)).map (·.session) = some keep.opened ∧
    keep.opened ∉ (c.ends side).closed ∧ keep.other.opened ∈ (c.ends side).closed

end Collision
end RanetLite.Client
