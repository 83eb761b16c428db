import RanetLite.Client.Sessions

/-!
# A reload among handshakes

The part of `ReloadFrom` that decides who may stay, among handshakes in either direction. A handshake reads the registry once:
`connectPeer` before it dials, and `lookupPeerKey` when a peer that dialed us authenticates. Its session is adopted later, without
asking again. The reload stores the new registry, sweeps the sessions held under the set's lock, and closes what it took out.
-/

namespace RanetLite.Client

/-- A handshake that has read the registry and whose session is not adopted yet. `early` says that it read the registry before the
reload stored the new one. -/
structure Handshake where
  path : String
  session : SessionRef
  initiator : Identity
  responder : Identity
  peer : Identity
  early : Bool
deriving DecidableEq, Repr

/-- How far the reload has come. -/
inductive ReloadPhase where
  | before
  | stored
  | swept
  | returned
deriving DecidableEq, Repr

/-- The node: its registry, its sessions, the handshakes under way and the reload. -/
structure Revocation where
  registry : Registry
  sessions : SessionSet := {}
  handshakes : List Handshake := []
  phase : ReloadPhase := .before
deriving DecidableEq, Repr

/-- Whether a registry names a peer. -/
def Registry.Names (reg : Registry) (peer : Identity) : Prop := (reg.findNode peer.organization peer.commonName).isSome = true

/-- What `connectPeer` reads of the registry: the peer's node, the endpoint it dials and the key. -/
def dialKey (parse : String → Option (List UInt8)) (reg : Registry) (peer : Identity) : Option (List UInt8) := do
  let (organization, node) ← reg.findNode peer.organization peer.commonName
  let _ ← node.findEndpoint peer.serialNumber
  parse organization.publicKey

namespace Revocation

/-- A handshake that reads the registry now. -/
def handshake (s : Revocation) (path : String) (session : SessionRef) (initiator responder peer : Identity) : Handshake :=
  { path := path, session := session, initiator := initiator, responder := responder, peer := peer, early := s.phase = .before }

/-- A step of the node `self`, whose reload loads the registry `next`. The runs of the source are those with `prompt` false. With
`prompt` a handshake that read the old registry is not adopted once the set has been swept, unless the new one names its peer. -/
inductive Step (parse : String → Option (List UInt8)) (self : Identity) (next : Registry) (prompt : Bool) : Revocation → Revocation → Prop
  | dial {s : Revocation} {peer : Identity} {serial : String} {session : SessionRef} {key : List UInt8}
      (hkey : dialKey parse s.registry peer = some key) :
      Step parse self next prompt s { s with
        handshakes := s.handshake (sessionName peer serial) session { self with serialNumber := serial } peer peer :: s.handshakes }
  | answer {s : Revocation} {peer : Identity} {serial : String} {session : SessionRef} {key : List UInt8}
      (hkey : lookupPeerKey parse self s.registry peer = some key) :
      Step parse self next prompt s { s with
        handshakes := s.handshake (sessionName peer serial) session peer { self with serialNumber := serial } peer :: s.handshakes }
  | abandon {s : Revocation} (h : Handshake) : Step parse self next prompt s { s with handshakes := s.handshakes.erase h }
  | adopt {s : Revocation} {h : Handshake} (hmem : h ∈ s.handshakes)
      (hprompt : prompt = true → h.early = true → s.phase = .swept ∨ s.phase = .returned → next.Names h.peer) :
      Step parse self next prompt s { s with
        sessions := (s.sessions.adopt h.path h.session h.initiator h.responder h.peer).set
        handshakes := s.handshakes.erase h }
  | release (s : Revocation) (path : String) (session : SessionRef) :
      Step parse self next prompt s { s with sessions := s.sessions.release path session }
  | store {s : Revocation} (hphase : s.phase = .before) : Step parse self next prompt s { s with registry := next, phase := .stored }
  | sweep {s : Revocation} (hphase : s.phase = .stored) :
      Step parse self next prompt s { s with sessions := (s.sessions.revoke (stillTrusted parse self s.registry)).1, phase := .swept }
  | return_ {s : Revocation} (hphase : s.phase = .swept) : Step parse self next prompt s { s with phase := .returned }

end Revocation
end RanetLite.Client
