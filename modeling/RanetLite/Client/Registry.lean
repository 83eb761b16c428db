import Mathlib.Data.String.Basic

/-!
# The registry

`internal/registry/registry.go`: who is in the mesh and under which key. Parsing a PEM key is a function of its text, a parameter
here; an endpoint's address is not looked at.
-/

namespace RanetLite.Client

/-- `Endpoint`, without its address. -/
structure Endpoint where
  serialNumber : String
  addressFamily : String
  port : UInt16
deriving DecidableEq, Repr

/-- `Node`. -/
structure RegistryNode where
  commonName : String
  endpoints : List Endpoint
deriving DecidableEq, Repr

/-- `Organization`. -/
structure Organization where
  publicKey : String
  organization : String
  nodes : List RegistryNode
deriving DecidableEq, Repr

/-- `Registry`. -/
abbrev Registry := List Organization

/-- Why a registry is refused. -/
inductive RegistryError where
  | organizationRequired
  | publicKey (organization : String)
  | commonNameRequired (organization : String)
  | duplicateNode (node organization : String)
  | invalidEndpoint (node : String)
  | duplicateEndpoint (endpoint node : String)
deriving DecidableEq, Repr

/-- `FindEndpoint`. -/
def RegistryNode.findEndpoint (n : RegistryNode) (serial : String) : Option Endpoint :=
  n.endpoints.find? (·.serialNumber = serial)

/-- `Organization.FindNode`. -/
def Organization.findNode (o : Organization) (commonName : String) : Option RegistryNode :=
  o.nodes.find? (·.commonName = commonName)

namespace Registry

/-- `FindNode`: the first node of the name in any block of the organization's name, with its block. -/
def findNode : Registry → (organization commonName : String) → Option (Organization × RegistryNode)
  | [], _, _ => none
  | candidate :: rest, organization, commonName =>
    if candidate.organization ≠ organization then findNode rest organization commonName
    else match candidate.findNode commonName with
      | some node => some (candidate, node)
      | none => findNode rest organization commonName

/-- The endpoints of a node: each is complete, and no serial stands twice. -/
def validateEndpoints (node : String) : (seen : List String) → List Endpoint → Except RegistryError Unit
  | _, [] => .ok ()
  | seen, endpoint :: rest =>
    if endpoint.serialNumber = "" ∨ endpoint.port = 0 ∨ (endpoint.addressFamily ≠ "ip4" ∧ endpoint.addressFamily ≠ "ip6") then
      .error (.invalidEndpoint node)
    else if endpoint.serialNumber ∈ seen then .error (.duplicateEndpoint endpoint.serialNumber node)
    else validateEndpoints node (endpoint.serialNumber :: seen) rest

/-- The nodes of a block, given the names seen in blocks of the same organization: each is named, and no name stands twice. -/
def validateNodes (organization : String) : (named : List String) → List RegistryNode → Except RegistryError (List String)
  | named, [] => .ok named
  | named, node :: rest =>
    if node.commonName = "" then .error (.commonNameRequired organization)
    else if node.commonName ∈ named then .error (.duplicateNode node.commonName organization)
    else match validateEndpoints node.commonName [] node.endpoints with
      | .error e => .error e
      | .ok () => validateNodes organization (node.commonName :: named) rest

/-- The loop of `Validate`, with the names seen per organization. -/
def validateFrom (parse : String → Option (List UInt8)) : (nodes : String → List String) → Registry → Except RegistryError Unit
  | _, [] => .ok ()
  | nodes, organization :: rest =>
    if organization.organization = "" then .error .organizationRequired
    else if (parse organization.publicKey).isNone then .error (.publicKey organization.organization)
    else match validateNodes organization.organization (nodes organization.organization) organization.nodes with
      | .error e => .error e
      | .ok named => validateFrom parse (fun o => if o = organization.organization then named else nodes o) rest

/-- `Validate`. -/
def validate (parse : String → Option (List UInt8)) (r : Registry) : Except RegistryError Unit := validateFrom parse (fun _ => []) r

end Registry
end RanetLite.Client
