import RanetLite.Kernel.Reconciler

/-!
# The link the reconciler shares

The addresses, the master and the VRF device, at the granularity of the kernel's calls: the steps of `applyVRF`, `applyMaster` and
`applyAddresses` in a pass and of `withdraw` of `internal/kernel/kernel.go`, with the calls of `platform_linux.go` they make. Other
writers change the same link between any two calls, and any call of the reconciler may fail. The kernel remembers of everything it
holds whether another writer had a hand in it.
-/

namespace RanetLite.Kernel

open Netip

/-- Who wrote an entry of the kernel. -/
inductive Writer where
  | reconciler
  | other
deriving DecidableEq, Repr

/-- An address of the link. -/
structure AddrEntry where
  net : Prefix
  writer : Writer
deriving DecidableEq, Repr

/-- What the kernel holds: the link's addresses, its master, and the device of the configured VRF's name. -/
structure LinkHost where
  addrs : List AddrEntry := []
  master : Option (String × Writer) := none
  vrf : Option Writer := none
deriving DecidableEq, Repr

namespace LinkHost

/-- `AddAddr`: assigning is an upsert by the address, so an entry of the same address is rewritten. -/
def addAddr (h : LinkHost) (net : Prefix) (writer : Writer) : LinkHost :=
  if h.addrs.any fun e => e.net.addr = net.addr then
    { h with addrs := h.addrs.map fun e => if e.net.addr = net.addr then
        ⟨net, if e.writer = .other ∨ writer = .other then .other else .reconciler⟩ else e }
  else { h with addrs := h.addrs ++ [⟨net, writer⟩] }

/-- `DelAddr`, which darwin matches on the address alone. -/
def delAddr (h : LinkHost) (byAddress : Bool) (net : Prefix) : LinkHost :=
  { h with addrs := h.addrs.filter fun e => if byAddress then e.net.addr ≠ net.addr else e.net ≠ net }

/-- A deleted VRF device lets its links go. -/
def delVRF (h : LinkHost) (name : String) : LinkHost :=
  { h with vrf := none, master := h.master.filter fun m => m.1 ≠ name }

end LinkHost

/-- The part of the configuration the link depends on. -/
structure LinkConfig where
  addresses : List Prefix := []
  vrf : String := ""
  create : Bool := false
  byAddress : Bool := false
deriving DecidableEq, Repr

/-- Where the reconcile goroutine stands: in which step of a pass or of a withdrawal, with what it has read. -/
inductive Phase where
  | idle
  | vrf
  | creating
  | master
  | enslaving
  | addresses
  | assigning (held rest : List Prefix)
  | unassigning
  | removing (held rest : List Prefix)
  | releasing
  | unmaking
deriving DecidableEq, Repr

/-- The kernel with the record a reconciler keeps of what it did: `owned`, `enslaved` and `madeVRF`. -/
structure Link where
  host : LinkHost
  owned : List Prefix := []
  enslaved : Bool := false
  madeVRF : Bool := false
  phase : Phase := .idle
deriving DecidableEq, Repr

namespace Link

/-- The keys of `owned` in order. -/
def addressesInOrder (s : Link) : List Prefix := s.owned.mergeSort fun a b => comparePrefixes a b ≠ .gt

/-- A call of the reconciler, or a decision between two. The constructors that only move on also stand for calls that fail. -/
inductive Act (cfg : LinkConfig) : Link → Link → Prop
  -- `applyVRF`
  | pass {s : Link} (hphase : s.phase = .idle) : Act cfg s { s with phase := .vrf }
  | found {s : Link} (hphase : s.phase = .vrf) : Act cfg s { s with phase := .master }
  | absent {s : Link} (hphase : s.phase = .vrf) (hcreate : cfg.create = true ∧ cfg.vrf ≠ "") (hvrf : s.host.vrf = none) :
      Act cfg s { s with phase := .creating }
  | create {s : Link} (hphase : s.phase = .creating) (hvrf : s.host.vrf = none) :
      Act cfg s { s with host := { s.host with vrf := some .reconciler }, madeVRF := true, phase := .master }
  | refused {s : Link} (hphase : s.phase = .creating) : Act cfg s { s with phase := .master }
  -- `applyMaster`
  | leave {s : Link} (hphase : s.phase = .master) : Act cfg s { s with phase := .addresses }
  | free {s : Link} (hphase : s.phase = .master) (hname : cfg.vrf ≠ "") (hmaster : s.host.master = none) :
      Act cfg s { s with phase := .enslaving }
  | enslave {s : Link} (hphase : s.phase = .enslaving) (hvrf : s.host.vrf ≠ none) :
      Act cfg s { s with
        host := { s.host with master := some (cfg.vrf, .reconciler) }, enslaved := true, phase := .addresses }
  | enslaveFails {s : Link} (hphase : s.phase = .enslaving) : Act cfg s { s with phase := .addresses }
  -- `applyAddresses`
  | noAddresses {s : Link} (hphase : s.phase = .addresses) : Act cfg s { s with phase := .idle }
  | list {s : Link} (hphase : s.phase = .addresses) :
      Act cfg s { s with phase := .assigning (s.host.addrs.map AddrEntry.net) cfg.addresses }
  | taken {s : Link} {held rest : List Prefix} {net : Prefix} (hphase : s.phase = .assigning held (net :: rest)) :
      Act cfg s { s with phase := .assigning held rest }
  | assign {s : Link} {held rest : List Prefix} {net : Prefix} (hphase : s.phase = .assigning held (net :: rest))
      (hfree : ∀ h ∈ held, h.addr ≠ net.addr) :
      Act cfg s { s with
        host := s.host.addAddr net .reconciler, owned := s.owned.insert net, phase := .assigning held rest }
  | assigned {s : Link} {held : List Prefix} (hphase : s.phase = .assigning held []) : Act cfg s { s with phase := .idle }
  -- `withdraw`
  | withdraw {s : Link} (hphase : s.phase = .idle) : Act cfg s { s with phase := .unassigning }
  | listFails {s : Link} (hphase : s.phase = .unassigning) : Act cfg s { s with phase := .releasing }
  | readBack {s : Link} (hphase : s.phase = .unassigning) :
      Act cfg s { s with phase := .removing (s.host.addrs.map AddrEntry.net) s.addressesInOrder }
  | notHeld {s : Link} {held rest : List Prefix} {net : Prefix} (hphase : s.phase = .removing held (net :: rest))
      (hheld : net ∉ held) : Act cfg s { s with owned := s.owned.filter (· ≠ net), phase := .removing held rest }
  | remove {s : Link} {held rest : List Prefix} {net : Prefix} (hphase : s.phase = .removing held (net :: rest))
      (hheld : net ∈ held) :
      Act cfg s { s with
        host := s.host.delAddr cfg.byAddress net, owned := s.owned.filter (· ≠ net), phase := .removing held rest }
  | removeFails {s : Link} {held rest : List Prefix} {net : Prefix} (hphase : s.phase = .removing held (net :: rest)) :
      Act cfg s { s with phase := .removing held rest }
  | removed {s : Link} {held : List Prefix} (hphase : s.phase = .removing held []) : Act cfg s { s with phase := .releasing }
  | release {s : Link} (hphase : s.phase = .releasing) (henslaved : s.enslaved = true) :
      Act cfg s { s with host := { s.host with master := none }, enslaved := false, phase := .unmaking }
  | keepMaster {s : Link} (hphase : s.phase = .releasing) : Act cfg s { s with phase := .unmaking }
  | unmake {s : Link} (hphase : s.phase = .unmaking) (hmade : s.madeVRF = true) :
      Act cfg s { s with host := s.host.delVRF cfg.vrf, madeVRF := false, phase := .idle }
  | keepVRF {s : Link} (hphase : s.phase = .unmaking) : Act cfg s { s with phase := .idle }

/-- What another writer does to the link. -/
inductive Other where
  | addAddr (net : Prefix)
  | delAddr (net : Prefix)
  | setMaster (name : String)
  | clearMaster
  | createVRF
  | deleteVRF
deriving DecidableEq, Repr

/-- What the kernel lets another writer do: a master exists, and a device is created under a free name. -/
def Other.enabled (cfg : LinkConfig) (s : Link) : Other → Prop
  | setMaster name => name = cfg.vrf → s.host.vrf ≠ none
  | createVRF => s.host.vrf = none
  | _ => True

/-- The kernel after it. -/
def Other.apply (cfg : LinkConfig) (h : LinkHost) : Other → LinkHost
  | addAddr net => h.addAddr net .other
  | delAddr net => h.delAddr false net
  | setMaster name => { h with master := some (name, .other) }
  | clearMaster => { h with master := none }
  | createVRF => { h with vrf := some .other }
  | deleteVRF => h.delVRF cfg.vrf

/-- Another writer keeps clear of what the reconciler has on record: it does not assign the very prefix the reconciler recorded, nor an
address the reconciler is about to assign after reading the link, or about to remove after reading it where the kernel matches on the
address alone. It does not set a master over the one the reconciler set or is about to set, nor the link into a VRF the reconciler
made, and does not make that device again. -/
def Other.keepsClear (cfg : LinkConfig) (s : Link) : Other → Prop
  | addAddr net => net ∉ s.owned ∧
      (∀ held rest, s.phase = .assigning held rest → ∀ q ∈ rest, (∀ h ∈ held, h.addr ≠ q.addr) → q.addr ≠ net.addr) ∧
      (cfg.byAddress = true → ∀ held rest, s.phase = .removing held rest → ∀ q ∈ rest, q ∈ held → q.addr ≠ net.addr)
  | setMaster name => s.enslaved = false ∧ s.phase ≠ .enslaving ∧ (name = cfg.vrf → s.madeVRF = false)
  | createVRF => s.madeVRF = false
  | _ => True

/-- A step of the link: a call of the reconciler, or an act of another writer. With `clear` other writers keep clear of the record. -/
inductive Step (cfg : LinkConfig) (clear : Bool) : Link → Link → Prop
  | act {s s' : Link} (hact : Act cfg s s') : Step cfg clear s s'
  | other {s : Link} (o : Other) (henabled : o.enabled cfg s) (hclear : clear = true → o.keepsClear cfg s) :
      Step cfg clear s { s with host := o.apply cfg s.host }

end Link
end RanetLite.Kernel
