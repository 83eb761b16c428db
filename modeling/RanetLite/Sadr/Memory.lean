import RanetLite.Sadr.Linear

/-!
# The table in memory

`sadr/table.go` on the memory it works on. Nodes and the entries behind a slice are reached through pointers; a writer allocates a copy of
each node on its path and writes to the copies, and the new root is stored last. A reader holds the two roots it loaded and follows their
pointers in the memory as it is by then. The recursion of the source goes down a trie, of which no path has more nodes than there are
lengths; here it is bounded by `depth`.
-/

namespace RanetLite.Sadr

open Netip

variable {V : Type}

/-- A pointer to a node, or to the array of a slice; nil is none. -/
abbrev Ptr := Option Nat

/-- `trieNode` in memory. -/
structure Cell where
  address : BitVec 128
  prefixLen : Nat
  srcs : Ptr := none
  child : Bool → Ptr := fun _ => none

/-- The nodes and the arrays allocated so far. -/
structure Memory (V : Type) where
  nodes : List Cell := []
  slices : List (List (SrcEntry V)) := []

/-- How deep a recursion may go: one call for each of the 129 lengths, and one for nil. -/
def depth : Nat := 130

namespace Memory

/-- The entries of a slice. -/
def slice (m : Memory V) : Ptr → Option (List (SrcEntry V))
  | none => some []
  | some i => m.slices[i]?

/-- A new slice. -/
def newSlice (m : Memory V) (entries : List (SrcEntry V)) : Memory V × Ptr :=
  ({ m with slices := m.slices ++ [entries] }, some m.slices.length)

/-- A new node. -/
def newNode (m : Memory V) (n : Cell) : Memory V × Nat := ({ m with nodes := m.nodes ++ [n] }, m.nodes.length)

/-- The entries behind a slice overwritten. -/
def writeSlice (m : Memory V) (s : Ptr) (f : List (SrcEntry V) → List (SrcEntry V)) : Memory V :=
  s.elim m fun i => { m with slices := m.slices.modify i f }

/-- A node overwritten. -/
def write (m : Memory V) (p : Nat) (f : Cell → Cell) : Memory V := { m with nodes := m.nodes.modify p f }

/-- `setSrcs`. -/
def setSrcs (m : Memory V) (p : Nat) (srcs : Ptr) : Memory V := m.write p fun n => { n with srcs := srcs }

/-- The assignment to a child. -/
def setChild (m : Memory V) (p : Nat) (bit : Bool) (c : Ptr) : Memory V :=
  m.write p fun n => { n with child := Function.update n.child bit c }

/-- `compact`. -/
def compact (m : Memory V) (p : Nat) : Option (Memory V × Ptr) := do
  let n ← m.nodes[p]?
  let srcs ← m.slice n.srcs
  return (m, if srcs.isEmpty && (n.child false).isNone then n.child true
    else if srcs.isEmpty && (n.child true).isNone then n.child false else some p)

/-- What `edit` is given to do to the entries of a destination. -/
abbrev Change (V : Type) := Memory V → Ptr → Option (Memory V × Ptr)

/-- `edit`. -/
def edit (change : Change V) (address : BitVec 128) (prefixLen : Nat) : Nat → Change V
  | 0, _, _ => none
  | _ + 1, m, none => do
    let (m, srcs) ← change m none
    if (← m.slice srcs).isEmpty then return (m, none)
    let (m, n) := m.newNode { address := address, prefixLen := prefixLen, srcs := srcs }
    return (m, some n)
  | fuel + 1, m, some p => do
    let n ← m.nodes[p]?
    let common := min (min (commonBits n.address address) n.prefixLen) prefixLen
    if common < n.prefixLen then
      let (m, srcs) ← change m none
      if (← m.slice srcs).isEmpty then return (m, some p) -- removing an absent destination
      let (m, parent) := m.newNode { address := address, prefixLen := common }
      let m := m.setChild parent (branch n.address common) (some p)
      if common = prefixLen then return (m.setSrcs parent srcs, some parent)
      let (m, leaf) := m.newNode { address := address, prefixLen := prefixLen, srcs := srcs }
      return (m.setChild parent (branch address common) (some leaf), some parent)
    let (m, copy) := m.newNode n
    if n.prefixLen = prefixLen then
      let (m, srcs) ← change m n.srcs
      (m.setSrcs copy srcs).compact copy
    else
      let bit := branch address n.prefixLen
      let (m, c) ← edit change address prefixLen fuel m (n.child bit)
      (m.setChild copy bit c).compact copy

variable [DecidableEq V]

/-- The function `Set` passes to `change`, which writes to a clone of the entries. -/
def setChange (src : Prefix) (value : V) : Change V := fun m entries => do
  let (m, next) := m.newSlice (← m.slice entries)
  return (m.writeSlice next (setEntry src value), next)

/-- The function `Remove` passes to `change`. -/
def removeChange (src : Prefix) : Change V := fun m entries => do
  let held ← m.slice entries
  if held.any (fun entry => entry.src = src) then return m.newSlice (removeEntry src held)
  return (m, entries)

/-- `removeValue`. -/
def removeValue (value : V) : Nat → Change V
  | 0, _, _ => none
  | _ + 1, m, none => some (m, none)
  | fuel + 1, m, some p => do
    let n ← m.nodes[p]?
    let (m, left) ← removeValue value fuel m (n.child false)
    let (m, right) ← removeValue value fuel m (n.child true)
    let srcs ← m.slice n.srcs
    let found := srcs.any (fun entry => entry.value = value)
    if !found && left = n.child false && right = n.child true then return (m, some p)
    let (m, copy) := m.newNode n
    let m := (m.setChild copy false left).setChild copy true right
    if !found then m.compact copy
    else
      let (m, kept) := m.newSlice (srcs.filter (fun entry => entry.value ≠ value))
      (m.setSrcs copy kept).compact copy

end Memory

/-- The destination `All` reports for a node. -/
def nodePrefix (ipv4 : Bool) (address : BitVec 128) (prefixLen : Nat) : Prefix :=
  (if ipv4 then prefixFrom (Addr.v6 address "").unmap ((prefixLen : Int) - 96) else prefixFrom (.v6 address "") prefixLen).masked

/-- The routes of one node. -/
def nodeRoutes (ipv4 : Bool) (address : BitVec 128) (prefixLen : Nat) (srcs : List (SrcEntry V)) : List (Route V) :=
  srcs.map fun entry => ⟨entry.src, nodePrefix ipv4 address prefixLen, entry.value⟩

/-- Routes handed to `yield` one after the other, as long as it says to go on. -/
def feed {σ : Type} (yield : Route V → σ → σ × Bool) : List (Route V) → σ → σ × Bool
  | [], s => (s, true)
  | r :: rest, s => if (yield r s).2 then feed yield rest (yield r s).1 else yield r s

/-- `walk` of `All`. What `yield` does may change the memory, which is part of the state it works on. -/
def walk {σ : Type} (memory : σ → Memory V) (yield : Route V → σ → σ × Bool) (ipv4 : Bool) : Nat → Ptr → σ → Option (σ × Bool)
  | 0, _, _ => none
  | _ + 1, none, s => some (s, true)
  | fuel + 1, some p, s => do
    let n ← (memory s).nodes[p]?
    let srcs ← (memory s).slice n.srcs
    let (s, more) := feed yield (nodeRoutes ipv4 n.address n.prefixLen srcs) s
    if !more then return (s, false)
    let (s, more) ← walk memory yield ipv4 fuel (n.child false) s
    if !more then return (s, false)
    walk memory yield ipv4 fuel (n.child true) s

/-- A table: the memory, and the two roots it has published. -/
structure Published (V : Type) where
  memory : Memory V := {}
  ipv4 : Ptr := none
  ipv6 : Ptr := none

namespace Published

/-- `All`, for a snapshot of the roots. -/
def all {σ : Type} (table : σ → Published V) (yield : Route V → σ → σ × Bool) (ipv4 ipv6 : Ptr) (s : σ) : Option (σ × Bool) := do
  let (s, more) ← walk (fun s => (table s).memory) yield true depth ipv4 s
  if !more then return (s, false)
  walk (fun s => (table s).memory) yield false depth ipv6 s

/-- `Table.change`. -/
def change (t : Published V) (src dst : Prefix) (fn : Memory.Change V) : Option (Published V) := do
  if !validPrefixes src dst then return t
  if dst.addr.is4 then
    let (m, root) ← Memory.edit fn dst.addr.as16 (dst.bits.toNat + 96) depth t.memory t.ipv4
    return { t with memory := m, ipv4 := root }
  else
    let (m, root) ← Memory.edit fn dst.addr.as16 dst.bits.toNat depth t.memory t.ipv6
    return { t with memory := m, ipv6 := root }

variable [DecidableEq V]

/-- One call on the table. -/
def apply (t : Published V) : Op V → Option (Published V)
  | .set src dst value => t.change src.masked dst (Memory.setChange src.masked value)
  | .remove src dst => t.change src.masked dst (Memory.removeChange src.masked)
  | .removeValue value => do
    let (m, ipv4) ← Memory.removeValue value depth t.memory t.ipv4
    let (m, ipv6) ← Memory.removeValue value depth m t.ipv6
    return { memory := m, ipv4 := ipv4, ipv6 := ipv6 }

/-- A sequence of calls. -/
def run (t : Published V) (ops : List (Op V)) : Option (Published V) := ops.foldlM apply t

end Published
end RanetLite.Sadr
