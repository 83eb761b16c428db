import RanetLite.Sadr.Table

/-!
# The table as a list of routes

What the table is for, without the trie: a list of live routes, one per pair of masked prefixes, and a lookup that scans all of
them for the longest destination, then the longest source.
-/

namespace RanetLite.Sadr

open Netip

variable {V : Type}

/-- `Route`: one canonical entry. An invalid source matches every source address. -/
structure Route (V : Type) where
  source : Prefix
  destination : Prefix
  value : V
deriving DecidableEq, Repr

/-- A route applies to a packet when its destination contains the packet's and its source, if it has one, the packet's. -/
def Route.applies (r : Route V) (src dst : Addr) : Bool :=
  r.destination.contains dst && (!r.source.isValid || r.source.contains src)

/-- A route beats another by a longer destination, or by the same destination length and a longer source. -/
def Route.beats (r best : Route V) : Bool :=
  best.destination.bits < r.destination.bits ||
    best.destination.bits == r.destination.bits && best.source.bits < r.source.bits

/-- The calls that change a table. -/
inductive Op (V : Type) where
  | set (src dst : Prefix) (value : V)
  | remove (src dst : Prefix)
  | removeValue (value : V)

/-- The live routes. -/
abbrev Linear (V : Type) := List (Route V)

namespace Linear

/-- The better of the best route so far and the next one. -/
def pick : Option (Route V) → Route V → Option (Route V)
  | none, r => some r
  | some best, r => if r.beats best then some r else some best

/-- The linear scan. -/
def lookup (routes : Linear V) (src dst : Addr) : Option V :=
  ((routes.filter (fun r => r.applies src dst)).foldl pick none).map (·.value)

/-- The routes of other pairs of prefixes. -/
def without (routes : Linear V) (src dst : Prefix) : Linear V :=
  routes.filter (fun r => !(r.source = src.masked ∧ r.destination = dst.masked))

variable [DecidableEq V]

/-- One call on the live routes. -/
def apply (routes : Linear V) : Op V → Linear V
  | .set src dst value =>
    if validPrefixes src dst then ⟨src.masked, dst.masked, value⟩ :: without routes src dst else routes
  | .remove src dst => if validPrefixes src dst then without routes src dst else routes
  | .removeValue value => routes.filter (fun r => r.value ≠ value)

end Linear

variable [DecidableEq V]

/-- One call on the table. -/
def Table.apply (t : Table V) : Op V → Table V
  | .set src dst value => t.set src dst value
  | .remove src dst => t.remove src dst
  | .removeValue value => t.removeValue value

/-- The table after a sequence of calls on an empty one. -/
def Table.run (ops : List (Op V)) : Table V := ops.foldl Table.apply {}

/-- The live routes after a sequence of calls. -/
def Linear.run (ops : List (Op V)) : Linear V := ops.foldl Linear.apply []

end RanetLite.Sadr
