import RanetLite.Babel.RouteTable

/-!
# What a route table is asked to do

The calls the speaker makes on its route table, each with the neighbors it reads and the time it is made at. `adopt` and `release` are
the writes of `adoptOriginatedLocked` and `releaseOriginatedLocked`.
-/

namespace RanetLite.Babel

/-- A call on a route table. -/
inductive TableOp where
  | update (n : NeighborRef) (key : RouteKey) (adv : Advertisement) (hold : Duration)
  | retractNeighbor (n : NeighborRef)
  | recomputeNeighbor (n : NeighborRef)
  | expireNeighbor (n : NeighborRef)
  | sweepExpired
  | observe (key : RouteKey) (adv : Advertisement) (from_ : String)
  | markDirty (key : RouteKey)
  | takeDirty
  | takeStarved
  | adopt (key : RouteKey)
  | release (key : RouteKey)

namespace RouteTable

/-- The entry of a prefix dropped, and the prefix held unreachable. -/
def adopt (rt : RouteTable) (key : RouteKey) : RouteTable :=
  { rt with entries := rt.entries.erase key, fib := rt.fib.set key.source key.dest .unreachable }

/-- The table after a call. -/
def apply (rt : RouteTable) (nb : NeighborHeap) (now : Time) : TableOp → RouteTable
  | .update n key adv hold => rt.update nb n key adv hold now
  | .retractNeighbor n => rt.retractNeighbor nb n now
  | .recomputeNeighbor n => rt.recomputeNeighbor nb n now
  | .expireNeighbor n => rt.expireNeighbor nb n now
  | .sweepExpired => rt.sweepExpired nb now
  | .observe key adv from_ => rt.observe key adv from_ now
  | .markDirty key => rt.markDirty key
  | .takeDirty => rt.takeDirty.2
  | .takeStarved => rt.takeStarved.2
  | .adopt key => rt.adopt key
  | .release key => rt.flush key

end RouteTable
end RanetLite.Babel
