import RanetLite.Srv6.Header

/-!
# The segments of a node

`srv6/local.go`: what a node does with a packet that is addressed to one of its own segments. `Handle` rewrites its packet in place for
a waypoint; here it returns the packet as it leaves it, beside its decision.
-/

namespace RanetLite.Srv6

open Bytes Netip

/-- `Behavior`. -/
inductive Behavior where
  | endpoint
  | endDT46
  /-- A value that `NewLocalTable` refuses. -/
  | other (code : UInt8)
deriving DecidableEq, Repr

/-- `LocalTable`. -/
structure LocalTable where
  entries : Addr → Option Behavior

/-- Why a packet for a segment of this node is dropped. -/
inductive HandleError where
  | segment (e : SegmentError)
  | unimplemented (destination : Addr)
deriving DecidableEq, Repr

/-- The text of the error. -/
def HandleError.text (render : Addr → String) : HandleError → String
  | segment e => e.text render
  | unimplemented destination => "srv6: " ++ render destination ++ " carries an unimplemented behavior"

/-- `Result`, by its `Action`. -/
inductive Result where
  | pass
  | forward (next : Addr)
  | deliver (inner : List UInt8) (family : UInt8)
  | drop (err : HandleError)
deriving DecidableEq, Repr

/-- The behavior a table has for the destination of a packet. A nil table has none, and neither does anything but IPv6. -/
def behaviorOf (table : Option LocalTable) (raw : List UInt8) : Option Behavior :=
  match table with
  | none => none
  | some t => if raw.length < ipv6HeaderLen ∨ raw.getD 0 0 >>> 4 ≠ 6 then none else t.entries (.v6 (wordAt 128 raw 24) "")

/-- `Handle`: the packet as it is left, and the decision. -/
def handle (table : Option LocalTable) (raw : List UInt8) : List UInt8 × Result :=
  match behaviorOf table raw with
  | none => (raw, .pass)
  | some .endpoint => match endSegment raw with
    | .error e => (raw, .drop (.segment e))
    | .ok (raw', next) => (raw', .forward next)
  | some .endDT46 => match decap raw with
    | .error e => (raw, .drop (.segment e))
    | .ok (inner, family) => (raw, .deliver inner family)
  | some (.other _) => (raw, .drop (.unimplemented (.v6 (wordAt 128 raw 24) "")))

end RanetLite.Srv6
