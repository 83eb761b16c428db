import RanetLite.Kernel.Rules
import RanetLite.Lib.KeyedStore

/-!
# The kernel under the reconciler

The routes and policy rules of a Linux kernel, with those of other writers, and a pass of the reconciler over them: `applyRoutes` and
`applyRules` of `internal/kernel/kernel.go` through the calls of `platform_linux.go` and `rules_linux.go`. The kernel takes a route only
where no route of its table has the destination, the source and the metric. How it answers each call is a parameter.
-/

namespace RanetLite.Kernel

open Netip Babel

/-- What makes a route or a rule the reconciler's own. -/
structure Marker where
  table : UInt32
  proto : UInt8
  index : UInt32
deriving DecidableEq, Repr

/-- The type of a route. -/
inductive RouteKind where
  | unicast
  | unreachable
  | other (code : UInt8)
deriving DecidableEq, Repr

/-- A route as the kernel holds it. -/
structure FibRoute where
  table : UInt32
  protocol : UInt8
  kind : RouteKind
  oif : UInt32
  destination : Prefix
  source : Prefix
  prefSrc : Addr
  metric : UInt32
deriving DecidableEq, Repr

/-- What the kernel keys a route by. -/
def FibRoute.key (e : FibRoute) : UInt32 × Prefix × Prefix × UInt32 := (e.table, e.destination, e.source, e.metric)

/-- A rule as the kernel holds it: who wrote it, if the kernel knows, whether it looks a table up, and what it selects. -/
structure FibRule where
  protocol : Option UInt8
  toTable : Bool
  rule : Rule
deriving DecidableEq, Repr

structure Fib where
  routes : KeyedStore FibRoute.key
  rules : List FibRule

/-- How the kernel answers a call: it is done, there is such an entry already, or it is reported as failed, whether it had an effect
or not. -/
inductive Reply where
  | done
  | present
  | failed (effect : Bool)
deriving DecidableEq, Repr

def Reply.effect : Reply → Bool
  | done => true
  | present => false
  | failed effect => effect

/-- The calls of a pass that write. -/
inductive Call where
  | delRoute (route : Route)
  | addRoute (route : Route)
  | delRule (rule : Rule)
  | addRule (rule : Rule)
deriving DecidableEq, Repr

namespace Marker

variable (m : Marker)

/-- The key a route is installed under. -/
def keyOf (r : Route) : UInt32 × Prefix × Prefix × UInt32 := (m.table, r.destination, r.source, r.metric)

/-- The route `routeMessage` asks for: one that is held back names no device. -/
def install (r : Route) : FibRoute :=
  { table := m.table, protocol := m.proto, kind := if r.unreachable then .unreachable else .unicast
    oif := if r.unreachable then 0 else m.index
    destination := r.destination, source := r.source, prefSrc := r.prefSrc, metric := r.metric }

/-- `decodeRoute`: what of a route of the dump is the reconciler's own. -/
def decodeRoute (e : FibRoute) : Option Route :=
  if e.protocol = m.proto ∧ e.table = m.table ∧ (e.kind = .unicast ∧ e.oif = m.index ∨ e.kind = .unreachable) then
    some { destination := e.destination, source := e.source, prefSrc := e.prefSrc, metric := e.metric
           unreachable := e.kind = .unreachable }
  else none

/-- What the delete `routeMessage` encodes matches. The type and the scope are wildcards in it, an attribute that is left out is too. -/
def names (r : Route) (e : FibRoute) : Bool :=
  e.key = m.keyOf r ∧ e.protocol = m.proto ∧ (!r.unreachable → e.oif = m.index) ∧ (r.prefSrc.isValid → e.prefSrc = r.prefSrc)

/-- The rule `ruleMessage` asks for. -/
def installRule (r : Rule) : FibRule := ⟨some m.proto, true, r⟩

/-- `decodeRule`. -/
def decodeRule (e : FibRule) : Option Rule :=
  if e.protocol = some m.proto ∧ e.toTable ∧ e.rule.table ≠ 0 ∧ e.rule.priority ≠ 0 then some e.rule.canonical else none

/-- What the delete `ruleMessage` encodes matches. -/
def namesRule (r : Rule) (e : FibRule) : Bool := e.protocol = some m.proto ∧ e.toTable ∧ e.rule.canonical = r

end Marker

namespace Fib

variable (m : Marker)

/-- `Routes`. -/
def ownRoutes (k : Fib) : List Route := k.routes.entries.filterMap m.decodeRoute

/-- `Rules`. -/
def ownRules (k : Fib) : List Rule := k.rules.filterMap m.decodeRule

def foreignRoutes (k : Fib) : List FibRoute := k.routes.entries.filter fun e => (m.decodeRoute e).isNone

def foreignRules (k : Fib) : List FibRule := k.rules.filter fun e => (m.decodeRule e).isNone

/-- One call. A route whose key is taken is refused whoever holds that, and `AddRule` takes it for done when the rule is there. -/
def call (reply : Call → Reply) (k : Fib) (c : Call) : Fib :=
  if (reply c).effect then
    match c with
    | .delRoute route => { k with routes := k.routes.remove (m.names route) }
    | .addRoute route => { k with routes := k.routes.insert (m.install route) }
    | .delRule rule => { k with rules := k.rules.filter fun e => !m.namesRule rule e }
    | .addRule rule => { k with rules := k.rules ++ [m.installRule rule] }
  else k

end Fib

/-- A snapshot of the forwarding table: different pairs of masked prefixes, and no source that covers every address. -/
structure Snapshot where
  entries : List (Sadr.Route FibTarget)
  distinct : (entries.map fun e => (e.destination, e.source)).Nodup
  masked : ∀ e ∈ entries, e.destination.masked = e.destination ∧ e.source.masked = e.source
  sourced : ∀ e ∈ entries, e.source.bits ≠ 0

/-- What a pass works from: the reconciler with the answer of its gate, its rules, the snapshot of the forwarding table, and what the
underlay answers. -/
structure Inputs where
  reconciler : Reconciler
  ruleSet : RuleSet
  snapshot : Snapshot
  ready : Covered

/-- How the kernel answers in a pass: whether it lists its routes and its rules, and its replies to the calls. -/
structure Replies where
  listsRoutes : Bool
  listsRules : Bool
  reply : Call → Reply

namespace Inputs

variable (a : Inputs) (m : Marker)

/-- The routes of a pass. -/
def wanted : List Route := a.reconciler.covered a.ready (a.reconciler.desired a.snapshot.entries)

/-- The calls of `applyRoutes`: it removes before it installs. -/
def routeCalls (k : Fib) : List Call :=
  let diff := diffRoutes a.wanted (k.ownRoutes m) fun _ => false
  diff.2.map .delRoute ++ diff.1.map .addRoute

/-- The calls of `applyRules`. -/
def ruleCalls (k : Fib) : List Call :=
  ((k.ownRules m).filter (· ∉ a.ruleSet.rules)).map .delRule ++ (a.ruleSet.rules.filter (· ∉ k.ownRules m)).map .addRule

/-- `applyRoutes`. -/
def applyRoutes (r : Replies) (k : Fib) : Fib :=
  if r.listsRoutes then (a.routeCalls m k).foldl (Fib.call m r.reply) k else k

/-- `applyRules`. -/
def applyRules (r : Replies) (k : Fib) : Fib :=
  if r.listsRules then (a.ruleCalls m k).foldl (Fib.call m r.reply) k else k

/-- The part of `reconcile` that is about routes and rules. -/
def pass (r : Replies) (k : Fib) : Fib := a.applyRules m r (a.applyRoutes m r k)

end Inputs

end RanetLite.Kernel
