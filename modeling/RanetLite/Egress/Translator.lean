import RanetLite.Netip

/-!
# The egress translator

`internal/egress/egress.go`: the rules a configuration asks for, and one pass over the host, which installs them and decides which
prefixes may be advertised. The host is the answers it gives during a pass; how an address is printed is a parameter. The counters and
the conflicts a pass reports, and the timers between passes, are left out.
-/

namespace RanetLite.Translator

open Netip

/-- An address family. -/
inductive Family where
  | ipv4
  | ipv6
deriving DecidableEq, Repr

/-- `familyName`. -/
def Family.name : Family → String
  | ipv4 => "ipv4"
  | ipv6 => "ipv6"

/-- `addressFamily`. -/
def addressFamily (a : Addr) : Family := if a.is4 then .ipv4 else .ipv6

/-- The `Egress` capability. A source that names no address is the zero address. -/
structure Egress where
  advertise : List Prefix
  source4 : Addr := .zero
  source6 : Addr := .zero
  return_ : Bool := false
  sweep : Int := 0
deriving DecidableEq, Repr

/-- Why `Validate` or `New` refuses. -/
inductive EgressError where
  | empty
  | notPrefix (p : Prefix)
  | hostBits (p : Prefix)
  | zone (p : Prefix)
  | mapped (p : Prefix)
  | writtenTwice (p : Prefix)
  | sourceFamily (field : String) (a : Addr)
  | sourceUnanswerable (field : String) (a : Addr)
  | negativeSweep
  | noMeshAddress (family : Family)
  | severalMeshAddresses (family : Family) (candidates : List Addr)
deriving DecidableEq, Repr

/-- What `Validate` asks of one prefix. -/
def checkPrefix (p : Prefix) : Option EgressError :=
  if !p.isValid then some (.notPrefix p)
  else if p.masked ≠ p then some (.hostBits p)
  else if p.addr.zone ≠ "" then some (.zone p)
  else if p.addr.is4In6 then some (.mapped p)
  else none

/-- The first prefix that stands earlier in the list already. -/
def writtenTwice : (seen : List Prefix) → List Prefix → Option EgressError
  | _, [] => none
  | seen, p :: rest => if p ∈ seen then some (.writtenTwice p) else writtenTwice (seen ++ [p]) rest

/-- What `Validate` asks of one source. -/
def checkSource (field : String) (is4 : Bool) (a : Addr) : Option EgressError :=
  if !a.isValid then none
  else if a.is4 ≠ is4 then some (.sourceFamily field a)
  else if !a.isGlobalUnicast ∧ !a.isPrivate then some (.sourceUnanswerable field a)
  else none

namespace Egress

/-- `Validate`. -/
def validate (e : Egress) : Option EgressError :=
  if e.advertise = [] then some .empty
  else (e.advertise.findSome? checkPrefix).or <| (writtenTwice [] e.advertise).or <|
    (checkSource "source4" true e.source4).or <| (checkSource "source6" false e.source6).or <|
    if e.sweep < 0 then some .negativeSweep else none

/-- `families`, in order. -/
def families (e : Egress) : List Family := [.ipv4, .ipv6].filter fun family => e.advertise.any fun p => addressFamily p.addr = family

/-- `source`. -/
def source (e : Egress) : Family → Addr
  | .ipv4 => e.source4
  | .ipv6 => e.source6

end Egress

/-- The part of `Runtime` the rules depend on. -/
structure Runtime where
  interface : String
  meshAddresses : List Addr
deriving DecidableEq, Repr

/-- The mesh addresses of a family a reply can be sent to, each once. -/
def candidates (rt : Runtime) (family : Family) : List Addr :=
  rt.meshAddresses.foldl (fun out a =>
    if addressFamily a ≠ family ∨ (!a.isGlobalUnicast ∧ !a.isPrivate) ∨ a ∈ out then out else out ++ [a]) []

/-- `returnSource`. -/
def returnSource (cfg : Egress) (rt : Runtime) (family : Family) : Except EgressError Addr :=
  if !cfg.return_ then .ok .zero
  else if (cfg.source family).isValid then .ok (cfg.source family)
  else match candidates rt family with
    | [a] => .ok a
    | [] => .error (.noMeshAddress family)
    | several => .error (.severalMeshAddresses family several)

/-- `Direction`. -/
inductive Direction where
  | out
  | in_
deriving DecidableEq, Repr

/-- `Rule`: the zero address lets the host pick, and the zero prefix narrows nothing. -/
structure Rule where
  family : Family
  direction : Direction
  interface : String
  source : Addr := .zero
  from_ : Prefix := .none
deriving DecidableEq, Repr

/-- How the host prints addresses and prefixes. -/
structure Printer where
  addr : Addr → String
  net : Prefix → String

/-- `Rule.String`. -/
def Rule.text (print : Printer) (r : Rule) : String :=
  let source := if r.source.isValid then "source " ++ print.addr r.source else "masquerade"
  let from_ := if r.from_.isValid then ["from", print.net r.from_] else []
  let direction := match r.direction with
    | .out => "out"
    | .in_ => "in"
  " ".intercalate ([direction, "via", r.interface, r.family.name] ++ from_ ++ [source])

/-- `desired`. -/
def desired (cfg : Egress) (rt : Runtime) : List Rule :=
  cfg.families.flatMap fun family =>
    let out : Rule := { family := family, direction := .out, interface := rt.interface, source := cfg.source family }
    if !cfg.return_ then [out]
    else match returnSource cfg rt family with
      | .error _ => [out]
      | .ok source =>
        if !source.isValid then [out]
        else out :: (cfg.advertise.filter fun p => addressFamily p.addr = family).map fun p =>
          { family := family, direction := .in_, interface := rt.interface, source := source
            from_ := if 0 < p.bits then p else .none }

/-- What the backend and the sysctls answer during one pass: the rules listed and whether listing failed, whether installing fails, the
rules listed after it, and whether each family forwards. -/
structure Host where
  rules : List String
  rulesFail : Bool := false
  applyFails : Bool := false
  reread : List String := []
  forwards : Family → Bool

/-- The rules a pass knows the host to hold. -/
def Host.held (host : Host) (print : Printer) (rules : List Rule) : List String :=
  if host.rulesFail then host.rules
  -- `sameRules`
  else if host.rules = rules.map (·.text print) then host.rules
  else if host.applyFails then host.rules
  else host.reread

/-- The `ready` map of a pass. -/
def ready (cfg : Egress) (rt : Runtime) (print : Printer) (host : Host) (family : Family) : Bool :=
  family ∈ cfg.families ∧ host.forwards family ∧
    (desired cfg rt).all fun rule => rule.family ≠ family ∨ rule.text print ∈ host.held print (desired cfg rt)

/-- The prefixes a pass may announce. -/
def announceable (cfg : Egress) (rt : Runtime) (print : Printer) (host : Host) : List Prefix :=
  cfg.advertise.filter fun p => ready cfg rt print host (addressFamily p.addr)

end RanetLite.Translator
