import RanetLite.Babel.Update

/-!
# Announcements

`internal/babel/routes.go` and the key an announcement takes in `speaker.go`: what configuration validation refuses, and the
route key of what it accepts.
-/

namespace RanetLite.Babel

open Netip

/-- `schema.Announce`: a prefix and the source prefix it is reachable from, invalid when it has none. -/
structure Announce where
  destination : Prefix
  source : Prefix := .none
deriving DecidableEq, Repr

/-- The two fields of an announcement, in the order they are checked. -/
inductive AnnounceField where
  | dest
  | source
deriving DecidableEq, Repr

/-- The name the configuration file gives a field. -/
def AnnounceField.name : AnnounceField → String
  | dest => "prefix"
  | source => "from"

/-- Why an announcement is refused. -/
inductive RoutesError where
  | maskedDefault (field : AnnounceField) (p : Prefix)
  | coversEverything (entry : Announce)
  | mismatchedFamilies (entry : Announce)
  | ipv4SourceSpecific (entry : Announce)
deriving DecidableEq, Repr

/-- `Announce.String`, over a rendering of prefixes. -/
def Announce.text (render : Prefix → String) (entry : Announce) : String :=
  if entry.source.isValid then render entry.destination ++ " from " ++ render entry.source else render entry.destination

/-- The text the source gives the error, over a rendering of prefixes. -/
def RoutesError.text (render : Prefix → String) : RoutesError → String
  | maskedDefault field p =>
    "babel: cap.route announce " ++ field.name ++ " " ++ render p ++ " announces a default route, write " ++
      (if p.addr.is4 then "0.0.0.0" else "::") ++ "/0 to mean that"
  | coversEverything entry =>
    "babel: cap.route announce " ++ entry.text render ++
      ": a source covering every address is not a source-specific route, drop the from"
  | mismatchedFamilies entry => "babel: cap.route announce " ++ entry.text render ++ ": mismatched address families"
  | ipv4SourceSpecific entry =>
    "babel: cap.route announce " ++ entry.text render ++ ": source-specific routes are IPv6 only"

/-- `maskedDefault`: a default route written with host bits. -/
def maskedDefault (p : Prefix) : Bool := !(p.bits != 0 || p.addr.isUnspecified)

/-- The check of one field: an invalid prefix is skipped. -/
def checkField (field : AnnounceField) (p : Prefix) : Option RoutesError :=
  if p.isValid && maskedDefault p then some (.maskedDefault field p) else none

/-- The check of the pair. -/
def checkSource (entry : Announce) : Option RoutesError :=
  if !entry.source.isValid then none
  else if entry.source.bits = 0 then some (.coversEverything entry)
  else if entry.source.addr.is4 ≠ entry.destination.addr.is4 then some (.mismatchedFamilies entry)
  else if entry.destination.addr.is4 then some (.ipv4SourceSpecific entry)
  else none

/-- `Routes.Validate` on one announcement. -/
def Announce.validate (entry : Announce) : Option RoutesError :=
  ((checkField .dest entry.destination).or (checkField .source entry.source)).or (checkSource entry)

/-- `Routes.Validate`: the first refusal, in file order. -/
def validateRoutes (announce : List Announce) : Option RoutesError := announce.findSome? Announce.validate

/-- `originatedKey`: the key one announcement takes, `none` when it names no route. A source of length zero is dropped. -/
def originatedKey (dest source : Prefix) : Option RouteKey :=
  if !dest.isValid then none
  else if source.isValid ∧ 0 < source.bits then
    if source.addr.is4 ≠ dest.addr.is4 then none else some ⟨source.masked, dest.masked⟩
  else some ⟨.none, dest.masked⟩

end RanetLite.Babel
