import Mathlib.Logic.Relation
import RanetLite.Babel.Speaker
import RanetLite.Egress.Translator

/-!
# What an exit announces

The two callers that rebuild the announcements of a running node: the translator, whose passes publish what may be advertised
(`publish` of `internal/egress/egress.go`), and a reload (`ReloadFrom`, `announced` and `republish` of `internal/client/reload.go`).
A republication reads the configuration, then what the translator published, and then hands both to the speaker; other goroutines run
in between. The translator runs one pass after another, and its republication is part of the pass.
-/

namespace RanetLite.Client

open Netip Babel Translator

/-- The blocks of a configuration that decide the announcements: `cap.route` and `cap.egress`. -/
structure ExitConfig where
  announce : List Announce
  egress : Egress
deriving DecidableEq, Repr

namespace ExitConfig

/-- `refuseEgressAdvertisedUnconditionally`: the prefix both blocks announce. -/
def refuseEgressAdvertisedUnconditionally (cfg : ExitConfig) : Option Prefix :=
  cfg.egress.advertise.find? fun entry => cfg.announce.any fun a => a.destination.masked = entry

/-- What a startup asks of the two blocks. -/
def startable (cfg : ExitConfig) : Bool :=
  cfg.egress.validate.isNone ∧ (validateRoutes cfg.announce).isNone ∧ cfg.refuseEgressAdvertisedUnconditionally.isNone

/-- `sameEgress`: the order of the prefixes does not count, and a sweep left out is the default. -/
def sameEgress (old next : ExitConfig) : Bool :=
  old.egress.advertise.isPerm next.egress.advertise ∧ old.egress.source4 = next.egress.source4 ∧
    old.egress.source6 = next.egress.source6 ∧ old.egress.return_ = next.egress.return_ ∧
    (if old.egress.sweep = 0 then 30000000000 else old.egress.sweep) =
      if next.egress.sweep = 0 then 30000000000 else next.egress.sweep

/-- What a reload asks of the two blocks. -/
def reloadable (old next : ExitConfig) : Bool :=
  next.egress.validate.isNone ∧ (validateRoutes next.announce).isNone ∧ sameEgress old next

end ExitConfig

/-- A republication: called, with the configuration read, or with what the translator published read as well. -/
inductive Republication where
  | called
  | configured (announce : List Announce)
  | collected (announce : List Announce)
deriving DecidableEq

/-- Whether a republication stands between its read and the speaker. -/
def Republication.holding : Republication → Bool
  | collected _ => true
  | _ => false

/-- A running exit: its configuration, its speaker, what the translator published, what its last pass saw of the host, and the
republications under way, the translator's own and those of reloads. -/
structure Exit where
  config : ExitConfig
  speaker : Speaker
  published : Option (List Prefix) := none
  last : Option Host := none
  own : Option Republication := none
  reloads : List Republication := []

namespace Exit

/-- No republication is in progress. -/
def quiet (s : Exit) : Prop := s.own = none ∧ s.reloads = []

/-- The republications under way. -/
def running (s : Exit) : List Republication := s.own.toList ++ s.reloads

/-- `publish`. -/
def publish (s : Exit) (prefixes : List Prefix) : Exit :=
  if s.published = some prefixes then s else { s with published := some prefixes, own := some .called }

/-- `announced`: the announcements of a configuration with what the translator published. -/
def announced (s : Exit) (announce : List Announce) : List Announce :=
  announce ++ (s.published.getD []).map fun p => { destination := p }

/-- Whether the speaker originates a prefix. -/
def originates (s : Exit) (p : Prefix) : Prop := ∃ key ∈ s.speaker.originate, key.dest = p

/-- A step of an exit started with the capability `egress`. The runs of the source are those with `checked` true of everything and
`alone` false. With `checked` a reload loads only such configurations, and with `alone` a republication reads what the translator
published only while no other stands between that and the speaker. -/
inductive Step (egress : Egress) (rt : Translator.Runtime) (print : Printer) (checked : ExitConfig → Prop) (alone : Bool) :
    Exit → Exit → Prop
  | pass {s : Exit} (hown : s.own = none) (host : Host) :
      Step egress rt print checked alone s ({ s with last := some host }.publish (announceable egress rt print host))
  | stop {s : Exit} (hown : s.own = none) : Step egress rt print checked alone s (s.publish [])
  | configure {s : Exit} (hown : s.own = some .called) :
      Step egress rt print checked alone s { s with own := some (.configured s.config.announce) }
  | collect {s : Exit} {announce : List Announce} (hown : s.own = some (.configured announce))
      (halone : alone = true → ∀ r ∈ s.running, r.holding = false) :
      Step egress rt print checked alone s { s with own := some (.collected (s.announced announce)) }
  | hand {s : Exit} {announce : List Announce} (hown : s.own = some (.collected announce)) :
      Step egress rt print checked alone s { s with speaker := s.speaker.setOriginated announce, own := none }
  | reload {s : Exit} {next : ExitConfig} (hreloadable : s.config.reloadable next = true) (hchecked : checked next) :
      Step egress rt print checked alone s { s with config := next, reloads := .configured next.announce :: s.reloads }
  | reloadCollect {s : Exit} {before after : List Republication} {announce : List Announce}
      (hreloads : s.reloads = before ++ .configured announce :: after)
      (halone : alone = true → ∀ r ∈ s.running, r.holding = false) :
      Step egress rt print checked alone s { s with reloads := before ++ .collected (s.announced announce) :: after }
  | reloadHand {s : Exit} {before after : List Republication} {announce : List Announce}
      (hreloads : s.reloads = before ++ .collected announce :: after) :
      Step egress rt print checked alone s
        { s with speaker := s.speaker.setOriginated announce, reloads := before ++ after }
  | speak {s : Exit} {speaker : Speaker} (horiginate : speaker.originate = s.speaker.originate) :
      Step egress rt print checked alone s { s with speaker := speaker }

end Exit
end RanetLite.Client
