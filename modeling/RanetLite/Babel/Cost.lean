import RanetLite.Babel.Tlv

/-!
# Link costs and intervals

`internal/babel/etx.go`, `rtt.go` and `config.go`: the Hello history of a link, the costs read off it and off the round trip, and the
configuration that sets the intervals and the cost parameters.

Times and durations are nanoseconds in `Int`; the zero time is `0`, and every clock reading is positive.
-/

namespace RanetLite.Babel

abbrev Time := Int
abbrev Duration := Int

def microsecond : Duration := 1000
def millisecond : Duration := 1000000
def second : Duration := 1000000000

/-- The unit of the intervals on the wire. -/
def centisecond : Duration := 10 * millisecond

/-- An interval field of a TLV as a duration. -/
def centis (interval : UInt16) : Duration := interval.toNat * centisecond

/-- A configured interval as a TLV carries it. -/
def toCentis (d : Duration) : UInt16 := UInt16.ofNat (d / centisecond).toNat

/-- `earlier`: the smaller of two times, a zero one not counting. -/
def earlier (a b : Time) : Time := if a = 0 ∨ (b ≠ 0 ∧ b < a) then b else a

/-- `helloHistory`: the vector of RFC 8966 Appendix A.1, most recent in the low bit. -/
structure HelloHistory where
  bits : UInt16 := 0
  expected : UInt16 := 0
  started : Bool := false
  samples : Nat := 0
deriving DecidableEq, Repr

def historyDepth : Nat := 16
def rebootDrift : UInt16 := 16

/-- `shiftIn`. -/
def HelloHistory.shiftIn (h : HelloHistory) (bit : UInt16) (count : Nat) : HelloHistory :=
  if historyDepth ≤ count then { h with bits := if bit ≠ 0 then 0xffff else 0, samples := historyDepth }
  else { h with bits := h.bits <<< UInt16.ofNat count ||| bit, samples := min (h.samples + count) historyDepth }

/-- `record`: whether the Hello is within the window, and the history after it. -/
def HelloHistory.record (h : HelloHistory) (seqno : UInt16) : Bool × HelloHistory :=
  if !h.started then (true, { bits := 1, expected := seqno + 1, started := true, samples := 1 })
  else
    let ahead := seqno - h.expected
    let behind := h.expected - seqno
    if ahead ≤ rebootDrift then
      (true, { (h.shiftIn 0 ahead.toNat).shiftIn 1 1 with expected := seqno + 1 })
    else if behind ≤ rebootDrift then
      -- `bits >>= behind` with a count of sixteen clears the vector
      let bits := if historyDepth ≤ behind.toNat then 0 else h.bits >>> behind
      (true, { ({ h with bits := bits, samples := h.samples - behind.toNat } : HelloHistory).shiftIn 1 1 with
        expected := seqno + 1 })
    else (false, h)

/-- `missed`: the timer half of Appendix A.1. -/
def HelloHistory.missed (h : HelloHistory) : HelloHistory :=
  if h.started then { h.shiftIn 0 1 with expected := h.expected + 1 } else h

def betaWindow : Nat := historyDepth

/-- `beta`: how many of the last Hellos arrived, out of how many. -/
def HelloHistory.beta (h : HelloHistory) : Option (Nat × Nat) :=
  if h.started then
    let window := min betaWindow h.samples
    some (((List.range window).filter fun i => h.bits.toNat.testBit i).length, window)
  else none

/-- `LinkQuality`. -/
inductive LinkQuality where
  | etx
  | none
deriving DecidableEq, Repr

/-- `RTTCost`. -/
structure RTTCost where
  weight : UInt16
  min : Duration
  max : Duration
deriving DecidableEq, Repr

/-- `CostParams`. -/
structure CostParams where
  rxCost : UInt16
  rtt : RTTCost
  quality : LinkQuality := .etx
deriving DecidableEq, Repr

/-- `saturatingAdd`. -/
def saturatingAdd (a b : UInt16) : UInt16 :=
  if a = metricInfinity ∨ b = metricInfinity then metricInfinity
  else if metricInfinity.toNat ≤ a.toNat + b.toNat then metricInfinity
  else UInt16.ofNat (a.toNat + b.toNat)

/-- A sum of costs is cut off at infinity. -/
theorem toNat_saturatingAdd (a b : UInt16) : (saturatingAdd a b).toNat = min metricInfinity.toNat (a.toNat + b.toNat) := by
  have hinf : metricInfinity.toNat = 65535 := rfl
  unfold saturatingAdd
  split_ifs with htop hsum
  · rcases htop with rfl | rfl <;> omega
  · omega
  · rw [UInt16.toNat_ofNat_of_lt' (by simp [UInt16.size]; omega)]
    omega

/-- `scaleCost`. -/
def scaleCost (base : UInt16) (window received : Nat) : UInt16 :=
  let scaled := base.toNat * window / received
  if metricInfinity.toNat ≤ scaled then metricInfinity else UInt16.ofNat scaled

/-- Infinity is the largest metric. -/
theorem le_metricInfinity (cost : UInt16) : cost ≤ metricInfinity := by
  rw [UInt16.le_iff_toNat_le]
  exact Nat.le_of_lt_succ cost.toNat_lt

/-- A scaled cost is the quotient, cut off at infinity. -/
theorem toNat_scaleCost (base : UInt16) (window received : Nat) :
    (scaleCost base window received).toNat = min metricInfinity.toNat (base.toNat * window / received) := by
  have hinf : metricInfinity.toNat = 65535 := rfl
  unfold scaleCost
  dsimp only
  split
  · omega
  · rw [UInt16.toNat_ofNat_of_lt' (by simp [UInt16.size]; omega)]
    omega

/-- `rxCost`: the figure an IHU advertises. -/
def CostParams.advertisedRxCost (p : CostParams) (history : HelloHistory) : UInt16 :=
  match p.quality, history.beta with
  | .etx, some (received, window) => if received = 0 then metricInfinity else scaleCost p.rxCost window received
  | _, _ => p.rxCost

/-- `linkQualityCost`: the cost a neighbor reports, scaled by this node's own reception. -/
def CostParams.linkQualityCost (p : CostParams) (history : HelloHistory) (txcost : UInt16) : UInt16 :=
  if txcost = metricInfinity then metricInfinity
  else match p.quality, history.beta with
    | .etx, some (received, window) => if received = 0 then metricInfinity else scaleCost txcost window received
    | _, _ => txcost

/-- `RTTPenalty`, its product in 64 bits. -/
def CostParams.rttPenalty (p : CostParams) (rtt : Duration) (haveRTT : Bool) : UInt16 :=
  let low := p.rtt.min
  let high := p.rtt.max
  if !haveRTT || p.rtt.weight = 0 || high ≤ low || rtt ≤ low then 0
  else if high ≤ rtt then p.rtt.weight
  else UInt16.ofNat (p.rtt.weight.toNat * (rtt - low).toNat % 2 ^ 64 / (high - low).toNat)

/-- `DefaultCostParams`. -/
def defaultCostParams : CostParams :=
  { rxCost := 96, rtt := { weight := 1024, min := 10 * millisecond, max := 1024 * millisecond } }

/-- `CostOptions`: the cost block, each field it leaves out taking its default. -/
structure CostOptions where
  rx : Option UInt16 := none
  rttWeight : Option UInt16 := none
  rttMin : Option Duration := none
  rttMax : Option Duration := none
deriving DecidableEq, Repr

/-- `CostOptions.Params`. -/
def CostOptions.params (o : CostOptions) : CostParams :=
  let d := defaultCostParams
  { rxCost := o.rx.getD d.rxCost
    rtt := { weight := o.rttWeight.getD d.rtt.weight, min := o.rttMin.getD d.rtt.min, max := o.rttMax.getD d.rtt.max } }

/-- `Config`, the `cap.babel` capability. An interval of zero was left out. -/
structure Config where
  hello : Duration := 0
  update : Duration := 0
  quality : LinkQuality := .etx
  cost : CostOptions := {}
deriving DecidableEq, Repr

def maxInterval : Duration := 65535 * centisecond

/-- `HelloInterval`. -/
def Config.helloInterval (c : Config) : Duration := if c.hello = 0 then 4 * second else c.hello

/-- `UpdateInterval`. -/
def Config.updateInterval (c : Config) : Duration :=
  if c.update = 0 then 4 * min c.helloInterval (maxInterval / 4) else c.update

/-- `CostEffective`. -/
def Config.costEffective (c : Config) : CostParams := { c.cost.params with quality := c.quality }

/-- Why a configuration is refused: the values the message shows. -/
inductive ConfigError where
  | interval (field : String) (value : Duration)
  | rttRange (min max : Duration)
  | rxRange (rx weight : UInt16)
deriving DecidableEq, Repr

/-- The interval check of `Validate`. -/
def checkInterval (field : String) (interval : Duration) : Option ConfigError :=
  if interval < 10 * millisecond ∨ maxInterval < interval then some (.interval field interval) else none

/-- `Config.Validate`: the first error, in the order the fields are checked. -/
def Config.validate (c : Config) : Option ConfigError :=
  let cost := c.costEffective
  (checkInterval "hello" c.helloInterval).or <| (checkInterval "update" c.updateInterval).or <|
    if cost.rtt.min < 0 ∨ cost.rtt.max < cost.rtt.min then some (.rttRange cost.rtt.min cost.rtt.max)
    else if cost.rxCost = 0 ∨ saturatingAdd cost.rxCost cost.rtt.weight = metricInfinity then
      some (.rxRange cost.rxCost cost.rtt.weight)
    else none

end RanetLite.Babel
