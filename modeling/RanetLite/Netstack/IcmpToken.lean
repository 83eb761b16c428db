import RanetLite.Lib.Moves

/-!
# The budget of ICMP errors

`takeICMPToken` of `internal/netstack/segments.go`: a bucket that holds `icmpBurst` tokens and gets one back every `icmpRefill`. It is
two atomic words, the tokens and the time they were counted at, and any number of receive goroutines call on it at once. A move is one
atomic operation of one call. Times are nanoseconds since `segmentsStarted`; they and the tokens stay far inside an `int64`.
-/

namespace RanetLite.Netstack

def icmpBurst : Int := 8
def icmpRefill : Int := 250000000

/-- Where a call of `takeICMPToken` is: what it has read so far. -/
inductive TokenCall where
  /-- It has read the clock. -/
  | entered (now : Int)
  /-- It has read `icmpFilled`. -/
  | loaded (now last : Int)
  /-- It has read `icmpTokens` and found one to spend. -/
  | counted (now last tokens : Int)
  /-- It has swapped `icmpFilled`, and `icmpTokens` is still to be stored. -/
  | swapped (now tokens : Int)
deriving DecidableEq, Repr

/-- The bucket, the clock and the calls under way. `granted` are the clock readings of the calls that returned true. -/
structure Bucket where
  icmpTokens : Int := icmpBurst
  icmpFilled : Int := 0
  clock : Int := 0
  calls : List TokenCall := []
  granted : List Int := []
deriving DecidableEq, Repr

namespace Bucket

/-- What happens to a bucket. -/
inductive Move where
  /-- Time passes. -/
  | tick (later : Int)
  /-- A goroutine calls, and reads the clock. -/
  | enter
  /-- One of the calls makes its next atomic operation. -/
  | step (i : Nat)
deriving DecidableEq, Repr

/-- The tokens a call counts. The division is Go's, which rounds towards zero. -/
def count (held now last : Int) : Int := min icmpBurst (held + (now - last).tdiv icmpRefill)

/-- The next atomic operation of the call at a place in the list. A call that returns leaves the list. -/
def stepCall (s : Bucket) (i : Nat) : TokenCall → Bucket
  | .entered now => { s with calls := s.calls.set i (.loaded now s.icmpFilled) }
  | .loaded now last =>
    let tokens := count s.icmpTokens now last
    if tokens < 1 then { s with calls := s.calls.eraseIdx i } else { s with calls := s.calls.set i (.counted now last tokens) }
  | .counted now last tokens =>
    if s.icmpFilled = last then { s with icmpFilled := now, calls := s.calls.set i (.swapped now tokens) }
    else { s with calls := s.calls.set i (.entered now) }
  | .swapped now tokens => { s with icmpTokens := tokens - 1, calls := s.calls.eraseIdx i, granted := now :: s.granted }

/-- The moves of a bucket, under a clock that does not run backwards. -/
def system : Moves.System Bucket Move where
  enabled s
    | .tick later => s.clock ≤ later
    | .enter => True
    | .step i => i < s.calls.length
  apply s
    | .tick later => { s with clock := later }
    | .enter => { s with calls := s.calls ++ [.entered s.clock] }
    | .step i => (s.calls[i]?).elim s (s.stepCall i)

/-- A call is made while no other one is under way. -/
def Alone (s : Bucket) : Move → Prop
  | .enter => s.calls = []
  | .tick _ | .step _ => True

/-- How many tokens were granted between two times. -/
def grantedIn (s : Bucket) (start stop : Int) : Int := s.granted.countP fun t => start ≤ t ∧ t ≤ stop

end Bucket
end RanetLite.Netstack
