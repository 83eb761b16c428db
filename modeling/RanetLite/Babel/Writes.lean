import RanetLite.Babel.Ops
import RanetLite.Babel.TableOps

/-!
# The writes of a speaker

`Speaker.Write` lists the writes the code makes on the state of a speaker, and `Writes` chains them. A call is a chain of writes, so a
fact that each write keeps holds in every reachable state.
-/

namespace RanetLite.Babel

/-- What the speaker passes to its route table: a finite update comes with a hold. -/
def TableOp.Asked : TableOp → Prop
  | .update _ _ adv hold => adv.metric ≠ metricInfinity → 0 < hold
  | _ => True

/-- The writes on the state of one neighbor. -/
inductive NeighborState.Write (now : Time) : NeighborState → NeighborState → Prop
  | hello {st st' : NeighborState} {h : Hello} (heard : st.hearHello h now = some st') : Write now st st'
  | ihu {st st' : NeighborState} {i : IHU} {ts : Option UInt32} (heard : st.hearIHU i ts now = some st') : Write now st st'
  | sweep (st : NeighborState) : Write now st (st.sweep now)
  | rest {st st' : NeighborState} (h : st' = { st with
        addr := st'.addr, sentHello := st'.sentHello, helloSeqno := st'.helloSeqno, lastFullDump := st'.lastFullDump
        owed := st'.owed, advertised := st'.advertised }) : Write now st st'

namespace Speaker

/-- One write on the state of a speaker. -/
inductive Write (now : Time) : Speaker → Speaker → Prop
  | table {s : Speaker} (op : TableOp) (asked : op.Asked) : Write now s { s with routes := s.routes.apply s.heap now op }
  | neighbor {s : Speaker} (n : NeighborRef) {st : NeighborState} (h : NeighborState.Write now (s.heap n) st) :
      Write now s (s.modify n fun _ => st)
  | request {s : Speaker} (index : SourceKey) (seqno : UInt16) (asker : String) :
      Write now s (s.allowSeqnoRequest index seqno asker now).1
  | ask {s : Speaker} (n : NeighborRef) (key : RouteKey) (routerID : RouterID) : Write now s (s.allowAsk n key routerID now).1
  | starve {s : Speaker} (key : RouteKey) (routerID : RouterID) (seqno : UInt16) (asker : String) :
      Write now s (s.rememberStarved key routerID seqno asker now)
  | forget {s : Speaker} {id : SourceKey} {retry : StarveRetry} (h : s.starveRetries.lookup id = some retry) :
      Write now s (s.forgetStarved id retry)
  | retry {s : Speaker} {id : SourceKey} {retry : StarveRetry} (h : s.starveRetries.lookup id = some retry) :
      Write now s { s with
        starveRetries := s.starveRetries.insert id
          { retry with attempts := retry.attempts + 1, nextAt := now + seqnoRetryInitial * 2 ^ retry.attempts }
        nextStarveRetry := earlier s.nextStarveRetry (now + seqnoRetryInitial * 2 ^ retry.attempts) }
  | pending {s : Speaker} (index : SourceKey) : Write now s (s.sweepPending now index)
  | asked {s : Speaker} (index : AskedKey) : Write now s (s.sweepAsked now index)
  | register {s : Speaker} (peer : Peer) :
      Write now s { s with
        heap := Function.update s.heap s.nextRef { peer := peer }, nextRef := s.nextRef + 1
        neighbors := s.neighbors.insert peer.id s.nextRef }
  | rest {s s' : Speaker} (h : s' = { s with
        neighbors := s'.neighbors, originate := s'.originate, askedSeqno := s'.askedSeqno, originSeqno := s'.originSeqno
        raisedSeqno := s'.raisedSeqno, updatePending := s'.updatePending, woken := s'.woken, lost := s'.lost, lostWoke := s'.lostWoke
        nextHello := s'.nextHello, nextUpdate := s'.nextUpdate, sleepUntil := s'.sleepUntil, nextRequestSweep := s'.nextRequestSweep
        passes := s'.passes, retryAt := s'.retryAt, nextStarveRetry := s'.nextStarveRetry }) : Write now s s'

/-- A chain of writes. -/
abbrev Writes (now : Time) : Speaker → Speaker → Prop := Relation.ReflTransGen (Write now)

variable {now : Time}

/-- A loop of chains of writes is one. -/
theorem writes_foldl {α : Type} {f : Speaker → α → Speaker} (h : ∀ s x, Writes now s (f s x)) (xs : List α) :
    ∀ s, Writes now s (xs.foldl f s) := by
  induction xs with
  | nil => exact fun s => .refl
  | cons x rest ih => exact fun s => (h s x).trans (ih (f s x))

end Speaker
end RanetLite.Babel
