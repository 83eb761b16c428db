import RanetLite.Client.Sessions
import RanetLite.Lib.Moves

/-!
# The session set under concurrent calls

`sessionSet` of `internal/client/session.go` called by any number of goroutines. A call decides under the set's lock and closes sessions
after it has let go of the lock, so a move is one critical section, one call of `close`, or the return of a call. `closeAll` takes the
lock twice: it shuts the set and notes the sessions held, closes them, and only then clears the map. Each session is offered once, by the
handshake that made it.
-/

namespace RanetLite.Client

/-- `strings.Cut` at a slash. -/
def cutSlash (s : String) : Option (String × String) :=
  match s.toList.dropWhile (· ≠ '/') with
  | [] => none
  | _ :: after => some (String.ofList (s.toList.takeWhile (· ≠ '/')), String.ofList after)

/-- `matchesPeer`. -/
def matchesPeer (path peer : String) : Bool :=
  if path = peer then true
  else match cutSlash path with
    | none => false
    | some (organization, rest) => match cutSlash rest with
      | none => false
      | some (name, _) => peer = name ∨ peer = organization ++ "/" ++ name

namespace SessionSet

/-- The sessions held. -/
def sessions (s : SessionSet) : List SessionRef := s.live.map (·.2.session)

/-- The critical section of `closeMatching`: the set afterwards and the sessions to close. -/
def closeMatching (s : SessionSet) (peer : String) : SessionSet × List SessionRef :=
  ({ s with live := s.live.filter (fun entry => !matchesPeer entry.1 peer) },
    (s.live.filter (fun entry => matchesPeer entry.1 peer)).map (·.2.session))

/-- The first critical section of `closeAll`. -/
def shutDown (s : SessionSet) : SessionSet × List SessionRef := ({ s with shut := true }, s.sessions)

/-- The second one. -/
def clear (s : SessionSet) : SessionSet := { s with live := [] }

end SessionSet

/-- A call under way. -/
inductive Call where
  /-- An `adoptFor` that waits for the lock. -/
  | adopt (path : String) (sess : SessionRef) (preferred : Bool) (remote : Identity)
  /-- An `adoptFor` that has decided, and the sessions it has to close. -/
  | adopting (closing : List SessionRef)
  /-- A `revoke` or a `closeMatching` that has taken sessions out, and those it has to close. -/
  | takingOut (closing : List SessionRef)
  /-- A `closeAll` between its critical sections, and the sessions it has to close. -/
  | closingAll (closing : List SessionRef)
deriving DecidableEq, Repr

namespace Call

/-- The session a call offers and has not decided on. -/
def offers : Call → List SessionRef
  | adopt _ sess _ _ => [sess]
  | _ => []

/-- The sessions a call has to close before it returns. -/
def closing : Call → List SessionRef
  | adopt .. => []
  | adopting closing | takingOut closing | closingAll closing => closing

/-- A session closed. -/
def close (sess : SessionRef) : Call → Call
  | adopt path sess preferred remote => adopt path sess preferred remote
  | adopting closing => adopting (closing.erase sess)
  | takingOut closing => takingOut (closing.erase sess)
  | closingAll closing => closingAll (closing.erase sess)

/-- A call whose last step is to return. -/
def returns : Call → Bool
  | adopting [] | takingOut [] => true
  | _ => false

end Call

/-- The set, the calls under way and what became of the sessions: those offered, the adoptions that can be released, the sessions closed
and those released. `ousted` are the sessions that were refused, or that left the set by another call than their own release. `finished`
says that a `closeAll` has returned. -/
structure Ownership where
  set : SessionSet := {}
  calls : List Call := []
  offered : List SessionRef := []
  adopted : List (String × SessionRef) := []
  closed : List SessionRef := []
  released : List SessionRef := []
  ousted : List SessionRef := []
  finished : Bool := false

namespace Ownership

/-- What happens to a set. -/
inductive Move where
  /-- A handshake calls `adoptFor`. -/
  | offer (path : String) (sess : SessionRef) (preferred : Bool) (remote : Identity)
  /-- An `adoptFor` decides under the lock. -/
  | decide (path : String) (sess : SessionRef) (preferred : Bool) (remote : Identity)
  /-- The owner of an adopted session releases it. -/
  | release (path : String) (sess : SessionRef)
  /-- A `revoke` or a `closeMatching` takes sessions out, or a `closeAll` shuts the set. -/
  | revoke (trusted : Identity → Bool)
  | closeMatching (peer : String)
  | closeAll
  /-- A call closes one of the sessions it has to. -/
  | close (call : Call) (sess : SessionRef)
  /-- A call that has nothing left to do returns; a `closeAll` clears the set first. -/
  | return_ (call : Call)
  | clear

/-- The sessions a call still has to decide on, and the sessions held. -/
def inPlay (s : Ownership) : List SessionRef := s.calls.flatMap Call.offers ++ s.set.sessions

/-- A call takes out what a critical section said. -/
def takeOut (s : Ownership) (r : SessionSet × List SessionRef) : Ownership :=
  { s with set := r.1, calls := .takingOut r.2 :: s.calls }

/-- One move. -/
def act (s : Ownership) : Move → Ownership
  | .offer path sess preferred remote =>
    { s with calls := .adopt path sess preferred remote :: s.calls, offered := sess :: s.offered }
  | .decide path sess preferred remote =>
    let a := s.set.adoptFor path sess preferred remote
    { s with
      set := a.set
      calls := .adopting a.closed :: s.calls.erase (.adopt path sess preferred remote)
      adopted := if a.adopted then (path, sess) :: s.adopted else s.adopted }
  | .release path sess => { s with set := s.set.release path sess, released := sess :: s.released }
  | .revoke trusted => s.takeOut (s.set.revoke trusted)
  | .closeMatching peer => s.takeOut (s.set.closeMatching peer)
  | .closeAll => { s with set := s.set.shutDown.1, calls := .closingAll s.set.shutDown.2 :: s.calls }
  | .close call sess => { s with calls := call.close sess :: s.calls.erase call, closed := sess :: s.closed }
  | .return_ call => { s with calls := s.calls.erase call }
  | .clear => { s with set := s.set.clear, calls := s.calls.erase (.closingAll []), finished := true }

/-- The sessions a move ousts: in play before and no longer after, unless their owner released them. -/
def ousts (s : Ownership) : Move → List SessionRef
  | .release .. => []
  | m => s.inPlay.filter (· ∉ (s.act m).inPlay)

/-- The moves of a set. -/
def system : Moves.System Ownership Move where
  enabled s
    | .offer _ sess _ _ => sess ∉ s.offered
    | .decide path sess preferred remote => Call.adopt path sess preferred remote ∈ s.calls
    | .release path sess => (path, sess) ∈ s.adopted
    | .revoke _ | .closeMatching _ | .closeAll => True
    | .close call sess => call ∈ s.calls ∧ sess ∈ call.closing
    | .return_ call => call ∈ s.calls ∧ call.returns = true
    | .clear => Call.closingAll [] ∈ s.calls
  apply s m := { s.act m with ousted := s.ousts m ++ s.ousted }

instance : ∀ s m, Decidable (system.enabled s m)
  | s, .offer _ sess _ _ => inferInstanceAs (Decidable (sess ∉ s.offered))
  | s, .decide path sess preferred remote => inferInstanceAs (Decidable (Call.adopt path sess preferred remote ∈ s.calls))
  | s, .release path sess => inferInstanceAs (Decidable ((path, sess) ∈ s.adopted))
  | _, .revoke _ | _, .closeMatching _ | _, .closeAll => inferInstanceAs (Decidable True)
  | s, .close call sess => inferInstanceAs (Decidable (call ∈ s.calls ∧ sess ∈ call.closing))
  | s, .return_ call => inferInstanceAs (Decidable (call ∈ s.calls ∧ call.returns = true))
  | s, .clear => inferInstanceAs (Decidable (Call.closingAll [] ∈ s.calls))

/-- Every `adoptFor` has returned. -/
def Adopted (s : Ownership) : Prop := ∀ call ∈ s.calls, call.offers = [] ∧ ∀ closing, call ≠ .adopting closing

/-- Every `revoke` and `closeMatching` has returned. -/
def TakenOut (s : Ownership) : Prop := ∀ call ∈ s.calls, ∀ closing, call ≠ .takingOut closing

end Ownership
end RanetLite.Client
