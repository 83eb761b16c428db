import RanetLite.Ike.ChildState

/-!
# Where inbound SPIs come from

The four places of the source that make a Child SA: `doIKEAuth` of the initiator, `selectResponderChild` of the responder,
`negotiateChild` and `handleChildRekey`. Each draws an inbound SPI from the random source and installs the SA later, with
`replaceChild`, unless something fails in between.

A read of the random source gives a 32-bit word, the four bytes in the order of the network, or fails. The loops draw until a word
is good enough. `none` is a loop that has used up the reads it was given and goes on.
-/

namespace RanetLite.Ike

/-- A read of four random bytes. -/
abbrev Draw := Option UInt32

/-- `randUint32Nonzero`: the error of a read is not looked at, and its bytes are zero. -/
def randUint32Nonzero : List Draw → Option (UInt32 × List Draw)
  | [] => none
  | d :: rest => if 255 < d.getD 0 then some (d.getD 0, rest) else randUint32Nonzero rest

theorem length_randUint32Nonzero {draws : List Draw} {spi : UInt32} {rest : List Draw}
    (h : randUint32Nonzero draws = some (spi, rest)) : rest.length < draws.length := by
  induction draws with
  | nil => cases h
  | cons d more ih =>
    unfold randUint32Nonzero at h
    split_ifs at h
    · obtain ⟨-, rfl⟩ := Prod.mk.inj (Option.some.inj h)
      exact Nat.lt_succ_self _
    · exact Nat.lt_succ_of_lt (ih h)

/-- The draws of `negotiateChild`: again while the word is the SPI of the SA that is replaced. -/
def negotiateSPI (old : Option ChildSA) (draws : List Draw) : Option UInt32 :=
  match h : randUint32Nonzero draws with
  | none => none
  | some (spi, rest) =>
    have := length_randUint32Nonzero h
    if old.any fun old => old.localSPI = spi then negotiateSPI old rest else some spi
termination_by draws.length

/-- The draws of `handleChildRekey`: a read that fails ends the call. -/
def handleChildRekeySPI : List Draw → Option (Option UInt32)
  | [] => none
  | none :: _ => some none
  | some word :: rest => if word = 0 then handleChildRekeySPI rest else some (some word)

/-- A call that makes a Child SA; a rekey of the peer names the SPI of the SA it replaces. -/
inductive Creation where
  | doIKEAuth
  | selectResponderChild
  | negotiateChild (old : Option ChildSA)
  | handleChildRekey (rekey : Option UInt32)
deriving DecidableEq, Repr

/-- The SPI a call draws, if it comes to have one. -/
def Creation.localSPI (draws : List Draw) : Creation → Option UInt32
  | doIKEAuth => (randUint32Nonzero draws).map Prod.fst
  | selectResponderChild => (randUint32Nonzero draws).map Prod.fst
  | negotiateChild old => negotiateSPI old draws
  | handleChildRekey _ => (handleChildRekeySPI draws).join

/-- The Child SAs of a session, the SPIs its calls have drawn for SAs they have not installed, and those installed so far. -/
structure Choosing where
  children : ChildState
  drawn : List UInt32 := []
  installed : List UInt32 := []

namespace Choosing

/-- What a call has to find before it draws: the first handshake makes the first SA of a session, and a request of the peer names
the active SA or finds none, with nothing waiting for its Delete. -/
def Begins (s : Choosing) : Creation → Prop
  | .doIKEAuth => s.drawn = [] ∧ s.installed = []
  | .selectResponderChild => s.drawn = [] ∧ s.installed = []
  | .negotiateChild _ => True
  | .handleChildRekey none => s.children.retiring.localSPI = 0 ∧ s.children.child.localSPI = 0 ∧ s.children.child.remoteSPI = 0
  | .handleChildRekey (some spi) =>
    s.children.retiring.localSPI = 0 ∧ s.children.child.localSPI ≠ 0 ∧ s.children.child.remoteSPI = spi

instance (s : Choosing) : (c : Creation) → Decidable (s.Begins c)
  | .doIKEAuth | .selectResponderChild | .handleChildRekey none | .handleChildRekey (some _) => inferInstanceAs (Decidable (_ ∧ _))
  | .negotiateChild _ => inferInstanceAs (Decidable True)

/-- A call draws its SPI; a call that has one installs an SA, the rest of which is settled by then, or fails before that; and
everything else that happens to the Child SAs. -/
inductive Move where
  | draw (call : Creation) (draws : List Draw)
  | install (spi : UInt32) (settled : ChildSA) (onChild : ChildSA → Option String) (clock : Int)
  | fail (spi : UInt32)
  | other (m : ChildState.Move)

/-- A Child operation that makes no SA. -/
def Keeping : ChildState.Move → Prop
  | .replaceChild .. => False
  | _ => True

/-- A call that has drawn its SPI. `negotiateChild` asks whether the SA can be installed before it sends its request. -/
def applyDraw (s : Choosing) (call : Creation) (draws : List Draw) : Choosing :=
  match call.localSPI draws, call with
  | none, _ => s
  | some spi, .negotiateChild _ =>
    if (s.children.canReplaceChild spi).isSome then s else { s with drawn := spi :: s.drawn }
  | some spi, _ => { s with drawn := spi :: s.drawn }

def applyInstall (mux : Nat) (s : Choosing) (spi : UInt32) (settled : ChildSA) (onChild : ChildSA → Option String) (clock : Int) :
    Choosing :=
  let (children, failed) := s.children.replaceChild mux onChild clock { settled with localSPI := spi }
  { children := children, drawn := s.drawn.erase spi, installed := if failed.isNone then spi :: s.installed else s.installed }

/-- The session as its calls run, any number of them at once. -/
def system (mux : Nat) : Moves.System Choosing Move where
  enabled s
    | .draw call _ => s.Begins call
    | .install spi _ _ _ => spi ∈ s.drawn
    | .fail spi => spi ∈ s.drawn
    | .other m => Keeping m ∧ (ChildState.system mux).enabled s.children m
  apply s
    | .draw call draws => s.applyDraw call draws
    | .install spi settled onChild clock => s.applyInstall mux spi settled onChild clock
    | .fail spi => { s with drawn := s.drawn.erase spi }
    | .other m => { s with children := (ChildState.system mux).apply s.children m }

/-- What `randUint32Nonzero` asks of a word, asked of the words `handleChildRekey` reads: the first read that does not give zero gives
a word above 255, unless it fails. -/
def DrawsAbove : Choosing → Move → Prop
  | _, .draw (.handleChildRekey _) draws => ∀ word ∈ (draws.find? (· ≠ some 0)).join, 255 < word
  | _, _ => True

end Choosing
end RanetLite.Ike
