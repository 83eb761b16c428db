import Mathlib.Logic.Relation

/-!
# Systems given by their moves

A system whose transitions are named: when a move can be made, and the state it leads to. Keeping moves as data gives two things. An
invariant is proved by looking at one move at a time (`Run.invariant`), and a run of a concrete system is the list of its moves,
which evaluation checks (`exists_run`).
-/

namespace RanetLite.Moves

/-- What holds at the start of a chain and is kept by every step of it holds at its end. -/
theorem keeps_chain {α : Type} {r : α → α → Prop} {P : α → Prop} {a b : α} (h : Relation.ReflTransGen r a b) (ha : P a)
    (hstep : ∀ {a b : α}, P a → r a b → P b) : P b := by
  induction h with
  | refl => exact ha
  | tail _ hr ih => exact hstep ih hr

/-- A system given by its moves. -/
structure System (State Move : Type) where
  enabled : State → Move → Prop
  apply : State → Move → State

namespace System

variable {State Move : Type} (sys : System State Move)

/-- One move. -/
def Step (s s' : State) : Prop := ∃ m, sys.enabled s m ∧ sys.apply s m = s'

/-- Any number of moves. -/
def Run : State → State → Prop := Relation.ReflTransGen sys.Step

/-- The same system, with only the moves that meet a condition. -/
def restrict (C : State → Move → Prop) : System State Move := { sys with enabled := fun s m => sys.enabled s m ∧ C s m }

variable {sys} {s s' : State}

/-- What holds at the start and is kept by every move holds after every run. -/
theorem Run.invariant {P : State → Prop} (hrun : sys.Run s s') (hstart : P s)
    (hmove : ∀ s m, P s → sys.enabled s m → P (sys.apply s m)) : P s' := by
  refine keeps_chain hrun hstart fun {s s'} hs hstep => ?_
  obtain ⟨m, hen, rfl⟩ := hstep
  exact hmove s m hs hen

/-- A run of a system is a run of one that allows more. -/
theorem Run.mono {sys' : System State Move} (happly : sys'.apply = sys.apply) (hen : ∀ s m, sys.enabled s m → sys'.enabled s m)
    (hrun : sys.Run s s') : sys'.Run s s' := by
  refine Relation.ReflTransGen.mono (fun a b hstep => ?_) _ _ hrun
  obtain ⟨m, hm, rfl⟩ := hstep
  exact ⟨m, hen a m hm, by rw [happly]⟩

theorem Run.of_restrict {C : State → Move → Prop} (hrun : (sys.restrict C).Run s s') : sys.Run s s' :=
  hrun.mono (by rfl) fun _ _ h => And.left h

variable (sys) [∀ s m, Decidable (sys.enabled s m)]

/-- The state after a list of moves, if each of them can be made. -/
def play : List Move → State → Option State
  | [], s => some s
  | m :: ms, s => if sys.enabled s m then play ms (sys.apply s m) else none

instance (C : State → Move → Prop) [∀ s m, Decidable (C s m)] : ∀ s m, Decidable ((sys.restrict C).enabled s m) :=
  fun s m => inferInstanceAs (Decidable (sys.enabled s m ∧ C s m))

variable {sys}

theorem run_of_play {ms : List Move} (h : sys.play ms s = some s') : sys.Run s s' := by
  induction ms generalizing s with
  | nil =>
    cases h
    exact .refl
  | cons m ms ih =>
    simp only [play, Option.ite_none_right_eq_some] at h
    exact .head ⟨m, h.1, rfl⟩ (ih h.2)

/-- A run to a state with a property, found by playing its moves. -/
theorem exists_run (ms : List Move) {s : State} {P : State → Prop} [DecidablePred P]
    (h : (sys.play ms s).any (fun s' => decide (P s')) = true) : ∃ s', sys.Run s s' ∧ P s' := by
  obtain ⟨s', hs, hP⟩ := (Option.any_eq_true _ _).mp h
  exact ⟨s', run_of_play hs, of_decide_eq_true hP⟩

end System
end RanetLite.Moves
