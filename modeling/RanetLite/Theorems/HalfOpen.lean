import RanetLite.Ike.Responder

/-!
# Half-open handshakes

The two counters are the handshakes that hold a slot, whatever the interleaving, and so the caps hold. What the threshold for
cookies bounds is what a source holds at the decision, and the admission is a separate critical section: handshakes of one source
that are all decided before any is admitted pass it together.
-/

namespace RanetLite.Ike.Responder

open Netip

/-- How many slots a source holds, and how many of them without a cookie. -/
def World.slots (w : World) (a : Addr) : Nat := w.held.countP fun h => h.source = a
def World.bareSlots (w : World) (a : Addr) : Nat := w.held.countP fun h => h.source = a ∧ h.cookie = false

/-- The counters are the handshakes that hold a slot, within both caps. -/
structure World.Counted (w : World) : Prop where
  total : w.responder.halfOpen = w.held.length
  perSource : ∀ a, w.responder.halfOpenBySource a = w.slots a
  limit : w.held.length ≤ halfOpenLimit
  share : ∀ a, w.slots a ≤ halfOpenPerSource

namespace HalfOpenAux

variable {mac : Secret → List UInt8 → List UInt8} {text : Endpoint → List UInt8} {w : World} {c : Call} {h : Handshake}

/-! ### What a decision leaves alone -/

/-- A rotation keeps the count. -/
theorem rotate_halfOpen (r : State) (c : Call) : (rotate r c).halfOpen = r.halfOpen := by
  unfold rotate
  split_ifs <;> rfl

/-- It keeps the counts of the sources. -/
theorem rotate_halfOpenBySource (r : State) (c : Call) : (rotate r c).halfOpenBySource = r.halfOpenBySource := by
  unfold rotate
  split_ifs <;> rfl

/-- A handshake that goes on without a cookie found no pressure. -/
theorem not_pressed (hgo : ¬(cookieRequired mac text w.responder c).1.isSome = true)
    (hcookie : presents mac text (rotate w.responder c) c = false) : pressure w.responder c.attempt.endpoint.addr = false := by
  unfold cookieRequired at hgo
  dsimp only at hgo
  rw [hcookie] at hgo
  split_ifs at hgo with hpressed
  · simpa using hpressed
  · exact absurd rfl hgo

/-- A decision counts nothing. -/
theorem counted_decide (hw : w.Counted) (c : Call) : (applyDecide mac text w c).Counted := by
  refine ⟨?_, fun a => ?_, hw.limit, hw.share⟩
  · show (cookieRequired mac text w.responder c).2.halfOpen = w.held.length
    rw [cookieRequired_state, rotate_halfOpen, hw.total]
  · show (cookieRequired mac text w.responder c).2.halfOpenBySource a = w.slots a
    rw [cookieRequired_state, rotate_halfOpenBySource, hw.perSource]

/-! ### Admission and the end of a handshake -/

/-- What an admission does to the slots of a source. -/
theorem slots_cons (w : World) (h : Handshake) (a : Addr) (r : State) (waiting : List Handshake) (admitted : Addr → Nat) :
    World.slots { w with responder := r, waiting := waiting, held := h :: w.held, admitted := admitted } a =
      w.slots a + if h.source = a then 1 else 0 := by
  unfold World.slots
  rw [List.countP_cons]
  simp

/-- A handshake that leaves frees its slot. -/
theorem slots_erase (hmem : h ∈ w.held) (a : Addr) :
    World.slots (applyLeave w h) a = w.slots a - if h.source = a then 1 else 0 := by
  unfold World.slots applyLeave
  rw [List.countP_erase]
  simp [hmem]

/-- A handshake that is refused leaves, and one that is admitted holds a slot. -/
theorem applyEnter_full (hfull : halfOpenLimit ≤ w.responder.halfOpen ∨
    halfOpenPerSource ≤ w.responder.halfOpenBySource h.source) : applyEnter w h = { w with waiting := w.waiting.erase h } := by
  unfold applyEnter enterHalfOpen
  rw [if_pos hfull]
  rfl

/-- With room a handshake enters. -/
theorem applyEnter_room (hroom : ¬(halfOpenLimit ≤ w.responder.halfOpen ∨
    halfOpenPerSource ≤ w.responder.halfOpenBySource h.source)) : applyEnter w h =
      { w with responder := (enterHalfOpen w.responder h.source).2, waiting := w.waiting.erase h, held := h :: w.held,
               admitted := Function.update w.admitted h.source (w.admitted h.source + 1) } := by
  unfold applyEnter enterHalfOpen
  rw [if_neg hroom]
  rfl

/-- The responder's own count of a source moves with the slots the source holds. -/
theorem update_perSource (hw : w.Counted) (h : Handshake) (op : Nat → Nat → Nat) (hzero : ∀ n, op n 0 = n) (a : Addr) :
    Function.update w.responder.halfOpenBySource h.source (op (w.responder.halfOpenBySource h.source) 1) a =
      op (w.slots a) (if h.source = a then 1 else 0) := by
  by_cases ha : h.source = a
  · subst ha
    rw [Function.update_self, hw.perSource, if_pos rfl]
  · rw [Function.update_of_ne (Ne.symm ha), hw.perSource, if_neg ha, hzero]

/-- Entering counts. -/
theorem counted_enter (hw : w.Counted) (h : Handshake) : (applyEnter w h).Counted := by
  by_cases hfull : halfOpenLimit ≤ w.responder.halfOpen ∨ halfOpenPerSource ≤ w.responder.halfOpenBySource h.source
  · rw [applyEnter_full hfull]
    exact ⟨hw.total, hw.perSource, hw.limit, hw.share⟩
  · rw [applyEnter_room hfull]
    have hstate : (enterHalfOpen w.responder h.source).2 = { w.responder with
        halfOpen := w.responder.halfOpen + 1
        halfOpenBySource :=
          Function.update w.responder.halfOpenBySource h.source (w.responder.halfOpenBySource h.source + 1) } := by
      rw [enterHalfOpen, if_neg hfull]
    push Not at hfull
    rw [hw.total, hw.perSource] at hfull
    refine ⟨?_, fun a => ?_, hfull.1, fun a => ?_⟩
    · rw [hstate]
      show w.responder.halfOpen + 1 = (h :: w.held).length
      rw [hw.total, List.length_cons]
    · rw [slots_cons, hstate]
      exact update_perSource hw h (· + ·) Nat.add_zero a
    · rw [slots_cons]
      by_cases ha : h.source = a
      · subst ha
        rw [if_pos rfl]
        exact hfull.2
      · rw [if_neg ha]
        exact hw.share a

/-- Leaving uncounts. -/
theorem counted_leave (hw : w.Counted) (hmem : h ∈ w.held) : (applyLeave w h).Counted := by
  refine ⟨?_, fun a => ?_, ?_, fun a => ?_⟩
  · show w.responder.halfOpen - 1 = (w.held.erase h).length
    rw [hw.total, List.length_erase_of_mem hmem]
  · rw [slots_erase hmem]
    exact update_perSource hw h (· - ·) Nat.sub_zero a
  · exact (List.length_erase_le).trans hw.limit
  · rw [slots_erase hmem]
    exact (Nat.sub_le _ _).trans (hw.share a)

/-- At the start nothing is counted. -/
theorem counted_start (secret : Secret) (now : Int) : (start secret now).Counted :=
  ⟨rfl, fun _ => rfl, Nat.zero_le _, fun _ => Nat.zero_le _⟩

/-- Every move keeps the counts. -/
theorem counted_move (hw : w.Counted) (m : Move) (hen : (system mac text).enabled w m) :
    ((system mac text).apply w m).Counted := by
  cases m with
  | decide c => exact counted_decide hw c
  | enter h => exact counted_enter hw h
  | leave h => exact counted_leave hw hen

/-! ### Slots without a cookie -/

/-- What holds as long as no admission comes between a decision and its own. -/
structure Bare (w : World) : Prop where
  counted : w.Counted
  seen : ∀ h ∈ w.waiting, h.seen ≤ w.admitted h.source
  fresh : ∀ h ∈ w.waiting, h.cookie = false → w.admitted h.source = h.seen → w.slots h.source < halfOpenPerSourceWithoutCookie
  bare : ∀ a, w.bareSlots a ≤ halfOpenPerSourceWithoutCookie

/-- A decision takes no slot. -/
theorem bare_decide (hw : Bare w) (c : Call) : Bare (applyDecide mac text w c) := by
  have hnew : ∀ h ∈ (applyDecide mac text w c).waiting, h ∈ w.waiting ∨ (h.source = c.attempt.endpoint.addr ∧
      h.seen = w.admitted h.source ∧ (h.cookie = false → w.slots h.source < halfOpenPerSourceWithoutCookie)) := by
    intro h hmem
    unfold applyDecide at hmem
    dsimp only at hmem
    split_ifs at hmem with hsome
    · exact .inl hmem
    · rcases List.mem_cons.1 hmem with rfl | hmem
      · refine .inr ⟨rfl, rfl, fun hcookie => ?_⟩
        have hpressure := not_pressed hsome hcookie
        simp only [pressure, decide_eq_false_iff_not, not_or, not_le] at hpressure
        rw [← hw.counted.perSource]
        exact hpressure.2
      · exact .inl hmem
  refine ⟨counted_decide hw.counted c, fun h hmem => ?_, fun h hmem hcookie hseen => ?_, hw.bare⟩
  · rcases hnew h hmem with hold | ⟨-, hseen, -⟩
    · exact hw.seen h hold
    · exact hseen.le
  · rcases hnew h hmem with hold | ⟨-, -, hfresh⟩
    · exact hw.fresh h hold hcookie hseen
    · exact hfresh hcookie

/-- An undisturbed entry keeps the cap. -/
theorem bare_enter (hw : Bare w) (hmem : h ∈ w.waiting) (hundisturbed : Undisturbed w (.enter h)) : Bare (applyEnter w h) := by
  have hcounted := counted_enter hw.counted h
  by_cases hfull : halfOpenLimit ≤ w.responder.halfOpen ∨ halfOpenPerSource ≤ w.responder.halfOpenBySource h.source
  · rw [applyEnter_full hfull] at hcounted ⊢
    exact ⟨hcounted, fun g hg => hw.seen g (List.mem_of_mem_erase hg), fun g hg => hw.fresh g (List.mem_of_mem_erase hg), hw.bare⟩
  · rw [applyEnter_room hfull] at hcounted ⊢
    refine ⟨hcounted, fun g hg => ?_, fun g hg hcookie hseen => ?_, fun a => ?_⟩
    · have hold := hw.seen g (List.mem_of_mem_erase hg)
      show g.seen ≤ Function.update w.admitted h.source (w.admitted h.source + 1) g.source
      by_cases hs : g.source = h.source
      · rw [hs, Function.update_self]
        rw [hs] at hold
        omega
      · rw [Function.update_of_ne hs]
        exact hold
    · -- one of the same source has a count that is out of date from now on
      have hold := hw.seen g (List.mem_of_mem_erase hg)
      change Function.update w.admitted h.source (w.admitted h.source + 1) g.source = g.seen at hseen
      by_cases hs : g.source = h.source
      · rw [hs, Function.update_self] at hseen
        rw [hs] at hold
        omega
      · rw [Function.update_of_ne hs] at hseen
        rw [slots_cons, if_neg (Ne.symm hs)]
        exact hw.fresh g (List.mem_of_mem_erase hg) hcookie hseen
    · show List.countP _ (h :: w.held) ≤ _
      rw [List.countP_cons]
      by_cases hbare : h.source = a ∧ h.cookie = false
      · rw [if_pos (decide_eq_true hbare)]
        obtain ⟨rfl, hcookie⟩ := hbare
        have hfresh := hw.fresh h hmem hcookie (hundisturbed hcookie)
        have hle : w.held.countP (fun g => g.source = h.source ∧ g.cookie = false) ≤ w.slots h.source := by
          refine List.countP_mono_left fun g _ hg => ?_
          exact decide_eq_true (of_decide_eq_true hg).1
        omega
      · rw [if_neg (by simpa using hbare)]
        exact hw.bare a

/-- Leaving keeps it. -/
theorem bare_leave (hw : Bare w) (hmem : h ∈ w.held) : Bare (applyLeave w h) := by
  refine ⟨counted_leave hw.counted hmem, hw.seen, fun g hg hcookie hseen => ?_, fun a => ?_⟩
  · rw [slots_erase hmem]
    exact lt_of_le_of_lt (Nat.sub_le _ _) (hw.fresh g hg hcookie hseen)
  · show (w.held.erase h).countP _ ≤ _
    exact (List.Sublist.countP_le List.erase_sublist).trans (hw.bare a)

/-- It holds at the start. -/
theorem bare_start (secret : Secret) (now : Int) : Bare (start secret now) :=
  ⟨counted_start secret now, fun _ h => (List.not_mem_nil h).elim, fun _ h => (List.not_mem_nil h).elim, fun _ => Nat.zero_le _⟩

/-- Every undisturbed move keeps it. -/
theorem bare_move (hw : Bare w) (m : Move) (hen : ((system mac text).restrict Undisturbed).enabled w m) :
    Bare (((system mac text).restrict Undisturbed).apply w m) := by
  obtain ⟨hen, hundisturbed⟩ := hen
  cases m with
  | decide c => exact bare_decide hw c
  | enter h => exact bare_enter hw hen hundisturbed
  | leave h => exact bare_leave hw hen

end HalfOpenAux

open HalfOpenAux

/-- In every run the counters are the live half-open handshakes, in total and per source, within both caps. In every run in which no
other handshake of a source is admitted between the decision that lets one of its handshakes through without a cookie and its
admission, no source has more slots without a cookie than the threshold. -/
theorem half_open_bounds (mac : Secret → List UInt8 → List UInt8) (text : Endpoint → List UInt8) (secret : Secret) (now : Int) :
    (∀ w, (system mac text).Run (start secret now) w → w.Counted) ∧
    (∀ w, ((system mac text).restrict Undisturbed).Run (start secret now) w →
      ∀ a, w.bareSlots a ≤ halfOpenPerSourceWithoutCookie) := by
  refine ⟨fun w hrun => ?_, fun w hrun a => ?_⟩
  · exact hrun.invariant (counted_start secret now) fun w m hw hen => counted_move hw m hen
  · exact (hrun.invariant (bare_start secret now) fun w m hw hen => bare_move hw m hen).bare a

/-- A request with no cookie from one address. -/
def plainCall : Call where
  payloads := []
  attempt := { ni := List.replicate 16 0, spiI := 1, endpoint := { addr := .v4 0x0a000001#32, port := 500 } }
  now := 0
  stamp := 0
  next := 0
  ended := 0

def plainHandshake : Handshake := { source := .v4 0x0a000001#32, cookie := false, seen := 0 }

/-- Three requests without a cookie that are all decided before any is admitted hold three slots. -/
theorem threshold_passed_together : ∃ w, (system (fun _ _ => []) fun _ => []).Run (start 0 0) w ∧
    halfOpenPerSourceWithoutCookie < w.bareSlots (.v4 0x0a000001#32) :=
  Moves.System.exists_run [.decide plainCall, .decide plainCall, .decide plainCall, .enter plainHandshake, .enter plainHandshake,
    .enter plainHandshake] (by decide +kernel)

/-- Decided and admitted in turn, two of them hold two. -/
theorem half_open_bounds_in_turn : ∃ w, ((system (fun _ _ => []) fun _ => []).restrict Undisturbed).Run (start 0 0) w ∧
    w.bareSlots (.v4 0x0a000001#32) = 2 ∧ w.Counted ∧ w.bareSlots (.v4 0x0a000001#32) ≤ halfOpenPerSourceWithoutCookie := by
  have hplayed : ∃ w, ((system (fun _ _ => []) fun _ => []).restrict Undisturbed).Run (start 0 0) w ∧
      w.bareSlots (.v4 0x0a000001#32) = 2 :=
    Moves.System.exists_run [.decide plainCall, .enter plainHandshake, .decide plainCall, .enter { plainHandshake with seen := 1 }]
      (by decide +kernel)
  obtain ⟨w, hrun, hslots⟩ := hplayed
  exact ⟨w, hrun, hslots, (half_open_bounds _ _ 0 0).1 w hrun.of_restrict, (half_open_bounds _ _ 0 0).2 w hrun _⟩

end RanetLite.Ike.Responder
