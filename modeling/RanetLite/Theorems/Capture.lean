import RanetLite.Kernel.Reconciler

/-!
# A dead mesh does not keep the machine's traffic

What a pass leaves in the kernel that would capture the machine, it wanted with the gate open and the family covered (`pass_spec`). The
gate is open only within the grace of a pass that found a session live, and while such a route is held the timer of `Run` stands at the
end of that grace, so a machine that wakes in time has given its traffic back when the grace is over (`capture_released`).
-/

namespace RanetLite.Kernel

open Netip Babel

namespace CaptureAux

variable {route : Route} {r : Reconciler} {kernel : List Route} {s : Machine}

/-- What is missing is one of the routes. -/
theorem mem_missing {key : Route → Route} {among : List Route} : ∀ {routes emitted : List Route},
    route ∈ missing key among emitted routes → route ∈ routes
  | [], _, h => by simp [missing] at h
  | head :: rest, emitted, h => by
    unfold missing at h
    split_ifs at h
    · rcases List.mem_cons.mp h with rfl | h
      · exact List.mem_cons_self
      · exact List.mem_cons_of_mem _ (mem_missing h)
    · exact List.mem_cons_of_mem _ (mem_missing h)

/-- A route that is not there is missing. -/
theorem missing_of_mem {among : List Route} (hamong : route ∉ among) : ∀ {routes emitted : List Route},
    route ∈ routes → route ∉ emitted → route ∈ missing id among emitted routes
  | head :: rest, emitted, h, hemitted => by
    unfold missing
    by_cases heq : route = head
    · subst heq
      rw [if_pos ⟨hamong, hemitted⟩]
      exact List.mem_cons_self
    · have hrest : route ∈ rest := (List.mem_cons.mp h).resolve_left heq
      split_ifs
      · refine List.mem_cons_of_mem _ (missing_of_mem hamong hrest ?_)
        rintro (_ | ⟨_, hmem⟩)
        · exact heq rfl
        · exact hemitted hmem
      · exact missing_of_mem hamong hrest hemitted

/-- Sorting keeps the routes. -/
theorem mem_sorted {routes : List Route} : route ∈ sorted routes ↔ route ∈ routes := List.mem_mergeSort

/-- Deleting routes leaves the others. -/
theorem mem_foldl_delRoute : ∀ {del kernel : List Route},
    route ∈ del.foldl delRoute kernel ↔ route ∈ kernel ∧ route ∉ del
  | [], kernel => by simp
  | head :: rest, kernel => by
    rw [List.foldl_cons, mem_foldl_delRoute, delRoute, List.mem_filter, List.mem_cons]
    simp only [ne_eq, decide_eq_true_eq]
    tauto

/-- A withdrawal leaves nothing. -/
theorem withdraw_eq_nil (kernel : List Route) : Machine.withdraw kernel = [] :=
  List.eq_nil_iff_forall_not_mem.mpr fun _ h => (mem_foldl_delRoute.mp h).2 (mem_foldl_delRoute.mp h).1

/-- What is there after adding was there, or was added. -/
theorem mem_foldl_addRoute {a : Answers} {route : Route} : ∀ {add kernel : List Route},
    route ∈ add.foldl (addRoute a) kernel → route ∈ kernel ∨ ∃ r ∈ add, route = r.wanted a.scopes
  | [], kernel, h => .inl h
  | head :: rest, kernel, h => by
    rcases @mem_foldl_addRoute a route rest (addRoute a kernel head) h with h | ⟨r, hr, heq⟩
    · unfold addRoute at h
      split_ifs at h
      · exact .inl h
      · rcases List.mem_append.mp h with h | h
        · exact .inl h
        · exact .inr ⟨head, List.mem_cons_self, List.mem_singleton.mp h⟩
    · exact .inr ⟨r, List.mem_cons_of_mem _ hr, heq⟩

/-- What a pass leaves in the kernel, it wanted. -/
theorem wanted_of_applied {a : Answers} (h : route ∈ (r.applyRoutes kernel a).2) :
    ∃ d ∈ r.covered a.ready (r.desired a.snapshot), route = d.wanted a.scopes := by
  rcases mem_foldl_addRoute h with h | ⟨d, hd, heq⟩
  · obtain ⟨hkernel, hdel⟩ := mem_foldl_delRoute.mp h
    by_contra hnot
    refine hdel (mem_sorted.mpr (missing_of_mem (fun hmem => hnot ?_) hkernel List.not_mem_nil))
    obtain ⟨d, hd, rfl⟩ := List.mem_map.mp hmem
    exact ⟨d, hd, rfl⟩
  · exact ⟨d, mem_missing (mem_sorted.mp hd), heq⟩

/-- Only with the capture on is a capturing route projected. -/
theorem capture_of_project {entry : Sadr.Route FibTarget} (h : r.project entry = some route)
    (hcaptures : capturesTheMachine route = true) : r.capture = true := by
  obtain ⟨destination, -, h⟩ := Option.bind_eq_some_iff.mp h
  rw [Option.ite_none_left_eq_some] at h
  obtain ⟨hgate, h⟩ := Option.ite_none_left_eq_some.mp h.2
  obtain ⟨source, -, rfl⟩ := Option.map_eq_some_iff.mp h
  have hsame := not_and.mp hgate hcaptures
  simpa using hsame

/-- A capturing route is kept where its destination is covered. -/
theorem mem_covered {ready : Covered} {desired : List Route} (h : route ∈ r.covered ready desired)
    (hcaptures : capturesTheMachine route = true) :
    route ∈ desired ∧ (r.rt.capture = true → ready.has route.destination.addr = true) := by
  unfold Reconciler.covered at h
  split_ifs at h with hask
  · refine ⟨h, fun hcapture => ?_⟩
    have hnone : (!desired.any capturesTheMachine) = true := hask.resolve_left (by simp [hcapture])
    rw [List.any_eq_true.mpr ⟨route, h, hcaptures⟩] at hnone
    exact absurd hnone (by simp)
  · obtain ⟨hmem, hkeep⟩ := List.mem_filter.mp h
    refine ⟨hmem, fun _ => ?_⟩
    simpa [hcaptures] using hkeep

/-- A capturing route a pass leaves in the kernel: the pass had the gate's leave, found the family covered, and knows it captures. -/
theorem applied_captures {a : Answers} (h : route ∈ (r.applyRoutes kernel a).2) (hcaptures : capturesTheMachine route = true) :
    r.capture = true ∧ (r.rt.capture = true → a.ready.has route.destination.addr = true) ∧
      (r.applyRoutes kernel a).1.capturing = true := by
  obtain ⟨d, hd, rfl⟩ := wanted_of_applied h
  obtain ⟨hdesired, hcovered⟩ := mem_covered hd hcaptures
  obtain ⟨entry, -, hentry⟩ := List.mem_filterMap.mp hdesired
  exact ⟨capture_of_project hentry hcaptures, hcovered, List.any_eq_true.mpr ⟨d, hd, hcaptures⟩⟩

/-- A grace is above zero. -/
theorem table_grace_pos (t : Table) : 0 < t.grace := by
  unfold Table.grace
  split_ifs
  · decide
  · omega

/-- The gate and the passes it was sampled in: it remembers the last that found a session live, and is open within the grace of it. -/
structure Sampled (g : CaptureGate) (now : Int) (passes : List Pass) : Prop where
  grace_pos : 0 < g.grace
  seen : g.seen = true → ∃ p ∈ passes, 0 < p.live ∧ p.at_ = g.liveAt
  unseen : g.seen = false → ∀ p ∈ passes, p.live = 0
  opened : g.open_ = true → g.seen = true

/-- A sample is recorded. -/
theorem sampled_sample {g : CaptureGate} {now : Int} {passes : List Pass} (h : Sampled g now passes) (live : Nat) :
    Sampled (g.sample now live) now (⟨now, live⟩ :: passes) ∧
      ((g.sample now live).open_ = true → now < (g.sample now live).liveAt + g.grace) := by
  unfold CaptureGate.sample
  by_cases hlive : 0 < live
  · rw [if_pos hlive]
    refine ⟨⟨h.grace_pos, fun _ => ⟨_, List.mem_cons_self, hlive, rfl⟩, by simp, fun _ => rfl⟩, fun _ => ?_⟩
    have := h.grace_pos
    dsimp only
    omega
  · rw [if_neg hlive]
    have hkeep : g.seen = true → ∃ p ∈ (⟨now, live⟩ : Pass) :: passes, 0 < p.live ∧ p.at_ = g.liveAt := fun hseen => by
      obtain ⟨p, hp, hp'⟩ := h.seen hseen
      exact ⟨p, List.mem_cons_of_mem _ hp, hp'⟩
    have hnone : g.seen = false → ∀ p ∈ (⟨now, live⟩ : Pass) :: passes, p.live = 0 := fun hseen p hp => by
      rcases List.mem_cons.mp hp with rfl | hp
      · exact Nat.eq_zero_of_not_pos hlive
      · exact h.unseen hseen p hp
    by_cases hseen : g.seen = true
    · rw [if_neg (by simp [hseen])]
      refine ⟨⟨h.grace_pos, hkeep, hnone, fun _ => hseen⟩, fun hopen => ?_⟩
      have := of_decide_eq_true hopen
      dsimp only
      omega
    · rw [if_pos (by simp [hseen])]
      exact ⟨⟨h.grace_pos, hkeep, hnone, by simp⟩, by simp⟩

/-- What holds of a machine between two steps, once a pass was made: the routes that capture it are held with the gate open, and the
timer stands at the end of the grace, which the clock has not passed if the machine is woken. -/
structure Guards (t : Table) (rt : Runtime) (woken : Bool) (s : Machine) : Prop where
  rt : s.reconciler.rt = rt
  grace : s.reconciler.gate.grace = t.grace
  sampled : Sampled s.reconciler.gate s.now s.passes
  held : s.passes ≠ [] → ∀ route ∈ s.kernel, capturesTheMachine route = true →
    s.reconciler.gate.seen = true ∧ s.timer = some (s.reconciler.gate.liveAt + t.grace) ∧
      (woken = true → s.now ≤ s.reconciler.gate.liveAt + t.grace)

variable {t : Table} {rt : Runtime} {woken : Bool}

/-- With a session source the gate decides. -/
theorem sampleCapture_eq (hsessions : rt.sessions = true) {r : Reconciler} (hrt : r.rt = rt) (now : Int) (live : Nat) :
    r.sampleCapture now live = { r with gate := r.gate.sample now live, capture := (r.gate.sample now live).open_ } := by
  unfold Reconciler.sampleCapture
  rw [hrt, hsessions]
  rfl

/-- A sample keeps the grace. -/
theorem grace_sample (g : CaptureGate) (now : Int) (live : Nat) : (g.sample now live).grace = g.grace := by
  unfold CaptureGate.sample
  split_ifs <;> rfl

/-- A turn of an enabled reconciler: the pass keeps what holds, and a route that captures the machine survives it only within the grace
of a pass that found a session live, its family covered. -/
theorem pass_spec (hsessions : rt.sessions = true) (h : Guards t rt woken s) (henabled : s.reconciler.enabled = true) (a : Answers) :
    Guards t rt woken (s.turn a) ∧ ∀ route ∈ (s.turn a).kernel, capturesTheMachine route = true →
      (∃ p ∈ (s.turn a).passes, 0 < p.live ∧ s.now - p.at_ < t.grace) ∧
      (rt.capture = true → a.ready.has route.destination.addr = true) := by
  obtain ⟨hsampled, hopen⟩ := sampled_sample h.sampled a.live
  rw [h.grace] at hopen
  have hturn : s.turn a =
      let pass := { s.reconciler with withdrawn := false }.reconcile s.kernel s.now a
      { s with reconciler := pass.1, kernel := pass.2, timer := pass.1.captureDeadline, passes := ⟨s.now, a.live⟩ :: s.passes } := by
    rw [Machine.turn, henabled]
    rfl
  have hsample := @sampleCapture_eq rt hsessions { s.reconciler with withdrawn := false } h.rt s.now a.live
  rw [hturn, Reconciler.reconcile, hsample]
  dsimp only
  generalize hr : ({ s.reconciler with withdrawn := false, gate := s.reconciler.gate.sample s.now a.live,
                                       capture := (s.reconciler.gate.sample s.now a.live).open_ } : Reconciler) = r
  have hgate : r.gate = s.reconciler.gate.sample s.now a.live := hr ▸ rfl
  have hcapture : r.capture = (s.reconciler.gate.sample s.now a.live).open_ := hr ▸ rfl
  have hrt : r.rt = rt := hr ▸ h.rt
  have hgrace : r.gate.grace = t.grace := hgate ▸ (grace_sample _ _ _).trans h.grace
  rw [← hgate] at hsampled hopen hcapture
  have hfacts : ∀ route ∈ (r.applyRoutes s.kernel a).2, capturesTheMachine route = true →
      r.gate.open_ = true ∧ (rt.capture = true → a.ready.has route.destination.addr = true) ∧
        (r.applyRoutes s.kernel a).1.capturing = true := fun route hmem hcaptures => by
    obtain ⟨hgo, hcovered, hknows⟩ := applied_captures hmem hcaptures
    exact ⟨hcapture ▸ hgo, hrt ▸ hcovered, hknows⟩
  constructor
  · refine ⟨hrt, hgrace, hsampled, fun _ route hmem hcaptures => ?_⟩
    obtain ⟨hgo, -, hknows⟩ := hfacts route hmem hcaptures
    refine ⟨hsampled.opened hgo, ?_, fun _ => (hopen hgo).le⟩
    rw [Reconciler.captureDeadline, hknows]
    simp only [Reconciler.applyRoutes, CaptureGate.deadline, hgo, hgrace]
    rfl
  · intro route hmem hcaptures
    obtain ⟨hgo, hcovered, -⟩ := hfacts route hmem hcaptures
    obtain ⟨p, hp, hlive, hat⟩ := hsampled.seen (hsampled.opened hgo)
    refine ⟨⟨p, hp, hlive, ?_⟩, hcovered⟩
    have := hopen hgo
    omega

/-- Every step keeps the guards. -/
theorem guards_step (hsessions : rt.sessions = true) {s' : Machine} (h : Guards t rt woken s) (hstep : Machine.Step woken s s') :
    Guards t rt woken s' := by
  cases hstep with
  | turn _ a =>
    cases henabled : s.reconciler.enabled with
    | true => exact (pass_spec hsessions h henabled a).1
    | false =>
      cases hwithdrawn : s.reconciler.withdrawn with
      | true =>
        have hturn : s.turn a = s := by simp [Machine.turn, henabled, hwithdrawn]
        rwa [hturn]
      | false =>
        have hturn : s.turn a =
            { s with kernel := Machine.withdraw s.kernel, reconciler := { s.reconciler with withdrawn := true }, timer := none } := by
          simp [Machine.turn, henabled, hwithdrawn]
        rw [hturn]
        exact ⟨h.rt, h.grace, h.sampled, by simp [withdraw_eq_nil]⟩
  | setEnabled on => exact ⟨h.rt, h.grace, h.sampled, h.held⟩
  | @advance now hle hwoken =>
    refine ⟨h.rt, h.grace, ⟨h.sampled.grace_pos, h.sampled.seen, h.sampled.unseen, h.sampled.opened⟩, fun hpasses route hmem hc => ?_⟩
    obtain ⟨hseen, htimer, -⟩ := h.held hpasses route hmem hc
    exact ⟨hseen, htimer, fun hw => hwoken hw _ htimer⟩
  | lose hsub => exact ⟨h.rt, h.grace, h.sampled, fun hpasses route hmem => h.held hpasses route (hsub hmem)⟩
  | cancel => exact ⟨h.rt, h.grace, h.sampled, by simp [withdraw_eq_nil]⟩

/-- So does every run. -/
theorem guards_run (hsessions : rt.sessions = true) {now : Int}
    (hrun : Relation.ReflTransGen (Machine.Step woken) (.start t rt kernel now) s) : Guards t rt woken s := by
  induction hrun with
  | refl => exact ⟨rfl, rfl, ⟨table_grace_pos t, by simp [Machine.start, newReconciler], by simp [Machine.start],
      by simp [Machine.start, newReconciler]⟩, by simp [Machine.start]⟩
  | tail _ hstep ih => exact guards_step hsessions ih hstep

end CaptureAux

open CaptureAux

/-- A reconciler that has a session source, started over any routes, in every state of every run. After a pass, a route that captures
the machine is installed only if some pass found a session live less than the grace ago and, with coverage to ask about, this pass found
the route's family covered. While no pass has found a session live, the passes leave no such route. And where `Run` is woken at the
deadlines it computes, such a route is held only while less than the grace has passed since a pass that found a session live, or
at the very end of it with the wake-up due. -/
theorem capture_released {t : Table} {rt : Runtime} (hsessions : rt.sessions = true) {woken : Bool} {kernel : List Route} {now : Int}
    {s : Machine} (hrun : Relation.ReflTransGen (Machine.Step woken) (.start t rt kernel now) s) :
    (s.reconciler.enabled = true → ∀ a, ∀ route ∈ (s.turn a).kernel, capturesTheMachine route = true →
      (∃ p ∈ (s.turn a).passes, 0 < p.live ∧ s.now - p.at_ < t.grace) ∧
      (rt.capture = true → a.ready.has route.destination.addr = true)) ∧
    (s.passes ≠ [] → (∀ p ∈ s.passes, p.live = 0) → ∀ route ∈ s.kernel, capturesTheMachine route = false) ∧
    (woken = true → s.passes ≠ [] → ∀ route ∈ s.kernel, capturesTheMachine route = true →
      ∃ p ∈ s.passes, 0 < p.live ∧ (s.now < p.at_ + t.grace ∨ s.now = p.at_ + t.grace ∧ s.timer = some s.now)) := by
  have h := guards_run hsessions hrun
  refine ⟨fun henabled a => (pass_spec hsessions h henabled a).2, fun hpasses hdead route hmem => ?_, fun hw hpasses route hmem hc => ?_⟩
  · by_contra hcaptures
    obtain ⟨hseen, -⟩ := h.held hpasses route hmem (Bool.eq_true_of_not_eq_false hcaptures)
    obtain ⟨p, hp, hlive, -⟩ := h.sampled.seen hseen
    exact absurd (hdead p hp) (by omega)
  · obtain ⟨hseen, htimer, hnow⟩ := h.held hpasses route hmem hc
    obtain ⟨p, hp, hlive, hat⟩ := h.sampled.seen hseen
    refine ⟨p, hp, hlive, ?_⟩
    rcases (hnow hw).lt_or_eq with hlt | heq
    · exact .inl (hat ▸ hlt)
    · exact .inr ⟨hat ▸ heq, heq ▸ htimer⟩

/-- A pass that finds the mesh announcing a default over IPv4, with so many sessions live. -/
def defaultAnnounced (live : Nat) : Answers :=
  { live := live, snapshot := [⟨.none, prefixFrom (.v4 0) 0, .peer ⟨1, "exit"⟩⟩], ready := ⟨true, true⟩, scopes := fun _ => false
    skips := fun _ => false }

/-- A machine whose first pass finds a session live. -/
def carriedMachine : Machine := (Machine.start {} ⟨true, false⟩ [] 0).turn (defaultAnnounced 1)

/-- The machine takes the default with its first live session, and has given it back ten seconds later. -/
theorem capture_released_in_time :
    carriedMachine.kernel = [{ destination := prefixFrom (.v4 0) 0, metric := 0 }] ∧
    Relation.ReflTransGen (Machine.Step true) (.start {} ⟨true, false⟩ [] 0) { carriedMachine with now := 10 * second } ∧
    (∀ route ∈ ({ carriedMachine with now := 10 * second }.turn (defaultAnnounced 0)).kernel, capturesTheMachine route = false) := by
  have hrun : Relation.ReflTransGen (Machine.Step true) (.start {} ⟨true, false⟩ [] 0) { carriedMachine with now := 10 * second } := by
    refine .tail (.single (.turn rfl (defaultAnnounced 1))) (.advance (by decide) fun _ at_ htimer => ?_)
    have hat : at_ = 10 * second := Option.some.inj (htimer.symm.trans (by decide +kernel))
    exact hat.ge
  refine ⟨by decide +kernel, hrun, fun route hmem => ?_⟩
  by_contra hcaptures
  obtain ⟨⟨p, hp, hlive, hlt⟩, -⟩ := (capture_released rfl hrun).1 rfl (defaultAnnounced 0) route hmem
    (Bool.eq_true_of_not_eq_false hcaptures)
  have hpasses : ({ carriedMachine with now := 10 * second }.turn (defaultAnnounced 0)).passes = [⟨10 * second, 0⟩, ⟨0, 1⟩] := rfl
  rw [hpasses] at hp
  rcases List.mem_cons.mp hp with rfl | hp
  · exact absurd hlive (by decide)
  · rw [List.mem_singleton.mp hp] at hlt
    exact absurd hlt (by decide)

end RanetLite.Kernel
