import Mathlib.Order.Basic
import RanetLite.Client.Sessions

/-!
# Which of two sessions both ends keep

The rule prefers the SA whose initiator comes first in the order of the joined identities. Where those differ, exactly one of the two
SAs of a collision is preferred, and no end ever closes it (`Fares`). Where they are the same, neither is preferred, the newest wins
at each end, and the two ends can keep different ones.
-/

namespace RanetLite.Client

/-- What is known of one end while the SA `keep` opened is the preferred one. -/
structure Fares (path : String) (keep : Side) (e : End) : Prop where
  serving : e.set.shut = false
  nodup : e.waiting.Nodup
  safe : keep.opened ∉ e.closed
  early : keep.opened ∈ e.waiting → ∀ l, e.set.get path = some l →
    l.session = keep.other.opened ∧ l.preferred = false ∧ keep.other.opened ∉ e.waiting
  gone : keep.opened ∈ e.waiting → keep.other.opened ∉ e.waiting → e.set.get path = none → keep.other.opened ∈ e.closed
  held : keep.opened ∉ e.waiting → ∃ l, e.set.get path = some l ∧ l.session = keep.opened ∧ l.preferred = true
  lost : keep.opened ∉ e.waiting → keep.other.opened ∉ e.waiting → keep.other.opened ∈ e.closed

/-- The adoption of any session under `path'` neither touches the entry of `path` nor depends on it. -/
def Apart (path path' : String) : Prop :=
  ∀ (s : SessionSet) (sess : SessionRef) (preferred : Bool) (remote : Identity),
    (s.adoptFor path' sess preferred remote).set.get path = s.get path ∧
    (s.adoptFor path' sess preferred remote).adopted = ((s.drop path).adoptFor path' sess preferred remote).adopted ∧
    (s.adoptFor path' sess preferred remote).closed = ((s.drop path).adoptFor path' sess preferred remote).closed

/-- Names the separators do not occur in. -/
def Identity.Plain (id : Identity) : Prop :=
  '/' ∉ id.organization.toList ∧ '/' ∉ id.commonName.toList ∧ '@' ∉ id.serialNumber.toList

/-- Both SAs just up. -/
def Collision.up : Collision := ⟨fun _ => { waiting := [Side.left.opened, Side.right.opened] }⟩

/-- Each end has adopted its own SA first. -/
def Collision.crossed (ids : Side → Identity) : Collision :=
  (((up.adoptAt ids .left .left).adoptAt ids .left .right).adoptAt ids .right .right).adoptAt ids .right .left

namespace SessionsAux

variable {s : SessionSet} {path name : String} {l : LiveSession} {sess : SessionRef} {preferred : Bool} {remote : Identity}

/-- Dropping a path leaves the others. -/
theorem get_drop_ne (h : name ≠ path) : (s.drop name).get path = s.get path := by
  unfold SessionSet.get SessionSet.drop
  dsimp only
  induction s.live with
  | nil => rfl
  | cons entry rest ih =>
    obtain ⟨k, v⟩ := entry
    by_cases hk : k = name
    · subst hk
      rw [List.filter_cons_of_neg (by simp), List.lookup_cons, ih, beq_false_of_ne (Ne.symm h)]
    · rw [List.filter_cons_of_pos (by simpa using hk), List.lookup_cons, List.lookup_cons, ih]

/-- A path that is dropped is empty. -/
theorem get_drop_self : (s.drop path).get path = none := by
  unfold SessionSet.get SessionSet.drop
  rw [List.lookup_eq_none_iff]
  intro entry hentry
  exact bne_iff_ne.mpr fun he => of_decide_eq_true (List.mem_filter.mp hentry).2 he.symm

/-- A path that is put. -/
theorem get_put_self : (s.put path l).get path = some l := by
  simp [SessionSet.get, SessionSet.put]

/-- Putting on a path leaves the others. -/
theorem get_put_ne (h : name ≠ path) : (s.put name l).get path = s.get path := by
  have hdrop : (s.put name l).get path = (s.drop name).get path := by
    simp [SessionSet.get, SessionSet.put, List.lookup_cons, beq_false_of_ne (Ne.symm h)]
  rw [hdrop, get_drop_ne h]

/-- So does adopting for one. -/
theorem get_adoptFor_ne (h : name ≠ path) : (s.adoptFor name sess preferred remote).set.get path = s.get path := by
  unfold SessionSet.adoptFor
  split_ifs
  · rfl
  · cases s.get name with
    | none => exact get_put_ne h
    | some previous =>
      by_cases hkeep : previous.session ≠ sess ∧ previous.preferred = true ∧ preferred = false
      · simp only [if_pos hkeep]
      · simp only [if_neg hkeep]
        exact get_put_ne h

/-- So does releasing one. -/
theorem get_release_ne (h : name ≠ path) : (s.release name sess).get path = s.get path := by
  unfold SessionSet.release
  split_ifs
  · exact get_drop_ne h
  · rfl

/-- Adopting does not shut the set. -/
theorem shut_adoptFor : (s.adoptFor name sess preferred remote).set.shut = s.shut := by
  unfold SessionSet.adoptFor
  split_ifs
  · rfl
  · cases s.get name with
    | none => rfl
    | some previous =>
      dsimp only
      split_ifs <;> rfl

/-- Nor does releasing. -/
theorem shut_release : (s.release name sess).shut = s.shut := by
  unfold SessionSet.release
  split_ifs <;> rfl

/-- A path that is free takes the session. -/
theorem adoptFor_vacant (hshut : s.shut = false) (h : s.get path = none) :
    s.adoptFor path sess preferred remote =
      { set := s.put path { session := sess, preferred := preferred, peer := remote }, adopted := true, closed := [] } := by
  simp [SessionSet.adoptFor, hshut, h]

/-- A preferred session refuses one that is not. -/
theorem adoptFor_refused (hshut : s.shut = false) (h : s.get path = some l) (hne : l.session ≠ sess) (hl : l.preferred = true) :
    s.adoptFor path sess false remote = { set := s, adopted := false, closed := [sess] } := by
  simp [SessionSet.adoptFor, hshut, h, hne, hl]

/-- Any other session is replaced. -/
theorem adoptFor_replaced (hshut : s.shut = false) (h : s.get path = some l) (hne : l.session ≠ sess)
    (hl : l.preferred = false ∨ preferred = true) :
    s.adoptFor path sess preferred remote =
      { set := s.put path { session := sess, preferred := preferred, peer := remote }, adopted := true, closed := [l.session] } := by
  have hno : ¬(l.session ≠ sess ∧ l.preferred = true ∧ preferred = false) := by
    rintro ⟨-, hpref, hnot⟩
    obtain hl | hl := hl
    · exact absurd (hpref.symm.trans hl) (by simp)
    · exact absurd (hnot.symm.trans hl) (by simp)
  simp only [SessionSet.adoptFor, hshut, h, Bool.false_eq_true, if_false, if_neg hno, if_pos hne]

/-- Only its own entry is released. -/
theorem release_of_other (h : (s.get path).map (·.session) ≠ some sess) : s.release path sess = s := if_neg h

/-- The two ends open different sessions. -/
theorem opened_ne (side : Side) : side.opened ≠ side.other.opened := by
  cases side <;> decide

/-- There are two ends. -/
theorem eq_or_other (a b : Side) : a = b ∨ a = b.other := by
  cases a <;> cases b <;> decide

variable {keep : Side} {e : End}

/-- The preferred SA is adopted. -/
theorem fares_keep (h : Fares path keep e) (hwaiting : keep.opened ∈ e.waiting) :
    Fares path keep
      { set := (e.set.adoptFor path keep.opened true remote).set
        waiting := e.waiting.erase keep.opened
        closed := e.closed ++ (e.set.adoptFor path keep.opened true remote).closed } := by
  have hgone : keep.opened ∉ e.waiting.erase keep.opened := h.nodup.not_mem_erase
  have hother : keep.other.opened ∈ e.waiting.erase keep.opened ↔ keep.other.opened ∈ e.waiting :=
    List.mem_erase_of_ne (opened_ne keep).symm
  refine ⟨shut_adoptFor.trans h.serving, h.nodup.erase _, ?_, fun hin => absurd hin hgone, fun hin => absurd hin hgone, fun _ => ?_, fun _ => ?_⟩
  · cases hget : e.set.get path with
    | none =>
      rw [adoptFor_vacant h.serving hget, List.append_nil]
      exact h.safe
    | some l =>
      obtain ⟨hsession, -, -⟩ := h.early hwaiting l hget
      rw [adoptFor_replaced h.serving hget (by rw [hsession]; exact (opened_ne keep).symm) (.inr rfl), hsession]
      simpa using ⟨h.safe, opened_ne keep⟩
  · cases hget : e.set.get path with
    | none => exact ⟨_, by rw [adoptFor_vacant h.serving hget]; exact get_put_self, rfl, rfl⟩
    | some l =>
      obtain ⟨hsession, -, -⟩ := h.early hwaiting l hget
      rw [adoptFor_replaced h.serving hget (by rw [hsession]; exact (opened_ne keep).symm) (.inr rfl)]
      exact ⟨_, get_put_self, rfl, rfl⟩
  · intro hnot
    dsimp only at hnot ⊢
    rw [hother] at hnot
    cases hget : e.set.get path with
    | none => exact List.mem_append_left _ (h.gone hwaiting hnot hget)
    | some l =>
      obtain ⟨hsession, -, -⟩ := h.early hwaiting l hget
      rw [adoptFor_replaced h.serving hget (by rw [hsession]; exact (opened_ne keep).symm) (.inr rfl), hsession]
      simp

/-- The other SA is adopted, or refused once the preferred one is held. -/
theorem fares_other (h : Fares path keep e) (hwaiting : keep.other.opened ∈ e.waiting) :
    Fares path keep
      { set := (e.set.adoptFor path keep.other.opened false remote).set
        waiting := e.waiting.erase keep.other.opened
        closed := e.closed ++ (e.set.adoptFor path keep.other.opened false remote).closed } := by
  have hgone : keep.other.opened ∉ e.waiting.erase keep.other.opened := h.nodup.not_mem_erase
  have hkeep : keep.opened ∈ e.waiting.erase keep.other.opened ↔ keep.opened ∈ e.waiting := List.mem_erase_of_ne (opened_ne keep)
  by_cases hearly : keep.opened ∈ e.waiting
  · have hget : e.set.get path = none := by
      cases hget : e.set.get path with
      | none => rfl
      | some l => exact absurd hwaiting (h.early hearly l hget).2.2
    rw [adoptFor_vacant h.serving hget, List.append_nil]
    refine ⟨h.serving, h.nodup.erase _, h.safe, fun _ l hl => ?_, fun _ _ hl => ?_, fun hnot => absurd (hkeep.mpr hearly) hnot,
      fun hnot => absurd (hkeep.mpr hearly) hnot⟩
    · dsimp only at hl
      rw [get_put_self] at hl
      rw [← Option.some.inj hl]
      exact ⟨rfl, rfl, hgone⟩
    · dsimp only at hl
      rw [get_put_self] at hl
      exact absurd hl (by simp)
  · obtain ⟨l, hget, hsession, hpreferred⟩ := h.held hearly
    rw [adoptFor_refused h.serving hget (by rw [hsession]; exact opened_ne keep) hpreferred]
    refine ⟨h.serving, h.nodup.erase _, ?_, fun hin => absurd (hkeep.mp hin) hearly, fun hin => absurd (hkeep.mp hin) hearly,
      fun _ => ⟨l, hget, hsession, hpreferred⟩, fun _ _ => by simp⟩
    simpa using ⟨h.safe, opened_ne keep⟩

/-- The other SA is unwound. -/
theorem fares_unwind (h : Fares path keep e) :
    Fares path keep
      { e with set := e.set.release path keep.other.opened, closed := keep.other.opened :: e.closed } := by
  have hsafe : keep.opened ∉ keep.other.opened :: e.closed := by simpa using ⟨opened_ne keep, h.safe⟩
  by_cases hearly : keep.opened ∈ e.waiting
  · refine ⟨shut_release.trans h.serving, h.nodup, hsafe, fun _ l hl => ?_, fun _ _ _ => List.mem_cons_self,
      fun hnot => absurd hearly hnot, fun hnot => absurd hearly hnot⟩
    dsimp only at hl
    by_cases hheld : (e.set.get path).map (·.session) = some keep.other.opened
    · rw [SessionSet.release, if_pos hheld, get_drop_self] at hl
      exact absurd hl (by simp)
    · rw [release_of_other hheld] at hl
      exact h.early hearly l hl
  · obtain ⟨l, hget, hsession, hpreferred⟩ := h.held hearly
    have hrelease : e.set.release path keep.other.opened = e.set := by
      refine release_of_other ?_
      rw [hget, Option.map_some, hsession]
      exact fun he => opened_ne keep (Option.some.inj he)
    rw [hrelease]
    exact ⟨h.serving, h.nodup, hsafe, fun hin => absurd hin hearly, fun hin => absurd hin hearly,
      fun _ => ⟨l, hget, hsession, hpreferred⟩, fun _ _ => List.mem_cons_self⟩

/-- What happens under other names does not matter. -/
theorem fares_frame (h : Fares path keep e) {set : SessionSet} (hshut : set.shut = e.set.shut)
    (hget : set.get path = e.set.get path) : Fares path keep { e with set := set } := by
  refine ⟨hshut.trans h.serving, h.nodup, h.safe, ?_, ?_, ?_, h.lost⟩
  · dsimp only
    rw [hget]
    exact h.early
  · dsimp only
    rw [hget]
    exact h.gone
  · dsimp only
    rw [hget]
    exact h.held

variable {ids : Side → Identity} {c c' : Collision}

/-- Where the joined identities differ, one of the two SAs is preferred, and the other is not. -/
theorem exists_preferred (h : identityOrder (ids .left) ≠ identityOrder (ids .right)) :
    ∃ keep : Side, preferInitiator (ids keep) (ids keep.other) = true ∧ preferInitiator (ids keep.other) (ids keep) = false := by
  obtain hlt | hlt := lt_or_gt_of_ne h
  · exact ⟨.left, decide_eq_true hlt, decide_eq_false (lt_asymm hlt)⟩
  · exact ⟨.right, decide_eq_true hlt, decide_eq_false (lt_asymm hlt)⟩

/-- One step of a collision. -/
theorem fares_step (hpreferred : preferInitiator (ids keep) (ids keep.other) = true)
    (hother : preferInitiator (ids keep.other) (ids keep) = false) (h : ∀ side, Fares (Collision.path ids side) keep (c.ends side))
    (hstep : c.Step ids c') (side : Side) : Fares (Collision.path ids side) keep (c'.ends side) := by
  have hends : ∀ (at_ : Side) (e : End), Fares (Collision.path ids at_) keep e → Fares (Collision.path ids side) keep ((c.withEnd at_ e).ends side) := by
    intro at_ e he
    unfold Collision.withEnd
    dsimp only
    split_ifs with hside
    · rw [hside]
      exact he
    · exact h side
  cases hstep with
  | @adopt at_ opener hwaiting =>
    refine hends at_ _ ?_
    obtain rfl | rfl := eq_or_other opener keep
    · unfold Collision.adoption SessionSet.adopt
      rw [hpreferred]
      exact fares_keep (h at_) hwaiting
    · have hback : keep.other.other = keep := by cases keep <;> rfl
      unfold Collision.adoption SessionSet.adopt
      rw [hback, hother]
      exact fares_other (h at_) hwaiting
  | @unwind at_ opener hclosed hadopted =>
    obtain rfl | rfl := eq_or_other opener keep
    · obtain ⟨s, hs⟩ := hclosed
      exact absurd hs (h s).safe
    · exact hends at_ _ (fares_unwind (h at_))
  | @adoptOther at_ name hname sess preferred remote =>
    exact hends at_ _ (fares_frame (h at_) shut_adoptFor (get_adoptFor_ne hname))
  | @releaseOther at_ name hname sess =>
    exact hends at_ _ (fares_frame (h at_) shut_release (get_release_ne hname))

/-- Every run of a collision. -/
theorem fares_run (hpreferred : preferInitiator (ids keep) (ids keep.other) = true)
    (hother : preferInitiator (ids keep.other) (ids keep) = false) (hstart : c.Starts ids)
    (hrun : Relation.ReflTransGen (Collision.Step ids) c c') (side : Side) : Fares (Collision.path ids side) keep (c'.ends side) := by
  induction hrun generalizing side with
  | refl =>
    have hin : ∀ s : Side, s.opened ∈ (c.ends side).waiting := by
      intro s
      rw [hstart.waiting side]
      cases s <;> decide
    refine ⟨hstart.serving side, by rw [hstart.waiting side]; decide, by simp [hstart.closed side], fun _ l hl => ?_,
      fun _ hnot => absurd (hin _) hnot, fun hnot => absurd (hin _) hnot, fun hnot => absurd (hin _) hnot⟩
    rw [hstart.vacant side] at hl
    exact absurd hl (by simp)
  | tail _ hstep ih => exact fares_step hpreferred hother ih hstep side

/-- Two ends that are up start a collision. -/
theorem up_starts (ids : Side → Identity) : Collision.Starts ids .up := ⟨fun _ => rfl, fun _ => rfl, fun _ => rfl, fun _ => rfl⟩

/-- The two opens can cross. -/
theorem crossed_reachable (ids : Side → Identity) :
    Relation.ReflTransGen (Collision.Step ids) .up (.crossed ids) ∧ ∀ side, ((Collision.crossed ids).ends side).waiting = [] := by
  refine ⟨.head (@Collision.Step.adopt _ _ .left .left (by decide)) (.head (@Collision.Step.adopt _ _ .left .right ?_)
    (.head (@Collision.Step.adopt _ _ .right .right ?_) (.head (@Collision.Step.adopt _ _ .right .left ?_) .refl))), fun side => ?_⟩
  · simp [Collision.adoptAt, Collision.up, Collision.withEnd, Side.opened]
  · simp [Collision.adoptAt, Collision.up, Collision.withEnd, Side.opened]
  · simp [Collision.adoptAt, Collision.up, Collision.withEnd, Side.opened]
  · cases side <;> simp [Collision.crossed, Collision.adoptAt, Collision.up, Collision.withEnd, Side.opened]

/-- Equally named ends prefer neither SA, and each keeps the one it adopts last. -/
theorem not_kept (h : identityOrder (ids .left) = identityOrder (ids .right)) (keep : Side) : ¬(Collision.crossed ids).Kept ids keep := by
  have hneither : ∀ a b : Side, preferInitiator (ids a) (ids b) = false := by
    have hsame : ∀ a : Side, identityOrder (ids a) = identityOrder (ids .left) := by
      intro a
      cases a with
      | left => rfl
      | right => exact h.symm
    intro a b
    refine decide_eq_false ?_
    rw [hsame a, hsame b]
    exact lt_irrefl _
  intro hkept
  have hleft := (hkept .left).1
  have hright := (hkept .right).1
  simp [Collision.crossed, Collision.adoptAt, Collision.up, Collision.withEnd, Collision.adoption, SessionSet.adopt, hneither,
    SessionSet.adoptFor, SessionSet.get, SessionSet.put, SessionSet.drop] at hleft hright
  exact absurd (hleft.trans hright.symm) (by decide)

/-- Two splits at the first separator are the same. -/
theorem split_inj {α : Type} {a : α} : ∀ {xs xs' ys ys' : List α}, a ∉ xs → a ∉ xs' → xs ++ a :: ys = xs' ++ a :: ys' →
    xs = xs' ∧ ys = ys'
  | [], [], _, _, _, _, h => ⟨rfl, (List.cons.inj h).2⟩
  | [], x :: _, _, _, _, hx', h => absurd (List.cons.inj h).1 fun he => hx' (by simp [he])
  | x :: _, [], _, _, hx, _, h => absurd (List.cons.inj h).1 fun he => hx (by simp [he])
  | x :: xs, x' :: xs', ys, ys', hx, hx', h => by
    obtain ⟨rfl, hrest⟩ := List.cons.inj h
    obtain ⟨rfl, hys⟩ :=
      split_inj (fun hmem => hx (List.mem_cons_of_mem _ hmem)) (fun hmem => hx' (List.mem_cons_of_mem _ hmem)) hrest
    exact ⟨rfl, hys⟩

/-- Plain identities are told apart by their order. -/
theorem identityOrder_inj {a b : Identity} (ha : a.Plain) (hb : b.Plain) (h : identityOrder a = identityOrder b) : a = b := by
  have hlist := congrArg String.toList h
  simp only [identityOrder, String.toList_append, List.append_assoc] at hlist
  obtain ⟨horg, hlist⟩ := split_inj ha.1 hb.1 hlist
  obtain ⟨hname, hserial⟩ := split_inj ha.2.1 hb.2.1 hlist
  obtain ⟨org, name, serial⟩ := a
  obtain ⟨org', name', serial'⟩ := b
  simp only [Identity.mk.injEq]
  exact ⟨String.toList_inj.mp horg, String.toList_inj.mp hname, String.toList_inj.mp hserial⟩

/-- And sessions by their names. -/
theorem sessionName_inj {a b : Identity} {l l' : String} (ha : a.Plain) (hb : b.Plain) (h : sessionName a l = sessionName b l') :
    a = b ∧ l = l' := by
  have hlist := congrArg String.toList h
  simp only [sessionName, String.toList_append, List.append_assoc] at hlist
  obtain ⟨horg, hlist⟩ := split_inj ha.1 hb.1 hlist
  obtain ⟨hname, hlist⟩ := split_inj ha.2.1 hb.2.1 hlist
  obtain ⟨hserial, hlocal⟩ := split_inj ha.2.2 hb.2.2 hlist
  obtain ⟨org, name, serial⟩ := a
  obtain ⟨org', name', serial'⟩ := b
  simp only [Identity.mk.injEq]
  exact ⟨⟨String.toList_inj.mp horg, String.toList_inj.mp hname, String.toList_inj.mp hserial⟩, String.toList_inj.mp hlocal⟩

/-- Sessions are resolved against each other exactly under one name. -/
theorem apart_iff {path' : String} : Apart path path' ↔ path ≠ path' := by
  constructor
  · rintro h rfl
    have := (h { live := [(path, ⟨0, true, {}⟩)] } 1 false {}).2.1
    simp [SessionSet.adoptFor, SessionSet.get, SessionSet.drop] at this
  · intro hne s sess preferred remote
    have hget : (s.drop path).get path' = s.get path' := get_drop_ne hne
    refine ⟨get_adoptFor_ne hne.symm, ?_⟩
    simp only [SessionSet.adoptFor, hget, show (s.drop path).shut = s.shut from rfl]
    split_ifs
    · exact ⟨rfl, rfl⟩
    · cases s.get path' with
      | none => exact ⟨rfl, rfl⟩
      | some previous =>
        dsimp only
        split_ifs <;> exact ⟨rfl, rfl⟩

end SessionsAux

open SessionsAux

/-- Two ends that each opened an SA over one pair of endpoints come to hold the same one and close the other, in whatever order each
adopts them, exactly when their joined identities differ; and sessions of two paths are resolved against each other exactly when the
path names are the same. Neither happens to different identities, or different pairs, whose organizations and names have no slash and
whose serials have no at sign. -/
theorem collisions_resolve (ids : Side → Identity) :
    ((∀ c c', Collision.Starts ids c → Relation.ReflTransGen (Collision.Step ids) c c' → (∀ side, (c'.ends side).waiting = []) →
      ∃ keep, c'.Kept ids keep) ↔ identityOrder (ids .left) ≠ identityOrder (ids .right)) ∧
    (∀ peer serial peer' serial', Apart (sessionName peer serial) (sessionName peer' serial') ↔
      sessionName peer serial ≠ sessionName peer' serial') ∧
    (∀ a b : Identity, a.Plain → b.Plain → (a ≠ b → identityOrder a ≠ identityOrder b) ∧
      ∀ serial serial', (a, serial) ≠ (b, serial') → sessionName a serial ≠ sessionName b serial') := by
  refine ⟨⟨fun hagree heq => ?_, fun hne c c' hstart hrun hwaiting => ?_⟩, fun _ _ _ _ => apart_iff, fun a b ha hb => ⟨?_, ?_⟩⟩
  · obtain ⟨hrun, hwaiting⟩ := crossed_reachable ids
    obtain ⟨keep, hkept⟩ := hagree .up _ (up_starts ids) hrun hwaiting
    exact not_kept heq keep hkept
  · obtain ⟨keep, hpreferred, hother⟩ := exists_preferred hne
    refine ⟨keep, fun side => ?_⟩
    have hfares := fares_run hpreferred hother hstart hrun side
    have hnot : ∀ s : Side, s.opened ∉ (c'.ends side).waiting := by simp [hwaiting side]
    obtain ⟨l, hget, hsession, -⟩ := hfares.held (hnot keep)
    exact ⟨by rw [hget, Option.map_some, hsession], hfares.safe, hfares.lost (hnot keep) (hnot keep.other)⟩
  · exact fun hne heq => hne (identityOrder_inj ha hb heq)
  · intro serial serial' hne heq
    obtain ⟨rfl, rfl⟩ := sessionName_inj ha hb heq
    exact hne rfl

/-- Two ends whose joined identities differ. -/
def plainIds : Side → Identity
  | .left => ⟨"gravity", "a", "0"⟩
  | .right => ⟨"gravity", "b", "1"⟩

theorem collisions_resolve_plain : Relation.ReflTransGen (Collision.Step plainIds) .up (.crossed plainIds) ∧
    ∃ keep, (Collision.crossed plainIds).Kept plainIds keep := by
  obtain ⟨hrun, hwaiting⟩ := crossed_reachable plainIds
  exact ⟨hrun, (collisions_resolve plainIds).1.mpr (by decide) _ _ (up_starts plainIds) hrun hwaiting⟩

/-- Two nodes of a registry whose identities differ and join to the same text. -/
def slashedIds : Side → Identity
  | .left => ⟨"a", "b/c", "0"⟩
  | .right => ⟨"a/b", "c", "0"⟩

/-- A registry that names them both. -/
def slashedRegistry : Registry :=
  [⟨"key of a", "a", [⟨"b/c", [⟨"0", "ip4", 4500⟩]⟩]⟩, ⟨"key of a/b", "a/b", [⟨"c", [⟨"0", "ip4", 4500⟩]⟩]⟩]

/-- The registry accepts the two nodes. Each adopts its own SA first, and they end up holding different ones; and a third node
resolves its sessions with the two against each other. -/
theorem slashed_collision : slashedRegistry.validate (fun _ => some []) = .ok () ∧
    (∀ side, (slashedRegistry.findNode (slashedIds side).organization (slashedIds side).commonName).isSome = true) ∧
    slashedIds .left ≠ slashedIds .right ∧
    Relation.ReflTransGen (Collision.Step slashedIds) .up (.crossed slashedIds) ∧
    (∀ side, ((Collision.crossed slashedIds).ends side).waiting = []) ∧
    (∀ keep, ¬(Collision.crossed slashedIds).Kept slashedIds keep) ∧
    ¬Apart (sessionName (slashedIds .left) "1") (sessionName (slashedIds .right) "1") := by
  obtain ⟨hrun, hwaiting⟩ := crossed_reachable slashedIds
  refine ⟨by decide +kernel, fun side => ?_, by decide, hrun, hwaiting, not_kept (by decide +kernel), fun hapart => ?_⟩
  · cases side <;> decide +kernel
  · exact apart_iff.mp hapart (by decide +kernel)

end RanetLite.Client
