import Mathlib.Data.List.Nodup
import Mathlib.Data.List.Perm.Subperm
import RanetLite.Client.Ownership

/-!
# No session is lost or evicted wrongly

A session is in play while a call still has to decide on it and while it is held. Every move but an offer leaves fewer sessions in play
(`inPlay_act`), and one that leaves is released by its owner, or is closed or will be by the call that took it out (`leaves_act`).
-/

namespace RanetLite.Client

/-- The sessions a call other than `closeAll` has to close. -/
def Call.owes : Call → List SessionRef
  | adopting closing | takingOut closing => closing
  | _ => []

namespace Ownership

/-- The sessions the calls under way have taken out and still have to close. -/
def owed (s : Ownership) : List SessionRef := s.calls.flatMap Call.owes

/-- What holds between any two moves. -/
structure Owned (s : Ownership) : Prop where
  paths : (s.set.live.map Prod.fst).Nodup
  once : s.inPlay.Nodup
  known : ∀ x ∈ s.inPlay, x ∈ s.offered
  placed : ∀ x ∈ s.offered, x ∈ s.inPlay ∨ x ∈ s.owed ∨ x ∈ s.closed ∨ x ∈ s.released
  told : ∀ x ∈ s.ousted, x ∈ s.owed ∨ x ∈ s.closed
  sweep : ∀ closing, Call.closingAll closing ∈ s.calls →
    s.set.shut = true ∧ ∀ x ∈ s.set.sessions, x ∈ closing ∨ x ∈ s.closed
  over_ : s.finished = true → s.set.shut = true ∧ s.set.live = []

namespace OwnAux

section Set

variable {t : SessionSet} {path : String} {sess : SessionRef} {preferred : Bool} {remote : Identity} {l : LiveSession}

/-- A set holds what its map says, since no path is there twice. -/
theorem get_of_mem (hpaths : (t.live.map Prod.fst).Nodup) (h : (path, l) ∈ t.live) : t.get path = some l := by
  obtain ⟨a, b, hab⟩ := List.append_of_mem h
  rw [SessionSet.get, List.lookup_eq_some_iff]
  refine ⟨a, b, hab, fun entry hentry => ?_⟩
  rw [hab, List.map_append, List.map_cons, List.nodup_middle, List.nodup_cons] at hpaths
  rw [bne_iff_ne]
  rintro rfl
  exact hpaths.1 (List.mem_append_left _ (List.mem_map.mpr ⟨entry, hentry, rfl⟩))

/-- The two ways an adoption goes. -/
theorem adoptFor_cases (t : SessionSet) (path : String) (sess : SessionRef) (preferred : Bool) (remote : Identity) :
    (t.adoptFor path sess preferred remote).set = t ∧ (t.adoptFor path sess preferred remote).closed = [sess] ∨
      t.shut = false ∧ (t.adoptFor path sess preferred remote).set = t.put path ⟨sess, preferred, remote⟩ ∧
        ∀ previous, t.get path = some previous → previous.session ≠ sess →
          (t.adoptFor path sess preferred remote).closed = [previous.session] := by
  rw [SessionSet.adoptFor]
  split
  · exact .inl ⟨rfl, rfl⟩
  · next hshut =>
    have hshut : t.shut = false := by simpa using hshut
    dsimp only
    split
    · next hget => exact .inr ⟨hshut, rfl, by simp [hget]⟩
    · next previous hget =>
      split
      · exact .inl ⟨rfl, rfl⟩
      · refine .inr ⟨hshut, rfl, fun p hp hne => ?_⟩
        obtain rfl := Option.some.inj (hget.symm.trans hp)
        exact if_pos hne

/-- Dropping a path adds no session. -/
theorem sessions_drop (t : SessionSet) (path : String) : (t.drop path).sessions.Sublist t.sessions := List.filter_sublist.map _

/-- It leaves the paths distinct. -/
theorem paths_drop (hpaths : (t.live.map Prod.fst).Nodup) : ((t.drop path).live.map Prod.fst).Nodup :=
  hpaths.sublist (List.filter_sublist.map _)

/-- So does putting a session on a path. -/
theorem paths_put (hpaths : (t.live.map Prod.fst).Nodup) : ((t.put path l).live.map Prod.fst).Nodup := by
  rw [SessionSet.put, List.map_cons, List.nodup_cons]
  refine ⟨fun hmem => ?_, paths_drop hpaths⟩
  obtain ⟨entry, hentry, hpath⟩ := List.mem_map.mp hmem
  simpa [hpath] using List.of_mem_filter hentry

/-- A session that an entry set at a path pushes out was the one of that path. -/
theorem pushed_out (hpaths : (t.live.map Prod.fst).Nodup) {x : SessionRef} (hx : x ∈ t.sessions) (hout : x ∉ (t.drop path).sessions) :
    ∃ previous, t.get path = some previous ∧ previous.session = x := by
  obtain ⟨⟨p, l⟩, hmem, rfl⟩ := List.mem_map.mp hx
  by_cases hp : p = path
  · subst hp
    exact ⟨l, get_of_mem hpaths hmem, rfl⟩
  · exact absurd (List.mem_map_of_mem (List.mem_filter.mpr ⟨hmem, by simpa using hp⟩)) hout

/-- A release only takes away. -/
theorem release_sublist (t : SessionSet) (path : String) (sess : SessionRef) : (t.release path sess).live.Sublist t.live := by
  rw [SessionSet.release]
  split
  · exact List.filter_sublist
  · exact .refl _

/-- A release takes out the entry of its own session only. -/
theorem mem_release_of_ne (hpaths : (t.live.map Prod.fst).Nodup) {p : String} (hmem : (p, l) ∈ t.live) (hne : l.session ≠ sess) :
    (p, l) ∈ (t.release path sess).live := by
  rw [SessionSet.release]
  split
  · next hown =>
    refine List.mem_filter.mpr ⟨hmem, ?_⟩
    rw [decide_eq_true_eq]
    rintro rfl
    rw [get_of_mem hpaths hmem] at hown
    exact hne (Option.some.inj hown)
  · exact hmem

/-- A revocation splits the live sessions. -/
theorem revoke_eq (t : SessionSet) (trusted : Identity → Bool) : ∃ p : String × LiveSession → Bool,
    t.revoke trusted = ({ t with live := t.live.filter p }, (t.live.filter (fun e => !p e)).map (·.2.session)) :=
  ⟨fun e => decide (e.2.peer = {} ∨ trusted e.2.peer = true), by simp [SessionSet.revoke]⟩

/-- So does closing those of a peer. -/
theorem closeMatching_eq (t : SessionSet) (peer : String) : ∃ p : String × LiveSession → Bool,
    t.closeMatching peer = ({ t with live := t.live.filter p }, (t.live.filter (fun e => !p e)).map (·.2.session)) :=
  ⟨fun e => !matchesPeer e.1 peer, by simp [SessionSet.closeMatching]⟩

end Set

variable {s : Ownership} {m : Move} {call : Call} {sess x : SessionRef}

/-- A call moved to the front. -/
theorem flatMap_erase {calls : List Call} (f : Call → List SessionRef) (h : call ∈ calls) :
    (calls.flatMap f).Perm (f call ++ (calls.erase call).flatMap f) := (List.perm_cons_erase h).flatMap_right f

/-- A call that is over offers no more. -/
theorem offers_erase {calls : List Call} (h : call ∈ calls) :
    ((calls.erase call).flatMap Call.offers).Subperm (calls.flatMap Call.offers) :=
  (List.sublist_append_right _ _).subperm.trans (flatMap_erase Call.offers h).symm.subperm

/-- Closing does not change what a call offers. -/
theorem offers_close (call : Call) (sess : SessionRef) : (call.close sess).offers = call.offers := by cases call <;> rfl

/-- Closing one session leaves the others owed. -/
theorem mem_close_of_ne (hne : x ≠ sess) (h : x ∈ call.owes) : x ∈ (call.close sess).owes := by
  cases call with
  | adopting | takingOut => exact (List.mem_erase_of_ne hne).mpr h
  | adopt | closingAll => exact h

/-- A call that returns offers and owes nothing. -/
theorem of_returns (h : call.returns = true) : call.offers = [] ∧ call.owes = [] := by
  cases call with
  | adopting closing | takingOut closing => cases closing with
    | nil => exact ⟨rfl, rfl⟩
    | cons => cases h
  | adopt | closingAll => cases h

/-- The sessions in play after a decision: the session that was offered, or nothing in its place. -/
theorem inPlay_decide {path : String} {preferred : Bool} {remote : Identity} (hmem : Call.adopt path sess preferred remote ∈ s.calls) :
    (s.act (.decide path sess preferred remote)).inPlay.Subperm s.inPlay := by
  have hperm := (flatMap_erase Call.offers hmem).append_right s.set.sessions
  refine List.Subperm.trans ?_ hperm.symm.subperm
  simp only [inPlay, act, List.flatMap_cons, Call.offers, List.nil_append]
  obtain ⟨hset, -⟩ | ⟨-, hset, -⟩ := adoptFor_cases s.set path sess preferred remote <;> rw [hset]
  · exact (List.sublist_cons_self _ _).subperm
  · refine List.perm_middle.subperm.trans ?_
    exact (((sessions_drop s.set path).append_left _).cons_cons sess).subperm

/-- A move but an offer leaves no more sessions in play than there were. -/
theorem inPlay_act (hen : system.enabled s m) : (∃ sess, sess ∉ s.offered ∧ (s.act m).inPlay = sess :: s.inPlay ∧
    (s.act m).offered = sess :: s.offered) ∨ (s.act m).inPlay.Subperm s.inPlay ∧ (s.act m).offered = s.offered := by
  cases m with
  | offer path sess preferred remote => exact .inl ⟨sess, hen, rfl, rfl⟩
  | decide path sess preferred remote => exact .inr ⟨inPlay_decide hen, rfl⟩
  | release path sess => exact .inr ⟨(((release_sublist s.set path sess).map _).append_left _).subperm, rfl⟩
  | revoke trusted =>
    obtain ⟨p, hp⟩ := revoke_eq s.set trusted
    refine .inr ⟨?_, rfl⟩
    simp only [act, takeOut, hp]
    exact ((List.filter_sublist.map _).append_left _).subperm
  | closeMatching peer =>
    obtain ⟨p, hp⟩ := closeMatching_eq s.set peer
    refine .inr ⟨?_, rfl⟩
    simp only [act, takeOut, hp]
    exact ((List.filter_sublist.map _).append_left _).subperm
  | closeAll => exact .inr ⟨List.Subperm.refl _, rfl⟩
  | close call sess =>
    refine .inr ⟨?_, rfl⟩
    simp only [inPlay, act, List.flatMap_cons, offers_close]
    exact ((flatMap_erase Call.offers hen.1).append_right _).symm.subperm
  | return_ call => exact .inr ⟨(offers_erase hen.1).append (List.Subperm.refl _), rfl⟩
  | clear => exact .inr ⟨(offers_erase hen).append List.nil_subperm, rfl⟩

/-- What a call has to close it still has to, or has closed. -/
theorem owed_act (hen : system.enabled s m) (hx : x ∈ s.owed) : x ∈ (s.act m).owed ∨ x ∈ (s.act m).closed := by
  cases m with
  | offer | revoke | closeMatching | closeAll => exact .inl (List.mem_append_right _ hx)
  | release => exact .inl hx
  | decide path sess preferred remote =>
    exact .inl (List.mem_append_right _ ((flatMap_erase Call.owes hen).mem_iff.mp hx))
  | close call sess =>
    obtain hx | hx := List.mem_append.mp ((flatMap_erase Call.owes hen.1).mem_iff.mp hx)
    · by_cases hne : x = sess
      · exact .inr (hne ▸ List.mem_cons_self)
      · exact .inl (List.mem_append_left _ (mem_close_of_ne hne hx))
    · exact .inl (List.mem_append_right _ hx)
  | return_ call =>
    have := (flatMap_erase Call.owes hen.1).mem_iff.mp hx
    rw [(of_returns hen.2).2] at this
    exact .inl this
  | clear => exact .inl ((flatMap_erase Call.owes hen).mem_iff.mp hx)

/-- What is taken out by a condition on the entries is owed. -/
theorem leaves_takeOut {p : String × LiveSession → Bool} {r : SessionSet × List SessionRef}
    (hr : r = ({ s.set with live := s.set.live.filter p }, (s.set.live.filter (fun e => !p e)).map (·.2.session))) (hx : x ∈ s.inPlay)
    (hout : x ∉ (s.takeOut r).inPlay) : x ∈ (s.takeOut r).owed := by
  subst hr
  obtain hx | hx := List.mem_append.mp hx
  · exact absurd (List.mem_append_left _ hx) hout
  · obtain ⟨entry, hentry, rfl⟩ := List.mem_map.mp hx
    refine List.mem_append_left _ (List.mem_map_of_mem (List.mem_filter.mpr ⟨hentry, ?_⟩))
    rw [Bool.not_eq_true', ← Bool.not_eq_true]
    intro hp
    exact hout (List.mem_append_right _ (List.mem_map_of_mem (List.mem_filter.mpr ⟨hentry, hp⟩)))

/-- A session that a decision puts out of play is the one it closes. -/
theorem leaves_decide {path : String} {preferred : Bool} {remote : Identity} (h : s.Owned)
    (hmem : Call.adopt path sess preferred remote ∈ s.calls) (hx : x ∈ s.inPlay)
    (hout : x ∉ (s.act (.decide path sess preferred remote)).inPlay) : x ∈ (s.act (.decide path sess preferred remote)).owed := by
  have hperm := (flatMap_erase Call.offers hmem).append_right s.set.sessions
  have hx' := hperm.mem_iff.mp hx
  simp only [Call.offers, List.cons_append, List.nil_append, List.mem_cons, List.mem_append] at hx'
  refine List.mem_append_left _ ?_
  simp only [inPlay, act, List.flatMap_cons, Call.offers, List.nil_append, List.mem_append, not_or] at hout
  obtain ⟨hset, hclosed⟩ | ⟨-, hset, hclosed⟩ := adoptFor_cases s.set path sess preferred remote <;> rw [hset] at hout
  · obtain rfl | hx' | hx' := hx'
    · simp only [Call.owes, hclosed, List.mem_singleton]
    · exact absurd hx' hout.1
    · exact absurd hx' hout.2
  · have hout2 : x ≠ sess ∧ x ∉ (s.set.drop path).sessions := not_or.mp fun hor => hout.2 (List.mem_cons.mpr hor)
    obtain rfl | hx' | hx' := hx'
    · exact absurd rfl hout2.1
    · exact absurd hx' hout.1
    · obtain ⟨previous, hget, rfl⟩ := pushed_out h.paths hx' hout2.2
      simp only [Call.owes, hclosed previous hget hout2.1, List.mem_singleton]

/-- A session that leaves play was released by its owner, or is closed, now or by the call that took it out. -/
theorem leaves_act (h : s.Owned) (hen : system.enabled s m) (hx : x ∈ s.inPlay) (hout : x ∉ (s.act m).inPlay) :
    (∃ path, m = .release path x) ∨ x ∈ (s.act m).owed ∨ x ∈ (s.act m).closed := by
  cases m with
  | offer => exact absurd (List.mem_cons_of_mem _ hx) hout
  | decide path sess preferred remote => exact .inr (.inl (leaves_decide h hen hx hout))
  | release path sess =>
    refine .inl ⟨path, ?_⟩
    obtain hx | hx := List.mem_append.mp hx
    · exact absurd (List.mem_append_left _ hx) hout
    · obtain ⟨⟨p, l⟩, hentry, rfl⟩ := List.mem_map.mp hx
      by_cases hl : l.session = sess
      · rw [← hl]
      · exact absurd (List.mem_append_right _ (List.mem_map_of_mem (mem_release_of_ne h.paths hentry hl))) hout
  | revoke trusted =>
    obtain ⟨p, hp⟩ := revoke_eq s.set trusted
    exact .inr (.inl (leaves_takeOut hp hx hout))
  | closeMatching peer =>
    obtain ⟨p, hp⟩ := closeMatching_eq s.set peer
    exact .inr (.inl (leaves_takeOut hp hx hout))
  | closeAll => exact absurd hx hout
  | close call sess =>
    refine absurd ?_ hout
    simp only [inPlay, act, List.flatMap_cons, offers_close]
    exact ((flatMap_erase Call.offers hen.1).append_right _).mem_iff.mp hx
  | return_ call =>
    have := ((flatMap_erase Call.offers hen.1).append_right s.set.sessions).mem_iff.mp hx
    rw [(of_returns hen.2).1] at this
    exact absurd this hout
  | clear =>
    obtain hx | hx := List.mem_append.mp hx
    · exact absurd (List.mem_append_left _ ((flatMap_erase Call.offers hen).mem_iff.mp hx)) hout
    · exact .inr (.inr (((h.sweep [] hen).2 x hx).resolve_left List.not_mem_nil))

/-- Every move leaves the paths distinct. -/
theorem paths_act (h : s.Owned) : ((s.act m).set.live.map Prod.fst).Nodup := by
  cases m with
  | offer | closeAll | close | return_ => exact h.paths
  | decide path sess preferred remote =>
    obtain ⟨hset, -⟩ | ⟨-, hset, -⟩ := adoptFor_cases s.set path sess preferred remote <;> simp only [act, hset]
    · exact h.paths
    · exact paths_put h.paths
  | release path sess => exact h.paths.sublist ((release_sublist s.set path sess).map _)
  | revoke trusted =>
    obtain ⟨p, hp⟩ := revoke_eq s.set trusted
    simp only [act, takeOut, hp]
    exact h.paths.sublist (List.filter_sublist.map _)
  | closeMatching peer =>
    obtain ⟨p, hp⟩ := closeMatching_eq s.set peer
    simp only [act, takeOut, hp]
    exact h.paths.sublist (List.filter_sublist.map _)
  | clear => exact List.nodup_nil

/-- Once the set is shut it stays shut, and no move adds to what it holds. -/
theorem shut_act (hshut : s.set.shut = true) : (s.act m).set.shut = true ∧ (s.act m).set.live.Sublist s.set.live := by
  cases m with
  | offer | closeAll | close | return_ => exact ⟨by simp [act, SessionSet.shutDown, hshut], .refl _⟩
  | decide path sess preferred remote =>
    obtain ⟨hset, -⟩ | ⟨hopen, -⟩ := adoptFor_cases s.set path sess preferred remote
    · simp only [act, hset]
      exact ⟨hshut, .refl _⟩
    · exact absurd (hshut.symm.trans hopen) (by decide)
  | release path sess =>
    refine ⟨?_, release_sublist s.set path sess⟩
    simp only [act, SessionSet.release]
    split <;> exact hshut
  | revoke trusted => exact ⟨hshut, List.filter_sublist⟩
  | closeMatching peer => exact ⟨hshut, List.filter_sublist⟩
  | clear => exact ⟨hshut, List.nil_sublist _⟩

/-- What is closed stays closed. -/
theorem closed_act (s : Ownership) (m : Move) : s.closed ⊆ (s.act m).closed := by
  cases m with
  | close => exact List.subset_cons_self _ _
  | offer | decide | release | revoke | closeMatching | closeAll | return_ | clear => exact List.Subset.refl _

/-- What is released stays released. -/
theorem released_act (s : Ownership) (m : Move) : s.released ⊆ (s.act m).released := by
  cases m with
  | release => exact List.subset_cons_self _ _
  | offer | decide | close | revoke | closeMatching | closeAll | return_ | clear => exact List.Subset.refl _

/-- A `closeAll` under way after a move was under way before it, less what the move closed, or the move is its first section. -/
theorem closingAll_act (hen : system.enabled s m) {closing : List SessionRef} (h : Call.closingAll closing ∈ (s.act m).calls) :
    (∃ before, Call.closingAll before ∈ s.calls ∧ ∀ x ∈ before, x ∈ closing ∨ x ∈ (s.act m).closed) ∨
      m = .closeAll ∧ closing = s.set.sessions := by
  have hsame : Call.closingAll closing ∈ s.calls →
      ∃ before, Call.closingAll before ∈ s.calls ∧ ∀ x ∈ before, x ∈ closing ∨ x ∈ (s.act m).closed :=
    fun hmem => ⟨closing, hmem, fun _ => .inl⟩
  cases m with
  | release => exact .inl (hsame h)
  | return_ | clear => exact .inl (hsame (List.mem_of_mem_erase h))
  | offer | decide | revoke | closeMatching =>
    refine .inl (hsame ?_)
    obtain h | h := List.mem_cons.mp h
    · cases h
    · first | exact h | exact List.mem_of_mem_erase h
  | closeAll =>
    obtain h | h := List.mem_cons.mp h
    · exact .inr ⟨rfl, Call.closingAll.inj h⟩
    · exact .inl (hsame h)
  | close call sess =>
    obtain h | h := List.mem_cons.mp h
    · cases call with
      | closingAll before =>
        refine .inl ⟨before, hen.1, fun x hx => ?_⟩
        rw [Call.closingAll.inj h]
        by_cases hne : x = sess
        · exact .inr (hne ▸ List.mem_cons_self)
        · exact .inl ((List.mem_erase_of_ne hne).mpr hx)
      | adopt | adopting | takingOut => cases h
    · exact .inl (hsame (List.mem_of_mem_erase h))

/-- A final sweep has, or had, every session. -/
theorem sweep_act (h : s.Owned) (hen : system.enabled s m) {closing : List SessionRef}
    (hmem : Call.closingAll closing ∈ (s.act m).calls) :
    (s.act m).set.shut = true ∧ ∀ x ∈ (s.act m).set.sessions, x ∈ closing ∨ x ∈ (s.act m).closed := by
  obtain ⟨before, hbefore, hless⟩ | ⟨rfl, rfl⟩ := closingAll_act hen hmem
  · obtain ⟨hshut, hheld⟩ := h.sweep before hbefore
    obtain ⟨hshut', hlive⟩ := @shut_act s m hshut
    refine ⟨hshut', fun x hx => ?_⟩
    obtain hx | hx := hheld x ((hlive.map _).subset hx)
    · exact hless x hx
    · exact .inr (closed_act s m hx)
  · exact ⟨rfl, fun _ => .inl⟩

/-- When the sweep is over nothing is live. -/
theorem over_act (h : s.Owned) (hen : system.enabled s m) (hover : (s.act m).finished = true) :
    (s.act m).set.shut = true ∧ (s.act m).set.live = [] := by
  by_cases hm : m = .clear
  · subst hm
    exact ⟨(h.sweep [] hen).1, rfl⟩
  · have hbefore : s.finished = true := by
      cases m with
      | clear => exact absurd rfl hm
      | offer | decide | release | revoke | closeMatching | closeAll | close | return_ => exact hover
    obtain ⟨hshut, hlive⟩ := h.over_ hbefore
    obtain ⟨hshut', hsub⟩ := @shut_act s m hshut
    exact ⟨hshut', List.sublist_nil.mp (hlive ▸ hsub)⟩

/-- The moves keep what holds of a set. -/
theorem owned_apply (h : s.Owned) (hen : system.enabled s m) : (system.apply s m).Owned where
  paths := paths_act h
  once := by
    obtain ⟨sess, hnew, hplay, -⟩ | ⟨hplay, -⟩ := inPlay_act hen
    · refine (congrArg List.Nodup hplay).mpr (List.nodup_cons.mpr ⟨fun hmem => hnew (h.known sess hmem), h.once⟩)
    · obtain ⟨l, hperm, hsub⟩ := hplay
      exact hperm.nodup_iff.mp (h.once.sublist hsub)
  known := by
    intro x hx
    obtain ⟨sess, -, hplay, hoffered⟩ | ⟨hplay, hoffered⟩ := inPlay_act hen
    · have hx : x ∈ sess :: s.inPlay := hplay ▸ hx
      refine (congrArg (x ∈ ·) hoffered).mpr (List.mem_cons.mpr ?_)
      exact (List.mem_cons.mp hx).imp_right (h.known x)
    · exact (congrArg (x ∈ ·) hoffered).mpr (h.known x (hplay.subset hx))
  placed := by
    intro x hx
    by_cases hin : x ∈ (s.act m).inPlay
    · exact .inl hin
    · have hold : x ∈ s.offered := by
        obtain ⟨sess, -, hplay, hoffered⟩ | ⟨-, hoffered⟩ := inPlay_act hen
        · have hx : x ∈ sess :: s.offered := hoffered ▸ hx
          refine (List.mem_cons.mp hx).resolve_left fun hsess => hin ?_
          rw [hplay, hsess]
          exact List.mem_cons_self
        · exact hoffered ▸ hx
      obtain hplay | howed | hclosed | hreleased := h.placed x hold
      · obtain ⟨path, rfl⟩ | howed | hclosed := leaves_act h hen hplay hin
        · exact .inr (.inr (.inr List.mem_cons_self))
        · exact .inr (.inl howed)
        · exact .inr (.inr (.inl hclosed))
      · exact .inr ((owed_act hen howed).imp_right .inl)
      · exact .inr (.inr (.inl (closed_act s m hclosed)))
      · exact .inr (.inr (.inr (released_act s m hreleased)))
  told := by
    intro x hx
    obtain hx | hx := List.mem_append.mp hx
    · cases m with
      | release => cases hx
      | offer | decide | revoke | closeMatching | closeAll | close | return_ | clear =>
        obtain ⟨hplay, hout⟩ := List.mem_filter.mp hx
        refine (leaves_act h hen hplay (of_decide_eq_true hout)).resolve_left ?_
        rintro ⟨path, hm⟩
        cases hm
    · obtain howed | hclosed := h.told x hx
      · exact owed_act hen howed
      · exact .inr (closed_act s m hclosed)
  sweep _ hmem := sweep_act h hen hmem
  over_ hover := over_act h hen hover

/-- Every run keeps the ownership. -/
theorem owned_run (hrun : system.Run {} s) : s.Owned := by
  refine hrun.invariant ⟨List.nodup_nil, List.nodup_nil, ?_, ?_, ?_, ?_, ?_⟩ fun _ _ => owned_apply
  · intro x hx
    cases hx
  · intro x hx
    cases hx
  · intro x hx
    cases hx
  · intro closing hmem
    cases hmem
  · intro hover
    cases hover

/-- A call comes to wait for a decision only with a session that is new. -/
theorem offers_act (hen : system.enabled s m) (hx : x ∈ (s.act m).calls.flatMap Call.offers) :
    x ∈ s.calls.flatMap Call.offers ∨ x ∉ s.offered := by
  cases m with
  | offer path sess preferred remote =>
    obtain hx | hx := List.mem_append.mp hx
    · obtain rfl := List.mem_singleton.mp hx
      exact .inr hen
    · exact .inl hx
  | release | revoke | closeMatching | closeAll => exact .inl hx
  | decide => exact .inl ((offers_erase hen).subset hx)
  | close call sess =>
    simp only [act, List.flatMap_cons, offers_close] at hx
    exact .inl ((flatMap_erase Call.offers hen.1).mem_iff.mpr hx)
  | return_ => exact .inl ((offers_erase hen.1).subset hx)
  | clear => exact .inl ((offers_erase hen).subset hx)

/-- What was offered stays offered. -/
theorem offered_act (hen : system.enabled s m) : s.offered ⊆ (s.act m).offered := by
  obtain ⟨sess, -, -, hoffered⟩ | ⟨-, hoffered⟩ := inPlay_act hen <;> rw [hoffered]
  · exact List.subset_cons_self _ _
  · exact List.Subset.refl _

/-- A session that has been decided on stays so. -/
theorem decided_run {s' : Ownership} (hrun : system.Run s s') (hoffered : x ∈ s.offered) (hdecided : x ∉ s.calls.flatMap Call.offers) :
    x ∈ s'.offered ∧ x ∉ s'.calls.flatMap Call.offers :=
  hrun.invariant (P := fun t => x ∈ t.offered ∧ x ∉ t.calls.flatMap Call.offers) ⟨hoffered, hdecided⟩ fun _ _ ht hen =>
    ⟨offered_act hen ht.1, fun hmem => (offers_act hen hmem).elim ht.2 fun hnew => hnew ht.1⟩

/-- A session that has been offered and is not in play never comes back. -/
theorem out_of_play {s' : Ownership} (hrun : system.Run s s') (hoffered : x ∈ s.offered) (hout : x ∉ s.inPlay) : x ∉ s'.inPlay := by
  refine (hrun.invariant (P := fun t => x ∈ t.offered ∧ x ∉ t.inPlay) ⟨hoffered, hout⟩ fun t m ht hen => ?_).2
  refine ⟨offered_act hen ht.1, fun hmem => ?_⟩
  obtain ⟨sess, hnew, hplay, -⟩ | ⟨hplay, -⟩ := inPlay_act hen
  · have hmem : x ∈ sess :: t.inPlay := hplay ▸ hmem
    obtain rfl | hmem := List.mem_cons.mp hmem
    · exact hnew ht.1
    · exact ht.2 hmem
  · exact ht.2 (hplay.subset hmem)

end OwnAux

open OwnAux

/-- For every interleaving of the calls, with each session offered once: a path has at most one session; a session that was refused, or
that left the set by anything but its own release, has been closed or will be by a call under way; a session that left the set never
enters it again; a release takes no other session's entry away; and after a `closeAll` the set is empty, and once every `adoptFor`,
`revoke` and `closeMatching` has returned every session ever offered has been closed or released. -/
theorem sessions_owned {s : Ownership} (hrun : system.Run {} s) :
    (s.set.live.map Prod.fst).Nodup ∧
      (∀ x ∈ s.ousted, x ∈ s.closed ∨ ∃ call ∈ s.calls, x ∈ call.closing) ∧
      (∀ t u x, system.Run s t → system.Run t u → x ∈ s.set.sessions → x ∉ t.set.sessions → x ∉ u.set.sessions) ∧
      (∀ path sess entry, entry ∈ s.set.live → entry.2.session ≠ sess → entry ∈ (s.set.release path sess).live) ∧
      (s.finished = true → s.set.live = []) ∧
      (s.finished = true → s.Adopted → s.TakenOut → ∀ x ∈ s.offered, x ∈ s.closed ∨ x ∈ s.released) := by
  have h := owned_run hrun
  have howes : ∀ x ∈ s.owed, ∃ call ∈ s.calls, x ∈ call.owes := fun x => List.mem_flatMap.mp
  refine ⟨h.paths, fun x hx => ?_, fun t u x hst htu hheld hleft hback => ?_, fun path sess entry hentry hne => ?_,
    fun hover => (h.over_ hover).2, fun hover hadopted htaken x hx => ?_⟩
  · obtain howed | hclosed := h.told x hx
    · obtain ⟨call, hcall, howed⟩ := howes x howed
      refine .inr ⟨call, hcall, ?_⟩
      cases call with
      | adopting | takingOut => exact howed
      | adopt | closingAll => cases howed
    · exact .inl hclosed
  · -- once held, a session is decided on, so to leave the set is to leave play
    have hdecided : x ∉ s.calls.flatMap Call.offers := fun hmem => List.disjoint_of_nodup_append h.once hmem hheld
    obtain ⟨hoffered, hdecided⟩ := decided_run hst (h.known x (List.mem_append_right _ hheld)) hdecided
    refine out_of_play htu hoffered (fun hmem => ?_) (List.mem_append_right _ hback)
    exact (List.mem_append.mp hmem).elim hdecided hleft
  · exact mem_release_of_ne h.paths hentry hne
  · obtain hplay | howed | hclosed | hreleased := h.placed x hx
    · obtain hoffers | hheld := List.mem_append.mp hplay
      · obtain ⟨call, hcall, hmem⟩ := List.mem_flatMap.mp hoffers
        rw [(hadopted call hcall).1] at hmem
        cases hmem
      · rw [SessionSet.sessions, (h.over_ hover).2] at hheld
        cases hheld
    · obtain ⟨call, hcall, howed⟩ := howes x howed
      cases call with
      | adopting closing => exact absurd rfl ((hadopted _ hcall).2 closing)
      | takingOut closing => exact absurd rfl (htaken _ hcall closing)
      | adopt | closingAll => cases howed
    · exact .inl hclosed
    · exact .inr hreleased

/-- A session adopted, replaced by a second one and released late; then the node goes, and the second session is swept. -/
def replacedThenSwept : List Move :=
  [.offer "a/b/0@0" 0 false {}, .decide "a/b/0@0" 0 false {}, .return_ (.adopting []),
    .offer "a/b/0@0" 1 false {}, .decide "a/b/0@0" 1 false {}, .release "a/b/0@0" 0, .close (.adopting [0]) 0, .return_ (.adopting []),
    .closeAll, .close (.closingAll [1]) 1, .clear]

theorem sessions_owned_swept : ∃ s, system.Run {} s ∧ (s.finished = true ∧ s.calls = [] ∧ s.offered = [1, 0] ∧ s.ousted = [1, 0]) ∧
    s.set.live = [] ∧ ∀ x ∈ s.offered, x ∈ s.closed ∨ x ∈ s.released := by
  obtain ⟨s, hrun, hs⟩ : ∃ s, system.Run {} s ∧ (s.finished = true ∧ s.calls = [] ∧ s.offered = [1, 0] ∧ s.ousted = [1, 0]) :=
    Moves.System.exists_run replacedThenSwept (by decide)
  obtain ⟨-, -, -, -, hempty, hall⟩ := sessions_owned hrun
  refine ⟨s, hrun, hs, hempty hs.1, hall hs.1 ?_ ?_⟩
  · intro call hcall
    rw [hs.2.1] at hcall
    cases hcall
  · intro call hcall
    rw [hs.2.1] at hcall
    cases hcall

/-- A `revoke` that has taken a session out and not closed it yet, overtaken by a whole `closeAll`. -/
def overtakenRevoke : List Move :=
  [.offer "a/b/0@0" 0 false ⟨"a", "b", "0"⟩, .decide "a/b/0@0" 0 false ⟨"a", "b", "0"⟩, .return_ (.adopting []),
    .revoke (fun _ => false), .closeAll, .clear]

/-- A `closeAll` and every `adoptFor` have returned, and a session that was offered is neither closed nor released. -/
theorem revoked_not_closed : ∃ s, system.Run {} s ∧ s.finished = true ∧ s.Adopted ∧
    0 ∈ s.offered ∧ 0 ∉ s.closed ∧ 0 ∉ s.released := by
  obtain ⟨s, hrun, hover, hcalls, hs⟩ : ∃ s, system.Run {} s ∧ (s.finished = true ∧ s.calls = [.takingOut [0]] ∧
      0 ∈ s.offered ∧ 0 ∉ s.closed ∧ 0 ∉ s.released) := Moves.System.exists_run overtakenRevoke (by decide)
  refine ⟨s, hrun, hover, fun call hcall => ?_, hs⟩
  rw [hcalls] at hcall
  obtain rfl := List.mem_singleton.mp hcall
  refine ⟨rfl, fun closing heq => ?_⟩
  cases heq

end Ownership
end RanetLite.Client
