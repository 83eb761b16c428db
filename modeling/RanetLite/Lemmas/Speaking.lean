import RanetLite.Lemmas.Operations

/-!
# What a speaker says, it stands behind

Telling Updates changes neither the selections nor the originated set, and a distance recorded for an advertisement stays no worse than
it while only Updates are told. So an Update built in a round is still true at the end of the round: of the state after the TLV it
replied to, and of the state a pass leaves.
-/

namespace RanetLite.Babel

open Netip PacketAux BatchAux BuildAux EmitAux HearAux OpAux

namespace Node

variable {v v' : Node} {n : NeighborRef} {key : RouteKey} {adv : Advertisement} {now : Time}

/-- The distance recorded for an advertisement is no worse than it. -/
def Backs (v : Node) (key : RouteKey) (adv : Advertisement) : Prop :=
  ∃ d, v.sources ⟨key, adv.routerID⟩ = some d ∧ d.better adv.seqno adv.metric = false

theorem better_self (d : Distance) : d.better d.seqno d.metric = false := by
  simp [Distance.better, seqnoGT]

theorem observed_better (d : Option Distance) (adv : Advertisement) (now : Time) :
    (observed d adv now).better adv.seqno adv.metric = false := by
  unfold observed
  cases d with
  | none => exact better_self ⟨adv.seqno, adv.metric, _⟩
  | some d =>
    dsimp only
    split_ifs with hb
    · exact better_self ⟨adv.seqno, adv.metric, _⟩
    · exact Bool.eq_false_iff.mpr hb

/-- A node says one thing of a prefix, whoever it says it to. -/
theorem Speaks.unique {n' : NeighborRef} {adv' : Advertisement} (h : v.Speaks n key adv) (h' : v.Speaks n' key adv') :
    adv = adv' := by
  cases h with
  | origin hor =>
    cases h' with
    | origin => rfl
    | transit hlocal => exact absurd hor hlocal
  | transit hlocal _ hentry =>
    cases h' with
    | origin hor => exact absurd hor hlocal
    | transit _ _ hentry' =>
      rw [hentry, Option.some.injEq] at hentry'
      rw [hentry']

/-- The parts of a node that decide what it says. -/
def SameVoice (v v' : Node) : Prop :=
  v'.entries = v.entries ∧ v'.originate = v.originate ∧ v'.originSeqno = v.originSeqno ∧ v'.routerID = v.routerID ∧
    v'.noTransit = v.noTransit

theorem Speaks.same (h : SameVoice v v') (hs : v.Speaks n key adv) : v'.Speaks n key adv := by
  obtain ⟨he, ho, hseq, hid, ht⟩ := h
  cases hs with
  | origin hor =>
    rw [← hid, ← hseq]
    exact .origin (by rw [ho]; exact hor)
  | transit hlocal htransit hentry hsel hsplit =>
    exact .transit (by rw [ho]; exact hlocal) (by rw [ht]; exact htransit) (by rw [he]; exact hentry) hsel hsplit

/-- Telling a prefix keeps every advertisement backed that is backed already, and backs what it tells. -/
theorem Step.talking {effect : Option Effect} (h : Step now v effect v') (htold : ∀ e ∈ effect.toList, e.isTold = true) :
    SameVoice v v' ∧
      (∀ n key adv, v.Speaks n key adv → v.Backs key adv → v'.Backs key adv) ∧
      ∀ n key adv spent, effect = some (.told n key adv spent) → adv.metric ≠ metricInfinity →
        v.Speaks n key adv ∧ v'.Backs key adv := by
  cases h with
  | @tell n key adv hspeaks hfinite =>
    refine ⟨⟨rfl, rfl, rfl, rfl, rfl⟩, fun n' key' adv' hspeaks' hbacks => ?_, ?_⟩
    · by_cases hidx : (⟨key', adv'.routerID⟩ : SourceKey) = ⟨key, adv.routerID⟩
      · obtain ⟨rfl, -⟩ := SourceKey.mk.inj hidx
        obtain rfl := hspeaks.unique hspeaks'
        exact ⟨_, Function.update_self _ _ _, observed_better _ _ _⟩
      · obtain ⟨d, hd, hb⟩ := hbacks
        exact ⟨d, (Function.update_of_ne hidx _ _).trans hd, hb⟩
    · rintro n' key' adv' spent heq -
      obtain ⟨rfl, rfl, rfl, -⟩ := Effect.told.inj (Option.some.inj heq)
      exact ⟨hspeaks, _, Function.update_self _ _ _, observed_better _ _ _⟩
  | retract _ hinfinite =>
    refine ⟨⟨rfl, rfl, rfl, rfl, rfl⟩, fun _ _ _ _ h => h, ?_⟩
    rintro n' key' adv' spent heq hfinite
    obtain ⟨-, -, rfl, -⟩ := Effect.told.inj (Option.some.inj heq)
    exact absurd hinfinite hfinite
  | restore => exact ⟨⟨rfl, rfl, rfl, rfl, rfl⟩, fun _ _ _ _ h => h, fun _ _ _ _ heq => absurd heq (by simp)⟩
  | weaken | learn | collect | raise | adopt | disown | register | unregister =>
    exact absurd (htold _ (List.mem_singleton_self _)) (by simp [Effect.isTold])

theorem SameVoice.trans {v'' : Node} (h : SameVoice v v') (h' : SameVoice v' v'') : SameVoice v v'' :=
  ⟨h'.1.trans h.1, h'.2.1.trans h.2.1, h'.2.2.1.trans h.2.2.1, h'.2.2.2.1.trans h.2.2.2.1, h'.2.2.2.2.trans h.2.2.2.2⟩

/-- What a run of telling said, its end says and backs. -/
theorem Run.talking {effects : List Effect} (h : Run now v effects v') (htold : ∀ e ∈ effects, e.isTold = true) : SameVoice v v' ∧
      (∀ n key adv, v.Speaks n key adv → v.Backs key adv → v'.Backs key adv) ∧
      ∀ n key adv spent, .told n key adv spent ∈ effects → adv.metric ≠ metricInfinity →
        v'.Speaks n key adv ∧ v'.Backs key adv := by
  induction h with
  | refl => exact ⟨⟨rfl, rfl, rfl, rfl, rfl⟩, fun _ _ _ _ h => h, fun _ _ _ _ h => absurd h (by simp)⟩
  | @step v v' v'' effect effects hstep hrun ih =>
    rw [List.forall_mem_append] at htold
    obtain ⟨hvoice, hkeeps, htells⟩ := hstep.talking htold.1
    obtain ⟨hvoice', hkeeps', htells'⟩ := ih htold.2
    refine ⟨hvoice.trans hvoice', fun n key adv hs hb => ?_, fun n key adv spent hmem hm => ?_⟩
    · exact hkeeps' n key adv (hs.same hvoice) (hkeeps n key adv hs hb)
    · obtain hmem | hmem := List.mem_append.mp hmem
      · obtain ⟨hs, hb⟩ := htells n key adv spent (Option.mem_toList.mp hmem) hm
        exact ⟨(hs.same hvoice).same hvoice', hkeeps' n key adv (hs.same hvoice) hb⟩
      · exact htells' n key adv spent hmem hm

/-- Without transit, a step that is not the owner's tells of originated keys only. -/
theorem Step.untransited {effect : Option Effect} (h : Step now v effect v') (hshown : ∀ e ∈ effect.toList, e ≠ .changed) :
    (v'.originate = v.originate ∧ v'.noTransit = v.noTransit ∧ v'.routerID = v.routerID) ∧
      ∀ n key adv spent, effect = some (.told n key adv spent) → adv.metric ≠ metricInfinity → v.noTransit = true →
        key ∈ v.originate ∧ adv.routerID = v.routerID ∧ adv.metric = 0 := by
  have hsettled : ∀ {key : RouteKey} {routes : NeighborRef → Option Offer}, Settles now v key routes v' →
      v'.originate = v.originate ∧ v'.noTransit = v.noTransit ∧ v'.routerID = v.routerID := by
    rintro key routes ⟨routes', sel, empty, -, -, -⟩
    cases empty <;> exact ⟨rfl, rfl, rfl⟩
  cases h with
  | weaken _ _ hsettles => exact ⟨hsettled hsettles, fun _ _ _ _ heq => absurd heq (by simp)⟩
  | learn _ _ _ _ _ hsettles => exact ⟨hsettled hsettles, fun _ _ _ _ heq => absurd heq (by simp)⟩
  | tell hspeaks _ =>
    refine ⟨⟨rfl, rfl, rfl⟩, ?_⟩
    rintro n' key' adv' spent heq - hno
    obtain ⟨rfl, rfl, rfl, -⟩ := Effect.told.inj (Option.some.inj heq)
    cases hspeaks with
    | origin hor => exact ⟨hor, rfl, rfl⟩
    | transit _ htransit => exact absurd hno (by simp [htransit])
  | retract _ hinfinite =>
    refine ⟨⟨rfl, rfl, rfl⟩, ?_⟩
    rintro n' key' adv' spent heq hfinite
    obtain ⟨-, -, rfl, -⟩ := Effect.told.inj (Option.some.inj heq)
    exact absurd hinfinite hfinite
  | restore | collect | raise => exact ⟨⟨rfl, rfl, rfl⟩, fun _ _ _ _ heq => absurd heq (by simp)⟩
  | adopt | disown | register | unregister => exact absurd rfl (hshown _ (List.mem_singleton_self _))

theorem Run.untransited {effects : List Effect} (h : Run now v effects v') (hshown : ∀ e ∈ effects, e ≠ .changed)
    (hno : v.noTransit = true) {spent : Bool} (htold : .told n key adv spent ∈ effects) (hm : adv.metric ≠ metricInfinity) :
    key ∈ v.originate ∧ adv.routerID = v.routerID ∧ adv.metric = 0 := by
  induction h with
  | refl => exact absurd htold List.not_mem_nil
  | @step v v' v'' effect effects hstep hrun ih =>
    rw [List.forall_mem_append] at hshown
    obtain ⟨⟨ho, ht, hid⟩, htells⟩ := hstep.untransited hshown.1
    obtain htold | htold := List.mem_append.mp htold
    · exact htells n key adv spent (Option.mem_toList.mp htold) hm hno
    · rw [← ho, ← hid]
      exact ih hshown.2 (by rw [ht]; exact hno) htold

end Node

/-- What a speaker may say of a reachable prefix to a neighbor: its own origination, or the selected route when its next hop is
another neighbor. The source table holds a distance no worse. -/
structure Speaker.Stands (s : Speaker) (n : NeighborRef) (key : RouteKey) (adv : Advertisement) : Prop where
  said : key ∈ s.originate ∧ adv = ⟨s.cfg.routerID, s.originSeqno, 0⟩ ∨
    key ∉ s.originate ∧ s.cfg.noTransit = false ∧ ∃ entry m, s.routes.entries.lookup key = some entry ∧
      entry.selected.neighbor = some m ∧ m ≠ n ∧
      adv = ⟨entry.selected.routerID, entry.selected.seqno, entry.selected.cost⟩
  backed : ∃ e, s.routes.sources.lookup ⟨key, adv.routerID⟩ = some e ∧ e.better adv.seqno adv.metric = false

/-- An Update a speaker stands behind when it goes to a neighbor. -/
def Speaker.Vouches (s : Speaker) (n : NeighborRef) (id : Option RouterID) (u : Update) : Prop :=
  ∃ key adv, id = some adv.routerID ∧ u = sentUpdate key adv (toCentis s.cfg.update) ∧ s.Stands n key adv

/-- What an action says, read as one packet. -/
def SendAction.items (a : SendAction) : List Item := ({} : Parser).items a.tlvs

/-- The state of the TLV loop after the first `k` TLVs of a packet from `src`. -/
def Speaker.hearing (s : Speaker) (n : NeighborRef) (src : Addr) (tlvs : List RawTLV) (now : Time) (k : Nat) : Speaker.Receiving :=
  { s.modify n fun st => { st with addr := src } with raisedSeqno := false }.readTLVs n (packetHelloTS tlvs) now (tlvs.take k)

namespace SpeakAux

variable {now : Time} {via : Via} {s s' : Speaker} {n : NeighborRef} {actions : List SendAction} {a : SendAction}
  {id : Option RouterID} {u : Update}

theorem lookup_of_entries {key : RouteKey} {e : NodeEntry} (h : s.node.entries key = some e) :
    ∃ entry, s.routes.entries.lookup key = some entry ∧ entry.node = e := Option.map_eq_some_iff.mp h

theorem lookup_of_sources {index : SourceKey} {d : Distance} (h : s.node.sources index = some d) :
    ∃ e, s.routes.sources.lookup index = some e ∧ e.distance = d := Option.map_eq_some_iff.mp h

theorem stands_of_speaks {key : RouteKey} {adv : Advertisement} (h : s.node.Speaks n key adv) (hb : s.node.Backs key adv) :
    s.Stands n key adv := by
  obtain ⟨d, hd, hbetter⟩ := hb
  obtain ⟨e, he, rfl⟩ := lookup_of_sources hd
  refine ⟨?_, e, he, hbetter⟩
  cases h with
  | origin hor => exact .inl ⟨hor, rfl⟩
  | transit hlocal htransit hentry hsel hsplit =>
    obtain ⟨entry, hlookup, rfl⟩ := lookup_of_entries hentry
    exact .inr ⟨hlocal, htransit, entry, _, hlookup, hsel, hsplit, rfl⟩

/-- Groups that are not compressed say what they are. -/
theorem items_tlvs {gs : List Group} : ∀ {p : Parser}, (∀ g ∈ gs, g.Ok) → p.items (gs.flatMap Group.tlvs) = gs.flatMap Group.items := by
  induction gs with
  | nil => exact fun _ => rfl
  | cons g rest ih =>
    intro p hok
    have hrest : ∀ g ∈ rest, g.Ok := fun g hg => hok g (List.mem_cons_of_mem _ hg)
    rw [List.flatMap_cons, List.flatMap_cons]
    cases g with
    | update id key seqno metric interval spent =>
      obtain ⟨u, htlvs, htype, -, hdec⟩ := tlvs_update (hok _ List.mem_cons_self) id seqno metric interval spent
      obtain ⟨d, hd⟩ := hdec p.prefixDec
      have hread := read_update (p := { p with routerID := some id }) htype hd rfl
      rw [htlvs, List.cons_append, List.cons_append, List.nil_append, items_routerID, Parser.items, ih hrest, Parser.item, hread]
      rfl
    | hello seqno interval =>
      have hread := read_other p (t := Group.helloTLV seqno interval) (show tlvHello ≠ tlvRouterID by decide)
        (show tlvHello ≠ tlvUpdate by decide)
      rw [Group.tlvs, List.cons_append, Parser.items, List.nil_append, ih hrest, hread.2]
      rfl
    | other t =>
      obtain ⟨htype, -⟩ := hok _ List.mem_cons_self
      have hread := read_other p (t := t) (fun h => htype (by simp [h])) (fun h => htype (by simp [h]))
      rw [Group.tlvs, List.cons_append, Parser.items, List.nil_append, ih hrest, hread.2]
      rfl

/-- An Update of a built action is one its building told. -/
theorem told_of_item {P : Node.Effect → Prop} {effects : List Node.Effect} {plan : List (SendAction × List Group)}
    (h : Building now via P s s' actions effects plan) (ha : a ∈ actions) (hu : .update id u ∈ a.items) :
    ∃ key adv spent, .told a.neighbor key adv spent ∈ effects ∧ id = some adv.routerID ∧
      u = sentUpdate key adv (toCentis s.cfg.update) := by
  rw [← h.actions] at ha
  obtain ⟨p, hp, rfl⟩ := List.mem_map.mp ha
  have hbuilt := h.built.built p hp
  rw [SendAction.items, hbuilt.tlvs, items_tlvs hbuilt.ok] at hu
  obtain ⟨g, hg, hgi⟩ := List.mem_flatMap.mp hu
  cases g with
  | update routerID key seqno metric interval spent =>
    obtain ⟨rfl, rfl⟩ := Item.update.inj (List.mem_singleton.mp hgi)
    have hinterval : interval = toCentis s.cfg.update := h.built.promises p hp _ hg
    refine ⟨key, ⟨routerID, seqno, metric⟩, spent, List.mem_of_mem_filter (p := Node.Effect.isTold) ?_, rfl, by rw [hinterval]; rfl⟩
    rw [← h.told]
    exact List.mem_flatMap.mpr ⟨p, hp, List.mem_filterMap.mpr ⟨_, hg, rfl⟩⟩
  | hello | other => exact absurd hgi (by simp [Group.items])

/-- What a round of telling builds, its end vouches for, and so does the state after its emission. -/
theorem vouches_of_builds (h : Builds now via (fun e => e.isTold = true) s s' actions) {s'' : Speaker} (hrecalls : Recalls now s' s'')
    (ha : a ∈ actions) (hu : .update id u ∈ a.items) (hm : u.metric ≠ metricInfinity) : s''.Vouches a.neighbor id u := by
  obtain ⟨effects, plan, h⟩ := h
  obtain ⟨key, adv, spent, htold, hid, rfl⟩ := told_of_item h ha hu
  obtain ⟨-, -, htells⟩ := h.run.talking h.shows
  obtain ⟨hspeaks, hbacks⟩ := htells a.neighbor key adv spent htold hm
  obtain ⟨hvoice, hkeeps, -⟩ := hrecalls.run.talking (by simp)
  refine ⟨key, adv, hid, by rw [hrecalls.frame.cfg, h.frame.cfg], ?_⟩
  exact stands_of_speaks (hspeaks.same hvoice) (hkeeps a.neighbor key adv hspeaks hbacks)

/-- What shows nothing says nothing. -/
theorem silent_of_builds (h : Builds now via (fun _ => False) s s' actions) (ha : a ∈ actions) : .update id u ∉ a.items := by
  intro hu
  obtain ⟨effects, plan, h⟩ := h
  obtain ⟨key, adv, spent, htold, -⟩ := told_of_item h ha hu
  exact h.shows _ htold

/-- A reply to a request for a seqno is told after the raise it asked for. -/
theorem vouches_seqnoReply (hs : s.node.Sound) {request : SeqnoRequest}
    (hkey : (⟨request.sourcePrefix, request.dest⟩ : RouteKey).Canonical) (ha : a ∈ (s.seqnoReply n request now).2)
    (hu : .update id u ∈ a.items) (hm : u.metric ≠ metricInfinity) : (s.seqnoReply n request now).1.Vouches a.neighbor id u := by
  have hP : ∀ key adv spent, (Node.Effect.told n key adv spent).isTold = true := fun _ _ _ => rfl
  have hraised := builds_sound (@builds_raiseSeqno now (fun _ => (multicastGroup, .request)) (fun _ => True) trivial s request) hs
  unfold Speaker.seqnoReply at ha ⊢
  dsimp only at ha ⊢
  split_ifs at ha ⊢
  · exact vouches_of_builds (builds_replyFor hraised hP hkey rfl) (recalls_refl _) ha hu hm
  · exact vouches_of_builds (builds_replyFor hs hP hkey rfl) (recalls_refl _) ha hu hm
  · exact absurd ha List.not_mem_nil
  · cases htarget : s.forwardTarget ⟨request.sourcePrefix, request.dest⟩ n with
    | none =>
      rw [htarget] at ha
      exact absurd ha List.not_mem_nil
    | some target =>
      rw [htarget] at ha
      have hbuilds := @builds_seqnoRequestAction now (fun _ => (multicastGroup, .request)) (fun _ => False) s target
        (s.heap n).peer.id ⟨request.sourcePrefix, request.dest⟩ request.routerID request.seqno (request.hopCount - 1)
      exact absurd hu (silent_of_builds hbuilds ha)

/-- What one TLV of a packet makes the speaker say, the state after the TLV vouches for. -/
theorem vouches_step {r : Speaker.Receiving} (hs : r.speaker.node.Sound) (helloTS : Option UInt32) (t : RawTLV) :
    ∃ more, (r.step n helloTS now t).actions = r.actions ++ more ∧ ∀ a ∈ more, ∀ id u, .update id u ∈ a.items →
      u.metric ≠ metricInfinity → (r.step n helloTS now t).speaker.Vouches a.neighbor id u := by
  have hnone : ∀ r' : Speaker.Receiving, r'.actions = r.actions → ∃ more, r'.actions = r.actions ++ more ∧ ∀ a ∈ more,
      ∀ id u, .update id u ∈ a.items → u.metric ≠ metricInfinity → r'.speaker.Vouches a.neighbor id u :=
    fun r' h => ⟨[], by rw [h, List.append_nil], by simp⟩
  have hlink : ∀ st : Option NeighborState, (Speaker.Receiving.link { r with parser := (r.parser.read t).1 } n st).actions = r.actions :=
    fun st => by cases st <;> rfl
  have hP : ∀ key adv spent, (Node.Effect.told n key adv spent).isTold = true := fun _ _ _ => rfl
  have hdecoded := read_decoded r.parser t
  unfold Speaker.Receiving.step
  dsimp only
  generalize (r.parser.read t).1 = p at hlink ⊢
  generalize (r.parser.read t).2 = event at hdecoded ⊢
  cases event with
  | hello h => exact hnone _ (hlink _)
  | ihu ihu addr =>
    unfold Speaker.Receiving.act
    dsimp only
    split_ifs
    · exact hnone _ (hlink _)
    · exact hnone _ rfl
  | update u id nextHop => exact hnone _ rfl
  | skip => exact hnone _ rfl
  | ackReq nonce =>
    refine ⟨_, rfl, fun a ha id u hu _ => ?_⟩
    have hbuilds := @builds_ackReply now (fun _ => (multicastGroup, .request)) (fun _ => False) n r.speaker nonce
    exact absurd hu (silent_of_builds hbuilds ha)
  | routeRequest request =>
    refine ⟨_, rfl, fun a ha id u hu hm => ?_⟩
    exact vouches_of_builds (builds_routeReply hs hP (decodeRouteRequest_canonical hdecoded) rfl) (recalls_refl _) ha hu hm
  | seqnoRequest request =>
    exact ⟨_, rfl, fun a ha id u hu hm => vouches_seqnoReply hs (decodeSeqnoRequest_canonical hdecoded) ha hu hm⟩

/-- What the TLVs of a packet make the speaker say, the state after the TLV that asked vouches for. -/
theorem vouches_readTLVs (helloTS : Option UInt32) (tlvs : List RawTLV) : ∀ {r : Speaker.Receiving}, r.speaker.node.Sound →
    r.speaker.node.Registered n → ∀ a ∈ (tlvs.foldl (Speaker.Receiving.step n helloTS now) r).actions, a ∈ r.actions ∨
      ∀ id u, .update id u ∈ a.items → u.metric ≠ metricInfinity → ∃ k < tlvs.length,
        ((tlvs.take (k + 1)).foldl (Speaker.Receiving.step n helloTS now) r).speaker.Vouches a.neighbor id u := by
  induction tlvs with
  | nil => exact fun _ _ a ha => .inl ha
  | cons t rest ih =>
    intro r hs hreg a ha
    obtain ⟨-, _, -, hbuilds⟩ := @builds_step now n _ r hs hreg rfl helloTS t
    obtain ⟨more, hmore, hvouch⟩ := @vouches_step now n r hs helloTS t
    have hreg' : (r.step n helloTS now t).speaker.node.Registered n := by
      obtain ⟨effects, plan, h⟩ := hbuilds
      exact registered_frame h.frame hreg
    obtain ha | hlater := ih (builds_sound hbuilds hs) hreg' a ha
    · rw [hmore, List.mem_append] at ha
      obtain ha | ha := ha
      · exact .inl ha
      · exact .inr fun id u hu hm => ⟨0, Nat.succ_pos _, hvouch a ha id u hu hm⟩
    · refine .inr fun id u hu hm => ?_
      obtain ⟨k, hk, hv⟩ := hlater id u hu hm
      exact ⟨k + 1, Nat.succ_lt_succ hk, hv⟩

end SpeakAux

end RanetLite.Babel
