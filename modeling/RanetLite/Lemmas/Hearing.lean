import RanetLite.Lemmas.Building

/-!
# Hearing a packet is a run of the node

Every TLV of a packet is a run of the node that shows at most the Update it carried and the replies it asked for. What a packet shows
comes from what it says: `FromPacket`.
-/

namespace RanetLite.Babel

open Netip BatchAux SimAux BuildAux RouteTable.SelectAux WireAux

/-- What a packet of a neighbor that says `items` can show: its own Updates, replies to the neighbor, and a raise. -/
def FromPacket (n : NeighborRef) (items : List Item) : Node.Effect → Prop
  | .heard m key adv hold => m = n ∧ (adv.metric ≠ metricInfinity → ∃ u, Item.update (some adv.routerID) u ∈ items ∧
      u.ignore = false ∧ updateKey u = some key ∧ u.seqno = adv.seqno ∧ u.metric = adv.metric ∧
      hold = deadTimeout (centis u.interval))
  | .told m _ _ _ => m = n
  | .raised => True
  | .selected => True
  | .collected _ => False
  | .changed => False

namespace HearAux

/-- A packet that says more can show more. -/
theorem fromPacket_mono {n : NeighborRef} {items items' : List Item} (h : items ⊆ items') (e : Node.Effect)
    (he : FromPacket n items e) : FromPacket n items' e := by
  cases e with
  | heard m key adv hold =>
    refine ⟨he.1, fun hm => ?_⟩
    obtain ⟨u, hu, hrest⟩ := he.2 hm
    exact ⟨u, h hu, hrest⟩
  | told | raised | selected | collected | changed => exact he

/-- The source prefix of a decoded request. -/
theorem requestSubTLVs_spec {ae : UInt8} {subs : List SubTLV} : ∀ {source out : Prefix},
    requestSubTLVs ae subs source = some out → source = .none ∨ source.isValid = true ∧ source.masked = source ∧ 0 < source.bits →
    out = .none ∨ out.isValid = true ∧ out.masked = out ∧ 0 < out.bits := by
  induction subs with
  | nil =>
    intro source out h hsource
    rwa [← Option.some.inj h]
  | cons sub rest ih =>
    intro source out h hsource
    rw [requestSubTLVs] at h
    split_ifs at h
    · exact ih h hsource
    · cases hd : decodeSourcePrefix ae sub.body with
      | none => rw [hd] at h; exact absurd h (by simp)
      | some decoded =>
        rw [hd] at h
        exact ih h (.inr (decodeSourcePrefix_spec hd))

/-- A decoded request asks for everything, or names a canonical key. -/
theorem decodeRequestPrefix_spec {ae : UInt8} {plen : Nat} {raw : List UInt8} {dest source : Prefix}
    (h : decodeRequestPrefix ae plen raw = some (dest, source)) :
    ae = aeWildcard ∧ dest = .none ∨ ae ≠ aeWildcard ∧ (⟨source, dest⟩ : RouteKey).Canonical := by
  unfold decodeRequestPrefix at h
  by_cases hw : ae = aeWildcard
  · rw [if_pos hw] at h
    split_ifs at h
    obtain ⟨-, -, heq⟩ := Option.map_eq_some_iff.mp h
    exact .inl ⟨hw, (Prod.mk.inj heq).1.symm⟩
  · rw [if_neg hw] at h
    dsimp only at h
    generalize (if isIPv4AE ae = true then 32 else 128) = bits at h
    cases hsub : decodeRequestSubTLVs ae (raw.drop (prefixByteLen plen)) with
    | none =>
      rw [hsub] at h
      split_ifs at h
    | some source' =>
      rw [hsub] at h
      dsimp only at h
      split_ifs at h with _ _ hvalid hfamily
      obtain ⟨rfl, rfl⟩ := Prod.mk.inj (Option.some.inj h)
      have hspec : source' = .none ∨ source'.isValid = true ∧ source'.masked = source' ∧ 0 < source'.bits := by
        unfold decodeRequestSubTLVs at hsub
        split at hsub
        · exact absurd hsub (by simp)
        · exact requestSubTLVs_spec hsub (.inl rfl)
      refine .inr ⟨hw, by simpa using hvalid, Prefix.masked_masked _, ?_⟩
      obtain hnone | ⟨hsv, hmask, hbits⟩ := hspec
      · exact .inl hnone
      · refine .inr ⟨hsv, hmask, hbits, ?_⟩
        rw [hsv] at hfamily
        simpa using hfamily

/-- A Route Request for one prefix names a canonical key. -/
theorem decodeRouteRequest_canonical {body : List UInt8} {r : RouteRequest} (h : decodeRouteRequest body = some r)
    (hw : r.ae ≠ aeWildcard) : (⟨r.sourcePrefix, r.dest⟩ : RouteKey).Canonical := by
  unfold decodeRouteRequest at h
  split_ifs at h
  obtain ⟨⟨dest, source⟩, hd, rfl⟩ := Option.map_eq_some_iff.mp h
  obtain ⟨hwild, -⟩ | ⟨-, hkey⟩ := decodeRequestPrefix_spec hd
  · exact absurd hwild hw
  · exact hkey

/-- A Seqno Request names a canonical key. -/
theorem decodeSeqnoRequest_canonical {body : List UInt8} {r : SeqnoRequest} (h : decodeSeqnoRequest body = some r) :
    (⟨r.sourcePrefix, r.dest⟩ : RouteKey).Canonical := by
  unfold decodeSeqnoRequest at h
  split_ifs at h
  split at h
  · exact absurd h (by simp)
  · next dest source hd =>
    split_ifs at h with hv
    rw [← Option.some.inj h]
    obtain ⟨-, rfl⟩ | ⟨-, hkey⟩ := decodeRequestPrefix_spec hd
    · exact absurd rfl hv
    · exact hkey

/-- What an event that names a key was decoded from. -/
def Decoded (p : Parser) (t : RawTLV) : Event → Prop
  | .update u _ _ => ∃ d, p.prefixDec.decode t.body = .ok (u, d)
  | .routeRequest r => decodeRouteRequest t.body = some r
  | .seqnoRequest r => decodeSeqnoRequest t.body = some r
  | _ => True

/-- Every event was decoded from its TLV. -/
theorem read_decoded (p : Parser) (t : RawTLV) : Decoded p t (p.read t).2 := by
  unfold Parser.read
  split
  · cases decodeHello t.body <;> trivial
  split
  · cases decodeIHU t.body <;> trivial
  split
  · cases decodeNextHop t.body <;> trivial
  split
  · cases decodeRouterID t.body <;> trivial
  split
  · unfold Parser.readUpdate
    cases h : p.prefixDec.decode t.body with
    | error => trivial
    | ok out => exact ⟨out.2, h⟩
  split
  · cases decodeAckReq t.body <;> trivial
  split
  · cases h : decodeRouteRequest t.body with
    | none => trivial
    | some r => exact h
  split
  · cases h : decodeSeqnoRequest t.body with
    | none => trivial
    | some r => exact h
  · trivial

/-- The item of an Update. -/
theorem item_update {p : Parser} {t : RawTLV} {u : Update} {id : Option RouterID} {nh : Bool}
    (h : (p.read t).2 = .update u id nh) : p.item t = some (.update id u) := by
  rw [Parser.item, h]

/-- What hearing of the link keeps: the peer, its address and what it was told. -/
def Keeps (st st' : NeighborState) : Prop := st'.peer = st.peer ∧ st'.addr = st.addr ∧ st'.advertised = st.advertised

/-- What Hellos, heard or missed, keep besides: the round trip. -/
structure HelloKeeps (st st' : NeighborState) : Prop where
  keeps : Keeps st st'
  rtt : st'.measuredRTT = st.measuredRTT ∧ st'.haveRTT = st.haveRTT

/-- What Hellos keep, one after another. -/
theorem HelloKeeps.trans {st st1 st2 : NeighborState} (h : HelloKeeps st st1) (h' : HelloKeeps st1 st2) : HelloKeeps st st2 where
  keeps := ⟨h'.keeps.1.trans h.keeps.1, h'.keeps.2.1.trans h.keeps.2.1, h'.keeps.2.2.trans h.keeps.2.2⟩
  rtt := ⟨h'.rtt.1.trans h.rtt.1, h'.rtt.2.trans h.rtt.2⟩

/-- The promise of a Hello. -/
theorem promised_keeps (st : NeighborState) (h : Hello) (now : Time) : HelloKeeps st (st.promised h now) := by
  unfold NeighborState.promised
  split_ifs <;> exact ⟨⟨rfl, rfl, rfl⟩, rfl, rfl⟩

/-- The history a Hello is recorded in. -/
theorem recordHello_keeps (st : NeighborState) (h : Hello) : HelloKeeps st (st.recordHello h) := by
  unfold NeighborState.recordHello
  split_ifs
  · exact ⟨⟨rfl, rfl, rfl⟩, rfl, rfl⟩
  · split <;> exact ⟨⟨rfl, rfl, rfl⟩, rfl, rfl⟩

/-- A Hello that was heard. -/
theorem hearHello_keeps {st st' : NeighborState} {h : Hello} {now : Time} (heq : st.hearHello h now = some st') : HelloKeeps st st' := by
  have hkeeps := (promised_keeps { st with alive := true } h now).trans (recordHello_keeps _ h)
  unfold NeighborState.hearHello at heq
  dsimp only at heq
  split_ifs at heq <;> (rw [← Option.some.inj heq]; exact ⟨hkeeps.keeps, hkeeps.rtt⟩)

/-- An IHU that was heard. -/
theorem hearIHU_keeps {st st' : NeighborState} {ihu : IHU} {ts : Option UInt32} {now : Time}
    (heq : st.hearIHU ihu ts now = some st') : Keeps st st' := by
  unfold NeighborState.hearIHU at heq
  split_ifs at heq
  cases hr : NeighborState.roundTrip ihu ts now with
  | none =>
    simp only [hr, Option.some.injEq] at heq
    rw [← heq]
    exact ⟨rfl, rfl, rfl⟩
  | some rtt =>
    simp only [hr, Option.some.injEq] at heq
    rw [← heq]
    exact ⟨rfl, rfl, rfl⟩

variable {now : Time} {via : Via} {P : Node.Effect → Prop} {s s' : Speaker} {n : NeighborRef} {items : List Item} {dest : Addr}

/-- The exact registered neighbor, in the speaker's fields. -/
theorem registered_iff : s.node.Registered n ↔ s.neighbors.lookup (s.heap n).peer.id = some n := Iff.rfl

/-- A frame keeps the registrations. -/
theorem registered_frame (h : Frame s s') (hreg : s.node.Registered n) : s'.node.Registered n := by
  rw [registered_iff] at hreg ⊢
  rw [h.neighbors, h.peer]
  exact hreg

/-- An Update that is ignored stays so over its sub-TLVs. -/
theorem ignore_updateSubTLVs (ae : UInt8) (subs : List SubTLV) : ∀ (seen : Nat) {u : Update}, u.ignore = true →
    (updateSubTLVs ae subs seen u).ignore = true := by
  induction subs with
  | nil => exact fun seen u h => h
  | cons sub rest ih =>
    intro seen u h
    unfold updateSubTLVs
    split_ifs
    · exact ih seen h
    · exact ih seen rfl
    · exact ih _ rfl
    · split
      · exact ih _ h
      · exact ih _ rfl

/-- A finite Update that is not ignored promises another. -/
theorem interval_of_decode {d d' : PrefixDecoder} {body : List UInt8} {u : Update} (h : d.decode body = .ok (u, d'))
    (hheard : u.ignore = false) (hfinite : u.metric ≠ metricInfinity) : u.interval ≠ 0 := by
  unfold PrefixDecoder.decode at h
  split_ifs at h
  dsimp only at h
  split at h
  · cases h
  split at h
  · cases h
  split at h
  · cases h
  split at h
  · obtain ⟨rfl, -⟩ := Prod.mk.inj (Except.ok.inj h)
    cases hheard
  · next subs _ =>
    obtain ⟨hu, -⟩ := Prod.mk.inj (Except.ok.inj h)
    obtain ⟨sp, ig, heq, -⟩ := WireAux.updateSubTLVs_spec (body.getD 0 0) subs 0 _
    rintro hzero
    rw [← hu] at hheard hfinite hzero
    rw [heq] at hfinite hzero
    dsimp only at hfinite hzero
    refine absurd (ignore_updateSubTLVs _ _ _ ?_) (by rw [hheard]; exact Bool.false_ne_true)
    simp [hzero, hfinite]

/-- An interval that is promised has a hold. -/
theorem deadTimeout_pos {interval : UInt16} (h : interval ≠ 0) : 0 < deadTimeout (centis interval) := by
  have hpos : 0 < interval.toNat := Nat.pos_of_ne_zero fun hz => h (UInt16.toNat.inj hz)
  show 0 < (interval.toNat : Int) * (10 * 1000000) * 7 / 2
  omega

/-- An Update for a key this node may learn. -/
theorem builds_hearKey (hreg : s.node.Registered n) {key : RouteKey} (hkey : key.Canonical) {u : Update}
    (hnamed : updateKey u = some key) (hheard : u.ignore = false) (hinterval : u.metric ≠ metricInfinity → u.interval ≠ 0)
    {id : Option RouterID} (hitem : .update id u ∈ items) :
    Builds now via (FromPacket n items) s (s.hearKey n key u id now) [] := by
  unfold Speaker.hearKey
  split_ifs with hlocal
  · exact builds_quiet (.refl s)
  · cases hadv : s.advertisementOf n key u id with
    | none => exact builds_quiet (.refl s)
    | some adv =>
      have hfinite : adv.metric ≠ metricInfinity → adv.routerID ≠ s.cfg.routerID ∧ id = some adv.routerID ∧
          u.seqno = adv.seqno ∧ u.metric = adv.metric := by
        intro hm
        unfold Speaker.advertisementOf at hadv
        cases id with
        | none =>
          dsimp only at hadv
          split_ifs at hadv with hinf
          cases hr : s.routes.route n key with
          | none =>
            rw [hr] at hadv
            rw [← Option.some.inj hadv] at hm
            exact absurd hm hinf
          | some route =>
            rw [hr] at hadv
            rw [← Option.some.inj hadv] at hm
            exact absurd hm hinf
        | some id =>
          dsimp only at hadv
          split_ifs at hadv with hown
          rw [← Option.some.inj hadv]
          exact ⟨hown, rfl, rfl, rfl⟩
      have hwrite : Speaker.Write now s { s with routes := s.routes.update s.heap n key adv (deadTimeout (centis u.interval)) now } :=
        .table (.update n key adv (deadTimeout (centis u.interval))) fun hm =>
          deadTimeout_pos (hinterval (by rw [(hfinite hm).2.2.2]; exact hm))
      obtain ⟨hsame, -⟩ | hstep := step_update hreg hkey hlocal (fun hm => (hfinite hm).1) (deadTimeout (centis u.interval)) now
      · exact builds_quiet ⟨frame_routes s _, hsame, rfl, .single hwrite⟩
      · refine ⟨_, [], frame_routes s _, .single hwrite, .single hstep, ?_, by simp [Node.Effect.isRaised], rfl,
          ⟨by simp, by simp, by simp⟩, by simp [planned, Node.Effect.isTold]⟩
        intro e he
        rw [Option.toList_some, List.mem_singleton] at he
        subst he
        refine ⟨rfl, fun hm => ⟨u, ?_, hheard, hnamed, (hfinite hm).2.2.1, (hfinite hm).2.2.2, rfl⟩⟩
        rw [← (hfinite hm).2.1]
        exact hitem

/-- An Update is ignored, withdraws everything, or is for one key. -/
theorem builds_hearUpdate (hreg : s.node.Registered n) {u : Update} (hkey : ∀ key, updateKey u = some key → key.Canonical)
    (hinterval : u.ignore = false → u.metric ≠ metricInfinity → u.interval ≠ 0) {id : Option RouterID} (hitem : .update id u ∈ items) (haveNextHop : Bool) :
    Builds now via (FromPacket n items) s (s.hearUpdate n u id haveNextHop now) [] := by
  unfold Speaker.hearUpdate
  split_ifs with hignore
  · exact builds_quiet (.refl s)
  · exact builds_reselects (.retractNeighbor n) trivial (run_retractNeighbor s n now) trivial
  · exact builds_quiet (.refl s)
  · cases hnamed : updateKey u with
    | none => exact builds_quiet (.refl s)
    | some key =>
      have hheard := Bool.eq_false_iff.mpr hignore
      exact builds_hearKey hreg (hkey key hnamed) hnamed hheard (hinterval hheard) hitem

/-- The reply of one prefix. -/
theorem builds_replyFor (hs : s.node.Sound) (hP : ∀ key adv spent, P (.told n key adv spent)) {key : RouteKey}
    (hkey : key.Canonical) (hdest : (s.heap n).destination = dest) :
    Builds now (fun _ => (dest, .request)) P s (s.replyFor n key now).1 (s.replyFor n key now).2 := by
  obtain ⟨s', gs, heq, htells⟩ := @advertiseTo_spec now s n hs key true (fun _ => hkey) 0
  have hdest' : (s'.heap n).destination = dest := by
    rw [← hdest, NeighborState.destination, NeighborState.destination, htells.frame.addr]
  have hbuilds := @builds_tells now (fun _ => (dest, .request)) P _ _ _ _ htells hP (s'.heap n).destination .request
    (by rw [hdest'])
  rw [Speaker.replyFor, heq]
  dsimp only
  split_ifs at hbuilds ⊢ <;> exact hbuilds

/-- The reply to a Route Request. -/
theorem builds_routeReply (hs : s.node.Sound) (hP : ∀ key adv spent, P (.told n key adv spent)) {request : RouteRequest}
    (hkey : request.ae ≠ aeWildcard → (⟨request.sourcePrefix, request.dest⟩ : RouteKey).Canonical)
    (hdest : (s.heap n).destination = dest) :
    Builds now (fun _ => (dest, .request)) P s (s.routeReply n request now).1 (s.routeReply n request now).2 := by
  unfold Speaker.routeReply
  by_cases hw : request.ae = aeWildcard
  · rw [if_pos hw]
    split
    · exact builds_quiet (.refl s)
    · have hquiet : Quiet now s (s.modify n fun st => { st with lastFullDump := now }) := quiet_modify rfl rfl rfl (.rest rfl)
      dsimp only
      generalize (s.modify n fun st => { st with lastFullDump := now }) = s1 at hquiet ⊢
      obtain ⟨s', gs, heq, htells⟩ := @dumpFor_spec now s1 n (by rw [hquiet.node]; exact hs) s1.advertisableKeys
      have hdest' : (s'.heap n).destination = dest := by
        rw [← hdest, NeighborState.destination, NeighborState.destination, htells.frame.addr, hquiet.frame.addr]
      have hbuilds := @builds_tells now (fun _ => (dest, .request)) P _ _ _ _ htells hP (s'.heap n).destination .request
        (by rw [hdest'])
      rw [heq]
      dsimp only
      refine builds_after hquiet ?_
      split_ifs at hbuilds ⊢ <;> exact hbuilds
  · rw [if_neg hw]
    exact builds_replyFor hs hP (hkey hw) hdest

/-- The raise of the origin seqno, and the keys it makes due again. -/
theorem builds_raiseSeqno (hP : P .raised) (s : Speaker) (request : SeqnoRequest) :
    Builds now via P s (s.raiseSeqno request) [] := by
  have hdirty : ∀ (keys : List RouteKey) (s : Speaker), Quiet now s { s with routes := keys.foldl RouteTable.markDirty s.routes } := by
    intro keys
    induction keys with
    | nil => exact fun s => .refl s
    | cons key rest ih =>
      exact fun s => (quiet_routes (.markDirty key) trivial ⟨rfl, rfl, rfl⟩).trans (ih { s with routes := s.routes.markDirty key })
  unfold Speaker.raiseSeqno
  split_ifs with hraise
  · have hflag : s.raisedSeqno = false := by simpa using hraise.2.2
    have hquiet := hdirty s.originate.keys { s with raisedSeqno := true, originSeqno := s.originSeqno + 1 }
    refine ⟨[.raised], [], ⟨rfl, rfl, rfl, rfl, rfl, fun _ => rfl, fun _ => rfl⟩, .head (.rest rfl) hquiet.writes, ?_,
      by simpa using hP, by rw [hflag]; rfl, rfl, ⟨by simp, by simp, by simp⟩, rfl⟩
    have hnode := hquiet.node
    dsimp only at hnode ⊢
    rw [hnode]
    exact .single .raise
  · exact builds_quiet (.refl s)

/-- The reply to a Seqno Request, its raise, or its forwarding. -/
theorem builds_seqnoReply (hs : s.node.Sound) (hP : ∀ key adv spent, P (.told n key adv spent)) (hraised : P .raised)
    {request : SeqnoRequest} (hkey : (⟨request.sourcePrefix, request.dest⟩ : RouteKey).Canonical)
    (hdest : (s.heap n).destination = dest) :
    Builds now (fun _ => (dest, .request)) P s (s.seqnoReply n request now).1 (s.seqnoReply n request now).2 := by
  unfold Speaker.seqnoReply
  dsimp only
  split_ifs
  · have hraise := @builds_raiseSeqno now (fun _ => (dest, .request)) P hraised s request
    refine builds_trans hraise (builds_replyFor (builds_sound hraise hs) hP hkey ?_)
    obtain ⟨_, _, hraise⟩ := hraise
    rw [← hdest, NeighborState.destination, NeighborState.destination, hraise.frame.addr]
  · exact builds_replyFor hs hP hkey hdest
  · exact builds_quiet (.refl s)
  · cases s.forwardTarget ⟨request.sourcePrefix, request.dest⟩ n with
    | none => exact builds_quiet (.refl s)
    | some target => exact builds_seqnoRequestAction s target _ _ _ _ _

/-- An acknowledgment tells nothing. -/
theorem builds_ackReply (s : Speaker) (nonce : UInt16) : Builds now via P s s (s.ackReply n nonce) := by
  unfold Speaker.ackReply
  split_ifs
  · refine builds_send (.refl s) (built_other (t := encodeAck nonce) rfl rfl ⟨?_, ?_⟩) (by simp [Group.told])
    · show tlvAck ∉ _
      decide
    · simp [encodeAck, putUint16, headerLen]
  · exact builds_quiet (.refl s)

/-- A write of the link state a TLV leaves. -/
theorem builds_link (r : Speaker.Receiving) {st : Option NeighborState}
    (h : ∀ st', st = some st' → Keeps (r.speaker.heap n) st' ∧ NeighborState.Write now (r.speaker.heap n) st') :
    (r.link n st).parser = r.parser ∧ (r.link n st).actions = r.actions ∧
      Builds now via P r.speaker (r.link n st).speaker [] := by
  cases st with
  | none => exact ⟨rfl, rfl, builds_quiet (.refl _)⟩
  | some st =>
    obtain ⟨⟨hp, ha, hadv⟩, hw⟩ := h st rfl
    have hquiet : Quiet now r.speaker (r.speaker.modify n fun _ => st) := quiet_modify hp ha hadv hw
    exact ⟨rfl, rfl, builds_quiet hquiet⟩

/-- One TLV: the parser moves, and what it does is a run that adds to the actions. -/
theorem builds_step {r : Speaker.Receiving} (hs : r.speaker.node.Sound) (hreg : r.speaker.node.Registered n)
    (hdest : (r.speaker.heap n).destination = dest) (helloTS : Option UInt32) (t : RawTLV) :
    (r.step n helloTS now t).parser = (r.parser.read t).1 ∧ ∃ more, (r.step n helloTS now t).actions = r.actions ++ more ∧
      Builds now (fun _ => (dest, .request)) (FromPacket n (r.parser.item t).toList) r.speaker
        (r.step n helloTS now t).speaker more := by
  have hdecoded := read_decoded r.parser t
  have hitem := @item_update r.parser t
  unfold Speaker.Receiving.step
  generalize hread : r.parser.read t = out at hdecoded hitem ⊢
  obtain ⟨p, event⟩ := out
  have hback : ∀ {r' : Speaker.Receiving} {more : List SendAction}, r'.parser = p → r'.actions = r.actions ++ more →
      Builds now (fun _ => (dest, .request)) (FromPacket n (r.parser.item t).toList) r.speaker r'.speaker more →
      r'.parser = p ∧ ∃ more, r'.actions = r.actions ++ more ∧
        Builds now (fun _ => (dest, .request)) (FromPacket n (r.parser.item t).toList) r.speaker r'.speaker more :=
    fun hp ha hb => ⟨hp, _, ha, hb⟩
  have hlink := fun st =>
    @builds_link now (fun _ => (dest, .request)) (FromPacket n (r.parser.item t).toList) n { r with parser := p } st
  cases event with
  | hello h =>
    obtain ⟨hp, ha, hb⟩ := hlink _ fun _ heard => ⟨(hearHello_keeps heard).keeps, .hello heard⟩
    exact hback hp (ha.trans (List.append_nil _).symm) hb
  | ihu ihu addr =>
    dsimp only [Speaker.Receiving.act]
    split_ifs
    · obtain ⟨hp, ha, hb⟩ := hlink _ fun _ heard => ⟨hearIHU_keeps heard, .ihu heard⟩
      exact hback hp (ha.trans (List.append_nil _).symm) hb
    · exact hback rfl (List.append_nil _).symm (builds_quiet (.refl _))
  | update u id nh =>
    obtain ⟨d, hd⟩ := hdecoded
    refine hback rfl (List.append_nil _).symm (builds_hearUpdate hreg (fun key hk => (updateKey_spec hd hk).1)
      (interval_of_decode hd) ?_ nh)
    rw [hitem rfl]
    exact List.mem_singleton_self _
  | ackReq nonce => exact hback rfl rfl (builds_ackReply r.speaker nonce)
  | routeRequest request =>
    exact hback rfl rfl (builds_routeReply hs (fun _ _ _ => rfl) (decodeRouteRequest_canonical hdecoded) hdest)
  | seqnoRequest request =>
    exact hback rfl rfl (builds_seqnoReply hs (fun _ _ _ => rfl) trivial (decodeSeqnoRequest_canonical hdecoded) hdest)
  | skip => exact hback rfl (List.append_nil _).symm (builds_quiet (.refl _))

/-- The TLV loop: what it shows comes from what the TLVs say. -/
theorem builds_readTLVs (helloTS : Option UInt32) (tlvs : List RawTLV) : ∀ {r : Speaker.Receiving}, r.speaker.node.Sound →
    r.speaker.node.Registered n → (r.speaker.heap n).destination = dest →
    ∃ more, (tlvs.foldl (Speaker.Receiving.step n helloTS now) r).actions = r.actions ++ more ∧
      Builds now (fun _ => (dest, .request)) (FromPacket n (r.parser.items tlvs)) r.speaker
        (tlvs.foldl (Speaker.Receiving.step n helloTS now) r).speaker more := by
  induction tlvs with
  | nil => exact fun {r} _ _ _ => ⟨[], (List.append_nil _).symm, builds_quiet (.refl _)⟩
  | cons t rest ih =>
    intro r hs hreg hdest
    obtain ⟨hparser, first, hactions, hfirst⟩ := @builds_step now n dest r hs hreg hdest helloTS t
    have hframe : Frame r.speaker (r.step n helloTS now t).speaker := by
      obtain ⟨_, _, h⟩ := hfirst
      exact h.frame
    obtain ⟨later, hactions', hlater⟩ := @ih (r.step n helloTS now t) (builds_sound hfirst hs) (registered_frame hframe hreg) (by
      rw [← hdest, NeighborState.destination, NeighborState.destination, hframe.addr])
    refine ⟨first ++ later, by rw [List.foldl_cons, hactions', hactions, List.append_assoc], ?_⟩
    rw [hparser] at hlater
    rw [Parser.items, List.foldl_cons]
    exact builds_trans (builds_mono (fromPacket_mono (List.subset_append_left _ _)) hfirst)
      (builds_mono (fromPacket_mono (List.subset_append_right _ _)) hlater)

end HearAux

open HearAux

/-- `handlePacketLocked` is a run that shows what the packet says, and actions that reply. -/
theorem builds_handlePacket {s : Speaker} {n : NeighborRef} (hs : s.node.Sound) (hreg : s.node.Registered n) (payload : List UInt8)
    (now : Time) : ∃ raised, Builds now (fun _ => ((s.heap n).destination, .request)) (FromPacket n (packetItems payload))
      { s with raisedSeqno := raised } (s.handlePacket n payload now).1 (s.handlePacket n payload now).2 := by
  unfold Speaker.handlePacket packetItems
  cases decodePacket payload with
  | error => exact ⟨s.raisedSeqno, builds_quiet (.refl s)⟩
  | ok tlvs =>
    refine ⟨false, ?_⟩
    obtain ⟨more, hactions, hread⟩ := @builds_readTLVs now n (s.heap n).destination (Speaker.packetHelloTS tlvs) tlvs
      { speaker := { s with raisedSeqno := false } } hs hreg rfl
    dsimp only
    rw [Speaker.readTLVs]
    generalize tlvs.foldl (Speaker.Receiving.step n (Speaker.packetHelloTS tlvs) now) { speaker := { s with raisedSeqno := false } } = r
      at hactions hread ⊢
    rw [List.nil_append] at hactions
    have hsound := builds_sound hread hs
    have hselect : ∀ s', s' = (if r.linkChanged = true then
        { r.speaker with routes := r.speaker.routes.recomputeNeighbor r.speaker.heap n now } else r.speaker) →
        Builds now (fun _ => ((s.heap n).destination, .request)) (FromPacket n (({} : Parser).items tlvs)) r.speaker s' [] := by
      intro s' hs'
      rw [hs']
      split_ifs
      · exact builds_reselects (.recomputeNeighbor n) trivial (run_recomputeNeighbor r.speaker n now) trivial
      · exact builds_quiet (.refl _)
    generalize (if r.linkChanged = true then
      { r.speaker with routes := r.speaker.routes.recomputeNeighbor r.speaker.heap n now } else r.speaker) = s' at hselect ⊢
    have hs' := hselect s' rfl
    rw [hactions]
    have hall := builds_trans hread (builds_trans hs' (builds_starvedActions (builds_sound hs' hsound)))
    rwa [List.nil_append] at hall

end RanetLite.Babel
