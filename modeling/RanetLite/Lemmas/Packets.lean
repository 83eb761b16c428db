import RanetLite.Babel.Batch
import RanetLite.Theorems.Wire

/-!
# What a packet of groups says

The speaker writes its TLVs in groups: a prefix's Router-Id and Update, a Hello, or a single other TLV. A packet lists groups with
the Router-Ids it has already set left out (`compress`); a receiver reads the groups back from it (`items_compress`), and nothing of
that depends on where the packet's Hellos are stamped.
-/

namespace RanetLite.Babel

open Bytes Netip WireAux CodecAux

/-- A group of TLVs as the speaker builds them. -/
inductive Group where
  | update (id : RouterID) (key : RouteKey) (seqno metric interval : UInt16) (spent : Bool)
  | hello (seqno interval : UInt16)
  | other (t : RawTLV)

namespace Group

/-- What a built group keeps to: canonical keys, and other TLVs that frame and fit a packet of the size beside its header. The groups
the speaker builds fit the smallest packet. -/
def Ok (g : Group) (packetSize : Nat := 63) : Prop :=
  match g with
  | update _ key _ _ _ _ => key.Canonical
  | hello _ _ => True
  | other t => t.type ∉ [tlvPad1, tlvPadN, tlvHello, tlvRouterID, tlvUpdate] ∧ t.body.length < 256 ∧
      headerLen + 2 + t.body.length ≤ packetSize

/-- The Hello the speaker builds, to be stamped when its packet takes a place. -/
def helloTLV (seqno interval : UInt16) : RawTLV := encodeHello { seqno := seqno, interval := interval, hasTS := true }

/-- The TLVs of a group. -/
def tlvs : Group → List RawTLV
  | update id key seqno metric interval _ =>
    encodeRouterID id :: (encodeUpdate (keyUpdate key seqno metric interval)).toList
  | hello seqno interval => [helloTLV seqno interval]
  | other t => [t]

/-- What a group gives back when its packet does not arrive, its first TLV at index `i`. -/
def undos (i : Nat) : Group → List TlvUndo
  | update _ key _ _ _ spent => [⟨i, key, spent⟩]
  | _ => []

/-- What a group says to a receiver. -/
def items : Group → List Item
  | update id key seqno metric interval _ =>
    [.update (some id) { keyUpdate key seqno metric interval with ignore := interval == 0 && metric != metricInfinity }]
  | hello seqno interval => [.other (helloTLV seqno interval)]
  | other t => [.other t]

/-- The router id in effect after a group. -/
def effect (id : Option RouterID) : Group → Option RouterID
  | update id' _ _ _ _ _ => some id'
  | _ => id

/-- The TLVs of a group in a packet whose router id is already `id`. -/
def trim (id : Option RouterID) : Group → List RawTLV
  | g@(update id' _ _ _ _ _) => if id = some id' then g.tlvs.tail else g.tlvs
  | g => g.tlvs

/-- What a group's packet gives back, without the place of the group. -/
def owed : Group → List (RouteKey × Bool)
  | update _ key _ _ _ spent => [(key, spent)]
  | _ => []

end Group

/-- A run of groups as a packet carries it, from the router id in effect. -/
def compress (id : Option RouterID) : List Group → List RawTLV
  | [] => []
  | g :: rest => g.trim id ++ compress (g.effect id) rest

/-- The undos of a run of groups whose first TLV is at index `i`. -/
def undosFrom (i : Nat) : List Group → List TlvUndo
  | [] => []
  | g :: rest => g.undos i ++ undosFrom (i + g.tlvs.length) rest

/-- A Hello with its transmit timestamp cleared; any other item as it is. -/
def Item.eraseStamp : Item → Item
  | .other t => .other (stampHello 0 t)
  | i => i

/-- An action the speaker builds, from its groups. -/
structure SendAction.Built (a : SendAction) (gs : List Group) (packetSize : Nat := 63) : Prop where
  tlvs : a.tlvs = gs.flatMap Group.tlvs
  rollback : a.rollback = undosFrom 0 gs
  ok : ∀ g ∈ gs, g.Ok packetSize

/-- A group that fits the smallest packet fits every other. -/
theorem Group.Ok.mono {g : Group} (h : g.Ok) {packetSize : Nat} (hmin : 63 ≤ packetSize) : g.Ok packetSize := by
  cases g with
  | update | hello => exact h
  | other t => exact ⟨h.1, h.2.1, h.2.2.trans hmin⟩

theorem SendAction.Built.mono {a : SendAction} {gs : List Group} (h : a.Built gs) {packetSize : Nat} (hmin : 63 ≤ packetSize) :
    a.Built gs packetSize :=
  ⟨h.tlvs, h.rollback, fun g hg => (h.ok g hg).mono hmin⟩

namespace PacketAux

variable {packetSize : Nat} {tlvs : List RawTLV} {t : RawTLV} {g : Group} {gs : List Group}

/-- A TLV that frames: not padding, and with a body whose length fits its byte. -/
def Framed (t : RawTLV) : Prop := t.type ≠ tlvPad1 ∧ t.type ≠ tlvPadN ∧ t.body.length < 256

theorem filter_framed (h : ∀ t ∈ tlvs, Framed t) : (tlvs.filter fun t => !t.isPadding) = tlvs := by
  rw [List.filter_eq_self]
  intro t ht
  obtain ⟨h0, h1, -⟩ := h t ht
  simp [RawTLV.isPadding, h0, h1]

/-- The encoded length is the sum. -/
theorem length_encode (h : ∀ t ∈ tlvs, Framed t) : (tlvs.flatMap encodeTLV).length = encodedLen tlvs := by
  induction tlvs with
  | nil => rfl
  | cons t rest ih =>
    rw [List.flatMap_cons, List.length_append, ih fun t ht => h t (List.mem_cons_of_mem _ ht), encodeTLV,
      if_neg (h t List.mem_cons_self).1, encodedLen, encodedLen, List.map_cons, List.sum_cons, List.length_cons,
      List.length_cons]
    omega

theorem length_encodePacket (h : ∀ t ∈ tlvs, Framed t) : (encodePacket tlvs).length = headerLen + encodedLen tlvs := by
  simp [encodePacket, length_encode h, headerLen]
  omega

/-- A packet of framed TLVs decodes to them. -/
theorem decodePacket_framed (h : ∀ t ∈ tlvs, Framed t) (hlen : encodedLen tlvs < 65536) :
    decodePacket (encodePacket tlvs) = .ok tlvs := by
  rw [decodePacket_encodePacket (fun t ht => (h t ht).2.2) (by rw [length_encode h]; exact hlen), filter_framed h]

/-- A stamped Hello decodes to itself. -/
theorem decodeHello_stamped (seqno interval : UInt16) (ts : UInt32) :
    decodeHello (encodeHello { seqno := seqno, interval := interval, txTS := ts, hasTS := true }).body =
      some { seqno := seqno, interval := interval, txTS := ts, hasTS := true } :=
  decodeHello_encodeHello _

theorem stampHello_helloTLV (micros : UInt32) (seqno interval : UInt16) :
    stampHello micros (Group.helloTLV seqno interval) =
      encodeHello { seqno := seqno, interval := interval, txTS := micros, hasTS := true } := by
  rw [stampHello, if_pos (by rfl), Group.helloTLV, decodeHello_stamped]

/-- Clearing the stamp of a stamped Hello gives the Hello that was built. -/
theorem eraseStamp_hello (micros : UInt32) (seqno interval : UInt16) :
    Item.eraseStamp (.other (stampHello micros (Group.helloTLV seqno interval))) =
      .other (Group.helloTLV seqno interval) := by
  rw [stampHello_helloTLV, Item.eraseStamp, stampHello, if_pos (by rfl), decodeHello_stamped]
  rfl

/-- Only hellos are stamped. -/
theorem stampHello_of_ne {micros : UInt32} (h : t.type ≠ tlvHello) : stampHello micros t = t := by
  rw [stampHello, if_neg h]

theorem length_helloTLV (seqno interval : UInt16) (ts : UInt32) :
    (encodeHello { seqno := seqno, interval := interval, txTS := ts, hasTS := true }).body.length = 12 := by
  simp [encodeHello, encodeSubTLVs, putUint16, putUint32, length_toBytes]

/-- Router ids encode injectively. -/
theorem encodeRouterID_body_inj {a b : RouterID} (h : (encodeRouterID a).body = (encodeRouterID b).body) : a = b := by
  have hab : toBytes a = toBytes b := by simpa [encodeRouterID] using h
  rw [← ofBytes_toBytes a rfl, hab, ofBytes_toBytes b rfl]

/-- The TLVs of an update group, its Update as it encodes. -/
theorem tlvs_update {key : RouteKey} (hc : key.Canonical) (id : RouterID) (seqno metric interval : UInt16) (spent : Bool) :
    ∃ u, (Group.update id key seqno metric interval spent).tlvs = [encodeRouterID id, u] ∧ u.type = tlvUpdate ∧
      u.body.length ≤ 45 ∧ ∀ d : PrefixDecoder, ∃ d', d.decode u.body = .ok ({ keyUpdate key seqno metric interval with
        ignore := interval == 0 && metric != metricInfinity }, d') := by
  obtain ⟨u, henc, htype, hlen, hdec⟩ := update_roundtrip hc seqno metric interval
  exact ⟨u, by simp [Group.tlvs, henc], htype, hlen, hdec⟩

/-- A stamp keeps the type and the size of a TLV of a built group, and it frames. -/
theorem stamped_framed (hg : g.Ok packetSize) (ht : t ∈ g.tlvs) (micros : UInt32) :
    Framed (stampHello micros t) ∧ (stampHello micros t).body.length = t.body.length := by
  cases g with
  | update id key seqno metric interval spent =>
    obtain ⟨u, htlvs, htype, hlen, -⟩ := tlvs_update hg id seqno metric interval spent
    rw [htlvs, List.mem_pair] at ht
    obtain rfl | rfl := ht
    · rw [stampHello_of_ne (show tlvRouterID ≠ tlvHello by decide)]
      exact ⟨⟨show tlvRouterID ≠ tlvPad1 by decide, show tlvRouterID ≠ tlvPadN by decide, by
        rw [length_encodeRouterID]; omega⟩, rfl⟩
    · rw [stampHello_of_ne (by rw [htype]; decide), Framed, htype]
      exact ⟨⟨by decide, by decide, by omega⟩, rfl⟩
  | hello seqno interval =>
    rw [Group.tlvs, List.mem_singleton] at ht
    subst ht
    rw [stampHello_helloTLV, Framed, length_helloTLV, Group.helloTLV, length_helloTLV]
    exact ⟨⟨show tlvHello ≠ tlvPad1 by decide, show tlvHello ≠ tlvPadN by decide, by omega⟩, rfl⟩
  | other o =>
    rw [Group.tlvs, List.mem_singleton] at ht
    subst ht
    simp only [Group.Ok, List.mem_cons, List.not_mem_nil, or_false, not_or] at hg
    rw [stampHello_of_ne hg.1.2.2.1]
    exact ⟨⟨hg.1.1, hg.1.2.1, by omega⟩, rfl⟩

/-- A built group fits a packet beside its header. -/
theorem encodedLen_tlvs_le (hmin : 63 ≤ packetSize) (hg : g.Ok packetSize) : headerLen + encodedLen g.tlvs ≤ packetSize := by
  cases g with
  | update id key seqno metric interval spent =>
    obtain ⟨u, htlvs, -, hlen, -⟩ := tlvs_update hg id seqno metric interval spent
    rw [htlvs]
    simp only [headerLen, encodedLen, List.map_cons, List.map_nil, List.sum_cons, List.sum_nil, length_encodeRouterID]
    omega
  | hello seqno interval =>
    simp only [Group.tlvs, Group.helloTLV, headerLen, encodedLen, List.map_cons, List.map_nil, List.sum_cons, List.sum_nil,
      length_helloTLV]
    omega
  | other t =>
    have hlen := hg.2.2
    simp only [Group.tlvs, encodedLen, List.map_cons, List.map_nil, List.sum_cons, List.sum_nil]
    omega

/-- Trimming adds nothing. -/
theorem trim_subset {id : Option RouterID} (h : t ∈ g.trim id) : t ∈ g.tlvs := by
  cases g with
  | update id' key seqno metric interval spent =>
    rw [Group.trim] at h
    split at h
    · exact List.mem_of_mem_tail h
    · exact h
  | hello | other => exact h

/-- Compression adds nothing. -/
theorem mem_compress : ∀ {id : Option RouterID}, t ∈ compress id gs → ∃ g ∈ gs, t ∈ g.tlvs := by
  induction gs with
  | nil => intro id h; cases h
  | cons g rest ih =>
    intro id h
    rw [compress, List.mem_append] at h
    obtain h | h := h
    · exact ⟨g, List.mem_cons_self, trim_subset h⟩
    · obtain ⟨g', hg', ht⟩ := ih h
      exact ⟨g', List.mem_cons_of_mem _ hg', ht⟩

/-- A list of TLVs, and the same list with its Hellos stamped. -/
abbrev Stamped : List RawTLV → List RawTLV → Prop := List.Forall₂ fun t t' => ∃ micros, t' = stampHello micros t

theorem stamped_stampAll (tlvs : List RawTLV) : ∀ micros, Stamped tlvs (stampAll micros tlvs) := by
  induction tlvs with
  | nil => exact fun _ => .nil
  | cons t rest ih =>
    intro micros
    rw [stampAll, List.mapIdx_cons]
    exact .cons ⟨micros 0, rfl⟩ (ih fun i => micros (i + 1))

/-- Stamping keeps the size of a packet of built groups, and the packet frames. -/
theorem stamped_packet (hok : ∀ g ∈ gs, g.Ok packetSize) {l l' : List RawTLV} (hl : ∀ t ∈ l, ∃ g ∈ gs, t ∈ g.tlvs) (h : Stamped l l') :
    (∀ t ∈ l', Framed t) ∧ encodedLen l' = encodedLen l := by
  induction h with
  | nil => exact ⟨by simp, rfl⟩
  | @cons t t' l l' ht _ ih =>
    obtain ⟨hframed, hlen⟩ := ih fun t ht => hl t (List.mem_cons_of_mem _ ht)
    obtain ⟨micros, rfl⟩ := ht
    obtain ⟨g, hg, htg⟩ := hl t List.mem_cons_self
    obtain ⟨hf, hb⟩ := stamped_framed (hok g hg) htg micros
    refine ⟨List.forall_mem_cons.mpr ⟨hf, hframed⟩, ?_⟩
    simp only [encodedLen, List.map_cons, List.sum_cons] at hlen ⊢
    omega

/-- A router id is remembered. -/
theorem read_routerID (p : Parser) (id : RouterID) :
    p.read (encodeRouterID id) = ({ p with routerID := some id }, .skip) := by
  have ht : (encodeRouterID id).type = tlvRouterID := rfl
  rw [Parser.read, ht, if_neg (by decide), if_neg (by decide), if_neg (by decide), if_pos rfl, decodeRouterID_encode]

theorem read_update {p : Parser} {u : Update} {d : PrefixDecoder} (ht : t.type = tlvUpdate)
    (hd : p.prefixDec.decode t.body = .ok (u, d)) (hid : u.routerID = none) :
    p.read t = ({ p with prefixDec := d }, .update u p.routerID p.haveIPv4NextHop) := by
  rw [Parser.read, ht, if_neg (by decide), if_neg (by decide), if_neg (by decide), if_neg (by decide), if_pos rfl,
    Parser.readUpdate, hd]
  simp [hid]

/-- A TLV that is neither a Router-Id nor an Update leaves the router id in effect and reads as itself. -/
theorem read_other (p : Parser) (hr : t.type ≠ tlvRouterID) (hu : t.type ≠ tlvUpdate) :
    (p.read t).1.routerID = p.routerID ∧ p.item t = some (.other t) := by
  have hread : (p.read t).1.routerID = p.routerID ∧ ∀ u id nh, (p.read t).2 ≠ .update u id nh := by
    unfold Parser.read
    rw [if_neg hr, if_neg hu]
    split_ifs with hhello hihu hnh hack hreq hseq
    · cases decodeHello t.body <;> simp
    · cases decodeIHU t.body <;> simp
    · cases decodeNextHop t.body with
      | none => simp
      | some d =>
        refine ⟨?_, by simp⟩
        dsimp only
        split_ifs <;> rfl
    · cases decodeAckReq t.body <;> simp
    · cases decodeRouteRequest t.body <;> simp
    · cases decodeSeqnoRequest t.body <;> simp
    · simp
  refine ⟨hread.1, ?_⟩
  rw [Parser.item]
  split
  · rename_i u id nh hev
    exact absurd hev (hread.2 u id nh)
  · rw [if_neg (by simp [hr, hu])]

theorem items_routerID (p : Parser) (id : RouterID) (l : List RawTLV) :
    p.items (encodeRouterID id :: l) = Parser.items { p with routerID := some id } l := by
  rw [Parser.items, Parser.item, read_routerID, if_pos (.inl rfl)]
  rfl

/-- A packet of groups says what the groups say, wherever its Hellos are stamped. -/
theorem items_compress : ∀ {p : Parser} {l : List RawTLV}, (∀ g ∈ gs, g.Ok packetSize) →
    Stamped (compress p.routerID gs) l → (p.items l).map Item.eraseStamp = gs.flatMap Group.items := by
  induction gs with
  | nil =>
    intro p l _ h
    rw [compress, Stamped, List.forall₂_nil_left_iff] at h
    rw [h]
    rfl
  | cons g rest ih =>
    intro p l hok h
    have hrest : ∀ g ∈ rest, g.Ok packetSize := fun g hg => hok g (List.mem_cons_of_mem _ hg)
    rw [compress] at h
    rw [List.flatMap_cons]
    cases g with
    | update id key seqno metric interval spent =>
      obtain ⟨u, htlvs, htype, -, hdec⟩ := tlvs_update (hok _ List.mem_cons_self) id seqno metric interval spent
      -- whether the Router-Id is there or left out, the Update is read under it
      have hupd : ∀ {q : Parser} {l'}, q.routerID = some id → Stamped (u :: compress (some id) rest) l' →
          (q.items l').map Item.eraseStamp =
            (Group.update id key seqno metric interval spent).items ++ rest.flatMap Group.items := by
        intro q l' hq h'
        obtain ⟨_, l'', ⟨micros, rfl⟩, hl'', rfl⟩ := List.forall₂_cons_left_iff.mp h'
        obtain ⟨d', hd⟩ := hdec q.prefixDec
        rw [stampHello_of_ne (by rw [htype]; decide), Parser.items, Parser.item, read_update htype hd rfl, List.map_append,
          ih (p := { q with prefixDec := d' }) hrest (by rw [← hq] at hl''; exact hl''), hq]
        rfl
      rw [Group.trim, htlvs] at h
      by_cases hid : p.routerID = some id
      · rw [if_pos hid] at h
        exact hupd hid h
      · rw [if_neg hid] at h
        obtain ⟨_, l', ⟨micros, rfl⟩, hl', rfl⟩ := List.forall₂_cons_left_iff.mp h
        rw [stampHello_of_ne (show tlvRouterID ≠ tlvHello by decide), items_routerID]
        exact hupd rfl hl'
    | hello seqno interval =>
      obtain ⟨_, l', ⟨micros, rfl⟩, hl', rfl⟩ := List.forall₂_cons_left_iff.mp h
      have ht : (stampHello micros (Group.helloTLV seqno interval)).type = tlvHello := by rw [stampHello_helloTLV]; rfl
      obtain ⟨hid, hitem⟩ := read_other p (t := stampHello micros (Group.helloTLV seqno interval))
        (by rw [ht]; decide) (by rw [ht]; decide)
      rw [Parser.items, hitem, List.map_append, ih hrest (by rw [hid]; exact hl'), Option.toList_some, List.map_singleton,
        eraseStamp_hello]
      rfl
    | other t =>
      obtain ⟨_, l', ⟨micros, rfl⟩, hl', rfl⟩ := List.forall₂_cons_left_iff.mp h
      have hok' := (hok _ List.mem_cons_self).1
      simp only [List.mem_cons, List.not_mem_nil, or_false, not_or] at hok'
      obtain ⟨-, -, hhello, hr, hu⟩ := hok'
      obtain ⟨hid, hitem⟩ := read_other p hr hu
      rw [stampHello_of_ne hhello, Parser.items, hitem, List.map_append, ih hrest (by rw [hid]; exact hl'),
        Option.toList_some, List.map_singleton, Item.eraseStamp, stampHello_of_ne hhello]
      rfl

/-- What a packet of built groups carries, wherever its Hellos are stamped. -/
theorem packet_compress (hok : ∀ g ∈ gs, g.Ok packetSize) (hlen : encodedLen (compress none gs) < 65536) (r : Reservation) :
    (packetPayload r (compress none gs)).length = headerLen + encodedLen (compress none gs) ∧
      (packetItems (packetPayload r (compress none gs))).map Item.eraseStamp = gs.flatMap Group.items := by
  have hst := stamped_stampAll (compress none gs) r.micros
  obtain ⟨hframed, hlen'⟩ := stamped_packet hok (fun t ht => mem_compress ht) hst
  rw [packetPayload, length_encodePacket hframed, hlen', packetItems, decodePacket_framed hframed (by omega)]
  exact ⟨rfl, items_compress hok hst⟩

end PacketAux
end RanetLite.Babel
