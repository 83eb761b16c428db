import RanetLite.Client.Revocation
import RanetLite.Theorems.Sessions

/-!
# Who is left after a reload

Between the read of the registry in a handshake and the adoption of its session nothing looks at the registry again. Where no
handshake that read the old registry is adopted after the sweep with a peer the new one does not name, every session held after the
sweep has a peer the new registry names (`Settled`).
-/

namespace RanetLite.Client

open SessionsAux

/-- The invariant of a node around its reload. -/
structure Settled (parse : String → Option (List UInt8)) (next : Registry) (s : Revocation) : Prop where
  valid : s.registry.validate parse = .ok ()
  current : s.phase ≠ .before → s.registry = next
  known : ∀ path l, (path, l) ∈ s.sessions.live → l.peer ≠ {}
  greeted : ∀ h ∈ s.handshakes, h.peer ≠ {}
  old : s.phase = .before → ∀ h ∈ s.handshakes, h.early = true
  fresh : s.phase ≠ .before → ∀ h ∈ s.handshakes, h.early = false → next.Names h.peer
  swept : s.phase = .swept ∨ s.phase = .returned → ∀ path l, (path, l) ∈ s.sessions.live → next.Names l.peer

namespace RevocationAux

variable {parse : String → Option (List UInt8)} {self : Identity} {next : Registry} {s s' : Revocation} {reg : Registry}
  {peer : Identity} {t : SessionSet} {path name : String} {l : LiveSession}

/-- The organizations of a registry that passes are named. -/
theorem organization_named : ∀ {reg : Registry} {nodes : String → List String}, Registry.validateFrom parse nodes reg = .ok () →
    ∀ o ∈ reg, o.organization ≠ ""
  | [], _, _ => by simp
  | o :: rest, nodes, h => by
    unfold Registry.validateFrom at h
    split_ifs at h with hname hkey
    cases hnodes : Registry.validateNodes o.organization (nodes o.organization) o.nodes with
    | error e => simp [hnodes] at h
    | ok named =>
      rw [hnodes] at h
      exact List.forall_mem_cons.mpr ⟨hname, organization_named h⟩

theorem findNode_organization : ∀ {reg : Registry} {organization commonName : String} {o : Organization} {n : RegistryNode},
    reg.findNode organization commonName = some (o, n) → o ∈ reg ∧ o.organization = organization
  | [], _, _, _, _, h => by simp [Registry.findNode] at h
  | candidate :: rest, organization, commonName, o, n, h => by
    unfold Registry.findNode at h
    split_ifs at h with hname
    · obtain ⟨hmem, ho⟩ := findNode_organization h
      exact ⟨List.mem_cons_of_mem _ hmem, ho⟩
    · cases hnode : candidate.findNode commonName with
      | some node =>
        rw [hnode] at h
        obtain ⟨rfl, rfl⟩ := Prod.mk.inj (Option.some.inj h)
        exact ⟨List.mem_cons_self, not_not.mp hname⟩
      | none =>
        rw [hnode] at h
        obtain ⟨hmem, ho⟩ := findNode_organization h
        exact ⟨List.mem_cons_of_mem _ hmem, ho⟩

/-- The empty identity is in no registry that passes. -/
theorem named_ne (hvalid : reg.validate parse = .ok ()) (h : reg.Names peer) : peer ≠ {} := by
  rintro rfl
  obtain ⟨⟨o, n⟩, hfind⟩ := Option.isSome_iff_exists.mp h
  obtain ⟨hmem, ho⟩ := findNode_organization hfind
  exact organization_named hvalid o hmem ho

theorem names_of_peerKey (h : (peerKey parse self reg peer).isSome = true) : reg.Names peer := by
  unfold peerKey at h
  unfold Registry.Names
  cases hfind : reg.findNode peer.organization peer.commonName with
  | none => simp [hfind] at h
  | some found => rfl

theorem names_of_dialKey {key : List UInt8} (h : dialKey parse reg peer = some key) : reg.Names peer := by
  obtain ⟨found, hfind, -⟩ := Option.bind_eq_some_iff.mp h
  exact Option.isSome_iff_exists.mpr ⟨found, hfind⟩

theorem names_of_lookup {key : List UInt8} (h : lookupPeerKey parse self reg peer = some key) : reg.Names peer := by
  obtain ⟨found, hfind, -⟩ := Option.bind_eq_some_iff.mp h
  exact names_of_peerKey (Option.isSome_iff_exists.mpr ⟨found, hfind⟩)

theorem mem_drop (h : (path, l) ∈ (t.drop name).live) : (path, l) ∈ t.live :=
  List.mem_of_mem_filter h

/-- What a set holds after an adoption is the session adopted, or was held before. -/
theorem mem_adoptFor {sess : SessionRef} {preferred : Bool} {remote : Identity}
    (h : (path, l) ∈ (t.adoptFor name sess preferred remote).set.live) :
    l = { session := sess, preferred := preferred, peer := remote } ∨ (path, l) ∈ t.live := by
  have hput : (path, l) ∈ (t.put name { session := sess, preferred := preferred, peer := remote }).live →
      l = { session := sess, preferred := preferred, peer := remote } ∨ (path, l) ∈ t.live := by
    intro hmem
    obtain heq | hmem := List.mem_cons.mp hmem
    · exact .inl (Prod.mk.inj heq).2
    · exact .inr (mem_drop hmem)
  unfold SessionSet.adoptFor at h
  split_ifs at h
  · exact .inr h
  · cases hget : t.get name with
    | none =>
      rw [hget] at h
      exact hput h
    | some previous =>
      rw [hget] at h
      by_cases hkeep : previous.session ≠ sess ∧ previous.preferred = true ∧ preferred = false
      · simp only [if_pos hkeep] at h
        exact .inr h
      · simp only [if_neg hkeep] at h
        exact hput h

theorem mem_release {sess : SessionRef} (h : (path, l) ∈ (t.release name sess).live) : (path, l) ∈ t.live := by
  unfold SessionSet.release at h
  split_ifs at h
  · exact mem_drop h
  · exact h

/-- A handshake that reads the registry of the moment. -/
theorem settled_greet (h : Settled parse next s) {shake : Handshake} (hnames : s.registry.Names shake.peer)
    (hearly : shake.early = decide (s.phase = .before)) : Settled parse next { s with handshakes := shake :: s.handshakes } := by
  refine { h with greeted := ?_, old := fun hphase => ?_, fresh := fun hphase => ?_ }
  · exact List.forall_mem_cons.mpr ⟨named_ne h.valid hnames, h.greeted⟩
  · exact List.forall_mem_cons.mpr ⟨hearly.trans (decide_eq_true hphase), h.old hphase⟩
  · refine List.forall_mem_cons.mpr ⟨fun _ => ?_, h.fresh hphase⟩
    rw [← h.current hphase]
    exact hnames

/-- A handshake that ends. -/
theorem settled_part (h : Settled parse next s) (shake : Handshake) :
    Settled parse next { s with handshakes := s.handshakes.erase shake } :=
  { h with
    greeted := fun x hx => h.greeted x (List.mem_of_mem_erase hx)
    old := fun hphase x hx => h.old hphase x (List.mem_of_mem_erase hx)
    fresh := fun hphase x hx => h.fresh hphase x (List.mem_of_mem_erase hx) }

/-- A step of a run without late adoptions keeps the invariant. -/
theorem settled_step (hnext : next.validate parse = .ok ()) (h : Settled parse next s) (hstep : s.Step parse self next true s') :
    Settled parse next s' := by
  cases hstep with
  | dial hkey => exact settled_greet h (names_of_dialKey hkey) rfl
  | answer hkey => exact settled_greet h (names_of_lookup hkey) rfl
  | abandon shake => exact settled_part h shake
  | @adopt shake hmem hprompt =>
    have hpart := settled_part h shake
    refine { hpart with known := fun path l hl => ?_, swept := fun hphase path l hl => ?_ }
    · obtain rfl | hl := mem_adoptFor hl
      · exact h.greeted shake hmem
      · exact h.known path l hl
    · dsimp only at hphase hl ⊢
      obtain rfl | hl := mem_adoptFor hl
      · cases hearly : shake.early with
        | false =>
          refine h.fresh (fun hbefore => ?_) shake hmem hearly
          rw [hbefore] at hphase
          simp at hphase
        | true => exact hprompt rfl hearly hphase
      · exact h.swept hphase path l hl
  | release path session =>
    exact { h with
      known := fun name l hl => h.known name l (mem_release hl)
      swept := fun hphase name l hl => h.swept hphase name l (mem_release hl) }
  | store hphase =>
    refine { h with valid := hnext, current := fun _ => rfl, old := ?_, fresh := fun _ x hx hearly => ?_, swept := ?_ }
    · exact fun hbefore => absurd hbefore (by simp)
    · exact absurd (hearly.symm.trans (h.old hphase x hx)) (by simp)
    · exact fun hswept => absurd hswept (by simp)
  | sweep hphase =>
    have hcurrent := h.current (by simp [hphase])
    refine { h with
      current := fun _ => hcurrent
      known := fun path l hl => h.known path l (List.mem_of_mem_filter hl)
      old := ?_
      fresh := fun _ => h.fresh (by simp [hphase])
      swept := fun _ path l hl => ?_ }
    · exact fun hbefore => absurd hbefore (by simp)
    · obtain ⟨hmem, hstays⟩ := List.mem_filter.mp hl
      obtain hzero | htrusted := of_decide_eq_true hstays
      · exact absurd hzero (h.known path l hmem)
      · rw [← hcurrent]
        exact names_of_peerKey htrusted
  | return_ hphase =>
    refine { h with
      current := fun _ => h.current (by simp [hphase])
      old := ?_
      fresh := fun _ => h.fresh (by simp [hphase])
      swept := fun _ => h.swept (.inl hphase) }
    exact fun hbefore => absurd hbefore (by simp)

theorem settled_run {old : Registry} (hold : old.validate parse = .ok ()) (hnext : next.validate parse = .ok ())
    (hrun : Relation.ReflTransGen (Revocation.Step parse self next true) { registry := old } s) : Settled parse next s := by
  induction hrun with
  | refl => exact ⟨hold, fun h => absurd rfl h, by simp, by simp, by simp, by simp, by simp⟩
  | tail _ hstep ih => exact settled_step hnext ih hstep

end RevocationAux

open RevocationAux

/-- In every run in which no session is adopted after the sweep on a handshake that had read the old registry, unless the new one names
its peer: once the reload has returned, every session held has a peer the new registry names. -/
theorem revocation_complete {parse : String → Option (List UInt8)} {self : Identity} {old next : Registry}
    (hold : old.validate parse = .ok ()) (hnext : next.validate parse = .ok ()) {s : Revocation}
    (hrun : Relation.ReflTransGen (Revocation.Step parse self next true) { registry := old } s) (hreturned : s.phase = .returned)
    {path : String} {l : LiveSession} (hl : (path, l) ∈ s.sessions.live) : next.Names l.peer :=
  (settled_run hold hnext hrun).swept (.inr hreturned) path l hl

/-- The node of the runs below, and its peer. -/
def revokerId : Identity := ⟨"gravity", "a", "0"⟩

def revokedId : Identity := ⟨"gravity", "b", "1"⟩

/-- The registry with the peer, and without it. -/
def beforeRegistry : Registry := [⟨"key", "gravity", [⟨"a", [⟨"0", "ip4", 4500⟩]⟩, ⟨"b", [⟨"1", "ip4", 4500⟩]⟩]⟩]

def afterRegistry : Registry := [⟨"key", "gravity", [⟨"a", [⟨"0", "ip4", 4500⟩]⟩]⟩]

/-- The peer's handshake read the registry and the reload ran to its end. -/
def overtakenHandshake : Handshake :=
  { path := "gravity/b/1@0", session := 0, initiator := revokedId, responder := revokerId, peer := revokedId, early := true }

theorem answered_reachable (next : Registry) (prompt : Bool) :
    Relation.ReflTransGen (Revocation.Step (fun _ => some []) revokerId next prompt) { registry := beforeRegistry }
      { registry := beforeRegistry, handshakes := [overtakenHandshake] } := by
  exact .single (@Revocation.Step.answer _ _ _ _ _ revokedId "0" 0 [] (by decide +kernel))

/-- A session that is up before the reload stays when the new registry names its peer. -/
theorem revocation_complete_kept : ∃ s, Relation.ReflTransGen (Revocation.Step (fun _ => some []) revokerId beforeRegistry true)
    { registry := beforeRegistry } s ∧ s.phase = .returned ∧ ∃ path l, (path, l) ∈ s.sessions.live ∧ beforeRegistry.Names l.peer := by
  have hrun := ((((answered_reachable beforeRegistry true).tail (@Revocation.Step.adopt _ _ _ _ _ overtakenHandshake (by decide)
    (by simp))).tail (.store rfl)).tail (.sweep rfl)).tail (.return_ rfl)
  refine ⟨_, hrun, rfl, "gravity/b/1@0", ⟨0, false, revokedId⟩, by decide +kernel, ?_⟩
  exact @revocation_complete _ _ _ _ (by decide +kernel) (by decide +kernel) _ hrun rfl "gravity/b/1@0" _ (by decide +kernel)

/-- A handshake reads the old registry, the reload runs to its end, and the session is adopted: the peer the new registry does not
name is held. -/
theorem revoked_peer_held : ∃ s, Relation.ReflTransGen (Revocation.Step (fun _ => some []) revokerId afterRegistry false)
    { registry := beforeRegistry } s ∧ beforeRegistry.validate (fun _ => some []) = .ok () ∧
    afterRegistry.validate (fun _ => some []) = .ok () ∧ s.phase = .returned ∧ s.handshakes = [] ∧
    ∃ path l, s.sessions.get path = some l ∧ ¬afterRegistry.Names l.peer := by
  have hrun := ((((answered_reachable afterRegistry false).tail (.store rfl)).tail (.sweep rfl)).tail (.return_ rfl)).tail
    (@Revocation.Step.adopt _ _ _ _ _ overtakenHandshake (by decide) (by simp))
  refine ⟨_, hrun, by decide +kernel, by decide +kernel, rfl, by decide +kernel, "gravity/b/1@0", ⟨0, false, revokedId⟩,
    by decide +kernel, ?_⟩
  unfold Registry.Names
  decide +kernel

end RanetLite.Client
