import RanetLite.Theorems.Speaker

/-!
# Where packets go

`RouteTable.Lookup` of `internal/netstack/route.go` over the forwarding table a speaker keeps: a packet goes where the speaker's state
says for the most specific key that covers it.
-/

namespace RanetLite.Babel

open Netip Sadr SpeakerAux

/-- The peer a forwarding entry names. -/
def FibTarget.next : FibTarget → Option Peer
  | peer p => some p
  | unreachable => none

namespace Speaker

/-- `RouteTable.Lookup`. -/
def lookup (s : Speaker) (src dst : Addr) : Option Peer := (s.routes.fib.lookup src dst).bind FibTarget.next

/-- What the selections and originations ask of the forwarding table. -/
def wanted (s : Speaker) : Linear FibTarget :=
  (s.originate.keys ++ s.routes.entries.keys).filterMap fun key => (s.forwards key).map fun target => ⟨key.source, key.dest, target⟩

variable {s : Speaker}

theorem forwards_key (h : s.node.Sound) {key : RouteKey} {target : FibTarget} (hkey : s.forwards key = some target) :
    key ∈ s.originate.keys ++ s.routes.entries.keys ∧ key.Canonical := by
  rw [List.mem_append]
  by_cases hlocal : key ∈ s.originate
  · exact ⟨.inl hlocal, h.originKeys hlocal⟩
  · rw [forwards, if_neg hlocal] at hkey
    cases hentry : s.routes.entries.lookup key with
    | none => simp [hentry] at hkey
    | some entry =>
      exact ⟨.inr (AList.lookup_isSome.mp (by rw [hentry]; rfl)), (h.entryKeys (congrArg (Option.map KeyEntry.node) hentry)).1⟩

theorem mem_wanted (h : s.node.Sound) {r : Route FibTarget} : r ∈ s.wanted ↔ s.forwards ⟨r.source, r.destination⟩ = some r.value := by
  rw [wanted, List.mem_filterMap]
  constructor
  · rintro ⟨key, -, hkey⟩
    obtain ⟨target, htarget, rfl⟩ := Option.map_eq_some_iff.mp hkey
    exact htarget
  · intro hkey
    exact ⟨_, (forwards_key h hkey).1, by rw [hkey]; rfl⟩

theorem refines_wanted (h : s.node.Sound) : Refines s.routes.fib s.wanted where
  wf := h.fib.wf
  canonical r hr := by
    have hkey := (forwards_key h ((mem_wanted h).mp hr)).2
    exact ⟨hkey.destValid, hkey.destMasked⟩
  live dst hv e := by
    rw [mem_wanted h, ← forwarding_node]
    exact h.fib.live dst hv e

end Speaker

/-- In every state a speaker can reach, a packet goes to the peer of the neighbor selected for the most specific key that covers it, of
all keys that are originated, selected, or held after their last route was lost. It goes nowhere when that key is originated or held,
whatever shorter key has a route, and when no key covers it. -/
theorem packets_follow_selections {s : Speaker} {sent : List ReservedPacket} (h : Reachable s sent) {src dst : Addr}
    (hs : src.zone = "") (hd : dst.zone = "") :
    (∀ r, r ∈ s.wanted ↔ s.forwards ⟨r.source, r.destination⟩ = some r.value) ∧
      (∀ r, Best s.wanted src dst r → s.lookup src dst = r.value.next) ∧
      ((∀ r ∈ s.wanted, r.applies src dst = false) → s.lookup src dst = none) := by
  have hsound := (good_reachable h).1.sound
  have href := Speaker.refines_wanted hsound
  refine ⟨fun _ => Speaker.mem_wanted hsound, fun r hr => ?_, fun hnone => ?_⟩ <;> rw [Speaker.lookup]
  · obtain ⟨r', hr', hlookup⟩ | ⟨hnone, -⟩ := lookup_spec href hs hd
    · rw [hlookup, LookupAux.best_unique href hr hr']
      rfl
    · exact absurd hr.applies (by simp [hnone r hr.mem])
  · obtain ⟨r', hr', -⟩ | ⟨-, hlookup⟩ := lookup_spec href hs hd
    · exact absurd hr'.applies (by simp [hnone r' hr'.mem])
    · rw [hlookup]
      rfl

/-- A packet for an address in the prefix a linked speaker learned goes to its peer, and one for an address outside it to none. -/
theorem packets_follow_selections_linked :
    linkedSpeaker.lookup (.v6 1#128 "") (.v6 (0x20010db8#128 <<< 96) "") = some ⟨1, "b"⟩ ∧
      linkedSpeaker.lookup (.v6 1#128 "") (.v6 2#128 "") = none := by
  have hbest : Best linkedSpeaker.wanted (.v6 1#128 "") (.v6 (0x20010db8#128 <<< 96) "") ⟨.none, docKey.dest, .peer ⟨1, "b"⟩⟩ :=
    ⟨by decide +kernel, by decide +kernel, by decide +kernel⟩
  exact ⟨(packets_follow_selections linkedSpeaker_reachable rfl rfl).2.1 _ hbest,
    (packets_follow_selections linkedSpeaker_reachable rfl rfl).2.2 (by decide +kernel)⟩

end RanetLite.Babel
