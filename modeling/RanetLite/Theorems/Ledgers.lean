import RanetLite.Lemmas.Walks
import RanetLite.Lemmas.Writes
import RanetLite.Lib.Ledger
import RanetLite.Theorems.Retraction

/-!
# The quota ledgers

Five counters bound what peers may fill: the origins of a prefix, a peer's share of them, a peer's share of the source table, and the
requests and starved prefixes charged to one peer. Each is a ledger of a table, exact in every reachable state, and the tables of
requests and starved prefixes stay within their caps.
-/

namespace RanetLite.Babel

open Speaker WriteAux

/-- The ledgers of the source table. -/
structure RouteTable.Exact (rt : RouteTable) : Prop where
  originsPerKey : Ledger (fun (index : SourceKey) (_ : SourceEntry) => index.route) rt.sources rt.originsPerKey
  originsBy : Ledger (fun (index : SourceKey) (e : SourceEntry) => (⟨index.route, e.owner⟩ : OriginShare)) rt.sources rt.originsBy
  sourcesByPeer : Ledger (fun (_ : SourceKey) (e : SourceEntry) => e.owner) rt.sources rt.sourcesByPeer

/-- The ledgers of a speaker, and the caps of the tables that have one for each peer and one for all. -/
structure Speaker.Exact (s : Speaker) : Prop where
  sources : s.routes.Exact
  pendingByAsker : Ledger (fun (_ : SourceKey) (p : PendingSeqno) => p.asker) s.pendingSeqno s.pendingByAsker
  starveBy : Ledger (fun (_ : SourceKey) (r : StarveRetry) => r.asker) s.starveRetries s.starveBy
  pendingCap : s.pendingSeqno.keys.length ≤ maxPendingSeqno
  pendingShare : ∀ asker, tally (fun (_ : SourceKey) (p : PendingSeqno) => p.asker) s.pendingSeqno asker ≤ maxPendingSeqnoPerNeighbor
  starveCap : s.starveRetries.keys.length ≤ maxStarveRetries
  starveShare : ∀ asker, tally (fun (_ : SourceKey) (r : StarveRetry) => r.asker) s.starveRetries asker ≤ maxStarveRetriesPerNeighbor

namespace LedgerAux

variable {rt rt' : RouteTable} {nb : NeighborHeap} {now : Time} {s s' : Speaker}

/-! ### The source table -/

theorem exact_congr (h : rt.Exact) (hsources : rt'.sources = rt.sources) (hkey : rt'.originsPerKey = rt.originsPerKey)
    (hby : rt'.originsBy = rt.originsBy) (hpeer : rt'.sourcesByPeer = rt.sourcesByPeer) : rt'.Exact := by
  refine ⟨?_, ?_, ?_⟩
  · rw [hsources, hkey]
    exact h.originsPerKey
  · rw [hsources, hby]
    exact h.originsBy
  · rw [hsources, hpeer]
    exact h.sourcesByPeer

theorem exact_rules (h : rt.Exact) (hrules : SameRules rt rt') : rt'.Exact :=
  exact_congr h hrules.sources hrules.originsPerKey hrules.originsBy hrules.sourcesByPeer

/-- A new origin is charged to its prefix and its peer, and one that another peer owns now is moved to it. -/
theorem exact_observe (h : rt.Exact) (key : RouteKey) (adv : Advertisement) (from_ : String) : (rt.observe key adv from_ now).Exact := by
  unfold RouteTable.observe
  split_ifs
  · exact h
  dsimp only
  cases hold : rt.sources.lookup ⟨key, adv.routerID⟩ with
  | none =>
    exact ⟨h.originsPerKey.add hold ⟨adv.seqno, adv.metric, now + sourceGCTime, from_⟩,
      h.originsBy.add hold ⟨adv.seqno, adv.metric, now + sourceGCTime, from_⟩,
      h.sourcesByPeer.add hold ⟨adv.seqno, adv.metric, now + sourceGCTime, from_⟩⟩
  | some entry =>
    dsimp only
    have howner : (if entry.better adv.seqno adv.metric then { entry with seqno := adv.seqno, metric := adv.metric } else entry).owner =
        entry.owner := by
      split_ifs <;> rfl
    generalize (if entry.better adv.seqno adv.metric then { entry with seqno := adv.seqno, metric := adv.metric } else entry) = entry'
      at howner ⊢
    split_ifs with hsame
    · rw [howner]
      exact ⟨h.originsPerKey.keep hold rfl, h.originsBy.move hold { entry' with owner := from_, gcAt := now + sourceGCTime },
        h.sourcesByPeer.move hold { entry' with owner := from_, gcAt := now + sourceGCTime }⟩
    · rw [not_not, howner] at hsame
      exact ⟨h.originsPerKey.keep hold rfl, h.originsBy.keep hold (by rw [hsame]), h.sourcesByPeer.keep hold hsame.symm⟩

/-- Sweeping one source keeps the counts. -/
theorem exact_sweepSource (h : rt.Exact) (index : SourceKey) : (rt.sweepSource now index).Exact := by
  unfold RouteTable.sweepSource
  cases hold : rt.sources.lookup index with
  | none => exact h
  | some entry =>
    dsimp only
    split_ifs
    · exact h
    · exact ⟨h.originsPerKey.remove hold, h.originsBy.remove hold, h.sourcesByPeer.remove hold⟩

theorem exact_sweepSources (h : rt.Exact) : (rt.sweepSources now).Exact := by
  unfold RouteTable.sweepSources
  generalize rt.sources.keys = keys
  induction keys generalizing rt with
  | nil => exact h
  | cons index keys ih => exact ih (exact_sweepSource h index)

/-- Acquiring a route keeps the counts. -/
theorem exact_acquire (h : rt.Exact) (n : NeighborRef) (key : RouteKey) (entry : KeyEntry) (route : RouteInfo) (adv : Advertisement)
    (hold : Duration) : (rt.acquire nb n key entry route adv hold now).Exact := by
  unfold RouteTable.acquire
  dsimp only
  have hstarve : (if !rt.feasible key adv (nb n).peer.id && entry.selected.neighbor = some n then rt.starve key n adv else rt).Exact := by
    split_ifs
    · exact exact_congr h rfl rfl rfl rfl
    · exact h
  exact exact_rules hstarve (selects_selectRoute _ nb key _ now).rules

/-- An update keeps the counts. -/
theorem exact_update (h : rt.Exact) (n : NeighborRef) (key : RouteKey) (adv : Advertisement) (hold : Duration) :
    (rt.update nb n key adv hold now).Exact := by
  unfold RouteTable.update
  have hforget : (if adv.metric ≠ metricInfinity then rt.forgetRetraction n else rt).Exact := by
    split_ifs
    · exact exact_congr h rfl rfl rfl rfl
    · exact h
  generalize (if adv.metric ≠ metricInfinity then rt.forgetRetraction n else rt) = rt1 at hforget ⊢
  dsimp only
  cases rt1.entries.lookup key with
  | none =>
    dsimp only
    split_ifs
    · exact exact_acquire hforget ..
    · exact hforget
  | some entry =>
    dsimp only
    cases entry.routes.lookup n with
    | none =>
      dsimp only
      split_ifs
      · exact exact_acquire hforget ..
      · exact hforget
    | some route => exact exact_acquire hforget ..

/-- Every table call keeps the counts. -/
theorem exact_apply (h : rt.Exact) (op : TableOp) : (rt.apply nb now op).Exact := by
  cases op with
  | update n key adv hold => exact exact_update h n key adv hold
  | retractNeighbor n =>
    show (rt.retractNeighbor nb n now).Exact
    unfold RouteTable.retractNeighbor
    split_ifs
    · exact h
    · have hmark : ({ rt with retracted := rt.retracted.insert n () } : RouteTable).Exact := exact_congr h rfl rfl rfl rfl
      exact exact_rules hmark (WalkAux.rules_foldl (WalkAux.visits_retractRoute nb n now) _ _)
  | recomputeNeighbor n => exact exact_rules h (WalkAux.rules_foldl (WalkAux.visits_recompute nb n now) _ _)
  | expireNeighbor n =>
    have hforget : (rt.forgetRetraction n).Exact := exact_congr h rfl rfl rfl rfl
    exact exact_rules hforget (WalkAux.rules_foldl (WalkAux.visits_expireRoute nb n now) _ _)
  | sweepExpired =>
    have hreset : ({ rt with nextExpiryAt := 0 } : RouteTable).Exact := exact_congr h rfl rfl rfl rfl
    exact exact_sweepSources (exact_rules hreset (WalkAux.rules_foldl (WalkAux.visits_reselect nb now) _ _))
  | observe key adv from_ => exact exact_observe h key adv from_
  | markDirty | takeDirty | takeStarved | adopt | release => exact exact_congr h rfl rfl rfl rfl

/-! ### Requests and starved prefixes -/

/-- Requests: what the invariant says of them depends on two fields. -/
theorem exact_with (h : s.Exact) (hsources : s'.routes.Exact) (hpending : s'.pendingSeqno = s.pendingSeqno)
    (hasker : s'.pendingByAsker = s.pendingByAsker) (hretries : s'.starveRetries = s.starveRetries)
    (hby : s'.starveBy = s.starveBy) : s'.Exact := by
  refine ⟨hsources, ?_, ?_, ?_, ?_, ?_, ?_⟩
  · rw [hpending, hasker]
    exact h.pendingByAsker
  · rw [hretries, hby]
    exact h.starveBy
  · rw [hpending]
    exact h.pendingCap
  · rw [hpending]
    exact h.pendingShare
  · rw [hretries]
    exact h.starveCap
  · rw [hretries]
    exact h.starveShare

/-- A request is recorded under the caps, and one recorded again moves to the bucket of its asker. -/
theorem exact_allowSeqnoRequest (h : s.Exact) (index : SourceKey) (seqno : UInt16) (asker : String) :
    (s.allowSeqnoRequest index seqno asker now).1.Exact := by
  unfold Speaker.allowSeqnoRequest
  dsimp only
  split_ifs with hredundant hshare hcap
  · exact h
  · exact h
  · exact h
  unfold Speaker.recordSeqnoRequest
  cases hold : s.pendingSeqno.lookup index with
  | none =>
    rw [hold] at hshare hcap
    have hbelow : tally (fun (_ : SourceKey) (p : PendingSeqno) => p.asker) s.pendingSeqno asker < maxPendingSeqnoPerNeighbor := by
      by_contra hfull
      exact hshare ⟨by rw [counter, h.pendingByAsker.counter_eq]; omega, by simp⟩
    refine { h with
      pendingByAsker := h.pendingByAsker.add hold ⟨seqno, now, asker⟩
      pendingCap := ?_
      pendingShare := fun a => ?_ }
    · show (s.pendingSeqno.insert index ⟨seqno, now, asker⟩).keys.length ≤ maxPendingSeqno
      rw [Ledger.length_insert hold]
      exact not_le.1 (not_and.1 hcap rfl)
    · show tally _ (s.pendingSeqno.insert index ⟨seqno, now, asker⟩) a ≤ _
      rw [Ledger.tally_insert _ hold]
      have hle := h.pendingShare a
      by_cases hself : asker = a
      · subst hself
        rw [if_pos rfl]
        exact hbelow
      · rw [if_neg hself]
        exact hle
  | some previous =>
    rw [hold] at hshare
    have hbelow : previous.asker ≠ asker →
        tally (fun (_ : SourceKey) (p : PendingSeqno) => p.asker) s.pendingSeqno asker < maxPendingSeqnoPerNeighbor := by
      intro hne
      by_contra hfull
      exact hshare ⟨by rw [counter, h.pendingByAsker.counter_eq]; omega, by simpa using hne⟩
    refine { h with
      pendingByAsker := h.pendingByAsker.move hold ⟨seqno, now, asker⟩
      pendingCap := ?_
      pendingShare := fun a => ?_ }
    · show (s.pendingSeqno.insert index ⟨seqno, now, asker⟩).keys.length ≤ maxPendingSeqno
      rw [Ledger.length_replace hold]
      exact h.pendingCap
    · show tally _ (s.pendingSeqno.insert index ⟨seqno, now, asker⟩) a ≤ _
      have hmove := Ledger.tally_replace (fun (_ : SourceKey) (p : PendingSeqno) => p.asker) hold ⟨seqno, now, asker⟩ a
      have hle := h.pendingShare a
      by_cases hself : asker = a
      · subst hself
        by_cases hsame : previous.asker = asker
        · rw [if_pos hsame, if_pos rfl] at hmove
          omega
        · have := hbelow hsame
          rw [if_neg hsame, if_pos rfl] at hmove
          omega
      · rw [if_neg hself] at hmove
        omega

/-- Sweeping a request keeps the counts. -/
theorem exact_sweepPending (h : s.Exact) (index : SourceKey) : (s.sweepPending now index).Exact := by
  unfold Speaker.sweepPending
  cases hold : s.pendingSeqno.lookup index with
  | none => exact h
  | some pending =>
    dsimp only
    split_ifs
    · refine { h with
        pendingByAsker := h.pendingByAsker.remove hold
        pendingCap := (Ledger.length_erase_le _ _).trans h.pendingCap
        pendingShare := fun a => ?_ }
      have herase := Ledger.tally_erase (fun (_ : SourceKey) (p : PendingSeqno) => p.asker) hold a
      exact le_trans (by dsimp only [releaseSeqnoRequest]; omega) (h.pendingShare a)
    · exact exact_with h h.sources rfl rfl rfl rfl

/-- A starved prefix written over in its bucket. -/
theorem exact_rewrite (h : s.Exact) {id : SourceKey} {retry retry' : StarveRetry} (hold : s.starveRetries.lookup id = some retry)
    (hretries : s'.starveRetries = s.starveRetries.insert id retry') (hasker : retry'.asker = retry.asker)
    (hroutes : s'.routes = s.routes) (hpending : s'.pendingSeqno = s.pendingSeqno) (hpendingBy : s'.pendingByAsker = s.pendingByAsker)
    (hby : s'.starveBy = s.starveBy) : s'.Exact := by
  refine ⟨by rw [hroutes]; exact h.sources, ?_, ?_, ?_, ?_, ?_, fun a => ?_⟩
  · rw [hpending, hpendingBy]
    exact h.pendingByAsker
  · rw [hretries, hby]
    exact h.starveBy.keep hold hasker
  · rw [hpending]
    exact h.pendingCap
  · rw [hpending]
    exact h.pendingShare
  · rw [hretries, Ledger.length_replace hold]
    exact h.starveCap
  · have hkeep := Ledger.tally_replace (fun (_ : SourceKey) (r : StarveRetry) => r.asker) hold retry' a
    rw [hasker] at hkeep
    rw [hretries, Nat.add_right_cancel hkeep]
    exact h.starveShare a

/-- Forgetting a retry keeps the counts. -/
theorem exact_forgetStarved (h : s.Exact) {id : SourceKey} {retry : StarveRetry} (hold : s.starveRetries.lookup id = some retry) :
    (s.forgetStarved id retry).Exact := by
  refine { h with
    starveBy := h.starveBy.remove hold
    starveCap := (Ledger.length_erase_le _ _).trans h.starveCap
    starveShare := fun a => ?_ }
  have herase := Ledger.tally_erase (fun (_ : SourceKey) (r : StarveRetry) => r.asker) hold a
  exact le_trans (by dsimp only [forgetStarved]; omega) (h.starveShare a)

/-- A starved prefix is remembered under the caps; one remembered already keeps its bucket. -/
theorem exact_rememberStarved (h : s.Exact) (key : RouteKey) (routerID : RouterID) (seqno : UInt16) (asker : String) :
    (s.rememberStarved key routerID seqno asker now).Exact := by
  unfold Speaker.rememberStarved
  dsimp only
  cases hold : s.starveRetries.lookup ⟨key, routerID⟩ with
  | none =>
    dsimp only
    split_ifs with hfull
    · exact h
    rw [not_or, not_le, not_le, counter, h.starveBy.counter_eq] at hfull
    generalize hnew : (⟨key, routerID, seqno, 0, now + seqnoRetryInitial, asker⟩ : StarveRetry) = retry
    obtain rfl : retry.asker = asker := by rw [← hnew]
    refine { h with
      starveBy := h.starveBy.add hold retry
      starveCap := ?_
      starveShare := fun a => ?_ }
    · show (s.starveRetries.insert ⟨key, routerID⟩ retry).keys.length ≤ maxStarveRetries
      rw [Ledger.length_insert hold]
      exact hfull.1
    · show tally _ (s.starveRetries.insert ⟨key, routerID⟩ retry) a ≤ _
      rw [Ledger.tally_insert _ hold]
      by_cases hself : retry.asker = a
      · subst hself
        rw [if_pos rfl]
        exact hfull.2
      · rw [if_neg hself]
        exact h.starveShare a
  | some retry => exact exact_rewrite h hold rfl rfl rfl rfl rfl rfl

/-- No write takes a ledger from its table. -/
theorem exact_write (h : s.Exact) (hw : Write now s s') : s'.Exact := by
  cases hw with
  | table op => exact exact_with h (exact_apply h.sources op) rfl rfl rfl rfl
  | request index seqno asker => exact exact_allowSeqnoRequest h index seqno asker
  | ask n key routerID =>
    unfold Speaker.allowAsk
    dsimp only
    split_ifs
    · exact h
    · exact exact_with h h.sources rfl rfl rfl rfl
  | starve key routerID seqno asker => exact exact_rememberStarved h key routerID seqno asker
  | forget hold => exact exact_forgetStarved h hold
  | retry hold => exact exact_rewrite h hold rfl rfl rfl rfl rfl rfl
  | pending index => exact exact_sweepPending h index
  | asked index =>
    unfold Speaker.sweepAsked
    split
    · exact h
    · split_ifs <;> exact exact_with h h.sources rfl rfl rfl rfl
  | rest heq =>
    rw [heq]
    exact exact_with h h.sources rfl rfl rfl rfl
  | neighbor | register => exact exact_with h h.sources rfl rfl rfl rfl

/-- Map order does not count. -/
theorem exact_reordered (same : s.Reordered s') (h : s.Exact) : s'.Exact := by
  have hasker : s'.pendingByAsker = s.pendingByAsker := by rw [same.rest]
  have hby : s'.starveBy = s.starveBy := by rw [same.rest]
  have hkeys : s'.routes.originsPerKey = s.routes.originsPerKey := by rw [same.routes.rest]
  have hshare : s'.routes.originsBy = s.routes.originsBy := by rw [same.routes.rest]
  have hpeer : s'.routes.sourcesByPeer = s.routes.sourcesByPeer := by rw [same.routes.rest]
  have hlength : ∀ {K V : Type} {m m' : GoMap K V}, GoMap.Reordered m m' → m'.keys.length = m.keys.length := fun hperm =>
    (hperm.map Sigma.fst).length_eq
  refine ⟨⟨?_, ?_, ?_⟩, ?_, ?_, ?_, fun a => ?_, ?_, fun a => ?_⟩
  · rw [hkeys]
    exact h.sources.originsPerKey.perm same.routes.sources
  · rw [hshare]
    exact h.sources.originsBy.perm same.routes.sources
  · rw [hpeer]
    exact h.sources.sourcesByPeer.perm same.routes.sources
  · rw [hasker]
    exact h.pendingByAsker.perm same.pendingSeqno
  · rw [hby]
    exact h.starveBy.perm same.starveRetries
  · rw [hlength same.pendingSeqno]
    exact h.pendingCap
  · rw [Ledger.tally_perm same.pendingSeqno]
    exact h.pendingShare a
  · rw [hlength same.starveRetries]
    exact h.starveCap
  · rw [Ledger.tally_perm same.starveRetries]
    exact h.starveShare a

theorem exact_empty (cfg : Settings) : (Speaker.empty cfg).Exact :=
  ⟨⟨.empty _, .empty _, .empty _⟩, .empty _, .empty _, Nat.zero_le _, fun _ => Nat.zero_le _, Nat.zero_le _, fun _ => Nat.zero_le _⟩

end LedgerAux

open LedgerAux

/-- In every reachable state each counter of a quota is the number of entries it counts, with none left at zero, and the tables of
requests and starved prefixes are within the caps for one peer and for all. -/
theorem ledgers_exact {s : Speaker} {sent : List ReservedPacket} (h : Reachable s sent) : s.Exact :=
  h.invariant exact_empty exact_write exact_reordered

/-- What a second neighbor asks: everything there is, and a newer sequence number of the one prefix. -/
def askingPacket : List UInt8 :=
  encodePacket ((encodeRouteRequest ⟨aeWildcard, .none, .none⟩).toList ++
    (encodeSeqnoRequest ⟨updateAE docKey.dest, docKey.dest, docKey.source, 8, 5, 2⟩).toList)

/-- The linked speaker after it answered the one and forwarded the other. -/
def askedSpeaker : Speaker :=
  ((linkedSpeaker.apply second (.addPeer ⟨2, "c"⟩)).1.apply second (.receive ⟨2, "c"⟩ linkingAddr askingPacket [])).1

theorem askedSpeaker_reachable : ∃ sent, Reachable askedSpeaker sent :=
  ⟨_, .call (.call linkedSpeaker_reachable (.addPeer ⟨2, "c"⟩) second trivial) (.receive ⟨2, "c"⟩ linkingAddr askingPacket []) second trivial⟩

/-- The prefix told is charged to the peer it was learned from, and the request to the peer that made it. -/
theorem ledgers_exact_asked : (∃ sent, Reachable askedSpeaker sent) ∧ askedSpeaker.Exact ∧
    askedSpeaker.routes.sourcesByPeer.lookup "b" = some 1 ∧ askedSpeaker.pendingByAsker.lookup "c" = some 1 := by
  obtain ⟨sent, h⟩ := askedSpeaker_reachable
  exact ⟨⟨sent, h⟩, ledgers_exact h, by decide +kernel, by decide +kernel⟩

end RanetLite.Babel
