import RanetLite.Lemmas.Operations
import RanetLite.Lib.Moves

/-!
# What every write keeps

A call is a chain of writes, so a fact about a speaker, its route table or its neighbors that every write on it keeps holds in every
reachable state.
-/

namespace RanetLite.Babel

open Netip BuildAux HearAux OpAux

namespace WriteAux

open Speaker

variable {now : Time} {s s' : Speaker}

/-- The route table is written by the calls on it alone. -/
theorem routes_of_write (hw : Write now s s') :
    s'.routes = s.routes ∨ ∃ op : TableOp, op.Asked ∧ s'.routes = s.routes.apply s.heap now op := by
  cases hw with
  | table op asked => exact .inr ⟨op, asked, rfl⟩
  | request index seqno asker => exact .inl (requests_allowSeqnoRequest s index seqno asker now).routes
  | ask n key routerID => exact .inl (requests_allowAsk s n key routerID now).routes
  | starve key routerID seqno asker => exact .inl (requests_rememberStarved s key routerID seqno asker now).routes
  | pending index => exact .inl (requests_sweepPending s now index).routes
  | asked index => exact .inl (requests_sweepAsked s now index).routes
  | rest heq =>
    rw [heq]
    exact .inl rfl
  | neighbor | forget | retry | register => exact .inl rfl

/-- The order of the maps does not change what is stored. -/
theorem route_reordered {rt rt' : RouteTable} (same : rt.Reordered rt') (n : NeighborRef) (key : RouteKey) :
    rt'.route n key = rt.route n key := by
  have hentry := same.entries key
  unfold RouteTable.route
  generalize rt.entries.lookup key = e at hentry ⊢
  generalize rt'.entries.lookup key = e' at hentry ⊢
  cases hentry with
  | none => rfl
  | some hsame =>
    rw [Option.bind_some, Option.bind_some]
    exact AList.perm_lookup hsame.routes

end WriteAux

open WriteAux

variable {s : Speaker} {sent : List ReservedPacket}

/-- What holds of an empty speaker, is kept by every write and does not depend on the order of the maps, holds in every reachable
state. -/
theorem Reachable.invariant {P : Speaker → Prop} (hempty : ∀ cfg, P (Speaker.empty cfg))
    (hwrite : ∀ {now : Time} {s s' : Speaker}, P s → Speaker.Write now s s' → P s')
    (hreorder : ∀ {s s' : Speaker}, s.Reordered s' → P s → P s') (h : Reachable s sent) : P s := by
  induction h with
  | @new cfg routes rt drawn damp s hnew =>
    obtain ⟨rt', -, rfl⟩ := new_ok hnew
    exact Moves.keeps_chain (@writes_setOriginated 0 _ routes.announce) (hempty _) hwrite
  | call hreach op now _ ih =>
    obtain ⟨effects, hacts, -⟩ := acts_apply (good_reachable hreach).1 now op
    exact Moves.keeps_chain hacts.writes ih hwrite
  | reorder _ same ih => exact hreorder same ih

/-- What every table call keeps, every write keeps. -/
theorem table_writes {P : RouteTable → Prop}
    (hcall : ∀ {now : Time} {s : Speaker} {op : TableOp}, op.Asked → P s.routes → P (s.routes.apply s.heap now op)) {now : Time}
    {s' : Speaker} (hw : Speaker.Writes now s s') (h : P s.routes) : P s'.routes := by
  refine Moves.keeps_chain (P := fun s => P s.routes) hw h fun {s s'} hp hwrite => ?_
  rcases routes_of_write hwrite with heq | ⟨op, asked, heq⟩
  · rw [heq]
    exact hp
  · rw [heq]
    exact hcall asked hp

/-- What holds of an empty route table, is kept by every call on it and does not depend on the order of its maps, holds in every
reachable state. -/
theorem Reachable.table_invariant {P : RouteTable → Prop} (hempty : ∀ cfg, P (Speaker.empty cfg).routes)
    (hcall : ∀ {now : Time} {s : Speaker} {op : TableOp}, op.Asked → P s.routes → P (s.routes.apply s.heap now op))
    (hreorder : ∀ {rt rt' : RouteTable}, rt.Reordered rt' → P rt → P rt') (h : Reachable s sent) : P s.routes :=
  Reachable.invariant (P := fun s => P s.routes) hempty (fun hp hw => table_writes hcall (.single hw) hp)
    (fun same hp => hreorder same.routes hp) h

/-- What holds of a new neighbor and is kept by every write on its state holds of every neighbor in every reachable state. -/
theorem Reachable.neighbor_invariant {P : NeighborState → Prop} (hnew : ∀ peer, P { peer := peer })
    (hwrite : ∀ {now : Time} {st st' : NeighborState}, NeighborState.Write now st st' → P st → P st') (h : Reachable s sent) :
    ∀ n, P (s.heap n) := by
  refine Reachable.invariant (P := fun s => ∀ n, P (s.heap n)) (fun cfg n => hnew _) (fun {now s s'} hp hw => ?_)
    (fun {s s'} same hp n => ?_) h
  · cases hw with
    | neighbor n hst => exact (Function.forall_update_iff _ fun _ st => P st).2 ⟨hwrite hst (hp n), fun m _ => hp m⟩
    | register peer => exact (Function.forall_update_iff _ fun _ st => P st).2 ⟨hnew peer, fun m _ => hp m⟩
    | request index seqno asker => rwa [(requests_allowSeqnoRequest s index seqno asker now).heap]
    | ask n key routerID => rwa [(requests_allowAsk s n key routerID now).heap]
    | starve key routerID seqno asker => rwa [(requests_rememberStarved s key routerID seqno asker now).heap]
    | pending index => rwa [(requests_sweepPending s now index).heap]
    | asked index => rwa [(requests_sweepAsked s now index).heap]
    | rest heq =>
      rw [heq]
      exact hp
    | table | forget | retry => exact hp
  · refine @hwrite 0 _ _ (.rest ?_) (hp n)
    rw [(same.heap n).rest]

end RanetLite.Babel
