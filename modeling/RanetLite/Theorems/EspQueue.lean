import RanetLite.Transport.EspQueue

/-!
# The ESP queue has no gaps

A ticket is moved on only for a batch the channel took, and the budget is read only while nothing is sent and not yet added. So what
`espQueued` says is the bytes in the channel, the bytes received and not given back, less what is sent and not added (`Accounted`).
-/

namespace RanetLite.Transport

/-- The charge of batches against the byte budget. -/
def charge (batches : List EspBatch) : Nat := addUp EspBatch.bytes batches

/-- The bytes sent and not yet added to `espQueued`. -/
def Dispatch.uncounted : Dispatch → Nat
  | sent bytes => bytes
  | _ => 0

/-- The bytes a dispatcher has found room for and not yet added. -/
def Dispatch.reserved : Dispatch → Nat
  | admitted _ bytes | sent bytes => bytes
  | _ => 0

/-- The tickets given out and not yet moved past. -/
def Dispatch.ticketed : Dispatch → Nat
  | sent _ | counted => 1
  | _ => 0

/-- The charge a dispatcher was given is the size of its packets. -/
def Dispatch.Sized : Dispatch → Prop
  | locked packets bytes | admitted packets bytes => bytes = total packets
  | _ => True

namespace EspQueue

/-- What holds between any two moves. -/
structure Accounted (q : EspQueue) : Prop where
  order : ∃ received, q.accepted = received ++ q.espCh
  tickets : q.accepted.map (·.ticket) = (List.range q.accepted.length).map UInt64.ofNat
  next : q.espTicket + UInt64.ofNat q.dispatch.ticketed = UInt64.ofNat q.accepted.length
  sizes : ∀ batch ∈ q.accepted, batch.bytes = total batch.packets
  sized : q.dispatch.Sized
  books : q.espQueued + q.dispatch.uncounted = charge q.espCh + charge q.taking
  room : q.espQueued + q.dispatch.reserved ≤ espQueueBytes
  fits : q.dispatch.reserved ≤ espQueueBytes
  bound : charge q.espCh ≤ espQueueBytes

namespace QueueAux

variable {q : EspQueue}

theorem charge_cons (b : EspBatch) (l : List EspBatch) : charge (b :: l) = b.bytes + charge l := rfl

theorem charge_snoc (l : List EspBatch) (b : EspBatch) : charge (l ++ [b]) = charge l + b.bytes := by
  induction l with
  | nil => exact Nat.add_comm _ _
  | cons x rest ih =>
    rw [List.cons_append, charge_cons, charge_cons, ih]
    omega

theorem charge_erase {b : EspBatch} {l : List EspBatch} (h : b ∈ l) : b.bytes + charge (l.erase b) = charge l := by
  induction l with
  | nil => cases h
  | cons x rest ih =>
    by_cases hx : x = b
    · rw [hx, List.erase_cons_head, charge_cons]
    · have := ih (List.mem_of_ne_of_mem (Ne.symm hx) h)
      rw [List.erase_cons_tail (by simpa using hx), charge_cons, charge_cons]
      omega

/-- Batches whose charge is the size of their packets are charged for their packets. -/
theorem charge_eq {l : List EspBatch} (h : ∀ batch ∈ l, batch.bytes = total batch.packets) :
    addUp (fun batch => total batch.packets) l = charge l := by
  induction l with
  | nil => rfl
  | cons x rest ih =>
    rw [charge_cons, ← ih fun batch hmem => h batch (List.mem_cons_of_mem _ hmem), h x List.mem_cons_self]
    rfl

/-- A batch that leaves with its ticket unused changes nothing but the lock. -/
theorem accounted_release (h : q.Accounted) (huncounted : q.dispatch.uncounted = 0) (hticketed : q.dispatch.ticketed = 0) :
    Accounted { q with dispatch := .idle } where
  order := h.order
  tickets := h.tickets
  next := by
    have := h.next
    rwa [hticketed] at this
  sizes := h.sizes
  sized := trivial
  books := by
    have := h.books
    rwa [huncounted] at this
  room := by
    have := h.room
    simp only [Dispatch.reserved]
    omega
  fits := Nat.zero_le _
  bound := h.bound

/-- The channel takes the batch of an admitted dispatcher: its ticket is the next one, and there is room for its bytes. -/
theorem accounted_send {packets : List (List UInt8)} {bytes : Nat} (h : q.Accounted) (hd : q.dispatch = .admitted packets bytes) :
    Accounted { q with
      espCh := q.espCh ++ [{ ticket := q.espTicket, packets := packets, bytes := bytes }]
      dispatch := .sent bytes
      accepted := q.accepted ++ [{ ticket := q.espTicket, packets := packets, bytes := bytes }] } := by
  have hsized := h.sized
  have hnext := h.next
  have hbooks := h.books
  have hroom := h.room
  have hfits := h.fits
  simp only [hd, Dispatch.Sized, Dispatch.ticketed, Dispatch.uncounted, Dispatch.reserved] at hsized hnext hbooks hroom hfits
  have hticket : q.espTicket = UInt64.ofNat q.accepted.length := by simpa using hnext
  obtain ⟨received, hreceived⟩ := h.order
  refine ⟨⟨received, by simp [hreceived]⟩, ?_, ?_, ?_, trivial, ?_, ?_, ?_, ?_⟩
  · rw [List.map_append, h.tickets, List.length_append, List.length_singleton, List.range_succ, List.map_append, hticket]
    rfl
  · simp [Dispatch.ticketed, hticket]
  · intro batch hmem
    obtain hmem | hmem := List.mem_append.mp hmem
    · exact h.sizes batch hmem
    · obtain rfl := List.mem_singleton.mp hmem
      exact hsized
  · simp only [charge_snoc, Dispatch.uncounted]
    omega
  · exact hroom
  · exact hfits
  · simp only [charge_snoc]
    omega

/-- Every operation of a dispatcher keeps the account. -/
theorem accounted_step (h : q.Accounted) : q.step.Accounted := by
  rw [step]
  split
  · exact h
  · next packets bytes hd =>
    split
    · exact accounted_release h (by rw [hd]; rfl) (by rw [hd]; rfl)
    · next hle =>
      have hsized := h.sized
      have hnext := h.next
      have hbooks := h.books
      rw [hd] at hsized hnext hbooks
      -- nothing is sent and not added, so the budget that was read is not below zero
      have hfits : bytes ≤ espQueueBytes := by
        simp only [Dispatch.uncounted] at hbooks
        omega
      exact ⟨h.order, h.tickets, hnext, h.sizes, hsized, hbooks, by simpa [Dispatch.reserved] using hle, hfits, h.bound⟩
  · next packets bytes hd =>
    dsimp only
    split
    · exact accounted_send h hd
    · exact accounted_release h (by rw [hd]; rfl) (by rw [hd]; rfl)
  · next bytes hd =>
    have hnext := h.next
    have hbooks := h.books
    have hroom := h.room
    rw [hd] at hnext hbooks hroom
    simp only [Dispatch.uncounted, Dispatch.reserved] at hbooks hroom
    refine ⟨h.order, h.tickets, hnext, h.sizes, trivial, ?_, ?_, Nat.zero_le _, h.bound⟩
    · simpa [Dispatch.uncounted] using hbooks
    · simpa [Dispatch.reserved] using hroom
  · next hd =>
    have hnext := h.next
    have hbooks := h.books
    have hroom := h.room
    rw [hd] at hnext hbooks hroom
    refine ⟨h.order, h.tickets, ?_, h.sizes, trivial, hbooks, hroom, Nat.zero_le _, h.bound⟩
    simpa [Dispatch.ticketed] using hnext

/-- Every move keeps the account. -/
theorem accounted_apply {m : Move} (h : q.Accounted) (hen : system.enabled q m) : (system.apply q m).Accounted := by
  cases m with
  | turnAway packets => exact h
  | lock packets =>
    have hd : q.dispatch = .idle := hen
    have hnext := h.next
    have hbooks := h.books
    have hroom := h.room
    rw [hd] at hnext hbooks hroom
    exact ⟨h.order, h.tickets, hnext, h.sizes, rfl, hbooks, hroom, Nat.zero_le _, h.bound⟩
  | step => exact accounted_step h
  | receive =>
    obtain ⟨batch, rest, hch⟩ := List.exists_cons_of_ne_nil hen
    obtain ⟨received, hreceived⟩ := h.order
    have hbooks := h.books
    have hbound := h.bound
    rw [hch] at hreceived hbooks hbound
    rw [charge_cons] at hbooks hbound
    refine ⟨⟨received ++ [batch], ?_⟩, h.tickets, h.next, h.sizes, h.sized, ?_, h.room, h.fits, ?_⟩
    · simp [system, hreceived, hch]
    · simp only [system, hch, List.tail_cons, List.head?_cons, Option.toList_some, List.singleton_append, charge_cons]
      omega
    · simp only [system, hch, List.tail_cons]
      omega
  | take batch =>
    have hmem : batch ∈ q.taking := hen
    have hbooks := h.books
    have hroom := h.room
    have herase := charge_erase hmem
    refine ⟨h.order, h.tickets, h.next, h.sizes, h.sized, ?_, ?_, h.fits, h.bound⟩
    · simp only [system]
      omega
    · simp only [system]
      omega

theorem accounted_run (hrun : system.Run {} q) : q.Accounted :=
  hrun.invariant ⟨⟨[], rfl⟩, rfl, rfl, by simp, trivial, rfl, by decide, Nat.zero_le _, Nat.zero_le _⟩ fun _ _ => accounted_apply

end QueueAux

open QueueAux

/-- In every run of dispatchers and receivers: the channel holds the last batches accepted, in the order of their dispatch, and the tickets
of those are the numbers from zero on, one after the other; a batch that is dropped consumes none, so that whenever nobody holds the lock
the next ticket is the number of batches accepted; the packets in the channel never exceed the byte limit; when no dispatch and no take
is half done, `espQueued` is the bytes of the packets in the channel; and it never leaves the range of the limit in either direction. -/
theorem queue_gapless {q : EspQueue} (hrun : system.Run {} q) :
    (∃ received, q.accepted = received ++ q.espCh) ∧
      (∀ i batch, q.accepted[i]? = some batch → batch.ticket = UInt64.ofNat i) ∧
      (q.dispatch = .idle → q.espTicket = UInt64.ofNat q.accepted.length) ∧
      addUp (fun batch => total batch.packets) q.espCh ≤ espQueueBytes ∧
      (q.dispatch = .idle → q.taking = [] → q.espQueued = addUp (fun batch => total batch.packets) q.espCh) ∧
      -(espQueueBytes : Int) ≤ q.espQueued ∧ q.espQueued ≤ espQueueBytes := by
  have h := accounted_run hrun
  have hbooks := h.books
  have hroom := h.room
  have hsum : addUp (fun batch => total batch.packets) q.espCh = charge q.espCh := by
    obtain ⟨received, hreceived⟩ := h.order
    exact charge_eq fun batch hmem => h.sizes batch (by simp [hreceived, hmem])
  refine ⟨h.order, fun i batch hi => ?_, fun hd => ?_, hsum ▸ h.bound, fun hd ht => ?_, ?_, by omega⟩
  · have := congrArg (·[i]?) h.tickets
    obtain ⟨hlt, rfl⟩ := List.getElem?_eq_some_iff.mp hi
    simpa [hlt] using this
  · have hnext := h.next
    rw [hd] at hnext
    simpa [Dispatch.ticketed] using hnext
  · rw [hd, ht] at hbooks
    simpa [Dispatch.uncounted, hsum, show charge [] = 0 from rfl] using hbooks
  · have : q.dispatch.uncounted ≤ q.dispatch.reserved := by cases q.dispatch <;> simp [Dispatch.uncounted, Dispatch.reserved]
    have := h.fits
    omega

/-- A batch taken between its send and the addition, and a second one dispatched after it. -/
def overtaken : List Move :=
  [.lock [[1, 2, 3]], .step, .step, .receive, .take ⟨0, [[1, 2, 3]], 3⟩, .step, .step, .lock [[4]], .step, .step, .step, .step]

theorem queue_gapless_overtaken : ∃ q, system.Run {} q ∧ (q.espCh = [⟨1, [[4]], 1⟩] ∧ q.dispatch = .idle ∧ q.taking = []) ∧
    q.espQueued = addUp (fun batch => total batch.packets) q.espCh := by
  obtain ⟨q, hrun, hq⟩ : ∃ q, system.Run {} q ∧ (q.espCh = [⟨1, [[4]], 1⟩] ∧ q.dispatch = .idle ∧ q.taking = []) :=
    Moves.System.exists_run overtaken (by decide)
  exact ⟨q, hrun, hq, (queue_gapless hrun).2.2.2.2.1 hq.2.1 hq.2.2⟩

end EspQueue
end RanetLite.Transport
