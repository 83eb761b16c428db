import RanetLite.Lemmas.SadrMemory
import RanetLite.Theorems.Sadr

/-!
# The shape of the trie, its snapshots and its routes

What `All` reports for a trie is `Trie.routes`. Where every destination that has entries is a prefix of the trie's family (`Named`), that is
each entry of each destination once (`mem_routes`, `nodup_routes`); and a walk from a root reports it whatever calls are made meanwhile
(`walk_eq`), since a call keeps what was allocated.
-/

namespace RanetLite.Sadr

open Netip BitPrefix TrieAux SourcesAux RefineAux Memory

variable {V : Type}

/-- A condition on the entries of every node. -/
def Trie.Each (P : List (SrcEntry V) → Prop) : Trie V → Prop
  | .nil => True
  | .node _ _ srcs child => P srcs ∧ ∀ b, (child b).Each P

/-- The routes of a trie, those of a node before those of its children. -/
def Trie.routes (ipv4 : Bool) : Trie V → List (Route V)
  | .nil => []
  | .node address prefixLen srcs child =>
    nodeRoutes ipv4 address prefixLen srcs ++ ((child false).routes ipv4 ++ (child true).routes ipv4)

/-- The routes of a table. -/
def Table.routes (t : Table V) : List (Route V) := t.ipv4.routes true ++ t.ipv6.routes false

/-- No source twice, longest first, and an entry without a source last. -/
structure Sorted (srcs : List (SrcEntry V)) : Prop where
  unique : (srcs.map (·.src)).Nodup
  longest : srcs.Pairwise (fun e e' => e'.src.bits ≤ e.src.bits)
  last : ∀ e ∈ srcs.dropLast, e.src.isValid = true

/-- A destination of a family, by its address and length on the 128-bit form. -/
structure Names (ipv4 : Bool) (a : BitVec 128) (l : Nat) (dst : Prefix) : Prop where
  valid : dst.isValid = true
  family : dst.ip.is4 = ipv4
  address : dst.ip.as16 = a
  length : dst.len16 = l

/-- Every destination with entries is one of the family. -/
def Named (ipv4 : Bool) (t : Trie V) : Prop := ∀ a l, t.find a l ≠ [] → ∃ dst, Names ipv4 a l dst

namespace ShapeAux

variable {address a : BitVec 128} {p l : Nat} {srcs : List (SrcEntry V)} {child : Bool → Trie V} {ipv4 : Bool} {t : Table V}
  {live : Linear V}

/-! ### Entries and nodes -/

/-- What a node has is its own, or a child's. -/
theorem mem_find_node (under : ∀ b, (child b).Under address p b) {e : SrcEntry V} :
    e ∈ (Trie.node address p srcs child).find a l ↔ (l = p ∧ Agree p address a ∧ e ∈ srcs) ∨ ∃ b, e ∈ (child b).find a l := by
  rw [find_node under, List.mem_append, List.mem_append, Bool.exists_bool]
  refine or_congr_left ?_
  split
  · next h => exact ⟨fun he => ⟨h.1, h.2, he⟩, fun he => he.2.2⟩
  · next h => exact ⟨fun he => absurd he List.not_mem_nil, fun he => absurd ⟨he.1, he.2.1⟩ h⟩

/-- What a child holds for a destination is part of what the trie holds. -/
theorem find_child_sublist (under : ∀ b, (child b).Under address p b) (b : Bool) (a : BitVec 128) (l : Nat) :
    ((child b).find a l).Sublist ((Trie.node address p srcs child).find a l) := by
  rw [find_node under]
  cases b with
  | false => exact (List.sublist_append_left _ _).trans (List.sublist_append_right _ _)
  | true => exact (List.sublist_append_right _ _).trans (List.sublist_append_right _ _)

/-- The children of an ordered node are ordered. -/
theorem ordered_child (under : ∀ b, (child b).Under address p b) (h : ∀ a l, Ordered ((Trie.node address p srcs child).find a l))
    (b : Bool) (a : BitVec 128) (l : Nat) : Ordered ((child b).find a l) := (h a l).sublist (find_child_sublist under b a l)

/-- The children of a named node are named. -/
theorem named_child (under : ∀ b, (child b).Under address p b) (h : Named ipv4 (Trie.node address p srcs child)) (b : Bool) :
    Named ipv4 (child b) := by
  intro a l hne
  obtain ⟨e, he⟩ := List.exists_mem_of_ne_nil _ hne
  exact h a l (List.ne_nil_of_mem ((find_child_sublist under b a l).subset he))

/-- Ordered sources are sorted. -/
theorem sorted_of_ordered (h : Ordered srcs) : Sorted srcs where
  unique := h.nodup
  longest := h.sorted
  last := by
    intro e he
    by_contra hinvalid
    have hinvalid : e.src.isValid = false := by simpa using hinvalid
    have hne : srcs ≠ [] := by
      rintro rfl
      cases he
    -- an entry before the last that has no source leaves the last one without a source too
    have hsplit := List.dropLast_append_getLast hne
    have hbits : (srcs.getLast hne).src.bits ≤ e.src.bits := by
      have := h.sorted
      rw [← hsplit, List.pairwise_append] at this
      exact this.2.2 e he _ List.mem_cons_self
    have heq : e.src = (srcs.getLast hne).src := by
      refine LookupAux.invalid_unique hinvalid (h.masked e ((List.dropLast_sublist _).subset he)) (h.masked _ (List.getLast_mem hne)) ?_
      exact le_antisymm (Answers.bits_of_invalid hinvalid _) hbits
    have hnodup := h.nodup
    rw [← hsplit, List.map_append, List.nodup_append] at hnodup
    exact hnodup.2.2 e.src (List.mem_map_of_mem he) _ (List.mem_map_of_mem List.mem_cons_self) heq

/-- What holds of ordered sources holds at every node. -/
theorem each_of_ordered {P : List (SrcEntry V) → Prop} (hP : ∀ srcs, Ordered srcs → P srcs) {t : Trie V} (hs : t.Shape)
    (h : ∀ a l, Ordered (t.find a l)) : t.Each P := by
  induction hs with
  | nil => trivial
  | @node address p srcs child len sub under full ih =>
    have hself := h address p
    rw [find_self (Agree.refl _ _)] at hself
    exact ⟨hP srcs hself, fun b => ih b (ordered_child under h b)⟩

/-! ### Routes -/

/-- A mapped address unmaps to its own. -/
theorem unmap_mapped (w : BitVec 32) : (Addr.v6 (Addr.mapped w) "").unmap = .v4 w := by
  have hwidth : (Addr.mapped w).setWidth 32 = w := by
    apply BitVec.eq_of_getLsbD_eq
    intro i hi
    rw [BitVec.getLsbD_setWidth, Addr.mapped, BitVec.getLsbD_append, if_pos hi, decide_eq_true hi, Bool.true_and]
  have hmapped : (Addr.v6 (Addr.mapped w) "").is4In6 = true :=
    (Addr.is4In6_iff _).mpr ⟨rfl, ((Addr.agree_mapped w 0).mpr (fun i hi => absurd hi (Nat.not_lt_zero i)) : Agree (0 + 96) _ _)⟩
  rw [Addr.unmap, if_pos hmapped, hwidth]

/-- The destination reported for a node is the one its address and length name. -/
theorem nodePrefix_eq {dst : Prefix} (h : Names ipv4 a l dst) : nodePrefix ipv4 a l = dst.masked := by
  obtain ⟨hv, rfl, rfl, rfl⟩ := h
  have hself := prefixFrom_self hv
  have hbits := Prefix.bits_nonneg hv
  rw [nodePrefix, Prefix.len16]
  cases hip : dst.ip with
  | zero => exact absurd hip (Prefix.addr_ne_zero hv)
  | v4 w =>
    rw [hip] at hself
    simp only [Addr.is4, Addr.as16, Addr.bitLen, if_true, unmap_mapped]
    rw [show ((dst.bits.toNat + (128 - 32) : Nat) : Int) - 96 = dst.bits by omega, hself]
  | v6 w z =>
    have hz : z = "" := by simpa [hip, Addr.zone] using dst.noZone
    rw [hip, hz] at hself
    simp only [Addr.is4, Addr.as16, Addr.bitLen, Bool.false_eq_true, if_false, Nat.sub_self, Nat.add_zero]
    rw [hbits, hself]

/-- Two destinations of one family mask to the same one when they have one length and agree up to it. -/
theorem masked_eq_iff {a' : BitVec 128} {l' : Nat} {dst dst' : Prefix} (h : Names ipv4 a l dst) (h' : Names ipv4 a' l' dst') :
    dst.masked = dst'.masked ↔ l = l' ∧ Agree l a a' := by
  obtain ⟨hv, hf, rfl, rfl⟩ := h
  obtain ⟨hv', hf', rfl, rfl⟩ := h'
  have hbl : dst.ip.bitLen = dst'.ip.bitLen := by
    rw [Addr.bitLen_of_ne_zero (Prefix.addr_ne_zero hv), Addr.bitLen_of_ne_zero (Prefix.addr_ne_zero hv'), hf, hf']
  have hbits : dst.bits = dst'.bits ↔ dst.len16 = dst'.len16 := by
    rw [Prefix.len16, Prefix.len16, hbl, ← Prefix.bits_nonneg hv, ← Prefix.bits_nonneg hv']
    omega
  rw [Prefix.masked_eq_masked_iff hv hv', hbits]
  exact ⟨fun h => h.2, fun h => ⟨hbl, h⟩⟩

/-- A route is reported exactly when its entry is held for its destination. -/
theorem mem_routes {ipv4 : Bool} {t : Trie V} (hs : t.Shape) (hn : Named ipv4 t) {r : Route V} : r ∈ t.routes ipv4 ↔
    ∃ a l dst, Names ipv4 a l dst ∧ r.destination = dst.masked ∧ (⟨r.source, r.value⟩ : SrcEntry V) ∈ t.find a l := by
  induction hs with
  | nil => simp [Trie.routes, Trie.find]
  | @node address p srcs child len sub under full ih =>
    rw [Trie.routes, List.mem_append, List.mem_append, ih false (named_child under hn false), ih true (named_child under hn true)]
    constructor
    · rintro (hr | ⟨a, l, dst, hdst, hd, he⟩ | ⟨a, l, dst, hdst, hd, he⟩)
      · obtain ⟨e, he, rfl⟩ := List.mem_map.mp hr
        have hfind : e ∈ (Trie.node address p srcs child).find address p := by rwa [find_self (Agree.refl _ _)]
        obtain ⟨dst, hdst⟩ := hn address p (List.ne_nil_of_mem hfind)
        exact ⟨address, p, dst, hdst, nodePrefix_eq hdst, hfind⟩
      · exact ⟨a, l, dst, hdst, hd, (mem_find_node under).mpr (.inr ⟨false, he⟩)⟩
      · exact ⟨a, l, dst, hdst, hd, (mem_find_node under).mpr (.inr ⟨true, he⟩)⟩
    · rintro ⟨a, l, dst, hdst, hd, he⟩
      obtain ⟨rfl, hag, hsrc⟩ | ⟨b, hb⟩ := (mem_find_node under).mp he
      · have hfind : (Trie.node address l srcs child).find address l ≠ [] := by
          rw [find_self (Agree.refl _ _)]
          exact List.ne_nil_of_mem hsrc
        obtain ⟨dst', hdst'⟩ := hn address l hfind
        refine .inl (List.mem_map.mpr ⟨_, hsrc, ?_⟩)
        rw [nodePrefix_eq hdst', (masked_eq_iff hdst' hdst).mpr ⟨rfl, hag⟩, ← hd]
      · cases b with
        | false => exact .inr (.inl ⟨a, l, dst, hdst, hd, hb⟩)
        | true => exact .inr (.inr ⟨a, l, dst, hdst, hd, hb⟩)

/-- No pair of a source and a destination is reported twice. -/
theorem nodup_routes {t : Trie V} (hs : t.Shape) (hn : Named ipv4 t) (ho : ∀ a l, Ordered (t.find a l)) :
    ((t.routes ipv4).map fun r => (r.source, r.destination)).Nodup := by
  induction hs with
  | nil => exact List.nodup_nil
  | @node address p srcs child len sub under full ih =>
    have hkid : ∀ b, ∀ r ∈ (child b).routes ipv4, ∃ a l dst, Names ipv4 a l dst ∧ r.destination = dst.masked ∧
        p < l ∧ Agree p address a ∧ branch a p = b := by
      intro b r hr
      obtain ⟨a, l, dst, hdst, hd, he⟩ := (mem_routes (sub b) (named_child under hn b)).mp hr
      exact ⟨a, l, dst, hdst, hd, find_under (under b) (List.ne_nil_of_mem he)⟩
    have hself := ho address p
    rw [find_self (Agree.refl _ _)] at hself
    rw [Trie.routes, List.map_append, List.map_append, List.nodup_append, List.nodup_append]
    refine ⟨?_, ⟨ih false (named_child under hn false) (ordered_child under ho false),
      ih true (named_child under hn true) (ordered_child under ho true), ?_⟩, ?_⟩
    · rw [nodeRoutes, List.map_map]
      refine List.Nodup.of_map Prod.fst ?_
      rw [List.map_map]
      exact hself.nodup
    · -- the children lie on different sides of the node
      rintro x hx y hy rfl
      obtain ⟨r, hr, rfl⟩ := List.mem_map.mp hx
      obtain ⟨r', hr', heq⟩ := List.mem_map.mp hy
      obtain ⟨a, l, dst, hdst, hd, hlt, -, hbranch⟩ := hkid false r hr
      obtain ⟨a', l', dst', hdst', hd', -, -, hbranch'⟩ := hkid true r' hr'
      have hmask : dst.masked = dst'.masked := by rw [← hd, ← hd', ← (Prod.mk.inj heq).2]
      have hag := ((masked_eq_iff hdst hdst').mp hmask).2 p hlt
      rw [branch] at hbranch hbranch'
      exact absurd (hbranch.symm.trans (hag.trans hbranch')) (by decide)
    · -- a child's destinations are longer than the node's
      rintro x hx y hy rfl
      obtain ⟨r, hr, rfl⟩ := List.mem_map.mp hx
      obtain ⟨e, he, rfl⟩ := List.mem_map.mp hr
      rw [← List.map_append] at hy
      obtain ⟨r', hr', heq⟩ := List.mem_map.mp hy
      obtain ⟨b, hr'⟩ : ∃ b, r' ∈ (child b).routes ipv4 := (List.mem_append.mp hr').elim (fun h => ⟨false, h⟩) fun h => ⟨true, h⟩
      obtain ⟨a, l, dst, hdst, hd, hlt, -⟩ := hkid b r' hr'
      obtain ⟨dst', hdst'⟩ := hn address p (by rw [find_self (Agree.refl _ _)]; exact List.ne_nil_of_mem he)
      have hmask : dst'.masked = dst.masked := by rw [← nodePrefix_eq hdst', ← hd, (Prod.mk.inj heq).2]
      exact absurd ((masked_eq_iff hdst' hdst).mp hmask).1 (by omega)

/-! ### The families -/

/-- A destination with entries in the IPv4 trie is of the mapped form. -/
def Mapped (t : Table V) : Prop := ∀ a l, t.ipv4.find a l ≠ [] → Agree 96 a (Addr.mapped 0)

/-- A change keeps IPv4 under the mapped prefix. -/
theorem mapped_change (hw : t.Wf) (h : Mapped t) (src dst : Prefix) (fn : List (SrcEntry V) → List (SrcEntry V)) :
    Mapped (t.change src dst fn) := by
  rw [Table.change]
  split
  · exact h
  · split
    · next h4 =>
      have h32 : dst.bits.toNat + 96 ≤ 128 := by
        have hb := dst.bits_toNat_le
        cases hip : dst.ip <;> simp_all [Prefix.addr, Addr.is4, Addr.bitLen]
      intro a l hne
      dsimp only at hne
      rw [find_edit fn h32 hw.shape4] at hne
      split at hne
      · next hat =>
        cases hip : dst.ip with
        | v4 w =>
          have hag : Agree 96 (Addr.mapped w) a := by
            have := hat.2.mono (Nat.le_add_left 96 dst.bits.toNat)
            rwa [Prefix.addr, hip] at this
          exact hag.symm.trans ((Addr.agree_mapped w 0).mpr (fun i hi => absurd hi (Nat.not_lt_zero i)) : Agree (0 + 96) _ _)
        | zero | v6 => simp [Prefix.addr, hip, Addr.is4] at h4
      · exact h a l hne
    · exact h

/-- So does every call. -/
theorem mapped_apply [DecidableEq V] (hw : t.Wf) (h : Mapped t) (op : Op V) : Mapped (t.apply op) := by
  cases op with
  | set src dst value => exact mapped_change hw h _ _ _
  | remove src dst => exact mapped_change hw h _ _ _
  | removeValue value =>
    intro a l hne
    refine h a l fun hnil => hne ?_
    rw [Table.apply, Table.removeValue, find_removeValue value hw.shape4, hnil, List.filter_nil]

/-- An address under the mapped prefix is mapped. -/
theorem mapped_setWidth (h : Agree 96 a (Addr.mapped 0)) : Addr.mapped (a.setWidth 32) = a := by
  apply BitVec.eq_of_getMsbD_eq
  intro i hi
  rw [Addr.getMsbD_mapped]
  split
  · next hlt => rw [h i hlt, Addr.getMsbD_mapped, if_pos hlt]
  · rw [BitVec.getMsbD_setWidth]
    simp only [show i - 96 + 128 - 32 = i by omega]
    simp

/-- The IPv4 trie names IPv4 prefixes. -/
theorem named_ipv4 (hw : t.Wf) (h : Mapped t) : Named true t.ipv4 := by
  intro a l hne
  have hlong : 96 ≤ l := by
    by_contra hlt
    exact hne (hw.long4 a l (by omega))
  have hle : l ≤ 128 := by
    by_contra hlt
    exact hne (find_eq_nil_of_length hw.shape4 (by omega))
  obtain ⟨hip, hv, hbits⟩ := @prefixFrom_valid (.v4 (a.setWidth 32)) ((l - 96 : Nat) : Int) (by simp) rfl (by omega)
    (by simp only [Addr.bitLen]; omega)
  refine ⟨_, hv, by rw [hip]; rfl, by rw [hip]; exact mapped_setWidth (h a l hne), ?_⟩
  rw [Prefix.len16, hbits, hip]
  simp only [Addr.bitLen]
  omega

/-- The IPv6 trie names IPv6 prefixes. -/
theorem named_ipv6 (hw : t.Wf) : Named false t.ipv6 := by
  intro a l hne
  have hle : l ≤ 128 := by
    by_contra hlt
    exact hne (find_eq_nil_of_length hw.shape6 (by omega))
  obtain ⟨hip, hv, hbits⟩ := @prefixFrom_valid (.v6 a "") (l : Int) (by simp) rfl (by omega) (by simp only [Addr.bitLen]; omega)
  refine ⟨_, hv, by rw [hip]; rfl, by rw [hip]; rfl, ?_⟩
  rw [Prefix.len16, hbits, hip]
  simp only [Addr.bitLen]
  omega

/-- The routes of a table are the live ones, each once. -/
theorem routes_of_refines (h : Refines t live) (hm : Mapped t) :
    (t.routes.map fun r => (r.source, r.destination)).Nodup ∧ ∀ r, r ∈ t.routes ↔ r ∈ live := by
  have h4 := @mem_routes _ true t.ipv4 h.wf.shape4 (named_ipv4 h.wf hm)
  have h6 := @mem_routes _ false t.ipv6 h.wf.shape6 (named_ipv6 h.wf)
  have hroot : ∀ {ipv4 a l dst}, Names ipv4 a l dst → t.entries dst = (if ipv4 then t.ipv4 else t.ipv6).find a l := by
    rintro ipv4 a l dst ⟨-, rfl, rfl, rfl⟩
    rfl
  constructor
  · rw [Table.routes, List.map_append, List.nodup_append]
    refine ⟨nodup_routes h.wf.shape4 (named_ipv4 h.wf hm) h.wf.ordered4, nodup_routes h.wf.shape6 (named_ipv6 h.wf) h.wf.ordered6, ?_⟩
    rintro x hx y hy rfl
    obtain ⟨r, hr, rfl⟩ := List.mem_map.mp hx
    obtain ⟨r', hr', heq⟩ := List.mem_map.mp hy
    obtain ⟨a, l, dst, hdst, hd, -⟩ := h4.mp hr
    obtain ⟨a', l', dst', hdst', hd', -⟩ := h6.mp hr'
    have hmask : dst.masked = dst'.masked := by rw [← hd, ← hd', ← (Prod.mk.inj heq).2]
    have hbl := ((Prefix.masked_eq_masked_iff hdst.valid hdst'.valid).mp hmask).1
    exact absurd (hdst.family.symm.trans ((Addr.is4_eq_of_bitLen hbl).trans hdst'.family)) (by decide)
  · intro r
    rw [Table.routes, List.mem_append]
    constructor
    · rintro (hr | hr)
      · obtain ⟨a, l, dst, hdst, hd, he⟩ := h4.mp hr
        have := (h.live dst hdst.valid _).mp (by rw [hroot hdst]; exact he)
        rwa [← hd] at this
      · obtain ⟨a, l, dst, hdst, hd, he⟩ := h6.mp hr
        have := (h.live dst hdst.valid _).mp (by rw [hroot hdst]; exact he)
        rwa [← hd] at this
    · intro hr
      obtain ⟨hv, hmasked⟩ := h.canonical r hr
      have he := (h.live r.destination hv ⟨r.source, r.value⟩).mpr (by rwa [hmasked])
      have hdst : Names r.destination.ip.is4 r.destination.ip.as16 r.destination.len16 r.destination := ⟨hv, rfl, rfl, rfl⟩
      rw [hroot hdst] at he
      cases hfamily : r.destination.ip.is4 with
      | true =>
        rw [hfamily] at hdst he
        exact .inl (h4.mpr ⟨_, _, _, hdst, hmasked.symm, he⟩)
      | false =>
        rw [hfamily] at hdst he
        exact .inr (h6.mpr ⟨_, _, _, hdst, hmasked.symm, he⟩)

/-! ### Walks -/

section Walks

variable {σ : Type} {memory : σ → Memory V} {yield : Route V → σ → σ × Bool} {Q : σ → Prop}

/-- Feeding two lists one after the other. -/
theorem feed_append (a b : List (Route V)) (x : σ) :
    feed yield (a ++ b) x = if (feed yield a x).2 then feed yield b (feed yield a x).1 else feed yield a x := by
  induction a generalizing x with
  | nil => rfl
  | cons r rest ih =>
    rw [List.cons_append, feed, feed]
    split
    · exact ih _
    · rfl

/-- What each call of the consumer keeps, the feed keeps. -/
theorem keeps_feed (hQ : ∀ r x, Q x → (memory x).Keeps (memory (yield r x).1) ∧ Q (yield r x).1) (routes : List (Route V)) {x : σ}
    (hx : Q x) : (memory x).Keeps (memory (feed yield routes x).1) ∧ Q (feed yield routes x).1 := by
  induction routes generalizing x with
  | nil => exact ⟨Keeps.refl _, hx⟩
  | cons r rest ih =>
    obtain ⟨hk, hnext⟩ := hQ r x hx
    rw [feed]
    split
    · exact ⟨hk.trans (ih hnext).1, (ih hnext).2⟩
    · exact ⟨hk, hnext⟩

/-- A walk reports the routes of the trie its root leads to, if what is done meanwhile keeps what was allocated. -/
theorem walk_eq (hQ : ∀ r x, Q x → (memory x).Keeps (memory (yield r x).1) ∧ Q (yield r x).1) (ipv4 : Bool) {t : Trie V} {fuel : Nat}
    {p : Ptr} {x : σ} (hx : Q x) (h : (memory x).Leads p t) (hfuel : t.height < fuel) :
    walk memory yield ipv4 fuel p x = some (feed yield (t.routes ipv4) x) := by
  induction t generalizing fuel p x with
  | nil =>
    obtain ⟨k, rfl⟩ := Nat.exists_eq_add_of_lt hfuel
    obtain rfl : p = none := h
    rfl
  | node address prefixLen srcs child ih =>
    obtain ⟨q, n, rfl, -, hn, rfl, rfl, hs, hchild⟩ := h
    obtain ⟨k, rfl⟩ := Nat.exists_eq_add_of_lt hfuel
    have hheight : ∀ b, (child b).height < (Trie.node n.address n.prefixLen srcs child).height + k := by
      intro b
      rw [Trie.height]
      cases b <;> omega
    rw [walk, Trie.routes, feed_append, feed_append]
    simp only [hn, hs, Option.bind_eq_bind, Option.bind_some]
    obtain ⟨hk, hy⟩ := keeps_feed hQ (nodeRoutes ipv4 n.address n.prefixLen srcs) hx
    generalize feed yield (nodeRoutes ipv4 n.address n.prefixLen srcs) x = y at hk hy
    obtain ⟨y, more⟩ := y
    cases more with
    | false => rfl
    | true =>
      obtain ⟨hk', hz⟩ := keeps_feed hQ ((child false).routes ipv4) hy
      simp only [Bool.not_true, Bool.false_eq_true, if_false, if_true, ih false hy ((hchild false).keeps hk fun _ => id) (hheight false),
        Option.bind_some]
      generalize feed yield ((child false).routes ipv4) y = z at hk' hz
      obtain ⟨z, more⟩ := z
      cases more with
      | false => rfl
      | true => exact ih true hz ((hchild true).keeps (hk.trans hk') fun _ => id) (hheight true)

end Walks

/-! ### Runs -/

/-- A table published, the tries it leads to and the routes that are live. -/
structure Tied (s : Published V) (t : Table V) (live : Linear V) : Prop where
  shown : s.Shows t
  refines : Refines t live
  mapped : Mapped t

/-- The empty states are tied. -/
theorem tied_empty : Tied ({} : Published V) {} [] := ⟨⟨rfl, rfl⟩, refines_empty, fun _ _ hne => absurd rfl hne⟩

variable [DecidableEq V]

/-- They stay tied over every call. -/
theorem tied_run {s : Published V} (h : Tied s t live) (ops : List (Op V)) :
    ∃ s', s.run ops = some s' ∧ s.memory.Keeps s'.memory ∧ Tied s' (ops.foldl Table.apply t) (ops.foldl Linear.apply live) := by
  induction ops generalizing s t live with
  | nil => exact ⟨s, rfl, Keeps.refl _, h⟩
  | cons op rest ih =>
    obtain ⟨s1, happly, hk, hshown⟩ := Published.shows_apply h.shown h.refines.wf.shape4 h.refines.wf.shape6 op
    obtain ⟨s2, hrun, hk', htied⟩ := ih ⟨hshown, refines_apply h.refines op, mapped_apply h.refines.wf h.mapped op⟩
    refine ⟨s2, ?_, hk.trans hk', htied⟩
    rw [Published.run, List.foldlM_cons, happly]
    exact hrun

/-- `All` on a snapshot of the roots, when only calls are made between the snapshot and the end of the walk. -/
theorem all_eq {s : Published V} (h : Tied s t live) {σ : Type} {table : σ → Published V} {yield : Route V → σ → σ × Bool} {x : σ}
    (hstart : ∃ later, s.run later = some (table x)) (hcalls : ∀ r x, ∃ later, (table x).run later = some (table (yield r x).1)) :
    Published.all table yield s.ipv4 s.ipv6 x = some (feed yield t.routes x) := by
  have hQ : ∀ r x, (∃ t live, Tied (table x) t live) →
      (table x).memory.Keeps (table (yield r x).1).memory ∧ ∃ t live, Tied (table (yield r x).1) t live := by
    rintro r x ⟨t, live, htied⟩
    obtain ⟨later, hlater⟩ := hcalls r x
    obtain ⟨s', hrun, hk, htied'⟩ := tied_run htied later
    obtain rfl := Option.some.inj (hrun.symm.trans hlater)
    exact ⟨hk, _, _, htied'⟩
  obtain ⟨later, hlater⟩ := hstart
  obtain ⟨s', hrun, hk, htied⟩ := tied_run h later
  obtain rfl := Option.some.inj (hrun.symm.trans hlater)
  obtain ⟨hk', hnext⟩ := keeps_feed hQ (t.ipv4.routes true) ⟨_, _, htied⟩
  rw [Published.all, Table.routes, feed_append]
  simp only [walk_eq hQ true ⟨_, _, htied⟩ (h.shown.ipv4.keeps hk) (height_lt_depth h.refines.wf.shape4), Option.bind_eq_bind,
    Option.bind_some]
  generalize feed yield (t.ipv4.routes true) x = y at hk' hnext
  obtain ⟨y, more⟩ := y
  cases more with
  | false => rfl
  | true => exact walk_eq hQ false hnext (h.shown.ipv6.keeps (hk.trans hk')) (height_lt_depth h.refines.wf.shape6)

end ShapeAux

open ShapeAux

variable [DecidableEq V]

/-- After any sequence of calls: in both tries a child's prefix extends its parent's on its own side and a node without entries has two
children, and every node's sources are unique and sorted longest first, with the sourceless one last. The calls in memory return and publish
these tries; whatever calls come later, the roots published now lead to the same tries; and `All`, on a snapshot of these roots and with any
calls made before and during the iteration, reports every live pair of a source and a masked destination once. -/
theorem trie_kept (ops : List (Op V)) :
    (∀ trie ∈ [(Table.run ops).ipv4, (Table.run ops).ipv6], trie.Shape ∧ trie.Each Sorted) ∧
      ∃ s, Published.run {} ops = some s ∧ s.Shows (Table.run ops) ∧
        (∀ later, ∃ s', s.run later = some s' ∧ s'.memory.Leads s.ipv4 (Table.run ops).ipv4 ∧
          s'.memory.Leads s.ipv6 (Table.run ops).ipv6) ∧
        ∃ routes : List (Route V), (routes.map fun r => (r.source, r.destination)).Nodup ∧ (∀ r, r ∈ routes ↔ r ∈ Linear.run ops) ∧
          ∀ (σ : Type) (table : σ → Published V) (yield : Route V → σ → σ × Bool) (x : σ),
            (∃ later, s.run later = some (table x)) → (∀ r x, ∃ later, (table x).run later = some (table (yield r x).1)) →
            Published.all table yield s.ipv4 s.ipv6 x = some (feed yield routes x) := by
  obtain ⟨s, hrun, -, h⟩ := tied_run tied_empty ops
  have hw := h.refines.wf
  have heach : ∀ trie ∈ [(Table.run ops).ipv4, (Table.run ops).ipv6], trie.Shape ∧ trie.Each Sorted := by
    intro trie htrie
    simp only [List.mem_cons, List.not_mem_nil, or_false] at htrie
    obtain rfl | rfl := htrie
    · exact ⟨hw.shape4, each_of_ordered (fun _ => sorted_of_ordered) hw.shape4 hw.ordered4⟩
    · exact ⟨hw.shape6, each_of_ordered (fun _ => sorted_of_ordered) hw.shape6 hw.ordered6⟩
  refine ⟨heach, s, hrun, h.shown, fun later => ?_, _, (routes_of_refines h.refines h.mapped).1, (routes_of_refines h.refines h.mapped).2,
    fun σ table yield x hstart hcalls => all_eq h hstart hcalls⟩
  obtain ⟨s', hlater, hk, -⟩ := tied_run h later
  exact ⟨s', hlater, h.shown.ipv4.keeps hk, h.shown.ipv6.keeps hk⟩

/-- The lookup of `Lookup` in the index of a node. -/
def probe (byLen : List (SrcIndex V)) (src : Addr) : Option V :=
  byLen.findSome? (fun group => group.m (prefixFrom src group.bits).masked)

namespace ShapeAux

omit [DecidableEq V]

/-- A zone of the destination does not matter. -/
theorem lookup_withoutZone (t : Table V) (src dst : Addr) : t.lookup src dst.withoutZone = t.lookup src dst := by cases dst <;> rfl

/-- A zoned address is in no source. -/
theorem scan_zoned {srcs : List (SrcEntry V)} {src : Addr} (hz : src.zone ≠ "") : scan srcs src = none := by
  rw [scan, Option.map_eq_none_iff, List.find?_eq_none]
  intro e _ hc
  exact hz (Prefix.contains_iff.mp (Bool.and_eq_true_iff.mp hc).2).2.1

/-- Masking does not make a prefix contain more. -/
theorem contains_masked {p : Prefix} {a : Addr} (h : p.contains a = false) : p.masked.contains a = false := by
  rw [← Bool.not_eq_true, Prefix.contains_iff] at h ⊢
  rintro ⟨hv, hz, hbl, hag⟩
  rw [Prefix.isValid_masked] at hv
  obtain ⟨-, -, hl, ha⟩ := Prefix.masked_spec hv
  rw [Prefix.len16_masked hv, ha] at hag
  exact h ⟨hv, hz, hbl.trans hl, (agree_keepHigh _ p.len16_le).symm.trans hag⟩

/-- A route whose source does not contain an address changes nothing of what applies to the address. -/
theorem lookup_other [DecidableEq V] (live : Linear V) {src dst : Addr} {s d : Prefix} {v : V} (hv : s.isValid = true)
    (hs : s.contains src = false) : (live.apply (.set s d v)).lookup src dst = live.lookup src dst := by
  have hother : ∀ r : Route V, r.source = s.masked → r.applies src dst = false := by
    intro r hr
    simp [Route.applies, hr, hv, contains_masked hs]
  rw [Linear.apply]
  split
  · rw [Linear.lookup, Linear.lookup, List.filter_cons_of_neg (by simp [hother ⟨s.masked, d.masked, v⟩ rfl]), Linear.without, List.filter_filter]
    congr 3
    funext r
    by_cases hr : r.source = s.masked
    · simp [hother r hr]
    · simp [hr]
  · rfl

end ShapeAux

/-- In every node of a table, the index answers for any source address what the scan answers for the address without its zone; so it agrees
with the scan exactly for an unzoned address and for one that no source contains without its zone. For an unzoned source address, a lookup
does not depend on the other sources of a destination. -/
theorem index_agrees (ops : List (Op V)) (src : Addr) :
    (∀ trie ∈ [(Table.run ops).ipv4, (Table.run ops).ipv6], trie.Each fun srcs => ∀ byLen, indexSrcs srcs = some byLen →
      probe byLen src = scan srcs src.withoutZone ∧
        (probe byLen src = scan srcs src ↔ src.zone = "" ∨ scan srcs src.withoutZone = none)) ∧
      (src.zone = "" → ∀ dst extra, (∀ op ∈ extra, ∃ s d v, op = Op.set s d v ∧ s.isValid = true ∧ s.contains src = false) →
        (Table.run (ops ++ extra)).lookup src dst = (Table.run ops).lookup src dst) := by
  have href : ∀ ops : List (Op V), Refines (Table.run ops) (Linear.run ops) := refines_foldl refines_empty
  have hnode : ∀ srcs : List (SrcEntry V), Ordered srcs → ∀ byLen, indexSrcs srcs = some byLen →
      probe byLen src = scan srcs src.withoutZone ∧
        (probe byLen src = scan srcs src ↔ src.zone = "" ∨ scan srcs src.withoutZone = none) := by
    intro srcs ho byLen hindex
    have hprobe : probe byLen src = scan srcs src.withoutZone := indexed_eq_scan ho hindex
    refine ⟨hprobe, ?_⟩
    rw [hprobe]
    by_cases hz : src.zone = ""
    · rw [Addr.withoutZone_of_zone hz]
      exact ⟨fun _ => .inl hz, fun _ => rfl⟩
    · rw [scan_zoned hz]
      exact ⟨.inr, fun h => h.resolve_left hz⟩
  constructor
  · intro trie htrie
    have hw := (href ops).wf
    simp only [List.mem_cons, List.not_mem_nil, or_false] at htrie
    obtain rfl | rfl := htrie
    · exact each_of_ordered hnode hw.shape4 hw.ordered4
    · exact each_of_ordered hnode hw.shape6 hw.ordered6
  · intro hz dst extra hextra
    rw [← lookup_withoutZone, ← lookup_withoutZone _ src dst, lookup_of_refines (href _) hz dst.zone_withoutZone,
      lookup_of_refines (href _) hz dst.zone_withoutZone, Linear.run, List.foldl_append]
    change (extra.foldl Linear.apply (Linear.run ops)).lookup src dst.withoutZone = _
    generalize Linear.run ops = live
    induction extra generalizing live with
    | nil => rfl
    | cons op rest ih =>
      obtain ⟨s, d, v, rfl, hv, hs⟩ := hextra op List.mem_cons_self
      rw [List.foldl_cons, ih (fun op hop => hextra op (List.mem_cons_of_mem _ hop)), lookup_other live hv hs]

/-- Three sources of one length on one destination. -/
def threeSources : List (Op Nat) :=
  [.set (prefixFrom (.v6 0xfe80#128 "") 128) (prefixFrom (.v6 0#128 "") 0) 1,
    .set (prefixFrom (.v6 2#128 "") 128) (prefixFrom (.v6 0#128 "") 0) 2,
    .set (prefixFrom (.v6 3#128 "") 128) (prefixFrom (.v6 0#128 "") 0) 3]

/-- A fourth one, which does not contain the address asked for. -/
def fourthSource : Op Nat := .set (prefixFrom (.v6 4#128 "") 128) (prefixFrom (.v6 0#128 "") 0) 4

theorem index_agrees_unzoned : (Table.run threeSources).lookup (.v6 0xfe80#128 "") (.v6 9#128 "") = some 1 ∧
    (Table.run (threeSources ++ [fourthSource])).lookup (.v6 0xfe80#128 "") (.v6 9#128 "") =
      (Table.run threeSources).lookup (.v6 0xfe80#128 "") (.v6 9#128 "") := by
  refine ⟨by decide +kernel, (index_agrees threeSources (.v6 0xfe80#128 "")).2 rfl (.v6 9#128 "") [fourthSource] fun op hop => ?_⟩
  obtain rfl := List.mem_singleton.mp hop
  exact ⟨_, _, _, rfl, by decide +kernel, by decide +kernel⟩

/-- For a zoned source address the scan of three sources finds nothing, and with a fourth source the index finds the first. -/
theorem zoned_source_found :
    (Table.run threeSources).lookup (.v6 0xfe80#128 "eth0") (.v6 9#128 "") = none ∧
      (Table.run (threeSources ++ [fourthSource])).lookup (.v6 0xfe80#128 "eth0") (.v6 9#128 "") = some 1 :=
  ⟨by decide +kernel, by decide +kernel⟩

end RanetLite.Sadr
