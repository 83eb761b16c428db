import RanetLite.Sadr.Table

/-!
# The trie as a map from destinations to entries

`Trie.find` reads the entries of one destination off a trie. An edit changes the entries of exactly one destination
(`find_edit`), removing a value filters the entries of all of them (`find_removeValue`), and the loop of a lookup answers from
the longest destination that has an answer (`lookupLoop_spec`). All of it rests on one shape invariant: a child continues its
parent's destination on its own side.
-/

namespace RanetLite.Sadr

open Netip BitPrefix

variable {V : Type} {a : BitVec 128} {l : Nat} {t : Trie V}

namespace TrieAux

variable {n : Nat}

/-- The bits of the first word. -/
theorem getMsbD_hiWord (a : BitVec 128) {i : Nat} (h : i < 64) : (hiWord a).getMsbD i = a.getMsbD i := by
  simp only [hiWord, BitVec.getMsbD_eq_getLsbD, BitVec.getLsbD_extractLsb']
  have e : 64 + (64 - 1 - i) = 128 - 1 - i := by omega
  simp [h, e, show 64 - 1 - i < 64 by omega, show i < 128 by omega]

/-- The bits of the second word. -/
theorem getMsbD_loWord (a : BitVec 128) {i : Nat} (h : i < 64) : (loWord a).getMsbD i = a.getMsbD (64 + i) := by
  simp only [loWord, BitVec.getMsbD_eq_getLsbD, BitVec.getLsbD_extractLsb']
  have e : 64 - 1 - i = 128 - 1 - (64 + i) := by omega
  simp [h, ← e, show 64 - 1 - i < 64 by omega, show 64 + i < 128 by omega]

/-- Up to 64 bits the first words decide. -/
theorem agree_hiWord (hn : n ≤ 64) (a b : BitVec 128) : Agree n (hiWord a) (hiWord b) ↔ Agree n a b := by
  refine forall_congr' fun i => imp_congr_right fun hi => ?_
  rw [getMsbD_hiWord a (by omega), getMsbD_hiWord b (by omega)]

/-- Past the first word, agreement is agreement of the first words and of a prefix of the second ones. -/
theorem agree_add_loWord (hn : n ≤ 64) (a b : BitVec 128) : Agree (64 + n) a b ↔ Agree 64 a b ∧ Agree n (loWord a) (loWord b) := by
  constructor
  · intro h
    refine ⟨h.mono (by omega), fun i hi => ?_⟩
    rw [getMsbD_loWord a (by omega), getMsbD_loWord b (by omega)]
    exact h (64 + i) (by omega)
  · rintro ⟨hhi, hlo⟩ i hi
    by_cases h : i < 64
    · exact hhi i h
    · have := hlo (i - 64) (by omega)
      rwa [getMsbD_loWord a (by omega), getMsbD_loWord b (by omega), show 64 + (i - 64) = i by omega] at this

/-- The bits before the first difference of two words agree, and that bit differs. -/
theorem leadingZeros_xor {w : Nat} (x y : BitVec w) :
    Agree (leadingZeros (x ^^^ y)) x y ∧
      (leadingZeros (x ^^^ y) < w → x.getMsbD (leadingZeros (x ^^^ y)) ≠ y.getMsbD (leadingZeros (x ^^^ y))) := by
  refine ⟨fun i hi => by simpa using getMsbD_of_lt_leadingZeros hi, fun h => ?_⟩
  simpa using getMsbD_leadingZeros h

/-- The common bits agree, and the next one differs. -/
theorem commonBits_spec (a b : BitVec 128) : commonBits a b ≤ 128 ∧ Agree (commonBits a b) a b ∧
    (commonBits a b < 128 → branch a (commonBits a b) ≠ branch b (commonBits a b)) := by
  have hhi := leadingZeros_le (hiWord a ^^^ hiWord b)
  have hlo := leadingZeros_le (loWord a ^^^ loWord b)
  obtain ⟨hagree, hdiff⟩ := leadingZeros_xor (hiWord a) (hiWord b)
  obtain ⟨lagree, ldiff⟩ := leadingZeros_xor (loWord a) (loWord b)
  have hagree' := (agree_hiWord hhi a b).mp hagree
  unfold commonBits branch
  dsimp only
  split
  · next h =>
    rw [h] at hagree' ⊢
    refine ⟨by omega, (agree_add_loWord hlo a b).mpr ⟨hagree', lagree⟩, fun hlt => ?_⟩
    rw [← getMsbD_loWord a (by omega), ← getMsbD_loWord b (by omega)]
    exact ldiff (by omega)
  · next h =>
    refine ⟨by omega, hagree', fun _ => ?_⟩
    rw [← getMsbD_hiWord a (by omega), ← getMsbD_hiWord b (by omega)]
    exact hdiff (by omega)

/-- Agreement beyond the common bits is impossible. -/
theorem le_commonBits {a b : BitVec 128} (hn : n ≤ 128) (h : Agree n a b) : n ≤ commonBits a b := by
  obtain ⟨-, -, hne⟩ := commonBits_spec a b
  by_contra hlt
  exact hne (by omega) (h _ (by omega))

/-- Words match exactly where the addresses agree. -/
theorem matchesWords_iff {address a : BitVec 128} {p : Nat} (hp : p ≤ 128) :
    matchesWords address p (hiWord a) (loWord a) = true ↔ Agree p address a := by
  unfold matchesWords
  dsimp only
  split
  · next h =>
    rw [beq_iff_eq]
    exact (ushiftRight_xor_eq_zero_iff h _ _).trans (agree_hiWord h _ _)
  · next h =>
    obtain ⟨n, rfl⟩ : ∃ n, p = 64 + n := ⟨p - 64, by omega⟩
    have hlo := ushiftRight_xor_eq_zero_iff (w := 64) (n := n) (by omega) (loWord address) (loWord a)
    have hhi := ushiftRight_xor_eq_zero_iff (w := 64) (n := 64) (by omega) (hiWord address) (hiWord a)
    rw [show 128 - (64 + n) = 64 - n by omega, Bool.and_eq_true, beq_iff_eq, beq_iff_eq, agree_add_loWord (by omega)]
    refine and_congr (Iff.trans (by simp) (hhi.trans (agree_hiWord (by omega) _ _))) hlo

end TrieAux

open TrieAux

instance {w n : Nat} (x y : BitVec w) : Decidable (Agree n x y) :=
  inferInstanceAs (Decidable (∀ i, i < n → x.getMsbD i = y.getMsbD i))

/-- The entries a trie holds for the destination made of the first `l` bits of `a`. -/
def Trie.find (a : BitVec 128) (l : Nat) : Trie V → List (SrcEntry V)
  | .nil => []
  | .node address prefixLen srcs child =>
    if l < prefixLen ∨ ¬Agree prefixLen address a then []
    else if l = prefixLen then srcs
    else find a l (child (branch a prefixLen))

/-- A subtree hangs below the first `p` bits of `address` on side `b`. -/
def Trie.Under (address : BitVec 128) (p : Nat) (b : Bool) : Trie V → Prop
  | .nil => True
  | .node address' p' _ _ => p < p' ∧ Agree p address address' ∧ branch address' p = b

/-- The shape of a path-compressed trie: lengths within the address, a child below its parent on its own side, and a node
without entries only where both children are there to branch to. -/
inductive Trie.Shape : Trie V → Prop
  | nil : Shape .nil
  | node {address : BitVec 128} {prefixLen : Nat} {srcs : List (SrcEntry V)} {child : Bool → Trie V}
      (len : prefixLen ≤ 128) (sub : ∀ b, Shape (child b)) (under : ∀ b, Under address prefixLen b (child b))
      (full : srcs = [] → ∀ b, child b ≠ .nil) : Shape (.node address prefixLen srcs child)

namespace TrieAux

variable {t : Trie V} {address a : BitVec 128} {p l : Nat} {b : Bool} {srcs : List (SrcEntry V)} {child : Bool → Trie V}

/-- Only the empty trie is nil. -/
theorem isNil_iff : t.isNil = true ↔ t = .nil := by cases t <;> simp [Trie.isNil]

/-- The empty trie has nothing. -/
@[simp] theorem find_nil (a : BitVec 128) (l : Nat) : (Trie.nil : Trie V).find a l = [] := rfl

/-- The empty trie is under every branch. -/
@[simp] theorem under_nil (address : BitVec 128) (p : Nat) (b : Bool) : (Trie.nil : Trie V).Under address p b := trivial

/-- What lies below a destination is longer than it, agrees with it, and goes its way. -/
theorem find_under (hu : t.Under address p b) (hf : t.find a l ≠ []) : p < l ∧ Agree p address a ∧ branch a p = b := by
  cases t with
  | nil => exact absurd rfl hf
  | node address' p' srcs child =>
    obtain ⟨hp, hagree, hb⟩ := hu
    by_cases hout : l < p' ∨ ¬Agree p' address' a
    · rw [Trie.find, if_pos hout] at hf
      exact absurd rfl hf
    · rw [not_or, not_not, not_lt] at hout
      refine ⟨by omega, hagree.trans (hout.2.mono (by omega)), ?_⟩
      rw [← hb]
      exact (hout.2 p hp).symm

/-- A subtrie has nothing outside its branch. -/
theorem find_eq_nil_of_under (hu : t.Under address p b) (h : ¬(p < l ∧ Agree p address a ∧ branch a p = b)) : t.find a l = [] := by
  by_contra hf
  exact h (find_under hu hf)

/-- Only the first `l` bits of an address matter to the destination of length `l`. -/
theorem find_congr {a' : BitVec 128} (h : Agree l a a') (t : Trie V) : t.find a l = t.find a' l := by
  induction t with
  | nil => rfl
  | node address p srcs child ih =>
    simp only [Trie.find]
    by_cases hl : l < p
    · rw [if_pos (Or.inl hl), if_pos (Or.inl hl)]
    · have hag : Agree p address a ↔ Agree p address a' :=
        ⟨fun h' => h'.trans (h.mono (by omega)), fun h' => h'.trans (h.mono (by omega)).symm⟩
      by_cases hlp : l = p
      · simp only [hag, hlp, if_true]
      · simp only [hag, ih, branch, h p (by omega)]

/-- Below a node the child on the address's own side answers; the side the address does not take never does. -/
theorem find_child (hp : p < l) (hag : Agree p address a) :
    (Trie.node address p srcs child).find a l = (child (branch a p)).find a l := by
  rw [Trie.find, if_neg (by simp [hag]; omega), if_neg (by omega)]

/-- A node has nothing outside its prefix. -/
theorem find_outside (h : l < p ∨ ¬Agree p address a) : (Trie.node address p srcs child).find a l = [] := by
  rw [Trie.find, if_pos h]

/-- A node has its own sources at its prefix. -/
theorem find_self (hag : Agree p address a) : (Trie.node address p srcs child).find a p = srcs := by
  rw [Trie.find, if_neg (by simp [hag]), if_pos rfl]

/-- The three ways a compacted node turns out. -/
theorem compact_cases (address : BitVec 128) (p : Nat) (srcs : List (SrcEntry V)) (child : Bool → Trie V) :
    (∃ b, srcs = [] ∧ child (!b) = .nil ∧ compact address p srcs child = child b) ∨
      ((srcs = [] → ∀ b, child b ≠ .nil) ∧ compact address p srcs child = .node address p srcs child) := by
  unfold compact
  by_cases hs : srcs = []
  · by_cases h0 : child false = .nil
    · exact .inl ⟨true, hs, h0, by simp [hs, isNil_iff.mpr h0]⟩
    · have h0' : (child false).isNil = false := by simpa [← isNil_iff] using h0
      by_cases h1 : child true = .nil
      · exact .inl ⟨false, hs, h1, by simp [hs, isNil_iff.mpr h1, h0']⟩
      · have h1' : (child true).isNil = false := by simpa [← isNil_iff] using h1
        exact .inr ⟨fun _ b => by cases b <;> assumption, by simp [h0', h1']⟩
  · exact .inr ⟨fun h => absurd h hs, by simp [hs]⟩

/-- Compacting keeps the shape. -/
theorem shape_compact (len : p ≤ 128) (sub : ∀ b, (child b).Shape) (under : ∀ b, (child b).Under address p b) :
    (compact address p srcs child).Shape := by
  obtain ⟨b, -, -, hc⟩ | ⟨full, hc⟩ := compact_cases address p srcs child
  · rw [hc]
    exact sub b
  · rw [hc]
    exact .node len sub under full

/-- What hangs below a node that hangs below a destination hangs below that destination. -/
theorem Under.trans {address' : BitVec 128} {p' : Nat} {b' : Bool} (hp : p < p') (hag : Agree p address address')
    (hb : branch address' p = b) (h : t.Under address' p' b') : t.Under address p b := by
  cases t with
  | nil => trivial
  | node address'' p'' srcs child =>
    obtain ⟨hp', hag', -⟩ := h
    exact ⟨by omega, hag.trans (hag'.mono (by omega)), (hag' p hp).symm.trans hb⟩

/-- Compacting stays under the branch. -/
theorem under_compact {address' : BitVec 128} {p' : Nat} (hu : (Trie.node address' p' srcs child).Under address p b)
    (under : ∀ b, (child b).Under address' p' b) : (compact address' p' srcs child).Under address p b := by
  obtain ⟨b', -, -, hc⟩ | ⟨-, hc⟩ := compact_cases address' p' srcs child
  · rw [hc]
    exact Under.trans hu.1 hu.2.1 hu.2.2 (under b')
  · rw [hc]
    exact hu

/-- Where an edit splits above a node: the node ends up below the split, on the side its own next bit says. -/
theorem under_split {nAddress : BitVec 128} (hlt : min (min (commonBits nAddress address) p) l < p) :
    (Trie.node nAddress p srcs child).Under address (min (min (commonBits nAddress address) p) l)
      (branch nAddress (min (min (commonBits nAddress address) p) l)) :=
  ⟨hlt, ((commonBits_spec nAddress address).2.1.mono (by omega)).symm, rfl⟩

/-- A destination that leaves a node's path above the node has no entry in it. -/
theorem find_of_split {nAddress : BitVec 128} (hp : p ≤ 128) (hlt : min (min (commonBits nAddress address) p) l < p) :
    (Trie.node nAddress p srcs child).find address l = [] := by
  by_cases hl : l < p
  · exact find_outside (.inl hl)
  · refine find_outside (.inr fun hag => ?_)
    have := le_commonBits hp hag
    omega

/-- A destination is in one place: at the node, or on one side of it. -/
theorem find_node (under : ∀ b, (child b).Under address p b) (a : BitVec 128) (l : Nat) :
    (Trie.node address p srcs child).find a l =
      (if l = p ∧ Agree p address a then srcs else []) ++ ((child false).find a l ++ (child true).find a l) := by
  have hnil : ∀ b, ¬(p < l ∧ Agree p address a ∧ branch a p = b) → (child b).find a l = [] :=
    fun b => find_eq_nil_of_under (under b)
  by_cases hout : l < p ∨ ¬Agree p address a
  · have hin : ¬(p < l ∧ Agree p address a) := fun h => hout.elim (by omega) (fun h' => h' h.2)
    rw [find_outside hout, hnil false (fun h => hin ⟨h.1, h.2.1⟩), hnil true (fun h => hin ⟨h.1, h.2.1⟩), if_neg]
    · rfl
    · exact fun h => hout.elim (by omega) (fun h' => h' h.2)
  · rw [not_or, not_not, not_lt] at hout
    obtain rfl | hlt := hout.1.eq_or_lt
    · rw [find_self hout.2, hnil false (by omega), hnil true (by omega), if_pos ⟨rfl, hout.2⟩]
      simp
    · rw [find_child hlt hout.2, if_neg (by omega), List.nil_append]
      cases hb : branch a p with
      | false => rw [hnil true (by simp [hb]), List.append_nil]
      | true => rw [hnil false (by simp [hb]), List.nil_append]

/-- Compacting loses nothing. -/
theorem find_compact (under : ∀ b, (child b).Under address p b) (a : BitVec 128) (l : Nat) :
    (compact address p srcs child).find a l = (Trie.node address p srcs child).find a l := by
  obtain ⟨b, rfl, hnil, hc⟩ | ⟨-, hc⟩ := compact_cases address p srcs child
  · rw [hc, find_node under]
    cases b <;> simp_all
  · rw [hc]

/-- A new node has its sources at its prefix alone. -/
theorem find_newTrieNode (address a : BitVec 128) (l l' : Nat) (srcs : List (SrcEntry V)) :
    (newTrieNode address l srcs).find a l' = if l' = l ∧ Agree l address a then srcs else [] := by
  rw [newTrieNode, find_node (fun _ => under_nil _ _ _)]
  simp

/-- A child replaced under its branch. -/
theorem under_update (under : ∀ b, (child b).Under address p b) (h : t.Under address p b) (b' : Bool) :
    (Function.update child b t b').Under address p b' :=
  (Function.forall_update_iff child fun b' t => t.Under address p b').2 ⟨h, fun b' _ => under b'⟩ b'

/-- A child replaced by a well-shaped one. -/
theorem shape_update (sub : ∀ b, (child b).Shape) (h : t.Shape) (b b' : Bool) : (Function.update child b t b').Shape :=
  (Function.forall_update_iff child fun _ t => t.Shape).2 ⟨h, fun b' _ => sub b'⟩ b'

/-- A split at the edited destination itself. -/
theorem find_splitAt {l' : Nat} {n : Trie V} (hu : n.Under address l b) :
    (Trie.node address l srcs (Function.update (fun _ => Trie.nil) b n)).find a l' =
      if l' = l ∧ Agree l address a then srcs else n.find a l' := by
  rw [find_node (under_update (fun _ => under_nil _ _ _) hu)]
  by_cases hat : l' = l ∧ Agree l address a
  · have hn := find_eq_nil_of_under (a := a) (l := l) hu (by omega)
    cases b <;> simp [hat, hn]
  · cases b <;> simp [hat]

/-- A split strictly above the edited destination, where the two addresses first differ. -/
theorem find_splitAbove {l' : Nat} {n : Trie V} (hu : n.Under address p b) (hp : p < l) (hb : branch address p = !b) :
    (Trie.node address p [] (Function.update (Function.update (fun _ => Trie.nil) b n) (!b)
      (newTrieNode address l srcs))).find a l' = if l' = l ∧ Agree l address a then srcs else n.find a l' := by
  have hnew : (newTrieNode address l srcs).Under address p (!b) := ⟨hp, Agree.refl _ _, hb⟩
  rw [find_node (under_update (under_update (fun _ => under_nil _ _ _) hu) hnew)]
  by_cases hat : l' = l ∧ Agree l address a
  · -- the edited destination goes the other way than the node does
    have hside : ¬branch a p = b := by
      rw [← show branch address p = branch a p from hat.2 p hp, hb]
      simp
    have hn := find_eq_nil_of_under (a := a) (l := l) hu (fun h => hside h.2.2)
    cases b <;> simp [hn, find_newTrieNode, hat]
  · cases b <;> simp [find_newTrieNode, hat]

/-- What an edit can do to a node: nothing, split above it at the destination or further up, or work at or below it. -/
theorem edit_node_cases (f : List (SrcEntry V) → List (SrcEntry V)) (address nAddress : BitVec 128) (srcs : List (SrcEntry V))
    (child : Bool → Trie V) (hl : l ≤ 128) (hp : p ≤ 128) :
    let n := Trie.node nAddress p srcs child
    (f [] = [] ∧ n.find address l = [] ∧ edit f address l n = n) ∨
    (∃ b, f [] ≠ [] ∧ n.find address l = [] ∧ n.Under address l b ∧
      edit f address l n = .node address l (f []) (Function.update (fun _ => .nil) b n)) ∨
    (∃ q b, f [] ≠ [] ∧ n.find address l = [] ∧ n.Under address q b ∧ q < l ∧ branch address q = (!b) ∧
      (∀ i, i ≤ p → i ≤ l → Agree i nAddress address → i ≤ q) ∧
      edit f address l n = .node address q []
        (Function.update (Function.update (fun _ => .nil) b n) (!b) (newTrieNode address l (f [])))) ∨
    (l = p ∧ Agree p nAddress address ∧ edit f address l n = compact nAddress p (f srcs) child) ∨
    (p < l ∧ Agree p nAddress address ∧ edit f address l n = compact nAddress p srcs
      (Function.update child (branch address p) (edit f address l (child (branch address p))))) := by
  intro n
  obtain ⟨hc128, hagree, hdiff⟩ := commonBits_spec nAddress address
  have hle : ∀ i, i ≤ 128 → Agree i nAddress address → i ≤ commonBits nAddress address := fun i => le_commonBits
  generalize hcommon : min (min (commonBits nAddress address) p) l = common
  by_cases hlt : common < p
  · have habs : n.find address l = [] := find_of_split hp (hcommon ▸ hlt)
    have hu : n.Under address common (branch nAddress common) := hcommon ▸ under_split (hcommon ▸ hlt)
    by_cases hnil : f [] = []
    · exact .inl ⟨hnil, habs, by simp only [n, edit, hcommon, if_pos hlt, hnil, List.isEmpty_nil, if_true]⟩
    · have hempty : (f []).isEmpty = false := by simpa using hnil
      by_cases hcl : common = l
      · refine .inr (.inl ⟨branch nAddress l, hnil, habs, hcl ▸ hu, ?_⟩)
        simp only [n, edit, hcommon, hempty, hcl, if_pos (hcl ▸ hlt : l < p), if_true, Bool.false_eq_true, if_false]
      · have hside : branch address common = !branch nAddress common := by
          have := hdiff (by omega)
          rw [show commonBits nAddress address = common by omega] at this
          exact Bool.eq_not.mpr this.symm
        refine .inr (.inr (.inl ⟨common, _, hnil, habs, hu, by omega, hside, fun i hip hil ha => ?_, ?_⟩))
        · have := hle i (by omega) ha
          omega
        · rw [← hside]
          simp only [n, edit, hcommon, if_pos hlt, hempty, if_neg hcl, Bool.false_eq_true, if_false]
  · have hag : Agree p nAddress address := hagree.mono (by omega)
    by_cases hpl : p = l
    · refine .inr (.inr (.inr (.inl ⟨hpl.symm, hag, ?_⟩)))
      simp only [n, edit, hcommon, if_neg hlt, if_pos hpl]
    · refine .inr (.inr (.inr (.inr ⟨by omega, hag, ?_⟩)))
      simp only [n, edit, hcommon, if_neg hlt, if_neg hpl]

/-- An edit below a destination stays below it. -/
theorem under_edit (f : List (SrcEntry V) → List (SrcEntry V)) {address a : BitVec 128} {p l : Nat} {b : Bool} {t : Trie V}
    (hs : t.Shape) (hl : l ≤ 128) (hu : t.Under address p b) (hp : p < l) (hag : Agree p address a) (hb : branch a p = b) :
    (edit f a l t).Under address p b := by
  cases hs with
  | nil =>
    rw [edit]
    split
    · trivial
    · exact ⟨hp, hag, hb⟩
  | @node nAddress p' srcs child len sub under full =>
    obtain ⟨-, -, he⟩ | ⟨b', -, -, hu', he⟩ | ⟨q, b', -, -, hu', -, -, hmax, he⟩ | ⟨-, -, he⟩ | ⟨hlt, hag', he⟩ :=
      edit_node_cases f a nAddress srcs child hl len <;> rw [he]
    · exact hu
    · exact ⟨hp, hag, hb⟩
    · -- the node and the edited destination both go side `b` at `p`, so they part further down
      refine ⟨?_, hag, hb⟩
      have := hmax (p + 1) hu.1 hp (fun i hi => ?_)
      · omega
      · obtain hip | rfl := Nat.lt_succ_iff_lt_or_eq.mp hi
        · exact (hu.2.1.symm.trans hag) i hip
        · exact hu.2.2.trans hb.symm
    · exact under_compact hu under
    · refine under_compact hu (under_update under ?_)
      exact under_edit f (sub _) hl (under _) hlt hag' rfl

end TrieAux

/-- No destination is longer than an address. -/
theorem find_eq_nil_of_length (hs : t.Shape) (hl : 128 < l) : t.find a l = [] := by
  induction hs with
  | nil => rfl
  | @node nAddress p srcs child len sub under full ih =>
    rw [find_node under, ih, ih, if_neg (by omega)]
    rfl

/-- An edit keeps the shape. -/
theorem shape_edit (f : List (SrcEntry V) → List (SrcEntry V)) (hl : l ≤ 128) (hs : t.Shape) : (edit f a l t).Shape := by
  induction hs with
  | nil =>
    rw [edit]
    split
    · exact .nil
    · next h => exact .node hl (fun _ => .nil) (fun _ => under_nil _ _ _) (fun hnil => absurd hnil (by simpa using h))
  | @node nAddress p srcs child len sub under full ih =>
    have hn : (Trie.node nAddress p srcs child).Shape := .node len sub under full
    obtain ⟨-, -, he⟩ | ⟨b, hne, -, hu, he⟩ | ⟨q, b, hne, -, hu, hq, hb, -, he⟩ | ⟨-, -, he⟩ | ⟨hlt, hag, he⟩ :=
      edit_node_cases f a nAddress srcs child hl len <;> rw [he]
    · exact hn
    · exact .node hl (shape_update (fun _ => .nil) hn b) (under_update (fun _ => under_nil _ _ _) hu) (fun h => absurd h hne)
    · have hnew : (newTrieNode a l (f [])).Shape :=
        .node hl (fun _ => .nil) (fun _ => under_nil _ _ _) (fun hnil => absurd hnil hne)
      refine .node (by omega) (shape_update (shape_update (fun _ => .nil) hn b) hnew (!b))
        (under_update (under_update (fun _ => under_nil _ _ _) hu) ⟨hq, Agree.refl _ _, hb⟩) (fun _ b' => ?_)
      cases b <;> cases b' <;> simp [newTrieNode]
    · exact shape_compact len sub under
    · exact shape_compact len (shape_update sub (ih _) _)
        (under_update under (under_edit f (sub _) hl (under _) hlt hag rfl))

/-- An edit changes the entries of the edited destination and of no other. -/
theorem find_edit (f : List (SrcEntry V) → List (SrcEntry V)) (hl : l ≤ 128) (hs : t.Shape) (a' : BitVec 128) (l' : Nat) :
    (edit f a l t).find a' l' = if l' = l ∧ Agree l a a' then f (t.find a l) else t.find a' l' := by
  induction hs with
  | nil =>
    rw [edit]
    split
    · next h => simp only [find_nil, List.isEmpty_iff.mp h, ite_self]
    · rw [find_newTrieNode, find_nil, find_nil]
  | @node nAddress p srcs child len sub under full ih =>
    obtain ⟨hnil, habs, he⟩ | ⟨b, -, habs, hu, he⟩ | ⟨q, b, -, habs, hu, hq, hb, -, he⟩ | ⟨rfl, hag, he⟩ |
        ⟨hlt, hag, he⟩ :=
      edit_node_cases f a nAddress srcs child hl len <;> rw [he]
    · rw [habs, hnil]
      split
      · next h => rw [h.1, ← find_congr h.2, habs]
      · rfl
    · rw [find_splitAt hu, habs]
    · rw [find_splitAbove hu hq hb, habs]
    · rw [find_compact under, find_self hag, find_node under, find_node under]
      have hat : (l' = l ∧ Agree l nAddress a') ↔ (l' = l ∧ Agree l a a') :=
        and_congr_right fun _ => ⟨fun h => hag.symm.trans h, fun h => hag.trans h⟩
      by_cases h : l' = l ∧ Agree l a a'
      · have hnone : ∀ b, (child b).find a' l' = [] := fun b => find_eq_nil_of_under (under b) (by omega)
        rw [if_pos (hat.mpr h), if_pos h, hnone, hnone]
        simp
      · rw [if_neg (mt hat.mp h), if_neg h, if_neg (mt hat.mp h)]
    · have hu' := under_edit f (sub _) hl (under (branch a p)) hlt hag rfl
      rw [find_compact (under_update under hu'), find_child hlt hag]
      by_cases hout : l' < p ∨ ¬Agree p nAddress a'
      · rw [find_outside hout, find_outside hout, if_neg]
        exact fun h => hout.elim (by omega) (fun h' => h' (hag.trans (h.2.mono (by omega))))
      · rw [not_or, not_not, not_lt] at hout
        obtain rfl | hlt' := hout.1.eq_or_lt
        · rw [find_self hout.2, find_self hout.2, if_neg (by omega)]
        · rw [find_child hlt' hout.2, find_child hlt' hout.2]
          by_cases hside : branch a' p = branch a p
          · rw [hside, Function.update_self, ih]
          · rw [Function.update_of_ne hside, if_neg]
            exact fun h => hside (h.2 p hlt).symm

section Values

variable [DecidableEq V] {t : Trie V}

/-- A subtree handed back as it was is unchanged. -/
theorem removeValue_same (value : V) (t : Trie V) (h : (removeValue value t).2 = true) : (removeValue value t).1 = t := by
  cases t with
  | nil => rfl
  | node address p srcs child =>
    simp only [removeValue] at h ⊢
    split at h
    · next hs => rw [if_pos hs]
    · exact absurd h (by simp)

/-- Removing a value is filtering every node's entries: where the source hands a node back, there was nothing to filter. -/
theorem removeValue_node (value : V) (address : BitVec 128) (p : Nat) (srcs : List (SrcEntry V)) (child : Bool → Trie V) :
    (removeValue value (.node address p srcs child)).1 = .node address p srcs child ∧
        srcs = srcs.filter (fun e => e.value ≠ value) ∧ (∀ b, child b = (removeValue value (child b)).1) ∨
      (removeValue value (.node address p srcs child)).1 =
        compact address p (srcs.filter (fun e => e.value ≠ value)) (fun b => (removeValue value (child b)).1) := by
  have hfilter : srcs.any (fun e => e.value = value) = false → srcs.filter (fun e => e.value ≠ value) = srcs := by
    intro h
    rw [List.filter_eq_self]
    simpa using h
  have hchild : (fun bit => if bit then (removeValue value (child true)).1 else (removeValue value (child false)).1) =
      fun b => (removeValue value (child b)).1 := by
    funext b
    cases b <;> rfl
  simp only [removeValue]
  by_cases hs : (!srcs.any (fun e => e.value = value) && (removeValue value (child false)).2 &&
      (removeValue value (child true)).2) = true
  · rw [if_pos hs]
    simp only [Bool.and_eq_true, Bool.not_eq_true'] at hs
    refine .inl ⟨rfl, (hfilter hs.1.1).symm, fun b => ?_⟩
    cases b with
    | false => exact (removeValue_same value _ hs.1.2).symm
    | true => exact (removeValue_same value _ hs.2).symm
  · rw [if_neg hs]
    refine .inr ?_
    rw [hchild]
    dsimp only
    split
    · rfl
    · next h => rw [hfilter (by simpa using h)]

/-- Removing a value keeps what hangs below a destination below it. -/
theorem under_removeValue (value : V) {address : BitVec 128} {p : Nat} {b : Bool} (hs : t.Shape) (hu : t.Under address p b) :
    (removeValue value t).1.Under address p b := by
  induction hs generalizing address p b with
  | nil => trivial
  | @node nAddress p' srcs child len sub under full ih =>
    obtain ⟨h, -⟩ | h := removeValue_node value nAddress p' srcs child <;> rw [h]
    · exact hu
    · exact under_compact hu fun b' => ih b' (under b')

/-- Removing a value keeps the shape. -/
theorem shape_removeValue (value : V) (hs : t.Shape) : (removeValue value t).1.Shape := by
  induction hs with
  | nil => exact .nil
  | @node nAddress p srcs child len sub under full ih =>
    obtain ⟨h, -⟩ | h := removeValue_node value nAddress p srcs child <;> rw [h]
    · exact .node len sub under full
    · exact shape_compact len ih fun b => under_removeValue value (sub b) (under b)

/-- Removing a value filters the entries of every destination. -/
theorem find_removeValue (value : V) (hs : t.Shape) (a : BitVec 128) (l : Nat) :
    (removeValue value t).1.find a l = (t.find a l).filter (fun e => e.value ≠ value) := by
  induction hs with
  | nil => rfl
  | @node nAddress p srcs child len sub under full ih =>
    rw [find_node under, List.filter_append, List.filter_append, ← ih, ← ih,
      apply_ite (List.filter fun e : SrcEntry V => decide (e.value ≠ value)), List.filter_nil]
    obtain ⟨h, hsrcs, hchild⟩ | h := removeValue_node value nAddress p srcs child <;> rw [h]
    · rw [find_node under, ← hchild, ← hchild, ← hsrcs]
    · rw [find_compact fun b => under_removeValue value (sub b) (under b)]
      exact find_node (fun b => under_removeValue value (sub b) (under b)) a l

end Values

/-- No source is picked from none. -/
theorem pickSource_nil (src : Addr) : pickSource ([] : List (SrcEntry V)) src = none := rfl

/-- The loop of a lookup answers from the longest destination on the address's path that has an answer, and keeps what it
was given when none has. -/
theorem lookupLoop_spec (src : Addr) (a : BitVec 128) (hs : t.Shape) (result : Option V) :
    (∃ l v, pickSource (t.find a l) src = some v ∧ (∀ l', l < l' → pickSource (t.find a l') src = none) ∧
      lookupLoop src a t result = some v) ∨
    ((∀ l, pickSource (t.find a l) src = none) ∧ lookupLoop src a t result = result) := by
  induction hs generalizing result with
  | nil => exact .inr ⟨fun _ => rfl, rfl⟩
  | @node nAddress p srcs child len sub under full ih =>
    by_cases hag : Agree p nAddress a
    · have hm := (matchesWords_iff len).mpr hag
      simp only [lookupLoop, hm, Bool.not_true, Bool.false_eq_true, if_false]
      have habove : ∀ l, l < p → pickSource ((Trie.node nAddress p srcs child).find a l) src = none := fun l hl => by
        rw [find_outside (.inl hl), pickSource_nil]
      -- what the loop does below the node, with the node's own answer as the result so far
      have hbelow : (∃ l v, p < l ∧ pickSource ((Trie.node nAddress p srcs child).find a l) src = some v ∧
          (∀ l', l < l' → pickSource ((Trie.node nAddress p srcs child).find a l') src = none) ∧
          (if p = 128 then (pickSource srcs src).or result
            else lookupLoop src a (child (branch a p)) ((pickSource srcs src).or result)) = some v) ∨
          ((∀ l, p < l → pickSource ((Trie.node nAddress p srcs child).find a l) src = none) ∧
          (if p = 128 then (pickSource srcs src).or result
            else lookupLoop src a (child (branch a p)) ((pickSource srcs src).or result)) =
              (pickSource srcs src).or result) := by
        by_cases hp : p = 128
        · refine .inr ⟨fun l hl => ?_, if_pos hp⟩
          rw [find_child hl hag, find_eq_nil_of_length (sub _) (by omega), pickSource_nil]
        · simp only [if_neg hp]
          obtain ⟨l, v, hl, hlong, hr⟩ | ⟨hnone, hr⟩ := ih (branch a p) ((pickSource srcs src).or result)
          · have hpl : p < l := by
              by_contra hle
              rw [find_eq_nil_of_under (under _) (by omega), pickSource_nil] at hl
              exact absurd hl (by simp)
            refine .inl ⟨l, v, hpl, by rw [find_child hpl hag, hl], fun l' hl' => ?_, hr⟩
            rw [find_child (by omega) hag, hlong l' hl']
          · exact .inr ⟨fun l hl => by rw [find_child hl hag, hnone], hr⟩
      obtain ⟨l, v, -, hl, hlong, hr⟩ | ⟨hnone, hr⟩ := hbelow
      · exact .inl ⟨l, v, hl, hlong, hr⟩
      · rw [hr]
        cases hv : pickSource srcs src with
        | some v => exact .inl ⟨p, v, by rw [find_self hag, hv], hnone, rfl⟩
        | none =>
          refine .inr ⟨fun l => ?_, rfl⟩
          obtain hlt | rfl | hgt := Nat.lt_trichotomy l p
          · exact habove l hlt
          · rw [find_self hag, hv]
          · exact hnone l hgt
    · have hm := Bool.eq_false_iff.mpr (mt (matchesWords_iff len).mp hag)
      refine .inr ⟨fun l => by rw [find_outside (.inr hag), pickSource_nil], ?_⟩
      simp only [lookupLoop, hm, Bool.not_false, if_true]

end RanetLite.Sadr
