import RanetLite.Lemmas.SadrTrie
import RanetLite.Sadr.Memory

/-!
# The table in memory refines the trie

`Holds` says that a pointer leads to a trie through nodes at allowed addresses. A writer keeps everything that was allocated (`Keeps`) and
leaves the trie the pure function computes, at addresses that were allowed or are new (`holds_edit`, `holds_removeValue`).
-/

namespace RanetLite.Sadr

open Netip BitPrefix TrieAux

variable {V : Type}

/-- The number of nodes on the longest path. -/
def Trie.height : Trie V → Nat
  | .nil => 0
  | .node _ _ _ child => max (child false).height (child true).height + 1

namespace Memory

/-- What was allocated is as it was. -/
structure Keeps (m m' : Memory V) : Prop where
  nodes : ∀ (q : Nat) n, m.nodes[q]? = some n → m'.nodes[q]? = some n
  slices : ∀ s srcs, m.slice s = some srcs → m'.slice s = some srcs

/-- A pointer leads to a trie whose nodes stand at allowed addresses. -/
def Holds (m : Memory V) (A : Nat → Prop) : Ptr → Trie V → Prop
  | p, .nil => p = none
  | p, .node address prefixLen srcs child => ∃ q n, p = some q ∧ A q ∧ m.nodes[q]? = some n ∧ n.address = address ∧
      n.prefixLen = prefixLen ∧ m.slice n.srcs = some srcs ∧ ∀ b, m.Holds A (n.child b) (child b)

/-- A change of entries in memory that computes a function of them, and allocates slices only. -/
def Computes (change : Change V) (f : List (SrcEntry V) → List (SrcEntry V)) : Prop :=
  ∀ m s srcs, m.slice s = some srcs → ∃ m' s', change m s = some (m', s') ∧ m'.nodes = m.nodes ∧ m.Keeps m' ∧ m'.slice s' = some (f srcs)

variable {m m' : Memory V} {A B : Nat → Prop} {p : Ptr} {t t' : Trie V} {q : Nat} {srcs : List (SrcEntry V)} {child : Bool → Trie V}

/-- A memory keeps itself. -/
theorem Keeps.refl (m : Memory V) : m.Keeps m := ⟨fun _ _ h => h, fun _ _ h => h⟩

/-- Keeping composes. -/
theorem Keeps.trans {m'' : Memory V} (h : m.Keeps m') (h' : m'.Keeps m'') : m.Keeps m'' :=
  ⟨fun q n hn => h'.nodes q n (h.nodes q n hn), fun s srcs hs => h'.slices s srcs (h.slices s srcs hs)⟩

/-- A new slice keeps what there is. -/
theorem keeps_newSlice (m : Memory V) (entries : List (SrcEntry V)) : m.Keeps (m.newSlice entries).1 where
  nodes _ _ h := h
  slices s _ h := by
    cases s with
    | none => exact h
    | some i => exact (List.getElem?_append_left (List.getElem?_eq_some_iff.mp h).1).trans h

/-- So does a new node. -/
theorem keeps_newNode (m : Memory V) (n : Cell) : m.Keeps (m.newNode n).1 where
  nodes _ _ h := (List.getElem?_append_left (List.getElem?_eq_some_iff.mp h).1).trans h
  slices _ _ h := h

/-- A write to a node that is new to a memory keeps that memory. -/
theorem Keeps.write (h : m.Keeps m') (hq : m.nodes.length ≤ q) (f : Cell → Cell) : m.Keeps (m'.write q f) where
  nodes i n hi := by
    have hlt := (List.getElem?_eq_some_iff.mp hi).1
    exact (List.getElem?_modify_ne f _ (by omega)).trans (h.nodes i n hi)
  slices := h.slices

/-- A trie stays where its nodes stay. -/
theorem Holds.frame (h : m.Holds A p t) (hsub : ∀ q, A q → B q) (hnodes : ∀ (q : Nat) n, A q → m.nodes[q]? = some n → m'.nodes[q]? = some n)
    (hslices : ∀ s srcs, m.slice s = some srcs → m'.slice s = some srcs) : m'.Holds B p t := by
  induction t generalizing p with
  | nil => exact h
  | node address prefixLen srcs child ih =>
    obtain ⟨q, n, hp, hq, hn, ha, hl, hs, hchild⟩ := h
    exact ⟨q, n, hp, hsub q hq, hnodes q n hq hn, ha, hl, hslices _ _ hs, fun b => ih b (hchild b)⟩

/-- What a memory holds is held by one that keeps it. -/
theorem Holds.keeps (h : m.Holds A p t) (hk : m.Keeps m') (hsub : ∀ q, A q → B q) : m'.Holds B p t :=
  h.frame hsub (fun q n _ => hk.nodes q n) hk.slices

/-- The nodes of a trie are allocated. -/
theorem Holds.bounded (h : m.Holds A p t) : m.Holds (fun q => A q ∧ q < m.nodes.length) p t := by
  induction t generalizing p with
  | nil => exact h
  | node address prefixLen srcs child ih =>
    obtain ⟨q, n, hp, hq, hn, ha, hl, hs, hchild⟩ := h
    exact ⟨q, n, hp, ⟨hq, (List.getElem?_eq_some_iff.mp hn).1⟩, hn, ha, hl, hs, fun b => ih b (hchild b)⟩

/-- A write elsewhere leaves a trie as it is. -/
theorem Holds.write (h : m.Holds A p t) (hq : ¬A q) (f : Cell → Cell) : (m.write q f).Holds A p t := by
  refine h.frame (fun _ => id) (fun i n hi hn => ?_) (fun _ _ => id)
  have hne : q ≠ i := by
    rintro rfl
    exact hq hi
  exact (List.getElem?_modify_ne f _ hne).trans hn

/-- A pointer leads to one trie. -/
theorem holds_inj (h : m.Holds A p t) (h' : m.Holds B p t') : t = t' := by
  induction t generalizing p t' with
  | nil =>
    cases t' with
    | nil => rfl
    | node =>
      obtain ⟨q, n, hp, -⟩ := h'
      exact absurd (h.symm.trans hp) (by simp)
  | node address prefixLen srcs child ih =>
    obtain ⟨q, n, rfl, -, hn, rfl, rfl, hs, hchild⟩ := h
    cases t' with
    | nil => exact absurd h' (by simp [Holds])
    | node address' prefixLen' srcs' child' =>
      obtain ⟨q', n', hp, -, hn', rfl, rfl, hs', hchild'⟩ := h'
      obtain rfl := Option.some.inj hp
      obtain rfl := Option.some.inj (hn.symm.trans hn')
      obtain rfl := Option.some.inj (hs.symm.trans hs')
      rw [show child = child' from funext fun b => ih b (hchild b) (hchild' b)]

/-- Only a nil pointer holds the empty trie. -/
theorem isNil_of_holds (h : m.Holds A p t) : t.isNil = p.isNone := by
  cases t with
  | nil => rw [show p = none from h]; rfl
  | node =>
    obtain ⟨q, n, rfl, -⟩ := h
    rfl

/-- `compact` in memory leads to the compacted trie. -/
theorem holds_compact {address : BitVec 128} {prefixLen : Nat} (h : m.Holds A (some q) (.node address prefixLen srcs child)) :
    ∃ p', m.compact q = some (m, p') ∧ m.Holds A p' (Sadr.compact address prefixLen srcs child) := by
  have hself := h
  obtain ⟨q', n, hp, hq, hn, rfl, rfl, hs, hchild⟩ := h
  obtain rfl := Option.some.inj hp
  refine ⟨_, by simp only [compact, hn, hs, Option.bind_eq_bind, Option.bind_some]; rfl, ?_⟩
  rw [Sadr.compact, isNil_of_holds (hchild false), isNil_of_holds (hchild true)]
  split
  · exact hchild true
  · split
    · exact hchild false
    · exact hself

/-- A memory that keeps another is no smaller. -/
theorem Keeps.length_le (h : m.Keeps m') : m.nodes.length ≤ m'.nodes.length := by
  by_contra hlt
  have hin : m.nodes[m'.nodes.length]? = some m.nodes[m'.nodes.length] := List.getElem?_eq_getElem (by omega)
  exact absurd (List.getElem?_eq_some_iff.mp (h.nodes _ _ hin)).1 (Nat.lt_irrefl _)

/-- A trie under a new node. -/
theorem holds_newNode {n : Cell} (hq : B m.nodes.length) (hs : m.slice n.srcs = some srcs)
    (hchild : ∀ b, m.Holds B (n.child b) (child b)) :
    (m.newNode n).1.Holds B (some m.nodes.length) (.node n.address n.prefixLen srcs child) :=
  ⟨_, n, rfl, hq, by simp [newNode], rfl, rfl, hs, fun b => (hchild b).keeps (keeps_newNode m n) fun _ => id⟩

/-- A trie under a node that is overwritten, when its subtries do not use the node. -/
theorem holds_write {q : Nat} {n : Cell} {f : Cell → Cell} {srcs : List (SrcEntry V)} {child : Bool → Trie V}
    (hn : m.nodes[q]? = some n) (hq : B q) (hs : m.slice (f n).srcs = some srcs) (hchild : ∀ b, m.Holds A ((f n).child b) (child b))
    (hA : ¬A q) (hsub : ∀ q, A q → B q) :
    (m.write q f).Holds B (some q) (.node (f n).address (f n).prefixLen srcs child) := by
  refine ⟨q, f n, rfl, hq, ?_, rfl, rfl, hs, fun b => ?_⟩
  · simp [write, List.getElem?_modify_eq, hn]
  · exact ((hchild b).write hA f).frame hsub (fun _ _ _ => id) fun _ _ => id

/-- A write to a node just made makes another one. -/
theorem write_newNode (m : Memory V) (n : Cell) (f : Cell → Cell) : (m.newNode n).1.write m.nodes.length f = (m.newNode (f n)).1 := by
  have hmodify : (m.nodes ++ [n]).modify m.nodes.length f = m.nodes ++ [f n] := by
    rw [List.modify_eq_take_cons_drop (by simp)]
    simp
  exact congrArg (Memory.mk · m.slices) hmodify

/-- The addresses that were allowed, and those that are new to a memory. -/
def Grown (A : Nat → Prop) (m : Memory V) (q : Nat) : Prop := A q ∨ m.nodes.length ≤ q

/-- A new node is behind those there were. -/
theorem grown_newNode (m : Memory V) (n : Cell) (q : Nat) (h : Grown A (m.newNode n).1 q) : A q ∨ m.nodes.length < q := by
  refine h.imp_right fun hq => Nat.lt_of_succ_le ?_
  simpa [newNode] using hq

/-- A copy of a node that is written to after everything its subtries use was made, and compacted. -/
theorem holds_copy {m1 : Memory V} {n : Cell} {f : Cell → Cell} {srcs : List (SrcEntry V)} {child : Bool → Trie V}
    (hk : (m.newNode n).1.Keeps m1) (hA : ∀ q, A q → q < m.nodes.length) (hs : m1.slice (f n).srcs = some srcs)
    (hchild : ∀ b, m1.Holds (fun q => A q ∨ m.nodes.length < q) ((f n).child b) (child b)) :
    ∃ p', (m1.write m.nodes.length f).compact m.nodes.length = some (m1.write m.nodes.length f, p') ∧
      m.Keeps (m1.write m.nodes.length f) ∧
      (m1.write m.nodes.length f).Holds (Grown A m) p' (Sadr.compact (f n).address (f n).prefixLen srcs child) := by
  have hcopy : (m.newNode n).1.nodes[m.nodes.length]? = some n := by simp [newNode]
  have hnew : ¬(A m.nodes.length ∨ m.nodes.length < m.nodes.length) := by
    rintro (h | h)
    · exact Nat.lt_irrefl _ (hA _ h)
    · exact Nat.lt_irrefl _ h
  obtain ⟨p', hp', hcompact⟩ := holds_compact
    (holds_write (hk.nodes _ _ hcopy) (.inr (Nat.le_refl _)) hs hchild hnew fun _ h => h.imp_right Nat.le_of_lt)
  exact ⟨p', hp', ((keeps_newNode m n).trans hk).write (Nat.le_refl _) f, hcompact⟩

/-- The nil pointer holds the empty trie. -/
theorem holds_nil : m.Holds A none .nil := rfl

/-- One child replaced. -/
theorem holds_update {c : Bool → Ptr} (hchild : ∀ b, m.Holds A (c b) (child b)) (h : m.Holds A p t) (b b' : Bool) :
    m.Holds A (Function.update c b p b') (Function.update child b t b') := by
  by_cases hb : b' = b
  · subst hb
    rwa [Function.update_self, Function.update_self]
  · rw [Function.update_of_ne hb, Function.update_of_ne hb]
    exact hchild b'

/-- A new parent with entries over a trie. -/
theorem holds_splitAt {s : Ptr} (h : m.Holds A p t) (hs : m.slice s = some srcs) (hB : B m.nodes.length) (hsub : ∀ q, A q → B q)
    (address : BitVec 128) (prefixLen : Nat) (b : Bool) :
    (((m.newNode { address := address, prefixLen := prefixLen }).1.setChild m.nodes.length b p).setSrcs m.nodes.length s).Holds B
      (some m.nodes.length) (.node address prefixLen srcs (Function.update (fun _ => .nil) b t)) := by
  rw [setChild, setSrcs, write_newNode, write_newNode]
  exact holds_newNode hB hs (holds_update (fun _ => holds_nil) (h.keeps (Keeps.refl m) hsub) b)

/-- A new parent over a trie and a new leaf beside it. The leaf is allocated after the parent and written to it. -/
theorem holds_splitAbove {s : Ptr} (h : m.Holds A p t) (hs : m.slice s = some srcs) (hA : ∀ q, A q → q < m.nodes.length)
    (address : BitVec 128) (prefixLen l : Nat) (b b' : Bool) :
    let m' := (((m.newNode { address := address, prefixLen := prefixLen }).1.setChild m.nodes.length b p).newNode
      { address := address, prefixLen := l, srcs := s })
    (m'.1.setChild m.nodes.length b' (some m'.2)).Holds (Grown A m) (some m.nodes.length)
      (.node address prefixLen [] (Function.update (Function.update (fun _ => .nil) b t) b' (newTrieNode address l srcs))) := by
  rw [setChild, write_newNode]
  intro m'
  have hkeeps : m.Keeps m'.1 := (keeps_newNode m _).trans (keeps_newNode _ _)
  have hleaf : m'.2 = m.nodes.length + 1 := by simp [m', newNode]
  refine @holds_write _ _ (fun q => A q ∨ q = m.nodes.length + 1) _ m.nodes.length
    { address := address, prefixLen := prefixLen, child := Function.update (fun _ => none) b p } _ _ _ ?_ (.inr (Nat.le_refl _)) rfl
    (holds_update (holds_update (fun _ => holds_nil) (h.keeps hkeeps fun _ => .inl) b) ?_ b') ?_ ?_
  · simp [m', newNode]
  · exact ⟨_, { address := address, prefixLen := l, srcs := s }, rfl, .inr hleaf, by simp [m', newNode], rfl, rfl, hs, fun _ => rfl⟩
  · rintro (hq | hq)
    · exact Nat.lt_irrefl _ (hA _ hq)
    · omega
  · rintro q (hq | rfl)
    · exact .inl hq
    · exact .inr (Nat.le_succ _)

/-- `edit` in memory keeps what was allocated and leads to the edited trie. -/
theorem holds_edit {change : Change V} {f : List (SrcEntry V) → List (SrcEntry V)} (hc : Computes change f) {a : BitVec 128} {l : Nat}
    {fuel : Nat} (h : m.Holds A p t) (hfuel : t.height < fuel) (hA : ∀ q, A q → q < m.nodes.length) :
    ∃ m' p', edit change a l fuel m p = some (m', p') ∧ m.Keeps m' ∧ m'.Holds (Grown A m) p' (Sadr.edit f a l t) := by
  induction t generalizing fuel m p A with
  | nil =>
    obtain ⟨k, rfl⟩ := Nat.exists_eq_add_of_lt hfuel
    obtain rfl : p = none := h
    obtain ⟨m1, s, hch, hnodes, hk, hs⟩ := hc m none [] rfl
    rw [Sadr.edit, Memory.edit]
    simp only [hch, hs, Option.bind_eq_bind, Option.bind_some]
    split
    · exact ⟨m1, none, rfl, hk, rfl⟩
    · exact ⟨_, _, rfl, hk.trans (keeps_newNode _ _), holds_newNode (.inr hk.length_le) hs fun _ => rfl⟩
  | node nAddress nPrefixLen nSrcs nChild ih =>
    obtain ⟨q, n, rfl, hq, hn, rfl, rfl, hs, hchild⟩ := h
    obtain ⟨k, rfl⟩ := Nat.exists_eq_add_of_lt hfuel
    rw [Sadr.edit, Memory.edit]
    simp only [hn, Option.bind_eq_bind, Option.bind_some]
    generalize min (min (commonBits n.address a) n.prefixLen) l = common
    split
    · -- the node stays as it is, alone or under a new parent
      obtain ⟨m1, s, hch, hnodes, hk, hsl⟩ := hc m none [] rfl
      have hself : m1.Holds A (some q) (.node n.address n.prefixLen nSrcs nChild) :=
        Holds.keeps ⟨q, n, rfl, hq, hn, rfl, rfl, hs, hchild⟩ hk fun _ => id
      have hlen : m.nodes.length = m1.nodes.length := congrArg List.length hnodes.symm
      simp only [hch, hsl, Option.bind_some]
      split
      · exact ⟨m1, some q, rfl, hk, hself.keeps (Keeps.refl _) fun _ => .inl⟩
      · have hparent := (hk.trans (keeps_newNode m1 { address := a, prefixLen := common })).write hlen.le
        split
        · exact ⟨_, _, rfl, (hparent _).write hlen.le _, holds_splitAt hself hsl (.inr hlen.le) (fun _ => .inl) a common _⟩
        · refine ⟨_, _, rfl, ((hparent _).trans (keeps_newNode _ _)).write hlen.le _, ?_⟩
          rw [show Grown A m = Grown A m1 from funext fun i => by rw [Grown, Grown, hlen]]
          exact holds_splitAbove hself hsl (hlen ▸ hA) a common l _ _
    · -- the node is copied, and the copy is written to once the rest is done
      have hold : ∀ b, (m.newNode n).1.Holds A (n.child b) (nChild b) := fun b => (hchild b).keeps (keeps_newNode m n) fun _ => id
      split
      · obtain ⟨m1, s, hch, -, hk, hsl⟩ := hc (m.newNode n).1 n.srcs nSrcs hs
        simp only [hch, Option.bind_some]
        exact ⟨_, holds_copy (f := fun n => { n with srcs := s }) hk hA hsl fun b => (hold b).keeps hk fun _ => .inl⟩
      · obtain ⟨m1, c, hch, hk, hc⟩ := @ih (branch a n.prefixLen) (m.newNode n).1 A _ _ (hold _)
          (show _ < (Trie.node n.address n.prefixLen nSrcs nChild).height + k by
            rw [Trie.height]
            cases branch a n.prefixLen <;> omega)
          fun i hi => Nat.lt_of_lt_of_le (hA i hi) (keeps_newNode m n).length_le
        simp only [hch, Option.bind_some]
        exact ⟨_, holds_copy (f := fun n' => { n' with child := Function.update n'.child (branch a n.prefixLen) c }) hk hA
          (hk.slices _ _ hs) (holds_update (fun b => (hold b).keeps hk fun _ => .inl) (hc.keeps (Keeps.refl _) (grown_newNode m n)) _)⟩

/-- A node that is needed is not compacted. -/
theorem compact_full {address : BitVec 128} {prefixLen : Nat} (hfull : srcs = [] → ∀ b, child b ≠ .nil) :
    Sadr.compact address prefixLen srcs child = .node address prefixLen srcs child := by
  obtain ⟨b, hsrcs, hnil, -⟩ | ⟨-, hc⟩ := compact_cases address prefixLen srcs child
  · exact absurd hnil (hfull hsrcs _)
  · exact hc

section Values

variable [DecidableEq V]

/-- A node that nothing is removed from is what compacting it gives. -/
theorem removeValue_compact (value : V) {address : BitVec 128} {prefixLen : Nat} {srcs : List (SrcEntry V)} {child : Bool → Trie V}
    (hfull : srcs = [] → ∀ b, child b ≠ .nil) :
    (Sadr.removeValue value (.node address prefixLen srcs child)).1 =
      Sadr.compact address prefixLen (srcs.filter (fun e => e.value ≠ value)) (fun b => (Sadr.removeValue value (child b)).1) := by
  obtain ⟨h, hsrcs, hchild⟩ | h := removeValue_node value address prefixLen srcs child
  · rw [h, ← hsrcs, ← show child = _ from funext hchild, compact_full hfull]
  · exact h

/-- `removeValue` in memory keeps what was allocated and leads to the trie without the value. -/
theorem holds_removeValue (value : V) {fuel : Nat} (hshape : t.Shape) (h : m.Holds A p t) (hfuel : t.height < fuel)
    (hA : ∀ q, A q → q < m.nodes.length) :
    ∃ m' p', removeValue value fuel m p = some (m', p') ∧ m.Keeps m' ∧ m'.Holds (Grown A m) p' (Sadr.removeValue value t).1 := by
  induction hshape generalizing fuel m p A with
  | nil =>
    obtain ⟨k, rfl⟩ := Nat.exists_eq_add_of_lt hfuel
    obtain rfl : p = none := h
    exact ⟨m, none, rfl, Keeps.refl m, rfl⟩
  | @node address prefixLen srcs child len sub under full ih =>
    obtain ⟨q, n, rfl, hq, hn, rfl, rfl, hs, hchild⟩ := h
    obtain ⟨k, rfl⟩ := Nat.exists_eq_add_of_lt hfuel
    have hheight : ∀ b, (child b).height < (Trie.node n.address n.prefixLen srcs child).height + k := by
      intro b
      rw [Trie.height]
      cases b <;> omega
    obtain ⟨m1, left, hleft, hk1, hl⟩ := ih false (hchild false) (hheight false) hA
    obtain ⟨m2, right, hright, hk2, hr⟩ := ih true ((hchild true).keeps hk1 fun _ => id) (hheight true)
      fun i hi => Nat.lt_of_lt_of_le (hA i hi) hk1.length_le
    have hk := hk1.trans hk2
    have hkids : ∀ b, m2.Holds (Grown A m) (if b then right else left) (Sadr.removeValue value (child b)).1 := by
      intro b
      cases b with
      | false => exact hl.keeps hk2 fun _ => id
      | true => exact hr.keeps (Keeps.refl _) fun i hi => hi.imp_right (Nat.le_trans hk1.length_le)
    rw [removeValue_compact value full, Memory.removeValue]
    simp only [hn, hleft, hright, hk.slices _ _ hs, Option.bind_eq_bind, Option.bind_some]
    have hfilter : (!srcs.any (fun e => e.value = value)) = true → srcs.filter (fun e => e.value ≠ value) = srcs := by
      intro hnone
      rw [List.filter_eq_self]
      simpa using hnone
    split
    · next hsame =>
      -- the pointers that came back are the old ones, so the subtries are too
      simp only [Bool.and_eq_true, decide_eq_true_eq] at hsame
      obtain ⟨⟨hnone, rfl⟩, rfl⟩ := hsame
      have hsub : (fun b => (Sadr.removeValue value (child b)).1) = child := by
        funext b
        refine holds_inj (hkids b) (show m2.Holds A _ (child b) from ?_)
        cases b <;> exact (hchild _).keeps hk fun _ => id
      rw [hfilter hnone, hsub, compact_full full]
      exact ⟨m2, some q, rfl, hk, Holds.keeps ⟨q, n, rfl, hq, hn, rfl, rfl, hs, hchild⟩ hk fun _ => .inl⟩
    · -- the copy gets the new subtries, and new entries where some had the value
      generalize hcell : ({ n with child := Function.update (Function.update n.child false left) true right } : Cell) = n'
      have hmem : ((m2.newNode n).1.setChild (m2.newNode n).2 false left).setChild (m2.newNode n).2 true right = (m2.newNode n').1 := by
        rw [← hcell, setChild, setChild]
        exact (congrArg (Memory.write · _ _) (write_newNode m2 n _)).trans (write_newNode m2 _ _)
      have hkids' : ∀ b, m2.Holds (Grown A m) (n'.child b) (Sadr.removeValue value (child b)).1 := by
        intro b
        rw [← hcell]
        cases b with
        | false => exact hkids false
        | true => exact hkids true
      have hcopy : Grown A m m2.nodes.length := .inr hk.length_le
      have hnew : m.Keeps (m2.newNode n').1 := hk.trans (keeps_newNode m2 n')
      rw [hmem, show n.address = n'.address by rw [← hcell], show n.prefixLen = n'.prefixLen by rw [← hcell]]
      split
      · next hnone =>
        have hs' : m2.slice n'.srcs = some srcs := by
          rw [← hcell]
          exact hk.slices _ _ hs
        obtain ⟨p', hp', hcompact⟩ := holds_compact (holds_newNode hcopy hs' hkids')
        rw [hfilter hnone]
        exact ⟨_, p', hp', hnew, hcompact⟩
      · have hslice := keeps_newSlice (m2.newNode n').1 (srcs.filter fun e => e.value ≠ value)
        obtain ⟨p', hp', -, hcompact⟩ := @holds_copy _ m2 (fun i => Grown A m i ∧ i < m2.nodes.length) _ n'
          (fun n => { n with srcs := ((m2.newNode n').1.newSlice (srcs.filter fun e => e.value ≠ value)).2 }) _ _ hslice (fun _ => And.right)
          (List.getElem?_concat_length) fun b => (hkids' b).bounded.keeps ((keeps_newNode m2 n').trans hslice) fun _ => .inl
        refine ⟨_, p', hp', (hnew.trans hslice).write hk.length_le _, hcompact.keeps (Keeps.refl _) fun i hi => ?_⟩
        exact hi.elim And.left fun hle => .inr (Nat.le_trans hk.length_le hle)

end Values

/-- The change of `Set`. -/
theorem computes_set (src : Prefix) (value : V) : Computes (setChange src value) (setEntry src value) := by
  intro m s srcs hs
  refine ⟨(m.newSlice srcs).1.writeSlice (some m.slices.length) (setEntry src value), some m.slices.length,
    by simp [setChange, hs, newSlice], rfl, ?_, ?_⟩
  · refine ⟨fun _ _ => id, fun s' srcs' hs' => ?_⟩
    cases s' with
    | none => exact hs'
    | some i =>
      have hlt := (List.getElem?_eq_some_iff.mp hs').1
      exact (List.getElem?_modify_ne _ _ (Nat.ne_of_gt hlt)).trans ((keeps_newSlice m srcs).slices (some i) srcs' hs')
  · simp [slice, newSlice, writeSlice]

/-- The change of `Remove`. -/
theorem computes_remove (src : Prefix) : Computes (removeChange (V := V) src) (removeEntry src) := by
  intro m s srcs hs
  by_cases hany : srcs.any (fun entry => entry.src = src) = true
  · refine ⟨(m.newSlice (removeEntry src srcs)).1, some m.slices.length, ?_, rfl, keeps_newSlice _ _, List.getElem?_concat_length⟩
    simp only [removeChange, hs, Option.bind_eq_bind, Option.bind_some, if_pos hany]
    rfl
  · refine ⟨m, s, ?_, rfl, Keeps.refl m, ?_⟩
    · simp only [removeChange, hs, Option.bind_eq_bind, Option.bind_some, if_neg hany]
      rfl
    · rw [hs, removeEntry, List.eraseP_of_forall_not (by simpa using hany)]

end Memory

/-- No path of a trie has more nodes than there are lengths below the one it hangs from. -/
theorem height_le {t : Trie V} (hs : t.Shape) {address : BitVec 128} {p : Nat} {b : Bool} (hp : p ≤ 128) (hu : t.Under address p b) :
    t.height + p ≤ 128 := by
  induction hs generalizing address p b with
  | nil => simpa [Trie.height] using hp
  | @node nAddress p' srcs child len sub under full ih =>
    have hfalse := ih false len (under false)
    have htrue := ih true len (under true)
    have := hu.1
    rw [Trie.height]
    omega

/-- A well-shaped trie is no higher than an address has bits. -/
theorem height_lt_depth {t : Trie V} (hs : t.Shape) : t.height < depth := by
  cases hs with
  | nil => exact Nat.succ_pos _
  | @node nAddress p srcs child len sub under full =>
    have hfalse := height_le (sub false) len (under false)
    have htrue := height_le (sub true) len (under true)
    rw [Trie.height, depth]
    omega

/-- A pointer leads to a trie. -/
abbrev Memory.Leads (m : Memory V) (p : Ptr) (t : Trie V) : Prop := m.Holds (fun _ => True) p t

/-- The table published leads to a table of tries. -/
structure Published.Shows (s : Published V) (t : Table V) : Prop where
  ipv4 : s.memory.Leads s.ipv4 t.ipv4
  ipv6 : s.memory.Leads s.ipv6 t.ipv6

namespace Memory

variable {m : Memory V} {p : Ptr} {t : Trie V}

/-- An edit to a trie of the right shape, to the depth there is. -/
theorem leads_edit {change : Change V} {f : List (SrcEntry V) → List (SrcEntry V)} (hc : Computes change f) (hs : t.Shape)
    (h : m.Leads p t) (a : BitVec 128) (l : Nat) :
    ∃ m' p', edit change a l depth m p = some (m', p') ∧ m.Keeps m' ∧ m'.Leads p' (Sadr.edit f a l t) := by
  obtain ⟨m', p', hedit, hk, h'⟩ := holds_edit hc h.bounded (height_lt_depth hs) fun _ => And.right
  exact ⟨m', p', hedit, hk, h'.keeps (Keeps.refl _) fun _ _ => trivial⟩

/-- Removing a value copies what it changes. -/
theorem leads_removeValue [DecidableEq V] (value : V) (hs : t.Shape) (h : m.Leads p t) :
    ∃ m' p', removeValue value depth m p = some (m', p') ∧ m.Keeps m' ∧ m'.Leads p' (Sadr.removeValue value t).1 := by
  obtain ⟨m', p', hremove, hk, h'⟩ := holds_removeValue value hs h.bounded (height_lt_depth hs) fun _ => And.right
  exact ⟨m', p', hremove, hk, h'.keeps (Keeps.refl _) fun _ _ => trivial⟩

/-- What a pointer leads to stays. -/
theorem Leads.keeps {m' : Memory V} (h : m.Leads p t) (hk : m.Keeps m') : m'.Leads p t :=
  Holds.keeps h hk fun _ => id

end Memory

namespace Published

open Memory

variable {s : Published V} {t : Table V}

/-- A change publishes the trie it computes. -/
theorem shows_change (h : s.Shows t) (h4 : t.ipv4.Shape) (h6 : t.ipv6.Shape) (src dst : Prefix) {change : Change V}
    {f : List (SrcEntry V) → List (SrcEntry V)} (hc : Computes change f) :
    ∃ s', s.change src dst change = some s' ∧ s.memory.Keeps s'.memory ∧ s'.Shows (t.change src dst f) := by
  rw [Published.change, Table.change]
  split
  · exact ⟨s, rfl, Keeps.refl _, h⟩
  · split
    · obtain ⟨m, p, hedit, hk, hleads⟩ := leads_edit hc h4 h.ipv4 dst.addr.as16 (dst.bits.toNat + 96)
      exact ⟨{ s with memory := m, ipv4 := p }, by simp [hedit], hk, hleads, h.ipv6.keeps hk⟩
    · obtain ⟨m, p, hedit, hk, hleads⟩ := leads_edit hc h6 h.ipv6 dst.addr.as16 dst.bits.toNat
      exact ⟨{ s with memory := m, ipv6 := p }, by simp [hedit], hk, h.ipv4.keeps hk, hleads⟩

variable [DecidableEq V]

/-- Every call in memory returns, keeps what was allocated and publishes the table the call on tries gives. -/
theorem shows_apply (h : s.Shows t) (h4 : t.ipv4.Shape) (h6 : t.ipv6.Shape) (op : Op V) :
    ∃ s', s.apply op = some s' ∧ s.memory.Keeps s'.memory ∧ s'.Shows (t.apply op) := by
  cases op with
  | set src dst value => exact shows_change h h4 h6 src.masked dst (computes_set src.masked value)
  | remove src dst => exact shows_change h h4 h6 src.masked dst (computes_remove src.masked)
  | removeValue value =>
    obtain ⟨m, p, hremove, hk, hleads⟩ := leads_removeValue value h4 h.ipv4
    obtain ⟨m', p', hremove', hk', hleads'⟩ := leads_removeValue value h6 (h.ipv6.keeps hk)
    exact ⟨⟨m', p, p'⟩, by simp [Published.apply, hremove, hremove'], hk.trans hk', hleads.keeps hk', hleads'⟩

end Published
end RanetLite.Sadr
