import RanetLite.Kernel.Reconciler

/-!
# Policy rules

The rules of `cap.table`, from `internal/kernel/kernel.go`: a rule as it is configured, its expansion to one family, the spelling the
kernel reports back, and what `Table.Validate` and `New` make of a list of them. The texts of the refusals are left out; each names the
rule it is about.
-/

namespace RanetLite.Kernel

open Netip

/-- `Family`. -/
inductive Family where
  | unset
  | both
  | ipv4
  | ipv6
deriving DecidableEq, Repr

/-- `Rule`. An invalid prefix stands for a selector that is not there, a zero mark for a rule that selects on none. -/
structure Rule where
  to_ : Prefix := .none
  from_ : Prefix := .none
  fwMark : UInt32 := 0
  fwMask : UInt32 := 0
  table : UInt32
  priority : UInt32
  family : Family := .unset
deriving DecidableEq, Repr

/-- The two selectors that name a prefix. -/
inductive Selector where
  | to_
  | from_
deriving DecidableEq, Repr

/-- Why a rule is refused. -/
inductive RuleReason where
  | familyAndAddress
  | markWithoutFamily
  | family
  | otherFamily (name : Selector)
  | hostBits (name : Selector)
  | everyAddress (name : Selector)
  | selectsNothing
  | maskWithoutMark
  | priority
  | table
  | configuredTwice
deriving DecidableEq, Repr

structure RuleError where
  rule : Rule
  reason : RuleReason
deriving DecidableEq, Repr

/-- `familyOf`. -/
def familyOf (a : Addr) : Family := if a.is4 then .ipv4 else .ipv6

namespace Rule

variable {r : Rule}

/-- One rule of `expandRules`. -/
def expand (r : Rule) : Except RuleError (List Rule) :=
  if r.to_.isValid ∨ r.from_.isValid then
    if r.family ≠ .unset then .error ⟨r, .familyAndAddress⟩
    else .ok [{ r with family := familyOf (if r.to_.isValid then r.to_.addr else r.from_.addr) }]
  else match r.family with
    | .ipv4 | .ipv6 => .ok [r]
    | .both => .ok [{ r with family := .ipv4 }, { r with family := .ipv6 }]
    | .unset => .error ⟨r, .markWithoutFamily⟩

/-- `Rule.canonical`: a mask of all ones is the exact match that no mask asks for. -/
def canonical (r : Rule) : Rule := if r.fwMask = 0xffffffff then { r with fwMask := 0 } else r

/-- What `validate` asks of a selector. -/
def validateSelector (r : Rule) (name : Selector) (p : Prefix) : Except RuleError Unit :=
  if !p.isValid then .ok ()
  else if familyOf p.addr ≠ r.family then .error ⟨r, .otherFamily name⟩
  else if p.masked ≠ p then .error ⟨r, .hostBits name⟩
  else if p.bits = 0 then .error ⟨r, .everyAddress name⟩
  else .ok ()

/-- `Rule.validate`. -/
def validate (r : Rule) : Except RuleError Unit :=
  if r.family ≠ .ipv4 ∧ r.family ≠ .ipv6 then .error ⟨r, .family⟩
  else do
    r.validateSelector .to_ r.to_
    r.validateSelector .from_ r.from_
    if !r.to_.isValid ∧ !r.from_.isValid ∧ r.fwMark = 0 then .error ⟨r, .selectsNothing⟩
    else if r.fwMark = 0 ∧ r.fwMask ≠ 0 then .error ⟨r, .maskWithoutMark⟩
    else if r.priority = 0 then .error ⟨r, .priority⟩
    else if r.table = 0 then .error ⟨r, .table⟩
    else .ok ()

/-- What a selector of a rule that `validate` accepts is: not there, or a prefix of the rule's family, masked and not of length zero. -/
def ValidSelector (r : Rule) (p : Prefix) : Prop :=
  p.isValid = true → familyOf p.addr = r.family ∧ p.masked = p ∧ p.bits ≠ 0

/-- What `validate` accepts. -/
structure Valid (r : Rule) : Prop where
  family : r.family = .ipv4 ∨ r.family = .ipv6
  to_ : r.ValidSelector r.to_
  from_ : r.ValidSelector r.from_
  selects : r.to_.isValid = true ∨ r.from_.isValid = true ∨ r.fwMark ≠ 0
  mask : r.fwMark = 0 → r.fwMask = 0
  priority : r.priority ≠ 0
  table : r.table ≠ 0

theorem validateSelector_ok_iff {name : Selector} {p : Prefix} : r.validateSelector name p = .ok () ↔ r.ValidSelector p := by
  rw [validateSelector, ValidSelector]
  split_ifs <;> simp_all

theorem validate_ok_iff : r.validate = .ok () ↔ r.Valid := by
  rw [validate]
  constructor
  · intro h
    by_cases hfamily : r.family ≠ .ipv4 ∧ r.family ≠ .ipv6
    · rw [if_pos hfamily] at h
      cases h
    rw [if_neg hfamily] at h
    cases hto : r.validateSelector .to_ r.to_ with
    | error e => rw [hto] at h; cases h
    | ok _ =>
      cases hfrom : r.validateSelector .from_ r.from_ with
      | error e => rw [hto, hfrom] at h; cases h
      | ok _ =>
        rw [hto, hfrom] at h
        simp only [bind, Except.bind] at h
        split_ifs at h with hnothing hmask hpriority htable
        refine ⟨?_, validateSelector_ok_iff.mp hto, validateSelector_ok_iff.mp hfrom, ?_, ?_, hpriority, htable⟩
        · by_contra hnot
          exact hfamily (not_or.mp hnot)
        · by_contra hnot
          simp only [not_or, Bool.not_eq_true, not_not] at hnot
          exact hnothing (by simp [hnot])
        · intro hmark
          by_contra hne
          exact hmask ⟨hmark, hne⟩
  · intro h
    have hfamily : ¬ (r.family ≠ .ipv4 ∧ r.family ≠ .ipv6) := fun hboth => h.family.elim hboth.1 hboth.2
    have hnothing : ¬ ((!r.to_.isValid) = true ∧ (!r.from_.isValid) = true ∧ r.fwMark = 0) := by
      rintro ⟨hto, hfrom, hmark⟩
      rcases h.selects with h' | h' | h'
      · simp [h'] at hto
      · simp [h'] at hfrom
      · exact h' hmark
    rw [if_neg hfamily, validateSelector_ok_iff.mpr h.to_, validateSelector_ok_iff.mpr h.from_]
    simp only [bind, Except.bind]
    rw [if_neg hnothing, if_neg fun hboth => hboth.2 (h.mask hboth.1), if_neg h.priority, if_neg h.table]

theorem canonical_canonical (r : Rule) : r.canonical.canonical = r.canonical := by
  by_cases hmask : r.fwMask = 0xffffffff
  · have hcanonical : r.canonical = { r with fwMask := 0 } := if_pos hmask
    rw [hcanonical]
    rfl
  · have hcanonical : r.canonical = r := if_neg hmask
    rw [hcanonical, hcanonical]

theorem valid_canonical (h : r.Valid) : r.canonical.Valid := by
  rw [canonical]
  split_ifs
  · exact ⟨h.family, h.to_, h.from_, h.selects, fun _ => rfl, h.priority, h.table⟩
  · exact h

/-- The order of `sortedRules`. -/
def compare (a b : Rule) : Ordering :=
  let ofFamily : Family → Nat := fun f => f.ctorIdx
  (Ord.compare a.priority b.priority).then <| (Ord.compare (ofFamily a.family) (ofFamily b.family)).then <|
    (Ord.compare a.table b.table).then <| (Ord.compare a.fwMark b.fwMark).then <| (Ord.compare a.fwMask b.fwMask).then <|
    (comparePrefixes a.from_ b.from_).then (comparePrefixes a.to_ b.to_)

end Rule

/-- `expandRules`. -/
def expandRules (rules : List Rule) : Except RuleError (List Rule) := (rules.mapM Rule.expand).map List.flatten

/-- The first rule that stands twice in a list. -/
def configuredTwice : (seen rules : List Rule) → Option Rule
  | _, [] => none
  | seen, rule :: rest => if rule ∈ seen then some rule else configuredTwice (rule :: seen) rest

/-- `sortedRules`. -/
def sortedRules (rules : List Rule) : List Rule := rules.mergeSort fun a b => a.compare b ≠ .gt

/-- The part of `Table.Validate` that is about the rules, and the set `New` hands to the reconciler. -/
def newRuleSet (rules : List Rule) : Except RuleError (List Rule) := do
  let expanded ← expandRules rules
  expanded.forM Rule.validate
  match configuredTwice [] (expanded.map Rule.canonical) with
  | some rule => .error ⟨rule, .configuredTwice⟩
  | none => .ok (sortedRules (expanded.map Rule.canonical))

/-- Rules as the reconciler holds them: accepted, and spelled as the kernel reports them. -/
structure RuleSet where
  rules : List Rule
  valid : ∀ rule ∈ rules, rule.Valid
  canonical : ∀ rule ∈ rules, rule.canonical = rule

namespace RuleSet

theorem forM_ok {rules : List Rule} (h : rules.forM Rule.validate = .ok ()) : ∀ rule ∈ rules, rule.Valid := by
  induction rules with
  | nil => simp
  | cons rule rest ih =>
    rw [List.forM] at h
    cases hrule : rule.validate with
    | error e => rw [hrule] at h; cases h
    | ok _ =>
      rw [hrule] at h
      intro r hr
      rcases List.mem_cons.mp hr with rfl | hr
      · exact Rule.validate_ok_iff.mp hrule
      · exact ih h r hr

/-- What `New` accepts is such a set. -/
theorem of_newRuleSet {configured rules : List Rule} (h : newRuleSet configured = .ok rules) : ∃ set : RuleSet, set.rules = rules := by
  rw [newRuleSet] at h
  cases hexpand : expandRules configured with
  | error e => rw [hexpand] at h; cases h
  | ok expanded =>
    rw [hexpand] at h
    cases hvalid : expanded.forM Rule.validate with
    | error e => simp only [bind, Except.bind] at h; rw [hvalid] at h; cases h
    | ok _ =>
      simp only [bind, Except.bind] at h
      rw [hvalid] at h
      dsimp only at h
      split at h
      · cases h
      · cases h
        refine ⟨⟨_, fun rule hrule => ?_, fun rule hrule => ?_⟩, rfl⟩
        · obtain ⟨r, hr, rfl⟩ := List.mem_map.mp (List.mem_mergeSort.mp hrule)
          exact Rule.valid_canonical (forM_ok hvalid r hr)
        · obtain ⟨r, -, rfl⟩ := List.mem_map.mp (List.mem_mergeSort.mp hrule)
          exact r.canonical_canonical

end RuleSet
end RanetLite.Kernel
