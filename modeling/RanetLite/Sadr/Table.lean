import RanetLite.Netip

/-!
# Source-address-dependent routing table

`sadr/table.go`. The table is one path-compressed trie per family, keyed by destination; a node carries the entries of its
destination, one per source prefix, longest source first. IPv4 destinations use their mapped 128-bit form. The copy-on-write
discipline of the source is what a persistent value already is, so a writer here is a function from tries to tries.
-/

namespace RanetLite.Sadr

open Netip BitPrefix

variable {V : Type}

/-- `srcEntry`: a source prefix, invalid when it matches everything, and the value routed to. -/
structure SrcEntry (V : Type) where
  src : Prefix
  value : V
deriving DecidableEq, Repr

/-- `srcIndex`: every source prefix of one length at one destination node. -/
structure SrcIndex (V : Type) where
  bits : Nat
  m : Prefix → Option V

/-- `trieNode`, or the nil pointer. Only the first `prefixLen` bits of `address` are significant. -/
inductive Trie (V : Type) where
  | nil
  | node (address : BitVec 128) (prefixLen : Nat) (srcs : List (SrcEntry V)) (child : Bool → Trie V)

/-- The nil pointer test. -/
def Trie.isNil : Trie V → Bool
  | .nil => true
  | .node .. => false

/-- `indexThreshold`. -/
def indexThreshold : Nat := 4

/-- The first loop of `indexSrcs`: how many entries have a source, and how many runs of one length they form. -/
def countRuns : Option (SrcEntry V) → List (SrcEntry V) → Nat × Nat
  | _, [] => (0, 0)
  | prev, entry :: rest =>
    let (specific, runs) := countRuns (some entry) rest
    if !entry.src.isValid then (specific, runs)
    else (specific + 1, if prev.all (fun p => p.src.bits != entry.src.bits) then runs + 1 else runs)

/-- One group of the index: later entries of a run overwrite earlier ones, as map assignment does. -/
def groupMap (run : List (SrcEntry V)) : Prefix → Option V :=
  run.foldl (fun m entry => fun p => if p = entry.src then some entry.value else m p) (fun _ => none)

/-- The second loop of `indexSrcs`: one group per run of entries of one length. -/
def groupSrcs : List (SrcEntry V) → List (SrcIndex V)
  | [] => []
  | entry :: rest =>
    if !entry.src.isValid then groupSrcs rest
    else
      let same := fun e : SrcEntry V => e.src.isValid && e.src.bits == entry.src.bits
      { bits := entry.src.bits.toNat, m := groupMap (entry :: rest.takeWhile same) } :: groupSrcs (rest.dropWhile same)
termination_by srcs => srcs.length
decreasing_by
  · simp
  · exact Nat.lt_succ_of_le ((List.dropWhile_sublist _).length_le)

/-- `indexSrcs`: no index where it would not pay. -/
def indexSrcs (srcs : List (SrcEntry V)) : Option (List (SrcIndex V)) :=
  let (specific, runs) := countRuns none srcs
  if runs = 0 ∨ specific < runs * indexThreshold then none else some (groupSrcs srcs)

/-- `matchAllSource`: the entry whose source matches every address. -/
def matchAllSource (srcs : List (SrcEntry V)) : Option V :=
  (srcs.find? (fun entry => !entry.src.isValid)).map (·.value)

/-- `newTrieNode`: a node without children. -/
def newTrieNode (address : BitVec 128) (prefixLen : Nat) (srcs : List (SrcEntry V)) : Trie V :=
  .node address prefixLen srcs (fun _ => .nil)

/-- `branch`: which child an address takes past `bit` bits. -/
def branch (address : BitVec 128) (bit : Nat) : Bool := address.getMsbD bit

/-- The first eight bytes of an address, big-endian. -/
def hiWord (a : BitVec 128) : BitVec 64 := a.extractLsb' 64 64

/-- The last eight bytes of an address, big-endian. -/
def loWord (a : BitVec 128) : BitVec 64 := a.extractLsb' 0 64

/-- `commonBits`: the length of the longest common prefix. -/
def commonBits (a b : BitVec 128) : Nat :=
  let common := leadingZeros (hiWord a ^^^ hiWord b)
  if common = 64 then common + leadingZeros (loWord a ^^^ loWord b) else common

/-- `trieNode.matches`: whether the node's destination covers an address given as two words. -/
def matchesWords (address : BitVec 128) (prefixLen : Nat) (hi lo : BitVec 64) : Bool :=
  let highDiff := hiWord address ^^^ hi
  if prefixLen ≤ 64 then highDiff >>> (64 - prefixLen) == 0
  else highDiff == 0 && (loWord address ^^^ lo) >>> (128 - prefixLen) == 0

/-- `compact`: a node that carries no entry and has at most one child is replaced by that child. -/
def compact (address : BitVec 128) (prefixLen : Nat) (srcs : List (SrcEntry V)) (child : Bool → Trie V) : Trie V :=
  if srcs.isEmpty && (child false).isNil then child true
  else if srcs.isEmpty && (child true).isNil then child false
  else .node address prefixLen srcs child

/-- `edit`: apply `change` to the entries of one destination. -/
def edit (change : List (SrcEntry V) → List (SrcEntry V)) (address : BitVec 128) (prefixLen : Nat) : Trie V → Trie V
  | .nil => if (change []).isEmpty then .nil else newTrieNode address prefixLen (change [])
  | .node nAddress nPrefixLen nSrcs nChild =>
    let n := Trie.node nAddress nPrefixLen nSrcs nChild
    let common := min (min (commonBits nAddress address) nPrefixLen) prefixLen
    if common < nPrefixLen then
      let srcs := change []
      if srcs.isEmpty then n -- removing an absent destination
      else
        let child := Function.update (fun _ => Trie.nil) (branch nAddress common) n
        if common = prefixLen then .node address common srcs child
        else .node address common []
          (Function.update child (branch address common) (newTrieNode address prefixLen srcs))
    else if nPrefixLen = prefixLen then compact nAddress nPrefixLen (change nSrcs) nChild
    else
      let bit := branch address nPrefixLen
      compact nAddress nPrefixLen nSrcs
        (Function.update nChild bit (edit change address prefixLen (nChild bit)))

/-- `roots`: the two tries of a table. -/
structure Table (V : Type) where
  ipv4 : Trie V := .nil
  ipv6 : Trie V := .nil

/-- `validPrefixes`. -/
def validPrefixes (src dst : Prefix) : Bool :=
  dst.isValid && (!src.isValid || src.addr.bitLen == dst.addr.bitLen)

/-- The entry of the longest source that contains an address: one masked map lookup per length when there is an index, else
the ordered scan. -/
def matchSource (srcs : List (SrcEntry V)) (src : Addr) : Option V :=
  match indexSrcs srcs with
  | some byLen => byLen.findSome? (fun group => group.m (prefixFrom src group.bits).masked)
  | none => (srcs.find? (fun entry => entry.src.isValid && entry.src.contains src)).map (·.value)

/-- What a node answers a source with: the longest match, and the match-all entry when nothing else matched. -/
def pickSource (srcs : List (SrcEntry V)) (src : Addr) : Option V := (matchSource srcs src).or (matchAllSource srcs)

/-- The loop of `Lookup`: a deeper node that answers overwrites the result so far. -/
def lookupLoop (src : Addr) (address : BitVec 128) : Trie V → Option V → Option V
  | .nil, result => result
  | .node nAddress prefixLen srcs child, result =>
    if !matchesWords nAddress prefixLen (hiWord address) (loWord address) then result
    else
      let result := (pickSource srcs src).or result
      if prefixLen = 128 then result else lookupLoop src address (child (branch address prefixLen)) result

/-- `Table.Lookup`. -/
def Table.lookup (t : Table V) (src dst : Addr) : Option V :=
  if !dst.isValid then none
  else lookupLoop src dst.as16 (if dst.is4 then t.ipv4 else t.ipv6) none

variable [DecidableEq V]

/-- `removeValue`, with whether it handed back the node it was given: the source compares the pointers of the children. -/
def removeValue (value : V) : Trie V → Trie V × Bool
  | .nil => (.nil, true)
  | .node address prefixLen srcs child =>
    let left := removeValue value (child false)
    let right := removeValue value (child true)
    let found := srcs.any (fun entry => entry.value = value)
    if !found && left.2 && right.2 then (.node address prefixLen srcs child, true)
    else
      let kept := if found then srcs.filter (fun entry => entry.value ≠ value) else srcs
      (compact address prefixLen kept (fun bit => if bit then right.1 else left.1), false)

/-- The function `Set` passes to `change`: replace the entry of an equal source, else insert before the first entry whose
source is not longer, which is where a binary search of entries sorted longest first lands. -/
def setEntry (src : Prefix) (value : V) (entries : List (SrcEntry V)) : List (SrcEntry V) :=
  if entries.any (fun entry => entry.src = src) then
    entries.map (fun entry => if entry.src = src then { entry with value := value } else entry)
  else
    let longer := fun entry : SrcEntry V => decide (src.bits < entry.src.bits)
    entries.takeWhile longer ++ { src := src, value := value } :: entries.dropWhile longer

/-- The function `Remove` passes to `change`. -/
def removeEntry (src : Prefix) (entries : List (SrcEntry V)) : List (SrcEntry V) :=
  entries.eraseP (fun entry => entry.src = src)

namespace Table

/-- `Table.change`. -/
def change (t : Table V) (src dst : Prefix) (fn : List (SrcEntry V) → List (SrcEntry V)) : Table V :=
  if !validPrefixes src dst then t
  else if dst.addr.is4 then { t with ipv4 := edit fn dst.addr.as16 (dst.bits.toNat + 96) t.ipv4 }
  else { t with ipv6 := edit fn dst.addr.as16 dst.bits.toNat t.ipv6 }

/-- `Table.Set`. -/
def set (t : Table V) (src dst : Prefix) (value : V) : Table V := t.change src.masked dst (setEntry src.masked value)

/-- `Table.Remove`. -/
def remove (t : Table V) (src dst : Prefix) : Table V := t.change src.masked dst (removeEntry src.masked)

/-- `Table.RemoveValue`. -/
def removeValue (t : Table V) (value : V) : Table V :=
  { ipv4 := (Sadr.removeValue value t.ipv4).1, ipv6 := (Sadr.removeValue value t.ipv6).1 }

end Table

end RanetLite.Sadr
