import RanetLite.Lib.WordBitmap

/-!
# The anti-replay window of an inbound SA

`esp/replay.go`: a circular bitmap of `window` bits, in which sequence number `s` has the slot `(s - 1) % window` and `last` is
the highest number committed. An index outside the bitmap is a run-time panic in the source; here every function that indexes
returns an `Option`, and `none` is that panic. Sequence numbers and slots are the source's own 32-bit words, so a subtraction
that wraps there wraps here.
-/

namespace RanetLite.Esp

open WordBitmap

/-- The window of one SA. A zero `window` disables replay checking. -/
structure ReplayWindow where
  window : UInt32
  last : UInt32
  mask : List (BitVec 64)
  deriving DecidableEq, Repr

/-- Why a sequence number is refused. -/
inductive ReplayError where
  | invalid
  | tooOld (seq window last : UInt32)
  | replayed (seq : UInt32)
  deriving DecidableEq, Repr

/-- The text of the error. -/
def ReplayError.text : ReplayError → String
  | .invalid => "esp: sequence number 0 is invalid"
  | .tooOld seq window last => s!"esp: sequence {seq} too old (window is {window} packets behind {last})"
  | .replayed seq => s!"esp: sequence {seq} replayed"

def newReplayWindow (window : UInt32) : ReplayWindow :=
  { window := window, last := 0, mask := List.replicate ((window.toNat + 63) / 64) 0 }

namespace ReplayWindow

/-- The slot of the number `diff` behind `last`. -/
def bit (w : ReplayWindow) (last diff : UInt32) : UInt32 :=
  let pos := (last - 1) % w.window
  (pos + w.window - diff) % w.window

/-- Whether a slot is marked. -/
def set (w : ReplayWindow) (bit : UInt32) : Option Bool := do
  let word ← w.mask[(bit / 64).toNat]?
  return word &&& (1#64 <<< (bit % 64).toNat) != 0#64

def mark (w : ReplayWindow) (bit : UInt32) : Option ReplayWindow := do
  let word ← w.mask[(bit / 64).toNat]?
  return { w with mask := w.mask.set (bit / 64).toNat (word ||| 1#64 <<< (bit % 64).toNat) }

/-- `mask[k] &^= bits`. -/
def clearWord (mask : List (BitVec 64)) (k : UInt32) (bits : BitVec 64) : Option (List (BitVec 64)) := do
  let word ← mask[k.toNat]?
  return mask.set k.toNat (word &&& ~~~bits)

/-- The first word of a span, when the span starts inside it: its top bits are cleared, and the whole words start after it. -/
def clearHead (mask : List (BitVec 64)) (start first : UInt32) : Option (List (BitVec 64) × UInt32) :=
  if start % 64 ≠ 0 then do
    let mask ← clearWord mask first (BitVec.allOnes 64 <<< (start % 64).toNat)
    return (mask, first + 1)
  else some (mask, first)

/-- The last word of a span, when the span stops inside it: its bottom bits are cleared, and the whole words stop before it. -/
def clearTail (mask : List (BitVec 64)) (stop last : UInt32) : Option (List (BitVec 64) × UInt32) :=
  if stop % 64 ≠ 0 then do
    let mask ← clearWord mask last (BitVec.allOnes 64 >>> (64 - stop % 64).toNat)
    return (mask, last - 1)
  else some (mask, last)

/-- `clear(mask[first : last+1])`; the slice expression panics past the end of the bitmap. -/
def clearWords (mask : List (BitVec 64)) (first last : UInt32) : Option (List (BitVec 64)) :=
  if first ≤ last then
    if mask.length < (last + 1).toNat then none else some (zeroWords mask first.toNat (last + 1).toNat)
  else some mask

/-- Clears `n` bits from `start` without wrapping: two partial words and the whole words between them. -/
def clearSpan (w : ReplayWindow) (start n : UInt32) : Option ReplayWindow := do
  if n = 0 then
    return w
  let stop := start + n
  let first := start / 64
  let last := (stop - 1) / 64
  if first = last then
    let mask ← clearWord w.mask first ((BitVec.allOnes 64 >>> (64 - n).toNat) <<< (start % 64).toNat)
    return { w with mask := mask }
  let (mask, first) ← clearHead w.mask start first
  let (mask, last) ← clearTail mask stop last
  return { w with mask := ← clearWords mask first last }

/-- Clears `n` bits from `start`, wrapping at the window. -/
def clearRange (w : ReplayWindow) (start n : UInt32) : Option ReplayWindow := do
  if n = 0 then
    return w
  let start := start % w.window
  if w.window < start + n then
    let head := w.window - start
    let w ← w.clearSpan start head
    w.clearSpan 0 (n - head)
  else w.clearSpan start n

def check (w : ReplayWindow) (seq : UInt32) : Option (Except ReplayError Unit) := do
  if w.window = 0 then
    return .ok ()
  if seq = 0 then
    return .error .invalid
  if w.last = 0 ∨ w.last < seq then
    return .ok ()
  let diff := w.last - seq
  if w.window ≤ diff then
    return .error (.tooOld seq w.window w.last)
  if ← w.set (w.bit w.last diff) then
    return .error (.replayed seq)
  return .ok ()

def commit (w : ReplayWindow) (seq : UInt32) : Option ReplayWindow := do
  if w.window = 0 then
    return w
  if w.last = 0 then
    mark { w with last := seq } ((seq - 1) % w.window)
  else if w.last < seq then
    let diff := seq - w.last
    let cleared ←
      if w.window ≤ diff then pure { w with mask := List.replicate w.mask.length 0 }
      else w.clearRange ((w.last - 1) % w.window + 1) (diff - 1)
    mark { cleared with last := seq } ((seq - 1) % w.window)
  else w.mark (w.bit w.last (w.last - seq))

/-- One number offered to the window: checked, and committed when the check passes. -/
def offer (w : ReplayWindow) (seq : UInt32) : Option (ReplayWindow × Bool) := do
  match ← w.check seq with
  | .error _ => return (w, false)
  | .ok () => return (← w.commit seq, true)

/-- A sequence of numbers offered one after the other, with the verdict on each. -/
def offerAll (w : ReplayWindow) : List UInt32 → Option (ReplayWindow × List Bool)
  | [] => some (w, [])
  | seq :: rest => do
    let (w, accepted) ← w.offer seq
    let (w, verdicts) ← w.offerAll rest
    return (w, accepted :: verdicts)

end ReplayWindow

end RanetLite.Esp
