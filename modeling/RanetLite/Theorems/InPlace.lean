import RanetLite.Srv6.InPlace

/-!
# Encapsulating in place and by copying

The writes of `writeOuter` follow one another without a gap, so together they are one write of the header `Encapsulate` builds. The
packet has been moved behind them by then, and the header is read off it there. So a call in place leaves in its span what the copying
call returns, and nothing else changes. The check that the packet lies inside the buffer adds two `int`s; where that sum wraps, the
call neither refuses nor encapsulates.
-/

namespace RanetLite.Srv6

open Bytes Netip Buffer

/-- A packet of `size` bytes at `offset` lies inside a buffer. -/
def Slice.Holds (buf : Slice) (offset size : Int64) : Prop :=
  0 ≤ offset.toInt ∧ 0 ≤ size.toInt ∧ offset.toInt + size.toInt ≤ buf.bytes.length

/-- The packet of `size` bytes at `offset`. -/
def Slice.packet (buf : Slice) (offset size : Int64) : List UInt8 := read buf.bytes offset.toInt.toNat size.toInt.toNat

/-- What an encapsulation in place does by the copying one: it refuses a packet that is not inside the buffer, one that the copying
one refuses, and one whose encapsulation has no room, all with the buffer unchanged; or it leaves in the span it reports what the
copying one returns, and the rest as it was. -/
inductive MatchesCopy (buf : Slice) (offset size : Int64) (source : Addr) (path : List Addr) : InPlace → Prop
  | outside (h : ¬buf.Holds offset size) : MatchesCopy buf offset size source path ⟨buf.bytes, some (.error (.outside offset size buf.len))⟩
  | refuses {e : SegmentError} (h : buf.Holds offset size) (refused : encapsulate (buf.packet offset size) source path = .error e) :
      MatchesCopy buf offset size source path ⟨buf.bytes, some (.error (.segment e))⟩
  | noRoom {out : List UInt8} {room : Int64} (h : buf.Holds offset size)
      (copied : encapsulate (buf.packet offset size) source path = .ok out) (short : buf.bytes.length < offset.toInt + out.length)
      (left : room.toInt = buf.bytes.length - offset.toInt - size.toInt) :
      MatchesCopy buf offset size source path ⟨buf.bytes, some (.error (.noRoom size (Int64.ofNat (overhead path.length)) room))⟩
  | writes {out after : List UInt8} {n : Int64} (h : buf.Holds offset size)
      (copied : encapsulate (buf.packet offset size) source path = .ok out) (reports : n.toInt = out.length)
      (length : after.length = buf.bytes.length) (span : read after offset.toInt.toNat out.length = out)
      (frame : ∀ i : Nat, i < offset.toInt ∨ offset.toInt + n.toInt ≤ i → after[i]? = buf.bytes[i]?) :
      MatchesCopy buf offset size source path ⟨after, some (.ok n)⟩

namespace InPlaceAux

variable {buf : Slice} {offset size : Int64} {source : Addr} {path : List Addr} {inner : List UInt8} {next : UInt8} {n : Nat}

/-! ### The sums -/

theorem toInt_len (buf : Slice) : buf.len.toInt = buf.bytes.length :=
  Int64.toInt_ofNat_of_lt (lt_of_le_of_lt buf.fits (by decide))

theorem toInt_sum {a b : Int64} (h : -2 ^ 63 ≤ a.toInt + b.toInt) (h' : a.toInt + b.toInt < 2 ^ 63) : (a + b).toInt = a.toInt + b.toInt := by
  rw [Int64.toInt_add, Int.bmod_eq_of_le (by omega) (by omega)]

/-- The sum of two `int`s that are not negative wraps exactly when it is below either of them. -/
theorem sum_lt_iff (ha : 0 ≤ offset.toInt) (hb : 0 ≤ size.toInt) : offset + size < offset ↔ 2 ^ 63 ≤ offset.toInt + size.toInt := by
  have ha' := offset.toInt_lt
  have hb' := size.toInt_lt
  rw [Int64.lt_iff_toInt_lt]
  by_cases h : offset.toInt + size.toInt < 2 ^ 63
  · rw [toInt_sum (by omega) h]
    omega
  · rw [Int64.toInt_add, Int.bmod_def]
    omega

/-- The guard refuses what is not inside the buffer, unless the sum wraps. -/
theorem guard_iff (buf : Slice) (offset size : Int64) : offset < 0 ∨ size < 0 ∨ buf.len < offset + size ↔
    ¬buf.Holds offset size ∧ ¬(0 ≤ offset.toInt ∧ 0 ≤ size.toInt ∧ 2 ^ 63 ≤ offset.toInt + size.toInt) := by
  have hlen := toInt_len buf
  have hfits := buf.fits
  have ha' := offset.toInt_lt
  have hb' := size.toInt_lt
  have hzero : (0 : Int64).toInt = 0 := rfl
  unfold Slice.Holds maxAlloc at *
  rw [Int64.lt_iff_toInt_lt, Int64.lt_iff_toInt_lt, Int64.lt_iff_toInt_lt, hlen, hzero]
  by_cases h : offset.toInt < 0 ∨ size.toInt < 0
  · refine iff_of_true (by omega) (by omega)
  · by_cases hsum : offset.toInt + size.toInt < 2 ^ 63
    · rw [toInt_sum (by omega) hsum]
      omega
    · rw [Int64.toInt_add, Int.bmod_def]
      omega

/-! ### The check and the copying encapsulation -/

theorem long_of_innerNextHeader (h : innerNextHeader inner = .ok next) (hsix : next = nextHeaderIPv6) :
    ipv6HeaderLen ≤ inner.length := by
  obtain ⟨-, rfl | ⟨-, -, hlong⟩⟩ := innerNextHeader_ok h
  · exact absurd hsix (by decide)
  · exact hlong

/-- Both calls run one check. -/
theorem encapsulate_of_error {e : SegmentError} (h : checkEncapsulation inner source path = .error e) :
    encapsulate inner source path = .error e := by
  unfold checkEncapsulation at h
  unfold encapsulate
  cases hpath : checkPath source path with
  | some e' =>
    rw [hpath] at h
    exact congrArg Except.error (Except.error.inj h)
  | none =>
    rw [hpath] at h
    cases hnext : innerNextHeader inner with
    | error e' =>
      rw [hnext] at h
      exact congrArg Except.error (Except.error.inj h)
    | ok next =>
      rw [hnext] at h
      dsimp only at h ⊢
      split_ifs at h ⊢
      exact congrArg Except.error (Except.error.inj h)

theorem encapsulate_of_ok (h : checkEncapsulation inner source path = .ok n) :
    n = overhead path.length ∧ path ≠ [] ∧ srhFixedLen + addrLen * path.length + inner.length ≤ 0xffff ∧
      ∃ next, innerNextHeader inner = .ok next ∧ encapsulate inner source path = .ok (writeOuter inner next source path ++ inner) := by
  unfold checkEncapsulation at h
  unfold encapsulate
  cases hpath : checkPath source path with
  | some e =>
    rw [hpath] at h
    cases h
  | none =>
    rw [hpath] at h
    have hsome : path ≠ [] := by
      rintro rfl
      simp [checkPath] at hpath
    cases hnext : innerNextHeader inner with
    | error e =>
      rw [hnext] at h
      cases h
    | ok next =>
      rw [hnext] at h
      dsimp only at h ⊢
      split_ifs at h with hpayload
      rw [if_neg hpayload]
      exact ⟨(Except.ok.inj h).symm, hsome, not_lt.1 hpayload, next, rfl, rfl⟩

/-! ### The writes of the header -/

theorem length_writeOuter (hnext : next = nextHeaderIPv6 → 4 ≤ inner.length) :
    (writeOuter inner next source path).length = overhead path.length := by
  unfold writeOuter overhead
  dsimp only
  have hfirst : (if next = nextHeaderIPv6 then inner.take 4 else [0x60, 0, 0, 0]).length = 4 := by
    split_ifs with h
    · rw [List.length_take]
      have := hnext h
      omega
    · rfl
  simp only [List.length_append, List.length_cons, hfirst, length_toBytes, length_addr16, length_flatMap16 length_addr16, List.length_reverse,
    ipv6HeaderLen, srhFixedLen, addrLen]
  omega

theorem writeSegments_eq (b : List UInt8) (i : Nat) (segments : List Addr) :
    writeSegments b i segments = write b i (segments.flatMap addr16) := by
  induction segments generalizing b i with
  | nil => exact (write_nil b i).symm
  | cons a rest ih =>
    rw [writeSegments, ih, List.flatMap_cons]
    exact write_next (length_addr16 a)

/-- The writes of `writeOuter` are one, of the header the copying encapsulation builds. -/
theorem writeOuterInto_eq {b : List UInt8} {out at_ : Nat} (hat : at_ + n ≤ b.length)
    (hnext : innerNextHeader (read b at_ n) = .ok next) :
    writeOuterInto b out at_ n source path = write b out (writeOuter (read b at_ n) next source path) := by
  have hlen := length_read hat
  have hfour : next = nextHeaderIPv6 → 4 ≤ (read b at_ n).length := fun h => le_trans (by decide) (long_of_innerNextHeader hnext h)
  have hget : (innerNextHeader (read b at_ n)).toOption.getD 0 = next := by
    rw [hnext]
    rfl
  unfold writeOuterInto writeOuter
  dsimp only
  rw [hget]
  generalize read b at_ n = inner at hlen hfour ⊢
  subst hlen
  -- the first four bytes are one write, whichever family they are of
  have hfirst : (if next = nextHeaderIPv6 then write b out (inner.take 4) else write (write b out [0x60, 0]) (out + 2) [0, 0]) =
      write b out (if next = nextHeaderIPv6 then inner.take 4 else [0x60, 0, 0, 0]) := by
    split_ifs
    · rfl
    · exact write_next rfl
  have hlength : (if next = nextHeaderIPv6 then inner.take 4 else [0x60, 0, 0, 0]).length = 4 := by
    split_ifs with h
    · rw [List.length_take]
      have := hfour h
      omega
    · rfl
  rw [hfirst]
  generalize (if next = nextHeaderIPv6 then inner.take 4 else [0x60, 0, 0, 0]) = first at hlength ⊢
  rw [write_next hlength, write_next (by simp [hlength]), write_next (by simp [hlength]), write_next (by simp [hlength]),
    write_next (by simp [hlength]), write_next (by simp [hlength]), write_next (by simp [hlength]), write_next (by simp [hlength]),
    write_next (by simp [hlength]), write_next (by simp [hlength]), write_next (by simp [hlength]), writeSegments_eq,
    write_next (by simp [hlength])]
  congr 1
  simp [List.append_assoc]

/-- The bytes after a call that encapsulates: what was moved, and the header over what it left. -/
theorem written_eq {next : UInt8} {b : List UInt8} {o n : Nat} (hfit : o + overhead path.length + n ≤ b.length)
    (hnext : innerNextHeader (read b o n) = .ok next) :
    writeOuterInto (write b (o + overhead path.length) (read b o n)) o (o + overhead path.length) n source path =
      write b o (writeOuter (read b o n) next source path ++ read b o n) := by
  have hn : (read b o n).length = n := length_read (by omega)
  have hback : read (write b (o + overhead path.length) (read b o n)) (o + overhead path.length) n = read b o n := by
    have := @read_write_self UInt8 b (o + overhead path.length) (read b o n) (by omega)
    rwa [hn] at this
  have hheader : (writeOuter (read b o n) next source path).length = overhead path.length :=
    length_writeOuter fun h => le_trans (by decide) (long_of_innerNextHeader hnext h)
  rw [writeOuterInto_eq (by rw [length_write]; omega) (by rw [hback]; exact hnext), hback, ← write_write, hheader]
  generalize writeOuter (read b o n) next source path = header at hheader
  generalize read b o n = inner
  -- the two writes do not meet, so their order does not matter
  refine List.ext_getElem? fun j => ?_
  rw [getElem?_write, getElem?_write, getElem?_write, getElem?_write, length_write, length_write, hheader]
  split_ifs <;> first | rfl | omega

/-- A packet inside the buffer that is not refused is encapsulated or has no room. -/
theorem matches_of_ok (h : buf.Holds offset size) (hcheck : checkEncapsulation (buf.packet offset size) source path = .ok n) :
    MatchesCopy buf offset size source path
      (if buf.len < offset + Int64.ofNat n + size then
        ⟨buf.bytes, some (.error (.noRoom size (Int64.ofNat n) (buf.len - offset - size)))⟩
      else
        ⟨writeOuterInto (write buf.bytes (offset + Int64.ofNat n).toNatClampNeg (buf.packet offset size)) offset.toNatClampNeg
          (offset + Int64.ofNat n).toNatClampNeg size.toNatClampNeg source path, some (.ok (Int64.ofNat n + size))⟩) := by
  obtain ⟨rfl, -, hpayload, next, hnext, hcopy⟩ := encapsulate_of_ok hcheck
  obtain ⟨hoffset, hsize, hinside⟩ := h
  have hfits := buf.fits
  have hlen := toInt_len buf
  have hover : overhead path.length ≤ 0xffff + ipv6HeaderLen := by
    unfold overhead srhFixedLen addrLen at *
    omega
  unfold maxAlloc at hfits
  unfold ipv6HeaderLen at hover
  have hn : (Int64.ofNat (overhead path.length)).toInt = overhead path.length := Int64.toInt_ofNat_of_lt (by omega)
  have hfirst : (offset + Int64.ofNat (overhead path.length)).toInt = offset.toInt + overhead path.length := by
    rw [toInt_sum (by omega) (by omega), hn]
  have hsecond : (offset + Int64.ofNat (overhead path.length) + size).toInt = offset.toInt + overhead path.length + size.toInt := by
    rw [toInt_sum (by omega) (by omega), hfirst]
  have hpacket : (buf.packet offset size).length = size.toInt.toNat := length_read (by omega)
  have hheader : (writeOuter (buf.packet offset size) next source path).length = overhead path.length :=
    length_writeOuter fun h => le_trans (by decide) (long_of_innerNextHeader hnext h)
  have hout : (writeOuter (buf.packet offset size) next source path ++ buf.packet offset size).length =
      overhead path.length + size.toInt.toNat := by rw [List.length_append, hheader, hpacket]
  split_ifs with hroom <;> rw [Int64.lt_iff_toInt_lt, hlen, hsecond] at hroom
  · refine .noRoom ⟨hoffset, hsize, hinside⟩ hcopy (by rw [hout]; omega) ?_
    rw [Int64.toInt_sub, Int64.toInt_sub, hlen, Int.bmod_eq_of_le (by omega : _ ≤ (buf.bytes.length : Int) - offset.toInt) (by omega),
      Int.bmod_eq_of_le (by omega) (by omega)]
  · have hat : (offset + Int64.ofNat (overhead path.length)).toNatClampNeg = offset.toInt.toNat + overhead path.length := by
      show Int.toNat _ = _
      rw [hfirst]
      omega
    have hafter := @written_eq source path next buf.bytes offset.toInt.toNat size.toInt.toNat (by omega) hnext
    have hreports : (Int64.ofNat (overhead path.length) + size).toInt = overhead path.length + size.toInt := by
      rw [toInt_sum (by omega) (by omega), hn]
    refine .writes ⟨hoffset, hsize, hinside⟩ hcopy (by rw [hreports, hout]; omega) ?_ ?_ fun i hi => ?_
    · rw [hat]
      exact (congrArg List.length hafter).trans (length_write _ _ _)
    · rw [hat]
      refine (congrArg (fun b => read b _ _) hafter).trans (read_write_self ?_)
      show _ + (writeOuter (buf.packet offset size) next source path ++ buf.packet offset size).length ≤ _
      rw [hout]
      omega
    · rw [hat]
      refine (congrArg (fun b => b[i]?) hafter).trans (getElem?_write_of_outside ?_)
      show _ ∨ _ + (writeOuter (buf.packet offset size) next source path ++ buf.packet offset size).length ≤ _
      rw [hout]
      rw [hreports] at hi
      omega

end InPlaceAux

open InPlaceAux

/-- Encapsulating in place is encapsulating by copying, exactly when the sum that the guard computes does not wrap. -/
theorem in_place_matches_copy_iff (buf : Slice) (offset size : Int64) (source : Addr) (path : List Addr) :
    MatchesCopy buf offset size source path (encapsulateInPlace buf offset size source path) ↔
      offset.toInt < 0 ∨ size.toInt < 0 ∨ offset.toInt + size.toInt < 2 ^ 63 := by
  unfold encapsulateInPlace
  by_cases hwrap : 0 ≤ offset.toInt ∧ 0 ≤ size.toInt ∧ 2 ^ 63 ≤ offset.toInt + size.toInt
  · -- past the guard, the slice expression has its bounds in the wrong order
    rw [if_neg (mt (guard_iff buf offset size).1 fun h => h.2 hwrap), if_pos ((sum_lt_iff hwrap.1 hwrap.2.1).2 hwrap.2.2)]
    refine iff_of_false (fun h => by cases h) (by omega)
  · refine iff_of_true ?_ (by omega)
    by_cases hholds : buf.Holds offset size
    · rw [if_neg (mt (guard_iff buf offset size).1 fun h => h.1 hholds),
        if_neg (mt (sum_lt_iff hholds.1 hholds.2.1).1 fun h => hwrap ⟨hholds.1, hholds.2.1, h⟩)]
      have hpacket : read buf.bytes offset.toNatClampNeg size.toNatClampNeg = buf.packet offset size := rfl
      rw [hpacket]
      dsimp only
      cases hcheck : checkEncapsulation (buf.packet offset size) source path with
      | error e => exact .refuses hholds (encapsulate_of_error hcheck)
      | ok n => exact matches_of_ok hholds hcheck
    · rw [if_pos ((guard_iff buf offset size).2 ⟨hholds, hwrap⟩)]
      exact .outside hholds

/-- A buffer with room behind a packet of twenty bytes, at an offset of two. -/
def roomySlice : Slice := ⟨[7, 7] ++ (0x45 :: List.replicate 19 0) ++ List.replicate 70 7, by decide⟩

/-- A tunnel source and a segment. -/
def tunnelSource : Addr := .v6 0x3fff0001069c08c00000000000000001#128 ""

theorem in_place_matches_copy_roomy : MatchesCopy roomySlice 2 20 tunnelSource [tunnelSource]
    (encapsulateInPlace roomySlice 2 20 tunnelSource [tunnelSource]) :=
  (in_place_matches_copy_iff roomySlice 2 20 tunnelSource [tunnelSource]).2 (by decide)

/-- A packet of one byte at the largest offset: the sum wraps below zero, and the call panics. -/
theorem in_place_panics : (encapsulateInPlace roomySlice (2 ^ 63 - 1) 1 tunnelSource [tunnelSource]).result = none ∧
    ¬MatchesCopy roomySlice (2 ^ 63 - 1) 1 tunnelSource [tunnelSource]
      (encapsulateInPlace roomySlice (2 ^ 63 - 1) 1 tunnelSource [tunnelSource]) := by
  have hnone : (encapsulateInPlace roomySlice (2 ^ 63 - 1) 1 tunnelSource [tunnelSource]).result = none := by decide +kernel
  refine ⟨hnone, fun h => ?_⟩
  generalize encapsulateInPlace roomySlice (2 ^ 63 - 1) 1 tunnelSource [tunnelSource] = r at hnone h
  cases h <;> cases hnone

end RanetLite.Srv6
