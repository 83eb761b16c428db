import Mathlib.Data.UInt
import RanetLite.Lib.Owners

/-!
# Registration on the hub

The ESP map of `transport/mux.go`: which mux a hub routes an ESP packet to. Muxes are numbered. All of it happens under the hub's lock.
-/

namespace RanetLite.Transport

/-- The ESP map of a `Hub`, and the muxes that are closed. -/
structure Hub where
  esp : Owners UInt32 Nat := {}
  closed : Nat → Bool := fun _ => false

/-- Why an SPI is not registered. -/
inductive RegisterError where
  | espZero
  | closed
  | espTaken (spi : UInt32)
deriving DecidableEq, Repr

/-- A number in hexadecimal, with zeros in front up to a width. -/
def hex (width n : Nat) : String :=
  let digits := Nat.toDigits 16 n
  String.ofList (List.replicate (width - digits.length) '0' ++ digits)

/-- The text of the error. -/
def RegisterError.text : RegisterError → String
  | espZero => "transport: ESP SPI must be nonzero"
  | closed => "transport: closed"
  | espTaken spi => "transport: ESP SPI " ++ hex 8 spi.toNat ++ " already registered"

namespace Hub

/-- `RegisterESP`: a zero SPI, a closed mux and an SPI of another mux are refused. -/
def registerESP (h : Hub) (m : Nat) (spi : UInt32) : Except RegisterError Hub :=
  if spi = 0 then .error .espZero
  else if h.closed m then .error .closed
  else match h.esp.claim spi m with
    | none => .error (.espTaken spi)
    | some esp => .ok { h with esp := esp }

/-- `UnregisterESP`. -/
def unregisterESP (h : Hub) (m : Nat) (spi : UInt32) : Hub := { h with esp := h.esp.release spi m }

/-- `Mux.Close`: the SPIs of the mux go with it. -/
def close (h : Hub) (m : Nat) : Hub where
  esp := h.esp.clear m
  closed i := if i = m then true else h.closed i

/-- What a registration that succeeds says. -/
theorem registerESP_ok {h h' : Hub} {m : Nat} {spi : UInt32} (hreg : h.registerESP m spi = .ok h') :
    spi ≠ 0 ∧ h.closed m = false ∧ ∃ esp, h.esp.claim spi m = some esp ∧ h' = { h with esp := esp } := by
  rw [registerESP] at hreg
  split_ifs at hreg with hzero hclosed
  split at hreg
  · cases hreg
  · next esp hclaim => exact ⟨hzero, Bool.eq_false_of_not_eq_true hclosed, esp, hclaim, (Except.ok.inj hreg).symm⟩

end Hub
end RanetLite.Transport
