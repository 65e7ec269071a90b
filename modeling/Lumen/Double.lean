namespace Lumen

structure Double where
  bits : UInt64
deriving DecidableEq

namespace Double

inductive View where
  | notANumber
  | infinite (negative : Bool)
  | finite (negative : Bool) (m : Nat) (q : Int)
deriving DecidableEq

def leastExponent : Int := -1074

def ofMagnitude (negative : Bool) (magnitude : Nat) : Double :=
  ⟨UInt64.ofNat (if negative then Nat.pow 2 63 + magnitude else magnitude)⟩

def infinity : Nat := 2047 * Nat.pow 2 52

def notANumber (negative : Bool) : Double :=
  ofMagnitude negative (infinity + Nat.pow 2 51)

def view (x : Double) : View :=
  let negative := decide (Nat.pow 2 63 ≤ x.bits.toNat)
  let magnitude := x.bits.toNat % Nat.pow 2 63
  let exponent : Nat := magnitude / Nat.pow 2 52
  let fraction := magnitude % Nat.pow 2 52
  if infinity < magnitude then .notANumber
  else if magnitude = infinity then .infinite negative
  else if exponent = 0 then .finite negative fraction leastExponent
  else .finite negative (Nat.pow 2 52 + fraction) ((exponent : Int) - 1 + leastExponent)

def roundedQuotient (num den : Nat) : Nat :=
  let q := num / den
  let rest := num % den
  if den < 2 * rest ∨ (den = 2 * rest ∧ q % 2 = 1) then q + 1 else q

def powerOfTwoLE (k : Int) (num den : Nat) : Bool :=
  den * Nat.pow 2 k.toNat ≤ num * Nat.pow 2 (-k).toNat

def floorLogTwo (num den : Nat) : Int :=
  let guess : Int := Nat.log2 num - Nat.log2 den
  if powerOfTwoLE guess num den then guess else guess - 1

-- Magnitude of the number nearest to `num / den`. Numbers are counted through all exponents, so
-- a rounding up to the next power of two, and on to infinity, needs no case of its own.
def nearestMagnitude (num den : Nat) : Nat :=
  let q := max (floorLogTwo num den - 52) leastExponent
  let m := roundedQuotient (num * Nat.pow 2 (-q).toNat) (den * Nat.pow 2 q.toNat)
  min ((q - leastExponent).toNat * Nat.pow 2 52 + m) infinity

def ofRatio (negative : Bool) (num den : Nat) : Double :=
  ofMagnitude negative (if num = 0 then 0 else nearestMagnitude num den)

end Double
end Lumen
