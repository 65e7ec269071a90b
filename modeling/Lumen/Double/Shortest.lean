import Lumen.Double

namespace Lumen.Double

inductive Tie where
  | down | up
deriving DecidableEq

def powerOfTenLE (k : Int) (num den : Nat) : Bool :=
  den * Nat.pow 10 k.toNat ≤ num * Nat.pow 10 (-k).toNat

def floorLogTen (num den : Nat) : Int :=
  let guess : Int := (Nat.toDigits 10 num).length - (Nat.toDigits 10 den).length
  if powerOfTenLE guess num den then guess else guess - 1

-- The range of reals that read back as `m * 2 ^ q`, in quarters of the last place. Below a power
-- of two the neighbours are twice as close as above it.
structure Range where
  low       : Nat
  value     : Nat
  high      : Nat
  inclusive : Bool

def Range.around (m : Nat) (q : Int) : Range where
  low := 4 * m - if m = Nat.pow 2 52 ∧ leastExponent < q then 1 else 2
  value := 4 * m
  high := 4 * m + 2
  inclusive := m % 2 = 0

def Range.contains (r : Range) (point scale : Nat) : Bool :=
  if r.inclusive then r.low * scale ≤ point && point ≤ r.high * scale
  else r.low * scale < point && point < r.high * scale

def gridPoint? (tie : Tie) (m : Nat) (q p : Int) : Option Nat :=
  let r := Range.around m q
  let unit := Nat.pow 10 p.toNat * Nat.pow 2 (2 - q).toNat
  let scale := Nat.pow 10 (-p).toNat * Nat.pow 2 (q - 2).toNat
  let down := r.value * scale / unit
  let rest := r.value * scale % unit
  match r.contains (down * unit) scale, r.contains ((down + 1) * unit) scale with
  | true, true =>
    if 2 * rest < unit ∨ (2 * rest = unit ∧ tie = .down) then some down else some (down + 1)
  | true, false => some down
  | false, true => some (down + 1)
  | false, false => none

def firstGridPoint (tie : Tie) (m : Nat) (q : Int) : (grids : Nat) → (p : Int) → Nat × Int
  | 0, _ => (0, 0)
  | grids + 1, p =>
    match gridPoint? tie m q p with
    | some n => (n, p)
    | none => firstGridPoint tie m q grids (p - 1)

-- Grids to try: seventeen digits always single out a number.
def mostDigits : Nat := 17

def shortest (tie : Tie) (m : Nat) (q : Int) : Nat × Int :=
  firstGridPoint tie m q mostDigits (floorLogTen (m * Nat.pow 2 q.toNat) (Nat.pow 2 (-q).toNat))

end Lumen.Double
