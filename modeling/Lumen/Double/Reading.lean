import Lumen.Double

namespace Lumen

def readDigits (value : Nat) (digits : List Char) : Nat :=
  digits.foldl (fun n c => 10 * n + (c.toNat - '0'.toNat)) value

def splitSign : List Char → Bool × List Char
  | '-' :: cs => (true, cs)
  | '+' :: cs => (false, cs)
  | cs => (false, cs)

def readInt64? (text : List Char) : Option Int :=
  let (negative, digits) := splitSign text
  if digits.isEmpty || !digits.all Char.isDigit then none
  else
    let n := readDigits 0 digits
    if negative then (if n ≤ Nat.pow 2 63 then some (-n) else none)
    else if n < Nat.pow 2 63 then some n else none

namespace Double

-- Decimal exponents beyond this lead to infinity or to zero, whatever the digits are.
def decimalReach : Nat := 400

def ofDecimal (negative : Bool) (n : Nat) (e : Int) : Double :=
  if n = 0 then ofMagnitude negative 0
  else if (decimalReach : Int) < e then ofMagnitude negative infinity
  else if e + (Nat.toDigits 10 n).length < -decimalReach then ofMagnitude negative 0
  else ofRatio negative (n * Nat.pow 10 e.toNat) (Nat.pow 10 (-e).toNat)

def readExponent? : List Char → Option Int
  | [] => some 0
  | c :: cs =>
    if c = 'e' ∨ c = 'E' then
      let (negative, digits) := splitSign cs
      if digits.isEmpty || !digits.all Char.isDigit then none
      else if negative then some (-(readDigits 0 digits)) else some (readDigits 0 digits)
    else none

def splitFraction : List Char → List Char × List Char
  | '.' :: cs => cs.span Char.isDigit
  | cs => ([], cs)

def readUnsigned? (negative : Bool) (cs : List Char) : Option Double :=
  let (whole, cs) := cs.span Char.isDigit
  let (fraction, cs) := splitFraction cs
  if whole.isEmpty && fraction.isEmpty then none
  else do
    let e ← readExponent? cs
    return ofDecimal negative (readDigits (readDigits 0 whole) fraction) (e - fraction.length)

def readWord? (negative : Bool) (cs : List Char) : Option Double :=
  let word := cs.map Char.toLower
  if word = "infinity".toList ∨ word = "inf".toList then some (ofMagnitude negative infinity)
  else if word = "nan".toList then some (notANumber negative)
  else none

def read? (text : List Char) : Option Double :=
  let (negative, cs) := splitSign text
  readUnsigned? negative cs <|> readWord? negative cs

end Double
end Lumen
