import Lumen.Double.Shortest

namespace Lumen.Double

structure Style where
  least : Int
  most  : Int
  tie   : Tie

def Style.listing : Style := ⟨-4, 15, .up⟩

def trimZeros (digits : List Char) : List Char :=
  (digits.reverse.dropWhile (· = '0')).reverse

-- Digits with a point in front of all but the first `places` of them; `0` stands on either side
-- of the point where no digit does.
def positional (digits : List Char) (places : Int) : String :=
  let whole :=
    if places ≤ 0 then ['0']
    else digits.take places.toNat ++ List.replicate (places.toNat - digits.length) '0'
  let fraction :=
    if places ≤ 0 then List.replicate (-places).toNat '0' ++ digits else digits.drop places.toNat
  String.ofList (whole ++ '.' :: if fraction.isEmpty then ['0'] else fraction)

def scientific (digits : List Char) (e : Int) : String :=
  let mantissa := match digits with
    | [] => []
    | [d] => [d]
    | d :: ds => d :: '.' :: ds
  String.ofList mantissa ++ "e" ++ toString e

def writePositive (style : Style) (m : Nat) (q : Int) : String :=
  let (n, e) := shortest style.tie m q
  let digits := Nat.toDigits 10 n
  let leading := e + digits.length - 1
  let digits := trimZeros digits
  if style.least ≤ leading ∧ leading ≤ style.most then positional digits (leading + 1)
  else scientific digits leading

def write (style : Style) (x : Double) : String :=
  let sign (negative : Bool) := if negative then "-" else ""
  match x.view with
  | .notANumber => "NaN"
  | .infinite negative => sign negative ++ "inf"
  | .finite negative m q =>
    sign negative ++ if m = 0 then "0.0" else writePositive style m q

end Lumen.Double
