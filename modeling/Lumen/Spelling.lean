import Lumen.Token

namespace Lumen.Spelling

def emptyRow : List Char → List Nat
  | [] => [0]
  | _ :: bs =>
    let right := emptyRow bs
    (right.headD 0 + 1) :: right

-- Distances of a word starting with `a` from a word and from each of its ends. Given are those
-- of the word behind `a`, which starts with `next`, and those of the word behind `next`.
def row (a : Char) (next : Option Char) : List Char → List Nat → List Nat → List Nat
  | b :: bs, down :: below, twoBelow =>
    let right := row a next bs below twoBelow.tail
    let plain := min (min (down + 1) (right.headD 0 + 1)) (below.headD 0 + if a = b then 0 else 1)
    let value := match next, bs, twoBelow with
      | some a', b' :: _, _ :: _ :: corner :: _ =>
        if a = b' ∧ a' = b then min plain (corner + 1) else plain
      | _, _, _ => plain
    value :: right
  | _, below, _ => [below.headD 0 + 1]

def rows (bs : List Char) : List Char → List Nat × List Nat
  | [] => (emptyRow bs, [])
  | a :: as =>
    let (below, twoBelow) := rows bs as
    (row a as.head? bs below twoBelow, below)

def distance (as bs : List Char) : Nat :=
  (rows bs as).1.headD 0

def foreignOperators : List (String × String) :=
  [("&", "&&"), ("|", "||"), ("^", "**")]

-- A word of `n` letters may differ from its correction in at most half of them, and in two.
def tolerance (n : Nat) : Nat :=
  min (n / 2) 2

def closest (word : List Char) (words : List String) : Option (Nat × String) :=
  words.foldl (fun best w =>
    let d := distance word w.toList
    if tolerance word.length < d then best
    else match best with
      | some (least, _) => if least ≤ d then best else some (d, w)
      | none => some (d, w)) none

-- What the writer of `text` may have meant. Reserved words need no correction, and only
-- letters are compared with them.
def correction? (text : String) : Option String :=
  match foreignOperators.lookup text with
  | some operator => some operator
  | none =>
    let word := text.toList
    if word.isEmpty || !word.all Char.isAlpha || (Token.Kind.ofWord? text).isSome then none
    else (closest word (Token.Kind.reserved.map Prod.fst)).map Prod.snd

def hinted (message : String) (hint : Option String) : String :=
  match hint with
  | some hint => message ++ " (did you mean '" ++ hint ++ "'?)"
  | none => message

end Lumen.Spelling
