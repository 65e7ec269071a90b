import Lumen.Token

namespace Lumen.Token

open List

inductive Piece where
  | blank        (c : Char)
  -- Behind the two slashes, with the line feed that ends the comment.
  | lineComment  (body : List Char)
  | blockComment (body : List Char) (closed : Bool)
  -- The characters between the quotes, as they are written.
  | quoted       (body : List Char) (closed : Bool)
  | number       (text : List Char) (isFloat : Bool)
  | word         (text : List Char)
  | sign         (kind : Kind) (text : List Char)
  | rejected     (c : Char)

def isBlank (c : Char) : Bool :=
  c = ' ' || c = '\t' || c = '\r' || c = '\n'

def startsWord (c : Char) : Bool :=
  c.isAlpha || c = '_'

def continuesWord (c : Char) : Bool :=
  c.isAlphanum || c = '_'

namespace Piece

def text : Piece → List Char
  | blank c => [c]
  | lineComment body => '/' :: '/' :: body
  | blockComment body closed => '/' :: '*' :: (body ++ if closed then ['*', '/'] else [])
  | quoted body closed => '"' :: (body ++ if closed then ['"'] else [])
  | number text _ => text
  | word text => text
  | sign _ text => text
  | rejected c => [c]

def signs : List Kind := [
  .plusAssign, .minusAssign, .power, .starAssign, .slashAssign, .percentAssign, .equal, .notEqual,
  .atMost, .atLeast, .and, .or,
  .plus, .minus, .star, .slash, .percent, .assign, .not, .less, .greater,
  .dot, .leftParen, .rightParen, .leftBrace, .rightBrace, .semicolon, .comma
]

def signTable : List (List Char × Kind) :=
  signs.filterMap fun k => k.spelling?.map fun s => (s.toList, k)

def splitLine (cs : List Char) : List Char × List Char :=
  match cs.dropWhile (· ≠ '\n') with
  | [] => (cs, [])
  | c :: rest => (cs.takeWhile (· ≠ '\n') ++ [c], rest)

def splitComment (taken : List Char) : List Char → List Char × Bool × List Char
  | [] => (taken.reverse, false, [])
  | '*' :: '/' :: cs => (taken.reverse, true, cs)
  | c :: cs => splitComment (c :: taken) cs

-- The inside of a string up to its closing quote, whether that was found, and what follows. A
-- string ends at the latest in front of a line feed, but a backslash takes any character with it.
def splitQuoted (taken : List Char) : List Char → List Char × Bool × List Char
  | [] => (taken.reverse, false, [])
  | '"' :: cs => (taken.reverse, true, cs)
  | '\n' :: cs => (taken.reverse, false, '\n' :: cs)
  | '\\' :: c :: cs => splitQuoted (c :: '\\' :: taken) cs
  | c :: cs => splitQuoted (c :: taken) cs

def splitFraction : List Char → List Char × List Char
  | '.' :: d :: cs =>
    if d.isDigit then ('.' :: d :: cs.takeWhile Char.isDigit, cs.dropWhile Char.isDigit)
    else ([], '.' :: d :: cs)
  | cs => ([], cs)

def splitSuffix : List Char → List Char × List Char
  | c :: cs =>
    if (c = 'f' || c = 'F') && !(cs.head?.any continuesWord) then ([c], cs) else ([], c :: cs)
  | [] => ([], [])

def splitNumber (cs : List Char) : Piece × List Char :=
  let whole := cs.takeWhile Char.isDigit
  let (fraction, cs) := splitFraction (cs.dropWhile Char.isDigit)
  let (suffix, cs) := splitSuffix cs
  (number (whole ++ fraction ++ suffix) (!fraction.isEmpty || !suffix.isEmpty), cs)

def splitSign (c : Char) (cs : List Char) : Piece × List Char :=
  match signTable.find? (fun entry => entry.1.isPrefixOf (c :: cs)) with
  | some (text, kind) => (sign kind text, (c :: cs).drop text.length)
  | none => (rejected c, cs)

def splitSlash : List Char → Piece × List Char
  | '/' :: cs =>
    let (body, rest) := splitLine cs
    (lineComment body, rest)
  | '*' :: cs =>
    let (body, closed, rest) := splitComment [] cs
    (blockComment body closed, rest)
  | cs => splitSign '/' cs

def next (c : Char) (cs : List Char) : Piece × List Char :=
  if isBlank c then (blank c, cs)
  else if startsWord c then
    (word (c :: cs.takeWhile continuesWord), cs.dropWhile continuesWord)
  else if c.isDigit then splitNumber (c :: cs)
  else if c = '"' then
    let (body, closed, rest) := splitQuoted [] cs
    (quoted body closed, rest)
  else if c = '/' then splitSlash cs
  else splitSign c cs

theorem splitLine_tiles (cs : List Char) : (splitLine cs).1 ++ (splitLine cs).2 = cs := by
  have h := takeWhile_append_dropWhile (p := (· ≠ '\n')) (l := cs)
  unfold splitLine
  split
  case h_1 => simp
  case h_2 hd => rw [hd] at h; simpa using h

theorem splitComment_tiles (taken cs : List Char) :
    let (body, closed, rest) := splitComment taken cs
    body ++ (if closed then ['*', '/'] else []) ++ rest = taken.reverse ++ cs := by
  fun_induction splitComment taken cs <;> simp_all

theorem splitQuoted_tiles (taken cs : List Char) :
    let (body, closed, rest) := splitQuoted taken cs
    body ++ (if closed then ['"'] else []) ++ rest = taken.reverse ++ cs := by
  fun_induction splitQuoted taken cs <;> simp_all

theorem splitFraction_tiles (cs : List Char) :
    (splitFraction cs).1 ++ (splitFraction cs).2 = cs := by
  fun_cases splitFraction cs <;> simp_all [takeWhile_append_dropWhile]

theorem splitSuffix_tiles (cs : List Char) : (splitSuffix cs).1 ++ (splitSuffix cs).2 = cs := by
  fun_cases splitSuffix cs <;> simp_all

theorem splitNumber_tiles (cs : List Char) :
    (splitNumber cs).1.text ++ (splitNumber cs).2 = cs := by
  have hf := splitFraction_tiles (cs.dropWhile Char.isDigit)
  have hs := splitSuffix_tiles (splitFraction (cs.dropWhile Char.isDigit)).2
  simp only [splitNumber, text, append_assoc, hs, hf, takeWhile_append_dropWhile]

theorem splitSign_tiles (c : Char) (cs : List Char) :
    (splitSign c cs).1.text ++ (splitSign c cs).2 = c :: cs := by
  unfold splitSign
  split
  case h_1 text kind h =>
    have hp := find?_some h
    exact prefix_iff_eq_append.mp (List.isPrefixOf_iff_prefix.mp hp)
  case h_2 => rfl

theorem splitSlash_tiles (cs : List Char) :
    (splitSlash cs).1.text ++ (splitSlash cs).2 = '/' :: cs := by
  unfold splitSlash
  split
  case h_1 cs => simpa [text] using splitLine_tiles cs
  case h_2 cs => simpa [text] using splitComment_tiles [] cs
  case h_3 => exact splitSign_tiles '/' _

-- The pieces of a text put together are the text.
theorem next_tiles (c : Char) (cs : List Char) :
    (next c cs).1.text ++ (next c cs).2 = c :: cs := by
  unfold next
  split
  · rfl
  split
  · simp [text]
  split
  · exact splitNumber_tiles (c :: cs)
  split
  case isTrue h => subst h; simpa [text] using splitQuoted_tiles [] cs
  split
  case isTrue h => subst h; exact splitSlash_tiles cs
  case isFalse => exact splitSign_tiles c cs

theorem text_ne_nil_of_mem_signTable {text : List Char} {kind : Kind}
    (h : (text, kind) ∈ signTable) : text ≠ [] := by
  have all : ∀ entry ∈ signTable, entry.1 ≠ [] := by decide +kernel
  exact all _ h

theorem splitSign_text_ne_nil (c : Char) (cs : List Char) : (splitSign c cs).1.text ≠ [] := by
  unfold splitSign
  split
  case h_1 text kind h => exact text_ne_nil_of_mem_signTable (mem_of_find?_eq_some h)
  case h_2 => simp [text]

theorem splitSlash_text_ne_nil (cs : List Char) : (splitSlash cs).1.text ≠ [] := by
  unfold splitSlash
  split
  · simp [text]
  · simp [text]
  · exact splitSign_text_ne_nil '/' _

theorem next_text_ne_nil (c : Char) (cs : List Char) : (next c cs).1.text ≠ [] := by
  unfold next
  split
  · simp [text]
  split
  · simp [text]
  split
  case isTrue h => simp [splitNumber, text, h]
  split
  · simp [text]
  split
  · exact splitSlash_text_ne_nil cs
  · exact splitSign_text_ne_nil c cs

theorem next_length_lt (c : Char) (cs : List Char) : (next c cs).2.length < (c :: cs).length := by
  have tiles := congrArg List.length (next_tiles c cs)
  have pos := length_pos_iff.mpr (next_text_ne_nil c cs)
  rw [length_append] at tiles
  omega

end Piece
end Lumen.Token
