import Lumen.Spelling
import Lumen.Token.Piece

namespace Lumen

inductive LexicalProblem.Cause where
  | unexpectedCharacter (c : Char)
  | unterminatedString
  | unterminatedComment
  | unknownEscape (c : Char)
deriving DecidableEq

structure LexicalProblem where
  cause : LexicalProblem.Cause
  loc   : Location
deriving DecidableEq

namespace LexicalProblem

def message (p : LexicalProblem) : String :=
  match p.cause with
  | .unexpectedCharacter c => "Unexpected character '" ++ c.toString ++ "'"
  | .unterminatedString => "Unterminated string literal"
  | .unterminatedComment => "Unterminated block comment"
  | .unknownEscape c => "Unknown escape sequence '\\" ++ c.toString ++ "'"

def lexeme? (p : LexicalProblem) : Option String :=
  match p.cause with
  | .unexpectedCharacter c => some c.toString
  | _ => none

def hint? (p : LexicalProblem) : Option String :=
  p.lexeme?.bind Spelling.correction?

def hintedMessage (p : LexicalProblem) : String :=
  Spelling.hinted p.message p.hint?

def report (p : LexicalProblem) : String :=
  "Parse error at " ++ p.loc.text ++ ": " ++ p.hintedMessage

end LexicalProblem

namespace Token

def escape? : Char → Option Char
  | 'n' => some '\n'
  | 't' => some '\t'
  | 'r' => some '\r'
  | '\\' => some '\\'
  | '"' => some '"'
  | '0' => some '\x00'
  | _ => none

-- The content of a string. Unknown escapes contribute nothing, nor does a lone backslash at the
-- end of the text.
def unescape (taken : List Char) : List Char → List Char
  | [] => taken.reverse
  | ['\\'] => taken.reverse
  | '\\' :: c :: cs =>
    match escape? c with
    | some e => unescape (e :: taken) cs
    | none => unescape taken cs
  | c :: cs => unescape (c :: taken) cs

def unknownEscapes (loc : Location) : List Char → List LexicalProblem
  | [] => []
  | '\\' :: c :: cs =>
    let rest := unknownEscapes ((loc.after '\\').after c) cs
    if (escape? c).isSome then rest else ⟨.unknownEscape c, loc⟩ :: rest
  | c :: cs => unknownEscapes (loc.after c) cs

namespace Piece

def token? (loc : Location) : Piece → Option Token
  | quoted body _ => some ⟨.string, String.ofList (unescape [] body), loc⟩
  | number text isFloat => some ⟨if isFloat then .float else .integer, String.ofList text, loc⟩
  | word text =>
    let text := String.ofList text
    some ⟨(Kind.ofWord? text).getD .identifier, text, loc⟩
  | sign kind text => some ⟨kind, String.ofList text, loc⟩
  | blank _ | lineComment _ | blockComment .. | rejected _ => none

-- What is wrong with a piece at `loc`. A missing quote is noticed behind all escapes.
def problems (loc : Location) : Piece → List LexicalProblem
  | quoted body closed =>
    unknownEscapes (loc.after '"') body ++ if closed then [] else [⟨.unterminatedString, loc⟩]
  | blockComment _ closed => if closed then [] else [⟨.unterminatedComment, loc⟩]
  | rejected c => [⟨.unexpectedCharacter c, loc⟩]
  | blank _ | lineComment _ | number .. | word _ | sign .. => []

end Piece

def piecesOnto (done : Array Piece) : List Char → Array Piece
  | [] => done
  | c :: cs =>
    let found := Piece.next c cs
    piecesOnto (done.push found.1) found.2
termination_by cs => cs.length
decreasing_by exact Piece.next_length_lt c cs

def pieces (source : List Char) : Array Piece :=
  piecesOnto #[] source

end Token

structure Lexed where
  tokens   : Array Token
  problems : Array LexicalProblem

namespace Lexed

def ofPiecesOnto (tokens : Array Token) (problems : Array LexicalProblem) (loc : Location) :
    List Token.Piece → Lexed
  | [] => ⟨tokens.push (.ending loc), problems⟩
  | piece :: rest =>
    let tokens := match piece.token? loc with
      | some token => tokens.push token
      | none => tokens
    ofPiecesOnto tokens (problems ++ piece.problems loc) (loc.afterAll piece.text) rest

def ofPieces (pieces : Array Token.Piece) : Lexed :=
  ofPiecesOnto #[] #[] .first pieces.toList

def ofSource (source : String) : Lexed :=
  ofPieces (Token.pieces source.toList)

end Lexed
end Lumen
