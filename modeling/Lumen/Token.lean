import Lumen.Location

namespace Lumen

namespace Token

inductive Kind where
  | integer | float | string | identifier
  | classKw | newKw | staticKw | constKw | varKw | ifKw | elseKw | whileKw | forKw
  | returnKw | breakKw | continueKw | trueKw | falseKw | nullKw | thisKw
  | intKw | floatKw | doubleKw | stringKw | boolKw | booleanKw | voidKw
  | plus | minus | star | power | slash | percent
  | equal | notEqual | less | atMost | greater | atLeast
  | and | or | not
  | assign | plusAssign | minusAssign | starAssign | slashAssign | percentAssign
  | dot
  | leftParen | rightParen | leftBrace | rightBrace | semicolon | comma
  | endMarker
deriving DecidableEq

inductive Category where
  | identifier | literal | keyword | operator | delimiter | endMarker
deriving DecidableEq

namespace Kind

def reserved : List (String × Kind) := [
  ("class", .classKw), ("new", .newKw), ("static", .staticKw), ("const", .constKw),
  ("var", .varKw), ("if", .ifKw), ("else", .elseKw), ("while", .whileKw), ("for", .forKw),
  ("return", .returnKw), ("break", .breakKw), ("continue", .continueKw), ("true", .trueKw),
  ("false", .falseKw), ("null", .nullKw), ("this", .thisKw), ("int", .intKw),
  ("float", .floatKw), ("double", .doubleKw), ("string", .stringKw), ("bool", .boolKw),
  ("boolean", .booleanKw), ("void", .voidKw)
]

def ofWord? (word : String) : Option Kind :=
  reserved.lookup word

def spelling? : Kind → Option String
  | integer | float | string | identifier | endMarker => none
  | classKw => "class" | newKw => "new" | staticKw => "static" | constKw => "const"
  | varKw => "var" | ifKw => "if" | elseKw => "else" | whileKw => "while" | forKw => "for"
  | returnKw => "return" | breakKw => "break" | continueKw => "continue" | trueKw => "true"
  | falseKw => "false" | nullKw => "null" | thisKw => "this" | intKw => "int"
  | floatKw => "float" | doubleKw => "double" | stringKw => "string" | boolKw => "bool"
  | booleanKw => "boolean" | voidKw => "void"
  | plus => "+" | minus => "-" | star => "*" | power => "**" | slash => "/" | percent => "%"
  | equal => "==" | notEqual => "!=" | less => "<" | atMost => "<=" | greater => ">"
  | atLeast => ">="
  | and => "&&" | or => "||" | not => "!"
  | assign => "=" | plusAssign => "+=" | minusAssign => "-=" | starAssign => "*="
  | slashAssign => "/=" | percentAssign => "%="
  | dot => "."
  | leftParen => "(" | rightParen => ")" | leftBrace => "\x7b" | rightBrace => "\x7d"
  | semicolon => ";" | comma => ","

def category : Kind → Category
  | integer | float | string => .literal
  | identifier => .identifier
  | classKw | newKw | staticKw | constKw | varKw | ifKw | elseKw | whileKw | forKw
  | returnKw | breakKw | continueKw | trueKw | falseKw | nullKw | thisKw
  | intKw | floatKw | doubleKw | stringKw | boolKw | booleanKw | voidKw => .keyword
  | plus | minus | star | power | slash | percent
  | equal | notEqual | less | atMost | greater | atLeast
  | and | or | not
  | assign | plusAssign | minusAssign | starAssign | slashAssign | percentAssign
  | dot => .operator
  | leftParen | rightParen | leftBrace | rightBrace | semicolon | comma => .delimiter
  | endMarker => .endMarker

def isTypeWord : Kind → Bool
  | intKw | floatKw | doubleKw | stringKw | boolKw | booleanKw | voidKw => true
  | _ => false

-- Words at which a declaration or statement begins; reading picks up again at these after a
-- syntax error.
def opensStatement (k : Kind) : Bool :=
  k.isTypeWord || match k with
    | classKw | staticKw | constKw | varKw | ifKw | whileKw | forKw | returnKw | breakKw
    | continueKw => true
    | _ => false

def describe (k : Kind) : String :=
  match k.spelling? with
  | some s => "'" ++ s ++ "'"
  | none => match k with
    | integer => "integer literal"
    | float => "float literal"
    | string => "string literal"
    | identifier => "identifier"
    | _ => "end of input"

end Kind
end Token

-- A token. The text of a string token is its content, without quotes and escapes.
structure Token where
  kind : Token.Kind
  text : String
  loc  : Location
deriving DecidableEq

namespace Token

def ending (loc : Location) : Token := ⟨.endMarker, "", loc⟩

def describe (t : Token) : String :=
  match t.kind with
  | .identifier => "identifier '" ++ t.text ++ "'"
  | .integer => "integer literal " ++ t.text
  | .float => "float literal " ++ t.text
  | .string => "string literal \"" ++ t.text ++ "\""
  | k => k.describe

end Token
end Lumen
