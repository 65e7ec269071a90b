import Lumen.Grammar.State
import Lumen.Spelling

namespace Lumen.Grammar

open Token (Kind)

inductive Cause where
  -- `context` tells where the token was expected.
  | expected (kind : Kind) (context : String) (found : Token)
  | expectedType (found : Token)
  | expectedExpression (found : Token)
  | integerOutOfRange (text : String)
  | malformedFloat (text : String)
  | notCallable
  | invalidTarget (found : Token)
  | misplacedClass
  | uninitializedConstant (name : String)
  | unclosedBlock (found : Token)
  | unclosedClass (name : String) (found : Token)
deriving DecidableEq

def Cause.message : Cause → String
  | expected kind context found =>
    "Expected " ++ kind.describe ++ " " ++ context ++ ", found " ++ found.describe
  | expectedType found => "Expected type, found " ++ found.describe
  | expectedExpression found => "Expected expression, found " ++ found.describe
  | integerOutOfRange text => "Integer literal " ++ text ++ " is out of range"
  | malformedFloat text => "Malformed float literal " ++ text
  | notCallable => "Only named routines and methods can be called"
  | invalidTarget found => "Invalid assignment target before " ++ found.describe
  | misplacedClass => "Class definitions are only allowed at top level"
  | uninitializedConstant name => "Constant '" ++ name ++ "' must be initialized"
  | unclosedBlock found => "Expected '\x7d' to close block, found " ++ found.describe
  | unclosedClass name found =>
    "Expected '\x7d' to close class '" ++ name ++ "', found " ++ found.describe

structure Failure where
  cause  : Cause
  loc    : Location
  -- Where reading can go on, if the failure itself shows it.
  resume : Option Cursor

namespace Failure

-- Of two alternatives that failed, the later one counts only if it got further.
def furthest (first later : Failure) : Failure :=
  if first.loc < later.loc then later else first

def diagnostic (f : Failure) (hint : Option String) : Diagnostic where
  severity := .error
  kind := .syntaxError
  message := Spelling.hinted f.cause.message hint
  loc := f.loc

end Failure
end Lumen.Grammar
