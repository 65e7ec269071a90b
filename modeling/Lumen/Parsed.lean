import Lumen.Grammar.Item
import Lumen.Token.Stream

namespace Lumen

namespace LexicalProblem

def diagnostic (p : LexicalProblem) : Diagnostic where
  severity := .error
  kind := .syntaxError
  message := p.hintedMessage
  loc := p.loc

end LexicalProblem

structure Parsed where
  items       : Items
  diagnostics : List Diagnostic

namespace Parsed

def ofTokens (tokens : List Token) : Parsed :=
  let (items, s) := Grammar.items [] (.ofTokens tokens)
  ⟨items, s.reports.reverse⟩

def ofSource (source : String) : Parsed :=
  let lexed := Lexed.ofSource source
  let parsed := ofTokens lexed.tokens.toList
  { parsed with diagnostics := lexed.problems.toList.map (·.diagnostic) ++ parsed.diagnostics }

def isClean (parsed : Parsed) : Bool :=
  parsed.diagnostics.isEmpty

end Parsed
end Lumen
