import Lumen.Compilation
import Lumen.Text.Lines
import Lumen.Tree.Outline

namespace Lumen.CommandLine

inductive Emit where
  | diagnostics | ast | symbols | ir
deriving DecidableEq

def Emit.ofWord? : String → Option Emit
  | "diagnostics" => some diagnostics
  | "ast" => some ast
  | "symbols" => some symbols
  | "ir" => some ir
  | _ => none

structure Options where
  file        : Option String := none
  exploratory : Bool := false
  emit        : Option Emit := none

inductive Request where
  | compile (file : String) (mode : Mode) (emit : Emit)
  | version
  | help
  | misuse
deriving DecidableEq

def Options.request (o : Options) : Request :=
  match o.file with
  | some file =>
    .compile file (if o.exploratory then .exploratory else .strict) (o.emit.getD .diagnostics)
  | none => .misuse

def Options.withFile? (o : Options) (file : String) : Option Options :=
  if o.file.isSome ∨ file = "" then none else some { o with file := some file }

def Options.withEmit? (o : Options) (word : String) : Option Options :=
  match o.emit, Emit.ofWord? word with
  | none, some emit => some { o with emit := some emit }
  | _, _ => none

def Request.ofFiles (o : Options) : List String → Request
  | [] => o.request
  | file :: rest =>
    match o.withFile? file with
    | some o => ofFiles o rest
    | none => .misuse

def ofLetters? : List Char → Option Request
  | [] => none
  | 'v' :: rest => ofLetters? rest
  | 'V' :: _ => some .version
  | 'h' :: _ => some .help
  | _ => some .misuse

-- What the arguments ask for. They are read in order, and the first one that settles the matter
-- counts.
def Request.ofArgs (o : Options) : List String → Request
  | [] => o.request
  | arg :: rest =>
    match arg.toList with
    | ['-', '-'] => ofFiles o rest
    | '-' :: '-' :: 'e' :: 'm' :: 'i' :: 't' :: '=' :: word =>
      match o.withEmit? (String.ofList word) with
      | some o => ofArgs o rest
      | none => .misuse
    | '-' :: '-' :: _ =>
      match arg, rest with
      | "--exploratory", rest =>
        if o.exploratory then .misuse else ofArgs { o with exploratory := true } rest
      | "--verbose", rest => ofArgs o rest
      | "--version", _ => .version
      | "--help", _ => .help
      | "--emit", word :: rest =>
        match o.withEmit? word with
        | some o => ofArgs o rest
        | none => .misuse
      | _, _ => .misuse
    | '-' :: c :: cs =>
      match ofLetters? (c :: cs) with
      | some request => request
      | none => ofArgs o rest
    | _ =>
      match o.withFile? arg with
      | some o => ofArgs o rest
      | none => .misuse

structure Outcome where
  exit   : Nat
  stdout : String
  stderr : String
deriving DecidableEq

def versionText : String := "lumenc 0.1.0\n"

def helpText : String :=
"Parse, type check and lower Lumen source to stack IR

Usage: lumenc [OPTIONS] <FILE>

Arguments:
  <FILE>  Source file to compile

Options:
      --exploratory  Keep running later stages after errors
      --emit <EMIT>  What to print after compiling [default: diagnostics] [possible values: diagnostics, ast, symbols, ir]
  -v, --verbose...   Log more (-v for debug, -vv for trace)
  -h, --help         Print help
  -V, --version      Print version
"

def diagnosticLines (ds : List Diagnostic) : String :=
  Text.unlines (ds.map Diagnostic.display)

def Emit.text (emit : Emit) (c : Compilation) : String :=
  match emit with
  | diagnostics => ""
  | ast => Text.unlines (c.checked.items.map fun item => item.outline.text)
  | symbols => c.checked.symbols.text
  | ir => c.listing

def compilingLine (file : String) : String :=
  "Compiling " ++ file ++ "..."

-- A cause in the report of a failure, under its number. Its other lines start below the first one.
def causeLine (n : Nat) (text : String) : String :=
  "    " ++ toString n ++ ": " ++ Text.hanging 7 text

def report (file : String) (emit : Emit) : Except Compilation.Error Compilation → Outcome
  | .ok c =>
    let last := if c.hasErrors then
        "Finished with " ++ toString c.diagnostics.length ++ " diagnostic(s), errors present."
      else "Compiled successfully. " ++ toString c.routines.length ++ " routine(s) generated."
    ⟨if c.hasErrors then 1 else 0, diagnosticLines c.diagnostics ++ emit.text c,
      Text.unlines [compilingLine file, last]⟩
  | .error (.unreadable path why) =>
    ⟨1, "", Text.unlines [compilingLine file, "Error: no source to compile", "", "Caused by:",
      causeLine 0 (Compilation.Error.unreadable path why).message, causeLine 1 why.reason]⟩
  | .error e =>
    ⟨1, diagnosticLines e.diagnostics,
      Text.unlines [compilingLine file, "Error: " ++ e.message]⟩

def Request.answer (request : Request) (content : Except Unreadable ByteArray) : Outcome :=
  match request with
  | compile file mode emit => report file emit (Compilation.ofFile mode file content)
  | version => ⟨0, versionText, ""⟩
  | help => ⟨0, helpText, ""⟩
  | misuse => ⟨2, "", ""⟩

end Lumen.CommandLine
