import Lumen.Code.Unit
import Lumen.Parsed

namespace Lumen

inductive Mode where
  | strict | exploratory
deriving DecidableEq

inductive Unreadable where
  | missing
  | directory
  -- A part of the path that should be a directory is a file.
  | notDirectory
  | nameTooLong
  | nulInName
  | denied
  | notText
  | other (reason : String)
deriving DecidableEq

def Unreadable.reason : Unreadable → String
  | missing => "No such file or directory (os error 2)"
  | directory => "Is a directory (os error 21)"
  | notDirectory => "Not a directory (os error 20)"
  | nameTooLong => "File name too long (os error 36)"
  | nulInName => "file name contained an unexpected NUL byte"
  | denied => "Permission denied (os error 13)"
  | notText => "stream did not contain valid UTF-8"
  | other reason => reason

def sourceOfBytes (bytes : ByteArray) : Except Unreadable String :=
  match String.fromUTF8? bytes with
  | some source => .ok source
  | none => .error .notText

inductive Compilation.Error where
  | unreadable (file : String) (why : Unreadable)
  | malformed (diagnostics : List Diagnostic)
  | unsound (diagnostics : List Diagnostic)

namespace Compilation.Error

def diagnostics : Compilation.Error → List Diagnostic
  | unreadable .. => []
  | malformed ds | unsound ds => ds

def message : Compilation.Error → String
  | unreadable file why => "cannot read '" ++ file ++ "': " ++ why.reason
  | malformed ds => "parsing failed with " ++ toString (ds.countP (·.isError)) ++ " error(s)"
  | unsound ds =>
    "semantic analysis failed with " ++ toString (ds.countP (·.isError)) ++ " error(s)"

end Compilation.Error

structure Compilation where
  checked     : Checked
  routines    : List Code.Routine
  -- What was reported about the text, then what was reported about its meaning.
  diagnostics : List Diagnostic

namespace Compilation

def hasErrors (c : Compilation) : Bool :=
  c.diagnostics.any Diagnostic.isError

def listing (c : Compilation) : String :=
  Code.listing c.routines

def ofChecked (parsed : Parsed) (checked : Checked) : Compilation :=
  ⟨checked, Code.routines checked, parsed.diagnostics ++ checked.diagnostics⟩

def ofSource (mode : Mode) (source : String) : Except Compilation.Error Compilation :=
  let parsed := Parsed.ofSource source
  if mode = .strict ∧ parsed.diagnostics.any Diagnostic.isError then
    .error (.malformed parsed.diagnostics)
  else
    let checked := Checked.ofItems parsed.items
    if mode = .strict ∧ ¬checked.isSound then .error (.unsound checked.diagnostics)
    else .ok (ofChecked parsed checked)

def ofFile (mode : Mode) (file : String) (content : Except Unreadable ByteArray) :
    Except Compilation.Error Compilation :=
  match content with
  | .error why => .error (.unreadable file why)
  | .ok bytes =>
    match sourceOfBytes bytes with
    | .error why => .error (.unreadable file why)
    | .ok source => ofSource mode source

end Compilation
end Lumen
