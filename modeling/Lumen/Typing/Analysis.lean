import Lumen.Typing.Inference

namespace Lumen.Typing

structure Place where
  routine   : String
  returns   : Ty
  -- The class of `this`, in an instance method.
  receiver? : Option String
  -- Positions in the symbol table; the innermost scope comes first.
  scopes    : List Nat

def Place.home (p : Place) : Nat :=
  p.scopes.headD SymbolTable.global

structure Analysis where
  table    : SymbolTable
  -- The blocks that are open; the innermost comes first.
  blocks   : List Scope
  types    : Std.TreeMap Nat Ty
  -- The last problem comes first.
  problems : List Problem

namespace Analysis

def empty : Analysis :=
  ⟨.empty, [], ∅, []⟩

def report (a : Analysis) (cause : Cause) (loc : Location) : Analysis :=
  { a with problems := ⟨cause, loc⟩ :: a.problems }

def reportIf (a : Analysis) (wrong : Bool) (cause : Cause) (loc : Location) : Analysis :=
  if wrong then a.report cause loc else a

-- Keeps what was found out about an expression. Of two types for one number the later one counts.
def record (a : Analysis) (f : Finding) : Analysis where
  table := a.table
  blocks := a.blocks
  types := f.notes.foldl (fun types (id, type) => types.insert id type) a.types
  problems := f.problems.reverse ++ a.problems

-- What names stand for: the open blocks come first, then the lasting scopes.
def environment (a : Analysis) (place : Place) : Environment where
  symbol? name :=
    match a.blocks.findSome? (·.get? name) with
    | some symbol => some symbol
    | none => place.scopes.findSome? (a.table.inScope? · name)
  member? := a.table.member?
  isClass := a.table.isClass
  receiver? := place.receiver?

def infer (a : Analysis) (place : Place) (e : Expr) : Ty × Analysis :=
  let found := Typing.infer (a.environment place) e
  (found.type, a.record found)

def inferInitial (a : Analysis) (place : Place) (declared : Option TypeName) (init : Expr) :
    Ty × Analysis :=
  let found := Typing.inferInitial (a.environment place) declared init
  (found.type, a.record found)

def typeOf (a : Analysis) (type : TypeName) (loc : Location) : Ty × Analysis :=
  match writtenType a.table.isClass type with
  | .ok type => (type, a)
  | .error cause => (.error, a.report cause loc)

def declareIn (a : Analysis) (scope : Nat) (symbol : Symbol) : Analysis :=
  match a.table.inScope? scope symbol.name with
  | some first => a.report (.duplicate symbol.name first.loc.line) symbol.loc
  | none => { a with table := a.table.insert scope symbol }

def declare (a : Analysis) (place : Place) (symbol : Symbol) : Analysis :=
  match a.blocks with
  | [] => a.declareIn place.home symbol
  | block :: outer =>
    match block.get? symbol.name with
    | some first => a.report (.duplicate symbol.name first.loc.line) symbol.loc
    | none => { a with blocks := block.insert symbol :: outer }

def enter (a : Analysis) : Analysis :=
  { a with blocks := Scope.empty .block "<block>" none :: a.blocks }

def leave (a : Analysis) (place : Place) : Analysis :=
  match a.blocks with
  | [] => a
  | block :: outer =>
    { a with blocks := outer, table := a.table.retire place.home block.symbols }

def checkStored (a : Analysis) (expected value : Ty) (destination : Destination)
    (loc : Location) : Analysis :=
  a.reportIf (!expected.assignable value) (.stored value destination expected) loc

end Analysis

end Lumen.Typing
