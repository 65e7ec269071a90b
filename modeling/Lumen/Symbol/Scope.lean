import Lumen.Symbol
import Std.Data.TreeMap

namespace Lumen

structure Scope where
  kind    : Scope.Kind
  name    : String
  parent  : Option Nat
  -- The declared names; the last one comes first.
  names   : List String
  entries : Std.TreeMap String Symbol
  -- What was declared in blocks that have ended; the last one comes first.
  ended   : List Symbol

namespace Scope

def empty (kind : Kind) (name : String) (parent : Option Nat) : Scope :=
  ⟨kind, name, parent, [], ∅, []⟩

def get? (s : Scope) (name : String) : Option Symbol :=
  s.entries[name]?

def insert (s : Scope) (symbol : Symbol) : Scope where
  kind := s.kind
  name := s.name
  parent := s.parent
  names := symbol.name :: s.names
  entries := s.entries.insert symbol.name { symbol with home := s.kind }
  ended := s.ended

def declare (s : Scope) (symbol : Symbol) : Except Location Scope :=
  match s.get? symbol.name with
  | some first => .error first.loc
  | none => .ok (s.insert symbol)

def symbols (s : Scope) : List Symbol :=
  s.names.reverse.filterMap s.get?

def retype (s : Scope) (name : String) (type : Ty) : Scope :=
  match s.get? name with
  | some symbol => { s with entries := s.entries.insert name { symbol with type } }
  | none => s

def retired (s : Scope) : List Symbol :=
  s.ended.reverse

def retire (s : Scope) (symbols : List Symbol) : Scope :=
  { s with ended := symbols.reverse ++ s.ended }

def text (s : Scope) : String :=
  let line (symbol : Symbol) := "  " ++ symbol.text ++ "\n"
  s.kind.text ++ " scope " ++ s.name ++ "\n" ++
    String.join ((s.symbols ++ s.retired).map line)

@[simp] theorem get?_empty (kind : Kind) (name : String) (parent : Option Nat) (n : String) :
    (empty kind name parent).get? n = none := by
  simp [empty, get?]

theorem get?_insert (s : Scope) (symbol : Symbol) (n : String) :
    (s.insert symbol).get? n =
      if symbol.name = n then some { symbol with home := s.kind } else s.get? n := by
  simp [insert, get?, Std.TreeMap.getElem?_insert]

theorem get?_retype (s : Scope) (name n : String) (type : Ty) :
    (s.retype name type).get? n =
      if name = n then (s.get? n).map ({ · with type }) else s.get? n := by
  unfold retype
  split
  case h_1 symbol h =>
    by_cases e : name = n
    · subst e
      simp_all [get?]
    · simp [get?, Std.TreeMap.getElem?_insert, e]
  case h_2 h =>
    by_cases e : name = n
    · subst e
      simp [h]
    · simp [e]

end Scope
end Lumen
