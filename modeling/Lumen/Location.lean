namespace Lumen

structure Location where
  line   : Nat
  column : Nat
deriving DecidableEq

namespace Location

def none : Location := ⟨0, 0⟩

def first : Location := ⟨1, 1⟩

instance : Inhabited Location := ⟨none⟩

instance : LT Location where
  lt a b := a.line < b.line ∨ (a.line = b.line ∧ a.column < b.column)

instance : LE Location where
  le a b := a.line < b.line ∨ (a.line = b.line ∧ a.column ≤ b.column)

instance (a b : Location) : Decidable (a < b) :=
  inferInstanceAs (Decidable (_ ∨ _))

instance (a b : Location) : Decidable (a ≤ b) :=
  inferInstanceAs (Decidable (_ ∨ _))

def after (loc : Location) (c : Char) : Location :=
  if c = '\n' then ⟨loc.line + 1, 1⟩ else ⟨loc.line, loc.column + 1⟩

def afterAll (loc : Location) (cs : List Char) : Location :=
  cs.foldl after loc

@[simp] theorem afterAll_nil (loc : Location) : loc.afterAll [] = loc :=
  rfl

@[simp] theorem afterAll_cons (loc : Location) (c : Char) (cs : List Char) :
    loc.afterAll (c :: cs) = (loc.after c).afterAll cs :=
  rfl

theorem afterAll_append (loc : Location) (as bs : List Char) :
    loc.afterAll (as ++ bs) = (loc.afterAll as).afterAll bs :=
  List.foldl_append

def text (loc : Location) : String :=
  toString loc.line ++ ":" ++ toString loc.column

end Location
end Lumen
