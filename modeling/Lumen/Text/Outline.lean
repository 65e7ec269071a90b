namespace Lumen.Text

inductive Outline where
  | word (text : String)
  | record (name : String) (fields : List (String × Outline))
  | wrapped (name : String) (content : Outline)
  | list (items : List Outline)

namespace Outline

def ofBool (b : Bool) : Outline :=
  .word (if b then "true" else "false")

def ofNat (n : Nat) : Outline :=
  .word (toString n)

def ofOption {α : Type} (f : α → Outline) : Option α → Outline
  | none => .word "None"
  | some a => .wrapped "Some" (f a)

def margin (level : Nat) : String :=
  String.ofList (List.replicate (4 * level) ' ')

mutual

def render (level : Nat) : Outline → String
  | .word text => text
  | .record name fields =>
    name ++ " \x7b\n" ++ renderFields (level + 1) fields ++ margin level ++ "\x7d"
  | .wrapped name content =>
    name ++ "(\n" ++ margin (level + 1) ++ render (level + 1) content ++ ",\n" ++ margin level ++
      ")"
  | .list [] => "[]"
  | .list items => "[\n" ++ renderItems (level + 1) items ++ margin level ++ "]"

def renderFields (level : Nat) : List (String × Outline) → String
  | [] => ""
  | (name, value) :: rest =>
    margin level ++ name ++ ": " ++ render level value ++ ",\n" ++ renderFields level rest

def renderItems (level : Nat) : List Outline → String
  | [] => ""
  | item :: rest => margin level ++ render level item ++ ",\n" ++ renderItems level rest

end

def text (o : Outline) : String :=
  o.render 0

end Outline
end Lumen.Text
