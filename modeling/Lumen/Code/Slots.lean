import Lumen.Ty
import Std.Data.TreeMap

namespace Lumen.Code

def slotLimit : Nat := 65535

structure Local where
  name : String
  slot : Nat
  type : Ty
deriving DecidableEq

-- What a block changes: the names it brings, and those it hides with their slots. The last one
-- comes first.
structure Slots.Block where
  brought : List String
  hidden  : List (String × Nat)

structure Slots where
  visible : Std.TreeMap String Nat
  -- The last variable comes first.
  given   : List Local
  -- The blocks that are open; the innermost comes first.
  blocks  : List Slots.Block
  -- The first slot that is free.
  next    : Nat

namespace Slots

structure Exhausted where
  name : String
  next : Nat
deriving DecidableEq

def Exhausted.message (e : Exhausted) : String :=
  "no slot left for local '" ++ e.name ++ "' (" ++ toString e.next ++ " slots in use)"

def ofReceiver : Option String → Slots
  | none => ⟨∅, [], [], 0⟩
  | some className => ⟨(∅ : Std.TreeMap String Nat).insert "this" 0,
      [⟨"this", 0, .object className⟩], [], 1⟩

def find? (s : Slots) (name : String) : Option Nat :=
  s.visible[name]?

def depth (s : Slots) : Nat :=
  s.blocks.length

def locals (s : Slots) : List Local :=
  s.given.reverse

def enter (s : Slots) : Slots :=
  { s with blocks := ⟨[], []⟩ :: s.blocks }

-- Leaves the innermost block. The names it brought go first, then those it hid come back.
def leave (s : Slots) : Slots :=
  match s.blocks with
  | [] => s
  | block :: outer =>
    let kept := block.brought.foldr (fun name visible => visible.erase name) s.visible
    let visible := block.hidden.foldr (fun (name, slot) visible => visible.insert name slot) kept
    { s with visible, blocks := outer }

def Block.note (block : Block) (name : String) (old? : Option Nat) : Block :=
  match old? with
  | none => { block with brought := name :: block.brought }
  | some old =>
    if block.brought.contains name then block
    else { block with hidden := (name, old) :: block.hidden }

def allocate (s : Slots) (name : String) (type : Ty) : Except Exhausted (Nat × Slots) :=
  if s.next + type.slotWidth ≤ slotLimit then
    .ok (s.next, {
      visible := s.visible.insert name s.next
      given := ⟨name, s.next, type⟩ :: s.given
      blocks := match s.blocks with
        | [] => []
        | block :: outer => block.note name (s.find? name) :: outer
      next := s.next + type.slotWidth })
  else .error ⟨name, s.next⟩

end Slots
end Lumen.Code
