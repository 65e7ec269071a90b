import Lumen.Proofs.Tree

namespace Lumen

structure Exit where
  word   : String
  loc    : Location
  -- Whether a loop of the same body is around it.
  inLoop : Bool
deriving DecidableEq

mutual

-- The exits of a statement, at any depth, in the order of the text. The body of a definition that
-- stands inside of a body is never looked at.
def Stmt.exits (inLoop : Bool) : Stmt → List Exit
  | .breakLoop loc => [⟨"break", loc, inLoop⟩]
  | .continueLoop loc => [⟨"continue", loc, inLoop⟩]
  | .block _ body => exitsIn inLoop body
  | .branch _ _ thenBody elseBody => exitsIn inLoop thenBody ++ exitsInElse inLoop elseBody
  | .whileLoop _ _ body => exitsIn true body
  | .forLoop _ init _ update body =>
    exitsInStep inLoop init ++ exitsInStep inLoop update ++ exitsIn true body
  | .variable .. | .constant .. | .assign .. | .result .. | .evaluate .. | .bare _ | .routine ..
  | .classDef .. => []

def exitsIn (inLoop : Bool) : List Stmt → List Exit
  | [] => []
  | s :: rest => s.exits inLoop ++ exitsIn inLoop rest

def exitsInElse (inLoop : Bool) : Option (List Stmt) → List Exit
  | none => []
  | some body => exitsIn inLoop body

def exitsInStep (inLoop : Bool) : Option Stmt → List Exit
  | none => []
  | some s => s.exits inLoop

end

def Stmt.routineExits : Stmt → List Exit
  | .routine _ _ _ _ _ body => exitsIn false body
  | _ => []

def Stmt.itemExits : Stmt → List Exit
  | .classDef _ _ _ methods => methods.flatMap Stmt.routineExits
  | .routine _ _ _ _ _ body => exitsIn false body
  | s => s.exits false

theorem mem_exitsIn : e ∈ exitsIn inLoop body ↔ ∃ s ∈ body, e ∈ s.exits inLoop := by
  induction body
  case nil => simp [exitsIn]
  case cons s body ih => simp [exitsIn, ih]

end Lumen
