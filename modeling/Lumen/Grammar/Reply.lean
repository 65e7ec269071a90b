import Lumen.Grammar.Failure
import Lumen.Tree

namespace Lumen.Grammar

open Token (Kind)

inductive Reply (α : Type) (n : Nat) where
  | done (value : α) (state : State) (shorter : state.left < n)
  | failed (failure : Failure) (state : State) (bounded : state.left ≤ n)

namespace Reply

variable {α β : Type} {m n : Nat}

def within (h : m ≤ n) : Reply α m → Reply α n
  | done a s hs => done a s (Nat.lt_of_lt_of_le hs h)
  | failed f s hs => failed f s (Nat.le_trans hs h)

def map (f : α → β) : Reply α n → Reply β n
  | done a s h => done (f a) s h
  | failed e s h => failed e s h

def extend (r : Reply α n) (f : α → (s : State) → s.left < n → Reply β n) : Reply β n :=
  match r with
  | done a s h => f a s h
  | failed e s h => failed e s h

def bind (r : Reply α n) (f : α → (s : State) → s.left < n → Reply β s.left) : Reply β n :=
  r.extend fun a s h => (f a s h).within (Nat.le_of_lt h)

def marked (loc : Location) (f : Mark → α → β) : Reply α n → Reply β n
  | done a s h => done (f ⟨s.fresh, loc⟩ a) s.numbered h
  | failed e s h => failed e s h

def orRewind (s : State) : Reply α s.left → Reply α s.left
  | done a s' h => done a s' h
  | failed e s' _ => failed e (s'.rewind s.cursor) (Nat.le_refl _)

def after (first : Failure) : Reply α n → Reply α n
  | done a s h => done a s h
  | failed e s h => failed (first.furthest e) s h

end Reply

namespace State

variable {α : Type}

def failure (s : State) (cause : Cause) : Failure :=
  ⟨cause, s.peek.loc, none⟩

def fail (s : State) (cause : Cause) : Reply α s.left :=
  .failed (s.failure cause) s (Nat.le_refl _)

def expect (kind : Kind) (context : String) (s : State) : Reply Token s.left :=
  match s.next with
  | .token t behind shorter =>
    if t.kind = kind then .done t behind shorter else s.fail (.expected kind context t)
  | .nothing => s.fail (.expected kind context s.peek)

-- The failure for a missing `;`. It belongs to the construct that should have ended, so its place
-- is that of the last token read. If the next token stands on a later line, reading goes on there.
def missingSemicolon (context : String) (s : State) : Failure :=
  let cause := .expected .semicolon context s.peek
  match s.cursor.before with
  | none => ⟨cause, s.peek.loc, none⟩
  | some last =>
    ⟨cause, last.loc, if last.loc.line < s.peek.loc.line then some s.cursor else none⟩

def semicolon (context : String) (s : State) : Reply Unit s.left :=
  match s.accept? .semicolon with
  | some ⟨behind, shorter⟩ => .done () behind shorter
  | none => .failed (s.missingSemicolon context) s (Nat.le_refl _)

def typeName (s : State) : Reply TypeName s.left :=
  match s.next with
  | .nothing => s.fail (.expectedType s.peek)
  | .token t behind shorter =>
    match t.kind with
    | .intKw => .done .int behind shorter
    | .floatKw | .doubleKw => .done .float behind shorter
    | .stringKw => .done .string behind shorter
    | .boolKw | .booleanKw => .done .bool behind shorter
    | .voidKw => .done .void behind shorter
    | .identifier => .done (.named t.text) behind shorter
    | _ => s.fail (.expectedType t)

end State
end Lumen.Grammar
