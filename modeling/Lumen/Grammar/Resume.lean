import Lumen.Grammar.Reply

namespace Lumen.Grammar

-- Passes over tokens: up to and with a `;`, or up to a `}` or a word that starts a statement.
-- Blocks that open on the way are passed over as a whole; `depth` counts the open ones.
def passOver (depth : Nat) (before : Option Token) : List Token → Option Token × List Token
  | [] => (before, [])
  | t :: rest =>
    match t.kind with
    | .leftBrace => passOver (depth + 1) (some t) rest
    | .rightBrace =>
      match depth with
      | 0 => (before, t :: rest)
      | depth + 1 => passOver depth (some t) rest
    | .semicolon => if depth = 0 then (some t, rest) else passOver depth (some t) rest
    | kind =>
      if depth = 0 ∧ kind.opensStatement then (before, t :: rest)
      else passOver depth (some t) rest

theorem passOver_length_le (depth : Nat) (before : Option Token) (ts : List Token) :
    (passOver depth before ts).2.length ≤ ts.length := by
  fun_induction passOver depth before ts <;> simp_all <;> omega

namespace State

def passOver (s : State) (depth : Nat) : State :=
  let (before, rest) := Grammar.passOver depth s.cursor.before s.cursor.rest
  s.rewind { s.cursor with before, rest }

theorem left_passOver_le (s : State) (depth : Nat) : (s.passOver depth).left ≤ s.left :=
  passOver_length_le depth s.cursor.before s.cursor.rest

theorem left_passOver_lt {s : State} {n : Nat} (depth : Nat) (h : s.left < n) :
    (s.passOver depth).left < n :=
  Nat.lt_of_le_of_lt (s.left_passOver_le depth) h

def skip (s : State) (depth : Nat) {n : Nat} (h : s.left < n) : { s' : State // s'.left < n } :=
  ⟨s.passOver depth, left_passOver_lt depth h⟩

-- Passes over tokens after a failure in what begins at `start`. If nothing of it was read, its
-- first token is passed over in any case.
def moveOn (start s : State) (h : s.left ≤ start.left) (more : 0 < start.left) :
    { s' : State // s'.left < start.left } :=
  if same : s.left = start.left then
    match s.next with
    | .nothing => ⟨s.rewind { s.cursor with rest := [] }, more⟩
    | .token t s₁ h₁ =>
      match t.kind with
      | .semicolon => ⟨s₁, left_lt_behind h h₁⟩
      | .leftBrace => s₁.skip 1 (left_lt_behind h h₁)
      | _ => s₁.skip 0 (left_lt_behind h h₁)
  else s.skip 0 (left_lt_of_ne h same)

def leadingHint? (start : State) : Option String :=
  if start.peek.kind = .identifier then Spelling.correction? start.peek.text else none

def goOn (start : State) (failure : Failure) (s : State) (h : s.left ≤ start.left)
    (more : 0 < start.left) : { s' : State // s'.left < start.left } :=
  let s₁ := s.report (failure.diagnostic start.leadingHint?)
  match failure.resume with
  | none => start.moveOn s₁ h more
  | some cursor =>
    if later : cursor.rest.length < start.left then ⟨s₁.rewind cursor, later⟩
    else start.moveOn s₁ h more

end State
end Lumen.Grammar
