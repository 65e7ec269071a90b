import Lumen.Diagnostic
import Lumen.Token

namespace Lumen.Grammar

open Token (Kind)

-- A place in a list of tokens. Reading ends at the first end marker; what may stand beyond it can
-- be looked at but is never read.
structure Cursor where
  before : Option Token
  rest   : List Token
  stop   : Token
  beyond : List Token

namespace Cursor

-- The start of a list of tokens. If it has no end marker, one is placed on its last token.
def ofTokens (tokens : List Token) : Cursor :=
  let isEnd (t : Token) := t.kind = .endMarker
  let rest := tokens.takeWhile (!isEnd ·)
  match tokens.dropWhile (!isEnd ·) with
  | stop :: beyond => ⟨none, rest, stop, beyond⟩
  | [] => ⟨none, rest, .ending ((tokens.getLast?.map Token.loc).getD .first), []⟩

def peek (c : Cursor) : Token :=
  c.rest.headD c.stop

def ahead? (c : Cursor) (n : Nat) : Option Token :=
  match c.rest[n]? with
  | some t => some t
  | none => (c.stop :: c.beyond)[n - c.rest.length]?

def opensDeclaration (c : Cursor) : Bool :=
  c.peek.kind.isTypeWord ||
    (c.peek.kind = .identifier && (c.ahead? 1).any (·.kind = .identifier))

def opensRoutine (c : Cursor) : Bool :=
  c.opensDeclaration && (c.ahead? 2).any (·.kind = .leftParen)

end Cursor

structure State where
  cursor  : Cursor
  fresh   : Nat
  -- The last report comes first.
  reports : List Diagnostic

namespace State

def left (s : State) : Nat :=
  s.cursor.rest.length

def peek (s : State) : Token :=
  s.cursor.peek

def ofTokens (tokens : List Token) : State :=
  ⟨.ofTokens tokens, 0, []⟩

def rewind (s : State) (c : Cursor) : State :=
  { s with cursor := c }

def report (s : State) (d : Diagnostic) : State :=
  { s with reports := d :: s.reports }

def numbered (s : State) : State :=
  { s with fresh := s.fresh + 1 }

@[simp] theorem left_numbered (s : State) : s.numbered.left = s.left :=
  rfl

section Left

variable {s s₁ s₂ s₃ : State} {n : Nat}

theorem left_refl (s : State) : s.left ≤ s.left :=
  Nat.le_refl _

theorem left_le (h : s₁.left < s.left) : s₁.left ≤ s.left :=
  Nat.le_of_lt h

theorem left_pos (h : s₁.left < s.left) : 0 < s.left :=
  Nat.zero_lt_of_lt h

theorem left_le_trans (h₁ : s₁.left ≤ s.left) (h₂ : s₂.left ≤ s₁.left) : s₂.left ≤ s.left :=
  Nat.le_trans h₂ h₁

theorem left_lt_trans (h₁ : s₁.left < s.left) (h₂ : s₂.left ≤ s₁.left) : s₂.left < s.left :=
  Nat.lt_of_le_of_lt h₂ h₁

theorem left_lt_trans₂ (h₁ : s₁.left < s.left) (h₂ : s₂.left ≤ s₁.left) (h₃ : s₃.left ≤ s₂.left) :
    s₃.left < s.left :=
  left_lt_trans h₁ (left_le_trans h₂ h₃)

theorem left_le_behind (h₁ : s₁.left < s.left) (h₂ : s₂.left < s₁.left) : s₂.left ≤ s.left :=
  left_le (left_lt_trans h₁ (left_le h₂))

theorem left_lt_behind (h : s₁.left ≤ s.left) (h₁ : s₂.left < s₁.left) : s₂.left < s.left :=
  Nat.lt_of_lt_of_le h₁ h

theorem left_lt_of_ne (h : s₁.left ≤ s.left) (hn : ¬s₁.left = s.left) : s₁.left < s.left :=
  Nat.lt_of_le_of_ne h hn

theorem left_le_bound (h : s.left ≤ n) (h₁ : s₁.left < s.left) : s₁.left ≤ n :=
  Nat.le_trans (Nat.le_of_lt h₁) h

theorem left_le_of_lt_bound (h : s.left < n) (h₁ : s₁.left < s.left) : s₁.left ≤ n :=
  left_le_bound (Nat.le_of_lt h) h₁

end Left

inductive Next (s : State) where
  | nothing
  | token (t : Token) (behind : State) (shorter : behind.left < s.left)

def next (s : State) : Next s :=
  match h : s.cursor.rest with
  | [] => .nothing
  | t :: rest =>
    .token t (s.rewind { s.cursor with before := some t, rest })
      (by simp [left, rewind, h])

def accept? (s : State) (kind : Kind) : Option { behind : State // behind.left < s.left } :=
  match s.next with
  | .token t behind shorter => if t.kind = kind then some ⟨behind, shorter⟩ else none
  | .nothing => none

end State
end Lumen.Grammar
