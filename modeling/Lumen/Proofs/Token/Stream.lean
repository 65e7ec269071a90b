import Lumen.Token.Stream

namespace Lumen

open List Option

namespace Location

variable {a b c : Location}

theorem lt_iff : a < b ↔ a.line < b.line ∨ (a.line = b.line ∧ a.column < b.column) :=
  .rfl

theorem le_iff : a ≤ b ↔ a.line < b.line ∨ (a.line = b.line ∧ a.column ≤ b.column) :=
  .rfl

theorem le_refl (a : Location) : a ≤ a :=
  .inr ⟨rfl, Nat.le_refl _⟩

theorem le_of_lt (h : a < b) : a ≤ b := by
  rw [lt_iff] at h
  rw [le_iff]
  omega

theorem le_trans (h₁ : a ≤ b) (h₂ : b ≤ c) : a ≤ c := by
  rw [le_iff] at *
  omega

theorem lt_of_lt_of_le (h₁ : a < b) (h₂ : b ≤ c) : a < c := by
  rw [lt_iff] at *
  rw [le_iff] at h₂
  omega

theorem ne_of_lt (h : a < b) : a ≠ b := by
  rintro rfl
  rw [lt_iff] at h
  omega

theorem lt_after (loc : Location) (c : Char) : loc < loc.after c := by
  rw [lt_iff, after]
  split <;> simp

theorem le_afterAll (loc : Location) (cs : List Char) : loc ≤ loc.afterAll cs := by
  induction cs generalizing loc
  case nil => exact le_refl loc
  case cons c cs ih => exact le_trans (le_of_lt (loc.lt_after c)) (ih _)

theorem lt_afterAll (loc : Location) (h : cs ≠ []) : loc < loc.afterAll cs := by
  cases cs
  case nil => contradiction
  case cons c cs => exact lt_of_lt_of_le (loc.lt_after c) (le_afterAll _ cs)

end Location

namespace Token

structure IsName (name : String) : Prop where
  letters    : ∀ c ∈ name.toList, continuesWord c
  unreserved : Kind.ofWord? name = none

namespace IsName

variable {name : String}

theorem ne_this (h : IsName name) : name ≠ "this" := by
  rintro rfl
  have := h.unreserved
  contradiction

theorem dot_notMem (h : IsName name) : '.' ∉ name.toList := by
  intro hd
  have := h.letters '.' hd
  contradiction

theorem lt_notMem (h : IsName name) : '<' ∉ name.toList := by
  intro hd
  have := h.letters '<' hd
  contradiction

end IsName

theorem continuesWord_of_startsWord (h : startsWord c) : continuesWord c := by
  simp only [startsWord, continuesWord, Char.isAlphanum, Bool.or_eq_true] at *
  rcases h with h | h
  · exact .inl (.inl h)
  · exact .inr h

namespace Piece

theorem token?_loc {p : Piece} {loc : Location} (h : p.token? loc = some t) : t.loc = loc := by
  cases p <;> simp only [token?, Option.some.injEq, reduceCtorEq] at h <;> exact h ▸ rfl

end Piece

theorem piecesOnto_all {P : Piece → Prop} (hP : ∀ c cs, P (Piece.next c cs).1)
    (done : Array Piece) (cs : List Char) (hd : ∀ p ∈ done, P p) :
    ∀ p ∈ piecesOnto done cs, P p := by
  fun_induction piecesOnto done cs
  case case1 => exact hd
  case case2 done c cs found ih =>
    refine ih fun p hp => ?_
    rcases Array.mem_push.mp hp with hp | hp
    · exact hd p hp
    · exact hp ▸ hP c cs

theorem pieces_all {P : Piece → Prop} (hP : ∀ c cs, P (Piece.next c cs).1) (source : List Char) :
    ∀ p ∈ (pieces source).toList, P p :=
  fun p hp => piecesOnto_all hP #[] source (by simp) p (Array.mem_toList_iff.mp hp)

def tokensFrom (loc : Location) : List Piece → List Token
  | [] => [.ending loc]
  | p :: rest => (p.token? loc).toList ++ tokensFrom (loc.afterAll p.text) rest

end Token

open Token (tokensFrom)

theorem Lexed.tokens_ofPiecesOnto (ts : Array Token) (ps : Array LexicalProblem)
    (loc : Location) (pieces : List Token.Piece) :
    (ofPiecesOnto ts ps loc pieces).tokens.toList = ts.toList ++ tokensFrom loc pieces := by
  induction pieces generalizing ts ps loc
  case nil => simp [ofPiecesOnto, tokensFrom]
  case cons p rest ih =>
    simp only [ofPiecesOnto, tokensFrom]
    cases p.token? loc <;> simp [ih]

theorem Lexed.tokens_ofSource (source : String) :
    (ofSource source).tokens.toList = tokensFrom .first (Token.pieces source.toList).toList := by
  simp [ofSource, ofPieces, tokens_ofPiecesOnto]

namespace Token

variable {loc : Location} {pieces : List Piece}

theorem le_loc_of_mem_tokensFrom (h : t ∈ tokensFrom loc pieces) : loc ≤ t.loc := by
  induction pieces generalizing loc
  case nil =>
    rw [mem_singleton.mp h]
    exact Location.le_refl loc
  case cons p rest ih =>
    rcases mem_append.mp h with h | h
    · exact Piece.token?_loc (mem_toList.mp h) ▸ Location.le_refl _
    · exact Location.le_trans (loc.le_afterAll _) (ih h)

theorem tokensFrom_sorted (hp : ∀ p ∈ pieces, p.text ≠ []) :
    (tokensFrom loc pieces).Pairwise (·.loc < ·.loc) := by
  induction pieces generalizing loc
  case nil => exact pairwise_singleton _ _
  case cons p rest ih =>
    have hrest : (tokensFrom (loc.afterAll p.text) rest).Pairwise (·.loc < ·.loc) :=
      ih fun q hq => hp q (mem_cons_of_mem _ hq)
    simp only [tokensFrom]
    cases ht : p.token? loc
    case none => exact hrest
    case some t =>
      refine pairwise_cons.mpr ⟨fun u hu => ?_, hrest⟩
      have hlt := loc.lt_afterAll (hp p (mem_cons_self ..))
      have hle := le_loc_of_mem_tokensFrom hu
      rw [Piece.token?_loc ht]
      exact Location.lt_of_lt_of_le hlt hle

end Token

namespace Lexed

variable (source : String)

theorem ofSource_sorted : (ofSource source).tokens.toList.Pairwise (·.loc < ·.loc) := by
  rw [tokens_ofSource]
  exact Token.tokensFrom_sorted (Token.pieces_all Token.Piece.next_text_ne_nil _)

end Lexed
end Lumen
