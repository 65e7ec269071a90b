import Lumen.Proofs.Typing.Provenance
import Lumen.Proofs.Typing.Agreement

namespace Lumen

open Typing List SymbolTable

def untyped (items : Items) : List String :=
  items.filterMap fun
    | .variable _ name none _ => some name
    | _ => none

-- What a name stands for in the scope `i`. Its type is known, unless it is a pending global.
structure Symbol.Typed (pending : List String) (i : Nat) (name : String) (symbol : Symbol) :
    Prop where
  known   : symbol.type = .error → i = global ∧ name ∈ pending
  returns : ∀ signature, symbol.kind = .routine signature → signature.returns ≠ .error

def SymbolTable.Typed (pending : List String) (t : SymbolTable) : Prop :=
  ∀ (i : Nat) (s : Scope), t.scopes[i]? = some s → s.ended = [] ∧
    ∀ (name : String) (symbol : Symbol), s.get? name = some symbol → symbol.Typed pending i name

def Stmt.fields : Stmt → List (Field Expr)
  | .classDef _ _ fields _ => fields
  | _ => []

structure Symbol.Sourced (items : Items) (i : Nat) (symbol : Symbol) : Prop where
  global : symbol.kind = .variable → i = global ∧
    ∃ item ∈ items, ∃ d ∈ item.declaration?, d.name = symbol.name
  field  : symbol.kind = .field →
    ∃ item ∈ items, ∃ f ∈ item.fields, symbol.type = Ty.ofName f.type

theorem SymbolTable.Typed.settled {t : SymbolTable} (h : t.Typed pending)
    (hs : t.scopes[i]? = some s) (hi : i ≠ global) (c : Checked) : s.Settled c := by
  obtain ⟨hended, hall⟩ := h i s hs
  intro symbol hmem he
  rw [Scope.retired, hended, reverse_nil, append_nil] at hmem
  obtain ⟨name, -, hget⟩ := mem_filterMap.mp hmem
  exact absurd ((hall name symbol hget).known he).1 hi

theorem mem_untyped_of_declaration (hi : item ∈ items) (hd : item.declaration? = some d)
    (ht : d.type = none) : d.name ∈ untyped items := by
  refine mem_filterMap.mpr ⟨item, hi, ?_⟩
  cases item <;> cases hd
  case «variable» => cases ht; rfl
  case constant => cases ht

-- A table in which nothing is wrong.
namespace SymbolTable.Collected

variable {items : Items} {t : SymbolTable}

theorem typed (h : t.Collected items True) : t.Typed (untyped items) := by
  refine fun i scope hscope => ⟨h.ended i scope hscope, fun name s hs => ?_⟩
  obtain ⟨rfl, -, hfrom⟩ := h.symbols i name s ((inScope?_of_scope hscope name).trans hs)
  have hread {w : TypeName} (ht : Ty.Reads True w s.type) : s.type ≠ .error :=
    ht.eq_ofName trivial ▸ Ty.ofName_ne_error w
  refine ⟨fun he => ?_, fun signature hk => ?_⟩
  · cases hfrom
    case builtIn ht _ => cases ht.symm.trans he
    case «variable» d hi _ hitem hd hn ht =>
      cases htype : d.type
      case none => exact ⟨hi, hn ▸ mem_untyped_of_declaration hitem hd htype⟩
      case some w => exact absurd he (hread (ht w htype))
    case parameter ht => exact absurd he (hread ht)
    case field ht => exact absurd he (hread ht)
    case classDef ht => cases ht.symm.trans he
    case routine ht => exact absurd he (hread ht)
  · cases hfrom <;> cases hk.symm.trans ‹s.kind = _›
    case builtIn.refl => simp
    case routine.refl ht => exact hread ht

theorem sourced (h : t.Collected items True) (hs : t.inScope? i name = some s) :
    s.Sourced items i := by
  obtain ⟨-, -, hfrom⟩ := h.symbols i name s hs
  refine ⟨fun hk => ?_, fun hk => ?_⟩
  · cases hfrom <;> cases hk.symm.trans ‹s.kind = _›
    case variable.refl hi _ hitem hd hn _ => exact ⟨hi, _, hitem, _, hd, hn⟩
  · cases hfrom <;> cases hk.symm.trans ‹s.kind = _›
    case field.refl f _ _ hitem hf _ ht => exact ⟨_, hitem, f, hf, ht.eq_ofName trivial⟩

end SymbolTable.Collected

end Lumen
