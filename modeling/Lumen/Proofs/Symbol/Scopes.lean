import Lumen.Proofs.Symbol.Orderly
import Mathlib.Data.List.Basic

namespace Lumen

open List Option

namespace Scope

variable {s : Scope}

def named? (s : Scope) (name : String) : Option Symbol :=
  s.symbols.find? (·.name = name)

def frame (s : Scope) : Kind × String × Option Nat × List Symbol :=
  (s.kind, s.name, s.parent, s.retired)

@[simp] theorem names_retype (s : Scope) (name : String) (type : Ty) :
    (s.retype name type).names = s.names := by
  unfold retype
  split <;> rfl

@[simp] theorem frame_retype (s : Scope) (name : String) (type : Ty) :
    (s.retype name type).frame = s.frame := by
  unfold retype
  split <;> rfl

structure Kept (s : Scope) : Prop where
  nodup    : s.names.Nodup
  declared : ∀ name, (s.get? name).isSome ↔ name ∈ s.names
  named    : ∀ name symbol, s.get? name = some symbol → symbol.name = name

namespace Kept

theorem empty (kind : Kind) (name : String) (parent : Option Nat) :
    (Scope.empty kind name parent).Kept where
  nodup := .nil
  declared n := by simp [Scope.empty, Scope.get?]
  named n symbol h := by simp at h

section

variable (h : s.Kept)

include h

theorem insert {symbol : Symbol} (hfree : s.get? symbol.name = none) :
    (s.insert symbol).Kept where
  nodup := nodup_cons.mpr ⟨by simp [← h.declared, hfree], h.nodup⟩
  declared n := by
    rw [get?_insert]
    split <;> simp_all [Scope.insert, h.declared, eq_comm]
  named n found hn := by
    rw [get?_insert] at hn
    split at hn
    case isTrue heq => cases hn; exact heq
    case isFalse => exact h.named n found hn

theorem retype (name : String) (type : Ty) : (s.retype name type).Kept := by
  refine ⟨by simpa using h.nodup, fun n => ?_, fun n found hn => ?_⟩
  · rw [get?_retype, names_retype, ← h.declared]
    split <;> simp
  · rw [get?_retype] at hn
    split at hn
    case isTrue =>
      obtain ⟨symbol, hs, rfl⟩ := map_eq_some_iff.mp hn
      exact h.named n symbol hs
    case isFalse => exact h.named n found hn

theorem retire (symbols : List Symbol) : (s.retire symbols).Kept :=
  ⟨h.nodup, h.declared, h.named⟩

theorem map_name : s.symbols.map Symbol.name = s.names.reverse := by
  have hall (names : List String) (hn : ∀ n ∈ names, n ∈ s.names) :
      (names.filterMap s.get?).map Symbol.name = names := by
    induction names
    case nil => rfl
    case cons n names ih =>
      obtain ⟨hn, hnames⟩ := forall_mem_cons.mp hn
      obtain ⟨symbol, hs⟩ := isSome_iff_exists.mp ((h.declared n).mpr hn)
      simp [hs, h.named n symbol hs, ih hnames]
  exact hall _ (by simp)

theorem named?_eq (name : String) : s.named? name = s.get? name := by
  cases hfound : s.named? name
  case some symbol =>
    have hname : symbol.name = name := by simpa using find?_some hfound
    obtain ⟨n, -, hn⟩ := mem_filterMap.mp (mem_of_find?_eq_some hfound)
    rw [← hname, h.named n symbol hn, hn]
  case none =>
    cases hget : s.get? name
    case none => rfl
    case some symbol =>
      have hmem : symbol ∈ s.symbols := by
        refine mem_filterMap.mpr ⟨name, mem_reverse.mpr ((h.declared name).mp ?_), hget⟩
        simp [hget]
      have := find?_eq_none.mp hfound symbol hmem
      simp [h.named name symbol hget] at this

theorem symbols_insert {symbol : Symbol} (hfree : s.get? symbol.name = none) :
    (s.insert symbol).symbols = s.symbols ++ [{ symbol with home := s.kind }] := by
  have hnames : (s.insert symbol).names = symbol.name :: s.names := rfl
  have hold : ∀ n ∈ s.names.reverse, (s.insert symbol).get? n = s.get? n := by
    intro n hn
    have := (h.declared n).mpr (mem_reverse.mp hn)
    rw [get?_insert, if_neg]
    rintro rfl
    simp [hfree] at this
  rw [symbols, hnames, reverse_cons, filterMap_append, filterMap_congr hold]
  simp [symbols, get?_insert]

theorem symbols_retype (name : String) (type : Ty) :
    (s.retype name type).symbols =
      s.symbols.map fun symbol => if symbol.name = name then { symbol with type } else symbol := by
  rw [symbols, names_retype, symbols, map_filterMap]
  refine filterMap_congr fun n _ => ?_
  rw [get?_retype]
  cases hget : s.get? n
  case none => simp
  case some symbol =>
    have hname := h.named n symbol hget
    by_cases heq : name = n
    · simp [heq, hname]
    · simp [heq, hname, Ne.symm heq]

end

end Kept
end Scope

namespace SymbolTable

-- The tables that come from the empty one. A new scope has a parent that is there.
inductive Built : SymbolTable → Prop where
  | empty : Built .empty
  | newScope {t : SymbolTable} {kind : Scope.Kind} {name : String} {parent : Nat} :
    Built t → parent < t.scopes.size → Built (t.newScope kind name parent)
  | declare {t t' : SymbolTable} {i : Nat} {symbol : Symbol} :
    Built t → t.declare i symbol = .ok t' → Built t'
  | retype {t : SymbolTable} {i : Nat} {name : String} {type : Ty} :
    Built t → Built (t.retype i name type)
  | retire {t : SymbolTable} {i : Nat} {symbols : List Symbol} :
    Built t → Built (t.retire i symbols)

inductive Outwards (t : SymbolTable) : Nat → List Scope → Prop where
  | last {i : Nat} {s : Scope} : t.scopes[i]? = some s → s.parent = none → Outwards t i [s]
  | next {i parent : Nat} {s : Scope} {scopes : List Scope} :
    t.scopes[i]? = some s → s.parent = some parent → Outwards t parent scopes →
    Outwards t i (s :: scopes)

def heads (t : SymbolTable) : List (Scope.Kind × String) :=
  t.scopes.toList.map fun s => (s.kind, s.name)

def first? (t : SymbolTable) (kind : Scope.Kind) (name : String) : Option Nat :=
  t.heads.findIdx? (· = (kind, name))

def set (t : SymbolTable) (i : Nat) (s : Scope) : SymbolTable :=
  { t with scopes := t.scopes.setIfInBounds i s }

structure Scoped (t : SymbolTable) : Prop where
  distinct : ∀ s ∈ t.scopes, (s.symbols.map Symbol.name).Nodup
  refused  : ∀ (i : Nat) s symbol first, t.scopes[i]? = some s →
    s.named? symbol.name = some first → t.declare i symbol = .error first.loc
  added    : ∀ (i : Nat) s symbol, t.scopes[i]? = some s → s.named? symbol.name = none →
    ∃ s' : Scope, t.declare i symbol = .ok (t.set i s') ∧ s'.frame = s.frame ∧
      s'.symbols = s.symbols ++ [{ symbol with home := s.kind }]
  retyped  : ∀ (i : Nat) s name type, t.scopes[i]? = some s →
    ∃ s' : Scope, t.retype i name type = t.set i s' ∧ s'.frame = s.frame ∧ s'.symbols =
      s.symbols.map fun symbol => if symbol.name = name then { symbol with type } else symbol
  found    : ∀ i < t.scopes.size, ∃ scopes, t.Outwards i scopes ∧
    ∀ name, t.find? i name = scopes.findSome? (·.named? name)
  retired  : ∀ i symbols, (t.retire i symbols).find? = t.find?
  classes  : ∀ name, t.classScope? name = t.first? .classBody name
  routines : ∀ name, t.routineScope? name = t.first? .method name

variable {t : SymbolTable}

theorem set_eq_modify {i : Nat} {s : Scope} (f : Scope → Scope) (h : t.scopes[i]? = some s) :
    { t with scopes := t.scopes.modify i f } = t.set i (f s) := by
  rw [set]
  congr 1
  refine Array.ext_getElem? fun j => ?_
  rw [Array.getElem?_modify, Array.getElem?_setIfInBounds]
  split
  case isTrue hij =>
    rw [← hij, h, if_pos (Array.getElem?_eq_some_iff.mp h).1]
    rfl
  case isFalse => rfl

structure Arranged (t : SymbolTable) : Prop where
  kept     : ∀ (i : Nat) s, t.scopes[i]? = some s → s.Kept
  parents  : ∀ (i : Nat) s, t.scopes[i]? = some s → ∀ parent ∈ s.parent, parent < i
  classes  : ∀ name, t.classScope? name = t.first? .classBody name
  routines : ∀ name, t.routineScope? name = t.first? .method name

namespace Arranged

-- A change of one scope that keeps its head and its parent.
theorem modify (h : t.Arranged) (i : Nat) (f : Scope → Scope)
    (hkept : ∀ s : Scope, s.Kept → t.scopes[i]? = some s → (f s).Kept)
    (hframe : ∀ s, (f s).kind = s.kind ∧ (f s).name = s.name ∧ (f s).parent = s.parent) :
    Arranged { t with scopes := t.scopes.modify i f } := by
  have hheads : heads { t with scopes := t.scopes.modify i f } = t.heads := by
    refine ext_getElem? fun j => ?_
    simp only [heads, getElem?_map, Array.getElem?_toList, Array.getElem?_modify]
    split <;> simp [Function.comp_def, hframe]
  have hscope (j : Nat) (s : Scope) (hs : (t.scopes.modify i f)[j]? = some s) :
      ∃ s', t.scopes[j]? = some s' ∧ s.parent = s'.parent ∧ (s'.Kept → s.Kept) := by
    rw [Array.getElem?_modify] at hs
    split at hs
    case isTrue hij =>
      obtain ⟨s', hs', rfl⟩ := map_eq_some_iff.mp hs
      exact ⟨s', hs', (hframe s').2.2, fun hk => hkept s' hk (hij ▸ hs')⟩
    case isFalse => exact ⟨s, hs, rfl, id⟩
  constructor
  case kept =>
    intro j s hs
    obtain ⟨s', hs', -, hk⟩ := hscope j s hs
    exact hk (h.kept j s' hs')
  case parents =>
    intro j s hs
    obtain ⟨s', hs', hp, -⟩ := hscope j s hs
    exact hp ▸ h.parents j s' hs'
  case classes =>
    intro name
    rw [first?, hheads]
    exact h.classes name
  case routines =>
    intro name
    rw [first?, hheads]
    exact h.routines name

-- A map from names to the first scopes of a kind, when there is one more scope.
theorem first?_newScope (t : SymbolTable) {kind : Scope.Kind} {m : Std.TreeMap String Nat}
    (hm : ∀ name, m[name]? = t.first? kind name) (kind' : Scope.Kind) (name' : String)
    (parent : Nat) (name : String) :
    (if kind' = kind then m.insertIfNew name' t.scopes.size else m)[name]? =
      (t.newScope kind' name' parent).first? kind name := by
  have hheads : (t.newScope kind' name' parent).heads = t.heads ++ [(kind', name')] := by
    simp [heads, newScope, Scope.empty]
  have hlength : t.heads.length = t.scopes.size := by simp [heads]
  rw [first?, hheads, findIdx?_append, ← first?, hlength, ← hm]
  by_cases hk : kind' = kind
  case neg => simp [hk]
  by_cases hn : name' = name
  case neg => simp [hk, hn, Std.TreeMap.getElem?_insertIfNew]
  subst hn
  cases hfirst : m[name']?
  case none =>
    rw [if_pos hk, getElem?_insertIfNew_new hfirst]
    simp [hk]
  case some =>
    rw [if_pos hk, getElem?_insertIfNew_of_some hfirst]
    rfl

theorem newScope (h : t.Arranged) {parent : Nat} (hp : parent < t.scopes.size)
    (kind : Scope.Kind) (name : String) : (t.newScope kind name parent).Arranged where
  kept i s hs := by
    rw [scopes_newScope] at hs
    split at hs
    case isTrue => cases hs; exact .empty ..
    case isFalse => exact h.kept i s hs
  parents i s hs := by
    rw [scopes_newScope] at hs
    split at hs
    case isTrue hi => cases hs; simp [hi, Scope.empty, hp]
    case isFalse => exact h.parents i s hs
  classes := first?_newScope t h.classes kind name parent
  routines := first?_newScope t h.routines kind name parent

end Arranged

theorem Built.arranged (h : t.Built) : t.Arranged := by
  induction h
  case empty =>
    have hscope (i : Nat) (s : Scope) (hs : SymbolTable.empty.scopes[i]? = some s) :
        s = .empty .global "<global>" none := by
      simp only [SymbolTable.empty, getElem?_toArray, getElem?_singleton] at hs
      grind
    constructor
    case kept => exact fun i s hs => hscope i s hs ▸ .empty ..
    case parents => exact fun i s hs => hscope i s hs ▸ by simp [Scope.empty]
    all_goals simp [classScope?, routineScope?, first?, heads, SymbolTable.empty, Scope.empty]
  case newScope kind name parent _ hp ih => exact ih.newScope hp kind name
  case declare t t' i symbol _ hd ih =>
    rw [SymbolTable.declare] at hd
    split at hd
    case h_1 => cases hd
    case h_2 hfree =>
      cases hd
      refine ih.modify i _ (fun s hk hs => hk.insert ?_) fun _ => ⟨rfl, rfl, rfl⟩
      rwa [inScope?_of_scope hs] at hfree
  case retype i name type _ ih =>
    have hframe (s : Scope) := s.frame_retype name type
    simp only [Scope.frame, Prod.mk.injEq] at hframe
    exact ih.modify i _ (fun s hk _ => hk.retype name type) fun s => ⟨(hframe s).1, (hframe s).2.1,
      (hframe s).2.2.1⟩
  case retire i symbols _ ih =>
    exact ih.modify i _ (fun s hk _ => hk.retire symbols) fun _ => ⟨rfl, rfl, rfl⟩

theorem Arranged.found (h : t.Arranged) (hi : i < t.scopes.size) :
    ∃ scopes, t.Outwards i scopes ∧ ∀ name, t.find? i name = scopes.findSome? (·.named? name) := by
  induction i using Nat.strongRecOn
  case ind i ih =>
    have hs : t.scopes[i]? = some t.scopes[i] := Array.getElem?_eq_getElem hi
    have hnamed (name : String) : t.inScope? i name = t.scopes[i].named? name := by
      rw [inScope?_of_scope hs, (h.kept i _ hs).named?_eq]
    cases hparent : t.scopes[i].parent
    case none =>
      refine ⟨_, .last hs hparent, fun name => ?_⟩
      rw [find?, hnamed]
      cases hn : t.scopes[i].named? name <;> simp [hs, hparent, hn]
    case some parent =>
      have hlt : parent < i := h.parents i _ hs parent hparent
      obtain ⟨scopes, houtwards, hfind⟩ := ih parent hlt (hlt.trans hi)
      refine ⟨_, .next hs hparent houtwards, fun name => ?_⟩
      rw [find?, hnamed]
      cases hn : t.scopes[i].named? name <;> simp [hs, hparent, hn, hlt, hfind]

theorem find?_retire (t : SymbolTable) (i : Nat) (symbols : List Symbol) :
    (t.retire i symbols).find? = t.find? := by
  funext j name
  induction j using Nat.strongRecOn
  case ind j ih =>
    have hscope : (t.retire i symbols).inScope? j name = t.inScope? j name ∧
        (t.retire i symbols).scopes[j]?.bind (·.parent) = t.scopes[j]?.bind (·.parent) := by
      rw [inScope?, inScope?, scopes_retire]
      split <;> cases t.scopes[j]? <;> exact ⟨rfl, rfl⟩
    rw [find?, find?, hscope.1, hscope.2]
    grind

theorem Built.scoped (h : t.Built) : t.Scoped := by
  have ha := h.arranged
  constructor
  case distinct =>
    intro s hs
    obtain ⟨i, hi⟩ := Array.mem_iff_getElem?.mp hs
    rw [(ha.kept i s hi).map_name]
    exact pairwise_reverse.mpr ((ha.kept i s hi).nodup.imp Ne.symm)
  case refused =>
    intro i s symbol first hs hfirst
    rw [(ha.kept i s hs).named?_eq, ← inScope?_of_scope hs] at hfirst
    simp [SymbolTable.declare, hfirst]
  case added =>
    intro i s symbol hs hfree
    rw [(ha.kept i s hs).named?_eq] at hfree
    refine ⟨s.insert symbol, ?_, rfl, (ha.kept i s hs).symbols_insert hfree⟩
    rw [SymbolTable.declare, inScope?_of_scope hs, hfree, ← set_eq_modify (·.insert symbol) hs]
    rfl
  case retyped =>
    intro i s name type hs
    exact ⟨s.retype name type, set_eq_modify (·.retype name type) hs, s.frame_retype name type,
      (ha.kept i s hs).symbols_retype name type⟩
  case found => exact fun i hi => ha.found hi
  case retired => exact find?_retire t
  case classes => exact ha.classes
  case routines => exact ha.routines

theorem scoped_routine :
    let n : Symbol := .ofVariable "n" .int false ⟨1, 1⟩
    (((empty.newScope .method "f" global).insert 1 n).retire 1 [n]).Scoped := by
  intro n
  have hroutine : (empty.newScope .method "f" global).Built := .newScope .empty (by decide)
  have hn : (empty.newScope .method "f" global).declare 1 n =
      .ok ((empty.newScope .method "f" global).insert 1 n) := rfl
  exact Built.scoped (.retire (.declare hroutine hn))

end SymbolTable

end Lumen
