import Lumen.Proofs.Symbol.Table

namespace Lumen

open Option

def Scope.Kind.Suits : Scope.Kind → Symbol.Kind → Prop
  | .global, .variable | .global, .classDef | .global, .routine _ => True
  | .classBody, .field | .classBody, .routine _ => True
  | .method, .variable | .method, .parameter => True
  | .block, .variable => True
  | _, _ => False

def Scope.Orderly (s : Scope) : Prop :=
  ∀ name symbol, s.get? name = some symbol →
    symbol.name = name ∧ symbol.home = s.kind ∧ s.kind.Suits symbol.kind

namespace SymbolTable

def kindOf? (t : SymbolTable) (i : Nat) : Option Scope.Kind :=
  t.scopes[i]?.map Scope.kind

structure Orderly (t : SymbolTable) : Prop where
  scopes   : ∀ (i : Nat) (s : Scope), t.scopes[i]? = some s → s.Orderly
  global   : t.kindOf? global = some .global
  classes  : ∀ (name : String) (i : Nat), t.classes[name]? = some i →
    t.kindOf? i = some .classBody
  routines : ∀ (name : String) (i : Nat), t.routines[name]? = some i →
    t.kindOf? i = some .method
  -- Two routines have two scopes.
  apart    : ∀ (name name' : String) (i : Nat), t.routines[name]? = some i →
    t.routines[name']? = some i → name = name'

def header? (t : SymbolTable) (i : Nat) : Option (Scope.Kind × String) :=
  t.scopes[i]?.map fun s => (s.kind, s.name)

-- A scope that has a name is known by its kind and this name.
structure Headed (t : SymbolTable) : Prop where
  global   : t.header? global = some (.global, "<global>")
  classes  : ∀ (name : String) (i : Nat), t.classScope? name = some i →
    t.header? i = some (.classBody, name)
  routines : ∀ (name : String) (i : Nat), t.routineScope? name = some i →
    t.header? i = some (.method, name)

structure Lasts (t t' : SymbolTable) : Prop where
  headers  : ∀ i head, t.header? i = some head → t'.header? i = some head
  symbols  : ∀ (i : Nat) (name : String) (symbol : Symbol),
    t.inScope? i name = some symbol → t'.inScope? i name = some symbol
  classes  : ∀ (name : String) (i : Nat), t.classes[name]? = some i → t'.classes[name]? = some i
  routines : ∀ (name : String) (i : Nat), t.routines[name]? = some i →
    t'.routines[name]? = some i

structure Grows (t t' : SymbolTable) : Prop extends t.Lasts t' where
  finished : ∀ (i : Nat) (s : Scope), t.scopes[i]? = some s → s.kind = .method →
    t'.scopes[i]? = some s

variable {t t' t'' : SymbolTable}

variable {i : Nat}

theorem kindOf?_of_scope (h : t.scopes[i]? = some s) : t.kindOf? i = some s.kind := by
  simp [kindOf?, h]

variable {kind : Scope.Kind}

theorem scope_of_kindOf? (h : t.kindOf? i = some kind) :
    ∃ s, t.scopes[i]? = some s ∧ s.kind = kind :=
  map_eq_some_iff.mp h

theorem lt_of_kindOf? (h : t.kindOf? i = some kind) : i < t.scopes.size := by
  obtain ⟨s, hs, _⟩ := scope_of_kindOf? h
  exact (Array.getElem?_eq_some_iff.mp hs).1

variable {name : String}

theorem lt_of_inScope? (h : t.inScope? i name = some symbol) : i < t.scopes.size := by
  obtain ⟨s, hs, _⟩ := bind_eq_some_iff.mp h
  exact (Array.getElem?_eq_some_iff.mp hs).1

theorem inScope?_insert (t : SymbolTable) (hk : t.kindOf? i = some kind) (j : Nat) (name : String) :
    (t.insert i symbol).inScope? j name =
      if i = j ∧ symbol.name = name then some { symbol with home := kind }
      else t.inScope? j name := by
  obtain ⟨s, hs, he⟩ := scope_of_kindOf? hk
  simp only [inScope?, scopes_insert]
  by_cases hi : i = j
  case pos =>
    subst hi
    simp only [if_pos, hs, map_some, bind_some, Scope.get?_insert, he, true_and]
  case neg => simp [hi]

theorem getElem?_insertIfNew_of_some {m : Std.TreeMap String Nat} {key : String}
    (h : m[key]? = some i) (name : String) (j : Nat) : (m.insertIfNew name j)[key]? = some i := by
  have hmem : key ∈ m := by simp [← Std.TreeMap.isSome_getElem?_iff_mem, h]
  rw [Std.TreeMap.getElem?_insertIfNew, if_neg, h]
  rintro ⟨hkey, hn⟩
  exact hn (Std.LawfulEqCmp.eq_of_compare hkey ▸ hmem)

theorem getElem?_insertIfNew_new {m : Std.TreeMap String Nat} (h : m[name]? = none) (key : String)
    (j : Nat) : (m.insertIfNew name j)[key]? = if name = key then some j else m[key]? := by
  have hmem : name ∉ m := by simp [← Std.TreeMap.isSome_getElem?_iff_mem, h]
  simp [Std.TreeMap.getElem?_insertIfNew, hmem]

theorem kindOf?_of_header? (h : t.header? i = some head) : t.kindOf? i = some head.1 := by
  obtain ⟨s, hs, rfl⟩ := map_eq_some_iff.mp h
  exact kindOf?_of_scope hs

theorem lt_of_header? (h : t.header? i = some head) : i < t.scopes.size :=
  lt_of_kindOf? (kindOf?_of_header? h)

@[simp] theorem header?_insert (t : SymbolTable) (i j : Nat) (symbol : Symbol) :
    (t.insert i symbol).header? j = t.header? j := by
  simp only [header?, scopes_insert]
  split <;> simp [Function.comp_def, Scope.insert]

theorem header?_newScope (t : SymbolTable) (kind : Scope.Kind) (name : String) (parent j : Nat) :
    (t.newScope kind name parent).header? j =
      if j = t.scopes.size then some (kind, name) else t.header? j := by
  simp only [header?, scopes_newScope]
  split <;> rfl

theorem of_getElem?_insertIfNew {m : Std.TreeMap String Nat}
    (h : (m.insertIfNew name j)[key]? = some i) : (name = key ∧ i = j) ∨ m[key]? = some i := by
  rw [Std.TreeMap.getElem?_insertIfNew] at h
  split at h
  case isTrue hnew => exact .inl ⟨Std.LawfulEqCmp.eq_of_compare hnew.1, (Option.some.inj h).symm⟩
  case isFalse => exact .inr h

namespace Lasts

theorem refl (t : SymbolTable) : t.Lasts t :=
  ⟨fun _ _ h => h, fun _ _ _ h => h, fun _ _ h => h, fun _ _ h => h⟩

theorem trans (h : t.Lasts t') (h' : t'.Lasts t'') : t.Lasts t'' where
  headers i head hi := h'.headers i head (h.headers i head hi)
  symbols i name symbol hs := h'.symbols i name symbol (h.symbols i name symbol hs)
  classes name i hi := h'.classes name i (h.classes name i hi)
  routines name i hi := h'.routines name i (h.routines name i hi)

theorem insert {symbol : Symbol} (hfree : t.inScope? i symbol.name = none) :
    t.Lasts (t.insert i symbol) where
  headers j head hj := by simpa using hj
  symbols j name found hf := by
    by_cases hij : i = j
    case neg => rwa [inScope?, scopes_insert, if_neg hij]
    case pos =>
      subst hij
      obtain ⟨s, hs, -⟩ := bind_eq_some_iff.mp hf
      rw [inScope?_insert t (kindOf?_of_scope hs), if_neg]
      · exact hf
      · rintro ⟨-, rfl⟩
        cases hfree.symm.trans hf
  classes _ _ h := h
  routines _ _ h := h

theorem newScope (t : SymbolTable) (kind : Scope.Kind) (name : String) (parent : Nat) :
    t.Lasts (t.newScope kind name parent) where
  headers i head hi := by
    rw [header?_newScope, if_neg (Nat.ne_of_lt (lt_of_header? hi))]
    exact hi
  symbols i n symbol h := by
    rw [inScope?, scopes_newScope, if_neg (Nat.ne_of_lt (lt_of_inScope? h))]
    exact h
  classes n i h := by
    simp only [SymbolTable.newScope]
    split
    case isTrue => exact getElem?_insertIfNew_of_some h name _
    case isFalse => exact h
  routines n i h := by
    simp only [SymbolTable.newScope]
    split
    case isTrue => exact getElem?_insertIfNew_of_some h name _
    case isFalse => exact h

theorem kinds (h : t.Lasts t') (hk : t.kindOf? i = some kind) : t'.kindOf? i = some kind := by
  obtain ⟨s, hs, rfl⟩ := scope_of_kindOf? hk
  exact kindOf?_of_header? (h.headers i (s.kind, s.name) (by rw [header?, hs]; rfl))

theorem mem_classes (h : t.Lasts t') (hn : name ∈ t.classes) : name ∈ t'.classes := by
  rw [← Std.TreeMap.isSome_getElem?_iff_mem] at hn ⊢
  obtain ⟨i, hi⟩ := isSome_iff_exists.mp hn
  simp [h.classes name i hi]

theorem mem_routines (h : t.Lasts t') (hn : name ∈ t.routines) : name ∈ t'.routines := by
  rw [← Std.TreeMap.isSome_getElem?_iff_mem] at hn ⊢
  obtain ⟨i, hi⟩ := isSome_iff_exists.mp hn
  simp [h.routines name i hi]

end Lasts

namespace Headed

theorem scope (h : t.header? i = some head) : ∃ s, t.scopes[i]? = some s := by
  obtain ⟨s, hs, -⟩ := map_eq_some_iff.mp h
  exact ⟨s, hs⟩

theorem insert (h : t.Headed) (i : Nat) (symbol : Symbol) : (t.insert i symbol).Headed where
  global := by simpa using h.global
  classes name j hj := by simpa using h.classes name j hj
  routines name j hj := by simpa using h.routines name j hj

theorem newScope (h : t.Headed) (kind : Scope.Kind) (name : String) (parent : Nat) :
    (t.newScope kind name parent).Headed where
  global := (Lasts.newScope t kind name parent).headers _ _ h.global
  classes n i hi := by
    have hlasts := (Lasts.newScope t kind name parent).headers i
    simp only [classScope?, SymbolTable.newScope] at hi
    split at hi
    case isTrue hk =>
      rcases of_getElem?_insertIfNew hi with ⟨rfl, rfl⟩ | hi
      · rw [header?_newScope, if_pos rfl, hk]
      · exact hlasts _ (h.classes n i hi)
    case isFalse => exact hlasts _ (h.classes n i hi)
  routines n i hi := by
    have hlasts := (Lasts.newScope t kind name parent).headers i
    simp only [routineScope?, SymbolTable.newScope] at hi
    split at hi
    case isTrue hk =>
      rcases of_getElem?_insertIfNew hi with ⟨rfl, rfl⟩ | hi
      · rw [header?_newScope, if_pos rfl, hk]
      · exact hlasts _ (h.routines n i hi)
    case isFalse => exact hlasts _ (h.routines n i hi)

theorem orderly (h : t.Headed) (hs : ∀ (i : Nat) (s : Scope), t.scopes[i]? = some s → s.Orderly) :
    t.Orderly where
  scopes := hs
  global := kindOf?_of_header? h.global
  classes name i hi := kindOf?_of_header? (h.classes name i hi)
  routines name i hi := kindOf?_of_header? (h.routines name i hi)
  apart name name' i hi hi' := by
    cases (h.routines name i hi).symm.trans (h.routines name' i hi')
    rfl

end Headed

namespace Grows

theorem refl (t : SymbolTable) : t.Grows t :=
  ⟨.refl t, fun _ _ h _ => h⟩

theorem trans (h : t.Grows t') (h' : t'.Grows t'') : t.Grows t'' :=
  ⟨h.toLasts.trans h'.toLasts, fun i s hs hk => h'.finished i s (h.finished i s hs hk) hk⟩

theorem insert {symbol : Symbol} (hk : t.kindOf? i = some kind) (hne : kind ≠ .method)
    (hfree : t.inScope? i symbol.name = none) : t.Grows (t.insert i symbol) where
  toLasts := .insert hfree
  finished j s hs hm := by
    have hij : i ≠ j := by
      rintro rfl
      rw [kindOf?_of_scope hs, hm] at hk
      exact hne (Option.some.inj hk).symm
    simpa [hij] using hs

theorem newScope (t : SymbolTable) (kind : Scope.Kind) (name : String) (parent : Nat) :
    t.Grows (t.newScope kind name parent) where
  toLasts := .newScope t kind name parent
  finished i s hs _ := by
    rw [scopes_newScope, if_neg (Nat.ne_of_lt (lt_of_kindOf? (kindOf?_of_scope hs)))]
    exact hs

theorem of_scopes {n : Nat} (h : t.Grows t') (hn : t.scopes.size ≤ n)
    (hs : ∀ i : Nat, i ≠ n → t''.scopes[i]? = t'.scopes[i]?) (hc : t''.classes = t'.classes)
    (hr : t''.routines = t'.routines) : t.Grows t'' where
  symbols i name symbol hi := by
    have hlt := lt_of_inScope? hi
    rw [inScope?_congr (hs i (by omega))]
    exact h.symbols i name symbol hi
  headers i head hi := by
    have hlt := lt_of_header? hi
    rw [header?, hs i (by omega)]
    exact h.headers i head hi
  finished i s hi hk := by
    have hlt := lt_of_kindOf? (kindOf?_of_scope hi)
    rw [hs i (by omega)]
    exact h.finished i s hi hk
  classes name i hi := hc ▸ h.classes name i hi
  routines name i hi := hr ▸ h.routines name i hi

end Grows

namespace Orderly

theorem symbol {i : Nat} {kind : Scope.Kind} {name : String} {symbol : Symbol} (h : t.Orderly)
    (hk : t.kindOf? i = some kind) (hs : t.inScope? i name = some symbol) :
    symbol.name = name ∧ symbol.home = kind ∧ kind.Suits symbol.kind := by
  obtain ⟨s, hscope, hget⟩ := bind_eq_some_iff.mp hs
  cases (kindOf?_of_scope hscope).symm.trans hk
  exact h.scopes i s hscope name symbol hget

end Orderly
end SymbolTable
end Lumen
