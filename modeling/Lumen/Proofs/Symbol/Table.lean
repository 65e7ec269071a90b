import Lumen.Symbol.Table
import Mathlib.Data.List.TakeWhile

namespace Lumen

open List

namespace SymbolTable

variable (t : SymbolTable)

@[simp] theorem scopes_insert (i j : Nat) (symbol : Symbol) :
    (t.insert i symbol).scopes[j]? =
      if i = j then t.scopes[j]?.map (·.insert symbol) else t.scopes[j]? := by
  simp [insert, Array.getElem?_modify]

@[simp] theorem scopes_retype (i j : Nat) (name : String) (type : Ty) :
    (t.retype i name type).scopes[j]? =
      if i = j then t.scopes[j]?.map (·.retype name type) else t.scopes[j]? := by
  simp [retype, Array.getElem?_modify]

@[simp] theorem scopes_retire (i j : Nat) (symbols : List Symbol) :
    (t.retire i symbols).scopes[j]? =
      if i = j then t.scopes[j]?.map (·.retire symbols) else t.scopes[j]? := by
  simp [retire, Array.getElem?_modify]

@[simp] theorem scopes_newScope (kind : Scope.Kind) (name : String) (parent j : Nat) :
    (t.newScope kind name parent).scopes[j]? =
      if j = t.scopes.size then some (Scope.empty kind name (some parent)) else t.scopes[j]? := by
  simp [newScope, Array.getElem?_push]

@[simp] theorem size_insert (i : Nat) (symbol : Symbol) :
    (t.insert i symbol).scopes.size = t.scopes.size := by
  simp [insert]

@[simp] theorem size_retype (i : Nat) (name : String) (type : Ty) :
    (t.retype i name type).scopes.size = t.scopes.size := by
  simp [retype]

@[simp] theorem size_retire (i : Nat) (symbols : List Symbol) :
    (t.retire i symbols).scopes.size = t.scopes.size := by
  simp [retire]

variable {t}

theorem inScope?_congr {t t' : SymbolTable} (h : t'.scopes[i]? = t.scopes[i]?) (name : String) :
    t'.inScope? i name = t.inScope? i name := by
  simp [inScope?, h]

theorem inScope?_of_scope (h : t.scopes[i]? = some s) (name : String) :
    t.inScope? i name = s.get? name := by
  simp [inScope?, h]

theorem findSome?_inScope?_congr {t t' : SymbolTable} {scopes : List Nat}
    (h : ∀ i ∈ scopes, t'.scopes[i]? = t.scopes[i]?) (name : String) :
    scopes.findSome? (t'.inScope? · name) = scopes.findSome? (t.inScope? · name) := by
  induction scopes
  case nil => rfl
  case cons i scopes ih =>
    obtain ⟨hi, hrest⟩ := forall_mem_cons.mp h
    simp [findSome?_cons, inScope?_congr hi, ih hrest]

theorem member?_congr {t t' : SymbolTable} (hc : t'.classes = t.classes)
    (h : ∀ (name : String) (i : Nat), t.classes[name]? = some i →
      t'.scopes[i]? = t.scopes[i]?) : t'.member? = t.member? := by
  funext className name
  simp only [member?, classScope?, hc]
  cases hi : t.classes[className]?
  case none => rfl
  case some i => exact inScope?_congr (h className i hi) name

theorem isClass_congr {t t' : SymbolTable} (hc : t'.classes = t.classes) :
    t'.isClass = t.isClass := by
  funext name
  simp [isClass, hc]

end SymbolTable

-- A qualified name can be taken apart at its first point.
theorem toList_fullName (className name : String) :
    (fullName (some className) name).toList = className.toList ++ '.' :: name.toList := by
  simp [fullName]

theorem takeWhile_fullName {className : String} (hc : '.' ∉ className.toList) (name : String) :
    (fullName (some className) name).toList.takeWhile (· ≠ '.') = className.toList := by
  rw [toList_fullName, takeWhile_append_of_pos]
  · simp
  · intro c hmem
    simpa using fun e : c = '.' => hc (e ▸ hmem)

theorem dropWhile_fullName {className : String} (hc : '.' ∉ className.toList) (name : String) :
    (fullName (some className) name).toList.dropWhile (· ≠ '.') = '.' :: name.toList := by
  rw [toList_fullName, dropWhile_append_of_pos]
  · simp
  · intro c hmem
    simpa using fun e : c = '.' => hc (e ▸ hmem)

theorem dropWhile_eq_nil_of_notMem {name : String} (hn : '.' ∉ name.toList) :
    name.toList.dropWhile (· ≠ '.') = [] := by
  rw [dropWhile_eq_nil_iff]
  intro c hmem
  simpa using fun e : c = '.' => hn (e ▸ hmem)

namespace SymbolTable

theorem qualified?_member {className : String} (t : SymbolTable) (hc : '.' ∉ className.toList)
    (name : String) : t.qualified? (fullName (some className) name) = t.member? className name := by
  rw [qualified?]
  simp only [dropWhile_fullName hc, takeWhile_fullName hc, String.ofList_toList]

theorem qualified?_global {name : String} (t : SymbolTable) (hn : '.' ∉ name.toList) :
    t.qualified? name = t.inScope? global name := by
  rw [qualified?]
  simp only [dropWhile_eq_nil_of_notMem hn]

end SymbolTable

theorem fullName_inj {name name' : String} (hn : '.' ∉ name.toList) (hn' : '.' ∉ name'.toList)
    (hc : ∀ c ∈ className, '.' ∉ c.toList) (hc' : ∀ c ∈ className', '.' ∉ c.toList)
    (h : fullName className name = fullName className' name') :
    className = className' ∧ name = name' := by
  have hdrop := congrArg (fun s : String => s.toList.dropWhile (· ≠ '.')) h
  have htake := congrArg (fun s : String => s.toList.takeWhile (· ≠ '.')) h
  cases className <;> cases className'
  case none.none => exact ⟨rfl, h⟩
  case none.some c =>
    have hn := dropWhile_eq_nil_of_notMem hn
    simp only [dropWhile_fullName (hc' c rfl)] at hdrop
    exact absurd (hn.symm.trans hdrop) (cons_ne_nil _ _).symm
  case some.none c =>
    have hn := dropWhile_eq_nil_of_notMem hn'
    simp only [dropWhile_fullName (hc c rfl)] at hdrop
    exact absurd (hdrop.trans hn) (cons_ne_nil _ _)
  case some.some c c' =>
    simp only [dropWhile_fullName (hc c rfl), dropWhile_fullName (hc' c' rfl), List.cons.injEq,
      true_and, String.toList_inj] at hdrop
    simp only [takeWhile_fullName (hc c rfl), takeWhile_fullName (hc' c' rfl),
      String.toList_inj] at htake
    exact ⟨congrArg some htake, hdrop⟩

end Lumen
