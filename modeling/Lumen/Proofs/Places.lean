import Lumen.Proofs.Exits
import Mathlib.Data.List.Flatten
import Mathlib.Data.List.Nodup

namespace Lumen

open List

mutual

def Expr.places : Expr → List Location
  | .literal m _ | .variable m _ | .receiver m => [m.loc]
  | .binary m _ left right => left.places ++ m.loc :: right.places
  | .unary m _ operand => m.loc :: operand.places
  | .call m _ args => m.loc :: placesOf args
  | .invoke m object _ args => object.places ++ m.loc :: placesOf args
  | .member m object _ => object.places ++ [m.loc]
  | .create m _ args => m.loc :: placesOf args
  | .stray _ => []

def placesOf : List Expr → List Location
  | [] => []
  | e :: es => e.places ++ placesOf es

end

def placesOfOption : Option Expr → List Location
  | none => []
  | some e => e.places

def placesOfField (f : Field Expr) : List Location :=
  f.loc :: placesOfOption f.init

def Expr.start : Expr → Location
  | .binary _ _ left _ => left.start
  | .invoke _ object _ _ => object.start
  | .member _ object _ => object.start
  | e => e.loc

mutual

-- The places of a statement. An assignment stands where its target starts, or at a parenthesis in
-- front of it.
def Stmt.places : Stmt → List Location
  | .classDef loc _ fields methods => loc :: fields.flatMap placesOfField ++ placesIn methods
  | .routine loc _ params _ _ body => loc :: params.map (·.loc) ++ placesIn body
  | .variable loc _ _ init => loc :: placesOfOption init
  | .constant loc _ _ value => loc :: value.places
  | .block _ body => placesIn body
  | .assign loc target _ value =>
    (if target.start = loc then [] else [loc]) ++ target.places ++ value.places
  | .result loc value => loc :: placesOfOption value
  | .branch _ condition thenBody elseBody =>
    condition.places ++ placesIn thenBody ++ placesInElse elseBody
  | .whileLoop _ condition body => condition.places ++ placesIn body
  | .forLoop _ init condition update body =>
    placesInStep init ++ placesOfOption condition ++ placesInStep update ++ placesIn body
  | .breakLoop loc | .continueLoop loc => [loc]
  | .evaluate _ e => e.places
  | .bare e => e.places

def placesIn : List Stmt → List Location
  | [] => []
  | s :: rest => s.places ++ placesIn rest

def placesInElse : Option (List Stmt) → List Location
  | none => []
  | some body => placesIn body

def placesInStep : Option Stmt → List Location
  | none => []
  | some s => s.places

end

theorem placesOf_append (a b : List Expr) : placesOf (a ++ b) = placesOf a ++ placesOf b := by
  induction a
  case nil => rfl
  case cons e a ih => simp [placesOf, ih]

theorem placesIn_eq_flatMap (body : List Stmt) : placesIn body = body.flatMap Stmt.places := by
  induction body
  case nil => rfl
  case cons s body ih => rw [placesIn, ih, flatMap_cons]

theorem placesIn_append (a b : List Stmt) : placesIn (a ++ b) = placesIn a ++ placesIn b := by
  rw [placesIn_eq_flatMap, placesIn_eq_flatMap, placesIn_eq_flatMap, flatMap_append]

theorem eq_of_nodup_flatMap {α β : Type} {f : α → List β} {xs : List α}
    (h : (xs.flatMap f).Nodup) {x y : α} (hx : x ∈ xs) (hy : y ∈ xs) {b : β} (hb : b ∈ f x)
    (hb' : b ∈ f y) : x = y := by
  induction xs
  case nil => cases hx
  case cons a xs ih =>
    rw [flatMap_cons, nodup_append'] at h
    obtain ⟨-, hrest, hapart⟩ := h
    rw [mem_cons] at hx hy
    rcases hx with rfl | hx <;> rcases hy with rfl | hy
    · rfl
    · exact (hapart hb (mem_flatMap.mpr ⟨y, hy, hb'⟩)).elim
    · exact (hapart hb' (mem_flatMap.mpr ⟨x, hx, hb⟩)).elim
    · exact ih hrest hx hy

-- What is declared stands at places of its own, and so does every exit, in a loop or not.
structure Spaced (declared : List Declaration) (exits : Bool → List Exit)
    (places : List Location) : Prop where
  declared : (declared.map (·.loc)).Sublist places
  exits    : ∀ inLoop, ((exits inLoop).map (·.loc)).Sublist places

namespace Spaced

variable {ds ds' : List Declaration} {es es' : Bool → List Exit} {ls ls' : List Location}

theorem nil : Spaced [] (fun _ => []) ls :=
  ⟨nil_sublist _, fun _ => nil_sublist _⟩

theorem append (h : Spaced ds es ls) (h' : Spaced ds' es' ls') :
    Spaced (ds ++ ds') (fun inLoop => es inLoop ++ es' inLoop) (ls ++ ls') := by
  refine ⟨?_, fun inLoop => ?_⟩ <;> rw [map_append]
  · exact h.declared.append h'.declared
  · exact (h.exits inLoop).append (h'.exits inLoop)

theorem mono (h : Spaced ds es ls) (hl : ls.Sublist ls') : Spaced ds es ls' :=
  ⟨h.declared.trans hl, fun inLoop => (h.exits inLoop).trans hl⟩

theorem loop (h : Spaced ds es ls) : Spaced ds (fun _ => es true) ls :=
  ⟨h.declared, fun _ => h.exits true⟩

end Spaced

mutual

theorem Stmt.spaced (s : Stmt) : Spaced s.declarations (s.exits ·) s.places := by
  cases s
  case classDef loc name fields methods =>
    exact ⟨.cons _ ((spacedIn methods).declared.trans (sublist_append_right _ _)),
      fun _ => nil_sublist _⟩
  case routine loc name params returns isStatic body =>
    refine ⟨.cons _ ?_, fun _ => nil_sublist _⟩
    rw [Stmt.declarations, map_append, map_map]
    exact .append (.refl _) (spacedIn body).declared
  case «variable» | constant => exact ⟨.cons_cons _ (nil_sublist _), fun _ => nil_sublist _⟩
  case block loc body => exact spacedIn body
  case assign | result | evaluate | bare => exact .nil
  case branch loc condition thenBody elseBody =>
    exact ((spacedIn thenBody).mono (sublist_append_right _ _)).append (spacedInElse elseBody)
  case whileLoop loc condition body =>
    exact ((spacedIn body).mono (sublist_append_right _ _)).loop
  case forLoop loc init condition update body =>
    exact (((spacedInStep init).mono (sublist_append_left _ _)).append
      (spacedInStep update)).append (spacedIn body).loop
  case breakLoop | continueLoop => exact ⟨nil_sublist _, fun _ => .refl _⟩

theorem spacedIn (body : List Stmt) :
    Spaced (declarationsIn body) (exitsIn · body) (placesIn body) := by
  cases body
  case nil => exact .nil
  case cons s rest => exact s.spaced.append (spacedIn rest)

theorem spacedInElse (body : Option (List Stmt)) :
    Spaced (declarationsInElse body) (exitsInElse · body) (placesInElse body) := by
  cases body
  case none => exact .nil
  case some body => exact spacedIn body

theorem spacedInStep (s : Option Stmt) :
    Spaced (declarationsInStep s) (exitsInStep · s) (placesInStep s) := by
  cases s
  case none => exact .nil
  case some s => exact s.spaced

end

theorem Stmt.routineExits_places (s : Stmt) : (s.routineExits.map (·.loc)).Sublist s.places := by
  cases s <;> try exact nil_sublist _
  case routine loc name params returns isStatic body =>
    exact .cons _ (((spacedIn body).exits false).trans (sublist_append_right _ _))

theorem Stmt.itemExits_places (s : Stmt) : (s.itemExits.map (·.loc)).Sublist s.places := by
  cases s <;> try exact (Stmt.spaced _).exits false
  case routine loc name params returns isStatic body =>
    exact (Stmt.routine loc name params returns isStatic body).routineExits_places
  case classDef loc name fields methods =>
    rw [Stmt.itemExits, Stmt.places, placesIn_eq_flatMap, map_flatMap]
    refine .cons _ (List.Sublist.trans ?_ (sublist_append_right _ _))
    exact .flatMap_right methods fun m _ => m.routineExits_places

end Lumen
