import Lumen.Proofs.Checked.Accepted
import Lumen.Proofs.Typing.Provenance

namespace Lumen

open Typing SymbolTable Analysis

def Symbol.untyped (s : Symbol) : Symbol :=
  { s with type := .error }

namespace SymbolTable

-- What the whole program can name is the same in two tables, apart from the types of globals.
structure Retyped (t t' : SymbolTable) : Prop where
  global  : ∀ name, (t'.inScope? global name).map Symbol.untyped =
    (t.inScope? global name).map Symbol.untyped
  member? : t'.member? = t.member?
  classes : t'.classes = t.classes

theorem Headed.routine_ne {t : SymbolTable} {name : String} {i : Nat} (h : t.Headed)
    (hi : t.routines[name]? = some i) (hj : t.header? j = some (kind, owner))
    (hk : kind ≠ .method) :
    j ≠ i := by
  rintro rfl
  cases (h.routines name j hi).symm.trans hj
  exact hk rfl

end SymbolTable

namespace Typing

theorem Analysis.table_reportIf {a : Analysis} (wrong : Bool) (cause : Cause) (loc : Location) :
    (a.reportIf wrong cause loc).table = a.table := by
  rw [reportIf]
  split <;> rfl

section Global

variable {place : Place} (hp : place.home ≠ global)

theorem global_checkGlobal (a : Analysis) (name : String) (type : Option TypeName)
    (init : Option Expr) (loc : Location) (n : String) :
    ((checkGlobal place a name type init loc).table.inScope? global n).map
      Symbol.untyped = (a.table.inScope? global n).map Symbol.untyped := by
  simp only [checkGlobal]
  split
  case h_1 => rfl
  case h_2 symbol _ =>
    split
    case isTrue => cases init <;> rfl
    case isFalse =>
      cases init
      case none => rw [table_reportIf]
      case some init =>
        cases type
        case some type =>
          simp only [checkStored, table_reportIf]
          rfl
        case none =>
          have htable (a : Analysis) (value : Ty) :
              (a.variableType name value loc).2.table = a.table := by
            cases value <;> rfl
          rw [inScope?_retype, htable]
          split
          · rw [Option.map_map]
            rfl
          · rfl

include hp in
theorem global_checkItem (a : Analysis) (item : Stmt) (n : String) :
    ((checkItem place a item).table.inScope? global n).map Symbol.untyped =
      (a.table.inScope? global n).map Symbol.untyped := by
  cases item
  case classDef | routine => rfl
  case «variable» loc name type init => exact global_checkGlobal a name type init loc n
  case constant loc name type value =>
    exact global_checkGlobal a name (some type) (some value) loc n
  all_goals exact congrArg (Option.map Symbol.untyped) (inScope?_congr
    ((checkStmt_advances place false a _).scopes global hp.symm) n)

include hp in
theorem global_checkMain (items : Items) (a : Analysis) (n : String) :
    ((items.foldl (checkItem place) a).table.inScope? global n).map Symbol.untyped =
      (a.table.inScope? global n).map Symbol.untyped := by
  induction items generalizing a
  case nil => rfl
  case cons item items ih => exact (ih _).trans (global_checkItem hp a item n)

end Global

theorem checkDefinitions_advances (b : Analysis) (items : Items) :
    b.Advances (fun i => ∃ name : String, b.table.routines[name]? = some i)
      (items.flatMap Stmt.classIds ++ items.flatMap Stmt.routineIds)
      (items.flatMap (·.checkedMethodExits b.table) ++ items.flatMap (·.checkedExits b.table none))
      (items.foldl (checkRoutine none [global]) (items.foldl checkClass b)) := by
  have hclasses : b.Advances (fun i => ∃ name : String, b.table.routines[name]? = some i)
      (items.flatMap Stmt.classIds) (items.flatMap (·.checkedMethodExits b.table))
      (items.foldl checkClass b) :=
    checkClasses_advances b items fun _ _ name _ i hi => ⟨name, hi⟩
  rw [← Stmt.checkedExits_congr hclasses.routines]
  refine hclasses.trans (checkRoutines_advances none _ _ items fun _ _ name _ i hi => ?_)
  exact ⟨name, hclasses.routines ▸ hi⟩

variable {items : Items}

theorem routines_checkItems (items : Items) :
    (checkItems items).table.routines =
      (mainStart (declareItems items)).table.routines :=
  (checkDefinitions_advances _ items).routines.trans (checkItems_advances _ _ items).routines

theorem retyped_checkItems (items : Items) :
    (declareItems items).table.Retyped (checkItems items).table := by
  have hheaded := (collected_declareItems items).headed
  have hstart : (mainStart (declareItems items)).table.Headed := hheaded.newScope _ _ _
  have hmain := checkItems_advances (mainPlace (declareItems items))
    (mainStart (declareItems items)) items
  have hlater := checkDefinitions_advances (checkMain items (declareItems items)) items
  have hlt := lt_of_header? hheaded.global
  have hhome : (mainPlace (declareItems items)).home ≠ global :=
    Nat.ne_of_gt hlt
  -- Past the statements at top level, only the scopes of routines change.
  have hkept {i : Nat} {kind : Scope.Kind} {owner : String}
      (hi : (declareItems items).table.header? i = some (kind, owner))
      (hk : kind ≠ .method) : (checkItems items).table.scopes[i]? =
        (checkMain items (declareItems items)).table.scopes[i]? := by
    refine hlater.scopes i ?_
    rintro ⟨name, hname⟩
    have hroutines := hmain.routines.symm ▸ hname
    exact hstart.routine_ne hroutines ((Lasts.newScope _ _ _ _).headers _ _ hi) hk rfl
  refine ⟨fun name => ?_, ?_, hlater.classes.trans hmain.classes⟩
  · rw [inScope?_congr (hkept hheaded.global (by simp))]
    refine (global_checkMain hhome items (mainStart (declareItems items)) name).trans ?_
    rw [inScope?_congr (scopes_mainStart hlt)]
  · refine member?_congr (hlater.classes.trans hmain.classes) fun name i hi => ?_
    have hheader := hheaded.classes name i hi
    have hlt := lt_of_header? hheader
    rw [hkept hheader (by simp)]
    refine (hmain.scopes i ?_).trans (scopes_mainStart hlt)
    rintro (rfl | rfl)
    · cases hheaded.global.symm.trans hheader
    · exact Nat.lt_irrefl _ hlt

end Typing
end Lumen
