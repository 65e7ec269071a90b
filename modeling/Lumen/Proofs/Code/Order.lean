import Lumen.Proofs.Checked.Order
import Lumen.Proofs.Code.Globals

namespace Lumen

open Typing List Option SymbolTable

structure Checked.Alike (c c' : Checked) : Prop where
  types   : ∀ id : Nat, c.types[id]? = c'.types[id]?
  global  : c.symbols.inScope? global = c'.symbols.inScope? global
  member? : c.symbols.member? = c'.symbols.member?
  isClass : c.symbols.isClass = c'.symbols.isClass

namespace Checked.Alike

variable {c c' : Checked}

theorem typeAt (h : c.Alike c') : c.typeAt = c'.typeAt :=
  funext fun id => congrArg (·.getD .error) (h.types id)

theorem typeOf (h : c.Alike c') : c.typeOf = c'.typeOf := by
  funext e
  rw [Checked.typeOf, Checked.typeOf, h.typeAt]

theorem qualified? (h : c.Alike c') : c.symbols.qualified? = c'.symbols.qualified? := by
  funext name
  simp only [SymbolTable.qualified?, h.global, h.member?]

mutual

theorem isFaulty (h : c.Alike c') (e : Expr) : c.isFaulty e = c'.isFaulty e := by
  cases e <;> simp only [Checked.isFaulty, h.typeAt]
  case binary m op left right => rw [isFaulty h left, isFaulty h right]
  case unary m op operand => rw [isFaulty h operand]
  case call m name args => rw [anyFaulty h args]
  case invoke m object name args => rw [isFaulty h object, anyFaulty h args]
  case member m object name => rw [isFaulty h object]
  case create m type args => rw [anyFaulty h args]

theorem anyFaulty (h : c.Alike c') (es : List Expr) : c.anyFaulty es = c'.anyFaulty es := by
  cases es
  case nil => rfl
  case cons e es => rw [Checked.anyFaulty, Checked.anyFaulty, isFaulty h e, anyFaulty h es]

end

theorem isUnknown (h : c.Alike c') (type : TypeName) : c.isUnknown type = c'.isUnknown type := by
  cases type <;> simp only [Checked.isUnknown, h.isClass]

mutual

theorem isFaultyStmt (h : c.Alike c') (s : Stmt) : c.isFaultyStmt s = c'.isFaultyStmt s := by
  cases s <;> simp only [Checked.isFaultyStmt, funext h.isUnknown, funext h.isFaulty]
  case forLoop loc init condition update body => rw [isFaultyStep h init, isFaultyStep h update]

theorem isFaultyStep (h : c.Alike c') (s : Option Stmt) : c.isFaultyStep s = c'.isFaultyStep s := by
  cases s
  case none => rfl
  case some s => exact isFaultyStmt h s

end

end Checked.Alike

namespace Code

def Site.within (site : Site) (c : Checked) : Site :=
  { site with program := c }

namespace Site

variable {site : Site} {c : Checked}

section

variable (h : site.program.Alike c)

include h

theorem memberHere?_within (name : String) :
    site.memberHere? name = (site.within c).memberHere? name := by
  rw [memberHere?, memberHere?, symbols, h.member?]
  rfl

theorem storage_within (slots : Slots) (name : String) :
    site.storage slots name = (site.within c).storage slots name := by
  rw [storage, storage, memberHere?_within h]
  rfl

theorem target_within (name : String) :
    site.target name = (site.within c).target name := by
  rw [target, target, memberHere?_within h]
  rfl

theorem isClassName_within (slots : Slots) (e : Expr) :
    site.isClassName slots e = (site.within c).isClassName slots e := by
  cases e <;> try rfl
  rw [isClassName, isClassName, storage_within h, symbols, h.qualified?]
  rfl

theorem isStatic_within (className name : String) :
    site.isStatic className name = (site.within c).isStatic className name := by
  rw [isStatic, isStatic, symbols, h.member?]
  rfl

end

mutual

theorem value_within (h : site.program.Alike c) (slots : Slots) (e : Expr) :
    site.value slots e = (site.within c).value slots e := by
  cases e <;> simp only [value, h.typeAt, h.typeOf, storage_within h, target_within h,
    isClassName_within h, isStatic_within h]
  case literal => rfl
  case «variable» => rfl
  case receiver => rfl
  case binary m op left right => rw [value_within h slots left, value_within h slots right]; rfl
  case unary m op operand => rw [value_within h slots operand]; rfl
  case call m name args => rw [values_within h slots args]; rfl
  case invoke m object name args =>
    rw [value_within h slots object, values_within h slots args]
    rfl
  case member m object name => rw [value_within h slots object]; rfl
  case create m type args => rw [values_within h slots args]; rfl

theorem values_within (h : site.program.Alike c) (slots : Slots) (es : List Expr) :
    site.values slots es = (site.within c).values slots es := by
  cases es
  case nil => rfl
  case cons e es => rw [values, values, value_within h slots e, values_within h slots es]

end

section

variable (h : site.program.Alike c)

include h

theorem declaration_within (f : Frame) (name : String) (type : Ty)
    (init : Option Expr) (loc : Location) :
    site.declaration f name type init loc = (site.within c).declaration f name type init loc := by
  cases init
  case none => rfl
  case some init =>
    simp only [declaration, value_within h]
    rfl

theorem storeField_within (slots : Slots) (className name : String)
    (type : Ty) (op : Option BinaryOp) (value : Expr) (loc : Location) :
    site.storeField slots className name type op value loc =
      (site.within c).storeField slots className name type op value loc := by
  cases op <;> simp only [storeField, value_within h]

theorem assign_within (slots : Slots) (target : Expr)
    (op : Option BinaryOp) (value : Expr) (loc : Location) :
    site.assign slots target op value loc =
      (site.within c).assign slots target op value loc := by
  cases target <;> try rfl
  case «variable» =>
    simp only [assign, storage_within h, h.typeOf, value_within h, storeField_within h]
    rfl
  case member =>
    simp only [assign, h.typeOf, value_within h, storeField_within h]
    rfl

theorem result_within (slots : Slots) (value : Option Expr)
    (loc : Location) :
    site.result slots value loc = (site.within c).result slots value loc := by
  cases value
  case none => rfl
  case some value =>
    simp only [result, h.typeOf, value_within h]
    rfl

theorem evaluate_within (slots : Slots) (e : Expr) (loc : Location) :
    site.evaluate slots e loc = (site.within c).evaluate slots e loc := by
  simp only [evaluate, h.typeOf, value_within h]
  rfl

theorem variableType_within (type : Option TypeName)
    (init : Option Expr) :
    site.variableType type init = (site.within c).variableType type init := by
  cases type <;> cases init <;> first | rfl | (simp only [variableType, h.typeOf]; rfl)

end

mutual

theorem stmt_within (h : site.program.Alike c) (loop : Option Loop) (f : Frame) (s : Stmt) :
    site.stmt loop f s = (site.within c).stmt loop f s := by
  cases s <;> simp only [stmt]
  case «variable» loc name type init => rw [variableType_within h, declaration_within h]
  case constant loc name type value => rw [declaration_within h]
  case block loc body => rw [stmts_within h]
  case assign loc target op value => rw [assign_within h]
  case result loc value => rw [result_within h]
  case branch loc condition thenBody elseBody =>
    rw [value_within h, stmts_within h, otherwise_within h]
  case whileLoop loc condition body => rw [value_within h, stmts_within h]
  case forLoop loc init condition update body =>
    rw [step_within h loop f.enter init]
    cases condition
    case none => simp only [stmts_within h, step_within h]
    case some condition => simp only [stmts_within h, step_within h, value_within h]
  case evaluate loc e => rw [evaluate_within h]

theorem stmts_within (h : site.program.Alike c) (loop : Option Loop) (f : Frame)
    (done : List Instruction) (body : List Stmt) :
    site.stmts loop f done body = (site.within c).stmts loop f done body := by
  cases body
  case nil => rfl
  case cons s rest =>
    have hfaulty : site.program.isFaultyStmt s = (site.within c).program.isFaultyStmt s :=
      h.isFaultyStmt s
    simp only [stmts, hfaulty, stmt_within h loop f s, stmts_within h loop _ _ rest]

theorem otherwise_within (h : site.program.Alike c) (loop : Option Loop) (f : Frame)
    (orElse : Nat) (loc : Location) (body : Option (List Stmt)) :
    site.otherwise loop f orElse loc body = (site.within c).otherwise loop f orElse loc body := by
  cases body
  case none => rfl
  case some body => simp only [otherwise, stmts_within h loop _ _ body]

theorem step_within (h : site.program.Alike c) (loop : Option Loop) (f : Frame)
    (s : Option Stmt) : site.step loop f s = (site.within c).step loop f s := by
  cases s
  case none => rfl
  case some s => exact stmt_within h loop f s

end

end Site

section Routines

variable {c c' : Checked}

theorem fieldCode_within {site : Site} (h : site.program.Alike c) (slots : Slots)
    (className : String) (f : Field Expr) :
    fieldCode site slots className f = fieldCode (site.within c) slots className f := by
  obtain ⟨name, type, init, isConst, loc⟩ := f
  cases init
  case none => rfl
  case some init =>
    simp only [fieldCode, Site.symbols, h.isFaulty, h.member?, Site.value_within h]
    rfl

theorem constructorCode_alike (h : c.Alike c') (className : String) (fields : List (Field Expr))
    (loc : Location) :
    constructorCode c className fields loc = constructorCode c' className fields loc := by
  have hsite : (constructorSite c className).program.Alike c' := h
  simp only [constructorCode_eq, funext (fieldCode_within hsite _ className)]
  rfl

theorem routineCode?_alike (h : c.Alike c') (className : Option String) (item : Stmt) :
    routineCode? c className item = routineCode? c' className item := by
  cases item <;> try rfl
  case routine loc name params returns isStatic body =>
    have hstmts (kind : Routine.Kind) (type : Ty) (f : Frame) :
        Site.stmts ⟨c, kind, className, type⟩ none f [] body =
          Site.stmts ⟨c', kind, className, type⟩ none f [] body :=
      Site.stmts_within h none f [] body
    simp only [routineCode?, h.qualified?, hstmts]

theorem classCode_alike (h : c.Alike c') (item : Stmt) : classCode c item = classCode c' item := by
  cases item <;> try rfl
  case classDef loc name fields methods =>
    simp only [classCode, h.qualified?, constructorCode_alike h, funext (routineCode?_alike h _)]

theorem foldl_globalStep_filter (c : Checked) (f : Frame) (items : Items) :
    items.foldl (globalStep c) f = (items.filter Stmt.isStatement).foldl (globalStep c) f := by
  have hstep : (fun f item => if item.isStatement then globalStep c f item else f) =
      globalStep c := by
    funext f item
    cases item <;> rfl
  rw [foldl_filter, hstep]

theorem mainCode_alike (h : c.Alike c')
    (hs : c.items.filter Stmt.isStatement = c'.items.filter Stmt.isStatement) :
    mainCode c = mainCode c' := by
  have hstep : globalStep c = globalStep c' := by
    funext f item
    simp only [globalStep, h.qualified?]
  have hframe : mainFrame c = mainFrame c' := by
    rw [mainFrame_eq_foldl, mainFrame_eq_foldl, foldl_globalStep_filter, hs, hstep,
      ← foldl_globalStep_filter]
  have hsite : (mainSite c).program.Alike c' := h
  rw [mainCode_eq, mainCode_eq, hframe, hs, Site.stmts_within hsite]
  rfl

theorem routineName?_of_code (h : routineCode? c className item = some r) :
    item.routineName? className = some r.name := by
  cases item <;> try cases h
  case routine loc name params returns isStatic body =>
    simp only [routineCode?, bind_eq_bind, bind_eq_some_iff] at h
    obtain ⟨symbol, -, h⟩ := h
    split at h
    case isTrue => cases h
    case isFalse =>
      obtain ⟨signature, -, h⟩ := bind_eq_some_iff.mp h
      cases h
      rfl

-- At most one member of a list gives something, so the order of the members does not matter.
theorem flatMap_perm {α β : Type} {f : α → List β} {xs ys : List α} (hp : xs.Perm ys)
    (h : xs.Pairwise fun x y => f x = [] ∨ f y = []) : xs.flatMap f = ys.flatMap f := by
  induction hp
  case nil => rfl
  case cons x xs ys hp ih => rw [flatMap_cons, flatMap_cons, ih h.tail]
  case swap x y xs =>
    rw [flatMap_cons, flatMap_cons, flatMap_cons, flatMap_cons]
    rcases (pairwise_cons.mp h).1 x (.head xs) with hnil | hnil <;> simp [hnil]
  case trans xs ys zs hp hp' ih ih' =>
    exact (ih h).trans (ih' ((hp.pairwise_iff Or.symm).mp h))

theorem filter_flatMap_perm {items items' : Items} {code : Stmt → List Routine}
    (hn : (items.filterMap Stmt.itemName?).Nodup) (hp : items.Perm items')
    (hcode : ∀ item ∈ items, ∀ r ∈ code item,
      ∃ name, item.itemName? = some name ∧ (Key.routineScope r.name).item? = some name)
    (name : String) :
    (items.flatMap code).filter (·.name = name) = (items'.flatMap code).filter (·.name = name) := by
  rw [filter_flatMap, filter_flatMap]
  refine flatMap_perm hp ((pairwise_filterMap.mp hn).imp_of_mem fun {x y} hx hy hxy => ?_)
  by_contra hboth
  rw [not_or] at hboth
  obtain ⟨r, hr⟩ := exists_mem_of_ne_nil _ hboth.1
  obtain ⟨r', hr'⟩ := exists_mem_of_ne_nil _ hboth.2
  rw [mem_filter, decide_eq_true_eq] at hr hr'
  obtain ⟨n, hname, hitem⟩ := hcode x hx r hr.1
  obtain ⟨n', hname', hitem'⟩ := hcode y hy r' hr'.1
  rw [hr.2] at hitem
  rw [hr'.2] at hitem'
  cases hitem.symm.trans hitem'
  exact hxy n hname n hname' rfl

theorem item?_routineCode {item : Stmt} (hf : item.FormedItem Token.IsName)
    (h : r ∈ (routineCode? c none item).toList) :
    ∃ name, item.itemName? = some name ∧ (Key.routineScope r.name).item? = some name :=
  Stmt.item?_routineName? hf (routineName?_of_code (mem_toList.mp h))

theorem item?_classCode {item : Stmt} (hf : item.FormedItem Token.IsName)
    (h : r ∈ classCode c item) :
    ∃ name, item.itemName? = some name ∧ (Key.routineScope r.name).item? = some name := by
  cases item <;> try cases h
  case classDef loc name fields methods =>
    rw [classCode] at h
    split at h
    case isFalse => cases h
    case isTrue =>
      rcases mem_cons.mp h with rfl | h
      · exact ⟨name, rfl, Key.item?_member hf.1 _⟩
      · obtain ⟨m, hm, hcode⟩ := mem_filterMap.mp h
        exact Stmt.item?_methodNames hf (mem_filterMap.mpr ⟨m, hm, routineName?_of_code hcode⟩)

theorem routines_alike {c : Checked} (h : c.Alike c')
    (hf : ∀ item ∈ c.items, item.FormedItem Token.IsName)
    (hn : (c.items.filterMap Stmt.itemName?).Nodup) (hp : c.items.Perm c'.items)
    (hs : c.items.filter Stmt.isStatement = c'.items.filter Stmt.isStatement) (name : String) :
    (routines c).filter (·.name = name) = (routines c').filter (·.name = name) := by
  simp only [routines, ← mainCode_alike h hs, ← funext (classCode_alike h),
    ← funext (routineCode?_alike h none), filterMap_eq_flatMap_toList, filter_append,
    cons_append, filter_cons,
    filter_flatMap_perm hn hp (fun item hitem _ => item?_classCode (hf item hitem)) name,
    filter_flatMap_perm hn hp (fun item hitem _ => item?_routineCode (hf item hitem)) name]

end Routines

end Code

open Analysis

theorem Typing.Analysis.Same.alike (h : Same (checkItems items) (checkItems items')) :
    (Checked.ofItems items).Alike (Checked.ofItems items') where
  types := fun id => h.look (.type id)
  global := funext fun name => h.look (.symbol name)
  member? := funext fun _ => funext fun name =>
    (h.twins (Q := fun _ => True)).member?_eq trivial name
  isClass := funext fun name => h.look (.isClass name)

theorem Typing.Analysis.Same.diagnostics (h : Same (checkItems items) (checkItems items')) :
    (Checked.ofItems items).diagnostics.Perm (Checked.ofItems items').diagnostics := by
  refine (Diagnostic.sorted_perm _).trans (List.Perm.trans ?_ (Diagnostic.sorted_perm _).symm)
  exact (((reverse_perm _).trans h.problems).trans (reverse_perm _).symm).map _

-- What does not hang on the order of definitions. Each routine has the same code and slots.
structure Checked.Equivalent (c c' : Checked) : Prop where
  diagnostics : c.diagnostics.Perm c'.diagnostics
  types       : ∀ id : Nat, c.types[id]? = c'.types[id]?
  routines    : ∀ name, (Code.routines c).filter (·.name = name) =
    (Code.routines c').filter (·.name = name)

-- Definitions can stand in any order, if each name at top level is declared once.
theorem Checked.reordered {source : String} {items items' : Items}
    (hi : items = (Parsed.ofSource source).items) (hp : items.Perm items')
    (hs : items.filter Stmt.isStatement = items'.filter Stmt.isStatement)
    (hn : (items.filterMap Stmt.itemName?).Nodup)
    (hb : ∀ name ∈ items.filterMap Stmt.itemName?, name ∉ builtIns) :
    (ofItems items).Equivalent (ofItems items') := by
  have hf : ∀ item ∈ items, item.FormedItem Token.IsName :=
    hi ▸ Parsed.ofTokens_formed _ (Lexed.ofSource_isName source)
  have hsame := checkItems_same hf (hi ▸ Parsed.ofTokens_nodup _) hn hb hp hs
  exact ⟨hsame.diagnostics, hsame.alike.types, Code.routines_alike hsame.alike hf hn hp hs⟩

-- Here each definition comes to stand behind what it uses.
theorem Checked.reordered_behind_uses : ∃ items items' : Items,
    items = (Parsed.ofSource ("class A \x7b B b = f(); int n() \x7b return q; \x7d \x7d " ++
      "B f() \x7b return new B(); \x7d class B \x7b \x7d var k = f();")).items ∧
      items.filterMap Stmt.itemName? = ["A", "f", "B", "k"] ∧
      items'.filterMap Stmt.itemName? = ["k", "B", "f", "A"] ∧
      (ofItems items).diagnostics.length = 1 ∧ (ofItems items).Equivalent (ofItems items') := by
  have hall : [(Parsed.ofSource ("class A \x7b B b = f(); int n() \x7b return q; \x7d \x7d " ++
      "B f() \x7b return new B(); \x7d class B \x7b \x7d var k = f();")).items].all
      fun items => items.filterMap Stmt.itemName? = ["A", "f", "B", "k"] ∧
        (items.drop 3 ++ (items.take 3).reverse).filterMap Stmt.itemName? = ["k", "B", "f", "A"] ∧
        (ofItems items).diagnostics.length = 1 ∧
        ((items.take 3).filter Stmt.isStatement).isEmpty := by
    decide +kernel
  rw [all_cons, Bool.and_eq_true, decide_eq_true_eq] at hall
  obtain ⟨⟨hnames, hnames', hlength, hdefinitions⟩, -⟩ := hall
  refine ⟨_, _, rfl, hnames, hnames', hlength, reordered rfl ?_ ?_ ?_ ?_⟩
  · nth_rewrite 1 [← take_append_drop 3 (Parsed.ofSource _).items]
    exact perm_append_comm.trans ((reverse_perm _).symm.append_left _)
  · have hnone := isEmpty_iff.mp hdefinitions
    nth_rewrite 1 [← take_append_drop 3 (Parsed.ofSource _).items]
    rw [filter_append, filter_append, filter_reverse, hnone]
    simp
  · rw [hnames]
    decide
  · rw [hnames]
    decide

end Lumen
