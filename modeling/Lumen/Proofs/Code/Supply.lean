import Lumen.Proofs.Code.Depth
import Lumen.Proofs.Code.Unit

namespace Lumen

open Typing List Option

inductive Use where
  -- Its value is taken.
  | needed (e : Expr)
  -- It is a statement of its own.
  | dropped (e : Expr)

section Uses

variable (c : Checked)

-- How many values are missing. A call without a result can stand as a statement.
def Use.missing : Use → Nat
  | needed e => c.voidCalls e
  | dropped e => if e.isCall ∧ c.typeOf e = .void then c.voidCalls e - 1 else c.voidCalls e

def Use.spare : Use → Nat
  | needed _ => 0
  | dropped e => if ¬e.isCall ∧ c.typeOf e = .void then 1 else 0

def supply? (left : Nat) : List Use → Option Nat
  | [] => some left
  | u :: rest =>
    if u.missing c ≤ left then supply? (left - u.missing c + u.spare c) rest else none

def Supplied (uses : List Use) : Prop :=
  (supply? c 0 uses).isSome

def usesOfOption : Option Expr → List Use
  | none => []
  | some e => [.needed e]

def Expr.targetUses : Expr → List Use
  | .member _ object _ => [.needed object]
  | _ => []

mutual

def Stmt.uses : Stmt → List Use
  | .variable _ _ _ init => usesOfOption init
  | .constant _ _ _ value => [.needed value]
  | .block _ body => usesIn body
  | .assign _ target _ value => target.targetUses ++ [.needed value]
  | .result _ value => usesOfOption value
  | .branch _ condition thenBody elseBody =>
    .needed condition :: usesIn thenBody ++ usesInElse elseBody
  | .whileLoop _ condition body => .needed condition :: usesIn body
  | .forLoop _ init condition update body =>
    usesInStep init ++ usesOfOption condition ++ usesIn body ++ usesInStep update
  | .evaluate _ e => [.dropped e]
  | .breakLoop _ | .continueLoop _ | .classDef .. | .routine .. | .bare _ => []

def usesIn : List Stmt → List Use
  | [] => []
  | s :: rest => (if c.isFaultyStmt s then [] else s.uses) ++ usesIn rest

def usesInElse : Option (List Stmt) → List Use
  | none => []
  | some body => usesIn body

def usesInStep : Option Stmt → List Use
  | none => []
  | some s => s.uses

end

def fieldUses (f : Field Expr) : List Use :=
  usesOfOption (f.init.filter (!c.isFaulty ·))

def Stmt.routineUses? : Stmt → Option (List Use)
  | .routine _ _ _ _ _ body => some (usesIn c body)
  | _ => none

def Stmt.classUses : Stmt → List (List Use)
  | .classDef _ _ fields methods =>
    fields.flatMap (fieldUses c) :: methods.filterMap (·.routineUses? c)
  | _ => []

def Checked.bodies : List (List Use) :=
  usesIn c c.items :: c.items.flatMap (·.classUses c) ++ c.items.filterMap (·.routineUses? c)

theorem supply?_append (left : Nat) (uses rest : List Use) :
    supply? c left (uses ++ rest) = (supply? c left uses).bind (supply? c · rest) := by
  induction uses generalizing left
  case nil => rfl
  case cons u uses ih =>
    simp only [cons_append, supply?]
    split
    · exact ih _
    · rfl

end Uses

namespace Code

variable {c : Checked}

-- Code finds enough values just where the expressions leave enough.
def Traces (c : Checked) (code : List Instruction) (uses : List Use) : Prop :=
  ∀ depth, depthAfter? depth code = supply? c depth uses

variable {i : Instruction} {e : Expr}

namespace Traces

variable {code rest : List Instruction} {uses more : List Use}

theorem nil : Traces c [] [] :=
  fun _ => rfl

theorem append (h : Traces c code uses) (h' : Traces c rest more) :
    Traces c (code ++ rest) (uses ++ more) := by
  intro depth
  rw [depthAfter?_append, supply?_append, h depth]
  exact congrArg _ (funext h')

theorem cons (hp : i.pops = 0) (hq : i.pushes = 0) (h : Traces c code uses) :
    Traces c (i :: code) uses := by
  intro depth
  rw [depthAfter?, hp, hq, if_neg (Nat.not_lt_zero _)]
  exact h depth

theorem single (hp : i.pops = 0) (hq : i.pushes = 0) : Traces c [i] [] :=
  nil.cons hp hq

theorem of_takes {u : Use} (h : Takes code (u.missing c) (u.spare c)) : Traces c code [u] :=
  h

theorem of_takes_both (h : Takes code (c.voidCalls e + c.voidCalls e') 0) :
    Traces c code [.needed e, .needed e'] := by
  intro depth
  rw [h depth]
  simp only [supply?, Use.missing, Use.spare]
  grind

end Traces

variable {item : Stmt}

namespace Site

variable {W : String → Prop} {g : Setting} {kind : Routine.Kind} {className : Option String}

variable {names : Names}

theorem typed_of_admits (hf : e.Formed W) (ha : g.Admits names e)
    (hn : g.program.isFaulty e = false) : e.Typed g.program (g.environment names) :=
  Checked.Keeps.typed e hf ha hn

variable {env : Environment} {site : Site}

theorem needed_traces (h : e.Typed site.program env) (hp : i.pops = 1) (hq : i.pushes = 0) :
    Traces site.program (site.value slots e ++ [i]) [.needed e] :=
  .of_takes ((value_gives slots e h).takes hp hq)

theorem declaration_traces (f : Frame) (name : String) (type : Ty) (loc : Location)
    (hf : FormedOption W init) (ha : ∀ e ∈ init, g.Admits names e)
    (hn : init.any g.program.isFaulty = false) :
    Traces g.program ((g.site kind className).declaration f name type init loc).1
      (usesOfOption init) := by
  cases init
  case none => exact .nil
  case some init => exact needed_traces (typed_of_admits hf (ha init rfl) hn) rfl rfl

theorem evaluate_traces (slots : Slots) (loc : Location) (h : e.Typed site.program env) :
    Traces site.program (site.evaluate slots e loc) [.dropped e] := by
  apply Traces.of_takes
  rw [evaluate]
  split
  case isTrue hv =>
    cases hc : e.isCall
    case true => simpa [Use.missing, Use.spare, hc, hv] using voidCall_takes slots h hc hv
    case false => simpa [Use.missing, Use.spare, hc, hv] using voidField_takes slots h hc hv
  case isFalse hv =>
    have htaken := (value_gives slots e h).taken (i := .plain .pop (site.program.typeOf e) loc)
      rfl rfl
    simpa [Use.missing, Use.spare, hv] using htaken

variable {value : Expr}

theorem storeField_takes (slots : Slots) (className name : String) (type : Ty)
    (op : Option BinaryOp) (loc : Location) (hc : Gives code 1 missing)
    (h : value.Typed site.program env) :
    Takes (code ++ site.storeField slots className name type op value loc)
      (missing + site.program.voidCalls value) 0 := by
  have hvalue := value_gives slots value h
  cases op
  case none =>
    rw [storeField, ← append_assoc]
    exact (hc.append hvalue).taken rfl rfl
  case some op =>
    -- The object is needed twice: for the old value of the field and for the new one.
    have hdup : Gives (code ++ [.plain .dup (.object className) loc]) 2 missing :=
      hc.then_single (i := .plain .dup (.object className) loc) (Nat.le_refl 1)
    have hold : Gives (code ++ [.plain .dup (.object className) loc] ++ [.withOperand .getField
        (.symbol (fullName (some className) name)) type loc]) 2 missing :=
      hdup.then_single (i := .withOperand .getField _ type loc) (show 1 ≤ 2 by omega)
    have hnew : Gives (code ++ [.plain .dup (.object className) loc] ++ [.withOperand .getField
        (.symbol (fullName (some className) name)) type loc] ++ site.value slots value ++
        [.plain (.ofBinary op) type loc]) 2 (missing + site.program.voidCalls value) := by
      cases op <;> exact (hold.append hvalue).then_single (show 2 ≤ 3 by omega)
    simpa [storeField] using hnew.taken (i := .withOperand .putField
      (.symbol (fullName (some className) name)) type loc) rfl rfl

theorem storeVariable_takes (slots : Slots) (name : String) (slot : Option Nat) (type : Ty)
    (op : Option BinaryOp) (loc : Location) (h : value.Typed site.program env) :
    Takes (match op with
      | none => site.value slots value ++ [.access .store name type slot loc]
      | some op => .access .load name type slot loc :: site.value slots value ++
          .plain (.ofBinary op) type loc :: [.access .store name type slot loc])
      (site.program.voidCalls value) 0 := by
  have hvalue := value_gives slots value h
  cases op
  case none => exact hvalue.taken rfl rfl
  case some op =>
    have hold : Gives [.access .load name type slot loc] 1 0 := (takes_single _).gives
    have hnew : Gives (.access .load name type slot loc :: site.value slots value ++
        [.plain (.ofBinary op) type loc]) 1 (0 + site.program.voidCalls value) := by
      cases op <;> exact (hold.append hvalue).then_single (Nat.le_refl 2)
    simpa using hnew.taken (i := .access .store name type slot loc) rfl rfl

theorem assign_traces {target : Expr} (slots : Slots)
    (hf : (Stmt.assign loc target op value).Formed W) (hv : g.Assigns names target op value)
    (hn : g.program.isFaultyStmt (.assign loc target op value) = false) :
    Traces g.program ((g.site kind className).assign slots target op value loc)
      (target.targetUses ++ [.needed value]) := by
  simp only [Checked.isFaultyStmt, Bool.or_eq_false_iff] at hn
  have htarget := typed_of_admits hf.2.2.1 hv.reads hn.1
  have hvalue : value.Typed (g.site kind className).program (g.environment names) :=
    typed_of_admits hf.2.2.2 hv.admits hn.2
  cases target
  case «variable» m name =>
    apply Traces.of_takes
    simp only [assign]
    split
    case h_1 owner _ =>
      have hreceiver := (g.site kind className).receiver_gives slots loc
      have htakes := storeField_takes slots owner name (g.program.typeOf (.variable m name)) op loc
        hreceiver hvalue
      rwa [Nat.zero_add] at htakes
    case h_2 slot _ => exact storeVariable_takes slots name (some slot) _ op loc hvalue
    case h_3 => exact storeVariable_takes slots name none _ op loc hvalue
  case member m object name =>
    obtain ⟨hobject, owner, symbol, htype, _⟩ := htarget
    have htype : (g.site kind className).program.typeOf object = .object owner := htype
    apply Traces.of_takes_both
    simp only [assign, htype]
    exact storeField_takes slots owner name _ op loc (value_gives slots object hobject) hvalue
  all_goals cases hf.1

theorem result_traces {value : Option Expr} (slots : Slots) (loc : Location)
    (hf : FormedOption W value) (hv : g.Results names value)
    (hn : value.any g.program.isFaulty = false) :
    Traces g.program ((g.site kind className).result slots value loc) (usesOfOption value) := by
  cases value
  case none => exact .single rfl rfl
  case some value =>
    -- A routine without results has no code for one.
    have hne : g.returns ≠ .void := fun hvoid => Checked.typeOf_ne_error hn (hv.2.1 hvoid)
    have htype : (g.site kind className).returns ≠ .void := hne
    simp only [result, if_neg htype]
    exact needed_traces (typed_of_admits hf hv.1 hn) (if_neg hne) rfl

variable (kind className) in
theorem condition_traces {condition : Expr} (slots : Slots) (label : Nat) (loc : Location)
    (hf : condition.Formed W) (hv : g.Decides names condition)
    (hn : g.program.isFaulty condition = false) :
    Traces g.program ((g.site kind className).value slots condition ++
      [.jump .jumpIfFalse label loc]) [.needed condition] :=
  needed_traces (typed_of_admits hf hv.admits hn) rfl rfl

variable (kind className) in
theorem header_traces (slots : Slots) (label : Nat) (loc : Location) (hf : FormedOption W condition)
    (hv : ∀ e ∈ condition, g.Decides names e) (hn : condition.any g.program.isFaulty = false) :
    Traces g.program ((g.site kind className).header slots label loc condition)
      (usesOfOption condition) := by
  cases condition
  case none => exact .nil
  case some condition =>
    exact condition_traces kind className slots label loc hf (hv condition rfl) hn

mutual

theorem stmt_traces (loop : Option Loop) (f : Frame) (names : Names) (inLoop : Bool) (s : Stmt)
    (hf : s.Formed W) (hv : s.Valid g names inLoop) (hn : g.program.isFaultyStmt s = false) :
    Traces g.program ((g.site kind className).stmt loop f s).1 (s.uses g.program) := by
  cases s
  case «variable» loc name type init =>
    simp only [Checked.isFaultyStmt, Bool.or_eq_false_iff] at hn
    exact declaration_traces f name _ loc hf.2.2.1 hv.admits hn.2
  case constant loc name type value =>
    simp only [Checked.isFaultyStmt, Bool.or_eq_false_iff] at hn
    have hf : FormedOption W (some value) := hf.2.2
    exact declaration_traces f name _ loc hf hv.admits hn.2
  case block loc body => exact stmts_traces loop f.enter names.enter inLoop body hf hv
  case assign loc target op value => exact assign_traces f.slots hf hv hn
  case result loc value => exact result_traces f.slots loc hf hv hn
  case branch loc condition thenBody elseBody =>
    have hcondition := condition_traces kind className f.slots f.labels loc hf.1 hv.1 hn
    have hthen := stmts_traces loop (f.label 1).enter names.enter inLoop thenBody hf.2.1 hv.2.1
    have helse (f' : Frame) := otherwise_traces loop f'
      (names.skip (declarationsIn thenBody).length) inLoop f.labels loc elseBody hf.2.2 hv.2.2
    simpa [stmt, Stmt.uses] using (hcondition.append hthen).append (helse _)
  case whileLoop loc condition body =>
    have hcondition := condition_traces kind className f.slots (f.labels + 1) loc hf.1 hv.1 hn
    have hbody := stmts_traces (some ⟨f.labels, f.labels + 1⟩) (f.label 2).enter names.enter true
      body hf.2 hv.2
    have hend : Traces g.program [.jump .jump f.labels loc, .place (f.labels + 1) loc] [] :=
      .cons rfl rfl (.single rfl rfl)
    simpa [stmt, Stmt.uses] using ((hcondition.append hbody).append hend).cons
      (i := .place f.labels loc) rfl rfl
  case forLoop loc init condition update body =>
    simp only [Checked.isFaultyStmt, Bool.or_eq_false_iff] at hn
    obtain ⟨_, hfi, hfc, _, hfu, hfb⟩ := hf
    obtain ⟨hvi, hvc, hvu, hvb⟩ := hv
    have hinit := step_traces loop f.enter names.enter inLoop init hfi hvi hn.1.1
    have hcondition (slots : Slots) (stop : Nat) :=
      header_traces kind className slots stop loc hfc hvc hn.1.2
    have hbody (l : Loop) (f' : Frame) := stmts_traces (some l) f'
      (names.enter.afterStep init).enter true body hfb hvb
    have hupdate (f' : Frame) := step_traces loop f' (names.enter.afterStep init) inLoop update hfu
      hvu hn.2
    have hend (start stop : Nat) : Traces g.program [.jump .jump start loc, .place stop loc] [] :=
      .cons rfl rfl (.single rfl rfl)
    have hround (slots : Slots) (l : Loop) (f₁ f₂ : Frame) (start : Nat) :=
      ((((hcondition slots l.stop).append (hbody l f₁)).append
        ((hupdate f₂).cons (i := .place l.next loc) rfl rfl)).append (hend start l.stop)).cons
        (i := .place start loc) rfl rfl
    simpa [stmt_forLoop, Stmt.uses] using hinit.append (hround _ ⟨_, _⟩ _ _ _)
  case evaluate loc e => exact evaluate_traces f.slots loc (typed_of_admits hf hv hn)
  case breakLoop loc =>
    cases loop
    case none => exact .nil
    case some => exact .single rfl rfl
  case continueLoop loc =>
    cases loop
    case none => exact .nil
    case some => exact .single rfl rfl
  all_goals exact hv.elim

theorem stmts_traces (loop : Option Loop) (f : Frame) (names : Names) (inLoop : Bool)
    (body : List Stmt) (hf : FormedBody W body) (hv : ValidBody g names inLoop body) :
    Traces g.program ((g.site kind className).stmts loop f [] body).1 (usesIn g.program body) := by
  cases body
  case nil => exact .nil
  case cons s body =>
    cases hn : g.program.isFaultyStmt s
    case true =>
      rw [stmts_faulty _ loop f hn, usesIn, if_pos hn, nil_append]
      exact stmts_traces loop f (names.after s) inLoop body hf.2 hv.2
    case false =>
      rw [stmts_cons _ loop f hn, usesIn, if_neg (by simp [hn])]
      exact (stmt_traces loop f names inLoop s hf.1 hv.1 hn).append
        (stmts_traces loop _ (names.after s) inLoop body hf.2 hv.2)

theorem otherwise_traces (loop : Option Loop) (f : Frame) (names : Names) (inLoop : Bool)
    (orElse : Nat) (loc : Location) (body : Option (List Stmt)) (hf : FormedElse W body)
    (hv : ValidElse g names inLoop body) :
    Traces g.program ((g.site kind className).otherwise loop f orElse loc body).1
      (usesInElse g.program body) := by
  cases body
  case none => exact .single rfl rfl
  case some body =>
    have hbody := stmts_traces loop (f.label 1).enter names.enter inLoop body hf hv
    have hend : Traces g.program [.place f.labels loc] [] := .single rfl rfl
    simpa [otherwise, usesInElse] using ((hbody.append hend).cons (i := .place orElse loc) rfl
      rfl).cons (i := .jump .jump f.labels loc) rfl rfl

theorem step_traces (loop : Option Loop) (f : Frame) (names : Names) (inLoop : Bool)
    (s : Option Stmt) (hf : FormedStep W s) (hv : ValidStep g names inLoop s)
    (hn : g.program.isFaultyStep s = false) :
    Traces g.program ((g.site kind className).step loop f s).1 (usesInStep g.program s) := by
  cases s
  case none => exact .nil
  case some s => exact stmt_traces loop f names inLoop s hf hv hn

end

theorem item_traces (f : Frame) (hs : item.isStatement) (hf : item.FormedItem W)
    (hv : item.ValidItem c t) (hn : c.isFaultyStmt item = false) :
    Traces c ((mainSite c).stmt none f item).1 (item.uses c) := by
  cases item
  case classDef | routine => cases hs
  case «variable» loc name type init =>
    simp only [Checked.isFaultyStmt, Bool.or_eq_false_iff] at hn
    exact declaration_traces (g := c.mainSetting t) f name _ loc hf.2.2.1 hv.admits hn.2
  case constant loc name type value =>
    simp only [Checked.isFaultyStmt, Bool.or_eq_false_iff] at hn
    have hf : FormedOption W (some value) := hf.2.2
    exact declaration_traces (g := c.mainSetting t) f name _ loc hf hv.admits hn.2
  all_goals exact stmt_traces (W := W) (g := c.mainSetting t) none f .empty false _ hf hv hn

theorem main_traces (f : Frame) (hf : ∀ item ∈ items, item.FormedItem W)
    (hv : ValidMain c t items) :
    Traces c ((mainSite c).stmts none f [] (items.filter Stmt.isStatement)).1 (usesIn c items) := by
  induction items generalizing t f
  case nil => exact .nil
  case cons item items ih =>
    obtain ⟨hfi, hfr⟩ := forall_mem_cons.mp hf
    cases hs : item.isStatement
    case false =>
      have huses : (if c.isFaultyStmt item then [] else item.uses c) = [] := by
        cases item
        case classDef | routine => simp [Checked.isFaultyStmt, Stmt.uses]
        all_goals cases hs
      rw [filter_cons_of_neg (by simp [hs]), usesIn, huses]
      exact ih f hfr hv.2
    case true =>
      rw [filter_cons_of_pos hs, usesIn]
      cases hn : c.isFaultyStmt item
      case true =>
        rw [stmts_faulty _ none f hn]
        exact ih f hfr hv.2
      case false =>
        rw [stmts_cons _ none f hn]
        exact (item_traces f hs hfi hv.1 hn).append (ih _ hfr hv.2)

theorem field_traces {f : Field Expr} (slots : Slots) (hf : f.Formed W)
    (hv : ValidField c owner f) :
    Traces c (fieldCode (constructorSite c owner) slots owner f) (fieldUses c f) := by
  obtain ⟨name, type, init, isConst, loc⟩ := f
  cases init
  case none => exact .nil
  case some init =>
    have hprogram : (constructorSite c owner).program = c := rfl
    cases hn : c.isFaulty init
    case true =>
      simp only [fieldCode, fieldUses, filter_some, hprogram, hn]
      exact .nil
    case false =>
      simp only [fieldCode, fieldUses, filter_some, hprogram, hn]
      have htyped : init.Typed (constructorSite c owner).program
          ((c.fieldSetting owner).environment ⟨[], 0⟩) :=
        typed_of_admits hf.2.2.1 (hv.admits init rfl) hn
      have hboth := (receiver_gives (constructorSite c owner) slots loc).append
        (value_gives slots init htyped)
      rw [Nat.zero_add] at hboth
      exact .of_takes (hboth.takes rfl rfl)

theorem fields_trace {owner : String} {fields : List (Field Expr)} (slots : Slots)
    (hf : ∀ f ∈ fields, f.Formed W) (hv : ∀ f ∈ fields, ValidField c owner f) :
    Traces c (fields.flatMap (fieldCode (constructorSite c owner) slots owner))
      (fields.flatMap (fieldUses c)) := by
  induction fields
  case nil => exact .nil
  case cons f fields ih =>
    obtain ⟨hff, hfr⟩ := forall_mem_cons.mp hf
    obtain ⟨hvf, hvr⟩ := forall_mem_cons.mp hv
    exact (field_traces slots hff hvf).append (ih hfr hvr)

end Site

def Routine.Passes (r : Routine) : Prop :=
  ∃ depth, r.stack = .ok depth ∧ r.maxStack = depth

theorem Routine.passes_ofCode (name : String) (kind : Kind) (isInstance : Bool)
    (code : List Instruction) (locals : List Local) :
    (ofCode name kind isInstance code locals).Passes ↔ (depthAfter? 0 code).isSome := by
  rw [← exists_stackDepth_iff 0 0 0]
  simp only [Passes, stack, ofCode, measure]
  cases stackDepth 0 0 0 code <;> simp

theorem Routine.passes_ofBody {uses : List Use} {code : List Instruction} (name : String)
    (kind : Kind) (isInstance : Bool) (slots : Slots) (loc : Location)
    (h : Traces c code uses) :
    (ofBody name kind isInstance code slots loc).Passes ↔ Supplied c uses := by
  rw [ofBody_eq, passes_ofCode, finished, Supplied]
  split
  case isTrue => rw [h 0]
  case isFalse =>
    have hall : Traces c (code ++ [.plain .ret .void loc]) (uses ++ []) :=
      h.append (.single rfl rfl)
    rw [hall 0, append_nil]

variable {t : SymbolTable}

theorem forall_mem_filterMap {α β : Type} {f : α → Option β} {xs : List α} {p : β → Prop} :
    (∀ y ∈ xs.filterMap f, p y) ↔ ∀ x ∈ xs, ∀ y ∈ f x, p y := by
  simp only [mem_filterMap, forall_exists_index, and_imp]
  exact ⟨fun h x hx y hy => h y x hx hy, fun h y x hx hy => h x hx y hy⟩

section

variable (h : Accepted c t)

include h

theorem passes_main : (mainCode c).Passes ↔ Supplied c (usesIn c c.items) := by
  rw [mainCode_eq]
  exact Routine.passes_ofBody _ _ _ _ _ (Site.main_traces _ h.formed h.main)

theorem passes_routine (hc : ∀ owner ∈ className, Token.IsName owner)
    (hf : ∀ name ∈ item.routineName? className, item.FormedRoutine Token.IsName)
    (hd : ∀ name ∈ item.routineName? className, item.RoutineDeclared t className)
    (hv : item.ValidRoutine c className) : (∀ r ∈ routineCode? c className item, r.Passes) ↔
      ∀ uses ∈ item.routineUses? c, Supplied c uses := by
  cases item
  case routine loc name params returns isStatic body =>
    have hf := hf _ rfl
    have hbody : Traces c ((routineSite c className returns isStatic).stmts none
        (routineFrame className params isStatic) [] body).1 (usesIn c body) :=
      Site.stmts_traces (g := c.bodySetting className isStatic returns) none _ (.ofParams params)
        false body hf.2.2.2 hv
    rw [routineCode?_eq h body (hd _ rfl) hf.1 hc]
    simp only [Stmt.routineUses?, mem_def, Option.some.injEq, forall_eq']
    exact Routine.passes_ofBody _ _ _ _ _ hbody
  all_goals simp [routineCode?, Stmt.routineUses?]

theorem passes_class (hf : item.FormedItem Token.IsName) (hd : item.Declared t)
    (hv : item.ValidClass c) :
    (∀ r ∈ classCode c item, r.Passes) ↔ ∀ uses ∈ item.classUses c, Supplied c uses := by
  cases item
  case classDef loc name fields methods =>
    have hconstructor := Routine.passes_ofBody (fullName (some name) constructorName) .constructor
      true (.ofReceiver (some name)) loc
      (Site.fields_trace (.ofReceiver (some name)) hf.2.1 hv.1)
    have hmethods : ∀ m ∈ methods, (∀ r ∈ routineCode? c (some name) m, r.Passes) ↔
        ∀ uses ∈ m.routineUses? c, Supplied c uses := by
      intro m hm
      refine passes_routine h ?_ (fun _ _ => hf.2.2 m hm) (fun _ _ => hd.2.2 m hm) (hv.2 m hm)
      rintro owner ⟨⟩
      exact hf.1
    rw [classCode_eq h fields methods hd.1 hf.1, constructorCode_eq, Stmt.classUses]
    rw [forall_mem_cons, forall_mem_cons, hconstructor, forall_mem_filterMap,
      forall_mem_filterMap]
    exact and_congr_right fun _ => forall₂_congr hmethods
  all_goals simp [classCode, Stmt.classUses]

theorem passes_all :
    (∀ r ∈ routines c, r.Passes) ↔ ∀ uses ∈ c.bodies, Supplied c uses := by
  have hclasses : ∀ item ∈ c.items, (∀ r ∈ classCode c item, r.Passes) ↔
      ∀ uses ∈ item.classUses c, Supplied c uses :=
    fun item hi => passes_class h (h.formed item hi) (h.declared item hi) (h.classes item hi)
  have hroutines : ∀ item ∈ c.items, (∀ r ∈ routineCode? c none item, r.Passes) ↔
      ∀ uses ∈ item.routineUses? c, Supplied c uses :=
    fun item hi => passes_routine h (by simp) (fun _ hn => (h.formed item hi).routine hn)
      (fun _ hn => (h.declared item hi).routine hn) (h.routines item hi)
  rw [routines, Checked.bodies, cons_append, cons_append, forall_mem_cons,
    forall_mem_cons, forall_mem_append, forall_mem_append, passes_main h,
    forall_mem_flatMap, forall_mem_flatMap, forall_mem_filterMap, forall_mem_filterMap]
  exact and_congr_right fun _ => and_congr (forall₂_congr hclasses) (forall₂_congr hroutines)

end

end Code

-- The code of an accepted program finds enough values on the stack, and each routine tells how many
-- there can be, unless a call without a result is used as a value and none is left in its place.
theorem Compilation.stack_iff_supplied {source : String} {c : Compilation}
    (h : ofSource .strict source = .ok c) :
    (∀ r ∈ c.routines, ∃ depth, r.stack = .ok depth ∧ r.maxStack = depth) ↔
      ∀ uses ∈ c.checked.bodies, Supplied c.checked uses := by
  obtain ⟨hchecked, hsound, hroutines⟩ := ofSource_strict h
  rw [hroutines]
  have haccepted := Checked.accepted_ofSource source (hchecked ▸ hsound)
  rw [← hchecked] at haccepted
  exact Code.passes_all haccepted

theorem exists_of_toOption {ε α : Type} {x : Except ε α} {p : α → Bool}
    (h : x.toOption.any p) : ∃ a, x = .ok a ∧ p a := by
  cases x
  case error => cases h
  case ok a => exact ⟨a, rfl, h⟩

section Evaluation

variable {ε α : Type} {x : Except ε α} {P Q : α → Prop} [DecidablePred P]

theorem exists_ok (h : x.toOption.any fun a => P a) : ∃ a, x = .ok a ∧ P a :=
  (exists_of_toOption h).imp fun _ ha => ⟨ha.1, of_decide_eq_true ha.2⟩

theorem exists_ok_and (h : x.toOption.any fun a => P a) (hq : ∀ a, x = .ok a → P a → Q a) :
    ∃ a, x = .ok a ∧ P a ∧ Q a :=
  (exists_ok h).imp fun a ha => ⟨ha.1, ha.2, hq a ha.1 ha.2⟩

end Evaluation

theorem Compilation.stack_iff_supplied_nestedCall :
    ∃ c, ofSource .strict "print(print(1));" = .ok c ∧
      ((∀ r ∈ c.routines, ∃ depth, r.stack = .ok depth ∧ r.maxStack = depth) ↔
        ∀ uses ∈ c.checked.bodies, Supplied c.checked uses) :=
  (exists_ok (P := fun _ => True) (by decide +kernel)).imp fun _ hc =>
    ⟨hc.1, stack_iff_supplied hc.1⟩

-- A call without a result is the argument of another one, which finds no value.
theorem Compilation.nestedCall_underflow :
    ∃ c, ofSource .strict "print(print(1));" = .ok c ∧
      ∃ r ∈ c.routines, r.stack = .error ⟨toplevelName, 2, .call⟩ :=
  exists_ok (by decide +kernel)

end Lumen
