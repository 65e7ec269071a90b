import Lumen.Proofs.Code.Body
import Lumen.Proofs.Code.Slots
import Lumen.Proofs.Typing.Known

namespace Lumen

open List

mutual

def Stmt.labels : Stmt → Nat
  | .block _ body => labelsIn body
  | .branch _ _ thenBody elseBody => 1 + labelsIn thenBody + labelsInElse elseBody
  | .whileLoop _ _ body => 2 + labelsIn body
  | .forLoop _ init _ update body =>
    labelsInStep init + 3 + labelsIn body + labelsInStep update
  | .variable .. | .constant .. | .assign .. | .result .. | .breakLoop _ | .continueLoop _
  | .evaluate .. | .classDef .. | .routine .. | .bare _ => 0

def labelsIn : List Stmt → Nat
  | [] => 0
  | s :: rest => s.labels + labelsIn rest

def labelsInElse : Option (List Stmt) → Nat
  | none => 0
  | some body => 1 + labelsIn body

def labelsInStep : Option Stmt → Nat
  | none => 0
  | some s => s.labels

end

namespace Code

def slotWidths : List Ty → Nat
  | [] => 0
  | type :: rest => type.slotWidth + slotWidths rest

def rowsFrom (next : Nat) : List (String × Ty) → List Local
  | [] => []
  | v :: rest => ⟨v.1, next, v.2⟩ :: rowsFrom (next + v.2.slotWidth) rest

structure Layout where
  -- The slots of what is declared outside of the body: of the receiver, and of the globals if it is
  -- one of the statements at top level.
  base     : Std.TreeMap String Nat
  -- All variables that have slots in front of those of the body.
  front    : List Local
  -- The variables of the body, in the order of their cells.
  declared : List (String × Ty)

def Layout.start (l : Layout) : Nat :=
  slotWidths (l.front.map (·.type))

def Layout.cell (l : Layout) (k : Nat) : Nat :=
  l.start + slotWidths ((l.declared.take k).map (·.2))

def Layout.rows (l : Layout) : List Local :=
  l.front ++ rowsFrom l.start l.declared

def Layout.slots (l : Layout) (names : Names) : Slots where
  visible := names.blocks.flatten.foldr (fun b m => m.insert b.declared.name (l.cell b.cell)) l.base
  given := []
  blocks := []
  next := 0

theorem Layout.find?_slots (l : Layout) (names : Names) (name : String) :
    (l.slots names).find? name =
      ((names.find? name).map (l.cell ·.cell)).or l.base[name]? := by
  have hall (bs : List Binding) :
      (bs.foldr (fun b m => m.insert b.declared.name (l.cell b.cell)) l.base)[name]? =
        ((bs.find? (·.declared.name = name)).map (l.cell ·.cell)).or l.base[name]? := by
    induction bs
    case nil => simp
    case cons b bs ih =>
      rw [foldr_cons, Std.TreeMap.getElem?_insert, ih, find?_cons]
      by_cases h : b.declared.name = name <;> simp [h]
  simp only [Slots.find?, Layout.slots, hall, Names.find?, find?_flatten]

namespace Site

variable (site : Site) (l : Layout)

def initialAt (names : Names) (name : String) (type : Ty) (loc : Location) :
    Option Expr → List Instruction
  | none => []
  | some init =>
    site.value (l.slots names) init ++
      [.access .store name type (some (l.cell names.next)) loc]

mutual

def stmtAt (names : Names) (loop : Option Loop) (next : Nat) : Stmt → List Instruction
  | .variable loc name type init =>
    site.initialAt l names name (site.variableType type init) loc init
  | .constant loc name type value =>
    site.initialAt l names name (Ty.ofName type) loc (some value)
  | .block _ body => bodyAt names.enter loop next body
  | .assign loc target op value => site.assign (l.slots names) target op value loc
  | .result loc value => site.result (l.slots names) value loc
  | .branch loc condition thenBody elseBody =>
    site.value (l.slots names) condition ++ .jump .jumpIfFalse next loc ::
      bodyAt names.enter loop (next + 1) thenBody ++
      elseAt (names.skip (declarationsIn thenBody).length) loop next
        (next + 1 + labelsIn thenBody) loc elseBody
  | .whileLoop loc condition body =>
    .place next loc :: site.value (l.slots names) condition ++
      .jump .jumpIfFalse (next + 1) loc ::
      bodyAt names.enter (some ⟨next, next + 1⟩) (next + 2) body ++
      [.jump .jump next loc, .place (next + 1) loc]
  | .forLoop loc init condition update body =>
    stepAt names.enter loop next init ++ .place (next + labelsInStep init) loc ::
      site.header (l.slots (names.enter.afterStep init)) (next + labelsInStep init + 2) loc
        condition ++
      bodyAt (names.enter.afterStep init).enter
        (some ⟨next + labelsInStep init + 1, next + labelsInStep init + 2⟩)
        (next + labelsInStep init + 3) body ++
      .place (next + labelsInStep init + 1) loc ::
      stepAt (names.enter.afterStep init) loop (next + labelsInStep init + 3 + labelsIn body)
        update ++
      [.jump .jump (next + labelsInStep init) loc, .place (next + labelsInStep init + 2) loc]
  | .breakLoop loc =>
    match loop with
    | some loop => [.jump .jump loop.stop loc]
    | none => []
  | .continueLoop loc =>
    match loop with
    | some loop => [.jump .jump loop.next loc]
    | none => []
  | .evaluate loc e => site.evaluate (l.slots names) e loc
  | .classDef .. | .routine .. | .bare _ => []

def bodyAt (names : Names) (loop : Option Loop) (next : Nat) : List Stmt → List Instruction
  | [] => []
  | s :: rest => stmtAt names loop next s ++ bodyAt (names.after s) loop (next + s.labels) rest

def elseAt (names : Names) (loop : Option Loop) (orElse next : Nat) (loc : Location) :
    Option (List Stmt) → List Instruction
  | none => [.place orElse loc]
  | some body =>
    .jump .jump next loc :: .place orElse loc :: bodyAt names.enter loop (next + 1) body ++
      [.place next loc]

def stepAt (names : Names) (loop : Option Loop) (next : Nat) : Option Stmt → List Instruction
  | none => []
  | some s => stmtAt names loop next s

end

-- Only the slots that names stand for count.
section Congr

variable {slots slots' : Slots}

section

variable (h : slots.find? = slots'.find?)

include h

theorem storage_congr (name : String) :
    site.storage slots name = site.storage slots' name := by
  rw [storage, storage, h]

theorem receiver_congr (loc : Location) :
    site.receiver slots loc = site.receiver slots' loc := by
  rw [receiver, receiver, h]

theorem isClassName_congr (e : Expr) :
    site.isClassName slots e = site.isClassName slots' e := by
  cases e <;> simp only [isClassName, site.storage_congr h]

end

mutual

theorem value_congr (h : slots.find? = slots'.find?) (e : Expr) :
    site.value slots e = site.value slots' e := by
  cases e <;>
    simp only [value, site.storage_congr h, site.receiver_congr h, site.isClassName_congr h]
  case binary m op left right => rw [value_congr h left, value_congr h right]
  case unary m op operand => rw [value_congr h operand]
  case call m name args => rw [values_congr h args]
  case invoke m object name args => rw [value_congr h object, values_congr h args]
  case member m object name => rw [value_congr h object]
  case create m type args => rw [values_congr h args]

theorem values_congr (h : slots.find? = slots'.find?) (es : List Expr) :
    site.values slots es = site.values slots' es := by
  cases es
  case nil => simp only [values]
  case cons e es => rw [values, values, value_congr h e, values_congr h es]

end

section

variable (h : slots.find? = slots'.find?)

include h

theorem assign_congr (target : Expr) (op : Option BinaryOp)
    (value : Expr) (loc : Location) :
    site.assign slots target op value loc = site.assign slots' target op value loc := by
  simp only [assign, storeField, site.value_congr h, site.storage_congr h, site.receiver_congr h]

theorem result_congr (value : Option Expr) (loc : Location) :
    site.result slots value loc = site.result slots' value loc := by
  simp only [result, site.value_congr h]

theorem evaluate_congr (e : Expr) (loc : Location) :
    site.evaluate slots e loc = site.evaluate slots' e loc := by
  simp only [evaluate, site.value_congr h]

theorem header_congr (stop : Nat) (loc : Location)
    (condition : Option Expr) :
    site.header slots stop loc condition = site.header slots' stop loc condition := by
  cases condition <;> simp only [header, site.value_congr h]

end

end Congr

end Site
end Code
end Lumen
