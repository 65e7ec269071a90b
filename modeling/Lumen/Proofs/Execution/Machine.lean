import Lumen.Proofs.Code.Flow
import Lumen.Proofs.Execution.Source

namespace Lumen

open List Option

namespace Code

def Opcode.unary? : Opcode → Option UnaryOp
  | neg => some .neg | not => some .not
  | _ => none

structure Machine (V S : Type) where
  -- The last value comes first.
  stack : List V
  slots : Nat → V
  state : S

namespace Machine

variable {V S : Type}

def push (m : Machine V S) (v : V) : Machine V S :=
  { m with stack := v :: m.stack }

def given (m : Machine V S) (stack : List V) : V × S → Machine V S
  | (v, s) => { m with stack := v :: stack, state := s }

def args? (m : Machine V S) (count : Nat) : Option (List V × List V) :=
  if count ≤ m.stack.length then some ((m.stack.take count).reverse, m.stack.drop count) else none

end Machine

section Machine

variable {V S : Type} (meaning : Meaning V S)

def Instruction.act (i : Instruction) (m : Machine V S) : Option (Machine V S) :=
  match i.opcode, i.operand, m.stack with
  | .push, some (.literal value), _ => some (m.push (meaning.literal value))
  | .pop, _, _ :: stack => some { m with stack }
  | .dup, _, v :: _ => some (m.push v)
  | .load, some (.symbol name), stack =>
    match i.slot with
    | some n => some (m.push (m.slots n))
    | none => (meaning.getGlobal name m.state).map (m.given stack)
  | .store, some (.symbol name), v :: stack =>
    match i.slot with
    | some n => some { m with stack, slots := Function.update m.slots n v }
    | none => (meaning.putGlobal name v m.state).map fun s => { m with stack, state := s }
  | .getField, some (.symbol field), x :: stack =>
    (meaning.getField field x m.state).map (m.given stack)
  | .putField, some (.symbol field), v :: x :: stack =>
    (meaning.putField field x v m.state).map fun s => { m with stack, state := s }
  | .create, some (.symbol className), stack =>
    (meaning.create className m.state).map (m.given stack)
  | .construct, some (.call target count), _ => do
    let (vs, stack) ← m.args? count
    let s ← meaning.construct target vs m.state
    return { m with stack, state := s }
  | .call, some (.call target count), _ => do
    let (vs, stack) ← m.args? count
    let (v, s) ← meaning.call target vs m.state
    return { m with stack := if i.type = .void then stack else v :: stack, state := s }
  | opcode, none, y :: stack =>
    match opcode.unary?, opcode.operator?, stack with
    | some op, _, _ => (meaning.unary op i.type y m.state).map (m.given stack)
    | none, some op, x :: stack => (meaning.binary op i.type x y m.state).map (m.given stack)
    | _, _, _ => none
  | _, _, _ => none

def perform (code : List Instruction) (m : Machine V S) : Option (Machine V S) :=
  code.foldlM (fun m i => i.act meaning m) m

def codeFrom? (label : Option Nat) : List Instruction → Option (List Instruction)
  | [] => none
  | i :: rest =>
    if i.opcode = .label ∧ i.label? = label then some (i :: rest) else codeFrom? label rest

def step? (code : List Instruction) : List Instruction × Machine V S →
    Option (List Instruction × Machine V S)
  | ([], _) => none
  | (i :: left, m) =>
    match i.opcode with
    | .label => some (left, m)
    | .jump => (codeFrom? i.label? code).map (·, m)
    | .jumpIfFalse =>
      match m.stack with
      | [] => none
      | v :: stack =>
        if meaning.isTrue v then some (left, { m with stack })
        else (codeFrom? i.label? code).map (·, { m with stack })
    | .ret => none
    | _ => (i.act meaning m).map (left, ·)

def Reaches (code : List Instruction) :
    List Instruction × Machine V S → List Instruction × Machine V S → Prop :=
  Relation.ReflTransGen fun x y => step? meaning code x = some y

end Machine

-- Control is at the end of a routine, with its result on the stack and nothing else.
def Returns {V : Type} (left : List Instruction) (stack : List V) (result : Option V) : Prop :=
  stack = result.toList ∧ ∃ i ∈ left.head?, i.opcode = .ret ∧ i.pops = stack.length

section Reaches

variable {V S : Type} {meaning : Meaning V S} {code : List Instruction}

theorem perform_append (a b : List Instruction) (m : Machine V S) :
    perform meaning (a ++ b) m = (perform meaning a m).bind (perform meaning b) :=
  foldlM_append ..

@[simp] theorem perform_cons (i : Instruction) (rest : List Instruction) (m : Machine V S) :
    perform meaning (i :: rest) m = (i.act meaning m).bind (perform meaning rest) :=
  rfl

theorem step?_straight {i : Instruction} (hi : i.opcode.isControl = false)
    (left : List Instruction) (m : Machine V S) :
    step? meaning code (i :: left, m) = (i.act meaning m).map (left, ·) := by
  rw [step?]
  cases h : i.opcode <;> first | rfl | simp [h, Opcode.isControl] at hi

theorem Reaches.of_perform (hb : Straight block) (left : List Instruction)
    (h : perform meaning block m = some m') :
    Reaches meaning code (block ++ left, m) (left, m') := by
  induction block generalizing m
  case nil =>
    cases h
    exact .refl
  case cons i block ih =>
    obtain ⟨hi, hrest⟩ := forall_mem_cons.mp hb
    rw [perform_cons] at h
    obtain ⟨next, hnext, h⟩ := bind_eq_some_iff.mp h
    refine .head ?_ (ih hrest h)
    rw [cons_append, step?_straight hi, hnext]
    rfl

theorem Reaches.place (label : Nat) (loc : Location) (left : List Instruction)
    (m : Machine V S) : Reaches meaning code (.place label loc :: left, m) (left, m) :=
  .single rfl

theorem Reaches.jump (ht : codeFrom? (some label) code = some there) (loc : Location)
    (left : List Instruction) (m : Machine V S) :
    Reaches meaning code (.jump .jump label loc :: left, m) (there, m) := by
  refine .single ?_
  have hstep : step? meaning code (.jump .jump label loc :: left, m) =
      (codeFrom? (some label) code).map (·, m) := rfl
  rw [hstep, ht]
  rfl

theorem Reaches.jumpIfFalse (ht : codeFrom? (some label) code = some there) (loc : Location)
    (left : List Instruction) (m : Machine V S) (v : V) :
    Reaches meaning code (.jump .jumpIfFalse label loc :: left, m.push v)
      (if meaning.isTrue v then left else there, m) := by
  refine .single ?_
  have hstep : step? meaning code (.jump .jumpIfFalse label loc :: left, m.push v) =
      if meaning.isTrue v then some (left, m) else (codeFrom? (some label) code).map (·, m) := rfl
  rw [hstep, ht]
  split <;> rfl

end Reaches

section Labels

def labelsOf (code : List Instruction) : List Nat :=
  code.filterMap fun i => if i.opcode = .label then i.label? else none

variable {code rest : List Instruction}

@[simp] theorem labelsOf_append (a b : List Instruction) :
    labelsOf (a ++ b) = labelsOf a ++ labelsOf b :=
  filterMap_append

theorem labelsOf_straight (h : Straight code) : labelsOf code = [] := by
  refine filterMap_eq_nil_iff.mpr fun i hi => if_neg fun hl => ?_
  have hstraight := h i hi
  simp [hl, Opcode.isControl] at hstraight

-- If no label has two places, the code from a label on is what stands there.
theorem codeFrom?_of_suffix (hn : (labelsOf code).Nodup) (h : .place label loc :: rest <:+ code) :
    codeFrom? (some label) code = some (.place label loc :: rest) := by
  obtain ⟨front, rfl⟩ := h
  induction front
  case nil => exact if_pos ⟨rfl, rfl⟩
  case cons i front ih =>
    rw [cons_append, labelsOf, filterMap_cons] at hn
    rw [cons_append, codeFrom?]
    split
    case isTrue hi =>
      -- The label would have a place in front.
      rw [if_pos hi.1, hi.2] at hn
      have hmem : label ∈ labelsOf (front ++ .place label loc :: rest) := by
        rw [labelsOf_append]
        exact mem_append_right _ mem_cons_self
      exact absurd hmem (nodup_cons.mp hn).1
    case isFalse =>
      refine ih ?_
      split at hn
      · exact hn
      · exact (nodup_cons.mp hn).2

theorem codeFrom?_inside (h : codeFrom? label code = some rest) : rest <:+ code ∧ rest ≠ [] := by
  induction code
  case nil => cases h
  case cons i code ih =>
    rw [codeFrom?] at h
    split at h
    · cases h
      exact ⟨suffix_rfl, cons_ne_nil _ _⟩
    · exact ⟨(ih h).1.trans (suffix_cons _ _), (ih h).2⟩

end Labels

section Inside

variable {V S : Type} {meaning : Meaning V S} {code : List Instruction}
  {x y : List Instruction × Machine V S}

-- A step leads to the next instruction or to a label, and there is none behind the end.
theorem step?_cases (h : step? meaning code (i :: left, m) = some y) :
    i.opcode ≠ .ret ∧ (y.1 = left ∨ codeFrom? i.label? code = some y.1) := by
  rw [step?] at h
  split at h
  case h_1 hi =>
    cases h
    exact ⟨by simp [hi], .inl rfl⟩
  case h_2 hi =>
    obtain ⟨there, hthere, rfl⟩ := map_eq_some_iff.mp h
    exact ⟨by simp [hi], .inr hthere⟩
  case h_3 hi =>
    refine ⟨by simp [hi], ?_⟩
    split at h
    case h_1 => cases h
    case h_2 =>
      split at h
      · cases h
        exact .inl rfl
      · obtain ⟨there, hthere, rfl⟩ := map_eq_some_iff.mp h
        exact .inr hthere
  case h_4 => cases h
  case h_5 hret =>
    obtain ⟨m', -, rfl⟩ := map_eq_some_iff.mp h
    exact ⟨hret, .inl rfl⟩

-- Control does not get behind code that ends with the end of its routine.
theorem Reaches.inside (hlast : code.getLast?.any (·.opcode = .ret))
    (hx : x.1 <:+ code ∧ x.1 ≠ []) (h : Reaches meaning code x y) : y.1 <:+ code ∧ y.1 ≠ [] := by
  induction h
  case refl => exact hx
  case tail y z _ hstep ih =>
    obtain ⟨left, m⟩ := y
    obtain ⟨i, left, rfl⟩ := exists_cons_of_ne_nil ih.2
    obtain ⟨hret, hleft | hlabel⟩ := step?_cases hstep
    case inr => exact codeFrom?_inside hlabel
    case inl =>
      rw [hleft]
      refine ⟨(suffix_cons i left).trans ih.1, ?_⟩
      rintro rfl
      obtain ⟨front, rfl⟩ := ih.1
      simp [hret] at hlast

end Inside

end Code
end Lumen
