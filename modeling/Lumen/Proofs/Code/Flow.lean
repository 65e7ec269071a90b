import Lumen.Proofs.Code.Operators
import Mathlib.Logic.Relation

namespace Lumen

open Typing
open List hiding after count tail
open Option

namespace Code

def Instruction.label? (i : Instruction) : Option Nat :=
  match i.operand with
  | some (.label id) => some id
  | _ => none

-- Where control can go from a place in code, with the depth of the stack there. Any place of its
-- label will do for a jump.
inductive Flows (code : List Instruction) : Nat × Nat → Nat × Nat → Prop
  | next {pc depth : Nat} {i : Instruction} (hi : code[pc]? = some i) (hp : i.pops ≤ depth)
      (hj : i.opcode ≠ .jump) (hr : i.opcode ≠ .ret) :
      Flows code (pc, depth) (pc + 1, depth - i.pops + i.pushes)
  | jump {pc depth target : Nat} {i j : Instruction} (hi : code[pc]? = some i)
      (hp : i.pops ≤ depth) (hj : i.opcode = .jump ∨ i.opcode = .jumpIfFalse)
      (ht : code[target]? = some j) (hl : j.opcode = .label) (hsame : j.label? = i.label?) :
      Flows code (pc, depth) (target, depth - i.pops + i.pushes)

structure Level (before : List Instruction) (i : Instruction) : Prop where
  label : i.opcode = .label → depthAfter? 0 before = some 0
  jump  : i.opcode = .jump ∨ i.opcode = .jumpIfFalse → depthAfter? 0 (before ++ [i]) = some 0

theorem Level.behind (h : Level before i) (hf : depthAfter? 0 front = some 0) :
    Level (front ++ before) i where
  label hi := by rw [depthAfter?_append, hf, bind_some, h.label hi]
  jump hi := by rw [append_assoc, depthAfter?_append, hf, bind_some, h.jump hi]

structure Balanced (code : List Instruction) (pieces : List Piece) : Prop where
  ends   : depthAfter? 0 code = some 0
  level  : ∀ before i after, code = before ++ i :: after → Level before i
  pieces : ∀ p ∈ pieces, depthAfter? 0 p.before = some 0

namespace Balanced

variable {code rest : List Instruction} {ps qs : List Piece}

theorem nil : Balanced [] [] where
  ends := rfl
  level before i after h := by simp at h
  pieces p hp := by cases hp

theorem append (h : Balanced code ps) (h' : Balanced rest qs) :
    Balanced (code ++ rest) (ps ++ qs.map (.behind code)) where
  ends := by rw [depthAfter?_append, h.ends, bind_some, h'.ends]
  level before i after heq := by
    rcases append_eq_append_iff.mp heq with ⟨front, rfl, hrest⟩ | ⟨tail, rfl, htail⟩
    · exact (h'.level front i after hrest).behind h.ends
    · cases tail
      case nil => simpa using (h'.level [] i after htail.symm).behind (by simpa using h.ends)
      case cons j tail =>
        cases htail
        exact h.level before i tail rfl
  pieces p hp := by
    rcases mem_append.mp hp with hp | hp
    · exact h.pieces p hp
    · obtain ⟨q, hq, rfl⟩ := List.mem_map.mp hp
      rw [Piece.behind, depthAfter?_append, h.ends, bind_some, h'.pieces q hq]

theorem append_nil (h : Balanced code ps) (h' : Balanced rest []) : Balanced (code ++ rest) ps := by
  simpa using h.append h'

theorem first {p : Piece} (h : Balanced code ps) (hp : p.before = []) :
    Balanced code (p :: ps) where
  ends := h.ends
  level := h.level
  pieces := forall_mem_cons.mpr ⟨by rw [hp, depthAfter?], h.pieces⟩

theorem place (label : Nat) (loc : Location) : Balanced [.place label loc] [] where
  ends := rfl
  level before i after h := by
    obtain ⟨rfl, rfl, rfl⟩ : before = [] ∧ i = .place label loc ∧ after = [] := by
      cases before <;> simp_all
    exact ⟨fun _ => rfl, fun hj => by rcases hj with hj | hj <;> cases hj⟩
  pieces p hp := by cases hp

theorem jump (label : Nat) (loc : Location) : Balanced [.jump .jump label loc] [] where
  ends := rfl
  level before i after h := by
    obtain ⟨rfl, rfl, rfl⟩ : before = [] ∧ i = .jump .jump label loc ∧ after = [] := by
      cases before <;> simp_all
    exact ⟨(by cases ·), fun _ => rfl⟩
  pieces p hp := by cases hp

end Balanced

def Opcode.isControl : Opcode → Bool
  | .label | .jump | .jumpIfFalse | .ret => true
  | _ => false

def Straight (code : List Instruction) : Prop :=
  ∀ i ∈ code, i.opcode.isControl = false

namespace Straight

variable {code rest : List Instruction}

theorem nil : Straight [] := by
  intro i hi
  cases hi

theorem append (h : Straight code) (h' : Straight rest) : Straight (code ++ rest) :=
  forall_mem_append.mpr ⟨h, h'⟩

theorem cons {i : Instruction} (hi : i.opcode.isControl = false) (h : Straight code) :
    Straight (i :: code) :=
  forall_mem_cons.mpr ⟨hi, h⟩

theorem single {i : Instruction} (hi : i.opcode.isControl = false) : Straight [i] :=
  cons hi .nil

theorem level (h : Straight code) (heq : code = before ++ i :: after) : Level before i := by
  have hi := h i (by simp [heq])
  constructor
  · intro hl
    simp [hl, Opcode.isControl] at hi
  · rintro (hj | hj) <;> simp [hj, Opcode.isControl] at hi

theorem balanced (h : Straight code) (hd : depthAfter? 0 code = some 0) : Balanced code [] where
  ends := hd
  level before i after heq := h.level heq
  pieces p hp := by cases hp

theorem then_balanced (h : Straight code) {i : Instruction} (hi : i.opcode ≠ .label)
    (hd : depthAfter? 0 (code ++ [i]) = some 0) : Balanced (code ++ [i]) [] where
  ends := hd
  level before j after heq := by
    rcases append_eq_append_iff.mp heq with ⟨front, rfl, hrest⟩ | ⟨tail, rfl, htail⟩
    · obtain ⟨rfl, rfl, rfl⟩ : front = [] ∧ j = i ∧ after = [] := by
        cases front <;> simp_all
      exact ⟨fun hl => absurd hl hi, fun _ => by simpa using hd⟩
    · cases tail
      case nil =>
        cases htail
        exact ⟨fun hl => absurd hl hi, fun _ => by simpa using hd⟩
      case cons k tail =>
        cases htail
        exact h.level rfl
  pieces p hp := by cases hp

end Straight

def Opcode.computes : Opcode → Bool
  | .label | .jump | .jumpIfFalse | .ret | .store | .putField => false
  | _ => true

def Computes (code : List Instruction) : Prop :=
  ∀ i ∈ code, i.opcode.computes

namespace Computes

variable {code rest : List Instruction} {i : Instruction}

theorem nil : Computes [] := by
  intro i hi
  cases hi

theorem cons (hi : i.opcode.computes) (h : Computes code) : Computes (i :: code) :=
  forall_mem_cons.mpr ⟨hi, h⟩

theorem single (hi : i.opcode.computes) : Computes [i] :=
  cons hi .nil

theorem straight (h : Computes code) : Straight code := by
  intro i hi
  have hc := h i hi
  cases ho : i.opcode <;> simp_all [Opcode.computes, Opcode.isControl]

end Computes

namespace Site

variable (site : Site) (slots : Slots)

theorem computes_ofBinary (op : BinaryOp) : (Opcode.ofBinary op).computes := by
  cases op <;> rfl

theorem computes_ofUnary (op : UnaryOp) : (Opcode.ofUnary op).computes := by
  cases op <;> rfl

theorem find?_of_storage (h : site.storage slots name = .slot n) : slots.find? name = some n := by
  rw [storage] at h
  cases hfind : slots.find? name <;> simp only [hfind] at h
  case some slot =>
    cases h
    rfl
  case none =>
    split at h
    · split at h <;> cases h
    · cases h

-- What holds of every instruction that reads a variable where it is found, or carries no slot.
structure Covers (P : Instruction → Prop) : Prop where
  load  : ∀ name type n loc, slots.find? name = some n → P (.access .load name type (some n) loc)
  other : ∀ i : Instruction, i.slot = none → i.opcode.computes → P i

section Each

variable {P : Instruction → Prop}

theorem receiver_each (h : Covers slots P) (loc : Location) : P (site.receiver slots loc) := by
  rw [receiver]
  cases hfind : slots.find? "this"
  case none => exact h.other _ rfl rfl
  case some n => exact h.load _ _ n loc hfind

mutual

theorem value_each (h : Covers slots P) (e : Expr) : ∀ i ∈ site.value slots e, P i := by
  have hreceiver := site.receiver_each slots h
  have hone {i : Instruction} (hi : P i) : ∀ j ∈ [i], P j := forall_mem_singleton.mpr hi
  cases e <;> simp only [value]
  case literal => exact hone (h.other _ rfl rfl)
  case receiver m => exact hone (hreceiver m.loc)
  case «variable» m name =>
    split
    case h_1 n hstorage =>
      exact hone (h.load name _ n m.loc (site.find?_of_storage slots hstorage))
    case h_2 => exact forall_mem_cons.mpr ⟨hreceiver m.loc, hone (h.other _ rfl rfl)⟩
    case h_3 => exact hone (h.other _ rfl rfl)
  case binary m op left right =>
    exact forall_mem_append.mpr ⟨forall_mem_append.mpr ⟨value_each h left, value_each h right⟩,
      hone (h.other _ rfl (computes_ofBinary op))⟩
  case unary m op operand =>
    exact forall_mem_append.mpr ⟨value_each h operand, hone (h.other _ rfl (computes_ofUnary op))⟩
  case call m name args =>
    have hcall (target : String) (count : Nat) (type : Ty) :=
      forall_mem_append.mpr ⟨values_each h args,
        hone (h.other (.withOperand .call (.call target count) type m.loc) rfl rfl)⟩
    split
    · exact forall_mem_cons.mpr ⟨hreceiver m.loc, hcall _ _ _⟩
    · exact hcall _ _ _
  case invoke m object name args =>
    split
    case h_2 => simp
    case h_1 className _ =>
      have hcall (count : Nat) (type : Ty) := forall_mem_append.mpr ⟨values_each h args,
        hone (h.other (.withOperand .call (.call (fullName (some className) name) count) type m.loc)
          rfl rfl)⟩
      split
      · exact hcall _ _
      · have hobject := value_each h object
        split
        · simp only [append_assoc, cons_append]
          exact forall_mem_append.mpr ⟨hobject,
            forall_mem_cons.mpr ⟨h.other _ rfl rfl, hcall _ _⟩⟩
        · rw [append_assoc]
          exact forall_mem_append.mpr ⟨hobject, hcall _ _⟩
  case member m object name =>
    split
    · exact forall_mem_append.mpr ⟨value_each h object, hone (h.other _ rfl rfl)⟩
    · simp
  case create m type args =>
    split
    · exact forall_mem_cons.mpr ⟨h.other _ rfl rfl, forall_mem_cons.mpr
        ⟨h.other _ rfl rfl, forall_mem_append.mpr ⟨values_each h args, hone (h.other _ rfl rfl)⟩⟩⟩
    · simp
  case stray => simp

theorem values_each (h : Covers slots P) (es : List Expr) : ∀ i ∈ site.values slots es, P i := by
  cases es
  case nil => simp [values]
  case cons e es => exact forall_mem_append.mpr ⟨value_each h e, values_each h es⟩

end

theorem storeField_each (h : Covers slots P) {className name : String}
    (hput : P (.withOperand .putField (.symbol (fullName (some className) name)) type loc))
    (op : Option BinaryOp) (value : Expr) :
    ∀ i ∈ site.storeField slots className name type op value loc, P i := by
  have hput := forall_mem_singleton.mpr hput
  have hvalue := site.value_each slots h value
  cases op
  case none => exact forall_mem_append.mpr ⟨hvalue, hput⟩
  case some op =>
    refine forall_mem_append.mpr ⟨forall_mem_append.mpr ⟨?_, hvalue⟩,
      forall_mem_cons.mpr ⟨h.other _ rfl (computes_ofBinary op), hput⟩⟩
    exact forall_mem_cons.mpr
      ⟨h.other _ rfl rfl, forall_mem_singleton.mpr (h.other _ rfl rfl)⟩

-- An assignment writes at its end; all else in its code is as in that of an expression.
theorem assign_each (h : Covers slots P) {target : Expr}
    (hstore : ∀ m name slot, target = .variable m name → (∀ n ∈ slot, slots.find? name = some n) → P
      (.access .store name (site.program.typeOf target) slot loc))
    (hput : ∀ field, P (.withOperand .putField field (site.program.typeOf target) loc))
    (op : Option BinaryOp) (value : Expr) : ∀ i ∈ site.assign slots target op value loc, P i := by
  have hvalue := site.value_each slots h value
  set type := site.program.typeOf target
  have hvariable {m : Mark} {name : String} (ht : target = .variable m name) {slot : Option Nat}
      (hslot : ∀ n ∈ slot, slots.find? name = some n) (code : List Instruction)
      (hnone : op = none → code = site.value slots value ++ [.access .store name type slot loc])
      (hsome : ∀ o, op = some o → code = .access .load name type slot loc ::
        site.value slots value ++
          .plain (.ofBinary o) type loc :: [.access .store name type slot loc]) :
      ∀ i ∈ code, P i := by
    have hwrite := forall_mem_singleton.mpr (hstore m name slot ht hslot)
    have hread : P (.access .load name type slot loc) := by
      cases slot
      case none => exact h.other _ rfl rfl
      case some n => exact h.load _ _ n loc (hslot n rfl)
    cases op
    case none =>
      rw [hnone rfl]
      exact forall_mem_append.mpr ⟨hvalue, hwrite⟩
    case some o =>
      rw [hsome o rfl]
      exact forall_mem_cons.mpr ⟨hread, forall_mem_append.mpr
        ⟨hvalue, forall_mem_cons.mpr ⟨h.other _ rfl (computes_ofBinary o), hwrite⟩⟩⟩
  cases target <;> simp only [assign]
  case «variable» m name =>
    split
    case h_1 =>
      exact forall_mem_cons.mpr
        ⟨site.receiver_each slots h loc, site.storeField_each slots h (hput _) op value⟩
    case h_2 n hstorage =>
      refine hvariable rfl (fun k hk => ?_) _ (by rintro rfl; rfl) (by rintro o rfl; rfl)
      cases hk
      exact site.find?_of_storage slots hstorage
    case h_3 =>
      refine hvariable rfl (fun k hk => ?_) _ (by rintro rfl; rfl) (by rintro o rfl; rfl)
      cases hk
  case member m object name =>
    split
    · exact forall_mem_append.mpr
        ⟨site.value_each slots h object, site.storeField_each slots h (hput _) op value⟩
    · simp
  all_goals simp

theorem evaluate_each (h : Covers slots P) (e : Expr) (loc : Location) :
    ∀ i ∈ site.evaluate slots e loc, P i := by
  rw [evaluate]
  split
  · exact site.value_each slots h e
  · exact forall_mem_append.mpr
      ⟨site.value_each slots h e, forall_mem_singleton.mpr (h.other _ rfl rfl)⟩

end Each

theorem value_computes (e : Expr) : Computes (site.value slots e) :=
  site.value_each slots ⟨fun _ _ _ _ _ => rfl, fun _ _ h => h⟩ e

theorem value_straight (e : Expr) : Straight (site.value slots e) :=
  (site.value_computes slots e).straight

theorem covers_straight : Covers slots (·.opcode.isControl = false) where
  load _ _ _ _ _ := rfl
  other i _ hc := by cases ho : i.opcode <;> simp_all [Opcode.computes, Opcode.isControl]

theorem assign_straight (target : Expr) (op : Option BinaryOp) (value : Expr) (loc : Location) :
    Straight (site.assign slots target op value loc) :=
  site.assign_each slots (covers_straight slots) (fun _ _ _ _ _ => rfl) (fun _ => rfl) op value

theorem evaluate_straight (e : Expr) (loc : Location) :
    Straight (site.evaluate slots e loc) :=
  site.evaluate_each slots (covers_straight slots) e loc

theorem declaration_straight (f : Frame) (name : String) (type : Ty) (init : Option Expr)
    (loc : Location) : Straight (site.declaration f name type init loc).1 := by
  cases init
  case none => exact .nil
  case some init => exact (site.value_straight f.slots init).append (.single rfl)

end Site

namespace Site

-- A statement without statements inside has no label. At most its last instruction leads away.
theorem stmt_balanced (site : Site) (loop : Option Loop) (f : Frame) {s : Stmt}
    (hb : s.hasBody = false) (hd : depthAfter? 0 (site.stmt loop f s).1 = some 0) :
    Balanced (site.stmt loop f s).1 [] := by
  cases s <;> try cases hb
  case «variable» | constant => exact (site.declaration_straight f _ _ _ _).balanced hd
  case assign => exact (site.assign_straight f.slots _ _ _ _).balanced hd
  case evaluate => exact (site.evaluate_straight f.slots _ _).balanced hd
  case result loc value =>
    cases value
    case none => exact Straight.nil.then_balanced (by simp [Instruction.plain]) hd
    case some value =>
      exact (site.value_straight f.slots value).then_balanced (by simp [Instruction.plain]) hd
  case breakLoop loc | continueLoop loc =>
    cases loop
    case none => exact .nil
    case some => exact .jump _ loc
  all_goals exact .nil

theorem Builds.balanced {site : Site} (h : site.Builds (fun _ _ => Sane site) f ps code f') :
    Balanced code ps := by
  induction h
  case nil => exact .nil
  case append h h' => exact h.append h'
  case place label loc f => exact .place label loc
  case jump label loc f => exact .jump label loc
  case condition hs he hl label loc =>
    exact (site.value_straight _ _).then_balanced
      (by simp [Instruction.jump, Instruction.withOperand])
      ((hs.condition_leaves he _ label loc).depth 0)
  case plain loop f s hs hb =>
    exact (site.stmt_balanced loop f hb ((hs.leaves hb loop f).depth 0)).first rfl
  case nested h => exact h.first rfl
  case label h => exact h
  case inBlock h => exact h

theorem stmts_balanced (site : Site) (loop : Option Loop) (f : Frame) (body : List Stmt)
    (h : ∀ p ∈ site.pieces loop f body, Sane site p.stmt) :
    Balanced (site.stmts loop f [] body).1 (site.pieces loop f body) :=
  (stmts_builds loop f body h).balanced

theorem fields_straight (site : Site) (slots : Slots) (className : String)
    (fields : List (Field Expr)) : Straight (fields.flatMap (fieldCode site slots className)) := by
  intro i hi
  obtain ⟨f, -, hi⟩ := mem_flatMap.mp hi
  rw [fieldCode] at hi
  split at hi
  case h_1 => cases hi
  case h_2 init _ =>
    split at hi
    case isTrue => cases hi
    case isFalse =>
      exact (Straight.cons rfl (site.value_straight slots init)).append (.single rfl) i hi

end Site

section Paths

variable {code : List Instruction} {ps : List Piece}

theorem take_append_cons (h : code[pc]? = some i) :
    code = code.take pc ++ i :: code.drop (pc + 1) := by
  obtain ⟨hlt, rfl⟩ := List.getElem?_eq_some_iff.mp h
  rw [← drop_eq_getElem_cons hlt, take_append_drop]

theorem take_succ (h : code[pc]? = some i) : code.take (pc + 1) = code.take pc ++ [i] := by
  rw [take_add_one, h]
  rfl

-- No instruction finds too few values, if there are enough up to the end.
theorem depthAfter?_take_succ (hend : depthAfter? 0 code = some last) (hi : code[pc]? = some i)
    (hd : depthAfter? 0 (code.take pc) = some depth) :
    i.pops ≤ depth ∧ depthAfter? 0 (code.take (pc + 1)) = some (depth - i.pops + i.pushes) := by
  have hle : i.pops ≤ depth := by
    rw [take_append_cons hi, depthAfter?_append, hd, bind_some, depthAfter?] at hend
    split at hend
    case isTrue => cases hend
    case isFalse hle => exact Nat.le_of_not_lt hle
  rw [take_succ hi, depthAfter?_append, hd, bind_some, depthAfter?_single, if_neg (by omega)]
  exact ⟨hle, rfl⟩

structure InOrder (code : List Instruction) (place : Nat × Nat) : Prop where
  lt    : place.1 < code.length
  depth : depthAfter? 0 (code.take place.1) = some place.2

-- One step of control ends where reading in order does.
theorem Flows.inOrder (hf : Flows code here there) (h : Balanced code ps)
    (hlast : code.getLast?.any (·.opcode = .ret)) (hin : InOrder code here) :
    InOrder code there := by
  cases hf
  case next pc depth i hi hp hj hr =>
    refine ⟨?_, (depthAfter?_take_succ h.ends hi hin.depth).2⟩
    -- The last instruction leads nowhere.
    refine Nat.lt_of_le_of_ne hin.lt fun hend => hr ?_
    have hget : code.getLast? = some i := by
      rw [getLast?_eq_getElem?, ← hi, ← hend]
      rfl
    simpa [hget] using hlast
  case jump pc depth target i j hi hp hj ht hl hsame =>
    have hzero := (depthAfter?_take_succ h.ends hi hin.depth).2
    have hjump := (h.level _ i _ (take_append_cons hi)).jump hj
    rw [← take_succ hi, hzero, Option.some.injEq] at hjump
    refine ⟨(List.getElem?_eq_some_iff.mp ht).1, ?_⟩
    rw [hjump]
    exact (h.level _ j _ (take_append_cons ht)).label hl

theorem inOrder_of_flow (h : Balanced code ps) (hlast : code.getLast?.any (·.opcode = .ret))
    (hf : Relation.ReflTransGen (Flows code) (0, 0) place) : InOrder code place := by
  induction hf
  case refl =>
    refine ⟨length_pos_iff.mpr ?_, rfl⟩
    rintro rfl
    cases hlast
  case tail hstep ih => exact hstep.inOrder h hlast ih

-- The measure of the stack bounds the depth at every place.
theorem depth_le_of_stackDepth (h : stackDepth depth deepest index code = .ok n)
    (hd : depth ≤ deepest) :
    deepest ≤ n ∧ ∀ pc d, depthAfter? depth (code.take pc) = some d → d ≤ n := by
  induction code generalizing depth deepest index
  case nil =>
    cases h
    refine ⟨Nat.le_refl _, fun pc d htake => ?_⟩
    rw [take_nil] at htake
    cases htake
    exact hd
  case cons i code ih =>
    rw [stackDepth] at h
    split at h
    case isTrue => cases h
    case isFalse hp =>
      obtain ⟨hle, hrest⟩ := ih h (Nat.le_max_right _ _)
      have hdeepest : deepest ≤ n := (Nat.le_max_left _ _).trans hle
      refine ⟨hdeepest, fun pc d htake => ?_⟩
      cases pc
      case zero =>
        cases htake
        exact hd.trans hdeepest
      case succ pc =>
        rw [take_succ_cons, depthAfter?, if_neg hp] at htake
        exact hrest pc d htake

end Paths

-- Wherever control can be in a routine, there are enough values for the next instruction and not
-- more than the routine tells. None is left where a label stands or where a statement starts.
structure Routine.Steady (r : Routine) (pieces : List Piece) : Prop where
  placed : ∀ p ∈ pieces, p.before ++ p.code <+: r.code
  depth  : ∀ pc depth, Relation.ReflTransGen (Flows r.code) (0, 0) (pc, depth) →
    depth ≤ r.maxStack ∧
    (∃ i, r.code[pc]? = some i ∧ i.pops ≤ depth ∧ depth - i.pops + i.pushes ≤ r.maxStack ∧
      (i.opcode = .label → depth = 0)) ∧
    ∀ p ∈ pieces, p.before.length = pc → depth = 0

theorem getLast?_finished (code : List Instruction) (loc : Location) :
    (finished code loc).getLast?.any (·.opcode = .ret) := by
  rw [finished]
  split
  case isTrue h => exact h
  case isFalse => simp [Instruction.plain]

theorem Balanced.finished (h : Balanced code ps) (loc : Location) :
    Balanced (finished code loc) ps := by
  rw [Code.finished]
  split
  case isTrue => exact h
  case isFalse =>
    exact h.append_nil (Straight.nil.then_balanced (by simp [Instruction.plain]) rfl)

theorem Routine.steady_ofBody {site : Site} {code : List Instruction} (h : Balanced code ps)
    (hplaced : Placed site code ps) (name : String) (kind : Kind) (isInstance : Bool)
    (slots : Slots) (loc : Location) : (ofBody name kind isInstance code slots loc).Steady ps := by
  rw [ofBody_eq]
  have hb := h.finished loc
  have hlast := getLast?_finished code loc
  obtain ⟨n, hn⟩ := (exists_stackDepth_iff 0 0 0 (Code.finished code loc)).mpr (by simp [hb.ends])
  have hmax : (ofCode name kind isInstance (Code.finished code loc) slots.locals).maxStack = n := by
    simp [ofCode, measure, hn]
  have hbound := (depth_le_of_stackDepth hn (Nat.le_refl 0)).2
  refine ⟨fun p hp => (hplaced.finished loc p hp).2, fun pc depth hflow => ?_⟩
  obtain ⟨hlt, hdepth⟩ := inOrder_of_flow hb hlast hflow
  rw [hmax]
  refine ⟨hbound pc depth hdepth, ?_, fun p hp hpc => ?_⟩
  · obtain ⟨i, hi⟩ : ∃ i, (Code.finished code loc)[pc]? = some i :=
      ⟨_, getElem?_eq_getElem hlt⟩
    obtain ⟨hpops, hnext⟩ := depthAfter?_take_succ hb.ends hi hdepth
    refine ⟨i, hi, hpops, hbound _ _ hnext, fun hl => ?_⟩
    have hzero := (hb.level _ i _ (take_append_cons hi)).label hl
    exact Option.some.inj (hdepth.symm.trans hzero)
  · have htake : (Code.finished code loc).take pc = p.before := by
      obtain ⟨rest, hrest⟩ := (hplaced.finished loc p hp).2
      rw [← hrest, append_assoc, ← hpc, take_left]
    rw [htake, hb.pieces p hp] at hdepth
    exact (Option.some.inj hdepth).symm

theorem Lowered.Valued.steadies {r : Lowered} (h : r.Valued c) : r.routine.Steady r.pieces := by
  obtain ⟨name, kind, isInstance, code, slots, loc, hmade, heq⟩ := h.made
  rw [heq]
  cases hmade
  case body hs =>
    exact Routine.steady_ofBody (Site.stmts_balanced _ none _ _ hs) (Site.stmts_placed _ _ _ _) ..
  case fields owner fields slots hp hg hf hv hu =>
    have hdepth := (Site.fields_leave slots hg hf hv hu).depth 0
    rw [hp]
    exact Routine.steady_ofBody ((Site.fields_straight _ slots owner fields).balanced hdepth)
      (.nil (constructorSite c owner) _) ..

end Code

-- Every path of control through the code of an accepted program finds the values it needs, if
-- everything has a value that is used as one.
theorem Compilation.steady {source : String} {c : Compilation}
    (h : ofSource .strict source = .ok c) (hv : c.checked.Valued) :
    (Code.lowered c.checked).map Code.Lowered.routine = c.routines ∧
      ∀ r ∈ Code.lowered c.checked, r.routine.Steady r.pieces := by
  obtain ⟨hchecked, hsound, hroutines⟩ := ofSource_strict h
  have haccepted := Checked.accepted_ofSource source (hchecked ▸ hsound)
  rw [← hchecked] at haccepted
  rw [hroutines]
  exact ⟨Code.routine_lowered _,
    fun r hr => (Code.lowered_valued haccepted hv r hr).steadies⟩

theorem Compilation.steady_loop :
    ∃ c, ofSource .strict
        ("class A \x7b int n; int f() \x7b while (n < 2) \x7b n += 1; break; \x7d " ++
          "return n; \x7d \x7d") = .ok c ∧
      c.checked.Valued ∧ (Code.lowered c.checked).map Code.Lowered.routine = c.routines ∧
        ∀ r ∈ Code.lowered c.checked, r.routine.Steady r.pieces :=
  exists_ok_and (by decide +kernel) fun _ hc hv => steady hc hv

end Lumen
