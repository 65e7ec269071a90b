import Lumen.Proofs.Code.Values

namespace Lumen

open Typing
open List hiding count
open Option

namespace Code

def Opcode.operator? : Opcode → Option BinaryOp
  | .add => some .add | .sub => some .sub | .mul => some .mul | .div => some .div
  | .mod => some .mod | .pow => some .pow
  | .eq => some .eq | .ne => some .ne | .lt => some .lt | .le => some .le | .gt => some .gt
  | .ge => some .ge
  | .and => some .and | .or => some .or
  | _ => none

def resultOn? (op : BinaryOp) : List Ty → Option Ty
  | right :: left :: _ => op.result? left right
  | _ => none

namespace Instruction

def types (i : Instruction) (stack : List Ty) : List Ty :=
  List.replicate i.pushes i.type ++ stack.drop i.pops

-- Whether an operator carries another type than it gives, if it finds two operands that it takes.
def misfit? (i : Instruction) (stack : List Ty) : Option Bool :=
  match i.opcode.operator? with
  | none => some false
  | some op => (resultOn? op stack).map (i.type ≠ ·)

end Instruction

def typesAfter (stack : List Ty) : List Instruction → List Ty
  | [] => stack
  | i :: code => typesAfter (i.types stack) code

-- Where such operators stand, if all operators find their operands.
def misfits? (stack : List Ty) : List Instruction → Option (List Nat)
  | [] => some []
  | i :: code => do
    let wrong ← i.misfit? stack
    let rest ← misfits? (i.types stack) code
    return (if wrong then [0] else []) ++ rest.map (· + 1)

-- The operator of an assignment stands in front of the instruction that stores.
def Piece.operatorAt (p : Piece) : Nat :=
  p.before.length + (p.code.length - 2)

end Code

-- A compound assignment whose operator gives a `float` for a target that holds an `int`.
def Stmt.narrows (c : Checked) : Stmt → Bool
  | .assign _ target (some _) value => c.typeOf target = .int ∧ c.typeOf value = .float
  | _ => false

theorem BinaryOp.result?_assignable {op : BinaryOp} (h : op.result? target value = some type)
    (ha : target.assignable type) (ht : target.Storable) (he : target ≠ .error) :
    target ≠ type ↔ target = .int ∧ value = .float := by
  rw [BinaryOp.result?.eq_def] at h
  grind [Ty.assignable, Ty.isPrimitive, Ty.Storable]

def Ty.values (type : Ty) : List Ty :=
  if type = .void then [] else [type]

theorem Ty.values_eq {type : Ty} (h : type ≠ .void) : type.values = [type] :=
  if_neg h

namespace Code

variable {code rest : List Instruction}

theorem Opcode.operator?_ofBinary (op : BinaryOp) : (ofBinary op).operator? = some op := by
  cases op <;> rfl

theorem typesAfter_append (stack : List Ty) (code rest : List Instruction) :
    typesAfter stack (code ++ rest) = typesAfter (typesAfter stack code) rest := by
  induction code generalizing stack
  case nil => rfl
  case cons i code ih => exact ih _

theorem misfits?_append (stack : List Ty) (code rest : List Instruction) :
    misfits? stack (code ++ rest) = (misfits? stack code).bind fun own =>
      (misfits? (typesAfter stack code) rest).map fun more =>
        own ++ more.map (· + code.length) := by
  induction code generalizing stack
  case nil => simp [misfits?, typesAfter]
  case cons i code ih =>
    simp only [cons_append, misfits?, typesAfter, ih]
    cases i.misfit? stack <;> cases misfits? (i.types stack) code <;>
      cases misfits? (typesAfter (i.types stack) code) rest <;> simp [Nat.add_assoc]

-- Code that leaves the given types on any stack, with misfits at some places. The last type is the
-- first of the list.
structure Leaves (code : List Instruction) (left : List Ty) (misfits : List Nat) : Prop where
  depth   : ∀ depth, depthAfter? depth code = some (depth + left.length)
  types   : ∀ stack, typesAfter stack code = left ++ stack
  misfits : ∀ stack, misfits? stack code = some misfits

namespace Leaves

variable {left more taken : List Ty} {ks ns : List Nat} {wrong : Bool} {i : Instruction}
  {op : BinaryOp} {l r type : Ty}

theorem nil : Leaves [] [] [] :=
  ⟨fun _ => rfl, fun _ => rfl, fun _ => rfl⟩

theorem append (h : Leaves code left ks) (h' : Leaves rest more ns) :
    Leaves (code ++ rest) (more ++ left) (ks ++ ns.map (· + code.length)) where
  depth depth := by
    rw [depthAfter?_append, h.depth, bind_some, h'.depth, length_append]
    congr 1
    omega
  types stack := by rw [typesAfter_append, h.types, h'.types, append_assoc]
  misfits stack := by
    rw [misfits?_append, h.misfits, bind_some, h'.misfits, map_some]

theorem and_then (h : Leaves code (taken ++ left) ks) (hp : taken.length = i.pops)
    (hm : ∀ stack, i.misfit? (taken ++ stack) = some b) :
    Leaves (code ++ [i]) (List.replicate i.pushes i.type ++ left)
      (ks ++ if b then [code.length] else []) where
  depth depth := by
    rw [depthAfter?_append, h.depth, bind_some, depthAfter?_single]
    grind
  types stack := by
    rw [typesAfter_append, h.types, typesAfter, typesAfter, Instruction.types, ← hp,
      append_assoc, drop_left, append_assoc]
  misfits stack := by
    rw [misfits?_append, h.misfits, h.types, append_assoc]
    cases b <;> simp [misfits?, hm]

theorem and_last (h : Leaves code taken ks) (hp : taken.length = i.pops)
    (ho : i.opcode.operator? = none) :
    Leaves (code ++ [i]) (List.replicate i.pushes i.type) ks := by
  rw [← append_nil taken] at h
  have hfits (stack : List Ty) : i.misfit? (taken ++ stack) = some false := by
    simp [Instruction.misfit?, ho]
  simpa using h.and_then hp hfits

theorem single (hp : i.pops = 0) (ho : i.opcode.operator? = none) :
    Leaves [i] (List.replicate i.pushes i.type) [] :=
  nil.and_last hp.symm ho

theorem valued (h : Leaves code type.values ks) (hv : type ≠ .void) : Leaves code [type] ks :=
  Ty.values_eq hv ▸ h

theorem operator (h : Leaves code (r :: l :: left) ks) (hr : op.result? l r = some type)
    (carried : Ty) (loc : Location) :
    Leaves (code ++ [.plain (.ofBinary op) carried loc]) (carried :: left)
      (ks ++ if decide (carried ≠ type) then [code.length] else []) := by
  have htaken : Leaves code ([r, l] ++ left) ks := h
  have hmisfit (stack : List Ty) : (Instruction.plain (.ofBinary op) carried loc).misfit?
      ([r, l] ++ stack) = some (decide (carried ≠ type)) := by
    simp only [Instruction.misfit?, Instruction.plain, Opcode.operator?_ofBinary, cons_append,
      nil_append, resultOn?, hr, map_some]
    rfl
  cases op <;> exact htaken.and_then rfl hmisfit

-- What is stored is what the operator gives.
theorem stored (h : Leaves code (r :: l :: left) []) (hr : op.result? l r = some type)
    (carried : Ty) (loc : Location) (hp : left.length + 1 = i.pops) (hq : i.pushes = 0)
    (ho : i.opcode.operator? = none) :
    Leaves (code ++ [.plain (.ofBinary op) carried loc, i]) []
      (if decide (carried ≠ type) then
        [(code ++ [.plain (.ofBinary op) carried loc, i]).length - 2] else []) := by
  simpa [hq] using (h.operator hr carried loc).and_last hp ho

end Leaves

structure Apt (site : Site) (env : Environment) : Prop where
  receiver : ∀ owner ∈ env.receiver?, site.className = some owner
  valued   : env.Valued

namespace Site

variable {env : Environment} {site : Site} {ks : List Nat}

theorem receiver_leaves (site : Site) (slots : Slots) (loc : Location) :
    Leaves [site.receiver slots loc] [(site.receiver slots loc).type] [] :=
  .single rfl rfl

theorem receiver_type (hs : Apt site env) (h : env.receiverType = .ok type) (slots : Slots)
    (loc : Location) : (site.receiver slots loc).type = type := by
  rw [Environment.receiverType] at h
  cases howner : env.receiver? <;> rw [howner] at h <;> cases h
  case some.refl owner =>
    rw [receiver, hs.receiver owner howner]
    rfl

theorem variable_leaves (slots : Slots) (m : Mark) (name : String) :
    Leaves (site.value slots (.variable m name)) [site.program.typeAt m.id] [] := by
  simp only [value]
  split
  case h_1 => exact .single rfl rfl
  case h_2 => exact (site.receiver_leaves slots m.loc).and_last rfl rfl
  case h_3 => exact .single rfl rfl

theorem call_leaves (h : Leaves code taken ks) (target : String) (type : Ty) (loc : Location)
    (hc : taken.length = count) :
    Leaves (code ++ [.withOperand .call (.call target count) type loc]) type.values ks := by
  have hcall := h.and_last (i := .withOperand .call (.call target count) type loc) hc rfl
  rw [Ty.values]
  split <;> simpa [Instruction.pushes, Instruction.produces, Instruction.withOperand, *] using hcall

mutual

theorem value_leaves (hs : Apt site env) (slots : Slots) (e : Expr)
    (h : e.Typed site.program env) (hu : ∀ p ∈ e.operands, site.program.typeOf p ≠ .void) :
    Leaves (site.value slots e) (site.program.typeOf e).values [] := by
  -- Only a call may leave nothing.
  have hone (hc : e.isCall = false) (hl : Leaves (site.value slots e) [site.program.typeOf e] []) :
      Leaves (site.value slots e) (site.program.typeOf e).values [] :=
    Ty.values_eq (hs.valued.typeOf_ne_void h hc) ▸ hl
  cases e <;> rw [Expr.Typed] at h <;> simp only [Expr.operands, cons_append,
    forall_mem_cons, forall_mem_append] at hu
  case literal m v => exact hone rfl (.single rfl rfl)
  case «variable» m name => exact hone rfl (variable_leaves slots m name)
  case receiver m =>
    refine hone rfl ?_
    have hreceiver := site.receiver_leaves slots m.loc
    rwa [receiver_type hs h] at hreceiver
  case binary m op left right =>
    have hleft := (value_leaves hs slots left h.1 hu.2.1).valued hu.1
    have hright := (value_leaves hs slots right h.2.1 hu.2.2.2).valued hu.2.2.1
    have hboth := (hleft.append hright).operator h.2.2 (site.program.typeAt m.id) m.loc
    rw [if_neg (by simp)] at hboth
    exact hone rfl hboth
  case unary m op operand =>
    have hoperand := (value_leaves hs slots operand h.1 hu.2).valued hu.1
    refine hone rfl ?_
    cases op <;> exact hoperand.and_last rfl rfl
  case call m name args =>
    have hargs := values_leave hs slots args h.1 hu
    simp only [value]
    split
    case isTrue =>
      exact call_leaves ((site.receiver_leaves slots m.loc).append hargs) _ _ m.loc (by simp)
    case isFalse => exact call_leaves hargs _ _ m.loc (by simp)
  case invoke m object name args =>
    obtain ⟨hargs, className, signature, htype, -, -, hobject⟩ := h
    have hargs := values_leave hs slots args hargs hu.2.2
    have hobject : Leaves (site.value slots object) [.object className] [] := by
      rw [← htype]
      rcases hobject with ⟨mark, hnamed, -⟩ | ⟨-, hobject, -⟩
      · rw [(Environment.namedClass?_some hnamed).1]
        exact variable_leaves slots mark className
      · exact (value_leaves hs slots object hobject hu.2.1).valued hu.1
    simp only [value, htype]
    split
    case isTrue => exact call_leaves hargs _ _ m.loc (by simp)
    case isFalse =>
      split
      case isTrue =>
        have hpop :
            Leaves (site.value slots object ++ [.plain .pop (.object className) m.loc]) [] [] :=
          hobject.and_last rfl rfl
        have hall : Leaves (site.value slots object ++
            .plain .pop (.object className) m.loc :: site.values slots args)
            (args.map site.program.typeOf).reverse [] := by
          simpa using hpop.append hargs
        exact call_leaves hall _ _ m.loc (by simp)
      case isFalse => exact call_leaves (hobject.append hargs) _ _ m.loc (by simp)
  case member m object name =>
    obtain ⟨hobject, className, symbol, htype, -⟩ := h
    have hobject := (value_leaves hs slots object hobject hu.2).valued hu.1
    refine hone rfl ?_
    simp only [value, htype]
    exact hobject.and_last rfl rfl
  case create m type args =>
    obtain ⟨hargs, className, rfl, -⟩ := h
    have hargs := values_leave hs slots args hargs hu
    set created := site.program.typeAt m.id
    have hnew : Leaves [.withOperand .create (.symbol className) created m.loc,
        .plain .dup created m.loc] [created, created] [] :=
      Leaves.and_last (.single rfl rfl) rfl rfl
    -- The constructor takes one of the two objects.
    have hall : Leaves (.withOperand .create (.symbol className) created m.loc ::
        .plain .dup created m.loc :: site.values slots args)
        ((args.map site.program.typeOf).reverse ++ [created] ++ [created]) [] := by
      simpa using hnew.append hargs
    have hcreated := hall.and_then (b := false)
      (i := .withOperand .construct (.call (fullName (some className) constructorName)
        (args.length + 1)) .void m.loc)
      (by simp [Instruction.pops, Instruction.count, Instruction.withOperand]) fun _ => rfl
    exact hone rfl hcreated
  case stray => exact h.elim

theorem values_leave (hs : Apt site env) (slots : Slots) (es : List Expr)
    (h : TypedArgs site.program env es)
    (hu : ∀ p ∈ operandsOf es, site.program.typeOf p ≠ .void) :
    Leaves (site.values slots es) (es.map site.program.typeOf).reverse [] := by
  cases es
  case nil => exact .nil
  case cons e es =>
    simp only [operandsOf, cons_append, forall_mem_cons, forall_mem_append] at hu
    rw [map_cons, reverse_cons]
    exact ((value_leaves hs slots e h.1 hu.2.1).valued hu.1).append
      (values_leave hs slots es h.2 hu.2.2)

end

theorem needed_leaves (hs : Apt site env) (slots : Slots) {e : Expr}
    (h : e.Typed site.program env) (hu : (Use.needed e).Valued site.program) :
    Leaves (site.value slots e) [site.program.typeOf e] [] := by
  obtain ⟨hown, hparts⟩ := forall_mem_cons.mp hu
  exact (value_leaves hs slots e h hparts).valued hown

theorem taken_leaves (hs : Apt site env) (slots : Slots) {e : Expr} {i : Instruction}
    (h : e.Typed site.program env) (hu : (Use.needed e).Valued site.program) (hp : i.pops = 1)
    (hq : i.pushes = 0) (ho : i.opcode.operator? = none) :
    Leaves (site.value slots e ++ [i]) [] [] := by
  simpa [hq] using (needed_leaves hs slots h hu).and_last hp.symm ho

theorem evaluate_leaves (hs : Apt site env) (slots : Slots) {e : Expr} (loc : Location)
    (h : e.Typed site.program env) (hu : (Use.dropped e).Valued site.program) :
    Leaves (site.evaluate slots e loc) [] [] := by
  have hvalue := value_leaves hs slots e h hu
  rw [evaluate]
  split
  case isTrue hv => simpa [Ty.values, hv] using hvalue
  case isFalse hv => exact (hvalue.valued hv).and_last rfl rfl

variable {slots : Slots} {loc : Location} {value : Expr} {op : Option BinaryOp} {type : Ty}
  {wrong : Bool}

-- The operator of an assignment, if there is one, is a misfit as told.
def Stores (target value : Ty) (wrong : Bool) : Option BinaryOp → Prop
  | none => wrong = false
  | some op => ∃ type, op.result? target value = some type ∧ wrong = decide (target ≠ type)

-- The operator is the last instruction but one.
def misfitIf (wrong : Bool) (code : List Instruction) : List Nat :=
  if wrong then [code.length - 2] else []

theorem storeField_leaves (hc : Leaves code [object] [])
    (hv : Leaves (site.value slots value) [site.program.typeOf value] []) (className name : String)
    (hop : Stores type (site.program.typeOf value) wrong op) :
    Leaves (code ++ site.storeField slots className name type op value loc) []
      (misfitIf wrong (code ++ site.storeField slots className name type op value loc)) := by
  cases op
  case none =>
    cases hop
    rw [storeField, ← append_assoc]
    exact (hc.append hv).and_last rfl rfl
  case some op =>
    obtain ⟨result, hresult, rfl⟩ := hop
    have hdup : Leaves (code ++ [.plain .dup (.object className) loc])
        ([.object className] ++ [.object className]) [] :=
      hc.and_last rfl rfl
    have hold : Leaves (code ++ [.plain .dup (.object className) loc] ++ [.withOperand .getField
        (.symbol (fullName (some className) name)) type loc]) [type, .object className] [] :=
      hdup.and_then (b := false) rfl fun _ => rfl
    have hnew := Leaves.stored (hold.append hv) hresult type loc
      (i := .withOperand .putField (.symbol (fullName (some className) name)) type loc) rfl rfl rfl
    simpa [storeField, misfitIf] using hnew

theorem storeVariable_leaves
    (hv : Leaves (site.value slots value) [site.program.typeOf value] []) (name : String)
    (slot : Option Nat) (hcode : code = match op with
      | none => site.value slots value ++ [.access .store name type slot loc]
      | some op => .access .load name type slot loc :: site.value slots value ++
          .plain (.ofBinary op) type loc :: [.access .store name type slot loc])
    (hop : Stores type (site.program.typeOf value) wrong op) :
    Leaves code [] (misfitIf wrong code) := by
  subst hcode
  cases op
  case none =>
    cases hop
    exact hv.and_last rfl rfl
  case some op =>
    obtain ⟨result, hresult, rfl⟩ := hop
    have hold : Leaves [.access .load name type slot loc] [type] [] := .single rfl rfl
    have hnew := Leaves.stored (hold.append hv) hresult type loc
      (i := .access .store name type slot loc) rfl rfl rfl
    simpa [misfitIf] using hnew

variable {W : String → Prop} {g : Setting} {kind : Routine.Kind} {className : Option String}
  {names : Names}

theorem storable_target {target : Expr} (henv : env.Valued) (ht : target.Typed c env)
    (hi : target.isTarget) : (c.typeOf target).Storable := by
  cases target <;> try cases hi
  case «variable» m name => exact henv.storable_variable ht
  case member m object name =>
    obtain ⟨-, className, symbol, -, hsymbol, hkind, htype⟩ := ht
    have hstorable := henv.storable_field hsymbol hkind
    rwa [← htype] at hstorable

-- Either the operator gives the type of the target, or the target is narrower.
theorem stores_assign {target : Expr} (hv : g.Assigns names target op value)
    (ht : (g.program.typeOf target).Storable)
    (hn : g.program.isFaultyStmt (.assign loc target op value) = false) :
    Stores (g.program.typeOf target) (g.program.typeOf value)
      ((Stmt.assign loc target op value).narrows g.program) op := by
  simp only [Checked.isFaultyStmt, Bool.or_eq_false_iff] at hn
  have he := Checked.typeOf_ne_error hn.1
  rcases hv.stored with htarget | hvalue | ⟨type, hstored, hassignable⟩
  · exact absurd htarget he
  · exact absurd hvalue (Checked.typeOf_ne_error hn.2)
  · cases op
    case none => rfl
    case some op =>
      have hiff := BinaryOp.result?_assignable hstored hassignable ht he
      exact ⟨type, hstored, decide_eq_decide.mpr hiff.symm⟩

theorem assign_leaves {target : Expr} (hs : Apt (g.site kind className) (g.environment names))
    (hf : (Stmt.assign loc target op value).Formed W) (hv : g.Assigns names target op value)
    (hn : g.program.isFaultyStmt (.assign loc target op value) = false)
    (hu : ∀ u ∈ target.targetUses ++ [.needed value], u.Valued g.program) :
    Leaves ((g.site kind className).assign slots target op value loc) []
      (misfitIf ((Stmt.assign loc target op value).narrows g.program)
        ((g.site kind className).assign slots target op value loc)) := by
  obtain ⟨hnt, hnv⟩ := Bool.or_eq_false_iff.mp hn
  have htarget := typed_of_admits hf.2.2.1 hv.reads hnt
  have hvalue : Leaves ((g.site kind className).value slots value) [g.program.typeOf value] [] :=
    needed_leaves hs slots (typed_of_admits hf.2.2.2 hv.admits hnv) (hu _ (by simp))
  have hop := stores_assign hv (storable_target hs.valued htarget hf.1) hn
  generalize (Stmt.assign loc target op value).narrows g.program = wrong at hop
  cases target
  case «variable» m name =>
    simp only [assign]
    split
    case h_1 owner _ => exact storeField_leaves (receiver_leaves _ slots loc) hvalue owner name hop
    case h_2 slot _ => exact storeVariable_leaves hvalue name (some slot) rfl hop
    case h_3 => exact storeVariable_leaves hvalue name none rfl hop
  case member m object name =>
    have hobject := needed_leaves hs slots htarget.1 (hu _ (by simp [Expr.targetUses]))
    obtain ⟨-, owner, symbol, htype, -⟩ := htarget
    have htype : (g.site kind className).program.typeOf object = .object owner := htype
    simp only [assign, htype]
    exact storeField_leaves hobject hvalue owner name hop
  all_goals cases hf.1

theorem declaration_leaves (f : Frame) (hs : Apt (g.site kind className) (g.environment names))
    (name : String) (type : Ty) (loc : Location) (hf : FormedOption W init)
    (ha : ∀ e ∈ init, g.Admits names e) (hn : init.any g.program.isFaulty = false)
    (hu : ∀ u ∈ usesOfOption init, u.Valued g.program) :
    Leaves ((g.site kind className).declaration f name type init loc).1 [] [] := by
  cases init
  case none => exact .nil
  case some init =>
    exact taken_leaves hs f.slots (typed_of_admits hf (ha init rfl) hn)
      (hu _ mem_cons_self) rfl rfl rfl

theorem result_leaves {value : Option Expr} (slots : Slots)
    (hs : Apt (g.site kind className) (g.environment names)) (loc : Location)
    (hf : FormedOption W value) (hv : g.Results names value)
    (hn : value.any g.program.isFaulty = false)
    (hu : ∀ u ∈ usesOfOption value, u.Valued g.program) :
    Leaves ((g.site kind className).result slots value loc) [] [] := by
  cases value
  case none => exact .single rfl rfl
  case some value =>
    have hne : g.returns ≠ .void := fun hvoid => Checked.typeOf_ne_error hn (hv.2.1 hvoid)
    have htype : (g.site kind className).returns ≠ .void := hne
    simp only [result, if_neg htype]
    exact taken_leaves hs slots (typed_of_admits hf hv.1 hn) (hu _ mem_cons_self)
      (if_neg hne) rfl rfl

theorem stmt_leaves {inLoop : Bool} {s : Stmt}
    (hs : Apt (g.site kind className) (g.environment names))
    (h : s.Met g (·.declared.typeIn g.program |>.Storable) looked uses names inLoop)
    (hu : ∀ u ∈ uses, u.Valued g.program) (hb : s.hasBody = false) (loop : Option Loop)
    (f : Frame) :
    Leaves ((g.site kind className).stmt loop f s).1 []
      (misfitIf (s.narrows g.program) ((g.site kind className).stmt loop f s).1) := by
  obtain ⟨-, hf, hv, hfills, hn, -, huses⟩ := h
  have hu : ∀ u ∈ s.uses g.program, u.Valued g.program := fun u hmem => hu u (huses hmem)
  cases s <;> try cases hb
  case «variable» loc name type init =>
    simp only [Checked.isFaultyStmt, Bool.or_eq_false_iff] at hn
    exact declaration_leaves f hs name _ loc hf.2.2.1 (hfills _ rfl).admits hn.2 hu
  case constant loc name type value =>
    simp only [Checked.isFaultyStmt, Bool.or_eq_false_iff] at hn
    have hf : FormedOption Token.IsName (some value) := hf.2.2
    exact declaration_leaves f hs name _ loc hf (hfills _ rfl).admits hn.2 hu
  case assign loc target op value => exact assign_leaves hs hf (hv rfl) hn hu
  case result loc value => exact result_leaves f.slots hs loc hf (hv rfl) hn hu
  case evaluate loc e =>
    exact evaluate_leaves hs f.slots loc (typed_of_admits hf (hv rfl) hn) (hu _ mem_cons_self)
  case breakLoop loc | continueLoop loc =>
    cases loop
    case none => exact .nil
    case some => exact .single rfl rfl
  all_goals exact (hv rfl).elim

end Site

namespace Sane

variable {site : Site} {s : Stmt}

theorem leaves (h : Sane site s) (hb : s.hasBody = false) (loop : Option Loop) (f : Frame) :
    Leaves (site.stmt loop f s).1 []
      (Site.misfitIf (s.narrows site.program) (site.stmt loop f s).1) := by
  obtain ⟨g, kind, className, looked, uses, rfl, hr, hg, hu, names, inLoop, hmet⟩ := h
  exact Site.stmt_leaves ⟨hr, hg names hmet.all⟩ hmet hu hb loop f

theorem condition_leaves (h : Sane site s) (he : s.condition? = some e) (slots : Slots)
    (label : Nat) (loc : Location) :
    Leaves (site.value slots e ++ [.jump .jumpIfFalse label loc]) [] [] := by
  obtain ⟨g, kind, className, looked, uses, rfl, hr, hg, hu, names, inLoop, hmet⟩ := h
  obtain ⟨hf, ⟨names, hnames, hv⟩, hn, hmem⟩ := condition_met hmet (suits_valued g) he
  exact Site.taken_leaves ⟨hr, hg names hnames⟩ slots (Site.typed_of_admits hf hv.admits hn)
    (hu _ hmem) rfl rfl rfl

end Sane

namespace Site

-- There is one misfit in each statement that narrows, and none elsewhere.
theorem Builds.leaves {site : Site} (h : site.Builds (fun _ _ => Sane site) f ps code f') :
    Leaves code [] ((ps.filter (·.stmt.narrows site.program)).map Piece.operatorAt) := by
  induction h
  case nil => exact .nil
  case append h h' =>
    have hshift (front : List Instruction) (p : Piece) :
        (p.behind front).operatorAt = p.operatorAt + front.length := by
      simp only [Piece.operatorAt, Piece.behind, Piece.code, length_append]
      omega
    rw [filter_append, map_append, List.filter_map, List.map_map]
    have hsame (front : List Instruction) (p : Piece) : (p.behind front).stmt = p.stmt := rfl
    simpa [Function.comp_def, hshift, hsame] using h.append h'
  case place label loc f => exact .single rfl rfl
  case jump label loc f => exact .single rfl rfl
  case condition hs he hl label loc => exact hs.condition_leaves he _ label loc
  case plain loop f s hs hb =>
    cases hn : s.narrows site.program <;>
      simpa [hn, misfitIf, Piece.operatorAt, Piece.code] using hs.leaves hb loop f
  case nested loop f s ps hs hb h hi =>
    have hidle : s.narrows site.program = false := by
      cases s <;> cases hb <;> rfl
    rwa [filter_cons_of_neg (by simp [hidle])]
  case label hi => exact hi
  case inBlock hi => exact hi

variable {W : String → Prop}

theorem field_leaves {c : Checked} {f : Field Expr} (slots : Slots)
    (hg : (c.fieldSetting owner).Valued) (hf : f.Formed W) (hv : ValidField c owner f)
    (hu : ∀ u ∈ fieldUses c f, u.Valued c) :
    Leaves (fieldCode (constructorSite c owner) slots owner f) [] [] := by
  obtain ⟨name, type, init, isConst, loc⟩ := f
  have hs : Apt (constructorSite c owner) ((c.fieldSetting owner).environment ⟨[], 0⟩) :=
    ⟨fun _ ho => ho, hg _ (by rintro _ _ ⟨⟩)⟩
  cases init
  case none => exact .nil
  case some init =>
    have hprogram : (constructorSite c owner).program = c := rfl
    cases hn : c.isFaulty init
    case true =>
      simp only [fieldCode, hprogram, hn]
      exact .nil
    case false =>
      have hinit := needed_leaves hs slots (typed_of_admits hf.2.2.1 (hv.admits init rfl) hn)
        (hu _ (by simp [fieldUses, filter_some, hn, usesOfOption]))
      simp only [fieldCode, hprogram, hn]
      exact ((receiver_leaves _ slots loc).append hinit).and_last rfl rfl

theorem fields_leave {c : Checked} {owner : String} {fields : List (Field Expr)} (slots : Slots)
    (hg : (c.fieldSetting owner).Valued) (hf : ∀ f ∈ fields, f.Formed W)
    (hv : ∀ f ∈ fields, ValidField c owner f)
    (hu : ∀ u ∈ fields.flatMap (fieldUses c), u.Valued c) :
    Leaves (fields.flatMap (fieldCode (constructorSite c owner) slots owner)) [] [] := by
  induction fields
  case nil => exact .nil
  case cons f fields ih =>
    obtain ⟨hff, hfr⟩ := forall_mem_cons.mp hf
    obtain ⟨hvf, hvr⟩ := forall_mem_cons.mp hv
    rw [flatMap_cons, forall_mem_append] at hu
    exact (field_leaves slots hg hff hvf hu.1).append (ih hfr hvr hu.2)

end Site

theorem Leaves.finished (h : Leaves code [] ks) (loc : Location) :
    Leaves (finished code loc) [] ks := by
  rw [Code.finished]
  split
  case isTrue => exact h
  case isFalse => exact h.and_last rfl rfl

theorem Lowered.Valued.misfits {r : Lowered} {c : Checked} (h : r.Valued c) :
    misfits? [] r.routine.code =
      some ((r.pieces.filter (·.stmt.narrows c)).map Piece.operatorAt) := by
  obtain ⟨name, kind, isInstance, code, slots, loc, hmade, heq⟩ := h.made
  rw [heq, Routine.ofBody_eq, ← h.program]
  cases hmade
  case body hs =>
    have hbuilds : r.site.Builds (fun _ _ => Sane r.site) r.frame r.pieces _ _ :=
      Site.stmts_builds none r.frame r.body hs
    exact (hbuilds.leaves.finished loc).misfits []
  case fields owner fields slots hp hg hf hv hu =>
    rw [hp]
    exact ((Site.fields_leave slots hg hf hv hu).finished loc).misfits []

end Code

-- Every operator in the code of an accepted program finds two operands that it takes, if everything
-- has a value that is used as one. All carry the types that they give, but for the operators of the
-- assignments that narrow a `float` to an `int`.
theorem Compilation.operator_types {source : String} {c : Compilation}
    (h : ofSource .strict source = .ok c) (hv : c.checked.Valued) :
    (Code.lowered c.checked).map Code.Lowered.routine = c.routines ∧
      ∀ r ∈ Code.lowered c.checked,
        Code.misfits? [] r.routine.code =
          some ((r.pieces.filter (·.stmt.narrows c.checked)).map Code.Piece.operatorAt) := by
  obtain ⟨hchecked, hsound, hroutines⟩ := ofSource_strict h
  have haccepted := Checked.accepted_ofSource source (hchecked ▸ hsound)
  rw [← hchecked] at haccepted
  rw [hroutines]
  exact ⟨Code.routine_lowered _,
    fun r hr => (Code.lowered_valued haccepted hv r hr).misfits⟩

theorem Compilation.operator_types_method :
    ∃ c, ofSource .strict
        "class A \x7b int n; int f(float y) \x7b n += 2; y *= n; n -= y; return n - 1; \x7d \x7d" =
        .ok c ∧
      c.checked.Valued ∧ (Code.lowered c.checked).map Code.Lowered.routine = c.routines ∧
        ∀ r ∈ Code.lowered c.checked, Code.misfits? [] r.routine.code =
          some ((r.pieces.filter (·.stmt.narrows c.checked)).map Code.Piece.operatorAt) :=
  exists_ok_and (by decide +kernel) fun _ hc hv => operator_types hc hv

-- The sum of an `int` and a `float` is marked as an `int`.
theorem Compilation.operator_narrowed :
    ∃ c, ofSource .strict "int x = 1; x += 1.5;" = .ok c ∧ c.checked.Valued ∧
      ∃ r ∈ c.routines, Code.misfits? [] r.code = some [4] :=
  exists_ok (by decide +kernel)

end Lumen
