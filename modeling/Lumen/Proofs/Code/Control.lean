import Lumen.Proofs.Execution.Labels

namespace Lumen.Code

open List

def Opcode.hasLabel : Opcode → Bool
  | .label | .jump | .jumpIfFalse => true
  | _ => false

def Named (P : Nat → Prop) (code : List Instruction) : Prop :=
  ∀ i ∈ code, i.opcode.hasLabel → ∃ n, i.label? = some n ∧ P n

namespace Named

variable {P Q : Nat → Prop} {code rest : List Instruction}

theorem mono (h : Named P code) (hpq : ∀ n, P n → Q n) : Named Q code := by
  intro i hi hl
  obtain ⟨n, hn, hp⟩ := h i hi hl
  exact ⟨n, hn, hpq n hp⟩

theorem of_straight (h : Straight code) : Named P code := by
  intro i hi hl
  have hcontrol := h i hi
  cases hop : i.opcode <;> simp_all [Opcode.isControl, Opcode.hasLabel]

end Named

section Named

variable {P : Nat → Prop} {code rest : List Instruction} (label : Nat) (loc : Location)

@[simp] theorem named_nil : Named P [] :=
  .of_straight .nil

@[simp] theorem named_append : Named P (code ++ rest) ↔ Named P code ∧ Named P rest :=
  forall_mem_append

@[simp] theorem named_place : Named P (.place label loc :: rest) ↔ P label ∧ Named P rest := by
  simp [Named, Instruction.place, Instruction.withOperand, Opcode.hasLabel, Instruction.label?]

@[simp] theorem named_jump : Named P (.jump .jump label loc :: rest) ↔ P label ∧ Named P rest := by
  simp [Named, Instruction.jump, Instruction.withOperand, Opcode.hasLabel, Instruction.label?]

@[simp] theorem named_jumpIfFalse :
    Named P (.jump .jumpIfFalse label loc :: rest) ↔ P label ∧ Named P rest := by
  simp [Named, Instruction.jump, Instruction.withOperand, Opcode.hasLabel, Instruction.label?]

@[simp] theorem named_ret (type : Ty) : Named P [.plain .ret type loc] := by
  simp [Named, Instruction.plain, Opcode.hasLabel]

@[simp] theorem named_value (site : Site) (slots : Slots) (e : Expr) :
    Named P (site.value slots e) :=
  .of_straight (site.value_straight slots e)

theorem named_header {site : Site} (h : P stop) :
    Named P (site.header slots stop loc condition) := by
  cases condition <;> simp [Site.header, h]

end Named

def Loop.Has (loop : Option Loop) (n : Nat) : Prop :=
  ∃ l ∈ loop, n = l.next ∨ n = l.stop

theorem Loop.has_some (l : Loop) (n : Nat) : Has (some l) n ↔ n = l.next ∨ n = l.stop := by
  simp [Has]

structure Aimed (loop : Option Loop) (lo hi : Nat) (code : List Instruction) : Prop where
  le    : lo ≤ hi
  once  : Numbered code lo (hi - lo)
  named : Named (fun n => (lo ≤ n ∧ n < hi) ∨ Loop.Has loop n) code

namespace Aimed

variable {loop : Option Loop} {lo mid hi : Nat} {code rest : List Instruction}

theorem of_labelsOf (h : labelsOf code = []) (hn : Named (Loop.Has loop) code) (lo : Nat) :
    Aimed loop lo lo code where
  le := Nat.le_refl lo
  once := by
    rw [Nat.sub_self]
    exact .of_labelsOf h lo
  named := hn.mono fun _ => .inr

theorem of_straight (h : Straight code) (loop : Option Loop) (lo : Nat) : Aimed loop lo lo code :=
  of_labelsOf (labelsOf_straight h) (.of_straight h) lo

theorem widen (h : Aimed loop lo hi code) (hlo : lo' ≤ lo) (hhi : hi ≤ hi') :
    Named (fun n => (lo' ≤ n ∧ n < hi') ∨ Loop.Has loop n) code := by
  refine h.named.mono fun n hn => ?_
  rcases hn with hrange | hloop
  · exact .inl (by omega)
  · exact .inr hloop

theorem inside (h : Aimed (some l) lo hi code) (hlo : lo' ≤ lo) (hhi : hi ≤ hi')
    (hnext : lo' ≤ l.next ∧ l.next < hi') (hstop : lo' ≤ l.stop ∧ l.stop < hi') :
    Named (fun n => (lo' ≤ n ∧ n < hi') ∨ Loop.Has loop n) code := by
  refine (h.widen hlo hhi).mono fun n hn => ?_
  rw [Loop.has_some] at hn
  exact .inl (by omega)

theorem append (ha : Aimed loop lo mid code) (hb : Aimed loop mid hi rest) :
    Aimed loop lo hi (code ++ rest) where
  le := Nat.le_trans ha.le hb.le
  once n := by
    have hle := ha.le
    have hle' := hb.le
    rw [labelsOf_append, count_append, ha.once, hb.once]
    split_ifs <;> omega
  named := named_append.mpr ⟨ha.widen (Nat.le_refl lo) hb.le, hb.widen ha.le (Nat.le_refl hi)⟩

end Aimed

structure AimedElse (loop : Option Loop) (orElse lo hi : Nat) (code : List Instruction) : Prop where
  le    : lo ≤ hi
  once  : ∀ n, (labelsOf code).count n =
    (if lo ≤ n ∧ n < hi then 1 else 0) + if orElse = n then 1 else 0
  named : Named (fun n => (lo ≤ n ∧ n < hi) ∨ n = orElse ∨ Loop.Has loop n) code

namespace Aimed

variable {loop : Option Loop} {lo mid mid' hi : Nat} {value header code rest : List Instruction}
  {loc : Location}

theorem branch (hv : Straight value) (hthen : Aimed loop (lo + 1) mid code)
    (helse : AimedElse loop lo mid hi rest) :
    Aimed loop lo hi (value ++ .jump .jumpIfFalse lo loc :: code ++ rest) := by
  have hle := hthen.le
  have hle' := helse.le
  refine ⟨by omega, fun n => ?_, ?_⟩
  · simp only [labelsOf_append, labelsOf_jumpIfFalse, labelsOf_straight hv, count_append,
      hthen.once n, helse.once n, count_nil]
    split_ifs <;> omega
  · simp only [named_append, named_jumpIfFalse]
    refine ⟨⟨.of_straight hv, .inl (by omega), hthen.widen (by omega) hle'⟩, ?_⟩
    refine helse.named.mono fun n hn => ?_
    rcases hn with hrange | hother | hloop
    · exact .inl (by omega)
    · exact .inl (by omega)
    · exact .inr hloop

theorem whileLoop (hv : Straight value) (hbody : Aimed (some ⟨lo, lo + 1⟩) (lo + 2) hi code) :
    Aimed loop lo hi (.place lo loc :: value ++ .jump .jumpIfFalse (lo + 1) loc :: code ++
      [.jump .jump lo loc, .place (lo + 1) loc]) := by
  have hle := hbody.le
  refine ⟨by omega, fun n => ?_, ?_⟩
  · simp only [cons_append, labelsOf_place, labelsOf_append, labelsOf_straight hv,
      labelsOf_jumpIfFalse, labelsOf_jump, labelsOf_nil, count_append, count_cons,
      hbody.once n, count_nil, beq_iff_eq]
    split_ifs <;> omega
  · simp only [cons_append, named_append, named_place, named_jump, named_jumpIfFalse, named_nil,
      and_true]
    have hstart : lo ≤ lo ∧ lo < hi := by omega
    have hstop : lo ≤ lo + 1 ∧ lo + 1 < hi := by omega
    exact ⟨.inl hstart, ⟨.of_straight hv, .inl hstop,
      hbody.inside (by omega) (Nat.le_refl hi) hstart hstop⟩, .inl hstart, .inl hstop⟩

theorem forLoop (site : Site) (slots : Slots) (condition : Option Expr)
    (hinit : Aimed loop lo mid value)
    (hbody : Aimed (some ⟨mid + 1, mid + 2⟩) (mid + 3) mid' code)
    (hupdate : Aimed loop mid' hi rest) :
    Aimed loop lo hi (value ++ .place mid loc :: site.header slots (mid + 2) loc condition ++
      code ++ .place (mid + 1) loc :: rest ++ [.jump .jump mid loc, .place (mid + 2) loc]) := by
  have hle := hinit.le
  have hle' := hbody.le
  have hle'' := hupdate.le
  refine ⟨by omega, fun n => ?_, ?_⟩
  · simp only [labelsOf_place, labelsOf_append, site.labelsOf_header, labelsOf_jump, labelsOf_nil,
      count_append, count_cons, hinit.once n, hbody.once n, hupdate.once n,
      count_nil, beq_iff_eq]
    split_ifs <;> omega
  · have hstart : lo ≤ mid ∧ mid < hi := by omega
    have hnext : lo ≤ mid + 1 ∧ mid + 1 < hi := by omega
    have hstop : lo ≤ mid + 2 ∧ mid + 2 < hi := by omega
    simp only [named_append, named_place, named_jump, named_nil, and_true]
    exact ⟨⟨⟨⟨hinit.widen (Nat.le_refl lo) (by omega), .inl hstart, named_header loc (.inl hstop)⟩,
      hbody.inside (by omega) hle'' hnext hstop⟩, .inl hnext,
      hupdate.widen (by omega) (Nat.le_refl hi)⟩, .inl hstart, .inl hstop⟩

end Aimed

namespace AimedElse

variable {loop : Option Loop} {orElse lo hi : Nat} {code : List Instruction} {loc : Location}

theorem none : AimedElse loop orElse lo lo [.place orElse loc] where
  le := Nat.le_refl lo
  once n := by
    have hnone : ¬(lo ≤ n ∧ n < lo) := by omega
    simp [count_cons, hnone]
  named := by simp

theorem some (h : Aimed loop (lo + 1) hi code) :
    AimedElse loop orElse lo hi
      (.jump .jump lo loc :: .place orElse loc :: code ++ [.place lo loc]) := by
  have hle := h.le
  refine ⟨by omega, fun n => ?_, ?_⟩
  · simp only [cons_append, labelsOf_place, labelsOf_jump, labelsOf_append, labelsOf_nil,
      count_append, count_cons, h.once n, count_nil, beq_iff_eq]
    split_ifs <;> omega
  · have hstop : lo ≤ lo ∧ lo < hi := by omega
    have hbody := (h.widen (Nat.le_succ lo) (Nat.le_refl hi)).mono
      (Q := fun n => (lo ≤ n ∧ n < hi) ∨ n = orElse ∨ Loop.Has loop n) fun _ =>
        Or.imp_right .inr
    simp only [cons_append, named_jump, named_place, named_append, named_nil, and_true]
    exact ⟨.inl hstop, .inr (.inl trivial), hbody, .inl hstop⟩

end AimedElse

namespace Site

variable (site : Site)

theorem labels_declaration (f : Frame) (name : String) (type : Ty) (init : Option Expr)
    (loc : Location) : (site.declaration f name type init loc).2.labels = f.labels := by
  have hdeclare : (f.declare name type).2.labels = f.labels := by
    rw [Frame.declare]
    split <;> rfl
  have hslot : (site.declare f name type).2.labels = f.labels := by
    rw [declare]
    split
    · split
      · rfl
      · exact hdeclare
    · exact hdeclare
  cases init <;> exact hslot

theorem declaration_aimed (loop : Option Loop) (f : Frame) (name : String) (type : Ty)
    (init : Option Expr) (loc : Location) :
    Aimed loop f.labels (site.declaration f name type init loc).2.labels
      (site.declaration f name type init loc).1 := by
  rw [labels_declaration]
  exact .of_straight (site.declaration_straight f name type init loc) loop _

mutual

theorem stmt_aimed (loop : Option Loop) (f : Frame) (s : Stmt) :
    Aimed loop f.labels (site.stmt loop f s).2.labels (site.stmt loop f s).1 := by
  cases s
  case «variable» loc name type init => exact site.declaration_aimed loop f name _ init loc
  case constant loc name type value => exact site.declaration_aimed loop f name _ (some value) loc
  case block loc body => exact stmts_aimed loop f.enter body
  case assign loc target op value =>
    exact .of_straight (site.assign_straight _ target op value loc) loop _
  case evaluate loc e => exact .of_straight (site.evaluate_straight _ e loc) loop _
  case result loc value =>
    refine .of_labelsOf (site.labelsOf_result ..) ?_ _
    cases value <;> simp [result]
  case branch loc condition thenBody elseBody =>
    have hthen := stmts_aimed loop (f.label 1).enter thenBody
    have helse := otherwise_aimed loop (site.stmts loop (f.label 1).enter [] thenBody).2.leave
      f.labels loc elseBody
    exact .branch (site.value_straight f.slots condition) hthen helse
  case whileLoop loc condition body =>
    exact .whileLoop (site.value_straight f.slots condition)
      (stmts_aimed (some ⟨f.labels, f.labels + 1⟩) (f.label 2).enter body)
  case forLoop loc init condition update body =>
    have hinit := step_aimed loop f.enter init
    rw [stmt_forLoop]
    generalize site.step loop f.enter init = started at hinit ⊢
    have hbody := stmts_aimed (some ⟨started.2.labels + 1, started.2.labels + 2⟩)
      (started.2.label 3).enter body
    dsimp only
    generalize site.stmts _ (started.2.label 3).enter [] body = inside at hbody ⊢
    exact .forLoop site _ condition hinit hbody (step_aimed loop inside.2.leave update)
  case breakLoop loc =>
    cases loop
    case none => exact .of_labelsOf rfl named_nil _
    case some l => exact .of_labelsOf rfl ((named_jump _ _).mpr ⟨⟨l, rfl, .inr rfl⟩, named_nil⟩) _
  case continueLoop loc =>
    cases loop
    case none => exact .of_labelsOf rfl named_nil _
    case some l => exact .of_labelsOf rfl ((named_jump _ _).mpr ⟨⟨l, rfl, .inl rfl⟩, named_nil⟩) _
  all_goals exact .of_labelsOf rfl named_nil _

theorem stmts_aimed (loop : Option Loop) (f : Frame) (body : List Stmt) :
    Aimed loop f.labels (site.stmts loop f [] body).2.labels (site.stmts loop f [] body).1 := by
  cases body
  case nil => exact .of_labelsOf rfl named_nil _
  case cons s body =>
    cases hs : site.program.isFaultyStmt s
    case true =>
      rw [stmts_faulty _ loop f hs]
      exact stmts_aimed loop f body
    case false =>
      rw [stmts_cons _ loop f hs]
      exact (stmt_aimed loop f s).append (stmts_aimed loop _ body)

theorem otherwise_aimed (loop : Option Loop) (f : Frame) (orElse : Nat) (loc : Location)
    (body : Option (List Stmt)) :
    AimedElse loop orElse f.labels (site.otherwise loop f orElse loc body).2.labels
      (site.otherwise loop f orElse loc body).1 := by
  cases body
  case none => exact .none
  case some body => exact .some (stmts_aimed loop (f.label 1).enter body)

theorem step_aimed (loop : Option Loop) (f : Frame) (s : Option Stmt) :
    Aimed loop f.labels (site.step loop f s).2.labels (site.step loop f s).1 := by
  cases s
  case none => exact .of_labelsOf rfl named_nil _
  case some s => exact stmt_aimed loop f s

end

end Site
end Lumen.Code
