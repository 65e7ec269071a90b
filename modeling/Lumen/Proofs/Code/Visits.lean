import Lumen.Proofs.Checked.Reports
import Lumen.Proofs.Code.Occurrences
import Lumen.Proofs.Nodes
import Mathlib.Logic.Relation

namespace Lumen

open List Option

inductive Visit where
  | item (s : Stmt)
  | field (f : Field Expr)
  | method (s : Stmt)
  | stmt (s : Stmt)
  -- What stands first and last in the header of a loop.
  | start (s : Stmt)
  | update (s : Stmt)
  | target (e : Expr)
  | expr (e : Expr)

-- What a statement leads to. Where it does not belong, only an expression leads on.
def Stmt.visits : Stmt → List Visit
  | .variable _ _ _ init => init.toList.map .expr
  | .constant _ _ _ value => [.expr value]
  | .block _ body => body.map .stmt
  | .assign _ target _ value => [.target target, .expr value]
  | .result _ value => value.toList.map .expr
  | .branch _ condition thenBody elseBody =>
    .expr condition :: thenBody.map .stmt ++ (elseBody.getD []).map .stmt
  | .whileLoop _ condition body => .expr condition :: body.map .stmt
  | .forLoop _ init condition update body =>
    init.toList.map .start ++ condition.toList.map .expr ++ update.toList.map .update ++
      body.map .stmt
  | .evaluate _ e | .bare e => [.expr e]
  | .breakLoop _ | .continueLoop _ | .classDef .. | .routine .. => []

namespace Visit

def parts : Visit → List Visit
  | item (.classDef _ _ fields methods) => fields.map field ++ methods.map method
  | item (.routine _ _ _ _ _ body) | method (.routine _ _ _ _ _ body) => body.map stmt
  | item s | start s | update s => [stmt s]
  | method _ => []
  | field f => f.init.toList.map expr
  | stmt s => s.visits
  | target e => [expr e]
  | expr e => e.children.map expr

def Reaches : Visit → Visit → Prop :=
  Relation.ReflTransGen fun v w => w ∈ v.parts

def isRegular : Visit → Bool
  | item (.routine _ _ _ _ isStatic _) => isStatic
  | item _ => true
  | field f => !f.isConst || f.init.isSome
  | method (.routine ..) => true
  | method _ => false
  | stmt (.classDef ..) | stmt (.routine ..) | stmt (.bare _) => false
  | stmt (.variable _ _ type init) => type.isSome || init.isSome
  | stmt (.assign _ _ op _) => op.all BinaryOp.assigns
  | stmt _ => true
  | start s => s.isStart
  | update s => s.isUpdate
  | target e => e.isTarget
  | expr (.stray _) => false
  | expr _ => true

section Formed

variable (W : String → Prop)

def Formed : Visit → Prop
  | item s => s.FormedItem W
  | field f => f.Formed W
  | method s => s.FormedRoutine W
  | stmt s => s.Formed W
  | start s => s.isStart ∧ s.Formed W
  | update s => s.isUpdate ∧ s.Formed W
  | target e => e.isTarget ∧ e.Formed W
  | expr e => e.Formed W

variable {W}

theorem Formed.isRegular {v : Visit} (h : v.Formed W) : v.isRegular := by
  cases v
  case item s =>
    cases s
    case routine => exact h.1
    all_goals rfl
  case field f =>
    cases hc : f.isConst
    case false => simp [Visit.isRegular, hc]
    case true => simp [Visit.isRegular, h.2.2.2 hc]
  case method s => cases s <;> first | rfl | exact h.elim
  case stmt s =>
    cases s
    case classDef | routine | bare => exact h.elim
    case «variable» => simpa [Visit.isRegular] using h.2.2.2
    case assign => exact all_eq_true _ _ |>.mpr h.2.1
    all_goals rfl
  case start | update | target => exact h.1
  case expr e => cases e <;> first | rfl | exact h.elim

theorem formed_children {e : Expr} (h : e.Formed W) : ∀ part ∈ e.children, part.Formed W := by
  cases e <;> rw [Expr.Formed] at h
  case stray => exact h.elim
  case binary m op left right => simpa [Expr.children] using h
  case unary m op operand => simpa [Expr.children] using h
  case call m name args => exact formedArgs_iff.mp h.2
  case invoke m object name args =>
    exact forall_mem_cons.mpr ⟨h.1, formedArgs_iff.mp h.2.2⟩
  case member m object name => simpa [Expr.children] using h.1
  case create m type args => exact formedArgs_iff.mp h.2
  all_goals simp [Expr.children]

theorem formed_stmts (h : FormedBody W body) : ∀ w ∈ body.map stmt, w.Formed W :=
  List.forall_mem_map.mpr (formedBody_iff.mp h)

theorem formed_exprs (h : FormedOption W e) : ∀ w ∈ e.toList.map expr, w.Formed W := by
  cases e
  case none => simp
  case some e => exact forall_mem_singleton.mpr h

theorem formed_visits {s : Stmt} (h : s.Formed W) : ∀ w ∈ s.visits, w.Formed W := by
  cases s <;> rw [Stmt.Formed] at h
  case classDef | routine | bare => exact h.elim
  case «variable» loc name type init => exact formed_exprs h.2.2.1
  case constant loc name type value => exact forall_mem_singleton.mpr h.2.2
  case block loc body => exact formed_stmts h
  case assign loc target op value =>
    exact forall_mem_cons.mpr ⟨⟨h.1, h.2.2.1⟩, forall_mem_singleton.mpr h.2.2.2⟩
  case result loc value => exact formed_exprs h
  case branch loc condition thenBody elseBody =>
    obtain ⟨hcondition, hthen, helse⟩ := h
    refine forall_mem_append.mpr ⟨forall_mem_cons.mpr ⟨hcondition, formed_stmts hthen⟩, ?_⟩
    cases elseBody
    case none => simp
    case some body => exact formed_stmts helse
  case whileLoop loc condition body =>
    exact forall_mem_cons.mpr ⟨h.1, formed_stmts h.2⟩
  case forLoop loc init condition update body =>
    obtain ⟨hstart, hinit, hcondition, hround, hupdate, hbody⟩ := h
    simp only [Stmt.visits, forall_mem_append]
    refine ⟨⟨⟨?_, formed_exprs hcondition⟩, ?_⟩, formed_stmts hbody⟩
    · cases init
      case none => simp
      case some s => exact forall_mem_singleton.mpr ⟨hstart s rfl, hinit⟩
    · cases update
      case none => simp
      case some s => exact forall_mem_singleton.mpr ⟨hround s rfl, hupdate⟩
  case breakLoop | continueLoop => simp [Stmt.visits]
  case evaluate loc e => exact forall_mem_singleton.mpr h

theorem Formed.parts {v : Visit} (h : v.Formed W) : ∀ w ∈ v.parts, w.Formed W := by
  cases v
  case item s =>
    cases s
    case classDef loc name fields methods =>
      exact forall_mem_append.mpr
        ⟨List.forall_mem_map.mpr h.2.1, List.forall_mem_map.mpr h.2.2⟩
    case routine loc name params returns isStatic body => exact formed_stmts h.2.2.2.2
    all_goals exact forall_mem_singleton.mpr h
  case field f => exact formed_exprs h.2.2.1
  case method s =>
    cases s
    case routine loc name params returns isStatic body => exact formed_stmts h.2.2.2
    all_goals exact h.elim
  case stmt s => exact formed_visits h
  case start | update | target => exact forall_mem_singleton.mpr h.2
  case expr e => exact List.forall_mem_map.mpr (formed_children h)

theorem Reaches.formed {v : Visit} (hr : v.Reaches w) (h : v.Formed W) : w.Formed W := by
  induction hr
  case refl => exact h
  case tail hstep ih => exact ih.parts _ hstep

end Formed

theorem Reaches.step {v : Visit} (hw : w ∈ v.parts) (hr : w.Reaches x) : v.Reaches x :=
  .head hw hr

theorem reaches_of_mem {v : Visit} (hw : w ∈ v.parts) : v.Reaches w :=
  .single hw

end Visit

namespace Code

open Visit

-- All statements for which code is made can be met, with the expressions whose values it takes.
section Met

theorem reaches_child {s t : Stmt} (ht : t ∈ s.children) : (stmt s).Reaches (.stmt t) := by
  cases s <;> simp only [Stmt.children, not_mem_nil, mem_append] at ht
  case block loc body => exact reaches_of_mem (mem_map_of_mem ht)
  case branch loc condition thenBody elseBody =>
    refine reaches_of_mem (mem_cons_of_mem _ ?_)
    exact mem_append.mpr (ht.imp mem_map_of_mem mem_map_of_mem)
  case whileLoop loc condition body =>
    exact reaches_of_mem (mem_cons_of_mem _ (mem_map_of_mem ht))
  case forLoop loc init condition update body =>
    rcases ht with (hinit | hbody) | hupdate
    · have hmem : start t ∈ (stmt (.forLoop loc init condition update body)).parts := by
        simp [parts, Stmt.visits, mem_toList.mp hinit]
      exact .step hmem (reaches_of_mem (mem_singleton_self _))
    · exact reaches_of_mem (mem_append_right _ (mem_map_of_mem hbody))
    · have hmem : Visit.update t ∈ (stmt (.forLoop loc init condition update body)).parts := by
        simp [parts, Stmt.visits, mem_toList.mp hupdate]
      exact .step hmem (reaches_of_mem (mem_singleton_self _))

theorem reaches_reads (p : Piece) : ∀ r ∈ p.reads, (stmt p.stmt).Reaches (.expr r.expr) := by
  obtain ⟨before, site, loop, f, s⟩ := p
  refine List.forall_mem_map.mpr ?_
  cases s <;> dsimp only [Read.behind]
  case assign loc target op value =>
    have hvalue : (stmt (.assign loc target op value)).Reaches (.expr value) :=
      reaches_of_mem (by simp [parts, Stmt.visits])
    have htarget : (stmt (.assign loc target op value)).Reaches (.expr target) :=
      .step mem_cons_self (reaches_of_mem (mem_singleton_self _))
    cases target <;> simp only [Site.assignReads, not_mem_nil, false_implies, implies_true]
    case «variable» => exact forall_mem_singleton.mpr hvalue
    case member m object name =>
      split
      case h_1 =>
        refine forall_mem_cons.mpr ⟨?_, forall_mem_singleton.mpr hvalue⟩
        exact htarget.tail (mem_map_of_mem mem_cons_self)
      case h_2 => simp
  case branch | whileLoop | evaluate | constant =>
    exact forall_mem_singleton.mpr (reaches_of_mem mem_cons_self)
  case «variable» | result | forLoop =>
    refine List.forall_mem_map.mpr fun e he => reaches_of_mem ?_
    simp_all [parts, Stmt.visits]
  all_goals simp

end Met

def MetIn (items : Items) (v : Visit) : Prop :=
  ∃ s ∈ items, (item s).Reaches v

theorem MetIn.trans (h : MetIn items v) (hr : v.Reaches w) : MetIn items w := by
  obtain ⟨item, hi, hmet⟩ := h
  exact ⟨item, hi, .trans hmet hr⟩

section

variable {r : Lowered} (hr : r ∈ lowered c)

include hr

theorem metIn_body : ∀ s ∈ r.body, MetIn c.items (.stmt s) := by
  rcases mem_lowered hr with rfl | ⟨loc, name, fields, methods, -, rfl⟩ | ⟨className, item, hd, hr⟩
  · intro s hs
    obtain ⟨hs, hstatement⟩ := mem_filter.mp hs
    refine ⟨s, hs, reaches_of_mem ?_⟩
    cases s <;> first | exact mem_singleton_self _ | cases hstatement
  · intro s hs
    cases hs
  · obtain ⟨loc, name, params, returns, isStatic, _, _, rfl, -⟩ := loweredRoutine?_eq_some hr
    intro s hs
    cases className
    case none => exact ⟨_, hd, reaches_of_mem (mem_map_of_mem hs)⟩
    case some className =>
      obtain ⟨_, fields, methods, hclass, hmethod⟩ := hd
      have hbody : (method (.routine loc name params returns isStatic r.body)).Reaches (.stmt s) :=
        reaches_of_mem (mem_map_of_mem hs)
      exact ⟨_, hclass, .step (mem_append_right _ (mem_map_of_mem hmethod)) hbody⟩

theorem metIn_pieces : ∀ p ∈ r.pieces, MetIn c.items (.stmt p.stmt) := fun p hp =>
  (Site.pieces_inherit (R := fun s => MetIn c.items (.stmt s))
    (fun _ hs _ ht => hs.trans (reaches_child ht)) none r.frame r.body (metIn_body hr) p hp).1

theorem metIn_initial : ∀ q ∈ r.initial, MetIn c.items (.expr q.expr) := by
  rcases mem_lowered hr with rfl | ⟨loc, name, fields, methods, hi, rfl⟩ |
    ⟨className, item, -, hr⟩
  · simp [loweredMain]
  · intro q hq
    obtain ⟨-, ⟨f, hf, he⟩, -⟩ := fieldReads_placed _ _ name fields q hq
    have hfield : (Visit.field f).Reaches (.expr q.expr) :=
      reaches_of_mem (mem_map_of_mem (mem_toList.mpr he))
    exact ⟨_, hi, .step (mem_append_left _ (mem_map_of_mem hf)) hfield⟩
  · simp [initial_loweredRoutine? hr]

theorem metIn_reads : ∀ q ∈ r.reads, MetIn c.items (.expr q.expr) := by
  refine forall_mem_append.mpr ⟨metIn_initial hr, fun q hq => ?_⟩
  obtain ⟨p, hp, hq⟩ := mem_flatMap.mp hq
  exact (metIn_pieces hr p hp).trans (reaches_reads p q hq)

end

end Code

-- Whatever the tokens are, all that can be met in what is read from them stands where it belongs.
-- The check never reports a tree of another shape, and code is made for nothing else.
theorem Parsed.ofTokens_regular (tokens : List Token) :
    (∀ v, Code.MetIn (ofTokens tokens).items v → v.isRegular) ∧
    (∀ p ∈ (Typing.checkItems (ofTokens tokens).items).problems, p.cause.isFallback = false) ∧
    ∀ r ∈ Code.lowered (Checked.ofItems (ofTokens tokens).items),
      (∀ p ∈ r.pieces, Code.MetIn (ofTokens tokens).items (.stmt p.stmt)) ∧
        ∀ q ∈ r.reads, Code.MetIn (ofTokens tokens).items (.expr q.expr) := by
  have hf := ofTokens_formed (W := fun _ => True) tokens fun _ _ _ => trivial
  refine ⟨fun v hv => ?_, fun p hp => ?_, fun r hr =>
    ⟨Code.metIn_pieces hr, Code.metIn_reads hr⟩⟩
  · obtain ⟨item, hi, hr⟩ := hv
    have hitem : (Visit.item item).Formed fun _ => True := hf item hi
    exact (hr.formed hitem).isRegular
  · exact (Typing.checkItems_report hf).regular p (mem_reverse.mpr hp)

end Lumen
