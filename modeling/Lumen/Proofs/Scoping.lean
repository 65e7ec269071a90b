import Lumen.Checked
import Lumen.Proofs.Tree

namespace Lumen

open List

def Declaration.typeIn (d : Declaration) (c : Checked) : Ty :=
  match d.type, d.init with
  | some type, _ => Ty.ofName type
  | none, some init => c.typeOf init
  | none, none => .error

theorem Ty.ofName_ne_error (w : TypeName) : Ty.ofName w ≠ .error := by
  cases w <;> simp [Ty.ofName]

def Checked.Unknown (c : Checked) : Prop :=
  ∃ id : Nat, c.types[id]? = some .error

-- Only for want of a type of some expression is that of a declaration missing.
def Declaration.Known (d : Declaration) (c : Checked) : Prop :=
  d.typeIn c = .error → c.Unknown

theorem Declaration.Known.of_type {d : Declaration} {w : TypeName} (h : d.type = some w) :
    d.Known c := by
  intro he
  rw [Declaration.typeIn, h] at he
  exact absurd he (Ty.ofName_ne_error w)

structure Binding where
  cell     : Nat
  home     : Scope.Kind
  declared : Declaration

def Binding.symbol (b : Binding) (c : Checked) : Symbol where
  name := b.declared.name
  type := b.declared.typeIn c
  home := b.home
  isConst := b.declared.isConst
  kind := if b.declared.isParam then .parameter else .variable
  loc := b.declared.loc

structure Names where
  -- The blocks that are open; the innermost comes first. In a block, the last declaration does.
  blocks : List (List Binding)
  -- The first cell that is free.
  next   : Nat

namespace Names

def empty : Names :=
  ⟨[[]], 0⟩

def find? (names : Names) (name : String) : Option Binding :=
  names.blocks.findSome? (·.find? (·.declared.name = name))

def here (names : Names) : List Binding :=
  names.blocks.headD []

def enter (names : Names) : Names :=
  { names with blocks := [] :: names.blocks }

def skip (names : Names) (count : Nat) : Names :=
  { names with next := names.next + count }

def leave (names : Names) : Names :=
  { names with blocks := names.blocks.tail }

-- Only the outermost block of a routine is its own scope.
def declare (names : Names) (d : Declaration) : Names :=
  match names.blocks with
  | [] => names
  | block :: outer =>
    ⟨(⟨names.next, if outer.isEmpty then .method else .block, d⟩ :: block) :: outer,
      names.next + 1⟩

def declareAll (names : Names) (ds : List Declaration) : Names :=
  ds.foldl declare names

def ofParams (params : List Param) : Names :=
  empty.declareAll (params.map .ofParam)

def after (names : Names) (s : Stmt) : Names :=
  match s.declaration? with
  | some d => names.declare d
  | none => names.skip s.declarations.length

def afterStep (names : Names) : Option Stmt → Names
  | none => names
  | some s => names.after s

def afterBody (names : Names) (body : List Stmt) : Names :=
  body.foldl after names

@[simp] theorem blocks_enter (names : Names) : names.enter.blocks = [] :: names.blocks :=
  rfl

theorem enter_ne_nil (names : Names) : names.enter.blocks ≠ [] :=
  cons_ne_nil _ _

@[simp] theorem blocks_skip (names : Names) (count : Nat) :
    (names.skip count).blocks = names.blocks :=
  rfl

@[simp] theorem next_skip (names : Names) (count : Nat) :
    (names.skip count).next = names.next + count :=
  rfl

theorem skip_skip (names : Names) (a b : Nat) : (names.skip a).skip b = names.skip (a + b) := by
  simp only [skip, Nat.add_assoc]

@[simp] theorem afterBody_cons (names : Names) (s : Stmt) (body : List Stmt) :
    names.afterBody (s :: body) = (names.after s).afterBody body :=
  rfl

theorem declare_tail (names : Names) (d : Declaration) :
    (names.declare d).blocks.tail = names.blocks.tail := by
  unfold declare
  split <;> simp_all

theorem declareAll_tail (names : Names) (ds : List Declaration) :
    (names.declareAll ds).blocks.tail = names.blocks.tail := by
  induction ds generalizing names
  case nil => rfl
  case cons d ds ih => exact (ih (names.declare d)).trans (names.declare_tail d)

theorem after_tail (names : Names) (s : Stmt) :
    (names.after s).blocks.tail = names.blocks.tail := by
  unfold after
  split
  · exact declare_tail names _
  · rfl

theorem afterStep_tail (names : Names) (s : Option Stmt) :
    (names.afterStep s).blocks.tail = names.blocks.tail := by
  cases s
  case none => rfl
  case some s => exact after_tail names s

theorem afterBody_tail (names : Names) (body : List Stmt) :
    (names.afterBody body).blocks.tail = names.blocks.tail := by
  induction body generalizing names
  case nil => rfl
  case cons s body ih => rw [afterBody_cons, ih, after_tail]

theorem declare_ne_nil {names : Names} (h : names.blocks ≠ []) (d : Declaration) :
    (names.declare d).blocks ≠ [] := by
  unfold declare
  split <;> simp_all

theorem after_ne_nil {names : Names} (h : names.blocks ≠ []) (s : Stmt) :
    (names.after s).blocks ≠ [] := by
  unfold after
  split
  · exact declare_ne_nil h _
  · exact h

theorem declare_next {names : Names} (h : names.blocks ≠ []) (d : Declaration) :
    (names.declare d).next = names.next + 1 := by
  unfold declare
  split <;> simp_all

theorem find?_declare {names : Names} (h : names.blocks = block :: outer) (d : Declaration)
    (name : String) : (names.declare d).find? name =
      if d.name = name then some ⟨names.next, if outer.isEmpty then .method else .block, d⟩
      else names.find? name := by
  simp only [declare, find?, h, findSome?_cons, find?_cons]
  by_cases e : d.name = name <;> simp [e]

theorem find?_declareAll {names : Names} (h : names.blocks ≠ []) (ds : List Declaration)
    (hn : (names.find? name).isSome ∨ ∃ d ∈ ds, d.name = name) :
    ((names.declareAll ds).find? name).isSome := by
  induction ds generalizing names
  case nil => simpa [declareAll] using hn
  case cons d ds ih =>
    obtain ⟨block, outer, hb⟩ := exists_cons_of_ne_nil h
    refine ih (declare_ne_nil h d) ?_
    rw [find?_declare hb]
    split
    case isTrue => exact .inl rfl
    case isFalse hne => simpa [hne] using hn

theorem declareAll_next {names : Names} (h : names.blocks ≠ []) (ds : List Declaration) :
    (names.declareAll ds).next = names.next + ds.length := by
  induction ds generalizing names
  case nil => rfl
  case cons d ds ih =>
    have hrest : (names.declareAll (d :: ds)).next = _ := ih (declare_ne_nil h d)
    rw [hrest, declare_next h, length_cons]
    omega

theorem declareAll_ne_nil {names : Names} (h : names.blocks ≠ []) (ds : List Declaration) :
    (names.declareAll ds).blocks ≠ [] := by
  induction ds generalizing names
  case nil => exact h
  case cons d ds ih => exact ih (declare_ne_nil h d)

theorem after_next {names : Names} (h : names.blocks ≠ []) (s : Stmt) :
    (names.after s).next = names.next + s.declarations.length := by
  cases s
  case «variable» => exact declare_next h _
  case constant => exact declare_next h _
  all_goals rfl

theorem afterStep_next {names : Names} (h : names.blocks ≠ []) (s : Option Stmt) :
    (names.afterStep s).next = names.next + (declarationsInStep s).length := by
  cases s
  case none => rfl
  case some s => exact after_next h s

theorem afterBody_next {names : Names} (h : names.blocks ≠ []) (body : List Stmt) :
    (names.afterBody body).next = names.next + (declarationsIn body).length := by
  induction body generalizing names
  case nil => rfl
  case cons s body ih =>
    rw [afterBody_cons, ih (after_ne_nil h s), after_next h, declarationsIn, length_append,
      Nat.add_assoc]

theorem name_of_find? {names : Names} (h : names.find? name = some b) : b.declared.name = name := by
  obtain ⟨block, -, hb⟩ := exists_of_findSome?_eq_some h
  simpa using find?_some hb

def All (P : Binding → Prop) (names : Names) : Prop :=
  ∀ (name : String) (b : Binding), names.find? name = some b → P b

namespace All

variable {P : Binding → Prop} {names : Names}

theorem empty (P : Binding → Prop) : Names.empty.All P := by
  intro name b h
  cases h

section

variable (h : names.All P)

include h

theorem enter : names.enter.All P :=
  h

theorem skip (count : Nat) : (names.skip count).All P :=
  h

theorem declare (hd : ∀ home, home ≠ .global → P ⟨names.next, home, d⟩) :
    (names.declare d).All P := by
  intro name b hb
  cases hblocks : names.blocks
  case nil =>
    rw [Names.declare, hblocks] at hb
    exact h name b hb
  case cons block outer =>
    rw [find?_declare hblocks] at hb
    split at hb
    case isTrue =>
      cases hb
      exact hd _ (by split <;> simp)
    case isFalse => exact h name b hb

theorem after {s : Stmt}
    (hd : ∀ d ∈ s.declaration?, ∀ home, home ≠ .global → P ⟨names.next, home, d⟩) :
    (names.after s).All P := by
  rw [Names.after]
  split
  case h_1 d hs => exact h.declare (hd d hs)
  case h_2 => exact h.skip _

theorem declareAll (hd : ∀ d ∈ ds, ∀ cell home, P ⟨cell, home, d⟩) :
    (names.declareAll ds).All P := by
  induction ds generalizing names
  case nil => exact h
  case cons d ds ih =>
    obtain ⟨hfirst, hrest⟩ := forall_mem_cons.mp hd
    exact ih (h.declare fun home _ => hfirst _ home) hrest

end

theorem cells_declareAll (hb : names.blocks ≠ []) (h : names.All (·.cell < names.next))
    (ds : List Declaration) : (names.declareAll ds).All (·.cell < (names.declareAll ds).next) := by
  induction ds generalizing names
  case nil => exact h
  case cons d ds ih =>
    refine ih (declare_ne_nil hb d) ?_
    rw [declare_next hb]
    have hmore : names.All (·.cell < names.next + 1) :=
      fun name b hfind => Nat.lt_succ_of_lt (h name b hfind)
    exact hmore.declare fun home _ => Nat.lt_succ_self names.next

theorem ofParams (h : ∀ p ∈ params, ∀ cell home, P ⟨cell, home, .ofParam p⟩) :
    (Names.ofParams params).All P :=
  (empty P).declareAll (forall_mem_map.mpr h)

end All

theorem leave_afterBody (names : Names) (body : List Stmt) :
    (names.enter.afterBody body).leave = names.skip (declarationsIn body).length := by
  have htail := afterBody_tail names.enter body
  have hnext := afterBody_next names.enter_ne_nil body
  simp only [leave, skip, htail, hnext]
  rfl

theorem leave_afterStep (names : Names) (s : Option Stmt) :
    (names.enter.afterStep s).leave = names.skip (declarationsInStep s).length := by
  have htail := afterStep_tail names.enter s
  have hnext := afterStep_next names.enter_ne_nil s
  simp only [leave, skip, htail, hnext]
  rfl

theorem afterStep_of_isUpdate (names : Names) (h : ∀ u ∈ s, u.isUpdate) :
    names.afterStep s = names := by
  cases s
  case none => rfl
  case some s =>
    have hs := h s rfl
    cases s <;> simp only [Stmt.isUpdate, Bool.false_eq_true] at hs
    case assign => rfl
    case evaluate => rfl

end Names

mutual

def Expr.mentions (name : String) : Expr → Bool
  | .variable _ n => n = name
  | .binary _ _ left right => left.mentions name || right.mentions name
  | .unary _ _ operand => operand.mentions name
  | .call _ _ args => anyMentions name args
  | .invoke _ object _ args => object.mentions name || anyMentions name args
  | .member _ object _ => object.mentions name
  | .create _ _ args => anyMentions name args
  | .literal .. | .receiver _ | .stray _ => false

def anyMentions (name : String) : List Expr → Bool
  | [] => false
  | e :: es => e.mentions name || anyMentions name es

end

mutual

def Stmt.evaluated (names : Names) : Stmt → List (Names × Expr)
  | .variable _ _ _ init => init.toList.map (names, ·)
  | .constant _ _ _ value => [(names, value)]
  | .block _ body => evaluatedIn names.enter body
  | .assign _ target _ value => [(names, target), (names, value)]
  | .result _ value => value.toList.map (names, ·)
  | .branch _ condition thenBody elseBody =>
    (names, condition) :: evaluatedIn names.enter thenBody ++
      evaluatedInElse (names.skip (declarationsIn thenBody).length) elseBody
  | .whileLoop _ condition body => (names, condition) :: evaluatedIn names.enter body
  | .forLoop _ init condition update body =>
    evaluatedInStep names.enter init ++
      condition.toList.map (names.enter.afterStep init, ·) ++
      evaluatedInStep (names.enter.afterStep init) update ++
      evaluatedIn (names.enter.afterStep init).enter body
  | .evaluate _ e => [(names, e)]
  | .breakLoop _ | .continueLoop _ | .classDef .. | .routine .. | .bare _ => []

def evaluatedIn (names : Names) : List Stmt → List (Names × Expr)
  | [] => []
  | s :: rest => s.evaluated names ++ evaluatedIn (names.after s) rest

def evaluatedInElse (names : Names) : Option (List Stmt) → List (Names × Expr)
  | none => []
  | some body => evaluatedIn names.enter body

def evaluatedInStep (names : Names) : Option Stmt → List (Names × Expr)
  | none => []
  | some s => s.evaluated names

end

structure Evaluates (W : String → Prop) (ids : List Nat) (found : List (Names × Expr)) : Prop where
  formed : ∀ q ∈ found, q.2.Formed W
  ids    : ids = found.flatMap (·.2.ids)

theorem ids_atNames (names : Names) (e : Option Expr) :
    idsOfOption e = (e.toList.map (names, ·)).flatMap (·.2.ids) := by
  cases e <;> simp [idsOfOption]

variable {W : String → Prop}

namespace Evaluates

theorem nil : Evaluates W [] [] :=
  ⟨by simp, rfl⟩

theorem append (h : Evaluates W is fs) (h' : Evaluates W js gs) :
    Evaluates W (is ++ js) (fs ++ gs) :=
  ⟨forall_mem_append.mpr ⟨h.formed, h'.formed⟩, by rw [flatMap_append, ← h.ids, ← h'.ids]⟩

theorem one (names : Names) {e : Expr} (hf : e.Formed W) : Evaluates W e.ids [(names, e)] :=
  ⟨forall_mem_singleton.mpr hf, by simp⟩

theorem option (names : Names) (hf : FormedOption W e) :
    Evaluates W (idsOfOption e) (e.toList.map (names, ·)) := by
  cases e
  case none => exact nil
  case some e => exact one names hf

end Evaluates

mutual

theorem Stmt.evaluates (names : Names) (s : Stmt) (hf : s.Formed W) :
    Evaluates W s.ids (s.evaluated names) := by
  cases s <;> rw [Stmt.Formed] at hf
  case «variable» loc name type init => exact .option names hf.2.2.1
  case constant loc name type value => exact .one names hf.2.2
  case block loc body => exact evaluatesIn _ body hf
  case assign loc target op value => exact .append (.one names hf.2.2.1) (.one names hf.2.2.2)
  case result loc value => exact .option names hf
  case branch loc condition thenBody elseBody =>
    exact .append (.append (.one names hf.1) (evaluatesIn _ thenBody hf.2.1))
      (evaluatesInElse _ elseBody hf.2.2)
  case whileLoop loc condition body =>
    exact .append (.one names hf.1) (evaluatesIn _ body hf.2)
  case forLoop loc init condition update body =>
    obtain ⟨-, hinit, hcondition, -, hupdate, hbody⟩ := hf
    exact .append (.append (.append (evaluatesInStep _ init hinit) (.option _ hcondition))
      (evaluatesInStep _ update hupdate)) (evaluatesIn _ body hbody)
  case evaluate loc e => exact .one names hf
  case breakLoop | continueLoop => exact .nil
  case classDef | routine | bare => exact hf.elim

theorem evaluatesIn (names : Names) (body : List Stmt) (hf : FormedBody W body) :
    Evaluates W (idsIn body) (evaluatedIn names body) := by
  cases body
  case nil => exact .nil
  case cons s rest => exact .append (s.evaluates names hf.1) (evaluatesIn _ rest hf.2)

theorem evaluatesInElse (names : Names) (body : Option (List Stmt)) (hf : FormedElse W body) :
    Evaluates W (idsInElse body) (evaluatedInElse names body) := by
  cases body
  case none => exact .nil
  case some body => exact evaluatesIn names.enter body hf

theorem evaluatesInStep (names : Names) (s : Option Stmt) (hf : FormedStep W s) :
    Evaluates W (idsInStep s) (evaluatedInStep names s) := by
  cases s
  case none => exact .nil
  case some s => exact s.evaluates names hf

end

end Lumen
