import Lumen.Proofs.Typing.Advance
import Mathlib.Data.List.Basic

namespace Lumen

open List Option SymbolTable Scope

def Scope.loose (s : Scope) : Scope :=
  { s with parent := none }

theorem Scope.loose_insert (symbol : Symbol) (s : Scope) :
    (s.insert symbol).loose = s.loose.insert symbol :=
  rfl

theorem Scope.loose_retire (symbols : List Symbol) (s : Scope) :
    (s.retire symbols).loose = s.loose.retire symbols :=
  rfl

theorem Scope.get?_of_loose {s s' : Scope} (h : s.loose = s'.loose) (name : String) :
    s.get? name = s'.get? name :=
  (congrArg (·.get? name) h : s.loose.get? name = s'.loose.get? name)

namespace Typing

-- What can be asked about an analysis without knowing positions.
inductive Key where
  | symbol (name : String)
  | isClass (name : String)
  | classScope (name : String)
  | routineScope (name : String)
  | type (id : Nat)
deriving DecidableEq

-- Pairs of positions of scopes, none of them global. Each position has one partner.
structure Pairing (R : Nat → Nat → Prop) : Prop where
  left   : ∀ i j j', R i j → R i j' → j = j'
  right  : ∀ i i' j, R i j → R i' j → i = i'
  global : ∀ i j, R i j → i ≠ global ∧ j ≠ global

-- Two analyses give the same answers to the questions `Q`. The scopes `R` are partners.
structure Analysis.Twins (Q : Key → Prop) (R : Nat → Nat → Prop) (a b : Analysis) : Prop where
  pairing  : Pairing R
  blocks   : a.blocks = b.blocks
  outer    : ∃ kind, a.table.scopes[global]?.map Scope.kind = some kind ∧
    b.table.scopes[global]?.map Scope.kind = some kind
  symbols  : ∀ name, Q (.symbol name) →
    a.table.inScope? global name = b.table.inScope? global name
  known    : ∀ name, Q (.isClass name) → a.table.isClass name = b.table.isClass name
  classes  : ∀ name, Q (.classScope name) →
    Option.Rel R (a.table.classScope? name) (b.table.classScope? name)
  routines : ∀ name, Q (.routineScope name) →
    Option.Rel R (a.table.routineScope? name) (b.table.routineScope? name)
  types    : ∀ id, Q (.type id) → a.types[id]? = b.types[id]?
  scopes   : ∀ i j, R i j → ∃ s, a.table.scopes[i]?.map Scope.loose = some s ∧
    b.table.scopes[j]?.map Scope.loose = some s

theorem Rel.mono {R R' : Nat → Nat → Prop} (h : Option.Rel R x y) (hR : ∀ i j, R i j → R' i j) :
    Option.Rel R' x y := by
  cases h
  case none => exact .none
  case some hij => exact .some (hR _ _ hij)

theorem rel_insertIfNew {R R' : Nat → Nat → Prop} (hR : ∀ i j, R i j → R' i j) {i j : Nat}
    (hnew : R' i j) {m m' : Std.TreeMap String Nat} {key : String}
    (h : Option.Rel R m[key]? m'[key]?) (name : String) :
    Option.Rel R' (m.insertIfNew name i)[key]? (m'.insertIfNew name j)[key]? := by
  have hmem : key ∈ m ↔ key ∈ m' := by
    rw [← Std.TreeMap.isSome_getElem?_iff_mem, ← Std.TreeMap.isSome_getElem?_iff_mem]
    generalize m[key]? = x, m'[key]? = y at h
    cases h <;> simp
  rw [Std.TreeMap.getElem?_insertIfNew, Std.TreeMap.getElem?_insertIfNew]
  by_cases hname : name = key
  case pos =>
    subst hname
    by_cases hold : name ∈ m
    · rw [if_neg (by simp [hold]), if_neg (by simp [hmem.mp hold])]
      exact Rel.mono h hR
    · rw [if_pos (by simp [hold]), if_pos (by simp [mt hmem.mpr hold])]
      exact .some hnew
  case neg =>
    rw [if_neg (by simp [hname]), if_neg (by simp [hname])]
    exact Rel.mono h hR

-- Of the notes for one number the last one counts, and only if there is none what was there before.
theorem getElem?_notes_congr (notes : List (Nat × Ty)) {types types' : Std.TreeMap Nat Ty}
    {id : Nat} (h : id ∈ notes.map Prod.fst ∨ types[id]? = types'[id]?) :
    (notes.foldl (fun types (id, type) => types.insert id type) types)[id]? =
      (notes.foldl (fun types (id, type) => types.insert id type) types')[id]? := by
  induction notes generalizing types types'
  case nil =>
    rcases h with h | h
    · cases h
    · exact h
  case cons n notes ih =>
    refine ih ?_
    rw [Std.TreeMap.getElem?_insert, Std.TreeMap.getElem?_insert]
    rw [map_cons, mem_cons] at h
    rcases h with (h | h) | h
    · exact .inr (by simp [h])
    · exact .inl h
    · exact .inr (by rw [h])

namespace Analysis.Twins

variable {Q : Key → Prop} {R : Nat → Nat → Prop} {a b : Analysis}

section

variable (h : Twins Q R a b)

include h

theorem inScope?_eq (hij : R i j) (name : String) :
    a.table.inScope? i name = b.table.inScope? j name := by
  obtain ⟨s, hs, hs'⟩ := h.scopes i j hij
  obtain ⟨s₁, h₁, rfl⟩ := map_eq_some_iff.mp hs
  obtain ⟨s₂, h₂, heq⟩ := map_eq_some_iff.mp hs'
  rw [inScope?_of_scope h₁, inScope?_of_scope h₂]
  exact get?_of_loose heq.symm name

theorem problems (ps qs : List Problem) :
    Twins Q R { a with problems := ps } { b with problems := qs } :=
  { h with }

theorem withBlocks (blocks : List Scope) :
    Twins Q R { a with blocks } { b with blocks } :=
  { h with blocks := rfl }

theorem alter (hij : R i j) {f : Scope → Scope}
    (hf : ∀ s, (f s).loose = f s.loose) :
    Twins Q R { a with table := { a.table with scopes := a.table.scopes.modify i f } }
      { b with table := { b.table with scopes := b.table.scopes.modify j f } } := by
  obtain ⟨hi, hj⟩ := h.pairing.global i j hij
  refine { h with outer := ?_, symbols := fun name hq => ?_, scopes := fun i' j' hij' => ?_ }
  · simpa [Array.getElem?_modify, hi, hj] using h.outer
  · simpa [inScope?, Array.getElem?_modify, hi, hj] using h.symbols name hq
  · obtain ⟨s, hs, hs'⟩ := h.scopes i' j' hij'
    by_cases he : i = i'
    case pos =>
      subst he
      obtain rfl := h.pairing.left _ _ _ hij hij'
      have hmap (o : Option Scope) (ho : o.map Scope.loose = some s) :
          (o.map f).map Scope.loose = some (f s) := by
        rw [Option.map_map, Function.comp_def, funext hf, ← Function.comp_def, ← Option.map_map, ho]
        rfl
      exact ⟨f s, by simpa [Array.getElem?_modify] using hmap _ hs,
        by simpa [Array.getElem?_modify] using hmap _ hs'⟩
    case neg =>
      have he' : j ≠ j' := fun hjj => he (h.pairing.right _ _ _ hij (hjj ▸ hij'))
      exact ⟨s, by simpa [Array.getElem?_modify, he] using hs,
        by simpa [Array.getElem?_modify, he'] using hs'⟩

theorem insert (hij : R i j) (symbol : Symbol) :
    Twins Q R { a with table := a.table.insert i symbol }
      { b with table := b.table.insert j symbol } :=
  h.alter hij (loose_insert symbol)

theorem retire (hij : R i j) (symbols : List Symbol) :
    Twins Q R { a with table := a.table.retire i symbols }
      { b with table := b.table.retire j symbols } :=
  h.alter hij (loose_retire symbols)

-- What is done to both global scopes, if it does to a symbol what depends on that symbol alone.
theorem alterGlobal {f : Scope → Scope} (hk : ∀ s, (f s).kind = s.kind)
    (hf : ∀ s s' name, s.kind = s'.kind → (Q (.symbol name) → s.get? name = s'.get? name) →
      Q (.symbol name) → (f s).get? name = (f s').get? name) :
    Twins Q R
      { a with table := { a.table with scopes := a.table.scopes.modify global f } }
      { b with table := { b.table with scopes := b.table.scopes.modify global f } } := by
  obtain ⟨kind, ha, hb⟩ := h.outer
  obtain ⟨s, hs, rfl⟩ := map_eq_some_iff.mp ha
  obtain ⟨s', hs', hkind⟩ := map_eq_some_iff.mp hb
  refine { h with
    outer := ⟨s.kind, ?_, ?_⟩, symbols := fun name hq => ?_, scopes := fun i j hij => ?_ }
  · simp [Array.getElem?_modify, hs, hk]
  · simp [Array.getElem?_modify, hs', hk, hkind]
  · have hsymbol (hq : Q (.symbol name)) : s.get? name = s'.get? name := by
      simpa [inScope?, hs, hs'] using h.symbols name hq
    simpa [inScope?, Array.getElem?_modify, hs, hs'] using
      hf s s' name hkind.symm hsymbol hq
  · obtain ⟨hi, hj⟩ := h.pairing.global i j hij
    simpa [Array.getElem?_modify, Ne.symm hi, Ne.symm hj] using h.scopes i j hij

theorem insertGlobal (symbol : Symbol) :
    Twins Q R { a with table := a.table.insert global symbol }
      { b with table := b.table.insert global symbol } := by
  refine h.alterGlobal (fun _ => rfl) fun s s' name hk hsymbol hq => ?_
  rw [get?_insert, get?_insert, hk, hsymbol hq]

theorem retypeGlobal (name : String) (type : Ty) :
    Twins Q R { a with table := a.table.retype global name type }
      { b with table := b.table.retype global name type } := by
  refine h.alterGlobal (fun s => ?_) fun s s' name hk hsymbol hq => ?_
  · exact congrArg Prod.fst (s.outline_retype name type)
  · rw [get?_retype, get?_retype, hsymbol hq]

theorem size_pos : global < a.table.scopes.size ∧
    global < b.table.scopes.size := by
  obtain ⟨kind, ha, hb⟩ := h.outer
  obtain ⟨_, hs, -⟩ := map_eq_some_iff.mp ha
  obtain ⟨_, hs', -⟩ := map_eq_some_iff.mp hb
  exact ⟨(Array.getElem?_eq_some_iff.mp hs).1, (Array.getElem?_eq_some_iff.mp hs').1⟩

theorem lt_size (hij : R i j) :
    i < a.table.scopes.size ∧ j < b.table.scopes.size := by
  obtain ⟨s, hs, hs'⟩ := h.scopes i j hij
  obtain ⟨_, hs, -⟩ := map_eq_some_iff.mp hs
  obtain ⟨_, hs', -⟩ := map_eq_some_iff.mp hs'
  exact ⟨(Array.getElem?_eq_some_iff.mp hs).1, (Array.getElem?_eq_some_iff.mp hs').1⟩

theorem newScope (kind : Scope.Kind) (name : String) (parent parent' : Nat) :
    Twins Q (fun i j => R i j ∨ (i = a.table.scopes.size ∧ j = b.table.scopes.size))
      { a with table := a.table.newScope kind name parent }
      { b with table := b.table.newScope kind name parent' } := by
  obtain ⟨hpos, hpos'⟩ := h.size_pos
  have hlt {i j : Nat} (hij : R i j) := h.lt_size hij
  have hold {t : SymbolTable} {parent : Nat} (i : Nat) (hi : i < t.scopes.size) :
      (t.newScope kind name parent).scopes[i]? = t.scopes[i]? := by
    rw [scopes_newScope, if_neg (Nat.ne_of_lt hi)]
  refine ⟨⟨?_, ?_, ?_⟩, h.blocks, ?_, fun n hq => ?_, fun n hq => ?_, fun n hq => ?_,
    fun n hq => ?_, h.types, ?_⟩
  · rintro i j j' (hij | ⟨rfl, rfl⟩) (hij' | ⟨hi, rfl⟩)
    · exact h.pairing.left i j j' hij hij'
    · exact absurd hi (Nat.ne_of_lt (hlt hij).1)
    · exact absurd (hlt hij').1 (Nat.lt_irrefl _)
    · rfl
  · rintro i i' j (hij | ⟨rfl, rfl⟩) (hij' | ⟨rfl, hj⟩)
    · exact h.pairing.right i i' j hij hij'
    · exact absurd hj (Nat.ne_of_lt (hlt hij).2)
    · exact absurd (hlt hij').2 (Nat.lt_irrefl _)
    · rfl
  · rintro i j (hij | ⟨rfl, rfl⟩)
    · exact h.pairing.global i j hij
    · exact ⟨Nat.ne_of_gt hpos, Nat.ne_of_gt hpos'⟩
  · dsimp only
    rw [hold _ hpos, hold _ hpos']
    exact h.outer
  · dsimp only
    rw [inScope?_congr (hold _ hpos), inScope?_congr (hold _ hpos')]
    exact h.symbols n hq
  · have hknown := h.known n hq
    simp only [SymbolTable.isClass, SymbolTable.newScope] at hknown ⊢
    split
    · rw [Std.TreeMap.contains_insertIfNew, Std.TreeMap.contains_insertIfNew, hknown]
    · exact hknown
  · have hrel := h.classes n hq
    simp only [SymbolTable.classScope?, SymbolTable.newScope] at hrel ⊢
    split
    · exact rel_insertIfNew (fun _ _ => .inl) (.inr ⟨rfl, rfl⟩) hrel name
    · exact Rel.mono hrel fun _ _ => .inl
  · have hrel := h.routines n hq
    simp only [SymbolTable.routineScope?, SymbolTable.newScope] at hrel ⊢
    split
    · exact rel_insertIfNew (fun _ _ => .inl) (.inr ⟨rfl, rfl⟩) hrel name
    · exact Rel.mono hrel fun _ _ => .inl
  · rintro i j (hij | ⟨rfl, rfl⟩)
    · dsimp only
      rw [hold _ (hlt hij).1, hold _ (hlt hij).2]
      exact h.scopes i j hij
    · dsimp only
      rw [scopes_newScope, scopes_newScope, if_pos rfl, if_pos rfl]
      exact ⟨Scope.empty kind name none, rfl, rfl⟩

theorem record (f : Finding) : Twins Q R (a.record f) (b.record f) :=
  { h with types := fun id hq => getElem?_notes_congr f.notes (.inr (h.types id hq)) }

end

end Analysis.Twins

structure Analysis.Together (Q : Key → Prop) (R : Nat → Nat → Prop) (a b a' b' : Analysis) :
    Prop where
  twins    : Twins Q R a' b'
  problems : ∃ ps, a'.problems = ps ++ a.problems ∧ b'.problems = ps ++ b.problems

namespace Analysis.Together

variable {Q : Key → Prop} {R : Nat → Nat → Prop} {a b a' b' a'' b'' : Analysis}

theorem of_problems (h : Twins Q R a' b') (ha : a'.problems = a.problems)
    (hb : b'.problems = b.problems) : Together Q R a b a' b' :=
  ⟨h, [], ha, hb⟩

theorem refl (h : Twins Q R a b) : Together Q R a b a b :=
  of_problems h rfl rfl

theorem trans {R' : Nat → Nat → Prop} (h : Together Q R a b a' b')
    (h' : Together Q R' a' b' a'' b'') : Together Q R' a b a'' b'' := by
  obtain ⟨ps, ha, hb⟩ := h.problems
  obtain ⟨qs, ha', hb'⟩ := h'.problems
  refine ⟨h'.twins, qs ++ ps, ?_, ?_⟩
  · rw [ha', ha, append_assoc]
  · rw [hb', hb, append_assoc]

section

variable (h : Twins Q R a b)

include h

theorem report (cause : Cause) (loc : Location) :
    Together Q R a b (a.report cause loc) (b.report cause loc) :=
  ⟨h.problems _ _, [⟨cause, loc⟩], rfl, rfl⟩

theorem reportIf (wrong : Bool) (cause : Cause) (loc : Location) :
    Together Q R a b (a.reportIf wrong cause loc) (b.reportIf wrong cause loc) := by
  cases wrong
  case false => exact refl h
  case true => exact report h cause loc

theorem record (f : Finding) : Together Q R a b (a.record f) (b.record f) :=
  ⟨h.record f, f.problems.reverse, rfl, rfl⟩

theorem declareIn (hij : R i j) (symbol : Symbol) :
    Together Q R a b (a.declareIn i symbol) (b.declareIn j symbol) := by
  rw [Analysis.declareIn, Analysis.declareIn, h.inScope?_eq hij]
  cases b.table.inScope? j symbol.name
  case none => exact of_problems (h.insert hij symbol) rfl rfl
  case some first => exact report h _ _

theorem typeOf (hq : ∀ name, Q (.isClass name)) (type : TypeName)
    (loc : Location) : (a.typeOf type loc).1 = (b.typeOf type loc).1 ∧
      Together Q R a b (a.typeOf type loc).2 (b.typeOf type loc).2 := by
  rw [Analysis.typeOf, Analysis.typeOf, funext fun name => h.known name (hq name)]
  cases writtenType b.table.isClass type
  case ok => exact ⟨rfl, refl h⟩
  case error cause => exact ⟨rfl, report h cause loc⟩

theorem variableType (name : String) (value : Ty) (loc : Location) :
    (a.variableType name value loc).1 = (b.variableType name value loc).1 ∧
      Together Q R a b (a.variableType name value loc).2 (b.variableType name value loc).2 := by
  cases value
  case void | null => exact ⟨rfl, report h _ loc⟩
  all_goals exact ⟨rfl, refl h⟩

end

end Analysis.Together

theorem infer_ids_self (env : Environment) {e : Expr} {id : Nat} (h : e.id? = some id) :
    id ∈ (infer env e).ids := by
  cases e
  case invoke mark object name args =>
    cases h
    rw [infer]
    split
    case h_1 => simp
    case h_2 =>
      dsimp only
      split <;> simp
  case stray => cases h
  all_goals
    cases h
    simp [infer]

structure Wide (Q : Key → Prop) : Prop where
  symbols : ∀ name, Q (.symbol name)
  known   : ∀ name, Q (.isClass name)
  classes : ∀ name, Q (.classScope name)

structure Place.Pairs (R : Nat → Nat → Prop) (p q : Place) : Prop where
  routine   : p.routine = q.routine
  returns   : p.returns = q.returns
  receiver? : p.receiver? = q.receiver?
  home      : R p.home q.home
  scopes    : List.Forall₂ (fun i j => R i j ∨ (i = global ∧ j = global))
    p.scopes q.scopes

section Bodies

variable {Q : Key → Prop} {R : Nat → Nat → Prop} {p q : Place} {a b : Analysis}

theorem Analysis.Twins.findSome?_eq (h : Twins Q R a b) (hq : Wide Q)
    (hs : List.Forall₂ (fun i j => R i j ∨ (i = global ∧ j = global)) is js)
    (name : String) :
    is.findSome? (a.table.inScope? · name) = js.findSome? (b.table.inScope? · name) := by
  induction hs
  case nil => rfl
  case cons i j is js hij hrest ih =>
    have hlook : a.table.inScope? i name = b.table.inScope? j name := by
      rcases hij with hij | ⟨rfl, rfl⟩
      · exact h.inScope?_eq hij name
      · exact h.symbols name (hq.symbols name)
    rw [findSome?_cons, findSome?_cons, hlook, ih]

theorem Analysis.Twins.member?_eq (h : Twins Q R a b) (hq : Q (.classScope className))
    (name : String) : a.table.member? className name = b.table.member? className name := by
  have hrel := h.classes className hq
  rw [member?, member?]
  generalize a.table.classScope? className = i, b.table.classScope? className = j at hrel
  cases hrel
  case none => rfl
  case some hij => exact h.inScope?_eq hij name

theorem Analysis.Twins.environment_eq (h : Twins Q R a b) (hq : Wide Q) (hp : p.Pairs R q) :
    a.environment p = b.environment q := by
  have hmember : a.table.member? = b.table.member? :=
    funext fun className => funext (h.member?_eq (hq.classes className))
  have hknown : a.table.isClass = b.table.isClass :=
    funext fun name => h.known name (hq.known name)
  rw [environment, environment, hmember, hknown, h.blocks, hp.receiver?]
  simp only [h.findSome?_eq hq hp.scopes]

section Steps

variable (h : Analysis.Twins Q R a b) (hq : Wide Q) (hp : p.Pairs R q)

include h hq hp

theorem infer_together (e : Expr) : (a.infer p e).1 = (b.infer q e).1 ∧
    Analysis.Together Q R a b (a.infer p e).2 (b.infer q e).2 := by
  rw [Analysis.infer, Analysis.infer, h.environment_eq hq hp]
  exact ⟨rfl, .record h _⟩

theorem inferInitial_together (type : Option TypeName) (init : Expr) :
    (a.inferInitial p type init).1 = (b.inferInitial q type init).1 ∧
      Analysis.Together Q R a b (a.inferInitial p type init).2 (b.inferInitial q type init).2 := by
  rw [Analysis.inferInitial, Analysis.inferInitial, h.environment_eq hq hp]
  exact ⟨rfl, .record h _⟩

theorem checkVariable_together (name : String) (type : Option TypeName) (init : Option Expr)
    (loc : Location) :
    (checkVariable p a name type init loc).1 = (checkVariable q b name type init loc).1 ∧
      Analysis.Together Q R a b (checkVariable p a name type init loc).2
        (checkVariable q b name type init loc).2 := by
  cases type <;> cases init <;> simp only [checkVariable]
  case none.none => exact ⟨trivial, .refl h⟩
  case none.some init =>
    obtain ⟨htype, hvalue⟩ := inferInitial_together h hq hp none init
    rw [htype]
    obtain ⟨hfound, hlast⟩ := Analysis.Together.variableType hvalue.twins name
      (b.inferInitial q none init).1 loc
    exact ⟨hfound, hvalue.trans hlast⟩
  case some.none type =>
    obtain ⟨htype, hwritten⟩ := Analysis.Together.typeOf h hq.known type loc
    rw [htype]
    exact ⟨rfl, hwritten.trans (.reportIf hwritten.twins _ _ loc)⟩
  case some.some type init =>
    obtain ⟨htype, hwritten⟩ := Analysis.Together.typeOf h hq.known type loc
    obtain ⟨hvalue, hinit⟩ := inferInitial_together hwritten.twins hq hp (some type) init
    rw [htype, hvalue]
    have hvoid := hinit.trans (.reportIf hinit.twins ((b.typeOf type loc).1 = .void)
      (.voidVariable name) loc)
    exact ⟨rfl, hwritten.trans (hvoid.trans (.reportIf hvoid.twins _ _ loc))⟩

theorem checkCondition_together (condition : Expr) :
    Analysis.Together Q R a b (checkCondition p a condition) (checkCondition q b condition) := by
  obtain ⟨htype, hvalue⟩ := infer_together h hq hp condition
  simp only [checkCondition, htype]
  exact hvalue.trans (.reportIf hvalue.twins _ _ _)

-- The type of a part of an expression that has just been looked at does not hang on what was known
-- before.
theorem types_infer_eq (e : Expr) {id : Nat}
    (hid : id ∈ (infer (b.environment q) e).ids ∨ a.types[id]? = b.types[id]?) :
    (a.infer p e).2.types[id]? = (b.infer q e).2.types[id]? := by
  rw [Analysis.infer, Analysis.infer, h.environment_eq hq hp]
  exact getElem?_notes_congr _ hid

theorem constantTarget?_together (target value : Expr) :
    constantTarget? (((a.infer p target).2.infer p value).2.environment p)
        ((a.infer p target).2.infer p value).2.types target =
      constantTarget? (((b.infer q target).2.infer q value).2.environment q)
        ((b.infer q target).2.infer q value).2.types target := by
  obtain ⟨-, htarget⟩ := infer_together h hq hp target
  obtain ⟨-, hvalue⟩ := infer_together htarget.twins hq hp value
  rw [hvalue.twins.environment_eq hq hp]
  cases target <;> try rfl
  case member mark object name =>
    simp only [constantTarget?]
    cases hid : object.id?
    case none => rfl
    case some id =>
      have hnoted : id ∈ (infer (b.environment q) (.member mark object name)).ids := by
        rw [infer, Finding.ids_ofRule, flatMap_singleton]
        exact mem_append_left _ (infer_ids_self _ hid)
      have htypes := types_infer_eq htarget.twins hq hp value
        (.inr (types_infer_eq h hq hp (.member mark object name) (.inl hnoted)))
      simp only [bind_eq_bind, bind_some]
      rw [htypes]

theorem checkAssign_together (target : Expr) (op : Option BinaryOp) (value : Expr)
    (loc : Location) : Analysis.Together Q R a b (checkAssign p a target op value loc)
      (checkAssign q b target op value loc) := by
  obtain ⟨htarget, hfirst⟩ := infer_together h hq hp target
  obtain ⟨hvalue, hsecond⟩ := infer_together hfirst.twins hq hp value
  simp only [checkAssign, constantTarget?_together h hq hp target value, htarget, hvalue]
  have hboth := hfirst.trans hsecond
  refine hboth.trans ?_
  generalize constantTarget? _ _ _ = found
  cases found
  case some name => exact .report hboth.twins _ loc
  case none =>
    generalize (b.infer q target).1 = type, ((b.infer q target).2.infer q value).1 = stored
    cases type.isError || stored.isError
    case true => exact .refl hboth.twins
    case false =>
      cases op
      case none => exact .reportIf hboth.twins _ _ loc
      case some op =>
        dsimp only
        cases op.result? type stored
        case none => exact .report hboth.twins _ loc
        case some => exact .reportIf hboth.twins _ _ loc

theorem checkResult_together (value : Option Expr) (loc : Location) :
    Analysis.Together Q R a b (checkResult p a value loc) (checkResult q b value loc) := by
  cases value <;> simp only [checkResult, hp.routine, hp.returns]
  case none => exact .reportIf h _ _ loc
  case some value =>
    obtain ⟨htype, hvalue⟩ := infer_together h hq hp value
    rw [htype]
    refine hvalue.trans ?_
    split
    · exact .report hvalue.twins _ loc
    · exact .reportIf hvalue.twins _ _ loc

end Steps

theorem declare_together (hp : p.Pairs R q) (h : Analysis.Twins Q R a b) (symbol : Symbol) :
    Analysis.Together Q R a b (a.declare p symbol) (b.declare q symbol) := by
  rw [Analysis.declare, Analysis.declare, h.blocks]
  cases b.blocks
  case nil => exact .declareIn h hp.home symbol
  case cons block outer =>
    dsimp only
    cases block.get? symbol.name
    case none => exact .of_problems (h.withBlocks _) rfl rfl
    case some first => exact .report h _ _

theorem leave_together (hp : p.Pairs R q) (h : Analysis.Twins Q R a b) :
    Analysis.Together Q R a b (a.leave p) (b.leave q) := by
  rw [Analysis.leave, Analysis.leave, h.blocks]
  cases b.blocks
  case nil => exact .refl h
  case cons block outer =>
    exact .of_problems ((h.retire hp.home block.symbols).withBlocks outer) rfl rfl

theorem enter_together (h : Analysis.Twins Q R a b) :
    Analysis.Together Q R a b a.enter b.enter := by
  rw [Analysis.enter, Analysis.enter, h.blocks]
  exact .of_problems (h.withBlocks _) rfl rfl

theorem inBlock_together (hp : p.Pairs R q) (h : Analysis.Twins Q R a b) {a' b' : Analysis}
    (hbody : Analysis.Twins Q R a.enter b.enter → Analysis.Together Q R a.enter b.enter a' b') :
    Analysis.Together Q R a b (a'.leave p) (b'.leave q) := by
  have henter := enter_together h
  have hinside := hbody henter.twins
  exact henter.trans (hinside.trans (leave_together hp hinside.twins))

mutual

theorem checkStmt_together {a b : Analysis} (hq : Wide Q) (hp : p.Pairs R q)
    (h : Analysis.Twins Q R a b) (inLoop : Bool) (s : Stmt) :
    Analysis.Together Q R a b (checkStmt p inLoop a s) (checkStmt q inLoop b s) := by
  cases s <;> simp only [checkStmt]
  case «variable» loc name type init =>
    obtain ⟨htype, hfound⟩ := checkVariable_together h hq hp name type init loc
    rw [htype]
    exact hfound.trans (declare_together hp hfound.twins _)
  case constant loc name type value =>
    obtain ⟨htype, hfound⟩ := checkVariable_together h hq hp name (some type) (some value) loc
    rw [htype]
    exact hfound.trans (declare_together hp hfound.twins _)
  case block loc body => exact inBlock_together hp h fun h => checkBody_together hq hp h inLoop body
  case assign loc target op value => exact checkAssign_together h hq hp target op value loc
  case result loc value => exact checkResult_together h hq hp value loc
  case branch loc condition thenBody elseBody =>
    have hcondition := checkCondition_together h hq hp condition
    have hthen := inBlock_together hp hcondition.twins fun h =>
      checkBody_together hq hp h inLoop thenBody
    exact hcondition.trans (hthen.trans (checkElse_together hq hp hthen.twins inLoop elseBody))
  case whileLoop loc condition body =>
    have hcondition := checkCondition_together h hq hp condition
    exact hcondition.trans (inBlock_together hp hcondition.twins fun h =>
      checkBody_together hq hp h true body)
  case forLoop loc init condition update body =>
    refine inBlock_together hp h fun h => ?_
    have hinit := checkStep_together hq hp h inLoop init
    have hround {a' b' : Analysis} (h : Analysis.Together Q R a.enter b.enter a' b') :
        Analysis.Together Q R a.enter b.enter
          ((checkBody p true (checkStep p inLoop a' update).enter body).leave p)
          ((checkBody q true (checkStep q inLoop b' update).enter body).leave q) := by
      have hupdate := h.trans (checkStep_together hq hp h.twins inLoop update)
      exact hupdate.trans (inBlock_together hp hupdate.twins fun h =>
        checkBody_together hq hp h true body)
    cases condition
    case none => exact hround hinit
    case some condition =>
      exact hround (hinit.trans (checkCondition_together hinit.twins hq hp condition))
  case breakLoop | continueLoop => exact .reportIf h _ _ _
  case evaluate loc e => exact (infer_together h hq hp e).2
  case bare e => exact (infer_together h hq hp e).2
  case classDef | routine => exact .report h _ _

theorem checkBody_together {a b : Analysis} (hq : Wide Q) (hp : p.Pairs R q)
    (h : Analysis.Twins Q R a b) (inLoop : Bool) (body : List Stmt) :
    Analysis.Together Q R a b (checkBody p inLoop a body) (checkBody q inLoop b body) := by
  cases body
  case nil => exact .refl h
  case cons s rest =>
    have hfirst := checkStmt_together hq hp h inLoop s
    exact hfirst.trans (checkBody_together hq hp hfirst.twins inLoop rest)

theorem checkElse_together {a b : Analysis} (hq : Wide Q) (hp : p.Pairs R q)
    (h : Analysis.Twins Q R a b) (inLoop : Bool)
    (body : Option (List Stmt)) :
    Analysis.Together Q R a b (checkElse p inLoop a body) (checkElse q inLoop b body) := by
  cases body
  case none => exact .refl h
  case some body => exact inBlock_together hp h fun h => checkBody_together hq hp h inLoop body

theorem checkStep_together {a b : Analysis} (hq : Wide Q) (hp : p.Pairs R q)
    (h : Analysis.Twins Q R a b) (inLoop : Bool) (s : Option Stmt) :
    Analysis.Together Q R a b (checkStep p inLoop a s) (checkStep q inLoop b s) := by
  cases s
  case none => exact .refl h
  case some s => exact checkStmt_together hq hp h inLoop s

end

end Bodies

end Typing
end Lumen
