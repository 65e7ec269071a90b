import Lumen.Proofs.Typing.Lookup
import Mathlib.Data.List.Nodup

namespace Lumen

open Typing List Option SymbolTable Names

structure Scope.Holds (c : Checked) (s : Scope) (block : List Binding) : Prop where
  get?  : ∀ name, s.get? name = (block.find? (·.declared.name = name)).map (·.symbol c)
  known : ∀ b ∈ block, b.declared.Known c

-- The types of what was declared in blocks that have ended are known.
def Scope.Closed (c : Checked) (s : Scope) : Prop :=
  ∀ symbol ∈ s.ended, symbol.type = .error → c.Unknown

variable {symbol : Symbol}

namespace Scope.Holds

variable {c : Checked} {s : Scope} {block : List Binding}

theorem fresh {name : String} (h : s.Holds c block) (hn : s.get? name = none) :
    ∀ b ∈ block, b.declared.name ≠ name := by
  rw [h.get? name, map_eq_none_iff, find?_eq_none] at hn
  simpa using hn

theorem insert {b : Binding} (h : s.Holds c block)
    (hs : { symbol with home := s.kind } = b.symbol c) (hk : b.declared.Known c) :
    (s.insert symbol).Holds c (b :: block) where
  get? name := by
    have hname : symbol.name = b.declared.name := congrArg Symbol.name hs
    rw [Scope.get?_insert, hs, hname, h.get? name, find?_cons]
    by_cases e : b.declared.name = name <;> simp [e]
  known := forall_mem_cons.mpr ⟨hk, h.known⟩

theorem empty (c : Checked) (kind : Scope.Kind) (name : String) (parent : Option Nat) :
    (Scope.empty kind name parent).Holds c [] where
  get? _ := Scope.get?_empty _ _ _ _
  known := by simp

theorem unknown (h : s.Holds c block) (hs : symbol ∈ s.symbols) (he : symbol.type = .error) :
    c.Unknown := by
  obtain ⟨name, -, hget⟩ := mem_filterMap.mp hs
  rw [h.get? name] at hget
  obtain ⟨b, hb, rfl⟩ := map_eq_some_iff.mp hget
  exact h.known b (mem_of_find?_eq_some hb) he

end Scope.Holds

variable {c : Checked}

theorem Scope.Closed.retire {s : Scope} {symbols : List Symbol} (h : s.Closed c)
    (hs : ∀ symbol ∈ symbols, symbol.type = .error → c.Unknown) : (s.retire symbols).Closed c := by
  intro symbol hmem
  rcases mem_append.mp hmem with hmem | hmem
  · exact hs symbol (mem_reverse.mp hmem)
  · exact h symbol hmem

-- The open blocks, and the scope `home` of the routine behind them, hold what the names tell.
def Matches (c : Checked) (home : Scope) : List Scope → List (List Binding) → Prop
  | [], [block] => home.kind = .method ∧ home.Holds c block ∧ home.Closed c
  | s :: scopes, block :: outer => s.kind = .block ∧ s.Holds c block ∧ Matches c home scopes outer
  | _, _ => False

theorem Matches.empty (c : Checked) (name : String) (parent : Option Nat) :
    Matches c (Scope.empty .method name parent) [] Names.empty.blocks :=
  ⟨rfl, .empty c _ _ _, fun _ h => absurd h not_mem_nil⟩

variable {blocks : List (List Binding)} {home : Scope} {scopes : List Scope}

theorem Matches.find? (h : Matches c home scopes blocks) (name : String) :
    (scopes.findSome? (·.get? name)).or (home.get? name) =
      (blocks.findSome? (·.find? (·.declared.name = name))).map (·.symbol c) := by
  fun_induction Matches c home scopes blocks
  case case1 block =>
    simp [h.2.1.get? name]
  case case2 s scopes block outer ih =>
    rw [findSome?_cons, findSome?_cons, h.2.1.get? name]
    cases block.find? (·.declared.name = name)
    case none => exact ih h.2.2
    case some b => rfl
  case case3 => exact h.elim

theorem Matches.retire {symbols : List Symbol} (h : Matches c home scopes blocks)
    (hs : ∀ symbol ∈ symbols, symbol.type = .error → c.Unknown) :
    Matches c (home.retire symbols) scopes blocks := by
  fun_induction Matches c home scopes blocks
  case case1 block => exact ⟨h.1, ⟨h.2.1.get?, h.2.1.known⟩, h.2.2.retire hs⟩
  case case2 s scopes block outer ih => exact ⟨h.1, h.2.1, ih h.2.2⟩
  case case3 => exact h.elim

theorem Matches.cons (h : Matches c home (s :: scopes) blocks) :
    ∃ block outer, blocks = block :: outer ∧ s.kind = .block ∧ s.Holds c block ∧
      Matches c home scopes outer := by
  match blocks, h with
  | block :: outer, h => exact ⟨block, outer, rfl, h⟩

theorem Matches.base (h : Matches c home [] blocks) :
    ∃ block, blocks = [block] ∧ home.kind = .method ∧ home.Holds c block ∧ home.Closed c := by
  match blocks, h with
  | [block], h => exact ⟨block, rfl, h⟩

theorem Matches.eq_nil (h : Matches c home scopes blocks) (hb : blocks.tail = []) :
    scopes = [] := by
  cases scopes
  case nil => rfl
  case cons s scopes =>
    obtain ⟨block, outer, hblocks, _, _, hrest⟩ := h.cons
    rw [hblocks] at hb
    rw [show outer = [] from hb] at hrest
    cases scopes <;> exact hrest.elim

theorem Matches.kind (h : Matches c home [] blocks) : home.kind = .method :=
  have ⟨_, _, hkind, _⟩ := h.base
  hkind

def Scope.Settled (c : Checked) (s : Scope) : Prop :=
  ∀ symbol ∈ s.symbols ++ s.retired, symbol.type = .error → c.Unknown

theorem Matches.settled (h : Matches c home [] blocks) : home.Settled c := by
  obtain ⟨block, -, -, hholds, hclosed⟩ := h.base
  intro symbol hmem
  rcases mem_append.mp hmem with hmem | hmem
  · exact hholds.unknown hmem
  · exact hclosed symbol (mem_reverse.mp hmem)

variable {d : Declaration}

theorem Matches.declare {names : Names} (h : Matches c home [] names.blocks)
    (hs : { symbol with home := .method } = (Binding.mk names.next .method d).symbol c)
    (hk : d.Known c) : Matches c (home.insert symbol) [] (names.declare d).blocks := by
  obtain ⟨block, hblocks, hkind, hholds, hclosed⟩ := h.base
  simp only [Names.declare, hblocks]
  exact ⟨hkind, hholds.insert (by rw [hkind]; exact hs) hk, hclosed⟩

variable {e : Expr}

namespace Typing.Analysis

def Final (a : Analysis) (c : Checked) (ids : List Nat) : Prop :=
  ∀ id ∈ ids, c.types[id]? = a.types[id]?

theorem Final.mono {a : Analysis} (h : a.Final c ids') (hi : ids ⊆ ids') : a.Final c ids :=
  fun id hid => h id (hi hid)

-- Types that later steps do not look at were final before them.
theorem Final.of_advances {a a' : Analysis} {H : Nat → Prop} (h : a'.Final c ids)
    (ha : a.Advances H ids' es a') (hd : ids.Disjoint ids') : a.Final c ids :=
  fun id hid => (h id hid).trans (ha.types id (hd hid))

theorem Final.before {a a' : Analysis} {H : Nat → Prop} (h : a'.Final c (ids ++ ids'))
    (ha : a.Advances H ids' es a') (hn : (ids ++ ids').Nodup) : a.Final c ids :=
  (h.mono (subset_append_left _ _)).of_advances ha (disjoint_of_nodup_append hn)

theorem Final.right {a : Analysis} (h : a.Final c (ids ++ ids')) : a.Final c ids' :=
  h.mono (subset_append_right _ _)

theorem Final.of_leave {a : Analysis} (h : (a.leave place).Final c ids) : a.Final c ids :=
  fun id hid => (h id hid).trans (by rw [types_leave])

theorem getElem?_foldl_insert_of_mem {notes : List (Nat × Ty)} {types : Std.TreeMap Nat Ty}
    (hn : (notes.map Prod.fst).Nodup) (h : n ∈ notes) :
    (notes.foldl (fun types (id, type) => types.insert id type) types)[n.1]? = some n.2 := by
  induction notes generalizing types
  case nil => simp at h
  case cons m notes ih =>
    rw [map_cons, nodup_cons] at hn
    rcases mem_cons.mp h with rfl | h
    · rw [foldl_cons, getElem?_foldl_insert _ _ _ hn.1]
      simp
    · exact ih hn.2 h

theorem Final.keeps {a : Analysis} (h : (a.record f).Final c f.ids) (hn : f.ids.Nodup)
    (hp : f.problems = []) : c.Keeps f := by
  refine ⟨hp, fun n hmem => ?_⟩
  rw [h n.1 (mem_map_of_mem hmem)]
  exact getElem?_foldl_insert_of_mem hn hmem

theorem Final.infer {W : String → Prop} {a : Analysis} (h : (a.infer place e).2.Final c e.ids)
    (hf : e.Formed W) (hn : e.ids.Nodup) (hs : (a.infer place e).2.Sound) :
    c.Keeps (Typing.infer (a.environment place) e) ∧ (a.infer place e).1 = c.typeOf e := by
  have hids := infer_ids (a.environment place) e hf
  have hprob := (hs.of_record (infer_severe (a.environment place) e)).1
  have hkeeps : c.Keeps (Typing.infer (a.environment place) e) :=
    Final.keeps (by rw [hids]; exact h) (hids ▸ hn) hprob
  exact ⟨hkeeps, (hkeeps.typeOf_eq hf).symm⟩

end Typing.Analysis

namespace Setting

variable (g : Setting)

-- The place of a body in the check.
structure Fits (place : Place) : Prop where
  scopes    : place.scopes = place.home :: g.outer
  receiver? : place.receiver? = g.receiver?
  returns   : place.returns = g.returns
  outer     : place.home ∉ g.outer
  classes   : ∀ (name : String) (i : Nat), g.table.classes[name]? = some i → i ≠ place.home

structure Agrees (place : Place) (a : Analysis) (names : Names) : Prop where
  home    : ∃ s, a.table.scopes[place.home]? = some s ∧ Matches g.program s a.blocks names.blocks
  outer   : ∀ i ∈ g.outer, a.table.scopes[i]? = g.table.scopes[i]?
  members : ∀ (name : String) (i : Nat), g.table.classes[name]? = some i →
    a.table.scopes[i]? = g.table.scopes[i]?
  classes : a.table.classes = g.table.classes

variable {g} {place : Place} {a a' : Analysis} {names : Names}

section

variable (h : g.Agrees place a names)

include h

theorem Agrees.isClass_eq : a.table.isClass = g.table.isClass :=
  isClass_congr h.classes

theorem Agrees.member?_eq : a.table.member? = g.table.member? :=
  member?_congr h.classes h.members

-- The check sees what the text tells.
theorem Agrees.environment_eq (hp : g.Fits place) :
    a.environment place = g.environment names := by
  have hsymbol : (a.environment place).symbol? = (g.environment names).symbol? := by
    funext name
    obtain ⟨s, hs, hm⟩ := h.home
    have hfind := hm.find? name
    simp only [Analysis.environment, Setting.environment, hp.scopes, findSome?_cons,
      inScope?_of_scope hs, findSome?_inScope?_congr h.outer, Names.find?]
    cases hb : a.blocks.findSome? (·.get? name)
    case some symbol =>
      rw [hb, some_or] at hfind
      obtain ⟨b, hb, hsymbol⟩ := map_eq_some_iff.mp hfind.symm
      simp [hb, hsymbol]
    case none =>
      rw [hb, none_or] at hfind
      rw [hfind]
      cases names.blocks.findSome? (·.find? (·.declared.name = name)) <;> rfl
  simp only [Analysis.environment, Setting.environment, Environment.mk.injEq] at hsymbol ⊢
  exact ⟨hsymbol, h.member?_eq, h.isClass_eq, hp.receiver?⟩

theorem Agrees.lookup_eq (hp : g.Fits place) (e : Expr) :
    a.lookup place e = g.lookup place.routine (names, e) := by
  rw [Analysis.lookup, h.environment_eq hp, Setting.lookup]

theorem Agrees.lookups_eq (hp : g.Fits place) (e : Option Expr) :
    e.toList.map (a.lookup place) =
      (e.toList.map (names, ·)).map (g.lookup place.routine) := by
  rw [List.map_map]
  exact List.map_congr_left fun e _ => h.lookup_eq hp e

theorem Agrees.ne_nil : names.blocks ≠ [] := by
  obtain ⟨s, _, hm⟩ := h.home
  intro hn
  rw [hn] at hm
  cases hb : a.blocks <;> simp [hb, Matches] at hm

theorem Agrees.report (cause : Cause) (loc : Location) :
    g.Agrees place (a.report cause loc) names :=
  ⟨h.home, h.outer, h.members, h.classes⟩

theorem Agrees.reportIf (wrong : Bool) (cause : Cause)
    (loc : Location) : g.Agrees place (a.reportIf wrong cause loc) names := by
  unfold Analysis.reportIf
  split
  · exact h.report cause loc
  · exact h

theorem Agrees.after_infer (e : Expr) :
    g.Agrees place (a.infer place e).2 names :=
  ⟨h.home, h.outer, h.members, h.classes⟩

theorem Agrees.enter : g.Agrees place a.enter names.enter := by
  obtain ⟨s, hs, hm⟩ := h.home
  exact ⟨⟨s, hs, rfl, .empty _ _ _ _, hm⟩, h.outer, h.members, h.classes⟩

theorem Agrees.leave (hp : g.Fits place)
    (hn : names.leave.blocks ≠ []) : g.Agrees place (a.leave place) names.leave := by
  obtain ⟨s, hs, hm⟩ := h.home
  unfold Matches at hm
  split at hm
  case h_1 hblocks => simp [Names.leave, hblocks] at hn
  case h_3 => exact hm.elim
  case h_2 scope scopes block outer hscopes hblocks =>
    simp only [Analysis.leave, hscopes]
    have hkept {i : Nat} (hi : i ≠ place.home) :
        (a.table.retire place.home scope.symbols).scopes[i]? = a.table.scopes[i]? := by
      simp [Ne.symm hi]
    have hmatch : Matches g.program (s.retire scope.symbols) scopes outer :=
      hm.2.2.retire fun symbol hmem he => hm.2.1.unknown hmem he
    exact {
      home := ⟨s.retire scope.symbols, by simp [hs], by simpa [Names.leave, hblocks] using hmatch⟩
      outer := fun i hi => (hkept (fun e => hp.outer (e ▸ hi))).trans (h.outer i hi)
      members := fun name i hi =>
        (hkept (hp.classes name i hi)).trans (h.members name i hi)
      classes := h.classes }

theorem Agrees.declare (hp : g.Fits place)
    (hs : (a.declare place symbol).Sound)
    (hd : symbol = (Binding.mk 0 symbol.home d).symbol g.program) (hk : d.Known g.program) :
    (∀ b ∈ names.here, b.declared.name ≠ d.name) ∧
      g.Agrees place (a.declare place symbol) (names.declare d) := by
  have hname : symbol.name = d.name := congrArg Symbol.name hd
  have hbinding (cell : Nat) (kind : Scope.Kind) :
      { symbol with home := kind } = (Binding.mk cell kind d).symbol g.program := by
    rw [hd]
    rfl
  obtain ⟨s, hhome, hm⟩ := h.home
  have ha := Analysis.Advances.declare place a symbol
  suffices hnew : (∀ b ∈ names.here, b.declared.name ≠ d.name) ∧ ∃ s',
      (a.declare place symbol).table.scopes[place.home]? = some s' ∧
        Matches g.program s' (a.declare place symbol).blocks (names.declare d).blocks from
    ⟨hnew.1, {
      home := hnew.2
      outer := fun i hi => (ha.scopes i (fun e => hp.outer (e ▸ hi))).trans (h.outer i hi)
      members := fun name i hi =>
        (ha.scopes i (hp.classes name i hi)).trans (h.members name i hi)
      classes := ha.classes.trans h.classes }⟩
  cases hscopes : a.blocks
  case nil =>
    have hin : a.declare place symbol = a.declareIn place.home symbol := by
      simp [Analysis.declare, hscopes]
    rw [hin] at hs ⊢
    rw [hscopes] at hm
    obtain ⟨hfree, heq⟩ := hs.of_declareIn
    obtain ⟨block, hblocks, _, hholds, _⟩ := hm.base
    rw [inScope?_of_scope hhome, hname] at hfree
    refine ⟨by simpa [Names.here, hblocks] using hholds.fresh hfree, s.insert symbol, ?_, ?_⟩
    · simp [heq, hhome]
    · rw [heq, hscopes]
      exact hm.declare (hbinding _ _) hk
  case cons scope scopes =>
    rw [hscopes] at hm
    obtain ⟨hfree, heq⟩ := hs.of_declare_block hscopes
    obtain ⟨block, outer, hblocks, hm⟩ := hm.cons
    rw [hname] at hfree
    refine ⟨by simpa [Names.here, hblocks] using hm.2.1.fresh hfree, s, ?_, ?_⟩
    · simp [heq, hhome]
    · have houter : outer ≠ [] := by
        intro hn
        have hrest := hm.2.2
        rw [hn] at hrest
        cases scopes <;> exact hrest
      simp only [heq, Names.declare, hblocks]
      exact ⟨hm.1, hm.2.1.insert (by rw [hm.1]; simpa [houter] using hbinding _ _) hk, hm.2.2⟩

end

variable {W : String → Prop}

theorem Agrees.infer (h : g.Agrees place a names) (hp : g.Fits place) (hf : e.Formed W)
    (hn : e.ids.Nodup) (hs : (a.infer place e).2.Sound)
    (hk : (a.infer place e).2.Final g.program e.ids) :
    g.Admits names e ∧ (a.infer place e).1 = g.program.typeOf e := by
  obtain ⟨hkeeps, htype⟩ := hk.infer hf hn hs
  rw [h.environment_eq hp] at hkeeps
  exact ⟨hkeeps, htype⟩

theorem Agrees.inferInitial_eq {declared : Option TypeName} (init : Expr)
    (h : g.Agrees place a names)
    (hknown : ∀ t ∈ declared, writtenType g.table.isClass t = .ok (Ty.ofName t)) :
    a.inferInitial place declared init = a.infer place init := by
  have heq : Typing.inferInitial (a.environment place) declared init =
      Typing.infer (a.environment place) init :=
    Typing.inferInitial_eq (by simpa only [Analysis.environment, h.isClass_eq] using hknown)
  simp only [Analysis.inferInitial, Analysis.infer, heq]

theorem Fills.declaration_known (h : g.Fills names d) (hf : FormedOption W d.init)
    (hsome : d.type.isSome ∨ d.init.isSome) : d.Known g.program := by
  obtain ⟨name, loc, type, init, isConst, isParam⟩ := d
  cases type <;> cases init <;> try exact .of_type rfl
  case none.none => simp at hsome
  case none.some init =>
    intro he
    have hkeeps : g.program.Keeps _ := h.admits init rfl
    obtain ⟨id, -, htype⟩ := hkeeps.recorded hf
    rw [← hkeeps.typeOf_eq hf, show g.program.typeOf init = .error from he] at htype
    exact ⟨id, htype⟩

theorem Agrees.checkVariable (h : g.Agrees place a names) (hp : g.Fits place)
    (hf : FormedOption W d.init) (hsome : d.type.isSome ∨ d.init.isSome)
    (hn : (idsOfOption d.init).Nodup)
    (hs : (checkVariable place a d.name d.type d.init d.loc).2.Sound)
    (hk : (checkVariable place a d.name d.type d.init d.loc).2.Final g.program
      (idsOfOption d.init)) :
    g.Fills names d ∧
      (checkVariable place a d.name d.type d.init d.loc).1 = d.typeIn g.program ∧
      g.Agrees place (checkVariable place a d.name d.type d.init d.loc).2 names := by
  obtain ⟨name, loc, type, init, isConst, isParam⟩ := d
  cases type <;> cases init <;> simp only [Typing.checkVariable] at hs hk ⊢
  case none.none => simp at hsome
  case none.some init =>
    rw [h.inferInitial_eq init (by simp)] at hs hk ⊢
    obtain ⟨hvoid, hnull, heq⟩ := hs.of_variableType
    rw [heq] at hs hk ⊢
    obtain ⟨hadmits, htype⟩ := h.infer hp hf hn hs hk
    rw [htype] at hvoid hnull
    exact ⟨⟨by simp, hvoid, hnull, by simpa using hadmits,
      by simp [Declaration.typeIn, Ty.assignable]⟩, htype, h.after_infer _⟩
  case some.none type =>
    obtain ⟨hvoid, hs⟩ := hs.of_reportIf (by simp [Cause.kind])
    obtain ⟨heq, hwritten⟩ := hs.of_typeOf
    rw [h.isClass_eq] at hwritten
    rw [heq] at hvoid ⊢
    refine ⟨⟨by simpa using hwritten, by simpa [Declaration.typeIn] using hvoid, ?_, by simp,
      by simp⟩, rfl, h.reportIf _ _ _⟩
    cases type <;> simp [Declaration.typeIn, Ty.ofName]
  case some.some type init =>
    obtain ⟨hstored, hs'⟩ := hs.of_reportIf (by simp [Cause.kind])
    obtain ⟨hvoid, hs'⟩ := hs'.of_reportIf (by simp [Cause.kind])
    obtain ⟨heq, hwritten⟩ :=
      (hs'.of_advances (.inferInitial place (H := (· = place.home)) _ (some type) init)).of_typeOf
    rw [h.isClass_eq] at hwritten
    rw [heq] at hs' hvoid hstored hk ⊢
    have hknown : ∀ t ∈ some type, writtenType g.table.isClass t = .ok (Ty.ofName t) := by
      simpa using hwritten
    simp only [h.inferInitial_eq init hknown] at hs' hstored hk ⊢
    have hadvances := (Analysis.Advances.reportIf (H := (· = place.home))
      (a.infer place init).2 (Ty.ofName type = .void) (.voidVariable name) loc).next
      (.reportIf _ (!(Ty.ofName type).assignable (a.infer place init).1)
        (.stored (a.infer place init).1 (.variable name) (Ty.ofName type)) loc)
    obtain ⟨hadmits, htype⟩ := h.infer hp hf hn hs' (hk.of_advances hadvances (by simp))
    refine ⟨⟨hknown, by simpa [Declaration.typeIn] using hvoid, ?_, by simpa using hadmits, ?_⟩,
      rfl, ((h.after_infer _).reportIf _ _ _).reportIf _ _ _⟩
    · cases type <;> simp [Declaration.typeIn, Ty.ofName]
    · rw [htype] at hstored
      simpa [Declaration.typeIn] using hstored

theorem Agrees.checkCondition (h : g.Agrees place a names) (hp : g.Fits place) (hf : e.Formed W)
    (hn : e.ids.Nodup) (hs : (checkCondition place a e).Sound)
    (hk : (checkCondition place a e).Final g.program e.ids) :
    g.Decides names e ∧ g.Agrees place (checkCondition place a e) names := by
  simp only [Typing.checkCondition] at hs hk ⊢
  obtain ⟨hbool, hs'⟩ := hs.of_reportIf (by simp [Cause.kind])
  have hk' := hk.of_advances (Analysis.Advances.reportIf (H := (· = place.home)) _ _ _ _) (by simp)
  obtain ⟨hadmits, htype⟩ := h.infer hp hf hn hs' hk'
  rw [htype] at hbool
  refine ⟨⟨hadmits, ?_⟩, (h.after_infer _).reportIf _ _ _⟩
  revert hbool
  cases g.program.typeOf e <;> simp [Ty.isError]

theorem Agrees.checkOptional {condition : Option Expr} (h : g.Agrees place a names)
    (hp : g.Fits place) (hf : FormedOption W condition) (hn : (idsOfOption condition).Nodup)
    (hs : (checkOptional place a condition).Sound)
    (hk : (checkOptional place a condition).Final g.program (idsOfOption condition)) :
    (∀ e ∈ condition, g.Decides names e) ∧
      g.Agrees place (checkOptional place a condition) names := by
  cases condition
  case none => exact ⟨by simp, h⟩
  case some e => simpa [Typing.checkOptional] using h.checkCondition hp hf hn hs hk

theorem constantTarget?_congr {target : Expr} (h : ∀ id ∈ target.ids, types[id]? = types'[id]?) :
    constantTarget? env types target = constantTarget? env types' target := by
  cases target
  case member m object name =>
    rw [constantTarget?, constantTarget?]
    cases hid : object.id?
    case none => rfl
    case some id =>
      have hmem : id ∈ (Expr.member m object name).ids := by
        simp [Expr.ids, object.mem_ids_of_id? hid]
      simp [h id hmem]
  all_goals rfl

section

variable (h : g.Agrees place a names)

include h

theorem Agrees.after_assign (target value : Expr)
    (op : Option BinaryOp) (loc : Location) :
    g.Agrees place (checkAssign place a target op value loc) names := by
  have hboth := (h.after_infer target).after_infer value
  simp only [Typing.checkAssign]
  split
  · exact hboth.report _ loc
  · split
    · exact hboth
    · split
      · exact hboth.reportIf _ _ loc
      · split
        · exact hboth.report _ loc
        · exact hboth.reportIf _ _ loc

theorem Agrees.checkAssign {target value : Expr} (hp : g.Fits place)
    (ht : target.Formed W) (hv : value.Formed W) (hn : (target.ids ++ value.ids).Nodup)
    (hs : (checkAssign place a target op value loc).Sound)
    (hk : (checkAssign place a target op value loc).Final g.program (target.ids ++ value.ids)) :
    g.Assigns names target op value := by
  have hreports := checkAssign_reports (H := (· = place.home)) place a target value op loc
  have hs' := hs.of_advances hreports
  have hk' := hk.of_advances hreports (by simp)
  have hafter := Analysis.Advances.infer (H := (· = place.home)) place
    (a.infer place target).2 value
  obtain ⟨hreads, htarget⟩ := h.infer hp ht hn.of_append_left (hs'.of_advances hafter)
    ((hk'.mono (by simp)).of_advances hafter (disjoint_of_nodup_append hn))
  obtain ⟨hadmits, hvalue⟩ :=
    (h.after_infer target).infer hp hv hn.of_append_right hs' (hk'.mono (by simp))
  have hconst : constantTarget? (g.environment names) g.program.types target =
      constantTarget? (((a.infer place target).2.infer place value).2.environment place)
        ((a.infer place target).2.infer place value).2.types target := by
    rw [((h.after_infer target).after_infer value).environment_eq hp]
    exact constantTarget?_congr fun id hid => hk' id (by simp [hid])
  simp only [Typing.checkAssign, htarget, hvalue] at hs
  split at hs
  case h_1 => exact absurd hs (Analysis.Sound.not_report (by simp [Cause.kind]))
  case h_2 hmutable =>
    refine ⟨hreads, hadmits, hconst.trans hmutable, ?_⟩
    split at hs
    case isTrue herror =>
      rw [Bool.or_eq_true, Ty.isError_iff, Ty.isError_iff] at herror
      exact herror.elim .inl fun he => .inr (.inl he)
    case isFalse =>
      refine .inr (.inr ?_)
      cases op
      case none =>
        have hstored := (hs.of_reportIf (by simp [Cause.kind])).1
        exact ⟨_, rfl, by simpa using hstored⟩
      case some op =>
        dsimp only at hs
        split at hs
        case h_1 => exact absurd hs (Analysis.Sound.not_report (by simp [Cause.kind]))
        case h_2 type hresult =>
          have hstored := (hs.of_reportIf (by simp [Cause.kind])).1
          exact ⟨type, hresult, by simpa using hstored⟩

theorem Agrees.checkResult (hp : g.Fits place)
    (hf : FormedOption W value) (hn : (idsOfOption value).Nodup)
    (hs : (checkResult place a value loc).Sound)
    (hk : (checkResult place a value loc).Final g.program (idsOfOption value)) :
    g.Results names value ∧ g.Agrees place (checkResult place a value loc) names := by
  cases value <;> simp only [Typing.checkResult] at hs hk ⊢
  case none =>
    have hwrong := (hs.of_reportIf (by simp [Cause.kind])).1
    rw [hp.returns] at hwrong
    refine ⟨?_, h.reportIf _ _ _⟩
    revert hwrong
    rw [Results]
    cases g.returns <;> simp [Ty.isError]
  case some value =>
    split at hs
    case isTrue => exact absurd hs (Analysis.Sound.not_report (by simp [Cause.kind]))
    case isFalse hvoid =>
      obtain ⟨hwrong, hs'⟩ := hs.of_reportIf (by simp [Cause.kind])
      rw [if_neg hvoid] at hk ⊢
      obtain ⟨hadmits, htype⟩ := h.infer hp hf hn hs'
        (hk.of_advances (Analysis.Advances.reportIf (H := (· = place.home)) _ _ _ _) (by simp))
      rw [htype, hp.returns] at hvoid hwrong
      refine ⟨⟨hadmits, fun hr => ?_, by simpa using hwrong⟩, (h.after_infer _).reportIf _ _ _⟩
      simpa [hr] using hvoid

end

end Setting

section CheckValid

variable {W : String → Prop} {g : Setting} {place : Place}

theorem Setting.Agrees.leave_body {names : Names} (hp : g.Fits place) (hne : names.blocks ≠ [])
    (h : g.Agrees place a (names.enter.afterBody body)) :
    g.Agrees place (a.leave place) (names.skip (declarationsIn body).length) := by
  rw [← names.leave_afterBody body]
  refine h.leave hp ?_
  rw [names.leave_afterBody body]
  exact hne

section Parts

variable (g place) (inLoop : Bool)

-- The parts of a statement are checked with the outcome that is stated below.
def Setting.ChecksBody (body : List Stmt) : Prop :=
  ∀ a names, g.Agrees place a names → (checkBody place inLoop a body).Sound →
    (checkBody place inLoop a body).Final g.program (idsIn body) →
    ValidBody g names inLoop body ∧
      g.Agrees place (checkBody place inLoop a body) (names.afterBody body) ∧
      bodyLookups place inLoop a body = (evaluatedIn names body).map (g.lookup place.routine)

def Setting.ChecksElse (body : Option (List Stmt)) : Prop :=
  ∀ a names, g.Agrees place a names → (checkElse place inLoop a body).Sound →
    (checkElse place inLoop a body).Final g.program (idsInElse body) →
    ValidElse g names inLoop body ∧ g.Agrees place (checkElse place inLoop a body)
        (names.skip (declarationsInElse body).length) ∧
      elseLookups place inLoop a body =
        (evaluatedInElse names body).map (g.lookup place.routine)

def Setting.ChecksStep (s : Option Stmt) : Prop :=
  ∀ a names, g.Agrees place a names → (checkStep place inLoop a s).Sound →
    (checkStep place inLoop a s).Final g.program (idsInStep s) →
    ValidStep g names inLoop s ∧
      g.Agrees place (checkStep place inLoop a s) (names.afterStep s) ∧
      stepLookups place inLoop a s = (evaluatedInStep names s).map (g.lookup place.routine)

variable {g place inLoop} {names : Names} (hp : g.Fits place) (h : g.Agrees place a names)

include hp h

theorem branch_valid (hcondition : condition.Formed W)
    (hn : (condition.ids ++ idsIn thenBody ++ idsInElse elseBody).Nodup)
    (hthen : g.ChecksBody place inLoop thenBody) (helse : g.ChecksElse place inLoop elseBody)
    (hs : (checkStmt place inLoop a (.branch loc condition thenBody elseBody)).Sound)
    (hk : (checkStmt place inLoop a (.branch loc condition thenBody elseBody)).Final g.program
      (condition.ids ++ idsIn thenBody ++ idsInElse elseBody)) :
    (Stmt.branch loc condition thenBody elseBody).Valid g names inLoop ∧
      g.Agrees place (checkStmt place inLoop a (.branch loc condition thenBody elseBody))
        (names.after (.branch loc condition thenBody elseBody)) ∧
      stmtLookups place inLoop a (.branch loc condition thenBody elseBody) =
        ((Stmt.branch loc condition thenBody elseBody).evaluated names).map
          (g.lookup place.routine) := by
  simp only [checkStmt, Stmt.Valid, stmtLookups, Stmt.evaluated] at hs hk ⊢
  have hn' := hn.of_append_left
  have hadvElse := checkElse_advances place inLoop ((checkBody place inLoop
    (checkCondition place a condition).enter thenBody).leave place) elseBody
  have hsThen := hs.of_advances hadvElse
  have hkThen := hk.before hadvElse hn
  have hadvThen := checkBody_advances place inLoop (checkCondition place a condition).enter
    thenBody
  obtain ⟨hdecides, hinside⟩ := h.checkCondition hp hcondition hn'.of_append_left
    (hsThen.of_advances hadvThen.inBlock) (hkThen.before hadvThen.inBlock hn')
  obtain ⟨hvalid, hagree, hlook⟩ := hthen _ names.enter hinside.enter hsThen.of_leave
    hkThen.right.of_leave
  obtain ⟨hvalid', hagree', hlook'⟩ := helse _ _ (hagree.leave_body hp h.ne_nil) hs hk.right
  refine ⟨⟨hdecides, hvalid, hvalid'⟩, ?_, ?_⟩
  · simpa [Names.after, Stmt.declaration?, Stmt.declarations, Names.skip, Nat.add_assoc] using
      hagree'
  · rw [h.lookup_eq hp, hlook, hlook', map_append, map_cons]

variable (inLoop) in
theorem whileLoop_valid (hcondition : condition.Formed W)
    (hn : (condition.ids ++ idsIn body).Nodup) (hbody : g.ChecksBody place true body)
    (hs : (checkStmt place inLoop a (.whileLoop loc condition body)).Sound)
    (hk : (checkStmt place inLoop a (.whileLoop loc condition body)).Final g.program
      (condition.ids ++ idsIn body)) :
    (Stmt.whileLoop loc condition body).Valid g names inLoop ∧
      g.Agrees place (checkStmt place inLoop a (.whileLoop loc condition body))
        (names.after (.whileLoop loc condition body)) ∧
      stmtLookups place inLoop a (.whileLoop loc condition body) =
        ((Stmt.whileLoop loc condition body).evaluated names).map (g.lookup place.routine) := by
  simp only [checkStmt, Stmt.Valid, stmtLookups, Stmt.evaluated] at hs hk ⊢
  have hadv := checkBody_advances place true (checkCondition place a condition).enter body
  obtain ⟨hdecides, hinside⟩ := h.checkCondition hp hcondition hn.of_append_left
    (hs.of_advances hadv.inBlock) (hk.before hadv.inBlock hn)
  obtain ⟨hvalid, hagree, hlook⟩ := hbody _ names.enter hinside.enter hs.of_leave hk.right.of_leave
  refine ⟨⟨hdecides, hvalid⟩, hagree.leave_body hp h.ne_nil, ?_⟩
  rw [h.lookup_eq hp, hlook, map_cons]

theorem forLoop_valid (hcondition : FormedOption W condition)
    (hupdates : ∀ u ∈ update, u.isUpdate)
    (hn : (idsInStep init ++ idsOfOption condition ++ idsInStep update ++ idsIn body).Nodup)
    (hinit : g.ChecksStep place inLoop init) (hupdate : g.ChecksStep place inLoop update)
    (hbody : g.ChecksBody place true body)
    (hs : (checkStmt place inLoop a (.forLoop loc init condition update body)).Sound)
    (hk : (checkStmt place inLoop a (.forLoop loc init condition update body)).Final g.program
      (idsInStep init ++ idsOfOption condition ++ idsInStep update ++ idsIn body)) :
    (Stmt.forLoop loc init condition update body).Valid g names inLoop ∧
      g.Agrees place (checkStmt place inLoop a (.forLoop loc init condition update body))
        (names.after (.forLoop loc init condition update body)) ∧
      stmtLookups place inLoop a (.forLoop loc init condition update body) =
        ((Stmt.forLoop loc init condition update body).evaluated names).map
          (g.lookup place.routine) := by
  simp only [checkStmt, Stmt.Valid, stmtLookups, Stmt.evaluated] at hs hk ⊢
  have hn₃ := hn.of_append_left
  have hn₂ := hn₃.of_append_left
  -- From the end back: the body, the update, the condition.
  have hs₄ := hs.of_leave
  have hk₄ := hk.of_leave
  have hadv₄ := (checkBody_advances place true (checkStep place inLoop (checkOptional place
    (checkStep place inLoop a.enter init) condition) update).enter body).inBlock
  have hs₃ := hs₄.of_advances hadv₄
  have hk₃ := hk₄.before hadv₄ hn
  have hadv₃ := checkStep_advances place inLoop (checkOptional place
    (checkStep place inLoop a.enter init) condition) update
  have hs₂ := hs₃.of_advances hadv₃
  have hk₂ := hk₃.before hadv₃ hn₃
  have hadv₂ := checkOptional_advances (H := (· = place.home)) place
    (checkStep place inLoop a.enter init) condition
  -- From the start on.
  obtain ⟨hv₁, hagree₁, hlook₁⟩ := hinit a.enter names.enter h.enter (hs₂.of_advances hadv₂)
    (hk₂.before hadv₂ hn₂)
  obtain ⟨hv₂, hagree₂⟩ := hagree₁.checkOptional hp hcondition hn₂.of_append_right hs₂ hk₂.right
  obtain ⟨hv₃, hagree₃, hlook₃⟩ := hupdate _ _ hagree₂ hs₃ hk₃.right
  rw [afterStep_of_isUpdate _ hupdates] at hagree₃
  obtain ⟨hv₄, hagree₄, hlook₄⟩ := hbody _ _ hagree₃.enter hs₄.of_leave hk₄.right.of_leave
  refine ⟨⟨hv₁, hv₂, hv₃, hv₄⟩, ?_, ?_⟩
  · have hagree₅ := (hagree₄.leave_body hp hagree₃.ne_nil).leave hp (by
      rw [Names.leave, blocks_skip, afterStep_tail]
      exact h.ne_nil)
    have hskip := names.leave_afterStep init
    simp only [Names.leave, Names.skip, Names.mk.injEq] at hskip
    refine Eq.mp (congrArg (g.Agrees place _) ?_) hagree₅
    simp [Names.leave, Names.skip, Names.after, Stmt.declaration?, Stmt.declarations, hskip,
      declarationsInStep_of_isUpdate hupdates, Nat.add_assoc]
  · rw [map_append, map_append, map_append, ← hlook₁, ← hagree₁.lookups_eq hp condition,
      ← hlook₃, ← hlook₄]
    rfl

end Parts

mutual

theorem checkStmt_valid (hp : g.Fits place) (inLoop : Bool) (a : Analysis) (names : Names)
    (s : Stmt) (hf : s.Formed W) (hn : s.ids.Nodup) (h : g.Agrees place a names)
    (hs : (checkStmt place inLoop a s).Sound)
    (hk : (checkStmt place inLoop a s).Final g.program s.ids) :
    s.Valid g names inLoop ∧ g.Agrees place (checkStmt place inLoop a s) (names.after s) ∧
      stmtLookups place inLoop a s = (s.evaluated names).map (g.lookup place.routine) := by
  cases s <;> rw [Stmt.Formed] at hf <;>
    simp only [checkStmt, Stmt.ids, Stmt.Valid, stmtLookups, Stmt.evaluated] at hn hs hk ⊢
  case «variable» loc name type init =>
    have hadv := Analysis.Advances.declare place (checkVariable place a name type init loc).2
      (Symbol.ofVariable name (checkVariable place a name type init loc).1 false loc)
    obtain ⟨hfills, htype, hagree⟩ := h.checkVariable
      (d := ⟨name, loc, type, init, false, false⟩) hp
      hf.2.2.1 hf.2.2.2 hn (hs.of_advances hadv) (hk.of_advances hadv (by simp))
    obtain ⟨hfresh, hafter⟩ := hagree.declare (d := ⟨name, loc, type, init, false, false⟩) hp hs
      (by rw [htype]; rfl) (hfills.declaration_known hf.2.2.1 hf.2.2.2)
    exact ⟨⟨hfills, hfresh⟩, hafter, h.lookups_eq hp init⟩
  case constant loc name type value =>
    have hadv := Analysis.Advances.declare place
      (checkVariable place a name (some type) (some value) loc).2
      (Symbol.ofVariable name (checkVariable place a name (some type) (some value) loc).1 true loc)
    obtain ⟨hfills, htype, hagree⟩ := h.checkVariable
      (d := ⟨name, loc, some type, some value, true, false⟩) hp hf.2.2 (.inl rfl) hn
      (hs.of_advances hadv) (hk.of_advances hadv (by simp))
    obtain ⟨hfresh, hafter⟩ := hagree.declare
      (d := ⟨name, loc, some type, some value, true, false⟩) hp hs (by rw [htype]; rfl)
      (.of_type rfl)
    exact ⟨⟨hfills, hfresh⟩, hafter, h.lookups_eq hp (some value)⟩
  case block loc body =>
    obtain ⟨hvalid, hagree, hlook⟩ := checkBody_valid hp inLoop a.enter names.enter body hf hn
      h.enter hs.of_leave hk.of_leave
    exact ⟨hvalid, hagree.leave_body hp h.ne_nil, hlook⟩
  case assign loc target op value =>
    refine ⟨h.checkAssign hp hf.2.2.1 hf.2.2.2 hn hs hk, h.after_assign target value op loc, ?_⟩
    rw [h.lookup_eq hp, (h.after_infer target).lookup_eq hp]
    rfl
  case result loc value =>
    obtain ⟨hresults, hagree⟩ := h.checkResult hp hf hn hs hk
    exact ⟨hresults, hagree, h.lookups_eq hp value⟩
  case branch loc condition thenBody elseBody =>
    obtain ⟨hcondition, hthen, helse⟩ := hf
    exact branch_valid hp h hcondition hn
      (fun a names h => checkBody_valid hp inLoop a names thenBody hthen
        hn.of_append_left.of_append_right h)
      (fun a names h => checkElse_valid hp inLoop a names elseBody helse hn.of_append_right h) hs hk
  case whileLoop loc condition body =>
    exact whileLoop_valid inLoop hp h hf.1 hn
      (fun a names h => checkBody_valid hp true a names body hf.2 hn.of_append_right h) hs hk
  case forLoop loc init condition update body =>
    obtain ⟨_, hinit, hcondition, hupdates, hupdate, hbody⟩ := hf
    exact forLoop_valid hp h hcondition hupdates hn
      (fun a names h => checkStep_valid hp inLoop a names init hinit
        hn.of_append_left.of_append_left.of_append_left h)
      (fun a names h => checkStep_valid hp inLoop a names update hupdate
        hn.of_append_left.of_append_right h)
      (fun a names h => checkBody_valid hp true a names body hbody hn.of_append_right h) hs hk
  case breakLoop | continueLoop =>
    exact ⟨by simpa using (hs.of_reportIf (by simp [Cause.kind])).1, h.reportIf _ _ _, rfl⟩
  case evaluate loc e =>
    refine ⟨(h.infer hp hf hn hs hk).1, h.after_infer e, ?_⟩
    rw [h.lookup_eq hp]
    rfl
  case classDef | routine | bare => exact hf.elim

theorem checkBody_valid (hp : g.Fits place) (inLoop : Bool) (a : Analysis) (names : Names)
    (body : List Stmt)
    (hf : FormedBody W body) (hn : (idsIn body).Nodup) (h : g.Agrees place a names)
    (hs : (checkBody place inLoop a body).Sound)
    (hk : (checkBody place inLoop a body).Final g.program (idsIn body)) :
    ValidBody g names inLoop body ∧
      g.Agrees place (checkBody place inLoop a body) (names.afterBody body) ∧
      bodyLookups place inLoop a body = (evaluatedIn names body).map (g.lookup place.routine) := by
  cases body
  case nil => exact ⟨trivial, h, rfl⟩
  case cons s rest =>
    rw [FormedBody] at hf
    rw [checkBody] at hs hk ⊢
    rw [idsIn] at hn hk
    have hadv := checkBody_advances place inLoop (checkStmt place inLoop a s) rest
    obtain ⟨hvalid, hagree, hlook⟩ := checkStmt_valid hp inLoop a names s hf.1 hn.of_append_left h
      (hs.of_advances hadv) (hk.before hadv hn)
    obtain ⟨hrest, hagree, hlook'⟩ := checkBody_valid hp inLoop _ _ rest hf.2 hn.of_append_right
      hagree hs hk.right
    exact ⟨⟨hvalid, hrest⟩, hagree, by rw [bodyLookups, evaluatedIn, map_append, hlook, hlook']⟩

theorem checkElse_valid (hp : g.Fits place) (inLoop : Bool) (a : Analysis) (names : Names)
    (body : Option (List Stmt)) (hf : FormedElse W body) (hn : (idsInElse body).Nodup)
    (h : g.Agrees place a names) (hs : (checkElse place inLoop a body).Sound)
    (hk : (checkElse place inLoop a body).Final g.program (idsInElse body)) :
    ValidElse g names inLoop body ∧ g.Agrees place (checkElse place inLoop a body)
        (names.skip (declarationsInElse body).length) ∧
      elseLookups place inLoop a body =
        (evaluatedInElse names body).map (g.lookup place.routine) := by
  cases body
  case none => exact ⟨trivial, h, rfl⟩
  case some body =>
    rw [FormedElse] at hf
    rw [checkElse] at hs hk ⊢
    rw [idsInElse] at hn hk
    obtain ⟨hvalid, hagree, hlook⟩ := checkBody_valid hp inLoop a.enter names.enter body hf hn
      h.enter hs.of_leave hk.of_leave
    exact ⟨hvalid, hagree.leave_body hp h.ne_nil, hlook⟩

theorem checkStep_valid (hp : g.Fits place) (inLoop : Bool) (a : Analysis) (names : Names)
    (s : Option Stmt) (hf : FormedStep W s) (hn : (idsInStep s).Nodup) (h : g.Agrees place a names)
    (hs : (checkStep place inLoop a s).Sound)
    (hk : (checkStep place inLoop a s).Final g.program (idsInStep s)) :
    ValidStep g names inLoop s ∧
      g.Agrees place (checkStep place inLoop a s) (names.afterStep s) ∧
      stepLookups place inLoop a s = (evaluatedInStep names s).map (g.lookup place.routine) := by
  cases s
  case none => exact ⟨trivial, h, rfl⟩
  case some s => exact checkStmt_valid hp inLoop a names s hf hn h hs hk

end

end CheckValid
end Lumen
