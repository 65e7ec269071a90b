import Lumen.Proofs.Code.Pieces
import Lumen.Proofs.Code.Values

namespace Lumen

open Typing List Option

namespace Code

def storedCode (old value : List Instruction) (type : Ty) (op : Option BinaryOp) (loc : Location) :
    List Instruction :=
  match op with
  | none => value
  | some op => old ++ value ++ [.plain (.ofBinary op) type loc]

namespace Storage

variable (self : Option Nat)

def read (name : String) (type : Ty) (loc : Location) : Storage → List Instruction
  | .slot n => [.access .load name type (some n) loc]
  | .field className =>
    [.access .load "this" (.object className) self loc,
      .withOperand .getField (.symbol (fullName (some className) name)) type loc]
  | .global => [.access .load name type none loc]

def write (name : String) (type : Ty) (op : Option BinaryOp) (value : List Instruction)
    (loc : Location) : Storage → List Instruction
  | .slot n => storedCode [.access .load name type (some n) loc] value type op loc ++
      [.access .store name type (some n) loc]
  | .field className =>
    let field := Operand.symbol (fullName (some className) name)
    .access .load "this" (.object className) self loc ::
      storedCode [.plain .dup (.object className) loc, .withOperand .getField field type loc] value
        type op loc ++ [.withOperand .putField field type loc]
  | .global => storedCode [.access .load name type none loc] value type op loc ++
      [.access .store name type none loc]

end Storage

inductive Occurrence.Role where
  | read
  -- The target of an assignment at `loc`, with the code of what is assigned.
  | target (loc : Location) (op : Option BinaryOp) (value : List Instruction)

structure Occurrence where
  before : List Instruction
  mark   : Mark
  name   : String
  role   : Occurrence.Role

namespace Occurrence

def behind (front : List Instruction) (o : Occurrence) : Occurrence :=
  { o with before := front ++ o.before }

def code (o : Occurrence) (self : Option Nat) (type : Ty) (storage : Storage) :
    List Instruction :=
  match o.role with
  | .read => storage.read self o.name type o.mark.loc
  | .target loc op value => storage.write self o.name type op value loc

end Occurrence

namespace Site

variable (site : Site) (slots : Slots)

mutual

-- The variables that the code of an expression reads. The name of a class is none.
def occurrences : Expr → List Occurrence
  | .variable m name => [⟨[], m, name, .read⟩]
  | .binary _ _ left right =>
    occurrences left ++ (occurrences right).map (.behind (site.value slots left))
  | .unary _ _ operand => occurrences operand
  | .call m name args =>
    let head := if (site.target name).2 then [site.receiver slots m.loc] else []
    (occurrencesIn args).map (.behind head)
  | .invoke m object name args =>
    let type := site.program.typeOf object
    match type with
    | .object className =>
      if site.isClassName slots object then occurrencesIn args
      else
        let dropped := if site.isStatic className name then [.plain .pop type m.loc] else []
        occurrences object ++ (occurrencesIn args).map
          (.behind (site.value slots object ++ dropped))
    | _ => []
  | .member _ object _ =>
    match site.program.typeOf object with
    | .object _ => occurrences object
    | _ => []
  | .create m type args =>
    match type with
    | .named className =>
      let created := site.program.typeAt m.id
      (occurrencesIn args).map (.behind [.withOperand .create (.symbol className) created m.loc,
        .plain .dup created m.loc])
    | _ => []
  | .literal .. | .receiver _ | .stray _ => []

def occurrencesIn : List Expr → List Occurrence
  | [] => []
  | e :: es => occurrences e ++ (occurrencesIn es).map (.behind (site.value slots e))

end

end Site

def Piece.targets (p : Piece) : List Occurrence :=
  match p.stmt with
  | .assign loc (.variable m name) op value =>
    [⟨p.before, m, name, .target loc op (p.site.value p.frame.slots value)⟩]
  | _ => []

def Lowered.occurrences (r : Lowered) : List Occurrence :=
  r.reads.flatMap (fun x => (r.site.occurrences x.slots x.expr).map (.behind x.before)) ++
    r.pieces.flatMap Piece.targets

section Placed

variable {site : Site} {slots : Slots}

theorem Site.assign_prefix (target : Expr) (op : Option BinaryOp) (value : Expr) (loc : Location) :
    ∀ r ∈ site.assignReads slots target op value loc,
      r.before ++ site.value r.slots r.expr <+: site.assign slots target op value loc := by
  cases target <;> try simp [assignReads]
  case «variable» m name =>
    simp only [assign, assignHead]
    cases site.storage slots name <;> cases op <;> simp [storeField]
  case member m object name =>
    split
    case h_1 className hclass =>
      simp only [assign, assignHead, hclass]
      cases op <;> simp [storeField]
    case h_2 => simp

theorem Piece.reads_placed (p : Piece) :
    ∀ r ∈ p.reads, r.before ++ p.site.value r.slots r.expr <+: p.before ++ p.code := by
  obtain ⟨before, site, loop, f, s⟩ := p
  rw [reads, List.forall_mem_map]
  intro r hr
  rw [Read.behind, append_assoc, prefix_append_right_inj, code]
  revert r
  cases s <;> try simp [Site.stmt]
  case «variable» loc name type init =>
    rintro e rfl
    simp [Site.declaration]
  case constant loc name type value => simp [Site.declaration]
  case assign loc target op value => exact Site.assign_prefix target op value loc
  case result loc value =>
    rintro e rfl
    simp [Site.result]
  case evaluate loc e =>
    rw [Site.evaluate]
    split <;> simp
  case forLoop loc init condition update body =>
    rintro e rfl
    simp

theorem fieldReads_placed (site : Site) (slots : Slots) (className : String)
    (fields : List (Field Expr)) :
    ∀ r ∈ fieldReads site slots className fields, r.slots = slots ∧
      (∃ f ∈ fields, f.init = some r.expr) ∧
      r.before ++ site.value slots r.expr <+: fields.flatMap (fieldCode site slots className) := by
  induction fields
  case nil => simp [fieldReads]
  case cons f fields ih =>
    rw [fieldReads, forall_mem_append, List.forall_mem_map, List.forall_mem_map,
      flatMap_cons]
    refine ⟨fun e he => ⟨rfl, ⟨f, mem_cons_self, ?_⟩, ?_⟩, fun r hr => ?_⟩
    · exact (filter_eq_some_iff.mp (mem_toList.mp he)).1
    · obtain ⟨hinit, hright⟩ := filter_eq_some_iff.mp (mem_toList.mp he)
      simp only [Bool.not_eq_true'] at hright
      simp [fieldCode, hinit, hright]
    · obtain ⟨hslots, ⟨f', hf', hinit⟩, hcode⟩ := ih r hr
      refine ⟨hslots, ⟨f', mem_cons_of_mem _ hf', hinit⟩, ?_⟩
      rw [Read.behind, append_assoc]
      exact (prefix_append_right_inj _).mpr hcode

-- All values are of expressions that are looked up, or of the object of one that is assigned to.
theorem Piece.looked_of_reads (p : Piece) :
    ∀ r ∈ p.reads, (r.slots, r.expr) ∈ p.looked ∨
      ∃ m name, (r.slots, .member m r.expr name) ∈ p.looked := by
  obtain ⟨before, site, loop, f, s⟩ := p
  rw [reads, List.forall_mem_map]
  intro r hr
  cases s
  case «variable» | result | forLoop =>
    obtain ⟨e, he, rfl⟩ := List.mem_map.mp hr
    exact .inl (List.mem_map.mpr ⟨e, he, rfl⟩)
  case constant | branch | whileLoop | evaluate =>
    cases mem_singleton.mp hr
    exact .inl (mem_singleton.mpr rfl)
  case assign loc target op value =>
    simp only [Site.assignReads] at hr
    split at hr
    case h_1 =>
      cases mem_singleton.mp hr
      exact .inl (by simp [looked, Read.behind])
    case h_2 m object name =>
      split at hr
      case h_1 =>
        rcases mem_pair.mp hr with rfl | rfl
        · exact .inr ⟨m, name, by simp [looked, Read.behind]⟩
        · exact .inl (by simp [looked, Read.behind])
      case h_2 => cases hr
    case h_3 => cases hr
  all_goals cases hr

end Placed

-- What the storage of a symbol has to be, where some slots were asked for and some variables have
-- slots.
structure Stored (site : Site) (given : List Allotment) (rows : List Local) (symbol : Symbol)
    (storage : Storage) : Prop where
  slot   : symbol.kind = .parameter ∨
      symbol.kind = .variable ∧ (symbol.home ≠ .global ∨ site.kind = .toplevel) →
    ∃ n, storage = .slot n ∧ ⟨symbol.name, symbol.loc, some n⟩ ∈ given ∧
      ⟨symbol.name, n, symbol.type⟩ ∈ rows
  field  : ∀ className, storage = .field className ↔
    site.className = some className ∧ symbol.kind = .field ∧
      site.symbols.member? className symbol.name = some symbol
  global : storage = .global ↔
    symbol.kind = .variable ∧ symbol.home = .global ∧ site.kind ≠ .toplevel

namespace Stored

variable {site : Site} {given : List Allotment} {rows : List Local} {symbol : Symbol}

theorem of_slot (hk : symbol.kind ≠ .field) (hlocal : symbol.home = .global → site.kind = .toplevel)
    (hgiven : ⟨symbol.name, symbol.loc, some n⟩ ∈ given)
    (hrow : ⟨symbol.name, n, symbol.type⟩ ∈ rows) : Stored site given rows symbol (.slot n) where
  slot _ := ⟨n, rfl, hgiven, hrow⟩
  field className := by simp [hk]
  global := by
    constructor
    · intro h
      cases h
    · rintro ⟨-, hhome, hkind⟩
      exact absurd (hlocal hhome) hkind

theorem of_field (hc : site.className = some owner) (hk : symbol.kind = .field)
    (hs : site.symbols.member? owner symbol.name = some symbol) :
    Stored site given rows symbol (.field owner) where
  slot := by simp [hk]
  field className := by
    constructor
    · rintro ⟨⟩
      exact ⟨hc, hk, hs⟩
    · rintro ⟨hc', -⟩
      cases hc.symm.trans hc'
      rfl
  global := by simp [hk]

theorem of_global (hk : symbol.kind = .variable) (hhome : symbol.home = .global)
    (hkind : site.kind ≠ .toplevel) : Stored site given rows symbol .global where
  slot := by simp [hk, hhome, hkind]
  field className := by simp [hk]
  global := by simp [hk, hhome, hkind]

end Stored

structure Site.Knows (site : Site) (slots : Slots) (env : Environment) (given : List Allotment)
    (rows : List Local) : Prop where
  stored   : ∀ (name : String) (symbol : Symbol), Token.IsName name →
    env.symbol? name = some symbol → symbol.hasValue → symbol.type ≠ .error →
    Stored site given rows symbol (site.storage slots name)
  classes  : ∀ (m : Mark) (name : String) (symbol : Symbol), Token.IsName name →
    env.symbol? name = some symbol → symbol.signature? = none →
    site.isClassName slots (.variable m name) = symbol.isClass
  receiver : env.receiver?.isSome → slots.find? "this" = some 0

theorem symbol_of_variableType {env : Environment} (h : env.variableType name = .ok type) :
    ∃ symbol, env.symbol? name = some symbol ∧ symbol.hasValue ∧ symbol.type = type ∧
      (symbol.kind = .field → env.receiver?.isSome) := by
  rw [Environment.variableType] at h
  split at h
  case h_1 => cases h
  case h_2 symbol hs =>
    refine ⟨symbol, hs, ?_⟩
    split at h <;> rename_i hkind
    case h_1 | h_2 => cases h
    case h_3 =>
      split at h
      case isTrue hr =>
        cases h
        exact ⟨by simp [Symbol.hasValue, hkind], rfl, fun _ => hr⟩
      case isFalse => cases h
    all_goals
      cases h
      exact ⟨by simp [Symbol.hasValue, hkind], rfl, by simp [hkind]⟩

def Site.parts (site : Site) (slots : Slots) : Expr → List Expr
  | .binary _ _ left right => [left, right]
  | .unary _ _ operand => [operand]
  | .call _ _ args => args
  | .invoke _ object _ args =>
    match site.program.typeOf object with
    | .object _ => if site.isClassName slots object then args else object :: args
    | _ => []
  | .member _ object _ =>
    match site.program.typeOf object with
    | .object _ => [object]
    | _ => []
  | .create _ (.named _) args => args
  | _ => []

structure Occurrence.Within (o : Occurrence) (site : Site) (slots : Slots) (R : Expr → Prop)
    (code : List Instruction) (ids : List Nat) : Prop where
  placed : o.before ++ site.value slots (.variable o.mark o.name) <+: code
  part   : o.mark.id ∈ ids
  role   : o.role = .read
  holds  : R (.variable o.mark o.name)

section Within

variable {site : Site} {slots : Slots} {env : Environment} {given : List Allotment}
  {rows : List Local} {R : Expr → Prop}

namespace Occurrence.Within

variable {o : Occurrence} {code code' : List Instruction} {ids ids' : List Nat}

theorem mono (h : o.Within site slots R code ids) (hcode : code <+: code') (hids : ids ⊆ ids') :
    o.Within site slots R code' ids' :=
  ⟨h.placed.trans hcode, hids h.part, h.role, h.holds⟩

theorem behind (h : o.Within site slots R code ids) (front : List Instruction) :
    (o.behind front).Within site slots R (front ++ code) ids where
  placed := by
    rw [Occurrence.behind, append_assoc]
    exact (prefix_append_right_inj front).mpr h.placed
  part := h.part
  role := h.role
  holds := h.holds

end Occurrence.Within

mutual

-- What passes on to parts holds of all variables that are read.
theorem occurrences_within (hR : ∀ e, R e → ∀ part ∈ site.parts slots e, R part) (e : Expr)
    (h : R e) :
    ∀ o ∈ site.occurrences slots e, o.Within site slots R (site.value slots e) e.ids := by
  have hparts := hR e h
  cases e <;> simp only [Site.parts] at hparts
  case literal | receiver | stray => simp [Site.occurrences]
  case «variable» m name =>
    rw [Site.occurrences, forall_mem_singleton]
    exact ⟨prefix_rfl, by simp [Expr.ids], rfl, h⟩
  case binary m op left right =>
    rw [forall_mem_cons, forall_mem_singleton] at hparts
    rw [Site.occurrences, forall_mem_append, List.forall_mem_map, Site.value]
    refine ⟨fun o ho => ?_, fun o ho => ?_⟩
    · refine (occurrences_within hR left hparts.1 o ho).mono ?_ (by simp [Expr.ids])
      rw [append_assoc]
      exact prefix_append _ _
    · exact ((occurrences_within hR right hparts.2 o ho).behind _).mono
        (prefix_append _ _) (by simp [Expr.ids])
  case unary m op operand =>
    rw [forall_mem_singleton] at hparts
    rw [Site.occurrences, Site.value]
    intro o ho
    exact (occurrences_within hR operand hparts o ho).mono (prefix_append _ _) (by simp [Expr.ids])
  case call m name args =>
    simp only [Site.occurrences, List.forall_mem_map, Site.value]
    intro o ho
    refine ((occurrencesIn_within hR args hparts o ho).behind _).mono ?_ (by simp [Expr.ids])
    by_cases hr : (site.target name).2 <;> simp [hr]
  case member m object name =>
    simp only [Site.occurrences, Site.value]
    cases hclass : site.program.typeOf object <;> try simp
    case object className =>
      rw [hclass, forall_mem_singleton] at hparts
      intro o ho
      exact (occurrences_within hR object hparts o ho).mono (prefix_append _ _)
        (by simp [Expr.ids])
  case create m type args =>
    cases type
    case named className =>
      simp only [Site.occurrences, Site.value, List.forall_mem_map]
      intro o ho
      refine ((occurrencesIn_within hR args hparts o ho).behind _).mono ?_ (by simp [Expr.ids])
      simp
    all_goals simp [Site.occurrences]
  case invoke m object name args =>
    simp only [Site.occurrences, Site.value]
    split at hparts
    case h_2 => simp
    case h_1 className hclass =>
      simp only [hclass]
      cases hnamed : site.isClassName slots object <;>
        simp only [hnamed, Bool.false_eq_true, if_false, if_true, forall_mem_cons] at hparts
      case true =>
        intro o ho
        exact (occurrencesIn_within hR args hparts o ho).mono (prefix_append _ _)
          (by simp [Expr.ids])
      case false =>
        simp only [Bool.false_eq_true, if_false, forall_mem_append, List.forall_mem_map]
        refine ⟨fun o ho => ?_, fun o ho => ?_⟩
        · refine (occurrences_within hR object hparts.1 o ho).mono ?_ (by simp [Expr.ids])
          split <;> simp
        · refine ((occurrencesIn_within hR args hparts.2 o ho).behind _).mono ?_
            (by simp [Expr.ids])
          split <;> simp

theorem occurrencesIn_within (hR : ∀ e, R e → ∀ part ∈ site.parts slots e, R part) (es : List Expr)
    (h : ∀ e ∈ es, R e) : ∀ o ∈ site.occurrencesIn slots es,
      o.Within site slots R (site.values slots es) (idsOf es) := by
  cases es
  case nil => simp [Site.occurrencesIn]
  case cons e es =>
    rw [forall_mem_cons] at h
    rw [Site.occurrencesIn, forall_mem_append, List.forall_mem_map, Site.values, idsOf]
    refine ⟨fun o ho => ?_, fun o ho => ?_⟩
    · exact (occurrences_within hR e h.1 o ho).mono (prefix_append _ _)
        (subset_append_left _ _)
    · exact ((occurrencesIn_within hR es h.2 o ho).behind _).mono prefix_rfl
        (subset_append_right _ _)

end

-- What the check found out about an expression, it found out about its parts.
theorem Site.Knows.parts (hk : site.Knows slots env given rows) (e : Expr)
    (h : e.Formed Token.IsName ∧ e.Typed site.program env) :
    ∀ part ∈ site.parts slots e, part.Formed Token.IsName ∧ part.Typed site.program env := by
  have hargs {args : List Expr} (hf : FormedArgs Token.IsName args)
      (ht : TypedArgs site.program env args) :
      ∀ arg ∈ args, arg.Formed Token.IsName ∧ arg.Typed site.program env := by
    induction args
    case nil => simp
    case cons arg args ih => exact forall_mem_cons.mpr ⟨⟨hf.1, ht.1⟩, ih hf.2 ht.2⟩
  obtain ⟨hf, ht⟩ := h
  cases e <;> rw [Expr.Typed] at ht <;> simp only [Site.parts]
  case binary m op left right =>
    exact forall_mem_cons.mpr ⟨⟨hf.1, ht.1⟩, forall_mem_singleton.mpr ⟨hf.2, ht.2.1⟩⟩
  case unary m op operand => exact forall_mem_singleton.mpr ⟨hf, ht.1⟩
  case call m name args => exact hargs hf.2 ht.1
  case member m object name =>
    obtain ⟨hobject, className, symbol, hclass, -⟩ := ht
    simp only [hclass]
    exact forall_mem_singleton.mpr ⟨hf.1, hobject⟩
  case create m type args =>
    obtain ⟨ht, className, rfl, -⟩ := ht
    exact hargs hf.2 ht
  case invoke m object name args =>
    obtain ⟨ht, className, signature, hclass, -, -, hobject⟩ := ht
    simp only [hclass]
    split
    case isTrue => exact hargs hf.2.2 ht
    case isFalse hnamed =>
      -- An object that is not named like a class has a type of its own.
      refine forall_mem_cons.mpr ⟨⟨hf.1, ?_⟩, hargs hf.2.2 ht⟩
      rcases hobject with ⟨mark, hsome, -⟩ | ⟨-, hobject, -⟩
      · obtain ⟨rfl, hany⟩ := Environment.namedClass?_some hsome
        obtain ⟨symbol, hs, hclass⟩ := any_eq_true _ _ |>.mp hany
        have hkind : symbol.kind = .classDef := by simpa [Symbol.isClass] using hclass
        rw [hk.classes _ _ symbol hf.1 hs (by simp [Symbol.signature?, hkind]), hclass] at hnamed
        exact absurd rfl hnamed
      · exact hobject
  all_goals simp

theorem Site.className_of_field {owner : String} (h : site.storage slots name = .field owner) :
    site.className = some owner := by
  rw [storage] at h
  split at h
  case h_1 => cases h
  case h_2 =>
    split at h
    case h_1 hc =>
      split at h <;> cases h
      exact hc
    case h_2 => cases h

def Site.Reaches (site : Site) (slots : Slots) (name : String) (self : Option Nat) : Prop :=
  ∀ className, site.storage slots name = .field className → ∀ loc,
    site.receiver slots loc = .access .load "this" (.object className) self loc

theorem Site.Knows.finds (hk : site.Knows slots env given rows) (hn : Token.IsName name)
    (ht : env.variableType name = .ok type) (hne : type ≠ .error) :
    site.Reaches slots name (some 0) ∧ ∃ symbol, env.symbol? name = some symbol ∧
      symbol.type = type ∧ Stored site given rows symbol (site.storage slots name) := by
  obtain ⟨symbol, hs, hvalue, rfl, hreceiver⟩ := symbol_of_variableType ht
  have hstored := hk.stored name symbol hn hs hvalue hne
  refine ⟨fun className hfield loc => ?_, symbol, hs, rfl, hstored⟩
  obtain ⟨hclass, hkind, -⟩ := (hstored.field className).mp hfield
  rw [Site.receiver, hclass, hk.receiver (hreceiver hkind)]

theorem Site.value_variable (h : site.Reaches slots name self) (m : Mark) :
    site.value slots (.variable m name) =
      (site.storage slots name).read self name (site.program.typeAt m.id) m.loc := by
  rw [value]
  cases hs : site.storage slots name <;> simp only [Storage.read]
  case field className => rw [h className hs]

theorem Site.assign_variable (h : site.Reaches slots name self) (m : Mark) (op : Option BinaryOp)
    (value : Expr) (loc : Location) : site.assign slots (.variable m name) op value loc =
      (site.storage slots name).write self name (site.program.typeAt m.id) op
        (site.value slots value) loc := by
  simp only [assign, Storage.write, storedCode, Checked.typeOf, Expr.id?]
  cases hs : site.storage slots name <;> cases op <;> simp [storeField]
  all_goals exact h _ hs loc

-- An occurrence becomes an access to where the symbol is kept that its name stands for.
def Occurrence.Resolved (o : Occurrence) (site : Site) (given : List Allotment)
    (rows : List Local) (env : Environment) (code : List Instruction) : Prop :=
  ∃ symbol storage, env.symbol? o.name = some symbol ∧ Stored site given rows symbol storage ∧
    o.before ++ o.code (some 0) symbol.type storage <+: code

theorem Occurrence.Within.resolved {o : Occurrence} {code : List Instruction}
    (h : o.Within site slots (fun e => e.Formed Token.IsName ∧ e.Typed site.program env) code ids)
    (hk : site.Knows slots env given rows) (hne : site.program.typeAt o.mark.id ≠ .error) :
    o.Resolved site given rows env code := by
  obtain ⟨hreach, symbol, hs, htype, hstored⟩ := hk.finds h.holds.1 h.holds.2 hne
  refine ⟨symbol, _, hs, hstored, ?_⟩
  rw [Occurrence.code, h.role, htype, ← Site.value_variable hreach]
  exact h.placed

end Within

end Code
end Lumen
