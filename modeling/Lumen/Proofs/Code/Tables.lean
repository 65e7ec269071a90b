import Lumen.Proofs.Code.Globals
import Lumen.Proofs.Code.Histories
import Lumen.Proofs.Code.Integrity

namespace Lumen

open List

theorem Stmt.Formed.children {W : String → Prop} {s : Stmt} (h : s.Formed W) :
    ∀ t ∈ s.children, t.Formed W := by
  cases s <;> simp only [Stmt.children, forall_mem_append]
  case block => exact formedBody_iff.mp h
  case branch loc condition thenBody elseBody =>
    refine ⟨formedBody_iff.mp h.2.1, ?_⟩
    cases elseBody
    case none => simp
    case some body => exact formedBody_iff.mp h.2.2
  case whileLoop => exact formedBody_iff.mp h.2
  case forLoop loc init condition update body =>
    have hstep (s : Option Stmt) (hs : FormedStep W s) : ∀ t ∈ s.toList, t.Formed W := by
      cases s
      case none => simp
      case some s => exact forall_mem_singleton.mpr hs
    obtain ⟨-, hinit, -, -, hupdate, hbody⟩ := h
    exact ⟨⟨hstep init hinit, formedBody_iff.mp hbody⟩, hstep update hupdate⟩
  all_goals simp

namespace Code

namespace Slots

def Proceeds (s s' : Slots) : Prop :=
  ∃ steps, s' = s.afterAll steps ∧
    ∀ name type, .allocate name type ∈ steps → Token.IsName name

theorem mem_locals_afterAll {s : Slots} (h : row ∈ (s.afterAll steps).locals) :
    row ∈ s.locals ∨ .allocate row.name row.type ∈ steps := by
  induction steps generalizing s
  case nil => exact .inl h
  case cons step steps ih =>
    rcases ih h with hrow | hrow
    case inr => exact .inr (mem_cons_of_mem _ hrow)
    case inl =>
      cases step
      case enter | find => exact .inl hrow
      case leave => exact .inl (s.locals_leave ▸ hrow)
      case allocate name type =>
        rcases s.after_allocate name type with ⟨slot, s', ha, hs'⟩ | ⟨-, hs'⟩
        case inr => exact .inl (hs' ▸ hrow)
        case inl =>
          rw [hs', locals_allocate ha] at hrow
          rcases mem_append.mp hrow with hrow | hrow
          · exact .inl hrow
          · rw [mem_singleton.mp hrow]
            exact .inr mem_cons_self

namespace Proceeds

variable {s s' s'' : Slots}

theorem refl (s : Slots) : s.Proceeds s :=
  ⟨[], rfl, by simp⟩

theorem trans (h : s.Proceeds s') (h' : s'.Proceeds s'') : s.Proceeds s'' := by
  obtain ⟨steps, rfl, hnames⟩ := h
  obtain ⟨later, rfl, hnames'⟩ := h'
  refine ⟨steps ++ later, (afterAll_append s steps later).symm, fun name type hmem => ?_⟩
  rcases mem_append.mp hmem with hmem | hmem
  · exact hnames name type hmem
  · exact hnames' name type hmem

theorem enter (s : Slots) : s.Proceeds s.enter :=
  ⟨[.enter], rfl, by simp⟩

theorem leave (s : Slots) : s.Proceeds s.leave :=
  ⟨[.leave], rfl, by simp⟩

theorem block (h : s.enter.Proceeds s') : s.Proceeds s'.leave :=
  ((enter s).trans h).trans (leave s')

theorem sound (h : s.Proceeds s') (hs : s.Sound) : s'.Sound := by
  obtain ⟨steps, rfl, -⟩ := h
  exact hs.afterAll steps

theorem locals (h : s.Proceeds s') : s.locals <+: s'.locals := by
  obtain ⟨steps, rfl, -⟩ := h
  exact s.locals_afterAll steps

theorem mem_locals (h : s.Proceeds s') (hr : row ∈ s'.locals) (ht : row.name = "this") :
    row ∈ s.locals := by
  obtain ⟨steps, rfl, hnames⟩ := h
  rcases mem_locals_afterAll hr with hr | hr
  · exact hr
  · exact absurd ht (hnames _ _ hr).ne_this

end Proceeds

end Slots

theorem Frame.declare_proceeds (f : Frame) (hn : Token.IsName name) (type : Ty) :
    f.slots.Proceeds (f.declare name type).2.slots := by
  have hafter : (f.declare name type).2.slots = f.slots.after (.allocate name type) := by
    rw [declare, Slots.after]
    cases f.slots.allocate name type <;> rfl
  refine ⟨[.allocate name type], hafter, fun x t h => ?_⟩
  cases mem_singleton.mp h
  exact hn

theorem Frame.has_declare {f : Frame} (h : (f.declare name type).1 = some n) :
    (f.declare name type).2.slots.Has name n := by
  rw [declare] at h ⊢
  cases ha : f.slots.allocate name type <;> simp only [ha, reduceCtorEq, Option.some.injEq] at h ⊢
  case ok given =>
    obtain ⟨slot, slots⟩ := given
    rw [Slots.Has, Slots.locals_allocate ha, ← h, (Slots.given_allocate ha).1]
    exact ⟨_, mem_append_right _ mem_cons_self, rfl, rfl⟩

-- What carries a slot reads or writes a variable that has it. The receiver is only read.
def Instruction.Tabled (rows : List Local) (i : Instruction) : Prop :=
  ∀ slot ∈ i.slot, ∃ row ∈ rows, row.slot = slot ∧ i.operand = some (.symbol row.name) ∧
    (i.opcode = .load ∨ i.opcode = .store ∧ row.name ≠ "this")

namespace Instruction

variable {rows : List Local} {name : String} {slot : Option Nat}

theorem tabled_of_slot {i : Instruction} (h : i.slot = none) : i.Tabled rows := by
  intro n hn
  rw [h] at hn
  cases hn

theorem tabled_load (h : ∀ n ∈ slot, ∃ row ∈ rows, row.name = name ∧ row.slot = n) (type : Ty)
    (loc : Location) : (access .load name type slot loc).Tabled rows := by
  intro n hn
  obtain ⟨row, hrow, rfl, hslot⟩ := h n hn
  exact ⟨row, hrow, hslot, rfl, .inl rfl⟩

theorem tabled_store (h : ∀ n ∈ slot, ∃ row ∈ rows, row.name = name ∧ row.slot = n)
    (hn : Token.IsName name) (type : Ty) (loc : Location) :
    (access .store name type slot loc).Tabled rows := by
  intro n hmem
  obtain ⟨row, hrow, rfl, hslot⟩ := h n hmem
  exact ⟨row, hrow, hslot, rfl, .inr ⟨rfl, hn.ne_this⟩⟩

end Instruction

def Tabled (rows : List Local) (code : List Instruction) : Prop :=
  ∀ i ∈ code, i.Tabled rows

namespace Tabled

variable {rows rows' : List Local} {code rest : List Instruction} {i : Instruction}

theorem nil : Tabled rows [] := by
  intro i hi
  cases hi

theorem cons (hi : i.Tabled rows) (h : Tabled rows code) : Tabled rows (i :: code) :=
  forall_mem_cons.mpr ⟨hi, h⟩

theorem append (h : Tabled rows code) (h' : Tabled rows rest) : Tabled rows (code ++ rest) :=
  forall_mem_append.mpr ⟨h, h'⟩

theorem bare (hi : i.slot = none) (h : Tabled rows code) : Tabled rows (i :: code) :=
  cons (i.tabled_of_slot hi) h

theorem mono (h : Tabled rows code) (hr : rows ⊆ rows') : Tabled rows' code := by
  intro i hi slot hslot
  obtain ⟨row, hrow, hfound⟩ := h i hi slot hslot
  exact ⟨row, hr hrow, hfound⟩

theorem finished (h : Tabled rows code) (loc : Location) : Tabled rows (finished code loc) := by
  rw [Code.finished]
  split
  case isTrue => exact h
  case isFalse => exact h.append (.bare rfl .nil)

end Tabled

namespace Site

variable (site : Site) {slots : Slots}

section

variable (hs : slots.Sound)

include hs

theorem covers_tabled : Covers slots (·.Tabled slots.locals) where
  load name type n loc hn := by
    refine Instruction.tabled_load (fun k hk => ?_) type loc
    cases hk
    exact hs.found name n hn
  other i hi _ := i.tabled_of_slot hi

theorem receiver_tabled (loc : Location) :
    (site.receiver slots loc).Tabled slots.locals :=
  site.receiver_each slots (covers_tabled hs) loc

theorem value_tabled (e : Expr) : Tabled slots.locals (site.value slots e) :=
  site.value_each slots (covers_tabled hs) e

theorem assign_tabled {target : Expr} (hf : target.Formed Token.IsName)
    (op : Option BinaryOp) (value : Expr) (loc : Location) :
    Tabled slots.locals (site.assign slots target op value loc) := by
  refine site.assign_each slots (covers_tabled hs) (fun m name slot ht hslot => ?_) (fun _ => ?_) op
    value
  · subst ht
    exact Instruction.tabled_store (fun n hn => hs.found name n (hslot n hn)) hf _ loc
  · exact Instruction.tabled_of_slot rfl

theorem evaluate_tabled (e : Expr) (loc : Location) :
    Tabled slots.locals (site.evaluate slots e loc) :=
  site.evaluate_each slots (covers_tabled hs) e loc

theorem result_tabled (value : Option Expr) (loc : Location) :
    Tabled slots.locals (site.result slots value loc) := by
  cases value
  case none => exact .bare rfl .nil
  case some value => exact (site.value_tabled hs value).append (.bare rfl .nil)

end

end Site

structure Makes (f : Frame) (code : List Instruction) (f' : Frame) : Prop where
  proceeds : f.slots.Proceeds f'.slots
  tabled   : Tabled f'.slots.locals code

theorem Makes.of_tabled {f : Frame} (h : Tabled f.slots.locals code) : Makes f code f :=
  ⟨.refl _, h⟩

namespace Site

variable (site : Site)

theorem declaration_makes {f : Frame} (hs : f.slots.Sound) (hn : Token.IsName name) (type : Ty)
    (init : Option Expr) (loc : Location) : Makes f (site.declaration f name type init loc).1
      (site.declaration f name type init loc).2 := by
  -- Either a new variable, or one that has a slot already.
  have hdeclare : f.slots.Proceeds (site.declare f name type).2.slots ∧
      ∀ n ∈ (site.declare f name type).1, (site.declare f name type).2.slots.Has name n := by
    have hnew : f.slots.Proceeds (f.declare name type).2.slots ∧
        ∀ n ∈ (f.declare name type).1, (f.declare name type).2.slots.Has name n :=
      ⟨f.declare_proceeds hn type, fun n hn => Frame.has_declare hn⟩
    rw [declare]
    split
    case h_2 => exact hnew
    case h_1 slot hfind =>
      split
      case isFalse => exact hnew
      case isTrue =>
        refine ⟨.refl _, fun n hslot => ?_⟩
        cases hslot
        exact hs.found name slot hfind
  obtain ⟨hproceeds, hhas⟩ := hdeclare
  cases init
  case none => exact ⟨hproceeds, .nil⟩
  case some init =>
    refine ⟨hproceeds, .append ((site.value_tabled hs init).mono hproceeds.locals.subset) ?_⟩
    exact .cons (Instruction.tabled_store hhas hn type loc) .nil

theorem stmt_makes {f : Frame} (hs : f.slots.Sound) {s : Stmt} (hf : s.Formed Token.IsName)
    (hb : s.hasBody = false) (loop : Option Loop) :
    Makes f (site.stmt loop f s).1 (site.stmt loop f s).2 := by
  cases s <;> try cases hb
  case «variable» loc name type init => exact site.declaration_makes hs hf.1 _ init loc
  case constant loc name type value => exact site.declaration_makes hs hf.1 _ (some value) loc
  case assign loc target op value => exact .of_tabled (site.assign_tabled hs hf.2.2.1 op value loc)
  case result loc value => exact .of_tabled (site.result_tabled hs value loc)
  case evaluate loc e => exact .of_tabled (site.evaluate_tabled hs e loc)
  case breakLoop | continueLoop =>
    cases loop
    case none => exact .of_tabled .nil
    case some => exact .of_tabled (.bare rfl .nil)
  all_goals exact .of_tabled .nil

theorem Builds.makes {site : Site}
    (h : site.Builds (fun _ _ s => s.Formed Token.IsName) f ps code f') (hs : f.slots.Sound) :
    Makes f code f' := by
  induction h
  case nil => exact .of_tabled .nil
  case append ih ih' =>
    have hfirst := ih hs
    have hrest := ih' (hfirst.proceeds.sound hs)
    exact ⟨hfirst.proceeds.trans hrest.proceeds,
      .append (hfirst.tabled.mono hrest.proceeds.locals.subset) hrest.tabled⟩
  case place | jump => exact .of_tabled (.bare rfl .nil)
  case condition => exact .of_tabled ((site.value_tabled hs _).append (.bare rfl .nil))
  case plain loop f s hf hb => exact site.stmt_makes hs hf hb loop
  case nested ih => exact ih hs
  case label ih => exact ⟨(ih hs).proceeds, (ih hs).tabled⟩
  case inBlock f f' _ _ _ ih =>
    have hinside := ih ((Slots.Proceeds.enter _).sound hs)
    exact ⟨hinside.proceeds.block, f'.slots.locals_leave ▸ hinside.tabled⟩

theorem stmts_makes {f : Frame} (hs : f.slots.Sound) (hf : FormedBody Token.IsName body)
    (loop : Option Loop) : Makes f (site.stmts loop f [] body).1 (site.stmts loop f [] body).2 := by
  refine (stmts_builds loop f body fun p hp => ?_).makes hs
  exact (pieces_inherit (fun _ h => h.children) loop f body (formedBody_iff.mp hf) p hp).1

end Site

theorem globalStep_proceeds {item : Stmt} (hf : item.FormedItem Token.IsName) (f : Frame) :
    f.slots.Proceeds (globalStep c f item).slots := by
  rw [globalStep]
  split
  case h_1 => exact .refl _
  case h_2 d hd =>
    have hname : Token.IsName d.name := by
      cases item <;> cases hd <;> exact hf.1
    split
    case h_2 => exact .refl _
    case h_1 symbol _ =>
      split
      · exact f.declare_proceeds hname symbol.type
      · exact .refl _

theorem mainFrame_proceeds {c : Checked} (hf : ∀ item ∈ c.items, item.FormedItem Token.IsName) :
    (Slots.ofReceiver none).Proceeds (mainFrame c).slots := by
  have hall (items : Items) (hf : ∀ item ∈ items, item.FormedItem Token.IsName) (f : Frame) :
      f.slots.Proceeds (items.foldl (globalStep c) f).slots := by
    induction items generalizing f
    case nil => exact .refl _
    case cons item items ih =>
      rw [forall_mem_cons] at hf
      exact (globalStep_proceeds hf.1 f).trans (ih hf.2 _)
  rw [mainFrame_eq_foldl]
  exact hall c.items hf ⟨.ofReceiver none, 0⟩

section Params

theorem declareParams_proceeds (f : Frame) (hf : ∀ p ∈ params, p.Formed Token.IsName)
    (types : List Ty) : f.slots.Proceeds (declareParams f params types).slots := by
  induction params generalizing f types
  case nil => exact .refl _
  case cons p params ih =>
    rw [forall_mem_cons] at hf
    cases types
    case nil => exact .refl _
    case cons type types => exact (f.declare_proceeds hf.1.1 type).trans (ih _ hf.2 types)

-- The first parameters have rows one behind the other, if there are slots for them.
theorem rows_declareParams (f : Frame) (hf : ∀ p ∈ params, p.Formed Token.IsName) (types : List Ty)
    (n : Nat)
    (hn : f.slots.next + slotWidths ((((params.map (·.name)).zip types).take n).map (·.2)) ≤
      slotLimit) :
    f.slots.locals ++ rowsFrom f.slots.next (((params.map (·.name)).zip types).take n) <+:
      (declareParams f params types).slots.locals := by
  induction params generalizing f types n
  case nil => simp [rowsFrom, declareParams]
  case cons p params ih =>
    rw [forall_mem_cons] at hf
    cases types
    case nil => simp [rowsFrom, declareParams]
    case cons type types =>
      cases n
      case zero =>
        simpa [rowsFrom] using
          (declareParams_proceeds f (forall_mem_cons.mpr hf) (type :: types)).locals
      case succ n =>
        simp only [map_cons, zip_cons_cons, take_succ_cons, slotWidths] at hn
        obtain ⟨slots, ha⟩ : ∃ slots, f.slots.allocate p.name type = .ok (f.slots.next, slots) := by
          rw [Slots.allocate, if_pos (by omega)]
          exact ⟨_, rfl⟩
        obtain ⟨-, -, hnext⟩ := Slots.given_allocate ha
        have hdeclare : (f.declare p.name type).2 = { f with slots } := by
          rw [Frame.declare, ha]
        have hrest := ih { f with slots } hf.2 types n (by rw [hnext]; omega)
        rw [hnext, Slots.locals_allocate ha, append_assoc] at hrest
        rw [declareParams, hdeclare]
        exact hrest

end Params

def receiverOf (receiver? : Option String) : List (String × Ty) :=
  receiver?.toList.map fun className => ("this", .object className)

theorem locals_ofReceiver (receiver? : Option String) :
    (Slots.ofReceiver receiver?).locals = rowsFrom 0 (receiverOf receiver?) ∧
      (Slots.ofReceiver receiver?).next = slotWidths ((receiverOf receiver?).map (·.2)) := by
  cases receiver? <;> exact ⟨rfl, rfl⟩

-- The rows of the receiver and of the parameters stand in front of all others, as long as there are
-- slots for them.
def Fronts (receiver? : Option String) (params : List (String × Ty)) (rows : List Local) : Prop :=
  ∀ n, slotWidths ((receiverOf receiver? ++ params.take n).map (·.2)) ≤ slotLimit →
    rowsFrom 0 (receiverOf receiver? ++ params.take n) <+: rows

theorem fronts_nil (h : (Slots.ofReceiver receiver?).Proceeds s) :
    Fronts receiver? [] s.locals := by
  intro n _
  rw [take_nil, append_nil, ← (locals_ofReceiver receiver?).1]
  exact h.locals

-- The table of a routine with the given receiver and parameters is in order.
structure Routine.HasTable (r : Routine) (receiver? : Option String)
    (params : List (String × Ty)) : Prop where
  accesses   : ∀ i ∈ r.code, ∀ slot ∈ i.slot, (i.opcode = .load ∨ i.opcode = .store) ∧
    ∃ name type, i.operand = some (.symbol name) ∧ ⟨name, slot, type⟩ ∈ r.locals
  isInstance : r.isInstance = receiver?.isSome
  receiver   : ∀ className ∈ receiver?, r.locals.head? = some ⟨"this", 0, .object className⟩ ∧
    ∀ i ∈ r.code, i.opcode = .store → i.slot ≠ some 0
  noReceiver : receiver? = none → ∀ row ∈ r.locals, row.name ≠ "this"
  params     : Fronts receiver? params r.locals

theorem Makes.hasTable (h : Makes f code f')
    (hstart : (Slots.ofReceiver receiver?).Proceeds f.slots)
    (hparams : Fronts receiver? params f.slots.locals) (name : String) (kind : Routine.Kind)
    (loc : Location) :
    (Routine.ofBody name kind receiver?.isSome code f'.slots loc).HasTable receiver? params := by
  have htabled := h.tabled.finished loc
  have hproceeds := hstart.trans h.proceeds
  have hsound := hproceeds.sound (Slots.sound_ofReceiver receiver?)
  rw [Routine.ofBody_eq]
  refine ⟨fun i hi slot hslot => ?_, rfl, fun className hc => ?_, fun hnone row hrow ht => ?_,
    fun n hn => (hparams n hn).trans h.proceeds.locals⟩
  · obtain ⟨row, hrow, rfl, hname, hopcode⟩ := htabled i hi slot hslot
    exact ⟨hopcode.imp_right And.left, row.name, row.type, hname, hrow⟩
  · cases hc
    obtain ⟨rest, hrest⟩ := hproceeds.locals
    have hrows := hsound.rows
    rw [← hrest] at hrows
    refine ⟨by rw [Routine.ofCode, ← hrest]; rfl, fun i hi hstore hslot => ?_⟩
    obtain ⟨row, hrow, hzero, -, hload | ⟨-, hthis⟩⟩ := htabled i hi 0 hslot
    · cases hstore.symm.trans hload
    · -- The first slot is that of the receiver, and all others lie behind it.
      rw [← hrest] at hrow
      rcases mem_cons.mp hrow with rfl | hrow
      · exact hthis rfl
      · have hbound : 1 ≤ row.slot := (hrows.2.bounds row hrow).1
        omega
  · subst hnone
    cases hproceeds.mem_locals hrow ht

section Routines

variable {c : Checked}

theorem mainCode_hasTable (hf : ∀ item ∈ c.items, item.FormedItem Token.IsName) :
    (mainCode c).HasTable none [] := by
  have hstart := mainFrame_proceeds hf
  have hbody : FormedBody Token.IsName (c.items.filter Stmt.isStatement) :=
    formedBody_iff.mpr fun s hs =>
      (hf s (mem_filter.mp hs).1).formed (mem_filter.mp hs).2
  have hmakes := (mainSite c).stmts_makes
    (hstart.sound (Slots.sound_ofReceiver none)) hbody none
  rw [mainCode_eq]
  exact hmakes.hasTable hstart (fronts_nil hstart) toplevelName .toplevel .none

theorem constructorCode_hasTable (name : String) (fields : List (Field Expr)) (loc : Location) :
    (constructorCode c name fields loc).HasTable (some name) [] := by
  have hs := Slots.sound_ofReceiver (some name)
  have hfield (f : Field Expr) : Tabled (Slots.ofReceiver (some name)).locals
      (fieldCode (constructorSite c name) (.ofReceiver (some name)) name f) := by
    rw [fieldCode]
    split
    · exact .nil
    · split
      · exact .nil
      · exact .append (.cons (Site.receiver_tabled _ hs _) (Site.value_tabled _ hs _))
          (.bare rfl .nil)
  have hmakes : Makes ⟨.ofReceiver (some name), 0⟩ (fields.flatMap
      (fieldCode (constructorSite c name) (.ofReceiver (some name)) name))
      ⟨.ofReceiver (some name), 0⟩ := by
    refine .of_tabled fun i hi => ?_
    obtain ⟨f, -, hi⟩ := mem_flatMap.mp hi
    exact hfield f i hi
  rw [constructorCode_eq]
  have hstart := Slots.Proceeds.refl (.ofReceiver (some name))
  exact hmakes.hasTable hstart (fronts_nil hstart) (fullName (some name) constructorName)
    .constructor loc

theorem body_hasTable (site : Site) (receiver? : Option String)
    (hp : ∀ p ∈ params, p.Formed Token.IsName) (types : List Ty) (hb : FormedBody Token.IsName body)
    (hf : f = declareParams ⟨.ofReceiver receiver?, 0⟩ params types) (name : String)
    (kind : Routine.Kind) (loc : Location) :
    (Routine.ofBody name kind receiver?.isSome (site.stmts none f [] body).1
      (site.stmts none f [] body).2.slots loc).HasTable receiver?
        ((params.map (·.name)).zip types) := by
  subst hf
  have hstart := declareParams_proceeds ⟨.ofReceiver receiver?, 0⟩ hp types
  have hmakes := site.stmts_makes (hstart.sound (Slots.sound_ofReceiver receiver?)) hb none
  refine hmakes.hasTable hstart (fun n hn => ?_) name kind loc
  rw [map_append, Layout.slotWidths_append, ← (locals_ofReceiver receiver?).2] at hn
  rw [Layout.rowsFrom_append, ← (locals_ofReceiver receiver?).1, ← (locals_ofReceiver receiver?).2,
    Nat.zero_add]
  exact rows_declareParams ⟨.ofReceiver receiver?, 0⟩ hp types n hn

end Routines

end Code

inductive Code.MadeFor (c : Checked) : Routine → Option String → List (String × Ty) → Prop
  | main : MadeFor c (mainCode c) none []
  | constructor {loc : Location} {name : String} {fields : List (Field Expr)} {methods : List Stmt}
      (h : .classDef loc name fields methods ∈ c.items) :
      MadeFor c (constructorCode c name fields loc) (some name) []
  | routine {className : Option String} {loc : Location} {name : String} {params : List Param}
      {returns : TypeName} {isStatic : Bool} {body : List Stmt} {symbol : Symbol}
      {signature : Signature} {r : Routine}
      (h : DefinedIn c.items className (.routine loc name params returns isStatic body))
      (hr : routineCode? c className (.routine loc name params returns isStatic body) = some r)
      (hs : c.symbols.qualified? (fullName className name) = some symbol)
      (hk : symbol.kind = .routine signature) (hl : signature.params.length = params.length) :
      MadeFor c r (if isStatic then none else className)
        ((params.map (·.name)).zip signature.params)

theorem DefinedIn.eq_of_place (hn : (placesIn items).Nodup) (h : DefinedIn items className item)
    (h' : DefinedIn items className item') (hl : loc ∈ item.places) (hl' : loc ∈ item'.places) :
    item = item' := by
  rw [placesIn_eq_flatMap] at hn
  cases className
  case none => exact eq_of_nodup_flatMap hn h h' hl hl'
  case some name =>
    obtain ⟨place, fields, methods, hi, hm⟩ := h
    obtain ⟨place', fields', methods', hi', hm'⟩ := h'
    have hclass {place : Location} {fields : List (Field Expr)} {methods : List Stmt} {m : Stmt}
        (hm : m ∈ methods) (hl : loc ∈ m.places) :
        loc ∈ (Stmt.classDef place name fields methods).places := by
      rw [Stmt.places, placesIn_eq_flatMap]
      exact mem_append_right _ (mem_flatMap.mpr ⟨m, hm, hl⟩)
    cases eq_of_nodup_flatMap hn hi hi' (hclass hm hl) (hclass hm' hl')
    have hown := (nodup_flatMap.mp hn).1 _ hi
    rw [Stmt.places, placesIn_eq_flatMap] at hown
    exact eq_of_nodup_flatMap (hown.sublist (sublist_append_right _ _)) hm hm' hl hl'

-- In every routine, the variables that instructions read and write are in its table, and the
-- receiver and the parameters come first.
theorem Compilation.tables_in_order {mode : Mode} {source : String} {c : Compilation}
    (h : ofSource mode source = .ok c) :
    ∀ r ∈ c.routines, ∃ receiver? params, Code.MadeFor c.checked r receiver? params ∧
      r.HasTable receiver? params := by
  obtain ⟨hchecked, -, hroutines⟩ := ofSource_ok h
  have hnodup := Parsed.ofSource_places source
  have hformed := Parsed.ofTokens_formed _ (Lexed.ofSource_isName source)
  rw [hroutines, ← Code.routine_lowered, hchecked, forall_mem_map]
  intro m hm
  rcases Code.mem_lowered hm with rfl | ⟨loc, name, fields, methods, hi, rfl⟩ |
    ⟨className, item, hd, hm⟩
  · exact ⟨none, [], .main, Code.mainCode_hasTable hformed⟩
  · exact ⟨some name, [], .constructor hi, Code.constructorCode_hasTable name fields loc⟩
  · have hr := (Code.routine_loweredRoutine? className item).symm.trans (congrArg _ hm)
    obtain ⟨loc, name, params, returns, isStatic, symbol, signature, rfl, hs, hloc, hk, -,
      hframe, hroutine⟩ := Code.loweredRoutine?_eq_some hm
    subst hloc
    obtain ⟨hwritten, howner, hnone⟩ := hd.written hformed fun _ => Parsed.ofSource_opened
    obtain ⟨-, _, _, _, hlength, hd'⟩ := Typing.definition_of_symbol hwritten.1 howner hs hk hnone
    cases hd.eq_of_place hnodup hd' mem_cons_self mem_cons_self
    refine ⟨_, _, .routine hd hr hs hk hlength, ?_⟩
    rw [hroutine]
    exact Code.body_hasTable m.site _ hwritten.2.1 signature.params hwritten.2.2.2 hframe _ _ _

-- Here one method is static and declares from a value that is wrong; the other has a receiver.
theorem Compilation.tables_in_order_class :
    ∃ c, ofSource .exploratory
        ("class A \x7b int n = 1; " ++
          "static int f(float a, int b) \x7b int c = missing; return b; \x7d " ++
          "void g(int a) \x7b int b = a; n += b; \x7d \x7d int k = 2;") = .ok c ∧
      (c.routines.map fun r => (r.isInstance, r.locals.map fun row => (row.name, row.slot))) =
        [(false, [("k", 0)]), (true, [("this", 0)]), (false, [("a", 0), ("b", 2)]),
          (true, [("this", 0), ("a", 1), ("b", 2)])] ∧
      ∀ r ∈ c.routines, ∃ receiver? params, Code.MadeFor c.checked r receiver? params ∧
        r.HasTable receiver? params :=
  exists_ok_and (by decide +kernel) fun _ hc _ => tables_in_order hc

end Lumen
