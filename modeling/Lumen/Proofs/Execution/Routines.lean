import Lumen.Proofs.Code.Resolution
import Lumen.Proofs.Execution.Bodies

namespace Lumen

open Typing Code List Option Names Layout

variable {name : String} {loc : Location}

structure Code.Layout.Has (l : Layout) (c : Checked) (b : Binding) : Prop where
  cell : b.cell < l.declared.length
  type : (b.declared.typeIn c).Storable
  name : Token.IsName b.declared.name

namespace Activation

variable {V S : Type}

def ofRoutine (meaning : Meaning V S) (c : Checked) (className : Option String) (isStatic : Bool)
    (returns : TypeName) (self : V) : Activation V S where
  meaning := meaning
  setting := c.bodySetting className isStatic returns
  className := className
  self := self

variable {meaning : Meaning V S} {c : Checked} {t : SymbolTable} {className : Option String}
  {isStatic : Bool} {returns : TypeName} {self : V} {l : Layout} {names : Names}

section Finds

theorem symbol?_of_free (hb : names.find? name = none) :
    ((ofRoutine meaning c className isStatic returns self).environment names).symbol? name =
      (c.symbols.outer className).findSome? (c.symbols.inScope? · name) := by
  simp only [environment, Setting.environment, hb]
  rfl

theorem symbol?_of_bound (hb : names.find? name = some b) :
    ((ofRoutine meaning c className isStatic returns self).environment names).symbol? name =
      some (b.symbol c) := by
  simp only [environment, Setting.environment, hb]
  rfl

theorem find?_of_free
    (hbase : l.base = (Slots.ofReceiver (if isStatic then none else className)).visible)
    (hname : Token.IsName name) (hb : names.find? name = none) :
    (l.slots names).find? name = none := by
  have hne := hname.ne_this
  rw [find?_slots, hb, hbase]
  generalize (if isStatic then none else className) = receiver?
  cases receiver? <;> simp [Slots.ofReceiver, Ne.symm hne]

theorem storage_of_bound {site : Site} (hb : names.find? name = some b) :
    site.storage (l.slots names) name = .slot (l.cell b.cell) := by
  rw [Site.storage, find?_slots, hb]
  rfl

section

variable (h : Accepted c t)

include h

theorem storage_eq
    (hbase : l.base = (Slots.ofReceiver (if isStatic then none else className)).visible)
    (hname : Token.IsName name)
    (hs : ((ofRoutine meaning c className isStatic returns self).environment names).symbol? name =
      some symbol) :
    (routineSite c className returns isStatic).storage (l.slots names) name =
      l.storage ((ofRoutine meaning c className isStatic returns self).referent names name) := by
  cases hb : names.find? name
  case some b => rw [storage_of_bound hb, referent_of_find? hb, Layout.storage]
  case none =>
    -- A field is a member of the class, for a global is none.
    have hfield : (className.bind (c.symbols.member? · name)).any (·.kind = .field) =
        decide (symbol.kind = .field) := by
      rw [symbol?_of_free hb] at hs
      rcases outer_cases h hs with ⟨-, hmember, -⟩ | ⟨hmember, -, -, hsuits⟩
      · rw [hmember, any_some]
      · rw [hmember, any_none]
        cases hk : symbol.kind <;> simp_all [Scope.Kind.Suits]
    cases className
    case none =>
      simp only [Site.storage, find?_of_free hbase hname hb, referent, hb]
      rfl
    case some owner =>
      have hstorage : (routineSite c (some owner) returns isStatic).storage (l.slots names) name =
          if symbol.kind = .field then .field owner else .global := by
        rw [Site.storage, find?_of_free hbase hname hb]
        simp only [routineSite, Setting.site, Site.memberHere?, Site.symbols, Checked.bodySetting,
          hfield, decide_eq_true_eq]
      have hreferent :
          (ofRoutine meaning c (some owner) isStatic returns self).referent names name =
            if symbol.kind = .field then .field owner else .global := by
        rw [referent, hb, hs]
        simp only [ofRoutine, any_some, decide_eq_true_eq]
      rw [hstorage, hreferent]
      split <;> rfl

theorem target_eq
    (hroutine : ((ofRoutine meaning c className isStatic returns self).environment names).routine
      name = .ok signature) :
    (routineSite c className returns isStatic).target name =
      (ofRoutine meaning c className isStatic returns self).target names name ∧
    (((ofRoutine meaning c className isStatic returns self).target names name).2 →
      (ofRoutine meaning c className isStatic returns self).setting.receiver?.isSome) := by
  set a := ofRoutine meaning c className isStatic returns self
  rw [Environment.routine] at hroutine
  cases hs : (a.environment names).symbol? name <;> simp only [hs, reduceCtorEq] at hroutine
  case some symbol =>
    cases hk : symbol.kind <;> simp only [hk, reduceCtorEq] at hroutine
    case routine found =>
      cases hb : names.find? name
      case some b =>
        rw [symbol?_of_bound hb] at hs
        cases hs
        simp only [Binding.symbol] at hk
        split at hk <;> cases hk
      case none =>
        have hsignature : symbol.signature? = some found := by rw [Symbol.signature?, hk]
        have htarget : a.target names name =
            if symbol.home = .classBody then (fullName className name, !found.isStatic)
            else (name, false) := by
          rw [target, hs]
          simp only [hsignature, any_some]
          rfl
        rw [htarget]
        rw [symbol?_of_free hb] at hs
        rcases outer_cases h hs with ⟨-, hmember, hhome, -⟩ | ⟨hmember, -, hhome, -⟩
        case inl =>
          obtain ⟨owner, rfl, -⟩ := bind_eq_some_iff.mp hmember
          have hhere : (routineSite c (some owner) returns isStatic).memberHere? name =
            some symbol :=
            hmember
          rw [if_pos hhome]
          constructor
          · rw [Site.target, hhere, bind_some, hsignature]
            rfl
          · intro hinstance
            have hreceiver : (a.environment names).receiver? = a.setting.receiver? := rfl
            rw [hreceiver, hhome] at hroutine
            cases hr : a.setting.receiver?
            case none =>
              have hdynamic : found.isStatic = false := by simpa using hinstance
              simp [hr, hdynamic] at hroutine
            case some => rfl
        case inr =>
          have hhere : (routineSite c className returns isStatic).memberHere? name = none := hmember
          rw [if_neg (by simp [hhome]), Site.target, hhere]
          exact ⟨by cases className <;> rfl, by simp⟩

theorem isClassName_eq
    (hbase : l.base = (Slots.ofReceiver (if isStatic then none else className)).visible) (m : Mark)
    (hname : Token.IsName name)
    (hs : ((ofRoutine meaning c className isStatic returns self).environment names).symbol? name =
      some symbol)
    (hsignature : symbol.signature? = none) :
    (routineSite c className returns isStatic).isClassName (l.slots names) (.variable m name) =
      symbol.isClass := by
  cases hb : names.find? name
  case some b =>
    rw [symbol?_of_bound hb] at hs
    cases hs
    rw [Site.isClassName, storage_of_bound hb]
    simp only [Symbol.isClass, Binding.symbol]
    split <;> rfl
  case none =>
    have hslot := find?_of_free hbase hname hb
    rw [symbol?_of_free hb] at hs
    rcases outer_cases h hs with ⟨-, hmember, -, hsuits⟩ | ⟨hmember, hglobal, -, -⟩
    case inl =>
      obtain ⟨owner, rfl, hfound⟩ := bind_eq_some_iff.mp hmember
      have hfield : symbol.kind = .field := by
        cases hk : symbol.kind <;> simp_all [Symbol.signature?, Scope.Kind.Suits]
      have hstorage : (routineSite c (some owner) returns isStatic).storage (l.slots names) name =
          .field owner := Site.storage_of_field hslot rfl hmember hfield
      rw [Site.isClassName, hstorage, Symbol.isClass, hfield]
      rfl
    case inr =>
      have hqualified : c.symbols.qualified? name = some symbol :=
        (SymbolTable.qualified?_global _ hname.dot_notMem).trans hglobal
      have hsymbols : (routineSite c className returns isStatic).symbols = c.symbols := rfl
      have hstorage : (routineSite c className returns isStatic).storage (l.slots names) name =
          .global := Site.storage_of_none hslot hmember
      rw [Site.isClassName, hstorage, hsymbols, hqualified]
      simp

theorem finds
    (hfields : ∀ item ∈ c.items, ∀ f ∈ item.fields, f.type ≠ .void)
    (hbase : l.base = (Slots.ofReceiver (if isStatic then none else className)).visible)
    (hfront : l.front = (Slots.ofReceiver (if isStatic then none else className)).locals)
    (hn : names.All (l.Has c)) :
    (ofRoutine meaning c className isStatic returns self).Finds (routineKind className) l
      names where
  stored name type hname htype := by
    obtain ⟨symbol, hs, -⟩ := symbol_of_variableType htype
    exact storage_eq h hbase hname hs
  called name signature hname hroutine := target_eq h hroutine
  classes m name symbol hname hs hsignature := isClassName_eq h hbase m hname hs hsignature
  members := rfl
  receiver hreceiver := by
    have hthis : names.find? "this" = none := by
      cases hb : names.find? "this"
      case none => rfl
      case some b => exact absurd (name_of_find? hb) (hn _ b hb).name.ne_this
    obtain ⟨owner, howner⟩ := isSome_iff_exists.mp hreceiver
    have howner : (if isStatic then none else className) = some owner := howner
    rw [find?_slots, hthis, hbase, howner]
    simp [Slots.ofReceiver]
  start hreceiver := by
    obtain ⟨owner, howner⟩ := isSome_iff_exists.mp hreceiver
    have howner : (if isStatic then none else className) = some owner := howner
    rw [Layout.start, hfront, howner]
    simp [Slots.ofReceiver, Slots.locals, slotWidths, Ty.slotWidth, Ty.isWide]
  cells name b hb := (hn name b hb).cell
  valued := h.setting_valued hfields rfl rfl names fun name b hb => (hn name b hb).type

end

end Finds

structure Hosts (a : Activation V S) (kind : Routine.Kind) (l : Layout) : Prop where
  finds   : ∀ names : Names, names.All (l.Has a.program) → a.Finds kind l names
  isClass : a.setting.table.isClass = a.program.symbols.isClass

section Hosts

variable {a : Activation V S} {kind : Routine.Kind} {inLoop : Bool}

theorem sure_of_admits (ha : a.setting.Admits names e) (hf : e.Formed Token.IsName)
    (hk : a.program.isFaulty e = false) (hv : ∀ p ∈ e.operands, a.program.typeOf p ≠ .void) :
    a.Sure names e :=
  ⟨hf, ha.typed e hf hk, hv⟩

theorem needed_of_admits (ha : a.setting.Admits names e) (hf : e.Formed Token.IsName)
    (hk : a.program.isFaulty e = false) (hv : (Use.needed e).Valued a.program) :
    a.Needed names e := by
  obtain ⟨hown, hparts⟩ := forall_mem_cons.mp hv
  exact ⟨sure_of_admits ha hf hk hparts, hown⟩

theorem needed_of_option (ha : ∀ e ∈ init, a.setting.Admits names e)
    (hf : FormedOption Token.IsName init)
    (hk : ∀ q ∈ init.toList.map (names, ·), a.program.isFaulty q.2 = false)
    (hv : ∀ u ∈ usesOfOption init, u.Valued a.program) : ∀ e ∈ init, a.Needed names e := by
  rintro e rfl
  exact needed_of_admits (ha e rfl) hf (by simpa using hk) (by simpa [usesOfOption] using hv)

theorem valued_of_target {target : Expr} (ht : target.isTarget)
    (hv : ∀ u ∈ target.targetUses, u.Valued a.program) :
    ∀ p ∈ target.operands, a.program.typeOf p ≠ .void := by
  cases target <;> try cases ht
  case «variable» => simp [Expr.operands]
  case member m object name =>
    simpa [Expr.targetUses, Use.Valued, Use.taken, Expr.operands] using hv

structure Room (l : Layout) (c : Checked) (names : Names) (count : Nat) : Prop where
  blocks : names.blocks ≠ []
  has    : names.All (l.Has c)
  left   : names.next + count ≤ l.declared.length

theorem Finds.exists_holds (hf : a.Finds kind l names) (cells : Nat → V) :
    ∃ slots, a.Holds l cells slots := by
  set place : Fin l.declared.length → Nat := fun k => l.cell k
  have hinjective : place.Injective :=
    fun j k h => Fin.ext (cell_injective j.isLt k.isLt h)
  refine ⟨Function.extend place (fun k => cells k) fun _ => a.self, fun k hk => ?_, fun hr => ?_⟩
  · exact hinjective.extend_apply (fun k => cells k) _ ⟨k, hk⟩
  · refine Function.extend_apply' _ _ _ ?_
    rintro ⟨k, hk⟩
    have hstart := hf.start hr
    have hcell : l.cell k = 0 := hk
    rw [Layout.cell] at hcell
    omega

namespace Room

variable {i j : Nat}

theorem mono (h : Room l c names i) (hij : j ≤ i) : Room l c names j :=
  ⟨h.blocks, h.has, Nat.le_trans (Nat.add_le_add_left hij _) h.left⟩

theorem enter (h : Room l c names i) : Room l c names.enter i :=
  ⟨names.enter_ne_nil, h.has, h.left⟩

theorem skip (h : Room l c names (i + j)) : Room l c (names.skip i) j := by
  refine ⟨h.blocks, h.has, ?_⟩
  have := h.left
  rw [next_skip]
  omega

theorem after {s : Stmt} (h : Room l a.program names (s.declarations.length + j))
    (hv : s.Valid a.setting names inLoop) (hf : s.Formed Token.IsName) :
    Room l a.program (names.after s) j := by
  have hleft := h.left
  refine ⟨after_ne_nil h.blocks s, h.has.after fun d hd home _ =>
    ⟨?_, (hv.fills _ hd).storable, ?_⟩, ?_⟩
  · have hone : s.declarations.length = 1 := by cases s <;> cases hd <;> rfl
    have hcell : names.next < l.declared.length := by omega
    exact hcell
  · cases s <;> cases hd <;> exact hf.1
  · rw [after_next h.blocks]
    omega

theorem afterStep (h : Room l a.program names ((declarationsInStep s).length + j))
    (hv : ValidStep a.setting names inLoop s) (hf : FormedStep Token.IsName s) :
    Room l a.program (names.afterStep s) j := by
  cases s
  case none => exact h.mono (Nat.le_add_left _ _)
  case some s => exact h.after hv hf

end Room

mutual

theorem stmt_runnable (ha : a.Hosts kind l) (names : Names) (inLoop : Bool) (s : Stmt)
    (hv : s.Valid a.setting names inLoop) (hf : s.Formed Token.IsName)
    (hk : ∀ q ∈ s.evaluated names, a.program.isFaulty q.2 = false)
    (hu : ∀ u ∈ s.uses a.program, u.Valued a.program)
    (hr : Room l a.program names s.declarations.length) : s.Runnable a kind l names inLoop := by
  have hfinds := ha.finds names hr.has
  cases s <;> simp only [Stmt.Valid] at hv <;> simp only [Stmt.Formed] at hf <;>
    simp only [Stmt.evaluated] at hk <;> simp only [Stmt.uses] at hu <;>
    simp only [Stmt.declarations] at hr <;> simp only [Stmt.Runnable]
  case «variable» loc name type init =>
    exact ⟨hfinds, hr.left, needed_of_option hv.admits hf.2.2.1 hk hu⟩
  case constant loc name type value =>
    exact ⟨hfinds, hr.left, needed_of_option hv.admits hf.2.2 hk hu⟩
  case block loc body => exact body_runnable ha names.enter inLoop body hv hf hk hu hr.enter
  case assign loc target op value =>
    simp only [forall_mem_append, forall_mem_cons] at hk hu
    exact ⟨hfinds, sure_of_admits hv.reads hf.2.2.1 hk.1 (valued_of_target hf.1 hu.1),
      needed_of_admits hv.admits hf.2.2.2 hk.2.1 hu.2.1⟩
  case result loc value =>
    refine ⟨hfinds, needed_of_option ?_ hf hk hu⟩
    rintro e rfl
    exact hv.1
  case branch loc condition thenBody elseBody =>
    simp only [forall_mem_append, forall_mem_cons] at hk hu
    rw [length_append] at hr
    refine ⟨⟨hfinds, ?_⟩, ?_, ?_⟩
    · rintro _ ⟨⟩
      exact needed_of_admits hv.1.admits hf.1 hk.1.1 hu.1.1
    · exact body_runnable ha _ inLoop thenBody hv.2.1 hf.2.1 hk.1.2 hu.1.2
        (hr.mono (Nat.le_add_right ..)).enter
    · exact else_runnable ha _ inLoop elseBody hv.2.2 hf.2.2 hk.2 hu.2 hr.skip
  case whileLoop loc condition body =>
    simp only [forall_mem_cons] at hk hu
    refine ⟨⟨hfinds, ?_⟩, body_runnable ha _ true body hv.2 hf.2 hk.2 hu.2 hr.enter⟩
    rintro _ ⟨⟩
    exact needed_of_admits hv.1.admits hf.1 hk.1 hu.1
  case forLoop loc init condition update body =>
    simp only [forall_mem_append] at hk hu
    rw [length_append, length_append, Nat.add_assoc] at hr
    have hrest := hr.enter.afterStep hv.1 hf.2.1
    refine ⟨step_runnable ha _ inLoop init hv.1 hf.2.1 hk.1.1.1 hu.1.1.1
        (hr.mono (Nat.le_add_right ..)).enter, ⟨ha.finds _ hrest.has, ?_⟩, ?_, ?_⟩
    · exact needed_of_option (fun e he => (hv.2.1 e he).admits) hf.2.2.1 hk.1.1.2 hu.1.1.2
    · exact step_runnable ha _ inLoop update hv.2.2.1 hf.2.2.2.2.1 hk.1.2 hu.2
        (hrest.mono (Nat.le_add_right ..))
    · exact body_runnable ha _ true body hv.2.2.2 hf.2.2.2.2.2 hk.2 hu.1.2
        (hrest.mono (Nat.le_add_left ..)).enter
  case breakLoop => exact hv
  case continueLoop => exact hv
  case evaluate loc e =>
    exact ⟨hfinds, sure_of_admits hv hf (by simpa using hk) (forall_mem_singleton.mp hu)⟩

theorem body_runnable (ha : a.Hosts kind l) (names : Names) (inLoop : Bool) (body : List Stmt)
    (hv : ValidBody a.setting names inLoop body) (hf : FormedBody Token.IsName body)
    (hk : ∀ q ∈ evaluatedIn names body, a.program.isFaulty q.2 = false)
    (hu : ∀ u ∈ usesIn a.program body, u.Valued a.program)
    (hr : Room l a.program names (declarationsIn body).length) :
    RunnableBody a kind l names inLoop body := by
  cases body
  case nil => trivial
  case cons s rest =>
    rw [evaluatedIn, forall_mem_append] at hk
    have hfault : a.program.isFaultyStmt s = false :=
      isFaultyStmt_eq_false ha.isClass names inLoop s hv.1 hk.1
    rw [usesIn, hfault, forall_mem_append] at hu
    rw [declarationsIn, length_append] at hr
    exact ⟨stmt_runnable ha names inLoop s hv.1 hf.1 hk.1 hu.1 (hr.mono (Nat.le_add_right ..)),
      body_runnable ha _ inLoop rest hv.2 hf.2 hk.2 hu.2 (hr.after hv.1 hf.1)⟩

theorem else_runnable (ha : a.Hosts kind l) (names : Names) (inLoop : Bool)
    (body : Option (List Stmt)) (hv : ValidElse a.setting names inLoop body)
    (hf : FormedElse Token.IsName body)
    (hk : ∀ q ∈ evaluatedInElse names body, a.program.isFaulty q.2 = false)
    (hu : ∀ u ∈ usesInElse a.program body, u.Valued a.program)
    (hr : Room l a.program names (declarationsInElse body).length) :
    RunnableElse a kind l names inLoop body := by
  cases body
  case none => trivial
  case some body => exact body_runnable ha names.enter inLoop body hv hf hk hu hr.enter

theorem step_runnable (ha : a.Hosts kind l) (names : Names) (inLoop : Bool) (s : Option Stmt)
    (hv : ValidStep a.setting names inLoop s) (hf : FormedStep Token.IsName s)
    (hk : ∀ q ∈ evaluatedInStep names s, a.program.isFaulty q.2 = false)
    (hu : ∀ u ∈ usesInStep a.program s, u.Valued a.program)
    (hr : Room l a.program names (declarationsInStep s).length) :
    RunnableStep a kind l names inLoop s := by
  cases s
  case none => trivial
  case some s => exact stmt_runnable ha names inLoop s hv hf hk hu hr

end

theorem Runs.reaches {body : List Stmt} {st st' : Store V S} {o : Outcome V} {result : Option V}
    {slots : Nat → V} (hcode : code = finished ((a.site kind).bodyAt l names none 0 body) loc)
    (hr : RunnableBody a kind l names false body) (h : a.Runs names (.body body) st o st')
    (ho : o.result? = some result) (hh : a.Holds l st.cells slots) :
    ∃ left stack slots', Reaches a.meaning code (code, ⟨[], slots, st.state⟩)
        (left, ⟨stack, slots', st'.state⟩) ∧ Returns left stack result ∧
          a.Holds l st'.cells slots' := by
  set part := (a.site kind).bodyAt l names none 0 body
  have hnodup : (labelsOf part).Nodup := ((a.site kind).bodyAt_numbered l names none 0 body).nodup
  have hends {left : List Instruction} (hleft : part ++ left = code) (hn : (labelsOf left) = []) :
      a.Ends l code none left o st' (code, ⟨[], slots, st.state⟩) := by
    have hstands : Stands code none part left := by
      refine ⟨?_, hleft ▸ suffix_rfl, by simp⟩
      rwa [← hleft, labelsOf_append, hn, append_nil]
    have hrunnable : Phrase.Runnable a kind l names (none : Option Loop).isSome (.body body) := hr
    have hends := h.simulated hrunnable (.body 0 body) hstands hh
    rwa [hleft] at hends
  rw [finished] at hcode
  split at hcode
  case isTrue hlast =>
    obtain ⟨left, stack, slots', hreach, hh', hexits⟩ := hends (by rw [hcode, append_nil]) rfl
    have hlast : code.getLast?.any (·.opcode = .ret) := hcode ▸ hlast
    have hne : code ≠ [] := by
      rintro rfl
      cases hlast
    cases hexits
    case normal => exact absurd rfl (hreach.inside hlast ⟨suffix_rfl, hne⟩).2
    case returned hreturns =>
      cases ho
      exact ⟨left, stack, slots', hreach, hreturns, hh'⟩
    all_goals cases ho
  case isFalse =>
    obtain ⟨left, stack, slots', hreach, hh', hexits⟩ := hends hcode.symm rfl
    cases hexits
    case normal =>
      cases ho
      exact ⟨_, [], slots', hreach, ⟨rfl, _, rfl, rfl, rfl⟩, hh'⟩
    case returned hreturns =>
      cases ho
      exact ⟨left, stack, slots', hreach, hreturns, hh'⟩
    all_goals cases ho

end Hosts
end Activation

theorem RoutineDeclared.room {returns : TypeName}
    (h : RoutineDeclared t className loc name params returns isStatic)
    (hf : ∀ p ∈ params, p.Formed Token.IsName) (body : List Stmt) :
    Activation.Room (.ofRoutine c receiver? params body) c (.ofParams params)
      (declarationsIn body).length := by
  have hne : Names.empty.blocks ≠ [] := cons_ne_nil _ _
  have hnext : (Names.ofParams params).next = 0 + (params.map Declaration.ofParam).length :=
    declareAll_next hne _
  have hlength : (Layout.ofRoutine c receiver? params body).declared.length =
      params.length + (declarationsIn body).length := by
    simp [Layout.ofRoutine, Layout.ofDeclarations]
  have hcells : (Names.ofParams params).All (·.cell < (Names.ofParams params).next) :=
    Names.All.cells_declareAll hne (Names.All.empty _) _
  have hparams : (Names.ofParams params).All fun b =>
      (b.declared.typeIn c).Storable ∧ Token.IsName b.declared.name :=
    Names.All.ofParams fun p hp _ _ => ⟨h.storable hp, (hf p hp).1⟩
  rw [length_map] at hnext
  refine ⟨declareAll_ne_nil hne _, fun name b hb => ?_, by omega⟩
  obtain ⟨htype, hname⟩ := hparams name b hb
  have hcell := hcells name b hb
  exact ⟨by omega, htype, hname⟩

namespace Code

structure Routine.Holds {V : Type} (r : Routine) (receiver? : Option String) (ds : List Declaration)
    (self : V) (cells slots : Nat → V) : Prop where
  self  : receiver?.isSome → slots 0 = self
  cells : ∀ (k : Nat) (d : Declaration), ds[k]? = some d →
    ∃ row : Local, r.locals[receiver?.toList.length + k]? = some row ∧ row.name = d.name ∧
      slots row.slot = cells k

-- Where operators, calls, objects and globals have some meaning, the code does what the body does.
structure Routine.Preserves {V S : Type} (r : Routine) (meaning : Meaning V S) (c : Checked)
    (className : Option String) (params : List Param) (returns : TypeName) (isStatic : Bool)
    (body : List Stmt) : Prop where
  -- There is a slot for each cell.
  holds : ∀ (self : V) (cells : Nat → V), ∃ slots : Nat → V,
    r.Holds (if isStatic then none else className) (params.map .ofParam ++ declarationsIn body) self
      cells slots
  -- If the body ends with a result, then the code, run from its start on an empty stack, reaches
  -- the end of the routine with the same result, the same state and the same values in its slots.
  runs  : ∀ (self : V) (st st' : Store V S) (o : Outcome V) (result : Option V) (slots : Nat → V),
    (Activation.ofRoutine meaning c className isStatic returns self).Runs (.ofParams params)
      (.body body) st o st' →
    o.result? = some result →
    r.Holds (if isStatic then none else className) (params.map .ofParam ++ declarationsIn body) self
      st.cells slots →
    ∃ left stack slots',
      Reaches meaning r.code (r.code, ⟨[], slots, st.state⟩) (left, ⟨stack, slots', st'.state⟩) ∧
      Returns left stack result ∧
      r.Holds (if isStatic then none else className) (params.map .ofParam ++ declarationsIn body)
        self st'.cells slots'

theorem getElem?_rowsFrom (next : Nat) (vs : List (String × Ty)) (k : Nat) :
    (rowsFrom next vs)[k]? =
      vs[k]?.map fun v => ⟨v.1, next + slotWidths ((vs.take k).map (·.2)), v.2⟩ := by
  induction vs generalizing next k
  case nil => simp [rowsFrom]
  case cons v vs ih =>
    cases k
    case zero => simp [rowsFrom, slotWidths]
    case succ k => simp [rowsFrom, slotWidths, ih, Nat.add_assoc]

theorem Layout.getElem?_rows (l : Layout) (k : Nat) :
    l.rows[l.front.length + k]? = l.declared[k]?.map fun v => ⟨v.1, l.cell k, v.2⟩ := by
  rw [rows, getElem?_append_right (Nat.le_add_right _ _), Nat.add_sub_cancel_left,
    getElem?_rowsFrom]
  rfl

-- The table of a routine tells where the layout keeps its cells.
theorem Routine.holds_iff {V S : Type} {a : Activation V S} {r : Routine} {cells slots : Nat → V}
    (hr : a.setting.receiver? = receiver?)
    (hl : r.locals = (Layout.ofDeclarations c receiver? ds).rows) :
    r.Holds receiver? ds a.self cells slots ↔
      a.Holds (.ofDeclarations c receiver? ds) cells slots := by
  have hfront : (Layout.ofDeclarations c receiver? ds).front.length = receiver?.toList.length := by
    cases receiver? <;> rfl
  have hrow (k : Nat) : r.locals[receiver?.toList.length + k]? =
      ds[k]?.map fun d => ⟨d.name, (Layout.ofDeclarations c receiver? ds).cell k, d.typeIn c⟩ := by
    have hdeclared : (Layout.ofDeclarations c receiver? ds).declared = ds.map (·.typed c) := rfl
    rw [hl, ← hfront, getElem?_rows, hdeclared, List.getElem?_map, Option.map_map]
    rfl
  constructor
  · rintro ⟨hself, hcells⟩
    refine ⟨fun k hk => ?_, hr ▸ hself⟩
    have hlength : k < ds.length := by simpa [Layout.ofDeclarations] using hk
    obtain ⟨row, hrow', -, hslot⟩ := hcells k _ (getElem?_eq_getElem hlength)
    rw [hrow, getElem?_eq_getElem hlength] at hrow'
    cases hrow'
    exact hslot
  · rintro ⟨hcells, hself⟩
    refine ⟨hr ▸ hself, fun k d hd => ⟨_, by rw [hrow, hd]; rfl, rfl, hcells k ?_⟩⟩
    have hlength := (List.getElem?_eq_some_iff.mp hd).1
    simpa [Layout.ofDeclarations] using hlength

theorem preserves_routine {V S : Type} (meaning : Meaning V S) {c : Checked} {t : SymbolTable}
    (h : Accepted c t) (hend : (t.settleAll c c.items).Typed []) (hv : c.Valued)
    {className : Option String} {params : List Param} {returns : TypeName} {isStatic : Bool}
    (hd : Defined c t className loc name params returns isStatic body)
    (hu : usesIn c body ∈ c.bodies)
    (hr : r ∈ loweredRoutine? c className (.routine loc name params returns isStatic body))
    (hgiven : ∀ a ∈ r.given, a.slot.isSome) :
    r.routine.Preserves meaning c className params returns isStatic body := by
  have hfollows := routine_follows h hend hd hr hgiven
  obtain ⟨hdeclared, hf, hc, hvalid, -⟩ := hd
  set l := Layout.ofRoutine c (if isStatic then none else className) params body
  have hroom : Activation.Room l c (.ofParams params) (declarationsIn body).length :=
    hdeclared.room hf.2.1 body
  have hosts (self : V) : (Activation.ofRoutine meaning c className isStatic returns self).Hosts
      (routineKind className) l :=
    ⟨fun names hn => Activation.finds h hv.fields rfl rfl hn, rfl⟩
  have hiff (self : V) (cells slots : Nat → V) :
      r.routine.Holds (if isStatic then none else className)
        (params.map .ofParam ++ declarationsIn body) self cells slots ↔
      (Activation.ofRoutine meaning c className isStatic returns self).Holds l cells slots :=
    Routine.holds_iff (a := .ofRoutine meaning c className isStatic returns self) rfl
      hfollows.locals
  constructor
  case holds =>
    intro self cells
    obtain ⟨slots, hh⟩ := ((hosts self).finds _ hroom.has).exists_holds cells
    exact ⟨slots, (hiff self cells slots).mpr hh⟩
  case runs =>
    intro self st st' o result slots hruns ho hh
    have hsite : r.site = (Activation.ofRoutine meaning c className isStatic returns self).site
        (routineKind className) := by
      rw [loweredRoutine?_eq h body hdeclared hf.1 hc] at hr
      cases hr
      rfl
    have hrunnable := Activation.body_runnable (hosts self) (.ofParams params) false body hvalid
      hf.2.2.2 (h.routine_faultless hend hf.2.2.2 hvalid) (hv.bodies _ hu) hroom
    obtain ⟨left, stack, slots', hreach, hreturns, hh'⟩ :=
      hruns.reaches (hsite ▸ hfollows.code) hrunnable ho ((hiff _ _ _).mp hh)
    exact ⟨left, stack, slots', hreach, hreturns, (hiff _ _ _).mpr hh'⟩

end Code

namespace Checked.Defines

variable {c : Checked} {className : Option String} {item : Stmt}

theorem mem_bodies (hd : c.Defines className item) (hu : uses ∈ item.routineUses? c) :
    uses ∈ c.bodies := by
  cases className
  case none => exact mem_append_right _ (mem_filterMap.mpr ⟨item, hd, hu⟩)
  case some owner =>
    obtain ⟨loc, fields, methods, hi, hm⟩ := hd
    refine mem_append_left _ (mem_cons_of_mem _ (mem_flatMap.mpr ⟨_, hi, ?_⟩))
    exact mem_cons_of_mem _ (mem_filterMap.mpr ⟨item, hm, hu⟩)

end Checked.Defines

-- The code of every routine and method of an accepted program does what its body does, if every
-- expression has a type, everything has a value that is used as one, and every declaration has a
-- slot.
theorem Compilation.preserves {source : String} {c : Compilation}
    (h : ofSource .strict source = .ok c) (hk : ¬c.checked.Unknown) (hv : c.checked.Valued)
    {className : Option String} {loc : Location} {name : String} {params : List Param}
    {returns : TypeName} {isStatic : Bool} {body : List Stmt}
    (hd : c.checked.Defines className (.routine loc name params returns isStatic body)) :
    ∃ r ∈ Code.loweredRoutine? c.checked className (.routine loc name params returns isStatic body),
      r.routine ∈ c.routines ∧ r.routine.name = fullName className name ∧
        ((∀ a ∈ r.given, a.slot.isSome) → ∀ (V S : Type) (meaning : Meaning V S),
          r.routine.Preserves meaning c.checked className params returns isStatic body) := by
  obtain ⟨t, haccepted⟩ := accepted h
  obtain ⟨-, hend⟩ := haccepted.end_typed hk
  have hdefined := haccepted.defined hd
  obtain ⟨r, hr, hname⟩ : ∃ r : Code.Lowered, Code.loweredRoutine? c.checked className
      (.routine loc name params returns isStatic body) = some r ∧
        r.routine.name = fullName className name := by
    rw [loweredRoutine?_eq haccepted body hdefined.declared hdefined.formed.1 hdefined.owner]
    exact ⟨_, rfl, rfl⟩
  refine ⟨r, hr, ?_, hname, fun hgiven V S meaning => ?_⟩
  · rw [(ofSource_strict h).2.2, ← routine_lowered _]
    exact mem_map_of_mem (lowered_mem haccepted hd hr)
  · exact preserves_routine meaning haccepted hend hv hdefined (hd.mem_bodies rfl) hr hgiven

def Stmt.countsDown : Stmt → Bool
  | .routine _ _ [p] _ _
      [.whileLoop _ (.literal _ _)
        [.assign _ (.variable _ x) (some .sub) (.literal _ _), .breakLoop _],
        .result _ (some (.variable _ y))] => x = p.name && y = p.name
  | _ => false

def Meaning.ones : Meaning Int Unit where
  literal _ := 1
  isTrue v := v = 1
  binary _ _ x y s := some (x - y, s)
  unary _ _ _ _ := none
  call _ _ _ := none
  create _ _ := none
  construct _ _ _ := none
  getField _ _ _ := none
  putField _ _ _ _ := none
  getGlobal _ _ := none
  putGlobal _ _ _ := none

theorem Stmt.runs_of_countsDown {s : Stmt} (h : s.countsDown = true) (c : Checked) (n : Int) :
    ∃ loc name params returns isStatic body, s = .routine loc name params returns isStatic body ∧
      (Activation.ofRoutine .ones c none isStatic returns 0).Runs (.ofParams params) (.body body)
        ⟨fun _ => n, ()⟩ (.returned (some (n - 1))) (Store.set ⟨fun _ => n, ()⟩ 0 (n - 1)) := by
  unfold countsDown at h
  split at h
  case h_1 loc name p returns isStatic _ m _ _ m₁ x m₂ value _ _ m₃ y =>
    rw [Bool.and_eq_true, decide_eq_true_eq, decide_eq_true_eq] at h
    obtain ⟨rfl, rfl⟩ := h
    refine ⟨_, _, _, _, _, _, rfl, ?_⟩
    set a := Activation.ofRoutine .ones c none isStatic returns 0
    set st : Store Int Unit := ⟨fun _ => n, ()⟩
    have hcell (names : Names) (hb : names.find? p.name = (Names.ofParams [p]).find? p.name) :
        a.referent names p.name = .cell 0 := by
      refine Activation.referent_of_find? (b := ⟨0, .method, .ofParam p⟩) (hb.trans ?_)
      simp [Names.find?, Names.ofParams, Names.declareAll, Names.declare, Names.empty,
        Declaration.ofParam]
    have hstep : a.assign (Names.ofParams [p]).enter (.variable m₁ p.name) (some .sub)
        (.literal m₂ value) st = some (st.set 0 (n - 1)) := by
      simp only [Activation.assign, Activation.stored, Activation.read, Activation.write,
        hcell (Names.ofParams [p]).enter rfl]
      rfl
    have hresult : a.eval ((Names.ofParams [p]).skip 0) (st.set 0 (n - 1)).cells
        (.variable m₃ p.name) () = some (n - 1, ()) := by
      rw [Activation.eval, Activation.read, hcell ((Names.ofParams [p]).skip 0) rfl]
      rfl
    exact .cons (.whileLoop (.exit rfl (.cons (.assign hstep) (.leave .breakLoop (by simp)))))
      (.leave (.resultOf hresult) (by simp))
  case h_2 => cases h

theorem Compilation.preserves_countdown :
    ∃ c, ofSource .strict
        "int f(int n) { while (true) { n -= 1; break; } return n; }" = .ok c ∧
      ¬c.checked.Unknown ∧ c.checked.Valued ∧
      ∃ loc name params returns isStatic body,
        c.checked.Defines none (.routine loc name params returns isStatic body) ∧
        ∃ r ∈ Code.loweredRoutine? c.checked none (.routine loc name params returns isStatic body),
          r.routine ∈ c.routines ∧ (∀ a ∈ r.given, a.slot.isSome) ∧
          ∃ slots left stack slots',
            Reaches .ones r.routine.code (r.routine.code, ⟨[], slots, ()⟩)
              (left, ⟨stack, slots', ()⟩) ∧
            Returns left stack (some (2 : Int)) := by
  have hany : (ofSource .strict
      "int f(int n) { while (true) { n -= 1; break; } return n; }").toOption.any fun c =>
      !usesAhead c.checked.items && decide c.checked.Valued && c.checked.items.any fun item =>
        item.countsDown && (Code.loweredRoutine? c.checked none item).all fun r =>
          r.given.all (·.slot.isSome) := by
    decide +kernel
  obtain ⟨c, hc, hall⟩ := exists_of_toOption hany
  obtain ⟨t, haccepted⟩ := accepted hc
  simp only [Bool.and_eq_true, Bool.not_eq_true', decide_eq_true_eq, List.any_eq_true] at hall
  obtain ⟨⟨hahead, hv⟩, item, hi, hitem, hslots⟩ := hall
  have hk : ¬c.checked.Unknown := (haccepted.known hahead).1
  obtain ⟨loc, name, params, returns, isStatic, body, rfl, hruns⟩ :=
    item.runs_of_countsDown hitem c.checked 3
  have hd : c.checked.Defines none (.routine loc name params returns isStatic body) := hi
  obtain ⟨r, hr, hmem, -, hpreserves⟩ := preserves hc hk hv hd
  have hgiven : ∀ a ∈ r.given, a.slot.isSome := by
    rw [mem_def.mp hr] at hslots
    simpa using hslots
  obtain ⟨slots, hholds⟩ := (hpreserves hgiven Int Unit .ones).holds 0 fun _ => 3
  obtain ⟨left, stack, slots', hreach, hreturns, -⟩ :=
    (hpreserves hgiven Int Unit .ones).runs 0 _ _ _ _ slots hruns rfl hholds
  exact ⟨c, hc, hk, hv, loc, name, params, returns, isStatic, body, hd, r, hr, hmem, hgiven, slots,
    left, stack, slots', hreach, hreturns⟩

end Lumen
