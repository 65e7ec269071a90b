import Lumen.Proofs.Code.Statements

namespace Lumen

open Typing List Option SymbolTable

variable {g : Setting} {d : Declaration} {className : Option String} {name : String}
  {env : Environment} {item : Stmt}

def Symbol.hasValue (s : Symbol) : Bool :=
  match s.kind with
  | .variable | .parameter | .field => true
  | .classDef | .routine _ => false

def Ty.Storable (t : Ty) : Prop :=
  t ≠ .void ∧ t ≠ .null

theorem Ty.storable_ofName {w : TypeName} (h : w ≠ .void) : (Ty.ofName w).Storable := by
  cases w <;> simp_all [Storable, ofName]

theorem Setting.Fills.storable (h : g.Fills names d) : (d.typeIn g.program).Storable :=
  ⟨h.ne_void, h.ne_null⟩

theorem RoutineDeclared.storable {returns : TypeName}
    (h : RoutineDeclared t className loc name params returns isStatic) (hp : p ∈ params) :
    (Ty.ofName p.type).Storable :=
  Ty.storable_ofName fun hw => (h.known p hp).2 (congrArg Ty.ofName hw)

def Symbol.Valued (s : Symbol) : Prop :=
  s.hasValue → s.type.Storable

structure Typing.Environment.Valued (env : Environment) : Prop where
  symbols : ∀ name, ∀ s ∈ env.symbol? name, s.Valued
  members : ∀ className name, ∀ s ∈ env.member? className name, s.Valued

def Names.Valued (c : Checked) (names : Names) : Prop :=
  names.All (·.declared.typeIn c |>.Storable)

def Setting.Valued (g : Setting) : Prop :=
  ∀ names : Names, names.Valued g.program → (g.environment names).Valued

structure SymbolTable.Valued (t : SymbolTable) : Prop where
  globals : ∀ name, ∀ s ∈ t.inScope? global name, s.Valued
  members : ∀ className name, ∀ s ∈ t.member? className name, s.Valued

section Valued

variable {c : Checked} {t : SymbolTable} {names : Names}

theorem SymbolTable.Valued.setting (h : g.table.Valued)
    (ho : ∀ i ∈ g.outer, i = global ∨ ∃ owner, g.table.classScope? owner = some i) :
    g.Valued := by
  intro names hn
  refine ⟨fun name s hs => ?_, h.members⟩
  simp only [Setting.environment, mem_def] at hs
  split at hs
  case h_1 b hb =>
    cases hs
    exact fun _ => hn name b hb
  case h_2 =>
    obtain ⟨i, hi, hs⟩ := exists_of_findSome?_eq_some hs
    rcases ho i hi with rfl | ⟨owner, howner⟩
    · exact h.globals name s hs
    · exact h.members owner name s (bind_eq_some_iff.mpr ⟨i, howner, hs⟩)

theorem Typing.Environment.Valued.storable_variable (h : env.Valued)
    (ht : env.variableType name = .ok type) : type.Storable := by
  rw [Environment.variableType] at ht
  split at ht
  case h_1 => cases ht
  case h_2 s hs =>
    have hs := h.symbols name s hs
    rw [Symbol.Valued, Symbol.hasValue] at hs
    grind

theorem Typing.Environment.Valued.storable_field {className : String} (h : env.Valued)
    (hs : env.member? className name = some s) (hk : s.kind = .field) : s.type.Storable :=
  h.members className name s hs (by simp [Symbol.hasValue, hk])

theorem Typing.Environment.Valued.typeOf_ne_void {e : Expr} (h : env.Valued) (ht : e.Typed c env)
    (hc : e.isCall = false) : c.typeOf e ≠ .void := by
  intro hv
  cases e <;> rw [Expr.Typed] at ht
  case «variable» m name =>
    exact (h.storable_variable ht).1 hv
  case member m object name =>
    obtain ⟨-, className, s, -, hs, hkind, htype⟩ := ht
    exact (h.storable_field hs hkind).1 (htype.symm.trans hv)
  case call | invoke => cases hc
  case literal m l => cases l <;> cases hv.symm.trans ht
  case receiver m => exact absurd (ht.trans (congrArg _ hv)) Code.Site.receiverType_ne_void
  case binary m op left right =>
    exact absurd (ht.2.2.trans (congrArg _ hv)) (Code.Site.result?_ne_void op _ _)
  case unary m op operand =>
    exact absurd (ht.2.trans (congrArg _ hv)) (Code.Site.unary_result?_ne_void op _)
  case create m type args =>
    obtain ⟨-, className, -, -, htype⟩ := ht
    cases hv.symm.trans htype
  case stray => exact ht.elim

theorem ValidMain.storable (h : ValidMain c t items) (hi : item ∈ items)
    (hd : d ∈ item.declaration?) : (d.typeIn c).Storable := by
  induction items generalizing t
  case nil => cases hi
  case cons first rest ih =>
    rcases mem_cons.mp hi with rfl | hi
    · exact (h.1.fills c hd).storable
    · exact ih h.2 hi

theorem SymbolTable.Valued.settle (h : t.Valued) (hv : item.ValidItem c t) :
    (t.settle c item).Valued := by
  cases item <;> try exact h
  case «variable» loc name type init =>
    cases type <;> cases init <;> try exact h
    case none.some init =>
      have hstorable : (c.typeOf init).Storable := (hv.fills c rfl).storable
      have hglobals : ∀ n, ∀ s ∈ (t.retype global name (c.typeOf init)).inScope? global n,
          s.Valued := by
        intro n s hs
        rw [inScope?_retype, mem_def] at hs
        split at hs
        case isTrue =>
          obtain ⟨old, -, rfl⟩ := map_eq_some_iff.mp hs
          exact fun _ => hstorable
        case isFalse => exact h.globals n s hs
      refine ⟨hglobals, fun owner n s hs => ?_⟩
      obtain ⟨i, howner, hs⟩ := bind_eq_some_iff.mp hs
      by_cases hi : global = i
      · subst hi
        exact hglobals n s hs
      · have hs : (t.retype global name (c.typeOf init)).inScope? i n = some s := hs
        rw [inScope?_retype, if_neg fun h => hi h.1] at hs
        exact h.members owner n s (bind_eq_some_iff.mpr ⟨i, howner, hs⟩)

theorem SymbolTable.Valued.settleAll (h : t.Valued) (hv : ValidMain c t items) :
    (t.settleAll c items).Valued := by
  induction items generalizing t
  case nil => exact h
  case cons item items ih => exact ih (h.settle hv.1) hv.2

theorem Stmt.Declared.global (h : item.Declared t) (hd : d ∈ item.declaration?) :
    GlobalDeclared t d := by
  cases item <;> cases hd <;> exact h

theorem Accepted.valued_start (h : Accepted c t)
    (hf : ∀ item ∈ c.items, ∀ f ∈ item.fields, f.type ≠ .void) : t.Valued := by
  have hall (i : Nat) (hi : t.kindOf? i ≠ some .method) (name : String) (s : Symbol)
      (hs : t.inScope? i name = some s) : s.Valued := by
    intro hvalue
    have hsourced := h.collected.sourced hs
    obtain ⟨scope, hscope, hget⟩ := bind_eq_some_iff.mp hs
    obtain ⟨hname, -, hsuits⟩ := h.orderly.scopes i scope hscope name s hget
    cases hkind : s.kind <;> simp [Symbol.hasValue, hkind] at hvalue
    case «variable» =>
      obtain ⟨rfl, item, hitem, d, hd, hdname⟩ := hsourced.global hkind
      have hdeclared := ((h.declared item hitem).global hd).symbol
      rw [hdname, hname, hs] at hdeclared
      have htype := congrArg Symbol.type (Option.some.inj hdeclared)
      have hstorable := h.main.storable hitem hd
      rw [htype]
      cases hw : d.type
      case none => simp [Ty.Storable]
      case some w =>
        rw [Declaration.typeIn, hw] at hstorable
        exact hstorable
    case parameter =>
      -- Only routines have parameters.
      rw [hkind] at hsuits
      have hmethod : scope.kind = .method := by
        cases hk : scope.kind <;> rw [hk] at hsuits <;> first | rfl | exact hsuits.elim
      rw [kindOf?_of_scope hscope, hmethod] at hi
      exact absurd rfl hi
    case field =>
      obtain ⟨item, hitem, f, hmem, htype⟩ := hsourced.field hkind
      exact htype ▸ Ty.storable_ofName (hf item hitem f hmem)
  refine ⟨fun name s hs => hall _ (by simp [h.orderly.global]) name s hs, fun owner name s hs => ?_⟩
  obtain ⟨i, howner, hs⟩ := bind_eq_some_iff.mp hs
  exact hall i (by simp [h.orderly.classes owner i howner]) name s hs

theorem Accepted.valued (h : Accepted c t)
    (hf : ∀ item ∈ c.items, ∀ f ∈ item.fields, f.type ≠ .void) : c.symbols.Valued := by
  have hstart := h.valued_start hf
  have hend := hstart.settleAll h.main
  refine ⟨fun name s hs => hend.globals name s ?_, fun owner name s hs => ?_⟩
  · rw [inScope?, ← h.global]
    exact hs
  · rw [h.member?_eq] at hs
    exact hstart.members owner name s hs

theorem Accepted.setting_valued (h : Accepted c t)
    (hf : ∀ item ∈ c.items, ∀ f ∈ item.fields, f.type ≠ .void) (ht : g.table = c.symbols)
    (ho : g.outer = c.symbols.outer className) : g.Valued := by
  refine Valued.setting (ht ▸ h.valued hf) fun i hi => ?_
  rw [ho] at hi
  rw [ht]
  cases className
  case none => exact .inl (mem_singleton.mp hi)
  case some className =>
    rcases mem_append.mp hi with hi | hi
    · exact .inr ⟨className, mem_toList.mp hi⟩
    · exact .inl (mem_singleton.mp hi)

theorem SymbolTable.Valued.main (h : t.Valued) : (c.mainSetting t).Valued :=
  Valued.setting (g := c.mainSetting t) h fun _ hi => .inl (mem_singleton.mp hi)

end Valued

mutual

def Expr.operands : Expr → List Expr
  | .literal .. | .variable .. | .receiver _ | .stray _ => []
  | .binary _ _ left right => left :: left.operands ++ right :: right.operands
  | .unary _ _ operand => operand :: operand.operands
  | .call _ _ args => operandsOf args
  | .invoke _ object _ args => object :: object.operands ++ operandsOf args
  | .member _ object _ => object :: object.operands
  | .create _ _ args => operandsOf args

def operandsOf : List Expr → List Expr
  | [] => []
  | e :: es => e :: e.operands ++ operandsOf es

end

def Use.taken : Use → List Expr
  | needed e => e :: e.operands
  | dropped e => e.operands

def Use.Valued (c : Checked) (u : Use) : Prop :=
  ∀ e ∈ u.taken, c.typeOf e ≠ .void

structure Checked.Valued (c : Checked) : Prop where
  fields : ∀ item ∈ c.items, ∀ f ∈ item.fields, f.type ≠ .void
  bodies : ∀ uses ∈ c.bodies, ∀ u ∈ uses, u.Valued c

instance (c : Checked) (u : Use) : Decidable (u.Valued c) :=
  inferInstanceAs (Decidable (∀ e ∈ u.taken, c.typeOf e ≠ .void))

instance (c : Checked) : Decidable c.Valued :=
  decidable_of_iff ((∀ item ∈ c.items, ∀ f ∈ item.fields, f.type ≠ .void) ∧
    ∀ uses ∈ c.bodies, ∀ u ∈ uses, u.Valued c) ⟨fun h => ⟨h.1, h.2⟩, fun h => ⟨h.1, h.2⟩⟩

namespace Code

theorem suits_valued (g : Setting) (ds : List Declaration) :
    g.Suits (·.declared.typeIn g.program |>.Storable) ds := by
  rintro d - ⟨names, hfills⟩ cell home
  exact hfills.storable

theorem condition_met {P : Binding → Prop} {s : Stmt} (h : s.Met g P looked uses names inLoop)
    (hd : ∀ ds, g.Suits P ds) (he : s.condition? = some e) :
    e.Formed Token.IsName ∧ (∃ names : Names, names.All P ∧ g.Decides names e) ∧
      g.program.isFaulty e = false ∧ .needed e ∈ uses := by
  obtain ⟨hall, hf, hv, -, hn, -, huses⟩ := h
  cases s <;> try cases he
  case branch loc thenBody elseBody =>
    exact ⟨hf.1, ⟨names, hall, (hv rfl).1⟩, hn, huses (by simp [Stmt.uses])⟩
  case whileLoop loc body =>
    exact ⟨hf.1, ⟨names, hall, (hv rfl).1⟩, hn, huses (by simp [Stmt.uses])⟩
  case forLoop loc init update body =>
    simp only [Checked.isFaultyStmt, any_some, Bool.or_eq_false_iff] at hn
    have hstart := all_afterStep hall.enter (hv rfl).1 (hd _)
    exact ⟨hf.2.2.1, ⟨_, hstart, (hv rfl).2.1 e rfl⟩, hn.1.2,
      huses (by simp [Stmt.uses, usesOfOption])⟩

def Sane (site : Site) (s : Stmt) : Prop :=
  ∃ g kind className looked uses, g.site kind className = site ∧
    (∀ owner ∈ g.receiver?, className = some owner) ∧ g.Valued ∧ (∀ u ∈ uses, u.Valued g.program) ∧
      Known g (·.declared.typeIn g.program |>.Storable) looked uses s

variable {c : Checked} {t : SymbolTable}

theorem main_sane (h : Accepted c t) (hv : c.Valued) :
    ∀ p ∈ (loweredMain c).pieces, Sane (mainSite c) p.stmt := by
  intro p hp
  obtain ⟨t', looked, ht', -, hknown⟩ := Site.main_known (S := Valued)
    (P := (·.declared.typeIn c |>.Storable)) h.formed h.main (h.valued_start hv.fields)
    (fun _ _ _ ht hvalid => ht.settle hvalid) (fun t => suits_valued (c.mainSetting t) _) _ p hp
  exact ⟨c.mainSetting t', _, none, looked, _, rfl, by simp [Checked.mainSetting], ht'.main,
    hv.bodies _ (by simp [Checked.bodies]), hknown⟩

theorem body_sane (h : Accepted c t) (hv : c.Valued) {returns : TypeName}
    (hd : RoutineDeclared t className loc name params returns isStatic)
    (hf : FormedBody Token.IsName body)
    (hvalid : ValidBody (c.bodySetting className isStatic returns) (.ofParams params) false body)
    (hu : usesIn c body ∈ c.bodies) : ∀ p ∈ (routineSite c className returns isStatic).pieces none
      (routineFrame className params isStatic) body,
      Sane (routineSite c className returns isStatic) p.stmt := by
  have hnames : (Names.ofParams params).Valued c :=
    Names.All.ofParams fun p hp _ _ => hd.storable hp
  intro p hp
  have hreceiver : ∀ owner ∈ (c.bodySetting className isStatic returns).receiver?,
      className = some owner := by
    cases isStatic <;> simp [Checked.bodySetting]
  exact ⟨c.bodySetting className isStatic returns, _, _, _, _, rfl, hreceiver,
    h.setting_valued hv.fields rfl rfl, hv.bodies _ hu,
      Site.stmts_known _ false none _ body hnames hf hvalid (suits_valued _ _) p hp⟩

inductive Lowered.Made (c : Checked) (r : Lowered) : List Instruction → Prop
  | body (hs : ∀ p ∈ r.pieces, Sane r.site p.stmt) :
      Made c r (r.site.stmts none r.frame [] r.body).1
  | fields {owner : String} {fields : List (Field Expr)} {slots : Slots} (hp : r.pieces = [])
      (hg : (c.fieldSetting owner).Valued) (hf : ∀ f ∈ fields, f.Formed Token.IsName)
      (hv : ∀ f ∈ fields, ValidField c owner f)
      (hu : ∀ u ∈ fields.flatMap (fieldUses c), u.Valued c) :
      Made c r (fields.flatMap (fieldCode (constructorSite c owner) slots owner))

structure Lowered.Valued (r : Lowered) (c : Checked) : Prop where
  program : r.site.program = c
  made    : ∃ name kind isInstance code slots loc, r.Made c code ∧
    r.routine = .ofBody name kind isInstance code slots loc

section

variable (h : Accepted c t)

include h

theorem main_valued (hv : c.Valued) : (loweredMain c).Valued c :=
  ⟨rfl, _, _, _, _, _, _, .body (main_sane h hv), mainCode_eq c⟩

theorem routine_valued (hv : c.Valued)
    (hc : ∀ owner ∈ className, Token.IsName owner) (hf : item.FormedRoutine Token.IsName)
    (hd : item.RoutineDeclared t className) (hvalid : item.ValidRoutine c className)
    (hu : ∀ uses ∈ item.routineUses? c, uses ∈ c.bodies)
    (hr : r ∈ loweredRoutine? c className item) :
    r.Valued c := by
  cases item <;> try cases hr
  case routine loc name params returns isStatic body =>
    have hd : RoutineDeclared t className loc name params returns isStatic := hd
    rw [loweredRoutine?_eq h body hd hf.1 hc] at hr
    cases hr
    exact ⟨rfl, _, _, _, _, _, _, .body (body_sane h hv hd hf.2.2.2 hvalid (hu _ rfl)), rfl⟩

theorem class_valued (hv : c.Valued) (hi : item ∈ c.items)
    (hr : r ∈ loweredClass c item) : r.Valued c := by
  have hbodies : ∀ uses ∈ item.classUses c, uses ∈ c.bodies := by
    intro uses huses
    simp only [Checked.bodies, cons_append, mem_cons, mem_append, mem_flatMap]
    exact .inr (.inl ⟨item, hi, huses⟩)
  have hf := h.formed item hi
  have hd := h.declared item hi
  have hvalid := h.classes item hi
  cases item
  case classDef loc name fields methods =>
    rw [loweredClass_eq h fields methods hd.1 hf.1] at hr
    rcases mem_cons.mp hr with rfl | hr
    · have hu := hv.bodies _ (hbodies _ mem_cons_self)
      have houter : (c.fieldSetting name).outer = c.symbols.outer (some name) := rfl
      exact ⟨rfl, _, _, _, _, _, _, .fields rfl (h.setting_valued hv.fields rfl houter) hf.2.1
        hvalid.1 hu, constructorCode_eq c name fields loc⟩
    · obtain ⟨m, hm, hr⟩ := mem_filterMap.mp hr
      refine routine_valued h hv ?_ (hf.2.2 m hm) (hd.2.2 m hm) (hvalid.2 m hm)
        (fun uses huses => ?_) hr
      · rintro owner ⟨⟩
        exact hf.1
      · exact hbodies uses (mem_cons_of_mem _ (mem_filterMap.mpr ⟨m, hm, huses⟩))
  all_goals cases hr

theorem lowered_valued (hv : c.Valued) : ∀ r ∈ lowered c, r.Valued c := by
  intro r hr
  rw [lowered, cons_append, mem_cons, mem_append, mem_flatMap,
    mem_filterMap] at hr
  rcases hr with rfl | ⟨item, hi, hr⟩ | ⟨item, hi, hr⟩
  · exact main_valued h hv
  · exact class_valued h hv hi hr
  · have hname : ∃ name, name ∈ item.routineName? none := by
      cases item <;> first | exact ⟨_, rfl⟩ | cases hr
    obtain ⟨name, hname⟩ := hname
    refine routine_valued h hv (by simp) ((h.formed item hi).routine hname)
      ((h.declared item hi).routine hname) (h.routines item hi) (fun uses huses => ?_) hr
    exact mem_append_right _ (mem_filterMap.mpr ⟨item, hi, huses⟩)

end

end Code

end Lumen
