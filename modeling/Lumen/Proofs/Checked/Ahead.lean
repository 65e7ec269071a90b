import Lumen.Proofs.Checked.Accepted
import Lumen.Proofs.Typing.Known

namespace Lumen

open Typing List Option SymbolTable

def Stmt.usesGlobal (s : Stmt) (name : String) : Bool :=
  (s.evaluated .empty).any fun p => p.2.mentions name && (p.1.find? name).isNone

-- Whether a statement at top level uses a global that takes its type from a value there or below.
def usesAhead : Items → Bool
  | [] => false
  | item :: rest => (untyped (item :: rest)).any item.usesGlobal || usesAhead rest

namespace Scope

theorem ended_retype (s : Scope) (name : String) (type : Ty) :
    (s.retype name type).ended = s.ended := by
  rw [retype]
  split <;> rfl

end Scope

theorem untyped_cons (item : Stmt) (rest : Items) :
    untyped (item :: rest) = untyped [item] ++ untyped rest := by
  rw [untyped, untyped, untyped, ← filterMap_append, singleton_append]

variable {item : Stmt} {name : String} {items : Items} {g : Setting}

section Main

variable {W : String → Prop} {c : Checked} {t : SymbolTable} {pending : List String}

theorem SymbolTable.Typed.retype (h : t.Typed (name :: pending)) (hne : type ≠ .error) :
    (t.retype global name type).Typed pending := by
  intro i s hs
  rw [scopes_retype] at hs
  split at hs
  case isTrue e =>
    subst e
    obtain ⟨s₀, hs₀, rfl⟩ := map_eq_some_iff.mp hs
    obtain ⟨hended, hall⟩ := h _ s₀ hs₀
    refine ⟨(s₀.ended_retype name type).trans hended, fun n symbol hn => ?_⟩
    rw [Scope.get?_retype] at hn
    split at hn
    case isTrue =>
      obtain ⟨symbol₀, hsymbol₀, rfl⟩ := map_eq_some_iff.mp hn
      exact ⟨fun he => absurd he hne, (hall n symbol₀ hsymbol₀).returns⟩
    case isFalse hname =>
      have htyped := hall n symbol hn
      refine ⟨fun he => ⟨rfl, ?_⟩, htyped.returns⟩
      exact mem_of_ne_of_mem (Ne.symm hname) (htyped.known he).2
  case isFalse hi =>
    obtain ⟨hended, hall⟩ := h i s hs
    refine ⟨hended, fun n symbol hn => ⟨fun he => ?_, (hall n symbol hn).returns⟩⟩
    exact absurd ((hall n symbol hn).known he).1 (Ne.symm hi)

theorem SymbolTable.Typed.settle (h : t.Typed (untyped (item :: rest))) (hf : item.FormedItem W)
    (hne : ∀ p ∈ item.evaluated .empty, c.isFaulty p.2 = false) :
    (t.settle c item).Typed (untyped rest) := by
  cases item <;> try exact h
  case «variable» loc name type init =>
    cases type <;> cases init <;> try exact h
    case none.none => simp [Stmt.FormedItem, Stmt.Formed] at hf
    case none.some init =>
      exact h.retype (Checked.typeOf_ne_error (hne (.empty, init) (by simp [Stmt.evaluated])))

theorem Setting.Complete.of_typed (h : g.table.Typed pending)
    (hc : ∀ (name : String) (i : Nat), g.table.classes[name]? = some i → i ≠ global) :
    g.Complete := by
  have hscope {i : Nat} {name : String} {symbol : Symbol}
      (hs : g.table.inScope? i name = some symbol) : symbol.Typed pending i name := by
    obtain ⟨s, hs, hget⟩ := bind_eq_some_iff.mp hs
    exact (h i s hs).2 name symbol hget
  refine ⟨fun i _ name symbol hs => (hscope hs).returns, fun className name symbol hs => ?_⟩
  obtain ⟨i, hi, hs⟩ := bind_eq_some_iff.mp hs
  exact ⟨fun he => hc className i hi ((hscope hs).known he).1, (hscope hs).returns⟩

theorem Stmt.ValidItem.faultless (hv : item.ValidItem c t) (hf : item.FormedItem W)
    (hg : (c.mainSetting t).Complete) (hs : (c.mainSetting t).Sees (item.evaluated .empty)) :
    ∀ p ∈ item.evaluated .empty, c.isFaulty p.2 = false := by
  cases item
  case classDef | routine => simp [Stmt.evaluated]
  case «variable» loc name type init =>
    rw [Stmt.evaluated] at hs ⊢
    exact (Setting.Fills.faultless hv hg hf.2.2.1 hf.2.2.2 (.empty c) hs).1
  case constant loc name type value =>
    rw [Stmt.evaluated] at hs ⊢
    have hvalue : FormedOption W (some value) := hf.2.2
    exact (Setting.Fills.faultless hv hg hvalue (.inl rfl) (.empty c) hs).1
  all_goals exact (Stmt.Valid.faultless hg .empty false _ hf hv (.empty c) hs).1

theorem Stmt.ValidItem.admits_evaluated (hv : item.ValidItem c t) :
    ∀ p ∈ item.evaluated .empty, (c.mainSetting t).Admits p.1 p.2 := by
  cases item
  case classDef | routine => simp [Stmt.evaluated]
  case «variable» loc name type init =>
    have hfills : (c.mainSetting t).Fills .empty _ := hv
    simpa [Stmt.evaluated] using hfills.admits
  case constant loc name type value =>
    have hfills : (c.mainSetting t).Fills .empty _ := hv
    simpa [Stmt.evaluated] using hfills.admits
  all_goals exact Stmt.Valid.admits_evaluated .empty false _ hv

theorem ValidMain.faultless (hv : ValidMain c t items) (hf : ∀ item ∈ items, item.FormedItem W)
    (ht : t.Typed (untyped items))
    (hc : ∀ (name : String) (i : Nat), t.classes[name]? = some i → i ≠ global)
    (hu : usesAhead items = false) :
    (∀ item ∈ items, ∀ p ∈ item.evaluated .empty, c.isFaulty p.2 = false) ∧
      (t.settleAll c items).Typed [] := by
  induction items generalizing t
  case nil => exact ⟨by simp, ht⟩
  case cons item rest ih =>
    obtain ⟨hfi, hfr⟩ := forall_mem_cons.mp hf
    rw [usesAhead, Bool.or_eq_false_iff, List.any_eq_false] at hu
    have hsees : (c.mainSetting t).Sees (item.evaluated .empty) := by
      intro p hp x hx hnone symbol hs he
      have hsymbol : t.inScope? global x = some symbol := by
        simpa [Checked.mainSetting] using hs
      obtain ⟨s, hs, hget⟩ := bind_eq_some_iff.mp hsymbol
      refine hu.1 x (((ht _ s hs).2 x symbol hget).known he).2 ?_
      exact any_eq_true.mpr ⟨p, hp, by simp [hx, hnone]⟩
    have hitem := hv.1.faultless hfi (.of_typed ht hc) hsees
    obtain ⟨hrest, hend⟩ := ih hv.2 hfr (ht.settle hfi hitem)
      (by rw [classes_settle]; exact hc) hu.2
    exact ⟨forall_mem_cons.mpr ⟨hitem, hrest⟩, hend⟩

def SymbolTable.Awaits (t : SymbolTable) (name : String) : Prop :=
  ∃ symbol, t.inScope? global name = some symbol ∧ symbol.kind = .variable ∧
    symbol.type = .error

theorem SymbolTable.Awaits.settle (h : t.Awaits name) (hn : name ∉ untyped [item]) :
    (t.settle c item).Awaits name := by
  cases item <;> try exact h
  case «variable» loc n type init =>
    cases type <;> cases init <;> try exact h
    case none.some init =>
      obtain ⟨symbol, hs, hsymbol⟩ := h
      have hne : n ≠ name := by
        rintro rfl
        exact hn (mem_singleton.mpr rfl)
      exact ⟨symbol, by simpa [settle, inScope?_retype, hne] using hs, hsymbol⟩

theorem ValidMain.unknown (hv : ValidMain c t items) (ha : ∀ name ∈ untyped items, t.Awaits name)
    (hn : (untyped items).Nodup) (hu : usesAhead items = true) : c.Unknown := by
  induction items generalizing t
  case nil => cases hu
  case cons item rest ih =>
    rw [usesAhead, Bool.or_eq_true, List.any_eq_true] at hu
    rcases hu with ⟨x, hx, hu⟩ | hu
    · obtain ⟨p, hp, hu⟩ := any_eq_true.mp hu
      rw [Bool.and_eq_true, isNone_iff_eq_none] at hu
      obtain ⟨symbol, hs, hkind, htype⟩ := ha x hx
      refine Checked.Keeps.unknown p.2 (hv.1.admits_evaluated p hp) hu.1 ?_ hkind htype
      simp [Setting.environment, Checked.mainSetting, hu.2, hs]
    · rw [untyped_cons] at ha hn
      refine ih hv.2 (fun name hname => ?_) hn.of_append_right hu
      refine (ha name (mem_append_right _ hname)).settle fun hmem => ?_
      exact disjoint_of_nodup_append hn hmem hname

end Main

section Program

variable {c : Checked} {t : SymbolTable}

theorem Stmt.mem_declarationsIn (hi : item ∈ items) (hd : d ∈ item.declarations) :
    d ∈ declarationsIn items := by
  induction items
  case nil => cases hi
  case cons first rest ih =>
    rw [declarationsIn, mem_append]
    rcases mem_cons.mp hi with rfl | hi
    · exact .inl hd
    · exact .inr (ih hi)

theorem mem_untyped (h : name ∈ untyped items) :
    ∃ loc init, Stmt.variable loc name none init ∈ items := by
  obtain ⟨item, hi, hname⟩ := mem_filterMap.mp h
  cases item <;> try cases hname
  case «variable» loc n type init =>
    cases type <;> cases hname
    exact ⟨loc, init, hi⟩

theorem Accepted.awaits (h : Accepted c t) : ∀ name ∈ untyped c.items, t.Awaits name := by
  intro name hname
  obtain ⟨loc, init, hi⟩ := mem_untyped hname
  have hd : GlobalDeclared t _ := h.declared _ hi
  exact ⟨_, hd.symbol, rfl, rfl⟩

-- Two globals of one name would be declared at the same place.
theorem untyped_nodup (hd : ∀ item ∈ items, item.Declared t)
    (hl : ((declarationsIn items).map (·.loc)).Nodup) : (untyped items).Nodup := by
  induction items
  case nil => exact nodup_nil
  case cons item rest ih =>
    obtain ⟨hdi, hdr⟩ := forall_mem_cons.mp hd
    rw [declarationsIn, map_append] at hl
    rw [untyped_cons]
    refine nodup_append.mpr ⟨?_, ih hdr hl.of_append_right, ?_⟩
    · rw [untyped]
      cases item <;> try exact nodup_nil
      case «variable» loc name type init => cases type <;> simp
    · rintro name hname _ hrest rfl
      obtain ⟨loc, init, hi⟩ := mem_untyped hname
      obtain ⟨loc', init', hi'⟩ := mem_untyped hrest
      cases mem_singleton.mp hi
      have hfirst : GlobalDeclared t _ := hdi
      have hother : GlobalDeclared t _ := hdr _ hi'
      have hloc : loc = loc' := congrArg Symbol.loc
        (Option.some.inj (hfirst.symbol.symm.trans hother.symbol))
      refine disjoint_of_nodup_append hl (a := loc) (by simp [Stmt.declarations]) ?_
      exact List.mem_map.mpr ⟨_, Stmt.mem_declarationsIn hi' (mem_singleton.mpr rfl), hloc.symm⟩

theorem Accepted.unknown (h : Accepted c t) (hu : usesAhead c.items = true) : c.Unknown :=
  h.main.unknown h.awaits (untyped_nodup h.declared h.placed) hu

variable {i : Nat}

-- What classes and the program itself declare has a type, if that holds behind the statements at
-- top level.
theorem Accepted.symbol_typed (h : Accepted c t) (hend : (t.settleAll c c.items).Typed [])
    (hi : i = SymbolTable.global ∨ t.kindOf? i = some .classBody)
    (hs : c.symbols.inScope? i name = some symbol) : symbol.Typed [] i name := by
  obtain ⟨s, hs, hget⟩ := bind_eq_some_iff.mp hs
  rcases hi with rfl | hi
  · rw [h.global] at hs
    exact (hend _ s hs).2 name symbol hget
  · rw [h.settles.members i hi] at hs
    have htyped := (h.collected.typed i s hs).2 name symbol hget
    refine ⟨fun he => ?_, htyped.returns⟩
    rw [(htyped.known he).1, h.orderly.global] at hi
    cases hi

theorem Accepted.type_ne_error (h : Accepted c t) (hend : (t.settleAll c c.items).Typed [])
    (hi : i = SymbolTable.global ∨ t.kindOf? i = some .classBody)
    (hs : c.symbols.inScope? i name = some symbol) : symbol.type ≠ .error :=
  fun he => not_mem_nil ((h.symbol_typed hend hi hs).known he).2

variable {className : Option String}

theorem Accepted.kind_outer (h : Accepted c t) (hi : i ∈ c.symbols.outer className) :
    i = SymbolTable.global ∨ t.kindOf? i = some .classBody := by
  cases className
  case none => exact .inl (mem_singleton.mp hi)
  case some className =>
    rcases mem_append.mp hi with hi | hi
    · rw [classScope?, h.settles.classes, mem_toList] at hi
      exact .inr (h.orderly.classes className i hi)
    · exact .inl (mem_singleton.mp hi)

theorem Accepted.complete (h : Accepted c t) (hend : (t.settleAll c c.items).Typed [])
    (className : Option String) (ht : g.table = c.symbols)
    (ho : g.outer = c.symbols.outer className) : g.Complete where
  returns i hi name symbol hs := by
    rw [ho] at hi
    rw [ht] at hs
    exact (h.symbol_typed hend (h.kind_outer hi) hs).returns
  members owner name symbol hs := by
    rw [ht] at hs
    obtain ⟨i, hi, hs⟩ := bind_eq_some_iff.mp hs
    rw [classScope?, h.settles.classes] at hi
    have hkind : i = SymbolTable.global ∨ t.kindOf? i = some .classBody :=
      .inr (h.orderly.classes owner i hi)
    exact ⟨h.type_ne_error hend hkind hs, (h.symbol_typed hend hkind hs).returns⟩

theorem Accepted.sees (h : Accepted c t) (hend : (t.settleAll c c.items).Typed [])
    (className : Option String) (ht : g.table = c.symbols)
    (ho : g.outer = c.symbols.outer className) (found : List (Names × Expr)) : g.Sees found := by
  intro p _ x _ _ symbol hs
  obtain ⟨i, hi, hs⟩ := exists_of_findSome?_eq_some hs
  rw [ho] at hi
  rw [ht] at hs
  exact h.type_ne_error hend (h.kind_outer hi) hs

theorem typeAt_of_faultless {found : List (Names × Expr)} (hi : ids = found.flatMap (·.2.ids))
    (h : ∀ p ∈ found, c.isFaulty p.2 = false) : ∀ id ∈ ids, c.typeAt id ≠ .error := by
  intro id hid
  rw [hi] at hid
  obtain ⟨p, hp, hid⟩ := mem_flatMap.mp hid
  exact c.typeAt_ne_error p.2 (h p hp) id hid

section

variable (h : Accepted c t)

include h

section

variable (hend : (t.settleAll c c.items).Typed [])

include hend

theorem Accepted.routine_faultless
    {returns : TypeName} (hf : FormedBody Token.IsName body)
    (hv : ValidBody (c.bodySetting className isStatic returns) (.ofParams params) false body) :
    ∀ q ∈ evaluatedIn (.ofParams params) body, c.isFaulty q.2 = false :=
  ValidBody.faultless (g := c.bodySetting className isStatic returns)
    (h.complete hend className rfl rfl) _ false body hf hv (.ofParams c params)
    (h.sees hend className rfl rfl _)

theorem Accepted.routine_known
    (hv : item.ValidRoutine c className) (hf : item.FormedRoutine Token.IsName) :
    ∀ id ∈ item.routineIds, c.typeAt id ≠ .error := by
  cases item <;> try exact hf.elim
  case routine loc name params returns isStatic body =>
  have hbody : FormedBody Token.IsName body := hf.2.2.2
  exact typeAt_of_faultless (evaluatesIn (.ofParams params) body hbody).ids
    (h.routine_faultless hend hbody hv)

theorem Accepted.field_faultless
    {className : String} (hv : ValidField c className f) (hf : f.Formed Token.IsName)
    (hi : f.init = some init) : c.isFaulty init = false := by
  have hn : (⟨[], 0⟩ : Names).Typed c := fun _ _ hb => by cases hb
  have hinit : (c.fieldSetting className).Admits ⟨[], 0⟩ init := hv.admits init hi
  have hformed : FormedOption Token.IsName f.init := hf.2.2.1
  rw [hi] at hformed
  exact hinit.faultless (h.complete hend (some className) rfl rfl) hformed hn
    (h.sees hend (some className) rfl rfl _)

theorem Accepted.field_known
    {className : String} (hv : ValidField c className f) (hf : f.Formed Token.IsName) :
    ∀ id ∈ idsOfField f, c.typeAt id ≠ .error := by
  obtain ⟨name, type, init, isConst, loc⟩ := f
  cases init
  case none => simp [idsOfField, idsOfOption]
  case some init => exact c.typeAt_ne_error init (h.field_faultless hend hv hf rfl)

theorem Accepted.class_known
    (hv : item.ValidClass c) (hf : item.FormedItem Token.IsName) :
    ∀ id ∈ item.classIds, c.typeAt id ≠ .error := by
  cases item <;> try exact fun _ hid => absurd hid not_mem_nil
  case classDef loc name fields methods =>
  rw [Stmt.classIds, idsIn_eq_routineIds hf.2.2, forall_mem_append]
  refine ⟨?_, fun id hid => ?_⟩
  · have hfields := hv.1
    have hformed := hf.2.1
    clear hv hf
    induction fields
    case nil => simp [idsOfFields]
    case cons f fields ih =>
      obtain ⟨hvf, hvr⟩ := forall_mem_cons.mp hfields
      obtain ⟨hff, hfr⟩ := forall_mem_cons.mp hformed
      rw [idsOfFields, forall_mem_append]
      exact ⟨h.field_known hend hvf hff, ih hvr hfr⟩
  · obtain ⟨m, hm, hid⟩ := mem_flatMap.mp hid
    exact h.routine_known hend (hv.2 m hm) (hf.2.2 m hm) id hid

end

end

theorem Stmt.mainEvaluates (hf : item.FormedItem Token.IsName) :
    Evaluates Token.IsName item.mainIds (item.evaluated .empty) := by
  cases item
  case classDef | routine => exact .nil
  all_goals exact Stmt.evaluates .empty _ hf

theorem Accepted.class_ne_global (h : Accepted c t) (name : String) (i : Nat)
    (hi : t.classes[name]? = some i) : i ≠ SymbolTable.global := by
  rintro rfl
  cases h.orderly.global.symm.trans (h.orderly.classes name _ hi)

-- Without uses ahead, every expression of an accepted program has a type.
theorem Accepted.known (h : Accepted c t) (hu : usesAhead c.items = false) :
    ¬c.Unknown ∧ (t.settleAll c c.items).Typed [] := by
  obtain ⟨hmain, hend⟩ := h.main.faultless h.formed h.collected.typed h.class_ne_global hu
  refine ⟨?_, hend⟩
  rintro ⟨id, htype⟩
  have hid : id ∈ idsIn c.items := by
    by_contra hid
    rw [h.recorded id hid] at htype
    cases htype
  have herror := Checked.typeAt_of_types htype
  rw [(idsIn_perm c.items).mem_iff, mem_append, mem_append] at hid
  rcases hid with (hid | hid) | hid <;> obtain ⟨item, hi, hid⟩ := mem_flatMap.mp hid
  · exact typeAt_of_faultless (Stmt.mainEvaluates (h.formed item hi)).ids (hmain item hi) id hid
      herror
  · exact h.class_known hend (h.classes item hi) (h.formed item hi) id hid herror
  · cases item <;> try exact absurd hid not_mem_nil
    case routine => exact h.routine_known hend (h.routines _ hi) (h.formed _ hi).2 id hid herror

-- Where every expression has a type, so has every symbol.
theorem Accepted.end_typed (h : Accepted c t) (hk : ¬c.Unknown) :
    usesAhead c.items = false ∧ (t.settleAll c c.items).Typed [] := by
  have hu : usesAhead c.items = false := by
    rw [← Bool.not_eq_true]
    exact fun hu => hk (h.unknown hu)
  exact ⟨hu, (h.known hu).2⟩

end Program

-- Everything that the check finds a type for, and everything that it lists, has one.
structure Checked.FullyTyped (c : Checked) : Prop where
  types   : ∀ (id : Nat) (type : Ty), c.types[id]? = some type → type ≠ .error
  symbols : ∀ s ∈ c.symbols.scopes, ∀ symbol ∈ s.symbols ++ s.retired, symbol.type ≠ .error

theorem Accepted.fullyTyped (h : Accepted c t) (hu : usesAhead c.items = false) : c.FullyTyped := by
  obtain ⟨hknown, hend⟩ := h.known hu
  refine ⟨?_, fun s hs symbol hmem he => ?_⟩
  · rintro id type htype rfl
    exact hknown ⟨id, htype⟩
  · obtain ⟨i, hi⟩ := Array.mem_iff_getElem?.mp hs
    by_cases hglobal : i = SymbolTable.global
    case neg => exact hknown (h.settled i s hi hglobal symbol hmem he)
    case pos =>
      rw [hglobal, h.global] at hi
      obtain ⟨hended, hall⟩ := hend _ s hi
      rw [Scope.retired, hended, reverse_nil, append_nil] at hmem
      obtain ⟨name, -, hget⟩ := mem_filterMap.mp hmem
      exact not_mem_nil ((hall name symbol hget).known he).2

-- A program that passes the check has all its types, just if no statement at top level uses a
-- global ahead of the value that gives it a type.
theorem Checked.fullyTyped_iff (source : String)
    (hs : (ofItems (Parsed.ofSource source).items).isSound) :
    (ofItems (Parsed.ofSource source).items).FullyTyped ↔
      usesAhead (Parsed.ofSource source).items = false := by
  have h := accepted_ofSource source hs
  refine ⟨fun htyped => ?_, h.fullyTyped⟩
  cases hu : usesAhead (Parsed.ofSource source).items
  case false => rfl
  case true =>
    obtain ⟨id, htype⟩ := h.unknown hu
    exact absurd rfl (htyped.types id .error htype)

theorem Checked.fullyTyped_iff_behind :
    (ofItems (Parsed.ofSource "var a = 1; int f() { return b; } var b = a + f();").items).isSound ∧
      (ofItems (Parsed.ofSource
        "var a = 1; int f() { return b; } var b = a + f();").items).FullyTyped :=
  ⟨by decide +kernel, (fullyTyped_iff _ (by decide +kernel)).mpr (by decide +kernel)⟩

-- Nothing is reported, but neither the value `b` nor the global `a` has a type.
theorem Checked.not_fullyTyped_ahead :
    (Parsed.ofSource "var a = b; var b = 1;").isClean ∧
      (ofItems (Parsed.ofSource "var a = b; var b = 1;").items).isSound ∧
      (ofItems (Parsed.ofSource "var a = b; var b = 1;").items).types[0]? = some .error ∧
      ¬(ofItems (Parsed.ofSource "var a = b; var b = 1;").items).FullyTyped := by
  have htype : (ofItems (Parsed.ofSource "var a = b; var b = 1;").items).types[0]? =
      some .error := by
    decide +kernel
  exact ⟨by decide +kernel, by decide +kernel, htype, fun h => h.types 0 .error htype rfl⟩

end Lumen
