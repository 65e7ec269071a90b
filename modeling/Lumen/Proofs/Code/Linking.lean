import Lumen.Proofs.Code.References
import Lumen.Proofs.Code.Resolution
import Lumen.Proofs.Typing.Provenance

namespace Lumen

open Typing SymbolTable Analysis
open List hiding count
open Option

def Stmt.className? : Stmt → Option String
  | .classDef _ name _ _ => some name
  | _ => none

theorem Typing.Analysis.Sound.classNames {a : Analysis} (hl : list ⊆ items) (h : a.Collected items)
    (hs : (list.foldl classStep (a, done)).1.Sound) :
    (list.filterMap Stmt.className?).Nodup ∧ ∀ name ∈ list.filterMap Stmt.className?,
      a.table.inScope? global name = none := by
  induction list generalizing a done
  case nil => simp
  case cons item list ih =>
    obtain ⟨hi, hrest⟩ := cons_subset.mp hl
    rw [foldl_cons] at hs
    cases item <;> try exact ih hrest h hs
    case classDef loc name fields methods =>
      obtain ⟨hdeclares, -⟩ := declares_declareClass hi h
      have hlater := hdeclares.collected h
      obtain ⟨-, -, hsteps, -⟩ := declares_classSteps hrest
        ((a.declareClass name loc).2 :: done) hlater
      have hfirst := hsteps.sound hs
      obtain ⟨-, hdeclared, -⟩ := Sound.of_declareClass h hfirst
      obtain ⟨hnodup, hfree⟩ := ih hrest hlater hs
      have hname : a.table.inScope? global name = none := by
        cases hold : a.table.inScope? global name
        case none => rfl
        case some symbol =>
          simp only [declareClass, hold] at hfirst
          exact absurd hfirst (Sound.not_report (by simp [Cause.kind]))
      have hkept (n : String) (hn : n ∈ list.filterMap Stmt.className?) :
          a.table.inScope? global n = none := by
        cases hold : a.table.inScope? global n
        case none => rfl
        case some symbol =>
          cases (hdeclares.lasts.symbols _ _ _ hold).symm.trans (hfree n hn)
      simp only [filterMap_cons, Stmt.className?, nodup_cons, forall_mem_cons]
      refine ⟨⟨fun hmem => ?_, hnodup⟩, hname, hkept⟩
      cases hdeclared.symbol.symm.trans (hfree name hmem)

namespace Code

variable {name : String}

section Means

variable {c : Checked} {t : SymbolTable}

variable {signature : Signature} {symbol : Symbol}

theorem callable_member (h : Accepted c t) (hs : c.symbols.member? className name = some symbol)
    (hk : symbol.kind = .routine signature) : Callable c (fullName (some className) name)
      (signature.params.length + if signature.isStatic then 0 else 1) := by
  rw [h.member?_eq] at hs
  have hs : t.declared? (some className) name = some symbol := hs
  rcases h.collected.routine hs hk with ⟨hnone, -⟩ | ⟨-, -, params, returns, body, hlength, hd⟩
  · cases hnone
  · have hcall : Callable c (fullName (some className) name) _ := .routine hd
    rw [hlength]
    cases hstatic : signature.isStatic <;> simpa [hstatic] using hcall

theorem callable_global (h : Accepted c t) (hset : t.Settles t')
    (hs : t'.inScope? global name = some symbol) (hk : symbol.kind = .routine signature) :
    Callable c name signature.params.length := by
  obtain ⟨old, hold, heq⟩ := hset.origin hs
  rw [heq] at hk
  have hold : t.declared? none name = some old := hold
  rcases h.collected.routine hold hk with
    ⟨-, hname, hbuiltIn, -⟩ | ⟨-, -, params, returns, body, hlength, hd⟩
  · cases hk.symm.trans hbuiltIn
    exact .builtIn hname
  · have hcall : Callable c (fullName none name) _ := .routine hd
    rw [hlength]
    simpa [fullName] using hcall

theorem field_defined (h : Accepted c t) (hs : c.symbols.member? className name = some symbol)
    (hk : symbol.kind = .field) : DefinesField c className name := by
  rw [h.member?_eq] at hs
  exact h.collected.field hs hk

namespace Inside

variable {className : Option String} {env : Environment}

section

variable (h : Accepted c t)

include h

section

variable (hin : Inside c t className env)

include hin

theorem member?_eq :
    env.member? = c.symbols.member? := by
  obtain ⟨g, names, -, hset, -, -, rfl⟩ := hin
  rw [h.member?_eq]
  exact member?_congr hset.classes fun n i hi =>
    hset.members i (h.orderly.classes n i hi)

theorem symbol_cases
    (hs : env.symbol? name = some symbol)
    (hk : (∃ signature, symbol.kind = .routine signature) ∨ symbol.home = .global) :
    (className.bind (c.symbols.member? · name) = some symbol ∧ symbol.home = .classBody) ∨
    (className.bind (c.symbols.member? · name) = none ∧
      ∃ t', t.Settles t' ∧ t'.inScope? global name = some symbol) := by
  obtain ⟨g, names, -, hset, houter, hhome, rfl⟩ := hin
  cases hb : names.find? name <;> simp only [Setting.environment, hb] at hs
  case some b =>
    cases hs
    rcases hk with ⟨signature, hk⟩ | hk
    · simp only [Binding.symbol] at hk
      split at hk <;> cases hk
    · exact absurd hk (hhome name b hb)
  case none =>
    rw [houter] at hs
    rcases outer_cases_of_settles h hset hs with ⟨-, hmember, hhome, -⟩ | ⟨hmember, hglobal, -⟩
    · exact .inl ⟨hmember, hhome⟩
    · exact .inr ⟨hmember, g.table, hset, hglobal⟩

theorem routine
    (hr : env.routine name = .ok signature) :
    Callable c ((Site.mk c kind className returns).target name).1 (signature.params.length +
      if ((Site.mk c kind className returns).target name).2 then 1 else 0) ∧
    (((Site.mk c kind className returns).target name).2 → env.receiver?.isSome) := by
  obtain ⟨symbol, hs, hk, hreceiver⟩ := Environment.symbol_of_routine hr
  have hsignature : symbol.signature? = some signature := by rw [Symbol.signature?, hk]
  rcases hin.symbol_cases h hs (.inl ⟨signature, hk⟩) with
    ⟨hmember, hhome⟩ | ⟨hmember, t', hset, hglobal⟩
  case inl =>
    obtain ⟨owner, rfl, hfound⟩ := bind_eq_some_iff.mp hmember
    have htarget : (Site.mk c kind (some owner) returns).target name =
        (fullName (some owner) name, !signature.isStatic) := by
      simp only [Site.target, Site.memberHere?, Site.symbols, bind_some, hfound, hsignature]
    rw [htarget]
    refine ⟨?_, fun htakes => hreceiver hhome (by simpa using htakes)⟩
    have hcall := callable_member h hfound hk
    cases hstatic : signature.isStatic <;> simpa [hstatic] using hcall
  case inr =>
    have htarget : (Site.mk c kind className returns).target name = (name, false) := by
      rw [Site.target, Site.memberHere?]
      simp only [Site.symbols, hmember, bind_none]
    rw [htarget]
    exact ⟨by simpa using callable_global h hset hglobal hk, by simp⟩

theorem means
    (kind : Routine.Kind) (returns : Ty) : (Site.mk c kind className returns).Means env where
  routine _ _ hr := hin.routine h hr
  method owner name signature hr := by
    obtain ⟨symbol, hs, hk⟩ := Environment.symbol_of_method hr
    rw [hin.member?_eq h] at hs
    refine ⟨callable_member h hs hk, ?_⟩
    simp only [Site.isStatic, Site.symbols, hs, bind_some, Symbol.signature?, hk,
      any_some]
  created owner hclass := by
    obtain ⟨g, names, -, hset, -, -, rfl⟩ := hin
    have hmem : g.table.isClass owner = true := hclass
    rw [isClass_congr hset.classes] at hmem
    exact h.collected.class_defined hmem
  members := hin.member?_eq h
  field owner name symbol hs hk := field_defined h hs hk
  global name symbol hs hk hhome := by
    rcases hin.symbol_cases h hs (.inr hhome) with ⟨-, hbody⟩ | ⟨-, t', hset, hglobal⟩
    · cases hhome.symm.trans hbody
    · obtain ⟨d, hd, hname, -⟩ := h.global_of_kind hset hglobal hk
      exact ⟨d, hd, hname⟩

end

end

end Inside

end Means

variable {className : Option String} {loc : Location}

section Refers

variable {c : Checked} {t : SymbolTable}

theorem Refer.finished (h : Refer c code) (loc : Location) : Refer c (finished code loc) := by
  rw [Code.finished]
  split
  · exact h
  · simp [h]

theorem Lowered.Sees.admits {r : Lowered} (h : r.Sees look slots e)
    (hm : r.site.Means look.environment) : r.site.Admits slots e :=
  ⟨look.environment, r.given, r.routine.locals, h.knows, hm, h.formed, h.typed, h.known⟩

section

variable (h : Accepted c t)

include h

theorem main_refers (hu : usesAhead c.items = false)
    (hend : (t.settleAll c c.items).Typed [])
    (hgiven : ∀ a ∈ (loweredMain c).given, a.slot.isSome) :
    Refer c (loweredMain c).routine.code := by
  set r := loweredMain c
  have hroutine : r.routine = _ := mainCode_eq c
  rw [Routine.ofBody_eq] at hroutine
  have hadmissible : ∀ p ∈ r.pieces, p.Admissible r.site := by
    refine fun p hp => ⟨fun q hq => ?_, fun a ha => hgiven a (Lowered.given_of_piece hp ha)⟩
    obtain ⟨look, -, hsee, hin⟩ := main_sees_all h hu hend hgiven p hp q hq
    exact hsee.admits (hin.means h _ _)
  rw [hroutine]
  exact (Site.stmts_refers _ none _ _ hadmissible).finished .none

theorem routine_refers (hend : (t.settleAll c c.items).Typed [])
    {returns : TypeName} (hd : Defined c t className loc name params returns isStatic body)
    (hr : r ∈ loweredRoutine? c className (.routine loc name params returns isStatic body))
    (hgiven : ∀ a ∈ r.given, a.slot.isSome) : Refer c r.routine.code := by
  have hsees := routine_sees h hend hd hr hgiven
  obtain ⟨hdeclared, hf, hc, hv, hlooks⟩ := hd
  rw [loweredRoutine?_eq h body hdeclared hf.1 hc] at hr
  cases hr
  set r := loweredBody c className params isStatic body _ _
  have hadmissible : ∀ p ∈ r.pieces, p.Admissible r.site := by
    refine fun p hp => ⟨fun q hq => ?_, fun a ha => hgiven a (Lowered.given_of_piece hp ha)⟩
    obtain ⟨look, -, hsee, hin⟩ := hsees p hp q hq
    exact hsee.admits (hin.means h _ _)
  have hroutine : r.routine = Routine.ofBody _ _ _ _ _ loc := rfl
  rw [hroutine, Routine.ofBody_eq]
  exact (Site.stmts_refers _ none _ _ hadmissible).finished loc

theorem constructor_refers (hend : (t.settleAll c c.items).Typed [])
    (hi : .classDef loc name fields methods ∈ c.items) :
    Refer c (loweredConstructor c name fields loc).routine.code := by
  have hroutine : (loweredConstructor c name fields loc).routine =
      constructorCode c name fields loc := rfl
  rw [hroutine, constructorCode_eq, Routine.ofBody_eq]
  refine Refer.finished (fun i hcode => ?_) loc
  obtain ⟨f, hmem, hcode⟩ := mem_flatMap.mp hcode
  have hfield : DefinesField c name f.name := ⟨loc, fields, methods, hi, f, hmem, rfl⟩
  rw [fieldCode] at hcode
  split at hcode
  case h_1 => cases hcode
  case h_2 init hinit =>
    split at hcode
    case isTrue => cases hcode
    case isFalse =>
      obtain ⟨look, -, hsee, hin⟩ := constructor_sees h hend hi hmem hinit
      have hvalue := (hsee.admits (hin.means h _ _)).refers
      have hself : ((constructorSite c name).receiver (.ofReceiver (some name)) f.loc).Refers c :=
        Instruction.refers_slot (.inl rfl) _ _ _ _
      refine Refer.append_iff.mpr ⟨Refer.cons_iff.mpr ⟨hself, hvalue⟩, ?_⟩ i hcode
      simp [Instruction.refers_field hfield]

theorem refers_all (hk : ¬c.Unknown)
    (hgiven : ∀ r ∈ lowered c, ∀ a ∈ r.given, a.slot.isSome) :
    ∀ r ∈ routines c, Refer c r.code := by
  obtain ⟨hu, hend⟩ := h.end_typed hk
  rw [← routine_lowered c, List.forall_mem_map]
  intro r hr
  have hsome := hgiven r hr
  rcases mem_lowered hr with rfl | ⟨loc, name, fields, methods, hi, rfl⟩ | ⟨className, item, hd, hr⟩
  · exact main_refers h hu hend hsome
  · exact constructor_refers h hend hi
  · cases item <;> try cases hr
    case routine => exact routine_refers h hend (h.defined hd) hr hsome

end

end Refers

variable {item : Stmt}

section Names

variable {c : Checked} {t : SymbolTable}

section

variable (h : Accepted c t)

include h

theorem name_routineCode? (hd : c.Defines className item) :
    (routineCode? c className item).map (·.name) = item.routineName? className := by
  cases item <;> try rfl
  case routine loc name params returns isStatic body =>
    obtain ⟨hdeclared, hf, hc, -⟩ := h.defined hd
    rw [routineCode?_eq h body hdeclared hf.1 hc]
    rfl

theorem names_classCode (hi : item ∈ c.items) :
    (classCode c item).map (·.name) =
      (item.className?.map fun name => fullName (some name) constructorName).toList ++
        item.methodNames := by
  cases item <;> try rfl
  case classDef loc name fields methods =>
    rw [classCode_eq h fields methods (h.declared _ hi).1 (h.formed _ hi).1, map_cons,
      map_filterMap]
    refine congrArg₂ _ rfl (filterMap_congr fun m hm => ?_)
    exact name_routineCode? h ⟨loc, fields, methods, hi, hm⟩

theorem lt_notMem_routineNames :
    ∀ name ∈ c.items.flatMap Stmt.routineNames, '<' ∉ name.toList := by
  intro q hq
  obtain ⟨item, hi, hq⟩ := mem_flatMap.mp hq
  have hf := h.formed item hi
  cases item <;> simp only [Stmt.routineNames, Stmt.routineName?, Option.toList, not_mem_nil] at hq
  case routine loc name params returns isStatic body =>
    cases mem_singleton.mp hq
    exact hf.2.1.lt_notMem
  case classDef loc owner fields methods =>
    obtain ⟨m, hm, hq⟩ := mem_filterMap.mp hq
    have hfm := hf.2.2 m hm
    cases m <;> cases hq
    case routine loc name params returns isStatic body =>
      rw [toList_fullName, mem_append, mem_cons]
      rintro (hlt | hlt | hlt)
      · exact hf.1.lt_notMem hlt
      · simp at hlt
      · exact hfm.1.lt_notMem hlt

theorem names_perm :
    ((routines c).map (·.name)).Perm (toplevelName ::
      ((c.items.filterMap Stmt.className?).map (fun name => fullName (some name) constructorName) ++
        c.items.flatMap Stmt.routineNames)) := by
  have hclasses : (c.items.flatMap (classCode c)).map (·.name) = c.items.flatMap fun item =>
      (item.className?.map fun name => fullName (some name) constructorName).toList ++
        item.methodNames := by
    rw [map_flatMap]
    exact flatMap_congr fun item hi => names_classCode h hi
  have hroutines : (c.items.filterMap (routineCode? c none)).map (·.name) =
      c.items.filterMap (·.routineName? none) := by
    rw [map_filterMap]
    exact filterMap_congr fun item hi => name_routineCode? h hi
  have hconstructors : (c.items.filterMap Stmt.className?).map
      (fun name => fullName (some name) constructorName) = c.items.flatMap fun item =>
        (item.className?.map fun name => fullName (some name) constructorName).toList := by
    rw [map_filterMap, filterMap_eq_flatMap_toList]
  rw [routines, cons_append, map_cons, map_append, hclasses, hroutines,
    hconstructors]
  refine .cons _ (((flatMap_append_perm c.items _ _).symm.append_right _).trans ?_)
  rw [append_assoc]
  exact (perm_append_comm.trans (routineNames_perm c.items).symm).append_left _

theorem names_nodup (hr : (c.items.flatMap Stmt.routineNames).Nodup)
    (hc : (c.items.filterMap Stmt.className?).Nodup) : ((routines c).map (·.name)).Nodup := by
  have hlt := lt_notMem_routineNames h
  have hdot : ∀ name ∈ c.items.filterMap Stmt.className?, '.' ∉ name.toList := by
    intro name hn
    obtain ⟨item, hi, hn⟩ := mem_filterMap.mp hn
    have hf := h.formed item hi
    cases item <;> cases hn
    exact hf.1.dot_notMem
  rw [(names_perm h).nodup_iff, nodup_cons, nodup_append', mem_append, not_or]
  refine ⟨⟨?_, fun hmem => hlt _ hmem (by decide)⟩, ?_, hr, ?_⟩
  · -- The name of a constructor has a point.
    intro hmem
    obtain ⟨name, -, heq⟩ := List.mem_map.mp hmem
    have hpoint : '.' ∈ toplevelName.toList := by
      rw [← heq, toList_fullName]
      simp
    exact absurd hpoint (by decide)
  · refine hc.map_on fun a ha b hb heq => ?_
    have hinj := fullName_inj (by decide) (by decide) (fun o ho => ?_) (fun o ho => ?_) heq
    · exact Option.some.inj hinj.1
    · cases ho
      exact hdot a ha
    · cases ho
      exact hdot b hb
  · intro q hq hq'
    obtain ⟨name, -, rfl⟩ := List.mem_map.mp hq
    refine hlt _ hq' ?_
    rw [toList_fullName]
    exact mem_append_right _ (mem_cons_of_mem _ (by decide))

end

-- If nothing is reported, no routine and no class has been defined twice.
theorem definitions_nodup (hf : ∀ item ∈ items, item.FormedItem Token.IsName)
    (hs : (Checked.ofItems items).isSound) : (items.flatMap Stmt.routineNames).Nodup ∧
      (items.filterMap Stmt.className?).Nodup := by
  have hdeclared := Checked.sound_declareItems ((Checked.isSound_ofItems items).mp hs)
  refine ⟨(Sound.of_declareItems hf hdeclared).nodup, ?_⟩
  exact (Sound.classNames (List.Subset.refl items)
    (declares_builtIns.collected Collected.empty)
    ((declares_items items).sound hdeclared)).1

end Names

def Made (c : Checked) (r : Routine) (params : List Param) : Prop :=
  ∃ className loc name returns isStatic body,
    c.Defines className (.routine loc name params returns isStatic body) ∧
      routineCode? c className (.routine loc name params returns isStatic body) = some r

structure Instruction.Links (c : Checked) (rs : List Routine) (i : Instruction) : Prop where
  call      : i.opcode = .call → ∃ target count, i.operand = some (.call target count) ∧
    (target ∈ builtIns ∧ count = 1 ∨ ∃ r params, rs.filter (·.name = target) = [r] ∧
      Made c r params ∧ count = params.length + if r.isInstance then 1 else 0)
  construct : i.opcode = .construct → ∃ target count, i.operand = some (.call target count) ∧
    ∃ r ∈ rs, r.name = target ∧ r.kind = .constructor
  field     : i.opcode = .getField ∨ i.opcode = .putField → ∃ className name,
    i.operand = some (.symbol (fullName (some className) name)) ∧ DefinesField c className name
  access    : i.opcode = .load ∨ i.opcode = .store → i.slot = none →
    ∃ d ∈ c.globals, i.operand = some (.symbol d.name)

section Links

variable {c : Checked} {t : SymbolTable}

theorem filter_name_eq {rs : List Routine} (h : (rs.map (·.name)).Nodup) (hr : r ∈ rs) :
    rs.filter (·.name = r.name) = [r] := by
  induction rs
  case nil => cases hr
  case cons first rs ih =>
    rw [map_cons, nodup_cons] at h
    rcases mem_cons.mp hr with rfl | hr
    case inl =>
      have hrest : rs.filter (·.name = r.name) = [] := by
        refine filter_eq_nil_iff.mpr fun other hother => ?_
        simpa using fun heq => h.1 (List.mem_map.mpr ⟨other, hother, heq⟩)
      simp [hrest]
    case inr =>
      have hne : first.name ≠ r.name := fun heq => h.1 (List.mem_map.mpr ⟨r, hr, heq.symm⟩)
      rw [filter_cons_of_neg (by simpa using hne)]
      exact ih h.2 hr

section

variable (h : Accepted c t)

include h

theorem mem_routines (hd : c.Defines className item) (hr : routineCode? c className item = some r) :
    r ∈ routines c := by
  rw [← routine_loweredRoutine?, map_eq_some_iff] at hr
  obtain ⟨r, hr, rfl⟩ := hr
  exact routine_lowered c ▸ mem_map_of_mem (lowered_mem h hd hr)

theorem constructor_mem_routines
    (hi : .classDef loc name fields methods ∈ c.items) :
    constructorCode c name fields loc ∈ routines c := by
  refine mem_append_left _ (mem_cons_of_mem _ (mem_flatMap.mpr ⟨_, hi, ?_⟩))
  rw [classCode_eq h fields methods (h.declared _ hi).1 (h.formed _ hi).1]
  exact mem_cons_self

theorem Callable.found (hn : ((routines c).map (·.name)).Nodup)
    (hc : Callable c target count) :
    target ∈ builtIns ∧ count = 1 ∨ ∃ r params, (routines c).filter (·.name = target) = [r] ∧
      Made c r params ∧ count = params.length + if r.isInstance then 1 else 0 := by
  cases hc
  case builtIn hmem => exact .inl ⟨hmem, rfl⟩
  case routine className loc name params returns isStatic body hd =>
    obtain ⟨hdeclared, hf, hclass, -⟩ := h.defined hd
    have hr := routineCode?_eq h body hdeclared hf.1 hclass
    exact .inr ⟨_, params, filter_name_eq hn (mem_routines h hd hr),
      ⟨className, loc, name, returns, isStatic, body, hd, hr⟩, rfl⟩

theorem Instruction.Refers.linked (hn : ((routines c).map (·.name)).Nodup)
    {i : Instruction} (hi : i.Refers c) : i.Links c (routines c) where
  call ho := by
    obtain ⟨target, count, hoperand, hcall⟩ := hi.call ho
    exact ⟨target, count, hoperand, hcall.found h hn⟩
  construct ho := by
    obtain ⟨className, count, ⟨loc, fields, methods, hmem⟩, hoperand⟩ := hi.construct ho
    exact ⟨_, count, hoperand, _, constructor_mem_routines h hmem, rfl, rfl⟩
  field ho := by
    obtain ⟨className, name, hfield, hoperand⟩ := hi.field ho
    exact ⟨className, name, hoperand, hfield⟩
  access := hi.access

end

end Links

end Code

-- In an accepted program in which every expression has a type and every declaration a slot, no two
-- routines have the same name, and all that an instruction names can be found.
theorem Compilation.links {source : String} {c : Compilation}
    (h : ofSource .strict source = .ok c) (hk : ¬c.checked.Unknown)
    (hs : ∀ r ∈ Code.lowered c.checked, ∀ a ∈ r.given, a.slot.isSome) :
    (c.routines.map (·.name)).Nodup ∧
      ∀ r ∈ c.routines, ∀ i ∈ r.code, i.Links c.checked c.routines := by
  obtain ⟨hchecked, hsound, hroutines⟩ := ofSource_strict h
  rw [hroutines]
  have hformed := Parsed.ofTokens_formed _ (Lexed.ofSource_isName source)
  set items := (Parsed.ofSource source).items
  obtain ⟨haccepted, hnodup⟩ : Accepted c.checked (declareItems items).table ∧
      (c.checked.items.flatMap Stmt.routineNames).Nodup ∧
      (c.checked.items.filterMap Stmt.className?).Nodup := by
    rw [hchecked] at hsound ⊢
    exact ⟨Checked.accepted_ofSource source hsound,
      Code.definitions_nodup hformed hsound⟩
  have hnames := Code.names_nodup haccepted hnodup.1 hnodup.2
  exact ⟨hnames, fun r hr i hi =>
    (Code.refers_all haccepted hk hs r hr i hi).linked haccepted hnames⟩

-- A method and a routine call each other, an object is made, a field and a global are used.
theorem Compilation.links_calls :
    ∃ c, ofSource .strict
        ("int g = 1; class A \x7b int n = 2; int f(int p) \x7b return n + h(this); \x7d \x7d " ++
          "int h(A a) \x7b g = a.f(g); println(g); return g; \x7d h(new A());") = .ok c ∧
      ¬c.checked.Unknown ∧ (∀ r ∈ Code.lowered c.checked, ∀ a ∈ r.given, a.slot.isSome) ∧
        (c.routines.map (·.name)).Nodup ∧
          ∀ r ∈ c.routines, ∀ i ∈ r.code, i.Links c.checked c.routines :=
  exists_known (by decide +kernel) fun _ hc hk hs => links hc hk hs

end Lumen
