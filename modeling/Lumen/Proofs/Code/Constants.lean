import Lumen.Proofs.Code.Targets
import Lumen.Proofs.Code.Writes

namespace Lumen

open Typing List Option SymbolTable

theorem Checked.type_of_object {c : Checked} (h : c.typeOf e = .object className) :
    ∃ id, e.id? = some id ∧ c.types[id]? = some (.object className) := by
  rw [typeOf] at h
  split at h
  case h_2 => cases h
  case h_1 id hid =>
    refine ⟨id, hid, ?_⟩
    rw [typeAt] at h
    cases ht : c.types[id]? <;> rw [ht] at h
    case none => cases h
    case some type => exact congrArg some h

theorem Stmt.declarations_sublist {items : Items} (h : item ∈ items) :
    item.declarations.Sublist (declarationsIn items) := by
  induction items
  case nil => cases h
  case cons first items ih =>
    rw [declarationsIn]
    rcases mem_cons.mp h with rfl | h
    · exact sublist_append_left _ _
    · exact (ih h).trans (sublist_append_right _ _)

theorem declarationsIn_filter (items : Items) (p : Stmt → Bool) :
    (declarationsIn (items.filter p)).Sublist (declarationsIn items) := by
  induction items
  case nil => exact List.Sublist.refl _
  case cons item items ih =>
    cases hp : p item
    case false =>
      rw [filter_cons_of_neg (by simp [hp])]
      exact ih.trans (sublist_append_right _ _)
    case true =>
      rw [filter_cons_of_pos hp]
      exact (List.Sublist.refl _).append ih

theorem Checked.Defines.declarations_sublist {c : Checked} {className : Option String}
    (h : c.Defines className item) : item.declarations.Sublist (declarationsIn c.items) := by
  cases className
  case none => exact Stmt.declarations_sublist h
  case some owner =>
    obtain ⟨loc, fields, methods, hi, hm⟩ := h
    exact (Stmt.declarations_sublist hm).trans (Stmt.declarations_sublist hi)

namespace Code

theorem Inside.member_of_field (h : Accepted c t) (hin : Inside c t className env)
    (hs : env.symbol? name = some symbol) (hk : symbol.kind = .field) :
    symbol.name = name ∧ className.bind (c.symbols.member? · name) = some symbol := by
  obtain ⟨g, names, -, hset, houter, -, rfl⟩ := hin
  cases hb : names.find? name <;> simp only [Setting.environment, hb] at hs
  case some b =>
    cases hs
    simp only [Binding.symbol] at hk
    split at hk <;> cases hk
  case none =>
    rw [houter] at hs
    rcases outer_cases_of_settles h hset hs with ⟨hname, hmember, -⟩ | ⟨-, -, -, hsuits⟩
    · exact ⟨hname, hmember⟩
    · rw [hk] at hsuits
      cases hsuits

namespace Lowered.Changes

variable {r : Lowered} {c : Checked} {t : SymbolTable} {slots : Slots} {look : Lookup} {m : Mark}
  {name : String}

theorem symbol (ht : r.Changes c t slots (.variable m name) look) :
    ∃ symbol, look.environment.symbol? name = some symbol ∧ symbol.hasValue ∧
      symbol.isConst = false ∧
      Stored r.site r.given r.routine.locals symbol (r.site.storage slots name) := by
  have hne := r.site.program.typeAt_ne_error _ ht.sees.known m.id (by simp [Expr.ids])
  obtain ⟨-, symbol, hs, -, hstored⟩ := ht.sees.knows.finds ht.sees.formed ht.sees.typed hne
  obtain ⟨symbol', hs', hvalue, -⟩ := symbol_of_variableType ht.sees.typed
  cases hs.symm.trans hs'
  have hmutable := ht.mutable
  simp only [constantTarget?, hs, map_eq_none_iff, filter_eq_none_iff] at hmutable
  exact ⟨symbol, hs, hvalue, by simpa using hmutable, hstored⟩

theorem slot (h : Accepted c t) (ht : r.Changes c t slots (.variable m name) look)
    (hsite : r.site.program = c) (hn : r.site.storage slots name = .slot n) :
    ∃ a ∈ r.given, a.slot = some n ∧
      ∃ d ∈ declarationsIn c.items, d.loc = a.loc ∧ d.isConst = false := by
  obtain ⟨symbol, hs, hvalue, hconst, hstored⟩ := ht.symbol
  rw [hn] at hstored
  have hkind : symbol.kind = .parameter ∨ symbol.kind = .variable := by
    cases hk : symbol.kind <;> simp only [Symbol.hasValue, hk, Bool.false_eq_true] at hvalue
    case «variable» => exact .inr rfl
    case parameter => exact .inl rfl
    case field =>
      obtain ⟨hname, hmember⟩ := ht.inside.member_of_field h hs hk
      obtain ⟨owner, hclass, hfound⟩ := bind_eq_some_iff.mp hmember
      rw [← hname, ← hsite] at hfound
      cases (hstored.field owner).mpr ⟨hclass, hk, hfound⟩
  have hlocal : symbol.kind = .parameter ∨
      symbol.kind = .variable ∧ (symbol.home ≠ .global ∨ r.site.kind = .toplevel) := by
    refine hkind.imp_right fun hk => ⟨hk, ?_⟩
    by_contra hno
    rw [not_or, not_not] at hno
    cases hstored.global.mpr ⟨hk, hno⟩
  obtain ⟨n', hslot, hgiven, -⟩ := hstored.slot hlocal
  cases hslot
  obtain ⟨d, hd, hloc, hsame⟩ := ht.faithful name symbol hs hkind
  exact ⟨_, hgiven, rfl, d, hd, hloc, hsame.trans hconst⟩

theorem global (h : Accepted c t) (ht : r.Changes c t slots (.variable m name) look)
    (hg : r.site.storage slots name = .global) : ∀ d ∈ c.globals, d.isConst → d.name ≠ name := by
  obtain ⟨symbol, hs, -, hconst, hstored⟩ := ht.symbol
  rw [hg] at hstored
  obtain ⟨hkind, hhome, -⟩ := hstored.global.mp rfl
  rintro d hd hd' rfl
  rcases ht.inside.symbol_cases h hs (.inr hhome) with ⟨-, hbody⟩ | ⟨-, t', hset, hglobal⟩
  · cases hhome.symm.trans hbody
  · obtain ⟨type, hfound, -⟩ := hset.written (h.globalDeclared hd)
    cases hglobal.symm.trans hfound
    cases hd'.symm.trans hconst

theorem field (h : Accepted c t) (ht : r.Changes c t slots target look) (hsite : r.site.program = c)
    (hd : r.site.destination? slots target = some (.field className, name)) :
    ∃ symbol, c.symbols.member? className name = some symbol ∧ symbol.kind = .field ∧
      symbol.isConst = false := by
  cases target <;> simp only [Site.destination?, reduceCtorEq] at hd
  case «variable» m _ =>
    obtain ⟨hstorage, rfl⟩ := Prod.mk.inj (Option.some.inj hd)
    obtain ⟨symbol, hs, -, hconst, hstored⟩ := ht.symbol
    rw [hstorage] at hstored
    obtain ⟨-, hkind, hmember⟩ := (hstored.field className).mp rfl
    rw [(ht.inside.member_of_field h hs hkind).1, Site.symbols, hsite] at hmember
    exact ⟨symbol, hmember, hkind, hconst⟩
  case member m object _ =>
    obtain ⟨-, owner, symbol, hclass, hmember, hkind, -⟩ := ht.sees.typed
    rw [hclass] at hd
    obtain ⟨howner, rfl⟩ := Prod.mk.inj (Option.some.inj hd)
    cases howner
    rw [hsite] at hclass
    obtain ⟨id, hid, htype⟩ := Checked.type_of_object hclass
    have hmutable := ht.mutable
    simp only [constantTarget?, hid, htype, bind_eq_bind, bind_some, Ty.className?,
      hmember, map_eq_none_iff, filter_eq_none_iff] at hmutable
    rw [ht.inside.member?_eq h] at hmember
    exact ⟨symbol, hmember, hkind, by simpa using hmutable⟩

end Lowered.Changes

structure Lowered.Accounts (r : Lowered) (c : Checked) (t : SymbolTable) : Prop where
  program : r.site.program = c
  placed  : Placed r.site r.routine.code r.pieces
  written : Written r.routine.code r.pieces
  given   : ∀ a ∈ r.given, a.slot.isSome
  apart   : ∀ a ∈ r.given, ∀ b ∈ r.given, ∀ n, a.slot = some n → b.slot = some n → a = b
  once    : (r.pieces.filterMap Piece.declaration?).Subperm (declarationsIn c.items)
  changes : ∀ p ∈ r.pieces, ∀ loc target op value, p.stmt = .assign loc target op value →
    ∃ look, r.Changes c t p.frame.slots target look

namespace Lowered.Accounts

variable {r : Lowered} {c : Checked} {t : SymbolTable} {p p' : Piece} {d d' : Declaration}

section

variable (ha : r.Accounts c t)

include ha

theorem eq_of_loc (h : Accepted c t) (hp : p ∈ r.pieces) (hp' : p' ∈ r.pieces)
    (hd : p.declaration? = some d) (hd' : p'.declaration? = some d') (hloc : d.loc = d'.loc) :
    p = p' := by
  obtain ⟨ds, hperm, hsub⟩ := ha.once
  exact Piece.eq_of_loc ((hperm.map _).nodup_iff.mp (h.placed.sublist (hsub.map _))) hp hp' hd hd'
    hloc

theorem getElem?_of_last (hp : p ∈ r.pieces) (hi : p.code.getLast? = some i)
    (hk : k + 1 = (p.before ++ p.code).length) : r.routine.code[k]? = some i := by
  obtain ⟨rest, hrest⟩ := (ha.placed p hp).2
  have hlast : (p.before ++ p.code).getLast? = some i := by simp [getLast?_append, hi]
  rw [getLast?_eq_getElem?, ← hk, Nat.add_sub_cancel] at hlast
  rw [← hrest, getElem?_append_left (by omega), hlast]

theorem write_cases (hi : r.routine.code[k]? = some i) (hw : i.isWrite) :
    (∃ p ∈ r.pieces, ∃ d, p.declaration? = some d ∧ i.opcode = .store ∧
      ⟨d.name, d.loc, i.slot⟩ ∈ r.given ∧ k + 1 = (p.before ++ p.code).length) ∨
    ∃ slots target look storage name type loc, r.Changes c t slots target look ∧
      r.site.destination? slots target = some (storage, name) ∧ i = storage.put name type loc := by
  obtain ⟨p, hp, hwrite, hk⟩ := ha.written k i hi hw
  rcases Piece.write_cases hwrite with
    ⟨d, hd, hstore, hgiven⟩ | ⟨loc, target, op, value, storage, name, hs, hdest, rfl⟩
  case inl =>
    have hmem := given_of_piece hp (hgiven ▸ mem_singleton.mpr rfl)
    exact .inl ⟨p, hp, d, hd, hstore, hmem, hk⟩
  case inr =>
    obtain ⟨look, hchanges⟩ := ha.changes p hp loc target op value hs
    rw [(ha.placed p hp).1] at hdest
    exact .inr ⟨_, target, look, storage, name, _, loc, hchanges, hdest, rfl⟩

theorem constant (h : Accepted c t) (hp : p ∈ r.pieces)
    (hd : p.declaration? = some d) (hc : d.isConst) :
    ∃ n, p.given = [⟨d.name, d.loc, some n⟩] ∧ ∀ k,
      (∃ i, r.routine.code[k]? = some i ∧ i.opcode = .store ∧ i.slot = some n) ↔
        k + 1 = (p.before ++ p.code).length := by
  obtain ⟨last, hlast, hstore, hgiven⟩ := Piece.write_of_const hd hc
  have hmem : ⟨d.name, d.loc, last.slot⟩ ∈ r.given :=
    given_of_piece hp (hgiven ▸ mem_singleton.mpr rfl)
  obtain ⟨n, hn⟩ := isSome_iff_exists.mp (ha.given _ hmem)
  replace hn : last.slot = some n := hn
  refine ⟨n, hn ▸ hgiven, fun k => ⟨?_, fun hk => ?_⟩⟩
  case refine_2 => exact ⟨last, ha.getElem?_of_last hp hlast hk, hstore, hn⟩
  rintro ⟨i, hi, hopcode, hslot⟩
  rcases ha.write_cases hi (by simp [Instruction.isWrite, hopcode]) with
    ⟨p', hp', d', hd', -, hmem', hk⟩ |
      ⟨slots, target, look, storage, name, type, loc, hchanges, hdest, rfl⟩
  case inl =>
    have hsame := ha.apart _ hmem _ hmem' n hn hslot
    rw [ha.eq_of_loc h hp hp' hd hd' (congrArg Allotment.loc hsame)]
    exact hk
  case inr =>
    -- An assignment to the slot would be one to the constant.
    cases storage <;> cases hopcode <;> cases hslot
    obtain ⟨m, rfl, hstorage⟩ := Site.variable_of_destination hdest (by simp)
    obtain ⟨a, ha', hslot, d', hd', hloc, hno⟩ := hchanges.slot h ha.program hstorage
    have hsame := ha.apart _ hmem _ ha' n hn hslot
    have hdeclared : d ∈ declarationsIn c.items :=
      ha.once.subset (mem_filterMap.mpr ⟨p, hp, hd⟩)
    have hloc : d'.loc = d.loc := hloc.trans (congrArg Allotment.loc hsame).symm
    rw [inj_on_of_nodup_map h.placed hd' hdeclared hloc, hc] at hno
    cases hno

theorem global (h : Accepted c t) :
    ∀ i ∈ r.routine.code, i.opcode = .store → i.slot = none → ∀ d ∈ c.globals, d.isConst →
      i.operand ≠ some (.symbol d.name) := by
  intro i hi hopcode hslot d hd hc
  obtain ⟨k, hk⟩ := mem_iff_getElem?.mp hi
  rcases ha.write_cases hk (by simp [Instruction.isWrite, hopcode]) with
    ⟨-, -, d', -, -, hmem, -⟩ |
    ⟨slots, target, look, storage, name, type, loc, hchanges, hdest, rfl⟩
  case inl =>
    have hsome := ha.given _ hmem
    rw [hslot] at hsome
    cases hsome
  case inr =>
    cases storage <;> cases hopcode <;> cases hslot
    obtain ⟨m, rfl, hstorage⟩ := Site.variable_of_destination hdest (by simp)
    intro heq
    cases heq
    exact hchanges.global h hstorage d hd hc rfl

theorem field (h : Accepted c t) :
    ∀ i ∈ r.routine.code, i.opcode = .putField → ∃ className name symbol,
      i.operand = some (.symbol (fullName (some className) name)) ∧
        c.symbols.member? className name = some symbol ∧ symbol.kind = .field ∧
          symbol.isConst = false := by
  intro i hi hopcode
  obtain ⟨k, hk⟩ := mem_iff_getElem?.mp hi
  rcases ha.write_cases hk (by simp [Instruction.isWrite, hopcode]) with
    ⟨-, -, d', -, hstore, -⟩ | ⟨slots, target, look, storage, name, type, loc, hchanges, hdest, rfl⟩
  case inl => cases hopcode.symm.trans hstore
  case inr =>
    cases storage <;> cases hopcode
    case field className =>
      obtain ⟨symbol, hfound⟩ := hchanges.field h ha.program hdest
      exact ⟨className, name, symbol, rfl, hfound⟩

end

end Lowered.Accounts

section Accounts

variable {c : Checked} {t : SymbolTable}

theorem routine_accounts (h : Accepted c t) (hend : (t.settleAll c c.items).Typed [])
    (hdefines : c.Defines className item) (hr : r ∈ loweredRoutine? c className item)
    (hgiven : ∀ a ∈ r.given, a.slot.isSome) : r.Accounts c t := by
  cases item <;> try cases hr
  case routine loc name params returns isStatic body =>
    have hd := h.defined hdefines
    have hsub := hdefines.declarations_sublist
    have hchanges := routine_changes h hend hd hr hgiven hsub.subset
    obtain ⟨hdeclared, hf, hc, -⟩ := hd
    rw [loweredRoutine?_eq h body hdeclared hf.1 hc] at hr
    cases hr
    set r := loweredBody c className params isStatic body _ _
    have hroutine : r.routine = Routine.ofBody _ _ _ _ _ loc := rfl
    rw [Routine.ofBody_eq] at hroutine
    have hfront := Frame.declareAll_allots c
      ⟨.ofReceiver (if isStatic then none else className), 0⟩ (params.map .ofParam)
    rw [← declareParams_eq] at hfront
    have hallots : Frame.Allots _ r.given _ :=
      hfront.trans (r.site.stmts_allots none _ body (.inl (routineKind_ne className)))
    exact {
      program := rfl
      placed := by
        rw [hroutine]
        exact (Site.stmts_placed _ none _ body).finished loc
      written := by
        rw [hroutine]
        exact (Site.stmts_written _ none _ body).finished loc
      given := hgiven
      apart := fun a ha b hb n => hallots.rising.eq_of_slot ha hb
      once := (Site.declared_pieces _ none _ body).trans
        ((sublist_append_right _ _).trans hsub).subperm
      changes := hchanges }

-- Inside of blocks, the statements at top level give out new slots. The globals keep theirs.
theorem main_allots (h : Accepted c t) (hgiven : ∀ a ∈ (loweredMain c).given, a.slot.isSome)
    (hi : items ⊆ c.items) (hs : t.Settles t') (hv : ValidMain c t' items)
    (hn : ∀ item ∈ items, ∀ q ∈ item.evaluated .empty, c.isFaulty q.2 = false) {f : Frame}
    (hf : f.AtTop c (loweredMain c).given)
    (hfind : ∀ d ∈ c.globals, ⟨d.name, d.loc, f.slots.find? d.name⟩ ∈ (loweredMain c).front)
    (hpieces : ∀ p ∈ (mainSite c).pieces none f (items.filter Stmt.isStatement), p.given ⊆
      (loweredMain c).given) :
    ∃ hi nested, Rising f.slots.next hi nested ∧
      ∀ p ∈ (mainSite c).pieces none f (items.filter Stmt.isStatement),
        p.given ⊆ (loweredMain c).front ++ nested := by
  induction items generalizing t' f
  case nil => exact ⟨_, [], .nil _, by simp [Site.met]⟩
  case cons item items ih =>
    obtain ⟨hfirst, hrest⟩ := cons_subset.mp hi
    obtain ⟨hnf, hnr⟩ := forall_mem_cons.mp hn
    have hs' := hs.settle h.orderly (h.declared item hfirst) (c := c)
    cases hitem : item.isStatement
    case false =>
      rw [filter_cons_of_neg (by simp [hitem])] at hpieces ⊢
      exact ih hrest hs' hv.2 hnr hf hfind hpieces
    case true =>
      have hc : t'.isClass = c.symbols.isClass := by
        rw [isClass_congr hs.classes, isClass_congr h.settles.classes]
      have hfault : (mainSite c).program.isFaultyStmt item = false :=
        item_faultless hc hv.1 hitem hnf
      rw [filter_cons_of_pos hitem, Site.pieces_cons _ hfault] at hpieces ⊢
      simp only [forall_mem_append, List.forall_mem_map] at hpieces ⊢
      have htops := item_tops (k := ⟨(loweredMain c).given, (· ∈ item.evaluated .empty)⟩) h hc
        hfirst hitem hv.1 ⟨hgiven, hnf⟩ hf (fun q hq => hq) hpieces.1
      obtain ⟨hi, nested, hrising, hmore⟩ := ih hrest hs' hv.2 hnr htops.atTop
        (fun d hd => htops.find? ▸ hfind d hd) hpieces.2
      cases hd : item.declaration?
      case some d =>
        have hglobal : d ∈ c.globals := mem_filterMap.mpr ⟨item, hfirst, hd⟩
        rw [hf.stmt_global hd hglobal] at hrising
        refine ⟨hi, nested, hrising, fun p hp => ?_, hmore⟩
        have hone : p.given = [⟨d.name, d.loc, f.slots.find? d.name⟩] := by
          have hdeclare := congrArg Prod.fst (hf.declare_eq hglobal (d.typeIn c))
          cases item <;> cases hd <;> cases mem_singleton.mp hp <;>
            exact congrArg (fun slot => [Allotment.mk _ _ slot]) hdeclare
        rw [hone, cons_subset]
        exact ⟨mem_append_left _ (hfind d hglobal), nil_subset _⟩
      case none =>
        have hallots := (mainSite c).stmt_allots none f item (by simp [hd])
        refine ⟨hi, _, hallots.rising.append hrising, fun p hp a ha => ?_, fun p hp a ha => ?_⟩
        · exact mem_append_right _ (mem_append_left _ (mem_flatMap.mpr ⟨p, hp, ha⟩))
        · rcases mem_append.mp (hmore p hp ha) with hfront | hnested
          · exact mem_append_left _ hfront
          · exact mem_append_right _ (mem_append_right _ hnested)

theorem main_accounts (h : Accepted c t) (hu : usesAhead c.items = false)
    (hend : (t.settleAll c c.items).Typed [])
    (hgiven : ∀ a ∈ (loweredMain c).given, a.slot.isSome) : (loweredMain c).Accounts c t := by
  set r := loweredMain c
  have hroutine : r.routine = _ := mainCode_eq c
  rw [Routine.ofBody_eq] at hroutine
  have hmain := (h.main.faultless h.formed h.collected.typed h.class_ne_global hu).1
  have hatTop := mainFrame_atTop h hend
    (subset_append_left r.front (r.pieces.flatMap Piece.given)) hgiven
  have hfront : Frame.Allots ⟨.ofReceiver none, 0⟩ r.front (mainFrame c) := by
    rw [mainFrame_eq h hend]
    exact Frame.declareAll_allots c _ _
  have hfind : ∀ d ∈ c.globals, ⟨d.name, d.loc, (mainFrame c).slots.find? d.name⟩ ∈ r.front := by
    intro d hd
    have hsome : ∀ a ∈ r.front, a.slot.isSome := fun a ha => hgiven a (mem_append_left _ ha)
    obtain ⟨n, hn, hmem, -⟩ := (mainFrame_atTop h hend (List.Subset.refl _) hsome).slot d hd
    rwa [hn]
  obtain ⟨hi, nested, hrising, hnested⟩ := main_allots h hgiven (List.Subset.refl _)
    (.refl t) h.main hmain hatTop hfind fun p hp => Lowered.given_of_piece (r := r) hp
  have hall : r.given ⊆ r.front ++ nested := by
    refine append_subset.mpr ⟨subset_append_left _ _, fun a ha => ?_⟩
    obtain ⟨p, hp, ha⟩ := mem_flatMap.mp ha
    exact hnested p hp ha
  exact {
    program := rfl
    placed := by
      rw [hroutine]
      exact (Site.stmts_placed _ none _ _).finished .none
    written := by
      rw [hroutine]
      exact (Site.stmts_written _ none _ _).finished .none
    given := hgiven
    apart := fun a ha b hb n => (hfront.rising.append hrising).eq_of_slot (hall ha) (hall hb)
    once := (Site.declared_pieces _ none _ _).trans (declarationsIn_filter _ _).subperm
    changes := main_changes h hu hend hgiven }

end Accounts

def Instruction.puts (className name : String) (i : Instruction) : Bool :=
  i.opcode = .putField && i.operand = some (.symbol (fullName (some className) name))

structure Lowered.Keeps (r : Lowered) (c : Checked) : Prop where
  constant : ∀ p ∈ r.pieces, ∀ d, p.declaration? = some d → d.isConst →
    ∃ n, p.given = [⟨d.name, d.loc, some n⟩] ∧ ∀ k,
      (∃ i, r.routine.code[k]? = some i ∧ i.opcode = .store ∧ i.slot = some n) ↔
        k + 1 = (p.before ++ p.code).length
  global   : ∀ i ∈ r.routine.code, i.opcode = .store → i.slot = none →
    ∀ d ∈ c.globals, d.isConst → i.operand ≠ some (.symbol d.name)

section Fields

variable {c : Checked} {t : SymbolTable}

theorem mem_finished (h : i ∈ finished code loc) : i ∈ code ∨ i = .plain .ret .void loc := by
  rw [finished] at h
  split at h
  case isTrue => exact .inl h
  case isFalse => simpa using h

theorem countP_finished {p : Instruction → Bool} (h : p (.plain .ret .void loc) = false)
    (code : List Instruction) : (finished code loc).countP p = code.countP p := by
  rw [finished]
  split
  case isTrue => rfl
  case isFalse => simp [h]

theorem fieldCode_ends (site : Site) (slots : Slots) (className : String) (f : Field Expr)
    (hn : ∀ e ∈ f.init, site.program.isFaulty e = false) :
    ∃ type, Ends (fieldCode site slots className f)
      (f.init.map fun _ => (Storage.field className).put f.name type f.loc) := by
  rw [fieldCode]
  cases hinit : f.init
  case none => exact ⟨.error, [], .nil, rfl⟩
  case some e =>
    dsimp only
    rw [if_neg (by simp [hn e hinit])]
    exact ⟨_, site.receiver slots f.loc :: site.value slots e,
      (site.value_silent slots e).cons rfl, rfl⟩

theorem Ends.countP_puts (h : Ends code write?) (className name : String) :
    code.countP (·.puts className name) = write?.toList.countP (·.puts className name) := by
  obtain ⟨front, hfront, rfl⟩ := h
  rw [countP_append, countP_eq_zero.mpr, Nat.zero_add]
  intro i hi hputs
  have hsilent := hfront i hi
  simp_all [Instruction.puts, Instruction.isWrite]

theorem countP_fieldCode (site : Site) (slots : Slots) (owner : String) {f : Field Expr}
    (hn : ∀ e ∈ f.init, site.program.isFaulty e = false) (className name : String) :
    (fieldCode site slots owner f).countP (·.puts className name) =
      if f.init.isSome ∧ fullName (some owner) f.name = fullName (some className) name then 1
      else 0 := by
  obtain ⟨type, hends⟩ := fieldCode_ends site slots owner f hn
  rw [hends.countP_puts]
  cases f.init
  case none => simp
  case some e => simp [Storage.put, Instruction.puts, Instruction.withOperand, countP_cons]

theorem countP_fields_eq_zero (site : Site) (slots : Slots) (owner : String)
    {fields : List (Field Expr)} (hn : ∀ f ∈ fields, ∀ e ∈ f.init, site.program.isFaulty e = false)
    (hne : ∀ f ∈ fields, fullName (some owner) f.name ≠ fullName (some className) name) :
    (fields.flatMap (fieldCode site slots owner)).countP (·.puts className name) = 0 := by
  rw [countP_eq_zero]
  intro i hi
  obtain ⟨f, hf, hi⟩ := mem_flatMap.mp hi
  have hcount := countP_fieldCode site slots owner (hn f hf) className name
  rw [if_neg fun hputs => hne f hf hputs.2] at hcount
  exact countP_eq_zero.mp hcount i hi

theorem locs_fields (hp : (placesIn c.items).Nodup)
    (hi : .classDef loc owner fields methods ∈ c.items) : (fields.map (·.loc)).Nodup := by
  rw [placesIn_eq_flatMap] at hp
  have hclass := (nodup_flatMap.mp hp).1 _ hi
  rw [Stmt.places, cons_append, nodup_cons, nodup_append'] at hclass
  refine hclass.2.1.sublist ?_
  rw [map_eq_flatMap]
  exact .flatMap_right _ fun f _ => singleton_sublist.mpr mem_cons_self

-- The constructor of a class gives each of its constants a value, and does so once.
theorem countP_constructor (h : Accepted c t) (hend : (t.settleAll c c.items).Typed [])
    (hp : (placesIn c.items).Nodup) {loc : Location} {owner : String}
    (hi : .classDef loc owner fields methods ∈ c.items) (hf : f ∈ fields) (hc : f.isConst) :
    (constructorCode c owner fields loc).code.countP (·.puts owner f.name) = 1 := by
  have hlocs := locs_fields hp hi
  have howner : ∀ o ∈ some owner, '.' ∉ o.toList := by
    rintro _ ⟨⟩
    exact (h.formed _ hi).1.dot_notMem
  have hdeclared := (h.declared _ hi).2.1
  have hformed := (h.formed _ hi).2.1
  have hknown : ∀ g ∈ fields, ∀ e ∈ g.init, c.isFaulty e = false := fun g hg e he =>
    h.field_faultless hend ((h.classes _ hi).1 g hg) (hformed g hg) he
  rw [constructorCode_eq, Routine.ofBody_eq, Routine.ofCode, countP_finished rfl]
  set site := constructorSite c owner
  have hone := countP_fieldCode site (.ofReceiver (some owner)) owner (hknown f hf) owner f.name
  rw [if_pos ⟨(hformed f hf).2.2.2 hc, rfl⟩] at hone
  obtain ⟨front, back, rfl⟩ := append_of_mem hf
  have hother (gs : List (Field Expr)) (hsub : gs ⊆ front ++ f :: back)
      (hne : ∀ g ∈ gs, g.loc ≠ f.loc) :
      (gs.flatMap (fieldCode site (.ofReceiver (some owner)) owner)).countP
        (·.puts owner f.name) = 0 := by
    refine countP_fields_eq_zero _ _ _ (fun g hg => hknown g (hsub hg)) fun g hg heq => hne g hg ?_
    have hname : g.name = f.name :=
      (fullName_inj (hformed g (hsub hg)).1.dot_notMem (hformed f hf).1.dot_notMem howner howner
        heq).2
    have hsymbol := (hdeclared g (hsub hg)).symbol
    rw [hname, (hdeclared f hf).symbol] at hsymbol
    exact (congrArg Symbol.loc (Option.some.inj hsymbol)).symm
  rw [map_append, map_cons, nodup_middle, nodup_cons, mem_append, not_or]
    at hlocs
  have hfront := hother front (by simp) fun g hg heq =>
    hlocs.1.1 (List.mem_map.mpr ⟨g, hg, heq⟩)
  have hback := hother back (by simp) fun g hg heq =>
    hlocs.1.2 (List.mem_map.mpr ⟨g, hg, heq⟩)
  rw [flatMap_append, flatMap_cons, countP_append, countP_append, hone, hfront,
    hback]

theorem DefinesField.fullName_inj (h : Accepted c t) (hf : DefinesField c className name)
    (hf' : DefinesField c className' name')
    (heq : fullName (some className) name = fullName (some className') name') :
    className = className' ∧ name = name' := by
  have hdots {className name : String} (hf : DefinesField c className name) :
      (∀ o ∈ some className, '.' ∉ o.toList) ∧ '.' ∉ name.toList := by
    obtain ⟨loc, fields, methods, hi, f, hmem, rfl⟩ := hf
    refine ⟨?_, ((h.formed _ hi).2.1 f hmem).1.dot_notMem⟩
    rintro _ ⟨⟩
    exact (h.formed _ hi).1.dot_notMem
  have hinj := Lumen.fullName_inj (hdots hf).2 (hdots hf').2 (hdots hf).1 (hdots hf').1 heq
  exact ⟨Option.some.inj hinj.1, hinj.2⟩

variable {loc : Location} {owner : String} {fields : List (Field Expr)} {methods : List Stmt}
  {f : Field Expr}

theorem Lowered.Accounts.countP_puts {r : Lowered} (ha : r.Accounts c t) (h : Accepted c t)
    (hi : .classDef loc owner fields methods ∈ c.items) (hf : f ∈ fields)
    (hc : f.isConst) : r.routine.code.countP (·.puts owner f.name) = 0 := by
  rw [countP_eq_zero]
  intro i hcode hputs
  simp only [Instruction.puts, Bool.and_eq_true, decide_eq_true_eq] at hputs
  obtain ⟨className, name, symbol, hoperand, hmember, hkind, hno⟩ := ha.field h i hcode hputs.1
  have heq := Operand.symbol.inj (Option.some.inj (hoperand.symm.trans hputs.2))
  obtain ⟨rfl, rfl⟩ := (field_defined h hmember hkind).fullName_inj h
    ⟨loc, fields, methods, hi, f, hf, rfl⟩ heq
  rw [h.member?_eq, ((h.declared _ hi).2.1 f hf).symbol] at hmember
  cases hmember
  cases hc.symm.trans hno

theorem puts_all (h : Accepted c t) (hk : ¬c.Unknown)
    (hgiven : ∀ r ∈ lowered c, ∀ a ∈ r.given, a.slot.isSome) (hp : (placesIn c.items).Nodup)
    (hn : ((routines c).map (·.name)).Nodup)
    (hi : .classDef loc owner fields methods ∈ c.items) (hf : f ∈ fields) (hc : f.isConst) :
    ∀ r ∈ routines c, r.code.countP (·.puts owner f.name) =
      if r.name = fullName (some owner) constructorName then 1 else 0 := by
  obtain ⟨hu, hend⟩ := h.end_typed hk
  rw [← routine_lowered c, List.forall_mem_map]
  intro r hr
  have hsome := hgiven r hr
  have hmem : r.routine ∈ routines c := routine_lowered c ▸ mem_map_of_mem hr
  split
  case isTrue heq =>
    rw [inj_on_of_nodup_map hn hmem (constructor_mem_routines h hi) heq]
    exact countP_constructor h hend hp hi hf hc
  case isFalse hne =>
    rcases mem_lowered hr with
      rfl | ⟨loc', owner', fields', methods', hi', rfl⟩ | ⟨className, item, hd, hr⟩
    · exact (main_accounts h hu hend hsome).countP_puts h hi hf hc
    · have hroutine : (loweredConstructor c owner' fields' loc').routine =
          constructorCode c owner' fields' loc' := rfl
      rw [hroutine, constructorCode_eq, Routine.ofBody_eq, Routine.ofCode, countP_finished rfl]
      refine countP_fields_eq_zero _ _ _ (fun g hg e he => ?_) fun g hg heq => hne ?_
      · exact h.field_faultless hend ((h.classes _ hi').1 g hg) ((h.formed _ hi').2.1 g hg) he
      · have hother : DefinesField c owner' g.name := ⟨loc', fields', methods', hi', g, hg, rfl⟩
        obtain ⟨rfl, -⟩ := hother.fullName_inj h ⟨loc, fields, methods, hi, f, hf, rfl⟩ heq
        rfl
    · exact (routine_accounts h hend hd hr hsome).countP_puts h hi hf hc

theorem Lowered.Accounts.keeps {r : Lowered} (ha : r.Accounts c t) (h : Accepted c t) :
    r.Keeps c where
  constant _ hp _ hd hc := ha.constant h hp hd hc
  global := ha.global h

theorem constructor_keeps (h : Accepted c t) (hend : (t.settleAll c c.items).Typed [])
    (hi : .classDef loc owner fields methods ∈ c.items) :
    (loweredConstructor c owner fields loc).Keeps c where
  constant p hp := by cases hp
  global i hcode hstore := by
    have hroutine : (loweredConstructor c owner fields loc).routine =
        constructorCode c owner fields loc := rfl
    rw [hroutine, constructorCode_eq, Routine.ofBody_eq] at hcode
    rcases mem_finished hcode with hcode | rfl
    case inr => cases hstore
    case inl =>
      -- Fields get their values, and no variable does.
      obtain ⟨g, hg, hcode⟩ := mem_flatMap.mp hcode
      obtain ⟨type, front, hfront, heq⟩ := fieldCode_ends (constructorSite c owner)
        (.ofReceiver (some owner)) owner g fun e he =>
          h.field_faultless hend ((h.classes _ hi).1 g hg) ((h.formed _ hi).2.1 g hg) he
      rw [heq, mem_append] at hcode
      rcases hcode with hcode | hcode
      · have hsilent := hfront i hcode
        simp [Instruction.isWrite, hstore] at hsilent
      · obtain ⟨e, -, rfl⟩ := map_eq_some_iff.mp (mem_toList.mp hcode)
        cases hstore

theorem keeps_all (h : Accepted c t) (hk : ¬c.Unknown)
    (hgiven : ∀ r ∈ lowered c, ∀ a ∈ r.given, a.slot.isSome) : ∀ r ∈ lowered c, r.Keeps c := by
  obtain ⟨hu, hend⟩ := h.end_typed hk
  intro r hr
  have hsome := hgiven r hr
  rcases mem_lowered hr with rfl | ⟨loc, owner, fields, methods, hi, rfl⟩
    | ⟨className, item, hd, hr⟩
  · exact (main_accounts h hu hend hsome).keeps h
  · exact constructor_keeps h hend hi
  · exact (routine_accounts h hend hd hr hsome).keeps h

end Fields

end Code

theorem Compilation.names_apart (h : ofSource .strict source = .ok c) : ∃ t, Accepted c.checked t ∧
      ((Code.routines c.checked).map (·.name)).Nodup := by
  obtain ⟨hchecked, hsound, -⟩ := ofSource_strict h
  rw [hchecked] at hsound ⊢
  have haccepted := Checked.accepted_ofSource source hsound
  have hnodup := Code.definitions_nodup haccepted.formed hsound
  exact ⟨_, haccepted, Code.names_nodup haccepted hnodup.1 hnodup.2⟩

-- In the code of an accepted program in which every expression has a type and every declaration a
-- slot, the slot of a constant is written by its declaration alone, no constant global is written
-- without its slot, and the constructor of a class writes each of its constants once.
theorem Compilation.constants_kept {source : String} {c : Compilation}
    (h : ofSource .strict source = .ok c) (hk : ¬c.checked.Unknown)
    (hs : ∀ r ∈ Code.lowered c.checked, ∀ a ∈ r.given, a.slot.isSome) :
    (Code.lowered c.checked).map Code.Lowered.routine = c.routines ∧
      (∀ r ∈ Code.lowered c.checked, r.Keeps c.checked) ∧
      ∀ loc owner fields methods, .classDef loc owner fields methods ∈ c.checked.items →
        ∀ f ∈ fields, f.isConst → ∀ r ∈ c.routines, r.code.countP (·.puts owner f.name) =
          if r.name = fullName (some owner) constructorName then 1 else 0 := by
  obtain ⟨hchecked, hsound, hroutines⟩ := ofSource_strict h
  obtain ⟨t, haccepted, hnames⟩ := names_apart h
  have hplaces : (placesIn c.checked.items).Nodup := by
    rw [hchecked]
    exact Parsed.ofSource_places source
  rw [hroutines]
  refine ⟨Code.routine_lowered _, Code.keeps_all haccepted hk hs, ?_⟩
  intro loc owner fields methods hi f hf hc
  exact Code.puts_all haccepted hk hs hplaces hnames hi hf hc

-- Here constants stand at top level, in a block, in a routine and in a class, next to variables of
-- the same names.
theorem Compilation.constants_kept_shadowed :
    ∃ c, ofSource .strict
        ("const int g = 1; class A \x7b const int k = 2; int n = k; int f(int k) \x7b k += g; " ++
          "n = k; const int v = n; return v; \x7d \x7d " ++
          "\x7b int g = g; g += 2; const int h = g; \x7d") = .ok c ∧
      ¬c.checked.Unknown ∧ (∀ r ∈ Code.lowered c.checked, ∀ a ∈ r.given, a.slot.isSome) ∧
        (Code.lowered c.checked).map Code.Lowered.routine = c.routines ∧
          (∀ r ∈ Code.lowered c.checked, r.Keeps c.checked) ∧
          ∀ loc owner fields methods, .classDef loc owner fields methods ∈ c.checked.items →
            ∀ f ∈ fields, f.isConst → ∀ r ∈ c.routines, r.code.countP (·.puts owner f.name) =
              if r.name = fullName (some owner) constructorName then 1 else 0 :=
  exists_known (by decide +kernel) fun _ hc hk hs => constants_kept hc hk hs

end Lumen
