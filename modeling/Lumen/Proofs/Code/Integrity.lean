import Lumen.Proofs.Checked.Accepted
import Lumen.Proofs.Checked.Exits
import Lumen.Proofs.Code.Loops

namespace Lumen

open Typing List Option SymbolTable Analysis

variable {code : List Instruction} {className : Option String} {r : Lowered}

namespace Code

def Lowered.nested (r : Lowered) : List Nested :=
  r.site.nested none r.frame r.body

variable {c : Checked}

structure Nested.Leaves (c : Checked) (n : Nested) (word : String) (loc : Location)
    (At : Piece → Nat → Prop) : Prop where
  inside  : ∀ loop ∈ n.around, ∃ label, n.piece.code = [.jump .jump label loc] ∧ At loop label
  outside : n.around = none → n.piece.code = []
  dropped : n.piece.code = [] ↔
    ⟨.error, .misplacedStatement, "'" ++ word ++ "' outside of a loop", loc⟩ ∈ c.diagnostics

-- What is met while the code of a routine is made stands in it as it tells.
structure Nested.Stands (c : Checked) (code : List Instruction) (n : Nested) : Prop where
  piece        : n.piece.before ++ n.piece.code <+: code
  around       : ∀ loop ∈ n.around, loop.before ++ loop.code <+: code
  breakLoop    : ∀ loc, n.piece.stmt = .breakLoop loc → n.Leaves c "break" loc Piece.StopsAt
  continueLoop : ∀ loc, n.piece.stmt = .continueLoop loc →
    n.Leaves c "continue" loc Piece.GoesOnAt

-- Control stays inside of a routine.
structure Lowered.Intact (c : Checked) (r : Lowered) : Prop where
  -- Labels and jumps name labels that have one place.
  labels : ∀ i ∈ r.routine.code, i.opcode.hasLabel →
    ∃ n, i.label? = some n ∧ (labelsOf r.routine.code).count n = 1
  ends   : r.routine.code.getLast?.any (·.opcode = .ret)
  nested : ∀ n ∈ r.nested, n.Stands c r.routine.code

section Intact

theorem Aimed.finished (h : Aimed none lo hi code) (loc : Location) :
    Aimed none lo hi (finished code loc) := by
  rw [Code.finished]
  split
  case isTrue => exact h
  case isFalse =>
    exact h.append (.of_labelsOf rfl (named_ret loc .void) hi)

theorem Aimed.labels (h : Aimed none lo hi code) :
    ∀ i ∈ code, i.opcode.hasLabel → ∃ n, i.label? = some n ∧ (labelsOf code).count n = 1 := by
  intro i hi hl
  obtain ⟨n, hn, hrange⟩ := h.named i hi hl
  refine ⟨n, hn, ?_⟩
  rcases hrange with hrange | ⟨_, hnone, -⟩
  · rw [h.once, if_pos (by have := h.le; omega)]
  · cases hnone

theorem Seated.finished (h : Seated loop es code ns) (loc : Location) :
    Seated loop es (finished code loc) ns := by
  rw [Code.finished]
  split
  case isTrue => exact h
  case isFalse => exact h.more _

end Intact

end Code

variable {items : Items}

theorem DefinedIn.written {returns : TypeName}
    (h : DefinedIn items className (.routine loc name params returns isStatic body))
    (hf : ∀ item ∈ items, item.FormedItem Token.IsName)
    (hl : ∀ loc ∈ items.flatMap Grammar.routineLocs, loc ≠ .none) :
    (Stmt.routine loc name params returns isStatic body).FormedRoutine Token.IsName ∧
      (∀ owner ∈ className, Token.IsName owner) ∧ (className = none → loc ≠ .none) := by
  cases className
  case none =>
    exact ⟨(hf _ h).2, by simp, fun _ =>
      hl loc (mem_flatMap.mpr ⟨_, h, mem_singleton.mpr rfl⟩)⟩
  case some owner =>
    obtain ⟨place, fields, methods, hi, hmethod⟩ := h
    refine ⟨(hf _ hi).2.2 _ hmethod, ?_, by simp⟩
    rintro _ ⟨⟩
    exact (hf _ hi).1

-- A routine with a symbol of its own is the definition that this symbol stands for.
theorem Typing.definition_of_symbol (hn : Token.IsName name)
    (hc : ∀ owner ∈ className, Token.IsName owner)
    (hs : (checkItems items).table.qualified? (fullName className name) = some symbol)
    (hk : symbol.kind = .routine signature) (hl : className = none → symbol.loc ≠ .none) :
    (fullName className name ∈ (declareItems items).table.routines ∧
      ∀ owner ∈ className, ((checkItems items).table.classScope? owner).isSome) ∧
    ∃ params returns body, signature.params.length = params.length ∧
      DefinedIn items className
        (.routine symbol.loc name params returns signature.isStatic body) := by
  have hcollected := collected_declareItems items
  have hretyped := retyped_checkItems items
  cases className
  case none =>
    rw [fullName, qualified?_global _ hn.dot_notMem] at hs
    have hglobal := hretyped.global name
    rw [hs, map_some] at hglobal
    obtain ⟨old, hold, heq⟩ := map_eq_some_iff.mp hglobal.symm
    have hold : (declareItems items).table.declared? none name = some old := hold
    have hkind : old.kind = symbol.kind := (congrArg Symbol.kind heq : old.untyped.kind = _)
    have hloc : old.loc = symbol.loc := (congrArg Symbol.loc heq : old.untyped.loc = _)
    rcases hcollected.routine hold (hkind.trans hk) with ⟨-, -, -, hnone⟩ | ⟨hmem, -, hdefined⟩
    · exact absurd (hloc.symm.trans hnone) (hl rfl)
    · rw [← hloc]
      exact ⟨⟨hmem, by simp⟩, hdefined⟩
  case some owner =>
    rw [qualified?_member _ (hc owner rfl).dot_notMem, hretyped.member?] at hs
    have hfound : (declareItems items).table.declared? (some owner) name = some symbol := hs
    obtain ⟨i, hi, -⟩ := bind_eq_some_iff.mp hs
    rcases hcollected.routine hfound hk with ⟨hnone, -⟩ | ⟨hmem, -, hdefined⟩
    · cases hnone
    · refine ⟨⟨hmem, ?_⟩, hdefined⟩
      rintro _ ⟨⟩
      rw [classScope?, hretyped.classes]
      exact isSome_of_eq_some hi

theorem Typing.scopes_of_symbol (hn : Token.IsName name)
    (hc : ∀ owner ∈ className, Token.IsName owner)
    (hs : (checkItems items).table.qualified? (fullName className name) = some symbol)
    (hk : symbol.kind = .routine signature) (hl : className = none → symbol.loc ≠ .none) :
    ((checkItems items).table.routineScope? (fullName className name)).isSome ∧
      ∀ owner ∈ className, ((checkItems items).table.classScope? owner).isSome := by
  obtain ⟨⟨hmem, hclass⟩, -⟩ := definition_of_symbol hn hc hs hk hl
  refine ⟨?_, hclass⟩
  rw [routineScope?, routines_checkItems]
  exact Std.TreeMap.isSome_getElem?_iff_mem.mpr
    ((Lasts.newScope _ _ _ _).mem_routines hmem)

namespace Code

theorem exits_main (items : Items) :
    exitsIn false (items.filter Stmt.isStatement) ⊆ reachedExits items := by
  intro e he
  obtain ⟨s, hs, he⟩ := mem_exitsIn.mp he
  refine mem_append_left _ (mem_append_left _ (mem_flatMap.mpr
    ⟨s, (mem_filter.mp hs).1, ?_⟩))
  cases s <;> exact he

theorem exits_routine (h : DefinedIn items className item)
    (hf : ∀ item ∈ items, item.FormedItem Token.IsName)
    (hl : ∀ loc ∈ items.flatMap Grammar.routineLocs, loc ≠ .none)
    (hr : loweredRoutine? (.ofItems items) className item = some r) :
    exitsIn false r.body ⊆ reachedExits items := by
  obtain ⟨loc, name, params, returns, isStatic, symbol, signature, rfl, hs, hloc, hk, -⟩ :=
    loweredRoutine?_eq_some hr
  obtain ⟨hroutine, howner, hnone⟩ := h.written hf hl
  obtain ⟨hscope, hclass⟩ := scopes_of_symbol hroutine.1 howner hs hk (hloc ▸ hnone)
  intro e he
  cases className
  case none =>
    refine mem_append_right _ (mem_flatMap.mpr ⟨_, h, ?_⟩)
    rw [Stmt.checkedExits, if_pos hscope]
    exact he
  case some owner =>
    obtain ⟨loc', fields, methods, hi, hmethod⟩ := h
    refine mem_append_left _ (mem_append_right _ (mem_flatMap.mpr ⟨_, hi, ?_⟩))
    rw [Stmt.checkedMethodExits, if_pos (hclass owner rfl)]
    refine mem_flatMap.mpr ⟨_, hmethod, ?_⟩
    rw [Stmt.checkedExits, if_pos hscope]
    exact he

theorem Nested.Sits.leaves {exits : List Exit} {n : Nested} (h : n.Sits none exits code)
    (hexits : exits ⊆ reachedExits items)
    (hnodup : ((items.flatMap Stmt.itemExits).map (·.loc)).Nodup) {At : Piece → Nat → Prop}
    (label : Loop → Nat)
    (hexit : n.piece.stmt.exits n.piece.loop.isSome = [⟨word, loc, n.piece.loop.isSome⟩])
    (hcode : n.piece.code = n.piece.loop.toList.map fun l => .jump .jump (label l) loc)
    (hat : ∀ p l, p.labels? = some l → At p (label l)) : n.Leaves (.ofItems items) word loc At := by
  have hmem : ⟨word, loc, n.piece.loop.isSome⟩ ∈ reachedExits items :=
    hexits (h.exits (hexit ▸ mem_singleton.mpr rfl))
  have hreported := Checked.reported_iff hnodup hmem
  obtain ⟨-, haround, hloop, -⟩ := h
  refine ⟨fun p hp => ?_, fun hnone => ?_, ?_⟩
  · obtain ⟨l, hl⟩ := isSome_iff_exists.mp (haround p hp).2
    rw [mem_def.mp hp, elim_some, hl] at hloop
    exact ⟨label l, by rw [hcode, hloop]; rfl, hat p l hl⟩
  · rw [hcode, hloop, hnone]
    rfl
  · refine Iff.trans ?_ hreported.symm
    rw [hcode]
    cases n.piece.loop <;> simp

theorem Nested.Sits.stands {exits : List Exit} {n : Nested} (h : n.Sits none exits code)
    (hexits : exits ⊆ reachedExits items)
    (hnodup : ((items.flatMap Stmt.itemExits).map (·.loc)).Nodup) :
    n.Stands (.ofItems items) code where
  piece := h.piece
  around p hp := (h.around p hp).1
  breakLoop loc hs := by
    refine h.leaves hexits hnodup Loop.stop (by rw [hs]; rfl) ?_ fun p l hl =>
      (Piece.placed_labels hl).1
    rw [Piece.code, hs]
    cases n.piece.loop <;> rfl
  continueLoop loc hs := by
    refine h.leaves hexits hnodup Loop.next (by rw [hs]; rfl) ?_ fun p l hl =>
      (Piece.placed_labels hl).2
    rw [Piece.code, hs]
    cases n.piece.loop <;> rfl

theorem Lowered.intact_of_body {loc : Location}
    (hnodup : ((items.flatMap Stmt.itemExits).map (·.loc)).Nodup)
    (hcode : r.routine.code = finished (r.site.stmts none r.frame [] r.body).1 loc)
    (hexits : exitsIn false r.body ⊆ reachedExits items) : r.Intact (.ofItems items) := by
  have haimed := (r.site.stmts_aimed none r.frame r.body).finished loc
  have hseated := (r.site.stmts_seated none r.frame r.body).finished loc
  rw [← hcode] at haimed hseated
  refine ⟨haimed.labels, ?_, fun n hn => (hseated n hn).stands hexits hnodup⟩
  rw [hcode]
  exact getLast?_finished _ _

theorem loweredConstructor_intact (c : Checked) (className : String) (fields : List (Field Expr))
    (loc : Location) : (loweredConstructor c className fields loc).Intact c := by
  have hstraight := (constructorSite c className).fields_straight (.ofReceiver (some className))
    className fields
  set code := fields.flatMap
    (fieldCode (constructorSite c className) (.ofReceiver (some className)) className)
  have hcode : (loweredConstructor c className fields loc).routine.code = finished code loc := by
    rw [loweredConstructor, constructorCode_eq, Routine.ofBody_eq]
    rfl
  refine ⟨?_, ?_, fun n hn => ?_⟩
  · rw [hcode]
    exact ((Aimed.of_straight hstraight none 0).finished loc).labels
  · rw [hcode]
    exact getLast?_finished _ _
  · cases hn

end Code

-- Every source has code in exploratory mode. In all code that is made, control stays inside of its
-- routine.
theorem Compilation.intact (source : String) :
    (∃ c, ofSource .exploratory source = .ok c) ∧
      ∀ mode c, ofSource mode source = .ok c →
        (Code.lowered c.checked).map Code.Lowered.routine = c.routines ∧
          ∀ r ∈ Code.lowered c.checked, r.Intact c.checked := by
  refine ⟨⟨_, rfl⟩, fun mode c h => ?_⟩
  obtain ⟨hchecked, -, hroutines⟩ := ofSource_ok h
  refine ⟨(Code.routine_lowered _).trans hroutines.symm, ?_⟩
  rw [hchecked]
  have hnodup := Parsed.ofSource_exits source
  have hformed := Parsed.ofTokens_formed _ (Lexed.ofSource_isName source)
  intro r hr
  rcases Code.mem_lowered hr with rfl | ⟨loc, name, fields, methods, -, rfl⟩ |
    ⟨className, item, hd, hr⟩
  · exact Code.Lowered.intact_of_body hnodup (Code.code_loweredMain _) (Code.exits_main _)
  · exact Code.loweredConstructor_intact _ name fields loc
  · obtain ⟨loc, _, _, _, _, _, _, -, -, -, -, -, -, hroutine⟩ := Code.loweredRoutine?_eq_some hr
    have hcode : r.routine.code = Code.finished (r.site.stmts none r.frame [] r.body).1 loc := by
      rw [hroutine, Code.Routine.ofBody_eq]
      rfl
    exact Code.Lowered.intact_of_body hnodup hcode
      (Code.exits_routine hd hformed (fun _ => Parsed.ofSource_opened) hr)

-- Here each of two loops is around an exit, and none is around the last, which has no code.
theorem Compilation.intact_nested :
    ∃ c, ofSource .exploratory
        ("while (true) \x7b for (int i = 0; i < 3; i = i + 1) \x7b continue; \x7d break; \x7d " ++
          "break;") = .ok c ∧
      ((Code.lowered c.checked).map fun r => r.nested.map fun n =>
        (n.around.isSome, n.piece.code.length)) =
          [[(false, 21), (true, 15), (true, 2), (true, 1), (true, 4), (true, 1), (false, 0)]] ∧
      (Code.lowered c.checked).map Code.Lowered.routine = c.routines ∧
        ∀ r ∈ Code.lowered c.checked, r.Intact c.checked :=
  exists_ok_and (by decide +kernel) fun c hc _ => (intact _).2 _ c hc

end Lumen
