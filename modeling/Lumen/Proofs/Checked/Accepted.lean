import Lumen.Proofs.Checked.Definitions
import Lumen.Proofs.Typing.Pending
import Lumen.Proofs.Grammar.Item
import Lumen.Compilation
import Mathlib.Data.List.Perm.Basic

namespace Lumen

open Typing List SymbolTable Analysis

structure Accepted (c : Checked) (t : SymbolTable) : Prop where
  collected : t.Collected c.items True
  formed    : ∀ item ∈ c.items, item.FormedItem Token.IsName
  nodup     : (idsIn c.items).Nodup
  placed    : ((declarationsIn c.items).map (·.loc)).Nodup
  declared  : ∀ item ∈ c.items, item.Declared t
  settles   : t.Settles c.symbols
  global    : c.symbols.scopes[global]? =
    (t.settleAll c c.items).scopes[global]?
  main      : ValidMain c t c.items
  classes   : ∀ item ∈ c.items, item.ValidClass c
  routines  : ∀ item ∈ c.items, item.ValidRoutine c none
  settled   : ∀ (i : Nat) (s : Scope), c.symbols.scopes[i]? = some s → i ≠ SymbolTable.global →
    s.Settled c
  -- All that the check looks up, by the text.
  lookups   : Typing.lookups c.items = mainLookups c t c.items ++
    c.items.flatMap (·.classLookups c) ++ c.items.flatMap (·.routineLookups c none)
  recorded  : ∀ id : Nat, id ∉ idsIn c.items → c.types[id]? = none

theorem Accepted.orderly (h : Accepted c t) : t.Orderly :=
  h.collected.orderly

theorem idsIn_perm (items : Items) :
    (idsIn items).Perm (items.flatMap Stmt.mainIds ++ items.flatMap Stmt.classIds ++
      items.flatMap Stmt.routineIds) := by
  rw [idsIn_eq_flatMap, funext Stmt.ids_eq]
  exact (flatMap_append_perm items _ _).symm.trans
    ((flatMap_append_perm items _ _).symm.append_right _)

theorem routineNames_perm (items : Items) :
    (items.flatMap Stmt.routineNames).Perm
      (items.filterMap (·.routineName? none) ++ items.flatMap Stmt.methodNames) := by
  rw [funext Stmt.routineNames_eq, filterMap_eq_flatMap_toList]
  exact (flatMap_append_perm items _ _).symm.trans perm_append_comm

theorem Stmt.FormedItem.routine {W : String → Prop} {item : Stmt} (h : item.FormedItem W)
    (hn : name ∈ item.routineName? none) : item.FormedRoutine W := by
  cases item
  case routine => exact h.2
  all_goals cases hn

theorem Stmt.Declared.routine {item : Stmt} (h : item.Declared t)
    (hn : name ∈ item.routineName? none) : item.RoutineDeclared t none := by
  cases item
  case routine => exact h
  all_goals cases hn

open Analysis

namespace Typing

def mainPlace (a : Analysis) : Place :=
  ⟨toplevelName, .void, none, [a.table.scopes.size, global]⟩

def mainStart (a : Analysis) : Analysis :=
  { a with table := a.table.newScope .method toplevelName global }

section Main

variable {items : Items} {a a' : Analysis} {c : Checked}

theorem scopes_mainStart (h : i < a.table.scopes.size) :
    (mainStart a).table.scopes[i]? = a.table.scopes[i]? := by
  simp [mainStart, Nat.ne_of_lt h]

theorem fits_mainPlace (ho : a.table.Orderly) :
    (c.mainSetting a.table).Fits (mainPlace a) where
  scopes := rfl
  receiver? := rfl
  returns := rfl
  outer := by
    have hlt := lt_of_kindOf? ho.global
    simpa [mainPlace, Place.home, Checked.mainSetting] using Nat.ne_of_gt hlt
  classes n i hi := Nat.ne_of_lt (lt_of_kindOf? (ho.classes n i hi))

theorem agrees_mainStart (h : SignaturesKnown items a) :
    (c.mainSetting a.table).Agrees (mainPlace a) (mainStart a) .empty where
  home := by
    refine ⟨Scope.empty .method toplevelName (some global), ?_, ?_⟩
    · exact (a.table.scopes_newScope _ _ _ _).trans (if_pos rfl)
    · rw [mainStart, h.blocks]
      exact .empty c _ _
  outer i hi := by
    rw [mem_singleton.mp hi]
    exact scopes_mainStart (lt_of_kindOf? h.orderly.global)
  members n i hi := scopes_mainStart (lt_of_kindOf? (h.orderly.classes n i hi))
  classes := rfl

theorem grows_mainStart (a : Analysis) : a.table.Grows (mainStart a).table :=
  .newScope a.table .method toplevelName global

section

variable (h : SignaturesKnown items a)

include h

-- What the items define has been declared before, so that the scope of the statements at top level
-- is none of theirs.
theorem routine_declared
    (hr : a'.table.routines = (mainStart a).table.routines)
    (hn : name ∈ items.flatMap Stmt.routineNames) (hi : a'.table.routines[name]? = some i) :
    ∃ name : String, a.table.routines[name]? = some i := by
  obtain ⟨j, hj⟩ := Option.isSome_iff_exists.mp (h.taken name hn)
  rw [hr, (grows_mainStart a).routines name j hj] at hi
  exact ⟨name, hi ▸ hj⟩

-- What is left when the statements at top level have been checked: `b` is the state behind them,
-- and later steps lead to the program.
theorem ready_of_main {b : Analysis} {place : Place} {t : SymbolTable} {ids ids' : List Nat}
    {es es' : List Exit}

    (hmain : (mainStart a).Advances
      (fun i => i = global ∨ i = (mainPlace a).home) ids es b)
    (hagrees : (c.mainSetting t).Agrees place b .empty)
    (hlater : b.Advances (fun i => ∃ name : String, a.table.routines[name]? = some i) ids' es' a')
    (hc : c.symbols = a'.table) : Ready c a.table [] b where
  blocks := by
    obtain ⟨s, _, hm⟩ := hagrees.home
    exact hm.eq_nil rfl
  kept i hi := by
    rw [hc, hlater.scopes i fun ⟨name, hname⟩ => hi name hname]
  classes := by rw [hc, hlater.classes]
  routines name i hi := hmain.routines ▸ (grows_mainStart a).routines name i hi
  waiting name i hi _ := by
    have hkind := h.orderly.routines name i hi
    have hlt := lt_of_kindOf? hkind
    refine (hmain.scopes i ?_).trans (scopes_mainStart hlt)
    rintro (rfl | e)
    · cases hkind.symm.trans h.orderly.global
    · exact Nat.ne_of_lt hlt e
  finished _ _ _ hn := absurd hn not_mem_nil

theorem settles_of_main
    (hmain : (mainStart a).Advances (fun i => i = global ∨ i = (mainPlace a).home) ids
      es b)
    (hset : a.table.Settles t) (hagrees : (c.mainSetting t).Agrees place b .empty)
    (hready : Ready c a.table [] b) : a.table.Settles c.symbols := by
  have hglobal : c.symbols.scopes[global]? = t.scopes[global]? :=
    (hready.global h.orderly).symm.trans
      (hagrees.outer global (by simp [Checked.mainSetting]))
  refine ⟨?_, ?_, ?_, ?_⟩
  · intro name symbol hs
    rw [inScope?_congr hglobal]
    exact hset.known name symbol hs
  · intro name hn
    rw [inScope?_congr hglobal]
    exact hset.unknown name hn
  · intro i hi
    have hlt := lt_of_kindOf? hi
    rw [← hready.members h.orderly hi, ← scopes_mainStart hlt]
    refine hmain.scopes i ?_
    rintro (rfl | e)
    · cases hi.symm.trans h.orderly.global
    · exact Nat.ne_of_lt hlt e
  · rw [← hready.classes, hagrees.classes]
    exact hset.classes

end

theorem settled_of_ready
    (hmain : (mainStart a).Advances (fun i => i = global ∨ i = (mainPlace a).home) ids
      es b)
    (hagrees : (c.mainSetting t).Agrees (mainPlace a) b .empty) (hb : Ready c a.table [] b)
    (ha' : Ready c a.table done a') (hc : c.symbols = a'.table) (ht : a.table.Typed (untyped items))
    (hs : c.symbols.scopes[i]? = some s) (hi : i ≠ global) : s.Settled c := by
  by_cases hroutine : ∃ name : String, a.table.routines[name]? = some i
  case pos =>
    obtain ⟨name, hname⟩ := hroutine
    rw [hc] at hs
    by_cases hdone : name ∈ done
    case pos =>
      obtain ⟨s', hs', hsettled⟩ := ha'.finished name i hname hdone
      cases hs.symm.trans hs'
      exact hsettled
    case neg => exact ht.settled ((ha'.waiting name i hname hdone).symm.trans hs) hi c
  case neg =>
    rw [← hb.kept i (not_exists.mp hroutine)] at hs
    by_cases hhome : i = (mainPlace a).home
    case pos =>
      obtain ⟨s', hs', hm⟩ := hagrees.home
      rw [← hhome, hs] at hs'
      cases hs'
      exact Matches.settled (hb.blocks ▸ hm)
    case neg =>
      rw [hmain.scopes i (by simp [hi, hhome])] at hs
      have hne : i ≠ a.table.scopes.size := hhome
      have hs' : a.table.scopes[i]? = some s := by simpa [mainStart, hne] using hs
      exact ht.settled hs' hi c

end Main
end Typing

namespace Checked

open Typing

theorem isSound_ofItems (items : Items) :
    (ofItems items).isSound ↔ (checkItems items).Sound := by
  have hperm := Diagnostic.sorted_perm ((checkItems items).problems.reverse.map (·.diagnostic))
  simp only [isSound, ofItems, Sound, Bool.not_eq_true', any_eq_false, hperm.mem_iff,
    forall_mem_map, mem_reverse]
  refine forall₂_congr fun p _ => ?_
  cases h : p.cause.severity <;> simp [Diagnostic.isError, Problem.diagnostic, h]

theorem sound_declareItems {items : Items} (hs : (checkItems items).Sound) :
    (declareItems items).Sound := by
  have hmain := checkItems_advances (mainPlace (declareItems items))
    (mainStart (declareItems items)) items
  have hclasses := checkClasses_advances (H := fun _ => True)
    (checkMain items (declareItems items)) items fun _ _ _ _ _ _ => trivial
  have hrest := checkRoutines_advances (H := fun _ => True) none [global]
    (items.foldl checkClass (checkMain items (declareItems items))) items
    fun _ _ _ _ _ _ => trivial
  exact ((hs.of_advances hrest).of_advances hclasses).of_subset hmain.problems

theorem accepted_ofItems {items : Items} (hf : ∀ item ∈ items, item.FormedItem Token.IsName)
    (hn : (idsIn items).Nodup) (hl : ((declarationsIn items).map (·.loc)).Nodup)
    (hs : (ofItems items).isSound) : Accepted (ofItems items) (declareItems items).table := by
  rw [isSound_ofItems] at hs
  have hids := (idsIn_perm items).nodup_iff.mp hn
  -- The states: `a` behind the declarations, `b` behind the statements at top level, `d` behind
  -- the classes.
  let a := declareItems items
  let b := checkMain items a
  let d := items.foldl checkClass b
  let c := ofItems items
  have hroutines : ∀ item ∈ items, ∀ name ∈ item.routineName? none,
      item.FormedRoutine Token.IsName := fun item hitem _ hname => (hf item hitem).routine hname
  have hmain : (mainStart a).Advances _ _ _ b := checkItems_advances (mainPlace a)
    (mainStart a) items
  have hsa : a.Sound := sound_declareItems hs
  have hknown : SignaturesKnown items a := Sound.of_declareItems hf hsa
  have hclasses : b.Advances (fun i => ∃ name : String, a.table.routines[name]? = some i) _ _ d :=
    checkClasses_advances b items fun item hitem name hname i hi =>
      routine_declared hknown hmain.routines
        (mem_flatMap.mpr ⟨item, hitem, by simp [Stmt.routineNames_eq, hname]⟩) hi
  have hrest : d.Advances (fun i => ∃ name : String, a.table.routines[name]? = some i) _ _
      (checkItems items) :=
    checkRoutines_advances none [SymbolTable.global] d items
      fun item hitem name hname i hi => routine_declared hknown
        (hclasses.routines.trans hmain.routines)
        (mem_flatMap.mpr ⟨item, hitem, by
          simp [Stmt.routineNames_eq, Option.mem_def.mp hname]⟩) hi
  have hsd : d.Sound := hs.of_advances hrest
  have hsb : b.Sound := hsd.of_advances hclasses
  have hfinal : (checkItems items).Final c (items.flatMap Stmt.routineIds) := fun _ _ => rfl
  have hfinald : d.Final c (items.flatMap Stmt.mainIds ++ items.flatMap Stmt.classIds) :=
    Final.of_advances (fun _ _ => rfl) hrest (disjoint_of_nodup_append hids)
  have hfinalb : b.Final c (items.flatMap Stmt.mainIds) :=
    hfinald.before hclasses hids.of_append_left
  obtain ⟨hvalid, hset, hagrees, hlookMain⟩ := checkMain_valid hknown.orderly
    (fits_mainPlace hknown.orderly) (agrees_mainStart hknown) (.refl a.table)
    hknown.declared hf hids.of_append_left.of_append_left hsb hfinalb
  have hready : Ready c a.table [] b :=
    ready_of_main hknown hmain hagrees (hclasses.trans hrest) rfl
  have hsettles := settles_of_main hknown hmain hset hagrees hready
  have hnames := (routineNames_perm items).nodup_iff.mp hknown.nodup
  obtain ⟨hvalidc, hreadyd, hlookClasses⟩ := checkClasses_valid hknown.orderly hsettles hready hf
    hknown.declared (by simpa using hnames.of_append_right) hids.of_append_left.of_append_right hsd
    hfinald.right
  obtain ⟨hvalidr, hreadye, hlookRoutines⟩ := checkRoutines_valid hknown.orderly hsettles.classes
    hreadyd hroutines (fun item hitem _ hname => (hknown.declared item hitem).routine hname)
    (by simpa using hnames) hids.of_append_right hs hfinal
  exact {
    collected := hknown.collected
    formed := hf
    nodup := hn
    placed := hl
    declared := hknown.declared
    settles := hsettles
    global := (hready.global hknown.orderly).symm.trans
      (hagrees.outer SymbolTable.global (by simp [mainSetting]))
    main := hvalid
    classes := hvalidc
    routines := hvalidr
    settled := fun i s hscope hi =>
      settled_of_ready hmain hagrees hready hreadye rfl hknown.collected.typed hscope hi
    lookups := congrArg₂ _ (congrArg₂ _ (hlookMain rfl) hlookClasses) hlookRoutines
    recorded := fun id hid => by
      have hid := fun h => hid ((idsIn_perm items).mem_iff.mpr h)
      have hlast : d.Advances (fun _ => True) _ _ (checkItems items) :=
        hrest.widen fun _ _ => trivial
      have htypes := ((hmain.widen fun _ _ => trivial).trans
        ((hclasses.widen fun _ _ => trivial).trans hlast)).types id (by simpa [or_assoc] using hid)
      have hstart : (mainStart a).types = ∅ := hknown.types
      rw [hstart] at htypes
      exact htypes.trans Std.TreeMap.getElem?_emptyc }

end Checked

theorem Parsed.ofSource_places (source : String) :
    (placesIn (Parsed.ofSource source).items).Nodup := by
  obtain ⟨locs, hperm, hsub⟩ := Parsed.ofTokens_placed (Lexed.ofSource source).tokens.toList
  refine hperm.nodup_iff.mp (hsub.nodup ?_)
  refine pairwise_map.mpr ((Lexed.ofSource_sorted source).imp ?_)
  exact Location.ne_of_lt

theorem Parsed.ofSource_placed (source : String) :
    ((declarationsIn (Parsed.ofSource source).items).map (·.loc)).Nodup :=
  (Parsed.ofSource_places source).sublist (spacedIn _).declared

theorem Parsed.ofSource_exits (source : String) :
    (((Parsed.ofSource source).items.flatMap Stmt.itemExits).map (·.loc)).Nodup := by
  refine (Parsed.ofSource_places source).sublist ?_
  rw [placesIn_eq_flatMap, map_flatMap]
  exact .flatMap_right _ fun item _ => item.itemExits_places

theorem Parsed.ofSource_opened
    (h : loc ∈ (Parsed.ofSource source).items.flatMap Grammar.routineLocs) : loc ≠ .none := by
  have hplace := (Grammar.routineLocs_places _).subset h
  obtain ⟨t, ht, rfl⟩ := mem_map.mp (List.Subperm.subset (Parsed.ofTokens_placed _) hplace)
  rw [Lexed.tokens_ofSource] at ht
  have hfirst := Token.le_loc_of_mem_tokensFrom ht
  intro hnone
  rw [hnone] at hfirst
  revert hfirst
  decide

theorem Checked.accepted_ofSource (source : String)
    (hs : (ofItems (Parsed.ofSource source).items).isSound) :
    Accepted (ofItems (Parsed.ofSource source).items)
      (declareItems (Parsed.ofSource source).items).table :=
  accepted_ofItems (Parsed.ofTokens_formed _ (Lexed.ofSource_isName source))
    (Parsed.ofTokens_nodup _) (Parsed.ofSource_placed source) hs

theorem Compilation.ofSource_ok (h : ofSource mode source = .ok c) :
    c.checked = Checked.ofItems (Parsed.ofSource source).items ∧
      (mode = .strict → c.checked.isSound) ∧ c.routines = Code.routines c.checked := by
  simp only [ofSource] at h
  split at h
  case isTrue => cases h
  case isFalse =>
    split at h
    case isTrue => cases h
    case isFalse hs =>
      cases h
      exact ⟨rfl, fun hm => by simpa [ofChecked, hm] using hs, rfl⟩

theorem Compilation.ofSource_strict (h : ofSource .strict source = .ok c) :
    c.checked = Checked.ofItems (Parsed.ofSource source).items ∧ c.checked.isSound ∧
      c.routines = Code.routines c.checked :=
  (ofSource_ok h).imp_right (And.imp_left (· rfl))

theorem Compilation.accepted (h : ofSource .strict source = .ok c) : ∃ t, Accepted c.checked t := by
  obtain ⟨hchecked, hsound, _⟩ := ofSource_strict h
  rw [hchecked] at hsound ⊢
  exact ⟨_, Checked.accepted_ofSource source hsound⟩

end Lumen
