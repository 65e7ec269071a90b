import Lumen.Proofs.Typing.Signatures

namespace Lumen

open Typing List SymbolTable Analysis

namespace SymbolTable

def settle (t : SymbolTable) (c : Checked) : Stmt → SymbolTable
  | .variable _ name none (some init) => t.retype global name (c.typeOf init)
  | _ => t

theorem classes_settle (t : SymbolTable) (c : Checked) (item : Stmt) :
    (t.settle c item).classes = t.classes := by
  rw [settle.eq_def]
  split <;> rfl

def settleAll (t : SymbolTable) (c : Checked) (items : Items) : SymbolTable :=
  items.foldl (·.settle c) t

-- What the check of bodies leaves of the table in which the declarations were collected: some
-- globals have a type that had none before.
structure Settles (t t' : SymbolTable) : Prop where
  known   : ∀ (name : String) (symbol : Symbol), t.inScope? global name = some symbol →
    ∃ type, t'.inScope? global name = some { symbol with type } ∧
      (symbol.type ≠ .error → type = symbol.type)
  unknown : ∀ name : String, t.inScope? global name = none → t'.inScope? global name = none
  members : ∀ i : Nat, t.kindOf? i = some .classBody → t'.scopes[i]? = t.scopes[i]?
  classes : t'.classes = t.classes

theorem Settles.refl (t : SymbolTable) : t.Settles t where
  known _ symbol h := ⟨symbol.type, h, fun _ => rfl⟩
  unknown _ h := h
  members _ _ := rfl
  classes := rfl

theorem inScope?_retype (t : SymbolTable) (i j : Nat) (name n : String) (type : Ty) :
    (t.retype i name type).inScope? j n =
      if i = j ∧ name = n then (t.inScope? j n).map ({ · with type }) else t.inScope? j n := by
  simp only [inScope?, scopes_retype]
  by_cases hi : i = j
  · subst hi
    cases t.scopes[i]?
    case none => simp
    case some s => simp [Scope.get?_retype]
  · simp [hi]

variable {t t' : SymbolTable}

section

variable (h : t.Settles t')

include h

theorem Settles.settle {item : Stmt} (ho : t.Orderly) (hd : item.Declared t) :
    t.Settles (t'.settle c item) := by
  cases item <;> try exact h
  case «variable» loc name type init =>
    cases type <;> cases init <;> try exact h
    case none.some init =>
      have hpending : t.inScope? global name =
          some ⟨name, .error, .global, false, .variable, loc⟩ := hd.symbol
      refine ⟨fun n symbol hs => ?_, fun n hn => ?_, fun i hi => ?_, h.classes⟩
      · obtain ⟨type, hs', hkeep⟩ := h.known n symbol hs
        simp only [SymbolTable.settle, inScope?_retype, hs', true_and]
        split
        case isTrue e =>
          subst e
          cases hpending.symm.trans hs
          exact ⟨c.typeOf init, rfl, fun hne => absurd rfl hne⟩
        case isFalse => exact ⟨type, rfl, hkeep⟩
      · simp [SymbolTable.settle, inScope?_retype, h.unknown n hn]
      · have hne : global ≠ i := by
          rintro rfl
          cases ho.global.symm.trans hi
        simp only [SymbolTable.settle, scopes_retype, if_neg hne]
        exact h.members i hi

theorem Settles.origin (hs : t'.inScope? global name = some symbol) :
    ∃ old, t.inScope? global name = some old ∧ symbol = { old with type := symbol.type } := by
  cases hold : t.inScope? global name
  case none =>
    rw [h.unknown name hold] at hs
    cases hs
  case some old =>
    obtain ⟨type, hs', -⟩ := h.known name old hold
    cases hs.symm.trans hs'
    exact ⟨old, rfl, rfl⟩

theorem Settles.symbol {name : String} {symbol : Symbol} (ho : t.Orderly)
    (hs : t'.inScope? global name = some symbol) :
    symbol.name = name ∧ symbol.home = .global ∧ Scope.Kind.global.Suits symbol.kind := by
  obtain ⟨old, hold, heq⟩ := h.origin hs
  rw [heq]
  obtain ⟨hname, hhome, hsuits⟩ := ho.symbol ho.global hold
  exact ⟨hname, hhome, hsuits⟩

theorem Settles.written (hd : GlobalDeclared t d) :
    ∃ type, t'.inScope? global d.name = some ⟨d.name, type, .global, d.isConst, .variable, d.loc⟩ ∧
      ∀ w ∈ d.type, type = Ty.ofName w := by
  obtain ⟨type, hs, hkeep⟩ := h.known _ _ hd.symbol
  refine ⟨type, hs, fun w hw => ?_⟩
  have hw' : (d.type.map Ty.ofName).getD .error = Ty.ofName w := by simp [Option.mem_def.mp hw]
  rw [hw'] at hkeep
  exact hkeep (by cases w <;> simp [Ty.ofName])

end

end SymbolTable

namespace Checked

variable (c : Checked)

def mainSetting (t : SymbolTable) : Setting :=
  ⟨c, t, [global], none, .void⟩

end Checked

section Valid

variable (c : Checked)

def Stmt.ValidItem (t : SymbolTable) : Stmt → Prop
  | .classDef .. | .routine .. => True
  | .variable loc name type init =>
    (c.mainSetting t).Fills .empty ⟨name, loc, type, init, false, false⟩
  | .constant loc name type value =>
    (c.mainSetting t).Fills .empty ⟨name, loc, some type, some value, true, false⟩
  | s => s.Valid (c.mainSetting t) .empty false

theorem Stmt.ValidItem.fills {item : Stmt} (h : item.ValidItem c t)
    (hd : item.declaration? = some d) : (c.mainSetting t).Fills .empty d := by
  cases item <;> cases hd <;> exact h

def ValidMain (t : SymbolTable) : Items → Prop
  | [] => True
  | item :: rest => item.ValidItem c t ∧ ValidMain (t.settle c item) rest

def mainLookups (t : SymbolTable) : Items → List Lookup
  | [] => []
  | item :: rest =>
    (item.evaluated .empty).map ((c.mainSetting t).lookup toplevelName) ++
      mainLookups (t.settle c item) rest

end Valid

def Stmt.isStatement : Stmt → Bool
  | .classDef .. | .routine .. => false
  | _ => true

def Stmt.mainIds : Stmt → List Nat
  | .classDef .. | .routine .. => []
  | s => s.ids

def Stmt.mainExits : Stmt → List Exit
  | .classDef .. | .routine .. => []
  | s => s.exits false

namespace Typing

theorem Analysis.Advances.retype {H : Nat → Prop} (a : Analysis) (hs : H scope) (name : String)
    (type : Ty) : Advances H [] [] a { a with table := a.table.retype scope name type } :=
  { refl (H := H) a with
    size := by simp
    scopes := fun i hi => by
      have hne : scope ≠ i := fun e => hi (e ▸ hs)
      simp [hne]
    outline := fun i => by
      by_cases e : scope = i <;> simp [e, Function.comp_def] }

section Main

variable {W : String → Prop} (place : Place)

theorem checkGlobal_advances {H : Nat → Prop} (hH : H global) (a : Analysis)
    (name : String) (type : Option TypeName) (init : Option Expr) (loc : Location) :
    a.Advances H (idsOfOption init) [] (checkGlobal place a name type init loc) := by
  simp only [checkGlobal]
  split
  case h_1 => exact (Advances.refl a).more (nil_subset _)
  case h_2 symbol hsymbol =>
    split
    case isTrue =>
      cases init
      case none => exact .refl a
      case some init => exact .infer place a init
    case isFalse =>
      cases init
      case none => exact .reportIf a _ _ loc
      case some init =>
        have hvalue : a.Advances H init.ids [] (a.inferInitial place type init).2 :=
          .inferInitial place a type init
        cases type
        case none => exact (hvalue.next (.variableType _ name _ loc)).next (.retype _ hH name _)
        case some type => exact (hvalue.next (.reportIf _ _ _ loc)).next (.reportIf _ _ _ loc)

theorem checkItem_advances (a : Analysis) (item : Stmt) :
    a.Advances (fun i => i = global ∨ i = place.home) item.mainIds item.mainExits
      (checkItem place a item) := by
  cases item
  case classDef | routine => exact .refl a
  case «variable» loc name type init =>
    exact checkGlobal_advances place (.inl rfl) a name type init loc
  case constant loc name type value =>
    exact checkGlobal_advances place (.inl rfl) a name (some type) (some value) loc
  all_goals exact (checkStmt_advances place false a _).widen fun i => .inr

theorem checkItems_advances (a : Analysis) (items : Items) :
    a.Advances (fun i => i = global ∨ i = place.home) (items.flatMap Stmt.mainIds)
      (items.flatMap Stmt.mainExits) (items.foldl (checkItem place) a) := by
  induction items generalizing a
  case nil => exact .refl a
  case cons item items ih => exact (checkItem_advances place a item).trans (ih _)

variable {place} {c : Checked} {t₀ t : SymbolTable} {a : Analysis}

theorem agrees_retype (hp : place.home ≠ global)
    (h : (c.mainSetting t).Agrees place a names) (name : String) (type : Ty) :
    (c.mainSetting (t.retype global name type)).Agrees place
      { a with table := a.table.retype global name type } names where
  home := by
    obtain ⟨s, hs, hm⟩ := h.home
    exact ⟨s, by simpa [hp.symm] using hs, hm⟩
  outer i hi := by
    have hi' := h.outer i hi
    simp only [Checked.mainSetting, scopes_retype] at hi' ⊢
    rw [hi']
  members n i hi := by
    have hi' := h.members n i hi
    simp only [Checked.mainSetting, scopes_retype] at hi' ⊢
    rw [hi']
  classes := h.classes

section

variable (hp : (c.mainSetting t).Fits place)

include hp

section

variable (h : (c.mainSetting t).Agrees place a .empty)

include h

theorem checkGlobal_valid
 (hs₀ : t₀.Settles t) (hd : GlobalDeclared t₀ d)
    (hf : FormedOption W d.init) (hsome : d.type.isSome ∨ d.init.isSome)
    (hn : (idsOfOption d.init).Nodup) (hs : (checkGlobal place a d.name d.type d.init d.loc).Sound)
    (hk : (checkGlobal place a d.name d.type d.init d.loc).Final c (idsOfOption d.init)) :
    (c.mainSetting t).Fills .empty d ∧
      (c.mainSetting (match d.type, d.init with
        | none, some init => t.retype global d.name (c.typeOf init)
        | _, _ => t)).Agrees place (checkGlobal place a d.name d.type d.init d.loc) .empty := by
  have hne : place.home ≠ global := by
    intro e
    exact hp.outer (by simp [Checked.mainSetting, e])
  obtain ⟨type, hsymbol, hwritten⟩ := hs₀.written hd
  have hscope : a.table.scopes[global]? = t.scopes[global]? :=
    h.outer global (by simp [Checked.mainSetting])
  rw [← inScope?_congr hscope] at hsymbol
  have hknown : ∀ w ∈ d.type, writtenType t.isClass w = .ok (Ty.ofName w) := by
    rw [isClass_congr hs₀.classes]
    exact hd.known
  have hglobal : checkGlobal place a d.name d.type d.init d.loc = match d.type, d.init with
      | none, some init => { (checkVariable place a d.name d.type d.init d.loc).2 with
          table := (checkVariable place a d.name d.type d.init d.loc).2.table.retype
            global d.name (checkVariable place a d.name d.type d.init d.loc).1 }
      | _, _ => (checkVariable place a d.name d.type d.init d.loc).2 := by
    obtain ⟨name, loc, written, init, isConst, isParam⟩ := d
    cases written
    case none =>
      cases init
      case none => simp at hsome
      case some init => simp [checkGlobal, checkVariable, hsymbol]
    case some w =>
      have htype : a.typeOf w loc = (Ty.ofName w, a) := by
        simp [typeOf, h.isClass_eq, Checked.mainSetting, hknown w rfl]
      have hw := hwritten w rfl
      cases init <;> simp [checkGlobal, checkVariable, hsymbol, htype, hw]
  rw [hglobal] at hs hk ⊢
  have hs' : (checkVariable place a d.name d.type d.init d.loc).2.Sound := by
    split at hs <;> exact hs
  have hk' : (checkVariable place a d.name d.type d.init d.loc).2.Final c
      (idsOfOption d.init) := by
    split at hk <;> exact hk
  obtain ⟨hfills, htype, hagree⟩ := h.checkVariable hp hf hsome hn hs' hk'
  refine ⟨hfills, ?_⟩
  split
  case h_1 init hw hi =>
    have hinit : d.typeIn (c.mainSetting t).program = c.typeOf init := by
      simp [Declaration.typeIn, hw, hi, Checked.mainSetting]
    rw [htype, hinit]
    exact agrees_retype hne hagree d.name _
  case h_2 => exact hagree

theorem globalLookups_eq
 (hs₀ : t₀.Settles t) (hd : GlobalDeclared t₀ d) :
    globalLookups place a d.name d.init =
      (d.init.toList.map (Names.empty, ·)).map ((c.mainSetting t).lookup place.routine) := by
  obtain ⟨type, hsymbol, -⟩ := hs₀.written hd
  have hscope : a.table.scopes[global]? = t.scopes[global]? :=
    h.outer global (by simp [Checked.mainSetting])
  rw [← inScope?_congr hscope] at hsymbol
  rw [globalLookups, hsymbol]
  exact h.lookups_eq hp d.init

theorem checkItem_valid {item : Stmt}
 (hs₀ : t₀.Settles t) (hd : item.Declared t₀)
    (hf : item.FormedItem W) (hn : item.mainIds.Nodup) (hs : (checkItem place a item).Sound)
    (hk : (checkItem place a item).Final c item.mainIds) :
    item.ValidItem c t ∧
      (c.mainSetting (t.settle c item)).Agrees place (checkItem place a item) .empty ∧
      itemLookups place a item =
        (item.evaluated .empty).map ((c.mainSetting t).lookup place.routine) := by
  cases item
  case classDef | routine => exact ⟨trivial, h, rfl⟩
  case «variable» loc name type init =>
    obtain ⟨hfills, hagree⟩ := checkGlobal_valid (d := ⟨name, loc, type, init, false, false⟩)
      hp h hs₀ hd hf.2.2.1 hf.2.2.2 hn hs hk
    refine ⟨hfills, ?_, globalLookups_eq hp h hs₀ hd⟩
    cases type <;> cases init <;> exact hagree
  case constant loc name type value =>
    obtain ⟨hfills, hagree⟩ := checkGlobal_valid
      (d := ⟨name, loc, some type, some value, true, false⟩) hp h hs₀ hd hf.2.2 (.inl rfl) hn hs hk
    exact ⟨hfills, hagree, globalLookups_eq hp h hs₀ hd⟩
  all_goals
    obtain ⟨hvalid, hagree, hlook⟩ := checkStmt_valid hp false a .empty _ hf hn h hs hk
    exact ⟨hvalid, ⟨hagree.home, hagree.outer, hagree.members, hagree.classes⟩, hlook⟩

end

theorem fits_settle :
    (c.mainSetting (t.settle c item)).Fits place where
  scopes := hp.scopes
  receiver? := hp.receiver?
  returns := hp.returns
  outer := hp.outer
  classes := by
    simp only [Checked.mainSetting, t.classes_settle c item]
    exact hp.classes

end

theorem checkMain_valid (ho : t₀.Orderly) (hp : (c.mainSetting t).Fits place)
    (h : (c.mainSetting t).Agrees place a .empty) (hs₀ : t₀.Settles t)
    (hd : ∀ item ∈ items, item.Declared t₀) (hf : ∀ item ∈ items, item.FormedItem W)
    (hn : (items.flatMap Stmt.mainIds).Nodup) (hs : (items.foldl (checkItem place) a).Sound)
    (hk : (items.foldl (checkItem place) a).Final c (items.flatMap Stmt.mainIds)) :
    ValidMain c t items ∧ t₀.Settles (t.settleAll c items) ∧
      (c.mainSetting (t.settleAll c items)).Agrees place (items.foldl (checkItem place) a)
        .empty ∧
      (place.routine = toplevelName →
        lookupsAlong (checkItem place) (itemLookups place) a items = mainLookups c t items) := by
  induction items generalizing t a
  case nil => exact ⟨trivial, hs₀, h, fun _ => rfl⟩
  case cons item items ih =>
    obtain ⟨hdi, hdr⟩ := forall_mem_cons.mp hd
    obtain ⟨hfi, hfr⟩ := forall_mem_cons.mp hf
    rw [flatMap_cons] at hn hk
    rw [foldl_cons] at hs hk ⊢
    have hadv := checkItems_advances place (checkItem place a item) items
    obtain ⟨hvalid, hagree, hlook⟩ := checkItem_valid hp h hs₀ hdi hfi hn.of_append_left
      (hs.of_advances hadv) (hk.before hadv hn)
    obtain ⟨hrest, hsettles, hagree, hlooks⟩ := ih (fits_settle hp) hagree
      (hs₀.settle ho hdi) hdr hfr hn.of_append_right hs hk.right
    refine ⟨⟨hvalid, hrest⟩, hsettles, hagree, fun hname => ?_⟩
    rw [lookupsAlong, mainLookups, hlook, hlooks hname, hname]

end Main

end Typing
end Lumen
