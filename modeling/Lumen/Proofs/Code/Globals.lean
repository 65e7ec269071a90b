import Lumen.Proofs.Code.Routines
import Lumen.Proofs.Code.Statements
import Lumen.Proofs.Code.Values

namespace Lumen

open Typing List SymbolTable

def Checked.globals (c : Checked) : List Declaration :=
  c.items.filterMap Stmt.declaration?

theorem Checked.globals_subset (c : Checked) : c.globals ⊆ declarationsIn c.items := by
  intro d hd
  obtain ⟨item, hi, hd⟩ := mem_filterMap.mp hd
  exact Stmt.mem_declarationsIn hi (Stmt.declaration_mem hd)

def SymbolTable.Tells (t : SymbolTable) (c : Checked) (d : Declaration) : Prop :=
  ∃ type, t.inScope? global d.name = some ⟨d.name, type, .global, d.isConst, .variable, d.loc⟩ ∧
    (type ≠ .error → type = d.typeIn c)

theorem GlobalDeclared.tells (h : GlobalDeclared t d) (c : Checked) : t.Tells c d := by
  refine ⟨_, h.symbol, fun hne => ?_⟩
  rw [Declaration.typeIn]
  cases hw : d.type
  case none => simp [hw] at hne
  case some w => rfl

variable {t' : SymbolTable} {item : Stmt}

namespace Accepted

variable {c : Checked} {t : SymbolTable} {d d' : Declaration}

section

variable (h : Accepted c t)

include h

theorem globalDeclared (hd : d ∈ c.globals) : GlobalDeclared t d := by
  obtain ⟨item, hi, hd⟩ := mem_filterMap.mp hd
  exact (h.declared item hi).global hd

theorem eq_of_name (hd : d ∈ c.globals) (hd' : d' ∈ c.globals)
    (hn : d.name = d'.name) : d = d' := by
  have hsymbol := (h.globalDeclared hd).symbol
  rw [hn, (h.globalDeclared hd').symbol] at hsymbol
  have hloc : d.loc = d'.loc := (congrArg Symbol.loc (Option.some.inj hsymbol)).symm
  exact inj_on_of_nodup_map h.placed (c.globals_subset hd) (c.globals_subset hd') hloc

theorem global_of_kind (ht : t.Settles t')
    (hs : t'.inScope? SymbolTable.global name = some symbol) (hk : symbol.kind = .variable) :
    ∃ d ∈ c.globals, d.name = name ∧ d.loc = symbol.loc ∧ d.isConst = symbol.isConst := by
  obtain ⟨old, hold, heq⟩ := ht.origin hs
  rw [heq] at hk ⊢
  obtain ⟨-, item, hi, d, hd, hname⟩ := (h.collected.sourced hold).global hk
  have hglobal : d ∈ c.globals := mem_filterMap.mpr ⟨item, hi, hd⟩
  obtain rfl : d.name = name := hname.trans (h.orderly.symbol h.orderly.global hold).1
  cases hold.symm.trans (h.globalDeclared hglobal).symbol
  exact ⟨d, hglobal, rfl, rfl, rfl⟩

theorem tells_settle (hi : item ∈ c.items) (hd : d ∈ c.globals)
    (ht : t'.Tells c d) : (t'.settle c item).Tells c d := by
  cases item <;> try exact ht
  case «variable» loc name type init =>
    cases type <;> cases init <;> try exact ht
    case none.some init =>
      obtain ⟨type, hsymbol, htype⟩ := ht
      rw [settle, Tells, inScope?_retype, hsymbol]
      split
      case isTrue e =>
        have hsame := h.eq_of_name hd (mem_filterMap.mpr ⟨_, hi, rfl⟩) e.2.symm
        rw [hsame]
        exact ⟨_, rfl, fun _ => rfl⟩
      case isFalse => exact ⟨type, rfl, htype⟩

theorem tells_settleAll (hi : items ⊆ c.items) (hd : d ∈ c.globals)
    (ht : t'.Tells c d) : (t'.settleAll c items).Tells c d := by
  induction items generalizing t'
  case nil => exact ht
  case cons item items ih =>
    obtain ⟨hfirst, hrest⟩ := cons_subset.mp hi
    exact ih hrest (h.tells_settle hfirst hd ht)

-- If every expression has a type, so has every global: that of its declaration.
theorem global_symbol (hend : (t.settleAll c c.items).Typed [])
    (hd : d ∈ c.globals) :
    c.symbols.inScope? SymbolTable.global d.name =
      some ⟨d.name, d.typeIn c, .global, d.isConst, .variable, d.loc⟩ ∧ d.typeIn c ≠ .error := by
  obtain ⟨type, hsymbol, htype⟩ :=
    h.tells_settleAll (List.Subset.refl _) hd ((h.globalDeclared hd).tells c)
  rw [← inScope?_congr h.global] at hsymbol
  have hne : type ≠ .error := h.type_ne_error hend (.inl rfl) hsymbol
  rw [← htype hne]
  exact ⟨hsymbol, hne⟩

end

end Accepted

namespace Code

variable {c : Checked} {t : SymbolTable}

theorem global_isName (h : Accepted c t) (hd : d ∈ c.globals) : Token.IsName d.name := by
  obtain ⟨item, hi, hd⟩ := mem_filterMap.mp hd
  have hf := h.formed item hi
  cases item <;> cases hd <;> exact hf.1

def globalStep (c : Checked) (f : Frame) (item : Stmt) : Frame :=
  match item.declaration? with
  | none => f
  | some d =>
    match c.symbols.qualified? d.name with
    | some symbol =>
      if symbol.loc = d.loc ∧ ¬symbol.type.isError then (f.declare d.name symbol.type).2 else f
    | none => f

theorem mainFrame_eq_foldl (c : Checked) :
    mainFrame c = c.items.foldl (globalStep c) ⟨.ofReceiver none, 0⟩ := by
  rw [mainFrame]
  congr 1
  funext f item
  cases item <;> rfl

theorem foldl_globalStep (h : Accepted c t) (hend : (t.settleAll c c.items).Typed [])
    (hi : items ⊆ c.items) (f : Frame) :
    items.foldl (globalStep c) f = (f.declareAll c (items.filterMap Stmt.declaration?)).2 := by
  induction items generalizing f
  case nil => rfl
  case cons item items ih =>
    obtain ⟨hfirst, hrest⟩ := cons_subset.mp hi
    rw [foldl_cons, ih hrest, filterMap_cons, globalStep]
    cases hitem : item.declaration?
    case none => rfl
    case some d =>
      have hd : d ∈ c.globals := mem_filterMap.mpr ⟨item, hfirst, hitem⟩
      obtain ⟨hsymbol, hne⟩ := h.global_symbol hend hd
      rw [← qualified?_global _ (global_isName h hd).dot_notMem] at hsymbol
      have hknown : ¬(d.typeIn c).isError := fun he => hne (Ty.isError_iff.mp he)
      simp only [hsymbol, hknown]
      rfl

theorem mainFrame_eq (h : Accepted c t) (hend : (t.settleAll c c.items).Typed []) :
    mainFrame c = (Frame.declareAll c ⟨.ofReceiver none, 0⟩ c.globals).2 :=
  (mainFrame_eq_foldl c).trans (foldl_globalStep h hend (List.Subset.refl _) _)

structure Frame.AtTop (f : Frame) (c : Checked) (given : List Allotment) : Prop where
  slot   : ∀ d ∈ c.globals, ∃ n, f.slots.find? d.name = some n ∧
    ⟨d.name, d.loc, some n⟩ ∈ given ∧ ⟨d.name, n, d.typeIn c⟩ ∈ f.slots.locals
  only   : ∀ (name : String) (n : Nat), f.slots.find? name = some n →
    ∃ d ∈ c.globals, d.name = name
  next   : f.slots.next = slotWidths (f.slots.locals.map (·.type))
  blocks : f.slots.blocks = []

def Frame.layout (f : Frame) (c : Checked) (ds : List Declaration) : Layout where
  base := f.slots.visible
  front := f.slots.locals
  declared := ds.map (·.typed c)

theorem types_rowsFrom (next : Nat) (vs : List (String × Ty)) :
    (rowsFrom next vs).map (·.type) = vs.map (·.2) := by
  induction vs generalizing next
  case nil => rfl
  case cons v vs ih => rw [rowsFrom, map_cons, map_cons, ih]

theorem Layout.widths_rows (l : Layout) :
    slotWidths (l.rows.map (·.type)) = l.cell l.declared.length := by
  rw [rows, map_append, slotWidths_append, types_rowsFrom, cell, take_length, start]

theorem Covers.blocks_eq_nil (h : Covers blocks [bindings]) : blocks = [] := by
  cases blocks
  case nil => rfl
  case cons block blocks =>
    have hrest := h.2
    cases blocks <;> cases hrest

variable {f : Frame}

theorem Layout.Fits.last {l : Layout} (h : l.Fits f names) (hn : names.next = l.declared.length) :
    f.slots.locals = l.rows ∧ f.slots.next = slotWidths (f.slots.locals.map (·.type)) := by
  have hlocals : f.slots.locals = l.rows := by
    rw [h.locals, hn, take_length, rows]
  rw [hlocals, l.widths_rows, h.next, hn]
  exact ⟨rfl, rfl⟩

variable {given : List Allotment}

theorem mainFrame_atTop (h : Accepted c t) (hend : (t.settleAll c c.items).Typed [])
    (hfront : (loweredMain c).front ⊆ given) (hgiven : ∀ a ∈ given, a.slot.isSome) :
    (mainFrame c).AtTop c given := by
  set l := Layout.ofDeclarations c none c.globals
  have hstart : l.Fits ⟨.ofReceiver none, 0⟩ .empty := Layout.fits_ofDeclarations none c.globals
  have hlists : l.Lists c .empty c.globals := prefix_rfl
  obtain ⟨hfits, hown, -⟩ := hstart.declareAll (Names.All.empty _) hlists
    (fun d hd => global_isName h hd) hfront hgiven
  rw [← mainFrame_eq h hend] at hfits
  set names := Names.empty.declareAll c.globals
  have hne : Names.empty.blocks ≠ [] := by simp [Names.empty]
  have hnext : names.next = l.declared.length := by
    rw [Names.declareAll_next hne]
    simp [l, Layout.ofDeclarations, Names.empty]
  obtain ⟨hlocals, hwidths⟩ := hfits.last hnext
  have hdeclared : names.All (·.declared ∈ c.globals) :=
    (Names.All.empty _).declareAll fun d hd _ _ => hd
  have hbase : l.base = ∅ := rfl
  refine ⟨fun d hd => ?_, fun name n hn => ?_, hwidths, ?_⟩
  · obtain ⟨b, hb⟩ := Option.isSome_iff_exists.mp
      (Names.find?_declareAll hne c.globals (.inr ⟨d, hd, rfl⟩))
    have hsame : b.declared = d :=
      h.eq_of_name (hdeclared d.name b hb) hd (Names.name_of_find? hb)
    have howned := hown d.name b hb
    refine ⟨l.cell b.cell, ?_, hsame ▸ howned.given, ?_⟩
    · rw [hfits.find?, l.find?_slots, hb]
      rfl
    · rw [hlocals, ← hsame]
      exact l.listed_rows _ _ howned.row
  · rw [hfits.find?, l.find?_slots, hbase] at hn
    cases hb : names.find? name
    case none => simp [hb] at hn
    case some b => exact ⟨b.declared, hdeclared name b hb, Names.name_of_find? hb⟩
  · obtain ⟨bindings, outer, hb⟩ := exists_cons_of_ne_nil hfits.names_ne_nil
    have htail : names.blocks.tail = [] := Names.declareAll_tail _ _
    have hblocks := hfits.blocks
    rw [hb, tail_cons] at htail
    rw [hb, htail] at hblocks
    exact hblocks.blocks_eq_nil

theorem Frame.AtTop.fits (h : f.AtTop c given) (ds : List Declaration) :
    (f.layout c ds).Fits f .empty where
  find? := rfl
  locals := by simp [layout, Names.empty, rowsFrom]
  next := by simp [h.next, Layout.cell, Layout.start, layout, Names.empty, slotWidths]
  blocks := by
    rw [h.blocks]
    trivial

theorem Frame.AtTop.behind (h : f.AtTop c given)
    (hf : (f.layout c ds).Fits f' (Names.empty.skip ds.length)) :
    f'.AtTop c given ∧ f'.slots.find? = f.slots.find? ∧
      f'.slots.locals = (f.layout c ds).rows := by
  have hfind : f'.slots.find? = f.slots.find? := by
    funext name
    rw [hf.find?, Layout.find?_slots]
    rfl
  obtain ⟨hlocals, hwidths⟩ := hf.last (by simp [Frame.layout, Names.empty])
  refine ⟨⟨fun d hd => ?_, fun name n hn => ?_, hwidths, hf.blocks.blocks_eq_nil⟩, hfind, hlocals⟩
  · obtain ⟨n, hn, hgiven, hrow⟩ := h.slot d hd
    refine ⟨n, hfind ▸ hn, hgiven, ?_⟩
    rw [hlocals]
    exact mem_append_left _ hrow
  · rw [hfind] at hn
    exact h.only name n hn

structure Frame.Tops (f : Frame) (c : Checked) (k : Ledger) (made : List Instruction × Frame)
    (pieces : List Piece) : Prop where
  atTop  : made.2.AtTop c k.given
  find?  : made.2.slots.find? = f.slots.find?
  locals : f.slots.locals ⊆ made.2.slots.locals
  serves : ∃ ds, (f.layout c ds).rows ⊆ made.2.slots.locals ∧
    ∀ p ∈ pieces, ∀ q ∈ p.looked, (f.layout c ds).Serves c k q

theorem Frame.AtTop.declare_eq (hf : f.AtTop c given) (hd : d ∈ c.globals) (type : Ty) :
    (mainSite c).declare f d.name type = (f.slots.find? d.name, f) := by
  obtain ⟨n, hn, -⟩ := hf.slot d hd
  simp [Site.declare, hn, mainSite, Slots.depth, hf.blocks]

theorem Frame.AtTop.stmt_global {s : Stmt} (hf : f.AtTop c given) (hs : s.declaration? = some d)
    (hd : d ∈ c.globals) : ((mainSite c).stmt none f s).2 = f := by
  cases s <;> cases hs
  case «variable» loc name type init =>
    rw [Site.stmt, Site.declaration, hf.declare_eq hd]
    cases init <;> rfl
  case constant loc name type value => rw [Site.stmt, Site.declaration, hf.declare_eq hd]

theorem global_tops {k : Ledger} {s : Stmt} (hf : f.AtTop c k.given) (hs : s.declaration? = some d)
    (hd : d ∈ c.globals) (hlooked : ∀ q ∈ s.evaluated .empty, k.looked q) :
    f.Tops c k ((mainSite c).stmt none f s) [⟨[], mainSite c, none, f, s⟩] := by
  have hserves (es : List Expr) (hlooked : ∀ q ∈ es.map (Names.empty, ·), k.looked q) :
      ∀ q ∈ es.map (f.slots, ·), (f.layout c []).Serves c k q :=
    Layout.serves_all es rfl (Names.All.empty _) hlooked
  have hrows : (f.layout c []).rows ⊆ f.slots.locals := by
    simp [Layout.rows, Frame.layout, rowsFrom]
  have hframe := hf.stmt_global hs hd
  refine ⟨by rwa [hframe], by rw [hframe], by rw [hframe]; exact List.Subset.refl _, [],
    by rwa [hframe], ?_⟩
  rw [forall_mem_singleton]
  cases s <;> cases hs
  case «variable» loc name type init => exact hserves init.toList hlooked
  case constant loc name type value => exact hserves [value] hlooked

theorem item_faultless (hc : t.isClass = c.symbols.isClass) (hv : item.ValidItem c t)
    (hs : item.isStatement) (hn : ∀ q ∈ item.evaluated .empty, c.isFaulty q.2 = false) :
    c.isFaultyStmt item = false := by
  cases hd : item.declaration?
  case some d => exact isFaultyStmt_of_fills (g := c.mainSetting t) hc hd (hv.fills c hd) hn
  case none =>
    exact isFaultyStmt_eq_false (g := c.mainSetting t) hc .empty false item (hv.valid hs hd) hn

theorem item_tops (h : Accepted c t) {k : Ledger} (hc : t'.isClass = c.symbols.isClass)
    (hi : item ∈ c.items) (hs : item.isStatement) (hv : item.ValidItem c t') (hk : k.Complete c)
    (hf : f.AtTop c k.given) (hlooked : ∀ q ∈ item.evaluated .empty, k.looked q)
    (hgiven : ∀ p ∈ ⟨[], mainSite c, none, f, item⟩ :: (mainSite c).innerPieces none f item,
      p.given ⊆ k.given) :
    f.Tops c k ((mainSite c).stmt none f item)
      (⟨[], mainSite c, none, f, item⟩ :: (mainSite c).innerPieces none f item) := by
  have hformed := h.formed item hi
  cases hd : item.declaration?
  case some d =>
    have htops := global_tops hf hd (mem_filterMap.mpr ⟨item, hi, hd⟩) hlooked
    cases item <;> cases hd <;> exact htops
  case none =>
    have hparts : item.Formed Token.IsName := by
      cases item <;> first | exact hformed | cases hs
    have hmade : (f.layout c item.declarations).Makes c k f ((mainSite c).stmt none f item)
        _ _ _ _ :=
      stmt_makes (g := c.mainSetting t') hc hk .empty false none f item hparts
        (hv.valid hs hd) hlooked prefix_rfl (by simp [hd]) (hf.fits _) (Names.All.empty _) hgiven
    have hfits := hmade.fits
    rw [Names.after, hd] at hfits
    obtain ⟨htop, hfind, hlocals⟩ := hf.behind hfits
    refine ⟨htop, hfind, ?_, item.declarations, ?_, hmade.serves⟩
    · rw [hlocals]
      exact subset_append_left _ _
    · rw [hlocals]
      exact List.Subset.refl _

end Code
-- A program that can be evaluated, where nothing is used ahead and each declaration has a slot.
theorem Compilation.exists_known {Q : Compilation → Prop}
    (h : (ofSource .strict source).toOption.any fun c => !usesAhead c.checked.items &&
      (Code.lowered c.checked).all fun r => r.given.all (·.slot.isSome))
    (hq : ∀ c, ofSource .strict source = .ok c → ¬c.checked.Unknown →
      (∀ r ∈ Code.lowered c.checked, ∀ a ∈ r.given, a.slot.isSome) → Q c) :
    ∃ c, ofSource .strict source = .ok c ∧ ¬c.checked.Unknown ∧
      (∀ r ∈ Code.lowered c.checked, ∀ a ∈ r.given, a.slot.isSome) ∧ Q c := by
  obtain ⟨c, hc, hall⟩ := exists_of_toOption h
  obtain ⟨t, haccepted⟩ := accepted hc
  rw [Bool.and_eq_true, Bool.not_eq_true'] at hall
  have hk : ¬c.checked.Unknown := (haccepted.known hall.1).1
  have hs : ∀ r ∈ Code.lowered c.checked, ∀ a ∈ r.given, a.slot.isSome := by
    simpa using hall.2
  exact ⟨c, hc, hk, hs, hq c hc hk hs⟩

end Lumen
