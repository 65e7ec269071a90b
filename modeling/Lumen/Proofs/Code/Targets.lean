import Lumen.Proofs.Code.Linking

namespace Lumen

open Typing List

section Lookups

variable {c : Checked} {t : SymbolTable}

theorem ids_mainLookups (hf : ∀ item ∈ items, item.FormedItem Token.IsName) (t : SymbolTable) :
    (mainLookups c t items).flatMap (·.expr.ids) = items.flatMap Stmt.mainIds := by
  induction items generalizing t
  case nil => rfl
  case cons item items ih =>
    obtain ⟨hfirst, hrest⟩ := forall_mem_cons.mp hf
    rw [mainLookups, flatMap_append, flatMap_map, ih hrest, flatMap_cons,
      (Stmt.mainEvaluates hfirst).ids]
    rfl

theorem Stmt.ids_routineLookups {item : Stmt} (hf : item.FormedRoutine Token.IsName)
    (className : Option String) :
    (item.routineLookups c className).flatMap (·.expr.ids) = item.ids := by
  cases item <;> try exact hf.elim
  case routine loc name params returns isStatic body =>
    rw [Stmt.routineLookups, flatMap_map, Stmt.ids,
      (evaluatesIn (.ofParams params) body hf.2.2.2).ids]
    rfl

theorem ids_fieldLookup (className : String) (f : Field Expr) :
    (fieldLookup c className f).flatMap (·.expr.ids) = idsOfField f := by
  rw [fieldLookup, flatMap_map, idsOfField, ids_atNames ⟨[], 0⟩, flatMap_map]
  rfl

theorem Stmt.ids_classLookups {item : Stmt} (hf : item.FormedItem Token.IsName) :
    (item.classLookups c).flatMap (·.expr.ids) = item.classIds := by
  cases item <;> try rfl
  case classDef loc name fields methods =>
    rw [Stmt.classLookups, Stmt.classIds, flatMap_append, flatMap_assoc,
      flatMap_assoc, idsOfFields_eq_flatMap, idsIn_eq_flatMap]
    refine congrArg₂ _ (flatMap_congr fun f _ => ids_fieldLookup name f) ?_
    exact flatMap_congr fun m hm => Stmt.ids_routineLookups (hf.2.2 m hm) _

theorem Stmt.ids_plainLookups {item : Stmt} (hf : item.FormedItem Token.IsName) :
    (item.routineLookups c none).flatMap (·.expr.ids) = item.routineIds := by
  cases item <;> try rfl
  case routine => exact Stmt.ids_routineLookups hf.2 none

theorem Accepted.ids_lookups (h : Accepted c t) :
    ((Typing.lookups c.items).flatMap (·.expr.ids)).Perm (idsIn c.items) := by
  rw [h.lookups, flatMap_append, flatMap_append, ids_mainLookups h.formed,
    flatMap_assoc, flatMap_assoc,
    flatMap_congr fun item hi => Stmt.ids_classLookups (h.formed item hi),
    flatMap_congr fun item hi => Stmt.ids_plainLookups (h.formed item hi)]
  exact (idsIn_perm c.items).symm

theorem Accepted.eq_of_id (h : Accepted c t) {look look' : Lookup}
    (hl : look ∈ Typing.lookups c.items)
    (hl' : look' ∈ Typing.lookups c.items) {id : Nat} (hid : id ∈ look.expr.ids)
    (hid' : id ∈ look'.expr.ids) : look = look' := by
  exact eq_of_nodup_flatMap (h.ids_lookups.nodup_iff.mpr h.nodup) hl hl' hid hid'

end Lookups

namespace Code

def Faithful (c : Checked) (env : Environment) : Prop :=
  ∀ name symbol, env.symbol? name = some symbol →
    symbol.kind = .parameter ∨ symbol.kind = .variable →
    ∃ d ∈ declarationsIn c.items, d.loc = symbol.loc ∧ d.isConst = symbol.isConst

structure Lowered.Changes (r : Lowered) (c : Checked) (t : SymbolTable) (slots : Slots)
    (target : Expr) (look : Lookup) : Prop where
  sees     : r.Sees look slots target
  inside   : Inside c t r.site.className look.environment
  faithful : Faithful c look.environment
  mutable  : constantTarget? look.environment c.types target = none

section Changes

variable {c : Checked} {t : SymbolTable}

theorem faithful_of_all (h : Accepted c t) (className : Option String) {g : Setting} {names : Names}
    (ht : t.Settles g.table) (houter : g.outer = g.table.outer className)
    (hall : names.All (·.declared ∈ declarationsIn c.items)) :
    Faithful c (g.environment names) := by
  intro name symbol hs hk
  cases hb : names.find? name <;> simp only [Setting.environment, hb] at hs
  case some b =>
    cases hs
    exact ⟨b.declared, hall name b hb, rfl, rfl⟩
  case none =>
    rw [houter] at hs
    rcases outer_cases_of_settles h ht hs with ⟨-, -, -, hsuits⟩ | ⟨-, hglobal, -, hsuits⟩
    · rcases hk with hk | hk <;> rw [hk] at hsuits <;> cases hsuits
    · rcases hk with hk | hk
      · rw [hk] at hsuits
        cases hsuits
      · obtain ⟨d, hd, -, hloc, hconst⟩ := h.global_of_kind ht hglobal hk
        exact ⟨d, c.globals_subset hd, hloc, hconst⟩

theorem Expr.Typed.exists_id {e : Expr} (h : e.Typed c env) : ∃ id, id ∈ e.ids := by
  refine exists_mem_of_ne_nil _ ?_
  cases e <;> try simp [Expr.ids]
  case stray => exact h.elim

theorem Lowered.Sees.changes (h : Accepted c t) {r : Lowered} (hs : r.Sees look slots target)
    (hin : Inside c t r.site.className look.environment) (hl : look ∈ lookups c.items)
    (hl' : look' ∈ lookups c.items) (he : look'.expr = target) (hf : Faithful c look'.environment)
    (hm : constantTarget? look'.environment c.types target = none) :
    r.Changes c t slots target look := by
  obtain ⟨id, hid⟩ := Expr.Typed.exists_id hs.typed
  obtain rfl := h.eq_of_id hl hl' (hs.part hid) (he ▸ hid)
  exact ⟨hs, hin, hf, hm⟩

theorem routine_changes (h : Accepted c t) (hend : (t.settleAll c c.items).Typed [])
    {returns : TypeName} (hd : Defined c t className loc name params returns isStatic body)
    (hr : r ∈ loweredRoutine? c className (.routine loc name params returns isStatic body))
    (hgiven : ∀ a ∈ r.given, a.slot.isSome)
    (hin : params.map .ofParam ++ declarationsIn body ⊆ declarationsIn c.items) :
    ∀ p ∈ r.pieces, ∀ loc target op value, p.stmt = .assign loc target op value →
      ∃ look, r.Changes c t p.frame.slots target look := by
  intro p hp place target op value hs
  obtain ⟨look, hlook, hsees, hinside⟩ := routine_sees h hend hd hr hgiven p hp
    (p.frame.slots, target) (by simp [Piece.looked, hs])
  obtain ⟨hdeclared, hf, hc, hv, hlooks⟩ := hd
  rw [loweredRoutine?_eq h body hdeclared hf.1 hc] at hr
  cases hr
  set g := c.bodySetting className isStatic returns
  have hparams : (Names.ofParams params).All (·.declared ∈ declarationsIn c.items) :=
    .ofParams fun q hq cell home => hin (mem_append_left _ (mem_map_of_mem hq))
  obtain ⟨names, inLoop, hmet⟩ := Site.stmts_known (g := g) _ false none _ body hparams hf.2.2.2 hv
    (fun d hd _ cell home => hin (mem_append_right _ hd)) p hp
  obtain ⟨hlooked, hassigns⟩ := hmet.assigns hs
  exact ⟨look, hsees.changes h hinside (hlooks hlook)
    (hlooks (mem_map_of_mem (f := g.lookup (fullName className name)) hlooked)) rfl
    (faithful_of_all h className h.settles rfl hmet.all) hassigns.mutable⟩

theorem main_changes (h : Accepted c t) (hu : usesAhead c.items = false)
    (hend : (t.settleAll c c.items).Typed [])
    (hgiven : ∀ a ∈ (loweredMain c).given, a.slot.isSome) :
    ∀ p ∈ (loweredMain c).pieces, ∀ loc target op value, p.stmt = .assign loc target op value →
      ∃ look, (loweredMain c).Changes c t p.frame.slots target look := by
  intro p hp loc target op value hs
  obtain ⟨look, hlook, hsees, hinside⟩ := main_sees_all h hu hend hgiven p hp
    (p.frame.slots, target) (by simp [Piece.looked, hs])
  obtain ⟨t', looked, ht', hlooks, names, inLoop, hmet⟩ := Site.main_known (S := t.Settles)
    (P := (·.declared ∈ declarationsIn c.items)) h.formed h.main (.refl t)
    (fun item hi t' ht' _ => ht'.settle h.orderly (h.declared item hi))
    (fun _ d hd _ _ _ => hd) _ p hp
  obtain ⟨hlooked, hassigns⟩ := hmet.assigns hs
  exact ⟨look, hsees.changes h hinside (mainLookups_subset h hlook)
    (mainLookups_subset h (hlooks (mem_map_of_mem hlooked))) rfl
    (faithful_of_all h none ht' rfl hmet.all) hassigns.mutable⟩

end Changes

end Code

end Lumen
