import Lumen.Proofs.Code.Pieces
import Lumen.Proofs.Code.Supply

namespace Lumen

open Typing List

theorem Stmt.declaration_mem {s : Stmt} (h : d ∈ s.declaration?) : d ∈ s.declarations := by
  cases s <;> cases h <;> exact mem_singleton.mpr rfl

theorem Stmt.FormedItem.formed {W : String → Prop} {item : Stmt} (h : item.FormedItem W)
    (hs : item.isStatement) : item.Formed W := by
  cases item <;> first | exact h | cases hs

theorem Stmt.ValidItem.valid {item : Stmt} (h : item.ValidItem c t) (hs : item.isStatement)
    (hd : item.declaration? = none) : item.Valid (c.mainSetting t) .empty false := by
  cases item <;> first | exact h | exact absurd hs Bool.false_ne_true | cases hd

structure Stmt.Met (g : Setting) (P : Binding → Prop) (looked : List (Names × Expr))
    (uses : List Use) (names : Names) (inLoop : Bool) (s : Stmt) : Prop where
  all       : names.All P
  formed    : s.Formed Token.IsName
  -- Globals are declared ahead of their statements.
  valid     : s.declaration? = none → s.Valid g names inLoop
  fills     : ∀ d ∈ s.declaration?, g.Fills names d
  sound     : g.program.isFaultyStmt s = false
  evaluated : s.evaluated names ⊆ looked
  uses      : s.uses g.program ⊆ uses

theorem Stmt.Met.assigns {g : Setting} {P : Binding → Prop} {looked : List (Names × Expr)}
    {uses : List Use} {names : Names} {inLoop : Bool} {s : Stmt} {loc : Location} {target : Expr}
    (h : s.Met g P looked uses names inLoop) (hs : s = .assign loc target op value) :
    (names, target) ∈ looked ∧ g.Assigns names target op value := by
  subst hs
  exact ⟨h.evaluated mem_cons_self, h.valid rfl⟩

def Setting.Suits (g : Setting) (P : Binding → Prop) (ds : List Declaration) : Prop :=
  ∀ d ∈ ds, (∃ names, g.Fills names d) → ∀ cell home, P ⟨cell, home, d⟩

theorem Setting.Suits.append_iff {g : Setting} {P : Binding → Prop} :
    g.Suits P (ds ++ es) ↔ g.Suits P ds ∧ g.Suits P es :=
  forall_mem_append

namespace Code

def Known (g : Setting) (P : Binding → Prop) (looked : List (Names × Expr)) (uses : List Use)
    (s : Stmt) : Prop :=
  ∃ names inLoop, s.Met g P looked uses names inLoop

theorem Known.widen {P : Binding → Prop} (h : Known g P looked uses s) (hl : looked ⊆ looked')
    (hu : uses ⊆ uses') : Known g P looked' uses' s := by
  obtain ⟨names, inLoop, hmet⟩ := h
  exact ⟨names, inLoop, { hmet with
    evaluated := List.Subset.trans hmet.evaluated hl
    uses := List.Subset.trans hmet.uses hu }⟩

section Known

variable {g : Setting} {P : Binding → Prop} {kind : Routine.Kind} {className : Option String}
  {names : Names} {inLoop : Bool}

theorem all_after {s : Stmt} (h : names.All P) (hv : s.Valid g names inLoop)
    (hd : g.Suits P s.declarations) : (names.after s).All P :=
  h.after fun d hs home _ => hd d (Stmt.declaration_mem hs) ⟨names, hv.fills g hs⟩ _ home

theorem all_afterStep (h : names.All P) (hv : ValidStep g names inLoop s)
    (hd : g.Suits P (declarationsInStep s)) : (names.afterStep s).All P := by
  cases s
  case none => exact h
  case some s => exact all_after h hv hd

namespace Site

mutual

theorem stmt_known (names : Names) (inLoop : Bool) (loop : Option Loop) (f : Frame) (s : Stmt)
    (hP : names.All P) (hf : s.Formed Token.IsName) (hv : s.Valid g names inLoop)
    (hn : g.program.isFaultyStmt s = false) (hd : g.Suits P s.declarations) :
    ∀ p ∈ ⟨[], g.site kind className, loop, f, s⟩ :: (g.site kind className).innerPieces loop f s,
      Known g P (s.evaluated names) (s.uses g.program) p.stmt := by
  refine forall_mem_cons.mpr ⟨⟨names, inLoop, hP, hf, fun _ => hv, fun d hs => hv.fills g hs, hn,
    List.Subset.refl _, List.Subset.refl _⟩, ?_⟩
  cases s <;> simp only [Stmt.declarations] at hd <;>
    simp only [innerMet, Survey.within_plain, Stmt.evaluated, Stmt.uses]
  case block loc body => exact stmts_known names.enter inLoop loop f.enter body hP hf hv hd
  case branch loc condition thenBody elseBody =>
    rw [Setting.Suits.append_iff] at hd
    simp only [forall_mem_append, forall_mem_map]
    refine ⟨fun p hp => ?_, fun p hp => ?_⟩
    · have hthen := stmts_known names.enter inLoop loop _ thenBody hP hf.2.1 hv.2.1 hd.1 p hp
      exact hthen.widen (by simp) (by simp)
    · have helse := otherwise_known _ inLoop loop _ f.labels loc elseBody (hP.skip _) hf.2.2 hv.2.2
        hd.2 p hp
      exact helse.widen (by simp) (by simp)
  case whileLoop loc condition body =>
    refine forall_mem_map.mpr fun p hp => ?_
    have hbody := stmts_known names.enter true _ _ body hP hf.2 hv.2 hd p hp
    exact hbody.widen (by simp) (by simp)
  case forLoop loc init condition update body =>
    simp only [Checked.isFaultyStmt, Bool.or_eq_false_iff] at hn
    simp only [Setting.Suits.append_iff] at hd
    obtain ⟨_, hfi, _, _, hfu, hfb⟩ := hf
    obtain ⟨hvi, _, hvu, hvb⟩ := hv
    have hstart : (names.enter.afterStep init).All P := all_afterStep hP.enter hvi hd.1.1
    simp only [forall_mem_append, forall_mem_map]
    refine ⟨⟨fun p hp => ?_, fun p hp => ?_⟩, fun p hp => ?_⟩
    · have hinit := step_known names.enter inLoop loop f.enter init hP hfi hvi hn.1.1 hd.1.1 p hp
      exact hinit.widen (by simp) (by simp)
    · have hbody := stmts_known _ true _ _ body hstart.enter hfb hvb hd.2 p hp
      exact hbody.widen (subset_append_right _ _) fun u hu => by simp [hu]
    · have hupdate := step_known _ inLoop loop _ update hstart hfu hvu hn.2 hd.1.2 p hp
      exact hupdate.widen (fun q hq => by simp [hq]) (subset_append_right _ _)
  all_goals
    intro p hp
    cases hp

theorem stmts_known (names : Names) (inLoop : Bool) (loop : Option Loop) (f : Frame)
    (body : List Stmt) (hP : names.All P) (hf : FormedBody Token.IsName body)
    (hv : ValidBody g names inLoop body) (hd : g.Suits P (declarationsIn body)) :
    ∀ p ∈ (g.site kind className).pieces loop f body,
      Known g P (evaluatedIn names body) (usesIn g.program body) p.stmt := by
  cases body
  case nil =>
    intro p hp
    cases hp
  case cons s rest =>
    rw [declarationsIn, Setting.Suits.append_iff] at hd
    rw [evaluatedIn, usesIn]
    have hrest (f : Frame) : ∀ p ∈ (g.site kind className).pieces loop f rest, Known g P
        (s.evaluated names ++ evaluatedIn (names.after s) rest)
        ((if g.program.isFaultyStmt s then [] else s.uses g.program) ++ usesIn g.program rest)
        p.stmt := fun p hp =>
      (stmts_known _ inLoop loop f rest (all_after hP hv.1 hd.1) hf.2 hv.2 hd.2 p hp).widen
        (subset_append_right _ _) (subset_append_right _ _)
    cases hn : g.program.isFaultyStmt s
    case true =>
      rw [hn] at hrest
      rw [pieces_faulty _ hn]
      exact hrest f
    case false =>
      rw [hn] at hrest
      rw [pieces_cons _ hn, forall_mem_append, forall_mem_map]
      refine ⟨fun p hp => ?_, hrest _⟩
      exact (stmt_known names inLoop loop f s hP hf.1 hv.1 hn hd.1 p hp).widen
        (subset_append_left _ _) (by simp)

theorem otherwise_known (names : Names) (inLoop : Bool) (loop : Option Loop) (f : Frame)
    (orElse : Nat) (loc : Location) (body : Option (List Stmt)) (hP : names.All P)
    (hf : FormedElse Token.IsName body) (hv : ValidElse g names inLoop body)
    (hd : g.Suits P (declarationsInElse body)) :
    ∀ p ∈ (g.site kind className).elsePieces loop f orElse loc body,
      Known g P (evaluatedInElse names body) (usesInElse g.program body) p.stmt := by
  cases body
  case none =>
    intro p hp
    cases hp
  case some body =>
    rw [elsePieces, elseMet, forall_mem_map]
    exact stmts_known names.enter inLoop loop _ body hP hf hv hd

theorem step_known (names : Names) (inLoop : Bool) (loop : Option Loop) (f : Frame)
    (s : Option Stmt) (hP : names.All P) (hf : FormedStep Token.IsName s)
    (hv : ValidStep g names inLoop s) (hn : g.program.isFaultyStep s = false)
    (hd : g.Suits P (declarationsInStep s)) :
    ∀ p ∈ (g.site kind className).stepPieces loop f s,
      Known g P (evaluatedInStep names s) (usesInStep g.program s) p.stmt := by
  cases s
  case none =>
    intro p hp
    cases hp
  case some s => exact stmt_known names inLoop loop f s hP hf hv hn hd

end

-- The statements at top level, from an item on. The globals are known as `S` tells.
theorem main_known {S : SymbolTable → Prop} (hf : ∀ item ∈ items, item.FormedItem Token.IsName)
    (hv : ValidMain c t items) (ht : S t)
    (hS : ∀ item ∈ items, ∀ t, S t → item.ValidItem c t → S (t.settle c item))
    (hd : ∀ t, (c.mainSetting t).Suits P (declarationsIn items)) (f : Frame) :
    ∀ p ∈ (mainSite c).pieces none f (items.filter Stmt.isStatement), ∃ t' looked, S t' ∧
      looked.map ((c.mainSetting t').lookup toplevelName) ⊆ mainLookups c t items ∧
        Known (c.mainSetting t') P looked (usesIn c items) p.stmt := by
  induction items generalizing t f
  case nil =>
    intro p hp
    cases hp
  case cons item items ih =>
    obtain ⟨hfirst, hmore⟩ := forall_mem_cons.mp hf
    obtain ⟨hsettle, hS⟩ := forall_mem_cons.mp hS
    have hdecl (t : SymbolTable) := Setting.Suits.append_iff.mp (hd t)
    rw [mainLookups, usesIn]
    have hrest (f : Frame) : ∀ p ∈ (mainSite c).pieces none f (items.filter Stmt.isStatement),
        ∃ t' looked, S t' ∧ looked.map ((c.mainSetting t').lookup toplevelName) ⊆
          (item.evaluated .empty).map ((c.mainSetting t).lookup toplevelName) ++
            mainLookups c (t.settle c item) items ∧
          Known (c.mainSetting t') P looked
            ((if c.isFaultyStmt item then [] else item.uses c) ++ usesIn c items) p.stmt := by
      intro p hp
      obtain ⟨t', looked, ht', hlooked, hknown⟩ :=
        ih hmore hv.2 (hsettle t ht hv.1) hS (fun t => (hdecl t).2) f p hp
      exact ⟨t', looked, ht', subset_append_of_subset_right _ hlooked,
        hknown.widen (List.Subset.refl _) (subset_append_right _ _)⟩
    cases hs : item.isStatement
    case false =>
      rw [filter_cons_of_neg (by simp [hs])]
      exact hrest f
    case true =>
      rw [filter_cons_of_pos hs]
      cases hn : c.isFaultyStmt item
      case true =>
        rw [hn] at hrest
        rw [pieces_faulty _ hn]
        exact hrest f
      case false =>
        rw [hn] at hrest
        rw [pieces_cons _ hn, forall_mem_append, forall_mem_map]
        refine ⟨fun p hp => ⟨t, item.evaluated .empty, ht, subset_append_left _ _, ?_⟩, hrest _⟩
        refine Known.widen ?_ (List.Subset.refl _) (subset_append_left _ _)
        cases hd : item.declaration?
        case some d =>
          -- A declaration has no statements inside.
          have hsame : p.stmt = item := by
            cases item <;> cases hd <;> rw [mem_singleton.mp hp]
          rw [hsame]
          exact ⟨.empty, false, .empty P, hfirst.formed hs, by simp [hd],
            fun d hd => hv.1.fills c hd, hn, List.Subset.refl _, List.Subset.refl _⟩
        case none =>
          exact stmt_known .empty false none f item (.empty P) (hfirst.formed hs)
            (hv.1.valid hs hd) hn (hdecl t).1 p hp

end Site

end Known

end Code

end Lumen
