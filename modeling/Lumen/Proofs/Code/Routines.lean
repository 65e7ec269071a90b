import Lumen.Proofs.Checked.Ahead
import Lumen.Proofs.Code.Allocation

namespace Lumen

open Typing List

abbrev Checked.Defines (c : Checked) : Option String → Stmt → Prop :=
  DefinedIn c.items

structure Defined (c : Checked) (t : SymbolTable) (className : Option String) (loc : Location)
    (name : String) (params : List Param) (returns : TypeName) (isStatic : Bool)
    (body : List Stmt) : Prop where
  declared : RoutineDeclared t className loc name params returns isStatic
  formed   : (Stmt.routine loc name params returns isStatic body).FormedRoutine Token.IsName
  owner    : ∀ owner ∈ className, Token.IsName owner
  valid    : ValidBody (c.bodySetting className isStatic returns) (.ofParams params) false body
  lookups  : (Stmt.routine loc name params returns isStatic body).routineLookups c className ⊆
    Typing.lookups c.items

theorem Accepted.defined {returns : TypeName} (h : Accepted c t)
    (hd : c.Defines className (.routine loc name params returns isStatic body)) :
    Defined c t className loc name params returns isStatic body := by
  cases className
  case none =>
    have hi : .routine loc name params returns isStatic body ∈ c.items := hd
    refine ⟨h.declared _ hi, (h.formed _ hi).2, by simp, h.routines _ hi, fun look hlook => ?_⟩
    rw [h.lookups]
    exact mem_append_right _ (mem_flatMap.mpr ⟨_, hi, hlook⟩)
  case some owner =>
    obtain ⟨loc', fields, methods, hi, hm⟩ := hd
    refine ⟨(h.declared _ hi).2.2 _ hm, (h.formed _ hi).2.2 _ hm, ?_, (h.classes _ hi).2 _ hm,
      fun look hlook => ?_⟩
    · rintro _ ⟨⟩
      exact (h.formed _ hi).1
    · rw [h.lookups]
      refine mem_append_left _ (mem_append_right _ (mem_flatMap.mpr ⟨_, hi, ?_⟩))
      exact mem_append_right _ (mem_flatMap.mpr ⟨_, hm, hlook⟩)

namespace Code

def Layout.ofDeclarations (c : Checked) (receiver? : Option String) (ds : List Declaration) :
    Layout where
  base := (Slots.ofReceiver receiver?).visible
  front := (Slots.ofReceiver receiver?).locals
  declared := ds.map (·.typed c)

def Layout.ofRoutine (c : Checked) (receiver? : Option String) (params : List Param)
    (body : List Stmt) : Layout :=
  .ofDeclarations c receiver? (params.map .ofParam ++ declarationsIn body)

variable {c : Checked} {t : SymbolTable}

theorem lowered_mem (h : Accepted c t) (hd : c.Defines className item)
    (hr : loweredRoutine? c className item = some r) : r ∈ lowered c := by
  cases className
  case none => exact mem_append_right _ (mem_filterMap.mpr ⟨item, hd, hr⟩)
  case some owner =>
    obtain ⟨loc, fields, methods, hi, hm⟩ := hd
    refine mem_append_left _ (mem_cons_of_mem _ (mem_flatMap.mpr ⟨_, hi, ?_⟩))
    rw [loweredClass_eq h fields methods (h.declared _ hi).1 (h.formed _ hi).1]
    exact mem_cons_of_mem _ (mem_filterMap.mpr ⟨item, hm, hr⟩)

theorem Layout.fits_ofDeclarations (receiver? : Option String) (ds : List Declaration) :
    (Layout.ofDeclarations c receiver? ds).Fits ⟨.ofReceiver receiver?, 0⟩ .empty where
  find? := rfl
  locals := by simp [Names.empty, rowsFrom, ofDeclarations]
  next := by
    cases receiver? <;>
      simp [Slots.ofReceiver, cell, start, ofDeclarations, Names.empty, slotWidths, Slots.locals,
        Ty.slotWidth, Ty.isWide]
  blocks := by cases receiver? <;> trivial

theorem declareParams_eq (c : Checked) (f : Frame) (params : List Param) :
    declareParams f params (params.map (Ty.ofName ·.type)) =
      (f.declareAll c (params.map .ofParam)).2 := by
  induction params generalizing f
  case nil => rfl
  case cons p params ih => exact ih _

theorem routineKind_ne (className : Option String) : routineKind className ≠ .toplevel := by
  cases className <;> simp [routineKind]

-- The code of a body follows the scoping, with the given names in front.
structure Lowered.Follows (r : Lowered) (l : Layout) (names : Names) (body : List Stmt)
    (loc : Location) : Prop where
  code   : r.routine.code = finished (r.site.bodyAt l names none 0 body) loc
  locals : r.routine.locals = l.rows
  serves : ∀ p ∈ r.pieces, ∀ q ∈ p.looked,
    l.Serves r.site.program ⟨r.given, (· ∈ evaluatedIn names body)⟩ q

theorem routine_follows (h : Accepted c t) (hend : (t.settleAll c c.items).Typed [])
    {returns : TypeName} (hd : Defined c t className loc name params returns isStatic body)
    (hr : r ∈ loweredRoutine? c className (.routine loc name params returns isStatic body))
    (hgiven : ∀ a ∈ r.given, a.slot.isSome) :
    r.Follows (.ofRoutine c (if isStatic then none else className) params body) (.ofParams params)
      body loc := by
  obtain ⟨hdeclared, hf, hc, hv, -⟩ := hd
  rw [loweredRoutine?_eq h body hdeclared hf.1 hc] at hr
  cases hr
  set l := Layout.ofRoutine c (if isStatic then none else className) params body
  set g := c.bodySetting className isStatic returns
  set r := loweredBody c className params isStatic body _ _
  have hframe : routineFrame className params isStatic = _ := declareParams_eq c _ params
  have hnames : ∀ d ∈ params.map Declaration.ofParam, Token.IsName d.name :=
    forall_mem_map.mpr fun p hp => (hf.2.1 p hp).1
  have hlists : l.Lists c .empty (params.map .ofParam ++ declarationsIn body) := prefix_rfl
  have hstart : l.Fits ⟨.ofReceiver (if isStatic then none else className), 0⟩ .empty :=
    Layout.fits_ofDeclarations _ _
  obtain ⟨hfits, hown, hlabels⟩ := hstart.declareAll (Names.All.empty _) hlists.left hnames
    (subset_append_left r.front (r.pieces.flatMap Piece.given)) hgiven
  rw [← hframe] at hfits hlabels
  have hfits : l.Fits _ (.ofParams params) := hfits
  have hnext : (Names.ofParams params).next = 0 + (params.map Declaration.ofParam).length :=
    Names.declareAll_next (by simp [Names.empty]) _
  set f := routineFrame className params isStatic
  have hmade : l.Makes c ⟨r.given, (· ∈ evaluatedIn (.ofParams params) body)⟩ f
      ((g.site (routineKind className) className).stmts none f [] body) r.pieces _ _ _ :=
    stmts_makes rfl ⟨hgiven, h.routine_faultless hend hf.2.2.2 hv⟩ (.ofParams params) false none f
      body hf.2.2.2 hv (fun q hq => hq) (hlists.right hnext) (.inl (routineKind_ne className)) hfits
      hown fun p (hp : p ∈ r.pieces) => Lowered.given_of_piece hp
  have hlast : ((Names.ofParams params).afterBody body).next = l.declared.length := by
    rw [Names.afterBody_next hfits.names_ne_nil, hnext]
    simp [l, Layout.ofRoutine, Layout.ofDeclarations]
  have hroutine : r.routine = Routine.ofBody _ _ _ _ _ loc := rfl
  rw [Routine.ofBody_eq] at hroutine
  refine ⟨?_, ?_, hmade.serves⟩
  · rw [hroutine]
    refine congrArg (finished · loc) (hmade.code.trans ?_)
    rw [hlabels]
    rfl
  · rw [hroutine]
    refine hmade.fits.locals.trans ?_
    rw [hlast, take_length]
    rfl

end Code
end Lumen
