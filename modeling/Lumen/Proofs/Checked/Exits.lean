import Lumen.Proofs.Checked.Kept
import Lumen.Proofs.Typing.Exits

namespace Lumen

open Typing List Analysis

namespace Typing

def reachedExits (items : Items) : List Exit :=
  items.flatMap Stmt.mainExits ++
    items.flatMap (·.checkedMethodExits (checkItems items).table) ++
    items.flatMap (·.checkedExits (checkItems items).table none)

theorem outside_checkItems (items : Items) :
    (checkItems items).outside = misplaced (reachedExits items) := by
  have hmain := (checkItems_advances (mainPlace (declareItems items))
    (mainStart (declareItems items)) items).outside
  have hlater : (checkMain items (declareItems items)).Advances _ _ _ (checkItems items) :=
    checkDefinitions_advances _ items
  have hstart : (mainStart (declareItems items)).outside = [] :=
    outside_declareItems items
  rw [hstart, nil_append] at hmain
  rw [reachedExits, Stmt.checkedMethodExits_congr hlater.classes hlater.routines,
    Stmt.checkedExits_congr hlater.routines, append_assoc, misplaced_append, ← hmain]
  exact hlater.outside

theorem checkedExits_subset (t : SymbolTable) (className : Option String) (item : Stmt) :
    item.checkedExits t className ⊆ item.routineExits := by
  cases item <;> try exact nil_subset _
  case routine =>
    rw [Stmt.checkedExits]
    split
    · exact List.Subset.refl _
    · exact nil_subset _

theorem checkedMethodExits_subset (t : SymbolTable) (item : Stmt) :
    item.checkedMethodExits t ⊆ item.itemExits := by
  cases item <;> try exact nil_subset _
  case classDef loc name fields methods =>
    rw [Stmt.checkedMethodExits]
    split
    · intro e he
      obtain ⟨m, hm, he⟩ := mem_flatMap.mp he
      exact mem_flatMap.mpr ⟨m, hm, checkedExits_subset t _ m he⟩
    · exact nil_subset _

theorem reachedExits_subset (items : Items) :
    reachedExits items ⊆ items.flatMap Stmt.itemExits := by
  have hitems {f : Stmt → List Exit} (h : ∀ item, f item ⊆ item.itemExits) :
      items.flatMap f ⊆ items.flatMap Stmt.itemExits := by
    intro e he
    obtain ⟨item, hi, he⟩ := mem_flatMap.mp he
    exact mem_flatMap.mpr ⟨item, hi, h item he⟩
  refine append_subset.mpr ⟨append_subset.mpr ⟨hitems fun item => ?_,
    hitems (checkedMethodExits_subset _)⟩, hitems fun item => ?_⟩
  · cases item <;> first | exact nil_subset _ | exact List.Subset.refl _
  · cases item <;> first | exact nil_subset _ | exact checkedExits_subset _ _ _

theorem Cause.eq_outsideLoop {cause : Cause} (hk : cause.kind = .misplacedStatement)
    (hm : cause.message = "'" ++ word ++ "' outside of a loop") : cause = .outsideLoop word := by
  have hfirst : cause.message.toList.head? = some '\'' := by
    rw [hm]
    simp [String.toList_append]
  have hlast : cause.message.toList.getLast? = some 'p' := by
    rw [hm, String.toList_append, getLast?_append]
    rfl
  cases cause <;> try (cases hk; done)
  case outsideLoop w =>
    have hm : "'" ++ w ++ "' outside of a loop" = "'" ++ word ++ "' outside of a loop" := hm
    have hlist := congrArg String.toList hm
    simp only [String.toList_append, append_cancel_left_eq, append_cancel_right_eq,
      String.toList_inj] at hlist
    rw [hlist]
  case nestedDefinition => exact absurd hfirst (by decide)
  case misplacedReceiver => exact absurd hlast (by decide)
  case misplacedField | instanceCall | missingObject =>
    have hfirst : (_ ++ _ ++ _ : String).toList.head? = some '\'' := hfirst
    simp [String.toList_append] at hfirst

theorem Problem.eq_ofExit {p : Problem} (h : p.diagnostic = (Problem.ofExit e).diagnostic) :
    p = .ofExit e := by
  obtain ⟨cause, loc⟩ := p
  obtain ⟨-, hkind, hmessage, hloc⟩ := Diagnostic.mk.inj h
  obtain rfl : cause = .outsideLoop e.word := Cause.eq_outsideLoop hkind hmessage
  exact congrArg _ hloc

end Typing

-- If no two exits stand at one place, a checked exit is reported unless a loop is around it.
theorem Checked.reported_iff {items : Items}
    (h : ((items.flatMap Stmt.itemExits).map (·.loc)).Nodup) (he : e ∈ reachedExits items) :
    (Problem.ofExit e).diagnostic ∈ (ofItems items).diagnostics ↔ e.inLoop = false := by
  have hreported : (Problem.ofExit e).diagnostic ∈ (ofItems items).diagnostics ↔
      .ofExit e ∈ (checkItems items).outside := by
    rw [ofItems, (Diagnostic.sorted_perm _).mem_iff, mem_map]
    simp only [outside, mem_reverse, mem_filter]
    constructor
    · rintro ⟨p, hp, heq⟩
      cases Problem.eq_ofExit heq
      exact ⟨hp, rfl⟩
    · exact fun hp => ⟨_, hp.1, rfl⟩
  rw [hreported, outside_checkItems, mem_misplaced]
  constructor
  · rintro ⟨e', he', hin, heq⟩
    have hloc : e.loc = e'.loc := congrArg Problem.loc heq
    have hsub := reachedExits_subset items
    rw [inj_on_of_nodup_map h (hsub he) (hsub he') hloc]
    exact hin
  · exact fun hin => ⟨e, he, hin, rfl⟩

end Lumen
