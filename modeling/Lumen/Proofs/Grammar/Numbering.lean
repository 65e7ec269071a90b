import Lumen.Proofs.Grammar.Item
import Mathlib.Data.List.Nodup
import Mathlib.Data.Option.Basic

namespace Lumen

open List

theorem Expr.parts_lt {e part : Expr} {id : Nat} (h : e.ids.Pairwise (· < ·))
    (he : e.id? = some id) (hp : part ∈ e.parts) : ∃ i, part.id? = some i ∧ i < id := by
  have hids : e.ids.map some = e.parts.map Expr.id? ++ [some id] := by
    rw [← e.listed.ids, e.nodes_eq_parts he, map_append, map_singleton, he]
  have hsorted : (e.parts.map Expr.id? ++ [some id]).Pairwise
      fun x y => ∀ i ∈ x, ∀ j ∈ y, i < j := by
    rw [← hids, pairwise_map]
    exact h.imp fun hlt i hi j hj => Option.some.inj hi ▸ Option.some.inj hj ▸ hlt
  have hmem : part.id? ∈ e.ids.map some := by
    rw [hids]
    exact mem_append_left _ (mem_map_of_mem hp)
  obtain ⟨i, -, hi⟩ := mem_map.mp hmem
  refine ⟨i, hi.symm, ?_⟩
  exact (pairwise_append.mp hsorted).2.2 _ (mem_map_of_mem hp) _
    (mem_singleton_self _) i hi.symm id rfl

namespace Parsed

theorem ofTokens_numbers (tokens : List Token) :
    ((nodesIn (ofTokens tokens).items).map Expr.id?).Nodup ∧
      ∀ e ∈ nodesIn (ofTokens tokens).items, ∃ id, e.id? = some id ∧
        ∀ part ∈ e.parts, ∃ i, part.id? = some i ∧ i < id := by
  have hids := (listedIn (ofTokens tokens).items).ids
  constructor
  case left =>
    rw [hids]
    exact (ofTokens_nodup tokens).map (Option.some_injective _)
  case right =>
    intro e he
    have hmem : e.id? ∈ (idsIn (ofTokens tokens).items).map some := by
      rw [← hids]
      exact mem_map_of_mem he
    obtain ⟨id, -, hid⟩ := mem_map.mp hmem
    exact ⟨id, hid.symm, fun part => Expr.parts_lt (ofTokens_sorted tokens e he) hid.symm⟩

end Parsed
end Lumen
