import Lumen.Proofs.Grammar.Programs
import Lumen.Proofs.Grammar.Progress

namespace Lumen.Grammar

open List State

open Token (Kind)

variable {more : List Token} {s : State}

theorem rest_ofTokens_of_noEnd (h : NoEnd ts) : (State.ofTokens ts).cursor.rest = ts := by
  have hall : ∀ t ∈ ts, decide (t.kind ≠ .endMarker) = true := by simpa [NoEnd] using h
  rw [rest_ofTokens, ← append_nil ts, takeWhile_append_of_pos hall]
  rfl

section

variable (hclean : (Parsed.ofTokens ts).diagnostics = [])

include hclean

theorem ofTokens_again (hend : NoEnd ts) :
    Sequence ItemPiece ts (Parsed.ofTokens ts).items := by
  obtain ⟨used, hr, -, -, hagain, hrest⟩ := items_reads (.ofTokens ts) (worded_all _)
  have hused : used = ts := by
    rw [← rest_ofTokens_of_noEnd hend, hr.rest, hrest, append_nil]
  exact hused ▸ hagain (reverse_eq_nil_iff.mp hclean)

theorem items_recur (hend : NoEnd ts)
    (hmore : NoElse more) (hrest : s.cursor.rest = ts ++ more) (done : Items) :
    ∃ (read : Items) (s₁ : State), items done s = items (read.reverse ++ done) s₁ ∧
      read.map Stmt.unnumbered = (Parsed.ofTokens ts).items.map Stmt.unnumbered ∧
      s.Quiet s₁ ∧ s₁.cursor.rest = more := by
  obtain ⟨xs, -, hloops⟩ := (ofTokens_again hclean hend).again
  obtain ⟨read, s₁, hloop, hread, hs₁, hq⟩ := hloops _ items_rounds s more done hrest hmore
  -- What the program alone gives.
  obtain ⟨items, s₂, hloop₂, hitems, hs₂, -⟩ := hloops _ items_rounds (.ofTokens ts) [] []
    (by simpa using rest_ofTokens_of_noEnd hend) (by simp [NoElse])
  have halone : (Parsed.ofTokens ts).items = items := by
    rw [Parsed.ofTokens, hloop₂, Grammar.items]
    simp [next_eq_nothing hs₂]
  exact ⟨read, s₁, hloop, by rw [halone, hread, hitems], hq, hs₁⟩

theorem items_recur_last (hend : NoEnd ts)
    (hrest : s.cursor.rest = ts) (done : Items) :
    ∃ (read : Items) (s₁ : State), items done s = (done.reverse ++ read, s₁) ∧
      read.map Stmt.unnumbered = (Parsed.ofTokens ts).items.map Stmt.unnumbered ∧ s.Quiet s₁ := by
  have hno : NoElse [] := by simp [NoElse]
  obtain ⟨read, s₁, hloop, hread, hq, hrest₁⟩ :=
    items_recur hclean hend hno (by simpa using hrest) done
  refine ⟨read, s₁, ?_, hread, hq⟩
  rw [hloop, items]
  simp [next_eq_nothing hrest₁]

end

end Lumen.Grammar
