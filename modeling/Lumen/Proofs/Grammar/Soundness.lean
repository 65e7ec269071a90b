import Lumen.Proofs.Grammar.Progress

namespace Lumen
namespace Parsed

open Grammar

-- What is read without a report is a program of the grammar, to the last token before the end.
theorem ofTokens_written (tokens : List Token) (h : (ofTokens tokens).diagnostics = []) :
    WrittenItems true (tokens.takeWhile (·.kind ≠ .endMarker)) (ofTokens tokens).items := by
  obtain ⟨used, hr, -, hitems, -⟩ := items_reads (.ofTokens tokens) (State.worded_all _)
  have hused : used = tokens.takeWhile (·.kind ≠ .endMarker) := by
    have hrest := hr.rest
    rw [items_exhaust, List.append_nil] at hrest
    rw [← hrest, State.rest_ofTokens]
  rw [← hused]
  exact hitems (List.reverse_eq_nil_iff.mp h)

theorem ofTokens_written_branch :
    let tokens := (Lexed.ofSource "if (a) b = 1; else for ;; { x.f(-1 ** 2); }").tokens.toList
    (ofTokens tokens).diagnostics = [] ∧
      WrittenItems true (tokens.takeWhile (·.kind ≠ .endMarker)) (ofTokens tokens).items :=
  ⟨by decide +kernel, ofTokens_written _ (by decide +kernel)⟩

end Parsed
end Lumen
