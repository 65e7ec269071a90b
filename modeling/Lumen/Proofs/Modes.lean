import Lumen.Compilation
import Lumen.Proofs.Grammar.Progress

namespace Lumen

open List

theorem Parsed.isError_of_ofSource (h : d ∈ (ofSource source).diagnostics) : d.isError := by
  rcases mem_append.mp h with h | h
  · obtain ⟨problem, -, rfl⟩ := mem_map.mp h
    rfl
  · obtain ⟨_, _, _, _, _, rfl⟩ := ofTokens_reported _ d h
    rfl

theorem Parsed.any_isError_ofSource (source : String) :
    (ofSource source).diagnostics.any Diagnostic.isError = !(ofSource source).isClean := by
  rw [isClean]
  cases h : (ofSource source).diagnostics
  case nil => rfl
  case cons d rest =>
    have hd : d.isError := isError_of_ofSource (h ▸ mem_cons_self)
    simp [hd]

namespace Compilation

theorem hasErrors_ofChecked (parsed : Parsed) (checked : Checked) :
    (ofChecked parsed checked).hasErrors =
      (parsed.diagnostics.any Diagnostic.isError || !checked.isSound) := by
  simp [hasErrors, ofChecked, Checked.isSound]

-- Strict mode ends behind the text if that is not clean, then behind the check if that is not
-- sound.
theorem ofSource_strict_eq (source : String) :
    let parsed := Parsed.ofSource source
    let checked := Checked.ofItems parsed.items
    ofSource .strict source =
      if ¬parsed.isClean then .error (.malformed parsed.diagnostics)
      else if ¬checked.isSound then .error (.unsound checked.diagnostics)
      else .ok (ofChecked parsed checked) := by
  simp [ofSource, Parsed.any_isError_ofSource]

-- Strict mode gives a result exactly if exploratory mode reports no error, and then the same one.
-- Where it fails, it reports what exploratory mode reports, but for what lies behind the stage that
-- has failed.
theorem modes_agree (source : String) :
    ∃ c, ofSource .exploratory source = .ok c ∧
      ((∃ c', ofSource .strict source = .ok c') ↔ ¬c.hasErrors) ∧
      (∀ c', ofSource .strict source = .ok c' → c' = c) ∧
      (∀ e, ofSource .strict source = .error e →
        (∃ ds, e = .malformed ds ∧ c.diagnostics = ds ++ c.checked.diagnostics) ∨
          ∃ ds, e = .unsound ds ∧ c.diagnostics = ds) := by
  have hstrict := ofSource_strict_eq source
  have herrors := hasErrors_ofChecked (Parsed.ofSource source)
    (Checked.ofItems (Parsed.ofSource source).items)
  rw [Parsed.any_isError_ofSource] at herrors
  simp only at hstrict
  refine ⟨_, rfl, ?_⟩
  rw [hstrict, herrors]
  by_cases hclean : (Parsed.ofSource source).isClean
  case neg => simp [hclean, ofChecked]
  case pos =>
    have hempty : (Parsed.ofSource source).diagnostics = [] := isEmpty_iff.mp hclean
    by_cases hsound : (Checked.ofItems (Parsed.ofSource source).items).isSound
    case neg => simp [hclean, hsound, ofChecked, hempty]
    case pos => simp [hclean, hsound]

end Compilation
end Lumen
