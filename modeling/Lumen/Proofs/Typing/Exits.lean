import Lumen.Checked
import Lumen.Proofs.Exits
import Lumen.Proofs.Typing.Inference

namespace Lumen.Typing

open List

def Cause.isOutside : Cause → Bool
  | .outsideLoop _ => true
  | _ => false

theorem Cause.isOutside_eq_false {cause : Cause} (h : cause.ofStatement = false) :
    cause.isOutside = false := by
  cases cause <;> simp_all [isOutside]

def Problem.ofExit (e : Exit) : Problem :=
  ⟨.outsideLoop e.word, e.loc⟩

def misplaced (exits : List Exit) : List Problem :=
  (exits.filter (!·.inLoop)).map .ofExit

@[simp] theorem misplaced_append (es es' : List Exit) :
    misplaced (es ++ es') = misplaced es ++ misplaced es' := by
  simp [misplaced]

theorem mem_misplaced : p ∈ misplaced es ↔ ∃ e ∈ es, e.inLoop = false ∧ p = .ofExit e := by
  simp only [misplaced, mem_map, mem_filter, Bool.not_eq_true', and_assoc, @eq_comm _ p]

namespace Analysis

def outside (a : Analysis) : List Problem :=
  (a.problems.filter (·.cause.isOutside)).reverse

variable (a : Analysis)

theorem outside_report {cause : Cause} (h : cause.isOutside = false) (loc : Location) :
    (a.report cause loc).outside = a.outside := by
  simp [outside, report, h]

theorem outside_record {f : Finding} (h : f.Severe) : (a.record f).outside = a.outside := by
  have hnone : f.problems.reverse.filter (·.cause.isOutside) = [] := by
    refine filter_eq_nil_iff.mpr fun p hp => ?_
    simp [Cause.isOutside_eq_false (h p (mem_reverse.mp hp))]
  simp only [outside, record, filter_append, hnone, nil_append]

end Analysis

end Lumen.Typing
