import Lumen.Code.Unit
import Lumen.Proofs.Typing.Valid

namespace Lumen

def Setting.site (g : Setting) (kind : Code.Routine.Kind) (className : Option String) : Code.Site :=
  ⟨g.program, kind, className, g.returns⟩

namespace Code.Site

variable (site : Site) (loop : Option Loop) (f : Frame)

-- The code that is made already comes first, and nothing else depends on it.
theorem stmts_done (done : List Instruction) (body : List Stmt) :
    site.stmts loop f done body =
      (done.reverse ++ (site.stmts loop f [] body).1, (site.stmts loop f [] body).2) := by
  induction body generalizing f done
  case nil => simp [stmts]
  case cons s body ih =>
    rw [stmts, stmts]
    split
    case isTrue => exact ih f done
    case isFalse =>
      dsimp only
      rw [ih (site.stmt loop f s).2 ((site.stmt loop f s).1.reverse ++ done),
        ih (site.stmt loop f s).2 ((site.stmt loop f s).1.reverse ++ [])]
      simp

theorem stmts_nil : site.stmts loop f [] [] = ([], f) := by
  simp [stmts]

theorem stmts_faulty (h : site.program.isFaultyStmt s) (body : List Stmt) :
    site.stmts loop f [] (s :: body) = site.stmts loop f [] body := by
  rw [stmts, if_pos h]

theorem stmts_cons (h : site.program.isFaultyStmt s = false) (body : List Stmt) :
    site.stmts loop f [] (s :: body) =
      ((site.stmt loop f s).1 ++ (site.stmts loop (site.stmt loop f s).2 [] body).1,
        (site.stmts loop (site.stmt loop f s).2 [] body).2) := by
  rw [stmts, if_neg (by simp [h])]
  dsimp only
  rw [stmts_done]
  simp

def header (slots : Slots) (stop : Nat) (loc : Location) : Option Expr → List Instruction
  | some condition => site.value slots condition ++ [.jump .jumpIfFalse stop loc]
  | none => []

theorem stmt_forLoop (loc : Location) (init : Option Stmt) (condition : Option Expr)
    (update : Option Stmt) (body : List Stmt) :
    site.stmt loop f (.forLoop loc init condition update body) =
      let started := site.step loop f.enter init
      let start := started.2.labels
      let inside := site.stmts (some ⟨start + 1, start + 2⟩) (started.2.label 3).enter [] body
      let updated := site.step loop inside.2.leave update
      (started.1 ++ .place start loc :: site.header started.2.slots (start + 2) loc condition ++
        inside.1 ++ .place (start + 1) loc :: updated.1 ++
        [.jump .jump start loc, .place (start + 2) loc], updated.2.leave) := by
  cases condition <;> simp only [stmt, header]

end Code.Site
end Lumen
