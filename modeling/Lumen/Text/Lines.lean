namespace Lumen.Text

def linesFrom (line : List Char) : List Char → List (List Char)
  | [] => if line.isEmpty then [] else [line.reverse]
  | '\n' :: rest => line.reverse :: linesFrom [] rest
  | '\r' :: '\n' :: rest => line.reverse :: linesFrom [] rest
  | c :: rest => linesFrom (c :: line) rest

def lines (text : String) : List String :=
  (linesFrom [] text.toList).map String.ofList

def unlines (lines : List String) : String :=
  String.join (lines.map (· ++ "\n"))

-- In front of the newline behind it, a `\r` at the end of a line would be lost.
theorem linesFrom_line {cs : List Char} (hn : '\n' ∉ cs) (hr : cs.getLast? ≠ some '\r')
    (line rest : List Char) :
    linesFrom line (cs ++ '\n' :: rest) = (line.reverse ++ cs) :: linesFrom [] rest := by
  induction cs generalizing line
  case nil => simp [linesFrom]
  case cons c cs ih =>
    have hc : c ≠ '\n' := fun h => hn (by simp [h])
    have hcs : cs.getLast? ≠ some '\r' := by cases cs <;> simp_all
    have hstep : linesFrom line (c :: (cs ++ '\n' :: rest)) =
        linesFrom (c :: line) (cs ++ '\n' :: rest) := by
      refine linesFrom.eq_4 line c _ hc fun more hreturn hmore => ?_
      cases cs <;> simp_all
    rw [List.cons_append, hstep, ih (fun h => hn (by simp [h])) hcs, List.reverse_cons,
      List.append_assoc, List.singleton_append]

theorem lines_unlines {texts : List String}
    (h : ∀ text ∈ texts, '\n' ∉ text.toList ∧ text.toList.getLast? ≠ some '\r') :
    lines (unlines texts) = texts := by
  induction texts
  case nil => rfl
  case cons text texts ih =>
    have hline := linesFrom_line (h text (by simp)).1 (h text (by simp)).2 []
      (unlines texts).toList
    have htail := ih fun text ht => h text (by simp [ht])
    have happend : (unlines (text :: texts)).toList =
        text.toList ++ '\n' :: (unlines texts).toList := by
      simp [unlines, String.join_cons]
    rw [lines, happend, hline, List.map_cons, List.reverse_nil, List.nil_append,
      String.ofList_toList]
    exact congrArg (text :: ·) htail

def hanging (margin : Nat) (text : String) : String :=
  let moved (c : Char) := if c = '\n' then c :: List.replicate margin ' ' else [c]
  String.ofList (text.toList.flatMap moved)

end Lumen.Text
