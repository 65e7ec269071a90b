import Lumen.Proofs.Grammar.Enclosed
import Lumen.Proofs.Grammar.Recurrence

namespace Lumen

open List

namespace Grammar

open Token (Kind)

variable {s : State}

-- What is wrong in the body of a routine does not keep the routine from being read up to its brace.
theorem item_routine {P : Location → Prop} {word name o c lb rb : Token} {inner : List Token}
    (hword : word.kind = .voidKw) (hname : name.kind = .identifier) (ho : o.kind = .leftParen)
    (hc : c.kind = .rightParen) (hlb : lb.kind = .leftBrace) (hrb : rb.kind = .rightBrace)
    (hinner : Balanced inner)
    (hrest : s.cursor.rest = word :: name :: o :: c :: lb :: (inner ++ rb :: back))
    (hp : ∀ t ∈ inner ++ [rb], P t.loc) (hreports : s.reports = []) :
    ∃ body s₁, ∃ h₁ : s₁.left < s.left,
      item s = .done (.routine word.loc name.text [] .void true body) s₁ h₁ ∧
      s₁.cursor.rest = back ∧ ∀ d ∈ s₁.reports, Diagnosed P d := by
  obtain ⟨s₁, h₁, hn, hs₁, hq₁⟩ := State.next_eq hrest
  obtain ⟨s₂, h₂, hn₁, hs₂, hq₂⟩ := State.next_eq hs₁
  obtain ⟨s₃, h₃, hn₂, hs₃, hq₃⟩ := State.next_eq hs₂
  obtain ⟨s₄, h₄, hn₃, hs₄, hq₄⟩ := State.next_eq hs₃
  obtain ⟨s₅, h₅, hn₄, hs₅, hq₅⟩ := State.next_eq hs₄
  have hopens : s.cursor.opensRoutine = true := by
    simp [Cursor.opensRoutine, Cursor.opensDeclaration, Cursor.peek, Cursor.ahead?, hrest, hword,
      Kind.isTypeWord, ho]
  have hpeek : s₃.peek.kind = .rightParen := by rw [State.peek_eq hs₃, hc]
  have hitem : item s = routine word.loc true s := by
    rw [item_eq hn (by simp [hword]) (by simp [hword]), if_pos hopens]
  have hblock : s₅.Enclosed P (rb :: back) := by
    have hquiet : s₅.reports = s.reports :=
      hq₅.trans (hq₄.trans (hq₃.trans (hq₂.trans hq₁)))
    refine ⟨⟨⟨rb, back, rfl, hrb, hp rb (by simp)⟩, inner, hinner.shuts, ?_, hs₅⟩, ?_⟩
    · exact fun t ht => hp t (mem_append_left _ ht)
    · simp [hquiet, hreports]
  have hclosed := block_closed s₅ hblock
  refine ⟨(block s₅).1, (block s₅).2.1, ?_, ?_, hclosed.rest, hclosed.reports⟩
  · have hle := (block s₅).2.2
    omega
  · simp [hitem, routine, State.typeName, State.expect, hn, hn₁, hn₂, hn₃, hn₄, hword, hname, ho,
      hc, hlb, routineRest, hpeek, Reply.bind, Reply.extend, Reply.within, Reply.map]

end Grammar

namespace Parsed

open Grammar

-- Errors inside the body of a routine stay inside of it. Whatever its tokens are, as long as their
-- braces match, the programs around the routine are read as they are read alone, but for numbers,
-- and the routine is read between them. Reports stand at tokens of the body or at its brace, and
-- none says that a block was not closed.
theorem ofTokens_isolated {front inner back : List Token} {word name o c lb rb : Token}
    (hfront : (ofTokens front).diagnostics = []) (hback : (ofTokens back).diagnostics = [])
    (hends : NoEnd front ∧ NoEnd inner ∧ NoEnd back) (hinner : Balanced inner)
    (hword : word.kind = .voidKw) (hname : name.kind = .identifier) (ho : o.kind = .leftParen)
    (hc : c.kind = .rightParen) (hlb : lb.kind = .leftBrace) (hrb : rb.kind = .rightBrace) :
    let parsed := ofTokens (front ++ word :: name :: o :: c :: lb :: (inner ++ rb :: back))
    (∃ before body behind,
      parsed.items = before ++ .routine word.loc name.text [] .void true body :: behind ∧
      before.map Stmt.unnumbered = (ofTokens front).items.map Stmt.unnumbered ∧
      behind.map Stmt.unnumbered = (ofTokens back).items.map Stmt.unnumbered) ∧
    ∀ d ∈ parsed.diagnostics, (∃ t ∈ inner ++ [rb], t.loc = d.loc) ∧
      ∀ found, d.message ≠ (Cause.unclosedBlock found).message := by
  intro parsed
  obtain ⟨hendFront, hendInner, hendBack⟩ := hends
  have hend : NoEnd (front ++ word :: name :: o :: c :: lb :: (inner ++ rb :: back)) := by
    simp_all
  -- The program in front.
  obtain ⟨before, s₁, hloop₁, hbefore, hq₁, hrest₁⟩ :=
    items_recur hfront hendFront (by simp [NoElse, hword]) (rest_ofTokens_of_noEnd hend) []
  -- The routine.
  obtain ⟨body, s₂, h₂, hitem, hrest₂, hreports₂⟩ :=
    item_routine (P := fun loc => ∃ t ∈ inner ++ [rb], t.loc = loc) hword hname ho hc hlb hrb hinner
      hrest₁ (fun t ht => ⟨t, ht, rfl⟩) hq₁
  -- The program behind it.
  obtain ⟨behind, s₃, hloop₂, hbehind, hq₃⟩ := items_recur_last hback hendBack hrest₂
    (.routine word.loc name.text [] .void true body :: (before.reverse ++ []))
  obtain ⟨_, _, hn₁, -⟩ := State.next_eq hrest₁
  have hitems : Grammar.items []
      (.ofTokens (front ++ word :: name :: o :: c :: lb :: (inner ++ rb :: back))) =
      (before ++ .routine word.loc name.text [] .void true body :: behind, s₃) := by
    rw [hloop₁, Grammar.items]
    simp only [hn₁, hitem, hloop₂]
    simp
  refine ⟨⟨before, body, behind, by simp [parsed, ofTokens, hitems], hbefore, hbehind⟩, ?_⟩
  intro d hd
  have hd : d ∈ s₂.reports := by
    rw [← hq₃]
    simpa [parsed, ofTokens, hitems] using hd
  exact ⟨(hreports₂ d hd).loc, (hreports₂ d hd).message⟩

-- The body of `f` is cut off from the loop in front of it and the assignment behind it.
theorem ofTokens_isolated_garbage :
    let tokens := (Lexed.ofSource <|
      "for ;; \x7b x = 1; \x7d void f() \x7b ) \x7b if + ; \x7d class \x7b else \x7b x \x7d 1 " ++
      "\x7d int = ; y \x7d x = 2;").tokens.toList.dropLast
    let token (i : Nat) := tokens.getD i (.ending .first)
    let front := tokens.take 9
    let inner := (tokens.drop 14).take 18
    let back := tokens.drop 33
    let whole := front ++ token 9 :: token 10 :: token 11 :: token 12 :: token 13 ::
      (inner ++ token 32 :: back)
    whole = tokens ∧ (ofTokens whole).diagnostics.length = 4 ∧
    (∃ before body behind, (ofTokens whole).items =
        before ++ .routine (token 9).loc (token 10).text [] .void true body :: behind ∧
      before.map Stmt.unnumbered = (ofTokens front).items.map Stmt.unnumbered ∧
      behind.map Stmt.unnumbered = (ofTokens back).items.map Stmt.unnumbered) ∧
    ∀ d ∈ (ofTokens whole).diagnostics, (∃ t ∈ inner ++ [token 32], t.loc = d.loc) ∧
      ∀ found, d.message ≠ (Cause.unclosedBlock found).message := by
  intro tokens token front inner back whole
  have hall : (whole = tokens ∧ (ofTokens whole).diagnostics.length = 4) ∧
      (ofTokens front).diagnostics = [] ∧ (ofTokens back).diagnostics = [] ∧
      (∀ t ∈ tokens, t.kind ≠ .endMarker) ∧ Balanced inner ∧ (token 9).kind = .voidKw ∧
      (token 10).kind = .identifier ∧ (token 11).kind = .leftParen ∧
      (token 12).kind = .rightParen ∧ (token 13).kind = .leftBrace ∧
      (token 32).kind = .rightBrace := by
    decide +kernel +zetaReduce
  obtain ⟨hwhole, hfront, hback, hend, hinner, hword, hname, ho, hc, hlb, hrb⟩ := hall
  have hends : NoEnd front ∧ NoEnd inner ∧ NoEnd back :=
    ⟨fun t ht => hend t (mem_of_mem_take ht),
      fun t ht => hend t (mem_of_mem_drop (mem_of_mem_take ht)),
      fun t ht => hend t (mem_of_mem_drop ht)⟩
  exact ⟨hwhole.1, hwhole.2,
    ofTokens_isolated hfront hback hends hinner hword hname ho hc hlb hrb⟩

end Parsed
end Lumen
