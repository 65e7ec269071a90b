import Lumen.Proofs.Grammar.Recurrence

namespace Lumen

open List

namespace Grammar

open Token (Kind)

variable {s : State} {t : Token} {rest back : List Token}

-- Binary operators other than `-`, assignments, `.`, `)` and `,` belong behind something, so that
-- no statement begins with them.
def misplaced (kind : Kind) : Bool :=
  goesOn kind && kind ≠ .minus && kind ≠ .leftParen || kind = .rightParen || kind = .comma

structure OpensNothing (kind : Kind) : Prop where
  primary : opensPrimary kind = false
  unary   : unaryOp? kind = none
  lead    : leads kind = false
  static  : kind ≠ .staticKw
  type    : kind.isTypeWord = false

theorem opensNothing_of_misplaced (h : misplaced kind) : OpensNothing kind := by
  cases kind <;> first | exact ⟨rfl, rfl, rfl, by decide, rfl⟩ | exact absurd h (by decide)

theorem opensNothing_semicolon : OpensNothing .semicolon :=
  ⟨rfl, rfl, rfl, by decide, rfl⟩

section

variable (hrest : s.cursor.rest = t :: rest)

include hrest

theorem primary_failed (ht : opensPrimary t.kind = false) :
    primary s = s.fail (.expectedExpression t) := by
  obtain ⟨s₁, h₁, hn, -⟩ := State.next_eq hrest
  rw [primary]
  simp only [hn, literal?]
  cases hk : t.kind <;> first | rfl | simp [hk, opensPrimary] at ht

theorem expression_failed (ht : OpensNothing t.kind) :
    expression s = s.fail (.expectedExpression t) := by
  have hlevel (ops : List Operators) : level ops s = s.fail (.expectedExpression t) := by
    induction ops
    case cons ops tighter ih =>
      rw [level, ih]
      rfl
    case nil =>
      obtain ⟨s₁, h₁, hn, -⟩ := State.next_eq hrest
      rw [level, unary]
      simp only [hn, ht.unary]
      rw [power, chained, primary_failed hrest ht.primary]
      rfl
  rw [expression, hlevel]
  rfl

theorem item_failed (ht : OpensNothing t.kind) :
    item s = s.fail (.expectedExpression t) := by
  obtain ⟨s₁, h₁, hn, -⟩ := State.next_eq hrest
  have hclass : t.kind ≠ .classKw := by
    intro hk
    simpa [hk, leads] using ht.lead
  have hdecl : s.cursor.opensDeclaration = false := by
    have hname : t.kind ≠ .identifier := by
      intro hk
      simpa [hk, opensPrimary] using ht.primary
    simp [Cursor.opensDeclaration, Cursor.peek, hrest, ht.type, hname]
  rw [item_eq hn hclass ht.static, opensRoutine_eq_false hdecl, if_neg Bool.false_ne_true,
    statement_eq hn ht.lead, hdecl, if_neg Bool.false_ne_true, simpleStatement, simple,
    expression_failed hrest ht]
  rfl

end

theorem passOver_eq {junk : List Token} {semicolon : Token} (before : Option Token)
    (hjunk : ∀ t ∈ junk, t.kind ≠ .semicolon ∧ t.kind ≠ .leftBrace ∧ t.kind ≠ .rightBrace ∧
      t.kind.opensStatement = false)
    (hsemi : semicolon.kind = .semicolon) :
    passOver 0 before (junk ++ semicolon :: back) = (some semicolon, back) := by
  induction junk generalizing before
  case nil => simp [passOver, hsemi]
  case cons t junk ih =>
    obtain ⟨⟨hs, hl, hr, ho⟩, hjunk⟩ := forall_mem_cons.mp hjunk
    rw [cons_append, passOver]
    split <;> simp_all

-- The tokens `lost` are left out wherever an item begins, and reported once, at `loc`.
def LeavesOut (lost back : List Token) (loc : Location) : Prop :=
  ∀ (s : State) done, s.cursor.rest = lost ++ back → ∃ s₁ d, items done s = items done s₁ ∧
    s₁.cursor.rest = back ∧ s₁.reports = d :: s.reports ∧ d.loc = loc

theorem leavesOut_misplaced {first semicolon : Token} {junk : List Token}
    (hfirst : misplaced first.kind)
    (hjunk : ∀ t ∈ junk, t.kind ≠ .semicolon ∧ t.kind ≠ .leftBrace ∧ t.kind ≠ .rightBrace ∧
      t.kind.opensStatement = false)
    (hsemi : semicolon.kind = .semicolon) :
    LeavesOut (first :: junk ++ [semicolon]) back first.loc := by
  intro s done hrest
  have hrest : s.cursor.rest = first :: (junk ++ semicolon :: back) := by simpa using hrest
  have hk : first.kind ≠ .semicolon ∧ first.kind ≠ .leftBrace := by
    constructor <;> intro hk <;> rw [hk] at hfirst <;> exact absurd hfirst (by decide)
  let d := (s.failure (.expectedExpression first)).diagnostic s.leadingHint?
  obtain ⟨s₁, h₁, hn, -⟩ := State.next_eq hrest
  obtain ⟨s₂, h₂, hn₂, hs₂, hq₂⟩ := State.next_eq (s := s.report d) hrest
  have hpass := @passOver_eq back junk semicolon s₂.cursor.before hjunk hsemi
  refine ⟨s₂.passOver 0, d, ?_, ?_, hq₂, ?_⟩
  · have hgo (hle : s.left ≤ s.left) (hpos : 0 < s.left) :
        (s.goOn (s.failure (.expectedExpression first)) s hle hpos).1 = s₂.passOver 0 := by
      have hmove : (s.moveOn (s.report d) hle hpos).1 = s₂.passOver 0 := by
        unfold State.moveOn
        split
        case isFalse hne => exact absurd rfl hne
        case isTrue =>
          simp only [hn₂]
          split <;> simp_all [State.skip]
      exact hmove
    rw [items]
    simp only [hn, item_failed hrest (opensNothing_of_misplaced hfirst), State.fail, hgo]
  · simp [State.passOver, State.rewind, hs₂, hpass]
  · simp [d, Failure.diagnostic, State.failure, State.peek_eq hrest]

theorem ofTokens_leavesOut {front lost : List Token} {loc : Location}
    (hfront : (Parsed.ofTokens front).diagnostics = [])
    (hback : (Parsed.ofTokens back).diagnostics = [])
    (hends : NoEnd front ∧ NoEnd lost ∧ NoEnd back) (hno : NoElse (lost ++ back))
    (hlost : LeavesOut lost back loc) :
    (∃ d, (Parsed.ofTokens (front ++ (lost ++ back))).diagnostics = [d] ∧ d.loc = loc) ∧
      (Parsed.ofTokens (front ++ (lost ++ back))).items.map Stmt.unnumbered =
        ((Parsed.ofTokens front).items ++ (Parsed.ofTokens back).items).map Stmt.unnumbered := by
  have hend : NoEnd (front ++ (lost ++ back)) := by simp_all
  obtain ⟨before, s₁, hloop₁, hbefore, hq₁, hrest₁⟩ :=
    items_recur hfront hends.1 hno (rest_ofTokens_of_noEnd hend) []
  obtain ⟨s₂, d, hloop₂, hrest₂, hreports, hd⟩ := hlost s₁ (before.reverse ++ []) hrest₁
  obtain ⟨behind, s₃, hloop₃, hbehind, hq₃⟩ :=
    items_recur_last hback hends.2.2 hrest₂ (before.reverse ++ [])
  have hitems : items [] (.ofTokens (front ++ (lost ++ back))) = (before ++ behind, s₃) := by
    rw [hloop₁, hloop₂, hloop₃]
    simp
  refine ⟨⟨d, ?_, hd⟩, ?_⟩
  · have hquiet : s₃.reports = [d] := by
      rw [hq₃, hreports, hq₁]
      rfl
    simp [Parsed.ofTokens, hitems, hquiet]
  · simp [Parsed.ofTokens, hitems, hbefore, hbehind]

-- The rule has read up to `back`, where it misses a `;` behind `last`, and reading goes on there.
def Reply.Misses {α : Type} {n : Nat} (s : State) (last : Token) (back : List Token) :
    Reply α n → Prop
  | .done .. => False
  | .failed f s₁ _ =>
    s.Quiet s₁ ∧ s₁.cursor.rest = back ∧ f.loc = last.loc ∧ f.resume = some s₁.cursor

namespace Reply

variable {α β : Type} {m n : Nat} {last : Token}

theorem Misses.within {r : Reply α m} (hr : r.Misses s last back) :
    (r.within h).Misses s last back := by
  cases r <;> exact hr

theorem Misses.map {f : α → β} {r : Reply α n} (hr : r.Misses s last back) :
    (r.map f).Misses s last back := by
  cases r <;> exact hr

theorem Misses.behind {r : Reply α n} (hq : s.Quiet s₁) (hr : r.Misses s₁ last back) :
    r.Misses s last back := by
  cases r
  case done => exact hr
  case failed => exact ⟨hr.1.trans hq, hr.2⟩

theorem Gives.bindMisses {f : α → (s : State) → s.left < n → Reply β s.left} {r : Reply α n}
    {P : α → Prop} (hr : r.Gives s k P)
    (hf : ∀ a s₁ h₁, r = .done a s₁ h₁ → s₁.cursor.rest = k → (f a s₁ h₁).Misses s₁ last back) :
    (r.bind f).Misses s last back := by
  obtain ⟨a, s₁, h₁, rfl, hs₁, hq, -⟩ := hr.eq_done
  simp only [Reply.bind, Reply.extend]
  exact .behind hq (.within (hf a s₁ h₁ rfl hs₁))

end Reply

section Unfinished

variable {last first : Token} {lost : List Token} (hlast : lost.getLast? = some last)
  (hline : last.loc.line < first.loc.line) (hsemi : first.kind ≠ .semicolon)

include hlast hline hsemi

theorem bind_semicolon_misses {α β : Type} {P : α → Prop} {Q : List Token → State → α → Prop}
    {r : Reply α s.left} {f : α → β} {context : String} (hr : r.Gives s (first :: rest) P)
    (hm : r.Meets s Q) (hs : s.cursor.rest = lost ++ first :: rest) :
    (r.bind fun a s₁ _ => (s₁.semicolon context).map fun _ => f a).Misses s last
      (first :: rest) := by
  refine hr.bindMisses fun a s₁ h₁ hx hs₁ => .map ?_
  rw [hx] at hm
  obtain ⟨used, hreads, -⟩ := hm
  have hused : used = lost := by
    have := hreads.rest
    rw [hs, hs₁] at this
    exact (append_cancel_right this).symm
  have hbefore : s₁.cursor.before = some last := by rw [hreads.before, hused, hlast, Option.some_or]
  have hnone : s₁.accept? .semicolon = none := by
    refine State.accept?_eq_none fun t ht => ?_
    obtain rfl : first = t := by simpa [hs₁] using ht
    exact hsemi
  simp only [State.semicolon, hnone]
  refine ⟨rfl, hs₁, ?_, ?_⟩ <;>
    simp [State.missingSemicolon, hbefore, State.peek_eq hs₁, hline]

variable (hclose : goesOn first.kind = false)

include hclose

theorem VariableHead.misses (h : VariableHead lost stmt)
    (hs : s.cursor.rest = lost ++ first :: rest) :
    (variableDeclaration s).Misses s last (first :: rest) := by
  obtain ⟨x, -, hagain⟩ := h.recurs
  exact bind_semicolon_misses hlast hline hsemi (hagain s _ hs (.cons hclose))
    (variableHead_meets s s.worded_all) hs

theorem Simple.misses (h : Simple lost stmt) (hs : s.cursor.rest = lost ++ first :: rest) :
    (simpleStatement s).Misses s last (first :: rest) := by
  obtain ⟨x, -, hagain⟩ := h.recurs
  exact bind_semicolon_misses hlast hline hsemi (hagain s _ hs (Closes.cons hclose).stops)
    (simple_meets s s.worded_all) hs

theorem constant_misses {word type name t : Token} {vs : List Token} {value : Expr}
    (hw : word.kind = .constKw) (ht : typeOf? type = some tn) (hn : name.kind = .identifier)
    (hk : t.kind = .assign) (hv : Expression vs value)
    (hlost : lost = word :: type :: name :: t :: vs) (hs : s.cursor.rest = lost ++ first :: rest) :
    (statement s).Misses s last (first :: rest) := by
  have hvs : vs.getLast? = some last := by
    obtain ⟨u, us, rfl, -⟩ := Expression.head hv
    simpa [hlost] using hlast
  obtain ⟨s₁, h₁, hnext, hs₁, hq₁⟩ := State.next_eq (hlost ▸ hs)
  rw [statement]
  simp only [hnext, hw]
  refine .within (.behind hq₁ ?_)
  refine (State.typeName_gives hs₁ ht).bindMisses fun tn' s₂ _ _ hs₂ => ?_
  refine (State.expect_gives hs₂ hn).bindMisses fun name' s₃ _ _ hs₃ => ?_
  obtain ⟨s₄, h₄, ha, hs₄, hq₄⟩ := State.accept?_eq hs₃ hk
  simp only [ha]
  refine .within (.behind hq₄ ?_)
  obtain ⟨x, -, hagain⟩ := hv.recurs
  exact bind_semicolon_misses hvs hline hsemi (hagain s₄ _ hs₄ (Closes.cons hclose).ends)
    (expression_meets s₄ s₄.worded_all) hs₄

end Unfinished

-- What is no lone name shows by its own tokens that it is no declaration.
theorem Simple.not_declaration_of_lone {lost : List Token} (h : Simple lost stmt)
    (hlone : ∀ t, lost = [t] → t.kind ≠ .identifier) (hs : s.cursor.rest = lost ++ rest) :
    s.cursor.opensDeclaration = false := by
  rcases lost with _ | ⟨t, _ | ⟨u, us⟩⟩
  case nil =>
    obtain ⟨_, _, hnil, -⟩ := h.head
    cases hnil
  case cons.nil =>
    obtain ⟨_, _, heq, -, htype, -⟩ := h.head
    obtain ⟨rfl, -⟩ := List.cons.inj heq
    simp [Cursor.opensDeclaration, Cursor.peek, hs, htype, hlone]
  case cons.cons =>
    -- The same with a `;` behind it.
    let c : Cursor := ⟨none, t :: u :: us ++ [⟨.semicolon, ";", .first⟩], .ending .first, []⟩
    have hc : c.opensDeclaration = false := h.not_declaration rfl (by simp)
    simpa [c, Cursor.opensDeclaration, Cursor.peek, Cursor.ahead?, hs] using hc

def isPlain : Stmt → Bool
  | .variable .. | .constant .. | .assign .. | .evaluate .. => true
  | _ => false

theorem written_of_plain (hend : NoEnd ts) (hclean : (Parsed.ofTokens ts).diagnostics = [])
    (hplain : (Parsed.ofTokens ts).items.map isPlain = [true]) :
    ∃ stmt, isPlain stmt ∧ Written true .statement ts [stmt] := by
  obtain ⟨used, hreads, -, hwritten, -⟩ := items_reads (.ofTokens ts) (State.worded_all _)
  have hused : used = ts := by
    have hrest := hreads.rest
    rw [items_exhaust, append_nil, rest_ofTokens_of_noEnd hend] at hrest
    exact hrest.symm
  have hwritten : WrittenItems true ts (Parsed.ofTokens ts).items :=
    hused ▸ hwritten (reverse_eq_nil_iff.mp hclean)
  generalize (Parsed.ofTokens ts).items = items at hplain hwritten
  cases hwritten
  case nil => cases hplain
  case cons hitem hrest =>
    cases hrest
    case cons => simp at hplain
    case nil =>
      rw [append_nil] at *
      cases hitem
      case statement hst => exact ⟨_, by simpa using hplain, hst⟩
      case classDef => simp [isPlain] at hplain
      case routine hr => cases hr; simp [isPlain] at hplain
      case staticRoutine hr => cases hr; simp [isPlain] at hplain

theorem Written.item_misses {last first semicolon : Token} {lost : List Token}
    (h : Written loose .statement (lost ++ [semicolon]) [stmt]) (hplain : isPlain stmt)
    (hlone : ∀ t, lost = [t] → t.kind ≠ .identifier) (hlast : lost.getLast? = some last)
    (hline : last.loc.line < first.loc.line) (hsemi : first.kind ≠ .semicolon)
    (hparen : first.kind ≠ .leftParen) (hclose : goesOn first.kind = false)
    (hs : s.cursor.rest = lost ++ first :: rest) : (item s).Misses s last (first :: rest) := by
  generalize hts : lost ++ [semicolon] = ts at h
  cases h
  case declaration hv =>
    obtain ⟨rfl, -⟩ := append_inj' hts rfl
    rw [hv.item_eq hs hparen, hv.statement_eq hs]
    exact hv.misses hlast hline hsemi hclose hs
  case constant vs word type name t loc tn value hw ht hn hk hv _ =>
    obtain ⟨hlost, -⟩ := append_inj' hts rfl
    rw [item_eq_of_leads (hlost ▸ hs) (by simp [hw, leads]) (by simp [hw])]
    exact constant_misses hlast hline hsemi hclose hw ht hn hk hv hlost hs
  case simple hsimple =>
    obtain ⟨rfl, -⟩ := append_inj' hts rfl
    have hdecl := hsimple.not_declaration_of_lone hlone hs
    rw [hsimple.item_eq hs hdecl, hsimple.statement_eq hs hdecl]
    exact hsimple.misses hlast hline hsemi hclose hs
  all_goals simp [isPlain] at hplain

theorem leavesOut_of_misses {last : Token} {lost : List Token} (hlost : lost ≠ [])
    (h : ∀ s : State, s.cursor.rest = lost ++ back → (item s).Misses s last back) :
    LeavesOut lost back last.loc := by
  intro s done hrest
  obtain ⟨t, ts, rfl⟩ := exists_cons_of_ne_nil hlost
  obtain ⟨s₁, h₁, hn, -⟩ := State.next_eq hrest
  have hmisses := h s hrest
  cases hitem : item s
  case done => rw [hitem] at hmisses; exact hmisses.elim
  case failed f s₂ h₂ =>
    rw [hitem] at hmisses
    obtain ⟨hq, hrest₂, hloc, hresume⟩ := hmisses
    have hlater : s₂.cursor.rest.length < s.left := by
      simp only [State.left, hrest, hrest₂, length_append, length_cons]
      omega
    refine ⟨s₂.report (f.diagnostic s.leadingHint?), _, ?_, hrest₂, congrArg (_ :: ·) hq, hloc⟩
    rw [items]
    simp only [hn, hitem, State.goOn, hresume, dif_pos hlater]
    rfl

theorem not_opensNothing_of_clean (hclean : (Parsed.ofTokens (t :: rest)).diagnostics = [])
    (hend : NoEnd (t :: rest)) : ¬OpensNothing t.kind := by
  intro ht
  have hrest := rest_ofTokens_of_noEnd hend
  have hquiet : (State.ofTokens (t :: rest)).Quiet (items [] (State.ofTokens (t :: rest))).2 :=
    reverse_eq_nil_iff.mp hclean
  generalize State.ofTokens (t :: rest) = s at hrest hquiet
  obtain ⟨s₁, h₁, hn, -⟩ := State.next_eq hrest
  have hitem := item_failed hrest ht
  have hmeets := item_meets s s.worded_all
  have hround : s.round item (fun _ => false) = some (none, (s.goOn (s.failure
      (.expectedExpression t)) s s.left_refl (State.left_pos h₁)).1) := by
    simp [State.round, hn, hitem, State.fail]
  obtain ⟨hgoes, -⟩ := round_goes hmeets hround
  rw [items_rounds, hround] at hquiet
  obtain ⟨_, hitems, -⟩ := items_reads
    (s.goOn (s.failure (.expectedExpression t)) s s.left_refl (State.left_pos h₁)).1
    (State.worded_all _)
  rw [hitem] at hmeets
  obtain ⟨⟨_, hreads⟩, -⟩ := hmeets
  exact State.goOn_not_quiet hreads.goes (hgoes.quiet hitems.goes hquiet).1

end Grammar

namespace Parsed

open Grammar

-- Between two programs, tokens that begin where no statement can begin cost one report, at the
-- first of them. Up to the `;` they are left out, and nothing else is.
theorem ofTokens_misplaced {front junk back : List Token} {first semicolon : Token}
    (hfront : (ofTokens front).diagnostics = []) (hback : (ofTokens back).diagnostics = [])
    (hends : NoEnd front ∧ NoEnd junk ∧ NoEnd back) (hfirst : misplaced first.kind)
    (hjunk : ∀ t ∈ junk, t.kind ≠ .semicolon ∧ t.kind ≠ .leftBrace ∧ t.kind ≠ .rightBrace ∧
      t.kind.opensStatement = false)
    (hsemi : semicolon.kind = .semicolon) :
    let parsed := ofTokens (front ++ first :: (junk ++ semicolon :: back))
    (∃ d, parsed.diagnostics = [d] ∧ d.loc = first.loc) ∧
      parsed.items.map Stmt.unnumbered =
        ((ofTokens front).items ++ (ofTokens back).items).map Stmt.unnumbered := by
  have hkinds : first.kind ≠ .endMarker ∧ first.kind ≠ .elseKw := by
    constructor <;> intro hk <;> rw [hk] at hfirst <;> exact absurd hfirst (by decide)
  have hlost : NoEnd (first :: junk ++ [semicolon]) := by simp [hkinds, hends, hsemi]
  have hno : NoElse (first :: junk ++ [semicolon] ++ back) := by simpa [NoElse] using hkinds.2
  simpa using ofTokens_leavesOut hfront hback ⟨hends.1, hlost, hends.2.2⟩ hno
    (leavesOut_misplaced hfirst hjunk hsemi)

theorem ofTokens_misplaced_sum :
    let tokens := (Lexed.ofSource "x = 1; + (y ** ) else 2 ; z = 3;").tokens.toList.dropLast
    let token (i : Nat) := tokens.getD i (.ending .first)
    let front := tokens.take 4
    let junk := (tokens.drop 5).take 6
    let back := tokens.drop 12
    let parsed := ofTokens (front ++ token 4 :: (junk ++ token 11 :: back))
    (∃ d, parsed.diagnostics = [d] ∧ d.loc = (token 4).loc) ∧ parsed.items.map Stmt.unnumbered =
      ((ofTokens front).items ++ (ofTokens back).items).map Stmt.unnumbered := by
  intro tokens token front junk back
  have hall : (ofTokens front).diagnostics = [] ∧ (ofTokens back).diagnostics = [] ∧
      ((∀ t ∈ front, t.kind ≠ .endMarker) ∧ (∀ t ∈ junk, t.kind ≠ .endMarker) ∧
        ∀ t ∈ back, t.kind ≠ .endMarker) ∧
      misplaced (token 4).kind ∧
      (∀ t ∈ junk, t.kind ≠ .semicolon ∧ t.kind ≠ .leftBrace ∧ t.kind ≠ .rightBrace ∧
        t.kind.opensStatement = false) ∧ (token 11).kind = .semicolon := by
    decide +kernel +zetaReduce
  obtain ⟨hfront, hback, hends, hfirst, hjunk, hsemi⟩ := hall
  exact ofTokens_misplaced hfront hback hends hfirst hjunk hsemi

-- Between two programs, a statement whose `;` is missing at the end of its line costs one report,
-- at its last token, and nothing but that statement.
theorem ofTokens_unfinished {front lost back : List Token} {semicolon last first : Token}
    (hfront : (ofTokens front).diagnostics = []) (hback : (ofTokens back).diagnostics = [])
    (hends : NoEnd front ∧ NoEnd lost ∧ NoEnd back) (hsemi : semicolon.kind = .semicolon)
    (hlost : (ofTokens (lost ++ [semicolon])).diagnostics = [])
    (hplain : (ofTokens (lost ++ [semicolon])).items.map isPlain = [true])
    (hlone : ∀ t, lost = [t] → t.kind ≠ .identifier) (hlast : lost.getLast? = some last)
    (hfirst : back.head? = some first) (hline : last.loc.line < first.loc.line)
    (hkind : first.kind ≠ .leftParen ∧ first.kind ≠ .minus) :
    let parsed := ofTokens (front ++ (lost ++ back))
    (∃ d, parsed.diagnostics = [d] ∧ d.loc = last.loc) ∧
      parsed.items.map Stmt.unnumbered =
        ((ofTokens front).items ++ (ofTokens back).items).map Stmt.unnumbered := by
  obtain ⟨rest, rfl⟩ := head?_eq_some_iff.mp hfirst
  have hopens := not_opensNothing_of_clean hback hends.2.2
  have hfirstSemi : first.kind ≠ .semicolon := fun hk => hopens (hk ▸ opensNothing_semicolon)
  have hclose : goesOn first.kind = false := by
    have hnot : ¬misplaced first.kind := fun hm => hopens (opensNothing_of_misplaced hm)
    simp only [misplaced, Bool.or_eq_true, Bool.and_eq_true, decide_eq_true_eq] at hnot
    simp_all
  obtain ⟨stmt, hstmt, hwritten⟩ := written_of_plain (by simp [hends, hsemi]) hlost hplain
  have hne : lost ≠ [] := by
    rintro rfl
    cases hlast
  have hno : NoElse (lost ++ first :: rest) := by
    obtain ⟨t, ts, hts, helse, -⟩ := hwritten.head
    obtain ⟨u, us, rfl⟩ := exists_cons_of_ne_nil hne
    obtain ⟨rfl, -⟩ := List.cons.inj hts
    simpa [NoElse] using helse
  refine ofTokens_leavesOut hfront hback hends hno (leavesOut_of_misses hne fun s hs => ?_)
  exact hwritten.item_misses hstmt hlone hlast hline hfirstSemi hkind.1 hclose hs

theorem ofTokens_unfinished_declaration :
    let tokens := (Lexed.ofSource "x = 1;\nint y = f(x).z\n!y;").tokens.toList.dropLast
    let token (i : Nat) := tokens.getD i (.ending .first)
    let front := tokens.take 4
    let lost := (tokens.drop 4).take 9
    let back := tokens.drop 13
    let parsed := ofTokens (front ++ (lost ++ back))
    (∃ d, parsed.diagnostics = [d] ∧ d.loc = (token 12).loc) ∧ parsed.items.map Stmt.unnumbered =
      ((ofTokens front).items ++ (ofTokens back).items).map Stmt.unnumbered := by
  intro tokens token front lost back
  have hall : (ofTokens front).diagnostics = [] ∧ (ofTokens back).diagnostics = [] ∧
      ((∀ t ∈ front, t.kind ≠ .endMarker) ∧ (∀ t ∈ lost, t.kind ≠ .endMarker) ∧
        ∀ t ∈ back, t.kind ≠ .endMarker) ∧
      (token 3).kind = .semicolon ∧ (ofTokens (lost ++ [token 3])).diagnostics = [] ∧
      (ofTokens (lost ++ [token 3])).items.map isPlain = [true] ∧ lost.length = 9 ∧
      lost.getLast? = some (token 12) ∧ back.head? = some (token 13) ∧
      (token 12).loc.line < (token 13).loc.line ∧
      (token 13).kind ≠ .leftParen ∧ (token 13).kind ≠ .minus := by
    decide +kernel +zetaReduce
  obtain ⟨hfront, hback, hends, hsemi, hlost, hplain, hlength, hlast, hfirst, hline, hkind⟩ := hall
  have hlone : ∀ t, lost = [t] → t.kind ≠ .identifier := by
    intro t ht
    rw [ht] at hlength
    cases hlength
  exact ofTokens_unfinished hfront hback hends hsemi hlost hplain hlone hlast hfirst hline hkind

end Parsed
end Lumen
