import Lumen.Proofs.Grammar.Rereading.Parts

namespace Lumen.Grammar

open List State

open Token (Kind)

variable {t u name : Token} {rest ts k : List Token} {e : Expr} {body : List Stmt} {stmt : Stmt}
  {init : Option Expr} {loose isStatic : Bool} {m : Member} {s : State} {c : Cursor}
  {type tn : TypeName}

-- Most statements are told by their first word; the others are declarations or simple.
theorem statement_eq {s₁ : State} {h₁ : s₁.left < s.left} (hn : s.next = .token t s₁ h₁)
    (ht : leads t.kind = false) :
    statement s =
      if s.cursor.opensDeclaration then variableDeclaration s else simpleStatement s := by
  rw [statement]
  simp only [hn]
  split <;> simp_all [leads]

theorem leads_of_typeOf? (h : typeOf? t = some type) : leads t.kind = false := by
  unfold typeOf? at h
  split at h <;> simp_all [leads]

theorem VariableHead.statement_eq (h : VariableHead ts stmt) (hs : s.cursor.rest = ts ++ k) :
    statement s = variableDeclaration s := by
  cases h
  case inferred hw _ _ _ =>
    obtain ⟨s₁, h₁, hn, -⟩ := next_eq hs
    rw [statement]
    simp only [hn, hw]
  case typed ht hname _ =>
    obtain ⟨s₁, h₁, hn, -⟩ := next_eq hs
    rw [Grammar.statement_eq hn (leads_of_typeOf? ht),
      if_pos (opensDeclaration_eq_true hs ht hname)]

theorem Simple.statement_eq (h : Simple ts stmt) (hs : s.cursor.rest = ts ++ k)
    (hdecl : s.cursor.opensDeclaration = false) : statement s = simpleStatement s := by
  obtain ⟨t, rest, rfl, hleads, -⟩ := h.head
  obtain ⟨s₁, h₁, hn, -⟩ := next_eq hs
  rw [Grammar.statement_eq hn hleads, hdecl, if_neg Bool.false_ne_true]

theorem head?_append_left {α : Type} {as bs : List α} (h : as ≠ []) :
    (as ++ bs).head? = as.head? := by
  cases as <;> simp_all

def NoElse (k : List Token) : Prop :=
  ∀ t ∈ k.head?, t.kind ≠ .elseKw

-- A statement in front of `after` is read again where an `else` follows only if one follows there.
abbrev StatementRecurs (after : List Token) :=
  Recurs statement Stmt.unnumbered Stmt.unmarked fun k => NoElse after → NoElse k

abbrev ConditionRecurs (bs : List Token) :=
  Recurs expression Expr.unnumbered Expr.unmarked (·.head? = bs.head?)

abbrev BodyRecurs (after : List Token) :=
  Recurs Grammar.body (List.map Stmt.unnumbered) unmarkedIn fun k => NoElse after → NoElse k

def BlockRecurs (ts : List Token) (body : List Stmt) : Prop :=
  ∃ xs, unmarkedIn xs = unmarkedIn body ∧ ∀ (s : State) k, s.cursor.rest = ts ++ k →
    (block s).2.1.cursor.rest = k ∧ s.Quiet (block s).2.1 ∧
      (block s).1.map Stmt.unnumbered = xs

theorem Expression.recurs_condition {cs bs : List Token} (h : Expression cs e)
    (hends : (Rank.level levels).Ends (bs ++ k)) (hne : bs ≠ []) : ConditionRecurs bs cs e :=
  h.recurs.weaken fun _ hk => hends.of_head? (hk.trans (head?_append_left hne).symm)

namespace StatementRecurs

variable {loc : Location} {vs bs cs after : List Token} {word semicolon : Token} {condition : Expr}

theorem declaration (h : VariableHead ts stmt) (hsemi : semicolon.kind = .semicolon) :
    StatementRecurs after (ts ++ [semicolon]) stmt := by
  obtain ⟨x, hx, hagain⟩ := h.recurs
  refine ⟨x, hx, fun s k hs _ => ?_⟩
  have hs : s.cursor.rest = ts ++ semicolon :: k := by simpa using hs
  rw [h.statement_eq hs, variableDeclaration]
  refine (hagain s _ hs (.of_semicolon hsemi)).bind fun stmt' s₁ _ hs₁ hsame => .map ?_
  exact (semicolon_gives hs₁ hsemi).weaken fun _ _ => hsame

theorem simple (h : Simple ts stmt) (hsemi : semicolon.kind = .semicolon) :
    StatementRecurs after (ts ++ [semicolon]) stmt := by
  obtain ⟨x, hx, hagain⟩ := h.recurs
  refine ⟨x, hx, fun s k hs _ => ?_⟩
  have hs : s.cursor.rest = ts ++ semicolon :: k := by simpa using hs
  rw [h.statement_eq hs (h.not_declaration hs (by simp [hsemi])), simpleStatement]
  refine (hagain s _ hs (Closes.of_semicolon hsemi).stops).bind fun stmt' s₁ _ hs₁ hsame => .map ?_
  exact (semicolon_gives hs₁ hsemi).weaken fun _ _ => hsame

theorem constant {type : Token} {value : Expr} (hw : word.kind = .constKw)
    (ht : typeOf? type = some tn) (hn : name.kind = .identifier) (hk : t.kind = .assign)
    (hv : Expression vs value) (hsemi : semicolon.kind = .semicolon) :
    StatementRecurs after (word :: type :: name :: t :: vs ++ [semicolon])
      (.constant loc name.text tn value) := by
  obtain ⟨x, hx, hagain⟩ := hv.recurs
  refine ⟨.constant word.loc name.text tn x, by simp [hx], fun s k hs _ => ?_⟩
  obtain ⟨s₁, h₁, hnext, hs₁, hq₁⟩ := next_eq hs
  rw [statement]
  simp only [hnext, hw]
  refine .within _ (.behind hq₁ ?_)
  unfold constantDeclaration
  refine (typeName_gives hs₁ ht).bind fun tn' s₂ _ hs₂ htn => ?_
  refine (expect_gives hs₂ hn).bind fun name' s₃ _ hs₃ hname => ?_
  obtain ⟨s₄, h₄, ha, hs₄, hq₄⟩ := accept?_eq hs₃ hk
  simp only [ha]
  refine .within _ (.behind hq₄ ?_)
  refine (hagain s₄ (semicolon :: k) (by simpa using hs₄) (Closes.of_semicolon hsemi).ends).bind
    fun value' s₅ _ hs₅ hvalue => .map ?_
  refine (semicolon_gives hs₅ hsemi).weaken fun _ _ => ?_
  simp [htn, hname, hvalue]

theorem inner {o : Token} (ho : o.kind = .leftBrace) (h : BlockRecurs ts body) :
    StatementRecurs after (o :: ts) (.block loc body) := by
  obtain ⟨xs, hxs, hblock⟩ := h
  refine ⟨.block o.loc xs, by simp [hxs], fun s k hs _ => ?_⟩
  obtain ⟨s₁, h₁, hn, hs₁, hq₁⟩ := next_eq hs
  obtain ⟨hrest, hq, hsame⟩ := hblock s₁ k hs₁
  rw [statement]
  simp only [hn, ho]
  exact ⟨hrest, hq.trans hq₁, by simp [hsame]⟩

theorem branch (hw : word.kind = .ifKw) (hc : ConditionRecurs bs cs condition)
    (hb : BodyRecurs after bs body) (hne : bs ≠ []) (hafter : NoElse after) :
    StatementRecurs after (word :: cs ++ bs) (.branch loc condition body none) := by
  obtain ⟨x, hx, hcond⟩ := hc
  obtain ⟨ys, hys, hbody⟩ := hb
  refine ⟨.branch word.loc x ys none, by simp [hx, hys], fun s k hs hk => ?_⟩
  obtain ⟨s₁, h₁, hn, hs₁, hq₁⟩ := next_eq hs
  rw [statement]
  simp only [hn, hw]
  refine .within _ (.behind hq₁ ?_)
  rw [Grammar.branch]
  refine (hcond s₁ (bs ++ k) (by simpa using hs₁) (head?_append_left hne)).bind
    fun condition' s₂ _ hs₂ hcond => ?_
  refine (hbody s₂ k hs₂ hk).extend fun body' s₃ h₃ hs₃ hbody => ?_
  rw [accept?_eq_none fun t ht => hk hafter t (hs₃ ▸ ht)]
  exact ⟨hs₃, rfl, by simp [hcond, hbody]⟩

theorem branchElse {es : List Token} {otherwise : Token} {other : List Stmt}
    (hw : word.kind = .ifKw) (hc : ConditionRecurs bs cs condition)
    (hb : BodyRecurs (otherwise :: es ++ after) bs body) (hne : bs ≠ [])
    (ho : otherwise.kind = .elseKw) (he : BodyRecurs after es other) :
    StatementRecurs after (word :: cs ++ bs ++ otherwise :: es)
      (.branch loc condition body (some other)) := by
  obtain ⟨x, hx, hcond⟩ := hc
  obtain ⟨ys, hys, hbody⟩ := hb
  obtain ⟨zs, hzs, helse⟩ := he
  refine ⟨.branch word.loc x ys (some zs), by simp [unmarkedElse, hx, hys, hzs],
    fun s k hs hk => ?_⟩
  obtain ⟨s₁, h₁, hn, hs₁, hq₁⟩ := next_eq hs
  rw [statement]
  simp only [hn, hw]
  refine .within _ (.behind hq₁ ?_)
  rw [Grammar.branch]
  refine (hcond s₁ (bs ++ (otherwise :: es ++ k)) (by simpa using hs₁)
    (head?_append_left hne)).bind fun condition' s₂ _ hs₂ hcond => ?_
  refine (hbody s₂ _ hs₂ fun h => absurd ho (h otherwise rfl)).extend
    fun body' s₃ h₃ hs₃ hbody => ?_
  obtain ⟨s₄, h₄, ha, hs₄, hq₄⟩ := accept?_eq hs₃ ho
  rw [ha]
  refine .within _ (.map (.behind hq₄ ((helse s₄ k hs₄ hk).weaken fun other' hother => ?_)))
  simp [hcond, hbody, hother]

theorem whileLoop (hw : word.kind = .whileKw) (hc : ConditionRecurs bs cs condition)
    (hb : BodyRecurs after bs body) (hne : bs ≠ []) :
    StatementRecurs after (word :: cs ++ bs) (.whileLoop loc condition body) := by
  obtain ⟨x, hx, hcond⟩ := hc
  obtain ⟨ys, hys, hbody⟩ := hb
  refine ⟨.whileLoop word.loc x ys, by simp [hx, hys], fun s k hs hk => ?_⟩
  obtain ⟨s₁, h₁, hn, hs₁, hq₁⟩ := next_eq hs
  rw [statement]
  simp only [hn, hw]
  refine .within _ (.behind hq₁ ?_)
  rw [Grammar.whileLoop]
  refine (hcond s₁ (bs ++ k) (by simpa using hs₁) (head?_append_left hne)).bind
    fun condition' s₂ _ hs₂ hcond => .map ?_
  exact (hbody s₂ k hs₂ hk).weaken fun body' hbody => by simp [hcond, hbody]

theorem forLoop {hs : List Token} {init update : Option Stmt} {condition : Option Expr}
    (hw : word.kind = .forKw)
    (hh : Recurs Grammar.header unnumberedHeader unmarkedHeader (·.head? = bs.head?) hs
      (init, condition, update))
    (hb : BodyRecurs after bs body) (hne : bs ≠ []) :
    StatementRecurs after (word :: hs ++ bs) (.forLoop loc init condition update body) := by
  obtain ⟨⟨x, y, z⟩, hx, hheader⟩ := hh
  obtain ⟨ys, hys, hbody⟩ := hb
  simp only [unmarkedHeader, Prod.mk.injEq] at hx
  refine ⟨.forLoop word.loc x y z ys, by simp [unmarkedOption_eq, unmarkedStep_eq, hx, hys],
    fun s k hs hk => ?_⟩
  obtain ⟨s₁, h₁, hn, hs₁, hq₁⟩ := next_eq hs
  rw [statement]
  simp only [hn, hw]
  refine .within _ (.behind hq₁ ?_)
  rw [Grammar.forLoop]
  refine (hheader s₁ (bs ++ k) (by simpa using hs₁) (head?_append_left hne)).bind
    fun header' s₂ _ hs₂ hheader => ?_
  obtain ⟨init', condition', update'⟩ := header'
  simp only [unnumberedHeader, Prod.mk.injEq] at hheader
  refine .map ((hbody s₂ k hs₂ hk).weaken fun body' hbody => ?_)
  simp [unnumberedOption_eq, unnumberedStep_eq, hheader, hbody]

theorem result {value : Option Expr} (hw : word.kind = .returnKw)
    (hv : Optional Expression vs value) (hsemi : semicolon.kind = .semicolon) :
    StatementRecurs after (word :: vs ++ [semicolon]) (.result loc value) := by
  obtain ⟨x, hx, hagain⟩ := hv.recurs "after return value" hsemi
    (fun _ => (Closes.of_semicolon hsemi).ends) (fun _ => Expression.not_semicolon)
    fun _ => Expression.recurs
  refine ⟨.result word.loc x, by simp [unmarkedOption_eq, hx], fun s k hs _ => ?_⟩
  obtain ⟨s₁, h₁, hn, hs₁, hq₁⟩ := next_eq hs
  rw [statement]
  simp only [hn, hw]
  refine .within _ (.behind hq₁ (.map ?_))
  exact (hagain s₁ k hs₁ trivial).weaken fun value' hvalue => by simp [unnumberedOption_eq, hvalue]

theorem breakLoop (hw : word.kind = .breakKw) (hsemi : semicolon.kind = .semicolon) :
    StatementRecurs after [word, semicolon] (.breakLoop loc) := by
  refine ⟨.breakLoop word.loc, rfl, fun s k hs _ => ?_⟩
  obtain ⟨s₁, h₁, hn, hs₁, hq₁⟩ := next_eq hs
  rw [statement]
  simp only [hn, hw]
  exact .within _ (.behind hq₁ (.map ((semicolon_gives hs₁ hsemi).weaken fun _ _ => rfl)))

theorem continueLoop (hw : word.kind = .continueKw) (hsemi : semicolon.kind = .semicolon) :
    StatementRecurs after [word, semicolon] (.continueLoop loc) := by
  refine ⟨.continueLoop word.loc, rfl, fun s k hs _ => ?_⟩
  obtain ⟨s₁, h₁, hn, hs₁, hq₁⟩ := next_eq hs
  rw [statement]
  simp only [hn, hw]
  exact .within _ (.behind hq₁ (.map ((semicolon_gives hs₁ hsemi).weaken fun _ _ => rfl)))

end StatementRecurs

namespace BodyRecurs

variable {after : List Token}

theorem braced {o : Token} (ho : o.kind = .leftBrace) (h : BlockRecurs ts body) :
    BodyRecurs after (o :: ts) body := by
  obtain ⟨xs, hxs, hblock⟩ := h
  refine ⟨xs, hxs, fun s k hs _ => ?_⟩
  obtain ⟨s₁, h₁, ha, hs₁, hq₁⟩ := accept?_eq hs ho
  obtain ⟨hrest, hq, hsame⟩ := hblock s₁ k hs₁
  rw [Grammar.body]
  simp only [ha]
  exact ⟨hrest, hq.trans hq₁, hsame⟩

theorem single (h : StatementRecurs after (t :: ts) stmt) (ht : t.kind ≠ .leftBrace) :
    BodyRecurs after (t :: ts) [stmt] := by
  obtain ⟨x, hx, hagain⟩ := h
  refine ⟨[x], by simp [unmarkedIn, hx], fun s k hs hk => ?_⟩
  rw [Grammar.body, accept?_eq_none (by simpa [hs] using ht)]
  exact .map ((hagain s k hs hk).weaken fun stmt' hsame => by simp [hsame])

end BodyRecurs

section Sequence

variable {α γ : Type} {rule : (s : State) → Reply α s.left} {f : α → α} {g : α → γ}
  {stops : Kind → Bool} {as : List α}

structure Piece (rule : (s : State) → Reply α s.left) (f : α → α) (g : α → γ)
    (stops : Kind → Bool) (ts : List Token) (a : α) : Prop where
  head   : ∃ t rest, ts = t :: rest ∧ stops t.kind = false ∧ t.kind ≠ .elseKw
  recurs : Recurs rule f g NoElse ts a

theorem Sequence.mono {P Q : List Token → α → Prop} (h : Sequence P ts as)
    (hP : ∀ ts a, P ts a → Q ts a) : Sequence Q ts as := by
  induction h
  case nil => exact .nil
  case cons ha _ ih => exact .cons (hP _ _ ha) ih

theorem Sequence.push {P : List Token → α → Prop} {us : List Token} {a : α}
    (h : Sequence P ts as) (ha : P us a) : Sequence P (ts ++ us) (as ++ [a]) := by
  induction h
  case nil => simpa using Sequence.cons ha .nil
  case cons hfirst _ ih => simpa using Sequence.cons hfirst ih

theorem Sequence.noElse (h : Sequence (Piece rule f g stops) ts as) (hk : NoElse k) :
    NoElse (ts ++ k) := by
  cases h
  case nil => exact hk
  case cons hp _ =>
    obtain ⟨t, rest, rfl, -, ht⟩ := hp.head
    simpa [NoElse] using ht

theorem Sequence.again (h : Sequence (Piece rule f g stops) ts as) :
    ∃ xs : List α, xs.map g = as.map g ∧ ∀ loop, Rounds rule stops loop → ∀ (s : State) k done,
      s.cursor.rest = ts ++ k → NoElse k → ∃ (read : List α) (s₁ : State),
        loop done s = loop (read.reverse ++ done) s₁ ∧ read.map f = xs ∧ s₁.cursor.rest = k ∧
        s.Quiet s₁ := by
  induction h
  case nil => exact ⟨[], rfl, fun loop _ s k done hs _ => ⟨[], s, rfl, rfl, hs, rfl⟩⟩
  case cons us _ _ hp hrest ih =>
    obtain ⟨⟨t, more, rfl, hstop, -⟩, x, hx, hagain⟩ := hp
    obtain ⟨xs, hxs, hloops⟩ := ih
    refine ⟨x :: xs, by simp [hx, hxs], fun loop hloop s k done hs hk => ?_⟩
    obtain ⟨a, s₁, h₁, hread, hs₁, hq₁, ha⟩ :=
      (hagain s (us ++ k) (by simpa using hs) (hrest.noElse hk)).eq_done
    obtain ⟨_, _, hn, -⟩ := next_eq hs
    have hround : s.round rule stops = some (some a, s₁) := by
      simp [State.round, hn, hstop, hread]
    obtain ⟨reads, s₂, hloop', hreads, hs₂, hq₂⟩ := hloops loop hloop s₁ k (a :: done) hs₁ hk
    refine ⟨a :: reads, s₂, ?_, by simp [ha, hreads], hs₂, hq₂.trans hq₁⟩
    rw [hloop, hround]
    simpa using hloop'

theorem Sequence.again_closed {c : Token} (hc : c.kind = .rightBrace)
    (h : Sequence (Piece rule f g (· = .rightBrace)) ts as) :
    ∃ xs : List α, xs.map g = as.map g ∧ ∀ loop, Rounds rule (· = .rightBrace) loop →
      ∀ (s : State) k unclosed, s.cursor.rest = ts ++ c :: k →
        ((loop [] s).2.close unclosed).1.cursor.rest = k ∧
        s.Quiet ((loop [] s).2.close unclosed).1 ∧ (loop [] s).1.map f = xs := by
  obtain ⟨xs, hxs, hloops⟩ := h.again
  refine ⟨xs, hxs, fun loop hloop s k unclosed hs => ?_⟩
  obtain ⟨read, s₁, hloop', hread, hs₁, hq₁⟩ :=
    hloops loop hloop s (c :: k) [] hs (by simp [NoElse, hc])
  obtain ⟨_, _, hn, -⟩ := next_eq hs₁
  have hround : s₁.round rule (· = .rightBrace) = none := by simp [State.round, hn, hc]
  have hend : loop [] s = (read, s₁) := by
    rw [hloop', hloop, hround]
    simp
  obtain ⟨s₂, h₂, ha, hs₂, hq₂⟩ := accept?_eq hs₁ hc
  rw [hend]
  simp only [State.close, ha]
  exact ⟨hs₂, hq₂.trans hq₁, hread⟩

end Sequence

abbrev StatementPiece :=
  Piece statement Stmt.unnumbered Stmt.unmarked (· = .rightBrace)

theorem BlockRecurs.braces {c : Token} (h : Sequence StatementPiece ts body)
    (hc : c.kind = .rightBrace) : BlockRecurs (ts ++ [c]) body := by
  obtain ⟨xs, hxs, hloops⟩ := h.again_closed hc
  refine ⟨xs, by simp [unmarkedIn_eq, hxs], fun s k hs => ?_⟩
  rw [block]
  exact hloops _ statements_steps.rounds s k .unclosedBlock (by simpa using hs)

end Lumen.Grammar
