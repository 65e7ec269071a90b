import Lumen.Proofs.Grammar.Phrases
import Lumen.Proofs.Grammar.Rounds

namespace Lumen.Grammar

open List State

open Token (Kind)

def NoPair (ts : List Token) : Prop :=
  ∀ t u rest, ts = t :: u :: rest → t.kind = .identifier → u.kind ≠ .identifier

theorem NoPair.single (t : Token) : NoPair [t] := by
  intro _ _ _ h
  simp at h

variable {t : Token} {rest : List Token}

theorem NoPair.of_head (h : t.kind ≠ .identifier) : NoPair (t :: rest) := by
  intro t' _ _ he ht
  obtain rfl := (List.cons.inj he).1
  contradiction

variable {ts : List Token} {u : Token}

theorem NoPair.append (h : NoPair ts) (hne : ts ≠ []) (hu : u.kind ≠ .identifier) :
    NoPair (ts ++ u :: rest) := by
  intro t v more he ht
  match ts, hne with
  | [_], _ =>
    obtain ⟨-, rfl, -⟩ : _ ∧ u = v ∧ rest = more := by simpa using he
    exact hu
  | first :: second :: others, _ =>
    obtain ⟨rfl, rfl, -⟩ : first = t ∧ second = v ∧ others ++ u :: rest = more := by simpa using he
    exact h _ _ others rfl ht

variable {e : Expr} {r : Rank}

theorem Phrase.ne_nil (h : Phrase r ts e) : ts ≠ [] := by
  obtain ⟨t, rest, rfl, -⟩ := h.head
  simp

theorem Phrase.noPair (h : Phrase r ts e) (hl : r.Listed) : NoPair ts := by
  induction h
  case binary hl' hop _ ihl _ =>
    refine (ihl hl).append hl'.ne_nil fun hk => ?_
    simpa [hk, Kind.category] using (Rank.of_lookup hl hop).1
  case tighter ih => exact ih hl.tighter
  case unary t _ _ _ hop _ _ =>
    refine .of_head fun hk => ?_
    simp [hk, unaryOp?] at hop
  case ofPower ih => exact ih trivial
  case power hl' ht _ ihl _ => exact (ihl trivial).append hl'.ne_nil (by simp [ht])
  case ofChained ih => exact ih trivial
  case call hf ho _ _ _ ihf _ =>
    rw [append_assoc]
    exact (ihf trivial).append hf.ne_nil (by simp [ho])
  case member he hdot _ ih => exact (ih trivial).append he.ne_nil (by simp [hdot])
  case invoke he hdot _ _ _ _ _ ih _ =>
    rw [append_assoc]
    exact (ih trivial).append he.ne_nil (by simp [hdot])
  case ofPrimary ih => exact ih trivial
  case literal => exact .single _
  case receiver => exact .single _
  case name => exact .single _
  case create ht _ _ _ _ _ _ => exact .of_head (by simp [ht])
  case parenthesized ho _ _ _ => exact .of_head (by simp [ho])

-- What begins with a parenthesis begins with an expression in parentheses.
theorem Phrase.parenthesis (h : Phrase r (t :: rest) e) (ht : t.kind = .leftParen) :
    ∃ inner c more e', rest = inner ++ c :: more ∧ c.kind = .rightParen ∧ Expression inner e' := by
  generalize hts : t :: rest = ts at h
  -- The first part of a longer expression.
  have front {r : Rank} {ls us : List Token} {left : Expr} (hl : Phrase r ls left)
      (ih : ∀ {rest}, t :: rest = ls → ∃ inner c more e', rest = inner ++ c :: more ∧
        c.kind = .rightParen ∧ Expression inner e')
    {rest : List Token} (hts : t :: rest = ls ++ us) :
      ∃ inner c more e', rest = inner ++ c :: more ∧ c.kind = .rightParen ∧
        Expression inner e' := by
    obtain ⟨u, vs, rfl, -⟩ := hl.head
    obtain ⟨rfl, rfl⟩ := List.cons.inj hts
    obtain ⟨inner, c, more, e', rfl, hc, he⟩ := ih rfl
    exact ⟨inner, c, more ++ us, e', by simp, hc, he⟩
  induction h generalizing rest
  case binary hl _ _ ih _ => exact front hl ih hts
  case tighter ih => exact ih hts
  case unary hop _ _ =>
    obtain ⟨rfl, -⟩ := List.cons.inj hts
    simp [ht, unaryOp?] at hop
  case ofPower ih => exact ih hts
  case power hl _ _ ih _ => exact front hl ih hts
  case ofChained ih => exact ih hts
  case call hf _ _ _ _ ih _ => exact front hf ih (hts.trans (append_assoc ..))
  case member he _ _ ih => exact front he ih hts
  case invoke he _ _ _ _ _ _ ih _ => exact front he ih (hts.trans (append_assoc ..))
  case ofPrimary ih => exact ih hts
  case literal hv =>
    obtain ⟨rfl, -⟩ := List.cons.inj hts
    simp [ht, literal?] at hv
  case parenthesized inner o c e' ho he hc _ =>
    exact ⟨inner, c, [], e', by simpa using (List.cons.inj hts).2, hc, he⟩
  all_goals
    obtain ⟨rfl, -⟩ := List.cons.inj hts
    simp_all

variable {body : List Stmt} {stmt : Stmt} {init : Option Expr} {loose isStatic : Bool}
  {header : Header} {m : Member} {type : TypeName} {s : State} {k : List Token}

def leads : Kind → Bool
  | .leftBrace | .ifKw | .whileKw | .forKw | .returnKw | .breakKw | .continueKw | .constKw | .varKw
  | .classKw => true
  | _ => false

theorem Expression.head (h : Expression ts e) :
    ∃ t rest, ts = t :: rest ∧ leads t.kind = false ∧ t.kind.isTypeWord = false ∧
      t.kind ≠ .staticKw ∧ t.kind ≠ .semicolon ∧ t.kind ≠ .rightParen ∧ t.kind ≠ .rightBrace ∧
      t.kind ≠ .elseKw := by
  obtain ⟨t, rest, rfl, hopens⟩ := Phrase.head h
  refine ⟨t, rest, rfl, ?_⟩
  cases hk : t.kind <;>
    simp_all [Rank.opens, opensPrimary, unaryOp?, leads, Kind.isTypeWord]

theorem Expression.not_semicolon (h : Expression ts e) :
    ∃ t rest, ts = t :: rest ∧ t.kind ≠ .semicolon := by
  obtain ⟨t, rest, rfl, -, -, -, ht, -⟩ := h.head
  exact ⟨t, rest, rfl, ht⟩

variable {c : Cursor}

theorem opensDeclaration_eq_false (hr : c.rest = t :: u :: rest) (ht : t.kind.isTypeWord = false)
    (hp : NoPair (t :: u :: rest)) : c.opensDeclaration = false := by
  have := hp t u rest rfl
  simp_all [Cursor.opensDeclaration, Cursor.peek, Cursor.ahead?]

theorem Recurs.weaken {α γ : Type} {rule : (s : State) → Reply α s.left} {f : α → α} {g : α → γ}
    {C C' : List Token → Prop} {a : α} (h : Recurs rule f g C ts a) (hC : ∀ k, C' k → C k) :
    Recurs rule f g C' ts a := by
  obtain ⟨x, hx, hagain⟩ := h
  exact ⟨x, hx, fun s k hs hk => hagain s k hs (hC k hk)⟩

theorem Expression.not_declaration (h : Expression ts e) (hr : c.rest = ts ++ u :: k)
    (hu : u.kind ≠ .identifier) : c.opensDeclaration = false := by
  have hpair : NoPair (ts ++ u :: k) :=
    (Phrase.noPair h suffix_rfl).append (Phrase.ne_nil h) hu
  obtain ⟨t, rest, rfl, -, htype, -⟩ := h.head
  cases rest
  case nil => exact opensDeclaration_eq_false hr htype hpair
  case cons => exact opensDeclaration_eq_false hr htype hpair

variable {tn : TypeName} {name : Token}

theorem opensDeclaration_eq_true {type : Token} (hr : c.rest = type :: name :: k)
    (ht : typeOf? type = some tn) (hn : name.kind = .identifier) : c.opensDeclaration = true := by
  unfold typeOf? at ht
  split at ht <;> simp_all [Cursor.opensDeclaration, Cursor.peek, Cursor.ahead?, Kind.isTypeWord]

def goesOn (kind : Kind) : Bool :=
  (Rank.level levels).continues kind || (assignmentOp? kind).isSome

def Closes (k : List Token) : Prop :=
  ∀ t ∈ k.head?, goesOn t.kind = false

theorem Closes.cons (h : goesOn t.kind = false) : Closes (t :: k) := by
  simpa [Closes] using h

theorem Closes.of_nothing (h : s.next = .nothing) : Closes s.cursor.rest := by
  simp [Closes, length_eq_zero_iff.mp (left_of_nothing h)]

theorem Closes.of_next {s₁ : State} {h₁ : s₁.left < s.left}
    (h : (Rank.level levels).Ends s.cursor.rest) (hn : s.next = .token t s₁ h₁)
    (ho : assignmentOp? t.kind = none) : Closes s.cursor.rest := by
  have hends := h.next hn
  rw [(next_passes hn).1.rest]
  exact .cons (by simp [goesOn, hends, ho])

theorem Closes.ends (h : Closes k) : (Rank.level levels).Ends k :=
  fun t ht => (Bool.or_eq_false_iff.mp (h t ht)).1

theorem Closes.of_semicolon (h : t.kind = .semicolon) : Closes (t :: k) :=
  .cons (by rw [h]; rfl)

-- What can stand behind an assignment or an expression. A value that is assigned is assigned no
-- more.
def Stops : Stmt → List Token → Prop
  | .evaluate .., k => Closes k
  | _, k => (Rank.level levels).Ends k

theorem Closes.stops (h : Closes k) : Stops stmt k := by
  cases stmt <;> first | exact h | exact h.ends

theorem Expr.isTarget_of_unmarked {e e' : Expr} (h : e'.unmarked = e.unmarked) (ht : e.isTarget) :
    e'.isTarget := by
  cases e <;> cases e' <;> simp_all [Expr.isTarget]

theorem ends_of_assignmentOp? (h : assignmentOp? t.kind = some op) :
    (Rank.level levels).Ends (t :: k) := by
  refine .cons ?_
  unfold assignmentOp? at h
  split at h <;> first | contradiction | (rename_i hk; rw [hk]; rfl)

theorem Simple.recurs (h : Simple ts stmt) :
    Recurs simple Stmt.unnumbered Stmt.unmarked (Stops stmt) ts stmt := by
  cases h
  case evaluate he =>
    obtain ⟨x, hx, hagain⟩ := he.recurs
    obtain ⟨t, rest, rfl, -⟩ := he.head
    refine ⟨.evaluate t.loc x, by simp [hx], fun s k hs hk => ?_⟩
    have hk : Closes k := hk
    unfold simple
    refine (hagain s k hs hk.ends).extend fun e' s₁ h₁ hs₁ he' => ?_
    have hdone : Reply.Gives s₁ k (Stmt.unnumbered · = .evaluate t.loc x)
        (.done (.evaluate s.peek.loc e') s₁ h₁) := ⟨hs₁, rfl, by simp [peek_eq hs, he']⟩
    split
    case h_1 => exact hdone
    case h_2 t' s₂ h₂ hn =>
      have hclose := hk t' (by simp [← hs₁, (next_passes hn).1.rest])
      have hop : assignmentOp? t'.kind = none := by
        simpa using (Bool.or_eq_false_iff.mp hclose).2
      simpa only [hop] using hdone
  case assign ts vs t loc target value op htarget hi ho hv =>
    obtain ⟨x, hx, hagain⟩ := htarget.recurs
    obtain ⟨y, hy, hagain'⟩ := hv.recurs
    obtain ⟨u, rest, rfl, -⟩ := htarget.head
    refine ⟨.assign u.loc x op y, by simp [hx, hy], fun s k hs hk => ?_⟩
    unfold simple
    refine (hagain s (t :: vs ++ k) (by simpa using hs) (ends_of_assignmentOp? ho)).extend
      fun target' s₁ h₁ hs₁ ha => ?_
    obtain ⟨s₂, h₂, hn, hs₂, hq₂⟩ := next_eq hs₁
    have hi' : target'.isTarget :=
      Expr.isTarget_of_unmarked (by rw [← hx, ← ha, Expr.unmarked_unnumbered]) hi
    simp only [hn, ho, hi', if_true]
    refine .within _ (.map (.behind hq₂ ((hagain' s₂ k hs₂ hk).weaken fun value' hb => ?_)))
    simp [peek_eq hs, ha, hb]

theorem Initializer.recurs (h : Initializer ts init) : ∃ x,
    unmarkedOption x = unmarkedOption init ∧ ∀ (s : State) k (n : Nat) (hlt : s.left < n),
      s.cursor.rest = ts ++ k → Closes k →
      (initializer s hlt).Gives s k (unnumberedOption · = x) := by
  unfold initializer
  cases h
  case none =>
    refine ⟨.none, rfl, fun s k n hlt hs hk => ?_⟩
    have hnone : s.accept? .assign = Option.none := by
      refine accept?_eq_none fun t ht ha => ?_
      have := hk t (by simpa [hs] using ht)
      simp [ha, goesOn, assignmentOp?] at this
    rw [hnone]
    exact ⟨hs, rfl, rfl⟩
  case some hk' he =>
    obtain ⟨x, hx, hagain⟩ := he.recurs
    refine ⟨.some x, by simp [unmarkedOption, hx], fun s k n hlt hs hk => ?_⟩
    obtain ⟨s₁, h₁, ha, hs₁, hq₁⟩ := accept?_eq hs hk'
    rw [ha]
    refine .within _ (.map (.behind hq₁ ((hagain s₁ k hs₁ hk.ends).weaken fun e' he' => ?_)))
    simp [he']

theorem not_varKw_of_typeOf? (h : typeOf? t = some type) : t.kind ≠ .varKw := by
  intro hk
  simp [typeOf?, hk] at h

theorem VariableHead.recurs (h : VariableHead ts stmt) :
    Recurs variableHead Stmt.unnumbered Stmt.unmarked Closes ts stmt := by
  cases h
  case inferred vs word name t loc value hw hn ht hv =>
    obtain ⟨x, hx, hagain⟩ := hv.recurs
    refine ⟨.variable word.loc name.text none (some x), by simp [unmarkedOption, hx],
      fun s k hs hk => ?_⟩
    obtain ⟨s₁, h₁, ha, hs₁, hq₁⟩ := accept?_eq hs hw
    unfold variableHead
    rw [ha]
    refine .within _ (.behind hq₁ ?_)
    refine (expect_gives hs₁ hn).bind fun name' s₂ _ hs₂ hname => ?_
    refine (expect_gives hs₂ ht).bind fun _ s₃ _ hs₃ _ => .map ?_
    refine (hagain s₃ k hs₃ hk.ends).weaken fun value' hv' => ?_
    simp [peek_eq hs, hname, hv']
  case typed vs type name loc tn init ht hn hi =>
    obtain ⟨x, hx, hagain⟩ := hi.recurs
    refine ⟨.variable type.loc name.text tn x, by simp [hx], fun s k hs hk => ?_⟩
    unfold variableHead
    rw [accept?_eq_none (by simpa [hs] using not_varKw_of_typeOf? ht)]
    refine (typeName_gives hs ht).bind fun tn' s₁ _ hs₁ htn => ?_
    refine (expect_gives hs₁ hn).extend fun name' s₂ h₂ hs₂ hname => .map ?_
    refine (hagain s₂ k _ h₂ hs₂ hk).weaken fun init' hi' => ?_
    simp [peek_eq hs, htn, hname, hi']

theorem VariableHead.head (h : VariableHead ts stmt) :
    ∃ t rest, ts = t :: rest ∧ t.kind ≠ .semicolon ∧ t.kind ≠ .leftParen ∧
      t.kind ≠ .rightBrace ∧ t.kind ≠ .elseKw := by
  cases h
  case inferred hw _ _ _ => exact ⟨_, _, rfl, by simp [hw]⟩
  case typed type name loc tn init ht _ _ =>
    refine ⟨_, _, rfl, ?_⟩
    unfold typeOf? at ht
    split at ht <;> simp_all

theorem Simple.head (h : Simple ts stmt) :
    ∃ t rest, ts = t :: rest ∧ leads t.kind = false ∧ t.kind.isTypeWord = false ∧
      t.kind ≠ .staticKw ∧ t.kind ≠ .semicolon ∧ t.kind ≠ .rightParen ∧ t.kind ≠ .rightBrace ∧
      t.kind ≠ .elseKw := by
  cases h
  case evaluate he => exact he.head
  case assign ht _ _ _ =>
    obtain ⟨t, rest, rfl, h⟩ := ht.head
    exact ⟨t, _, rfl, h⟩

theorem Simple.not_declaration (h : Simple ts stmt) (hr : c.rest = ts ++ u :: k)
    (hu : u.kind ≠ .identifier) : c.opensDeclaration = false := by
  cases h
  case evaluate he => exact he.not_declaration hr hu
  case assign t _ _ _ _ ht _ ho _ =>
    refine ht.not_declaration (u := t) (by simpa using hr) fun hi => ?_
    simp [hi, assignmentOp?] at ho

-- What stands first in a header ends in front of a token that is neither a name nor goes on.
theorem Start.recurs (h : Start ts stmt) : Recurs headerStart Stmt.unnumbered Stmt.unmarked
    (fun k => Closes k ∧ ∃ t rest, k = t :: rest ∧ t.kind ≠ .identifier) ts stmt := by
  cases h
  case declaration h =>
    obtain ⟨x, hx, hagain⟩ := h.recurs
    refine ⟨x, hx, fun s k hs hk => ?_⟩
    have hopens : (s.peek.kind = .varKw || s.cursor.opensDeclaration) = true := by
      cases h
      case inferred hw _ _ _ => simp [peek_eq hs, hw]
      case typed ht hn _ => simp [opensDeclaration_eq_true hs ht hn]
    rw [headerStart, if_pos hopens]
    exact hagain s k hs hk.1
  case simple h =>
    obtain ⟨x, hx, hagain⟩ := h.recurs
    refine ⟨x, hx, fun s k hs hk => ?_⟩
    obtain ⟨hclose, t, rest, rfl, ht⟩ := hk
    have hdecl := h.not_declaration hs ht
    have hopens : ¬(s.peek.kind = .varKw || s.cursor.opensDeclaration) = true := by
      obtain ⟨t, rest, rfl, hleads, -⟩ := h.head
      simp only [hdecl, peek_eq hs, Bool.or_false, decide_eq_true_eq]
      intro hv
      simp [hv, leads] at hleads
    rw [headerStart, if_neg hopens]
    exact hagain s _ hs hclose.stops

theorem Start.head (h : Start ts stmt) : ∃ t rest, ts = t :: rest ∧ t.kind ≠ .semicolon := by
  cases h
  case declaration h =>
    obtain ⟨t, rest, rfl, ht, -⟩ := h.head
    exact ⟨t, rest, rfl, ht⟩
  case simple h =>
    obtain ⟨t, rest, rfl, -, -, -, ht, -⟩ := h.head
    exact ⟨t, rest, rfl, ht⟩

theorem Optional.recurs {α γ : Type} {rule : (s : State) → Reply α s.left} (context : String)
    {f : α → α} {g : α → γ} {P : List Token → α → Prop} {C : List Token → Prop} {o : Option α}
    (h : Optional P ts o) (ht : t.kind = .semicolon) (hC : ∀ k, C (t :: k))
    (hhead : ∀ a, P ts a → ∃ u rest, ts = u :: rest ∧ u.kind ≠ .semicolon)
    (hrule : ∀ a, P ts a → Recurs rule f g C ts a) :
    Recurs (upToSemicolon rule context) (Option.map f) (Option.map g) (fun _ => True) (ts ++ [t])
      o := by
  cases h
  case none =>
    refine ⟨.none, rfl, fun s k hs _ => ?_⟩
    rw [upToSemicolon, if_pos (by simpa [peek_eq hs] using ht)]
    exact .map ((semicolon_gives hs ht).weaken fun _ _ => rfl)
  case some a ha =>
    obtain ⟨u, rest, rfl, hu⟩ := hhead a ha
    obtain ⟨x, hx, hagain⟩ := hrule a ha
    refine ⟨.some x, by simp [hx], fun s k hs _ => ?_⟩
    have hs : s.cursor.rest = u :: rest ++ t :: k := by simpa using hs
    rw [upToSemicolon, if_neg (by simpa [peek_eq hs] using hu)]
    refine (hagain s _ hs (hC k)).bind fun a' s₁ _ hs₁ ha' => .map ?_
    exact (semicolon_gives hs₁ ht).weaken fun _ _ => by simp [ha']

theorem unnumberedOption_eq (o : Option Expr) : unnumberedOption o = o.map Expr.unnumbered := by
  cases o <;> rfl

theorem unnumberedStep_eq (o : Option Stmt) : unnumberedStep o = o.map Stmt.unnumbered := by
  cases o <;> rfl

theorem unmarkedOption_eq (o : Option Expr) : unmarkedOption o = o.map Expr.unmarked := by
  cases o <;> simp [unmarkedOption]

theorem unmarkedStep_eq (o : Option Stmt) : unmarkedStep o = o.map Stmt.unmarked := by
  cases o <;> simp [unmarkedStep]

def unnumberedHeader (header : Header) : Header :=
  (header.1.map .unnumbered, header.2.1.map .unnumbered, header.2.2.map .unnumbered)

def unmarkedHeader (header : Header) : Header :=
  (header.1.map .unmarked, header.2.1.map .unmarked, header.2.2.map .unmarked)

def HeaderStops : Header → List Token → Prop
  | (_, _, none), k => ∃ t ∈ k.head?, t.kind = .rightParen ∨ t.kind = .leftBrace
  | (_, _, some update), k => Stops update k

theorem HeaderStops.of_head? (h : HeaderStops header k) (hk : k'.head? = k.head?) :
    HeaderStops header k' := by
  obtain ⟨init, condition, update⟩ := header
  cases update
  case none => simpa [HeaderStops, hk] using h
  case some update => cases update <;> simpa [HeaderStops, Stops, Closes, Rank.Ends, hk] using h

theorem HeaderStops.of_rightParen (ht : t.kind = .rightParen) : HeaderStops header (t :: k) := by
  obtain ⟨init, condition, update⟩ := header
  cases update
  case none => exact ⟨t, rfl, .inl ht⟩
  case some => exact (Closes.cons (by rw [ht]; rfl)).stops

theorem HeaderParts.recurs (h : HeaderParts ts header) :
    Recurs bareHeader unnumberedHeader unmarkedHeader (HeaderStops header) ts header := by
  obtain ⟨hi, hf, hc, hsec, hu⟩ := h
  rename_i is cs us first second init update condition
  obtain ⟨i, hi, hagainInit⟩ := hi.recurs "after loop initializer" hf
    (fun k => ⟨.of_semicolon hf, first, k, rfl, by simp [hf]⟩) (fun _ => Start.head)
    fun _ => Start.recurs
  obtain ⟨c, hc, hagainCondition⟩ := hc.recurs "after loop condition" hsec
    (fun k => (Closes.of_semicolon hsec).ends)
    (fun _ => Expression.not_semicolon) fun _ => Expression.recurs
  unfold bareHeader
  cases hu
  case none =>
    refine ⟨(i, c, none), by simp [unmarkedHeader, hi, hc], fun s k hs hk => ?_⟩
    refine (hagainInit s (cs ++ [second] ++ k) (by simpa using hs) trivial).bind
      fun init' s₁ _ hs₁ hinit => ?_
    refine (hagainCondition s₁ k hs₁ trivial).extend fun condition' s₂ h₂ hs₂ hcondition => ?_
    have hends : (s₂.peek.kind = .rightParen || s₂.peek.kind = .leftBrace) = true := by
      obtain ⟨t, ht, hkind⟩ := hk
      obtain ⟨rest, rfl⟩ := head?_eq_some_iff.mp ht
      simpa [peek_eq hs₂] using hkind
    rw [if_pos hends]
    exact ⟨hs₂, rfl, by simp [unnumberedHeader, hinit, hcondition]⟩
  case some stmt hst =>
    obtain ⟨u, hu, hagainUpdate⟩ := hst.recurs
    refine ⟨(i, c, some u), by simp [unmarkedHeader, hi, hc, hu], fun s k hs hk => ?_⟩
    refine (hagainInit s (cs ++ [second] ++ (us ++ k)) (by simpa using hs) trivial).bind
      fun init' s₁ _ hs₁ hinit => ?_
    refine (hagainCondition s₁ (us ++ k) hs₁ trivial).extend
      fun condition' s₂ h₂ hs₂ hcondition => ?_
    have hnot : ¬(s₂.peek.kind = .rightParen || s₂.peek.kind = .leftBrace) = true := by
      obtain ⟨u, rest, rfl, hleads, -, -, -, hu, -⟩ := hst.head
      simp only [peek_eq hs₂, Bool.or_eq_true, decide_eq_true_eq, not_or]
      exact ⟨hu, fun hb => by simp [hb, leads] at hleads⟩
    rw [if_neg hnot]
    refine .within _ (.map ((hagainUpdate s₂ k hs₂ hk).weaken fun update' hupdate => ?_))
    simp [unnumberedHeader, hinit, hcondition, hupdate]

theorem HeaderParts.recurs_parenthesized {o c : Token} (ho : o.kind = .leftParen)
    (h : HeaderParts ts header) (hc : c.kind = .rightParen) :
    Recurs Grammar.header unnumberedHeader unmarkedHeader (fun _ => True) (o :: ts ++ [c])
      header := by
  obtain ⟨x, hx, hagain⟩ := h.recurs
  refine ⟨x, hx, fun s k hs _ => ?_⟩
  have hgives : (parenthesizedHeader s).Gives s k (unnumberedHeader · = x) := by
    unfold parenthesizedHeader
    refine (expect_gives (k := ts ++ c :: k) (by simpa using hs) ho).bind
      fun _ s₁ _ hs₁ _ => ?_
    refine (hagain s₁ (c :: k) hs₁ (.of_rightParen hc)).bind fun header' s₂ _ hs₂ hsame => .map ?_
    exact (expect_gives hs₂ hc).weaken fun _ _ => hsame
  obtain ⟨header', s₁, h₁, hx, hdone⟩ := hgives.eq_done
  unfold Grammar.header
  rw [hx]
  exact hdone

theorem HeaderParts.parenthesis (h : HeaderParts (t :: rest) header) (ht : t.kind = .leftParen) :
    ∃ inner c more e, rest = inner ++ c :: more ∧ c.kind = .rightParen ∧ Expression inner e := by
  generalize hts : t :: rest = ts at h
  obtain ⟨hi, hf, -⟩ := h
  have front {ls us : List Token} {e : Expr} (he : Expression ls e) (hts : t :: rest = ls ++ us) :
      ∃ inner c more e, rest = inner ++ c :: more ∧ c.kind = .rightParen ∧ Expression inner e := by
    obtain ⟨u, vs, rfl, -⟩ := Phrase.head he
    obtain ⟨rfl, rfl⟩ := List.cons.inj hts
    obtain ⟨inner, c, more, e', rfl, hc, he⟩ := Phrase.parenthesis he ht
    exact ⟨inner, c, more ++ us, e', by simp, hc, he⟩
  rcases hi with _ | hstart
  case none =>
    obtain ⟨rfl, -⟩ := List.cons.inj hts
    simp [ht] at hf
  case some =>
    rcases hstart with hv | hsimple
    case declaration =>
      obtain ⟨u, vs, rfl, -, hu, -⟩ := hv.head
      obtain ⟨rfl, -⟩ := List.cons.inj hts
      contradiction
    case simple =>
      cases hsimple
      case evaluate he => exact front he (by simpa using hts)
      case assign he _ _ _ => exact front he (by simpa using hts)

-- The header in parentheses that is tried first fails if the header has none around it.
theorem HeaderParts.parenthesizedHeader_failed (h : HeaderParts ts header)
    (hs : s.cursor.rest = ts ++ k) :
    ∃ f s₁ h₁, parenthesizedHeader s = .failed f s₁ h₁ ∧ s.Quiet s₁ := by
  obtain ⟨t, rest, rfl⟩ : ∃ t rest, ts = t :: rest := by
    obtain ⟨hi, -⟩ := h
    exact exists_cons_of_ne_nil (by simp)
  obtain ⟨s₁, h₁, hn, hs₁, hq₁⟩ := next_eq hs
  by_cases ht : t.kind = .leftParen
  case neg =>
    refine ⟨s.failure (.expected .leftParen "to open loop header" t), s, s.left_refl, ?_, rfl⟩
    simp only [parenthesizedHeader, State.expect, hn, ht, if_false]
    rfl
  case pos =>
    obtain ⟨inner, c, more, e, rfl, hc, he⟩ := h.parenthesis ht
    have hstart : Start inner (.evaluate t.loc e) := .simple (.evaluate he)
    obtain ⟨x, -, hagain⟩ := hstart.recurs
    have hs₁ : s₁.cursor.rest = inner ++ c :: (more ++ k) := by simpa using hs₁
    obtain ⟨a, s₂, h₂, hx, hs₂, hq₂, -⟩ :=
      (hagain s₁ _ hs₁ ⟨.cons (by rw [hc]; rfl), c, _, rfl, by simp [hc]⟩).eq_done
    have hnone : s₂.accept? .semicolon = none := accept?_eq_none (by simp [hs₂, hc])
    have hpeek : s₁.peek.kind ≠ .semicolon := by
      obtain ⟨u, rest, rfl, -, -, -, hu, -⟩ := he.head
      rwa [peek_eq hs₁]
    refine ⟨s₂.missingSemicolon "after loop initializer", s₂, by omega, ?_, hq₂.trans hq₁⟩
    simp only [parenthesizedHeader, State.expect, hn, ht, if_true, bareHeader, upToSemicolon, hpeek,
      if_false, hx, State.semicolon, hnone, Reply.bind, Reply.extend, Reply.within, Reply.map]

theorem HeaderParts.recurs_bare (h : HeaderParts ts header) :
    Recurs Grammar.header unnumberedHeader unmarkedHeader (HeaderStops header) ts header := by
  obtain ⟨x, hx, hagain⟩ := h.recurs
  refine ⟨x, hx, fun s k hs hk => ?_⟩
  obtain ⟨f, s₁, h₁, hfailed, hq⟩ := h.parenthesizedHeader_failed hs
  unfold Grammar.header
  rw [hfailed]
  exact .orRewind (.after (.behind hq (hagain (s₁.rewind s.cursor) k hs hk)))

end Lumen.Grammar
