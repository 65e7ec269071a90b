import Lumen.Proofs.Grammar.Contract

namespace Lumen.Grammar

open List

open Token (Kind)

variable {α β : Type} {m n : Nat}

namespace Reply

-- The rule succeeds without a report, the tokens `k` are left, and the value read satisfies `P`.
def Gives (s : State) (k : List Token) (P : α → Prop) : Reply α n → Prop
  | .done a s' _ => s'.cursor.rest = k ∧ s.Quiet s' ∧ P a
  | .failed .. => False

namespace Gives

variable {s : State} {k k₁ : List Token} {P : α → Prop} {Q : β → Prop} {r : Reply α n}

theorem within {r : Reply α m} (h : m ≤ n) (hr : r.Gives s k P) : (r.within h).Gives s k P := by
  cases r <;> exact hr

theorem map {f : α → β} (hr : r.Gives s k fun a => Q (f a)) : (r.map f).Gives s k Q := by
  cases r <;> exact hr

theorem marked {f : Mark → α → β} (hr : r.Gives s k fun a => ∀ i, Q (f ⟨i, loc⟩ a)) :
    (r.marked loc f).Gives s k Q := by
  cases r
  case done => exact ⟨hr.1, hr.2.1, hr.2.2 _⟩
  case failed => exact hr

theorem orRewind {r : Reply α s.left} (hr : r.Gives s k P) : (r.orRewind s).Gives s k P := by
  cases r <;> exact hr

theorem after (hr : r.Gives s k P) : (r.after first).Gives s k P := by
  cases r <;> exact hr

theorem behind (hq : s.Quiet s₁) (hr : r.Gives s₁ k P) : r.Gives s k P := by
  cases r
  case done => exact ⟨hr.1, hr.2.1.trans hq, hr.2.2⟩
  case failed => exact hr

theorem weaken {P' : α → Prop} (hr : r.Gives s k P) (h : ∀ a, P a → P' a) : r.Gives s k P' := by
  cases r
  case done a _ _ => exact ⟨hr.1, hr.2.1, h a hr.2.2⟩
  case failed => exact hr

theorem extend {f : α → (s : State) → s.left < n → Reply β n} (hr : r.Gives s k₁ P)
    (hf : ∀ a s₁ h₁, s₁.cursor.rest = k₁ → P a → (f a s₁ h₁).Gives s₁ k Q) :
    (r.extend f).Gives s k Q := by
  cases r
  case done a s₁ h₁ => exact .behind hr.2.1 (hf a s₁ h₁ hr.1 hr.2.2)
  case failed => exact hr

theorem bind {f : α → (s : State) → s.left < n → Reply β s.left} (hr : r.Gives s k₁ P)
    (hf : ∀ a s₁ h₁, s₁.cursor.rest = k₁ → P a → (f a s₁ h₁).Gives s₁ k Q) :
    (r.bind f).Gives s k Q :=
  hr.extend fun a s₁ h₁ hs ha => .within _ (hf a s₁ h₁ hs ha)

theorem eq_done (hr : r.Gives s k P) :
    ∃ a s', ∃ h : s'.left < n, r = .done a s' h ∧ s'.cursor.rest = k ∧ s.Quiet s' ∧ P a := by
  cases r
  case done a s' h => exact ⟨a, s', h, rfl, hr⟩
  case failed => exact hr.elim

end Gives

end Reply

-- Wherever the tokens `ts` stand, the rule reads them without a report if `C` holds of what
-- follows. What it gives is always `x`, as far as `f` shows it.
def Again (rule : (s : State) → Reply α s.left) (f : α → β) (C : List Token → Prop)
    (ts : List Token) (x : β) : Prop :=
  ∀ (s : State) k, s.cursor.rest = ts ++ k → C k → (rule s).Gives s k (f · = x)

def Recurs {γ : Type} (rule : (s : State) → Reply α s.left) (f : α → α) (g : α → γ)
    (C : List Token → Prop) (ts : List Token) (a : α) : Prop :=
  ∃ x, g x = g a ∧ Again rule f C ts x

variable {kind : Kind}

namespace State

variable {s : State} {t : Token} {k : List Token}

theorem next_eq (h : s.cursor.rest = t :: k) :
    ∃ s₁, ∃ h₁ : s₁.left < s.left, s.next = .token t s₁ h₁ ∧ s₁.cursor.rest = k ∧ s.Quiet s₁ := by
  unfold next
  split
  case h_1 hr => simp [hr] at h
  case h_2 t' rest hr =>
    obtain ⟨rfl, rfl⟩ := List.cons.inj (hr.symm.trans h)
    exact ⟨_, by simp [left, rewind, hr], rfl, rfl, rfl⟩

theorem next_eq_nothing (h : s.cursor.rest = []) : s.next = .nothing := by
  unfold next
  split
  case h_1 => rfl
  case h_2 hr => simp [h] at hr

theorem peek_eq (h : s.cursor.rest = t :: k) : s.peek = t := by
  simp [peek, Cursor.peek, h]

theorem accept?_eq (h : s.cursor.rest = t :: k) (hk : t.kind = kind) :
    ∃ s₁, ∃ h₁ : s₁.left < s.left, s.accept? kind = some ⟨s₁, h₁⟩ ∧ s₁.cursor.rest = k ∧
      s.Quiet s₁ := by
  obtain ⟨s₁, h₁, hn, hs⟩ := next_eq h
  refine ⟨s₁, h₁, ?_, hs⟩
  simp [accept?, hn, hk]

theorem accept?_eq_none (h : ∀ t ∈ s.cursor.rest.head?, t.kind ≠ kind) : s.accept? kind = none := by
  unfold accept?
  split
  case h_2 => rfl
  case h_1 t s₁ h₁ hn =>
    obtain ⟨hr, -⟩ := next_passes hn
    rw [if_neg (h t (by simp [hr.rest]))]

theorem head_of_accept?_eq_none (h : s.accept? kind = none) :
    ∀ t ∈ s.cursor.rest.head?, t.kind ≠ kind := by
  intro t ht hk
  obtain ⟨rest, hrest⟩ := head?_eq_some_iff.mp ht
  obtain ⟨_, _, ha, -⟩ := accept?_eq hrest hk
  rw [h] at ha
  contradiction

section

variable (h : s.cursor.rest = t :: k)

include h

theorem expect_gives (hk : t.kind = kind) :
    (s.expect kind context).Gives s k fun t' => t' = t := by
  obtain ⟨s₁, h₁, hn, hs, hq⟩ := next_eq h
  simp only [expect, hn, hk, if_true]
  exact ⟨hs, hq, rfl⟩

theorem semicolon_gives (hk : t.kind = .semicolon) :
    (s.semicolon context).Gives s k fun _ => True := by
  obtain ⟨s₁, h₁, ha, hs, hq⟩ := accept?_eq h hk
  simp only [semicolon, ha]
  exact ⟨hs, hq, trivial⟩

theorem typeName_gives {type : TypeName}
    (ht : typeOf? t = some type) : s.typeName.Gives s k fun type' => type' = type := by
  obtain ⟨s₁, h₁, hn, hs, hq⟩ := next_eq h
  simp only [typeName, hn]
  unfold typeOf? at ht
  split at ht
  all_goals simp only [*, Option.some.injEq, reduceCtorEq] at ht ⊢
  all_goals exact ⟨hs, hq, ht⟩

end

end State

def opensPrimary : Kind → Bool
  | .integer | .float | .string | .trueKw | .falseKw | .nullKw | .thisKw | .identifier | .newKw
  | .leftParen => true
  | _ => false

variable {ops : Operators} {r : Rank}

namespace Rank

def opens : Rank → Kind → Bool
  | .level _, kind => opensPrimary kind || (unaryOp? kind).isSome
  | _, kind => opensPrimary kind

def continues : Rank → Kind → Bool
  | .level ops, kind =>
    ops.any (fun o => (o.lookup kind).isSome) || kind = .power || kind = .leftParen || kind = .dot
  | .power, kind => kind = .power || kind = .leftParen || kind = .dot
  | .chained, kind => kind = .leftParen || kind = .dot
  | .primary, _ => false

def Ends (r : Rank) (k : List Token) : Prop :=
  ∀ t ∈ k.head?, r.continues t.kind = false

def Listed : Rank → Prop
  | .level ops => ops <:+ levels
  | _ => True

variable {k : List Token} {t : Token} {s s₁ : State}

theorem Ends.cons (h : r.continues t.kind = false) : r.Ends (t :: k) := by
  simpa [Ends] using h

theorem Ends.of_head? {k' : List Token} (h : r.Ends k) (hk : k'.head? = k.head?) : r.Ends k' :=
  fun t ht => h t (hk ▸ ht)

theorem Ends.of_nothing (h : s.next = .nothing) : r.Ends s.cursor.rest := by
  simp [Ends, length_eq_zero_iff.mp (State.left_of_nothing h)]

theorem Ends.of_next (hn : s.next = .token t s₁ shorter)
    (h : r.continues t.kind = false) : r.Ends s.cursor.rest := by
  rw [(State.next_passes hn).1.rest]
  exact .cons h

theorem Ends.next (h : r.Ends s.cursor.rest) (hn : s.next = .token t s₁ shorter) :
    r.continues t.kind = false :=
  h t (by simp [(State.next_passes hn).1.rest])

theorem Ends.tighter {tighter : List Operators} (h : (Rank.level (ops :: tighter)).Ends k) :
    (Rank.level tighter).Ends k := by
  intro t ht
  have := h t ht
  simp_all [continues]

theorem Ends.power {ops : List Operators} (h : (Rank.level ops).Ends k) : Rank.power.Ends k := by
  intro t ht
  have := h t ht
  simp_all [continues]

theorem Ends.chained (h : Rank.power.Ends k) : Rank.chained.Ends k := by
  intro t ht
  have := h t ht
  simp_all [continues]

theorem Listed.tighter {ops : Operators} {tighter : List Operators}
    (h : (Rank.level (ops :: tighter)).Listed) : (Rank.level tighter).Listed :=
  (suffix_cons ..).trans h

-- The operators of one level are operators, and do not continue what holds together more tightly.
theorem of_lookup (hs : (Rank.level (ops :: tighter)).Listed) (h : ops.lookup kind = some op) :
    kind.category = .operator ∧ (Rank.level tighter).continues kind = false := by
  have all : ∀ i < 6, ∀ entry ∈ (levels.drop i).headD [], entry.1.category = .operator ∧
      (Rank.level (levels.drop i).tail).continues entry.1 = false := by
    decide
  obtain ⟨before, after, rfl, -⟩ := lookup_eq_some_iff.mp h
  have hdrop := suffix_iff_eq_drop.mp hs
  have hlevel := all (levels.length - (tighter.length + 1)) (by rw [length_levels]; omega)
  rw [length_cons] at hdrop
  rw [← hdrop] at hlevel
  exact hlevel (kind, op) (by simp)

end Rank

variable {ts : List Token} {e : Expr}

theorem Phrase.head (h : Phrase r ts e) : ∃ t rest, ts = t :: rest ∧ r.opens t.kind := by
  induction h
  case binary ih _ =>
    obtain ⟨t, rest, rfl, ht⟩ := ih
    exact ⟨t, _, rfl, ht⟩
  case tighter ih =>
    obtain ⟨t, rest, rfl, ht⟩ := ih
    exact ⟨t, _, rfl, ht⟩
  case unary hop _ _ => exact ⟨_, _, rfl, by simp [Rank.opens, hop]⟩
  case ofPower ih =>
    obtain ⟨t, rest, rfl, ht⟩ := ih
    refine ⟨t, _, rfl, ?_⟩
    simp only [Rank.opens] at ht ⊢
    simp [ht]
  case power ih _ =>
    obtain ⟨t, rest, rfl, ht⟩ := ih
    exact ⟨t, _, rfl, ht⟩
  case ofChained ih => exact ih
  case call ih _ =>
    obtain ⟨t, rest, rfl, ht⟩ := ih
    exact ⟨t, _, rfl, ht⟩
  case member ih =>
    obtain ⟨t, rest, rfl, ht⟩ := ih
    exact ⟨t, _, rfl, ht⟩
  case invoke ih _ =>
    obtain ⟨t, rest, rfl, ht⟩ := ih
    exact ⟨t, _, rfl, ht⟩
  case ofPrimary ih => exact ih
  case literal t _ _ hv =>
    refine ⟨t, [], rfl, ?_⟩
    unfold literal? at hv
    split at hv <;> simp_all [Rank.opens, opensPrimary]
  case receiver hk => exact ⟨_, _, rfl, by simp [Rank.opens, hk, opensPrimary]⟩
  case name hk => exact ⟨_, _, rfl, by simp [Rank.opens, hk, opensPrimary]⟩
  case create hk _ _ _ _ _ _ => exact ⟨_, _, rfl, by simp [Rank.opens, hk, opensPrimary]⟩
  case parenthesized hk _ _ _ => exact ⟨_, _, rfl, by simp [Rank.opens, hk, opensPrimary]⟩

def Rank.rule (r : Rank) (s : State) : Reply Expr s.left :=
  match r with
  | .level ops => Grammar.level ops s
  | .power => Grammar.power s
  | .chained => Grammar.chained s
  | .primary => Grammar.primary s

abbrev Alike (e e' : Expr) : Prop :=
  e'.unnumbered = e.unnumbered

-- How the tokens of an expression are read. Operators of one level, and calls and members, are read
-- by loops: in front of a further one, the loop has reached the expression so far.
def ReadsBack (ts : List Token) (e : Expr) : Rank → Prop
  | .level (ops :: tighter) => (Rank.level (ops :: tighter)).Listed → ∀ (s : State) k,
    s.cursor.rest = ts ++ k → (Rank.level tighter).Ends k →
    ∃ e' s', ∃ h : s'.left < s.left, level (ops :: tighter) s = operands ops tighter e' s' h ∧
      s'.cursor.rest = k ∧ s.Quiet s' ∧ Alike e e'
  | .chained => ∀ (s : State) k, s.cursor.rest = ts ++ k →
    (∀ t ∈ k.head?, t.kind = .leftParen → ∃ m name, e = .variable m name) →
    ∃ e' s', ∃ h : s'.left < s.left, chained s = chain e' s' h ∧
      s'.cursor.rest = k ∧ s.Quiet s' ∧ Alike e e'
  | r => ∀ (s : State) k, s.cursor.rest = ts ++ k → r.Ends k → (r.rule s).Gives s k (Alike e)

variable {s : State}

-- A loop ends in front of what does not continue the expression.
theorem operands_stop (h : s.left < n) (hk : (Rank.level (ops :: tighter)).Ends s.cursor.rest) :
    operands ops tighter e s h = .done e s h := by
  rw [operands]
  split
  case h_1 => rfl
  case h_2 t s₁ h₁ hn =>
    obtain ⟨hr, -⟩ := State.next_passes hn
    have := hk t (by simp [hr.rest])
    simp only [Rank.continues, any_cons, Bool.or_eq_false_iff] at this
    rw [Option.isSome_eq_false_iff, Option.isNone_iff_eq_none] at this
    simp [this.1.1.1.1]

theorem chain_stop (h : s.left < n) (hk : Rank.chained.Ends s.cursor.rest) :
    chain e s h = .done e s h := by
  rw [chain]
  split
  case h_1 => rfl
  case h_2 t s₁ h₁ hn =>
    obtain ⟨hr, -⟩ := State.next_passes hn
    have := hk t (by simp [hr.rest])
    simp only [Rank.continues, Bool.or_eq_false_iff, decide_eq_false_iff_not] at this
    rw [if_neg this.1, if_neg this.2]

variable {k : List Token}

theorem ReadsBack.gives (h : ReadsBack ts e r) (hl : r.Listed) (hs : s.cursor.rest = ts ++ k)
    (hk : r.Ends k) : (r.rule s).Gives s k (Alike e) := by
  unfold ReadsBack at h
  split at h
  case h_1 ops tighter =>
    obtain ⟨e', s', hlt, he, hrest, hq, ha⟩ := h hl s k hs hk.tighter
    rw [Rank.rule, he, operands_stop hlt (hrest ▸ hk)]
    exact ⟨hrest, hq, ha⟩
  case h_2 =>
    have hparen : ∀ t ∈ k.head?, t.kind = .leftParen → ∃ m name, e = .variable m name := by
      intro t ht hp
      have := hk t ht
      simp [Rank.continues, hp] at this
    obtain ⟨e', s', hlt, he, hrest, hq, ha⟩ := h s k hs hparen
    rw [Rank.rule, he, chain_stop hlt (hrest ▸ hk)]
    exact ⟨hrest, hq, ha⟩
  case h_3 => exact h s k hs hk

theorem expression_gives (h : ReadsBack ts e (.level levels)) (hs : s.cursor.rest = ts ++ k)
    (hk : (Rank.level levels).Ends k) : (expression s).Gives s k (Alike e) := by
  rw [expression]
  exact (h.gives (r := .level levels) suffix_rfl hs hk).orRewind

variable {t : Token}

theorem ends_of_comma (h : t.kind = .comma) : (Rank.level levels).Ends (t :: k) :=
  .cons (by rw [h]; rfl)

theorem ends_of_rightParen (h : t.kind = .rightParen) : (Rank.level levels).Ends (t :: k) :=
  .cons (by rw [h]; rfl)

variable {c : Token}

theorem Further.ends (h : Further parts ts) (hc : c.kind = .rightParen) :
    (Rank.level levels).Ends (ts ++ c :: k) := by
  cases h
  case none => exact ends_of_rightParen hc
  case more hcomma _ => exact ends_of_comma hcomma

variable {args : List (List Token × Expr)}

theorem moreArguments_gives (hargs : ∀ a ∈ args, ReadsBack a.1 a.2 (.level levels))
    (hts : Further (args.map (·.1)) ts) (hc : c.kind = .rightParen) (done : List Expr) (s : State)
    (h : s.left < n) (hs : s.cursor.rest = ts ++ c :: k) :
    (moreArguments done s h).Gives s k fun es =>
      es.map Expr.unnumbered = (done.reverse ++ args.map (·.2)).map Expr.unnumbered := by
  induction args generalizing ts done s
  case nil =>
    cases hts
    rw [moreArguments, State.accept?_eq_none (by simp [hs, hc])]
    refine .within _ (.map ((State.expect_gives hs hc).weaken fun _ _ => by simp))
  case cons a rest ih =>
    rcases hts with _ | ⟨hcomma, hfurther⟩
    rename_i us comma
    obtain ⟨ha, hrest⟩ := forall_mem_cons.mp hargs
    have hs' : s.cursor.rest = comma :: (a.1 ++ (us ++ c :: k)) := by simpa using hs
    obtain ⟨s₁, h₁, hacc, hs₁, hq₁⟩ := State.accept?_eq hs' hcomma
    obtain ⟨e, s₂, h₂, hx, hs₂, hq₂, he⟩ := (expression_gives ha hs₁ (hfurther.ends hc)).eq_done
    rw [moreArguments, hacc]
    simp only [hx]
    refine .behind (hq₂.trans hq₁) ?_
    refine (ih hrest hfurther (e :: done) s₂ _ hs₂).weaken fun es hes => ?_
    simpa [he] using hes

structure ReadArguments (args : List (List Token × Expr)) : Prop where
  opens : ∀ a ∈ args, ∃ t rest, a.1 = t :: rest ∧ (Rank.level levels).opens t.kind
  back  : ∀ a ∈ args, ReadsBack a.1 a.2 (.level levels)

theorem arguments_gives (hargs : ReadArguments args) (hts : Separated (args.map (·.1)) ts)
    (hc : c.kind = .rightParen) (s : State) (hs : s.cursor.rest = ts ++ c :: k) :
    (arguments s).Gives s k fun es =>
      es.map Expr.unnumbered = (args.map (·.2)).map Expr.unnumbered := by
  rw [arguments]
  cases args
  case nil =>
    cases hts
    obtain ⟨s₁, h₁, hacc, hs₁, hq₁⟩ := State.accept?_eq hs hc
    rw [hacc]
    exact ⟨hs₁, hq₁, rfl⟩
  case cons a rest =>
    rcases hts with _ | hfurther
    rename_i us
    obtain ⟨ha, hrest⟩ := forall_mem_cons.mp hargs.back
    obtain ⟨t, more, hhead, hopens⟩ := hargs.opens a mem_cons_self
    have hs' : s.cursor.rest = a.1 ++ (us ++ c :: k) := by simpa using hs
    have hnone : s.accept? .rightParen = none := by
      refine State.accept?_eq_none fun t' ht' hp => ?_
      obtain rfl : t' = t := by simpa [hs', hhead] using ht'.symm
      simp [hp, Rank.opens, opensPrimary, unaryOp?] at hopens
    rw [hnone]
    refine (expression_gives ha hs' (hfurther.ends hc)).extend fun e s₁ h₁ hs₁ he => ?_
    refine (moreArguments_gives hrest hfurther hc [e] s₁ h₁ hs₁).weaken fun es hes => ?_
    simpa [he] using hes

theorem Alike.variable {m : Mark} (h : Alike (.variable m name) e) :
    ∃ m', e = .variable m' name ∧ m'.loc = m.loc := by
  cases e <;> simp_all [Alike]

namespace ReadsBack

theorem binary {tighter : List Operators} {ls rs : List Token}
    (ihl : ReadsBack ls left (.level (ops :: tighter))) (hop : ops.lookup t.kind = some op)
    (ihr : ReadsBack rs right (.level tighter)) :
    ReadsBack (ls ++ t :: rs) (.binary ⟨i, t.loc⟩ op left right) (.level (ops :: tighter)) := by
  unfold ReadsBack
  intro hl s k hs hk
  obtain ⟨left', s₁, h₁, hlevel, hs₁, hq₁, hleft⟩ := ihl hl s (t :: rs ++ k)
    (by simpa using hs) (.cons (Rank.of_lookup hl hop).2)
  obtain ⟨s₂, h₂, hn, hs₂, hq₂⟩ := State.next_eq hs₁
  obtain ⟨right', s₃, h₃, hx, hs₃, hq₃, hright⟩ := (ihr.gives hl.tighter hs₂ hk).eq_done
  refine ⟨.binary ⟨s₃.fresh, t.loc⟩ op left' right', s₃.numbered,
    by simp only [State.left_numbered]; omega, ?_, hs₃, hq₃.trans (hq₂.trans hq₁), ?_⟩
  · rw [hlevel, operands]
    simp only [Rank.rule] at hx
    simp only [hn, hop, hx]
  · simp [Alike, hleft, hright]

theorem tighter {tighter : List Operators} (ih : ReadsBack ts e (.level tighter)) :
    ReadsBack ts e (.level (ops :: tighter)) := by
  unfold ReadsBack
  intro hl s k hs hk
  obtain ⟨e', s₁, h₁, hx, hs₁, hq₁, he⟩ := (ih.gives hl.tighter hs hk).eq_done
  refine ⟨e', s₁, h₁, ?_, hs₁, hq₁, he⟩
  simp only [Rank.rule] at hx
  rw [level, hx]
  rfl

theorem unary (hop : unaryOp? t.kind = some op) (ih : ReadsBack ts e (.level [])) :
    ReadsBack (t :: ts) (.unary ⟨i, t.loc⟩ op e) (.level []) := by
  unfold ReadsBack
  intro s k hs hk
  obtain ⟨s₁, h₁, hn, hs₁, hq₁⟩ := State.next_eq hs
  have hrest := ih.gives (r := .level []) nil_suffix hs₁ hk
  simp only [Rank.rule, level] at hrest ⊢
  rw [Grammar.unary]
  simp only [hn, hop]
  refine .within _ (.marked (.behind hq₁ (hrest.weaken fun e' he i => ?_)))
  simp [Alike, he]

theorem ofPower (hp : Phrase .power ts e') (ih : ReadsBack ts e .power) :
    ReadsBack ts e (.level []) := by
  unfold ReadsBack
  intro s k hs hk
  have hpower := ih.gives trivial hs hk.power
  obtain ⟨t, rest, rfl, hopens⟩ := hp.head
  obtain ⟨s₁, h₁, hn, -⟩ := State.next_eq hs
  have hop : unaryOp? t.kind = none := by
    cases hkind : t.kind <;> simp_all [Rank.opens, opensPrimary, unaryOp?]
  simp only [Rank.rule, level] at hpower ⊢
  rw [Grammar.unary]
  simpa only [hn, hop] using hpower

theorem power {ls rs : List Token} (ihl : ReadsBack ls left .chained)
    (ht : t.kind = .power) (ihr : ReadsBack rs right .power) :
    ReadsBack (ls ++ t :: rs) (.binary ⟨i, t.loc⟩ .pow left right) .power := by
  unfold ReadsBack
  intro s k hs hk
  have hleft := ihl.gives (k := t :: rs ++ k) trivial (by simpa using hs)
    (.cons (by rw [ht]; rfl))
  simp only [Rank.rule] at hleft ⊢
  rw [Grammar.power]
  refine hleft.extend fun left' s₁ h₁ hs₁ hl => ?_
  obtain ⟨s₂, h₂, hn, hs₂, hq₂⟩ := State.next_eq hs₁
  have hright := ihr.gives trivial hs₂ hk
  simp only [Rank.rule] at hright
  simp only [hn, ht, if_true]
  refine .within _ (.marked (.behind hq₂ (hright.weaken fun right' hr i => ?_)))
  simp [Alike, hl, hr]

theorem ofChained (ih : ReadsBack ts e .chained) : ReadsBack ts e .power := by
  unfold ReadsBack
  intro s k hs hk
  have hleft := ih.gives trivial hs hk.chained
  simp only [Rank.rule] at hleft ⊢
  rw [Grammar.power]
  refine hleft.extend fun left' s₁ h₁ hs₁ hl => ?_
  split
  case h_1 => exact ⟨hs₁, rfl, hl⟩
  case h_2 t s₂ h₂ hn =>
    obtain ⟨hr, -⟩ := State.next_passes hn
    have hnot := hk t (by simp [← hs₁, hr.rest])
    simp only [Rank.continues, Bool.or_eq_false_iff, decide_eq_false_iff_not] at hnot
    rw [if_neg hnot.1.1]
    exact ⟨hs₁, rfl, hl⟩

variable {o : Token}

theorem call {fs : List Token} {m' : Mark} (ihf : ReadsBack fs (.variable m' name) .chained)
    (ho : o.kind = .leftParen) (hargs : ReadArguments args) (hts : Separated (args.map (·.1)) ts)
    (hc : c.kind = .rightParen) :
    ReadsBack (fs ++ o :: ts ++ [c]) (.call ⟨i, m'.loc⟩ name (args.map (·.2))) .chained := by
  unfold ReadsBack
  intro s k hs _
  obtain ⟨f, s₁, h₁, hchained, hs₁, hq₁, hf⟩ := ihf s (o :: ts ++ c :: k) (by simpa using hs)
    fun _ _ _ => ⟨m', name, rfl⟩
  obtain ⟨mark, rfl, hloc⟩ := hf.variable
  obtain ⟨s₂, h₂, hn, hs₂, hq₂⟩ := State.next_eq hs₁
  obtain ⟨es, s₃, h₃, hx, hs₃, hq₃, hes⟩ :=
    (arguments_gives hargs hts hc s₂ hs₂).eq_done
  refine ⟨.call ⟨s₃.fresh, mark.loc⟩ name es, s₃.numbered,
    by simp only [State.left_numbered]; omega, ?_, hs₃, hq₃.trans (hq₂.trans hq₁), ?_⟩
  · rw [hchained, chain]
    simp only [hn, ho, if_true, hx]
  · simp [Alike, hloc, hes]

theorem member {es : List Token} {dot name : Token} (ih : ReadsBack es e .chained)
    (hdot : dot.kind = .dot) (hname : name.kind = .identifier) :
    ReadsBack (es ++ [dot, name]) (.member ⟨i, dot.loc⟩ e name.text) .chained := by
  unfold ReadsBack
  intro s k hs hk
  obtain ⟨e', s₁, h₁, hchained, hs₁, hq₁, he⟩ := ih s (dot :: name :: k) (by simpa using hs)
    (by simp [hdot])
  obtain ⟨s₂, h₂, hn, hs₂, hq₂⟩ := State.next_eq hs₁
  have hexpect : (s₂.expect .identifier "after '.'").Gives s₂ _ _ := State.expect_gives hs₂ hname
  obtain ⟨name', s₃, h₃, hx, hs₃, hq₃, rfl⟩ := hexpect.eq_done
  have hnone : s₃.accept? .leftParen = none := by
    refine State.accept?_eq_none fun t ht hp => ?_
    obtain ⟨_, _, hvar⟩ := hk t (hs₃ ▸ ht) hp
    contradiction
  refine ⟨.member ⟨s₃.fresh, dot.loc⟩ e' name'.text, s₃.numbered,
    by simp only [State.left_numbered]; omega, ?_, hs₃, hq₃.trans (hq₂.trans hq₁), ?_⟩
  · rw [hchained, chain]
    simp only [hn, hdot, reduceCtorEq, if_false, if_true, hx, hnone]
  · simp [Alike, he]

theorem invoke {es : List Token} {dot name : Token} (ih : ReadsBack es e .chained)
    (hdot : dot.kind = .dot) (hname : name.kind = .identifier) (ho : o.kind = .leftParen)
    (hargs : ReadArguments args) (hts : Separated (args.map (·.1)) ts) (hc : c.kind = .rightParen) :
    ReadsBack (es ++ dot :: name :: o :: ts ++ [c])
      (.invoke ⟨i, dot.loc⟩ e name.text (args.map (·.2))) .chained := by
  unfold ReadsBack
  intro s k hs hk
  obtain ⟨e', s₁, h₁, hchained, hs₁, hq₁, he⟩ :=
    ih s (dot :: name :: o :: ts ++ c :: k) (by simpa using hs) (by simp [hdot])
  obtain ⟨s₂, h₂, hn, hs₂, hq₂⟩ := State.next_eq hs₁
  have hexpect : (s₂.expect .identifier "after '.'").Gives s₂ _ _ := State.expect_gives hs₂ hname
  obtain ⟨name', s₃, h₃, hx, hs₃, hq₃, rfl⟩ := hexpect.eq_done
  obtain ⟨s₄, h₄, hacc, hs₄, hq₄⟩ := State.accept?_eq hs₃ ho
  obtain ⟨as, s₅, h₅, hy, hs₅, hq₅, has⟩ :=
    (arguments_gives hargs hts hc s₄ hs₄).eq_done
  refine ⟨.invoke ⟨s₅.fresh, dot.loc⟩ e' name'.text as, s₅.numbered,
    by simp only [State.left_numbered]; omega, ?_, hs₅,
    hq₅.trans (hq₄.trans (hq₃.trans (hq₂.trans hq₁))), ?_⟩
  · rw [hchained, chain]
    simp only [hn, hdot, reduceCtorEq, if_false, if_true, hx, hacc, hy]
  · simp [Alike, he, has]

theorem ofPrimary (ih : ReadsBack ts e .primary) : ReadsBack ts e .chained := by
  unfold ReadsBack
  intro s k hs hk
  obtain ⟨e', s₁, h₁, hx, hs₁, hq₁, he⟩ :=
    (ih.gives trivial hs (fun _ _ => rfl)).eq_done
  refine ⟨e', s₁, h₁, ?_, hs₁, hq₁, he⟩
  simp only [Rank.rule] at hx
  rw [chained, hx]
  rfl

theorem create {type : Token} {name : TypeName} (ht : t.kind = .newKw)
    (htype : typeOf? type = some name) (ho : o.kind = .leftParen) (hargs : ReadArguments args)
    (hts : Separated (args.map (·.1)) ts) (hc : c.kind = .rightParen) :
    ReadsBack (t :: type :: o :: ts ++ [c]) (.create ⟨i, t.loc⟩ name (args.map (·.2)))
      .primary := by
  unfold ReadsBack
  intro s k hs _
  obtain ⟨s₁, h₁, hn, hs₁, hq₁⟩ := State.next_eq hs
  simp only [Rank.rule]
  rw [primary]
  simp only [hn, literal?, ht]
  refine .after (.within _ (.behind hq₁ ?_))
  refine (State.typeName_gives hs₁ htype).bind fun type' s₂ _ hs₂ htype' => ?_
  subst htype'
  refine (State.expect_gives hs₂ ho).bind fun _ s₃ _ hs₃ _ => .marked ?_
  refine (arguments_gives hargs hts hc s₃ (by simpa using hs₃)).weaken fun es hes i => ?_
  simp [Alike, hes]

theorem parenthesized (ho : o.kind = .leftParen) (ih : ReadsBack ts e (.level levels))
    (hc : c.kind = .rightParen) : ReadsBack (o :: ts ++ [c]) e .primary := by
  unfold ReadsBack
  intro s k hs _
  obtain ⟨s₁, h₁, hn, hs₁, hq₁⟩ := State.next_eq hs
  simp only [Rank.rule]
  rw [primary]
  simp only [hn, literal?, ho]
  refine .after (.within _ (.behind hq₁ ?_))
  refine (expression_gives ih (k := c :: k) (by simpa using hs₁) (ends_of_rightParen hc)).bind
    fun e' s₂ _ hs₂ he => .map ?_
  exact (State.expect_gives hs₂ hc).weaken fun _ _ => he

theorem leaf
    (h : ∀ (s : State) s₁ h₁, s.next = .token t s₁ h₁ →
      ∃ e', primary s = .done e' s₁.numbered h₁ ∧ Alike e e') :
    ReadsBack [t] e .primary := by
  unfold ReadsBack
  intro s k hs _
  obtain ⟨s₁, h₁, hn, hs₁, hq₁⟩ := State.next_eq hs
  obtain ⟨e', hx, he⟩ := h s s₁ h₁ hn
  simp only [Rank.rule, hx]
  exact ⟨hs₁, hq₁, he⟩

end ReadsBack

theorem exists_readArguments (hargs : ∀ a ∈ args, Expression a.1 a.2)
    (ih : ∀ a ∈ args, ∃ e, e.unmarked = a.2.unmarked ∧ ReadsBack a.1 e (.level levels)) :
    ∃ found : List (List Token × Expr), found.map (·.1) = args.map (·.1) ∧
      unmarkedArgs (found.map (·.2)) = unmarkedArgs (args.map (·.2)) ∧ ReadArguments found := by
  induction args
  case nil => exact ⟨[], rfl, rfl, by simp, by simp⟩
  case cons a rest hrest =>
    obtain ⟨ha, hargs⟩ := forall_mem_cons.mp hargs
    obtain ⟨⟨e, he, hback⟩, ih⟩ := forall_mem_cons.mp ih
    obtain ⟨found, hts, hes, hfound⟩ := hrest hargs ih
    refine ⟨(a.1, e) :: found, by simp [hts], by simp [unmarkedArgs, he, hes], ?_, ?_⟩
    · exact forall_mem_cons.mpr ⟨ha.head, hfound.opens⟩
    · exact forall_mem_cons.mpr ⟨hback, hfound.back⟩

-- The places in the tree are those of the tokens.
theorem Phrase.readsBack (h : Phrase r ts e) :
    ∃ e', e'.unmarked = e.unmarked ∧ ReadsBack ts e' r := by
  induction h
  case binary t _ op _ _ _ hop _ ihl ihr =>
    obtain ⟨left, hleft, ihl⟩ := ihl
    obtain ⟨right, hright, ihr⟩ := ihr
    exact ⟨.binary ⟨0, t.loc⟩ op left right, by simp [hleft, hright], .binary ihl hop ihr⟩
  case tighter ih =>
    obtain ⟨e, he, ih⟩ := ih
    exact ⟨e, he, .tighter ih⟩
  case unary t _ op _ hop _ ih =>
    obtain ⟨e, he, ih⟩ := ih
    exact ⟨.unary ⟨0, t.loc⟩ op e, by simp [he], .unary hop ih⟩
  case ofPower hp ih =>
    obtain ⟨e, he, ih⟩ := ih
    exact ⟨e, he, .ofPower hp ih⟩
  case power t _ _ _ _ ht _ ihl ihr =>
    obtain ⟨left, hleft, ihl⟩ := ihl
    obtain ⟨right, hright, ihr⟩ := ihr
    exact ⟨.binary ⟨0, t.loc⟩ .pow left right, by simp [hleft, hright], .power ihl ht ihr⟩
  case ofChained ih =>
    obtain ⟨e, he, ih⟩ := ih
    exact ⟨e, he, .ofChained ih⟩
  case call name _ _ ho hargs hts hc ihf ihargs =>
    obtain ⟨f, hf, ihf⟩ := ihf
    obtain ⟨m, rfl⟩ : ∃ m, f = .variable m name := by cases f <;> simp_all
    obtain ⟨found, hparts, hes, hfound⟩ := exists_readArguments hargs ihargs
    exact ⟨.call ⟨0, m.loc⟩ name _, by simp [hes], .call ihf ho hfound (hparts ▸ hts) hc⟩
  case member dot name _ _ _ hdot hname ih =>
    obtain ⟨e, he, ih⟩ := ih
    exact ⟨.member ⟨0, dot.loc⟩ e name.text, by simp [he], .member ih hdot hname⟩
  case invoke dot name _ _ _ _ _ _ hdot hname ho hargs hts hc ih ihargs =>
    obtain ⟨e, he, ih⟩ := ih
    obtain ⟨found, hparts, hes, hfound⟩ := exists_readArguments hargs ihargs
    exact ⟨.invoke ⟨0, dot.loc⟩ e name.text _, by simp [he, hes],
      .invoke ih hdot hname ho hfound (hparts ▸ hts) hc⟩
  case ofPrimary ih =>
    obtain ⟨e, he, ih⟩ := ih
    exact ⟨e, he, .ofPrimary ih⟩
  case create t _ _ _ _ type _ ht htype ho hargs hts hc ihargs =>
    obtain ⟨found, hparts, hes, hfound⟩ := exists_readArguments hargs ihargs
    exact ⟨.create ⟨0, t.loc⟩ type _, by simp [hes],
      .create ht htype ho hfound (hparts ▸ hts) hc⟩
  case parenthesized ho _ hc ih =>
    obtain ⟨e, he, ih⟩ := ih
    exact ⟨e, he, .parenthesized ho ih hc⟩
  case literal t _ value hv =>
    refine ⟨.literal ⟨0, t.loc⟩ value, rfl,
      .leaf fun s s₁ h₁ hn => ⟨.literal ⟨s₁.fresh, t.loc⟩ value, ?_, rfl⟩⟩
    rw [primary]
    simp only [hn, hv]
  case receiver t _ ht =>
    refine ⟨.receiver ⟨0, t.loc⟩, rfl,
      .leaf fun s s₁ h₁ hn => ⟨.receiver ⟨s₁.fresh, t.loc⟩, ?_, rfl⟩⟩
    rw [primary]
    simp only [hn, literal?, ht]
  case name t _ ht =>
    refine ⟨.variable ⟨0, t.loc⟩ t.text, rfl,
      .leaf fun s s₁ h₁ hn => ⟨.variable ⟨s₁.fresh, t.loc⟩ t.text, ?_, rfl⟩⟩
    rw [primary]
    simp only [hn, literal?, ht]

theorem Expression.recurs (h : Expression ts e) :
    Recurs expression Expr.unnumbered Expr.unmarked (Rank.level levels).Ends ts e := by
  obtain ⟨e', he, hback⟩ := Phrase.readsBack h
  exact ⟨e'.unnumbered, e'.unmarked_unnumbered.trans he,
    fun _ _ hs hk => expression_gives hback hs hk⟩

end Lumen.Grammar
