import Lumen.Proofs.Grammar.Contract

namespace Lumen.Grammar

open State

open Token (Kind)

variable {α : Type}

-- One round of a loop that repeats a rule: what was read, if the rule did not fail, and the state
-- in which the next round starts. There is none at the end, and at a token that stops the loop.
def State.round (rule : (s : State) → Reply α s.left) (stops : Kind → Bool) (s : State) :
    Option (Option α × State) :=
  match s.next with
  | .nothing => none
  | .token t _ h₁ =>
    if stops t.kind then none
    else match rule s with
      | .done a s₂ _ => some (some a, s₂)
      | .failed failure s₂ h₂ => some (none, (s.goOn failure s₂ h₂ (left_pos h₁)).1)

def Rounds (rule : (s : State) → Reply α s.left) (stops : Kind → Bool)
    (loop : List α → State → List α × State) : Prop :=
  ∀ done s, loop done s = match s.round rule stops with
    | none => (done.reverse, s)
    | some (a, s') => loop (a.toList ++ done) s'

structure Repeated (rule : (s : State) → Reply α s.left) (stops : Kind → Bool) : Prop where
  fails : ∀ {s e s₁ bound}, rule s = .failed e s₁ bound → Fails s e s₁
  stops : ∀ kind, inner kind → !stops kind

section

variable {rule : (s : State) → Reply α s.left} {stops : Kind → Bool}
  {loop : List α → State → List α × State} {I : List Token → State → List α → Prop} {s s₁ : State}

theorem round_cases (hr : s.round rule stops = some (a, s₁)) :
    (!stops s.peek.kind) ∧
      ((∃ b h, a = some b ∧ rule s = .done b s₁ h) ∨
        ∃ e s₂ h m, a = none ∧ rule s = .failed e s₂ h ∧ s₁ = (s.goOn e s₂ h m).1) := by
  unfold State.round at hr
  split at hr
  case h_1 => contradiction
  case h_2 t s' h' hn =>
    split at hr
    case isTrue => contradiction
    case isFalse hstops =>
      obtain ⟨-, hpeek, -⟩ := next_passes hn
      refine ⟨by simpa [hpeek] using hstops, ?_⟩
      split at hr
      all_goals
        injection hr with hr
        injection hr with ha hs
        subst ha hs
      case h_1 b s₂ h hx => exact .inl ⟨b, h, rfl, hx⟩
      case h_2 e s₂ h hx => exact .inr ⟨e, s₂, h, left_pos h', rfl, hx, rfl⟩

theorem round_eq_none (hr : s.round rule stops = none) :
    s.cursor.rest = [] ∨ stops s.peek.kind := by
  unfold State.round at hr
  split at hr
  case h_1 hn => exact .inl (List.length_eq_zero_iff.mp (left_of_nothing hn))
  case h_2 t s' h' hn =>
    obtain ⟨-, hpeek, -⟩ := next_passes hn
    split at hr
    case isTrue hstops => exact .inr (hpeek ▸ hstops)
    case isFalse => split at hr <;> contradiction

theorem round_goes {P : List Token → State → α → Prop} (h : (rule s).Meets s P)
    (hr : s.round rule stops = some (a, s₁)) : s.Goes s₁ ∧ s₁.left < s.left := by
  rcases (round_cases hr).2 with ⟨b, hlt, -, hx⟩ | ⟨e, s₂, h₂, m, -, hx, rfl⟩
  · rw [hx] at h
    obtain ⟨_, hread, -⟩ := h
    exact ⟨hread.goes, hlt⟩
  · rw [hx] at h
    obtain ⟨⟨_, hread⟩, hbehind⟩ := h
    obtain ⟨s₃, used, s₄, ⟨_, hread'⟩, hlast, -, he⟩ := hbehind.resolve_right (by simp)
    exact ⟨goOn_goes hread.goes hread'.goes hlast.toPasses he, (s.goOn e s₂ h₂ m).2⟩

theorem round_keeps (hrule : Repeated rule stops) (before : List Token) (done : List α)
    (hmeets : (rule s).Meets s fun used s' a => I (before ++ used) s' (done ++ [a]))
    (hskip : ∀ used s', s.Reads used s' (! stops ·) → ¬s.Quiet s' → I (before ++ used) s' done)
    (hr : s.round rule stops = some (a, s₁)) :
    ∃ used, s.Reads used s₁ (! stops ·) ∧ I (before ++ used) s₁ (done ++ a.toList) := by
  obtain ⟨hgoes, -⟩ := round_goes hmeets hr
  obtain ⟨hstops, hcase⟩ := round_cases hr
  rcases hcase with ⟨b, _, rfl, hx⟩ | ⟨e, s₂, h₂, m, rfl, hx, rfl⟩
  · rw [hx] at hmeets
    obtain ⟨used, hread, hi⟩ := hmeets
    exact ⟨used, hread.mono hrule.stops, hi⟩
  · rw [hx] at hmeets
    obtain ⟨⟨_, hread⟩, hbehind⟩ := hmeets
    obtain ⟨s₃, last, s₄, ⟨_, hread'⟩, hlast, hq, he⟩ := hbehind.resolve_right (by simp)
    obtain ⟨used, hpasses⟩ := hgoes.reaches
    have hfresh : s.fresh ≤ (s.goOn e s₂ h₂ m).1.fresh := by
      rw [goOn_keeps.2]
      exact hread.fresh
    have hr' : s.Reads used (s.goOn e s₂ h₂ m).1 (! stops ·) :=
      ⟨hpasses, hfresh, .recover hstops (hrule.fails hx) hread.way hread'.way hlast.way
        hlast.toPasses hq he h₂ m⟩
    exact ⟨used, hr', by simpa using hskip used _ hr' (goOn_not_quiet hread.goes)⟩

theorem Rounds.keeps (hloop : Rounds rule stops loop) (hrule : Repeated rule stops)
    (hstep : ∀ before s done, s.left ≤ n → I before s done → (rule s).Meets s fun used s' a => I
      (before ++ used) s' (done ++ [a]))
    (hskip : ∀ before s done used s', I before s done → s.Reads used s' (! stops ·) →
      ¬s.Quiet s' → I (before ++ used) s' done)
    (done : List α) {s : State} (hs : s.left ≤ n) (hi : I before s done.reverse) :
    ∃ used, s.Reads used (loop done s).2 (! stops ·) ∧
      I (before ++ used) (loop done s).2 (loop done s).1 ∧
      ((loop done s).2.cursor.rest = [] ∨ stops (loop done s).2.peek.kind) := by
  induction hn : s.left using Nat.strongRecOn generalizing before done s
  case ind m ih =>
    rw [hloop done s]
    split
    case h_1 hr => exact ⟨[], .refl s, by simpa using hi, round_eq_none hr⟩
    case h_2 a s₁ hr =>
      have hmeets := hstep before s _ hs hi
      have hlt := (round_goes hmeets hr).2
      obtain ⟨used, hread, hi₁⟩ := round_keeps hrule before done.reverse hmeets
        (fun used s' => hskip before s _ used s' hi) hr
      have hdone : done.reverse ++ a.toList = (a.toList ++ done).reverse := by cases a <;> simp
      obtain ⟨more, hm, hi', hend⟩ := ih s₁.left (by omega) (a.toList ++ done) (by omega)
        (hdone ▸ hi₁) rfl
      exact ⟨used ++ more, hread.trans hm, by simpa using hi', hend⟩

-- Things that are read one behind the other. What is said of one of them is said of what has been
-- read up to there, too.
structure Collects (W : String → Prop) (rule : (s : State) → Reply α s.left)
    (one : Nat → List Token → State → α → Prop) (all : Nat → List Token → State → List α → Prop)
    (written : List Token → α → Prop) (writtenAll : List Token → List α → Prop) (n : Nat) :
    Prop where
  rule : ∀ s : State, s.left ≤ n → s.Worded W → (rule s).Meets s fun used s' a =>
    one s.fresh used s' a ∧ (s.Quiet s' → written used a)
  nil  : ∀ s : State, all s.fresh [] s []
  push : ∀ {lo used s as more s' a}, all lo used s as → one s.fresh more s' a →
    lo ≤ s.fresh → s.fresh ≤ s'.fresh → all lo (used ++ more) s' (as ++ [a])
  later : ∀ {lo used s as more s'}, all lo used s as → s.fresh ≤ s'.fresh →
    all lo (used ++ more) s' as
  none : writtenAll [] []
  next : ∀ {ts us as a}, writtenAll ts as → written us a → writtenAll (ts ++ us) (as ++ [a])

variable {W : String → Prop} {one : Nat → List Token → State → α → Prop}
  {all : Nat → List Token → State → List α → Prop} {written : List Token → α → Prop}
  {writtenAll : List Token → List α → Prop}

theorem Rounds.reads (hloop : Rounds rule stops loop) (hrule : Repeated rule stops)
    (h : Collects W rule one all written writtenAll s.left) (hw : s.Worded W) :
    ∃ used, s.Reads used (loop [] s).2 (! stops ·) ∧
      all s.fresh used (loop [] s).2 (loop [] s).1 ∧
      (s.Quiet (loop [] s).2 → writtenAll used (loop [] s).1) ∧
      ((loop [] s).2.cursor.rest = [] ∨ stops (loop [] s).2.peek.kind) := by
  let I (used : List Token) (s' : State) (as : List α) : Prop :=
    s.Reads used s' (! stops ·) ∧ all s.fresh used s' as ∧ (s.Quiet s' → writtenAll used as)
  have hstep (before : List Token) (s' : State) (done : List α) (hs : s'.left ≤ s.left)
      (hi : I before s' done) :
      (rule s').Meets s' fun used s'' a => I (before ++ used) s'' (done ++ [a]) := by
    obtain ⟨hr, hall, hq⟩ := hi
    refine (h.rule s' hs (hr.worded hw)).weaken fun used s'' a hread hone => ?_
    refine ⟨hr.trans (hread.mono hrule.stops), h.push hall hone.1 hr.fresh hread.fresh,
      fun hquiet => ?_⟩
    obtain ⟨hq₁, hq₂⟩ := hr.quiet hread hquiet
    exact h.next (hq hq₁) (hone.2 hq₂)
  have hskip (before : List Token) (s' : State) (done : List α) (used : List Token) (s'' : State)
      (hi : I before s' done) (hread : s'.Reads used s'' (! stops ·)) (hnot : ¬s'.Quiet s'') :
      I (before ++ used) s'' done := by
    obtain ⟨hr, hall, -⟩ := hi
    exact ⟨hr.trans hread, h.later hall hread.fresh, fun hq => absurd (hr.quiet hread hq).2 hnot⟩
  have hstart : I [] s [] := ⟨.refl s, h.nil s, fun _ => h.none⟩
  obtain ⟨used, hread, ⟨-, hall, hq⟩, hend⟩ := hloop.keeps hrule hstep hskip [] s.left_refl hstart
  exact ⟨used, hread, hall, hq, hend⟩

-- The same between braces.
theorem Rounds.reads_braced {shorter : s₁.left < s.left} (hn : s.next = .token t s₁ shorter)
    (ht : t.kind = .leftBrace) (unclosed : Token → Cause)
    (hu : ∀ t, (unclosed t).isNumeric = false)
    (hloop : Rounds rule (· = .rightBrace) loop) (hrule : Repeated rule (· = .rightBrace))
    (h : Collects W rule one all written writtenAll s₁.left) (hw : s.Worded W) :
    ∃ used, s.Reads (t :: used) ((loop [] s₁).2.close unclosed).1 ∧
      all s.fresh used ((loop [] s₁).2.close unclosed).1 (loop [] s₁).1 ∧
      (s.Quiet ((loop [] s₁).2.close unclosed).1 → ∃ ts c, used = ts ++ [c] ∧
        c.kind = .rightBrace ∧ writtenAll ts (loop [] s₁).1) := by
  obtain ⟨hp, -, hf, -⟩ := next_passes hn
  obtain ⟨used, hr, hall, hwr, hend⟩ := hloop.reads hrule h (hw.of_passes hp)
  obtain ⟨more, made, hp', hf', hmade, hclose⟩ := (loop [] s₁).2.close_passes unclosed
  have hle := Nat.le_of_eq hf'.symm
  refine ⟨used ++ more, ⟨?_, hf ▸ Nat.le_trans hr.fresh hle, ?_⟩, hf ▸ h.later hall hle,
    fun hq => ?_⟩
  · exact (hp.trans hr.toPasses).trans hp'
  · exact .block rfl hn ht hr.way (by simpa using hend) hu
  · obtain ⟨hq₁, hq₂⟩ := ((next_goes hn).trans hr.goes).quiet (close_goes _ hu) hq
    rcases hclose with ⟨-, c, rfl, hc⟩ | ⟨-, rfl⟩
    · exact ⟨used, c, rfl, hc, hwr ((next_goes hn).quiet hr.goes hq₁).2⟩
    · simp [State.Quiet, hmade] at hq₂

end

theorem item_repeated : Repeated item (fun _ => false) :=
  ⟨.item, by simp⟩

theorem member_repeated : Repeated member (· = .rightBrace) :=
  ⟨.member, fun _ h => h⟩

theorem statement_repeated : Repeated statement (· = .rightBrace) :=
  ⟨.statement, fun _ h => h⟩

theorem items_rounds : Rounds item (fun _ => false) items := by
  intro done s
  rw [items]
  unfold State.round
  cases s.next
  case nothing => rfl
  case token t s₁ h₁ =>
    simp only [Bool.false_eq_true, if_false]
    cases item s <;> rfl

abbrev BoundedLoop (α : Type) :=
  List α → {n : Nat} → (s : State) → s.left ≤ n → List α × { s' : State // s'.left ≤ n }

namespace BoundedLoop

variable {rule : (s : State) → Reply α s.left} {stops : Kind → Bool} {loop : BoundedLoop α}

def unbound {n : Nat} (r : List α × { s' : State // s'.left ≤ n }) : List α × State :=
  (r.1, r.2.1)

def run (loop : BoundedLoop α) (done : List α) (s : State) : List α × State :=
  unbound (loop done s s.left_refl)

def Steps (rule : (s : State) → Reply α s.left) (stops : Kind → Bool) (loop : BoundedLoop α) :
    Prop :=
  ∀ {n : Nat} (done : List α) (s : State) (h : s.left ≤ n),
    (s.round rule stops = none ∧ unbound (loop done s h) = (done.reverse, s)) ∨
    ∃ a s', ∃ h' : s'.left ≤ n, s'.left < s.left ∧ s.round rule stops = some (a, s') ∧
      unbound (loop done s h) = unbound (loop (a.toList ++ done) s' h')

theorem Steps.unbound_eq (hl : Steps rule stops loop) (done : List α) (s : State) (h : s.left ≤ n)
    (h' : s.left ≤ m) : unbound (loop done s h) = unbound (loop done s h') := by
  induction hn : s.left using Nat.strongRecOn generalizing done s
  case ind ih =>
    rcases hl done s h with ⟨hr, he⟩ | ⟨a, s₁, h₁, hlt, hr, he⟩
    all_goals rcases hl done s h' with ⟨hr', he'⟩ | ⟨a', s₁', h₁', -, hr', he'⟩
    · rw [he, he']
    · rw [hr] at hr'
      contradiction
    · rw [hr] at hr'
      contradiction
    · rw [hr] at hr'
      injection hr' with hr'
      injection hr' with ha hs
      subst ha hs
      rw [he, he']
      exact ih s₁.left (hn ▸ hlt) _ s₁ h₁ h₁' rfl

theorem Steps.rounds (hl : Steps rule stops loop) : Rounds rule stops loop.run := by
  intro done s
  rcases hl done s s.left_refl with ⟨hr, he⟩ | ⟨a, s', h', _, hr, he⟩
  · rw [hr, run, he]
  · rw [hr, run, he]
    exact hl.unbound_eq ..

end BoundedLoop

theorem members_steps : BoundedLoop.Steps member (· = .rightBrace) members := by
  intro n done s h
  rw [members]
  unfold State.round
  cases s.next
  case nothing => exact .inl ⟨rfl, rfl⟩
  case token t s₁ h₁ =>
    simp only [decide_eq_true_eq]
    split
    case isTrue => exact .inl ⟨rfl, rfl⟩
    case isFalse =>
      cases member s
      case done m s₂ h₂ => exact .inr ⟨some m, s₂, left_le_bound h h₂, h₂, rfl, rfl⟩
      case failed failure s₂ h₂ =>
        have hlt := (s.goOn failure s₂ h₂ (left_pos h₁)).2
        exact .inr ⟨none, _, left_le_bound h hlt, hlt, rfl, rfl⟩

theorem statements_steps : BoundedLoop.Steps statement (· = .rightBrace) statements := by
  intro n done s h
  rw [statements]
  unfold State.round
  cases s.next
  case nothing => exact .inl ⟨rfl, rfl⟩
  case token t s₁ h₁ =>
    simp only [decide_eq_true_eq]
    split
    case isTrue => exact .inl ⟨rfl, rfl⟩
    case isFalse =>
      cases statement s
      case done m s₂ h₂ => exact .inr ⟨some m, s₂, left_le_bound h h₂, h₂, rfl, rfl⟩
      case failed failure s₂ h₂ =>
        have hlt := (s.goOn failure s₂ h₂ (left_pos h₁)).2
        exact .inr ⟨none, _, left_le_bound h hlt, hlt, rfl, rfl⟩

end Lumen.Grammar
