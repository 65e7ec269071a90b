import Lumen.Proofs.Grammar.Statement

namespace Lumen.Grammar

open List

open Token (Kind)

structure Balanced (ts : List Token) : Prop where
  front : ∀ part, part <+: ts →
    part.countP (·.kind = .rightBrace) ≤ part.countP (·.kind = .leftBrace)
  whole : ts.countP (·.kind = .rightBrace) = ts.countP (·.kind = .leftBrace)

instance (ts : List Token) : Decidable (Balanced ts) :=
  decidable_of_iff
    ((∀ n ≤ ts.length, (ts.take n).countP (·.kind = .rightBrace) ≤
        (ts.take n).countP (·.kind = .leftBrace)) ∧
      ts.countP (·.kind = .rightBrace) = ts.countP (·.kind = .leftBrace)) <| by
    constructor
    · intro h
      refine ⟨fun part hpart => ?_, h.2⟩
      rw [prefix_iff_eq_take.mp hpart]
      exact h.1 part.length hpart.length_le
    · intro h
      exact ⟨fun n _ => h.front (ts.take n) (List.take_prefix n ts), h.whole⟩

def Shuts : Nat → List Token → Prop
  | depth, [] => depth = 0
  | depth, t :: ts =>
    match t.kind, depth with
    | .leftBrace, _ => Shuts (depth + 1) ts
    | .rightBrace, 0 => False
    | .rightBrace, depth + 1 => Shuts depth ts
    | _, _ => Shuts depth ts

section Shuts

variable {depth : Nat} {t : Token} {ts : List Token}

theorem shuts_leftBrace (ht : t.kind = .leftBrace) :
    Shuts depth (t :: ts) ↔ Shuts (depth + 1) ts := by
  simp only [Shuts, ht]

theorem shuts_rightBrace (ht : t.kind = .rightBrace) :
    Shuts (depth + 1) (t :: ts) ↔ Shuts depth ts := by
  simp only [Shuts, ht]

theorem not_shuts_rightBrace (ht : t.kind = .rightBrace) : ¬Shuts 0 (t :: ts) := by
  simp [Shuts, ht]

theorem shuts_other (ht : isBrace t.kind = false) : Shuts depth (t :: ts) ↔ Shuts depth ts := by
  cases hk : t.kind <;> simp_all [isBrace, Shuts]

theorem Balanced.shuts (h : Balanced ts) : Shuts 0 ts := by
  -- Behind some tokens, the blocks they have left open are to be closed.
  suffices hopen : ∀ depth,
      (∀ part, part <+: ts →
        part.countP (·.kind = .rightBrace) ≤ depth + part.countP (·.kind = .leftBrace)) →
      ts.countP (·.kind = .rightBrace) = depth + ts.countP (·.kind = .leftBrace) →
      Shuts depth ts by
    exact hopen 0 (by simpa using h.front) (by simpa using h.whole)
  clear h
  induction ts
  case nil =>
    intro depth _ hwhole
    simpa [Shuts] using hwhole.symm
  case cons t ts ih =>
    intro depth hfront hwhole
    have hbehind (part : List Token) (hp : part <+: ts) := hfront (t :: part) (by simpa using hp)
    simp only [countP_cons] at hwhole hbehind
    by_cases hl : t.kind = .leftBrace
    · rw [shuts_leftBrace hl]
      simp only [hl, reduceCtorEq, decide_false, decide_true, Bool.false_eq_true, if_false, if_true]
        at hwhole hbehind
      exact ih _ (fun part hp => by have := hbehind part hp; omega) (by omega)
    by_cases hr : t.kind = .rightBrace
    · simp only [hr, reduceCtorEq, decide_false, decide_true, Bool.false_eq_true, if_false, if_true]
        at hwhole hbehind
      cases depth
      case zero => exact absurd (hbehind [] List.nil_prefix) (by simp)
      case succ depth =>
        rw [shuts_rightBrace hr]
        exact ih _ (fun part hp => by have := hbehind part hp; omega) (by omega)
    · rw [shuts_other (by simp [isBrace, hl, hr])]
      simp only [hl, hr, decide_false, Bool.false_eq_true, if_false] at hwhole hbehind
      exact ih _ (by simpa using hbehind) (by simpa using hwhole)

-- The brace that closes the outermost but `depth` open blocks divides the tokens.
theorem Shuts.split (inner depth : Nat) (h : Shuts (inner + depth + 1) ts) :
    ∃ part c rest, ts = part ++ c :: rest ∧ c.kind = .rightBrace ∧ Shuts inner part ∧
      Shuts depth rest := by
  induction ts generalizing inner
  case nil => cases h
  case cons t ts ih =>
    by_cases hl : t.kind = .leftBrace
    · rw [shuts_leftBrace hl] at h
      have hmore : Shuts (inner + 1 + depth + 1) ts := by
        rwa [show inner + 1 + depth + 1 = inner + depth + 1 + 1 by omega]
      obtain ⟨part, c, rest, rfl, hc, hp, hr⟩ := ih _ hmore
      exact ⟨t :: part, c, rest, rfl, hc, (shuts_leftBrace hl).mpr hp, hr⟩
    by_cases hr : t.kind = .rightBrace
    · rw [shuts_rightBrace hr] at h
      cases inner
      case zero => exact ⟨[], t, ts, rfl, hr, rfl, by simpa using h⟩
      case succ inner =>
        have hless : Shuts (inner + depth + 1) ts := by
          rwa [show inner + depth + 1 = inner + 1 + depth by omega]
        obtain ⟨part, c, rest, rfl, hc, hp, hrest⟩ := ih _ hless
        exact ⟨t :: part, c, rest, rfl, hc, (shuts_rightBrace hr).mpr hp, hrest⟩
    · have ht : isBrace t.kind = false := by simp [isBrace, hl, hr]
      rw [shuts_other ht] at h
      obtain ⟨part, c, rest, rfl, hc, hp, hrest⟩ := ih _ h
      exact ⟨t :: part, c, rest, rfl, hc, (shuts_other ht).mpr hp, hrest⟩

end Shuts

theorem describe_append_ne {kind : Kind} (h : kind ≠ .rightBrace) (more rest : List Char) :
    kind.describe.toList ++ more ≠ "'\x7d'".toList ++ rest := by
  cases kind <;> simp_all [Kind.describe, Kind.spelling?]

theorem Cause.message_append_ne {cause : Cause} (h : cause.isInner) (more rest : List Char) :
    cause.message.toList ++ more ≠ "Expected ".toList ++ ("'\x7d'".toList ++ rest) := by
  -- Most causes are told from it by the words they begin with.
  have other (first later : String)
      (hfirst : ∀ more, first.toList ++ more ≠ "Expected ".toList ++ ("'\x7d'".toList ++ rest)) :
      (first ++ later).toList ++ more ≠ "Expected ".toList ++ ("'\x7d'".toList ++ rest) := by
    rw [String.toList_append, append_assoc]
    exact hfirst _
  cases cause
  case expected kind context found =>
    have hk : kind ≠ .rightBrace := by simpa [isInner] using h
    have hmessage : (expected kind context found).message =
        "Expected " ++ kind.describe ++ " " ++ context ++ ", found " ++ found.describe := rfl
    rw [hmessage]
    simp only [String.toList_append, append_assoc]
    intro heq
    exact describe_append_ne hk _ rest (append_cancel_left heq)
  case notCallable => exact other "Only " "named routines and methods can be called" (by simp)
  case misplacedClass => exact other "Class " "definitions are only allowed at top level" (by simp)
  case unclosedBlock => cases h
  case unclosedClass => cases h
  all_goals exact other _ _ (by simp)

-- A failure inside a block does not read like a block left open.
theorem Cause.message_ne_unclosedBlock {cause : Cause} (h : cause.isInner) (hint : Option String)
    (found : Token) : Spelling.hinted cause.message hint ≠ (unclosedBlock found).message := by
  have hfound : (unclosedBlock found).message.toList =
      "Expected ".toList ++
        ("'\x7d'".toList ++ (" to close block, found " ++ found.describe).toList) := by
    have hmessage : (unclosedBlock found).message =
        "Expected '\x7d' to close block, found " ++ found.describe := rfl
    simp [hmessage]
  intro heq
  have hlist := congrArg String.toList heq
  rw [hfound] at hlist
  obtain ⟨more, hmore⟩ := toList_hinted cause.message hint
  exact message_append_ne h more _ (hmore ▸ hlist)

structure Diagnosed (P : Location → Prop) (d : Diagnostic) : Prop where
  loc     : P d.loc
  message : ∀ found : Token, d.message ≠ (Cause.unclosedBlock found).message

-- The cursor stands in a block, in which the braces match. The brace that closes the block is the
-- first of the tokens `tail`.
structure Cursor.Enclosed (P : Location → Prop) (tail : List Token) (c : Cursor) : Prop where
  closing : ∃ c rest, tail = c :: rest ∧ c.kind = .rightBrace ∧ P c.loc
  part    : ∃ part, Shuts 0 part ∧ (∀ t ∈ part, P t.loc) ∧ c.rest = part ++ tail

structure State.Enclosed (P : Location → Prop) (tail : List Token) (s : State) : Prop where
  cursor  : s.cursor.Enclosed P tail
  reports : ∀ d ∈ s.reports, Diagnosed P d

structure Failure.Enclosed (P : Location → Prop) (tail : List Token) (e : Failure) : Prop where
  loc    : P e.loc
  cause  : e.cause.isInner
  resume : ∀ c ∈ e.resume, c.Enclosed P tail

variable {P : Location → Prop} {tail : List Token}

namespace State

variable {s s₁ s₂ : State}

section

variable (h : s.Enclosed P tail)

include h

theorem Enclosed.peek : P s.peek.loc := by
  obtain ⟨⟨c, rest, rfl, -, hc⟩, part, -, hp, hrest⟩ := h.cursor
  cases part
  case nil => simpa [State.peek, Cursor.peek, hrest] using hc
  case cons t part => simpa [State.peek, Cursor.peek, hrest] using hp t mem_cons_self

theorem Enclosed.next_ne : s.next ≠ .nothing := by
  obtain ⟨⟨c, rest, rfl, -, -⟩, part, -, -, hrest⟩ := h.cursor
  intro hn
  have := left_of_nothing hn
  simp [left, hrest] at this

theorem Enclosed.next (hn : s.next = .token t s₁ h₁)
    (ht : isBrace t.kind = false) : s₁.Enclosed P tail := by
  obtain ⟨hpasses, -, -, hq⟩ := next_passes hn
  obtain ⟨hclosing, part, hshuts, hp, hrest⟩ := h.cursor
  cases part
  case nil =>
    obtain ⟨c, rest, rfl, hc, -⟩ := hclosing
    obtain ⟨rfl, -⟩ := List.cons.inj (hpasses.rest.symm.trans hrest)
    simp [isBrace, hc] at ht
  case cons u part =>
    obtain ⟨rfl, hrest₁⟩ := List.cons.inj (hpasses.rest.symm.trans hrest)
    exact ⟨⟨hclosing, part, (shuts_other ht).mp hshuts, (forall_mem_cons.mp hp).2, hrest₁⟩,
      hq ▸ h.reports⟩

-- Only the brace that closes the block can stop what is read in it.
theorem Enclosed.rest_eq
    (hend : s.cursor.rest = [] ∨ s.peek.kind = .rightBrace) : s.cursor.rest = tail := by
  obtain ⟨⟨c, rest, rfl, -, -⟩, part, hshuts, -, hrest⟩ := h.cursor
  cases part
  case nil => exact hrest
  case cons t part =>
    rcases hend with hend | hend
    · simp [hrest] at hend
    · have ht : t.kind = .rightBrace := by simpa [State.peek, Cursor.peek, hrest] using hend
      exact absurd hshuts (not_shuts_rightBrace ht)

-- What has been read between two places in the block belongs to it.
theorem Enclosed.passed (h₁ : s₁.Enclosed P tail)
    (hpasses : s.cursor.Passes used s₁.cursor) : ∀ t ∈ used, P t.loc := by
  obtain ⟨-, part, -, hp, hrest⟩ := h.cursor
  obtain ⟨-, part₁, -, -, hrest₁⟩ := h₁.cursor
  have hpart : part = used ++ part₁ := by
    have hrests := hpasses.rest
    rw [hrest, hrest₁, ← append_assoc] at hrests
    exact append_cancel_right hrests
  exact fun t ht => hp t (hpart ▸ mem_append_left _ ht)

end

end State

-- Passing over tokens ends in front of the brace that closes the block, or before.
theorem passOver_shuts {c : Token} (hc : c.kind = .rightBrace) (hs : Shuts depth part)
    (before : Option Token) : ∃ used part', part = used ++ part' ∧ Shuts 0 part' ∧
      (passOver depth before (part ++ c :: rest)).2 = part' ++ c :: rest := by
  induction part generalizing depth before
  case nil =>
    cases hs
    refine ⟨[], [], rfl, rfl, ?_⟩
    simp only [nil_append, passOver, hc]
  case cons t part ih =>
    -- All cases in which the token is passed over.
    have pass {depth : Nat} (hs : Shuts depth part) :
        ∃ used part', t :: part = used ++ part' ∧ Shuts 0 part' ∧
          (passOver depth (some t) (part ++ c :: rest)).2 = part' ++ c :: rest := by
      obtain ⟨used, part', rfl, hpart, hrest⟩ := ih hs (some t)
      exact ⟨t :: used, part', rfl, hpart, hrest⟩
    rw [cons_append, passOver.eq_def]
    dsimp only
    split
    case h_1 hk => exact pass ((shuts_leftBrace hk).mp hs)
    case h_2 hk =>
      cases depth
      case zero => exact absurd hs (not_shuts_rightBrace hk)
      case succ depth => exact pass ((shuts_rightBrace hk).mp hs)
    case h_3 hk =>
      have hs' : Shuts depth part := (shuts_other (by simp [hk, isBrace])).mp hs
      split
      case isTrue hd => exact ⟨[t], part, rfl, hd ▸ hs', rfl⟩
      case isFalse => exact pass hs'
    case h_4 hl hr _ =>
      have hs' : Shuts depth part := (shuts_other (by simpa [isBrace] using ⟨hl, hr⟩)).mp hs
      split
      case isTrue hd => exact ⟨[], t :: part, rfl, hd.1 ▸ hs, rfl⟩
      case isFalse => exact pass hs'

namespace State

variable {s start : State}

theorem passOver_enclosed (hc : ∃ c rest, tail = c :: rest ∧ c.kind = .rightBrace ∧ P c.loc)
    (hs : Shuts depth part) (hp : ∀ t ∈ part, P t.loc) (hrest : s.cursor.rest = part ++ tail)
    (hr : ∀ d ∈ s.reports, Diagnosed P d) : (s.passOver depth).Enclosed P tail := by
  refine ⟨⟨hc, ?_⟩, hr⟩
  obtain ⟨c, rest, rfl, hk, -⟩ := hc
  obtain ⟨used, part', rfl, hpart, hpass⟩ := passOver_shuts hk hs s.cursor.before
  refine ⟨part', hpart, fun t ht => hp t (mem_append_right _ ht), ?_⟩
  rw [← hpass, ← hrest]
  rfl

theorem Enclosed.passOver (h : s.Enclosed P tail) : (s.passOver 0).Enclosed P tail := by
  obtain ⟨hc, part, hs, hp, hrest⟩ := h.cursor
  exact passOver_enclosed hc hs hp hrest h.reports

theorem moveOn_enclosed (hstart : start.Enclosed P tail) (hk : start.peek.kind ≠ .rightBrace)
    (h : s.Enclosed P tail) : (start.moveOn s hle more).1.Enclosed P tail := by
  unfold moveOn
  split
  case isFalse => exact h.passOver
  case isTrue same =>
    split
    case h_1 hn => exact absurd hn h.next_ne
    case h_2 t s₁ h₁ hn =>
      obtain ⟨hr, -⟩ := next_passes hn
      obtain ⟨hc, part, hs, hp, hrest⟩ := h.cursor
      -- Something of the block is left, as much as at the start.
      have hne : part ≠ [] := by
        rintro rfl
        obtain ⟨⟨c, rest, rfl, hbrace, -⟩, part', -, -, hrest'⟩ := hstart.cursor
        cases part'
        case nil => exact hk (by simpa [peek, Cursor.peek, hrest'] using hbrace)
        case cons =>
          simp only [left, hrest, hrest', length_append, length_cons, length_nil]
            at same
          omega
      obtain ⟨u, part, rfl⟩ := exists_cons_of_ne_nil hne
      obtain ⟨rfl, hrest₁⟩ := List.cons.inj (hr.rest.symm.trans hrest)
      have hother : isBrace t.kind = false → s₁.Enclosed P tail :=
        fun ht => h.next hn ht
      split
      case h_1 hk => exact hother (by simp [hk, isBrace])
      case h_2 hk =>
        exact passOver_enclosed hc ((shuts_leftBrace hk).mp hs) (forall_mem_cons.mp hp).2
          hrest₁ (next_reports hn ▸ h.reports)
      case h_3 hl =>
        have hr : t.kind ≠ .rightBrace := fun hr => not_shuts_rightBrace hr hs
        exact (hother (by simpa [isBrace, hr] using hl)).passOver

theorem goOn_enclosed {failure : Failure} (hstart : start.Enclosed P tail)
    (hk : start.peek.kind ≠ .rightBrace) (h : s.Enclosed P tail) (hf : failure.Enclosed P tail) :
    (start.goOn failure s hle more).1.Enclosed P tail := by
  have hdiagnosed : Diagnosed P (failure.diagnostic start.leadingHint?) :=
    ⟨hf.loc, Cause.message_ne_unclosedBlock hf.cause _⟩
  have hreport : (s.report (failure.diagnostic start.leadingHint?)).Enclosed P tail :=
    ⟨h.cursor, forall_mem_cons.mpr ⟨hdiagnosed, h.reports⟩⟩
  unfold goOn
  cases hc : failure.resume
  case none => exact moveOn_enclosed hstart hk hreport
  case some c =>
    simp only
    split
    · exact ⟨hf.resume c hc, hreport.reports⟩
    · exact moveOn_enclosed hstart hk hreport

end State

structure State.Closed (P : Location → Prop) (rest : List Token) (s : State) : Prop where
  rest    : s.cursor.rest = rest
  reports : ∀ d ∈ s.reports, Diagnosed P d

-- An inner block has a brace of its own, and behind it the outer block goes on.
theorem State.Enclosed.enter {s s₁ : State} {t : Token} {h₁ : s₁.left < s.left}
    (h : s.Enclosed P tail) (hn : s.next = .token t s₁ h₁) (ht : t.kind = .leftBrace) :
    ∃ c rest, s₁.Enclosed P (c :: rest) ∧ ∀ s₂ : State, s₂.Closed P rest → s₂.Enclosed P tail := by
  obtain ⟨hr, -⟩ := next_passes hn
  obtain ⟨hclosing, part, hshuts, hp, hrest⟩ := h.cursor
  cases part
  case nil =>
    obtain ⟨c, rest, rfl, hc, -⟩ := hclosing
    obtain ⟨rfl, -⟩ := List.cons.inj (hr.rest.symm.trans hrest)
    rw [hc] at ht
    cases ht
  case cons u part =>
    obtain ⟨rfl, hrest₁⟩ := List.cons.inj (hr.rest.symm.trans hrest)
    obtain ⟨inner, c, outer, rfl, hc, hinner, houter⟩ :=
      Shuts.split 0 0 ((shuts_leftBrace ht).mp hshuts)
    simp only [forall_mem_cons, forall_mem_append] at hp
    obtain ⟨-, hpinner, hpc, hpouter⟩ := hp
    refine ⟨c, outer ++ tail, ⟨⟨⟨c, _, rfl, hc, hpc⟩, inner, hinner, hpinner, ?_⟩, ?_⟩, ?_⟩
    · simpa using hrest₁
    · exact next_reports hn ▸ h.reports
    · rintro s₂ ⟨hrest₂, hreports⟩
      exact ⟨⟨hclosing, outer, houter, hpouter, hrest₂⟩, hreports⟩

theorem State.Enclosed.close {s : State} (h : s.Enclosed P (c :: rest))
    (hend : s.cursor.rest = [] ∨ s.peek.kind = .rightBrace) (unclosed : Token → Cause) :
    (s.close unclosed).1.Closed P rest := by
  obtain ⟨⟨_, _, hcons, hc, -⟩, -⟩ := h.cursor
  cases hcons
  obtain ⟨s₁, h₁, ha, hrest, hq⟩ := State.accept?_eq (h.rest_eq hend) hc
  simp only [State.close, ha]
  exact ⟨hrest, hq ▸ h.reports⟩

-- However reading goes on inside a block, it stays there.
theorem State.Way.enclosed {s s' : State} (h : Way l s s') (hl : ∀ kind, l kind → inner kind)
    (hs : s.Enclosed P tail) : s'.Enclosed P tail := by
  induction h generalizing tail
  case same hc hr => exact ⟨hc ▸ hs.cursor, hr ▸ hs.reports⟩
  case trans ih ih' => exact ih' hl (ih hl hs)
  case read hn ht => exact hs.next hn ht
  case block hn ht _ hend _ ih =>
    obtain ⟨c, rest, hs₁, hbehind⟩ := hs.enter hn ht
    exact hbehind _ ((ih (fun _ h => h) hs₁).close hend _)
  case recover s e s₁ s₂ s₃ used hk _ _ _ _ hp _ he _ _ ih ih₂ ih₃ =>
    have hs₂ := ih₂ (fun _ h => h) hs
    have hs₃ := ih₃ (by simp [silent]) hs₂
    have hloc : P e.loc := by
      obtain ⟨t, ht, hat⟩ := he.token
      rw [← hat.loc]
      rcases mem_append.mp ht with ht | ht
      · exact hs₂.passed hs₃ hp t ht
      · exact mem_singleton.mp ht ▸ hs₃.peek
    have he : e.Enclosed P tail := ⟨hloc, he.cause, fun c hc => he.resume c hc ▸ hs₃.cursor⟩
    exact goOn_enclosed hs (by simpa [inner] using hl _ hk) (ih (fun _ h => h) hs) he

theorem block_closed (s : State) (h : s.Enclosed P (c :: rest)) :
    (block s).2.1.Closed P rest := by
  obtain ⟨_, hr, -, -, hend⟩ := statements_steps.rounds.reads statement_repeated
    (statements_collect fun s _ hw => statement_meets s hw) s.worded_all
  rw [block]
  exact (hr.way.enclosed (fun _ h => h) h).close (by simpa using hend) .unclosedBlock

end Lumen.Grammar
