import Lumen.Proofs.Grammar.Derivation
import Lumen.Proofs.Tree

namespace Lumen.Grammar

open List Option

open Token (Kind)

structure Rising (lo hi : Nat) (ids : List Nat) : Prop where
  sorted : ids.Pairwise (· < ·)
  bounds : ∀ i ∈ ids, lo ≤ i ∧ i < hi

namespace Rising

variable {lo mid hi : Nat} {a b : List Nat}

theorem nil : Rising lo hi [] :=
  ⟨.nil, by simp⟩

theorem widen (h : Rising lo hi a) (hl : lo' ≤ lo) (hh : hi ≤ hi') : Rising lo' hi' a where
  sorted := h.sorted
  bounds := fun i hi => by have := h.bounds i hi; omega

theorem append (ha : Rising lo mid a) (hb : Rising mid hi b) (hl : lo ≤ mid) (hh : mid ≤ hi) :
    Rising lo hi (a ++ b) where
  sorted := by
    refine pairwise_append.mpr ⟨ha.sorted, hb.sorted, fun i hi j hj => ?_⟩
    have := ha.bounds i hi
    have := hb.bounds j hj
    omega
  bounds := by
    intro i hi
    cases mem_append.mp hi
    case inl hi => have := ha.bounds i hi; omega
    case inr hi => have := hb.bounds i hi; omega

theorem single (n : Nat) : Rising n (n + 1) [n] :=
  ⟨pairwise_singleton _ _, by simp⟩

theorem push (h : Rising lo mid a) (hl : lo ≤ mid) : Rising lo (mid + 1) (a ++ [mid]) :=
  h.append (single mid) hl (Nat.le_succ _)

theorem nodup (h : Rising lo hi a) : a.Nodup :=
  h.sorted.imp Nat.ne_of_lt

end Rising

namespace Cursor

variable {c c₁ c₂ : Cursor} {used used₁ used₂ : List Token} {loc : Location}

structure Passes (c : Cursor) (used : List Token) (c' : Cursor) : Prop where
  rest   : c.rest = used ++ c'.rest
  before : c'.before = used.getLast?.or c.before
  stop   : c'.stop = c.stop
  beyond : c'.beyond = c.beyond

namespace Passes

theorem refl (c : Cursor) : c.Passes [] c :=
  ⟨rfl, rfl, rfl, rfl⟩

theorem trans (h₁ : c.Passes used₁ c₁) (h₂ : c₁.Passes used₂ c₂) :
    c.Passes (used₁ ++ used₂) c₂ where
  rest := by rw [h₁.rest, h₂.rest, append_assoc]
  before := by rw [h₂.before, h₁.before, getLast?_append, Option.or_assoc]
  stop := h₂.stop.trans h₁.stop
  beyond := h₂.beyond.trans h₁.beyond

end Passes

def Reaches (c c' : Cursor) : Prop :=
  ∃ used, c.Passes used c'

theorem Reaches.trans (h₁ : c.Reaches c₁) (h₂ : c₁.Reaches c₂) : c.Reaches c₂ := by
  obtain ⟨_, h₁⟩ := h₁
  obtain ⟨_, h₂⟩ := h₂
  exact ⟨_, h₁.trans h₂⟩

def ahead (c : Cursor) : List Token :=
  c.rest ++ [c.stop]

def Sees (c : Cursor) (loc : Location) : Prop :=
  ∃ t ∈ c.rest ++ [c.stop], t.loc = loc

theorem peek_mem_ahead (c : Cursor) : c.peek ∈ c.ahead := by
  cases h : c.rest <;> simp [ahead, peek, h]

theorem Passes.ahead (h : c.Passes used c₁) : c.ahead = used ++ c₁.ahead := by
  rw [Cursor.ahead, Cursor.ahead, h.rest, append_assoc, h.stop]

theorem Passes.sees (h : c.Passes used c₁) (hs : c₁.Sees loc) : c.Sees loc := by
  obtain ⟨t, ht, hloc⟩ := hs
  have hmem : t ∈ c.ahead := h.ahead ▸ mem_append_right _ ht
  exact ⟨t, hmem, hloc⟩

end Cursor

def isBrace (kind : Kind) : Bool :=
  kind = .leftBrace || kind = .rightBrace

-- The causes of failures inside a block. None of them is a block or class left open.
def Cause.isInner : Cause → Bool
  | expected kind _ _ => kind ≠ .rightBrace
  | unclosedBlock _ | unclosedClass .. => false
  | _ => true

def Cause.isNumeric : Cause → Bool
  | integerOutOfRange _ | malformedFloat _ => true
  | _ => false

-- A failure at a token. If it is about a number, then the token is this number.
structure Failure.At (e : Failure) (t : Token) : Prop where
  loc     : t.loc = e.loc
  numeric : e.cause.isNumeric → literal? t = some (.error e.cause)

def Reported (ts : List Token) (d : Diagnostic) : Prop :=
  ∃ t ∈ ts, ∃ e : Failure, ∃ hint, e.At t ∧ d = e.diagnostic hint

theorem Reported.loc (h : Reported ts d) : ∃ t ∈ ts, t.loc = d.loc := by
  obtain ⟨t, ht, e, hint, hat, rfl⟩ := h
  exact ⟨t, ht, hat.loc⟩

theorem toList_hinted (message : String) (hint : Option String) :
    ∃ more, (Spelling.hinted message hint).toList = message.toList ++ more := by
  cases hint
  case none => exact ⟨[], (append_nil _).symm⟩
  case some hint => exact ⟨(" (did you mean '" ++ hint ++ "'?)").toList, by simp [Spelling.hinted]⟩

inductive Fails (s : State) (e : Failure) (s' : State) : Prop
  | item {bound : s'.left ≤ s.left} (h : item s = .failed e s' bound)
  | member {bound : s'.left ≤ s.left} (h : member s = .failed e s' bound)
  | statement {bound : s'.left ≤ s.left} (h : statement s = .failed e s' bound)

-- The kinds of tokens at which a block or a repeated rule can begin: none in an expression, and
-- all but the brace that closes it in a block.
def silent (_ : Kind) : Bool :=
  false

def inner (kind : Kind) : Bool :=
  !(kind = .rightBrace : Bool)

namespace State

def Quiet (s s' : State) : Prop :=
  s'.reports = s.reports

-- The failure is one at the token to be read next, or at one of those in front of it. If it shows
-- where reading can go on, then here.
structure Shows (front : List Token) (s : State) (e : Failure) : Prop where
  cause  : e.cause.isInner
  token  : ∃ t ∈ front ++ [s.peek], e.At t
  resume : ∀ c ∈ e.resume, c = s.cursor

-- How reading can get from one state to another, numbers apart: tokens and blocks are read, and
-- what fails is passed over.
inductive Way : (Kind → Bool) → State → State → Prop
  | same (hc : s'.cursor = s.cursor) (hr : s'.reports = s.reports) : Way l s s'
  | trans (h : Way l s s₁) (h' : Way l s₁ s₂) : Way l s s₂
  | read (hn : s.next = .token t s₁ shorter) (ht : isBrace t.kind = false) : Way l s s₁
  | block (hl : l .leftBrace) (hn : s.next = .token t s₁ shorter) (ht : t.kind = .leftBrace)
      (h : Way inner s₁ s₂) (hend : s₂.cursor.rest = [] ∨ s₂.peek.kind = .rightBrace)
      (hu : ∀ t, (unclosed t).isNumeric = false) : Way l s (s₂.close unclosed).1
  -- The failure is about what is read last, from `s₂` to `s₃`.
  | recover (hl : l s.peek.kind) (hf : Fails s e s₁) (h : Way inner s s₁) (h' : Way inner s s₂)
      (hlast : Way silent s₂ s₃) (hp : s₂.cursor.Passes used s₃.cursor) (hq : s₃.Quiet s₁)
      (he : s₃.Shows used e) (bound : s₁.left ≤ s.left) (more : 0 < s.left) :
      Way l s (s.goOn e s₁ bound more).1

variable {s s₁ s₂ : State} {used used₁ used₂ : List Token} {l l' : Kind → Bool}

theorem Shows.reported (h : s₁.Shows used e) (hp : s.cursor.Passes used s₁.cursor)
    (hint : Option String) : Reported s.cursor.ahead (e.diagnostic hint) := by
  obtain ⟨t, ht, hat⟩ := h.token
  refine ⟨t, ?_, e, hint, hat, rfl⟩
  rw [hp.ahead]
  rcases mem_append.mp ht with ht | ht
  · exact mem_append_left _ ht
  · exact mem_append_right _ (mem_singleton.mp ht ▸ s₁.cursor.peek_mem_ahead)

theorem next_passes (h : s.next = .token t s₁ shorter) :
    s.cursor.Passes [t] s₁.cursor ∧ s.peek = t ∧ s₁.fresh = s.fresh ∧ s.Quiet s₁ := by
  unfold next at h
  split at h
  case h_1 => contradiction
  case h_2 t' rest hr =>
    injection h with ht hs
    subst ht hs
    exact ⟨⟨by simp [rewind, hr], rfl, rfl, rfl⟩, by simp [peek, Cursor.peek, hr], rfl, rfl⟩

theorem next_reports (hn : s.next = .token t s₁ h) : s₁.reports = s.reports :=
  (next_passes hn).2.2.2

theorem Way.mono (h : Way l s s₁) (hl : ∀ kind, l kind → l' kind) : Way l' s s₁ := by
  induction h
  case same hc hr => exact .same hc hr
  case trans _ _ ih ih' => exact .trans (ih hl) (ih' hl)
  case read hn ht => exact .read hn ht
  case block hk hn ht h hend hu _ => exact .block (hl _ hk) hn ht h hend hu
  case recover hk hf h h' hlast hp hq he _ _ _ _ _ =>
    exact .recover (hl _ hk) hf h h' hlast hp hq he _ _

theorem Way.quiet (h : Way silent s s₁) : s.Quiet s₁ := by
  generalize hl : silent = l at h
  induction h
  case same hr => exact hr
  case trans _ _ ih ih' => exact (ih' hl).trans (ih hl)
  case read hn _ => exact next_reports hn
  case block hk _ _ _ _ _ _ => simp [← hl, silent] at hk
  case recover hk _ _ _ _ _ _ _ _ _ _ _ _ => simp [← hl, silent] at hk

end State

theorem passOver_passes (depth : Nat) (before : Option Token) (ts : List Token) :
    ∃ used, ts = used ++ (passOver depth before ts).2 ∧
      (passOver depth before ts).1 = used.getLast?.or before := by
  -- The token passed over last is the first one if there are no others.
  have pass {depth : Nat} {before : Option Token} {t : Token} {rest : List Token}
      (h : ∃ used, rest = used ++ (passOver depth (some t) rest).2 ∧
        (passOver depth (some t) rest).1 = used.getLast?.or (some t)) :
      ∃ used, t :: rest = used ++ (passOver depth (some t) rest).2 ∧
        (passOver depth (some t) rest).1 = used.getLast?.or before := by
    obtain ⟨used, hrest, hlast⟩ := h
    refine ⟨t :: used, congrArg (t :: ·) hrest, ?_⟩
    rw [hlast, getLast?_cons]
    cases used.getLast? <;> rfl
  fun_induction passOver depth before ts
  case case1 => exact ⟨[], rfl, rfl⟩
  case case3 => exact ⟨[], rfl, rfl⟩
  case case5 => exact ⟨[_], rfl, rfl⟩
  case case7 => exact ⟨[], rfl, rfl⟩
  all_goals exact pass ‹_›

namespace State

variable {s start : State}

theorem passOver_reaches (s : State) (depth : Nat) :
    s.cursor.Reaches (s.passOver depth).cursor := by
  obtain ⟨used, hrest, hbefore⟩ := passOver_passes depth s.cursor.before s.cursor.rest
  exact ⟨used, hrest, hbefore, rfl, rfl⟩

theorem left_of_nothing (h : s.next = .nothing) : s.left = 0 := by
  rw [next] at h
  split at h
  case h_1 hr => simp [left, hr]
  case h_2 => cases h

theorem moveOn_reaches (h : s.left ≤ start.left) (m : 0 < start.left) :
    s.cursor.Reaches (start.moveOn s h m).1.cursor := by
  unfold moveOn
  split
  case isFalse => exact s.passOver_reaches 0
  case isTrue same =>
    split
    case h_1 hn => exact absurd (same.symm.trans (left_of_nothing hn)) (Nat.ne_of_gt m)
    case h_2 t s₁ h₁ hn =>
      have hs₁ : s.cursor.Reaches s₁.cursor := ⟨_, (next_passes hn).1⟩
      split
      · exact hs₁
      · exact hs₁.trans (s₁.passOver_reaches 1)
      · exact hs₁.trans (s₁.passOver_reaches 0)

theorem moveOn_keeps {h : s.left ≤ start.left} {more : 0 < start.left} :
    (start.moveOn s h more).1.reports = s.reports ∧ (start.moveOn s h more).1.fresh = s.fresh := by
  unfold moveOn
  split
  case isFalse => exact ⟨rfl, rfl⟩
  case isTrue =>
    split
    case h_1 => exact ⟨rfl, rfl⟩
    case h_2 hn =>
      obtain ⟨-, -, hfresh, hreports⟩ := next_passes hn
      split <;> exact ⟨hreports, hfresh⟩

theorem goOn_keeps {failure : Failure} {h : s.left ≤ start.left} {m : 0 < start.left} :
    (start.goOn failure s h m).1.reports = failure.diagnostic start.leadingHint? :: s.reports ∧
      (start.goOn failure s h m).1.fresh = s.fresh := by
  unfold goOn
  cases failure.resume
  case none => exact moveOn_keeps
  case some c =>
    simp only
    split
    · exact ⟨rfl, rfl⟩
    · exact moveOn_keeps

-- Reading goes on where the failure shows that it can, or behind the place where the rule failed.
theorem goOn_cases {failure : Failure} :
    (start.goOn failure s h m).1.cursor ∈ failure.resume ∨
      s.cursor.Reaches (start.goOn failure s h m).1.cursor := by
  have hmoves := (s.report (failure.diagnostic start.leadingHint?)).moveOn_reaches h m
  unfold goOn
  cases hr : failure.resume
  case none => exact .inr hmoves
  case some c =>
    simp only
    split
    · exact .inl rfl
    · exact .inr hmoves

theorem next_of_accept? (h : s.accept? kind = some ⟨s₁, h₁⟩) :
    ∃ t, s.next = .token t s₁ h₁ ∧ t.kind = kind := by
  unfold State.accept? at h
  split at h
  case h_2 => contradiction
  case h_1 t s₂ h₂ hn =>
    split at h
    case isFalse => contradiction
    case isTrue ht =>
      cases h
      exact ⟨t, hn, ht⟩

-- A brace is read, or it is reported that there is none.
theorem close_passes (s : State) (unclosed : Token → Cause) :
    ∃ used made, s.cursor.Passes used (s.close unclosed).1.cursor ∧
      (s.close unclosed).1.fresh = s.fresh ∧ (s.close unclosed).1.reports = made ++ s.reports ∧
      ((made = [] ∧ ∃ c, used = [c] ∧ c.kind = .rightBrace) ∨
        (s.accept? .rightBrace = none ∧
          made = [(s.failure (unclosed s.peek)).diagnostic none])) := by
  unfold close
  split
  case h_1 s₁ h₁ ha =>
    obtain ⟨c, hn, hc⟩ := next_of_accept? ha
    obtain ⟨hp, -, hf, hq⟩ := next_passes hn
    exact ⟨[c], [], hp, hf, hq, .inl ⟨rfl, c, rfl, hc⟩⟩
  case h_2 ha => exact ⟨[], [_], .refl _, rfl, rfl, .inr ⟨ha, rfl⟩⟩

structure Goes (s s' : State) : Prop where
  reaches : s.cursor.Reaches s'.cursor
  reports : ∃ made, s'.reports = made ++ s.reports ∧ ∀ d ∈ made, Reported s.cursor.ahead d

theorem Goes.trans (h₁ : s.Goes s₁) (h₂ : s₁.Goes s₂) : s.Goes s₂ where
  reaches := h₁.reaches.trans h₂.reaches
  reports := by
    obtain ⟨_, hpasses⟩ := h₁.reaches
    obtain ⟨first, hfirst, hall⟩ := h₁.reports
    obtain ⟨later, hlater, hall'⟩ := h₂.reports
    refine ⟨later ++ first, by rw [hlater, hfirst, append_assoc], fun d hd => ?_⟩
    rcases mem_append.mp hd with hd | hd
    · obtain ⟨t, ht, hd⟩ := hall' d hd
      exact ⟨t, hpasses.ahead ▸ mem_append_right _ ht, hd⟩
    · exact hall d hd

theorem close_goes (s : State) {unclosed : Token → Cause}
    (hu : ∀ t, (unclosed t).isNumeric = false) : s.Goes (s.close unclosed).1 := by
  obtain ⟨used, made, hp, -, hmade, hcase⟩ := s.close_passes unclosed
  refine ⟨⟨used, hp⟩, made, hmade, ?_⟩
  rcases hcase with ⟨rfl, -⟩ | ⟨-, rfl⟩
  · simp
  · refine forall_mem_singleton.mpr ⟨s.peek, s.cursor.peek_mem_ahead, _, none, ⟨rfl, ?_⟩, rfl⟩
    simp [failure, hu]

theorem next_goes (h : s.next = .token t s₁ shorter) : s.Goes s₁ := by
  obtain ⟨hp, -, -, hq⟩ := next_passes h
  exact ⟨⟨_, hp⟩, [], hq, by simp⟩

theorem goOn_goes {s₁ s₂ : State} (hs : start.Goes s) (hs₁ : start.Goes s₁)
    (hp : s₁.cursor.Passes used s₂.cursor) (he : s₂.Shows used e) :
    start.Goes (start.goOn e s h m).1 := by
  obtain ⟨made, hmade, hall⟩ := hs.reports
  obtain ⟨_, hpasses⟩ := hs₁.reaches
  refine ⟨?_, e.diagnostic start.leadingHint? :: made, ?_, ?_⟩
  · rcases goOn_cases with hc | hr
    · exact he.resume _ hc ▸ ⟨_, hpasses.trans hp⟩
    · exact hs.reaches.trans hr
  · rw [goOn_keeps.1, hmade, cons_append]
  · obtain ⟨t, ht, hd⟩ := he.reported hp start.leadingHint?
    exact forall_mem_cons.mpr ⟨⟨t, hpasses.ahead ▸ mem_append_right _ ht, hd⟩, hall⟩

theorem Way.goes (h : Way l s s') : s.Goes s' := by
  induction h
  case same hc hr => exact ⟨⟨[], hc ▸ .refl _⟩, [], hr, by simp⟩
  case trans ih ih' => exact ih.trans ih'
  case read hn _ => exact next_goes hn
  case block hn _ _ _ hu ih => exact ((next_goes hn).trans ih).trans (close_goes _ hu)
  case recover hp _ he _ _ ih ih' _ => exact goOn_goes ih ih' hp he

structure Reads (s : State) (used : List Token) (s' : State) (l : Kind → Bool := inner) : Prop
    extends s.cursor.Passes used s'.cursor where
  fresh : s.fresh ≤ s'.fresh
  way   : Way l s s'

def Worded (W : String → Prop) (s : State) : Prop :=
  ∀ t ∈ s.cursor.rest, t.kind = .identifier → W t.text

theorem worded_all (s : State) : s.Worded fun _ => True :=
  fun _ _ _ => trivial

theorem Worded.of_passes {W : String → Prop} {s₁ : State} (hw : s.Worded W)
    (h : s.cursor.Passes used s₁.cursor) : s₁.Worded W :=
  fun t ht => hw t (h.rest ▸ mem_append_right _ ht)

namespace Reads

theorem refl (s : State) : s.Reads [] s l :=
  ⟨.refl _, Nat.le_refl _, .same rfl rfl⟩

theorem trans (h₁ : s.Reads used₁ s₁ l) (h₂ : s₁.Reads used₂ s₂ l) :
    s.Reads (used₁ ++ used₂) s₂ l :=
  ⟨h₁.toPasses.trans h₂.toPasses, Nat.le_trans h₁.fresh h₂.fresh, h₁.way.trans h₂.way⟩

theorem mono (h : s.Reads used s₁ l) (hl : ∀ kind, l kind → l' kind) : s.Reads used s₁ l' :=
  { h with way := h.way.mono hl }

theorem loud (h : s.Reads used s₁ silent) : s.Reads used s₁ l :=
  h.mono (by simp [silent])

theorem numbered (h : s.Reads used s₁ l) : s.Reads used s₁.numbered l :=
  ⟨h.toPasses, Nat.le_succ_of_le h.fresh, h.way.trans (.same rfl rfl)⟩

theorem rewind (h : s.Reads used s₁ silent) : s.Reads [] (s₁.rewind s.cursor) l :=
  ⟨.refl _, h.fresh, .same rfl h.way.quiet⟩

theorem worded {W : String → Prop} (h : s.Reads used s₁ l) (hw : s.Worded W) : s₁.Worded W :=
  hw.of_passes h.toPasses

end Reads

def Reaches (s s' : State) (l : Kind → Bool := inner) : Prop :=
  ∃ used, s.Reads used s' l

theorem Reaches.trans (h₁ : s.Reaches s₁ l) (h₂ : s₁.Reaches s₂ l) : s.Reaches s₂ l := by
  obtain ⟨_, h₁⟩ := h₁
  obtain ⟨_, h₂⟩ := h₂
  exact ⟨_, h₁.trans h₂⟩

theorem next_token (h : s.next = .token t s₁ shorter) (ht : isBrace t.kind = false)
    (l : Kind → Bool := inner) : s.Reads [t] s₁ l ∧ s.peek = t ∧ s₁.fresh = s.fresh := by
  obtain ⟨hp, hpeek, hfresh, -⟩ := next_passes h
  exact ⟨⟨hp, Nat.le_of_eq hfresh.symm, .read h ht⟩, hpeek, hfresh⟩

theorem accept?_some (h : s.accept? kind = some ⟨s₁, shorter⟩) (l : Kind → Bool := inner)
    (hk : isBrace kind = false := by rfl) :
    ∃ t, t.kind = kind ∧ s.Reads [t] s₁ l ∧ s.peek = t ∧ s₁.fresh = s.fresh := by
  obtain ⟨t, hn, rfl⟩ := next_of_accept? h
  exact ⟨t, rfl, next_token hn hk l⟩

theorem Worded.of_next {W : String → Prop} (hw : s.Worded W) (h : s.Reads [t] s₁ l)
    (hk : t.kind = .identifier) : W t.text :=
  hw t (by simp [h.rest]) hk

-- Where nothing is reported on the whole way, nothing is on any part of it.
theorem Goes.quiet (h₁ : s.Goes s₁) (h₂ : s₁.Goes s₂) (hq : s.Quiet s₂) :
    s.Quiet s₁ ∧ s₁.Quiet s₂ := by
  obtain ⟨first, hfirst, -⟩ := h₁.reports
  obtain ⟨later, hlater, -⟩ := h₂.reports
  have hlen := congrArg List.length hq
  simp only [hlater, hfirst, length_append] at hlen
  have hf : first = [] := length_eq_zero_iff.mp (by omega)
  have hl : later = [] := length_eq_zero_iff.mp (by omega)
  exact ⟨by simp [Quiet, hfirst, hf], by simp [Quiet, hlater, hl]⟩

theorem Reads.goes (h : s.Reads used s₁ l) : s.Goes s₁ :=
  h.way.goes

theorem Reads.quiet (h₁ : s.Reads used s₁ l) (h₂ : s₁.Reads more s₂ l') (hq : s.Quiet s₂) :
    s.Quiet s₁ ∧ s₁.Quiet s₂ :=
  h₁.goes.quiet h₂.goes hq

theorem goOn_not_quiet {failure : Failure} (hs : start.Goes s) :
    ¬start.Quiet (start.goOn failure s h m).1 := by
  obtain ⟨made, hmade, -⟩ := hs.reports
  intro hq
  have hlen := congrArg List.length (goOn_keeps.1.symm.trans hq)
  simp only [hmade, length_cons, length_append] at hlen
  omega

end State

-- The failure is about what was read last, somewhere behind `s`, or about the token in front of `s`
-- if that is allowed. Since then nothing has been reported.
def Failure.Behind (e : Failure) (s s' : State) (l : Kind → Bool) (w : Bool) : Prop :=
  (∃ s₁ used s₂, s.Reaches s₁ l ∧ s₁.Reads used s₂ silent ∧ s₂.Quiet s' ∧ s₂.Shows used e) ∨
    (w ∧ s.Quiet s' ∧ s.Shows s.cursor.before.toList e)

theorem Failure.Behind.loud (h : Failure.Behind e s s' silent w) : e.Behind s s' l w := by
  refine h.imp_left fun h => ?_
  obtain ⟨s₁, used, s₂, ⟨_, hs₁⟩, h⟩ := h
  exact ⟨s₁, used, s₂, ⟨_, hs₁.loud⟩, h⟩

theorem Failure.Behind.of_quiet (h : Failure.Behind e s s' l w) (hq : s'.Quiet s₁) :
    e.Behind s s₁ l w := by
  refine h.imp (fun h => ?_) fun h => ⟨h.1, hq.trans h.2.1, h.2.2⟩
  obtain ⟨s₁, used, s₂, hs₁, hs₂, hq', he⟩ := h
  exact ⟨s₁, used, s₂, hs₁, hs₂, hq.trans hq', he⟩

namespace Reply

variable {α β : Type} {m n : Nat} {s s₁ : State} {l : Kind → Bool} {w : Bool}

-- A contract of a rule that starts at `s`. The value read may depend on the tokens read and on the
-- state behind them. Failures may be about the token in front of `s` if `w` is set.
def Meets (s : State) (P : List Token → State → α → Prop) (r : Reply α n)
    (l : Kind → Bool := inner) (w : Bool := false) : Prop :=
  match r with
  | .done a s' _ => ∃ used, s.Reads used s' l ∧ P used s' a
  | .failed e s' _ => s.Reaches s' l ∧ e.Behind s s' l w

namespace Meets

variable {P : List Token → State → α → Prop} {Q : List Token → State → β → Prop}

theorem within {r : Reply α m} (h : m ≤ n) (hr : r.Meets s P l w) :
    (r.within h).Meets s P l w := by
  cases r <;> exact hr

theorem loud {r : Reply α n} (hr : r.Meets s P silent w) : r.Meets s P l w := by
  cases r
  case done =>
    obtain ⟨used, hu, hp⟩ := hr
    exact ⟨used, hu.loud, hp⟩
  case failed =>
    obtain ⟨⟨used, hu⟩, he⟩ := hr
    exact ⟨⟨used, hu.loud⟩, he.loud⟩

theorem weaken {P' : List Token → State → α → Prop} {r : Reply α n} (hr : r.Meets s P l w)
    (h : ∀ used s' a, s.Reads used s' l → P used s' a → P' used s' a) : r.Meets s P' l w := by
  cases r
  case done a s' _ =>
    obtain ⟨used, hu, hp⟩ := hr
    exact ⟨used, hu, h used s' a hu hp⟩
  case failed => exact hr

-- A contract for what starts behind some tokens is one for what starts in front of them.
theorem behind {r : Reply α n} (h : s.Reads used s₁ l)
    (hr : r.Meets s₁ (fun more s' a => P (used ++ more) s' a) l) : r.Meets s P l w := by
  cases r
  case done a s' _ =>
    obtain ⟨more, hm, hp⟩ := hr
    exact ⟨used ++ more, h.trans hm, hp⟩
  case failed e s' _ =>
    obtain ⟨⟨more, hm⟩, he⟩ := hr
    refine ⟨⟨used ++ more, h.trans hm⟩, .inl ?_⟩
    obtain ⟨s₂, last, s₃, hs₂, he⟩ := he.resolve_right (by simp)
    exact ⟨s₂, last, s₃, .trans ⟨used, h⟩ hs₂, he⟩

-- Then it may also be about the last of them.
theorem past {r : Reply α n} (h : s.Reads used s₁ silent) (hlt : s₁.left < s.left)
    (hr : r.Meets s₁ (fun more s' a => P (used ++ more) s' a) l true) : r.Meets s P l w := by
  cases r
  case done => exact behind h.loud hr
  case failed e s' _ =>
    obtain ⟨hs', he | ⟨-, hq, he⟩⟩ := hr
    · exact behind (r := .failed e s' _) h.loud ⟨hs', .inl he⟩
    · refine ⟨.trans ⟨used, h.loud⟩ hs', .inl ⟨s, used, s₁, ⟨[], .refl s⟩, h, hq, ?_⟩⟩
      refine { he with token := ?_ }
      obtain ⟨t, ht, hat⟩ := he.token
      refine ⟨t, ?_, hat⟩
      rw [h.before, mem_append] at ht
      cases hu : used.getLast?
      case none =>
        have hrest := h.rest
        rw [getLast?_eq_none_iff.mp hu, nil_append] at hrest
        exact absurd hlt (by simp [State.left, hrest])
      case some last =>
        refine mem_append.mpr (ht.imp_left fun ht => ?_)
        rw [hu, some_or, toList_some, mem_singleton] at ht
        exact ht ▸ mem_of_getLast? hu

theorem map {f : α → β} {r : Reply α n} (hr : r.Meets s (fun used s' a => Q used s' (f a)) l w) :
    (r.map f).Meets s Q l w := by
  cases r <;> exact hr

theorem extend {f : α → (s : State) → s.left < n → Reply β n} {r : Reply α n}
    (hr : r.Meets s P l w)
    (hf : ∀ used a s₁ h₁, s.Reads used s₁ l → P used s₁ a →
      (f a s₁ h₁).Meets s₁ (fun more s' b => Q (used ++ more) s' b) l) :
    (r.extend f).Meets s Q l w := by
  cases r
  case done a s₁ h₁ =>
    obtain ⟨used, hu, hp⟩ := hr
    exact behind hu (hf used a s₁ h₁ hu hp)
  case failed => exact hr

theorem bind {f : α → (s₁ : State) → s₁.left < s.left → Reply β s₁.left} {r : Reply α s.left}
    (hr : r.Meets s P silent w)
    (hf : ∀ used a s₁ h₁, s.Reads used s₁ silent → P used s₁ a →
      (f a s₁ h₁).Meets s₁ (fun more s' b => Q (used ++ more) s' b) l true) :
    (r.bind f).Meets s Q l w := by
  cases r
  case done a s₁ h₁ =>
    obtain ⟨used, hu, hp⟩ := hr
    exact .within (Nat.le_of_lt h₁) (.past hu h₁ (hf used a s₁ h₁ hu hp))
  case failed => exact hr.loud (P := Q)

theorem marked {f : Mark → α → β} {r : Reply α n}
    (hr : r.Meets s (fun used s' a => Q used s'.numbered (f ⟨s'.fresh, loc⟩ a)) l w) :
    (r.marked loc f).Meets s Q l w := by
  cases r
  case done a s' _ =>
    obtain ⟨used, hu, hq⟩ := hr
    exact ⟨used, hu.numbered, hq⟩
  case failed => exact hr

theorem orRewind {r : Reply α s.left} (hr : r.Meets s P silent w) :
    (r.orRewind s).Meets s P l w := by
  cases r
  case done => exact hr.loud
  case failed e s' _ =>
    obtain ⟨⟨used, hu⟩, he⟩ := hr
    exact ⟨⟨[], hu.rewind⟩, he.loud⟩

theorem after {first : Failure} {r : Reply α n} (hr : r.Meets s P silent w)
    (hf : first.Behind s s silent w) : (r.after first).Meets s P silent w := by
  cases r
  case done => exact hr
  case failed e s' _ =>
    obtain ⟨⟨used, hu⟩, he⟩ := hr
    refine ⟨⟨used, hu⟩, ?_⟩
    rw [Failure.furthest]
    split
    · exact he
    · exact hf.of_quiet hu.way.quiet

theorem rewound (h : s.Reads used s₁ silent) (hc : c = s.cursor) {r : Reply α n}
    (hr : r.Meets (s₁.rewind c) P l w) : r.Meets s P l w := by
  subst hc
  have hs : s.Reads [] (s₁.rewind s.cursor) l := h.rewind
  cases r
  case done => exact behind hs hr
  case failed e s' _ =>
    obtain ⟨⟨more, hm⟩, he | ⟨hw, hq, he⟩⟩ := hr
    · exact behind (r := .failed e s' _) hs ⟨⟨more, hm⟩, .inl he⟩
    · exact ⟨⟨more, hs.trans hm⟩, .inr ⟨hw, hq.trans h.way.quiet, he.cause, he.token, he.resume⟩⟩

end Meets

end Reply

namespace State

variable {α : Type} {W : String → Prop} {s : State}

theorem failure_behind (cause : Cause) (hc : cause.isInner := by rfl)
    (hn : cause.isNumeric → literal? s.peek = some (.error cause) := by rintro ⟨⟩) :
    (s.failure cause).Behind s s l w :=
  .inl ⟨s, [], s, ⟨[], .refl s⟩, .refl s, rfl, hc, ⟨s.peek, by simp, rfl, hn⟩, by simp [failure]⟩

theorem fail_meets {P : List Token → State → α → Prop} (hc : cause.isInner := by rfl)
    (hn : cause.isNumeric → literal? s.peek = some (.error cause) := by rintro ⟨⟩) :
    (s.fail cause : Reply α s.left).Meets s P l w :=
  ⟨⟨[], .refl s⟩, failure_behind cause hc hn⟩

theorem expect_meets (kind : Kind) (context : String) (hk : isBrace kind = false := by rfl) :
    (s.expect kind context).Meets s
      (fun used s' t => used = [t] ∧ t.kind = kind ∧ s.peek = t ∧ s'.fresh = s.fresh) l w := by
  have hinner (found : Token) : (Cause.expected kind context found).isInner := by
    cases kind <;> first | rfl | cases hk
  unfold expect
  split
  case h_2 => exact fail_meets (hinner _)
  case h_1 t s₁ shorter hn =>
    split
    case isTrue ht =>
      obtain ⟨hr, hp, hf⟩ := next_token hn (ht ▸ hk) l
      exact ⟨[t], hr, rfl, ht, hp, hf⟩
    case isFalse => exact fail_meets (hinner _)

-- What begins with a brace begins in front of it.
theorem braced_meets {P : List Token → State → α → Prop}
    {f : Token → (s₁ : State) → s₁.left < s.left → Reply α s.left}
    (hf : ∀ t s₁ shorter, s.next = .token t s₁ shorter → t.kind = .leftBrace →
      (f t s₁ shorter).Meets s P l w) :
    ((s.expect .leftBrace context).extend f).Meets s P l w := by
  unfold expect
  split
  case h_2 => exact fail_meets
  case h_1 t s₁ shorter hn =>
    split
    case isTrue ht => exact hf t s₁ shorter hn ht
    case isFalse => exact fail_meets

theorem semicolon_meets (context : String) :
    (s.semicolon context).Meets s (fun used s' _ =>
      ∃ t, used = [t] ∧ t.kind = .semicolon ∧ s'.fresh = s.fresh) l true := by
  unfold semicolon
  split
  case h_1 s₁ shorter h =>
    obtain ⟨t, hk, hr, _, hf⟩ := accept?_some h l
    exact ⟨[t], hr, t, rfl, hk, hf⟩
  case h_2 =>
    refine ⟨⟨[], .refl s⟩, ?_⟩
    rw [missingSemicolon]
    split
    case h_1 => exact failure_behind _
    case h_2 last hlast =>
      refine .inr ⟨rfl, rfl, rfl, ⟨last, by simp [hlast], rfl, by rintro ⟨⟩⟩, fun c hc => ?_⟩
      simp only [mem_def, ite_none_right_eq_some, Option.some.injEq] at hc
      exact hc.2.symm

theorem typeName_meets (hw : s.Worded W) :
    s.typeName.Meets s (fun used s' type =>
      used = [s.peek] ∧ typeOf? s.peek = some type ∧ type.Formed W ∧ s'.fresh = s.fresh) l w := by
  unfold typeName
  split
  case h_1 => exact fail_meets
  case h_2 t s₁ shorter hn =>
    split
    case h_8 hk =>
      obtain ⟨hr, rfl, hf⟩ := next_token hn (by simp [hk, isBrace]) l
      exact ⟨[_], hr, rfl, by simp [typeOf?, hk], hw.of_next hr hk, hf⟩
    case h_9 => exact fail_meets
    all_goals
      obtain ⟨hr, rfl, hf⟩ := next_token hn (by simp [*, isBrace]) l
      exact ⟨[_], hr, rfl, by simp [typeOf?, *], trivial, hf⟩

end State
end Lumen.Grammar
