import Lumen.Proofs.Grammar.Item

namespace Lumen.Grammar

open List

-- A round of a rule that is repeated, which has failed from `start` to `stop`.
structure Round where
  start   : State
  failure : Failure
  stop    : State
  fails   : Fails start failure stop
  bound   : stop.left ≤ start.left
  more    : 0 < start.left

namespace Round

def report (r : Round) : Diagnostic :=
  r.failure.diagnostic r.start.leadingHint?

-- Where reading goes on.
def behind (r : Round) : State :=
  (r.start.goOn r.failure r.stop r.bound r.more).1

end Round

namespace State

-- How reading gets from one state to another, with the rounds that fail on the way. In a round that
-- fails, more may have been read than is kept at its end.
inductive Run : State → State → List Round → Prop
  | same (hc : s'.cursor = s.cursor) (hr : s'.reports = s.reports) : Run s s' []
  | trans (h : Run s s₁ rounds) (h' : Run s₁ s₂ rounds') : Run s s₂ (rounds ++ rounds')
  | read (hn : s.next = .token t s₁ shorter) : Run s s₁ []
  | close (hend : s.cursor.rest = [] ∨ s.peek.kind = .rightBrace) :
      Run s (s.close unclosed).1 []
  | recover (r : Round) (h : Run r.start r.stop rounds) (h' : Run r.start s₂ rounds')
      (hq : s₂.Quiet r.stop) : Run r.start r.behind (rounds ++ rounds' ++ [r])

-- A round has failed with this report, and then reading has gone on in front of its place.
def Stalls (s : State) (rounds : List Round) (d : Diagnostic) : Prop :=
  ∃ r ∈ rounds, r.report = d ∧ s.cursor.Reaches r.start.cursor ∧ r.behind.cursor.Sees d.loc

variable {s s₁ s₂ : State} {rounds rounds' : List Round}

structure Made (s s' : State) (rounds : List Round) (made : List Diagnostic) : Prop where
  run     : s.Run s' rounds
  goes    : s.Goes s'
  reports : s'.reports = made ++ s.reports
  origin  : ∀ d ∈ made, d.loc = s.cursor.stop.loc ∨ ∃ r ∈ rounds, r.report = d ∧
    s.cursor.Reaches r.start.cursor ∧ r.behind.cursor.Reaches s'.cursor
  apart   : made.Pairwise fun d d' => d'.loc = d.loc →
    d'.loc = s.cursor.stop.loc ∨ s.Stalls rounds d'

theorem Stalls.mono (h : s₁.Stalls rounds d) (hr : s.cursor.Reaches s₁.cursor)
    (hsub : rounds ⊆ rounds') : s.Stalls rounds' d := by
  obtain ⟨r, hr', heq, hstart, hsees⟩ := h
  exact ⟨r, hsub hr', heq, hr.trans hstart, hsees⟩

theorem Goes.sees {made : List Diagnostic} (h : s.Goes s₁) (hr : s₁.reports = made ++ s.reports) :
    ∀ d ∈ made, s.cursor.Sees d.loc := by
  obtain ⟨made', hmade, hall⟩ := h.reports
  rw [append_cancel_right (hr.symm.trans hmade)]
  exact fun d hd => (hall d hd).loc

theorem Goes.made_nil (h : s.Goes s₁) (hq : s.Quiet s₁) (hr : s.Run s₁ []) : s.Made s₁ [] [] :=
  ⟨hr, h, hq, by simp, .nil⟩

theorem Made.trans (h : s.Made s₁ rounds first) (h' : s₁.Made s₂ rounds' later) :
    s.Made s₂ (rounds ++ rounds') (later ++ first) := by
  obtain ⟨_, hpasses⟩ := h.goes.reaches
  have hstop : s₁.cursor.stop = s.cursor.stop := hpasses.stop
  refine ⟨h.run.trans h'.run, h.goes.trans h'.goes,
    by rw [h'.reports, h.reports, append_assoc], ?_, ?_⟩
  · intro d hd
    rcases mem_append.mp hd with hd | hd
    · refine (h'.origin d hd).imp (hstop ▸ ·) fun hr => ?_
      obtain ⟨r, hr, heq, hstart, hbehind⟩ := hr
      exact ⟨r, mem_append_right _ hr, heq, h.goes.reaches.trans hstart, hbehind⟩
    · refine (h.origin d hd).imp_right fun hr => ?_
      obtain ⟨r, hr, heq, hstart, hbehind⟩ := hr
      exact ⟨r, mem_append_left _ hr, heq, hstart, hbehind.trans h'.goes.reaches⟩
  · refine pairwise_append.mpr ⟨h'.apart.imp fun hd heq => ?_, h.apart.imp fun hd heq => ?_,
      fun d hd d' hd' heq => ?_⟩
    · exact (hd heq).imp (hstop ▸ ·) (·.mono h.goes.reaches (subset_append_right _ _))
    · exact (hd heq).imp_right (·.mono ⟨_, .refl _⟩ (subset_append_left _ _))
    · -- The second report is seen from where the first part ends.
      refine (h.origin d' hd').imp_right fun hr => ?_
      obtain ⟨r, hr, hreport, hstart, _, hbehind⟩ := hr
      exact ⟨r, mem_append_left _ hr, hreport, hstart,
        heq ▸ hbehind.sees (h'.goes.sees h'.reports d hd)⟩

theorem close_made (hend : s.cursor.rest = [] ∨ s.peek.kind = .rightBrace)
    (hu : ∀ t, (unclosed t).isNumeric = false) : ∃ made, s.Made (s.close unclosed).1 [] made := by
  obtain ⟨_, made, -, -, hmade, hcase⟩ := s.close_passes unclosed
  have hgoes := s.close_goes hu
  rcases hcase with ⟨rfl, -⟩ | ⟨ha, rfl⟩
  · exact ⟨[], hgoes.made_nil hmade (.close hend)⟩
  · have hrest : s.cursor.rest = [] := by
      refine hend.elim id fun hk => ?_
      cases hrest : s.cursor.rest
      case nil => rfl
      case cons t rest =>
        obtain ⟨_, _, ha', -⟩ := accept?_eq hrest (peek_eq hrest ▸ hk)
        rw [ha] at ha'
        contradiction
    refine ⟨_, .close hend, hgoes, hmade, ?_, pairwise_singleton _ _⟩
    simp [Failure.diagnostic, failure, peek, Cursor.peek, hrest]

theorem Way.made (h : Way l s s₁) : ∃ rounds made, s.Made s₁ rounds made := by
  induction h
  case same hc hr => exact ⟨[], [], (Way.same (l := l) hc hr).goes.made_nil hr (.same hc hr)⟩
  case trans ih ih' =>
    obtain ⟨_, _, hm⟩ := ih
    obtain ⟨_, _, hm'⟩ := ih'
    exact ⟨_, _, hm.trans hm'⟩
  case read hn _ => exact ⟨[], [], (next_goes hn).made_nil (next_reports hn) (.read hn)⟩
  case block hn _ _ hend hu ih =>
    obtain ⟨_, _, hm⟩ := ih
    obtain ⟨_, hm'⟩ := close_made hend hu
    exact ⟨_, _, (((next_goes hn).made_nil (next_reports hn) (.read hn)).trans hm).trans hm'⟩
  case recover s e s₁ s₂ s₃ used hk hf h h' hlast hp hq he bound more ih ih' _ =>
    obtain ⟨rounds, made, hm⟩ := ih
    obtain ⟨rounds', made', hm'⟩ := ih'
    -- Nothing has been reported since `s₂`.
    have hreports : s₁.reports = s₂.reports := hq.trans hlast.quiet
    obtain rfl : made = made' :=
      append_cancel_right (hm.reports.symm.trans (hreports.trans hm'.reports))
    let r : Round := ⟨s, e, s₁, hf, bound, more⟩
    have hall : rounds ⊆ rounds ++ rounds' ++ [r] := by simp
    have hall' : rounds' ⊆ rounds ++ rounds' ++ [r] := by
      rw [append_assoc]
      exact List.Subset.trans (subset_append_left _ _) (subset_append_right _ _)
    have hlast : r ∈ rounds ++ rounds' ++ [r] := mem_append_right _ (mem_singleton.mpr rfl)
    refine ⟨rounds ++ rounds' ++ [r], r.report :: made, .recover r hm.run hm'.run hreports,
      goOn_goes hm.goes hm'.goes hp he, ?_, ?_, ?_⟩
    · rw [goOn_keeps.1, hm.reports, cons_append]
      rfl
    · refine forall_mem_cons.mpr ⟨.inr ⟨r, hlast, rfl, ⟨_, .refl _⟩, ⟨_, .refl _⟩⟩,
        fun d hd => ?_⟩
      rcases goOn_cases with hc | hr
      · refine (hm'.origin d hd).imp_right fun hround => ?_
        obtain ⟨r', hr', hreport, hstart, hs₂⟩ := hround
        exact ⟨r', hall' hr', hreport, hstart, he.resume _ hc ▸ hs₂.trans ⟨_, hp⟩⟩
      · refine (hm.origin d hd).imp_right fun hround => ?_
        obtain ⟨r', hr', hreport, hstart, hs₁⟩ := hround
        exact ⟨r', hall hr', hreport, hstart, hs₁.trans hr⟩
    · refine pairwise_cons.mpr ⟨fun d hd heq => ?_, hm.apart.imp fun hd heq => ?_⟩
      · refine (hm'.origin d hd).imp_right fun hround => ?_
        obtain ⟨r', hr', hreport, hstart, _, hs₂⟩ := hround
        exact ⟨r', hall' hr', hreport, hstart, heq ▸ hs₂.sees (he.reported hp none).loc⟩
      · exact (hd heq).imp_right (·.mono ⟨_, .refl _⟩ hall)

end State

end Grammar

namespace Parsed

open Grammar

-- Two reports at one place stand at the end of the tokens, or the first of them is that of a round
-- behind which reading has gone on in front of the place.
theorem ofTokens_repeats (tokens : List Token) :
    ∃ rounds, (State.ofTokens tokens).Run (Grammar.items [] (.ofTokens tokens)).2 rounds ∧
      (ofTokens tokens).diagnostics.Pairwise fun d d' => d.loc = d'.loc →
        d.loc = (Cursor.ofTokens tokens).stop.loc ∨ (State.ofTokens tokens).Stalls rounds d := by
  obtain ⟨_, hr, -⟩ := items_reads (.ofTokens tokens) (State.worded_all _)
  obtain ⟨rounds, made, hm⟩ := hr.way.made
  have hmade : (ofTokens tokens).diagnostics = made.reverse :=
    congrArg List.reverse (hm.reports.trans (List.append_nil made))
  refine ⟨rounds, hm.run, ?_⟩
  rw [hmade]
  exact List.pairwise_reverse.mpr hm.apart

-- Behind the value that is missing here, reading goes on at the brace, where it is missed again.
theorem ofTokens_repeats_brace :
    let tokens := (Lexed.ofSource "x = \x7d").tokens.toList
    tokens.Pairwise (·.loc < ·.loc) ∧ ¬(ofTokens tokens).diagnostics.Nodup := by
  decide +kernel

end Parsed
end Lumen
