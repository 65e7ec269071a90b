import Lumen.Proofs.Grammar.Item

namespace Lumen.Grammar

open List

open Token (Kind)

def terminated (tokens : List Token) : List Token :=
  match tokens.getLast? with
  | none => [.ending .first]
  | some t => if t.kind = .endMarker then tokens else tokens ++ [.ending t.loc]

namespace Cursor

variable {whole used : List Token} {i : Nat} {c c' : Cursor}

structure At (whole : List Token) (i : Nat) (c : Cursor) : Prop where
  before : c.before = (whole.take i).getLast?
  passed : ∀ t ∈ whole.take i, t.kind ≠ .endMarker
  here   : c.rest ++ c.stop :: c.beyond <+: whole.drop i
  rest   : ∀ t ∈ c.rest, t.kind ≠ .endMarker
  stop   : c.stop.kind = .endMarker

namespace At

section

variable (h : c.At whole i)

include h

theorem getElem? : whole[i]? = some c.peek := by
  obtain ⟨more, hm⟩ := h.here
  rw [← head?_drop, ← hm]
  cases hr : c.rest <;> simp [peek, hr]

theorem lt_length : i < whole.length :=
  (List.getElem?_eq_some_iff.mp h.getElem?).1

theorem passes (hp : c.Passes used c') :
    c'.At whole (i + used.length) := by
  have here : used ++ (c'.rest ++ c'.stop :: c'.beyond) <+: whole.drop i := by
    rw [hp.stop, hp.beyond, ← append_assoc, ← hp.rest]
    exact h.here
  have htake : (whole.drop i).take used.length = used :=
    (prefix_iff_eq_take.mp ((prefix_append _ _).trans here)).symm
  have hall : ∀ t ∈ used ++ c'.rest, t.kind ≠ .endMarker := hp.rest ▸ h.rest
  refine ⟨?before, ?passed, ?here, fun t ht => hall t (mem_append_right _ ht),
    hp.stop ▸ h.stop⟩
  case before => rw [hp.before, h.before, take_add, htake, getLast?_append]
  case passed =>
    rw [take_add, htake]
    intro t ht
    rcases mem_append.mp ht with ht | ht
    · exact h.passed t ht
    · exact hall t (mem_append_left _ ht)
  case here =>
    obtain ⟨more, hm⟩ := here
    refine ⟨more, ?_⟩
    rw [← drop_drop, ← hm, append_assoc used, drop_left]

theorem findIdx_eq (hr : c.rest = []) :
    whole.findIdx (·.kind = .endMarker) = i := by
  have hpeek : c.peek = c.stop := by simp [peek, hr]
  obtain ⟨hi, hget⟩ := List.getElem?_eq_some_iff.mp h.getElem?
  refine (List.findIdx_eq hi).mpr ⟨by simp [hget, hpeek, h.stop], fun j hj => ?_⟩
  have hmem : whole[j] ∈ whole.take i := by
    rw [List.mem_take_iff_getElem]
    exact ⟨j, by omega, rfl⟩
  simpa using h.passed _ hmem

end

end At

theorem prefix_terminated (tokens : List Token) : tokens <+: terminated tokens := by
  unfold terminated
  split
  case h_1 hl => rw [getLast?_eq_none_iff.mp hl]; exact nil_prefix
  case h_2 =>
    split
    · exact prefix_rfl
    · exact prefix_append ..

theorem ofTokens_at (tokens : List Token) : (ofTokens tokens).At (terminated tokens) 0 := by
  have hrest := all_takeWhile (p := fun t : Token => !decide (t.kind = .endMarker))
    (l := tokens)
  have hsplit := takeWhile_append_dropWhile
    (p := fun t : Token => !decide (t.kind = .endMarker)) (l := tokens)
  simp only [all_eq_true, Bool.not_eq_true', decide_eq_false_iff_not] at hrest
  unfold ofTokens
  simp only
  split
  case h_1 stop beyond hd =>
    have hstop := head?_dropWhile_not (fun t : Token => !decide (t.kind = .endMarker)) tokens
    rw [hd] at hstop hsplit
    refine ⟨rfl, by simp, ?_, hrest, by simpa using hstop⟩
    rw [drop_zero, hsplit]
    exact prefix_terminated tokens
  case h_2 hd =>
    rw [hd, append_nil] at hsplit
    rw [hsplit] at hrest ⊢
    refine ⟨rfl, by simp, ?_, hrest, rfl⟩
    rw [drop_zero, terminated]
    split
    case h_1 hl => rw [getLast?_eq_none_iff.mp hl]; exact prefix_rfl
    case h_2 t hl =>
      rw [if_neg (hrest t (mem_of_getLast? hl)), hl]
      exact prefix_rfl

end Cursor

variable {α : Type} {whole : List Token}

def Onward (whole : List Token) (rule : (s : State) → Reply α s.left) : Prop :=
  ∀ s i, s.cursor.At whole i →
    match rule s with
    | .done _ s' _ => ∃ j, i < j ∧ s'.cursor.At whole j
    | .failed _ s' _ => ∃ j, i ≤ j ∧ s'.cursor.At whole j

namespace State

variable {s s' : State} {i : Nat}

theorem Goes.at (h : s.Goes s') (hs : s.cursor.At whole i) : ∃ j, i ≤ j ∧ s'.cursor.At whole j := by
  obtain ⟨used, hp⟩ := h.reaches
  exact ⟨_, Nat.le_add_right .., hs.passes hp⟩

theorem Goes.at_later (h : s.Goes s') (hlt : s'.left < s.left) (hs : s.cursor.At whole i) :
    ∃ j, i < j ∧ s'.cursor.At whole j := by
  obtain ⟨used, hp⟩ := h.reaches
  have hused : 0 < used.length := by
    have hlen : s.left = used.length + s'.left := by
      rw [left, hp.rest, length_append, left]
    omega
  exact ⟨_, Nat.lt_add_of_pos_right hused, hs.passes hp⟩

end State

theorem Onward.of_meets {rule : (s : State) → Reply α s.left}
    {P : State → List Token → State → α → Prop} (h : ∀ s, (rule s).Meets s (P s)) :
    Onward whole rule := by
  intro s i hs
  have hm := h s
  split
  case h_1 s' hlt hx =>
    rw [hx] at hm
    obtain ⟨_, hr, _⟩ := hm
    exact hr.goes.at_later hlt hs
  case h_2 hx =>
    rw [hx] at hm
    obtain ⟨⟨_, hr⟩, _⟩ := hm
    exact hr.goes.at hs

structure Repeats (whole : List Token) (rule : (s : State) → Reply α s.left)
    (stops : Kind → Bool) (loop : List α → State → List α × State) : Prop where
  onward : Onward whole rule
  rounds : Rounds rule stops loop
  -- A round moves the cursor on.
  moves  : ∀ (s : State) i, s.cursor.At whole i → ∀ a s', s.round rule stops = some (a, s') →
    ∃ j, i < j ∧ s'.cursor.At whole j
  -- The loop stops on a token, at which there is no further round.
  ends   : ∀ done (s : State) i, s.cursor.At whole i → ∃ j, i ≤ j ∧
    (loop done s).2.cursor.At whole j ∧ (loop done s).2.round rule stops = none

theorem round_moves {rule : (s : State) → Reply α s.left} {stops : Kind → Bool}
    {P : State → List Token → State → α → Prop} (h : ∀ s, (rule s).Meets s (P s)) {s : State}
    (hs : s.cursor.At whole i) (hr : s.round rule stops = some (a, s')) :
    ∃ j, i < j ∧ s'.cursor.At whole j := by
  obtain ⟨hgoes, hlt⟩ := round_goes (h s) hr
  exact hgoes.at_later hlt hs

-- What one round does carries over to the whole loop.
theorem Rounds.repeats {rule : (s : State) → Reply α s.left} {stops : Kind → Bool}
    {loop : List α → State → List α × State} {P : State → List Token → State → α → Prop}
    (hloop : Rounds rule stops loop) (h : ∀ s, (rule s).Meets s (P s)) :
    Repeats whole rule stops loop where
  onward := .of_meets h
  rounds := hloop
  moves := fun _ _ hs _ _ hr => round_moves h hs hr
  ends := by
    -- The cursor cannot move on for ever.
    intro done s i hs
    induction hn : whole.length - i using Nat.strongRecOn generalizing done s i
    case ind n ih =>
      rw [hloop done s]
      split
      case h_1 hr => exact ⟨i, Nat.le_refl _, hs, hr⟩
      case h_2 a s' hr =>
        obtain ⟨j, hij, hs'⟩ := round_moves h hs hr
        have := hs'.lt_length
        obtain ⟨k, hjk, hend⟩ := ih (whole.length - j) (by omega) (a.toList ++ done) s' j hs' rfl
        exact ⟨k, by omega, hend⟩

-- An end marker that had to be added stands where the last token does.
theorem Cursor.stop_ofTokens (hne : tokens ≠ []) :
    ∃ t ∈ tokens, t.loc = (Cursor.ofTokens tokens).stop.loc := by
  unfold Cursor.ofTokens
  simp only
  split
  case h_1 stop beyond hd =>
    exact ⟨stop, (dropWhile_sublist _).subset (hd ▸ mem_cons_self), rfl⟩
  case h_2 =>
    have hl := getLast?_eq_some_getLast hne
    exact ⟨tokens.getLast hne, getLast_mem hne, by simp [hl, Token.ending]⟩

theorem Cursor.sees_ofTokens (hne : tokens ≠ []) (h : (Cursor.ofTokens tokens).Sees loc) :
    ∃ t ∈ tokens, t.loc = loc := by
  obtain ⟨t, ht, rfl⟩ := h
  rcases mem_append.mp ht with ht | ht
  · exact ⟨t, (ofTokens_rest tokens).subset ht, rfl⟩
  · exact mem_singleton.mp ht ▸ Cursor.stop_ofTokens hne

theorem items_exhaust (tokens : List Token) :
    (items [] (.ofTokens tokens)).2.cursor.rest = [] := by
  obtain ⟨_, -, -, -, -, hrest⟩ := items_reads (.ofTokens tokens) (State.worded_all _)
  exact hrest

end Grammar

namespace Parsed

open Grammar

-- All that is reported are failures at tokens that are seen from the start.
theorem ofTokens_reported (tokens : List Token) :
    ∀ d ∈ (ofTokens tokens).diagnostics, Reported (Cursor.ofTokens tokens).ahead d := by
  intro d hd
  have hd : d ∈ (Grammar.items [] (.ofTokens tokens)).2.reports := List.mem_reverse.mp hd
  obtain ⟨_, hr, _⟩ := items_reads (.ofTokens tokens) (State.worded_all _)
  obtain ⟨made, hmade, hall⟩ := hr.goes.reports
  rw [hmade] at hd
  rcases List.mem_append.mp hd with hd | hd
  · exact hall d hd
  · contradiction

theorem ofTokens_reports (tokens : List Token) :
    ∀ d ∈ (ofTokens tokens).diagnostics, ∃ t ∈ tokens, t.loc = d.loc := by
  intro d hd
  by_cases hne : tokens = []
  · subst hne
    simp [ofTokens, Grammar.items, State.next, State.ofTokens, Cursor.ofTokens] at hd
  · exact Cursor.sees_ofTokens hne (ofTokens_reported tokens d hd).loc

-- Reading a list of tokens moves on with each round of its loops, stays within the list, and ends
-- on the first end marker. All reports stand at tokens.
theorem ofTokens_progress (tokens : List Token) :
    let whole := terminated tokens
    let start := State.ofTokens tokens
    start.cursor.At whole 0 ∧
    (∀ i (c : Cursor), c.At whole i → i < whole.length ∧ whole[i]? = some c.peek) ∧
    Onward whole expression ∧
    Repeats whole item (fun _ => false) Grammar.items ∧
    Repeats whole member (· = .rightBrace) (BoundedLoop.run members) ∧
    Repeats whole statement (· = .rightBrace) (BoundedLoop.run statements) ∧
    (Grammar.items [] start).2.cursor.At whole (whole.findIdx (·.kind = .endMarker)) ∧
    ∀ d ∈ (ofTokens tokens).diagnostics, ∃ t ∈ tokens, t.loc = d.loc := by
  intro whole start
  have hstart : start.cursor.At whole 0 := Cursor.ofTokens_at tokens
  have hitems : Repeats whole item (fun _ => false) Grammar.items :=
    items_rounds.repeats fun s => item_meets s s.worded_all
  obtain ⟨j, -, hend, -⟩ := hitems.ends [] start 0 hstart
  refine ⟨hstart, fun i c hc => ⟨hc.lt_length, hc.getElem?⟩, ?_, hitems, ?_, ?_, ?_,
    ofTokens_reports tokens⟩
  · exact .of_meets fun s => expression_meets s s.worded_all
  · exact members_steps.rounds.repeats fun s => member_meets s s.worded_all
  · exact statements_steps.rounds.repeats fun s => statement_meets s s.worded_all
  · rw [hend.findIdx_eq (items_exhaust tokens)]
    exact hend

end Parsed
end Lumen
