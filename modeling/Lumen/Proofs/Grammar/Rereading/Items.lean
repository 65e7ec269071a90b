import Lumen.Proofs.Grammar.Rereading.Statements

namespace Lumen.Grammar

open List State

open Token (Kind)

variable {t u name : Token} {rest ts k : List Token} {e : Expr} {body : List Stmt} {stmt : Stmt}
  {init : Option Expr} {loose isStatic : Bool} {m : Member} {s : State} {c : Cursor}
  {type tn : TypeName}

def located (part : List Token × Param) : Param :=
  { part.2 with loc := (part.1.head?.map (·.loc)).getD part.2.loc }

theorem Parameter.gives (h : Parameter ts p) (hs : s.cursor.rest = ts ++ k) :
    (Grammar.parameter s).Gives s k (· = located (ts, p)) := by
  cases h
  case parameter ht hn =>
    unfold Grammar.parameter
    refine (typeName_gives hs ht).bind fun type' s₁ _ hs₁ htype => .map ?_
    refine (expect_gives hs₁ hn).weaken fun name' hname => ?_
    simp [located, peek_eq hs, htype, hname]

theorem parameters_gives {part : List Token × Param} {rest : List (List Token × Param)}
    {c : Token} (hp : Parameter part.1 part.2) (hrest : ∀ q ∈ rest, Parameter q.1 q.2)
    (hts : Further (rest.map (·.1)) ts) (hc : c.kind = .rightParen) (done : List Param)
    (hs : s.cursor.rest = part.1 ++ ts ++ c :: k) :
    (parameters done s).Gives s (c :: k)
      (· = done.reverse ++ (part :: rest).map located) := by
  induction rest generalizing part ts done s
  case nil =>
    cases hts
    rw [parameters]
    refine (hp.gives (k := c :: k) (by simpa using hs)).extend fun p' s₁ h₁ hs₁ hsame => ?_
    rw [accept?_eq_none (by simp [hs₁, hc])]
    exact ⟨hs₁, rfl, by simp [hsame]⟩
  case cons q rest ih =>
    rcases hts with _ | ⟨hcomma, hfurther⟩
    rename_i us comma
    obtain ⟨hq, hrest⟩ := forall_mem_cons.mp hrest
    rw [parameters]
    refine (hp.gives (k := comma :: (q.1 ++ us) ++ c :: k) (by simpa using hs)).extend
      fun p' s₁ h₁ hs₁ hsame => ?_
    obtain ⟨s₂, h₂, ha, hs₂, hq₂⟩ := accept?_eq hs₁ hcomma
    rw [ha]
    refine .within _ (.behind hq₂ ((ih hq hrest hfurther (p' :: done) hs₂).weaken fun ps hps => ?_))
    simpa [hsame] using hps

abbrev RestRecurs :=
  Recurs routineRest (fun rest => (rest.1, rest.2.map Stmt.unnumbered))
    (fun rest => (rest.1.map Param.unmarked, unmarkedIn rest.2)) fun _ => True

theorem RestRecurs.of_block {ps us : List Token} {o c b : Token} {params : List Param}
    (ho : o.kind = .leftParen) (hps : Parameters ps params) (hc : c.kind = .rightParen)
    (hb : b.kind = .leftBrace) (h : BlockRecurs us body) :
    RestRecurs (o :: ps ++ c :: b :: us) (params, body) := by
  obtain ⟨hparts, hsep⟩ := hps
  rename_i parts
  obtain ⟨xs, hxs, hblock⟩ := h
  refine ⟨(parts.map located, xs), by simp [hxs, Param.unmarked, located], fun s k hs _ => ?_⟩
  unfold routineRest
  refine (expect_gives (k := ps ++ c :: b :: us ++ k) (by simpa using hs) ho).bind
    fun _ s₁ _ hs₁ _ => ?_
  -- From the closing parenthesis on.
  have tail (params : List Param) (s₂ : State) (hs₂ : s₂.cursor.rest = c :: b :: us ++ k) :
      Reply.Gives (n := s₂.left) s₂ k (fun rest : List Param × List Stmt =>
        (rest.1, rest.2.map Stmt.unnumbered) = (params, xs))
        ((s₂.expect .rightParen "after parameters").bind fun _ s₃ _ =>
          (s₃.expect .leftBrace "for routine body").extend fun _ s₄ h₄ =>
          .done (params, (block s₄).1) (block s₄).2.1 (left_lt_trans h₄ (block s₄).2.2)) := by
    refine (expect_gives hs₂ hc).bind fun _ s₃ _ hs₃ _ => ?_
    refine (expect_gives hs₃ hb).extend fun _ s₄ h₄ hs₄ _ => ?_
    obtain ⟨hrest, hq, hbody⟩ := hblock s₄ k hs₄
    exact ⟨hrest, hq, by simp [hbody]⟩
  simp only
  cases parts
  case nil =>
    cases hsep
    rw [if_pos (by simp [peek_eq hs₁, hc])]
    exact tail [] s₁ hs₁
  case cons p rest =>
    rcases hsep with _ | hfurther
    obtain ⟨hp, hrest⟩ := forall_mem_cons.mp hparts
    have hnot : s₁.peek.kind ≠ .rightParen := by
      obtain ⟨part, p⟩ := p
      obtain ⟨ht, -⟩ := hp
      intro hk
      rw [peek_eq hs₁] at hk
      simp [typeOf?, hk] at ht
    rw [if_neg hnot]
    refine (parameters_gives (k := b :: us ++ k) hp hrest hfurther hc [] (by simpa using hs₁)).bind
      fun params s₂ _ hs₂ hparams => ?_
    obtain rfl : params = (p :: rest).map located := hparams
    exact tail _ s₂ hs₂

variable {loc : Location} {vs rs : List Token} {word semicolon : Token} {params : List Param}

abbrev RoutineRecurs (isStatic : Bool) (ts : List Token) (stmt : Stmt) : Prop :=
  ∀ loc, Recurs (routine loc isStatic) Stmt.unnumbered Stmt.unmarked (fun _ => True) ts stmt

theorem RoutineRecurs.of_rest {type : Token} (ht : typeOf? type = some tn)
    (hn : name.kind = .identifier) (h : RestRecurs rs (params, body)) :
    RoutineRecurs isStatic (type :: name :: rs)
      (.routine loc name.text params tn isStatic body) := by
  intro loc'
  obtain ⟨x, hx, hagain⟩ := h
  simp only [Prod.mk.injEq] at hx
  refine ⟨.routine loc' name.text x.1 tn isStatic x.2, by simp [hx], fun s k hs _ => ?_⟩
  unfold routine
  refine (typeName_gives hs ht).bind fun type' s₁ _ hs₁ htype => ?_
  refine (expect_gives hs₁ hn).bind fun name' s₂ _ hs₂ hname => .map ?_
  refine (hagain s₂ k hs₂ trivial).weaken fun rest hsame => ?_
  simp [htype, hname, ← hsame]

def Member.unmarked : Member → Member
  | field f => field f.unmarked
  | method m => method m.unmarked

def Member.unnumbered : Member → Member
  | field f => field f.unnumbered
  | method m => method m.unnumbered

abbrev MemberRecurs :=
  Recurs member Member.unnumbered Member.unmarked fun _ => True

theorem Initializer.recurs_field {isConst : Bool} (h : Initializer vs init)
    (hc : isConst → init.isSome) (hsemi : semicolon.kind = .semicolon) :
    Recurs (fieldRest isConst) unnumberedOption unmarkedOption (fun _ => True) (vs ++ [semicolon])
      init := by
  rcases h with _ | ⟨ht, hv⟩
  case none =>
    refine ⟨.none, rfl, fun s k hs _ => ?_⟩
    have hnot : ¬(isConst || s.peek.kind = .assign) = true := by
      rw [peek_eq hs]
      simp_all
    simp only [fieldRest, if_neg hnot]
    exact .map ((semicolon_gives hs hsemi).weaken fun _ _ => rfl)
  case some vs t value =>
    obtain ⟨x, hx, hagain⟩ := hv.recurs
    refine ⟨.some x, by simp [unmarkedOption, hx], fun s k hs _ => ?_⟩
    have hassign : (isConst || s.peek.kind = .assign) = true := by simp [peek_eq hs, ht]
    simp only [fieldRest, if_pos hassign]
    have hvalue : ((s.expect .assign "in constant field").bind fun _ s₁ _ =>
        (expression s₁).map Option.some).Gives s (semicolon :: k)
          (unnumberedOption · = .some x) := by
      refine (expect_gives hs ht).bind fun _ s₁ _ hs₁ _ => .map ?_
      refine (hagain s₁ (semicolon :: k) (by simpa using hs₁)
        (Closes.of_semicolon hsemi).ends).weaken fun value' hsame => ?_
      simp [hsame]
    refine hvalue.bind fun init' s₁ _ hs₁ hsame => ?_
    exact .map ((semicolon_gives hs₁ hsemi).weaken fun _ _ => hsame)

theorem memberRest_recurs {type : Token} (loc loc' : Location) (isConst : Bool)
    (ht : typeOf? type = some tn) (hn : name.kind = .identifier) (hi : Initializer vs init)
    (hc : isConst → init.isSome) (hsemi : semicolon.kind = .semicolon) :
    Recurs (memberRest loc' isConst) Member.unnumbered Member.unmarked (fun _ => True)
      (type :: name :: vs ++ [semicolon]) (.field ⟨name.text, tn, init, isConst, loc⟩) := by
  obtain ⟨x, hx, hagain⟩ := hi.recurs_field hc hsemi
  refine ⟨.field ⟨name.text, tn, x, isConst, loc'⟩, by simp [Member.unmarked, Field.unmarked, hx],
    fun s k hs _ => ?_⟩
  unfold memberRest
  refine (typeName_gives hs ht).bind fun type' s₁ _ hs₁ htype => ?_
  refine (expect_gives hs₁ hn).bind fun name' s₂ _ hs₂ hname => ?_
  have hnot : ¬(!isConst && s₂.peek.kind = .leftParen) = true := by
    rcases hi with _ | ⟨hk, -⟩
    · simp [peek_eq hs₂, hsemi]
    · simp [peek_eq hs₂, hk]
  rw [if_neg hnot]
  refine .map ((hagain s₂ k hs₂ trivial).weaken fun init' hsame => ?_)
  simp [Member.unnumbered, Field.unnumbered, htype, hname, hsame]

theorem accept?_word_none (hs : s.cursor.rest = t :: rest) (ht : typeOf? t = some tn)
    (hk : kind = .staticKw ∨ kind = .constKw) : s.accept? kind = none := by
  refine accept?_eq_none fun t' ht' he => ?_
  obtain rfl : t = t' := by simpa [hs] using ht'
  rcases hk with rfl | rfl <;> simp [typeOf?, he] at ht

namespace MemberRecurs

theorem field {type : Token} (ht : typeOf? type = some tn) (hn : name.kind = .identifier)
    (hi : Initializer vs init) (hsemi : semicolon.kind = .semicolon) :
    MemberRecurs (type :: name :: vs ++ [semicolon])
      (.field ⟨name.text, tn, init, false, loc⟩) := by
  obtain ⟨x, hx, hagain⟩ := memberRest_recurs loc type.loc false ht hn hi (by simp) hsemi
  refine ⟨x, hx, fun s k hs _ => ?_⟩
  simp only [member, accept?_word_none hs ht (.inl rfl), accept?_word_none hs ht (.inr rfl),
    peek_eq hs]
  exact hagain s k hs trivial

theorem constant {type : Token} {value : Expr} (hw : word.kind = .constKw)
    (ht : typeOf? type = some tn) (hn : name.kind = .identifier) (hk : t.kind = .assign)
    (hv : Expression vs value) (hsemi : semicolon.kind = .semicolon) :
    MemberRecurs (word :: type :: name :: t :: vs ++ [semicolon])
      (.field ⟨name.text, tn, some value, true, loc⟩) := by
  obtain ⟨x, hx, hagain⟩ := memberRest_recurs loc word.loc true ht hn (.some hk hv) (by simp)
    hsemi
  refine ⟨x, hx, fun s k hs _ => ?_⟩
  obtain ⟨s₁, h₁, ha, hs₁, hq₁⟩ := accept?_eq hs hw
  have hnone : s.accept? .staticKw = none := accept?_eq_none (by simp [hs, hw])
  simp only [member, hnone, ha, peek_eq hs]
  exact .within _ (.behind hq₁ (hagain s₁ k hs₁ trivial))

theorem method {type : Token} (ht : typeOf? type = some tn) (hn : name.kind = .identifier)
    (hrest : RoutineRest loose rs params body) (h : RestRecurs rs (params, body)) :
    MemberRecurs (type :: name :: rs) (.method (.routine loc name.text params tn false body)) := by
  obtain ⟨ho, -⟩ := hrest
  obtain ⟨x, hx, hagain⟩ := h
  simp only [Prod.mk.injEq] at hx
  refine ⟨.method (.routine type.loc name.text x.1 tn false x.2), by simp [Member.unmarked, hx],
    fun s k hs _ => ?_⟩
  simp only [member, accept?_word_none hs ht (.inl rfl), accept?_word_none hs ht (.inr rfl),
    peek_eq hs]
  unfold memberRest
  refine (typeName_gives hs ht).bind fun type' s₁ _ hs₁ htype => ?_
  refine (expect_gives hs₁ hn).bind fun name' s₂ _ hs₂ hname => ?_
  rw [if_pos (by simp [peek_eq hs₂, ho])]
  refine .map ((hagain s₂ k hs₂ trivial).weaken fun rest hsame => ?_)
  simp [Member.unnumbered, htype, hname, ← hsame]

theorem staticMethod (hw : word.kind = .staticKw) (h : RoutineRecurs true ts stmt) :
    MemberRecurs (word :: ts) (.method stmt) := by
  obtain ⟨x, hx, hagain⟩ := h word.loc
  refine ⟨.method x, by simp [Member.unmarked, hx], fun s k hs _ => ?_⟩
  obtain ⟨s₁, h₁, ha, hs₁, hq₁⟩ := accept?_eq hs hw
  simp only [member, ha, peek_eq hs]
  refine .within _ (.map (.behind hq₁ ((hagain s₁ k hs₁ trivial).weaken fun stmt' hsame => ?_)))
  simp [Member.unnumbered, hsame]

end MemberRecurs

theorem item_eq {s₁ : State} {h₁ : s₁.left < s.left} (hn : s.next = .token t s₁ h₁)
    (hc : t.kind ≠ .classKw) (hs : t.kind ≠ .staticKw) :
    item s = if s.cursor.opensRoutine then routine t.loc true s else statement s := by
  unfold item
  simp only [hn]

theorem opensRoutine_eq_false (h : c.opensDeclaration = false) : c.opensRoutine = false := by
  simp [Cursor.opensRoutine, h]

-- A statement that is told by its first word is no declaration.
theorem not_declaration_of_leads (hr : c.rest = t :: rest) (ht : leads t.kind = true) :
    c.opensDeclaration = false := by
  have hpeek : c.peek = t := by simp [Cursor.peek, hr]
  unfold Cursor.opensDeclaration
  rw [hpeek]
  cases hk : t.kind <;> simp_all [leads, Kind.isTypeWord]

theorem not_word_of_typeOf? (h : typeOf? t = some type) :
    t.kind ≠ .classKw ∧ t.kind ≠ .staticKw := by
  unfold typeOf? at h
  split at h <;> simp_all

theorem item_eq_of_leads (hs : s.cursor.rest = t :: rest) (ht : leads t.kind = true)
    (hc : t.kind ≠ .classKw) : item s = statement s := by
  obtain ⟨s₁, h₁, hn, -⟩ := next_eq hs
  have hstatic : t.kind ≠ .staticKw := by
    intro hk
    simp [hk, leads] at ht
  rw [item_eq hn hc hstatic, opensRoutine_eq_false (not_declaration_of_leads hs ht)]
  rfl

theorem VariableHead.item_eq (h : VariableHead ts stmt) (hs : s.cursor.rest = ts ++ u :: k)
    (hu : u.kind ≠ .leftParen) : item s = statement s := by
  cases h
  case inferred hw _ _ _ => exact item_eq_of_leads hs (by simp [hw, leads]) (by simp [hw])
  case typed vs type name loc tn init ht hn hi =>
    obtain ⟨s₁, h₁, hnext, -⟩ := next_eq hs
    have hclass := not_word_of_typeOf? ht
    have hroutine : s.cursor.opensRoutine = false := by
      rcases hi with _ | ⟨hk, -⟩
      · simp [Cursor.opensRoutine, Cursor.ahead?, hs, hu]
      · simp [Cursor.opensRoutine, Cursor.ahead?, hs, hk]
    rw [Grammar.item_eq hnext hclass.1 hclass.2, hroutine]
    rfl

theorem Simple.item_eq (h : Simple ts stmt) (hs : s.cursor.rest = ts ++ k)
    (hdecl : s.cursor.opensDeclaration = false) : item s = statement s := by
  obtain ⟨t, rest, rfl, hleads, -, hstatic, -⟩ := h.head
  obtain ⟨s₁, h₁, hn, -⟩ := next_eq hs
  have hclass : t.kind ≠ .classKw := by
    intro hk
    simp [hk, leads] at hleads
  rw [Grammar.item_eq hn hclass hstatic, opensRoutine_eq_false hdecl]
  rfl

theorem Written.item_eq (h : Written loose .statement ts body) (hs : s.cursor.rest = ts ++ k) :
    item s = statement s := by
  cases h
  case declaration hv hsemi =>
    exact hv.item_eq (k := k) (by simpa using hs) (by simp [hsemi])
  case simple hsimple hsemi =>
    have hs := hs.trans (append_assoc ..)
    exact hsimple.item_eq hs (hsimple.not_declaration hs (by simp [hsemi]))
  case inner hb =>
    cases hb
    case braces ho _ _ => exact item_eq_of_leads hs (by simp [ho, leads]) (by simp [ho])
  all_goals exact item_eq_of_leads hs (by simp [*, leads]) (by simp [*])

theorem Written.head (h : Written loose .statement ts body) :
    ∃ t rest, ts = t :: rest ∧ t.kind ≠ .elseKw ∧ t.kind ≠ .rightBrace := by
  cases h
  case declaration hv _ =>
    obtain ⟨t, rest, rfl, -, -, hb, he⟩ := hv.head
    exact ⟨t, _, rfl, he, hb⟩
  case simple hs _ =>
    obtain ⟨t, rest, rfl, -, -, -, -, -, hb, he⟩ := hs.head
    exact ⟨t, _, rfl, he, hb⟩
  case inner hb =>
    cases hb
    case braces ho _ _ => exact ⟨_, _, rfl, by simp [ho]⟩
  all_goals exact ⟨_, _, rfl, by simp [*]⟩

theorem ne_of_typeOf? (h : typeOf? t = some type) : t.kind ≠ .elseKw ∧ t.kind ≠ .rightBrace := by
  constructor <;> intro hk <;> simp [typeOf?, hk] at h

theorem WrittenMember.head (h : WrittenMember loose ts m) :
    ∃ t rest, ts = t :: rest ∧ t.kind ≠ .elseKw ∧ t.kind ≠ .rightBrace := by
  cases h
  case field ht _ _ _ => exact ⟨_, _, rfl, ne_of_typeOf? ht⟩
  case constant hw _ _ _ _ _ => exact ⟨_, _, rfl, by simp [hw]⟩
  case method hr =>
    obtain ⟨ht, -⟩ := hr
    exact ⟨_, _, rfl, ne_of_typeOf? ht⟩
  case staticMethod hw _ => exact ⟨_, _, rfl, by simp [hw]⟩

theorem WrittenItem.head (h : WrittenItem loose ts stmt) :
    ∃ t rest, ts = t :: rest ∧ t.kind ≠ .elseKw := by
  cases h
  case classDef hw _ _ _ _ => exact ⟨_, _, rfl, by simp [hw]⟩
  case routine hr =>
    obtain ⟨ht, -⟩ := hr
    exact ⟨_, _, rfl, (ne_of_typeOf? ht).1⟩
  case staticRoutine hw _ => exact ⟨_, _, rfl, by simp [hw]⟩
  case statement hst =>
    obtain ⟨t, rest, rfl, he, -⟩ := hst.head
    exact ⟨t, rest, rfl, he⟩

abbrev MemberPiece :=
  Piece member Member.unnumbered Member.unmarked (· = .rightBrace)

abbrev ItemRecurs (after : List Token) :=
  Recurs item Stmt.unnumbered Stmt.unmarked fun k => NoElse after → NoElse k

-- What is done to the members of a class is done to its fields and to its methods.
theorem filterMap_members {β : Type} {f : Member → Member} {p : Member → Option β} {g : β → β}
    (h : ∀ m, p (f m) = (p m).map g) (members : List Member) :
    (members.filterMap p).map g = (members.map f).filterMap p := by
  rw [filterMap_map, map_filterMap]
  congr
  exact funext fun m => (h m).symm

namespace ItemRecurs

variable {after : List Token}

theorem classDef {ms : List Token} {o c : Token} {members : List Member}
    (hw : word.kind = .classKw) (hn : name.kind = .identifier) (ho : o.kind = .leftBrace)
    (hms : Sequence MemberPiece ms members) (hc : c.kind = .rightBrace) :
    ItemRecurs after (word :: name :: o :: ms ++ [c]) (.classDef loc name.text
      (members.filterMap (·.field?)) (members.filterMap (·.method?))) := by
  obtain ⟨xs, hxs, hloops⟩ := hms.again_closed hc
  refine ⟨.classDef word.loc name.text (xs.filterMap (·.field?)) (xs.filterMap (·.method?)), ?_,
    fun s k hs _ => ?_⟩
  · simp only [Stmt.unmarked, unmarkedFields_eq, unmarkedIn_eq,
      filterMap_members (p := (·.field?)) (f := Member.unmarked) (fun m => by cases m <;> rfl),
      filterMap_members (p := (·.method?)) (f := Member.unmarked) (fun m => by cases m <;> rfl),
      hxs]
  unfold item
  obtain ⟨s₁, h₁, hnext, hs₁, hq₁⟩ := next_eq hs
  simp only [hnext, hw]
  refine .within _ (.behind hq₁ ?_)
  unfold classDefinition
  refine (expect_gives hs₁ hn).bind fun name' s₂ _ hs₂ hname => ?_
  refine (expect_gives hs₂ ho).extend fun _ s₃ h₃ hs₃ _ => ?_
  obtain ⟨hrest, hq, hall⟩ := hloops _ members_steps.rounds s₃ k (.unclosedClass name'.text)
    (by simpa using hs₃)
  refine ⟨hrest, hq, ?_⟩
  simp only [Stmt.unnumbered, unnumberedFields_eq, unnumberedIn_eq, hname, ← hall,
    filterMap_members (p := (·.field?)) (f := Member.unnumbered) (fun m => by cases m <;> rfl),
    filterMap_members (p := (·.method?)) (f := Member.unnumbered) (fun m => by cases m <;> rfl)]
  rfl

theorem routine (hr : WrittenRoutine loose true ts stmt) (h : RoutineRecurs true ts stmt) :
    ItemRecurs after ts stmt := by
  rcases hr with @⟨_, type, _, _, _, _, _, ht, hn, ⟨ho, -⟩⟩
  obtain ⟨x, hx, hagain⟩ := h type.loc
  refine ⟨x, hx, fun s k hs _ => ?_⟩
  have hopens : s.cursor.opensRoutine = true := by
    simp [Cursor.opensRoutine, opensDeclaration_eq_true hs ht hn, Cursor.ahead?, hs, ho]
  obtain ⟨s₁, h₁, hnext, -⟩ := next_eq hs
  have hword := not_word_of_typeOf? ht
  rw [item_eq hnext hword.1 hword.2, if_pos hopens]
  exact hagain s k hs trivial

theorem staticRoutine (hw : word.kind = .staticKw) (h : RoutineRecurs true ts stmt) :
    ItemRecurs after (word :: ts) stmt := by
  obtain ⟨x, hx, hagain⟩ := h word.loc
  refine ⟨x, hx, fun s k hs _ => ?_⟩
  obtain ⟨s₁, h₁, hnext, hs₁, hq₁⟩ := next_eq hs
  unfold item
  simp only [hnext, hw]
  exact .within _ (.behind hq₁ (hagain s₁ k hs₁ trivial))

theorem statement (hst : Written loose .statement ts [stmt]) (h : StatementRecurs after ts stmt) :
    ItemRecurs after ts stmt := by
  obtain ⟨x, hx, hagain⟩ := h
  refine ⟨x, hx, fun s k hs hk => ?_⟩
  rw [hst.item_eq hs]
  exact hagain s k hs hk

end ItemRecurs

end Lumen.Grammar
