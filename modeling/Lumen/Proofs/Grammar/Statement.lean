import Lumen.Proofs.Grammar.Expression
import Lumen.Proofs.Grammar.Rereading.Items

namespace Lumen.Grammar

open List State

open Token (Kind)

variable {W : String → Prop}

abbrev GoodOption (W : String → Prop) := Good (FormedOption W) idsOfOption placesOfOption

abbrev GoodStmt (W : String → Prop) := Good (Stmt.Formed W) Stmt.ids Stmt.places

abbrev GoodStep (W : String → Prop) := Good (FormedStep W) idsInStep placesInStep

abbrev GoodBody (W : String → Prop) := Good (FormedBody W) idsIn placesIn

theorem GoodBody.push {lo : Nat} {used more : List Token} {s s' : State} {body : List Stmt}
    (hb : GoodBody W lo used s body) (hs : GoodStmt W s.fresh more s' stmt) (hl : lo ≤ s.fresh)
    (hf : s.fresh ≤ s'.fresh) : GoodBody W lo (used ++ more) s' (body ++ [stmt]) := by
  refine Good.push (fun h h' => ?_) (fun _ _ => ?_) (fun _ _ => ?_) hb hs hl hf
  · simpa [formedBody_iff, or_imp, forall_and] using ⟨formedBody_iff.mp h, h'⟩
  · simp [idsIn_append, idsIn]
  · simp [placesIn_append, placesIn]

theorem State.Reads.peek {s : State} (h : s.Reads (t :: more) s' l) : s.peek = t := by
  simp [State.peek, Cursor.peek, h.rest]

theorem GoodExpr.target {s : State} (h : GoodExpr W r lo used s' e) (hr : s.Reads used s' l) :
    Placed used ((if e.start = s.peek.loc then [] else [s.peek.loc]) ++ e.places) := by
  obtain ⟨t, more, rfl, hopens⟩ := h.opens
  rw [hr.peek]
  split
  case isTrue => exact h.placed
  case isFalse hne => exact (hopens.resolve_left hne).cons

theorem isBrace_of_assignmentOp? (h : assignmentOp? kind = some op) : isBrace kind = false := by
  cases kind <;> first | rfl | cases h

theorem isStart_of_isUpdate {stmt : Stmt} (h : stmt.isUpdate) : stmt.isStart := by
  cases stmt <;> simp_all [Stmt.isUpdate, Stmt.isStart]

theorem assigns_of_assignmentOp? (h : assignmentOp? k = some op) : ∀ o ∈ op, o.assigns := by
  unfold assignmentOp? at h
  split at h <;> simp_all <;> subst h <;> simp [BinaryOp.assigns]

theorem simple_meets (s : State) (hw : s.Worded W) :
    (simple s).Meets s (fun used s' stmt =>
      stmt.isUpdate ∧ GoodStmt W s.fresh used s' stmt ∧ Simple used stmt ∧
        Stops stmt s'.cursor.rest) l w := by
  unfold simple
  refine (expression_stops s hw).extend fun used target s₁ h₁ hr₁ ht => ?_
  obtain ⟨ht, hends⟩ := ht
  have evaluated (hclose : Closes s₁.cursor.rest) : (Stmt.evaluate s.peek.loc target).isUpdate ∧
      GoodStmt W s.fresh (used ++ []) s₁ (.evaluate s.peek.loc target) ∧
      Simple (used ++ []) (.evaluate s.peek.loc target) ∧
      Stops (.evaluate s.peek.loc target) s₁.cursor.rest :=
    ⟨rfl, ⟨ht.formed, ht.ids, ht.placed.left⟩, by simpa using .evaluate ht.phrase, hclose⟩
  split
  case h_1 hn => exact ⟨[], .refl s₁, evaluated (.of_nothing hn)⟩
  case h_2 t s₂ h₂ hn =>
    split
    case h_1 ho => exact ⟨[], .refl s₁, evaluated (.of_next hends hn ho)⟩
    case h_2 op ho =>
      obtain ⟨hr₂, _, hf₂⟩ := next_token hn (isBrace_of_assignmentOp? ho) l
      split
      case isFalse => exact .within _ fail_meets
      case isTrue hi =>
        refine .within _ (.behind hr₂ (.map ?_))
        refine (expression_stops s₂ (hr₂.worded (hr₁.worded hw))).weaken fun _ s₃ value hr hv => ?_
        obtain ⟨hv, hends⟩ := hv
        refine ⟨rfl, ⟨⟨hi, assigns_of_assignmentOp? ho, ht.formed, hv.formed⟩, ?_, ?_⟩, ?_, hends⟩
        · exact ht.ids.append (hf₂ ▸ hv.ids) hr₁.fresh (hf₂ ▸ hr.fresh)
        · exact (ht.target hr₁).append hv.placed.right
        · exact .assign ht.phrase hi ho hv.phrase

theorem initializer_meets (s : State) (h : s.left < n) (hw : s.Worded W) :
    (initializer s h).Meets s (fun used s' init =>
      GoodOption W s.fresh used s' init ∧ Initializer used init) l w := by
  unfold initializer
  split
  case h_1 => exact ⟨[], .refl s, ⟨trivial, .nil, .nil⟩, .none⟩
  case h_2 s₁ h₁ ha =>
    obtain ⟨_, hk, hr, _, hf⟩ := accept?_some ha l
    refine .within _ (.behind hr (.map ?_))
    exact (expression_meets s₁ (hr.worded hw)).weaken fun _ s' e _ he =>
      ⟨⟨he.formed, hf ▸ he.ids, he.placed.right⟩, .some hk he.phrase⟩

theorem variableHead_meets (s : State) (hw : s.Worded W) :
    (variableHead s).Meets s (fun used s' stmt =>
      stmt.isStart ∧ GoodStmt W s.fresh used s' stmt ∧ VariableHead used stmt) l w := by
  unfold variableHead
  split
  case h_1 s₁ h₁ ha =>
    obtain ⟨_, hword, hr₁, hp, hf₁⟩ := accept?_some ha l
    have hw₁ := hr₁.worded hw
    refine .within _ (.behind hr₁ ?_)
    refine (s₁.expect_meets ..).bind fun _ name s₂ _ hr₂ hmeets => ?_
    obtain ⟨rfl, hk, _, hf₂⟩ := hmeets
    refine (s₂.expect_meets ..).bind fun _ t s₃ _ hr₃ hmeets => .map ?_
    obtain ⟨rfl, ht, _, hf₃⟩ := hmeets
    refine (expression_meets s₃ (hr₃.worded (hr₂.worded hw₁))).weaken fun _ s₄ e hr he => ?_
    have hf : s₃.fresh = s.fresh := hf₃.trans (hf₂.trans hf₁)
    refine ⟨rfl, ⟨⟨hw₁.of_next hr₂ hk, by simp, he.formed, by simp⟩, hf ▸ he.ids, ?_⟩, ?_⟩
    · rw [hp]
      exact .cons he.placed.right.right
    · exact .inferred hword hk ht he.phrase
  case h_2 =>
    refine (typeName_meets hw).bind fun _ type s₁ _ hr₁ hmeets => ?_
    obtain ⟨rfl, htype, ht, hf₁⟩ := hmeets
    have hw₁ := hr₁.worded hw
    refine (s₁.expect_meets ..).extend fun _ name s₂ h₂ hr₂ hmeets => .map ?_
    obtain ⟨rfl, hk, _, hf₂⟩ := hmeets
    refine (initializer_meets s₂ h₂ (hr₂.worded hw₁)).weaken fun _ s₃ init hr hi => ?_
    obtain ⟨hi, hinit⟩ := hi
    have hf : s₂.fresh = s.fresh := hf₂.trans hf₁
    exact ⟨rfl, ⟨⟨hw₁.of_next hr₂ hk, by simpa using ht, hi.formed, by simp⟩, hf ▸ hi.ids,
      .cons hi.placed.right⟩, .typed htype hk hinit⟩

-- A statement of the grammar that is read again, if it is read up to the state `s`.
abbrev ReadAgain (s : State) (used : List Token) (stmt : Stmt) : Prop :=
  Written true .statement used [stmt] ∧ StatementRecurs s.cursor.rest used stmt

abbrev ReadStmt (W : String → Prop) (s : State) (used : List Token) (s' : State) (stmt : Stmt) :
    Prop :=
  GoodStmt W s.fresh used s' stmt ∧ (s.Quiet s' → ReadAgain s' used stmt)

abbrev ReadBehind (W : String → Prop) (word : Token) (s : State) (used : List Token) (s' : State)
    (stmt : Stmt) : Prop :=
  GoodStmt W s.fresh (word :: used) s' stmt ∧ (s.Quiet s' → ReadAgain s' (word :: used) stmt)

theorem variableDeclaration_meets (s : State) (hw : s.Worded W) :
    (variableDeclaration s).Meets s (ReadStmt W s) inner w := by
  unfold variableDeclaration
  refine (variableHead_meets s hw).bind fun _ stmt s₁ _ hr₁ hg => .map ?_
  refine (s₁.semicolon_meets _).weaken fun _ s₂ _ hr₂ hmeets => ?_
  obtain ⟨semi, rfl, hsemi, -⟩ := hmeets
  exact ⟨hg.2.1.later hr₂.fresh, fun _ => ⟨.declaration hg.2.2 hsemi, .declaration hg.2.2 hsemi⟩⟩

theorem constantDeclaration_meets (word : Token) (s : State) (hword : word.kind = .constKw)
    (hw : s.Worded W) :
    (constantDeclaration word.loc s).Meets s (ReadBehind W word s) inner w := by
  unfold constantDeclaration
  refine (typeName_meets hw).bind fun _ type s₁ _ hr₁ hmeets => ?_
  obtain ⟨rfl, htype, ht, hf₁⟩ := hmeets
  have hw₁ := hr₁.worded hw
  refine (s₁.expect_meets ..).bind fun _ name s₂ _ hr₂ hmeets => ?_
  obtain ⟨rfl, hk, _, hf₂⟩ := hmeets
  split
  case h_1 =>
    refine ⟨⟨[], .refl s₂⟩, .inr ⟨rfl, rfl, rfl, ⟨name, by simp [hr₂.before], rfl, ?_⟩, by simp⟩⟩
    rintro ⟨⟩
  case h_2 s₃ h₃ ha =>
    obtain ⟨_, hassign, hr₃, _, hf₃⟩ := accept?_some ha
    refine .within _ (.behind hr₃ ?_)
    refine (expression_meets s₃ (hr₃.worded (hr₂.worded hw₁))).bind fun _ value s₄ _ hr₄ hv =>
      .map ?_
    refine (s₄.semicolon_meets _).weaken fun _ s₅ _ hr₅ hmeets => ?_
    obtain ⟨semi, rfl, hsemi, -⟩ := hmeets
    have hf : s₃.fresh = s.fresh := hf₃.trans (hf₂.trans hf₁)
    refine ⟨⟨⟨hw₁.of_next hr₂ hk, ht, hv.formed⟩, ?_, ?_⟩, fun _ => ?_⟩
    · exact hf ▸ hv.ids.widen (Nat.le_refl _) hr₅.fresh
    · exact .cons hv.placed.left.right.right.right
    · exact ⟨.constant hword htype hk hassign hv.phrase hsemi,
        .constant hword htype hk hassign hv.phrase hsemi⟩

theorem upToSemicolon_meets {α : Type} {rule : (s : State) → Reply α s.left}
    {P : List Token → State → α → Prop} (hr : (rule s).Meets s P silent true) :
    (upToSemicolon rule context s).Meets s (fun used s' o =>
      ∃ ts t s₁, used = ts ++ [t] ∧ t.kind = .semicolon ∧ s₁.fresh ≤ s'.fresh ∧
        Optional (P · s₁ ·) ts o) l true := by
  unfold upToSemicolon
  split
  case isTrue =>
    refine .map ((s.semicolon_meets _).weaken fun _ s₁ _ _ hmeets => ?_)
    obtain ⟨t, rfl, ht, -⟩ := hmeets
    exact ⟨[], t, s₁, rfl, ht, Nat.le_refl _, .none⟩
  case isFalse =>
    refine hr.bind fun used a s₁ _ _ ha => .map ?_
    refine (s₁.semicolon_meets _).weaken fun _ s₂ _ hr₂ hmeets => ?_
    obtain ⟨t, rfl, ht, -⟩ := hmeets
    exact ⟨used, t, s₁, rfl, ht, hr₂.fresh, .some ha⟩

theorem headerStart_meets (s : State) (hw : s.Worded W) :
    (headerStart s).Meets s (fun used s' stmt =>
      stmt.isStart ∧ GoodStmt W s.fresh used s' stmt ∧ Start used stmt) l w := by
  unfold headerStart
  split
  case isTrue =>
    exact (variableHead_meets s hw).weaken fun _ _ _ _ h => ⟨h.1, h.2.1, .declaration h.2.2⟩
  case isFalse =>
    exact (simple_meets s hw).weaken fun _ _ _ _ h =>
      ⟨isStart_of_isUpdate h.1, h.2.1, .simple h.2.2.1⟩

namespace Optional

variable {lo : Nat} {ts : List Token} {t : Token} {s s₁ : State}

theorem expr (h : Optional (GoodExpr W (.level levels) lo · s₁ ·) ts e) (hf : s₁.fresh ≤ s.fresh) :
    GoodOption W lo (ts ++ [t]) s e ∧ Optional Expression ts e := by
  cases h
  case none => exact ⟨⟨trivial, .nil, .nil⟩, .none⟩
  case some he =>
    have hgood : GoodOption W lo ts s₁ (Option.some _) := ⟨he.formed, he.ids, he.placed⟩
    exact ⟨hgood.later hf, .some he.phrase⟩

theorem start
    (h : Optional (fun ts stmt => stmt.isStart ∧ GoodStmt W lo ts s₁ stmt ∧ Start ts stmt) ts init)
    (hf : s₁.fresh ≤ s.fresh) :
    (∀ stmt ∈ init, stmt.isStart) ∧ GoodStep W lo (ts ++ [t]) s init ∧ Optional Start ts init := by
  cases h
  case none => exact ⟨by simp, ⟨trivial, .nil, .nil⟩, .none⟩
  case some hs =>
    obtain ⟨hstart, hg, hs⟩ := hs
    have hgood : GoodStep W lo ts s₁ (Option.some _) := ⟨hg.formed, hg.ids, hg.placed⟩
    exact ⟨by simpa using hstart, hgood.later hf, .some hs⟩

end Optional

def FormedHeader (W : String → Prop) (header : Header) : Prop :=
  (∀ stmt ∈ header.1, stmt.isStart) ∧ FormedStep W header.1 ∧ FormedOption W header.2.1 ∧
    (∀ stmt ∈ header.2.2, stmt.isUpdate) ∧ FormedStep W header.2.2

abbrev GoodHeader (W : String → Prop) :=
  Good (FormedHeader W) (fun h => idsInStep h.1 ++ idsOfOption h.2.1 ++ idsInStep h.2.2)
    fun h => placesInStep h.1 ++ placesOfOption h.2.1 ++ placesInStep h.2.2

theorem bareHeader_meets (s : State) (hw : s.Worded W) :
    (bareHeader s).Meets s (fun used s' header =>
      GoodHeader W s.fresh used s' header ∧ HeaderParts used header ∧
        (s'.cursor.rest ≠ [] → HeaderStops header s'.cursor.rest)) l true := by
  unfold bareHeader
  refine (upToSemicolon_meets (headerStart_meets s hw)).bind fun _ init s₁ _ hr₁ hmeets => ?_
  obtain ⟨is, first, _, rfl, hfirst, hf₁, hi⟩ := hmeets
  obtain ⟨hstart, hinit, his⟩ := hi.start (t := first) hf₁
  have hw₁ := hr₁.worded hw
  refine (upToSemicolon_meets (expression_meets s₁ hw₁)).extend fun _ cond s₂ h₂ hr₂ hmeets => ?_
  obtain ⟨cs, second, _, rfl, hsecond, hf₂, hc⟩ := hmeets
  obtain ⟨hcond, hcs⟩ := hc.expr (t := second) hf₂
  have hids := hinit.ids.append hcond.ids hr₁.fresh hr₂.fresh
  have hfront := hinit.placed.append hcond.placed
  split
  case isTrue hpeek =>
    refine ⟨[], .refl s₂,
      ⟨⟨hstart, hinit.formed, hcond.formed, by simp, trivial⟩, ?_, ?_⟩, ?_, fun hne => ?_⟩
    · simpa [idsInStep] using hids
    · simpa [placesInStep] using hfront
    · simpa using HeaderParts.parts his hfirst hcs hsecond .none
    · obtain ⟨t, rest, hrest⟩ := exists_cons_of_ne_nil hne
      exact ⟨t, by simp [hrest], by simpa [peek_eq hrest] using hpeek⟩
  case isFalse =>
    refine .within _ (.map ?_)
    refine (simple_meets s₂ (hr₂.worded hw₁)).weaken fun _ s₃ update hr₃ hu => ?_
    obtain ⟨hupdate, hgood, hus, hstops⟩ := hu
    refine ⟨⟨⟨hstart, hinit.formed, hcond.formed, by simpa using hupdate, hgood.formed⟩,
      ?_, ?_⟩, ?_, fun _ => hstops⟩
    · exact hids.append hgood.ids (Nat.le_trans hr₁.fresh hr₂.fresh) hr₃.fresh
    · rw [← append_assoc]
      exact hfront.append hgood.placed
    · simpa using HeaderParts.parts his hfirst hcs hsecond (.some hus)

abbrev ReadHeader (W : String → Prop) (s : State) (used : List Token) (s' : State)
    (header : Header) : Prop :=
  GoodHeader W s.fresh used s' header ∧ LoopHeader true used header ∧
    (s'.cursor.rest ≠ [] → Recurs Grammar.header unnumberedHeader unmarkedHeader
      (·.head? = s'.cursor.rest.head?) used header)

theorem parenthesizedHeader_meets (s : State) (hw : s.Worded W) :
    (parenthesizedHeader s).Meets s (ReadHeader W s) l w := by
  unfold parenthesizedHeader
  refine (s.expect_meets ..).bind fun _ _ s₁ _ hr₁ hmeets => ?_
  obtain ⟨rfl, ho, _, hf₁⟩ := hmeets
  refine (bareHeader_meets s₁ (hr₁.worded hw)).bind fun _ header s₂ _ hr₂ hh => .map ?_
  refine (s₂.expect_meets ..).weaken fun _ s₃ _ hr₃ hmeets => ?_
  obtain ⟨rfl, hc, -⟩ := hmeets
  exact ⟨(hh.1.later hr₃.fresh).earlier (Nat.le_of_eq hf₁.symm), .parenthesized ho hh.2.1 hc,
    fun _ => (hh.2.1.recurs_parenthesized ho hc).weaken fun _ _ => trivial⟩

theorem header_meets (s : State) (hw : s.Worded W) :
    (header s).Meets s (ReadHeader W s) l true := by
  have first := parenthesizedHeader_meets (l := silent) (w := true) s hw
  unfold header
  split
  case h_1 header s₁ h₁ hx =>
    rw [hx] at first
    exact first.loud
  case h_2 f s₁ h₁ hx =>
    rw [hx] at first
    obtain ⟨⟨_, hr⟩, he⟩ := first
    refine .orRewind (.after (.rewound hr rfl ?_) (he.of_quiet hr.way.quiet.symm))
    refine (bareHeader_meets (s₁.rewind s.cursor) hw).weaken fun used _ _ _ hh => ?_
    rw [← nil_append used]
    exact ⟨hh.1.earlier hr.fresh, .bare rfl hh.2.1,
      fun hne => hh.2.1.recurs_bare.weaken fun _ => (hh.2.2 hne).of_head?⟩

theorem simpleStatement_meets (s : State) (hw : s.Worded W) :
    (simpleStatement s).Meets s (ReadStmt W s) inner w := by
  unfold simpleStatement
  refine (simple_meets s hw).bind fun _ stmt s₁ _ _ hg => .map ?_
  refine (s₁.semicolon_meets _).weaken fun _ s₂ _ hr₂ hmeets => ?_
  obtain ⟨semi, rfl, hsemi, -⟩ := hmeets
  exact ⟨hg.2.1.later hr₂.fresh, fun _ => ⟨.simple hg.2.2.1 hsemi, .simple hg.2.2.1 hsemi⟩⟩

theorem resultValue_meets (word : Token) (s : State) (hword : word.kind = .returnKw)
    (hw : s.Worded W) : (resultValue word.loc s).Meets s (ReadBehind W word s) inner true := by
  unfold resultValue
  refine .map ((upToSemicolon_meets (expression_meets s hw)).weaken fun _ s' _ _ hmeets => ?_)
  obtain ⟨vs, semi, _, rfl, hsemi, hf, hv⟩ := hmeets
  obtain ⟨hvalue, hvs⟩ := hv.expr (t := semi) hf
  exact ⟨⟨hvalue.formed, hvalue.ids, hvalue.placed.cons⟩,
    fun _ => ⟨.result hword hvs hsemi, .result hword hvs hsemi⟩⟩

theorem lone_meets {stmt : Stmt} {word : Token} (s : State) (hf : stmt.Formed W)
    (hi : stmt.ids = []) (hp : stmt.places = [word.loc])
    (hstmt : ∀ {s : State} {semicolon : Token}, semicolon.kind = .semicolon →
      ReadAgain s [word, semicolon] stmt) :
    (lone stmt context s).Meets s (ReadBehind W word s) inner true := by
  unfold lone
  refine .map ((s.semicolon_meets _).weaken fun _ _ _ _ hmeets => ?_)
  obtain ⟨semi, rfl, hsemi, -⟩ := hmeets
  exact ⟨⟨hf, hi ▸ .nil, hp ▸ .head rfl⟩, fun _ => hstmt hsemi⟩

abbrev WrittenStmt (ts : List Token) (stmt : Stmt) : Prop :=
  Written true .statement ts [stmt] ∧ StatementPiece ts stmt

theorem ReadAgain.written {s : State} (h : ReadAgain s used stmt) : WrittenStmt used stmt := by
  obtain ⟨t, rest, rfl, he, hb⟩ := h.1.head
  exact ⟨h.1, ⟨t, rest, rfl, by simpa using hb, he⟩, h.2.weaken fun _ hk _ => hk⟩

theorem Written.of_sequence {stmts : List Stmt} (h : Sequence WrittenStmt ts stmts) :
    Written true .sequence ts stmts := by
  induction h
  case nil => exact .nil
  case cons hfirst _ ih => exact .cons hfirst.1 ih

theorem statements_collect
    (h : ∀ s : State, s.left ≤ n → s.Worded W → (statement s).Meets s (ReadStmt W s)) :
    Collects W statement (GoodStmt W) (GoodBody W) WrittenStmt (Sequence WrittenStmt) n where
  rule s hs hw := (h s hs hw).weaken fun _ _ _ _ hg => ⟨hg.1, fun hq => (hg.2 hq).written⟩
  nil _ := ⟨trivial, .nil, .nil⟩
  push := GoodBody.push
  later := Good.later
  none := .nil
  next := Sequence.push

mutual

theorem statement_meets (s : State) (hw : s.Worded W) :
    (statement s).Meets s (ReadStmt W s) inner w := by
  rw [statement]
  split
  case h_1 => exact simpleStatement_meets s hw
  case h_2 t s₁ h₁ hn =>
    have hw₁ := hw.of_passes (next_passes hn).1
    -- All but the last few begin with a word of their own.
    have past {r : Reply Stmt s₁.left} {word : Kind} (hk : t.kind = word)
        (hr : r.Meets s₁ (ReadBehind W t s₁) inner true) (hb : isBrace word = false := by rfl) :
        (r.within (Nat.le_of_lt h₁)).Meets s (ReadStmt W s) inner w := by
      obtain ⟨hr₁, _, hf₁⟩ := next_token hn (hk ▸ hb) silent
      refine .within _ (.past hr₁ h₁ (hr.weaken fun _ _ _ hr₂ hg => ?_))
      exact ⟨hf₁ ▸ hg.1, fun hq => hg.2 (hr₁.quiet hr₂ hq).2⟩
    split
    case h_1 hk =>
      obtain ⟨used, hr, hg, hb⟩ := block_reads s hn hk hw
      exact ⟨_, hr, ⟨hg.formed, hg.ids, hg.placed.behind⟩,
        fun hq => ⟨.inner (hb hq).1, .inner hk (hb hq).2⟩⟩
    case h_2 hk => exact past hk (branch_meets t t.loc s₁ hk hw₁)
    case h_3 hk => exact past hk (whileLoop_meets t t.loc s₁ hk hw₁)
    case h_4 hk => exact past hk (forLoop_meets t t.loc s₁ hk hw₁)
    case h_5 hk => exact past hk (resultValue_meets t s₁ hk hw₁)
    case h_6 hk =>
      exact past hk (lone_meets s₁ trivial rfl rfl fun h => ⟨.breakLoop hk h, .breakLoop hk h⟩)
    case h_7 hk =>
      exact past hk (lone_meets s₁ trivial rfl rfl fun h =>
        ⟨.continueLoop hk h, .continueLoop hk h⟩)
    case h_8 hk => exact past hk (constantDeclaration_meets t s₁ hk hw₁)
    case h_9 => exact variableDeclaration_meets s hw
    case h_10 => exact fail_meets
    case h_11 =>
      split
      · exact variableDeclaration_meets s hw
      · exact simpleStatement_meets s hw
termination_by 4 * s.left + 1

theorem body_meets (s : State) (hw : s.Worded W) :
    (body s).Meets s (fun used s' body => GoodBody W s.fresh used s' body ∧
      (s.Quiet s' → Written true .body used body ∧ BodyRecurs s'.cursor.rest used body ∧
        used ≠ [])) inner w := by
  rw [body]
  split
  case h_1 ha =>
    refine .map ((statement_meets s hw).weaken fun _ s' _ hr hg => ?_)
    refine ⟨⟨⟨hg.1.formed, trivial⟩, ?_, ?_⟩, fun hq => ?_⟩
    · simpa [idsIn] using hg.1.ids
    · simpa [placesIn] using hg.1.placed
    · obtain ⟨hwritten, hrecurs⟩ := hg.2 hq
      obtain ⟨t, rest, rfl, -⟩ := hwritten.head
      have ht : t.kind ≠ .leftBrace := head_of_accept?_eq_none ha t (by simp [hr.rest])
      exact ⟨.single rfl hwritten, .single hrecurs ht, by simp⟩
  case h_2 s₁ h₁ ha =>
    obtain ⟨o, hn, ho⟩ := next_of_accept? ha
    obtain ⟨used, hr, hg, hb⟩ := block_reads s hn ho hw
    have hbody : GoodBody W s.fresh ([o] ++ used) _ _ := hg.earlier (Nat.le_refl _)
    exact ⟨_, hr, hbody, fun hq => ⟨.braced (hb hq).1, .braced ho (hb hq).2, by simp⟩⟩
termination_by 4 * s.left + 2

theorem branch_meets (word : Token) (loc : Location) (s : State) (hword : word.kind = .ifKw)
    (hw : s.Worded W) : (branch loc s).Meets s (ReadBehind W word s) inner w := by
  rw [branch]
  refine (expression_stops s hw).bind fun cs cond s₁ _ hr₁ hc => ?_
  obtain ⟨hc, hends⟩ := hc
  have hw₁ := hr₁.worded hw
  refine (body_meets s₁ hw₁).extend fun bs thenBody s₂ h₂ hr₂ hmeets => ?_
  obtain ⟨ht, hthen⟩ := hmeets
  rw [hr₂.rest] at hends
  have hids := hc.ids.append ht.ids hr₁.fresh hr₂.fresh
  have hplaced := (hc.placed.append ht.placed).behind (t := word)
  split
  case h_1 ha =>
    refine ⟨[], .refl s₂, ⟨⟨hc.formed, ht.formed, trivial⟩, ?_, ?_⟩, fun hq => ?_⟩
    · simpa [Stmt.ids, idsInElse] using hids
    · simpa [Stmt.places, placesInElse] using hplaced
    · obtain ⟨hbody, hrecurs, hne⟩ := hthen (hr₁.quiet hr₂ hq).2
      rw [append_nil]
      exact ⟨.branch hword hc.phrase hbody,
        .branch hword (Expression.recurs_condition hc.phrase hends hne) hrecurs hne
          (head_of_accept?_eq_none ha)⟩
  case h_2 s₃ h₃ ha =>
    obtain ⟨t, hk, hr₃, _, hf₃⟩ := accept?_some ha
    refine .within _ (.behind hr₃ (.map ?_))
    refine (body_meets s₃ (hr₃.worded (hr₂.worded hw₁))).weaken fun es s₄ elseBody hr₄ he => ?_
    obtain ⟨he, helse⟩ := he
    refine ⟨⟨⟨hc.formed, ht.formed, he.formed⟩, ?_, ?_⟩, fun hq => ?_⟩
    · exact hids.append (hf₃ ▸ he.ids) (Nat.le_trans hr₁.fresh hr₂.fresh) (hf₃ ▸ hr₄.fresh)
    · simpa [Stmt.places, placesInElse] using hplaced.append he.placed.behind
    · obtain ⟨hq₂, hq₄⟩ := (hr₁.loud.trans hr₂).quiet (hr₃.trans hr₄) hq
      obtain ⟨hbody, hrecurs, hne⟩ := hthen (hr₁.quiet hr₂ hq₂).2
      obtain ⟨hbody', hrecurs', -⟩ := helse (hr₃.quiet hr₄ hq₄).2
      rw [hr₃.rest, hr₄.rest] at hrecurs
      rw [← append_assoc]
      exact ⟨.branchElse hword hc.phrase hbody hk hbody',
        .branchElse hword (Expression.recurs_condition hc.phrase hends hne) hrecurs hne hk hrecurs'⟩
termination_by 4 * s.left

theorem whileLoop_meets (word : Token) (loc : Location) (s : State) (hword : word.kind = .whileKw)
    (hw : s.Worded W) : (whileLoop loc s).Meets s (ReadBehind W word s) inner w := by
  rw [whileLoop]
  refine (expression_stops s hw).bind fun _ cond s₁ _ hr₁ hc => .map ?_
  obtain ⟨hc, hends⟩ := hc
  refine (body_meets s₁ (hr₁.worded hw)).weaken fun _ s₂ body hr₂ hb => ?_
  refine ⟨⟨⟨hc.formed, hb.1.formed⟩, hc.ids.append hb.1.ids hr₁.fresh hr₂.fresh,
    (hc.placed.append hb.1.placed).behind⟩, fun hq => ?_⟩
  obtain ⟨hbody, hrecurs, hne⟩ := hb.2 (hr₁.quiet hr₂ hq).2
  rw [hr₂.rest] at hends
  exact ⟨.whileLoop hword hc.phrase hbody,
    .whileLoop hword (Expression.recurs_condition hc.phrase hends hne) hrecurs hne⟩
termination_by 4 * s.left

theorem forLoop_meets (word : Token) (loc : Location) (s : State) (hword : word.kind = .forKw)
    (hw : s.Worded W) : (forLoop loc s).Meets s (ReadBehind W word s) inner true := by
  rw [forLoop]
  refine (header_meets s hw).bind fun _ header s₁ _ hr₁ hh => ?_
  obtain ⟨init, cond, update⟩ := header
  obtain ⟨hh, hheader, hagain⟩ := hh
  obtain ⟨hstart, hinit, hcond, hisUpdate, hupdate⟩ := hh.formed
  refine .map ((body_meets s₁ (hr₁.worded hw)).weaken fun _ s₂ body hr₂ hb => ?_)
  refine ⟨⟨⟨hstart, hinit, hcond, hisUpdate, hupdate, hb.1.formed⟩,
    hh.ids.append hb.1.ids hr₁.fresh hr₂.fresh,
    (hh.placed.append hb.1.placed).behind⟩, fun hq => ?_⟩
  obtain ⟨hbody, hrecurs, hne⟩ := hb.2 (hr₁.quiet hr₂ hq).2
  rw [hr₂.rest, head?_append_left hne] at hagain
  exact ⟨.forLoop hword hheader hbody, .forLoop hword (hagain (by simp [hne])) hrecurs hne⟩
termination_by 4 * s.left

theorem block_reads (s : State) {shorter : s₁.left < s.left} (hn : s.next = .token t s₁ shorter)
    (ht : t.kind = .leftBrace) (hw : s.Worded W) :
    ∃ used, s.Reads (t :: used) (block s₁).2.1 ∧
      GoodBody W s.fresh used (block s₁).2.1 (block s₁).1 ∧
      (s.Quiet (block s₁).2.1 → Written true .block (t :: used) (block s₁).1 ∧
        BlockRecurs used (block s₁).1) := by
  rw [block]
  obtain ⟨used, hr, hg, hb⟩ := statements_steps.rounds.reads_braced hn ht .unclosedBlock
    (fun _ => rfl) statement_repeated
    (statements_collect fun s' _ hw' => statement_meets s' hw') hw
  refine ⟨used, hr, hg, fun hq => ?_⟩
  obtain ⟨ts, c, rfl, hc, hts⟩ := hb hq
  exact ⟨.braces ht (.of_sequence hts) hc, .braces (hts.mono fun _ _ h => h.2) hc⟩
termination_by 4 * s.left

end

end Lumen.Grammar
