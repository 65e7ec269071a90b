import Lumen.Proofs.Grammar.Item

namespace Lumen.Grammar

open List

open Token (Kind)

variable {t : Token} {ts : List Token} {e : Expr} {r : Rank}

def NoEnd (ts : List Token) : Prop :=
  ∀ t ∈ ts, t.kind ≠ .endMarker

@[simp] theorem noEnd_nil : NoEnd [] := by
  simp [NoEnd]

@[simp] theorem noEnd_cons : NoEnd (t :: ts) ↔ t.kind ≠ .endMarker ∧ NoEnd ts := by
  simp [NoEnd]

@[simp] theorem noEnd_append : NoEnd (ts ++ us) ↔ NoEnd ts ∧ NoEnd us := by
  simp [NoEnd, or_imp, forall_and]

-- The literals among the tokens are these, in any order, and none of the tokens is an end marker.
def Carries (ts : List Token) (values : List Literal) : Prop :=
  NoEnd ts ∧ (ts.filterMap literal?).Perm (values.map .ok)

def isMute : Kind → Bool
  | .integer | .float | .string | .trueKw | .falseKw | .nullKw | .endMarker => false
  | _ => true

theorem isMute_of_typeOf? {type : TypeName} (h : typeOf? t = some type) : isMute t.kind := by
  unfold typeOf? at h
  split at h <;> simp_all [isMute]

theorem isMute_of_operator {kind : Kind} (h : kind.category = .operator) : isMute kind := by
  cases kind <;> first | rfl | cases h

variable {values more : List Literal} {α : Type}

@[simp] theorem carries_nil : Carries [] [] :=
  ⟨noEnd_nil, .nil⟩

theorem Carries.append (h : Carries ts values) (h' : Carries us more) :
    Carries (ts ++ us) (values ++ more) :=
  ⟨noEnd_append.mpr ⟨h.1, h'.1⟩, by simpa using h.2.append h'.2⟩

theorem Carries.perm (h : Carries ts values) (hp : values.Perm more) : Carries ts more :=
  ⟨h.1, h.2.trans (hp.map _)⟩

@[simp] theorem carries_append_cons (ht : isMute t.kind) :
    Carries (ts ++ t :: us) values ↔ Carries (ts ++ us) values := by
  have hend : t.kind ≠ .endMarker := by
    intro hk
    simp [hk, isMute] at ht
  have hnone : literal? t = none := by
    unfold literal?
    split <;> simp_all [isMute]
  simp [Carries, hend, hnone]

@[simp] theorem carries_cons (ht : isMute t.kind) :
    Carries (t :: ts) values ↔ Carries ts values := by
  rw [← nil_append (t :: ts), carries_append_cons ht, nil_append]

@[simp] theorem carries_append_append_cons (ht : isMute t.kind) :
    Carries (ts ++ (us ++ t :: vs)) values ↔ Carries (ts ++ (us ++ vs)) values := by
  rw [← append_assoc, carries_append_cons ht, append_assoc]

theorem Further.carries {parts : List (List Token × α)} (h : Further (parts.map (·.1)) ts)
    (held : α → List Literal) (hp : ∀ p ∈ parts, Carries p.1 (held p.2)) :
    Carries ts ((parts.map (·.2)).flatMap held) := by
  induction parts generalizing ts <;> cases h
  case nil => exact carries_nil
  case cons ih _ _ hc hf =>
    obtain ⟨hfirst, hrest⟩ := forall_mem_cons.mp hp
    simpa +decide [hc] using hfirst.append (ih hf hrest)

theorem Separated.carries {parts : List (List Token × α)} (h : Separated (parts.map (·.1)) ts)
    (held : α → List Literal) (hp : ∀ p ∈ parts, Carries p.1 (held p.2)) :
    Carries ts ((parts.map (·.2)).flatMap held) := by
  cases parts <;> cases h
  case nil => exact carries_nil
  case cons hf =>
    obtain ⟨hfirst, hrest⟩ := forall_mem_cons.mp hp
    simpa using hfirst.append (hf.carries held hrest)

theorem literalsOf_eq (es : List Expr) : literalsOf es = es.flatMap Expr.literals := by
  induction es
  case nil => rfl
  case cons e es ih => simp [literalsOf, ih]

theorem Phrase.carries (h : Phrase r ts e) (hl : r.Listed) : Carries ts e.literals := by
  have args {parts : List (List Token × Expr)} {ts : List Token}
      (hts : Separated (parts.map (·.1)) ts)
      (ih : ∀ a ∈ parts, (Rank.level levels).Listed → Carries a.1 a.2.literals) :
      Carries ts (literalsOf (parts.map (·.2))) :=
    literalsOf_eq _ ▸ hts.carries _ fun a ha => ih a ha suffix_rfl
  induction h
  case binary hop _ ihl ihr =>
    have ht := isMute_of_operator (Rank.of_lookup hl hop).1
    simpa +decide [ht] using (ihl hl).append (ihr hl.tighter)
  case tighter ih => exact ih hl.tighter
  case unary t _ _ _ hop _ ih =>
    have ht : isMute t.kind := by
      unfold unaryOp? at hop
      split at hop <;> simp_all [isMute]
    simpa +decide [ht] using ih hl
  case ofPower ih => exact ih trivial
  case power ht _ ihl ihr => simpa +decide [ht] using (ihl trivial).append (ihr trivial)
  case ofChained ih => exact ih trivial
  case call ho _ hts hc ihf ihargs =>
    simpa +decide [ho, hc] using (ihf trivial).append (args hts ihargs)
  case member hdot hname ih => simpa +decide [hdot, hname] using ih trivial
  case invoke hdot hname ho _ hts hc ih ihargs =>
    simpa +decide [hdot, hname, ho, hc] using (ih trivial).append (args hts ihargs)
  case ofPrimary ih => exact ih trivial
  case literal hv =>
    refine ⟨noEnd_cons.mpr ⟨fun hk => ?_, noEnd_nil⟩, by simp [hv]⟩
    simp [hk, literal?] at hv
  case receiver ht => simp +decide [ht]
  case name ht => simp +decide [ht]
  case create ht htype ho _ hts hc ihargs =>
    simpa +decide [ht, ho, hc, isMute_of_typeOf? htype] using args hts ihargs
  case parenthesized ho _ hc ih => simpa +decide [ho, hc] using ih suffix_rfl

variable {body : List Stmt} {stmt : Stmt} {init : Option Expr} {loose isStatic : Bool}
  {header : Header} {m : Member} {s : State}

def Restores (ts : List Token) (body : List Stmt) : Part → Prop
  | .statement => ∃ stmt, body = [stmt] ∧ StatementRecurs [] ts stmt
  | .sequence => Sequence StatementPiece ts body
  | .block => ∃ o us, ts = o :: us ∧ o.kind = .leftBrace ∧ BlockRecurs us body
  | .body => (∃ o us, ts = o :: us ∧ o.kind = .leftBrace) ∧ ∀ after, BodyRecurs after ts body

theorem Expression.recurs_braced {cs bs : List Token} (h : Expression cs e)
    (hb : Restores bs body .body) : ConditionRecurs bs cs e ∧ bs ≠ [] := by
  obtain ⟨⟨o, us, rfl, ho⟩, -⟩ := hb
  exact ⟨h.recurs_condition (k := []) (.cons (by rw [ho]; rfl)) (by simp), by simp⟩

theorem Written.restores {part : Part} (h : Written false part ts body) :
    Restores ts body part := by
  have hnil : NoElse [] := by simp [NoElse]
  induction h
  case declaration hv hsemi => exact ⟨_, rfl, .declaration hv hsemi⟩
  case constant hw ht hn hk hv hsemi => exact ⟨_, rfl, .constant hw ht hn hk hv hsemi⟩
  case branch hw hc _ ih =>
    obtain ⟨hcond, hne⟩ := hc.recurs_braced ih
    exact ⟨_, rfl, .branch hw hcond (ih.2 _) hne hnil⟩
  case branchElse hw hc _ ho _ ih ihe =>
    obtain ⟨hcond, hne⟩ := hc.recurs_braced ih
    exact ⟨_, rfl, .branchElse hw hcond (ih.2 _) hne ho (ihe.2 _)⟩
  case whileLoop hw hc _ ih =>
    obtain ⟨hcond, hne⟩ := hc.recurs_braced ih
    exact ⟨_, rfl, .whileLoop hw hcond (ih.2 _) hne⟩
  case forLoop hw hh _ ih =>
    cases hh
    case bare => contradiction
    case parenthesized ho hc hh =>
      obtain ⟨⟨o, us, rfl, -⟩, hbody⟩ := ih
      exact ⟨_, rfl, .forLoop hw ((hh.recurs_parenthesized ho hc).weaken fun _ _ => trivial)
        (hbody _) (by simp)⟩
  case result hw hv hsemi => exact ⟨_, rfl, .result hw hv hsemi⟩
  case breakLoop hw hsemi => exact ⟨_, rfl, .breakLoop hw hsemi⟩
  case continueLoop hw hsemi => exact ⟨_, rfl, .continueLoop hw hsemi⟩
  case simple hsimple hsemi => exact ⟨_, rfl, .simple hsimple hsemi⟩
  case inner ih =>
    obtain ⟨o, us, rfl, ho, hblock⟩ := ih
    exact ⟨_, rfl, .inner ho hblock⟩
  case nil => exact .nil
  case cons stmt _ hfirst _ ih ihr =>
    obtain ⟨stmt', heq, hstmt⟩ := ih
    obtain rfl : stmt = stmt' := by simpa using heq
    obtain ⟨t, rest, rfl, he, hb⟩ := hfirst.head
    exact .cons ⟨⟨t, rest, rfl, by simpa using hb, he⟩, hstmt.weaken fun _ hk _ => hk⟩ ihr
  case braces o c _ ho _ hc ih => exact ⟨o, _, rfl, ho, .braces ih hc⟩
  case braced ih =>
    obtain ⟨o, us, rfl, ho, hblock⟩ := ih
    exact ⟨⟨o, us, rfl, ho⟩, fun _ => .braced ho hblock⟩
  case single => contradiction

theorem RoutineRest.recurs {params : List Param} (h : RoutineRest false ts params body) :
    RestRecurs ts (params, body) := by
  obtain ⟨ho, hps, hc, hb⟩ := h
  obtain ⟨b, us, rfl, hbrace, hblock⟩ := hb.restores
  exact .of_block ho hps hc hbrace hblock

theorem WrittenRoutine.recurs (h : WrittenRoutine false isStatic ts stmt) :
    RoutineRecurs isStatic ts stmt := by
  obtain ⟨ht, hn, hrest⟩ := h
  exact .of_rest ht hn hrest.recurs

theorem WrittenMember.recurs (h : WrittenMember false ts m) : MemberRecurs ts m := by
  cases h
  case field ht hn hi hsemi => exact .field ht hn hi hsemi
  case constant hw ht hn hk hv hsemi => exact .constant hw ht hn hk hv hsemi
  case method hr =>
    obtain ⟨ht, hn, hrest⟩ := hr
    exact .method ht hn hrest hrest.recurs
  case staticMethod hw hr => exact .staticMethod hw hr.recurs

theorem WrittenItem.recurs (h : WrittenItem false ts stmt) : ItemRecurs [] ts stmt := by
  cases h
  case classDef hw hn ho hms hc =>
    exact .classDef hw hn ho (hms.mono fun _ _ hm => hm.recurs.piece hm) hc
  case routine hr => exact .routine hr hr.recurs
  case staticRoutine hw hr => exact .staticRoutine hw hr.recurs
  case statement hst =>
    obtain ⟨stmt', heq, hrecurs⟩ := hst.restores
    obtain rfl : stmt = stmt' := by simpa using heq
    exact .statement hst hrecurs

theorem items_gives (h : WrittenItems false ts unit) (done : Items) (hs : s.cursor.rest = ts) :
    s.Quiet (items done s).2 ∧ unmarkedIn (items done s).1 = unmarkedIn (done.reverse ++ unit) := by
  obtain ⟨xs, hxs, hloops⟩ := (h.mono fun _ _ hi => hi.recurs.piece hi).items_again
  obtain ⟨read, s₁, hitems, hread, hq⟩ := hloops s done hs
  have hsame : unmarkedIn read = unmarkedIn unit := by
    rw [← unmarkedIn_unnumbered, unnumberedIn_eq, hread, unmarkedIn_eq, unmarkedIn_eq, hxs]
  simp only [unmarkedIn_eq] at hsame
  exact ⟨by rwa [hitems], by simp [hitems, unmarkedIn_eq, hsame]⟩

section Carries

theorem Expression.carries (h : Expression ts e) : Carries ts e.literals :=
  Phrase.carries h suffix_rfl

theorem Optional.expression (h : Optional Expression ts init) :
    Carries ts (literalsOfOption init) := by
  cases h
  case none => exact carries_nil
  case some he => exact Expression.carries he

theorem Optional.step {P : List Token → Stmt → Prop} {step : Option Stmt} (h : Optional P ts step)
    (hp : ∀ a, P ts a → Carries ts a.literals) : Carries ts (literalsInStep step) := by
  cases h
  case none => exact carries_nil
  case some hs => exact hp _ hs

theorem Simple.carries (h : Simple ts stmt) : Carries ts stmt.literals := by
  cases h
  case evaluate he => exact he.carries
  case assign t _ _ _ _ ht _ ho hv =>
    have hmute : isMute t.kind := by
      unfold assignmentOp? at ho
      split at ho <;> simp_all [isMute]
    simpa +decide [hmute] using ht.carries.append hv.carries

theorem Initializer.carries (h : Initializer ts init) : Carries ts (literalsOfOption init) := by
  rcases h with _ | ⟨hk, he⟩
  · exact carries_nil
  · simpa +decide [hk] using he.carries

theorem VariableHead.carries (h : VariableHead ts stmt) : Carries ts stmt.literals := by
  cases h
  case inferred hw hn ht hv => simpa +decide [hw, hn, ht] using hv.carries
  case typed ht hn hi => simpa +decide [hn, isMute_of_typeOf? ht] using hi.carries

theorem Start.carries (h : Start ts stmt) : Carries ts stmt.literals := by
  cases h
  case declaration h => exact h.carries
  case simple h => exact h.carries

theorem LoopHeader.carries (h : LoopHeader loose ts header) : Carries ts
    (literalsInStep header.1 ++ literalsOfOption header.2.1 ++ literalsInStep header.2.2) := by
  have parts {ts : List Token} {header : Header} (h : HeaderParts ts header) : Carries ts
      (literalsInStep header.1 ++ literalsOfOption header.2.1 ++ literalsInStep header.2.2) := by
    obtain ⟨hi, hf, hc, hs, hu⟩ := h
    have h₁ := hi.step fun _ h => h.carries
    have h₂ := hc.expression
    have h₃ := hu.step fun _ h => h.carries
    simpa +decide [hf, hs] using h₁.append (h₂.append h₃)
  cases h
  case parenthesized ho hc hh => simpa +decide [ho, hc] using parts hh
  case bare _ hh => exact parts hh

theorem Written.carries {part : Part} (h : Written loose part ts body) :
    Carries ts (literalsIn body) := by
  induction h
  case declaration hv hsemi => simpa +decide [hsemi] using hv.carries
  case constant hw ht hn hk hv hsemi =>
    simpa +decide [hw, hn, hk, hsemi, isMute_of_typeOf? ht] using hv.carries
  case branch hw hc _ ih => simpa +decide [hw] using hc.carries.append ih
  case branchElse hw hc _ ho _ ih ihe =>
    simpa +decide [hw, ho] using hc.carries.append (ih.append ihe)
  case whileLoop hw hc _ ih => simpa +decide [hw] using hc.carries.append ih
  case forLoop hw hh _ ih => simpa +decide [hw] using hh.carries.append ih
  case result hw hv hsemi => simpa +decide [hw, hsemi] using hv.expression
  case breakLoop hw hsemi => simp +decide [hw, hsemi]
  case continueLoop hw hsemi => simp +decide [hw, hsemi]
  case simple hs hsemi => simpa +decide [hsemi] using hs.carries
  case inner ih => simpa using ih
  case nil => simp
  case cons ih ihr => simpa using ih.append ihr
  case braces ho _ hc ih => simpa +decide [ho, hc] using ih
  case braced ih => exact ih
  case single ih => exact ih

theorem WrittenRoutine.carries (h : WrittenRoutine loose isStatic ts stmt) :
    Carries ts stmt.literals := by
  obtain ⟨ht, hn, ⟨ho, ⟨hparts, hsep⟩, hc, hb⟩⟩ := h
  have hps := hsep.carries (fun _ => []) (by
    rintro ⟨ts, p⟩ hp
    obtain ⟨ht, hn⟩ := hparts _ hp
    simp +decide [hn, isMute_of_typeOf? ht])
  rw [flatMap_eq_nil_iff.mpr (by simp)] at hps
  simpa +decide [hn, ho, hc, isMute_of_typeOf? ht] using hps.append hb.carries

-- Fields come before methods in the tree, but they need not do so in the text.
theorem members_carry {members : List Member} (h : Sequence (WrittenMember loose) ts members) :
    Carries ts (literalsOfFields (members.filterMap (·.field?)) ++
      literalsIn (members.filterMap (·.method?))) := by
  induction h
  case nil => exact carries_nil
  case cons hm _ ih =>
    cases hm
    case field ht hn hi hsemi =>
      simpa +decide [Member.field?, Member.method?, hn, hsemi, isMute_of_typeOf? ht]
        using hi.carries.append ih
    case constant hw ht hn hk hv hsemi =>
      simpa +decide [Member.field?, Member.method?, hw, hn, hk, hsemi, isMute_of_typeOf? ht]
        using hv.carries.append ih
    case method hr => exact (hr.carries.append ih).perm (perm_append_comm_assoc ..)
    case staticMethod hw hr =>
      simpa +decide [hw, Member.field?, Member.method?]
        using (hr.carries.append ih).perm (perm_append_comm_assoc ..)

theorem WrittenItems.carries (h : WrittenItems loose ts unit) : Carries ts (literalsIn unit) := by
  induction h
  case nil => exact carries_nil
  case cons hi _ ih =>
    refine .append ?_ ih
    cases hi
    case classDef hw hn ho hms hc => simpa +decide [hw, hn, ho, hc] using members_carry hms
    case routine hr => exact hr.carries
    case staticRoutine hw hr => simpa +decide [hw] using hr.carries
    case statement hs => simpa using hs.carries

end Carries

end Lumen.Grammar
