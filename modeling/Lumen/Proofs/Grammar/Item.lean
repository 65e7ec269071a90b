import Lumen.Parsed
import Lumen.Proofs.Grammar.Statement
import Lumen.Proofs.Nodes

namespace Lumen.Grammar

open State

open Token (Kind)
open List hiding after tail

variable {W : String → Prop}

structure Numbered (lo hi : Nat) (ids : List Nat) : Prop where
  nodup  : ids.Nodup
  bounds : ∀ i ∈ ids, lo ≤ i ∧ i < hi

namespace Numbered

variable {lo mid hi : Nat} {a b : List Nat}

theorem nil : Numbered lo hi [] :=
  ⟨.nil, by simp⟩

theorem of_rising (h : Rising lo hi a) : Numbered lo hi a :=
  ⟨h.nodup, h.bounds⟩

theorem of_perm (h : Numbered lo hi a) (hp : a.Perm b) : Numbered lo hi b :=
  ⟨hp.nodup_iff.mp h.nodup, fun i hi => h.bounds i (hp.mem_iff.mpr hi)⟩

theorem widen (h : Numbered lo hi a) (hl : lo' ≤ lo) (hh : hi ≤ hi') : Numbered lo' hi' a :=
  ⟨h.nodup, fun i hi => by have := h.bounds i hi; omega⟩

theorem append (ha : Numbered lo mid a) (hb : Numbered mid hi b) (hl : lo ≤ mid)
    (hh : mid ≤ hi) : Numbered lo hi (a ++ b) where
  nodup := by
    refine nodup_append.mpr ⟨ha.nodup, hb.nodup, fun i hi j hj => ?_⟩
    have := ha.bounds i hi
    have := hb.bounds j hj
    omega
  bounds := by
    intro i hi
    rcases mem_append.mp hi with hi | hi
    · have := ha.bounds i hi
      omega
    · have := hb.bounds i hi
      omega

end Numbered

theorem parameter_meets (s : State) (hw : s.Worded W) :
    (parameter s).Meets s (fun used s' p =>
      p.Formed W ∧ Placed used [p.loc] ∧ s'.fresh = s.fresh ∧ Parameter used p) silent w := by
  unfold parameter
  refine (typeName_meets hw).bind fun _ type s₁ _ hr₁ hmeets => .map ?_
  obtain ⟨rfl, htype, ht, hf₁⟩ := hmeets
  refine (s₁.expect_meets ..).weaken fun _ s₂ name hr₂ hmeets => ?_
  obtain ⟨rfl, hk, _, hf₂⟩ := hmeets
  exact ⟨⟨(hr₁.worded hw).of_next hr₂ hk, ht⟩, .head rfl, hf₂.trans hf₁, .parameter htype hk⟩

-- The parameters read so far come with their tokens, the last one first. A comma stands behind
-- them, unless there are none.
theorem parameters_meets (parts : List (List Token × Param)) (before : List Token) (s : State)
    (hw : s.Worded W) (hd : ∀ p ∈ parts.map (·.2), p.Formed W)
    (hp : Placed before ((parts.map (·.2)).reverse.map (·.loc)))
    (hparts : ∀ p ∈ parts, Parameter p.1 p.2)
    (hnext : ∀ ts, Separated (((ts :: parts.map (·.1))).reverse) (before ++ ts)) :
    (parameters (parts.map (·.2)) s).Meets s (fun used s' ps =>
      (∀ p ∈ ps, p.Formed W) ∧ Placed (before ++ used) (ps.map (·.loc)) ∧
        s'.fresh = s.fresh ∧ Parameters (before ++ used) ps) silent w := by
  rw [parameters]
  refine (parameter_meets s hw).extend fun used p s₁ h₁ hr₁ hg => ?_
  obtain ⟨hf, hpl, hfr, hparam⟩ := hg
  have hd' : ∀ q ∈ ((used, p) :: parts).map (·.2), q.Formed W := forall_mem_cons.mpr ⟨hf, hd⟩
  have hp' : Placed (before ++ used) ((((used, p) :: parts).map (·.2)).reverse.map (·.loc)) := by
    simpa using hp.append hpl
  have hparts' : ∀ q ∈ (used, p) :: parts, Parameter q.1 q.2 :=
    forall_mem_cons.mpr ⟨hparam, hparts⟩
  have hsep : Separated (((used, p) :: parts).reverse.map (·.1)) (before ++ used) := by
    rw [map_reverse]
    exact hnext used
  split
  case h_1 =>
    have hps := Parameters.separated (fun q hq => hparts' q (mem_reverse.mp hq)) hsep
    exact ⟨[], .refl s₁, fun q hq => hd' q (mem_reverse.mp hq), by simpa using hp', hfr,
      by simpa using hps⟩
  case h_2 s₂ h₂ ha =>
    obtain ⟨comma, hk, hr₂, _, hf₂⟩ := accept?_some ha silent
    refine .within _ (.behind hr₂ ?_)
    refine (parameters_meets ((used, p) :: parts) (before ++ used ++ [comma]) s₂
      (hr₂.worded (hr₁.worded hw)) hd' hp'.left hparts' fun ts => ?_).weaken fun _ _ _ _ hg => ?_
    · rw [reverse_cons]
      simpa using hsep.push (by simp) hk
    · obtain ⟨h₁, h₂, h₃, h₄⟩ := hg
      exact ⟨h₁, by simpa using h₂, h₃.trans (hf₂.trans hfr), by simpa using h₄⟩
termination_by s.left

abbrev GoodRest (W : String → Prop) :=
  Good (fun rest : List Param × List Stmt => (∀ p ∈ rest.1, p.Formed W) ∧ FormedBody W rest.2)
    (fun rest => idsIn rest.2) fun rest => rest.1.map (·.loc) ++ placesIn rest.2

theorem routineRest_meets (s : State) (hw : s.Worded W) :
    (routineRest s).Meets s (fun used s' rest => GoodRest W s.fresh used s' rest ∧
      (s.Quiet s' → RoutineRest true used rest.1 rest.2 ∧ RestRecurs used rest)) inner w := by
  unfold routineRest
  refine (s.expect_meets ..).bind fun _ o s₁ _ hr₁ hmeets => ?_
  obtain ⟨rfl, ho, -, hf₁⟩ := hmeets
  have hw₁ := hr₁.worded hw
  -- From the closing parenthesis on.
  have tail {ps : List Token} {params : List Param} (s₂ : State) (hr₂ : s₁.Reads ps s₂ silent)
      (hform : ∀ p ∈ params, p.Formed W) (hplaced : Placed ps (params.map (·.loc)))
      (hf₂ : s₂.fresh = s₁.fresh) (hps : Parameters ps params) :
      Reply.Meets (n := s₂.left) s₂ (fun used s' rest =>
        GoodRest W s.fresh ([o] ++ (ps ++ used)) s' rest ∧
          (s.Quiet s' → RoutineRest true ([o] ++ (ps ++ used)) rest.1 rest.2 ∧
            RestRecurs ([o] ++ (ps ++ used)) rest))
        ((s₂.expect .rightParen "after parameters").bind fun _ s₃ _ =>
          (s₃.expect .leftBrace "for routine body").extend fun _ s₄ h₄ =>
          .done (params, (block s₄).1) (block s₄).2.1 (left_lt_trans h₄ (block s₄).2.2))
        inner true := by
    refine (s₂.expect_meets ..).bind fun _ c s₃ _ hr₃ hmeets => ?_
    obtain ⟨rfl, hc, -, hf₃⟩ := hmeets
    refine braced_meets fun b s₄ h₄ hn hb => ?_
    have hr := (hr₁.trans hr₂).trans hr₃
    obtain ⟨used, hr₄, hg, hblock⟩ := block_reads s₃ hn hb (hr.worded hw)
    have hf : s₃.fresh = s.fresh := hf₃.trans (hf₂.trans hf₁)
    refine ⟨_, hr₄, ⟨⟨hform, hg.formed⟩, hf ▸ hg.ids, ?_⟩, fun hq => ?_⟩
    · exact (hplaced.append hg.placed.behind.right).right
    · obtain ⟨hwritten, hrecurs⟩ := hblock (hr.quiet hr₄ hq).2
      exact ⟨.rest ho hps hc hwritten, .of_block ho hps hc hb hrecurs⟩
  simp only
  split
  case isTrue =>
    have hnone : Parameters [] (([] : List (List Token × Param)).map (·.2)) :=
      .separated (by simp) .none
    exact tail s₁ (.refl s₁) (by simp) .nil rfl hnone
  case isFalse =>
    refine (parameters_meets [] [] s₁ hw₁ (by simp) .nil (by simp) fun ts => .one).bind
      fun ps params s₂ _ hr₂ hg => ?_
    obtain ⟨hform, hplaced, hf₂, hps⟩ := hg
    exact tail s₂ hr₂ hform hplaced hf₂ hps

def Member.ids : Member → List Nat
  | field f => idsOfField f
  | method m => m.ids

def Member.nodes : Member → List Expr
  | field f => nodesOfField f
  | method m => m.nodes

def Member.places : Member → List Location
  | field f => placesOfField f
  | method m => m.places

def Member.Formed (W : String → Prop) : Member → Prop
  | field f => f.Formed W
  | method m => m.FormedRoutine W

-- The places of something that stands at `loc`. The others belong to tokens behind the first one.
def Leads (loc : Location) (used : List Token) (places : List Location) : Prop :=
  ∃ t more locs, used = t :: more ∧ places = loc :: locs ∧ Placed more locs

namespace Leads

variable {used : List Token} {places : List Location}

theorem front {s : State} (h : Leads s.peek.loc used places) (hr : s.Reads used s') :
    Placed used places := by
  obtain ⟨t, more, locs, rfl, rfl, hp⟩ := h
  rw [hr.peek]
  exact hp.cons

theorem behind {t : Token} (h : Leads t.loc used places) : Placed ([t] ++ used) places := by
  obtain ⟨first, more, locs, rfl, rfl, hp⟩ := h
  have hmore : Placed ([first] ++ more) locs := hp.right
  exact hmore.cons

end Leads

structure LedMember (W : String → Prop) (lo : Nat) (loc : Location) (used : List Token) (s : State)
    (member : Member) : Prop where
  formed : member.Formed W
  ids    : Rising lo s.fresh member.ids
  leads  : Leads loc used member.places

abbrev GoodMember (W : String → Prop) := Good (Member.Formed W) Member.ids Member.places

theorem LedMember.behind {lo : Nat} {used : List Token} {s : State} {t : Token} {member : Member}
    (h : LedMember W lo t.loc used s member) : GoodMember W lo ([t] ++ used) s member :=
  ⟨h.formed, h.ids, h.leads.behind⟩

theorem routine_meets (loc : Location) (isStatic : Bool) (s : State) (hw : s.Worded W) :
    (routine loc isStatic s).Meets s (fun used s' stmt =>
      LedMember W s.fresh loc used s' (.method stmt) ∧
        (∃ name params returns body, stmt = .routine loc name params returns isStatic body) ∧
        (s.Quiet s' → WrittenRoutine true isStatic used stmt ∧ RoutineRecurs isStatic used stmt))
      inner w := by
  unfold routine
  refine (typeName_meets hw).bind fun _ returns s₁ _ hr₁ hmeets => ?_
  obtain ⟨rfl, htype, ht, hf₁⟩ := hmeets
  have hw₁ := hr₁.worded hw
  refine (s₁.expect_meets ..).bind fun _ name s₂ _ hr₂ hmeets => .map ?_
  obtain ⟨rfl, hk, _, hf₂⟩ := hmeets
  refine (routineRest_meets s₂ (hr₂.worded hw₁)).weaken fun _ s₃ rest hr₃ hg => ?_
  obtain ⟨hg, hrest⟩ := hg
  have hf : s₂.fresh = s.fresh := hf₂.trans hf₁
  refine ⟨⟨?_, hf ▸ hg.ids, ?_⟩, ⟨name.text, rest.1, returns, rest.2, rfl⟩, fun hq => ?_⟩
  · exact ⟨hw₁.of_next hr₂ hk, hg.formed.1, ht, hg.formed.2⟩
  · exact ⟨_, _, _, rfl, rfl, hg.placed.right⟩
  · obtain ⟨hwritten, hrecurs⟩ := hrest ((hr₁.trans hr₂).quiet hr₃ hq).2
    exact ⟨.routine htype hk hwritten, .of_rest htype hk hrecurs⟩

theorem fieldRest_meets (isConst : Bool) (s : State) (hw : s.Worded W) :
    (fieldRest isConst s).Meets s (fun used s' init =>
      GoodOption W s.fresh used s' init ∧ ∃ vs semicolon, used = vs ++ [semicolon] ∧
        semicolon.kind = .semicolon ∧ Initializer vs init ∧ (isConst → init.isSome))
      inner true := by
  unfold fieldRest
  simp only
  have close {vs : List Token} {init : Option Expr} (s₁ : State)
      (hi : Initializer vs init) (hg : GoodOption W s.fresh vs s₁ init)
      (hc : isConst → init.isSome) :
      ((s₁.semicolon "after field declaration").map fun _ => init).Meets s₁ (fun used s' init =>
        GoodOption W s.fresh (vs ++ used) s' init ∧ ∃ ts semicolon, vs ++ used = ts ++ [semicolon] ∧
          semicolon.kind = .semicolon ∧ Initializer ts init ∧ (isConst → init.isSome))
        inner true := by
    refine .map ((s₁.semicolon_meets _).weaken fun _ _ _ hr hmeets => ?_)
    obtain ⟨semi, rfl, hsemi, _⟩ := hmeets
    exact ⟨hg.later hr.fresh, vs, semi, rfl, hsemi, hi, hc⟩
  split
  case isTrue =>
    refine Reply.Meets.bind (P := fun used s' init => GoodOption W s.fresh used s' init ∧
      Initializer used init ∧ init.isSome) ?_ ?_
    · refine (s.expect_meets ..).bind fun _ _ s₁ _ hr₁ hmeets => .map ?_
      obtain ⟨rfl, ht, _, hf₁⟩ := hmeets
      refine (expression_meets s₁ (hr₁.worded hw)).weaken fun _ _ _ _ he => ?_
      exact ⟨⟨he.formed, hf₁ ▸ he.ids, he.placed.right⟩, .some ht he.phrase, rfl⟩
    · intro _ init s₁ _ _ hmeets
      obtain ⟨hg, hi, hs⟩ := hmeets
      exact close s₁ hi hg fun _ => hs
  case isFalse hc => exact close s .none ⟨trivial, .nil, .nil⟩ fun h => by simp [h] at hc

theorem memberRest_meets (loc : Location) (isConst : Bool) (s : State) (hw : s.Worded W) :
    (memberRest loc isConst s).Meets s (fun used s' m => LedMember W s.fresh loc used s' m ∧
      (isConst = false → s.Quiet s' → WrittenMember true used m ∧ MemberRecurs used m) ∧
      (isConst → ∀ word : Token, word.kind = .constKw →
        WrittenMember true (word :: used) m ∧ MemberRecurs (word :: used) m)) inner w := by
  unfold memberRest
  refine (typeName_meets hw).bind fun _ type s₁ _ hr₁ hmeets => ?_
  obtain ⟨rfl, htype, ht, hf₁⟩ := hmeets
  have hw₁ := hr₁.worded hw
  refine (s₁.expect_meets ..).bind fun _ name s₂ _ hr₂ hmeets => ?_
  obtain ⟨rfl, hk, _, hf₂⟩ := hmeets
  have hwn : W name.text := hw₁.of_next hr₂ hk
  have hw₂ := hr₂.worded hw₁
  have hf : s₂.fresh = s.fresh := hf₂.trans hf₁
  split
  case isTrue hopen =>
    refine .map ((routineRest_meets s₂ hw₂).weaken fun _ s₃ rest hr₃ hg => ?_)
    obtain ⟨hg, hrest⟩ := hg
    refine ⟨⟨⟨hwn, hg.formed.1, ht, hg.formed.2⟩, hf ▸ hg.ids, _, _, _, rfl, rfl,
      hg.placed.right⟩, fun _ hq => ?_, fun hc => by simp [hc] at hopen⟩
    obtain ⟨hwritten, hrecurs⟩ := hrest ((hr₁.trans hr₂).quiet hr₃ hq).2
    exact ⟨.method (.routine htype hk hwritten), .method htype hk hwritten hrecurs⟩
  case isFalse =>
    refine .map ((fieldRest_meets isConst s₂ hw₂).weaken fun _ s₃ init _ hmeets => ?_)
    obtain ⟨hg, vs, semi, rfl, hsemi, hi, hc⟩ := hmeets
    refine ⟨⟨⟨hwn, ht, hg.formed, hc⟩, hf ▸ hg.ids, _, _, _, rfl, rfl, hg.placed.right⟩, ?_, ?_⟩
    · intro hconst _
      subst hconst
      exact ⟨.field htype hk hi hsemi, .field htype hk hi hsemi⟩
    · intro hconst word hword
      subst hconst
      rcases hi with _ | ⟨hassign, hv⟩
      case none => simp at hc
      case some =>
        exact ⟨.constant hword htype hk hassign hv hsemi, .constant hword htype hk hassign hv hsemi⟩

abbrev MemberAgain (ts : List Token) (m : Member) : Prop :=
  WrittenMember true ts m ∧ MemberRecurs ts m

theorem MemberRecurs.piece (h : MemberRecurs ts m) (hw : WrittenMember loose ts m) :
    MemberPiece ts m := by
  obtain ⟨t, rest, rfl, he, hb⟩ := hw.head
  exact ⟨⟨t, rest, rfl, by simpa using hb, he⟩, h.weaken fun _ _ => trivial⟩

theorem member_meets (s : State) (hw : s.Worded W) :
    (member s).Meets s fun used s' m =>
      GoodMember W s.fresh used s' m ∧ (s.Quiet s' → MemberAgain used m) := by
  unfold member
  simp only
  split
  case h_1 s₁ h₁ ha =>
    obtain ⟨t, hk, hr₁, rfl, hf₁⟩ := accept?_some ha
    refine .within _ (.behind hr₁ (.map ?_))
    refine (routine_meets _ true s₁ (hr₁.worded hw)).weaken fun _ _ _ hr₂ hg => ?_
    rw [hf₁] at hg
    refine ⟨hg.1.behind, fun hq => ?_⟩
    obtain ⟨hwritten, hrecurs⟩ := hg.2.2 (hr₁.quiet hr₂ hq).2
    exact ⟨.staticMethod hk hwritten, .staticMethod hk hrecurs⟩
  case h_2 =>
    split
    case h_1 s₁ h₁ ha =>
      obtain ⟨t, hk, hr₁, rfl, hf₁⟩ := accept?_some ha
      refine .within _ (.behind hr₁ ?_)
      refine (memberRest_meets _ true s₁ (hr₁.worded hw)).weaken fun _ _ _ _ hg => ?_
      rw [hf₁] at hg
      exact ⟨hg.1.behind, fun _ => hg.2.2 rfl _ hk⟩
    case h_2 =>
      refine (memberRest_meets _ false s hw).weaken fun _ _ _ hr hg => ?_
      exact ⟨⟨hg.1.formed, hg.1.ids, hg.1.leads.front hr⟩, hg.2.1 rfl⟩

abbrev GoodMembers (W : String → Prop) :=
  Good (fun members : List Member => ∀ m ∈ members, m.Formed W)
    (·.flatMap Member.ids) (·.flatMap Member.places)

namespace GoodMembers

variable {lo : Nat} {used more : List Token} {s s' : State} {members : List Member} {m : Member}

theorem push (hs : GoodMembers W lo used s members) (hm : GoodMember W s.fresh more s' m)
    (hl : lo ≤ s.fresh) (hf : s.fresh ≤ s'.fresh) :
    GoodMembers W lo (used ++ more) s' (members ++ [m]) := by
  refine Good.push (fun h h' => ?_) (fun _ _ => by simp) (fun _ _ => by simp) hs hm hl hf
  simpa [or_imp, forall_and] using ⟨h, h'⟩

-- The numbers of an expression in a class rise, although those of the class need not.
theorem sorted (h : GoodMembers W lo used s members) (he : e ∈ members.flatMap Member.nodes) :
    e.ids.Pairwise (· < ·) := by
  obtain ⟨m, hm, he⟩ := mem_flatMap.mp he
  have hlisted : e.ids.Sublist m.ids := by
    cases m
    case field f => exact (listedOfField f).parts e he
    case method m => exact m.listed.parts e he
  refine h.ids.sorted.sublist (hlisted.trans ?_)
  rw [flatMap_def]
  exact sublist_flatten_of_mem (mem_map_of_mem hm)

end GoodMembers

theorem members_perm {β : Type} {f : Member → List β} {g : Field Expr → List β}
    {h : Stmt → List β} (hg : ∀ x, f (.field x) = g x) (hh : ∀ x, f (.method x) = h x)
    (members : List Member) :
    (members.flatMap f).Perm ((members.filterMap (·.field?)).flatMap g ++
      (members.filterMap (·.method?)).flatMap h) := by
  induction members
  case nil => exact .refl _
  case cons m rest ih =>
    cases m
    case field x =>
      simpa [Member.field?, Member.method?, hg] using ih.append_left _
    case method x =>
      simp only [flatMap_cons, hh, filterMap_cons, Member.field?, Member.method?]
      refine (ih.append_left _).trans ?_
      rw [← append_assoc, ← append_assoc]
      exact perm_append_comm.append_right _

theorem ids_members_perm (members : List Member) :
    (members.flatMap Member.ids).Perm
      (idsOfFields (members.filterMap (·.field?)) ++ idsIn (members.filterMap (·.method?))) := by
  rw [idsOfFields_eq_flatMap, idsIn_eq_flatMap]
  exact members_perm (fun _ => rfl) (fun _ => rfl) members

theorem places_members_perm (members : List Member) :
    (members.flatMap Member.places).Perm
      ((members.filterMap (·.field?)).flatMap placesOfField ++
        placesIn (members.filterMap (·.method?))) := by
  rw [placesIn_eq_flatMap]
  exact members_perm (fun _ => rfl) (fun _ => rfl) members

theorem nodes_members_perm (members : List Member) :
    (members.flatMap Member.nodes).Perm
      (nodesOfFields (members.filterMap (·.field?)) ++
        nodesIn (members.filterMap (·.method?))) := by
  rw [nodesOfFields_eq_flatMap, nodesIn_eq_flatMap]
  exact members_perm (fun _ => rfl) (fun _ => rfl) members

structure GoodItem (W : String → Prop) (lo : Nat) (used : List Token) (s : State) (item : Stmt) :
    Prop where
  formed : item.FormedItem W
  ids    : Numbered lo s.fresh item.ids
  sorted : ∀ e ∈ item.nodes, e.ids.Pairwise (· < ·)
  placed : Placed used item.places

theorem classDefinition_meets (word : Token) (s : State) (hword : word.kind = .classKw)
    (hw : s.Worded W) :
    (classDefinition word.loc s).Meets s (fun used s' item =>
      GoodItem W s.fresh (word :: used) s' item ∧
        (s.Quiet s' → WrittenItem true (word :: used) item ∧
          ItemRecurs s'.cursor.rest (word :: used) item)) inner w := by
  unfold classDefinition
  refine (s.expect_meets ..).bind fun _ name s₁ _ hr₁ hmeets => ?_
  obtain ⟨rfl, hk, _, hf₁⟩ := hmeets
  refine braced_meets fun o s₂ h₂ hn ho => ?_
  have hall : Collects W member (GoodMember W) (GoodMembers W) MemberAgain
      (Sequence MemberAgain) s₂.left :=
    ⟨fun s' _ hw' => member_meets s' hw', fun _ => ⟨by simp, .nil, .nil⟩, GoodMembers.push,
      Good.later, .nil, Sequence.push⟩
  obtain ⟨used, hr₂, hg, hm⟩ := members_steps.rounds.reads_braced hn ho (.unclosedClass name.text)
    (fun _ => rfl) member_repeated hall (hr₁.worded hw)
  refine ⟨_, hr₂, ⟨⟨hw.of_next hr₁ hk, ?_, ?_⟩, ?_, ?_, ?_⟩, fun hq => ?_⟩
  · intro f hf
    obtain ⟨m, hm, hmf⟩ := mem_filterMap.mp hf
    cases m
    case method => contradiction
    case field f' =>
      injection hmf with hmf
      exact hmf ▸ hg.formed _ hm
  · intro f hf
    obtain ⟨m, hm, hmf⟩ := mem_filterMap.mp hf
    cases m
    case field => contradiction
    case method f' =>
      injection hmf with hmf
      exact hmf ▸ hg.formed _ hm
  · exact (Numbered.of_rising (hf₁ ▸ hg.ids)).of_perm (ids_members_perm _)
  · exact fun e he => hg.sorted ((nodes_members_perm _).mem_iff.mpr he)
  · exact .cons (hg.placed.of_perm (places_members_perm _)).behind.right
  · obtain ⟨ts, c, rfl, hc, hts⟩ := hm (hr₁.quiet hr₂ hq).2
    exact ⟨.classDef hword hk ho (hts.mono fun _ _ h => h.1) hc,
      .classDef hword hk ho (hts.mono fun _ _ h => h.2.piece h.1) hc⟩

theorem GoodItem.of_stmt (h : GoodStmt W lo used s stmt) : GoodItem W lo used s stmt where
  formed := by
    have := h.formed
    cases stmt <;> simp_all [Stmt.FormedItem, Stmt.Formed]
  ids := .of_rising h.ids
  sorted e he := h.ids.sorted.sublist (stmt.listed.parts e he)
  placed := h.placed

theorem GoodItem.of_routine (h : GoodMember W lo used s (.method stmt))
    (hr : ∃ name params returns body, stmt = .routine loc name params returns true body) :
    GoodItem W lo used s stmt := by
  obtain ⟨name, params, returns, body, rfl⟩ := hr
  exact ⟨⟨rfl, h.formed⟩, .of_rising h.ids,
    fun e he => h.ids.sorted.sublist ((Stmt.listed _).parts e he), h.placed⟩

abbrev ReadItem (W : String → Prop) (s : State) (used : List Token) (s' : State) (item : Stmt) :
    Prop :=
  GoodItem W s.fresh used s' item ∧
    (s.Quiet s' → WrittenItem true used item ∧ ItemRecurs s'.cursor.rest used item)

theorem item_meets (s : State) (hw : s.Worded W) : (item s).Meets s (ReadItem W s) := by
  have ordinary : (statement s).Meets s (ReadItem W s) :=
    (statement_meets s hw).weaken fun _ _ _ _ h =>
      ⟨.of_stmt h.1, fun hq => ⟨.statement (h.2 hq).1, .statement (h.2 hq).1 (h.2 hq).2⟩⟩
  unfold item
  split
  case h_1 => exact ordinary
  case h_2 t s₁ h₁ hn =>
    split
    case h_1 hk =>
      obtain ⟨hr₁, -, hf₁⟩ := next_token hn (by simp [hk, isBrace])
      refine .within _ (.behind hr₁ ?_)
      refine (classDefinition_meets t s₁ hk (hr₁.worded hw)).weaken fun _ _ _ hr₂ hg => ?_
      exact ⟨hf₁ ▸ hg.1, fun hq => hg.2 (hr₁.quiet hr₂ hq).2⟩
    case h_2 hk =>
      obtain ⟨hr₁, -, hf₁⟩ := next_token hn (by simp [hk, isBrace])
      refine .within _ (.behind hr₁ ?_)
      refine (routine_meets t.loc true s₁ (hr₁.worded hw)).weaken fun _ _ _ hr₂ hg => ?_
      rw [hf₁] at hg
      refine ⟨.of_routine hg.1.behind hg.2.1, fun hq => ?_⟩
      obtain ⟨hwritten, hrecurs⟩ := hg.2.2 (hr₁.quiet hr₂ hq).2
      exact ⟨.staticRoutine hk hwritten, .staticRoutine hk hrecurs⟩
    case h_3 =>
      split
      case isTrue =>
        refine (routine_meets t.loc true s hw).weaken fun _ _ _ hr hg => ?_
        obtain ⟨hled, hroutine, hwritten⟩ := hg
        obtain ⟨-, hpeek, -⟩ := next_passes hn
        exact ⟨.of_routine ⟨hled.formed, hled.ids, (hpeek ▸ hled.leads).front hr⟩ hroutine,
          fun hq => ⟨.routine (hwritten hq).1, .routine (hwritten hq).1 (hwritten hq).2⟩⟩
      case isFalse => exact ordinary

structure GoodItems (W : String → Prop) (lo : Nat) (used : List Token) (s : State)
    (items : Items) : Prop where
  formed : ∀ item ∈ items, item.FormedItem W
  ids    : Numbered lo s.fresh (idsIn items)
  sorted : ∀ e ∈ nodesIn items, e.ids.Pairwise (· < ·)
  placed : Placed used (placesIn items)

namespace GoodItems

variable {lo : Nat} {used more : List Token} {s s' : State} {items : Items} {item : Stmt}

theorem nil : GoodItems W lo used s [] :=
  ⟨by simp, .nil, by simp [nodesIn], .nil⟩

theorem push (hs : GoodItems W lo used s items) (hi : GoodItem W s.fresh more s' item)
    (hl : lo ≤ s.fresh) (hf : s.fresh ≤ s'.fresh) :
    GoodItems W lo (used ++ more) s' (items ++ [item]) where
  formed := by
    intro x hx
    rcases mem_append.mp hx with hx | hx
    · exact hs.formed x hx
    · exact mem_singleton.mp hx ▸ hi.formed
  ids := by simpa [idsIn_append, idsIn] using hs.ids.append hi.ids hl hf
  sorted := by
    intro e he
    rw [nodesIn_eq_flatMap, flatMap_append, flatMap_singleton, ← nodesIn_eq_flatMap] at he
    cases mem_append.mp he
    case inl he => exact hs.sorted e he
    case inr he => exact hi.sorted e he
  placed := by simpa [placesIn_append, placesIn] using hs.placed.append hi.placed

theorem later (h : GoodItems W lo used s items) (hf : s.fresh ≤ s'.fresh) :
    GoodItems W lo (used ++ more) s' items :=
  ⟨h.formed, h.ids.widen (Nat.le_refl _) hf, h.sorted, h.placed.left⟩

end GoodItems

abbrev ItemPiece :=
  Piece item Stmt.unnumbered Stmt.unmarked fun _ => false

theorem ItemRecurs.piece (h : ItemRecurs after ts stmt) (hw : WrittenItem loose ts stmt) :
    ItemPiece ts stmt := by
  obtain ⟨t, rest, rfl, he⟩ := hw.head
  exact ⟨⟨t, rest, rfl, rfl, he⟩, h.weaken fun _ hk _ => hk⟩

-- Items up to the end.
theorem Sequence.items_again (h : Sequence ItemPiece ts unit) :
    ∃ xs : Items, xs.map Stmt.unmarked = unit.map Stmt.unmarked ∧ ∀ (s : State) (done : Items),
      s.cursor.rest = ts → ∃ (read : Items) (s₁ : State),
        items done s = (done.reverse ++ read, s₁) ∧ read.map Stmt.unnumbered = xs ∧ s.Quiet s₁ := by
  obtain ⟨xs, hxs, hloops⟩ := h.again
  refine ⟨xs, hxs, fun s done hs => ?_⟩
  obtain ⟨read, s₁, hloop, hread, hs₁, hq⟩ :=
    hloops _ items_rounds s [] done (by simpa using hs) (by simp [NoElse])
  refine ⟨read, s₁, ?_, hread, hq⟩
  rw [hloop, items]
  simp [next_eq_nothing hs₁]

theorem items_reads (s : State) (hw : s.Worded W) :
    ∃ used, s.Reads used (items [] s).2 (fun _ => true) ∧
      GoodItems W s.fresh used (items [] s).2 (items [] s).1 ∧
      (s.Quiet (items [] s).2 → WrittenItems true used (items [] s).1) ∧
      (s.Quiet (items [] s).2 → Sequence ItemPiece used (items [] s).1) ∧
      (items [] s).2.cursor.rest = [] := by
  have hrule (s' : State) (hw' : s'.Worded W) : (item s').Meets s' fun used s'' item =>
      GoodItem W s'.fresh used s'' item ∧
        (s'.Quiet s'' → WrittenItem true used item ∧ ItemPiece used item) := by
    refine (item_meets s' hw').weaken fun used s'' item _ hg => ⟨hg.1, fun hq => ?_⟩
    obtain ⟨hwritten, hrecurs⟩ := hg.2 hq
    exact ⟨hwritten, hrecurs.piece hwritten⟩
  have hall : Collects W item (GoodItem W) (GoodItems W)
      (fun ts item => WrittenItem true ts item ∧ ItemPiece ts item)
      (Sequence fun ts item => WrittenItem true ts item ∧ ItemPiece ts item) s.left :=
    ⟨fun s' _ hw' => hrule s' hw', fun _ => .nil, GoodItems.push, GoodItems.later, .nil,
      Sequence.push⟩
  obtain ⟨used, hr, hg, hi, hend⟩ := items_rounds.reads item_repeated hall hw
  exact ⟨used, hr, hg, fun hq => (hi hq).mono fun _ _ h => h.1,
    fun hq => (hi hq).mono fun _ _ h => h.2, by simpa using hend⟩

def routineLocs : Stmt → List Location
  | .routine loc .. => [loc]
  | _ => []

theorem routineLocs_places (items : Items) :
    (items.flatMap routineLocs).Sublist (placesIn items) := by
  rw [placesIn_eq_flatMap]
  refine .flatMap_right items fun item _ => ?_
  cases item <;> first | exact nil_sublist _ | exact .cons_cons _ (nil_sublist _)

theorem State.rest_ofTokens (tokens : List Token) :
    (State.ofTokens tokens).cursor.rest = tokens.takeWhile (·.kind ≠ .endMarker) := by
  unfold State.ofTokens Cursor.ofTokens
  simp only [decide_not]
  split <;> rfl

theorem ofTokens_rest (tokens : List Token) :
    (State.ofTokens tokens).cursor.rest.Sublist tokens := by
  rw [rest_ofTokens]
  exact takeWhile_sublist _

end Grammar

namespace Parsed

open Grammar

variable {W : String → Prop} (tokens : List Token)

theorem ofTokens_good (hw : ∀ t ∈ tokens, t.kind = .identifier → W t.text) :
    ∃ used s, used.Sublist tokens ∧ GoodItems W 0 used s (ofTokens tokens).items := by
  have hs := ofTokens_rest tokens
  obtain ⟨used, hr, hg, -⟩ := items_reads (.ofTokens tokens) fun t ht => hw t (hs.subset ht)
  exact ⟨used, _, (hr.rest ▸ List.sublist_append_left used _).trans hs, hg⟩

theorem ofTokens_formed (hw : ∀ t ∈ tokens, t.kind = .identifier → W t.text) :
    ∀ item ∈ (ofTokens tokens).items, item.FormedItem W :=
  have ⟨_, _, _, hg⟩ := ofTokens_good tokens hw
  hg.formed

theorem ofTokens_nodup : (idsIn (ofTokens tokens).items).Nodup :=
  have ⟨_, _, _, hg⟩ := ofTokens_good (W := fun _ => True) tokens fun _ _ _ => trivial
  hg.ids.nodup

theorem ofTokens_sorted : ∀ e ∈ nodesIn (ofTokens tokens).items, e.ids.Pairwise (· < ·) := by
  obtain ⟨_, _, _, hg⟩ := ofTokens_good (W := fun _ => True) tokens fun _ _ _ => trivial
  exact hg.sorted

theorem ofTokens_placed : Placed tokens (placesIn (ofTokens tokens).items) := by
  obtain ⟨_, _, hu, hg⟩ := ofTokens_good (W := fun _ => True) tokens fun _ _ _ => trivial
  exact hg.placed.of_sublist hu

end Parsed
end Lumen
