import Lumen.Proofs.Grammar.Phrases
import Lumen.Proofs.Places
import Mathlib.Data.List.Perm.Subperm

namespace Lumen.Grammar

open List State

open Token (Kind)

variable {W : String → Prop}

def Placed (used : List Token) (locs : List Location) : Prop :=
  locs.Subperm (used.map (·.loc))

namespace Placed

variable {used more : List Token} {as bs : List Location}

theorem nil : Placed used [] :=
  nil_subperm

theorem append (ha : Placed used as) (hb : Placed more bs) : Placed (used ++ more) (as ++ bs) := by
  simpa [Placed] using List.Subperm.append ha hb

theorem left (ha : Placed used as) : Placed (used ++ more) as := by
  simpa using ha.append (nil : Placed more [])

theorem right (hb : Placed more bs) : Placed (used ++ more) bs := by
  simpa using (nil : Placed used []).append hb

section

variable (ha : Placed used as)

include ha

theorem of_sublist (h : used.Sublist more) : Placed more as :=
  List.Subperm.trans ha (h.map _).subperm

theorem of_perm (h : as.Perm bs) : Placed used bs :=
  List.Subperm.trans h.symm.subperm ha

theorem cons : Placed (t :: used) (t.loc :: as) :=
  (subperm_cons _).mpr ha

theorem behind : Placed (t :: used) as :=
  show Placed ([t] ++ used) as from ha.right

end

theorem head {t : Token} (h : loc = t.loc) : Placed (t :: used) [loc] :=
  h ▸ nil.cons

end Placed

-- The first of the tokens is where the expression starts, unless it is a parenthesis around it.
def Opens (used : List Token) (e : Expr) : Prop :=
  ∃ t more, used = t :: more ∧ (e.start = t.loc ∨ Placed more e.places)

structure Good {α : Type} (Formed : α → Prop) (numbers : α → List Nat)
    (places : α → List Location) (lo : Nat) (used : List Token) (s : State) (a : α) : Prop where
  formed : Formed a
  ids    : Rising lo s.fresh (numbers a)
  placed : Placed used (places a)

namespace Good

variable {α : Type} {F : α → Prop} {numbers : α → List Nat} {places : α → List Location}
  {lo lo' : Nat} {used more : List Token} {s s' : State} {a : α}

theorem later (h : Good F numbers places lo used s a) (hf : s.fresh ≤ s'.fresh) :
    Good F numbers places lo (used ++ more) s' a :=
  ⟨h.formed, h.ids.widen (Nat.le_refl _) hf, h.placed.left⟩

theorem earlier (h : Good F numbers places lo used s a) (hl : lo' ≤ lo) :
    Good F numbers places lo' (more ++ used) s a :=
  ⟨h.formed, h.ids.widen hl (Nat.le_refl _), h.placed.right⟩

theorem push {Fs : List α → Prop} {allNumbers : List α → List Nat}
    {allPlaces : List α → List Location} (hF : ∀ {as a}, Fs as → F a → Fs (as ++ [a]))
    (hn : ∀ as a, allNumbers (as ++ [a]) = allNumbers as ++ numbers a)
    (hp : ∀ as a, allPlaces (as ++ [a]) = allPlaces as ++ places a)
    (has : Good Fs allNumbers allPlaces lo used s as) (ha : Good F numbers places s.fresh more s' a)
    (hl : lo ≤ s.fresh) (hs : s.fresh ≤ s'.fresh) :
    Good Fs allNumbers allPlaces lo (used ++ more) s' (as ++ [a]) where
  formed := hF has.formed ha.formed
  ids := hn as a ▸ has.ids.append ha.ids hl hs
  placed := hp as a ▸ has.placed.append ha.placed

end Good

structure GoodExpr (W : String → Prop) (r : Rank) (lo : Nat) (used : List Token) (s : State)
    (e : Expr) : Prop extends Good (Expr.Formed W) Expr.ids Expr.places lo used s e where
  opens  : Opens used e
  phrase : Phrase r used e

abbrev StoppedExpr (W : String → Prop) (r : Rank) (lo : Nat) (used : List Token) (s : State)
    (e : Expr) : Prop :=
  GoodExpr W r lo used s e ∧ r.Ends s.cursor.rest

abbrev GoodArgs (W : String → Prop) := Good (FormedArgs W) idsOf placesOf

theorem GoodArgs.push (ha : GoodArgs W lo used s args)
    (he : Good (Expr.Formed W) Expr.ids Expr.places s.fresh more s₁ e) (hl : lo ≤ s.fresh)
    (hs : s.fresh ≤ s₁.fresh) : GoodArgs W lo (used ++ more) s₁ (args ++ [e]) := by
  refine Good.push (fun h h' => ?_) (fun _ _ => ?_) (fun _ _ => ?_) ha he hl hs
  · simpa [formedArgs_iff, or_imp, forall_and] using ⟨formedArgs_iff.mp h, h'⟩
  · simp [idsOf_append, idsOf]
  · simp [placesOf_append, placesOf]

theorem Further.push {comma : Token} (h : Further parts ts) (hc : comma.kind = .comma) :
    Further (parts ++ [part]) (ts ++ comma :: part) := by
  induction h
  case none =>
    have hpart : Further [part] (comma :: part ++ []) := .more hc .none
    simpa using hpart
  case more hc' _ ih => simpa using Further.more hc' ih

theorem Separated.one : Separated [part] part := by
  have hpart : Separated [part] (part ++ []) := .some .none
  simpa using hpart

theorem Separated.push {comma : Token} (h : Separated parts ts) (hne : parts ≠ [])
    (hc : comma.kind = .comma) : Separated (parts ++ [part]) (ts ++ comma :: part) := by
  cases h
  case none => contradiction
  case some hf => simpa using Separated.some (hf.push hc)

inductive Arguments : List Token → List Expr → Prop where
  | close {ts : List Token} {c : Token} {args : List (List Token × Expr)} :
    (∀ a ∈ args, Expression a.1 a.2) → Separated (args.map (·.1)) ts → c.kind = .rightParen →
    Arguments (ts ++ [c]) (args.map (·.2))

namespace Arguments

variable {ts used : List Token} {args : List Expr} {m m' : Mark} {name : String} {o : Token}

theorem call (ha : Arguments ts args) (he : Phrase .chained used (.variable m' name))
    (ho : o.kind = .leftParen) : Phrase .chained (used ++ ([o] ++ ts)) (.call m name args) := by
  obtain ⟨hparts, hsep, hc⟩ := ha
  simpa using Phrase.call he ho hparts hsep hc

theorem invoke {dot word : Token} (ha : Arguments ts args) (he : Phrase .chained used e)
    (hd : dot.kind = .dot) (hw : word.kind = .identifier) (ho : o.kind = .leftParen) :
    Phrase .chained (used ++ dot :: ([word] ++ ([o] ++ ts))) (.invoke m e word.text args) := by
  obtain ⟨hparts, hsep, hc⟩ := ha
  simpa using Phrase.invoke he hd hw ho hparts hsep hc

theorem create {t : Token} {tn : TypeName} (ha : Arguments ts args) (ht : t.kind = .newKw)
    (hn : typeOf? type = some tn) (ho : o.kind = .leftParen) :
    Phrase .primary (t :: ([type] ++ ([o] ++ ts))) (.create m tn args) := by
  obtain ⟨hparts, hsep, hc⟩ := ha
  simpa using Phrase.create ht hn ho hparts hsep hc

end Arguments

namespace GoodExpr

variable {r r' : Rank} {lo : Nat} {used more : List Token} {s s' : State}
  {ids : List Nat} {e left : Expr} {t : Token} {locs : List Location}

theorem as (h : GoodExpr W r lo used s e) (hp : Phrase r' used e) : GoodExpr W r' lo used s e :=
  { h with phrase := hp }

theorem first (hph : Phrase r (t :: used) e) (hf : e.Formed W) (hi : e.ids = ids ++ [s.fresh])
    (hr : Rising lo s.fresh ids) (hl : lo ≤ s.fresh) (hs : e.start = t.loc)
    (hp : e.places = t.loc :: locs) (hu : Placed used locs) :
    GoodExpr W r lo (t :: used) s.numbered e :=
  ⟨⟨hf, hi ▸ hr.push hl, hp ▸ hu.cons⟩, ⟨t, used, rfl, .inl hs⟩, hph⟩

theorem onto (hph : Phrase r (used ++ more) e) (hleft : GoodExpr W r' lo used s' left)
    (hf : e.Formed W) (hi : e.ids = ids ++ [s.fresh]) (hr : Rising lo s.fresh ids)
    (hl : lo ≤ s.fresh) (hs : e.start = left.start) (hp : e.places = left.places ++ locs)
    (hm : Placed more locs) : GoodExpr W r lo (used ++ more) s.numbered e where
  formed := hf
  ids := hi ▸ hr.push hl
  placed := hp ▸ hleft.placed.append hm
  opens := by
    obtain ⟨t, rest, rfl, ho⟩ := hleft.opens
    refine ⟨t, rest ++ more, rfl, ho.imp hs.trans fun h => ?_⟩
    rw [hp]
    exact h.append hm
  phrase := hph

end GoodExpr

theorem isBrace_of_lookup {ops : Operators} (h : ops ∈ levels) (ho : ops.lookup kind = some op) :
    isBrace kind = false := by
  have hnone (ops : Operators) (h : ops ∈ levels) :
      ops.lookup .leftBrace = none ∧ ops.lookup .rightBrace = none := by
    revert ops
    decide
  obtain ⟨hl, hr⟩ := hnone ops h
  cases kind <;> try rfl
  case leftBrace => cases hl.symm.trans ho
  case rightBrace => cases hr.symm.trans ho

theorem isBrace_of_unaryOp? (h : unaryOp? kind = some op) : isBrace kind = false := by
  cases kind <;> first | rfl | cases h

theorem isBrace_of_literal? (h : literal? t = some v) : isBrace t.kind = false := by
  unfold literal? at h
  split at h <;> simp_all [isBrace]

theorem isInner_of_literal? (h : literal? t = some (.error cause)) : cause.isInner := by
  unfold literal? at h
  grind [Cause.isInner]

mutual

theorem expression_stops (s : State) (hw : s.Worded W) :
    (expression s).Meets s (StoppedExpr W (.level levels) s.fresh) l w := by
  rw [expression]
  exact (level_meets levels s hw (suffix_refl _)).orRewind
termination_by 16 * s.left + 12
decreasing_by simp only [length_levels]; omega

theorem level_meets (ops : List Operators) (s : State) (hw : s.Worded W) (ho : ops <:+ levels) :
    (level ops s).Meets s (StoppedExpr W (.level ops) s.fresh) silent w := by
  match ops, ho with
  | [], _ =>
    rw [level]
    exact unary_meets s hw
  | ops :: tighter, ho =>
    rw [level]
    have ht := (suffix_cons ops tighter).trans ho
    refine (level_meets tighter s hw ht).extend fun used left s₁ h₁ hr hl => ?_
    exact operands_meets used ops tighter left s₁ h₁ ho (hr.worded hw) hr.fresh
      (hl.1.as (.tighter hl.1.phrase)) hl.2
termination_by 16 * s.left + 4 + ops.length

theorem operands_meets (before : List Token) (ops : Operators) (tighter : List Operators)
    (left : Expr) (s : State) (h : s.left < n) (hops : ops :: tighter <:+ levels)
    (hw : s.Worded W) (hlo : lo ≤ s.fresh)
    (hl : GoodExpr W (.level (ops :: tighter)) lo before s left)
    (hends : (Rank.level tighter).Ends s.cursor.rest) :
    (operands ops tighter left s h).Meets s (fun used s' e =>
      StoppedExpr W (.level (ops :: tighter)) lo (before ++ used) s' e) silent w := by
  rw [operands]
  split
  case h_1 hn => exact ⟨[], .refl s, by simpa using hl, .of_nothing hn⟩
  case h_2 t s₁ h₁ hn =>
    split
    case h_1 ho =>
      have hnot := hends.next hn
      simp only [Rank.continues] at hnot
      exact ⟨[], .refl s, by simpa using hl, .of_next hn (by simpa [Rank.continues, ho] using hnot)⟩
    case h_2 op ho =>
      obtain ⟨hr₁, _, hf₁⟩ := next_token hn (isBrace_of_lookup (hops.mem (by simp)) ho) silent
      have hright := level_meets (w := false) tighter s₁ (hr₁.worded hw)
        ((suffix_cons ..).trans hops)
      refine .behind hr₁ ?_
      split
      case h_1 e s₂ h₂ he => rw [he] at hright; exact hright
      case h_2 right s₂ h₂ he =>
        rw [he] at hright
        obtain ⟨used, hr₂, hg, hends₂⟩ := hright
        have hids : Rising lo s₂.fresh (left.ids ++ right.ids) :=
          (hf₁ ▸ hl.ids).append hg.ids (hf₁ ▸ hlo) hr₂.fresh
        have hlo₂ : lo ≤ s₂.fresh := Nat.le_trans (hf₁ ▸ hlo) hr₂.fresh
        have hnode : GoodExpr W (.level (ops :: tighter)) lo (before ++ t :: used) s₂.numbered
            (.binary ⟨s₂.fresh, t.loc⟩ op left right) :=
          .onto (.binary hl.phrase ho hg.phrase) hl ⟨hl.formed, hg.formed⟩ rfl hids hlo₂ rfl rfl
            hg.placed.cons
        refine .behind hr₂.numbered ?_
        refine (operands_meets _ ops tighter _ s₂.numbered _ hops (hr₂.worded (hr₁.worded hw))
          (Nat.le_succ_of_le hlo₂) hnode hends₂).weaken fun _ _ _ _ h => ?_
        simpa using h
termination_by 16 * s.left + 4 + tighter.length
decreasing_by all_goals (try simp only [left_numbered]); omega

theorem unary_meets (s : State) (hw : s.Worded W) :
    (unary s).Meets s (StoppedExpr W (.level []) s.fresh) silent w := by
  have unsigned : (power s).Meets s (StoppedExpr W (.level []) s.fresh) silent w :=
    (power_meets s hw).weaken fun _ _ _ _ he => ⟨he.1.as (.ofPower he.1.phrase), he.2⟩
  rw [unary]
  split
  case h_1 => exact unsigned
  case h_2 t s₁ h₁ hn =>
    split
    case h_1 => exact unsigned
    case h_2 op ho =>
      obtain ⟨hr₁, _, hf₁⟩ := next_token hn (isBrace_of_unaryOp? ho) silent
      refine .within _ (.behind hr₁ (.marked ?_))
      refine (unary_meets s₁ (hr₁.worded hw)).weaken fun _ s' e hr he => ?_
      exact ⟨.first (.unary ho he.1.phrase) he.1.formed rfl (hf₁ ▸ he.1.ids) (hf₁ ▸ hr.fresh) rfl
        rfl he.1.placed, he.2⟩
termination_by 16 * s.left + 3

theorem power_meets (s : State) (hw : s.Worded W) :
    (power s).Meets s (StoppedExpr W .power s.fresh) silent w := by
  rw [power]
  refine (chained_meets s hw).extend fun used left s₁ h₁ hr₁ hl => ?_
  obtain ⟨hl, hends⟩ := hl
  have alone : GoodExpr W .power s.fresh (used ++ []) s₁ left := by
    simpa using hl.as (.ofChained hl.phrase)
  split
  case h_1 hn => exact ⟨[], .refl s₁, alone, .of_nothing hn⟩
  case h_2 t s₂ h₂ hn =>
    split
    case isFalse hk =>
      have hnot := hends.next hn
      simp only [Rank.continues] at hnot
      exact ⟨[], .refl s₁, alone, .of_next hn (by simpa [Rank.continues, hk] using hnot)⟩
    case isTrue hk =>
      obtain ⟨hr₂, _, hf₂⟩ := next_token hn (by simp [hk, isBrace]) silent
      refine .within _ (.behind hr₂ (.marked ?_))
      refine (power_meets s₂ (hr₂.worded (hr₁.worded hw))).weaken fun _ s' e hr he => ?_
      have hle : s.fresh ≤ s'.fresh := Nat.le_trans hr₁.fresh (hf₂ ▸ hr.fresh)
      exact ⟨.onto (.power hl.phrase hk he.1.phrase) hl ⟨hl.formed, he.1.formed⟩ rfl
        (hl.ids.append (hf₂ ▸ he.1.ids) hr₁.fresh (hf₂ ▸ hr.fresh)) hle rfl rfl he.1.placed.cons,
        he.2⟩
termination_by 16 * s.left + 2

theorem chained_meets (s : State) (hw : s.Worded W) :
    (chained s).Meets s (StoppedExpr W .chained s.fresh) silent w := by
  rw [chained]
  refine (primary_meets s hw).extend fun used e s₁ h₁ hr he => ?_
  exact chain_meets used e s₁ h₁ (hr.worded hw) hr.fresh (he.as (.ofPrimary he.phrase))
termination_by 16 * s.left + 1

theorem chain_meets (before : List Token) (e : Expr) (s : State) (h : s.left < n) (hw : s.Worded W)
    (hlo : lo ≤ s.fresh) (he : GoodExpr W .chained lo before s e) :
    (chain e s h).Meets s (fun used s' e' => StoppedExpr W .chained lo (before ++ used) s' e')
      silent w := by
  rw [chain]
  split
  case h_1 hn => exact ⟨[], .refl s, by simpa using he, .of_nothing hn⟩
  case h_2 t s₁ h₁ hn =>
    split
    case isTrue hk =>
      split
      case h_2 => exact .within _ fail_meets
      case h_1 mark name =>
        obtain ⟨hr₁, _, hf₁⟩ := next_token hn (by simp [hk, isBrace]) silent
        have hw₁ := hr₁.worded hw
        have hargs := arguments_meets (w := false) s₁ hw₁
        refine .behind hr₁ ?_
        split
        case h_1 f s₂ h₂ ha => rw [ha] at hargs; exact hargs
        case h_2 args s₂ h₂ ha =>
          rw [ha] at hargs
          obtain ⟨used, hr₂, hg, hphrase⟩ := hargs
          have hlo₂ : lo ≤ s₂.fresh := Nat.le_trans (hf₁ ▸ hlo) hr₂.fresh
          have hids := hg.ids.widen (hf₁ ▸ hlo) (Nat.le_refl _)
          have hnode : GoodExpr W .chained lo (before ++ ([t] ++ used)) s₂.numbered
              (.call ⟨s₂.fresh, mark.loc⟩ name args) :=
            .onto (hphrase.call he.phrase hk) he ⟨he.formed, hg.formed⟩ rfl hids hlo₂ rfl rfl
              hg.placed.right
          refine .behind hr₂.numbered ?_
          refine (chain_meets _ _ s₂.numbered _ (hr₂.worded hw₁) (Nat.le_succ_of_le hlo₂)
            hnode).weaken fun _ _ _ _ h => ?_
          simpa using h
    case isFalse hparen =>
      split
      case isFalse hdot =>
        exact ⟨[], .refl s, by simpa using he, .of_next hn (by simp [Rank.continues, hparen, hdot])⟩
      case isTrue hk =>
        obtain ⟨hr₁, _, hf₁⟩ := next_token hn (by simp [hk, isBrace]) silent
        have hw₁ := hr₁.worded hw
        have hname := s₁.expect_meets (l := silent) (w := false) .identifier "after '.'"
        refine .behind hr₁ ?_
        split
        case h_1 f s₂ h₂ hx => rw [hx] at hname; exact ⟨hname.1, hname.2⟩
        case h_2 name s₂ h₂ hx =>
          rw [hx] at hname
          obtain ⟨used, hr₂, rfl, hkn, _, hf₂⟩ := hname
          have hwn : W name.text := hw₁.of_next hr₂ hkn
          have hw₂ := hr₂.worded hw₁
          have hlo₂ : lo ≤ s₂.fresh := Nat.le_trans (hf₁ ▸ hlo) hr₂.fresh
          have he₂ : Rising lo s₂.fresh e.ids := he.ids.widen (Nat.le_refl _) (hf₁ ▸ hr₂.fresh)
          refine .behind hr₂ ?_
          split
          case h_1 =>
            have hnode : GoodExpr W .chained lo (before ++ [t, name]) s₂.numbered
                (.member ⟨s₂.fresh, t.loc⟩ e name.text) :=
              .onto (.member he.phrase hk hkn) he ⟨he.formed, hwn⟩ rfl he₂ hlo₂ rfl rfl (.head rfl)
            refine .behind (.numbered (.refl s₂)) ?_
            refine (chain_meets _ _ s₂.numbered _ hw₂ (Nat.le_succ_of_le hlo₂)
              hnode).weaken fun _ _ _ _ h => ?_
            simpa using h
          case h_2 s₃ h₃ ha =>
            obtain ⟨paren, ho, hr₃, _, hf₃⟩ := accept?_some ha silent
            have hargs := arguments_meets (w := false) s₃ (hr₃.worded hw₂)
            refine .behind hr₃ ?_
            split
            case h_1 f s₄ h₄ hx => rw [hx] at hargs; exact hargs
            case h_2 args s₄ h₄ hx =>
              rw [hx] at hargs
              obtain ⟨more, hr₄, hg, hphrase⟩ := hargs
              have hlo₄ : lo ≤ s₄.fresh := Nat.le_trans (hf₃ ▸ hlo₂) hr₄.fresh
              have hids := (hf₃ ▸ he₂).append hg.ids (hf₃ ▸ hlo₂) hr₄.fresh
              have hnode : GoodExpr W .chained lo (before ++ t :: ([name] ++ ([paren] ++ more)))
                  s₄.numbered (.invoke ⟨s₄.fresh, t.loc⟩ e name.text args) :=
                .onto (hphrase.invoke he.phrase hk hkn ho) he ⟨he.formed, hwn, hg.formed⟩ rfl hids
                  hlo₄ rfl rfl hg.placed.right.right.cons
              refine .behind hr₄.numbered ?_
              refine (chain_meets _ _ s₄.numbered _ (hr₄.worded (hr₃.worded hw₂))
                (Nat.le_succ_of_le hlo₄) hnode).weaken fun _ _ _ _ h => ?_
              simpa using h
termination_by 16 * s.left
decreasing_by all_goals (try simp only [left_numbered]); omega

theorem arguments_meets (s : State) (hw : s.Worded W) :
    (arguments s).Meets s (fun used s' args =>
      GoodArgs W s.fresh used s' args ∧ Arguments used args) silent w := by
  rw [arguments]
  split
  case h_1 s₁ h₁ ha =>
    obtain ⟨c, hc, hr, _⟩ := accept?_some ha silent
    have hnone : Arguments ([] ++ [c]) (([] : List (List Token × Expr)).map (·.2)) :=
      .close (by simp) .none hc
    exact ⟨_, hr, ⟨trivial, .nil, .nil⟩, hnone⟩
  case h_2 =>
    refine (expression_stops s hw).extend fun used e s₁ h₁ hr he => ?_
    obtain ⟨he, -⟩ := he
    have hone : GoodArgs W s.fresh used s₁ [e] :=
      ⟨⟨he.formed, trivial⟩, by simpa [idsOf] using he.ids, by simpa [placesOf] using he.placed⟩
    exact moreArguments_meets [(used, e)] s₁ h₁ (hr.worded hw) hr.fresh hone (by simp)
      (by simpa using he.phrase) .one
termination_by 16 * s.left + 13

theorem moreArguments_meets (parts : List (List Token × Expr)) (s : State) (h : s.left < n)
    (hw : s.Worded W) (hlo : lo ≤ s.fresh) (ha : GoodArgs W lo before s (parts.map (·.2)).reverse)
    (hne : parts ≠ []) (hparts : ∀ a ∈ parts, Expression a.1 a.2)
    (hsep : Separated (parts.reverse.map (·.1)) before) :
    (moreArguments (parts.map (·.2)) s h).Meets s (fun used s' args =>
      GoodArgs W lo (before ++ used) s' args ∧ Arguments (before ++ used) args) silent w := by
  have close (s' : State) (h' : s'.left ≤ n) (hf : s.fresh ≤ s'.fresh) :
      (((s'.expect .rightParen "after arguments").map
        fun _ => (parts.map (·.2)).reverse).within h').Meets s' (fun used s'' args =>
          GoodArgs W lo (before ++ used) s'' args ∧ Arguments (before ++ used) args) silent w := by
    refine .within _ (.map ((s'.expect_meets ..).weaken fun _ s'' _ hr hx => ?_))
    obtain ⟨rfl, hc, -⟩ := hx
    refine ⟨ha.later (Nat.le_trans hf hr.fresh), ?_⟩
    rw [← map_reverse]
    exact .close (fun a ha => hparts a (mem_reverse.mp ha)) hsep hc
  rw [moreArguments]
  split
  case h_1 => exact close s _ (Nat.le_refl _)
  case h_2 s₁ h₁ hc =>
    obtain ⟨comma, hk, hr₁, _, hf₁⟩ := accept?_some hc silent
    have hexpr := expression_stops (l := silent) (w := false) s₁ (hr₁.worded hw)
    split
    case h_1 f s₂ h₂ hx =>
      rw [hx] at hexpr
      obtain ⟨⟨_, hr₂⟩, _⟩ := hexpr
      exact .rewound (hr₁.trans hr₂) rfl (close _ _ (hr₁.trans hr₂).fresh)
    case h_2 e s₂ h₂ hx =>
      rw [hx] at hexpr
      obtain ⟨used, hr₂, he, -⟩ := hexpr
      have hr := hr₁.trans hr₂
      have hpast : GoodArgs W lo (before ++ [comma] ++ used) s₂
          (((used, e) :: parts).map (·.2)).reverse := by
        rw [map_cons, reverse_cons]
        exact GoodArgs.push (ha.later (Nat.le_of_eq hf₁.symm)) he.toGood (hf₁ ▸ hlo) hr₂.fresh
      have hsep' : Separated (((used, e) :: parts).reverse.map (·.1))
          (before ++ [comma] ++ used) := by
        simpa using hsep.push (by simpa using hne) hk
      refine .behind hr ?_
      refine (moreArguments_meets ((used, e) :: parts) s₂ _ (hr.worded hw)
        (Nat.le_trans hlo hr.fresh) hpast (by simp)
        (forall_mem_cons.mpr ⟨he.phrase, hparts⟩) hsep').weaken fun _ _ _ _ h => ?_
      simpa using h
termination_by 16 * s.left

theorem primary_meets (s : State) (hw : s.Worded W) :
    (primary s).Meets s (GoodExpr W .primary s.fresh) silent w := by
  rw [primary]
  split
  case h_1 => exact fail_meets
  case h_2 t s₁ h₁ hn =>
    have leaf {e : Expr} (hb : isBrace t.kind = false) (hph : Phrase .primary [t] e)
        (hf : e.Formed W) (hi : e.ids = [s₁.fresh]) (hs : e.start = t.loc)
        (hp : e.places = [t.loc]) : Reply.Meets (n := s.left) s (GoodExpr W .primary s.fresh)
          (.done e s₁.numbered h₁) silent w := by
      obtain ⟨hr₁, -⟩ := next_token hn hb silent
      exact ⟨_, hr₁.numbered, .first hph hf (by simpa using hi) .nil hr₁.fresh hs hp .nil⟩
    split
    case h_1 hv => exact leaf (isBrace_of_literal? hv) (.literal hv) trivial rfl rfl rfl
    case h_2 hv => exact fail_meets (isInner_of_literal? hv) fun _ => (next_passes hn).2.1 ▸ hv
    case h_3 =>
      split
      case h_1 hk => exact leaf (by simp [hk, isBrace]) (.receiver hk) trivial rfl rfl rfl
      case h_2 hk =>
        obtain ⟨hr₁, -⟩ := next_token hn (by simp [hk, isBrace])
        exact leaf (by simp [hk, isBrace]) (.name hk) (hw.of_next hr₁ hk) rfl rfl rfl
      case h_3 hk =>
        obtain ⟨hr₁, _, hf₁⟩ := next_token hn (by simp [hk, isBrace]) silent
        have hw₁ := hr₁.worded hw
        refine .after (.within _ (.behind hr₁ ?_)) (failure_behind _)
        refine (typeName_meets hw₁).bind fun _ type s₂ _ hr₂ hmeets => ?_
        obtain ⟨rfl, htype, ht, hf₂⟩ := hmeets
        refine (s₂.expect_meets ..).bind fun _ o s₃ _ hr₃ hmeets => .marked ?_
        obtain ⟨rfl, ho, -, hf₃⟩ := hmeets
        refine (arguments_meets s₃ (hr₃.worded (hr₂.worded hw₁))).weaken fun _ s₄ args hr₄ ha => ?_
        have hf : s₃.fresh = s.fresh := hf₃.trans (hf₂.trans hf₁)
        exact .first (ha.2.create hk htype ho) ⟨ht, ha.1.formed⟩ rfl (hf ▸ ha.1.ids)
          (hf ▸ hr₄.fresh) rfl rfl ha.1.placed.right.right
      case h_4 hk =>
        obtain ⟨hr₁, _, hf₁⟩ := next_token hn (by simp [hk, isBrace]) silent
        refine .after (.within _ (.behind hr₁ ?_)) (failure_behind _)
        refine (expression_stops s₁ (hr₁.worded hw)).bind fun used e s₂ _ hr₂ he => .map ?_
        obtain ⟨he, -⟩ := he
        refine (s₂.expect_meets ..).weaken fun _ s₃ c hr₃ hmeets => ?_
        obtain ⟨rfl, hc, -⟩ := hmeets
        have hgood : Good (Expr.Formed W) Expr.ids Expr.places s₁.fresh (used ++ [c]) s₃ e :=
          he.later hr₃.fresh
        exact ⟨hf₁ ▸ hgood.earlier (Nat.le_refl _), ⟨t, _, rfl, .inr hgood.placed⟩,
          .parenthesized hk he.phrase hc⟩
      case h_5 => exact fail_meets
termination_by 16 * s.left

end

theorem expression_meets (s : State) (hw : s.Worded W) :
    (expression s).Meets s (GoodExpr W (.level levels) s.fresh) l w :=
  (expression_stops s hw).weaken fun _ _ _ _ he => he.1

end Lumen.Grammar
