import Lumen.Proofs.Typing.Collecting

namespace Lumen.Typing.Analysis

open List

structure Idle (a : Analysis) : Prop where
  headed : a.table.Headed
  blocks : a.blocks = []

-- Two analyses that cannot be told apart, except by positions and by the order of problems.
structure Same (a b : Analysis) : Prop where
  left     : a.Idle
  right    : b.Idle
  look     : ∀ k, a.look k = b.look k
  problems : a.problems.Perm b.problems

variable {a b a' b' : Analysis} {K Q : Key → Prop}

theorem Spares.idle (h : Spares K a b) (ha : a.Idle) : b.Idle :=
  ⟨h.headed, h.blocks.trans ha.blocks⟩

theorem Same.refl (ha : a.Idle) : Same a a :=
  ⟨ha, ha, fun _ => rfl, .refl _⟩

theorem Same.trans (h : Same a b) (h' : Same b c) : Same a c :=
  ⟨h.left, h'.right, fun k => (h.look k).trans (h'.look k), h.problems.trans h'.problems⟩

theorem Same.twins (h : Same a b) : Twins Q (Matches Q a b) a b :=
  .of_look h.left.headed h.right.headed (h.left.blocks.trans h.right.blocks.symm)
    fun k _ => h.look k

theorem Same.of_together {R : Nat → Nat → Prop} (h : Same a b)
    (ht : Together (fun _ => True) R a b a' b') (ha : a'.Idle) (hb : b'.Idle) : Same a' b' where
  left := ha
  right := hb
  look := fun k => ht.twins.look_eq trivial
  problems := by
    obtain ⟨ps, hps, hps'⟩ := ht.problems
    rw [hps, hps']
    exact h.problems.append_left ps

-- The step for `x` answers the questions `own x`. It asks those itself, and beyond them the
-- questions `C`, which no step answers.
structure Independent {α : Type} (C : Key → Prop) (own : α → List Key)
    (step : Analysis → α → Analysis) (xs : List α) : Prop where
  spares : ∀ x ∈ xs, ∀ a : Analysis, a.Idle → Spares (· ∈ own x) a (step a x)
  joint  : ∀ x ∈ xs, ∀ (a b : Analysis) (R : Nat → Nat → Prop),
    Twins (fun k => k ∈ own x ∨ C k) R a b →
    Jointly (fun k => k ∈ own x ∨ C k) R a b (step a x) (step b x)
  apart  : xs.Pairwise fun x y => (own x).Disjoint (own y)
  common : ∀ x ∈ xs, ∀ k ∈ own x, ¬C k

namespace Independent

variable {α : Type} {C : Key → Prop} {own : α → List Key} {step : Analysis → α → Analysis}
  {x y : α} {xs ys : List α}

theorem tail (h : Independent C own step (x :: xs)) : Independent C own step xs where
  spares := fun y hy => h.spares y (.tail x hy)
  joint := fun y hy => h.joint y (.tail x hy)
  apart := h.apart.tail
  common := fun y hy => h.common y (.tail x hy)

section

variable (h : Independent C own step xs)

include h

theorem of_perm (hp : xs.Perm ys) :
    Independent C own step ys where
  spares := fun y hy => h.spares y (hp.mem_iff.mpr hy)
  joint := fun y hy => h.joint y (hp.mem_iff.mpr hy)
  apart := (hp.pairwise_iff disjoint_symm).mp h.apart
  common := fun y hy => h.common y (hp.mem_iff.mpr hy)

theorem agrees (hx : x ∈ xs) (ha : a.Idle) (hb : b.Idle)
    (hlook : ∀ k, k ∈ own x ∨ C k → a.look k = b.look k) :
    (∀ k ∈ own x, (step a x).look k = (step b x).look k) ∧
      ∃ ps, (step a x).problems = ps ++ a.problems ∧ (step b x).problems = ps ++ b.problems := by
  have htwins := Twins.of_look ha.headed hb.headed (ha.blocks.trans hb.blocks.symm) hlook
  obtain ⟨R, -, ht⟩ := h.joint x hx a b _ htwins
  exact ⟨fun k hk => ht.twins.look_eq (.inl hk), ht.problems⟩

theorem step_same (hx : x ∈ xs) (hs : Same a b) :
    Same (step a x) (step b x) := by
  have ha := h.spares x hx a hs.left
  have hb := h.spares x hx b hs.right
  obtain ⟨hown, ps, hps, hps'⟩ := h.agrees hx hs.left hs.right fun k _ => hs.look k
  refine ⟨ha.idle hs.left, hb.idle hs.right, fun k => ?_, ?_⟩
  · by_cases hk : k ∈ own x
    case pos => exact hown k hk
    case neg => rw [ha.look k hk, hb.look k hk, hs.look k]
  · rw [hps, hps']
    exact hs.problems.append_left ps

-- Two steps, one of them before the other or behind it.
theorem swap_same (hx : x ∈ xs) (hy : y ∈ xs)
    (hxy : (own x).Disjoint (own y)) (hs : Same a b) :
    Same (step (step a y) x) (step (step b x) y) := by
  have hay := h.spares y hy a hs.left
  have hbx := h.spares x hx b hs.right
  have hyx := h.spares x hx _ (hay.idle hs.left)
  have hxy' := h.spares y hy _ (hbx.idle hs.right)
  obtain ⟨hown, ps, hps, hps'⟩ := h.agrees hx (hay.idle hs.left) hs.right fun k hk => by
    have hn : k ∉ own y := fun hky => hk.elim (fun hkx => hxy hkx hky) (h.common y hy k hky)
    rw [hay.look k hn, hs.look k]
  obtain ⟨hown', qs, hqs, hqs'⟩ := h.agrees hy hs.left (hbx.idle hs.right) fun k hk => by
    have hn : k ∉ own x := fun hkx => hk.elim (fun hky => hxy hkx hky) (h.common x hx k hkx)
    rw [hbx.look k hn, hs.look k]
  refine ⟨hyx.idle (hay.idle hs.left), hxy'.idle (hbx.idle hs.right), fun k => ?_, ?_⟩
  · by_cases hkx : k ∈ own x
    case pos => rw [hown k hkx, hxy'.look k fun hky => hxy hkx hky]
    case neg =>
      rw [hyx.look k hkx]
      by_cases hky : k ∈ own y
      case pos => exact hown' k hky
      case neg => rw [hay.look k hky, hxy'.look k hky, hbx.look k hkx, hs.look k]
  · rw [hps, hqs, hqs', hps', ← append_assoc, ← append_assoc]
    exact perm_append_comm.append hs.problems

theorem foldl_idle (ha : a.Idle) : (xs.foldl step a).Idle := by
  induction xs generalizing a
  case nil => exact ha
  case cons x xs ih => exact ih h.tail ((h.spares x (.head xs) a ha).idle ha)

theorem foldl_same (hs : Same a b) :
    Same (xs.foldl step a) (xs.foldl step b) := by
  induction xs generalizing a b
  case nil => exact hs
  case cons x xs ih => exact ih h.tail (h.step_same (.head xs) hs)

theorem foldl_perm (hp : xs.Perm ys) (hs : Same a b) :
    Same (xs.foldl step a) (ys.foldl step b) := by
  induction hp generalizing a b
  case nil => exact hs
  case cons x xs ys hp ih => exact ih h.tail (h.step_same (.head xs) hs)
  case swap x y xs =>
    have hxy := (pairwise_cons.mp h.apart).1 x (.head xs)
    exact h.tail.tail.foldl_same
      (h.swap_same (.tail y (.head xs)) (.head _) (disjoint_symm hxy) hs)
  case trans xs ys zs hp hp' ih ih' =>
    exact (ih h hs).trans (ih' (h.of_perm hp) (.refl hs.right))

end

end Independent

end Lumen.Typing.Analysis
