import Mathlib.Order.Bounds.Defs
import Lumen.Proofs.Spelling

namespace Lumen.Spelling

-- Two words one of which is turned into the other by a number of edits. No character takes part in
-- two of them.
inductive Aligned : List Char → List Char → Nat → Prop
  | nil : Aligned [] [] 0
  | keep (c : Char) : Aligned as bs n → Aligned (c :: as) (c :: bs) n
  | insert (b : Char) : Aligned as bs n → Aligned as (b :: bs) (n + 1)
  | delete (a : Char) : Aligned as bs n → Aligned (a :: as) bs (n + 1)
  | substitute (a b : Char) : Aligned as bs n → Aligned (a :: as) (b :: bs) (n + 1)
  | swap (a b : Char) : Aligned as bs n → Aligned (a :: b :: as) (b :: a :: bs) (n + 1)

namespace Aligned

theorem symm (h : Aligned as bs n) : Aligned bs as n := by
  induction h
  case nil => exact .nil
  case keep c _ ih => exact .keep c ih
  case insert b _ ih => exact .delete b ih
  case delete a _ ih => exact .insert a ih
  case substitute a b _ ih => exact .substitute b a ih
  case swap a b _ ih => exact .swap b a ih

theorem refl (as : List Char) : Aligned as as 0 := by
  induction as
  case nil => exact .nil
  case cons a as ih => exact .keep a ih

theorem length_le (h : Aligned as bs n) : as.length ≤ bs.length + n := by
  induction h <;> simp only [List.length_cons, List.length_nil] <;> omega

theorem eq_of_zero (h : Aligned as bs n) (hn : n = 0) : as = bs := by
  induction h
  case nil => rfl
  case keep c _ ih => rw [ih hn]
  all_goals cases hn

-- Characters are substituted as long as there are any in both words.
theorem of_lengths (as bs : List Char) : ∃ n ≤ max as.length bs.length, Aligned as bs n := by
  induction as generalizing bs
  case nil =>
    induction bs
    case nil => exact ⟨0, Nat.le_refl 0, .nil⟩
    case cons b bs ih =>
      obtain ⟨n, hn, h⟩ := ih
      exact ⟨n + 1, by simpa using hn, .insert b h⟩
  case cons a as ih =>
    cases bs
    case nil =>
      obtain ⟨n, hn, h⟩ := ih []
      exact ⟨n + 1, by simpa using hn, .delete a h⟩
    case cons b bs =>
      obtain ⟨n, hn, h⟩ := ih bs
      refine ⟨n + 1, ?_, .substitute a b h⟩
      rw [List.length_cons, List.length_cons]
      omega

end Aligned

theorem rows_fst (bs : List Char) (a : Char) (as : List Char) :
    (rows bs (a :: as)).1 = row a as.head? bs (rows bs as).1 (rows bs as).2 := rfl

theorem rows_snd (bs : List Char) (a : Char) (as : List Char) :
    (rows bs (a :: as)).2 = (rows bs as).1 := rfl

-- A row of the table is that of the word behind the first character, with one more entry.
theorem rows_cons (b : Char) (bs as : List Char) :
    (rows (b :: bs) as).1 = distance as (b :: bs) :: (rows bs as).1 ∧
      (rows (b :: bs) as).2.tail = (rows bs as).2 := by
  induction as
  case nil => exact ⟨rfl, rfl⟩
  case cons a as ih =>
    obtain ⟨hbelow, htwo⟩ := ih
    rw [distance, rows_fst, rows_fst, rows_snd, rows_snd, hbelow, ← htwo]
    exact ⟨rfl, rfl⟩

theorem rows_head (bs as : List Char) : ∃ rest, (rows bs as).1 = distance as bs :: rest := by
  cases bs
  case nil => cases as <;> exact ⟨[], rfl⟩
  case cons b bs => exact ⟨_, (rows_cons b bs as).1⟩

def unswapped (a b : Char) (as bs : List Char) : Nat :=
  min (min (distance as (b :: bs) + 1) (distance (a :: as) bs + 1))
    (distance as bs + if a = b then 0 else 1)

theorem distance_cons (a b : Char) (as bs : List Char) :
    distance (a :: as) (b :: bs) = match as, bs with
      | a' :: as', b' :: bs' =>
        if a = b' ∧ a' = b then min (unswapped a b as bs) (distance as' bs' + 1)
        else unswapped a b as bs
      | _, _ => unswapped a b as bs := by
  obtain ⟨hbelow, htwo⟩ := rows_cons b bs as
  rw [distance, rows_fst, hbelow, unswapped, distance, distance, distance, rows_fst, ← htwo]
  cases as
  case nil => rfl
  case cons a' as =>
    cases bs
    case nil => rfl
    case cons b' bs =>
      rw [rows_snd, (rows_cons b _ as).1, (rows_cons b' _ as).1]
      obtain ⟨rest, hrest⟩ := rows_head bs as
      rw [hrest]
      rfl

theorem distance_le_unswapped (a b : Char) (as bs : List Char) :
    distance (a :: as) (b :: bs) ≤ unswapped a b as bs := by
  rw [distance_cons]
  split
  · split
    · exact Nat.min_le_left _ _
    · exact Nat.le_refl _
  · exact Nat.le_refl _

-- What can be done with the first characters of two words.
theorem distance_cases (a b : Char) (as bs : List Char) :
    distance (a :: as) (b :: bs) = distance as (b :: bs) + 1 ∨
    distance (a :: as) (b :: bs) = distance (a :: as) bs + 1 ∨
    (distance (a :: as) (b :: bs) = distance as bs + if a = b then 0 else 1) ∨
    ∃ as' bs', as = b :: as' ∧ bs = a :: bs' ∧
      distance (a :: as) (b :: bs) = distance as' bs' + 1 := by
  rw [distance_cons]
  split
  case h_1 a' as b' bs =>
    split
    case isTrue h =>
      obtain ⟨rfl, rfl⟩ := h
      simp only [unswapped, List.cons.injEq, true_and, exists_and_left, exists_eq_left']
      omega
    case isFalse =>
      rw [unswapped]
      omega
  case h_2 =>
    rw [unswapped]
    omega

-- No alignment takes fewer edits. By induction on the alignment.
theorem Aligned.distance_le (h : Aligned as bs n) : distance as bs ≤ n := by
  induction h
  case nil => exact Nat.le_refl 0
  case keep as bs n c _ ih =>
    have hle := distance_le_unswapped c c as bs
    simp only [unswapped, if_true] at hle
    omega
  case insert xs ys n b h ih =>
    cases xs
    case nil => exact Nat.succ_le_succ ih
    case cons a xs =>
      have hle := distance_le_unswapped a b xs ys
      rw [unswapped] at hle
      omega
  case delete xs ys n a h ih =>
    cases ys
    case nil => exact Nat.succ_le_succ ih
    case cons b ys =>
      have hle := distance_le_unswapped a b xs ys
      rw [unswapped] at hle
      omega
  case substitute as bs n a b _ ih =>
    have hle := distance_le_unswapped a b as bs
    rw [unswapped] at hle
    split at hle <;> omega
  case swap as bs n a b _ ih =>
    rw [distance_cons]
    simp only [and_self, if_true]
    omega

-- The table holds the cost of an alignment. By induction on both words, as the table is filled.
theorem aligned_distance (as bs : List Char) : Aligned as bs (distance as bs) := by
  match as, bs with
  | [], [] => exact .nil
  | [], b :: bs => exact .insert b (aligned_distance [] bs)
  | a :: as, [] => exact .delete a (aligned_distance as [])
  | a :: as, b :: bs =>
    rcases distance_cases a b as bs with h | h | h | ⟨as', bs', rfl, rfl, h⟩ <;> rw [h]
    · exact (aligned_distance as (b :: bs)).delete a
    · exact (aligned_distance (a :: as) bs).insert b
    · have hboth := aligned_distance as bs
      split
      case isTrue heq => exact heq ▸ hboth.keep a
      case isFalse => exact hboth.substitute a b
    · exact (aligned_distance as' bs').swap a b
termination_by as.length + bs.length

-- The distance of two words is the least number of edits that turn one into the other. It does not
-- depend on the order of the words and is zero for equal words only. The lengths bound it from both
-- sides.
theorem distance_isLeast (as bs : List Char) :
    IsLeast {n | Aligned as bs n} (distance as bs) ∧ distance as bs = distance bs as ∧
      (distance as bs = 0 ↔ as = bs) ∧
      max as.length bs.length - min as.length bs.length ≤ distance as bs ∧
      distance as bs ≤ max as.length bs.length := by
  have hbest := aligned_distance as bs
  have hback := aligned_distance bs as
  refine ⟨⟨hbest, fun n h => h.distance_le⟩, ?_, ⟨hbest.eq_of_zero, ?_⟩, ?_, ?_⟩
  · exact Nat.le_antisymm hback.symm.distance_le hbest.symm.distance_le
  · rintro rfl
    exact Nat.le_zero.mp (Aligned.refl as).distance_le
  · have hle := hbest.length_le
    have hge := hbest.symm.length_le
    omega
  · obtain ⟨n, hn, h⟩ := Aligned.of_lengths as bs
    exact Nat.le_trans h.distance_le hn

end Lumen.Spelling
