import Mathlib.Data.List.Induction
import Lumen.Spelling

namespace Lumen.Spelling

open List

def vocabulary : List String :=
  Token.Kind.reserved.map Prod.fst

-- The first of the closest words within the tolerance.
structure Closest (word : List Char) (words : List String) (w : String) : Prop where
  close   : distance word w.toList ≤ tolerance word.length
  nearest : ∃ before after, words = before ++ w :: after ∧
    (∀ v ∈ before, distance word w.toList < distance word v.toList) ∧
    ∀ v ∈ after, distance word w.toList ≤ distance word v.toList

inductive Finds (word : List Char) (words : List String) : Option (Nat × String) → Prop
  | none : (∀ w ∈ words, tolerance word.length < distance word w.toList) → Finds word words none
  | some : Closest word words w → Finds word words (some (distance word w.toList, w))

variable {word : List Char} {words : List String} {w : String}

theorem Closest.mem (h : Closest word words w) : w ∈ words := by
  obtain ⟨before, after, rfl, -⟩ := h.nearest
  simp

theorem Closest.least (h : Closest word words w) :
    ∀ v ∈ words, distance word w.toList ≤ distance word v.toList := by
  obtain ⟨before, after, rfl, hbefore, hafter⟩ := h.nearest
  intro v hv
  rcases mem_append.mp hv with hv | hv
  · exact Nat.le_of_lt (hbefore v hv)
  · rcases mem_cons.mp hv with rfl | hv
    · exact Nat.le_refl _
    · exact hafter v hv

-- The first of the closest words stays the first one as long as no closer word follows.
theorem Closest.append (h : Closest word words w)
    (hle : distance word w.toList ≤ distance word v.toList) : Closest word (words ++ [v]) w := by
  obtain ⟨before, after, rfl, hbefore, hafter⟩ := h.nearest
  refine ⟨h.close, before, after ++ [v], by simp, hbefore, ?_⟩
  exact forall_mem_append.mpr ⟨hafter, by simpa using hle⟩

theorem Closest.last (hclose : distance word w.toList ≤ tolerance word.length)
    (hlt : ∀ v ∈ words, distance word w.toList < distance word v.toList) :
    Closest word (words ++ [w]) w :=
  ⟨hclose, words, [], rfl, hlt, by simp⟩

-- By induction on the words that have been compared.
theorem closest_finds (word : List Char) (words : List String) :
    Finds word words (closest word words) := by
  induction words using List.reverseRecOn with
  | nil => exact .none (by simp)
  | append_singleton words w ih =>
    simp only [closest, foldl_append, foldl_cons, foldl_nil] at ih ⊢
    revert ih
    generalize List.foldl _ none words = best
    intro ih
    split
    case isTrue hfar =>
      cases ih with
      | none hnone => exact .none (forall_mem_append.mpr ⟨hnone, by simpa using hfar⟩)
      | some hbest =>
        exact .some (hbest.append (Nat.le_of_lt (Nat.lt_of_le_of_lt hbest.close hfar)))
    case isFalse hclose =>
      rw [Nat.not_lt] at hclose
      cases ih with
      | none hnone => exact .some (.last hclose fun v hv => Nat.lt_of_le_of_lt hclose (hnone v hv))
      | some hbest =>
        simp only
        split
        case isTrue hle => exact .some (hbest.append hle)
        case isFalse hlt =>
          rw [Nat.not_le] at hlt
          exact .some (.last hclose fun v hv => Nat.lt_of_lt_of_le hlt (hbest.least v hv))

-- Operators of other languages are not made of letters.
theorem lookup_foreignOperators (h : text.toList.all Char.isAlpha) :
    foreignOperators.lookup text = none := by
  have hsigns : ∀ entry ∈ foreignOperators, ¬entry.1.toList.all Char.isAlpha := by decide +kernel
  rw [lookup_eq_none_iff]
  intro entry hentry
  rw [bne_iff_ne]
  rintro rfl
  exact hsigns entry hentry h

theorem isSome_ofWord? : (Token.Kind.ofWord? text).isSome ↔ text ∈ vocabulary := by
  simp [Token.Kind.ofWord?, vocabulary, lookup_isSome_iff]

theorem correction?_of_letters (hne : text ≠ "") (hletters : ∀ c ∈ text.toList, c.isAlpha)
    (hnew : text ∉ vocabulary) :
    correction? text = (closest text.toList vocabulary).map Prod.snd := by
  have hall : text.toList.all Char.isAlpha := by simpa using hletters
  have hword : Token.Kind.ofWord? text = none := by simpa using mt isSome_ofWord?.mp hnew
  simp [correction?, lookup_foreignOperators hall, hall, hne, hword, vocabulary]

-- A word of letters that is not reserved has a correction if and only if some reserved word is
-- within the tolerance, and this is then the first of the closest ones. Apart from that only
-- operators of other languages are corrected.
theorem correction?_closest (text : String) :
    (text ≠ "" → (∀ c ∈ text.toList, c.isAlpha) → text ∉ vocabulary →
      ((correction? text).isSome ↔
        ∃ w ∈ vocabulary, distance text.toList w.toList ≤ min 2 (text.length / 2)) ∧
      ∀ w, correction? text = some w → Closest text.toList vocabulary w) ∧
    (text ∈ vocabulary ∨ (∀ operator, (text, operator) ∉ foreignOperators) ∧
        ¬(∀ c ∈ text.toList, c.isAlpha) →
      correction? text = none) := by
  refine ⟨fun hne hletters hnew => ?_, ?_⟩
  · have htolerance : min 2 (text.length / 2) = tolerance text.toList.length := by
      rw [tolerance, String.length_toList, Nat.min_comm]
    rw [correction?_of_letters hne hletters hnew, htolerance]
    have hfinds := closest_finds text.toList vocabulary
    generalize closest text.toList vocabulary = found at hfinds ⊢
    cases hfinds with
    | none hfar =>
      refine ⟨⟨by simp, fun hclose => ?_⟩, by simp⟩
      obtain ⟨w, hw, hclose⟩ := hclose
      exact absurd hclose (Nat.not_le.mpr (hfar w hw))
    | @some w hw =>
      refine ⟨⟨fun _ => ⟨w, hw.mem, hw.close⟩, by simp⟩, fun v hv => ?_⟩
      cases hv
      exact hw
  · rintro (hword | ⟨hoperator, hletters⟩)
    · have hletters : ∀ w ∈ vocabulary, w.toList.all Char.isAlpha := by decide +kernel
      simp [correction?, lookup_foreignOperators (hletters text hword), isSome_ofWord?.mpr hword]
    · have hlookup : foreignOperators.lookup text = none := by
        rw [lookup_eq_none_iff]
        rintro ⟨sign, operator⟩ hentry
        rw [bne_iff_ne]
        rintro rfl
        exact hoperator operator hentry
      simp [correction?, hlookup, hletters]

-- `if` and `int` are equally close.
theorem correction?_closest_in :
    correction? "in" = some "if" ∧ Closest "in".toList vocabulary "if" ∧
      distance "in".toList "int".toList = distance "in".toList "if".toList := by
  have hword : correction? "in" = some "if" := by decide +kernel
  have hletters : "in".toList.all Char.isAlpha := by decide +kernel
  obtain ⟨-, hclosest⟩ :=
    (correction?_closest "in").1 (by decide) (all_eq_true.mp hletters) (by decide +kernel)
  exact ⟨hword, hclosest "if" hword, by decide +kernel⟩

end Lumen.Spelling
