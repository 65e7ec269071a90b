import Lumen.Code.Slots

namespace Lumen.Code.Slots

open List

def Block.Declares (block : Block) (name : String) : Prop :=
  name ∈ block.brought ∨ name ∈ block.hidden.map Prod.fst

def outside? (s : Slots) (name : String) : Option Nat :=
  match s.blocks with
  | [] => none
  | block :: _ =>
    ((block.hidden.find? (·.1 = name)).map (·.2)).or
      (if name ∈ block.brought then none else s.find? name)

theorem getElem?_foldr_erase (names : List String) (m : Std.TreeMap String Nat) (name : String) :
    (names.foldr (fun n m => m.erase n) m)[name]? = if name ∈ names then none else m[name]? := by
  induction names
  case nil => simp
  case cons n names ih =>
    rw [foldr_cons, Std.TreeMap.getElem?_erase, ih]
    by_cases h : n = name
    · simp [h]
    · simp [h, Ne.symm h]

theorem getElem?_foldr_insert (pairs : List (String × Nat)) (m : Std.TreeMap String Nat)
    (name : String) :
    (pairs.foldr (fun (n, slot) m => m.insert n slot) m)[name]? =
      ((pairs.find? (·.1 = name)).map (·.2)).or m[name]? := by
  induction pairs
  case nil => simp
  case cons p pairs ih =>
    rw [foldr_cons, Std.TreeMap.getElem?_insert, ih, find?_cons]
    by_cases h : p.1 = name <;> simp [h]

theorem find?_leave {s : Slots} (h : s.blocks ≠ []) (name : String) :
    s.leave.find? name = s.outside? name := by
  cases hb : s.blocks
  case nil => exact absurd hb h
  case cons block outer =>
    simp only [leave, outside?, hb, find?, getElem?_foldr_insert, getElem?_foldr_erase]

theorem blocks_leave (s : Slots) : s.leave.blocks = s.blocks.tail := by
  rw [leave]
  split
  case h_1 h => simp [h]
  case h_2 block outer h => simp [h]

theorem given_leave (s : Slots) : s.leave.given = s.given := by
  rw [leave]
  split <;> rfl

theorem next_leave (s : Slots) : s.leave.next = s.next := by
  rw [leave]
  split <;> rfl

@[simp] theorem find?_enter (s : Slots) (name : String) : s.enter.find? name = s.find? name :=
  rfl

@[simp] theorem outside?_enter (s : Slots) (name : String) :
    s.enter.outside? name = s.find? name := by
  simp [outside?, enter, find?]

section Allocate

variable {s s' : Slots} {name : String} {type : Ty} {slot : Nat}

section

variable (h : s.allocate name type = .ok (slot, s'))

include h

theorem given_allocate :
    slot = s.next ∧ s'.given = ⟨name, s.next, type⟩ :: s.given ∧
      s'.next = s.next + type.slotWidth := by
  rw [allocate] at h
  split at h
  · cases h
    exact ⟨rfl, rfl, rfl⟩
  · cases h

theorem find?_allocate (x : String) :
    s'.find? x = if name = x then some slot else s.find? x := by
  rw [allocate] at h
  split at h
  · cases h
    simp [find?, Std.TreeMap.getElem?_insert]
  · cases h

theorem tail_allocate :
    s'.blocks.tail = s.blocks.tail ∧ s'.blocks.length = s.blocks.length := by
  rw [allocate] at h
  split at h
  · cases h
    cases s.blocks <;> simp
  · cases h

theorem outside?_allocate
    (hn : ∀ block ∈ s.blocks.head?, ¬block.Declares name) (x : String) :
    s'.outside? x = s.outside? x := by
  have hfind := find?_allocate h x
  rw [allocate] at h
  split at h
  case isFalse => cases h
  case isTrue =>
    cases h
    cases hb : s.blocks
    case nil => simp [outside?, hb]
    case cons block outer =>
      have hfree := hn block (by simp [hb])
      rw [Block.Declares, not_or] at hfree
      have hhidden : block.hidden.find? (·.1 = name) = none := by
        rw [find?_eq_none]
        intro p hp he
        exact hfree.2 (mem_map.mpr ⟨p, hp, by simpa using he⟩)
      simp only [outside?, hb] at hfind ⊢
      rw [hfind]
      by_cases e : name = x
      case neg => cases hold : s.find? name <;> simp [Block.note, hfree.1, e, Ne.symm e]
      case pos =>
        subst e
        cases hold : s.find? name <;> simp [Block.note, hfree.1, hhidden]

theorem declares_allocate (hb : block ∈ s'.blocks.head?)
    (hx : block.Declares x) : x = name ∨ ∃ old ∈ s.blocks.head?, old.Declares x := by
  rw [allocate] at h
  split at h
  case isFalse => cases h
  case isTrue =>
    cases h
    cases hs : s.blocks
    case nil => simp [hs] at hb
    case cons old outer =>
      simp only [hs, head?_cons, Option.mem_some] at hb ⊢
      subst hb
      simp only [Block.Declares, Block.note] at hx ⊢
      grind

end

end Allocate
end Lumen.Code.Slots
