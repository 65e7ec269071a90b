import Lumen.Proofs.Code.Slots

namespace Lumen.Code.Slots

open List Option

inductive Step where
  | enter
  | leave
  | allocate (name : String) (type : Ty)
  | find (name : String)

def after (s : Slots) : Step → Slots
  | .enter => s.enter
  | .leave => s.leave
  | .allocate name type =>
    match s.allocate name type with
    | .ok (_, s') => s'
    | .error _ => s
  | .find _ => s

def afterAll (s : Slots) (steps : List Step) : Slots :=
  steps.foldl after s

@[simp] theorem afterAll_nil (s : Slots) : s.afterAll [] = s :=
  rfl

@[simp] theorem afterAll_cons (s : Slots) (step : Step) (steps : List Step) :
    s.afterAll (step :: steps) = (s.after step).afterAll steps :=
  rfl

theorem afterAll_append (s : Slots) (a b : List Step) :
    s.afterAll (a ++ b) = (s.afterAll a).afterAll b :=
  foldl_append

theorem after_allocate (s : Slots) (name : String) (type : Ty) :
    (∃ slot s', s.allocate name type = .ok (slot, s') ∧ s.after (.allocate name type) = s') ∨
      (∃ e, s.allocate name type = .error e) ∧ s.after (.allocate name type) = s := by
  cases h : s.allocate name type
  case ok given => exact .inl ⟨given.1, given.2, rfl, by simp [after, h]⟩
  case error e => exact .inr ⟨⟨e, rfl⟩, by simp [after, h]⟩

section Rows

def Contiguous (start stop : Nat) : List Local → Prop
  | [] => start = stop
  | row :: rest => row.slot = start ∧ Contiguous (start + row.type.slotWidth) stop rest

namespace Contiguous

variable {start stop : Nat} {rows : List Local}

section

variable (h : Contiguous start stop rows)

include h

theorem push (name : String) (type : Ty) :
    Contiguous start (stop + type.slotWidth) (rows ++ [⟨name, stop, type⟩]) := by
  induction rows generalizing start
  case nil =>
    cases h
    exact ⟨rfl, rfl⟩
  case cons row rest ih => exact ⟨h.1, ih h.2⟩

theorem bounds :
    ∀ row ∈ rows, start ≤ row.slot ∧ row.slot + row.type.slotWidth ≤ stop := by
  induction rows generalizing start
  case nil => simp
  case cons row rest ih =>
    obtain ⟨hslot, hrest⟩ := h
    have hbounds := ih hrest
    refine forall_mem_cons.mpr ⟨⟨Nat.le_of_eq hslot.symm, ?_⟩, fun r hr => ?_⟩
    · cases rest
      case nil =>
        have hend : start + row.type.slotWidth = stop := hrest
        omega
      case cons next rest =>
        have hnext := hbounds next mem_cons_self
        omega
    · have hr := hbounds r hr
      omega

theorem apart :
    rows.Pairwise fun a b => a.slot + a.type.slotWidth ≤ b.slot := by
  induction rows generalizing start
  case nil => exact .nil
  case cons row rest ih =>
    obtain ⟨rfl, hrest⟩ := h
    exact .cons (fun b hb => (hrest.bounds b hb).1) (ih hrest)

end

end Contiguous

def Has (s : Slots) (name : String) (slot : Nat) : Prop :=
  ∃ row ∈ s.locals, row.name = name ∧ row.slot = slot

-- What every step keeps. Names that are hidden will stand for their slots again.
structure Sound (s : Slots) : Prop where
  rows   : Contiguous 0 s.next s.locals
  limit  : s.next ≤ slotLimit
  found  : ∀ name slot, s.find? name = some slot → s.Has name slot
  hidden : ∀ block ∈ s.blocks, ∀ p ∈ block.hidden, s.Has p.1 p.2

theorem Has.lt_next {s : Slots} (h : s.Has name slot) (hs : s.Sound) : slot < s.next := by
  obtain ⟨row, hrow, -, rfl⟩ := h
  have hbound := (hs.rows.bounds row hrow).2
  have hwide : 0 < row.type.slotWidth := by
    rw [Ty.slotWidth]
    split <;> omega
  omega

theorem locals_leave (s : Slots) : s.leave.locals = s.locals := by
  rw [locals, given_leave, locals]

section Allocate

variable {s s' : Slots} {name : String} {type : Ty} {slot : Nat}

theorem locals_allocate (h : s.allocate name type = .ok (slot, s')) :
    s'.locals = s.locals ++ [⟨name, s.next, type⟩] := by
  rw [locals, (given_allocate h).2.1, reverse_cons, locals]

theorem Has.allocate (hx : s.Has x n) (h : s.allocate name type = .ok (slot, s')) : s'.Has x n := by
  obtain ⟨row, hrow, hn⟩ := hx
  rw [Has, locals_allocate h]
  exact ⟨row, mem_append_left _ hrow, hn⟩

theorem hidden_note {block : Block} (h : p ∈ (block.note name old?).hidden) :
    p ∈ block.hidden ∨ old? = some p.2 ∧ name = p.1 := by
  cases old?
  case none => exact .inl h
  case some old =>
    rw [Block.note] at h
    split at h
    case isTrue => exact .inl h
    case isFalse =>
      rcases mem_cons.mp h with rfl | h
      · exact .inr ⟨rfl, rfl⟩
      · exact .inl h

theorem blocks_allocate (h : s.allocate name type = .ok (slot, s')) :
    s'.blocks = match s.blocks with
      | [] => []
      | block :: outer => block.note name (s.find? name) :: outer := by
  rw [Slots.allocate] at h
  split at h
  case isTrue =>
    cases h
    rfl
  case isFalse => cases h

theorem limit_allocate (h : s.allocate name type = .ok (slot, s')) :
    s.next + type.slotWidth ≤ slotLimit := by
  rw [Slots.allocate] at h
  split at h
  case isTrue hl => exact hl
  case isFalse => cases h

theorem Sound.allocate (hs : s.Sound) (h : s.allocate name type = .ok (slot, s')) : s'.Sound := by
  obtain ⟨rfl, hgiven, hnext⟩ := given_allocate h
  refine ⟨?_, ?_, fun x n hx => ?_, fun block hb p hp => ?_⟩
  · rw [hnext, locals_allocate h]
    exact hs.rows.push name type
  · rw [hnext]
    exact limit_allocate h
  · rw [find?_allocate h] at hx
    split at hx
    case isTrue hname =>
      cases hx
      rw [Has, locals_allocate h]
      exact ⟨_, mem_append_right _ mem_cons_self, hname, rfl⟩
    case isFalse => exact (hs.found x n hx).allocate h
  · rw [blocks_allocate h] at hb
    cases hblocks : s.blocks <;> simp only [hblocks, not_mem_nil, mem_cons] at hb
    case cons old outer =>
      have hold := hs.hidden
      rw [hblocks] at hold
      rcases hb with rfl | hb
      · rcases hidden_note hp with hp | ⟨hfind, rfl⟩
        · exact (hold old mem_cons_self p hp).allocate h
        · exact (hs.found _ _ hfind).allocate h
      · exact (hold block (mem_cons_of_mem _ hb) p hp).allocate h

end Allocate

theorem Sound.leave {s : Slots} (hs : s.Sound) : s.leave.Sound := by
  have hhas {name : String} {slot : Nat} (h : s.Has name slot) : s.leave.Has name slot := by
    rwa [Has, locals_leave]
  refine ⟨?_, ?_, fun name slot hfound => ?_, fun block hb p hp => ?_⟩
  · rw [next_leave, locals_leave]
    exact hs.rows
  · rw [next_leave]
    exact hs.limit
  · refine hhas ?_
    cases hblocks : s.blocks
    case nil =>
      rw [Slots.leave, hblocks] at hfound
      exact hs.found name slot hfound
    case cons block outer =>
      rw [find?_leave (by simp [hblocks]), outside?, hblocks] at hfound
      rcases or_eq_some_iff.mp hfound with h | ⟨-, h⟩
      · obtain ⟨p, hp, rfl⟩ := map_eq_some_iff.mp h
        have hname : p.1 = name := by simpa using find?_some hp
        rw [← hname]
        exact hs.hidden block (by simp [hblocks]) p (mem_of_find?_eq_some hp)
      · split at h
        case isTrue => cases h
        case isFalse => exact hs.found name slot h
  · rw [blocks_leave] at hb
    exact hhas (hs.hidden block (mem_of_mem_tail hb) p hp)

theorem Sound.after {s : Slots} (hs : s.Sound) (step : Step) : (s.after step).Sound := by
  cases step
  case enter =>
    refine ⟨hs.rows, hs.limit, hs.found, forall_mem_cons.mpr ⟨fun p hp => ?_, hs.hidden⟩⟩
    cases hp
  case leave => exact hs.leave
  case allocate name type =>
    rcases s.after_allocate name type with ⟨slot, s', h, hs'⟩ | ⟨-, hs'⟩
    · rw [hs']
      exact hs.allocate h
    · rw [hs']
      exact hs
  case find => exact hs

theorem Sound.afterAll {s : Slots} (hs : s.Sound) (steps : List Step) :
    (s.afterAll steps).Sound := by
  induction steps generalizing s
  case nil => exact hs
  case cons step steps ih => exact ih (hs.after step)

theorem sound_ofReceiver (receiver? : Option String) : (ofReceiver receiver?).Sound := by
  cases receiver?
  case none => exact ⟨rfl, Nat.zero_le _, by simp [ofReceiver, find?], by simp [ofReceiver]⟩
  case some className =>
    refine ⟨⟨rfl, rfl⟩, by simp [ofReceiver, slotLimit], fun name slot h => ?_,
      by simp [ofReceiver]⟩
    have hthis : "this" = name ∧ 0 = slot := by
      simpa [ofReceiver, find?, Std.TreeMap.getElem?_insert] using h
    exact ⟨_, mem_cons_self, hthis⟩

theorem locals_after (s : Slots) (step : Step) : s.locals <+: (s.after step).locals := by
  cases step
  case enter => exact prefix_rfl
  case leave => exact s.locals_leave.symm ▸ prefix_rfl
  case allocate name type =>
    rcases s.after_allocate name type with ⟨slot, s', h, hs'⟩ | ⟨-, hs'⟩
    · rw [hs', locals_allocate h]
      exact prefix_append _ _
    · exact hs'.symm ▸ prefix_rfl
  case find => exact prefix_rfl

theorem locals_afterAll (s : Slots) (steps : List Step) :
    s.locals <+: (s.afterAll steps).locals := by
  induction steps generalizing s
  case nil => exact prefix_rfl
  case cons step steps ih => exact (s.locals_after step).trans (ih _)

end Rows

structure Filled (s : Slots) (receiver? : Option String) : Prop where
  rows     : Contiguous 0 s.next s.locals
  limit    : s.next ≤ slotLimit
  apart    : s.locals.Pairwise fun a b => a.slot + a.type.slotWidth ≤ b.slot
  receiver : ∀ className ∈ receiver?, ∃ rest,
    s.locals = ⟨"this", 0, .object className⟩ :: rest ∧ ∀ row ∈ rest, 1 ≤ row.slot
  found    : ∀ name slot, s.find? name = some slot → s.Has name slot
  -- A variable gets a slot that no variable ever had.
  fresh    : ∀ name type slot s', s.allocate name type = .ok (slot, s') →
    s.after (.allocate name type) = s' ∧ s'.locals = s.locals ++ [⟨name, slot, type⟩] ∧
      ∀ row ∈ s.locals, row.slot + row.type.slotWidth ≤ slot
  full     : ∀ name type e, s.allocate name type = .error e →
    slotLimit < s.next + type.slotWidth ∧ s.after (.allocate name type) = s
  lasting  : ∀ steps, s.locals <+: (s.afterAll steps).locals

theorem filled_afterAll (receiver? : Option String) (steps : List Step) :
    ((ofReceiver receiver?).afterAll steps).Filled receiver? := by
  have hs := (sound_ofReceiver receiver?).afterAll steps
  have hstart := (ofReceiver receiver?).locals_afterAll steps
  generalize (ofReceiver receiver?).afterAll steps = s at hs hstart ⊢
  refine ⟨hs.rows, hs.limit, hs.rows.apart, ?_, hs.found, fun name type slot s' h => ?_,
    fun name type e h => ?_, s.locals_afterAll⟩
  · rintro className ⟨⟩
    obtain ⟨rest, hrest⟩ := hstart
    refine ⟨rest, hrest.symm, fun row hrow => ?_⟩
    have hrows := hs.rows
    rw [← hrest] at hrows
    exact (hrows.2.bounds row hrow).1
  · obtain ⟨rfl, -, -⟩ := given_allocate h
    exact ⟨by simp [after, h], locals_allocate h, fun row hrow => (hs.rows.bounds row hrow).2⟩
  · refine ⟨?_, by simp [after, h]⟩
    rw [Slots.allocate] at h
    split at h
    case isTrue => cases h
    case isFalse hl => exact Nat.lt_of_not_le hl

def Reached (s : Slots) : Prop :=
  ∃ receiver? steps, s = (ofReceiver receiver?).afterAll steps

theorem Reached.sound {s : Slots} (h : s.Reached) : s.Sound := by
  obtain ⟨receiver?, steps, rfl⟩ := h
  exact (sound_ofReceiver receiver?).afterAll steps

section Blocks

-- Steps that leave all blocks they enter, and no others.
inductive Bracketed : List Step → Prop
  | nil : Bracketed []
  | allocate {rest : List Step} (name : String) (type : Ty) (hr : Bracketed rest) :
      Bracketed (.allocate name type :: rest)
  | find {rest : List Step} (name : String) (hr : Bracketed rest) : Bracketed (.find name :: rest)
  | block {inside rest : List Step} (hi : Bracketed inside) (hr : Bracketed rest) :
      Bracketed (.enter :: (inside ++ .leave :: rest))

theorem Bracketed.append (ha : Bracketed a) (hb : Bracketed b) : Bracketed (a ++ b) := by
  induction ha
  case nil => exact hb
  case allocate name type _ ih => exact .allocate name type ih
  case find name _ ih => exact .find name ih
  case block inside rest hi _ _ ih =>
    rw [cons_append, append_assoc]
    exact .block hi ih

theorem afterAll_block (s : Slots) (inside rest : List Step) :
    s.afterAll (.enter :: (inside ++ .leave :: rest)) =
      (s.enter.afterAll inside).leave.afterAll rest := by
  rw [afterAll_cons, afterAll_append]
  rfl

theorem next_le_afterAll (s : Slots) (steps : List Step) : s.next ≤ (s.afterAll steps).next := by
  induction steps generalizing s
  case nil => exact Nat.le_refl _
  case cons step steps ih =>
    refine Nat.le_trans ?_ (ih (s.after step))
    cases step
    case allocate name type =>
      rcases s.after_allocate name type with ⟨slot, s', h, hs'⟩ | ⟨-, hs'⟩
      · rw [hs', (given_allocate h).2.2]
        exact Nat.le_add_right _ _
      · exact Nat.le_of_eq (congrArg next hs'.symm)
    case leave => exact Nat.le_of_eq s.next_leave.symm
    all_goals exact Nat.le_refl _

def Brings (s : Slots) (name : String) : Prop :=
  ∃ block ∈ s.blocks.head?, name ∈ block.brought

theorem Brings.congr {s s' : Slots} (hb : s'.blocks = s.blocks) (name : String) :
    s'.Brings name ↔ s.Brings name := by
  rw [Brings, Brings, hb]

section Outside

variable {s s' : Slots} {name : String} {type : Ty} {slot : Nat}

theorem brings_allocate (h : s.allocate name type = .ok (slot, s')) (hb : s.blocks ≠ [])
    (x : String) : s'.Brings x ↔ s.Brings x ∨ x = name ∧ s.find? x = none := by
  obtain ⟨block, outer, hblocks⟩ := exists_cons_of_ne_nil hb
  have hnew := blocks_allocate h
  simp only [hblocks] at hnew
  simp only [Brings, hblocks, hnew, head?_cons, mem_some, exists_eq_left']
  cases hold : s.find? name
  case none => grind [Block.note]
  case some old => grind [Block.note]

-- What a name will stand for behind a block changes only if the block hides its slot.
theorem outside?_allocate_cases (h : s.allocate name type = .ok (slot, s')) (x : String) :
    s'.outside? x = s.outside? x ∨ x = name ∧ ¬s.Brings x ∧ s'.outside? x = s.find? x := by
  have hfind := find?_allocate h x
  have hnew := blocks_allocate h
  cases hb : s.blocks <;> simp only [hb] at hnew
  case nil => exact .inl (by rw [outside?, outside?, hnew, hb])
  case cons block outer =>
    by_cases hx : name = x
    case neg =>
      refine .inl ?_
      simp only [outside?, hnew, hb, hfind, if_neg hx]
      cases s.find? name <;> simp only [Block.note]
      case none => simp [Ne.symm hx]
      case some old => split <;> simp [hx]
    case pos =>
      subst hx
      cases hold : s.find? name
      case none =>
        refine .inl ?_
        simp only [outside?, hnew, hb, hold, Block.note]
        simp
      case some old =>
        by_cases hbrought : name ∈ block.brought
        · refine .inl ?_
          simp [outside?, hnew, hb, hold, Block.note, hbrought]
        · refine .inr ⟨rfl, by simp [Brings, hb, hbrought], ?_⟩
          simp [outside?, hnew, hold, Block.note, hbrought]

theorem outside?_of_blocks (hb : s'.blocks = s.blocks) (x : String) :
    s'.outside? x = s.outside? x ∨ ¬s.Brings x ∧ s'.outside? x = s'.find? x := by
  simp only [outside?, hb, Brings]
  cases s.blocks
  case nil => exact .inl rfl
  case cons block outer =>
    cases hidden : block.hidden.find? (·.1 = x)
    case some p => exact .inl (by simp [hidden])
    case none =>
      by_cases hx : x ∈ block.brought
      · exact .inl (by simp [hx])
      · exact .inr (by simp [hidden, hx])

theorem outside?_congr (hb : s'.blocks = s.blocks) (hf : s'.find? x = s.find? x) :
    s'.outside? x = s.outside? x := by
  rw [outside?, outside?, hb, hf]

end Outside

namespace Bracketed

variable {steps : List Step}

section

variable (h : Bracketed steps)

include h

theorem keeps_outer (s : Slots) :
    (s.afterAll steps).blocks.tail = s.blocks.tail ∧
      (s.afterAll steps).blocks.length = s.blocks.length := by
  induction h generalizing s
  case nil => exact ⟨rfl, rfl⟩
  case allocate name type _ ih =>
    obtain ⟨htail, hlength⟩ := ih (s.after (.allocate name type))
    rw [afterAll_cons, htail, hlength]
    rcases s.after_allocate name type with ⟨slot, s', h, hs'⟩ | ⟨-, hs'⟩
    · rw [hs']
      exact tail_allocate h
    · rw [hs']
      exact ⟨rfl, rfl⟩
  case find name _ ih => exact ih s
  case block inside rest _ _ ihi ihr =>
    obtain ⟨htail, hlength⟩ := ihr (s.enter.afterAll inside).leave
    rw [afterAll_block, htail, hlength, blocks_leave, (ihi s.enter).1]
    exact ⟨rfl, rfl⟩

theorem blocks_ne_nil {s : Slots} (hb : s.blocks ≠ []) :
    (s.afterAll steps).blocks ≠ [] := by
  rw [← length_pos_iff] at hb ⊢
  rwa [(h.keeps_outer s).2]

theorem blocks_leave (s : Slots) :
    (s.enter.afterAll steps).leave.blocks = s.blocks :=
  (Slots.blocks_leave _).trans (h.keeps_outer s.enter).1

theorem find?_leave (s : Slots) (name : String) :
    (s.enter.afterAll steps).leave.find? name = (s.enter.afterAll steps).outside? name :=
  Slots.find?_leave (h.blocks_ne_nil (cons_ne_nil _ _)) name

end

end Bracketed

def Late (bound : Nat) (slot? : Option Nat) : Prop :=
  ∃ slot, slot? = some slot ∧ bound ≤ slot

theorem Bracketed.late (h : Bracketed steps) {s : Slots} (hb : bound ≤ s.next)
    (hf : Late bound (s.find? name)) : Late bound ((s.afterAll steps).find? name) ∧
      (Late bound (s.outside? name) → Late bound ((s.afterAll steps).outside? name)) := by
  induction h generalizing s
  case nil => exact ⟨hf, id⟩
  case find x _ ih => exact ih hb hf
  case allocate x type _ ih =>
    rw [afterAll_cons]
    rcases s.after_allocate x type with ⟨slot, s', h, hs'⟩ | ⟨-, hs'⟩
    · rw [hs']
      obtain ⟨rfl, -, hnext⟩ := given_allocate h
      have hfound : Late bound (s'.find? name) := by
        rw [find?_allocate h]
        split
        · exact ⟨s.next, rfl, hb⟩
        · exact hf
      have hafter := ih (s := s') (by omega) hfound
      refine ⟨hafter.1, fun ho => hafter.2 ?_⟩
      rcases outside?_allocate_cases h name with hsame | ⟨-, -, hold⟩
      · exact hsame ▸ ho
      · exact hold ▸ hf
    · rw [hs']
      exact ih hb hf
  case block inside rest hi _ ihi ihr =>
    rw [afterAll_block]
    have hinside := ihi (s := s.enter) hb hf
    have hfound : Late bound ((s.enter.afterAll inside).leave.find? name) := by
      rw [hi.find?_leave]
      refine hinside.2 ?_
      rw [outside?_enter]
      exact hf
    have hnext : bound ≤ (s.enter.afterAll inside).leave.next := by
      rw [next_leave]
      exact Nat.le_trans hb (s.enter.next_le_afterAll inside)
    have hafter := ihr hnext hfound
    refine ⟨hafter.1, fun ho => hafter.2 ?_⟩
    rcases outside?_of_blocks (hi.blocks_leave s) name with hsame | ⟨-, hold⟩
    · exact hsame ▸ ho
    · exact hold ▸ hfound

structure Shown (s : Slots) (name : String) : Prop where
  found      : (s.find? name).isSome
  notBrought : ¬s.Brings name

namespace Shown

variable {s s' : Slots} {name x : String} {type : Ty} {slot : Nat}

theorem enter (h : (s.find? name).isSome) : s.enter.Shown name :=
  ⟨h, by simp [Brings, Slots.enter]⟩

theorem allocate (hs : s.Shown name) (hb : s.blocks ≠ []) (h : s.allocate x type = .ok (slot, s')) :
    s'.Shown name := by
  obtain ⟨old, hold⟩ := isSome_iff_exists.mp hs.found
  refine ⟨?_, ?_⟩
  · rw [find?_allocate h]
    split
    · rfl
    · exact hs.found
  · rw [brings_allocate h hb]
    rintro (hbrings | ⟨-, hnone⟩)
    · exact hs.notBrought hbrings
    · cases hold.symm.trans hnone

theorem outside?_allocate (hs : s.Shown name) (hb : s.blocks ≠ [])
    (h : s.allocate name type = .ok (slot, s')) : s'.outside? name = s.find? name := by
  obtain ⟨block, outer, hblocks⟩ := exists_cons_of_ne_nil hb
  obtain ⟨old, hold⟩ := isSome_iff_exists.mp hs.found
  have hbrought : name ∉ block.brought := by
    have hnot := hs.notBrought
    simpa [Brings, hblocks] using hnot
  have hnew := blocks_allocate h
  simp only [hblocks] at hnew
  simp [outside?, hnew, hold, Block.note, hbrought]

theorem isSome_outside? (hs : s.Shown name) (hb : s.blocks ≠ []) : (s.outside? name).isSome := by
  obtain ⟨block, outer, hblocks⟩ := exists_cons_of_ne_nil hb
  have hbrought : name ∉ block.brought := by
    have hnot := hs.notBrought
    simpa [Brings, hblocks] using hnot
  simp [outside?, hblocks, hbrought, hs.found]

end Shown

theorem Bracketed.shown (h : Bracketed steps) {s : Slots} (hb : s.blocks ≠ []) (hs : s.Shown name) :
    (s.afterAll steps).Shown name := by
  induction h generalizing s
  case nil => exact hs
  case find x _ ih => exact ih hb hs
  case allocate x type _ ih =>
    rw [afterAll_cons]
    rcases s.after_allocate x type with ⟨slot, s', h, hs'⟩ | ⟨-, hs'⟩
    · rw [hs']
      refine ih ?_ (hs.allocate hb h)
      rw [← length_pos_iff] at hb ⊢
      rwa [(tail_allocate h).2]
    · rw [hs']
      exact ih hb hs
  case block inside rest hi _ ihi ihr =>
    rw [afterAll_block]
    have hopen : s.enter.blocks ≠ [] := cons_ne_nil _ _
    refine ihr ?_ ⟨?_, ?_⟩
    · rw [hi.blocks_leave]
      exact hb
    · rw [hi.find?_leave]
      exact (ihi hopen (Shown.enter hs.found)).isSome_outside? (hi.blocks_ne_nil hopen)
    · rw [Brings.congr (hi.blocks_leave s)]
      exact hs.notBrought

def Given (s : Slots) (name : String) (steps : List Step) : Prop :=
  ∃ front type rest, steps = front ++ .allocate name type :: rest ∧ Bracketed front ∧
    Bracketed rest ∧ ∃ slot s', (s.afterAll front).allocate name type = .ok (slot, s')

def GivenTwice (s : Slots) (name : String) (steps : List Step) : Prop :=
  ∃ front type rest, steps = front ++ .allocate name type :: rest ∧ Bracketed front ∧
    ∃ slot s', (s.afterAll front).allocate name type = .ok (slot, s') ∧ s'.Given name rest

structure Repeats (name : String) (s : Slots) (inside : List Step) : Prop where
  found : (s.find? name).isSome
  given : s.enter.GivenTwice name inside

-- Behind a block with these steps, a name has the slot that it has in front of it.
def Restores (name : String) (s : Slots) (inside : List Step) : Prop :=
  (s.enter.afterAll inside).leave.find? name = s.find? name

section Given

variable {s : Slots} {name : String} {front rest : List Step}

theorem Given.behind (hf : Bracketed front) (h : (s.afterAll front).Given name rest) :
    s.Given name (front ++ rest) := by
  obtain ⟨first, type, last, rfl, hfirst, hlast, hgiven⟩ := h
  rw [← afterAll_append] at hgiven
  exact ⟨front ++ first, type, last, (append_assoc ..).symm, hf.append hfirst, hlast, hgiven⟩

theorem GivenTwice.behind (hf : Bracketed front) (h : (s.afterAll front).GivenTwice name rest) :
    s.GivenTwice name (front ++ rest) := by
  obtain ⟨first, type, last, rfl, hfirst, hgiven⟩ := h
  rw [← afterAll_append] at hgiven
  exact ⟨front ++ first, type, last, (append_assoc ..).symm, hf.append hfirst, hgiven⟩

theorem GivenTwice.cons (hf : Bracketed [step]) (h : (s.after step).GivenTwice name rest) :
    s.GivenTwice name (step :: rest) :=
  GivenTwice.behind hf h

end Given

theorem after_of_allocate {s : Slots} (h : s.allocate name type = .ok (slot, s')) :
    s.after (.allocate name type) = s' := by
  rw [after, h]

theorem Repeats.not_restores (h : Repeats name s inside) (hs : s.Sound) (hi : Bracketed inside) :
    ¬Restores name s inside := by
  obtain ⟨hsome, first, type, rest, rfl, hfirst, slot, s₁, hone, second, type', last, rfl, hsecond,
    hlast, slot', s₂, htwo⟩ := h
  intro hback
  have hnext := s.enter.next_le_afterAll first
  obtain ⟨hslot, -, hnext₁⟩ := given_allocate hone
  -- The first slot is a new one, and the second one hides a new one.
  have hnew : Late s.next (s₁.find? name) := by
    rw [find?_allocate hone, if_pos rfl]
    exact ⟨slot, rfl, hslot ▸ hnext⟩
  have hbetween := (hsecond.late (Nat.le_trans hnext (by omega)) hnew).1
  have hopen : (s.enter.afterAll first).blocks ≠ [] := hfirst.blocks_ne_nil (cons_ne_nil _ _)
  have hopen₁ : s₁.blocks ≠ [] := by
    rw [← length_pos_iff] at hopen ⊢
    rwa [(tail_allocate hone).2]
  have hshown : (s₁.afterAll second).Shown name :=
    hsecond.shown hopen₁
      ((hfirst.shown (cons_ne_nil _ _) (Shown.enter hsome)).allocate hopen hone)
  have hhidden : Late s.next (s₂.outside? name) := by
    rw [hshown.outside?_allocate (hsecond.blocks_ne_nil hopen₁) htwo]
    exact hbetween
  have hfound : Late s.next (s₂.find? name) := by
    rw [find?_allocate htwo, if_pos rfl, (given_allocate htwo).1]
    exact ⟨_, rfl, Nat.le_trans hnext (Nat.le_trans (by omega) (s₁.next_le_afterAll second))⟩
  have hnext₂ : s.next ≤ s₂.next := by
    have hle := s₁.next_le_afterAll second
    have hgiven := (given_allocate htwo).2.2
    have hstart : s.next ≤ (s.enter.afterAll first).next := hnext
    omega
  have hend := (hlast.late hnext₂ hfound).2 hhidden
  obtain ⟨old, hold⟩ := isSome_iff_exists.mp hsome
  obtain ⟨n, hn, hle⟩ := hend
  rw [Restores, hi.find?_leave, afterAll_append, afterAll_cons, after_of_allocate hone,
    afterAll_append, afterAll_cons, after_of_allocate htwo, hn, hold, Option.some.injEq] at hback
  have hlt := (hs.found name old hold).lt_next hs
  omega

def Everywhere (P : Slots → List Step → Prop) (s : Slots) (steps : List Step) : Prop :=
  ∀ before inside behind, steps = before ++ .enter :: (inside ++ .leave :: behind) →
    Bracketed inside → P (s.afterAll before) inside

namespace Everywhere

variable {P : Slots → List Step → Prop} {s : Slots} {front rest : List Step}

theorem right (h : Everywhere P s (front ++ rest)) : Everywhere P (s.afterAll front) rest := by
  intro before inside behind heq hi
  rw [← afterAll_append]
  refine h (front ++ before) inside behind ?_ hi
  rw [heq, append_assoc]

theorem left (h : Everywhere P s (front ++ rest)) : Everywhere P s front := by
  intro before inside behind heq hi
  refine h before inside (behind ++ rest) ?_ hi
  simp [heq]

theorem tail (h : Everywhere P s (step :: rest)) : Everywhere P (s.after step) rest := by
  have hsplit : Everywhere P s ([step] ++ rest) := h
  exact hsplit.right

theorem first (h : Everywhere P s (.enter :: (inside ++ .leave :: rest))) (hi : Bracketed inside) :
    P s inside :=
  h [] inside rest rfl hi

end Everywhere

namespace Bracketed

variable {steps : List Step} {s : Slots} {name : String}

section

variable (h : Bracketed steps)

include h

theorem same_of_not_given (hn : ¬s.Given name steps)
    (hr : Everywhere (Restores name) s steps) :
    (s.afterAll steps).find? name = s.find? name ∧
      (s.afterAll steps).outside? name = s.outside? name := by
  induction h generalizing s
  case nil => exact ⟨rfl, rfl⟩
  case find x _ ih =>
    rw [afterAll_cons]
    exact ih (fun hg => hn (hg.behind (.find x .nil))) hr.tail
  case allocate x type hrest ih =>
    have hlater : ¬(s.after (.allocate x type)).Given name _ :=
      fun hg => hn (hg.behind (.allocate x type .nil))
    obtain ⟨hfind, houtside⟩ := ih hlater hr.tail
    rw [afterAll_cons, hfind, houtside]
    rcases s.after_allocate x type with ⟨slot, s', h, hs'⟩ | ⟨-, hs'⟩
    · have hx : x ≠ name := by
        rintro rfl
        exact hn ⟨[], type, _, rfl, .nil, hrest, slot, s', h⟩
      rw [hs', find?_allocate h, if_neg hx]
      refine ⟨rfl, ?_⟩
      rcases outside?_allocate_cases h name with hsame | ⟨heq, -⟩
      · exact hsame
      · exact absurd heq.symm hx
    · rw [hs']
      exact ⟨rfl, rfl⟩
  case block inside rest hi _ _ ihr =>
    have hback := hr.first hi
    have hblock : Bracketed (.enter :: (inside ++ [.leave])) := .block hi .nil
    have heq : .enter :: (inside ++ .leave :: rest) = (.enter :: (inside ++ [.leave])) ++ rest := by
      simp
    rw [heq] at hn hr
    obtain ⟨hfind, houtside⟩ := ihr (fun hg => hn (hg.behind hblock)) hr.right
    rw [heq, afterAll_append, hfind, houtside, afterAll_block]
    exact ⟨hback, outside?_congr (hi.blocks_leave s) hback⟩

theorem outside?_of_brings (hb : s.Brings name) :
    (s.afterAll steps).outside? name = s.outside? name := by
  induction h generalizing s
  case nil => rfl
  case find x _ ih => exact ih hb
  case allocate x type _ ih =>
    rw [afterAll_cons]
    rcases s.after_allocate x type with ⟨slot, s', h, hs'⟩ | ⟨-, hs'⟩
    · have hopen : s.blocks ≠ [] := by
        rintro hnil
        simp [Brings, hnil] at hb
      rw [hs', ih ((brings_allocate h hopen name).mpr (.inl hb))]
      rcases outside?_allocate_cases h name with hsame | ⟨-, hnot, -⟩
      · exact hsame
      · exact absurd hb hnot
    · rw [hs']
      exact ih hb
  case block inside rest hi _ _ ihr =>
    have hblocks := hi.blocks_leave s
    rw [afterAll_block, ihr ((Brings.congr hblocks name).mpr hb)]
    rcases outside?_of_blocks hblocks name with hsame | ⟨hnot, -⟩
    · exact hsame
    · exact absurd hb hnot

theorem outside?_of_not_twice (hopen : s.blocks ≠ [])
    (hn : (s.find? name).isSome → ¬s.GivenTwice name steps)
    (hr : Everywhere (Restores name) s steps)
    (ho : s.outside? name = s.find? name) :
    (s.afterAll steps).outside? name = s.find? name := by
  induction h generalizing s
  case nil => exact ho
  case find x _ ih =>
    exact ih hopen (fun hf hg => hn hf (hg.behind (.find x .nil))) hr.tail ho
  case allocate x type hrest ih =>
    rw [afterAll_cons]
    rcases s.after_allocate x type with ⟨slot, s', h, hs'⟩ | ⟨-, hs'⟩
    · have hopen' : s'.blocks ≠ [] := by
        rw [← length_pos_iff] at hopen ⊢
        rwa [(tail_allocate h).2]
      have hlater := hr.tail
      rw [hs'] at hlater ⊢
      have hsame : s'.outside? name = s.find? name := by
        rcases outside?_allocate_cases h name with hsame | ⟨-, -, hold⟩
        · exact hsame.trans ho
        · exact hold
      by_cases hx : x = name
      case neg =>
        have hfind : s'.find? name = s.find? name := by rw [find?_allocate h, if_neg hx]
        rw [← hfind] at hsame hn ⊢
        refine ih hopen' (fun hf hg => hn hf (.cons (.allocate x type .nil) ?_)) hlater hsame
        rwa [hs']
      case pos =>
        subst hx
        rw [← hsame]
        cases hfind : s.find? x
        case none =>
          exact outside?_of_brings hrest ((brings_allocate h hopen x).mpr (.inr ⟨rfl, hfind⟩))
        case some old =>
          refine (hrest.same_of_not_given (fun hg => ?_) hlater).2
          exact hn (by simp [hfind]) ⟨[], type, _, rfl, .nil, slot, s', h, hg⟩
    · have hlater := hr.tail
      rw [hs'] at hlater ⊢
      refine ih hopen (fun hf hg => hn hf (.cons (.allocate x type .nil) ?_)) hlater ho
      rwa [hs']
  case block inside rest hi _ _ ihr =>
    have hback := hr.first hi
    have hblocks := hi.blocks_leave s
    have hblock : Bracketed (.enter :: (inside ++ [.leave])) := .block hi .nil
    have heq : .enter :: (inside ++ .leave :: rest) = (.enter :: (inside ++ [.leave])) ++ rest := by
      simp
    have hend : s.afterAll (.enter :: (inside ++ [.leave])) = (s.enter.afterAll inside).leave :=
      s.afterAll_block inside []
    rw [heq] at hn hr
    have hlater := hr.right
    rw [hend] at hlater
    rw [afterAll_block, ← hback]
    refine ihr (hblocks ▸ hopen)
      (fun hf hg => hn (hback ▸ hf) (GivenTwice.behind hblock (hend ▸ hg))) hlater ?_
    rw [outside?_congr hblocks hback, ho, hback]

-- A block gives a slot back if neither it nor a block in it repeats the name.
theorem restores
    (hr : Everywhere (fun t inside => ¬Repeats name t inside) s (.enter :: (steps ++ [.leave]))) :
    Restores name s steps := by
  induction hl : steps.length using Nat.strongRecOn generalizing s steps
  case ind n ih =>
    subst hl
    have hinside : Everywhere (Restores name) s.enter steps := by
      rintro before inside behind rfl hi
      have hlater := hr.tail.left.right
      have heq : .enter :: (inside ++ .leave :: behind) =
          (.enter :: (inside ++ [.leave])) ++ behind := by
        simp
      rw [heq] at hlater
      exact ih inside.length (by simp; omega) hi hlater.left rfl
    rw [Restores, h.find?_leave]
    refine h.outside?_of_not_twice (cons_ne_nil _ _) (fun hf hg => ?_) hinside
      (s.outside?_enter name)
    exact hr.first h ⟨hf, hg⟩

end

end Bracketed

end Blocks

-- Behind a block a name has its slot back, if no block repeats it, neither this one nor one inside.
-- A block that repeats a name leaves it with another slot.
theorem find?_block {s : Slots} (hs : s.Reached) {inside : List Step} (hi : Bracketed inside)
    (name : String) :
    (Everywhere (fun t within => ¬Repeats name t within) s (.enter :: (inside ++ [.leave])) →
      (s.afterAll (.enter :: (inside ++ [.leave]))).find? name = s.find? name) ∧
    (Repeats name s inside →
      (s.afterAll (.enter :: (inside ++ [.leave]))).find? name ≠ s.find? name) := by
  rw [afterAll_block, afterAll_nil]
  exact ⟨hi.restores, fun h => h.not_restores hs.sound hi⟩

-- The block below gives two slots to a name that had the first one of all.
theorem find?_block_twice :
    ((ofReceiver none).afterAll [.allocate "x" .int]).Reached ∧
      Bracketed [.allocate "x" .int, .allocate "x" .int] ∧
      ((ofReceiver none).afterAll [.allocate "x" .int, .enter, .allocate "x" .int,
        .allocate "x" .int, .leave]).find? "x" ≠
          ((ofReceiver none).afterAll [.allocate "x" .int]).find? "x" := by
  have hreached : ((ofReceiver none).afterAll [.allocate "x" .int]).Reached := ⟨none, _, rfl⟩
  have hinside : Bracketed [.allocate "x" .int, .allocate "x" .int] :=
    .allocate _ _ (.allocate _ _ .nil)
  refine ⟨hreached, hinside, (find?_block hreached hinside "x").2 ⟨by decide +kernel, ?_⟩⟩
  exact ⟨[], .int, _, rfl, .nil, _, _, rfl, [], .int, _, rfl, .nil, .nil, _, _, rfl⟩

-- Not every block gives all slots back.
theorem find?_block_lost :
    ¬∀ (s : Slots) (inside : List Step), s.Reached → Bracketed inside → ∀ name,
      (s.afterAll (.enter :: (inside ++ [.leave]))).find? name = s.find? name := by
  intro h
  have hx := h ((ofReceiver none).afterAll [.allocate "x" .int])
    [.allocate "x" .int, .allocate "x" .int] ⟨none, _, rfl⟩ (.allocate _ _ (.allocate _ _ .nil)) "x"
  have hne : ((ofReceiver none).afterAll [.allocate "x" .int, .enter, .allocate "x" .int,
      .allocate "x" .int, .leave]).find? "x" = some 1 := by
    decide +kernel
  have hold : ((ofReceiver none).afterAll [.allocate "x" .int]).find? "x" = some 0 := by
    decide +kernel
  cases hne.symm.trans (hx.trans hold)

end Lumen.Code.Slots
