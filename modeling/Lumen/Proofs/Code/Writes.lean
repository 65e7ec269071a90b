import Lumen.Proofs.Code.Allocation
import Lumen.Proofs.Code.Flow
import Mathlib.Data.List.Pairwise

namespace Lumen

open List hiding count head

namespace Code

def Instruction.isWrite (i : Instruction) : Bool :=
  i.opcode = .store || i.opcode = .putField

def Silent (code : List Instruction) : Prop :=
  ∀ i ∈ code, i.isWrite = false

namespace Silent

variable {code rest : List Instruction} {i : Instruction}

theorem nil : Silent [] := by
  intro i hi
  cases hi

theorem append (h : Silent code) (h' : Silent rest) : Silent (code ++ rest) :=
  forall_mem_append.mpr ⟨h, h'⟩

theorem cons (hi : i.isWrite = false) (h : Silent code) : Silent (i :: code) :=
  forall_mem_cons.mpr ⟨hi, h⟩

theorem single (hi : i.isWrite = false) : Silent [i] :=
  cons hi .nil

theorem of_computes (h : Computes code) : Silent code := by
  intro i hi
  have hc := h i hi
  cases ho : i.opcode <;> simp_all [Opcode.computes, Instruction.isWrite]

end Silent

def Storage.put (name : String) (type : Ty) (loc : Location) : Storage → Instruction
  | .slot n => .access .store name type (some n) loc
  | .field className => .withOperand .putField (.symbol (fullName (some className) name)) type loc
  | .global => .access .store name type none loc

namespace Site

variable (site : Site) (slots : Slots)

def destination? : Expr → Option (Storage × String)
  | .variable _ name => some (site.storage slots name, name)
  | .member _ object name =>
    match site.program.typeOf object with
    | .object className => some (.field className, name)
    | _ => none
  | _ => none

-- What is not kept in a field is assigned to by its name.
theorem variable_of_destination {site : Site} {slots : Slots} {target : Expr} {storage : Storage}
    (h : site.destination? slots target = some (storage, name))
    (hs : ∀ className, storage ≠ .field className) :
    ∃ m, target = .variable m name ∧ site.storage slots name = storage := by
  cases target <;> simp only [destination?, reduceCtorEq] at h
  case «variable» m _ =>
    cases h
    exact ⟨m, rfl, rfl⟩
  case member m object _ =>
    split at h <;> cases h
    exact absurd rfl (hs _)

end Site

def Piece.declaration? (p : Piece) : Option Declaration :=
  p.stmt.declaration?

theorem Piece.eq_of_loc {ps : List Piece}
    (hn : ((ps.filterMap Piece.declaration?).map (·.loc)).Nodup) (hp : p ∈ ps) (hp' : p' ∈ ps)
    (hd : p.declaration? = some d) (hd' : p'.declaration? = some d') (hloc : d.loc = d'.loc) :
    p = p' := by
  rw [filterMap_eq_flatMap_toList, map_flatMap] at hn
  exact eq_of_nodup_flatMap hn hp hp' (b := d.loc) (by simp [hd]) (by simp [hd', hloc])

def Piece.write? (p : Piece) : Option Instruction :=
  match p.stmt with
  | .variable loc name type init =>
    let type := p.site.variableType type init
    init.map fun _ => .access .store name type (p.site.declare p.frame name type).1 loc
  | .constant loc name type _ =>
    let type := Ty.ofName type
    some (.access .store name type (p.site.declare p.frame name type).1 loc)
  | .assign loc target _ _ =>
    (p.site.destination? p.frame.slots target).map fun d =>
      d.1.put d.2 (p.site.program.typeOf target) loc
  | _ => none

theorem Piece.write_cases {p : Piece} (h : p.write? = some i) :
    (∃ d, p.declaration? = some d ∧ i.opcode = .store ∧ p.given = [⟨d.name, d.loc, i.slot⟩]) ∨
      ∃ loc target op value storage name, p.stmt = .assign loc target op value ∧
        p.site.destination? p.frame.slots target = some (storage, name) ∧
          i = storage.put name (p.site.program.typeOf target) loc := by
  obtain ⟨before, site, loop, f, s⟩ := p
  cases s <;> simp only [write?, reduceCtorEq] at h
  case «variable» loc name type init =>
    cases init <;> cases h
    refine .inl ⟨_, rfl, rfl, ?_⟩
    cases type <;> rfl
  case constant loc name type value =>
    cases h
    exact .inl ⟨_, rfl, rfl, rfl⟩
  case assign loc target op value =>
    obtain ⟨destination, hd, rfl⟩ := Option.map_eq_some_iff.mp h
    exact .inr ⟨loc, target, op, value, destination.1, destination.2, rfl, hd, rfl⟩

theorem Piece.write_of_const {p : Piece} (hd : p.declaration? = some d) (hc : d.isConst) :
    ∃ i, p.code.getLast? = some i ∧ i.opcode = .store ∧
      p.given = [⟨d.name, d.loc, i.slot⟩] := by
  obtain ⟨before, site, loop, f, s⟩ := p
  cases s <;> cases hd
  case «variable» => cases hc
  case constant loc name type value =>
    refine ⟨.access .store name (Ty.ofName type) (site.declare f name (Ty.ofName type)).1 loc, ?_,
      rfl, rfl⟩
    exact getLast?_concat

-- Code that writes what is given at its end, and nothing in front of that.
def Ends (code : List Instruction) (write? : Option Instruction) : Prop :=
  ∃ front, Silent front ∧ code = front ++ write?.toList

section Ends

variable (site : Site)

theorem Site.value_silent (slots : Slots) (e : Expr) : Silent (site.value slots e) :=
  .of_computes (site.value_computes slots e)

theorem Site.storeField_ends (slots : Slots) (className name : String) (type : Ty)
    (op : Option BinaryOp) (value : Expr) (loc : Location) :
    Ends (site.storeField slots className name type op value loc)
      (some ((Storage.field className).put name type loc)) := by
  have hvalue := site.value_silent slots value
  cases op
  case none => exact ⟨_, hvalue, rfl⟩
  case some op =>
    refine ⟨[.plain .dup (.object className) loc, .withOperand .getField
      (.symbol (fullName (some className) name)) type loc] ++ site.value slots value ++
      [.plain (.ofBinary op) type loc], ?_, by simp [storeField, Storage.put]⟩
    exact (Silent.append (.cons rfl (.single rfl)) hvalue).append
      (.of_computes (.single (Site.computes_ofBinary op)))

theorem Ends.behind (h : Ends code write?) (front : List Instruction) (hf : Silent front) :
    Ends (front ++ code) write? := by
  obtain ⟨head, hhead, rfl⟩ := h
  exact ⟨front ++ head, hf.append hhead, (append_assoc _ _ _).symm⟩

theorem Site.assign_ends (slots : Slots) (target : Expr) (op : Option BinaryOp) (value : Expr)
    (loc : Location) : Ends (site.assign slots target op value loc)
      ((site.destination? slots target).map fun d =>
        d.1.put d.2 (site.program.typeOf target) loc) := by
  have hvalue := site.value_silent slots value
  have hstore (name : String) (type : Ty) (slot : Option Nat) :
      Ends (site.value slots value ++ [.access .store name type slot loc])
        (some (.access .store name type slot loc)) := ⟨_, hvalue, rfl⟩
  have hupdate (op : BinaryOp) (name : String) (type : Ty) (slot : Option Nat) :
      Ends (.access .load name type slot loc :: site.value slots value ++
        .plain (.ofBinary op) type loc :: [.access .store name type slot loc])
        (some (.access .store name type slot loc)) := by
    refine ⟨.access .load name type slot loc :: site.value slots value ++
      [.plain (.ofBinary op) type loc], ?_, by simp⟩
    exact (Silent.cons rfl hvalue).append (.of_computes (.single (Site.computes_ofBinary op)))
  have hnone : Ends [] none := ⟨[], .nil, rfl⟩
  cases target <;> try exact hnone
  case «variable» m name =>
    simp only [assign, destination?, Option.map_some]
    cases hs : site.storage slots name
    case slot n =>
      cases op
      case none => exact hstore name _ (some n)
      case some op => exact hupdate op name _ (some n)
    case field className =>
      exact (site.storeField_ends slots className name _ op value loc).behind
        [site.receiver slots loc] (.single rfl)
    case global =>
      cases op
      case none => exact hstore name _ none
      case some op => exact hupdate op name _ none
  case member m object name =>
    simp only [assign, destination?]
    cases site.program.typeOf object <;> try exact hnone
    case object className =>
      exact (site.storeField_ends slots className name _ op value loc).behind _
        (site.value_silent slots object)

theorem Site.declaration_ends (f : Frame) (name : String) (type : Ty) (init : Option Expr)
    (loc : Location) : Ends (site.declaration f name type init loc).1
      (init.map fun _ => .access .store name type (site.declare f name type).1 loc) := by
  cases init
  case none => exact ⟨[], .nil, rfl⟩
  case some e => exact ⟨_, site.value_silent f.slots e, rfl⟩

end Ends

-- All that some code writes is written by the statements themselves.
def Written (code : List Instruction) (pieces : List Piece) : Prop :=
  ∀ k i, code[k]? = some i → i.isWrite → ∃ p ∈ pieces, p.write? = some i ∧
    k + 1 = (p.before ++ p.code).length

namespace Written

variable {code rest : List Instruction} {ps qs : List Piece} {p : Piece}

theorem of_silent (h : Silent code) (ps : List Piece) : Written code ps := by
  intro k i hk hi
  rw [h i (mem_of_getElem? hk)] at hi
  cases hi

theorem of_ends (h : Ends code p.write?) (hb : p.before = []) (hc : p.code = code) :
    Written code [p] := by
  obtain ⟨front, hfront, rfl⟩ := h
  intro k i hk hi
  refine ⟨p, mem_singleton.mpr rfl, ?_⟩
  rw [hb, nil_append, hc]
  rw [getElem?_append] at hk
  split at hk
  case isTrue =>
    rw [hfront i (mem_of_getElem? hk)] at hi
    cases hi
  case isFalse hle =>
    cases hw : p.write? <;> rw [hw] at hk
    case none => cases hk
    case some j =>
      rw [Option.toList, getElem?_singleton] at hk
      split at hk
      case isTrue hlast =>
        simp only [Option.toList, length_append, length_singleton]
        exact ⟨hk, by omega⟩
      case isFalse => cases hk

theorem widen (h : Written code ps) (hs : ps ⊆ qs) : Written code qs := by
  intro k i hk hi
  obtain ⟨p, hp, hwrite⟩ := h k i hk hi
  exact ⟨p, hs hp, hwrite⟩

theorem append (h : Written code ps) (h' : Written rest qs) :
    Written (code ++ rest) (ps ++ qs.map (.behind code)) := by
  intro k i hk hi
  rw [getElem?_append] at hk
  split at hk
  case isTrue =>
    obtain ⟨p, hp, hwrite⟩ := h k i hk hi
    exact ⟨p, mem_append_left _ hp, hwrite⟩
  case isFalse hle =>
    obtain ⟨p, hp, hwrite, hend⟩ := h' _ i hk hi
    refine ⟨p.behind code, mem_append_right _ (mem_map_of_mem hp), hwrite, ?_⟩
    have hlength : (p.behind code).before ++ (p.behind code).code = code ++ (p.before ++ p.code) :=
      append_assoc _ _ _
    rw [hlength, length_append, ← hend]
    omega

theorem more (h : Written code ps) (rest : List Instruction) (hr : Silent rest) :
    Written (code ++ rest) ps := by
  simpa using h.append (.of_silent hr [])

end Written

theorem Site.stmt_written (site : Site) (loop : Option Loop) (f : Frame) {s : Stmt}
    (hb : s.hasBody = false) : Written (site.stmt loop f s).1 [⟨[], site, loop, f, s⟩] := by
  cases s <;> try cases hb
  case «variable» loc name type init =>
    exact .of_ends (site.declaration_ends f name _ init loc) rfl rfl
  case constant loc name type value =>
    exact .of_ends (site.declaration_ends f name _ (some value) loc) rfl rfl
  case assign loc target op value =>
    exact .of_ends (site.assign_ends f.slots target op value loc) rfl rfl
  case result loc value =>
    refine .of_silent ?_ _
    cases value
    case none => exact .single rfl
    case some value => exact (site.value_silent f.slots value).append (.single rfl)
  case evaluate loc e =>
    refine .of_silent ?_ _
    simp only [stmt, evaluate]
    split
    · exact site.value_silent f.slots e
    · exact (site.value_silent f.slots e).append (.single rfl)
  case breakLoop | continueLoop =>
    refine .of_silent ?_ _
    cases loop
    case none => exact .nil
    case some => exact .single rfl
  all_goals exact .of_silent .nil _

theorem Site.Builds.written {site : Site} {Q : Option Loop → Frame → Stmt → Prop}
    (h : site.Builds Q f ps code f') : Written code ps := by
  induction h
  case nil => exact .of_silent .nil _
  case append h h' => exact h.append h'
  case place | jump => exact .of_silent (.single rfl) _
  case condition => exact .of_silent ((site.value_silent _ _).append (.single rfl)) _
  case plain loop f s _ hb => exact site.stmt_written loop f hb
  case nested h => exact h.widen (subset_cons_self _ _)
  case label h => exact h
  case inBlock h => exact h

theorem Site.stmts_written (site : Site) (loop : Option Loop) (f : Frame) (body : List Stmt) :
    Written (site.stmts loop f [] body).1 (site.pieces loop f body) :=
  (site.builds_stmts loop f body).written

theorem Written.finished (h : Written code ps) (loc : Location) :
    Written (finished code loc) ps := by
  rw [Code.finished]
  split
  case isTrue => exact h
  case isFalse => exact h.more _ (.single rfl)

def Allotment.Apart (a b : Allotment) : Prop :=
  ∀ n ∈ a.slot, ∀ m ∈ b.slot, n ≠ m

instance : Std.Symm Allotment.Apart where
  symm _ _ h n hn m hm := (h m hm n hn).symm

structure Rising (lo hi : Nat) (given : List Allotment) : Prop where
  le     : lo ≤ hi
  bounds : ∀ a ∈ given, ∀ n ∈ a.slot, lo ≤ n ∧ n < hi
  sorted : given.Pairwise fun a b => ∀ n ∈ a.slot, ∀ m ∈ b.slot, n < m

namespace Rising

variable {lo mid hi : Nat} {given more : List Allotment}

theorem nil (lo : Nat) : Rising lo lo [] :=
  ⟨Nat.le_refl lo, by simp, .nil⟩

theorem append (h : Rising lo mid given) (h' : Rising mid hi more) :
    Rising lo hi (given ++ more) where
  le := Nat.le_trans h.le h'.le
  bounds := by
    refine forall_mem_append.mpr ⟨fun a ha n hn => ?_, fun a ha n hn => ?_⟩
    · have hbounds := h.bounds a ha n hn
      exact ⟨hbounds.1, Nat.lt_of_lt_of_le hbounds.2 h'.le⟩
    · have hbounds := h'.bounds a ha n hn
      exact ⟨Nat.le_trans h.le hbounds.1, hbounds.2⟩
  sorted := by
    refine pairwise_append.mpr ⟨h.sorted, h'.sorted, fun a ha b hb n hn m hm => ?_⟩
    exact Nat.lt_of_lt_of_le (h.bounds a ha n hn).2 (h'.bounds b hb m hm).1

theorem eq_of_slot (h : Rising lo hi given) (ha : a ∈ given) (hb : b ∈ given) (hn : a.slot = some n)
    (hm : b.slot = some n) : a = b := by
  have hapart : given.Pairwise Allotment.Apart :=
    h.sorted.imp fun hlt n hn m hm => Nat.ne_of_lt (hlt n hn m hm)
  by_contra hne
  exact hapart.forall ha hb hne n hn n hm rfl

end Rising

structure Frame.Allots (f : Frame) (given : List Allotment) (f' : Frame) : Prop where
  depth  : f'.slots.blocks.length = f.slots.blocks.length
  rising : Rising f.slots.next f'.slots.next given

theorem Ty.slotWidth_pos (type : Ty) : 0 < type.slotWidth := by
  rw [Ty.slotWidth]
  split <;> decide

namespace Frame.Allots

variable {f f' f'' : Frame} {given more : List Allotment}

theorem refl (f : Frame) : f.Allots [] f :=
  ⟨rfl, .nil _⟩

theorem trans (h : f.Allots given f') (h' : f'.Allots more f'') : f.Allots (given ++ more) f'' :=
  ⟨h'.depth.trans h.depth, h.rising.append h'.rising⟩

theorem label (h : (f.label count).Allots given f') : f.Allots given f' :=
  ⟨h.depth, h.rising⟩

theorem inBlock (h : f.enter.Allots given f') : f.Allots given f'.leave where
  depth := by
    have hdepth : f'.slots.blocks.length = f.slots.blocks.length + 1 := h.depth
    rw [Frame.leave, Slots.blocks_leave, length_tail, hdepth, Nat.add_sub_cancel]
  rising := by
    rw [Frame.leave, Slots.next_leave]
    exact h.rising

theorem declare (f : Frame) (name : String) (type : Ty) (loc : Location) :
    f.Allots [⟨name, loc, (f.declare name type).1⟩] (f.declare name type).2 := by
  rw [Frame.declare]
  cases ha : f.slots.allocate name type
  case error => exact ⟨rfl, Nat.le_refl _, by simp, pairwise_singleton _ _⟩
  case ok found =>
    obtain ⟨slot, slots⟩ := found
    obtain ⟨rfl, -, hnext⟩ := Slots.given_allocate ha
    have hpos := Ty.slotWidth_pos type
    refine ⟨(Slots.tail_allocate ha).2, ?_, ?_, pairwise_singleton _ _⟩
    · simp only [hnext]
      omega
    · simp only [forall_mem_singleton, Option.mem_some, hnext]
      rintro _ rfl
      omega

theorem deep (h : f.Allots given f') {kind : Routine.Kind}
    (hd : kind ≠ .toplevel ∨ f.slots.blocks ≠ []) :
    kind ≠ .toplevel ∨ f'.slots.blocks ≠ [] := by
  refine hd.imp_right fun hb => ?_
  rw [← length_pos_iff] at hb ⊢
  rwa [h.depth]

end Frame.Allots

theorem Frame.declareAll_allots (c : Checked) (f : Frame) (ds : List Declaration) :
    f.Allots (f.declareAll c ds).1 (f.declareAll c ds).2 := by
  induction ds generalizing f
  case nil => exact .refl f
  case cons d ds ih => exact (Allots.declare f d.name (d.typeIn c) d.loc).trans (ih _)

namespace Site

variable (site : Site)

theorem given_behind (front : List Instruction) (ps : List Piece) :
    (ps.map (.behind front)).flatMap Piece.given = ps.flatMap Piece.given :=
  flatMap_map _ _ _

theorem declaration_allots {f : Frame} {s : Stmt} (loop : Option Loop)
    (hs : s.declaration? = some d) (hdeep : site.kind ≠ .toplevel ∨ f.slots.blocks ≠ [])
    (init : Option Expr) (loc : Location) : f.Allots (Piece.mk [] site loop f s).given
      (site.declaration f d.name (d.typeIn site.program) init loc).2 := by
  have hframe : (site.declaration f d.name (d.typeIn site.program) init loc).2 =
      (f.declare d.name (d.typeIn site.program)).2 := by
    rw [declaration, declare_eq hdeep]
    cases init <;> rfl
  have hgiven : (Piece.mk [] site loop f s).given =
      [⟨d.name, d.loc, (f.declare d.name (d.typeIn site.program)).1⟩] := by
    simp [Piece.given, hs, declare_eq hdeep]
  rw [hframe, hgiven]
  exact .declare f d.name _ d.loc

mutual

theorem stmt_allots (loop : Option Loop) (f : Frame) (s : Stmt)
    (hdeep : ∀ d ∈ s.declaration?, site.kind ≠ .toplevel ∨ f.slots.blocks ≠ []) :
    f.Allots ((⟨[], site, loop, f, s⟩ :: site.innerPieces loop f s).flatMap Piece.given)
      (site.stmt loop f s).2 := by
  rw [flatMap_cons]
  cases s
  case «variable» loc name type init =>
    simp only [innerMet, flatMap_nil, append_nil]
    have hvariable := site.declaration_allots (s := .variable loc name type init) loop rfl
      (hdeep _ rfl) init loc
    cases type <;> cases init <;> exact hvariable
  case constant loc name type value =>
    simp only [innerMet, flatMap_nil, append_nil]
    exact site.declaration_allots (s := .constant loc name type value) loop rfl (hdeep _ rfl)
      (some value) loc
  case block loc body => exact (stmts_allots loop f.enter body (.inr (cons_ne_nil _ _))).inBlock
  case branch loc condition thenBody elseBody =>
    have hthen := (stmts_allots loop (f.label 1).enter thenBody (.inr (cons_ne_nil _ _))).inBlock
    have helse (f' : Frame) := otherwise_allots loop f' f.labels loc elseBody
    simp only [innerMet, Survey.behind_plain, flatMap_append, given_behind]
    exact hthen.label.trans (helse _)
  case whileLoop loc condition body =>
    simp only [innerMet, Survey.within_plain, Survey.behind_plain, given_behind]
    exact (stmts_allots _ (f.label 2).enter body (.inr (cons_ne_nil _ _))).inBlock.label
  case forLoop loc init condition update body =>
    have hinit := step_allots loop f.enter init (.inr (cons_ne_nil _ _))
    have hbody (l : Loop) (f' : Frame) :=
      (stmts_allots (some l) (f'.label 3).enter body (.inr (cons_ne_nil _ _))).inBlock.label
    have hround (l : Loop) := hinit.trans (hbody l _)
    have hupdate (l : Loop) :=
      step_allots loop _ update ((hround l).deep (.inr (cons_ne_nil _ _)))
    rw [stmt_forLoop]
    simp only [innerMet, Survey.within_plain, Survey.behind_plain, flatMap_append, given_behind]
    exact ((hround _).trans (hupdate _)).inBlock
  case breakLoop loc => cases loop <;> exact .refl f
  case continueLoop loc => cases loop <;> exact .refl f
  all_goals exact .refl f

theorem stmts_allots (loop : Option Loop) (f : Frame) (body : List Stmt)
    (hdeep : site.kind ≠ .toplevel ∨ f.slots.blocks ≠ []) :
    f.Allots ((site.pieces loop f body).flatMap Piece.given) (site.stmts loop f [] body).2 := by
  cases body
  case nil => exact .refl f
  case cons s body =>
    cases hs : site.program.isFaultyStmt s
    case true =>
      rw [stmts_faulty _ loop f hs, pieces_faulty _ hs]
      exact stmts_allots loop f body hdeep
    case false =>
      rw [stmts_cons _ loop f hs, pieces_cons _ hs, flatMap_append, given_behind]
      have hfirst := stmt_allots loop f s fun _ _ => hdeep
      exact hfirst.trans (stmts_allots loop _ body (hfirst.deep hdeep))

theorem otherwise_allots (loop : Option Loop) (f : Frame) (orElse : Nat) (loc : Location)
    (body : Option (List Stmt)) :
    f.Allots ((site.elsePieces loop f orElse loc body).flatMap Piece.given)
      (site.otherwise loop f orElse loc body).2 := by
  cases body
  case none => exact .refl f
  case some body =>
    rw [elsePieces, elseMet, Survey.behind_plain, given_behind]
    exact (stmts_allots loop (f.label 1).enter body (.inr (cons_ne_nil _ _))).inBlock.label

theorem step_allots (loop : Option Loop) (f : Frame) (s : Option Stmt)
    (hdeep : site.kind ≠ .toplevel ∨ f.slots.blocks ≠ []) :
    f.Allots ((site.stepPieces loop f s).flatMap Piece.given) (site.step loop f s).2 := by
  cases s
  case none => exact .refl f
  case some s => exact stmt_allots loop f s fun _ _ => hdeep

end

theorem declared_behind (front : List Instruction) (ps : List Piece) :
    (ps.map (.behind front)).filterMap Piece.declaration? = ps.filterMap Piece.declaration? :=
  filterMap_map

mutual

theorem declared_stmt (loop : Option Loop) (f : Frame) (s : Stmt) :
    ((⟨[], site, loop, f, s⟩ :: site.innerPieces loop f s).filterMap
      Piece.declaration?).Subperm s.declarations := by
  cases s <;> simp only [innerMet, Survey.within_plain, Survey.behind_plain, Stmt.declarations]
  case «variable» | constant => exact List.Subperm.refl _
  case block loc body => exact declared_pieces loop f.enter body
  case branch loc condition thenBody elseBody =>
    rw [filterMap_cons_none rfl, filterMap_append, declared_behind, declared_behind]
    exact (declared_pieces loop _ thenBody).append
      (declared_elsePieces loop _ f.labels loc elseBody)
  case whileLoop loc condition body =>
    rw [filterMap_cons_none rfl, declared_behind]
    exact declared_pieces _ _ body
  case forLoop loc init condition update body =>
    rw [filterMap_cons_none rfl, filterMap_append, filterMap_append, declared_behind,
      declared_behind, append_assoc, append_assoc]
    refine (declared_stepPieces loop f.enter init).append ?_
    exact ((declared_pieces _ _ body).append (declared_stepPieces loop _ update)).trans
      perm_append_comm.subperm
  all_goals exact nil_subperm

theorem declared_pieces (loop : Option Loop) (f : Frame) (body : List Stmt) :
    ((site.pieces loop f body).filterMap Piece.declaration?).Subperm
      (declarationsIn body) := by
  cases body
  case nil => exact nil_subperm
  case cons s body =>
    rw [declarationsIn]
    cases hs : site.program.isFaultyStmt s
    case true =>
      rw [pieces_faulty _ hs]
      exact (declared_pieces loop f body).trans (sublist_append_right _ _).subperm
    case false =>
      rw [pieces_cons _ hs, filterMap_append, declared_behind]
      exact (declared_stmt loop f s).append (declared_pieces loop _ body)

theorem declared_elsePieces (loop : Option Loop) (f : Frame) (orElse : Nat) (loc : Location)
    (body : Option (List Stmt)) :
    ((site.elsePieces loop f orElse loc body).filterMap Piece.declaration?).Subperm
      (declarationsInElse body) := by
  cases body
  case none => exact nil_subperm
  case some body =>
    rw [elsePieces, elseMet, Survey.behind_plain, declared_behind]
    exact declared_pieces loop _ body

theorem declared_stepPieces (loop : Option Loop) (f : Frame) (s : Option Stmt) :
    ((site.stepPieces loop f s).filterMap Piece.declaration?).Subperm
      (declarationsInStep s) := by
  cases s
  case none => exact nil_subperm
  case some s => exact declared_stmt loop f s

end

end Site

end Code
end Lumen
