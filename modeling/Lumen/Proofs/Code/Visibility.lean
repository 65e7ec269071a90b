import Lumen.Proofs.Code.Constants
import Lumen.Proofs.Code.Occurrences
import Lumen.Proofs.Code.Tables

namespace Lumen

open Typing List Option

def Declaration.isFaulty (d : Declaration) (c : Checked) : Bool :=
  d.type.any c.isUnknown || d.init.any c.isFaulty

theorem Declaration.isFaulty_eq {s : Stmt} (h : s.declaration? = some d) (c : Checked) :
    c.isFaultyStmt s = d.isFaulty c := by
  cases s <;> cases h <;> simp [Checked.isFaultyStmt, isFaulty]

namespace Code

namespace Slots

def Open (s : Slots) : Prop :=
  ∀ x, (s.outside? x).isSome → (s.find? x).isSome

theorem Open.isSome_outside? {s : Slots} (h : s.Open) (hb : s.blocks ≠ []) (hx : ¬s.Brings x) :
    (s.outside? x).isSome = (s.find? x).isSome :=
  Bool.eq_iff_iff.mpr ⟨h x, fun hf => Shown.isSome_outside? ⟨hf, hx⟩ hb⟩

structure Spans (s s' : Slots) : Prop where
  length  : s'.blocks.length = s.blocks.length
  tail    : s'.blocks.tail = s.blocks.tail
  isOpen  : s.blocks ≠ [] → s.Open → s'.Open
  outside : s.blocks ≠ [] → s.Open → ∀ x, (s'.outside? x).isSome = (s.outside? x).isSome

namespace Spans

variable {s s' s'' : Slots}

theorem refl (s : Slots) : s.Spans s :=
  ⟨rfl, rfl, fun _ h => h, fun _ _ _ => rfl⟩

theorem ne_nil (h : s.Spans s') (hb : s.blocks ≠ []) : s'.blocks ≠ [] := by
  rw [← length_pos_iff] at hb ⊢
  rwa [h.length]

theorem trans (h : s.Spans s') (h' : s'.Spans s'') : s.Spans s'' where
  length := h'.length.trans h.length
  tail := h'.tail.trans h.tail
  isOpen hb ho := h'.isOpen (h.ne_nil hb) (h.isOpen hb ho)
  outside hb ho x := (h'.outside (h.ne_nil hb) (h.isOpen hb ho) x).trans (h.outside hb ho x)

theorem allocate (h : s.allocate name type = .ok (slot, s')) : s.Spans s' := by
  have houtside (hb : s.blocks ≠ []) (ho : s.Open) (x : String) :
      (s'.outside? x).isSome = (s.outside? x).isSome := by
    rcases outside?_allocate_cases h x with hsame | ⟨-, hbrings, hold⟩
    · rw [hsame]
    · rw [hold, ho.isSome_outside? hb hbrings]
  refine ⟨(tail_allocate h).2, (tail_allocate h).1, fun hb ho x hx => ?_, houtside⟩
  rw [houtside hb ho x] at hx
  rw [find?_allocate h]
  split
  · rfl
  · exact ho x hx

theorem isSome_leave (h : s.enter.Spans s') (x : String) :
    (s'.leave.find? x).isSome = (s.find? x).isSome := by
  have hb : s.enter.blocks ≠ [] := cons_ne_nil _ _
  have ho : s.enter.Open := fun x hx => outside?_enter s x ▸ hx
  rw [find?_leave (h.ne_nil hb), h.outside hb ho, outside?_enter]

theorem inBlock (h : s.enter.Spans s') : s.Spans s'.leave := by
  have hblocks : s'.leave.blocks = s.blocks := (blocks_leave s').trans h.tail
  have houtside (hb : s.blocks ≠ []) (ho : s.Open) (x : String) :
      (s'.leave.outside? x).isSome = (s.outside? x).isSome := by
    rcases outside?_of_blocks hblocks x with hsame | ⟨hbrings, hfound⟩
    · rw [hsame]
    · rw [hfound, h.isSome_leave, ho.isSome_outside? hb hbrings]
  refine ⟨by rw [hblocks], by rw [hblocks], fun hb ho x hx => ?_, houtside⟩
  rw [houtside hb ho x] at hx
  rw [h.isSome_leave]
  exact ho x hx

end Spans

end Slots

theorem Site.declare_spans (site : Site) (f : Frame) (name : String) (type : Ty) :
    f.slots.Spans (site.declare f name type).2.slots ∧
      ∀ x, ((site.declare f name type).2.slots.find? x).isSome ↔
        (f.slots.find? x).isSome ∨ name = x ∧ (site.declare f name type).1.isSome := by
  have hnew : f.slots.Spans (f.declare name type).2.slots ∧
      ∀ x, ((f.declare name type).2.slots.find? x).isSome ↔
        (f.slots.find? x).isSome ∨ name = x ∧ (f.declare name type).1.isSome := by
    rw [Frame.declare]
    cases ha : f.slots.allocate name type
    case error => exact ⟨.refl _, by simp⟩
    case ok given =>
      refine ⟨.allocate ha, fun x => ?_⟩
      rw [Slots.find?_allocate ha]
      by_cases hx : name = x <;> simp [hx]
  rw [declare]
  split
  case h_2 => exact hnew
  case h_1 slot hfind =>
    split
    case isFalse => exact hnew
    case isTrue =>
      refine ⟨.refl _, fun x => ⟨.inl, ?_⟩⟩
      rintro (hx | ⟨rfl, -⟩)
      · exact hx
      · exact isSome_of_eq_some hfind

theorem Site.slots_stmt (site : Site) (loop : Option Loop) (f : Frame) {s : Stmt}
    (hb : s.hasBody = false) :
    (site.stmt loop f s).2.slots = (s.declaration?.elim f fun d =>
      (site.declare f d.name (d.typeIn site.program)).2).slots := by
  cases s <;> try cases hb
  case «variable» loc name type init => cases type <;> cases init <;> rfl
  case breakLoop | continueLoop => cases loop <;> rfl
  all_goals rfl

theorem Site.Builds.spans {site : Site} {Q : Option Loop → Frame → Stmt → Prop}
    (h : site.Builds Q f ps code f') : f.slots.Spans f'.slots := by
  induction h
  case append h h' => exact h.trans h'
  case plain loop f s hs hb =>
    rw [site.slots_stmt loop f hb]
    cases s.declaration?
    case none => exact .refl _
    case some d => exact (site.declare_spans f d.name _).1
  case nested h => exact h
  case label h => exact ⟨h.length, h.tail, h.isOpen, h.outside⟩
  case inBlock h => exact h.inBlock
  all_goals exact .refl _

theorem Site.step_spans (site : Site) (loop : Option Loop) (f : Frame) (s : Option Stmt) :
    f.slots.Spans (site.step loop f s).2.slots :=
  (step_builds (Q := fun _ _ _ => True) loop f s fun _ _ => trivial).spans

section Tracks

variable (base : Slots) (Has : Declaration → Prop)

-- Some variable of that name has a slot: one that had it ahead of the body, or one whose
-- declaration can be seen and got it.
def Shows (names : Names) (name : String) : Prop :=
  (base.find? name).isSome ∨
    ∃ block ∈ names.blocks, ∃ b ∈ block, b.declared.name = name ∧ Has b.declared

structure Tracks (slots : Slots) (names : Names) : Prop where
  ne_nil : names.blocks ≠ []
  shows  : ∀ x, (slots.find? x).isSome ↔ Shows base Has names x

def Piece.Tells (p : Piece) : Prop :=
  ∀ d ∈ p.declaration?,
    Has d ↔ (p.site.declare p.frame d.name (d.typeIn p.site.program)).1.isSome

def Seen (L : Names × Expr → Prop) (looked : List (Slots × Expr)) : Prop :=
  ∀ q ∈ looked, ∃ names, Tracks base Has q.1 names ∧ L (names, q.2)

variable {base Has} {slots slots' : Slots} {names : Names} {L : Names × Expr → Prop}

namespace Tracks

section

variable (h : Tracks base Has slots names)

include h

theorem enter : Tracks base Has slots.enter names.enter :=
  ⟨names.enter_ne_nil, fun x => by simpa [Shows] using h.shows x⟩

theorem skip (count : Nat) :
    Tracks base Has slots (names.skip count) :=
  ⟨h.ne_nil, h.shows⟩

theorem leave (hs : slots.enter.Spans slots') :
    Tracks base Has slots'.leave names :=
  ⟨h.ne_nil, fun x => by rw [hs.isSome_leave, h.shows]⟩

theorem declare {d : Declaration}
    (hd : ∀ x, (slots'.find? x).isSome ↔ (slots.find? x).isSome ∨ d.name = x ∧ Has d) :
    Tracks base Has slots' (names.declare d) := by
  refine ⟨Names.declare_ne_nil h.ne_nil d, fun x => ?_⟩
  obtain ⟨block, outer, hb⟩ := exists_cons_of_ne_nil h.ne_nil
  rw [hd, h.shows, Shows, Shows, Names.declare, hb]
  simp only [mem_cons, exists_eq_or_imp]
  grind

theorem seen (es : List Expr)
    (hl : ∀ q ∈ es.map (names, ·), L q) : Seen base Has L (es.map (slots, ·)) := by
  rw [List.forall_mem_map] at hl
  exact List.forall_mem_map.mpr fun e he => ⟨names, h, hl e he⟩

end

end Tracks

variable {site : Site}

mutual

theorem stmt_tracks (loop : Option Loop) (f : Frame) (names : Names) (s : Stmt)
    (hd : ∀ d ∈ s.declarations, Has d → d.isFaulty site.program = false)
    (hp : ∀ p ∈ ⟨[], site, loop, f, s⟩ :: site.innerPieces loop f s, p.Tells Has)
    (hl : ∀ q ∈ s.evaluated names, L q) (h : Tracks base Has f.slots names) :
    Tracks base Has (site.stmt loop f s).2.slots (names.after s) ∧
      ∀ p ∈ ⟨[], site, loop, f, s⟩ :: site.innerPieces loop f s, Seen base Has L p.looked := by
  have hbehind (loop : Option Loop) (f : Frame) (body : List Stmt) {names : Names}
      (h : Tracks base Has f.slots names) :=
    h.leave (site.builds_stmts loop f.enter body).spans
  have hdeclare {d : Declaration} (hs : s.declaration? = some d) (hb : s.hasBody = false) :
      Tracks base Has (site.stmt loop f s).2.slots (names.after s) := by
    rw [site.slots_stmt loop f hb, Names.after, hs]
    refine h.declare fun x => ?_
    rw [hp _ mem_cons_self d hs]
    exact (site.declare_spans f d.name _).2 x
  cases s <;> simp only [Stmt.declarations, forall_mem_append] at hd <;>
    simp only [Site.innerMet, Survey.within_plain, forall_mem_cons, forall_mem_append,
      List.forall_mem_map] at hp ⊢ <;>
    simp only [Stmt.evaluated, cons_append, forall_mem_cons, forall_mem_append] at hl
  case «variable» loc name type init => exact ⟨hdeclare rfl rfl, h.seen _ hl, by simp⟩
  case constant loc name type value =>
    exact ⟨hdeclare rfl rfl, h.seen [value] (by simpa using hl), by simp⟩
  case block loc body =>
    have hbody := stmts_tracks loop f.enter names.enter body hd hp.2 hl h.enter
    exact ⟨(hbehind loop f body h).skip _, by simp [Seen, Piece.looked], hbody.2⟩
  case assign loc target op value =>
    exact ⟨h.skip 0, h.seen [target, value] (by simpa using hl), by simp⟩
  case result loc value => exact ⟨h.skip 0, h.seen _ hl, by simp⟩
  case evaluate loc e => exact ⟨h.skip 0, h.seen [e] (by simpa using hl), by simp⟩
  case branch loc condition thenBody elseBody =>
    have hthen := stmts_tracks loop (f.label 1).enter names.enter thenBody hd.1 hp.2.1 hl.2.1
      h.enter
    have helse := otherwise_tracks loop _ f.labels loc _ elseBody hd.2 hp.2.2 hl.2.2
      ((hbehind loop (f.label 1) thenBody h).skip _)
    exact ⟨⟨h.ne_nil, helse.1.shows⟩, h.seen [condition] (by simpa using hl.1), hthen.2, helse.2⟩
  case whileLoop loc condition body =>
    have hbody := stmts_tracks _ (f.label 2).enter names.enter body hd hp.2 hl.2 h.enter
    exact ⟨(hbehind _ (f.label 2) body h).skip _, h.seen [condition] (by simpa using hl.1), hbody.2⟩
  case forLoop loc init condition update body =>
    have hinit := step_tracks loop f.enter names.enter init hd.1.1 hp.2.1.1 hl.1.1.1 h.enter
    have hbody := stmts_tracks _ (Frame.label _ 3).enter _ body hd.2 hp.2.1.2 hl.2 hinit.1.enter
    have hround (l : Loop) := hbehind (some l) (Frame.label _ 3) body hinit.1
    have hupdate := step_tracks loop _ _ update hd.1.2 hp.2.2 hl.1.2 (hround _)
    have hinside (l : Loop) := (site.step_spans loop f.enter init).trans
      (site.builds_stmts (some l) (Frame.label _ 3).enter body).spans.inBlock
    have hspans (l : Loop) := (hinside l).trans (site.step_spans loop (Frame.leave _) update)
    refine ⟨?_, hinit.1.seen _ hl.1.1.2, ⟨hinit.2, hbody.2⟩, hupdate.2⟩
    rw [Site.stmt_forLoop]
    exact (h.leave (hspans _)).skip _
  case breakLoop | continueLoop =>
    cases loop <;> exact ⟨h.skip 0, by simp [Seen, Piece.looked], by simp⟩
  all_goals exact ⟨h.skip _, by simp [Seen, Piece.looked], by simp⟩

theorem stmts_tracks (loop : Option Loop) (f : Frame) (names : Names) (body : List Stmt)
    (hd : ∀ d ∈ declarationsIn body, Has d → d.isFaulty site.program = false)
    (hp : ∀ p ∈ site.pieces loop f body, p.Tells Has)
    (hl : ∀ q ∈ evaluatedIn names body, L q) (h : Tracks base Has f.slots names) :
    Tracks base Has (site.stmts loop f [] body).2.slots (names.afterBody body) ∧
      ∀ p ∈ site.pieces loop f body, Seen base Has L p.looked := by
  cases body
  case nil => exact ⟨h, by simp [Site.met]⟩
  case cons s body =>
    rw [declarationsIn, forall_mem_append] at hd
    rw [evaluatedIn, forall_mem_append] at hl
    cases hs : site.program.isFaultyStmt s
    case true =>
      rw [Site.pieces_faulty _ hs] at hp ⊢
      rw [Site.stmts_faulty _ loop f hs]
      refine stmts_tracks loop f (names.after s) body hd.2 hp hl.2 ?_
      -- A statement that is passed over may declare something, which then has no slot.
      rw [Names.after]
      split
      case h_2 => exact h.skip _
      case h_1 d hdecl =>
        have hnone : ¬Has d := by
          intro hhas
          have hmem : d ∈ s.declarations := by
            cases s <;> cases hdecl <;> exact mem_singleton.mpr rfl
          rw [Declaration.isFaulty_eq hdecl, hd.1 d hmem hhas] at hs
          cases hs
        exact h.declare fun x => by simp [hnone]
    case false =>
      rw [Site.pieces_cons _ hs, forall_mem_append, List.forall_mem_map] at hp ⊢
      rw [Site.stmts_cons _ loop f hs]
      have hfirst := stmt_tracks loop f names s hd.1 hp.1 hl.1 h
      have hrest := stmts_tracks loop _ (names.after s) body hd.2 hp.2 hl.2 hfirst.1
      exact ⟨hrest.1, hfirst.2, hrest.2⟩

theorem otherwise_tracks (loop : Option Loop) (f : Frame) (orElse : Nat) (loc : Location)
    (names : Names) (body : Option (List Stmt))
    (hd : ∀ d ∈ declarationsInElse body, Has d → d.isFaulty site.program = false)
    (hp : ∀ p ∈ site.elsePieces loop f orElse loc body, p.Tells Has)
    (hl : ∀ q ∈ evaluatedInElse names body, L q) (h : Tracks base Has f.slots names) :
    Tracks base Has (site.otherwise loop f orElse loc body).2.slots names ∧
      ∀ p ∈ site.elsePieces loop f orElse loc body, Seen base Has L p.looked := by
  cases body
  case none => exact ⟨h, by simp [Site.elseMet]⟩
  case some body =>
    rw [Site.elsePieces, Site.elseMet, List.forall_mem_map] at hp ⊢
    have hbody := stmts_tracks loop (f.label 1).enter names.enter body hd hp hl h.enter
    exact ⟨h.leave (site.builds_stmts loop (f.label 1).enter body).spans, hbody.2⟩

theorem step_tracks (loop : Option Loop) (f : Frame) (names : Names) (s : Option Stmt)
    (hd : ∀ d ∈ declarationsInStep s, Has d → d.isFaulty site.program = false)
    (hp : ∀ p ∈ site.stepPieces loop f s, p.Tells Has)
    (hl : ∀ q ∈ evaluatedInStep names s, L q) (h : Tracks base Has f.slots names) :
    Tracks base Has (site.step loop f s).2.slots (names.afterStep s) ∧
      ∀ p ∈ site.stepPieces loop f s, Seen base Has L p.looked := by
  cases s
  case none => exact ⟨h, by simp [Site.stepMet]⟩
  case some s => exact stmt_tracks loop f names s hd hp hl h

end

end Tracks

def Storage.get (name : String) (type : Ty) (loc : Location) : Storage → Instruction
  | .slot n => .access .load name type (some n) loc
  | .field className => .withOperand .getField (.symbol (fullName (some className) name)) type loc
  | .global => .access .load name type none loc

namespace Occurrence

def access (o : Occurrence) (type : Ty) (storage : Storage) : Instruction :=
  match o.role with
  | .read => storage.get o.name type o.mark.loc
  | .target loc _ _ => storage.put o.name type loc

def assigned (o : Occurrence) : List Instruction :=
  match o.role with
  | .read => []
  | .target _ _ value => value

theorem ends_code (o : Occurrence) (self : Option Nat) (type : Ty) (storage : Storage)
    (h : Silent o.assigned) : Ends (o.code self type storage) (some (o.access type storage)) := by
  obtain ⟨before, mark, name, role⟩ := o
  cases role
  case read =>
    cases storage
    case field className => exact ⟨[.access .load "this" _ self mark.loc], .single rfl, rfl⟩
    all_goals exact ⟨[], .nil, rfl⟩
  case target loc op value =>
    have hstored (old : List Instruction) (hold : Silent old) :
        Silent (storedCode old value type op loc) := by
      cases op
      case none => exact h
      case some op =>
        exact (hold.append h).append (.of_computes (.single (Site.computes_ofBinary op)))
    cases storage
    case field className =>
      exact ⟨_ :: _, .cons rfl (hstored [_, _] (.cons rfl (.single rfl))), rfl⟩
    all_goals exact ⟨_, hstored [_] (.single rfl), rfl⟩

end Occurrence

def Piece.occurrences (p : Piece) : List Occurrence :=
  p.reads.flatMap (fun x => (p.site.occurrences x.slots x.expr).map (.behind x.before)) ++ p.targets

theorem Site.reaches_self (site : Site) (slots : Slots) (name : String) :
    site.Reaches slots name (slots.find? "this") := by
  intro className h loc
  rw [receiver, className_of_field h]

namespace Lowered

variable (r : Lowered)

def Gives (d : Declaration) : Prop :=
  ∃ n, ⟨d.name, d.loc, some n⟩ ∈ r.pieces.flatMap Piece.given

def hasField (name : String) : Bool :=
  (r.site.memberHere? name).any (·.kind = .field)

-- Where a variable is kept at some place: in a slot if one of its name has a slot there, otherwise
-- in a field of that name if there is one.
structure KeptIn (names : Names) (name : String) (storage : Storage) : Prop where
  slot   : (∃ n, storage = .slot n) ↔ Shows r.frame.slots r.Gives names name
  field  : (∃ className, storage = .field className ∧ r.site.className = some className) ↔
    ¬Shows r.frame.slots r.Gives names name ∧ r.hasField name
  global : storage = .global ↔ ¬Shows r.frame.slots r.Gives names name ∧ ¬r.hasField name

-- A variable becomes accesses to where the variables are kept that can be seen at its place, of
-- which only the last can be a write: that is one read, or for a target one write, with a read of
-- the same storage ahead if the old value takes part. A slot is that of a variable of its name.
def Finds (o : Occurrence) : Prop :=
  ∃ names e storage self, (names, e) ∈ evaluatedIn .empty r.body ∧ o.mark.id ∈ e.ids ∧
    r.KeptIn names o.name storage ∧
    o.before ++ o.code self (r.site.program.typeAt o.mark.id) storage <+: r.routine.code ∧
    Ends (o.code self (r.site.program.typeAt o.mark.id) storage)
      (some (o.access (r.site.program.typeAt o.mark.id) storage)) ∧
    ∀ n, storage = .slot n → ∃ type, ⟨o.name, n, type⟩ ∈ r.routine.locals

variable {r}

theorem piece_of_given (h : a ∈ r.pieces.flatMap Piece.given) :
    ∃ p ∈ r.pieces, ∃ d, p.declaration? = some d ∧
      a = ⟨d.name, d.loc, (p.site.declare p.frame d.name (d.typeIn p.site.program)).1⟩ := by
  obtain ⟨p, hp, ha⟩ := mem_flatMap.mp h
  obtain ⟨d, hd, rfl⟩ := List.mem_map.mp ha
  exact ⟨p, hp, d, mem_toList.mp hd, rfl⟩

-- No two declarations stand at one place, so that each has a slot of its own, or none.
theorem tells (hn : ((declarationsIn r.body).map (·.loc)).Nodup) :
    (∀ d ∈ declarationsIn r.body, r.Gives d → d.isFaulty r.site.program = false) ∧
      ∀ p ∈ r.pieces, p.Tells r.Gives := by
  have hsubperm := r.site.declared_pieces none r.frame r.body
  refine ⟨fun d hd hgives => ?_, fun p hp d hd => ⟨fun hgives => ?_, fun hslot => ?_⟩⟩
  · obtain ⟨n, hgiven⟩ := hgives
    obtain ⟨p, hp, d', hd', heq⟩ := piece_of_given hgiven
    have hmem : d' ∈ declarationsIn r.body :=
      hsubperm.subset (mem_filterMap.mpr ⟨p, hp, hd'⟩)
    have hloc : d.loc = d'.loc := congrArg Allotment.loc heq
    cases inj_on_of_nodup_map hn hd hmem hloc
    have hsound := (Site.pieces_inherit (R := fun _ => True) (fun _ _ _ _ => trivial) none r.frame
      r.body (fun _ _ => trivial) p hp).2
    rwa [Declaration.isFaulty_eq hd'] at hsound
  · obtain ⟨n, hgiven⟩ := hgives
    obtain ⟨p', hp', d', hd', heq⟩ := piece_of_given hgiven
    obtain ⟨ds, hperm, hsub⟩ := hsubperm
    have hloc : d.loc = d'.loc := congrArg Allotment.loc heq
    cases Piece.eq_of_loc ((hperm.map _).nodup_iff.mp (hn.sublist (hsub.map _))) hp hp' hd hd' hloc
    cases hd.symm.trans hd'
    exact isSome_of_eq_some (congrArg Allotment.slot heq).symm
  · obtain ⟨n, hn⟩ := isSome_iff_exists.mp hslot
    refine ⟨n, mem_flatMap.mpr ⟨p, hp, List.mem_map.mpr ⟨d, mem_toList.mpr hd, ?_⟩⟩⟩
    rw [hn]

theorem seen (hn : ((declarationsIn r.body).map (·.loc)).Nodup) : ∀ p ∈ r.pieces,
    Seen r.frame.slots r.Gives (· ∈ evaluatedIn .empty r.body) p.looked := by
  have hstart : Tracks r.frame.slots r.Gives r.frame.slots .empty :=
    ⟨cons_ne_nil _ _, fun x => by simp [Shows, Names.empty]⟩
  exact (stmts_tracks none r.frame .empty r.body (tells hn).1 (tells hn).2
    (fun _ hq => hq) hstart).2

theorem keptIn (h : Tracks r.frame.slots r.Gives slots names) (name : String) :
    r.KeptIn names name (r.site.storage slots name) := by
  have hshows := h.shows name
  cases hfind : slots.find? name <;> rw [hfind] at hshows
  case some n =>
    have hs : r.site.storage slots name = .slot n := by rw [Site.storage, hfind]
    constructor <;> simp [hs, ← hshows]
  case none =>
    cases hc : r.site.className
    case none =>
      have hs : r.site.storage slots name = .global := by simp [Site.storage, hfind, hc]
      have hf : r.hasField name = false := by simp [hasField, Site.memberHere?, hc]
      constructor <;> simp [hs, hf, ← hshows]
    case some className =>
      have hs : r.site.storage slots name =
          if r.hasField name then .field className else .global := by
        simp only [Site.storage, hfind, hc]
        rfl
      cases hf : r.hasField name <;> rw [hf] at hs <;> constructor <;> simp [hs, hf, hc, ← hshows]

theorem finds (hn : ((declarationsIn r.body).map (·.loc)).Nodup)
    (hcode : r.routine.code = finished (r.site.stmts none r.frame [] r.body).1 l)
    (hrows : ∀ i ∈ r.routine.code, ∀ slot ∈ i.slot, (i.opcode = .load ∨ i.opcode = .store) ∧ ∃ name
      type, i.operand = some (.symbol name) ∧ ⟨name, slot, type⟩ ∈ r.routine.locals) :
    ∀ p ∈ r.pieces, ∀ o ∈ p.occurrences, r.Finds o := by
  intro p hp
  obtain ⟨hsite, hcode⟩ : p.site = r.site ∧ p.before ++ p.code <+: r.routine.code :=
    (hcode ▸ (r.site.stmts_placed none r.frame r.body).finished l :
      Placed r.site r.routine.code r.pieces) p hp
  -- The access of a name, at a place of the text.
  have hfinds {o : Occurrence} {slots : Slots} {e : Expr}
      (hseen : ∃ names, Tracks r.frame.slots r.Gives slots names ∧
        (names, e) ∈ evaluatedIn .empty r.body) (hid : o.mark.id ∈ e.ids)
      (hs : Silent o.assigned)
      (hat : o.before ++ o.code (slots.find? "this") (r.site.program.typeAt o.mark.id)
        (r.site.storage slots o.name) <+: r.routine.code) : r.Finds o := by
    obtain ⟨names, htracks, hmem⟩ := hseen
    have hends := o.ends_code (slots.find? "this") (r.site.program.typeAt o.mark.id)
      (r.site.storage slots o.name) hs
    refine ⟨names, e, _, _, hmem, hid, keptIn htracks o.name, hat, hends, fun n hslot => ?_⟩
    obtain ⟨ahead, -, heq⟩ := hends
    have hi := (heq ▸ hat).subset
      (mem_append_right _ (mem_append_right _ (mem_singleton.mpr rfl)))
    rw [hslot] at hi
    have haccess : (o.access (r.site.program.typeAt o.mark.id) (.slot n)).slot = some n ∧
        (o.access (r.site.program.typeAt o.mark.id) (.slot n)).operand = some (.symbol o.name) := by
      rw [Occurrence.access]
      split <;> exact ⟨rfl, rfl⟩
    obtain ⟨-, name, type, hname, hrow⟩ := hrows _ hi n haccess.1
    cases haccess.2.symm.trans hname
    exact ⟨type, hrow⟩
  refine forall_mem_append.mpr ⟨fun o ho => ?_, fun o ho => ?_⟩
  · obtain ⟨x, hx, ho⟩ := mem_flatMap.mp ho
    obtain ⟨read, hread, rfl⟩ := List.mem_map.mp ho
    have hwithin := (occurrences_within (R := fun _ => True) (fun _ _ _ _ => trivial) x.expr trivial
      read hread).behind x.before
    have hat := (hwithin.placed.trans (p.reads_placed x hx)).trans hcode
    obtain ⟨e, hseen, hids⟩ : ∃ e, (∃ names, Tracks r.frame.slots r.Gives x.slots names ∧
        (names, e) ∈ evaluatedIn .empty r.body) ∧ x.expr.ids ⊆ e.ids := by
      rcases p.looked_of_reads x hx with hlooked | ⟨mark, name, hlooked⟩
      · exact ⟨_, seen hn p hp _ hlooked, List.Subset.refl _⟩
      · exact ⟨_, seen hn p hp _ hlooked, subset_append_left _ _⟩
    refine hfinds hseen (hids hwithin.part) ?_ ?_
    · rw [Occurrence.assigned, hwithin.role]
      exact .nil
    · rw [Occurrence.code, hwithin.role, ← hsite]
      rwa [Site.value_variable (p.site.reaches_self x.slots _)] at hat
  · rw [Piece.targets] at ho
    split at ho
    case h_2 => cases ho
    case h_1 loc mark name op value hs =>
      cases mem_singleton.mp ho
      have hseen := seen hn p hp (p.frame.slots, .variable mark name) (by simp [Piece.looked, hs])
      refine hfinds hseen mem_cons_self (p.site.value_silent p.frame.slots value) ?_
      rw [Piece.code, hs, Site.stmt, Site.assign_variable (p.site.reaches_self p.frame.slots name),
        hsite] at hcode
      rw [hsite]
      exact hcode

end Lowered

end Code

-- Whatever is wrong in a program, a variable is accessed in a slot exactly if one of its name that
-- can be seen at its place has a slot. A declaration that has none hides nothing.
theorem Compilation.slots_as_seen {mode : Mode} {source : String} {c : Compilation}
    (h : ofSource mode source = .ok c) :
    (Code.lowered c.checked).map Code.Lowered.routine = c.routines ∧
      ∀ r ∈ Code.lowered c.checked, ∀ p ∈ r.pieces, ∀ o ∈ p.occurrences, r.Finds o := by
  obtain ⟨hchecked, -, hroutines⟩ := ofSource_ok h
  refine ⟨(Code.routine_lowered _).trans hroutines.symm, ?_⟩
  rw [hchecked]
  have hplaced := Parsed.ofSource_placed source
  have hformed := Parsed.ofTokens_formed _ (Lexed.ofSource_isName source)
  intro r hr
  rcases Code.mem_lowered hr with rfl | ⟨loc, name, fields, methods, -, rfl⟩ |
    ⟨className, item, hd, hr⟩
  · exact Code.Lowered.finds (hplaced.sublist ((declarationsIn_filter _ _).map _))
      (Code.code_loweredMain _) (Code.mainCode_hasTable hformed).accesses
  · simp
  · obtain ⟨loc, name, params, returns, isStatic, _, signature, rfl, -, -, -, -, hframe,
      hroutine⟩ := Code.loweredRoutine?_eq_some hr
    obtain ⟨hwritten, -⟩ := hd.written hformed fun _ => Parsed.ofSource_opened
    have hsub := (sublist_append_right _ _).trans (Checked.Defines.declarations_sublist hd)
    refine Code.Lowered.finds (l := loc) (hplaced.sublist (hsub.map _)) ?_ ?_
    · rw [hroutine, Code.Routine.ofBody_eq]
      rfl
    · rw [hroutine]
      exact (Code.body_hasTable r.site _ hwritten.2.1 signature.params hwritten.2.2.2 hframe _ _
        _).accesses

-- The inner variable has no slot. What is read, and what is added to, has that of the parameter.
theorem Compilation.slots_as_seen_hidden :
    ∃ c, ofSource .exploratory
        "void f(int x) \x7b \x7b int x = missing; print(x); x += 1; \x7d \x7d" = .ok c ∧
      (∃ r ∈ Code.lowered c.checked, (declarationsIn r.body).length = 1 ∧
        r.pieces.flatMap Code.Piece.given = [] ∧
        (r.pieces.flatMap Code.Piece.occurrences).length = 2) ∧
      (Code.lowered c.checked).map Code.Lowered.routine = c.routines ∧
        ∀ r ∈ Code.lowered c.checked, ∀ p ∈ r.pieces, ∀ o ∈ p.occurrences, r.Finds o :=
  exists_ok_and (by decide +kernel) fun _ hc _ => slots_as_seen hc

abbrev Code.Lowered.Confuses (r : Lowered) (looks : List Lookup) : Prop :=
  ∃ o ∈ r.pieces.flatMap Piece.occurrences, ∃ look ∈ looks, look.routine = r.routine.name ∧
    o.mark.id ∈ look.expr.ids ∧ ∃ d ∈ declarationsIn r.body,
      (look.environment.symbol? o.name).map (·.loc) = some d.loc ∧
      (∀ a ∈ r.given, a.loc = d.loc → a.slot = none) ∧
      ∃ i ∈ r.routine.code, i.loc = o.mark.loc ∧ i.slot.isSome

theorem Compilation.slotless_confused :
    ∃ c, ofSource .exploratory
        "void f(int x) \x7b \x7b int x = missing; print(x); \x7d \x7d" = .ok c ∧
      ∃ r ∈ Code.lowered c.checked, r.Confuses (lookups c.checked.items) := by
  have hany : (ofSource .exploratory
        "void f(int x) \x7b \x7b int x = missing; print(x); \x7d \x7d").toOption.any
      fun (c : Compilation) => decide (∃ r ∈ Code.lowered c.checked,
        r.Confuses (lookups c.checked.items)) := by
    decide +kernel
  obtain ⟨c, hc, hr⟩ := exists_of_toOption hany
  exact ⟨c, hc, of_decide_eq_true hr⟩

end Lumen
