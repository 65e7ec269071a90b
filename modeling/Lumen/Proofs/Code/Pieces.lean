import Lumen.Proofs.Code.Unit

namespace Lumen

open Typing List

namespace Code

structure Allotment where
  name : String
  loc  : Location
  slot : Option Nat
deriving DecidableEq

structure Read where
  before : List Instruction
  slots  : Slots
  expr   : Expr

def Read.behind (front : List Instruction) (r : Read) : Read :=
  { r with before := front ++ r.before }

def Site.assignHead (site : Site) (slots : Slots) (target : Expr) (op : Option BinaryOp)
    (loc : Location) : List Instruction :=
  let type := site.program.typeOf target
  let fieldHead (className name : String) := match op with
    | none => []
    | some _ => [.plain .dup (.object className) loc,
        .withOperand .getField (.symbol (fullName (some className) name)) type loc]
  let variableHead (name : String) (slot : Option Nat) := match op with
    | none => []
    | some _ => [.access .load name type slot loc]
  match target with
  | .variable _ name =>
    match site.storage slots name with
    | .field className => site.receiver slots loc :: fieldHead className name
    | .slot slot => variableHead name (some slot)
    | .global => variableHead name none
  | .member _ object name =>
    match site.program.typeOf object with
    | .object className => site.value slots object ++ fieldHead className name
    | _ => []
  | _ => []

def Site.assignReads (site : Site) (slots : Slots) (target : Expr) (op : Option BinaryOp)
    (value : Expr) (loc : Location) : List Read :=
  let head := site.assignHead slots target op loc
  match target with
  | .variable .. => [⟨head, slots, value⟩]
  | .member _ object _ =>
    match site.program.typeOf object with
    | .object _ => [⟨[], slots, object⟩, ⟨head, slots, value⟩]
    | _ => []
  | _ => []

structure Piece where
  before : List Instruction
  site   : Site
  loop   : Option Loop
  frame  : Frame
  stmt   : Stmt

namespace Piece

def code (p : Piece) : List Instruction :=
  (p.site.stmt p.loop p.frame p.stmt).1

def behind (front : List Instruction) (p : Piece) : Piece :=
  { p with before := front ++ p.before }

def given (p : Piece) : List Allotment :=
  p.stmt.declaration?.toList.map fun d =>
    ⟨d.name, d.loc, (p.site.declare p.frame d.name (d.typeIn p.site.program)).1⟩

def looked (p : Piece) : List (Slots × Expr) :=
  match p.stmt with
  | .variable _ _ _ init => init.toList.map (p.frame.slots, ·)
  | .assign _ target _ value => [target, value].map (p.frame.slots, ·)
  | .result _ value => value.toList.map (p.frame.slots, ·)
  | .constant _ _ _ e | .branch _ e _ _ | .whileLoop _ e _ | .evaluate _ e =>
    [e].map (p.frame.slots, ·)
  | .forLoop _ init condition _ _ =>
    condition.toList.map ((p.site.step p.loop p.frame.enter init).2.slots, ·)
  | .block .. | .breakLoop _ | .continueLoop _ | .classDef .. | .routine .. | .bare _ => []

def reads (p : Piece) : List Read :=
  let slots := p.frame.slots
  let own : List Read := match p.stmt with
    | .variable _ _ _ init => init.toList.map (⟨[], slots, ·⟩)
    | .constant _ _ _ value => [⟨[], slots, value⟩]
    | .assign loc target op value => p.site.assignReads slots target op value loc
    | .result _ value => value.toList.map (⟨[], slots, ·⟩)
    | .branch _ condition _ _ => [⟨[], slots, condition⟩]
    | .whileLoop loc condition _ => [⟨[.place p.frame.labels loc], slots, condition⟩]
    | .forLoop loc init condition _ _ =>
      let started := p.site.step p.loop p.frame.enter init
      condition.toList.map (⟨started.1 ++ [.place started.2.labels loc], started.2.slots, ·⟩)
    | .evaluate _ e => [⟨[], slots, e⟩]
    | .block .. | .breakLoop _ | .continueLoop _ | .classDef .. | .routine .. | .bare _ => []
  own.map (.behind p.before)

end Piece

-- What is kept of the statements that are met. Those in the body of a loop are told so.
structure Survey (α : Type) where
  piece  : Piece → α
  behind : List Instruction → α → α
  within : Piece → List α → List α

namespace Survey

def plain : Survey Piece :=
  ⟨id, .behind, fun _ ps => ps⟩

@[simp] theorem behind_plain : plain.behind = Piece.behind :=
  rfl

@[simp] theorem within_plain (loop : Piece) (ps : List Piece) : plain.within loop ps = ps :=
  rfl

end Survey

namespace Site

section Survey

variable (site : Site) {α : Type} (survey : Survey α)

mutual

def innerMet (loop : Option Loop) (f : Frame) : Stmt → List α
  | .block _ body => met loop f.enter body
  | .branch loc condition thenBody elseBody =>
    let head := site.value f.slots condition ++ [.jump .jumpIfFalse f.labels loc]
    let inside := site.stmts loop (f.label 1).enter [] thenBody
    (met loop (f.label 1).enter thenBody).map (survey.behind head) ++
      (elseMet loop inside.2.leave f.labels loc elseBody).map (survey.behind (head ++ inside.1))
  | .whileLoop loc condition body =>
    let head := .place f.labels loc :: site.value f.slots condition ++
      [.jump .jumpIfFalse (f.labels + 1) loc]
    survey.within ⟨[], site, loop, f, .whileLoop loc condition body⟩
      ((met (some ⟨f.labels, f.labels + 1⟩) (f.label 2).enter body).map (survey.behind head))
  | .forLoop loc init condition update body =>
    let started := site.step loop f.enter init
    let start := started.2.labels
    let head := started.1 ++ .place start loc ::
      site.header started.2.slots (start + 2) loc condition
    let inside := site.stmts (some ⟨start + 1, start + 2⟩) (started.2.label 3).enter [] body
    stepMet loop f.enter init ++
      survey.within ⟨[], site, loop, f, .forLoop loc init condition update body⟩
        ((met (some ⟨start + 1, start + 2⟩) (started.2.label 3).enter body).map
          (survey.behind head)) ++
      (stepMet loop inside.2.leave update).map
        (survey.behind (head ++ inside.1 ++ [.place (start + 1) loc]))
  | _ => []

def met (loop : Option Loop) (f : Frame) : List Stmt → List α
  | [] => []
  | s :: rest =>
    if site.program.isFaultyStmt s then met loop f rest
    else
      let made := site.stmt loop f s
      survey.piece ⟨[], site, loop, f, s⟩ :: innerMet loop f s ++
        (met loop made.2 rest).map (survey.behind made.1)

def elseMet (loop : Option Loop) (f : Frame) (orElse : Nat) (loc : Location) :
    Option (List Stmt) → List α
  | none => []
  | some body =>
    (met loop (f.label 1).enter body).map
      (survey.behind [.jump .jump f.labels loc, .place orElse loc])

def stepMet (loop : Option Loop) (f : Frame) : Option Stmt → List α
  | none => []
  | some s => survey.piece ⟨[], site, loop, f, s⟩ :: innerMet loop f s

end

end Survey

variable (site : Site)

abbrev innerPieces (loop : Option Loop) (f : Frame) (s : Stmt) : List Piece :=
  site.innerMet .plain loop f s

abbrev pieces (loop : Option Loop) (f : Frame) (body : List Stmt) : List Piece :=
  site.met .plain loop f body

abbrev elsePieces (loop : Option Loop) (f : Frame) (orElse : Nat) (loc : Location)
    (body : Option (List Stmt)) : List Piece :=
  site.elseMet .plain loop f orElse loc body

abbrev stepPieces (loop : Option Loop) (f : Frame) (s : Option Stmt) : List Piece :=
  site.stepMet .plain loop f s

theorem pieces_faulty (h : site.program.isFaultyStmt s) (loop : Option Loop) (f : Frame)
    (body : List Stmt) : site.pieces loop f (s :: body) = site.pieces loop f body := by
  rw [pieces, met, if_pos h]

theorem pieces_cons (h : site.program.isFaultyStmt s = false) (loop : Option Loop) (f : Frame)
    (body : List Stmt) : site.pieces loop f (s :: body) =
      ⟨[], site, loop, f, s⟩ :: site.innerPieces loop f s ++
        (site.pieces loop (site.stmt loop f s).2 body).map (.behind (site.stmt loop f s).1) := by
  rw [pieces, met, if_neg (by simp [h])]
  rfl

end Site

end Code

def Stmt.hasBody : Stmt → Bool
  | .block .. | .branch .. | .whileLoop .. | .forLoop .. => true
  | _ => false

def Stmt.condition? : Stmt → Option Expr
  | .branch _ condition _ _ | .whileLoop _ condition _ => some condition
  | .forLoop _ _ condition _ _ => condition
  | _ => none

def Stmt.children : Stmt → List Stmt
  | .block _ body | .whileLoop _ _ body => body
  | .branch _ _ thenBody elseBody => thenBody ++ elseBody.getD []
  | .forLoop _ init _ update body => init.toList ++ body ++ update.toList
  | _ => []

namespace Code

variable {site : Site} {Q : Option Loop → Frame → Stmt → Prop}

-- The making of code step by step: for the pieces that are met, each of which is as `Q` tells,
-- there is code that takes one frame to another.
inductive Site.Builds (site : Site) (Q : Option Loop → Frame → Stmt → Prop) :
    Frame → List Piece → List Instruction → Frame → Prop
  | nil (f : Frame) : Builds site Q f [] [] f
  | append {f f' f'' : Frame} {ps qs : List Piece} {code rest : List Instruction}
      (h : Builds site Q f ps code f') (h' : Builds site Q f' qs rest f'') :
      Builds site Q f (ps ++ qs.map (.behind code)) (code ++ rest) f''
  | place (label : Nat) (loc : Location) (f : Frame) : Builds site Q f [] [.place label loc] f
  | jump (label : Nat) (loc : Location) (f : Frame) : Builds site Q f [] [.jump .jump label loc] f
  | condition {loop : Option Loop} {f f' : Frame} {s : Stmt} {e : Expr} (hs : Q loop f s)
      (he : s.condition? = some e) (hl : (f'.slots, e) ∈ (Piece.mk [] site loop f s).looked)
      (label : Nat) (loc : Location) :
      Builds site Q f' [] (site.value f'.slots e ++ [.jump .jumpIfFalse label loc]) f'
  | plain {loop : Option Loop} {f : Frame} {s : Stmt} (hs : Q loop f s) (hb : s.hasBody = false) :
      Builds site Q f [⟨[], site, loop, f, s⟩] (site.stmt loop f s).1 (site.stmt loop f s).2
  | nested {loop : Option Loop} {f : Frame} {s : Stmt} {ps : List Piece} (hs : Q loop f s)
      (hb : s.hasBody) (h : Builds site Q f ps (site.stmt loop f s).1 (site.stmt loop f s).2) :
      Builds site Q f (⟨[], site, loop, f, s⟩ :: ps) (site.stmt loop f s).1 (site.stmt loop f s).2
  | label {f f' : Frame} {ps : List Piece} {code : List Instruction} {count : Nat}
      (h : Builds site Q (f.label count) ps code f') : Builds site Q f ps code f'
  | inBlock {f f' : Frame} {ps : List Piece} {code : List Instruction}
      (h : Builds site Q f.enter ps code f') : Builds site Q f ps code f'.leave

namespace Site

theorem Builds.header {f' : Frame} (hs : Q loop f s)
    (hl : ∀ e ∈ s.condition?, (f'.slots, e) ∈ (Piece.mk [] site loop f s).looked) (stop : Nat)
    (loc : Location) : site.Builds Q f' [] (site.header f'.slots stop loc s.condition?) f' := by
  cases he : s.condition?
  case none => exact .nil f'
  case some e => exact .condition hs he (hl e he) stop loc

mutual

theorem stmt_builds (loop : Option Loop) (f : Frame) (s : Stmt) (hs : Q loop f s)
    (h : ∀ p ∈ site.innerPieces loop f s, Q p.loop p.frame p.stmt) :
    site.Builds Q f (⟨[], site, loop, f, s⟩ :: site.innerPieces loop f s) (site.stmt loop f s).1
      (site.stmt loop f s).2 := by
  cases s
  case block loc body => exact .nested hs rfl (.inBlock (stmts_builds loop f.enter body h))
  case branch loc condition thenBody elseBody =>
    simp only [innerMet, forall_mem_append, forall_mem_map] at h
    have hcondition : site.Builds Q f [] (site.value f.slots condition ++
        [.jump .jumpIfFalse f.labels loc]) f :=
      .condition hs rfl (by simp [Piece.looked]) f.labels loc
    have hthen := (stmts_builds loop (f.label 1).enter thenBody h.1).inBlock.label
    have helse := otherwise_builds loop _ f.labels loc elseBody h.2
    refine .nested hs rfl ?_
    simpa [stmt, innerMet] using (hcondition.append hthen).append helse
  case whileLoop loc condition body =>
    simp only [innerMet, Survey.within_plain, forall_mem_map] at h
    have hcondition : site.Builds Q f [] (site.value f.slots condition ++
        [.jump .jumpIfFalse (f.labels + 1) loc]) f :=
      .condition hs rfl (by simp [Piece.looked]) (f.labels + 1) loc
    have hbody := (stmts_builds _ (f.label 2).enter body h).inBlock.label
    have hend (f' : Frame) : site.Builds Q f' [] [.jump .jump f.labels loc,
        .place (f.labels + 1) loc] f' :=
      (Builds.jump f.labels loc f').append (.place (f.labels + 1) loc f')
    refine .nested hs rfl ?_
    simpa [stmt, innerMet] using
      (((Builds.place f.labels loc f).append hcondition).append hbody).append (hend _)
  case forLoop loc init condition update body =>
    simp only [innerMet, Survey.within_plain, forall_mem_append, forall_mem_map] at h
    have hinit := step_builds loop f.enter init h.1.1
    have hcondition : site.Builds Q (site.step loop f.enter init).2 []
        (site.header _ _ loc condition) (site.step loop f.enter init).2 :=
      .header hs (by simp [Stmt.condition?, Piece.looked])
        ((site.step loop f.enter init).2.labels + 2) loc
    have hbody := (stmts_builds _ (Frame.label _ 3).enter body h.1.2).inBlock.label
    have hupdate := step_builds loop _ update h.2
    have hround (start next stop : Nat) :=
      (((((hinit.append (.place start loc _)).append hcondition).append hbody).append
        (.place next loc _)).append hupdate).append
        ((Builds.jump start loc _).append (.place stop loc _))
    refine .nested hs rfl ?_
    rw [stmt_forLoop]
    simpa [innerMet] using (hround _ _ _).inBlock
  all_goals exact .plain hs rfl

theorem stmts_builds (loop : Option Loop) (f : Frame) (body : List Stmt)
    (h : ∀ p ∈ site.pieces loop f body, Q p.loop p.frame p.stmt) :
    site.Builds Q f (site.pieces loop f body) (site.stmts loop f [] body).1
      (site.stmts loop f [] body).2 := by
  cases body
  case nil => exact .nil f
  case cons s body =>
    cases hs : site.program.isFaultyStmt s
    case true =>
      rw [pieces_faulty _ hs] at h ⊢
      rw [stmts_faulty _ loop f hs]
      exact stmts_builds loop f body h
    case false =>
      rw [pieces_cons _ hs, forall_mem_append, forall_mem_cons, forall_mem_map] at h
      rw [stmts_cons _ loop f hs, pieces_cons _ hs]
      exact (stmt_builds loop f s h.1.1 h.1.2).append (stmts_builds loop _ body h.2)

theorem otherwise_builds (loop : Option Loop) (f : Frame) (orElse : Nat) (loc : Location)
    (body : Option (List Stmt))
    (h : ∀ p ∈ site.elsePieces loop f orElse loc body, Q p.loop p.frame p.stmt) :
    site.Builds Q f (site.elsePieces loop f orElse loc body)
      (site.otherwise loop f orElse loc body).1 (site.otherwise loop f orElse loc body).2 := by
  cases body
  case none => exact .place orElse loc f
  case some body =>
    rw [elsePieces, elseMet, forall_mem_map] at h
    have hhead : site.Builds Q f [] [.jump .jump f.labels loc, .place orElse loc] f :=
      (Builds.jump f.labels loc f).append (.place orElse loc f)
    have hbody := (stmts_builds loop (f.label 1).enter body h).inBlock.label
    simpa [otherwise, elseMet] using (hhead.append hbody).append (.place f.labels loc _)

theorem step_builds (loop : Option Loop) (f : Frame) (s : Option Stmt)
    (h : ∀ p ∈ site.stepPieces loop f s, Q p.loop p.frame p.stmt) :
    site.Builds Q f (site.stepPieces loop f s) (site.step loop f s).1 (site.step loop f s).2 := by
  cases s
  case none => exact .nil f
  case some s =>
    rw [stepPieces, stepMet, forall_mem_cons] at h
    exact stmt_builds loop f s h.1 h.2

end

theorem builds_stmts (site : Site) (loop : Option Loop) (f : Frame) (body : List Stmt) :
    site.Builds (fun _ _ _ => True) f (site.pieces loop f body) (site.stmts loop f [] body).1
      (site.stmts loop f [] body).2 :=
  stmts_builds loop f body fun _ _ => trivial

end Site

section Inherited

variable {R : Stmt → Prop}

namespace Site

mutual

theorem innerPieces_inherit (hR : ∀ s, R s → ∀ t ∈ s.children, R t) (loop : Option Loop) (f : Frame)
    (s : Stmt) (h : R s) (hs : site.program.isFaultyStmt s = false) :
    ∀ p ∈ site.innerPieces loop f s, R p.stmt ∧ site.program.isFaultyStmt p.stmt = false := by
  have hchildren := hR s h
  cases s <;> simp only [Stmt.children, forall_mem_append] at hchildren <;>
    simp only [innerMet, Survey.within_plain, forall_mem_append, forall_mem_map]
  case block loc body => exact pieces_inherit hR loop f.enter body hchildren
  case branch loc condition thenBody elseBody =>
    refine ⟨pieces_inherit hR loop _ thenBody hchildren.1, ?_⟩
    exact elsePieces_inherit hR loop _ f.labels loc elseBody hchildren.2
  case whileLoop loc condition body => exact pieces_inherit hR _ _ body hchildren
  case forLoop loc init condition update body =>
    obtain ⟨⟨hinit, hbody⟩, hupdate⟩ := hchildren
    simp only [Checked.isFaultyStmt, Bool.or_eq_false_iff] at hs
    exact ⟨⟨stepPieces_inherit hR loop _ init hinit hs.1.1, pieces_inherit hR _ _ body hbody⟩,
      stepPieces_inherit hR loop _ update hupdate hs.2⟩
  all_goals simp

-- What holds of the statements of a body, and passes on to those inside of them, holds of all
-- pieces. Nothing is wrong in them.
theorem pieces_inherit (hR : ∀ s, R s → ∀ t ∈ s.children, R t) (loop : Option Loop) (f : Frame)
    (body : List Stmt) (h : ∀ s ∈ body, R s) : ∀ p ∈ site.pieces loop f body,
      R p.stmt ∧ site.program.isFaultyStmt p.stmt = false := by
  cases body
  case nil => simp [met]
  case cons s body =>
    rw [forall_mem_cons] at h
    cases hs : site.program.isFaultyStmt s
    case true =>
      rw [pieces_faulty _ hs]
      exact pieces_inherit hR loop f body h.2
    case false =>
      simp only [pieces_cons _ hs, cons_append, forall_mem_cons, forall_mem_append,
        forall_mem_map]
      exact ⟨⟨h.1, hs⟩, innerPieces_inherit hR loop f s h.1 hs, pieces_inherit hR loop _ body h.2⟩

theorem elsePieces_inherit (hR : ∀ s, R s → ∀ t ∈ s.children, R t) (loop : Option Loop) (f : Frame)
    (orElse : Nat) (loc : Location) (body : Option (List Stmt)) (h : ∀ s ∈ body.getD [], R s) :
    ∀ p ∈ site.elsePieces loop f orElse loc body,
      R p.stmt ∧ site.program.isFaultyStmt p.stmt = false := by
  cases body
  case none => simp [elseMet]
  case some body =>
    rw [elsePieces, elseMet, forall_mem_map]
    exact pieces_inherit hR loop _ body h

theorem stepPieces_inherit (hR : ∀ s, R s → ∀ t ∈ s.children, R t) (loop : Option Loop) (f : Frame)
    (s : Option Stmt) (h : ∀ t ∈ s.toList, R t) (hs : site.program.isFaultyStep s = false) :
    ∀ p ∈ site.stepPieces loop f s, R p.stmt ∧ site.program.isFaultyStmt p.stmt = false := by
  cases s
  case none => simp [stepMet]
  case some s =>
    rw [Option.toList, forall_mem_singleton] at h
    exact forall_mem_cons.mpr ⟨⟨h, hs⟩, innerPieces_inherit hR loop f s h hs⟩

end

end Site

end Inherited

def Placed (site : Site) (code : List Instruction) (pieces : List Piece) : Prop :=
  ∀ p ∈ pieces, p.site = site ∧ p.before ++ p.code <+: code

theorem Placed.nil (site : Site) (code : List Instruction) : Placed site code [] := by
  intro p hp
  cases hp

theorem Placed.more (h : Placed site code ps) (rest : List Instruction) :
    Placed site (code ++ rest) ps :=
  fun p hp => ⟨(h p hp).1, (h p hp).2.trans (prefix_append _ _)⟩

theorem Site.Builds.placed (h : site.Builds Q f ps code f') : Placed site code ps := by
  induction h
  case append f f' f'' ps qs code rest _ _ h h' =>
    refine forall_mem_append.mpr ⟨h.more rest, forall_mem_map.mpr fun p hp => ⟨(h' p hp).1, ?_⟩⟩
    rw [Piece.behind, append_assoc]
    exact (prefix_append_right_inj code).mpr (h' p hp).2
  case plain => exact forall_mem_singleton.mpr ⟨rfl, prefix_rfl⟩
  case nested h => exact forall_mem_cons.mpr ⟨⟨rfl, prefix_rfl⟩, h⟩
  case label h => exact h
  case inBlock h => exact h
  all_goals exact .nil _ _

theorem Site.stmts_placed (site : Site) (loop : Option Loop) (f : Frame) (body : List Stmt) :
    Placed site (site.stmts loop f [] body).1 (site.pieces loop f body) :=
  (site.builds_stmts loop f body).placed

theorem Placed.finished (h : Placed site code ps) (loc : Location) :
    Placed site (finished code loc) ps := by
  rw [Code.finished]
  split
  case isTrue => exact h
  case isFalse => exact h.more _

def Frame.declareAll (c : Checked) (f : Frame) : List Declaration → List Allotment × Frame
  | [] => ([], f)
  | d :: rest =>
    let (slot, f) := f.declare d.name (d.typeIn c)
    let (given, f) := declareAll c f rest
    (⟨d.name, d.loc, slot⟩ :: given, f)

structure Lowered where
  routine : Routine
  site    : Site
  -- The state in which the body starts.
  frame   : Frame
  body    : List Stmt
  -- The slots that are asked for ahead of the body, for parameters or for globals.
  front   : List Allotment
  -- The initial values of fields.
  initial : List Read

namespace Lowered

def pieces (r : Lowered) : List Piece :=
  r.site.pieces none r.frame r.body

def given (r : Lowered) : List Allotment :=
  r.front ++ r.pieces.flatMap Piece.given

def reads (r : Lowered) : List Read :=
  r.initial ++ r.pieces.flatMap Piece.reads

theorem given_of_piece {r : Lowered} (hp : p ∈ r.pieces) : p.given ⊆ r.given :=
  fun _ ha => mem_append_right _ (mem_flatMap.mpr ⟨p, hp, ha⟩)

end Lowered

section Lowered

variable (c : Checked)

def loweredMain : Lowered where
  routine := mainCode c
  site := mainSite c
  frame := mainFrame c
  body := c.items.filter Stmt.isStatement
  front := (Frame.declareAll c ⟨.ofReceiver none, 0⟩ (c.items.filterMap Stmt.declaration?)).1
  initial := []

def loweredBody (className : Option String) (params : List Param) (isStatic : Bool)
    (body : List Stmt) (signature : Signature) (routine : Routine) : Lowered where
  routine := routine
  site := ⟨c, routineKind className, className, signature.returns⟩
  frame := declareParams ⟨.ofReceiver (if isStatic then none else className), 0⟩ params
    signature.params
  body := body
  front := (Frame.declareAll c ⟨.ofReceiver (if isStatic then none else className), 0⟩
    (params.map .ofParam)).1
  initial := []

def loweredRoutine? (className : Option String) (item : Stmt) : Option Lowered := do
  let .routine _ name params _ isStatic body := item | none
  let routine ← routineCode? c className item
  let symbol ← c.symbols.qualified? (fullName className name)
  let signature ← symbol.signature?
  return loweredBody c className params isStatic body signature routine

def fieldReads (site : Site) (slots : Slots) (className : String) : List (Field Expr) → List Read
  | [] => []
  | f :: rest =>
    ((f.init.filter fun e => !site.program.isFaulty e).toList.map
      (⟨[site.receiver slots f.loc], slots, ·⟩)) ++
      (fieldReads site slots className rest).map (.behind (fieldCode site slots className f))

def loweredConstructor (className : String) (fields : List (Field Expr)) (loc : Location) :
    Lowered where
  routine := constructorCode c className fields loc
  site := constructorSite c className
  frame := ⟨.ofReceiver (some className), 0⟩
  body := []
  front := []
  initial := fieldReads (constructorSite c className)
    (.ofReceiver (some className)) className fields

@[simp] theorem pieces_loweredConstructor (className : String) (fields : List (Field Expr))
    (loc : Location) : (loweredConstructor c className fields loc).pieces = [] := by
  rw [Lowered.pieces, loweredConstructor, Site.pieces, Site.met]

def loweredClass (item : Stmt) : List Lowered :=
  match item with
  | .classDef loc name fields methods =>
    if (c.symbols.qualified? name).any fun s => s.isClass && s.loc = loc then
      loweredConstructor c name fields loc :: methods.filterMap (loweredRoutine? c (some name))
    else []
  | _ => []

def lowered : List Lowered :=
  loweredMain c :: c.items.flatMap (loweredClass c) ++ c.items.filterMap (loweredRoutine? c none)

end Lowered

section Members

variable {c : Checked} {className : Option String} {r : Lowered}

theorem code_loweredMain (c : Checked) : (loweredMain c).routine.code =
    finished ((mainSite c).stmts none (mainFrame c) [] (loweredMain c).body).1 .none := by
  rw [loweredMain, mainCode_eq, Routine.ofBody_eq]
  rfl

theorem loweredRoutine?_eq_some (h : loweredRoutine? c className item = some r) :
    ∃ loc name params returns isStatic symbol signature,
      item = .routine loc name params returns isStatic r.body ∧
        c.symbols.qualified? (fullName className name) = some symbol ∧ symbol.loc = loc ∧
        symbol.kind = .routine signature ∧
        r.site = ⟨c, routineKind className, className, signature.returns⟩ ∧
        r.frame = declareParams ⟨.ofReceiver (if isStatic then none else className), 0⟩ params
          signature.params ∧
        r.routine = .ofBody (fullName className name) r.site.kind
          (if isStatic then none else className).isSome (r.site.stmts none r.frame [] r.body).1
          (r.site.stmts none r.frame [] r.body).2.slots loc := by
  cases item <;> try cases h
  case routine loc name params returns isStatic body =>
    simp only [loweredRoutine?, routineCode?, Option.bind_eq_bind] at h
    cases hs : c.symbols.qualified? (fullName className name) <;>
      simp only [hs, Option.bind_none, Option.bind_some, reduceCtorEq] at h
    case some symbol =>
      by_cases hloc : symbol.loc = loc
      case neg => simp [hloc] at h
      case pos =>
        cases hsig : symbol.signature? <;>
          simp only [hloc, hsig, ne_eq, not_true_eq_false, if_false, Option.bind_none,
            Option.bind_some, Option.pure_def, reduceCtorEq] at h
        case some signature =>
          cases h
          refine ⟨loc, name, params, returns, isStatic, symbol, signature, rfl, hs, hloc, ?_, rfl,
            rfl, rfl⟩
          cases hk : symbol.kind <;> simp_all [Symbol.signature?]

theorem initial_loweredRoutine? (h : loweredRoutine? c className item = some r) :
    r.initial = [] := by
  cases item <;> try cases h
  case routine loc name params returns isStatic body =>
    simp only [loweredRoutine?, Option.bind_eq_bind, Option.bind_eq_some_iff, Option.pure_def,
      Option.some.injEq] at h
    obtain ⟨_, -, _, -, _, -, rfl⟩ := h
    rfl

theorem routine_loweredRoutine? (className : Option String) (item : Stmt) :
    (loweredRoutine? c className item).map Lowered.routine = routineCode? c className item := by
  cases item <;> try rfl
  case routine loc name params returns isStatic body =>
    simp only [loweredRoutine?, routineCode?, Option.bind_eq_bind]
    cases c.symbols.qualified? (fullName className name)
    case none => rfl
    case some symbol =>
      simp only [Option.bind_some]
      split
      · rfl
      · cases symbol.signature? <;> simp [loweredBody]

theorem routine_lowered (c : Checked) : (lowered c).map Lowered.routine = routines c := by
  have hroutines (className : Option String) (items : List Stmt) :
      (items.filterMap (loweredRoutine? c className)).map Lowered.routine =
        items.filterMap (routineCode? c className) := by
    rw [map_filterMap]
    exact filterMap_congr fun item _ => routine_loweredRoutine? className item
  have hclass (item : Stmt) : (loweredClass c item).map Lowered.routine = classCode c item := by
    cases item <;> try rfl
    case classDef loc name fields methods =>
      simp only [loweredClass, classCode]
      split
      · rw [map_cons, hroutines]
        rfl
      · rfl
  rw [lowered, routines, cons_append, cons_append, map_cons, map_append,
    map_flatMap, hroutines]
  simp only [hclass]
  rfl

theorem mem_lowered (h : r ∈ lowered c) : r = loweredMain c ∨
      (∃ loc name fields methods, .classDef loc name fields methods ∈ c.items ∧
        r = loweredConstructor c name fields loc) ∨
      ∃ className item, DefinedIn c.items className item ∧
        loweredRoutine? c className item = some r := by
  rw [lowered, cons_append, mem_cons, mem_append, mem_flatMap, mem_filterMap] at h
  rcases h with rfl | ⟨item, hi, hr⟩ | ⟨item, hi, hr⟩
  · exact .inl rfl
  · cases item <;> try cases hr
    case classDef loc name fields methods =>
      rw [loweredClass] at hr
      split at hr
      case isFalse => cases hr
      case isTrue =>
        rcases mem_cons.mp hr with rfl | hr
        · exact .inr (.inl ⟨loc, name, fields, methods, hi, rfl⟩)
        · obtain ⟨method, hmethod, hr⟩ := mem_filterMap.mp hr
          exact .inr (.inr ⟨some name, method, ⟨loc, fields, methods, hi, hmethod⟩, hr⟩)
  · exact .inr (.inr ⟨none, item, hi, hr⟩)

end Members

section Accepted

variable {c : Checked} {t : SymbolTable}

-- In an accepted program, the types of a routine are the ones that are written.
theorem loweredRoutine?_eq (h : Accepted c t) {returns : TypeName} (body : List Stmt)
    (hd : RoutineDeclared t className loc name params returns isStatic) (hn : Token.IsName name)
    (hc : ∀ owner ∈ className, Token.IsName owner) :
    loweredRoutine? c className (.routine loc name params returns isStatic body) =
      let code := (routineSite c className returns isStatic).stmts none
        (routineFrame className params isStatic) [] body
      some (loweredBody c className params isStatic body
        ⟨params.map (Ty.ofName ·.type), Ty.ofName returns, isStatic, false⟩
        (Routine.ofBody (fullName className name) (routineKind className)
          (if isStatic then none else className).isSome code.1 code.2.slots loc)) := by
  obtain ⟨home, hs⟩ := h.routine_symbol hd hn hc
  rw [loweredRoutine?, routineCode?_eq h body hd hn hc]
  simp only [hs, Option.bind_eq_bind, Option.bind_some, Symbol.ofRoutine, Symbol.signature?]
  rfl

theorem loweredClass_eq (h : Accepted c t) (fields : List (Field Expr)) (methods : List Stmt)
    (hd : ClassDeclared t loc name) (hn : Token.IsName name) :
    loweredClass c (.classDef loc name fields methods) =
      loweredConstructor c name fields loc ::
        methods.filterMap (loweredRoutine? c (some name)) := by
  simp [loweredClass, h.class_symbol hd hn, Symbol.ofClass, Symbol.isClass]

end Accepted

end Code
end Lumen
