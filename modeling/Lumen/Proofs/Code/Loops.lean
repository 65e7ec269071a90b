import Lumen.Proofs.Code.Control
import Lumen.Proofs.Exits

namespace Lumen.Code

open List hiding head

namespace Piece

def labels? (p : Piece) : Option Loop :=
  match p.stmt with
  | .whileLoop .. => some ⟨p.frame.labels, p.frame.labels + 1⟩
  | .forLoop _ init _ _ _ =>
    let start := (p.site.step p.loop p.frame.enter init).2.labels
    some ⟨start + 1, start + 2⟩
  | _ => none

def StopsAt (p : Piece) (label : Nat) : Prop :=
  ∃ loc, p.code.getLast? = some (.place label loc)

-- A label stands where the next round of a loop starts: in front of the condition of a `while`, or
-- in front of the update of a `for`.
def GoesOnAt (p : Piece) (label : Nat) : Prop :=
  match p.stmt with
  | .whileLoop loc condition _ => ∃ stop rest, p.code =
      .place label loc :: p.site.value p.frame.slots condition ++
        .jump .jumpIfFalse stop loc :: rest
  | .forLoop loc _ _ update _ => ∃ front f start stop, p.code =
      front ++ .place label loc :: (p.site.step p.loop f update).1 ++
        [.jump .jump start loc, .place stop loc]
  | _ => False

theorem placed_labels {p : Piece} (h : p.labels? = some l) :
    p.StopsAt l.stop ∧ p.GoesOnAt l.next := by
  obtain ⟨before, site, loop, f, s⟩ := p
  cases s <;> cases h
  case whileLoop loc condition body =>
    simp only [StopsAt, GoesOnAt, code, Site.stmt]
    exact ⟨⟨loc, by rw [getLast?_append]; rfl⟩, f.labels + 1, _, append_assoc _ _ _⟩
  case forLoop loc init condition update body =>
    simp only [StopsAt, GoesOnAt, code, Site.stmt_forLoop]
    exact ⟨⟨loc, by rw [getLast?_append]; rfl⟩, _, _, _, _, rfl⟩

end Piece

structure Nested where
  piece  : Piece
  around : Option Piece

namespace Nested

def behind (front : List Instruction) (n : Nested) : Nested :=
  ⟨n.piece.behind front, n.around.map (.behind front)⟩

def within (loop : Piece) (n : Nested) : Nested :=
  { n with around := n.around.or (some loop) }

end Nested

namespace Survey

def nested : Survey Nested :=
  ⟨(⟨·, none⟩), .behind, fun loop ns => ns.map (.within loop)⟩

@[simp] theorem behind_nested : nested.behind = Nested.behind :=
  rfl

@[simp] theorem within_nested (loop : Piece) (ns : List Nested) :
    nested.within loop ns = ns.map (.within loop) :=
  rfl

end Survey

namespace Site

variable (site : Site)

abbrev innerNested (loop : Option Loop) (f : Frame) (s : Stmt) : List Nested :=
  site.innerMet .nested loop f s

abbrev nested (loop : Option Loop) (f : Frame) (body : List Stmt) : List Nested :=
  site.met .nested loop f body

abbrev elseNested (loop : Option Loop) (f : Frame) (orElse : Nat) (loc : Location)
    (body : Option (List Stmt)) : List Nested :=
  site.elseMet .nested loop f orElse loc body

abbrev stepNested (loop : Option Loop) (f : Frame) (s : Option Stmt) : List Nested :=
  site.stepMet .nested loop f s

end Site

-- What is met in code that is made for a text with certain exits, inside of a loop.
structure Nested.Sits (loop : Option Loop) (exits : List Exit) (code : List Instruction)
    (n : Nested) : Prop where
  piece  : n.piece.before ++ n.piece.code <+: code
  around : ∀ p ∈ n.around, p.before ++ p.code <+: code ∧ p.labels?.isSome
  loop   : n.piece.loop = n.around.elim loop Piece.labels?
  exits  : n.piece.stmt.exits n.piece.loop.isSome ⊆ exits

def Seated (loop : Option Loop) (exits : List Exit) (code : List Instruction)
    (ns : List Nested) : Prop :=
  ∀ n ∈ ns, n.Sits loop exits code

namespace Seated

variable {loop : Option Loop} {es es' : List Exit} {code rest : List Instruction}
  {ns ms : List Nested}

theorem nil : Seated loop es code [] := by
  intro n hn
  cases hn

section

variable (h : Seated loop es code ns)

include h

theorem weaken (hs : es ⊆ es') : Seated loop es' code ns :=
  fun n hn => { h n hn with exits := List.Subset.trans (h n hn).exits hs }

theorem more (rest : List Instruction) :
    Seated loop es (code ++ rest) ns := by
  intro n hn
  obtain ⟨hpiece, haround, hloop, hexits⟩ := h n hn
  have hprefix := prefix_append code rest
  exact ⟨hpiece.trans hprefix, fun p hp => ⟨(haround p hp).1.trans hprefix, (haround p hp).2⟩,
    hloop, hexits⟩

theorem behind (front : List Instruction) :
    Seated loop es (front ++ code) (ns.map (.behind front)) := by
  refine forall_mem_map.mpr fun n hn => ?_
  obtain ⟨hpiece, haround, hloop, hexits⟩ := h n hn
  have hshift {p : Piece} (hp : p.before ++ p.code <+: code) :
      (p.behind front).before ++ (p.behind front).code <+: front ++ code := by
    rw [Piece.behind, append_assoc]
    exact (prefix_append_right_inj front).mpr hp
  refine ⟨hshift hpiece, fun p hp => ?_, ?_, hexits⟩
  · obtain ⟨q, hq, rfl⟩ := Option.map_eq_some_iff.mp hp
    exact ⟨hshift (haround q hq).1, (haround q hq).2⟩
  · rw [Nested.behind, Option.elim_map]
    exact hloop

theorem append (h' : Seated loop es' rest ms) :
    Seated loop (es ++ es') (code ++ rest) (ns ++ ms.map (.behind code)) :=
  forall_mem_append.mpr ⟨(h.weaken (subset_append_left _ _)).more rest,
    (h'.weaken (subset_append_right _ _)).behind code⟩

end

theorem cons {site : Site} {s : Stmt}
    (h : Seated loop (s.exits loop.isSome) (site.stmt loop f s).1 ns) :
    Seated loop (s.exits loop.isSome) (site.stmt loop f s).1
      (⟨⟨[], site, loop, f, s⟩, none⟩ :: ns) :=
  forall_mem_cons.mpr ⟨⟨prefix_rfl, fun _ hp => (by cases hp), rfl,
    List.Subset.refl _⟩, h⟩

theorem within {p : Piece} (h : Seated (some l) es code ns) (hp : p.before = [])
    (hl : p.labels? = some l) (hcode : p.code = code) :
    Seated loop es code (ns.map (.within p)) := by
  refine forall_mem_map.mpr fun n hn => ?_
  obtain ⟨piece, around⟩ := n
  obtain ⟨hpiece, haround, hloop, hexits⟩ := h _ hn
  cases around
  case none =>
    refine ⟨hpiece, fun q hq => ?_, hloop.trans hl.symm, hexits⟩
    cases hq
    rw [hp, hl, hcode]
    exact ⟨prefix_rfl, rfl⟩
  case some q => exact ⟨hpiece, haround, hloop, hexits⟩

theorem forLoop {p : Piece} (hinit : Seated loop es₁ initial ns₁)
    (hbody : Seated (some l) es₃ body ns₂) (hupdate : Seated loop es₂ updated ns₃)
    (back : List Instruction) (hp : p.before = []) (hl : p.labels? = some l)
    (hcode : p.code = initial ++ head ++ body ++ place ++ updated ++ back) :
    Seated loop (es₁ ++ es₂ ++ es₃) p.code
      (ns₁ ++ (ns₂.map (.behind (initial ++ head))).map (.within p) ++
        ns₃.map (.behind (initial ++ head ++ body ++ place))) := by
  rw [hcode]
  refine forall_mem_append.mpr ⟨forall_mem_append.mpr ⟨?_, ?_⟩, ?_⟩
  · have hfirst := (hinit.more (head ++ body ++ place ++ updated ++ back)).weaken
      (subset_append_left es₁ (es₂ ++ es₃))
    simpa [Seated] using hfirst
  · have hround := ((hbody.behind (initial ++ head)).more (place ++ updated ++ back)).weaken
      (subset_append_right (es₁ ++ es₂) es₃)
    refine Seated.within ?_ hp hl hcode
    simpa using hround
  · have hlast := ((hupdate.behind (initial ++ head ++ body ++ place)).more back).weaken
      (subset_append_of_subset_left es₃ (subset_append_right es₁ es₂))
    exact hlast

end Seated

namespace Site

variable (site : Site)

mutual

theorem stmt_seated (loop : Option Loop) (f : Frame) (s : Stmt) :
    Seated loop (s.exits loop.isSome) (site.stmt loop f s).1 (site.innerNested loop f s) := by
  cases s
  case block loc body => exact stmts_seated loop f.enter body
  case branch loc condition thenBody elseBody =>
    have hthen := (stmts_seated loop (f.label 1).enter thenBody).behind
      (site.value f.slots condition ++ [.jump .jumpIfFalse f.labels loc])
    have helse := otherwise_seated loop (site.stmts loop (f.label 1).enter [] thenBody).2.leave
      f.labels loc elseBody
    simpa [stmt, innerMet, Stmt.exits] using hthen.append helse
  case whileLoop loc condition body =>
    have hbody := ((stmts_seated (some ⟨f.labels, f.labels + 1⟩) (f.label 2).enter body).behind
      (.place f.labels loc :: site.value f.slots condition ++
        [.jump .jumpIfFalse (f.labels + 1) loc])).more
      [.jump .jump f.labels loc, .place (f.labels + 1) loc]
    have hcode : Seated loop _ _ _ := hbody.within
      (p := ⟨[], site, loop, f, .whileLoop loc condition body⟩) rfl rfl (by simp [stmt, Piece.code])
    simpa [stmt, innerMet, Stmt.exits] using hcode
  case forLoop loc init condition update body =>
    let start := (site.step loop f.enter init).2.labels
    refine Seated.forLoop (p := ⟨[], site, loop, f, .forLoop loc init condition update body⟩)
      (step_seated loop f.enter init) (stmts_seated (some ⟨_, _⟩) _ body)
        (step_seated loop _ update)
      [.jump .jump start loc, .place (start + 2) loc] rfl rfl ?_
    rw [Piece.code, stmt_forLoop]
    simp [start]
  all_goals exact .nil

theorem stmts_seated (loop : Option Loop) (f : Frame) (body : List Stmt) :
    Seated loop (exitsIn loop.isSome body) (site.stmts loop f [] body).1
      (site.nested loop f body) := by
  cases body
  case nil => exact .nil
  case cons s body =>
    rw [exitsIn, nested, met]
    cases hs : site.program.isFaultyStmt s
    case true =>
      rw [stmts_faulty _ loop f hs, if_pos rfl]
      exact (stmts_seated loop f body).weaken (subset_append_right _ _)
    case false =>
      rw [stmts_cons _ loop f hs, if_neg Bool.false_ne_true]
      exact (stmt_seated loop f s).cons.append (stmts_seated loop _ body)

theorem otherwise_seated (loop : Option Loop) (f : Frame) (orElse : Nat) (loc : Location)
    (body : Option (List Stmt)) :
    Seated loop (exitsInElse loop.isSome body) (site.otherwise loop f orElse loc body).1
      (site.elseNested loop f orElse loc body) := by
  cases body
  case none => exact .nil
  case some body =>
    have hbody := ((stmts_seated loop (f.label 1).enter body).behind
      [.jump .jump f.labels loc, .place orElse loc]).more [.place f.labels loc]
    simpa [otherwise, elseMet, exitsInElse] using hbody

theorem step_seated (loop : Option Loop) (f : Frame) (s : Option Stmt) :
    Seated loop (exitsInStep loop.isSome s) (site.step loop f s).1 (site.stepNested loop f s) := by
  cases s
  case none => exact .nil
  case some s => exact (stmt_seated loop f s).cons

end

end Site
end Lumen.Code
