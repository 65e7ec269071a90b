import Lumen.Proofs.Code.Layout
import Lumen.Proofs.Code.Pieces

namespace Lumen

open List hiding count tail

variable {name : String} {type : Ty} {d : Declaration}

def Declaration.typed (d : Declaration) (c : Checked) : String × Ty :=
  (d.name, d.typeIn c)

namespace Code

namespace Slots

structure Continues (s s' : Slots) : Prop where
  tail    : s'.blocks.tail = s.blocks.tail
  depth   : s'.blocks.length = s.blocks.length
  outside : ∀ name, s'.outside? name = s.outside? name

namespace Continues

variable {s s' s'' : Slots}

theorem refl (s : Slots) : s.Continues s :=
  ⟨rfl, rfl, fun _ => rfl⟩

theorem trans (h : s.Continues s') (h' : s'.Continues s'') : s.Continues s'' where
  tail := h'.tail.trans h.tail
  depth := h'.depth.trans h.depth
  outside name := (h'.outside name).trans (h.outside name)

theorem allocate (h : s.allocate name type = .ok (slot, s'))
    (hn : ∀ block ∈ s.blocks.head?, ¬block.Declares name) : s.Continues s' where
  tail := (tail_allocate h).1
  depth := (tail_allocate h).2
  outside := outside?_allocate h hn

theorem blocks_leave (h : s.enter.Continues s') : s'.leave.blocks = s.blocks :=
  s'.blocks_leave.trans h.tail

theorem find?_leave (h : s.enter.Continues s') : s'.leave.find? = s.find? := by
  have hne : s'.blocks ≠ [] := by
    intro hn
    have hdepth := h.depth
    rw [hn] at hdepth
    cases hdepth
  funext name
  rw [Slots.find?_leave hne, h.outside, outside?_enter]

theorem leave (h : s.enter.Continues s') : s.Continues s'.leave where
  tail := congrArg List.tail h.blocks_leave
  depth := congrArg List.length h.blocks_leave
  outside name := by
    rw [outside?, outside?, h.blocks_leave, h.find?_leave]

end Continues
end Slots

-- What the blocks of the slots note, the blocks of the names declare. The routine itself is the
-- last block of its names.
def Covers : List Slots.Block → List (List Binding) → Prop
  | [], [_] => True
  | block :: blocks, bindings :: outer =>
    (∀ name, block.Declares name → ∃ b ∈ bindings, b.declared.name = name) ∧ Covers blocks outer
  | _, _ => False

namespace Layout

theorem slotWidths_append (a b : List Ty) : slotWidths (a ++ b) = slotWidths a + slotWidths b := by
  induction a
  case nil => simp [slotWidths]
  case cons type a ih => simp [slotWidths, ih, Nat.add_assoc]

theorem rowsFrom_append (next : Nat) (a b : List (String × Ty)) :
    rowsFrom next (a ++ b) =
      rowsFrom next a ++ rowsFrom (next + slotWidths (a.map (·.2))) b := by
  induction a generalizing next
  case nil => simp [rowsFrom, slotWidths]
  case cons v a ih => simp [rowsFrom, ih, slotWidths, Nat.add_assoc]

variable {l : Layout} {k : Nat} {v : String × Ty}

theorem cell_succ (h : l.declared[k]? = some v) : l.cell (k + 1) = l.cell k + v.2.slotWidth := by
  rw [cell, cell, take_add_one, h, map_append, slotWidths_append]
  simp [slotWidths, Nat.add_assoc]

theorem rowsFrom_succ (h : l.declared[k]? = some v) :
    rowsFrom l.start (l.declared.take (k + 1)) =
      rowsFrom l.start (l.declared.take k) ++ [⟨v.1, l.cell k, v.2⟩] := by
  rw [take_add_one, h, rowsFrom_append]
  rfl

def Listed (l : Layout) (rows : List Local) : Prop :=
  ∀ (k : Nat) (v : String × Ty), l.declared[k]? = some v → ⟨v.1, l.cell k, v.2⟩ ∈ rows

theorem listed_rows (l : Layout) : l.Listed l.rows := by
  intro k v hv
  have htake : l.declared = l.declared.take (k + 1) ++ l.declared.drop (k + 1) :=
    (take_append_drop _ _).symm
  rw [rows, htake, rowsFrom_append, rowsFrom_succ hv]
  simp

def Lists (l : Layout) (c : Checked) (names : Names) (ds : List Declaration) : Prop :=
  ds.map (·.typed c) <+: l.declared.drop names.next

theorem Lists.left (h : l.Lists c names (a ++ b)) : l.Lists c names a := by
  rw [Lists, map_append] at h
  exact (prefix_append _ _).trans h

theorem Lists.right {names' : Names} (h : l.Lists c names (a ++ b))
    (hn : names'.next = names.next + a.length) : l.Lists c names' b := by
  obtain ⟨rest, hrest⟩ := h
  rw [map_append, append_assoc] at hrest
  rw [Lists, hn, ← drop_drop, ← hrest, ← a.length_map (f := (·.typed c)), drop_left]
  exact prefix_append _ _

theorem Lists.next (h : l.Lists c names [d]) : l.declared[names.next]? = some (d.typed c) := by
  obtain ⟨rest, hrest⟩ := h
  have hhead := congrArg List.head? hrest
  simpa [head?_drop] using hhead.symm

end Layout

structure Layout.Fits (l : Layout) (f : Frame) (names : Names) : Prop where
  find?  : f.slots.find? = (l.slots names).find?
  locals : f.slots.locals = l.front ++ rowsFrom l.start (l.declared.take names.next)
  next   : f.slots.next = l.cell names.next
  blocks : Covers f.slots.blocks names.blocks

namespace Layout.Fits

variable {l : Layout} {c : Checked} {f f' : Frame} {names names' : Names}

section

variable (h : l.Fits f names)

include h

theorem label (count : Nat) : l.Fits (f.label count) names :=
  ⟨h.find?, h.locals, h.next, h.blocks⟩

theorem enter : l.Fits f.enter names.enter where
  find? := h.find?
  locals := h.locals
  next := h.next
  blocks := by
    refine ⟨fun name hd => ?_, h.blocks⟩
    rcases hd with hd | hd <;> cases hd

theorem names_ne_nil : names.blocks ≠ [] := by
  intro hn
  have hb := h.blocks
  rw [hn] at hb
  cases hf : f.slots.blocks <;> simp [hf, Covers] at hb

theorem leave (hc : f.slots.enter.Continues f'.slots) (h' : l.Fits f' names')
    (hn : names'.next = names.next + count) : l.Fits f'.leave (names.skip count) where
  find? := hc.find?_leave.trans h.find?
  locals := by
    rw [Frame.leave, Slots.locals, Slots.given_leave, Names.next_skip, ← hn]
    exact h'.locals
  next := by
    rw [Frame.leave, Slots.next_leave, Names.next_skip, ← hn]
    exact h'.next
  blocks := by
    rw [Frame.leave, hc.blocks_leave]
    exact h.blocks

theorem declare {slots : Slots} (hd : l.Lists c names [d])
    (ha : f.slots.allocate d.name (d.typeIn c) = .ok (l.cell names.next, slots)) :
    l.Fits { f with slots } (names.declare d) := by
  obtain ⟨-, hgiven, hnext⟩ := Slots.given_allocate ha
  obtain ⟨block, outer, hb⟩ := exists_cons_of_ne_nil h.names_ne_nil
  refine ⟨?_, ?_, ?_, ?_⟩
  · funext name
    have hold := congrFun h.find? name
    rw [find?_slots] at hold ⊢
    rw [Slots.find?_allocate ha, Names.find?_declare hb, hold]
    by_cases e : d.name = name <;> simp [e]
  · rw [Slots.locals, hgiven, reverse_cons, ← Slots.locals, h.locals, h.next,
      Names.declare_next h.names_ne_nil, rowsFrom_succ hd.next, append_assoc]
    rfl
  · rw [hnext, h.next, Names.declare_next h.names_ne_nil, cell_succ hd.next]
    rfl
  · have hcovers := h.blocks
    simp only [Names.declare, hb] at hcovers ⊢
    cases hs : f.slots.blocks
    case nil =>
      have hlength := (Slots.tail_allocate ha).2
      rw [hs] at hcovers hlength
      rw [length_eq_zero_iff.mp hlength]
      cases outer <;> exact hcovers
    case cons old blocks =>
      obtain ⟨htail, hlength⟩ := Slots.tail_allocate ha
      rw [hs] at hcovers htail hlength
      obtain ⟨new, news, hnew⟩ := exists_cons_of_length_eq_add_one hlength
      rw [hnew] at htail ⊢
      cases show news = blocks from htail
      refine ⟨fun name hd => ?_, hcovers.2⟩
      rcases Slots.declares_allocate ha (by simp [hnew]) hd with rfl | ⟨block', hblock', hd⟩
      · exact ⟨_, mem_cons_self, rfl⟩
      · cases show old = block' by simpa [hs] using hblock'
        obtain ⟨b, hmem, hname⟩ := hcovers.1 name hd
        exact ⟨b, mem_cons_of_mem _ hmem, hname⟩

theorem fresh (hn : ∀ b ∈ names.here, b.declared.name ≠ name) :
    ∀ block ∈ f.slots.blocks.head?, ¬block.Declares name := by
  intro block hb hd
  have hcovers := h.blocks
  cases hs : f.slots.blocks
  case nil => simp [hs] at hb
  case cons old blocks =>
    cases show old = block by simpa [hs] using hb
    cases hnames : names.blocks
    case nil => exact h.names_ne_nil hnames
    case cons bindings outer =>
      rw [hs, hnames] at hcovers
      obtain ⟨b, hmem, hname⟩ := hcovers.1 name hd
      exact hn b (by simpa [Names.here, hnames] using hmem) hname

theorem allocate (hs : (f.declare name type).1.isSome) :
    ∃ slots, f.slots.allocate name type = .ok (l.cell names.next, slots) ∧
      f.declare name type = (some (l.cell names.next), { f with slots }) := by
  rw [Frame.declare] at hs ⊢
  cases ha : f.slots.allocate name type
  case error => simp [ha] at hs
  case ok given =>
    obtain ⟨slot, slots⟩ := given
    have hslot : slot = l.cell names.next := (Slots.given_allocate ha).1.trans h.next
    rw [hslot]
    exact ⟨slots, rfl, rfl⟩

end

end Layout.Fits

theorem Site.declare_eq {site : Site} {f : Frame}
    (hdeep : site.kind ≠ .toplevel ∨ f.slots.blocks ≠ []) :
    site.declare f name type = f.declare name type := by
  rw [declare]
  split
  case h_1 =>
    rw [if_neg]
    rintro ⟨hkind, hdepth⟩
    rcases hdeep with hk | hb
    · exact hk hkind
    · exact hb (length_eq_zero_iff.mp hdepth)
  case h_2 => rfl

section Faultless

variable {g : Setting}

theorem isUnknown_eq_false (hc : g.table.isClass = g.program.symbols.isClass) {w : TypeName}
    (h : Typing.writtenType g.table.isClass w = .ok (Ty.ofName w)) :
    g.program.isUnknown w = false := by
  cases w <;> try rfl
  case named name =>
    rw [Typing.writtenType] at h
    split at h
    case isTrue hclass => simpa [Checked.isUnknown, ← hc] using hclass
    case isFalse => cases h

theorem isFaultyStmt_of_fills (hc : g.table.isClass = g.program.symbols.isClass) {s : Stmt}
    (hd : s.declaration? = some d) (hv : g.Fills names d)
    (hn : ∀ q ∈ s.evaluated names, g.program.isFaulty q.2 = false) :
    g.program.isFaultyStmt s = false := by
  cases s <;> cases hd <;> simp only [Checked.isFaultyStmt, Bool.or_eq_false_iff] <;>
    rw [Stmt.evaluated] at hn
  case «variable» loc name type init =>
    constructor
    · cases type
      case none => rfl
      case some w => exact isUnknown_eq_false hc (hv.known w rfl)
    · cases init
      case none => rfl
      case some init => simpa using hn
  case constant loc name type value =>
    exact ⟨isUnknown_eq_false hc (hv.known type rfl), by simpa using hn⟩

mutual

theorem isFaultyStmt_eq_false (hc : g.table.isClass = g.program.symbols.isClass) (names : Names)
    (inLoop : Bool) (s : Stmt) (hv : s.Valid g names inLoop)
    (hn : ∀ p ∈ s.evaluated names, g.program.isFaulty p.2 = false) :
    g.program.isFaultyStmt s = false := by
  cases hd : s.declaration?
  case some d => exact isFaultyStmt_of_fills hc hd (hv.fills g hd) hn
  case none =>
  cases s <;> simp only [Checked.isFaultyStmt] <;> rw [Stmt.Valid] at hv <;>
    rw [Stmt.evaluated] at hn
  case «variable» | constant => cases hd
  case assign loc target op value => simpa using hn
  case result loc value =>
    cases value
    case none => rfl
    case some value => simpa using hn
  case branch loc condition thenBody elseBody => exact hn (names, condition) (by simp)
  case whileLoop loc condition body => exact hn (names, condition) (by simp)
  case forLoop loc init condition update body =>
    simp only [forall_mem_append] at hn
    rw [Bool.or_eq_false_iff, Bool.or_eq_false_iff]
    refine ⟨⟨isFaultyStep_eq_false hc _ inLoop init hv.1 hn.1.1.1, ?_⟩,
      isFaultyStep_eq_false hc _ inLoop update hv.2.2.1 hn.1.2⟩
    cases condition
    case none => rfl
    case some condition => simpa using hn.1.1.2
  case evaluate loc e => simpa using hn

theorem isFaultyStep_eq_false (hc : g.table.isClass = g.program.symbols.isClass) (names : Names)
    (inLoop : Bool) (s : Option Stmt) (hv : ValidStep g names inLoop s)
    (hn : ∀ p ∈ evaluatedInStep names s, g.program.isFaulty p.2 = false) :
    g.program.isFaultyStep s = false := by
  cases s
  case none => rfl
  case some s => exact isFaultyStmt_eq_false hc names inLoop s hv hn

end

end Faultless

structure Ledger where
  given  : List Allotment
  looked : Names × Expr → Prop

structure Ledger.Complete (k : Ledger) (c : Checked) : Prop where
  given  : ∀ a ∈ k.given, a.slot.isSome
  looked : ∀ q, k.looked q → c.isFaulty q.2 = false

structure Layout.Owns (l : Layout) (c : Checked) (given : List Allotment) (b : Binding) : Prop where
  home  : b.home ≠ .global
  name  : Token.IsName b.declared.name
  row   : l.declared[b.cell]? = some (b.declared.typed c)
  given : ⟨b.declared.name, b.declared.loc, some (l.cell b.cell)⟩ ∈ given

def Layout.Serves (l : Layout) (c : Checked) (k : Ledger) (q : Slots × Expr) : Prop :=
  ∃ names : Names, q.1.find? = (l.slots names).find? ∧ names.All (l.Owns c k.given) ∧
    k.looked (names, q.2)

theorem Layout.serves_all {l : Layout} {k : Ledger} {slots : Slots} (es : List Expr)
    (hfind : slots.find? = (l.slots names).find?) (hown : names.All (l.Owns c k.given))
    (hk : ∀ q ∈ es.map (names, ·), k.looked q) : ∀ q ∈ es.map (slots, ·), l.Serves c k q := by
  rw [forall_mem_map] at hk ⊢
  exact fun e he => ⟨names, hfind, hown, hk e he⟩

structure Layout.Makes (l : Layout) (c : Checked) (k : Ledger) (f : Frame)
    (made : List Instruction × Frame) (pieces : List Piece) (code : List Instruction)
    (labels : Nat) (names : Names) : Prop where
  code      : made.1 = code
  labels    : made.2.labels = f.labels + labels
  fits      : l.Fits made.2 names
  continues : f.slots.Continues made.2.slots
  owns      : names.All (l.Owns c k.given)
  serves    : ∀ p ∈ pieces, ∀ q ∈ p.looked, l.Serves c k q

section Makes

variable {g : Setting} {l : Layout} {k : Ledger} {kind : Routine.Kind} {className : Option String}
  {f : Frame}

theorem declaration_makes {s : Stmt} (hk : k.Complete g.program) (hs : s.declaration? = some d)
    (hn : Token.IsName d.name) (hd : g.Declares names d) (hlists : l.Lists g.program names [d])
    (hdeep : kind ≠ .toplevel ∨ f.slots.blocks ≠ []) (hfits : l.Fits f names)
    (hown : names.All (l.Owns g.program k.given))
    (hlooked : ∀ q ∈ d.init.toList.map (names, ·), k.looked q)
    (hgiven : (Piece.mk [] (g.site kind className) loop f s).given ⊆ k.given)
    (hpiece : (Piece.mk [] (g.site kind className) loop f s).looked =
      d.init.toList.map (f.slots, ·)) :
    l.Makes g.program k f
      ((g.site kind className).declaration f d.name (d.typeIn g.program) d.init d.loc)
      [⟨[], g.site kind className, loop, f, s⟩]
      ((g.site kind className).initialAt l names d.name (d.typeIn g.program) d.loc d.init) 0
      (names.declare d) := by
  have hsite : (g.site kind className).declare f d.name (d.typeIn g.program) = _ :=
    Site.declare_eq hdeep
  have hgot : ⟨d.name, d.loc, (f.declare d.name (d.typeIn g.program)).1⟩ ∈ k.given := by
    rw [← hsite]
    exact hgiven (by simp [Piece.given, hs, Setting.site])
  obtain ⟨slots, ha, hdeclare⟩ := hfits.allocate (hk.given _ hgot)
  rw [hdeclare] at hgot hsite
  have hframe : ((g.site kind className).declaration f d.name (d.typeIn g.program) d.init
      d.loc).2 = { f with slots } := by
    rw [Site.declaration, hsite]
    cases d.init <;> rfl
  refine ⟨?_, ?_, ?_, ?_, ?_, ?_⟩
  · rw [Site.declaration, hsite]
    cases d.init
    case none => rfl
    case some init =>
      dsimp only
      rw [Site.initialAt, Site.value_congr _ hfits.find?]
  · rw [hframe]
    rfl
  · rw [hframe]
    exact hfits.declare hlists ha
  · rw [hframe]
    exact .allocate ha (hfits.fresh hd.fresh)
  · exact hown.declare fun home hhome => ⟨hhome, hn, hlists.next, hgot⟩
  · rw [forall_mem_singleton, hpiece]
    exact l.serves_all _ hfits.find? hown hlooked

theorem update_makes (site : Site) (loop : Option Loop) (names : Names) (h : ∀ u ∈ s, u.isUpdate)
    (hf : f.slots.find? = (l.slots names).find?) (hown : names.All (l.Owns c k.given))
    (hlooked : ∀ q ∈ evaluatedInStep names s, k.looked q) (next : Nat) :
    site.step loop f s = (site.stepAt l names loop next s, f) ∧ labelsInStep s = 0 ∧
      ∀ p ∈ site.stepPieces loop f s, ∀ q ∈ p.looked, l.Serves c k q := by
  cases s
  case none => exact ⟨rfl, rfl, by simp [Site.stepMet]⟩
  case some s =>
    have hs := h s rfl
    cases s <;> simp only [Stmt.isUpdate, Bool.false_eq_true] at hs
    case assign loc target op value =>
      simp only [Site.step, Site.stmt, Site.stepAt, Site.stmtAt, site.assign_congr hf,
        Site.stepMet, Site.innerMet, forall_mem_singleton]
      exact ⟨trivial, rfl, l.serves_all [target, value] hf hown hlooked⟩
    case evaluate loc e =>
      simp only [Site.step, Site.stmt, Site.stepAt, Site.stmtAt, site.evaluate_congr hf,
        Site.stepMet, Site.innerMet, forall_mem_singleton]
      exact ⟨trivial, rfl, l.serves_all [e] hf hown hlooked⟩

section Bodies

variable {site : Site} {c : Checked} {loop : Option Loop} (hfits : l.Fits f names)
  (hown : names.All (l.Owns c k.given))

include hfits

theorem Layout.Makes.fits_leave {made : List Instruction × Frame} {ps : List Piece}
    {code : List Instruction} {labels : Nat}
    (h : l.Makes c k f.enter made ps code labels (names.enter.afterBody body)) :
    l.Fits made.2.leave (names.skip (declarationsIn body).length) :=
  hfits.leave h.continues h.fits (Names.afterBody_next names.enter_ne_nil body)

include hown

theorem branch_makes (hcondition : k.looked (names, condition))
    (hthen : l.Makes c k (f.label 1).enter (site.stmts loop (f.label 1).enter [] thenBody)
      (site.pieces loop (f.label 1).enter thenBody)
      (site.bodyAt l names.enter loop (f.labels + 1) thenBody) (labelsIn thenBody)
      (names.enter.afterBody thenBody))
    (helse : ∀ f', f' = (site.stmts loop (f.label 1).enter [] thenBody).2.leave →
      l.Makes c k f' (site.otherwise loop f' f.labels loc elseBody)
        (site.elsePieces loop f' f.labels loc elseBody)
        (site.elseAt l (names.skip (declarationsIn thenBody).length) loop f.labels f'.labels loc
          elseBody) (labelsInElse elseBody)
        ((names.skip (declarationsIn thenBody).length).skip (declarationsInElse elseBody).length)) :
    l.Makes c k f (site.stmt loop f (.branch loc condition thenBody elseBody))
      (⟨[], site, loop, f, .branch loc condition thenBody elseBody⟩ ::
        site.innerPieces loop f (.branch loc condition thenBody elseBody))
      (site.stmtAt l names loop f.labels (.branch loc condition thenBody elseBody))
      (Stmt.branch loc condition thenBody elseBody).labels
      (names.after (.branch loc condition thenBody elseBody)) := by
  replace helse := helse _ rfl
  have hlabels : (site.stmts loop (f.label 1).enter [] thenBody).2.leave.labels =
      f.labels + 1 + labelsIn thenBody := hthen.labels
  simp only [Site.stmt, Site.innerMet]
  refine ⟨?_, ?_, ?_, hthen.continues.leave.trans helse.continues, hown.skip _, ?_⟩
  · rw [Site.stmtAt, hthen.code, helse.code, hlabels, Site.value_congr _ hfits.find?]
  · rw [helse.labels, hlabels, Stmt.labels]
    omega
  · have hskip := helse.fits
    rw [Names.skip_skip, ← length_append] at hskip
    exact hskip
  · simp only [forall_mem_cons, forall_mem_append, forall_mem_map]
    exact ⟨l.serves_all [condition] hfits.find? hown (by simpa using hcondition), hthen.serves,
      helse.serves⟩

theorem whileLoop_makes (hcondition : k.looked (names, condition))
    (hbody : l.Makes c k (f.label 2).enter
      (site.stmts (some ⟨f.labels, f.labels + 1⟩) (f.label 2).enter [] body)
      (site.pieces (some ⟨f.labels, f.labels + 1⟩) (f.label 2).enter body)
      (site.bodyAt l names.enter (some ⟨f.labels, f.labels + 1⟩) (f.labels + 2) body)
      (labelsIn body) (names.enter.afterBody body)) :
    l.Makes c k f (site.stmt loop f (.whileLoop loc condition body))
      (⟨[], site, loop, f, .whileLoop loc condition body⟩ ::
        site.innerPieces loop f (.whileLoop loc condition body))
      (site.stmtAt l names loop f.labels (.whileLoop loc condition body))
      (Stmt.whileLoop loc condition body).labels
      (names.after (.whileLoop loc condition body)) := by
  rw [Site.stmt, Site.stmtAt, Site.innerPieces, Site.innerMet]
  refine ⟨?_, hbody.labels.trans (Nat.add_assoc _ _ _), hbody.fits_leave (hfits.label 2),
    hbody.continues.leave, hown.skip _, ?_⟩
  · dsimp only
    rw [hbody.code, Site.value_congr _ hfits.find?]
  · simp only [Survey.within_plain, forall_mem_cons, forall_mem_map]
    exact ⟨l.serves_all [condition] hfits.find? hown (by simpa using hcondition), hbody.serves⟩

theorem forLoop_makes (hu : ∀ u ∈ update, u.isUpdate)
    (hcondition : ∀ q ∈ condition.toList.map (names.enter.afterStep init, ·), k.looked q)
    (hupdate : ∀ q ∈ evaluatedInStep (names.enter.afterStep init) update, k.looked q)
    (hinit : l.Makes c k f.enter (site.step loop f.enter init) (site.stepPieces loop f.enter init)
      (site.stepAt l names.enter loop f.labels init) (labelsInStep init)
      (names.enter.afterStep init))
    (hbody : ∀ f', f' = (site.step loop f.enter init).2 →
      l.Makes c k (f'.label 3).enter
        (site.stmts (some ⟨f'.labels + 1, f'.labels + 2⟩) (f'.label 3).enter [] body)
        (site.pieces (some ⟨f'.labels + 1, f'.labels + 2⟩) (f'.label 3).enter body)
        (site.bodyAt l (names.enter.afterStep init).enter
          (some ⟨f'.labels + 1, f'.labels + 2⟩) (f'.labels + 3) body)
        (labelsIn body) ((names.enter.afterStep init).enter.afterBody body)) :
    l.Makes c k f (site.stmt loop f (.forLoop loc init condition update body))
      (⟨[], site, loop, f, .forLoop loc init condition update body⟩ ::
        site.innerPieces loop f (.forLoop loc init condition update body))
      (site.stmtAt l names loop f.labels (.forLoop loc init condition update body))
      (Stmt.forLoop loc init condition update body).labels
      (names.after (.forLoop loc init condition update body)) := by
  rw [Site.stmt_forLoop, Site.innerPieces, Site.innerMet]
  dsimp only
  replace hbody := hbody _ rfl
  set started := site.step loop f.enter init
  have hround := hbody.fits_leave (hinit.fits.label 3)
  set inside := site.stmts (some ⟨started.2.labels + 1, started.2.labels + 2⟩)
    (started.2.label 3).enter [] body
  obtain ⟨hupdated, hnone, hserves⟩ := update_makes (f := inside.2.leave) site loop
    (names.enter.afterStep init) hu hround.find? hinit.owns hupdate
    (f.labels + labelsInStep init + 3 + labelsIn body)
  have hcontinues : f.slots.enter.Continues inside.2.leave.slots :=
    hinit.continues.trans hbody.continues.leave
  have hlabels : started.2.labels = f.labels + labelsInStep init := hinit.labels
  rw [hupdated]
  refine ⟨?_, ?_, ?_, hcontinues.leave, hown.skip _, ?_⟩
  · rw [Site.stmtAt, hinit.code, hbody.code, Site.header_congr _ hinit.fits.find?, hlabels]
  · have hinside : inside.2.labels = started.2.labels + 3 + labelsIn body := hbody.labels
    rw [Stmt.labels, hnone]
    simp only [Frame.leave]
    omega
  · have hnext : (names.enter.afterStep init).next =
        names.next + (declarationsInStep init).length :=
      Names.afterStep_next names.enter_ne_nil init
    have hskip : l.Fits inside.2.leave.leave
        (names.skip ((declarationsInStep init).length + (declarationsIn body).length)) :=
      hfits.leave hcontinues hround (by rw [Names.next_skip, hnext, Nat.add_assoc])
    simpa [Names.after, Stmt.declaration?, Stmt.declarations,
      declarationsInStep_of_isUpdate hu] using hskip
  · simp only [Survey.within_plain, forall_mem_cons, forall_mem_append, forall_mem_map]
    exact ⟨l.serves_all condition.toList hinit.fits.find? hinit.owns hcondition,
      ⟨hinit.serves, hbody.serves⟩, hserves⟩

end Bodies

mutual

theorem stmt_makes (hc : g.table.isClass = g.program.symbols.isClass) (hk : k.Complete g.program)
    (names : Names) (inLoop : Bool) (loop : Option Loop) (f : Frame) (s : Stmt)
    (hformed : s.Formed Token.IsName) (hv : s.Valid g names inLoop)
    (hn : ∀ q ∈ s.evaluated names, k.looked q)
    (hlists : l.Lists g.program names s.declarations)
    (hdeep : ∀ d ∈ s.declaration?, kind ≠ .toplevel ∨ f.slots.blocks ≠ []) (hfits : l.Fits f names)
    (hown : names.All (l.Owns g.program k.given))
    (hgiven : ∀ p ∈ ⟨[], g.site kind className, loop, f, s⟩ ::
      (g.site kind className).innerPieces loop f s, p.given ⊆ k.given) :
    l.Makes g.program k f ((g.site kind className).stmt loop f s)
      (⟨[], g.site kind className, loop, f, s⟩ :: (g.site kind className).innerPieces loop f s)
      ((g.site kind className).stmtAt l names loop f.labels s) s.labels (names.after s) := by
  have hsame {code code' : List Instruction} {p : Piece} (h : code = code')
      (hp : ∀ q ∈ p.looked, l.Serves g.program k q) :
      l.Makes g.program k f (code, f) [p] code' 0 (names.skip 0) :=
    ⟨h, rfl, hfits, .refl _, hown, forall_mem_singleton.mpr hp⟩
  have hnone : ∀ q ∈ ([] : List (Slots × Expr)), l.Serves g.program k q := fun _ hq => by cases hq
  have hinside (f : Frame) : kind ≠ .toplevel ∨ f.enter.slots.blocks ≠ [] :=
    .inr (cons_ne_nil _ _)
  cases s <;> simp only [Stmt.Valid] at hv <;> simp only [Stmt.Formed] at hformed <;>
    simp only [Stmt.evaluated] at hn <;> simp only [Stmt.declarations] at hlists <;>
    simp only [Site.innerMet, Survey.within_plain, forall_mem_cons, forall_mem_append,
      forall_mem_map] at hgiven
  case «variable» loc name type init =>
    rw [Site.stmt, Site.stmtAt]
    cases type <;> cases init <;>
      exact declaration_makes hk rfl hformed.1 hv hlists (hdeep _ rfl) hfits hown hn hgiven.1 rfl
  case constant loc name type value =>
    rw [Site.stmt, Site.stmtAt]
    exact declaration_makes hk rfl hformed.1 hv hlists (hdeep _ rfl) hfits hown hn hgiven.1 rfl
  case block loc body =>
    rw [Site.stmt, Site.stmtAt]
    have hmade := stmts_makes hc hk names.enter inLoop loop f.enter body hformed hv hn hlists
      (hinside f) hfits.enter hown hgiven.2
    exact ⟨hmade.code, hmade.labels, hfits.leave hmade.continues hmade.fits
      (Names.afterBody_next names.enter_ne_nil body), hmade.continues.leave, hown,
      forall_mem_cons.mpr ⟨hnone, hmade.serves⟩⟩
  case assign loc target op value =>
    exact hsame (Site.assign_congr _ hfits.find? ..)
      (l.serves_all [target, value] hfits.find? hown hn)
  case result loc value =>
    exact hsame (Site.result_congr _ hfits.find? ..) (l.serves_all _ hfits.find? hown hn)
  case evaluate loc e =>
    exact hsame (Site.evaluate_congr _ hfits.find? ..) (l.serves_all [e] hfits.find? hown hn)
  case breakLoop loc => cases loop <;> exact hsame rfl hnone
  case continueLoop loc => cases loop <;> exact hsame rfl hnone
  case branch loc condition thenBody elseBody =>
    simp only [cons_append, forall_mem_cons, forall_mem_append] at hn
    have hthen := stmts_makes hc hk names.enter inLoop loop (f.label 1).enter thenBody hformed.2.1
      hv.2.1 hn.2.1 hlists.left (hinside _) (hfits.label 1).enter hown hgiven.2.1
    refine branch_makes hfits hown hn.1 hthen fun f' hf' => ?_
    subst hf'
    exact otherwise_makes hc hk _ inLoop loop _ f.labels loc elseBody hformed.2.2 hv.2.2
      hn.2.2 (hlists.right rfl) (hthen.fits_leave (hfits.label 1)) (hown.skip _) hgiven.2.2
  case whileLoop loc condition body =>
    simp only [forall_mem_cons] at hn
    exact whileLoop_makes hfits hown hn.1 (stmts_makes hc hk names.enter true
      (some ⟨f.labels, f.labels + 1⟩) (f.label 2).enter body hformed.2 hv.2 hn.2 hlists (hinside _)
      (hfits.label 2).enter hown hgiven.2)
  case forLoop loc init condition update body =>
    obtain ⟨-, hinit, -, hupdate, -, hbody⟩ := hformed
    simp only [forall_mem_append] at hn
    rw [declarationsInStep_of_isUpdate hupdate, append_nil] at hlists
    have hstart := step_makes hc hk names.enter inLoop loop f.enter init hinit hv.1 hn.1.1.1
      hlists.left (hinside f) hfits.enter hown hgiven.2.1.1
    refine forLoop_makes hfits hown hupdate hn.1.1.2 hn.1.2 hstart fun f' hf' => ?_
    subst hf'
    exact stmts_makes hc hk (names.enter.afterStep init).enter true _ _ body hbody hv.2.2.2 hn.2
      (hlists.right (Names.afterStep_next names.enter_ne_nil init)) (hinside _)
      (hstart.fits.label 3).enter hstart.owns hgiven.2.1.2

theorem stmts_makes (hc : g.table.isClass = g.program.symbols.isClass) (hk : k.Complete g.program)
    (names : Names) (inLoop : Bool) (loop : Option Loop) (f : Frame) (body : List Stmt)
    (hformed : FormedBody Token.IsName body) (hv : ValidBody g names inLoop body)
    (hn : ∀ q ∈ evaluatedIn names body, k.looked q)
    (hlists : l.Lists g.program names (declarationsIn body))
    (hdeep : kind ≠ .toplevel ∨ f.slots.blocks ≠ []) (hfits : l.Fits f names)
    (hown : names.All (l.Owns g.program k.given))
    (hgiven : ∀ p ∈ (g.site kind className).pieces loop f body, p.given ⊆ k.given) :
    l.Makes g.program k f ((g.site kind className).stmts loop f [] body)
      ((g.site kind className).pieces loop f body)
      ((g.site kind className).bodyAt l names loop f.labels body) (labelsIn body)
      (names.afterBody body) := by
  cases body
  case nil =>
    rw [Site.stmts_nil]
    exact ⟨rfl, rfl, hfits, .refl _, hown, by simp [Site.met]⟩
  case cons s rest =>
    rw [evaluatedIn, forall_mem_append] at hn
    rw [declarationsIn] at hlists
    have hfault := isFaultyStmt_eq_false hc names inLoop s hv.1 fun q hq => hk.looked q (hn.1 q hq)
    rw [Site.pieces_cons _ hfault, forall_mem_append, forall_mem_map] at hgiven
    have hfirst := stmt_makes hc hk names inLoop loop f s
      hformed.1 hv.1 hn.1 hlists.left (fun _ _ => hdeep) hfits hown hgiven.1
    have hdeep' : kind ≠ .toplevel ∨
        ((g.site kind className).stmt loop f s).2.slots.blocks ≠ [] :=
      hdeep.imp_right fun hb => by
        rw [← length_pos_iff] at hb ⊢
        rwa [hfirst.continues.depth]
    have hrest := stmts_makes hc hk (names.after s) inLoop loop _ rest hformed.2 hv.2 hn.2
      (hlists.right (Names.after_next hfits.names_ne_nil s)) hdeep' hfirst.fits hfirst.owns hgiven.2
    rw [Site.stmts_cons _ loop f hfault, Site.pieces_cons _ hfault]
    refine ⟨?_, ?_, hrest.fits, hfirst.continues.trans hrest.continues, hrest.owns, ?_⟩
    · rw [Site.bodyAt, hfirst.code, hrest.code, hfirst.labels]
    · rw [labelsIn, hrest.labels, hfirst.labels, Nat.add_assoc]
    · rw [forall_mem_append, forall_mem_map]
      exact ⟨hfirst.serves, hrest.serves⟩

theorem otherwise_makes (hc : g.table.isClass = g.program.symbols.isClass)
    (hk : k.Complete g.program) (names : Names) (inLoop : Bool) (loop : Option Loop) (f : Frame)
    (orElse : Nat) (loc : Location) (body : Option (List Stmt))
    (hformed : FormedElse Token.IsName body) (hv : ValidElse g names inLoop body)
    (hn : ∀ q ∈ evaluatedInElse names body, k.looked q)
    (hlists : l.Lists g.program names (declarationsInElse body)) (hfits : l.Fits f names)
    (hown : names.All (l.Owns g.program k.given))
    (hgiven : ∀ p ∈ (g.site kind className).elsePieces loop f orElse loc body,
      p.given ⊆ k.given) :
    l.Makes g.program k f ((g.site kind className).otherwise loop f orElse loc body)
      ((g.site kind className).elsePieces loop f orElse loc body)
      ((g.site kind className).elseAt l names loop orElse f.labels loc body) (labelsInElse body)
      (names.skip (declarationsInElse body).length) := by
  cases body
  case none => exact ⟨rfl, rfl, hfits, .refl _, hown, by simp [Site.elseMet]⟩
  case some body =>
    rw [Site.elsePieces, Site.elseMet, forall_mem_map] at hgiven
    rw [Site.otherwise, Site.elseAt, Site.elsePieces, Site.elseMet]
    have hmade := stmts_makes hc hk names.enter inLoop loop
      (f.label 1).enter body hformed hv hn hlists (.inr (cons_ne_nil _ _))
      (hfits.label 1).enter hown hgiven
    refine ⟨?_, ?_, (hfits.label 1).leave hmade.continues hmade.fits
      (Names.afterBody_next names.enter_ne_nil body), hmade.continues.leave, hown.skip _, ?_⟩
    · dsimp only
      rw [hmade.code]
      rfl
    · exact hmade.labels.trans (Nat.add_assoc _ _ _)
    · rw [forall_mem_map]
      exact hmade.serves

theorem step_makes (hc : g.table.isClass = g.program.symbols.isClass) (hk : k.Complete g.program)
    (names : Names) (inLoop : Bool) (loop : Option Loop) (f : Frame) (s : Option Stmt)
    (hformed : FormedStep Token.IsName s) (hv : ValidStep g names inLoop s)
    (hn : ∀ q ∈ evaluatedInStep names s, k.looked q)
    (hlists : l.Lists g.program names (declarationsInStep s))
    (hdeep : kind ≠ .toplevel ∨ f.slots.blocks ≠ []) (hfits : l.Fits f names)
    (hown : names.All (l.Owns g.program k.given))
    (hgiven : ∀ p ∈ (g.site kind className).stepPieces loop f s, p.given ⊆ k.given) :
    l.Makes g.program k f ((g.site kind className).step loop f s)
      ((g.site kind className).stepPieces loop f s)
      ((g.site kind className).stepAt l names loop f.labels s) (labelsInStep s)
      (names.afterStep s) := by
  cases s
  case none => exact ⟨rfl, rfl, hfits, .refl _, hown, by simp [Site.stepMet]⟩
  case some s =>
    exact stmt_makes hc hk names inLoop loop f s hformed hv hn hlists (fun _ _ => hdeep) hfits hown
      hgiven

end

end Makes

theorem Layout.Fits.declareAll {l : Layout} (h : l.Fits f names) (hown : names.All (l.Owns c given))
    (hlists : l.Lists c names ds) (hn : ∀ d ∈ ds, Token.IsName d.name)
    (hgiven : (f.declareAll c ds).1 ⊆ given) (hsome : ∀ a ∈ given, a.slot.isSome) :
    l.Fits (f.declareAll c ds).2 (names.declareAll ds) ∧
      (names.declareAll ds).All (l.Owns c given) ∧
      (f.declareAll c ds).2.labels = f.labels := by
  induction ds generalizing f names
  case nil => exact ⟨h, hown, rfl⟩
  case cons d ds ih =>
    rw [Frame.declareAll, cons_subset] at hgiven
    obtain ⟨hfirst, hrest⟩ := forall_mem_cons.mp hn
    obtain ⟨slots, ha, hdeclare⟩ := h.allocate (hsome _ hgiven.1)
    have hone : l.Lists c names [d] := Lists.left (b := ds) hlists
    have hmore : l.Lists c (names.declare d) ds :=
      Lists.right (a := [d]) hlists (Names.declare_next h.names_ne_nil d)
    have howned : (names.declare d).All (l.Owns c given) := by
      refine hown.declare fun home hhome => ⟨hhome, hfirst, hone.next, ?_⟩
      rw [hdeclare] at hgiven
      exact hgiven.1
    have hgo := ih (h.declare hone ha) howned hmore hrest
      (by rw [hdeclare] at hgiven; exact hgiven.2)
    rw [Frame.declareAll, hdeclare]
    exact hgo

end Code
end Lumen
