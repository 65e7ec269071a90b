import Lumen.Proofs.Code.Globals
import Lumen.Proofs.Code.Occurrences

namespace Lumen

open Typing List Option SymbolTable

namespace Code

variable {loc : Location} {symbol : Symbol}

theorem Site.storage_of_find? {site : Site} {slots slots' : Slots}
    (h : slots.find? name = slots'.find? name) :
    site.storage slots name = site.storage slots' name := by
  rw [storage, storage, h]

namespace Layout

variable {g : Setting} {l : Layout} {kind : Routine.Kind} {className : Option String}
  {given : List Allotment} {rows : List Local} {slots : Slots} {names : Names}

-- What the slots have to do with the names around a body, if it declares nothing itself.
structure Knows (l : Layout) (g : Setting) (kind : Routine.Kind) (className : Option String)
    (given : List Allotment) (rows : List Local) : Prop where
  outside : (g.site kind className).Knows (l.slots .empty) (g.environment .empty) given rows
  listed  : l.Listed rows

theorem Knows.inside (h : l.Knows g kind className given rows)
    (hfind : slots.find? = (l.slots names).find?) (hown : names.All (l.Owns g.program given)) :
    (g.site kind className).Knows slots (g.environment names) given rows := by
  have hbound {name : String} {b : Binding} (hb : names.find? name = some b) :
      (g.site kind className).storage slots name = .slot (l.cell b.cell) ∧
        (g.environment names).symbol? name = some (b.symbol g.program) := by
    refine ⟨?_, by simp [Setting.environment, hb]⟩
    rw [Site.storage, hfind, find?_slots, hb]
    rfl
  have hfree {name : String} (hb : names.find? name = none) :
      slots.find? name = (l.slots .empty).find? name ∧
        (g.environment names).symbol? name = (g.environment .empty).symbol? name := by
    have hempty : Names.empty.find? name = none := rfl
    refine ⟨?_, by simp [Setting.environment, hb, hempty]⟩
    rw [hfind, find?_slots, find?_slots, hb]
    rfl
  refine ⟨fun name symbol hn hs hvalue hne => ?_, fun m name symbol hn hs hkind => ?_,
    fun hreceiver => ?_⟩
  · cases hb : names.find? name
    case none =>
      obtain ⟨hslot, hsymbol⟩ := hfree hb
      rw [Site.storage_of_find? hslot]
      exact h.outside.stored name symbol hn (hsymbol ▸ hs) hvalue hne
    case some b =>
      obtain ⟨hstorage, hsymbol⟩ := hbound hb
      rw [hsymbol] at hs
      cases hs
      have hb := hown name b hb
      rw [hstorage]
      refine .of_slot ?_ (fun hhome => absurd hhome hb.home) hb.given (h.listed _ _ hb.row)
      simp only [Binding.symbol]
      split <;> simp
  · cases hb : names.find? name
    case none =>
      obtain ⟨hslot, hsymbol⟩ := hfree hb
      rw [← h.outside.classes m name symbol hn (hsymbol ▸ hs) hkind, Site.isClassName,
        Site.isClassName, Site.storage_of_find? hslot]
    case some b =>
      obtain ⟨hstorage, hsymbol⟩ := hbound hb
      rw [hsymbol] at hs
      cases hs
      rw [Site.isClassName, hstorage]
      simp only [Symbol.isClass, Binding.symbol]
      split <;> rfl
  · have hthis : names.find? "this" = none := by
      cases hb : names.find? "this"
      case none => rfl
      case some b => exact absurd (Names.name_of_find? hb) (hown _ b hb).name.ne_this
    rw [(hfree hthis).1]
    exact h.outside.receiver hreceiver

end Layout

structure Lowered.Sees (r : Lowered) (look : Lookup) (slots : Slots) (e : Expr) : Prop where
  routine : look.routine = r.routine.name
  part    : e.ids ⊆ look.expr.ids
  formed  : e.Formed Token.IsName
  typed   : e.Typed r.site.program look.environment
  known   : r.site.program.isFaulty e = false
  knows   : r.site.Knows slots look.environment r.given r.routine.locals

def Inside (c : Checked) (t : SymbolTable) (className : Option String) (env : Environment) : Prop :=
  ∃ (g : Setting) (names : Names), g.program = c ∧ t.Settles g.table ∧
    g.outer = g.table.outer className ∧ names.All (·.home ≠ .global) ∧ env = g.environment names

-- Each variable of a routine is found where the check found it.
def Lowered.Resolves (r : Lowered) (looks : List Lookup) : Prop :=
  ∀ o ∈ r.occurrences, ∃ look ∈ looks, look.routine = r.routine.name ∧
    o.mark.id ∈ look.expr.ids ∧
    o.Resolved r.site r.given r.routine.locals look.environment r.routine.code

namespace Lowered

variable {r : Lowered} {look : Lookup} {slots : Slots}

theorem Sees.object (h : r.Sees look slots (.member m e name)) : r.Sees look slots e where
  routine := h.routine
  part := List.Subset.trans (subset_append_left _ _) h.part
  formed := h.formed.1
  typed := h.typed.1
  known := by
    have hknown := h.known
    simp only [Checked.isFaulty, Bool.or_eq_false_iff] at hknown
    exact hknown.2
  knows := h.knows

theorem Sees.resolved_read (h : r.Sees look slots e)
    (hp : before ++ r.site.value slots e <+: r.routine.code) (ho : o ∈ r.site.occurrences slots e) :
    (o.behind before).mark.id ∈ look.expr.ids ∧
      (o.behind before).Resolved r.site r.given r.routine.locals look.environment
        r.routine.code := by
  have hwithin := occurrences_within h.knows.parts e ⟨h.formed, h.typed⟩ o ho
  refine ⟨h.part hwithin.part,
    ((hwithin.behind before).mono hp (fun _ hid => hid)).resolved h.knows ?_⟩
  exact r.site.program.typeAt_ne_error e h.known _ hwithin.part

theorem Sees.resolved_target {p : Piece} (h : r.Sees look p.frame.slots (.variable m name))
    (hsite : p.site = r.site) (hp : p.before ++ p.code <+: r.routine.code)
    (hs : p.stmt = .assign loc (.variable m name) op value) : m.id ∈ look.expr.ids ∧
      (Occurrence.mk p.before m name
        (.target loc op (p.site.value p.frame.slots value))).Resolved r.site r.given
        r.routine.locals look.environment r.routine.code := by
  refine ⟨h.part (by simp [Expr.ids]), ?_⟩
  have hne := r.site.program.typeAt_ne_error _ h.known m.id (by simp [Expr.ids])
  obtain ⟨hreach, symbol, hsymbol, htype, hstored⟩ := h.knows.finds h.formed h.typed hne
  refine ⟨symbol, _, hsymbol, hstored, ?_⟩
  rw [Piece.code, hs, hsite] at hp
  rw [htype, hsite]
  simp only [Occurrence.code]
  rw [← Site.assign_variable hreach]
  exact hp

theorem resolves_of_sees (hplaced : Placed r.site r.routine.code r.pieces)
    (hpieces : ∀ p ∈ r.pieces, ∀ q ∈ p.looked, ∃ look ∈ looks, r.Sees look q.1 q.2)
    (hvalues : ∀ x ∈ r.initial, x.before ++ r.site.value x.slots x.expr <+: r.routine.code)
    (hinitial : ∀ x ∈ r.initial, ∃ look ∈ looks, r.Sees look x.slots x.expr) :
    r.Resolves looks := by
  have hreads : ∀ x ∈ r.reads, x.before ++ r.site.value x.slots x.expr <+: r.routine.code ∧
      ∃ look ∈ looks, r.Sees look x.slots x.expr := by
    refine forall_mem_append.mpr ⟨fun x hx => ⟨hvalues x hx, hinitial x hx⟩, fun x hx => ?_⟩
    obtain ⟨p, hp, hx⟩ := mem_flatMap.mp hx
    obtain ⟨hsite, hcode⟩ := hplaced p hp
    refine ⟨hsite ▸ (p.reads_placed x hx).trans hcode, ?_⟩
    rcases p.looked_of_reads x hx with hlooked | ⟨m, name, hlooked⟩
    · exact hpieces p hp _ hlooked
    · obtain ⟨look, hlook, hsees⟩ := hpieces p hp _ hlooked
      exact ⟨look, hlook, hsees.object⟩
  refine forall_mem_append.mpr ⟨fun o ho => ?_, fun o ho => ?_⟩
  · obtain ⟨x, hx, ho⟩ := mem_flatMap.mp ho
    obtain ⟨read, hread, rfl⟩ := List.mem_map.mp ho
    obtain ⟨hcode, look, hlook, hsees⟩ := hreads x hx
    exact ⟨look, hlook, hsees.routine, hsees.resolved_read hcode hread⟩
  · obtain ⟨p, hp, ho⟩ := mem_flatMap.mp ho
    obtain ⟨hsite, hcode⟩ := hplaced p hp
    rw [Piece.targets] at ho
    split at ho
    case h_1 loc m name op value hs =>
      obtain ⟨look, hlook, hsees⟩ := hpieces p hp (p.frame.slots, .variable m name)
        (by simp [Piece.looked, hs])
      cases mem_singleton.mp ho
      exact ⟨look, hlook, hsees.routine, hsees.resolved_target hsite hcode hs⟩
    case h_2 => cases ho

end Lowered

section Outside

variable {c : Checked} {t : SymbolTable}

section Storage

variable {site : Site} {slots : Slots} {name : String}

theorem Site.storage_of_field (hf : slots.find? name = none) (hc : site.className = some owner)
    (hs : site.memberHere? name = some symbol) (hk : symbol.kind = .field) :
    site.storage slots name = .field owner := by
  simp [storage, hf, hc, hs, hk]

theorem Site.storage_of_none (hf : slots.find? name = none) (hs : site.memberHere? name = none) :
    site.storage slots name = .global := by
  rw [storage, hf]
  cases site.className <;> simp [hs]

end Storage

section

variable (h : Accepted c t)

include h

-- What can be seen around a body is a member of its class, or there is none of that name and it is
-- a global. In `t'` the types of some globals may not be known yet.
theorem outer_cases_of_settles (ht : t.Settles t')
    (hs : (t'.outer className).findSome? (t'.inScope? · name) = some symbol) :
    (symbol.name = name ∧ className.bind (c.symbols.member? · name) = some symbol ∧
      symbol.home = .classBody ∧ Scope.Kind.classBody.Suits symbol.kind) ∨
    (className.bind (c.symbols.member? · name) = none ∧
      t'.inScope? global name = some symbol ∧ symbol.home = .global ∧
      Scope.Kind.global.Suits symbol.kind) := by
  have hmembers : t'.member? = t.member? :=
    member?_congr ht.classes fun n i hi => ht.members i (h.orderly.classes n i hi)
  rw [findSome?_outer, hmembers] at hs
  rw [h.member?_eq]
  cases hmember : className.bind (t.member? · name)
  case none =>
    rw [hmember, none_or] at hs
    exact .inr ⟨rfl, hs, (ht.symbol h.orderly hs).2⟩
  case some found =>
    rw [hmember, some_or] at hs
    cases hs
    obtain ⟨owner, -, hfound⟩ := bind_eq_some_iff.mp hmember
    obtain ⟨i, hi, hs⟩ := bind_eq_some_iff.mp hfound
    obtain ⟨hname, hhome, hsuits⟩ := h.orderly.symbol (h.orderly.classes owner i hi) hs
    exact .inl ⟨hname, rfl, hhome, hsuits⟩

theorem outer_cases
    (hs : (c.symbols.outer className).findSome? (c.symbols.inScope? · name) = some symbol) :
    (symbol.name = name ∧ className.bind (c.symbols.member? · name) = some symbol ∧
      symbol.home = .classBody ∧ Scope.Kind.classBody.Suits symbol.kind) ∨
    (className.bind (c.symbols.member? · name) = none ∧
      c.symbols.inScope? global name = some symbol ∧ symbol.home = .global ∧
      Scope.Kind.global.Suits symbol.kind) :=
  outer_cases_of_settles h h.settles hs

-- Around a routine stand the members of its class and the globals. None of them has a slot.
theorem knows_outside {className receiver? : Option String} {returns : Ty}
    {kind : Routine.Kind} {l : Layout} (hkind : kind ≠ .toplevel)
    (hbase : l.base = (Slots.ofReceiver receiver?).visible) (given : List Allotment)
    (rows : List Local) {g : Setting}
    (hg : g = ⟨c, c.symbols, c.symbols.outer className, receiver?, returns⟩) :
    (g.site kind className).Knows (l.slots .empty) (g.environment .empty) given rows := by
  subst hg
  set g : Setting := ⟨c, c.symbols, c.symbols.outer className, receiver?, returns⟩
  set site := g.site kind className
  have hfind {name : String} (hn : Token.IsName name) : (l.slots .empty).find? name = none := by
    have hne := hn.ne_this
    rw [Layout.find?_slots, hbase]
    cases receiver? <;> simp [Names.empty, Names.find?, Slots.ofReceiver, Ne.symm hne]
  have hcases {name : String} {symbol : Symbol}
      (hs : (g.environment .empty).symbol? name = some symbol) :
      (symbol.name = name ∧ site.memberHere? name = some symbol ∧ symbol.home = .classBody ∧
        Scope.Kind.classBody.Suits symbol.kind) ∨
      (site.memberHere? name = none ∧ c.symbols.inScope? global name = some symbol ∧
        symbol.home = .global ∧ Scope.Kind.global.Suits symbol.kind) :=
    outer_cases h hs
  refine ⟨fun name symbol hn hs hvalue hne => ?_, fun m name symbol hn hs hsignature => ?_,
    fun hreceiver => ?_⟩
  · rcases hcases hs with ⟨hname, hmember, -, hsuits⟩ | ⟨hmember, hglobal, hhome, hsuits⟩
    · obtain ⟨owner, hclass, hfound⟩ := bind_eq_some_iff.mp hmember
      have hk : symbol.kind = .field := by
        cases hk : symbol.kind <;> simp_all [Symbol.hasValue, Scope.Kind.Suits]
      rw [Site.storage_of_field (hfind hn) hclass hmember hk]
      exact .of_field hclass hk (hname.symm ▸ hfound)
    · have hvariable : symbol.kind = .variable := by
        cases hk : symbol.kind <;> simp_all [Symbol.hasValue, Scope.Kind.Suits]
      rw [Site.storage_of_none (hfind hn) hmember]
      exact .of_global hvariable hhome hkind
  · rcases hcases hs with ⟨-, hmember, -, hsuits⟩ | ⟨hmember, hglobal, -, -⟩
    · obtain ⟨owner, hclass, -⟩ := bind_eq_some_iff.mp hmember
      have hk : symbol.kind = .field := by
        cases hk : symbol.kind <;> simp_all [Symbol.signature?, Scope.Kind.Suits]
      rw [Site.isClassName, Site.storage_of_field (hfind hn) hclass hmember hk, Symbol.isClass, hk]
      rfl
    · have hqualified : site.symbols.qualified? name = some symbol :=
        (qualified?_global _ hn.dot_notMem).trans hglobal
      rw [Site.isClassName, Site.storage_of_none (hfind hn) hmember, hqualified]
      simp
  · rw [Layout.find?_slots, hbase]
    obtain ⟨owner, hr⟩ := isSome_iff_exists.mp hreceiver
    have hr : receiver? = some owner := hr
    simp [hr, Names.empty, Names.find?, Slots.ofReceiver]

theorem routine_sees (hend : (t.settleAll c c.items).Typed [])
    {returns : TypeName} (hd : Defined c t className loc name params returns isStatic body)
    (hr : r ∈ loweredRoutine? c className (.routine loc name params returns isStatic body))
    (hgiven : ∀ a ∈ r.given, a.slot.isSome) : ∀ p ∈ r.pieces, ∀ q ∈ p.looked,
      ∃ look ∈ (Stmt.routine loc name params returns isStatic body).routineLookups c className,
        r.Sees look q.1 q.2 ∧ Inside c t className look.environment := by
  intro p hp q hq
  have hfollows := routine_follows h hend hd hr hgiven
  obtain ⟨hdeclared, hf, hc, hv, -⟩ := hd
  rw [loweredRoutine?_eq h body hdeclared hf.1 hc] at hr
  cases hr
  set r := loweredBody c className params isStatic body _ _
  have hbody : FormedBody Token.IsName body := hf.2.2.2
  have houtside : (Layout.ofRoutine c (if isStatic then none else className) params body).Knows
      (c.bodySetting className isStatic returns) (routineKind className) className r.given
      r.routine.locals :=
    ⟨knows_outside h (routineKind_ne className) rfl _ _ rfl, hfollows.locals ▸ Layout.listed_rows _⟩
  obtain ⟨names, hfind, hown, hlooked⟩ := hfollows.serves p hp q hq
  refine ⟨(c.bodySetting className isStatic returns).lookup (fullName className name) (names, q.2),
    mem_map_of_mem hlooked, ?_⟩
  have hformed := (evaluatesIn _ body hbody).formed _ hlooked
  have hknown := h.routine_faultless hend hbody hv _ hlooked
  refine ⟨?_, _, names, rfl, h.settles, rfl, fun n b hb => (hown n b hb).home, rfl⟩
  exact {
    routine := rfl
    part := fun _ hid => hid
    formed := hformed
    typed := (ValidBody.admits_evaluated _ false body hv _ hlooked).typed _ hformed hknown
    known := hknown
    knows := houtside.inside hfind hown }

theorem resolves_routine (hend : (t.settleAll c c.items).Typed [])
    {returns : TypeName} (hd : Defined c t className loc name params returns isStatic body)
    (hr : r ∈ loweredRoutine? c className (.routine loc name params returns isStatic body))
    (hgiven : ∀ a ∈ r.given, a.slot.isSome) : r.Resolves (lookups c.items) := by
  have hsees := routine_sees h hend hd hr hgiven
  obtain ⟨hdeclared, hf, hc, hv, hlooks⟩ := hd
  rw [loweredRoutine?_eq h body hdeclared hf.1 hc] at hr
  cases hr
  set r := loweredBody c className params isStatic body _ _
  refine Lowered.resolves_of_sees ?_ (fun p hp q hq => ?_) (by simp [r, loweredBody])
    (by simp [r, loweredBody])
  · have hroutine : r.routine = Routine.ofBody _ _ _ _ _ loc := rfl
    rw [hroutine, Routine.ofBody_eq]
    exact (Site.stmts_placed _ none _ body).finished loc
  · obtain ⟨look, hlook, hsee, -⟩ := hsees p hp q hq
    exact ⟨look, hlooks hlook, hsee⟩

end

theorem prefix_finished (code : List Instruction) (loc : Location) :
    code <+: finished code loc := by
  rw [finished]
  split
  · exact prefix_rfl
  · exact prefix_append _ _

theorem constructor_sees (h : Accepted c t) (hend : (t.settleAll c c.items).Typed [])
    {name : String} {fields : List (Field Expr)} {methods : List Stmt}
    (hi : .classDef loc name fields methods ∈ c.items) {f : Field Expr} {init : Expr}
    (hmem : f ∈ fields) (hinit : f.init = some init) : ∃ look ∈ fields.flatMap (fieldLookup c name),
      (loweredConstructor c name fields loc).Sees look (.ofReceiver (some name)) init ∧
        Inside c t (some name) look.environment := by
  have hf : f.Formed Token.IsName := (h.formed _ hi).2.1 f hmem
  have hv : ValidField c name f := (h.classes _ hi).1 f hmem
  set r := loweredConstructor c name fields loc
  have hroutine : r.routine = constructorCode c name fields loc := rfl
  rw [constructorCode_eq, Routine.ofBody_eq] at hroutine
  have hknows : (Layout.ofRoutine c (some name) [] []).Knows (c.fieldSetting name) .constructor
      (some name) r.given r.routine.locals :=
    ⟨knows_outside h (by simp) rfl _ _ rfl,
      fun k v hv => by simp [Layout.ofRoutine, Layout.ofDeclarations, declarationsIn] at hv⟩
  have hsite : r.site.Knows (.ofReceiver (some name)) ((c.fieldSetting name).environment .empty)
      r.given r.routine.locals := hknows.inside rfl (Names.All.empty _)
  refine ⟨(c.fieldSetting name).lookup (fullName (some name) constructorName) (⟨[], 0⟩, init),
    mem_flatMap.mpr ⟨f, hmem, by simp [fieldLookup, hinit]⟩, ?_, _, _, rfl, h.settles, rfl,
    Names.All.empty _, rfl⟩
  have hformed : FormedOption Token.IsName f.init := hf.2.2.1
  rw [hinit] at hformed
  have hknown := h.field_faultless hend hv hf hinit
  exact {
    routine := by rw [hroutine]; rfl
    part := fun _ hid => hid
    formed := hformed
    typed := (hv.admits init hinit).typed _ hformed hknown
    known := hknown
    knows := hsite }

theorem resolves_constructor (h : Accepted c t) (hend : (t.settleAll c c.items).Typed [])
    (hi : .classDef loc name fields methods ∈ c.items) :
    (loweredConstructor c name fields loc).Resolves (lookups c.items) := by
  have hlooks : fields.flatMap (fieldLookup c name) ⊆ lookups c.items := by
    intro look hlook
    rw [h.lookups]
    refine mem_append_left _ (mem_append_right _ (mem_flatMap.mpr ⟨_, hi, ?_⟩))
    exact mem_append_left _ hlook
  have hreads := fieldReads_placed (constructorSite c name) (.ofReceiver (some name)) name fields
  have hroutine : (loweredConstructor c name fields loc).routine =
      constructorCode c name fields loc := rfl
  rw [constructorCode_eq, Routine.ofBody_eq] at hroutine
  refine Lowered.resolves_of_sees (by simp [Placed]) (by simp) (fun x hx => ?_)
    fun x hx => ?_
  · obtain ⟨hslots, -, hcode⟩ := hreads x hx
    rw [hslots, hroutine]
    exact hcode.trans (prefix_finished _ loc)
  · obtain ⟨hslots, ⟨f, hmem, hinit⟩, -⟩ := hreads x hx
    obtain ⟨look, hlook, hsee, -⟩ := constructor_sees h hend hi hmem hinit
    exact ⟨look, hlooks hlook, hslots ▸ hsee⟩

section Main

variable {t' : SymbolTable} {f : Frame}

section

variable (h : Accepted c t)

include h

-- Around the statements at top level stand the globals, and each of them has a slot.
theorem knows_main (hs : t.Settles t') (htells : ∀ d ∈ c.globals, t'.Tells c d)
    (hf : f.AtTop c given) (hrows : f.slots.locals ⊆ rows) (ds : List Declaration) :
    (mainSite c).Knows ((f.layout c ds).slots .empty) ((c.mainSetting t').environment .empty) given
      rows := by
  have hfind (name : String) : ((f.layout c ds).slots .empty).find? name = f.slots.find? name := by
    rw [Layout.find?_slots]
    rfl
  have hsymbol (name : String) : ((c.mainSetting t').environment .empty).symbol? name =
      t'.inScope? global name := by
    simp [Setting.environment, Checked.mainSetting, Names.empty, Names.find?]
  -- A variable that can be seen is a global.
  have hglobal {name : String} {symbol : Symbol}
      (hsymbol : t'.inScope? global name = some symbol)
      (hkind : symbol.kind = .variable) : ∃ d ∈ c.globals, d.name = name := by
    obtain ⟨d, hd, hname, -⟩ := h.global_of_kind hs hsymbol hkind
    exact ⟨d, hd, hname⟩
  refine ⟨fun name symbol hn hsym hvalue hne => ?_, fun m name symbol hn hsym hsignature => ?_,
    fun hreceiver => by cases hreceiver⟩
  · rw [hsymbol] at hsym
    have hsuits := (hs.symbol h.orderly hsym).2.2
    have hkind : symbol.kind = .variable := by
      cases hk : symbol.kind <;> simp_all [Symbol.hasValue, Scope.Kind.Suits]
    obtain ⟨d, hd, rfl⟩ := hglobal hsym hkind
    obtain ⟨type, htell, htype⟩ := htells d hd
    cases hsym.symm.trans htell
    obtain ⟨n, hslot, hgiven, hrow⟩ := hf.slot d hd
    have hstorage : (mainSite c).storage ((f.layout c ds).slots .empty) d.name = .slot n := by
      simp [Site.storage, hfind, hslot]
    rw [hstorage]
    refine .of_slot (by simp) (fun _ => rfl) hgiven ?_
    rw [htype hne]
    exact hrows hrow
  · rw [hsymbol] at hsym
    obtain ⟨hname, -, hsuits⟩ := hs.symbol h.orderly hsym
    rw [Site.isClassName]
    cases hk : symbol.kind <;> simp only [Symbol.signature?, hk, reduceCtorEq] at hsignature
    case «variable» =>
      obtain ⟨d, hd, rfl⟩ := hglobal hsym hk
      obtain ⟨n, hslot, -⟩ := hf.slot d hd
      have hstorage : (mainSite c).storage ((f.layout c ds).slots .empty) d.name = .slot n := by
        simp [Site.storage, hfind, hslot]
      simp [hstorage, Symbol.isClass, hk]
    case classDef =>
      obtain ⟨old, hold, heq⟩ := hs.origin hsym
      have hkind : old.kind = .classDef := by
        rw [heq] at hk
        exact hk
      have hnone : f.slots.find? name = none := by
        cases hslot : f.slots.find? name
        case none => rfl
        case some n =>
          obtain ⟨d, hd, rfl⟩ := hf.only name n hslot
          cases hold.symm.trans (h.globalDeclared hd).symbol
          cases hkind
      obtain ⟨type, hfinal, -⟩ := h.settles.known name old hold
      have hqualified : (mainSite c).symbols.qualified? name = some { old with type } :=
        (qualified?_global _ hn.dot_notMem).trans hfinal
      rw [Site.storage_of_none ((hfind name).trans hnone) rfl, hqualified]
      simp [Symbol.isClass, hk, hkind]
    all_goals
      rw [hk] at hsuits
      cases hsuits

theorem main_sees (hgiven : ∀ a ∈ (loweredMain c).given, a.slot.isSome)
    (hi : items ⊆ c.items) (hs : t.Settles t') (htells : ∀ d ∈ c.globals, t'.Tells c d)
    (hv : ValidMain c t' items)
    (hn : ∀ item ∈ items, ∀ q ∈ item.evaluated .empty, c.isFaulty q.2 = false)
    (hf : f.AtTop c (loweredMain c).given)
    (hpieces : ∀ p ∈ (mainSite c).pieces none f (items.filter Stmt.isStatement), p.given ⊆
      (loweredMain c).given)
    (hrows : ((mainSite c).stmts none f [] (items.filter Stmt.isStatement)).2.slots.locals ⊆
      (loweredMain c).routine.locals) :
    f.slots.locals ⊆ (loweredMain c).routine.locals ∧
      ∀ p ∈ (mainSite c).pieces none f (items.filter Stmt.isStatement), ∀ q ∈ p.looked,
        ∃ look ∈ mainLookups c t' items, (loweredMain c).Sees look q.1 q.2 ∧
          Inside c t none look.environment := by
  induction items generalizing t' f
  case nil => exact ⟨hrows, by simp [Site.met]⟩
  case cons item items ih =>
    obtain ⟨hfirst, hrest⟩ := cons_subset.mp hi
    obtain ⟨hnf, hnr⟩ := forall_mem_cons.mp hn
    have hs' := hs.settle h.orderly (h.declared item hfirst) (c := c)
    have htells' : ∀ d ∈ c.globals, (t'.settle c item).Tells c d :=
      fun d hd => h.tells_settle hfirst hd (htells d hd)
    have hmore {slots : Slots} {e : Expr} (hlook : ∃ look ∈ mainLookups c (t'.settle c item) items,
        (loweredMain c).Sees look slots e ∧ Inside c t none look.environment) :
        ∃ look ∈ mainLookups c t' (item :: items), (loweredMain c).Sees look slots e ∧
          Inside c t none look.environment := by
      obtain ⟨look, hmem, hsees⟩ := hlook
      exact ⟨look, mem_append_right _ hmem, hsees⟩
    cases hitem : item.isStatement
    case false =>
      rw [filter_cons_of_neg (by simp [hitem])] at hpieces hrows ⊢
      obtain ⟨hlocals, hsees⟩ := ih hrest hs' htells' hv.2 hnr hf hpieces hrows
      exact ⟨hlocals, fun p hp q hq => hmore (hsees p hp q hq)⟩
    case true =>
      have hc : t'.isClass = c.symbols.isClass := by
        rw [isClass_congr hs.classes, isClass_congr h.settles.classes]
      have hfault : (mainSite c).program.isFaultyStmt item = false :=
        item_faultless hc hv.1 hitem hnf
      rw [filter_cons_of_pos hitem] at hpieces hrows ⊢
      rw [Site.pieces_cons _ hfault] at hpieces ⊢
      rw [Site.stmts_cons _ none f hfault] at hrows
      rw [forall_mem_append, List.forall_mem_map] at hpieces ⊢
      set k : Ledger := ⟨(loweredMain c).given, (· ∈ item.evaluated .empty)⟩
      have hk : k.Complete c := ⟨hgiven, hnf⟩
      have htops := item_tops h hc hfirst hitem hv.1 hk hf (fun q hq => hq) hpieces.1
      obtain ⟨hlocals, hsees⟩ := ih hrest hs' htells' hv.2 hnr htops.atTop hpieces.2 hrows
      refine ⟨List.Subset.trans htops.locals hlocals, fun p hp q hq => ?_,
        fun p hp q hq => hmore (hsees p hp q hq)⟩
      obtain ⟨ds, hlisted, hserves⟩ := htops.serves
      obtain ⟨names, hfind, hown, hlooked⟩ := hserves p hp q hq
      have hformed := (Stmt.mainEvaluates (h.formed item hfirst)).formed _ hlooked
      have hknows : (f.layout c ds).Knows (c.mainSetting t') .toplevel none (loweredMain c).given
          (loweredMain c).routine.locals :=
        ⟨knows_main h hs htells hf (List.Subset.trans htops.locals hlocals) ds,
          fun k v hv => hlocals (hlisted (Layout.listed_rows _ k v hv))⟩
      refine ⟨(c.mainSetting t').lookup toplevelName (names, q.2),
        mem_append_left _ (mem_map_of_mem hlooked), ?_, _, names, rfl, hs, rfl,
        fun n b hb => (hown n b hb).home, rfl⟩
      exact {
        routine := rfl
        part := fun _ hid => hid
        formed := hformed
        typed := (hv.1.admits_evaluated _ hlooked).typed _ hformed (hnf _ hlooked)
        known := hnf _ hlooked
        knows := hknows.inside hfind hown }

theorem main_sees_all (hu : usesAhead c.items = false)
    (hend : (t.settleAll c c.items).Typed [])
    (hgiven : ∀ a ∈ (loweredMain c).given, a.slot.isSome) :
    ∀ p ∈ (loweredMain c).pieces, ∀ q ∈ p.looked, ∃ look ∈ mainLookups c t c.items,
      (loweredMain c).Sees look q.1 q.2 ∧ Inside c t none look.environment := by
  have hroutine : (loweredMain c).routine = _ := mainCode_eq c
  rw [Routine.ofBody_eq] at hroutine
  have hmain := (h.main.faultless h.formed h.collected.typed h.class_ne_global hu).1
  exact (main_sees h hgiven (List.Subset.refl _) (.refl t)
    (fun d hd => (h.globalDeclared hd).tells c) h.main hmain
    (mainFrame_atTop h hend (subset_append_left _ _) hgiven)
    (fun p hp => Lowered.given_of_piece (r := loweredMain c) hp)
    (by rw [hroutine]; exact List.Subset.refl _)).2

theorem mainLookups_subset :
    mainLookups c t c.items ⊆ lookups c.items := by
  intro look hlook
  rw [h.lookups]
  exact mem_append_left _ (mem_append_left _ hlook)

theorem resolves_main (hu : usesAhead c.items = false)
    (hend : (t.settleAll c c.items).Typed [])
    (hgiven : ∀ a ∈ (loweredMain c).given, a.slot.isSome) :
    (loweredMain c).Resolves (lookups c.items) := by
  set r := loweredMain c
  have hroutine : r.routine = _ := mainCode_eq c
  rw [Routine.ofBody_eq] at hroutine
  refine Lowered.resolves_of_sees ?_ (fun p hp q hq => ?_) (by simp [r, loweredMain])
    (by simp [r, loweredMain])
  · rw [hroutine]
    exact (Site.stmts_placed _ none _ _).finished .none
  · obtain ⟨look, hlook, hsee, -⟩ := main_sees_all h hu hend hgiven p hp q hq
    exact ⟨look, mainLookups_subset h hlook, hsee⟩

end

end Main

theorem resolves_all (h : Accepted c t) (hk : ¬c.Unknown)
    (hgiven : ∀ r ∈ lowered c, ∀ a ∈ r.given, a.slot.isSome) :
    ∀ r ∈ lowered c, r.Resolves (lookups c.items) := by
  obtain ⟨hu, hend⟩ := h.end_typed hk
  intro r hr
  have hsome := hgiven r hr
  rcases mem_lowered hr with rfl | ⟨loc, name, fields, methods, hi, rfl⟩ | ⟨className, item, hd, hr⟩
  · exact resolves_main h hu hend hsome
  · exact resolves_constructor h hend hi
  · cases item <;> try cases hr
    case routine => exact resolves_routine h hend (h.defined hd) hr hsome

end Outside

end Code

-- In the code of an accepted program, every variable is found where the check found it, if every
-- expression has a type and every declaration a slot.
theorem Compilation.resolves {source : String} {c : Compilation}
    (h : ofSource .strict source = .ok c) (hk : ¬c.checked.Unknown)
    (hs : ∀ r ∈ Code.lowered c.checked, ∀ a ∈ r.given, a.slot.isSome) :
    (Code.lowered c.checked).map Code.Lowered.routine = c.routines ∧
      ∀ r ∈ Code.lowered c.checked, r.Resolves (lookups c.checked.items) := by
  obtain ⟨t, haccepted⟩ := accepted h
  rw [(ofSource_strict h).2.2]
  exact ⟨Code.routine_lowered _, Code.resolves_all haccepted hk hs⟩

-- Here names stand for a parameter, a local, a field, a global and what hides a global.
theorem Compilation.resolves_hidden :
    ∃ c, ofSource .strict
        ("int g = 1; class A \x7b int n; int f(int p) \x7b int v = p; n += v; g = n; " ++
          "return v; \x7d \x7d \x7b int g = g; g += 2; \x7d") = .ok c ∧
      ¬c.checked.Unknown ∧ (∀ r ∈ Code.lowered c.checked, ∀ a ∈ r.given, a.slot.isSome) ∧
        (Code.lowered c.checked).map Code.Lowered.routine = c.routines ∧
          ∀ r ∈ Code.lowered c.checked, r.Resolves (lookups c.checked.items) :=
  exists_known (by decide +kernel) fun _ hc hk hs => resolves hc hk hs

end Lumen
