import Lumen.Proofs.Typing.Lockstep
import Lumen.Proofs.Typing.Provenance

namespace Lumen

open Option SymbolTable

namespace Typing

def Key.Answer : Key → Type
  | .symbol _ => Option Symbol
  | .isClass _ => Bool
  | .classScope _ | .routineScope _ => Option Scope
  | .type _ => Option Ty

namespace Analysis

def look (a : Analysis) : (k : Key) → k.Answer
  | .symbol name => a.table.inScope? global name
  | .isClass name => a.table.isClass name
  | .classScope name => (a.table.classScope? name).bind (a.table.scopes[·]?.map Scope.loose)
  | .routineScope name => (a.table.routineScope? name).bind (a.table.scopes[·]?.map Scope.loose)
  | .type id => a.types[id]?

def Matches (Q : Key → Prop) (a b : Analysis) (i j : Nat) : Prop :=
  (∃ name, Q (.classScope name) ∧ a.table.classScope? name = some i ∧
    b.table.classScope? name = some j) ∨
  (∃ name, Q (.routineScope name) ∧ a.table.routineScope? name = some i ∧
    b.table.routineScope? name = some j)

variable {Q : Key → Prop} {R : Nat → Nat → Prop} {a b : Analysis}

theorem Matches.symm (h : Matches Q a b i j) : Matches Q b a j i := by
  rcases h with ⟨name, hq, hi, hj⟩ | ⟨name, hq, hi, hj⟩
  · exact .inl ⟨name, hq, hj, hi⟩
  · exact .inr ⟨name, hq, hj, hi⟩

theorem Matches.partner (ha : a.table.Headed) (h : Matches Q a b i j) (h' : Matches Q a b i j') :
    j = j' := by
  rcases h with ⟨name, -, hi, hj⟩ | ⟨name, -, hi, hj⟩ <;>
    rcases h' with ⟨name', -, hi', hj'⟩ | ⟨name', -, hi', hj'⟩
  · cases (ha.classes _ _ hi).symm.trans (ha.classes _ _ hi')
    exact Option.some.inj (hj.symm.trans hj')
  · cases (ha.classes _ _ hi).symm.trans (ha.routines _ _ hi')
  · cases (ha.routines _ _ hi).symm.trans (ha.classes _ _ hi')
  · cases (ha.routines _ _ hi).symm.trans (ha.routines _ _ hi')
    exact Option.some.inj (hj.symm.trans hj')

theorem Matches.ne_global (ha : a.table.Headed) (h : Matches Q a b i j) :
    i ≠ global := by
  rintro rfl
  rcases h with ⟨name, -, hi, -⟩ | ⟨name, -, hi, -⟩
  · cases (ha.classes _ _ hi).symm.trans ha.global
  · cases (ha.routines _ _ hi).symm.trans ha.global

theorem rel_of_bind {x y : Option Nat} {f g : Nat → Option Scope}
    (h : x.bind f = y.bind g) (hf : ∀ i, x = some i → (f i).isSome)
    (hg : ∀ j, y = some j → (g j).isSome) (hR : ∀ i j, x = some i → y = some j → R i j) :
    Option.Rel R x y := by
  cases hx : x <;> cases hy : y
  case none.none => exact .none
  case none.some j =>
    rw [hx, hy, bind_none, bind_some] at h
    have hsome := hg j hy
    simp [← h] at hsome
  case some.none i =>
    rw [hx, hy, bind_none, bind_some] at h
    have hsome := hf i hx
    simp [h] at hsome
  case some.some i j => exact .some (hR i j hx hy)

theorem isSome_loose {t : SymbolTable} (h : t.header? i = some head) :
    (t.scopes[i]?.map Scope.loose).isSome := by
  obtain ⟨s, hs⟩ := Headed.scope h
  simp [hs]

theorem Twins.of_look (ha : a.table.Headed) (hb : b.table.Headed) (hblocks : a.blocks = b.blocks)
    (h : ∀ k, Q k → a.look k = b.look k) : Twins Q (Matches Q a b) a b where
  pairing := {
    left := fun i j j' hij hij' => hij.partner ha hij'
    right := fun i i' j hij hij' => hij.symm.partner hb hij'.symm
    global := fun i j hij => ⟨hij.ne_global ha, hij.symm.ne_global hb⟩ }
  blocks := hblocks
  outer := by
    obtain ⟨s, hs, hhead⟩ := map_eq_some_iff.mp ha.global
    obtain ⟨s', hs', hhead'⟩ := map_eq_some_iff.mp hb.global
    have hkind : s.kind = .global := congrArg Prod.fst hhead
    have hkind' : s'.kind = .global := congrArg Prod.fst hhead'
    exact ⟨.global, by simp [hs, hkind], by simp [hs', hkind']⟩
  symbols := fun name hq => h (.symbol name) hq
  known := fun name hq => h (.isClass name) hq
  classes := fun name hq => rel_of_bind (h (.classScope name) hq)
    (fun i hi => isSome_loose (ha.classes name i hi))
    (fun j hj => isSome_loose (hb.classes name j hj))
    (fun i j hi hj => .inl ⟨name, hq, hi, hj⟩)
  routines := fun name hq => rel_of_bind (h (.routineScope name) hq)
    (fun i hi => isSome_loose (ha.routines name i hi))
    (fun j hj => isSome_loose (hb.routines name j hj))
    (fun i j hi hj => .inr ⟨name, hq, hi, hj⟩)
  types := fun id hq => h (.type id) hq
  scopes := fun i j hij => by
    rcases hij with ⟨name, hq, hi, hj⟩ | ⟨name, hq, hi, hj⟩
    · have hlook : (a.table.classScope? name).bind _ = (b.table.classScope? name).bind _ :=
        h (.classScope name) hq
      rw [hi, hj, bind_some, bind_some] at hlook
      obtain ⟨s, hs⟩ := isSome_iff_exists.mp (isSome_loose (ha.classes name i hi))
      exact ⟨s, hs, hlook.symm.trans hs⟩
    · have hlook : (a.table.routineScope? name).bind _ = (b.table.routineScope? name).bind _ :=
        h (.routineScope name) hq
      rw [hi, hj, bind_some, bind_some] at hlook
      obtain ⟨s, hs⟩ := isSome_iff_exists.mp (isSome_loose (ha.routines name i hi))
      exact ⟨s, hs, hlook.symm.trans hs⟩

theorem Twins.bind_eq (h : Twins Q R a b) (hr : Option.Rel R x y) :
    x.bind (a.table.scopes[·]?.map Scope.loose) = y.bind (b.table.scopes[·]?.map Scope.loose) := by
  cases hr
  case none => rfl
  case some i j hij =>
    obtain ⟨s, hs, hs'⟩ := h.scopes i j hij
    exact hs.trans hs'.symm

theorem Twins.look_eq (h : Twins Q R a b) (hq : Q k) : a.look k = b.look k := by
  cases k
  case symbol name => exact h.symbols name hq
  case isClass name => exact h.known name hq
  case classScope name => exact h.bind_eq (h.classes name hq)
  case routineScope name => exact h.bind_eq (h.routines name hq)
  case type id => exact h.types id hq

end Analysis

theorem bind_loose_congr {t t' : SymbolTable} {x : Option Nat} (h : y = x)
    (hs : ∀ i, x = some i → t'.scopes[i]? = t.scopes[i]?) :
    y.bind (t'.scopes[·]?.map Scope.loose) = x.bind (t.scopes[·]?.map Scope.loose) := by
  subst h
  cases hi : y
  case none => rfl
  case some i => rw [bind_some, bind_some, hs i hi]

def Key.ofHeader (head : Scope.Kind × String) (name : String) : Key :=
  match head.1 with
  | .global => .symbol name
  | .classBody => .classScope head.2
  | .method | .block => .routineScope head.2

-- A step changes the answers to the questions `K` at most. What has a scope keeps it.
structure Analysis.Spares (K : Key → Prop) (a a' : Analysis) : Prop where
  headed  : a'.table.Headed
  headers : ∀ i head, a.table.header? i = some head → a'.table.header? i = some head
  classes : ∀ name i, a.table.classScope? name = some i → a'.table.classScope? name = some i
  blocks  : a'.blocks = a.blocks
  look    : ∀ k, ¬K k → a'.look k = a.look k

namespace Analysis.Spares

variable {K : Key → Prop} {a b c : Analysis}

theorem trans (h : Spares K a b) (h' : Spares K b c) : Spares K a c where
  headed := h'.headed
  headers := fun i head hi => h'.headers i head (h.headers i head hi)
  classes := fun name i hi => h'.classes name i (h.classes name i hi)
  blocks := h'.blocks.trans h.blocks
  look := fun k hk => (h'.look k hk).trans (h.look k hk)

section

variable (ha : a.table.Headed)

include ha

theorem of_table (ht : b.table = a.table) (hb : b.blocks = a.blocks)
    (hy : b.types = a.types) : Spares K a b where
  headed := ht ▸ ha
  headers := fun i head hi => ht ▸ hi
  classes := fun name i hi => ht ▸ hi
  blocks := hb
  look := fun k _ => by
    obtain ⟨table, blocks, types, problems⟩ := b
    subst ht hy
    cases k <;> rfl

theorem refl : Spares K a a :=
  of_table ha rfl rfl rfl

theorem report (cause : Cause) (loc : Location) :
    Spares K a (a.report cause loc) :=
  of_table ha rfl rfl rfl

theorem reportIf (wrong : Bool) (cause : Cause) (loc : Location) :
    Spares K a (a.reportIf wrong cause loc) := by
  cases wrong
  case false => exact refl ha
  case true => exact report ha cause loc

theorem typeOf (type : TypeName) (loc : Location) :
    Spares K a (a.typeOf type loc).2 := by
  rw [Analysis.typeOf]
  split
  · exact refl ha
  · exact report ha _ loc

theorem insert {i : Nat} (hi : a.table.header? i = some head)
    (symbol : Symbol) (hk : K (.ofHeader head symbol.name)) :
    Spares K a { a with table := a.table.insert i symbol } where
  headed := ha.insert i symbol
  headers := fun j head hj => by simpa using hj
  classes := fun name j hj => hj
  blocks := rfl
  look := fun k hn => by
    have hother {j : Nat} (hij : i ≠ j) :
        (a.table.insert i symbol).scopes[j]? = a.table.scopes[j]? := by
      rw [scopes_insert, if_neg hij]
    cases k
    case symbol name =>
      by_cases heq : i = global
      case neg => exact inScope?_congr (hother heq) name
      case pos =>
        subst heq
        cases hi.symm.trans ha.global
        have hne : symbol.name ≠ name := fun he => hn (he ▸ hk)
        obtain ⟨s, hs⟩ := Headed.scope ha.global
        have hlook : (a.table.insert global symbol).inScope? global name =
            a.table.inScope? global name := by
          simp [inScope?, hs, Scope.get?_insert, hne]
        exact hlook
    case isClass => rfl
    -- A scope with another header is another scope.
    case classScope name =>
      refine bind_loose_congr rfl fun j hj => hother fun hij => hn ?_
      subst hij
      cases hi.symm.trans (ha.classes name i hj)
      exact hk
    case routineScope name =>
      refine bind_loose_congr rfl fun j hj => hother fun hij => hn ?_
      subst hij
      cases hi.symm.trans (ha.routines name i hj)
      exact hk
    case type => rfl

theorem declareIn (hi : a.table.header? i = some head) (symbol : Symbol)
    (hk : K (.ofHeader head symbol.name)) : Spares K a (a.declareIn i symbol) := by
  rw [Analysis.declareIn]
  split
  · exact report ha _ _
  · exact insert ha hi symbol hk

end

end Analysis.Spares

namespace Analysis

variable {H : Nat → Prop} {ids : List Nat} {es : List Exit} {a a' : Analysis}

section

variable (h : a.Advances H ids es a')

include h

theorem Advances.header?_eq (i : Nat) :
    a'.table.header? i = a.table.header? i := by
  simpa [header?, Function.comp_def, Scope.outline] using
    congrArg (Option.map fun head => (head.1, head.2.1)) (h.outline i)

theorem Advances.headed (ha : a.table.Headed) : a'.table.Headed where
  global := (h.header?_eq _).trans ha.global
  classes := fun name i hi => by
    rw [classScope?, h.classes] at hi
    exact (h.header?_eq i).trans (ha.classes name i hi)
  routines := fun name i hi => by
    rw [routineScope?, h.routines] at hi
    exact (h.header?_eq i).trans (ha.routines name i hi)

-- The check of a body changes what is known about its routine, and the types of its expressions.
theorem Advances.spares {K : Key → Prop} (ha : a.table.Headed)
    (hb : a.blocks = [])
    (hH : ∀ i, H i → ∃ name, a.table.header? i = some (.method, name) ∧ K (.routineScope name))
    (hids : ∀ id ∈ ids, K (.type id)) : Spares K a a' where
  headed := h.headed ha
  headers := fun i head hi => (h.header?_eq i).trans hi
  classes := fun name i hi => by
    rw [classScope?, h.classes]
    exact hi
  blocks := (h.none hb).trans hb.symm
  look := fun k hn => by
    have hkept {i : Nat} {kind : Scope.Kind} {name : String}
        (hi : a.table.header? i = some (kind, name))
        (hk : kind = .method → ¬K (.routineScope name)) :
        a'.table.scopes[i]? = a.table.scopes[i]? := by
      refine h.scopes i fun hHi => ?_
      obtain ⟨name', hname, hK⟩ := hH i hHi
      cases hi.symm.trans hname
      exact hk rfl hK
    cases k
    case symbol name => exact inScope?_congr (hkept ha.global (by simp)) name
    case isClass name => exact congrFun (isClass_congr h.classes) name
    case classScope name =>
      exact bind_loose_congr (congrArg (·[name]?) h.classes) fun i hi =>
        hkept (ha.classes name i hi) (by simp)
    case routineScope name =>
      exact bind_loose_congr (congrArg (·[name]?) h.routines) fun i hi =>
        hkept (ha.routines name i hi) fun _ => hn
    case type id => exact h.types id fun hid => hn (hids id hid)

end

end Analysis

end Typing
end Lumen
