import Lumen.Proofs.Checked.Accepted
import Lumen.Proofs.Code.Body

namespace Lumen

open Typing SymbolTable

namespace Accepted

variable {c : Checked} {t : SymbolTable}

theorem member?_eq (h : Accepted c t) : c.symbols.member? = t.member? :=
  member?_congr h.settles.classes fun n i hi =>
    h.settles.members i (h.orderly.classes n i hi)

theorem routine_symbol (h : Accepted c t) {returns : TypeName}
    (hd : RoutineDeclared t className loc name params returns isStatic) (hn : Token.IsName name)
    (hc : ∀ owner ∈ className, Token.IsName owner) :
    ∃ home, c.symbols.qualified? (fullName className name) =
      some { Symbol.ofRoutine loc name params returns isStatic with home } := by
  obtain ⟨owner, kind, howner, -, hsymbol⟩ := hd.symbol
  cases className
  case none =>
    cases howner
    rw [fullName, qualified?_global _ hn.dot_notMem]
    obtain ⟨type, hs, hkeep⟩ := h.settles.known name _ hsymbol
    have htype : type = Ty.ofName returns :=
      hkeep (by cases returns <;> simp [Symbol.ofRoutine, Ty.ofName])
    subst htype
    exact ⟨kind, hs⟩
  case some className =>
    rw [qualified?_member _ (hc className rfl).dot_notMem, h.member?_eq]
    have howner : t.classScope? className = some owner := howner
    refine ⟨kind, ?_⟩
    rw [member?, howner]
    exact hsymbol

theorem class_symbol (h : Accepted c t) (hd : ClassDeclared t loc name) (hn : Token.IsName name) :
    c.symbols.qualified? name = some (.ofClass loc name) := by
  rw [qualified?_global _ hn.dot_notMem]
  obtain ⟨type, hs, hkeep⟩ := h.settles.known name _ hd.symbol
  have htype : type = .object name := hkeep (by simp [Symbol.ofClass])
  rw [hs, htype]
  rfl

end Accepted

namespace Code

def routineFrame (className : Option String) (params : List Param) (isStatic : Bool) : Frame :=
  declareParams ⟨.ofReceiver (if isStatic then none else className), 0⟩ params
    (params.map (Ty.ofName ·.type))

def routineKind (className : Option String) : Routine.Kind :=
  if className.isSome then .method else .function

def routineSite (c : Checked) (className : Option String) (returns : TypeName) (isStatic : Bool) :
    Site :=
  (c.bodySetting className isStatic returns).site (routineKind className) className

def mainSite (c : Checked) : Site :=
  ⟨c, .toplevel, none, .void⟩

theorem mainCode_eq (c : Checked) :
    mainCode c = Routine.ofBody toplevelName .toplevel false
      ((mainSite c).stmts none (mainFrame c) [] (c.items.filter Stmt.isStatement)).1
      ((mainSite c).stmts none (mainFrame c) [] (c.items.filter Stmt.isStatement)).2.slots .none :=
  rfl

def constructorSite (c : Checked) (className : String) : Site :=
  (c.fieldSetting className).site .constructor (some className)

theorem constructorCode_eq (c : Checked) (className : String) (fields : List (Field Expr))
    (loc : Location) :
    constructorCode c className fields loc =
      Routine.ofBody (fullName (some className) constructorName) .constructor true
        (fields.flatMap (fieldCode (constructorSite c className) (.ofReceiver (some className))
          className)) (.ofReceiver (some className)) loc :=
  rfl

def finished (code : List Instruction) (loc : Location) : List Instruction :=
  if code.getLast?.any (·.opcode = .ret) then code else code ++ [.plain .ret .void loc]

theorem Routine.ofBody_eq (name : String) (kind : Kind) (isInstance : Bool)
    (code : List Instruction) (slots : Slots) (loc : Location) :
    ofBody name kind isInstance code slots loc =
      ofCode name kind isInstance (finished code loc) slots.locals := by
  simp only [ofBody, finished]
  cases h : code.getLast?
  case none => simp [List.getLast?_eq_none_iff.mp h]
  case some last => simp

variable {c : Checked} {t : SymbolTable}

theorem routineCode?_eq (h : Accepted c t) {returns : TypeName} (body : List Stmt)
    (hd : RoutineDeclared t className loc name params returns isStatic) (hn : Token.IsName name)
    (hc : ∀ owner ∈ className, Token.IsName owner) :
    routineCode? c className (.routine loc name params returns isStatic body) =
      let code := (routineSite c className returns isStatic).stmts none
        (routineFrame className params isStatic) [] body
      some (Routine.ofBody (fullName className name) (routineKind className)
        (if isStatic then none else className).isSome code.1 code.2.slots loc) := by
  obtain ⟨home, hs⟩ := h.routine_symbol hd hn hc
  rw [routineCode?]
  simp only [hs, Option.bind_eq_bind, Option.bind_some, Symbol.ofRoutine, ne_eq, not_true, if_false,
    Symbol.signature?]
  rfl

theorem classCode_eq (h : Accepted c t) (fields : List (Field Expr)) (methods : List Stmt)
    (hd : ClassDeclared t loc name) (hn : Token.IsName name) :
    classCode c (.classDef loc name fields methods) =
      constructorCode c name fields loc :: methods.filterMap (routineCode? c (some name)) := by
  simp [classCode, h.class_symbol hd hn, Symbol.ofClass, Symbol.isClass]

end Code
end Lumen
