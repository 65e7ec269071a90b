import Lumen.Proofs.Typing.Valid
import Mathlib.Logic.Function.Basic

namespace Lumen

open Typing

structure Meaning (V S : Type) where
  literal   : Literal → V
  isTrue    : V → Bool
  binary    : BinaryOp → Ty → V → V → S → Option (V × S)
  unary     : UnaryOp → Ty → V → S → Option (V × S)
  -- The receiver comes first, if the routine takes one.
  call      : String → List V → S → Option (V × S)
  create    : String → S → Option (V × S)
  -- The new object comes first.
  construct : String → List V → S → Option S
  getField  : String → V → S → Option (V × S)
  putField  : String → V → V → S → Option S
  getGlobal : String → S → Option (V × S)
  putGlobal : String → V → S → Option S

structure Activation (V S : Type) where
  meaning   : Meaning V S
  setting   : Setting
  className : Option String
  -- The receiver, if there is one.
  self      : V

structure Store (V S : Type) where
  cells : Nat → V
  state : S

def Store.set {V S : Type} (st : Store V S) (k : Nat) (v : V) : Store V S :=
  { st with cells := Function.update st.cells k v }

inductive Referent where
  | cell (k : Nat)
  | field (className : String)
  | global
deriving DecidableEq

namespace Activation

variable {V S : Type} (a : Activation V S) (names : Names)

def program : Checked :=
  a.setting.program

def environment : Environment :=
  a.setting.environment names

def referent (name : String) : Referent :=
  match names.find? name, a.className with
  | some b, _ => .cell b.cell
  | none, some className =>
    if ((a.environment names).symbol? name).any (·.kind = .field) then .field className else .global
  | none, none => .global

def target (name : String) : String × Bool :=
  match (a.environment names).symbol? name with
  | some symbol =>
    if symbol.home = .classBody then
      (fullName a.className name, !symbol.signature?.any (·.isStatic))
    else (name, false)
  | none => (name, false)

def isStatic (className name : String) : Bool :=
  (((a.environment names).member? className name).bind (·.signature?)).any (·.isStatic)

variable (cells : Nat → V)

def read (name : String) (s : S) : Option (V × S) :=
  match a.referent names name with
  | .cell k => some (cells k, s)
  | .field className => a.meaning.getField (fullName (some className) name) a.self s
  | .global => a.meaning.getGlobal name s

mutual

def eval : Expr → S → Option (V × S)
  | .literal _ value, s => some (a.meaning.literal value, s)
  | .variable _ name, s => a.read names cells name s
  | .receiver _, s => some (a.self, s)
  | .binary m op left right, s => do
    let (x, s) ← eval left s
    let (y, s) ← eval right s
    a.meaning.binary op (a.program.typeAt m.id) x y s
  | .unary m op operand, s => do
    let (x, s) ← eval operand s
    a.meaning.unary op (a.program.typeAt m.id) x s
  | .call _ name args, s => do
    let (vs, s) ← evalAll args s
    let (target, takesReceiver) := a.target names name
    a.meaning.call target (if takesReceiver then a.self :: vs else vs) s
  | .invoke _ object name args, s =>
    match a.program.typeOf object with
    | .object className =>
      let routine := fullName (some className) name
      -- The name of a class has no value.
      if ((a.environment names).namedClass? object).isSome then do
        let (vs, s) ← evalAll args s
        a.meaning.call routine vs s
      else do
        let (x, s) ← eval object s
        let (vs, s) ← evalAll args s
        a.meaning.call routine (if a.isStatic names className name then vs else x :: vs) s
    | _ => none
  | .member _ object name, s =>
    match a.program.typeOf object with
    | .object className => do
      let (x, s) ← eval object s
      a.meaning.getField (fullName (some className) name) x s
    | _ => none
  | .create _ type args, s =>
    match type with
    | .named className => do
      let (x, s) ← a.meaning.create className s
      let (vs, s) ← evalAll args s
      let s ← a.meaning.construct (fullName (some className) constructorName) (x :: vs) s
      return (x, s)
    | _ => none
  | .stray _, _ => none

def evalAll : List Expr → S → Option (List V × S)
  | [], s => some ([], s)
  | e :: es, s => do
    let (v, s) ← eval e s
    let (vs, s) ← evalAll es s
    return (v :: vs, s)

end

def stored (read : S → Option (V × S)) (type : Ty) (op : Option BinaryOp) (value : Expr) (s : S) :
    Option (V × S) :=
  match op with
  | none => a.eval names cells value s
  | some op => do
    let (old, s) ← read s
    let (v, s) ← a.eval names cells value s
    a.meaning.binary op type old v s

end Activation

namespace Activation

variable {V S : Type} (a : Activation V S) (names : Names)

def write (name : String) (v : V) (st : Store V S) : Option (Store V S) :=
  match a.referent names name with
  | .cell k => some (st.set k v)
  | .field className => do
    let s ← a.meaning.putField (fullName (some className) name) a.self v st.state
    return { st with state := s }
  | .global => do
    let s ← a.meaning.putGlobal name v st.state
    return { st with state := s }

def assign (target : Expr) (op : Option BinaryOp) (value : Expr) (st : Store V S) :
    Option (Store V S) :=
  let type := a.program.typeOf target
  match target with
  | .variable _ name => do
    let (v, s) ← a.stored names st.cells (a.read names st.cells name) type op value st.state
    a.write names name v { st with state := s }
  | .member _ object name =>
    match a.program.typeOf object with
    | .object className => do
      let field := fullName (some className) name
      let (x, s) ← a.eval names st.cells object st.state
      let (v, s) ← a.stored names st.cells (a.meaning.getField field x) type op value s
      let s ← a.meaning.putField field x v s
      return { st with state := s }
    | _ => none
  | _ => none

def test (condition : Option Expr) (st : Store V S) : Option (Bool × Store V S) :=
  match condition with
  | none => some (true, st)
  | some condition => do
    let (v, s) ← a.eval names st.cells condition st.state
    return (a.meaning.isTrue v, { st with state := s })

end Activation

inductive Outcome (V : Type) where
  | normal
  | broken
  | continued
  | returned (result : Option V)

def Outcome.result? {V : Type} : Outcome V → Option (Option V)
  | normal => some none
  | returned result => some result
  | broken | continued => none

inductive Phrase where
  | stmt (s : Stmt)
  | body (body : List Stmt)
  -- The rounds of a loop.
  | loop (condition : Option Expr) (update : Option Stmt) (body : List Stmt)

-- `a.Runs names p st o st'`: where the names are as given, the phrase `p` turns the store `st` into
-- `st'` and ends with the outcome `o`.
inductive Activation.Runs {V S : Type} (a : Activation V S) :
    Names → Phrase → Store V S → Outcome V → Store V S → Prop
  | declare {names : Names} {s : Stmt} {d : Declaration} {st : Store V S}
      (hs : s.declaration? = some d) (hd : d.init = none) :
      a.Runs names (.stmt s) st .normal st
  | initial {names : Names} {s : Stmt} {d : Declaration} {e : Expr} {v : V} {st : Store V S}
      {s' : S} (hs : s.declaration? = some d) (hd : d.init = some e)
      (he : a.eval names st.cells e st.state = some (v, s')) :
      a.Runs names (.stmt s) st .normal (Store.set { st with state := s' } names.next v)
  | assign {names : Names} {loc : Location} {target : Expr} {op : Option BinaryOp} {value : Expr}
      {st st' : Store V S} (h : a.assign names target op value st = some st') :
      a.Runs names (.stmt (.assign loc target op value)) st .normal st'
  | evaluate {names : Names} {loc : Location} {e : Expr} {v : V} {st : Store V S} {s' : S}
      (he : a.eval names st.cells e st.state = some (v, s')) :
      a.Runs names (.stmt (.evaluate loc e)) st .normal { st with state := s' }
  | result {names : Names} {loc : Location} {st : Store V S} :
      a.Runs names (.stmt (.result loc none)) st (.returned none) st
  | resultOf {names : Names} {loc : Location} {e : Expr} {v : V} {st : Store V S} {s' : S}
      (he : a.eval names st.cells e st.state = some (v, s')) :
      a.Runs names (.stmt (.result loc (some e))) st (.returned (some v)) { st with state := s' }
  | breakLoop {names : Names} {loc : Location} {st : Store V S} :
      a.Runs names (.stmt (.breakLoop loc)) st .broken st
  | continueLoop {names : Names} {loc : Location} {st : Store V S} :
      a.Runs names (.stmt (.continueLoop loc)) st .continued st
  | block {names : Names} {loc : Location} {body : List Stmt} {st st' : Store V S} {o : Outcome V}
      (h : a.Runs names.enter (.body body) st o st') :
      a.Runs names (.stmt (.block loc body)) st o st'
  | branch {names : Names} {loc : Location} {condition : Expr} {thenBody : List Stmt}
      {elseBody : Option (List Stmt)} {st st₁ st' : Store V S} {o : Outcome V}
      (hc : a.test names (some condition) st = some (true, st₁))
      (h : a.Runs names.enter (.body thenBody) st₁ o st') :
      a.Runs names (.stmt (.branch loc condition thenBody elseBody)) st o st'
  | otherwise {names : Names} {loc : Location} {condition : Expr} {thenBody : List Stmt}
      {elseBody : Option (List Stmt)} {st st₁ st' : Store V S} {o : Outcome V}
      (hc : a.test names (some condition) st = some (false, st₁))
      (h : a.Runs (names.skip (declarationsIn thenBody).length).enter (.body (elseBody.getD [])) st₁
        o st') :
      a.Runs names (.stmt (.branch loc condition thenBody elseBody)) st o st'
  | whileLoop {names : Names} {loc : Location} {condition : Expr} {body : List Stmt}
      {st st' : Store V S} {o : Outcome V}
      (h : a.Runs names (.loop (some condition) none body) st o st') :
      a.Runs names (.stmt (.whileLoop loc condition body)) st o st'
  | forLoop {names : Names} {loc : Location} {init : Option Stmt} {condition : Option Expr}
      {update : Option Stmt} {body : List Stmt} {st st₁ st' : Store V S} {o : Outcome V}
      (hi : a.Runs names.enter (.body init.toList) st .normal st₁)
      (h : a.Runs (names.enter.afterStep init) (.loop condition update body) st₁ o st') :
      a.Runs names (.stmt (.forLoop loc init condition update body)) st o st'
  | nil {names : Names} {st : Store V S} : a.Runs names (.body []) st .normal st
  | cons {names : Names} {s : Stmt} {rest : List Stmt} {st st₁ st' : Store V S} {o : Outcome V}
      (hs : a.Runs names (.stmt s) st .normal st₁)
      (h : a.Runs (names.after s) (.body rest) st₁ o st') :
      a.Runs names (.body (s :: rest)) st o st'
  -- What follows is left out.
  | leave {names : Names} {s : Stmt} {rest : List Stmt} {st st' : Store V S} {o : Outcome V}
      (hs : a.Runs names (.stmt s) st o st') (ho : o ≠ .normal) :
      a.Runs names (.body (s :: rest)) st o st'
  | stop {names : Names} {condition : Option Expr} {update : Option Stmt} {body : List Stmt}
      {st st' : Store V S} (hc : a.test names condition st = some (false, st')) :
      a.Runs names (.loop condition update body) st .normal st'
  | exit {names : Names} {condition : Option Expr} {update : Option Stmt} {body : List Stmt}
      {st st₁ st' : Store V S} (hc : a.test names condition st = some (true, st₁))
      (hb : a.Runs names.enter (.body body) st₁ .broken st') :
      a.Runs names (.loop condition update body) st .normal st'
  | finish {names : Names} {condition : Option Expr} {update : Option Stmt} {body : List Stmt}
      {st st₁ st' : Store V S} {result : Option V}
      (hc : a.test names condition st = some (true, st₁))
      (hb : a.Runs names.enter (.body body) st₁ (.returned result) st') :
      a.Runs names (.loop condition update body) st (.returned result) st'
  | again {names : Names} {condition : Option Expr} {update : Option Stmt} {body : List Stmt}
      {st st₁ st₂ st₃ st' : Store V S} {o o' : Outcome V}
      (hc : a.test names condition st = some (true, st₁))
      (hb : a.Runs names.enter (.body body) st₁ o st₂) (ho : o = .normal ∨ o = .continued)
      (hu : a.Runs names (.body update.toList) st₂ .normal st₃)
      (h : a.Runs names (.loop condition update body) st₃ o' st') :
      a.Runs names (.loop condition update body) st o' st'

end Lumen
