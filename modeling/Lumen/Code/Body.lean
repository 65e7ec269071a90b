import Lumen.Code.Value

namespace Lumen

namespace Checked

mutual

def isFaulty (c : Checked) : Expr → Bool
  | .literal m _ | .variable m _ | .receiver m => (c.typeAt m.id).isError
  | .binary m _ left right =>
    (c.typeAt m.id).isError || isFaulty c left || isFaulty c right
  | .unary m _ operand => (c.typeAt m.id).isError || isFaulty c operand
  | .call m _ args => (c.typeAt m.id).isError || anyFaulty c args
  | .invoke m object _ args =>
    (c.typeAt m.id).isError || isFaulty c object || anyFaulty c args
  | .member m object _ => (c.typeAt m.id).isError || isFaulty c object
  | .create m _ args => (c.typeAt m.id).isError || anyFaulty c args
  | .stray _ => true

def anyFaulty (c : Checked) : List Expr → Bool
  | [] => false
  | e :: es => isFaulty c e || anyFaulty c es

end

def isUnknown (c : Checked) : TypeName → Bool
  | .named name => !c.symbols.isClass name
  | _ => false

mutual

def isFaultyStmt (c : Checked) : Stmt → Bool
  | .variable _ _ type init => type.any c.isUnknown || init.any c.isFaulty
  | .constant _ _ type value => c.isUnknown type || c.isFaulty value
  | .assign _ target _ value => c.isFaulty target || c.isFaulty value
  | .result _ value => value.any c.isFaulty
  | .branch _ condition _ _ => c.isFaulty condition
  | .whileLoop _ condition _ => c.isFaulty condition
  | .forLoop _ init condition update _ =>
    isFaultyStep c init || condition.any c.isFaulty || isFaultyStep c update
  | .evaluate _ e => c.isFaulty e
  | .classDef .. | .routine .. | .block .. | .breakLoop _ | .continueLoop _ | .bare _ => false

def isFaultyStep (c : Checked) : Option Stmt → Bool
  | none => false
  | some s => isFaultyStmt c s

end

end Checked

namespace Code

structure Loop where
  next : Nat
  stop : Nat

structure Frame where
  slots  : Slots
  labels : Nat

namespace Frame

def enter (f : Frame) : Frame :=
  { f with slots := f.slots.enter }

def leave (f : Frame) : Frame :=
  { f with slots := f.slots.leave }

def label (f : Frame) (count : Nat) : Frame :=
  { f with labels := f.labels + count }

def declare (f : Frame) (name : String) (type : Ty) : Option Nat × Frame :=
  match f.slots.allocate name type with
  | .ok (slot, slots) => (some slot, { f with slots })
  | .error _ => (none, f)

end Frame

namespace Site

-- The slot of a declared variable. The variables at top level have theirs already.
def declare (site : Site) (f : Frame) (name : String) (type : Ty) : Option Nat × Frame :=
  match f.slots.find? name with
  | some slot =>
    if site.kind = .toplevel ∧ f.slots.depth = 0 then (some slot, f) else f.declare name type
  | none => f.declare name type

-- The code of a declaration. The initial value still sees what the variable hides.
def declaration (site : Site) (f : Frame) (name : String) (type : Ty) (init : Option Expr)
    (loc : Location) : List Instruction × Frame :=
  let (slot, f') := site.declare f name type
  match init with
  | none => ([], f')
  | some init => (site.value f.slots init ++ [.access .store name type slot loc], f')

def storeField (site : Site) (slots : Slots) (className name : String) (type : Ty)
    (op : Option BinaryOp) (value : Expr) (loc : Location) : List Instruction :=
  let field := Operand.symbol (fullName (some className) name)
  let put := [Instruction.withOperand .putField field type loc]
  match op with
  | none => site.value slots value ++ put
  | some op =>
    [.plain .dup (.object className) loc, .withOperand .getField field type loc] ++
      site.value slots value ++ .plain (.ofBinary op) type loc :: put

def assign (site : Site) (slots : Slots) (target : Expr) (op : Option BinaryOp) (value : Expr)
    (loc : Location) : List Instruction :=
  let type := site.program.typeOf target
  let storeVariable (name : String) (slot : Option Nat) :=
    let store := [Instruction.access .store name type slot loc]
    match op with
    | none => site.value slots value ++ store
    | some op =>
      .access .load name type slot loc :: site.value slots value ++
        .plain (.ofBinary op) type loc :: store
  match target with
  | .variable _ name =>
    match site.storage slots name with
    | .field className =>
      site.receiver slots loc :: site.storeField slots className name type op value loc
    | .slot slot => storeVariable name (some slot)
    | .global => storeVariable name none
  | .member _ object name =>
    match site.program.typeOf object with
    | .object className =>
      site.value slots object ++ site.storeField slots className name type op value loc
    | _ => []
  | _ => []

def result (site : Site) (slots : Slots) (value : Option Expr) (loc : Location) :
    List Instruction :=
  match value with
  | none => [.plain .ret .void loc]
  | some value =>
    let type := if site.returns = .void then site.program.typeOf value else site.returns
    site.value slots value ++ [.plain .ret type loc]

def evaluate (site : Site) (slots : Slots) (e : Expr) (loc : Location) : List Instruction :=
  let type := site.program.typeOf e
  if type = .void then site.value slots e else site.value slots e ++ [.plain .pop type loc]

def variableType (site : Site) (type : Option TypeName) (init : Option Expr) : Ty :=
  match type, init with
  | some type, _ => Ty.ofName type
  | none, some init => site.program.typeOf init
  | none, none => .error

mutual

def stmt (site : Site) (loop : Option Loop) (f : Frame) : Stmt → List Instruction × Frame
  | .variable loc name type init =>
    site.declaration f name (site.variableType type init) init loc
  | .constant loc name type value => site.declaration f name (Ty.ofName type) (some value) loc
  | .block _ body =>
    let (code, f) := stmts site loop f.enter [] body
    (code, f.leave)
  | .assign loc target op value => (site.assign f.slots target op value loc, f)
  | .result loc value => (site.result f.slots value loc, f)
  | .branch loc condition thenBody elseBody =>
    let orElse := f.labels
    let condition := site.value f.slots condition
    let (thenCode, f) := stmts site loop (f.label 1).enter [] thenBody
    let (elseCode, f) := otherwise site loop f.leave orElse loc elseBody
    (condition ++ .jump .jumpIfFalse orElse loc :: thenCode ++ elseCode, f)
  | .whileLoop loc condition body =>
    let start := f.labels
    let stop := f.labels + 1
    let condition := site.value f.slots condition
    let (code, f) := stmts site (some ⟨start, stop⟩) (f.label 2).enter [] body
    (.place start loc :: condition ++ .jump .jumpIfFalse stop loc :: code ++
      [.jump .jump start loc, .place stop loc], f.leave)
  | .forLoop loc init condition update body =>
    let (initCode, f) := step site loop f.enter init
    let start := f.labels
    let next := f.labels + 1
    let stop := f.labels + 2
    let condition := match condition with
      | some condition => site.value f.slots condition ++ [.jump .jumpIfFalse stop loc]
      | none => []
    let (code, f) := stmts site (some ⟨next, stop⟩) (f.label 3).enter [] body
    let (updateCode, f) := step site loop f.leave update
    (initCode ++ .place start loc :: condition ++ code ++ .place next loc :: updateCode ++
      [.jump .jump start loc, .place stop loc], f.leave)
  | .breakLoop loc =>
    match loop with
    | some loop => ([.jump .jump loop.stop loc], f)
    | none => ([], f)
  | .continueLoop loc =>
    match loop with
    | some loop => ([.jump .jump loop.next loc], f)
    | none => ([], f)
  | .evaluate loc e => (site.evaluate f.slots e loc, f)
  | .classDef .. => ([], f)
  | .routine .. => ([], f)
  | .bare _ => ([], f)

-- The code of statements, behind that already made, the last instruction of which comes first.
def stmts (site : Site) (loop : Option Loop) (f : Frame) (done : List Instruction) :
    List Stmt → List Instruction × Frame
  | [] => (done.reverse, f)
  | s :: rest =>
    if site.program.isFaultyStmt s then stmts site loop f done rest
    else
      let (code, f) := stmt site loop f s
      stmts site loop f (code.reverse ++ done) rest

def otherwise (site : Site) (loop : Option Loop) (f : Frame) (orElse : Nat) (loc : Location) :
    Option (List Stmt) → List Instruction × Frame
  | none => ([.place orElse loc], f)
  | some body =>
    let stop := f.labels
    let (code, f) := stmts site loop (f.label 1).enter [] body
    (.jump .jump stop loc :: .place orElse loc :: code ++ [.place stop loc], f.leave)

def step (site : Site) (loop : Option Loop) (f : Frame) :
    Option Stmt → List Instruction × Frame
  | none => ([], f)
  | some s => stmt site loop f s

end

end Site
end Code
end Lumen
