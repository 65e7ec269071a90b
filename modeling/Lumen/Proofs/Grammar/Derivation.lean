import Lumen.Grammar.Item

namespace Lumen.Grammar

open Token (Kind)

def typeOf? (t : Token) : Option TypeName :=
  match t.kind with
  | .intKw => some .int
  | .floatKw | .doubleKw => some .float
  | .stringKw => some .string
  | .boolKw | .booleanKw => some .bool
  | .voidKw => some .void
  | .identifier => some (.named t.text)
  | _ => none

-- How tightly an expression holds together, from the loosest operators to those that have none.
-- Without any level of binary operators, a sign may still stand in front.
inductive Rank where
  | level (ops : List Operators)
  | power
  | chained
  | primary

inductive Further : List (List Token) → List Token → Prop where
  | none : Further [] []
  | more {part ts : List Token} {rest : List (List Token)} {comma : Token} :
    comma.kind = .comma → Further rest ts → Further (part :: rest) (comma :: part ++ ts)

inductive Separated : List (List Token) → List Token → Prop where
  | none : Separated [] []
  | some {part ts : List Token} {rest : List (List Token)} :
    Further rest ts → Separated (part :: rest) (part ++ ts)

inductive Phrase : Rank → List Token → Expr → Prop where
  -- Operators of one level group to the left.
  | binary {ops : Operators} {tighter : List Operators} {ls rs : List Token} {t : Token}
    {m : Mark} {op : BinaryOp} {left right : Expr} :
    Phrase (.level (ops :: tighter)) ls left → ops.lookup t.kind = some op →
    Phrase (.level tighter) rs right →
    Phrase (.level (ops :: tighter)) (ls ++ t :: rs) (.binary m op left right)
  | tighter {ops : Operators} {tighter : List Operators} {ts : List Token} {e : Expr} :
    Phrase (.level tighter) ts e → Phrase (.level (ops :: tighter)) ts e
  | unary {ts : List Token} {t : Token} {m : Mark} {op : UnaryOp} {e : Expr} :
    unaryOp? t.kind = some op → Phrase (.level []) ts e →
    Phrase (.level []) (t :: ts) (.unary m op e)
  | ofPower {ts : List Token} {e : Expr} : Phrase .power ts e → Phrase (.level []) ts e
  -- Powers group to the right.
  | power {ls rs : List Token} {t : Token} {m : Mark} {left right : Expr} :
    Phrase .chained ls left → t.kind = .power → Phrase .power rs right →
    Phrase .power (ls ++ t :: rs) (.binary m .pow left right)
  | ofChained {ts : List Token} {e : Expr} : Phrase .chained ts e → Phrase .power ts e
  -- Only names can be called.
  | call {fs ts : List Token} {o c : Token} {m m' : Mark} {name : String}
    {args : List (List Token × Expr)} :
    Phrase .chained fs (.variable m' name) → o.kind = .leftParen →
    (∀ a ∈ args, Phrase (.level levels) a.1 a.2) → Separated (args.map (·.1)) ts →
    c.kind = .rightParen →
    Phrase .chained (fs ++ o :: ts ++ [c]) (.call m name (args.map (·.2)))
  | member {es : List Token} {dot name : Token} {m : Mark} {e : Expr} :
    Phrase .chained es e → dot.kind = .dot → name.kind = .identifier →
    Phrase .chained (es ++ [dot, name]) (.member m e name.text)
  | invoke {es ts : List Token} {dot name o c : Token} {m : Mark} {e : Expr}
    {args : List (List Token × Expr)} :
    Phrase .chained es e → dot.kind = .dot → name.kind = .identifier → o.kind = .leftParen →
    (∀ a ∈ args, Phrase (.level levels) a.1 a.2) → Separated (args.map (·.1)) ts →
    c.kind = .rightParen →
    Phrase .chained (es ++ dot :: name :: o :: ts ++ [c])
      (.invoke m e name.text (args.map (·.2)))
  | ofPrimary {ts : List Token} {e : Expr} : Phrase .primary ts e → Phrase .chained ts e
  | literal {t : Token} {m : Mark} {value : Literal} :
    literal? t = some (.ok value) → Phrase .primary [t] (.literal m value)
  | receiver {t : Token} {m : Mark} : t.kind = .thisKw → Phrase .primary [t] (.receiver m)
  | name {t : Token} {m : Mark} :
    t.kind = .identifier → Phrase .primary [t] (.variable m t.text)
  | create {ts : List Token} {t type o c : Token} {m : Mark} {name : TypeName}
    {args : List (List Token × Expr)} :
    t.kind = .newKw → typeOf? type = some name → o.kind = .leftParen →
    (∀ a ∈ args, Phrase (.level levels) a.1 a.2) → Separated (args.map (·.1)) ts →
    c.kind = .rightParen →
    Phrase .primary (t :: type :: o :: ts ++ [c]) (.create m name (args.map (·.2)))
  | parenthesized {ts : List Token} {o c : Token} {e : Expr} :
    o.kind = .leftParen → Phrase (.level levels) ts e → c.kind = .rightParen →
    Phrase .primary (o :: ts ++ [c]) e

abbrev Expression : List Token → Expr → Prop :=
  Phrase (.level levels)

inductive Optional {α : Type} (P : List Token → α → Prop) : List Token → Option α → Prop where
  | none : Optional P [] none
  | some {ts : List Token} {a : α} : P ts a → Optional P ts (some a)

inductive Simple : List Token → Stmt → Prop where
  | evaluate {ts : List Token} {loc : Location} {e : Expr} :
    Expression ts e → Simple ts (.evaluate loc e)
  | assign {ts vs : List Token} {t : Token} {loc : Location} {target value : Expr}
    {op : Option BinaryOp} :
    Expression ts target → target.isTarget → assignmentOp? t.kind = some op →
    Expression vs value → Simple (ts ++ t :: vs) (.assign loc target op value)

inductive Initializer : List Token → Option Expr → Prop where
  | none : Initializer [] none
  | some {vs : List Token} {t : Token} {value : Expr} :
    t.kind = .assign → Expression vs value → Initializer (t :: vs) (some value)

inductive VariableHead : List Token → Stmt → Prop where
  | inferred {vs : List Token} {word name t : Token} {loc : Location} {value : Expr} :
    word.kind = .varKw → name.kind = .identifier → t.kind = .assign → Expression vs value →
    VariableHead (word :: name :: t :: vs) (.variable loc name.text none (some value))
  | typed {vs : List Token} {type name : Token} {loc : Location} {t : TypeName}
    {init : Option Expr} :
    typeOf? type = some t → name.kind = .identifier → Initializer vs init →
    VariableHead (type :: name :: vs) (.variable loc name.text (some t) init)

inductive Start : List Token → Stmt → Prop where
  | declaration {ts : List Token} {s : Stmt} : VariableHead ts s → Start ts s
  | simple {ts : List Token} {s : Stmt} : Simple ts s → Start ts s

inductive HeaderParts : List Token → Header → Prop where
  | parts {is cs us : List Token} {first second : Token} {init update : Option Stmt}
    {condition : Option Expr} :
    Optional Start is init → first.kind = .semicolon → Optional Expression cs condition →
    second.kind = .semicolon → Optional Simple us update →
    HeaderParts (is ++ first :: cs ++ second :: us) (init, condition, update)

inductive LoopHeader (loose : Bool) : List Token → Header → Prop where
  | parenthesized {ts : List Token} {o c : Token} {header : Header} :
    o.kind = .leftParen → HeaderParts ts header → c.kind = .rightParen →
    LoopHeader loose (o :: ts ++ [c]) header
  | bare {ts : List Token} {header : Header} :
    loose → HeaderParts ts header → LoopHeader loose ts header

inductive Part where
  | statement
  | sequence
  | block
  | body

inductive Written (loose : Bool) : Part → List Token → List Stmt → Prop where
  | declaration {ts : List Token} {semicolon : Token} {s : Stmt} :
    VariableHead ts s → semicolon.kind = .semicolon →
    Written loose .statement (ts ++ [semicolon]) [s]
  | constant {vs : List Token} {word type name t semicolon : Token} {loc : Location}
    {tn : TypeName} {value : Expr} :
    word.kind = .constKw → typeOf? type = some tn → name.kind = .identifier → t.kind = .assign →
    Expression vs value → semicolon.kind = .semicolon →
    Written loose .statement (word :: type :: name :: t :: vs ++ [semicolon])
      [.constant loc name.text tn value]
  | branch {cs bs : List Token} {word : Token} {loc : Location} {condition : Expr}
    {body : List Stmt} :
    word.kind = .ifKw → Expression cs condition → Written loose .body bs body →
    Written loose .statement (word :: cs ++ bs) [.branch loc condition body none]
  | branchElse {cs bs es : List Token} {word otherwise : Token} {loc : Location}
    {condition : Expr} {body other : List Stmt} :
    word.kind = .ifKw → Expression cs condition → Written loose .body bs body →
    otherwise.kind = .elseKw → Written loose .body es other →
    Written loose .statement (word :: cs ++ bs ++ otherwise :: es)
      [.branch loc condition body (some other)]
  | whileLoop {cs bs : List Token} {word : Token} {loc : Location} {condition : Expr}
    {body : List Stmt} :
    word.kind = .whileKw → Expression cs condition → Written loose .body bs body →
    Written loose .statement (word :: cs ++ bs) [.whileLoop loc condition body]
  | forLoop {hs bs : List Token} {word : Token} {loc : Location} {init update : Option Stmt}
    {condition : Option Expr} {body : List Stmt} :
    word.kind = .forKw → LoopHeader loose hs (init, condition, update) →
    Written loose .body bs body →
    Written loose .statement (word :: hs ++ bs) [.forLoop loc init condition update body]
  | result {vs : List Token} {word semicolon : Token} {loc : Location} {value : Option Expr} :
    word.kind = .returnKw → Optional Expression vs value → semicolon.kind = .semicolon →
    Written loose .statement (word :: vs ++ [semicolon]) [.result loc value]
  | breakLoop {word semicolon : Token} {loc : Location} :
    word.kind = .breakKw → semicolon.kind = .semicolon →
    Written loose .statement [word, semicolon] [.breakLoop loc]
  | continueLoop {word semicolon : Token} {loc : Location} :
    word.kind = .continueKw → semicolon.kind = .semicolon →
    Written loose .statement [word, semicolon] [.continueLoop loc]
  | simple {ts : List Token} {semicolon : Token} {s : Stmt} :
    Simple ts s → semicolon.kind = .semicolon → Written loose .statement (ts ++ [semicolon]) [s]
  | inner {ts : List Token} {loc : Location} {body : List Stmt} :
    Written loose .block ts body → Written loose .statement ts [.block loc body]
  | nil : Written loose .sequence [] []
  | cons {ts us : List Token} {s : Stmt} {rest : List Stmt} :
    Written loose .statement ts [s] → Written loose .sequence us rest →
    Written loose .sequence (ts ++ us) (s :: rest)
  | braces {ts : List Token} {o c : Token} {body : List Stmt} :
    o.kind = .leftBrace → Written loose .sequence ts body → c.kind = .rightBrace →
    Written loose .block (o :: ts ++ [c]) body
  | braced {ts : List Token} {body : List Stmt} :
    Written loose .block ts body → Written loose .body ts body
  | single {ts : List Token} {s : Stmt} :
    loose → Written loose .statement ts [s] → Written loose .body ts [s]

inductive Parameter : List Token → Param → Prop where
  | parameter {type name : Token} {t : TypeName} {loc : Location} :
    typeOf? type = some t → name.kind = .identifier → Parameter [type, name] ⟨name.text, t, loc⟩

inductive Parameters : List Token → List Param → Prop where
  | separated {ts : List Token} {params : List (List Token × Param)} :
    (∀ p ∈ params, Parameter p.1 p.2) → Separated (params.map (·.1)) ts →
    Parameters ts (params.map (·.2))

inductive RoutineRest (loose : Bool) : List Token → List Param → List Stmt → Prop where
  | rest {ps bs : List Token} {o c : Token} {params : List Param} {body : List Stmt} :
    o.kind = .leftParen → Parameters ps params → c.kind = .rightParen →
    Written loose .block bs body → RoutineRest loose (o :: ps ++ c :: bs) params body

inductive WrittenRoutine (loose : Bool) (isStatic : Bool) : List Token → Stmt → Prop where
  | routine {rs : List Token} {type name : Token} {loc : Location} {returns : TypeName}
    {params : List Param} {body : List Stmt} :
    typeOf? type = some returns → name.kind = .identifier → RoutineRest loose rs params body →
    WrittenRoutine loose isStatic (type :: name :: rs)
      (.routine loc name.text params returns isStatic body)

inductive WrittenMember (loose : Bool) : List Token → Member → Prop where
  | field {vs : List Token} {type name semicolon : Token} {loc : Location} {t : TypeName}
    {init : Option Expr} :
    typeOf? type = some t → name.kind = .identifier → Initializer vs init →
    semicolon.kind = .semicolon →
    WrittenMember loose (type :: name :: vs ++ [semicolon])
      (.field ⟨name.text, t, init, false, loc⟩)
  -- A constant has a value.
  | constant {vs : List Token} {word type name t semicolon : Token} {loc : Location}
    {tn : TypeName} {value : Expr} :
    word.kind = .constKw → typeOf? type = some tn → name.kind = .identifier → t.kind = .assign →
    Expression vs value → semicolon.kind = .semicolon →
    WrittenMember loose (word :: type :: name :: t :: vs ++ [semicolon])
      (.field ⟨name.text, tn, some value, true, loc⟩)
  | method {ts : List Token} {s : Stmt} :
    WrittenRoutine loose false ts s → WrittenMember loose ts (.method s)
  | staticMethod {ts : List Token} {word : Token} {s : Stmt} :
    word.kind = .staticKw → WrittenRoutine loose true ts s →
    WrittenMember loose (word :: ts) (.method s)

inductive Sequence {α : Type} (P : List Token → α → Prop) : List Token → List α → Prop where
  | nil : Sequence P [] []
  | cons {ts us : List Token} {a : α} {rest : List α} :
    P ts a → Sequence P us rest → Sequence P (ts ++ us) (a :: rest)

-- What can stand at top level. All routines are static there, whether they say so or not.
inductive WrittenItem (loose : Bool) : List Token → Stmt → Prop where
  | classDef {ms : List Token} {word name o c : Token} {loc : Location} {members : List Member} :
    word.kind = .classKw → name.kind = .identifier → o.kind = .leftBrace →
    Sequence (WrittenMember loose) ms members → c.kind = .rightBrace →
    WrittenItem loose (word :: name :: o :: ms ++ [c])
      (.classDef loc name.text (members.filterMap (·.field?)) (members.filterMap (·.method?)))
  | routine {ts : List Token} {s : Stmt} : WrittenRoutine loose true ts s → WrittenItem loose ts s
  | staticRoutine {ts : List Token} {word : Token} {s : Stmt} :
    word.kind = .staticKw → WrittenRoutine loose true ts s → WrittenItem loose (word :: ts) s
  | statement {ts : List Token} {s : Stmt} :
    Written loose .statement ts [s] → WrittenItem loose ts s

abbrev WrittenItems (loose : Bool) : List Token → Items → Prop :=
  Sequence (WrittenItem loose)

end Lumen.Grammar
