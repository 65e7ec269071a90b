import Lumen.Proofs.Grammar.Programs

namespace Lumen.Grammar

open List

open Token (Kind)

def Writable : Literal → Prop
  | .int n => 0 ≤ n ∧ n.toNat < Nat.pow 2 63
  | .float x => ∃ text : String, Double.read? (floatDigits text) = some x
  | .string _ | .bool _ | .null => True

def tokenOf (kind : Kind) (text : String) : Token :=
  ⟨kind, text, .none⟩

def wordOf (kind : Kind) : Token :=
  tokenOf kind ""

theorem kind_wordOf (kind : Kind) : (wordOf kind).kind = kind :=
  rfl

theorem splitSign_digits (h : cs ≠ [] ∧ ∀ d ∈ cs, d.isDigit) (more : List Char) :
    splitSign (cs ++ more) = (false, cs ++ more) := by
  obtain ⟨d, ds, rfl⟩ := exists_cons_of_ne_nil h.1
  have hd := h.2 d mem_cons_self
  unfold splitSign
  split
  case h_1 heq =>
    cases heq
    contradiction
  case h_2 heq =>
    cases heq
    contradiction
  case h_3 => rfl

theorem readInt64?_digits (h : cs ≠ [] ∧ ∀ d ∈ cs, d.isDigit) :
    readInt64? cs = if Nat.ofDigitChars 10 cs 0 < Nat.pow 2 63
      then some (Nat.ofDigitChars 10 cs 0 : Int) else none := by
  have hsign := splitSign_digits h []
  rw [append_nil] at hsign
  have hall : cs.all Char.isDigit := all_eq_true.mpr h.2
  simp only [readInt64?, hsign, isEmpty_eq_false_iff.mpr h.1, hall]
  rfl

theorem readInt64?_toDigits (h : n < Nat.pow 2 63) :
    readInt64? (Nat.toDigits 10 n) = some (n : Int) := by
  have hvalue : Nat.ofDigitChars 10 (Nat.toDigits 10 n) 0 = n :=
    Nat.ofDigitChars_toDigits (by decide) (by decide)
  rw [readInt64?_digits ⟨Nat.toDigits_ne_nil, fun c hc =>
    Nat.isDigit_of_mem_toDigits (by decide) (by decide) hc⟩, hvalue, if_pos h]

theorem exists_literal (h : Writable value) : ∃ t, literal? t = some (.ok value) := by
  cases value
  case int n =>
    obtain ⟨hn, hlt⟩ := h
    refine ⟨tokenOf .integer (String.ofList (Nat.toDigits 10 n.toNat)), ?_⟩
    simp [literal?, tokenOf, readInt64?_toDigits hlt, Int.toNat_of_nonneg hn]
  case float x =>
    obtain ⟨text, htext⟩ := h
    exact ⟨tokenOf .float text, by simp [literal?, tokenOf, htext]⟩
  case string text => exact ⟨tokenOf .string text, rfl⟩
  case bool b =>
    cases b
    case false => exact ⟨wordOf .falseKw, rfl⟩
    case true => exact ⟨wordOf .trueKw, rfl⟩
  case null => exact ⟨wordOf .nullKw, rfl⟩

theorem exists_typeOf? (type : TypeName) : ∃ t, typeOf? t = some type := by
  cases type
  case int => exact ⟨wordOf .intKw, rfl⟩
  case float => exact ⟨wordOf .floatKw, rfl⟩
  case string => exact ⟨wordOf .stringKw, rfl⟩
  case bool => exact ⟨wordOf .boolKw, rfl⟩
  case void => exact ⟨wordOf .voidKw, rfl⟩
  case named name => exact ⟨tokenOf .identifier name, rfl⟩

theorem Phrase.loosen (more : List Operators) (h : Phrase (.level tight) ts e) :
    Phrase (.level (more ++ tight)) ts e := by
  induction more
  case nil => exact h
  case cons ops more ih => exact .tighter ih

theorem Phrase.toExpression (hs : tight <:+ levels) (h : Phrase (.level tight) ts e) :
    Expression ts e := by
  obtain ⟨more, hm⟩ := hs
  rw [Expression, ← hm]
  exact h.loosen more

theorem Phrase.ofParts (h : Phrase .primary ts e) :
    Phrase .chained ts e ∧ Phrase .power ts e ∧ ∀ ops, Phrase (.level ops) ts e :=
  have hp := Phrase.ofChained (.ofPrimary h)
  ⟨.ofPrimary h, hp, fun ops => by simpa using (Phrase.ofPower hp).loosen ops⟩

theorem Expression.exists_primary (h : Expression ts e) : ∃ us, Phrase .primary us e :=
  ⟨_, .parenthesized (kind_wordOf .leftParen) h (kind_wordOf .rightParen)⟩

theorem exists_separated (parts : List (List Token)) : ∃ ts, Separated parts ts := by
  have further (parts : List (List Token)) : ∃ ts, Further parts ts := by
    induction parts
    case nil => exact ⟨_, .none⟩
    case cons part rest ih =>
      obtain ⟨ts, hts⟩ := ih
      exact ⟨_, .more (kind_wordOf .comma) hts⟩
  cases parts
  case nil => exact ⟨_, .none⟩
  case cons part rest =>
    obtain ⟨ts, hts⟩ := further rest
    exact ⟨_, .some hts⟩

theorem exists_level (op : BinaryOp) (h : op ≠ .pow) :
    ∃ ops tighter kind, ops :: tighter <:+ levels ∧ ops.lookup kind = some op := by
  have all : ∀ op ∈ BinaryOp.all, op = .pow ∨ ∃ i ∈ List.range 6,
      ∃ entry ∈ (levels.drop i).headD [], ((levels.drop i).headD []).lookup entry.1 = some op := by
    decide
  obtain h' | ⟨i, hi, entry, -, hlookup⟩ := all op op.mem_all
  · contradiction
  · refine ⟨(levels.drop i).headD [], (levels.drop i).tail, entry.1, ?_, hlookup⟩
    have hcons : (levels.drop i).headD [] :: (levels.drop i).tail = levels.drop i := by
      cases hd : levels.drop i
      case cons => rfl
      case nil => simp [hd] at hlookup
    exact hcons ▸ drop_suffix ..

mutual

theorem exists_primary (e : Expr) (hf : e.Formed fun _ => True)
    (hl : ∀ v ∈ e.literals, Writable v) : ∃ ts, Phrase .primary ts e := by
  cases e
  case literal value =>
    obtain ⟨t, ht⟩ := exists_literal (hl value (by simp [Expr.literals]))
    exact ⟨_, .literal ht⟩
  case «variable» name => exact ⟨_, .name (t := tokenOf .identifier name) rfl⟩
  case receiver => exact ⟨_, .receiver (t := wordOf .thisKw) rfl⟩
  case binary m op left right =>
    obtain ⟨hleft, hright⟩ := hf
    simp only [Expr.literals, mem_append, or_imp, forall_and] at hl
    obtain ⟨ls, hls⟩ := exists_primary left hleft hl.1
    obtain ⟨rs, hrs⟩ := exists_primary right hright hl.2
    by_cases hop : op = .pow
    case pos =>
      subst hop
      have hpower := Phrase.power (m := m) (t := wordOf .power) hls.ofParts.1 rfl hrs.ofParts.2.1
      exact (Phrase.toExpression nil_suffix (.ofPower hpower)).exists_primary
    case neg =>
      obtain ⟨ops, tighter, kind, hs, hlookup⟩ := exists_level op hop
      have hbinary := Phrase.binary (m := m) (t := wordOf kind) (hls.ofParts.2.2 _) hlookup
        (hrs.ofParts.2.2 tighter)
      exact (hbinary.toExpression hs).exists_primary
  case unary m op operand =>
    obtain ⟨ts, hts⟩ := exists_primary operand hf hl
    obtain ⟨kind, hkind⟩ : ∃ kind, unaryOp? kind = some op := by
      cases op
      case neg => exact ⟨.minus, rfl⟩
      case not => exact ⟨.not, rfl⟩
    have hunary := Phrase.unary (m := m) (t := wordOf kind) hkind (hts.ofParts.2.2 [])
    exact (Phrase.toExpression nil_suffix hunary).exists_primary
  case call m name args =>
    obtain ⟨parts, rfl, hparts⟩ := exists_args args hf.2 hl
    obtain ⟨ts, hts⟩ := exists_separated (parts.map (·.1))
    have hname : Phrase .primary [tokenOf .identifier name] (.variable m name) := .name rfl
    have hcall := Phrase.call (m := m) (o := wordOf .leftParen) (c := wordOf .rightParen)
      (.ofPrimary hname) rfl hparts hts rfl
    exact (Phrase.toExpression nil_suffix (.ofPower (.ofChained hcall))).exists_primary
  case invoke m object name args =>
    obtain ⟨hobject, -, hargs⟩ := hf
    simp only [Expr.literals, mem_append, or_imp, forall_and] at hl
    obtain ⟨es, hes⟩ := exists_primary object hobject hl.1
    obtain ⟨parts, rfl, hparts⟩ := exists_args args hargs hl.2
    obtain ⟨ts, hts⟩ := exists_separated (parts.map (·.1))
    have hinvoke : Phrase .chained (es ++ wordOf .dot :: tokenOf .identifier name ::
        wordOf .leftParen :: ts ++ [wordOf .rightParen])
        (.invoke m object name (parts.map (·.2))) :=
      .invoke hes.ofParts.1 rfl rfl rfl hparts hts rfl
    exact (Phrase.toExpression nil_suffix (.ofPower (.ofChained hinvoke))).exists_primary
  case member m object name =>
    obtain ⟨es, hes⟩ := exists_primary object hf.1 hl
    have hmember : Phrase .chained (es ++ [wordOf .dot, tokenOf .identifier name])
        (.member m object name) :=
      .member hes.ofParts.1 rfl rfl
    exact (Phrase.toExpression nil_suffix (.ofPower (.ofChained hmember))).exists_primary
  case create m type args =>
    obtain ⟨t, ht⟩ := exists_typeOf? type
    obtain ⟨parts, rfl, hparts⟩ := exists_args args hf.2 hl
    obtain ⟨ts, hts⟩ := exists_separated (parts.map (·.1))
    exact ⟨_, .create (t := wordOf .newKw) (o := wordOf .leftParen) (c := wordOf .rightParen) rfl ht
      rfl hparts hts rfl⟩
  case stray => contradiction

theorem exists_args (args : List Expr) (hf : FormedArgs (fun _ => True) args)
    (hl : ∀ v ∈ literalsOf args, Writable v) :
    ∃ parts : List (List Token × Expr), parts.map (·.2) = args ∧
      ∀ a ∈ parts, Expression a.1 a.2 := by
  cases args
  case nil => exact ⟨[], rfl, by simp⟩
  case cons e rest =>
    simp only [literalsOf, mem_append, or_imp, forall_and] at hl
    obtain ⟨ts, hts⟩ := exists_primary e hf.1 hl.1
    obtain ⟨parts, rfl, hparts⟩ := exists_args rest hf.2 hl.2
    exact ⟨(ts, e) :: parts, rfl, forall_mem_cons.mpr ⟨hts.ofParts.2.2 levels, hparts⟩⟩

end

theorem exists_expression {e : Expr} (hf : e.Formed fun _ => True)
    (hl : ∀ v ∈ e.literals, Writable v) : ∃ ts, Expression ts e := by
  obtain ⟨ts, hts⟩ := exists_primary e hf hl
  exact ⟨ts, hts.ofParts.2.2 levels⟩

theorem exists_optional (hf : FormedOption (fun _ => True) e)
    (hl : ∀ v ∈ literalsOfOption e, Writable v) : ∃ ts, Optional Expression ts e := by
  cases e
  case none => exact ⟨_, .none⟩
  case some e =>
    obtain ⟨ts, hts⟩ := exists_expression hf hl
    exact ⟨ts, .some hts⟩

theorem exists_initializer (hf : FormedOption (fun _ => True) e)
    (hl : ∀ v ∈ literalsOfOption e, Writable v) : ∃ ts, Initializer ts e := by
  cases e
  case none => exact ⟨_, .none⟩
  case some e =>
    obtain ⟨ts, hts⟩ := exists_expression hf hl
    exact ⟨_, .some (kind_wordOf .assign) hts⟩

theorem exists_variableHead {type : Option TypeName}
    (hf : (Stmt.variable loc name type init).Formed fun _ => True)
    (hl : ∀ v ∈ literalsOfOption init, Writable v) :
    ∃ ts, VariableHead ts (.variable loc name type init) := by
  obtain ⟨-, -, hinit, hone⟩ := hf
  cases type
  case none =>
    cases init
    case none => simp at hone
    case some value =>
      obtain ⟨vs, hvs⟩ := exists_expression hinit hl
      have hhead : VariableHead (wordOf .varKw :: tokenOf .identifier name :: wordOf .assign :: vs)
          (.variable loc name none (some value)) := .inferred rfl rfl rfl hvs
      exact ⟨_, hhead⟩
  case some t =>
    obtain ⟨type, ht⟩ := exists_typeOf? t
    obtain ⟨vs, hvs⟩ := exists_initializer hinit hl
    have hhead : VariableHead (type :: tokenOf .identifier name :: vs)
        (.variable loc name (some t) init) := .typed ht rfl hvs
    exact ⟨_, hhead⟩

theorem exists_simple {stmt : Stmt} (hu : stmt.isUpdate) (hf : stmt.Formed fun _ => True)
    (hl : ∀ v ∈ stmt.literals, Writable v) : ∃ ts, Simple ts stmt := by
  cases stmt
  case evaluate loc e =>
    obtain ⟨ts, hts⟩ := exists_expression hf hl
    exact ⟨ts, .evaluate hts⟩
  case assign loc target op value =>
    obtain ⟨htarget, hop, hft, hfv⟩ := hf
    simp only [Stmt.literals, mem_append, or_imp, forall_and] at hl
    obtain ⟨ts, hts⟩ := exists_expression hft hl.1
    obtain ⟨vs, hvs⟩ := exists_expression hfv hl.2
    obtain ⟨kind, hkind⟩ : ∃ kind, assignmentOp? kind = some op := by
      cases op
      case none => exact ⟨.assign, rfl⟩
      case some op =>
        have := hop op rfl
        cases op
        case add => exact ⟨.plusAssign, rfl⟩
        case sub => exact ⟨.minusAssign, rfl⟩
        case mul => exact ⟨.starAssign, rfl⟩
        case div => exact ⟨.slashAssign, rfl⟩
        case mod => exact ⟨.percentAssign, rfl⟩
        all_goals contradiction
    exact ⟨_, .assign (t := wordOf kind) hts htarget hkind hvs⟩
  all_goals contradiction

theorem exists_start {stmt : Stmt} (hs : stmt.isStart) (hf : stmt.Formed fun _ => True)
    (hl : ∀ v ∈ stmt.literals, Writable v) : ∃ ts, Start ts stmt := by
  by_cases hu : stmt.isUpdate
  case pos =>
    obtain ⟨ts, hts⟩ := exists_simple hu hf hl
    exact ⟨ts, .simple hts⟩
  case neg =>
    cases stmt
    case «variable» =>
      obtain ⟨ts, hts⟩ := exists_variableHead hf hl
      exact ⟨ts, .declaration hts⟩
    all_goals simp_all [Stmt.isStart, Stmt.isUpdate]

theorem exists_header (hs : ∀ s ∈ init, s.isStart) (hi : FormedStep (fun _ => True) init)
    (hc : FormedOption (fun _ => True) condition) (hup : ∀ s ∈ update, s.isUpdate)
    (hu : FormedStep (fun _ => True) update)
    (hl : ∀ v ∈ literalsInStep init ++ literalsOfOption condition ++ literalsInStep update, Writable
      v) :
    ∃ ts, LoopHeader false ts (init, condition, update) := by
  simp only [mem_append, or_imp, forall_and] at hl
  obtain ⟨⟨hli, hlc⟩, hlu⟩ := hl
  obtain ⟨is, his⟩ : ∃ ts, Optional Start ts init := by
    cases init
    case none => exact ⟨_, .none⟩
    case some stmt =>
      obtain ⟨ts, hts⟩ := exists_start (hs stmt rfl) hi hli
      exact ⟨ts, .some hts⟩
  obtain ⟨cs, hcs⟩ := exists_optional hc hlc
  obtain ⟨us, hus⟩ : ∃ ts, Optional Simple ts update := by
    cases update
    case none => exact ⟨_, .none⟩
    case some stmt =>
      obtain ⟨ts, hts⟩ := exists_simple (hup stmt rfl) hu hlu
      exact ⟨ts, .some hts⟩
  have hparts := HeaderParts.parts his (kind_wordOf .semicolon) hcs (kind_wordOf .semicolon) hus
  exact ⟨_, .parenthesized (kind_wordOf .leftParen) hparts (kind_wordOf .rightParen)⟩

theorem Written.exists_body {ts : List Token} {body : List Stmt}
    (h : Written false .sequence ts body) : ∃ us, Written false .block us body :=
  ⟨_, .braces (kind_wordOf .leftBrace) h (kind_wordOf .rightBrace)⟩

mutual

theorem exists_statement (stmt : Stmt) (hf : stmt.Formed fun _ => True)
    (hl : ∀ v ∈ stmt.literals, Writable v) : ∃ ts, Written false .statement ts [stmt] := by
  cases stmt
  case classDef => contradiction
  case routine => contradiction
  case bare => contradiction
  case «variable» loc name type init =>
    obtain ⟨ts, hts⟩ := exists_variableHead hf hl
    exact ⟨_, .declaration hts (kind_wordOf .semicolon)⟩
  case constant loc name type value =>
    obtain ⟨t, ht⟩ := exists_typeOf? type
    obtain ⟨vs, hvs⟩ := exists_expression hf.2.2 hl
    have hconst : Written false .statement (wordOf .constKw :: t :: tokenOf .identifier name ::
        wordOf .assign :: vs ++ [wordOf .semicolon]) [.constant loc name type value] :=
      .constant rfl ht rfl rfl hvs rfl
    exact ⟨_, hconst⟩
  case block loc body =>
    obtain ⟨ts, hts⟩ := exists_sequence body hf hl
    obtain ⟨us, hus⟩ := hts.exists_body
    exact ⟨us, .inner hus⟩
  case assign loc target op value =>
    obtain ⟨ts, hts⟩ := exists_simple rfl hf hl
    exact ⟨_, .simple hts (kind_wordOf .semicolon)⟩
  case evaluate loc e =>
    obtain ⟨ts, hts⟩ := exists_simple rfl hf hl
    exact ⟨_, .simple hts (kind_wordOf .semicolon)⟩
  case result loc value =>
    obtain ⟨vs, hvs⟩ := exists_optional hf hl
    have hresult : Written false .statement (wordOf .returnKw :: vs ++ [wordOf .semicolon])
        [.result loc value] := .result rfl hvs rfl
    exact ⟨_, hresult⟩
  case breakLoop loc =>
    have hbreak : Written false .statement [wordOf .breakKw, wordOf .semicolon]
        [.breakLoop loc] := .breakLoop rfl rfl
    exact ⟨_, hbreak⟩
  case continueLoop loc =>
    have hcontinue : Written false .statement [wordOf .continueKw, wordOf .semicolon]
        [.continueLoop loc] := .continueLoop rfl rfl
    exact ⟨_, hcontinue⟩
  case branch loc condition thenBody elseBody =>
    obtain ⟨hc, ht, he⟩ := hf
    simp only [Stmt.literals, mem_append, or_imp, forall_and] at hl
    obtain ⟨⟨hlc, hlt⟩, hle⟩ := hl
    obtain ⟨cs, hcs⟩ := exists_expression hc hlc
    obtain ⟨ts, hts⟩ := exists_sequence thenBody ht hlt
    obtain ⟨bs, hbs⟩ := hts.exists_body
    cases elseBody
    case none =>
      have hbranch : Written false .statement (wordOf .ifKw :: cs ++ bs)
          [.branch loc condition thenBody none] := .branch rfl hcs (.braced hbs)
      exact ⟨_, hbranch⟩
    case some elseBody =>
      obtain ⟨us, hus⟩ := exists_sequence elseBody he hle
      obtain ⟨es, hes⟩ := hus.exists_body
      have hbranch : Written false .statement (wordOf .ifKw :: cs ++ bs ++ wordOf .elseKw :: es)
          [.branch loc condition thenBody (some elseBody)] :=
        .branchElse rfl hcs (.braced hbs) rfl (.braced hes)
      exact ⟨_, hbranch⟩
  case whileLoop loc condition body =>
    simp only [Stmt.literals, mem_append, or_imp, forall_and] at hl
    obtain ⟨cs, hcs⟩ := exists_expression hf.1 hl.1
    obtain ⟨ts, hts⟩ := exists_sequence body hf.2 hl.2
    obtain ⟨bs, hbs⟩ := hts.exists_body
    have hloop : Written false .statement (wordOf .whileKw :: cs ++ bs)
        [.whileLoop loc condition body] := .whileLoop rfl hcs (.braced hbs)
    exact ⟨_, hloop⟩
  case forLoop loc init condition update body =>
    obtain ⟨hs, hi, hc, hup, hu, hb⟩ := hf
    rw [Stmt.literals] at hl
    obtain ⟨hlh, hlb⟩ := forall_mem_append.mp hl
    obtain ⟨hs, hhs⟩ := exists_header hs hi hc hup hu hlh
    obtain ⟨ts, hts⟩ := exists_sequence body hb hlb
    obtain ⟨bs, hbs⟩ := hts.exists_body
    have hloop : Written false .statement (wordOf .forKw :: hs ++ bs)
        [.forLoop loc init condition update body] := .forLoop rfl hhs (.braced hbs)
    exact ⟨_, hloop⟩

theorem exists_sequence (body : List Stmt) (hf : FormedBody (fun _ => True) body)
    (hl : ∀ v ∈ literalsIn body, Writable v) : ∃ ts, Written false .sequence ts body := by
  cases body
  case nil => exact ⟨_, .nil⟩
  case cons stmt rest =>
    simp only [literalsIn, mem_append, or_imp, forall_and] at hl
    obtain ⟨ts, hts⟩ := exists_statement stmt hf.1 hl.1
    obtain ⟨us, hus⟩ := exists_sequence rest hf.2 hl.2
    exact ⟨_, .cons hts hus⟩

end

theorem exists_parameters (params : List Param) : ∃ ts, Parameters ts params := by
  obtain ⟨parts, hparams, hparts⟩ : ∃ parts : List (List Token × Param),
      parts.map (·.2) = params ∧ ∀ p ∈ parts, Parameter p.1 p.2 := by
    induction params
    case nil => exact ⟨[], rfl, by simp⟩
    case cons p rest ih =>
      obtain ⟨parts, hrest, hparts⟩ := ih
      obtain ⟨type, ht⟩ := exists_typeOf? p.type
      have hp : Parameter [type, tokenOf .identifier p.name] p := .parameter ht rfl
      exact ⟨([type, tokenOf .identifier p.name], p) :: parts, by rw [map_cons, hrest],
        forall_mem_cons.mpr ⟨hp, hparts⟩⟩
  obtain ⟨ts, hts⟩ := exists_separated (parts.map (·.1))
  exact ⟨ts, hparams ▸ .separated hparts hts⟩

theorem exists_routine {loc : Location} {name : String} {params : List Param} {returns : TypeName}
    {isStatic : Bool} {body : List Stmt} (hf : FormedBody (fun _ => True) body)
    (hl : ∀ v ∈ literalsIn body, Writable v) :
    ∃ ts, WrittenRoutine false isStatic ts (.routine loc name params returns isStatic body) := by
  obtain ⟨type, ht⟩ := exists_typeOf? returns
  obtain ⟨ps, hps⟩ := exists_parameters params
  obtain ⟨ts, hts⟩ := exists_sequence body hf hl
  obtain ⟨bs, hbs⟩ := hts.exists_body
  have hrest := RoutineRest.rest (kind_wordOf .leftParen) hps (kind_wordOf .rightParen) hbs
  have hroutine : WrittenRoutine false isStatic (type :: tokenOf .identifier name :: _)
      (.routine loc name params returns isStatic body) := .routine ht rfl hrest
  exact ⟨_, hroutine⟩

theorem exists_field {f : Field Expr} (hf : f.Formed fun _ => True)
    (hl : ∀ v ∈ literalsOfField f, Writable v) : ∃ ts, WrittenMember false ts (.field f) := by
  obtain ⟨name, tn, init, isConst, loc⟩ := f
  obtain ⟨-, -, hinit, hconst⟩ := hf
  obtain ⟨type, ht⟩ := exists_typeOf? tn
  cases isConst
  case false =>
    obtain ⟨vs, hvs⟩ := exists_initializer hinit hl
    have hfield : WrittenMember false (type :: tokenOf .identifier name :: vs ++
        [wordOf .semicolon]) (.field ⟨name, tn, init, false, loc⟩) := .field ht rfl hvs rfl
    exact ⟨_, hfield⟩
  case true =>
    obtain ⟨value, rfl⟩ := Option.isSome_iff_exists.mp (hconst rfl)
    obtain ⟨vs, hvs⟩ := exists_expression hinit hl
    have hfield : WrittenMember false (wordOf .constKw :: type :: tokenOf .identifier name ::
        wordOf .assign :: vs ++ [wordOf .semicolon])
        (.field ⟨name, tn, some value, true, loc⟩) := .constant rfl ht rfl rfl hvs rfl
    exact ⟨_, hfield⟩

theorem exists_method {m : Stmt} (hf : m.FormedRoutine fun _ => True)
    (hl : ∀ v ∈ m.literals, Writable v) : ∃ ts, WrittenMember false ts (.method m) := by
  cases m
  case routine loc name params returns isStatic body =>
    obtain ⟨ts, hts⟩ : ∃ ts, WrittenRoutine false isStatic ts
        (.routine loc name params returns isStatic body) := exists_routine hf.2.2.2 hl
    cases isStatic
    case false => exact ⟨ts, .method hts⟩
    case true => exact ⟨_, .staticMethod (kind_wordOf .staticKw) hts⟩
  all_goals contradiction

theorem exists_of_forall {α : Type} {P : List Token → α → Prop} {as : List α}
    (h : ∀ a ∈ as, ∃ ts, P ts a) : ∃ ts, Sequence P ts as := by
  induction as
  case nil => exact ⟨_, .nil⟩
  case cons a as ih =>
    obtain ⟨ha, has⟩ := forall_mem_cons.mp h
    obtain ⟨ts, hts⟩ := ha
    obtain ⟨us, hus⟩ := ih has
    exact ⟨_, .cons hts hus⟩

theorem literalsOfFields_eq (fields : List (Field Expr)) :
    literalsOfFields fields = fields.flatMap literalsOfField := by
  induction fields
  case nil => rfl
  case cons f rest ih => simp [literalsOfFields, ih]

theorem literalsIn_eq (body : List Stmt) : literalsIn body = body.flatMap Stmt.literals := by
  induction body
  case nil => rfl
  case cons s rest ih => simp [literalsIn, ih]

theorem exists_members {fields : List (Field Expr)} (hf : ∀ f ∈ fields, f.Formed fun _ => True)
    (hm : ∀ m ∈ methods, m.FormedRoutine fun _ => True)
    (hl : ∀ v ∈ literalsOfFields fields ++ literalsIn methods, Writable v) :
    ∃ ts members, Sequence (WrittenMember false) ts members ∧
      members.filterMap (·.field?) = fields ∧ members.filterMap (·.method?) = methods := by
  rw [literalsOfFields_eq, literalsIn_eq] at hl
  obtain ⟨hlf, hlm⟩ := forall_mem_append.mp hl
  obtain ⟨ts, hts⟩ : ∃ ts, Sequence (WrittenMember false) ts
      (fields.map .field ++ methods.map .method) := by
    refine exists_of_forall fun m hmem => ?_
    rcases mem_append.mp hmem with hmem | hmem
    · obtain ⟨f, hfield, rfl⟩ := mem_map.mp hmem
      exact exists_field (hf f hfield) fun v hv => hlf v (mem_flatMap.mpr ⟨f, hfield, hv⟩)
    · obtain ⟨m, hmethod, rfl⟩ := mem_map.mp hmem
      exact exists_method (hm m hmethod) fun v hv => hlm v (mem_flatMap.mpr ⟨m, hmethod, hv⟩)
  refine ⟨ts, _, hts, ?_, ?_⟩
  · simp [filterMap_map, Member.field?]
  · simp [filterMap_map, Member.method?]

theorem exists_item {item : Stmt} (hf : item.FormedItem fun _ => True)
    (hl : ∀ v ∈ item.literals, Writable v) : ∃ ts, WrittenItem false ts item := by
  cases item
  case classDef loc name fields methods =>
    obtain ⟨-, hfields, hmethods⟩ := hf
    obtain ⟨ms, members, hms, rfl, rfl⟩ := exists_members hfields hmethods hl
    have hclass : WrittenItem false (wordOf .classKw :: tokenOf .identifier name ::
        wordOf .leftBrace :: ms ++ [wordOf .rightBrace]) (.classDef loc name _ _) :=
      .classDef rfl rfl rfl hms rfl
    exact ⟨_, hclass⟩
  case routine loc name params returns isStatic body =>
    obtain ⟨rfl, -, -, -, hbody⟩ := hf
    obtain ⟨ts, hts⟩ := exists_routine hbody hl
    exact ⟨ts, .routine hts⟩
  all_goals
    obtain ⟨ts, hts⟩ := exists_statement _ hf hl
    exact ⟨ts, .statement hts⟩

end Grammar

namespace Parsed

open Grammar

-- Every program of the right form can be written with all bodies in braces and all headers of loops
-- in parentheses. However it is written so, it is read without a report and comes back, but for
-- numbers and places.
theorem ofTokens_printed (unit : Items) (hf : ∀ item ∈ unit, item.FormedItem fun _ => True)
    (hl : ∀ item ∈ unit, ∀ v ∈ item.literals, Writable v) :
    (∃ ts, WrittenItems false ts unit) ∧
    ∀ ts tail, WrittenItems false ts unit → (∀ t ∈ tail.head?, t.kind = .endMarker) →
      (ofTokens (ts ++ tail)).diagnostics = [] ∧
        (ofTokens (ts ++ tail)).items.map Stmt.unmarked = unit.map Stmt.unmarked := by
  refine ⟨exists_of_forall fun item hi => exists_item (hf item hi) (hl item hi), ?_⟩
  intro ts tail hts htail
  have hrest : (State.ofTokens (ts ++ tail)).cursor.rest = ts := by
    have hend := hts.carries.1
    rw [State.rest_ofTokens, List.takeWhile_append_of_pos (by simpa [NoEnd] using hend)]
    cases tail
    case nil => simp
    case cons t tail => simp [htail t rfl]
  obtain ⟨hquiet, hitems⟩ := items_gives hts [] hrest
  rw [unmarkedIn_eq, unmarkedIn_eq] at hitems
  exact ⟨List.reverse_eq_nil_iff.mpr hquiet, hitems⟩

-- The program `while (!false) x -= 2 ** x;`, with its body in braces.
theorem ofTokens_printed_loop :
    let unit : Items := [.whileLoop .first (.unary .blank .not (.literal .blank (.bool false)))
      [.assign .first (.variable .blank "x") (some .sub)
        (.binary .blank .pow (.literal .blank (.int 2)) (.variable .blank "x"))]]
    (∃ ts, WrittenItems false ts unit) ∧
    ∀ ts tail, WrittenItems false ts unit → (∀ t ∈ tail.head?, t.kind = .endMarker) →
      (ofTokens (ts ++ tail)).diagnostics = [] ∧
        (ofTokens (ts ++ tail)).items.map Stmt.unmarked = unit.map Stmt.unmarked := by
  refine ofTokens_printed _ ?_ ?_
  · simp [Stmt.FormedItem, Stmt.Formed, Expr.Formed, FormedBody, Expr.isTarget, BinaryOp.assigns]
  · simp [Stmt.literals, Expr.literals, literalsIn, Writable]

end Parsed
end Lumen
