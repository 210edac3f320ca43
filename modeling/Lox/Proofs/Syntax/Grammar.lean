import Lox.Tree.Parse

namespace Lox
namespace Grammar

open Parse (Level)

def constant : Literal → Constant
  | .number value => .number value
  | .string text => .string text

/-- What a rule for operators says: the rule of the operands, which are unary if there is none, the
    operators between them, and the tree of an operator. -/
structure Operation where
  operand? : Option Level
  operators : List TokenKind
  tree : Expr → Token → Expr → Expr

def operation : Level → Operation
  -- logic_or → logic_and ("or" logic_and)*
  | .or => ⟨some .and, [.orWord], .logical⟩
  -- logic_and → equality ("and" equality)*
  | .and => ⟨some .equality, [.andWord], .logical⟩
  -- equality → comparison (("!=" | "==") comparison)*
  | .equality => ⟨some .comparison, [.bangEqual, .equalEqual], .binary⟩
  -- comparison → term ((">" | ">=" | "<" | "<=") term)*
  | .comparison => ⟨some .term, [.greater, .greaterEqual, .less, .lessEqual], .binary⟩
  -- term → factor (("-" | "+") factor)*
  | .term => ⟨some .factor, [.minus, .plus], .binary⟩
  -- factor → unary (("/" | "*") unary)*
  | .factor => ⟨none, [.slash, .star], .binary⟩

theorem operation_eq (level : Level) :
    operation level = ⟨level.tighter?, level.operators, level.join⟩ := by
  cases level <;> rfl

def desugared (initializer? : Option Stmt) (condition? increment? : Option Expr) (body : Stmt) :
    Stmt :=
  let condition := condition?.getD (.literal (.bool true))
  match initializer?, increment? with
  | none, none => .loop condition body
  | none, some increment => .loop condition (.block [body, .expression increment])
  | some initializer, none => .block [initializer, .loop condition body]
  | some initializer, some increment =>
    .block [initializer, .loop condition (.block [body, .expression increment])]

theorem forLoop_eq (initializer? : Option Stmt) (condition? increment? : Option Expr)
    (body : Stmt) : Parse.forLoop initializer? condition? increment? body =
      desugared initializer? condition? increment? body := by
  cases initializer? <;> cases increment? <;> rfl

mutual

/-- `expression → (call ".")? name "=" expression | logic_or` -/
inductive Expression : List Token → Expr → Prop where
  | assign {name equals : Token} {ts : List Token} {value : Expr} (named : name.kind = .identifier)
      (assigns : equals.kind = .equal) (right : Expression ts value) :
      Expression (name :: equals :: ts) (.assign name value none)
  | set {ts us : List Token} {dot name equals : Token} {object value : Expr}
      (owner : Call ts object) (dotted : dot.kind = .dot) (named : name.kind = .identifier)
      (assigns : equals.kind = .equal) (right : Expression us value) :
      Expression (ts ++ dot :: name :: equals :: us) (.set object name value)
  | plain {ts : List Token} {e : Expr} (chained : Chain .or ts e) : Expression ts e

inductive Chain : Level → List Token → Expr → Prop where
  | one {level : Level} {ts : List Token} {e : Expr} (single : Operand level ts e) :
      Chain level ts e
  | more {level : Level} {ts us : List Token} {operator : Token} {left right : Expr}
      (before : Chain level ts left) (applied : operator.kind ∈ (operation level).operators)
      (last : Operand level us right) :
      Chain level (ts ++ operator :: us) ((operation level).tree left operator right)

inductive Operand : Level → List Token → Expr → Prop where
  | chain {level next : Level} {ts : List Token} {e : Expr}
      (tighter : (operation level).operand? = some next) (chained : Chain next ts e) :
      Operand level ts e
  | unary {level : Level} {ts : List Token} {e : Expr}
      (tightest : (operation level).operand? = none) (single : Unary ts e) : Operand level ts e

/-- `unary → ("!" | "-") unary | call` -/
inductive Unary : List Token → Expr → Prop where
  | operator {operator : Token} {ts : List Token} {right : Expr}
      (sign : operator.kind = .bang ∨ operator.kind = .minus) (operand : Unary ts right) :
      Unary (operator :: ts) (.unary operator right)
  | call {ts : List Token} {e : Expr} (called : Call ts e) : Unary ts e

/-- `call → primary ("(" arguments ")" | "." name)*` -/
inductive Call : List Token → Expr → Prop where
  | primary {ts : List Token} {e : Expr} (atom : Primary ts e) : Call ts e
  | call {ts us : List Token} {opening paren : Token} {callee : Expr} {arguments : List Expr}
      (called : Call ts callee) (opens : opening.kind = .leftParen) (given : Arguments us arguments)
      (few : arguments.length ≤ 8) (closes : paren.kind = .rightParen) :
      Call (ts ++ opening :: (us ++ [paren])) (.call callee paren arguments)
  | get {ts : List Token} {dot name : Token} {object : Expr} (owner : Call ts object)
      (dotted : dot.kind = .dot) (named : name.kind = .identifier) :
      Call (ts ++ [dot, name]) (.get object name)

/-- `arguments → (expression ("," expression)*)?` -/
inductive Arguments : List Token → List Expr → Prop where
  | none : Arguments [] []
  | some {ts : List Token} {es : List Expr} (given : ArgumentList ts es) : Arguments ts es

/-- `expression ("," expression)*` -/
inductive ArgumentList : List Token → List Expr → Prop where
  | one {ts : List Token} {e : Expr} (given : Expression ts e) : ArgumentList ts [e]
  | more {ts us : List Token} {comma : Token} {e : Expr} {es : List Expr} (given : Expression ts e)
      (separated : comma.kind = .comma) (others : ArgumentList us es) :
      ArgumentList (ts ++ comma :: us) (e :: es)

/-- `primary → literal | "super" "." name | "this" | name | "(" expression ")"` -/
inductive Primary : List Token → Expr → Prop where
  | no {token : Token} (kind : token.kind = .falseWord) : Primary [token] (.literal (.bool false))
  | yes {token : Token} (kind : token.kind = .trueWord) : Primary [token] (.literal (.bool true))
  | nil {token : Token} (kind : token.kind = .nilWord) : Primary [token] (.literal .nil)
  | literal {token : Token} {value : Literal} (kind : token.kind = .number ∨ token.kind = .string)
      (valued : token.literal? = some value) : Primary [token] (.literal (constant value))
  | super {keyword dot method : Token} (kind : keyword.kind = .superWord) (dotted : dot.kind = .dot)
      (named : method.kind = .identifier) :
      Primary [keyword, dot, method] (.super keyword method none)
  | this {keyword : Token} (kind : keyword.kind = .thisWord) :
      Primary [keyword] (.this keyword none)
  | variable {name : Token} (kind : name.kind = .identifier) : Primary [name] (.variable name none)
  | grouping {opening closing : Token} {ts : List Token} {inner : Expr}
      (opens : opening.kind = .leftParen) (within : Expression ts inner)
      (closes : closing.kind = .rightParen) :
      Primary (opening :: (ts ++ [closing])) (.grouping inner)

end

/-- `expression?` -/
inductive Optional : List Token → Option Expr → Prop where
  | none : Optional [] none
  | some {ts : List Token} {e : Expr} (given : Expression ts e) : Optional ts (some e)

/-- `variable → "var" name ("=" expression)? ";"` -/
inductive Variable : List Token → Stmt → Prop where
  | bare {keyword name semicolon : Token} (kind : keyword.kind = .varWord)
      (named : name.kind = .identifier) (ends : semicolon.kind = .semicolon) :
      Variable [keyword, name, semicolon] (.varDecl name none)
  | initialized {keyword name equals semicolon : Token} {ts : List Token} {value : Expr}
      (kind : keyword.kind = .varWord) (named : name.kind = .identifier)
      (assigns : equals.kind = .equal) (right : Expression ts value)
      (ends : semicolon.kind = .semicolon) :
      Variable (keyword :: name :: equals :: (ts ++ [semicolon])) (.varDecl name (some value))

/-- `name ("," name)*` -/
inductive ParameterList : List Token → List Token → Prop where
  | one {param : Token} (named : param.kind = .identifier) : ParameterList [param] [param]
  | more {param comma : Token} {ts params : List Token} (named : param.kind = .identifier)
      (separated : comma.kind = .comma) (others : ParameterList ts params) :
      ParameterList (param :: comma :: ts) (param :: params)

/-- `parameters → (name ("," name)*)?` -/
inductive Parameters : List Token → List Token → Prop where
  | none : Parameters [] []
  | some {ts params : List Token} (given : ParameterList ts params) : Parameters ts params

/-- What a loop with clauses starts with: `variable | expression ";" | ";"`. -/
inductive Initializer : List Token → Option Stmt → Prop where
  | none {semicolon : Token} (ends : semicolon.kind = .semicolon) : Initializer [semicolon] none
  | variable {ts : List Token} {s : Stmt} (declared : Variable ts s) : Initializer ts (some s)
  | expression {ts : List Token} {e : Expr} {semicolon : Token} (given : Expression ts e)
      (ends : semicolon.kind = .semicolon) :
      Initializer (ts ++ [semicolon]) (some (.expression e))

mutual

/-- `declaration → class | "fun" function | variable | statement` -/
inductive Declaration (nearest : Prop) : List Token → Stmt → Prop where
  | class {keyword name opening closing : Token} {ts : List Token} {methods : List FunctionDecl}
      (kind : keyword.kind = .classWord) (named : name.kind = .identifier)
      (opens : opening.kind = .leftBrace) (inside : Methods nearest ts methods)
      (closes : closing.kind = .rightBrace) :
      Declaration nearest (keyword :: name :: opening :: (ts ++ [closing]))
        (.classDecl name none methods)
  | subclass {keyword name less superclass opening closing : Token} {ts : List Token}
      {methods : List FunctionDecl} (kind : keyword.kind = .classWord)
      (named : name.kind = .identifier) (extends' : less.kind = .less)
      (above : superclass.kind = .identifier) (opens : opening.kind = .leftBrace)
      (inside : Methods nearest ts methods) (closes : closing.kind = .rightBrace) :
      Declaration nearest (keyword :: name :: less :: superclass :: opening :: (ts ++ [closing]))
        (.classDecl name (some (.variable superclass none)) methods)
  | function {keyword : Token} {ts : List Token} {declaration : FunctionDecl}
      (kind : keyword.kind = .funWord) (declared : Function nearest ts declaration) :
      Declaration nearest (keyword :: ts) (.functionDecl declaration)
  | variable {ts : List Token} {s : Stmt} (declared : Variable ts s) : Declaration nearest ts s
  | statement {dangling : Bool} {ts : List Token} {s : Stmt}
      (plain : Statement nearest dangling ts s) : Declaration nearest ts s

/-- `declaration*` -/
inductive Declarations (nearest : Prop) : List Token → List Stmt → Prop where
  | nil : Declarations nearest [] []
  | cons {ts us : List Token} {s : Stmt} {ss : List Stmt} (first : Declaration nearest ts s)
      (others : Declarations nearest us ss) : Declarations nearest (ts ++ us) (s :: ss)

/-- `function*` -/
inductive Methods (nearest : Prop) : List Token → List FunctionDecl → Prop where
  | nil : Methods nearest [] []
  | cons {ts us : List Token} {method : FunctionDecl} {methods : List FunctionDecl}
      (first : Function nearest ts method) (others : Methods nearest us methods) :
      Methods nearest (ts ++ us) (method :: methods)

/-- `function → name "(" parameters ")" "{" declaration* "}"` -/
inductive Function (nearest : Prop) : List Token → FunctionDecl → Prop where
  | mk {name opening closing brace finish : Token} {ps ts : List Token} {params : List Token}
      {body : List Stmt} (named : name.kind = .identifier) (opens : opening.kind = .leftParen)
      (given : Parameters ps params) (few : params.length ≤ 8)
      (closes : closing.kind = .rightParen) (starts : brace.kind = .leftBrace)
      (inside : Declarations nearest ts body) (finishes : finish.kind = .rightBrace) :
      Function nearest (name :: opening :: (ps ++ closing :: brace :: (ts ++ [finish])))
        (.mk name params body)

/-- `statement → expression ";" | for | if | "print" expression ";" | "return" expression? ";"
    | "while" "(" expression ")" statement | "{" declaration* "}"`. A statement that ends in a
    choice without an alternative is left dangling. -/
inductive Statement (nearest : Prop) : Bool → List Token → Stmt → Prop where
  | expression {ts : List Token} {semicolon : Token} {value : Expr} (given : Expression ts value)
      (ends : semicolon.kind = .semicolon) :
      Statement nearest false (ts ++ [semicolon]) (.expression value)
  | print {keyword semicolon : Token} {ts : List Token} {value : Expr}
      (kind : keyword.kind = .printWord) (given : Expression ts value)
      (ends : semicolon.kind = .semicolon) :
      Statement nearest false (keyword :: (ts ++ [semicolon])) (.print value)
  | returns {keyword semicolon : Token} {ts : List Token} {value? : Option Expr}
      (kind : keyword.kind = .returnWord) (given : Optional ts value?)
      (ends : semicolon.kind = .semicolon) :
      Statement nearest false (keyword :: (ts ++ [semicolon])) (.returns keyword value?)
  | loop {dangling : Bool} {keyword opening closing : Token} {ts us : List Token} {condition : Expr}
      {body : Stmt} (kind : keyword.kind = .whileWord) (opens : opening.kind = .leftParen)
      (tested : Expression ts condition) (closes : closing.kind = .rightParen)
      (repeated : Statement nearest dangling us body) :
      Statement nearest dangling (keyword :: opening :: (ts ++ closing :: us))
        (.loop condition body)
  | block {opening closing : Token} {ts : List Token} {body : List Stmt}
      (opens : opening.kind = .leftBrace) (inside : Declarations nearest ts body)
      (closes : closing.kind = .rightBrace) :
      Statement nearest false (opening :: (ts ++ [closing])) (.block body)
  | forLoop {dangling : Bool} {keyword opening semicolon closing : Token}
      {is cs ns us : List Token} {initializer? : Option Stmt} {condition? increment? : Option Expr}
      {body : Stmt} (kind : keyword.kind = .forWord) (opens : opening.kind = .leftParen)
      (initial : Initializer is initializer?) (tested : Optional cs condition?)
      (ends : semicolon.kind = .semicolon) (counted : Optional ns increment?)
      (closes : closing.kind = .rightParen) (repeated : Statement nearest dangling us body) :
      Statement nearest dangling
        (keyword :: opening :: (is ++ (cs ++ semicolon :: (ns ++ closing :: us))))
        (desugared initializer? condition? increment? body)
  | branch {dangling : Bool} {keyword opening closing : Token} {ts us : List Token}
      {condition : Expr} {thenBranch : Stmt} (kind : keyword.kind = .ifWord)
      (opens : opening.kind = .leftParen) (tested : Expression ts condition)
      (closes : closing.kind = .rightParen) (first : Statement nearest dangling us thenBranch) :
      Statement nearest true (keyword :: opening :: (ts ++ closing :: us))
        (.branch condition thenBranch none)
  | choice {inner dangling : Bool} {keyword opening closing word : Token} {ts us vs : List Token}
      {condition : Expr} {thenBranch elseBranch : Stmt} (kind : keyword.kind = .ifWord)
      (opens : opening.kind = .leftParen) (tested : Expression ts condition)
      (closes : closing.kind = .rightParen) (first : Statement nearest inner us thenBranch)
      (whole : nearest → inner = false) (otherwise : word.kind = .elseWord)
      (second : Statement nearest dangling vs elseBranch) :
      Statement nearest dangling (keyword :: opening :: (ts ++ closing :: (us ++ word :: vs)))
        (.branch condition thenBranch (some elseBranch))

end

end Grammar
end Lox
