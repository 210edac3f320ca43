import Lox.Token.Basic

namespace Lox

inductive Constant where
  | number (value : Float)
  | string (text : String)
  | bool (value : Bool)
  | nil
  deriving Inhabited, Repr

/-- How many scopes out from its use a name is bound; unknown for a global, and as long as nothing
    has resolved the name. -/
abbrev Distance := Option Nat

inductive Expr where
  | literal (value : Constant)
  | unary (operator : Token) (right : Expr)
  | binary (left : Expr) (operator : Token) (right : Expr)
  | logical (left : Expr) (operator : Token) (right : Expr)
  | grouping (inner : Expr)
  | variable (name : Token) (distance : Distance)
  | assign (name : Token) (value : Expr) (distance : Distance)
  | call (callee : Expr) (paren : Token) (arguments : List Expr)
  | get (object : Expr) (name : Token)
  | set (object : Expr) (name : Token) (value : Expr)
  | this (keyword : Token) (distance : Distance)
  | super (keyword : Token) (method : Token) (distance : Distance)
  deriving Inhabited, Repr

mutual

inductive Stmt where
  | expression (value : Expr)
  | print (value : Expr)
  | varDecl (name : Token) (initializer? : Option Expr)
  | block (statements : List Stmt)
  | branch (condition : Expr) (thenBranch : Stmt) (elseBranch? : Option Stmt)
  | loop (condition : Expr) (body : Stmt)
  | functionDecl (declaration : FunctionDecl)
  | returns (keyword : Token) (value? : Option Expr)
  | classDecl (name : Token) (superclass? : Option Expr) (methods : List FunctionDecl)

inductive FunctionDecl where
  | mk (name : Token) (params : List Token) (body : List Stmt)

end

instance : Inhabited Stmt := ⟨.block []⟩

namespace FunctionDecl

def name : FunctionDecl → Token
  | mk name _ _ => name

def params : FunctionDecl → List Token
  | mk _ params _ => params

def body : FunctionDecl → List Stmt
  | mk _ _ body => body

end FunctionDecl

instance : Inhabited FunctionDecl := ⟨.mk default [] []⟩

def initializerName : String := "init"

end Lox
