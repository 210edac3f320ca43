import Lox.Diagnostic
import Lox.Tree.Basic

namespace Lox

namespace Resolve

/-- The names declared in a scope so far, the newest first, with whether they are already defined:
    between declaration and definition of a variable lies its initializer. -/
abbrev Names := List (String × Bool)

inductive FunctionContext where
  | none
  | function
  | method
  | initializer
  deriving DecidableEq, Repr

inductive ClassContext where
  | none
  | base
  | subclass
  deriving DecidableEq, Repr

structure Context where
  function : FunctionContext
  enclosing : ClassContext
  deriving DecidableEq, Repr

def Context.topLevel : Context := ⟨.none, .none⟩

def Names.declares (names : Names) (name : String) : Bool := (names.lookup name).isSome

def distance? (scopes : List Names) (name : String) : Distance :=
  scopes.findIdx? (·.declares name)

/-- The slot of a use of `name`. A name that no scope has declared leaves its slot as it was. -/
def bind (scopes : List Names) (name : Token) (slot : Distance) : Distance :=
  (distance? scopes name.lexeme).or slot

/-- Declares `name` in the innermost scope, unless that has declared it before. Globals are not
    declared. -/
def declare (scopes : List Names) (name : Token) : List Names × List BindingError :=
  match scopes with
  | [] => ([], [])
  | names :: outer =>
    if names.declares name.lexeme then (names :: outer, [⟨.alreadyDeclared, name⟩])
    else (((name.lexeme, false) :: names) :: outer, [])

def define (scopes : List Names) (name : Token) : List Names :=
  match scopes with
  | [] => []
  -- The newer entry hides the one of the declaration.
  | names :: outer => ((name.lexeme, true) :: names) :: outer

def introduce (scopes : List Names) (name : Token) : List Names × List BindingError :=
  let (scopes, errors) := declare scopes name
  (define scopes name, errors)

def introduceAll (scopes : List Names) : List Token → List Names × List BindingError
  | [] => (scopes, [])
  | name :: rest =>
    let (scopes, errors) := introduce scopes name
    let (scopes, more) := introduceAll scopes rest
    (scopes, errors ++ more)

/-- The error of reading `name`, if the innermost scope is just about to define it. -/
def readErrors (scopes : List Names) (name : Token) : List BindingError :=
  match scopes with
  | [] => []
  | names :: _ =>
    if names.lookup name.lexeme = some false then [⟨.readInOwnInitializer, name⟩] else []

def superErrors (context : ClassContext) (keyword : Token) : List BindingError :=
  match context with
  | .none => [⟨.superOutsideClass, keyword⟩]
  | .base => [⟨.superWithoutSuperclass, keyword⟩]
  | .subclass => []

def returnErrors (context : FunctionContext) (keyword : Token) (hasValue : Bool) :
    List BindingError :=
  match context with
  | .none => [⟨.returnOutsideFunction, keyword⟩]
  | .initializer => if hasValue then [⟨.returnFromInitializer, keyword⟩] else []
  | .function | .method => []

def inheritanceErrors (name : Token) (superclass : Expr) : List BindingError :=
  match superclass with
  | .variable parent _ =>
    if parent.lexeme = name.lexeme then [⟨.inheritsFromItself, parent⟩] else []
  | _ => []

def methodContext (name : Token) : FunctionContext :=
  if name.lexeme = initializerName then .initializer else .method

/-- The scopes that the methods of a class see: one with `this`, and around it one with `super` if
    the class has a superclass. -/
def classScopes (scopes : List Names) (hasSuperclass : Bool) : List Names :=
  [("this", true)] :: if hasSuperclass then [("super", true)] :: scopes else scopes

variable (context : Context) (scopes : List Names)

mutual

def expression : Expr → Expr × List BindingError
  | .literal value => (.literal value, [])
  | .grouping inner =>
    let (inner, errors) := expression inner
    (.grouping inner, errors)
  | .unary operator right =>
    let (right, errors) := expression right
    (.unary operator right, errors)
  | .binary left operator right =>
    let (left, errors) := expression left
    let (right, more) := expression right
    (.binary left operator right, errors ++ more)
  | .logical left operator right =>
    let (left, errors) := expression left
    let (right, more) := expression right
    (.logical left operator right, errors ++ more)
  | .variable name slot => (.variable name (bind scopes name slot), readErrors scopes name)
  | .assign name value slot =>
    let (value, errors) := expression value
    (.assign name value (bind scopes name slot), errors)
  | .call callee paren arguments =>
    let (callee, errors) := expression callee
    let (arguments, more) := expressions arguments
    (.call callee paren arguments, errors ++ more)
  | .get object name =>
    let (object, errors) := expression object
    (.get object name, errors)
  | .set object name value =>
    -- The value comes first here, though it is evaluated last.
    let (value, errors) := expression value
    let (object, more) := expression object
    (.set object name value, errors ++ more)
  | .this keyword slot =>
    match context.enclosing with
    | .none => (.this keyword slot, [⟨.thisOutsideClass, keyword⟩])
    | _ => (.this keyword (bind scopes keyword slot), [])
  | .super keyword method slot =>
    match superErrors context.enclosing keyword with
    | [] => (.super keyword method (bind scopes keyword slot), [])
    | errors => (.super keyword method slot, errors)

def expressions : List Expr → List Expr × List BindingError
  | [] => ([], [])
  | first :: rest =>
    let (first, errors) := expression first
    let (rest, more) := expressions rest
    (first :: rest, errors ++ more)

end

def optionalExpression : Option Expr → Option Expr × List BindingError
  | none => (none, [])
  | some value =>
    let (value, errors) := expression context scopes value
    (some value, errors)

structure Walked (α : Type) where
  tree : α
  scopes : List Names
  errors : List BindingError

mutual

def statement (context : Context) (scopes : List Names) : Stmt → Walked Stmt
  | .expression value =>
    let (value, errors) := expression context scopes value
    ⟨.expression value, scopes, errors⟩
  | .print value =>
    let (value, errors) := expression context scopes value
    ⟨.print value, scopes, errors⟩
  | .varDecl name initializer? =>
    let (scopes, errors) := declare scopes name
    let (initializer?, more) := optionalExpression context scopes initializer?
    ⟨.varDecl name initializer?, define scopes name, errors ++ more⟩
  | .block body =>
    let body := statements context ([] :: scopes) body
    ⟨.block body.tree, scopes, body.errors⟩
  | .branch condition thenBranch none =>
    let (condition, errors) := expression context scopes condition
    let thenBranch := statement context scopes thenBranch
    ⟨.branch condition thenBranch.tree none, thenBranch.scopes, errors ++ thenBranch.errors⟩
  | .branch condition thenBranch (some elseBranch) =>
    let (condition, errors) := expression context scopes condition
    let thenBranch := statement context scopes thenBranch
    let elseBranch := statement context thenBranch.scopes elseBranch
    ⟨.branch condition thenBranch.tree (some elseBranch.tree), elseBranch.scopes,
      errors ++ thenBranch.errors ++ elseBranch.errors⟩
  | .loop condition body =>
    let (condition, errors) := expression context scopes condition
    let body := statement context scopes body
    ⟨.loop condition body.tree, body.scopes, errors ++ body.errors⟩
  | .functionDecl (.mk name params body) =>
    let (scopes, errors) := introduce scopes name
    let (declaration, more) :=
      function { context with function := .function } scopes (.mk name params body)
    ⟨.functionDecl declaration, scopes, errors ++ more⟩
  | .returns keyword value? =>
    let (resolved?, errors) := optionalExpression context scopes value?
    ⟨.returns keyword resolved?, scopes,
      returnErrors context.function keyword value?.isSome ++ errors⟩
  | .classDecl name none declared =>
    let (scopes, errors) := introduce scopes name
    let (declared, more) :=
      methods { context with enclosing := .base } (classScopes scopes false) declared
    ⟨.classDecl name none declared, scopes, errors ++ more⟩
  | .classDecl name (some superclass) declared =>
    let (scopes, errors) := introduce scopes name
    let context := { context with enclosing := .subclass }
    -- A class that names itself is an error, and the name is resolved all the same.
    let (resolved, inherited) := expression context scopes superclass
    let (declared, more) := methods context (classScopes scopes true) declared
    ⟨.classDecl name (some resolved) declared, scopes,
      errors ++ inheritanceErrors name superclass ++ inherited ++ more⟩

def statements (context : Context) (scopes : List Names) : List Stmt → Walked (List Stmt)
  | [] => ⟨[], scopes, []⟩
  | first :: rest =>
    let first := statement context scopes first
    let rest := statements context first.scopes rest
    ⟨first.tree :: rest.tree, rest.scopes, first.errors ++ rest.errors⟩

def methods (context : Context) (scopes : List Names) :
    List FunctionDecl → List FunctionDecl × List BindingError
  | [] => ([], [])
  | .mk name params body :: rest =>
    let (first, errors) :=
      function { context with function := methodContext name } scopes (.mk name params body)
    let (rest, more) := methods context scopes rest
    (first :: rest, errors ++ more)

def function (context : Context) (scopes : List Names) :
    FunctionDecl → FunctionDecl × List BindingError
  | .mk name params body =>
    let (scopes, errors) := introduceAll ([] :: scopes) params
    let body := statements context scopes body
    (.mk name params body.tree, errors ++ body.errors)

end

end Resolve

/-- Resolves a program: its tree with all slots filled, and the errors in the order of the walk. -/
def resolve (program : List Stmt) : List Stmt × List BindingError :=
  let walked := Resolve.statements .topLevel [] program
  (walked.tree, walked.errors)

def resolveExpression (e : Expr) : Expr × List BindingError :=
  Resolve.expression .topLevel [] e

end Lox
