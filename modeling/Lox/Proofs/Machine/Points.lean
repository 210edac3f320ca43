import Lox.Machine.Eval

namespace Lox

inductive Task where
  | expression (e : Expr)
  | expressions (es : List Expr)
  | call (callee : Value) (line : Nat) (arguments : List Value)
  | apply (function : Closure) (line : Nat) (arguments : List Value)
  | statement (s : Stmt)
  | statements (ss : List Stmt)
  | loop (condition : Expr) (body : Stmt)

structure Point where
  steps : Nat
  held : List Root
  task : Task
  machine : Machine

def Machine.withInstance (m : Machine) : Machine :=
  { m with
    store := m.store.newInstance.2
    ledger := m.ledger.track (.instance m.store.newInstance.1)
    depth := m.depth + 1 }

def Machine.withInitializer (m : Machine) (method : Closure) (type : Class) : Machine :=
  { m.withInstance with
    store := (m.store.newInstance.2.bind method m.store.newInstance.1 type).2 }

variable (config : Config)

/-- A point calls another one that runs in the same scope and is no statement. -/
inductive Inner : Point → Point → Prop where
  | grouping {n : Nat} {held : List Root} {m : Machine} {inner : Expr} :
      Inner ⟨n + 1, held, .expression (.grouping inner), m⟩ ⟨n, held, .expression inner, m⟩
  | unary {n : Nat} {held : List Root} {m : Machine} {operator : Token} {right : Expr} :
      Inner ⟨n + 1, held, .expression (.unary operator right), m⟩ ⟨n, held, .expression right, m⟩
  | binaryLeft {n : Nat} {held : List Root} {m : Machine} {left right : Expr} {operator : Token} :
      Inner ⟨n + 1, held, .expression (.binary left operator right), m⟩
        ⟨n, held, .expression left, m⟩
  | binaryRight {n : Nat} {held : List Root} {m m' : Machine} {left right : Expr}
      {operator : Token} {value : Value} (first : evaluate config n held left m = .done value m') :
      Inner ⟨n + 1, held, .expression (.binary left operator right), m⟩
        ⟨n, .value value :: held, .expression right, m'⟩
  | logicalLeft {n : Nat} {held : List Root} {m : Machine} {left right : Expr} {operator : Token} :
      Inner ⟨n + 1, held, .expression (.logical left operator right), m⟩
        ⟨n, held, .expression left, m⟩
  | logicalRight {n : Nat} {held : List Root} {m m' : Machine} {left right : Expr}
      {operator : Token} {value : Value} (first : evaluate config n held left m = .done value m')
      (undecided : decidesAlone operator value = false) :
      Inner ⟨n + 1, held, .expression (.logical left operator right), m⟩
        ⟨n, held, .expression right, m'⟩
  | assigned {n : Nat} {held : List Root} {m : Machine} {name : Token} {value : Expr}
      {distance : Distance} :
      Inner ⟨n + 1, held, .expression (.assign name value distance), m⟩
        ⟨n, held, .expression value, m⟩
  | callee {n : Nat} {held : List Root} {m : Machine} {callee : Expr} {paren : Token}
      {arguments : List Expr} :
      Inner ⟨n + 1, held, .expression (.call callee paren arguments), m⟩
        ⟨n, held, .expression callee, m⟩
  | arguments {n : Nat} {held : List Root} {m m' : Machine} {callee : Expr} {paren : Token}
      {arguments : List Expr} {value : Value}
      (first : evaluate config n held callee m = .done value m') :
      Inner ⟨n + 1, held, .expression (.call callee paren arguments), m⟩
        ⟨n, .value value :: held, .expressions arguments, m'⟩
  | call {n : Nat} {held : List Root} {m m' m'' : Machine} {callee : Expr} {paren : Token}
      {arguments : List Expr} {value : Value} {values : List Value}
      (first : evaluate config n held callee m = .done value m')
      (second : evaluateAll config n (.value value :: held) arguments m' = .done values m'') :
      Inner ⟨n + 1, held, .expression (.call callee paren arguments), m⟩
        ⟨n, .value value :: held, .call value paren.line values, m''⟩
  | getObject {n : Nat} {held : List Root} {m : Machine} {object : Expr} {name : Token} :
      Inner ⟨n + 1, held, .expression (.get object name), m⟩ ⟨n, held, .expression object, m⟩
  | setObject {n : Nat} {held : List Root} {m : Machine} {object value : Expr} {name : Token} :
      Inner ⟨n + 1, held, .expression (.set object name value), m⟩
        ⟨n, held, .expression object, m⟩
  | setValue {n : Nat} {held : List Root} {m m' : Machine} {object value : Expr} {name : Token}
      {id : InstanceId} {type : Class}
      (first : evaluate config n held object m = .done (.instance id type) m') :
      Inner ⟨n + 1, held, .expression (.set object name value), m⟩
        ⟨n, .value (.instance id type) :: held, .expression value, m'⟩
  | head {n : Nat} {held : List Root} {m : Machine} {e : Expr} {rest : List Expr} :
      Inner ⟨n + 1, held, .expressions (e :: rest), m⟩ ⟨n, held, .expression e, m⟩
  | tail {n : Nat} {held : List Root} {m m' : Machine} {e : Expr} {rest : List Expr} {value : Value}
      (first : evaluate config n held e m = .done value m') :
      Inner ⟨n + 1, held, .expressions (e :: rest), m⟩
        ⟨n, .value value :: held, .expressions rest, m'⟩
  | function {n : Nat} {held : List Root} {m : Machine} {function : Closure} {line : Nat}
      {arguments : List Value} (arity : arguments.length = function.arity)
      (room : m.depth < config.maxDepth) :
      Inner ⟨n + 1, held, .call (.closure function) line arguments, m⟩
        ⟨n, held, .apply function line arguments, { m with depth := m.depth + 1 }⟩
  | initializer {n : Nat} {held : List Root} {m : Machine} {type : Class} {line : Nat}
      {arguments : List Value} {method : Closure}
      (declared : type.findMethod? initializerName = some method)
      (arity : arguments.length = method.arity) (room : m.depth < config.maxDepth) :
      Inner ⟨n + 1, held, .call (.class type) line arguments, m⟩
        ⟨n, .value (.instance m.store.newInstance.1 type) :: held,
          .apply (m.store.newInstance.2.bind method m.store.newInstance.1 type).1 line arguments,
          m.withInitializer method type⟩
  | expression {n : Nat} {held : List Root} {m : Machine} {value : Expr} :
      Inner ⟨n + 1, held, .statement (.expression value), m⟩ ⟨n, held, .expression value, m⟩
  | print {n : Nat} {held : List Root} {m : Machine} {value : Expr} :
      Inner ⟨n + 1, held, .statement (.print value), m⟩ ⟨n, held, .expression value, m⟩
  | condition {n : Nat} {held : List Root} {m : Machine} {condition : Expr} {thenBranch : Stmt}
      {elseBranch? : Option Stmt} :
      Inner ⟨n + 1, held, .statement (.branch condition thenBranch elseBranch?), m⟩
        ⟨n, held, .expression condition, m⟩
  | returned {n : Nat} {held : List Root} {m : Machine} {keyword : Token} {value : Expr} :
      Inner ⟨n + 1, held, .statement (.returns keyword (some value)), m⟩
        ⟨n, held, .expression value, m⟩
  | loopCondition {n : Nat} {held : List Root} {m : Machine} {condition : Expr} {body : Stmt} :
      Inner ⟨n + 1, held, .loop condition body, m⟩ ⟨n, held, .expression condition, m⟩

def Machine.enterBlock (m : Machine) : Machine :=
  { m with
    store := (m.store.newScope (some m.scope) []).2
    scope := (m.store.newScope (some m.scope) []).1 }

def Machine.enterFunction (m : Machine) (function : Closure) (arguments : List Value) : Machine :=
  { m with
    store := (m.store.newScope (some function.scope)
      (Eval.parameterBindings function.declaration.params arguments)).2
    scope := (m.store.newScope (some function.scope)
      (Eval.parameterBindings function.declaration.params arguments)).1 }

inductive Calls : Point → Point → Prop where
  | inner {p q : Point} (inner : Inner config p q) : Calls p q
  | initial {n : Nat} {held : List Root} {m : Machine} {name : Token} {initializer : Expr} :
      Calls ⟨n + 1, held, .statement (.varDecl name (some initializer)), m⟩
        ⟨n, held, .expression initializer, m⟩
  | superclass {n : Nat} {held : List Root} {m : Machine} {name : Token} {superclass : Expr}
      {methods : List FunctionDecl} :
      Calls ⟨n + 1, held, .statement (.classDecl name (some superclass) methods), m⟩
        ⟨n, held, .expression superclass, m⟩
  | block {n : Nat} {held : List Root} {m : Machine} {body : List Stmt} :
      Calls ⟨n + 1, held, .statement (.block body), m⟩
        ⟨n, .scope m.scope :: held, .statements body, m.enterBlock⟩
  | body {n : Nat} {held : List Root} {m : Machine} {function : Closure} {line : Nat}
      {arguments : List Value} :
      Calls ⟨n + 1, held, .apply function line arguments, m⟩
        ⟨n, .scope m.scope :: .scope function.scope :: held,
          .statements function.declaration.body, m.enterFunction function arguments⟩
  | thenBranch {n : Nat} {held : List Root} {m m' : Machine} {condition : Expr}
      {thenBranch : Stmt} {elseBranch? : Option Stmt} {value : Value}
      (first : evaluate config n held condition m = .done value m')
      (truthy : value.isTruthy = true) :
      Calls ⟨n + 1, held, .statement (.branch condition thenBranch elseBranch?), m⟩
        ⟨n, held, .statement thenBranch, m'⟩
  | elseBranch {n : Nat} {held : List Root} {m m' : Machine} {condition : Expr}
      {thenBranch elseBranch : Stmt} {value : Value}
      (first : evaluate config n held condition m = .done value m')
      (falsy : value.isTruthy = false) :
      Calls ⟨n + 1, held, .statement (.branch condition thenBranch (some elseBranch)), m⟩
        ⟨n, held, .statement elseBranch, m'⟩
  | loop {n : Nat} {held : List Root} {m : Machine} {condition : Expr} {body : Stmt} :
      Calls ⟨n + 1, held, .statement (.loop condition body), m⟩ ⟨n, held, .loop condition body, m⟩
  | loopBody {n : Nat} {held : List Root} {m m' : Machine} {condition : Expr} {body : Stmt}
      {value : Value} (first : evaluate config n held condition m = .done value m')
      (truthy : value.isTruthy = true) :
      Calls ⟨n + 1, held, .loop condition body, m⟩ ⟨n, held, .statement body, m'⟩
  | loopAgain {n : Nat} {held : List Root} {m m' m'' : Machine} {condition : Expr} {body : Stmt}
      {value : Value} (first : evaluate config n held condition m = .done value m')
      (truthy : value.isTruthy = true) (second : execute config n held body m' = .done .normal m'') :
      Calls ⟨n + 1, held, .loop condition body, m⟩ ⟨n, held, .loop condition body, m''⟩
  | first {n : Nat} {held : List Root} {m : Machine} {s : Stmt} {rest : List Stmt} :
      Calls ⟨n + 1, held, .statements (s :: rest), m⟩ ⟨n, held, .statement s, m⟩
  | others {n : Nat} {held : List Root} {m m' : Machine} {s : Stmt} {rest : List Stmt}
      (first : execute config n held s m = .done .normal m') :
      Calls ⟨n + 1, held, .statements (s :: rest), m⟩ ⟨n, held, .statements rest, m'⟩

inductive BindsMethod : Point → Store → Closure → InstanceId → Class → Prop where
  | property {n : Nat} {held : List Root} {m m' : Machine} {object : Expr} {name : Token}
      {id : InstanceId} {type : Class} {method : Closure}
      (first : evaluate config n held object m = .done (.instance id type) m')
      (noField : (m'.store.fields? id).bind (·.lookup name.lexeme) = none)
      (declared : type.findMethod? name.lexeme = some method) :
      BindsMethod ⟨n + 1, held, .expression (.get object name), m⟩ m'.store method id type
  | super {n : Nat} {held : List Root} {m : Machine} {keyword name : Token} {distance : Nat}
      {superclass type : Class} {id : InstanceId} {method : Closure}
      (above : m.store.readAt m.scope distance "super" keyword.line = .ok (.class superclass))
      (receiver : m.store.readAt m.scope (distance - 1) "this" keyword.line =
        .ok (.instance id type))
      (declared : superclass.findMethod? name.lexeme = some method) :
      BindsMethod ⟨n + 1, held, .expression (.super keyword name (some distance)), m⟩ m.store
        method id type
  | initializer {n : Nat} {held : List Root} {m : Machine} {type : Class} {line : Nat}
      {arguments : List Value} {method : Closure}
      (declared : type.findMethod? initializerName = some method)
      (arity : arguments.length = method.arity) (room : m.depth < config.maxDepth) :
      BindsMethod ⟨n + 1, held, .call (.class type) line arguments, m⟩ m.store.newInstance.2 method
        m.store.newInstance.1 type

inductive Reaches (start : Point) : Point → Prop where
  | refl : Reaches start start
  | step {p q : Point} (before : Reaches start p) (calls : Calls config p q) : Reaches start q

end Lox
