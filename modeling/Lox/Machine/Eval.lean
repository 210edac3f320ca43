import Lox.Machine.Basic
import Lox.Machine.Operators

namespace Lox

/-- How a statement ends. -/
inductive Flow where
  | normal
  /-- A `return` leaves the statements around it, up to the call. -/
  | returned (value : Value)

namespace Flow

def roots : Flow → List Root
  | normal => []
  | returned value => [.value value]

def result : Flow → Value
  | normal => .nil
  | returned value => value

end Flow

namespace Eval

def lookUp (name : Token) (distance : Distance) : Eval Value := fun m =>
  match distance with
  | some distance => ofExcept (m.store.readAt m.scope distance name.lexeme name.line) m
  | none => ofExcept (m.store.read m.globals name.lexeme name.line) m

def setStore (result : Except Fault Store) : Eval Unit := fun m =>
  match result with
  | .ok store => .done () { m with store := store }
  | .error fault => .failed fault m

def assign (name : Token) (distance : Distance) (value : Value) : Eval Unit := fun m =>
  match distance with
  | some distance => setStore (m.store.assignAt m.scope distance name.lexeme value name.line) m
  | none => setStore (m.store.assign m.globals name.lexeme value name.line) m

def define (name : Token) (value : Value) : Eval Unit := fun m =>
  .done () { m with store := m.store.define m.scope name.lexeme value }

def innerScope (bindings : Bindings) : Eval ScopeId := fun m =>
  onStore (·.newScope (some m.scope) bindings) m

def close (scope : ScopeId) (declaration : FunctionDecl) (isInitializer : Bool) : Eval Closure :=
  onStore (·.close scope declaration isInitializer)

def property (id : InstanceId) (type : Class) (name : Token) : Eval Value := fun m =>
  match m.store.property id type name.lexeme name.line with
  | .ok (value, store) => .done value { m with store := store }
  | .error fault => .failed fault m

/-- A method found from the superclass on, bound to the instance of the enclosing method. That
    instance is `this` in the scope just inside the one that holds `super`. -/
def superMethod (keyword method : Token) (distance : Distance) : Eval Value := do
  match distance with
  | none => broken .superOutsideClass keyword.line
  | some distance => do
    let m ← get
    match ← ofExcept (m.store.readAt m.scope distance "super" keyword.line) with
    | .class superclass =>
      match ← ofExcept (m.store.readAt m.scope (distance - 1) "this" keyword.line) with
      | .instance id type =>
        match superclass.findMethod? method.lexeme with
        | some found => do
          let bound ← onStore (·.bind found id type)
          pure (.closure bound)
        | none => broken (.undefinedProperty method.lexeme) method.line
      | _ => broken .superOutsideMethod keyword.line
    | _ => broken .superclassNotClass keyword.line

def readClock (config : Config) : Eval Value :=
  update fun m => (.number (config.clock m.readings), { m with readings := m.readings + 1 })

def newInstance : Eval InstanceId := fun m =>
  let (id, store) := m.store.newInstance
  .done id { m with store := store, ledger := m.ledger.track (.instance id) }

def invoke (config : Config) (line arity count : Nat) (call : Eval Value) : Eval Value :=
  -- The number of arguments is looked at before the depth.
  if count = arity then fun m =>
    if m.depth < config.maxDepth then asCall call m else .failed (.stackOverflow line) m
  else broken (.wrongArity arity count) line

/-- Runs a body in a scope made for it; however it ends, the program is then back in the scope where
    it was, which is held meanwhile. -/
def activation (config : Config) (held : List Root) (scope : ScopeId)
    (body : List Root → Eval Flow) : Eval Flow := fun m =>
  match body (.scope m.scope :: held) { m with scope := scope } with
  | .done flow m' => .done flow (Machine.leave config (flow.roots ++ held) m.scope m')
  -- Nothing is returned after a fault, so only what was held before stays a root.
  | .failed fault m' => .failed fault (Machine.leave config held m.scope m')
  | .unfinished => .unfinished

def parameterBindings (params : List Token) (arguments : List Value) : Bindings :=
  (params.zip arguments).foldl
    (fun bound (param, value) => Bindings.put param.lexeme value bound) []

def closeMethods (scope : ScopeId) (found : List (String × Closure)) :
    List FunctionDecl → Eval (List (String × Closure))
  | [] => pure found
  | method :: rest => do
    let name := method.name.lexeme
    let closure ← close scope method (name == initializerName)
    closeMethods scope ((name, closure) :: found) rest

/-- Declares a class. Its name is bound before its methods are made; the methods of a subclass close
    over a scope that holds `super`. -/
def declareClass (name : Token) (superclass? : Option Class) (methods : List FunctionDecl) :
    Eval Unit := do
  define name .nil
  let m ← get
  let scope ←
    match superclass? with
    | some superclass => innerScope [("super", .class superclass)]
    | none => pure m.scope
  let methods ← closeMethods scope [] methods
  let identity ← onStore Store.newIdentity
  -- The state again: making the methods has changed the store.
  let m ← get
  setStore (m.store.assign m.scope name.lexeme
    (.class (.mk identity name.lexeme superclass? methods)) name.line)

def superclassLine (name : Token) : Expr → Nat
  | .variable superclass _ => superclass.line
  | _ => name.line

end Eval

open Eval

mutual

def evaluate (config : Config) (steps : Nat) (held : List Root) (e : Expr) : Eval Value :=
  match steps with
  | 0 => cutOff
  | steps + 1 =>
    match e with
    | .literal value => pure (.ofConstant value)
    | .grouping inner => evaluate config steps held inner
    | .unary operator right => do
      let right ← evaluate config steps held right
      ofExcept (applyUnary operator right)
    | .binary left operator right => do
      let left ← evaluate config steps held left
      let right ← evaluate config steps (.value left :: held) right
      ofExcept (applyBinary operator left right)
    | .logical left operator right => do
      let left ← evaluate config steps held left
      if decidesAlone operator left then pure left else evaluate config steps held right
    | .variable name distance => lookUp name distance
    | .assign name value distance => do
      let value ← evaluate config steps held value
      Eval.assign name distance value
      pure value
    | .call callee paren arguments => do
      let callee ← evaluate config steps held callee
      let arguments ← evaluateAll config steps (.value callee :: held) arguments
      call config steps (.value callee :: held) callee paren.line arguments
    | .get object name => do
      match ← evaluate config steps held object with
      | .instance id type => property id type name
      | _ => broken .noProperties name.line
    | .set object name value => do
      match ← evaluate config steps held object with
      | .instance id type =>
        -- Nothing but this computation may hold the instance while the value is evaluated.
        let value ← evaluate config steps (.value (.instance id type) :: held) value
        onStore fun store => (value, store.setField id name.lexeme value)
      | _ => broken .noFields name.line
    | .this keyword distance => lookUp keyword distance
    | .super keyword method distance => superMethod keyword method distance

def evaluateAll (config : Config) (steps : Nat) (held : List Root) (es : List Expr) :
    Eval (List Value) :=
  match steps with
  | 0 => cutOff
  | steps + 1 =>
    match es with
    | [] => pure []
    | e :: rest => do
      let value ← evaluate config steps held e
      let values ← evaluateAll config steps (.value value :: held) rest
      pure (value :: values)

def call (config : Config) (steps : Nat) (held : List Root) (callee : Value) (line : Nat)
    (arguments : List Value) : Eval Value :=
  match steps with
  | 0 => cutOff
  | steps + 1 =>
    match callee with
    | .native .clock =>
      invoke config line NativeFunction.clock.arity arguments.length (readClock config)
    | .closure function =>
      invoke config line function.arity arguments.length
        (apply config steps held function line arguments)
    | .class type =>
      invoke config line type.arity arguments.length do
        let id ← newInstance
        match type.findMethod? initializerName with
        | some method =>
          -- Applied, not called: the initializer does not count as a second active call.
          let bound ← onStore (·.bind method id type)
          let _ ← apply config steps (.value (.instance id type) :: held) bound line arguments
          pure (.instance id type)
        | none => pure (.instance id type)
    | _ => broken .notCallable line

def apply (config : Config) (steps : Nat) (held : List Root) (function : Closure) (line : Nat)
    (arguments : List Value) : Eval Value :=
  match steps with
  | 0 => cutOff
  | steps + 1 => do
    let scope ← onStore
      (·.newScope (some function.scope) (parameterBindings function.declaration.params arguments))
    let flow ← activation config (.scope function.scope :: held) scope fun held =>
      executeAll config steps held function.declaration.body
    if function.isInitializer then do
      -- Whatever the body returned, the scope it closes over holds the instance.
      let m ← get
      ofExcept (m.store.readAt function.scope 0 "this" line)
    else pure flow.result

def execute (config : Config) (steps : Nat) (held : List Root) (s : Stmt) : Eval Flow :=
  match steps with
  | 0 => cutOff
  | steps + 1 =>
    match s with
    | .expression value => do
      let _ ← evaluate config steps held value
      pure .normal
    | .print value => do
      let value ← evaluate config steps held value
      Machine.write config (value.text.push '\n').toUTF8
      pure .normal
    | .varDecl name none => do
      define name .nil
      pure .normal
    | .varDecl name (some initializer) => do
      let value ← evaluate config steps held initializer
      define name value
      pure .normal
    | .block body => do
      let scope ← innerScope []
      activation config held scope fun held => executeAll config steps held body
    | .branch condition thenBranch elseBranch? => do
      let condition ← evaluate config steps held condition
      if condition.isTruthy then execute config steps held thenBranch
      else
        match elseBranch? with
        | some elseBranch => execute config steps held elseBranch
        | none => pure .normal
    | .loop condition body => repeatWhile config steps held condition body
    | .functionDecl declaration => do
      let m ← get
      let function ← close m.scope declaration false
      define declaration.name (.closure function)
      pure .normal
    | .returns _ none => pure (.returned .nil)
    | .returns _ (some value) => do
      let value ← evaluate config steps held value
      pure (.returned value)
    | .classDecl name none methods => do
      declareClass name none methods
      pure .normal
    | .classDecl name (some superclass) methods => do
      match ← evaluate config steps held superclass with
      | .class type =>
        declareClass name (some type) methods
        pure .normal
      | _ => broken .superclassNotClass (superclassLine name superclass)

def executeAll (config : Config) (steps : Nat) (held : List Root) (ss : List Stmt) : Eval Flow :=
  match steps with
  | 0 => cutOff
  | steps + 1 =>
    match ss with
    | [] => pure .normal
    | s :: rest => do
      match ← execute config steps held s with
      | .normal => executeAll config steps held rest
      | .returned value => pure (.returned value)

def repeatWhile (config : Config) (steps : Nat) (held : List Root) (condition : Expr)
    (body : Stmt) : Eval Flow :=
  match steps with
  | 0 => cutOff
  | steps + 1 => do
    let value ← evaluate config steps held condition
    if value.isTruthy then
      match ← execute config steps held body with
      | .normal => repeatWhile config steps held condition body
      | .returned value => pure (.returned value)
    else pure .normal

end

/-- Carries out the statements of a program one after the other, whatever they return. -/
def executeProgram (config : Config) (steps : Nat) (held : List Root) :
    List Stmt → Eval Unit
  | [] => pure ()
  | s :: rest => do
    let _ ← execute config steps held s
    executeProgram config steps held rest

/-- Runs a program from the top level. After a fault the rest of it is not carried out, and the
    globals keep what they have. -/
def interpret (config : Config) (steps : Nat) (held : List Root) (program : List Stmt) :
    Eval Unit := do
  update fun m => ((), m.atRest)
  executeProgram config steps held program
  update fun m => ((), m.pause config held)

end Lox
