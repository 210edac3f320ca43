import Lox.Tree.Basic

namespace Lox

structure ScopeId where
  index : Nat
  deriving DecidableEq, Repr, Inhabited

structure InstanceId where
  index : Nat
  deriving DecidableEq, Repr, Inhabited

inductive NativeFunction where
  | clock
  deriving DecidableEq, Repr

namespace NativeFunction

def all : List NativeFunction := [clock]

def name : NativeFunction → String
  | clock => "clock"

def arity : NativeFunction → Nat
  | clock => 0

end NativeFunction

structure Closure where
  identity : Nat
  declaration : FunctionDecl
  scope : ScopeId
  /-- A call yields the instance that the function is bound to. -/
  isInitializer : Bool
  deriving Inhabited

namespace Closure

def name (c : Closure) : String := c.declaration.name.lexeme

def arity (c : Closure) : Nat := c.declaration.params.length

end Closure

/-- A class. Of methods with one name the first in the list counts. -/
inductive Class where
  | mk (identity : Nat) (name : String) (superclass? : Option Class)
      (methods : List (String × Closure))
  deriving Inhabited

namespace Class

def identity : Class → Nat
  | mk identity _ _ _ => identity

def name : Class → String
  | mk _ name _ _ => name

def superclass? : Class → Option Class
  | mk _ _ superclass? _ => superclass?

def methods : Class → List (String × Closure)
  | mk _ _ _ methods => methods

def findMethod? (name : String) : Class → Option Closure
  | mk _ _ none methods => methods.lookup name
  | mk _ _ (some superclass) methods =>
    match methods.lookup name with
    | some method => some method
    | none => findMethod? name superclass

def arity (c : Class) : Nat :=
  match c.findMethod? initializerName with
  | some method => method.arity
  | none => 0

/-- The scopes that the methods of the class and of its superclasses close over. -/
def scopes : Class → List ScopeId
  | mk _ _ none methods => methods.map (·.2.scope)
  | mk _ _ (some superclass) methods => methods.map (·.2.scope) ++ scopes superclass

end Class

inductive Value where
  | nil
  | bool (value : Bool)
  | number (value : Float)
  | string (text : String)
  | native (function : NativeFunction)
  | closure (function : Closure)
  | class (type : Class)
  | instance (id : InstanceId) (type : Class)
  deriving Inhabited

namespace Value

def ofConstant : Constant → Value
  | .number value => number value
  | .string text => string text
  | .bool value => bool value
  | .nil => nil

def isTruthy : Value → Bool
  | nil => false
  | bool value => value
  | _ => true

/-- Equality: of one kind, and by identity for functions, classes and instances. A number that is
    not a number equals nothing. -/
def equals : Value → Value → Bool
  | nil, nil => true
  | bool a, bool b => a == b
  | number a, number b => a == b
  | string a, string b => a == b
  | native a, native b => a.name == b.name
  | closure a, closure b => a.identity == b.identity
  | .class a, .class b => a.identity == b.identity
  | .instance a _, .instance b _ => a.index == b.index
  | _, _ => false

def text : Value → String
  | nil => "nil"
  | bool true => "true"
  | bool false => "false"
  | number value => NumberStyle.printed.write value
  | string text => text
  | native function => "<native fn " ++ function.name ++ ">"
  | closure function => "<fn " ++ function.name ++ ">"
  | .class type => "<class " ++ type.name ++ ">"
  | .instance _ type => "<" ++ type.name ++ " instance>"

end Value
end Lox
