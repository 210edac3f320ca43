import Std.Data.TreeMap
import Lox.Fault

namespace Lox

abbrev Bindings := List (String × Value)

def Bindings.put (name : String) (value : Value) : Bindings → Bindings
  | [] => [(name, value)]
  | (key, old) :: rest =>
    if key = name then (key, value) :: rest else (key, old) :: put name value rest

structure Scope where
  bindings : Bindings
  enclosing? : Option ScopeId
  /-- A function has been created in the scope or inside it, and may outlive it. -/
  captured : Bool
  deriving Inhabited

structure Store where
  scopes : Std.TreeMap Nat Scope
  instances : Std.TreeMap Nat Bindings
  /-- Nothing has got this number, nor any above it. -/
  next : Nat

namespace Store

def empty : Store := ⟨∅, ∅, 0⟩

def scope? (s : Store) (id : ScopeId) : Option Scope := s.scopes[id.index]?

def fields? (s : Store) (id : InstanceId) : Option Bindings := s.instances[id.index]?

def newIdentity (s : Store) : Nat × Store := (s.next, { s with next := s.next + 1 })

def newScope (s : Store) (enclosing? : Option ScopeId) (bindings : Bindings) : ScopeId × Store :=
  (⟨s.next⟩,
    { s with scopes := s.scopes.insert s.next ⟨bindings, enclosing?, false⟩, next := s.next + 1 })

def newInstance (s : Store) : InstanceId × Store :=
  (⟨s.next⟩, { s with instances := s.instances.insert s.next [], next := s.next + 1 })

def free (s : Store) (id : ScopeId) : Store := { s with scopes := s.scopes.erase id.index }

def define (s : Store) (id : ScopeId) (name : String) (value : Value) : Store :=
  { s with
    scopes := s.scopes.modify id.index fun scope =>
      { scope with bindings := Bindings.put name value scope.bindings } }

def setField (s : Store) (id : InstanceId) (name : String) (value : Value) : Store :=
  { s with instances := s.instances.modify id.index (Bindings.put name value) }

/-- The scope around `id`, if there is one. It is older than the scope inside it. -/
def outward? (s : Store) (id : ScopeId) : Option { parent : ScopeId // parent.index < id.index } :=
  match (s.scope? id).bind Scope.enclosing? with
  | none => none
  -- Every scope is made inside an older one; the test is only there so that walks outward end.
  | some parent => if h : parent.index < id.index then some ⟨parent, h⟩ else none

def local? (s : Store) (id : ScopeId) (name : String) : Option Value :=
  (s.scope? id).bind fun scope => scope.bindings.lookup name

def owner? (s : Store) (id : ScopeId) (name : String) : Option ScopeId :=
  match s.local? id name with
  | some _ => some id
  | none =>
    match s.outward? id with
    | some ⟨parent, _⟩ => s.owner? parent name
    | none => none
termination_by id.index

def ancestor? (s : Store) (id : ScopeId) : Nat → Option ScopeId
  | 0 => some id
  | distance + 1 =>
    match s.outward? id with
    | some ⟨parent, _⟩ => s.ancestor? parent distance
    | none => none

def ownerAt? (s : Store) (id : ScopeId) (distance : Nat) (name : String) : Option ScopeId :=
  (s.ancestor? id distance).bind fun scope => (s.local? scope name).map fun _ => scope

def undefined (name : String) (line : Nat) : Fault := .broken (.undefinedVariable name) line

def read (s : Store) (id : ScopeId) (name : String) (line : Nat) : Except Fault Value :=
  match (s.owner? id name).bind (s.local? · name) with
  | some value => .ok value
  | none => .error (undefined name line)

def readAt (s : Store) (id : ScopeId) (distance : Nat) (name : String) (line : Nat) :
    Except Fault Value :=
  match (s.ownerAt? id distance name).bind (s.local? · name) with
  | some value => .ok value
  | none => .error (undefined name line)

/-- Assigns to `name` in the nearest scope that binds it; nothing is ever declared this way. -/
def assign (s : Store) (id : ScopeId) (name : String) (value : Value) (line : Nat) :
    Except Fault Store :=
  match s.owner? id name with
  | some owner => .ok (s.define owner name value)
  | none => .error (undefined name line)

def assignAt (s : Store) (id : ScopeId) (distance : Nat) (name : String) (value : Value)
    (line : Nat) : Except Fault Store :=
  match s.ownerAt? id distance name with
  | some owner => .ok (s.define owner name value)
  | none => .error (undefined name line)

/-- Marks a scope, and all around it, as captured by a function. What encloses a captured scope is
    captured already. -/
def capture (s : Store) (id : ScopeId) : Store :=
  match s.scope? id with
  | none => s
  | some scope =>
    if scope.captured then s
    else
      let s' := { s with scopes := s.scopes.insert id.index { scope with captured := true } }
      match s.outward? id with
      | some ⟨parent, _⟩ => s'.capture parent
      | none => s'
termination_by id.index

def isCaptured (s : Store) (id : ScopeId) : Bool := (s.scope? id).any Scope.captured

def close (s : Store) (id : ScopeId) (declaration : FunctionDecl) (isInitializer : Bool) :
    Closure × Store :=
  let (identity, s) := s.newIdentity
  (⟨identity, declaration, id, isInitializer⟩, s.capture id)

/-- A method bound to an instance: it closes over a new scope that holds `this`. -/
def bind (s : Store) (method : Closure) (id : InstanceId) (type : Class) : Closure × Store :=
  let (scope, s) := s.newScope (some method.scope) [("this", .instance id type)]
  let (identity, s) := s.newIdentity
  ({ method with identity := identity, scope := scope }, s.capture scope)

def property (s : Store) (id : InstanceId) (type : Class) (name : String) (line : Nat) :
    Except Fault (Value × Store) :=
  match (s.fields? id).bind (·.lookup name) with
  | some value => .ok (value, s)
  | none =>
    match type.findMethod? name with
    | some method =>
      let (bound, s) := s.bind method id type
      .ok (.closure bound, s)
    | none => .error (.broken (.undefinedProperty name) line)

end Store
end Lox
