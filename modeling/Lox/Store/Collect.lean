import Lox.Store.Basic
import Lox.Store.Graph

namespace Lox

inductive Node where
  | scope (id : ScopeId)
  | instance (id : InstanceId)
  deriving DecidableEq, Repr, Inhabited

def Node.key : Node → Nat
  | scope id => id.index
  | .instance id => id.index

inductive Object where
  | scope (id : ScopeId)
  | closure (function : Closure)
  | class (type : Class)
  | instance (id : InstanceId) (type : Class)
  deriving Inhabited

def Object.key : Object → Nat
  | scope id => id.index
  | closure function => function.identity
  | .class type => type.identity
  | .instance id _ => id.index

/-- A class, the methods and superclasses of it, and theirs. -/
def Class.objects : Class → List Object
  | mk identity name none methods =>
    .class (mk identity name none methods) :: methods.map (.closure ·.2)
  | mk identity name (some superclass) methods =>
    .class (mk identity name (some superclass) methods) ::
      (methods.map (.closure ·.2) ++ objects superclass)

def Value.object? : Value → Option Object
  | .closure function => some (.closure function)
  | .class type => some (.class type)
  | .instance id type => some (.instance id type)
  | .nil | .bool _ | .number _ | .string _ | .native _ => none

/-- The object that a value is, with what is part of it as long as it exists. -/
def Value.objects : Value → List Object
  | .closure function => [.closure function]
  | .class type => type.objects
  | .instance id type => .instance id type :: type.objects
  | .nil | .bool _ | .number _ | .string _ | .native _ => []

namespace Bindings

def bound (bindings : Bindings) : List Object := bindings.filterMap fun entry => entry.2.object?

def objects (bindings : Bindings) : List Object := bindings.flatMap fun entry => entry.2.objects

end Bindings

inductive Root where
  | scope (id : ScopeId)
  | value (v : Value)

namespace Root

def object? : Root → Option Object
  | scope id => some (.scope id)
  | value v => v.object?

def objects : Root → List Object
  | scope _ => []
  | value v => v.objects

def keys (roots : List Root) : List Nat := roots.filterMap fun root => root.object?.map Object.key

end Root

namespace Object

def lasting (s : Store) : Object → List Object
  | scope id => ((s.scope? id).bind Scope.enclosing?).toList.map .scope
  | closure function => [.scope function.scope]
  | .class type => type.superclass?.toList.map .class ++ type.methods.map (.closure ·.2)
  | .instance _ type => [.class type]

def loose (s : Store) : Object → List Object
  | scope id => Bindings.bound (((s.scope? id).map Scope.bindings).getD [])
  | .instance id _ => Bindings.bound ((s.fields? id).getD [])
  | closure _ | .class _ => []

def links (s : Store) (object : Object) : Links :=
  ⟨(object.lasting s).map key, (object.loose s).map key⟩

end Object

namespace Store

def holds (s : Store) : Node → Bool
  | .scope id => s.scopes.contains id.index
  | .instance id => s.instances.contains id.index

/-- The objects that occur in the store or are held from outside; some more than once. -/
def objects (s : Store) (roots : List Root) : List Object :=
  (s.scopes.toList.flatMap fun entry => .scope ⟨entry.1⟩ :: Bindings.objects entry.2.bindings) ++
    (s.instances.toList.flatMap fun entry => Bindings.objects entry.2) ++
      roots.flatMap Root.objects

def enroll (s : Store) (g : Graph) (object : Object) : Graph :=
  if g.contains object.key then g else g.insert object.key (object.links s)

def graph (s : Store) (roots : List Root) : Graph := (s.objects roots).foldl s.enroll ∅

def present (order : Arrangement) (s : Store) (roots : List Root) : Graph :=
  (s.graph roots).settle order (Root.keys roots)

def surrounds (s : Store) (outer id : ScopeId) : Bool :=
  id == outer ||
    match s.outward? id with
    | some ⟨parent, _⟩ => s.surrounds outer parent
    | none => false
termination_by id.index

/-- Whether a function that is bound in the scope, or a method of a class that is, has captured it. -/
def isRinged (s : Store) (id : ScopeId) : Bool :=
  (s.scope? id).any fun scope => scope.bindings.bound.any fun object =>
    match object with
    | .closure function => s.surrounds id function.scope
    | .class type => type.methods.any fun entry => s.surrounds id entry.2.scope
    | .scope _ | .instance _ _ => false

/-- Whether anything that still exists refers to the scope, or it is held from outside. -/
def isReferred (s : Store) (roots : List Root) (id : ScopeId) : Bool :=
  -- Most functions are still bound where they have been declared, in the scope or in one inside it;
  -- to see that is much less work than to count all references.
  (List.range' id.index (s.next - id.index)).any (fun key => s.isRinged ⟨key⟩ && s.surrounds id ⟨key⟩) ||
    (s.present .given roots).contains id.index

def restrict (s : Store) (g dead : Graph) : Store :=
  { s with
    scopes := s.scopes.filterMap fun key scope =>
      if g.contains key then
        some (if dead.contains key then { scope with bindings := [] } else scope)
      else none
    instances := s.instances.filterMap fun key fields =>
      if g.contains key then some (if dead.contains key then [] else fields) else none }

end Store

/-- What the collector knows: handles on objects, which may be gone or counted several times, and
    how many handles make a collection due. -/
structure Ledger where
  handles : Array Node
  threshold : Nat

namespace Ledger

def leastThreshold : Nat := 1024

def empty : Ledger := ⟨#[], leastThreshold⟩

def tracked (l : Ledger) : Nat := l.handles.size

def keys (l : Ledger) : List Nat := l.handles.toList.map Node.key

def track (l : Ledger) (node : Node) : Ledger := { l with handles := l.handles.push node }

def trackTimes (l : Ledger) (node : Node) : Nat → Ledger
  | 0 => l
  | times + 1 => (l.track node).trackTimes node times

def isDue (l : Ledger) : Bool := l.threshold ≤ l.tracked

/-- Drops the handles on objects that are gone; twice the others make the next collection due. -/
def settle (l : Ledger) (s : Store) : Ledger :=
  let handles := l.handles.filter s.holds
  ⟨handles, max leastThreshold (2 * handles.size)⟩

end Ledger

/-- Removes the objects that nothing refers to, and those that can be reached from a handle but not
    from outside. Tables are met in the given order; a borrowed object cannot be looked into. -/
def collectWith (order : Arrangement) (borrowed : Nat → Bool) (s : Store) (l : Ledger)
    (roots : List Root) : Store × Ledger :=
  let external := Root.keys roots
  let present := s.present order roots
  let dead := present.garbage order borrowed external l.keys
  -- What is emptied lets go of other objects, which then go as well.
  let kept := s.restrict ((present.empty dead).settle order external) dead
  (kept, l.settle kept)

def collect (s : Store) (l : Ledger) (roots : List Root) : Store × Ledger :=
  collectWith .given (fun _ => false) s l roots

/-- Removes what nothing refers to; without handles no more is found. -/
def Store.settle (s : Store) (roots : List Root) : Store := (collect s .empty roots).1

def collectIfDue (s : Store) (l : Ledger) (roots : List Root) : Store × Ledger :=
  if l.isDue then collect s l roots else (s, l)

end Lox
