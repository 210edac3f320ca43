import Lox.Store.Collect

namespace Lox

structure Machine where
  store : Store
  ledger : Ledger
  globals : ScopeId
  scope : ScopeId
  /-- How many calls are active. -/
  depth : Nat
  output : ByteArray
  readings : Nat
  /-- How often a collection could have taken place. -/
  pauses : Nat

structure Config where
  maxDepth : Nat
  /-- How many bytes the output takes; any number if absent. -/
  capacity? : Option Nat
  clock : Nat → Float
  /-- Whether to collect at each pause, given its number. -/
  collects : Nat → Ledger → Store → Bool
  /-- Whether the references to a scope that a function has captured are counted when the program
      leaves it; if they are not, it is taken for granted that there are some. -/
  counts : Bool

namespace Config

def defaultMaxDepth : Nat := 1024

def collectsWhenDue (_ : Nat) (ledger : Ledger) (_ : Store) : Bool := ledger.isDue

def standard : Config := ⟨defaultMaxDepth, none, fun _ => 0, collectsWhenDue, true⟩

end Config

inductive Outcome (α : Type) where
  | done (value : α) (machine : Machine)
  | failed (fault : Fault) (machine : Machine)
  | unfinished

def Eval (α : Type) : Type := Machine → Outcome α

namespace Eval

@[always_inline, inline]
def result {α : Type} (value : α) : Eval α := fun m => .done value m

@[always_inline, inline]
def andThen {α β : Type} (x : Eval α) (next : α → Eval β) : Eval β := fun m =>
  match x m with
  | .done value m => next value m
  | .failed fault m => .failed fault m
  | .unfinished => .unfinished

@[always_inline]
instance : Monad Eval where
  pure := result
  bind := andThen

@[always_inline, inline]
def fail {α : Type} (fault : Fault) : Eval α := fun m => .failed fault m

@[always_inline, inline]
def broken {α : Type} (cause : Fault.Cause) (line : Nat) : Eval α := fail (.broken cause line)

@[always_inline, inline]
def cutOff {α : Type} : Eval α := fun _ => .unfinished

@[always_inline, inline]
def get : Eval Machine := fun m => .done m m

@[always_inline, inline]
def update {α : Type} (f : Machine → α × Machine) : Eval α := fun m =>
  let (value, m) := f m
  .done value m

@[always_inline, inline]
def onStore {α : Type} (f : Store → α × Store) : Eval α := fun m =>
  let (value, store) := f m.store
  .done value { m with store := store }

@[always_inline, inline]
def ofExcept {α : Type} : Except Fault α → Eval α
  | .ok value => result value
  | .error fault => fail fault

/-- Runs a computation as an active call; however it ends, there is then one active call less. -/
@[always_inline, inline]
def asCall {α : Type} (x : Eval α) : Eval α := fun m =>
  match x { m with depth := m.depth + 1 } with
  | .done value m => .done value { m with depth := m.depth - 1 }
  | .failed fault m => .failed fault { m with depth := m.depth - 1 }
  | .unfinished => .unfinished

end Eval

namespace Machine

/-- All that is held while a computation runs. -/
def roots (m : Machine) (held : List Root) : List Root :=
  .scope m.globals :: .scope m.scope :: held

/-- A pause: collects if the configuration says so. What is held from outside stays. -/
def pause (config : Config) (held : List Root) (m : Machine) : Machine :=
  let m := { m with pauses := m.pauses + 1 }
  if config.collects m.pauses m.ledger m.store then
    let (store, ledger) := collect m.store m.ledger (.scope m.globals :: .scope m.scope :: held)
    { m with store := store, ledger := ledger }
  else m

/-- Lets go of a scope that a function has captured: it is put down in the ledger if something still
    refers to it, and is gone otherwise, with all that only it kept. -/
def letGo (config : Config) (held : List Root) (scope : ScopeId) (m : Machine) : Machine :=
  if !config.counts || m.store.isReferred (m.roots held) scope then
    { m with ledger := m.ledger.track (.scope scope) }
  else { m with store := m.store.settle (m.roots held) }

/-- Leaves a scope behind; one that no function has captured is gone at once. Then there is a pause. -/
def release (config : Config) (held : List Root) (scope : ScopeId) (m : Machine) : Machine :=
  let m :=
    if m.store.isCaptured scope then m.letGo config held scope
    else { m with store := m.store.free scope }
  m.pause config held

def leave (config : Config) (held : List Root) (previous : ScopeId) (m : Machine) : Machine :=
  Machine.release config held m.scope { m with scope := previous }

/-- Appends to the output as many bytes as it takes; a fault if they are not all. -/
def write (config : Config) (bytes : ByteArray) (m : Machine) : Outcome Unit :=
  match config.capacity? with
  | none => .done () { m with output := m.output ++ bytes }
  | some capacity =>
    let room := capacity - m.output.size
    if bytes.size ≤ room then .done () { m with output := m.output ++ bytes }
    else .failed .outputFull { m with output := m.output ++ bytes.extract 0 room }

def start : Machine :=
  let bindings := NativeFunction.all.map fun function => (function.name, Value.native function)
  let (globals, store) := Store.empty.newScope none bindings
  { store := store
    ledger := Ledger.empty.track (.scope globals)
    globals := globals
    scope := globals
    depth := 0
    output := ByteArray.empty
    readings := 0
    pauses := 0 }

def atRest (m : Machine) : Machine := { m with scope := m.globals, depth := 0 }

end Machine
end Lox
