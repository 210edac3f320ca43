import Lox.Program
import Lox.Machine.Eval

namespace Lox

inductive Report (α : Type) where
  | done (value : α) (machine : Machine)
  | failed (error : RunError) (machine : Machine)
  | unfinished

def Report.map {α β : Type} (f : α → β) : Report α → Report β
  | .done value m => .done (f value) m
  | .failed error m => .failed error m
  | .unfinished => .unfinished

def Outcome.report {α : Type} : Outcome α → Report α
  | .done value m => .done value m
  | .failed fault m => .failed (.runtime fault) m
  | .unfinished => .unfinished

namespace Session

variable (config : Config) (steps : Nat) (held : List Root)

def onCompiled {α β : Type} (compiled : Except (List StaticError) α) (run : α → Eval β)
    (m : Machine) : Report β :=
  match compiled with
  | .ok a => (run a m).report
  | .error errors => .failed (.static errors) m

def run (source : List UInt8) (m : Machine) : Report Unit :=
  onCompiled (compile source) (interpret config steps held) m

/-- Runs a source as a program without resolving its names first, so that all of them are
    globals. -/
def runUnresolved (source : List UInt8) (m : Machine) : Report Unit :=
  onCompiled (parseProgram source) (interpret config steps held) m

def evaluate (source : List UInt8) (m : Machine) : Report Value :=
  onCompiled (compileExpression source) (Lox.evaluate config steps held) m

/-- Carries out statements one after the other and tells how each one ends. What they return is held
    meanwhile. -/
def executeEach (config : Config) (steps : Nat) (held : List Root) : List Stmt → Eval (List Flow)
  | [] => pure []
  | s :: rest => do
    let flow ← execute config steps held s
    let flows ← executeEach config steps (flow.roots ++ held) rest
    pure (flow :: flows)

def execute (resolved : Bool) (source : List UInt8) (m : Machine) : Report (List Flow) :=
  onCompiled (if resolved then compile source else parseProgram source)
    (executeEach config steps held) m

inductive Request where
  | run (source : List UInt8)
  | runUnresolved (source : List UInt8)
  | evaluate (source : List UInt8)
  | execute (resolved : Bool) (source : List UInt8)

inductive Result where
  | nothing
  | value (v : Value)
  | flows (ends : List Flow)

def Result.roots : Result → List Root
  | nothing => []
  | value v => [.value v]
  | flows ends => ends.flatMap Flow.roots

def answer (request : Request) (m : Machine) : Report Result :=
  match request with
  | .run source => (run config steps held source m).map fun _ => .nothing
  | .runUnresolved source => (runUnresolved config steps held source m).map fun _ => .nothing
  | .evaluate source => (evaluate config steps held source m).map .value
  | .execute resolved source => (execute config steps held resolved source m).map .flows

/-- A step of a session. Of the results so far, whoever asks keeps hold of those at some places and
    lets go of the others. -/
structure Step where
  keeps : List Nat
  request : Request

inductive Seen where
  | done (result : Result) (output : ByteArray)
  | failed (error : RunError) (output : ByteArray)
  | unfinished

def play (config : Config) (steps : Nat) (held : List Root) : List Step → Machine → List Seen
  | [], _ => []
  | step :: rest, m =>
    let held := step.keeps.filterMap (held[·]?)
    match answer config steps held step.request m with
    | .done result m => .done result m.output :: play config steps (result.roots ++ held) rest m
    -- What ran before the fault stays done.
    | .failed error m => .failed error m.output :: play config steps held rest m
    | .unfinished => [.unfinished]

end Session

/-- Enough steps for every run that ends before its reader does. -/
def ampleSteps : Nat := Nat.pow 2 60

/-- What a machine has printed after the first `before` bytes. Bytes that the end of the output cut
    off from their character show as a replacement mark. -/
def Machine.printedSince (m : Machine) (before : Nat) : String :=
  Text.Utf8.decode (m.output.extract before m.output.size).data.toList

end Lox
