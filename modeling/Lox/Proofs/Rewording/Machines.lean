import Lox.Proofs.Rewording.Stores
import Lox.Proofs.Machine.Preservation

namespace Lox

structure Machine.Reworded (w : Rewording) (m m' : Machine) : Prop where
  globals : m'.globals = m.globals
  scope : m'.scope = m.scope
  depth : m'.depth = m.depth
  output : m'.output = m.output
  readings : m'.readings = m.readings
  store : m.store.Reworded w m.globals m'.store

inductive Outcome.Reworded (w : Rewording) {α : Type} (f : α → α) : Outcome α → Outcome α → Prop where
  | done {value : α} {m m' : Machine} (same : m.Reworded w m') :
      Reworded w f (.done value m) (.done (f value) m')
  | failed {fault : Fault} {m m' : Machine} (same : m.Reworded w m') :
      Reworded w f (.failed fault m) (.failed (w.fault fault) m')
  | unfinished : Reworded w f .unfinished .unfinished

/-- The configuration never asks for a collection, nor for the references to a scope. -/
structure Config.Idle (config : Config) : Prop where
  collects : ∀ pauses ledger store, config.collects pauses ledger store = false
  counts : config.counts = false

def Machine.Apart (w : Rewording) (m : Machine) (distance : Distance) (name : String) : Prop :=
  match distance with
  | some distance => ∀ outer, m.store.ancestor? m.scope distance = some outer →
    m.store.Apart w m.globals outer name
  | none => m.store.Apart w m.globals m.globals name

namespace Outcome

variable {α β : Type} {w : Rewording} {f : α → α} {g : β → β} {m m' : Machine}

theorem Reworded.bind {x y : Eval α} {next next' : α → Eval β} (first : Reworded w f (x m) (y m'))
    (rest : ∀ value n n', x m = .done value n → n.Reworded w n' →
      Reworded w g (next value n) (next' (f value) n')) :
    Reworded w g ((x >>= next) m) ((y >>= next') m') := by
  show Reworded w g (Eval.andThen x next m) (Eval.andThen y next' m')
  unfold Eval.andThen
  generalize here : x m = ends at first
  generalize y m' = ends' at first
  cases first with
  | done same => exact rest _ _ _ here same
  | failed same => exact .failed same
  | unfinished => exact .unfinished

theorem Reworded.of_done {x y : Eval α} {next next' : α → Eval β} {n n' : Machine}
    {value value' : α} (here : x m = .done value n) (there : y m' = .done value' n')
    (rest : Reworded w g (next value n) (next' value' n')) :
    Reworded w g ((x >>= next) m) ((y >>= next') m') := by
  show Reworded w g (Eval.andThen x next m) (Eval.andThen y next' m')
  unfold Eval.andThen
  rw [here, there]
  exact rest

theorem Reworded.ofExcept {result result' : Except Fault α} (same : m.Reworded w m')
    (equal : result' = w.attempt f result) :
    Reworded w f (Eval.ofExcept result m) (Eval.ofExcept result' m') := by
  subst equal
  cases result with
  | ok value => exact .done same
  | error fault => exact .failed same

theorem Reworded.bind_ofExcept {result result' : Except Fault α} {next next' : α → Eval β}
    (same : m.Reworded w m') (equal : result' = w.attempt f result)
    (rest : ∀ value, Reworded w g (next value m) (next' (f value) m')) :
    Reworded w g ((Eval.ofExcept result >>= next) m) ((Eval.ofExcept result' >>= next') m') := by
  subst equal
  cases result with
  | ok value => exact rest value
  | error fault => exact .failed same

end Outcome

namespace Machine

open Outcome

variable {w : Rewording} {config : Config} {held held' : List Root} {m m' : Machine}

theorem Reworded.replace (same : m.Reworded w m') {s s' : Store}
    (stores : s.Reworded w m.globals s') :
    Machine.Reworded w { m with store := s } { m' with store := s' } :=
  ⟨same.globals, same.scope, same.depth, same.output, same.readings, stores⟩

theorem Reworded.enter (same : m.Reworded w m') (id : ScopeId) :
    Machine.Reworded w { m with scope := id } { m' with scope := id } :=
  ⟨same.globals, rfl, same.depth, same.output, same.readings, same.store⟩

theorem letGo_idle (idle : config.Idle) (held : List Root) (id : ScopeId) (m : Machine) :
    m.letGo config held id = { m with ledger := m.ledger.track (.scope id) } := by
  unfold Machine.letGo
  rw [idle.counts]
  rfl

theorem Reworded.pause (idle : config.Idle) (same : m.Reworded w m') :
    (m.pause config held).Reworded w (m'.pause config held') := by
  unfold Machine.pause
  simp only [idle.collects, Bool.false_eq_true, if_false]
  exact ⟨same.globals, same.scope, same.depth, same.output, same.readings, same.store⟩

theorem Reworded.release (idle : config.Idle) (same : m.Reworded w m') (id : ScopeId) :
    (m.release config held id).Reworded w (m'.release config held' id) := by
  unfold Machine.release
  simp only [same.store.isCaptured, letGo_idle idle]
  split
  · exact Reworded.pause idle
      ⟨same.globals, same.scope, same.depth, same.output, same.readings, same.store⟩
  · exact Reworded.pause idle (same.replace (same.store.free id))

theorem Reworded.leave (idle : config.Idle) (same : m.Reworded w m') (previous : ScopeId) :
    (m.leave config held previous).Reworded w (m'.leave config held' previous) := by
  unfold Machine.leave
  rw [same.scope]
  exact (same.enter previous).release idle m.scope

/-- What a change of the store makes is the same on both machines, reworded. -/
theorem Reworded.onStore {α : Type} {f : α → α} {change change' : Store → α × Store}
    (same : m.Reworded w m') (equal : (change' m'.store).1 = f (change m.store).1)
    (stores : (change m.store).2.Reworded w m.globals (change' m'.store).2) :
    Outcome.Reworded w f (Eval.onStore change m) (Eval.onStore change' m') := by
  show Outcome.Reworded w f (.done (change m.store).1 { m with store := (change m.store).2 })
    (.done (change' m'.store).1 { m' with store := (change' m'.store).2 })
  rw [equal]
  exact .done (same.replace stores)

theorem Reworded.setStore {attempt attempt' : Except Fault Store} {f : Unit → Unit}
    (same : m.Reworded w m') (attempted : Store.Attempted w m.globals attempt attempt') :
    Outcome.Reworded w f (Eval.setStore attempt m) (Eval.setStore attempt' m') := by
  cases attempt with
  | ok s =>
    cases attempt' with
    | ok s' => exact .done (same.replace attempted)
    | error fault => exact attempted.elim
  | error fault =>
    cases attempt' with
    | ok s' => exact attempted.elim
    | error fault' =>
      cases attempted
      exact .failed same

theorem Reworded.lookUp (same : m.Reworded w m') {name : Token} {distance : Distance}
    (apart : m.Apart w distance name.lexeme) :
    Outcome.Reworded w w.value (Eval.lookUp name distance m)
      (Eval.lookUp (w.named name) distance m') := by
  cases distance with
  | some distance =>
    refine .ofExcept same ?_
    rw [same.scope]
    exact same.store.readAt apart name.line
  | none =>
    refine .ofExcept same ?_
    rw [same.globals]
    exact same.store.read apart name.line

theorem Reworded.assign (same : m.Reworded w m') {name : Token} {distance : Distance}
    (apart : m.Apart w distance name.lexeme) (v : Value) :
    Outcome.Reworded w id (Eval.assign name distance v m)
      (Eval.assign (w.named name) distance (w.value v) m') := by
  cases distance with
  | some distance =>
    refine same.setStore ?_
    rw [same.scope]
    exact same.store.assignAt apart v name.line
  | none =>
    refine same.setStore ?_
    rw [same.globals]
    exact same.store.assign apart (.inr rfl) v name.line

theorem Reworded.define (same : m.Reworded w m') {name name' : Token}
    (apart : m.store.Apart w m.globals m.scope name.lexeme)
    (called : name'.lexeme = w.name name.lexeme) (v : Value) :
    Outcome.Reworded w id (Eval.define name v m) (Eval.define name' (w.value v) m') := by
  have changed := same.store.define apart v
  have there : m'.store.define m'.scope name'.lexeme (w.value v) =
      m'.store.define m.scope (w.name name.lexeme) (w.value v) := by rw [same.scope, called]
  unfold Eval.define
  rw [there]
  exact .done (same.replace changed)

theorem Reworded.newScope (same : m.Reworded w m') (enclosing? : Option ScopeId)
    {bound : Bindings} (tells : w.Tells bound) :
    Outcome.Reworded w (fun id => id) (Eval.onStore (·.newScope enclosing? bound) m)
      (Eval.onStore (·.newScope enclosing? (w.bindings w.name bound)) m') :=
  same.onStore (congrArg ScopeId.mk same.store.next) (same.store.newScope enclosing? tells)

theorem Reworded.innerScope (same : m.Reworded w m') {bound : Bindings} (tells : w.Tells bound) :
    Outcome.Reworded w (fun id => id) (Eval.innerScope bound m)
      (Eval.innerScope (w.bindings w.name bound) m') := by
  have made := same.newScope (some m.scope) tells
  unfold Eval.innerScope
  rwa [same.scope]

theorem Reworded.close (same : m.Reworded w m') (id : ScopeId) (declaration : FunctionDecl)
    (isInitializer : Bool) :
    Outcome.Reworded w w.closure (Eval.close id declaration isInitializer m)
      (Eval.close id (w.function declaration) isInitializer m') := by
  obtain ⟨equal, stores⟩ := same.store.close id declaration isInitializer
  exact same.onStore equal stores

theorem Reworded.bind (same : m.Reworded w m') (method : Closure) (id : InstanceId)
    (type : Class) : Outcome.Reworded w w.closure (Eval.onStore (·.bind method id type) m)
      (Eval.onStore (·.bind (w.closure method) id (w.type type)) m') := by
  obtain ⟨equal, stores⟩ := same.store.bind method id type
  exact same.onStore equal stores

theorem Reworded.newInstance (same : m.Reworded w m') :
    Outcome.Reworded w (fun id => id) (Eval.newInstance m) (Eval.newInstance m') := by
  have fresh : m'.store.newInstance.1 = m.store.newInstance.1 :=
    congrArg InstanceId.mk same.store.next
  show Outcome.Reworded w (fun id => id)
    (.done m.store.newInstance.1 { m with
      store := m.store.newInstance.2
      ledger := m.ledger.track (.instance m.store.newInstance.1) })
    (.done m'.store.newInstance.1 { m' with
      store := m'.store.newInstance.2
      ledger := m'.ledger.track (.instance m'.store.newInstance.1) })
  rw [fresh]
  exact .done ⟨same.globals, same.scope, same.depth, same.output, same.readings,
    same.store.newInstance⟩

theorem Reworded.property (same : m.Reworded w m') (id : InstanceId) (type : Class)
    (name : Token) : Outcome.Reworded w w.value (Eval.property id type name m)
      (Eval.property id (w.type type) (w.token name) m') := by
  have fields : (m'.store.fields? id).bind (·.lookup name.lexeme) =
      ((m.store.fields? id).bind (·.lookup name.lexeme)).map w.value := by
    rw [same.store.fields]
    cases m.store.fields? id with
    | none => rfl
    | some bound => exact w.lookup_fields name.lexeme
  unfold Eval.property Store.property
  rw [Rewording.token_lexeme, Rewording.token_line, fields, w.findMethod?_type]
  cases (m.store.fields? id).bind (·.lookup name.lexeme) with
  | some value => exact .done same
  | none =>
    cases type.findMethod? name.lexeme with
    | none => exact .failed same
    | some method =>
      obtain ⟨equal, stores⟩ := same.store.bind method id type
      show Outcome.Reworded w w.value
        (.done (.closure (m.store.bind method id type).1)
          { m with store := (m.store.bind method id type).2 })
        (.done (.closure (m'.store.bind (w.closure method) id (w.type type)).1)
          { m' with store := (m'.store.bind (w.closure method) id (w.type type)).2 })
      rw [equal]
      exact .done (same.replace stores)

theorem Reworded.setField (same : m.Reworded w m') (id : InstanceId) (name : String) (v : Value) :
    Outcome.Reworded w w.value (Eval.onStore (fun s => (v, s.setField id name v)) m)
      (Eval.onStore (fun s => (w.value v, s.setField id name (w.value v))) m') :=
  same.onStore rfl (same.store.setField id name v)

/-- A name that only the evaluator binds is read from the scope so far out. -/
theorem Reworded.readReserved (same : m.Reworded w m') {name : String}
    (fixed : ∀ key, w.name key = name ↔ key = name) (id : ScopeId) (distance line : Nat) :
    m'.store.readAt id distance name (w.line line) =
      w.attempt w.value (m.store.readAt id distance name line) := by
  have there : w.name name = name := (fixed name).mpr rfl
  have read : m'.store.readAt id distance (w.name name) (w.line line) =
      w.attempt w.value (m.store.readAt id distance name line) :=
    same.store.readAt (fun outer _ => Store.apart_reserved fixed) line
  rwa [there] at read

theorem Reworded.superMethod (same : m.Reworded w m') (keyword method : Token)
    (distance : Distance) :
    Outcome.Reworded w w.value (Eval.superMethod keyword method distance m)
      (Eval.superMethod (w.token keyword) (w.token method) distance m') := by
  unfold Eval.superMethod
  cases distance with
  | none => exact .failed same
  | some distance =>
    refine .of_done rfl rfl (Reworded.bind_ofExcept (f := w.value) same ?_ fun above => ?_)
    · rw [same.scope]
      exact same.readReserved w.super_iff m.scope distance keyword.line
    cases above with
    | «class» superclass =>
      refine Reworded.bind_ofExcept (f := w.value) same ?_ fun receiver => ?_
      · rw [same.scope]
        exact same.readReserved w.this_iff m.scope (distance - 1) keyword.line
      cases receiver with
      | «instance» id type =>
        dsimp only [Rewording.value]
        rw [Rewording.token_lexeme, w.findMethod?_type]
        cases superclass.findMethod? method.lexeme with
        | none => exact .failed same
        | some found => exact .bind (same.bind found id type) fun _ _ _ _ after => .done after
      | nil | bool _ | number _ | string _ | native _ | closure _ | «class» _ =>
        exact .failed same
    | nil | bool _ | number _ | string _ | native _ | closure _ | «instance» _ _ =>
      exact .failed same

theorem Reworded.write (same : m.Reworded w m') (bytes : ByteArray) :
    Outcome.Reworded w id (Machine.write config bytes m) (Machine.write config bytes m') := by
  have printed : ∀ output, Machine.Reworded w { m with output := output }
      { m' with output := output } := fun _ =>
    ⟨same.globals, same.scope, same.depth, rfl, same.readings, same.store⟩
  unfold Machine.write
  rw [same.output]
  cases config.capacity? with
  | none => exact .done (printed _)
  | some room =>
    simp only
    split
    · exact .done (printed _)
    · exact .failed (printed _)

theorem Reworded.readClock (same : m.Reworded w m') :
    Outcome.Reworded w w.value (Eval.readClock config m) (Eval.readClock config m') := by
  show Outcome.Reworded w w.value
    (.done (.number (config.clock m.readings)) { m with readings := m.readings + 1 })
    (.done (.number (config.clock m'.readings)) { m' with readings := m'.readings + 1 })
  rw [same.readings]
  exact .done ⟨same.globals, same.scope, same.depth, same.output, rfl, same.store⟩

theorem Reworded.deepen (same : m.Reworded w m') :
    Machine.Reworded w { m with depth := m.depth + 1 } { m' with depth := m'.depth + 1 } :=
  ⟨same.globals, same.scope, congrArg (· + 1) same.depth, same.output, same.readings, same.store⟩

theorem Reworded.invoke {line arity count : Nat} {body body' : Eval Value}
    (same : m.Reworded w m')
    (ends : count = arity → m.depth < config.maxDepth →
      Outcome.Reworded w w.value (body { m with depth := m.depth + 1 })
        (body' { m' with depth := m'.depth + 1 })) :
    Outcome.Reworded w w.value (Eval.invoke config line arity count body m)
      (Eval.invoke config (w.line line) arity count body' m') := by
  rw [Discipline.invoke_eq, Discipline.invoke_eq, same.depth]
  split
  · rename_i matching
    split
    · rename_i room
      have called := ends matching room
      rw [same.depth] at called
      unfold Eval.asCall
      rw [same.depth]
      generalize body { m with depth := m.depth + 1 } = ended at called
      generalize body' { m' with depth := m.depth + 1 } = ended' at called
      cases called with
      | done after =>
        exact .done ⟨after.globals, after.scope, congrArg (· - 1) after.depth, after.output,
          after.readings, after.store⟩
      | failed after =>
        exact .failed ⟨after.globals, after.scope, congrArg (· - 1) after.depth, after.output,
          after.readings, after.store⟩
      | unfinished => exact .unfinished
    · exact .failed same
  · exact .failed same

theorem Reworded.activation {id : ScopeId} {body body' : List Root → Eval Flow}
    (idle : config.Idle) (same : m.Reworded w m')
    (ends : Outcome.Reworded w w.flow (body (.scope m.scope :: held) { m with scope := id })
      (body' (.scope m'.scope :: held') { m' with scope := id })) :
    Outcome.Reworded w w.flow (Eval.activation config held id body m)
      (Eval.activation config held' id body' m') := by
  unfold Eval.activation
  generalize body (.scope m.scope :: held) { m with scope := id } = ended at ends
  generalize body' (.scope m'.scope :: held') { m' with scope := id } = ended' at ends
  rw [same.scope]
  cases ends with
  | done after => exact .done (after.leave idle m.scope)
  | failed after => exact .failed (after.leave idle m.scope)
  | unfinished => exact .unfinished

end Machine
end Lox
