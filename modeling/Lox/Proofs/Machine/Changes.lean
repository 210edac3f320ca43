import Mathlib.Logic.Relation
import Lox.Proofs.Machine.Plans

namespace Lox

def Outcome.Leaves {α : Type} (outcome : Outcome α) (m' : Machine) : Prop :=
  (∃ value, outcome = .done value m') ∨ ∃ fault, outcome = .failed fault m'

def Machine.enter (m : Machine) (parent : ScopeId) (bindings : Bindings) : Machine :=
  { m with
    store := (m.store.newScope (some parent) bindings).2
    scope := (m.store.newScope (some parent) bindings).1 }

inductive Task.Binds : Task → Token → Prop where
  | assign {name : Token} {value : Expr} {distance : Distance} :
      Binds (.expression (.assign name value distance)) name
  | varDecl {name : Token} {initializer? : Option Expr} :
      Binds (.statement (.varDecl name initializer?)) name
  | functionDecl {declaration : FunctionDecl} :
      Binds (.statement (.functionDecl declaration)) declaration.name
  | classDecl {name : Token} {superclass? : Option Expr} {methods : List FunctionDecl} :
      Binds (.statement (.classDecl name superclass? methods)) name

/-- What the point `p` does to a machine by itself, except for entering and leaving scopes. -/
inductive Change (config : Config) (p : Point) : Machine → Machine → Prop where
  | defined {m : Machine} {name : Token} {owner : ScopeId} (binds : p.task.Binds name)
      (place : owner = m.scope ∨
        ∃ scope, m.store.scope? owner = some scope ∧ scope.Binds name.lexeme) (value : Value) :
      Change config p m { m with store := m.store.define owner name.lexeme value }
  | field {m : Machine} (id : InstanceId) (name : String) (value : Value) :
      Change config p m { m with store := m.store.setField id name value }
  | closed {m : Machine} (scope : ScopeId) (declaration : FunctionDecl) (isInitializer : Bool) :
      Change config p m { m with store := (m.store.close scope declaration isInitializer).2 }
  | bound {m : Machine} {method : Closure} {id : InstanceId} {type : Class}
      (binds : BindsMethod config p m.store method id type) :
      Change config p m { m with store := (m.store.bind method id type).2 }
  | inherited {n : Nat} {held : List Root} {m₀ m : Machine} {name : Token} {superclass : Expr}
      {methods : List FunctionDecl} {type : Class}
      (here : p = ⟨n + 1, held, .statement (.classDecl name (some superclass) methods), m₀⟩)
      (first : evaluate config n held superclass m₀ = .done (.class type) m) :
      Change config p { m with store := m.store.define m.scope name.lexeme .nil }
        { m with store := ((m.store.define m.scope name.lexeme .nil).newScope (some m.scope)
          [("super", .class type)]).2 }
  | identified {m : Machine} : Change config p m { m with store := m.store.newIdentity.2 }
  | made {m : Machine} : Change config p m { m with
      store := m.store.newInstance.2
      ledger := m.ledger.track (.instance m.store.newInstance.1) }
  | counted {m : Machine} (depth : Nat) : Change config p m { m with depth := depth }
  | clocked {m : Machine} : Change config p m { m with readings := m.readings + 1 }
  | wrote {m : Machine} (output : ByteArray) :
      Change config p m { m with output := m.output ++ output }

abbrev Changes (config : Config) (p : Point) : Machine → Machine → Prop :=
  Relation.ReflTransGen (Change config p)

/-- A plan changes a machine, between what it calls, only as the point `p` does. A plan that has to
    go back to a scope has entered a new one. -/
def Plan.Moves (config : Config) (p : Point) {α : Type} : Machine → Plan α → Prop
  | m, .ends outcome => ∀ m', outcome.Leaves m' → Changes config p m m'
  | m, .calls q resume (.back _ previous) =>
    previous = m.scope ∧ (∃ parent bindings, q.machine = m.enter parent bindings) ∧
      ∀ value m', q.outcome config = .done value m' →
        ∃ held, (resume value m').Moves config p (m'.leave config held m.scope)
  | m, .calls q resume unwinding =>
    Changes config p m q.machine ∧
      (∀ m', Changes config p m' (unwinding.run config m')) ∧
      ∀ value m', q.outcome config = .done value m' → (resume value m').Moves config p m'

namespace Outcome

variable {α β : Type} {m m' : Machine}

theorem leaves_done {value : α} : (done value m).Leaves m' ↔ m' = m := by
  simp [Leaves, eq_comm]

theorem leaves_failed {fault : Fault} : (failed fault m : Outcome α).Leaves m' ↔ m' = m := by
  simp [Leaves, eq_comm]

theorem not_leaves_unfinished : ¬(unfinished : Outcome α).Leaves m' := by
  simp [Leaves]

/-- What is satisfied however a computation ends holds of the machine that it leaves. -/
theorem Sat.of_leaves {outcome : Outcome α} {holds : Machine → Prop}
    (sat : outcome.Sat (fun _ => holds) holds) (leaves : outcome.Leaves m') : holds m' := by
  rcases leaves with ⟨value, ended⟩ | ⟨fault, ended⟩
  · exact sat.done_of_eq ended
  · exact sat.failed_of_eq ended

end Outcome

open Outcome Plan Eval

variable {config : Config} {p : Point} {α : Type} {m m' : Machine}

/-- What is done first leaves a machine behind if the whole does. -/
theorem Eval.leaves_bind {β : Type} {x : Eval α} {next : α → Eval β}
    (leaves : ((x >>= next) m).Leaves m') :
    (∃ value m₁, x m = .done value m₁ ∧ (next value m₁).Leaves m') ∨
      ∃ fault, x m = .failed fault m' := by
  change (andThen x next m).Leaves m' at leaves
  unfold andThen at leaves
  cases ended : x m with
  | done value m₁ =>
    rw [ended] at leaves
    exact .inl ⟨value, m₁, rfl, leaves⟩
  | failed fault m₁ =>
    rw [ended] at leaves
    exact .inr ⟨fault, leaves_failed.mp leaves ▸ rfl⟩
  | unfinished =>
    rw [ended] at leaves
    exact absurd leaves not_leaves_unfinished

theorem Eval.leaves_andThen_result {β : Type} {x : Eval β} {f : β → α}
    (leaves : (andThen x (fun value => result (f value)) m).Leaves m') : (x m).Leaves m' := by
  rcases leaves_bind leaves with ⟨value, m₁, ended, last⟩ | ⟨fault, failed⟩
  · exact leaves_done.mp last ▸ .inl ⟨value, ended⟩
  · exact .inr ⟨fault, failed⟩

namespace Plan

theorem moves_ask {q : Point} {resume : q.task.Result → Machine → Plan α} (same : q.machine = m)
    (rest : ∀ value m', q.outcome config = .done value m' → (resume value m').Moves config p m') :
    (ask q resume).Moves config p m :=
  ⟨same ▸ .refl, fun _ => .refl, rest⟩

theorem moves_done {value : α} : (done value m).Moves config p m :=
  fun _ leaves => leaves_done.mp leaves ▸ .refl

theorem moves_failed {fault : Fault} : (ends (.failed fault m) : Plan α).Moves config p m :=
  fun _ leaves => leaves_failed.mp leaves ▸ .refl

theorem moves_ofExcept {result : Except Fault α} :
    (ends (ofExcept result m)).Moves config p m := by
  cases result with
  | ok value => exact moves_done
  | error fault => exact moves_failed

theorem moves_last {q : Point} (same : q.machine = m) : (ask q done).Moves config p m :=
  moves_ask same fun _ _ _ => moves_done

theorem moves_andThen {β : Type} {x : Eval β} {value : α}
    (changes : ∀ m', (x m).Leaves m' → Changes config p m m') :
    (ends (andThen x (fun _ => result value) m)).Moves config p m :=
  fun m' leaves => changes m' (leaves_andThen_result leaves)

theorem moves_lookUp {name : Token} {distance : Distance} :
    (ends (lookUp name distance m)).Moves config p m := by
  cases distance <;> exact moves_ofExcept

theorem moves_define {name : Token} {value : Value} {flow : α} (binds : p.task.Binds name) :
    (ends (andThen (define name value) (fun _ => result flow) m)).Moves config p m :=
  moves_andThen fun _ leaves => leaves_done.mp leaves ▸ .single (.defined binds (.inl rfl) value)

theorem moves_assign {name : Token} {distance : Distance} {value : Value} {v : α}
    (binds : p.task.Binds name) :
    (ends (andThen (Eval.assign name distance value) (fun _ => result v) m)).Moves config p m := by
  refine moves_andThen fun _ => Sat.of_leaves ?_
  cases distance with
  | none =>
    refine .setStore (fun s assigned => ?_) .refl
    obtain ⟨owner, rfl, bound⟩ := Store.assign_eq_ok assigned
    exact .single (.defined binds (.inr bound) value)
  | some distance =>
    refine .setStore (fun s assigned => ?_) .refl
    obtain ⟨owner, rfl, bound⟩ := Store.assignAt_eq_ok assigned
    exact .single (.defined binds (.inr bound) value)

theorem moves_property {n : Nat} {held : List Root} {object : Expr} {name : Token} {m₀ : Machine}
    {id : InstanceId} {type : Class}
    (first : evaluate config n held object m₀ = .done (.instance id type) m) :
    (ends (property id type name m)).Moves config ⟨n + 1, held, .expression (.get object name), m₀⟩
      m := by
  intro m' leaves
  unfold Eval.property Store.property at leaves
  cases field : (m.store.fields? id).bind (·.lookup name.lexeme) with
  | some value =>
    simp only [field] at leaves
    exact leaves_done.mp leaves ▸ .refl
  | none =>
    cases declared : type.findMethod? name.lexeme with
    | none =>
      simp only [field, declared] at leaves
      exact leaves_failed.mp leaves ▸ .refl
    | some method =>
      simp only [field, declared] at leaves
      rw [leaves_done.mp leaves]
      exact .single (.bound (.property first field declared))

theorem moves_superMethod {n : Nat} {held : List Root} {keyword method : Token}
    {distance : Distance} : (ends (superMethod keyword method distance m)).Moves config
      ⟨n + 1, held, .expression (.super keyword method distance), m⟩ m := by
  suffices sat : (superMethod keyword method distance m).Sat
      (fun _ => Changes config ⟨n + 1, held, .expression (.super keyword method distance), m⟩ m)
      (Changes config ⟨n + 1, held, .expression (.super keyword method distance), m⟩ m) from
    fun _ => sat.of_leaves
  unfold superMethod
  cases distance with
  | none => exact .refl
  | some distance =>
    refine .of_done rfl (.bind_ofExcept (fun superValue above => ?_) .refl)
    cases superValue with
    | «class» superclass =>
      refine .bind_ofExcept (fun receiver found => ?_) .refl
      cases receiver with
      | «instance» id type =>
        cases declared : superclass.findMethod? method.lexeme with
        | none => exact .refl
        | some inherited => exact .single (.bound (.super above found declared))
      | _ => exact .refl
    | _ => exact .refl

theorem changes_write {bytes : ByteArray} (leaves : (Machine.write config bytes m).Leaves m') :
    Changes config p m m' := by
  unfold Machine.write at leaves
  split at leaves
  · exact leaves_done.mp leaves ▸ .single (.wrote _)
  · simp only at leaves
    split at leaves
    · exact leaves_done.mp leaves ▸ .single (.wrote _)
    · exact leaves_failed.mp leaves ▸ .single (.wrote _)

theorem changes_closeMethods (config : Config) (p : Point) (scope : ScopeId)
    (methods : List FunctionDecl) (found : List (String × Closure)) (m : Machine) :
    ∃ made s, closeMethods scope found methods m = .done made { m with store := s } ∧
      Changes config p m { m with store := s } := by
  induction methods generalizing found m with
  | nil => exact ⟨found, m.store, rfl, .refl⟩
  | cons method rest ih =>
    obtain ⟨made, s, ends, later⟩ := ih ((method.name.lexeme,
        (m.store.close scope method (method.name.lexeme == initializerName)).1) :: found)
      { m with store := (m.store.close scope method (method.name.lexeme == initializerName)).2 }
    exact ⟨made, s, ends, .head (.closed scope method _) later⟩

theorem changes_makeClass {scope : ScopeId} {name : Token} {superclass? : Option Class}
    {methods : List FunctionDecl} {before : Machine} (binds : p.task.Binds name)
    (changes : Changes config p before m) :
    ((do
      let methods ← Eval.closeMethods scope [] methods
      let identity ← Eval.onStore Store.newIdentity
      let m ← Eval.get
      Eval.setStore (m.store.assign m.scope name.lexeme
        (.class (.mk identity name.lexeme superclass? methods)) name.line) : Eval Unit) m).Sat
      (fun _ => Changes config p before) (Changes config p before) := by
  obtain ⟨made, s, ends, closed⟩ := changes_closeMethods config p scope methods [] m
  have numbered := (changes.trans closed).tail .identified
  refine .of_done ends (.of_done rfl (.of_done rfl (.setStore (fun s assigned => ?_) numbered)))
  obtain ⟨owner, rfl, bound⟩ := Store.assign_eq_ok assigned
  exact numbered.tail (.defined binds (.inr bound) _)

theorem moves_declareClass {name : Token} {methods : List FunctionDecl} {flow : α}
    (superclass? : Option Class) (binds : p.task.Binds name)
    (above : ∀ superclass ∈ superclass?, Change config p
      { m with store := m.store.define m.scope name.lexeme .nil }
      { m with store := ((m.store.define m.scope name.lexeme .nil).newScope (some m.scope)
        [("super", .class superclass)]).2 }) :
    (ends (andThen (declareClass name superclass? methods) (fun _ => result flow) m)).Moves
      config p m := by
  refine moves_andThen fun _ => Sat.of_leaves ?_
  have named : Changes config p m { m with store := m.store.define m.scope name.lexeme .nil } :=
    .single (.defined binds (.inl rfl) .nil)
  unfold declareClass
  refine .of_done rfl (.of_done rfl ?_)
  cases superclass? with
  | none => exact changes_makeClass binds named
  | some superclass => exact .of_done rfl (changes_makeClass binds (named.tail (above _ rfl)))

theorem moves_active {q : Point} {yield : q.task.Result → Value}
    (changes : Changes config p m q.machine) : (planActive q yield).Moves config p m :=
  ⟨changes, fun _ => .single (.counted _), fun _ _ _ _ leaves =>
    leaves_done.mp leaves ▸ .single (.counted _)⟩

theorem moves_planCall {line arity count : Nat} {active : Plan Value}
    (inside : count = arity → m.depth < config.maxDepth → active.Moves config p m) :
    (planCall config m line arity count active).Moves config p m := by
  unfold planCall
  split
  · rename_i same
    split
    · rename_i room
      exact inside same room
    · exact moves_failed
  · exact moves_failed

end Plan

namespace Eval

variable {n : Nat} {held : List Root}

theorem moves_planExpression (e : Expr) :
    (planExpression n held m e).Moves config ⟨n + 1, held, .expression e, m⟩ m := by
  cases e with
  | literal value => exact moves_done
  | grouping inner => exact moves_last rfl
  | unary operator right => exact moves_ask rfl fun _ _ _ => moves_ofExcept
  | binary left operator right =>
    exact moves_ask rfl fun _ _ _ => moves_ask rfl fun _ _ _ => moves_ofExcept
  | logical left operator right =>
    refine moves_ask rfl fun left m _ => ?_
    split
    · exact moves_done
    · exact moves_last rfl
  | «variable» name distance => exact moves_lookUp
  | assign name value distance =>
    exact moves_ask rfl fun _ _ _ => moves_assign .assign
  | call callee paren arguments =>
    exact moves_ask rfl fun _ _ _ => moves_ask rfl fun _ _ _ => moves_last rfl
  | get object name =>
    refine moves_ask rfl fun object m first => ?_
    cases object with
    | «instance» id type => exact moves_property first
    | _ => exact moves_failed
  | set object name value =>
    refine moves_ask rfl fun object m first => ?_
    cases object with
    | «instance» id type =>
      refine moves_ask rfl fun value m _ m' leaves => ?_
      rw [leaves_done.mp leaves]
      exact .single (.field id name.lexeme value)
    | _ => exact moves_failed
  | this keyword distance => exact moves_lookUp
  | super keyword method distance => exact moves_superMethod

theorem moves_planExpressions (es : List Expr) :
    (planExpressions n held m es).Moves config ⟨n + 1, held, .expressions es, m⟩ m := by
  cases es with
  | nil => exact moves_done
  | cons e rest => exact moves_ask rfl fun _ _ _ => moves_ask rfl fun _ _ _ => moves_done

theorem moves_planActivity {line : Nat} {arguments : List Value} {callee : Value}
    (arity : callee.arity? = some arguments.length) (room : m.depth < config.maxDepth) :
    (planActivity config n held m line arguments callee).Moves config
      ⟨n + 1, held, .call callee line arguments, m⟩ m := by
  cases callee with
  | native function =>
    cases function
    intro m' leaves
    rw [leaves_done.mp leaves]
    exact ((Relation.ReflTransGen.single (.counted _)).tail .clocked).tail (.counted _)
  | closure function => exact moves_active (.single (.counted _))
  | «class» type =>
    cases declared : type.findMethod? initializerName with
    | none =>
      simp only [planActivity, declared]
      intro m' leaves
      rw [leaves_done.mp leaves]
      exact ((Relation.ReflTransGen.single .made).tail (.counted _)).tail (.counted _)
    | some method =>
      simp only [planActivity, declared]
      have same := (Option.some.inj arity).symm.trans (Class.arity_eq declared)
      exact moves_active (((Relation.ReflTransGen.single .made).tail (.counted _)).tail
        (.bound (.initializer declared same room)))
  | _ => cases arity

theorem moves_planCallee {line : Nat} {arguments : List Value} {callee : Value} :
    (planCallee config n held m line arguments callee).Moves config
      ⟨n + 1, held, .call callee line arguments, m⟩ m := by
  unfold planCallee
  cases arity : callee.arity? with
  | none => exact moves_failed
  | some count =>
    refine moves_planCall fun same room => moves_planActivity (arity.trans ?_) room
    exact congrArg some same.symm

theorem moves_planBody {function : Closure} {line : Nat} {arguments : List Value} :
    (planBody config n held m function line arguments).Moves config
      ⟨n + 1, held, .apply function line arguments, m⟩ m := by
  refine ⟨rfl, ⟨_, _, rfl⟩,
    fun flow m' _ => ⟨flow.roots ++ .scope function.scope :: held, ?_⟩⟩
  simp only
  split
  · exact moves_ofExcept
  · exact moves_done

theorem moves_planStatement (s : Stmt) :
    (planStatement config n held m s).Moves config ⟨n + 1, held, .statement s, m⟩ m := by
  cases s with
  | expression value => exact moves_ask rfl fun _ _ _ => moves_done
  | print value =>
    exact moves_ask rfl fun value m _ => moves_andThen fun m' leaves => changes_write leaves
  | varDecl name initializer? =>
    cases initializer? with
    | none => exact moves_define .varDecl
    | some initializer => exact moves_ask rfl fun _ _ _ => moves_define .varDecl
  | block body => exact ⟨rfl, ⟨_, _, rfl⟩, fun _ _ _ => ⟨_, moves_done⟩⟩
  | branch condition thenBranch elseBranch? =>
    refine moves_ask rfl fun value m _ => ?_
    split
    · exact moves_last rfl
    · cases elseBranch? with
      | none => exact moves_done
      | some elseBranch => exact moves_last rfl
  | loop condition body => exact moves_last rfl
  | functionDecl declaration =>
    intro m' leaves
    rw [leaves_done.mp leaves]
    exact (Relation.ReflTransGen.single (.closed m.scope declaration false)).tail
      (.defined .functionDecl (.inl rfl) _)
  | returns keyword value? =>
    cases value? with
    | none => exact moves_done
    | some value => exact moves_ask rfl fun _ _ _ => moves_done
  | classDecl name superclass? methods =>
    cases superclass? with
    | none => exact moves_declareClass none .classDecl nofun
    | some superclass =>
      refine moves_ask rfl fun above m first => ?_
      cases above with
      | «class» type =>
        refine moves_declareClass (some type) .classDecl fun superclass same => ?_
        cases same
        exact .inherited rfl first
      | _ => exact moves_failed

theorem moves_planStatements (ss : List Stmt) :
    (planStatements n held m ss).Moves config ⟨n + 1, held, .statements ss, m⟩ m := by
  cases ss with
  | nil => exact moves_done
  | cons s rest =>
    refine moves_ask rfl fun flow m _ => ?_
    cases flow with
    | normal => exact moves_last rfl
    | returned value => exact moves_done

theorem moves_planLoop (condition : Expr) (body : Stmt) :
    (planLoop n held m condition body).Moves config ⟨n + 1, held, .loop condition body, m⟩ m := by
  refine moves_ask rfl fun value m _ => ?_
  split
  · refine moves_ask rfl fun flow m _ => ?_
    cases flow with
    | normal => exact moves_last rfl
    | returned value => exact moves_done
  · exact moves_done

end Eval

theorem Point.moves (config : Config) (p : Point) : (p.plan config).Moves config p p.machine := by
  obtain ⟨steps, held, task, m⟩ := p
  cases steps with
  | zero =>
    cases task <;> exact fun m' leaves => absurd leaves not_leaves_unfinished
  | succ n =>
    cases task with
    | expression e => exact Eval.moves_planExpression e
    | expressions es => exact Eval.moves_planExpressions es
    | call callee line arguments => exact Eval.moves_planCallee
    | apply function line arguments => exact Eval.moves_planBody
    | statement s => exact Eval.moves_planStatement s
    | statements ss => exact Eval.moves_planStatements ss
    | loop condition body => exact Eval.moves_planLoop condition body

/-- What a scope binds after a change by the point `p`: what it has bound before, with one name put to
    another value, or, if the scope is new, `this` or `super` alone. -/
inductive Change.Gives (config : Config) (p : Point) (m : Machine) (id : ScopeId) :
    Bindings → Prop where
  | kept {scope : Scope} (before : m.store.scope? id = some scope) : Gives config p m id scope.bindings
  | put {scope : Scope} {name : Token} (before : m.store.scope? id = some scope)
      (binds : p.task.Binds name) (place : id = m.scope ∨ scope.Binds name.lexeme) (value : Value) :
      Gives config p m id (Bindings.put name.lexeme value scope.bindings)
  | receiver {method : Closure} {instanceId : InstanceId} {type : Class} (new : id = ⟨m.store.next⟩)
      (binds : BindsMethod config p m.store method instanceId type) :
      Gives config p m id [("this", .instance instanceId type)]
  | inherited {n : Nat} {held : List Root} {m₀ m₁ : Machine} {name : Token} {superclass : Expr}
      {methods : List FunctionDecl} {type : Class} (new : id = ⟨m.store.next⟩)
      (here : p = ⟨n + 1, held, .statement (.classDecl name (some superclass) methods), m₀⟩)
      (first : evaluate config n held superclass m₀ = .done (.class type) m₁)
      (same : m₁.store.next = m.store.next) : Gives config p m id [("super", .class type)]

theorem Store.bindings_capture {s : Store} {id other : ScopeId} {scope : Scope}
    (found : (s.capture id).scope? other = some scope) :
    ∃ before, s.scope? other = some before ∧ scope.bindings = before.bindings := by
  rcases s.scope?_capture id other with same | ⟨before, atOther, marked⟩
  · exact ⟨scope, same ▸ found, rfl⟩
  · rw [marked] at found
    cases found
    exact ⟨before, atOther, rfl⟩

theorem Store.bindings_newScope {s : Store} {enclosing? : Option ScopeId} {bindings : Bindings}
    {id : ScopeId} {scope : Scope} (found : (s.newScope enclosing? bindings).2.scope? id = some scope) :
    (id = ⟨s.next⟩ ∧ scope.bindings = bindings) ∨ s.scope? id = some scope := by
  rw [scope?_newScope] at found
  split at found
  · rename_i same
    cases found
    exact .inl ⟨ScopeId.index_inj.mp same, rfl⟩
  · exact .inr found

theorem Change.gives (change : Change config p m m') {id : ScopeId} {scope : Scope}
    (found : m'.store.scope? id = some scope) : Gives config p m id scope.bindings := by
  cases change with
  | @defined m name owner binds place value =>
    rw [Store.scope?_define] at found
    obtain ⟨before, atId, rfl⟩ := Option.map_eq_some_iff.mp found
    by_cases own : id = owner
    · rw [if_pos own]
      refine .put atId binds (place.imp own.trans fun ⟨target, atOwner, names⟩ => ?_) value
      rw [← own, atId] at atOwner
      cases atOwner
      exact names
    · rw [if_neg own]
      exact .kept atId
  | closed target declaration isInitializer =>
    obtain ⟨before, atId, same⟩ := Store.bindings_capture found
    exact same ▸ .kept atId
  | bound binds =>
    obtain ⟨marked, atId, same⟩ := Store.bindings_capture found
    rcases Store.bindings_newScope atId with ⟨new, bindings⟩ | old
    · exact same.trans bindings ▸ .receiver new binds
    · exact same ▸ .kept old
  | inherited here first =>
    rcases Store.bindings_newScope found with ⟨new, bindings⟩ | old
    · exact bindings ▸ .inherited new here first rfl
    · exact .kept old
  | field | identified | made | counted | clocked | wrote => exact .kept found

/-- An instance that a change makes gets a handle; the others keep theirs. -/
theorem Change.instances (change : Change config p m m') :
    (∀ id fields, m'.store.fields? id = some fields →
      (∃ before, m.store.fields? id = some before) ∨ .instance id ∈ m'.ledger.handles) ∧
    (∀ node ∈ m.ledger.handles, node ∈ m'.ledger.handles) := by
  cases change with
  | field id name value =>
    refine ⟨fun other fields found => .inl ?_, fun _ member => member⟩
    rw [Store.fields?_setField] at found
    obtain ⟨before, atOther, _⟩ := Option.map_eq_some_iff.mp found
    exact ⟨before, atOther⟩
  | made =>
    refine ⟨fun id fields found => ?_, fun _ member => Array.mem_push_of_mem _ member⟩
    rw [Store.fields?_newInstance] at found
    split at found
    · rename_i same
      refine .inr (Array.mem_push.mpr (.inr ?_))
      exact congrArg Node.instance (InstanceId.index_inj.mp same)
    · exact .inl ⟨fields, found⟩
  | @closed m target declaration isInitializer =>
    refine ⟨fun id fields found => .inl ⟨fields, ?_⟩, fun _ member => member⟩
    exact (Store.fields?_capture m.store.newIdentity.2 target id).symm.trans found
  | @bound m method instanceId type binds =>
    refine ⟨fun id fields found => .inl ⟨fields, ?_⟩, fun _ member => member⟩
    have same := Store.fields?_capture (m.store.newScope (some method.scope)
      [("this", .instance instanceId type)]).2.newIdentity.2 ⟨m.store.next⟩ id
    exact same.symm.trans found
  | defined | inherited | identified | counted | clocked | wrote =>
    exact ⟨fun id fields found => .inl ⟨fields, found⟩, fun _ member => member⟩

theorem Change.stays (change : Change config p m m') :
    m'.globals = m.globals ∧ m'.scope = m.scope := by
  cases change <;> exact ⟨rfl, rfl⟩

theorem Change.next_le (change : Change config p m m') : m.store.next ≤ m'.store.next := by
  cases change with
  | closed target declaration isInitializer =>
    exact (Store.next_capture _ target).symm ▸ Nat.le_succ _
  | @bound m method instanceId type binds =>
    exact (Store.next_capture _ ⟨m.store.next⟩).symm ▸ Nat.le_add_right _ 2
  | inherited | identified | made => exact Nat.le_succ _
  | defined | field | counted | clocked | wrote => exact Nat.le_refl _

end Lox
