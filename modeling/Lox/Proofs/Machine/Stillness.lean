import Lox.Proofs.Machine.Changes

namespace Lox

open Outcome Plan

structure Machine.Still (m m' : Machine) : Prop where
  output : m'.output = m.output
  ledger : m'.ledger = m.ledger

def Eval.Still {α : Type} (x : Eval α) : Prop := ∀ m m', (x m).Leaves m' → m.Still m'

namespace Machine

variable {m m' m'' : Machine}

theorem Still.refl (m : Machine) : m.Still m := ⟨rfl, rfl⟩

theorem Still.trans (first : m.Still m') (second : m'.Still m'') : m.Still m'' :=
  ⟨second.output.trans first.output, second.ledger.trans first.ledger⟩

end Machine

namespace Eval

variable {α β : Type} {config : Config}

theorem Still.pure (value : α) : Still (pure value) := fun m _ leaves => leaves_done.mp leaves ▸ .refl m

theorem Still.fail (fault : Fault) : Still (fail fault : Eval α) :=
  fun m _ leaves => leaves_failed.mp leaves ▸ .refl m

theorem Still.bind {x : Eval α} {next : α → Eval β} (first : x.Still)
    (rest : ∀ value, (next value).Still) : (x >>= next).Still := by
  intro m m' leaves
  rcases leaves_bind leaves with ⟨value, m₁, ended, later⟩ | ⟨fault, failed⟩
  · exact (first m m₁ (.inl ⟨value, ended⟩)).trans (rest value m₁ m' later)
  · exact first m m' (.inr ⟨fault, failed⟩)

theorem Still.get : Still get := fun m _ leaves => leaves_done.mp leaves ▸ .refl m

theorem Still.onStore (f : Store → α × Store) : Still (onStore f) :=
  fun _ _ leaves => leaves_done.mp leaves ▸ ⟨rfl, rfl⟩

theorem Still.ofExcept (result : Except Fault α) : Still (ofExcept result) := by
  cases result with
  | ok value => exact .pure value
  | error fault => exact .fail fault

theorem Still.setStore (result : Except Fault Store) : Still (setStore result) := by
  cases result with
  | ok store => exact fun _ _ leaves => leaves_done.mp leaves ▸ ⟨rfl, rfl⟩
  | error fault => exact .fail fault

theorem Still.lookUp (name : Token) (distance : Distance) : Still (lookUp name distance) := by
  intro m m' leaves
  cases distance <;> exact Still.ofExcept _ m m' leaves

theorem Still.assign (name : Token) (distance : Distance) (value : Value) :
    Still (assign name distance value) := by
  intro m m' leaves
  cases distance <;> exact Still.setStore _ m m' leaves

theorem Still.define (name : Token) (value : Value) : Still (define name value) :=
  fun _ _ leaves => leaves_done.mp leaves ▸ ⟨rfl, rfl⟩

theorem Still.innerScope (bindings : Bindings) : Still (innerScope bindings) :=
  fun _ _ leaves => leaves_done.mp leaves ▸ ⟨rfl, rfl⟩

theorem Still.property (id : InstanceId) (type : Class) (name : Token) :
    Still (property id type name) := by
  intro m m' leaves
  unfold Eval.property at leaves
  cases found : m.store.property id type name.lexeme name.line with
  | ok result =>
    rw [found] at leaves
    exact leaves_done.mp leaves ▸ ⟨rfl, rfl⟩
  | error fault =>
    rw [found] at leaves
    exact leaves_failed.mp leaves ▸ .refl m

theorem Still.superMethod (keyword method : Token) (distance : Distance) :
    Still (superMethod keyword method distance) := by
  cases distance with
  | none => exact .fail _
  | some distance =>
    refine .bind .get fun m => .bind (.ofExcept _) fun above => ?_
    cases above with
    | «class» superclass =>
      refine .bind (.ofExcept _) fun receiver => ?_
      cases receiver with
      | «instance» id type =>
        cases superclass.findMethod? method.lexeme with
        | some found => exact .bind (.onStore _) fun _ => .pure _
        | none => exact .fail _
      | _ => exact .fail _
    | _ => exact .fail _

theorem Still.closeMethods (scope : ScopeId) (methods : List FunctionDecl)
    (found : List (String × Closure)) : (closeMethods scope found methods).Still := by
  induction methods generalizing found with
  | nil => exact .pure found
  | cons method rest ih => exact .bind (.onStore _) fun _ => ih _

theorem Still.declareClass (name : Token) (superclass? : Option Class)
    (methods : List FunctionDecl) : (declareClass name superclass? methods).Still := by
  have made : ∀ scope, Still (do
      let methods ← Eval.closeMethods scope [] methods
      let identity ← Eval.onStore Store.newIdentity
      let m ← Eval.get
      Eval.setStore (m.store.assign m.scope name.lexeme
        (.class (.mk identity name.lexeme superclass? methods)) name.line)) := fun scope =>
    .bind (.closeMethods _ _ _) fun _ => .bind (.onStore _) fun _ => .bind .get fun _ => .setStore _
  refine .bind (.define name _) fun _ => .bind .get fun m => ?_
  cases superclass? with
  | none => exact .bind (.pure m.scope) made
  | some superclass => exact .bind (.innerScope _) made

end Eval

def Task.Prints : Task → Prop
  | statement (.print _) => True
  | expression _ | expressions _ | call _ _ _ | apply _ _ _ | statement _ | statements _ | loop _ _ =>
    False

def Task.Constructs : Task → Prop
  | call (.class _) _ _ => True
  | expression _ | expressions _ | call _ _ _ | apply _ _ _ | statement _ | statements _ | loop _ _ =>
    False

def Plan.Keeps (config : Config) (rel : Machine → Machine → Prop) {α : Type} : Machine → Plan α → Prop
  | m, .ends outcome => ∀ m', outcome.Leaves m' → rel m m'
  | m, .calls q resume (.back _ previous) =>
    rel m q.machine ∧ ∀ value m', ∃ held, (resume value m').Keeps config rel (m'.leave config held previous)
  | m, .calls q resume unwinding =>
    rel m q.machine ∧ (∀ m', rel m' (unwinding.run config m')) ∧
      ∀ value m', (resume value m').Keeps config rel m'

namespace Plan

open Eval

variable {config : Config} {rel : Machine → Machine → Prop} {α : Type} {n : Nat} {held : List Root}
  {m : Machine} (still : ∀ {m m' : Machine}, m.Still m' → rel m m')
include still

theorem keeps_done {value : α} : (done value m).Keeps config rel m :=
  fun _ leaves => leaves_done.mp leaves ▸ still (.refl _)

theorem keeps_ends {x : Eval α} (quiet : x.Still) : (ends (x m)).Keeps config rel m :=
  fun m' leaves => still (quiet m m' leaves)

theorem keeps_ask {q : Point} {resume : q.task.Result → Machine → Plan α} (same : q.machine = m)
    (rest : ∀ value m', (resume value m').Keeps config rel m') :
    (ask q resume).Keeps config rel m :=
  ⟨same ▸ still (.refl _), fun m' => still (.refl m'), rest⟩

theorem keeps_last {q : Point} (same : q.machine = m) : (ask q done).Keeps config rel m :=
  keeps_ask still same fun _ _ => keeps_done still

theorem keeps_planExpression (e : Expr) : (planExpression n held m e).Keeps config rel m := by
  cases e with
  | literal value => exact keeps_done still
  | grouping inner => exact keeps_last still rfl
  | unary operator right => exact keeps_ask still rfl fun _ _ => keeps_ends still (.ofExcept _)
  | binary left operator right =>
    exact keeps_ask still rfl fun _ _ => keeps_ask still rfl fun _ _ => keeps_ends still (.ofExcept _)
  | logical left operator right =>
    refine keeps_ask still rfl fun left m => ?_
    cases decidesAlone operator left with
    | true => exact keeps_done still
    | false => exact keeps_last still rfl
  | «variable» name distance => exact keeps_ends still (.lookUp name distance)
  | assign name value distance =>
    exact keeps_ask still rfl fun value _ =>
      keeps_ends still (.bind (.assign name distance value) fun _ => .pure _)
  | call callee paren arguments =>
    exact keeps_ask still rfl fun _ _ => keeps_ask still rfl fun _ _ => keeps_last still rfl
  | get object name =>
    refine keeps_ask still rfl fun object m => ?_
    cases object with
    | «instance» id type => exact keeps_ends still (.property id type name)
    | _ => exact keeps_ends still (.fail _)
  | set object name value =>
    refine keeps_ask still rfl fun object m => ?_
    cases object with
    | «instance» id type =>
      exact keeps_ask still rfl fun value m m' leaves => leaves_done.mp leaves ▸ still ⟨rfl, rfl⟩
    | _ => exact keeps_ends still (.fail _)
  | this keyword distance => exact keeps_ends still (.lookUp keyword distance)
  | super keyword method distance => exact keeps_ends still (.superMethod keyword method distance)

theorem keeps_active {q : Point} {yield : q.task.Result → Value} (before : rel m q.machine) :
    (planActive q yield).Keeps config rel m :=
  ⟨before, fun _ => still ⟨rfl, rfl⟩, fun _ _ _ leaves => leaves_done.mp leaves ▸ still ⟨rfl, rfl⟩⟩

theorem keeps_planActivity {line : Nat} {arguments : List Value} {callee : Value}
    (made : ∀ type, callee = .class type → ∀ m s depth, rel m
      { m with store := s, ledger := m.ledger.track (.instance m.store.newInstance.1), depth := depth }) :
    (planActivity config n held m line arguments callee).Keeps config rel m := by
  cases callee with
  | native function =>
    cases function
    exact fun m' leaves => leaves_done.mp leaves ▸ still ⟨rfl, rfl⟩
  | closure function => exact keeps_active still (still ⟨rfl, rfl⟩)
  | «class» type =>
    cases declared : type.findMethod? initializerName with
    | none =>
      simp only [planActivity, declared]
      exact fun m' leaves => leaves_done.mp leaves ▸ made type rfl m _ _
    | some method =>
      simp only [planActivity, declared]
      exact keeps_active still (made type rfl m _ _)
  | _ => exact keeps_ends still (.fail _)

theorem keeps_planCallee {line : Nat} {arguments : List Value} {callee : Value}
    (made : ∀ type, callee = .class type → ∀ m s depth, rel m
      { m with store := s, ledger := m.ledger.track (.instance m.store.newInstance.1), depth := depth }) :
    (planCallee config n held m line arguments callee).Keeps config rel m := by
  unfold planCallee planCall
  cases callee.arity? with
  | none => exact keeps_ends still (.fail _)
  | some count =>
    simp only
    split
    · split
      · exact keeps_planActivity still made
      · exact keeps_ends still (.fail _)
    · exact keeps_ends still (.fail _)

theorem keeps_planBody {function : Closure} {line : Nat} {arguments : List Value} :
    (planBody config n held m function line arguments).Keeps config rel m := by
  refine ⟨still ⟨rfl, rfl⟩, fun flow m' => ⟨flow.roots ++ .scope function.scope :: held, ?_⟩⟩
  simp only
  split
  · exact keeps_ends still (.ofExcept _)
  · exact keeps_done still

theorem keeps_planStatement {s : Stmt}
    (wrote : (Task.statement s).Prints → ∀ m output, rel m { m with output := output }) :
    (planStatement config n held m s).Keeps config rel m := by
  cases s with
  | expression value => exact keeps_ask still rfl fun _ _ => keeps_done still
  | print value =>
    refine keeps_ask still rfl fun value m m' leaves => ?_
    have left := leaves_andThen_result leaves
    unfold Machine.write at left
    split at left
    · exact leaves_done.mp left ▸ wrote trivial m _
    · simp only at left
      split at left
      · exact leaves_done.mp left ▸ wrote trivial m _
      · exact leaves_failed.mp left ▸ wrote trivial m _
  | varDecl name initializer? =>
    cases initializer? with
    | none => exact keeps_ends still (.bind (.define name _) fun _ => .pure _)
    | some initializer =>
      exact keeps_ask still rfl fun _ _ => keeps_ends still (.bind (.define name _) fun _ => .pure _)
  | block body => exact ⟨still ⟨rfl, rfl⟩, fun flow m' => ⟨_, keeps_done still⟩⟩
  | branch condition thenBranch elseBranch? =>
    refine keeps_ask still rfl fun value m => ?_
    cases value.isTruthy with
    | true => exact keeps_last still rfl
    | false =>
      cases elseBranch? with
      | none => exact keeps_done still
      | some elseBranch => exact keeps_last still rfl
  | loop condition body => exact keeps_last still rfl
  | functionDecl declaration =>
    exact fun _ leaves => leaves_done.mp leaves ▸ still ⟨rfl, rfl⟩
  | returns keyword value? =>
    cases value? with
    | none => exact keeps_done still
    | some value => exact keeps_ask still rfl fun _ _ => keeps_done still
  | classDecl name superclass? methods =>
    cases superclass? with
    | none => exact keeps_ends still (.bind (.declareClass name none methods) fun _ => .pure _)
    | some superclass =>
      refine keeps_ask still rfl fun above m => ?_
      cases above with
      | «class» type =>
        exact keeps_ends still (.bind (.declareClass name (some type) methods) fun _ => .pure _)
      | _ => exact keeps_ends still (.fail _)

theorem keeps_planStatements (ss : List Stmt) : (planStatements n held m ss).Keeps config rel m := by
  cases ss with
  | nil => exact keeps_done still
  | cons s rest =>
    refine keeps_ask still rfl fun flow m => ?_
    cases flow with
    | normal => exact keeps_last still rfl
    | returned value => exact keeps_done still

theorem keeps_planLoop (condition : Expr) (body : Stmt) :
    (planLoop n held m condition body).Keeps config rel m := by
  refine keeps_ask still rfl fun value m => ?_
  cases value.isTruthy with
  | true =>
    refine keeps_ask still rfl fun flow m => ?_
    cases flow with
    | normal => exact keeps_last still rfl
    | returned value => exact keeps_done still
  | false => exact keeps_done still

end Plan

/-- Only a print touches the output, and only a call of a class and the leaving of scopes the
    ledger. -/
theorem Point.keeps {config : Config} {rel : Machine → Machine → Prop} {p : Point}
    (still : ∀ {m m' : Machine}, m.Still m' → rel m m')
    (wrote : p.task.Prints → ∀ m output, rel m { m with output := output })
    (made : p.task.Constructs → ∀ m s depth, rel m
      { m with store := s, ledger := m.ledger.track (.instance m.store.newInstance.1), depth := depth }) :
    (p.plan config).Keeps config rel p.machine := by
  obtain ⟨steps, held, task, m⟩ := p
  cases steps with
  | zero => cases task <;> exact fun _ leaves => absurd leaves not_leaves_unfinished
  | succ n =>
    cases task with
    | expression e => exact keeps_planExpression still e
    | expressions es =>
      cases es with
      | nil => exact keeps_done still
      | cons e rest =>
        exact keeps_ask still rfl fun _ _ => keeps_ask still rfl fun _ _ => keeps_done still
    | call callee line arguments =>
      refine keeps_planCallee still fun type same => made ?_
      exact same ▸ trivial
    | apply function line arguments => exact keeps_planBody still
    | statement s => exact keeps_planStatement still wrote
    | statements ss => exact keeps_planStatements still ss
    | loop condition body => exact keeps_planLoop still condition body

end Lox
